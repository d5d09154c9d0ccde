import Mathlib

/-!
# Copying element by element

`copyUp` and `copyDown` copy `n` cells of a memory, one after the other, in the order of their addresses
or against it. The ranges may overlap, so a cell may be read after it was written. Two facts say all there
is: the `i`-th cell copied holds what the source held after the first `i` rounds (`copyUp_at`), and a cell
outside the destination keeps its value (`copyUp_of_outside`).
-/

namespace CopyLoop

open Function (update update_self update_of_ne)

variable {α : Type*}

/-- `while (n-- > 0) *d++ = *s++;` -/
def copyUp (mem : Nat → α) (d s : Nat) : Nat → Nat → α
  | 0 => mem
  | n + 1 => copyUp (update mem d (mem s)) (d + 1) (s + 1) n

/-- `while (n-- > 0) *--d = *--s;` -/
def copyDown (mem : Nat → α) (d s : Nat) : Nat → Nat → α
  | 0 => mem
  | n + 1 => copyDown (update mem (d - 1) (mem (s - 1))) (d - 1) (s - 1) n

/-- The `n` cells from `d` on hold what the `n` cells from `s` on held in `mem`, and nothing else has changed. -/
structure Copied (mem : Nat → α) (d s n : Nat) (mem' : Nat → α) : Prop where
  inside : ∀ i, i < n → mem' (d + i) = mem (s + i)
  outside : ∀ a, a < d ∨ d + n ≤ a → mem' a = mem a

variable {mem : Nat → α} {d s n i a : Nat}

/-! ### Upwards -/

theorem copyUp_succ (mem : Nat → α) (d s n : Nat) :
    copyUp mem d s (n + 1) = update (copyUp mem d s n) (d + n) (copyUp mem d s n (s + n)) := by
  induction n generalizing mem d s with
  | zero => rfl
  | succ n ih =>
    rw [copyUp, ih, Nat.add_right_comm d 1 n, Nat.add_right_comm s 1 n]
    rfl

theorem copyUp_of_outside (h : a < d ∨ d + n ≤ a) : copyUp mem d s n a = mem a := by
  induction n with
  | zero => rfl
  | succ n ih =>
    rw [copyUp_succ, update_of_ne (by omega)]
    exact ih (by omega)

theorem copyUp_at (h : i < n) : copyUp mem d s n (d + i) = copyUp mem d s i (s + i) := by
  induction n with
  | zero => exact absurd h (Nat.not_lt_zero i)
  | succ n ih =>
    rw [copyUp_succ]
    rcases Nat.lt_succ_iff_lt_or_eq.1 h with h | rfl
    · rw [update_of_ne (by omega), ih h]
    · exact update_self ..

/-- Upwards a copy is right unless its destination begins inside its source. -/
theorem copied_copyUp (h : d ≤ s ∨ s + n ≤ d) : Copied mem d s n (copyUp mem d s n) :=
  ⟨fun i hi => by rw [copyUp_at hi, copyUp_of_outside (by omega)], fun _ => copyUp_of_outside⟩

/-- Where it does, the first cell of the source is repeated. -/
theorem copyUp_repeats (h : s < d) (hn : d < s + n) : copyUp mem d s n (d + (d - s)) = mem s := by
  have hpos : 0 < d - s := Nat.sub_pos_of_lt h
  have hself : s + (d - s) = d + 0 := by omega
  rw [copyUp_at (by omega), hself, copyUp_at hpos]
  rfl

/-! ### Downwards -/

theorem copyDown_succ (mem : Nat → α) (d s n : Nat) :
    copyDown mem d s (n + 1) = update (copyDown mem d s n) (d - n - 1) (copyDown mem d s n (s - n - 1)) := by
  induction n generalizing mem d s with
  | zero => rfl
  | succ n ih =>
    rw [copyDown, ih, Nat.sub_right_comm d 1 n, Nat.sub_right_comm s 1 n]
    rfl

theorem copyDown_of_outside (h : a < d - n ∨ d ≤ a) (hn : n ≤ d) : copyDown mem d s n a = mem a := by
  induction n with
  | zero => rfl
  | succ n ih =>
    rw [copyDown_succ, update_of_ne (by omega)]
    exact ih (by omega) (by omega)

theorem copyDown_at (h : i < n) (hn : n ≤ d) :
    copyDown mem d s n (d - i - 1) = copyDown mem d s i (s - i - 1) := by
  induction n with
  | zero => exact absurd h (Nat.not_lt_zero i)
  | succ n ih =>
    rw [copyDown_succ]
    rcases Nat.lt_succ_iff_lt_or_eq.1 h with h | rfl
    · rw [update_of_ne (by omega), ih h (by omega)]
    · exact update_self ..

/-- Downwards a copy is right if its source begins below its destination. -/
theorem copied_copyDown (h : s < d) : Copied mem d s n (copyDown mem (d + n) (s + n) n) := by
  refine ⟨fun i hi => ?_, fun a ha => copyDown_of_outside (by omega) (by omega)⟩
  have hd : d + i = d + n - (n - 1 - i) - 1 := by omega
  have hs : s + n - (n - 1 - i) - 1 = s + i := by omega
  rw [hd, copyDown_at (by omega) (by omega), hs, copyDown_of_outside (by omega) (by omega)]

end CopyLoop
