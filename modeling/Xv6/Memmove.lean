import Xv6.Lib.CopyLoop

/-!
# The two `memmove`s (`string.c`, `ulib.c`)

The kernel's `memmove` looks at how the ranges lie and copies downwards where that is needed. The one of the
user library always copies upwards, and takes the length for an `int`. Addresses are numbers below 2^32; the
ranges do not wrap around.
-/

namespace Xv6

open CopyLoop

/-- `memmove` of `string.c`. The pointer `s + n` may be 0, at the end of the address space. -/
def Str.memmove (mem : Nat → UInt8) (dst src n : Nat) : Nat → UInt8 :=
  if src < dst ∧ dst < (src + n) % 2 ^ 32 then copyDown mem (dst + n) (src + n) n
  else copyUp mem dst src n

/-- `memmove` of `ulib.c`. -/
def Ulib.memmove (mem : Nat → UInt8) (dst src : Nat) (n : Int) : Nat → UInt8 := copyUp mem dst src n.toNat

/-- A `uint` passed as an `int`. -/
def Ulib.intOf (n : Nat) : Int := Int.bmod n (2 ^ 32)

variable {mem : Nat → UInt8} {dst src n : Nat}

theorem toNat_intOf (h : n < 2 ^ 32) : (Ulib.intOf n).toNat = if n < 2 ^ 31 then n else 0 := by
  unfold Ulib.intOf
  rw [Int.bmod_def]
  split <;> split <;> omega

theorem copied_str_memmove (hs : src + n ≤ 2 ^ 32) (hd : dst + n ≤ 2 ^ 32) :
    Copied mem dst src n (Str.memmove mem dst src n) := by
  unfold Str.memmove
  split
  · rename_i h
    exact copied_copyDown h.1
  · rename_i h
    refine copied_copyUp ?_
    by_contra hover
    -- a destination above the source ends above it, so that the source ends below 2^32
    have hlt : src + n < 2 ^ 32 := by omega
    rw [Nat.mod_eq_of_lt hlt] at h
    omega

theorem copied_ulib_memmove (h : dst ≤ src ∨ src + n ≤ dst) :
    Copied mem dst src n (Ulib.memmove mem dst src n) := copied_copyUp h

theorem copyUp_self (mem : Nat → UInt8) (a n : Nat) : copyUp mem a a n = mem := by
  funext b
  rcases Nat.lt_or_ge b a with hb | hb
  · exact copyUp_of_outside (.inl hb)
  · obtain ⟨i, rfl⟩ := Nat.exists_eq_add_of_le hb
    rcases Nat.lt_or_ge i n with hi | hi
    · exact (copied_copyUp (.inl (Nat.le_refl a))).inside i hi
    · exact copyUp_of_outside (.inr (by omega))

/-- Whatever memory holds, the kernel's `memmove` moves the bytes; the library's one does so unless the destination
begins inside the source or the length is negative as an `int`. -/
theorem memmove_agree_iff (hn : n < 2 ^ 32) (hs : src + n ≤ 2 ^ 32) (hd : dst + n ≤ 2 ^ 32) :
    (∀ mem, Copied mem dst src n (Str.memmove mem dst src n)) ∧
    ((∀ mem, Copied mem dst src n (Str.memmove mem dst src n) ∧
        Copied mem dst src n (Ulib.memmove mem dst src (Ulib.intOf n))) ↔
      dst = src ∨ n < 2 ^ 31 ∧ ¬ (src < dst ∧ dst < src + n)) := by
  refine ⟨fun mem => copied_str_memmove hs hd, fun h => ?_, fun h mem => ⟨copied_str_memmove hs hd, ?_⟩⟩
  · by_contra hnot
    rw [not_or] at hnot
    -- one byte, at the start of the source
    have hmark := (h fun a => if a = src then 1 else 0).2
    unfold Ulib.memmove at hmark
    rw [toNat_intOf hn] at hmark
    rcases Nat.lt_or_ge n (2 ^ 31) with hlt | hge
    · rw [if_pos hlt] at hmark
      have hover : src < dst ∧ dst < src + n := by
        by_contra hno
        exact hnot.2 ⟨hlt, hno⟩
      have hrep := hmark.inside (dst - src) (by omega)
      rw [copyUp_repeats hover.1 hover.2, if_pos rfl, if_neg (by omega)] at hrep
      exact absurd hrep (by decide)
    · rw [if_neg (by omega)] at hmark
      have hfirst := hmark.inside 0 (by omega)
      rw [copyUp, Nat.add_zero, Nat.add_zero, if_pos rfl, if_neg hnot.1] at hfirst
      exact absurd hfirst (by decide)
  · unfold Ulib.memmove
    rcases h with rfl | ⟨hlt, hno⟩
    · rw [copyUp_self]
      exact ⟨fun _ _ => rfl, fun _ _ => rfl⟩
    · rw [toNat_intOf hn, if_pos hlt]
      exact copied_copyUp (by omega)

theorem memmove_agree_iff_down : ¬ (1 < 0 ∧ 0 < 1 + 3) ∧
    Copied (fun a => UInt8.ofNat (10 * a)) 0 1 3 (Ulib.memmove (fun a => UInt8.ofNat (10 * a)) 0 1 (Ulib.intOf 3)) :=
  ⟨by decide, ((memmove_agree_iff (by decide) (by decide) (by decide)).2.2 (.inr (by decide)) _).2⟩

/-- Two bytes moved up by one: the first of them arrives twice. -/
theorem ulib_memmove_repeats :
    ¬ Copied (fun a => UInt8.ofNat (10 * a + 1)) 1 0 2
      (Ulib.memmove (fun a => UInt8.ofNat (10 * a + 1)) 1 0 (Ulib.intOf 2)) :=
  fun h => absurd (h.inside 1 (by decide)) (by decide)

end Xv6
