import Mathlib

/-!
# The keyboard and `consoleget` (`kbd.c`, `console.c`)

`kbdgetc` takes one byte from the controller, if there is one, and turns it into a character, 0 for a
byte that types nothing, or -1. `consoleget` calls it until it gets a character. What it sees of the
keyboard is the stream of the values of these calls; `values` is that stream for the bytes the
controller delivers.

The loop of `consoleget` makes a second call after a 0 and drops its value, so it looks at every
value but those that follow a 0 it has looked at. `zerosBefore` counts the zeros right before a value:
the values looked at are those with an even number of them.
-/

namespace Xv6.Keyboard

/-! ### `kbd.h` -/

abbrev KBS_DIB : Nat := 0x01
abbrev SHIFT : Nat := 1 <<< 0
abbrev CTL : Nat := 1 <<< 1
abbrev ALT : Nat := 1 <<< 2
abbrev CAPSLOCK : Nat := 1 <<< 3
abbrev NUMLOCK : Nat := 1 <<< 4
abbrev SCROLLLOCK : Nat := 1 <<< 5
abbrev E0ESC : Nat := 1 <<< 6

abbrev NO : Char := '\x00'

def shiftcode : Nat → Nat
  | 0x1D => CTL
  | 0x2A => SHIFT
  | 0x36 => SHIFT
  | 0x38 => ALT
  | 0x9D => CTL
  | 0xB8 => ALT
  | _ => 0

def togglecode : Nat → Nat
  | 0x3A => CAPSLOCK
  | 0x45 => NUMLOCK
  | 0x46 => SCROLLLOCK
  | _ => 0

def special : Nat → Nat
  | 0xC8 => 0xE2 -- KEY_UP
  | 0xD0 => 0xE3 -- KEY_DN
  | 0xC9 => 0xE6 -- KEY_PGUP
  | 0xD1 => 0xE7 -- KEY_PGDN
  | 0xCB => 0xE4 -- KEY_LF
  | 0xCD => 0xE5 -- KEY_RT
  | 0x97 => 0xE0 -- KEY_HOME
  | 0xCF => 0xE1 -- KEY_END
  | 0xD2 => 0xE8 -- KEY_INS
  | 0xD3 => 0xE9 -- KEY_DEL
  | _ => 0

/-- A map of 256 characters: the rows it lists from 0 on, the two keys of the keypad, the special keys. -/
def keymap (rows : List Char) (enter div : Nat) (data : Nat) : Nat :=
  if data < rows.length then (rows.getD data NO).toNat
  else if data = 0x9C then enter
  else if data = 0xB5 then div
  else special data

def normalmap : Nat → Nat := keymap
  [NO,  '\x1b', '1', '2', '3', '4', '5', '6', '7', '8', '9', '0', '-', '=', '\x08', '\t',
   'q', 'w', 'e', 'r', 't', 'y', 'u', 'i', 'o', 'p', '[', ']', '\n', NO, 'a', 's',
   'd', 'f', 'g', 'h', 'j', 'k', 'l', ';', '\x27', '\x60', NO, '\x5c', 'z', 'x', 'c', 'v',
   'b', 'n', 'm', ',', '.', '/', NO, '*', NO, ' ', NO, NO, NO, NO, NO, NO,
   NO, NO, NO, NO, NO, NO, NO, '7', '8', '9', '-', '4', '5', '6', '+', '1',
   '2', '3', '0', '.', NO, NO, NO, NO] 10 47

def shiftmap : Nat → Nat := keymap
  [NO,  '\x1b', '!', '@', '#', '$', '%', '^', '&', '*', '(', ')', '_', '+', '\x08', '\t',
   'Q', 'W', 'E', 'R', 'T', 'Y', 'U', 'I', 'O', 'P', '\x7b', '\x7d', '\n', NO, 'A', 'S',
   'D', 'F', 'G', 'H', 'J', 'K', 'L', ':', '\x22', '~', NO, '|', 'Z', 'X', 'C', 'V',
   'B', 'N', 'M', '<', '>', '?', NO, '*', NO, ' ', NO, NO, NO, NO, NO, NO,
   NO, NO, NO, NO, NO, NO, NO, '7', '8', '9', '-', '4', '5', '6', '+', '1',
   '2', '3', '0', '.', NO, NO, NO, NO] 10 47

/-- `C(x)` is `x - '@'`, in a byte. -/
def ctlmap : Nat → Nat := keymap
  [NO, NO, NO, NO, NO, NO, NO, NO, NO, NO, NO, NO, NO, NO, NO, NO,
   '\x11', '\x17', '\x05', '\x12', '\x14', '\x19', '\x15', '\x09', '\x0f', '\x10', NO, NO, '\r', NO, '\x01', '\x13',
   '\x04', '\x06', '\x07', '\x08', '\x0a', '\x0b', '\x0c', NO, NO, NO, NO, '\x1c', '\x1a', '\x18', '\x03', '\x16',
   '\x02', '\x0e', '\x0d', NO, NO, '\xef', NO, NO] 13 0xEF

/-! ### `kbdgetc` -/

def charcode (i : Nat) : Nat → Nat := if i = 0 then normalmap else if i = 1 then shiftmap else ctlmap

/-- Caps lock exchanges the case of letters. -/
def capslock (c : Nat) : Nat :=
  if 97 ≤ c ∧ c ≤ 122 then c - 32 else if 65 ≤ c ∧ c ≤ 90 then c + 32 else c

def press (shift data : Nat) : Int × Nat :=
  let shift := (shift ||| shiftcode data) ^^^ togglecode data
  let c := charcode (shift &&& (CTL ||| SHIFT)) data
  (if shift &&& CAPSLOCK ≠ 0 then capslock c else c, shift)

/-- `kbdgetc` with the bytes `st` and `data` at the ports of the controller: what it returns, and the
modifiers `shift` after it. -/
def kbdgetc (st data : UInt8) (shift : Nat) : Int × Nat :=
  let data := data.toNat
  if st.toNat &&& KBS_DIB = 0 then (-1, shift)
  else if data = 0xE0 then (0, shift ||| E0ESC)
  else if data &&& 0x80 ≠ 0 then
    let data := if shift &&& E0ESC ≠ 0 then data else data &&& 0x7F
    -- the bits of the released key and of the escape are cleared
    let off := shiftcode data ||| E0ESC
    (0, (shift ||| off) ^^^ off)
  else if shift &&& E0ESC ≠ 0 then press ((shift ||| E0ESC) ^^^ E0ESC) (data ||| 0x80)
  else press shift data

/-- The modifiers after `k` calls, when the `i`-th call finds `ports i` at the controller. -/
def shiftAfter (ports : Nat → UInt8 × UInt8) : Nat → Nat
  | 0 => 0
  | k + 1 => (kbdgetc (ports k).1 (ports k).2 (shiftAfter ports k)).2

def values (ports : Nat → UInt8 × UInt8) (k : Nat) : Int :=
  (kbdgetc (ports k).1 (ports k).2 (shiftAfter ports k)).1

/-! ### `consoleget` -/

/-- The loop of `consoleget` on the stream `v` after `k` calls of `kbdgetc`, in at most the given number of
rounds: the value returned and the number of calls made. -/
def consolegetLoop (v : Nat → Int) : Nat → Nat → Option (Int × Nat)
  | 0, _ => none
  | n + 1, k =>
    if v k ≤ 0 then
      -- the value of the second call is assigned to `c` and overwritten by the next round
      if v k = 0 then consolegetLoop v n (k + 2) else consolegetLoop v n (k + 1)
    else some (v k, k + 1)

def consoleget (v : Nat → Int) (n : Nat) : Option (Int × Nat) := consolegetLoop v n 0

/-- The number of zeros right before the value `i`. -/
def zerosBefore (v : Nat → Int) : Nat → Nat
  | 0 => 0
  | i + 1 => if v i = 0 then zerosBefore v i + 1 else 0

variable {v : Nat → Int} {i k : Nat}

theorem zerosBefore_of_zero (h : v k = 0) : zerosBefore v (k + 1) = zerosBefore v k + 1 := if_pos h

theorem zerosBefore_of_ne (h : v k ≠ 0) : zerosBefore v (k + 1) = 0 := if_neg h

theorem even_zerosBefore_skip (h : v k = 0) (he : Even (zerosBefore v k)) : Even (zerosBefore v (k + 2)) := by
  by_cases h' : v (k + 1) = 0
  · rw [zerosBefore_of_zero h', zerosBefore_of_zero h, add_assoc]
    exact he.add even_two
  · rw [zerosBefore_of_ne h']
    exact Even.zero

/-- `consoleget` never goes back: it returns a value at or after the one it looks at. -/
theorem consolegetLoop_le {n : Nat} {c : Int} {m : Nat} (h : consolegetLoop v n k = some (c, m)) : k < m := by
  induction n generalizing k with
  | zero => cases h
  | succ n ih =>
    unfold consolegetLoop at h
    split_ifs at h
    · exact lt_trans (by omega) (ih h)
    · exact lt_trans (by omega) (ih h)
    · cases h
      exact Nat.lt_succ_self k

/-- From a value it looks at, the loop gets to the first character when that one has an even number of zeros
before it, and has passed it otherwise. -/
theorem consolegetLoop_iff (hi : 0 < v i) (hneg : ∀ j < i, v j ≤ 0) (hk : k ≤ i) (he : Even (zerosBefore v k)) :
    (∃ n, consolegetLoop v n k = some (v i, i + 1)) ↔ Even (zerosBefore v i) := by
  -- on the number of values up to the character
  induction hd : i - k using Nat.strong_induction_on generalizing k with
  | _ d ih =>
    rcases hk.eq_or_lt with rfl | hlt
    · exact iff_of_true ⟨1, if_neg (not_le.2 hi)⟩ he
    have hle := hneg k hlt
    have hpeel : ∀ j, (∀ n, consolegetLoop v (n + 1) k = consolegetLoop v n j) →
        ((∃ n, consolegetLoop v n k = some (v i, i + 1)) ↔ ∃ n, consolegetLoop v n j = some (v i, i + 1)) := by
      intro j hj
      constructor
      · rintro ⟨_ | n, hn⟩
        · cases hn
        · exact ⟨n, (hj n).symm.trans hn⟩
      · rintro ⟨n, hn⟩
        exact ⟨n + 1, (hj n).trans hn⟩
    by_cases h0 : v k = 0
    · rw [hpeel (k + 2) fun n => by rw [consolegetLoop, if_pos hle, if_pos h0]]
      by_cases hki : k + 2 ≤ i
      · exact ih (i - (k + 2)) (by omega) hki (even_zerosBefore_skip h0 he) rfl
      · -- the second call took the character
        obtain rfl : i = k + 1 := by omega
        refine iff_of_false ?_ ?_
        · rintro ⟨n, hn⟩
          exact absurd (consolegetLoop_le hn) (by omega)
        · rw [zerosBefore_of_zero h0, Nat.even_add_one, not_not]
          exact he
    · rw [hpeel (k + 1) fun n => by rw [consolegetLoop, if_pos hle, if_neg h0]]
      refine ih (i - (k + 1)) (by omega) hlt ?_ rfl
      rw [zerosBefore_of_ne h0]
      exact Even.zero

/-- `consoleget` returns the first character typed, and has made no call after it, if and only if an even number
of zeros comes right before it. -/
theorem consoleget_first_iff (v : Nat → Int) (i : Nat) (hi : 0 < v i) (hneg : ∀ j < i, v j ≤ 0) :
    (∃ n, consoleget v n = some (v i, i + 1)) ↔ Even (zerosBefore v i) :=
  consolegetLoop_iff hi hneg i.zero_le Even.zero

def typed (bytes : List UInt8) (k : Nat) : UInt8 × UInt8 :=
  if k < bytes.length then (1, bytes.getD k 0) else (0, 0)

/-- Shift is pressed and released, and then `A`: the two zeros come in pairs. -/
theorem consoleget_first_after_pair :
    ∃ n, consoleget (values (typed [0x2A, 0xAA, 0x1E])) n = some (97, 3) :=
  (consoleget_first_iff (values (typed [0x2A, 0xAA, 0x1E])) 2 (by decide +kernel) (by decide +kernel)).2
    (by decide +kernel)

/-- The release of `b` comes in between: `a` is dropped, and `c`, typed after it, is returned. -/
theorem consoleget_drops_key :
    let v := values (typed [0xB0, 0x1E, 0x2E])
    v 0 = 0 ∧ v 1 = 97 ∧ v 2 = 99 ∧ consoleget v 2 = some (99, 3) ∧
      ¬ ∃ n, consoleget v n = some (97, 2) := by
  have hv : values (typed [0xB0, 0x1E, 0x2E]) 0 = 0 ∧ values (typed [0xB0, 0x1E, 0x2E]) 1 = 97 ∧
      values (typed [0xB0, 0x1E, 0x2E]) 2 = 99 := by decide +kernel
  refine ⟨hv.1, hv.2.1, hv.2.2, by decide +kernel, ?_⟩
  rintro ⟨_ | n, hn⟩
  · cases hn
  · rw [consoleget, consolegetLoop, if_pos hv.1.le, if_pos hv.1] at hn
    exact absurd (consolegetLoop_le hn) (by decide)

end Xv6.Keyboard
