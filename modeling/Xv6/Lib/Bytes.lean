import Mathlib

/-!
# Byte buffers and little-endian fields

`Bytes n` is a buffer of `n` bytes. `put` overwrites a range of it, `getLE` and `putLE` read and write
a little-endian number of a given width at a given offset. `word` and `setWord` are the array of
32-bit words laid over a buffer, `bit`, `setBit` and `clearBit` the array of bits.
-/

abbrev Bytes (n : Nat) : Type := Fin n → UInt8

-- named, so that the numerals of `Fin n` are the same terms in every module
instance neZero2 : NeZero 2 := ⟨by decide⟩
instance neZero50 : NeZero 50 := ⟨by decide⟩
instance neZero64 : NeZero 64 := ⟨by decide⟩
instance neZero512 : NeZero 512 := ⟨by decide⟩
instance neZero1024 : NeZero 1024 := ⟨by decide⟩

namespace Bytes

variable {n : Nat}

/-- The byte at `i`, zero outside the buffer. -/
def get (b : Bytes n) (i : Nat) : UInt8 := if h : i < n then b ⟨i, h⟩ else 0

/-- Overwrites the `len` bytes from `off` on by `src 0, src 1, …`, as far as the buffer goes. -/
def put (b : Bytes n) (off len : Nat) (src : Nat → UInt8) : Bytes n :=
  fun i => if off ≤ i.val ∧ i.val < off + len then src (i.val - off) else b i

def zero (n : Nat) : Bytes n := fun _ => 0

@[simp] theorem get_zero (i : Nat) : (zero n).get i = 0 := by unfold get zero; split <;> rfl

theorem get_put (b : Bytes n) (off len : Nat) (src : Nat → UInt8) (i : Nat) (hi : i < n) :
    (b.put off len src).get i = if off ≤ i ∧ i < off + len then src (i - off) else b.get i := by
  simp only [get, put, hi, dite_true]

theorem get_put_of_disjoint (b : Bytes n) {off len : Nat} (src : Nat → UInt8) {i : Nat}
    (h : i < off ∨ off + len ≤ i) : (b.put off len src).get i = b.get i := by
  by_cases hi : i < n
  · rw [get_put b off len src i hi, if_neg (by omega)]
  · simp only [get, hi, dite_false]

/-! ### Little-endian numbers -/

/-- The number whose base-256 digits, lowest first, are `len` bytes from `off` on. -/
def leNat (f : Nat → UInt8) : Nat → Nat → Nat
  | _, 0 => 0
  | off, len + 1 => (f off).toNat + 256 * leNat f (off + 1) len

/-- The `k`-th base-256 digit of `v`. -/
def leByte (v k : Nat) : UInt8 := UInt8.ofNat (v / 256 ^ k)

theorem leNat_lt (f : Nat → UInt8) (off len : Nat) : leNat f off len < 256 ^ len := by
  induction len generalizing off with
  | zero => simp [leNat]
  | succ len ih =>
    have h1 := ih (off + 1)
    have h2 := (f off).toNat_lt
    rw [leNat, pow_succ]
    omega

theorem leNat_congr {f g : Nat → UInt8} {off len : Nat}
    (h : ∀ i, off ≤ i → i < off + len → f i = g i) : leNat f off len = leNat g off len := by
  induction len generalizing off with
  | zero => rfl
  | succ len ih =>
    rw [leNat, leNat, h off le_rfl (by omega), ih fun i h1 h2 => h i (by omega) (by omega)]

theorem leNat_zero {f : Nat → UInt8} {off len : Nat} (h : ∀ i, off ≤ i → i < off + len → f i = 0) :
    leNat f off len = 0 := by
  induction len generalizing off with
  | zero => rfl
  | succ len ih =>
    rw [leNat, h off le_rfl (by omega), ih fun i h1 h2 => h i (by omega) (by omega)]
    rfl

theorem leNat_shift (f : Nat → UInt8) (off c len : Nat) :
    leNat (fun i => f (i + c)) off len = leNat f (off + c) len := by
  induction len generalizing off with
  | zero => rfl
  | succ len ih => rw [leNat, leNat, ih, show off + 1 + c = off + c + 1 by omega]

theorem leByte_succ (v k : Nat) : leByte v (k + 1) = leByte (v / 256) k := by
  rw [leByte, leByte, pow_succ', Nat.div_div_eq_div_mul]

theorem leNat_leByte (v off len : Nat) :
    leNat (fun i => leByte v (i - off)) off len = v % 256 ^ len := by
  induction len generalizing off v with
  | zero => simp [leNat, Nat.mod_one]
  | succ len ih =>
    have htail : leNat (fun i => leByte v (i - off)) (off + 1) len = v / 256 % 256 ^ len := by
      rw [← ih (v / 256) (off + 1)]
      refine leNat_congr fun i h1 _ => ?_
      rw [show i - off = (i - (off + 1)) + 1 by omega, leByte_succ]
    have hhead : (leByte v (off - off)).toNat = v % 256 := by
      rw [Nat.sub_self, leByte, pow_zero, Nat.div_one, UInt8.toNat_ofNat']
    rw [leNat, htail, hhead, pow_succ' 256 len, Nat.mod_mul]

/-! ### Fields of a buffer -/

def getLE (b : Bytes n) (off len : Nat) : Nat := leNat b.get off len

def putLE (b : Bytes n) (off len v : Nat) : Bytes n := b.put off len (leByte v)

@[simp] theorem getLE_zero (off len : Nat) : (zero n).getLE off len = 0 :=
  leNat_zero fun _ _ _ => get_zero _

theorem getLE_putLE (b : Bytes n) {off len : Nat} (h : off + len ≤ n) (v : Nat) :
    (b.putLE off len v).getLE off len = v % 256 ^ len := by
  rw [← leNat_leByte v off len]
  refine leNat_congr fun i h1 h2 => ?_
  rw [putLE, get_put _ _ _ _ _ (by omega), if_pos ⟨h1, h2⟩]

theorem getLE_put (b : Bytes n) {off len o l : Nat} (src : Nat → UInt8) (hn : off + len ≤ n) (hl : o + l ≤ len) :
    (b.put off len src).getLE (off + o) l = leNat src o l := by
  have h : leNat src o l = leNat (fun i => src (i - off)) (off + o) l := by
    rw [Nat.add_comm off o, ← leNat_shift]
    simp only [Nat.add_sub_cancel]
  rw [h]
  refine leNat_congr fun i h1 h2 => ?_
  rw [get_put _ _ _ _ _ (by omega), if_pos (by omega)]

theorem getLE_put_of_disjoint (b : Bytes n) {off len off' len' : Nat} (src : Nat → UInt8)
    (h : off' + len' ≤ off ∨ off + len ≤ off') :
    (b.put off len src).getLE off' len' = b.getLE off' len' :=
  leNat_congr fun i _ _ => get_put_of_disjoint b src (by omega)

/-! ### Arrays of 32-bit words -/

def word (b : Bytes n) (j : Nat) : UInt32 := UInt32.ofNat (b.getLE (4 * j) 4)

def setWord (b : Bytes n) (j : Nat) (w : UInt32) : Bytes n := b.putLE (4 * j) 4 w.toNat

@[simp] theorem word_zero (j : Nat) : (zero n).word j = 0 := by rw [word, getLE_zero]; rfl

theorem word_setWord (b : Bytes n) {j : Nat} (h : 4 * j + 4 ≤ n) (w : UInt32) :
    (b.setWord j w).word j = w := by
  rw [word, setWord, getLE_putLE b h, Nat.mod_eq_of_lt (show w.toNat < 256 ^ 4 from w.toNat_lt),
    UInt32.ofNat_toNat]

theorem word_setWord_ne (b : Bytes n) {j k : Nat} (h : k ≠ j) (w : UInt32) :
    (b.setWord j w).word k = b.word k := by
  rw [word, setWord, putLE, getLE_put_of_disjoint b _ (by omega), ← word]

/-! ### Bits -/

/-- `1 << (i % 8)`. -/
def mask (i : Nat) : UInt8 := 1 <<< UInt8.ofNat (i % 8)

def bit (b : Bytes n) (i : Nat) : Bool := b.get (i / 8) &&& mask i != 0

def setBit (b : Bytes n) (i : Nat) : Bytes n := b.put (i / 8) 1 fun _ => b.get (i / 8) ||| mask i

def clearBit (b : Bytes n) (i : Nat) : Bytes n := b.put (i / 8) 1 fun _ => b.get (i / 8) &&& ~~~ mask i

theorem toNat_mask (i : Nat) : (mask i).toNat = 2 ^ (i % 8) := by
  have h : ∀ k < 8, (1 <<< UInt8.ofNat k : UInt8).toNat = 2 ^ k := by decide
  exact h _ (Nat.mod_lt _ (by decide))

theorem and_mask (x : UInt8) (i : Nat) : (x &&& mask i != 0) = x.toNat.testBit (i % 8) := by
  have h : x &&& mask i = 0 ↔ x.toNat.testBit (i % 8) = false := by
    rw [← UInt8.toNat_inj, UInt8.toNat_and, toNat_mask, Nat.and_two_pow]
    cases x.toNat.testBit (i % 8) <;> simp
  rcases hx : x.toNat.testBit (i % 8) with _ | _
  · simpa [hx] using h
  · simpa [hx] using h

theorem bit_eq (b : Bytes n) (i : Nat) : b.bit i = (b.get (i / 8)).toNat.testBit (i % 8) := and_mask _ _

theorem bit_setBit (b : Bytes n) {i : Nat} (hi : i / 8 < n) (j : Nat) :
    (b.setBit i).bit j = (decide (j = i) || b.bit j) := by
  rw [bit_eq, bit_eq, setBit]
  by_cases h : j / 8 = i / 8
  · rw [get_put _ _ _ _ _ (by omega), if_pos (by omega), UInt8.toNat_or, Nat.testBit_or, toNat_mask,
      Nat.testBit_two_pow, h, Bool.or_comm]
    congr 1
    exact decide_eq_decide.2 (by omega)
  · rw [get_put_of_disjoint _ _ (by omega), decide_eq_false (by rintro rfl; exact h rfl), Bool.false_or]

@[simp] theorem bit_zero (i : Nat) : (zero n).bit i = false := by rw [bit_eq, get_zero]; exact Nat.zero_testBit _

end Bytes
