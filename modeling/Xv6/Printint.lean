import Mathlib

/-!
# Printing numbers (`console.c`, `printf.c`)

The two `printint`s put the digits of a number into a buffer, the last one first, and print the buffer
backwards. `printint_exact` says that what is printed is the usual numeral of the number.
-/

namespace Xv6.Printint

abbrev minus : UInt8 := 45

def lower : List UInt8 := [48, 49, 50, 51, 52, 53, 54, 55, 56, 57, 97, 98, 99, 100, 101, 102]

def upper : List UInt8 := [48, 49, 50, 51, 52, 53, 54, 55, 56, 57, 65, 66, 67, 68, 69, 70]

/-- `do buf[i++] = digits[x % base]; while ((x /= base) != 0);` for a base above 1. -/
def putDigits (digits : List UInt8) (base x : Nat) : List UInt8 :=
  digits.getD (x % base) 0 :: if _h : 1 < base ∧ x / base ≠ 0 then putDigits digits base (x / base) else []
termination_by x
decreasing_by exact Nat.div_lt_self (Nat.pos_of_ne_zero fun hx => _h.2 (by rw [hx, Nat.zero_div])) _h.1

/-- The contents of `buf` at the end of `printint` of `console.c`. -/
def consoleBuf (xx : BitVec 32) (base : Nat) (sign : Bool) : List UInt8 :=
  let sign := sign && xx.slt 0
  let x := if sign then -xx else xx
  let buf := putDigits lower base x.toNat
  if sign then buf ++ [minus] else buf

/-- The contents of `buf` at the end of `printint` of `printf.c`. -/
def printfBuf (xx : BitVec 32) (base : Nat) (sgn : Bool) : List UInt8 :=
  let neg := if sgn && xx.slt 0 then true else false
  let x := if neg then -xx else xx
  let buf := putDigits upper base x.toNat
  if neg then buf ++ [minus] else buf

/-- What `printint` of `console.c` passes to `consputc`. -/
def consolePrintint (xx : BitVec 32) (base : Nat) (sign : Bool) : List UInt8 := (consoleBuf xx base sign).reverse

/-- What `printint` of `printf.c` writes. -/
def printfPrintint (xx : BitVec 32) (base : Nat) (sgn : Bool) : List UInt8 := (printfBuf xx base sgn).reverse

/-! ### Numerals -/

/-- The number that digits stand for, the first one being the most significant. -/
def value (digits : List UInt8) (base : Nat) (cs : List UInt8) : Nat :=
  cs.foldl (fun n c => base * n + digits.idxOf c) 0

/-- `out` is the numeral of `v`: a minus sign if `v` is negative, and its digits, none of which can be left out. -/
def Canonical (digits : List UInt8) (base : Nat) (v : Int) (out : List UInt8) : Prop :=
  ∃ cs, out = (if v < 0 then [minus] else []) ++ cs ∧ cs ≠ [] ∧ (∀ c ∈ cs, c ∈ digits.take base) ∧
    (cs.head? = some 48 → cs = [48]) ∧ value digits base cs = v.natAbs

def digitsOf (base n : Nat) : List Nat := if n = 0 then [0] else Nat.digits base n

variable {digits : List UInt8} {base n : Nat}

theorem putDigits_eq (hb : 1 < base) (n : Nat) : putDigits digits base n = (digitsOf base n).map (digits.getD · 0) := by
  induction n using Nat.strongRecOn with
  | ind n ih =>
    rw [putDigits, digitsOf]
    rcases Nat.eq_zero_or_pos n with rfl | hn
    · rw [Nat.zero_mod, Nat.zero_div, if_pos rfl, dif_neg fun h => h.2 rfl]
      rfl
    · rw [if_neg (Nat.ne_of_gt hn), Nat.digits_def' hb hn, List.map_cons]
      congr 1
      split
      · rename_i hdiv
        rw [ih _ (Nat.div_lt_self hn hb), digitsOf, if_neg hdiv.2]
      · rename_i hdiv
        have hzero : n / base = 0 := by
          by_contra hne
          exact hdiv ⟨hb, hne⟩
        rw [hzero, Nat.digits_zero]
        rfl

theorem digitsOf_lt (hb : 1 < base) : ∀ d ∈ digitsOf base n, d < base := by
  unfold digitsOf
  split
  · intro d hd
    rw [List.mem_singleton.1 hd]
    omega
  · exact fun d hd => Nat.digits_lt_base hb hd

theorem ofDigits_digitsOf : Nat.ofDigits base (digitsOf base n) = n := by
  unfold digitsOf
  split
  · rename_i h
    rw [h]
    rfl
  · exact Nat.ofDigits_digits base n

theorem getLast?_digitsOf (h : (digitsOf base n).getLast? = some 0) : digitsOf base n = [0] := by
  unfold digitsOf at h ⊢
  split
  · rfl
  · rename_i hn
    rw [if_neg hn, List.getLast?_eq_some_getLast (Nat.digits_ne_nil_iff_ne_zero.2 hn), Option.some.injEq] at h
    exact absurd h (Nat.getLast_digit_ne_zero base hn)

theorem length_digitsOf_le {k : Nat} (hb : 1 < base) (hk : 0 < k) (hn : n < base ^ k) :
    (digitsOf base n).length ≤ k := by
  unfold digitsOf
  split
  · exact hk
  · exact (Nat.digits_length_le_iff hb n).2 hn

structure Table (digits : List UInt8) : Prop where
  zero : digits.getD 0 0 = 48
  index : ∀ d, d < 16 → digits.idxOf (digits.getD d 0) = d
  mem : ∀ base, base ≤ 16 → ∀ d, d < base → digits.getD d 0 ∈ digits.take base

theorem table_lower : Table lower := ⟨by decide, by decide, by decide⟩

theorem table_upper : Table upper := ⟨by decide, by decide, by decide⟩

theorem Table.value_eq (h : Table digits) {ds : List Nat} (hds : ∀ d ∈ ds, d < 16) :
    value digits base (ds.map (digits.getD · 0)).reverse = Nat.ofDigits base ds := by
  rw [value, List.foldl_reverse]
  induction ds with
  | nil => rfl
  | cons d ds ih =>
    rw [List.forall_mem_cons] at hds
    rw [List.map_cons, List.foldr_cons, ih hds.2, h.index d hds.1, Nat.ofDigits_cons, Nat.add_comm]

theorem Table.canonical (h : Table digits) (hb : 1 < base) (hle : base ≤ 16) {v : Int} (hv : v.natAbs = n) :
    Canonical digits base v ((if v < 0 then [minus] else []) ++ (putDigits digits base n).reverse) := by
  have hlt : ∀ d ∈ digitsOf base n, d < 16 := fun d hd => Nat.lt_of_lt_of_le (digitsOf_lt hb d hd) hle
  have hne : digitsOf base n ≠ [] := by
    intro hnil
    have : putDigits digits base n = (digitsOf base n).map (digits.getD · 0) := putDigits_eq hb n
    rw [hnil, putDigits] at this
    cases this
  refine ⟨_, rfl, ?_, ?_, ?_, ?_⟩ <;> rw [putDigits_eq hb]
  · simpa using hne
  · intro c hc
    rw [List.mem_reverse, List.mem_map] at hc
    obtain ⟨d, hd, rfl⟩ := hc
    exact h.mem base hle d (digitsOf_lt hb d hd)
  · rw [List.head?_reverse, List.getLast?_map]
    intro hzero
    obtain ⟨d, hd, hchar⟩ := Option.map_eq_some_iff.1 hzero
    have hd0 : d = 0 := by
      rw [← h.index d (hlt d (List.mem_of_getLast? hd)), hchar, ← h.zero, h.index 0 (by omega)]
    rw [getLast?_digitsOf (hd0 ▸ hd), List.map_singleton, h.zero]
    rfl
  · rw [h.value_eq hlt, ofDigits_digitsOf, hv]

/-! ### Signed and unsigned numbers -/

/-- The unsigned negation of a negative number is its absolute value, also for the least one. -/
theorem toNat_neg_of_neg {xx : BitVec 32} (h : xx.toInt < 0) : (-xx).toNat = xx.toInt.natAbs := by
  have hlt := xx.isLt
  rw [BitVec.toInt_eq_toNat_cond] at h ⊢
  rw [BitVec.toNat_neg]
  split at h <;> omega

theorem toNat_eq_natAbs {xx : BitVec 32} (h : ¬ xx.toInt < 0) : xx.toNat = xx.toInt.natAbs := by
  rw [BitVec.toInt_eq_toNat_cond] at h ⊢
  split at h <;> omega

theorem reverse_signed (digits : List UInt8) (base : Nat) (xx : BitVec 32) {neg : Bool} (hneg : neg = decide (xx.toInt < 0)) :
    (if neg then putDigits digits base (if neg then -xx else xx).toNat ++ [minus]
      else putDigits digits base (if neg then -xx else xx).toNat).reverse =
      (if xx.toInt < 0 then [minus] else []) ++ (putDigits digits base xx.toInt.natAbs).reverse := by
  by_cases h : xx.toInt < 0
  · rw [hneg, decide_eq_true h, if_pos rfl, if_pos rfl, if_pos h, List.reverse_append, toNat_neg_of_neg h]
    rfl
  · rw [hneg, decide_eq_false h, if_neg nofun, if_neg nofun, if_neg h, toNat_eq_natAbs h]
    rfl

theorem consolePrintint_signed (xx : BitVec 32) : consolePrintint xx 10 true =
    (if xx.toInt < 0 then [minus] else []) ++ (putDigits lower 10 xx.toInt.natAbs).reverse :=
  reverse_signed lower 10 xx rfl

theorem printfPrintint_signed (xx : BitVec 32) : printfPrintint xx 10 true =
    (if xx.toInt < 0 then [minus] else []) ++ (putDigits upper 10 xx.toInt.natAbs).reverse := by
  refine reverse_signed upper 10 xx ?_
  show (if xx.slt 0 = true then true else false) = xx.slt 0
  cases xx.slt 0 <;> rfl

theorem length_putDigits_le {k : Nat} (hb : 1 < base) (hk : 0 < k) (hn : n < base ^ k) :
    (putDigits digits base n).length ≤ k := by
  rw [putDigits_eq hb, List.length_map]
  exact length_digitsOf_le hb hk hn

theorem length_signed_le (xx : BitVec 32) : ((if xx.toInt < 0 then [minus] else []) ++
    (putDigits digits 10 xx.toInt.natAbs).reverse).length ≤ 11 := by
  have hdigits : (putDigits digits 10 xx.toInt.natAbs).length ≤ 10 := by
    refine length_putDigits_le (by omega) (by omega) ?_
    have hlt := xx.isLt
    rw [BitVec.toInt_eq_toNat_cond]
    split <;> omega
  rw [List.length_append, List.length_reverse]
  split
  · rw [List.length_singleton]
    omega
  · rw [List.length_nil]
    omega

theorem length_unsigned_le (xx : BitVec 32) : (putDigits digits 16 xx.toNat).length ≤ 8 :=
  length_putDigits_le (by omega) (by omega) xx.isLt

/-- Both functions print the numeral of every 32-bit number, signed in base 10 and unsigned in base 16, and use at most
16 characters of their buffers. -/
theorem printint_exact (xx : BitVec 32) :
    (Canonical lower 10 xx.toInt (consolePrintint xx 10 true) ∧
      Canonical lower 16 xx.toNat (consolePrintint xx 16 false) ∧
      Canonical upper 10 xx.toInt (printfPrintint xx 10 true) ∧
      Canonical upper 16 xx.toNat (printfPrintint xx 16 false)) ∧
    (consoleBuf xx 10 true).length ≤ 16 ∧ (consoleBuf xx 16 false).length ≤ 16 ∧
      (printfBuf xx 10 true).length ≤ 16 ∧ (printfBuf xx 16 false).length ≤ 16 := by
  have hunsigned : ¬ (xx.toNat : Int) < 0 := by omega
  have hlower : consolePrintint xx 16 false = (if (xx.toNat : Int) < 0 then [minus] else []) ++
      (putDigits lower 16 xx.toNat).reverse := by
    rw [if_neg hunsigned]
    rfl
  have hupper : printfPrintint xx 16 false = (if (xx.toNat : Int) < 0 then [minus] else []) ++
      (putDigits upper 16 xx.toNat).reverse := by
    rw [if_neg hunsigned]
    rfl
  refine ⟨⟨?_, ?_, ?_, ?_⟩, ?_, ?_, ?_, ?_⟩
  · rw [consolePrintint_signed]
    exact table_lower.canonical (by omega) (by omega) rfl
  · rw [hlower]
    exact table_lower.canonical (by omega) (by omega) (Int.natAbs_natCast _)
  · rw [printfPrintint_signed]
    exact table_upper.canonical (by omega) (by omega) rfl
  · rw [hupper]
    exact table_upper.canonical (by omega) (by omega) (Int.natAbs_natCast _)
  · rw [← List.length_reverse]
    show (consolePrintint xx 10 true).length ≤ 16
    rw [consolePrintint_signed]
    exact Nat.le_trans (length_signed_le xx) (by omega)
  · exact Nat.le_trans (length_unsigned_le xx) (by omega)
  · rw [← List.length_reverse]
    show (printfPrintint xx 10 true).length ≤ 16
    rw [printfPrintint_signed]
    exact Nat.le_trans (length_signed_le xx) (by omega)
  · exact Nat.le_trans (length_unsigned_le xx) (by omega)

/-! ### Reading a number back -/

/-- The loop of `atoi` of `ulib.c`. -/
def atoiLoop (n : BitVec 32) : List UInt8 → BitVec 32
  | [] => n
  | c :: s => if 48 ≤ c ∧ c ≤ 57 then atoiLoop (n * 10 + BitVec.ofNat 32 c.toNat - 48) s else n

def atoi (s : List UInt8) : BitVec 32 := atoiLoop 0 s

theorem atoiLoop_digits (hd : (digits.take 10).all fun c => 48 ≤ c ∧ c ≤ 57 ∧ c.toNat = digits.idxOf c + 48)
    {cs : List UInt8} (hcs : ∀ c ∈ cs, c ∈ digits.take 10) (t : List UInt8) :
    atoiLoop (BitVec.ofNat 32 n) (cs ++ 0 :: t) =
      BitVec.ofNat 32 (cs.foldl (fun n c => 10 * n + digits.idxOf c) n) := by
  induction cs generalizing n with
  | nil => rfl
  | cons c cs ih =>
    rw [List.forall_mem_cons] at hcs
    obtain ⟨hlo, hhi, hc⟩ := of_decide_eq_true (List.all_eq_true.1 hd c hcs.1)
    rw [List.cons_append, atoiLoop, if_pos ⟨hlo, hhi⟩, List.foldl_cons, ← ih hcs.2, hc]
    congr 1
    simp only [BitVec.ofNat_add, BitVec.ofNat_mul]
    rw [BitVec.mul_comm, ← BitVec.add_assoc]
    exact BitVec.add_sub_cancel ..

theorem atoi_canonical {v : Int} {out : List UInt8}
    (hd : (digits.take 10).all fun c => 48 ≤ c ∧ c ≤ 57 ∧ c.toNat = digits.idxOf c + 48) (h : Canonical digits 10 v out)
    (t : List UInt8) : atoi (out ++ 0 :: t) = if v < 0 then 0 else BitVec.ofNat 32 v.natAbs := by
  obtain ⟨cs, rfl, -, hcs, -, hval⟩ := h
  split
  · rfl
  · rw [← hval]
    exact atoiLoop_digits hd hcs t

/-- What is printed is read back by `atoi`, whatever is behind it; a minus sign is not a digit. -/
theorem atoi_printint (xx : BitVec 32) (t : List UInt8) :
    atoi (printfPrintint xx 10 true ++ 0 :: t) = (if xx.toInt < 0 then 0 else xx) ∧
    atoi (consolePrintint xx 10 true ++ 0 :: t) = (if xx.toInt < 0 then 0 else xx) := by
  have hback : (if xx.toInt < 0 then 0 else BitVec.ofNat 32 xx.toInt.natAbs) = if xx.toInt < 0 then 0 else xx := by
    split
    · rfl
    · rename_i h
      rw [← toNat_eq_natAbs h, BitVec.ofNat_toNat, BitVec.setWidth_eq]
  constructor
  · rw [← hback, printfPrintint_signed]
    exact atoi_canonical (by decide) (table_upper.canonical (by omega) (by omega) rfl) t
  · rw [← hback, consolePrintint_signed]
    exact atoi_canonical (by decide) (table_lower.canonical (by omega) (by omega) rfl) t

end Xv6.Printint
