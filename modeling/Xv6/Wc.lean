import Xv6.Grep

/-!
# Counting lines, words and bytes (`wc.c`)

`wc` goes through its input piece by piece, as `read` returns it, and carries over whether the last byte was part
of a word. The counters are `int`s. A `read` that fails is left out.
-/

namespace Xv6.Wc

/-- The local variables of `wc`. -/
structure St where
  l : BitVec 32
  w : BitVec 32
  c : BitVec 32
  inword : Bool

/-- `" \r\t\n\v"` -/
def blanks : List UInt8 := [32, 13, 9, 10, 11]

def isBlank (b : UInt8) : Bool := (Ulib.strchr b blanks).isSome

/-- The body of the inner loop. -/
def round (s : St) (b : UInt8) : St :=
  let s := { s with c := s.c + 1 }
  let s := if b = 10 then { s with l := s.l + 1 } else s
  if isBlank b then { s with inword := false }
  else if s.inword then s
  else { s with w := s.w + 1, inword := true }

def wc (pieces : List (List UInt8)) : St := pieces.foldl (fun s buf => buf.foldl round s) ⟨0, 0, 0, false⟩

/-- The number of maximal runs without a blank. -/
def words (text : List UInt8) : Nat := (text.splitOnP isBlank).countP (· ≠ [])

/-- The runs that begin in `text`: the first one is already counted if a word goes on. -/
def fresh (inword : Bool) (text : List UInt8) : Nat :=
  ((text.splitOnP isBlank).drop (if inword then 1 else 0)).countP (· ≠ [])

theorem fresh_cons (inword : Bool) (b : UInt8) (text : List UInt8) : fresh inword (b :: text) =
    if isBlank b then fresh false text else (if inword then 0 else 1) + fresh true text := by
  obtain ⟨x, xs, hsplit⟩ := List.exists_cons_of_ne_nil (List.splitOnP_ne_nil isBlank text)
  cases inword <;> cases h : isBlank b <;> simp [fresh, List.splitOnP_cons_eq_if_modifyHead, h, hsplit, Nat.add_comm]

theorem round_eq (s : St) (b : UInt8) : round s b = ⟨s.l + BitVec.ofNat 32 (if b = 10 then 1 else 0),
    s.w + BitVec.ofNat 32 (if isBlank b ∨ s.inword then 0 else 1), s.c + 1, !isBlank b⟩ := by
  unfold round
  cases hb : isBlank b <;> cases s.inword <;> by_cases h10 : b = 10 <;> simp [h10]

theorem foldl_round (text : List UInt8) (s : St) :
    (text.foldl round s).l = s.l + BitVec.ofNat 32 (text.count 10) ∧
    (text.foldl round s).w = s.w + BitVec.ofNat 32 (fresh s.inword text) ∧
    (text.foldl round s).c = s.c + BitVec.ofNat 32 text.length := by
  induction text generalizing s with
  | nil => cases s.inword <;> simp [fresh]
  | cons b text ih =>
    have hw : fresh s.inword (b :: text) = (if isBlank b ∨ s.inword then 0 else 1) + fresh (!isBlank b) text := by
      rw [fresh_cons]
      cases isBlank b <;> cases s.inword <;> simp
    obtain ⟨ihl, ihw, ihc⟩ := ih (round s b)
    rw [round_eq] at ihl ihw ihc
    rw [List.foldl_cons, round_eq, ihl, ihw, ihc, hw, List.count_cons, List.length_cons, Nat.add_comm (List.count ..),
      Nat.add_comm text.length]
    simp [BitVec.ofNat_add, BitVec.add_assoc]

/-- However the input arrives, `wc` counts its newlines, its words and its bytes. -/
theorem wc_counts (pieces : List (List UInt8)) :
    (wc pieces).l = BitVec.ofNat 32 (pieces.flatten.count 10) ∧
    (wc pieces).w = BitVec.ofNat 32 (words pieces.flatten) ∧
    (wc pieces).c = BitVec.ofNat 32 pieces.flatten.length := by
  have hwhole := foldl_round pieces.flatten ⟨0, 0, 0, false⟩
  rw [List.foldl_flatten] at hwhole
  obtain ⟨hl, hw, hc⟩ := hwhole
  exact ⟨hl.trans (BitVec.zero_add _), hw.trans (BitVec.zero_add _), hc.trans (BitVec.zero_add _)⟩

end Xv6.Wc
