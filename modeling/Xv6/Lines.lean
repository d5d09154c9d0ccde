import Xv6.Canvas
import Xv6.Lib.Midpoint
import Xv6.ScreenCopy

/-!
# The pixels of a line

`linePixels` lists the pixels `sys_lineto` writes and `lineEnd` is where it leaves the pen. While no `int`
operation overflows, a diagonal line that goes to the right has one pixel in each column: going down the
screen the rows are those of `Midpoint.rise`; going up the screen each column is one row higher than the
one before, since the error term starts below zero and only falls. A diagonal line that goes to the left has no pixel.
-/

namespace Xv6.Graphics

open Kmem Midpoint

/-! ### Arithmetic that does not overflow -/

def IsInt (v : Int) : Prop := -2 ^ 31 ≤ v ∧ v < 2 ^ 31

theorem IsInt.i32_eq {v : Int} (h : IsInt v) : i32 v = v := i32_eq_self.2 h

def Turns (dy err : Int) : Prop := (err ≥ 0 ∧ dy > 0) ∨ (err ≤ 0 ∧ dy < 0)

/-- No operation of the loop of `BressenhamLine` overflows. -/
def DiagonalExact (dx dy m_new : Int) : Nat → Int → Int → Int → Prop
  | 0, _, _, _ => True
  | n + 1, x, y, err =>
    IsInt (320 * y) ∧ IsInt (320 * y + x) ∧ IsInt (err + m_new) ∧
      (Turns dy (err + m_new) →
        IsInt (y + if dy > 0 then 1 else -1) ∧ IsInt (2 * dx) ∧ IsInt (err + m_new - 2 * dx)) ∧
      IsInt (x + 1) ∧ DiagonalExact dx dy m_new n (x + 1) (turn dx dy m_new y err).1 (turn dx dy m_new y err).2

def NoOverflow (sX sY uX uY : Int) : Prop :=
  if uX = sX then
    (∀ y, min sY uY ≤ y → y ≤ max sY uY → IsInt (320 * y) ∧ IsInt (320 * y + sX)) ∧ IsInt (max sY uY + 1)
  else if uY = sY then
    (∀ x, min sX uX ≤ x → x ≤ max sX uX → IsInt (320 * sY) ∧ IsInt (320 * sY + x)) ∧ IsInt (max sX uX + 1)
  else
    IsInt (uX - sX) ∧ IsInt (uY - sY) ∧ IsInt (2 * (uY - sY)) ∧ IsInt (2 * (uY - sY) - (uX - sX)) ∧
      DiagonalExact (uX - sX) (uY - sY) (2 * (uY - sY)) (uX - sX + 1).toNat sX sY (2 * (uY - sY) - (uX - sX))

theorem turn_eq {dx dy m y err : Int} (he : IsInt (err + m)) (ht : Turns dy (err + m) →
      IsInt (y + if dy > 0 then 1 else -1) ∧ IsInt (2 * dx) ∧ IsInt (err + m - 2 * dx)) :
    (Turns dy (err + m) ∧ turn dx dy m y err = (y + if dy > 0 then 1 else -1, err + m - 2 * dx)) ∨
      (¬ Turns dy (err + m) ∧ turn dx dy m y err = (y, err + m)) := by
  unfold turn
  rw [he.i32_eq]
  by_cases h : Turns dy (err + m)
  · obtain ⟨h1, h2, h3⟩ := ht h
    refine .inl ⟨h, (if_pos h).trans ?_⟩
    rw [h2.i32_eq, h3.i32_eq, h1.i32_eq]
  · exact .inr ⟨h, if_neg h⟩

theorem DiagonalExact.isInt_last {dx dy m x y err : Int} {n : Nat} (h : DiagonalExact dx dy m (n + 1) x y err) :
    IsInt (x + n + 1) := by
  induction n generalizing x y err with
  | zero =>
    have hx := h.2.2.2.2.1
    rwa [Nat.cast_zero, add_zero]
  | succ n ih =>
    have hx := ih h.2.2.2.2.2
    push_cast
    rwa [show x + ((n : Int) + 1) + 1 = x + 1 + n + 1 by ring]

theorem diagonalExact_of_small {dx dy x y err : Int} {n : Nat} (hdx : |dx| ≤ 320) (hdy : |dy| ≤ 200)
    (hx : |x| + n ≤ 1000) (hy : |y| + n ≤ 1000) (herr : |err| + 2000 * n ≤ 1000000) :
    DiagonalExact dx dy (2 * dy) n x y err := by
  induction n generalizing x y err with
  | zero => exact trivial
  | succ n ih =>
    push_cast at hx hy herr
    rw [abs_le] at hdx hdy
    have hx' := abs_le.1 (by omega : |x| ≤ 1000 - (n + 1))
    have hy' := abs_le.1 (by omega : |y| ≤ 1000 - (n + 1))
    have he' := abs_le.1 (by omega : |err| ≤ 1000000 - 2000 * (n + 1))
    have hinc : (if dy > 0 then (1 : Int) else -1) = 1 ∨ (if dy > 0 then (1 : Int) else -1) = -1 := by
      split <;> simp
    have hsum : IsInt (err + 2 * dy) := ⟨by omega, by omega⟩
    have hturn : Turns dy (err + 2 * dy) →
        IsInt (y + if dy > 0 then 1 else -1) ∧ IsInt (2 * dx) ∧ IsInt (err + 2 * dy - 2 * dx) :=
      fun _ => ⟨⟨by omega, by omega⟩, ⟨by omega, by omega⟩, by omega, by omega⟩
    refine ⟨⟨by omega, by omega⟩, ⟨by omega, by omega⟩, hsum, hturn, ⟨by omega, by omega⟩, ?_⟩
    have hnext : |x + 1| + n ≤ 1000 := by
      rw [← le_sub_iff_add_le, abs_le]
      omega
    rcases turn_eq hsum hturn with ⟨-, h⟩ | ⟨-, h⟩
    · rw [h]
      refine ih hnext ?_ ?_
      · rw [← le_sub_iff_add_le, abs_le]
        dsimp only
        omega
      · rw [← le_sub_iff_add_le, abs_le]
        dsimp only
        omega
    · rw [h]
      refine ih hnext (le_trans (by dsimp only; omega) hy) ?_
      rw [← le_sub_iff_add_le, abs_le]
      dsimp only
      omega

theorem noOverflow_of_onScreen {sX sY uX uY : Int} (hs : OnScreen sX sY) (hu : OnScreen uX uY) :
    NoOverflow sX sY uX uY := by
  obtain ⟨h1, h2, h3, h4⟩ := hs
  obtain ⟨h5, h6, h7, h8⟩ := hu
  unfold NoOverflow
  split
  · refine ⟨fun y hlo hhi => ⟨⟨by omega, by omega⟩, by omega, by omega⟩, by omega, by omega⟩
  split
  · refine ⟨fun x hlo hhi => ⟨⟨by omega, by omega⟩, by omega, by omega⟩, by omega, by omega⟩
  refine ⟨⟨by omega, by omega⟩, ⟨by omega, by omega⟩, ⟨by omega, by omega⟩, ⟨by omega, by omega⟩,
    diagonalExact_of_small (abs_le.2 ⟨by omega, by omega⟩) (abs_le.2 ⟨by omega, by omega⟩) ?_ ?_ ?_⟩
  · rw [abs_of_nonneg h1]
    omega
  · rw [abs_of_nonneg h3]
    omega
  · rw [← le_sub_iff_add_le, abs_le]
    omega

/-! ### Diagonal lines -/

def turns (dx dy : Int) (k : Nat) : Int := if 0 < dy then rise dx dy k else k

def row (dx dy y : Int) (k : Nat) : Int := if 0 < dy then y + rise dx dy k else y - k

def slopeError (dx dy : Int) (k : Nat) : Int := 2 * dy - dx + 2 * dy * k - 2 * dx * turns dx dy k

section Diagonal

variable {dx dy x y : Int} (hx : 0 < dx) (hy : dy ≠ 0)

include hx

theorem row_zero (dy y : Int) : row dx dy y 0 = y := by
  unfold row
  split
  · rw [rise_zero hx (by omega), add_zero]
  · exact sub_zero y

theorem slopeError_zero (dy : Int) : slopeError dx dy 0 = 2 * dy - dx := by
  have h : turns dx dy 0 = 0 := by
    unfold turns
    split
    · exact rise_zero hx (by omega)
    · rfl
  rw [slopeError, h]
  simp

include hy

theorem turn_row {k : Nat} (he : IsInt (slopeError dx dy k + 2 * dy)) (ht : Turns dy (slopeError dx dy k + 2 * dy) →
      IsInt (row dx dy y k + if dy > 0 then 1 else -1) ∧ IsInt (2 * dx) ∧ IsInt (slopeError dx dy k + 2 * dy - 2 * dx)) :
    turn dx dy (2 * dy) (row dx dy y k) (slopeError dx dy k) = (row dx dy y (k + 1), slopeError dx dy (k + 1)) := by
  rcases Int.lt_or_lt_of_ne hy with hneg | hpos
  · -- the error term is below zero and stays there
    have hrow : ∀ j, row dx dy y j = y - j := fun j => if_neg (by omega)
    have herr : ∀ j, slopeError dx dy j = 2 * dy - dx + 2 * dy * j - 2 * dx * j := fun j => by
      rw [slopeError, turns, if_neg (by omega)]
    have h1 : dy * (k : Int) ≤ 0 := mul_nonpos_of_nonpos_of_nonneg hneg.le k.cast_nonneg
    have h2 : 0 ≤ dx * (k : Int) := mul_nonneg hx.le k.cast_nonneg
    have hdown : Turns dy (slopeError dx dy k + 2 * dy) := .inr ⟨by rw [herr]; linarith, hneg⟩
    rcases turn_eq he ht with ⟨-, h⟩ | ⟨h, -⟩
    · rw [h, hrow, hrow, herr, herr, if_neg (by omega)]
      push_cast
      exact Prod.ext (by ring) (by ring)
    · exact absurd hdown h
  · have hrow : ∀ j, row dx dy y j = y + rise dx dy j := fun j => if_pos hpos
    have herr : ∀ j, slopeError dx dy j = error dx dy j := fun j => by rw [slopeError, turns, if_pos hpos, error]
    have hadv := advance_rise hx hpos.le y k
    rw [herr] at he ht ⊢
    rw [hrow] at ht ⊢
    rw [hrow, herr, ← hadv]
    have hiff : Turns dy (error dx dy k + 2 * dy) ↔ 0 ≤ error dx dy k + 2 * dy := by
      unfold Turns
      omega
    rcases turn_eq he ht with ⟨ht, h⟩ | ⟨ht, h⟩
    · rw [h, advance, if_pos (hiff.1 ht), if_pos hpos]
    · rw [h, advance, if_neg (mt hiff.2 ht)]

theorem diagonal_eq {n k : Nat} (h : DiagonalExact dx dy (2 * dy) n (x + k) (row dx dy y k) (slopeError dx dy k)) :
    diagonal dx dy (2 * dy) n (x + k) (row dx dy y k) (slopeError dx dy k) =
        (List.range' k n).map (fun j : Nat => (x + (j : Int), row dx dy y j)) ∧
      diagonalEnd dx dy (2 * dy) n (row dx dy y k) (slopeError dx dy k) = row dx dy y (k + n) := by
  induction n generalizing k with
  | zero => exact ⟨rfl, rfl⟩
  | succ n ih =>
    obtain ⟨-, -, he, ht, -, h⟩ := h
    have hstep := turn_row hx hy he ht
    have hcol : x + (k : Int) + 1 = x + ((k + 1 : Nat) : Int) := by
      push_cast
      ring
    rw [hstep, hcol] at h
    obtain ⟨ih1, ih2⟩ := ih h
    rw [diagonal, diagonalEnd, hstep, hcol, ih1, ih2]
    exact ⟨rfl, by rw [Nat.add_right_comm, Nat.add_assoc]⟩

theorem diagonal_start {n : Nat} (h : DiagonalExact dx dy (2 * dy) n x y (2 * dy - dx)) :
    diagonal dx dy (2 * dy) n x y (2 * dy - dx) = (List.range n).map (fun k : Nat => (x + (k : Int), row dx dy y k)) ∧
      diagonalEnd dx dy (2 * dy) n y (2 * dy - dx) = row dx dy y n := by
  have hcol : x + ((0 : Nat) : Int) = x := add_zero x
  have hmain := @diagonal_eq dx dy x y hx hy n 0
  rw [slopeError_zero hx, row_zero hx, hcol, Nat.zero_add, ← List.range_eq_range'] at hmain
  exact hmain h

end Diagonal

section Line

variable {sX sY uX uY : Int}

theorem linePixels_right (hx : sX < uX) (hy : uY ≠ sY) (h : NoOverflow sX sY uX uY) :
    linePixels sX sY uX uY = (List.range ((uX - sX).toNat + 1)).map
        (fun k : Nat => (sX + (k : Int), row (uX - sX) (uY - sY) sY k)) ∧
      lineEnd sX sY uX uY = (uX, row (uX - sX) (uY - sY) sY ((uX - sX).toNat + 1)) := by
  have hdx : 0 < uX - sX := by omega
  have hdy : uY - sY ≠ 0 := by omega
  have hn : (uX - sX + 1).toNat = (uX - sX).toNat + 1 := by omega
  rw [NoOverflow, if_neg (by omega), if_neg hy] at h
  obtain ⟨h1, h2, h3, h4, h⟩ := h
  obtain ⟨hpix, hend⟩ := diagonal_start hdx hdy h
  rw [linePixels, if_neg (by omega), if_neg hy, lineEnd, if_neg (by omega), if_neg hy, if_pos hx.le]
  dsimp only
  rw [h1.i32_eq, h2.i32_eq, h3.i32_eq, h4.i32_eq, hpix, hend, hn]
  exact ⟨rfl, rfl⟩

theorem linePixels_left (hx : uX < sX) (hy : uY ≠ sY) :
    linePixels sX sY uX uY = [] ∧ lineEnd sX sY uX uY = (sX, sY) := by
  have hn : (uX - sX + 1).toNat = 0 := by omega
  rw [linePixels, if_neg (by omega), if_neg hy, lineEnd, if_neg (by omega), if_neg hy, if_neg (by omega)]
  dsimp only
  rw [hn]
  exact ⟨rfl, rfl⟩

theorem forall_right (hx : sX < uX) (hy : uY ≠ sY) (h : NoOverflow sX sY uX uY) {P : Int × Int → Prop} :
    (∀ q ∈ linePixels sX sY uX uY, P q) ↔
      ∀ k : Nat, (k : Int) ≤ uX - sX → P (sX + k, row (uX - sX) (uY - sY) sY k) := by
  rw [(linePixels_right hx hy h).1, List.forall_mem_map]
  simp only [List.mem_range]
  exact forall_congr' fun k => imp_congr_left (by omega)

theorem row_of_pos {dx dy : Int} (h : 0 < dy) (y : Int) (k : Nat) : row dx dy y k = y + rise dx dy k := if_pos h

theorem row_of_neg {dx dy : Int} (h : dy < 0) (y : Int) (k : Nat) : row dx dy y k = y - k := if_neg (by omega)

/-! ### The bounding rectangle -/

def Box (a b q : Int × Int) : Prop :=
  (min a.1 b.1 ≤ q.1 ∧ q.1 ≤ max a.1 b.1) ∧ min a.2 b.2 ≤ q.2 ∧ q.2 ≤ max a.2 b.2

instance (a b q : Int × Int) : Decidable (Box a b q) := inferInstanceAs (Decidable (_ ∧ _))

theorem Box.comm {a b q : Int × Int} : Box a b q ↔ Box b a q := by
  unfold Box
  rw [min_comm, max_comm, min_comm a.2, max_comm a.2]

theorem Box.onScreen {a b q : Int × Int} (h : Box a b q) (ha : OnScreen a.1 a.2) (hb : OnScreen b.1 b.2) :
    OnScreen q.1 q.2 := by
  unfold Box at h
  unfold OnScreen at ha hb ⊢
  omega

theorem mem_vertical {x lo hi : Int} {q : Int × Int} : q ∈ vertical x lo hi ↔ q.1 = x ∧ lo ≤ q.2 ∧ q.2 ≤ hi := by
  rw [vertical, List.mem_map]
  constructor
  · rintro ⟨y, hy, rfl⟩
    exact ⟨rfl, mem_upTo.1 hy⟩
  · rintro ⟨rfl, hy⟩
    exact ⟨q.2, mem_upTo.2 hy, rfl⟩

theorem mem_horizontal {lo hi y : Int} {q : Int × Int} :
    q ∈ horizontal lo hi y ↔ (lo ≤ q.1 ∧ q.1 ≤ hi) ∧ q.2 = y := by
  rw [horizontal, List.mem_map]
  constructor
  · rintro ⟨x, hx, rfl⟩
    exact ⟨mem_upTo.1 hx, rfl⟩
  · rintro ⟨hx, rfl⟩
    exact ⟨q.1, mem_upTo.2 hx, rfl⟩

theorem mem_linePixels_axis (h : uX = sX ∨ uY = sY) (q : Int × Int) :
    q ∈ linePixels sX sY uX uY ↔ Box (sX, sY) (uX, uY) q := by
  unfold linePixels Box
  dsimp only
  by_cases hx : uX = sX
  · rw [if_pos hx]
    split
    · rw [mem_vertical]
      omega
    · rw [mem_vertical]
      omega
  · rw [if_neg hx, if_pos (h.resolve_left hx)]
    split
    · rw [mem_horizontal]
      omega
    · rw [mem_horizontal]
      omega

/-- The line stays between its ends: it is drawn along an axis or not at all, or it is at least as steep as a diagonal
of squares, or it goes down less than half a row for each column. -/
def StaysInBox (sX sY uX uY : Int) : Prop :=
  uX ≤ sX ∨ uY = sY ∨ uX - sX ≤ |uY - sY| ∨ sY < uY ∧ 2 * (uY - sY) < uX - sX

theorem linePixels_box_iff (h : NoOverflow sX sY uX uY) :
    (∀ q ∈ linePixels sX sY uX uY, Box (sX, sY) (uX, uY) q) ↔ StaysInBox sX sY uX uY := by
  by_cases haxis : uX = sX ∨ uY = sY
  · refine iff_of_true (fun q hq => (mem_linePixels_axis haxis q).1 hq) ?_
    unfold StaysInBox
    omega
  rw [not_or] at haxis
  obtain ⟨hx, hy⟩ := haxis
  rcases Int.lt_or_lt_of_ne hx with hleft | hright
  · rw [(linePixels_left hleft hy).1]
    exact iff_of_true nofun (.inl hleft.le)
  have hdx : 0 < uX - sX := by omega
  have hcol : ∀ k : Nat, (k : Int) ≤ uX - sX → min sX uX ≤ sX + k ∧ sX + k ≤ max sX uX := by omega
  obtain ⟨n, hn⟩ := Int.eq_ofNat_of_zero_le hdx.le
  rw [forall_right hright hy h, StaysInBox, or_iff_right (by omega), or_iff_right hy]
  rcases Int.lt_or_lt_of_ne hy with hup | hdown
  · rw [abs_of_neg (by omega), or_iff_left (by omega)]
    constructor
    · intro hall
      have hlast := (hall n (by omega)).2
      rw [row_of_neg (by omega)] at hlast
      dsimp only at hlast
      omega
    · intro hle k hk
      refine ⟨hcol k hk, ?_⟩
      rw [row_of_neg (by omega)]
      dsimp only
      omega
  · have hdy : 0 < uY - sY := by omega
    rw [abs_of_pos hdy, and_iff_right hdown, ← rise_last_le_iff hdx hn.symm]
    constructor
    · intro hall
      have hlast := (hall n (by omega)).2
      rw [row_of_pos hdy] at hlast
      dsimp only at hlast
      omega
    · intro hle k hk
      refine ⟨hcol k hk, ?_⟩
      have h1 : rise (uX - sX) (uY - sY) k ≤ rise (uX - sX) (uY - sY) n := rise_mono hdx hdy.le (by omega)
      have h2 : 0 ≤ rise (uX - sX) (uY - sY) k := rise_nonneg hdx hdy.le
      rw [row_of_pos hdy]
      dsimp only
      omega

/-! ### Distance from the ideal line -/

theorem fst_linePixels (hx : sX < uX) (hy : uY ≠ sY) (h : NoOverflow sX sY uX uY) :
    (linePixels sX sY uX uY).map Prod.fst = upTo sX uX := by
  have hup : ∀ (n : Nat) (lo : Int), upFrom n lo = (List.range n).map fun k : Nat => lo + (k : Int) := by
    intro n
    induction n with
    | zero => exact fun _ => rfl
    | succ n ih =>
      intro lo
      rw [upFrom, ih, List.range_succ_eq_map, List.map_cons, List.map_map]
      congr 1
      · exact (add_zero lo).symm
      · refine List.map_congr_left fun k _ => ?_
        show lo + 1 + (k : Int) = lo + ((k + 1 : Nat) : Int)
        omega
  rw [(linePixels_right hx hy h).1, List.map_map, upTo, hup, show (uX - sX + 1).toNat = (uX - sX).toNat + 1 by omega]
  rfl

/-- Every pixel is one of the nearest to the ideal line only if the line rises or falls by a row for each column. -/
theorem linePixels_accurate_iff (hx : sX < uX) (hy : 0 < |uY - sY|) (hle : |uY - sY| ≤ uX - sX)
    (h : NoOverflow sX sY uX uY) :
    (∀ q ∈ linePixels sX sY uX uY,
      |2 * (uX - sX) * (q.2 - sY) - 2 * (uY - sY) * (q.1 - sX)| ≤ uX - sX) ↔ |uY - sY| = uX - sX := by
  have hdx : 0 < uX - sX := by omega
  have hne : uY ≠ sY := by
    rintro rfl
    simp at hy
  rw [forall_right hx hne h]
  rcases Int.lt_or_lt_of_ne hne with hup | hdown
  · have hdy : uY - sY < 0 := by omega
    have hdev : ∀ k : Nat, 2 * (uX - sX) * (row (uX - sX) (uY - sY) sY k - sY) - 2 * (uY - sY) * (sX + k - sX) =
        -(2 * ((uX - sX) + (uY - sY)) * k) := fun k => by
      rw [row_of_neg hdy]
      ring
    rw [abs_of_neg hdy] at hle ⊢
    simp only [hdev, abs_neg]
    constructor
    · intro hall
      by_contra hne'
      obtain ⟨n, hn⟩ := Int.eq_ofNat_of_zero_le hdx.le
      have hlast := (abs_le.1 (hall n hn.ge)).2
      rw [← show uX - sX = (n : Int) from hn] at hlast
      have : 1 * (uX - sX) ≤ ((uX - sX) + (uY - sY)) * (uX - sX) := mul_le_mul_of_nonneg_right (by omega) hdx.le
      linarith
    · intro heq k hk
      rw [show (uX - sX) + (uY - sY) = 0 by omega, mul_zero, zero_mul, abs_zero]
      exact hdx.le
  · have hdy : 0 < uY - sY := by omega
    have hdev : ∀ k : Nat, 2 * (uX - sX) * (row (uX - sX) (uY - sY) sY k - sY) - 2 * (uY - sY) * (sX + k - sX) =
        2 * (uX - sX) * rise (uX - sX) (uY - sY) k - 2 * (uY - sY) * k := fun k => by
      rw [row_of_pos hdy]
      ring
    rw [abs_of_pos hdy] at hle ⊢
    simp only [hdev]
    exact rise_accurate_iff hdx hdy hle

/-! ### Where the line ends -/

/-- The line is along an axis, or goes down less than a quarter of a row for each column. -/
def Arrives (sX sY uX uY : Int) : Prop :=
  uX = sX ∨ uY = sY ∨ sX < uX ∧ sY < uY ∧ 4 * (uY - sY) < uX - sX

/-- The line goes one row further than it has columns: the pen comes to the target, but it has not drawn there. -/
def Misses (sX sY uX uY : Int) : Prop := sX < uX ∧ |uY - sY| = uX - sX + 1

theorem lineEnd_eq_iff (h : NoOverflow sX sY uX uY) :
    lineEnd sX sY uX uY = (uX, uY) ↔ Arrives sX sY uX uY ∨ Misses sX sY uX uY := by
  unfold Arrives Misses
  by_cases hx : uX = sX
  · rw [lineEnd, if_pos hx, hx]
    exact iff_of_true rfl (.inl (.inl rfl))
  by_cases hy : uY = sY
  · rw [lineEnd, if_neg hx, if_pos hy, hy]
    exact iff_of_true rfl (.inl (.inr (.inl rfl)))
  rcases Int.lt_or_lt_of_ne hx with hleft | hright
  · rw [(linePixels_left hleft hy).2, Prod.mk.injEq]
    omega
  have hdx : 0 < uX - sX := by omega
  have hn : (((uX - sX).toNat + 1 : Nat) : Int) = uX - sX + 1 := by omega
  rw [(linePixels_right hright hy h).2, Prod.mk.injEq, eq_self_iff_true, true_and]
  rcases Int.lt_or_lt_of_ne hy with hup | hdown
  · rw [row_of_neg (by omega), abs_of_neg (by omega)]
    omega
  · have hiff := @rise_end_eq_iff (uX - sX) (uY - sY) _ hdx hn
    rw [row_of_pos (by omega), abs_of_pos (by omega)]
    omega

theorem start_mem_linePixels (hx : sX < uX) (hy : uY ≠ sY) (h : NoOverflow sX sY uX uY) :
    (sX, sY) ∈ linePixels sX sY uX uY := by
  rw [(linePixels_right hx hy h).1, List.mem_map]
  refine ⟨0, List.mem_range.2 (by omega), ?_⟩
  rw [row_zero (by omega), Nat.cast_zero, add_zero]

theorem ends_mem_linePixels (h : NoOverflow sX sY uX uY) (ha : Arrives sX sY uX uY) :
    (sX, sY) ∈ linePixels sX sY uX uY ∧ (uX, uY) ∈ linePixels sX sY uX uY := by
  by_cases haxis : uX = sX ∨ uY = sY
  · rw [mem_linePixels_axis haxis, mem_linePixels_axis haxis]
    unfold Box
    dsimp only
    omega
  obtain ⟨hx, hdown, hflat⟩ := (ha.resolve_left fun h => haxis (.inl h)).resolve_left fun h => haxis (.inr h)
  have hdx : 0 < uX - sX := by omega
  obtain ⟨n, hn⟩ := Int.eq_ofNat_of_zero_le hdx.le
  refine ⟨start_mem_linePixels hx hdown.ne' h, ?_⟩
  rw [(linePixels_right hx hdown.ne' h).1, List.mem_map]
  refine ⟨n, List.mem_range.2 (by omega), ?_⟩
  rw [row_of_pos (by omega), rise_last_eq hdx hn.symm (by omega) (by omega)]
  exact Prod.ext (by dsimp only; omega) (by dsimp only; omega)

theorem Misses.ne (h : Misses sX sY uX uY) : uY ≠ sY := by
  obtain ⟨hx, habs⟩ := h
  rintro rfl
  rw [sub_self, abs_zero] at habs
  omega

/-- Lines whose pen comes to the target stay in their rectangle. -/
theorem staysInBox_of_end (h : Arrives sX sY uX uY ∨ Misses sX sY uX uY) : StaysInBox sX sY uX uY := by
  unfold Arrives Misses at h
  unfold StaysInBox
  omega

theorem not_mem_linePixels (h : NoOverflow sX sY uX uY) (hm : Misses sX sY uX uY) :
    (uX, uY) ∉ linePixels sX sY uX uY := by
  have hy := hm.ne
  obtain ⟨hx, habs⟩ := hm
  rw [(linePixels_right hx hy h).1, List.mem_map]
  rintro ⟨k, -, hk⟩
  obtain ⟨h1, h2⟩ := Prod.mk.inj hk
  rcases Int.lt_or_lt_of_ne hy with hup | hdown
  · rw [row_of_neg (by omega)] at h2
    rw [abs_of_neg (by omega)] at habs
    omega
  · have := rise_le (uX - sX) (uY - sY) k
    rw [row_of_pos (by omega)] at h2
    rw [abs_of_pos (by omega)] at habs
    omega

end Line

end Xv6.Graphics
