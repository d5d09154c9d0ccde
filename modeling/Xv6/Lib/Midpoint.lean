import Mathlib

/-!
# Lines drawn with an error term

A line that rises `dy` rows in `dx` columns is drawn column by column. The error starts at `2 * dy - dx`;
`2 * dy` is added to it for each column, and when it is not negative then, the next column is one row
further and `2 * dx` is taken off. `rise` is the row of each column in closed form.

The error is tested after the addition for the next column and has had one such addition from the start,
so the line is ahead of the ideal one: column `k` has the row that belongs to column `k + 1`, as far
as one row for each column allows.
-/

namespace Midpoint

variable {dx dy : Int} {k : Nat} {r : Int}

/-- The row and the error of the next column. -/
def advance (dx dy : Int) (q : Int × Int) : Int × Int :=
  if 0 ≤ q.2 + 2 * dy then (q.1 + 1, q.2 + 2 * dy - 2 * dx) else (q.1, q.2 + 2 * dy)

/-- How many rows column `k` is above the first. -/
def rise (dx dy : Int) (k : Nat) : Int := min (k : Int) ((2 * dy * (k + 1) + dx) / (2 * dx))

def error (dx dy : Int) (k : Nat) : Int := 2 * dy - dx + 2 * dy * k - 2 * dx * rise dx dy k

theorem le_rise_iff (hx : 0 < dx) : r ≤ rise dx dy k ↔ r ≤ k ∧ 2 * dx * r ≤ 2 * dy * (k + 1) + dx := by
  rw [rise, le_min_iff, Int.le_ediv_iff_mul_le (by omega), mul_comm r]

theorem rise_lt_iff (hx : 0 < dx) : rise dx dy k < r ↔ k < r ∨ 2 * dy * (k + 1) + dx < 2 * dx * r := by
  rw [← not_le, le_rise_iff hx, not_and_or, not_le, not_le]

theorem rise_le (dx dy : Int) (k : Nat) : rise dx dy k ≤ k := min_le_left _ _

theorem two_mul_rise_le (hx : 0 < dx) (dy : Int) (k : Nat) : 2 * dx * rise dx dy k ≤ 2 * dy * (k + 1) + dx :=
  ((le_rise_iff hx).1 le_rfl).2

theorem rise_nonneg (hx : 0 < dx) (hy : 0 ≤ dy) : 0 ≤ rise dx dy k := by
  have hk : 0 ≤ dy * (k : Int) := mul_nonneg hy k.cast_nonneg
  exact (le_rise_iff hx).2 ⟨k.cast_nonneg, by linarith⟩

theorem rise_zero (hx : 0 < dx) (hy : 0 ≤ dy) : rise dx dy 0 = 0 :=
  le_antisymm (rise_le dx dy 0) (rise_nonneg hx hy)

theorem rise_succ (hx : 0 < dx) (hy : 0 ≤ dy) :
    rise dx dy (k + 1) = rise dx dy k + if 0 ≤ error dx dy k + 2 * dy then 1 else 0 := by
  have hlt : rise dx dy k < rise dx dy k + 1 := Int.lt_succ _
  rw [rise_lt_iff hx] at hlt
  have hle := rise_le dx dy k
  have hmul := two_mul_rise_le hx dy k
  have hk : (0 : Int) ≤ k := k.cast_nonneg
  unfold error
  generalize rise dx dy k = R at *
  split_ifs with hturn
  · refine le_antisymm (Int.lt_add_one_iff.1 ((rise_lt_iff hx).2 ?_)) ((le_rise_iff hx).2 ?_)
    · push_cast
      rcases hlt with hlt | hlt
      · exact .inl (by omega)
      · -- a row is missing, so the line rises less than one row for each column
        by_contra hfar
        rw [not_or, not_lt, not_lt] at hfar
        have hsteep : dx ≤ dy := by linarith [hfar.2]
        have h1 : dx * (k + 1) ≤ dy * (k + 1) := mul_le_mul_of_nonneg_right hsteep (by omega)
        have h2 : dx * (R + 1) ≤ dx * k := mul_le_mul_of_nonneg_left (by omega) hx.le
        linarith
    · push_cast
      exact ⟨by omega, by linarith⟩
  · rw [add_zero]
    refine le_antisymm (Int.lt_add_one_iff.1 ((rise_lt_iff hx).2 (.inr ?_))) ((le_rise_iff hx).2 ?_)
    · push_cast
      linarith
    · push_cast
      exact ⟨by omega, by linarith⟩

/-- The row and the error of column `k` are followed by those of column `k + 1`. -/
theorem advance_rise (hx : 0 < dx) (hy : 0 ≤ dy) (y : Int) (k : Nat) :
    advance dx dy (y + rise dx dy k, error dx dy k) = (y + rise dx dy (k + 1), error dx dy (k + 1)) := by
  have hsucc := rise_succ (k := k) hx hy
  unfold advance
  dsimp only
  split_ifs at hsucc ⊢ with hturn
  · rw [error, error, hsucc]
    push_cast
    exact Prod.ext (by ring) (by ring)
  · rw [error, error, hsucc]
    push_cast
    exact Prod.ext (by ring) (by ring)

/-! ### How close the line is to the ideal one -/

theorem rise_of_steep (hx : 0 < dx) (h : dx ≤ dy) : rise dx dy k = k := by
  refine le_antisymm (rise_le dx dy k) ((le_rise_iff hx).2 ⟨le_rfl, ?_⟩)
  have : dx * (k + 1) ≤ dy * (k + 1) := mul_le_mul_of_nonneg_right h (by omega)
  linarith

theorem rise_mono (hx : 0 < dx) (hy : 0 ≤ dy) {j : Nat} (h : j ≤ k) : rise dx dy j ≤ rise dx dy k := by
  have hj : (j : Int) ≤ k := Int.ofNat_le.2 h
  have hmul := two_mul_rise_le hx dy j
  have : dy * j ≤ dy * k := mul_le_mul_of_nonneg_left hj hy
  exact (le_rise_iff hx).2 ⟨(rise_le dx dy j).trans hj, by linarith⟩

/-- The last column has the last row, and nothing more. -/
theorem rise_last_le_iff (hx : 0 < dx) (hk : (k : Int) = dx) : rise dx dy k ≤ dy ↔ dx ≤ dy ∨ 2 * dy < dx := by
  rw [← Int.lt_add_one_iff, rise_lt_iff hx, hk, Int.lt_add_one_iff]
  refine or_congr Iff.rfl ?_
  constructor <;> intro h <;> linarith

/-- One column behind the last one is still in the last row. -/
theorem rise_end_eq_iff (hx : 0 < dx) (hk : (k : Int) = dx + 1) :
    rise dx dy k = dy ↔ dy = dx + 1 ∨ 4 * dy < dx ∧ 0 ≤ 4 * dy + dx := by
  have hlt : rise dx dy k < dy + 1 ↔ dx + 1 ≤ dy ∨ 4 * dy < dx := by
    rw [rise_lt_iff hx, hk]
    refine or_congr Int.lt_add_one_iff ?_
    constructor <;> intro h <;> linarith
  have hle : dy ≤ rise dx dy k ↔ dy ≤ dx + 1 ∧ 0 ≤ 4 * dy + dx := by
    rw [le_rise_iff hx, hk]
    refine and_congr Iff.rfl ?_
    constructor <;> intro h <;> linarith
  rw [le_antisymm_iff, ← Int.lt_add_one_iff, hlt, hle]
  omega

theorem rise_last_eq (hx : 0 < dx) (hk : (k : Int) = dx) (hy : 0 ≤ dy) (h : 2 * dy < dx) : rise dx dy k = dy := by
  refine le_antisymm ((rise_last_le_iff hx hk).2 (.inr h)) ((le_rise_iff hx).2 ?_)
  rw [hk]
  exact ⟨by omega, by linarith⟩

/-- The line is within half a row of the ideal one in every column only if it is a diagonal of squares. -/
theorem rise_accurate_iff (hx : 0 < dx) (hy : 0 < dy) (hle : dy ≤ dx) :
    (∀ k : Nat, (k : Int) ≤ dx → |2 * dx * rise dx dy k - 2 * dy * k| ≤ dx) ↔ dy = dx := by
  constructor
  · intro h
    by_contra hne
    by_cases hflat : 2 * dy < dx
    · -- the first column that is not in the first row
      have hdiv := Int.mul_ediv_add_emod (dx - 1) (2 * dy)
      have hmod := Int.emod_lt_of_pos (dx - 1) (by omega : 0 < 2 * dy)
      have hmod' := Int.emod_nonneg (dx - 1) (by omega : 2 * dy ≠ 0)
      have hone : 1 ≤ (dx - 1) / (2 * dy) := (Int.le_ediv_iff_mul_le (by omega)).2 (by omega)
      obtain ⟨k, hk⟩ := Int.eq_ofNat_of_zero_le (by omega : 0 ≤ (dx - 1) / (2 * dy))
      rw [hk] at hdiv hone
      have hrise : 1 ≤ rise dx dy k := (le_rise_iff hx).2 ⟨hone, by linarith⟩
      have hkd : (k : Int) ≤ dy * k := le_mul_of_one_le_left (by omega) (by omega)
      have habs := (abs_le.1 (h k (by linarith))).2
      have : dx * 1 ≤ dx * rise dx dy k := mul_le_mul_of_nonneg_left hrise hx.le
      linarith
    · -- the last column is a row too far
      obtain ⟨k, hk⟩ := Int.eq_ofNat_of_zero_le hx.le
      have hrise : dy + 1 ≤ rise dx dy k := by
        refine (le_rise_iff hx).2 ?_
        rw [← show dx = (k : Int) from hk]
        exact ⟨by omega, by linarith⟩
      have habs := (abs_le.1 (h k hk.ge)).2
      rw [← show dx = (k : Int) from hk] at habs
      have : dx * (dy + 1) ≤ dx * rise dx dy k := mul_le_mul_of_nonneg_left hrise hx.le
      linarith
  · rintro rfl k -
    rw [rise_of_steep hx le_rfl, sub_self, abs_zero]
    exact hx.le

end Midpoint
