import Mathlib

/-!
# Counting over the components of a state

Shared counters (a number of operations in progress, a reference count) are sums over all the
components that contribute to them. `tally w f` is such a sum, and `tally_update` says how it moves
when one component changes.
-/

namespace Tally

open scoped BigOperators

variable {ι α : Type*} [Fintype ι]

/-- Changing one component changes the sum of all contributions by the difference of its own. -/
theorem sum_update [DecidableEq ι] (w : ι → α → Nat) (f : ι → α) (i : ι) (x : α) :
    (∑ j, w j (Function.update f i x j)) + w i (f i) = (∑ j, w j (f j)) + w i x := by
  rw [← Finset.add_sum_erase _ _ (Finset.mem_univ i), ← Finset.add_sum_erase _ (fun j => w j (f j))
    (Finset.mem_univ i), Function.update_self]
  have : ∀ j ∈ Finset.univ.erase i, w j (Function.update f i x j) = w j (f j) := fun j hj => by
    rw [Function.update_of_ne (Finset.ne_of_mem_erase hj)]
  rw [Finset.sum_congr rfl this]
  omega

/-- The sum of the contributions `w (f i)` of all components. -/
def tally (w : α → Nat) (f : ι → α) : Nat := ∑ i, w (f i)

theorem tally_update [DecidableEq ι] (w : α → Nat) (f : ι → α) (i : ι) (x : α) :
    tally w (Function.update f i x) + w (f i) = tally w f + w x :=
  sum_update (fun _ => w) f i x

theorem le_tally (w : α → Nat) (f : ι → α) (i : ι) : w (f i) ≤ tally w f :=
  Finset.single_le_sum (f := fun j => w (f j)) (fun _ _ => Nat.zero_le _) (Finset.mem_univ i)

theorem eq_zero_of_tally_eq_zero {w : α → Nat} {f : ι → α} (h : tally w f = 0) (i : ι) :
    w (f i) = 0 := by
  have := le_tally w f i
  omega

theorem tally_eq_zero {w : α → Nat} {f : ι → α} (h : ∀ i, w (f i) = 0) : tally w f = 0 :=
  Finset.sum_eq_zero fun i _ => h i

theorem tally_congr {w : α → Nat} {f g : ι → α} (h : ∀ i, w (f i) = w (g i)) : tally w f = tally w g :=
  Finset.sum_congr rfl fun i _ => h i

end Tally
