import Mathlib

/-!
# Lists in order of use

`history` lists uses, the latest first. A list is in order of use if of two members the one used later comes
first, and those never used come last in some order of their own (`Newer`). Moving a member to the front when
it is used keeps the order (`pairwise_moveFront`), and the last member that satisfies a condition is the one
used longest ago (`newer_of_find?_reverse`).
-/

namespace Recency

variable {β : Type*} [DecidableEq β] {before : β → β → Prop} {history l l₁ l₂ : List β} {a b c : β}

/-- `b` was used after `c`, or neither was used and `b` is before `c`. -/
def Newer (before : β → β → Prop) (history : List β) (b c : β) : Prop :=
  history.idxOf b < history.idxOf c ∨ b ∉ history ∧ c ∉ history ∧ before b c

theorem Newer.cons (h : Newer before history b c) (hb : b ≠ a) (hc : c ≠ a) : Newer before (a :: history) b c := by
  unfold Newer at h ⊢
  rw [List.idxOf_cons_ne _ hb.symm, List.idxOf_cons_ne _ hc.symm, List.mem_cons, List.mem_cons, not_or, not_or]
  exact h.imp Nat.succ_lt_succ fun h => ⟨⟨hb, h.1⟩, ⟨hc, h.2.1⟩, h.2.2⟩

theorem newer_cons_self (hc : c ≠ b) : Newer before (b :: history) b c := by
  refine .inl ?_
  rw [List.idxOf_cons_self, List.idxOf_cons_ne _ hc.symm]
  exact Nat.succ_pos _

theorem pairwise_moveFront (hnd : (l₁ ++ b :: l₂).Nodup) (h : (l₁ ++ b :: l₂).Pairwise (Newer before history)) :
    (b :: (l₁ ++ l₂)).Pairwise (Newer before (b :: history)) := by
  have hnot : ∀ c ∈ l₁ ++ l₂, c ≠ b := fun c hc hcb => (List.nodup_middle.1 hnd).notMem (hcb ▸ hc)
  refine List.pairwise_cons.2 ⟨fun c hc => newer_cons_self (hnot c hc), ?_⟩
  have hrest : (l₁ ++ l₂).Pairwise (Newer before history) :=
    h.sublist ((List.sublist_cons_self b l₂).append_left l₁)
  exact hrest.imp_of_mem fun hx hy hxy => hxy.cons (hnot _ hx) (hnot _ hy)

theorem newer_of_find?_reverse {p : β → Bool} (h : l.Pairwise (Newer before history))
    (hb : l.reverse.find? p = some b) (hc : c ∈ l) (hp : p c = true) (hne : c ≠ b) : Newer before history c b := by
  obtain ⟨-, as, bs, hl, has⟩ := List.find?_eq_some_iff_append.1 hb
  have hl' : l = bs.reverse ++ b :: as.reverse := by
    rw [← List.reverse_reverse l, hl, List.reverse_append, List.reverse_cons, List.append_assoc]
    rfl
  rw [hl'] at h hc
  have hfront : c ∈ bs.reverse := by
    rcases List.mem_append.1 hc with hc | hc
    · exact hc
    rcases List.mem_cons.1 hc with rfl | hc
    · exact absurd rfl hne
    · have := has c (List.mem_reverse.1 hc)
      rw [hp] at this
      cases this
  exact (List.pairwise_append.1 h).2.2 c hfront b (List.mem_cons_self ..)

end Recency
