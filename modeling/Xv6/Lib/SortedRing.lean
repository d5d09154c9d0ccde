import Mathlib

/-!
# Circular lists in increasing order

A circular list whose nodes stand in increasing order, except that the last one leads back to the first. `SortedRing
base R next` says this of the link function and the set of nodes, without naming positions: the link of a node is the
least node above it, and the link of the greatest node is `base`, the least one.
-/

open Function

variable {α : Type*} [LinearOrder α]

/-- `d` is what a node `c` links to. -/
def IsNext (base : α) (R : Finset α) (c d : α) : Prop :=
  (d ∈ R ∧ c < d ∧ ∀ x ∈ R, c < x → d ≤ x) ∨ (d = base ∧ ∀ x ∈ R, x ≤ c)

/-- The nodes `R` stand in increasing order, with `base` first. -/
structure SortedRing (base : α) (R : Finset α) (next : α → α) : Prop where
  base_mem : base ∈ R
  base_le : ∀ x ∈ R, base ≤ x
  next : ∀ c ∈ R, IsNext base R c (next c)

namespace SortedRing

variable {base b c p q t : α} {R : Finset α} {next next' : α → α}

theorem singleton (h : next base = base) : SortedRing base {base} next where
  base_mem := Finset.mem_singleton_self base
  base_le := fun x hx => (Finset.mem_singleton.1 hx).ge
  next := fun c hc => by
    rw [Finset.mem_singleton.1 hc]
    exact .inr ⟨h, fun x hx => (Finset.mem_singleton.1 hx).le⟩

theorem congr (h : SortedRing base R next) (heq : ∀ c ∈ R, next' c = next c) : SortedRing base R next' :=
  ⟨h.base_mem, h.base_le, fun c hc => heq c hc ▸ h.next c hc⟩

theorem next_mem (h : SortedRing base R next) (hc : c ∈ R) : next c ∈ R := by
  rcases h.next c hc with ⟨hd, -⟩ | ⟨hd, -⟩
  · exact hd
  · rw [hd]
    exact h.base_mem

/-- Between a node and the one it links to there is none. -/
theorem le_or_next_le (h : SortedRing base R next) (hc : c ∈ R) {x : α} (hx : x ∈ R) : x ≤ c ∨ next c ≤ x := by
  rcases h.next c hc with ⟨-, -, hmin⟩ | ⟨-, hmax⟩
  · exact (le_or_gt x c).imp_right fun hcx => hmin x hx hcx
  · exact .inl (hmax x hx)

theorem next_eq_base (h : SortedRing base R next) (hc : c ∈ R) (hge : ¬ c < next c) :
    next c = base ∧ ∀ x ∈ R, x ≤ c := by
  rcases h.next c hc with ⟨-, hlt, -⟩ | hlast
  · exact absurd hlt hge
  · exact hlast

/-- The node before a place that is not taken. -/
theorem exists_before (h : SortedRing base R next) (hb : base < b) (hnot : b ∉ R) :
    ∃ p ∈ R, p < b ∧ ∀ x ∈ R, x ≤ p ∨ b < x := by
  have hne : (R.filter (· < b)).Nonempty := ⟨base, Finset.mem_filter.2 ⟨h.base_mem, hb⟩⟩
  obtain ⟨hpR, hpb⟩ := Finset.mem_filter.1 (Finset.max'_mem _ hne)
  refine ⟨_, hpR, hpb, fun x hx => ?_⟩
  rcases lt_trichotomy x b with hlt | rfl | hgt
  · exact .inl (Finset.le_max' _ x (Finset.mem_filter.2 ⟨hx, hlt⟩))
  · exact absurd hx hnot
  · exact .inr hgt

/-- How a search tells the node before a place: the place is between the node and its link, or outside of
all nodes where the link leads back. -/
theorem before_iff (h : SortedRing base R next) (hb : base < b) (hp : p ∈ R) (hpb : p < b)
    (hbetween : ∀ x ∈ R, x ≤ p ∨ b < x) (hc : c ∈ R) :
    (b > c ∧ b < next c) ∨ (c ≥ next c ∧ (b > c ∨ b < next c)) ↔ c = p := by
  rcases h.next c hc with ⟨hd, hlt, hmin⟩ | ⟨hd, hmax⟩
  · refine ⟨?_, ?_⟩
    · rintro (⟨h1, h2⟩ | ⟨h1, -⟩)
      · by_contra hne
        have hcp : c < p := ((hbetween c hc).resolve_right h1.not_gt).lt_of_ne hne
        exact ((hmin p hp hcp).trans_lt hpb).not_gt h2
      · exact absurd hlt h1.not_gt
    · rintro rfl
      exact .inl ⟨hpb, (hbetween _ hd).resolve_left hlt.not_ge⟩
  · refine ⟨?_, ?_⟩
    · rintro (⟨-, h2⟩ | ⟨-, h1 | h2⟩)
      · exact absurd h2 (hd ▸ hb.not_gt)
      · exact le_antisymm ((hbetween c hc).resolve_right h1.not_gt) (hmax p hp)
      · exact absurd h2 (hd ▸ hb.not_gt)
    · rintro rfl
      exact .inr ⟨hd ▸ h.base_le c hc, .inl hpb⟩

theorem insert (h : SortedRing base R next) (hp : p ∈ R) (hpb : p < b) (hbetween : ∀ x ∈ R, x ≤ p ∨ b < x) :
    SortedRing base (insert b R) (update (update next b (next p)) p b) := by
  have hnot : b ∉ R := fun hb => (hbetween b hb).elim (fun h => absurd h hpb.not_ge) (lt_irrefl b)
  refine ⟨Finset.mem_insert_of_mem h.base_mem, fun x hx => ?_, fun c hc => ?_⟩
  · rcases Finset.mem_insert.1 hx with rfl | hx
    · exact (h.base_le p hp).trans hpb.le
    · exact h.base_le x hx
  · by_cases hcp : c = p
    · subst hcp
      rw [update_self]
      refine .inl ⟨Finset.mem_insert_self b R, hpb, fun x hx hlt => ?_⟩
      rcases Finset.mem_insert.1 hx with rfl | hx
      · exact le_rfl
      · exact ((hbetween x hx).resolve_left hlt.not_ge).le
    · rw [update_of_ne hcp]
      by_cases hcb : c = b
      · subst hcb
        rw [update_self]
        rcases h.next p hp with ⟨hd, hlt, hmin⟩ | ⟨hd, hmax⟩
        · refine .inl ⟨Finset.mem_insert_of_mem hd, (hbetween _ hd).resolve_left hlt.not_ge, fun x hx hcx => ?_⟩
          rcases Finset.mem_insert.1 hx with rfl | hx
          · exact absurd hcx (lt_irrefl x)
          · exact hmin x hx (hpb.trans hcx)
        · refine .inr ⟨hd, fun x hx => ?_⟩
          rcases Finset.mem_insert.1 hx with rfl | hx
          · exact le_rfl
          · exact (hmax x hx).trans hpb.le
      · rw [update_of_ne hcb]
        have hcR : c ∈ R := Finset.mem_of_mem_insert_of_ne hc hcb
        rcases h.next c hcR with ⟨hd, hlt, hmin⟩ | ⟨hd, hmax⟩
        · refine .inl ⟨Finset.mem_insert_of_mem hd, hlt, fun x hx hcx => ?_⟩
          rcases Finset.mem_insert.1 hx with rfl | hx
          · -- a node below the new one has its successor at or below `p`
            have hcp' : c < p := ((hbetween c hcR).resolve_right hcx.not_gt).lt_of_ne hcp
            exact (hmin p hp hcp').trans hpb.le
          · exact hmin x hx hcx
        · refine .inr ⟨hd, fun x hx => ?_⟩
          rcases Finset.mem_insert.1 hx with rfl | hx
          · rcases hbetween c hcR with hle | hgt
            · exact absurd (le_antisymm hle (hmax p hp)) hcp
            · exact hgt.le
          · exact hmax x hx

theorem erase (h : SortedRing base R next) (hq : q ∈ R) (hqp : next q = p) (hlt : q < p) :
    SortedRing base (R.erase p) (update next q (next p)) := by
  have hp : p ∈ R := hqp ▸ h.next_mem hq
  have hbp : base < p := (h.base_le q hq).trans_lt hlt
  have hbetween : ∀ x ∈ R, x ≤ q ∨ p ≤ x := fun x hx => by
    have := h.le_or_next_le hq hx
    rwa [hqp] at this
  refine ⟨Finset.mem_erase.2 ⟨hbp.ne, h.base_mem⟩, fun x hx => h.base_le x (Finset.mem_of_mem_erase hx), fun c hc => ?_⟩
  obtain ⟨hcp, hcR⟩ := Finset.mem_erase.1 hc
  by_cases hcq : c = q
  · subst hcq
    rw [update_self]
    rcases h.next p hp with ⟨hd, hgt, hmin⟩ | ⟨hd, hmax⟩
    · refine .inl ⟨Finset.mem_erase.2 ⟨hgt.ne', hd⟩, hlt.trans hgt, fun x hx hcx => ?_⟩
      obtain ⟨hxp, hxR⟩ := Finset.mem_erase.1 hx
      exact hmin x hxR (((hbetween x hxR).resolve_left hcx.not_ge).lt_of_ne' hxp)
    · refine .inr ⟨hd, fun x hx => ?_⟩
      obtain ⟨hxp, hxR⟩ := Finset.mem_erase.1 hx
      exact (hbetween x hxR).resolve_right fun hpx => hxp (le_antisymm (hmax x hxR) hpx)
  · rw [update_of_ne hcq]
    rcases h.next c hcR with ⟨hd, hgt, hmin⟩ | ⟨hd, hmax⟩
    · have hne : next c ≠ p := fun heq => by
        rcases hbetween c hcR with hle | hge
        · have := hmin q hq (hle.lt_of_ne hcq)
          rw [heq] at this
          exact this.not_gt hlt
        · rw [heq] at hgt
          exact hge.not_gt hgt
      exact .inl ⟨Finset.mem_erase.2 ⟨hne, hd⟩, hgt, fun x hx hcx => hmin x (Finset.mem_of_mem_erase hx) hcx⟩
    · exact .inr ⟨hd, fun x hx => hmax x (Finset.mem_of_mem_erase hx)⟩

/-- The nodes as a list: `base` first, each links to the next one, and the last to `base`. -/
theorem exists_list (h : SortedRing base R next) : ∃ l : List α, l.Pairwise (· < ·) ∧ (∀ x, x ∈ l ↔ x ∈ R) ∧
    l.head? = some base ∧ ∀ i, i < l.length → next (l.getD i base) = l.getD (i + 1) base := by
  have hpair : (R.sort (· ≤ ·)).Pairwise (· < ·) := (Finset.sortedLT_sort R).pairwise
  have hmem : ∀ x, x ∈ R.sort (· ≤ ·) ↔ x ∈ R := fun x => Finset.mem_sort _
  have hlt := List.pairwise_iff_getElem.1 hpair
  refine ⟨R.sort (· ≤ ·), hpair, hmem, ?_, fun i hi => ?_⟩
  · rcases hl : R.sort (· ≤ ·) with _ | ⟨a, l⟩
    · have := (hmem base).2 h.base_mem
      rw [hl] at this
      cases this
    · rw [hl] at hpair
      rcases List.mem_cons.1 (hl ▸ (hmem base).2 h.base_mem) with rfl | hb
      · rfl
      · have ha : a ∈ R := (hmem a).1 (hl ▸ List.mem_cons_self)
        exact absurd ((List.pairwise_cons.1 hpair).1 base hb) (h.base_le a ha).not_gt
  · have hget : (R.sort (· ≤ ·)).getD i base = (R.sort (· ≤ ·))[i] := List.getD_eq_getElem _ _ hi
    have hiR : (R.sort (· ≤ ·))[i] ∈ R := (hmem _).1 (List.getElem_mem hi)
    rw [hget]
    rcases h.next _ hiR with ⟨hd, hgt, hmin⟩ | ⟨hd, hmax⟩
    · obtain ⟨j, hj, hjeq⟩ := List.getElem_of_mem ((hmem _).2 hd)
      have hij : i < j := by
        by_contra hle
        rcases Nat.lt_or_ge j i with hji | hge
        · exact (hlt j i hj hi hji).not_gt (hjeq ▸ hgt)
        · obtain rfl : j = i := by omega
          exact hgt.ne hjeq
      have hnext : i + 1 < (R.sort (· ≤ ·)).length := by omega
      have hle := hmin _ ((hmem _).1 (List.getElem_mem hnext)) (hlt i (i + 1) hi hnext (Nat.lt_succ_self i))
      have hji : j = i + 1 := by
        by_contra hne
        exact (hlt (i + 1) j hnext hj (by omega)).not_ge (hjeq ▸ hle)
      subst hji
      rw [List.getD_eq_getElem _ _ hj, hjeq]
    · have hlast : ¬ i + 1 < (R.sort (· ≤ ·)).length := fun hnext =>
        (hlt i (i + 1) hi hnext (Nat.lt_succ_self i)).not_ge (hmax _ ((hmem _).1 (List.getElem_mem hnext)))
      rw [List.getD_eq_default _ _ (Nat.le_of_not_lt hlast), hd]

/-! ### Walking around -/

/-- How many links lead from `c` to `t`. -/
def dist (R : Finset α) (c t : α) : Nat :=
  if c ≤ t then (R.filter fun x => c ≤ x ∧ x < t).card
  else (R.filter fun x => c ≤ x).card + (R.filter fun x => x < t).card

theorem dist_eq_zero (hc : c ∈ R) (h : dist R c t = 0) : c = t := by
  unfold dist at h
  split at h
  · rename_i hle
    by_contra hne
    have hmem : c ∈ R.filter fun x => c ≤ x ∧ x < t := Finset.mem_filter.2 ⟨hc, le_rfl, hle.lt_of_ne hne⟩
    exact Finset.card_ne_zero_of_mem hmem h
  · have hmem : c ∈ R.filter fun x => c ≤ x := Finset.mem_filter.2 ⟨hc, le_rfl⟩
    exact absurd (Nat.eq_zero_of_add_eq_zero_right h) (Finset.card_ne_zero_of_mem hmem)

theorem dist_self : dist R t t = 0 := by
  unfold dist
  rw [if_pos le_rfl, Finset.card_eq_zero, Finset.filter_eq_empty_iff]
  exact fun x _ hx => hx.1.not_gt hx.2

theorem dist_lt (ht : t ∈ R) : dist R c t < R.card := by
  rw [← Finset.card_erase_add_one ht, Nat.lt_succ_iff]
  unfold dist
  split
  · refine Finset.card_le_card fun x hx => ?_
    obtain ⟨hxR, -, hlt⟩ := Finset.mem_filter.1 hx
    exact Finset.mem_erase.2 ⟨hlt.ne, hxR⟩
  · rename_i hlt
    rw [← Finset.card_union_of_disjoint]
    · refine Finset.card_le_card fun x hx => Finset.mem_erase.2 ?_
      rcases Finset.mem_union.1 hx with hx | hx <;> obtain ⟨hxR, hx⟩ := Finset.mem_filter.1 hx
      · exact ⟨fun heq => hlt (heq ▸ hx), hxR⟩
      · exact ⟨hx.ne, hxR⟩
    · refine Finset.disjoint_left.2 fun x hx hx' => ?_
      exact hlt ((Finset.mem_filter.1 hx).2.trans (Finset.mem_filter.1 hx').2.le)

theorem dist_next (h : SortedRing base R next) (hc : c ∈ R) (ht : t ∈ R) (hne : c ≠ t) :
    dist R (next c) t + 1 = dist R c t := by
  rcases h.next c hc with ⟨-, hlt, hmin⟩ | ⟨hd, hmax⟩
  · -- one node less from `next c` on than from `c` on
    have hiff : ∀ x ∈ R, c ≤ x ↔ x = c ∨ next c ≤ x := fun x hx =>
      ⟨fun hle => hle.eq_or_lt.imp Eq.symm (hmin x hx), fun hor => hor.elim (·.ge) hlt.le.trans⟩
    by_cases hct : c ≤ t
    · rw [dist, dist, if_pos hct, if_pos (hmin t ht (hct.lt_of_ne hne)), ← Finset.card_insert_of_notMem (a := c)]
      · congr 1
        ext x
        simp only [Finset.mem_insert, Finset.mem_filter]
        refine ⟨?_, fun ⟨hx, h1, h2⟩ => ((hiff x hx).1 h1).imp_right fun h1 => ⟨hx, h1, h2⟩⟩
        rintro (rfl | ⟨hx, h1, h2⟩)
        · exact ⟨hc, le_rfl, hct.lt_of_ne hne⟩
        · exact ⟨hx, hlt.le.trans h1, h2⟩
      · exact fun hx => (Finset.mem_filter.1 hx).2.1.not_gt hlt
    · rw [dist, dist, if_neg hct, if_neg fun hle => hct (hlt.le.trans hle), Nat.add_right_comm,
        ← Finset.card_insert_of_notMem (a := c)]
      · congr 2
        ext x
        simp only [Finset.mem_insert, Finset.mem_filter]
        refine ⟨?_, fun ⟨hx, h1⟩ => ((hiff x hx).1 h1).imp_right fun h1 => ⟨hx, h1⟩⟩
        rintro (rfl | ⟨hx, h1⟩)
        · exact ⟨hc, le_rfl⟩
        · exact ⟨hx, hlt.le.trans h1⟩
      · exact fun hx => (Finset.mem_filter.1 hx).2.not_gt hlt
  · -- `c` is the last node, and the way goes on from the first
    have htc : ¬ c ≤ t := fun hle => hne (le_antisymm hle (hmax t ht))
    have hone : (R.filter fun x => c ≤ x) = {c} := by
      ext x
      rw [Finset.mem_filter, Finset.mem_singleton]
      exact ⟨fun hx => le_antisymm (hmax x hx.1) hx.2, fun hx => ⟨hx.symm ▸ hc, hx.ge⟩⟩
    have hall : (R.filter fun x => base ≤ x ∧ x < t) = R.filter fun x => x < t :=
      Finset.filter_congr fun x hx => and_iff_right (h.base_le x hx)
    rw [dist, dist, if_neg htc, hd, if_pos (h.base_le t ht), hone, hall, Finset.card_singleton, Nat.add_comm]

theorem dist_next_self (h : SortedRing base R next) (ht : t ∈ R) : dist R (next t) t + 1 = R.card := by
  rw [← Finset.card_erase_add_one ht, Nat.add_right_cancel_iff]
  rcases h.next t ht with ⟨-, hlt, hmin⟩ | ⟨hd, hmax⟩
  · rw [dist, if_neg hlt.not_ge, ← Finset.card_union_of_disjoint]
    · congr 1
      ext x
      simp only [Finset.mem_union, Finset.mem_filter, Finset.mem_erase]
      constructor
      · rintro (⟨hx, h1⟩ | ⟨hx, h1⟩)
        · exact ⟨(hlt.trans_le h1).ne', hx⟩
        · exact ⟨h1.ne, hx⟩
      · rintro ⟨hne, hx⟩
        rcases lt_or_gt_of_ne hne with h1 | h1
        · exact .inr ⟨hx, h1⟩
        · exact .inl ⟨hx, hmin x hx h1⟩
    · refine Finset.disjoint_left.2 fun x hx hx' => ?_
      exact ((Finset.mem_filter.1 hx').2.trans hlt).not_ge (Finset.mem_filter.1 hx).2
  · rw [dist, hd, if_pos (h.base_le t ht)]
    congr 1
    ext x
    rw [Finset.mem_filter, Finset.mem_erase]
    exact ⟨fun hx => ⟨hx.2.2.ne, hx.1⟩, fun hx => ⟨hx.2, h.base_le x hx.2, (hmax x hx.2).lt_of_ne hx.1⟩⟩

end SortedRing
