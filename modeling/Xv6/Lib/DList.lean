import Mathlib

/-!
# Circular doubly linked lists with a sentinel

The nodes of a list are `some b` for its members and `none` for the sentinel; `Links` holds the
`next` and `prev` pointer of every node. `Links.IsList l` says that following the pointers from the
sentinel, in either direction, visits the members `l` and returns to the sentinel. The pointer
operations are the usual assignments, in their usual order.
-/

namespace DList

open Function

variable {β : Type*}

structure Links (β : Type*) where
  next : Option β → Option β
  prev : Option β → Option β

/-- The nodes visited from `x` on until the sentinel, in at most `n` steps. -/
def follow (nxt : Option β → Option β) : Nat → Option β → Option (List β)
  | _, none => some []
  | 0, some _ => none
  | n + 1, some b => (follow nxt n (nxt (some b))).map (b :: ·)

/-- The first node from `x` on that satisfies `P`; the outer `none` is a loop that did not end. -/
def scan (nxt : Option β → Option β) (P : β → Bool) : Nat → Option β → Option (Option β)
  | _, none => some none
  | 0, some _ => none
  | n + 1, some b => if P b then some (some b) else scan nxt P n (nxt (some b))

theorem scan_of_follow {nxt : Option β → Option β} (P : β → Bool) {n : Nat} {x : Option β} {l : List β}
    (h : follow nxt n x = some l) : scan nxt P n x = some (l.find? P) := by
  induction n generalizing x l with
  | zero =>
    rcases x with _ | b
    · cases h; rfl
    · cases h
  | succ n ih =>
    rcases x with _ | b
    · cases h; rfl
    · obtain ⟨l', hl', rfl⟩ := Option.map_eq_some_iff.1 h
      simp only [scan, List.find?_cons, ih hl']
      cases P b <;> rfl

namespace Links

variable {t t' : Links β} {x y : Option β} {b : β} {l l₁ l₂ : List β}

def swap (t : Links β) : Links β := ⟨t.prev, t.next⟩

/-- The pointers lead from node `x` over the members `l` to node `y`, and back. -/
def Seg (t : Links β) : Option β → List β → Option β → Prop
  | x, [], y => t.next x = y ∧ t.prev y = x
  | x, b :: l, y => (t.next x = some b ∧ t.prev (some b) = x) ∧ t.Seg (some b) l y

def IsList (t : Links β) (l : List β) : Prop := l.Nodup ∧ t.Seg none l none

theorem seg_append : t.Seg x (l₁ ++ b :: l₂) y ↔ t.Seg x l₁ (some b) ∧ t.Seg (some b) l₂ y := by
  induction l₁ generalizing x with
  | nil => rfl
  | cons a l₁ ih => simp only [List.cons_append, Seg, ih, and_assoc]

theorem Seg.congr (h : t.Seg x l y) (hn : ∀ z, z = x ∨ z ∈ l.map some → t'.next z = t.next z)
    (hp : ∀ z, z = y ∨ z ∈ l.map some → t'.prev z = t.prev z) : t'.Seg x l y := by
  induction l generalizing x with
  | nil => exact ⟨(hn x (.inl rfl)).trans h.1, (hp y (.inl rfl)).trans h.2⟩
  | cons b l ih =>
    obtain ⟨⟨h1, h2⟩, h3⟩ := h
    refine ⟨⟨(hn x (.inl rfl)).trans h1, (hp _ (.inr (by simp))).trans h2⟩, ih h3 ?_ ?_⟩
    · rintro z (rfl | hz)
      · exact hn _ (.inr (by simp))
      · exact hn z (.inr (by simp [hz]))
    · rintro z (rfl | hz)
      · exact hp _ (.inl rfl)
      · exact hp z (.inr (by simp [hz]))

theorem Seg.reverse (h : t.Seg x l y) : t.swap.Seg y l.reverse x := by
  induction l generalizing x with
  | nil => exact ⟨h.2, h.1⟩
  | cons b l ih =>
    rw [List.reverse_cons, seg_append]
    exact ⟨ih h.2, h.1.2, h.1.1⟩

theorem IsList.swap (h : t.IsList l) : t.swap.IsList l.reverse := ⟨List.nodup_reverse.2 h.1, h.2.reverse⟩

theorem Seg.next_mem (h : t.Seg x l y) : t.next x = y ∨ t.next x ∈ l.map some := by
  rcases l with _ | ⟨b, l⟩
  · exact .inl h.1
  · exact .inr (by simp [h.1.1])

theorem Seg.follow {n : Nat} (h : t.Seg x l none) (hn : l.length ≤ n) :
    follow t.next n (t.next x) = some l := by
  induction l generalizing x n with
  | nil => rw [h.1]; cases n <;> rfl
  | cons b l ih =>
    obtain ⟨n, rfl⟩ : ∃ m, n = m + 1 := ⟨n - 1, by simp at hn; omega⟩
    rw [h.1.1, DList.follow, ih h.2 (by simpa using hn)]
    rfl

theorem IsList.follow_next {n : Nat} (h : t.IsList l) (hn : l.length ≤ n) :
    DList.follow t.next n (t.next none) = some l := h.2.follow hn

theorem IsList.follow_prev {n : Nat} (h : t.IsList l) (hn : l.length ≤ n) :
    DList.follow t.prev n (t.prev none) = some l.reverse :=
  h.swap.2.follow (by simpa using hn)

/-! ### Pointer operations -/

variable [DecidableEq β]

def pushFront (t : Links β) (b : β) : Links β :=
  let t := { t with next := update t.next (some b) (t.next none) }
  let t := { t with prev := update t.prev (some b) none }
  let t := { t with prev := update t.prev (t.next none) (some b) }
  { t with next := update t.next none (some b) }

def unlink (t : Links β) (b : β) : Links β :=
  let t := { t with prev := update t.prev (t.next (some b)) (t.prev (some b)) }
  { t with next := update t.next (t.prev (some b)) (t.next (some b)) }

theorem IsList.pushFront (h : t.IsList l) (hb : b ∉ l) : (t.pushFront b).IsList (b :: l) := by
  obtain ⟨hnd, hs⟩ := h
  refine ⟨List.nodup_cons.2 ⟨hb, hnd⟩, ?_⟩
  have hnext : ∀ z, z ≠ none → z ≠ some b → (t.pushFront b).next z = t.next z := fun z h1 h2 => by
    simp [Links.pushFront, h1, h2]
  rcases l with _ | ⟨c, l⟩
  · obtain ⟨h1, -⟩ := hs
    simp [Seg, Links.pushFront, h1]
  · obtain ⟨⟨h1, -⟩, h3⟩ := hs
    have hcb : c ≠ b := fun h => hb (by simp [h])
    have hprev : ∀ z, z ≠ some c → z ≠ some b → (t.pushFront b).prev z = t.prev z := fun z h2 h3 => by
      simp [Links.pushFront, h1, h2, h3]
    refine ⟨⟨by simp [Links.pushFront], ?_⟩, ⟨?_, ?_⟩, h3.congr ?_ ?_⟩
    · simp [Links.pushFront, h1, hcb.symm]
    · simp [Links.pushFront, h1]
    · simp [Links.pushFront, h1]
    · rintro z (rfl | hz)
      · exact hnext _ nofun (by simpa using hcb)
      · obtain ⟨a, ha, rfl⟩ := List.mem_map.1 hz
        exact hnext _ nofun fun h => hb (by cases h; simp [ha])
    · rintro z (rfl | hz)
      · exact hprev _ nofun nofun
      · obtain ⟨a, ha, rfl⟩ := List.mem_map.1 hz
        refine hprev _ (fun h => ?_) fun h => hb (by cases h; simp [ha])
        cases h
        exact (List.nodup_cons.1 hnd).1 ha

theorem Seg.unlink_head (h₁ : t.next x = some b) (h₂ : t.prev (some b) = x) (h : t.Seg (some b) l none)
    (hxb : x ≠ some b) (hx : x ∉ l.map some) (hb : b ∉ l) (hnd : l.Nodup) :
    (t.unlink b).Seg x l none := by
  rcases l with _ | ⟨c, l⟩
  · obtain ⟨h3, -⟩ := h
    simp [Seg, Links.unlink, h₂, h3]
  · obtain ⟨⟨h3, -⟩, h5⟩ := h
    have hcb : c ≠ b := fun h => hb (by simp [h])
    have hp : (update t.prev (some c) x) (some b) = x := by
      rw [update_of_ne (by simpa using hcb.symm), h₂]
    refine ⟨⟨by simp [Links.unlink, h₂, h3, hp], by simp [Links.unlink, h₂, h3]⟩, h5.congr ?_ ?_⟩
    · rintro z hz
      have hzx : z ≠ x := by
        rintro rfl
        rcases hz with rfl | hz <;> simp_all
      simp [Links.unlink, h₂, h3, hp, hzx]
    · rintro z hz
      have hzc : z ≠ some c := by
        rintro rfl
        rcases hz with hz | hz <;> simp_all
      simp [Links.unlink, h₂, h3, hzc]

theorem IsList.unlink (h : t.IsList (l₁ ++ b :: l₂)) : (t.unlink b).IsList (l₁ ++ l₂) := by
  obtain ⟨hnd, hs⟩ := h
  obtain ⟨hnd1, hnd2, hdis⟩ := List.nodup_append.1 hnd
  obtain ⟨hb, hnd2⟩ := List.nodup_cons.1 hnd2
  obtain ⟨h1, h2⟩ := seg_append.1 hs
  refine ⟨List.nodup_append.2 ⟨hnd1, hnd2, fun a ha c hc => hdis a ha c (by simp [hc])⟩, ?_⟩
  rcases List.eq_nil_or_concat l₁ with rfl | ⟨l₁, a, rfl⟩
  · exact Seg.unlink_head h1.1 h1.2 h2 nofun (by simp) hb hnd2
  · rw [List.concat_eq_append] at *
    obtain ⟨h0, h1, h3⟩ := seg_append.1 h1
    have hab : a ≠ b := hdis a (by simp) b (by simp)
    rw [List.append_assoc, List.singleton_append, seg_append]
    refine ⟨?_, Seg.unlink_head h1 h3 h2 (by simpa using hab) ?_ hb hnd2⟩
    · -- the members before `a` keep both pointers
      have hnext : ∀ c, c = b ∨ c ∈ l₁ ++ [a] → some c ≠ t.next (some b) := by
        intro c hc hcn
        rcases h2.next_mem with h | h <;> rw [← hcn] at h
        · cases h
        · have hc2 : c ∈ l₂ := by simpa using h
          rcases hc with rfl | hc
          · exact hb hc2
          · exact hdis c hc c (by simp [hc2]) rfl
      have hp : (update t.prev (t.next (some b)) (t.prev (some b))) (some b) = some a := by
        rw [update_of_ne (hnext b (.inl rfl)), h3]
      refine h0.congr ?_ ?_
      · rintro z hz
        have hza : z ≠ some a := by
          rintro rfl
          rcases hz with hz | hz
          · cases hz
          · obtain ⟨c, hc, hca⟩ := List.mem_map.1 hz
            cases hca
            exact (List.nodup_append.1 hnd1).2.2 a hc a (by simp) rfl
        simp [Links.unlink, hp, hza]
      · rintro z hz
        have : z ≠ t.next (some b) := by
          rcases hz with rfl | hz
          · exact hnext a (by simp)
          · obtain ⟨c, hc, rfl⟩ := List.mem_map.1 hz
            exact hnext c (by simp [hc])
        simp [Links.unlink, this]
    · intro h
      obtain ⟨c, hc, hac⟩ := List.mem_map.1 h
      cases hac
      exact hdis a (by simp) a (by simp [hc]) rfl

/-- Taking `b` out and putting it back after the sentinel keeps the members. -/
theorem IsList.moveFront (h : t.IsList l) (hb : b ∈ l) :
    ∃ l', ((t.unlink b).pushFront b).IsList l' ∧ l'.Perm l := by
  obtain ⟨l₁, l₂, rfl⟩ := List.append_of_mem hb
  refine ⟨b :: (l₁ ++ l₂), h.unlink.pushFront ?_, List.perm_middle.symm⟩
  exact (List.nodup_middle.1 h.1).notMem

end Links

end DList
