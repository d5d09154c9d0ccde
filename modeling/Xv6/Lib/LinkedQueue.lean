import Mathlib

/-!
# Queues through a `next` pointer

A queue is a pointer to its first member and a `next` pointer in every member; the last one's is null.
`append` walks to the end and links a member there, `pop` unlinks the first. `Queue.Holds q l` says that the
pointers of `q` lead over the members `l`.
-/

namespace LinkedQueue

open Function

variable {β : Type*}

structure Queue (β : Type*) where
  head : Option β
  next : β → Option β

/-- The pointers lead from `x` over the members `l` to null. -/
def Chain (next : β → Option β) : Option β → List β → Prop
  | x, [] => x = none
  | x, b :: l => x = some b ∧ Chain next (next b) l

/-- The last member from `b` on, found in at most `n` steps. -/
def walk (next : β → Option β) : Nat → β → Option β
  | 0, _ => none
  | n + 1, b =>
    match next b with
    | none => some b
    | some b' => walk next n b'

namespace Queue

def Holds (q : Queue β) (l : List β) : Prop := Chain q.next q.head l

def pop (q : Queue β) (b : β) : Queue β := { q with head := q.next b }

variable [DecidableEq β]

/-- Links `b` behind the last member; `none` is a walk that has not ended after `n` steps. -/
def append (n : Nat) (q : Queue β) (b : β) : Option (Queue β) :=
  let next := update q.next b none
  match q.head with
  | none => some ⟨some b, next⟩
  | some first => (walk next n first).map fun last => ⟨some first, update next last (some b)⟩

end Queue

section Lemmas

variable {next : β → Option β} {x : Option β} {b : β} {l : List β}

theorem Chain.congr {next' : β → Option β} (h : Chain next x l) (heq : ∀ b ∈ l, next' b = next b) :
    Chain next' x l := by
  induction l generalizing x with
  | nil => exact h
  | cons b l ih =>
    refine ⟨h.1, ?_⟩
    rw [heq b List.mem_cons_self]
    exact ih h.2 fun b' hb' => heq b' (List.mem_cons_of_mem _ hb')

theorem walk_of_chain {first : β} (h : Chain next (some first) (first :: l)) {n : Nat} (hn : l.length < n) :
    walk next n first = some ((first :: l).getLast (List.cons_ne_nil _ _)) := by
  induction l generalizing first n with
  | nil =>
    obtain ⟨n, rfl⟩ := Nat.exists_eq_succ_of_ne_zero (Nat.ne_of_gt hn)
    have hend : next first = none := h.2
    rw [walk, hend]
    rfl
  | cons b l ih =>
    obtain ⟨n, rfl⟩ := Nat.exists_eq_succ_of_ne_zero (Nat.ne_of_gt (Nat.zero_lt_of_lt hn))
    have hnext : next first = some b := h.2.1
    rw [walk, hnext]
    rw [List.length_cons] at hn
    exact ih ⟨rfl, h.2.2⟩ (Nat.lt_of_succ_lt_succ hn)

theorem Chain.snoc [DecidableEq β] (h : Chain next x l) (hl : l ≠ []) (hnd : (l ++ [b]).Nodup) (hb : next b = none) :
    Chain (update next (l.getLast hl) (some b)) x (l ++ [b]) := by
  induction l generalizing x with
  | nil => exact absurd rfl hl
  | cons c l ih =>
    refine ⟨h.1, ?_⟩
    rcases eq_or_ne l [] with rfl | hne
    · have hcb : b ≠ c := by
        rintro rfl
        exact absurd hnd (by simp)
      rw [List.getLast_singleton, update_self]
      exact ⟨rfl, by rw [update_of_ne hcb]; exact hb⟩
    · have hlast : c ≠ l.getLast hne := by
        rintro heq
        have hmem : c ∈ l := heq ▸ List.getLast_mem hne
        exact (List.nodup_cons.1 hnd).1 (List.mem_append_left _ hmem)
      rw [List.getLast_cons hne, update_of_ne hlast]
      exact ih h.2 hne (List.nodup_cons.1 hnd).2

namespace Queue

variable {q : Queue β}

theorem Holds.head (h : q.Holds l) : q.head = l.head? := by
  cases l with
  | nil => exact h
  | cons b l => exact h.1

theorem Holds.pop (h : q.Holds (b :: l)) : (q.pop b).Holds l := h.2

theorem Holds.append [DecidableEq β] (h : q.Holds l) (hnd : (l ++ [b]).Nodup) {n : Nat} (hn : l.length ≤ n) :
    ∃ q', q.append n b = some q' ∧ q'.Holds (l ++ [b]) ∧ q'.head = (l ++ [b]).head? := by
  have hb : b ∉ l := fun hb => List.disjoint_of_nodup_append hnd hb (List.mem_singleton_self b)
  have hchain : Chain (update q.next b none) q.head l := h.congr fun b' hb' => update_of_ne (by
    rintro rfl
    exact hb hb') _ _
  cases l with
  | nil =>
    have hhead : q.head = none := h
    refine ⟨⟨some b, update q.next b none⟩, by rw [Queue.append, hhead], ⟨rfl, ?_⟩, rfl⟩
    exact update_self b none q.next
  | cons first l =>
    have hhead : q.head = some first := h.1
    rw [hhead] at hchain
    have hwalk := walk_of_chain hchain (n := n) hn
    refine ⟨_, by rw [Queue.append, hhead]; dsimp only; rw [hwalk, Option.map_some], ?_, rfl⟩
    exact hchain.snoc (List.cons_ne_nil _ _) hnd (update_self b none q.next)

end Queue

end Lemmas

end LinkedQueue
