import Xv6.BioCache
import Xv6.Lib.Recency

/-!
# The buffer cache reuses the buffer released longest ago

Only a `brelse` that leaves no reference moves a buffer, to the front of the list. So the list is in the order
of these releases, the latest first, with the buffers never released at its end, and the search of `bget` from
the other end finds the one released longest ago (`bget_reuses_oldest`). The processes of `Xv6.Bio` make such
calls (`reachable_calls`).
-/

namespace Xv6.Bio

open Function DList Recency

/-! ### Calls and releases -/

inductive Call (ι : Type)
  | bget (dev blockno : Nat)
  | brelse (b : Fin NBUF)
  | other (t : St ι) -- the rest of the state changes to what it is in `t`

variable {ι : Type}

/-- `s` with everything but the list and the identity and use of the buffers as in `t`. -/
def St.adopt (s t : St ι) : St ι :=
  { t with
    links := s.links
    buf := fun b =>
      { t.buf b with refcnt := (s.buf b).refcnt, dev := (s.buf b).dev, blockno := (s.buf b).blockno } }

/-- The parts of `bget` and `brelse` under `bcache.lock`. A buffer that is released has a reference. -/
def call (s : St ι) : Call ι → Option (St ι)
  | .bget dev blockno => (bget s dev blockno).map Prod.snd
  | .brelse b => if 0 < (s.buf b).refcnt then some (relse s b) else none
  | .other t => some (s.adopt t)

abbrev Releases : Type := List (Fin NBUF × Bool)

def record (_ : St ι) (a : Call ι) (s' : St ι) (h : Releases) : Option Releases :=
  match a with
  | .brelse b => some ((b, (s'.buf b).refcnt == 0) :: h)
  | _ => some h

def finals (h : Releases) : List (Fin NBUF) := (h.filter Prod.snd).map Prod.fst

/-- The final release of `b` came after that of `c`; in the list that `binit` makes, the last buffer is the first. -/
abbrev Later (h : Releases) : Fin NBUF → Fin NBUF → Prop := Newer (fun b c => c < b) (finals h)

/-! ### The order of the list -/

structure Ordered (x : St ι × Releases) : Prop where
  list : ∃ l, x.1.links.IsList l ∧ l.Perm (List.finRange NBUF) ∧ l.Pairwise (Later x.2)
  last : ∀ b e, (x.1.buf b).refcnt = 0 → x.2.find? (fun e => e.1 = b) = some e → e.2 = true

variable {s s' : St ι} {h : Releases} {x y : St ι × Releases} {b : Fin NBUF}

theorem binitLinks_eq : binitLinks.IsList (List.finRange NBUF).reverse := by
  have key : ∀ (todo l : List (Fin NBUF)) (t : Links (Fin NBUF)), t.IsList l → (todo ++ l).Nodup →
      (todo.foldl Links.pushFront t).IsList (todo.reverse ++ l) := by
    intro todo
    induction todo with
    | nil => exact fun l t h _ => h
    | cons b todo ih =>
      intro l t h hnd
      obtain ⟨hb, hnd⟩ := List.nodup_cons.1 hnd
      rw [List.reverse_cons, List.append_assoc]
      exact ih (b :: l) _ (h.pushFront fun hm => hb (List.mem_append_right _ hm))
        (List.perm_middle.nodup_iff.2 (List.nodup_cons.2 ⟨hb, hnd⟩))
  have h := key (List.finRange NBUF) [] ⟨fun _ => none, fun _ => none⟩ ⟨List.nodup_nil, rfl, rfl⟩
    (by simpa using List.nodup_finRange NBUF)
  rwa [List.append_nil] at h

theorem ordered_init (d : Nat → Block) : Ordered ((init d : St ι), []) := by
  refine ⟨⟨_, binitLinks_eq, List.reverse_perm _, ?_⟩, nofun⟩
  rw [List.pairwise_reverse]
  exact (List.pairwise_lt_finRange NBUF).imp fun hlt => .inr ⟨List.not_mem_nil, List.not_mem_nil, hlt⟩

theorem bget_refcnt {dev n : Nat} (hs : bget s dev n = some (b, s')) : s'.links = s.links ∧
    (s'.buf b).refcnt ≠ 0 ∧ ∀ c, c ≠ b → (s'.buf c).refcnt = (s.buf c).refcnt := by
  unfold bget at hs
  split at hs
  · cases hs
  · cases hs
  all_goals
    cases hs
    refine ⟨rfl, ?_, fun c hc => ?_⟩
    · simp [St.setBuf]
    · simp [St.setBuf, hc]

theorem Ordered.bget {dev n : Nat} (h : Ordered x) (hs : bget x.1 dev n = some (b, s')) : Ordered (s', x.2) := by
  obtain ⟨hlinks, hpos, hsame⟩ := bget_refcnt hs
  refine ⟨by rw [hlinks]; exact h.list, fun c e hc => ?_⟩
  have hne : c ≠ b := fun hcb => hpos (hcb ▸ hc)
  exact h.last c e ((hsame c hne).symm.trans hc)

theorem finals_cons (b : Fin NBUF) (final : Bool) (h : Releases) :
    finals ((b, final) :: h) = if final then b :: finals h else finals h := by
  cases final <;> rfl

theorem Ordered.relse (h : Ordered x) (b : Fin NBUF) :
    Ordered (relse x.1 b, (b, ((relse x.1 b).buf b).refcnt == 0) :: x.2) := by
  obtain ⟨l, hl, hperm, hpair⟩ := h.list
  have hcnt : ((Bio.relse x.1 b).buf b).refcnt = (x.1.buf b).refcnt - 1 := by rw [relse_eq]; simp
  rw [hcnt]
  refine ⟨?_, fun c e hc hfind => ?_⟩
  · rw [relse_eq]
    simp only [Later, finals_cons]
    split
    · rename_i hzero
      obtain ⟨l1, l2, rfl⟩ := List.append_of_mem (hperm.mem_iff.2 (List.mem_finRange b))
      rw [if_pos (beq_iff_eq.2 hzero)]
      exact ⟨b :: (l1 ++ l2), hl.unlink.pushFront (List.nodup_middle.1 hl.1).notMem,
        List.perm_middle.symm.trans hperm, pairwise_moveFront hl.1 hpair⟩
    · rename_i hpos
      rw [if_neg (by simpa using hpos)]
      exact ⟨l, hl, hperm, hpair⟩
  · by_cases hcb : c = b
    · subst hcb
      rw [List.find?_cons_of_pos (by simp)] at hfind
      cases hfind
      rw [hcnt] at hc
      exact beq_iff_eq.2 hc
    · rw [List.find?_cons_of_neg (by simpa using Ne.symm hcb)] at hfind
      refine h.last c e ?_ hfind
      rw [relse_eq] at hc
      simpa [hcb] using hc

theorem Ordered.call {a : Call ι} (h : Ordered x) (hs : Machine.along call record x a = some y) : Ordered y := by
  obtain ⟨hcall, hrec⟩ := Machine.along_eq hs
  obtain ⟨s', h'⟩ := y
  dsimp only at hcall hrec
  cases a with
  | bget dev n =>
    obtain ⟨⟨b, _⟩, hget, rfl⟩ := Option.map_eq_some_iff.1 hcall
    obtain rfl := Option.some.inj hrec
    exact h.bget hget
  | brelse b =>
    rw [Bio.call] at hcall
    split at hcall
    · obtain rfl := Option.some.inj hcall
      obtain rfl := Option.some.inj hrec
      exact h.relse b
    · cases hcall
  | other t =>
    obtain rfl := Option.some.inj hcall
    obtain rfl := Option.some.inj hrec
    exact ⟨h.list, h.last⟩

/-! ### Reuse -/

theorem bget_miss {l : List (Fin NBUF)} {dev n : Nat} (hl : s.links.IsList l) (hperm : l.Perm (List.finRange NBUF))
    (hmiss : ∀ c, (s.buf c).dev = dev → (s.buf c).blockno ≠ n) : (bget s dev n).map Prod.fst =
      l.reverse.find? fun b => (s.buf b).refcnt == 0 && !(s.buf b).dirty := by
  have hlen : l.length ≤ NBUF := by rw [hperm.length_eq, List.length_finRange]
  have hnone : l.find? (fun b => (s.buf b).dev == dev && (s.buf b).blockno == n) = none := by
    rw [List.find?_eq_none]
    intro b _ hb
    rw [Bool.and_eq_true, beq_iff_eq, beq_iff_eq] at hb
    exact hmiss b hb.1 hb.2
  have hscan : bgetScan s dev n = match l.reverse.find? fun b => (s.buf b).refcnt == 0 && !(s.buf b).dirty with
      | none => .panic
      | some b => .recycled b := by
    unfold bgetScan
    rw [scan_of_follow _ (hl.follow_next hlen), scan_of_follow _ (hl.follow_prev hlen), hnone]
    rcases l.reverse.find? fun b => (s.buf b).refcnt == 0 && !(s.buf b).dirty with _ | b <;> rfl
  unfold bget
  rw [hscan]
  rcases l.reverse.find? fun b => (s.buf b).refcnt == 0 && !(s.buf b).dirty with _ | b <;> rfl

/-- In every state that calls of `bget` and `brelse` lead to: the list has the buffers that are not in use in the order
of their final releases, the latest first, and the last release of such a buffer was final; and a `bget` of a block
that is not cached takes, of the buffers neither in use nor dirty, the one released longest ago. -/
theorem bget_reuses_oldest {d : Nat → Block} (hs : Machine.Reachable (Machine.along call record) (init d, []) (s, h)) :
    (∃ l, follow s.links.next NBUF (s.links.next none) = some l ∧ l.Perm (List.finRange NBUF) ∧
      (l.filter fun b => (s.buf b).refcnt = 0).Pairwise (Later h)) ∧
    (∀ b e, (s.buf b).refcnt = 0 → h.find? (fun e => e.1 = b) = some e → e.2 = true) ∧
    ∀ dev n, (∀ c, (s.buf c).dev = dev → (s.buf c).blockno ≠ n) →
      (∀ c, (s.buf c).refcnt = 0 → (s.buf c).dirty = false → (bget s dev n).isSome = true) ∧
      ∀ b s', bget s dev n = some (b, s') → ((s.buf b).refcnt = 0 ∧ (s.buf b).dirty = false) ∧
        ∀ c, c ≠ b → (s.buf c).refcnt = 0 → (s.buf c).dirty = false → Later h c b := by
  have hord : Ordered (s, h) := hs.inv (ordered_init d) fun _ _ _ hi _ hstep => hi.call hstep
  obtain ⟨l, hl, hperm, hpair⟩ := hord.list
  have hlen : l.length ≤ NBUF := by rw [hperm.length_eq, List.length_finRange]
  have hall : ∀ b, b ∈ l := fun b => hperm.mem_iff.2 (List.mem_finRange b)
  refine ⟨⟨l, hl.follow_next hlen, hperm, hpair.sublist List.filter_sublist⟩, hord.last, fun dev n hmiss => ⟨?_, ?_⟩⟩
  · intro c hc hd
    have hfound := bget_miss hl hperm hmiss
    rcases hget : bget s dev n with _ | _
    · rw [hget, Option.map_none, eq_comm, List.find?_eq_none] at hfound
      exact absurd (by simp [hc, hd]) (hfound c (List.mem_reverse.2 (hall c)))
    · rfl
  · intro b s' hget
    have hfound := bget_miss hl hperm hmiss
    rw [hget, Option.map_some, eq_comm] at hfound
    refine ⟨by simpa using List.find?_some hfound, fun c hne hc hd => ?_⟩
    exact newer_of_find?_reverse hpair hfound (hall c) (by simp [hc, hd]) hne

/-- Buffers 0 and 1 are used and released; the next block goes to buffer 2. -/
theorem bget_reuses_oldest_two : ∃ (s : St Unit) (h : Releases) (s' : St Unit),
    Machine.run (Machine.along call record) (init fun _ => Bytes.zero _, [])
      [.bget 1 5, .bget 1 6, .brelse 1, .brelse 0] = some (s, h) ∧
    bget s 1 7 = some (2, s') ∧ Later h 0 2 := by
  have hrun : (Machine.run (Machine.along call record) ((init fun _ => Bytes.zero _ : St Unit), [])
      [.bget 1 5, .bget 1 6, .brelse 1, .brelse 0]).any (fun x => (bget x.1 1 7).any (fun r => r.1 == 2) &&
        decide (∀ c, (x.1.buf c).dev = 1 → (x.1.buf c).blockno ≠ 7) && (x.1.buf 0).refcnt == 0 &&
        !(x.1.buf 0).dirty) = true := by decide +kernel
  obtain ⟨⟨s, h⟩, hs, hprop⟩ := (Option.any_eq_true _ _).1 hrun
  simp only [Bool.and_eq_true, decide_eq_true_eq, beq_iff_eq, Bool.not_eq_true'] at hprop
  obtain ⟨⟨⟨hany, hmiss⟩, hcnt⟩, hclean⟩ := hprop
  obtain ⟨⟨b, s'⟩, hget, hb⟩ := (Option.any_eq_true _ _).1 hany
  obtain rfl : b = 2 := by simpa using hb
  have hthm := bget_reuses_oldest (.of_run hs)
  exact ⟨s, h, s', hs, hget, ((hthm.2.2 1 7 hmiss).2 2 s' hget).2 0 (by decide) hcnt hclean⟩

/-! ### The cache with its processes -/

structure SameUse (s t : St ι) : Prop where
  links : t.links = s.links
  refcnt : ∀ b, (t.buf b).refcnt = (s.buf b).refcnt
  dev : ∀ b, (t.buf b).dev = (s.buf b).dev
  blockno : ∀ b, (t.buf b).blockno = (s.buf b).blockno

theorem SameUse.call {t : St ι} (h : SameUse s t) : Machine.Reachable call s t := by
  refine Machine.Reach.refl.tail (a := .other t) trivial ?_
  have hbuf : (s.adopt t).buf = t.buf := funext fun b => by
    simp only [St.adopt, ← h.refcnt b, ← h.dev b, ← h.blockno b]
  show some (s.adopt t) = some t
  rw [Option.some.injEq]
  calc s.adopt t = { t with links := s.links, buf := (s.adopt t).buf } := rfl
    _ = t := by rw [hbuf, ← h.links]

theorem SameUse.setBuf {v : Buf ι} {t : St ι} (hbuf : t.buf = update s.buf b v) (hlinks : t.links = s.links)
    (h₁ : v.refcnt = (s.buf b).refcnt) (h₂ : v.dev = (s.buf b).dev) (h₃ : v.blockno = (s.buf b).blockno) :
    SameUse s t := by
  refine ⟨hlinks, fun c => ?_, fun c => ?_, fun c => ?_⟩ <;> rw [hbuf] <;> by_cases hc : c = b
  all_goals
    first
    | subst hc; rwa [update_self]
    | rw [update_of_ne hc]

theorem iderw_sameUse (s : St ι) (b : Fin NBUF) : SameUse s (iderw s b) := by
  unfold iderw
  dsimp only
  split <;> exact SameUse.setBuf (b := b) rfl rfl rfl rfl rfl

variable [DecidableEq ι]

theorem SameUse.setPc {t : St ι} (h : SameUse s t) (p : ι) (x : Pc) : SameUse s (t.setPc p x) :=
  ⟨h.links, h.refcnt, h.dev, h.blockno⟩

theorem step_calls [Fintype ι] {d : Nat → Block} {a : Act ι} (hi : Inv d s) (hs : step s a = some s') :
    Machine.Reachable call s s' := by
  cases a with
  | bread p n =>
    rw [step] at hs
    split at hs
    · obtain ⟨⟨b, s1⟩, hget, rfl⟩ := Option.map_eq_some_iff.1 hs
      have hcall : call s (.bget ROOTDEV n) = some s1 := by rw [call, hget]; rfl
      have hsame : SameUse s1 (s1.setPc p (.getting b n)) := ⟨rfl, fun _ => rfl, fun _ => rfl, fun _ => rfl⟩
      exact (Machine.Reach.refl.tail trivial hcall).trans hsame.call
    · cases hs
  | run p =>
    obtain ⟨⟨r, _⟩, hrun, rfl⟩ := Option.map_eq_some_iff.1 hs
    unfold run at hrun
    split at hrun
    · cases hrun
    · split at hrun
      · cases hrun
      · rename_i b n hpc _ hlock
        cases hrun
        exact SameUse.call (SameUse.setBuf (b := b) rfl rfl rfl rfl rfl)
    · split at hrun
      all_goals
        cases hrun
        exact SameUse.call ⟨rfl, fun _ => rfl, fun _ => rfl, fun _ => rfl⟩
    · rename_i b n hpc
      cases hrun
      exact SameUse.call ((iderw_sameUse s b).setPc _ _)
    · rename_i b hpc
      cases hrun
      have hsame := iderw_sameUse s b
      exact SameUse.call ⟨hsame.links, hsame.refcnt, hsame.dev, hsame.blockno⟩
    · rename_i b hpc
      cases hrun
      have hcall : call s (.brelse b) = some (relse s b) := if_pos (hi.refcnt_pos hpc)
      have hsame : SameUse (relse s b) ((relse s b).setPc p .idle) := ⟨rfl, fun _ => rfl, fun _ => rfl, fun _ => rfl⟩
      exact (Machine.Reach.refl.tail trivial hcall).trans hsame.call
  | modify p b v | logWrite p b | bwrite p b | brelse p b =>
    rw [step] at hs
    split at hs
    · cases hs
      exact SameUse.call (SameUse.setBuf (b := b) rfl rfl rfl rfl rfl)
    · cases hs

omit [DecidableEq ι] in
theorem reach_record (hs : Machine.Reachable call s s') (h : Releases) :
    ∃ h', Machine.Reachable (Machine.along call record) (s, h) (s', h') := by
  induction hs with
  | refl => exact ⟨h, .refl⟩
  | @tail s1 s2 a _ _ hcall ih =>
    obtain ⟨h1, hreach⟩ := ih
    obtain ⟨h2, hrec⟩ : ∃ h2, record s1 a s2 h1 = some h2 := by
      cases a <;> exact ⟨_, rfl⟩
    have hstep : Machine.along call record (s1, h1) a = some (s2, h2) := by
      rw [Machine.along, hcall, Option.bind_some, hrec]
      rfl
    exact ⟨h2, hreach.tail trivial hstep⟩

/-- Every state of the cache with its processes is one that calls lead to. -/
theorem reachable_calls [Fintype ι] {d : Nat → Block} (hs : Machine.Reachable step (init d) s) :
    ∃ h, Machine.Reachable (Machine.along call record) (init d, []) (s, h) := by
  have hcalls : Inv d s ∧ Machine.Reachable call (init d) s := by
    induction hs with
    | refl => exact ⟨reachable_inv .refl, .refl⟩
    | tail _ _ hstep ih => exact ⟨ih.1.step hstep, ih.2.trans (step_calls ih.1 hstep)⟩
  exact reach_record hcalls.2 []

theorem reachable_calls_readModifyRead : ∃ s h, Machine.run step (init fun _ => Bytes.zero _) readModifyRead = some s ∧
    Machine.Reachable (Machine.along call record) (init fun _ => Bytes.zero _, []) (s, h) := by
  obtain ⟨s, hs⟩ : ∃ s, Machine.run step (init fun _ => Bytes.zero _) readModifyRead = some s := ⟨_, rfl⟩
  obtain ⟨h, hcalls⟩ := reachable_calls (.of_run hs)
  exact ⟨s, h, hs, hcalls⟩

end Xv6.Bio
