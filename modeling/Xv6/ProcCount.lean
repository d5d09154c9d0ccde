import Xv6.ProcMem
import Xv6.KernelMap

/-!
# Calls move pages between owners

`St.owned f` counts the owners of the page `f`: page directories with their page tables and user
pages, kernel stacks and pipes. Each call only moves pages between the free list and these owners
(`Shifts`), and a call that fails leaves the owners as they were; only `sbrk` may keep page tables.
-/

namespace Xv6.ProcMem

open Vm Function Tally Exec

variable {L : Layout} {s s' : St} {p np : Fin NPROC} {f : Nat}

/-! ### Owners -/

/-- Before `fork` is done with it, a process has only its stack. -/
def procCount (f : Nat) (q : Proc) : Nat :=
  match q.state with
  | .UNUSED => 0
  | .EMBRYO => held f q.kstack
  | .SLEEPING | .RUNNABLE | .RUNNING | .ZOMBIE => held f q.kstack + pgdirCount f q.pgdir

def pipeCount (e : Option PipeEnds) : Nat := if e.isSome then 1 else 0

@[irreducible] def St.owned (s : St) (f : Nat) : Nat :=
  pgdirCount f s.kpgdir + s.cpuStacks.count f + tally (procCount f) s.procs + pipeCount (s.pipes f)

theorem St.owned_kmem (s : St) (k : Kmem) (f : Nat) : ({ s with kmem := k } : St).owned f = s.owned f := by
  rw [St.owned, St.owned]

theorem St.owned_update (s s' : St) (p : Fin NPROC) {q : Proc} (h₁ : s'.kpgdir = s.kpgdir) (h₂ : s'.cpuStacks = s.cpuStacks)
    (h₃ : s'.procs = update s.procs p q) (h₄ : s'.pipes = s.pipes) (f : Nat) :
    s'.owned f + procCount f (s.procs p) = s.owned f + procCount f q := by
  have := tally_update (procCount f) s.procs p q
  rw [St.owned, St.owned, h₁, h₂, h₃, h₄]
  omega

/-- What the slots of the process table keep: an unused one has no stack, and no process reaches
into the kernel's half. -/
def ProcOk (q : Proc) : Prop := q.sz ≤ Vm.KERNBASE ∧ (q.state = .UNUSED → q.kstack = none)

/-- From `s` to `s'` the pages in the hands of the running code go from `o` to `o'`. -/
abbrev Shifts (s : St) (o : Nat → Nat) (s' : St) (o' : Nat → Nat) : Prop :=
  ∀ f, Keeps f s.kmem (s.owned f + o f) s'.kmem (s'.owned f + o' f)

namespace Shifts

variable {s₁ : St} {o o₁ o' : Nat → Nat}

theorem refl (s : St) (o : Nat → Nat) : Shifts s o s o := fun f => .refl f _ _

theorem trans (h₁ : Shifts s o s₁ o₁) (h₂ : Shifts s₁ o₁ s' o') : Shifts s o s' o' :=
  fun f => (h₁ f).trans (h₂ f)

theorem store (hk : s'.kmem = s.kmem) (h : ∀ f, s'.owned f + o' f = s.owned f + o f) : Shifts s o s' o' :=
  fun f => by rw [hk, h f]; exact .refl f _ _

theorem kmem {k : Kmem} {a a' : Nat → Nat} (r : Nat → Nat) (h : ∀ f, Keeps f s.kmem (a f) k (a' f))
    (ho : ∀ f, o f = a f + r f) (ho' : ∀ f, o' f = a' f + r f) : Shifts s o { s with kmem := k } o' := by
  intro f
  have hown := s.owned_kmem k f
  have := ho f
  have := ho' f
  exact (Keeps.refl f s.kmem _).step (h f) (s.owned f + r f) (by omega) (by omega)

end Shifts

theorem lift_ends {α : Type} {m : KM α} {Q : α → St → Prop}
    (h : Ends m s.kmem fun a k => Q a { s with kmem := k }) : Ends (lift m) s Q := by
  intro a s' hs
  obtain ⟨h1, rfl⟩ := Prod.mk.inj hs
  exact h a _ (Prod.ext h1 rfl)

theorem lift_bind {α β : Type} {m : KM α} {P : α → Kmem → Prop} {g : α → PM β} {Q : β → St → Prop}
    (h : Ends m s.kmem P) (hg : ∀ a k, P a k → Ends (g a) { s with kmem := k } Q) : Ends (lift m >>= g) s Q :=
  .bind (lift_ends (Q := fun a s₁ => ∃ k, P a k ∧ s₁ = { s with kmem := k }) (h.mono fun _ k hk => ⟨k, hk, rfl⟩))
    fun a _ ⟨k, hk, he⟩ => he ▸ hg a k hk

/-! ### Changes of one slot -/

def St.set (s : St) (p : Fin NPROC) (g : Proc → Proc) : St :=
  { s with procs := update s.procs p (g (s.procs p)) }

theorem setProc_ends {g : Proc → Proc} {Q : Unit → St → Prop} (h : Q () (s.set p g)) :
    Ends (setProc p g) s Q := Ends.modify h

theorem setProc_bind {β : Type} {g : Proc → Proc} {h : Unit → PM β} {Q : β → St → Prop}
    (hh : Ends (h ()) (s.set p g) Q) : Ends (setProc p g >>= h) s Q := hh

theorem St.owned_set (s : St) (p : Fin NPROC) (g : Proc → Proc) (f : Nat) :
    (s.set p g).owned f + procCount f (s.procs p) = s.owned f + procCount f (g (s.procs p)) :=
  owned_update s (s.set p g) p rfl rfl rfl rfl f

theorem St.owned_kmem_set (s : St) (k : Kmem) (p : Fin NPROC) (g : Proc → Proc) (f : Nat) :
    (St.set { s with kmem := k } p g).owned f + procCount f (s.procs p) =
      s.owned f + procCount f (g (s.procs p)) :=
  owned_update s (St.set { s with kmem := k } p g) p rfl rfl rfl rfl f

theorem Shifts.set {o o' : Nat → Nat} {g : Proc → Proc}
    (h : ∀ f, procCount f (g (s.procs p)) + o' f = procCount f (s.procs p) + o f) :
    Shifts s o (s.set p g) o' :=
  .store rfl fun f => by
    have := s.owned_set p g f
    have := h f
    omega

theorem St.procCount_le_owned (s : St) (p : Fin NPROC) (f : Nat) : procCount f (s.procs p) ≤ s.owned f := by
  have := le_tally (procCount f) s.procs p
  rw [St.owned]
  omega

theorem Shifts.kmem_set {k : Kmem} {a a' o o' : Nat → Nat} {g : Proc → Proc}
    (h : ∀ f, Keeps f s.kmem (a f) k (a' f)) (ha : ∀ f, a f ≤ procCount f (s.procs p) + o f)
    (hc : ∀ f, procCount f (g (s.procs p)) + a f + o' f = procCount f (s.procs p) + a' f + o f) :
    Shifts s o (St.set { s with kmem := k } p g) o' := by
  intro f
  have h1 := s.owned_kmem_set k p g f
  have h2 := s.procCount_le_owned p f
  have h3 := ha f
  have h4 := hc f
  exact (Keeps.refl f s.kmem _).step (h f) (s.owned f + o f - a f) (by omega) (by omega)

theorem St.set_procs (s : St) (p : Fin NPROC) (g : Proc → Proc) : (s.set p g).procs p = g (s.procs p) := by
  simp [St.set]

def ProcsOk (s : St) : Prop := ∀ p, ProcOk (s.procs p)

theorem ProcsOk.set {g : Proc → Proc} (h : ProcsOk s) (hg : ProcOk (s.procs p) → ProcOk (g (s.procs p))) :
    ProcsOk (s.set p g) := by
  intro q
  rcases eq_or_ne q p with rfl | hne
  · rw [St.set_procs]
    exact hg (h q)
  · simp only [St.set, update_of_ne hne]
    exact h q

/-! ### Processes -/

theorem allocStackFor_ends (hs : ProcsOk s) (hp : (s.procs p).state = .EMBRYO) (hk : (s.procs p).kstack = none) :
    Ends (allocStackFor p) s fun r s' =>
      Shifts s (fun _ => 0) s' (fun _ => 0) ∧ ProcsOk s' ∧
        (r = none → ∀ f, s'.owned f = s.owned f) ∧
        ∀ np, r = some np → (s'.procs np).state = .EMBRYO ∧
          ∀ f, s'.owned f = s.owned f + held f (s'.procs np).kstack := by
  have hzero : ∀ f, procCount f (s.procs p) = 0 := fun f => by rw [procCount, hp]; simp only [hk, held]
  unfold allocStackFor
  refine lift_bind (kalloc_ends _) fun r k hkeeps => ?_
  have htake : Shifts s (fun _ => 0) { s with kmem := k } (held · r) :=
    .kmem (fun _ => 0) hkeeps (fun _ => rfl) fun _ => rfl
  have hok : ProcsOk { s with kmem := k } := hs
  rcases r with _ | page
  · refine setProc_bind (.pure ⟨htake.trans (.set fun f => ?_), hok.set ?_, fun _ f => ?_, fun _ hr => by cases hr⟩)
    · exact congrArg (· + 0) (hzero f).symm
    · exact fun h => ⟨h.1, fun _ => rfl⟩
    · have h1 := s.owned_kmem_set k p (fun q => { q with kstack := none, state := .UNUSED }) f
      rwa [hzero f] at h1
  · have hcount : ∀ f, procCount f { s.procs p with kstack := some page } = is f page := fun f => by
      simp only [procCount, hp, held]
    refine setProc_bind (.pure ⟨htake.trans (.set fun f => ?_), hok.set ?_, (fun hr => by cases hr), ?_⟩)
    · show procCount f { s.procs p with kstack := some page } + 0 = procCount f (s.procs p) + is f page
      rw [hcount f, hzero f, Nat.zero_add, Nat.add_zero]
    · exact fun h => ⟨h.1, fun h' => by cases hp.symm.trans h'⟩
    · rintro _ ⟨⟩
      rw [St.set_procs]
      refine ⟨hp, fun f => ?_⟩
      have h1 := s.owned_kmem_set k p (fun q => { q with kstack := some page }) f
      rwa [hzero f, hcount f] at h1

theorem allocproc_ends (hs : ProcsOk s) : Ends allocproc s fun r s' =>
    Shifts s (fun _ => 0) s' (fun _ => 0) ∧ ProcsOk s' ∧
      (r = none → ∀ f, s'.owned f = s.owned f) ∧
      ∀ np, r = some np → (s'.procs np).state = .EMBRYO ∧
        ∀ f, s'.owned f = s.owned f + held f (s'.procs np).kstack := by
  unfold allocproc
  refine .get_bind ?_
  split
  · exact .pure ⟨.refl s _, hs, fun _ f => rfl, fun _ hr => by cases hr⟩
  rename_i np hfind
  have hunused : (s.procs np).state = .UNUSED := by simpa using List.find?_some hfind
  have hnone : (s.procs np).kstack = none := (hs np).2 hunused
  refine .modify_bind ?_
  generalize hs1 : ({ s with
      nextpid := s.nextpid + 1
      procs := update s.procs np { s.procs np with state := .EMBRYO, pid := s.nextpid } } : St) = s₁
  have hslot : s₁.procs = update s.procs np { s.procs np with state := .EMBRYO, pid := s.nextpid } := by
    rw [← hs1]
  have hown : ∀ f, s₁.owned f = s.owned f := fun f => by
    have h := St.owned_update s s₁ np (by rw [← hs1]) (by rw [← hs1]) hslot (by rw [← hs1]) f
    simpa only [procCount, hunused, hnone, held, Nat.add_zero] using h
  have hok : ProcsOk s₁ := fun q => by
    rw [hslot]
    rcases eq_or_ne q np with rfl | hne
    · rw [update_self]
      exact ⟨(hs q).1, fun hu => by cases hu⟩
    · rw [update_of_ne hne]
      exact hs q
  have hp : s₁.procs np = { s.procs np with state := .EMBRYO, pid := s.nextpid } := by rw [hslot, update_self]
  refine (allocStackFor_ends hok (by rw [hp]) (by rw [hp]; exact hnone)).mono fun r s' h => ?_
  obtain ⟨h1, h2, h3, h4⟩ := h
  refine ⟨?_, h2, fun hr f => (h3 hr f).trans (hown f), fun np hr => ?_⟩
  · exact Shifts.trans (.store (by rw [← hs1]) fun f => by rw [hown f]) h1
  · obtain ⟨h5, h6⟩ := h4 np hr
    exact ⟨h5, fun f => by rw [h6 f, hown f]⟩

theorem kfreeOpt_ends (s : St) (v : Option Nat) : Ends (kfreeOpt L v) s fun _ s' =>
    ∃ k, s' = { s with kmem := k } ∧ ∀ f, Keeps f s.kmem (held f v) k 0 := by
  rcases v with _ | v
  · exact .stop
  · exact lift_ends ((kfree_ends _ v).mono fun _ k hk => ⟨k, rfl, hk⟩)

theorem freevmOpt_ends (s : St) (pd : Option PageDir) : Ends (freevmOpt L pd) s fun _ s' =>
    ∃ k, s' = { s with kmem := k } ∧ ∀ f, Keeps f s.kmem (pgdirCount f pd) k 0 := by
  rcases pd with _ | pd
  · exact .stop
  · exact lift_ends ((freevm_meets _ pd).ends.mono fun _ k hk => ⟨k, rfl, hk⟩)

theorem procCount_embryo {q : Proc} (h : q.state = .EMBRYO) (f : Nat) : procCount f q = held f q.kstack := by
  rw [procCount, h]

/-- A call that fails leaves the slot it took empty. -/
theorem forkInto_ends (hs : ProcsOk s) (hnp : (s.procs np).state = .EMBRYO) (pd : PageDir) {sz : Nat}
    (hsz : sz ≤ Vm.KERNBASE) : Ends (forkInto L p np pd sz) s fun r s' =>
      Shifts s (fun _ => 0) s' (fun _ => 0) ∧ ProcsOk s' ∧
        (r = -1 → ∀ f, s'.owned f + held f (s.procs np).kstack = s.owned f) := by
  unfold forkInto
  refine lift_bind (copyuvm_ends _ hsz) fun r k hk => ?_
  have hcopy : Shifts s (fun _ => 0) { s with kmem := k } (pgdirCount · r) :=
    .kmem (fun _ => 0) hk (fun _ => rfl) fun _ => rfl
  have hok : ProcsOk { s with kmem := k } := hs
  rcases r with _ | d
  · refine setProc_bind (.get_bind ?_)
    have hclear : Shifts { s with kmem := k } (fun _ => 0)
        (St.set { s with kmem := k } np fun q => { q with pgdir := none }) (fun _ => 0) :=
      .set fun f => by simp only [procCount, hnp]
    generalize hs1 : St.set { s with kmem := k } np (fun q => { q with pgdir := none }) = s₁ at hclear ⊢
    have hslot : s₁.procs np = { s.procs np with pgdir := none } := by rw [← hs1, St.set_procs]
    have hok1 : ProcsOk s₁ := by rw [← hs1]; exact hok.set fun h => h
    have hown1 : ∀ f, s₁.owned f = s.owned f := fun f => by
      have h := s.owned_kmem_set k np (fun q => { q with pgdir := none }) f
      simp only [hs1, procCount, hnp] at h
      omega
    refine .bind (kfreeOpt_ends _ _) fun _ s2 ⟨k2, hs2, hk2⟩ => ?_
    subst hs2
    have hcount : ∀ f, procCount f (s₁.procs np) = held f (s₁.procs np).kstack :=
      procCount_embryo (by rw [hslot]; exact hnp)
    refine setProc_bind (.pure ⟨(hcopy.trans hclear).trans (.kmem_set hk2 (fun f => (hcount f).ge) fun f => ?_),
      ?_, fun _ f => ?_⟩)
    · rw [hcount f]
      exact Nat.zero_add _
    · exact ProcsOk.set (s := { s₁ with kmem := k2 }) hok1 fun h => ⟨h.1, fun _ => rfl⟩
    · have h := s₁.owned_kmem_set k2 np (fun q => { q with kstack := none, state := .UNUSED }) f
      rw [hcount f, hown1 f, hslot] at h
      exact h
  · refine setProc_bind (.get_bind (setProc_bind (.pure ⟨?_, ?_, fun h => ?_⟩)))
    · -- the new page directory goes into the slot, which counts it once the process is there
      have hfill : Shifts { s with kmem := k } (pgdirCount · (some d)) (St.set { s with kmem := k } np
          fun q => { q with pgdir := some d, sz := sz, parent := some p }) (pgdirCount · (some d)) :=
        .set fun f => by simp only [procCount, hnp]
      exact (hcopy.trans hfill).trans (.set fun f => by
        simp only [St.set_procs, procCount, hnp, pgdirCount, Nat.add_zero])
    · exact (hok.set fun h => ⟨hsz, h.2⟩).set fun h => ⟨h.1, nofun⟩
    · omega

theorem fork_ends (hs : ProcsOk s) : Ends (fork L p) s fun r s' =>
    Shifts s (fun _ => 0) s' (fun _ => 0) ∧ ProcsOk s' ∧ (r = -1 → ∀ f, s'.owned f = s.owned f) := by
  unfold fork
  refine .bind (allocproc_ends hs) fun r s₁ ⟨h1, hok1, hnone, hsome⟩ => ?_
  rcases r with _ | np
  · exact .pure ⟨h1, hok1, fun _ => hnone rfl⟩
  refine .get_bind ?_
  obtain ⟨hnp, hown⟩ := hsome np rfl
  split
  · exact .stop
  · rename_i pd _
    refine (forkInto_ends hok1 hnp pd (hok1 p).1).mono fun r s' ⟨h2, hok2, hback⟩ => ?_
    refine ⟨h1.trans h2, hok2, fun hr f => ?_⟩
    have h3 := hback hr f
    have h4 := hown f
    omega

theorem reap_ends {c : Fin NPROC} (hs : ProcsOk s) (hc : (s.procs c).state = .ZOMBIE) :
    Ends (reap L c) s fun _ s' => Shifts s (fun _ => 0) s' (fun _ => 0) ∧ ProcsOk s' := by
  have hcount : ∀ f, procCount f (s.procs c) = held f (s.procs c).kstack + pgdirCount f (s.procs c).pgdir :=
    fun f => by rw [procCount, hc]
  unfold reap
  refine .get_bind (.bind (kfreeOpt_ends s _) fun _ s₁ h => ?_)
  obtain ⟨k, rfl, hk⟩ := h
  have hstack : Shifts s (fun _ => 0) (St.set { s with kmem := k } c fun q => { q with kstack := none }) (fun _ => 0) :=
    .kmem_set hk (fun f => by rw [hcount f]; omega) fun f => by
      rw [hcount f]
      simp only [procCount, hc, held]
      omega
  have hok1 : ProcsOk (St.set { s with kmem := k } c fun q => { q with kstack := none }) :=
    ProcsOk.set (s := { s with kmem := k }) hs fun h => ⟨h.1, fun _ => rfl⟩
  refine setProc_bind ?_
  generalize hs2 : St.set { s with kmem := k } c (fun q => { q with kstack := none }) = s2 at hstack hok1 ⊢
  have hslot : s2.procs c = { s.procs c with kstack := none } := by rw [← hs2, St.set_procs]
  have hcount2 : ∀ f, procCount f (s2.procs c) = pgdirCount f (s.procs c).pgdir := fun f => by
    rw [hslot, procCount]
    simp only [hc, held, Nat.zero_add]
  refine .bind (freevmOpt_ends s2 _) fun _ s3 h => ?_
  obtain ⟨k3, rfl, hk3⟩ := h
  refine setProc_bind (.pure ⟨hstack.trans (.kmem_set hk3 (fun f => (hcount2 f).ge) fun f => ?_), ?_⟩)
  · rw [hcount2 f]
    exact Nat.zero_add _
  · exact ProcsOk.set (s := { s2 with kmem := k3 }) hok1 fun h => ⟨h.1, fun _ => by rw [hslot]⟩

theorem wait_ends {killed : Bool} (hs : ProcsOk s) : Ends (wait L p killed) s fun _ s' =>
    Shifts s (fun _ => 0) s' (fun _ => 0) ∧ ProcsOk s' := by
  unfold wait
  refine .get_bind ?_
  split
  · rename_i c hfind
    have hz : (s.procs c).parent = some p ∧ (s.procs c).state = .ZOMBIE := by simpa using List.find?_some hfind
    exact reap_ends hs hz.2
  · dsimp only
    split
    · exact .pure ⟨.refl s _, hs⟩
    · exact .stop

theorem procCount_live {q : Proc} (h : q.live = true) (f : Nat) :
    procCount f q = held f q.kstack + pgdirCount f q.pgdir := by
  unfold Proc.live at h
  unfold procCount
  split at h <;> simp_all

theorem procCount_pgdir {q : Proc} (h : q.live = true) (pd : PageDir) (f : Nat) :
    procCount f { q with pgdir := some pd } = held f q.kstack + pd.count f := procCount_live (by exact h) f

theorem exit_ends (hs : ProcsOk s) (hp : (s.procs p).live = true) : Ends (exit p) s fun _ s' =>
    Shifts s (fun _ => 0) s' (fun _ => 0) ∧ ProcsOk s' := by
  unfold exit
  refine .get_bind ?_
  split
  · exact .stop
  refine .modify_bind ?_
  -- handing the children to `initproc` moves no page
  generalize hs1 : ({ s with procs := fun q =>
    if (s.procs q).parent = some p then { s.procs q with parent := s.initproc } else s.procs q } : St) = s₁
  have hslot : ∀ q, s₁.procs q = s.procs q ∨ s₁.procs q = { s.procs q with parent := s.initproc } := fun q => by
    rw [← hs1]
    dsimp only
    split
    · exact .inr rfl
    · exact .inl rfl
  have hcount : ∀ f q, procCount f (s₁.procs q) = procCount f (s.procs q) := fun f q => by
    rcases hslot q with h | h <;> rw [h]
    rfl
  have hshift : Shifts s (fun _ => 0) s₁ (fun _ => 0) := .store (by rw [← hs1]) fun f => by
    rw [St.owned, St.owned, tally_congr (hcount f), ← hs1]
  have hok : ProcsOk s₁ := fun q => by
    rcases hslot q with h | h <;> rw [h] <;> exact hs q
  have hlive : (s₁.procs p).live = true := by
    rcases hslot p with h | h <;> rw [h] <;> exact hp
  refine setProc_bind (.pure ⟨hshift.trans (.set fun f => ?_), hok.set fun h => ⟨h.1, nofun⟩⟩)
  rw [procCount_live hlive, procCount]

theorem growproc_ends {pd : PageDir} {sz : Nat} {n : Int} {k : Kmem} (hsz : sz ≤ Vm.KERNBASE) :
    Ends (growproc L pd sz n) k fun r k' =>
      (∀ f, Keeps f k (pd.count f) k' (r.2.count f)) ∧ (r.1 = 0 → r.2.Below pd) ∧ r.1 ≤ Vm.KERNBASE := by
  unfold growproc
  split
  · exact (allocuvm_ends k pd _ _).mono fun r k' h => ⟨h.keeps, h.below, h.size hsz⟩
  · split
    · exact (deallocuvm_meets k pd hsz).ends.mono fun r k' h => ⟨h.2.keeps, fun _ => h.2.below, by omega⟩
    · exact .pure ⟨fun f => .refl f _ _, fun _ va _ _ => .inl rfl, hsz⟩

/-- A failing `sbrk` maps no new user page. -/
theorem sbrk_ends {n : Int} (hs : ProcsOk s) (hp : (s.procs p).live = true) : Ends (sbrk L p n) s fun r s' =>
    Shifts s (fun _ => 0) s' (fun _ => 0) ∧ ProcsOk s' ∧
      (r = -1 → ∃ pd pd', (s.procs p).pgdir = some pd ∧ (s'.procs p).pgdir = some pd' ∧ pd'.Below pd ∧
        ∀ f, s'.owned f + pd.count f = s.owned f + pd'.count f) := by
  unfold sbrk
  refine .get_bind ?_
  split
  · exact .stop
  rename_i pd hpd
  have hcount : ∀ f, procCount f (s.procs p) = held f (s.procs p).kstack + pd.count f := fun f => by
    rw [procCount_live hp, hpd]
    rfl
  refine lift_bind (growproc_ends (hs p).1) fun r k ⟨hk, hbelow, hle⟩ => ?_
  obtain ⟨sz, pd'⟩ := r
  refine setProc_bind ?_
  have hgrow : Shifts s (fun _ => 0) (St.set { s with kmem := k } p fun q => { q with pgdir := some pd' })
      (fun _ => 0) := .kmem_set hk (fun f => by rw [hcount f]; omega) fun f => by
    have h1 := hcount f
    have h2 := procCount_pgdir hp pd' f
    dsimp only
    omega
  have hok : ProcsOk (St.set { s with kmem := k } p fun q => { q with pgdir := some pd' }) :=
    ProcsOk.set (s := { s with kmem := k }) hs fun h => h
  split
  · rename_i hfail
    refine .pure ⟨hgrow, hok, fun _ => ⟨pd, pd', hpd, by rw [St.set_procs], hbelow hfail.2, fun f => ?_⟩⟩
    have h1 := s.owned_kmem_set k p (fun q => { q with pgdir := some pd' }) f
    have h2 := hcount f
    have h3 := procCount_pgdir hp pd' f
    omega
  · refine setProc_bind (.pure ⟨hgrow.trans (.set fun f => rfl), hok.set fun h => ⟨hle, h.2⟩, fun h => ?_⟩)
    omega

/-! ### `exec` -/

theorem loadSegment_ends {ph : Phdr} {sz : Nat} {pd : PageDir} {k : Kmem} (hsz : sz ≤ Vm.KERNBASE) :
    Ends (loadSegment L ph sz pd) k fun r k' =>
      (∀ f, Keeps f k (pd.count f) k' (r.2.count f)) ∧ ∀ sz', r.1 = some sz' → sz' ≤ Vm.KERNBASE := by
  have hstay : ∀ r : Option Nat, (∀ sz', r = some sz' → sz' ≤ Vm.KERNBASE) →
      (∀ f, Keeps f k (pd.count f) k ((r, pd).2.count f)) ∧ ∀ sz', (r, pd).1 = some sz' → sz' ≤ Vm.KERNBASE :=
    fun r hr => ⟨fun f => .refl f _ _, hr⟩
  unfold loadSegment
  split
  · exact .pure (hstay none nofun)
  split
  · exact .pure (hstay (some sz) fun sz' h => by cases h; exact hsz)
  split
  · exact .pure (hstay none nofun)
  split
  · exact .pure (hstay none nofun)
  refine .bind (allocuvm_ends k pd sz _) fun r k' ⟨hk, _, _, hle, _⟩ => ?_
  obtain ⟨sz1, pd1⟩ := r
  dsimp only
  split
  · exact .pure ⟨hk, nofun⟩
  split
  · exact .pure ⟨hk, nofun⟩
  split
  · exact .pure ⟨hk, nofun⟩
  · exact .pure ⟨hk, fun sz' h => by cases h; exact hle hsz⟩

theorem loadSegments_ends {phs : List Phdr} {sz : Nat} {pd : PageDir} {k : Kmem} (hsz : sz ≤ Vm.KERNBASE) :
    Ends (loadSegments L phs sz pd) k fun r k' =>
      (∀ f, Keeps f k (pd.count f) k' (r.2.count f)) ∧ ∀ sz', r.1 = some sz' → sz' ≤ Vm.KERNBASE := by
  induction phs generalizing sz pd k with
  | nil =>
    rw [loadSegments]
    exact .pure ⟨fun f => .refl f _ _, fun sz' h => by cases h; exact hsz⟩
  | cons ph phs ih =>
    rw [loadSegments]
    refine .bind (loadSegment_ends hsz) fun r k1 ⟨hk, hle⟩ => ?_
    obtain ⟨r, pd1⟩ := r
    rcases r with _ | sz1
    · exact .pure ⟨hk, nofun⟩
    · exact (ih (hle sz1 rfl)).mono fun r k' h => ⟨fun f => (hk f).trans (h.1 f), h.2⟩

theorem allocStack_ends {sz : Nat} {pd : PageDir} {k : Kmem} (hsz : sz ≤ Vm.KERNBASE) :
    Ends (allocStack L sz pd) k fun r k' =>
      (∀ f, Keeps f k (pd.count f) k' (r.2.count f)) ∧ ∀ sz', r.1 = some sz' → sz' ≤ Vm.KERNBASE := by
  unfold allocStack
  refine .bind (allocuvm_ends k pd _ _) fun r k1 ⟨hk, _, _, hle, _⟩ => ?_
  obtain ⟨sz1, pd1⟩ := r
  dsimp only
  split
  · exact .pure ⟨hk, nofun⟩
  · refine .bind (clearpteu_ends k1 pd1 _) fun pd2 k2 hk2 => .pure ⟨fun f => (hk f).trans (hk2.1 f), fun sz' h => ?_⟩
    cases h
    exact hle (pgRoundUp_eq sz hsz).2.1

def imageCount (f : Nat) : Option (Nat × PageDir) → Nat
  | none => 0
  | some (_, pd) => pd.count f

theorem buildImage_ends (x : Image) (k : Kmem) : Ends (buildImage L x) k fun r k' =>
    (∀ f, Keeps f k 0 k' (imageCount f r)) ∧ ∀ sz pd, r = some (sz, pd) → sz ≤ Vm.KERNBASE := by
  have hfree : ∀ (k1 : Kmem) (pd : PageDir), (∀ f, Keeps f k 0 k1 (pd.count f)) →
      Ends (freevm L pd >>= fun _ => pure none) k1 fun (r : Option (Nat × PageDir)) k' =>
        (∀ f, Keeps f k 0 k' (imageCount f r)) ∧ ∀ sz pd, r = some (sz, pd) → sz ≤ Vm.KERNBASE :=
    fun _ _ hk => .bind (freevm_meets _ _).ends fun _ k' h => .pure ⟨fun f => (hk f).trans (h f), nofun⟩
  unfold buildImage
  split
  · exact .pure ⟨fun f => .refl f _ _, nofun⟩
  refine .bind (setupkvm_ends k) fun r k1 hk1 => ?_
  rcases r with _ | pd
  · exact .pure ⟨hk1, nofun⟩
  refine .bind (loadSegments_ends (Nat.zero_le _)) fun r k2 ⟨hk2, hle2⟩ => ?_
  obtain ⟨r, pd2⟩ := r
  have hload : ∀ f, Keeps f k 0 k2 (pd2.count f) := fun f => (hk1 f).trans (hk2 f)
  rcases r with _ | sz
  · exact hfree k2 pd2 hload
  refine .bind (allocStack_ends (hle2 sz rfl)) fun r k3 ⟨hk3, hle3⟩ => ?_
  obtain ⟨r, pd3⟩ := r
  have hstack : ∀ f, Keeps f k 0 k3 (pd3.count f) := fun f => (hload f).trans (hk3 f)
  rcases r with _ | sz
  · exact hfree k3 pd3 hstack
  dsimp only
  split
  · refine .pure ⟨hstack, fun sz' pd' h => ?_⟩
    cases h
    exact hle3 sz rfl
  · exact hfree k3 pd3 hstack

theorem exec_ends {x : Image} (hs : ProcsOk s) (hp : (s.procs p).live = true) : Ends (exec L p x) s fun r s' =>
    Shifts s (fun _ => 0) s' (fun _ => 0) ∧ ProcsOk s' ∧ (r = -1 → ∀ f, s'.owned f = s.owned f) := by
  unfold exec
  refine lift_bind (buildImage_ends x _) fun r k ⟨hk, hle⟩ => ?_
  have hbuild : Shifts s (fun _ => 0) { s with kmem := k } (fun f => imageCount f r) :=
    .kmem (fun _ => 0) hk (fun _ => rfl) fun _ => rfl
  rcases r with _ | ⟨sz, pd⟩
  · exact .pure ⟨hbuild, hs, fun _ f => s.owned_kmem k f⟩
  refine .get_bind (setProc_bind ?_)
  -- the old image is now in hand, and freed
  have hswap : Shifts { s with kmem := k } (fun f => pd.count f)
      (St.set { s with kmem := k } p fun q => { q with pgdir := some pd, sz := sz })
      (fun f => pgdirCount f (s.procs p).pgdir) := .set fun f => by
    have h1 := procCount_live hp f
    have h2 : procCount f { s.procs p with pgdir := some pd, sz := sz } = held f (s.procs p).kstack + pd.count f :=
      procCount_live (by exact hp) f
    exact (congrArg (· + _) h2).trans (by rw [h1]; omega)
  have hok : ProcsOk (St.set { s with kmem := k } p fun q => { q with pgdir := some pd, sz := sz }) :=
    ProcsOk.set (s := { s with kmem := k }) hs fun h => ⟨hle sz pd rfl, h.2⟩
  generalize St.set { s with kmem := k } p (fun q => { q with pgdir := some pd, sz := sz }) = s₁ at hswap hok ⊢
  refine .bind (freevmOpt_ends s₁ _) fun _ s2 ⟨k2, hs2, hk2⟩ => ?_
  subst hs2
  refine .pure ⟨(hbuild.trans hswap).trans (.kmem (fun _ => 0) hk2 (fun _ => rfl) fun _ => rfl), hok, nofun⟩

/-! ### Pipes -/

theorem St.owned_pipe (s s' : St) {page : Nat} {e : Option PipeEnds} (h₁ : s'.kpgdir = s.kpgdir)
    (h₂ : s'.cpuStacks = s.cpuStacks) (h₃ : s'.procs = s.procs) (h₄ : s'.pipes = update s.pipes page e) (f : Nat) :
    s'.owned f + is f page * pipeCount (s.pipes page) = s.owned f + is f page * pipeCount e := by
  rw [St.owned, St.owned, h₁, h₂, h₃, h₄, is]
  rcases eq_or_ne page f with rfl | hne
  · rw [update_self, if_pos rfl]
    omega
  · rw [update_of_ne hne.symm, if_neg hne]
    omega

def PipeEnds.closed (e : PipeEnds) (writable : Bool) : Option PipeEnds :=
  let e := if writable then { e with writeopen := false } else { e with readopen := false }
  if e.readopen = false ∧ e.writeopen = false then none else some e

theorem pipeclose_ends {page : Nat} {e e₀ : PipeEnds} {writable : Bool} (he : s.pipes page = some e₀) :
    Ends (pipeclose L page e writable) s fun _ s' => Shifts s (fun _ => 0) s' (fun _ => 0) ∧
      s'.procs = s.procs ∧ s'.kpgdir = s.kpgdir ∧ s'.cpuStacks = s.cpuStacks ∧
        s'.pipes = update s.pipes page (e.closed writable) := by
  unfold pipeclose PipeEnds.closed
  generalize (if writable then { e with writeopen := false } else { e with readopen := false } : PipeEnds) = e'
  dsimp only
  split
  · refine .modify_bind (lift_ends ((kfree_ends _ page).mono ?_))
    intro _ k hk
    refine ⟨?_, rfl, rfl, rfl, rfl⟩
    have hout : Shifts s (fun _ => 0) { s with pipes := update s.pipes page none } (is · page) :=
      .store rfl fun f => by
        have := St.owned_pipe s { s with pipes := update s.pipes page none } rfl rfl rfl rfl f
        simp only [he, pipeCount, Option.isSome, if_true, Bool.false_eq_true, if_false] at this
        omega
    exact hout.trans (.kmem (fun _ => 0) hk (fun _ => rfl) fun _ => rfl)
  · refine .modify ⟨.store rfl fun f => ?_, rfl, rfl, rfl, rfl⟩
    have := St.owned_pipe s { s with pipes := update s.pipes page (some e') } rfl rfl rfl rfl f
    simp only [he, pipeCount, Option.isSome, if_true] at this
    omega

theorem close_ends {page : Nat} {writable : Bool} (hs : ProcsOk s) : Ends (close L page writable) s fun _ s' =>
    Shifts s (fun _ => 0) s' (fun _ => 0) ∧ ProcsOk s' := by
  unfold close
  refine .get_bind ?_
  split
  · exact .stop
  · rename_i e he
    refine .bind (pipeclose_ends he) fun _ s' h => .pure ⟨h.1, fun q => ?_⟩
    rw [h.2.1]
    exact hs q

/-- A pipe lives in a page that was free, so that it replaces no other pipe. -/
theorem pipe_ends {argOk filesOk fdsOk : Bool} (hs : ProcsOk s) (hfree : ∀ f, 0 < s.kmem.count f → s.pipes f = none) :
    Ends (pipe L argOk filesOk fdsOk) s fun r s' => Shifts s (fun _ => 0) s' (fun _ => 0) ∧ ProcsOk s' ∧
      (r = -1 → ∀ f, s'.owned f = s.owned f) := by
  unfold pipe
  split
  · exact .pure ⟨.refl s _, hs, fun _ f => rfl⟩
  refine lift_bind (kalloc_ends _) fun r k hk => ?_
  have htake : Shifts s (fun _ => 0) { s with kmem := k } (held · r) :=
    .kmem (fun _ => 0) hk (fun _ => rfl) fun _ => rfl
  rcases r with _ | page
  · exact .pure ⟨htake, hs, fun _ f => s.owned_kmem k f⟩
  have hnone : s.pipes page = none := hfree page (by
    have := (hk page).1
    simp only [held, is, if_true] at this
    omega)
  refine .modify_bind ?_
  have hown := St.owned_pipe s { s with kmem := k, pipes := update s.pipes page (some ⟨true, true⟩) } rfl rfl rfl rfl
  have hmake : Shifts { s with kmem := k } (held · (some page))
      { s with kmem := k, pipes := update s.pipes page (some ⟨true, true⟩) } (fun _ => 0) := .store rfl fun f => by
    have h1 := hown f
    have h2 := s.owned_kmem k f
    simp only [hnone, pipeCount, Option.isSome, if_true, Bool.false_eq_true, if_false, held] at h1 ⊢
    omega
  generalize hs1 : ({ s with kmem := k, pipes := update s.pipes page (some ⟨true, true⟩) } : St) = s₁ at hmake ⊢
  have hok1 : ProcsOk s₁ := by rw [← hs1]; exact hs
  split
  · exact .pure ⟨htake.trans hmake, hok1, fun hr => absurd hr (by decide)⟩
  have hpipe1 : s₁.pipes = update s.pipes page (some ⟨true, true⟩) := by rw [← hs1]
  refine .bind (pipeclose_ends (show s₁.pipes page = some ⟨true, true⟩ by rw [hpipe1, update_self])) fun _ s2 h2 => ?_
  obtain ⟨h2, hp2, hd2, hc2, hpipe2⟩ := h2
  have hopen : (⟨true, true⟩ : PipeEnds).closed false = some ⟨false, true⟩ := rfl
  rw [hopen] at hpipe2
  refine .bind (pipeclose_ends (show s2.pipes page = some ⟨false, true⟩ by rw [hpipe2, update_self])) fun _ s3 h3 => ?_
  obtain ⟨h3, hp3, hd3, hc3, hpipe3⟩ := h3
  refine .pure ⟨((htake.trans hmake).trans h2).trans h3, fun q => ?_, fun _ f => ?_⟩
  · rw [hp3, hp2]
    exact hok1 q
  · have hgone : s3.pipes = s.pipes := by
      rw [hpipe3, hpipe2, hpipe1, update_idem, update_idem]
      exact update_eq_self_iff.2 hnone.symm
    rw [St.owned, St.owned, hgone, hp3, hp2, hd3, hd2, hc3, hc2, ← hs1]

end Xv6.ProcMem
