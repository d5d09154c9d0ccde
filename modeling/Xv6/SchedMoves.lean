import Xv6.Sched

/-!
# What a step of the process table can do

`Moves` lists every way a step can go, with what it needed and the state it leaves; `step_moves`
says the list is complete. `park` is the state a process leaves behind when it gives up its CPU.
-/

namespace Xv6.Sched

open Function
open ProcMem (NPROC ProcState)

set_option linter.unusedSectionVars false

variable {C L A : Type} [DecidableEq C] [DecidableEq L] [DecidableEq A]

namespace St

/-- Process `p` of CPU `c` is now `q` and in `sched`; the scheduler of `c` has `ptable.lock`. -/
@[simps] def park (s : St C L A) (c : C) (p : Slot) (q : Proc A) (pc : Pc L A) : St C L A :=
  { s with
    ptlock := some c
    procs := update s.procs p q
    pc := update s.pc p pc
    cpu := update s.cpu c { s.cpu c with stack := none, mode := .back p } }

@[simps] def hitBy (q : Proc A) : Proc A :=
  { q with killed := true, state := if q.state = .SLEEPING then .RUNNABLE else q.state }

def exitTable (s : St C L A) (p : Slot) : Slot → Proc A :=
  passChildren s.initproc p (wakeup1 ((s.procs p).parent.map .proc) s.procs)

@[simps] def reap (s : St C L A) (p z : Slot) (kstack pgdir : Nat) : St C L A :=
  { s with
    used := update (update s.used kstack false) pgdir false
    procs := update s.procs z
      { s.procs z with kstack := none, pid := 0, parent := none, killed := false, state := .UNUSED }
    ret := update s.ret p (s.procs z).pid }

/-- The slot `np` is taken by a `fork` of `p`. -/
@[simps] def embryo (s : St C L A) (p np : Slot) : St C L A :=
  { s with
    nextpid := s.nextpid + 1
    procs := update s.procs np { s.procs np with state := .EMBRYO, pid := s.nextpid }
    call := update s.call p (.forkStack np) }

@[simps] def lockTo (s : St C L A) (c : C) (lk : L) : St C L A :=
  { s with
    cpu := update s.cpu c { s.cpu c with held := (s.cpu c).held + 1 }
    lock := update s.lock lk (some c) }

@[simps] def unlock (s : St C L A) (c : C) (lk : L) : St C L A :=
  { s with
    cpu := update s.cpu c { s.cpu c with held := (s.cpu c).held - 1 }
    lock := update s.lock lk none }

@[simps] def switched (s : St C L A) (c : C) (p : Slot) (kstack pgdir : Nat) : St C L A :=
  { s with
    procs := update s.procs p { s.procs p with state := .RUNNING }
    cpu := update s.cpu c
      { s.cpu c with proc := some p, cr3 := some pgdir, stack := some kstack, mode := .away p } }

/-- `wait` as it starts, or goes on after it slept. -/
def waits (s : St C L A) (c : C) (p : Slot) : Op L A → St C L A → Prop
  | .wait, s₁ => s.pc p = .ready ∧ s.call p = .none ∧ s.ptlock = none ∧ s₁ = s
  | .next, s₁ => s.pc p = .waitSlept ∧ s.ptlock = some c ∧ s₁ = s.setProc p fun q => { q with chan := none }
  | _, _ => False

end St

/-- Where a process goes on after `sched`, and its entry then: `sleep` clears `p->chan`. -/
def Pc.resume (q : Proc A) : Pc L A → Option (Pc L A × Proc A)
  | .forkret => some (.ready, q)
  | .yielded none => some (.ready, q)
  | .yielded (some lk) => some (.relock lk, q)
  | .slept _ lk => some (.relock lk, { q with chan := none })
  | _ => none

inductive Moves (s : St C L A) : Act C L A → St C L A → Prop
  -- the scheduler
  | idle {c} : (s.cpu c).mode = .idle → s.ptlock = none →
      Moves s (.scheduler c) ((s.setCpu c fun u => { u with mode := .scan 0 }).setPtlock (some c))
  | skip {c i} : (s.cpu c).mode = .scan i →
      Moves s (.scheduler c) (s.setCpu c fun u => { u with mode := .scan (i + 1) })
  | done {c i} : (s.cpu c).mode = .scan i → s.ptlock = some c →
      Moves s (.scheduler c) ((s.setCpu c fun u => { u with mode := .idle }).setPtlock none)
  | switch {c i p kstack pgdir} : (s.cpu c).mode = .scan i → (s.procs p).state = .RUNNABLE →
      (s.procs p).kstack = some kstack → (s.procs p).pgdir = some pgdir →
      Moves s (.scheduler c) (s.switched c p kstack pgdir)
  | back {c p} : (s.cpu c).mode = .back p →
      Moves s (.scheduler c) (s.setCpu c fun u => { u with cr3 := none, proc := none, mode := .scan (p + 1) })
  -- locks and `nop`
  | nop {c p} : (s.cpu c).mode = .away p → s.pc p = .ready → Moves s (.proc c .nop) s
  | acquire {c p lk o} : (s.cpu c).mode = .away p →
      o = .acquire lk ∧ s.pc p = .ready ∨ o = .next ∧ s.pc p = .relock lk → s.lock lk = none →
      Moves s (.proc c o) ((s.lockTo c lk).setPc p .ready)
  | release {c p lk} : (s.cpu c).mode = .away p → s.pc p = .ready → s.lock lk = some c →
      Moves s (.proc c (.release lk)) (s.unlock c lk)
  -- giving up the CPU and coming back
  | yield {c p lk} : (s.cpu c).mode = .away p →
      s.pc p = .ready ∧ lk = none ∨ (∃ l, s.pc p = .relock l ∧ lk = some l) → s.ptlock = none →
      (s.cpu c).held = 0 →
      Moves s (.proc c .yield) (s.park c p { s.procs p with state := .RUNNABLE } (.yielded lk))
  | sleep {c p a lk} : (s.cpu c).mode = .away p → s.pc p = .ready →
      Moves s (.proc c (.sleep a lk)) (s.setPc p (.sleepEnter a lk))
  | sleepEnter {c p a lk} : (s.cpu c).mode = .away p → s.pc p = .sleepEnter a lk → s.ptlock = none →
      Moves s (.proc c .next) ((s.setPc p (.sleepRelease a lk)).setPtlock (some c))
  | sleepRelease {c p a lk} : (s.cpu c).mode = .away p → s.pc p = .sleepRelease a lk → s.lock lk = some c →
      Moves s (.proc c .next) ((s.unlock c lk).setPc p (.sleepMark a lk))
  | sleepMark {c p a lk} : (s.cpu c).mode = .away p → s.pc p = .sleepMark a lk → s.ptlock = some c →
      (s.cpu c).held = 0 →
      Moves s (.proc c .next)
        (s.park c p { s.procs p with chan := some (.addr a), state := .SLEEPING } (.slept a lk))
  | resume {c p pc q} : (s.cpu c).mode = .away p → (s.pc p).resume (s.procs p) = some (pc, q) →
      s.ptlock = some c →
      Moves s (.proc c .next) (((s.setProc p fun _ => q).setPc p pc).setPtlock none)
  | exit {c p} : (s.cpu c).mode = .away p → s.pc p = .ready → s.call p = .none → p ≠ s.initproc →
      s.ptlock = none → (s.cpu c).held = 0 →
      Moves s (.proc c .exit)
        ((s.setProcs (s.exitTable p)).park c p { s.exitTable p p with state := .ZOMBIE } .gone)
  -- `wait`
  | reap {c p z kstack pgdir o s₁} : (s.cpu c).mode = .away p → s.waits c p o s₁ →
      (firstSlot s₁.procs fun z => z.parent = some p ∧ z.state = .ZOMBIE) = some z →
      (s₁.procs z).kstack = some kstack → (s₁.procs z).pgdir = some pgdir →
      Moves s (.proc c o) (((s₁.reap p z kstack pgdir).setPc p .ready).setPtlock none)
  | waitFail {c p o s₁} : (s.cpu c).mode = .away p → s.waits c p o s₁ →
      (firstSlot s₁.procs fun z => z.parent = some p ∧ z.state = .ZOMBIE) = none →
      (firstSlot s₁.procs fun z => z.parent = some p) = none ∨ (s₁.procs p).killed = true →
      Moves s (.proc c o) (((s₁.setRet p (-1)).setPc p .ready).setPtlock none)
  | waitSleep {c p o s₁} : (s.cpu c).mode = .away p → s.waits c p o s₁ →
      (firstSlot s₁.procs fun z => z.parent = some p ∧ z.state = .ZOMBIE) = none → (s.cpu c).held = 0 →
      Moves s (.proc c o)
        (s₁.park c p { s₁.procs p with chan := some (.proc p), state := .SLEEPING } .waitSlept)
  -- sections that keep the CPU
  | wakeup {c p a} : (s.cpu c).mode = .away p → s.pc p = .ready → s.ptlock = none →
      Moves s (.proc c (.wakeup a)) (s.setProcs (wakeup1 (some (.addr a)) s.procs))
  | killHit {c p q pid} : (s.cpu c).mode = .away p → s.pc p = .ready → s.ptlock = none →
      (firstSlot s.procs fun q => q.pid = pid) = some q →
      Moves s (.proc c (.kill pid)) ((s.setProc q St.hitBy).setRet p 0)
  | killMiss {c p pid} : (s.cpu c).mode = .away p → s.pc p = .ready → s.ptlock = none →
      (firstSlot s.procs fun q => q.pid = pid) = none →
      Moves s (.proc c (.kill pid)) (s.setRet p (-1))
  | trap {c p} : (s.cpu c).mode = .away p → s.pc p = .ready → s.call p = .none →
      Moves s (.proc c .trap) (s.setProc p fun q => { q with killed := true })
  -- `fork`
  | forkFull {c p} : (s.cpu c).mode = .away p → s.pc p = .ready → s.call p = .none → s.ptlock = none →
      (firstSlot s.procs fun q => q.state = .UNUSED) = none →
      Moves s (.proc c .fork) (s.setRet p (-1))
  | forkAlloc {c p np} : (s.cpu c).mode = .away p → s.pc p = .ready → s.call p = .none → s.ptlock = none →
      (firstSlot s.procs fun q => q.state = .UNUSED) = some np →
      Moves s (.proc c .fork) (s.embryo p np)
  | stackFail {c p np} : (s.cpu c).mode = .away p → s.pc p = .ready → s.call p = .forkStack np →
      Moves s (.proc c (.kalloc none))
        (((s.setProc np fun q => { q with kstack := none, state := .UNUSED }).setRet p (-1)).setCall p .none)
  | stackOk {c p np page} : (s.cpu c).mode = .away p → s.pc p = .ready → s.call p = .forkStack np →
      s.used page = false →
      Moves s (.proc c (.kalloc (some page)))
        ((((s.take page).setProc np fun q => { q with kstack := some page }).setPc np .forkret).setCall p
          (.forkCopy np))
  | copyFail {c p np kstack} : (s.cpu c).mode = .away p → s.pc p = .ready → s.call p = .forkCopy np →
      (s.procs np).kstack = some kstack →
      Moves s (.proc c (.copyuvm none))
        ((((s.give kstack).setProc np fun q =>
          { q with pgdir := none, kstack := none, state := .UNUSED }).setRet p (-1)).setCall p .none)
  | copyOk {c p np page} : (s.cpu c).mode = .away p → s.pc p = .ready → s.call p = .forkCopy np →
      s.used page = false →
      Moves s (.proc c (.copyuvm (some page)))
        (((s.take page).setProc np fun q => { q with pgdir := some page }).setCall p (.forkParent np))
  | forkParent {c p np} : (s.cpu c).mode = .away p → s.pc p = .ready → s.call p = .forkParent np →
      Moves s (.proc c .setParent) (s.forkParent p np)
  | forkRun {c p np} : (s.cpu c).mode = .away p → s.pc p = .ready → s.call p = .forkRun np → s.ptlock = none →
      Moves s (.proc c .setRunnable)
        (((s.setProc np fun q => { q with state := .RUNNABLE }).setRet p (s.procs np).pid).setCall p .none)
  -- address spaces
  | load {c p pgdir o call} : (s.cpu c).mode = .away p → s.pc p = .ready →
      o = .growproc ∧ s.call p = .none ∧ call = .none ∨
        (∃ old, o = .switchuvm ∧ s.call p = .execSwitch old ∧ call = .execFree old) →
      (s.procs p).pgdir = some pgdir →
      Moves s (.proc c o) ((s.setCpu c fun u => { u with cr3 := some pgdir }).setCall p call)
  | execNone {c p} : (s.cpu c).mode = .away p → s.pc p = .ready → s.call p = .none →
      Moves s (.proc c (.exec none)) (s.setRet p (-1))
  | execAlloc {c p page} : (s.cpu c).mode = .away p → s.pc p = .ready → s.call p = .none →
      s.used page = false →
      Moves s (.proc c (.exec (some page))) ((s.take page).setCall p (.execImage page))
  | execFail {c p pgdir} : (s.cpu c).mode = .away p → s.pc p = .ready → s.call p = .execImage pgdir →
      Moves s (.proc c .execFail) (s.execFail p pgdir)
  | execCommit {c p pgdir old} : (s.cpu c).mode = .away p → s.pc p = .ready → s.call p = .execImage pgdir →
      (s.procs p).pgdir = some old →
      Moves s (.proc c .execCommit)
        ((s.setProc p fun q => { q with pgdir := some pgdir }).setCall p (.execSwitch old))
  | execFree {c p old} : (s.cpu c).mode = .away p → s.pc p = .ready → s.call p = .execFree old →
      Moves s (.proc c .freevm) (s.execFree p old)

/-! ### The list is complete -/

namespace St

variable {s s' : St C L A} {c : C} {p : Slot}

theorem acquirePt_eq : s.acquirePt c = some s' ↔ s.ptlock = none ∧ s.setPtlock (some c) = s' := by
  unfold acquirePt; split_ifs with h <;> simp [h]

theorem releasePt_eq : s.releasePt c = some s' ↔ s.ptlock = some c ∧ s.setPtlock none = s' := by
  unfold releasePt; split_ifs with h <;> simp [h]

theorem setPtlock_self {o : Option C} (h : s.ptlock = o) : s.setPtlock o = s := by
  cases s
  cases h
  rfl

theorem setPc_self {pc : Pc L A} (h : s.pc p = pc) : s.setPc p pc = s := by
  rw [setPc, ← h, update_eq_self]

theorem setCall_self {call : Call} (h : s.call p = call) : s.setCall p call = s := by
  rw [setCall, ← h, update_eq_self]

theorem sched_eq {s₁ : St C L A} {pc : Pc L A} (h : (s₁.setPc p pc).sched c p = some s') :
    s₁.ptlock = some c ∧ (s₁.cpu c).held = 0 ∧ s' = s₁.park c p (s₁.procs p) pc := by
  unfold sched at h
  split_ifs at h with hc
  cases h
  refine ⟨hc.1, hc.2.1, ?_⟩
  simp only [park, setCpu, setPc, update_eq_self, ← show s₁.ptlock = some c from hc.1]

theorem yield_eq {lk : Option L} (h : s.yield c p lk = some s') : s.ptlock = none ∧ (s.cpu c).held = 0 ∧
    s' = s.park c p { s.procs p with state := .RUNNABLE } (.yielded lk) := by
  obtain ⟨s₁, hs, h⟩ := Option.bind_eq_some_iff.1 h
  obtain ⟨hpt, rfl⟩ := acquirePt_eq.1 hs
  obtain ⟨-, hheld, rfl⟩ := sched_eq h
  refine ⟨hpt, hheld, ?_⟩
  simp only [park, setProc, setPtlock, update_idem, update_self]

theorem goToSleep_eq {chan : Chan A} {pc : Pc L A} (h : s.goToSleep c p chan pc = some s') :
    s.ptlock = some c ∧ (s.cpu c).held = 0 ∧
      s' = s.park c p { s.procs p with chan := some chan, state := .SLEEPING } pc := by
  obtain ⟨hpt, hheld, rfl⟩ := sched_eq h
  refine ⟨hpt, hheld, ?_⟩
  simp only [park, setProc, update_idem, update_self]

theorem exit_eq (h : s.exit c p = some s') : p ≠ s.initproc ∧ s.ptlock = none ∧ (s.cpu c).held = 0 ∧
    s' = (s.setProcs (s.exitTable p)).park c p { s.exitTable p p with state := .ZOMBIE } .gone := by
  unfold exit at h
  split_ifs at h with hp
  obtain ⟨s₁, hs, h⟩ := Option.bind_eq_some_iff.1 h
  obtain ⟨hpt, rfl⟩ := acquirePt_eq.1 hs
  obtain ⟨-, hheld, rfl⟩ := sched_eq h
  refine ⟨hp, hpt, hheld, ?_⟩
  simp only [park, exitTable, setProc, setProcs, setPtlock, update_idem, update_self]

theorem acquire_eq {lk : L} (h : s.acquire c lk = some s') : s.lock lk = none ∧ s' = s.lockTo c lk := by
  unfold acquire at h
  split_ifs at h with hl
  cases h
  exact ⟨hl, rfl⟩

theorem release_eq {lk : L} (h : s.release c lk = some s') : s.lock lk = some c ∧ s' = s.unlock c lk := by
  unfold release at h
  split_ifs at h with hl
  cases h
  exact ⟨hl, rfl⟩

theorem kalloc_eq {page : Nat} (h : s.kalloc page = some s') : s.used page = false ∧ s' = s.take page := by
  unfold kalloc at h
  split_ifs at h with hp
  cases h
  exact ⟨hp, rfl⟩

theorem switchuvm_eq (h : s.switchuvm c p = some s') : ∃ kstack pgdir, (s.procs p).kstack = some kstack ∧
    (s.procs p).pgdir = some pgdir ∧ s' = s.setCpu c fun u => { u with cr3 := some pgdir } := by
  obtain ⟨kstack, hk, h⟩ := Option.bind_eq_some_iff.1 h
  obtain ⟨pgdir, hd, h⟩ := Option.bind_eq_some_iff.1 h
  cases h
  exact ⟨kstack, pgdir, hk, hd, rfl⟩

theorem switchTo_eq (h : s.switchTo c p = some s') : ∃ kstack pgdir, (s.procs p).kstack = some kstack ∧
    (s.procs p).pgdir = some pgdir ∧ s' = s.switched c p kstack pgdir := by
  obtain ⟨kstack, hk, h⟩ := Option.bind_eq_some_iff.1 h
  obtain ⟨s₁, hs, h⟩ := Option.bind_eq_some_iff.1 h
  obtain ⟨-, pgdir, -, hd, rfl⟩ := switchuvm_eq hs
  cases h
  refine ⟨kstack, pgdir, hk, hd, ?_⟩
  simp only [switched, setCpu, setProc, update_idem, update_self]

end St

section Complete

variable {s s₁ s' : St C L A} {c : C} {p : Slot} {o : Op L A}

theorem scheduler_moves (h : s.scheduler c = some s') : Moves s (.scheduler c) s' := by
  unfold St.scheduler at h
  split at h
  · rename_i hm
    obtain ⟨hpt, rfl⟩ := St.acquirePt_eq.1 h
    exact .idle hm hpt
  · rename_i i hm
    split_ifs at h with hi hr
    · obtain ⟨kstack, pgdir, hk, hd, rfl⟩ := St.switchTo_eq h
      exact .switch hm hr hk hd
    · cases h
      exact .skip hm
    · obtain ⟨hpt, rfl⟩ := St.releasePt_eq.1 h
      exact .done hm hpt
  · cases h
  · rename_i hm
    cases h
    exact .back hm

theorem waitLoop_ptlock (h : s.waitLoop c p = some s') : s.ptlock = some c := by
  unfold St.waitLoop at h
  split at h
  · obtain ⟨_, _, h1⟩ := Option.bind_eq_some_iff.1 h
    obtain ⟨_, _, h2⟩ := Option.bind_eq_some_iff.1 h1
    exact (St.releasePt_eq.1 h2).1
  · dsimp only at h
    split_ifs at h
    · exact (St.releasePt_eq.1 h).1
    · exact (St.goToSleep_eq h).1

theorem waitLoop_moves (hm : (s.cpu c).mode = .away p) (hw : s.waits c p o s₁) (hheld : (s₁.cpu c) = s.cpu c)
    (h : (s₁.setPtlock (some c)).waitLoop c p = some s') : Moves s (.proc c o) s' := by
  unfold St.waitLoop at h
  split at h
  · rename_i z hz
    obtain ⟨kstack, hk, h⟩ := Option.bind_eq_some_iff.1 h
    obtain ⟨pgdir, hd, h⟩ := Option.bind_eq_some_iff.1 h
    obtain ⟨-, rfl⟩ := St.releasePt_eq.1 h
    exact .reap hm hw hz hk hd
  · rename_i hz
    dsimp only at h
    split_ifs at h with hk
    · obtain ⟨-, rfl⟩ := St.releasePt_eq.1 h
      have hk' : (firstSlot s₁.procs fun z => z.parent = some p) = none ∨ (s₁.procs p).killed = true :=
        hk.imp_left fun hk => Option.isNone_iff_eq_none.1 (Option.isSome_eq_false_iff.1 hk)
      have := Moves.waitFail hm hw hz hk'
      exact this
    · obtain ⟨-, hheld', rfl⟩ := St.goToSleep_eq h
      have hh : (s.cpu c).held = 0 := by rw [← hheld]; exact hheld'
      have := Moves.waitSleep hm hw hz hh
      exact this

theorem next_moves (hm : (s.cpu c).mode = .away p) (h : s.next c p = some s') : Moves s (.proc c .next) s' := by
  unfold St.next at h
  split at h
  case h_1 hpc | h_2 hpc | h_3 hpc =>
    obtain ⟨hpt, rfl⟩ := St.releasePt_eq.1 h
    have := Moves.resume hm (show (s.pc p).resume (s.procs p) = some (_, s.procs p) by rw [hpc]; rfl) hpt
    simpa only [St.setProc, update_eq_self] using this
  · rename_i hpc
    obtain ⟨hpt, rfl⟩ := St.acquirePt_eq.1 h
    exact .sleepEnter hm hpc hpt
  · rename_i hpc
    obtain ⟨hl, rfl⟩ := St.release_eq h
    exact .sleepRelease hm hpc hl
  · rename_i hpc
    obtain ⟨hpt, hheld, rfl⟩ := St.goToSleep_eq h
    exact .sleepMark hm hpc hpt hheld
  · rename_i hpc
    obtain ⟨hpt, rfl⟩ := St.releasePt_eq.1 h
    exact .resume hm (by rw [hpc]; rfl) hpt
  · rename_i hpc
    obtain ⟨hl, rfl⟩ := St.acquire_eq h
    exact .acquire hm (.inr ⟨rfl, hpc⟩) hl
  · rename_i hpc
    have hpt := waitLoop_ptlock h
    refine waitLoop_moves hm ⟨hpc, hpt, rfl⟩ rfl ?_
    rwa [St.setPtlock_self hpt]
  · cases h
  · cases h

theorem allocproc_moves (hm : (s.cpu c).mode = .away p) (hpc : s.pc p = .ready) (hc : s.call p = .none)
    (h : s.allocproc c p = some s') : Moves s (.proc c .fork) s' := by
  obtain ⟨s₁, hs, h⟩ := Option.bind_eq_some_iff.1 h
  obtain ⟨hpt, rfl⟩ := St.acquirePt_eq.1 hs
  split at h
  · rename_i np hnp
    obtain ⟨-, rfl⟩ := St.releasePt_eq.1 h
    have := Moves.forkAlloc hm hpc hc hpt hnp
    rwa [← St.setPtlock_self (s := s.embryo p np) hpt] at this
  · rename_i hnp
    obtain ⟨-, rfl⟩ := St.releasePt_eq.1 h
    have := Moves.forkFull hm hpc hc hpt hnp
    rwa [← St.setPtlock_self (s := s.setRet p (-1)) hpt] at this

theorem kill_moves {pid : Int} (hm : (s.cpu c).mode = .away p) (hpc : s.pc p = .ready)
    (h : s.kill c p pid = some s') : Moves s (.proc c (.kill pid)) s' := by
  obtain ⟨s₁, hs, h⟩ := Option.bind_eq_some_iff.1 h
  obtain ⟨hpt, rfl⟩ := St.acquirePt_eq.1 hs
  split at h
  · rename_i q hq
    obtain ⟨-, rfl⟩ := St.releasePt_eq.1 h
    have := Moves.killHit hm hpc hpt hq
    rwa [← St.setPtlock_self (s := (s.setProc q St.hitBy).setRet p 0) hpt] at this
  · rename_i hq
    obtain ⟨-, rfl⟩ := St.releasePt_eq.1 h
    have := Moves.killMiss hm hpc hpt hq
    rwa [← St.setPtlock_self (s := s.setRet p (-1)) hpt] at this

theorem callStep_moves (hm : (s.cpu c).mode = .away p) (hpc : s.pc p = .ready)
    (h : s.callStep c p (s.call p) o = some s') : Moves s (.proc c o) s' := by
  unfold St.callStep at h
  split at h
  · rename_i hc
    cases h
    exact .trap hm hpc hc
  · rename_i hc
    obtain ⟨-, pgdir, -, hd, rfl⟩ := St.switchuvm_eq h
    have := Moves.load hm hpc (.inl ⟨rfl, hc, rfl⟩) hd
    rwa [St.setCall_self (by exact hc)] at this
  · rename_i hc
    obtain ⟨hp, hpt, hheld, rfl⟩ := St.exit_eq h
    exact .exit hm hpc hc hp hpt hheld
  · rename_i hc
    obtain ⟨s₁, hs, h⟩ := Option.bind_eq_some_iff.1 h
    obtain ⟨hpt, rfl⟩ := St.acquirePt_eq.1 hs
    exact waitLoop_moves hm ⟨hpc, hc, hpt, rfl⟩ rfl h
  · rename_i hc
    exact allocproc_moves hm hpc hc h
  · rename_i np page hc
    cases page with
    | none => cases h; exact .stackFail hm hpc hc
    | some page =>
      obtain ⟨s₁, hs, h⟩ := Option.bind_eq_some_iff.1 h
      obtain ⟨hu, rfl⟩ := St.kalloc_eq hs
      cases h
      exact .stackOk hm hpc hc hu
  · rename_i np page hc
    cases page with
    | none =>
      obtain ⟨kstack, hk, h⟩ := Option.bind_eq_some_iff.1 h
      cases h
      exact .copyFail hm hpc hc hk
    | some page =>
      obtain ⟨s₁, hs, h⟩ := Option.bind_eq_some_iff.1 h
      obtain ⟨hu, rfl⟩ := St.kalloc_eq hs
      cases h
      exact .copyOk hm hpc hc hu
  · rename_i hc
    cases h
    exact .forkParent hm hpc hc
  · rename_i np hc
    obtain ⟨s₁, hs, h⟩ := Option.bind_eq_some_iff.1 h
    obtain ⟨hpt, rfl⟩ := St.acquirePt_eq.1 hs
    obtain ⟨-, rfl⟩ := St.releasePt_eq.1 h
    have := Moves.forkRun hm hpc hc hpt
    rwa [← St.setPtlock_self (s := ((s.setProc np _).setRet p _).setCall p .none) hpt] at this
  · rename_i page hc
    cases page with
    | none => cases h; exact .execNone hm hpc hc
    | some page =>
      obtain ⟨s₁, hs, h⟩ := Option.bind_eq_some_iff.1 h
      obtain ⟨hu, rfl⟩ := St.kalloc_eq hs
      cases h
      exact .execAlloc hm hpc hc hu
  · rename_i hc
    cases h
    exact .execFail hm hpc hc
  · rename_i hc
    obtain ⟨old, hd, h⟩ := Option.bind_eq_some_iff.1 h
    cases h
    exact .execCommit hm hpc hc hd
  · rename_i old hc
    obtain ⟨s₁, hs, h⟩ := Option.map_eq_some_iff.1 h
    obtain ⟨-, pgdir, -, hd, rfl⟩ := St.switchuvm_eq hs
    subst h
    exact .load hm hpc (.inr ⟨old, rfl, hc, rfl⟩) hd
  · rename_i hc
    cases h
    exact .execFree hm hpc hc
  · cases h

theorem readyStep_moves (hm : (s.cpu c).mode = .away p) (hpc : s.pc p = .ready)
    (h : s.readyStep c p o = some s') : Moves s (.proc c o) s' := by
  unfold St.readyStep at h
  split at h
  · cases h
    exact .nop hm hpc
  · obtain ⟨hpt, hheld, rfl⟩ := St.yield_eq h
    exact .yield hm (.inl ⟨hpc, rfl⟩) hpt hheld
  · rename_i lk
    obtain ⟨hl, rfl⟩ := St.acquire_eq h
    have := Moves.acquire hm (.inl ⟨rfl, hpc⟩) hl
    rwa [St.setPc_self (s := s.lockTo c lk) hpc] at this
  · obtain ⟨hl, rfl⟩ := St.release_eq h
    exact .release hm hpc hl
  · cases h
    exact .sleep hm hpc
  · rename_i a
    obtain ⟨s₁, hs, h⟩ := Option.bind_eq_some_iff.1 h
    obtain ⟨hpt, rfl⟩ := St.acquirePt_eq.1 hs
    obtain ⟨-, rfl⟩ := St.releasePt_eq.1 h
    have := Moves.wakeup (a := a) hm hpc hpt
    rwa [← St.setPtlock_self (s := s.setProcs (wakeup1 (some (.addr a)) s.procs)) hpt] at this
  · exact kill_moves hm hpc h
  · exact callStep_moves hm hpc h

theorem procStep_moves (hm : (s.cpu c).mode = .away p) (h : s.procStep c p o = some s') :
    Moves s (.proc c o) s' := by
  unfold St.procStep at h
  split at h
  · rename_i hpc
    exact readyStep_moves hm hpc h
  · rename_i lk hpc
    obtain ⟨hpt, hheld, rfl⟩ := St.yield_eq h
    exact .yield hm (.inr ⟨lk, hpc, rfl⟩) hpt hheld
  · exact next_moves hm h
  · cases h

theorem step_moves {a : Act C L A} (h : step s a = some s') : Moves s a s' := by
  cases a with
  | scheduler c => exact scheduler_moves h
  | proc c o =>
    rw [step] at h
    split at h
    · rename_i hm
      exact procStep_moves hm h
    · cases h

end Complete

end Xv6.Sched
