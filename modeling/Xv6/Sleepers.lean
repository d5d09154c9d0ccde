import Xv6.SchedInv

/-!
# Locks and sleepers

What the machine looks like if only the spinlocks other than `ptable.lock` and the function `sleep`
count: which process has a lock, where each process is in `sleep`, and whether it is SLEEPING there.
`Sleepers.Step` says how these change; `step_sleepers` says that every step of the machine is such a
step.
-/

namespace Xv6.Sched

open Function
open ProcMem (NPROC ProcState)

set_option linter.unusedSectionVars false

variable {C L A : Type} [DecidableEq C] [DecidableEq L] [DecidableEq A]

inductive Stage (L A : Type)
  | out
  | enter (a : A) (lk : L) -- before `acquire(&ptable.lock)`
  | unlock (a : A) (lk : L) -- before `release(lk)`
  | mark (a : A) (lk : L) -- between `release(lk)` and `sched`
  | slept (a : A) (lk : L) -- in `sched`
  | again (lk : L) -- before `acquire(lk)`
deriving DecidableEq

def Pc.stage : Pc L A → Stage L A
  | .sleepEnter a lk => .enter a lk
  | .sleepRelease a lk => .unlock a lk
  | .sleepMark a lk => .mark a lk
  | .slept a lk => .slept a lk
  | .relock lk | .yielded (some lk) => .again lk
  | _ => .out

@[ext] structure Sleepers (L A : Type) where
  holder : L → Option Slot -- the process that has the lock
  stage : Slot → Stage L A
  asleep : Slot → Bool

inductive SleepOp (L A : Type)
  | none
  | acquire (p : Slot) (lk : L)
  | release (p : Slot) (lk : L)
  | call (p : Slot) (a : A) (lk : L)
  | enter (p : Slot) (a : A) (lk : L)
  | unlock (p : Slot) (a : A) (lk : L)
  | mark (p : Slot) (a : A) (lk : L)
  | resume (p : Slot) (a : A) (lk : L)
  | wakeup (p : Slot) (a : A)

namespace Sleepers

@[simps] def goto (t : Sleepers L A) (p : Slot) (x : Stage L A) : Sleepers L A := { t with stage := update t.stage p x }

@[simps] def hold (t : Sleepers L A) (lk : L) (o : Option Slot) : Sleepers L A :=
  { t with holder := update t.holder lk o }

theorem holder_ne {t : Sleepers L A} {lk : L} {p : Slot} (h : t.holder lk = some p) (q : Slot) (hq : q ≠ p) :
    t.holder lk ≠ some q := fun hq' => hq (Option.some.inj (hq'.symm.trans h))

theorem holder_of_release {t : Sleepers L A} {lk l : L} {q : Slot} (h : (t.hold lk none).holder l = some q) :
    t.holder l = some q := by
  by_cases hl : l = lk
  · rw [hl, hold_holder, update_self] at h
    cases h
  · rwa [hold_holder, update_of_ne hl] at h

theorem holder_release {t : Sleepers L A} {lk l : L} {p q : Slot} (hp : t.holder lk = some p) (hqp : q ≠ p)
    (h : t.holder l = some q) : (t.hold lk none).holder l = some q := by
  refine (update_of_ne ?_ _ _).trans h
  rintro rfl
  exact hqp (Option.some.inj (h.symm.trans hp))

/-- The possible steps. Anything may wake a process up, as `kill` does; only `mark` puts one to sleep. -/
def Step (t : Sleepers L A) : SleepOp L A → Sleepers L A → Prop
  | .none, t' => t'.holder = t.holder ∧ t'.stage = t.stage ∧ ∀ q, t'.asleep q = true → t.asleep q = true
  | .acquire p lk, t' => t.holder lk = none ∧ (t.stage p = .out ∨ t.stage p = .again lk) ∧
      t' = (t.hold lk (some p)).goto p .out
  | .release p lk, t' => t.holder lk = some p ∧ t.stage p = .out ∧ t' = t.hold lk none
  | .call p a lk, t' => t.stage p = .out ∧ t' = t.goto p (.enter a lk)
  | .enter p a lk, t' => t.stage p = .enter a lk ∧ t' = t.goto p (.unlock a lk)
  | .unlock p a lk, t' => t.stage p = .unlock a lk ∧ t.holder lk = some p ∧ t' = (t.hold lk none).goto p (.mark a lk)
  | .mark p a lk, t' => t.stage p = .mark a lk ∧
      t' = { t.goto p (.slept a lk) with asleep := update t.asleep p true }
  | .resume p a lk, t' => t.stage p = .slept a lk ∧ t.asleep p = false ∧ t' = t.goto p (.again lk)
  -- `ptable.lock` is free, so nobody is between `acquire(&ptable.lock)` and `sched`
  | .wakeup p a, t' => t.stage p = .out ∧ (∀ q b lk, t.stage q ≠ .unlock b lk ∧ t.stage q ≠ .mark b lk) ∧
      t'.holder = t.holder ∧ t'.stage = t.stage ∧
      ∀ q, t'.asleep q = true ↔ t.asleep q = true ∧ ∀ lk, t.stage q ≠ .slept a lk

end Sleepers

namespace St

def holder (s : St C L A) (lk : L) : Option Slot :=
  (s.lock lk).bind fun c =>
    match (s.cpu c).mode with
    | .away p => some p
    | _ => none

def asleep (s : St C L A) (q : Slot) : Bool := (s.procs q).state = .SLEEPING ∧ (s.pc q).stage ≠ .out

def sleepers (s : St C L A) : Sleepers L A := ⟨s.holder, fun q => (s.pc q).stage, s.asleep⟩

def opSleep (s : St C L A) (p : Slot) : Op L A → SleepOp L A
  | .acquire lk => .acquire p lk
  | .release lk => .release p lk
  | .sleep a lk => .call p a lk
  | .wakeup a => .wakeup p a
  | .next =>
    match s.pc p with
    | .sleepEnter a lk => .enter p a lk
    | .sleepRelease a lk => .unlock p a lk
    | .sleepMark a lk => .mark p a lk
    | .slept a lk => .resume p a lk
    | .relock lk => .acquire p lk
    | _ => .none
  | _ => .none

def sleepOp (s : St C L A) : Act C L A → SleepOp L A
  | .scheduler _ => .none
  | .proc c o =>
    match (s.cpu c).mode with
    | .away p => s.opSleep p o
    | _ => .none

end St

/-! ### Locks belong to running processes -/

structure Locks (s : St C L A) : Prop where
  count : ∀ c, ∃ ls : List L, ls.Nodup ∧ ls.length = (s.cpu c).held ∧ ∀ lk, lk ∈ ls ↔ s.lock lk = some c
  off : ∀ c, (∀ p, (s.cpu c).mode ≠ .away p) → (s.cpu c).held = 0

namespace Locks

variable {s s' : St C L A} {c : C} {p : Slot} {lk : L}

theorem held_ne (h : Locks s) (hl : s.lock lk = some c) : (s.cpu c).held ≠ 0 := by
  obtain ⟨ls, -, hlen, hmem⟩ := h.count c
  intro h0
  rw [h0] at hlen
  have := (hmem lk).2 hl
  rw [List.length_eq_zero_iff.1 hlen] at this
  cases this

theorem away (h : Locks s) (hl : s.lock lk = some c) : ∃ p, (s.cpu c).mode = .away p := by
  by_contra hne
  exact h.held_ne hl (h.off c fun p hp => hne ⟨p, hp⟩)

theorem frame (h : Locks s) (hlock : s'.lock = s.lock) (hheld : ∀ c, (s'.cpu c).held = (s.cpu c).held)
    (hmode : ∀ c, (s.cpu c).held ≠ 0 → (s'.cpu c).mode = (s.cpu c).mode) : Locks s' where
  count c := by
    rw [hheld, hlock]
    exact h.count c
  off c hc := by
    rw [hheld]
    by_contra h0
    refine h0 (h.off c fun p => ?_)
    rw [← hmode c h0]
    exact hc p

theorem congr (h : Locks s) (hlock : s'.lock = s.lock) (hcpu : s'.cpu = s.cpu) : Locks s' :=
  h.frame hlock (fun _ => by rw [hcpu]) fun _ _ => by rw [hcpu]

theorem setCpu (u : Cpu) (h : Locks s) (hheld : u.held = (s.cpu c).held)
    (hmode : (s.cpu c).held ≠ 0 → u.mode = (s.cpu c).mode) (hlock : s'.lock = s.lock)
    (hcpu : s'.cpu = update s.cpu c u) : Locks s' := by
  refine h.frame hlock (fun c' => ?_) fun c' => ?_ <;> rw [hcpu, update_apply] <;> split_ifs with hc
  · rw [hc, hheld]
  · rfl
  · rw [hc]
    exact hmode
  · intro _
    rfl

theorem lockTo (h : Locks s) (hm : (s.cpu c).mode = .away p) (hl : s.lock lk = none) : Locks (s.lockTo c lk) where
  count c' := by
    obtain ⟨ls, hnd, hlen, hmem⟩ := h.count c'
    simp only [St.lockTo, update_apply]
    by_cases hc : c' = c
    · subst hc
      refine ⟨lk :: ls, List.nodup_cons.2 ⟨fun hin => ?_, hnd⟩, ?_, fun l => ?_⟩
      · rw [(hmem lk).1 hin] at hl
        cases hl
      · rw [if_pos rfl, List.length_cons, hlen]
      · rw [List.mem_cons, hmem]
        split_ifs with hlk <;> simp [hlk]
    · refine ⟨ls, hnd, ?_, fun l => ?_⟩
      · rw [if_neg hc, hlen]
      · rw [hmem]
        split_ifs with hlk
        · rw [hlk, hl]
          simp [Ne.symm hc]
        · rfl
  off c' hc' := by
    simp only [St.lockTo, update_apply] at hc' ⊢
    split_ifs at hc' ⊢ with hc
    · exact absurd hm (hc' p)
    · exact h.off c' hc'

theorem unlock (h : Locks s) (hl : s.lock lk = some c) : Locks (s.unlock c lk) where
  count c' := by
    obtain ⟨ls, hnd, hlen, hmem⟩ := h.count c'
    simp only [St.unlock, update_apply]
    by_cases hc : c' = c
    · subst hc
      refine ⟨ls.erase lk, hnd.erase lk, ?_, fun l => ?_⟩
      · rw [if_pos rfl, List.length_erase_of_mem ((hmem lk).2 hl), hlen]
      · rw [hnd.mem_erase_iff, hmem]
        split_ifs with hlk <;> simp [hlk]
    · refine ⟨ls, hnd, ?_, fun l => ?_⟩
      · rw [if_neg hc, hlen]
      · rw [hmem]
        split_ifs with hlk
        · rw [hlk, hl]
          simp [Ne.symm hc]
        · rfl
  off c' hc' := by
    simp only [St.unlock, update_apply] at hc' ⊢
    split_ifs at hc' ⊢ with hc
    · obtain ⟨p, hp⟩ := h.away hl
      exact absurd hp (hc' p)
    · exact h.off c' hc'

end Locks

/-! ### The steps of the machine -/

/-- No process lives in the slot, or it is not yet or no longer running. -/
def Proc.dead (q : Proc A) : Prop := q.state = .UNUSED ∨ q.state = .EMBRYO ∨ q.state = .ZOMBIE

/-- The process is neither put to sleep nor killed; if it was SLEEPING, it may be woken up. -/
structure Stirs (q q' : Proc A) : Prop where
  sleeping : q'.state = .SLEEPING → q.state = .SLEEPING
  wakes : q.state = .SLEEPING → q'.state = .SLEEPING ∨ q'.state = .RUNNABLE
  dead : q'.dead → q.dead

namespace Stirs

variable {q q' : Proc A}

theorem of_state (h : q'.state = q.state) : Stirs q q' :=
  ⟨fun hs => h.symm.trans hs, fun hs => .inl (h.trans hs), fun hd => by rwa [Proc.dead, h] at hd⟩

theorem of_runnable (h : q'.state = .RUNNABLE) : Stirs q q' := by
  refine ⟨fun hs => ?_, fun _ => .inr h, fun hd => ?_⟩
  · cases h.symm.trans hs
  · simp [Proc.dead, h] at hd

theorem of_running (hr : q.state ≠ .SLEEPING) (h : q'.state = .RUNNING) : Stirs q q' := by
  refine ⟨fun hs => ?_, fun hs => absurd hs hr, fun hd => ?_⟩
  · cases h.symm.trans hs
  · simp [Proc.dead, h] at hd

theorem of_dead (hd : q.dead) (h : q'.state ≠ .SLEEPING) : Stirs q q' := by
  refine ⟨fun hs => absurd hs h, fun hs => ?_, fun _ => hd⟩
  simp [Proc.dead, hs] at hd

theorem of_roused (h : Roused q q') : Stirs q q' := by
  rcases h.state with hs | ⟨-, hs⟩
  · exact of_state hs
  · exact of_runnable hs

end Stirs

structure LockCtl (s : St C L A) : Prop where
  ctl : Ctl s
  locks : Locks s
  dead : ∀ q, (s.procs q).dead → (s.pc q).stage = .out

/-- Nothing happens to locks and sleepers, except that some may be woken up. -/
structure Quiet (s s' : St C L A) : Prop where
  lock : s'.lock = s.lock
  held : ∀ c, (s'.cpu c).held = (s.cpu c).held
  mode : ∀ c, (s.cpu c).held ≠ 0 → (s'.cpu c).mode = (s.cpu c).mode
  stage : ∀ q, (s'.pc q).stage = (s.pc q).stage
  entry : ∀ q, (s.pc q).stage ≠ .out → Stirs (s.procs q) (s'.procs q)

/-- The steps that take or give back a lock, or belong to `sleep` and `wakeup`. -/
inductive Loud (s : St C L A) : SleepOp L A → St C L A → Prop
  | acquire {c p lk} : (s.cpu c).mode = .away p → s.pc p = .ready ∨ s.pc p = .relock lk → s.lock lk = none →
      Loud s (.acquire p lk) ((s.lockTo c lk).setPc p .ready)
  | release {c p lk} : (s.cpu c).mode = .away p → s.pc p = .ready → s.lock lk = some c →
      Loud s (.release p lk) (s.unlock c lk)
  | call {c p a lk} : (s.cpu c).mode = .away p → s.pc p = .ready →
      Loud s (.call p a lk) (s.setPc p (.sleepEnter a lk))
  | enter {c p a lk} : (s.cpu c).mode = .away p → s.pc p = .sleepEnter a lk →
      Loud s (.enter p a lk) ((s.setPc p (.sleepRelease a lk)).setPtlock (some c))
  | unlock {c p a lk} : (s.cpu c).mode = .away p → s.pc p = .sleepRelease a lk → s.lock lk = some c →
      Loud s (.unlock p a lk) ((s.unlock c lk).setPc p (.sleepMark a lk))
  | mark {c p a lk} : (s.cpu c).mode = .away p → s.pc p = .sleepMark a lk → (s.cpu c).held = 0 →
      Loud s (.mark p a lk) (s.park c p { s.procs p with chan := some (.addr a), state := .SLEEPING } (.slept a lk))
  | resume {c p a lk} : (s.cpu c).mode = .away p → s.pc p = .slept a lk →
      Loud s (.resume p a lk)
        (((s.setProc p fun q => { q with chan := none }).setPc p (.relock lk)).setPtlock none)
  | wakeup {c p a} : (s.cpu c).mode = .away p → s.pc p = .ready → s.ptlock = none →
      Loud s (.wakeup p a) (s.setProcs (wakeup1 (some (.addr a)) s.procs))

section Moves

variable {s s' : St C L A} {c : C} {p : Slot} {o : Op L A}

theorem sleepOp_away (hm : (s.cpu c).mode = .away p) : s.sleepOp (.proc c o) = s.opSleep p o := by
  simp only [St.sleepOp, hm]

theorem stage_update {pc : Pc L A} (h : pc.stage = (s.pc p).stage) (q : Slot) :
    (update s.pc p pc q).stage = (s.pc q).stage := by
  by_cases hq : q = p
  · rw [hq, update_self, h]
  · rw [update_of_ne hq]

namespace Quiet

theorem after {s₁ : St C L A} (h : Quiet s s₁) (hst : ∀ q, (s₁.procs q).state = (s.procs q).state)
    (h' : Quiet s₁ s') : Quiet s s' where
  lock := h'.lock.trans h.lock
  held c := (h'.held c).trans (h.held c)
  mode c hc := (h'.mode c (by rwa [h.held])).trans (h.mode c hc)
  stage q := (h'.stage q).trans (h.stage q)
  entry q hq := by
    obtain ⟨hs, hw, hd⟩ := h'.entry q (by rwa [h.stage])
    simp only [hst, Proc.dead] at hs hw hd
    exact ⟨hs, hw, hd⟩

theorem setProcs (hlock : s'.lock = s.lock) (hcpu : s'.cpu = s.cpu) (hpc : ∀ q, (s'.pc q).stage = (s.pc q).stage)
    (hst : ∀ q, Stirs (s.procs q) (s'.procs q)) : Quiet s s' :=
  ⟨hlock, fun _ => by rw [hcpu], fun _ _ => by rw [hcpu], hpc, fun q _ => hst q⟩

theorem same (hlock : s'.lock = s.lock) (hcpu : s'.cpu = s.cpu) (hpc : ∀ q, (s'.pc q).stage = (s.pc q).stage)
    (hprocs : s'.procs = s.procs) : Quiet s s' :=
  setProcs hlock hcpu hpc fun q => .of_state (by rw [hprocs])

theorem setProc {q : Proc A} (hlock : s'.lock = s.lock) (hcpu : s'.cpu = s.cpu)
    (hpc : ∀ q, (s'.pc q).stage = (s.pc q).stage) (hprocs : s'.procs = update s.procs p q)
    (hq : Stirs (s.procs p) q) : Quiet s s' := by
  refine setProcs hlock hcpu hpc fun r => ?_
  rw [hprocs, update_apply]
  split_ifs with h
  · rw [h]
    exact hq
  · exact .of_state rfl

theorem setCpu {u : Cpu} (hcpu : s'.cpu = update s.cpu c u) (hheld : u.held = (s.cpu c).held)
    (hmode : (s.cpu c).held ≠ 0 → u.mode = (s.cpu c).mode) (hlock : s'.lock = s.lock) (hpc : s'.pc = s.pc)
    (hst : ∀ q, Stirs (s.procs q) (s'.procs q)) : Quiet s s' := by
  refine ⟨hlock, fun c' => ?_, fun c' h => ?_, fun _ => by rw [hpc], fun q _ => hst q⟩
  · rw [hcpu, update_apply]
    split_ifs with hc
    · rw [hc, hheld]
    · rfl
  · rw [hcpu, update_apply]
    split_ifs with hc
    · rw [hc] at h ⊢
      exact hmode h
    · rfl

/-- A process gives up the CPU at a point that is the same place in `sleep`. -/
theorem park (procs : Slot → Proc A) (q : Proc A) (pc : Pc L A) (h0 : (s.cpu c).held = 0)
    (hpc : pc.stage = (s.pc p).stage) (hst : ∀ q, Stirs (s.procs q) (procs q))
    (hq : (s.pc p).stage = .out ∨ Stirs (s.procs p) q) : Quiet s ((s.setProcs procs).park c p q pc) := by
  refine ⟨rfl, fun c' => ?_, fun c' h => ?_, stage_update hpc, fun r hr => ?_⟩ <;>
    simp only [St.park, St.setProcs, update_apply] <;> split_ifs with hc
  · rw [hc]
  · rfl
  · rw [hc] at h
    exact absurd h0 h
  · rfl
  · rw [hc] at hr ⊢
    exact hq.resolve_left hr
  · exact hst r

end Quiet

theorem waits_quiet {s₁ : St C L A} (hm : (s.cpu c).mode = .away p) (hw : s.waits c p o s₁) :
    s.sleepOp (.proc c o) = .none ∧ (s₁.pc p).stage = .out ∧ s₁.cpu = s.cpu ∧
      ∀ {s'}, Quiet s₁ s' → Quiet s s' := by
  rw [sleepOp_away hm]
  cases o with
  | wait =>
    obtain ⟨hpc, -, -, rfl⟩ := hw
    exact ⟨rfl, by rw [hpc]; rfl, rfl, id⟩
  | next =>
    obtain ⟨hpc, -, rfl⟩ := hw
    have hq : Quiet s (s.setProc p fun q => { q with chan := none }) :=
      .setProc rfl rfl (fun _ => rfl) rfl (.of_state rfl)
    refine ⟨by rw [St.opSleep, hpc], by rw [St.setProc_pc, hpc]; rfl, rfl, hq.after fun q => ?_⟩
    by_cases hqp : q = p
    · rw [hqp, St.setProc_procs, update_self]
    · rw [St.setProc_procs, update_of_ne hqp]
  | _ => cases hw

theorem moves_sleep {a : Act C L A} (h : LockCtl s) (hs : Moves s a s') :
    s.sleepOp a = .none ∧ Quiet s s' ∨ Loud s (s.sleepOp a) s' := by
  obtain ⟨hc, hl, hd⟩ := h
  have hdead : ∀ {p np}, (s.call p).child = some np → (s.procs np).dead := fun h => .inr (.inl (hc.child _ _ h))
  have hidle : ∀ c, (∀ p, (s.cpu c).mode ≠ .away p) → ∀ u : Cpu, (s.cpu c).held ≠ 0 → u.mode = (s.cpu c).mode :=
    fun c hm _ h => absurd (hl.off c hm) h
  cases hs with
  | @idle c hm hpt => exact .inl ⟨rfl, .setCpu rfl rfl (hidle c (by simp [hm]) _) rfl rfl fun _ => .of_state rfl⟩
  | @skip c i hm => exact .inl ⟨rfl, .setCpu rfl rfl (hidle c (by simp [hm]) _) rfl rfl fun _ => .of_state rfl⟩
  | @done c i hm hpt => exact .inl ⟨rfl, .setCpu rfl rfl (hidle c (by simp [hm]) _) rfl rfl fun _ => .of_state rfl⟩
  | @switch c i p kstack pgdir hm hp hk hd =>
    refine .inl ⟨rfl, .setCpu rfl rfl (hidle c (by simp [hm]) _) rfl rfl fun q => ?_⟩
    simp only [St.switched, update_apply]
    split_ifs with hq
    · exact .of_running (by rw [hq, hp]; decide) rfl
    · exact .of_state rfl
  | @back c p hm => exact .inl ⟨rfl, .setCpu rfl rfl (hidle c (by simp [hm]) _) rfl rfl fun _ => .of_state rfl⟩
  | nop hm hpc => exact .inl ⟨sleepOp_away hm, .same rfl rfl (fun _ => rfl) rfl⟩
  | @acquire c p lk o hm ho hlk =>
    right
    rcases ho with ⟨rfl, hpc⟩ | ⟨rfl, hpc⟩
    · rw [sleepOp_away hm]
      exact .acquire hm (.inl hpc) hlk
    · rw [sleepOp_away hm, St.opSleep, hpc]
      exact .acquire hm (.inr hpc) hlk
  | release hm hpc hlk =>
    rw [sleepOp_away hm]
    exact .inr (.release hm hpc hlk)
  | @yield c p lk hm hpc hpt hheld =>
    refine .inl ⟨sleepOp_away hm, .park s.procs _ _ hheld ?_ (fun _ => .of_state rfl) (.inr (.of_runnable rfl))⟩
    rcases hpc with ⟨hpc, rfl⟩ | ⟨l, hpc, rfl⟩ <;> rw [hpc] <;> rfl
  | sleep hm hpc =>
    rw [sleepOp_away hm]
    exact .inr (.call hm hpc)
  | sleepEnter hm hpc hpt =>
    rw [sleepOp_away hm, St.opSleep, hpc]
    exact .inr (.enter hm hpc)
  | sleepRelease hm hpc hlk =>
    rw [sleepOp_away hm, St.opSleep, hpc]
    exact .inr (.unlock hm hpc hlk)
  | sleepMark hm hpc hpt hheld =>
    rw [sleepOp_away hm, St.opSleep, hpc]
    exact .inr (.mark hm hpc hheld)
  | @resume c p pc q hm hr hpt =>
    rw [sleepOp_away hm, St.opSleep]
    unfold Pc.resume at hr
    split at hr <;> rename_i hpc <;> cases hr <;> rw [hpc]
    · exact .inl ⟨rfl, .setProc rfl rfl (stage_update (by rw [St.setProc_pc, hpc]; rfl)) rfl (.of_state rfl)⟩
    · exact .inl ⟨rfl, .setProc rfl rfl (stage_update (by rw [St.setProc_pc, hpc]; rfl)) rfl (.of_state rfl)⟩
    · exact .inl ⟨rfl, .setProc rfl rfl (stage_update (by rw [St.setProc_pc, hpc]; rfl)) rfl (.of_state rfl)⟩
    · exact .inr (.resume hm hpc)
  | @exit c p hm hpc hcall hp hpt hheld =>
    have hout : (s.pc p).stage = .out := by rw [hpc]; rfl
    have hst := fun q => Stirs.of_roused (exitTable_roused s p q)
    exact .inl ⟨sleepOp_away hm, .park _ _ _ hheld hout.symm hst (.inl hout)⟩
  | @reap c p z kstack pgdir o s1 hm hw hz hk hd =>
    obtain ⟨hop, hout, -, hq⟩ := waits_quiet hm hw
    have hzd : (s1.procs z).dead := .inr (.inr (firstSlot_zombie hz).2)
    exact .inl ⟨hop, hq (.setProc rfl rfl (stage_update hout.symm) rfl (.of_dead hzd (by simp)))⟩
  | @waitFail c p o s1 hm hw hz hk =>
    obtain ⟨hop, hout, -, hq⟩ := waits_quiet hm hw
    exact .inl ⟨hop, hq (.same rfl rfl (stage_update hout.symm) rfl)⟩
  | @waitSleep c p o s1 hm hw hz hheld =>
    obtain ⟨hop, hout, hcpu, hq⟩ := waits_quiet hm hw
    rw [← hcpu] at hheld
    exact .inl ⟨hop, hq (.park s1.procs _ _ hheld hout.symm (fun _ => .of_state rfl) (.inl hout))⟩
  | wakeup hm hpc hpt =>
    rw [sleepOp_away hm]
    exact .inr (.wakeup hm hpc hpt)
  | @killHit c p q pid hm hpc hpt hq =>
    refine .inl ⟨sleepOp_away hm, .setProc rfl rfl (fun _ => rfl) rfl ?_⟩
    by_cases hs : (s.procs q).state = .SLEEPING
    · exact .of_runnable (if_pos hs)
    · exact .of_state (if_neg hs)
  | killMiss hm hpc hpt hq => exact .inl ⟨sleepOp_away hm, .same rfl rfl (fun _ => rfl) rfl⟩
  | trap hm hpc hc => exact .inl ⟨sleepOp_away hm, .setProc rfl rfl (fun _ => rfl) rfl (.of_state rfl)⟩
  | forkFull hm hpc hc hpt hu => exact .inl ⟨sleepOp_away hm, .same rfl rfl (fun _ => rfl) rfl⟩
  | @forkAlloc c p np hm hpc hc hpt hu =>
    have hnp : (s.procs np).dead := .inl (firstSlot_unused hu)
    exact .inl ⟨sleepOp_away hm, .setProc rfl rfl (fun _ => rfl) rfl (.of_dead hnp (by simp))⟩
  | stackFail hm hpc hc =>
    exact .inl ⟨sleepOp_away hm, .setProc rfl rfl (fun _ => rfl) rfl (.of_dead (hdead (by rw [hc]; rfl)) (by simp))⟩
  | @stackOk c p np page hm hpc hc hu =>
    have hnp := hdead (p := p) (by rw [hc]; rfl)
    exact .inl ⟨sleepOp_away hm, .setProc rfl rfl (stage_update (hd np hnp).symm) rfl (.of_state rfl)⟩
  | copyFail hm hpc hc hk =>
    exact .inl ⟨sleepOp_away hm, .setProc rfl rfl (fun _ => rfl) rfl (.of_dead (hdead (by rw [hc]; rfl)) (by simp))⟩
  | copyOk hm hpc hc hu => exact .inl ⟨sleepOp_away hm, .setProc rfl rfl (fun _ => rfl) rfl (.of_state rfl)⟩
  | forkParent hm hpc hc => exact .inl ⟨sleepOp_away hm, .setProc rfl rfl (fun _ => rfl) rfl (.of_state rfl)⟩
  | forkRun hm hpc hc hpt =>
    exact .inl ⟨sleepOp_away hm, .setProc rfl rfl (fun _ => rfl) rfl (.of_runnable rfl)⟩
  | @load c p pgdir o call hm hpc hc hd =>
    refine .inl ⟨?_, .setCpu rfl rfl (fun _ => rfl) rfl rfl fun _ => .of_state rfl⟩
    rw [sleepOp_away hm]
    rcases hc with ⟨rfl, -⟩ | ⟨_, rfl, -⟩ <;> rfl
  | execNone hm hpc hc => exact .inl ⟨sleepOp_away hm, .same rfl rfl (fun _ => rfl) rfl⟩
  | execAlloc hm hpc hc hu => exact .inl ⟨sleepOp_away hm, .same rfl rfl (fun _ => rfl) rfl⟩
  | execFail hm hpc hc => exact .inl ⟨sleepOp_away hm, .same rfl rfl (fun _ => rfl) rfl⟩
  | execCommit hm hpc hc hd => exact .inl ⟨sleepOp_away hm, .setProc rfl rfl (fun _ => rfl) rfl (.of_state rfl)⟩
  | execFree hm hpc hc => exact .inl ⟨sleepOp_away hm, .same rfl rfl (fun _ => rfl) rfl⟩

/-! ### The view -/

section Stage

variable {pc : Pc L A} {a : A} {lk : L}

theorem Pc.stage_eq_unlock (h : pc.stage = .unlock a lk) : pc = .sleepRelease a lk := by
  unfold Pc.stage at h
  split at h <;> cases h
  rfl

theorem Pc.stage_eq_mark (h : pc.stage = .mark a lk) : pc = .sleepMark a lk := by
  unfold Pc.stage at h
  split at h <;> cases h
  rfl

theorem Pc.stage_eq_slept (h : pc.stage = .slept a lk) : pc = .slept a lk := by
  unfold Pc.stage at h
  split at h <;> cases h
  rfl

end Stage

namespace LockCtl

/-- While `ptable.lock` is free, nobody is between taking it and `sched`. -/
theorem not_locked {q : Slot} (h : LockCtl s) (hpt : s.ptlock = none) (hl : (s.pc q).locked = true)
    (hp : (s.pc q).parked = false) (hout : (s.pc q).stage ≠ .out) : False := by
  have hpark : ∀ st, (s.procs q).state = st → st = .RUNNABLE ∨ st = .SLEEPING → False := fun st hst h' => by
    rw [h.ctl.parked q (by rw [hst]; exact h')] at hp
    cases hp
  cases hst : (s.procs q).state with
  | UNUSED => exact hout (h.dead q (.inl hst))
  | EMBRYO => exact hout (h.dead q (.inr (.inl hst)))
  | ZOMBIE => exact hout (h.dead q (.inr (.inr hst)))
  | SLEEPING => exact hpark _ hst (.inr rfl)
  | RUNNABLE => exact hpark _ hst (.inl rfl)
  | RUNNING =>
    obtain ⟨c, hm⟩ := h.ctl.running q hst
    rw [(h.ctl.away c q hm).2.2.1 hl] at hpt
    cases hpt

theorem slept {q : Slot} (h : LockCtl s) (hst : (s.procs q).state = .SLEEPING) (hout : (s.pc q).stage ≠ .out) :
    ∃ a lk, s.pc q = .slept a lk := by
  obtain ⟨hch, hne⟩ := h.ctl.chan q hst
  rw [hch] at hne
  cases hpc : s.pc q with
  | slept a lk => exact ⟨a, lk, rfl⟩
  | waitSlept => rw [hpc] at hout; exact absurd rfl hout
  | _ => rw [hpc] at hne; exact absurd rfl hne

theorem asleep_on {q : Slot} {a : A} (h : LockCtl s) (hst : (s.procs q).state = .SLEEPING)
    (hch : (s.procs q).chan = some (.addr a)) : ∃ lk, s.pc q = .slept a lk ∧ s.asleep q = true := by
  have hpc := (h.ctl.chan q hst).1.symm.trans hch
  cases hq : s.pc q <;> rw [hq] at hpc <;> cases hpc
  exact ⟨_, rfl, decide_eq_true ⟨hst, by rw [hq]; simp [Pc.stage]⟩⟩

end LockCtl

theorem holder_of_lock {lk : L} (hlk : s.lock lk = some c) (hm : (s.cpu c).mode = .away p) :
    s.holder lk = some p := by
  simp only [St.holder, hlk, Option.bind_some, hm]

theorem holder_none {lk : L} (hlk : s.lock lk = none) : s.holder lk = none := by
  simp only [St.holder, hlk, Option.bind_none]

theorem LockCtl.running {lk : L} {q : Slot} (h : LockCtl s) (hq : s.holder lk = some q) :
    (s.procs q).state = .RUNNING := by
  obtain ⟨c, hlk, hq⟩ := Option.bind_eq_some_iff.1 hq
  obtain ⟨p, hm⟩ := h.locks.away hlk
  rw [hm] at hq
  cases hq
  exact (h.ctl.away c q hm).1

theorem holder_frame (h : Locks s) (hlock : s'.lock = s.lock)
    (hmode : ∀ c, (s.cpu c).held ≠ 0 → (s'.cpu c).mode = (s.cpu c).mode) : s'.holder = s.holder := by
  funext lk
  unfold St.holder
  rw [hlock]
  cases hc : s.lock lk with
  | none => rfl
  | some c => simp only [Option.bind_some, hmode c (h.held_ne hc)]

theorem holder_lockTo {lk : L} (hm : (s.cpu c).mode = .away p) :
    (s.lockTo c lk).holder = update s.holder lk (some p) := by
  have hmode : ∀ c', ((s.lockTo c lk).cpu c').mode = (s.cpu c').mode := fun c' => by
    simp only [St.lockTo, update_apply]
    split_ifs with hc
    · rw [hc]
    · rfl
  funext l
  unfold St.holder
  simp only [hmode]
  by_cases hlk : l = lk
  · subst hlk
    simp [hm]
  · simp [hlk]

theorem holder_unlock {lk : L} : (s.unlock c lk).holder = update s.holder lk none := by
  have hmode : ∀ c', ((s.unlock c lk).cpu c').mode = (s.cpu c').mode := fun c' => by
    simp only [St.unlock, update_apply]
    split_ifs with hc
    · rw [hc]
    · rfl
  funext l
  unfold St.holder
  simp only [hmode]
  by_cases hlk : l = lk
  · subst hlk
    simp
  · simp [hlk]

theorem stages_setPc {pc : Pc L A} :
    (fun q => (update s.pc p pc q).stage) = update (fun q => (s.pc q).stage) p pc.stage :=
  funext fun q => by
    by_cases hq : q = p
    · rw [hq, update_self, update_self]
    · rw [update_of_ne hq, update_of_ne hq]

theorem asleep_setPc {pc : Pc L A} (hp : (s.procs p).state ≠ .SLEEPING)
    (hprocs : ∀ q, (s'.procs q).state = (s.procs q).state) (hpc : s'.pc = update s.pc p pc) :
    s'.asleep = s.asleep := by
  funext q
  unfold St.asleep
  rw [hprocs, hpc]
  by_cases hq : q = p
  · subst hq
    simp [hp]
  · rw [update_of_ne hq]

theorem loud_sleepers {op : SleepOp L A} (h : LockCtl s) (hs : Loud s op s') : s.sleepers.Step op s'.sleepers := by
  have hrun : ∀ {c p}, (s.cpu c).mode = .away p → (s.procs p).state ≠ .SLEEPING := fun hm hs => by
    rw [(h.ctl.away _ _ hm).1] at hs
    cases hs
  cases hs with
  | @acquire c p lk hm hpc hlk =>
    refine ⟨holder_none hlk, ?_, ?_⟩
    · rcases hpc with hpc | hpc
      · exact .inl (by simp only [St.sleepers, hpc]; rfl)
      · exact .inr (by simp only [St.sleepers, hpc]; rfl)
    · ext1
      · exact holder_lockTo hm
      · exact stages_setPc
      · exact asleep_setPc (hrun hm) (fun _ => rfl) rfl
  | @release c p lk hm hpc hlk =>
    refine ⟨holder_of_lock hlk hm, by simp only [St.sleepers, hpc]; rfl, ?_⟩
    ext1
    · exact holder_unlock
    · rfl
    · rfl
  | @call c p a lk hm hpc =>
    refine ⟨by simp only [St.sleepers, hpc]; rfl, ?_⟩
    ext1
    · rfl
    · exact stages_setPc
    · exact asleep_setPc (hrun hm) (fun _ => rfl) rfl
  | @enter c p a lk hm hpc =>
    refine ⟨by simp only [St.sleepers, hpc]; rfl, ?_⟩
    ext1
    · rfl
    · exact stages_setPc
    · exact asleep_setPc (hrun hm) (fun _ => rfl) rfl
  | @unlock c p a lk hm hpc hlk =>
    refine ⟨by simp only [St.sleepers, hpc]; rfl, holder_of_lock hlk hm, ?_⟩
    ext1
    · exact holder_unlock
    · exact stages_setPc
    · exact asleep_setPc (hrun hm) (fun _ => rfl) rfl
  | @mark c p a lk hm hpc hheld =>
    refine ⟨by simp only [St.sleepers, hpc]; rfl, ?_⟩
    ext1
    · refine holder_frame h.locks rfl fun c' hc' => ?_
      simp only [St.park, update_apply]
      split_ifs with hc
      · rw [hc] at hc'
        exact absurd hheld hc'
      · rfl
    · exact stages_setPc
    · funext q
      simp only [St.sleepers, St.asleep, St.park]
      by_cases hq : q = p
      · subst hq
        simp [Pc.stage]
      · simp [hq, St.asleep]
  | @resume c p a lk hm hpc =>
    refine ⟨by simp only [St.sleepers, hpc]; rfl, ?_, ?_⟩
    · simp [St.sleepers, St.asleep, hrun hm]
    · have hst : ∀ q, (update s.procs p { s.procs p with chan := none } q).state = (s.procs q).state := fun q => by
        by_cases hq : q = p
        · rw [hq, update_self]
        · rw [update_of_ne hq]
      ext1
      · rfl
      · exact stages_setPc
      · exact asleep_setPc (hrun hm) hst rfl
  | @wakeup c p a hm hpc hpt =>
    refine ⟨by simp only [St.sleepers, hpc]; rfl, fun q b lk => ?_, rfl, rfl, fun q => ?_⟩
    · constructor <;> intro hq
      · exact h.not_locked hpt (by rw [Pc.stage_eq_unlock hq]; rfl) (by rw [Pc.stage_eq_unlock hq]; rfl)
          (fun ho => by cases hq.symm.trans ho)
      · exact h.not_locked hpt (by rw [Pc.stage_eq_mark hq]; rfl) (by rw [Pc.stage_eq_mark hq]; rfl)
          (fun ho => by cases hq.symm.trans ho)
    · simp only [St.sleepers, St.asleep, decide_eq_true_eq]
      constructor
      · rintro ⟨hst, hout⟩
        have hold := (wakeup1_roused s.procs q).sleeping hst
        refine ⟨⟨hold, hout⟩, fun lk hlk => wakeup1_awake hst ?_⟩
        rw [(h.ctl.chan q hold).1, Pc.stage_eq_slept hlk]
        rfl
      · rintro ⟨⟨hst, hout⟩, hne⟩
        refine ⟨?_, hout⟩
        obtain ⟨b, lk, hpc'⟩ := h.slept hst hout
        have hch : (s.procs q).chan ≠ some (.addr a) := by
          rw [(h.ctl.chan q hst).1, hpc']
          rintro ⟨⟩
          exact hne lk (by rw [hpc']; rfl)
        show (wakeup1 (some (.addr a)) s.procs q).state = .SLEEPING
        rw [wakeup1, if_neg fun hb => hch hb.2]
        exact hst

theorem quiet_sleepers (h : LockCtl s) (hs : Quiet s s') : s.sleepers.Step .none s'.sleepers := by
  refine ⟨holder_frame h.locks hs.lock hs.mode, funext hs.stage, fun q hq => ?_⟩
  obtain ⟨hst, hout⟩ := of_decide_eq_true hq
  rw [hs.stage] at hout
  exact decide_eq_true ⟨(hs.entry q hout).sleeping hst, hout⟩

theorem loud_locks {op : SleepOp L A} (h : Locks s) (hs : Loud s op s') : Locks s' := by
  cases hs with
  | acquire hm hpc hlk => exact (h.lockTo hm hlk).congr rfl rfl
  | release hm hpc hlk => exact h.unlock hlk
  | unlock hm hpc hlk => exact (h.unlock hlk).congr rfl rfl
  | @mark c p a lk hm hpc hheld =>
    exact h.setCpu { s.cpu c with stack := none, mode := .back p } rfl (fun hne => absurd hheld hne) rfl rfl
  | _ => exact h.congr rfl rfl

theorem loud_dead {op : SleepOp L A} (h : LockCtl s) (hs : Loud s op s') (q : Slot) (hq : (s'.procs q).dead) :
    (s'.pc q).stage = .out := by
  have hrun : ∀ {c p}, (s.cpu c).mode = .away p → ¬ (s.procs p).dead := fun hm hd => by
    simp [Proc.dead, (h.ctl.away _ _ hm).1] at hd
  have hgo : ∀ {c p} {pc : Pc L A}, (s.cpu c).mode = .away p → (s.procs q).dead → (update s.pc p pc q).stage = .out :=
    fun {c p pc} hm hd => by
      rw [update_of_ne (fun he => hrun hm (by rwa [he] at hd))]
      exact h.dead q hd
  cases hs with
  | acquire hm hpc hlk => exact hgo hm hq
  | release hm hpc hlk => exact h.dead q hq
  | call hm hpc => exact hgo hm hq
  | enter hm hpc => exact hgo hm hq
  | unlock hm hpc hlk => exact hgo hm hq
  | @mark c p a lk hm hpc hheld =>
    by_cases hqp : q = p
    · subst hqp
      rw [St.park_procs, update_self] at hq
      simp [Proc.dead] at hq
    · rw [St.park_procs, update_of_ne hqp] at hq
      exact hgo hm hq
  | @resume c p a lk hm hpc =>
    by_cases hqp : q = p
    · subst hqp
      simp only [St.setPtlock_procs, St.setPc_procs, St.setProc_procs, update_self] at hq
      exact absurd hq (hrun hm)
    · simp only [St.setPtlock_procs, St.setPc_procs, St.setProc_procs, update_of_ne hqp] at hq
      exact hgo hm hq
  | wakeup hm hpc hpt => exact h.dead q ((Stirs.of_roused (wakeup1_roused s.procs q)).dead hq)

theorem LockCtl.moves {a : Act C L A} (h : LockCtl s) (hs : Moves s a s') : LockCtl s' := by
  refine ⟨h.ctl.moves hs, ?_, ?_⟩ <;> rcases moves_sleep h hs with ⟨-, hq⟩ | hq
  · exact h.locks.frame hq.lock hq.held hq.mode
  · exact loud_locks h.locks hq
  · intro q hd
    rw [hq.stage]
    by_contra hout
    exact hout (h.dead q ((hq.entry q hout).dead hd))
  · exact loud_dead h hq

/-- Whoever is SLEEPING stays so or is made RUNNABLE. -/
theorem LockCtl.wakes {a : Act C L A} {q : Slot} (h : LockCtl s) (hs : Moves s a s') (hq : s.asleep q = true) :
    (s'.procs q).state = .SLEEPING ∨ (s'.procs q).state = .RUNNABLE := by
  obtain ⟨hst, hout⟩ := of_decide_eq_true hq
  rcases moves_sleep h hs with ⟨-, hQ⟩ | hL
  · exact (hQ.entry q hout).wakes hst
  have hne : ∀ {c p}, (s.cpu c).mode = .away p → q ≠ p := fun hm he => by
    rw [he, (h.ctl.away _ _ hm).1] at hst
    cases hst
  generalize s.sleepOp a = op at hL
  cases hL with
  | mark hm hpc hheld =>
    left
    rw [St.park_procs, update_of_ne (hne hm)]
    exact hst
  | resume hm hpc =>
    left
    simp only [St.setPtlock_procs, St.setPc_procs, St.setProc_procs, update_of_ne (hne hm)]
    exact hst
  | wakeup hm hpc hpt => exact (Stirs.of_roused (wakeup1_roused s.procs q)).wakes hst
  | _ => exact .inl hst

theorem moves_sleepers {a : Act C L A} (h : LockCtl s) (hs : Moves s a s') :
    s.sleepers.Step (s.sleepOp a) s'.sleepers := by
  rcases moves_sleep h hs with ⟨hop, hq⟩ | hq
  · rw [hop]
    exact quiet_sleepers h hq
  · exact loud_sleepers h hq

end Moves

theorem init_lockCtl : LockCtl (init : St C L A) := by
  refine ⟨init_ctl, ⟨fun c => ⟨[], List.nodup_nil, rfl, fun lk => by simp [init]⟩, fun c _ => rfl⟩, fun q _ => ?_⟩
  simp only [init]
  split_ifs <;> rfl

theorem reachable_lockCtl {s : St C L A} (h : Machine.Reachable step init s) : LockCtl s :=
  h.inv init_lockCtl fun _ _ _ hi _ hs => hi.moves (step_moves hs)

theorem step_sleepers {s s' : St C L A} {a : Act C L A} (h : Machine.Reachable step init s)
    (hs : step s a = some s') : s.sleepers.Step (s.sleepOp a) s'.sleepers :=
  moves_sleepers (reachable_lockCtl h) (step_moves hs)

end Xv6.Sched
