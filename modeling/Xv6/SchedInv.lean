import Xv6.SchedMoves

/-!
# Where CPUs and processes can be

`Ctl` relates the `scheduler` loops of the CPUs, the owner of `ptable.lock`, the states in the table
and the positions of the processes. It is kept by every step; what holds of the table in every
reachable state is derived from it in the modules that import this one.
-/

namespace Xv6.Sched

open Function
open ProcMem (NPROC ProcState)

set_option linter.unusedSectionVars false

variable {C L A : Type} [DecidableEq C] [DecidableEq L] [DecidableEq A]

namespace Pc

def parked : Pc L A → Bool
  | forkret | yielded _ | slept _ _ | waitSlept => true
  | _ => false

def locked : Pc L A → Bool
  | sleepRelease _ _ | sleepMark _ _ => true
  | pc => pc.parked

def chan (p : Slot) : Pc L A → Option (Chan A)
  | slept a _ => some (.addr a)
  | waitSlept => some (.proc p)
  | _ => none

theorem locked_of_parked {pc : Pc L A} (h : pc.parked = true) : pc.locked = true := by
  cases pc <;> first | rfl | cases h

theorem not_locked_resume {pc pc' : Pc L A} {q q' : Proc A} (h : pc.resume q = some (pc', q')) :
    pc'.locked = false ∧ q'.state = q.state ∧ pc'.parked = false := by
  unfold resume at h
  split at h <;> cases h <;> exact ⟨rfl, rfl, rfl⟩

end Pc

namespace Call

/-- The slot a `fork` in progress has taken. -/
def child : Call → Option Slot
  | forkStack np | forkCopy np | forkParent np | forkRun np => some np
  | _ => Option.none

/-- The same, once it has a kernel stack with a context on it. -/
def built : Call → Option Slot
  | forkCopy np | forkParent np | forkRun np => some np
  | _ => Option.none

theorem child_of_built {call : Call} {np : Slot} (h : call.built = some np) : call.child = some np := by
  cases call <;> first | exact h | cases h

end Call

/-! ### Waking up -/

/-- `q'` is `q`, perhaps woken up and perhaps with another parent. -/
structure Roused (q q' : Proc A) : Prop where
  state : q'.state = q.state ∨ q.state = .SLEEPING ∧ q'.state = .RUNNABLE
  pid : q'.pid = q.pid
  killed : q'.killed = q.killed
  chan : q'.chan = q.chan
  kstack : q'.kstack = q.kstack
  pgdir : q'.pgdir = q.pgdir

theorem Roused.refl (q : Proc A) : Roused q q := ⟨.inl rfl, rfl, rfl, rfl, rfl, rfl⟩

theorem Roused.trans {q₁ q₂ q₃ : Proc A} (h : Roused q₁ q₂) (h' : Roused q₂ q₃) : Roused q₁ q₃ where
  state := by
    rcases h.state with hs | ⟨hs, hr⟩
    · rw [← hs]
      exact h'.state
    · rcases h'.state with hs' | ⟨hs', -⟩
      · exact .inr ⟨hs, hs'.trans hr⟩
      · rw [hr] at hs'
        cases hs'
  pid := h'.pid.trans h.pid
  killed := h'.killed.trans h.killed
  chan := h'.chan.trans h.chan
  kstack := h'.kstack.trans h.kstack
  pgdir := h'.pgdir.trans h.pgdir

section Wake

variable {procs : Slot → Proc A} {ch : Option (Chan A)} {init p q : Slot}

theorem wakeup1_roused (procs : Slot → Proc A) (q : Slot) : Roused (procs q) (wakeup1 ch procs q) := by
  unfold wakeup1
  split_ifs with h
  · exact ⟨.inr ⟨h.1, rfl⟩, rfl, rfl, rfl, rfl, rfl⟩
  · exact .refl _

theorem wakeup1_parent : (wakeup1 ch procs q).parent = (procs q).parent := by
  unfold wakeup1
  split_ifs <;> rfl

theorem wakeup1_awake (h : (wakeup1 ch procs q).state = .SLEEPING) : (procs q).chan ≠ ch := by
  intro hch
  by_cases hs : (procs q).state = .SLEEPING
  · rw [wakeup1, if_pos ⟨hs, hch⟩] at h
    cases h
  · rw [wakeup1, if_neg (fun h => hs h.1)] at h
    exact hs h

theorem Roused.sleeping {q q' : Proc A} (h : Roused q q') (hs : q'.state = .SLEEPING) : q.state = .SLEEPING := by
  rcases h.state with h | ⟨h, -⟩
  · exact h.symm.trans hs
  · exact h

theorem Roused.zombie {q q' : Proc A} (h : Roused q q') : q'.state = .ZOMBIE ↔ q.state = .ZOMBIE := by
  rcases h.state with h | ⟨h, h'⟩
  · rw [h]
  · rw [h, h']
    decide

theorem passChild_roused (procs : Slot → Proc A) (z q : Slot) : Roused (procs q) (passChild init p procs z q) := by
  have hup : Roused (procs q) (update procs z { procs z with parent := some init } q) := by
    by_cases hq : q = z
    · subst hq
      rw [update_self]
      exact ⟨.inl rfl, rfl, rfl, rfl, rfl, rfl⟩
    · rw [update_of_ne hq]
      exact .refl _
  unfold passChild
  split_ifs
  · exact hup.trans (wakeup1_roused _ q)
  · exact hup
  · exact .refl _

theorem passChild_parent (procs : Slot → Proc A) (z q : Slot) : (passChild init p procs z q).parent =
    if q = z ∧ (procs q).parent = some p then some init else (procs q).parent := by
  by_cases hz : (procs z).parent = some p
  · have hpar : (passChild init p procs z q).parent =
        (update procs z { procs z with parent := some init } q).parent := by
      rw [passChild, if_pos hz]
      dsimp only
      split_ifs
      · exact wakeup1_parent
      · rfl
    rw [hpar]
    by_cases hq : q = z
    · subst hq
      rw [update_self, if_pos ⟨rfl, hz⟩]
    · rw [update_of_ne hq, if_neg fun h => hq h.1]
  · rw [passChild, if_neg hz, if_neg]
    rintro ⟨rfl, h⟩
    exact hz h

theorem foldl_passChild_roused (l : List Slot) (procs : Slot → Proc A) (q : Slot) :
    Roused (procs q) (l.foldl (passChild init p) procs q) := by
  induction l generalizing procs with
  | nil => exact .refl _
  | cons z l ih => exact (passChild_roused procs z q).trans (ih _)

theorem foldl_passChild_parent (l : List Slot) (procs : Slot → Proc A) (q : Slot) :
    (l.foldl (passChild init p) procs q).parent =
      if q ∈ l ∧ (procs q).parent = some p then some init else (procs q).parent := by
  induction l generalizing procs with
  | nil => rw [if_neg fun h => List.not_mem_nil h.1]; rfl
  | cons z l ih =>
    rw [List.foldl_cons, ih, passChild_parent]
    by_cases hp : (procs q).parent = some p
    · by_cases hq : q = z
      · subst hq
        simp [hp]
      · simp [hq, hp]
    · simp [hp]

/-- A child that is already a zombie wakes `init` up. -/
theorem foldl_passChild_awake (l : List Slot) (procs : Slot → Proc A) {y : Slot} (hy : y ∈ l)
    (hp : (procs y).parent = some p) (hz : (procs y).state = .ZOMBIE)
    (hs : (l.foldl (passChild init p) procs q).state = .SLEEPING) : (procs q).chan ≠ some (.proc init) := by
  induction l generalizing procs with
  | nil => cases hy
  | cons z l ih =>
    by_cases hyz : y = z
    · subst hyz
      have hs' := (foldl_passChild_roused l _ q).sleeping hs
      rw [passChild, if_pos hp] at hs'
      dsimp only at hs'
      rw [if_pos hz] at hs'
      have := wakeup1_awake hs'
      rw [update_apply] at this
      split_ifs at this with hq
      · rw [hq]
        exact this
      · exact this
    · have hch : (passChild init p procs z q).chan = (procs q).chan := (passChild_roused procs z q).chan
      rw [← hch]
      refine ih _ (List.mem_of_ne_of_mem hyz hy) ?_ ((passChild_roused procs z y).zombie.2 hz) hs
      rw [passChild_parent, if_neg fun h => hyz h.1, hp]

theorem passChildren_roused (procs : Slot → Proc A) (q : Slot) : Roused (procs q) (passChildren init p procs q) := by
  rw [passChildren_eq]
  exact foldl_passChild_roused _ procs q

theorem passChildren_parent (procs : Slot → Proc A) (q : Slot) : (passChildren init p procs q).parent =
    if (procs q).parent = some p then some init else (procs q).parent := by
  rw [passChildren_eq, foldl_passChild_parent]
  simp [List.mem_finRange]

theorem passChildren_awake {y : Slot} (hp : (procs y).parent = some p) (hz : (procs y).state = .ZOMBIE)
    (hs : (passChildren init p procs q).state = .SLEEPING) : (procs q).chan ≠ some (.proc init) := by
  rw [passChildren_eq] at hs
  exact foldl_passChild_awake _ procs (List.mem_finRange y) hp hz hs

end Wake

section ExitTable

variable {s : St C L A} {p q : Slot}

theorem exitTable_roused (s : St C L A) (p q : Slot) : Roused (s.procs q) (s.exitTable p q) :=
  (wakeup1_roused s.procs q).trans (passChildren_roused _ q)

theorem exitTable_parent (s : St C L A) (p q : Slot) : (s.exitTable p q).parent =
    if (s.procs q).parent = some p then some s.initproc else (s.procs q).parent := by
  rw [St.exitTable, passChildren_parent, wakeup1_parent]

end ExitTable

theorem firstSlot_eq {procs : Slot → Proc A} {f : Proc A → Bool} {q : Slot} (h : firstSlot procs f = some q) :
    f (procs q) = true := by
  unfold firstSlot at h
  simpa using List.find?_some h

theorem firstSlot_none {procs : Slot → Proc A} {f : Proc A → Bool} (h : firstSlot procs f = none) (q : Slot) :
    f (procs q) = false := by
  have := List.find?_eq_none.1 h q (List.mem_finRange q)
  exact Bool.eq_false_iff.2 this

theorem firstSlot_unused {procs : Slot → Proc A} {np : Slot}
    (h : (firstSlot procs fun q => q.state = .UNUSED) = some np) : (procs np).state = .UNUSED :=
  of_decide_eq_true (firstSlot_eq h)

theorem firstSlot_zombie {procs : Slot → Proc A} {p z : Slot}
    (h : (firstSlot procs fun z => z.parent = some p ∧ z.state = .ZOMBIE) = some z) :
    (procs z).parent = some p ∧ (procs z).state = .ZOMBIE := of_decide_eq_true (firstSlot_eq h)

structure Ctl (s : St C L A) : Prop where
  away : ∀ c p, (s.cpu c).mode = .away p → (s.procs p).state = .RUNNING ∧ (s.cpu c).proc = some p ∧
    ((s.pc p).locked = true ↔ s.ptlock = some c)
  unique : ∀ c c' p, (s.cpu c).mode = .away p → (s.cpu c').mode = .away p → c = c'
  running : ∀ p, (s.procs p).state = .RUNNING → ∃ c, (s.cpu c).mode = .away p
  back : ∀ c p, (s.cpu c).mode = .back p → s.ptlock = some c ∧
    ((s.procs p).state = .RUNNABLE ∨ (s.procs p).state = .SLEEPING ∨ (s.procs p).state = .ZOMBIE)
  scan : ∀ c i, (s.cpu c).mode = .scan i → s.ptlock = some c ∧ (s.cpu c).proc = none
  idle : ∀ c, (s.cpu c).mode = .idle → s.ptlock ≠ some c ∧ (s.cpu c).proc = none
  parked : ∀ p, (s.procs p).state = .RUNNABLE ∨ (s.procs p).state = .SLEEPING → (s.pc p).parked = true
  chan : ∀ p, (s.procs p).state = .SLEEPING → (s.procs p).chan = (s.pc p).chan p ∧ (s.procs p).chan ≠ none
  child : ∀ p np, (s.call p).child = some np → (s.procs np).state = .EMBRYO
  forker : ∀ p q np, (s.call p).child = some np → (s.call q).child = some np → p = q
  built : ∀ p np, (s.call p).built = some np → s.pc np = .forkret
  quiet : ∀ p, (s.procs p).state = .UNUSED ∨ (s.procs p).state = .EMBRYO ∨ (s.procs p).state = .ZOMBIE →
    s.call p = .none

namespace Ctl

variable {s s' : St C L A} {c : C} {p np z : Slot}

/-! ### One kind of step after the other -/

theorem wake (h : Ctl s) (hcpu : ∀ c, (s'.cpu c).mode = (s.cpu c).mode ∧ (s'.cpu c).proc = (s.cpu c).proc)
    (hpt : s'.ptlock = s.ptlock) (hpc : ∀ p, s'.pc p = s.pc p) (hcall : ∀ p, s'.call p = s.call p)
    (hst : ∀ p, (s'.procs p).state = (s.procs p).state ∧
        ((s.procs p).state = .SLEEPING → (s'.procs p).chan = (s.procs p).chan) ∨
      (s.procs p).state = .SLEEPING ∧ (s'.procs p).state = .RUNNABLE) : Ctl s' := by
  obtain ⟨away, unique, running, back, scan, idle, parked, chan, child, forker, built, quiet⟩ := h
  constructor <;> grind

theorem congr (h : Ctl s) (hcpu : s'.cpu = s.cpu) (hpt : s'.ptlock = s.ptlock) (hpc : s'.pc = s.pc)
    (hcall : s'.call = s.call) (hprocs : s'.procs = s.procs) : Ctl s' :=
  h.wake (fun _ => by rw [hcpu]; exact ⟨rfl, rfl⟩) hpt (congrFun hpc) (congrFun hcall)
    fun _ => .inl (by rw [hprocs]; exact ⟨rfl, fun _ => rfl⟩)

theorem setCpu (u : Cpu) (h : Ctl s) (hm : u.mode = (s.cpu c).mode) (hp : u.proc = (s.cpu c).proc) :
    Ctl (s.setCpu c fun _ => u) := by
  refine h.wake (fun c' => ?_) rfl (fun _ => rfl) (fun _ => rfl) fun _ => .inl ⟨rfl, fun _ => rfl⟩
  by_cases hc : c' = c
  · rw [hc, St.setCpu_cpu, update_self]
    exact ⟨hm, hp⟩
  · rw [St.setCpu_cpu, update_of_ne hc]
    exact ⟨rfl, rfl⟩

theorem setProc (q : Proc A) (h : Ctl s) (hq : q.state = (s.procs p).state ∧ ((s.procs p).state = .SLEEPING → q.chan = (s.procs p).chan) ∨
    (s.procs p).state = .SLEEPING ∧ q.state = .RUNNABLE) : Ctl (s.setProc p fun _ => q) := by
  refine h.wake (fun _ => ⟨rfl, rfl⟩) rfl (fun _ => rfl) (fun _ => rfl) fun p' => ?_
  by_cases hp : p' = p
  · rw [hp, St.setProc_procs, update_self]
    exact hq
  · rw [St.setProc_procs, update_of_ne hp]
    exact .inl ⟨rfl, fun _ => rfl⟩

theorem lockTo {lk : L} (h : Ctl s) : Ctl (s.lockTo c lk) :=
  (h.setCpu (c := c) { s.cpu c with held := (s.cpu c).held + 1 } rfl rfl).congr rfl rfl rfl rfl rfl

theorem unlock {lk : L} (h : Ctl s) : Ctl (s.unlock c lk) :=
  (h.setCpu (c := c) { s.cpu c with held := (s.cpu c).held - 1 } rfl rfl).congr rfl rfl rfl rfl rfl

theorem rouse (procs : Slot → Proc A) (h : Ctl s) (hr : ∀ q, Roused (s.procs q) (procs q)) :
    Ctl (s.setProcs procs) :=
  h.wake (fun _ => ⟨rfl, rfl⟩) rfl (fun _ => rfl) (fun _ => rfl) fun q =>
    (hr q).state.imp_left fun hs => ⟨hs, fun _ => (hr q).chan⟩

theorem park (q : Proc A) (pc : Pc L A) (h : Ctl s) (hm : (s.cpu c).mode = .away p)
    (hpt : s.ptlock = none ∨ s.ptlock = some c)
    (hq : q.state = .RUNNABLE ∧ pc.parked = true ∨
      q.state = .SLEEPING ∧ pc.parked = true ∧ q.chan = pc.chan p ∧ q.chan ≠ none ∨
      q.state = .ZOMBIE ∧ s.call p = .none) : Ctl (s.park c p q pc) := by
  have hbuilt : ∀ p np, (s.call p).built = some np → (s.procs np).state = .EMBRYO :=
    fun p np hb => h.child p np (Call.child_of_built hb)
  obtain ⟨away, unique, running, back, scan, idle, parked, chan, child, forker, built, quiet⟩ := h
  constructor <;> simp only [St.park, update_apply] <;> grind

theorem move (q : Proc A) (pc : Pc L A) {o : Option C} (h : Ctl s) (hm : (s.cpu c).mode = .away p)
    (hpt : s.ptlock = none ∨ s.ptlock = some c) (hq : q.state = .RUNNING)
    (ho : pc.locked = true ∧ o = some c ∨ pc.locked = false ∧ o = none) :
    Ctl (((s.setProc p fun _ => q).setPc p pc).setPtlock o) := by
  have hbuilt : ∀ p np, (s.call p).built = some np → (s.procs np).state = .EMBRYO :=
    fun p np hb => h.child p np (Call.child_of_built hb)
  obtain ⟨away, unique, running, back, scan, idle, parked, chan, child, forker, built, quiet⟩ := h
  constructor <;> simp only [St.setProc, St.setPc, St.setPtlock, update_apply] <;> grind

theorem moveTo (pc : Pc L A) {o : Option C} (h : Ctl s) (hm : (s.cpu c).mode = .away p)
    (hpt : s.ptlock = none ∨ s.ptlock = some c)
    (ho : pc.locked = true ∧ o = some c ∨ pc.locked = false ∧ o = none) : Ctl ((s.setPc p pc).setPtlock o) :=
  (h.move (s.procs p) pc hm hpt (h.away c p hm).1 ho).congr rfl rfl rfl rfl (update_eq_self _ _).symm

theorem setPc {pc : Pc L A} (h : Ctl s) (hm : (s.cpu c).mode = .away p) (hpc : pc.locked = (s.pc p).locked) :
    Ctl (s.setPc p pc) := by
  have hbuilt : ∀ p np, (s.call p).built = some np → (s.procs np).state = .EMBRYO :=
    fun p np hb => h.child p np (Call.child_of_built hb)
  obtain ⟨away, unique, running, back, scan, idle, parked, chan, child, forker, built, quiet⟩ := h
  constructor <;> simp only [St.setPc, update_apply] <;> grind

theorem setCall (call : Call) (h : Ctl s) (hr : (s.procs p).state = .RUNNING)
    (hc : ∀ np, call.child = some np → (s.call p).child = some np ∧ s.pc np = .forkret) :
    Ctl (s.setCall p call) := by
  have hbuilt : ∀ np, call.built = some np → s.pc np = .forkret := fun np hb => (hc np (Call.child_of_built hb)).2
  obtain ⟨away, unique, running, back, scan, idle, parked, chan, child, forker, built, quiet⟩ := h
  constructor <;> simp only [St.setCall, update_apply] <;> grind

theorem embryo (h : Ctl s) (hr : (s.procs p).state = .RUNNING) (hu : (s.procs np).state = .UNUSED) :
    Ctl (s.embryo p np) := by
  obtain ⟨away, unique, running, back, scan, idle, parked, chan, child, forker, built, quiet⟩ := h
  have hb : (Call.forkStack np).built = none := rfl
  have hc : (Call.forkStack np).child = some np := rfl
  constructor <;> simp only [St.embryo, update_apply] <;> grind

theorem hatch {q : Proc A} (h : Ctl s) (hr : (s.procs p).state = .RUNNING) (hc : (s.call p).child = some np)
    (hq : q.state = .UNUSED ∨ q.state = .RUNNABLE ∧ (s.call p).built = some np) :
    Ctl ((s.setProc np fun _ => q).setCall p .none) := by
  obtain ⟨away, unique, running, back, scan, idle, parked, chan, child, forker, built, quiet⟩ := h
  have hc0 : Call.none.child = none := rfl
  have hb0 : Call.none.built = none := rfl
  have hf : (Pc.forkret : Pc L A).parked = true := rfl
  constructor <;> simp only [St.setCall, St.setProc, update_apply] <;> grind

theorem setPc_child (h : Ctl s) (hc : (s.call p).child = some np) : Ctl (s.setPc np .forkret) := by
  obtain ⟨away, unique, running, back, scan, idle, parked, chan, child, forker, built, quiet⟩ := h
  constructor <;> simp only [St.setPc, update_apply] <;> grind

theorem reap {kstack pgdir : Nat} (h : Ctl s) (hm : (s.cpu c).mode = .away p)
    (hpt : s.ptlock = none ∨ s.ptlock = some c) (hz : (s.procs z).state = .ZOMBIE) :
    Ctl (s.reap p z kstack pgdir) := by
  obtain ⟨away, unique, running, back, scan, idle, parked, chan, child, forker, built, quiet⟩ := h
  constructor <;> simp only [St.reap, update_apply] <;> grind

theorem scheduler (u : Cpu) {o : Option C} (h : Ctl s) (hm : ∀ p, (s.cpu c).mode ≠ .away p)
    (hpt : s.ptlock = none ∨ s.ptlock = some c) (hp : u.proc = none)
    (ho : (∃ i, u.mode = .scan i) ∧ o = some c ∨ u.mode = .idle ∧ o = none) :
    Ctl ((s.setCpu c fun _ => u).setPtlock o) := by
  obtain ⟨away, unique, running, back, scan, idle, parked, chan, child, forker, built, quiet⟩ := h
  constructor <;> simp only [St.setCpu, St.setPtlock, update_apply] <;> grind

theorem switched {kstack pgdir i : Nat} (h : Ctl s) (hm : (s.cpu c).mode = .scan i)
    (hp : (s.procs p).state = .RUNNABLE) : Ctl (s.switched c p kstack pgdir) := by
  have hl := Pc.locked_of_parked (h.parked p (.inl hp))
  obtain ⟨away, unique, running, back, scan, idle, parked, chan, child, forker, built, quiet⟩ := h
  constructor <;> simp only [St.switched, update_apply] <;> grind

/-! ### Every step -/

theorem waits {o : Op L A} {s₁ : St C L A} (h : Ctl s) (hm : (s.cpu c).mode = .away p)
    (hw : s.waits c p o s₁) : Ctl s₁ ∧ (s₁.cpu c).mode = .away p ∧ (s₁.ptlock = none ∨ s₁.ptlock = some c) := by
  cases o with
  | wait =>
    obtain ⟨-, -, hpt, rfl⟩ := hw
    exact ⟨h, hm, .inl hpt⟩
  | next =>
    obtain ⟨-, hpt, rfl⟩ := hw
    refine ⟨h.setProc _ (.inl ⟨rfl, fun hs => ?_⟩), hm, .inr hpt⟩
    rw [(h.away c p hm).1] at hs
    cases hs
  | _ => cases hw

theorem moves {a : Act C L A} (h : Ctl s) (hs : Moves s a s') : Ctl s' := by
  cases hs with
  | idle hm hpt => exact h.scheduler _ (by simp [hm]) (.inl hpt) (h.idle _ hm).2 (.inl ⟨⟨0, rfl⟩, rfl⟩)
  | @skip c i hm =>
    obtain ⟨hpt, hp⟩ := h.scan c i hm
    have := h.scheduler { s.cpu c with mode := .scan (i + 1) } (by simp [hm]) (.inr hpt) hp (.inl ⟨⟨i + 1, rfl⟩, rfl⟩)
    exact this.congr rfl hpt rfl rfl rfl
  | done hm hpt => exact h.scheduler _ (by simp [hm]) (.inr hpt) (h.scan _ _ hm).2 (.inr ⟨rfl, rfl⟩)
  | switch hm hp => exact h.switched hm hp
  | @back c p hm =>
    have hpt := (h.back c p hm).1
    have := h.scheduler { s.cpu c with cr3 := none, proc := none, mode := .scan (p + 1) } (by simp [hm]) (.inr hpt)
      rfl (.inl ⟨⟨p + 1, rfl⟩, rfl⟩)
    exact this.congr rfl hpt rfl rfl rfl
  | nop hm hpc => exact h
  | acquire hm ho hl =>
    refine (h.setPc hm ?_).lockTo
    rcases ho with ⟨-, hpc⟩ | ⟨-, hpc⟩
    · rw [hpc]
    · rw [hpc]
      rfl
  | release hm hpc hl => exact h.unlock
  | yield hm hpc hpt hheld => exact h.park _ _ hm (.inl hpt) (.inl ⟨rfl, rfl⟩)
  | sleep hm hpc => exact h.setPc hm (by rw [hpc]; rfl)
  | sleepEnter hm hpc hpt => exact h.moveTo _ hm (.inl hpt) (.inl ⟨rfl, rfl⟩)
  | sleepRelease hm hpc hl => exact (h.setPc hm (by rw [hpc]; rfl)).unlock
  | sleepMark hm hpc hpt hheld => exact h.park _ _ hm (.inr hpt) (.inr (.inl ⟨rfl, rfl, rfl, by simp⟩))
  | @resume c p pc q hm hr hpt =>
    obtain ⟨hl, hq, -⟩ := Pc.not_locked_resume hr
    exact h.move q pc hm (.inr hpt) (hq.trans (h.away c p hm).1) (.inr ⟨hl, rfl⟩)
  | @exit c p hm hpc hc hp hpt hheld =>
    have h1 := h.rouse (s.exitTable p) fun q => exitTable_roused s p q
    exact h1.park _ _ hm (.inl hpt) (.inr (.inr ⟨rfl, hc⟩))
  | @reap c p z kstack pgdir o s1 hm hw hz hk hd =>
    obtain ⟨h1, hm1, hpt⟩ := h.waits hm hw
    exact (h1.reap hm1 hpt (firstSlot_zombie hz).2).moveTo .ready hm1 hpt (.inr ⟨rfl, rfl⟩)
  | @waitFail c p o s1 hm hw hz hk =>
    obtain ⟨h1, hm1, hpt⟩ := h.waits hm hw
    exact (h1.moveTo .ready hm1 hpt (.inr ⟨rfl, rfl⟩)).congr rfl rfl rfl rfl rfl
  | waitSleep hm hw hz hheld =>
    obtain ⟨h1, hm1, hpt⟩ := h.waits hm hw
    exact h1.park _ _ hm1 hpt (.inr (.inl ⟨rfl, rfl, rfl, by simp⟩))
  | wakeup hm hpc hpt => exact h.rouse _ fun q => wakeup1_roused s.procs q
  | @killHit c p q pid hm hpc hpt hq =>
    refine (h.setProc (p := q) (St.hitBy (s.procs q)) ?_).congr rfl rfl rfl rfl rfl
    by_cases hs : (s.procs q).state = .SLEEPING
    · exact .inr ⟨hs, if_pos hs⟩
    · exact .inl ⟨if_neg hs, fun _ => rfl⟩
  | trap hm hpc hc => exact h.setProc _ (.inl ⟨rfl, fun _ => rfl⟩)
  | forkAlloc hm hpc hc hpt hu => exact h.embryo (h.away _ _ hm).1 (firstSlot_unused hu)
  | stackFail hm hpc hc =>
    exact (h.hatch (h.away _ _ hm).1 (by rw [hc]; rfl) (.inl rfl)).congr rfl rfl rfl rfl rfl
  | @stackOk c p np page hm hpc hc hu =>
    have hf : (s.call p).child = some np := by rw [hc]; rfl
    have h1 := (h.setPc_child hf).setCall (p := p) (.forkCopy np) (h.away c p hm).1 fun x hx => by
      cases hx
      exact ⟨hf, update_self ..⟩
    exact (h1.setProc { s.procs np with kstack := some page } (.inl ⟨rfl, fun _ => rfl⟩)).congr rfl rfl rfl rfl rfl
  | copyFail hm hpc hc hk =>
    exact (h.hatch (h.away _ _ hm).1 (by rw [hc]; rfl) (.inl rfl)).congr rfl rfl rfl rfl rfl
  | @copyOk c p np page hm hpc hc hu =>
    have h1 := h.setCall (p := p) (.forkParent np) (h.away c p hm).1 fun x hx => by
      cases hx
      exact ⟨by rw [hc]; rfl, h.built p np (by rw [hc]; rfl)⟩
    exact (h1.setProc { s.procs np with pgdir := some page } (.inl ⟨rfl, fun _ => rfl⟩)).congr rfl rfl rfl rfl rfl
  | @forkParent c p np hm hpc hc =>
    have h1 := h.setCall (p := p) (.forkRun np) (h.away c p hm).1 fun x hx => by
      cases hx
      exact ⟨by rw [hc]; rfl, h.built p np (by rw [hc]; rfl)⟩
    exact h1.setProc _ (.inl ⟨rfl, fun _ => rfl⟩)
  | forkRun hm hpc hc hpt =>
    exact (h.hatch (h.away _ _ hm).1 (by rw [hc]; rfl) (.inr ⟨rfl, by rw [hc]; rfl⟩)).congr rfl rfl rfl rfl rfl
  | @load c p pgdir o call hm hpc hc hd =>
    have hno : call.child = none := by rcases hc with ⟨-, -, rfl⟩ | ⟨_, -, -, rfl⟩ <;> rfl
    have h1 := h.setCall (p := p) call (h.away c p hm).1 fun x hx => by rw [hno] at hx; cases hx
    exact h1.setCpu { s.cpu c with cr3 := some pgdir } rfl rfl
  | @execAlloc c p page hm hpc hc hu =>
    exact (h.setCall (.execImage page) (h.away c p hm).1 fun _ hx => by cases hx).congr rfl rfl rfl rfl rfl
  | @execFail c p pgdir hm hpc hc =>
    exact (h.setCall .none (h.away c p hm).1 fun _ hx => by cases hx).congr rfl rfl rfl rfl rfl
  | @execCommit c p pgdir old hm hpc hc hd =>
    have h1 := h.setCall (p := p) (.execSwitch old) (h.away c p hm).1 fun _ hx => by cases hx
    exact h1.setProc _ (.inl ⟨rfl, fun _ => rfl⟩)
  | @execFree c p old hm hpc hc =>
    exact (h.setCall .none (h.away c p hm).1 fun _ hx => by cases hx).congr rfl rfl rfl rfl rfl
  | _ => exact h.congr rfl rfl rfl rfl rfl

end Ctl

theorem init_ctl : Ctl (init : St C L A) := by
  constructor <;> simp only [init] <;> grind [Call.child, Call.built, Pc.parked]

theorem reachable_ctl {s : St C L A} (h : Machine.Reachable step init s) : Ctl s :=
  h.inv init_ctl fun _ _ _ hi _ hs => hi.moves (step_moves hs)

end Xv6.Sched
