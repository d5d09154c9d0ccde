import Xv6.SchedInv

/-!
# The lives of processes

What the table looks like if only births and deaths count: a slot is free, taken by a `fork` in
progress, alive or a zombie, and has a pid, a parent and a killed flag. `Lives.step` says how these
change; `step_lives` says that every step of the machine is such a step, so that what holds of all
runs of `Lives.step` holds of the process table.
-/

namespace Xv6.Sched

open Function
open ProcMem (NPROC ProcState)

set_option linter.unusedSectionVars false

variable {C L A : Type} [DecidableEq C] [DecidableEq L] [DecidableEq A]

inductive Life
  | free
  | embryo
  | alive
  | zombie
deriving DecidableEq

def life : ProcState → Life
  | .UNUSED => .free
  | .EMBRYO => .embryo
  | .SLEEPING | .RUNNABLE | .RUNNING => .alive
  | .ZOMBIE => .zombie

theorem life_eq_free {st : ProcState} : life st = .free ↔ st = .UNUSED := by
  cases st <;> decide

structure Core where
  life : Life
  pid : Int
  parent : Option Slot
  killed : Bool

def Proc.core (q : Proc A) : Core := ⟨Sched.life q.state, q.pid, q.parent, q.killed⟩

structure Lives where
  core : Slot → Core
  nextpid : Int
  initproc : Slot

inductive LifeOp
  | none
  | alloc (np : Slot) -- `allocproc` takes a slot
  | abandon (np : Slot) -- a failing `fork` gives it back
  | adopt (p np : Slot)
  | start (np : Slot)
  | exit (p : Slot)
  | reap (z : Slot)
  | hit (q : Slot) -- by `kill` or a fatal trap

namespace Lives

def set (t : Lives) (p : Slot) (f : Core → Core) : Lives := { t with core := update t.core p (f (t.core p)) }

def orphan (t : Lives) (p : Slot) : Lives :=
  { t with
    core := fun q => { t.core q with
      parent := if (t.core q).parent = some p then some t.initproc else (t.core q).parent } }

def step (t : Lives) : LifeOp → Option Lives
  | .none => some t
  | .alloc np =>
    if (t.core np).life = .free then
      some { t.set np fun q => { q with life := .embryo, pid := t.nextpid } with nextpid := t.nextpid + 1 }
    else none
  | .abandon np =>
    if (t.core np).life = .embryo then some (t.set np fun q => { q with life := .free }) else none
  | .adopt p np =>
    if (t.core np).life = .embryo ∧ (t.core p).life = .alive then
      some (t.set np fun q => { q with parent := some p })
    else none
  | .start np =>
    if (t.core np).life = .embryo ∧ ((t.core np).parent.any fun p => (t.core p).life = .alive) then
      some (t.set np fun q => { q with life := .alive })
    else none
  | .exit p =>
    if (t.core p).life = .alive ∧ p ≠ t.initproc then
      some ((t.orphan p).set p fun q => { q with life := .zombie })
    else none
  | .reap z =>
    if (t.core z).life = .zombie then some (t.set z fun _ => ⟨.free, 0, none, false⟩) else none
  | .hit q => some (t.set q fun x => { x with killed := true })

/-- Pids are handed out once; a free slot may still carry one. -/
structure Pids (t : Lives) : Prop where
  pos : ∀ p, (t.core p).life ≠ .free → 1 ≤ (t.core p).pid
  lt : ∀ p, (t.core p).pid < t.nextpid
  nextpid : 1 ≤ t.nextpid
  inj : ∀ p q, (t.core p).life ≠ .free → (t.core p).pid = (t.core q).pid → p = q

/-- Everybody but `init` has a living parent. -/
structure Family (t : Lives) : Prop where
  init : (t.core t.initproc).life = .alive
  parent : ∀ p, (t.core p).life = .alive ∨ (t.core p).life = .zombie → p ≠ t.initproc →
    ∃ q, (t.core p).parent = some q ∧ (t.core q).life = .alive
  self : ∀ p, p ≠ t.initproc → (t.core p).parent ≠ some p

section Keep

variable {t t' : Lives} {op : LifeOp} {p : Slot}

theorem Pids.set (h : t.Pids) (f : Core → Core) (hl : (f (t.core p)).life ≠ .free → (t.core p).life ≠ .free)
    (hf : (f (t.core p)).pid = (t.core p).pid ∨ (f (t.core p)).life = .free ∧ (f (t.core p)).pid = 0) :
    (t.set p f).Pids := by
  obtain ⟨pos, lt, nextpid, inj⟩ := h
  constructor <;> simp only [Lives.set, update_apply] <;> grind

theorem Pids.step (h : t.Pids) (hs : t.step op = some t') : t'.Pids := by
  cases op with
  | none => cases hs; exact h
  | alloc np =>
    obtain ⟨hfree, ⟨⟩⟩ := Option.ite_none_right_eq_some.1 hs
    -- `nextpid` is above every pid in the table
    obtain ⟨pos, lt, nextpid, inj⟩ := h
    constructor <;> simp only [Lives.set, update_apply] <;> grind
  | abandon np =>
    obtain ⟨hl, ⟨⟩⟩ := Option.ite_none_right_eq_some.1 hs
    exact h.set _ (fun hne => absurd rfl hne) (.inl rfl)
  | adopt p np =>
    obtain ⟨-, ⟨⟩⟩ := Option.ite_none_right_eq_some.1 hs
    exact h.set _ id (.inl rfl)
  | start np =>
    obtain ⟨⟨hl, -⟩, ⟨⟩⟩ := Option.ite_none_right_eq_some.1 hs
    exact h.set _ (fun _ => by rw [hl]; decide) (.inl rfl)
  | exit p =>
    obtain ⟨⟨hl, -⟩, ⟨⟩⟩ := Option.ite_none_right_eq_some.1 hs
    have : (t.orphan p).Pids := ⟨h.pos, h.lt, h.nextpid, h.inj⟩
    exact this.set _ (fun _ => by show (t.core p).life ≠ _; rw [hl]; decide) (.inl rfl)
  | reap z =>
    obtain ⟨-, ⟨⟩⟩ := Option.ite_none_right_eq_some.1 hs
    exact h.set _ (fun hne => absurd rfl hne) (.inr ⟨rfl, rfl⟩)
  | hit q =>
    cases hs
    exact h.set _ id (.inl rfl)

theorem Family.set (h : t.Family) (f : Core → Core) (hl : (t.core p).life = .alive → (f (t.core p)).life = .alive)
    (hf : (f (t.core p)).life = .alive ∨ (f (t.core p)).life = .zombie → p ≠ t.initproc →
      ∃ q, (f (t.core p)).parent = some q ∧ (t.core q).life = .alive)
    (hne : (f (t.core p)).parent ≠ (t.core p).parent → (f (t.core p)).parent ≠ some p) : (t.set p f).Family := by
  obtain ⟨init, parent, self⟩ := h
  constructor <;> simp only [Lives.set, update_apply] <;> grind

theorem Family.step (h : t.Family) (hs : t.step op = some t') : t'.Family := by
  cases op with
  | none => cases hs; exact h
  | alloc np =>
    obtain ⟨hfree, ⟨⟩⟩ := Option.ite_none_right_eq_some.1 hs
    have := h.set (p := np) (fun q => { q with life := .embryo, pid := t.nextpid }) (by simp [hfree]) (by simp) (by simp)
    exact ⟨this.init, this.parent, this.self⟩
  | abandon np =>
    obtain ⟨hl, ⟨⟩⟩ := Option.ite_none_right_eq_some.1 hs
    exact h.set _ (by simp [hl]) (by simp) (by simp)
  | adopt p np =>
    obtain ⟨⟨hl, hp⟩, ⟨⟩⟩ := Option.ite_none_right_eq_some.1 hs
    refine h.set _ id (fun _ _ => ⟨p, rfl, hp⟩) fun _ hpn => ?_
    cases hpn
    rw [hl] at hp
    cases hp
  | start np =>
    obtain ⟨⟨hl, hp⟩, ⟨⟩⟩ := Option.ite_none_right_eq_some.1 hs
    obtain ⟨q, hq, ha⟩ := (Option.any_eq_true _ _).1 hp
    exact h.set _ (fun _ => rfl) (fun _ _ => ⟨q, hq, of_decide_eq_true ha⟩) (by simp)
  | exit p =>
    obtain ⟨⟨hl, hp⟩, ⟨⟩⟩ := Option.ite_none_right_eq_some.1 hs
    -- the children of `p` now have `init`, which is not `p`, as their parent
    obtain ⟨init, parent, self⟩ := h
    constructor <;> simp only [Lives.set, orphan, update_apply] <;> grind
  | reap z =>
    obtain ⟨hl, ⟨⟩⟩ := Option.ite_none_right_eq_some.1 hs
    exact h.set _ (by simp [hl]) (by simp) (by simp)
  | hit q =>
    cases hs
    exact h.set _ id (h.parent q) (by simp)

theorem step_pid (h : t.step op = some t') (q : Slot)
    (hq : (t'.core q).life ≠ .free) : (t.core q).life = .free ∨ (t'.core q).pid = (t.core q).pid := by
  cases op with
  | none => cases h; exact .inr rfl
  | hit p =>
    cases h
    simp only [Lives.set, update_apply] at hq ⊢
    grind
  | _ =>
    obtain ⟨hl, ⟨⟩⟩ := Option.ite_none_right_eq_some.1 h
    simp only [Lives.set, orphan, update_apply] at hq ⊢
    grind

end Keep

end Lives

/-! ### The steps of the machine -/

namespace St

def lives (s : St C L A) : Lives := ⟨fun p => (s.procs p).core, s.nextpid, s.initproc⟩

/-- What one pass of `wait` over the table does. -/
def scanOp (s : St C L A) (p : Slot) : LifeOp :=
  match firstSlot s.procs fun z => z.parent = some p ∧ z.state = .ZOMBIE with
  | some z => .reap z
  | none => .none

def opOf (s : St C L A) (p : Slot) : Op L A → LifeOp
  | .trap => .hit p
  | .kill pid =>
    match firstSlot s.procs fun q => q.pid = pid with
    | some q => .hit q
    | none => .none
  | .exit => .exit p
  | .wait => s.scanOp p
  | .next =>
    match s.pc p with
    | .waitSlept => s.scanOp p
    | _ => .none
  | .fork =>
    match firstSlot s.procs fun q => q.state = .UNUSED with
    | some np => .alloc np
    | none => .none
  | .kalloc none | .copyuvm none =>
    match s.call p with
    | .forkStack np | .forkCopy np => .abandon np
    | _ => .none
  | .setParent =>
    match s.call p with
    | .forkParent np => .adopt p np
    | _ => .none
  | .setRunnable =>
    match s.call p with
    | .forkRun np => .start np
    | _ => .none
  | _ => .none

def lifeOp (s : St C L A) : Act C L A → LifeOp
  | .scheduler _ => .none
  | .proc c o =>
    match (s.cpu c).mode with
    | .away p => s.opOf p o
    | _ => .none

end St

def Adopted (s : St C L A) : Prop := ∀ p np, s.call p = .forkRun np → (s.procs np).parent = some p

section Refine

variable {s s' : St C L A} {c : C} {p np : Slot} {o : Op L A}

theorem lifeOp_away (hm : (s.cpu c).mode = .away p) : s.lifeOp (.proc c o) = s.opOf p o := by
  simp only [St.lifeOp, hm]

theorem lifeOp_ne {a : Act C L A} (h : s.lifeOp a ≠ .none) :
    ∃ c p o, a = .proc c o ∧ (s.cpu c).mode = .away p ∧ s.lifeOp a = s.opOf p o := by
  cases a with
  | scheduler c => exact absurd rfl h
  | proc c o =>
    cases hm : (s.cpu c).mode with
    | away p => exact ⟨c, p, o, rfl, hm, lifeOp_away hm⟩
    | _ =>
      simp only [St.lifeOp, hm] at h
      exact absurd rfl h

theorem opOf_exit {q : Slot} (h : s.opOf p o = .exit q) : o = .exit ∧ p = q := by
  unfold St.opOf St.scanOp at h
  grind

theorem opOf_reap {z : Slot} (h : s.opOf p o = .reap z) : o = .wait ∨ o = .next ∧ s.pc p = .waitSlept := by
  unfold St.opOf at h
  grind

theorem opOf_hit {q : Slot} (h : s.opOf p o = .hit q) :
    o = .trap ∧ p = q ∨ ∃ pid, o = .kill pid ∧ (firstSlot s.procs fun q => q.pid = pid) = some q := by
  unfold St.opOf St.scanOp at h
  grind

theorem lives_set {q : Proc A} {f : Core → Core} (hp : s'.procs = update s.procs p q) (hn : s'.nextpid = s.nextpid)
    (hi : s'.initproc = s.initproc) (hf : f (s.procs p).core = q.core) : s.lives.set p f = s'.lives := by
  simp only [St.lives, Lives.set, hp, hn, hi, hf]
  congr 1
  funext r
  by_cases hr : r = p
  · subst hr
    simp
  · simp [hr]

theorem lives_same (hp : ∀ p, (s'.procs p).core = (s.procs p).core) (hn : s'.nextpid = s.nextpid)
    (hi : s'.initproc = s.initproc) : s'.lives = s.lives := by
  simp only [St.lives, hn, hi, hp]

theorem Roused.core {q q' : Proc A} (h : Roused q q') (hp : q'.parent = q.parent) : q'.core = q.core := by
  have hl : life q'.state = life q.state := by
    rcases h.state with hs | ⟨hs, hs'⟩
    · rw [hs]
    · rw [hs, hs']
      rfl
  rw [Proc.core, hl, h.pid, h.killed, hp]
  rfl

theorem core_update (s : St C L A) {q : Proc A} (hq : q.core = (s.procs p).core) (r : Slot) :
    (update s.procs p q r).core = (s.procs r).core := by
  by_cases hr : r = p
  · subst hr
    rw [update_self, hq]
  · rw [update_of_ne hr]

theorem firstSlot_congr {procs procs' : Slot → Proc A} {f : Proc A → Bool} (h : ∀ q, f (procs' q) = f (procs q)) :
    firstSlot procs' f = firstSlot procs f := by
  simp only [firstSlot, h]

theorem Pc.resume_core {pc pc' : Pc L A} {q q' : Proc A} (h : pc.resume q = some (pc', q')) :
    q'.core = q.core ∧ pc ≠ .waitSlept := by
  unfold resume at h
  split at h <;> cases h <;> exact ⟨rfl, by simp⟩

theorem opOf_next (h : s.pc p ≠ .waitSlept) : s.opOf p .next = .none := by
  rw [St.opOf]
  split
  · contradiction
  · rfl

theorem life_alive {q : Slot} (hc : Ctl s) (hm : (s.cpu c).mode = .away q) : (s.lives.core q).life = .alive := by
  show life (s.procs q).state = .alive
  rw [(hc.away c q hm).1]
  rfl

theorem life_child (hc : Ctl s) (h : (s.call p).child = some np) : (s.lives.core np).life = .embryo := by
  show life (s.procs np).state = .embryo
  rw [hc.child p np h]
  rfl

theorem exitTable_lives (s : St C L A) (p : Slot) : (s.setProcs (s.exitTable p)).lives = s.lives.orphan p := by
  simp only [St.lives, Lives.orphan, St.setProcs]
  congr 1
  funext q
  have hr := exitTable_roused s p q
  have hcore : { s.exitTable p q with parent := (s.procs q).parent }.core = (s.procs q).core :=
    Roused.core ⟨hr.state, hr.pid, hr.killed, hr.chan, hr.kstack, hr.pgdir⟩ rfl
  have hl := congrArg Core.life hcore
  rw [Proc.core, exitTable_parent, hr.pid, hr.killed]
  simp only [Proc.core] at hl ⊢
  rw [hl]
  rfl

theorem waits_lives {s₁ : St C L A} (hm : (s.cpu c).mode = .away p) (hw : s.waits c p o s₁) :
    s₁.lives = s.lives ∧ s.lifeOp (.proc c o) = s₁.scanOp p := by
  rw [lifeOp_away hm]
  cases o with
  | wait =>
    obtain ⟨-, -, -, rfl⟩ := hw
    exact ⟨rfl, rfl⟩
  | next =>
    obtain ⟨hpc, -, rfl⟩ := hw
    refine ⟨lives_same (core_update s rfl) rfl rfl, ?_⟩
    rw [St.opOf, hpc]
    simp only [St.scanOp]
    rw [firstSlot_congr fun q => ?_]
    rw [St.setProc_procs, update_apply]
    split_ifs with hq
    · subst hq
      rfl
    · rfl
  | _ => cases hw

theorem moves_lives {a : Act C L A} (hc : Ctl s) (ha : Adopted s) (hs : Moves s a s') :
    s.lives.step (s.lifeOp a) = some s'.lives := by
  have quiet (hop : s.lifeOp a = .none) (hl : ∀ p, (s'.procs p).core = (s.procs p).core)
      (hn : s'.nextpid = s.nextpid) (hi : s'.initproc = s.initproc) :
      s.lives.step (s.lifeOp a) = some s'.lives := by
    rw [hop, lives_same hl hn hi]
    rfl
  have run {c p} (hm : (s.cpu c).mode = .away p) (q : Proc A) (hq : life q.state = .alive) (hpid : q.pid = (s.procs p).pid)
      (hpar : q.parent = (s.procs p).parent) (hk : q.killed = (s.procs p).killed) (r : Slot) :
      (update s.procs p q r).core = (s.procs r).core := by
    refine core_update s ?_ r
    rw [Proc.core, hq, hpid, hpar, hk, Proc.core, (hc.away c p hm).1]
    rfl
  cases hs with
  | switch hm hp hk hd =>
    refine quiet rfl (core_update s ?_) rfl rfl
    rw [Proc.core, Proc.core, hp]
    rfl
  | nop hm hpc => exact quiet (lifeOp_away hm) (fun _ => rfl) rfl rfl
  | acquire hm ho hl =>
    refine quiet ?_ (fun _ => rfl) rfl rfl
    rw [lifeOp_away hm]
    rcases ho with ⟨rfl, hpc⟩ | ⟨rfl, hpc⟩
    · rfl
    · rw [St.opOf, hpc]
  | release hm hpc hl => exact quiet (lifeOp_away hm) (fun _ => rfl) rfl rfl
  | yield hm hpc hpt hheld => exact quiet (lifeOp_away hm) (run hm _ rfl rfl rfl rfl) rfl rfl
  | sleep hm hpc => exact quiet (lifeOp_away hm) (fun _ => rfl) rfl rfl
  | sleepEnter hm hpc hpt => exact quiet (by rw [lifeOp_away hm, St.opOf, hpc]) (fun _ => rfl) rfl rfl
  | sleepRelease hm hpc hl => exact quiet (by rw [lifeOp_away hm, St.opOf, hpc]) (fun _ => rfl) rfl rfl
  | sleepMark hm hpc hpt hheld =>
    exact quiet (by rw [lifeOp_away hm, St.opOf, hpc]) (run hm _ rfl rfl rfl rfl) rfl rfl
  | @resume c p pc q hm hr hpt =>
    obtain ⟨hq, hpc⟩ := Pc.resume_core hr
    exact quiet (by rw [lifeOp_away hm, opOf_next hpc]) (core_update s hq) rfl rfl
  | @exit c p hm hpc hcall hp hpt hheld =>
    rw [lifeOp_away hm, St.opOf, Lives.step, if_pos ⟨life_alive hc hm, hp⟩, ← exitTable_lives]
    exact congrArg some (lives_set rfl rfl rfl rfl)
  | @reap c p z kstack pgdir o s1 hm hw hz hk hd =>
    obtain ⟨hl, hop⟩ := waits_lives hm hw
    have hzombie : (s1.lives.core z).life = .zombie := by
      show life (s1.procs z).state = .zombie
      rw [(firstSlot_zombie hz).2]
      rfl
    rw [hop, St.scanOp, hz, ← hl]
    simp only [Lives.step]
    rw [if_pos hzombie]
    exact congrArg some (lives_set rfl rfl rfl rfl)
  | @waitFail c p o s1 hm hw hz hk =>
    obtain ⟨hl, hop⟩ := waits_lives hm hw
    rw [hop, St.scanOp, hz, ← hl]
    rfl
  | @waitSleep c p o s1 hm hw hz hheld =>
    obtain ⟨hl, hop⟩ := waits_lives hm hw
    obtain ⟨hc1, hm1, -⟩ := hc.waits hm hw
    rw [hop, St.scanOp, hz, ← hl]
    refine congrArg some (Eq.symm ?_)
    refine lives_same (core_update s1 ?_) rfl rfl
    rw [Proc.core, Proc.core, (hc1.away c p hm1).1]
    rfl
  | wakeup hm hpc hpt =>
    exact quiet (lifeOp_away hm) (fun q => (wakeup1_roused s.procs q).core wakeup1_parent) rfl rfl
  | @killHit c p q pid hm hpc hpt hq =>
    rw [lifeOp_away hm, St.opOf, hq]
    refine congrArg some (lives_set rfl rfl rfl ?_)
    by_cases hs : (s.procs q).state = .SLEEPING
    · simp [Proc.core, hs, life]
    · simp [Proc.core, hs]
  | killMiss hm hpc hpt hq => exact quiet (by rw [lifeOp_away hm, St.opOf, hq]) (fun _ => rfl) rfl rfl
  | trap hm hpc hcall =>
    rw [lifeOp_away hm]
    exact congrArg some (lives_set rfl rfl rfl rfl)
  | forkFull hm hpc hcall hpt hu => exact quiet (by rw [lifeOp_away hm, St.opOf, hu]) (fun _ => rfl) rfl rfl
  | @forkAlloc c p np hm hpc hcall hpt hu =>
    have hfree : (s.lives.core np).life = .free := by
      show life (s.procs np).state = .free
      rw [firstSlot_unused hu]
      rfl
    rw [lifeOp_away hm, St.opOf, hu]
    simp only [Lives.step]
    rw [if_pos hfree]
    have := lives_set (s := { s with nextpid := s.nextpid + 1 }) (f := fun q => { q with life := .embryo, pid := s.nextpid })
      (show (s.embryo p np).procs = _ from rfl) rfl rfl rfl
    exact congrArg some this
  | @stackFail c p np hm hpc hcall =>
    have hl := life_child hc (show (s.call p).child = some np by rw [hcall]; rfl)
    rw [lifeOp_away hm, St.opOf, hcall]
    simp only [Lives.step]
    rw [if_pos hl]
    exact congrArg some (lives_set rfl rfl rfl rfl)
  | @stackOk c p np page hm hpc hcall hu => exact quiet (lifeOp_away hm) (core_update s rfl) rfl rfl
  | @copyFail c p np kstack hm hpc hcall hk =>
    have hl := life_child hc (show (s.call p).child = some np by rw [hcall]; rfl)
    rw [lifeOp_away hm, St.opOf, hcall]
    simp only [Lives.step]
    rw [if_pos hl]
    exact congrArg some (lives_set rfl rfl rfl rfl)
  | @copyOk c p np page hm hpc hcall hu => exact quiet (lifeOp_away hm) (core_update s rfl) rfl rfl
  | @forkParent c p np hm hpc hcall =>
    have hl := life_child hc (show (s.call p).child = some np by rw [hcall]; rfl)
    rw [lifeOp_away hm, St.opOf, hcall]
    simp only [Lives.step]
    rw [if_pos ⟨hl, life_alive hc hm⟩]
    exact congrArg some (lives_set rfl rfl rfl rfl)
  | @forkRun c p np hm hpc hcall hpt =>
    have hl := life_child hc (show (s.call p).child = some np by rw [hcall]; rfl)
    have hpar : (s.lives.core np).parent = some p := ha p np hcall
    rw [lifeOp_away hm, St.opOf, hcall]
    simp only [Lives.step]
    rw [if_pos ⟨hl, by rw [hpar]; exact decide_eq_true (life_alive hc hm)⟩]
    exact congrArg some (lives_set rfl rfl rfl rfl)
  | @load c p pgdir o call hm hpc hcall hd =>
    refine quiet ?_ (fun _ => rfl) rfl rfl
    rw [lifeOp_away hm]
    rcases hcall with ⟨rfl, -, -⟩ | ⟨-, rfl, -, -⟩ <;> rfl
  | execNone hm hpc hcall => exact quiet (lifeOp_away hm) (fun _ => rfl) rfl rfl
  | execAlloc hm hpc hcall hu => exact quiet (lifeOp_away hm) (fun _ => rfl) rfl rfl
  | execFail hm hpc hcall => exact quiet (lifeOp_away hm) (fun _ => rfl) rfl rfl
  | @execCommit c p pgdir old hm hpc hcall hd => exact quiet (lifeOp_away hm) (core_update s rfl) rfl rfl
  | execFree hm hpc hcall => exact quiet (lifeOp_away hm) (fun _ => rfl) rfl rfl
  | _ => exact quiet rfl (fun _ => rfl) rfl rfl

namespace Adopted

theorem frame (ha : Adopted s) (hcall : ∀ p np, s'.call p = .forkRun np → s.call p = .forkRun np)
    (hpar : ∀ p np, s.call p = .forkRun np → (s'.procs np).parent = (s.procs np).parent) : Adopted s' :=
  fun p np h => (hpar p np (hcall p np h)).trans (ha p np (hcall p np h))

theorem parent_update {q : Proc A} (x : Slot) (hq : q.parent = (s.procs p).parent) :
    (update s.procs p q x).parent = (s.procs x).parent := by
  rw [update_apply]
  split_ifs with hx
  · rw [hx, hq]
  · rfl

theorem setProc {q : Proc A} (ha : Adopted s) (hp : s'.procs = update s.procs p q) (hcall : s'.call = s.call)
    (hq : q.parent = (s.procs p).parent) : Adopted s' :=
  ha.frame (fun _ _ h => by rwa [hcall] at h) fun _ x _ => by rw [hp, parent_update x hq]

theorem waits {s₁ : St C L A} (ha : Adopted s) (hw : s.waits c p o s₁) : Adopted s₁ := by
  cases o with
  | wait =>
    obtain ⟨-, -, -, rfl⟩ := hw
    exact ha
  | next =>
    obtain ⟨-, -, rfl⟩ := hw
    exact ha.setProc rfl rfl rfl
  | _ => cases hw

theorem setCall (ha : Adopted s) {call : Call} (hcall : s'.call = update s.call p call)
    (hne : ∀ x, call ≠ .forkRun x)
    (hpar : ∀ q x, q ≠ p → s.call q = .forkRun x → (s'.procs x).parent = (s.procs x).parent) : Adopted s' := by
  intro q x h
  rw [hcall, update_apply] at h
  split_ifs at h with hq
  · exact absurd h (hne x)
  · exact (hpar q x hq h).trans (ha q x h)

theorem moves {a : Act C L A} (hc : Ctl s) (ha : Adopted s) (hs : Moves s a s') : Adopted s' := by
  cases hs with
  | idle hm hpt => exact ha
  | skip hm => exact ha
  | done hm hpt => exact ha
  | switch hm hp hk hd => exact ha.setProc rfl rfl rfl
  | back hm => exact ha
  | nop hm hpc => exact ha
  | acquire hm ho hl => exact ha
  | release hm hpc hl => exact ha
  | yield hm hpc hpt hheld => exact ha.setProc rfl rfl rfl
  | sleep hm hpc => exact ha
  | sleepEnter hm hpc hpt => exact ha
  | sleepRelease hm hpc hl => exact ha
  | sleepMark hm hpc hpt hheld => exact ha.setProc rfl rfl rfl
  | resume hm hr hpt => exact ha.setProc rfl rfl (congrArg Core.parent (Pc.resume_core hr).1)
  | @exit c p hm hpc hcall hp hpt hheld =>
    refine ha.frame (fun _ _ h => h) fun q x h => ?_
    have hne : (s.procs x).parent ≠ some p := by
      rw [ha q x h]
      intro hqp
      cases hqp
      rw [hcall] at h
      cases h
    have hx : (s.exitTable p x).parent = (s.procs x).parent := by rw [exitTable_parent, if_neg hne]
    rw [← hx]
    exact parent_update (s := s.setProcs (s.exitTable p)) x rfl
  | @reap c p z kstack pgdir o s1 hm hw hz hk hd =>
    refine (ha.waits hw).frame (fun _ _ h => h) fun q x h => ?_
    have hne : x ≠ z := by
      rintro rfl
      have := (hc.waits hm hw).1.child q x (by rw [h]; rfl)
      rw [(firstSlot_zombie hz).2] at this
      cases this
    exact congrArg Proc.parent (update_of_ne hne _ _)
  | waitFail hm hw hz hk => exact (ha.waits hw).frame (fun _ _ h => h) fun _ _ _ => rfl
  | waitSleep hm hw hz hheld => exact (ha.waits hw).setProc rfl rfl rfl
  | wakeup hm hpc hpt => exact ha.frame (fun _ _ h => h) fun _ _ _ => wakeup1_parent
  | killHit hm hpc hpt hq => exact ha.setProc rfl rfl rfl
  | killMiss hm hpc hpt hq => exact ha
  | trap hm hpc hcall => exact ha.setProc rfl rfl rfl
  | forkFull hm hpc hcall hpt hu => exact ha
  | @forkParent c p np hm hpc hcall =>
    intro q x h
    rw [St.forkParent, St.setCall_call, update_apply] at h
    rw [St.forkParent, St.setCall_procs, St.setProc_procs]
    split_ifs at h with hq
    · cases h
      rw [update_self, hq]
    · have hne : x ≠ np := fun hx => hq (hc.forker q p x (by rw [St.setProc_call] at h; rw [h]; rfl) (by rw [hcall, hx]; rfl))
      rw [update_of_ne hne]
      exact ha q x h
  | load hm hpc hcall hd =>
    refine ha.setCall rfl ?_ fun _ _ _ _ => rfl
    rcases hcall with ⟨-, -, rfl⟩ | ⟨_, -, -, rfl⟩ <;> simp
  | execNone hm hpc hcall => exact ha
  | execAlloc hm hpc hcall hu => exact ha.setCall rfl (by simp) fun _ _ _ _ => rfl
  | execFail hm hpc hcall => exact ha.setCall rfl (by simp) fun _ _ _ _ => rfl
  | execFree hm hpc hcall => exact ha.setCall rfl (by simp) fun _ _ _ _ => rfl
  | _ => exact ha.setCall rfl (by simp) fun _ x _ _ => parent_update x rfl

end Adopted

theorem reachable_adopted (h : Machine.Reachable step init s) : Ctl s ∧ Adopted s :=
  h.inv (I := fun s => Ctl s ∧ Adopted s) ⟨init_ctl, fun _ _ h => by cases h⟩ fun _ _ _ ⟨hc, ha⟩ _ hs =>
    ⟨hc.moves (step_moves hs), ha.moves hc (step_moves hs)⟩

/-- Every step of the machine is a step of the lives. -/
theorem step_lives {a : Act C L A} (h : Machine.Reachable step init s) (hs : step s a = some s') :
    s.lives.step (s.lifeOp a) = some s'.lives :=
  moves_lives (reachable_adopted h).1 (reachable_adopted h).2 (step_moves hs)

theorem init_lives : (init : St C L A).lives.Pids ∧ (init : St C L A).lives.Family := by
  have hcore : ∀ p, (init : St C L A).lives.core p = if p = 0 then ⟨.alive, 1, none, false⟩ else ⟨.free, 0, none, false⟩ := by
    intro p
    by_cases hp : p = 0 <;> simp [init, St.lives, Proc.core, life, hp]
  have hnext : (init : St C L A).lives.nextpid = 2 := rfl
  have hinit : (init : St C L A).lives.initproc = 0 := rfl
  refine ⟨⟨?_, ?_, ?_, ?_⟩, ⟨?_, ?_, ?_⟩⟩ <;> simp only [hcore, hnext, hinit] <;> grind

theorem reachable_lives (h : Machine.Reachable step init s) : s.lives.Pids ∧ s.lives.Family := by
  induction h with
  | refl => exact init_lives
  | tail h _ hs ih => exact ⟨ih.1.step (step_lives h hs), ih.2.step (step_lives h hs)⟩

end Refine

end Xv6.Sched
