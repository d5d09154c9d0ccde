import Xv6.Life

/-!
# `exit` and `wait`

An exited process is handed to one `wait` of its parent, and nobody sleeps in `wait` with an exited
child. `Log` keeps, beside the machine, who has exited and what the calls of `wait` have returned.
-/

namespace Xv6.Sched

open Function
open ProcMem (NPROC ProcState)

set_option linter.unusedSectionVars false

variable {C L A : Type} [DecidableEq C] [DecidableEq L] [DecidableEq A]

def St.exits (s : St C L A) : Act C L A → Option Slot
  | .proc c .exit =>
    match (s.cpu c).mode with
    | .away p => some p
    | _ => none
  | _ => none

/-- The process that returns from `wait` in a step to `s'`, and the value it returns. -/
def St.waitReturn (s s' : St C L A) : Act C L A → Option (Slot × Int)
  | .proc c o =>
    match (s.cpu c).mode with
    | .away p =>
      match o, s.pc p, s'.pc p with
      | .wait, .ready, .ready | .next, .waitSlept, .ready => some (p, s'.ret p)
      | _, _, _ => none
    | _ => none
  | .scheduler _ => none

structure Log where
  exited : List (Slot × Int) -- the slot and the pid of the caller
  returned : List Int -- the values returned by `wait`, other than -1

def Log.next (s : St C L A) (a : Act C L A) (s' : St C L A) (h : Log) : Log where
  exited :=
    match s.exits a with
    | some p => (p, (s.procs p).pid) :: h.exited
    | none => h.exited
  returned :=
    match s.waitReturn s' a with
    | some (_, r) => if r = -1 then h.returned else r :: h.returned
    | none => h.returned

section WaitStep

variable {s s' : St C L A} {a : Act C L A} {c : C} {p w z : Slot} {o : Op L A} {r : Int}

theorem wait_moves (hm : (s.cpu c).mode = .away p) (ho : o = .wait ∨ o = .next ∧ s.pc p = .waitSlept)
    (hs : Moves s (.proc c o) s') : ∃ s₁, s.waits c p o s₁ ∧
      ((∃ z kstack pgdir, (firstSlot s₁.procs fun z => z.parent = some p ∧ z.state = .ZOMBIE) = some z ∧
        s' = ((s₁.reap p z kstack pgdir).setPc p .ready).setPtlock none) ∨
      (firstSlot s₁.procs fun z => z.parent = some p ∧ z.state = .ZOMBIE) = none ∧
        (((firstSlot s₁.procs fun z => z.parent = some p) = none ∨ (s₁.procs p).killed = true) ∧
          s' = ((s₁.setRet p (-1)).setPc p .ready).setPtlock none ∨
        s' = s₁.park c p { s₁.procs p with chan := some (.proc p), state := .SLEEPING } .waitSlept)) := by
  rcases ho with rfl | ⟨rfl, hpc⟩ 
  · cases hs with
    | reap hm' hw hz hk hd =>
      cases hm.symm.trans hm'
      exact ⟨_, hw, .inl ⟨_, _, _, hz, rfl⟩⟩
    | waitFail hm' hw hz hk =>
      cases hm.symm.trans hm'
      exact ⟨_, hw, .inr ⟨hz, .inl ⟨hk, rfl⟩⟩⟩
    | waitSleep hm' hw hz hheld =>
      cases hm.symm.trans hm'
      exact ⟨_, hw, .inr ⟨hz, .inr rfl⟩⟩
    | acquire hm' ho hl => rcases ho with ⟨h, -⟩ | ⟨h, -⟩ <;> cases h
    | load hm' hpc ho hd => rcases ho with ⟨h, -⟩ | ⟨_, h, -⟩ <;> cases h
  · cases hs with
    | reap hm' hw hz hk hd =>
      cases hm.symm.trans hm'
      exact ⟨_, hw, .inl ⟨_, _, _, hz, rfl⟩⟩
    | waitFail hm' hw hz hk =>
      cases hm.symm.trans hm'
      exact ⟨_, hw, .inr ⟨hz, .inl ⟨hk, rfl⟩⟩⟩
    | waitSleep hm' hw hz hheld =>
      cases hm.symm.trans hm'
      exact ⟨_, hw, .inr ⟨hz, .inr rfl⟩⟩
    | acquire hm' ho hl =>
      cases hm.symm.trans hm'
      rcases ho with ⟨h, -⟩ | ⟨-, h⟩
      · cases h
      · rw [hpc] at h; cases h
    | sleepEnter hm' h hl => cases hm.symm.trans hm'; rw [hpc] at h; cases h
    | sleepRelease hm' h hl => cases hm.symm.trans hm'; rw [hpc] at h; cases h
    | sleepMark hm' h hl => cases hm.symm.trans hm'; rw [hpc] at h; cases h
    | resume hm' h hl => cases hm.symm.trans hm'; rw [hpc] at h; cases h
    | load hm' hpc ho hd => rcases ho with ⟨h, -⟩ | ⟨_, h, -⟩ <;> cases h

theorem waits_same {s₁ : St C L A} (hw : s.waits c p o s₁) (q : Slot) :
    s₁.procs q = { s.procs q with chan := (s₁.procs q).chan } := by
  cases o with
  | wait =>
    obtain ⟨-, -, -, rfl⟩ := hw
    rfl
  | next =>
    obtain ⟨-, -, rfl⟩ := hw
    rw [St.setProc_procs, update_apply]
    split_ifs with hq
    · subst hq
      rfl
    · rfl
  | _ => cases hw

theorem waits_pc {s₁ : St C L A} (hw : s.waits c p o s₁) : s₁.pc = s.pc := by
  cases o with
  | wait =>
    obtain ⟨-, -, -, rfl⟩ := hw
    rfl
  | next =>
    obtain ⟨-, -, rfl⟩ := hw
    rfl
  | _ => cases hw

theorem waitReturn_eq (h : s.waitReturn s' a = some (w, r)) : ∃ c o, a = .proc c o ∧ (s.cpu c).mode = .away w ∧
    (o = .wait ∨ o = .next ∧ s.pc w = .waitSlept) ∧ s'.pc w = .ready ∧ r = s'.ret w := by
  cases a with
  | scheduler c => cases h
  | proc c o =>
    simp only [St.waitReturn] at h
    split at h
    · rename_i p hm
      split at h
      · rename_i hpc hpc'
        cases h
        exact ⟨c, _, rfl, hm, .inl rfl, hpc', rfl⟩
      · rename_i hpc hpc'
        cases h
        exact ⟨c, _, rfl, hm, .inr ⟨rfl, hpc⟩, hpc', rfl⟩
      · cases h
    · cases h

theorem waitReturn_some (hs : Moves s a s') (h : s.waitReturn s' a = some (w, r)) :
    (∃ z, s.lifeOp a = .reap z ∧ (s.procs z).pid = r ∧ (s.procs z).parent = some w ∧ (s.procs z).state = .ZOMBIE) ∨
    (s.lifeOp a = .none ∧ r = -1 ∧ ((∀ z, (s.procs z).parent ≠ some w) ∨ (s.procs w).killed = true)) := by
  obtain ⟨c, o, rfl, hm, ho, hpc, rfl⟩ := waitReturn_eq h
  obtain ⟨s1, hw, hcase⟩ := wait_moves hm ho hs
  have hop := (waits_lives hm hw).2
  have hsame := waits_same hw
  rcases hcase with ⟨z, kstack, pgdir, hz, rfl⟩ | ⟨hz, ⟨hk, rfl⟩ | rfl⟩
  · obtain ⟨hpar, hzombie⟩ := firstSlot_zombie hz
    rw [hsame z] at hpar hzombie
    refine .inl ⟨z, by rw [hop, St.scanOp, hz], ?_, hpar, hzombie⟩
    have hret : (((s1.reap w z kstack pgdir).setPc w .ready).setPtlock none).ret w = (s1.procs z).pid := update_self ..
    rw [hret, hsame z]
  · refine .inr ⟨by rw [hop, St.scanOp, hz], update_self .., ?_⟩
    rw [hsame w] at hk
    refine hk.imp_left fun hk z hz => ?_
    have := firstSlot_none hk z
    rw [hsame z] at this
    exact of_decide_eq_false this hz
  · rw [St.park_pc, update_self] at hpc
    cases hpc

theorem life_reap (hs : Moves s a s') (h : s.lifeOp a = .reap z) : (s.lives.core z).life = .zombie := by
  obtain ⟨c, w, o, rfl, hm, hop⟩ := lifeOp_ne (s := s) (a := a) (by rw [h]; simp)
  obtain ⟨s1, hw, -⟩ := wait_moves hm (opOf_reap (hop.symm.trans h)) hs
  obtain ⟨hl, hscan⟩ := waits_lives hm hw
  rw [hscan, St.scanOp] at h
  split at h
  · rename_i z' hz
    cases h
    rw [← hl]
    show life (s1.procs z).state = .zombie
    rw [(firstSlot_zombie hz).2]
    rfl
  · cases h

theorem reap_returns (hs : Moves s a s') (h : s.lifeOp a = .reap z) :
    ∃ w, s.waitReturn s' a = some (w, (s.procs z).pid) := by
  obtain ⟨c, w, o, rfl, hm, hop⟩ := lifeOp_ne (s := s) (a := a) (by rw [h]; simp)
  have ho := opOf_reap (hop.symm.trans h)
  obtain ⟨s1, hw, hcase⟩ := wait_moves hm ho hs
  rw [(waits_lives hm hw).2, St.scanOp] at h
  rcases hcase with ⟨z', kstack, pgdir, hz, rfl⟩ | ⟨hz, -⟩
  · rw [hz] at h
    cases h
    have hpc : (((s1.reap w z kstack pgdir).setPc w .ready).setPtlock none).pc w = .ready := update_self ..
    have hret : (((s1.reap w z kstack pgdir).setPc w .ready).setPtlock none).ret w = (s1.procs z).pid := update_self ..
    refine ⟨w, ?_⟩
    rcases ho with rfl | ⟨rfl, hw0⟩
    · have hready := hw.1
      simp only [St.waitReturn, hm, hready, hpc, hret]
      rw [waits_same hw z]
    · simp only [St.waitReturn, hm, hw0, hpc, hret]
      rw [waits_same hw z]
  · rw [hz] at h
    cases h

end WaitStep

/-! ### What has been returned -/

def Log.after (t : Lives) (h : Log) : LifeOp → Log
  | .exit p => { h with exited := (p, (t.core p).pid) :: h.exited }
  | .reap z => { h with returned := (t.core z).pid :: h.returned }
  | _ => h

structure Logged (t : Lives) (h : Log) : Prop where
  once : (h.exited.map Prod.snd).Nodup
  nodup : h.returned.Nodup
  exited : ∀ r ∈ h.returned, ∃ z, (z, r) ∈ h.exited
  kept : ∀ z n, (z, n) ∈ h.exited → n ∉ h.returned → (t.core z).pid = n ∧ (t.core z).life = .zombie
  zombie : ∀ z, (t.core z).life = .zombie → (z, (t.core z).pid) ∈ h.exited
  lt : ∀ n ∈ h.returned, n < t.nextpid
  gone : ∀ n ∈ h.returned, ∀ z, (t.core z).life ≠ .free → (t.core z).pid ≠ n

theorem exits_eq {s : St C L A} {a : Act C L A} {p : Slot} : s.exits a = some p ↔ s.lifeOp a = .exit p := by
  constructor
  · intro h
    unfold St.exits at h
    split at h
    · split at h
      · rename_i hm
        cases h
        rw [lifeOp_away hm]
        rfl
      · cases h
    · cases h
  · intro h
    obtain ⟨c, p', o, rfl, hm, hop⟩ := lifeOp_ne (s := s) (a := a) (by rw [h]; simp)
    obtain ⟨rfl, rfl⟩ := opOf_exit (hop.symm.trans h)
    simp only [St.exits, hm]

theorem Log.next_eq {s s' : St C L A} {a : Act C L A} {h : Log} (hp : s.lives.Pids) (hs : Moves s a s') :
    h.next s a s' = h.after s.lives (s.lifeOp a) := by
  have hexit (hne : ∀ p, s.lifeOp a ≠ .exit p) : s.exits a = none := by
    cases he : s.exits a with
    | none => rfl
    | some p => exact absurd (exits_eq.1 he) (hne p)
  -- a `wait` that reaps nobody returns -1
  have hwait (hne : ∀ z, s.lifeOp a ≠ .reap z) : (h.next s a s').returned = h.returned := by
    cases hw : s.waitReturn s' a with
    | none => simp only [Log.next, hw]
    | some x =>
      rcases waitReturn_some hs hw with ⟨z, hz, -⟩ | ⟨-, hr, -⟩
      · exact absurd hz (hne z)
      · simp only [Log.next, hw, hr, if_true]
  cases hop : s.lifeOp a with
  | exit p =>
    have := hwait (by simp [hop])
    simp only [Log.after]
    simp only [Log.next, exits_eq.2 hop] at this ⊢
    rw [this]
    rfl
  | reap z =>
    obtain ⟨w, hw⟩ := reap_returns hs hop
    have hpos : (s.procs z).pid ≠ -1 := by
      have hz := hp.pos z (by rw [life_reap hs hop]; decide)
      change 1 ≤ (s.procs z).pid at hz
      omega
    simp only [Log.next, hexit (by simp [hop]), hw, if_neg hpos]
    rfl
  | _ =>
    have := hwait (by simp [hop])
    simp only [Log.next, hexit (by simp [hop])] at this ⊢
    rw [this]
    rfl

namespace Logged

variable {t t' : Lives} {h : Log} {p : Slot}

theorem set (hl : Logged t h) (f : Core → Core) (hpid : (f (t.core p)).pid = (t.core p).pid)
    (hz : (f (t.core p)).life = .zombie ↔ (t.core p).life = .zombie)
    (hf : (f (t.core p)).life ≠ .free → (t.core p).life ≠ .free) : Logged (t.set p f) h := by
  obtain ⟨once, nodup, exited, kept, zombie, lt, gone⟩ := hl
  refine ⟨once, nodup, exited, ?_, ?_, lt, ?_⟩ <;> simp only [Lives.set, update_apply] <;> grind

theorem exit (hp : t.Pids) (hl : Logged t h) (ha : (t.core p).life = .alive) :
    Logged ((t.orphan p).set p fun q => { q with life := .zombie }) (h.after t (.exit p)) := by
  have hnew : (t.core p).pid ∉ h.exited.map Prod.snd := fun hmem => by
    obtain ⟨⟨z, n⟩, hz, rfl⟩ := List.mem_map.1 hmem
    by_cases hr : (t.core p).pid ∈ h.returned
    · exact hl.gone _ hr p (by simp [ha]) rfl
    · obtain ⟨hpid, hzombie⟩ := hl.kept z _ hz hr
      cases hp.inj p z (by simp [ha]) hpid.symm
      rw [ha] at hzombie
      cases hzombie
  obtain ⟨once, nodup, exited, kept, zombie, lt, gone⟩ := hl
  refine ⟨List.nodup_cons.2 ⟨hnew, once⟩, nodup, ?_, ?_, ?_, lt, ?_⟩ <;>
    simp only [Log.after, Lives.set, Lives.orphan, update_apply] <;> grind

theorem reap (hp : t.Pids) (hl : Logged t h) (hz : (t.core p).life = .zombie) :
    Logged (t.set p fun _ => ⟨.free, 0, none, false⟩) (h.after t (.reap p)) := by
  have hnew : (t.core p).pid ∉ h.returned := fun hr => hl.gone _ hr p (by simp [hz]) rfl
  have hpos := hp.pos
  have hinj := hp.inj
  have hlt := hp.lt
  obtain ⟨once, nodup, exited, kept, zombie, lt, gone⟩ := hl
  refine ⟨once, List.nodup_cons.2 ⟨hnew, nodup⟩, ?_, ?_, ?_, ?_, ?_⟩ <;>
    simp only [Log.after, Lives.set, update_apply] <;> grind

theorem step {op : LifeOp} (hp : t.Pids) (hl : Logged t h) (hs : t.step op = some t') :
    Logged t' (h.after t op) := by
  cases op with
  | none => cases hs; exact hl
  | alloc np =>
    obtain ⟨hfree, ⟨⟩⟩ := Option.ite_none_right_eq_some.1 hs
    obtain ⟨once, nodup, exited, kept, zombie, lt, gone⟩ := hl
    refine ⟨once, nodup, exited, ?_, ?_, ?_, ?_⟩ <;> simp only [Log.after, Lives.set, update_apply] <;> grind
  | abandon np =>
    obtain ⟨hl', ⟨⟩⟩ := Option.ite_none_right_eq_some.1 hs
    exact hl.set _ rfl (by simp [hl']) (by simp)
  | adopt p np =>
    obtain ⟨hl', ⟨⟩⟩ := Option.ite_none_right_eq_some.1 hs
    exact hl.set _ rfl Iff.rfl id
  | start np =>
    obtain ⟨⟨hl', -⟩, ⟨⟩⟩ := Option.ite_none_right_eq_some.1 hs
    exact hl.set _ rfl (by simp [hl']) (by simp [hl'])
  | exit p =>
    obtain ⟨⟨ha, -⟩, ⟨⟩⟩ := Option.ite_none_right_eq_some.1 hs
    exact hl.exit hp ha
  | reap z =>
    obtain ⟨hz, ⟨⟩⟩ := Option.ite_none_right_eq_some.1 hs
    exact hl.reap hp hz
  | hit q =>
    cases hs
    exact hl.set _ rfl Iff.rfl id

end Logged

/-! ### Nobody sleeps with an exited child -/

def Waiting (s : St C L A) : Prop :=
  ∀ p z, s.pc p = .waitSlept → (s.procs p).state = .SLEEPING → (s.procs z).parent = some p → (s.procs z).state ≠ .ZOMBIE

namespace Waiting

variable {s s' : St C L A} {c : C} {p z : Slot} {o : Op L A}

theorem frame (h : Waiting s)
    (hs : ∀ p, s'.pc p = .waitSlept → (s'.procs p).state = .SLEEPING →
      s.pc p = .waitSlept ∧ (s.procs p).state = .SLEEPING)
    (hz : ∀ z, (s'.procs z).state = .ZOMBIE → (s.procs z).state = .ZOMBIE ∧ (s.procs z).parent = (s'.procs z).parent) :
    Waiting s' := by
  intro p z hpc hsl hpar hzombie
  obtain ⟨hpc', hsl'⟩ := hs p hpc hsl
  obtain ⟨hzombie', hpar'⟩ := hz z hzombie
  exact h p z hpc' hsl' (hpar'.trans hpar) hzombie'

theorem set {q : Proc A} {pc : Pc L A} (h : Waiting s) (hp : s'.procs = update s.procs p q)
    (hpc : s'.pc = update s.pc p pc) (hq : pc ≠ .waitSlept ∨ q.state ≠ .SLEEPING)
    (hz : q.state = .ZOMBIE → (s.procs p).state = .ZOMBIE ∧ (s.procs p).parent = q.parent) : Waiting s' := by
  refine h.frame (fun r => ?_) fun r => ?_
  · rw [hp, hpc, update_apply, update_apply]
    split_ifs with hr
    · intro h1 h2
      exact (hq.elim (· h1) (· h2)).elim
    · exact And.intro
  · rw [hp, update_apply]
    split_ifs with hr
    · rw [hr]
      exact hz
    · exact fun h => ⟨h, rfl⟩

theorem goto {pc : Pc L A} (hc : Ctl s) (h : Waiting s) (hm : (s.cpu c).mode = .away p) (hp : s'.procs = s.procs)
    (hpc : s'.pc = update s.pc p pc) : Waiting s' :=
  h.set (hp.trans (update_eq_self p s.procs).symm) hpc (.inr (by rw [(hc.away c p hm).1]; simp)) fun hz => ⟨hz, rfl⟩

theorem entry {q : Proc A} (h : Waiting s) (hp : s'.procs = update s.procs p q) (hpc : s'.pc = s.pc)
    (hq : q.state ≠ .SLEEPING) (hz : q.state = .ZOMBIE → (s.procs p).state = .ZOMBIE ∧ (s.procs p).parent = q.parent) :
    Waiting s' :=
  h.set hp (hpc.trans (update_eq_self p s.pc).symm) (.inr hq) hz

theorem waits {s₁ : St C L A} (h : Waiting s) (hw : s.waits c p o s₁) : Waiting s₁ := by
  have hsame := waits_same hw
  refine h.frame (fun r => ?_) fun r => ?_
  · rw [hsame r, waits_pc hw]
    exact And.intro
  · rw [hsame r]
    exact fun h => ⟨h, rfl⟩

theorem moves {a : Act C L A} (hc : Ctl s) (hf : s.lives.Family) (h : Waiting s) (hs : Moves s a s') : Waiting s' := by
  cases hs with
  | @switch c i p kstack pgdir hm hp hk hd => exact h.set rfl (update_eq_self p s.pc).symm (.inr (by simp)) (by simp)
  | acquire hm ho hl => exact h.goto hc hm rfl rfl
  | yield hm hpc hpt hheld => exact h.set rfl rfl (.inl (by simp)) (by simp)
  | sleep hm hpc => exact h.goto hc hm rfl rfl
  | sleepEnter hm hpc hpt => exact h.goto hc hm rfl rfl
  | sleepRelease hm hpc hl => exact h.goto hc hm rfl rfl
  | sleepMark hm hpc hpt hheld => exact h.set rfl rfl (.inl (by simp)) (by simp)
  | @resume c p pc q hm hr hpt =>
    have hq : q.state = .RUNNING := (Pc.not_locked_resume hr).2.1.trans (hc.away c p hm).1
    exact h.set rfl rfl (.inr (by simp [hq])) (by simp [hq])
  | @exit c p hm hpc hcall hp hpt hheld =>
    intro r z hpc hs hpar hzombie
    simp only [St.park, St.setProcs, update_apply] at hpc hs hpar hzombie
    have hr : r ≠ p := by
      rintro rfl
      simp at hpc
    rw [if_neg hr] at hpc hs
    -- `r` slept on its own entry, so neither of the wakeups was for it
    have hch := (hc.chan r ((exitTable_roused s p r).sleeping hs)).1
    rw [hpc] at hch
    have hparent : (s.procs p).parent ≠ some r := fun hpr => by
      have := wakeup1_awake ((passChildren_roused _ r).sleeping hs)
      rw [hpr] at this
      exact this hch
    have hinit : (∃ y, (s.procs y).parent = some p ∧ (s.procs y).state = .ZOMBIE) → r ≠ s.initproc := by
      rintro ⟨y, hy, hyz⟩ rfl
      refine passChildren_awake (wakeup1_parent.trans hy) ((wakeup1_roused s.procs y).zombie.2 hyz) hs ?_
      rw [(wakeup1_roused s.procs s.initproc).chan]
      exact hch
    by_cases hzp : z = p
    · subst hzp
      rw [if_pos rfl] at hpar
      have hpar : (s.exitTable z z).parent = some r := hpar
      have hself : (s.procs z).parent ≠ some z := hf.self z hp
      rw [exitTable_parent, if_neg hself] at hpar
      exact hparent hpar
    · rw [if_neg hzp] at hpar hzombie
      have hzombie := (exitTable_roused s p z).zombie.1 hzombie
      rw [exitTable_parent] at hpar
      split_ifs at hpar with hpz
      · cases hpar
        exact hinit ⟨z, hpz, hzombie⟩ rfl
      · exact h r z hpc ((exitTable_roused s p r).sleeping hs) hpar hzombie
  | @reap c p z kstack pgdir o s1 hm hw hz hk hd =>
    refine (h.waits hw).frame (fun r => ?_) fun r => ?_
    · show update s1.pc p .ready r = .waitSlept → (update s1.procs z _ r).state = .SLEEPING → _
      rw [update_apply, update_apply]
      split_ifs <;> simp_all
    · show (update s1.procs z _ r).state = .ZOMBIE → (s1.procs r).state = .ZOMBIE ∧
        (s1.procs r).parent = (update s1.procs z _ r).parent
      rw [update_apply]
      split_ifs <;> simp_all
  | @waitFail c p o s1 hm hw hz hk =>
    obtain ⟨hc1, hm1, -⟩ := hc.waits hm hw
    exact (h.waits hw).goto hc1 hm1 rfl rfl
  | @waitSleep c p o s1 hm hw hz hheld =>
    -- the caller has just seen that none of its children has exited
    have hnone : ∀ z, (s1.procs z).parent = some p → (s1.procs z).state ≠ .ZOMBIE := fun z hpar hzombie =>
      of_decide_eq_false (firstSlot_none hz z) ⟨hpar, hzombie⟩
    have h1 := h.waits hw
    intro r z hpc hs hpar hzombie
    simp only [St.park, update_apply] at hpc hs hpar hzombie
    have hzp : z ≠ p := by
      rintro rfl
      simp at hzombie
    rw [if_neg hzp] at hpar hzombie
    by_cases hr : r = p
    · rw [hr] at hpar
      exact hnone z hpar hzombie
    · rw [if_neg hr] at hpc hs
      exact h1 r z hpc hs hpar hzombie
  | wakeup hm hpc hpt =>
    refine h.frame (fun r hpc hs => ⟨hpc, (wakeup1_roused s.procs r).sleeping hs⟩) fun r hz => ?_
    exact ⟨(wakeup1_roused s.procs r).zombie.1 hz, wakeup1_parent.symm⟩
  | @killHit c p q pid hm hpc hpt hq =>
    refine h.entry (p := q) rfl rfl ?_ fun hz => ⟨?_, rfl⟩
    · rw [St.hitBy]
      split_ifs with hs <;> simp [hs]
    · rw [St.hitBy] at hz
      split_ifs at hz
      exact hz
  | @trap c p hm hpc hcall => exact h.entry rfl rfl (by simp [(hc.away c p hm).1]) (by simp [(hc.away c p hm).1])
  | forkAlloc hm hpc hcall hpt hu => exact h.entry rfl rfl (by simp) (by simp)
  | stackFail hm hpc hcall => exact h.entry rfl rfl (by simp) (by simp)
  | @stackOk c p np page hm hpc hcall hu =>
    have hE := hc.child p np (by rw [hcall]; rfl)
    exact h.set rfl rfl (.inl (by simp)) (by simp [hE])
  | copyFail hm hpc hcall hk => exact h.entry rfl rfl (by simp) (by simp)
  | @copyOk c p np page hm hpc hcall hu =>
    have hE := hc.child p np (by rw [hcall]; rfl)
    exact h.entry rfl rfl (by simp [hE]) (by simp [hE])
  | @forkParent c p np hm hpc hcall =>
    have hE := hc.child p np (by rw [hcall]; rfl)
    exact h.entry rfl rfl (by simp [hE]) (by simp [hE])
  | forkRun hm hpc hcall hpt => exact h.entry rfl rfl (by simp) (by simp)
  | @execCommit c p pgdir old hm hpc hcall hd =>
    exact h.entry rfl rfl (by simp [(hc.away c p hm).1]) (by simp [(hc.away c p hm).1])
  | _ => exact h

end Waiting

theorem reachable_waiting {s : St C L A} (h : Machine.Reachable step init s) : Waiting s := by
  induction h with
  | refl => exact fun p z _ _ _ hz => by simp only [init] at hz; split_ifs at hz
  | tail h _ hs ih => exact ih.moves (reachable_ctl h) (reachable_lives h).2 (step_moves hs)

abbrev stepLog : St C L A × Log → Act C L A → Option (St C L A × Log) :=
  Machine.along step fun s a s' h => some (h.next s a s')

theorem reachable_logged {x : St C L A × Log} (h : Machine.Reachable stepLog (init, ⟨[], []⟩) x) :
    Logged x.1.lives x.2 := by
  induction h with
  | refl =>
    refine ⟨List.nodup_nil, List.nodup_nil, by simp, by simp, fun z hz => ?_, by simp, by simp⟩
    simp only [St.lives, init] at hz
    split_ifs at hz <;> cases hz
  | @tail x y a h _ hs ih =>
    obtain ⟨hs, he⟩ := Machine.along_eq hs
    have hr : Machine.Reachable step init x.1 := h.fst_reachable
    rw [← Option.some.inj he, Log.next_eq (reachable_lives hr).1 (step_moves hs)]
    exact ih.step (reachable_lives hr).1 (step_lives hr hs)

theorem life_eq_zombie {st : ProcState} : life st = .zombie ↔ st = .ZOMBIE := by
  cases st <;> decide

/-- The protocol of `exit` and `wait`: a process that has exited is returned by at most one call of
`wait`, which its parent makes, and is a zombie until then; everybody has a parent that can still
call `wait`, no caller sleeps through the exit of a child, and -1 is returned for good reason. -/
theorem reachable_exit_wait {s : St C L A} {h : Log} (hr : Machine.Reachable stepLog (init, ⟨[], []⟩) (s, h)) :
    (h.exited.map Prod.snd).Nodup ∧ h.returned.Nodup ∧ (∀ n ∈ h.returned, ∃ z, (z, n) ∈ h.exited) ∧
    (∀ z n, (z, n) ∈ h.exited → n ∉ h.returned → (s.procs z).pid = n ∧ (s.procs z).state = .ZOMBIE) ∧
    (s.ptlock = none → ∀ p, (s.procs p).state ≠ .UNUSED → (s.procs p).state ≠ .EMBRYO → p ≠ s.initproc →
      ∃ q, (s.procs p).parent = some q ∧ (s.procs q).state ≠ .UNUSED ∧ (s.procs q).state ≠ .ZOMBIE) ∧
    (s.ptlock = none → ∀ p z, s.pc p = .waitSlept → (s.procs p).state = .SLEEPING →
      (s.procs z).parent = some p → (s.procs z).state ≠ .ZOMBIE) ∧
    ∀ a s', step s a = some s' → ∀ w r, s.waitReturn s' a = some (w, r) →
      (∃ z, (s.procs z).pid = r ∧ (s.procs z).parent = some w ∧ (s.procs z).state = .ZOMBIE) ∨
      r = -1 ∧ ((∀ z, (s.procs z).parent ≠ some w) ∨ (s.procs w).killed = true) := by
  have hs : Machine.Reachable step init s := hr.fst_reachable
  have hl := reachable_logged hr
  refine ⟨hl.once, hl.nodup, hl.exited, fun z n hz hn => ?_, fun _ p hu he hp => ?_, fun _ => reachable_waiting hs,
    fun a s' ha w r hw => ?_⟩
  · exact (hl.kept z n hz hn).imp_right life_eq_zombie.1
  · have hlife : life (s.procs p).state = .alive ∨ life (s.procs p).state = .zombie := by
      cases hst : (s.procs p).state <;> simp_all [life]
    obtain ⟨q, hq, ha⟩ := (reachable_lives hs).2.parent p hlife hp
    have ha : life (s.procs q).state = .alive := ha
    refine ⟨q, hq, fun hst => ?_, fun hst => ?_⟩ <;> (rw [hst] at ha; cases ha)
  · rcases waitReturn_some (step_moves ha) hw with ⟨z, -, hz⟩ | ⟨-, hz⟩
    · exact .inl ⟨z, hz⟩
    · exact .inr hz

theorem forkExitWait_run : ((Machine.run stepLog ((init : St Bool Unit Unit), ⟨[], []⟩)
    (forkExit ++ [.proc false .wait])).any fun x => x.2.exited = [(1, 2)] ∧ x.2.returned = [2]) = true := by
  decide +kernel

/-- The child of `forkExit`, process 2 in slot 1, is returned to its parent. -/
theorem reachable_exit_wait_forkExit : ∃ s : St Bool Unit Unit, ∃ h,
    Machine.Reachable stepLog (init, ⟨[], []⟩) (s, h) ∧ h.exited = [(1, 2)] ∧ h.returned = [2] ∧
    h.returned.Nodup ∧ ∀ n ∈ h.returned, ∃ z, (z, n) ∈ h.exited := by
  obtain ⟨⟨s, h⟩, hrun, hx⟩ := (Option.any_eq_true _ _).1 forkExitWait_run
  have hr := Machine.Reach.of_run hrun
  obtain ⟨he, hret⟩ := of_decide_eq_true hx
  obtain ⟨-, hn, hsub, -⟩ := reachable_exit_wait hr
  exact ⟨s, h, hr, he, hret, hn, hsub⟩

end Xv6.Sched
