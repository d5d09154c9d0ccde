import Xv6.Sleepers

/-!
# `sleep` and `wakeup`

No wakeup is lost. The history kept beside the machine says when a process last took each lock, with
which lock and channel it last called `sleep` while it had that lock, and whether it has been made
RUNNABLE since. A process tests its condition after it took the lock, so a `wakeup` by somebody who
took the lock after the test is one by somebody who took it after the sleeper did: `due` records
these, and they find the sleeper SLEEPING or already made RUNNABLE.
-/

namespace Xv6.Sched

open Function
open ProcMem (NPROC ProcState)

set_option linter.unusedSectionVars false

variable {C L A : Type} [DecidableEq C] [DecidableEq L] [DecidableEq A]

/-- A call of `sleep(chan, lk)` by a process that has `lk` since the given acquisition. -/
structure Nap (L A : Type) where
  chan : A
  lk : L
  since : Nat

structure Naps (L A : Type) where
  time : Nat -- how many locks have been taken
  acq : Slot → L → Nat -- when the process last took the lock
  call : Slot → Option (Nap L A) -- its last call of `sleep`, if it had the lock
  up : Slot → Bool -- it has been made RUNNABLE since
  due : Slot → Bool -- a process that took the lock later has called `wakeup` since

namespace Naps

def init : Naps L A := ⟨0, fun _ _ => 0, fun _ => none, fun _ => false, fun _ => false⟩

def rise (h : Naps L A) (rose : Slot → Bool) : Naps L A := { h with up := fun q => h.up q || rose q }

def note (h : Naps L A) (holder : L → Option Slot) : SleepOp L A → Naps L A
  | .acquire p lk =>
    { h with
      time := h.time + 1
      acq := update h.acq p (update (h.acq p) lk (h.time + 1)) }
  | .call p a lk =>
    { h with
      call := update h.call p (if holder lk = some p then some ⟨a, lk, h.acq p lk⟩ else none)
      up := update h.up p false
      due := update h.due p false }
  | .wakeup p a =>
    { h with due := fun q => h.due q || (h.call q).any fun n => n.chan = a ∧ n.since < h.acq p n.lk }
  | _ => h

end Naps

/-- The processes made RUNNABLE in a step. -/
def St.rose (s s' : St C L A) (q : Slot) : Bool := (s.procs q).state = .SLEEPING ∧ (s'.procs q).state = .RUNNABLE

abbrev stepNaps : St C L A × Naps L A → Act C L A → Option (St C L A × Naps L A) :=
  Machine.along step fun s a s' h => some ((h.rise (s.rose s')).note s.holder (s.sleepOp a))

def Nap.Pending (t : Sleepers L A) (h : Naps L A) (q : Slot) (n : Nap L A) : Prop :=
  (t.stage q = .enter n.chan n.lk ∨ t.stage q = .unlock n.chan n.lk) ∧ t.holder n.lk = some q ∧ n.since = h.acq q n.lk

/-- It has given up its lock and has not been woken. -/
def Nap.Down (t : Sleepers L A) (q : Slot) (n : Nap L A) : Prop :=
  t.stage q = .mark n.chan n.lk ∨ t.stage q = .slept n.chan n.lk ∧ t.asleep q = true

structure Naps.Ok (t : Sleepers L A) (h : Naps L A) : Prop where
  time : ∀ p lk, h.acq p lk ≤ h.time
  latest : ∀ lk p, t.holder lk = some p → ∀ w, h.acq w lk ≤ h.acq p lk
  call : ∀ q n, h.call q = some n → h.up q = true ∨ n.Pending t h q ∨ n.Down t q
  up : ∀ q, h.up q = true → t.stage q = .out ∨ (∃ lk, t.stage q = .again lk) ∨
    (∃ a lk, t.stage q = .slept a lk) ∧ t.asleep q = false
  due : ∀ q, h.due q = true → h.up q = true
  asleep : ∀ q, t.asleep q = true → ∃ a lk, t.stage q = .slept a lk

namespace Naps.Ok

variable {t t' : Sleepers L A} {h : Naps L A} {rose : Slot → Bool} {op : SleepOp L A}

theorem found {p q : Slot} {n : Nap L A} (hok : h.Ok t) (hs : t.Step (.wakeup p n.chan) t')
    (hn : h.call q = some n) (hlt : n.since < h.acq p n.lk) :
    h.up q = true ∨ t.stage q = .slept n.chan n.lk ∧ t.asleep q = true := by
  obtain ⟨-, hno, -⟩ := hs
  rcases hok.call q n hn with hup | ⟨-, hh, hsince⟩ | hmark | hslept
  · exact .inl hup
  · -- the sleeper still has the lock, so nobody took it after it did
    have := hok.latest n.lk q hh p
    omega
  · exact absurd hmark (hno q n.chan n.lk).2
  · exact .inr hslept

theorem rise (hok : h.Ok t) (hh : t'.holder = t.holder) (hst : t'.stage = t.stage)
    (hsl : ∀ q, t'.asleep q = true → t.asleep q = true)
    (hrose : ∀ q, t.asleep q = true → t'.asleep q = true ∨ rose q = true)
    (hup : ∀ q, rose q = true → t.stage q = .out ∨ t.asleep q = true ∧ t'.asleep q = false) : (h.rise rose).Ok t' := by
  obtain ⟨time, latest, call, up, due, asleep⟩ := hok
  simp only [Nap.Pending, Nap.Down] at call
  constructor <;> simp only [Naps.rise, Nap.Pending, Nap.Down, hh, hst] <;> grind

theorem goto {p : Slot} {x : Stage L A} (hok : h.Ok t) (hstage : t'.stage = update t.stage p x)
    (hholder : ∀ lk q, t'.holder lk = some q → t.holder lk = some q)
    (hkeep : ∀ lk q, q ≠ p → t.holder lk = some q → t'.holder lk = some q)
    (hasleep : ∀ q, q ≠ p → t'.asleep q = t.asleep q)
    (hcall : ∀ n, h.call p = some n → h.up p = true ∨ n.Pending t' h p ∨ n.Down t' p)
    (hup : h.up p = true → x = .out ∨ ∃ lk, x = .again lk)
    (hsl : t'.asleep p = true → ∃ a lk, x = .slept a lk) : h.Ok t' := by
  obtain ⟨time, latest, call, up, due, asleep⟩ := hok
  refine ⟨time, fun lk q hq => latest lk q (hholder lk q hq), fun q n hn => ?_, fun q hq => ?_, due, fun q hq => ?_⟩
  · by_cases hqp : q = p
    · rw [hqp] at hn ⊢
      exact hcall n hn
    · rcases call q n hn with hq | ⟨hst, hh, hs⟩ | hd
      · exact .inl hq
      · refine .inr (.inl ⟨?_, hkeep _ q hqp hh, hs⟩)
        rwa [hstage, update_of_ne hqp]
      · refine .inr (.inr ?_)
        rwa [Nap.Down, hstage, update_of_ne hqp, hasleep q hqp]
  · by_cases hqp : q = p
    · rw [hqp] at hq ⊢
      rw [hstage, update_self]
      exact (hup hq).imp_right .inl
    · rw [hstage, update_of_ne hqp, hasleep q hqp]
      exact up q hq
  · by_cases hqp : q = p
    · rw [hqp] at hq ⊢
      rw [hstage, update_self]
      exact hsl hq
    · rw [hasleep q hqp] at hq
      rw [hstage, update_of_ne hqp]
      exact asleep q hq

theorem not_up {p : Slot} {x : Stage L A} (hok : h.Ok t) (hst : t.stage p = x)
    (hx : x ≠ .out ∧ (∀ lk, x ≠ .again lk) ∧ ∀ a lk, x ≠ .slept a lk) : h.up p = false ∧ t.asleep p = false := by
  constructor
  · refine Bool.eq_false_iff.2 fun hup => ?_
    rcases hok.up p hup with h' | ⟨lk, h'⟩ | ⟨⟨a, lk, h'⟩, -⟩
    · exact hx.1 (hst.symm.trans h')
    · exact hx.2.1 lk (hst.symm.trans h')
    · exact hx.2.2 a lk (hst.symm.trans h')
  · refine Bool.eq_false_iff.2 fun hsl => ?_
    obtain ⟨a, lk, h'⟩ := hok.asleep p hsl
    exact hx.2.2 a lk (hst.symm.trans h')

theorem acquire {p : Slot} {lk : L} (hok : h.Ok t) (hs : t.Step (.acquire p lk) t') :
    (h.note t.holder (.acquire p lk)).Ok t' := by
  obtain ⟨hfree, hst, rfl⟩ := hs
  -- `lk` was free, so whoever is pending has another lock
  have hok' : (h.note t.holder (.acquire p lk)).Ok (t.hold lk (some p)) := by
    obtain ⟨time, latest, call, up, due, asleep⟩ := hok
    simp only [Nap.Pending, Nap.Down] at call
    constructor <;> simp only [Naps.note, Nap.Pending, Nap.Down, Sleepers.hold, update_apply] <;> grind
  refine hok'.goto rfl (fun _ _ => id) (fun _ _ _ => id) (fun _ _ => rfl) (fun n hn => ?_) (fun _ => .inl rfl) fun hp => ?_
  · have := hok'.call p n hn
    have hst' : (t.hold lk (some p)).stage p = t.stage p := rfl
    grind [Nap.Pending, Nap.Down]
  · have := hok.asleep p hp
    grind

theorem release {p : Slot} {lk : L} (hok : h.Ok t) (hst : t.stage p = .out) (hh : t.holder lk = some p) :
    h.Ok (t.hold lk none) := by
  refine ⟨hok.time, fun l q hq => hok.latest l q (Sleepers.holder_of_release hq), fun q n hn => ?_, hok.up, hok.due,
    hok.asleep⟩
  refine (hok.call q n hn).imp_right fun hc => hc.imp_left fun ⟨hp, hn, hs⟩ => ⟨hp, ?_, hs⟩
  -- whoever is pending is not `p`
  refine Sleepers.holder_release hh ?_ hn
  rintro rfl
  rcases hp with hp | hp <;> cases hst.symm.trans hp

theorem calls {p : Slot} {a : A} {lk : L} (hok : h.Ok t) (hst : t.stage p = .out) :
    (h.note t.holder (.call p a lk)).Ok (t.goto p (.enter a lk)) := by
  have hother : ∀ q, q ≠ p → (t.goto p (.enter a lk)).stage q = t.stage q := fun q hq => update_of_ne hq ..
  refine ⟨hok.time, hok.latest, fun q n hn => ?_, fun q hq => ?_, fun q hq => ?_, fun q hq => ?_⟩ <;> by_cases hqp : q = p
  · subst hqp
    simp only [Naps.note, update_self] at hn
    obtain ⟨hh, ⟨⟩⟩ := Option.ite_none_right_eq_some.1 hn
    exact .inr (.inl ⟨.inl (update_self ..), hh, rfl⟩)
  · simp only [Naps.note, update_of_ne hqp] at hn ⊢
    rw [Nap.Pending, Nap.Down, hother q hqp]
    exact hok.call q n hn
  · simp [Naps.note, hqp] at hq
  · simp only [Naps.note, update_of_ne hqp] at hq
    rw [hother q hqp]
    exact hok.up q hq
  · simp [Naps.note, hqp] at hq
  · simp only [Naps.note, update_of_ne hqp] at hq ⊢
    exact hok.due q hq
  · obtain ⟨b, l, hb⟩ := hok.asleep q hq
    rw [hqp, hst] at hb
    cases hb
  · rw [hother q hqp]
    exact hok.asleep q hq

theorem step (hok : h.Ok t) (hs : t.Step op t')
    (hrose : ∀ q, t.asleep q = true → t'.asleep q = true ∨ rose q = true)
    (hup : ∀ q, rose q = true → t.stage q = .out ∨ t.asleep q = true ∧ t'.asleep q = false) :
    ((h.rise rose).note t.holder op).Ok t' := by
  have hself : (∀ q, t.asleep q = true → t'.asleep q = true) → (h.rise rose).Ok t := fun hsl =>
    hok.rise rfl rfl (fun _ => id) (fun _ => .inl) fun q hq => by
      refine (hup q hq).imp_right fun ⟨h1, h2⟩ => ?_
      rw [hsl q h1] at h2
      cases h2
  cases op with
  | none =>
    obtain ⟨hh, hst, hsl⟩ := hs
    exact hok.rise hh hst hsl hrose hup
  | acquire p lk =>
    refine (hself fun q => ?_).acquire hs
    rw [hs.2.2]
    exact id
  | release p lk =>
    obtain ⟨hh, hst, rfl⟩ := hs
    exact (hself fun q => id).release hst hh
  | call p a lk =>
    obtain ⟨hst, rfl⟩ := hs
    exact (hself fun q => id).calls hst
  | enter p a lk =>
    obtain ⟨hst, rfl⟩ := hs
    have hok' := hself fun q => id
    obtain ⟨hnup, hnsl⟩ := hok'.not_up hst (by simp)
    refine hok'.goto rfl (fun _ _ => id) (fun _ _ _ => id) (fun _ _ => rfl) (fun n hn => ?_) (by simp [hnup])
      (by simp [Sleepers.goto, hnsl])
    rcases hok'.call p n hn with hc | ⟨hc | hc, hp⟩ | hc | ⟨hc, -⟩
    · exact .inl hc
    · cases hst.symm.trans hc
      exact .inr (.inl ⟨.inr (update_self ..), hp⟩)
    · cases hst.symm.trans hc
    · cases hst.symm.trans hc
    · cases hst.symm.trans hc
  | unlock p a lk =>
    obtain ⟨hst, hh, rfl⟩ := hs
    have hok' := hself fun q => id
    obtain ⟨hnup, hnsl⟩ := hok'.not_up hst (by simp)
    refine hok'.goto rfl (fun l q hq => ?_) (fun l q hqp hq => ?_) (fun _ _ => rfl) (fun n hn => ?_) (by simp [hnup])
      (by simp [Sleepers.goto, Sleepers.hold, hnsl])
    · exact Sleepers.holder_of_release hq
    · exact Sleepers.holder_release hh hqp hq
    · rcases hok'.call p n hn with hc | ⟨hc | hc, -⟩ | hc | ⟨hc, -⟩
      · exact .inl hc
      · cases hst.symm.trans hc
      · cases hst.symm.trans hc
        exact .inr (.inr (.inl (update_self ..)))
      · cases hst.symm.trans hc
      · cases hst.symm.trans hc
  | mark p a lk =>
    obtain ⟨hst, rfl⟩ := hs
    have hok' := hself fun q hq => by
      by_cases hqp : q = p
      · rw [hqp]
        exact update_self ..
      · exact (update_of_ne hqp ..).trans hq
    obtain ⟨hnup, -⟩ := hok'.not_up hst (by simp)
    refine hok'.goto rfl (fun _ _ => id) (fun _ _ _ => id) (fun q hq => update_of_ne hq ..) (fun n hn => ?_)
      (by simp [hnup]) fun _ => ⟨a, lk, rfl⟩
    rcases hok'.call p n hn with hc | ⟨hc | hc, -⟩ | hc | ⟨hc, -⟩
    · exact .inl hc
    · cases hst.symm.trans hc
    · cases hst.symm.trans hc
    · cases hst.symm.trans hc
      exact .inr (.inr (.inr ⟨update_self .., update_self ..⟩))
    · cases hst.symm.trans hc
  | resume p a lk =>
    obtain ⟨hst, hsl, rfl⟩ := hs
    have hok' := hself fun q => id
    refine hok'.goto rfl (fun _ _ => id) (fun _ _ _ => id) (fun _ _ => rfl) (fun n hn => ?_)
      (fun _ => .inr ⟨lk, rfl⟩) (by simp [hsl])
    rcases hok'.call p n hn with hc | ⟨hc | hc, -⟩ | hc | ⟨-, hc⟩
    · exact .inl hc
    · cases hst.symm.trans hc
    · cases hst.symm.trans hc
    · cases hst.symm.trans hc
    · cases hsl.symm.trans hc
  | wakeup p a =>
    have hs' := hs
    obtain ⟨-, -, hh, hst, hsl⟩ := hs
    have hok' := hok.rise hh hst (fun q hq => ((hsl q).1 hq).1) hrose hup
    refine ⟨hok'.time, hok'.latest, hok'.call, hok'.up, fun q hq => ?_, hok'.asleep⟩
    rcases Bool.or_eq_true_iff.1 hq with hq | hq
    · exact hok'.due q hq
    · obtain ⟨n, hn, hq⟩ := (Option.any_eq_true _ _).1 hq
      obtain ⟨rfl, hlt⟩ := of_decide_eq_true hq
      refine Bool.or_eq_true_iff.2 ?_
      rcases hok.found hs' hn hlt with hup | ⟨hq, hq'⟩
      · exact .inl hup
      · refine .inr ((hrose q hq').resolve_left fun h' => ?_)
        exact ((hsl q).1 h').2 n.lk hq

theorem init : (Naps.init : Naps L A).Ok (Sched.init : St C L A).sleepers := by
  constructor <;> simp [Naps.init, St.sleepers, Sched.init, St.holder, St.asleep]
  intro q
  split_ifs <;> simp

end Naps.Ok

/-- Whoever sleeps stays where it is. -/
theorem Sleepers.Step.stage_eq {t t' : Sleepers L A} {op : SleepOp L A} {q : Slot} (hs : t.Step op t')
    (hq : t.asleep q = true) (hst : ∃ a lk, t.stage q = .slept a lk) : t'.stage q = t.stage q := by
  obtain ⟨b, l, hst⟩ := hst
  have hne : ∀ {p x y}, t.stage p = x → x ≠ .slept b l → update t.stage p y q = t.stage q := fun hp hx => by
    refine update_of_ne ?_ ..
    rintro rfl
    exact hx (hp.symm.trans hst)
  cases op with
  | none => rw [hs.2.1]
  | acquire p lk =>
    obtain ⟨-, hp | hp, rfl⟩ := hs
    · exact hne hp (by simp)
    · exact hne hp (by simp)
  | release p lk =>
    obtain ⟨-, -, rfl⟩ := hs
    rfl
  | unlock p a lk =>
    obtain ⟨hp, -, rfl⟩ := hs
    exact hne hp (by simp)
  | resume p a lk =>
    obtain ⟨-, hp, rfl⟩ := hs
    refine update_of_ne ?_ ..
    rintro rfl
    cases hp.symm.trans hq
  | wakeup p a => rw [hs.2.2.2.1]
  | _ =>
    obtain ⟨hp, rfl⟩ := hs
    exact hne hp (by simp)

theorem reachable_naps {x : St C L A × Naps L A} (h : Machine.Reachable stepNaps (init, .init) x) :
    x.2.Ok x.1.sleepers := by
  induction h with
  | refl => exact .init
  | @tail x y a h _ hs ih =>
    obtain ⟨hs, he⟩ := Machine.along_eq hs
    have hr : Machine.Reachable step init x.1 := h.fst_reachable
    rw [← Option.some.inj he]
    refine ih.step (step_sleepers hr hs) (fun q hq => ?_) fun q hq => ?_
    · obtain ⟨hst, hout⟩ := of_decide_eq_true hq
      rcases (reachable_lockCtl hr).wakes (step_moves hs) hq with hst' | hst'
      · have hstage : (y.1.pc q).stage = (x.1.pc q).stage := (step_sleepers hr hs).stage_eq hq (ih.asleep q hq)
        exact .inl (decide_eq_true ⟨hst', by rwa [hstage]⟩)
      · exact .inr (decide_eq_true ⟨hst, hst'⟩)
    · obtain ⟨hst, hst'⟩ := of_decide_eq_true hq
      by_cases hout : (x.1.pc q).stage = .out
      · exact .inl hout
      · refine .inr ⟨decide_eq_true ⟨hst, hout⟩, decide_eq_false ?_⟩
        rintro ⟨h', -⟩
        cases hst'.symm.trans h'

/-- A process called `sleep(chan, lk)` with `lk` held; `since` is before it tested its condition. A
`wakeup(chan)` by somebody who took `lk` later makes it RUNNABLE or comes after somebody else did, and
once there was such a `wakeup` it is not SLEEPING on `chan`. -/
theorem reachable_no_lost_wakeup {s : St C L A} {h : Naps L A} (hr : Machine.Reachable stepNaps (init, .init) (s, h))
    {q : Slot} {n : Nap L A} (hn : h.call q = some n) :
    (h.due q = true → ¬ ((s.procs q).state = .SLEEPING ∧ (s.procs q).chan = some (.addr n.chan))) ∧
    ∀ c w s', (s.cpu c).mode = .away w → n.since < h.acq w n.lk → step s (.proc c (.wakeup n.chan)) = some s' →
      ((s.procs q).state = .SLEEPING ∧ (s.procs q).chan = some (.addr n.chan) ∧ (s'.procs q).state = .RUNNABLE) ∨
      h.up q = true := by
  have hok := reachable_naps hr
  have hr1 : Machine.Reachable step init s := hr.fst_reachable
  have hctl := reachable_lockCtl hr1
  refine ⟨?_, fun c w s' hm hlt hs => ?_⟩
  · rintro hdue ⟨hst, hch⟩
    obtain ⟨lk, hpc, hsl⟩ := hctl.asleep_on hst hch
    have hstage : s.sleepers.stage q = .slept n.chan lk := by simp only [St.sleepers, hpc]; rfl
    rcases hok.up q (hok.due q hdue) with h' | ⟨_, h'⟩ | ⟨-, h'⟩
    · cases hstage.symm.trans h'
    · cases hstage.symm.trans h'
    · cases h'.symm.trans hsl
  · have hstep := step_sleepers hr1 hs
    rw [sleepOp_away hm] at hstep
    rcases hok.found hstep hn hlt with hup | ⟨hstage, hsl⟩
    · exact .inr hup
    · left
      obtain ⟨hst, hout⟩ := of_decide_eq_true hsl
      have hpc : s.pc q = .slept n.chan n.lk := Pc.stage_eq_slept hstage
      refine ⟨hst, by rw [(hctl.ctl.chan q hst).1, hpc]; rfl, ?_⟩
      rcases hctl.wakes (step_moves hs) hsl with hst' | hst'
      · obtain ⟨-, -, -, hkeep, hwake⟩ := hstep
        have hout' : (s'.pc q).stage ≠ .out := by rwa [show (s'.pc q).stage = _ from congrFun hkeep q]
        exact absurd hstage (((hwake q).1 (decide_eq_true ⟨hst', hout'⟩)).2 n.lk)
      · exact hst'

end Xv6.Sched
