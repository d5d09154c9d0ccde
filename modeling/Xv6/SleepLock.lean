import Xv6.Monitor
import Xv6.SleepWakeup

/-!
# Sleeping locks (`sleeplock.c`)

`acquiresleep`, `releasesleep` and `holdingsleep` are a monitor with one channel, the sleeping lock
itself. A process may call `releasesleep` if it holds the lock: it has returned from `acquiresleep`,
or `holdingsleep` told it so (`brelse` and `iunlock` ask), and it has not called `releasesleep` since.
-/

namespace Xv6.Sched

open Function
open ProcMem (NPROC ProcState)

set_option linter.unusedSectionVars false

variable {C L A : Type} [DecidableEq C] [DecidableEq L] [DecidableEq A]

/-- `struct sleeplock`, its spinlock apart. -/
structure SleepLock where
  locked : Bool
  pid : Int

namespace SleepLock

/-- The points of the three functions; `held` says whether the caller holds the lock already. -/
inductive Point
  | idle (held : Bool)
  | acquireTest (held : Bool) -- at the head of the `while`
  | acquireSleep (held : Bool)
  | acquireDone -- before `release(&lk->lk)`
  | releaseClear -- before `lk->locked = 0`
  | releaseWake
  | releaseDone
  | holdingTest (held : Bool)
  | holdingDone (r : Bool)
deriving DecidableEq

def initsleeplock : SleepLock := ⟨false, 0⟩

/-- The body of the loop in `acquiresleep`, and what follows it. -/
def acquiresleep (held : Bool) (pid : Int) (lk : SleepLock) : SleepLock × Point :=
  if lk.locked then (lk, .acquireSleep held) else (⟨true, pid⟩, .acquireDone)

def releasesleep : SleepLock × Point := (⟨false, 0⟩, .releaseWake)

def holdingsleep (pid : Int) (lk : SleepLock) : Bool := lk.locked && lk.pid == pid

def code (chan : A) : Point → Instr Point SleepLock A
  | .idle held => .idle fun k => k = .acquireTest held ∨ k = .holdingTest held ∨ held = true ∧ k = .releaseClear
  | .acquireTest held => .compute fun pid _ lk => acquiresleep held pid lk
  | .acquireSleep held => .sleep chan (.acquireTest held)
  | .acquireDone => .release (.idle true)
  | .releaseClear => .compute fun _ _ _ => releasesleep
  | .releaseWake => .wakeup chan .releaseDone
  | .releaseDone => .release (.idle false)
  | .holdingTest _ => .compute fun pid _ lk => (lk, .holdingDone (holdingsleep pid lk))
  | .holdingDone r => .release (.idle r)

def monitor (lk : L) (chan : A) : Monitor Point SleepLock L A where
  lock := lk
  chans a := a = chan
  code := code chan
  start := .idle false

def site : Site Point SleepLock := ⟨initsleeplock, fun _ => .idle false⟩

def Point.holds : Point → Bool
  | .idle held | .acquireTest held | .acquireSleep held | .holdingTest held | .holdingDone held => held
  | .acquireDone | .releaseClear => true
  | .releaseWake | .releaseDone => false

def Pre (k : Point) (pid : Int) (lk : SleepLock) : Prop :=
  (k.holds = true → lk.locked = true ∧ lk.pid = pid) ∧ ∀ held, k = .acquireSleep held → lk.locked = true

theorem not_idle {lk : L} {chan : A} {k : Point} (hk : ∀ held, k ≠ .idle held) : ¬ (monitor lk chan).Idle k := by
  rintro ⟨entry, he⟩
  cases k with
  | idle held => exact hk held rfl
  | _ => cases he

theorem resumes {lk : L} {chan : A} {k : Point} (hk : (monitor lk chan).Resumes k) : ∃ held, k = .acquireTest held := by
  obtain ⟨k0, a, hk⟩ := hk
  cases k0 <;> cases hk
  exact ⟨_, rfl⟩

theorem verified (lk : L) (chan : A) : (monitor lk chan).Verified (fun _ => true) Pre
    (fun a m => a = chan ∧ m.locked = false) (fun k a => k = .releaseWake ∧ a = chan) where
  start := ⟨⟨_, rfl⟩, fun _ _ => by simp [monitor, Pre, Point.holds]⟩
  entry k entry k' pid m hk he hp := by
    cases k <;> cases hk
    rcases of_decide_eq_true he with rfl | rfl | ⟨rfl, rfl⟩
    · exact ⟨not_idle (by simp), hp.1, by simp⟩
    · exact ⟨not_idle (by simp), hp.1, by simp⟩
    · exact ⟨not_idle (by simp), hp.1, by simp⟩
  compute k f pid killed m hk _ hp := by
    cases k <;> cases hk
    · dsimp only
      unfold acquiresleep
      split_ifs with hl
      · exact ⟨not_idle (by simp), ⟨hp.1, fun _ _ => hl⟩, fun a ha => .inl ha, by simp⟩
      · exact ⟨not_idle (by simp), by simp [Pre], by simp, by simp⟩
    · exact ⟨not_idle (by simp [releasesleep]), by simp [Pre, releasesleep, Point.holds],
        fun a ha => .inr ⟨rfl, ha.1⟩, by simp⟩
    · refine ⟨not_idle (by simp), ⟨fun hr => ?_, by simp⟩, fun a ha => .inl ha, by simp⟩
      simpa [Point.holds, holdingsleep] using hr
  stable k f pid killed m k' pid' hk _ hp hne hk' hp' := by
    -- whoever is at rest with the lock is the one whose pid it carries
    have hk' : ∀ held, k' ≠ .acquireSleep held := by
      rintro held rfl
      rcases hk' with hi | hr
      · exact not_idle (by simp) hi
      · obtain ⟨_, hr⟩ := resumes hr
        cases hr
    refine ⟨fun hh => ?_, fun held he => absurd he (hk' held)⟩
    obtain ⟨hl, hpid⟩ := hp'.1 hh
    cases k <;> cases hk
    · simp only [acquiresleep, if_pos hl]
      exact ⟨hl, hpid⟩
    · exact absurd (hpid.symm.trans (hp.1 rfl).2) hne
    · exact ⟨hl, hpid⟩
  wakeup k a k' pid m hk _ hp := by
    cases k <;> cases hk
    exact ⟨not_idle (by simp), by simp [Pre, Point.holds], fun b hb h => absurd h.2 hb⟩
  sleep k a k' pid m hk _ hp := by
    cases k <;> cases hk
    exact ⟨decide_eq_true rfl, by simp [hp.2], ⟨hp.1, by simp⟩, by simp⟩
  resumes k hk := by
    obtain ⟨held, rfl⟩ := resumes hk
    exact ⟨not_idle (by simp), by simp⟩
  release k k' pid m hk _ hp := by
    cases k <;> cases hk
    · exact ⟨⟨_, rfl⟩, ⟨hp.1, by simp⟩, by simp⟩
    · exact ⟨⟨_, rfl⟩, by simp [Pre, Point.holds], by simp⟩
    · exact ⟨⟨_, rfl⟩, ⟨hp.1, by simp⟩, by simp⟩

theorem reachable_holder {lk : L} {chan : A} {s : St C L A} {x : Site Point SleepLock}
    (hr : Machine.Reachable (monitor lk chan).step (init, site) (s, x)) :
    (s.lock lk = none → x.mem.locked = false →
      ∀ q, ¬ ((s.procs q).state = .SLEEPING ∧ (s.procs q).chan = some (.addr chan))) ∧
    ∀ p q, (s.procs p).state ≠ .UNUSED → (s.procs q).state ≠ .UNUSED → (x.pos p).holds = true →
      (x.pos q).holds = true → p = q := by
  have hfine : Machine.Reach (monitor lk chan).step (fun z b => Monitor.fine (fun _ => true) z b = true)
      (init, site) (s, x) := hr.mono fun z b _ => Monitor.fine_true z b
  obtain ⟨hr, hi⟩ := Monitor.reachable_inv (verified lk chan) hfine
  refine ⟨fun hfree hl q ⟨hst, hch⟩ => ?_, fun p q hp hq hhp hhq => ?_⟩
  · exact hi.not_asleep (reachable_lockCtl hr) hfree (decide_eq_true rfl) hst hch ⟨rfl, hl⟩
  · refine (reachable_lives hr).1.inj p q (fun hl => hp (life_eq_free.1 hl)) ?_
    exact ((hi.pre p hp).1 hhp).2.symm.trans ((hi.pre q hq).1 hhq).2

end SleepLock

/-- No wakeup is lost: a process called `sleep(chan, lk)` with `lk` held since a time before it tested
its condition; a `wakeup(chan)` by a process that took `lk` later finds it SLEEPING on `chan` and makes
it RUNNABLE, or it has already been made RUNNABLE, and after such a `wakeup` it is not SLEEPING on
`chan`. For a sleeping lock: while its spinlock is free and `locked` is 0, nobody is SLEEPING on it,
and at most one process holds it. -/
theorem sleep_wakeup_keeps :
    (∀ (s : St C L A) (h : Naps L A), Machine.Reachable stepNaps (init, .init) (s, h) →
      ∀ q n, h.call q = some n →
        (h.due q = true → ¬ ((s.procs q).state = .SLEEPING ∧ (s.procs q).chan = some (.addr n.chan))) ∧
        ∀ c w s', (s.cpu c).mode = .away w → n.since < h.acq w n.lk →
          step s (.proc c (.wakeup n.chan)) = some s' →
          ((s.procs q).state = .SLEEPING ∧ (s.procs q).chan = some (.addr n.chan) ∧
            (s'.procs q).state = .RUNNABLE) ∨ h.up q = true) ∧
    ∀ (lk : L) (chan : A) (s : St C L A) (x : Site SleepLock.Point SleepLock),
      Machine.Reachable (SleepLock.monitor lk chan).step (init, SleepLock.site) (s, x) →
        (s.lock lk = none → x.mem.locked = false →
          ∀ q, ¬ ((s.procs q).state = .SLEEPING ∧ (s.procs q).chan = some (.addr chan))) ∧
        ∀ p q, (s.procs p).state ≠ .UNUSED → (s.procs q).state ≠ .UNUSED → (x.pos p).holds = true →
          (x.pos q).holds = true → p = q :=
  ⟨fun _ _ hr _ _ hn => reachable_no_lost_wakeup hr hn, fun _ _ _ _ hr => SleepLock.reachable_holder hr⟩

/-- `init` forks and takes the lock; the child, on the other CPU, goes to sleep on it; `init` gives the
lock back. -/
def SleepLock.contend : List (MonAct Bool Unit Unit SleepLock.Point) :=
  let parent (o : Op Unit Unit) : MonAct Bool Unit Unit SleepLock.Point := .proc false (.other o)
  let child (o : Op Unit Unit) : MonAct Bool Unit Unit SleepLock.Point := .proc true (.other o)
  [.scheduler false, .scheduler false, parent .next, parent .fork, parent (.kalloc (some 2)),
    parent (.copyuvm (some 3)), parent .setParent, parent .setRunnable,
    .scheduler true, .scheduler true, .scheduler true, child .next,
    .proc false (.enter (.acquireTest false)), .proc false .inside, .proc false .inside,
    .proc true (.enter (.acquireTest false)), .proc true .inside, .proc true .inside,
    child .next, child .next, child .next] ++
  List.replicate 64 (.scheduler true) ++
  [.proc false (.enter .releaseClear), .proc false .inside, .proc false .inside, .proc false .inside]

/-- The same steps for the machine alone. -/
def SleepLock.contendSteps : List (Act Bool Unit Unit) :=
  [.scheduler false, .scheduler false, .proc false .next, .proc false .fork, .proc false (.kalloc (some 2)),
    .proc false (.copyuvm (some 3)), .proc false .setParent, .proc false .setRunnable,
    .scheduler true, .scheduler true, .scheduler true, .proc true .next,
    .proc false (.acquire ()), .proc false .nop, .proc false (.release ()),
    .proc true (.acquire ()), .proc true .nop, .proc true (.sleep () ()),
    .proc true .next, .proc true .next, .proc true .next] ++
  List.replicate 64 (.scheduler true) ++
  [.proc false (.acquire ()), .proc false .nop, .proc false (.wakeup ()), .proc false (.release ())]

theorem SleepLock.contend_run :
    ((Machine.run (SleepLock.monitor () ()).step ((init : St Bool Unit Unit), SleepLock.site) SleepLock.contend).any
      fun z => z.1.lock () = none ∧ z.2.mem.locked = false ∧ z.2.pos 1 = .acquireTest false) = true ∧
    ((Machine.run stepNaps ((init : St Bool Unit Unit), .init) SleepLock.contendSteps).any
      fun z => (z.2.call 1).isSome ∧ z.2.due 1 = true) = true := by
  constructor <;> decide +kernel

theorem sleep_wakeup_keeps_contend :
    (∃ (s : St Bool Unit Unit) (h : Naps Unit Unit) (n : Nap Unit Unit),
      Machine.Reachable stepNaps (init, .init) (s, h) ∧ h.call 1 = some n ∧ h.due 1 = true ∧
      ¬ ((s.procs 1).state = .SLEEPING ∧ (s.procs 1).chan = some (.addr n.chan))) ∧
    ∃ (s : St Bool Unit Unit) (x : Site SleepLock.Point SleepLock),
      Machine.Reachable (SleepLock.monitor () ()).step (init, SleepLock.site) (s, x) ∧
      s.lock () = none ∧ x.mem.locked = false ∧ x.pos 1 = .acquireTest false ∧
      ∀ q, ¬ ((s.procs q).state = .SLEEPING ∧ (s.procs q).chan = some (.addr ())) := by
  constructor
  · obtain ⟨⟨s, h⟩, hrun, hz⟩ := (Option.any_eq_true _ _).1 SleepLock.contend_run.2
    obtain ⟨hcall, hdue⟩ := of_decide_eq_true hz
    obtain ⟨n, hn⟩ := Option.isSome_iff_exists.1 hcall
    have hr := Machine.Reach.of_run hrun
    exact ⟨s, h, n, hr, hn, hdue, (sleep_wakeup_keeps.1 s h hr 1 n hn).1 hdue⟩
  · obtain ⟨⟨s, x⟩, hrun, hz⟩ := (Option.any_eq_true _ _).1 SleepLock.contend_run.1
    obtain ⟨hfree, hl, hpos⟩ := of_decide_eq_true hz
    have hr := Machine.Reach.of_run hrun
    exact ⟨s, x, hr, hfree, hl, hpos, (sleep_wakeup_keeps.2 () () s x hr).1 hfree hl⟩

end Xv6.Sched
