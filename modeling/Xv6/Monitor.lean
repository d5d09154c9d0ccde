import Xv6.Life
import Xv6.Sleepers

/-!
# Functions guarded by one spinlock

Many parts of the kernel have the same shape: a few functions that take one lock, change what the
lock protects, call `sleep` on a channel while some condition does not hold, and call `wakeup` on it
when they may have made it hold. Such a group of functions is a `Monitor`: a program over the memory
the lock protects. The processes of the machine run it in any interleaving, and otherwise do what
they like without touching the lock or sleeping on its channels.

`Verified` collects what has to be shown of the program text alone. It is about one function at a
time, as if it ran undisturbed between two releases of the lock: assertions at its points, with those
at which a process does not have the lock stable under what others do; and that whoever makes the
condition of a channel true `owes` a `wakeup` on it before it gives up the lock. `reachable_inv` is
the result for all runs, and `Inv.not_asleep` the one the program is written for: while the lock is
free, nobody is SLEEPING on a channel whose condition holds.
-/

namespace Xv6.Sched

open Function
open ProcMem (NPROC ProcState)

set_option linter.unusedSectionVars false

variable {C L A : Type} [DecidableEq C] [DecidableEq L] [DecidableEq A] {K M : Type}

/-- What a process does at a point of the program. -/
inductive Instr (K M A : Type)
  | idle (entry : K → Bool) -- it is in none of the functions, and may call those that start at `entry`
  | compute (f : Int → Bool → M → M × K) -- with its own `pid` and `killed`
  | wakeup (a : A) (k : K)
  | sleep (a : A) (k : K)
  | release (k : K)

structure Monitor (K M L A : Type) where
  lock : L
  chans : A → Bool
  code : K → Instr K M A
  start : K -- where a new process is

structure Site (K M : Type) where
  mem : M
  pos : Slot → K

inductive MonOp (L A K : Type)
  | other (o : Op L A) -- something outside the functions, or inside `sleep`
  | enter (k : K)
  | inside

inductive MonAct (C L A K : Type)
  | scheduler (c : C)
  | proc (c : C) (b : MonOp L A K)

@[simps] def Site.goto (x : Site K M) (p : Slot) (k : K) : Site K M := { x with pos := update x.pos p k }

namespace Monitor

variable (mon : Monitor K M L A)

def allows : Op L A → Bool
  | .acquire lk | .release lk => lk ≠ mon.lock
  | .sleep a lk => lk ≠ mon.lock ∧ mon.chans a = false
  | _ => true

/-- A slot that has been given back is ready for a new process. -/
def clear (s : St C L A) (x : Site K M) : Site K M :=
  { x with pos := fun q => if (s.procs q).state = .UNUSED then mon.start else x.pos q }

/-- The step of the machine that process `p` takes, and what it does to the memory. -/
def move (s : St C L A) (x : Site K M) (p : Slot) : MonOp L A K → Option (Op L A × Site K M)
  | .other o =>
    match s.pc p with
    | .ready =>
      match mon.code (x.pos p) with
      | .idle _ => if mon.allows o then some (o, x) else none
      | _ => none
    | _ => some (o, x)
  | .enter k =>
    match s.pc p, mon.code (x.pos p) with
    | .ready, .idle entry => if entry k then some (.acquire mon.lock, x.goto p k) else none
    | _, _ => none
  | .inside =>
    match s.pc p, mon.code (x.pos p) with
    | .ready, .compute f =>
      let r := f (s.procs p).pid (s.procs p).killed x.mem
      some (.nop, { x with mem := r.1 }.goto p r.2)
    | .ready, .wakeup a k => some (.wakeup a, x.goto p k)
    | .ready, .sleep a k => some (.sleep a mon.lock, x.goto p k)
    | .ready, .release k => some (.release mon.lock, x.goto p k)
    | _, _ => none

def step (x : St C L A × Site K M) : MonAct C L A K → Option (St C L A × Site K M)
  | .scheduler c => (Sched.step x.1 (.scheduler c)).map fun s' => (s', mon.clear s' x.2)
  | .proc c b =>
    match (x.1.cpu c).mode with
    | .away p => do
      let (o, y) ← mon.move x.1 x.2 p b
      let s' ← Sched.step x.1 (.proc c o)
      return (s', mon.clear s' y)
    | _ => none

def Idle (k : K) : Prop := ∃ entry, mon.code k = .idle entry

def Resumes (k : K) : Prop := ∃ k₀ a, mon.code k₀ = .sleep a k

def fine (good : K → Bool) (x : St C L A × Site K M) : MonAct C L A K → Bool
  | .proc c .inside =>
    match (x.1.cpu c).mode with
    | .away p => good (x.2.pos p)
    | _ => true
  | _ => true

theorem fine_true (x : St C L A × Site K M) (b : MonAct C L A K) : fine (fun _ => true) x b = true := by
  unfold fine
  split
  · split <;> rfl
  · rfl

/-- The ways a step can go in which the program is executed at `good` points only. -/
inductive Moves (good : K → Bool) (s : St C L A) (x : Site K M) : Act C L A → Site K M → Prop
  | scheduler {c} : Moves good s x (.scheduler c) x
  | sleeping {c p o} : (s.cpu c).mode = .away p → s.pc p ≠ .ready → Moves good s x (.proc c o) x
  | other {c p o} : (s.cpu c).mode = .away p → s.pc p = .ready → mon.Idle (x.pos p) → mon.allows o = true →
      Moves good s x (.proc c o) x
  | enter {c p k entry} : (s.cpu c).mode = .away p → s.pc p = .ready → mon.code (x.pos p) = .idle entry →
      entry k = true → Moves good s x (.proc c (.acquire mon.lock)) (x.goto p k)
  | compute {c p f} : (s.cpu c).mode = .away p → s.pc p = .ready → good (x.pos p) = true →
      mon.code (x.pos p) = .compute f →
      Moves good s x (.proc c .nop) ({ x with mem := (f (s.procs p).pid (s.procs p).killed x.mem).1 }.goto p
        (f (s.procs p).pid (s.procs p).killed x.mem).2)
  | wakeup {c p a k} : (s.cpu c).mode = .away p → s.pc p = .ready → good (x.pos p) = true →
      mon.code (x.pos p) = .wakeup a k →
      Moves good s x (.proc c (.wakeup a)) (x.goto p k)
  | sleep {c p a k} : (s.cpu c).mode = .away p → s.pc p = .ready → good (x.pos p) = true →
      mon.code (x.pos p) = .sleep a k →
      Moves good s x (.proc c (.sleep a mon.lock)) (x.goto p k)
  | release {c p k} : (s.cpu c).mode = .away p → s.pc p = .ready → good (x.pos p) = true →
      mon.code (x.pos p) = .release k →
      Moves good s x (.proc c (.release mon.lock)) (x.goto p k)

variable {mon} {good : K → Bool} {s s' : St C L A} {x y : Site K M} {c : C} {p : Slot}

theorem move_moves {b : MonOp L A K} {o : Op L A} (hm : (s.cpu c).mode = .away p)
    (hg : fine good (s, x) (.proc c b) = true) (h : mon.move s x p b = some (o, y)) :
    mon.Moves good s x (.proc c o) y := by
  cases b with
  | other o' =>
    simp only [move] at h
    split at h
    · rename_i hpc
      split at h
      · rename_i entry hk
        obtain ⟨ho, h⟩ := Option.ite_none_right_eq_some.1 h
        cases h
        exact .other hm hpc ⟨entry, hk⟩ ho
      · cases h
    · rename_i hpc
      cases h
      exact .sleeping hm hpc
  | enter k =>
    simp only [move] at h
    split at h
    · rename_i entry hpc hk
      obtain ⟨he, h⟩ := Option.ite_none_right_eq_some.1 h
      cases h
      exact .enter hm hpc hk he
    · cases h
  | inside =>
    simp only [fine, hm] at hg
    simp only [move] at h
    split at h <;> cases h
    · exact .compute hm ‹_› hg ‹_›
    · exact .wakeup hm ‹_› hg ‹_›
    · exact .sleep hm ‹_› hg ‹_›
    · exact .release hm ‹_› hg ‹_›

theorem step_moves {z z' : St C L A × Site K M} {b : MonAct C L A K} (hg : fine good z b = true)
    (h : mon.step z b = some z') :
    ∃ a y, Sched.step z.1 a = some z'.1 ∧ z'.2 = mon.clear z'.1 y ∧ mon.Moves good z.1 z.2 a y := by
  cases b with
  | scheduler c =>
    obtain ⟨s', hs, h⟩ := Option.map_eq_some_iff.1 h
    cases h
    exact ⟨_, _, hs, rfl, .scheduler⟩
  | proc c b =>
    simp only [Monitor.step] at h
    split at h
    · rename_i p hm
      obtain ⟨⟨o, y⟩, hmove, h⟩ := Option.bind_eq_some_iff.1 h
      obtain ⟨s', hs, h⟩ := Option.bind_eq_some_iff.1 h
      cases h
      exact ⟨_, _, hs, rfl, move_moves hm hg hmove⟩
    · cases h

/-! ### What is to be shown of the program -/

/-- Assertions `pre` at the points, conditions `ready` of the channels, and `owes`: at this point a
process still has to call `wakeup` on a channel before it gives up the lock. -/
structure Verified (mon : Monitor K M L A) (good : K → Bool) (pre : K → Int → M → Prop) (ready : A → M → Prop)
    (owes : K → A → Prop) : Prop where
  start : mon.Idle mon.start ∧ ∀ pid m, pre mon.start pid m
  entry : ∀ k entry k' pid m, mon.code k = .idle entry → entry k' = true → pre k pid m →
    ¬ mon.Idle k' ∧ pre k' pid m
  compute : ∀ k f pid killed m, mon.code k = .compute f → good k = true → pre k pid m →
    ¬ mon.Idle (f pid killed m).2 ∧ pre (f pid killed m).2 pid (f pid killed m).1 ∧
    (∀ a, ready a (f pid killed m).1 → ready a m ∨ owes (f pid killed m).2 a) ∧
    ∀ a, owes k a → owes (f pid killed m).2 a
  stable : ∀ k f pid killed m k' pid', mon.code k = .compute f → good k = true → pre k pid m → pid' ≠ pid →
    mon.Idle k' ∨ mon.Resumes k' → pre k' pid' m → pre k' pid' (f pid killed m).1
  wakeup : ∀ k a k' pid m, mon.code k = .wakeup a k' → good k = true → pre k pid m →
    ¬ mon.Idle k' ∧ pre k' pid m ∧ ∀ b, b ≠ a → owes k b → owes k' b
  sleep : ∀ k a k' pid m, mon.code k = .sleep a k' → good k = true → pre k pid m →
    mon.chans a = true ∧ ¬ ready a m ∧ pre k' pid m ∧ ∀ b, ¬ owes k b
  resumes : ∀ k, mon.Resumes k → ¬ mon.Idle k ∧ ∀ b, ¬ owes k b
  release : ∀ k k' pid m, mon.code k = .release k' → good k = true → pre k pid m →
    mon.Idle k' ∧ pre k' pid m ∧ ∀ b, ¬ owes k b

/-! ### Where processes are -/

/-- Not in `sleep` with the lock or on a channel of the monitor. -/
def Foreign (mon : Monitor K M L A) : Stage L A → Prop
  | .out => True
  | .enter a lk | .unlock a lk | .mark a lk | .slept a lk => lk ≠ mon.lock ∧ mon.chans a = false
  | .again lk => lk ≠ mon.lock

/-- How the point `k` of a process fits to its place in `sleep` and to the holder of the lock. -/
inductive Place (mon : Monitor K M L A) (ready : A → M → Prop) (holder : Option Slot) (m : M) (q : Slot) (k : K) :
    Stage L A → Prop
  | outside {z} : mon.Idle k → holder ≠ some q → mon.Foreign z → Place mon ready holder m q k z
  | running : ¬ mon.Idle k → holder = some q → Place mon ready holder m q k .out
  | enter {a} : mon.Resumes k → holder = some q → mon.chans a = true → ¬ ready a m →
      Place mon ready holder m q k (.enter a mon.lock)
  | unlock {a} : mon.Resumes k → holder = some q → mon.chans a = true → ¬ ready a m →
      Place mon ready holder m q k (.unlock a mon.lock)
  | mark {a} : mon.Resumes k → mon.chans a = true → Place mon ready holder m q k (.mark a mon.lock)
  | slept {a} : mon.Resumes k → mon.chans a = true → Place mon ready holder m q k (.slept a mon.lock)
  | again : mon.Resumes k → Place mon ready holder m q k (.again mon.lock)

/-- The process has given up the lock in `sleep` and nobody has woken it. -/
def Waits (mon : Monitor K M L A) (t : Sleepers L A) (q : Slot) (a : A) : Prop :=
  t.stage q = .mark a mon.lock ∨ t.stage q = .slept a mon.lock ∧ t.asleep q = true

structure Ok (mon : Monitor K M L A) (ready : A → M → Prop) (owes : K → A → Prop) (t : Sleepers L A)
    (x : Site K M) : Prop where
  place : ∀ q, mon.Place ready (t.holder mon.lock) x.mem q (x.pos q) (t.stage q)
  watch : ∀ q a, mon.Waits t q a → ready a x.mem → ∃ w, t.holder mon.lock = some w ∧ owes (x.pos w) a

/-- What a process can do next in `sleep`. -/
inductive Continues (p : Slot) : Stage L A → SleepOp L A → Prop
  | none {z} : Continues p z .none
  | again {lk} : Continues p (.again lk) (.acquire p lk)
  | enter {a lk} : Continues p (.enter a lk) (.enter p a lk)
  | unlock {a lk} : Continues p (.unlock a lk) (.unlock p a lk)
  | mark {a lk} : Continues p (.mark a lk) (.mark p a lk)
  | slept {a lk} : Continues p (.slept a lk) (.resume p a lk)

section Ok

variable {pre : K → Int → M → Prop} {ready : A → M → Prop} {owes : K → A → Prop} {t t' : Sleepers L A}
  {z : Stage L A} {q : Slot} {k : K} {a : A} {lk : L}

namespace Place

/-- A process that does not have the lock does not care who has it, or what happens to the memory. -/
theorem frame {o o' : Option Slot} {m m' : M} (h : mon.Place ready o m q k z) (ho : o ≠ some q) (ho' : o' ≠ some q) :
    mon.Place ready o' m' q k z := by
  cases h with
  | outside hi _ hf => exact .outside hi ho' hf
  | running _ hq => exact absurd hq ho
  | enter _ hq => exact absurd hq ho
  | unlock _ hq => exact absurd hq ho
  | mark hr ha => exact .mark hr ha
  | slept hr ha => exact .slept hr ha
  | again hr => exact .again hr

theorem idle {o : Option Slot} {m : M} (hv : mon.Verified good pre ready owes) (h : mon.Place ready o m q k z)
    (hi : mon.Idle k) : o ≠ some q ∧ mon.Foreign z := by
  cases h with
  | outside _ ho hf => exact ⟨ho, hf⟩
  | running hn => exact absurd hi hn
  | enter hr => exact absurd hi (hv.resumes k hr).1
  | unlock hr => exact absurd hi (hv.resumes k hr).1
  | mark hr => exact absurd hi (hv.resumes k hr).1
  | slept hr => exact absurd hi (hv.resumes k hr).1
  | again hr => exact absurd hi (hv.resumes k hr).1

end Place

namespace Ok

theorem foreign (hv : mon.Verified good pre ready owes) (h : mon.Ok ready owes t x) (hi : mon.Idle (x.pos p))
    (hh : t'.holder mon.lock = t.holder mon.lock) (hst : t'.stage = update t.stage p z) (hz : mon.Foreign z)
    (hsl : ∀ q, q ≠ p → t'.asleep q = true → t.asleep q = true) : mon.Ok ready owes t' x := by
  refine ⟨fun q => ?_, fun q a hw hr => ?_⟩
  · rw [hh, hst]
    by_cases hq : q = p
    · rw [hq, update_self]
      exact .outside hi ((h.place p).idle hv hi).1 hz
    · rw [update_of_ne hq]
      exact h.place q
  · rw [hh]
    refine h.watch q a ?_ hr
    rw [Waits, hst] at hw
    by_cases hq : q = p
    · rw [hq, update_self] at hw
      rcases hw with rfl | ⟨rfl, -⟩ <;> exact absurd rfl hz.1
    · rw [update_of_ne hq] at hw
      exact hw.imp_right fun ⟨h1, h2⟩ => ⟨h1, hsl q hq h2⟩

theorem none (h : mon.Ok ready owes t x) (hs : t.Step .none t') : mon.Ok ready owes t' x := by
  obtain ⟨hh, hst, hsl⟩ := hs
  refine ⟨fun q => ?_, fun q a hw hr => ?_⟩
  · rw [hh, hst]
    exact h.place q
  · rw [hh]
    rw [Waits, hst] at hw
    exact h.watch q a (hw.imp_right fun ⟨h1, h2⟩ => ⟨h1, hsl q h2⟩) hr

theorem inSleep (h : mon.Ok ready owes t x) (hh : t'.holder = t.holder) (hst : t'.stage = update t.stage p z)
    (hz : mon.Place ready (t.holder mon.lock) x.mem p (x.pos p) z) (hsl : ∀ q, q ≠ p → t'.asleep q = t.asleep q)
    (hw : ∀ a, mon.Waits t' p a → mon.Waits t p a) : mon.Ok ready owes t' x := by
  refine ⟨fun q => ?_, fun q a hwq hr => ?_⟩
  · rw [hh, hst]
    by_cases hq : q = p
    · rw [hq, update_self]
      exact hz
    · rw [update_of_ne hq]
      exact h.place q
  · rw [hh]
    refine h.watch q a ?_ hr
    by_cases hq : q = p
    · rw [hq] at hwq ⊢
      exact hw a hwq
    · rwa [Waits, hst, update_of_ne hq, hsl q hq] at hwq

theorem owed (h : mon.Ok ready owes t x) (ho : ∀ q, q ≠ p → t.holder mon.lock ≠ some q) (hw : mon.Waits t q a)
    (hr : ready a x.mem) : t.holder mon.lock = some p ∧ owes (x.pos p) a := by
  obtain ⟨w, hh, hw⟩ := h.watch q a hw hr
  by_cases hp : w = p
  · rw [hp] at hh hw
    exact ⟨hh, hw⟩
  · exact absurd hh (ho w hp)

theorem locked (h : mon.Ok ready owes t x) (hpos : ∀ q, q ≠ p → y.pos q = x.pos q)
    (ho : ∀ q, q ≠ p → t.holder mon.lock ≠ some q) (ho' : ∀ q, q ≠ p → t'.holder mon.lock ≠ some q)
    (hst : ∀ q, q ≠ p → t'.stage q = t.stage q)
    (hp : mon.Place ready (t'.holder mon.lock) y.mem p (y.pos p) (t'.stage p))
    (hw : ∀ q a, mon.Waits t' q a → ready a y.mem → t'.holder mon.lock = some p ∧ owes (y.pos p) a) :
    mon.Ok ready owes t' y := by
  refine ⟨fun q => ?_, fun q a hwq hr => ⟨p, hw q a hwq hr⟩⟩
  by_cases hq : q = p
  · rw [hq]
    exact hp
  · rw [hpos q hq, hst q hq]
    exact (h.place q).frame (ho q hq) (ho' q hq)

theorem acquire (h : mon.Ok ready owes t x) (hk : ¬ mon.Idle k) (hs : t.Step (.acquire p mon.lock) t') :
    mon.Ok ready owes t' (x.goto p k) := by
  obtain ⟨hfree, -, rfl⟩ := hs
  have hp : ((t.hold mon.lock (some p)).goto p .out).holder mon.lock = some p := update_self ..
  have hfree' : ∀ q, q ≠ p → t.holder mon.lock ≠ some q := fun q _ hq => by rw [hfree] at hq; cases hq
  refine h.locked (p := p) (fun q hq => update_of_ne hq ..) hfree' (fun q hq hq' => ?_)
    (fun q hq => update_of_ne hq ..) ?_ fun q a hw hr => ?_
  · exact hq (Option.some.inj (hq'.symm.trans hp))
  · rw [Site.goto_pos, update_self, Sleepers.goto_stage, update_self]
    exact .running hk hp
  · have hq : q ≠ p := by
      rintro rfl
      rcases hw with hw | ⟨hw, -⟩ <;> rw [Sleepers.goto_stage, update_self] at hw <;> cases hw
    rw [Waits, Sleepers.goto_stage, update_of_ne hq] at hw
    have := (h.owed hfree' hw hr).1
    rw [hfree] at this
    cases this

theorem release (h : mon.Ok ready owes t x) (hk : mon.Idle k) (hno : ∀ b, ¬ owes (x.pos p) b)
    (hs : t.Step (.release p mon.lock) t') : mon.Ok ready owes t' (x.goto p k) := by
  obtain ⟨hh, hout, rfl⟩ := hs
  have hp : (t.hold mon.lock Option.none).holder mon.lock = Option.none := update_self ..
  have ho := Sleepers.holder_ne hh
  refine h.locked (p := p) (fun q hq => update_of_ne hq ..) ho (fun q _ => by rw [hp]; simp) (fun q _ => rfl) ?_
    fun q a hw hr => absurd (h.owed ho hw hr).2 (hno a)
  rw [Site.goto_pos, update_self, Sleepers.hold_stage, hout]
  exact .outside hk (by rw [hp]; simp) trivial

theorem call (h : mon.Ok ready owes t x) (hk : mon.Resumes k) (ha : mon.chans a = true) (hr : ¬ ready a x.mem)
    (hno : ∀ b, ¬ owes (x.pos p) b) (hh : t.holder mon.lock = some p) (hs : t.Step (.call p a mon.lock) t') :
    mon.Ok ready owes t' (x.goto p k) := by
  obtain ⟨-, rfl⟩ := hs
  have ho := Sleepers.holder_ne hh
  refine h.locked (p := p) (fun q hq => update_of_ne hq ..) ho ho (fun q hq => update_of_ne hq ..) ?_
    fun q b hw hb => ?_
  · rw [Site.goto_pos, update_self, Sleepers.goto_stage, update_self]
    exact .enter hk hh ha hr
  · have hq : q ≠ p := by
      rintro rfl
      rcases hw with hw | ⟨hw, -⟩ <;> rw [Sleepers.goto_stage, update_self] at hw <;> cases hw
    rw [Waits, Sleepers.goto_stage, update_of_ne hq] at hw
    exact absurd (h.owed ho hw hb).2 (hno b)

theorem unlock (hv : mon.Verified good pre ready owes) (h : mon.Ok ready owes t x)
    (hp : mon.Resumes (x.pos p) ∧ mon.chans a = true ∧ ¬ ready a x.mem) (hs : t.Step (.unlock p a mon.lock) t') :
    mon.Ok ready owes t' x := by
  obtain ⟨-, hh, rfl⟩ := hs
  have hfree : ((t.hold mon.lock Option.none).goto p (.mark a mon.lock)).holder mon.lock = Option.none :=
    update_self ..
  have ho := Sleepers.holder_ne hh
  refine h.locked (p := p) (fun _ _ => rfl) ho (fun q _ => by rw [hfree]; simp) (fun q hq => update_of_ne hq ..) ?_
    fun q b hw hr => ?_
  · rw [Sleepers.goto_stage, update_self]
    exact .mark hp.1 hp.2.1
  · exfalso
    by_cases hq : q = p
    · rw [hq, Waits, Sleepers.goto_stage, update_self] at hw
      rcases hw with hw | ⟨hw, -⟩ <;> cases hw
      exact hp.2.2 hr
    · rw [Waits, Sleepers.goto_stage, update_of_ne hq] at hw
      exact (hv.resumes _ hp.1).2 b (h.owed ho hw hr).2

theorem wakeup (h : mon.Ok ready owes t x) (hk : ¬ mon.Idle k) (howes : ∀ b, b ≠ a → owes (x.pos p) b → owes k b)
    (hh : t.holder mon.lock = some p) (hs : t.Step (.wakeup p a) t') : mon.Ok ready owes t' (x.goto p k) := by
  obtain ⟨hout, hno, hh', hst, hsl⟩ := hs
  have ho := Sleepers.holder_ne hh
  refine h.locked (p := p) (fun q hq => update_of_ne hq ..) ho (by rwa [hh']) (fun q _ => by rw [hst]) ?_
    fun q b hw hr => ?_
  · rw [Site.goto_pos, update_self, hst, hout]
    exact .running hk (by rw [hh', hh])
  · rw [Waits, hst] at hw
    rcases hw with hw | ⟨hw, hq⟩
    · exact absurd hw (hno q b _).2
    · obtain ⟨hq, hne⟩ := (hsl q).1 hq
      rw [hh', Site.goto_pos, update_self]
      refine ⟨hh, howes b ?_ (h.owed ho (.inr ⟨hw, hq⟩) hr).2⟩
      rintro rfl
      exact hne _ hw

theorem compute {m : M} (h : mon.Ok ready owes t x) (hk : ¬ mon.Idle k) (hh : t.holder mon.lock = some p)
    (hout : t.stage p = .out) (hready : ∀ a, ready a m → ready a x.mem ∨ owes k a)
    (howes : ∀ a, owes (x.pos p) a → owes k a) (hs : t.Step .none t') :
    mon.Ok ready owes t' ({ x with mem := m }.goto p k) := by
  obtain ⟨hh', hst, hsl⟩ := hs
  have ho := Sleepers.holder_ne hh
  refine h.locked (p := p) (fun q hq => update_of_ne hq ..) ho (by rwa [hh']) (fun q _ => by rw [hst]) ?_
    fun q a hw hr => ?_
  · rw [Site.goto_pos, update_self, hst, hout]
    exact .running hk (by rw [hh', hh])
  · rw [hh', Site.goto_pos, update_self]
    refine ⟨hh, (hready a hr).elim (fun hr => howes a ?_) id⟩
    rw [Waits, hst] at hw
    exact (h.owed ho (hw.imp_right fun ⟨h1, h2⟩ => ⟨h1, hsl q h2⟩) hr).2

end Ok

theorem Ok.resume {op : SleepOp L A} (hv : mon.Verified good pre ready owes) (h : mon.Ok ready owes t x)
    (hop : Continues p (t.stage p) op) (hs : t.Step op t') : mon.Ok ready owes t' x := by
  have hp := h.place p
  generalize hst : t.stage p = z at hop
  cases hop with
  | none => exact h.none hs
  | @again lk =>
    rw [hst] at hp
    cases hp with
    | outside hi ho hf =>
      obtain ⟨-, -, rfl⟩ := hs
      exact h.foreign hv hi (update_of_ne (Ne.symm hf) ..) rfl trivial fun _ _ => id
    | again hr =>
      have := h.acquire (hv.resumes _ hr).1 hs
      rwa [Site.goto, update_eq_self] at this
  | @enter a lk =>
    obtain ⟨-, rfl⟩ := hs
    rw [hst] at hp
    cases hp with
    | outside hi ho hf => exact h.foreign hv hi rfl rfl hf fun _ _ => id
    | enter hr hh ha hn =>
      refine h.inSleep rfl rfl (.unlock hr hh ha hn) (fun _ _ => rfl) fun b hb => ?_
      rw [Waits, Sleepers.goto_stage, update_self] at hb
      rcases hb with hb | ⟨hb, -⟩ <;> cases hb
  | @unlock a lk =>
    rw [hst] at hp
    cases hp with
    | outside hi ho hf =>
      obtain ⟨-, -, rfl⟩ := hs
      exact h.foreign hv hi (update_of_ne (Ne.symm hf.1) ..) rfl hf fun _ _ => id
    | unlock hr hh ha hn => exact h.unlock hv ⟨hr, ha, hn⟩ hs
  | @mark a lk =>
    obtain ⟨-, rfl⟩ := hs
    rw [hst] at hp
    cases hp with
    | outside hi ho hf =>
      exact h.foreign hv hi rfl rfl hf fun q hq hsl => (update_of_ne hq ..).symm.trans hsl
    | mark hr ha =>
      refine h.inSleep rfl rfl (.slept hr ha) (fun q hq => update_of_ne hq ..) fun b hb => ?_
      rw [Waits, Sleepers.goto_stage, update_self] at hb
      rcases hb with hb | ⟨hb, -⟩ <;> cases hb
      exact .inl hst
  | @slept a lk =>
    obtain ⟨-, -, rfl⟩ := hs
    rw [hst] at hp
    cases hp with
    | outside hi ho hf => exact h.foreign hv hi rfl rfl hf.1 fun _ _ => id
    | slept hr ha =>
      refine h.inSleep rfl rfl (.again hr) (fun _ _ => rfl) fun b hb => ?_
      rw [Waits, Sleepers.goto_stage, update_self] at hb
      rcases hb with hb | ⟨hb, -⟩ <;> cases hb

theorem Ok.other {o : Op L A} (hv : mon.Verified good pre ready owes) (h : mon.Ok ready owes t x)
    (hi : mon.Idle (x.pos p)) (hpc : s.pc p = .ready) (ho : mon.allows o = true) (hs : t.Step (s.opSleep p o) t') :
    mon.Ok ready owes t' x := by
  cases o with
  | acquire lk =>
    obtain ⟨-, -, rfl⟩ := hs
    exact h.foreign hv hi (update_of_ne (Ne.symm (of_decide_eq_true ho)) ..) rfl trivial fun _ _ => id
  | release lk =>
    obtain ⟨-, hst, rfl⟩ := hs
    refine h.foreign (z := .out) hv hi (update_of_ne (Ne.symm (of_decide_eq_true ho)) ..) ?_ trivial fun _ _ => id
    rw [← hst, update_eq_self]
    rfl
  | sleep a lk =>
    obtain ⟨-, rfl⟩ := hs
    have hf : lk ≠ mon.lock ∧ mon.chans a = false := of_decide_eq_true ho
    exact h.foreign hv hi rfl rfl hf fun _ _ => id
  | wakeup a =>
    obtain ⟨-, -, hh, hst, hsl⟩ := hs
    exact h.none ⟨hh, hst, fun q hq => ((hsl q).1 hq).1⟩
  | next =>
    rw [St.opSleep, hpc] at hs
    exact h.none hs
  | _ => exact h.none hs

end Ok

/-! ### Every run -/

structure Inv (mon : Monitor K M L A) (pre : K → Int → M → Prop) (ready : A → M → Prop) (owes : K → A → Prop)
    (s : St C L A) (x : Site K M) : Prop where
  ok : mon.Ok ready owes s.sleepers x
  pre : ∀ q, (s.procs q).state ≠ .UNUSED → pre (x.pos q) (s.procs q).pid x.mem
  unused : ∀ q, (s.procs q).state = .UNUSED → x.pos q = mon.start

section Run

variable {pre : K → Int → M → Prop} {ready : A → M → Prop} {owes : K → A → Prop} {a : Act C L A}

theorem continues {o : Op L A} (hm : (s.cpu c).mode = .away p) (hpc : s.pc p ≠ .ready)
    (hs : Sched.step s (.proc c o) = some s') : Continues p (s.pc p).stage (s.sleepOp (.proc c o)) := by
  rw [sleepOp_away hm]
  simp only [Sched.step, hm, St.procStep] at hs
  split at hs
  · exact absurd ‹_› hpc
  · exact .none
  · rw [St.opSleep]
    cases s.pc p <;> first | exact .none | constructor
  · cases hs

theorem Place.holder_eq {o : Option Slot} {m : M} {k : K} (h : mon.Place ready o m p k .out) (hk : ¬ mon.Idle k) :
    o = some p := by
  cases h with
  | outside hi => exact absurd hi hk
  | running _ ho => exact ho

theorem Place.resting {o : Option Slot} {m : M} {q : Slot} {k : K} {z : Stage L A} (h : mon.Place ready o m q k z)
    (ho : o ≠ some q) : mon.Idle k ∨ mon.Resumes k := by
  cases h with
  | outside hi => exact .inl hi
  | running _ hq => exact absurd hq ho
  | enter hr => exact .inr hr
  | unlock hr => exact .inr hr
  | mark hr => exact .inr hr
  | slept hr => exact .inr hr
  | again hr => exact .inr hr

namespace Inv

theorem pre_goto (h : mon.Inv pre ready owes s x) {k : K} (hk : pre k (s.procs p).pid x.mem) (q : Slot)
    (hq : (s.procs q).state ≠ .UNUSED) : pre ((x.goto p k).pos q) (s.procs q).pid x.mem := by
  by_cases hqp : q = p
  · rw [hqp, Site.goto_pos, update_self]
    exact hk
  · rw [Site.goto_pos, update_of_ne hqp]
    exact h.pre q hq

theorem unused_goto (h : mon.Inv pre ready owes s x) {k : K} (hp : (s.procs p).state ≠ .UNUSED) (q : Slot)
    (hq : (s.procs q).state = .UNUSED) : (x.goto p k).pos q = mon.start := by
  rw [Site.goto_pos, update_of_ne]
  · exact h.unused q hq
  · rintro rfl
    exact hp hq

theorem moves (hv : mon.Verified good pre ready owes) (hr : Machine.Reachable Sched.step init s)
    (h : mon.Inv pre ready owes s x) (hs : Sched.step s a = some s') (hmv : mon.Moves good s x a y) :
    mon.Ok ready owes s'.sleepers y ∧ (∀ q, (s.procs q).state ≠ .UNUSED → pre (y.pos q) (s.procs q).pid y.mem) ∧
    ∀ q, (s.procs q).state = .UNUSED → y.pos q = mon.start := by
  have hstep := step_sleepers hr hs
  have hlive : ∀ {c p}, (s.cpu c).mode = .away p → (s.procs p).state ≠ .UNUSED := fun hm => by
    rw [((reachable_ctl hr).away _ _ hm).1]
    decide
  have hout : ∀ {p}, s.pc p = .ready → s.sleepers.stage p = .out := fun hpc => by simp only [St.sleepers, hpc]; rfl
  have hholder : ∀ {p}, s.pc p = .ready → ¬ mon.Idle (x.pos p) → s.sleepers.holder mon.lock = some p :=
    fun {p} hpc hk => by
      have hp := h.ok.place p
      rw [hout hpc] at hp
      exact hp.holder_eq hk
  cases hmv with
  | scheduler => exact ⟨h.ok.none hstep, h.pre, h.unused⟩
  | sleeping hm hpc => exact ⟨h.ok.resume hv (continues hm hpc hs) hstep, h.pre, h.unused⟩
  | other hm hpc hi ho =>
    rw [sleepOp_away hm] at hstep
    exact ⟨h.ok.other hv hi hpc ho hstep, h.pre, h.unused⟩
  | @enter c p k entry hm hpc hk he =>
    rw [sleepOp_away hm] at hstep
    obtain ⟨hni, hpre⟩ := hv.entry _ _ k _ _ hk he (h.pre p (hlive hm))
    exact ⟨h.ok.acquire hni hstep, h.pre_goto hpre, h.unused_goto (hlive hm)⟩
  | @compute c p f hm hpc hg hk =>
    rw [sleepOp_away hm] at hstep
    have hp := hholder hpc (by rintro ⟨_, hi⟩; cases hk.symm.trans hi)
    obtain ⟨hni, hpre, hready, howes⟩ := hv.compute _ _ _ (s.procs p).killed _ hk hg (h.pre p (hlive hm))
    refine ⟨h.ok.compute hni hp (hout hpc) hready howes hstep, fun q hq => ?_, h.unused_goto (x := x) (hlive hm)⟩
    by_cases hqp : q = p
    · rw [hqp, Site.goto_pos, update_self]
      exact hpre
    · rw [Site.goto_pos, update_of_ne hqp]
      refine hv.stable _ f _ _ _ _ _ hk hg (h.pre p (hlive hm)) (fun he => hqp ?_)
        ((h.ok.place q).resting (Sleepers.holder_ne hp q hqp)) (h.pre q hq)
      exact (reachable_lives hr).1.inj q p (fun hl => hq (life_eq_free.1 hl)) he
  | @wakeup c p b k hm hpc hg hk =>
    rw [sleepOp_away hm] at hstep
    have hp := hholder hpc (by rintro ⟨_, hi⟩; cases hk.symm.trans hi)
    obtain ⟨hni, hpre, howes⟩ := hv.wakeup _ _ _ _ _ hk hg (h.pre p (hlive hm))
    exact ⟨h.ok.wakeup hni howes hp hstep, h.pre_goto hpre, h.unused_goto (hlive hm)⟩
  | @sleep c p b k hm hpc hg hk =>
    rw [sleepOp_away hm] at hstep
    have hp := hholder hpc (by rintro ⟨_, hi⟩; cases hk.symm.trans hi)
    obtain ⟨hb, hready, hpre, hno⟩ := hv.sleep _ _ _ _ _ hk hg (h.pre p (hlive hm))
    exact ⟨h.ok.call ⟨_, _, hk⟩ hb hready hno hp hstep, h.pre_goto hpre, h.unused_goto (hlive hm)⟩
  | @release c p k hm hpc hg hk =>
    rw [sleepOp_away hm] at hstep
    obtain ⟨hi, hpre, hno⟩ := hv.release _ _ _ _ hk hg (h.pre p (hlive hm))
    exact ⟨h.ok.release hi hno hstep, h.pre_goto hpre, h.unused_goto (hlive hm)⟩

theorem step (hv : mon.Verified good pre ready owes) (hr : Machine.Reachable Sched.step init s)
    (h : mon.Inv pre ready owes s x) (hs : Sched.step s a = some s') (hmv : mon.Moves good s x a y) :
    mon.Inv pre ready owes s' (mon.clear s' y) := by
  obtain ⟨hok, hpre, hun⟩ := h.moves hv hr hs hmv
  have hctl := reachable_lockCtl (hr.tail trivial hs)
  have hclear : ∀ q, (s'.procs q).state ≠ .UNUSED → (mon.clear s' y).pos q = y.pos q := fun q hq => if_neg hq
  have hstart : ∀ q, (s'.procs q).state = .UNUSED → (mon.clear s' y).pos q = mon.start := fun q hq => if_pos hq
  have hholder : ∀ q lk, s'.holder lk = some q → (s'.procs q).state ≠ .UNUSED := fun q lk hq => by
    rw [hctl.running hq]
    decide
  refine ⟨⟨fun q => ?_, fun q b hw hb => ?_⟩, fun q hq => ?_, hstart⟩
  · by_cases hq : (s'.procs q).state = .UNUSED
    · rw [hstart q hq]
      have hz : s'.sleepers.stage q = .out := hctl.dead q (.inl hq)
      rw [hz]
      exact .outside hv.start.1 (fun hh => hholder q _ hh hq) trivial
    · rw [hclear q hq]
      exact hok.place q
  · obtain ⟨w, hh, hw⟩ := hok.watch q b hw hb
    refine ⟨w, hh, ?_⟩
    rwa [hclear w (hholder w _ hh)]
  · rw [hclear q hq]
    by_cases hq' : (s.procs q).state = .UNUSED
    · rw [hun q hq']
      exact hv.start.2 _ _
    · have hpid : (s'.procs q).pid = (s.procs q).pid :=
        (Lives.step_pid (step_lives hr hs) q fun hl => hq (life_eq_free.1 hl)).resolve_left
          fun hl => hq' (life_eq_free.1 hl)
      rw [hpid]
      exact hpre q hq'

theorem init (hv : mon.Verified good pre ready owes) (m : M) :
    mon.Inv pre ready owes (Sched.init : St C L A) ⟨m, fun _ => mon.start⟩ := by
  have hout : ∀ q, (Sched.init : St C L A).sleepers.stage q = .out := fun q => by
    simp only [St.sleepers, Sched.init]
    split_ifs <;> rfl
  refine ⟨⟨fun q => ?_, fun q b hw => ?_⟩, fun q _ => hv.start.2 _ _, fun _ _ => rfl⟩
  · rw [hout]
    exact .outside hv.start.1 (by simp [St.sleepers, Sched.init, St.holder]) trivial
  · rcases hw with hw | ⟨hw, -⟩ <;> rw [hout] at hw <;> cases hw

/-- While the lock is free, nobody is SLEEPING on a channel whose condition holds. -/
theorem not_asleep {q : Slot} {b : A} (h : mon.Inv pre ready owes s x) (hctl : LockCtl s)
    (hfree : s.lock mon.lock = none) (hb : mon.chans b = true) (hst : (s.procs q).state = .SLEEPING)
    (hch : (s.procs q).chan = some (.addr b)) : ¬ ready b x.mem := by
  intro hready
  obtain ⟨lk, hpc, hsl⟩ := hctl.asleep_on hst hch
  have hz : s.sleepers.stage q = .slept b lk := by simp only [St.sleepers, hpc]; rfl
  have hp := h.ok.place q
  rw [hz] at hp
  cases hp with
  | outside _ _ hf =>
    rw [hf.2] at hb
    cases hb
  | slept _ _ =>
    obtain ⟨w, hw, -⟩ := h.ok.watch q b (.inr ⟨hz, hsl⟩) hready
    cases (holder_none hfree).symm.trans hw

end Inv

theorem reachable_inv {z : St C L A × Site K M} {m : M} (hv : mon.Verified good pre ready owes)
    (hr : Machine.Reach mon.step (fun z b => fine good z b = true) (init, ⟨m, fun _ => mon.start⟩) z) :
    Machine.Reachable Sched.step init z.1 ∧ mon.Inv pre ready owes z.1 z.2 := by
  induction hr with
  | refl => exact ⟨.refl, .init hv m⟩
  | tail _ hg hs ih =>
    obtain ⟨hr, hi⟩ := ih
    obtain ⟨a, y, hs, hy, hmv⟩ := step_moves hg hs
    rw [hy]
    exact ⟨hr.tail trivial hs, hi.step hv hr hs hmv⟩

end Run

end Monitor

end Xv6.Sched
