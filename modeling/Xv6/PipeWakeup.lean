import Xv6.Monitor
import Xv6.Pipe

/-!
# Sleeping readers and writers of a pipe (`pipe.c`)

`pipewrite`, `piperead` and `pipeclose` as a monitor with the channels `&p->nread` and `&p->nwrite`,
run by any number of processes of the machine, which `kill` can hit at any time. Calls are not
restricted: an end may be closed while others still use it.

A reader that sleeps is woken by whoever stores bytes, except that `pipewrite` returns -1 without a
`wakeup` when it finds the pipe full and its caller killed: `Point.aborts` singles out the returns
after bytes have been stored for which nobody was woken.
-/

namespace Xv6.Pipe

open Function
open RingBuffer (slot)
open Sched (Instr Monitor MonAct Site)

set_option linter.unusedSectionVars false

variable {C L A : Type} [DecidableEq C] [DecidableEq L] [DecidableEq A]

def full (p : Pipe) : Bool := p.nwrite == p.nread + UInt32.ofNat PIPESIZE

def empty (p : Pipe) : Bool := p.nread == p.nwrite

def push (p : Pipe) (b : UInt8) : Pipe :=
  { p with
    data := update p.data (slot PIPESIZE p.nwrite) b
    nwrite := p.nwrite + 1 }

def pop (p : Pipe) : UInt8 × Pipe := (p.data (slot PIPESIZE p.nread), { p with nread := p.nread + 1 })

/-- The points of the three functions. `stored` is history: the caller of `pipewrite` has stored bytes
since it last called `wakeup` or took the lock. -/
inductive Point
  | out
  | writeLoop (addr : Nat → UInt8) (n : Int) (i : Nat) (stored : Bool) -- at the head of a loop
  | writeAbort (stored : Bool) -- before `release` and `return -1`
  | writeWake (addr : Nat → UInt8) (n : Int) (i : Nat)
  | writeSleep (addr : Nat → UInt8) (n : Int) (i : Nat)
  | writeEnd (n : Int) -- before the last `wakeup`
  | readWait (n : Int) -- at the head of the `while`
  | readSleep (n : Int)
  | readCopy (n : Int) (got : List UInt8) -- at the head of the `for`, with counter `got.length`
  | readEnd (got : List UInt8)
  | close (writable : Bool)
  | closeWake (writable : Bool)
  | done (r : Int) -- before the last `release`, with the value to be returned

def writeLoop (killed : Bool) (addr : Nat → UInt8) (n : Int) (i : Nat) (stored : Bool) (p : Pipe) : Pipe × Point :=
  if (i : Int) < n then
    if p.full then
      if p.readopen = false ∨ killed = true then (p, .writeAbort stored) else (p, .writeWake addr n i)
    else (p.push (addr i), .writeLoop addr n (i + 1) true)
  else (p, .writeEnd n)

def readWait (killed : Bool) (n : Int) (p : Pipe) : Pipe × Point :=
  if p.empty ∧ p.writeopen then
    if killed then (p, .done (-1)) else (p, .readSleep n)
  else (p, .readCopy n [])

def readCopy (n : Int) (got : List UInt8) (p : Pipe) : Pipe × Point :=
  if (got.length : Int) < n ∧ p.empty = false then (p.pop.2, .readCopy n (got ++ [p.pop.1]))
  else (p, .readEnd got)

def close (writable : Bool) (p : Pipe) : Pipe × Point :=
  (if writable then { p with writeopen := false } else { p with readopen := false }, .closeWake writable)

def Point.entry : Point → Bool
  | .writeLoop _ _ i stored => i = 0 ∧ stored = false
  | .readWait _ | .close _ => true
  | _ => false

section Monitor

variable (lk : L) (nread nwrite : A)

def code : Point → Instr Point Pipe A
  | .out => .idle Point.entry
  | .writeLoop addr n i stored => .compute fun _ killed p => writeLoop killed addr n i stored p
  | .writeAbort _ => .release .out
  | .writeWake addr n i => .wakeup nread (.writeSleep addr n i)
  | .writeSleep addr n i => .sleep nwrite (.writeLoop addr n i false)
  | .writeEnd n => .wakeup nread (.done n)
  | .readWait n => .compute fun _ killed p => readWait killed n p
  | .readSleep n => .sleep nread (.readWait n)
  | .readCopy n got => .compute fun _ _ p => readCopy n got p
  | .readEnd got => .wakeup nwrite (.done got.length)
  | .close writable => .compute fun _ _ p => close writable p
  | .closeWake writable => .wakeup (if writable then nread else nwrite) (.done 0)
  | .done _ => .release .out

def monitor : Monitor Point Pipe L A where
  lock := lk
  chans a := a = nread ∨ a = nwrite
  code := code nread nwrite
  start := .out

/-- `pipewrite` gives up after it has stored bytes and woken nobody. -/
def Point.aborts : Point → Bool
  | .writeAbort stored => stored
  | _ => false

/-- The conditions readers and writers wait for. -/
def Ready (a : A) (p : Pipe) : Prop :=
  a = nread ∧ (p.nread ≠ p.nwrite ∨ p.writeopen = false) ∨
  a = nwrite ∧ (p.nwrite ≠ p.nread + UInt32.ofNat PIPESIZE ∨ p.readopen = false)

def Owes (k : Point) (a : A) : Prop :=
  match k with
  | .writeLoop _ _ _ stored | .writeAbort stored => stored = true ∧ a = nread
  | .writeWake _ _ _ | .writeEnd _ => a = nread
  | .readCopy _ got => got ≠ [] ∧ a = nwrite
  | .readEnd _ => a = nwrite
  | .closeWake writable => a = if writable then nread else nwrite
  | _ => False

end Monitor

def Pre (k : Point) (_ : Int) (p : Pipe) : Prop :=
  match k with
  | .writeWake _ _ _ | .writeSleep _ _ _ => p.full = true ∧ p.readopen = true
  | .readSleep _ => p.empty = true ∧ p.writeopen = true
  | _ => True

variable {lk : L} {nread nwrite : A} {k : Point}

theorem not_idle (hk : k ≠ .out) : ¬ (monitor lk nread nwrite).Idle k := by
  rintro ⟨entry, he⟩
  cases k with
  | out => exact hk rfl
  | _ => cases he

theorem resumes (hk : (monitor lk nread nwrite).Resumes k) :
    (∃ addr n i, k = .writeLoop addr n i false) ∨ ∃ n, k = .readWait n := by
  obtain ⟨k0, a, hk⟩ := hk
  cases k0 <;> cases hk
  · exact .inl ⟨_, _, _, rfl⟩
  · exact .inr ⟨_, rfl⟩

theorem full_iff (p : Pipe) : p.full = true ↔ p.nwrite = p.nread + UInt32.ofNat PIPESIZE := beq_iff_eq

theorem empty_iff (p : Pipe) : p.empty = true ↔ p.nread = p.nwrite := beq_iff_eq

def Good (nread nwrite : A) (k : Point) (p : Pipe) (r : Pipe × Point) : Prop :=
  r.2 ≠ .out ∧ (∀ pid, Pre r.2 pid r.1) ∧
  (∀ a, Ready nread nwrite a r.1 → Ready nread nwrite a p ∨ Owes nread nwrite r.2 a) ∧
  ∀ a, Owes nread nwrite k a → Owes nread nwrite r.2 a

theorem good_writeLoop (killed : Bool) (addr : Nat → UInt8) (n : Int) (i : Nat) (stored : Bool) (p : Pipe) :
    Good nread nwrite (.writeLoop addr n i stored) p (writeLoop killed addr n i stored p) := by
  unfold writeLoop
  split_ifs with hn hf hr
  · exact ⟨by simp, fun _ => trivial, fun _ => .inl, fun _ => id⟩
  · refine ⟨by simp, fun _ => ⟨hf, ?_⟩, fun _ => .inl, fun _ h => h.2⟩
    cases hp : p.readopen with
    | true => rfl
    | false => exact absurd (.inl hp) hr
  · refine ⟨by simp, fun _ => trivial, fun a ha => ?_, fun _ h => ⟨rfl, h.2⟩⟩
    -- readers now have bytes; writers had space before
    rcases ha with ⟨rfl, -⟩ | ⟨rfl, -⟩
    · exact .inr ⟨rfl, rfl⟩
    · exact .inl (.inr ⟨rfl, .inl fun h => hf ((full_iff p).2 h)⟩)
  · exact ⟨by simp, fun _ => trivial, fun _ => .inl, fun _ h => h.2⟩

theorem good_readWait (killed : Bool) (n : Int) (p : Pipe) :
    Good nread nwrite (.readWait n) p (readWait killed n p) := by
  unfold readWait
  split_ifs with he hk
  · exact ⟨by simp, fun _ => trivial, fun _ => .inl, fun _ h => h.elim⟩
  · exact ⟨by simp, fun _ => he, fun _ => .inl, fun _ h => h.elim⟩
  · exact ⟨by simp, fun _ => trivial, fun _ => .inl, fun _ h => h.elim⟩

theorem good_readCopy (n : Int) (got : List UInt8) (p : Pipe) :
    Good nread nwrite (.readCopy n got) p (readCopy n got p) := by
  unfold readCopy
  split_ifs with hn
  · refine ⟨by simp, fun _ => trivial, fun a ha => ?_, fun _ h => ⟨by simp, h.2⟩⟩
    rcases ha with ⟨rfl, -⟩ | ⟨rfl, -⟩
    · refine .inl (.inl ⟨rfl, .inl fun h => ?_⟩)
      rw [(empty_iff p).2 h] at hn
      cases hn.2
    · exact .inr ⟨by simp, rfl⟩
  · exact ⟨by simp, fun _ => trivial, fun _ => .inl, fun _ h => h.2⟩

theorem good_close (writable : Bool) (p : Pipe) : Good nread nwrite (.close writable) p (close writable p) := by
  refine ⟨by simp [close], fun _ => trivial, fun a ha => ?_, fun _ h => h.elim⟩
  cases writable with
  | true =>
    rcases ha with ⟨rfl, -⟩ | ha
    · exact .inr rfl
    · exact .inl (.inr ha)
  | false =>
    rcases ha with ha | ⟨rfl, -⟩
    · exact .inl (.inl ha)
    · exact .inr rfl

theorem verified (hne : nread ≠ nwrite) : (monitor lk nread nwrite).Verified (fun k => !k.aborts) Pre
    (Ready nread nwrite) (Owes nread nwrite) where
  start := ⟨⟨_, rfl⟩, fun _ _ => trivial⟩
  entry k entry k' pid m hk he _ := by
    cases k <;> cases hk
    cases k' with
    | writeLoop _ _ _ _ => exact ⟨not_idle (by simp), trivial⟩
    | readWait _ => exact ⟨not_idle (by simp), trivial⟩
    | close _ => exact ⟨not_idle (by simp), trivial⟩
    | _ => cases he
  compute k f pid killed m hk _ _ := by
    have hgood : Good nread nwrite k m (f pid killed m) := by
      cases k <;> cases hk
      · exact good_writeLoop ..
      · exact good_readWait ..
      · exact good_readCopy ..
      · exact good_close ..
    exact ⟨not_idle hgood.1, hgood.2.1 pid, hgood.2.2⟩
  stable k f pid killed m k' pid' _ _ _ _ hk' _ := by
    -- nothing is asserted of a process without the lock
    rcases hk' with ⟨entry, hk'⟩ | hk'
    · cases k' <;> cases hk'
      trivial
    · rcases resumes hk' with ⟨addr, n, i, rfl⟩ | ⟨n, rfl⟩
      · trivial
      · trivial
  wakeup k a k' pid m hk _ hp := by
    cases k <;> cases hk
    · exact ⟨not_idle (by simp), hp, fun b hb h => absurd h hb⟩
    · exact ⟨not_idle (by simp), trivial, fun b hb h => absurd h hb⟩
    · exact ⟨not_idle (by simp), trivial, fun b hb h => absurd h hb⟩
    · exact ⟨not_idle (by simp), trivial, fun b hb h => absurd h hb⟩
  sleep k a k' pid m hk _ hp := by
    cases k <;> cases hk
    · refine ⟨decide_eq_true (.inr rfl), ?_, trivial, fun _ => id⟩
      rintro (⟨h, -⟩ | ⟨-, h | h⟩)
      · exact hne h.symm
      · exact h ((full_iff m).1 hp.1)
      · cases hp.2.symm.trans h
    · refine ⟨decide_eq_true (.inl rfl), ?_, trivial, fun _ => id⟩
      rintro (⟨-, h | h⟩ | ⟨h, -⟩)
      · exact h ((empty_iff m).1 hp.1)
      · cases hp.2.symm.trans h
      · exact hne h
  resumes k hk := by
    rcases resumes hk with ⟨addr, n, i, rfl⟩ | ⟨n, rfl⟩
    · exact ⟨not_idle (by simp), fun b h => by cases h.1⟩
    · exact ⟨not_idle (by simp), fun b => id⟩
  release k k' pid m hk hg _ := by
    cases k <;> cases hk
    · refine ⟨⟨_, rfl⟩, trivial, fun b h => ?_⟩
      rw [Point.aborts, h.1] at hg
      cases hg
    · exact ⟨⟨_, rfl⟩, trivial, fun b => id⟩

/-- The pipe `pipealloc` makes, with nobody in a call. -/
def site (junk : Fin PIPESIZE → UInt8) : Site Point Pipe :=
  ⟨{ data := junk, nread := 0, nwrite := 0, readopen := true, writeopen := true }, fun _ => .out⟩

/-- In a run in which no `pipewrite` gives up after it has stored bytes and woken nobody: while the lock
is free, nobody is SLEEPING on `&p->nread` while there are bytes to read or no writer is left, and
nobody on `&p->nwrite` while there is space or no reader is left. -/
theorem reachable_no_missed_wakeup {s : Sched.St C L A} {x : Site Point Pipe} {junk : Fin PIPESIZE → UInt8}
    (hne : nread ≠ nwrite)
    (hr : Machine.Reach (monitor lk nread nwrite).step (fun z b => Monitor.fine (fun k => !k.aborts) z b = true)
      (Sched.init, site junk) (s, x)) (hfree : s.lock lk = none) (q : Sched.Slot)
    (hq : (s.procs q).state = .SLEEPING) :
    ((s.procs q).chan = some (.addr nread) → ¬ (x.mem.nread ≠ x.mem.nwrite ∨ x.mem.writeopen = false)) ∧
    ((s.procs q).chan = some (.addr nwrite) →
      ¬ (x.mem.nwrite ≠ x.mem.nread + UInt32.ofNat PIPESIZE ∨ x.mem.readopen = false)) := by
  obtain ⟨hr, hi⟩ := Monitor.reachable_inv (verified hne) hr
  have hctl := Sched.reachable_lockCtl hr
  constructor
  · intro hch h
    exact hi.not_asleep hctl hfree (decide_eq_true (.inl rfl)) hq hch (.inl ⟨rfl, h⟩)
  · intro hch h
    exact hi.not_asleep hctl hfree (decide_eq_true (.inr rfl)) hq hch (.inr ⟨rfl, h⟩)

/-- `init` forks a reader and a writer; on the other CPU the reader goes to sleep on the empty pipe, and
the writer is about to run. -/
def readerSleeps : List (MonAct Bool Unit Chan Point) :=
  let parent (o : Sched.Op Unit Chan) : MonAct Bool Unit Chan Point := .proc false (.other o)
  let child (o : Sched.Op Unit Chan) : MonAct Bool Unit Chan Point := .proc true (.other o)
  [.scheduler false, .scheduler false, parent .next, parent .fork, parent (.kalloc (some 2)),
    parent (.copyuvm (some 3)), parent .setParent, parent .setRunnable, parent .fork, parent (.kalloc (some 4)),
    parent (.copyuvm (some 5)), parent .setParent, parent .setRunnable,
    .scheduler true, .scheduler true, .scheduler true, child .next,
    .proc true (.enter (.readWait 1)), .proc true .inside, .proc true .inside, child .next, child .next, child .next,
    .scheduler true, .scheduler true, child .next]

theorem readerSleeps_run : ((Machine.runOk (monitor () Chan.nread Chan.nwrite).step
    (fun z b => Monitor.fine (fun k => !k.aborts) z b = true)
    ((Sched.init : Sched.St Bool Unit Chan), site fun _ => 0) readerSleeps).any fun z =>
      z.1.lock () = none ∧ (z.1.procs 1).state = .SLEEPING ∧ (z.1.procs 1).chan = some (.addr .nread)) = true := by
  decide +kernel

theorem reachable_no_missed_wakeup_readerSleeps : ∃ (s : Sched.St Bool Unit Chan) (x : Site Point Pipe),
    Machine.Reach (monitor () Chan.nread Chan.nwrite).step (fun z b => Monitor.fine (fun k => !k.aborts) z b = true)
      (Sched.init, site fun _ => 0) (s, x) ∧ s.lock () = none ∧ (s.procs 1).state = .SLEEPING ∧
    (s.procs 1).chan = some (.addr .nread) ∧ ¬ (x.mem.nread ≠ x.mem.nwrite ∨ x.mem.writeopen = false) := by
  obtain ⟨⟨s, x⟩, hrun, hz⟩ := (Option.any_eq_true _ _).1 readerSleeps_run
  obtain ⟨hfree, hst, hch⟩ := of_decide_eq_true hz
  have hr := Machine.Reach.of_runOk hrun
  exact ⟨s, x, hr, hfree, hst, hch, (reachable_no_missed_wakeup (by decide) hr hfree 1 hst).1 hch⟩

/-- The writer starts to write 513 bytes, stores 512, is killed by `init`, finds the pipe full and gives
up: it gives back the lock, and the reader sleeps on. -/
def writerAborts : List (MonAct Bool Unit Chan Point) :=
  readerSleeps ++ [.proc true (.enter (.writeLoop (fun _ => 0) 513 0 false))] ++
  List.replicate 512 (.proc true .inside) ++
  [.proc false (.other (.kill 3)), .proc true .inside, .proc true .inside]

theorem writer_aborts_reader_sleeps : ((Machine.run (monitor () Chan.nread Chan.nwrite).step
    ((Sched.init : Sched.St Bool Unit Chan), site fun _ => 0) writerAborts).any fun z =>
      z.1.lock () = none ∧ (z.1.procs 1).state = .SLEEPING ∧ (z.1.procs 1).chan = some (.addr .nread) ∧
      z.2.mem.nread ≠ z.2.mem.nwrite) = true := by
  decide +kernel

end Xv6.Pipe
