import Xv6.ProcMem

/-!
# Processes and CPUs (`proc.c`, and what `spinlock.c`, `vm.c`, `exec.c` and `trap.c` do to them)

The process table, the CPUs and the spinlocks. A CPU is in its `scheduler` loop or runs a process;
a process in kernel code takes and gives back locks, sleeps, wakes others, forks, waits, exits,
kills and replaces its address space in any order it likes. What it does with other memory is left
open: a program built on these steps is a machine that runs along with this one.

A step ends where a lock is taken or given back or the CPU changes hands. A section that takes
`ptable.lock` and gives it back without a `swtch` is one step; where the lock is carried through
`swtch`, `ptlock` stays with the CPU. Where the source calls `panic`, or spins, there is no step.
`nextpid` does not wrap: it stays an `int` as long as fewer than 2^31 processes are created.
-/

namespace Xv6.Sched

open Function
open ProcMem (NPROC ProcState)

abbrev Slot := Fin NPROC

/-- `wait` sleeps on the caller's `struct proc`, everything else on some other address. -/
inductive Chan (A : Type)
  | proc (p : Slot)
  | addr (a : A)
deriving DecidableEq

/-- `struct proc`; pages are known by number. -/
structure Proc (A : Type) where
  state : ProcState
  pid : Int
  parent : Option Slot
  killed : Bool
  chan : Option (Chan A)
  kstack : Option Nat
  pgdir : Option Nat

inductive Mode
  | idle -- before `acquire(&ptable.lock)`
  | scan (i : Nat) -- at the head of the loop over the table
  | away (p : Slot) -- in `swtch`: the CPU executes process `p`
  | back (p : Slot) -- just returned from `swtch`, before `switchkvm()`
deriving DecidableEq

/-- `struct cpu`, with the registers that say which page directory is loaded (`none` for `kpgdir`)
and which kernel stack is in use (`none` for the CPU's own). -/
structure Cpu where
  proc : Option Slot
  cr3 : Option Nat
  stack : Option Nat
  held : Nat -- `ncli` without the part of `ptable.lock`
  mode : Mode

/-- Where a process is in the functions that give up the CPU. -/
inductive Pc (L A : Type)
  | ready -- in none of them
  | forkret -- switched to for the first time
  | yielded (lk : Option L) -- in `sched`; `some lk` if interrupted before the last line of `sleep`
  | sleepEnter (a : A) (lk : L) -- before `acquire(&ptable.lock)`
  | sleepRelease (a : A) (lk : L) -- before `release(lk)`
  | sleepMark (a : A) (lk : L) -- before `p->chan = chan`
  | slept (a : A) (lk : L) -- in `sched`
  | relock (lk : L) -- before `acquire(lk)`
  | waitSlept -- in `sched`, called through `sleep` by `wait`
  | gone -- in the `sched` of `exit`

/-- How far a process is in `fork` or `exec`. -/
inductive Call
  | none
  | forkStack (np : Slot) -- in `allocproc`, before `kalloc`
  | forkCopy (np : Slot) -- before `copyuvm`
  | forkParent (np : Slot) -- before `np->parent = curproc`
  | forkRun (np : Slot) -- before the last `acquire(&ptable.lock)`
  | execImage (pgdir : Nat) -- building the image
  | execSwitch (oldpgdir : Nat) -- before `switchuvm(curproc)`
  | execFree (oldpgdir : Nat) -- before `freevm(oldpgdir)`
deriving DecidableEq

structure St (C L A : Type) where
  cpu : C → Cpu
  ptlock : Option C -- `ptable.lock.cpu`
  lock : L → Option C -- the other spinlocks
  procs : Slot → Proc A
  nextpid : Int
  initproc : Slot
  pc : Slot → Pc L A
  call : Slot → Call
  ret : Slot → Int -- what the last finished call returned
  used : Nat → Bool -- pages handed out by `kalloc`

/-- What a running process does next. The argument of the allocating steps is the page obtained. -/
inductive Op (L A : Type)
  | next -- goes on in `sleep`, `yield`, `wait` or `forkret`
  | nop -- does something else
  | yield -- is interrupted by the timer
  | acquire (lk : L)
  | release (lk : L)
  | sleep (a : A) (lk : L)
  | wakeup (a : A)
  | kill (pid : Int)
  | trap -- takes a fatal trap
  | growproc
  | exit
  | wait
  | fork
  | kalloc (page : Option Nat)
  | copyuvm (page : Option Nat)
  | setParent
  | setRunnable
  | exec (page : Option Nat)
  | execFail
  | execCommit
  | switchuvm
  | freevm

inductive Act (C L A : Type)
  | scheduler (c : C)
  | proc (c : C) (o : Op L A)

section Table

variable {A : Type} [DecidableEq A]

def wakeup1 (chan : Option (Chan A)) (procs : Slot → Proc A) (p : Slot) : Proc A :=
  if (procs p).state = .SLEEPING ∧ (procs p).chan = chan then { procs p with state := .RUNNABLE } else procs p

/-- The body of the loop in `exit` that hands the children of `p` to `init`. -/
def passChild (init p : Slot) (procs : Slot → Proc A) (z : Slot) : Slot → Proc A :=
  if (procs z).parent = some p then
    let procs' := update procs z { procs z with parent := some init }
    if (procs z).state = .ZOMBIE then wakeup1 (some (.proc init)) procs' else procs'
  else procs

def passChildren (init p : Slot) (procs : Slot → Proc A) : Slot → Proc A :=
  (List.finRange NPROC).foldl (passChild init p) procs

theorem passChildren_eq (init p : Slot) (procs : Slot → Proc A) :
    passChildren init p procs = (List.finRange NPROC).foldl (passChild init p) procs := rfl

attribute [irreducible] passChildren

omit [DecidableEq A] in
/-- The first slot the loops of `allocproc`, `wait` and `kill` stop at. -/
def firstSlot (procs : Slot → Proc A) (f : Proc A → Bool) : Option Slot :=
  (List.finRange NPROC).find? fun p => f (procs p)

end Table

variable {C L A : Type} [DecidableEq C] [DecidableEq L] [DecidableEq A]

namespace St

@[simps] def setCpu (s : St C L A) (c : C) (f : Cpu → Cpu) : St C L A :=
  { s with cpu := update s.cpu c (f (s.cpu c)) }

@[simps] def setProc (s : St C L A) (p : Slot) (f : Proc A → Proc A) : St C L A :=
  { s with procs := update s.procs p (f (s.procs p)) }

@[simps] def setPc (s : St C L A) (p : Slot) (pc : Pc L A) : St C L A := { s with pc := update s.pc p pc }

@[simps] def setCall (s : St C L A) (p : Slot) (call : Call) : St C L A :=
  { s with call := update s.call p call }

@[simps] def setRet (s : St C L A) (p : Slot) (r : Int) : St C L A := { s with ret := update s.ret p r }

@[simps] def setPtlock (s : St C L A) (o : Option C) : St C L A := { s with ptlock := o }

@[simps] def setProcs (s : St C L A) (procs : Slot → Proc A) : St C L A := { s with procs := procs }

@[simps] def take (s : St C L A) (page : Nat) : St C L A := { s with used := update s.used page true }

@[simps] def give (s : St C L A) (page : Nat) : St C L A := { s with used := update s.used page false }

/-! ### Spinlocks -/

/-- `acquire(lk)`: spins while another CPU has the lock, panics if this one has it. -/
def acquire (s : St C L A) (c : C) (lk : L) : Option (St C L A) :=
  if s.lock lk = none then
    some { s.setCpu c fun u => { u with held := u.held + 1 } with lock := update s.lock lk (some c) }
  else none

/-- `release(lk)`: panics unless this CPU has the lock. -/
def release (s : St C L A) (c : C) (lk : L) : Option (St C L A) :=
  if s.lock lk = some c then
    some { s.setCpu c fun u => { u with held := u.held - 1 } with lock := update s.lock lk none }
  else none

def acquirePt (s : St C L A) (c : C) : Option (St C L A) :=
  if s.ptlock = none then some (s.setPtlock (some c)) else none

def releasePt (s : St C L A) (c : C) : Option (St C L A) :=
  if s.ptlock = some c then some (s.setPtlock none) else none

/-! ### Giving up the CPU -/

/-- `sched`, up to the `swtch` to the scheduler; it panics if another lock is held or the process
is still RUNNING. -/
def sched (s : St C L A) (c : C) (p : Slot) : Option (St C L A) :=
  if s.ptlock = some c ∧ (s.cpu c).held = 0 ∧ (s.procs p).state ≠ .RUNNING then
    some (s.setCpu c fun u => { u with stack := none, mode := .back p })
  else none

def yield (s : St C L A) (c : C) (p : Slot) (lk : Option L) : Option (St C L A) := do
  let s ← s.acquirePt c
  let s := s.setProc p fun q => { q with state := .RUNNABLE }
  (s.setPc p (.yielded lk)).sched c p

/-- The end of `sleep`'s first half, for `sleep` and for `wait`. -/
def goToSleep (s : St C L A) (c : C) (p : Slot) (chan : Chan A) (pc : Pc L A) : Option (St C L A) :=
  let s := s.setProc p fun q => { q with chan := some chan, state := .SLEEPING }
  (s.setPc p pc).sched c p

def exit (s : St C L A) (c : C) (p : Slot) : Option (St C L A) := do
  if p = s.initproc then none -- panic("init exiting")
  else
    let s ← s.acquirePt c
    let procs := wakeup1 ((s.procs p).parent.map .proc) s.procs
    let s := s.setProcs (passChildren s.initproc p procs)
    let s := s.setProc p fun q => { q with state := .ZOMBIE }
    (s.setPc p .gone).sched c p

/-- The loop of `wait`, with `ptable.lock` held; `kfree` and `freevm` panic on null. -/
def waitLoop (s : St C L A) (c : C) (p : Slot) : Option (St C L A) :=
  match firstSlot s.procs fun z => z.parent = some p ∧ z.state = .ZOMBIE with
  | some z => do
    let kstack ← (s.procs z).kstack
    let pgdir ← (s.procs z).pgdir
    let r := (s.procs z).pid
    let s := ((s.give kstack).give pgdir).setProc z fun q =>
      { q with kstack := none, pid := 0, parent := none, killed := false, state := .UNUSED }
    ((s.setRet p r).setPc p .ready).releasePt c
  | none =>
    let havekids := (firstSlot s.procs fun z => z.parent = some p).isSome
    if havekids = false ∨ (s.procs p).killed = true then ((s.setRet p (-1)).setPc p .ready).releasePt c
    else s.goToSleep c p (.proc p) .waitSlept

/-- What a process does after it was switched to, or inside `sleep` before that. -/
def next (s : St C L A) (c : C) (p : Slot) : Option (St C L A) :=
  match s.pc p with
  | .forkret => (s.setPc p .ready).releasePt c
  | .yielded none => (s.setPc p .ready).releasePt c
  | .yielded (some lk) => (s.setPc p (.relock lk)).releasePt c
  | .sleepEnter a lk => (s.setPc p (.sleepRelease a lk)).acquirePt c
  | .sleepRelease a lk => (s.setPc p (.sleepMark a lk)).release c lk
  | .sleepMark a lk => s.goToSleep c p (.addr a) (.slept a lk)
  | .slept _ lk => ((s.setProc p fun q => { q with chan := none }).setPc p (.relock lk)).releasePt c
  | .relock lk => (s.setPc p .ready).acquire c lk
  | .waitSlept => (s.setProc p fun q => { q with chan := none }).waitLoop c p
  | .ready | .gone => none

/-! ### Critical sections that keep the CPU -/

def wakeup (s : St C L A) (c : C) (chan : Chan A) : Option (St C L A) := do
  let s ← s.acquirePt c
  (s.setProcs (wakeup1 (some chan) s.procs)).releasePt c

def kill (s : St C L A) (c : C) (p : Slot) (pid : Int) : Option (St C L A) := do
  let s ← s.acquirePt c
  match firstSlot s.procs fun q => q.pid = pid with
  | some q =>
    let s := s.setProc q fun x =>
      { x with killed := true, state := if x.state = .SLEEPING then .RUNNABLE else x.state }
    (s.setRet p 0).releasePt c
  | none => (s.setRet p (-1)).releasePt c

def wait (s : St C L A) (c : C) (p : Slot) : Option (St C L A) := do
  let s ← s.acquirePt c
  s.waitLoop c p

/-! ### `fork` -/

def allocproc (s : St C L A) (c : C) (p : Slot) : Option (St C L A) := do
  let s ← s.acquirePt c
  match firstSlot s.procs fun q => q.state = .UNUSED with
  | some np =>
    let pid := s.nextpid
    let s := { s with nextpid := s.nextpid + 1 }
    let s := s.setProc np fun q => { q with state := .EMBRYO, pid := pid }
    (s.setCall p (.forkStack np)).releasePt c
  | none => (s.setRet p (-1)).releasePt c

/-- A page from `kalloc`: any page that is not handed out. -/
def kalloc (s : St C L A) (page : Nat) : Option (St C L A) :=
  if s.used page = false then some (s.take page) else none

def forkStack (s : St C L A) (p np : Slot) : Option Nat → Option (St C L A)
  | none =>
    some (((s.setProc np fun q => { q with kstack := none, state := .UNUSED }).setRet p (-1)).setCall p .none)
  | some page => do
    let s ← s.kalloc page
    let s := s.setProc np fun q => { q with kstack := some page }
    return (s.setPc np .forkret).setCall p (.forkCopy np)

def forkCopy (s : St C L A) (p np : Slot) : Option Nat → Option (St C L A)
  | none => do
    let kstack ← (s.procs np).kstack
    let s := (s.give kstack).setProc np fun q => { q with pgdir := none, kstack := none, state := .UNUSED }
    return (s.setRet p (-1)).setCall p .none
  | some page => do
    let s ← s.kalloc page
    let s := s.setProc np fun q => { q with pgdir := some page }
    return s.setCall p (.forkParent np)

def forkParent (s : St C L A) (p np : Slot) : St C L A :=
  (s.setProc np fun q => { q with parent := some p }).setCall p (.forkRun np)

def forkRun (s : St C L A) (c : C) (p np : Slot) : Option (St C L A) := do
  let pid := (s.procs np).pid
  let s ← s.acquirePt c
  let s := s.setProc np fun q => { q with state := .RUNNABLE }
  ((s.setRet p pid).setCall p .none).releasePt c

/-! ### Address spaces -/

/-- `switchuvm(p)`, which panics without a kernel stack or a page directory. -/
def switchuvm (s : St C L A) (c : C) (p : Slot) : Option (St C L A) := do
  let _ ← (s.procs p).kstack
  let pgdir ← (s.procs p).pgdir
  return s.setCpu c fun u => { u with cr3 := some pgdir }

/-- `exec`, up to `setupkvm`. -/
def execStart (s : St C L A) (p : Slot) : Option Nat → Option (St C L A)
  | none => some (s.setRet p (-1))
  | some page => do
    let s ← s.kalloc page
    return s.setCall p (.execImage page)

def execFail (s : St C L A) (p : Slot) (pgdir : Nat) : St C L A :=
  ((s.give pgdir).setRet p (-1)).setCall p .none

def execCommit (s : St C L A) (p : Slot) (pgdir : Nat) : Option (St C L A) := do
  let oldpgdir ← (s.procs p).pgdir
  return (s.setProc p fun q => { q with pgdir := some pgdir }).setCall p (.execSwitch oldpgdir)

def execFree (s : St C L A) (p : Slot) (oldpgdir : Nat) : St C L A :=
  ((s.give oldpgdir).setRet p 0).setCall p .none

/-! ### The steps -/

/-- The system calls and the parts of `fork` and `exec`. -/
def callStep (s : St C L A) (c : C) (p : Slot) : Call → Op L A → Option (St C L A)
  | .none, .trap => some (s.setProc p fun q => { q with killed := true })
  | .none, .growproc => s.switchuvm c p
  | .none, .exit => s.exit c p
  | .none, .wait => s.wait c p
  | .none, .fork => s.allocproc c p
  | .forkStack np, .kalloc page => s.forkStack p np page
  | .forkCopy np, .copyuvm page => s.forkCopy p np page
  | .forkParent np, .setParent => some (s.forkParent p np)
  | .forkRun np, .setRunnable => s.forkRun c p np
  | .none, .exec page => s.execStart p page
  | .execImage pgdir, .execFail => some (s.execFail p pgdir)
  | .execImage pgdir, .execCommit => s.execCommit p pgdir
  | .execSwitch oldpgdir, .switchuvm => (s.switchuvm c p).map fun s => s.setCall p (.execFree oldpgdir)
  | .execFree oldpgdir, .freevm => some (s.execFree p oldpgdir)
  | _, _ => none

def readyStep (s : St C L A) (c : C) (p : Slot) : Op L A → Option (St C L A)
  | .nop => some s
  | .yield => s.yield c p none
  | .acquire lk => s.acquire c lk
  | .release lk => s.release c lk
  | .sleep a lk => some (s.setPc p (.sleepEnter a lk))
  | .wakeup a => s.wakeup c (.addr a)
  | .kill pid => s.kill c p pid
  | o => s.callStep c p (s.call p) o

/-- A process can be interrupted by the timer, apart from user code, wherever it holds no lock. -/
def procStep (s : St C L A) (c : C) (p : Slot) (o : Op L A) : Option (St C L A) :=
  match s.pc p, o with
  | .ready, o => s.readyStep c p o
  | .relock lk, .yield => s.yield c p (some lk)
  | _, .next => s.next c p
  | _, _ => none

def switchTo (s : St C L A) (c : C) (p : Slot) : Option (St C L A) := do
  let kstack ← (s.procs p).kstack
  let s ← (s.setCpu c fun u => { u with proc := some p }).switchuvm c p
  let s := s.setProc p fun q => { q with state := .RUNNING }
  return s.setCpu c fun u => { u with stack := some kstack, mode := .away p }

def scheduler (s : St C L A) (c : C) : Option (St C L A) :=
  match (s.cpu c).mode with
  | .idle => (s.setCpu c fun u => { u with mode := .scan 0 }).acquirePt c
  | .scan i =>
    if h : i < NPROC then
      if (s.procs ⟨i, h⟩).state = .RUNNABLE then s.switchTo c ⟨i, h⟩
      else some (s.setCpu c fun u => { u with mode := .scan (i + 1) })
    else (s.setCpu c fun u => { u with mode := .idle }).releasePt c
  | .away _ => none
  | .back p => some (s.setCpu c fun u => { u with cr3 := none, proc := none, mode := .scan (p + 1) })

end St

def step (s : St C L A) : Act C L A → Option (St C L A)
  | .scheduler c => s.scheduler c
  | .proc c o =>
    match (s.cpu c).mode with
    | .away p => s.procStep c p o
    | _ => none

/-- The state after `userinit`: process 0, with pages 0 and 1 as its kernel stack and page directory,
is the first to run, and the CPUs enter `scheduler`. -/
def init : St C L A where
  cpu _ := ⟨none, none, none, 0, .idle⟩
  ptlock := none
  lock _ := none
  procs p :=
    if p = 0 then ⟨.RUNNABLE, 1, none, false, none, some 0, some 1⟩
    else ⟨.UNUSED, 0, none, false, none, none, none⟩
  nextpid := 2
  initproc := 0
  pc p := if p = 0 then .forkret else .gone
  call _ := .none
  ret _ := 0
  used page := page = 0 ∨ page = 1

/-- `init` forks; the child runs on the other CPU and exits. -/
def forkExit : List (Act Bool Unit Unit) :=
  let process (o : Op Unit Unit) : Act Bool Unit Unit := .proc false o
  [.scheduler false, .scheduler false, process .next, process .fork, process (.kalloc (some 2)),
    process (.copyuvm (some 3)), process .setParent, process .setRunnable,
    .scheduler true, .scheduler true, .scheduler true, .proc true .next, .proc true .exit] ++
  List.replicate 64 (.scheduler true)

end Xv6.Sched
