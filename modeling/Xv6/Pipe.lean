import Xv6.Lib.RingBuffer
import Xv6.Lib.Run
import Xv6.Lib.Bytes

/-!
# Pipes (`pipe.c`)

The state of one pipe together with the processes that are inside `pipewrite`, `piperead` or
`pipeclose`. Every access to `struct pipe` is made with `p->lock` held, and one step below is what a
process does between two points at which its control state can be observed: taking the lock, one
test or one byte of a copy loop, going to sleep (`sleep` gives up the lock and marks the caller
SLEEPING in one step, under `ptable.lock`), waking up, returning.

`accepted` and `returned` are history: the bytes stored by `pipewrite` in the order of the stores,
and the bytes of the buffers handed back by `piperead` in the order of the returns.
-/

namespace Xv6

open RingBuffer (slot)

abbrev PIPESIZE : Nat := 512

/-- `struct pipe`, its lock apart. -/
structure Pipe where
  data : Fin PIPESIZE → UInt8
  nread : UInt32
  nwrite : UInt32
  readopen : Bool
  writeopen : Bool

namespace Pipe

inductive Chan
  | nread
  | nwrite
deriving DecidableEq

/-- Where a process is. `addr` is the caller's buffer, `n` the requested length and `i` the loop
counter of `pipewrite`; `got` is what `piperead` has stored at `addr` so far, so its length is the
loop counter there. -/
inductive Pc
  | idle
  | writeEnter (addr : Nat → UInt8) (n : Int) -- before `acquire(&p->lock)`
  | writeLoop (addr : Nat → UInt8) (n : Int) (i : Nat) -- at the head of the `for` or the `while`
  -- in `sleep`: SLEEPING, or already RUNNABLE and about to take the lock again
  | writeSleep (addr : Nat → UInt8) (n : Int) (i : Nat) (sleeping : Bool)
  | readEnter (n : Int)
  | readWait (n : Int) -- at the head of the `while`
  | readSleep (n : Int) (sleeping : Bool)
  | readCopy (n : Int) (got : List UInt8) -- at the head of the copy loop
  | closeEnter (writable : Bool)

def Pc.sleepsOn : Pc → Option Chan
  | .writeSleep _ _ _ true => some .nwrite
  | .readSleep _ true => some .nread
  | _ => none

def Pc.awake : Pc → Pc
  | .writeSleep addr n i _ => .writeSleep addr n i false
  | .readSleep n _ => .readSleep n false
  | pc => pc

inductive Call
  | write (addr : Nat → UInt8) (n : Int)
  | read (n : Int)
  | close (writable : Bool)

def Call.enter : Call → Pc
  | .write addr n => .writeEnter addr n
  | .read n => .readEnter n
  | .close writable => .closeEnter writable

/-- What the last step of a call returns: the count or `-1`, with the buffer `piperead` filled. -/
inductive Ret
  | write (r : Int)
  | read (n : Int) (r : Int) (buf : List UInt8)
  | close

/-- A pipe and the processes `ι` that use it. -/
structure St (ι : Type) where
  pipe : Pipe
  lock : Option ι -- the holder of `p->lock`
  pc : ι → Pc
  killed : ι → Bool
  freed : Bool -- the page of the pipe has been given back by `kfree`
  accepted : List UInt8
  returned : List UInt8

inductive Act (ι : Type)
  | call (p : ι) (c : Call)
  | run (p : ι)
  | kill (p : ι) -- some process calls `kill` on `p`

variable {ι : Type} [DecidableEq ι]

namespace St

def setPc (s : St ι) (p : ι) (pc : Pc) : St ι := { s with pc := Function.update s.pc p pc }

def wakeup (s : St ι) (chan : Chan) : St ι :=
  { s with pc := fun q => if (s.pc q).sleepsOn = some chan then (s.pc q).awake else s.pc q }

def release (s : St ι) : St ι := { s with lock := none }

/-- `acquire(&p->lock)`, after which the process is at `pc`; it spins while the lock is taken. -/
def acquire (s : St ι) (p : ι) (pc : Pc) : Option (St ι) :=
  match s.lock with
  | none => some ({ s with lock := some p }.setPc p pc)
  | some _ => none

def full (s : St ι) : Bool := s.pipe.nwrite == s.pipe.nread + UInt32.ofNat PIPESIZE

def empty (s : St ι) : Bool := s.pipe.nread == s.pipe.nwrite

def push (s : St ι) (b : UInt8) : St ι :=
  { s with
    pipe := { s.pipe with
      data := Function.update s.pipe.data (slot PIPESIZE s.pipe.nwrite) b
      nwrite := s.pipe.nwrite + 1 }
    accepted := s.accepted ++ [b] }

/-- `p->data[p->nread++ % PIPESIZE]`: the byte, and the state after the increment. -/
def pop (s : St ι) : UInt8 × St ι :=
  (s.pipe.data (slot PIPESIZE s.pipe.nread),
    { s with pipe := { s.pipe with nread := s.pipe.nread + 1 } })

end St

/-- One step of `pipewrite` with the lock held, at the head of a loop with counter `i`. -/
def writeStep (s : St ι) (p : ι) (addr : Nat → UInt8) (n : Int) (i : Nat) : Option Ret × St ι :=
  if (i : Int) < n then
    if s.full then
      if s.pipe.readopen = false ∨ s.killed p = true then
        (some (.write (-1)), (s.setPc p .idle).release)
      else (none, ((s.wakeup .nread).setPc p (.writeSleep addr n i true)).release)
    else (none, (s.push (addr i)).setPc p (.writeLoop addr n (i + 1)))
  else (some (.write n), ((s.wakeup .nread).setPc p .idle).release)

def readWaitStep (s : St ι) (p : ι) (n : Int) : Option Ret × St ι :=
  if s.empty ∧ s.pipe.writeopen then
    if s.killed p then (some (.read n (-1) []), (s.setPc p .idle).release)
    else (none, (s.setPc p (.readSleep n true)).release)
  else (none, s.setPc p (.readCopy n []))

/-- One step of `piperead` at the head of its copy loop; the counter is `got.length`. -/
def readCopyStep (s : St ι) (p : ι) (n : Int) (got : List UInt8) : Option Ret × St ι :=
  if (got.length : Int) < n ∧ s.empty = false then
    (none, s.pop.2.setPc p (.readCopy n (got ++ [s.pop.1])))
  else
    (some (.read n got.length got),
      { ((s.wakeup .nwrite).setPc p .idle).release with returned := s.returned ++ got })

-- `pipeclose`, from taking the lock to releasing it
def closeStep (s : St ι) (p : ι) (writable : Bool) : Option Ret × St ι :=
  let s' :=
    if writable then { s with pipe := { s.pipe with writeopen := false } }.wakeup .nread
    else { s with pipe := { s.pipe with readopen := false } }.wakeup .nwrite
  (some .close, { s'.setPc p .idle with freed := !s'.pipe.readopen && !s'.pipe.writeopen })

/-- The next step of process `p`, with the value it returns when the call ends there. -/
def runStep (s : St ι) (p : ι) : Option (Option Ret × St ι) :=
  match s.pc p with
  | .idle => none
  | .writeEnter addr n => (s.acquire p (.writeLoop addr n 0)).map (none, ·)
  | .writeLoop addr n i => some (writeStep s p addr n i)
  | .writeSleep _ _ _ true => none
  | .writeSleep addr n i false => (s.acquire p (.writeLoop addr n i)).map (none, ·)
  | .readEnter n => (s.acquire p (.readWait n)).map (none, ·)
  | .readWait n => some (readWaitStep s p n)
  | .readSleep _ true => none
  | .readSleep n false => (s.acquire p (.readWait n)).map (none, ·)
  | .readCopy n got => some (readCopyStep s p n got)
  | .closeEnter writable => if s.lock = none then some (closeStep s p writable) else none

/-- One step of the system. Nothing happens to a pipe whose page has been freed: `fileclose` calls
`pipeclose` for an end only when its last file reference is gone. -/
def step (s : St ι) (a : Act ι) : Option (St ι) :=
  if s.freed then none else
  match a with
  | .call p c =>
    match s.pc p with
    | .idle => some (s.setPc p c.enter)
    | _ => none
  | .run p => (runStep s p).map (·.2)
  | .kill p => some { s.setPc p (s.pc p).awake with killed := Function.update s.killed p true }

/-- The pipe `pipealloc` makes: both ends open, both counters 0, the data bytes whatever the page
held; no process has started a call on it. -/
def init (junk : Fin PIPESIZE → UInt8) : St ι where
  pipe := { data := junk, nread := 0, nwrite := 0, readopen := true, writeopen := true }
  lock := none
  pc := fun _ => .idle
  killed := fun _ => false
  freed := false
  accepted := []
  returned := []

end Pipe

end Xv6
