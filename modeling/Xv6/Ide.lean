import Xv6.Lib.LinkedQueue
import Xv6.Lib.Run
import Xv6.Param

/-!
# The disk drivers (`ide.c`, `memide.c`)

`ide.c` with the buffers it is called for, the IDE device and any number of processes. What happens under
`idelock` is one step; while a process sleeps on its buffer the others and the interrupt handler run. The
device works on the request it was given by the ports, then raises an interrupt; it reports no error. The
holder of a buffer's lock may change the buffer as it likes between calls.

`Memide` is the driver that has the disk in memory. `Sync` is what both are for: calls that are served one
after the other, each at once.
-/

namespace Xv6.Ide

open Function LinkedQueue

abbrev SECTOR_SIZE : Nat := 512

structure Buf where
  valid : Bool
  dirty : Bool
  dev : Nat
  blockno : Nat
  data : Block

/-- `(b->flags & (B_VALID | B_DIRTY)) == B_VALID`. -/
def Buf.synced (b : Buf) : Bool := b.valid && !b.dirty

inductive Stop
  | notLocked -- "iderw: buf not locked"
  | nothingToDo -- "iderw: nothing to do"
  | noDisk1 -- "iderw: ide disk 1 not present"
  | incorrectBlockno -- "incorrect blockno"
  | notDisk1 -- "iderw: request not for disk 1"
  | outOfRange -- "iderw: block out of range"
  | busy -- `idestart` while the device works on another request
  | loops -- a walk over `idequeue` that does not end

/-! ### The device -/

inductive Cmd
  | read | write

structure TaskFile where
  count : Nat
  lba0 : Nat
  lba1 : Nat
  lba2 : Nat
  drive : Nat

def TaskFile.sector (r : TaskFile) : Nat := r.lba0 + r.lba1 * 2 ^ 8 + r.lba2 * 2 ^ 16 + r.drive % 16 * 2 ^ 24

def TaskFile.disk (r : TaskFile) : Nat := r.drive / 16 % 2

structure Device where
  disk : Nat → Nat → Block -- the sectors of a disk
  regs : TaskFile
  port : Block -- what is read or written through the port 0x1f0
  busy : Option Cmd -- the command the device works on
  irq : Bool

/-- The device carries out its command and raises an interrupt. -/
def Device.finish (d : Device) : Cmd → Device
  | .read => { d with port := d.disk d.regs.disk d.regs.sector, busy := none, irq := true }
  | .write => { d with
      disk := update d.disk d.regs.disk (update (d.disk d.regs.disk) d.regs.sector d.port)
      busy := none
      irq := true }

/-! ### `ide.c` -/

inductive Pc
  | idle
  | asleep (b : Fin NBUF) -- in `sleep`
  | awake (b : Fin NBUF) -- `sleep` has returned or is about to
  deriving DecidableEq

/-- `queued`, `started` and `completed` are a record that no function reads. -/
structure St (ι : Type) where
  buf : Fin NBUF → Buf
  lock : Fin NBUF → Option ι
  idequeue : Queue (Fin NBUF)
  dev : Device
  havedisk1 : Bool
  pc : ι → Pc
  fault : Option Stop
  queued : List (Fin NBUF)
  started : List (Fin NBUF)
  completed : List (Fin NBUF)

def taskFile (b : Buf) : TaskFile :=
  let sector_per_block := BSIZE / SECTOR_SIZE
  let sector := b.blockno * sector_per_block
  { count := sector_per_block
    lba0 := sector &&& 0xff
    lba1 := (sector >>> 8) &&& 0xff
    lba2 := (sector >>> 16) &&& 0xff
    drive := 0xe0 ||| ((b.dev &&& 1) <<< 4) ||| ((sector >>> 24) &&& 0x0f) }

/-- The command for a buffer, and what is in the port 0x1f0 after it. -/
def Device.start (d : Device) (b : Buf) : Device :=
  if b.dirty then { d with regs := taskFile b, busy := some .write, port := b.data }
  else { d with regs := taskFile b, busy := some .read }

variable {ι : Type}

def St.panic (s : St ι) (e : Stop) : St ι := { s with fault := some e }

def idestart (s : St ι) (b : Fin NBUF) : St ι :=
  if (s.buf b).blockno ≥ FSSIZE then s.panic .incorrectBlockno
  else if s.dev.busy.isSome then s.panic .busy
  else { s with dev := s.dev.start (s.buf b), started := s.started ++ [b] }

/-- A buffer after its request: the data that was read, `B_VALID` set and `B_DIRTY` cleared. -/
def Buf.finish (b : Buf) (data : Block) : Buf :=
  { b with data := if b.dirty then b.data else data, valid := true, dirty := false }

def wakeup (pc : ι → Pc) (b : Fin NBUF) : ι → Pc := fun p => if pc p = .asleep b then .awake b else pc p

def ideintr (s : St ι) : St ι :=
  let s := { s with dev := { s.dev with irq := false } }
  match s.idequeue.head with
  | none => s
  | some b =>
    let s := { s with
      idequeue := s.idequeue.pop b
      buf := update s.buf b ((s.buf b).finish s.dev.port)
      pc := wakeup s.pc b
      completed := s.completed ++ [b] }
    match s.idequeue.head with
    | none => s
    | some b' => idestart s b'

variable [DecidableEq ι]

def wait (s : St ι) (p : ι) (b : Fin NBUF) : St ι :=
  { s with pc := update s.pc p (if (s.buf b).synced then .idle else .asleep b) }

/-- `iderw` up to the first test of its loop. -/
def iderw (s : St ι) (p : ι) (b : Fin NBUF) : St ι :=
  if s.lock b ≠ some p then s.panic .notLocked
  else if (s.buf b).synced then s.panic .nothingToDo
  else if (s.buf b).dev ≠ 0 ∧ s.havedisk1 = false then s.panic .noDisk1
  else
    match s.idequeue.append NBUF b with
    | none => s.panic .loops
    | some q =>
      let s := { s with idequeue := q, queued := s.queued ++ [b] }
      wait (if q.head = some b then idestart s b else s) p b

/-! ### Runs -/

inductive Act (ι : Type)
  | acquire (p : ι) (b : Fin NBUF)
  | release (p : ι) (b : Fin NBUF)
  | store (p : ι) (b : Fin NBUF) (v : Buf)
  | iderw (p : ι) (b : Fin NBUF)
  | device
  | ideintr
  | resume (p : ι)
  | wake (p : ι) -- `sleep` returns before `wakeup`

def step (s : St ι) (a : Act ι) : Option (St ι) :=
  if s.fault.isSome then none
  else
    match a with
    | .acquire p b => if s.pc p = .idle ∧ s.lock b = none then some { s with lock := update s.lock b (some p) } else none
    | .release p b => if s.pc p = .idle ∧ s.lock b = some p then some { s with lock := update s.lock b none } else none
    | .store p b v => if s.pc p = .idle ∧ s.lock b = some p then some { s with buf := update s.buf b v } else none
    | .iderw p b => if s.pc p = .idle then some (Ide.iderw s p b) else none
    | .device => s.dev.busy.map fun c => { s with dev := s.dev.finish c }
    | .ideintr => if s.dev.irq then some (Ide.ideintr s) else none
    | .resume p =>
      match s.pc p with
      | .awake b => some (wait s p b)
      | _ => none
    | .wake p =>
      match s.pc p with
      | .asleep b => some { s with pc := update s.pc p (.awake b) }
      | _ => none

/-- The calls of `iderw` are for locked buffers, with something to do and on a disk that is there. -/
def Proper (s : St ι) : Act ι → Prop
  | .iderw p b => s.lock b = some p ∧ (s.buf b).synced = false ∧ ((s.buf b).dev = 0 ∨ s.havedisk1 = true) ∧
      (s.buf b).blockno < FSSIZE
  | _ => True

structure Boot (s : St ι) : Prop where
  lock : ∀ b, s.lock b = none
  queue : s.idequeue.head = none
  busy : s.dev.busy = none
  irq : s.dev.irq = false
  pc : ∀ p, s.pc p = .idle
  fault : s.fault = none
  queued : s.queued = []
  started : s.started = []
  completed : s.completed = []

/-! ### `memide.c` -/

namespace Memide

def transfer (b : Buf) (p : Block) : Buf × Block :=
  if b.dirty then ({ b with dirty := false, valid := true }, b.data)
  else ({ b with data := p, valid := true }, p)

/-- `iderw`, for a buffer that is locked or not and a disk of `disksize` blocks. -/
def iderw (disksize : Nat) (locked : Bool) (b : Buf) (memdisk : Nat → Block) : Except Stop (Buf × (Nat → Block)) :=
  if !locked then .error .notLocked
  else if b.synced then .error .nothingToDo
  else if b.dev ≠ 1 then .error .notDisk1
  else if b.blockno ≥ disksize then .error .outOfRange
  else .ok ((transfer b (memdisk b.blockno)).1, update memdisk b.blockno (transfer b (memdisk b.blockno)).2)

end Memide

/-! ### Requests served at once -/

namespace Sync

inductive Pc
  | idle
  | called (b : Fin NBUF)
  | served (b : Fin NBUF)
  deriving DecidableEq

@[ext]
structure St (ι : Type) where
  buf : Fin NBUF → Buf
  lock : Fin NBUF → Option ι
  disk : Nat → Nat → Block
  pc : ι → Pc
  queue : List (Fin NBUF)

inductive Act (ι : Type)
  | acquire (p : ι) (b : Fin NBUF)
  | release (p : ι) (b : Fin NBUF)
  | store (p : ι) (b : Fin NBUF) (v : Buf)
  | call (p : ι) (b : Fin NBUF)
  | serve
  | ret (p : ι)

def St.transfer (t : St ι) (b : Fin NBUF) : Buf × (Nat → Nat → Block) :=
  let v := t.buf b
  let disk := t.disk (v.dev % 2)
  let r := Memide.transfer v (disk v.blockno)
  (r.1, update t.disk (v.dev % 2) (update disk v.blockno r.2))

def St.serve (t : St ι) (b : Fin NBUF) (q : List (Fin NBUF)) : St ι :=
  { t with
    buf := update t.buf b (t.transfer b).1
    disk := (t.transfer b).2
    pc := fun p => if t.pc p = .called b then .served b else t.pc p
    queue := q }

def step (t : St ι) : Act ι → Option (St ι)
  | .acquire p b => if t.pc p = .idle ∧ t.lock b = none then some { t with lock := update t.lock b (some p) } else none
  | .release p b => if t.pc p = .idle ∧ t.lock b = some p then some { t with lock := update t.lock b none } else none
  | .store p b v => if t.pc p = .idle ∧ t.lock b = some p then some { t with buf := update t.buf b v } else none
  | .call p b =>
    if t.pc p = .idle ∧ t.lock b = some p then some { t with pc := update t.pc p (.called b), queue := t.queue ++ [b] }
    else none
  | .serve =>
    match t.queue with
    | [] => none
    | b :: q => some (t.serve b q)
  | .ret p =>
    match t.pc p with
    | .served _ => some { t with pc := update t.pc p .idle }
    | _ => none

end Sync

end Xv6.Ide
