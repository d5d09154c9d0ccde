import Xv6.Param
import Xv6.Lib.DList
import Xv6.Lib.Run

/-!
# The buffer cache (`bio.c`)

`struct bcache` with its NBUF buffers and the circular list through `prev`/`next` (the node `none`
is `bcache.head`), the disk behind it and any number of processes. What happens under
`bcache.lock` is one step; between the steps of a process, in particular while it sleeps on a
buffer's lock or waits for `iderw`, the others run. A process may hold several buffers.

`iderw` takes effect in one step. `log_write` is modelled by what it does to the buffer. The
history `mods` (newest first) records every modification made in place; callers call `log_write` or
`bwrite` between a modification and `brelse`, which `unsaved` keeps track of.
-/

namespace Xv6.Bio

open Function DList

/-- `struct buf` without its list pointers; `lock` is the holder of the sleep lock. -/
structure Buf (ι : Type) where
  valid : Bool
  dirty : Bool
  dev : Nat
  blockno : Nat
  lock : Option ι
  refcnt : Nat
  data : Block

/-- Where a process is in `bread`, `bwrite` or `brelse`. -/
inductive Pc
  | idle
  | getting (b : Fin NBUF) (blockno : Nat) -- in `acquiresleep` at the end of `bget`
  | got (b : Fin NBUF) (blockno : Nat) -- `bget` has returned
  | reading (b : Fin NBUF) (blockno : Nat) -- in the `iderw` of `bread`
  | writing (b : Fin NBUF) -- in the `iderw` of `bwrite`
  | releasing (b : Fin NBUF) -- in `brelse`, past `releasesleep`
  deriving DecidableEq

structure St (ι : Type) where
  buf : Fin NBUF → Buf ι
  links : Links (Fin NBUF)
  disk : Nat → Block
  pc : ι → Pc
  unsaved : Fin NBUF → Bool
  mods : List (Nat × Block)

inductive Act (ι : Type)
  | bread (p : ι) (blockno : Nat)
  | modify (p : ι) (b : Fin NBUF) (v : Block)
  | logWrite (p : ι) (b : Fin NBUF)
  | bwrite (p : ι) (b : Fin NBUF)
  | brelse (p : ι) (b : Fin NBUF)
  | run (p : ι)

variable {ι : Type}

/-! ### Initialisation -/

/-- The list through all buffers, as `binit` links them one after the other behind the head. -/
def binitLinks : Links (Fin NBUF) :=
  (List.finRange NBUF).foldl Links.pushFront ⟨fun _ => none, fun _ => none⟩

/-- The machine after `binit`, with the disk `d`. -/
def init (d : Nat → Block) : St ι where
  buf := fun _ => ⟨false, false, 0, 0, none, 0, Bytes.zero _⟩
  links := binitLinks
  disk := d
  pc := fun _ => .idle
  unsaved := fun _ => false
  mods := []

/-! ### The functions of `bio.c` -/

def St.setBuf (s : St ι) (b : Fin NBUF) (v : Buf ι) : St ι := { s with buf := update s.buf b v }

def St.setPc [DecidableEq ι] (s : St ι) (p : ι) (pc : Pc) : St ι := { s with pc := update s.pc p pc }

inductive BgetResult
  | loops -- a list walk that does not come back to the head
  | panic -- "bget: no buffers"
  | cached (b : Fin NBUF)
  | recycled (b : Fin NBUF)

def bgetScan (s : St ι) (dev blockno : Nat) : BgetResult :=
  match scan s.links.next (fun b => (s.buf b).dev == dev && (s.buf b).blockno == blockno) NBUF
      (s.links.next none) with
  | none => .loops
  | some (some b) => .cached b
  | some none =>
    match scan s.links.prev (fun b => (s.buf b).refcnt == 0 && !(s.buf b).dirty) NBUF
        (s.links.prev none) with
    | none => .loops
    | some none => .panic
    | some (some b) => .recycled b

/-- `bget` up to `release(&bcache.lock)`: the buffer found, and the new state. -/
def bget (s : St ι) (dev blockno : Nat) : Option (Fin NBUF × St ι) :=
  match bgetScan s dev blockno with
  | .loops | .panic => none
  | .cached b => some (b, s.setBuf b { s.buf b with refcnt := (s.buf b).refcnt + 1 })
  | .recycled b => some (b, s.setBuf b
      { s.buf b with dev := dev, blockno := blockno, valid := false, dirty := false, refcnt := 1 })

/-- The disk transfer: a dirty buffer is written, another one is read. -/
def iderw (s : St ι) (b : Fin NBUF) : St ι :=
  let v := s.buf b
  if v.dirty then
    { s.setBuf b { v with valid := true, dirty := false } with disk := update s.disk v.blockno v.data }
  else s.setBuf b { v with valid := true, dirty := false, data := s.disk v.blockno }

def relse (s : St ι) (b : Fin NBUF) : St ι :=
  let s := s.setBuf b { s.buf b with refcnt := (s.buf b).refcnt - 1 }
  if (s.buf b).refcnt = 0 then { s with links := (s.links.unlink b).pushFront b } else s

variable [DecidableEq ι]

/-- The next step of process `p` inside a call; a `bread` that returns yields its buffer and block. -/
def run (s : St ι) (p : ι) : Option (Option (Fin NBUF × Nat) × St ι) :=
  match s.pc p with
  | .idle => none
  | .getting b n =>
    match (s.buf b).lock with
    | some _ => none -- sleeps
    | none => some (none, (s.setBuf b { s.buf b with lock := some p }).setPc p (.got b n))
  | .got b n =>
    if (s.buf b).valid then some (some (b, n), s.setPc p .idle)
    else some (none, s.setPc p (.reading b n))
  | .reading b n => some (some (b, n), (iderw s b).setPc p .idle)
  | .writing b => some (none, { (iderw s b).setPc p .idle with unsaved := update s.unsaved b false })
  | .releasing b => some (none, (relse s b).setPc p .idle)

/-- A buffer function called by the process that holds the lock of `b`. -/
def holding (s : St ι) (p : ι) (b : Fin NBUF) : Bool := s.pc p = .idle ∧ (s.buf b).lock = some p

def step (s : St ι) (a : Act ι) : Option (St ι) :=
  match a with
  | .bread p n =>
    if s.pc p = .idle then (bget s ROOTDEV n).map fun r => r.2.setPc p (.getting r.1 n) else none
  | .modify p b v =>
    if holding s p b then
      some { s.setBuf b { s.buf b with data := v } with
        unsaved := update s.unsaved b true, mods := ((s.buf b).blockno, v) :: s.mods }
    else none
  | .logWrite p b =>
    if holding s p b then
      some { s.setBuf b { s.buf b with dirty := true } with unsaved := update s.unsaved b false }
    else none
  | .bwrite p b =>
    if holding s p b then some ((s.setBuf b { s.buf b with dirty := true }).setPc p (.writing b))
    else none
  | .brelse p b =>
    if holding s p b ∧ s.unsaved b = false then
      some ((s.setBuf b { s.buf b with lock := none }).setPc p (.releasing b))
    else none
  | .run p => (run s p).map Prod.snd

/-- The bytes of the most recent modification of block `n`, or those of the initial disk. -/
def latest (d : Nat → Block) (mods : List (Nat × Block)) (n : Nat) : Block := (mods.lookup n).getD (d n)

end Xv6.Bio
