import Xv6.Param
import Xv6.Lib.Run

/-!
# The redo log (`log.c`)

The disk, the buffers that cache it, `struct log` and the processes that run file-system operations.
One step is at most one single-block disk write: `commit` and `recover_from_log` are cut at every
`bwrite`, so that a crash can fall between any two of them, and `crash` loses everything but the
disk. A buffer is described by its bytes (`cache`), its B_DIRTY flag and its holder; any block can be
brought into the cache at any time, and any buffer that is neither dirty nor held can be recycled.

An operation is a `begin_op`, modifications of held buffers each followed by `log_write`, and an
`end_op`. A `log_write` that would panic for lack of room is not a step. The last six fields of the
state are history: which updates belong to the group being formed, to the groups whose `commit` has
begun since the last crash, how many of these commits have returned, and the same for every earlier
boot.
-/

namespace Xv6.Log

open Function (update)

/-- `log.start` and `log.size`; the log has at least its header block. -/
structure Geometry where
  start : Nat
  size : Nat
  size_pos : 0 < size

def Geometry.Home (g : Geometry) (b : Nat) : Prop := b < g.start ∨ g.start + g.size ≤ b

instance (g : Geometry) (b : Nat) : Decidable (g.Home b) := inferInstanceAs (Decidable (_ ∨ _))

/-! ### The header block: `struct logheader { int n; int block[LOGSIZE]; }` -/

/-- `log.lh.n = lh->n`, then the loop over `lh->block[i]`; a negative `n` makes no round. -/
def readHeader (b : Block) : List Nat :=
  (List.range (b.word 0).toBitVec.toInt.toNat).map fun i => (b.word (i + 1)).toNat

/-- `hb->block[i] = log.lh.block[i]` from index `i` on. -/
def putBlocks : Block → Nat → List Nat → Block
  | b, _, [] => b
  | b, i, x :: xs => putBlocks (b.setWord (i + 1) (UInt32.ofNat x)) (i + 1) xs

/-- The header block `b` after `write_head` has stored the in-memory header in it. -/
def putHeader (b : Block) (lh : List Nat) : Block :=
  putBlocks (b.setWord 0 (UInt32.ofNat lh.length)) 0 lh

/-! ### State -/

/-- One `log_write`: the operation it belongs to, the block, and the block's new contents. -/
structure Update where
  op : Nat
  blockno : Nat
  data : Block

inductive CommitPc
  | writeLog (tail : Nat)
  | writeHead
  | install (tail : Nat)
  | clearHead
  | done

inductive RecoverPc
  | readHead
  | install (tail : Nat)
  | clearHead

/-- Where a process is: in operation number `op`, holding the buffers of the blocks `held` that it
has modified and not yet logged, or in the `commit` of the last `end_op` of a group. -/
inductive Pc
  | out
  | inOp (op : Nat) (held : List Nat)
  | commit (c : CommitPc)

structure St (ι : Type) where
  disk : Nat → Block
  cache : Nat → Option Block
  dirty : Nat → Bool
  holder : Nat → Option ι
  lh : List Nat -- `log.lh.block[0 .. log.lh.n)`
  outstanding : Nat
  committing : Bool
  pc : ι → Pc
  boot : Option RecoverPc -- `initlog` at work
  nextOp : Nat
  forming : List Update
  groups : List (List Update)
  returned : Nat
  past : List (List (List Update) × Nat)

inductive Act (ι : Type)
  | begin (p : ι)
  | modify (p : ι) (b : Nat) (v : Block)
  | logWrite (p : ι) (b : Nat)
  | end (p : ι)
  | commit (p : ι)
  | fetch (b : Nat)
  | evict (b : Nat)
  | crash
  | recover

variable {ι : Type} [DecidableEq ι] (g : Geometry)

namespace St

variable (s : St ι)

def bread (b : Nat) : Block := (s.cache b).getD (s.disk b)

/-- `bwrite` of a buffer that holds `v`: the disk block changes, the buffer is valid and clean. -/
def bwrite (b : Nat) (v : Block) : St ι :=
  { s with
    disk := update s.disk b v
    cache := update s.cache b (some v)
    dirty := update s.dirty b false }

def setPc (p : ι) (pc : Pc) : St ι := { s with pc := update s.pc p pc }

/-- One round of `write_log`: copy the cached block `log.lh.block[tail]` to the log. -/
def writeLog (tail : Nat) (b : Nat) : St ι := s.bwrite (g.start + tail + 1) (s.bread b)

/-- One round of `install_trans`: copy log block `tail` to its home location. -/
def installTrans (tail : Nat) (b : Nat) : St ι := s.bwrite b (s.bread (g.start + tail + 1))

def writeHead : St ι := s.bwrite g.start (putHeader (s.bread g.start) s.lh)

end St

/-- `begin_op`; a process that would sleep does not step. -/
def beginOp (s : St ι) (p : ι) : Option (St ι) :=
  match s.pc p with
  | .out =>
    if s.committing then none
    else if s.lh.length + (s.outstanding + 1) * MAXOPBLOCKS > LOGSIZE then none
    else some { s.setPc p (.inOp s.nextOp []) with
      outstanding := s.outstanding + 1, nextOp := s.nextOp + 1 }
  | _ => none

/-- A process in an operation reads a block outside the log, unless another process holds it, and
changes it in place to `v`. -/
def modify (s : St ι) (p : ι) (b : Nat) (v : Block) : Option (St ι) :=
  match s.pc p with
  | .inOp op held =>
    if g.Home b ∧ b < 2 ^ 32 ∧ s.holder b = none then
      some { s.setPc p (.inOp op (b :: held)) with
        cache := update s.cache b (some v), holder := update s.holder b (some p) }
    else if s.holder b = some p then some { s with cache := update s.cache b (some v) }
    else none
  | _ => none

/-- `log_write` of a held buffer, followed by `brelse`. -/
def logWrite (s : St ι) (p : ι) (b : Nat) : Option (St ι) :=
  match s.pc p with
  | .inOp op held =>
    if s.holder b ≠ some p then none
    else if s.lh.length ≥ LOGSIZE ∨ s.lh.length ≥ g.size - 1 then none -- too big a transaction
    else if s.outstanding < 1 then none -- log_write outside of trans
    else
      let i := s.lh.idxOf b
      some { s.setPc p (.inOp op (held.erase b)) with
        lh := if i = s.lh.length then s.lh ++ [b] else s.lh.set i b
        dirty := update s.dirty b true
        holder := update s.holder b none
        forming := s.forming ++ [⟨op, b, s.bread b⟩] }
  | _ => none

/-- `end_op` up to the call of `commit`, with all modified buffers logged. -/
def endOp (s : St ι) (p : ι) : Option (St ι) :=
  match s.pc p with
  | .inOp _ [] =>
    if s.committing then none -- panic("log.committing")
    else if s.outstanding - 1 = 0 then
      some { s.setPc p (.commit (if s.lh.length > 0 then .writeLog 0 else .done)) with
        outstanding := s.outstanding - 1, committing := true
        forming := [], groups := s.groups ++ [s.forming] }
    else some { s.setPc p .out with outstanding := s.outstanding - 1 }
  | _ => none

def commitStep (s : St ι) (p : ι) : Option (St ι) :=
  match s.pc p with
  | .commit (.writeLog tail) =>
    match s.lh[tail]? with
    | some b => some ((s.writeLog g tail b).setPc p (.commit (.writeLog (tail + 1))))
    | none => some (s.setPc p (.commit .writeHead))
  | .commit .writeHead => some ((s.writeHead g).setPc p (.commit (.install 0)))
  | .commit (.install tail) =>
    match s.lh[tail]? with
    | some b => some ((s.installTrans g tail b).setPc p (.commit (.install (tail + 1))))
    | none => some { s.setPc p (.commit .clearHead) with lh := [] }
  | .commit .clearHead => some ((s.writeHead g).setPc p (.commit .done))
  | .commit .done => some { s.setPc p .out with committing := false, returned := s.returned + 1 }
  | _ => none

def recoverStep (s : St ι) : Option (St ι) :=
  match s.boot with
  | some .readHead => some { s with lh := readHeader (s.bread g.start), boot := some (.install 0) }
  | some (.install tail) =>
    match s.lh[tail]? with
    | some b => some { s.installTrans g tail b with boot := some (.install (tail + 1)) }
    | none => some { s with lh := [], boot := some .clearHead }
  | some .clearHead => some { s.writeHead g with boot := none }
  | none => none

/-- A machine that boots from the disk `d`: nothing cached, `struct log` zero. -/
def boot (d : Nat → Block) (nextOp : Nat) (past : List (List (List Update) × Nat)) : St ι where
  disk := d
  cache := fun _ => none
  dirty := fun _ => false
  holder := fun _ => none
  lh := []
  outstanding := 0
  committing := false
  pc := fun _ => .out
  boot := some .readHead
  nextOp := nextOp
  forming := []
  groups := []
  returned := 0
  past := past

def step (s : St ι) (a : Act ι) : Option (St ι) :=
  match a with
  | .begin p => if s.boot.isSome then none else beginOp s p
  | .modify p b v => if s.boot.isSome then none else modify g s p b v
  | .logWrite p b => if s.boot.isSome then none else logWrite g s p b
  | .end p => if s.boot.isSome then none else endOp s p
  | .commit p => if s.boot.isSome then none else commitStep g s p
  | .fetch b => some { s with cache := update s.cache b (some (s.bread b)) }
  | .evict b =>
    if s.dirty b = false ∧ s.holder b = none then some { s with cache := update s.cache b none }
    else none
  | .crash => some (boot s.disk s.nextOp (s.past ++ [(s.groups, s.returned)]))
  | .recover => recoverStep g s

/-! ### What operations do to the disk -/

/-- The disk contents after the updates `us`, in their order. -/
def apply (d : Nat → Block) (us : List Update) : Nat → Block :=
  us.foldl (fun d u => update d u.blockno u.data) d

/-- The groups that took effect when the first `k` of each boot's groups did. -/
def surviving (past : List (List (List Update) × Nat)) (ks : List Nat) : List (List Update) :=
  (List.zipWith (fun e k => e.1.take k) past ks).flatten

end Xv6.Log
