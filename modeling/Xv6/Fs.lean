import Xv6.FsFormat
import Xv6.Lib.Exec

/-!
# Blocks, inodes and their contents (`fs.c`)

The state is the disk as `bread` sees it through the buffer cache and the log, the transaction that
is being formed, and the inode cache. A buffer that is changed is logged before it is released, so
`log_write` is where a change of the disk becomes visible. The functions are run by one process while
no other acts: an inode lock that is taken stays taken, and `acquiresleep` on it stops with `asleep`.
-/

namespace Xv6

open Function (update)

abbrev NINODE : Nat := 50
abbrev NDEV : Nat := 10

abbrev Slot : Type := Fin NINODE

/-- `struct inode`: the copy of the disk inode and the bookkeeping that is only in memory. -/
structure Inode extends Dinode where
  dev : Nat
  inum : Nat
  ref : Int
  locked : Bool -- `lock.locked`
  valid : Bool

/-- `struct devsw`, as what a driver answers to a transfer of `n` bytes; `none` is `-1`. -/
structure Dev where
  read : Option (UInt32 → Option (List UInt8))
  write : Option (UInt32 → Option Nat)

structure Fs where
  sb : Superblock
  disk : Nat → Block
  lh : List Nat -- `log.lh.block[0 .. log.lh.n)`
  outstanding : Nat -- `log.outstanding`
  icache : Slot → Inode
  devsw : Nat → Dev

inductive Stop
  | panic (msg : String)
  | asleep (ip : Slot) -- in `acquiresleep` on a lock that nobody will release
  deriving DecidableEq

abbrev FsM : Type → Type := Exec Fs Stop

namespace Fs

variable (s : Fs)

def dinode (i : Nat) : Dinode := Dinode.read (s.disk (s.sb.iblock i)) (i % IPB)

def bit (b : Nat) : Bool := (s.disk (s.sb.bblock b)).bit (b % BPB)

/-- The state after `log_write` of a buffer of block `b` that holds `x`. -/
def write (b : Nat) (x : Block) : Fs :=
  { s with disk := update s.disk b x, lh := if b ∈ s.lh then s.lh else s.lh ++ [b] }

def setSlot (ip : Slot) (x : Inode) : Fs := { s with icache := update s.icache ip x }

/-- `devsw[major]`; a negative `major` and one that is not below `NDEV` have no driver. -/
def device (major : UInt16) : Dev := if major.toNat < NDEV then s.devsw major.toNat else ⟨none, none⟩

end Fs

def panic {α : Type} (msg : String) : FsM α := Exec.stop (.panic msg)

def logWrite (b : Nat) (x : Block) : FsM Unit := do
  let s ← Exec.get
  if LOGSIZE ≤ s.lh.length ∨ s.sb.nlog - 1 ≤ s.lh.length then panic "too big a transaction"
  else if s.outstanding < 1 then panic "log_write outside of trans"
  else Exec.modify (·.write b x)

/-! ### Blocks -/

def bzero (b : Nat) : FsM Unit := logWrite b (Bytes.zero BSIZE)

/-- The two loops of `balloc` visit the bits of the blocks `0, 1, …, sb.size - 1`. -/
def balloc : FsM UInt32 := do
  let s ← Exec.get
  match (List.range s.sb.size).find? fun b => !s.bit b with
  | none => panic "balloc: out of blocks"
  | some b =>
    logWrite (s.sb.bblock b) ((s.disk (s.sb.bblock b)).setBit (b % BPB))
    bzero b
    return UInt32.ofNat b

def bfree (b : Nat) : FsM Unit := do
  let s ← Exec.get
  if !s.bit b then panic "freeing free block"
  else logWrite (s.sb.bblock b) ((s.disk (s.sb.bblock b)).clearBit (b % BPB))

/-! ### Inodes -/

def iget (dev inum : Nat) : FsM Slot := do
  let s ← Exec.get
  match (List.finRange NINODE).find? fun k =>
      0 < (s.icache k).ref ∧ (s.icache k).dev = dev ∧ (s.icache k).inum = inum with
  | some ip =>
    Exec.modify (·.setSlot ip { s.icache ip with ref := (s.icache ip).ref + 1 })
    return ip
  | none =>
    match (List.finRange NINODE).find? fun k => (s.icache k).ref = 0 with
    | none => panic "iget: no inodes"
    | some ip =>
      Exec.modify (·.setSlot ip { s.icache ip with dev := dev, inum := inum, ref := 1, valid := false })
      return ip

/-- `memset(dip, 0, sizeof(*dip)); dip->type = type;` -/
def Dinode.fresh (type : UInt16) : Dinode := { type, major := 0, minor := 0, nlink := 0, size := 0, addrs := fun _ => 0 }

def ialloc (dev : Nat) (type : UInt16) : FsM Slot := do
  let s ← Exec.get
  match (List.range' 1 (s.sb.ninodes - 1)).find? fun i => (s.dinode i).type = 0 with
  | none => panic "ialloc: no inodes"
  | some inum =>
    logWrite (s.sb.iblock inum) (Dinode.write (s.disk (s.sb.iblock inum)) (inum % IPB) (.fresh type))
    iget dev inum

def iupdate (ip : Slot) : FsM Unit := do
  let s ← Exec.get
  let x := s.icache ip
  logWrite (s.sb.iblock x.inum) (Dinode.write (s.disk (s.sb.iblock x.inum)) (x.inum % IPB) x.toDinode)

def idup (ip : Slot) : FsM Slot := do
  let s ← Exec.get
  Exec.modify (·.setSlot ip { s.icache ip with ref := (s.icache ip).ref + 1 })
  return ip

def acquiresleep (ip : Slot) : FsM Unit := do
  let s ← Exec.get
  if (s.icache ip).locked then Exec.stop (.asleep ip)
  else Exec.modify (·.setSlot ip { s.icache ip with locked := true })

def releasesleep (ip : Slot) : FsM Unit :=
  Exec.modify fun s => s.setSlot ip { s.icache ip with locked := false }

def ilock (ip : Slot) : FsM Unit := do
  let s ← Exec.get
  if (s.icache ip).ref < 1 then panic "ilock" else
  acquiresleep ip
  if (s.icache ip).valid then return () else
  let d := s.dinode (s.icache ip).inum
  Exec.modify fun s => s.setSlot ip { s.icache ip with toDinode := d, valid := true }
  if d.type = 0 then panic "ilock: no type" else return ()

def iunlock (ip : Slot) : FsM Unit := do
  let s ← Exec.get
  if !(s.icache ip).locked ∨ (s.icache ip).ref < 1 then panic "iunlock"
  else releasesleep ip

/-! ### Contents -/

/-- `ip->addrs[k]`, allocated if it is zero: what `bmap` does for a direct block and for the indirect one. -/
def bmapAddr (ip : Slot) (k : Nat) : FsM UInt32 := do
  let s ← Exec.get
  if (s.icache ip).addr k = 0 then
    let a ← balloc
    Exec.modify fun s => s.setSlot ip { s.icache ip with toDinode := (s.icache ip).setAddr k a }
    return a
  else return (s.icache ip).addr k

/-- `a[j]` of the indirect block `ind`, allocated if it is zero. -/
def bmapEntry (ind : UInt32) (j : Nat) : FsM UInt32 := do
  let s ← Exec.get
  if (s.disk ind.toNat).word j = 0 then
    let a ← balloc
    logWrite ind.toNat ((s.disk ind.toNat).setWord j a)
    return a
  else return (s.disk ind.toNat).word j

def bmap (ip : Slot) (bn : Nat) : FsM UInt32 :=
  if bn < NDIRECT then bmapAddr ip bn
  else if bn - NDIRECT < NINDIRECT then do
    let ind ← bmapAddr ip NDIRECT
    bmapEntry ind (bn - NDIRECT)
  else panic "bmap: out of range"

/-- `if (a[k]) bfree(ip->dev, a[k])` for the given entries. -/
def bfreeAll : List Nat → FsM Unit
  | [] => pure ()
  | a :: as => do
    if a ≠ 0 then bfree a
    bfreeAll as

def itruncDirect (ip : Slot) : List Nat → FsM Unit
  | [] => pure ()
  | k :: ks => do
    let s ← Exec.get
    if (s.icache ip).addr k ≠ 0 then
      bfree ((s.icache ip).addr k).toNat
      Exec.modify fun s => s.setSlot ip { s.icache ip with toDinode := (s.icache ip).setAddr k 0 }
    itruncDirect ip ks

def itrunc (ip : Slot) : FsM Unit := do
  itruncDirect ip (List.range NDIRECT)
  let s ← Exec.get
  let ind := (s.icache ip).addr NDIRECT
  if ind ≠ 0 then
    let x := s.disk ind.toNat
    bfreeAll ((List.range NINDIRECT).map fun j => (x.word j).toNat)
    bfree ind.toNat
    Exec.modify fun s => s.setSlot ip { s.icache ip with toDinode := (s.icache ip).setAddr NDIRECT 0 }
  Exec.modify fun s => s.setSlot ip { s.icache ip with size := 0 }
  iupdate ip

def iput (ip : Slot) : FsM Unit := do
  acquiresleep ip
  let s ← Exec.get
  if (s.icache ip).valid ∧ (s.icache ip).nlink = 0 ∧ (s.icache ip).ref = 1 then
    itrunc ip
    Exec.modify fun s => s.setSlot ip { s.icache ip with type := 0 }
    iupdate ip
    Exec.modify fun s => s.setSlot ip { s.icache ip with valid := false }
  releasesleep ip
  Exec.modify fun s => s.setSlot ip { s.icache ip with ref := (s.icache ip).ref - 1 }

def iunlockput (ip : Slot) : FsM Unit := do
  iunlock ip
  iput ip

def readLoop (ip : Slot) : Nat → Nat → Nat → FsM (List UInt8)
  | 0, _, _ => pure []
  | fuel + 1, off, n =>
    if n = 0 then pure []
    else do
      let a ← bmap ip (off / BSIZE)
      let x := (← Exec.get).disk a.toNat
      let m := min n (BSIZE - off % BSIZE)
      let rest ← readLoop ip fuel (off + m) (n - m)
      return (List.range m).map (fun j => x.get (off % BSIZE + j)) ++ rest

/-- `readi(ip, dst, off, n)`: the bytes it stores in `dst`, `none` for `-1`. -/
def readi (ip : Slot) (off n : UInt32) : FsM (Option (List UInt8)) := do
  let s ← Exec.get
  let x := s.icache ip
  if x.type = T_DEV then return (s.device x.major).read.bind fun f => f n
  else if x.size < off ∨ off + n < off then return none
  else
    let n := if x.size < off + n then x.size - off else n
    return some (← readLoop ip n.toNat off.toNat n.toNat)

def writeLoop (ip : Slot) : Nat → (Nat → UInt8) → Nat → Nat → FsM Unit
  | 0, _, _, _ => pure ()
  | fuel + 1, src, off, n =>
    if n = 0 then pure ()
    else do
      let a ← bmap ip (off / BSIZE)
      let x := (← Exec.get).disk a.toNat
      let m := min n (BSIZE - off % BSIZE)
      logWrite a.toNat (x.put (off % BSIZE) m src)
      writeLoop ip fuel (fun j => src (m + j)) (off + m) (n - m)

/-- `writei(ip, src, off, n)`; `none` for `-1`. -/
def writei (ip : Slot) (src : Nat → UInt8) (off n : UInt32) : FsM (Option Nat) := do
  let s ← Exec.get
  let x := s.icache ip
  if x.type = T_DEV then return (s.device x.major).write.bind fun f => f n
  else if x.size < off ∨ off + n < off then return none
  else if MAXFILE * BSIZE < (off + n).toNat then return none
  else
    writeLoop ip n.toNat src off.toNat n.toNat
    if 0 < n ∧ x.size < off + n then
      Exec.modify fun s => s.setSlot ip { s.icache ip with size := off + n }
      iupdate ip
    return some n.toNat

end Xv6
