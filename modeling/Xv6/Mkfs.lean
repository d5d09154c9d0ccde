import Xv6.Dir
import Xv6.FsStore

/-!
# Building an image (`mkfs.c`)

The state is the image file, sector by sector, and the counters of `mkfs`. The host is little-endian,
so `xint` and `xshort` do not change a value and the structures in memory have the bytes of the disk
format. An input file is its name and the pieces in which `read` returns its contents. What stops the
program is a failed assertion or a read behind the end of the image.
-/

namespace Xv6

open Function (update update_self update_of_ne)

def Dirent.list (de : Dirent) : List UInt8 := (List.range DIRENT).map de.bytes

namespace Mkfs

abbrev NINODES : Nat := 200

def nbitmap : Nat := FSSIZE / (BSIZE * 8) + 1

def ninodeblocks : Nat := NINODES / IPB + 1

def nlog : Nat := LOGSIZE

def nmeta : Nat := 2 + nlog + ninodeblocks + nbitmap

def sb : Superblock where
  size := FSSIZE
  nblocks := FSSIZE - nmeta
  ninodes := NINODES
  nlog := nlog
  logstart := 2
  inodestart := 2 + nlog
  bmapstart := 2 + nlog + ninodeblocks

structure St where
  nsect : Nat -- the length of the image in sectors
  sect : Nat → Block
  freeinode : Nat
  freeblock : Nat

inductive Fail
  | assert (cond : String)
  | read -- `perror("read")`
  deriving DecidableEq

abbrev MkM : Type → Type := Exec St Fail

/-! ### Sectors and inodes -/

def wsect (sec : Nat) (buf : Block) : MkM Unit :=
  Exec.modify fun s => { s with nsect := max s.nsect (sec + 1), sect := update s.sect sec buf }

def rsect (sec : Nat) : MkM Block := do
  let s ← Exec.get
  if sec < s.nsect then return s.sect sec else Exec.stop .read

def winode (inum : Nat) (d : Dinode) : MkM Unit := do
  let buf ← rsect (sb.iblock inum)
  wsect (sb.iblock inum) (Dinode.write buf (inum % IPB) d)

def rinode (inum : Nat) : MkM Dinode := do
  let buf ← rsect (sb.iblock inum)
  return Dinode.read buf (inum % IPB)

def newInode (type : UInt16) : Dinode := ⟨type, 0, 0, 1, 0, fun _ => 0⟩

def ialloc (type : UInt16) : MkM Nat := do
  let inum := (← Exec.get).freeinode
  Exec.modify fun s => { s with freeinode := s.freeinode + 1 }
  winode inum (newInode type)
  return inum

def bitmap (used : Nat) : Block := (List.range used).foldl (fun buf i => buf.setBit i) (Bytes.zero BSIZE)

def balloc (used : Nat) : MkM Unit :=
  if used < BSIZE * 8 then wsect sb.bmapstart (bitmap used) else Exec.stop (.assert "used < BSIZE * 8")

/-- `freeblock++`, as the address that is stored. -/
def nextBlock : MkM UInt32 := do
  let b := (← Exec.get).freeblock
  Exec.modify fun s => { s with freeblock := s.freeblock + 1 }
  return UInt32.ofNat b

/-! ### Appending -/

/-- `if (din.addrs[k] == 0) din.addrs[k] = freeblock++;` -/
def fillAddr (din : Dinode) (k : Nat) : MkM Dinode := do
  if din.addr k = 0 then return din.setAddr k (← nextBlock) else return din

/-- Entry `j` of the indirect block `ind`, filled if it is zero. -/
def fillEntry (ind : UInt32) (j : Nat) : MkM UInt32 := do
  let indirect ← rsect ind.toNat
  if indirect.word j = 0 then
    let a ← nextBlock
    wsect ind.toNat (indirect.setWord j a)
    return a
  else return indirect.word j

def blockOf (din : Dinode) (fbn : Nat) : MkM (UInt32 × Dinode) :=
  if fbn < NDIRECT then do
    let din ← fillAddr din fbn
    return (din.addr fbn, din)
  else do
    let din ← fillAddr din NDIRECT
    let x ← fillEntry (din.addr NDIRECT) (fbn - NDIRECT)
    return (x, din)

def appendLoop : Nat → Dinode → Nat → List UInt8 → MkM (Dinode × Nat)
  | 0, din, off, _ => return (din, off)
  | fuel + 1, din, off, p =>
    if p.length = 0 then return (din, off)
    else if MAXFILE ≤ off / BSIZE then Exec.stop (.assert "fbn < MAXFILE")
    else do
      let (x, din) ← blockOf din (off / BSIZE)
      let n1 := min p.length ((off / BSIZE + 1) * BSIZE - off)
      let buf ← rsect x.toNat
      wsect x.toNat (buf.put (off - off / BSIZE * BSIZE) n1 (cstr p))
      appendLoop fuel din (off + n1) (p.drop n1)

def iappend (inum : Nat) (p : List UInt8) : MkM Unit := do
  let din ← rinode inum
  let (din, off) ← appendLoop p.length din din.size.toNat p
  winode inum { din with size := UInt32.ofNat off }

/-! ### The program -/

/-- A file on the command line: its name, and what the calls of `read` return before the end of the file. -/
structure Input where
  name : List UInt8
  pieces : List (List UInt8)
  name_ne : ∀ c ∈ name, c ≠ 0
  piece_le : ∀ p ∈ pieces, 0 < p.length ∧ p.length ≤ BSIZE

def Input.contents (f : Input) : List UInt8 := f.pieces.flatten

/-- The name in the image: a leading underscore is skipped. -/
def Input.stored (f : Input) : List UInt8 := if f.name.head? = some 95 then f.name.tail else f.name

def appendAll (inum : Nat) : List (List UInt8) → MkM Unit
  | [] => pure ()
  | p :: ps => do
    iappend inum p
    appendAll inum ps

def addFile (rootino : Nat) (f : Input) : MkM Unit :=
  if slash ∈ f.name then Exec.stop (.assert "index(argv[i], '/') == 0")
  else do
    let inum ← ialloc T_FILE
    iappend rootino (Dirent.make f.stored inum).list
    appendAll inum f.pieces

def addFiles (rootino : Nat) : List Input → MkM Unit
  | [] => pure ()
  | f :: fs => do
    addFile rootino f
    addFiles rootino fs

def wipe : List Nat → MkM Unit
  | [] => pure ()
  | i :: is => do
    wsect i (Bytes.zero BSIZE)
    wipe is

/-- `memmove(buf, &sb, sizeof(sb))` on a zeroed buffer. -/
def sbBlock : Block :=
  [sb.size, sb.nblocks, sb.ninodes, sb.nlog, sb.logstart, sb.inodestart, sb.bmapstart].zipIdx.foldl
    (fun buf w => buf.setWord w.2 (UInt32.ofNat w.1)) (Bytes.zero BSIZE)

def fixRoot (rootino : Nat) : MkM Unit := do
  let din ← rinode rootino
  winode rootino { din with size := UInt32.ofNat ((din.size.toNat / BSIZE + 1) * BSIZE) }

def init : St := ⟨0, fun _ => Bytes.zero BSIZE, 1, 0⟩

def main (files : List Input) : MkM Unit := do
  Exec.modify fun s => { s with freeblock := nmeta }
  wipe (List.range FSSIZE)
  wsect 1 sbBlock
  let rootino ← ialloc T_DIR
  if rootino ≠ ROOTINO then Exec.stop (.assert "rootino == ROOTINO")
  else
    iappend rootino (Dirent.make dot rootino).list
    iappend rootino (Dirent.make dotdot rootino).list
    addFiles rootino files
    fixRoot rootino
    balloc (← Exec.get).freeblock

end Mkfs

end Xv6
