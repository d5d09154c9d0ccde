import Xv6.Param

/-!
# The on-disk format (`fs.h`, `stat.h`)

The superblock, the inode, the directory entry and the free bit map as bytes of a block. The kernel
and `mkfs` both go through these definitions; each structure has a reader, a writer, the round trip
and the fact that writing one element of a block leaves the others alone.
-/

namespace Xv6

abbrev NDIRECT : Nat := 12
abbrev NINDIRECT : Nat := BSIZE / 4
abbrev MAXFILE : Nat := NDIRECT + NINDIRECT
abbrev DIRSIZ : Nat := 14
abbrev IPB : Nat := BSIZE / 64 -- inodes per block, `sizeof(struct dinode)` is 64
abbrev BPB : Nat := BSIZE * 8 -- bitmap bits per block
abbrev ROOTINO : Nat := 1
abbrev T_DIR : UInt16 := 1
abbrev T_FILE : UInt16 := 2
abbrev T_DEV : UInt16 := 3

open Bytes (leByte leNat)
open Function (update update_self update_of_ne)

/-! ### Superblock -/

structure Superblock where
  size : Nat
  nblocks : Nat
  ninodes : Nat
  nlog : Nat
  logstart : Nat
  inodestart : Nat
  bmapstart : Nat
  deriving DecidableEq

namespace Superblock

variable (sb : Superblock)

def iblock (i : Nat) : Nat := i / IPB + sb.inodestart

/-- `BBLOCK`: the block of the free map that contains the bit of block `b`. -/
def bblock (b : Nat) : Nat := b / BPB + sb.bmapstart

/-- The number of metadata blocks: boot block, superblock, log, inode blocks and free map. -/
def nmeta : Nat := sb.bmapstart + sb.size / BPB + 1

/-- The regions of the disk follow each other, and block numbers fit in a `uint`. -/
structure Ok : Prop where
  inodes : sb.inodestart + sb.ninodes / IPB + 1 ≤ sb.bmapstart
  data : sb.nmeta ≤ sb.size
  size_lt : sb.size < 2 ^ 32

/-- `memmove(sb, bp->data, sizeof(*sb))`. -/
def read (b : Block) : Superblock where
  size := (b.word 0).toNat
  nblocks := (b.word 1).toNat
  ninodes := (b.word 2).toNat
  nlog := (b.word 3).toNat
  logstart := (b.word 4).toNat
  inodestart := (b.word 5).toNat
  bmapstart := (b.word 6).toNat

variable {sb}

theorem Ok.iblock_lt (h : sb.Ok) {i : Nat} (hi : i < sb.ninodes) : sb.iblock i < sb.bmapstart := by
  have := h.inodes
  unfold iblock
  simp only [IPB, BSIZE] at this ⊢
  omega

theorem Ok.bblock_lt (_ : sb.Ok) {b : Nat} (hb : b < sb.size) :
    sb.bmapstart ≤ sb.bblock b ∧ sb.bblock b < sb.nmeta := by
  unfold bblock nmeta
  simp only [BPB, BSIZE]
  omega

theorem Ok.iblock_lt_nmeta (h : sb.Ok) {i : Nat} (hi : i < sb.ninodes) : sb.iblock i < sb.nmeta := by
  have := h.iblock_lt hi
  unfold nmeta
  simp only [BPB, BSIZE]
  omega

theorem nmeta_pos : 0 < sb.nmeta := Nat.succ_pos _

end Superblock

/-! ### Inodes -/

/-- `struct dinode`; the `short`s as 16-bit patterns. -/
@[ext]
structure Dinode where
  type : UInt16
  major : UInt16
  minor : UInt16
  nlink : UInt16
  size : UInt32
  addrs : Fin (NDIRECT + 1) → UInt32

namespace Dinode

instance : Inhabited Dinode := ⟨⟨0, 0, 0, 0, 0, fun _ => 0⟩⟩

def addr (d : Dinode) (k : Nat) : UInt32 := if h : k < NDIRECT + 1 then d.addrs ⟨k, h⟩ else 0

def setAddr (d : Dinode) (k : Nat) (a : UInt32) : Dinode :=
  { d with addrs := fun i => if i.val = k then a else d.addrs i }

theorem addr_setAddr (d : Dinode) {k : Nat} (hk : k ≤ NDIRECT) (a : UInt32) (l : Nat) :
    (d.setAddr k a).addr l = if l = k then a else d.addr l := by
  unfold addr setAddr
  by_cases hl : l < NDIRECT + 1
  · simp only [hl, dite_true]
  · rw [dif_neg hl, dif_neg hl, if_neg (by rintro rfl; omega)]

@[simp] theorem setAddr_type (d : Dinode) (k : Nat) (a : UInt32) : (d.setAddr k a).type = d.type := rfl

def bytes (d : Dinode) (i : Nat) : UInt8 :=
  if i < 2 then leByte d.type.toNat i
  else if i < 4 then leByte d.major.toNat (i - 2)
  else if i < 6 then leByte d.minor.toNat (i - 4)
  else if i < 8 then leByte d.nlink.toNat (i - 6)
  else if i < 12 then leByte d.size.toNat (i - 8)
  else leByte (d.addr ((i - 12) / 4)).toNat ((i - 12) % 4)

/-- `*((struct dinode*)bp->data + j)`. -/
def read (b : Block) (j : Nat) : Dinode where
  type := UInt16.ofNat (b.getLE (64 * j) 2)
  major := UInt16.ofNat (b.getLE (64 * j + 2) 2)
  minor := UInt16.ofNat (b.getLE (64 * j + 4) 2)
  nlink := UInt16.ofNat (b.getLE (64 * j + 6) 2)
  size := UInt32.ofNat (b.getLE (64 * j + 8) 4)
  addrs k := UInt32.ofNat (b.getLE (64 * j + (12 + 4 * k.val)) 4)

/-- The block after `*((struct dinode*)bp->data + j) = d`. -/
def write (b : Block) (j : Nat) (d : Dinode) : Block := b.put (64 * j) 64 d.bytes

theorem leNat_bytes (d : Dinode) {v o l : Nat} (hv : v < 256 ^ l)
    (h : ∀ i, o ≤ i → i < o + l → d.bytes i = leByte v (i - o)) : leNat d.bytes o l = v := by
  rw [Bytes.leNat_congr h, Bytes.leNat_leByte, Nat.mod_eq_of_lt hv]

theorem read_write (b : Block) {j : Nat} (hj : j < IPB) (d : Dinode) : read (write b j d) j = d := by
  have hj' : 64 * j + 64 ≤ BSIZE := by simp only [IPB, BSIZE] at hj ⊢; omega
  have hget : ∀ o l, o + l ≤ 64 → (write b j d).getLE (64 * j + o) l = leNat d.bytes o l := fun o l hl =>
    Bytes.getLE_put b d.bytes hj' hl
  have h16 : ∀ (x : UInt16) o, o + 2 ≤ 64 → (∀ i, o ≤ i → i < o + 2 → d.bytes i = leByte x.toNat (i - o)) →
      UInt16.ofNat ((write b j d).getLE (64 * j + o) 2) = x := fun x o ho hx => by
    rw [hget o 2 ho, leNat_bytes d x.toNat_lt hx, UInt16.ofNat_toNat]
  have h32 : ∀ (x : UInt32) o, o + 4 ≤ 64 → (∀ i, o ≤ i → i < o + 4 → d.bytes i = leByte x.toNat (i - o)) →
      UInt32.ofNat ((write b j d).getLE (64 * j + o) 4) = x := fun x o ho hx => by
    rw [hget o 4 ho, leNat_bytes d x.toNat_lt hx, UInt32.ofNat_toNat]
  refine Dinode.ext ?_ ?_ ?_ ?_ ?_ (funext fun k => ?_)
  · exact h16 d.type 0 (by decide) fun i _ h2 => if_pos h2
  · refine h16 d.major 2 (by decide) fun i h1 h2 => ?_
    rw [bytes, if_neg (by omega), if_pos (by omega)]
  · refine h16 d.minor 4 (by decide) fun i h1 h2 => ?_
    rw [bytes, if_neg (by omega), if_neg (by omega), if_pos (by omega)]
  · refine h16 d.nlink 6 (by decide) fun i h1 h2 => ?_
    rw [bytes, if_neg (by omega), if_neg (by omega), if_neg (by omega), if_pos (by omega)]
  · refine h32 d.size 8 (by decide) fun i h1 h2 => ?_
    rw [bytes, if_neg (by omega), if_neg (by omega), if_neg (by omega), if_neg (by omega), if_pos (by omega)]
  · have hk := k.isLt
    refine h32 (d.addrs k) (12 + 4 * k.val) (by simp only [NDIRECT] at hk; omega) fun i h1 h2 => ?_
    rw [bytes, if_neg (by omega), if_neg (by omega), if_neg (by omega), if_neg (by omega), if_neg (by omega),
      show (i - 12) / 4 = k.val by omega, show (i - 12) % 4 = i - (12 + 4 * k.val) by omega, addr, dif_pos hk]

theorem read_write_ne (b : Block) {j k : Nat} (h : k ≠ j) (d : Dinode) : read (write b j d) k = read b k := by
  have hget : ∀ o l, o + l ≤ 64 → (write b j d).getLE (64 * k + o) l = b.getLE (64 * k + o) l := fun o l hl =>
    Bytes.getLE_put_of_disjoint b d.bytes (by omega)
  refine Dinode.ext ?_ ?_ ?_ ?_ ?_ (funext fun i => ?_)
  · exact congrArg UInt16.ofNat (hget 0 2 (by decide))
  · exact congrArg UInt16.ofNat (hget 2 2 (by decide))
  · exact congrArg UInt16.ofNat (hget 4 2 (by decide))
  · exact congrArg UInt16.ofNat (hget 6 2 (by decide))
  · exact congrArg UInt32.ofNat (hget 8 4 (by decide))
  · exact congrArg UInt32.ofNat (hget _ 4 (by have := i.isLt; simp only [NDIRECT] at this; omega))

theorem read_update_write (sb : Superblock) (disk : Nat → Block) (i j : Nat) (x : Dinode) :
    read (update disk (sb.iblock i) (write (disk (sb.iblock i)) (i % IPB) x) (sb.iblock j)) (j % IPB) =
      if j = i then x else read (disk (sb.iblock j)) (j % IPB) := by
  by_cases hb : sb.iblock j = sb.iblock i
  · rw [hb, update_self]
    by_cases hj : j = i
    · subst hj
      rw [if_pos rfl, read_write _ (Nat.mod_lt _ (by decide))]
    · rw [if_neg hj, read_write_ne]
      intro hm
      unfold Superblock.iblock at hb
      simp only [IPB, BSIZE] at hb hm
      omega
  · rw [update_of_ne hb, if_neg (by rintro rfl; exact hb rfl)]

end Dinode

/-! ### Directory entries -/

/-- `struct dirent`; the name is padded with zeros, and has no terminator if all its bytes are used. -/
@[ext]
structure Dirent where
  inum : UInt16
  name : Bytes DIRSIZ

abbrev DIRENT : Nat := 16 -- `sizeof(struct dirent)`

namespace Dirent

def bytes (de : Dirent) (i : Nat) : UInt8 := if i < 2 then leByte de.inum.toNat i else de.name.get (i - 2)

/-- The structure whose bytes are `f 0, f 1, …`. -/
def read (f : Nat → UInt8) : Dirent where
  inum := UInt16.ofNat (leNat f 0 2)
  name i := f (i.val + 2)

theorem read_congr {f g : Nat → UInt8} (h : ∀ i, i < DIRENT → f i = g i) : read f = read g := by
  refine Dirent.ext ?_ (funext fun i => h _ ?_)
  · exact congrArg UInt16.ofNat (Bytes.leNat_congr fun i _ hi => h i (by simp only [DIRENT]; omega))
  · have := i.isLt
    simp only [DIRSIZ, DIRENT] at this ⊢
    omega

/-- `memset(&de, 0, sizeof(de))`. -/
def zero : Dirent := ⟨0, Bytes.zero DIRSIZ⟩

end Dirent

end Xv6
