import Xv6.FsFormat

/-!
# Inodes, their blocks and the free map

A `Store` is what the blocks of a file system mean: the inodes, which blocks are marked in use, and
the contents of the data blocks. Slot `k` of an inode is one of its block addresses: `0 … NDIRECT` are
`addrs`, the last of them the indirect block, and the slots after it are the entries of that block.
Both `bmap` of the kernel and `iappend` of `mkfs` are compositions of `grow`, which puts a fresh block
in an empty slot, and `setBlock` on a data block.
-/

namespace Xv6

open Function (update update_self update_of_ne)

@[ext]
structure Store where
  inode : Nat → Dinode
  used : Nat → Bool
  block : Nat → Block

namespace Store

variable (st : Store)

def ref (i k : Nat) : Nat :=
  if k ≤ NDIRECT then ((st.inode i).addr k).toNat
  else if ((st.inode i).addr NDIRECT).toNat = 0 then 0
  else ((st.block ((st.inode i).addr NDIRECT).toNat).word (k - (NDIRECT + 1))).toNat

def slot (bn : Nat) : Nat := if bn < NDIRECT then bn else bn + 1

def byte (i pos : Nat) : UInt8 :=
  if st.ref i (slot (pos / BSIZE)) = 0 then 0
  else (st.block (st.ref i (slot (pos / BSIZE)))).get (pos % BSIZE)

def slice (i off n : Nat) : List UInt8 := (List.range n).map fun j => st.byte i (off + j)

def Live (sb : Superblock) (i : Nat) : Prop := 0 < i ∧ i < sb.ninodes ∧ (st.inode i).type ≠ 0

def setInode (i : Nat) (d : Dinode) : Store := { st with inode := update st.inode i d }

def setBlock (b : Nat) (x : Block) : Store := { st with block := update st.block b x }

def setUsed (b : Nat) (v : Bool) : Store := { st with used := update st.used b v }

def alloc (b : Nat) : Store := (st.setUsed b true).setBlock b (Bytes.zero BSIZE)

def setRef (i k : Nat) (a : UInt32) : Store :=
  if k ≤ NDIRECT then st.setInode i ((st.inode i).setAddr k a)
  else st.setBlock ((st.inode i).addr NDIRECT).toNat
    ((st.block ((st.inode i).addr NDIRECT).toNat).setWord (k - (NDIRECT + 1)) a)

def grow (i k b : Nat) : Store := (st.alloc b).setRef i k (UInt32.ofNat b)

/-- Every block has one owner or is free, and the free map says which. -/
structure Owned (sb : Superblock) : Prop where
  range : ∀ i k, st.Live sb i → st.ref i k ≠ 0 → sb.nmeta ≤ st.ref i k ∧ st.ref i k < sb.size
  inj : ∀ i j k l, st.Live sb i → st.Live sb j → st.ref i k ≠ 0 → st.ref i k = st.ref j l → i = j ∧ k = l
  used : ∀ b, b < sb.size → (st.used b = true ↔ b < sb.nmeta ∨ ∃ i k, st.Live sb i ∧ st.ref i k = b)

/-- Blocks are owned, and files have no holes. -/
structure Ok (sb : Superblock) : Prop extends st.Owned sb where
  size_le : ∀ i, st.Live sb i → (st.inode i).size.toNat ≤ MAXFILE * BSIZE
  full : ∀ i bn, st.Live sb i → bn * BSIZE < (st.inode i).size.toNat → st.ref i (slot bn) ≠ 0

variable {st} {st' : Store} {sb : Superblock} {i j k l b : Nat}

@[simp] theorem setInode_self (d : Dinode) : (st.setInode i d).inode i = d := update_self ..

@[simp] theorem setBlock_self (x : Block) : (st.setBlock b x).block b = x := update_self ..

theorem setBlock_ne {c : Nat} (h : c ≠ b) {x : Block} : (st.setBlock b x).block c = st.block c := update_of_ne h ..

@[simp] theorem setUsed_self (v : Bool) : (st.setUsed b v).used b = v := update_self ..

theorem setUsed_ne {c : Nat} (h : c ≠ b) {v : Bool} : (st.setUsed b v).used c = st.used c := update_of_ne h ..

theorem setInode_ne (h : j ≠ i) {d : Dinode} : (st.setInode i d).inode j = st.inode j := update_of_ne h ..

theorem slot_inj {m n : Nat} (h : slot m = slot n) : m = n := by
  unfold slot at h
  split at h <;> split at h <;> omega

theorem slot_ne (n : Nat) : slot n ≠ NDIRECT := by
  unfold slot
  split <;> omega

theorem ref_of_le (h : k ≤ NDIRECT) : st.ref i k = ((st.inode i).addr k).toNat := if_pos h

theorem ref_of_gt (h : NDIRECT < k) :
    st.ref i k = if st.ref i NDIRECT = 0 then 0
      else ((st.block (st.ref i NDIRECT)).word (k - (NDIRECT + 1))).toNat :=
  if_neg (by omega)

theorem ref_congr (ha : ∀ k, (st'.inode i).addr k = (st.inode i).addr k)
    (hb : st.ref i NDIRECT ≠ 0 → st'.block (st.ref i NDIRECT) = st.block (st.ref i NDIRECT)) :
    st'.ref i k = st.ref i k := by
  have hle : ∀ k, k ≤ NDIRECT → st'.ref i k = st.ref i k := fun k hk => by rw [ref_of_le hk, ref_of_le hk, ha]
  rcases Nat.lt_or_ge NDIRECT k with hk | hk
  · rw [ref_of_gt hk, ref_of_gt hk, hle _ le_rfl]
    split
    · rfl
    · rw [hb ‹_›]
  · exact hle k hk

theorem byte_congr (hr : ∀ k, st'.ref i k = st.ref i k)
    (hb : ∀ bn, st.ref i (slot bn) ≠ 0 → st'.block (st.ref i (slot bn)) = st.block (st.ref i (slot bn)))
    (pos : Nat) : st'.byte i pos = st.byte i pos := by
  unfold byte
  rw [hr]
  split
  · rfl
  · rw [hb _ ‹_›]

theorem slice_append (off m n : Nat) : st.slice i off (m + n) = st.slice i off m ++ st.slice i (off + m) n := by
  simp only [slice, List.range_add, List.map_append, List.map_map, Function.comp_def, Nat.add_assoc]

theorem byte_of_block {off m : Nat} (h0 : st.ref i (slot (off / BSIZE)) ≠ 0) (hm : off % BSIZE + m < BSIZE) :
    st.byte i (off + m) = (st.block (st.ref i (slot (off / BSIZE)))).get (off % BSIZE + m) := by
  have hdiv : (off + m) / BSIZE = off / BSIZE := by simp only [BSIZE] at hm ⊢; omega
  have hmod : (off + m) % BSIZE = off % BSIZE + m := by simp only [BSIZE] at hm ⊢; omega
  rw [byte, hdiv, if_neg h0, hmod]

theorem Owned.not_ref (h : st.Owned sb) (hb : st.used b = false) (hlt : b < sb.size) (hi : st.Live sb i) :
    st.ref i k ≠ b := by
  intro hr
  have := (h.used b hlt).2 (.inr ⟨i, k, hi, hr⟩)
  rw [hb] at this
  cases this

theorem Owned.congr (h : st.Owned sb) (hlive : ∀ j, st'.Live sb j ↔ st.Live sb j)
    (href : ∀ j k, st.Live sb j → st'.ref j k = st.ref j k)
    (hused : ∀ b, b < sb.size → st'.used b = st.used b) : st'.Owned sb := by
  refine ⟨fun j k hj => ?_, fun j j' k k' hj hj' => ?_, fun b hb => ?_⟩
  · rw [hlive] at hj
    rw [href j k hj]
    exact h.range j k hj
  · rw [hlive] at hj hj'
    rw [href j k hj, href j' k' hj']
    exact h.inj j j' k k' hj hj'
  · rw [hused b hb, h.used b hb]
    refine or_congr Iff.rfl (exists₂_congr fun j k => ?_)
    rw [hlive]
    exact and_congr_right fun hj => by rw [href j k hj]

/-! ### A fresh block in an empty slot -/

theorem setRef_of_le (h : k ≤ NDIRECT) (a : UInt32) :
    st.setRef i k a = st.setInode i ((st.inode i).setAddr k a) := if_pos h

theorem setRef_of_gt (h : NDIRECT < k) (a : UInt32) :
    st.setRef i k a =
      st.setBlock (st.ref i NDIRECT) ((st.block (st.ref i NDIRECT)).setWord (k - (NDIRECT + 1)) a) :=
  if_neg (by omega)

theorem grow_inode_ne (hj : j ≠ i) : (st.grow i k b).inode j = st.inode j := by
  unfold grow setRef
  split
  · exact update_of_ne hj _ _
  · rfl

theorem grow_inode_self (hk : k ≤ NDIRECT) : (st.grow i k b).inode i = (st.inode i).setAddr k (UInt32.ofNat b) := by
  rw [grow, setRef_of_le hk]
  exact update_self ..

theorem grow_inode_of_gt (hk : NDIRECT < k) : (st.grow i k b).inode j = st.inode j := by
  rw [grow, setRef_of_gt hk]
  rfl

theorem grow_type (j : Nat) : ((st.grow i k b).inode j).type = (st.inode j).type := by
  by_cases hj : j = i
  · subst hj
    rcases Nat.lt_or_ge NDIRECT k with hk | hk
    · rw [grow_inode_of_gt hk]
    · rw [grow_inode_self hk, Dinode.setAddr_type]
  · rw [grow_inode_ne hj]

theorem grow_live : (st.grow i k b).Live sb j ↔ st.Live sb j := by rw [Live, Live, grow_type]

theorem grow_used : (st.grow i k b).used = update st.used b true := by
  unfold grow setRef
  split <;> rfl

theorem grow_block_of_le (hk : k ≤ NDIRECT) :
    (st.grow i k b).block = update st.block b (Bytes.zero BSIZE) := by
  rw [grow, setRef_of_le hk]
  rfl

/-- What it takes to put block `b` in slot `k` of inode `i`. -/
structure Fresh (sb : Superblock) (st : Store) (i k b : Nat) : Prop where
  live : st.Live sb i
  empty : st.ref i k = 0
  slot_le : k ≤ MAXFILE
  ind : NDIRECT < k → st.ref i NDIRECT ≠ 0
  free : st.used b = false
  data : sb.nmeta ≤ b
  lt : b < sb.size
  size_lt : sb.size < 2 ^ 32

namespace Fresh

variable (f : Fresh sb st i k b)

include f

theorem toNat_ofNat : (UInt32.ofNat b).toNat = b := by
  have := f.lt
  have := f.size_lt
  rw [UInt32.toNat_ofNat']
  omega

theorem ne_zero : b ≠ 0 := by
  have := f.data
  have := sb.nmeta_pos
  omega

/-- The indirect block is not the fresh one, so it keeps its other entries. -/
theorem grow_block_of_gt (h : st.Owned sb) (hk : NDIRECT < k) :
    (st.grow i k b).block =
      update (update st.block b (Bytes.zero BSIZE)) (st.ref i NDIRECT)
        ((st.block (st.ref i NDIRECT)).setWord (k - (NDIRECT + 1)) (UInt32.ofNat b)) := by
  have hne : st.ref i NDIRECT ≠ b := h.not_ref f.free f.lt f.live
  have hr : (st.alloc b).ref i NDIRECT = st.ref i NDIRECT := rfl
  have hb : (st.alloc b).block (st.ref i NDIRECT) = st.block (st.ref i NDIRECT) := update_of_ne hne _ _
  rw [grow, setRef_of_gt hk, hr, hb]
  rfl

theorem grow_block (h : st.Owned sb) (hj : st.Live sb j) (hl : st.ref j l ≠ 0) (hne : l ≠ NDIRECT ∨ j ≠ i) :
    (st.grow i k b).block (st.ref j l) = st.block (st.ref j l) := by
  have hb : st.ref j l ≠ b := h.not_ref f.free f.lt hj
  rcases Nat.lt_or_ge NDIRECT k with hk | hk
  · have hind : st.ref j l ≠ st.ref i NDIRECT := by
      intro he
      obtain ⟨h1, h2⟩ := h.inj _ _ _ _ hj f.live hl he
      rcases hne with hne | hne
      · exact hne h2
      · exact hne h1
    rw [f.grow_block_of_gt h hk, update_of_ne hind, update_of_ne hb]
  · rw [grow_block_of_le hk, update_of_ne hb]

theorem ref_grow_ne (h : st.Owned sb) (hj : st.Live sb j) (hne : j ≠ i) :
    (st.grow i k b).ref j l = st.ref j l := by
  refine ref_congr (fun k => by rw [grow_inode_ne hne]) fun h0 => ?_
  exact f.grow_block h hj h0 (.inr hne)

theorem ref_grow_self (h : st.Owned sb) : (st.grow i k b).ref i l = if l = k then b else st.ref i l := by
  rcases Nat.lt_or_ge NDIRECT k with hk | hk
  · have h12 : (st.grow i k b).ref i NDIRECT = st.ref i NDIRECT := by
      rw [ref_of_le le_rfl, ref_of_le le_rfl, grow_inode_of_gt hk]
    rcases Nat.lt_or_ge NDIRECT l with hl | hl
    · rw [ref_of_gt hl, h12, if_neg (f.ind hk), f.grow_block_of_gt h hk, update_self]
      by_cases he : l = k
      · subst he
        have := f.slot_le
        simp only [MAXFILE, NDIRECT, NINDIRECT, BSIZE] at hl this
        rw [if_pos rfl, Bytes.word_setWord _ (by simp only [NDIRECT, BSIZE]; omega), f.toNat_ofNat]
      · rw [if_neg he, Bytes.word_setWord_ne _ (by omega), ref_of_gt hl, if_neg (f.ind hk)]
    · rw [if_neg (by omega), ref_of_le hl, ref_of_le hl, grow_inode_of_gt hk]
  · have hle : ∀ l, l ≤ NDIRECT → (st.grow i k b).ref i l = if l = k then b else st.ref i l := by
      intro l hl
      rw [ref_of_le hl, grow_inode_self hk, Dinode.addr_setAddr _ hk]
      split
      · exact f.toNat_ofNat
      · exact (ref_of_le hl).symm
    rcases Nat.lt_or_ge NDIRECT l with hl | hl
    · rw [if_neg (by omega), ref_of_gt hl, hle _ le_rfl]
      by_cases he : NDIRECT = k
      · -- the new indirect block has no entries, and there were none without it
        rw [if_pos he, if_neg f.ne_zero, grow_block_of_le hk, update_self, Bytes.word_zero, ref_of_gt hl, he,
          if_pos f.empty]
        rfl
      · rw [if_neg he, ref_of_gt hl]
        split
        · rfl
        · rw [grow_block_of_le hk, update_of_ne (h.not_ref f.free f.lt f.live)]
    · exact hle l hl

theorem ref_grow (h : st.Owned sb) (hj : st.Live sb j) :
    (st.grow i k b).ref j l = if j = i ∧ l = k then b else st.ref j l := by
  by_cases he : j = i
  · subst he
    rw [f.ref_grow_self h]
    simp
  · rw [f.ref_grow_ne h hj he, if_neg fun h => he h.1]

theorem owned_grow (h : st.Owned sb) : (st.grow i k b).Owned sb := by
  have hlive : ∀ j, (st.grow i k b).Live sb j ↔ st.Live sb j := fun j => grow_live
  refine ⟨fun j l hj => ?_, fun j j' l l' hj hj' => ?_, fun c hc => ?_⟩
  · rw [hlive] at hj
    rw [f.ref_grow h hj]
    split
    · intro _
      exact ⟨f.data, f.lt⟩
    · exact h.range j l hj
  · rw [hlive] at hj hj'
    rw [f.ref_grow h hj, f.ref_grow h hj']
    intro h0 he
    split at he <;> split at he
    · rename_i h1 h2
      exact ⟨h1.1.trans h2.1.symm, h1.2.trans h2.2.symm⟩
    · exact absurd he.symm (h.not_ref f.free f.lt hj')
    · exact absurd he (h.not_ref f.free f.lt hj)
    · rename_i hn _
      rw [if_neg hn] at h0
      exact h.inj _ _ _ _ hj hj' h0 he
  · rw [grow_used]
    by_cases hcb : c = b
    · subst hcb
      rw [update_self]
      refine iff_of_true rfl (.inr ⟨i, k, (hlive i).2 f.live, ?_⟩)
      rw [f.ref_grow h f.live, if_pos ⟨rfl, rfl⟩]
    · rw [update_of_ne hcb, h.used c hc]
      refine or_congr_right' fun hmeta => exists₂_congr fun j l => ?_
      rw [hlive]
      refine and_congr_right fun hj => ?_
      rw [f.ref_grow h hj]
      split
      · rename_i he
        obtain ⟨rfl, rfl⟩ := he
        have := sb.nmeta_pos
        rw [f.empty]
        exact iff_of_false (by omega) (Ne.symm hcb)
      · rfl

theorem byte_grow (h : st.Owned sb) (hj : st.Live sb j) (pos : Nat) : (st.grow i k b).byte j pos = st.byte j pos := by
  unfold byte
  rw [f.ref_grow h hj]
  split
  · rename_i he
    obtain ⟨rfl, hk⟩ := he
    rw [if_neg f.ne_zero, hk, if_pos f.empty]
    rcases Nat.lt_or_ge NDIRECT k with hk' | hk'
    · rw [f.grow_block_of_gt h hk', update_of_ne (Ne.symm (h.not_ref f.free f.lt f.live)), update_self]
      exact Bytes.get_zero _
    · rw [grow_block_of_le hk', update_self]
      exact Bytes.get_zero _
  · split
    · rfl
    · rw [f.grow_block h hj ‹_› (.inl (slot_ne _))]

end Fresh

/-! ### Writing a data block -/

section SetBlock

variable {bn : Nat} {x : Block} (h : st.Owned sb) (hi : st.Live sb i)

include h hi

theorem ref_setBlock (hj : st.Live sb j) : (st.setBlock (st.ref i (slot bn)) x).ref j k = st.ref j k := by
  refine ref_congr (fun _ => rfl) fun hne => update_of_ne ?_ _ _
  intro he
  exact slot_ne bn (h.inj _ _ _ _ hj hi hne he).2.symm

theorem owned_setBlock : (st.setBlock (st.ref i (slot bn)) x).Owned sb :=
  h.congr (fun _ => Iff.rfl) (fun _ _ hj => ref_setBlock h hi hj) fun _ _ => rfl

theorem byte_setBlock (h0 : st.ref i (slot bn) ≠ 0) (hj : st.Live sb j) (pos : Nat) :
    (st.setBlock (st.ref i (slot bn)) x).byte j pos =
      if j = i ∧ pos / BSIZE = bn then x.get (pos % BSIZE) else st.byte j pos := by
  unfold byte
  rw [ref_setBlock h hi hj]
  by_cases he : j = i ∧ pos / BSIZE = bn
  · obtain ⟨rfl, rfl⟩ := he
    rw [if_neg h0, if_pos ⟨rfl, rfl⟩]
    exact congrArg (Bytes.get · _) (update_self ..)
  · rw [if_neg he]
    split
    · rfl
    · rename_i hne
      refine congrArg (Bytes.get · _) (update_of_ne ?_ _ _)
      intro hr
      obtain ⟨h1, h2⟩ := h.inj _ _ _ _ hj hi hne hr
      exact he ⟨h1, slot_inj h2⟩

end SetBlock

/-! ### Changing the other fields of an inode -/

section SetInode

variable {d : Dinode} (ha : ∀ k, d.addr k = (st.inode i).addr k)

include ha in
theorem ref_setInode : (st.setInode i d).ref j k = st.ref j k := by
  refine ref_congr (fun k => ?_) fun _ => rfl
  by_cases hj : j = i
  · subst hj
    rw [setInode_self, ha]
  · rw [setInode_ne hj]

include ha in
theorem byte_setInode (pos : Nat) : (st.setInode i d).byte j pos = st.byte j pos :=
  byte_congr (fun _ => ref_setInode ha) (fun _ _ => rfl) pos

theorem live_setInode (ht : d.type ≠ 0 ↔ (st.inode i).type ≠ 0) :
    (st.setInode i d).Live sb j ↔ st.Live sb j := by
  unfold Live
  by_cases hj : j = i
  · subst hj
    rw [setInode_self, ht]
  · rw [setInode_ne hj]

include ha in
theorem Ok.setInode (h : st.Ok sb) (ht : d.type ≠ 0 ↔ (st.inode i).type ≠ 0)
    (hs : d.size.toNat ≤ MAXFILE * BSIZE) (hf : ∀ bn, bn * BSIZE < d.size.toNat → st.ref i (slot bn) ≠ 0) :
    (st.setInode i d).Ok sb := by
  refine ⟨h.congr (fun _ => live_setInode ht) (fun _ _ _ => ref_setInode ha) fun _ _ => rfl, fun j hj => ?_,
    fun j bn hj => ?_⟩
  · by_cases he : j = i
    · subst he
      rwa [setInode_self]
    · rw [setInode_ne he]
      exact h.size_le j ((live_setInode ht).1 hj)
  · rw [ref_setInode ha]
    by_cases he : j = i
    · subst he
      rw [setInode_self]
      exact hf bn
    · rw [setInode_ne he]
      exact h.full j bn ((live_setInode ht).1 hj)

end SetInode

/-! ### A new inode -/

theorem ref_of_addr_zero (h : ∀ k, (st.inode i).addr k = 0) (k : Nat) : st.ref i k = 0 := by
  have hle : ∀ k, k ≤ NDIRECT → st.ref i k = 0 := fun k hk => by
    rw [ref_of_le hk, h]
    rfl
  rcases Nat.lt_or_ge NDIRECT k with hk | hk
  · rw [ref_of_gt hk, if_pos (hle _ le_rfl)]
  · exact hle k hk

theorem ref_setInode_ne {d : Dinode} (hj : j ≠ i) : (st.setInode i d).ref j k = st.ref j k :=
  ref_congr (fun k => by rw [setInode_ne hj]) fun _ => rfl

theorem byte_setInode_ne {d : Dinode} (hj : j ≠ i) (pos : Nat) : (st.setInode i d).byte j pos = st.byte j pos :=
  byte_congr (fun _ => ref_setInode_ne hj) (fun _ _ => rfl) pos

theorem Owned.setInode_new {d : Dinode} (h : st.Owned sb) (hn : ¬ st.Live sb i) (hd : ∀ k, d.addr k = 0) :
    (st.setInode i d).Owned sb := by
  have hself : ∀ k, (st.setInode i d).ref i k = 0 := ref_of_addr_zero (by rwa [setInode_self])
  have hne : ∀ j, (st.setInode i d).Live sb j → j ≠ i → st.Live sb j := fun j hj hji => by
    rwa [Live, setInode_ne hji] at hj
  refine ⟨fun j k hj h0 => ?_, fun j j' k k' hj hj' h0 he => ?_, fun b hb => ?_⟩
  · have hji : j ≠ i := by
      rintro rfl
      exact h0 (hself k)
    rw [ref_setInode_ne hji] at h0 ⊢
    exact h.range j k (hne j hj hji) h0
  · have hji : j ≠ i := by
      rintro rfl
      exact h0 (hself k)
    have hji' : j' ≠ i := by
      rintro rfl
      exact h0 (he.trans (hself k'))
    rw [ref_setInode_ne hji] at h0 he
    rw [ref_setInode_ne hji'] at he
    exact h.inj j j' k k' (hne j hj hji) (hne j' hj' hji') h0 he
  · refine (h.used b hb).trans (or_congr_right' fun hmeta => exists₂_congr fun j k => ?_)
    have hpos := sb.nmeta_pos
    by_cases hji : j = i
    · subst hji
      rw [hself]
      exact iff_of_false (fun hl => hn hl.1) fun hl => by omega
    · rw [ref_setInode_ne hji, Live, Live, setInode_ne hji]

end Store

end Xv6
