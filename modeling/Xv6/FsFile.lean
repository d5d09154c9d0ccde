import Xv6.FsContent

/-!
# A file is a byte array

What `writei` and `readi` do to the contents of a file, for every offset and length. A call fits its
transaction if there is room in the log for the blocks it may touch (`Room`): those of the free map,
the indirect block, the inode and the blocks it writes.
-/

namespace Xv6

open Exec

namespace Fs

variable {s s' : Fs} {ip : Slot} {A : List Nat}

/-! ### Room in the log -/

def bitmapBlocks (s : Fs) : List Nat := (List.range (s.sb.size / BPB + 1)).map (· + s.sb.bmapstart)

theorem Bitmap.mem {c : Nat} (h : s.Bitmap c) : c ∈ s.bitmapBlocks := by
  obtain ⟨b, hb, rfl⟩ := h
  refine List.mem_map.2 ⟨b / BPB, List.mem_range.2 ?_, rfl⟩
  have := Nat.div_le_div_right (c := BPB) hb.le
  omega

/-- The number of blocks in the log grows by those of the free map, the indirect block and `A`. -/
theorem Logged.length_le (h : Logged ip A s s') (hnd : s.lh.Nodup) :
    s'.lh.length ≤ s.lh.length + (s.sb.size / BPB + 2 + A.length) := by
  have hsub : s'.lh ⊆ s.lh ++ s.bitmapBlocks ++ [((s'.icache ip).addr NDIRECT).toNat] ++ A := by
    intro c hc
    simp only [List.mem_append, List.mem_singleton]
    rcases h.mem c hc with hc | hc | hc | hc
    · exact .inl (.inl (.inl hc))
    · exact .inl (.inl (.inr hc.mem))
    · exact .inl (.inr hc.2)
    · exact .inr hc
  have hlen := (List.subperm_of_subset (h.nodup hnd) hsub).length_le
  simp only [List.length_append, bitmapBlocks, List.length_map, List.length_range, List.length_singleton] at hlen
  omega

def Room (s : Fs) (n : Nat) : Prop :=
  s.lh.length + (s.sb.size / BPB + 2 + n) < LOGSIZE ∧ s.lh.length + (s.sb.size / BPB + 2 + n) < s.sb.nlog - 1

theorem Logged.room (h : Logged ip A s s') (hnd : s.lh.Nodup) (hr : s.Room A.length) : ¬ s'.NoRoom := by
  have hlen := h.length_le hnd
  have hsb := h.sb
  unfold Room at hr
  unfold NoRoom
  rw [hsb]
  omega

theorem Room.mono {m n : Nat} (h : s.Room n) (hle : m ≤ n) : s.Room m := by
  unfold Room at h ⊢
  omega

/-! ### Reading and writing -/

/-- With room in the log, `writei` stops only when there is no free block. -/
theorem writei_room (h : s.Open ip) (hok : s.view.Ok s.sb) (ho : 0 < s.outstanding) (hnd : s.lh.Nodup)
    (hdev : (s.icache ip).type ≠ T_DEV) {src : Nat → UInt8} {off n : UInt32} (hfit : s.Fits ip off n)
    (hr : s.Room (span off.toNat n.toNat + 1)) :
    Meets (writei ip src off n) s
      (fun r s' => r = some n.toNat ∧ Wrote ip off.toNat n.toNat src s s')
      (fun e s' => e = .panic "balloc: out of blocks" ∧ ∀ b, b < s'.sb.size → s'.bit b = true) := by
  refine (writei_meets h hok ho hdev hfit).mono ?_ ?_
  · rintro r s' ⟨hr, hw, -⟩
    exact ⟨hr, hw⟩
  · rintro e s' ⟨hfull, A, hA, hl⟩
    rcases hfull with ⟨-, hno⟩ | hfull
    · exact absurd hno (hl.room hnd (hr.mono (by rw [List.length_cons]; omega)))
    · exact hfull

/-- For a file or directory `ip` of a consistent file system, in a transaction. With room in the log a
write that `Fits` replaces the bytes it covers, and any other is refused; a read returns the bytes
there are. -/
theorem file_is_byte_array (h : s.Open ip) (hok : s.view.Ok s.sb) (ho : 0 < s.outstanding) (hnd : s.lh.Nodup)
    (hdev : (s.icache ip).type ≠ T_DEV) (src : Nat → UInt8) (off n : UInt32) :
    (off.toNat ≤ (s.icache ip).size.toNat ∧ off.toNat + n.toNat ≤ MAXFILE * BSIZE →
      s.Room (span off.toNat n.toNat + 1) →
      Meets (writei ip src off n) s
        (fun r s' => r = some n.toNat ∧
          (∀ pos, s'.view.byte (s.icache ip).inum pos =
            overlay (s.view.byte (s.icache ip).inum) off.toNat n.toNat src pos) ∧
          (s'.icache ip).size.toNat = max (s.icache ip).size.toNat (off.toNat + n.toNat) ∧
          (∀ j, j ≠ (s.icache ip).inum → s'.view.inode j = s.view.inode j ∧
            (s.view.Live s.sb j → ∀ pos, s'.view.byte j pos = s.view.byte j pos)) ∧ s'.view.Ok s'.sb)
        (fun e s' => e = .panic "balloc: out of blocks" ∧ ∀ b, b < s'.sb.size → s'.bit b = true)) ∧
    (¬ (off.toNat ≤ (s.icache ip).size.toNat ∧ off.toNat + n.toNat ≤ MAXFILE * BSIZE) →
      writei ip src off n s = (.ok none, s)) ∧
    readi ip off n s = (.ok (if (s.icache ip).size.toNat < off.toNat ∨ 2 ^ 32 ≤ off.toNat + n.toNat then none
      else some (s.view.slice (s.icache ip).inum off.toNat
        (min n.toNat ((s.icache ip).size.toNat - off.toNat)))), s) := by
  have hsize : (s.icache ip).size.toNat ≤ MAXFILE * BSIZE := by
    have := hok.size_le _ h.live
    rwa [h.inode] at this
  refine ⟨fun hfit hr => ?_, fun hn => ?_, ?_⟩
  · refine (writei_room h hok ho hnd hdev ⟨hfit.1, hfit.2⟩ hr).mono ?_ fun _ _ => id
    rintro r s' ⟨hr, hw⟩
    obtain ⟨a, z, hslot, hz⟩ := hw.slot
    refine ⟨hr, hw.byte, by rw [hslot]; exact hz, fun j hj => ⟨hw.inode_ne j hj, fun hl pos => ?_⟩, hw.ok⟩
    exact hw.byte_ne j pos hl hj
  · exact writei_rejects hdev fun hfit => hn ⟨hfit.le, hfit.max⟩
  · rw [readi_eq h hdev (fun pos _ _ hlt => ?_) (by omega)]
    · have hiff : ((s.icache ip).size < off ∨ off + n < off) ↔
          ((s.icache ip).size.toNat < off.toNat ∨ 2 ^ 32 ≤ off.toNat + n.toNat) := by
        have h1 := off.toNat_lt
        have h2 := n.toNat_lt
        rw [UInt32.lt_iff_toNat_lt, UInt32.lt_iff_toNat_lt, UInt32.toNat_add]
        omega
      simp only [hiff]
    · refine hok.full _ _ h.live ?_
      rw [h.inode]
      have := Nat.div_mul_le_self pos BSIZE
      omega

end Fs

/-! ### Checking a store -/

namespace Store

variable (st : Store) (sb : Superblock)

def slots : List (Nat × Nat) :=
  (((List.range sb.ninodes).filter fun i => 0 < i ∧ (st.inode i).type ≠ 0) ×ˢ List.range (MAXFILE + 1)).filter
    fun x => st.ref x.1 x.2 ≠ 0

/-- Decides `Store.Ok`. -/
def fsck : Bool :=
  let refs := (st.slots sb).map fun x => st.ref x.1 x.2
  refs.all (fun b => sb.nmeta ≤ b && b < sb.size) && decide refs.Nodup &&
  (List.range sb.size).all (fun b => st.used b == (decide (b < sb.nmeta) || refs.contains b)) &&
  (List.range sb.ninodes).all fun i => i == 0 || (st.inode i).type == 0 ||
    (st.inode i).size.toNat ≤ MAXFILE * BSIZE &&
      (List.range (((st.inode i).size.toNat + BSIZE - 1) / BSIZE)).all fun bn => st.ref i (slot bn) != 0

variable {st sb}

theorem ref_of_max {i k : Nat} (h : MAXFILE < k) : st.ref i k = 0 := by
  simp only [MAXFILE, NDIRECT, NINDIRECT, BSIZE] at h
  rw [ref_of_gt (by simp only [NDIRECT]; omega)]
  split
  · rfl
  · have hzero : (st.block (st.ref i NDIRECT)).getLE (4 * (k - (NDIRECT + 1))) 4 = 0 := by
      refine Bytes.leNat_zero fun j hj _ => ?_
      simp only [NDIRECT] at hj
      rw [Bytes.get, dif_neg (by simp only [BSIZE]; omega)]
    rw [Bytes.word, hzero]
    rfl

theorem mem_slots {i k : Nat} : (i, k) ∈ st.slots sb ↔ st.Live sb i ∧ st.ref i k ≠ 0 := by
  unfold slots Live
  rw [List.mem_filter, List.mem_product, List.mem_filter, List.mem_range, List.mem_range, decide_eq_true_iff,
    decide_eq_true_iff]
  constructor
  · rintro ⟨⟨⟨h1, h3, h4⟩, h2⟩, h5⟩
    exact ⟨⟨h3, h1, h4⟩, h5⟩
  · rintro ⟨⟨h1, h2, h3⟩, h4⟩
    have hk : k < MAXFILE + 1 := by
      by_contra hk
      exact h4 (ref_of_max (by omega))
    exact ⟨⟨⟨h2, h1, h3⟩, hk⟩, h4⟩

theorem fsck_ok (h : st.fsck sb = true) : st.Ok sb := by
  simp only [fsck, Bool.and_eq_true, Bool.or_eq_true, List.all_eq_true, List.mem_map, List.mem_range, decide_eq_true_iff,
    beq_iff_eq, bne_iff_ne, List.contains_eq_mem] at h
  obtain ⟨⟨⟨hrange, hnodup⟩, hused⟩, hfiles⟩ := h
  have hfile : ∀ i, st.Live sb i → (st.inode i).size.toNat ≤ MAXFILE * BSIZE ∧
      ∀ bn, bn < ((st.inode i).size.toNat + BSIZE - 1) / BSIZE → st.ref i (slot bn) ≠ 0 := fun i hi => by
    obtain ⟨h1, h2, h3⟩ := hi
    rcases hfiles i h2 with (h | h) | h
    · omega
    · exact absurd h h3
    · exact h
  refine ⟨⟨fun i k hi hk => ?_, fun i j k l hi hj hk heq => ?_, fun b hb => ?_⟩, fun i hi => (hfile i hi).1,
    fun i bn hi hbn => (hfile i hi).2 bn ?_⟩
  · exact hrange _ ⟨(i, k), mem_slots.2 ⟨hi, hk⟩, rfl⟩
  · have hmem := mem_slots.2 ⟨hi, hk⟩
    have hmem' := mem_slots.2 ⟨hj, heq ▸ hk⟩
    have hinj := List.inj_on_of_nodup_map hnodup hmem hmem' heq
    exact ⟨congrArg Prod.fst hinj, congrArg Prod.snd hinj⟩
  · have hb' := hused b hb
    rw [hb', Bool.or_eq_true, decide_eq_true_iff, decide_eq_true_iff]
    refine or_congr_right' fun hmeta => ⟨?_, ?_⟩
    · rintro ⟨⟨i, k⟩, hmem, rfl⟩
      exact ⟨i, k, (mem_slots.1 hmem).1, rfl⟩
    · rintro ⟨i, k, hi, rfl⟩
      have hpos := sb.nmeta_pos
      exact ⟨(i, k), mem_slots.2 ⟨hi, by omega⟩, rfl⟩
  · simp only [BSIZE] at hbn ⊢
    omega

end Store

/-! ### A file system with one file of 30 blocks -/

namespace Sample

def sb : Superblock := ⟨100, 64, 16, 30, 2, 32, 35⟩

/-- Inode 1 has the blocks 36 to 47, the indirect block 48 and in it the blocks 49 to 66. -/
def file : Dinode where
  type := T_FILE
  major := 0
  minor := 0
  nlink := 1
  size := 15360
  addrs k := UInt32.ofNat (36 + k.val)

def bitmap : Block := fun i => if i.val < 8 then 255 else if i.val = 8 then 7 else 0

def indirect : Block := fun i => if i.val < 72 ∧ i.val % 4 = 0 then UInt8.ofNat (49 + i.val / 4) else 0

def disk (b : Nat) : Block :=
  if b = 32 then Dinode.write (Bytes.zero BSIZE) 1 file
  else if b = 35 then bitmap
  else if b = 48 then indirect
  else Bytes.zero BSIZE

def icache (k : Slot) : Inode :=
  if k = 0 then ⟨file, ROOTDEV, 1, 1, true, true⟩ else ⟨default, 0, 0, 0, false, false⟩

def fs : Fs := ⟨sb, disk, [], 1, icache, fun _ => ⟨none, none⟩⟩

theorem sb_ok : sb.Ok := ⟨by decide, by decide, by decide⟩

theorem icache_ref {k : Slot} (h : 0 < (fs.icache k).ref) : k = 0 := by
  by_contra hk
  have hfree : fs.icache k = ⟨default, 0, 0, 0, false, false⟩ := if_neg hk
  rw [hfree] at h
  exact absurd h (by decide)

theorem cache_ok : fs.CacheOk := by
  refine ⟨fun k => ?_, fun k h => ?_, fun k l h h' _ => (icache_ref h).trans (icache_ref h').symm, fun k h _ => ?_⟩
  · show 0 ≤ (icache k).ref
    unfold icache
    split <;> decide
  · rw [icache_ref h]
    rfl
  · rw [icache_ref h]
    exact ⟨by decide, by decide⟩

theorem store_ok : fs.view.Ok fs.sb := Store.fsck_ok (by decide +kernel)

theorem open_file : fs.Open 0 := ⟨sb_ok, cache_ok, store_ok.toOwned, by decide, rfl, by decide⟩

end Sample

namespace Fs

/-- A write of all 30 blocks does not fit in the log, although no block has to be allocated. -/
theorem writei_too_big : Sample.fs.Open 0 ∧ Sample.fs.view.Ok Sample.fs.sb ∧ (Sample.fs.icache 0).size = 15360 ∧
    (writei 0 (fun _ => 7) 0 15360 Sample.fs).1 = .error (.panic "too big a transaction") := by
  refine ⟨Sample.open_file, Sample.store_ok, rfl, ?_⟩
  have h : (match (writei 0 (fun _ => 7) 0 15360 Sample.fs).1 with
    | .error e => e == .panic "too big a transaction"
    | .ok _ => false) = true := by decide +kernel
  split at h
  · rename_i e he
    rw [he, beq_iff_eq.1 h]
  · cases h

theorem file_is_byte_array_append : ∃ s', writei 0 (fun _ => 7) 15000 600 Sample.fs = (.ok (some 600), s') ∧
    s'.view.byte 1 15599 = 7 ∧ (s'.icache 0).size.toNat = 15600 ∧
    readi 0 15360 600 Sample.fs = (.ok (some []), Sample.fs) := by
  have hbytes := file_is_byte_array Sample.open_file Sample.store_ok (by decide) List.nodup_nil (by decide) (fun _ => 7)
  have hm := (hbytes 15000 600).1 ⟨by decide, by decide⟩ ⟨by decide, by decide⟩
  rcases hrun : writei 0 (fun _ => 7) 15000 600 Sample.fs with ⟨e | r, s'⟩
  · have hfree : (match (writei 0 (fun _ => 7) 15000 600 Sample.fs).1 with
      | .error _ => false
      | .ok _ => true) = true := by decide +kernel
    rw [hrun] at hfree
    cases hfree
  · obtain ⟨rfl, hbyte, hsize, -⟩ := hm.run_ok hrun
    refine ⟨s', rfl, ?_, hsize, (hbytes 15360 600).2.2⟩
    exact (hbyte 15599).trans (if_pos ⟨by decide, by decide⟩)

end Fs

end Xv6
