import Xv6.Fs
import Xv6.FsStore

/-!
# What the disk and the inode cache mean

`Fs.view` is the store a file-system state stands for. The inode `i` of the store is the copy in the
cache if there is a valid one that is referenced, and the disk inode otherwise, so writing a cached
inode back, loading it and taking or dropping a reference do not change the store. What lies outside
the inode table, the free map and the data region is masked, and each way of changing the state is an
equation about its view.
-/

namespace Xv6.Fs

open Function (update update_self update_of_ne)

variable (s : Fs)

/-- Entry `k` of the cache holds the current contents of inode `i`. -/
def Holds (i : Nat) (k : Slot) : Prop := 0 < (s.icache k).ref ∧ (s.icache k).valid = true ∧ (s.icache k).inum = i

instance (i : Nat) (k : Slot) : Decidable (s.Holds i k) := inferInstanceAs (Decidable (_ ∧ _))

def cur (i : Nat) : Dinode :=
  match (List.finRange NINODE).find? fun k => s.Holds i k with
  | some k => (s.icache k).toDinode
  | none => s.dinode i

def view : Store where
  inode i := if i < s.sb.ninodes then s.cur i else default
  used b := if b < s.sb.size then s.bit b else true
  block b := if b < s.sb.nmeta then Bytes.zero BSIZE else s.disk b

/-- The reference counts of the cache and the numbers of its entries. -/
structure CacheOk : Prop where
  nonneg : ∀ k, 0 ≤ (s.icache k).ref
  dev : ∀ k, 0 < (s.icache k).ref → (s.icache k).dev = ROOTDEV
  uniq : ∀ k l, 0 < (s.icache k).ref → 0 < (s.icache l).ref → (s.icache k).inum = (s.icache l).inum → k = l
  inum : ∀ k, 0 < (s.icache k).ref → (s.icache k).valid = true →
    0 < (s.icache k).inum ∧ (s.icache k).inum < s.sb.ninodes

variable {s} {s' : Fs} {i : Nat} {k ip : Slot}

theorem CacheOk.cur_of_holds (h : s.CacheOk) (hk : s.Holds i k) : s.cur i = (s.icache k).toDinode := by
  have hf : ((List.finRange NINODE).find? fun k => decide (s.Holds i k)) = some k := by
    rcases hl : (List.finRange NINODE).find? fun k => decide (s.Holds i k) with _ | l
    · exact absurd (decide_eq_true hk) (List.find?_eq_none.1 hl k (List.mem_finRange k))
    · have hl' : s.Holds i l := by simpa using List.find?_some hl
      rw [h.uniq l k hl'.1 hk.1 (hl'.2.2.trans hk.2.2.symm)]
  rw [cur, hf]

theorem cur_of_not (hn : ∀ k, ¬ s.Holds i k) : s.cur i = s.dinode i := by
  have hf : ((List.finRange NINODE).find? fun k => decide (s.Holds i k)) = none :=
    List.find?_eq_none.2 fun k _ => by simpa using hn k
  rw [cur, hf]

theorem cur_congr (hh : ∀ k, s'.Holds i k ↔ s.Holds i k)
    (hc : ∀ k, s.Holds i k → (s'.icache k).toDinode = (s.icache k).toDinode) (hd : s'.dinode i = s.dinode i) :
    s'.cur i = s.cur i := by
  unfold cur
  simp only [hh]
  split
  · rename_i k hk
    exact hc k (by simpa using List.find?_some hk)
  · exact hd

theorem view_inode (hi : i < s.sb.ninodes) : s.view.inode i = s.cur i := if_pos hi

theorem view_used {b : Nat} (hb : b < s.sb.size) : s.view.used b = s.bit b := if_pos hb

theorem view_block {b : Nat} (hb : s.sb.nmeta ≤ b) : s.view.block b = s.disk b := if_neg (by omega)

theorem view_ext {st : Store} (hsb : s'.sb = s.sb) (hi : ∀ i, i < s.sb.ninodes → s'.cur i = st.inode i)
    (hb : ∀ b, b < s.sb.size → s'.bit b = st.used b) (hd : ∀ b, s.sb.nmeta ≤ b → s'.disk b = st.block b)
    (hi' : ∀ i, s.sb.ninodes ≤ i → s.view.inode i = st.inode i)
    (hb' : ∀ b, s.sb.size ≤ b → s.view.used b = st.used b)
    (hd' : ∀ b, b < s.sb.nmeta → s.view.block b = st.block b) : s'.view = st := by
  refine Store.ext (funext fun i => ?_) (funext fun b => ?_) (funext fun b => ?_)
  · rcases Nat.lt_or_ge i s.sb.ninodes with h | h
    · rw [view_inode (by rwa [hsb]), hi i h]
    · rw [← hi' i h]
      exact (if_neg (by rw [hsb]; omega)).trans (if_neg (by omega)).symm
  · rcases Nat.lt_or_ge b s.sb.size with h | h
    · rw [view_used (by rwa [hsb]), hb b h]
    · rw [← hb' b h]
      exact (if_neg (by rw [hsb]; omega)).trans (if_neg (by omega)).symm
  · rcases Nat.lt_or_ge b s.sb.nmeta with h | h
    · rw [← hd' b h]
      exact (if_pos (by rwa [hsb])).trans (if_pos h).symm
    · rw [view_block (by rwa [hsb]), hd b h]

theorem view_congr (hsb : s'.sb = s.sb) (hcur : ∀ i, i < s.sb.ninodes → s'.cur i = s.cur i)
    (hbit : ∀ b, b < s.sb.size → s'.bit b = s.bit b) (hdisk : ∀ b, s.sb.nmeta ≤ b → s'.disk b = s.disk b) :
    s'.view = s.view :=
  view_ext hsb (fun i hi => by rw [hcur i hi, view_inode hi]) (fun b hb => by rw [hbit b hb, view_used hb])
    (fun b hb => by rw [hdisk b hb, view_block hb]) (fun _ _ => rfl) (fun _ _ => rfl) fun _ _ => rfl

/-! ### Writing a block -/

@[simp] theorem write_sb (b : Nat) (x : Block) : (s.write b x).sb = s.sb := rfl

@[simp] theorem write_icache (b : Nat) (x : Block) : (s.write b x).icache = s.icache := rfl

theorem write_disk (b : Nat) (x : Block) : (s.write b x).disk = update s.disk b x := rfl

theorem holds_write (b : Nat) (x : Block) : (s.write b x).Holds i k ↔ s.Holds i k := Iff.rfl

theorem dinode_write {b : Nat} {x : Block} (h : s.sb.iblock i ≠ b) : (s.write b x).dinode i = s.dinode i := by
  unfold dinode
  rw [write_sb, write_disk, update_of_ne h]

theorem bit_write {b c : Nat} {x : Block} (h : s.sb.bblock c ≠ b) : (s.write b x).bit c = s.bit c := by
  unfold bit
  rw [write_sb, write_disk, update_of_ne h]

theorem cur_write {b : Nat} {x : Block} (h : s.sb.iblock i ≠ b) : (s.write b x).cur i = s.cur i :=
  cur_congr (fun _ => Iff.rfl) (fun _ _ => rfl) (dinode_write h)

section Layout

variable (hsb : s.sb.Ok)

include hsb

theorem view_write_data {b : Nat} (hb : s.sb.nmeta ≤ b) (x : Block) : (s.write b x).view = s.view.setBlock b x := by
  refine view_ext (s := s) rfl (fun i hi => ?_) (fun c hc => ?_) (fun c hc => ?_) (fun _ _ => rfl) (fun _ _ => rfl)
    fun c hc => ?_
  · have := hsb.iblock_lt_nmeta hi
    rw [cur_write (by omega)]
    exact (view_inode hi).symm
  · have := (hsb.bblock_lt hc).2
    rw [bit_write (by omega)]
    exact (view_used hc).symm
  · rw [write_disk]
    by_cases he : c = b
    · subst he
      rw [update_self, Store.setBlock_self]
    · rw [update_of_ne he, Store.setBlock_ne he, view_block hc]
  · exact (Store.setBlock_ne (by omega)).symm

theorem view_write_bitmap {b : Nat} (hb : b < s.sb.size) {x : Block} {v : Bool} (hx : x.bit (b % BPB) = v)
    (hx' : ∀ j, j ≠ b % BPB → x.bit j = (s.disk (s.sb.bblock b)).bit j) :
    (s.write (s.sb.bblock b) x).view = s.view.setUsed b v := by
  have hblk := hsb.bblock_lt hb
  refine view_ext (s := s) rfl (fun i hi => ?_) (fun c hc => ?_) (fun c hc => ?_) (fun _ _ => rfl) (fun c hc => ?_)
    fun _ _ => rfl
  · have := hsb.iblock_lt hi
    rw [cur_write (by omega)]
    exact (view_inode hi).symm
  · by_cases he : c = b
    · subst he
      rw [Store.setUsed_self, bit, write_sb, write_disk, update_self, hx]
    rw [Store.setUsed_ne he, view_used hc]
    by_cases hbl : s.sb.bblock c = s.sb.bblock b
    · rw [bit, write_sb, write_disk, hbl, update_self, bit, hbl]
      refine hx' _ fun hm => he ?_
      unfold Superblock.bblock at hbl
      simp only [BPB, BSIZE] at hbl hm
      omega
    · exact bit_write hbl
  · rw [write_disk, update_of_ne (by omega)]
    exact (view_block hc).symm
  · exact (Store.setUsed_ne (by omega)).symm

omit hsb in
theorem dinode_write_dinode {i j : Nat} (x : Dinode) :
    (s.write (s.sb.iblock i) (Dinode.write (s.disk (s.sb.iblock i)) (i % IPB) x)).dinode j =
      if j = i then x else s.dinode j := by
  rw [dinode, write_sb, write_disk, Dinode.read_update_write]
  rfl

/-- Writing the disk inode back leaves an inode that is cached as it is. -/
theorem view_write_dinode {i : Nat} (hi : i < s.sb.ninodes) {x : Dinode} (hx : s.CacheOk)
    (hk : s.Holds i k) :
    (s.write (s.sb.iblock i) (Dinode.write (s.disk (s.sb.iblock i)) (i % IPB) x)).view = s.view := by
  have hblk := hsb.iblock_lt hi
  refine view_congr rfl (fun j hj => ?_) (fun b hb => ?_) fun b hb => ?_
  · by_cases hji : j = i
    · subst hji
      have h' : (s.write (s.sb.iblock j) (Dinode.write (s.disk (s.sb.iblock j)) (j % IPB) x)).CacheOk :=
        ⟨hx.nonneg, hx.dev, hx.uniq, hx.inum⟩
      rw [hx.cur_of_holds hk, h'.cur_of_holds ((holds_write _ _).2 hk)]
      rfl
    · refine cur_congr (fun _ => Iff.rfl) (fun _ _ => rfl) ?_
      rw [dinode_write_dinode, if_neg hji]
  · have := hsb.bblock_lt hb
    exact bit_write (by omega)
  · have := hsb.iblock_lt_nmeta hi
    rw [write_disk, update_of_ne (by omega)]

end Layout

/-! ### Changing a cache entry -/

@[simp] theorem setSlot_icache_self (x : Inode) : (s.setSlot ip x).icache ip = x := update_self ..

theorem setSlot_icache_ne {x : Inode} (h : k ≠ ip) : (s.setSlot ip x).icache k = s.icache k := update_of_ne h ..

theorem dinode_setSlot (x : Inode) : (s.setSlot ip x).dinode i = s.dinode i := rfl

theorem holds_setSlot_ne {x : Inode} (h : k ≠ ip) : (s.setSlot ip x).Holds i k ↔ s.Holds i k := by
  unfold Holds
  rw [setSlot_icache_ne h]

theorem CacheOk.congr (h : s.CacheOk) (hsb : s'.sb.ninodes = s.sb.ninodes)
    (hr : ∀ k, (s'.icache k).ref = (s.icache k).ref) (hd : ∀ k, (s'.icache k).dev = (s.icache k).dev)
    (hi : ∀ k, (s'.icache k).inum = (s.icache k).inum)
    (hv : ∀ k, (s'.icache k).valid = true → (s.icache k).valid = true) : s'.CacheOk := by
  refine ⟨fun k => ?_, fun k => ?_, fun k l => ?_, fun k h1 h2 => ?_⟩
  · rw [hr]
    exact h.nonneg k
  · rw [hr, hd]
    exact h.dev k
  · rw [hr, hr, hi, hi]
    exact h.uniq k l
  · rw [hr] at h1
    rw [hi, hsb]
    exact h.inum k h1 (hv k h2)

theorem CacheOk.setSlot_dinode (h : s.CacheOk) (d : Dinode) :
    (s.setSlot ip { s.icache ip with toDinode := d }).CacheOk := by
  have hcongr : ∀ k, ∃ d', (s.setSlot ip { s.icache ip with toDinode := d }).icache k = { s.icache k with toDinode := d' } := by
    intro k
    by_cases hk : k = ip
    · subst hk
      exact ⟨d, setSlot_icache_self _⟩
    · exact ⟨_, setSlot_icache_ne hk⟩
  refine h.congr rfl ?_ ?_ ?_ ?_ <;> intro k <;> obtain ⟨d', hd⟩ := hcongr k <;> rw [hd]
  exact id

theorem CacheOk.write (h : s.CacheOk) (b : Nat) (x : Block) : (s.write b x).CacheOk :=
  ⟨h.nonneg, h.dev, h.uniq, h.inum⟩

theorem view_setSlot_of_cur {x : Inode} (h : ∀ i, (s.setSlot ip x).cur i = s.cur i) : (s.setSlot ip x).view = s.view :=
  view_congr rfl (fun i _ => h i) (fun _ _ => rfl) fun _ _ => rfl

theorem view_setSlot_frame {x : Inode} (hd : x.toDinode = (s.icache ip).toDinode)
    (hi : x.inum = (s.icache ip).inum) (hv : x.valid = (s.icache ip).valid)
    (hr : 0 < x.ref ↔ 0 < (s.icache ip).ref) : (s.setSlot ip x).view = s.view := by
  refine view_setSlot_of_cur fun i => cur_congr (fun k => ?_) (fun k _ => ?_) rfl
  · by_cases hk : k = ip
    · subst hk
      unfold Holds
      rw [setSlot_icache_self, hi, hv, hr]
    · exact holds_setSlot_ne hk
  · by_cases hk : k = ip
    · subst hk
      rw [setSlot_icache_self, hd]
    · rw [setSlot_icache_ne hk]

theorem view_setSlot_idle {x : Inode} (h : ¬ (0 < (s.icache ip).ref ∧ (s.icache ip).valid = true))
    (h' : ¬ (0 < x.ref ∧ x.valid = true)) : (s.setSlot ip x).view = s.view := by
  refine view_setSlot_of_cur fun i => cur_congr (fun k => ?_) (fun k hk => ?_) rfl
  · by_cases hk : k = ip
    · subst hk
      unfold Holds
      rw [setSlot_icache_self]
      exact iff_of_false (fun hh => h' ⟨hh.1, hh.2.1⟩) fun hh => h ⟨hh.1, hh.2.1⟩
    · exact holds_setSlot_ne hk
  · by_cases hne : k = ip
    · subst hne
      exact absurd ⟨hk.1, hk.2.1⟩ h
    · rw [setSlot_icache_ne hne]

theorem view_setSlot_dinode (hc : s.CacheOk) {d : Dinode} (hk : s.Holds i ip) :
    (s.setSlot ip { s.icache ip with toDinode := d }).view = s.view.setInode i d := by
  have hi : i < s.sb.ninodes := by rw [← hk.2.2]; exact (hc.inum ip hk.1 hk.2.1).2
  have hc' : (s.setSlot ip { s.icache ip with toDinode := d }).CacheOk := hc.setSlot_dinode d
  refine view_ext (s := s) rfl (fun j hj => ?_) (fun b hb => (view_used hb).symm) (fun b hb => (view_block hb).symm)
    (fun j hj => (Store.setInode_ne (by omega)).symm) (fun _ _ => rfl) fun _ _ => rfl
  by_cases he : j = i
  · subst he
    have hk' : (s.setSlot ip { s.icache ip with toDinode := d }).Holds j ip := by
      unfold Holds
      rw [setSlot_icache_self]
      exact hk
    rw [hc'.cur_of_holds hk', setSlot_icache_self, Store.setInode_self]
  · rw [Store.setInode_ne he, view_inode hj]
    refine cur_congr (fun k => ?_) (fun k hk' => ?_) rfl
    · by_cases hkip : k = ip
      · subst hkip
        unfold Holds
        rw [setSlot_icache_self]
      · exact holds_setSlot_ne hkip
    · rw [setSlot_icache_ne]
      rintro rfl
      exact he (hk'.2.2.symm.trans hk.2.2)

end Xv6.Fs
