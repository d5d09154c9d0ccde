import Xv6.FsView

/-!
# A file is a byte array

What `balloc`, `bmap`, `readi` and `writei` do to the view of the state. `Open s ip`: the entry `ip` holds an allocated
inode, and no block has two owners. `Ext ip c s s'`: from `s` to `s'` blocks were added to the inode of `ip`, its bytes
are now `c`, and nothing else changed. `Logged ip A s s'` bounds the blocks that were logged: apart from the free map
and the indirect block of the inode they are in `A`.
-/

namespace Xv6

open Function (update update_self update_of_ne)
open Exec (Meets)

namespace Fs

variable {s s' s₁ s₂ : Fs} {ip k : Slot} {i b : Nat} {x : Block}

/-! ### The log -/

def NoRoom (s : Fs) : Prop := LOGSIZE ≤ s.lh.length ∨ s.sb.nlog - 1 ≤ s.lh.length

def Full (s : Fs) (e : Stop) : Prop :=
  e = .panic "too big a transaction" ∧ s.NoRoom ∨
    e = .panic "balloc: out of blocks" ∧ ∀ b, b < s.sb.size → s.bit b = true

theorem mem_lh_write {c : Nat} : c ∈ (s.write b x).lh ↔ c ∈ s.lh ∨ c = b := by
  unfold write
  split
  · rename_i hb
    refine ⟨.inl, ?_⟩
    rintro (h | rfl)
    · exact h
    · exact hb
  · simp

theorem nodup_lh_write (h : s.lh.Nodup) : (s.write b x).lh.Nodup := by
  unfold write
  split
  · exact h
  · exact h.append (List.nodup_singleton b) (by simpa using ‹b ∉ s.lh›)

def Bitmap (s : Fs) (c : Nat) : Prop := ∃ b, b < s.sb.size ∧ c = s.sb.bblock b

structure Logged (ip : Slot) (A : List Nat) (s s' : Fs) : Prop where
  sb : s'.sb = s.sb
  keep : (s.icache ip).addr NDIRECT ≠ 0 → (s'.icache ip).addr NDIRECT = (s.icache ip).addr NDIRECT
  nodup : s.lh.Nodup → s'.lh.Nodup
  mem : ∀ c, c ∈ s'.lh → c ∈ s.lh ∨ s.Bitmap c ∨
    ((s'.icache ip).addr NDIRECT ≠ 0 ∧ c = ((s'.icache ip).addr NDIRECT).toNat) ∨ c ∈ A

namespace Logged

variable {A B : List Nat}

theorem refl : Logged ip A s s := ⟨rfl, fun _ => rfl, id, fun _ hc => .inl hc⟩

theorem mono (h : Logged ip A s s') (hA : ∀ c ∈ A, c ∈ B) : Logged ip B s s' := by
  refine ⟨h.sb, h.keep, h.nodup, fun c hc => ?_⟩
  rcases h.mem c hc with h | h | h | h
  · exact .inl h
  · exact .inr (.inl h)
  · exact .inr (.inr (.inl h))
  · exact .inr (.inr (.inr (hA c h)))

theorem trans (h₁ : Logged ip A s s₁) (h₂ : Logged ip A s₁ s₂) : Logged ip A s s₂ := by
  refine ⟨h₂.sb.trans h₁.sb, fun h => ?_, fun h => h₂.nodup (h₁.nodup h), fun c hc => ?_⟩
  · rw [h₂.keep (by rwa [h₁.keep h]), h₁.keep h]
  · rcases h₂.mem c hc with h | h | h | h
    · rcases h₁.mem c h with h | h | h | h
      · exact .inl h
      · exact .inr (.inl h)
      · rw [← h₂.keep h.1] at h
        exact .inr (.inr (.inl h))
      · exact .inr (.inr (.inr h))
    · refine .inr (.inl ?_)
      unfold Bitmap at h ⊢
      rwa [h₁.sb] at h
    · exact .inr (.inr (.inl h))
    · exact .inr (.inr (.inr h))

theorem write (hb : s.Bitmap b ∨ ((s.icache ip).addr NDIRECT ≠ 0 ∧ b = ((s.icache ip).addr NDIRECT).toNat) ∨ b ∈ A) :
    Logged ip A s (s.write b x) := by
  refine ⟨rfl, fun _ => rfl, nodup_lh_write, fun c hc => ?_⟩
  rcases mem_lh_write.1 hc with h | rfl
  · exact .inl h
  · exact .inr hb

theorem setSlot {y : Inode} (hy : (s.icache ip).addr NDIRECT ≠ 0 → y.addr NDIRECT = (s.icache ip).addr NDIRECT) :
    Logged ip A s (s.setSlot ip y) := by
  refine ⟨rfl, fun h => ?_, id, fun c hc => .inl hc⟩
  rw [setSlot_icache_self]
  exact hy h

/-- The indirect block itself needs no mention. -/
theorem indirect (h : Logged ip [((s'.icache ip).addr NDIRECT).toNat] s s') (h0 : (s'.icache ip).addr NDIRECT ≠ 0) :
    Logged ip A s s' := by
  refine ⟨h.sb, h.keep, h.nodup, fun c hc => ?_⟩
  rcases h.mem c hc with hc | hc | hc | hc
  · exact .inl hc
  · exact .inr (.inl hc)
  · exact .inr (.inr (.inl hc))
  · exact .inr (.inr (.inl ⟨h0, List.mem_singleton.1 hc⟩))

end Logged

theorem logWrite_meets (ho : 0 < s.outstanding) {Q : Unit → Fs → Prop} {E : Stop → Fs → Prop}
    (hQ : Q () (s.write b x)) (hE : ∀ e, s.Full e → E e s) : Meets (logWrite b x) s Q E := by
  refine Meets.get_bind ?_
  split
  · exact Meets.stop (hE _ (.inl ⟨rfl, ‹_›⟩))
  · rw [if_neg (by omega)]
    exact Meets.modify hQ

/-! ### Allocation -/

def mark (s : Fs) (b : Nat) : Fs := s.write (s.sb.bblock b) ((s.disk (s.sb.bblock b)).setBit (b % BPB))

def allocBlock (s : Fs) (b : Nat) : Fs := (s.mark b).write b (Bytes.zero BSIZE)

theorem balloc_meets (ho : 0 < s.outstanding) {Q : UInt32 → Fs → Prop} {E : Stop → Fs → Prop}
    (hQ : ∀ b, b < s.sb.size → s.bit b = false → Q (UInt32.ofNat b) (s.allocBlock b))
    (hE : ∀ e s', s'.Full e → Logged ip [] s s' → E e s') : Meets balloc s Q E := by
  refine Meets.get_bind ?_
  split
  · rename_i hn
    refine Meets.stop (hE _ _ (.inr ⟨rfl, fun b hb => ?_⟩) .refl)
    simpa using List.find?_eq_none.1 hn b (List.mem_range.2 hb)
  · rename_i b hb
    have hlt : b < s.sb.size := List.mem_range.1 (List.mem_of_find?_eq_some hb)
    have hbit : s.bit b = false := by simpa using List.find?_some hb
    have hlog : Logged ip [] s (s.mark b) := .write (.inl ⟨b, hlt, rfl⟩)
    have ho' : 0 < (s.mark b).outstanding := ho
    refine Meets.bind (P := fun _ s₁ => s₁ = s.mark b) (logWrite_meets ho rfl fun e he => hE e s he .refl) ?_
    rintro _ _ rfl
    refine Meets.bind (P := fun _ s₁ => s₁ = s.allocBlock b)
      (logWrite_meets ho' rfl fun e he => hE e _ he hlog) ?_
    rintro _ _ rfl
    exact Meets.pure (hQ b hlt hbit)

theorem logged_allocBlock (hb : b < s.sb.size) : Logged ip [b] s (s.allocBlock b) := by
  have hmark : Logged ip [b] s (s.mark b) := .write (.inl ⟨b, hb, rfl⟩)
  exact hmark.trans (.write (.inr (.inr (List.mem_singleton_self b))))

theorem view_allocBlock (hsb : s.sb.Ok) (hb : s.sb.nmeta ≤ b) (hlt : b < s.sb.size) :
    (s.allocBlock b).view = s.view.alloc b := by
  have hm : (s.mark b).view = s.view.setUsed b true := by
    refine view_write_bitmap hsb hlt ?_ fun j hj => ?_
    · rw [Bytes.bit_setBit _ (by simp only [BPB, BSIZE]; omega), decide_eq_true rfl, Bool.true_or]
    · rw [Bytes.bit_setBit _ (by simp only [BPB, BSIZE]; omega), decide_eq_false hj, Bool.false_or]
  have hsb' : (s.mark b).sb.Ok := hsb
  rw [allocBlock, view_write_data hsb' hb, hm]
  rfl

theorem allocBlock_dinode (hsb : s.sb.Ok) (hb : s.sb.nmeta ≤ b) (hlt : b < s.sb.size) (hi : i < s.sb.ninodes) :
    (s.allocBlock b).dinode i = s.dinode i := by
  have h1 := hsb.iblock_lt hi
  have h2 := hsb.iblock_lt_nmeta hi
  have h3 := hsb.bblock_lt hlt
  have hm : (s.mark b).dinode i = s.dinode i := dinode_write (by omega)
  rw [allocBlock, dinode_write, hm]
  show s.sb.iblock i ≠ b
  omega

/-! ### Open inodes -/

/-- Entry `ip` holds an allocated inode of a state in which every block has one owner. -/
structure Open (s : Fs) (ip : Slot) : Prop where
  sb : s.sb.Ok
  cache : s.CacheOk
  store : s.view.Owned s.sb
  ref : 0 < (s.icache ip).ref
  valid : (s.icache ip).valid = true
  type : (s.icache ip).type ≠ 0

namespace Open

variable (h : s.Open ip)

include h

theorem holds : s.Holds (s.icache ip).inum ip := ⟨h.ref, h.valid, rfl⟩

theorem inode : s.view.inode (s.icache ip).inum = (s.icache ip).toDinode := by
  rw [view_inode (h.cache.inum ip h.ref h.valid).2, h.cache.cur_of_holds h.holds]

theorem live : s.view.Live s.sb (s.icache ip).inum := by
  refine ⟨(h.cache.inum ip h.ref h.valid).1, (h.cache.inum ip h.ref h.valid).2, ?_⟩
  rw [h.inode]
  exact h.type

theorem ref_addr {k : Nat} (hk : k ≤ NDIRECT) : s.view.ref (s.icache ip).inum k = ((s.icache ip).addr k).toNat := by
  rw [Store.ref_of_le hk, h.inode]

theorem toNat_ofNat (hb : b < s.sb.size) : (UInt32.ofNat b).toNat = b := by
  have := h.sb.size_lt
  rw [UInt32.toNat_ofNat']
  omega

theorem free_data (hb : b < s.sb.size) (hf : s.bit b = false) : s.sb.nmeta ≤ b := by
  by_contra hlt
  have := (h.store.used b hb).2 (.inl (by omega))
  rw [view_used hb, hf] at this
  cases this

end Open

theorem toNat_ne_zero {a : UInt32} : a.toNat ≠ 0 ↔ a ≠ 0 := by rw [ne_eq, ne_eq, ← UInt32.toNat_inj]; rfl

theorem Open.ofNat_ne_zero (h : s.Open ip) (hb : b < s.sb.size) (hf : s.bit b = false) : UInt32.ofNat b ≠ 0 := by
  have := h.free_data hb hf
  have := s.sb.nmeta_pos
  rw [← toNat_ne_zero, h.toNat_ofNat hb]
  omega

/-- Blocks were added to the inode of `ip` and its bytes are now `c`. -/
structure Ext (ip : Slot) (c : Nat → UInt8) (s s' : Fs) : Prop where
  sb : s'.sb = s.sb
  devsw : s'.devsw = s.devsw
  outstanding : s'.outstanding = s.outstanding
  slot : ∃ a, s'.icache ip = { s.icache ip with addrs := a }
  slot_ne : ∀ k, k ≠ ip → s'.icache k = s.icache k
  dinode : ∀ j, j < s.sb.ninodes → s'.dinode j = s.dinode j
  op : s'.Open ip
  inode_ne : ∀ j, j ≠ (s.icache ip).inum → s'.view.inode j = s.view.inode j
  ref_ne : ∀ j k, s.view.Live s.sb j → j ≠ (s.icache ip).inum → s'.view.ref j k = s.view.ref j k
  ref : ∀ k, s.view.ref (s.icache ip).inum k ≠ 0 → s'.view.ref (s.icache ip).inum k = s.view.ref (s.icache ip).inum k
  byte_ne : ∀ j pos, s.view.Live s.sb j → j ≠ (s.icache ip).inum → s'.view.byte j pos = s.view.byte j pos
  byte : ∀ pos, s'.view.byte (s.icache ip).inum pos = c pos

namespace Ext

variable {c c' : Nat → UInt8}

theorem refl (h : s.Open ip) : Ext ip (s.view.byte (s.icache ip).inum) s s :=
  ⟨rfl, rfl, rfl, ⟨_, rfl⟩, fun _ _ => rfl, fun _ _ => rfl, h, fun _ _ => rfl, fun _ _ _ _ => rfl, fun _ _ => rfl,
    fun _ _ _ _ => rfl, fun _ => rfl⟩

theorem inum (h : Ext ip c s s') : (s'.icache ip).inum = (s.icache ip).inum := by
  obtain ⟨a, ha⟩ := h.slot
  rw [ha]

theorem size (h : Ext ip c s s') : (s'.icache ip).size = (s.icache ip).size := by
  obtain ⟨a, ha⟩ := h.slot
  rw [ha]

theorem type (h : Ext ip c s s') : (s'.icache ip).type = (s.icache ip).type := by
  obtain ⟨a, ha⟩ := h.slot
  rw [ha]

theorem live (h : Ext ip c s s') (ho : s.Open ip) {j : Nat} : s'.view.Live s'.sb j ↔ s.view.Live s.sb j := by
  rw [h.sb]
  unfold Store.Live
  by_cases hj : j = (s.icache ip).inum
  · subst hj
    rw [ho.inode, ← h.inum, h.op.inode, h.type]
  · rw [h.inode_ne j hj]

theorem trans (h₁ : Ext ip c s s₁) (h₂ : Ext ip c' s₁ s₂) (ho : s.Open ip) : Ext ip c' s s₂ := by
  have hi := h₁.inum
  refine ⟨h₂.sb.trans h₁.sb, h₂.devsw.trans h₁.devsw, h₂.outstanding.trans h₁.outstanding, ?_, fun k hk => ?_,
    fun j hj => ?_, h₂.op, fun j hj => ?_, fun j k hj hne => ?_, fun k hk => ?_, fun j pos hj hne => ?_, fun pos => ?_⟩
  · obtain ⟨a, ha⟩ := h₁.slot
    obtain ⟨a', ha'⟩ := h₂.slot
    exact ⟨a', by rw [ha', ha]⟩
  · rw [h₂.slot_ne k hk, h₁.slot_ne k hk]
  · rw [h₂.dinode j (by rwa [h₁.sb]), h₁.dinode j hj]
  · rw [h₂.inode_ne j (by rwa [hi]), h₁.inode_ne j hj]
  · rw [h₂.ref_ne j k ((h₁.live ho).2 hj) (by rwa [hi]), h₁.ref_ne j k hj hne]
  · rw [← hi, h₂.ref k (by rwa [hi, h₁.ref k hk]), hi, h₁.ref k hk]
  · rw [h₂.byte_ne j pos ((h₁.live ho).2 hj) (by rwa [hi]), h₁.byte_ne j pos hj hne]
  · rw [← hi]
    exact h₂.byte pos

theorem ok (h : Ext ip c s s') (ho : s.Open ip) (hok : s.view.Ok s.sb) : s'.view.Ok s'.sb := by
  have hsize : ∀ j, (s'.view.inode j).size = (s.view.inode j).size := by
    intro j
    by_cases hj : j = (s.icache ip).inum
    · rw [hj, ho.inode, ← h.inum, h.op.inode, h.size]
    · rw [h.inode_ne j hj]
  refine ⟨h.op.store, fun j hj => ?_, fun j bn hj hbn => ?_⟩
  · rw [hsize]
    exact hok.size_le j ((h.live ho).1 hj)
  · rw [hsize] at hbn
    have hl := (h.live ho).1 hj
    have h0 := hok.full j bn hl hbn
    by_cases he : j = (s.icache ip).inum
    · subst he
      rwa [h.ref _ h0]
    · rwa [h.ref_ne _ _ hl he]

end Ext

/-! ### Adding a block -/

theorem Open.fresh (h : s.Open ip) {k : Nat} (hk : k ≤ MAXFILE) (h0 : s.view.ref (s.icache ip).inum k = 0)
    (hind : NDIRECT < k → s.view.ref (s.icache ip).inum NDIRECT ≠ 0) (hb : b < s.sb.size) (hf : s.bit b = false) :
    Store.Fresh s.sb s.view (s.icache ip).inum k b :=
  ⟨h.live, h0, hk, hind, by rw [view_used hb, hf], h.free_data hb hf, hb, h.sb.size_lt⟩

theorem ext_of_grow (h : s.Open ip) {k : Nat} (f : Store.Fresh s.sb s.view (s.icache ip).inum k b)
    (hv : s'.view = s.view.grow (s.icache ip).inum k b) (hsb : s'.sb = s.sb) (hdev : s'.devsw = s.devsw)
    (hout : s'.outstanding = s.outstanding) (hslot : ∃ a, s'.icache ip = { s.icache ip with addrs := a })
    (hne : ∀ k, k ≠ ip → s'.icache k = s.icache k) (hd : ∀ j, j < s.sb.ninodes → s'.dinode j = s.dinode j)
    (hc : s'.CacheOk) : Ext ip (s.view.byte (s.icache ip).inum) s s' := by
  have hop : s'.Open ip := by
    obtain ⟨a, ha⟩ := hslot
    refine ⟨by rw [hsb]; exact h.sb, hc, by rw [hv, hsb]; exact f.owned_grow h.store, ?_, ?_, ?_⟩
    · rw [ha]; exact h.ref
    · rw [ha]; exact h.valid
    · rw [ha]; exact h.type
  refine ⟨hsb, hdev, hout, hslot, hne, hd, hop, fun j hj => ?_, fun j l hj hji => ?_, fun l hl => ?_,
    fun j pos hj _ => ?_, fun pos => ?_⟩
  · rw [hv, Store.grow_inode_ne hj]
  · rw [hv, f.ref_grow_ne h.store hj hji]
  · rw [hv, f.ref_grow_self h.store, if_neg]
    rintro rfl
    exact hl f.empty
  · rw [hv, f.byte_grow h.store hj]
  · rw [hv, f.byte_grow h.store h.live]

theorem ext_direct (h : s.Open ip) {k : Nat} (hk : k ≤ NDIRECT) (h0 : (s.icache ip).addr k = 0) (hb : b < s.sb.size)
    (hf : s.bit b = false) :
    Ext ip (s.view.byte (s.icache ip).inum) s ((s.allocBlock b).setSlot ip
      { s.icache ip with toDinode := (s.icache ip).setAddr k (UInt32.ofNat b) }) := by
  have hfr : Store.Fresh s.sb s.view (s.icache ip).inum k b := by
    refine h.fresh (by simp only [MAXFILE]; omega) ?_ (by omega) hb hf
    rw [h.ref_addr hk, h0]
    rfl
  have hc : (s.allocBlock b).CacheOk := (h.cache.write _ _).write _ _
  have hh : (s.allocBlock b).Holds (s.icache ip).inum ip := h.holds
  have hv : ((s.allocBlock b).setSlot ip
      { s.icache ip with toDinode := (s.icache ip).setAddr k (UInt32.ofNat b) }).view =
        s.view.grow (s.icache ip).inum k b := by
    have hi : (s.view.alloc b).inode (s.icache ip).inum = (s.icache ip).toDinode := h.inode
    rw [Store.grow, Store.setRef_of_le hk, hi, ← view_allocBlock h.sb hfr.data hb]
    exact view_setSlot_dinode hc hh
  refine ext_of_grow h hfr hv rfl rfl rfl ⟨((s.icache ip).setAddr k (UInt32.ofNat b)).addrs, ?_⟩ (fun k hk => ?_)
    (fun j hj => ?_) (hc.setSlot_dinode _)
  · rw [setSlot_icache_self]
    rfl
  · rw [setSlot_icache_ne hk]
    rfl
  · rw [dinode_setSlot, allocBlock_dinode h.sb hfr.data hb hj]

theorem ext_indirect (h : s.Open ip) {j : Nat} (hj : j < NINDIRECT) (hind : (s.icache ip).addr NDIRECT ≠ 0)
    (h0 : (s.disk ((s.icache ip).addr NDIRECT).toNat).word j = 0) (hb : b < s.sb.size) (hf : s.bit b = false) :
    Ext ip (s.view.byte (s.icache ip).inum) s ((s.allocBlock b).write ((s.icache ip).addr NDIRECT).toNat
      ((s.disk ((s.icache ip).addr NDIRECT).toNat).setWord j (UInt32.ofNat b))) := by
  have hr : s.view.ref (s.icache ip).inum NDIRECT = ((s.icache ip).addr NDIRECT).toNat := h.ref_addr le_rfl
  have hr0 : s.view.ref (s.icache ip).inum NDIRECT ≠ 0 := by rw [hr]; exact toNat_ne_zero.2 hind
  have hrange := h.store.range _ _ h.live hr0
  have hfr : Store.Fresh s.sb s.view (s.icache ip).inum (j + (NDIRECT + 1)) b := by
    refine h.fresh (by simp only [MAXFILE]; omega) ?_ (fun _ => hr0) hb hf
    rw [Store.ref_of_gt (by omega), if_neg hr0, Nat.add_sub_cancel, view_block hrange.1, hr, h0]
    rfl
  refine ext_of_grow h hfr ?_ rfl rfl rfl ⟨_, rfl⟩ (fun _ _ => rfl) (fun j hj => ?_)
    (((h.cache.write _ _).write _ _).write _ _)
  · have hsb' : (s.allocBlock b).sb.Ok := h.sb
    have hne : s.view.ref (s.icache ip).inum NDIRECT ≠ b := h.store.not_ref hfr.free hb h.live
    have hdata : (s.allocBlock b).sb.nmeta ≤ ((s.icache ip).addr NDIRECT).toNat := by rw [← hr]; exact hrange.1
    rw [view_write_data hsb' hdata, view_allocBlock h.sb hfr.data hb, Store.grow, Store.setRef_of_gt (by omega),
      Nat.add_sub_cancel]
    have hr' : (s.view.alloc b).ref (s.icache ip).inum NDIRECT = s.view.ref (s.icache ip).inum NDIRECT := rfl
    rw [hr', Store.alloc, Store.setBlock_ne hne]
    show _ = Store.setBlock _ _ (Bytes.setWord (s.view.block _) _ _)
    rw [view_block hrange.1, hr]
  · have := h.sb.iblock_lt_nmeta hj
    rw [dinode_write, allocBlock_dinode h.sb hfr.data hb hj]
    show s.sb.iblock j ≠ _
    omega

/-! ### `bmap` -/

theorem bmapAddr_meets (h : s.Open ip) (ho : 0 < s.outstanding) {k : Nat} (hk : k ≤ NDIRECT) :
    Meets (bmapAddr ip k) s
      (fun a s' => a = (s'.icache ip).addr k ∧ a ≠ 0 ∧ Ext ip (s.view.byte (s.icache ip).inum) s s' ∧
        Logged ip [a.toNat] s s')
      (fun e s' => s'.Full e ∧ Logged ip [] s s') := by
  refine Meets.get_bind ?_
  split
  · rename_i h0
    refine Meets.bind (P := fun a s₁ => ∃ b, a = UInt32.ofNat b ∧ b < s.sb.size ∧ s.bit b = false ∧ s₁ = s.allocBlock b)
      (balloc_meets ho (fun b hb hf => ⟨b, rfl, hb, hf, rfl⟩) fun e s' he hl => ⟨he, hl⟩) ?_
    rintro _ _ ⟨b, rfl, hb, hf, rfl⟩
    refine Meets.modify_bind (Meets.pure ?_)
    have hext := ext_direct h hk h0 hb hf
    have haddr : ((s.icache ip).setAddr k (UInt32.ofNat b)).addr k = UInt32.ofNat b := by
      rw [Dinode.addr_setAddr _ hk, if_pos rfl]
    refine ⟨?_, h.ofNat_ne_zero hb hf, hext, ?_⟩
    · rw [setSlot_icache_self]
      exact haddr.symm
    · rw [h.toNat_ofNat hb]
      refine (logged_allocBlock hb).trans (.setSlot fun hne => ?_)
      show ((s.icache ip).setAddr k (UInt32.ofNat b)).addr NDIRECT = (s.icache ip).addr NDIRECT
      rw [Dinode.addr_setAddr _ hk, if_neg]
      rintro rfl
      exact hne h0
  · rename_i h0
    exact Meets.pure ⟨rfl, h0, .refl h, .refl⟩

theorem Open.ref_entry (h : s.Open ip) (hind : (s.icache ip).addr NDIRECT ≠ 0) (j : Nat) :
    s.view.ref (s.icache ip).inum (j + (NDIRECT + 1)) =
      ((s.disk ((s.icache ip).addr NDIRECT).toNat).word j).toNat := by
  have hr : s.view.ref (s.icache ip).inum NDIRECT = ((s.icache ip).addr NDIRECT).toNat := h.ref_addr le_rfl
  have hr0 : s.view.ref (s.icache ip).inum NDIRECT ≠ 0 := by rw [hr]; exact toNat_ne_zero.2 hind
  rw [Store.ref_of_gt (by omega), if_neg hr0, Nat.add_sub_cancel, view_block (h.store.range _ _ h.live hr0).1, hr]

theorem bmapEntry_meets (h : s.Open ip) (ho : 0 < s.outstanding) {j : Nat} (hj : j < NINDIRECT)
    (hind : (s.icache ip).addr NDIRECT ≠ 0) :
    Meets (bmapEntry ((s.icache ip).addr NDIRECT) j) s
      (fun a s' => a.toNat = s'.view.ref (s.icache ip).inum (j + (NDIRECT + 1)) ∧ a ≠ 0 ∧
        Ext ip (s.view.byte (s.icache ip).inum) s s' ∧ Logged ip [a.toNat] s s')
      (fun e s' => s'.Full e ∧ ∃ b, Logged ip [b] s s') := by
  refine Meets.get_bind ?_
  split
  · rename_i hw
    refine Meets.bind (P := fun a s₁ => ∃ b, a = UInt32.ofNat b ∧ b < s.sb.size ∧ s.bit b = false ∧ s₁ = s.allocBlock b)
      (balloc_meets ho (fun b hb hf => ⟨b, rfl, hb, hf, rfl⟩) fun e s' he hl => ⟨he, 0, hl.mono (by simp)⟩) ?_
    rintro _ _ ⟨b, rfl, hb, hf, rfl⟩
    have hlt := h.toNat_ofNat hb
    have hlog : Logged ip [b] s (s.allocBlock b) := logged_allocBlock hb
    have ho1 : 0 < (s.allocBlock b).outstanding := ho
    refine Meets.bind (P := fun _ s₁ => s₁ = (s.allocBlock b).write ((s.icache ip).addr NDIRECT).toNat
      ((s.disk ((s.icache ip).addr NDIRECT).toNat).setWord j (UInt32.ofNat b)))
      (logWrite_meets ho1 rfl fun e he => ⟨he, b, hlog⟩) ?_
    rintro _ _ rfl
    have hext := ext_indirect h hj hind hw hb hf
    refine Meets.pure ⟨?_, h.ofNat_ne_zero hb hf, hext, ?_⟩
    · have := hext.op.ref_entry hind j
      rw [hext.inum] at this
      rw [this]
      simp only [write_disk, write_icache]
      rw [show (s.allocBlock b).icache = s.icache from rfl, update_self, Bytes.word_setWord]
      simp only [NINDIRECT, BSIZE] at hj ⊢
      omega
    · rw [hlt]
      exact hlog.trans (.write (.inr (.inl ⟨hind, rfl⟩)))
  · rename_i hw
    exact Meets.pure ⟨(h.ref_entry hind j).symm, hw, .refl h, .refl⟩

theorem bmap_mapped (h : s.Open ip) {bn : Nat} (hbn : bn < MAXFILE)
    (hr : s.view.ref (s.icache ip).inum (Store.slot bn) ≠ 0) :
    bmap ip bn s = (.ok (UInt32.ofNat (s.view.ref (s.icache ip).inum (Store.slot bn))), s) := by
  unfold Store.slot at hr ⊢
  unfold bmap
  split
  · rename_i hlt
    rw [if_pos hlt, h.ref_addr hlt.le] at hr
    rw [h.ref_addr hlt.le, UInt32.ofNat_toNat]
    show (if (s.icache ip).addr bn = 0 then _ else _ : FsM UInt32) s = _
    rw [if_neg (toNat_ne_zero.1 hr)]
    rfl
  · rename_i hge
    have hj : bn - NDIRECT < NINDIRECT := by simp only [MAXFILE] at hbn; omega
    rw [if_neg hge, show bn + 1 = bn - NDIRECT + (NDIRECT + 1) by omega] at hr
    have hind : (s.icache ip).addr NDIRECT ≠ 0 := by
      intro h0
      rw [Store.ref_of_gt (by omega), h.ref_addr le_rfl, h0] at hr
      exact hr rfl
    rw [h.ref_entry hind] at hr
    rw [if_pos hj, show bn + 1 = bn - NDIRECT + (NDIRECT + 1) by omega, h.ref_entry hind, UInt32.ofNat_toNat]
    have hb : bmapAddr ip NDIRECT s = (.ok ((s.icache ip).addr NDIRECT), s) := by
      show (if (s.icache ip).addr NDIRECT = 0 then _ else _ : FsM UInt32) s = _
      rw [if_neg hind]
      rfl
    rw [Exec.bind_of_ok hb]
    show (if (s.disk ((s.icache ip).addr NDIRECT).toNat).word (bn - NDIRECT) = 0 then _ else _ : FsM UInt32) s = _
    rw [if_neg (toNat_ne_zero.1 hr)]
    rfl

theorem bmap_meets (h : s.Open ip) (ho : 0 < s.outstanding) {bn : Nat} (hbn : bn < MAXFILE) :
    Meets (bmap ip bn) s
      (fun a s' => a.toNat = s'.view.ref (s.icache ip).inum (Store.slot bn) ∧ a ≠ 0 ∧
        Ext ip (s.view.byte (s.icache ip).inum) s s' ∧ Logged ip [a.toNat] s s')
      (fun e s' => s'.Full e ∧ ∃ b, Logged ip [b] s s') := by
  unfold bmap
  split
  · rename_i hlt
    refine (bmapAddr_meets h ho hlt.le).mono ?_ fun e s' he => ⟨he.1, 0, he.2.mono (by simp)⟩
    rintro a s' ⟨rfl, h0, hext, hlog⟩
    refine ⟨?_, h0, hext, hlog⟩
    rw [← hext.inum, Store.slot, if_pos hlt, hext.op.ref_addr hlt.le]
  · rename_i hge
    have hj : bn - NDIRECT < NINDIRECT := by simp only [MAXFILE] at hbn; omega
    have hslot : Store.slot bn = bn - NDIRECT + (NDIRECT + 1) := by
      rw [Store.slot, if_neg hge]
      omega
    rw [if_pos hj, hslot]
    refine Meets.bind ((bmapAddr_meets h ho le_rfl).mono (fun _ _ => id)
      fun e s' he => ⟨he.1, 0, he.2.mono (by simp)⟩) ?_
    rintro ind s₁ ⟨rfl, h0, hext, hlog⟩
    -- the indirect block has a clause of its own in `Logged`
    have hlog' : ∀ A, Logged ip A s s₁ := fun A => hlog.indirect h0
    refine (bmapEntry_meets hext.op (by rwa [hext.outstanding]) hj h0).mono ?_ ?_
    · rintro a s' ⟨ha, ha0, hext', hl⟩
      rw [hext.inum] at ha hext'
      refine ⟨ha, ha0, ?_, (hlog' _).trans hl⟩
      have := hext.trans hext' h
      rwa [funext hext.byte] at this
    · rintro e s' ⟨he, b, hl⟩
      exact ⟨he, b, (hlog' _).trans hl⟩

theorem bmap_same (h : s.Open ip) {bn : Nat} (hbn : bn < MAXFILE) {a : UInt32} (hs : bmap ip bn s = (.ok a, s')) :
    s.view.ref (s.icache ip).inum (Store.slot bn) ≠ 0 → s' = s := by
  intro hr
  rw [bmap_mapped h hbn hr] at hs
  exact (Prod.mk.inj hs).2.symm

/-! ### Reading -/

theorem readLoop_eq (h : s.Open ip) {fuel off n : Nat} (hfuel : n ≤ fuel) (hmax : off + n ≤ MAXFILE * BSIZE)
    (hr : ∀ pos, off ≤ pos → pos < off + n → s.view.ref (s.icache ip).inum (Store.slot (pos / BSIZE)) ≠ 0) :
    readLoop ip fuel off n s = (.ok (s.view.slice (s.icache ip).inum off n), s) := by
  induction fuel generalizing off n with
  | zero =>
    obtain rfl : n = 0 := by omega
    rfl
  | succ fuel ih =>
    by_cases hn : n = 0
    · subst hn
      rfl
    have hr0 := hr off le_rfl (by omega)
    have hbn : off / BSIZE < MAXFILE := Nat.div_lt_of_lt_mul (by rw [Nat.mul_comm]; omega)
    have hm := Nat.mod_lt off (show 0 < BSIZE by decide)
    have hle : min n (BSIZE - off % BSIZE) ≤ n := Nat.min_le_left ..
    have hrest := @ih (off + min n (BSIZE - off % BSIZE)) (n - min n (BSIZE - off % BSIZE)) (by omega) (by omega)
      fun pos h1 h2 => hr pos (by omega) (by omega)
    rw [readLoop, if_neg hn, Exec.bind_of_ok (bmap_mapped h hbn hr0)]
    show (readLoop ip fuel _ _ >>= fun rest => pure _) s = _
    have hhead : (List.range (min n (BSIZE - off % BSIZE))).map (fun j =>
        (s.disk (UInt32.ofNat (s.view.ref (s.icache ip).inum (Store.slot (off / BSIZE)))).toNat).get (off % BSIZE + j)) =
        s.view.slice (s.icache ip).inum off (min n (BSIZE - off % BSIZE)) := by
      refine List.map_congr_left fun j hj => ?_
      have := List.mem_range.1 hj
      have hrange := h.store.range _ _ h.live hr0
      rw [Store.byte_of_block hr0 (by omega), h.toNat_ofNat hrange.2, view_block hrange.1]
    rw [Exec.bind_of_ok hrest, Exec.pure_run, hhead, ← Store.slice_append]
    congr 3
    omega

theorem toNat_add_of_not_lt {a b : UInt32} (h : ¬ a + b < a) : (a + b).toNat = a.toNat + b.toNat := by
  have h1 := UInt32.lt_iff_toNat_lt.not.1 h
  have h2 := a.toNat_lt
  have h3 := b.toNat_lt
  rw [UInt32.toNat_add] at h1 ⊢
  omega

theorem readi_eq (h : s.Open ip) (hdev : (s.icache ip).type ≠ T_DEV) {off n : UInt32}
    (hr : ∀ pos, off.toNat ≤ pos → pos < off.toNat + n.toNat → pos < (s.icache ip).size.toNat →
      s.view.ref (s.icache ip).inum (Store.slot (pos / BSIZE)) ≠ 0)
    (hmax : min (off.toNat + n.toNat) (s.icache ip).size.toNat ≤ MAXFILE * BSIZE) :
    readi ip off n s = (.ok (if (s.icache ip).size < off ∨ off + n < off then none
      else some (s.view.slice (s.icache ip).inum off.toNat (min n.toNat ((s.icache ip).size.toNat - off.toNat)))), s) := by
  show (if (s.icache ip).type = T_DEV then _ else _ : FsM _) s = _
  rw [if_neg hdev]
  split
  · rfl
  · rename_i hok
    rw [not_or] at hok
    have hle := UInt32.lt_iff_toNat_lt.not.1 hok.1
    have hadd := toNat_add_of_not_lt hok.2
    have hn : (if (s.icache ip).size < off + n then (s.icache ip).size - off else n).toNat =
        min n.toNat ((s.icache ip).size.toNat - off.toNat) := by
      split
      · rename_i hlt
        have := UInt32.lt_iff_toNat_lt.1 hlt
        rw [UInt32.toNat_sub_of_le _ _ (UInt32.le_iff_toNat_le.2 (by omega))]
        omega
      · rename_i hge
        have := UInt32.lt_iff_toNat_lt.not.1 hge
        omega
    dsimp only
    rw [hn, Exec.bind_of_ok (readLoop_eq h le_rfl (by omega) fun pos h1 h2 => hr pos h1 (by omega) (by omega))]
    rfl

/-! ### Writing -/

/-- `c` with the bytes `off … off + n - 1` replaced by `src 0, src 1, …`. -/
def overlay (c : Nat → UInt8) (off n : Nat) (src : Nat → UInt8) (pos : Nat) : UInt8 :=
  if off ≤ pos ∧ pos < off + n then src (pos - off) else c pos

def span (off n : Nat) : Nat := if n = 0 then 0 else (off + n - 1) / BSIZE - off / BSIZE + 1

theorem overlay_zero (c : Nat → UInt8) (off : Nat) (src : Nat → UInt8) : overlay c off 0 src = c := by
  funext pos
  exact if_neg (by omega)

theorem overlay_overlay (c : Nat → UInt8) {off m n : Nat} (hm : m ≤ n) (src : Nat → UInt8) :
    overlay (overlay c off m src) (off + m) (n - m) (fun j => src (m + j)) = overlay c off n src := by
  funext pos
  unfold overlay
  by_cases h1 : off + m ≤ pos ∧ pos < off + m + (n - m)
  · rw [if_pos h1, if_pos (by omega)]
    exact congrArg src (by omega)
  · rw [if_neg h1]
    by_cases h2 : off ≤ pos ∧ pos < off + m
    · rw [if_pos h2, if_pos (by omega)]
    · rw [if_neg h2, if_neg (by omega)]

theorem ext_data (h : s.Open ip) {off m : Nat} (src : Nat → UInt8) (hm : off % BSIZE + m ≤ BSIZE)
    (h0 : s.view.ref (s.icache ip).inum (Store.slot (off / BSIZE)) ≠ 0) :
    Ext ip (overlay (s.view.byte (s.icache ip).inum) off m src) s
      (s.write (s.view.ref (s.icache ip).inum (Store.slot (off / BSIZE)))
        ((s.disk (s.view.ref (s.icache ip).inum (Store.slot (off / BSIZE)))).put (off % BSIZE) m src)) := by
  have hrange := h.store.range _ _ h.live h0
  have hv := view_write_data h.sb hrange.1
    ((s.disk (s.view.ref (s.icache ip).inum (Store.slot (off / BSIZE)))).put (off % BSIZE) m src)
  have hop : (s.write (s.view.ref (s.icache ip).inum (Store.slot (off / BSIZE)))
      ((s.disk (s.view.ref (s.icache ip).inum (Store.slot (off / BSIZE)))).put (off % BSIZE) m src)).Open ip :=
    ⟨h.sb, h.cache.write _ _, by rw [hv]; exact Store.owned_setBlock h.store h.live, h.ref, h.valid, h.type⟩
  refine ⟨rfl, rfl, rfl, ⟨_, rfl⟩, fun _ _ => rfl, fun j hj => ?_, hop, fun j _ => ?_, fun j k hj _ => ?_, fun k _ => ?_,
    fun j pos hj hne => ?_, fun pos => ?_⟩
  · have := h.sb.iblock_lt_nmeta hj
    exact dinode_write (by omega)
  · rw [hv]
    rfl
  · rw [hv, Store.ref_setBlock h.store h.live hj]
  · rw [hv, Store.ref_setBlock h.store h.live h.live]
  · rw [hv, Store.byte_setBlock h.store h.live h0 hj, if_neg fun he => hne he.1]
  · rw [hv, Store.byte_setBlock h.store h.live h0 h.live, overlay]
    by_cases hpos : pos / BSIZE = off / BSIZE
    · have hdm := Nat.div_add_mod pos BSIZE
      have hdm' := Nat.div_add_mod off BSIZE
      rw [hpos] at hdm
      rw [if_pos ⟨rfl, hpos⟩, Bytes.get_put _ _ _ _ _ (Nat.mod_lt _ (by decide))]
      by_cases hin : off ≤ pos ∧ pos < off + m
      · rw [if_pos hin, if_pos (by omega), show pos % BSIZE - off % BSIZE = pos - off by omega]
      · rw [if_neg hin, if_neg (by omega), Store.byte, hpos, if_neg h0, view_block hrange.1]
    · rw [if_neg fun he => hpos he.2, if_neg]
      intro hin
      simp only [BSIZE] at hpos hm
      omega

theorem span_step {off n : Nat} (hn : n ≠ 0) :
    span (off + min n (BSIZE - off % BSIZE)) (n - min n (BSIZE - off % BSIZE)) + 1 = span off n := by
  unfold span
  simp only [BSIZE]
  rw [if_neg hn]
  split <;> omega

theorem writeLoop_meets (h : s.Open ip) (ho : 0 < s.outstanding) {fuel off n : Nat} {src : Nat → UInt8}
    (hfuel : n ≤ fuel) (hmax : off + n ≤ MAXFILE * BSIZE) :
    Meets (writeLoop ip fuel src off n) s
      (fun _ s' => Ext ip (overlay (s.view.byte (s.icache ip).inum) off n src) s s' ∧
        (∀ pos, off ≤ pos → pos < off + n → s'.view.ref (s.icache ip).inum (Store.slot (pos / BSIZE)) ≠ 0) ∧
        ((∀ pos, off ≤ pos → pos < off + n → s.view.ref (s.icache ip).inum (Store.slot (pos / BSIZE)) ≠ 0) →
          s'.icache = s.icache) ∧
        ∃ A : List Nat, A.length ≤ span off n ∧ Logged ip A s s')
      (fun e s' => s'.Full e ∧ ∃ A : List Nat, A.length ≤ span off n ∧ Logged ip A s s') := by
  induction fuel generalizing s off n src with
  | zero =>
    obtain rfl : n = 0 := by omega
    refine Meets.pure ⟨?_, fun pos _ _ => by omega, fun _ => rfl, [], Nat.zero_le _, .refl⟩
    rw [overlay_zero]
    exact .refl h
  | succ fuel ih =>
    rw [writeLoop]
    split
    · rename_i hn
      subst hn
      refine Meets.pure ⟨?_, fun pos _ _ => by omega, fun _ => rfl, [], Nat.zero_le _, .refl⟩
      rw [overlay_zero]
      exact .refl h
    rename_i hn
    have hbn : off / BSIZE < MAXFILE := Nat.div_lt_of_lt_mul (by rw [Nat.mul_comm]; omega)
    have hm := Nat.mod_lt off (show 0 < BSIZE by decide)
    have hspan := @span_step off n hn
    have hle : min n (BSIZE - off % BSIZE) ≤ n := Nat.min_le_left ..
    generalize hmdef : min n (BSIZE - off % BSIZE) = m at hspan hle
    refine Meets.bind (((bmap_meets h ho hbn).and_run (bmap_same h hbn)).mono (fun _ _ => id) ?_) ?_
    · rintro e s' ⟨he, b, hl⟩
      exact ⟨he, [b], by simp only [List.length_singleton]; omega, hl⟩
    rintro a s₁ ⟨⟨ha, ha0, hext, hlog⟩, hsame⟩
    refine Meets.get_bind ?_
    dsimp only
    have ho1 : 0 < s₁.outstanding := by rwa [hext.outstanding]
    have hr0 : s₁.view.ref (s₁.icache ip).inum (Store.slot (off / BSIZE)) ≠ 0 := by
      rw [hext.inum, ← ha]
      exact toNat_ne_zero.2 ha0
    have hext2 := ext_data hext.op (m := m) src (by omega) hr0
    rw [hext.inum, ← ha, funext hext.byte] at hext2
    have hext3 := hext.trans hext2 h
    refine Meets.bind (P := fun _ s₂ => s₂ = s₁.write a.toNat ((s₁.disk a.toNat).put (off % BSIZE) m src))
      (logWrite_meets ho1 rfl fun e he =>
        ⟨he, [a.toNat], by simp only [List.length_singleton]; omega, hlog⟩) ?_
    rintro _ s₂ rfl
    have hlog2 := hlog.trans (.write (x := (s₁.disk a.toNat).put (off % BSIZE) m src)
      (.inr (.inr (List.mem_singleton_self a.toNat))))
    refine (ih hext3.op (by rwa [hext3.outstanding]) (by omega) (by omega)).mono ?_ ?_
    · rintro _ s' ⟨he, hmap, hkeep, A, hA, hl⟩
      have hext4 := hext3.trans he h
      rw [hext3.inum, funext hext3.byte, overlay_overlay _ hle] at hext4
      refine ⟨hext4, fun pos h1 h2 => ?_, fun hall => ?_, a.toNat :: A, by simp only [List.length_cons]; omega, ?_⟩
      · rw [hext3.inum] at hmap
        by_cases hp : off + m ≤ pos
        · exact hmap pos hp (by omega)
        · rw [hext.inum] at hr0
          rw [show pos / BSIZE = off / BSIZE by simp only [BSIZE] at hmdef hm ⊢; omega]
          have hr2 := hext2.ref (Store.slot (off / BSIZE))
          have hr' := he.ref (Store.slot (off / BSIZE))
          rw [hext.inum] at hr2
          rw [hext3.inum] at hr'
          rwa [hr' (by rwa [hr2 hr0]), hr2 hr0]
      · have hs1 : s₁ = s := hsame (hall off le_rfl (by omega))
        refine (hkeep fun pos h1 h2 => ?_).trans (show s₁.icache = s.icache by rw [hs1])
        have := hall pos (by omega) (by omega)
        rwa [hext3.inum, hext3.ref _ this]
      · exact (hlog2.mono (by simp)).trans (hl.mono fun c hc => List.mem_cons_of_mem _ hc)
    · rintro e s' ⟨he, A, hA, hl⟩
      exact ⟨he, a.toNat :: A, by simp only [List.length_cons]; omega,
        (hlog2.mono (by simp)).trans (hl.mono fun c hc => List.mem_cons_of_mem _ hc)⟩

def Clean (s : Fs) (ip : Slot) : Prop := s.dinode (s.icache ip).inum = (s.icache ip).toDinode

def flush (s : Fs) (ip : Slot) : Fs :=
  s.write (s.sb.iblock (s.icache ip).inum) (Dinode.write (s.disk (s.sb.iblock (s.icache ip).inum))
    ((s.icache ip).inum % IPB) (s.icache ip).toDinode)

theorem view_flush (h : s.Open ip) : (s.flush ip).view = s.view :=
  view_write_dinode h.sb (h.cache.inum ip h.ref h.valid).2 h.cache h.holds

theorem dinode_flush (j : Nat) :
    (s.flush ip).dinode j = if j = (s.icache ip).inum then (s.icache ip).toDinode else s.dinode j :=
  dinode_write_dinode _

theorem clean_flush : (s.flush ip).Clean ip := (dinode_flush _).trans (if_pos rfl)

theorem Open.flush (h : s.Open ip) : (s.flush ip).Open ip :=
  ⟨h.sb, h.cache.write _ _, by rw [view_flush h]; exact h.store, h.ref, h.valid, h.type⟩

def resize (s : Fs) (ip : Slot) (z : UInt32) : Fs := s.setSlot ip { s.icache ip with size := z }

theorem view_resize (h : s.Open ip) (z : UInt32) :
    (s.resize ip z).view = s.view.setInode (s.icache ip).inum { (s.icache ip).toDinode with size := z } :=
  view_setSlot_dinode h.cache h.holds

theorem Open.resize_addr (h : s.Open ip) (z : UInt32) (k : Nat) :
    ({ (s.icache ip).toDinode with size := z } : Dinode).addr k = (s.view.inode (s.icache ip).inum).addr k := by
  rw [h.inode]
  rfl

theorem Open.resize_type (h : s.Open ip) (z : UInt32) :
    ({ (s.icache ip).toDinode with size := z } : Dinode).type ≠ 0 ↔ (s.view.inode (s.icache ip).inum).type ≠ 0 := by
  rw [h.inode]

theorem Open.resize (h : s.Open ip) (z : UInt32) : (s.resize ip z).Open ip := by
  have hslot : (s.resize ip z).icache ip = { s.icache ip with size := z } := setSlot_icache_self _
  refine ⟨h.sb, h.cache.setSlot_dinode _, ?_, by rw [hslot]; exact h.ref, by rw [hslot]; exact h.valid,
    by rw [hslot]; exact h.type⟩
  rw [view_resize h]
  exact h.store.congr (fun _ => Store.live_setInode (h.resize_type z))
    (fun _ _ _ => Store.ref_setInode (h.resize_addr z)) fun _ _ => rfl

theorem iupdate_meets (ho : 0 < s.outstanding) {Q : Unit → Fs → Prop} {E : Stop → Fs → Prop}
    (hQ : Q () (s.flush ip)) (hE : ∀ e, s.Full e → E e s) : Meets (iupdate ip) s Q E :=
  Meets.get_bind (logWrite_meets ho hQ hE)

/-- `n` bytes from `src` were written at `off` to the file of `ip`; `z` is its new size. -/
structure Wrote (ip : Slot) (off n : Nat) (src : Nat → UInt8) (s s' : Fs) : Prop where
  sb : s'.sb = s.sb
  devsw : s'.devsw = s.devsw
  outstanding : s'.outstanding = s.outstanding
  slot : ∃ a z, s'.icache ip = { s.icache ip with addrs := a, size := z } ∧
    z.toNat = max (s.icache ip).size.toNat (off + n)
  slot_ne : ∀ k, k ≠ ip → s'.icache k = s.icache k
  dinode_ne : ∀ j, j < s.sb.ninodes → j ≠ (s.icache ip).inum → s'.dinode j = s.dinode j
  clean : s.Clean ip → s'.Clean ip
  op : s'.Open ip
  ok : s'.view.Ok s'.sb
  inode_ne : ∀ j, j ≠ (s.icache ip).inum → s'.view.inode j = s.view.inode j
  byte_ne : ∀ j pos, s.view.Live s.sb j → j ≠ (s.icache ip).inum → s'.view.byte j pos = s.view.byte j pos
  byte : ∀ pos, s'.view.byte (s.icache ip).inum pos = overlay (s.view.byte (s.icache ip).inum) off n src pos

/-- What `writei` checks before it writes. -/
structure Fits (s : Fs) (ip : Slot) (off n : UInt32) : Prop where
  le : off.toNat ≤ (s.icache ip).size.toNat
  max : off.toNat + n.toNat ≤ MAXFILE * BSIZE

theorem writei_rejects (hdev : (s.icache ip).type ≠ T_DEV) {src : Nat → UInt8} {off n : UInt32}
    (hn : ¬ s.Fits ip off n) : writei ip src off n s = (.ok none, s) := by
  show (if (s.icache ip).type = T_DEV then _ else _ : FsM _) s = _
  rw [if_neg hdev]
  split
  · rfl
  split
  · rfl
  · rename_i h1 h2
    rw [not_or] at h1
    have hle := UInt32.lt_iff_toNat_lt.not.1 h1.1
    rw [toNat_add_of_not_lt h1.2] at h2
    exact absurd ⟨by omega, by omega⟩ hn

theorem Ext.wrote_grow {off n : UInt32} {src : Nat → UInt8}
    (hext : Ext ip (overlay (s.view.byte (s.icache ip).inum) off.toNat n.toNat src) s s₁) (h : s.Open ip)
    (hok : s.view.Ok s.sb) (hfit : s.Fits ip off n)
    (hmap : ∀ pos, off.toNat ≤ pos → pos < off.toNat + n.toNat →
      s₁.view.ref (s.icache ip).inum (Store.slot (pos / BSIZE)) ≠ 0)
    (hgt : (s.icache ip).size.toNat < off.toNat + n.toNat) (hadd : (off + n).toNat = off.toNat + n.toNat) :
    Wrote ip off.toNat n.toNat src s ((s₁.resize ip (off + n)).flush ip) := by
  have hop2 := hext.op.resize (off + n)
  have hslot : (s₁.resize ip (off + n)).icache ip = { s₁.icache ip with size := off + n } := setSlot_icache_self _
  have hinum : ((s₁.resize ip (off + n)).icache ip).inum = (s.icache ip).inum := by rw [hslot]; exact hext.inum
  have hv : ((s₁.resize ip (off + n)).flush ip).view =
      s₁.view.setInode (s.icache ip).inum { (s₁.icache ip).toDinode with size := off + n } := by
    rw [view_flush hop2, view_resize hext.op, hext.inum]
  have haddr := hext.op.resize_addr (off + n)
  have htype := hext.op.resize_type (off + n)
  rw [hext.inum] at haddr htype
  have hok1 := hext.ok h hok
  have hfull : ∀ bn, bn * BSIZE < (off + n).toNat → s₁.view.ref (s.icache ip).inum (Store.slot bn) ≠ 0 := by
    intro bn hbn
    rw [hadd] at hbn
    by_cases hlt : bn * BSIZE < (s.icache ip).size.toNat
    · have h0 := hok.full _ bn h.live (by rwa [h.inode])
      rwa [hext.ref _ h0]
    · have := hmap (bn * BSIZE) (by have := hfit.le; omega) hbn
      rwa [Nat.mul_div_cancel _ (by decide)] at this
  refine ⟨hext.sb, hext.devsw, hext.outstanding, ?_, fun k hk => ?_, fun j hj hne => ?_, fun _ => ?_, hop2.flush, ?_,
    fun j hj => ?_, fun j pos hj hne => ?_, fun pos => ?_⟩
  · obtain ⟨a, ha⟩ := hext.slot
    refine ⟨a, off + n, ?_, by omega⟩
    show (s₁.resize ip (off + n)).icache ip = _
    rw [hslot, ha]
  · show (s₁.resize ip (off + n)).icache k = _
    rw [resize, setSlot_icache_ne hk, hext.slot_ne k hk]
  · rw [dinode_flush, hinum, if_neg hne]
    exact hext.dinode j hj
  · exact clean_flush
  · rw [hv]
    refine Store.Ok.setInode haddr hok1 htype ?_ hfull
    rw [hadd]
    exact hfit.max
  · rw [hv, Store.setInode_ne hj, hext.inode_ne j hj]
  · rw [hv, Store.byte_setInode haddr, hext.byte_ne j pos hj hne]
  · rw [hv, Store.byte_setInode haddr, hext.byte pos]

theorem Ext.wrote_stay {off n : UInt32} {src : Nat → UInt8}
    (hext : Ext ip (overlay (s.view.byte (s.icache ip).inum) off.toNat n.toNat src) s s₁) (h : s.Open ip)
    (hok : s.view.Ok s.sb)
    (hkeep : (∀ pos, off.toNat ≤ pos → pos < off.toNat + n.toNat →
      s.view.ref (s.icache ip).inum (Store.slot (pos / BSIZE)) ≠ 0) → s₁.icache = s.icache)
    (hle : off.toNat + n.toNat ≤ (s.icache ip).size.toNat) : Wrote ip off.toNat n.toNat src s s₁ := by
  have hsame : s₁.icache = s.icache := by
    refine hkeep fun pos _ h2 => hok.full _ _ h.live ?_
    rw [h.inode]
    have := Nat.div_mul_le_self pos BSIZE
    omega
  refine ⟨hext.sb, hext.devsw, hext.outstanding, ⟨_, (s.icache ip).size, by rw [hsame], by omega⟩, hext.slot_ne,
    fun j hj _ => hext.dinode j hj, fun hc => ?_, hext.op, hext.ok h hok, hext.inode_ne, hext.byte_ne, hext.byte⟩
  unfold Clean at hc ⊢
  rw [hsame, hext.dinode _ (h.cache.inum ip h.ref h.valid).2, hc]

theorem writei_meets (h : s.Open ip) (hok : s.view.Ok s.sb) (ho : 0 < s.outstanding)
    (hdev : (s.icache ip).type ≠ T_DEV) {src : Nat → UInt8} {off n : UInt32} (hfit : s.Fits ip off n) :
    Meets (writei ip src off n) s
      (fun r s' => r = some n.toNat ∧ Wrote ip off.toNat n.toNat src s s' ∧
        ∃ A : List Nat, A.length ≤ span off.toNat n.toNat ∧
          Logged ip (s.sb.iblock (s.icache ip).inum :: A) s s')
      (fun e s' => s'.Full e ∧ ∃ A : List Nat, A.length ≤ span off.toNat n.toNat ∧
        Logged ip (s.sb.iblock (s.icache ip).inum :: A) s s') := by
  have hmax : MAXFILE * BSIZE < 2 ^ 32 := by decide
  have hadd : (off + n).toNat = off.toNat + n.toNat := by
    have := hfit.max
    rw [UInt32.toNat_add]
    omega
  refine Meets.get_bind ?_
  dsimp only
  rw [if_neg hdev, if_neg, if_neg (by rw [hadd]; have := hfit.max; omega)]
  swap
  · rw [not_or, UInt32.lt_iff_toNat_lt, UInt32.lt_iff_toNat_lt, hadd]
    have := hfit.le
    omega
  refine Meets.bind ((writeLoop_meets h ho le_rfl hfit.max).mono (fun _ _ => id) ?_) ?_
  · rintro e s' ⟨he, A, hA, hl⟩
    exact ⟨he, A, hA, hl.mono fun c hc => List.mem_cons_of_mem _ hc⟩
  rintro _ s₁ ⟨hext, hmap, hkeep, A, hA, hl⟩
  have hl' : Logged ip (s.sb.iblock (s.icache ip).inum :: A) s s₁ := hl.mono fun c hc => List.mem_cons_of_mem _ hc
  have hsz := hext.size
  split
  · rename_i hgrow
    have hgt := UInt32.lt_iff_toNat_lt.1 hgrow.2
    rw [hadd] at hgt
    refine Meets.modify_bind (Meets.bind (P := fun _ s' => s' = (s₁.resize ip (off + n)).flush ip)
      (iupdate_meets (by rwa [← hext.outstanding] at ho) rfl fun e he => ⟨he, A, hA, hl'.trans (.setSlot fun _ => rfl)⟩) ?_)
    rintro _ _ rfl
    refine Meets.pure ⟨rfl, hext.wrote_grow h hok hfit hmap hgt hadd, A, hA, ?_⟩
    have hinum : ((s₁.resize ip (off + n)).icache ip).inum = (s.icache ip).inum := by
      rw [resize, setSlot_icache_self]
      exact hext.inum
    have hiblock : (s₁.resize ip (off + n)).sb.iblock ((s₁.resize ip (off + n)).icache ip).inum =
        s.sb.iblock (s.icache ip).inum := by
      rw [hinum, show (s₁.resize ip (off + n)).sb = s.sb from hext.sb]
    have hl2 : Logged ip (s.sb.iblock (s.icache ip).inum :: A) s (s₁.resize ip (off + n)) :=
      hl'.trans (.setSlot fun _ => rfl)
    refine hl2.trans (.write (.inr (.inr ?_)))
    rw [hiblock]
    exact List.mem_cons_self ..
  · rename_i hstay
    have hle : off.toNat + n.toNat ≤ (s.icache ip).size.toNat := by
      have := hfit.le
      rw [UInt32.lt_iff_toNat_lt, UInt32.lt_iff_toNat_lt, hadd] at hstay
      have h0 : (0 : UInt32).toNat = 0 := rfl
      omega
    exact Meets.pure ⟨rfl, hext.wrote_stay h hok hkeep hle, A, hA, hl'⟩

end Fs

end Xv6
