import Xv6.Mkfs

/-!
# What `iappend` does to the image

`St.store` is what the image means while it is built: the blocks below `freeblock` are in use, and the
sectors from there on are zero, so taking the next block is `Store.grow`. `iappend` works on a copy of
the inode and writes it at the end; the lemmas about its loop are about the image with the copy written,
`s.put i d`.
-/

namespace Xv6.Mkfs

open Function (update update_self update_of_ne update_idem)

namespace St

variable (s : St)

def dinode (i : Nat) : Dinode := Dinode.read (s.sect (sb.iblock i)) (i % IPB)

def store : Store where
  inode i := if i < NINODES then s.dinode i else default
  used b := decide (b < s.freeblock)
  block b := if b < sb.nmeta then Bytes.zero BSIZE else s.sect b

def setSect (b : Nat) (x : Block) : St := { s with sect := update s.sect b x }

def put (i : Nat) (d : Dinode) : St := s.setSect (sb.iblock i) (Dinode.write (s.sect (sb.iblock i)) (i % IPB) d)

def bump : St := { s with freeblock := s.freeblock + 1 }

variable {s} {i j b : Nat} {d : Dinode} {x : Block}

theorem sb_nmeta : sb.nmeta = 59 := rfl

theorem iblock_lt (hi : i < NINODES) : 1 < sb.iblock i ∧ sb.iblock i < sb.nmeta := by
  have h : sb.iblock i = i / 8 + 32 := rfl
  rw [h, sb_nmeta]
  simp only [NINODES] at hi
  omega

theorem store_inode (hi : i < NINODES) : s.store.inode i = s.dinode i := if_pos hi

theorem store_block (hb : sb.nmeta ≤ b) : s.store.block b = s.sect b := if_neg (by omega)

theorem setSect_self : (s.setSect b x).sect b = x := update_self ..

theorem setSect_ne {c : Nat} (h : c ≠ b) : (s.setSect b x).sect c = s.sect c := update_of_ne h ..

theorem store_setSect (hb : sb.nmeta ≤ b) : (s.setSect b x).store = s.store.setBlock b x := by
  refine Store.ext (funext fun i => ?_) rfl (funext fun c => ?_)
  · show (if i < NINODES then (s.setSect b x).dinode i else default) = if i < NINODES then s.dinode i else default
    split
    · have := iblock_lt ‹i < NINODES›
      rw [dinode, setSect_ne (by omega)]
      rfl
    · rfl
  · by_cases hc : c = b
    · subst hc
      rw [store_block hb, Store.setBlock_self, setSect_self]
    · rw [Store.setBlock_ne hc]
      show (if c < sb.nmeta then _ else (s.setSect b x).sect c) = _
      rw [setSect_ne hc]
      rfl

theorem dinode_put (d : Dinode) : (s.put i d).dinode j = if j = i then d else s.dinode j :=
  Dinode.read_update_write sb s.sect i j d

theorem store_put (hi : i < NINODES) (d : Dinode) : (s.put i d).store = s.store.setInode i d := by
  refine Store.ext (funext fun j => ?_) rfl (funext fun c => ?_)
  · by_cases hj : j = i
    · subst hj
      rw [store_inode hi, dinode_put, if_pos rfl, Store.setInode_self]
    · rw [Store.setInode_ne hj]
      show (if j < NINODES then (s.put i d).dinode j else default) = if j < NINODES then s.dinode j else default
      rw [dinode_put, if_neg hj]
  · show (if c < sb.nmeta then _ else (s.put i d).sect c) = if c < sb.nmeta then _ else s.sect c
    split
    · rfl
    · have := iblock_lt hi
      exact setSect_ne (by omega)

theorem store_put_self (hi : i < NINODES) : (s.put i (s.dinode i)).store = s.store := by
  rw [store_put hi, ← store_inode hi]
  exact Store.ext (Function.update_eq_self ..) rfl rfl

theorem store_bump (h : s.sect s.freeblock = Bytes.zero BSIZE) : s.bump.store = s.store.alloc s.freeblock := by
  refine Store.ext rfl (funext fun c => ?_) (funext fun c => ?_)
  · show decide (c < s.freeblock + 1) = update (fun b => decide (b < s.freeblock)) s.freeblock true c
    by_cases hc : c = s.freeblock
    · rw [hc, update_self]
      exact decide_eq_true (Nat.lt_succ_self _)
    · rw [update_of_ne hc]
      exact decide_eq_decide.2 (by omega)
  · show (if c < sb.nmeta then _ else s.sect c) =
      update (fun c => if c < sb.nmeta then _ else s.sect c) s.freeblock (Bytes.zero BSIZE) c
    by_cases hc : c = s.freeblock
    · rw [hc, update_self, h, ite_self]
    · rw [update_of_ne hc]

theorem store_bump_put (hi : i < NINODES) (h : s.sect s.freeblock = Bytes.zero BSIZE) {k : Nat} (hk : k ≤ NDIRECT) :
    (s.bump.put i (d.setAddr k (UInt32.ofNat s.freeblock))).store = (s.put i d).store.grow i k s.freeblock := by
  rw [store_put hi, store_put hi, store_bump h, Store.grow, Store.setRef_of_le hk]
  have hself : ((s.store.setInode i d).alloc s.freeblock).inode i = d := update_self ..
  rw [hself]
  exact Store.ext (update_idem ..).symm rfl rfl

theorem store_bump_entry (hi : i < NINODES) (h : s.sect s.freeblock = Bytes.zero BSIZE) {k : Nat} (hk : NDIRECT < k)
    (hb : sb.nmeta ≤ (d.addr NDIRECT).toNat) (hne : (d.addr NDIRECT).toNat ≠ s.freeblock) :
    ((s.bump.setSect (d.addr NDIRECT).toNat ((s.sect (d.addr NDIRECT).toNat).setWord (k - (NDIRECT + 1))
      (UInt32.ofNat s.freeblock))).put i d).store = (s.put i d).store.grow i k s.freeblock := by
  have href : ((s.store.setInode i d).alloc s.freeblock).ref i NDIRECT = (d.addr NDIRECT).toNat := by
    rw [Store.ref_of_le le_rfl]
    exact congrArg (fun d : Dinode => (d.addr NDIRECT).toNat) (update_self ..)
  have hblk : ((s.store.setInode i d).alloc s.freeblock).block (d.addr NDIRECT).toNat = s.sect (d.addr NDIRECT).toNat :=
    (update_of_ne hne ..).trans (store_block hb)
  rw [store_put hi, store_setSect hb, store_bump h, store_put hi, Store.grow, Store.setRef_of_gt hk, href, hblk]
  rfl

end St

/-! ### The image while a file is appended to -/

open St

variable {s v v₁ v₂ v' : St} {i k : Nat}

/-- What holds of the image at every point: no block has two owners, and what has not been given out
is zero. -/
structure Base (s : St) : Prop where
  nsect : s.nsect = FSSIZE
  le : sb.nmeta ≤ s.freeblock
  le_size : s.freeblock ≤ FSSIZE
  clear : ∀ b, s.freeblock ≤ b → s.sect b = Bytes.zero BSIZE
  super : s.sect 1 = sbBlock
  owned : s.store.Owned sb
  pos : 0 < s.freeinode
  spare : ∀ i, i < NINODES → (i = 0 ∨ s.freeinode ≤ i) → s.store.inode i = default

/-- A step that writes neither the superblock nor the sectors that are still free. -/
theorem Base.frame (h : Base v) (hn : v'.nsect = v.nsect) (hle : v.freeblock ≤ v'.freeblock)
    (hsize : v'.freeblock ≤ FSSIZE) (hi : v.freeinode ≤ v'.freeinode)
    (hsect : ∀ b, b = 1 ∨ sb.nmeta ≤ b ∧ v'.freeblock ≤ b → v'.sect b = v.sect b) (howned : v'.store.Owned sb)
    (hspare : ∀ j, j = 0 ∨ v'.freeinode ≤ j → ¬ v.store.Live sb j → v'.store.inode j = v.store.inode j) :
    Base v' := by
  refine ⟨hn.trans h.nsect, h.le.trans hle, hsize, fun b hb => ?_, ?_, howned, h.pos.trans_le hi, fun j hj hfree => ?_⟩
  · rw [hsect b (.inr ⟨h.le.trans (hle.trans hb), hb⟩)]
    exact h.clear b (hle.trans hb)
  · rw [hsect 1 (.inl rfl)]
    exact h.super
  · have hfree' := h.spare j hj (hfree.imp_right hi.trans)
    rw [hspare j hfree fun hl => hl.2.2 (by rw [hfree']; rfl), hfree']

/-- The slots `ks` of inode `i` have blocks in `v'`, new ones where there were none in `v`. -/
structure Filled (i : Nat) (ks : List Nat) (v v' : St) : Prop where
  base : Base v'
  freeinode : v'.freeinode = v.freeinode
  count : v'.freeblock = v.freeblock + ks.countP fun k => v.store.ref i k = 0
  inode : ∀ j, j ≠ i → v'.store.inode j = v.store.inode j
  self : ∃ a, v'.store.inode i = { v.store.inode i with addrs := a }
  ref : ∀ j l, v.store.Live sb j → (v'.store.ref j l ≠ 0 ↔ v.store.ref j l ≠ 0 ∨ j = i ∧ l ∈ ks)
  byte : ∀ j pos, v.store.Live sb j → v'.store.byte j pos = v.store.byte j pos

namespace Filled

variable {ks ls : List Nat}

theorem live (h : Filled i ks v v') {j : Nat} : v'.store.Live sb j ↔ v.store.Live sb j := by
  unfold Store.Live
  by_cases hj : j = i
  · obtain ⟨a, ha⟩ := h.self
    rw [hj, ha]
  · rw [h.inode j hj]

theorem refl (h : Base v) (h0 : v.store.ref i k ≠ 0) : Filled i [k] v v := by
  refine ⟨h, rfl, ?_, fun _ _ => rfl, ⟨_, rfl⟩, fun j l _ => ⟨.inl, ?_⟩, fun _ _ _ => rfl⟩
  · simp only [List.countP_cons, List.countP_nil, h0, decide_false, Bool.false_eq_true, if_false, Nat.add_zero]
  · rintro (h | ⟨rfl, hl⟩)
    · exact h
    · rwa [List.mem_singleton.1 hl]

theorem trans (h₁ : Filled i ks v v₁) (h₂ : Filled i ls v₁ v₂) (hi : v.store.Live sb i) (hd : ks.Disjoint ls) :
    Filled i (ks ++ ls) v v₂ := by
  have hcount : (ls.countP fun k => v₁.store.ref i k = 0) = ls.countP fun k => v.store.ref i k = 0 := by
    refine List.countP_congr fun k hk => ?_
    have := h₁.ref i k hi
    have hk' : k ∉ ks := fun h => hd h hk
    simp only [decide_eq_true_eq]
    tauto
  refine ⟨h₂.base, h₂.freeinode.trans h₁.freeinode, ?_, fun j hj => (h₂.inode j hj).trans (h₁.inode j hj), ?_,
    fun j l hj => ?_, fun j pos hj => (h₂.byte j pos (h₁.live.2 hj)).trans (h₁.byte j pos hj)⟩
  · rw [h₂.count, h₁.count, hcount, List.countP_append, Nat.add_assoc]
  · obtain ⟨a, ha⟩ := h₁.self
    obtain ⟨a', ha'⟩ := h₂.self
    exact ⟨a', by rw [ha', ha]⟩
  · rw [h₂.ref j l (h₁.live.2 hj), h₁.ref j l hj, List.mem_append]
    tauto

theorem grow (h : Base v) (f : Store.Fresh sb v.store i k v.freeblock)
    (hs : v'.store = v.store.grow i k v.freeblock) (hb : v'.freeblock = v.freeblock + 1)
    (hi : v'.freeinode = v.freeinode) (hn : v'.nsect = v.nsect)
    (hsect : ∀ b, b = 1 ∨ sb.nmeta ≤ b ∧ v.freeblock < b → v'.sect b = v.sect b) : Filled i [k] v v' := by
  have hlt : v.freeblock < FSSIZE := f.lt
  have hbase : Base v' := by
    refine h.frame hn (by omega) (by omega) hi.ge (fun b hb' => hsect b (hb'.imp_right fun h => ⟨h.1, by omega⟩)) ?_
      fun j _ hj => ?_
    · rw [hs]
      exact f.owned_grow h.owned
    · rw [hs, Store.grow_inode_ne]
      rintro rfl
      exact hj f.live
  refine ⟨hbase, hi, ?_, fun j hj => ?_, ?_, fun j l hj => ?_, fun j pos hj => ?_⟩
  · simp only [List.countP_cons, List.countP_nil, f.empty, decide_true, if_true, hb]
  · rw [hs, Store.grow_inode_ne hj]
  · rw [hs]
    rcases Nat.lt_or_ge NDIRECT k with hk | hk
    · exact ⟨_, by rw [Store.grow_inode_of_gt hk]⟩
    · exact ⟨_, Store.grow_inode_self hk⟩
  · rw [hs, f.ref_grow h.owned hj, List.mem_singleton]
    split
    · exact iff_of_true f.ne_zero (.inr ‹_›)
    · exact ⟨.inl, fun h => h.resolve_right ‹_›⟩
  · rw [hs, f.byte_grow h.owned hj]

end Filled

theorem Base.ref_lt (h : Base s) (hi : s.store.Live sb i) (h0 : s.store.ref i k ≠ 0) :
    sb.nmeta ≤ s.store.ref i k ∧ s.store.ref i k < s.freeblock := by
  have hr := h.owned.range i k hi h0
  have hused : decide (s.store.ref i k < s.freeblock) = true := (h.owned.used _ hr.2).2 (.inr ⟨i, k, hi, rfl⟩)
  exact ⟨hr.1, of_decide_eq_true hused⟩

theorem Base.fresh (h : Base s) (hi : s.store.Live sb i) (h0 : s.store.ref i k = 0) (hk : k ≤ MAXFILE)
    (hind : NDIRECT < k → s.store.ref i NDIRECT ≠ 0) (hlt : s.freeblock < FSSIZE) :
    Store.Fresh sb s.store i k s.freeblock :=
  ⟨hi, h0, hk, hind, decide_eq_false (Nat.lt_irrefl _), h.le, hlt, by decide⟩

theorem rsect_run {b : Nat} (hb : b < s.nsect) : rsect b s = (.ok (s.sect b), s) := by
  show (if b < s.nsect then _ else _ : MkM Block) s = _
  rw [if_pos hb]
  rfl

theorem wsect_run {b : Nat} (hb : b < s.nsect) (x : Block) : wsect b x s = (.ok (), s.setSect b x) := by
  have hmax : max s.nsect (b + 1) = s.nsect := by omega
  show (Except.ok (), St.mk (max s.nsect (b + 1)) _ _ _) = _
  rw [hmax]
  rfl

theorem iblock_lt_nsect (h : s.nsect = FSSIZE) (hi : i < NINODES) : sb.iblock i < s.nsect := by
  have := iblock_lt hi
  rw [sb_nmeta] at this
  rw [h]
  simp only [FSSIZE]
  omega

theorem winode_run (h : s.nsect = FSSIZE) (hi : i < NINODES) (d : Dinode) : winode i d s = (.ok (), s.put i d) := by
  have hb := iblock_lt_nsect h hi
  rw [winode, Exec.bind_of_ok (rsect_run hb), wsect_run hb]
  rfl

theorem rinode_run (h : s.nsect = FSSIZE) (hi : i < NINODES) : rinode i s = (.ok (s.dinode i), s) := by
  rw [rinode, Exec.bind_of_ok (rsect_run (iblock_lt_nsect h hi))]
  rfl

section Blocks

/-- The inode with another size; the copy that `iappend` works on has the old one until the end. -/
def resized (d : Dinode) (z : UInt32) : Dinode := { d with size := z }

theorem resized_setAddr (d : Dinode) (k : Nat) (a z : UInt32) :
    resized (d.setAddr k a) z = (resized d z).setAddr k a := rfl

theorem resized_addr (d : Dinode) (z : UInt32) (k : Nat) : (resized d z).addr k = d.addr k := rfl

variable {d : Dinode} {z : UInt32} (hi : i < NINODES) (h : Base (s.put i (resized d z)))
  (hlive : (s.put i (resized d z)).store.Live sb i)

include hi in
theorem ref_put (hk : k ≤ NDIRECT) : (s.put i d).store.ref i k = (d.addr k).toNat := by
  rw [Store.ref_of_le hk, store_put hi, Store.setInode_self]

theorem put_sect_ne {b : Nat} (hi : i < NINODES) (hb : b = 1 ∨ sb.nmeta ≤ b) : (s.put i d).sect b = s.sect b := by
  have := iblock_lt hi
  exact setSect_ne (by omega)

include hi h

theorem sect_freeblock : s.sect s.freeblock = Bytes.zero BSIZE := by
  have hput : (s.put i (resized d z)).sect s.freeblock = s.sect s.freeblock := put_sect_ne hi (.inr h.le)
  rw [← hput]
  exact h.clear _ le_rfl

include hlive

theorem fillAddr_run (hk : k ≤ NDIRECT) (hlt : d.addr k = 0 → s.freeblock < FSSIZE) :
    ∃ s' d', fillAddr d k s = (.ok d', s') ∧ (∃ a, d' = { d with addrs := a }) ∧
      Filled i [k] (s.put i (resized d z)) (s'.put i (resized d' z)) ∧ d'.addr k ≠ 0 := by
  have href : (s.put i (resized d z)).store.ref i k = (d.addr k).toNat := by rw [ref_put hi hk, resized_addr]
  unfold fillAddr
  by_cases h0 : d.addr k = 0
  · rw [if_pos h0]
    have hr : (s.put i (resized d z)).store.ref i k = 0 := by rw [href, h0]; rfl
    have f := h.fresh hlive hr (by simp only [MAXFILE]; omega) (by omega) (hlt h0)
    have hst := store_bump_put (d := resized d z) hi (sect_freeblock hi h) hk
    rw [← resized_setAddr] at hst
    refine ⟨s.bump, d.setAddr k (UInt32.ofNat s.freeblock), rfl, ⟨_, rfl⟩,
      Filled.grow h f hst rfl rfl rfl fun b hb => ?_, ?_⟩
    · rw [put_sect_ne hi (hb.imp_right And.left), put_sect_ne hi (hb.imp_right And.left)]
      rfl
    · have hnat : (UInt32.ofNat s.freeblock).toNat = s.freeblock := f.toNat_ofNat
      rw [Dinode.addr_setAddr d hk, if_pos rfl]
      intro he
      refine f.ne_zero ?_
      rw [show (s.put i (resized d z)).freeblock = s.freeblock from rfl, ← hnat, he]
      rfl
  · rw [if_neg h0]
    refine ⟨s, d, rfl, ⟨_, rfl⟩, Filled.refl h ?_, h0⟩
    rw [href]
    exact fun he => h0 (UInt32.toNat_inj.1 he)

theorem fillEntry_run {j : Nat} (hj : j < NINDIRECT) (hind : d.addr NDIRECT ≠ 0)
    (hlt : (s.put i (resized d z)).store.ref i (j + (NDIRECT + 1)) = 0 → s.freeblock < FSSIZE) :
    ∃ s' a, fillEntry (d.addr NDIRECT) j s = (.ok a, s') ∧
      Filled i [j + (NDIRECT + 1)] (s.put i (resized d z)) (s'.put i (resized d z)) ∧
      a.toNat = (s'.put i (resized d z)).store.ref i (j + (NDIRECT + 1)) := by
  have href : (s.put i (resized d z)).store.ref i NDIRECT = (d.addr NDIRECT).toNat := by
    rw [ref_put hi le_rfl, resized_addr]
  have hind' : (s.put i (resized d z)).store.ref i NDIRECT ≠ 0 := by
    rw [href]
    exact fun he => hind (UInt32.toNat_inj.1 he)
  have hrange := h.ref_lt hlive hind'
  rw [href] at hrange
  have hfb : (s.put i (resized d z)).freeblock = s.freeblock := rfl
  have hle := h.le_size
  have hword : (s.put i (resized d z)).store.ref i (j + (NDIRECT + 1)) =
      ((s.sect (d.addr NDIRECT).toNat).word j).toNat := by
    rw [Store.ref_of_gt (by omega), if_neg hind', Nat.add_sub_cancel, href, store_block hrange.1,
      put_sect_ne hi (.inr hrange.1)]
  have hn : (d.addr NDIRECT).toNat < s.nsect := by
    have : s.nsect = FSSIZE := h.nsect
    omega
  rw [fillEntry, Exec.bind_of_ok (rsect_run hn)]
  by_cases h0 : (s.sect (d.addr NDIRECT).toNat).word j = 0
  · rw [if_pos h0]
    have hr : (s.put i (resized d z)).store.ref i (j + (NDIRECT + 1)) = 0 := by rw [hword, h0]; rfl
    have f := h.fresh hlive hr (by simp only [MAXFILE]; omega) (fun _ => hind') (hlt hr)
    have hnb : nextBlock s = (.ok (UInt32.ofNat s.freeblock), s.bump) := rfl
    have hw := wsect_run (s := s.bump) hn ((s.sect (d.addr NDIRECT).toNat).setWord j (UInt32.ofNat s.freeblock))
    have hst := store_bump_entry (d := resized d z) hi (sect_freeblock hi h) (k := j + (NDIRECT + 1)) (by omega)
      hrange.1 (by rw [resized_addr]; omega)
    rw [Nat.add_sub_cancel, resized_addr] at hst
    rw [Exec.bind_of_ok hnb, Exec.bind_of_ok hw]
    refine ⟨_, _, rfl, Filled.grow h f hst rfl rfl rfl fun b hb => ?_, ?_⟩
    · rw [put_sect_ne hi (hb.imp_right And.left), put_sect_ne hi (hb.imp_right And.left)]
      rw [sb_nmeta] at hrange
      exact setSect_ne (by omega)
    · rw [hst]
      exact f.toNat_ofNat.trans ((f.ref_grow h.owned hlive).trans (if_pos ⟨rfl, rfl⟩)).symm
  · rw [if_neg h0]
    refine ⟨s, _, rfl, Filled.refl h ?_, hword.symm⟩
    rw [hword]
    exact fun he => h0 (UInt32.toNat_inj.1 he)

end Blocks

/-! ### The slots a size needs -/

def slotsOf (fbn : Nat) : List Nat := if fbn < NDIRECT then [fbn] else [NDIRECT, fbn + 1]

def Need (z k : Nat) : Prop := (if k ≤ NDIRECT then k else k - 1) * BSIZE < z

instance (z k : Nat) : Decidable (Need z k) := inferInstanceAs (Decidable (_ < _))

def blocks (z : Nat) : Nat := (z + BSIZE - 1) / BSIZE + if NDIRECT * BSIZE < z then 1 else 0

theorem slot_mem_slotsOf (fbn : Nat) : Store.slot fbn ∈ slotsOf fbn := by
  unfold Store.slot slotsOf
  split <;> simp

theorem need_slot {z bn : Nat} : Need z (Store.slot bn) ↔ bn * BSIZE < z := by
  unfold Need Store.slot
  simp only [NDIRECT, BSIZE]
  split <;> split <;> omega

theorem need_step {off n k : Nat} (hn : 0 < n) (hle : off % BSIZE + n ≤ BSIZE) :
    Need (off + n) k ↔ Need off k ∨ k ∈ slotsOf (off / BSIZE) := by
  unfold Need slotsOf
  simp only [NDIRECT, BSIZE] at *
  split <;> split <;> simp only [List.mem_cons, List.not_mem_nil, or_false] <;> omega

theorem blocks_step {off n : Nat} (hn : 0 < n) (hle : off % BSIZE + n ≤ BSIZE) :
    blocks (off + n) = blocks off + (slotsOf (off / BSIZE)).countP fun k => ¬ Need off k := by
  have hfirst : ∀ {k}, Need off (Store.slot k) ↔ k * BSIZE < off := need_slot
  have hind : Need off NDIRECT ↔ NDIRECT * BSIZE < off := by rw [Need, if_pos le_rfl]
  unfold blocks slotsOf
  by_cases hd : off / BSIZE < NDIRECT
  · have hs : Store.slot (off / BSIZE) = off / BSIZE := if_pos hd
    rw [if_pos hd, List.countP_singleton, ← hs]
    simp only [hfirst, decide_eq_true_eq]
    simp only [NDIRECT, BSIZE] at *
    split <;> split <;> split <;> omega
  · have hs : Store.slot (off / BSIZE) = off / BSIZE + 1 := if_neg hd
    rw [if_neg hd, List.countP_cons, List.countP_singleton, ← hs]
    simp only [hfirst, hind, decide_eq_true_eq]
    simp only [NDIRECT, BSIZE] at *
    split <;> split <;> split <;> omega

theorem blocks_mono {m n : Nat} (h : m ≤ n) : blocks m ≤ blocks n := by
  unfold blocks
  simp only [NDIRECT, BSIZE]
  split <;> split <;> omega

/-- The invariant between two calls of `iappend`. -/
structure Wf (s : St) : Prop extends Base s where
  size_le : ∀ i, s.store.Live sb i → (s.store.inode i).size.toNat ≤ MAXFILE * BSIZE
  need : ∀ i k, s.store.Live sb i → (s.store.ref i k ≠ 0 ↔ Need (s.store.inode i).size.toNat k)

theorem Wf.ok (h : Wf s) : s.store.Ok sb :=
  ⟨h.owned, h.size_le, fun i _ hi hbn => (h.need i _ hi).2 (need_slot.2 hbn)⟩

theorem Wf.countP_ref (h : Wf s) (hi : s.store.Live sb i) (ks : List Nat) :
    (ks.countP fun k => s.store.ref i k = 0) = ks.countP fun k => ¬ Need (s.store.inode i).size.toNat k := by
  refine List.countP_congr fun k _ => ?_
  have := h.need i k hi
  simp only [decide_eq_true_eq]
  tauto

theorem blockOf_run {d : Dinode} {z : UInt32} {fbn : Nat} (hi : i < NINODES) (h : Base (s.put i (resized d z)))
    (hlive : (s.put i (resized d z)).store.Live sb i) (hbn : fbn < MAXFILE)
    (hlt : s.freeblock + (slotsOf fbn).countP (fun k => (s.put i (resized d z)).store.ref i k = 0) ≤ FSSIZE) :
    ∃ s' x d', blockOf d fbn s = (.ok (x, d'), s') ∧ (∃ a, d' = { d with addrs := a }) ∧
      Filled i (slotsOf fbn) (s.put i (resized d z)) (s'.put i (resized d' z)) ∧
      x.toNat = (s'.put i (resized d' z)).store.ref i (Store.slot fbn) := by
  unfold blockOf
  unfold slotsOf at hlt ⊢
  unfold Store.slot
  split
  · rename_i hd
    rw [if_pos hd] at hlt
    obtain ⟨s1, d', hrun, hd', hf, -⟩ := fillAddr_run hi h hlive (k := fbn) (by omega) fun h0 => by
      rw [List.countP_singleton, ref_put hi (by omega), resized_addr, h0] at hlt
      exact hlt
    rw [Exec.bind_of_ok hrun]
    exact ⟨s1, _, d', rfl, hd', hf, by rw [ref_put hi (by omega), resized_addr]⟩
  · rename_i hd
    rw [if_neg hd] at hlt
    simp only [List.countP_cons, List.countP_nil, decide_eq_true_eq] at hlt
    obtain ⟨s1, d', hrun, hd', hf, hne⟩ := fillAddr_run hi h hlive (k := NDIRECT) le_rfl fun h0 => by
      rw [ref_put hi le_rfl, resized_addr, if_pos (show (d.addr NDIRECT).toNat = 0 by rw [h0]; rfl)] at hlt
      omega
    have hfb : s1.freeblock = s.freeblock + if (s.put i (resized d z)).store.ref i NDIRECT = 0 then 1 else 0 := by
      have := hf.count
      simp only [List.countP_singleton, decide_eq_true_eq] at this
      exact this
    have hidx : fbn - NDIRECT + (NDIRECT + 1) = fbn + 1 := by omega
    obtain ⟨s2, x, hrun2, hf2, hx⟩ := fillEntry_run hi hf.base (hf.live.2 hlive) (j := fbn - NDIRECT)
      (by simp only [MAXFILE] at hbn; omega) hne fun h0 => by
        have hn : (s.put i (resized d z)).store.ref i (fbn + 1) = 0 := by
          have := hf.ref i (fbn + 1) hlive
          rw [hidx] at h0
          rw [h0, List.mem_singleton] at this
          by_contra hc
          exact this.2 (.inl hc) rfl
        rw [if_pos hn] at hlt
        rw [hfb]
        omega
    rw [hidx] at hf2 hx
    rw [Exec.bind_of_ok hrun, Exec.bind_of_ok hrun2]
    refine ⟨s2, x, d', rfl, hd', hf.trans hf2 hlive ?_, hx⟩
    intro k hk hk'
    rw [List.mem_singleton] at hk hk'
    omega

/-! ### The bytes -/

/-- The block of slot `bn` rewritten and the size changed, as a round of the loop does. -/
def rewrite (s : St) (i : Nat) (d : Dinode) (b : Nat) (y : Block) (z : UInt32) : St :=
  (s.setSect b y).put i (resized d z)

section Rewrite

variable {d : Dinode} {bn : Nat} {y : Block} {z : UInt32} (hi : i < NINODES) (h : Base (s.put i d))
  (hlive : (s.put i d).store.Live sb i) (h0 : (s.put i d).store.ref i (Store.slot bn) ≠ 0)

include hi

theorem put_inode : (s.put i d).store.inode i = d := by rw [store_put hi, Store.setInode_self]

include h hlive h0

theorem store_rewrite :
    (rewrite s i d ((s.put i d).store.ref i (Store.slot bn)) y z).store =
      ((s.put i d).store.setBlock ((s.put i d).store.ref i (Store.slot bn)) y).setInode i (resized d z) := by
  rw [rewrite, store_put hi, store_setSect (h.ref_lt hlive h0).1, store_put hi]
  exact Store.ext (update_idem ..).symm rfl rfl

theorem live_rewrite {j : Nat} :
    (rewrite s i d ((s.put i d).store.ref i (Store.slot bn)) y z).store.Live sb j ↔ (s.put i d).store.Live sb j := by
  rw [store_rewrite hi h hlive h0, Store.live_setInode]
  · rfl
  · show d.type ≠ 0 ↔ ((s.put i d).store.inode i).type ≠ 0
    rw [put_inode hi]

theorem ref_rewrite {j : Nat} (hj : (s.put i d).store.Live sb j) :
    (rewrite s i d ((s.put i d).store.ref i (Store.slot bn)) y z).store.ref j k = (s.put i d).store.ref j k := by
  rw [store_rewrite hi h hlive h0, Store.ref_setInode, Store.ref_setBlock h.owned hlive hj]
  intro k
  show d.addr k = ((s.put i d).store.inode i).addr k
  rw [put_inode hi]

theorem byte_rewrite {j : Nat} (hj : (s.put i d).store.Live sb j) (pos : Nat) :
    (rewrite s i d ((s.put i d).store.ref i (Store.slot bn)) y z).store.byte j pos =
      if j = i ∧ pos / BSIZE = bn then y.get (pos % BSIZE) else (s.put i d).store.byte j pos := by
  rw [store_rewrite hi h hlive h0, Store.byte_setInode, Store.byte_setBlock h.owned hlive h0 hj]
  intro k
  show d.addr k = ((s.put i d).store.inode i).addr k
  rw [put_inode hi]

theorem base_rewrite : Base (rewrite s i d ((s.put i d).store.ref i (Store.slot bn)) y z) := by
  have hlt := h.ref_lt hlive h0
  refine h.frame rfl le_rfl h.le_size le_rfl (fun b hb => ?_) ?_ fun j _ hj => ?_
  · rw [rewrite, put_sect_ne hi (hb.imp_right And.left), put_sect_ne hi (hb.imp_right And.left)]
    rw [sb_nmeta] at hlt
    have hfb : (rewrite s i d ((s.put i d).store.ref i (Store.slot bn)) y z).freeblock = (s.put i d).freeblock := rfl
    exact setSect_ne (by omega)
  · exact h.owned.congr (fun j => live_rewrite hi h hlive h0) (fun j k hj => ref_rewrite hi h hlive h0 hj)
      fun _ _ => rfl
  · rw [store_rewrite hi h hlive h0, Store.setInode_ne]
    · rfl
    · rintro rfl
      exact hj hlive

end Rewrite

/-- Inode `i` is an allocated inode of type `t` with one link, and its bytes are `l`. -/
structure Holds (s : St) (i : Nat) (t : UInt16) (l : List UInt8) : Prop where
  live : s.store.Live sb i
  type : (s.store.inode i).type = t
  nlink : (s.store.inode i).nlink = 1
  size : (s.store.inode i).size.toNat = l.length
  byte : ∀ pos, pos < l.length → s.store.byte i pos = cstr l pos

structure Appended (i : Nat) (v v' : St) : Prop where
  wf : Wf v'
  freeinode : v'.freeinode = v.freeinode
  inode : ∀ j, j ≠ i → v'.store.inode j = v.store.inode j
  byte : ∀ j pos, j ≠ i → v.store.Live sb j → v'.store.byte j pos = v.store.byte j pos

theorem Appended.live (h : Appended i v v') {j : Nat} (hj : j ≠ i) : v'.store.Live sb j ↔ v.store.Live sb j := by
  unfold Store.Live
  rw [h.inode j hj]

theorem Appended.trans (h₁ : Appended i v v₁) (h₂ : Appended i v₁ v₂) : Appended i v v₂ :=
  ⟨h₂.wf, h₂.freeinode.trans h₁.freeinode, fun j hj => (h₂.inode j hj).trans (h₁.inode j hj),
    fun j pos hj hl => (h₂.byte j pos hj ((h₁.live hj).2 hl)).trans (h₁.byte j pos hj hl)⟩

theorem Holds.appended {j : Nat} {t : UInt16} {l : List UInt8} (h : Holds v j t l) (ha : Appended i v v')
    (hj : j ≠ i) : Holds v' j t l := by
  have hi := ha.inode j hj
  refine ⟨(ha.live hj).2 h.live, ?_, ?_, ?_, fun pos hpos => ?_⟩
  · rw [hi, h.type]
  · rw [hi, h.nlink]
  · rw [hi, h.size]
  · rw [ha.byte j pos hj h.live, h.byte pos hpos]

/-- A round of the loop: the blocks for `n` more bytes behind the file `l` are there, all the bytes go to one
of them. -/
structure Round (i : Nat) (t : UInt16) (l : List UInt8) (n : Nat) (s : St) (d : Dinode) (s' : St) (d' : Dinode) : Prop where
  lt : i < NINODES
  wf : Wf (s.put i d)
  holds : Holds (s.put i d) i t l
  inode : ∃ a, d' = { d with addrs := a }
  filled : Filled i (slotsOf (l.length / BSIZE)) (s.put i d) (s'.put i d')
  pos : 0 < n
  fits : l.length % BSIZE + n ≤ BSIZE

namespace Round

variable {t : UInt16} {l : List UInt8} {n : Nat} {d d' : Dinode} {s' : St} (h : Round i t l n s d s' d')

include h

theorem size : d.size.toNat = l.length := by rw [← h.holds.size, put_inode h.lt]

theorem live : (s'.put i d').store.Live sb i := h.filled.live.2 h.holds.live

theorem mapped : (s'.put i d').store.ref i (Store.slot (l.length / BSIZE)) ≠ 0 :=
  (h.filled.ref i _ h.holds.live).2 (.inr ⟨rfl, slot_mem_slotsOf _⟩)

theorem count : s'.freeblock + blocks l.length = s.freeblock + blocks (l.length + n) := by
  have hcount : s'.freeblock = s.freeblock + (slotsOf (l.length / BSIZE)).countP fun k => ¬ Need l.length k := by
    have hc := h.wf.countP_ref h.holds.live (slotsOf (l.length / BSIZE))
    rw [h.holds.size] at hc
    rw [← hc]
    exact h.filled.count
  rw [blocks_step h.pos h.fits, hcount]
  omega

variable {y : Block} {z : UInt32} {b : Nat} (hb : b = (s'.put i d').store.ref i (Store.slot (l.length / BSIZE)))

include hb

theorem inode_ne {j : Nat} (hj : j ≠ i) : (rewrite s' i d' b y z).store.inode j = (s.put i d).store.inode j := by
  rw [hb, store_rewrite h.lt h.filled.base h.live h.mapped, Store.setInode_ne hj]
  exact h.filled.inode j hj

omit hb in
theorem inode_self : ∃ a, (rewrite s' i d' b y z).store.inode i = { d with addrs := a, size := z } := by
  obtain ⟨a, ha⟩ := h.inode
  refine ⟨a, ?_⟩
  rw [rewrite, put_inode h.lt, ha]
  rfl

theorem live_iff {j : Nat} : (rewrite s' i d' b y z).store.Live sb j ↔ (s.put i d).store.Live sb j := by
  rw [hb]
  exact (live_rewrite h.lt h.filled.base h.live h.mapped).trans h.filled.live

theorem need (hz : z.toNat = l.length + n) {j k : Nat} (hj : (rewrite s' i d' b y z).store.Live sb j) :
    (rewrite s' i d' b y z).store.ref j k ≠ 0 ↔ Need ((rewrite s' i d' b y z).store.inode j).size.toNat k := by
  have hl := (h.live_iff hb).1 hj
  have hr := ref_rewrite (k := k) (y := y) (z := z) h.lt h.filled.base h.live h.mapped (h.filled.live.2 hl)
  rw [← hb] at hr
  rw [hr, h.filled.ref j k hl, h.wf.need j k hl]
  by_cases hji : j = i
  · subst hji
    obtain ⟨a, ha⟩ := h.inode_self (b := b) (y := y) (z := z)
    rw [ha, put_inode h.lt, hz, h.size, need_step h.pos h.fits]
    tauto
  · rw [h.inode_ne hb hji]
    tauto

theorem byte {j : Nat} (hj : (s.put i d).store.Live sb j) (pos : Nat) :
    (rewrite s' i d' b y z).store.byte j pos =
      if j = i ∧ pos / BSIZE = l.length / BSIZE then y.get (pos % BSIZE) else (s.put i d).store.byte j pos := by
  have hr := byte_rewrite (y := y) (z := z) h.lt h.filled.base h.live h.mapped (h.filled.live.2 hj) pos
  rw [← hb] at hr
  rw [hr, h.filled.byte j pos hj]

theorem appended (hz : z.toNat = l.length + n) (hmax : l.length + n ≤ MAXFILE * BSIZE) :
    Appended i (s.put i d) (rewrite s' i d' b y z) := by
  have hbase := base_rewrite (y := y) (z := z) h.lt h.filled.base h.live h.mapped
  rw [← hb] at hbase
  refine ⟨⟨hbase, fun j hj => ?_, fun j k hj => h.need hb hz hj⟩, h.filled.freeinode, fun j hj => h.inode_ne hb hj,
    fun j pos hj hl => ?_⟩
  · by_cases hji : j = i
    · obtain ⟨a, ha⟩ := h.inode_self (b := b) (y := y) (z := z)
      rw [hji, ha]
      exact hz.trans_le hmax
    · rw [h.inode_ne hb hji]
      exact h.wf.size_le j ((h.live_iff hb).1 hj)
  · rw [h.byte hb hl, if_neg fun he => hj he.1]

theorem old_byte {pos : Nat} (hpos : pos < l.length) (hdiv : pos / BSIZE = l.length / BSIZE) (src : Nat → UInt8) :
    ((s'.sect b).put (l.length % BSIZE) n src).get (pos % BSIZE) = cstr l pos := by
  have hoff : pos % BSIZE < l.length % BSIZE := by simp only [BSIZE] at *; omega
  have hr := h.filled.base.ref_lt h.live h.mapped
  rw [← hb] at hr
  have hblk : s'.sect b = (s'.put i d').store.block b := by
    rw [store_block hr.1, put_sect_ne h.lt (.inr hr.1)]
  have hold := h.holds.byte pos hpos
  have hne := h.mapped
  rw [← h.filled.byte i pos h.holds.live, Store.byte, hdiv, if_neg hne, ← hb] at hold
  rw [Bytes.get_put_of_disjoint _ _ (.inl hoff), hblk, hold]

theorem holds' {p : List UInt8} (hz : z.toNat = l.length + n) (hp : n ≤ p.length) :
    Holds (rewrite s' i d' b ((s'.sect b).put (l.length % BSIZE) n (cstr p)) z) i t (l ++ p.take n) := by
  have hlen : (l ++ p.take n).length = l.length + n := by rw [List.length_append, List.length_take, min_eq_left hp]
  obtain ⟨a, ha⟩ := h.inode_self (b := b) (y := (s'.sect b).put (l.length % BSIZE) n (cstr p)) (z := z)
  refine ⟨(h.live_iff hb).2 h.holds.live, ?_, ?_, ?_, fun pos hpos => ?_⟩
  · rw [ha, ← h.holds.type, put_inode h.lt]
  · rw [ha, ← h.holds.nlink, put_inode h.lt]
  · rw [ha, hlen, ← hz]
  · rw [hlen] at hpos
    have hfits := h.fits
    rw [h.byte hb h.holds.live]
    by_cases hnew : l.length ≤ pos
    · have hdiv : pos / BSIZE = l.length / BSIZE := by simp only [BSIZE] at *; omega
      have hoff : pos % BSIZE = l.length % BSIZE + (pos - l.length) := by simp only [BSIZE] at *; omega
      rw [if_pos ⟨rfl, hdiv⟩, Bytes.get_put _ _ _ _ _ (Nat.mod_lt _ (by decide)), if_pos (by omega), hoff,
        Nat.add_sub_cancel_left]
      unfold cstr
      rw [List.getD_append_right _ _ _ _ hnew, List.getD_eq_getElem?_getD, List.getD_eq_getElem?_getD,
        List.getElem?_take_of_lt (by omega)]
    · have hl : cstr (l ++ p.take n) pos = cstr l pos := List.getD_append _ _ _ _ (by omega)
      rw [hl]
      split
      · rename_i hin
        exact h.old_byte hb (by omega) hin.2 _
      · exact h.holds.byte pos (by omega)

end Round

theorem appendLoop_run {t : UInt16} {fuel : Nat} {d : Dinode} {l p : List UInt8} (hi : i < NINODES)
    (h : Wf (s.put i (resized d (UInt32.ofNat l.length))))
    (hh : Holds (s.put i (resized d (UInt32.ofNat l.length))) i t l)
    (hmax : l.length + p.length ≤ MAXFILE * BSIZE)
    (hfit : s.freeblock + blocks (l.length + p.length) ≤ FSSIZE + blocks l.length) (hfuel : p.length ≤ fuel) :
    ∃ s' d', appendLoop fuel d l.length p s = (.ok (d', l.length + p.length), s') ∧
      Appended i (s.put i (resized d (UInt32.ofNat l.length)))
        (s'.put i (resized d' (UInt32.ofNat (l.length + p.length)))) ∧
      Holds (s'.put i (resized d' (UInt32.ofNat (l.length + p.length)))) i t (l ++ p) ∧
      s'.freeblock + blocks l.length = s.freeblock + blocks (l.length + p.length) := by
  induction fuel generalizing s d l p with
  | zero =>
    obtain rfl : p = [] := List.length_eq_zero_iff.1 (by omega)
    refine ⟨s, d, rfl, ⟨h, rfl, fun _ _ => rfl, fun _ _ _ _ => rfl⟩, ?_, rfl⟩
    rw [List.append_nil]
    exact hh
  | succ fuel ih =>
    unfold appendLoop
    by_cases h0 : p.length = 0
    · obtain rfl : p = [] := List.length_eq_zero_iff.1 h0
      refine ⟨s, d, rfl, ⟨h, rfl, fun _ _ => rfl, fun _ _ _ _ => rfl⟩, ?_, rfl⟩
      rw [List.append_nil]
      exact hh
    · have hlt : l.length / BSIZE < MAXFILE := by simp only [BSIZE] at *; omega
      rw [if_neg h0, if_neg (by omega)]
      obtain ⟨n, hn⟩ : ∃ n, n = min p.length ((l.length / BSIZE + 1) * BSIZE - l.length) := ⟨_, rfl⟩
      have hpos : 0 < n := by simp only [BSIZE] at *; omega
      have hle : l.length % BSIZE + n ≤ BSIZE := by simp only [BSIZE] at *; omega
      have hmod : l.length - l.length / BSIZE * BSIZE = l.length % BSIZE := by simp only [BSIZE]; omega
      have hstep := blocks_step hpos hle
      have hmono : blocks (l.length + n) ≤ blocks (l.length + p.length) := blocks_mono (by omega)
      obtain ⟨s1, x, d', hrun, ⟨a, ha⟩, hf, hx⟩ := blockOf_run hi h.toBase hh.live hlt (by
        rw [h.countP_ref hh.live, hh.size]
        omega)
      have r : Round i t l n s (resized d (UInt32.ofNat l.length)) s1 (resized d' (UInt32.ofNat l.length)) :=
        ⟨hi, h, hh, ⟨a, by rw [ha]; rfl⟩, hf, hpos, hle⟩
      have hb : x.toNat < s1.nsect := by
        have h1 := hf.base.ref_lt r.live r.mapped
        have h2 := hf.base.le_size
        have h3 : s1.nsect = FSSIZE := hf.base.nsect
        omega
      have hz : (UInt32.ofNat (l.length + n)).toNat = l.length + n := by
        rw [UInt32.toNat_ofNat']
        simp only [MAXFILE, NDIRECT, NINDIRECT, BSIZE] at hmax
        omega
      have hlen : (l ++ p.take n).length = l.length + n := by
        rw [List.length_append, List.length_take]
        omega
      have happ := r.appended hx (y := (s1.sect x.toNat).put (l.length % BSIZE) n (cstr p)) hz (by omega)
      have hhold := r.holds' hx hz (p := p) (by omega)
      have hcount := r.count
      have hdrop : l.length + n + (p.drop n).length = l.length + p.length := by
        rw [List.length_drop]
        omega
      obtain ⟨s2, d2, hrun2, happ2, hhold2, hcount2⟩ := ih
        (s := s1.setSect x.toNat ((s1.sect x.toNat).put (l.length % BSIZE) n (cstr p))) (d := d')
        (l := l ++ p.take n) (p := p.drop n) (by rw [hlen]; exact happ.wf) (by rw [hlen]; exact hhold)
        (by rw [hlen, hdrop]; exact hmax) (by rw [hlen, hdrop]; show s1.freeblock + _ ≤ _; omega)
        (by rw [List.length_drop]; omega)
      rw [hlen] at hrun2 happ2 hhold2 hcount2
      rw [hdrop] at hrun2 happ2 hhold2 hcount2
      rw [List.append_assoc, List.take_append_drop] at hhold2
      rw [Exec.bind_of_ok hrun]
      dsimp only
      rw [Exec.bind_of_ok (rsect_run hb), Exec.bind_of_ok (wsect_run hb _), hmod, ← hn]
      refine ⟨s2, d2, hrun2, happ.trans happ2, hhold2, ?_⟩
      have hfb : (s1.setSect x.toNat ((s1.sect x.toNat).put (l.length % BSIZE) n (cstr p))).freeblock = s1.freeblock :=
        rfl
      omega

/-! ### `iappend` and `ialloc` -/

theorem Wf.put_self (h : Wf s) (hi : i < NINODES) : Wf (s.put i (s.dinode i)) := by
  have hst := store_put_self (s := s) hi
  refine ⟨h.frame rfl le_rfl h.le_size le_rfl (fun b hb => put_sect_ne hi (hb.imp_right And.left)) ?_ fun j _ _ => ?_,
    ?_, ?_⟩ <;> rw [hst]
  · exact h.owned
  · exact h.size_le
  · exact h.need

theorem Holds.put_self {t : UInt16} {l : List UInt8} {j : Nat} (h : Holds s i t l) (hj : j < NINODES) :
    Holds (s.put j (s.dinode j)) i t l := by
  have hst := store_put_self (s := s) hj
  refine ⟨?_, ?_, ?_, ?_, ?_⟩ <;> rw [hst]
  · exact h.live
  · exact h.type
  · exact h.nlink
  · exact h.size
  · exact h.byte

theorem iappend_run {t : UInt16} {l p : List UInt8} (h : Wf s) (hh : Holds s i t l)
    (hmax : l.length + p.length ≤ MAXFILE * BSIZE)
    (hfit : s.freeblock + blocks (l.length + p.length) ≤ FSSIZE + blocks l.length) :
    ∃ s', iappend i p s = (.ok (), s') ∧ Appended i s s' ∧ Holds s' i t (l ++ p) ∧
      s'.freeblock + blocks l.length = s.freeblock + blocks (l.length + p.length) := by
  have hi : i < NINODES := hh.live.2.1
  have hsize : (s.dinode i).size.toNat = l.length := by rw [← hh.size, store_inode hi]
  have hd : resized (s.dinode i) (UInt32.ofNat l.length) = s.dinode i := by
    rw [← hsize, UInt32.ofNat_toNat]
    rfl
  obtain ⟨s', d', hrun, happ, hhold, hcount⟩ := appendLoop_run (s := s) (d := s.dinode i) hi
    (by rw [hd]; exact h.put_self hi) (by rw [hd]; exact hh.put_self hi) hmax hfit le_rfl
  have hns : s'.nsect = FSSIZE := happ.wf.nsect
  rw [iappend, Exec.bind_of_ok (rinode_run h.nsect hi), hsize, Exec.bind_of_ok hrun]
  refine ⟨_, winode_run hns hi _, ?_, hhold, hcount⟩
  rw [hd] at happ
  have hst := store_put_self (s := s) hi
  refine ⟨happ.wf, happ.freeinode, fun j hj => ?_, fun j pos hj hl => ?_⟩
  · have := happ.inode j hj
    rwa [hst] at this
  · have := happ.byte j pos hj
    rw [hst] at this
    exact this hl

theorem newInode_addr (t : UInt16) (k : Nat) : (newInode t).addr k = 0 := by
  unfold Dinode.addr
  split <;> rfl

def St.new (s : St) (t : UInt16) : St := { s with freeinode := s.freeinode + 1 }.put s.freeinode (newInode t)

section New

variable {t : UInt16} (h : Wf s) (hi : s.freeinode < NINODES)

include hi

theorem store_new : (s.new t).store = s.store.setInode s.freeinode (newInode t) := store_put hi _

theorem new_self : (s.new t).store.inode s.freeinode = newInode t := put_inode hi

theorem new_inode {j : Nat} (hj : j ≠ s.freeinode) : (s.new t).store.inode j = s.store.inode j := by
  rw [store_new hi, Store.setInode_ne hj]

theorem live_new {j : Nat} (hj : j ≠ s.freeinode) : (s.new t).store.Live sb j ↔ s.store.Live sb j := by
  unfold Store.Live
  rw [new_inode hi hj]

include h

theorem Wf.not_live : ¬ s.store.Live sb s.freeinode := fun hl => hl.2.2 (by rw [h.spare _ hi (.inr le_rfl)]; rfl)

theorem Wf.new : Wf (s.new t) := by
  refine ⟨h.frame rfl le_rfl h.le_size (Nat.le_succ _) (fun b hb => put_sect_ne hi (hb.imp_right And.left)) ?_
    fun j hfree _ => ?_, fun j hj => ?_, fun j k hj => ?_⟩
  · rw [store_new hi]
    exact h.owned.setInode_new (h.not_live hi) (newInode_addr t)
  · have hfree' : j = 0 ∨ s.freeinode + 1 ≤ j := hfree
    have := h.pos
    rw [new_inode hi (by omega)]
  · by_cases hji : j = s.freeinode
    · rw [hji, new_self hi]
      exact Nat.zero_le _
    · rw [new_inode hi hji]
      exact h.size_le j ((live_new hi hji).1 hj)
  · by_cases hji : j = s.freeinode
    · have hz : (s.new t).store.ref s.freeinode k = 0 :=
        Store.ref_of_addr_zero (by rw [new_self hi]; exact newInode_addr t) k
      rw [hji, hz, new_self hi]
      exact iff_of_false (fun h => h rfl) (Nat.not_lt_zero _)
    · rw [store_new hi, Store.ref_setInode_ne hji, Store.setInode_ne hji]
      exact h.need j k ((live_new hi hji).1 hj)

theorem Holds.new {t' : UInt16} {l : List UInt8} (hh : Holds s i t' l) : Holds (s.new t) i t' l := by
  have hne : i ≠ s.freeinode := by
    rintro rfl
    exact h.not_live hi hh.live
  refine ⟨(live_new hi hne).2 hh.live, ?_, ?_, ?_, fun pos hpos => ?_⟩
  · rw [new_inode hi hne, hh.type]
  · rw [new_inode hi hne, hh.nlink]
  · rw [new_inode hi hne, hh.size]
  · rw [store_new hi, Store.byte_setInode_ne hne, hh.byte pos hpos]

omit h in
theorem holds_new (hpos : 0 < s.freeinode) (ht : t ≠ 0) : Holds (s.new t) s.freeinode t [] := by
  refine ⟨⟨hpos, hi, ?_⟩, ?_, ?_, ?_, fun pos hpos => absurd hpos (Nat.not_lt_zero _)⟩ <;> rw [new_self hi]
  · exact ht
  all_goals rfl

omit hi in
theorem ialloc_run (hi : s.freeinode < NINODES) : ialloc t s = (.ok s.freeinode, s.new t) := by
  have hw := winode_run (s := { s with freeinode := s.freeinode + 1 }) h.nsect hi (newInode t)
  show (winode s.freeinode (newInode t) >>= fun _ => pure s.freeinode : MkM Nat)
    { s with freeinode := s.freeinode + 1 } = _
  rw [Exec.bind_of_ok hw]
  rfl

end New

end Xv6.Mkfs
