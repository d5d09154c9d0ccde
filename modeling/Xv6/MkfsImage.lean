import Xv6.FsContent
import Xv6.MkfsAppend

/-!
# The finished image

`Built fs s`: `mkfs` has written the files `fs`, each with exactly its bytes, and the root directory
with their entries; this holds after each round of the loop over the arguments. Then the size of the
root directory is rounded up to the next block boundary behind it and the free map is written. If the
entries end at a block boundary, the rounded size claims a block that the root does not have.
-/

namespace Xv6.Mkfs

open Function (update update_self update_of_ne)

open St

/-! ### An image without files -/

theorem read_zero (j : Nat) : Dinode.read (Bytes.zero BSIZE) j = default := by
  refine Dinode.ext ?_ ?_ ?_ ?_ ?_ (funext fun k => ?_) <;> simp only [Dinode.read, Bytes.getLE_zero] <;> rfl

theorem wipe_run (is : List Nat) {s : St} (h : s.sect = fun _ => Bytes.zero BSIZE) :
    wipe is s = (.ok (), { s with nsect := is.foldl (fun n i => max n (i + 1)) s.nsect }) := by
  induction is generalizing s with
  | nil => rfl
  | cons i is ih =>
    have hzero : update s.sect i (Bytes.zero BSIZE) = s.sect := by
      rw [h]
      exact Function.update_eq_self i _
    have hw : wsect i (Bytes.zero BSIZE) s = (.ok (), { s with nsect := max s.nsect (i + 1) }) := by
      show (_, St.mk _ (update s.sect i (Bytes.zero BSIZE)) _ _) = _
      rw [hzero]
    rw [wipe, Exec.bind_of_ok hw]
    exact ih h

theorem foldl_range (n : Nat) : (List.range n).foldl (fun n i => max n (i + 1)) 0 = n := by
  induction n with
  | zero => rfl
  | succ n ih =>
    rw [List.range_succ, List.foldl_append, ih]
    exact max_eq_right (Nat.le_succ n)

def blank : St := ⟨FSSIZE, update (fun _ => Bytes.zero BSIZE) 1 sbBlock, 1, nmeta⟩

theorem blank_sect {b : Nat} (hb : b ≠ 1) : blank.sect b = Bytes.zero BSIZE := by
  show update (fun _ => Bytes.zero BSIZE) 1 sbBlock b = _
  rw [update_of_ne hb]

theorem blank_inode (i : Nat) : blank.store.inode i = default := by
  show (if i < NINODES then blank.dinode i else default) = default
  split
  · have := iblock_lt ‹i < NINODES›
    rw [dinode, blank_sect (by omega), read_zero]
  · rfl

theorem not_live_blank {i : Nat} : ¬ blank.store.Live sb i := fun h => h.2.2 (by rw [blank_inode]; rfl)

theorem wf_blank : Wf blank := by
  refine ⟨⟨rfl, le_rfl, by decide, fun b hb => ?_, rfl, ⟨?_, ?_, fun b _ => ?_⟩, Nat.one_pos,
    fun i _ _ => blank_inode i⟩, fun i hi => absurd hi not_live_blank, fun i k hi => absurd hi not_live_blank⟩
  · have hb' : 59 ≤ b := hb
    exact blank_sect (by omega)
  · exact fun i k hi => absurd hi not_live_blank
  · exact fun i j k l hi => absurd hi not_live_blank
  · refine decide_eq_true_iff.trans ⟨.inl, ?_⟩
    rintro (hb | ⟨i, k, hi, -⟩)
    · exact hb
    · exact absurd hi not_live_blank

/-! ### The files -/

def rootEntries (fs : List Input) : List Dirent :=
  [.make dot ROOTINO, .make dotdot ROOTINO] ++ fs.mapIdx fun j f => .make f.stored (j + 2)

def rootBytes (fs : List Input) : List UInt8 := (rootEntries fs).flatMap Dirent.list

def total (fs : List Input) : Nat :=
  sb.nmeta + blocks (DIRENT * (fs.length + 2)) + (fs.map fun f => blocks f.contents.length).sum

/-- The files fit in the image. -/
structure Accepted (fs : List Input) : Prop where
  count : fs.length < NINODES - 1
  size : ∀ f ∈ fs, f.contents.length ≤ MAXFILE * BSIZE
  name : ∀ f ∈ fs, slash ∉ f.stored
  total : total fs ≤ FSSIZE

structure Built (fs : List Input) (s : St) : Prop where
  wf : Wf s
  freeinode : s.freeinode = fs.length + 2
  root : Holds s ROOTINO T_DIR (rootBytes fs)
  file : ∀ j (h : j < fs.length), Holds s (j + 2) T_FILE (fs[j]).contents
  count : s.freeblock = Mkfs.total fs

@[simp] theorem length_list (de : Dirent) : de.list.length = DIRENT := by
  rw [Dirent.list, List.length_map, List.length_range]

theorem length_flatMap_list (es : List Dirent) : (es.flatMap Dirent.list).length = DIRENT * es.length := by
  induction es with
  | nil => rfl
  | cons e es ih =>
    rw [List.flatMap_cons, List.length_append, ih, length_list, List.length_cons, Nat.mul_succ, Nat.add_comm]

theorem length_rootEntries (fs : List Input) : (rootEntries fs).length = fs.length + 2 := by
  rw [rootEntries, List.length_append, List.length_mapIdx]
  exact Nat.add_comm 2 fs.length

theorem length_rootBytes (fs : List Input) : (rootBytes fs).length = DIRENT * (fs.length + 2) := by
  rw [rootBytes, length_flatMap_list, length_rootEntries]

theorem rootBytes_concat (fs : List Input) (f : Input) :
    rootBytes (fs ++ [f]) = rootBytes fs ++ (Dirent.make f.stored (fs.length + 2)).list := by
  rw [rootBytes, rootEntries, List.mapIdx_concat, ← List.append_assoc, List.flatMap_append, List.flatMap_singleton]
  rfl

theorem total_concat (fs : List Input) (f : Input) :
    total (fs ++ [f]) + blocks (DIRENT * (fs.length + 2)) =
      total fs + blocks (DIRENT * (fs.length + 3)) + blocks f.contents.length := by
  unfold total
  rw [List.length_append, List.map_append, List.sum_append, List.length_singleton, List.map_singleton,
    List.sum_singleton, show fs.length + 1 + 2 = fs.length + 3 by omega]
  omega

theorem total_append_le (fs gs : List Input) : total fs ≤ total (fs ++ gs) := by
  have hm : blocks (DIRENT * (fs.length + 2)) ≤ blocks (DIRENT * ((fs ++ gs).length + 2)) := by
    refine blocks_mono (Nat.mul_le_mul_left _ ?_)
    rw [List.length_append]
    omega
  unfold total
  rw [List.map_append, List.sum_append]
  omega

theorem slash_mem_name {f : Input} (h : slash ∉ f.stored) : slash ∉ f.name := by
  unfold Input.stored at h
  rcases hn : f.name with _ | ⟨c, cs⟩
  · exact List.not_mem_nil
  · rw [hn] at h
    split at h
    · rename_i hc
      rw [List.mem_cons, not_or]
      refine ⟨?_, h⟩
      rw [List.head?_cons, Option.some.injEq] at hc
      rw [hc]
      decide
    · exact h

theorem appendAll_run {i : Nat} {t : UInt16} (ps : List (List UInt8)) {s : St} {l : List UInt8} (h : Wf s)
    (hh : Holds s i t l) (hmax : l.length + ps.flatten.length ≤ MAXFILE * BSIZE)
    (hfit : s.freeblock + blocks (l.length + ps.flatten.length) ≤ FSSIZE + blocks l.length) :
    ∃ s', appendAll i ps s = (.ok (), s') ∧ Appended i s s' ∧ Holds s' i t (l ++ ps.flatten) ∧
      s'.freeblock + blocks l.length = s.freeblock + blocks (l.length + ps.flatten.length) := by
  induction ps generalizing s l with
  | nil =>
    refine ⟨s, rfl, ⟨h, rfl, fun _ _ => rfl, fun _ _ _ _ => rfl⟩, ?_, rfl⟩
    rw [List.flatten_nil, List.append_nil]
    exact hh
  | cons p ps ih =>
    rw [List.flatten_cons, List.length_append] at hmax hfit
    have hmono : blocks (l.length + p.length) ≤ blocks (l.length + (p.length + ps.flatten.length)) :=
      blocks_mono (by omega)
    obtain ⟨s1, hrun1, happ1, hhold1, hcount1⟩ := iappend_run h hh (p := p) (by omega) (by omega)
    have hlen : (l ++ p).length = l.length + p.length := List.length_append
    obtain ⟨s2, hrun2, happ2, hhold2, hcount2⟩ := ih happ1.wf hhold1 (by rw [hlen]; omega)
      (by rw [hlen, Nat.add_assoc]; omega)
    rw [hlen, Nat.add_assoc] at hcount2
    rw [List.append_assoc] at hhold2
    refine ⟨s2, ?_, happ1.trans happ2, ?_, ?_⟩
    · rw [appendAll, Exec.bind_of_ok hrun1, hrun2]
    · rw [List.flatten_cons]
      exact hhold2
    · rw [List.flatten_cons, List.length_append]
      omega

theorem addFile_run {fs : List Input} {f : Input} {s : St} (h : Built fs s) (ha : Accepted (fs ++ [f])) :
    ∃ s', addFile ROOTINO f s = (.ok (), s') ∧ Built (fs ++ [f]) s' := by
  have hf : f ∈ fs ++ [f] := List.mem_append_right _ (List.mem_singleton_self f)
  have hcount := ha.count
  rw [List.length_append, List.length_singleton] at hcount
  have hnum : s.freeinode < NINODES := by rw [h.freeinode]; simp only [NINODES] at *; omega
  have htot := total_concat fs f
  have hle := ha.total
  have hfb := h.count
  have hmono : blocks (DIRENT * (fs.length + 2)) ≤ blocks (DIRENT * (fs.length + 3)) :=
    blocks_mono (Nat.mul_le_mul_left _ (by omega))
  have hlen : (rootBytes fs).length + (Dirent.make f.stored (fs.length + 2)).list.length = DIRENT * (fs.length + 3) := by
    rw [length_rootBytes, length_list, ← Nat.mul_succ]
  have hroot := Holds.new (t := T_FILE) h.wf hnum h.root
  have hnew := holds_new (t := T_FILE) hnum h.wf.pos (by decide)
  rw [h.freeinode] at hnew
  have hfresh : (s.new T_FILE).freeblock = s.freeblock := rfl
  obtain ⟨s2, hrun2, happ2, hroot2, hcount2⟩ := iappend_run (p := (Dirent.make f.stored (fs.length + 2)).list)
    (h.wf.new hnum) hroot (by rw [hlen]; simp only [DIRENT, MAXFILE, NDIRECT, NINDIRECT, BSIZE, NINODES] at *; omega)
    (by rw [hlen, length_rootBytes]; omega)
  rw [hlen, length_rootBytes] at hcount2
  have hz : blocks ([] : List UInt8).length = 0 := rfl
  have hempty : ([] : List UInt8).length + f.pieces.flatten.length = f.contents.length := Nat.zero_add _
  obtain ⟨s3, hrun3, happ3, hfile3, hcount3⟩ := appendAll_run f.pieces happ2.wf
    (hnew.appended happ2 (by simp only [ROOTINO]; omega)) (by rw [hempty]; exact ha.size f hf)
    (by rw [hempty, hz]; omega)
  rw [hempty, hz] at hcount3
  rw [addFile, if_neg (slash_mem_name (ha.name f hf)), Exec.bind_of_ok (ialloc_run h.wf hnum), h.freeinode,
    Exec.bind_of_ok hrun2]
  refine ⟨s3, hrun3, happ3.wf, ?_, ?_, fun j hj => ?_, by omega⟩
  · rw [happ3.freeinode, happ2.freeinode, List.length_append, List.length_singleton]
    show s.freeinode + 1 = _
    rw [h.freeinode]
  · rw [rootBytes_concat]
    exact hroot2.appended happ3 (by simp only [ROOTINO]; omega)
  · rw [List.length_append, List.length_singleton] at hj
    by_cases hlast : j < fs.length
    · rw [List.getElem_append_left hlast]
      have hkeep := Holds.new (t := T_FILE) h.wf hnum (h.file j hlast)
      exact (hkeep.appended happ2 (by simp only [ROOTINO]; omega)).appended happ3 (by omega)
    · obtain rfl : j = fs.length := by omega
      rw [List.getElem_concat_length rfl]
      exact hfile3

theorem Accepted.append_left {fs gs : List Input} (h : Accepted (fs ++ gs)) : Accepted fs := by
  refine ⟨?_, fun f hf => h.size f (List.mem_append_left _ hf), fun f hf => h.name f (List.mem_append_left _ hf),
    (total_append_le fs gs).trans h.total⟩
  have := h.count
  rw [List.length_append] at this
  omega

theorem addFiles_run {fs : List Input} (gs : List Input) {s : St} (h : Built fs s) (ha : Accepted (fs ++ gs)) :
    ∃ s', addFiles ROOTINO gs s = (.ok (), s') ∧ Built (fs ++ gs) s' := by
  induction gs generalizing fs s with
  | nil => exact ⟨s, rfl, by rwa [List.append_nil]⟩
  | cons g gs ih =>
    have hcons : fs ++ g :: gs = (fs ++ [g]) ++ gs := List.append_cons fs g gs
    rw [hcons] at ha ⊢
    obtain ⟨s1, hrun, hb⟩ := addFile_run h ha.append_left
    obtain ⟨s2, hrun2, hb2⟩ := ih hb ha
    exact ⟨s2, by rw [addFiles, Exec.bind_of_ok hrun, hrun2], hb2⟩

/-! ### The end of the program -/

theorem bit_bitmap {n : Nat} (hn : n ≤ BPB) (j : Nat) : (bitmap n).bit j = decide (j < n) := by
  induction n with
  | zero => exact (Bytes.bit_zero j).trans (decide_eq_false (Nat.not_lt_zero j)).symm
  | succ n ih =>
    have hb : bitmap (n + 1) = (bitmap n).setBit n := by
      rw [bitmap, List.range_succ, List.foldl_append]
      rfl
    rw [hb, Bytes.bit_setBit _ (by simp only [BPB, BSIZE] at *; omega), ih (by omega), ← Bool.decide_or]
    exact decide_eq_decide.2 (by omega)

def rounded (z : Nat) : Nat := (z / BSIZE + 1) * BSIZE

def fixedRoot (s : St) : Dinode := resized (s.dinode ROOTINO) (UInt32.ofNat (rounded (s.dinode ROOTINO).size.toNat))

/-- The image that is left when `mkfs` exits. -/
def finish (s : St) : St := (s.put ROOTINO (fixedRoot s)).setSect sb.bmapstart (bitmap s.freeblock)

theorem holds_append_dots {s : St} (h : Wf s) (hroot : Holds s ROOTINO T_DIR []) (hi : s.freeinode = 2)
    (hb : s.freeblock = nmeta) :
    ∃ s₁ s₂, iappend ROOTINO (Dirent.make dot ROOTINO).list s = (.ok (), s₁) ∧
      iappend ROOTINO (Dirent.make dotdot ROOTINO).list s₁ = (.ok (), s₂) ∧ Built [] s₂ := by
  obtain ⟨s₁, hrun1, happ1, hroot1, hcount1⟩ := iappend_run (p := (Dirent.make dot ROOTINO).list) h hroot
    (by rw [length_list]; decide) (by rw [length_list, hb]; decide)
  rw [length_list, hb] at hcount1
  rw [List.nil_append] at hroot1
  have hb1 : s₁.freeblock = 60 := hcount1
  obtain ⟨s₂, hrun2, happ2, hroot2, hcount2⟩ := iappend_run (p := (Dirent.make dotdot ROOTINO).list) happ1.wf hroot1
    (by rw [length_list, length_list]; decide) (by rw [length_list, length_list, hb1]; decide)
  rw [length_list, length_list, hb1] at hcount2
  have hb2 : s₂.freeblock + 1 = 60 + 1 := hcount2
  refine ⟨s₁, s₂, hrun1, hrun2, happ2.wf, ?_, ?_, fun j hj => absurd hj (Nat.not_lt_zero j), Nat.add_right_cancel hb2⟩
  · rw [happ2.freeinode, happ1.freeinode, hi]
    rfl
  · have hbytes : rootBytes [] = (Dirent.make dot ROOTINO).list ++ (Dirent.make dotdot ROOTINO).list := by
      rw [rootBytes, rootEntries, List.mapIdx_nil, List.append_nil, List.flatMap_cons, List.flatMap_singleton]
    rw [hbytes]
    exact hroot2

theorem main_run {fs : List Input} (h : Accepted fs) : ∃ s, main fs init = (.ok (), finish s) ∧ Built fs s := by
  have hwipe : wipe (List.range FSSIZE) ⟨0, fun _ => Bytes.zero BSIZE, 1, nmeta⟩ =
      (.ok (), ⟨FSSIZE, fun _ => Bytes.zero BSIZE, 1, nmeta⟩) := by
    have hrun := wipe_run (List.range FSSIZE) (s := ⟨0, fun _ => Bytes.zero BSIZE, 1, nmeta⟩) rfl
    rwa [foldl_range] at hrun
  have hblank : wsect 1 sbBlock ⟨FSSIZE, fun _ => Bytes.zero BSIZE, 1, nmeta⟩ = (.ok (), blank) := rfl
  have hnum : blank.freeinode < NINODES := by decide
  have halloc : ialloc T_DIR blank = (.ok ROOTINO, blank.new T_DIR) := ialloc_run wf_blank hnum
  have hnew := holds_new (s := blank) (t := T_DIR) hnum Nat.one_pos (by decide)
  obtain ⟨s1, s2, hrun1, hrun2, hb⟩ := holds_append_dots (wf_blank.new hnum) hnew rfl rfl
  obtain ⟨s3, hrun3, hb3⟩ := addFiles_run fs hb h
  have hroot : ROOTINO < NINODES := by decide
  have hns := hb3.wf.nsect
  have hlt : s3.freeblock < BSIZE * 8 := by
    have := hb3.wf.le_size
    simp only [FSSIZE, BSIZE] at *
    omega
  refine ⟨s3, ?_, hb3⟩
  have hinit : (Exec.modify fun s : St => { s with freeblock := nmeta } : MkM Unit) init =
      (.ok (), ⟨0, fun _ => Bytes.zero BSIZE, 1, nmeta⟩) := rfl
  rw [main, Exec.bind_of_ok hinit, Exec.bind_of_ok hwipe, Exec.bind_of_ok hblank, Exec.bind_of_ok halloc,
    if_neg (not_not.2 rfl), Exec.bind_of_ok hrun1, Exec.bind_of_ok hrun2, Exec.bind_of_ok hrun3]
  have hfix : fixRoot ROOTINO s3 = (.ok (), s3.put ROOTINO (fixedRoot s3)) := by
    rw [fixRoot, Exec.bind_of_ok (rinode_run hns hroot), winode_run hns hroot]
    rfl
  rw [Exec.bind_of_ok hfix]
  show balloc s3.freeblock _ = _
  rw [balloc, if_pos hlt, wsect_run]
  · rfl
  · show sb.bmapstart < s3.nsect
    rw [hns]
    decide

/-! ### The image as the kernel sees it -/

/-- The kernel over the image, before it has read an inode. -/
def St.mount (s : St) : Fs :=
  ⟨Superblock.read (s.sect 1), s.sect, [], 0, fun _ => ⟨default, 0, 0, 0, false, false⟩, fun _ => ⟨none, none⟩⟩

/-- No holes, no block with two owners, and a free map that says which blocks are owned. -/
structure WellFormed (s : St) : Prop where
  ok : s.mount.view.Ok s.mount.sb
  unused : ∀ i, i < s.mount.sb.ninodes → ¬ s.mount.view.Live s.mount.sb i → s.mount.view.inode i = default

/-- The kernel over the image after it has read some inodes. -/
structure Mounted (s : St) (k : Fs) : Prop where
  sb : k.sb = Superblock.read (s.sect 1)
  disk : k.disk = s.sect
  cache : k.CacheOk
  clean : ∀ ip, 0 < (k.icache ip).ref → (k.icache ip).valid = true → k.Clean ip

/-- Reading changes nothing, so it allocates no block. -/
def ReadsOnly (s : St) : Prop :=
  ∀ k ip off n, Mounted s k → 0 < (k.icache ip).ref → (k.icache ip).valid = true → (k.icache ip).type ≠ 0 →
    ∃ r, readi ip off n k = (.ok r, k)

theorem mounted_mount (s : St) : Mounted s s.mount :=
  ⟨rfl, rfl, ⟨fun _ => le_rfl, fun _ h => absurd h (lt_irrefl _), fun _ _ h => absurd h (lt_irrefl _),
    fun _ h => absurd h (lt_irrefl _)⟩, fun _ h => absurd h (lt_irrefl _)⟩

section Kernel

variable {s : St} {k : Fs} {ip : Slot}

theorem Mounted.cur (h : Mounted s k) (i : Nat) : k.cur i = k.dinode i := by
  by_cases hk : ∃ ip, k.Holds i ip
  · obtain ⟨ip, hip⟩ := hk
    have hclean := h.clean ip hip.1 hip.2.1
    rw [h.cache.cur_of_holds hip, ← hclean, hip.2.2]
  · exact Fs.cur_of_not fun ip hip => hk ⟨ip, hip⟩

theorem Mounted.dinode (h : Mounted s k) (i : Nat) : k.dinode i = s.mount.dinode i := by
  unfold Fs.dinode
  rw [h.sb, h.disk]
  rfl

theorem Mounted.view (h : Mounted s k) : k.view = s.mount.view := by
  refine Fs.view_congr h.sb (fun i _ => ?_) (fun b _ => ?_) fun b _ => ?_
  · rw [h.cur, (mounted_mount s).cur, h.dinode]
  · unfold Fs.bit
    rw [h.sb, h.disk]
    rfl
  · rw [h.disk]
    rfl

theorem Mounted.isOpen (h : Mounted s k) (hsb : s.mount.sb.Ok) (hw : s.mount.view.Owned s.mount.sb)
    (hr : 0 < (k.icache ip).ref) (hv : (k.icache ip).valid = true) (ht : (k.icache ip).type ≠ 0) : k.Open ip := by
  refine ⟨?_, h.cache, ?_, hr, hv, ht⟩
  · rw [h.sb]
    exact hsb
  · rw [h.view, h.sb]
    exact hw

end Kernel

section Finish

variable {fs : List Input} {s : St} (h : Built fs s)

theorem read_sbBlock : Superblock.read sbBlock = sb := by decide +kernel

theorem sb_ok : sb.Ok := ⟨by decide, by decide, by decide⟩

theorem finish_sect {b : Nat} (hb : b ≠ sb.bmapstart) : (finish s).mount.disk b = (s.put ROOTINO (fixedRoot s)).sect b :=
  setSect_ne hb

include h

theorem finish_sb : (finish s).mount.sb = sb := by
  have hs : (finish s).sect 1 = sbBlock := by
    rw [finish, setSect_ne (by decide), put_sect_ne (by decide) (.inl rfl)]
    exact h.wf.super
  show Superblock.read ((finish s).sect 1) = sb
  rw [hs, read_sbBlock]

theorem finish_inode {i : Nat} (hi : i < NINODES) :
    (finish s).mount.view.inode i = if i = ROOTINO then fixedRoot s else s.dinode i := by
  have hsb := finish_sb h
  have hb : sb.iblock i < sb.bmapstart := sb_ok.iblock_lt hi
  rw [Fs.view_inode (by rw [hsb]; exact hi), (mounted_mount _).cur, Fs.dinode, hsb, finish_sect (by omega),
    ← dinode_put]
  rfl

theorem finish_bit {b : Nat} (hb : b < FSSIZE) : (finish s).mount.bit b = decide (b < s.freeblock) := by
  have hblk : sb.bblock b = sb.bmapstart := by
    unfold Superblock.bblock
    simp only [FSSIZE, BPB, BSIZE] at *
    omega
  have hmod : b % BPB = b := by simp only [FSSIZE, BPB, BSIZE] at *; omega
  have hle := h.wf.le_size
  have hd : (finish s).mount.disk sb.bmapstart = bitmap s.freeblock := by
    show (finish s).sect sb.bmapstart = _
    rw [finish, setSect_self]
  rw [Fs.bit, finish_sb h, hblk, hmod, hd, bit_bitmap (by simp only [FSSIZE, BPB, BSIZE] at *; omega)]

/-- The store the kernel sees is the one that was built, with the new size of the root. -/
theorem finish_view : ∃ u : Nat → Bool, (∀ b, b < FSSIZE → u b = decide (b < s.freeblock)) ∧
    (finish s).mount.view = { s.store.setInode ROOTINO (fixedRoot s) with used := u } := by
  have hsb := finish_sb h
  refine ⟨(finish s).mount.view.used, fun b hb => ?_, Store.ext (funext fun i => ?_) rfl (funext fun b => ?_)⟩
  · rw [Fs.view_used (by rw [hsb]; exact hb), finish_bit h hb]
  · show (finish s).mount.view.inode i = (s.store.setInode ROOTINO (fixedRoot s)).inode i
    by_cases hi : i < NINODES
    · rw [finish_inode h hi]
      split
      · rename_i he
        rw [he, Store.setInode_self]
      · rename_i he
        rw [Store.setInode_ne he, store_inode hi]
    · have hne : i ≠ ROOTINO := by
        rintro rfl
        exact hi (by decide)
      rw [Store.setInode_ne hne]
      exact (if_neg (by rw [hsb]; exact hi)).trans (if_neg hi).symm
  · show (if b < (finish s).mount.sb.nmeta then _ else (finish s).mount.disk b) = if b < sb.nmeta then _ else s.sect b
    rw [hsb]
    split
    · rfl
    · have hb : sb.bmapstart < sb.nmeta := by decide
      rw [finish_sect (by omega), put_sect_ne (by decide) (.inr (by omega))]

omit h in
theorem fixedRoot_addr (k : Nat) : (fixedRoot s).addr k = (s.store.inode ROOTINO).addr k := by
  rw [store_inode (by decide)]
  rfl

theorem finish_ref {i l : Nat} : (finish s).mount.view.ref i l = s.store.ref i l := by
  obtain ⟨u, -, hu⟩ := finish_view h
  rw [hu]
  exact Store.ref_setInode fixedRoot_addr

theorem finish_live {i : Nat} : (finish s).mount.view.Live sb i ↔ s.store.Live sb i := by
  obtain ⟨u, -, hu⟩ := finish_view h
  rw [hu]
  have ht : (fixedRoot s).type ≠ 0 ↔ (s.store.inode ROOTINO).type ≠ 0 := by
    rw [store_inode (by decide)]
    rfl
  exact Store.live_setInode ht

theorem finish_owned : (finish s).mount.view.Owned sb := by
  obtain ⟨u, hbit, hu⟩ := finish_view h
  refine h.wf.owned.congr (fun _ => finish_live h) (fun _ _ _ => finish_ref h) fun b hb => ?_
  rw [hu]
  exact hbit b hb

theorem root_size : (s.dinode ROOTINO).size.toNat = DIRENT * (fs.length + 2) := by
  rw [← length_rootBytes, ← h.root.size, store_inode (by decide)]

theorem fixedRoot_size (hlen : fs.length < NINODES - 1) :
    (fixedRoot s).size.toNat = rounded (DIRENT * (fs.length + 2)) := by
  show (UInt32.ofNat _).toNat = _
  rw [root_size h, UInt32.toNat_ofNat']
  refine Nat.mod_eq_of_lt ?_
  unfold rounded
  simp only [NINODES, DIRENT, BSIZE] at *
  omega

/-- The root has a block for every byte of its size exactly if its entries do not end at a block boundary. -/
theorem root_full_iff (hlen : fs.length < NINODES - 1) :
    (∀ bn, bn * BSIZE < (fixedRoot s).size.toNat → s.store.ref ROOTINO (Store.slot bn) ≠ 0) ↔
      DIRENT * (fs.length + 2) % BSIZE ≠ 0 := by
  have hneed : ∀ bn, s.store.ref ROOTINO (Store.slot bn) ≠ 0 ↔ bn * BSIZE < DIRENT * (fs.length + 2) := fun bn => by
    rw [h.wf.need _ _ h.root.live, need_slot, h.root.size, length_rootBytes]
  rw [fixedRoot_size h hlen]
  unfold rounded
  constructor
  · intro hfull hmod
    have hlast := hfull (DIRENT * (fs.length + 2) / BSIZE) (by simp only [BSIZE]; omega)
    rw [hneed] at hlast
    simp only [BSIZE] at *
    omega
  · intro hmod bn hbn
    rw [hneed]
    simp only [BSIZE] at *
    omega

theorem finish_ok_iff (hlen : fs.length < NINODES - 1) :
    (finish s).mount.view.Ok sb ↔ DIRENT * (fs.length + 2) % BSIZE ≠ 0 := by
  have hroot : ROOTINO < NINODES := by decide
  rw [← root_full_iff h hlen]
  constructor
  · intro hok bn hbn
    have hfull := hok.full ROOTINO bn ((finish_live h).2 h.root.live)
    rw [finish_inode h hroot, if_pos rfl, finish_ref h] at hfull
    exact hfull hbn
  · intro hfull
    refine ⟨finish_owned h, fun i hi => ?_, fun i bn hi hbn => ?_⟩
    · rw [finish_inode h hi.2.1]
      split
      · rw [fixedRoot_size h hlen]
        unfold rounded
        simp only [MAXFILE, NDIRECT, NINDIRECT, NINODES, DIRENT, BSIZE] at *
        omega
      · rw [← store_inode hi.2.1]
        exact h.wf.size_le i ((finish_live h).1 hi)
    · rw [finish_ref h]
      rw [finish_inode h hi.2.1] at hbn
      split at hbn
      · rename_i he
        rw [he]
        exact hfull bn hbn
      · rw [← store_inode hi.2.1] at hbn
        exact h.wf.ok.full i bn ((finish_live h).1 hi) hbn

theorem Built.holds {i : Nat} (hi : s.store.Live sb i) :
    i = ROOTINO ∨ ∃ j, ∃ hj : j < fs.length, i = j + 2 ∧ Holds s i T_FILE (fs[j]).contents := by
  by_cases hr : i = ROOTINO
  · exact .inl hr
  · have hlt : i < s.freeinode := by
      by_contra hge
      exact hi.2.2 (by rw [h.wf.spare i hi.2.1 (.inr (by omega))]; rfl)
    have hpos := hi.1
    have hnum := h.freeinode
    have hj : i - 2 < fs.length := by
      simp only [ROOTINO] at hr
      omega
    obtain ⟨j, rfl⟩ : ∃ j, i = j + 2 := ⟨i - 2, by simp only [ROOTINO] at hr; omega⟩
    exact .inr ⟨j, by omega, rfl, h.file j (by omega)⟩

theorem finish_type {i : Nat} (hi : (finish s).mount.view.Live sb i) :
    ((finish s).mount.view.inode i).type ≠ T_DEV := by
  have hl := (finish_live h).1 hi
  rw [finish_inode h hi.2.1]
  split
  · show (s.dinode ROOTINO).type ≠ T_DEV
    rw [← store_inode (by decide), h.root.type]
    decide
  · rename_i hr
    rcases h.holds hl with he | ⟨j, hj, -, hf⟩
    · exact absurd he hr
    · rw [← store_inode hi.2.1, hf.type]
      decide

theorem finish_unused {i : Nat} (hi : i < NINODES) (hn : ¬ (finish s).mount.view.Live sb i) :
    (finish s).mount.view.inode i = default := by
  rw [finish_live h] at hn
  have hne : i ≠ ROOTINO := by
    rintro rfl
    exact hn h.root.live
  rw [finish_inode h hi, if_neg hne, ← store_inode hi]
  refine h.wf.spare i hi ?_
  by_contra hc
  have hj : i - 2 + 2 = i := by
    simp only [ROOTINO] at hne
    omega
  have := h.freeinode
  have hf := (h.file (i - 2) (by omega)).live
  rw [hj] at hf
  exact hn hf

theorem finish_readsOnly (hok : (finish s).mount.view.Ok sb) : ReadsOnly (finish s) := by
  intro k ip off n hk hr hv ht
  have hsb : k.sb = sb := hk.sb.trans (finish_sb h)
  have hopen : k.Open ip := by
    refine hk.isOpen ?_ ?_ hr hv ht
    · rw [finish_sb h]
      exact sb_ok
    · rw [finish_sb h]
      exact hok.toOwned
  have hlive : (finish s).mount.view.Live sb (k.icache ip).inum := by
    rw [← hk.view, ← hsb]
    exact hopen.live
  have hinode : (finish s).mount.view.inode (k.icache ip).inum = (k.icache ip).toDinode := by
    rw [← hk.view]
    exact hopen.inode
  refine ⟨_, Fs.readi_eq hopen ?_ (fun pos _ _ hpos => ?_) ?_⟩
  · rw [← hinode]
    exact finish_type h hlive
  · rw [hk.view]
    refine hok.full _ _ hlive ?_
    rw [hinode]
    simp only [BSIZE]
    omega
  · refine (min_le_right _ _).trans ?_
    rw [← hinode]
    exact hok.size_le _ hlive

end Finish

/-! ### Which images are well formed -/

theorem main_wellFormed_iff {fs : List Input} (h : Accepted fs) :
    ∃ s, main fs init = (.ok (), s) ∧ (WellFormed s ∧ ReadsOnly s ↔ DIRENT * (fs.length + 2) % BSIZE ≠ 0) := by
  obtain ⟨s, hrun, hb⟩ := main_run h
  have hiff := finish_ok_iff hb h.count
  refine ⟨finish s, hrun, fun hw => hiff.1 ?_, fun hmod => ⟨⟨?_, fun i hi hn => ?_⟩, finish_readsOnly hb (hiff.2 hmod)⟩⟩
  · rw [← finish_sb hb]
    exact hw.1.ok
  · rw [finish_sb hb]
    exact hiff.2 hmod
  · rw [finish_sb hb] at hi hn
    exact finish_unused hb hi hn

/-- An image without files. -/
theorem main_wellFormed_iff_nil :
    ∃ s, main [] init = (.ok (), s) ∧ (WellFormed s ∧ ReadsOnly s ↔ DIRENT * 2 % BSIZE ≠ 0) :=
  main_wellFormed_iff ⟨by decide, nofun, nofun, by decide⟩

theorem letter_ne_zero (i : Fin 30) : UInt8.ofNat (97 + i.val) ≠ 0 := by
  revert i
  decide

/-- Thirty empty files: with the entries of `.` and `..` they fill the first block of the root. -/
def thirty : List Input :=
  (List.finRange 30).map fun i => ⟨[UInt8.ofNat (97 + i.val)], [],
    fun _ hc => List.mem_singleton.1 hc ▸ letter_ne_zero i, nofun⟩

theorem thirty_accepted : Accepted thirty :=
  ⟨by decide, by decide, by decide, by decide⟩

theorem thirty_not_wellFormed : ∃ s, main thirty init = (.ok (), s) ∧ ¬ WellFormed s := by
  obtain ⟨s, hrun, hb⟩ := main_run thirty_accepted
  refine ⟨finish s, hrun, fun hw => ?_⟩
  have hok := hw.ok
  rw [finish_sb hb, finish_ok_iff hb thirty_accepted.count] at hok
  exact hok (by decide)

end Xv6.Mkfs
