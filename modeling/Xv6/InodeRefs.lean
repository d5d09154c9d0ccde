import Xv6.Sysfile

/-!
# References to cached inodes

`Held b I s` says that the reference count of every cache entry is what others hold of it (`b`) and
what the running code holds (`I`). `Uses b I m I'` is a rule about programs: from what it holds at the
start, `m` gets to what it holds at the end, and the entries that others hold are not recycled.
-/

namespace Xv6.Fs

open Function Exec

variable {s s' : Fs} {ip k : Slot}

structure SameRefs (s s' : Fs) : Prop where
  ref : ∀ k, (s'.icache k).ref = (s.icache k).ref
  dev : ∀ k, (s'.icache k).dev = (s.icache k).dev
  inum : ∀ k, (s'.icache k).inum = (s.icache k).inum

namespace SameRefs

instance : Std.Refl SameRefs := ⟨fun _ => ⟨fun _ => rfl, fun _ => rfl, fun _ => rfl⟩⟩

instance : IsTrans Fs SameRefs :=
  ⟨fun _ _ _ h h' => ⟨fun k => (h'.ref k).trans (h.ref k), fun k => (h'.dev k).trans (h.dev k),
    fun k => (h'.inum k).trans (h.inum k)⟩⟩

theorem of_icache (h : s'.icache = s.icache) : SameRefs s s' := by
  refine ⟨?_, ?_, ?_⟩ <;> intro k <;> rw [h]

theorem setSlot {x : Inode} (h : x.ref = (s.icache ip).ref ∧ x.dev = (s.icache ip).dev ∧ x.inum = (s.icache ip).inum) :
    SameRefs s (s.setSlot ip x) := by
  refine ⟨?_, ?_, ?_⟩ <;> intro k <;> by_cases hk : k = ip
  · rw [hk, setSlot_icache_self, h.1]
  · rw [setSlot_icache_ne hk]
  · rw [hk, setSlot_icache_self, h.2.1]
  · rw [setSlot_icache_ne hk]
  · rw [hk, setSlot_icache_self, h.2.2]
  · rw [setSlot_icache_ne hk]

end SameRefs

theorem modify_refs {g : Fs → Inode} (h : ∀ s, (g s).ref = (s.icache ip).ref ∧ (g s).dev = (s.icache ip).dev ∧
    (g s).inum = (s.icache ip).inum) : Moves SameRefs (Exec.modify fun s => s.setSlot ip (g s) : FsM Unit) :=
  .modify fun s => .setSlot (h s)

/-! ### What does not change references -/

theorem logWrite_refs (b : Nat) (x : Block) : Moves SameRefs (logWrite b x) :=
  .bind .get fun _ => .ite (.stop _) (.ite (.stop _) (.modify fun _ => .of_icache rfl))

theorem beginOp_refs : Moves SameRefs beginOp := .modify fun _ => .of_icache rfl

theorem endOp_refs : Moves SameRefs endOp := .modify fun _ => .of_icache rfl

theorem balloc_refs : Moves SameRefs balloc := by
  refine .bind .get fun s => ?_
  split
  · exact .stop _
  · exact .bind (logWrite_refs _ _) fun _ => .bind (logWrite_refs _ _) fun _ => .pure _

theorem bfree_refs (b : Nat) : Moves SameRefs (bfree b) := .bind .get fun _ => .ite (.stop _) (logWrite_refs _ _)

theorem iupdate_refs (ip : Slot) : Moves SameRefs (iupdate ip) := .bind .get fun _ => logWrite_refs _ _

theorem setNlink_refs (ip : Slot) (f : UInt16 → UInt16) : Moves SameRefs (setNlink ip f) :=
  modify_refs fun _ => ⟨rfl, rfl, rfl⟩

theorem acquiresleep_refs (ip : Slot) : Moves SameRefs (acquiresleep ip) := by
  intro s
  show SameRefs s ((if (s.icache ip).locked then _ else _ : FsM Unit) s).2
  split
  · exact refl_of SameRefs s
  · exact .setSlot ⟨rfl, rfl, rfl⟩

theorem releasesleep_refs (ip : Slot) : Moves SameRefs (releasesleep ip) := modify_refs fun _ => ⟨rfl, rfl, rfl⟩

theorem ilock_refs (ip : Slot) : Moves SameRefs (ilock ip) := by
  refine .bind .get fun s => .ite (.stop _) (.bind (acquiresleep_refs ip) fun _ => .ite (.pure _) ?_)
  exact .bind (modify_refs fun _ => ⟨rfl, rfl, rfl⟩) fun _ => .ite (.stop _) (.pure _)

theorem iunlock_refs (ip : Slot) : Moves SameRefs (iunlock ip) :=
  .bind .get fun _ => .ite (.stop _) (releasesleep_refs ip)

theorem bmapAddr_refs (ip : Slot) (k : Nat) : Moves SameRefs (bmapAddr ip k) := by
  refine .bind .get fun s => .ite ?_ (.pure _)
  exact .bind balloc_refs fun _ => .bind (modify_refs fun _ => ⟨rfl, rfl, rfl⟩) fun _ => .pure _

theorem bmapEntry_refs (ind : UInt32) (j : Nat) : Moves SameRefs (bmapEntry ind j) := by
  refine .bind .get fun s => .ite ?_ (.pure _)
  exact .bind balloc_refs fun _ => .bind (logWrite_refs _ _) fun _ => .pure _

theorem bmap_refs (ip : Slot) (bn : Nat) : Moves SameRefs (bmap ip bn) :=
  .ite (bmapAddr_refs _ _) (.ite (.bind (bmapAddr_refs _ _) fun _ => bmapEntry_refs _ _) (.stop _))

theorem bfreeAll_refs (as : List Nat) : Moves SameRefs (bfreeAll as) := by
  induction as with
  | nil => exact .pure _
  | cons a as ih =>
    unfold bfreeAll
    dsimp only
    split
    · exact .bind (bfree_refs a) fun _ => ih
    · exact ih

theorem itruncDirect_refs (ip : Slot) (ks : List Nat) : Moves SameRefs (itruncDirect ip ks) := by
  induction ks with
  | nil => exact .pure _
  | cons k ks ih =>
    refine .bind .get fun s => ?_
    dsimp only
    split
    · exact .bind (bfree_refs _) fun _ => .bind (modify_refs fun _ => ⟨rfl, rfl, rfl⟩) fun _ => ih
    · exact ih

theorem itrunc_refs (ip : Slot) : Moves SameRefs (itrunc ip) := by
  refine .bind (itruncDirect_refs _ _) fun _ => .bind .get fun s => ?_
  have hsize : Moves SameRefs (do
      Exec.modify fun s => s.setSlot ip { s.icache ip with size := 0 }
      iupdate ip : FsM Unit) :=
    .bind (modify_refs fun _ => ⟨rfl, rfl, rfl⟩) fun _ => iupdate_refs ip
  dsimp only
  split
  · exact .bind (bfreeAll_refs _) fun _ => .bind (bfree_refs _) fun _ =>
      .bind (modify_refs fun _ => ⟨rfl, rfl, rfl⟩) fun _ => hsize
  · exact hsize

theorem readLoop_refs (ip : Slot) (fuel off n : Nat) : Moves SameRefs (readLoop ip fuel off n) := by
  induction fuel generalizing off n with
  | zero => exact .pure _
  | succ fuel ih =>
    refine .ite (.pure _) ?_
    exact .bind (bmap_refs _ _) fun _ => .bind .get fun _ => .bind (ih _ _) fun _ => .pure _

theorem readi_refs (ip : Slot) (off n : UInt32) : Moves SameRefs (readi ip off n) := by
  refine .bind .get fun s => .ite (.pure _) (.ite (.pure _) ?_)
  exact .bind (readLoop_refs _ _ _ _) fun _ => .pure _

theorem writeLoop_refs (ip : Slot) (fuel : Nat) (src : Nat → UInt8) (off n : Nat) :
    Moves SameRefs (writeLoop ip fuel src off n) := by
  induction fuel generalizing src off n with
  | zero => exact .pure _
  | succ fuel ih =>
    refine .ite (.pure _) ?_
    exact .bind (bmap_refs _ _) fun _ => .bind .get fun _ => .bind (logWrite_refs _ _) fun _ => ih _ _ _

theorem writei_refs (ip : Slot) (src : Nat → UInt8) (off n : UInt32) : Moves SameRefs (writei ip src off n) := by
  refine .bind .get fun s => .ite (.pure _) (.ite (.pure _) (.ite (.pure _) ?_))
  refine .bind (writeLoop_refs _ _ _ _ _) fun _ => .ite ?_ (.pure _)
  exact .bind (modify_refs fun _ => ⟨rfl, rfl, rfl⟩) fun _ => .bind (iupdate_refs ip) fun _ => .pure _

theorem dirScan_refs (dp : Slot) (msg : String) (p : Dirent → Bool) (fuel off : Nat) :
    Moves SameRefs (dirScan dp msg p fuel off) := by
  induction fuel generalizing off with
  | zero => exact .pure _
  | succ fuel ih =>
    refine .bind .get fun s => .ite (.bind (readi_refs _ _ _) fun bs => ?_) (.pure _)
    split
    · exact .stop _
    · exact .ite (.stop _) (.ite (.pure _) (ih _))

theorem isdirempty_refs (dp : Slot) : Moves SameRefs (isdirempty dp) :=
  .bind .get fun _ => .bind (dirScan_refs _ _ _ _ _) fun _ => .pure _

theorem dirBusy_refs (ip : Slot) : Moves SameRefs (dirBusy ip) := by
  exact .bind .get fun s => .ite (.bind (isdirempty_refs ip) fun _ => .pure _) (.pure _)

theorem writeDirent_refs (dp : Slot) (msg : String) (de : Dirent) (off : Nat) :
    Moves SameRefs (writeDirent dp msg de off) :=
  .bind (writei_refs _ _ _ _) fun _ => .ite (.stop _) (.pure _)

theorem loaduvm_refs (ip : Slot) (offset sz fuel i : Nat) : Moves SameRefs (loaduvm ip offset sz fuel i) := by
  induction fuel generalizing i with
  | zero => exact .pure _
  | succ fuel ih =>
    refine .ite (.bind (readi_refs _ _ _) fun bs => ?_) (.pure _)
    split
    · exact ih _
    · exact .pure _

theorem loadSegments_refs (ip : Slot) (mem : Nat → Bool) (n off : Nat) :
    Moves SameRefs (loadSegments ip mem n off) := by
  induction n generalizing off with
  | zero => exact .pure _
  | succ n ih =>
    refine .bind (readi_refs _ _ _) fun bs => ?_
    split
    · exact .pure _
    refine .ite (.pure _) (.ite (ih _) (.ite (.pure _) (.ite (.pure _) (.ite (.pure _) (.ite (.pure _) ?_)))))
    exact .bind (loaduvm_refs _ _ _ _ _) fun ok => .ite (ih _) (.pure _)

theorem loadImage_refs (ip : Slot) (kvm : Bool) (mem : Nat → Bool) : Moves SameRefs (loadImage ip kvm mem) := by
  refine .bind (readi_refs _ _ _) fun bs => ?_
  split
  · exact .pure _
  · exact .ite (.pure _) (.ite (.pure _) (.ite (.pure _) (loadSegments_refs _ _ _ _)))

/-! ### What is held -/

variable {b : Slot → Nat} {I : Multiset Slot}

structure Held (b : Slot → Nat) (I : Multiset Slot) (s : Fs) : Prop where
  ref : ∀ k, (s.icache k).ref = (b k + I.count k : Nat)
  uniq : ∀ k l, 0 < (s.icache k).ref → 0 < (s.icache l).ref → (s.icache k).dev = (s.icache l).dev →
    (s.icache k).inum = (s.icache l).inum → k = l

def Kept (b : Slot → Nat) (s s' : Fs) : Prop :=
  ∀ k, 0 < b k → (s'.icache k).dev = (s.icache k).dev ∧ (s'.icache k).inum = (s.icache k).inum

theorem Kept.refl (b : Slot → Nat) (s : Fs) : Kept b s s := fun _ _ => ⟨rfl, rfl⟩

theorem Kept.trans {s₁ : Fs} (h : Kept b s s₁) (h' : Kept b s₁ s') : Kept b s s' :=
  fun k hk => ⟨(h' k hk).1.trans (h k hk).1, (h' k hk).2.trans (h k hk).2⟩

instance : Std.Refl (Kept b) := ⟨Kept.refl b⟩

instance : IsTrans Fs (Kept b) := ⟨fun _ _ _ => Kept.trans⟩

theorem SameRefs.kept (h : SameRefs s s') : Kept b s s' := fun k _ => ⟨h.dev k, h.inum k⟩

theorem SameRefs.held (h : SameRefs s s') (hs : Held b I s) : Held b I s' := by
  refine ⟨fun k => (h.ref k).trans (hs.ref k), fun k l => ?_⟩
  rw [h.ref, h.ref, h.dev, h.dev, h.inum, h.inum]
  exact hs.uniq k l

theorem ident_setRef (s : Fs) (ip : Slot) (r : Int) (k : Slot) :
    ((s.setSlot ip { s.icache ip with ref := r }).icache k).dev = (s.icache k).dev ∧
      ((s.setSlot ip { s.icache ip with ref := r }).icache k).inum = (s.icache k).inum := by
  by_cases hk : k = ip
  · subst hk
    rw [setSlot_icache_self]
    exact ⟨rfl, rfl⟩
  · rw [setSlot_icache_ne hk]
    exact ⟨rfl, rfl⟩

theorem Held.setRef {J : Multiset Slot} {r : Int} (hs : Held b I s) (hr : r = (b ip + J.count ip : Nat))
    (hJ : ∀ k, k ≠ ip → J.count k = I.count k) (hpos : 0 < r → 0 < (s.icache ip).ref) :
    Held b J (s.setSlot ip { s.icache ip with ref := r }) := by
  have hpos' : ∀ k, 0 < ((s.setSlot ip { s.icache ip with ref := r }).icache k).ref → 0 < (s.icache k).ref := by
    intro k hk
    by_cases hne : k = ip
    · subst hne
      rw [setSlot_icache_self] at hk
      exact hpos hk
    · rwa [setSlot_icache_ne hne] at hk
  have hid := ident_setRef s ip r
  refine ⟨fun k => ?_, fun k l hk hl => ?_⟩
  · by_cases hk : k = ip
    · subst hk
      rw [setSlot_icache_self, hr]
    · rw [setSlot_icache_ne hk, hs.ref k, hJ k hk]
  · rw [(hid k).1, (hid l).1, (hid k).2, (hid l).2]
    exact hs.uniq k l (hpos' k hk) (hpos' l hl)

theorem Held.more (hs : Held b I s) (hp : 0 < (s.icache ip).ref) :
    Held b (ip ::ₘ I) (s.setSlot ip { s.icache ip with ref := (s.icache ip).ref + 1 }) := by
  refine hs.setRef ?_ (fun k hk => Multiset.count_cons_of_ne hk _) fun _ => hp
  rw [hs.ref, Multiset.count_cons_self]
  push_cast
  omega

theorem Held.less (hs : Held b (ip ::ₘ I) s) :
    Held b I (s.setSlot ip { s.icache ip with ref := (s.icache ip).ref - 1 }) := by
  refine hs.setRef ?_ (fun k hk => (Multiset.count_cons_of_ne hk _).symm) fun h => by omega
  rw [hs.ref, Multiset.count_cons_self]
  push_cast
  omega

theorem Held.recycle {d i : Nat} (hs : Held b I s) (hz : (s.icache ip).ref = 0)
    (hno : ∀ k, 0 < (s.icache k).ref → (s.icache k).dev = d → (s.icache k).inum ≠ i) :
    Held b (ip ::ₘ I) (s.setSlot ip { s.icache ip with dev := d, inum := i, ref := 1, valid := false }) := by
  have hb := hs.ref ip
  refine ⟨fun k => ?_, fun k l hk hl hd hi => ?_⟩
  · by_cases hk : k = ip
    · subst hk
      rw [setSlot_icache_self, Multiset.count_cons_self]
      push_cast at hb ⊢
      omega
    · rw [setSlot_icache_ne hk, hs.ref k, Multiset.count_cons_of_ne hk]
  · by_cases hkip : k = ip <;> by_cases hlip : l = ip
    · exact hkip.trans hlip.symm
    · subst hkip
      rw [setSlot_icache_ne hlip] at hl hd hi
      rw [setSlot_icache_self] at hd hi
      exact absurd hi.symm (hno l hl hd.symm)
    · subst hlip
      rw [setSlot_icache_ne hkip] at hk hd hi
      rw [setSlot_icache_self] at hd hi
      exact absurd hi (hno k hk hd)
    · rw [setSlot_icache_ne hkip] at hk hd hi
      rw [setSlot_icache_ne hlip] at hl hd hi
      exact hs.uniq k l hk hl hd hi

/-! ### The rules -/

/-- From holding `I`, the program gets to holding `I'` of its result. -/
def Uses {α : Type} (b : Slot → Nat) (I : Multiset Slot) (m : FsM α) (I' : α → Multiset Slot) : Prop :=
  ∀ s, Held b I s → Ends m s fun a s' => Held b (I' a) s' ∧ Kept b s s'

namespace Uses

variable {α β : Type} {m : FsM α} {f : α → FsM β} {I₁ : α → Multiset Slot} {I' : β → Multiset Slot}

theorem pure {J : α → Multiset Slot} {a : α} (h : I = J a) : Uses b I (Pure.pure a : FsM α) J :=
  fun s hs => .pure ⟨h ▸ hs, .refl b s⟩

theorem stop {e : Stop} {J : α → Multiset Slot} : Uses b I (Exec.stop e : FsM α) J := fun _ _ => .stop

theorem bind (hm : Uses b I m I₁) (hf : ∀ a, Uses b (I₁ a) (f a) I') : Uses b I (m >>= f) I' := by
  intro s hs
  refine (hm s hs).bind fun a s1 h1 => ?_
  exact (hf a s1 h1.1).mono fun c s' h => ⟨h.1, h1.2.trans h.2⟩

theorem get_bind {f : Fs → FsM β} (h : ∀ s, Uses b I (f s) I') : Uses b I (Exec.get >>= f) I' :=
  fun s hs => .get_bind (h s s hs)

theorem ite {c : Prop} [Decidable c] {m' : FsM α} {J : α → Multiset Slot} (h : Uses b I m J) (h' : Uses b I m' J) :
    Uses b I (if c then m else m') J := by
  split
  · exact h
  · exact h'

theorem of_moves (h : Moves SameRefs m) : Uses b I m fun _ => I := by
  intro s hs a s' hm
  have hsame : SameRefs s s' := by
    have := h s
    rwa [hm] at this
  exact ⟨hsame.held hs, hsame.kept⟩

theorem then_of_moves (hm : Moves SameRefs m) (hf : ∀ a, Uses b I (f a) I') : Uses b I (m >>= f) I' :=
  (of_moves hm).bind hf

theorem swap {x y : Slot} {J : α → Multiset Slot} (h : Uses b (x ::ₘ y ::ₘ I) m J) : Uses b (y ::ₘ x ::ₘ I) m J := by
  rwa [Multiset.cons_swap]

end Uses

def own (I : Multiset Slot) : Option Slot → Multiset Slot
  | none => I
  | some ip => ip ::ₘ I

theorem iget_uses (dev inum : Nat) : Uses b I (iget dev inum) fun ip => ip ::ₘ I := by
  intro s hs
  refine .get_bind ?_
  split
  · rename_i ip hf
    have hip : 0 < (s.icache ip).ref ∧ (s.icache ip).dev = dev ∧ (s.icache ip).inum = inum := by
      simpa using List.find?_some hf
    exact .modify_bind (.pure ⟨hs.more hip.1, fun k _ => ident_setRef s _ _ k⟩)
  · rename_i hno
    have hno' : ∀ k, 0 < (s.icache k).ref → (s.icache k).dev = dev → (s.icache k).inum ≠ inum := by
      intro k h1 h2 h3
      exact absurd (decide_eq_true ⟨h1, h2, h3⟩) (List.find?_eq_none.1 hno k (List.mem_finRange k))
    split
    · exact .stop
    · rename_i ip hf
      have hz : (s.icache ip).ref = 0 := by simpa using List.find?_some hf
      refine .modify_bind (.pure ⟨hs.recycle hz hno', fun k hk => ?_⟩)
      have hne : k ≠ ip := by
        rintro rfl
        have := hs.ref k
        omega
      rw [setSlot_icache_ne hne]
      exact ⟨rfl, rfl⟩

theorem idup_uses (h : 0 < b ip) : Uses b I (idup ip) fun ip => ip ::ₘ I := by
  intro s hs
  have hp : 0 < (s.icache ip).ref := by
    rw [hs.ref]
    omega
  exact .get_bind (.modify_bind (.pure ⟨hs.more hp, fun k _ => ident_setRef s _ _ k⟩))

theorem idup_kept (ip : Slot) : Moves (Kept b) (idup ip) := fun s k _ => ident_setRef s _ _ k

theorem iput_uses (ip : Slot) : Uses b (ip ::ₘ I) (iput ip) fun _ => I := by
  have hdrop : Uses b (ip ::ₘ I) (do
      releasesleep ip
      Exec.modify fun s => s.setSlot ip { s.icache ip with ref := (s.icache ip).ref - 1 } : FsM Unit) fun _ => I :=
    .then_of_moves (releasesleep_refs ip) fun _ s hs => .modify ⟨hs.less, fun k _ => ident_setRef s _ _ k⟩
  refine .then_of_moves (acquiresleep_refs ip) fun _ => .get_bind fun s => ?_
  dsimp only
  split
  · exact .then_of_moves (itrunc_refs ip) fun _ =>
      .then_of_moves (modify_refs fun _ => ⟨rfl, rfl, rfl⟩) fun _ =>
      .then_of_moves (iupdate_refs ip) fun _ =>
      .then_of_moves (modify_refs fun _ => ⟨rfl, rfl, rfl⟩) fun _ => hdrop
  · exact hdrop

theorem iput_kept (ip : Slot) : Moves (Kept b) (iput ip) := by
  have hs : ∀ {α : Type} {m : FsM α}, Moves SameRefs m → Moves (Kept b) m := fun h => h.mono fun _ _ => SameRefs.kept
  have hdrop : Moves (Kept b) (do
      releasesleep ip
      Exec.modify fun s => s.setSlot ip { s.icache ip with ref := (s.icache ip).ref - 1 } : FsM Unit) :=
    .bind (hs (releasesleep_refs ip)) fun _ => .modify fun s k _ => ident_setRef s _ _ k
  refine .bind (hs (acquiresleep_refs ip)) fun _ => .bind .get fun s => ?_
  dsimp only
  split
  · exact .bind (hs (itrunc_refs ip)) fun _ => .bind (hs (modify_refs fun _ => ⟨rfl, rfl, rfl⟩)) fun _ =>
      .bind (hs (iupdate_refs ip)) fun _ => .bind (hs (modify_refs fun _ => ⟨rfl, rfl, rfl⟩)) fun _ => hdrop
  · exact hdrop

theorem iunlockput_uses (ip : Slot) : Uses b (ip ::ₘ I) (iunlockput ip) fun _ => I :=
  .then_of_moves (iunlock_refs ip) fun _ => iput_uses ip

theorem iunlockput_kept (ip : Slot) : Moves (Kept b) (iunlockput ip) :=
  .bind ((iunlock_refs ip).mono fun _ _ => SameRefs.kept) fun _ => iput_kept ip

theorem iunlockput_end {α : Type} (ip : Slot) (r : α) :
    Uses b (ip ::ₘ I) (do iunlockput ip; endOp; return r : FsM α) fun _ => I :=
  (iunlockput_uses ip).bind fun _ => .then_of_moves endOp_refs fun _ => .pure rfl

theorem endOp_uses {α : Type} (r : α) : Uses b I (do endOp; return r : FsM α) fun _ => I :=
  .then_of_moves endOp_refs fun _ => .pure rfl

theorem ialloc_uses (dev : Nat) (type : UInt16) : Uses b I (ialloc dev type) fun ip => ip ::ₘ I := by
  refine .get_bind fun s => ?_
  split
  · exact .stop
  · exact .then_of_moves (logWrite_refs _ _) fun _ => iget_uses _ _

/-! ### Directories and paths -/

theorem dirlookup_uses (dp : Slot) (name : List UInt8) :
    Uses b I (dirlookup dp name) fun r => own I (r.map Prod.fst) := by
  refine .get_bind fun s => .ite .stop (.then_of_moves (dirScan_refs _ _ _ _ _) fun r => ?_)
  split
  · exact .pure rfl
  · exact (iget_uses _ _).bind fun ip => .pure rfl

theorem dirlink_uses (dp : Slot) (name : List UInt8) (inum : Nat) : Uses b I (dirlink dp name inum) fun _ => I := by
  refine (dirlookup_uses dp name).bind fun r => ?_
  rcases r with _ | ⟨ip, off⟩
  · exact .get_bind fun s => .then_of_moves (dirScan_refs _ _ _ _ _) fun _ =>
      .then_of_moves (writeDirent_refs _ _ _ _) fun _ => .pure rfl
  · exact (iput_uses ip).bind fun _ => .pure rfl

theorem namexLoop_uses (parent : Bool) (fuel : Nat) (ip : Slot) (path name : List UInt8) :
    Uses b (ip ::ₘ I) (namexLoop parent fuel ip path name) fun r => own I (r.map Prod.fst) := by
  induction fuel generalizing ip path name with
  | zero => exact .stop
  | succ fuel ih =>
    unfold namexLoop
    split
    · exact .ite ((iput_uses ip).bind fun _ => .pure rfl) (.pure rfl)
    refine .then_of_moves (ilock_refs ip) fun _ => .get_bind fun s =>
      .ite ((iunlockput_uses ip).bind fun _ => .pure rfl) (.ite (.then_of_moves (iunlock_refs ip) fun _ => .pure rfl) ?_)
    refine (dirlookup_uses ip _).bind fun r => ?_
    rcases r with _ | ⟨next, off⟩
    · exact (iunlockput_uses ip).bind fun _ => .pure rfl
    · exact .swap ((iunlockput_uses ip).bind fun _ => ih next _ _)

section Paths

variable {cwd : Slot} (hcwd : 0 < b cwd)

include hcwd

theorem namex_uses (path : List UInt8) (parent : Bool) :
    Uses b I (namex cwd path parent) fun r => own I (r.map Prod.fst) := by
  have hstart : Uses b I (namexStart cwd path) fun ip => ip ::ₘ I := .ite (iget_uses _ _) (idup_uses hcwd)
  exact hstart.bind fun ip => namexLoop_uses _ _ ip _ _

theorem namei_uses (path : List UInt8) : Uses b I (namei cwd path) fun r => own I r :=
  (namex_uses hcwd path false).bind fun _ => .pure rfl

theorem nameiparent_uses (path : List UInt8) :
    Uses b I (nameiparent cwd path) fun r => own I (r.map Prod.fst) := namex_uses hcwd path true

/-! ### System calls -/

omit hcwd in
theorem cleanupsyslink_uses (ip : Slot) : Uses b (ip ::ₘ I) (cleanupsyslink ip) fun _ => I :=
  .then_of_moves (ilock_refs ip) fun _ => .then_of_moves (setNlink_refs ip _) fun _ =>
    .then_of_moves (iupdate_refs ip) fun _ => (iunlockput_uses ip).bind fun _ => .of_moves endOp_refs

omit hcwd in
theorem linkEntry_uses (dp : Slot) (name : List UInt8) (ip : Slot) : Uses b I (linkEntry dp name ip) fun _ => I :=
  .get_bind fun _ => .ite (.pure rfl) (dirlink_uses _ _ _)

theorem linkOp_uses (old new : List UInt8) : Uses b I (linkOp cwd old new) fun _ => I := by
  refine .then_of_moves beginOp_refs fun _ => (namei_uses hcwd old).bind fun r => ?_
  rcases r with _ | ip
  · exact endOp_uses _
  refine .then_of_moves (ilock_refs ip) fun _ => .get_bind fun s => .ite (iunlockput_end ip _) ?_
  refine .then_of_moves (setNlink_refs ip _) fun _ => .then_of_moves (iupdate_refs ip) fun _ =>
    .then_of_moves (iunlock_refs ip) fun _ => (nameiparent_uses hcwd new).bind fun r => ?_
  rcases r with _ | ⟨dp, name⟩
  · exact (cleanupsyslink_uses ip).bind fun _ => .pure rfl
  refine .then_of_moves (ilock_refs dp) fun _ => (linkEntry_uses dp name ip).bind fun r => .ite ?_ ?_
  · exact (iunlockput_uses dp).bind fun _ => (cleanupsyslink_uses ip).bind fun _ => .pure rfl
  · exact (iunlockput_uses dp).bind fun _ => (iput_uses ip).bind fun _ => endOp_uses _

theorem sysLink_uses (old new : PathArg) : Uses b I (sysLink cwd old new) fun _ => I := by
  unfold sysLink
  split
  · exact linkOp_uses hcwd _ _
  · exact .pure rfl

theorem unlinkOp_uses (path : List UInt8) : Uses b I (unlinkOp cwd path) fun _ => I := by
  refine .then_of_moves beginOp_refs fun _ => (nameiparent_uses hcwd path).bind fun r => ?_
  rcases r with _ | ⟨dp, name⟩
  · exact endOp_uses _
  refine .then_of_moves (ilock_refs dp) fun _ => .ite (iunlockput_end dp _) ?_
  refine (dirlookup_uses dp name).bind fun r => ?_
  rcases r with _ | ⟨ip, off⟩
  · exact iunlockput_end dp _
  refine .then_of_moves (ilock_refs ip) fun _ => .get_bind fun s => .ite .stop (.then_of_moves (dirBusy_refs ip) fun busy =>
    .ite ((iunlockput_uses ip).bind fun _ => iunlockput_end dp _) ?_)
  refine .then_of_moves (writeDirent_refs _ _ _ _) fun _ => .then_of_moves (.when ?_) fun _ => .swap ?_
  · exact .bind (setNlink_refs dp _) fun _ => iupdate_refs dp
  · exact (iunlockput_uses dp).bind fun _ => .then_of_moves (setNlink_refs ip _) fun _ =>
      .then_of_moves (iupdate_refs ip) fun _ => iunlockput_end ip _

theorem sysUnlink_uses (path : PathArg) : Uses b I (sysUnlink cwd path) fun _ => I := by
  unfold sysUnlink
  split
  · exact unlinkOp_uses hcwd _
  · exact .pure rfl

omit hcwd in
theorem createDots_uses (dp ip : Slot) : Uses b I (createDots dp ip) fun _ => I := by
  refine .then_of_moves (setNlink_refs dp _) fun _ => .then_of_moves (iupdate_refs dp) fun _ => .get_bind fun s => ?_
  exact (dirlink_uses _ _ _).bind fun _ => .ite .stop ((dirlink_uses _ _ _).bind fun _ => .ite .stop (.pure rfl))

omit hcwd in
theorem createIn_uses (dp : Slot) (name : List UInt8) (type major minor : UInt16) :
    Uses b (dp ::ₘ I) (createIn dp name type major minor) fun ip => ip ::ₘ I := by
  refine .get_bind fun s => (ialloc_uses _ _).bind fun ip => .then_of_moves (ilock_refs ip) fun _ => ?_
  refine .then_of_moves (modify_refs fun _ => ⟨rfl, rfl, rfl⟩) fun _ =>
    .then_of_moves (iupdate_refs ip) fun _ => ?_
  have hdots : Uses b (ip ::ₘ dp ::ₘ I) (Exec.when (type = T_DIR) (createDots dp ip)) fun _ => ip ::ₘ dp ::ₘ I :=
    .ite (createDots_uses dp ip) (.pure rfl)
  refine hdots.bind fun _ => .get_bind fun s => (dirlink_uses _ _ _).bind fun r => .ite .stop ?_
  exact .swap ((iunlockput_uses dp).bind fun _ => .pure rfl)

theorem create_uses (path : List UInt8) (type major minor : UInt16) :
    Uses b I (create cwd path type major minor) fun r => own I r := by
  refine (nameiparent_uses hcwd path).bind fun r => ?_
  rcases r with _ | ⟨dp, name⟩
  · exact .pure rfl
  refine .then_of_moves (ilock_refs dp) fun _ => (dirlookup_uses dp name).bind fun r => ?_
  rcases r with _ | ⟨ip, off⟩
  · exact (createIn_uses dp name _ _ _).bind fun ip => .pure rfl
  refine .swap ((iunlockput_uses dp).bind fun _ => .then_of_moves (ilock_refs ip) fun _ => .get_bind fun s => ?_)
  exact .ite (.pure rfl) ((iunlockput_uses ip).bind fun _ => .pure rfl)

theorem sysMk_uses (path : PathArg) (type major minor : UInt16) :
    Uses b I (sysMk cwd path type major minor) fun _ => I := by
  refine .then_of_moves beginOp_refs fun _ => ?_
  rcases path with _ | path
  · exact endOp_uses _
  refine (create_uses hcwd path _ _ _).bind fun r => ?_
  rcases r with _ | ip
  · exact endOp_uses _
  · exact iunlockput_end ip _

theorem exec_uses (path : List UInt8) (kvm : Bool) (mem : Nat → Bool) (stack : Bool) :
    Uses b I (exec cwd path kvm mem stack) fun _ => I := by
  refine .then_of_moves beginOp_refs fun _ => (namei_uses hcwd path).bind fun r => ?_
  rcases r with _ | ip
  · exact endOp_uses _
  · exact .then_of_moves (ilock_refs ip) fun _ => .then_of_moves (loadImage_refs _ _ _) fun ok => iunlockput_end ip _

theorem sysExec_uses (path : PathArg) (kvm : Bool) (mem : Nat → Bool) (stack : Bool) :
    Uses b I (sysExec cwd path kvm mem stack) fun _ => I := by
  unfold sysExec
  split
  · exact exec_uses hcwd _ _ _ _
  · exact .pure rfl

theorem openInode_uses (path : List UInt8) (omode : UInt32) :
    Uses b I (Sysfile.openInode cwd path omode) fun r => own I r := by
  refine .ite (create_uses hcwd _ _ _ _) ((namei_uses hcwd path).bind fun r => ?_)
  rcases r with _ | ip
  · exact .pure rfl
  refine .then_of_moves (ilock_refs ip) fun _ => .get_bind fun s => ?_
  exact .ite ((iunlockput_uses ip).bind fun _ => .pure rfl) (.pure rfl)

end Paths

end Xv6.Fs
