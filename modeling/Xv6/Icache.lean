import Xv6.DirScan
import Xv6.File

/-!
# Reading from a quiet file system

Nothing but the inode cache changes while a process looks up names and reads files, and of that only
which entries are in use: the process takes a reference with `iget` or `idup`, loads and locks the inode,
reads, unlocks it and drops the reference. `Calm s L I s'` says that from `s` the process has come to `s'`
in this way, that it holds the references in `I`, and that the entry it has locked is `L`.

The state `s` is that of a directory tree: all that is referred to is allocated and will not be freed by
dropping a reference, and no inode is locked.
-/

namespace Xv6.Fs

open Exec Function

variable {s s' : Fs} {ip : Slot} {i : Nat}

/-! ### Single calls -/

theorem find_cached (hc : s.CacheOk) (hr : 0 < (s.icache ip).ref) (hi : (s.icache ip).inum = i) :
    ((List.finRange NINODE).find? fun k =>
      decide (0 < (s.icache k).ref ∧ (s.icache k).dev = ROOTDEV ∧ (s.icache k).inum = i)) = some ip := by
  have hp : 0 < (s.icache ip).ref ∧ (s.icache ip).dev = ROOTDEV ∧ (s.icache ip).inum = i := ⟨hr, hc.dev ip hr, hi⟩
  rcases hl : (List.finRange NINODE).find? fun k =>
    decide (0 < (s.icache k).ref ∧ (s.icache k).dev = ROOTDEV ∧ (s.icache k).inum = i) with _ | l
  · exact absurd (decide_eq_true hp) (List.find?_eq_none.1 hl ip (List.mem_finRange ip))
  · have hl' : 0 < (s.icache l).ref ∧ (s.icache l).dev = ROOTDEV ∧ (s.icache l).inum = i := by
      simpa only [decide_eq_true_eq] using List.find?_some hl
    rw [hc.uniq l ip hl'.1 hr (hl'.2.2.trans hi.symm)]

theorem iget_cached (hc : s.CacheOk) (hr : 0 < (s.icache ip).ref) (hi : (s.icache ip).inum = i) :
    iget ROOTDEV i s = (.ok ip, s.setSlot ip { s.icache ip with ref := (s.icache ip).ref + 1 }) := by
  unfold iget
  rw [get_bind_run, find_cached hc hr hi]
  rfl

theorem iget_fresh (hno : ∀ k, 0 < (s.icache k).ref → (s.icache k).inum ≠ i) :
    (iget ROOTDEV i s = (.error (.panic "iget: no inodes"), s) ∧ ∀ k, (s.icache k).ref ≠ 0) ∨
    ∃ ip, (s.icache ip).ref = 0 ∧ iget ROOTDEV i s =
      (.ok ip, s.setSlot ip { s.icache ip with dev := ROOTDEV, inum := i, ref := 1, valid := false }) := by
  have hf : ((List.finRange NINODE).find? fun k =>
      decide (0 < (s.icache k).ref ∧ (s.icache k).dev = ROOTDEV ∧ (s.icache k).inum = i)) = none :=
    List.find?_eq_none.2 fun k _ => by
      rw [decide_eq_true_iff]
      exact fun h => hno k h.1 h.2.2
  unfold iget
  rw [get_bind_run, hf]
  dsimp only
  rcases hl : (List.finRange NINODE).find? fun k => decide ((s.icache k).ref = 0) with _ | ip
  · refine .inl ⟨rfl, fun k hk => ?_⟩
    exact absurd (decide_eq_true hk) (List.find?_eq_none.1 hl k (List.mem_finRange k))
  · exact .inr ⟨ip, by simpa only [decide_eq_true_eq] using List.find?_some hl, rfl⟩

theorem acquiresleep_run (hl : (s.icache ip).locked = false) :
    acquiresleep ip s = (.ok (), s.setSlot ip { s.icache ip with locked := true }) := by
  unfold acquiresleep
  rw [get_bind_run, if_neg (by rw [hl]; exact Bool.false_ne_true)]
  rfl

theorem setSlot_setSlot (x y : Inode) : (s.setSlot ip x).setSlot ip y = s.setSlot ip y := by
  show { s with icache := update (update s.icache ip x) ip y } = _
  rw [update_idem]
  rfl

theorem ilock_load (hr : 0 < (s.icache ip).ref) (hl : (s.icache ip).locked = false)
    (hv : (s.icache ip).valid = false) (ht : (s.dinode (s.icache ip).inum).type ≠ 0) :
    ilock ip s = (.ok (), s.setSlot ip
      { s.icache ip with toDinode := s.dinode (s.icache ip).inum, locked := true, valid := true }) := by
  unfold ilock
  rw [get_bind_run, if_neg (by omega), bind_of_ok (acquiresleep_run hl), if_neg (by rw [hv]; exact Bool.false_ne_true),
    modify_bind_run, if_neg ht, setSlot_icache_self, setSlot_setSlot]
  rfl

theorem iput_run (hl : (s.icache ip).locked = false)
    (hkeep : ¬ ((s.icache ip).valid = true ∧ (s.icache ip).nlink = 0 ∧ (s.icache ip).ref = 1)) :
    iput ip s = (.ok (), s.setSlot ip { s.icache ip with ref := (s.icache ip).ref - 1 }) := by
  unfold iput
  rw [bind_of_ok (acquiresleep_run hl), get_bind_run, setSlot_icache_self, if_neg hkeep]
  show (releasesleep ip >>= _) _ = _
  unfold releasesleep
  rw [modify_bind_run, setSlot_icache_self, setSlot_setSlot]
  show (Except.ok (), _) = _
  dsimp only
  rw [setSlot_icache_self, setSlot_setSlot, hl]

/-! ### Views and cache entries -/

theorem view_setSlot_load {x : Inode} (hc : s.CacheOk) (hr : 0 < (s.icache ip).ref) (hv : (s.icache ip).valid = false)
    (hi : x.inum = (s.icache ip).inum) (hd : x.toDinode = s.dinode x.inum) : (s.setSlot ip x).view = s.view := by
  refine view_setSlot_of_cur fun j => ?_
  have hnot : ∀ k, s.Holds (s.icache ip).inum k → False := fun k hk => by
    have heq := hc.uniq k ip hk.1 hr hk.2.2
    rw [heq] at hk
    rw [hk.2.1] at hv
    cases hv
  by_cases hj : j = (s.icache ip).inum
  · subst hj
    rw [cur_of_not (s := s) fun k hk => hnot k hk]
    unfold cur
    split
    · rename_i k hk
      have hk : (s.setSlot ip x).Holds (s.icache ip).inum k := by simpa using List.find?_some hk
      by_cases hne : k = ip
      · subst hne
        rw [setSlot_icache_self, hd, hi]
      · exact absurd ((holds_setSlot_ne hne).1 hk) (hnot k)
    · rfl
  · refine cur_congr (fun k => ?_) (fun k hk => ?_) rfl
    · by_cases hne : k = ip
      · subst hne
        unfold Holds
        rw [setSlot_icache_self, hi]
        exact iff_of_false (fun h => hj h.2.2.symm) fun h => hj h.2.2.symm
      · exact holds_setSlot_ne hne
    · have hne : k ≠ ip := fun heq => hj (by rw [← hk.2.2, heq])
      rw [setSlot_icache_ne hne]

theorem view_setSlot_drop {x : Inode} (hc : s.CacheOk) (hx : x.ref ≤ 0)
    (hd : (s.icache ip).valid = true → (s.icache ip).toDinode = s.dinode (s.icache ip).inum) :
    (s.setSlot ip x).view = s.view := by
  refine view_setSlot_of_cur fun j => ?_
  have hnot : ¬ (s.setSlot ip x).Holds j ip := fun h => by
    have := h.1
    rw [setSlot_icache_self] at this
    omega
  by_cases hj : s.Holds j ip
  · have hother : ∀ k, ¬ (s.setSlot ip x).Holds j k := fun k hk => by
      by_cases hne : k = ip
      · exact hnot (hne ▸ hk)
      · have hk' := (holds_setSlot_ne hne).1 hk
        exact hne (hc.uniq k ip hk'.1 hj.1 (hk'.2.2.trans hj.2.2.symm))
    rw [cur_of_not hother, hc.cur_of_holds hj, hd hj.2.1, hj.2.2]
    rfl
  · refine cur_congr (fun k => ?_) (fun k hk => ?_) rfl
    · by_cases hne : k = ip
      · subst hne
        exact iff_of_false hnot hj
      · exact holds_setSlot_ne hne
    · have hne : k ≠ ip := fun heq => hj (heq ▸ hk)
      rw [setSlot_icache_ne hne]

theorem CacheOk.setSlot {x : Inode} (h : s.CacheOk) (hr : 0 ≤ x.ref) (hdev : 0 < x.ref → x.dev = ROOTDEV)
    (huniq : 0 < x.ref → ∀ k, k ≠ ip → 0 < (s.icache k).ref → (s.icache k).inum ≠ x.inum)
    (hi : 0 < x.ref → x.valid = true → 0 < x.inum ∧ x.inum < s.sb.ninodes) : (s.setSlot ip x).CacheOk := by
  refine ⟨fun k => ?_, fun k => ?_, fun k l h1 h2 heq => ?_, fun k => ?_⟩
  · by_cases hk : k = ip
    · rwa [hk, setSlot_icache_self]
    · rw [setSlot_icache_ne hk]
      exact h.nonneg k
  · by_cases hk : k = ip
    · rwa [hk, setSlot_icache_self]
    · rw [setSlot_icache_ne hk]
      exact h.dev k
  · by_cases hk : k = ip <;> by_cases hl : l = ip
    · rw [hk, hl]
    · rw [hk, setSlot_icache_self] at h1 heq
      rw [setSlot_icache_ne hl] at h2 heq
      exact absurd heq.symm (huniq h1 l hl h2)
    · rw [hl, setSlot_icache_self] at h2 heq
      rw [setSlot_icache_ne hk] at h1 heq
      exact absurd heq (huniq h2 k hk h1)
    · rw [setSlot_icache_ne hk] at h1 heq
      rw [setSlot_icache_ne hl] at h2 heq
      exact h.uniq k l h1 h2 heq
  · by_cases hk : k = ip
    · rwa [hk, setSlot_icache_self]
    · rw [setSlot_icache_ne hk]
      exact h.inum k

theorem CacheOk.adjust {x : Inode} (h : s.CacheOk) (hr : 0 < (s.icache ip).ref) (hx : 0 ≤ x.ref)
    (hd : x.dev = (s.icache ip).dev) (hi : x.inum = (s.icache ip).inum)
    (hv : x.valid = true → 0 < (s.icache ip).inum ∧ (s.icache ip).inum < s.sb.ninodes) : (s.setSlot ip x).CacheOk := by
  refine h.setSlot hx (fun _ => hd.trans (h.dev ip hr)) (fun _ k hk hk' heq => ?_) fun _ => ?_
  · exact hk (h.uniq k ip hk' hr (heq.trans hi))
  · rwa [hi]

theorem inum_setSlot {x : Inode} (hi : x.inum = (s.icache ip).inum) (k : Slot) :
    ((s.setSlot ip x).icache k).inum = (s.icache k).inum := by
  by_cases hk : k = ip
  · rw [hk, setSlot_icache_self, hi]
  · rw [setSlot_icache_ne hk]

/-! ### Quiet states -/

/-- Inode `i` has links or is in use: dropping another reference to it does not free it. -/
def Lasting (s : Fs) (i : Nat) : Prop := (s.view.inode i).nlink ≠ 0 ∨ ∃ k, 0 < (s.icache k).ref ∧ (s.icache k).inum = i

structure Stays (s : Fs) (i : Nat) : Prop where
  live : s.view.Live s.sb i
  lasting : s.Lasting i

/-- A state between operations in which the directories are in order. -/
structure Tree (s : Fs) : Prop where
  sb : s.sb.Ok
  cache : s.CacheOk
  store : s.view.Ok s.sb
  unlocked : ∀ k, (s.icache k).locked = false
  root : s.Stays ROOTINO
  cached : ∀ k, 0 < (s.icache k).ref → s.view.Live s.sb (s.icache k).inum
  align : ∀ i, s.view.Live s.sb i → (s.view.inode i).type = T_DIR → DIRENT ∣ (s.view.inode i).size.toNat
  target : ∀ i k, s.view.Live s.sb i → (s.view.inode i).type = T_DIR → k < (s.view.inode i).size.toNat / DIRENT →
    (s.view.dirent i k).inum ≠ 0 → s.Stays (s.view.dirent i k).inum.toNat

structure Calm (s : Fs) (L : Option Slot) (I : Multiset Slot) (s' : Fs) : Prop where
  same : s' = { s with icache := s'.icache }
  view : s'.view = s.view
  cache : s'.CacheOk
  ref : ∀ k, (s'.icache k).ref = (s.icache k).ref + I.count k
  inum : ∀ k, 0 < (s.icache k).ref → (s'.icache k).inum = (s.icache k).inum
  kept : ∀ k ∈ I, s.Stays (s'.icache k).inum
  clean : ∀ k ∈ I, (s.icache k).ref = 0 → (s'.icache k).valid = true →
    (s'.icache k).toDinode = s.dinode (s'.icache k).inum
  locked : ∀ k, (s'.icache k).locked = decide (L = some k)

variable {L L' : Option Slot} {I I' : Multiset Slot}

namespace Calm

theorem refl (ht : s.Tree) : Calm s none 0 s :=
  ⟨rfl, rfl, ht.cache, fun _ => (add_zero _).symm, fun _ _ => rfl, fun _ h => absurd h (Multiset.notMem_zero _),
    fun _ h => absurd h (Multiset.notMem_zero _), ht.unlocked⟩

variable (ht : s.Tree) (h : Calm s L I s')

include h

theorem sb : s'.sb = s.sb := by
  rw [h.same]

theorem dinode (i : Nat) : s'.dinode i = s.dinode i := by
  rw [h.same]
  rfl

include ht in
theorem ref_pos (hip : ip ∈ I) : 0 < (s'.icache ip).ref := by
  have hcount := Multiset.count_pos.2 hip
  have hb := ht.cache.nonneg ip
  rw [h.ref]
  omega

theorem setSlot {x : Inode} (hview : (s'.setSlot ip x).view = s'.view) (hcache : (s'.setSlot ip x).CacheOk)
    (href : x.ref = (s.icache ip).ref + I'.count ip) (hI : ∀ k, k ≠ ip → I'.count k = I.count k)
    (hinum : 0 < (s.icache ip).ref → x.inum = (s'.icache ip).inum) (hkept : ip ∈ I' → s.Stays x.inum)
    (hclean : ip ∈ I' → (s.icache ip).ref = 0 → x.valid = true → x.toDinode = s.dinode x.inum)
    (hlock : x.locked = decide (L' = some ip)) (hL : ∀ k, k ≠ ip → (L' = some k ↔ L = some k)) :
    Calm s L' I' (s'.setSlot ip x) := by
  have hmem : ∀ k, k ≠ ip → k ∈ I' → k ∈ I := fun k hk hk' => by
    rw [← Multiset.count_pos] at hk' ⊢
    rwa [← hI k hk]
  refine ⟨?_, hview.trans h.view, hcache, fun k => ?_, fun k hk => ?_, fun k hk => ?_, fun k hk => ?_, fun k => ?_⟩
  · conv_lhs => rw [h.same]
    rfl
  all_goals by_cases hne : k = ip
  · rw [hne, setSlot_icache_self, href]
  · rw [setSlot_icache_ne hne, h.ref, hI k hne]
  · rw [hne, setSlot_icache_self, hinum (hne ▸ hk), h.inum ip (hne ▸ hk)]
  · rw [setSlot_icache_ne hne, h.inum k hk]
  · rw [hne, setSlot_icache_self]
    exact hkept (hne ▸ hk)
  · rw [setSlot_icache_ne hne]
    exact h.kept k (hmem k hne hk)
  · rw [hne, setSlot_icache_self]
    exact hclean (hne ▸ hk)
  · rw [setSlot_icache_ne hne]
    exact h.clean k (hmem k hne hk)
  · rw [hne, setSlot_icache_self, hlock]
  · rw [setSlot_icache_ne hne, h.locked k, decide_eq_decide]
    exact (hL k hne).symm

include ht in
theorem inode_eq (hip : ip ∈ I) (hv : (s'.icache ip).valid = true) :
    s.view.inode (s'.icache ip).inum = (s'.icache ip).toDinode := by
  have hlt : (s'.icache ip).inum < s'.sb.ninodes := by
    rw [h.sb]
    exact (h.kept ip hip).live.2.1
  rw [← h.view, view_inode hlt, h.cache.cur_of_holds ⟨h.ref_pos ht hip, hv, rfl⟩]

include ht in
theorem isOpen (hip : ip ∈ I) (hv : (s'.icache ip).valid = true) : s'.Open ip := by
  refine ⟨h.sb ▸ ht.sb, h.cache, by rw [h.view, h.sb]; exact ht.store.toOwned, h.ref_pos ht hip, hv, ?_⟩
  rw [← h.inode_eq ht hip hv]
  exact (h.kept ip hip).live.2.2

theorem more (hr : 0 < (s'.icache ip).ref) (hstay : s.Stays (s'.icache ip).inum) :
    Calm s L (ip ::ₘ I) (s'.setSlot ip { s'.icache ip with ref := (s'.icache ip).ref + 1 }) := by
  refine h.setSlot (view_setSlot_frame rfl rfl rfl ?_) (h.cache.adjust hr ?_ rfl rfl (h.cache.inum ip hr)) ?_
    (fun k hk => Multiset.count_cons_of_ne hk I) (fun _ => rfl) (fun _ => hstay) (fun _ hz hv => ?_) (h.locked ip)
    fun _ _ => Iff.rfl
  · dsimp only
    omega
  · dsimp only
    omega
  · dsimp only
    rw [h.ref, Multiset.count_cons_self]
    omega
  · have hmem : ip ∈ I := by
      rw [h.ref, hz] at hr
      exact Multiset.count_pos.1 (by omega)
    exact h.clean ip hmem hz hv

include ht in
theorem fresh (hz : (s'.icache ip).ref = 0) (hno : ∀ k, 0 < (s'.icache k).ref → (s'.icache k).inum ≠ i)
    (hstay : s.Stays i) : Calm s L (ip ::ₘ I)
      (s'.setSlot ip { s'.icache ip with dev := ROOTDEV, inum := i, ref := 1, valid := false }) := by
  have hb := ht.cache.nonneg ip
  have href := h.ref ip
  rw [hz] at href
  refine h.setSlot (view_setSlot_idle (fun hr => ?_) fun hr => Bool.false_ne_true hr.2) (h.cache.setSlot Int.one_nonneg
    (fun _ => rfl) (fun _ k _ hk => hno k hk) fun _ hv => absurd hv Bool.false_ne_true) ?_
    (fun k hk => Multiset.count_cons_of_ne hk I) (fun hr => ?_) (fun _ => hstay)
    (fun _ _ hv => absurd hv Bool.false_ne_true) (h.locked ip) fun _ _ => Iff.rfl
  · omega
  · dsimp only
    rw [Multiset.count_cons_self]
    omega
  · omega

include ht in
theorem iget (hstay : s.Stays i) : Meets (iget ROOTDEV i) s' (fun ip s₁ =>
      Calm s L (ip ::ₘ I) s₁ ∧ (s₁.icache ip).inum = i ∧
        ∀ k, 0 < (s'.icache k).ref → (s₁.icache k).inum = (s'.icache k).inum)
      fun e _ => e = .panic "iget: no inodes" ∧ ∀ k, (s'.icache k).ref ≠ 0 := by
  by_cases hcached : ∃ k, 0 < (s'.icache k).ref ∧ (s'.icache k).inum = i
  · obtain ⟨ip, hr, hi⟩ := hcached
    refine .of_ok (iget_cached h.cache hr hi) ⟨h.more hr (hi ▸ hstay), ?_, fun k _ => ?_⟩
    · rw [setSlot_icache_self]
      exact hi
    · exact inum_setSlot (by rfl) k
  · have hno : ∀ k, 0 < (s'.icache k).ref → (s'.icache k).inum ≠ i := fun k hr hi => hcached ⟨k, hr, hi⟩
    rcases iget_fresh hno with ⟨hrun, hbusy⟩ | ⟨ip, hz, hrun⟩
    · exact .of_error hrun ⟨rfl, hbusy⟩
    · refine .of_ok hrun ⟨h.fresh ht hz hno hstay, ?_, fun k hk => ?_⟩
      · rw [setSlot_icache_self]
      · rw [setSlot_icache_ne fun heq => by rw [heq, hz] at hk; exact absurd hk (by decide)]

omit h in
theorem ilock (ht : s.Tree) (h : Calm s none I s') (hip : ip ∈ I) : ∃ s₁, ilock ip s' = (.ok (), s₁) ∧
    Calm s (some ip) I s₁ ∧ (s₁.icache ip).valid = true ∧ ∀ k, (s₁.icache k).inum = (s'.icache k).inum := by
  have hr := h.ref_pos ht hip
  have hl : (s'.icache ip).locked = false := h.locked ip
  have hL : ∀ k, k ≠ ip → (some ip = some k ↔ none = some k) := fun k hk =>
    iff_of_false (fun heq => hk (Option.some.inj heq).symm) nofun
  have hlive := (h.kept ip hip).live
  by_cases hv : (s'.icache ip).valid = true
  · refine ⟨_, ilock_run (h.isOpen ht hip hv) hl, ?_, ?_, inum_setSlot rfl⟩
    · exact h.setSlot (view_setSlot_frame rfl rfl rfl Iff.rfl) (h.cache.adjust hr hr.le rfl rfl (h.cache.inum ip hr))
        (h.ref ip) (fun _ _ => rfl) (fun _ => rfl) (fun _ => h.kept ip hip) (h.clean ip) (decide_eq_true rfl).symm hL
    · rw [setLock, setSlot_icache_self]
      exact hv
  · have hv := eq_false_of_ne_true hv
    have hnot : ∀ k, ¬ s'.Holds (s'.icache ip).inum k := fun k hk => by
      have heq := h.cache.uniq k ip hk.1 hr hk.2.2
      rw [heq] at hk
      rw [hk.2.1] at hv
      cases hv
    have ht : (s'.dinode (s'.icache ip).inum).type ≠ 0 := by
      have hlt : (s'.icache ip).inum < s'.sb.ninodes := by
        rw [h.sb]
        exact hlive.2.1
      rw [← cur_of_not hnot, ← view_inode hlt, h.view]
      exact hlive.2.2
    refine ⟨_, ilock_load hr hl hv ht, ?_, ?_, inum_setSlot rfl⟩
    · have hrange : 0 < (s'.icache ip).inum ∧ (s'.icache ip).inum < s'.sb.ninodes := ⟨hlive.1, h.sb ▸ hlive.2.1⟩
      exact h.setSlot (view_setSlot_load h.cache hr hv rfl rfl) (h.cache.adjust hr hr.le rfl rfl fun _ => hrange)
        (h.ref ip) (fun _ _ => rfl) (fun _ => rfl) (fun _ => h.kept ip hip) (fun _ _ _ => h.dinode _)
        (decide_eq_true rfl).symm hL
    · rw [setSlot_icache_self]

omit h in
theorem iunlock (ht : s.Tree) (h : Calm s (some ip) I s') (hip : ip ∈ I) :
    ∃ s₁, iunlock ip s' = (.ok (), s₁) ∧ Calm s none I s₁ ∧ ∀ k, (s₁.icache k).inum = (s'.icache k).inum := by
  have hr := h.ref_pos ht hip
  have hl : (s'.icache ip).locked = true := (h.locked ip).trans (decide_eq_true rfl)
  refine ⟨_, iunlock_run hr hl, ?_, inum_setSlot rfl⟩
  exact h.setSlot (view_setSlot_frame rfl rfl rfl Iff.rfl) (h.cache.adjust hr hr.le rfl rfl (h.cache.inum ip hr))
    (h.ref ip) (fun _ _ => rfl) (fun _ => rfl) (fun _ => h.kept ip hip) (h.clean ip) rfl fun k hk =>
      iff_of_false nofun fun heq => hk (Option.some.inj heq).symm

omit h in
theorem iput (ht : s.Tree) (h : Calm s none (ip ::ₘ I) s') :
    ∃ s₁, iput ip s' = (.ok (), s₁) ∧ Calm s none I s₁ ∧ ∀ k, (s₁.icache k).inum = (s'.icache k).inum := by
  have hb := ht.cache.nonneg ip
  have hip := Multiset.mem_cons_self ip I
  have hr := h.ref_pos ht hip
  have href := h.ref ip
  rw [Multiset.count_cons_self] at href
  have hkeep : ¬ ((s'.icache ip).valid = true ∧ (s'.icache ip).nlink = 0 ∧ (s'.icache ip).ref = 1) := by
    rintro ⟨hv, hn, hone⟩
    obtain ⟨-, hlinks | ⟨k, hk, hki⟩⟩ := h.kept ip hip
    · rw [h.inode_eq ht hip hv] at hlinks
      exact hlinks hn
    · have hk' : 0 < (s'.icache k).ref := by
        rw [h.ref]
        omega
      have heq := h.cache.uniq k ip hk' hr ((h.inum k hk).trans hki)
      rw [heq] at hk
      omega
  refine ⟨_, iput_run (h.locked ip) hkeep, ?_, inum_setSlot rfl⟩
  refine h.setSlot ?_ (h.cache.adjust hr ?_ rfl rfl (h.cache.inum ip hr)) ?_
    (fun k hk => (Multiset.count_cons_of_ne hk I).symm) (fun _ => rfl)
    (fun hmem => h.kept ip (Multiset.mem_cons_of_mem hmem)) (fun hmem => h.clean ip (Multiset.mem_cons_of_mem hmem))
    (h.locked ip) fun _ _ => Iff.rfl
  · by_cases hlast : (s'.icache ip).ref = 1
    · refine view_setSlot_drop h.cache (by dsimp only; omega) fun hv => ?_
      rw [h.clean ip hip (by omega) hv, h.dinode]
    · refine view_setSlot_frame rfl rfl rfl ?_
      dsimp only
      omega
  · dsimp only
    omega
  · dsimp only
    omega

omit h in
theorem iunlockput (ht : s.Tree) (h : Calm s (some ip) (ip ::ₘ I) s') :
    ∃ s₁, iunlockput ip s' = (.ok (), s₁) ∧ Calm s none I s₁ ∧ ∀ k, (s₁.icache k).inum = (s'.icache k).inum := by
  obtain ⟨s₁, hrun1, h1, hinum1⟩ := h.iunlock ht (Multiset.mem_cons_self ip I)
  obtain ⟨s2, hrun2, h2, hinum2⟩ := h1.iput ht
  refine ⟨s2, ?_, h2, fun k => (hinum2 k).trans (hinum1 k)⟩
  unfold Xv6.iunlockput
  rw [bind_of_ok hrun1, hrun2]

end Calm

end Xv6.Fs
