import Xv6.Icache
import Xv6.Sysfile

/-!
# Path names

A path stands for the list of its elements: the pieces between slashes that are not empty, each cut to
`DIRSIZ` bytes. To look up a name in an inode is to find the first entry with that name, if the inode is
a directory, and to resolve a path is to look up its elements one after the other. `namei` and
`nameiparent` do that, or run out of cache entries: that takes at most one entry that is free.
-/

namespace Xv6

open Exec

def elements (path : List UInt8) : List (List UInt8) :=
  ((path.splitOnP (· = slash)).filter (· ≠ [])).map (·.take DIRSIZ)

namespace Store

variable (st : Store)

def lookup (i : Nat) (name : List UInt8) : Option Nat :=
  if (st.inode i).type = T_DIR then
    ((List.range ((st.inode i).size.toNat / DIRENT)).find? fun k =>
      (st.dirent i k).inum ≠ 0 ∧ chars (st.dirent i k).str DIRSIZ = name).map fun k => (st.dirent i k).inum.toNat
  else none

def walk (i : Nat) (names : List (List UInt8)) : Option Nat := names.foldlM st.lookup i

/-- The directory that is reached by all but the last name, and that name. -/
def parent (i : Nat) (names : List (List UInt8)) : Option (Nat × List UInt8) :=
  names.getLast?.bind fun name =>
    (st.walk i names.dropLast).bind fun j => if (st.inode j).type = T_DIR then some (j, name) else none

/-- The walk of `namex`, with the last name it has seen. -/
def resolve (nameiparent : Bool) : Nat → List (List UInt8) → List UInt8 → Option (Nat × List UInt8)
  | i, [], name => if nameiparent then none else some (i, name)
  | i, c :: cs, _ =>
    if (st.inode i).type ≠ T_DIR then none
    else if nameiparent ∧ cs = [] then some (i, c)
    else (st.lookup i c).bind fun j => resolve nameiparent j cs c

variable {st} {i : Nat} {c : List UInt8} {cs : List (List UInt8)}

theorem walk_cons : st.walk i (c :: cs) = (st.lookup i c).bind fun j => st.walk j cs := rfl

theorem lookup_of_not_dir (h : (st.inode i).type ≠ T_DIR) (c : List UInt8) : st.lookup i c = none := if_neg h

theorem parent_single : st.parent i [c] = if (st.inode i).type = T_DIR then some (i, c) else none := rfl

theorem parent_cons (h : cs ≠ []) : st.parent i (c :: cs) = (st.lookup i c).bind fun j => st.parent j cs := by
  obtain ⟨d, ds, rfl⟩ := List.exists_cons_of_ne_nil h
  unfold parent
  rw [List.getLast?_cons_cons, List.dropLast_cons_cons]
  rcases hlast : (d :: ds).getLast? with _ | name
  · cases st.lookup i c <;> rfl
  · show (st.walk i (c :: (d :: ds).dropLast)).bind _ = _
    rw [walk_cons, Option.bind_assoc]
    rfl

theorem walk_of_parent {j : Nat} {name : List UInt8} (h : st.parent i cs = some (j, name)) :
    st.walk i cs = st.lookup j name := by
  unfold parent at h
  obtain ⟨c, hlast, h⟩ := Option.bind_eq_some_iff.1 h
  obtain ⟨j', hwalk, h⟩ := Option.bind_eq_some_iff.1 h
  split at h
  · cases h
    conv_lhs => rw [← List.dropLast_append_getLast? name hlast]
    unfold walk at hwalk ⊢
    rw [List.foldlM_append, hwalk]
    show (st.lookup j name >>= pure) = _
    exact bind_pure _
  · cases h

theorem resolve_false (i : Nat) (cs : List (List UInt8)) (name : List UInt8) :
    (st.resolve false i cs name).map (·.1) = st.walk i cs := by
  induction cs generalizing i name with
  | nil => rfl
  | cons c cs ih =>
    rw [resolve, walk_cons]
    split
    · rename_i h
      rw [lookup_of_not_dir h]
      rfl
    · rw [if_neg (fun h => Bool.false_ne_true h.1), Option.map_bind]
      exact congrArg _ (funext fun j => ih j c)

theorem resolve_true (i : Nat) (cs : List (List UInt8)) (name : List UInt8) :
    st.resolve true i cs name = st.parent i cs := by
  induction cs generalizing i name with
  | nil => rfl
  | cons c cs ih =>
    rw [resolve]
    by_cases hcs : cs = []
    · subst hcs
      rw [parent_single, if_pos (show true = true ∧ ([] : List (List UInt8)) = [] from ⟨rfl, rfl⟩), ite_not]
    · have hstop : ¬ (true = true ∧ cs = []) := fun h => hcs h.2
      rw [parent_cons hcs, if_neg hstop]
      split
      · rename_i h
        rw [lookup_of_not_dir h]
        rfl
      · exact congrArg _ (funext fun j => ih j c)

end Store

/-! ### Elements -/

section Elements

variable {path path' name : List UInt8}

theorem elements_slash (path : List UInt8) : elements (slash :: path) = elements path := by
  have hno : ∀ c ∈ ([] : List UInt8), decide (c = slash) = false := nofun
  have hsplit : (slash :: path).splitOnP (· = slash) = [] :: path.splitOnP (· = slash) :=
    List.splitOnP_append_cons_of_forall_mem hno slash (decide_eq_true rfl) path
  unfold elements
  rw [hsplit]
  rfl

theorem elements_dropWhile (path : List UInt8) : elements (path.dropWhile (· = slash)) = elements path := by
  induction path with
  | nil => rfl
  | cons c path ih =>
    by_cases hc : c = slash
    · subst hc
      rw [List.dropWhile_cons_of_pos (by simp), ih, elements_slash]
    · rw [List.dropWhile_cons_of_neg (by simpa using hc)]

theorem elements_append {w l : List UInt8} (hw : w ≠ []) (hno : ∀ c ∈ w, c ≠ slash)
    (hl : ∀ c ∈ l.head?, c = slash) : elements (w ++ l) = w.take DIRSIZ :: elements l := by
  have hno' : ∀ c ∈ w, decide (c = slash) = false := fun c hc => decide_eq_false (hno c hc)
  rcases l with _ | ⟨c, l⟩
  · unfold elements
    rw [List.append_nil, List.splitOnP_eq_singleton hno', List.filter_cons_of_pos (by simpa using hw)]
    rfl
  · obtain rfl := hl c rfl
    rw [elements_slash]
    unfold elements
    rw [List.splitOnP_append_cons_of_forall_mem hno' slash (decide_eq_true rfl) l,
      List.filter_cons_of_pos (by simpa using hw)]
    rfl

theorem elements_concat (p q : List UInt8) : elements (p ++ slash :: q) = elements p ++ elements q := by
  unfold elements
  rw [List.splitOnP_append_cons p q (decide_eq_true rfl), List.filter_append, List.map_append]

theorem head_dropWhile {p : UInt8 → Bool} {l : List UInt8} : ∀ c ∈ (l.dropWhile p).head?, p c = false := by
  intro c hc
  have := List.head?_dropWhile_not p l
  rw [Option.mem_def.1 hc] at this
  simpa using this

theorem elements_ne_nil (h : path ≠ []) (hhead : ∀ c ∈ path.head?, c ≠ slash) : elements path ≠ [] := by
  obtain ⟨c, cs, rfl⟩ := List.exists_cons_of_ne_nil h
  have hw : (c :: cs).takeWhile (· ≠ slash) ≠ [] := by
    rw [List.takeWhile_cons_of_pos (by simpa using hhead c rfl)]
    exact List.cons_ne_nil _ _
  rw [← List.takeWhile_append_dropWhile (p := (· ≠ slash)) (l := c :: cs), elements_append hw
    (fun c hc => by simpa using List.mem_takeWhile_imp hc) fun c hc => by simpa using head_dropWhile c hc]
  exact List.cons_ne_nil _ _

theorem elements_of_skipelem_none (h : skipelem path = none) : elements path = [] := by
  unfold skipelem at h
  rw [← elements_dropWhile]
  split at h
  · rename_i heq
    rw [heq]
    rfl
  · cases h

/-- `skipelem` takes the first element off. -/
structure Skipped (path path' name : List UInt8) : Prop where
  elements : elements path = name :: elements path'
  last : path' = [] ↔ Xv6.elements path' = []
  length : name.length ≤ DIRSIZ
  name_mem : ∀ c ∈ name, c ∈ path
  path_mem : ∀ c ∈ path', c ∈ path

theorem skipped_of_skipelem (h : skipelem path = some (path', name)) : Skipped path path' name := by
  unfold skipelem at h
  split at h
  · cases h
  · rename_i c cs heq
    have hc : c ≠ slash := by
      have := head_dropWhile (p := (· = slash)) (l := path) c (by rw [heq]; rfl)
      simpa using this
    have hmem : ∀ d ∈ c :: cs, d ∈ path := fun d hd => (List.dropWhile_sublist _).subset (heq ▸ hd)
    obtain ⟨w, hw⟩ : ∃ w, w = (c :: cs).takeWhile (· ≠ slash) := ⟨_, rfl⟩
    obtain ⟨l, hl⟩ : ∃ l, l = (c :: cs).dropWhile (· ≠ slash) := ⟨_, rfl⟩
    have happ : c :: cs = w ++ l := by rw [hw, hl, List.takeWhile_append_dropWhile]
    have hne : w ≠ [] := by
      rw [hw, List.takeWhile_cons_of_pos (by simpa using hc)]
      exact List.cons_ne_nil _ _
    have hno : ∀ d ∈ w, d ≠ slash := fun d hd => by
      rw [hw] at hd
      simpa using List.mem_takeWhile_imp hd
    have hfirst := elements_append (l := l) hne hno
      fun d hd => by rw [hl] at hd; simpa using head_dropWhile d hd
    dsimp only at h
    rw [← hw, happ, List.drop_left, List.take_append_of_le_length (Nat.min_le_left w.length DIRSIZ),
      Option.some.injEq, Prod.mk.injEq] at h
    obtain ⟨rfl, rfl⟩ := h
    have htake : w.take (min w.length DIRSIZ) = w.take DIRSIZ := by rw [Nat.min_comm, ← List.take_take, List.take_length]
    refine ⟨?_, ?_, ?_, fun d hd => ?_, fun d hd => ?_⟩
    · rw [← elements_dropWhile path, heq, happ, hfirst, htake, elements_dropWhile]
    · refine ⟨fun hnil => by rw [hnil]; rfl, fun hnil => ?_⟩
      by_contra hpath
      exact elements_ne_nil hpath (fun d hd => by simpa using head_dropWhile d hd) hnil
    · rw [htake, List.length_take]
      exact Nat.min_le_left _ _
    · exact hmem d (happ ▸ List.mem_append_left l (List.mem_of_mem_take hd))
    · exact hmem d (happ ▸ List.mem_append_right w ((List.dropWhile_sublist _).subset hd))

end Elements

/-! ### The walk -/

namespace Fs

variable {s s' : Fs} {ip dp : Slot} {I : Multiset Slot} {name : List UInt8}

namespace Calm

variable (ht : s.Tree)

include ht

theorem dir (h : Calm s (some dp) I s') (hdp : dp ∈ I) (hv : (s'.icache dp).valid = true)
    (hdir : (s'.icache dp).type = T_DIR) : s'.Dir dp := by
  have hlive := (h.kept dp hdp).live
  have hi := h.inode_eq ht hdp hv
  refine ⟨h.isOpen ht hdp hv, hdir, ?_, ?_⟩
  · rw [← hi]
    exact ht.store.size_le _ hlive
  · rw [← hi]
    exact ht.align _ hlive (hi ▸ hdir)

theorem hasEntries (h : Calm s (some dp) I s') (hdp : dp ∈ I) (hd : s'.Dir dp) :
    s'.HasEntries dp (s'.nentries dp) := by
  intro pos hpos
  rw [h.view]
  refine ht.store.full _ _ (h.kept dp hdp).live ?_
  rw [h.inode_eq ht hdp hd.valid, hd.size]
  simp only [BSIZE] at *
  omega

theorem dirlookup (h : Calm s (some dp) I s') (hdp : dp ∈ I) (hv : (s'.icache dp).valid = true)
    (hdir : (s'.icache dp).type = T_DIR) (hname : ∀ c ∈ name, c ≠ 0) (hlen : name.length ≤ DIRSIZ) :
    Meets (dirlookup dp name) s' (fun r s₁ =>
      (r = none ∧ s₁ = s' ∧ s.view.lookup (s'.icache dp).inum name = none) ∨
      ∃ ip off, r = some (ip, off) ∧ s.view.lookup (s'.icache dp).inum name = some (s₁.icache ip).inum ∧
        Calm s (some dp) (ip ::ₘ I) s₁)
      fun e _ => e = .panic "iget: no inodes" ∧ ∀ k, (s'.icache k).ref ≠ 0 := by
  have hd := h.dir ht hdp hv hdir
  have hn := h.hasEntries ht hdp hd
  have hi := h.inode_eq ht hdp hv
  have hlive := (h.kept dp hdp).live
  have hchars : chars (cstr name) DIRSIZ = name := (chars_cstr hname DIRSIZ).trans (List.take_of_length_le hlen)
  have hnamed : ∀ k, Dirent.named name (s'.view.dirent (s'.icache dp).inum k) =
      decide ((s.view.dirent (s'.icache dp).inum k).inum ≠ 0 ∧
        chars (s.view.dirent (s'.icache dp).inum k).str DIRSIZ = name) := fun k => by
    rw [Bool.eq_iff_iff, Dirent.named_iff, hchars, h.view, decide_eq_true_iff, eq_comm (a := name)]
  have hlookup : s.view.lookup (s'.icache dp).inum name = ((List.range (s'.nentries dp)).find? fun k =>
      Dirent.named name (s'.view.dirent (s'.icache dp).inum k)).map
        fun k => (s.view.dirent (s'.icache dp).inum k).inum.toNat := by
    unfold Store.lookup
    rw [if_pos (hi ▸ hdir), funext hnamed, hi]
    rfl
  rw [hlookup]
  unfold Xv6.dirlookup
  refine .get_bind ?_
  rw [if_neg (not_not.2 hdir), dirRounds]
  rcases hfind : (List.range (s'.nentries dp)).find? fun k =>
    Dirent.named name (s'.view.dirent (s'.icache dp).inum k) with _ | k
  · refine .ok_bind (hd.dirScan_none (a := 0) hn (Nat.zero_le _) (fun m _ hm => ?_) (by
      show s'.nentries dp < 0 + (s'.nentries dp + 1)
      omega)) (.pure (.inl ⟨rfl, rfl, rfl⟩))
    exact eq_false_of_ne_true (List.find?_eq_none.1 hfind m (List.mem_range.2 hm))
  · obtain ⟨hp, hk, hfirst⟩ := List.find?_range_eq_some.1 hfind
    have hk := List.mem_range.1 hk
    refine .ok_bind (hd.dirScan_found (a := 0) (fun pos hpos => hn pos ?_) hk (Nat.zero_le _) hp
      (fun m _ hm => by simpa using hfirst m hm) (by
        show k < 0 + (s'.nentries dp + 1)
        omega)) ?_
    · exact hpos.trans_le (Nat.mul_le_mul_left _ hk)
    · have huse : (s.view.dirent (s'.icache dp).inum k).inum ≠ 0 := (of_decide_eq_true ((hnamed k).symm.trans hp)).1
      have hstay := ht.target _ k hlive (hi ▸ hdir) (by rw [hi]; exact hk) huse
      dsimp only
      rw [h.cache.dev dp hd.ref, h.view]
      refine (h.iget ht hstay).bind fun ip s₁ ⟨h1, hinum, _⟩ => .pure (.inr ⟨ip, _, rfl, ?_, h1⟩)
      rw [hinum]
      rfl

omit ht in
theorem stays {i : Nat} (h : Calm s none I s') (hi : s.Stays i) : s'.Stays i := by
  have hsb : s'.sb = s.sb := by rw [h.same]
  refine ⟨by rw [h.view, hsb]; exact hi.live, ?_⟩
  rcases hi.lasting with hlink | ⟨k, hk, rfl⟩
  · exact .inl (by rwa [h.view])
  · refine .inr ⟨k, ?_, h.inum k hk⟩
    rw [h.ref]
    omega

theorem tree (h : Calm s none I s') : s'.Tree := by
  have hsb : s'.sb = s.sb := by rw [h.same]
  refine ⟨hsb ▸ ht.sb, h.cache, ?_, h.locked, h.stays ht.root, fun k hk => ?_, ?_, ?_⟩
  · rw [h.view, hsb]
    exact ht.store
  · -- the entry was in use before, or it is one of the new references
    rw [h.view, hsb]
    rw [h.ref] at hk
    by_cases hin : k ∈ I
    · exact (h.kept k hin).live
    · rw [Multiset.count_eq_zero_of_notMem hin, Nat.cast_zero, add_zero] at hk
      rw [h.inum k hk]
      exact ht.cached k hk
  · rw [h.view, hsb]
    exact ht.align
  · rw [h.view, hsb]
    intro i k hi hdir hk hne
    exact h.stays (ht.target i k hi hdir hk hne)

end Calm

def NoInodes (s : Fs) (e : Stop) (_ : Fs) : Prop :=
  e = .panic "iget: no inodes" ∧ ∃ a, ∀ k, (s.icache k).ref = 0 → k = a

def held (r : Option Slot) : Multiset Slot := r.elim 0 fun ip => {ip}

theorem Calm.noInodes {L : Option Slot} (h : Calm s L {ip} s') (hbusy : ∀ k, (s'.icache k).ref ≠ 0) :
    ∃ a, ∀ k, (s.icache k).ref = 0 → k = a := by
  refine ⟨ip, fun k hk => ?_⟩
  have hne := hbusy k
  rw [h.ref, hk, Multiset.count_singleton] at hne
  by_contra hkip
  rw [if_neg hkip] at hne
  exact hne rfl

theorem namexLoop_calm (ht : s.Tree) (b : Bool) (fuel : Nat) (ip : Slot) (path name : List UInt8) (s' : Fs)
    (h : Calm s none {ip} s') (hfuel : path.length < fuel) (hnul : ∀ c ∈ path, c ≠ 0) :
    Meets (namexLoop b fuel ip path name) s' (fun r s₁ =>
      r.map (fun x => ((s₁.icache x.1).inum, x.2)) = s.view.resolve b (s'.icache ip).inum (elements path) name ∧
        Calm s none (held (r.map (·.1))) s₁) (NoInodes s) := by
  induction fuel generalizing ip path name s' with
  | zero => omega
  | succ fuel ih =>
    unfold namexLoop
    rcases hs : skipelem path with _ | ⟨path', name'⟩
    · rw [elements_of_skipelem_none hs]
      cases b with
      | true =>
        obtain ⟨s₁, hrun, h1, _⟩ := h.iput (I := 0) ht
        exact .ok_bind hrun (.pure ⟨rfl, h1⟩)
      | false => exact .pure ⟨rfl, h⟩
    · have hsk := skipped_of_skipelem hs
      have hshort := skipelem_length hs
      have hip := Multiset.mem_singleton_self ip
      obtain ⟨s₁, hlock, h1, hv1, hinum1⟩ := h.ilock ht hip
      rw [hsk.elements, ← hinum1 ip, Store.resolve, h1.inode_eq ht hip hv1]
      refine .ok_bind hlock (.get_bind ?_)
      by_cases hdir : (s₁.icache ip).type = T_DIR
      · rw [if_neg (not_not.2 hdir), if_neg (not_not.2 hdir)]
        by_cases hstop : b = true ∧ path' = []
        · rw [if_pos hstop, if_pos ⟨hstop.1, hsk.last.1 hstop.2⟩]
          obtain ⟨s2, hrun, h2, hinum2⟩ := h1.iunlock ht hip
          refine .ok_bind hrun (.pure ⟨?_, h2⟩)
          show some ((s2.icache ip).inum, name') = _
          rw [hinum2]
        · rw [if_neg hstop, if_neg fun hc => hstop ⟨hc.1, hsk.last.2 hc.2⟩]
          refine ((h1.dirlookup ht hip hv1 hdir (fun c hc => hnul c (hsk.name_mem c hc)) hsk.length).mono
            (fun _ _ hQ => hQ) fun e s2 he => (⟨he.1, h1.noInodes he.2⟩ : NoInodes s e s2)).bind fun r s2 hr => ?_
          rcases hr with ⟨rfl, rfl, hnone⟩ | ⟨next, off, rfl, hsome, h2⟩
          · obtain ⟨s3, hrun, h3, _⟩ := Calm.iunlockput (I := 0) ht h1
            rw [hnone]
            exact .ok_bind hrun (.pure ⟨rfl, h3⟩)
          · have hswap : next ::ₘ {ip} = ip ::ₘ {next} := Multiset.cons_swap next ip 0
            rw [hswap] at h2
            obtain ⟨s3, hrun, h3, hinum3⟩ := h2.iunlockput ht
            rw [hsome, ← hinum3 next]
            exact .ok_bind hrun (ih next path' name' s3 h3 (by omega) fun c hc => hnul c (hsk.path_mem c hc))
      · rw [if_pos hdir, if_pos hdir]
        obtain ⟨s2, hrun, h2, _⟩ := Calm.iunlockput (I := 0) ht h1
        exact .ok_bind hrun (.pure ⟨rfl, h2⟩)

variable {cwd : Slot} {path : List UInt8}

def start (s : Fs) (cwd : Slot) (path : List UInt8) : Nat :=
  if path.head? = some slash then ROOTINO else (s.icache cwd).inum

theorem namexStart_calm (ht : s.Tree) (hcwd : 0 < (s.icache cwd).ref) :
    Meets (namexStart cwd path) s (fun ip s' => Calm s none {ip} s' ∧ (s'.icache ip).inum = s.start cwd path)
      (NoInodes s) := by
  unfold namexStart start
  split
  · exact ((Calm.refl ht).iget ht ht.root).mono (fun ip s' h => ⟨h.1, h.2.1⟩) fun e s' he =>
      ⟨he.1, cwd, fun k hk => absurd hk (he.2 k)⟩
  · have hstay : s.Stays (s.icache cwd).inum := ⟨ht.cached cwd hcwd, .inr ⟨cwd, hcwd, rfl⟩⟩
    have hmore : Calm s none {cwd} _ := (Calm.refl ht).more hcwd hstay
    exact .of_ok (show idup cwd s = (.ok cwd, _) from rfl) ⟨hmore, inum_setSlot (by rfl) cwd⟩

theorem namex_calm (ht : s.Tree) (hcwd : 0 < (s.icache cwd).ref) (hnul : ∀ c ∈ path, c ≠ 0) (b : Bool) :
    Meets (namex cwd path b) s (fun r s' =>
      r.map (fun x => ((s'.icache x.1).inum, x.2)) = s.view.resolve b (s.start cwd path) (elements path) [] ∧
        Calm s none (held (r.map (·.1))) s') (NoInodes s) := by
  refine (namexStart_calm ht hcwd).bind fun ip s' ⟨h, hinum⟩ => ?_
  rw [← hinum]
  exact namexLoop_calm ht b _ ip path [] s' h (Nat.lt_succ_self _) hnul

theorem namei_calm (ht : s.Tree) (hcwd : 0 < (s.icache cwd).ref) (hnul : ∀ c ∈ path, c ≠ 0) :
    Meets (namei cwd path) s (fun r s' =>
      r.map (fun ip => (s'.icache ip).inum) = s.view.walk (s.start cwd path) (elements path) ∧
        Calm s none (held r) s') (NoInodes s) := by
  refine (namex_calm ht hcwd hnul false).bind fun r s' ⟨hr, h⟩ => .pure ⟨?_, h⟩
  rw [← Store.resolve_false _ _ [], ← hr, Option.map_map, Option.map_map]
  rfl

theorem nameiparent_calm (ht : s.Tree) (hcwd : 0 < (s.icache cwd).ref) (hnul : ∀ c ∈ path, c ≠ 0) :
    Meets (nameiparent cwd path) s (fun r s' =>
      r.map (fun x => ((s'.icache x.1).inum, x.2)) = s.view.parent (s.start cwd path) (elements path) ∧
        Calm s none (held (r.map (·.1))) s') (NoInodes s) := by
  rw [← Store.resolve_true _ _ []]
  exact namex_calm ht hcwd hnul true

/-- To resolve a path is to look up its elements one after the other. -/
theorem path_resolution (cwd : Slot) (path : List UInt8) (ht : s.Tree) (hcwd : 0 < (s.icache cwd).ref)
    (hnul : ∀ c ∈ path, c ≠ 0) :
    Meets (namei cwd path) s (fun r s' =>
      r.map (fun ip => (s'.icache ip).inum) = s.view.walk (s.start cwd path) (elements path) ∧
        Calm s none (held r) s') (NoInodes s) ∧
    Meets (nameiparent cwd path) s (fun r s' =>
      r.map (fun x => ((s'.icache x.1).inum, x.2)) = s.view.parent (s.start cwd path) (elements path) ∧
        Calm s none (held (r.map (·.1))) s') (NoInodes s) ∧
    ∀ dp name s₁ r s₂, nameiparent cwd path s = (.ok (some (dp, name)), s₁) → namei cwd path s = (.ok r, s₂) →
      r.map (fun ip => (s₂.icache ip).inum) = s.view.lookup (s₁.icache dp).inum name := by
  refine ⟨namei_calm ht hcwd hnul, nameiparent_calm ht hcwd hnul, fun dp name s₁ r s₂ hrun1 hrun2 => ?_⟩
  rw [((namei_calm ht hcwd hnul).run_ok hrun2).1]
  exact Store.walk_of_parent ((nameiparent_calm ht hcwd hnul).run_ok hrun1).1.symm

/-- `p/q` names what `q` names from `p` on: nothing if there is no `p`, and otherwise the inode that `namei` finds
for `q` when `p` is the current directory. -/
theorem namei_relative (cwd : Slot) (p q : List UInt8) (ht : s.Tree) (hcwd : 0 < (s.icache cwd).ref) (hp : p ≠ [])
    (hq : q.head? ≠ some slash) (hnul : ∀ c ∈ p ++ slash :: q, c ≠ 0) :
    Meets (namei cwd (p ++ slash :: q)) s (fun r s' =>
      Meets (namei cwd p) s (fun d s₁ => d.elim (r = none) fun dp =>
        Meets (namei dp q) s₁ (fun r₂ s₂ =>
          r₂.map (fun ip => (s₂.icache ip).inum) = r.map fun ip => (s'.icache ip).inum) (NoInodes s₁))
        (NoInodes s)) (NoInodes s) := by
  have hstart : s.start cwd (p ++ slash :: q) = s.start cwd p := by
    obtain ⟨c, cs, rfl⟩ := List.exists_cons_of_ne_nil hp
    rfl
  refine (namei_calm ht hcwd hnul).mono (fun r s' hr => ?_) fun _ _ => id
  have hwalk := hr.1
  rw [hstart, elements_concat, Store.walk, List.foldlM_append] at hwalk
  have hnulp : ∀ c ∈ p, c ≠ 0 := fun c hc => hnul c (List.mem_append_left _ hc)
  refine (namei_calm ht hcwd hnulp).mono (fun d s₁ hd => ?_) fun _ _ => id
  obtain ⟨hd, hcalm⟩ := hd
  rw [Store.walk] at hd
  rw [← hd] at hwalk
  rcases d with _ | dp
  · exact Option.map_eq_none_iff.1 hwalk
  · have href : 0 < (s₁.icache dp).ref := by
      have hnonneg := ht.cache.nonneg dp
      rw [hcalm.ref, held, Option.elim_some, Multiset.count_singleton_self]
      omega
    have hnulq : ∀ c ∈ q, c ≠ 0 := fun c hc => hnul c (List.mem_append_right _ (List.mem_cons_of_mem _ hc))
    refine (namei_calm (hcalm.tree ht) href hnulq).mono (fun r₂ s₂ hr₂ => ?_) fun _ _ => id
    rw [hr₂.1, hwalk, hcalm.view, start, if_neg hq]
    rfl

end Fs

/-! ### The small image -/

namespace Image

/-- The kernel as it starts from the disk `d`. -/
def startedFrom (d : Nat → Block) : Fs := { fs with disk := d }

theorem icache_ref {k : Slot} (h : 0 < (icache k).ref) : k = 0 := by
  by_contra hk
  have hfree : icache k = ⟨default, 0, 0, 0, false, false⟩ := if_neg hk
  rw [hfree] at h
  exact absurd h (by decide)

/-- The entry names an inode that is in use and has links. -/
def EntryOk (st : Store) (x : Dirent) : Prop := x.inum ≠ 0 →
  x.inum.toNat < sb.ninodes ∧ (st.inode x.inum.toNat).type ≠ 0 ∧ (st.inode x.inum.toNat).nlink ≠ 0

instance (st : Store) (x : Dirent) : Decidable (EntryOk st x) := inferInstanceAs (Decidable (_ → _))

theorem startedFrom_tree {d : Nat → Block} (hstore : (startedFrom d).view.fsck sb = true)
    (hroot : ((startedFrom d).view.inode ROOTINO).type ≠ 0)
    (hdirs : ∀ i, i < sb.ninodes → ((startedFrom d).view.inode i).type = T_DIR →
      DIRENT ∣ ((startedFrom d).view.inode i).size.toNat ∧
      ∀ k, k < ((startedFrom d).view.inode i).size.toNat / DIRENT →
        EntryOk (startedFrom d).view ((startedFrom d).view.dirent i k)) : (startedFrom d).Tree := by
  have hstays : (startedFrom d).Stays ROOTINO :=
    ⟨⟨Nat.one_pos, show 1 < 16 by decide, hroot⟩, .inr ⟨0, Int.one_pos, rfl⟩⟩
  have hsb : sb.Ok := ⟨by decide, by decide, by decide⟩
  refine ⟨hsb, ⟨fun k => ?_, fun k h => ?_, fun k l h h' _ => ?_, fun k h hv => ?_⟩, Store.fsck_ok hstore, fun k => ?_, hstays, fun k h => ?_, fun i hi ht => (hdirs i hi.2.1 ht).1,
    fun i k hi ht hk hne => ?_⟩
  · show 0 ≤ (icache k).ref
    unfold icache
    split <;> decide
  · rw [icache_ref h]
    rfl
  · rw [icache_ref h, icache_ref h']
  · rw [icache_ref h] at hv
    cases hv
  · show (icache k).locked = false
    unfold icache
    split <;> rfl
  · rw [icache_ref h]
    exact hstays.live
  · obtain ⟨hlt, htype, hlink⟩ := (hdirs i hi.2.1 ht).2 k hk hne
    exact ⟨⟨Nat.pos_of_ne_zero fun hz => hne (UInt16.toNat_inj.1 hz), hlt, htype⟩, .inl hlink⟩

theorem tree : fs.Tree := startedFrom_tree (by decide +kernel) (by decide +kernel) (by decide +kernel)

end Image

namespace Fs

/-- The path `/.//..`. -/
theorem path_resolution_dots : ∃ ip s' dp s'',
    namei 0 [slash, 46, slash, slash, 46, 46] Image.fs = (.ok (some ip), s') ∧ (s'.icache ip).inum = ROOTINO ∧
    nameiparent 0 [slash, 46, slash, slash, 46, 46] Image.fs = (.ok (some (dp, dotdot)), s'') ∧
    (s''.icache dp).inum = ROOTINO := by
  have hroom : ∀ e s', ¬ NoInodes Image.fs e s' := by
    rintro e s' ⟨-, a, ha⟩
    exact absurd ((ha 1 (by decide)).trans (ha 2 (by decide)).symm) (by decide)
  have hpath := path_resolution 0 [slash, 46, slash, slash, 46, 46] Image.tree (by decide) (by simp [slash])
  obtain ⟨r, s', hrun, hr, -⟩ := hpath.1.total hroom
  obtain ⟨r', s'', hrun', hr', -⟩ := hpath.2.1.total hroom
  have hwalk : Image.fs.view.walk (Image.fs.start 0 [slash, 46, slash, slash, 46, 46])
      (elements [slash, 46, slash, slash, 46, 46]) = some ROOTINO := by decide +kernel
  have hparent : Image.fs.view.parent (Image.fs.start 0 [slash, 46, slash, slash, 46, 46])
      (elements [slash, 46, slash, slash, 46, 46]) = some (ROOTINO, dotdot) := by decide +kernel
  rw [hwalk] at hr
  rw [hparent] at hr'
  obtain ⟨ip, rfl, hip⟩ := Option.map_eq_some_iff.1 hr
  obtain ⟨⟨dp, name⟩, rfl, hdp⟩ := Option.map_eq_some_iff.1 hr'
  obtain ⟨hdp, rfl⟩ := Prod.mk.inj hdp
  exact ⟨ip, s', dp, s'', hrun, hip, hrun', hdp⟩

theorem namei_relative_dots :
    Meets (namei 0 [46, slash, 46, 46]) Image.fs (fun r s' =>
      Meets (namei 0 [46]) Image.fs (fun d s₁ => d.elim (r = none) fun dp =>
        Meets (namei dp [46, 46]) s₁ (fun r₂ s₂ =>
          r₂.map (fun ip => (s₂.icache ip).inum) = r.map fun ip => (s'.icache ip).inum) (NoInodes s₁))
        (NoInodes Image.fs)) (NoInodes Image.fs) :=
  namei_relative 0 [46] [46, 46] Image.tree (by decide) (by decide) (by decide) (by simp [slash])

end Fs

end Xv6
