import Xv6.Vm
import Xv6.Lib.Tally

/-!
# Pages are neither lost nor duplicated by `vm.c`

`PageDir.count f` is the number of places at which a page directory owns the page `f`: as its own
page, as a page table, or as a page that a user address is mapped to. Every function of `vm.c`
keeps, for every page, the sum of this number and of its occurrences in the free list.
-/

namespace Xv6.Vm

open Function Tally Exec

variable {L : Layout} {s s' : Kmem} {pd pd' : PageDir} {f va a : Nat}

/-! ### Counting -/

def is (f page : Nat) : Nat := if page = f then 1 else 0

def pteCount (f : Nat) : Option Pte → Nat
  | none => 0
  | some e => is f e.page

/-- The entries of a page table own pages only in the user half. -/
def tableCount (f : Nat) (i : Fin 1024) : Option PageTable → Nat
  | none => 0
  | some t => is f t.page + if i.val < 512 then tally (pteCount f) t.pte else 0

theorem tableCount_none (f : Nat) (i : Fin 1024) : tableCount f i none = 0 := rfl

theorem tableCount_some (f : Nat) (i : Fin 1024) (t : PageTable) : tableCount f i (some t) =
    is f t.page + if i.val < 512 then tally (pteCount f) t.pte else 0 := rfl

def PageDir.count (pd : PageDir) (f : Nat) : Nat := is f pd.page + ∑ i, tableCount f i (pd.pde i)

def Kmem.count (s : Kmem) (f : Nat) : Nat := s.freelist.count f

def Kmem.handed (s : Kmem) (f : Nat) : Nat := s.out.count f

def Kmem.wrong (s : Kmem) (f : Nat) : Nat := s.bad.count f

/-- On the way from `s` to `s'` the caller's share of `f` goes from `o` to `o'` and the free list's
changes accordingly. If the share is part of what was handed out, and `f` was either free or
handed out once, then no call of the allocator was wrong about `f`. -/
abbrev Keeps (f : Nat) (s : Kmem) (o : Nat) (s' : Kmem) (o' : Nat) : Prop :=
  s'.count f + o' = s.count f + o ∧
    (o ≤ s.handed f → s'.handed f + o = s.handed f + o' ∧
      (s.count f + s.handed f ≤ 1 → s'.wrong f = s.wrong f))

theorem Keeps.refl (f : Nat) (s : Kmem) (o : Nat) : Keeps f s o s o := ⟨rfl, fun _ => ⟨rfl, fun _ => rfl⟩⟩

theorem Keeps.trans {s₁ : Kmem} {o o₁ o' : Nat} (h₁ : Keeps f s o s₁ o₁) (h₂ : Keeps f s₁ o₁ s' o') :
    Keeps f s o s' o' := by
  omega

theorem Keeps.frame {o o' : Nat} (h : Keeps f s o s' o') (r : Nat) : Keeps f s (o + r) s' (o' + r) := by
  omega

/-- One transfer after another, of which the second leaves `r` alone. -/
theorem Keeps.step {s₁ : Kmem} {o o₁ o₂ o' o'' : Nat} (h₁ : Keeps f s o s₁ o₁) (h₂ : Keeps f s₁ o₂ s' o')
    (r : Nat) (hr : o₁ = o₂ + r) (hr' : o'' = o' + r) : Keeps f s o s' o'' := by
  subst hr hr'
  exact h₁.trans (h₂.frame r)

/-! ### The allocator -/

def held (f : Nat) : Option Nat → Nat
  | none => 0
  | some v => is f v

theorem kalloc_ends (s : Kmem) : Ends kalloc s fun r s' => ∀ f, Keeps f s 0 s' (held f r) := by
  intro r s' h f
  unfold kalloc at h
  split at h
  · cases h; exact .refl f s 0
  · split at h
    · rename_i hl
      cases h; exact .refl f s 0
    · rename_i r next hl
      cases h
      simp only [Keeps, Kmem.count, Kmem.handed, Kmem.wrong, hl, held, is, List.count_cons, beq_iff_eq]
      refine ⟨rfl, fun _ => ⟨rfl, fun hle => ?_⟩⟩
      rcases eq_or_ne r f with rfl | hne
      · have hout : r ∉ s.out := List.count_eq_zero.1 (by simp only [if_true] at hle; omega)
        rw [if_neg hout]
      · split
        · rw [List.count_cons_of_ne hne]
        · rfl

theorem kalloc_halts (s : Kmem) : Halts kalloc s := by
  unfold Halts kalloc
  split
  · exact ⟨_, _, rfl⟩
  · split <;> exact ⟨_, _, rfl⟩

theorem kalloc_meets {E : Panic → Kmem → Prop} (s : Kmem) :
    Meets kalloc s (fun r s' => ∀ f, Keeps f s 0 s' (held f r)) E := (kalloc_halts s).meets (kalloc_ends s)

theorem kfree_meets (s : Kmem) (v : Nat) : Meets (kfree L v) s
    (fun _ s' => (∀ f, Keeps f s (is f v) s' 0) ∧ s'.freelist = v :: s.freelist) fun _ _ => ¬ L.managed v := by
  unfold kfree
  split
  · rename_i hout
    exact .stop fun h => hout.elim h.1.not_gt h.2.not_ge
  · refine .modify ⟨fun f => ?_, rfl⟩
    simp only [Keeps, Kmem.count, Kmem.handed, Kmem.wrong, is, List.count_cons, List.count_erase, beq_iff_eq]
    refine ⟨rfl, fun hle => ?_⟩
    rcases eq_or_ne v f with rfl | hne
    · rw [if_pos rfl] at hle ⊢
      have hout : v ∈ s.out := List.count_pos_iff.1 hle
      rw [if_pos hout]
      exact ⟨by omega, fun _ => rfl⟩
    · rw [if_neg hne]
      refine ⟨rfl, fun _ => ?_⟩
      split
      · rfl
      · rw [List.count_cons_of_ne hne]

theorem kfree_ends (s : Kmem) (v : Nat) : Ends (kfree L v) s fun _ s' => ∀ f, Keeps f s (is f v) s' 0 :=
  (kfree_meets s v).ends.mono fun _ _ h => h.1

/-! ### Entries -/

namespace PageDir

/-- Two addresses with the same page table entry. -/
def SamePage (a b : Nat) : Prop := PDX a = PDX b ∧ PTX a = PTX b

theorem get_set {e : Option Pte} (h : (pd.pde (PDX a)).isSome = true) (hs : SamePage va a) :
    (pd.set a e).get va = e := by
  obtain ⟨t, ht⟩ := Option.isSome_iff_exists.1 h
  simp [get, set, hs.1, hs.2, ht]

theorem get_set_of_ne {e : Option Pte} (hs : ¬ SamePage va a) : (pd.set a e).get va = pd.get va := by
  by_cases hd : PDX va = PDX a
  · have ht : PTX va ≠ PTX a := fun ht => hs ⟨hd, ht⟩
    rcases hp : pd.pde (PDX a) with _ | t <;> simp [get, set, hd, hp, ht]
  · simp [get, set, hd]

theorem isSome_set {e : Option Pte} (i : Fin 1024) : ((pd.set a e).pde i).isSome = (pd.pde i).isSome := by
  by_cases hi : i = PDX a
  · subst hi; simp [set]
  · simp [set, hi]

/-- Storing an entry exchanges the page it owns, in the user half. -/
theorem count_set {e : Option Pte} (h : (pd.pde (PDX a)).isSome = true) (f : Nat) :
    (pd.set a e).count f + (if (PDX a).val < 512 then pteCount f (pd.get a) else 0) =
      pd.count f + if (PDX a).val < 512 then pteCount f e else 0 := by
  obtain ⟨t, ht⟩ := Option.isSome_iff_exists.1 h
  have hsum := sum_update (tableCount f) pd.pde (PDX a) (some { t with pte := update t.pte (PTX a) e })
  have htab := tally_update (pteCount f) t.pte (PTX a) e
  have hget : pd.get a = t.pte (PTX a) := by simp [get, ht]
  have hset : (pd.set a e).pde = update pd.pde (PDX a) (some { t with pte := update t.pte (PTX a) e }) := by
    simp [set, ht]
  have hpage : (pd.set a e).page = pd.page := rfl
  rw [count, count, hset, hget, hpage]
  rw [tableCount_some, ht, tableCount_some] at hsum
  dsimp only at hsum
  split at hsum <;> split <;> omega

theorem count_newTable {page : Nat} (h : pd.pde (PDX a) = none) (f : Nat) :
    ({ pd with pde := update pd.pde (PDX a) (some ⟨page, fun _ => none⟩) } : PageDir).count f =
      pd.count f + is f page := by
  have hsum := sum_update (tableCount f) pd.pde (PDX a) (some ⟨page, fun _ => none⟩)
  have hzero : tally (pteCount f) (fun _ : Fin 1024 => (none : Option Pte)) = 0 := tally_eq_zero fun _ => rfl
  rw [tableCount_some, h, tableCount_none, hzero, ite_self] at hsum
  dsimp only at hsum
  simp only [count]
  omega

end PageDir

/-! ### Building page tables -/

theorem walkpgdir_meets {E : Panic → Kmem → Prop} (s : Kmem) (pd : PageDir) (va : Nat) (alloc : Bool) :
    Meets (walkpgdir pd va alloc) s (fun r s' =>
      (∀ f, Keeps f s (pd.count f) s' (r.2.count f) ∧ s'.count f ≤ s.count f) ∧ r.2.get = pd.get ∧
        r.1 = (r.2.pde (PDX va)).isSome ∧ (alloc = false → r.2 = pd ∧ s' = s)) E := by
  unfold walkpgdir
  split
  · rename_i t ht
    exact .pure ⟨fun f => ⟨.refl f _ _, le_rfl⟩, rfl, by simp [ht], fun _ => ⟨rfl, rfl⟩⟩
  · rename_i ht
    split
    · rename_i halloc
      refine .bind (kalloc_meets s) fun r s1 h1 => ?_
      rcases r with _ | page
      · refine .pure ⟨fun f => ?_, rfl, by simp [ht], fun h => by rw [h] at halloc; cases halloc⟩
        have h2 : Keeps f s 0 s1 0 := h1 f
        dsimp only
        omega
      · refine .pure ⟨fun f => ?_, ?_, by simp, fun h => by rw [h] at halloc; cases halloc⟩
        · have h2 : Keeps f s 0 s1 (is f page) := h1 f
          rw [PageDir.count_newTable ht]
          omega
        · funext a
          by_cases ha : PDX a = PDX va
          · simp [PageDir.get, ha, ht]
          · simp [PageDir.get, ha]
    · exact .pure ⟨fun f => ⟨.refl f _ _, le_rfl⟩, rfl, by simp [ht], fun _ => ⟨rfl, rfl⟩⟩

def owns (f a page : Nat) : Nat := if (PDX a).val < 512 then is f page else 0

theorem mapPage_meets (s : Kmem) (pd : PageDir) (a pa perm : Nat) :
    Meets (mapPage perm pd a pa) s (fun r s' =>
      (∀ f, Keeps f s (pd.count f + if r.1 then owns f a (pa / PGSIZE) else 0) s' (r.2.count f) ∧
        s'.count f ≤ s.count f) ∧
      (∀ va, ¬ (r.1 = true ∧ PageDir.SamePage va a) → r.2.get va = pd.get va) ∧
      (r.1 = true → r.2.get a = some ⟨pa / PGSIZE, perm⟩)) fun _ _ => pd.get a ≠ none := by
  unfold mapPage
  refine .bind (walkpgdir_meets s pd a true) fun r s1 h1 => ?_
  obtain ⟨ok, pd1⟩ := r
  obtain ⟨hc, hget, hok, -⟩ := h1
  dsimp only at hc hget hok ⊢
  rw [← hget]
  rcases ok with _ | _
  · exact .pure ⟨fun f => by simpa using hc f, fun va _ => rfl, nofun⟩
  · simp only [Bool.not_true, Bool.false_eq_true, if_false]
    split
    · rename_i hsome
      exact .stop fun hnone => by rw [hnone] at hsome; cases hsome
    · rename_i hnone
      refine .pure ⟨fun f => ?_, fun va hva => ?_, fun _ => PageDir.get_set hok.symm ⟨rfl, rfl⟩⟩
      · have hset := PageDir.count_set (e := some ⟨pa / PGSIZE, perm⟩) hok.symm f
        have hget' : pd1.get a = none := by simpa using hnone
        rw [hget'] at hset
        have hcf := hc f
        simp only [pteCount, ite_self, if_true, owns] at hset ⊢
        split at hset <;> split <;> omega
      · exact PageDir.get_set_of_ne fun h => hva ⟨rfl, h⟩

theorem PDX_val {a : Nat} (h : a < 2 ^ 32) : (PDX a).val = a / 2 ^ 22 := by
  show a / 2 ^ 22 % 1024 = _
  omega

theorem owns_upper (h : KERNBASE ≤ a) (h' : a < 2 ^ 32) (f page : Nat) : owns f a page = 0 := by
  have := PDX_val h'
  have : ¬ (PDX a).val < 512 := by
    simp only [KERNBASE] at h
    omega
  rw [owns, if_neg this]

theorem owns_lower (h : a < KERNBASE) (f page : Nat) : owns f a page = is f page := by
  simp only [KERNBASE] at h
  have := PDX_val (a := a) (by omega)
  rw [owns, if_pos (by omega)]

theorem PageDir.isSome_of_get {e : Pte} (h : pd.get a = some e) : (pd.pde (PDX a)).isSome = true := by
  rw [PageDir.get] at h
  obtain ⟨t, ht, -⟩ := Option.bind_eq_some_iff.1 h
  rw [ht]
  rfl

theorem PageDir.count_clear {e : Pte} (hlt : a < KERNBASE) (h : pd.get a = some e) (f : Nat) :
    pd.count f = is f e.page + (pd.set a none).count f := by
  have hset := PageDir.count_set (e := none) (PageDir.isSome_of_get h) f
  simp only [KERNBASE] at hlt
  have hlow : (PDX a).val < 512 := by rw [PDX_val (by omega)]; omega
  rw [h, if_pos hlow, if_pos hlow] at hset
  have hpte : pteCount f (some e) = is f e.page := rfl
  have hzero : pteCount f none = 0 := rfl
  omega

theorem samePage_iff {a b : Nat} (ha : a < 2 ^ 32) (hb : b < 2 ^ 32) :
    PageDir.SamePage a b ↔ a / PGSIZE = b / PGSIZE := by
  have h1 := PDX_val ha
  have h2 := PDX_val hb
  have h3 : (PTX a).val = a / 2 ^ 12 % 1024 := rfl
  have h4 : (PTX b).val = b / 2 ^ 12 % 1024 := rfl
  simp only [PageDir.SamePage, Fin.ext_iff, PGSIZE]
  omega

/-- The address of the next page, as the loops compute it. -/
theorem add_PGSIZE_mod (h : a ≤ KERNBASE) : (a + PGSIZE) % 2 ^ 32 = a + PGSIZE := by
  simp only [KERNBASE] at h
  exact Nat.mod_eq_of_lt (by simp only [PGSIZE]; omega)

def PageDir.Unmapped (pd : PageDir) (lo hi : Nat) : Prop := ∀ va, lo ≤ va → va < hi → pd.get va = none

theorem PageDir.get_samePage (h : PageDir.SamePage va a) : pd.get va = pd.get a := by
  rw [PageDir.get, PageDir.get, h.1, h.2]

/-- The loop of `mappages` maps its own pages only, and in the upper half owns nothing. It stops if one of
them is mapped already. -/
theorem mapRounds_meets {perm : Nat} (n : Nat) (s : Kmem) (pd : PageDir) (a pa : Nat) (ha : a % PGSIZE = 0)
    (hle : a + n * PGSIZE ≤ 2 ^ 32) :
    Meets (mapRounds perm n pd a pa) s (fun r s' =>
      (KERNBASE ≤ a → ∀ f, Keeps f s (pd.count f) s' (r.2.count f)) ∧
      (∀ va, va < 2 ^ 32 → va < a ∨ a + n * PGSIZE ≤ va → r.2.get va = pd.get va) ∧
      (r.1 = true → pa % PGSIZE = 0 → pa + n * PGSIZE ≤ 2 ^ 32 → ∀ va, a ≤ va → va < a + n * PGSIZE →
        r.2.get va = some ⟨(pa + (va - a)) / PGSIZE, perm⟩)) fun _ _ => ¬ pd.Unmapped a (a + n * PGSIZE) := by
  simp only [PGSIZE] at ha hle ⊢
  induction n generalizing s pd a pa with
  | zero =>
    rw [mapRounds]
    exact .pure ⟨fun _ f => .refl f _ _, fun _ _ _ => rfl, fun _ _ _ va h1 h2 => by omega⟩
  | succ n ih =>
    have hsame : ∀ va, va < 2 ^ 32 → (PageDir.SamePage va a ↔ a ≤ va ∧ va < a + 4096) := fun va hva => by
      rw [samePage_iff hva (by omega)]
      simp only [PGSIZE]
      omega
    rw [mapRounds]
    refine .bind ((mapPage_meets s pd a pa perm).mono (fun _ _ => id) fun _ _ hne hun =>
      hne (hun a le_rfl (by omega))) fun r s1 h1 => ?_
    obtain ⟨ok, pd1⟩ := r
    obtain ⟨hc, hother, hhere⟩ := h1
    dsimp only at hc hother hhere ⊢
    have hkeep : KERNBASE ≤ a → ∀ f, Keeps f s (pd.count f) s1 (pd1.count f) := fun hup f => by
      have := (hc f).1
      rwa [owns_upper hup (by omega), ite_self, Nat.add_zero] at this
    have hout : ∀ va, va < 2 ^ 32 → va < a ∨ a + 4096 ≤ va → pd1.get va = pd.get va := fun va hva h =>
      hother va fun hs => by have := (hsame va hva).1 hs.2; omega
    rcases ok with _ | _
    · exact .pure ⟨hkeep, fun va hva h => hout va hva (by omega), nofun⟩
    · have hin : ∀ va, a ≤ va → va < a + 4096 → pa % 4096 = 0 → pd1.get va = some ⟨(pa + (va - a)) / 4096, perm⟩ :=
        fun va h1 h2 hpa => by
          have hpage : (pa + (va - a)) / 4096 = pa / PGSIZE := by simp only [PGSIZE]; omega
          rw [PageDir.get_samePage ((hsame va (by omega)).2 ⟨h1, h2⟩), hhere rfl, hpage]
      simp only [Bool.not_true, Bool.false_eq_true, if_false]
      rcases Nat.eq_zero_or_pos n with rfl | hn
      · rw [mapRounds]
        exact .pure ⟨hkeep, fun va hva h => hout va hva (by omega), fun _ hpa _ va h1 h2 => hin va h1 (by omega) hpa⟩
      · have hmod : (a + 4096) % 2 ^ 32 = a + 4096 := Nat.mod_eq_of_lt (by omega)
        rw [hmod]
        refine (ih s1 pd1 (a + 4096) _ (by omega) (by omega)).mono (fun r s' h => ⟨fun hup f => ?_, fun va hva h' => ?_,
          fun hok hpa hple va h1 h2 => ?_⟩) fun _ _ hno hun => hno fun va h1 h2 => ?_
        · exact (hkeep hup f).trans (h.1 (by omega) f)
        · rw [h.2.1 va hva (by omega), hout va hva (by omega)]
        · rcases Nat.lt_or_ge va (a + 4096) with hva | hva
          · rw [h.2.1 va (by omega) (.inl hva), hin va h1 hva hpa]
          · have hmod' : (pa + 4096) % 2 ^ 32 = pa + 4096 := Nat.mod_eq_of_lt (by omega)
            have hdist : pa + 4096 + (va - (a + 4096)) = pa + (va - a) := by omega
            have hlast := h.2.2 hok
            rw [hmod'] at hlast
            rw [hlast (by omega) (by omega) va hva (by omega), hdist]
        · rw [hout va (by omega) (by omega), hun va (by omega) (by omega)]

theorem mappages_one (perm pa : Nat) (ha : a % PGSIZE = 0) (hlt : a < KERNBASE) :
    mappages pd a PGSIZE pa perm = mapRounds perm 1 pd a pa := by
  simp only [KERNBASE, PGSIZE] at ha hlt
  have h1 : pgRoundDown a = a := by simp only [pgRoundDown, PGSIZE]; omega
  have h2 : pgRoundDown (sub32 (a + PGSIZE) 1) = a := by
    simp only [pgRoundDown, sub32, PGSIZE]; omega
  have h3 : pagesUpTo a a = 1 := by simp only [pagesUpTo, sub32, PGSIZE]; omega
  rw [mappages, h1, h2, h3]

theorem mappages_meets (s : Kmem) (pd : PageDir) (a mem perm : Nat) (ha : a % PGSIZE = 0) (h : a < KERNBASE) :
    Meets (mappages pd a PGSIZE (mem * PGSIZE) perm) s (fun r s' =>
      (∀ f, Keeps f s (pd.count f + if r.1 then is f mem else 0) s' (r.2.count f) ∧ s'.count f ≤ s.count f) ∧
      (∀ va, ¬ (r.1 = true ∧ PageDir.SamePage va a) → r.2.get va = pd.get va) ∧
      (r.1 = true → r.2.get a = some ⟨mem, perm⟩)) fun _ _ => pd.get a ≠ none := by
  rw [mappages_one perm _ ha h, mapRounds]
  refine .bind (mapPage_meets s pd a (mem * PGSIZE) perm) fun r s1 h1 => ?_
  obtain ⟨ok, pd1⟩ := r
  rw [Nat.mul_div_cancel _ (by decide)] at h1
  simp only [owns_lower h] at h1
  rcases ok with _ | _
  · exact .pure h1
  · exact .pure h1

def PageDir.SameUpper (pd' pd : PageDir) : Prop := ∀ va, KERNBASE ≤ va → va < 2 ^ 32 → pd'.get va = pd.get va

theorem PageDir.SameUpper.trans {pd'' : PageDir} (h : pd''.SameUpper pd') (h' : pd'.SameUpper pd) :
    pd''.SameUpper pd := fun va h1 h2 => (h va h1 h2).trans (h' va h1 h2)

theorem PageDir.SameUpper.of_ne (ha : a < KERNBASE) (h : ∀ va, ¬ PageDir.SamePage va a → pd'.get va = pd.get va) :
    pd'.SameUpper pd := by
  intro va h1 h2
  refine h va fun hs => ?_
  simp only [KERNBASE] at ha h1
  have := (samePage_iff h2 (by omega)).1 hs
  simp only [PGSIZE] at this
  omega

/-! ### Freeing -/

def Managed (L : Layout) (s : Kmem) (pd : PageDir) : Prop := ∀ f, 0 < s.count f + pd.count f → L.managed f

theorem Managed.keeps (h : Managed L s pd) (hk : ∀ f, Keeps f s (pd.count f) s' (pd'.count f)) :
    Managed L s' pd' := by
  intro f hf
  have h1 := (hk f).1
  exact h f (by omega)

section Unmaps

variable {lo hi : Nat}

/-- The pages mapped from `lo` to `hi`, in order. -/
def PageDir.pagesIn (pd : PageDir) (lo hi : Nat) : List Nat :=
  (List.range ((hi - lo + (PGSIZE - 1)) / PGSIZE)).filterMap fun i => (pd.get (lo + PGSIZE * i)).map Pte.page

namespace PageDir

theorem pagesIn_nil (h : hi ≤ lo) : pd.pagesIn lo hi = [] := by
  rw [pagesIn, show (hi - lo + (PGSIZE - 1)) / PGSIZE = 0 by simp only [PGSIZE]; omega, List.range_zero,
    List.filterMap_nil]

theorem pagesIn_step (h : lo < hi) :
    pd.pagesIn lo hi = ((pd.get lo).map Pte.page).toList ++ pd.pagesIn (lo + PGSIZE) hi := by
  have hlen : (hi - lo + (PGSIZE - 1)) / PGSIZE = (hi - (lo + PGSIZE) + (PGSIZE - 1)) / PGSIZE + 1 := by
    simp only [PGSIZE]
    omega
  rw [pagesIn, hlen, List.range_succ_eq_map, List.filterMap_cons, List.filterMap_map, pagesIn]
  have hshift : (fun i => (pd.get (lo + PGSIZE * i)).map Pte.page) ∘ Nat.succ =
      fun i => (pd.get (lo + PGSIZE + PGSIZE * i)).map Pte.page := by
    funext i
    rw [comp_apply, Nat.succ_eq_add_one, Nat.mul_succ, Nat.add_comm (PGSIZE * i), ← Nat.add_assoc]
  rw [hshift, Nat.mul_zero, Nat.add_zero]
  rcases pd.get lo with _ | e
  · rw [Option.map_none, Option.toList_none, List.nil_append]
  · rw [Option.map_some, Option.toList_some, List.singleton_append]

theorem pagesIn_congr (h : ∀ va, lo ≤ va → va < hi → pd'.get va = pd.get va) : pd'.pagesIn lo hi = pd.pagesIn lo hi := by
  refine List.filterMap_congr fun i hi => ?_
  rw [List.mem_range] at hi
  rw [h _ (Nat.le_add_right _ _) (by simp only [PGSIZE] at hi ⊢; omega)]

theorem pagesIn_skip (n : Nat) (h : pd.Unmapped lo (lo + PGSIZE * n)) :
    pd.pagesIn lo hi = pd.pagesIn (lo + PGSIZE * n) hi := by
  induction n generalizing lo with
  | zero => rw [Nat.mul_zero, Nat.add_zero]
  | succ n ih =>
    rw [Nat.mul_succ, Nat.add_comm (PGSIZE * n), ← Nat.add_assoc] at h ⊢
    rcases Nat.lt_or_ge lo hi with hlt | hge
    · rw [← ih fun va h1 h2 => h va (by omega) h2, pagesIn_step hlt,
        h lo le_rfl (by simp only [PGSIZE]; omega), Option.map_none, Option.toList_none, List.nil_append]
    · rw [pagesIn_nil hge, pagesIn_nil (by omega)]

end PageDir

/-- The pages that begin in `[lo, hi)` are unmapped and freed, the last one first. -/
structure Unmaps (pd : PageDir) (s : Kmem) (lo hi : Nat) (pd' : PageDir) (s' : Kmem) : Prop where
  keeps : ∀ f, Keeps f s (pd.count f) s' (pd'.count f)
  get : ∀ va, va < 2 ^ 32 → pd'.get va = if lo ≤ pgRoundDown va ∧ pgRoundDown va < hi then none else pd.get va
  freed : s'.freelist = (pd.pagesIn lo hi).reverse ++ s.freelist

namespace Unmaps

theorem refl (h : hi ≤ lo) : Unmaps pd s lo hi pd s := by
  refine ⟨fun f => .refl f _ _, fun va _ => by rw [if_neg (by omega)], ?_⟩
  rw [PageDir.pagesIn_nil h]
  rfl

theorem skip (n : Nat) (hlo : lo % PGSIZE = 0) (hun : pd.Unmapped lo (lo + PGSIZE * n))
    (h : Unmaps pd s (lo + PGSIZE * n) hi pd' s') : Unmaps pd s lo hi pd' s' := by
  refine ⟨h.keeps, fun va hva => ?_, by rw [h.freed, PageDir.pagesIn_skip n hun]⟩
  rw [h.get va hva]
  by_cases hin : lo ≤ va ∧ va < lo + PGSIZE * n
  · rw [hun va hin.1 hin.2, ite_self, ite_self]
  · refine if_congr ?_ rfl rfl
    simp only [pgRoundDown, PGSIZE] at hlo hin ⊢
    omega

theorem free {pte : Pte} {s₁ : Kmem} (hlo : lo % PGSIZE = 0) (hlt : lo < hi) (hhi : hi ≤ KERNBASE)
    (hget : pd.get lo = some pte) (hk : ∀ f, Keeps f s (is f pte.page) s₁ 0) (hl : s₁.freelist = pte.page :: s.freelist)
    (h : Unmaps (pd.set lo none) s₁ (lo + PGSIZE) hi pd' s') : Unmaps pd s lo hi pd' s' := by
  have hne : ∀ va, va < 2 ^ 32 → va / PGSIZE ≠ lo / PGSIZE → (pd.set lo none).get va = pd.get va := fun va hva hne => by
    refine PageDir.get_set_of_ne fun hs => hne ((samePage_iff hva ?_).1 hs)
    simp only [KERNBASE] at hhi
    omega
  refine ⟨fun f => ?_, fun va hva => ?_, ?_⟩
  · have hsplit := PageDir.count_clear (by omega) hget f
    refine Keeps.trans ?_ (h.keeps f)
    simpa [hsplit] using (hk f).frame ((pd.set lo none).count f)
  · rw [h.get va hva]
    by_cases hpage : va / PGSIZE = lo / PGSIZE
    · have hsame : PageDir.SamePage va lo := (samePage_iff hva (by simp only [KERNBASE] at hhi; omega)).2 hpage
      rw [PageDir.get_set (PageDir.isSome_of_get hget) hsame, ite_self, if_pos]
      simp only [pgRoundDown, PGSIZE] at hlo hpage ⊢
      omega
    · rw [hne va hva hpage]
      refine if_congr ?_ rfl rfl
      simp only [pgRoundDown, PGSIZE] at hlo hpage ⊢
      omega
  · have hrest : (pd.set lo none).pagesIn (lo + PGSIZE) hi = pd.pagesIn (lo + PGSIZE) hi :=
      PageDir.pagesIn_congr fun va h1 h2 => by
        simp only [KERNBASE, PGSIZE] at hhi h1
        exact hne va (by omega) (by simp only [PGSIZE]; omega)
    rw [h.freed, hl, hrest, PageDir.pagesIn_step hlt, hget, Option.map_some, Option.toList_some,
      List.singleton_append, List.reverse_cons, List.append_assoc, List.singleton_append]

theorem sameUpper (hhi : hi ≤ KERNBASE) (h : Unmaps pd s lo hi pd' s') : pd'.SameUpper pd := fun va h1 h2 => by
  rw [h.get va h2, if_neg fun hin => ?_]
  simp only [pgRoundDown, PGSIZE, KERNBASE] at hhi h1 hin
  omega

end Unmaps

end Unmaps

theorem deallocRounds_meets {oldsz : Nat} (hold : oldsz ≤ KERNBASE) (n : Nat) (s : Kmem) (pd : PageDir) (a : Nat)
    (ha : a % PGSIZE = 0) (hlt : a ≤ KERNBASE) :
    Meets (deallocRounds L oldsz n pd a) s (fun pd' s' => Unmaps pd s a oldsz pd' s')
      fun _ _ => Managed L s pd → 0 < n → a + (n - 1) * PGSIZE < oldsz := by
  induction n generalizing s pd a with
  | zero => exact .stop fun _ h => absurd h (Nat.lt_irrefl 0)
  | succ n ih =>
    rw [deallocRounds]
    split
    · rename_i hao
      refine .bind (walkpgdir_meets s pd a false) fun r s1 h1 => ?_
      obtain ⟨ok, pd1⟩ := r
      obtain ⟨-, -, hok, hpd⟩ := h1
      obtain ⟨rfl, rfl⟩ := hpd rfl
      dsimp only at hok ⊢
      rcases ok with _ | _
      · -- no page table: the whole range it would cover is not mapped
        have hnone : pd1.pde (PDX a) = none := by simpa using hok.symm
        simp only [KERNBASE, PGSIZE] at hold ha hlt
        have hval := PDX_val (show a < 2 ^ 32 by omega)
        obtain ⟨m, hm⟩ : ∃ m, ((PDX a).val + 1) * 2 ^ 22 = a + PGSIZE * m :=
          ⟨(((PDX a).val + 1) * 2 ^ 22 - a) / 4096, by simp only [PGSIZE]; omega⟩
        have hempty : pd1.Unmapped a (a + PGSIZE * m) := fun va h1 h2 => by
          have hd : PDX va = PDX a := Fin.ext (by rw [PDX_val (by omega), hval]; omega)
          rw [PageDir.get, hd, hnone]
          rfl
        have hmod : ((PDX a).val + 1) * 2 ^ 22 % 2 ^ 32 = a + PGSIZE * m := by
          rw [Nat.mod_eq_of_lt (by omega), hm]
        simp only [Bool.not_false, if_true]
        rw [hmod]
        refine (ih s1 pd1 _ (by simp only [PGSIZE]; omega) (by simp only [KERNBASE]; omega)).mono
          (fun pd' s' h => h.skip m ha hempty) fun _ _ h hm' _ => ?_
        simp only [PGSIZE] at h hm ⊢
        rcases Nat.eq_zero_or_pos n with rfl | hn
        · omega
        · have := h hm' hn
          omega
      · simp only [Bool.not_true, Bool.false_eq_true, if_false]
        have halign : (a + PGSIZE) % PGSIZE = 0 := by rw [Nat.add_mod_right, ha]
        have hle : a + PGSIZE ≤ KERNBASE := by
          simp only [KERNBASE, PGSIZE] at hold ha ⊢
          omega
        have hnext : (0 < n → a + PGSIZE + (n - 1) * PGSIZE < oldsz) → a + (n + 1 - 1) * PGSIZE < oldsz := fun h => by
          simp only [PGSIZE] at h ⊢
          rcases Nat.eq_zero_or_pos n with rfl | hn
          · omega
          · have := h hn
            omega
        rw [add_PGSIZE_mod (by omega)]
        split
        · rename_i hget
          have hempty : pd1.Unmapped a (a + PGSIZE * 1) := fun va h1 h2 => by
            simp only [KERNBASE, PGSIZE] at hold ha h2
            have hsame : PageDir.SamePage va a := (samePage_iff (by omega) (by omega)).2 (by simp only [PGSIZE]; omega)
            rw [PageDir.get_samePage hsame, hget]
          refine (ih s1 pd1 _ halign hle).mono (fun pd' s' h => ?_) fun _ _ h hm _ => hnext (h hm)
          exact Unmaps.skip 1 ha hempty (by rwa [Nat.mul_one])
        · rename_i pte hget
          have hclear := PageDir.count_clear (by omega) hget
          have hmem : Managed L s1 pd1 → L.managed pte.page := fun hm => by
            refine hm pte.page ?_
            have hone : is pte.page pte.page = 1 := if_pos rfl
            have := hclear pte.page
            omega
          split
          · rename_i hzero
            refine .stop fun hm => absurd (hmem hm).1 ?_
            have := L.first_pos
            omega
          · refine .bind ((kfree_meets s1 pte.page).mono (fun _ _ => id) fun _ _ h hm => absurd (hmem hm) h)
              fun _ s2 h2 => ?_
            refine (ih s2 _ _ halign hle).mono (fun pd' s' h => h.free ha hao hold hget h2.1 h2.2)
              fun _ _ h hm _ => hnext (h (hm.keeps fun f => ?_))
            simpa [hclear f] using (h2.1 f).frame ((pd1.set a none).count f)
    · exact .pure (.refl (by omega))

theorem exists_maxRounds : ∃ n, maxRounds = n + 1 ∧ KERNBASE ≤ n * PGSIZE := ⟨2 ^ 20, by rw [maxRounds], by decide⟩

theorem pgRoundUp_eq (sz : Nat) (h : sz ≤ KERNBASE) : pgRoundUp sz % PGSIZE = 0 ∧ pgRoundUp sz ≤ KERNBASE ∧
    sz ≤ pgRoundUp sz := by
  simp only [KERNBASE, PGSIZE] at h ⊢
  simp only [pgRoundUp, PGSIZE]
  omega

theorem deallocuvm_meets (s : Kmem) (pd : PageDir) {oldsz newsz : Nat} (hold : oldsz ≤ KERNBASE) :
    Meets (deallocuvm L pd oldsz newsz) s (fun r s' => r.1 = min newsz oldsz ∧
      Unmaps pd s (pgRoundUp newsz) (if newsz < oldsz then oldsz else 0) r.2 s') fun _ _ => ¬ Managed L s pd := by
  unfold deallocuvm
  split
  · rename_i hge
    rw [if_neg (by omega)]
    exact .pure ⟨(min_eq_right hge).symm, .refl (Nat.zero_le _)⟩
  · rename_i hlt
    obtain ⟨h1, h2, -⟩ := pgRoundUp_eq newsz (by omega)
    obtain ⟨n, hn, hmax⟩ := exists_maxRounds
    rw [if_pos (by omega), hn]
    refine .bind ((deallocRounds_meets hold (n + 1) s pd _ h1 h2).mono (fun _ _ => id) fun _ _ h hm => ?_)
      fun pd' s' h => .pure ⟨(min_eq_left (by omega)).symm, h⟩
    have := h hm n.succ_pos
    rw [Nat.add_sub_cancel] at this
    omega

/-! ### Own pages and user pages of a page directory -/

def tablePage (f : Nat) : Option PageTable → Nat
  | none => 0
  | some t => is f t.page

def pageAddr (i j : Fin 1024) : Nat := i.val * 2 ^ 22 + j.val * 2 ^ 12

namespace PageDir

def ownPages (pd : PageDir) (f : Nat) : Nat := is f pd.page + ∑ i, tablePage f (pd.pde i)

def userPages (pd : PageDir) (f : Nat) : Nat :=
  ∑ i : Fin 1024, if i.val < 512 then ∑ j, pteCount f (pd.get (pageAddr i j)) else 0

theorem get_pageAddr (pd : PageDir) (i j : Fin 1024) :
    pd.get (pageAddr i j) = (pd.pde i).bind fun t => t.pte j := by
  have hi := i.isLt
  have hj := j.isLt
  have hd : PDX (pageAddr i j) = i := Fin.ext (by
    show pageAddr i j / 2 ^ 22 % 1024 = _
    rw [pageAddr]
    omega)
  have ht : PTX (pageAddr i j) = j := Fin.ext (by
    show pageAddr i j / 2 ^ 12 % 1024 = _
    rw [pageAddr]
    omega)
  rw [get, hd, ht]

theorem count_eq (pd : PageDir) (f : Nat) : pd.count f = pd.ownPages f + pd.userPages f := by
  rw [count, ownPages, userPages, add_assoc, ← Finset.sum_add_distrib]
  refine congrArg (is f pd.page + ·) (Finset.sum_congr rfl fun i _ => ?_)
  rcases hi : pd.pde i with _ | t
  · have : ∑ j, pteCount f (pd.get (pageAddr i j)) = 0 :=
      Finset.sum_eq_zero fun j _ => by rw [get_pageAddr, hi]; rfl
    rw [this, ite_self]
    rfl
  · have : ∑ j, pteCount f (pd.get (pageAddr i j)) = tally (pteCount f) t.pte :=
      Finset.sum_congr rfl fun j _ => by rw [get_pageAddr, hi]; rfl
    rw [this]
    rfl

theorem userPages_le (f : Nat) (h : ∀ va, va < KERNBASE → va % PGSIZE = 0 →
    pd'.get va = pd.get va ∨ pd'.get va = none) : pd'.userPages f ≤ pd.userPages f := by
  refine Finset.sum_le_sum fun i _ => ?_
  split
  · rename_i hi
    refine Finset.sum_le_sum fun j _ => ?_
    have hj := j.isLt
    have h1 : pageAddr i j < KERNBASE := by simp only [pageAddr, KERNBASE]; omega
    have h2 : pageAddr i j % PGSIZE = 0 := by simp only [pageAddr, PGSIZE]; omega
    rcases h _ h1 h2 with heq | heq <;> rw [heq]
    exact Nat.zero_le _
  · exact le_rfl

end PageDir

/-! ### Page directories as a whole -/

theorem PageDir.count_table {i : Fin 1024} {t : PageTable} (h : pd.pde i = some t) : 0 < pd.count t.page := by
  have hone : tablePage t.page (pd.pde i) = 1 := by rw [h]; exact if_pos rfl
  have hle : tablePage t.page (pd.pde i) ≤ ∑ i, tablePage t.page (pd.pde i) :=
    Finset.single_le_sum (f := fun i => tablePage t.page (pd.pde i)) (fun _ _ => Nat.zero_le _) (Finset.mem_univ i)
  rw [PageDir.count_eq, PageDir.ownPages]
  omega

theorem PageDir.count_page (pd : PageDir) : 0 < pd.count pd.page := by
  have hone : is pd.page pd.page = 1 := if_pos rfl
  rw [PageDir.count]
  omega

theorem freeTables_meets (s : Kmem) (pd : PageDir) (is : List (Fin 1024)) :
    Meets (freeTables L pd is) s (fun _ s' => ∀ f, Keeps f s (is.map fun i => tablePage f (pd.pde i)).sum s' 0)
      fun _ _ => ∃ i t, pd.pde i = some t ∧ ¬ L.managed t.page := by
  induction is generalizing s with
  | nil =>
    rw [freeTables]
    exact .pure fun f => .refl f _ _
  | cons i is ih =>
    rw [freeTables]
    have hhead : Meets (freeTable L (pd.pde i)) s (fun _ s' => ∀ f, Keeps f s (tablePage f (pd.pde i)) s' 0)
        fun _ _ => ∃ i t, pd.pde i = some t ∧ ¬ L.managed t.page := by
      rcases hi : pd.pde i with _ | t
      · exact .pure fun f => .refl f _ _
      · exact (kfree_meets s t.page).mono (fun _ _ h => h.1) fun _ _ h => ⟨i, t, hi, h⟩
    refine .bind hhead fun _ s1 h1 => (ih s1).mono (fun _ s' h f => ?_) fun _ _ => id
    rw [List.map_cons, List.sum_cons]
    exact ((h1 f).frame _).trans (by simpa using h f)

theorem freevm_meets (s : Kmem) (pd : PageDir) :
    Meets (freevm L pd) s (fun _ s' => ∀ f, Keeps f s (pd.count f) s' 0) fun _ _ => ¬ Managed L s pd := by
  unfold freevm
  refine .bind (deallocuvm_meets s pd le_rfl) fun r s1 h1 => ?_
  obtain ⟨sz, pd1⟩ := r
  have hun := h1.2
  rw [if_pos (by decide)] at hun
  dsimp only at hun ⊢
  have hm1 : Managed L s pd → Managed L s1 pd1 := fun hm => hm.keeps hun.keeps
  generalize hall : List.finRange 1024 = all
  refine .bind ((freeTables_meets s1 pd1 all).mono (fun _ _ => id) ?_) fun _ s2 h2 =>
    (kfree_meets s2 pd1.page).mono (fun _ s' h f => ?_) fun _ _ h hm => h (hm1 hm _ ?_)
  · rintro _ _ ⟨i, t, ht, hout⟩ hm
    exact hout (hm1 hm _ (Nat.add_pos_right _ (PageDir.count_table ht)))
  · have hzero : pd1.userPages f = 0 := by
      refine Finset.sum_eq_zero fun i _ => ?_
      split
      · refine Finset.sum_eq_zero fun j _ => ?_
        have hj := j.isLt
        have hin : pgRoundUp 0 ≤ pgRoundDown (pageAddr i j) ∧ pgRoundDown (pageAddr i j) < KERNBASE :=
          ⟨Nat.zero_le _, by simp only [pageAddr, pgRoundDown, PGSIZE, KERNBASE]; omega⟩
        rw [hun.get (pageAddr i j) (by simp only [pageAddr]; omega), if_pos hin]
        rfl
      · rfl
    have hcount := pd1.count_eq f
    rw [hzero, PageDir.ownPages, Fin.sum_univ_def, hall] at hcount
    have h3 : Keeps f s1 (pd1.count f) s' 0 := by
      have := h2 f
      have := h.1 f
      omega
    exact (hun.keeps f).trans h3
  · exact Nat.add_pos_right _ pd1.count_page

/-- `pd'` maps no page that `pd` does not map. -/
def PageDir.Below (pd' pd : PageDir) : Prop :=
  ∀ va, va < KERNBASE → va % PGSIZE = 0 → pd'.get va = pd.get va ∨ pd'.get va = none

theorem Unmaps.below {lo hi : Nat} (h : Unmaps pd s lo hi pd' s') : pd'.Below pd := fun va hva _ => by
  simp only [KERNBASE] at hva
  rw [h.get va (by omega)]
  split
  · exact .inr rfl
  · exact .inl rfl

/-- Outside of the range to allocate, `pd` maps what `pd₀` did. -/
def PageDir.AgreesOutside (pd pd₀ : PageDir) (lo hi : Nat) : Prop :=
  ∀ va, va < 2 ^ 32 → va % PGSIZE = 0 → va < lo ∨ hi ≤ va → pd.get va = pd₀.get va

section Alloc

variable {oldsz newsz : Nat} {pd₀ : PageDir}

theorem deallocuvm_back (hnew : newsz < KERNBASE) (hold : oldsz ≤ newsz) (s : Kmem)
    (h : pd.AgreesOutside pd₀ (pgRoundUp oldsz) newsz) :
    Ends (deallocuvm L pd newsz oldsz) s fun r s' =>
      (∀ f, Keeps f s (pd.count f) s' (r.2.count f)) ∧ r.2.SameUpper pd ∧ r.2.Below pd₀ := by
  refine (deallocuvm_meets s pd hnew.le).ends.mono fun r s' hr =>
    ⟨hr.2.keeps, hr.2.sameUpper (by split <;> omega), fun va hva halign => ?_⟩
  have h32 : va < 2 ^ 32 := by simp only [KERNBASE] at hva; omega
  have hdown : pgRoundDown va = va := by simp only [pgRoundDown, PGSIZE] at halign ⊢; omega
  have hle := (pgRoundUp_eq oldsz (by omega)).2.2
  rw [hr.2.get va h32, hdown]
  by_cases hin : oldsz < newsz ∧ pgRoundUp oldsz ≤ va ∧ va < newsz
  · exact .inr (by rw [if_pos hin.1, if_pos hin.2])
  · refine .inl ((if_neg fun hno => ?_).trans (h va h32 halign (by omega)))
    split at hno <;> omega

theorem allocPage_ends (hnew : newsz < KERNBASE) (hold : oldsz ≤ newsz) (s : Kmem) {a : Nat}
    (ha : a % PGSIZE = 0) (hle : pgRoundUp oldsz ≤ a) (hlt : a < newsz)
    (h : pd.AgreesOutside pd₀ (pgRoundUp oldsz) newsz) :
    Ends (allocPage L oldsz newsz pd a) s fun r s' =>
      (∀ f, Keeps f s (pd.count f) s' (r.2.count f)) ∧ r.2.SameUpper pd ∧ (r.1 = false → r.2.Below pd₀) ∧
      (r.1 = true → r.2.AgreesOutside pd₀ (pgRoundUp oldsz) newsz ∧ (∀ f, s'.count f ≤ s.count f) ∧
        (∀ va, ¬ PageDir.SamePage va a → r.2.get va = pd.get va) ∧
        ∃ mem, 0 < s.count mem ∧ r.2.get a = some ⟨mem, PTE_W + PTE_U⟩) := by
  unfold allocPage
  refine .bind (kalloc_ends s) fun r s1 h1 => ?_
  rcases r with _ | mem
  · refine .bind (deallocuvm_back hnew hold s1 h) fun r s' hr => .pure ⟨fun f => ?_, hr.2.1, fun _ => hr.2.2, nofun⟩
    have h2 : Keeps f s 0 s1 0 := h1 f
    have h3 := hr.1 f
    show Keeps f s (pd.count f) s' (r.2.count f)
    omega
  · have h1 : ∀ f, Keeps f s 0 s1 (is f mem) := h1
    have hlow : a < KERNBASE := by omega
    refine .bind (mappages_meets s1 pd a mem (PTE_W + PTE_U) ha hlow).ends fun r s2 h2 => ?_
    obtain ⟨ok, pd1⟩ := r
    obtain ⟨hc, hget, hmap⟩ := h2
    dsimp only at hc hget hmap ⊢
    have hother : ∀ va, ¬ PageDir.SamePage va a → pd1.get va = pd.get va := fun va hva => hget va fun hs => hva hs.2
    have hagree : pd1.AgreesOutside pd₀ (pgRoundUp oldsz) newsz := fun va h32 halign hout => by
      rw [hother va fun hs => ?_, h va h32 halign hout]
      have := (samePage_iff h32 (by simp only [KERNBASE] at hnew; omega)).1 hs
      simp only [PGSIZE] at this ha halign
      omega
    have hupper := PageDir.SameUpper.of_ne hlow hother
    rcases ok with _ | _
    · refine .bind (deallocuvm_back hnew hold s2 hagree) fun r s3 hr => .bind (kfree_ends s3 mem) fun _ s' hfree =>
        .pure ⟨fun f => ?_, hr.2.1.trans hupper, fun _ => hr.2.2, nofun⟩
      have h3 := (h1 f).frame (pd.count f)
      rw [Nat.zero_add] at h3
      have h4 := h3.step (hc f).1 (is f mem) (by rw [if_neg Bool.false_ne_true, Nat.add_zero, add_comm]) rfl
      exact (h4.step (hr.1 f) (is f mem) rfl rfl).step (hfree f) (r.2.count f) (add_comm _ _) (by simp)
    · refine .pure ⟨fun f => ?_, hupper, nofun, fun _ => ⟨hagree, fun f => ?_, hother, mem, ?_, hmap rfl⟩⟩
      · have h3 := h1 f
        have h4 : Keeps f s1 (pd.count f + is f mem) s2 (pd1.count f) := (hc f).1
        show Keeps f s (pd.count f) s2 (pd1.count f)
        omega
      · have h3 := (h1 f).1
        have h4 := (hc f).2
        omega
      · have hone : is mem mem = 1 := if_pos rfl
        have h3 := (h1 mem).1
        omega

/-- The new pages from `a` to `newsz`, which were free. -/
def PageDir.NewPages (pd : PageDir) (s : Kmem) (a newsz : Nat) : Prop := ∀ va, a ≤ va → va < pgRoundUp newsz →
  ∃ e, pd.get va = some e ∧ e.flags = PTE_W + PTE_U ∧ 0 < s.count e.page

theorem allocRounds_ends (hnew : newsz < KERNBASE) (hold : oldsz ≤ newsz) (n : Nat) (s : Kmem)
    (pd : PageDir) (a : Nat) (ha : a % PGSIZE = 0) (hle : pgRoundUp oldsz ≤ a) (hau : a ≤ pgRoundUp newsz)
    (h : pd.AgreesOutside pd₀ (pgRoundUp oldsz) newsz) :
    Ends (allocRounds L oldsz newsz n pd a) s fun r s' =>
      (∀ f, Keeps f s (pd.count f) s' (r.2.count f)) ∧ r.2.SameUpper pd ∧
        (r.1 = 0 ∧ r.2.Below pd₀ ∨ r.1 = newsz ∧ r.2.AgreesOutside pd₀ (pgRoundUp oldsz) newsz ∧
          (∀ va, va < a → r.2.get va = pd.get va) ∧ r.2.NewPages s a newsz) := by
  induction n generalizing s pd a with
  | zero =>
    rw [allocRounds]
    exact .stop
  | succ n ih =>
    rw [allocRounds]
    split
    · rename_i hlt
      refine .bind (allocPage_ends hnew hold s ha hle hlt h) fun r s1 h1 => ?_
      obtain ⟨ok, pd1⟩ := r
      obtain ⟨hc, hupper, hbelow, hok⟩ := h1
      dsimp only at hc hupper hbelow hok ⊢
      rcases ok with _ | _
      · exact .pure ⟨hc, hupper, .inl ⟨rfl, hbelow rfl⟩⟩
      · obtain ⟨hagree, hless, hother, mem, hmem, hget⟩ := hok rfl
        have hend : pgRoundUp newsz < 2 ^ 32 ∧ a + PGSIZE ≤ pgRoundUp newsz := by
          simp only [pgRoundUp, PGSIZE, KERNBASE] at hnew ha ⊢
          omega
        have hsame : ∀ va, va < 2 ^ 32 → (PageDir.SamePage va a ↔ a ≤ va ∧ va < a + PGSIZE) := fun va hva => by
          rw [samePage_iff hva (by omega)]
          simp only [PGSIZE] at ha ⊢
          omega
        simp only [Bool.not_true, Bool.false_eq_true, if_false]
        rw [add_PGSIZE_mod (by omega)]
        refine (ih s1 pd1 (a + PGSIZE) (by rw [Nat.add_mod_right, ha]) (by omega) hend.2 hagree).mono
          fun r s' hr => ⟨fun f => (hc f).trans (hr.1 f), hr.2.1.trans hupper, hr.2.2.imp_right ?_⟩
        rintro ⟨hret, hag, hlow, hnewp⟩
        refine ⟨hret, hag, fun va hva => ?_, fun va hva hva' => ?_⟩
        · rw [hlow va (by omega), hother va fun hs => absurd ((hsame va (by omega)).1 hs).1 (by omega)]
        · rcases Nat.lt_or_ge va (a + PGSIZE) with hin | hout
          · refine ⟨⟨mem, PTE_W + PTE_U⟩, ?_, rfl, hmem⟩
            rw [hlow va hin, PageDir.get_samePage ((hsame va (by omega)).2 ⟨hva, hin⟩), hget]
          · exact (hnewp va hout hva').imp fun e he => ⟨he.1, he.2.1, he.2.2.trans_le (hless _)⟩
    · refine .pure ⟨fun f => .refl f _ _, fun _ _ _ => rfl, .inr ⟨rfl, h, fun _ _ => rfl, fun va h1 h2 => ?_⟩⟩
      simp only [pgRoundUp, PGSIZE] at ha hau h2
      omega

end Alloc

/-- What a call of `allocuvm` that returns has done. -/
structure Allocated (pd : PageDir) (s : Kmem) (oldsz newsz : Nat) (r : Nat × PageDir) (s' : Kmem) : Prop where
  keeps : ∀ f, Keeps f s (pd.count f) s' (r.2.count f)
  upper : r.2.SameUpper pd
  below : r.1 = 0 → r.2.Below pd
  size : oldsz ≤ KERNBASE → r.1 ≤ KERNBASE
  new : newsz < KERNBASE → oldsz ≤ newsz → r.1 = newsz → 0 < newsz → r.2.NewPages s (pgRoundUp oldsz) newsz

theorem allocuvm_ends (s : Kmem) (pd : PageDir) (oldsz newsz : Nat) :
    Ends (allocuvm L pd oldsz newsz) s (Allocated pd s oldsz newsz) := by
  have hsame : pd.Below pd := fun va _ _ => .inl rfl
  unfold allocuvm
  split
  · exact .pure ⟨fun f => .refl f _ _, fun _ _ _ => rfl, fun _ => hsame, fun _ => Nat.zero_le _, fun h => by omega⟩
  · rename_i hnew
    split
    · exact .pure ⟨fun f => .refl f _ _, fun _ _ _ => rfl, fun _ => hsame, id, fun _ h => by omega⟩
    · rename_i hold
      have hr := pgRoundUp_eq oldsz (by omega)
      have hle : pgRoundUp oldsz ≤ pgRoundUp newsz := by
        simp only [pgRoundUp, PGSIZE, KERNBASE] at hnew ⊢
        omega
      refine (allocRounds_ends (by omega) (by omega) _ s pd _ hr.1 le_rfl hle fun _ _ _ _ => rfl).mono
        fun r s' h => ⟨h.1, h.2.1, fun hr => ?_, fun _ => ?_, fun _ _ hret hpos => ?_⟩
      · rcases h.2.2 with h2 | ⟨h2, hag, -⟩
        · exact h2.2
        · intro va hva halign
          have h32 : va < 2 ^ 32 := by simp only [KERNBASE] at hva; omega
          exact .inl (hag va h32 halign (.inr (by omega)))
      · rcases h.2.2 with h2 | h2 <;> omega
      · rcases h.2.2 with h2 | h2
        · omega
        · exact h2.2.2.2

theorem clearpteu_ends (s : Kmem) (pd : PageDir) (uva : Nat) :
    Ends (clearpteu pd uva) s fun pd' s' => (∀ f, Keeps f s (pd.count f) s' (pd'.count f)) ∧
      (uva < KERNBASE → pd'.SameUpper pd) := by
  unfold clearpteu
  refine .bind (walkpgdir_meets (E := fun _ _ => True) s pd uva false).ends fun r s1 h1 => ?_
  obtain ⟨ok, pd1⟩ := r
  obtain ⟨-, -, hok, hpd⟩ := h1
  obtain ⟨rfl, rfl⟩ := hpd rfl
  dsimp only at hok ⊢
  rcases ok with _ | _
  · exact .stop
  · refine .pure ⟨fun f => ?_, fun huva => .of_ne huva fun va hva => PageDir.get_set_of_ne hva⟩
    have hset := PageDir.count_set
      (e := (pd1.get uva).map fun e => { e with flags := e.flags &&& (2 ^ 12 - 1 - PTE_U) }) hok.symm f
    have hpte : pteCount f ((pd1.get uva).map fun e => { e with flags := e.flags &&& (2 ^ 12 - 1 - PTE_U) }) =
        pteCount f (pd1.get uva) := by
      rcases pd1.get uva with _ | e <;> rfl
    rw [hpte] at hset
    omega

end Xv6.Vm
