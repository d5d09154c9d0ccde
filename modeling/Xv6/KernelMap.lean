import Xv6.VmCount

/-!
# The kernel's half of a page table

`setupkvm` maps every address as the table `kmap` says and no other, and does not panic when the free pages
are the allocator's and the rows lie apart (`setupkvm_meets`). `copyuvm` leaves the kernel's half of the new
page directory alone.
-/

namespace Xv6.Vm

open Exec Function

variable {L : Layout} {s s' : Kmem} {pd pd' d : PageDir} {a va : Nat}

/-! ### Rows of `kmap` -/

namespace Kmap

def lo (k : Kmap) : Nat := pgRoundDown k.virt

def hi (k : Kmap) : Nat := pgRoundDown (k.virt + k.size - 1) + PGSIZE

def Apart (k k' : Kmap) : Prop := k.hi ≤ k'.lo ∨ k'.hi ≤ k.lo

def Upper (k : Kmap) : Prop := KERNBASE ≤ k.virt ∧ 0 < k.size ∧ k.virt + k.size ≤ 2 ^ 32

theorem mappages_eq {k : Kmap} (h : k.Upper) (pd : PageDir) : ∃ n, k.lo % PGSIZE = 0 ∧ KERNBASE ≤ k.lo ∧
    k.hi = k.lo + n * PGSIZE ∧ k.hi ≤ 2 ^ 32 ∧
      mappages pd k.virt k.size k.phys_start k.perm = mapRounds k.perm n pd k.lo k.phys_start := by
  obtain ⟨h1, h2, h3⟩ := h
  simp only [KERNBASE] at h1
  have hmod : sub32 (k.virt + k.size) 1 = k.virt + k.size - 1 := by simp only [sub32]; omega
  refine ⟨pagesUpTo k.lo (pgRoundDown (k.virt + k.size - 1)), ?_, ?_, ?_, ?_, by rw [mappages, hmod, lo]⟩
  · simp only [lo, pgRoundDown, PGSIZE]; omega
  · simp only [lo, pgRoundDown, KERNBASE, PGSIZE]; omega
  · simp only [lo, hi, pgRoundDown, pagesUpTo, sub32, PGSIZE]; omega
  · simp only [hi, pgRoundDown, PGSIZE]; omega

structure Aligned (k : Kmap) : Prop where
  virt : k.virt % PGSIZE = 0
  phys : k.phys_start % PGSIZE = 0
  size : k.size % PGSIZE = 0
  fits : k.phys_start + k.size ≤ 2 ^ 32

theorem Aligned.bounds {k : Kmap} (h : k.Aligned) (hup : k.Upper) : k.lo = k.virt ∧ k.hi = k.virt + k.size := by
  obtain ⟨-, hpos, -⟩ := hup
  have h1 := h.virt
  have h2 := h.size
  simp only [PGSIZE] at h1 h2
  simp only [lo, hi, pgRoundDown, PGSIZE]
  omega

end Kmap

abbrev EXTMEM : Nat := 0x100000
abbrev PHYSTOP : Nat := 0xE000000
abbrev DEVSPACE : Nat := 0xFE000000
abbrev KERNLINK : Nat := KERNBASE + EXTMEM

/-- The table `kmap`, for a kernel whose data begins at `data`. -/
def kmap (data : Nat) : List Kmap :=
  [⟨KERNBASE, 0, EXTMEM, PTE_W⟩, ⟨KERNLINK, KERNLINK - KERNBASE, data - KERNBASE, 0⟩,
    ⟨data, data - KERNBASE, PHYSTOP, PTE_W⟩, ⟨DEVSPACE, DEVSPACE, 0, PTE_W⟩]

/-- The linker puts `data` on a page boundary, so no two rows share a page. -/
theorem kmap_apart {data : Nat} (halign : data % PGSIZE = 0) (hlo : KERNLINK < data)
    (hhi : data < KERNBASE + PHYSTOP) : (kmap data).Pairwise Kmap.Apart := by
  simp only [PGSIZE, KERNLINK, KERNBASE, EXTMEM, PHYSTOP] at halign hlo hhi
  simp only [kmap, List.pairwise_cons, List.mem_cons, forall_eq_or_imp, List.not_mem_nil, false_imp_iff,
    implies_true, and_true, List.Pairwise.nil, Kmap.Apart, Kmap.lo, Kmap.hi, Kmap.size, sub32, pgRoundDown, PGSIZE,
    KERNLINK, KERNBASE, EXTMEM, PHYSTOP, DEVSPACE]
  omega

theorem kmap_aligned {data : Nat} (halign : data % PGSIZE = 0) (hlo : KERNLINK < data)
    (hhi : data < KERNBASE + PHYSTOP) : ∀ k ∈ kmap data, k.Aligned := by
  simp only [PGSIZE, KERNLINK, KERNBASE, EXTMEM, PHYSTOP] at halign hlo hhi
  intro k hk
  simp only [kmap, List.mem_cons, List.not_mem_nil, or_false, KERNLINK, KERNBASE, EXTMEM, PHYSTOP, DEVSPACE] at hk
  rcases hk with rfl | rfl | rfl | rfl
  all_goals
    constructor <;> simp only [Kmap.size, sub32, PGSIZE] <;> omega

/-! ### What `kmap` prescribes -/

def translate (pd : PageDir) (va : Nat) : Option (Nat × Nat) :=
  (pd.get va).map fun e => (e.page * PGSIZE + va % PGSIZE, e.flags)

def kmapAt : List Kmap → Nat → Option (Nat × Nat)
  | [], _ => none
  | k :: ks, va =>
    if k.virt ≤ va ∧ va < k.virt + k.size then some (k.phys_start + (va - k.virt), k.perm) else kmapAt ks va

theorem kmapAt_none {ks : List Kmap} (h : ∀ k ∈ ks, va < k.virt ∨ k.virt + k.size ≤ va) : kmapAt ks va = none := by
  induction ks with
  | nil => rfl
  | cons k ks ih =>
    have hk := h k List.mem_cons_self
    rw [kmapAt, if_neg (by omega), ih fun k' hk' => h k' (List.mem_cons_of_mem _ hk')]

theorem kmapAt_apart {k : Kmap} {ks : List Kmap} (hup : ∀ k' ∈ k :: ks, k'.Upper) (hal : ∀ k' ∈ k :: ks, k'.Aligned)
    (hap : ∀ k' ∈ ks, k.Apart k') (h : k.virt ≤ va ∧ va < k.virt + k.size) : kmapAt ks va = none := by
  obtain ⟨hlo, hhi⟩ := (hal k List.mem_cons_self).bounds (hup k List.mem_cons_self)
  refine kmapAt_none fun k' hk' => ?_
  obtain ⟨hlo', hhi'⟩ := (hal k' (List.mem_cons_of_mem _ hk')).bounds (hup k' (List.mem_cons_of_mem _ hk'))
  rcases hap k' hk' with hap | hap <;> omega

/-! ### `setupkvm` -/

def pgdirCount (f : Nat) : Option PageDir → Nat
  | none => 0
  | some pd => pd.count f

/-- What mapping the row `k` makes of the page directory. -/
structure Kmap.Mapped (k : Kmap) (pd pd' : PageDir) : Prop where
  outside : ∀ va, va < 2 ^ 32 → va < k.lo ∨ k.hi ≤ va → pd'.get va = pd.get va
  inside : k.Aligned → ∀ va, va < 2 ^ 32 → translate pd' va = (kmapAt [k] va).or (translate pd va)

theorem mappages_row {k : Kmap} (hup : k.Upper) (s : Kmem) (pd : PageDir) :
    Meets (mappages pd k.virt k.size k.phys_start k.perm) s (fun r s' =>
      (∀ f, Keeps f s (pd.count f) s' (r.2.count f)) ∧ (r.1 = true → k.Mapped pd r.2))
      fun _ _ => ¬ pd.Unmapped k.lo k.hi := by
  obtain ⟨n, halign, hlow, hend, hle, heq⟩ := Kmap.mappages_eq hup pd
  rw [heq, hend]
  refine (mapRounds_meets n s pd k.lo k.phys_start halign (by omega)).mono (fun r _ h =>
    ⟨h.1 hlow, fun hok => ⟨hend ▸ h.2.1, fun hal va hva => ?_⟩⟩) fun _ _ => id
  obtain ⟨hlo, hhi⟩ := hal.bounds hup
  have hphys := hal.phys
  have hfits := hal.fits
  rw [kmapAt, kmapAt, translate]
  split
  · rename_i hin
    have hpage : (k.phys_start + (va - k.virt)) / PGSIZE * PGSIZE + va % PGSIZE = k.phys_start + (va - k.virt) := by
      have hvirt := hal.virt
      simp only [PGSIZE] at hphys hvirt ⊢
      omega
    rw [h.2.2 hok hphys (by omega) va (by omega) (by omega), Option.map_some, Option.some_or, hlo, hpage]
  · rename_i hout
    rw [h.2.1 va hva (by omega), Option.none_or]
    rfl

theorem kmapRow_meets {k : Kmap} (hup : k.Upper) (s : Kmem) (pd : PageDir) :
    Meets (kmapRow L k pd) s (fun r s' => (∀ f, Keeps f s (pd.count f) s' (pgdirCount f r)) ∧
      ∀ pd', r = some pd' → k.Mapped pd pd') fun _ _ => ¬ (pd.Unmapped k.lo k.hi ∧ Managed L s pd) := by
  unfold kmapRow
  refine .bind ((mappages_row hup s pd).mono (fun _ _ => id) fun _ _ h h' => h h'.1) fun r s1 h1 => ?_
  obtain ⟨ok, pd1⟩ := r
  obtain ⟨hk, hmap⟩ := h1
  dsimp only at hk hmap ⊢
  rcases ok with _ | _
  · refine .bind ((freevm_meets s1 pd1).mono (fun _ _ => id) fun _ _ h h' => h (h'.2.keeps hk)) fun _ s' h =>
      .pure ⟨fun f => (hk f).trans (h f), nofun⟩
  · refine .pure ⟨hk, ?_⟩
    rintro _ ⟨⟩
    exact hmap rfl

/-- The rows `ks` are still to be mapped, and the user half is empty. -/
structure Rows (ks : List Kmap) (pd : PageDir) : Prop where
  upper : ∀ k ∈ ks, k.Upper
  apart : ks.Pairwise Kmap.Apart
  unmapped : ∀ k ∈ ks, pd.Unmapped k.lo k.hi
  user : pd.Unmapped 0 KERNBASE

theorem Rows.row {k : Kmap} {ks : List Kmap} (h : Rows (k :: ks) pd) (hmap : k.Mapped pd pd') : Rows ks pd' := by
  have hk := h.upper k List.mem_cons_self
  obtain ⟨n, -, hlow, -⟩ := Kmap.mappages_eq hk pd
  have hout := hmap.outside
  obtain ⟨hhead, htail⟩ := List.pairwise_cons.1 h.apart
  simp only [KERNBASE] at hlow
  refine ⟨fun k' hk' => h.upper k' (List.mem_cons_of_mem _ hk'), htail, fun k' hk' va h1 h2 => ?_, fun va _ hva => ?_⟩
  · have hup := h.upper k' (List.mem_cons_of_mem _ hk')
    obtain ⟨n', -, -, -, hhi, -⟩ := Kmap.mappages_eq hup pd
    have hne : va < k.lo ∨ k.hi ≤ va := by
      rcases hhead k' hk' with hap | hap <;> omega
    rw [← h.unmapped k' (List.mem_cons_of_mem _ hk') va h1 h2]
    exact hout va (by omega) hne
  · simp only [KERNBASE] at hva
    rw [← h.user va (Nat.zero_le _) (by simp only [KERNBASE]; omega)]
    exact hout va (by omega) (by omega)

/-- The page directory maps no user address, and the others as the rows say. -/
structure Prescribed (ks : List Kmap) (pd pd' : PageDir) : Prop where
  user : pd'.Unmapped 0 KERNBASE
  exact : (∀ k ∈ ks, k.Aligned) → ∀ va, va < 2 ^ 32 → translate pd' va = (kmapAt ks va).or (translate pd va)

theorem Rows.prescribed {k : Kmap} {ks : List Kmap} {pd₁ : PageDir} (h : Rows (k :: ks) pd) (hmap : k.Mapped pd pd₁)
    (hks : Prescribed ks pd₁ pd') : Prescribed (k :: ks) pd pd' := by
  refine ⟨hks.user, fun hal va hva => ?_⟩
  rw [hks.exact (fun k' hk' => hal k' (List.mem_cons_of_mem _ hk')) va hva, hmap.inside (hal k List.mem_cons_self) va hva]
  by_cases hin : k.virt ≤ va ∧ va < k.virt + k.size
  · have hnone := kmapAt_apart h.upper hal (List.pairwise_cons.1 h.apart).1 hin
    simp only [kmapAt, if_pos hin, hnone, Option.none_or, Option.some_or]
  · simp only [kmapAt, if_neg hin, Option.none_or]

theorem kmapRounds_meets (s : Kmem) (pd : PageDir) (ks : List Kmap) (hks : ∀ k ∈ ks, k.Upper) :
    Meets (kmapRounds L ks pd) s (fun r s' => (∀ f, Keeps f s (pd.count f) s' (pgdirCount f r)) ∧
      ∀ pd', r = some pd' → Rows ks pd → Prescribed ks pd pd') fun _ _ => ¬ (Rows ks pd ∧ Managed L s pd) := by
  induction ks generalizing s pd with
  | nil =>
    rw [kmapRounds]
    refine .pure ⟨fun f => .refl f _ _, ?_⟩
    rintro _ ⟨⟩ h
    exact ⟨h.user, fun _ _ _ => rfl⟩
  | cons k ks ih =>
    rw [kmapRounds]
    refine .bind ((kmapRow_meets (hks k List.mem_cons_self) s pd).mono (fun _ _ => id)
      fun _ _ h h' => h ⟨h'.1.unmapped k List.mem_cons_self, h'.2⟩) fun r s1 h1 => ?_
    rcases r with _ | pd1
    · exact .pure ⟨h1.1, nofun⟩
    · obtain ⟨hk, hmap⟩ := h1
      refine (ih s1 pd1 fun k hk => hks k (List.mem_cons_of_mem _ hk)).mono (fun r s' h =>
        ⟨fun f => (hk f).trans (h.1 f), fun pd' hr hrows => ?_⟩) fun _ _ h h' => h ⟨h'.1.row (hmap pd1 rfl), h'.2.keeps hk⟩
      exact hrows.prescribed (hmap pd1 rfl) (h.2 pd' hr (hrows.row (hmap pd1 rfl)))

theorem emptyDir_count (page f : Nat) : PageDir.count ⟨page, fun _ => none⟩ f = is f page := by
  rw [PageDir.count, Finset.sum_eq_zero fun i _ => tableCount_none f i, Nat.add_zero]

theorem setupkvm_meets (L : Layout) (s : Kmem) :
    Meets (setupkvm L) s (fun r s' => (∀ f, Keeps f s 0 s' (pgdirCount f r)) ∧ (L.kmap.Pairwise Kmap.Apart →
      ∀ pd, r = some pd → pd.Unmapped 0 KERNBASE ∧
        ((∀ k ∈ L.kmap, k.Aligned) → ∀ va, va < 2 ^ 32 → translate pd va = kmapAt L.kmap va)))
      fun _ _ => ¬ (L.kmap.Pairwise Kmap.Apart ∧ ∀ f, 0 < s.count f → L.managed f) := by
  unfold setupkvm
  refine .bind (kalloc_meets s) fun r s1 h1 => ?_
  rcases r with _ | page
  · exact .pure ⟨h1, fun _ => nofun⟩
  · have hrows : L.kmap.Pairwise Kmap.Apart → Rows L.kmap ⟨page, fun _ => none⟩ := fun hL =>
      ⟨L.upper, hL, fun _ _ _ _ _ => rfl, fun _ _ _ => rfl⟩
    refine (kmapRounds_meets s1 ⟨page, fun _ => none⟩ L.kmap L.upper).mono (fun r s' h => ⟨fun f => ?_,
      fun hL pd hr => ?_⟩) fun _ _ h h' => h ⟨hrows h'.1, fun f hf => h'.2 f ?_⟩
    · have h2 := h.1 f
      rw [emptyDir_count] at h2
      exact (h1 f).trans h2
    · have hpd := h.2 pd hr (hrows hL)
      exact ⟨hpd.user, fun hal va hva => (hpd.exact hal va hva).trans Option.or_none⟩
    · have hk : Keeps f s 0 s1 (is f page) := h1 f
      rw [emptyDir_count] at hf
      omega

theorem setupkvm_ends (s : Kmem) : Ends (setupkvm L) s fun r s' => ∀ f, Keeps f s 0 s' (pgdirCount f r) :=
  (setupkvm_meets L s).ends.mono fun _ _ h => h.1

/-! ### `copyuvm` -/

theorem copyPage_ends {pgdir : PageDir} (s : Kmem) (d : PageDir) {i : Nat} (hi : i % PGSIZE = 0)
    (hlt : i < KERNBASE) :
    Ends (copyPage L pgdir d i) s fun r s' => (∀ f, Keeps f s (d.count f) s' (pgdirCount f r)) ∧
      ∀ d', r = some d' → d'.SameUpper d := by
  unfold copyPage
  split
  · exact .stop
  rename_i pte hget
  refine .bind (kalloc_ends s) fun r s1 h1 => ?_
  rcases r with _ | mem
  · refine .bind (freevm_meets s1 d).ends fun _ s' h => .pure ⟨fun f => ?_, nofun⟩
    have h2 : Keeps f s 0 s1 0 := h1 f
    have h3 := h f
    show Keeps f s (d.count f) s' 0
    omega
  · have h1 : ∀ f, Keeps f s 0 s1 (is f mem) := h1
    refine .bind (mappages_meets s1 d i mem pte.flags hi hlt).ends fun r s2 h2 => ?_
    obtain ⟨ok, d1⟩ := r
    obtain ⟨hc, hget, -⟩ := h2
    dsimp only at hc hget ⊢
    rcases ok with _ | _
    · refine .bind (kfree_ends s2 mem) fun _ s3 hfree => .bind (freevm_meets s3 d1).ends fun _ s' h =>
        .pure ⟨fun f => ?_, nofun⟩
      have h3 := (h1 f).frame (d.count f)
      rw [Nat.zero_add] at h3
      have h4 := h3.step (hc f).1 (is f mem) (by rw [if_neg Bool.false_ne_true, Nat.add_zero, add_comm]) rfl
      exact (h4.step (hfree f) (d1.count f) (add_comm _ _) rfl).step (h f) 0 (by simp) rfl
    · refine .pure ⟨fun f => ?_, ?_⟩
      · have h3 := h1 f
        have h4 : Keeps f s1 (d.count f + is f mem) s2 (d1.count f) := (hc f).1
        show Keeps f s (d.count f) s2 (d1.count f)
        omega
      · rintro _ ⟨⟩
        exact .of_ne hlt fun va hva => hget va fun hs => hva hs.2

/-- At `KERNBASE` the child has a page: the loop does not get past it. -/
theorem copyPage_kernbase {pgdir : PageDir} (h : (d.get KERNBASE).isSome = true) (s : Kmem) :
    Ends (copyPage L pgdir d KERNBASE) s fun r s' => r = none ∧ ∀ f, Keeps f s (d.count f) s' 0 := by
  unfold copyPage
  split
  · exact .stop
  · refine .bind (kalloc_ends s) fun r s1 h1 => ?_
    rcases r with _ | mem
    · refine .bind (freevm_meets s1 d).ends fun _ s' h' => .pure ⟨rfl, fun f => ?_⟩
      have h2 : Keeps f s 0 s1 0 := h1 f
      have h3 := h' f
      omega
    · rename_i pte _
      have hone : mappages d KERNBASE PGSIZE (mem * PGSIZE) pte.flags =
          mapRounds pte.flags 1 d KERNBASE (mem * PGSIZE) := rfl
      have hnever : Ends (mappages d KERNBASE PGSIZE (mem * PGSIZE) pte.flags) s1 fun _ _ => False := by
        rw [hone, mapRounds, mapPage]
        refine .bind (.bind (walkpgdir_meets (E := fun _ _ => True) s1 d KERNBASE true).ends fun r s2 h2 => ?_)
          fun _ _ hf => absurd hf id
        obtain ⟨ok, d1⟩ := r
        obtain ⟨-, hget, hok, -⟩ := h2
        dsimp only at hget hok ⊢
        rw [← hget] at h
        obtain ⟨e, he⟩ := Option.isSome_iff_exists.1 h
        rw [hok, PageDir.isSome_of_get he, h]
        exact .stop
      exact .bind hnever fun _ _ hf => absurd hf id

theorem copyRounds_ends {pgdir : PageDir} {sz : Nat} (n : Nat) (s : Kmem) (d : PageDir) (i : Nat)
    (hi : i % PGSIZE = 0) (hle : i ≤ KERNBASE) (hd : sz ≤ KERNBASE ∨ (d.get KERNBASE).isSome = true) :
    Ends (copyRounds L pgdir sz n d i) s fun r s' =>
      (∀ f, Keeps f s (d.count f) s' (pgdirCount f r)) ∧ ∀ d', r = some d' → d'.SameUpper d := by
  induction n generalizing s d i with
  | zero => exact .stop
  | succ n ih =>
    rw [copyRounds]
    split
    · rename_i hsz
      rcases hle.eq_or_lt with rfl | hlt
      · refine .bind (copyPage_kernbase (hd.resolve_left hsz.not_ge) s) ?_
        rintro _ s1 ⟨rfl, h1⟩
        exact .pure ⟨h1, nofun⟩
      · refine .bind (copyPage_ends s d hi hlt) fun r s1 h1 => ?_
        rcases r with _ | d1
        · exact .pure ⟨h1.1, nofun⟩
        · have hup := h1.2 d1 rfl
          rw [← hup KERNBASE le_rfl (by decide)] at hd
          have hle' : i + PGSIZE ≤ KERNBASE := by
            simp only [KERNBASE, PGSIZE] at hi hlt ⊢
            omega
          dsimp only
          rw [add_PGSIZE_mod hle]
          exact (ih s1 d1 _ (by rw [Nat.add_mod_right, hi]) hle' hd).mono
            fun r s' h => ⟨fun f => (h1.1 f).trans (h.1 f), fun d' hr => (h.2 d' hr).trans hup⟩
    · refine .pure ⟨fun f => .refl f _ _, ?_⟩
      rintro _ ⟨⟩ va _ _
      rfl

theorem copyuvm_ends (s : Kmem) {pgdir : PageDir} {sz : Nat} (hsz : sz ≤ KERNBASE) :
    Ends (copyuvm L pgdir sz) s fun r s' => ∀ f, Keeps f s 0 s' (pgdirCount f r) := by
  unfold copyuvm
  refine .bind (setupkvm_ends s) fun r s1 h1 => ?_
  rcases r with _ | d
  · exact .pure h1
  · refine (copyRounds_ends _ s1 d 0 rfl (Nat.zero_le _) (.inl hsz)).mono fun r s' h f => ?_
    exact (h1 f).trans (h.1 f)

end Xv6.Vm
