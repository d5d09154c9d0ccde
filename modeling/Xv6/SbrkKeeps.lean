import Xv6.PageOwner

/-!
# A failing `sbrk` keeps a page table

A process that has grown to 4 MB asks for two more pages. The first needs a page table; for the
second there is no memory, and `allocuvm` unmaps what it has mapped. The page table stays.
-/

namespace Xv6

namespace Vm

open Function Exec

variable {L : Layout} {pd : PageDir} {k : Kmem} {a r : Nat} {next : List Nat}

theorem kalloc_run (hf : k.fails = []) (hl : k.freelist = r :: next) :
    kalloc k = (.ok (some r), ⟨next, [], r :: k.out, if r ∈ k.out then r :: k.bad else k.bad⟩) := by
  unfold kalloc
  rw [hf, hl]
  rfl

theorem kalloc_empty (hf : k.fails = []) (hl : k.freelist = []) : kalloc k = (.ok none, k) := by
  obtain ⟨freelist, fails, out, bad⟩ := k
  cases hf
  cases hl
  rfl

theorem kfree_run {v : Nat} (h₁ : L.first ≤ v) (h₂ : v < L.phystop) : kfree L v k =
    (.ok (), ⟨v :: k.freelist, k.fails, k.out.erase v, if v ∈ k.out then k.bad else v :: k.bad⟩) := by
  unfold kfree
  rw [if_neg (by omega)]
  rfl

theorem walkpgdir_run (alloc : Bool) (h : (pd.pde (PDX a)).isSome = true) :
    walkpgdir pd a alloc k = (.ok (true, pd), k) := by
  obtain ⟨t, ht⟩ := Option.isSome_iff_exists.1 h
  unfold walkpgdir
  rw [ht]
  rfl

theorem mappages_run {pd' : PageDir} {k' : Kmem} (perm pa : Nat) (ha : a % PGSIZE = 0) (hlt : a < KERNBASE)
    (hw : walkpgdir pd a true k = (.ok (true, pd'), k')) (hget : pd'.get a = none) :
    mappages pd a PGSIZE pa perm k = (.ok (true, pd'.set a (some ⟨pa / PGSIZE, perm⟩)), k') := by
  have hpage : mapPage perm pd a pa k = (.ok (true, pd'.set a (some ⟨pa / PGSIZE, perm⟩)), k') := by
    unfold mapPage
    rw [bind_of_ok hw]
    simp only [hget, Option.isSome, Bool.not_true, Bool.false_eq_true, if_false]
    rfl
  rw [mappages_one perm pa ha hlt, mapRounds, bind_of_ok hpage]
  rfl

theorem allocPage_run {pd' : PageDir} {k' : Kmem} (oldsz newsz : Nat) (ha : a % PGSIZE = 0) (hlt : a < KERNBASE)
    (hf : k.fails = []) (hl : k.freelist = r :: next)
    (hw : walkpgdir pd a true ⟨next, [], r :: k.out, if r ∈ k.out then r :: k.bad else k.bad⟩ =
      (.ok (true, pd'), k')) (hget : pd'.get a = none) :
    allocPage L oldsz newsz pd a k = (.ok (true, pd'.set a (some ⟨r, PTE_W + PTE_U⟩)), k') := by
  unfold allocPage
  rw [bind_of_ok (kalloc_run hf hl)]
  have hmap := mappages_run (PTE_W + PTE_U) (r * PGSIZE) ha hlt hw hget
  rw [Nat.mul_div_cancel _ (by decide)] at hmap
  dsimp only
  rw [bind_of_ok hmap]
  rfl

/-- With enough memory the pages up to 4 MB are mapped, and no page table is added. -/
theorem allocRounds_fill {oldsz newsz : Nat} (m : Nat) (n : Nat) (pd : PageDir) (a : Nat) (k : Kmem) (hn : m < n)
    (ha : a % PGSIZE = 0) (hnew : a + m * PGSIZE = newsz) (hle : newsz ≤ 2 ^ 22) (hf : k.fails = [])
    (hl : m ≤ k.freelist.length) (htab : (pd.pde 0).isSome = true)
    (hget : ∀ va, a ≤ va → va < newsz → va % PGSIZE = 0 → pd.get va = none) :
    ∃ pd' k', allocRounds L oldsz newsz n pd a k = (.ok (newsz, pd'), k') ∧ k'.fails = [] ∧
      k'.freelist = k.freelist.drop m ∧ ∀ i ≠ 0, pd'.pde i = pd.pde i := by
  simp only [PGSIZE] at ha hnew hget
  induction m generalizing n pd a k with
  | zero =>
    obtain ⟨n, rfl⟩ : ∃ n', n = n' + 1 := ⟨n - 1, by omega⟩
    refine ⟨pd, k, ?_, hf, rfl, fun _ _ => rfl⟩
    rw [allocRounds, if_neg (by omega)]
    rfl
  | succ m ih =>
    obtain ⟨n, rfl⟩ : ∃ n', n = n' + 1 := ⟨n - 1, by omega⟩
    obtain ⟨r, next, hlist⟩ := List.exists_cons_of_length_pos (l := k.freelist) (by omega)
    have hd : PDX a = 0 := Fin.ext (by rw [PDX_val (by omega)]; show a / 2 ^ 22 = 0; omega)
    have hsome : (pd.pde (PDX a)).isSome = true := by rw [hd]; exact htab
    have hpage := allocPage_run (L := L) oldsz newsz ha (by simp only [KERNBASE]; omega) hf
      hlist (walkpgdir_run true hsome) (hget a le_rfl (by omega) ha)
    have hmod : (a + PGSIZE) % 2 ^ 32 = a + 4096 := by simp only [PGSIZE]; omega
    obtain ⟨pd', k', hrun, hf', hl', hpd'⟩ := ih n (pd.set a (some ⟨r, PTE_W + PTE_U⟩)) (a + 4096)
      ⟨next, [], r :: k.out, if r ∈ k.out then r :: k.bad else k.bad⟩ (by omega) (by omega) (by omega) rfl
      (by rw [hlist, List.length_cons] at hl; show m ≤ next.length; omega) (by rw [PageDir.isSome_set]; exact htab)
      fun va h1 h2 h3 => by
        rw [PageDir.get_set_of_ne fun hs => ?_]
        · exact hget va (by omega) h2 h3
        · have := (samePage_iff (by omega) (by omega)).1 hs
          simp only [PGSIZE] at this
          omega
    refine ⟨pd', k', ?_, hf', by rw [hl', hlist]; rfl, fun i hi => ?_⟩
    · rw [allocRounds, if_pos (by omega), bind_of_ok hpage]
      simp only [Bool.not_true, Bool.false_eq_true, if_false]
      rw [hmod, hrun]
    · rw [hpd' i hi, PageDir.set, hd]
      exact update_of_ne hi _ _

theorem deallocRounds_none {oldsz n : Nat} (hlt : a < oldsz) (h32 : a + PGSIZE < 2 ^ 32)
    (hsome : (pd.pde (PDX a)).isSome = true) (hget : pd.get a = none) :
    deallocRounds L oldsz (n + 1) pd a k = deallocRounds L oldsz n pd (a + PGSIZE) k := by
  rw [deallocRounds, if_pos hlt, bind_of_ok (walkpgdir_run false hsome)]
  simp only [Bool.not_true, Bool.false_eq_true, if_false, hget]
  rw [Nat.mod_eq_of_lt h32]

theorem deallocRounds_some {oldsz n v perm : Nat} (hlt : a < oldsz) (h32 : a + PGSIZE < 2 ^ 32)
    (hsome : (pd.pde (PDX a)).isSome = true) (hget : pd.get a = some ⟨v, perm⟩) (h₁ : L.first ≤ v)
    (h₂ : v < L.phystop) : deallocRounds L oldsz (n + 1) pd a k = deallocRounds L oldsz n (pd.set a none) (a + PGSIZE)
      ⟨v :: k.freelist, k.fails, k.out.erase v, if v ∈ k.out then k.bad else v :: k.bad⟩ := by
  have hpos := L.first_pos
  rw [deallocRounds, if_pos hlt, bind_of_ok (walkpgdir_run false hsome)]
  simp only [Bool.not_true, Bool.false_eq_true, if_false, hget]
  rw [if_neg (by omega), bind_of_ok (kfree_run h₁ h₂), Nat.mod_eq_of_lt h32]

theorem walkpgdir_new (h : pd.pde (PDX a) = none) (hf : k.fails = []) (hl : k.freelist = r :: next) :
    walkpgdir pd a true k = (.ok (true, { pd with pde := update pd.pde (PDX a) (some ⟨r, fun _ => none⟩) }),
      ⟨next, [], r :: k.out, if r ∈ k.out then r :: k.bad else k.bad⟩) := by
  unfold walkpgdir
  rw [h]
  simp only [if_true]
  rw [bind_of_ok (kalloc_run hf hl)]
  rfl

/-- Two pages are left: one is mapped and given back, the other stays as a page table. -/
theorem allocuvm_keeps {mem tab : Nat} (hpd : pd.pde 1 = none) (hf : k.fails = []) (hl : k.freelist = [mem, tab])
    (h₁ : L.first ≤ mem) (h₂ : mem < L.phystop) :
    ∃ pd' k', allocuvm L pd (2 ^ 22) (2 ^ 22 + 2 * PGSIZE) k = (.ok (0, pd'), k') ∧ k'.freelist = [mem] := by
  obtain ⟨n, hn⟩ : ∃ n, maxRounds = n + 3 := ⟨2 ^ 20 - 2, by rw [maxRounds]; omega⟩
  have hd : PDX (2 ^ 22) = 1 := by decide
  have hd' : PDX (2 ^ 22 + PGSIZE) = 1 := by decide
  have hnone : pd.pde (PDX (2 ^ 22)) = none := by rw [hd]; exact hpd
  -- the first round takes both pages
  let pd1 : PageDir := { pd with pde := update pd.pde (PDX (2 ^ 22)) (some ⟨tab, fun _ => none⟩) }
  let pd2 := pd1.set (2 ^ 22) (some ⟨mem, PTE_W + PTE_U⟩)
  have htab : ∀ a, PDX a = 1 → pd1.pde (PDX a) = some ⟨tab, fun _ => none⟩ := fun a ha => by
    rw [ha, ← hd]
    simp only [pd1, update_self]
  have hget1 : ∀ a, PDX a = 1 → pd1.get a = none := fun a ha => by rw [PageDir.get, htab a ha]; rfl
  obtain ⟨k2, hf2, hl2, hround⟩ : ∃ k2 : Kmem, k2.fails = [] ∧ k2.freelist = [] ∧
      allocPage L (2 ^ 22) (2 ^ 22 + 2 * PGSIZE) pd (2 ^ 22) k = (.ok (true, pd2), k2) :=
    ⟨_, rfl, rfl, allocPage_run _ _ (by decide) (by decide) hf hl (walkpgdir_new hnone rfl rfl) (hget1 _ hd)⟩
  -- the second finds no page, and unmaps what the first has mapped
  have hsome2 : ∀ a, PDX a = 1 → (pd2.pde (PDX a)).isSome = true := fun a ha => by
    rw [PageDir.isSome_set, htab a ha]
    rfl
  have hget2 : pd2.get (2 ^ 22) = some ⟨mem, PTE_W + PTE_U⟩ :=
    PageDir.get_set (by rw [htab _ hd]; rfl) ⟨rfl, rfl⟩
  have hne : ¬ PageDir.SamePage (2 ^ 22 + PGSIZE) (2 ^ 22) := fun h => absurd h.2 (by decide)
  have hget3 : (pd2.set (2 ^ 22) none).get (2 ^ 22 + PGSIZE) = none := by
    rw [PageDir.get_set_of_ne hne, PageDir.get_set_of_ne hne, hget1 _ hd']
  obtain ⟨k3, hl3, hback⟩ : ∃ k3 : Kmem, k3.freelist = [mem] ∧
      deallocRounds L (2 ^ 22 + 2 * PGSIZE) maxRounds pd2 (2 ^ 22) k2 = (.ok (pd2.set (2 ^ 22) none), k3) := by
    refine ⟨⟨mem :: k2.freelist, k2.fails, k2.out.erase mem, if mem ∈ k2.out then k2.bad else mem :: k2.bad⟩,
      congrArg (mem :: ·) hl2, ?_⟩
    rw [hn, deallocRounds_some (by decide) (by decide) (hsome2 _ hd) hget2 h₁ h₂,
      deallocRounds_none (by decide) (by decide) (by rw [PageDir.isSome_set]; exact hsome2 _ hd') hget3,
      deallocRounds, if_neg (by decide)]
    rfl
  have hfail : allocPage L (2 ^ 22) (2 ^ 22 + 2 * PGSIZE) pd2 (2 ^ 22 + PGSIZE) k2 =
      (.ok (false, pd2.set (2 ^ 22) none), k3) := by
    have hup : pgRoundUp (2 ^ 22) = 2 ^ 22 := by decide
    have hdealloc : deallocuvm L pd2 (2 ^ 22 + 2 * PGSIZE) (2 ^ 22) k2 =
        (.ok (2 ^ 22, pd2.set (2 ^ 22) none), k3) := by
      rw [deallocuvm, if_neg (by decide), hup, bind_of_ok hback]
      rfl
    rw [allocPage, bind_of_ok (kalloc_empty hf2 hl2)]
    dsimp only
    rw [bind_of_ok hdealloc]
    rfl
  refine ⟨pd2.set (2 ^ 22) none, k3, ?_, hl3⟩
  have hup : pgRoundUp (2 ^ 22) = 2 ^ 22 := by decide
  have hmod : (2 ^ 22 + PGSIZE) % 2 ^ 32 = 2 ^ 22 + PGSIZE := by decide
  rw [allocuvm, if_neg (by decide), if_neg (by decide), hn, hup, allocRounds, if_pos (by decide), bind_of_ok hround]
  simp only [Bool.not_true, Bool.false_eq_true, if_false]
  rw [hmod, allocRounds, if_pos (by decide), bind_of_ok hfail]
  rfl

end Vm

namespace ProcMem

open Vm Function Exec

variable {L : Layout} {s : St} {p : Fin NPROC} {pd pd' : PageDir} {sz : Nat} {k : Kmem} {n : Int}

theorem lift_run {α : Type} {m : KM α} {a : α} (h : m s.kmem = (.ok a, k)) :
    lift m s = (.ok a, { s with kmem := k }) := by
  unfold lift
  rw [h]

theorem sbrk_fails (hpd : (s.procs p).pgdir = some pd) (hn : n ≠ 0)
    (hg : growproc L pd (s.procs p).sz n s.kmem = (.ok (0, pd'), k)) :
    sbrk L p n s = (.ok (-1), St.set { s with kmem := k } p fun q => { q with pgdir := some pd' }) := by
  unfold sbrk
  rw [bind_of_ok (show Exec.get s = (.ok s, s) from rfl), hpd]
  dsimp only
  rw [bind_of_ok (lift_run hg)]
  simp only [hn, ne_eq, not_false_eq_true, and_self, if_true]
  rfl

theorem sbrk_grows (hpd : (s.procs p).pgdir = some pd) (hsz : ¬ (n ≠ 0 ∧ sz = 0))
    (hg : growproc L pd (s.procs p).sz n s.kmem = (.ok (sz, pd'), k)) :
    sbrk L p n s = (.ok ((s.procs p).sz : Int),
      (St.set { s with kmem := k } p fun q => { q with pgdir := some pd' }).set p fun q => { q with sz := sz }) := by
  unfold sbrk
  rw [bind_of_ok (show Exec.get s = (.ok s, s) from rfl), hpd]
  dsimp only
  rw [bind_of_ok (lift_run hg)]
  simp only [hsz, if_false]
  rfl

theorem step_sbrk (hlive : (s.procs p).live = true) (hpd : (s.procs p).pgdir = some pd) (hsz : sz ≠ 0)
    (hg : growproc L pd (s.procs p).sz n (s.withFails []).kmem = (.ok (sz, pd'), k)) :
    ∃ s', step L s ⟨p, .sbrk n, []⟩ = some s' ∧ s'.kmem = k ∧ (s'.procs p).sz = sz ∧
      (s'.procs p).pgdir = some pd' ∧ (s'.procs p).live = true := by
  have hrun := sbrk_grows (s := s.withFails []) (by exact hpd) (fun h => hsz h.2) hg
  refine ⟨(St.set { s.withFails [] with kmem := k } p fun q => { q with pgdir := some pd' }).set p
    fun q => { q with sz := sz }, ?_, rfl, ?_, ?_, ?_⟩
  · simp only [step, hlive, Call.allowed, Call.run, Bool.and_self, if_true]
    rw [hrun]
  · rw [St.set_procs]
  · rw [St.set_procs, St.set_procs]
  · rw [St.set_procs, St.set_procs]
    exact hlive

/-- The first process after a boot that leaves 1025 free pages: it has one page, at address 0. -/
def bootedWith1025 : Bool :=
  match bootSmall 1034 with
  | (.ok (), s) =>
    s.kmem.freelist.length == 1025 && s.kmem.fails.isEmpty && s.kmem.freelist.all (fun f => 1 ≤ f && f < 1034) &&
      (s.procs 0).live && (s.procs 0).sz == 4096 && (s.procs 0).pgdir.any fun pd =>
        (pd.pde 1).isNone && (pd.pde 0).any fun t => (List.range 1023).all fun j => (t.pte (Fin.ofNat 1024 (j + 1))).isNone
  | (.error _, _) => false

set_option maxRecDepth 20000 in
theorem bootedWith1025_eq : bootedWith1025 = true := by decide +kernel

theorem exists_booted : ∃ s pd, bootSmall 1034 = (.ok (), s) ∧ s.kmem.freelist.length = 1025 ∧ s.kmem.fails = [] ∧
    (∀ f ∈ s.kmem.freelist, 1 ≤ f ∧ f < 1034) ∧ (s.procs 0).live = true ∧ (s.procs 0).sz = 4096 ∧
    (s.procs 0).pgdir = some pd ∧ pd.pde 1 = none ∧ (pd.pde 0).isSome = true ∧
    ∀ va, 4096 ≤ va → va < 2 ^ 22 → va % PGSIZE = 0 → pd.get va = none := by
  have h := bootedWith1025_eq
  unfold bootedWith1025 at h
  split at h
  · rename_i s hs
    simp only [Bool.and_eq_true, beq_iff_eq, List.isEmpty_iff, List.all_eq_true, decide_eq_true_eq,
      Option.any_eq_true, Option.isNone_iff_eq_none] at h
    obtain ⟨⟨⟨⟨⟨hlen, hf⟩, hall⟩, hlive⟩, hsz⟩, pd, hpd, h1, t, ht, hpte⟩ := h
    refine ⟨s, pd, hs, hlen, hf, hall, hlive, hsz, hpd, h1, by rw [ht]; rfl, fun va h2 h3 h4 => ?_⟩
    simp only [PGSIZE] at h4
    have hd : PDX va = 0 := Fin.ext (by rw [PDX_val (by omega)]; show va / 2 ^ 22 = 0; omega)
    have hx : PTX va = Fin.ofNat 1024 (va / 4096 - 1 + 1) := Fin.ext (by
      show va / 2 ^ 12 % 1024 = (va / 4096 - 1 + 1) % 1024
      omega)
    rw [PageDir.get, hd, ht, hx]
    exact hpte (va / 4096 - 1) (List.mem_range.2 (by omega))
  · cases h

theorem growproc_eq (h : 0 < n) : growproc L pd sz n = allocuvm L pd sz ((sz + n) % 2 ^ 32).toNat := by
  rw [growproc, if_pos h]

/-- A failing `sbrk` after which a page that was free is not free any more. -/
theorem sbrk_keeps_table : ∃ s₀ s s', bootSmall 1034 = (.ok (), s₀) ∧
    Machine.Reachable (step (smallLayout 1034)) s₀ s ∧ (s.procs 0).live = true ∧
    Call.run (smallLayout 1034) 0 (.sbrk 8192) (s.withFails []) = (.ok (-1), s') ∧
    ¬ s'.kmem.freelist.Perm s.kmem.freelist := by
  obtain ⟨s₀, pd, hboot, hlen, hf, hall, hlive, hsz, hpd, hone, hzero, hget⟩ := exists_booted
  -- the process grows to 4 MB
  have hmax : 1023 < maxRounds := by rw [maxRounds]; omega
  obtain ⟨pd1, k1, hfill, hf1, hl1, hpd1⟩ := allocRounds_fill (L := smallLayout 1034) 1023 maxRounds pd 4096
    (s₀.withFails []).kmem hmax (by decide) (by decide) le_rfl rfl (by show 1023 ≤ s₀.kmem.freelist.length; omega)
    hzero hget
  have hgrow : growproc (smallLayout 1034) pd ((s₀.withFails []).procs 0).sz 4190208 (s₀.withFails []).kmem =
      (.ok (2 ^ 22, pd1), k1) := by
    have hnew : (((4096 : Nat) + (4190208 : Int)) % 2 ^ 32).toNat = 2 ^ 22 := by omega
    have hup : pgRoundUp 4096 = 4096 := by decide
    rw [show ((s₀.withFails []).procs 0).sz = 4096 from hsz, growproc_eq (by decide), hnew, allocuvm,
      if_neg (by decide), if_neg (by decide), hup, hfill]
  obtain ⟨s, hstep, hkmem, hsz1, hpgdir, hlive1⟩ := step_sbrk hlive hpd (Nat.two_pow_pos 22).ne' hgrow
  -- two pages are left
  have hlen1 : k1.freelist.length = 2 := by
    have : (s₀.withFails []).kmem.freelist.length = 1025 := hlen
    rw [hl1, List.length_drop, this]
  obtain ⟨mem, tab, hpages⟩ := List.length_eq_two.1 hlen1
  have hmem : 1 ≤ mem ∧ mem < 1034 := by
    refine hall mem (List.mem_of_mem_drop (i := 1023) ?_)
    show mem ∈ (s₀.withFails []).kmem.freelist.drop 1023
    rw [← hl1, hpages]
    exact List.mem_cons_self
  obtain ⟨pd2, k2, hkeep, hl2⟩ := allocuvm_keeps (L := smallLayout 1034) (k := { k1 with fails := [] })
    ((hpd1 1 (by decide)).trans hone) rfl hpages hmem.1 hmem.2
  have hfail : growproc (smallLayout 1034) pd1 ((s.withFails []).procs 0).sz 8192 (s.withFails []).kmem =
      (.ok (0, pd2), k2) := by
    have hnew : (((2 ^ 22 : Nat) + (8192 : Int)) % 2 ^ 32).toNat = 2 ^ 22 + 2 * PGSIZE := by
      simp only [PGSIZE]
      omega
    have hk : (s.withFails []).kmem = { k1 with fails := [] } := by rw [St.withFails, hkmem]
    rw [show ((s.withFails []).procs 0).sz = 2 ^ 22 from hsz1, growproc_eq (by decide), hnew, hk, hkeep]
  refine ⟨s₀, s, _, hboot, Machine.Reach.refl.tail trivial hstep, hlive1,
    sbrk_fails (by exact hpgdir) (by decide) hfail, fun hperm => ?_⟩
  have h := hperm.length_eq
  rw [hkmem, hlen1] at h
  have hone : k2.freelist.length = 1 := by rw [hl2]; rfl
  exact absurd (hone.symm.trans h) (by decide)

end ProcMem

end Xv6
