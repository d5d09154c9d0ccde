import Xv6.SbrkExact

/-!
# Address spaces

Any number of page directories, made by `setupkvm` and `copyuvm` and changed by the functions of `vm.c`
that the kernel calls on user memory. In every state of every run each of them maps the kernel's
addresses as `kmap` says. A page table is the tree it is in `Vm`; that the memory it lies in is not
written through a user address is the last part of `kernelHalf_kept`.
-/

namespace Xv6.Vm

open Exec Function Tally

/-! ### `loaduvm` -/

/-- The bytes `bs` are stored at the start of a page. -/
def writePage (page : Nat) (bs : List UInt8) : RM Unit :=
  Exec.modify fun s => { s with ram := update s.ram page fun j => bs.getD j (s.ram page j) }

namespace Phys

/-- The loop of `loaduvm` from byte `i` on. `readi` says which bytes are read at an offset when `n` are
asked for. The entry may not be present; the address of its page is then 0. -/
def loadRounds (readi : Nat → Nat → List UInt8) (pd : PageDir) (addr offset sz : Nat) : Nat → Nat → RM Bool
  | 0, _ => Exec.stop .loops
  | m + 1, i =>
    if i < sz then
      match pd.pde (PDX ((addr + i) % 2 ^ 32)) with
      | none => Exec.stop .loaduvm
      | some pgtab => do
        let page := ((pgtab.pte (PTX ((addr + i) % 2 ^ 32))).map Pte.page).getD 0
        let n := if sz - i < PGSIZE then sz - i else PGSIZE
        let bytes := (readi ((offset + i) % 2 ^ 32) n).take n
        writePage page bytes
        if bytes.length ≠ n then return false
        else loadRounds readi pd addr offset sz m ((i + PGSIZE) % 2 ^ 32)
    else pure true

/-- `loaduvm`; `false` is the return value -1. -/
def loaduvm (readi : Nat → Nat → List UInt8) (pd : PageDir) (addr offset sz : Nat) : RM Bool :=
  if addr % PGSIZE ≠ 0 then Exec.stop .loaduvm
  else loadRounds readi pd addr offset sz maxRounds 0

end Phys

section Load

variable {pd : PageDir} {readi : Nat → Nat → List UInt8} {addr offset sz : Nat}

theorem PageDir.userPages_get {va : Nat} {e : Pte} (hva : va < KERNBASE) (h : pd.get va = some e) :
    0 < pd.userPages e.page := by
  have hd : (PDX va).val < 512 := by
    simp only [KERNBASE] at hva
    rw [PDX_val (by omega)]
    omega
  have hone : pteCount e.page (pd.get (pageAddr (PDX va) (PTX va))) = 1 := by
    rw [PageDir.get_pageAddr, ← PageDir.get, h]
    exact if_pos rfl
  have htable : 1 ≤ ∑ j, pteCount e.page (pd.get (pageAddr (PDX va) j)) := by
    rw [← hone]
    exact Finset.single_le_sum (f := fun j => pteCount e.page (pd.get (pageAddr (PDX va) j)))
      (fun _ _ => Nat.zero_le _) (Finset.mem_univ _)
  refine lt_of_lt_of_le htable ?_
  have hdir := Finset.single_le_sum
    (f := fun i : Fin 1024 => if i.val < 512 then ∑ j, pteCount e.page (pd.get (pageAddr i j)) else 0)
    (fun _ _ => Nat.zero_le _) (Finset.mem_univ (PDX va))
  rwa [if_pos hd] at hdir

theorem loadRounds_frame (hle : addr + sz ≤ KERNBASE) (m : Nat) (s : Phys) (i : Nat) :
    Ends (Phys.loadRounds readi pd addr offset sz m i) s fun _ s' => s'.kmem = s.kmem ∧
      ∀ f, f ≠ 0 → pd.userPages f = 0 → s'.ram f = s.ram f := by
  induction m generalizing s i with
  | zero => exact .stop
  | succ m ih =>
    rw [Phys.loadRounds]
    split
    · rename_i hlt
      split
      · exact .stop
      · rename_i pgtab hpde
        have hva : (addr + i) % 2 ^ 32 = addr + i := Nat.mod_eq_of_lt (by simp only [KERNBASE] at hle; omega)
        rw [hva] at hpde ⊢
        have hget : pd.get (addr + i) = pgtab.pte (PTX (addr + i)) := by rw [PageDir.get, hpde, Option.bind_some]
        rw [← hget]
        have hne : ∀ f, f ≠ 0 → pd.userPages f = 0 → f ≠ ((pd.get (addr + i)).map Pte.page).getD 0 := by
          rintro f hf huser rfl
          rcases he : pd.get (addr + i) with _ | e
          · rw [he] at hf
            exact hf rfl
          · have hpos := PageDir.userPages_get (by omega) he
            rw [he] at huser
            exact hpos.ne' huser
        generalize (if sz - i < PGSIZE then sz - i else PGSIZE) = len
        refine .modify_bind ?_
        split
        · exact .pure ⟨rfl, fun f hf huser => update_of_ne (hne f hf huser) _ _⟩
        · refine (ih _ _).mono fun _ s' h => ⟨h.1, fun f hf huser => ?_⟩
          rw [h.2 f hf huser]
          exact update_of_ne (hne f hf huser) _ _
    · exact .pure ⟨rfl, fun _ _ _ => rfl⟩

theorem loaduvm_frame (hle : addr + sz ≤ KERNBASE) (s : Phys) :
    Ends (Phys.loaduvm readi pd addr offset sz) s fun _ s' => s'.kmem = s.kmem ∧
      ∀ f, f ≠ 0 → pd.userPages f = 0 → s'.ram f = s.ram f := by
  unfold Phys.loaduvm
  split
  · exact .stop
  · exact loadRounds_frame hle _ s 0

end Load

/-! ### Runs -/

structure Spaces (n : Nat) where
  phys : Phys
  dirs : Fin n → Option PageDir

/-- A call, with the place of the page directory it is about. -/
inductive Op (n : Nat)
  | setupkvm (i : Fin n)
  | allocuvm (i : Fin n) (oldsz newsz : Nat)
  | deallocuvm (i : Fin n) (oldsz newsz : Nat)
  | clearpteu (i : Fin n) (uva : Nat)
  | loaduvm (i : Fin n) (readi : Nat → Nat → List UInt8) (addr offset sz : Nat)
  | copyuvm (i j : Fin n) (sz : Nat)
  | freevm (i : Fin n)

variable {n : Nat}

/-- Calls `m` on the page directory `i` and stores the result at `j`. -/
def onDir (dirs : Fin n → Option PageDir) (i j : Fin n) (m : PageDir → RM (Option PageDir)) :
    RM (Fin n → Option PageDir) :=
  match dirs i with
  | none => Exec.stop .freevm
  | some pd => do return update dirs j (← m pd)

def Op.run (L : Layout) (dirs : Fin n → Option PageDir) : Op n → RM (Fin n → Option PageDir)
  | .setupkvm i => do return update dirs i (← onRam (Vm.setupkvm L))
  | .allocuvm i oldsz newsz => onDir dirs i i fun pd => do return some (← Phys.allocuvm L pd oldsz newsz).2
  | .deallocuvm i oldsz newsz => onDir dirs i i fun pd => do return some (← onRam (Vm.deallocuvm L pd oldsz newsz)).2
  | .clearpteu i uva => onDir dirs i i fun pd => do return some (← onRam (Vm.clearpteu pd uva))
  | .loaduvm i readi addr offset sz => onDir dirs i i fun pd => do
    let _ ← Phys.loaduvm readi pd addr offset sz
    return some pd
  | .copyuvm i j sz => onDir dirs i j fun pd => Phys.copyuvm L pd sz
  | .freevm i => onDir dirs i i fun pd => do
    onRam (Vm.freevm L pd)
    return none

def Op.OnUser : Op n → Prop
  | .deallocuvm _ oldsz _ => oldsz ≤ KERNBASE
  | .clearpteu _ uva => uva < KERNBASE
  | .loaduvm _ _ addr _ sz => addr + sz ≤ KERNBASE
  | _ => True

structure Act (n : Nat) where
  op : Op n
  fails : List Bool

def Phys.withFails (s : Phys) (fails : List Bool) : Phys := { s with kmem := { s.kmem with fails := fails } }

def step (L : Layout) (s : Spaces n) (a : Act n) : Option (Spaces n) :=
  match a.op.run L s.dirs (s.phys.withFails a.fails) with
  | (.ok dirs, phys) => some ⟨phys, dirs⟩
  | (.error _, _) => none

/-! ### Enough memory for `setupkvm` -/

def present (pd : PageDir) : Nat := tally (fun o => if Option.isSome o then 1 else 0) pd.pde

/-- There is a free page for each page table that `pd` may still need. -/
def Enough (k : Kmem) (pd : PageDir) : Prop := k.fails = [] ∧ NPDENTRIES ≤ k.freelist.length + present pd

section Enough

variable {L : Layout} {k : Kmem} {pd : PageDir}

theorem present_le (pd : PageDir) : present pd ≤ NPDENTRIES := by
  have h := Finset.sum_le_card_nsmul Finset.univ (fun i => if (pd.pde i).isSome then 1 else 0) 1 fun i _ => by
    split <;> decide
  rwa [Finset.card_univ, Fintype.card_fin, smul_eq_mul, Nat.mul_one] at h

theorem present_congr {pd' : PageDir} (h : ∀ i, (pd'.pde i).isSome = (pd.pde i).isSome) : present pd' = present pd :=
  tally_congr fun i => by rw [h i]

theorem walkpgdir_enough (h : Enough k pd) (va : Nat) :
    Ends (walkpgdir pd va true) k fun r k' => r.1 = true ∧ Enough k' r.2 := by
  unfold walkpgdir
  split
  · exact .pure ⟨rfl, h⟩
  · rename_i hnone
    have hmore : ∀ t, present { pd with pde := update pd.pde (PDX va) (some t) } = present pd + 1 := fun t => by
      have := tally_update (fun o => if Option.isSome o then 1 else 0) pd.pde (PDX va) (some t)
      rw [present, present]
      simpa [hnone] using this
    have hlt : present pd < NPDENTRIES := by
      have := present_le { pd with pde := update pd.pde (PDX va) (some ⟨0, fun _ => none⟩) }
      rw [hmore] at this
      omega
    obtain ⟨r, next, hlist⟩ := List.exists_cons_of_length_pos (l := k.freelist) (by have := h.2; omega)
    rw [if_pos rfl]
    intro x k' hrun
    rw [bind_of_ok (kalloc_run h.1 hlist)] at hrun
    cases hrun
    refine ⟨rfl, rfl, ?_⟩
    have hlen := h.2
    rw [hlist, List.length_cons] at hlen
    rw [hmore]
    show NPDENTRIES ≤ next.length + (present pd + 1)
    omega

theorem mapPage_enough (h : Enough k pd) (perm a pa : Nat) :
    Ends (mapPage perm pd a pa) k fun r k' => r.1 = true ∧ Enough k' r.2 := by
  unfold mapPage
  refine .bind (walkpgdir_enough h a) fun r k1 h1 => ?_
  obtain ⟨ok, pd1⟩ := r
  obtain ⟨hok, h1⟩ := h1
  dsimp only at hok h1 ⊢
  subst hok
  split
  · rename_i hno
    cases hno
  · split
    · exact .stop
    · refine .pure ⟨rfl, h1.1, ?_⟩
      rw [present_congr PageDir.isSome_set]
      exact h1.2

theorem mapRounds_enough (perm n : Nat) (h : Enough k pd) (a pa : Nat) :
    Ends (mapRounds perm n pd a pa) k fun r k' => r.1 = true ∧ Enough k' r.2 := by
  induction n generalizing k pd a pa with
  | zero => exact .pure ⟨rfl, h⟩
  | succ n ih =>
    rw [mapRounds]
    refine .bind (mapPage_enough h perm a pa) fun r k1 h1 => ?_
    obtain ⟨ok, pd1⟩ := r
    obtain ⟨hok, h1⟩ := h1
    dsimp only at hok h1 ⊢
    subst hok
    exact ih h1 _ _

theorem kmapRounds_enough (ks : List Kmap) (h : Enough k pd) :
    Ends (kmapRounds L ks pd) k fun r _ => r.isSome = true := by
  induction ks generalizing k pd with
  | nil => exact .pure rfl
  | cons row ks ih =>
    rw [kmapRounds, kmapRow, mappages]
    refine .bind (P := fun r k' => ∃ pd', r = some pd' ∧ Enough k' pd') ?_ ?_
    · refine .bind (mapRounds_enough _ _ h _ _) fun r k1 h1 => ?_
      obtain ⟨ok, pd1⟩ := r
      obtain ⟨hok, h1⟩ := h1
      dsimp only at hok h1 ⊢
      subst hok
      exact .pure ⟨pd1, rfl, h1⟩
    · rintro _ k1 ⟨pd1, rfl, h1⟩
      exact ih h1

/-- With a page for the directory and one for each page table, `setupkvm` succeeds. -/
theorem setupkvm_enough (hf : k.fails = []) (hlen : NPDENTRIES < k.freelist.length) :
    Ends (setupkvm L) k fun r _ => r.isSome = true := by
  obtain ⟨page, next, hlist⟩ := List.exists_cons_of_length_pos (l := k.freelist) (by omega)
  unfold setupkvm
  intro r k' hrun
  rw [bind_of_ok (kalloc_run hf hlist)] at hrun
  refine kmapRounds_enough _ ⟨rfl, ?_⟩ r k' hrun
  rw [hlist, List.length_cons] at hlen
  exact (Nat.le_of_lt_succ hlen).trans (Nat.le_add_right _ _)

end Enough

/-! ### Kernel halves -/

/-- The addresses from `KERNBASE` on are mapped as the rows say, and not for user programs. -/
structure KernelHalf (ks : List Kmap) (pd : PageDir) : Prop where
  exact : ∀ va, KERNBASE ≤ va → va < 2 ^ 32 → translate pd va = kmapAt ks va
  supervisor : ∀ va x, KERNBASE ≤ va → va < 2 ^ 32 → translate pd va = some x → x.2 &&& PTE_U = 0

theorem KernelHalf.sameUpper {ks : List Kmap} {pd pd' : PageDir} (h : KernelHalf ks pd) (hs : pd'.SameUpper pd) :
    KernelHalf ks pd' := by
  have heq : ∀ va, KERNBASE ≤ va → va < 2 ^ 32 → translate pd' va = translate pd va := fun va h1 h2 => by
    rw [translate, translate, hs va h1 h2]
  refine ⟨fun va h1 h2 => (heq va h1 h2).trans (h.exact va h1 h2), fun va x h1 h2 hx => ?_⟩
  exact h.supervisor va x h1 h2 ((heq va h1 h2).symm.trans hx)

theorem kmapAt_supervisor {ks : List Kmap} (h : ∀ k ∈ ks, k.perm &&& PTE_U = 0) {va : Nat} {x : Nat × Nat}
    (hx : kmapAt ks va = some x) : x.2 &&& PTE_U = 0 := by
  induction ks with
  | nil => cases hx
  | cons k ks ih =>
    rw [kmapAt] at hx
    split at hx
    · cases hx
      exact h k List.mem_cons_self
    · exact ih (fun k' hk' => h k' (List.mem_cons_of_mem _ hk')) hx

/-- What is needed of the kernel's mappings: whole pages, none of them twice and none for user programs. -/
structure KmapOk (L : Layout) : Prop where
  apart : L.kmap.Pairwise Kmap.Apart
  aligned : ∀ k ∈ L.kmap, k.Aligned
  supervisor : ∀ k ∈ L.kmap, k.perm &&& PTE_U = 0

theorem KmapOk.setupkvm {L : Layout} (h : KmapOk L) (k : Kmem) :
    Meets (setupkvm L) k (fun r k' => (∀ f, Keeps f k 0 k' (pgdirCount f r)) ∧
      ∀ pd, r = some pd → KernelHalf L.kmap pd ∧ pd.Unmapped 0 KERNBASE)
      fun _ _ => ¬ ∀ f, 0 < k.count f → L.managed f := by
  refine (setupkvm_meets L k).mono (fun r _ ht => ⟨ht.1, fun pd hr => ?_⟩) fun _ _ hno hm => hno ⟨h.apart, hm⟩
  obtain ⟨huser, hmap⟩ := ht.2 h.apart pd hr
  have heq := hmap h.aligned
  refine ⟨⟨fun va _ h2 => heq va h2, fun va x _ h2 hx => ?_⟩, huser⟩
  rw [heq va h2] at hx
  exact kmapAt_supervisor h.supervisor hx

structure Linked (L : Layout) (data : Nat) : Prop where
  align : data % PGSIZE = 0
  lo : KERNLINK < data
  hi : data < KERNBASE + PHYSTOP
  kmap : L.kmap = kmap data

namespace Linked

variable {L : Layout} {data : Nat}

theorem apart (h : Linked L data) : L.kmap.Pairwise Kmap.Apart := h.kmap ▸ kmap_apart h.align h.lo h.hi

theorem aligned (h : Linked L data) : ∀ k ∈ L.kmap, k.Aligned := h.kmap ▸ kmap_aligned h.align h.lo h.hi

theorem supervisor (h : Linked L data) : ∀ k ∈ L.kmap, k.perm &&& PTE_U = 0 := by
  rw [h.kmap]
  intro k hk
  simp only [Vm.kmap, List.mem_cons, List.not_mem_nil, or_false] at hk
  rcases hk with rfl | rfl | rfl | rfl <;> dsimp only <;> decide

theorem kmapOk (h : Linked L data) : KmapOk L := ⟨h.apart, h.aligned, h.supervisor⟩

theorem kernbase (h : Linked L data) {pd : PageDir} (hpd : KernelHalf L.kmap pd) : (pd.get KERNBASE).isSome = true := by
  have heq := hpd.exact KERNBASE le_rfl (by decide)
  have hrow : (kmapAt L.kmap KERNBASE).isSome = true := by
    rw [h.kmap, Vm.kmap, kmapAt, if_pos (by decide)]
    rfl
  rw [← heq, translate, Option.isSome_map] at hrow
  exact hrow

theorem copyuvm (h : Linked L data) (s : Kmem) (pgdir : PageDir) (sz : Nat) :
    Ends (Vm.copyuvm L pgdir sz) s fun r s' =>
      (∀ f, Keeps f s 0 s' (pgdirCount f r)) ∧ ∀ pd, r = some pd → KernelHalf L.kmap pd := by
  unfold Vm.copyuvm
  refine .bind (h.kmapOk.setupkvm s).ends fun r s1 h1 => ?_
  rcases r with _ | d
  · exact .pure ⟨h1.1, nofun⟩
  · have hd := (h1.2 d rfl).1
    refine (copyRounds_ends _ s1 d 0 rfl (Nat.zero_le _) (.inr (h.kernbase hd))).mono fun r s' h2 =>
      ⟨fun f => ?_, fun pd hr => ?_⟩
    · exact (h1.1 f).trans (h2.1 f)
    · exact hd.sameUpper (h2.2 pd hr)

end Linked

/-! ### The invariant -/

/-- Every page is free or part of one page directory, and every page directory has the kernel's half. -/
structure Good (L : Layout) (k : Kmem) (dirs : Fin n → Option PageDir) : Prop where
  once : ∀ f, k.count f + tally (pgdirCount f) dirs ≤ ProcMem.within L.first L.phystop f
  kernel : ∀ i pd, dirs i = some pd → KernelHalf L.kmap pd

section Step

variable {L : Layout} {data : Nat} {k k' : Kmem} {dirs : Fin n → Option PageDir} {i j : Fin n} {r : Option PageDir}

theorem Good.put (h : Good L k dirs) (hk : ∀ f, k'.count f + pgdirCount f r ≤ k.count f + pgdirCount f (dirs j))
    (hr : ∀ pd, r = some pd → KernelHalf L.kmap pd) : Good L k' (update dirs j r) := by
  refine ⟨fun f => ?_, fun i pd hi => ?_⟩
  · have h1 := h.once f
    have h2 := hk f
    have h3 := tally_update (pgdirCount f) dirs j r
    omega
  · rcases eq_or_ne i j with rfl | hne
    · rw [update_self] at hi
      exact hr pd hi
    · rw [update_of_ne hne] at hi
      exact h.kernel i pd hi

theorem Good.onDir {s : Phys} {m : PageDir → RM (Option PageDir)} (h : Good L s.kmem dirs)
    (hm : ∀ pd, dirs i = some pd → Ends (m pd) s fun r s' =>
      (∀ f, s'.kmem.count f + pgdirCount f r ≤ s.kmem.count f + pgdirCount f (dirs j)) ∧
        ∀ pd', r = some pd' → KernelHalf L.kmap pd') :
    Ends (Vm.onDir dirs i j m) s fun dirs' s' => Good L s'.kmem dirs' := by
  unfold Vm.onDir
  split
  · exact .stop
  · rename_i pd hpd
    exact .bind (hm pd hpd) fun r s' hr => .pure (h.put hr.1 hr.2)

theorem Good.after {pd pd' : PageDir} (h : Good L k dirs) (hpd : dirs i = some pd)
    (hk : ∀ f, Keeps f k (pd.count f) k' (pd'.count f)) (hs : pd'.SameUpper pd) :
    (∀ f, k'.count f + pgdirCount f (some pd') ≤ k.count f + pgdirCount f (dirs i)) ∧
      ∀ pd'', some pd' = some pd'' → KernelHalf L.kmap pd'' := by
  refine ⟨fun f => ?_, ?_⟩
  · rw [hpd]
    exact (hk f).1.le
  · rintro _ ⟨⟩
    exact (h.kernel i pd hpd).sameUpper hs

theorem Good.run (hL : Linked L data) {s : Phys} {op : Op n} (h : Good L s.kmem dirs) (hop : op.OnUser) :
    Ends (op.run L dirs) s fun dirs' s' => Good L s'.kmem dirs' := by
  cases op with
  | setupkvm i =>
    refine .bind ((Erases.onRam _).ends (hL.kmapOk.setupkvm s.kmem).ends) fun r s' hr => ?_
    refine .pure (h.put (fun f => ?_) fun pd hpd => (hr.2 pd hpd).1)
    have := (hr.1 f).1
    omega
  | allocuvm i oldsz newsz =>
    refine h.onDir fun pd hpd => ?_
    refine .bind ((allocuvm_erases L pd oldsz newsz).ends (allocuvm_ends s.kmem pd oldsz newsz)) fun r s' hr => ?_
    exact .pure (h.after hpd hr.keeps hr.upper)
  | deallocuvm i oldsz newsz =>
    refine h.onDir fun pd hpd => ?_
    refine .bind ((Erases.onRam _).ends (deallocuvm_meets s.kmem pd hop).ends) fun r s' hr => ?_
    exact .pure (h.after hpd hr.2.keeps (hr.2.sameUpper (by split; exacts [hop, Nat.zero_le _])))
  | clearpteu i uva =>
    refine h.onDir fun pd hpd => ?_
    exact .bind ((Erases.onRam _).ends (clearpteu_ends s.kmem pd uva)) fun r s' hr =>
      .pure (h.after hpd hr.1 (hr.2 hop))
  | loaduvm i readi addr offset sz =>
    refine h.onDir fun pd hpd => .bind (loaduvm_frame hop s) fun _ s' hs => .pure ?_
    rw [hs.1]
    exact h.after hpd (fun f => .refl f _ _) fun _ _ _ => rfl
  | copyuvm i j sz =>
    refine h.onDir fun pd hpd => ?_
    refine ((copyuvm_erases L pd sz).ends (hL.copyuvm s.kmem pd sz)).mono fun r s' hr => ⟨fun f => ?_, hr.2⟩
    have := (hr.1 f).1
    omega
  | freevm i =>
    refine h.onDir fun pd hpd => ?_
    refine .bind ((Erases.onRam _).ends (freevm_meets s.kmem pd).ends) fun _ s' hs => .pure ⟨fun f => ?_, nofun⟩
    have := (hs f).1
    rw [hpd]
    show s'.kmem.count f + 0 ≤ s.kmem.count f + pd.count f
    omega

theorem Good.managed (h : Good L k dirs) {f : Nat} (hpos : 0 < k.count f + tally (pgdirCount f) dirs) : L.managed f :=
  ProcMem.mem_of_within_pos (hpos.trans_le (h.once f))

theorem Good.table (h : Good L k dirs) {pd pd' : PageDir} {f : Nat} (hi : dirs i = some pd) (hj : dirs j = some pd')
    (hpos : 0 < pd'.ownPages f) : f ≠ 0 ∧ pd.userPages f = 0 := by
  have hone := (h.once f).trans (ProcMem.within_le ..)
  have hcount : ∀ i pd, dirs i = some pd → pgdirCount f (dirs i) = pd.ownPages f + pd.userPages f := fun i pd hi => by
    rw [hi]
    exact pd.count_eq f
  have h1 := hcount i pd hi
  have h2 := hcount j pd' hj
  have h3 := le_tally (pgdirCount f) dirs j
  refine ⟨?_, ?_⟩
  · rintro rfl
    have hpos0 : 0 < k.count 0 + tally (pgdirCount 0) dirs := by omega
    have hfirst := (h.managed hpos0).1
    have := L.first_pos
    omega
  · rcases eq_or_ne i j with rfl | hne
    · obtain rfl : pd = pd' := Option.some.inj (hi.symm.trans hj)
      omega
    · -- the sum over the other page directories has the count of `pd` still in it
      have h4 := tally_update (pgdirCount f) dirs j none
      have h5 := le_tally (pgdirCount f) (update dirs j none) i
      rw [update_of_ne hne] at h5
      have h6 : pgdirCount f none = 0 := rfl
      omega

theorem Good.loaduvm {s : Phys} {readi : Nat → Nat → List UInt8} {addr offset sz : Nat} (h : Good L s.kmem dirs)
    (hle : addr + sz ≤ KERNBASE) :
    Ends ((Op.loaduvm i readi addr offset sz).run L dirs) s fun _ s' =>
      ∀ j pd f, dirs j = some pd → 0 < pd.ownPages f → s'.ram f = s.ram f := by
  rw [Op.run, Vm.onDir]
  split
  · exact .stop
  · rename_i pd hpd
    have hload : Ends (do let _ ← Phys.loaduvm readi pd addr offset sz; return some pd : RM (Option PageDir)) s
        fun _ s' => ∀ f, f ≠ 0 → pd.userPages f = 0 → s'.ram f = s.ram f :=
      .bind (loaduvm_frame hle s) fun _ s' hs => .pure hs.2
    refine .bind hload fun _ s' hs => .pure fun j pd' f hj hpos => ?_
    obtain ⟨hne, huser⟩ := h.table hpd hj hpos
    exact hs f hne huser

theorem good_of_reach (hL : Linked L data) {s₀ s : Spaces n} (h₀ : Good L s₀.phys.kmem s₀.dirs)
    (hs : Machine.Reach (step L) (fun _ a => a.op.OnUser) s₀ s) : Good L s.phys.kmem s.dirs := by
  refine hs.inv (I := fun s => Good L s.phys.kmem s.dirs) h₀ fun s a s' hi hop hstep => ?_
  unfold step at hstep
  split at hstep
  · rename_i dirs phys hrun
    cases hstep
    have hi' : Good L (s.phys.withFails a.fails).kmem s.dirs := ⟨hi.once, hi.kernel⟩
    exact hi'.run hL hop _ _ hrun
  · cases hstep

end Step

/-- Every page directory of every state of every run on user addresses maps the kernel's addresses as `kmap`
says. A further call of `setupkvm` returns, and what it returns maps no user address. A further call of
`loaduvm` writes to no page table. -/
theorem kernelHalf_kept {L : Layout} {data : Nat} (hL : Linked L data) {s₀ s : Spaces n}
    (hfree : ∀ f, s₀.phys.kmem.count f ≤ ProcMem.within L.first L.phystop f) (hnone : ∀ i, s₀.dirs i = none)
    (hs : Machine.Reach (step L) (fun _ a => a.op.OnUser) s₀ s) :
    (∀ i pd, s.dirs i = some pd → KernelHalf (kmap data) pd) ∧
    (∀ fails, ∃ r k, setupkvm L (s.phys.withFails fails).kmem = (.ok r, k) ∧
      ∀ pd, r = some pd → KernelHalf (kmap data) pd ∧ pd.Unmapped 0 KERNBASE) ∧
    ∀ i readi addr offset sz fails s', addr + sz ≤ KERNBASE →
      step L s ⟨.loaduvm i readi addr offset sz, fails⟩ = some s' →
      ∀ j pd f, s.dirs j = some pd → 0 < pd.ownPages f → s'.phys.ram f = s.phys.ram f := by
  have h0 : Good L s₀.phys.kmem s₀.dirs := by
    refine ⟨fun f => ?_, fun i pd hi => ?_⟩
    · have hzero : tally (pgdirCount f) s₀.dirs = 0 := tally_eq_zero fun i => by rw [hnone i]; rfl
      rw [hzero]
      exact hfree f
    · rw [hnone i] at hi
      cases hi
  have hgood := good_of_reach hL h0 hs
  have hfails : ∀ fails, Good L (s.phys.withFails fails).kmem s.dirs := fun fails => ⟨hgood.once, hgood.kernel⟩
  rw [← hL.kmap]
  refine ⟨hgood.kernel, fun fails => ?_, fun i readi addr offset sz fails s' hle hstep j pd f hj hpos => ?_⟩
  · obtain ⟨r, k, hrun, hr⟩ := (hL.kmapOk.setupkvm (s.phys.withFails fails).kmem).total fun _ _ hno =>
      hno fun f hf => (hfails fails).managed (Nat.add_pos_left hf _)
    exact ⟨r, k, hrun, hr.2⟩
  · unfold step at hstep
    split at hstep
    · rename_i dirs phys hrun
      cases hstep
      exact (hfails fails).loaduvm hle _ _ hrun j pd f hj hpos
    · cases hstep

/-! ### A page directory of the kernel -/

/-- A kernel with one page of text, and the memory behind its first data page. -/
def sampleLayout : Layout where
  first := 0x102
  phystop := PHYSTOP / PGSIZE
  kmap := kmap (KERNLINK + PGSIZE)
  first_pos := by decide
  upper := by decide

theorem sampleLayout_linked : Linked sampleLayout (KERNLINK + PGSIZE) := ⟨by decide, by decide, by decide, rfl⟩

def sampleFree : Kmem := ⟨List.range' 0x102 1100, [], [], []⟩

theorem sampleFree_count (f : Nat) : sampleFree.count f ≤ ProcMem.within sampleLayout.first sampleLayout.phystop f := by
  unfold ProcMem.within
  split
  · exact List.nodup_iff_count_le_one.1 List.nodup_range' f
  · rename_i hout
    refine (List.count_eq_zero.2 fun hmem => hout ?_).le
    have hrange := List.mem_range'_1.1 hmem
    exact ⟨hrange.1, hrange.2.trans (by decide)⟩

theorem Linked.exists_setupkvm {L : Layout} {data : Nat} {k : Kmem} (h : Linked L data) (hf : k.fails = [])
    (hlen : NPDENTRIES < k.freelist.length) (hk : ∀ f, k.count f ≤ ProcMem.within L.first L.phystop f) :
    ∃ pd k', setupkvm L k = (.ok (some pd), k') ∧ KernelHalf L.kmap pd := by
  obtain ⟨r, k', hrun, hr⟩ := (h.kmapOk.setupkvm k).total fun _ _ hno =>
    hno fun f hpos => ProcMem.mem_of_within_pos (hpos.trans_le (hk f))
  obtain ⟨pd, rfl⟩ := Option.isSome_iff_exists.1 (setupkvm_enough hf hlen _ _ hrun)
  exact ⟨pd, k', hrun, (hr.2 pd rfl).1⟩

theorem exists_setupkvm : ∃ pd k, setupkvm sampleLayout sampleFree = (.ok (some pd), k) ∧
    KernelHalf sampleLayout.kmap pd :=
  sampleLayout_linked.exists_setupkvm rfl (by rw [sampleFree, List.length_range']; decide) sampleFree_count

theorem step_setupkvm {L : Layout} {k k' : Kmem} {pd : PageDir} (hf : k.fails = [])
    (hrun : setupkvm L k = (.ok (some pd), k')) (ram : Ram) :
    ∃ s : Spaces 1, step L ⟨⟨k, ram⟩, fun _ => none⟩ ⟨.setupkvm 0, []⟩ = some s ∧ s.dirs 0 = some pd := by
  have hk : (Phys.withFails ⟨k, ram⟩ []).kmem = k := by
    obtain ⟨freelist, fails, out, bad⟩ := k
    cases hf
    rfl
  have hram : ∃ q, onRam (setupkvm L) (Phys.withFails ⟨k, ram⟩ []) = (.ok (some pd), q) := by
    rw [onRam, hk, hrun]
    exact ⟨_, rfl⟩
  obtain ⟨q, hq⟩ := hram
  refine ⟨⟨q, update (fun _ => none) 0 (some pd)⟩, ?_, rfl⟩
  rw [step, Op.run, bind_of_ok hq]
  rfl

theorem kernelHalf_kept_first : ∃ (s : Spaces 1) (pd : PageDir), s.dirs 0 = some pd ∧
    KernelHalf (kmap (KERNLINK + PGSIZE)) pd := by
  obtain ⟨pd, k, hrun, -⟩ := exists_setupkvm
  obtain ⟨s, hs, hpd⟩ := step_setupkvm rfl hrun fun _ _ => 0
  have hreach : Machine.Reach (step sampleLayout) (fun _ a => a.op.OnUser) ⟨⟨sampleFree, fun _ _ => 0⟩, fun _ => none⟩ s :=
    .tail (a := ⟨.setupkvm 0, []⟩) .refl trivial hs
  exact ⟨s, pd, hpd, (kernelHalf_kept sampleLayout_linked sampleFree_count (fun _ => rfl) hreach).1 0 pd hpd⟩

/-- `deallocuvm` is told of a size above `KERNBASE` and takes a page of the kernel's half. -/
theorem deallocuvm_unmaps_kernel : ∃ pd k oldsz newsz pd' k', setupkvm sampleLayout sampleFree = (.ok (some pd), k) ∧
    KernelHalf (kmap (KERNLINK + PGSIZE)) pd ∧ deallocuvm sampleLayout pd oldsz newsz k = (.ok (newsz, pd'), k') ∧
    ¬ KernelHalf (kmap (KERNLINK + PGSIZE)) pd' := by
  obtain ⟨pd, k, hrun, hpd⟩ := exists_setupkvm
  let a := KERNBASE + 300 * PGSIZE
  have hat : kmapAt sampleLayout.kmap a = some (300 * PGSIZE, PTE_W) := by decide
  have htrans := (hpd.exact a (by decide) (by decide)).trans hat
  obtain ⟨⟨page, flags⟩, hget, he⟩ := Option.map_eq_some_iff.1 htrans
  obtain ⟨hpage, hflags⟩ := Prod.mk.inj he
  have hpage' : page = 300 := by
    have hzero : a % PGSIZE = 0 := by decide
    simp only [hzero, PGSIZE] at hpage
    omega
  subst hpage'
  have hsome := PageDir.isSome_of_get hget
  obtain ⟨n, hn⟩ : ∃ n, maxRounds = n + 2 := ⟨2 ^ 20 - 1, by rw [maxRounds]; rfl⟩
  have hup : pgRoundUp a = a := by decide
  have hrounds : ∃ k', deallocRounds sampleLayout (a + PGSIZE) maxRounds pd a k = (.ok (pd.set a none), k') := by
    rw [hn, deallocRounds_some (by decide) (by decide) hsome hget (by decide) (by decide), deallocRounds,
      if_neg (by decide)]
    exact ⟨_, rfl⟩
  obtain ⟨k', hk'⟩ := hrounds
  refine ⟨pd, k, a + PGSIZE, a, pd.set a none, k', hrun, hpd, ?_, fun hno => ?_⟩
  · rw [deallocuvm, if_neg (by decide), hup, bind_of_ok hk']
    rfl
  · have hgone := hno.exact a (by decide) (by decide)
    rw [translate, PageDir.get_set hsome ⟨rfl, rfl⟩] at hgone
    have hat' : kmapAt (kmap (KERNLINK + PGSIZE)) a = some (300 * PGSIZE, PTE_W) := hat
    rw [hat'] at hgone
    cases hgone

end Xv6.Vm
