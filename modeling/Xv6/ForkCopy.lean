import Xv6.SbrkKeeps

/-!
# What `copyuvm` copies

`Vm` leaves out what the pages hold. Here the state has the contents of physical memory too, and
`copyuvm` copies the pages. A page table is the tree it is in `Vm`, and the contents of the page it
lies in are not used. Forgetting the contents gives `Vm.copyuvm` (`copyuvm_erases`).
-/

namespace Xv6

namespace Vm

open Function Exec

abbrev Ram := Nat → Fin PGSIZE → UInt8

structure Phys where
  kmem : Kmem
  ram : Ram

abbrev RM := Exec Phys Panic

/-- A program of `vm.c` that moves pages between the allocator and its callers. `kfree` has filled
every page on the free list with 1. -/
def onRam {α : Type} (m : KM α) : RM α := fun s =>
  ((m s.kmem).1, ⟨(m s.kmem).2, fun page => if page ∈ (m s.kmem).2.freelist then fun _ => 1 else s.ram page⟩)

def memmovePage (dst src : Nat) : RM Unit := Exec.modify fun s => { s with ram := update s.ram dst (s.ram src) }

variable (L : Layout)

namespace Phys

def copyPage (pgdir d : PageDir) (i : Nat) : RM (Option PageDir) :=
  match pgdir.get i with
  | none => Exec.stop .copyuvm
  | some pte => do
    match ← onRam kalloc with
    | none =>
      onRam (freevm L d)
      return none
    | some mem =>
      memmovePage mem pte.page
      let (ok, d) ← onRam (mappages d i PGSIZE (mem * PGSIZE) pte.flags)
      if !ok then
        onRam (kfree L mem)
        onRam (freevm L d)
        return none
      else return some d

def copyRounds (pgdir : PageDir) (sz : Nat) : Nat → PageDir → Nat → RM (Option PageDir)
  | 0, _, _ => Exec.stop .loops
  | n + 1, d, i =>
    if i < sz then do
      match ← copyPage L pgdir d i with
      | none => return none
      | some d => copyRounds pgdir sz n d ((i + PGSIZE) % 2 ^ 32)
    else pure (some d)

def copyuvm (pgdir : PageDir) (sz : Nat) : RM (Option PageDir) := do
  match ← onRam (setupkvm L) with
  | none => return none
  | some d => copyRounds L pgdir sz maxRounds d 0

end Phys

/-! ### Forgetting the contents -/

/-- `m` without the contents of memory is `m'`. -/
def Erases {α : Type} (m : RM α) (m' : KM α) : Prop := ∀ s, m' s.kmem = ((m s).1, (m s).2.kmem)

namespace Erases

variable {α β : Type} {m : RM α} {m' : KM α} {f : α → RM β} {f' : α → KM β}

theorem onRam (m : KM α) : Erases (onRam m) m := fun _ => rfl

theorem pure (a : α) : Erases (Pure.pure a : RM α) (Pure.pure a) := fun _ => rfl

theorem stop (e : Panic) : Erases (Exec.stop e : RM α) (Exec.stop e) := fun _ => rfl

theorem bind (hm : Erases m m') (hf : ∀ a, Erases (f a) (f' a)) : Erases (m >>= f) (m' >>= f') := by
  intro s
  rw [bind_run, bind_run, hm s]
  rcases m s with ⟨e | a, s₁⟩
  · rfl
  · exact hf a s₁

theorem ends {P : α → Kmem → Prop} {s : Phys} (h : Erases m m')
    (hm : Ends m' s.kmem P) : Ends m s fun a s' => P a s'.kmem := by
  intro a s' hrun
  refine hm a s'.kmem ?_
  rw [h s, hrun]

theorem memmove {dst src : Nat} {g : Unit → RM β} {m' : KM β} (h : Erases (g ()) m') :
    Erases (memmovePage dst src >>= g) m' := fun s => h { s with ram := update s.ram dst (s.ram src) }

end Erases

theorem copyPage_erases (pgdir d : PageDir) (i : Nat) : Erases (Phys.copyPage L pgdir d i) (copyPage L pgdir d i) := by
  unfold Phys.copyPage copyPage
  rcases pgdir.get i with _ | pte
  · exact .stop _
  · refine .bind (.onRam _) fun r => ?_
    rcases r with _ | mem
    · exact .bind (.onRam _) fun _ => .pure _
    · refine .memmove (.bind (.onRam _) fun r => ?_)
      obtain ⟨ok, d⟩ := r
      dsimp only
      split
      · exact .bind (.onRam _) fun _ => .bind (.onRam _) fun _ => .pure _
      · exact .pure _

theorem copyRounds_erases (pgdir : PageDir) (sz n : Nat) (d : PageDir) (i : Nat) :
    Erases (Phys.copyRounds L pgdir sz n d i) (copyRounds L pgdir sz n d i) := by
  induction n generalizing d i with
  | zero => exact .stop _
  | succ n ih =>
    rw [Phys.copyRounds, copyRounds]
    split
    · refine .bind (copyPage_erases L pgdir d i) fun r => ?_
      rcases r with _ | d
      · exact .pure _
      · exact ih d _
    · exact .pure _

theorem copyuvm_erases (pgdir : PageDir) (sz : Nat) : Erases (Phys.copyuvm L pgdir sz) (copyuvm L pgdir sz) := by
  unfold Phys.copyuvm copyuvm
  refine .bind (.onRam _) fun r => ?_
  rcases r with _ | d
  · exact .pure _
  · exact copyRounds_erases L pgdir sz _ d 0

/-! ### The loop -/

section Copy

variable {L} {pd d d' : PageDir} {k₀ : Kmem} {ram₀ : Ram} {sz i : Nat} {s s' : Phys}

/-- The allocator when `copyuvm` is called: its pages are in its range, and none of them is on the
free list twice or belongs to the parent. -/
structure Fresh (L : Layout) (k : Kmem) (pd : PageDir) : Prop where
  once : ∀ f, k.count f + pd.count f ≤ 1
  managed : ∀ f, 0 < k.count f → L.managed f

def Untouched (k₀ : Kmem) (ram₀ : Ram) (s : Phys) : Prop := ∀ f, k₀.count f = 0 → s.ram f = ram₀ f

structure Copied (k₀ : Kmem) (ram₀ : Ram) (pd d : PageDir) (i : Nat) (s : Phys) : Prop where
  pages : ∀ f, s.kmem.count f + d.count f = k₀.count f
  kept : Untouched k₀ ram₀ s
  copy : ∀ va, va < i → ∃ e e', pd.get va = some e ∧ d.get va = some e' ∧ e'.flags = e.flags ∧
    s.ram e'.page = ram₀ e.page
  rest : d.Unmapped i KERNBASE

def Restored (k₀ : Kmem) (ram₀ : Ram) (s : Phys) : Prop :=
  (∀ f, s.kmem.count f = k₀.count f) ∧ Untouched k₀ ram₀ s

theorem PageDir.count_get {va : Nat} {e : Pte} (hva : va < KERNBASE) (h : pd.get va = some e) :
    0 < pd.count e.page := by
  have hone : is e.page e.page = 1 := if_pos rfl
  have hclear := PageDir.count_clear hva h e.page
  omega

theorem PageDir.samePage_of_count {va va' : Nat} {e e' : Pte} (hva : va < KERNBASE) (hva' : va' < KERNBASE)
    (h : pd.get va = some e) (h' : pd.get va' = some e') (hpage : e.page = e'.page) (hone : pd.count e.page ≤ 1) :
    PageDir.SamePage va' va := by
  by_contra hne
  have hrest : (pd.set va none).get va' = some e' := by rw [PageDir.get_set_of_ne hne, h']
  have hself : is e.page e.page = 1 := if_pos rfl
  have h1 := PageDir.count_clear hva h e.page
  have h2 := PageDir.count_get hva' hrest
  rw [← hpage] at h2
  omega

theorem onRam_meets {α : Type} {m : KM α} {P : α → Kmem → Prop} {E : Panic → Kmem → Prop} (h : Meets m s.kmem P E)
    (hE : ∀ e k, ¬ E e k) :
    Meets (onRam m) s (fun a s' => P a s'.kmem ∧ ∀ f, s'.kmem.count f = 0 → s'.ram f = s.ram f)
      fun _ _ => False := by
  obtain ⟨a, k, hrun, hP⟩ := h.total hE
  have hrun' : onRam m s = (.ok a, ⟨k, fun page => if page ∈ k.freelist then fun _ => 1 else s.ram page⟩) := by
    rw [onRam, hrun]
  exact .of_ok hrun' ⟨hP, fun f hf => if_neg (List.count_eq_zero.1 hf)⟩

theorem kalloc_onRam (s : Phys) : Meets (onRam kalloc) s (fun r s' => (∀ f, Keeps f s.kmem 0 s'.kmem (held f r)) ∧
    ∀ f, s'.kmem.count f = 0 → s'.ram f = s.ram f) fun _ _ => False :=
  onRam_meets (kalloc_meets s.kmem) fun _ _ => id

theorem freevm_restores (hf : Fresh L k₀ pd) (h : ∀ f, s.kmem.count f + d.count f = k₀.count f)
    (hkept : Untouched k₀ ram₀ s) : Meets (onRam (freevm L d)) s (fun _ s' => Restored k₀ ram₀ s') fun _ _ => False := by
  have hm : Managed L s.kmem d := fun f hpos => hf.managed f (by have := h f; omega)
  refine (onRam_meets (freevm_meets s.kmem d) fun _ _ h => h hm).mono ?_ fun _ _ => id
  rintro _ s' ⟨hk, hram⟩
  have hcount : ∀ f, s'.kmem.count f = k₀.count f := fun f => by
    have h1 := h f
    have h2 := (hk f).1
    omega
  exact ⟨hcount, fun f hzero => (hram f (by rw [hcount f, hzero])).trans (hkept f hzero)⟩

/-- Between `memmove` and `mappages`: the page `mem` has a copy of the parent's page at `i`. -/
structure Loaded (k₀ : Kmem) (ram₀ : Ram) (pd d : PageDir) (i mem : Nat) (pte : Pte) (s : Phys) : Prop where
  pages : ∀ f, s.kmem.count f + (d.count f + is f mem) = k₀.count f
  kept : Untouched k₀ ram₀ s
  copy : ∀ va, va < i → ∃ e e', pd.get va = some e ∧ d.get va = some e' ∧ e'.flags = e.flags ∧
    s.ram e'.page = ram₀ e.page
  rest : d.Unmapped i KERNBASE
  loaded : s.ram mem = ram₀ pte.page

theorem Copied.load {mem : Nat} {pte : Pte} (hf : Fresh L k₀ pd) (h : Copied k₀ ram₀ pd d i s) (hlt : i < KERNBASE)
    (hget : pd.get i = some pte) (hk : ∀ f, Keeps f s.kmem 0 s'.kmem (is f mem))
    (hram : ∀ f, s'.kmem.count f = 0 → s'.ram f = s.ram f) :
    Loaded k₀ ram₀ pd d i mem pte { s' with ram := update s'.ram mem (s'.ram pte.page) } := by
  have hcount : ∀ f, s'.kmem.count f + (d.count f + is f mem) = k₀.count f := fun f => by
    have h1 := h.pages f
    have h2 := (hk f).1
    omega
  have hself : is mem mem = 1 := if_pos rfl
  have hmem : ∀ f, f ≠ mem → s'.kmem.count f = 0 → update s'.ram mem (s'.ram pte.page) f = s.ram f := fun f hne hz => by
    rw [update_of_ne hne, hram f hz]
  refine ⟨hcount, fun f hzero => ?_, fun va hva => ?_, h.rest, ?_⟩
  · have h1 := hcount f
    rw [← h.kept f hzero]
    refine hmem f ?_ (by omega)
    rintro rfl
    omega
  · obtain ⟨e, e', h1, h2, h3, h4⟩ := h.copy va hva
    refine ⟨e, e', h1, h2, h3, h4 ▸ ?_⟩
    have hpos := PageDir.count_get (by omega) h2
    have honce := hf.once e'.page
    have hsum := hcount e'.page
    refine hmem e'.page ?_ (by omega)
    intro heq
    rw [heq, hself] at hsum
    rw [heq] at hpos honce
    omega
  · have hpos := PageDir.count_get hlt hget
    have honce := hf.once pte.page
    have hsum := hcount pte.page
    show update s'.ram mem (s'.ram pte.page) mem = _
    rw [update_self, hram pte.page (by omega), h.kept pte.page (by omega)]

theorem Loaded.map {mem : Nat} {pte : Pte} (hf : Fresh L k₀ pd) (h : Loaded k₀ ram₀ pd d i mem pte s)
    (hi : i % PGSIZE = 0) (hlt : i < KERNBASE) (hget : pd.get i = some pte)
    (hk : ∀ f, Keeps f s.kmem (d.count f + is f mem) s'.kmem (d'.count f))
    (hram : ∀ f, s'.kmem.count f = 0 → s'.ram f = s.ram f) (hnew : d'.get i = some ⟨mem, pte.flags⟩)
    (hold : ∀ va, ¬ PageDir.SamePage va i → d'.get va = d.get va) : Copied k₀ ram₀ pd d' (i + PGSIZE) s' := by
  simp only [KERNBASE, PGSIZE] at hi hlt
  have hcount : ∀ f, s'.kmem.count f + d'.count f = k₀.count f := fun f => by
    have h1 := h.pages f
    have h2 := (hk f).1
    omega
  have hmine : ∀ va e, va < KERNBASE → d'.get va = some e → s'.ram e.page = s.ram e.page := fun va e hva he => by
    have hpos := PageDir.count_get hva he
    have honce := hf.once e.page
    have hsum := hcount e.page
    exact hram e.page (by omega)
  refine ⟨hcount, fun f hzero => ?_, fun va hva => ?_, fun va h1 h2 => ?_⟩
  · have hsum := hcount f
    rw [hram f (by omega), h.kept f hzero]
  · simp only [PGSIZE] at hva
    have hsame := @samePage_iff va i (by omega) (by omega)
    simp only [PGSIZE] at hsame
    rcases Nat.lt_or_ge va i with hva' | hva'
    · obtain ⟨e, e', h1, h2, h3, h4⟩ := h.copy va hva'
      have h5 : d'.get va = some e' := by rw [hold va fun hs => ?_, h2]; have := hsame.1 hs; omega
      exact ⟨e, e', h1, h5, h3, by rw [hmine va e' (by simp only [KERNBASE]; omega) h5, h4]⟩
    · have hs := hsame.2 (by omega)
      refine ⟨pte, ⟨mem, pte.flags⟩, by rw [PageDir.get_samePage hs, hget], by rw [PageDir.get_samePage hs, hnew], rfl, ?_⟩
      rw [hmine i _ (by simp only [KERNBASE]; omega) hnew]
      exact h.loaded
  · simp only [KERNBASE, PGSIZE] at h1 h2
    rw [hold va fun hs => ?_, h.rest va (by omega) (by simp only [KERNBASE]; omega)]
    have := (samePage_iff (by omega) (by omega)).1 hs
    simp only [PGSIZE] at this
    omega

theorem copyPage_meets {pte : Pte} (hf : Fresh L k₀ pd) (h : Copied k₀ ram₀ pd d i s) (hi : i % PGSIZE = 0)
    (hlt : i < KERNBASE) (hget : pd.get i = some pte) :
    Meets (Phys.copyPage L pd d i) s (fun r s' => r.elim (Restored k₀ ram₀ s')
      fun d' => Copied k₀ ram₀ pd d' (i + PGSIZE) s') fun _ _ => False := by
  unfold Phys.copyPage
  rw [hget]
  refine .bind (kalloc_onRam s) ?_
  rintro r s₁ ⟨hk1, hram1⟩
  rcases r with _ | mem
  · have hcount : ∀ f, s₁.kmem.count f + d.count f = k₀.count f := fun f => by
      have h1 := h.pages f
      have h2 : Keeps f s.kmem 0 s₁.kmem 0 := hk1 f
      omega
    have hkept : Untouched k₀ ram₀ s₁ := fun f hzero => by
      have := hcount f
      rw [hram1 f (by omega), h.kept f hzero]
    exact .bind (freevm_restores hf hcount hkept) fun _ s' h' => .pure h'
  · have hload := h.load hf hlt hget hk1 hram1
    refine .modify_bind ?_
    generalize { s₁ with ram := update s₁.ram mem (s₁.ram pte.page) } = s2 at hload ⊢
    refine .bind (onRam_meets (mappages_meets s2.kmem d i mem pte.flags hi hlt)
      fun _ _ hsome => hsome (hload.rest i le_rfl hlt)) ?_
    rintro ⟨_ | _, d1⟩ s3 ⟨⟨hk3, hold, hnew⟩, hram3⟩
    all_goals dsimp only at hk3 hold hnew
    · have hcount : ∀ f, s3.kmem.count f + (d1.count f + is f mem) = k₀.count f := fun f => by
        have h1 := hload.pages f
        have h2 := (hk3 f).1.1
        rw [if_neg Bool.false_ne_true] at h2
        omega
      have hself : is mem mem = 1 := if_pos rfl
      have hmem : L.managed mem := hf.managed mem (by have := hcount mem; omega)
      refine .bind (onRam_meets (kfree_meets s3.kmem mem) fun _ _ h => h hmem) ?_
      rintro _ s4 ⟨⟨hk4, -⟩, hram4⟩
      have hcount4 : ∀ f, s4.kmem.count f + d1.count f = k₀.count f := fun f => by
        have h1 := hcount f
        have h2 := (hk4 f).1
        omega
      have hkept : Untouched k₀ ram₀ s4 := fun f hzero => by
        have h1 := hcount f
        have h2 := hcount4 f
        rw [hram4 f (by omega), hram3 f (by omega), hload.kept f hzero]
      exact .bind (freevm_restores hf hcount4 hkept) fun _ s' h' => .pure h'
    · exact .pure (hload.map hf hi hlt hget (fun f => (hk3 f).1) hram3 (hnew rfl)
        fun va hva => hold va fun hs => hva hs.2)

theorem copyRounds_meets (hf : Fresh L k₀ pd) (hsz : sz ≤ KERNBASE) (hpres : ∀ va, va < sz → (pd.get va).isSome = true)
    (n : Nat) (h : Copied k₀ ram₀ pd d i s) (hi : i % PGSIZE = 0) (hn : sz ≤ i + n * PGSIZE) :
    Meets (Phys.copyRounds L pd sz (n + 1) d i) s (fun r s' => r.elim (Restored k₀ ram₀ s')
      fun d' => ∃ j, sz ≤ j ∧ Copied k₀ ram₀ pd d' j s') fun _ _ => False := by
  induction n generalizing d i s with
  | zero =>
    rw [Phys.copyRounds, if_neg (by omega)]
    exact .pure ⟨i, by omega, h⟩
  | succ n ih =>
    rw [Phys.copyRounds]
    split
    · rename_i hlt
      obtain ⟨pte, hget⟩ := Option.isSome_iff_exists.1 (hpres i hlt)
      refine .bind (copyPage_meets hf h hi (by omega) hget) fun r s₁ h1 => ?_
      rcases r with _ | d1
      · exact .pure h1
      · rw [add_PGSIZE_mod (by omega)]
        exact ih h1 (by rw [Nat.add_mod_right, hi]) (by simp only [PGSIZE] at hn ⊢; omega)
    · exact .pure ⟨i, by omega, h⟩

theorem copyuvm_meets (hL : L.kmap.Pairwise Kmap.Apart) (hf : Fresh L k₀ pd) (hsz : sz ≤ KERNBASE)
    (hpres : ∀ va, va < sz → (pd.get va).isSome = true) (ram₀ : Ram) :
    Meets (Phys.copyuvm L pd sz) ⟨k₀, ram₀⟩ (fun r s' => r.elim (Restored k₀ ram₀ s')
      fun d' => ∃ j, sz ≤ j ∧ Copied k₀ ram₀ pd d' j s') fun _ _ => False := by
  unfold Phys.copyuvm
  refine .bind (onRam_meets (setupkvm_meets L k₀) fun _ _ h => h ⟨hL, hf.managed⟩) ?_
  rintro r s₁ ⟨⟨hk, hmap⟩, hram⟩
  have hcount : ∀ f, s₁.kmem.count f + pgdirCount f r = k₀.count f := fun f => (hk f).1
  have hkept : Untouched k₀ ram₀ s₁ := fun f hzero => hram f (by have := hcount f; omega)
  rcases r with _ | d
  · exact .pure ⟨hcount, hkept⟩
  · obtain ⟨n, hn, hmax⟩ := exists_maxRounds
    dsimp only
    rw [hn]
    have hstart : Copied k₀ ram₀ pd d 0 s₁ := ⟨hcount, hkept, fun va hva => absurd hva (Nat.not_lt_zero va),
      (hmap hL d rfl).1⟩
    exact copyRounds_meets hf hsz hpres n hstart (by decide) (by omega)

end Copy

/-! ### User accesses -/

def userPte (pd : PageDir) (va : Nat) : Option Pte :=
  if va < KERNBASE then (pd.get va).filter fun e => e.flags &&& PTE_U ≠ 0 else none

def writablePte (pd : PageDir) (va : Nat) : Option Pte := (userPte pd va).filter fun e => e.flags &&& PTE_W ≠ 0

def offset (va : Nat) : Fin PGSIZE := ⟨va % PGSIZE, Nat.mod_lt _ (by decide)⟩

/-- The byte a user program reads at `va`; without an entry the access faults. -/
def load (pd : PageDir) (ram : Ram) (va : Nat) : Option UInt8 :=
  (userPte pd va).map fun e => ram e.page (offset va)

/-- A user program stores `b` at `va`; if the entry does not allow it the access faults. -/
def store (pd : PageDir) (ram : Ram) (va : Nat) (b : UInt8) : Ram :=
  match writablePte pd va with
  | none => ram
  | some e => update ram e.page (update (ram e.page) (offset va) b)

inductive Side
  | parent | child
  deriving DecidableEq

structure Write where
  side : Side
  va : Nat
  byte : UInt8

def Side.pgdir (pd d : PageDir) : Side → PageDir
  | .parent => pd
  | .child => d

def stores (pd d : PageDir) (ram : Ram) : List Write → Ram
  | [] => ram
  | w :: ws => stores pd d (store (w.side.pgdir pd d) ram w.va w.byte) ws

section Isolation

variable {pd d : PageDir} {ram ram' : Ram}

theorem userPte_some {va : Nat} {e : Pte} (h : userPte pd va = some e) : va < KERNBASE ∧ pd.get va = some e := by
  unfold userPte at h
  split at h
  · rename_i hva
    exact ⟨hva, (Option.filter_eq_some_iff.1 h).1⟩
  · cases h

theorem store_frame {va page : Nat} {b : UInt8} (h : ∀ va e, va < KERNBASE → pd.get va = some e → e.page ≠ page) :
    store pd ram va b page = ram page := by
  unfold store
  rcases he : writablePte pd va with _ | e
  · rfl
  · obtain ⟨hva, hget⟩ := userPte_some (Option.filter_eq_some_iff.1 he).1
    exact update_of_ne (h va e hva hget).symm _ _

theorem store_congr {va page : Nat} {b : UInt8} (h : ram page = ram' page) :
    store pd ram va b page = store pd ram' va b page := by
  unfold store
  rcases writablePte pd va with _ | e
  · exact h
  · dsimp only
    rcases eq_or_ne page e.page with rfl | hne
    · rw [update_self, update_self, h]
    · rw [update_of_ne hne, update_of_ne hne, h]

def Disjoint (pd d : PageDir) : Prop :=
  ∀ va va' e e', va < KERNBASE → va' < KERNBASE → pd.get va = some e → d.get va' = some e' → e.page ≠ e'.page

theorem Side.disjoint (h : Disjoint pd d) {x y : Side} (hne : x ≠ y) : Disjoint (x.pgdir pd d) (y.pgdir pd d) := by
  rcases x <;> rcases y
  · exact absurd rfl hne
  · exact h
  · exact fun va va' e e' hva hva' he he' => (h va' va e' e hva' hva he' he).symm
  · exact absurd rfl hne

/-- In the pages of one side, the stores of that side alone make the same. -/
theorem stores_filter (h : Disjoint pd d) (x : Side) (ws : List Write) (ram ram' : Ram)
    (heq : ∀ va e, va < KERNBASE → (x.pgdir pd d).get va = some e → ram e.page = ram' e.page) :
    ∀ va e, va < KERNBASE → (x.pgdir pd d).get va = some e →
      stores pd d ram ws e.page = stores pd d ram' (ws.filter fun w => w.side = x) e.page := by
  induction ws generalizing ram ram' with
  | nil => exact heq
  | cons w ws ih =>
    by_cases hw : w.side = x
    · rw [List.filter_cons_of_pos (by simpa using hw)]
      exact ih _ _ fun va e hva he => store_congr (heq va e hva he)
    · rw [List.filter_cons_of_neg (by simpa using hw)]
      refine ih _ _ fun va e hva he => ?_
      rw [store_frame fun va' e' hva' he' => Side.disjoint h hw va' va e' e hva' hva he' he, heq va e hva he]

theorem load_stores (h : Disjoint pd d) (x : Side) (ws : List Write) (ram : Ram) (va : Nat) :
    load (x.pgdir pd d) (stores pd d ram ws) va =
      load (x.pgdir pd d) (stores pd d ram (ws.filter fun w => w.side = x)) va := by
  unfold load
  rcases he : userPte (x.pgdir pd d) va with _ | e
  · rfl
  · obtain ⟨hva, hget⟩ := userPte_some he
    simp only [Option.map_some]
    rw [stores_filter h x ws ram ram (fun _ _ _ _ => rfl) va e hva hget]

end Isolation

end Vm

/-! ### The copy that `fork` makes -/

namespace ProcMem

open Vm Exec

variable {L : Layout} {s s₁ : St} {p np : Fin NPROC} {pd d : PageDir}

theorem Inv.fresh {fails : List Bool} (h : Inv L s) (hlive : (s.procs p).live = true)
    (hpd : (s.procs p).pgdir = some pd) (hnp : allocproc (s.withFails fails) = (.ok (some np), s₁)) :
    Fresh L s₁.kmem pd := by
  have h0 := h.withFails fails
  obtain ⟨hshift, hok, -, hnew⟩ := allocproc_ends h0.procs _ _ hnp
  have h1 := h0.shift hshift hok
  have hle : ∀ f, pd.count f ≤ s₁.owned f := fun f => by
    have h2 := (s.withFails fails).procCount_le_owned p f
    have h3 := (hnew np rfl).2 f
    have h4 : procCount f ((s.withFails fails).procs p) = procCount f (s.procs p) := rfl
    rw [h4, procCount_live hlive, hpd] at h2
    have h5 : pgdirCount f (some pd) = pd.count f := rfl
    omega
  refine ⟨fun f => ?_, fun f hpos => mem_of_within_pos (by have := h1.once f; omega)⟩
  have h2 := h1.once f
  have h3 := hle f
  have h4 := within_le L.first L.phystop f
  omega

/-- `fork` of any process in any reachable state, with any calls of `kalloc` failing: `copyuvm` returns.
Memory outside of the pages that were free is as before, and the parent's pages are neither taken
nor freed. Without a child all pages are free again. A child has the entries and the bytes of the
parent in pages of its own, and what either of them reads later depends on its own stores only. -/
theorem fork_isolates {mid ncpu : Nat} {s₀ : St} {fails : List Bool} (hL : L.kmap.Pairwise Kmap.Apart)
    (h₁ : L.first ≤ mid) (h₂ : mid ≤ L.phystop) (hboot : main L mid ncpu (start L) = (.ok (), s₀))
    (hs : Machine.Reachable (step L) s₀ s) (hlive : (s.procs p).live = true) (hpd : (s.procs p).pgdir = some pd)
    (hpres : ∀ va, va < (s.procs p).sz → (pd.get va).isSome = true)
    (hnp : allocproc (s.withFails fails) = (.ok (some np), s₁)) (ram : Ram) :
    ∃ r q, Phys.copyuvm L pd (s.procs p).sz ⟨s₁.kmem, ram⟩ = (.ok r, q) ∧
      (∀ f, f ∉ s₁.kmem.freelist → q.ram f = ram f) ∧
      (∀ f, 0 < pd.count f → f ∉ s₁.kmem.freelist ∧ f ∉ q.kmem.freelist) ∧
      (r = none → q.kmem.freelist.Perm s₁.kmem.freelist) ∧
      ∀ d, r = some d →
        (∀ va, va < (s.procs p).sz → ∃ e e', pd.get va = some e ∧ d.get va = some e' ∧ e'.flags = e.flags ∧
          q.ram e'.page = ram e.page) ∧
        (∀ f, 0 < pd.count f → d.count f = 0) ∧ Disjoint pd d ∧
        (∀ va va' e e', va < Vm.KERNBASE → va' < Vm.KERNBASE → d.get va = some e → d.get va' = some e' →
          e.page = e'.page → va / PGSIZE = va' / PGSIZE) ∧
        ∀ (ws : List Write) (x : Side) (va : Nat), load (x.pgdir pd d) (stores pd d q.ram ws) va =
          load (x.pgdir pd d) (stores pd d q.ram (ws.filter fun w => w.side = x)) va := by
  have hinv : Inv L s := hs.inv (Inv.boot h₁ h₂ hboot) fun _ _ _ hi _ hstep => hi.step hstep
  have hf := hinv.fresh hlive hpd hnp
  obtain ⟨r, q, hrun, hres⟩ := (copyuvm_meets hL hf (hinv.procs p).1 hpres ram).total fun _ _ => id
  have hpages : (∀ f, q.kmem.count f + pgdirCount f r = s₁.kmem.count f) ∧ Untouched s₁.kmem ram q := by
    rcases r with _ | d
    · exact hres
    · obtain ⟨j, -, hcopied⟩ := hres
      exact ⟨hcopied.pages, hcopied.kept⟩
  refine ⟨r, q, hrun, fun f hfree => hpages.2 f (List.count_eq_zero.2 hfree), fun f hpos => ?_, ?_, ?_⟩
  · have honce := hf.once f
    have hsum := hpages.1 f
    exact ⟨List.count_eq_zero.1 (show s₁.kmem.count f = 0 by omega),
      List.count_eq_zero.1 (show q.kmem.count f = 0 by omega)⟩
  · rintro rfl
    exact List.perm_iff_count.2 hres.1
  · rintro d rfl
    obtain ⟨j, hj, hcopied⟩ := hres
    have hnone : ∀ f, 0 < pd.count f → d.count f = 0 := fun f hpos => by
      have honce := hf.once f
      have hsum := hcopied.pages f
      omega
    have hdisj : Disjoint pd d := by
      intro va va' e e' hva hva' he he' heq
      have hpos := PageDir.count_get hva he
      have hpos' := PageDir.count_get hva' he'
      rw [heq] at hpos
      have := hnone _ hpos
      omega
    refine ⟨fun va hva => hcopied.copy va (by omega), hnone, hdisj, ?_, fun ws x va => load_stores hdisj x ws q.ram va⟩
    intro va va' e e' hva hva' he he' hpage
    have hone : d.count e.page ≤ 1 := by
      have honce := hf.once e.page
      have hsum := hcopied.pages e.page
      omega
    have hsame := PageDir.samePage_of_count hva hva' he he' hpage hone
    simp only [Vm.KERNBASE] at hva hva'
    exact ((samePage_iff (by omega) (by omega)).1 hsame).symm

def bootedToFork : Bool :=
  match bootSmall 30 with
  | (.ok (), s) => (s.procs 0).live && (s.procs 0).sz == 4096 && (s.procs 0).pgdir.any fun pd =>
      (pd.get 0).isSome && match allocproc (s.withFails []) with
        | (.ok (some _), s₁) => match (Phys.copyuvm (smallLayout 30) pd 4096 ⟨s₁.kmem, fun _ _ => 7⟩).1 with
          | .ok r => r.isSome
          | .error _ => false
        | _ => false
  | _ => false

theorem fork_isolates_first : ∃ s₁ : St, ∃ pd d q,
    Phys.copyuvm (smallLayout 30) pd 4096 ⟨s₁.kmem, fun _ _ => 7⟩ = (.ok (some d), q) ∧
    ∃ e e', pd.get 0 = some e ∧ d.get 0 = some e' ∧ e.page ≠ e'.page ∧ q.ram e'.page = fun _ => 7 := by
  have heval : bootedToFork = true := by decide +kernel
  unfold bootedToFork at heval
  split at heval
  · rename_i s hs
    simp only [Bool.and_eq_true, beq_iff_eq, Option.any_eq_true] at heval
    obtain ⟨⟨hlive, hsz⟩, pd, hpd, hget, hcopy⟩ := heval
    split at hcopy
    · rename_i np s₁ hnp
      have hpres : ∀ va, va < (s.procs 0).sz → (pd.get va).isSome = true := fun va hva => by
        rw [hsz] at hva
        have hsame : PageDir.SamePage va 0 := (samePage_iff (by omega) (by decide)).2 (by simp only [PGSIZE]; omega)
        rw [PageDir.get_samePage hsame]
        exact hget
      obtain ⟨r, q, hrun, -, -, -, hchild⟩ := fork_isolates (p := 0) (List.pairwise_singleton _ _) (by decide) (by decide)
        hs .refl hlive hpd hpres hnp fun _ _ => 7
      rw [hsz] at hrun hchild
      rw [hrun] at hcopy
      obtain ⟨d, rfl⟩ := Option.isSome_iff_exists.1 hcopy
      obtain ⟨hbytes, -, hdisj, -⟩ := hchild d rfl
      obtain ⟨e, e', he, he', -, hram⟩ := hbytes 0 (by decide)
      exact ⟨s₁, pd, d, q, hrun, e, e', he, he', hdisj 0 0 e e' (by decide) (by decide) he he', hram⟩
    · cases hcopy
  · cases heval

end ProcMem

end Xv6
