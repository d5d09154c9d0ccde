import Xv6.ForkCopy

/-!
# What `sbrk` does to the memory of a process

`allocuvm` and `growproc` with the contents of the pages. The user memory of a process is a partial map
from addresses to entries and page contents (`image`). A call that grows the process adds zeroed pages
behind the old ones; one that runs out of memory unmaps what it has added, and one that shrinks the
process unmaps pages at the end. All three leave a state of the same form (`Grown`).
-/

namespace Xv6

namespace Vm

open Function Exec

def memsetPage (page : Nat) (c : UInt8) : RM Unit :=
  Exec.modify fun s => { s with ram := update s.ram page fun _ => c }

variable (L : Layout)

namespace Phys

def allocPage (oldsz newsz : Nat) (pd : PageDir) (a : Nat) : RM (Bool × PageDir) := do
  match ← onRam kalloc with
  | none =>
    let (_, pd) ← onRam (deallocuvm L pd newsz oldsz)
    return (false, pd)
  | some mem =>
    memsetPage mem 0
    let (ok, pd) ← onRam (mappages pd a PGSIZE (mem * PGSIZE) (PTE_W + PTE_U))
    if !ok then
      let (_, pd) ← onRam (deallocuvm L pd newsz oldsz)
      onRam (kfree L mem)
      return (false, pd)
    else return (true, pd)

def allocRounds (oldsz newsz : Nat) : Nat → PageDir → Nat → RM (Nat × PageDir)
  | 0, _, _ => Exec.stop .loops
  | n + 1, pd, a =>
    if a < newsz then do
      let (ok, pd) ← allocPage L oldsz newsz pd a
      if !ok then return (0, pd)
      else allocRounds oldsz newsz n pd ((a + PGSIZE) % 2 ^ 32)
    else pure (newsz, pd)

def allocuvm (pd : PageDir) (oldsz newsz : Nat) : RM (Nat × PageDir) :=
  if newsz ≥ KERNBASE then pure (0, pd)
  else if newsz < oldsz then pure (oldsz, pd)
  else allocRounds L oldsz newsz maxRounds pd (pgRoundUp oldsz)

def growproc (pd : PageDir) (sz : Nat) (n : Int) : RM (Nat × PageDir) :=
  if n > 0 then allocuvm L pd sz ((sz + n) % 2 ^ 32).toNat
  else if n < 0 then onRam (deallocuvm L pd sz ((sz + n) % 2 ^ 32).toNat)
  else pure (sz, pd)

/-- What `sbrk` returns to a process with page directory `pd` and size `sz`, and what it makes of the two. -/
def sbrk (pd : PageDir) (sz : Nat) (n : Int) : RM (Int × Nat × PageDir) := do
  let (sz', pd) ← growproc L pd sz n
  if n ≠ 0 ∧ sz' = 0 then return (-1, sz, pd)
  else return (sz, sz', pd)

end Phys

/-! ### Forgetting the contents -/

theorem Erases.memset {α : Type} {page : Nat} {c : UInt8} {g : Unit → RM α} {m' : KM α} (h : Erases (g ()) m') :
    Erases (memsetPage page c >>= g) m' := fun s => h { s with ram := update s.ram page fun _ => c }

theorem allocPage_erases (oldsz newsz : Nat) (pd : PageDir) (a : Nat) :
    Erases (Phys.allocPage L oldsz newsz pd a) (allocPage L oldsz newsz pd a) := by
  unfold Phys.allocPage allocPage
  refine .bind (.onRam _) fun r => ?_
  rcases r with _ | mem
  · exact .bind (.onRam _) fun _ => .pure _
  · refine .memset (.bind (.onRam _) fun r => ?_)
    obtain ⟨ok, pd⟩ := r
    dsimp only
    split
    · exact .bind (.onRam _) fun _ => .bind (.onRam _) fun _ => .pure _
    · exact .pure _

theorem allocRounds_erases (oldsz newsz n : Nat) (pd : PageDir) (a : Nat) :
    Erases (Phys.allocRounds L oldsz newsz n pd a) (allocRounds L oldsz newsz n pd a) := by
  induction n generalizing pd a with
  | zero => exact .stop _
  | succ n ih =>
    rw [Phys.allocRounds, allocRounds]
    split
    · refine .bind (allocPage_erases L oldsz newsz pd a) fun r => ?_
      obtain ⟨ok, pd⟩ := r
      dsimp only
      split
      · exact .pure _
      · exact ih pd _
    · exact .pure _

theorem allocuvm_erases (pd : PageDir) (oldsz newsz : Nat) :
    Erases (Phys.allocuvm L pd oldsz newsz) (allocuvm L pd oldsz newsz) := by
  unfold Phys.allocuvm allocuvm
  split
  · exact .pure _
  · split
    · exact .pure _
    · exact allocRounds_erases L oldsz newsz _ pd _

/-! ### User memory -/

def image (pd : PageDir) (ram : Ram) (va : Nat) : Option (Pte × (Fin PGSIZE → UInt8)) :=
  if va < KERNBASE then (pd.get va).map fun e => (e, ram e.page) else none

section Image

variable {L} {pd pd' : PageDir} {ram ram' : Ram} {va oldsz newsz : Nat}

theorem image_of_get {e : Pte} (hva : va < KERNBASE) (h : pd.get va = some e) :
    image pd ram va = some (e, ram e.page) := by
  rw [image, if_pos hva, h, Option.map_some]

theorem image_congr (hget : va < KERNBASE → pd'.get va = pd.get va)
    (hram : va < KERNBASE → ∀ e, pd.get va = some e → ram' e.page = ram e.page) :
    image pd' ram' va = image pd ram va := by
  unfold image
  split
  · rename_i hva
    rw [hget hva]
    rcases he : pd.get va with _ | e
    · rfl
    · rw [Option.map_some, Option.map_some, hram hva e he]
  · rfl

theorem Unmaps.get_lower {k k' : Kmem} (hold : oldsz ≤ KERNBASE) (hva : va < KERNBASE)
    (h : Unmaps pd k (pgRoundUp newsz) (if newsz < oldsz then oldsz else 0) pd' k') :
    pd'.get va = if newsz < oldsz ∧ pgRoundUp newsz ≤ va ∧ va < pgRoundUp oldsz then none else pd.get va := by
  simp only [KERNBASE] at hold hva
  rw [h.get va (by omega)]
  refine if_congr ?_ rfl rfl
  simp only [pgRoundUp, pgRoundDown, PGSIZE]
  split <;> omega

end Image

/-! ### Growing and shrinking -/

section Grow

variable {L} {pd pd₀ pd' : PageDir} {k₀ : Kmem} {ram₀ : Ram} {lo a oldsz newsz mem : Nat} {r r' : Nat → Nat}
  {s s' : Phys}

/-- Below `lo` the user memory is that of `pd₀`, from there to `a` it is zeroed, and nothing is mapped
behind. The pages of `pd₀` and the free ones are in `pd`, free or in hand (`r`); the others hold what
they did. -/
structure Grown (k₀ : Kmem) (ram₀ : Ram) (pd₀ : PageDir) (lo a : Nat) (r : Nat → Nat) (pd : PageDir) (s : Phys) :
    Prop where
  pages : ∀ f, s.kmem.count f + pd.count f + r f = k₀.count f + pd₀.count f
  others : ∀ f, k₀.count f + pd₀.count f = 0 → s.ram f = ram₀ f
  old : ∀ va, va < lo → image pd s.ram va = image pd₀ ram₀ va
  new : ∀ va, lo ≤ va → va < a → ∃ e, image pd s.ram va = some (e, fun _ => 0)
  rest : pd.Unmapped a KERNBASE

namespace Grown

theorem start (h : pd₀.Unmapped lo KERNBASE) : Grown k₀ ram₀ pd₀ lo lo (fun _ => 0) pd₀ ⟨k₀, ram₀⟩ := by
  refine ⟨fun f => Nat.add_zero _, fun f _ => rfl, fun va _ => rfl, fun va h1 h2 => ?_, h⟩
  omega

theorem managed (h : Grown k₀ ram₀ pd₀ lo a r pd s) (hm : Managed L k₀ pd₀) : Managed L s.kmem pd := fun f hpos =>
  hm f (by have := h.pages f; omega)

theorem count_mapped {va : Nat} {e : Pte} (hf : Fresh L k₀ pd₀)
    (hp : ∀ f, s'.kmem.count f + pd.count f + r f = k₀.count f + pd₀.count f) (hva : va < KERNBASE)
    (he : pd.get va = some e) : s'.kmem.count e.page = 0 := by
  have hpos := PageDir.count_get hva he
  have honce := hf.once e.page
  have hsum := hp e.page
  omega

theorem moves (hf : Fresh L k₀ pd₀) (h : Grown k₀ ram₀ pd₀ lo a r pd s)
    (hp : ∀ f, s'.kmem.count f + pd'.count f + r' f = k₀.count f + pd₀.count f)
    (hram : ∀ f, s'.kmem.count f = 0 → s'.ram f = s.ram f) (hget : ∀ va, va < KERNBASE → pd'.get va = pd.get va) :
    Grown k₀ ram₀ pd₀ lo a r' pd' s' := by
  have himage : ∀ va, image pd' s'.ram va = image pd s.ram va := fun va =>
    image_congr (hget va) fun hva e he => hram e.page (count_mapped hf hp hva (by rw [hget va hva, he]))
  refine ⟨hp, fun f hzero => ?_, fun va hva => ?_, fun va h1 h2 => ?_, fun va h1 h2 => ?_⟩
  · have hsum := hp f
    rw [hram f (by omega), h.others f hzero]
  · rw [himage, h.old va hva]
  · rw [himage]
    exact h.new va h1 h2
  · rw [hget va h2, h.rest va h1 h2]

theorem memset (hf : Fresh L k₀ pd₀) (h : Grown k₀ ram₀ pd₀ lo a (is · mem) pd s) :
    Grown k₀ ram₀ pd₀ lo a (is · mem) pd { s with ram := update s.ram mem fun _ => 0 } := by
  have hself : is mem mem = 1 := if_pos rfl
  have honce := hf.once mem
  have hsum := h.pages mem
  have himage : ∀ va, image pd (update s.ram mem fun _ => 0) va = image pd s.ram va := fun va => by
    refine image_congr (fun _ => rfl) fun hva e he => update_of_ne ?_ _ _
    rintro rfl
    have hpos := PageDir.count_get hva he
    omega
  refine ⟨h.pages, fun f hzero => ?_, fun va hva => ?_, fun va h1 h2 => ?_, h.rest⟩
  · refine (update_of_ne ?_ _ _).trans (h.others f hzero)
    rintro rfl
    omega
  · exact (himage va).trans (h.old va hva)
  · exact (h.new va h1 h2).imp fun e he => (himage va).trans he

theorem map (hf : Fresh L k₀ pd₀) (h : Grown k₀ ram₀ pd₀ lo a (is · mem) pd s) (hz : s.ram mem = fun _ => 0)
    (ha : a % PGSIZE = 0) (hlt : a < KERNBASE) (hla : lo ≤ a)
    (hk : ∀ f, Keeps f s.kmem (pd.count f + is f mem) s'.kmem (pd'.count f))
    (hram : ∀ f, s'.kmem.count f = 0 → s'.ram f = s.ram f) (hnew : pd'.get a = some ⟨mem, PTE_W + PTE_U⟩)
    (hold : ∀ va, ¬ PageDir.SamePage va a → pd'.get va = pd.get va) :
    Grown k₀ ram₀ pd₀ lo (a + PGSIZE) (fun _ => 0) pd' s' := by
  simp only [KERNBASE, PGSIZE] at ha hlt
  have hp : ∀ f, s'.kmem.count f + pd'.count f + 0 = k₀.count f + pd₀.count f := fun f => by
    have h1 := h.pages f
    have h2 := (hk f).1
    omega
  have hsame : ∀ va, va < KERNBASE → (PageDir.SamePage va a ↔ a ≤ va ∧ va < a + PGSIZE) := fun va hva => by
    simp only [KERNBASE] at hva
    rw [samePage_iff (by omega) (by omega)]
    simp only [PGSIZE]
    omega
  have hbelow : ∀ va, va < a → image pd' s'.ram va = image pd s.ram va := fun va hva => by
    have hva' : va < KERNBASE := by simp only [KERNBASE]; omega
    have hget : pd'.get va = pd.get va := hold va fun hs => absurd ((hsame va hva').1 hs).1 (by omega)
    exact image_congr (fun _ => hget) fun hva e he => hram e.page (count_mapped hf hp hva (by rw [hget, he]))
  refine ⟨hp, fun f hzero => ?_, fun va hva => ?_, fun va h1 h2 => ?_, fun va h1 h2 => ?_⟩
  · have hsum := hp f
    rw [hram f (by omega), h.others f hzero]
  · rw [hbelow va (by omega), h.old va hva]
  · rcases Nat.lt_or_ge va a with hva | hva
    · rw [hbelow va hva]
      exact h.new va h1 hva
    · simp only [PGSIZE] at h2
      have hva' : va < KERNBASE := by simp only [KERNBASE]; omega
      have hget : pd'.get va = some ⟨mem, PTE_W + PTE_U⟩ := by
        rw [PageDir.get_samePage ((hsame va hva').2 ⟨hva, h2⟩), hnew]
      have hzero : s'.ram mem = fun _ => 0 := by rw [hram mem (count_mapped hf hp hva' hget), hz]
      exact ⟨⟨mem, PTE_W + PTE_U⟩, by rw [image_of_get hva' hget, hzero]⟩
  · simp only [PGSIZE] at h1
    rw [hold va fun hs => ?_, h.rest va (by omega) h2]
    exact absurd ((hsame va h2).1 hs).2 (by simp only [PGSIZE]; omega)

theorem shrink (hf : Fresh L k₀ pd₀) (hm : Managed L k₀ pd₀) (h : Grown k₀ ram₀ pd₀ lo a r pd s)
    (hold : oldsz ≤ KERNBASE) (hle : newsz ≤ oldsz) (hlo : pgRoundUp newsz ≤ lo) (hla : lo ≤ a)
    (ha : a ≤ pgRoundUp oldsz) :
    Meets (onRam (deallocuvm L pd oldsz newsz)) s
      (fun x s' => x.1 = newsz ∧ Grown k₀ ram₀ pd₀ (pgRoundUp newsz) (pgRoundUp newsz) r x.2 s') fun _ _ => False := by
  refine (onRam_meets (deallocuvm_meets s.kmem pd hold) fun _ _ hno => hno (h.managed hm)).mono ?_ fun _ _ => id
  rintro x s' ⟨⟨hret, hun⟩, hram⟩
  have hget : ∀ va, va < KERNBASE → _ := fun va hva => hun.get_lower hold hva
  have hp : ∀ f, s'.kmem.count f + x.2.count f + r f = k₀.count f + pd₀.count f := fun f => by
    have h1 := h.pages f
    have h2 := (hun.keeps f).1
    omega
  refine ⟨hret.trans (min_eq_left hle), hp, fun f hzero => ?_, fun va hva => ?_, fun va h1 h2 => absurd h2 (by omega), fun va h1 h2 => ?_⟩
  · have hsum := hp f
    rw [hram f (by omega), h.others f hzero]
  · have hsame : va < KERNBASE → x.2.get va = pd.get va := fun hva' => by rw [hget va hva', if_neg (by omega)]
    rw [← h.old va (by omega)]
    exact image_congr hsame fun hva' e he => hram e.page (count_mapped hf hp hva' (by rw [hsame hva', he]))
  · rw [hget va h2]
    split
    · rfl
    · rename_i hout
      rcases Nat.eq_or_lt_of_le hle with rfl | hlt
      · exact h.rest va (by omega) h2
      · exact h.rest va (by omega) h2

end Grown

theorem allocPage_meets (hf : Fresh L k₀ pd₀) (hm : Managed L k₀ pd₀) (hnew : newsz < KERNBASE) (hold : oldsz ≤ newsz)
    (h : Grown k₀ ram₀ pd₀ (pgRoundUp oldsz) a (fun _ => 0) pd s) (ha : a % PGSIZE = 0) (hla : pgRoundUp oldsz ≤ a)
    (hlt : a < newsz) :
    Meets (Phys.allocPage L oldsz newsz pd a) s (fun x s' =>
      Grown k₀ ram₀ pd₀ (pgRoundUp oldsz) (if x.1 then a + PGSIZE else pgRoundUp oldsz) (fun _ => 0) x.2 s')
      fun _ _ => False := by
  have hup := (pgRoundUp_eq newsz hnew.le).2.2
  unfold Phys.allocPage
  refine .bind (kalloc_onRam s) ?_
  rintro x s1 ⟨hk1, hram1⟩
  rcases x with _ | mem
  · have h1 : Grown k₀ ram₀ pd₀ (pgRoundUp oldsz) a (fun _ => 0) pd s1 := by
      refine h.moves hf (fun f => ?_) hram1 fun _ _ => rfl
      have h1 := h.pages f
      have h2 : Keeps f s.kmem 0 s1.kmem 0 := hk1 f
      omega
    exact .bind (h1.shrink hf hm hnew.le hold le_rfl hla (by omega)) fun x s2 h2 => .pure h2.2
  · have h1 : Grown k₀ ram₀ pd₀ (pgRoundUp oldsz) a (is · mem) pd s1 := by
      refine h.moves hf (fun f => ?_) hram1 fun _ _ => rfl
      have h1 := h.pages f
      have h2 : Keeps f s.kmem 0 s1.kmem (is f mem) := hk1 f
      omega
    have h2 := h1.memset hf
    have hzero : ({ s1 with ram := update s1.ram mem fun _ => 0 } : Phys).ram mem = fun _ => 0 := update_self ..
    refine .modify_bind ?_
    generalize { s1 with ram := update s1.ram mem fun _ => 0 } = s2 at h2 hzero ⊢
    have hlow : a < KERNBASE := by omega
    refine .bind (onRam_meets (mappages_meets s2.kmem pd a mem (PTE_W + PTE_U) ha hlow)
      fun _ _ hsome => hsome (h2.rest a le_rfl hlow)) ?_
    rintro ⟨_ | _, pd1⟩ s3 ⟨⟨hk3, hget, hmap⟩, hram3⟩
    all_goals dsimp only at hk3 hget hmap
    · have h3 : Grown k₀ ram₀ pd₀ (pgRoundUp oldsz) a (is · mem) pd1 s3 := by
        refine h2.moves hf (fun f => ?_) hram3 fun va _ => hget va fun hs => absurd hs.1 Bool.false_ne_true
        have h1 := h2.pages f
        have h2 := (hk3 f).1.1
        rw [if_neg Bool.false_ne_true] at h2
        omega
      refine .bind (h3.shrink hf hm hnew.le hold le_rfl hla (by omega)) ?_
      rintro ⟨n, pd2⟩ s4 ⟨-, h4⟩
      have hself : is mem mem = 1 := if_pos rfl
      have hmem : L.managed mem := hm mem (by have := h4.pages mem; omega)
      refine .bind (onRam_meets (kfree_meets s4.kmem mem) fun _ _ h => h hmem) ?_
      rintro _ s5 ⟨⟨hk5, -⟩, hram5⟩
      refine .pure (h4.moves hf (fun f => ?_) hram5 fun _ _ => rfl)
      have h1 := h4.pages f
      have h2 := (hk5 f).1
      dsimp only at h1 ⊢
      omega
    · exact .pure (h2.map hf hzero ha hlow hla (fun f => (hk3 f).1) hram3 (hmap rfl)
        fun va hva => hget va fun hs => hva hs.2)

theorem allocRounds_meets (hf : Fresh L k₀ pd₀) (hm : Managed L k₀ pd₀) (hnew : newsz < KERNBASE)
    (hold : oldsz ≤ newsz) (n : Nat) (h : Grown k₀ ram₀ pd₀ (pgRoundUp oldsz) a (fun _ => 0) pd s)
    (ha : a % PGSIZE = 0) (hla : pgRoundUp oldsz ≤ a) (hau : a ≤ pgRoundUp newsz) (hn : newsz ≤ a + n * PGSIZE) :
    Meets (Phys.allocRounds L oldsz newsz (n + 1) pd a) s (fun x s' =>
      x.1 = 0 ∧ Grown k₀ ram₀ pd₀ (pgRoundUp oldsz) (pgRoundUp oldsz) (fun _ => 0) x.2 s' ∨
      x.1 = newsz ∧ Grown k₀ ram₀ pd₀ (pgRoundUp oldsz) (pgRoundUp newsz) (fun _ => 0) x.2 s') fun _ _ => False := by
  have hend : newsz ≤ a → a = pgRoundUp newsz := fun hle => by
    simp only [pgRoundUp, PGSIZE] at ha hau ⊢
    omega
  induction n generalizing pd a s with
  | zero =>
    rw [Phys.allocRounds, if_neg (by omega), ← hend (by omega)]
    exact .pure (.inr ⟨rfl, h⟩)
  | succ n ih =>
    rw [Phys.allocRounds]
    split
    · rename_i hlt
      refine .bind (allocPage_meets hf hm hnew hold h ha hla hlt) ?_
      rintro ⟨_ | _, pd1⟩ s1 h1
      · exact .pure (.inl ⟨rfl, h1⟩)
      · simp only [Bool.not_true, Bool.false_eq_true, if_false]
        rw [add_PGSIZE_mod (by omega)]
        simp only [KERNBASE, PGSIZE] at hnew ha hn
        have hnext : a + PGSIZE ≤ pgRoundUp newsz := by simp only [pgRoundUp, PGSIZE]; omega
        refine ih h1 (by simp only [PGSIZE]; omega) (by omega) hnext (by simp only [PGSIZE]; omega) fun hle => ?_
        simp only [pgRoundUp, PGSIZE] at hle hnext ⊢
        omega
    · rw [← hend (by omega)]
      exact .pure (.inr ⟨rfl, h⟩)

theorem allocuvm_meets (hf : Fresh L k₀ pd₀) (hm : Managed L k₀ pd₀) (hold : oldsz ≤ newsz)
    (hpd : pd₀.Unmapped (pgRoundUp oldsz) KERNBASE) (ram₀ : Ram) :
    Meets (Phys.allocuvm L pd₀ oldsz newsz) ⟨k₀, ram₀⟩ (fun x s' =>
      x.1 = 0 ∧ Grown k₀ ram₀ pd₀ (pgRoundUp oldsz) (pgRoundUp oldsz) (fun _ => 0) x.2 s' ∨
      x.1 = newsz ∧ newsz < KERNBASE ∧ Grown k₀ ram₀ pd₀ (pgRoundUp oldsz) (pgRoundUp newsz) (fun _ => 0) x.2 s')
      fun _ _ => False := by
  unfold Phys.allocuvm
  split
  · have hstart : Grown k₀ ram₀ pd₀ (pgRoundUp oldsz) (pgRoundUp oldsz) (fun _ => 0) pd₀ ⟨k₀, ram₀⟩ := .start hpd
    exact .pure (.inl ⟨rfl, hstart⟩)
  · rename_i hnew
    rw [if_neg (by omega)]
    obtain ⟨n, hn, hmax⟩ := exists_maxRounds
    have hup := pgRoundUp_eq oldsz (by omega)
    have hle : pgRoundUp oldsz ≤ pgRoundUp newsz := by
      simp only [pgRoundUp, PGSIZE, KERNBASE] at hnew ⊢
      omega
    rw [hn]
    refine (allocRounds_meets hf hm (by omega) hold n (.start hpd) hup.1 le_rfl hle (by omega)).mono ?_ fun _ _ => id
    rintro x s' (h | ⟨h, h'⟩)
    · exact .inl h
    · exact .inr ⟨h, by omega, h'⟩

end Grow

/-! ### The call -/

/-- The user pages of a process of size `sz`. -/
def MappedTo (pd : PageDir) (sz : Nat) : Prop := ∀ va, va < KERNBASE → ((pd.get va).isSome = true ↔ va < pgRoundUp sz)

/-- The call of a process with page directory `pd` and size `sz`, from `s` to `q`, returns the old size, and
the process has grown or shrunk by `n`. -/
structure Exact (pd : PageDir) (sz : Nat) (n : Int) (s : Phys) (x : Int × Nat × PageDir) (q : Phys) : Prop where
  ret : x.1 = sz
  size : (x.2.1 : Int) = sz + n
  mapped : MappedTo x.2.2 x.2.1
  old : ∀ va, va < pgRoundUp sz → va < pgRoundUp x.2.1 → image x.2.2 q.ram va = image pd s.ram va
  new : ∀ va, pgRoundUp sz ≤ va → va < pgRoundUp x.2.1 → ∃ e, image x.2.2 q.ram va = some (e, fun _ => 0)
  others : ∀ f, s.kmem.count f + pd.count f = 0 → q.ram f = s.ram f

structure NoEffect (pd : PageDir) (sz : Nat) (s : Phys) (x : Int × Nat × PageDir) (q : Phys) : Prop where
  ret : x.1 = -1
  size : x.2.1 = sz
  same : image x.2.2 q.ram = image pd s.ram
  others : ∀ f, s.kmem.count f + pd.count f = 0 → q.ram f = s.ram f

section Sbrk

variable {L} {pd : PageDir} {k : Kmem} {ram : Ram} {sz : Nat} {n : Int}

theorem MappedTo.unmapped (h : MappedTo pd sz) : pd.Unmapped (pgRoundUp sz) KERNBASE := fun va h1 h2 => by
  rw [← Option.not_isSome_iff_eq_none, h va h2]
  omega

theorem Grown.same {q : Phys} {d : PageDir} (h : Grown k ram pd (pgRoundUp sz) (pgRoundUp sz) (fun _ => 0) d q)
    (hpd : MappedTo pd sz) : image d q.ram = image pd ram := by
  funext va
  rcases Nat.lt_or_ge va (pgRoundUp sz) with hva | hva
  · exact h.old va hva
  · refine image_congr (fun hlt => ?_) fun hlt e he => ?_
    · rw [h.rest va hva hlt, hpd.unmapped va hva hlt]
    · rw [hpd.unmapped va hva hlt] at he
      cases he

theorem Grown.mapped {q : Phys} {d : PageDir} {lo sz' : Nat} (hpd : MappedTo pd sz) (hlo : lo ≤ pgRoundUp sz)
    (h : Grown k ram pd lo (pgRoundUp sz') (fun _ => 0) d q) : MappedTo d sz' := by
  intro va hva
  rcases Nat.lt_or_ge va (pgRoundUp sz') with hlt | hge
  · refine iff_of_true ?_ hlt
    have hsome : (image d q.ram va).isSome = true := by
      rcases Nat.lt_or_ge va lo with hva' | hva'
      · obtain ⟨e, he⟩ := Option.isSome_iff_exists.1 ((hpd va hva).2 (by omega))
        rw [h.old va hva', image_of_get hva he]
        rfl
      · obtain ⟨e, he⟩ := h.new va hva' hlt
        rw [he]
        rfl
    rw [image, if_pos hva, Option.isSome_map] at hsome
    exact hsome
  · rw [h.rest va hge hva]
    exact iff_of_false Bool.false_ne_true (by omega)

theorem MappedTo.image_zero (h : MappedTo pd 0) : image pd ram = fun _ => none := by
  funext va
  unfold image
  split
  · rename_i hva
    rw [h.unmapped va (Nat.zero_le va) hva]
    rfl
  · rfl

variable (hf : Fresh L k pd) (hm : Managed L k pd) (hsz : sz ≤ KERNBASE) (hpd : MappedTo pd sz)

include hf hm hsz hpd

theorem sbrk_up (hn : 0 ≤ n) (hn' : n < 2 ^ 31) (ram : Ram) :
    Meets (Phys.sbrk L pd sz n) ⟨k, ram⟩ (fun x q => Exact pd sz n ⟨k, ram⟩ x q ∨ NoEffect pd sz ⟨k, ram⟩ x q)
      fun _ _ => False := by
  unfold Phys.sbrk Phys.growproc
  rcases hn.eq_or_lt with rfl | hpos
  · refine .bind (.pure (P := fun x s => x = (sz, pd) ∧ s = ⟨k, ram⟩) ⟨rfl, rfl⟩) ?_
    rintro _ _ ⟨rfl, rfl⟩
    refine .pure (.inl ⟨rfl, (add_zero _).symm, hpd, fun _ _ _ => rfl, fun va h1 h2 => ?_, fun _ _ => rfl⟩)
    dsimp only at h2
    omega
  · have hnew : ((sz + n) % 2 ^ 32).toNat = sz + n.toNat := by
      simp only [KERNBASE] at hsz
      omega
    rw [if_pos hpos, hnew]
    refine .bind (allocuvm_meets hf hm (Nat.le_add_right _ _) hpd.unmapped ram) ?_
    rintro ⟨sz', d⟩ q (⟨rfl, h⟩ | ⟨rfl, hlt, h⟩)
    · dsimp only
      rw [if_pos ⟨hpos.ne', rfl⟩]
      exact .pure (.inr ⟨rfl, rfl, h.same hpd, h.others⟩)
    · dsimp only
      rw [if_neg fun hzero => by omega]
      refine .pure (.inl ⟨rfl, ?_, h.mapped hpd le_rfl, fun va h1 _ => h.old va h1, h.new, h.others⟩)
      show ((sz + n.toNat : Nat) : Int) = sz + n
      omega

theorem sbrk_down (hn : n < 0) (hn' : -(sz : Int) < n) (ram : Ram) :
    Meets (Phys.sbrk L pd sz n) ⟨k, ram⟩ (fun x q => Exact pd sz n ⟨k, ram⟩ x q) fun _ _ => False := by
  unfold Phys.sbrk Phys.growproc
  have hnew : ((sz + n) % 2 ^ 32).toNat = (sz + n).toNat := by
    simp only [KERNBASE] at hsz
    omega
  have hle : pgRoundUp (sz + n).toNat ≤ pgRoundUp sz := by
    simp only [pgRoundUp, PGSIZE, KERNBASE] at hsz ⊢
    omega
  rw [if_neg (by omega), if_pos hn, hnew]
  refine .bind ((Grown.start hpd.unmapped).shrink hf hm hsz (by omega) hle le_rfl le_rfl) ?_
  rintro ⟨sz', d⟩ q ⟨rfl, h⟩
  dsimp only at h ⊢
  rw [if_neg fun hzero => by omega]
  refine .pure ⟨rfl, ?_, h.mapped hpd hle, fun va _ h2 => h.old va h2, fun va h1 h2 => ?_, h.others⟩
  · show (((sz + n).toNat : Nat) : Int) = sz + n
    omega
  · dsimp only at h2
    omega

/-- Shrinking to zero: the pages are gone, and the call returns -1. -/
theorem sbrk_all (hpos : 0 < sz) (ram : Ram) :
    Meets (Phys.sbrk L pd sz (-sz)) ⟨k, ram⟩ (fun x _ => x.1 = -1 ∧ x.2.1 = sz ∧ x.2.2.Unmapped 0 KERNBASE)
      fun _ _ => False := by
  unfold Phys.sbrk Phys.growproc
  have hnew : (((sz : Int) + -sz) % 2 ^ 32).toNat = 0 := by omega
  have hzero : pgRoundUp 0 = 0 := by decide
  rw [if_neg (by omega), if_pos (by omega), hnew]
  refine .bind ((Grown.start hpd.unmapped).shrink hf hm hsz hpos.le (by omega) le_rfl le_rfl) ?_
  rintro ⟨sz', d⟩ q ⟨rfl, h⟩
  dsimp only at h ⊢
  rw [if_pos ⟨by omega, rfl⟩]
  rw [hzero] at h
  exact .pure ⟨rfl, rfl, h.rest⟩

theorem sbrk_all_wrong {x : Int × Nat × PageDir} {q : Phys} (hpos : 0 < sz)
    (hrun : Phys.sbrk L pd sz (-sz) ⟨k, ram⟩ = (.ok x, q)) :
    ¬ (Exact pd sz (-sz) ⟨k, ram⟩ x q ∨ NoEffect pd sz ⟨k, ram⟩ x q) := by
  obtain ⟨hret, -, hgone⟩ := (sbrk_all hf hm hsz hpd hpos ram).run_ok hrun
  rintro (h | h)
  · have := h.ret
    omega
  · have hup : 0 < pgRoundUp sz := by
      have := (pgRoundUp_eq sz hsz).2.2
      omega
    obtain ⟨e, he⟩ := Option.isSome_iff_exists.1 ((hpd 0 (by decide)).2 hup)
    have hsame := congrFun h.same 0
    rw [image_of_get (by decide) he, image, hgone 0 le_rfl (by decide)] at hsame
    cases hsame

variable (L pd) in
omit hf hm hpd in
/-- Shrinking by more than the size: `sz + n` wraps around, and `deallocuvm` has nothing to do. -/
theorem sbrk_past (hn : n < -(sz : Int)) (hn' : -(2 ^ 31) ≤ n) (s : Phys) :
    ∃ q, Phys.sbrk L pd sz n s = (.ok (if sz = 0 then -1 else (sz : Int), sz, pd), q) ∧
      ∀ f, s.kmem.count f = 0 → q.ram f = s.ram f := by
  have hnew : ((sz + n) % 2 ^ 32).toNat ≥ sz := by
    simp only [KERNBASE] at hsz
    omega
  have hdealloc : ∃ q, onRam (deallocuvm L pd sz ((sz + n) % 2 ^ 32).toNat) s = (.ok (sz, pd), q) ∧
      ∀ f, s.kmem.count f = 0 → q.ram f = s.ram f := by
    rw [deallocuvm, if_pos hnew]
    exact ⟨_, rfl, fun f hf => if_neg (List.count_eq_zero.1 hf)⟩
  obtain ⟨q, hq, hram⟩ := hdealloc
  refine ⟨q, ?_, hram⟩
  unfold Phys.sbrk Phys.growproc
  rw [if_neg (by omega), if_pos (by omega), bind_of_ok hq]
  dsimp only
  split
  · rename_i hzero
    rw [if_pos hzero.2]
    rfl
  · rename_i hpos
    rw [if_neg fun hzero => hpos ⟨by omega, hzero⟩]
    rfl

omit hf hm hpd in
theorem sbrk_past_wrong {x : Int × Nat × PageDir} {q : Phys} (hpos : sz ≠ 0) (hn : n < -(sz : Int))
    (hn' : -(2 ^ 31) ≤ n) (hrun : Phys.sbrk L pd sz n ⟨k, ram⟩ = (.ok x, q)) :
    ¬ (Exact pd sz n ⟨k, ram⟩ x q ∨ NoEffect pd sz ⟨k, ram⟩ x q) := by
  obtain ⟨q', hrun', -⟩ := sbrk_past L pd hsz hn hn' ⟨k, ram⟩
  rw [hrun, if_neg hpos] at hrun'
  cases hrun'
  rintro (h | h)
  · have hsize : (sz : Int) = sz + n := h.size
    omega
  · have hret : (sz : Int) = -1 := h.ret
    omega

end Sbrk

end Vm

namespace ProcMem

open Vm Exec

variable {L : Layout} {s : St} {p : Fin NPROC} {pd pd' : PageDir} {n : Int}

theorem growproc_erases (pd : PageDir) (sz : Nat) (n : Int) :
    Erases (Phys.growproc L pd sz n) (growproc L pd sz n) := by
  unfold Phys.growproc growproc
  split
  · exact allocuvm_erases L pd sz _
  · split
    · exact .onRam _
    · exact .pure _

/-- The system call, on the process table, is `Phys.sbrk` without the contents. -/
theorem sbrk_eq {r : Int} {sz' : Nat} {ram : Ram} {q : Phys} (hpd : (s.procs p).pgdir = some pd)
    (h : Phys.sbrk L pd (s.procs p).sz n ⟨s.kmem, ram⟩ = (.ok (r, sz', pd'), q)) :
    ∃ s', sbrk L p n s = (.ok r, s') ∧ s'.kmem = q.kmem ∧ (s'.procs p).sz = sz' ∧ (s'.procs p).pgdir = some pd' ∧
      ∀ p' ≠ p, s'.procs p' = s.procs p' := by
  unfold Phys.sbrk at h
  obtain ⟨⟨sz1, pd1⟩, q1, hgrow, h⟩ := bind_run_ok h
  have hg : growproc L pd (s.procs p).sz n s.kmem = (.ok (sz1, pd1), q1.kmem) := by
    rw [growproc_erases pd _ n ⟨s.kmem, ram⟩, hgrow]
  dsimp only at h
  split at h
  · rename_i hc
    cases h
    obtain ⟨hn, rfl⟩ := hc
    refine ⟨_, sbrk_fails hpd hn hg, rfl, ?_, ?_, fun p' hp => Function.update_of_ne hp _ _⟩
    · rw [St.set_procs]
    · rw [St.set_procs]
  · rename_i hc
    cases h
    refine ⟨_, sbrk_grows hpd hc hg, rfl, ?_, ?_, fun p' hp => ?_⟩
    · rw [St.set_procs]
    · rw [St.set_procs, St.set_procs]
    · exact (Function.update_of_ne hp _ _).trans (Function.update_of_ne hp _ _)

theorem Inv.own (h : Inv L s) (hlive : (s.procs p).live = true) (hpd : (s.procs p).pgdir = some pd)
    (fails : List Bool) : Fresh L (s.withFails fails).kmem pd ∧ Managed L (s.withFails fails).kmem pd := by
  have hle : ∀ f, (s.withFails fails).kmem.count f + pd.count f ≤ within L.first L.phystop f := fun f => by
    have h1 := h.once f
    have h2 := s.procCount_le_owned p f
    rw [procCount_live hlive, hpd] at h2
    have h3 : pgdirCount f (some pd) = pd.count f := rfl
    have h4 : (s.withFails fails).kmem.count f = s.kmem.count f := rfl
    omega
  have hin : ∀ f, 0 < (s.withFails fails).kmem.count f + pd.count f → L.managed f := fun f hpos =>
    mem_of_within_pos (hpos.trans_le (hle f))
  exact ⟨⟨fun f => (hle f).trans (within_le ..), fun f hpos => hin f (by omega)⟩, hin⟩

/-- `sbrk` of any process in any reachable state, with any calls of `kalloc` failing: the call is exact or
has no effect, unless the process asks to give back all of its memory or more. -/
theorem sbrk_exact_iff {mid ncpu : Nat} {s₀ : St} (h₁ : L.first ≤ mid) (h₂ : mid ≤ L.phystop)
    (hboot : main L mid ncpu (start L) = (.ok (), s₀)) (hs : Machine.Reachable (step L) s₀ s)
    (hlive : (s.procs p).live = true) (hpd : (s.procs p).pgdir = some pd) (hmap : MappedTo pd (s.procs p).sz)
    (hn : -(2 ^ 31) ≤ n ∧ n < 2 ^ 31) (fails : List Bool) (ram : Ram) :
    (∃ x q, Phys.sbrk L pd (s.procs p).sz n ⟨(s.withFails fails).kmem, ram⟩ = (.ok x, q) ∧
      (Exact pd (s.procs p).sz n ⟨(s.withFails fails).kmem, ram⟩ x q ∨
        NoEffect pd (s.procs p).sz ⟨(s.withFails fails).kmem, ram⟩ x q)) ↔
      (s.procs p).sz = 0 ∨ -((s.procs p).sz : Int) < n := by
  have hinv : Inv L s := hs.inv (Inv.boot h₁ h₂ hboot) fun _ _ _ hi _ hstep => hi.step hstep
  obtain ⟨hf, hm⟩ := hinv.own hlive hpd fails
  have hsz := (hinv.procs p).1
  generalize (s.procs p).sz = sz at hmap hsz ⊢
  refine ⟨fun ⟨x, q, hrun, hx⟩ => ?_, fun h => ?_⟩
  · by_contra hno
    rw [not_or, not_lt] at hno
    obtain ⟨hpos, hle⟩ := hno
    rcases hle.eq_or_lt with rfl | hlt
    · exact sbrk_all_wrong hf hm hsz hmap (by omega) hrun hx
    · exact sbrk_past_wrong hsz hpos hlt hn.1 hrun hx
  · rcases le_or_gt 0 n with hn0 | hn0
    · exact (sbrk_up hf hm hsz hmap hn0 hn.2 ram).total fun _ _ => id
    · rcases lt_or_ge (-(sz : Int)) n with hn1 | hn1
      · obtain ⟨x, q, hrun, hx⟩ := (sbrk_down hf hm hsz hmap hn0 hn1 ram).total fun _ _ => id
        exact ⟨x, q, hrun, .inl hx⟩
      · obtain rfl : sz = 0 := by omega
        obtain ⟨q, hrun, hram⟩ := sbrk_past L pd hsz (by omega) hn.1 ⟨(s.withFails fails).kmem, ram⟩
        refine ⟨_, q, hrun, .inr ⟨rfl, rfl, hmap.image_zero.trans hmap.image_zero.symm, fun f hf => ?_⟩⟩
        exact hram f (by omega)

def bootedWithPage : Bool :=
  match bootSmall 30 with
  | (.ok (), s) => (s.procs 0).live && (s.procs 0).sz == 4096 && (s.procs 0).pgdir.any fun pd =>
      (List.finRange 1024).all (fun i => i.val == 0 || i.val ≥ 512 || (pd.pde i).isNone) && (pd.pde 0).any fun t =>
        (List.finRange 1024).all fun j => (t.pte j).isSome == (j.val == 0)
  | _ => false

theorem exists_bootedWithPage : ∃ s pd, bootSmall 30 = (.ok (), s) ∧ (s.procs 0).live = true ∧
    (s.procs 0).sz = 4096 ∧ (s.procs 0).pgdir = some pd ∧ MappedTo pd 4096 := by
  have heval : bootedWithPage = true := by decide +kernel
  unfold bootedWithPage at heval
  split at heval
  · rename_i s hs
    simp only [Bool.and_eq_true, beq_iff_eq, Option.any_eq_true, List.all_eq_true, List.mem_finRange, true_imp_iff,
      Bool.or_eq_true, decide_eq_true_eq, Option.isNone_iff_eq_none] at heval
    obtain ⟨⟨hlive, hsz⟩, pd, hpd, hdir, t, ht, htab⟩ := heval
    refine ⟨s, pd, hs, hlive, hsz, hpd, fun va hva => ?_⟩
    have hup : pgRoundUp 4096 = 4096 := by decide
    rw [hup]
    simp only [Vm.KERNBASE] at hva
    have hd := PDX_val (show va < 2 ^ 32 by omega)
    by_cases h : PDX va = 0
    · have h0 : va < 2 ^ 22 := by
        rw [h] at hd
        have : (0 : Fin 1024).val = 0 := rfl
        omega
      have hx : (PTX va).val = va / 4096 := by
        show va / 2 ^ 12 % 1024 = _
        omega
      rw [PageDir.get, h, ht, Option.bind_some, htab, hx, beq_iff_eq]
      omega
    · have hne : (PDX va).val ≠ 0 := fun h' => h (Fin.ext h')
      rcases hdir (PDX va) with (h' | h') | h'
      · exact absurd h' hne
      · omega
      · rw [PageDir.get, h']
        refine iff_of_false Bool.false_ne_true ?_
        omega
  · cases heval

/-- The process asks for one page more. -/
theorem sbrk_exact_iff_page : ∃ k pd, MappedTo pd 4096 ∧
    ∃ x q, Phys.sbrk (smallLayout 30) pd 4096 4096 ⟨k, fun _ _ => 7⟩ = (.ok x, q) ∧
      (Exact pd 4096 4096 ⟨k, fun _ _ => 7⟩ x q ∨ NoEffect pd 4096 ⟨k, fun _ _ => 7⟩ x q) := by
  obtain ⟨s, pd, hboot, hlive, hsz, hpd, hmap⟩ := exists_bootedWithPage
  have h := sbrk_exact_iff (n := 4096) (by decide) (by decide) hboot .refl hlive hpd (hsz ▸ hmap) (by decide) []
    fun _ _ => 7
  rw [hsz] at h
  exact ⟨_, pd, hmap, h.2 (.inr (by decide))⟩

/-- The process gives back its page and is left without memory although the call fails; it gives back
more than it has and is told that it has. -/
theorem sbrk_not_exact : ∃ s pd, bootSmall 30 = (.ok (), s) ∧ (s.procs 0).live = true ∧
    (s.procs 0).sz = 4096 ∧ (s.procs 0).pgdir = some pd ∧ MappedTo pd 4096 ∧
    (∃ x q, Phys.sbrk (smallLayout 30) pd 4096 (-4096) ⟨s.kmem, fun _ _ => 7⟩ = (.ok x, q) ∧ x.1 = -1 ∧ x.2.1 = 4096 ∧
      x.2.2.get 0 = none ∧
      ¬ (Exact pd 4096 (-4096) ⟨s.kmem, fun _ _ => 7⟩ x q ∨ NoEffect pd 4096 ⟨s.kmem, fun _ _ => 7⟩ x q)) ∧
    ∃ x q, Phys.sbrk (smallLayout 30) pd 4096 (-8192) ⟨s.kmem, fun _ _ => 7⟩ = (.ok x, q) ∧ x.1 = 4096 ∧
      x.2.1 = 4096 ∧
      ¬ (Exact pd 4096 (-8192) ⟨s.kmem, fun _ _ => 7⟩ x q ∨ NoEffect pd 4096 ⟨s.kmem, fun _ _ => 7⟩ x q) := by
  obtain ⟨s, pd, hboot, hlive, hsz, hpd, hmap⟩ := exists_bootedWithPage
  have hinv : Inv (smallLayout 30) s := Inv.boot (by decide) (by decide) hboot
  obtain ⟨hf, hm⟩ := hinv.own hlive hpd s.kmem.fails
  have hk : (s.withFails s.kmem.fails).kmem = s.kmem := rfl
  rw [hk] at hf hm
  obtain ⟨x, q, hrun, hret, hsize, hgone⟩ :=
    (sbrk_all hf hm (by decide) hmap (by decide) fun _ _ => 7).total fun _ _ => id
  obtain ⟨q', hrun', -⟩ := @sbrk_past (smallLayout 30) pd 4096 (-8192) (by decide) (by decide) (by decide)
    ⟨s.kmem, fun _ _ => 7⟩
  refine ⟨s, pd, hboot, hlive, hsz, hpd, hmap, ⟨x, q, hrun, hret, hsize, hgone 0 le_rfl (by decide),
    sbrk_all_wrong hf hm (by decide) hmap (by decide) hrun⟩, _, q', hrun', rfl, rfl,
    sbrk_past_wrong (by decide) (by decide) (by decide) (by decide) hrun'⟩

end ProcMem

end Xv6
