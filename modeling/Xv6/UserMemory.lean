import Xv6.SbrkExact

/-!
# Growing and shrinking user memory is exact

What `deallocuvm` frees is the list of the pages mapped in its range (`PageDir.pagesIn`). `allocuvm` maps pages off the free
list, zeroed, or gives back what it has mapped. Both keep every page in one place (`Sound`).
-/

namespace Xv6.Vm

open Exec Function

variable {L : Layout} {pd pd' : PageDir} {k k' : Kmem} {lo hi a oldsz newsz : Nat}

/-- The pages of `pd`, its own ones too, were obtained from `kalloc` and not given back, each is in one
place, and what is free is not in use. -/
structure Sound (L : Layout) (k : Kmem) (pd : PageDir) : Prop where
  once : ∀ f, k.count f + k.handed f ≤ 1
  managed : ∀ f, 0 < k.count f + k.handed f → L.managed f
  held : ∀ f, pd.count f ≤ k.handed f

namespace Sound

theorem fresh (h : Sound L k pd) : Fresh L k pd :=
  ⟨fun f => by have := h.once f; have := h.held f; omega, fun f hpos => h.managed f (by omega)⟩

theorem allManaged (h : Sound L k pd) : Managed L k pd := fun f hpos =>
  h.managed f (by have := h.held f; omega)

theorem keeps (h : Sound L k pd) (hk : ∀ f, Keeps f k (pd.count f) k' (pd'.count f)) : Sound L k' pd' := by
  refine ⟨fun f => ?_, fun f hpos => h.managed f ?_, fun f => ?_⟩ <;>
  · have h1 := h.once f
    have h2 := h.held f
    have h3 := hk f
    omega

end Sound

/-! ### Shrinking -/

structure Shrunk (pd : PageDir) (k : Kmem) (lo hi : Nat) (pd' : PageDir) (k' : Kmem) : Prop where
  entries : ∀ va, va < 2 ^ 32 → pd'.get va = if lo ≤ pgRoundDown va ∧ pgRoundDown va < hi then none else pd.get va
  freed : k'.freelist = (pd.pagesIn lo hi).reverse ++ k.freelist
  nodup : k'.freelist.Nodup
  right : ∀ f, k'.wrong f = k.wrong f

theorem Sound.freelist_nodup (h : Sound L k pd) : k.freelist.Nodup := List.nodup_iff_count_le_one.2 fun f => by
  have h1 := h.once f
  have h2 : k.count f = k.freelist.count f := rfl
  omega

theorem Sound.deallocuvm (h : Sound L k pd) (hlt : newsz < oldsz) (hold : oldsz ≤ KERNBASE) :
    ∃ pd' k', deallocuvm L pd oldsz newsz k = (.ok (newsz, pd'), k') ∧ Sound L k' pd' ∧
      Shrunk pd k (pgRoundUp newsz) oldsz pd' k' := by
  obtain ⟨⟨r, pd'⟩, k', hrun, hret, hun⟩ := (deallocuvm_meets k pd hold).total fun _ _ hno => hno h.allManaged
  rw [if_pos hlt] at hun
  obtain rfl : r = newsz := hret.trans (min_eq_left hlt.le)
  have hs : Sound L k' pd' := h.keeps hun.keeps
  exact ⟨pd', k', hrun, hs, hun.get, hun.freed, hs.freelist_nodup, fun f => ((hun.keeps f).2 (h.held f)).2 (h.once f)⟩

/-! ### Growing -/

/-- Zeroed pages off the free list are mapped from `lo` to `hi`. -/
structure Extended (pd : PageDir) (s : Phys) (lo hi : Nat) (pd' : PageDir) (s' : Phys) : Prop where
  new : ∀ va, lo ≤ va → va < hi → ∃ e, pd'.get va = some e ∧ e.flags = PTE_W + PTE_U ∧
    e.page ∈ s.kmem.freelist ∧ s'.ram e.page = fun _ => 0
  old : ∀ va, va < 2 ^ 32 → va < lo ∨ hi ≤ va → pd'.get va = pd.get va
  contents : ∀ va e, va < KERNBASE → pd.get va = some e → s'.ram e.page = s.ram e.page

/-- What was mapped is mapped as before, and what was free is free or a page table. -/
structure Undone (pd : PageDir) (s : Phys) (pd' : PageDir) (s' : Phys) : Prop where
  entries : ∀ va, va < 2 ^ 32 → pd'.get va = pd.get va
  contents : ∀ va e, va < KERNBASE → pd.get va = some e → s'.ram e.page = s.ram e.page
  returned : ∀ f ∈ s.kmem.freelist, f ∈ s'.kmem.freelist ∨ 0 < pd'.ownPages f

section Grown

variable {s s' : Phys} {r : Nat → Nat}

theorem image_eq {va : Nat} (hva : va < KERNBASE) (h : image pd' s'.ram va = image pd s.ram va) :
    pd'.get va = pd.get va ∧ ∀ e, pd.get va = some e → s'.ram e.page = s.ram e.page := by
  rw [image, image, if_pos hva, if_pos hva] at h
  rcases hd : pd.get va with _ | e <;> rcases hd' : pd'.get va with _ | e' <;> rw [hd, hd'] at h
  · exact ⟨rfl, fun _ he => by cases he⟩
  · cases h
  · cases h
  · obtain ⟨rfl, hram⟩ := Prod.mk.inj (Option.some.inj h)
    refine ⟨rfl, fun e he => ?_⟩
    cases he
    exact hram

/-- Below `KERNBASE` nothing else is mapped after a call that has failed. -/
theorem Grown.entries (h : Grown s.kmem s.ram pd lo a r pd' s') (hpd : pd.Unmapped lo KERNBASE) {va : Nat}
    (hva : va < KERNBASE) (hout : va < lo ∨ a ≤ va) : pd'.get va = pd.get va := by
  rcases Nat.lt_or_ge va lo with hlt | hge
  · exact (image_eq hva (h.old va hlt)).1
  · rw [h.rest va (by omega) hva, hpd va hge hva]

theorem Grown.contents (h : Grown s.kmem s.ram pd lo a r pd' s') (hpd : pd.Unmapped lo KERNBASE) (va : Nat) (e : Pte)
    (hva : va < KERNBASE) (he : pd.get va = some e) : s'.ram e.page = s.ram e.page := by
  rcases Nat.lt_or_ge va lo with hlt | hge
  · exact (image_eq hva (h.old va hlt)).2 e he
  · rw [hpd va hge hva] at he
    cases he

end Grown

theorem Sound.allocuvm {s : Phys} (h : Sound L s.kmem pd) (hle : oldsz ≤ newsz)
    (hpd : pd.Unmapped (pgRoundUp oldsz) KERNBASE) :
    ∃ ret pd' s', Phys.allocuvm L pd oldsz newsz s = (.ok (ret, pd'), s') ∧ Sound L s'.kmem pd' ∧
      (ret = newsz ∧ Extended pd s (pgRoundUp oldsz) (pgRoundUp newsz) pd' s' ∨ ret = 0 ∧ Undone pd s pd' s') := by
  obtain ⟨⟨ret, pd'⟩, s', hrun, hgrown⟩ := (allocuvm_meets h.fresh h.allManaged hle hpd s.ram).total fun _ _ => id
  obtain ⟨hk, hupper, -, -, hpages⟩ := (allocuvm_erases L pd oldsz newsz).ends (allocuvm_ends s.kmem pd oldsz newsz) _ _ hrun
  have hs : Sound L s'.kmem pd' := h.keeps hk
  refine ⟨ret, pd', s', hrun, hs, ?_⟩
  dsimp only at hgrown
  rcases hgrown with ⟨hret, hg⟩ | ⟨hret, hnew, hg⟩
  · refine .inr ⟨hret, fun va hva => ?_, hg.contents hpd, fun f hf => ?_⟩
    · rcases Nat.lt_or_ge va KERNBASE with hlt | hge
      · exact hg.entries hpd hlt (by omega)
      · exact hupper va hge hva
    · have hone : 0 < s.kmem.count f := List.count_pos_iff.2 hf
      have honce := h.fresh.once f
      have hsum := hg.pages f
      have hsplit := pd.count_eq f
      have hsplit' := pd'.count_eq f
      have huser := PageDir.userPages_le f fun va hva _ => .inl (hg.entries hpd hva (by omega))
      rcases Nat.eq_zero_or_pos (pd'.ownPages f) with hzero | hpos
      · exact .inl (List.count_pos_iff.1 (by show 0 < s'.kmem.count f; omega))
      · exact .inr hpos
  · refine .inl ⟨hret, fun va h1 h2 => ?_, fun va hva hout => ?_, hg.contents hpd⟩
    · have hup := pgRoundUp_eq newsz hnew.le
      have hva : va < KERNBASE := by omega
      have hpos : 0 < newsz := Nat.pos_of_ne_zero fun hz => by
        subst hz
        exact absurd h2 (Nat.not_lt_zero va)
      obtain ⟨e, he⟩ := hg.new va h1 h2
      obtain ⟨e', he', hflags, hmem⟩ := hpages hnew hle hret hpos va h1 h2
      rw [image_of_get hva he'] at he
      obtain ⟨rfl, hzero⟩ := Prod.mk.inj (Option.some.inj he)
      exact ⟨_, he', hflags, List.count_pos_iff.1 hmem, hzero⟩
    · rcases Nat.lt_or_ge va KERNBASE with hlt | hge
      · exact hg.entries hpd hlt hout
      · exact hupper va hge hva

theorem uvm_exact (L : Layout) (pd : PageDir) (s : Phys) (h : Sound L s.kmem pd) :
    (∀ oldsz newsz, newsz < oldsz → oldsz ≤ KERNBASE →
      ∃ pd' k', deallocuvm L pd oldsz newsz s.kmem = (.ok (newsz, pd'), k') ∧ Sound L k' pd' ∧
        Shrunk pd s.kmem (pgRoundUp newsz) oldsz pd' k') ∧
    ∀ oldsz newsz, oldsz ≤ newsz → pd.Unmapped (pgRoundUp oldsz) KERNBASE →
      ∃ ret pd' s', Phys.allocuvm L pd oldsz newsz s = (.ok (ret, pd'), s') ∧ Sound L s'.kmem pd' ∧
        (ret = newsz ∧ Extended pd s (pgRoundUp oldsz) (pgRoundUp newsz) pd' s' ∨ ret = 0 ∧ Undone pd s pd' s') :=
  ⟨fun _ _ hlt hold => h.deallocuvm hlt hold, fun _ _ hle hpd => h.allocuvm hle hpd⟩

def onePage : PageDir where
  page := 1
  pde := fun i => if i = 0 then some ⟨2, fun j => if j = 0 then some ⟨5, PTE_W + PTE_U⟩ else none⟩ else none

def twoFree : Kmem := ⟨[3, 4], [], [1, 2, 5], []⟩

def tinyLayout : Layout := ⟨1, 6, [], Nat.one_pos, Layout.upper_nil⟩

theorem onePage_count (f : Nat) : onePage.count f = is f 1 + (is f 2 + is f 5) := by
  have htab : tableCount f 0 (onePage.pde 0) = is f 2 + is f 5 := by
    show is f 2 + ∑ j : Fin 1024, pteCount f (if j = 0 then some ⟨5, PTE_W + PTE_U⟩ else none) = _
    rw [Finset.sum_eq_single 0 (fun j _ hj => by rw [if_neg hj]; rfl) fun h => absurd (Finset.mem_univ _) h]
    rfl
  rw [PageDir.count, Finset.sum_eq_single 0 (fun i _ hi => ?_) fun h => absurd (Finset.mem_univ _) h, htab]
  · rfl
  · show tableCount f i (if i = 0 then _ else none) = 0
    rw [if_neg hi]
    rfl

theorem onePage_sound {L : Layout} {free : List Nat} (hnd : (free ++ [1, 2, 5]).Nodup)
    (hman : ∀ f ∈ free ++ [1, 2, 5], L.managed f) : Sound L ⟨free, [], [1, 2, 5], []⟩ onePage := by
  have hcount : ∀ f, free.count f + [1, 2, 5].count f = (free ++ [1, 2, 5]).count f := fun f => List.count_append.symm
  refine ⟨fun f => ?_, fun f hpos => hman f (List.count_pos_iff.1 (hcount f ▸ hpos)), fun f => ?_⟩
  · exact (hcount f).trans_le (List.nodup_iff_count_le_one.1 hnd f)
  · rw [onePage_count]
    simp only [Kmem.handed, is, List.count_cons, List.count_nil, beq_iff_eq]
    omega

theorem sound_onePage : Sound tinyLayout twoFree onePage :=
  onePage_sound (by decide) (by unfold Layout.managed; decide)

theorem uvm_exact_onePage : Sound tinyLayout twoFree onePage ∧
    (∃ pd' k', deallocuvm tinyLayout onePage 4096 0 twoFree = (.ok (0, pd'), k') ∧
      Sound tinyLayout k' pd' ∧ Shrunk onePage twoFree (pgRoundUp 0) 4096 pd' k') ∧
    ∃ ret pd' s', Phys.allocuvm tinyLayout onePage 4096 8192 ⟨twoFree, fun _ _ => 1⟩ = (.ok (ret, pd'), s') ∧
      Sound tinyLayout s'.kmem pd' ∧
      (ret = 8192 ∧ Extended onePage ⟨twoFree, fun _ _ => 1⟩ (pgRoundUp 4096) (pgRoundUp 8192) pd' s' ∨
        ret = 0 ∧ Undone onePage ⟨twoFree, fun _ _ => 1⟩ pd' s') := by
  obtain ⟨hshrink, hgrow⟩ := uvm_exact tinyLayout onePage ⟨twoFree, fun _ _ => 1⟩ sound_onePage
  refine ⟨sound_onePage, hshrink 4096 0 (by decide) (by decide), hgrow 4096 8192 (by decide) fun va h1 h2 => ?_⟩
  have hup : pgRoundUp 4096 = 4096 := by decide
  simp only [KERNBASE] at h2
  rw [PageDir.get]
  by_cases hd : PDX va = 0
  · have ht : PTX va ≠ 0 := fun ht => by
      have := (samePage_iff (b := 0) (by omega) (by decide)).1 ⟨hd, ht⟩
      simp only [PGSIZE] at this
      omega
    rw [hd]
    exact if_neg ht
  · show Option.bind (if PDX va = 0 then _ else none) _ = none
    rw [if_neg hd]
    rfl

end Xv6.Vm
