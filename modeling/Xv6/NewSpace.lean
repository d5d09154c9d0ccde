import Xv6.AddressSpaces
import Xv6.CopyOut
import Xv6.UserMemory

/-!
# A page directory under construction

The pages of a page directory that is being built have come off the free list, all of user memory below
the size is mapped and nothing else (`Space`). `allocuvm` and `loaduvm` keep this: they do not panic, and
they say what user memory holds. When the building stops half way, `freevm` gives all pages back (`Owns`).
-/

namespace Xv6.Vm

open Exec Function

variable {L : Layout} {k₀ : Kmem} {ram₀ ram ram' : Ram} {old pd pd' : PageDir} {s s' : Phys} {sz va : Nat} {e : Pte}

/-- What physical memory holds at user address `va`, whoever may read it. -/
def PageDir.byte (pd : PageDir) (ram : Ram) (va : Nat) : Option UInt8 :=
  (image pd ram va).map fun x => x.2 (offset va)

theorem PageDir.byte_of_get (hva : va < KERNBASE) (h : pd.get va = some e) :
    pd.byte ram va = some (ram e.page (offset va)) := by
  rw [byte, image_of_get hva h, Option.map_some]

/-- What was free is free or belongs to `pd`, and other pages hold what they did. -/
structure Owns (k₀ : Kmem) (ram₀ : Ram) (pd : PageDir) (s : Phys) : Prop where
  pages : ∀ f, s.kmem.count f + pd.count f = k₀.count f
  kept : Untouched k₀ ram₀ s

namespace Owns

theorem fresh (hk : Fresh L k₀ old) (h : Owns k₀ ram₀ pd s) : Fresh L s.kmem pd := by
  refine ⟨fun f => ?_, fun f hpos => hk.managed f ?_⟩ <;>
  · have h1 := hk.once f
    have h2 := h.pages f
    omega

theorem managed (hk : Fresh L k₀ old) (h : Owns k₀ ram₀ pd s) : Managed L s.kmem pd := fun f hpos =>
  hk.managed f (by have := h.pages f; omega)

theorem once (hk : Fresh L k₀ old) (h : Owns k₀ ram₀ pd s) (f : Nat) : pd.count f ≤ 1 := by
  have h1 := hk.once f
  have h2 := h.pages f
  omega

theorem freevm (hk : Fresh L k₀ old) (h : Owns k₀ ram₀ pd s) :
    Meets (onRam (freevm L pd)) s (fun _ s' => Restored k₀ ram₀ s') fun _ _ => False :=
  freevm_restores hk h.pages h.kept

theorem write (h : Owns k₀ ram₀ pd s) (hram : ∀ f, pd.count f = 0 → ram' f = s.ram f) :
    Owns k₀ ram₀ pd ⟨s.kmem, ram'⟩ := by
  refine ⟨h.pages, fun f hzero => (hram f ?_).trans (h.kept f hzero)⟩
  have := h.pages f
  omega

end Owns

/-- A page directory for a program of size `sz`. -/
structure Space (L : Layout) (k₀ : Kmem) (ram₀ : Ram) (sz : Nat) (pd : PageDir) (s : Phys) : Prop
    extends Owns k₀ ram₀ pd s where
  mapped : MappedTo pd sz
  flags : ∀ va e, va < KERNBASE → pd.get va = some e → e.flags = PTE_W + PTE_U
  kernel : KernelHalf L.kmap pd
  size : sz ≤ KERNBASE

namespace Space

theorem setupkvm (hL : KmapOk L) (hk : Fresh L k₀ old) (ram₀ : Ram) :
    Meets (onRam (setupkvm L)) ⟨k₀, ram₀⟩ (fun r s' => r.elim (Restored k₀ ram₀ s')
      fun pd => Space L k₀ ram₀ 0 pd s') fun _ _ => False := by
  refine (onRam_meets (hL.setupkvm k₀) fun _ _ h => h hk.managed).mono ?_ fun _ _ => id
  rintro r s' ⟨⟨hkeep, hpd⟩, hram⟩
  have hcount : ∀ f, s'.kmem.count f + pgdirCount f r = k₀.count f := fun f => (hkeep f).1
  have hkept : Untouched k₀ ram₀ s' := fun f hzero => hram f (by have := hcount f; omega)
  rcases r with _ | pd
  · exact ⟨hcount, hkept⟩
  · obtain ⟨hkern, huser⟩ := hpd pd rfl
    have hnone : ∀ va, va < KERNBASE → pd.get va = none := fun va hva => huser va (Nat.zero_le va) hva
    refine ⟨⟨hcount, hkept⟩, fun va hva => ?_, fun va e hva he => ?_, hkern, Nat.zero_le _⟩
    · rw [hnone va hva]
      exact iff_of_false nofun (Nat.not_lt_zero va)
    · rw [hnone va hva] at he
      cases he

theorem roundUp (h : Space L k₀ ram₀ sz pd s) : Space L k₀ ram₀ (pgRoundUp sz) pd s := by
  obtain ⟨h1, h2, -⟩ := pgRoundUp_eq sz h.size
  have hsame : pgRoundUp (pgRoundUp sz) = pgRoundUp sz := by
    generalize pgRoundUp sz = n at h1 h2
    simp only [KERNBASE, PGSIZE] at h1 h2
    simp only [pgRoundUp, PGSIZE]
    omega
  exact ⟨h.toOwns, fun va hva => by rw [hsame]; exact h.mapped va hva, h.flags, h.kernel, h2⟩

/-- Pages that are mapped hold what they did, and zeroed ones are mapped behind. -/
structure Grows (sz sz' : Nat) (pd : PageDir) (s : Phys) (pd' : PageDir) (s' : Phys) : Prop where
  old : ∀ va, va < pgRoundUp sz → pd'.byte s'.ram va = pd.byte s.ram va
  new : ∀ va, pgRoundUp sz ≤ va → va < pgRoundUp sz' → pd'.byte s'.ram va = some 0

theorem allocuvm (hk : Fresh L k₀ old) (h : Space L k₀ ram₀ sz pd s) (newsz : Nat) :
    Meets (Phys.allocuvm L pd sz newsz) s (fun x s' => Owns k₀ ram₀ x.2 s' ∧
      (0 < x.1 → newsz < KERNBASE ∧ x.1 = max sz newsz ∧ Space L k₀ ram₀ x.1 x.2 s' ∧ Grows sz x.1 pd s x.2 s'))
      fun _ _ => False := by
  by_cases hle : sz ≤ newsz
  · obtain ⟨⟨ret, pd'⟩, s', hrun, hgrown⟩ :=
      (allocuvm_meets (h.fresh hk) (h.managed hk) hle h.mapped.unmapped s.ram).total fun _ _ => id
    have hcall := (allocuvm_erases L pd sz newsz).ends (allocuvm_ends s.kmem pd sz newsz) _ _ hrun
    have howns : ∀ {a}, Grown s.kmem s.ram pd (pgRoundUp sz) a (fun _ => 0) pd' s' → Owns k₀ ram₀ pd' s' :=
      fun hg => ⟨fun f => by have := hg.pages f; have := h.pages f; omega, fun f hzero =>
        (hg.others f ((h.pages f).trans hzero)).trans (h.kept f hzero)⟩
    refine .of_ok hrun ?_
    dsimp only at hgrown ⊢
    rcases hgrown with ⟨rfl, hg⟩ | ⟨rfl, hnew, hg⟩
    · exact ⟨howns hg, fun hpos => absurd hpos (lt_irrefl 0)⟩
    · refine ⟨howns hg, fun hpos => ⟨hnew, (max_eq_right hle).symm, ⟨howns hg, hg.mapped h.mapped le_rfl,
        fun va e hva he => ?_, h.kernel.sameUpper hcall.upper, hnew.le⟩,
        fun va hva => ?_, fun va h1 h2 => ?_⟩⟩
      · rcases Nat.lt_or_ge va (pgRoundUp sz) with hlt | hge
        · exact h.flags va e hva ((image_eq hva (hg.old va hlt)).1 ▸ he)
        · have hin := (hg.mapped h.mapped le_rfl va hva).1 (by rw [he]; rfl)
          obtain ⟨e', he', hflags, -⟩ := hcall.new hnew hle rfl hpos va hge hin
          rw [show pd'.get va = some e' from he'] at he
          cases he
          exact hflags
      · rw [PageDir.byte, PageDir.byte, hg.old va hva]
      · obtain ⟨e, he⟩ := hg.new va h1 h2
        rw [PageDir.byte, he, Option.map_some]
  · unfold Phys.allocuvm
    split
    · exact .pure ⟨h.toOwns, fun hpos => absurd hpos (lt_irrefl 0)⟩
    · rename_i hnew
      rw [if_pos (by omega)]
      exact .pure ⟨h.toOwns, fun _ => ⟨by omega, (max_eq_left (by omega)).symm, h, fun _ _ => rfl,
        fun va h1 h2 => absurd h1 (Nat.not_le.2 h2)⟩⟩

/-! ### Writing -/

theorem write (h : Space L k₀ ram₀ sz pd s) (hram : ∀ f, pd.count f = 0 → ram' f = s.ram f) :
    Space L k₀ ram₀ sz pd ⟨s.kmem, ram'⟩ := ⟨h.toOwns.write hram, h.mapped, h.flags, h.kernel, h.size⟩

end Space

theorem byte_writePage (ram : Ram) {a : Nat} {bs : List UInt8} (honce : ∀ f, pd.count f ≤ 1) (ha : a % PGSIZE = 0)
    (hlt : a < KERNBASE) (he : pd.get a = some e) (hlen : bs.length ≤ PGSIZE) (va : Nat) :
    pd.byte (update ram e.page fun j => bs.getD j (ram e.page j)) va =
      if a ≤ va ∧ va < a + bs.length then some (bs.getD (va - a) 0) else pd.byte ram va := by
  simp only [KERNBASE, PGSIZE] at ha hlt hlen
  rcases Nat.lt_or_ge va KERNBASE with hva | hva
  · have hsame := @samePage_iff va a (by simp only [KERNBASE] at hva; omega) (by omega)
    simp only [PGSIZE] at hsame
    rcases hget : pd.get va with _ | e'
    · have hout : ¬ (a ≤ va ∧ va < a + bs.length) := fun hin => by
        rw [PageDir.get_samePage (hsame.2 (by omega)), he] at hget
        cases hget
      rw [if_neg hout, PageDir.byte, PageDir.byte, image, image, hget]
      rfl
    · rw [PageDir.byte_of_get hva hget, PageDir.byte_of_get hva hget]
      by_cases hpage : e'.page = e.page
      · have hs := hsame.1 (PageDir.samePage_of_count hlt hva he hget hpage.symm (honce _))
        have hoff : (offset va).val = va - a := by
          simp only [offset, PGSIZE]
          omega
        rw [hpage, update_self, hoff]
        split
        · rename_i hin
          rw [List.getD_eq_getElem _ _ (by omega), List.getD_eq_getElem _ _ (by omega)]
        · rename_i hout
          rw [List.getD_eq_default _ _ (by omega)]
      · have hout : ¬ (a ≤ va ∧ va < a + bs.length) := fun hin => hpage (by
          rw [PageDir.get_samePage (hsame.2 (by omega)), he] at hget
          cases hget
          rfl)
        rw [if_neg hout, update_of_ne hpage]
  · have hout : ¬ (a ≤ va ∧ va < a + bs.length) := by
      simp only [KERNBASE] at hva
      omega
    rw [if_neg hout, PageDir.byte, PageDir.byte, image, image, if_neg (by omega), if_neg (by omega)]

/-! ### `loaduvm` -/

section Load

variable {rd : Nat → Nat → List UInt8} {addr off n i j : Nat}

/-- How many bytes of a segment of `n` bytes are in the page of byte `j`. -/
def pageLen (n j : Nat) : Nat := if n - pgRoundDown j < PGSIZE then n - pgRoundDown j else PGSIZE

/-- Byte `j` of a segment that is read from `off` on, page by page. -/
def segByte (rd : Nat → Nat → List UInt8) (off n j : Nat) : UInt8 :=
  (rd ((off + pgRoundDown j) % 2 ^ 32) (pageLen n j)).getD (j % PGSIZE) 0

def FullyRead (rd : Nat → Nat → List UInt8) (off n : Nat) : Prop :=
  ∀ j, j < n → pageLen n j ≤ (rd ((off + pgRoundDown j) % 2 ^ 32) (pageLen n j)).length

theorem pgRoundDown_of_lt (hi : i % PGSIZE = 0) (h₁ : i ≤ j) (h₂ : j < i + PGSIZE) : pgRoundDown j = i := by
  simp only [pgRoundDown, PGSIZE] at *
  omega

theorem Space.loadRounds (hk : Fresh L k₀ old) (hle : addr + n ≤ sz) (haddr : addr % PGSIZE = 0) (m : Nat)
    (h : Space L k₀ ram₀ sz pd s) (hi : i % PGSIZE = 0) (hm : n ≤ i + m * PGSIZE) :
    Meets (Phys.loadRounds rd pd addr off n (m + 1) i) s (fun ok s' => Space L k₀ ram₀ sz pd s' ∧
      (∀ va, va < addr + i ∨ addr + n ≤ va → pd.byte s'.ram va = pd.byte s.ram va) ∧
      (ok = true → ∀ j, i ≤ j → j < n → pd.byte s'.ram (addr + j) = some (segByte rd off n j) ∧
        pageLen n j ≤ (rd ((off + pgRoundDown j) % 2 ^ 32) (pageLen n j)).length)) fun _ _ => False := by
  induction m generalizing s i with
  | zero =>
    rw [Phys.loadRounds, if_neg (by omega)]
    exact .pure ⟨h, fun _ _ => rfl, fun _ j h1 h2 => by omega⟩
  | succ m ih =>
    rw [Phys.loadRounds]
    split
    · rename_i hlt
      have hup := pgRoundUp_eq sz h.size
      have hsz := h.size
      have hlow : addr + i < KERNBASE := by omega
      have hva : (addr + i) % 2 ^ 32 = addr + i := Nat.mod_eq_of_lt (by simp only [KERNBASE] at hlow; omega)
      obtain ⟨e, he⟩ := Option.isSome_iff_exists.1 ((h.mapped (addr + i) hlow).2 (by omega))
      obtain ⟨pgtab, hpde, hpte⟩ := Option.bind_eq_some_iff.1 he
      rw [hva, hpde]
      dsimp only
      rw [hpte, Option.map_some, Option.getD_some]
      have hlen : (if n - i < PGSIZE then n - i else PGSIZE) = pageLen n i := by
        rw [pageLen, pgRoundDown_of_lt hi le_rfl (by simp only [PGSIZE]; omega)]
      have hpos : 0 < pageLen n i ∧ pageLen n i ≤ PGSIZE ∧ i + pageLen n i ≤ n ∧
          (i + pageLen n i = n ∨ pageLen n i = PGSIZE) := by
        rw [← hlen]
        generalize hg : (if n - i < PGSIZE then n - i else PGSIZE) = len
        simp only [PGSIZE] at hg ⊢
        split at hg <;> omega
      rw [hlen]
      obtain ⟨bs, hbs⟩ : ∃ bs, bs = (rd ((off + i) % 2 ^ 32) (pageLen n i)).take (pageLen n i) := ⟨_, rfl⟩
      rw [← hbs]
      have hshort : bs.length ≤ pageLen n i := by
        rw [hbs, List.length_take]
        exact Nat.min_le_left _ _
      refine .modify_bind ?_
      have halign : (addr + i) % PGSIZE = 0 := by
        simp only [PGSIZE] at haddr hi ⊢
        omega
      have hbyte := byte_writePage s.ram (h.once hk) halign hlow he (hshort.trans hpos.2.1)
      have h1 : Space L k₀ ram₀ sz pd ⟨s.kmem, update s.ram e.page fun j => bs.getD j (s.ram e.page j)⟩ := by
        refine h.write fun f hzero => update_of_ne ?_ _ _
        rintro rfl
        exact absurd hzero (PageDir.count_get hlow he).ne'
      split
      · refine .pure ⟨h1, fun va hout => ?_, fun hc => absurd hc Bool.false_ne_true⟩
        exact (hbyte va).trans (if_neg (by omega))
      · rename_i hfull
        have hfull : bs.length = pageLen n i := not_not.1 hfull
        have hnext : (i + PGSIZE) % 2 ^ 32 = i + PGSIZE := Nat.mod_eq_of_lt (by
          simp only [KERNBASE, PGSIZE] at hlow ⊢
          omega)
        rw [hnext]
        refine (ih h1 (by rw [Nat.add_mod_right, hi]) (by simp only [PGSIZE] at hm ⊢; omega)).mono ?_ fun _ _ => id
        rintro ok s' ⟨h2, hsame, hnew⟩
        refine ⟨h2, fun va hout => ?_, fun hok j h3 h4 => ?_⟩
        · rw [hsame va (by omega), hbyte va, if_neg (by omega)]
        · rcases Nat.lt_or_ge j (i + PGSIZE) with hin | hout
          · have hdown := pgRoundDown_of_lt hi h3 hin
            have hsamelen : pageLen n j = pageLen n i := by
              rw [pageLen, hdown, ← hlen]
            have hmod : j % PGSIZE = j - i := by
              simp only [PGSIZE] at hi hin ⊢
              omega
            have hjl : j - i < pageLen n i := by
              rcases hpos.2.2.2 with hc | hc <;> omega
            have hle' : pageLen n i ≤ (rd ((off + i) % 2 ^ 32) (pageLen n i)).length := by
              rw [hbs, List.length_take] at hfull
              omega
            rw [hsame (addr + j) (by omega), hbyte (addr + j), if_pos (by omega), segByte, hdown, hsamelen, hmod, hbs,
              show addr + j - (addr + i) = j - i by omega]
            refine ⟨congrArg some ?_, hle'⟩
            rw [List.getD_eq_getElem _ _ (by rw [List.length_take]; omega), List.getElem_take,
              List.getD_eq_getElem _ _ (by omega)]
          · exact hnew hok j hout h4
    · exact .pure ⟨h, fun _ _ => rfl, fun _ j h1 h2 => by omega⟩

theorem Space.loaduvm (rd : Nat → Nat → List UInt8) (off : Nat) (hk : Fresh L k₀ old) (hle : addr + n ≤ sz)
    (haddr : addr % PGSIZE = 0) (h : Space L k₀ ram₀ sz pd s) :
    Meets (Phys.loaduvm rd pd addr off n) s (fun ok s' => Space L k₀ ram₀ sz pd s' ∧
      (∀ va, va < addr ∨ addr + n ≤ va → pd.byte s'.ram va = pd.byte s.ram va) ∧
      (ok = true → (∀ j, j < n → pd.byte s'.ram (addr + j) = some (segByte rd off n j)) ∧ FullyRead rd off n))
      fun _ _ => False := by
  obtain ⟨m, hm, hmax⟩ := exists_maxRounds
  have hsz := h.size
  unfold Phys.loaduvm
  rw [if_neg (not_not.2 haddr), hm]
  refine (h.loadRounds hk hle haddr m (i := 0) (by decide) (by omega)).mono ?_ fun _ _ => id
  rintro ok s' ⟨h1, hsame, hnew⟩
  exact ⟨h1, hsame, fun hok =>
    ⟨fun j hj => (hnew hok j (Nat.zero_le j) hj).1, fun j hj => (hnew hok j (Nat.zero_le j) hj).2⟩⟩

end Load

end Xv6.Vm
