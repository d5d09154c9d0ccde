import Xv6.NewSpace

/-!
# The stack page of a new program

The last page of user memory is the stack of a new program, and user programs have no access to the page
below it (`StackDir`). What `copyout` stores below the stack pointer without touching that page is in the
stack page (`StackDir.fits`): a buffer that ends at the stack pointer cannot step over the guard page, and
one that is too long for the address space wraps around to the kernel.
-/

namespace Xv6.Vm

open Exec Function

variable {L : Layout} {k₀ : Kmem} {ram₀ ram₁ ram ram' : Ram} {old pd pd' : PageDir} {s s' : Phys} {sz sp va n : Nat}
  {buf : List UInt8} {objs : List (Nat × List UInt8)}

theorem load_eq_byteAt (hva : va < KERNBASE) : load pd ram va = (pd.byteAt va).map fun x => ram x.1 x.2 := by
  have hmod : va % 2 ^ 32 = va := Nat.mod_eq_of_lt (by simp only [KERNBASE] at hva; omega)
  rw [load, userPte, if_pos hva, PageDir.byteAt, hmod, PageDir.userPage]
  rcases pd.get va with _ | e
  · rfl
  · by_cases hu : e.flags &&& PTE_U = 0 <;> simp [Option.filter, hu]

theorem load_of_ge (hva : KERNBASE ≤ va) : load pd ram va = none := by
  rw [load, userPte, if_neg (by omega)]
  rfl

theorem PageDir.get_of_byteAt {x : Nat × Fin PGSIZE} (hva : va < KERNBASE) (h : pd.byteAt va = some x) :
    ∃ e, pd.get va = some e ∧ e.page = x.1 ∧ offset va = x.2 := by
  have hmod : va % 2 ^ 32 = va := Nat.mod_eq_of_lt (by simp only [KERNBASE] at hva; omega)
  rw [byteAt, hmod] at h
  obtain ⟨page, hpage, rfl⟩ := Option.map_eq_some_iff.1 h
  obtain ⟨e, he, hu⟩ := Option.bind_eq_some_iff.1 hpage
  split at hu
  · cases hu
  · cases hu
    exact ⟨e, he, rfl, rfl⟩

theorem PageDir.byteAt_inj {va' : Nat} {x : Nat × Fin PGSIZE} (honce : ∀ f, pd.count f ≤ 1) (hva : va < KERNBASE)
    (hva' : va' < KERNBASE) (h : pd.byteAt va = some x) (h' : pd.byteAt va' = some x) : va = va' := by
  obtain ⟨e, he, hpage, hoff⟩ := get_of_byteAt hva h
  obtain ⟨e', he', hpage', hoff'⟩ := get_of_byteAt hva' h'
  have hs := samePage_of_count hva hva' he he' (hpage.trans hpage'.symm) (honce _)
  simp only [KERNBASE] at hva hva'
  have hdiv := (samePage_iff (by omega) (by omega)).1 hs
  have hmod : va % PGSIZE = va' % PGSIZE := congrArg Fin.val (hoff.trans hoff'.symm)
  simp only [PGSIZE] at hdiv hmod
  omega

theorem PageDir.userPage_of_get {e : Pte} (h : pd.get va = some e) :
    pd.userPage va = if e.flags &&& PTE_U = 0 then none else some e.page := by
  rw [userPage, h, Option.bind_some]

/-! ### The guard page -/

/-- A page directory of `sz` bytes of user memory, with the guard page below the stack page. -/
structure StackDir (pd : PageDir) (sz : Nat) : Prop where
  align : sz % PGSIZE = 0
  room : 2 * PGSIZE ≤ sz
  low : sz < KERNBASE
  mapped : MappedTo pd sz
  user : ∀ va, va < 2 ^ 32 →
    ((pd.userPage va).isSome = true ↔ va < sz ∧ ¬ (sz - 2 * PGSIZE ≤ va ∧ va < sz - PGSIZE))
  once : ∀ f, pd.count f ≤ 1

theorem clearpteu_get {uva : Nat} (k : Kmem) (htab : (pd.pde (PDX uva)).isSome = true) :
    clearpteu pd uva k =
      (.ok (pd.set uva ((pd.get uva).map fun e => { e with flags := e.flags &&& (2 ^ 12 - 1 - PTE_U) })), k) := by
  unfold clearpteu
  rw [bind_of_ok (walkpgdir_run false htab)]
  rfl

section Guard

variable {g : Pte} (h : Space L k₀ ram₀ sz pd s) (hlow : sz < KERNBASE)
  (hget : ∀ va, va < 2 ^ 32 →
    pd'.get va = if sz - 2 * PGSIZE ≤ va ∧ va < sz - PGSIZE then some g else pd.get va)

include h hlow hget

theorem Space.stackDir (halign : sz % PGSIZE = 0) (hroom : 2 * PGSIZE ≤ sz) (hg : g.flags &&& PTE_U = 0)
    (honce : ∀ f, pd'.count f ≤ 1) : StackDir pd' sz := by
  have hup : pgRoundUp sz = sz := by
    simp only [pgRoundUp, PGSIZE, KERNBASE] at halign hlow ⊢
    omega
  refine ⟨halign, hroom, hlow, fun va hva => ?_, fun va hva => ?_, honce⟩
  · rw [hget va (by simp only [KERNBASE] at hva; omega), ← h.mapped va hva]
    split
    · rename_i hin
      rw [h.mapped va hva, hup]
      exact iff_of_true rfl (by omega)
    · exact Iff.rfl
  · by_cases hin : sz - 2 * PGSIZE ≤ va ∧ va < sz - PGSIZE
    · rw [PageDir.userPage_of_get (by rw [hget va hva, if_pos hin]), if_pos hg]
      exact iff_of_false (by simp) fun hc => hc.2 hin
    · have hsame : pd'.userPage va = pd.userPage va := by
        rw [PageDir.userPage, PageDir.userPage, hget va hva, if_neg hin]
      rw [hsame, and_iff_left hin]
      rcases hentry : pd.get va with _ | e
      · rw [PageDir.userPage, hentry]
        refine iff_of_false (by simp) fun hlt => ?_
        have := (h.mapped va (hlt.trans hlow)).2 (by omega)
        rw [hentry] at this
        cases this
      · rw [PageDir.userPage_of_get hentry]
        rcases Nat.lt_or_ge va KERNBASE with hva' | hva'
        · rw [h.flags va e hva' hentry]
          exact iff_of_true rfl (hup ▸ (h.mapped va hva').1 (by rw [hentry]; rfl))
        · have hsup := h.kernel.supervisor va (e.page * PGSIZE + va % PGSIZE, e.flags) hva' hva
            (by rw [translate, hentry]; rfl)
          rw [if_pos hsup]
          exact iff_of_false (by simp) (by omega)

theorem Space.load_guarded (hva : va < sz - 2 * PGSIZE) (hram : ∀ f, 0 < pd.count f → ram' f = s.ram f) :
    load pd' ram' va = pd.byte s.ram va := by
  have hup := (pgRoundUp_eq sz h.size).2.2
  have hva' : va < KERNBASE := by omega
  obtain ⟨e, he⟩ := Option.isSome_iff_exists.1 ((h.mapped va hva').2 (by omega))
  have hflag : e.flags &&& PTE_U ≠ 0 := by
    rw [h.flags va e hva' he]
    decide
  have hpte : userPte pd' va = some e := by
    rw [userPte, if_pos hva', hget va (by simp only [KERNBASE] at hva'; omega), if_neg (by omega), he]
    exact Option.filter_eq_some_iff.2 ⟨rfl, decide_eq_true hflag⟩
  rw [load, hpte, Option.map_some, PageDir.byte_of_get hva' he, hram e.page (PageDir.count_get hva' he)]

end Guard

theorem Space.clearpteu (hk : Fresh L k₀ old) (h : Space L k₀ ram₀ sz pd s) (halign : sz % PGSIZE = 0)
    (hroom : 2 * PGSIZE ≤ sz) (hlow : sz < KERNBASE) :
    Meets (onRam (clearpteu pd (sub32 sz (2 * PGSIZE)))) s (fun pd' s' => Owns k₀ ram₀ pd' s' ∧ StackDir pd' sz ∧
      ∀ va, va < sz - 2 * PGSIZE → load pd' s'.ram va = pd.byte s.ram va) fun _ _ => False := by
  have huva : sub32 sz (2 * PGSIZE) = sz - 2 * PGSIZE := by
    simp only [sub32, PGSIZE, KERNBASE] at hroom hlow ⊢
    omega
  have hguard : sz - 2 * PGSIZE < KERNBASE := by omega
  have hup := (pgRoundUp_eq sz h.size).2.2
  obtain ⟨e, he⟩ := Option.isSome_iff_exists.1 ((h.mapped _ hguard).2 (by simp only [PGSIZE] at *; omega))
  have htab := PageDir.isSome_of_get he
  have hflags : e.flags &&& (2 ^ 12 - 1 - PTE_U) &&& PTE_U = 0 := by
    rw [h.flags _ e hguard he]
    decide
  have hrun := clearpteu_get s.kmem htab
  rw [he, Option.map_some] at hrun
  have hget : ∀ g va, va < 2 ^ 32 → (pd.set (sz - 2 * PGSIZE) (some g)).get va =
      if sz - 2 * PGSIZE ≤ va ∧ va < sz - PGSIZE then some g else pd.get va := fun g va hva => by
    have hsame := @samePage_iff va (sz - 2 * PGSIZE) hva (by simp only [KERNBASE] at hguard; omega)
    simp only [PGSIZE] at halign hroom hsame ⊢
    split
    · exact PageDir.get_set htab (hsame.2 (by omega))
    · exact PageDir.get_set_of_ne fun hs => by have := hsame.1 hs; omega
  rw [huva]
  obtain ⟨pd', hpd'⟩ : ∃ pd',
      pd' = pd.set (sz - 2 * PGSIZE) (some { e with flags := e.flags &&& (2 ^ 12 - 1 - PTE_U) }) :=
    ⟨_, rfl⟩
  rw [← hpd'] at hrun
  have hends : Meets (Vm.clearpteu pd (sz - 2 * PGSIZE)) s.kmem (fun r k => r = pd' ∧ k = s.kmem) fun _ _ => False :=
    .of_ok hrun ⟨rfl, rfl⟩
  refine (onRam_meets hends fun _ _ => id).mono ?_ fun _ _ => id
  rintro r s' ⟨⟨hr, hkmem⟩, hram⟩
  rw [hkmem] at hram
  rw [hr]
  have hcount : ∀ f, Keeps f s.kmem (pd.count f) s.kmem (pd'.count f) := (clearpteu_ends s.kmem pd _ _ _ hrun).1
  have howns : Owns k₀ ram₀ pd' s' := by
    refine ⟨fun f => ?_, fun f hzero => ?_⟩ <;> have h1 := (hcount f).1 <;> have h2 := h.pages f
    · rw [hkmem]
      omega
    · exact (hram f (by omega)).trans (h.kept f hzero)
  have hget' := hpd' ▸ hget _
  refine ⟨howns, h.stackDir hlow hget' halign hroom hflags (howns.once hk), fun va hva => ?_⟩
  refine h.load_guarded hlow hget' hva fun f hpos => hram f ?_
  have := (h.fresh hk).once f
  omega

/-! ### What `copyout` stores -/

def Wrote (pd : PageDir) (va : Nat) (buf : List UInt8) (ram : Ram) (r : Int) (ram' : Ram) : Prop :=
  r = 0 ∧ pd.Covers va buf.length ∧ Written pd va buf ram ram' ∨
  r = -1 ∧ ∀ page off, ram' page off ≠ ram page off → ∃ a, a < 2 ^ 32 ∧ pd.byteAt a = some (page, off)

theorem CopiedOut.wrote {r : Int} (h : CopiedOut pd va buf ram r ram') : Wrote pd va buf ram r ram' :=
  h.imp id fun h => ⟨h.1, h.2.2⟩

theorem copyout_wrote (pd : PageDir) (va : Nat) (buf : List UInt8) (ram : Ram) :
    Meets (copyout pd va buf) ram (Wrote pd va buf ram) fun _ _ => True := by
  obtain ⟨m, hm, ⟨rfl, hrun⟩ | ⟨-, -, hrun⟩⟩ := copyout_run pd va buf ram
  · refine .of_ok hrun (.inl ⟨rfl, fun i hi => ?_, written_storeAll pd va buf ram⟩)
    rw [PageDir.userPage_mod]
    exact (PageDir.isSome_of_kernPage (hm i hi)).1
  · split at hrun
    · exact .of_ok hrun (.inr ⟨rfl, fun page off hne => storeAll_changed hne⟩)
    · exact .of_error hrun trivial

namespace StackDir

variable (h : StackDir pd sz)

include h

theorem count_byteAt {a page : Nat} {off : Fin PGSIZE} (hat : pd.byteAt a = some (page, off)) : 0 < pd.count page := by
  have hlt : a % 2 ^ 32 < 2 ^ 32 := Nat.mod_lt _ (by decide)
  rw [← PageDir.byteAt_mod] at hat
  have hsome : (pd.userPage (a % 2 ^ 32)).isSome = true := by
    rw [PageDir.byteAt, Nat.mod_mod] at hat
    obtain ⟨p, hp, -⟩ := Option.map_eq_some_iff.1 hat
    rw [hp]
    rfl
  have hin := ((h.user _ hlt).1 hsome).1
  have hlow := h.low
  obtain ⟨e, he, hpage, -⟩ := PageDir.get_of_byteAt (hin.trans hlow) hat
  rw [← show e.page = page from hpage]
  exact PageDir.count_get (hin.trans hlow) he

theorem owns {va : Nat} {r : Int} (ho : Owns k₀ ram₀ pd s) (hw : Wrote pd va buf s.ram r ram') :
    Owns k₀ ram₀ pd ⟨s.kmem, ram'⟩ := by
  refine ho.write fun f hzero => funext fun off => ?_
  have hno : ∀ a, pd.byteAt a ≠ some (f, off) := fun a hat => absurd hzero (h.count_byteAt hat).ne'
  rcases hw with ⟨-, -, hw⟩ | ⟨-, hw⟩
  · exact hw.rest f off fun i _ => hno _
  · by_contra hne
    obtain ⟨a, -, hat⟩ := hw f off hne
    exact hno a hat

theorem fits (hlo : sz - PGSIZE ≤ sp) (hhi : sp ≤ sz) (hal : sp % 4 = 0) (hn : 0 < n)
    (hcov : pd.Covers (sub32 sp n / 4 * 4) n) :
    sz - PGSIZE ≤ sub32 sp n / 4 * 4 ∧ sub32 sp n / 4 * 4 + n ≤ sp := by
  have halign := h.align
  have hroom := h.room
  have hlow := h.low
  simp only [PGSIZE, KERNBASE] at halign hroom hlow hlo ⊢
  obtain ⟨a, ha⟩ : ∃ a, a = sub32 sp n / 4 * 4 := ⟨_, rfl⟩
  rw [← ha] at hcov ⊢
  have huser : ∀ i, i < n → (a + i) % 2 ^ 32 < sz ∧
      ¬ (sz - 2 * 4096 ≤ (a + i) % 2 ^ 32 ∧ (a + i) % 2 ^ 32 < sz - 4096) :=
    fun i hi => (h.user _ (Nat.mod_lt _ (by decide))).1 (hcov i hi)
  simp only [sub32] at ha
  rcases Nat.lt_or_ge sp n with hlt | hge
  · exfalso
    rcases Nat.lt_or_ge n (2 ^ 32) with hn' | hn'
    · -- The buffer wraps around, and the last address is one of its own.
      have := (huser (2 ^ 32 - 1 - a) (by omega)).1
      omega
    · have := (huser ((0x80000000 + 2 ^ 32 - a) % 2 ^ 32) (by omega)).1
      omega
  · have hend : a + n ≤ sp ∧ sp < a + n + 4 := by omega
    refine ⟨?_, hend.1⟩
    by_contra hout
    have hlast := huser (min (n - 1) (sz - 4096 - 1 - a)) (by omega)
    omega

theorem load_written {a : Nat} (hw : Written pd a buf ram ram') (hlo : sz - PGSIZE ≤ a) (hhi : a + buf.length ≤ sz)
    (va : Nat) : load pd ram' va = if a ≤ va ∧ va < a + buf.length then buf[va - a]? else load pd ram va := by
  have hlow := h.low
  rcases Nat.lt_or_ge va KERNBASE with hva | hva
  · rw [load_eq_byteAt hva, load_eq_byteAt hva]
    have hinj : ∀ i x, i < buf.length → pd.byteAt (a + i) = some x → pd.byteAt va = some x → va = a + i :=
      fun i x hi hx hx' => PageDir.byteAt_inj h.once hva (by omega) hx' hx
    split
    · rename_i hin
      have huser := (h.user va (by simp only [KERNBASE] at hva; omega)).2 (by simp only [PGSIZE] at *; omega)
      obtain ⟨page, hpage⟩ := Option.isSome_iff_exists.1 huser
      have hat : pd.byteAt va = some (page, offset va) := by
        rw [PageDir.byteAt, PageDir.userPage_mod, hpage, Option.map_some]
      have hva' : a + (va - a) = va := by omega
      rw [hat, Option.map_some, List.getElem?_eq_getElem (by omega : va - a < buf.length)]
      refine congrArg some (hw.bytes (va - a) page (offset va) (by omega) (by rw [hva', hat]) fun j h1 h2 hx => ?_)
      have := hinj j _ h2 hx hat
      omega
    · rename_i hout
      rcases hat : pd.byteAt va with _ | ⟨page, off⟩
      · rfl
      · rw [Option.map_some, Option.map_some]
        refine congrArg some (hw.rest page off fun i hi hx => hout ?_)
        have := hinj i _ hi hx hat
        omega
  · rw [load_of_ge hva, load_of_ge hva, if_neg (by omega)]

end StackDir

/-! ### Pushing objects -/

/-- The object's bytes are in user memory at its address. -/
def Stored (pd : PageDir) (ram : Ram) (o : Nat × List UInt8) : Prop :=
  ∀ j, j < o.2.length → load pd ram (o.1 + j) = o.2[j]?

/-- The objects lie one below the other between the stack pointer and the end of the stack page. -/
structure Pushed (pd : PageDir) (sz : Nat) (ram₁ : Ram) (sp : Nat) (objs : List (Nat × List UInt8)) (ram : Ram) :
    Prop where
  lo : sz - PGSIZE ≤ sp
  hi : sp ≤ sz
  align : sp % 4 = 0
  stored : ∀ o ∈ objs, Stored pd ram o
  within : ∀ o ∈ objs, sp ≤ o.1 ∧ o.1 + o.2.length ≤ sz ∧ o.1 % 4 = 0
  apart : objs.Pairwise fun o o' => o'.1 + o'.2.length ≤ o.1
  below : ∀ va, va < sz - PGSIZE → load pd ram va = load pd ram₁ va

theorem StackDir.empty (h : StackDir pd sz) : Pushed pd sz ram sz [] ram := by
  have halign := h.align
  simp only [PGSIZE] at halign
  exact ⟨Nat.sub_le _ _, le_rfl, by omega, nofun, nofun, .nil, fun _ _ => rfl⟩

theorem Pushed.push (h : StackDir pd sz) (hp : Pushed pd sz ram₁ sp objs ram) (hne : buf ≠ [])
    (hcov : pd.Covers (sub32 sp buf.length / 4 * 4) buf.length)
    (hw : Written pd (sub32 sp buf.length / 4 * 4) buf ram ram') :
    Pushed pd sz ram₁ (sub32 sp buf.length / 4 * 4) (objs ++ [(sub32 sp buf.length / 4 * 4, buf)]) ram' := by
  obtain ⟨hlo, hhi⟩ := h.fits hp.lo hp.hi hp.align (List.length_pos_iff.2 hne) hcov
  have hal : sub32 sp buf.length / 4 * 4 % 4 = 0 := Nat.mul_mod_left _ 4
  generalize sub32 sp buf.length / 4 * 4 = a at hcov hw hlo hhi hal ⊢
  have htop := hp.hi
  have hload := h.load_written hw hlo (hhi.trans htop)
  refine ⟨hlo, by omega, hal, fun o ho => ?_, fun o ho => ?_, ?_, fun va hva => ?_⟩
  · rcases List.mem_append.1 ho with ho | ho
    · intro j hj
      have hin := hp.within o ho
      rw [hload, if_neg (by omega)]
      exact hp.stored o ho j hj
    · obtain rfl := List.mem_singleton.1 ho
      intro j hj
      dsimp only at hj ⊢
      rw [hload, if_pos (by omega), Nat.add_sub_cancel_left]
  · rcases List.mem_append.1 ho with ho | ho
    · have hin := hp.within o ho
      exact ⟨by omega, hin.2⟩
    · obtain rfl := List.mem_singleton.1 ho
      exact ⟨le_rfl, hhi.trans htop, hal⟩
  · refine List.pairwise_append.2 ⟨hp.apart, List.pairwise_singleton _ _, fun o ho o' ho' => ?_⟩
    obtain rfl := List.mem_singleton.1 ho'
    exact hhi.trans (hp.within o ho).1
  · rw [hload, if_neg (by omega)]
    exact hp.below va hva

end Xv6.Vm
