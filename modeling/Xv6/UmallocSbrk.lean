import Xv6.SbrkExact
import Xv6.UmallocRun

/-!
# `malloc` over the `sbrk` of the kernel

`morecore` passes a number of bytes to `sbrk`, which takes it as an `int`: from `2 ^ 31` on it is negative,
and the process gives memory back. `kernelSbrk` is the call as the program sees it; `kernelSbrk_backed`
compares it with `sys_sbrk` over the page directory of the process.

Up to `maxRequest` bytes `malloc` is right. Beyond it is not: the number of units wraps around to 1, or the
argument of `sbrk` is not positive and the header is written behind the end of the process, or its memory
is gone.
-/

namespace Xv6.Umalloc

open Function Exec
open Vm (pgRoundUp PGSIZE)

/-- `sys_sbrk` and `growproc` of a process that has memory. Whether `allocuvm` finds the pages is left open. -/
def kernelSbrk (grants : St → Nat → Bool) (n : Nat) : M (Option Nat) := fun s =>
  if n = 0 then (.ok (some s.sz), s)
  else if n < 2 ^ 31 then
    if s.sz + n < Vm.KERNBASE ∧ grants s n = true then
      (.ok (some s.sz), { s with
        sz := s.sz + n, mapped := max s.mapped (pgRoundUp (s.sz + n)), got := (s.sz, n / 8) :: s.got })
    else (.ok none, { s with refused := s.refused + 1 })
  else
    let newsz := (s.sz + n) % 2 ^ 32
    if s.sz ≤ newsz then (.ok (some s.sz), s)
    -- The pages are gone before `growproc` takes the size 0 for a failure.
    else if newsz = 0 then (.ok none, { s with mapped := 0, refused := s.refused + 1 })
    else (.ok (some s.sz), { s with sz := newsz, mapped := pgRoundUp newsz })

variable {base : Nat} {s : St} {n : Nat} {grants : St → Nat → Bool}

theorem kernelSbrk_fresh (grants : St → Nat → Bool) : Fresh (kernelSbrk grants) := fun n s hpos hlt hmap => by
  rw [kernelSbrk, if_neg hpos.ne', if_pos hlt]
  split
  · rename_i h
    have hup := (Vm.pgRoundUp_eq _ h.1.le).2.2
    have hbound : s.sz + n < 2 ^ 32 := h.1.trans (by decide)
    exact .inr ⟨s.sz, _, le_rfl, hbound, le_max_of_le_right hup, le_max_left _ _, rfl⟩
  · exact .inl rfl

/-! ### The system call -/

section Backed

open Vm

/-- The size and the mapped memory of the process are those of its page directory. -/
structure Backed (s : St) (sz : Nat) (pd : PageDir) : Prop where
  sz : sz = s.sz
  mapped : ∀ va, va < Vm.KERNBASE → ((pd.get va).isSome = true ↔ va < s.mapped)

def signed (n : Nat) : Int := if n < 2 ^ 31 then n else n - 2 ^ 32

def result : Option Nat → Int
  | none => -1
  | some p => p

variable {L : Layout} {k : Kmem} {pd pd' : PageDir} {ram ram' : Ram}

theorem Backed.congr (hb : Backed s s.sz pd) (h : image pd' ram' = image pd ram) : Backed s s.sz pd' := by
  refine ⟨rfl, fun va hva => ?_⟩
  have hsame := congrArg Option.isSome (congrFun h va)
  rw [image, image, if_pos hva, if_pos hva, Option.isSome_map, Option.isSome_map] at hsame
  rw [hsame, hb.mapped va hva]

theorem Phys.sbrk_refused {sz : Nat} (hpos : 0 < n) (hlt : n < 2 ^ 31) (hsz : sz ≤ Vm.KERNBASE)
    (hbig : Vm.KERNBASE ≤ sz + n) (q : Phys) : Phys.sbrk L pd sz n q = (.ok (-1, sz, pd), q) := by
  have hnew : (((sz : Int) + n) % 2 ^ 32).toNat = sz + n := by
    simp only [Vm.KERNBASE] at hsz
    omega
  have halloc : Phys.allocuvm L pd sz (sz + n) q = (.ok (0, pd), q) := by
    rw [Phys.allocuvm, if_pos hbig]
    rfl
  unfold Phys.sbrk Phys.growproc
  rw [if_pos (Int.natCast_pos.2 hpos), hnew, bind_of_ok halloc]
  dsimp only
  rw [if_pos ⟨by omega, rfl⟩]
  rfl

/-- A call from a program goes as `kernelSbrk` says, if that is told whether there were pages. -/
theorem kernelSbrk_backed (hf : Vm.Fresh L k pd) (hm : Managed L k pd) (hlow : s.sz < Vm.KERNBASE) (hpos : 0 < s.sz)
    (hmap : s.mapped = pgRoundUp s.sz) (hpd : MappedTo pd s.sz) (hn : n < 2 ^ 32) (ram : Ram) :
    ∃ x q, Phys.sbrk L pd s.sz (signed n) ⟨k, ram⟩ = (.ok x, q) ∧ ∃ ok r s',
      kernelSbrk (fun _ _ => ok) n s = (.ok r, s') ∧ x.1 = result r ∧ Backed s' x.2.1 x.2.2 := by
  have hb : Backed s s.sz pd := ⟨rfl, fun va hva => by rw [hpd va hva, hmap]⟩
  have hsz := hlow.le
  unfold kernelSbrk
  rcases Nat.lt_or_ge n (2 ^ 31) with hlt | hge
  · rw [signed, if_pos hlt]
    rcases Nat.lt_or_ge (s.sz + n) Vm.KERNBASE with hroom | hbig
    · obtain ⟨x, q, hrun, hx⟩ := (sbrk_up hf hm hsz hpd (Int.natCast_nonneg n) (by omega) ram).total fun _ _ => id
      refine ⟨x, q, hrun, ?_⟩
      rcases hx with hx | hx
      · have hsize : x.2.1 = s.sz + n := by
          have := hx.size
          omega
        have hmapped := hx.mapped
        rw [hsize] at hmapped ⊢
        by_cases hzero : n = 0
        · subst hzero
          exact ⟨true, _, _, if_pos rfl, hx.ret, rfl, fun va hva => by rw [hmapped va hva, hmap]; rfl⟩
        · refine ⟨true, _, _, (if_neg hzero).trans ((if_pos hlt).trans (if_pos ⟨hroom, rfl⟩)), hx.ret, rfl,
            fun va hva => ?_⟩
          have hle : pgRoundUp s.sz ≤ pgRoundUp (s.sz + n) := by
            simp only [pgRoundUp, PGSIZE, Vm.KERNBASE] at hroom ⊢
            omega
          rw [hmapped va hva, hmap, max_eq_right hle]
      · have hne : n ≠ 0 := fun hzero => by
          subst hzero
          have hret := hx.ret
          have hsame : Phys.sbrk L pd s.sz ((0 : Nat) : Int) ⟨k, ram⟩ = (.ok (s.sz, s.sz, pd), ⟨k, ram⟩) := rfl
          rw [hsame] at hrun
          cases hrun
          dsimp only at hret
          omega
        have hb' := hb.congr hx.same
        refine ⟨false, none, _, (if_neg hne).trans ((if_pos hlt).trans (if_neg fun h => Bool.false_ne_true h.2)),
          hx.ret, hx.size, hb'.mapped⟩
    · have hne : 0 < n := by
        simp only [Vm.KERNBASE] at hlow hbig
        omega
      refine ⟨_, _, Phys.sbrk_refused hne hlt hsz hbig _, true, none, _, (if_neg hne.ne').trans
        ((if_pos hlt).trans (if_neg fun h => absurd h.1 (Nat.not_lt.2 hbig))), rfl, rfl, hb.mapped⟩
  · have hne : n ≠ 0 := by omega
    have hneg : ¬ n < 2 ^ 31 := by omega
    rw [signed, if_neg hneg]
    simp only [if_neg hne, if_neg hneg]
    rcases lt_trichotomy (s.sz + n) (2 ^ 32) with hlt | heq | hgt
    · -- Below zero: the sum wraps around, and nothing is freed.
      obtain ⟨q, hrun, -⟩ := sbrk_past L pd hsz (n := (n : Int) - 2 ^ 32) (by omega) (by omega) ⟨k, ram⟩
      rw [if_neg hpos.ne'] at hrun
      have hmod : (s.sz + n) % 2 ^ 32 = s.sz + n := Nat.mod_eq_of_lt hlt
      refine ⟨_, q, hrun, true, _, _, if_pos ?_, rfl, hb⟩
      omega
    · have hint : (n : Int) - 2 ^ 32 = -(s.sz : Int) := by omega
      obtain ⟨x, q, hrun, hret, hsize, hgone⟩ := (sbrk_all hf hm hsz hpd hpos ram).total fun _ _ => id
      have hmod : (s.sz + n) % 2 ^ 32 = 0 := by omega
      rw [hint]
      refine ⟨x, q, hrun, true, none, _, (if_neg (by omega)).trans (if_pos hmod), hret, hsize, fun va hva => ?_⟩
      rw [hgone va (Nat.zero_le va) hva]
      exact iff_of_false Bool.false_ne_true (Nat.not_lt_zero va)
    · obtain ⟨x, q, hrun, hx⟩ := (sbrk_down hf hm hsz hpd (n := (n : Int) - 2 ^ 32) (by omega) (by omega) ram).total
        fun _ _ => id
      have hmod : (s.sz + n) % 2 ^ 32 = s.sz + n - 2 ^ 32 := by
        simp only [Vm.KERNBASE] at hsz
        omega
      have hsize : x.2.1 = s.sz + n - 2 ^ 32 := by
        have := hx.size
        omega
      have hmapped := hx.mapped
      rw [hsize] at hmapped
      rw [hmod]
      exact ⟨x, q, hrun, true, _, _, (if_neg (by omega)).trans (if_neg (by omega)), hx.ret, hsize, hmapped⟩

theorem kernelSbrk_backed_page : ∃ k pd x q,
    Phys.sbrk (ProcMem.smallLayout 30) pd 4096 (signed 4096) ⟨k, fun _ _ => 7⟩ = (.ok x, q) ∧
    ∃ ok r s', kernelSbrk (fun _ _ => ok) 4096 { newborn with sz := 4096, mapped := 4096 } = (.ok r, s') ∧
      x.1 = result r ∧ Backed s' x.2.1 x.2.2 := by
  obtain ⟨s, pd, hboot, hlive, -, hpd, hmap⟩ := ProcMem.exists_bootedWithPage
  have hinv : ProcMem.Inv (ProcMem.smallLayout 30) s := .boot (by decide) (by decide) hboot
  obtain ⟨hf, hm⟩ := hinv.own hlive hpd s.kmem.fails
  have hs : ({ newborn with sz := 4096, mapped := 4096 } : St).sz = 4096 := rfl
  have hup : 4096 = pgRoundUp 4096 := by decide
  exact ⟨_, pd, hs ▸ kernelSbrk_backed hf hm (by decide) (by decide) hup (hs ▸ hmap) (by decide) _⟩

end Backed

/-! ### A call of `malloc` -/

/-- The block of `r` has `nbytes` usable bytes, which were obtained, and lies apart from the other blocks in use. -/
structure Serves (g : Prog) (nbytes r : Nat) (st : St) : Prop where
  bytes : nbytes ≤ 8 * (st.size (r - 8) - 1)
  obtained : ∀ x, r - 8 ≤ x → x < r - 8 + 8 * st.size (r - 8) → ∃ m ∈ st.got, m.1 ≤ x ∧ x < m.1 + 8 * m.2
  apart : ∀ ap ∈ g.live, ap - 8 + 8 * st.size (ap - 8) ≤ r - 8 ∨ r - 8 + 8 * st.size (r - 8) ≤ ap - 8

/-- `malloc` returns 0 and changes nothing, or a block that serves. -/
def Right (base : Nat) (sbrk : Nat → M (Option Nat)) (g : Prog) (nbytes : Nat) : Prop :=
  ∃ r st, malloc base sbrk nbytes g.st = (.ok r, st) ∧ (r = 0 ∧ Unchanged base g.st st ∨ r ≠ 0 ∧ Serves g nbytes r st)

theorem units_bytes {nbytes : Nat} (h : nbytes ≤ maxRequest) : nbytes ≤ 8 * (units nbytes - 1) := by
  simp only [maxRequest] at h
  rw [units]
  omega

theorem Prog.Inv.right {g : Prog} {sbrk : Nat → M (Option Nat)} {nbytes : Nat} (hsbrk : Fresh sbrk) (hg : g.Inv base)
    (h : nbytes ≤ maxRequest) : Right base sbrk g nbytes := by
  obtain ⟨A, hready, hlive⟩ := hg
  obtain ⟨r, st, hrun, hcase⟩ := malloc_run hsbrk hready nbytes (units_small h)
  refine ⟨r, st, hrun, ?_⟩
  rcases hcase with ⟨rfl, -, -, hsame, -⟩ | ⟨F, t, rfl, htA, hheap, -, hsize, -⟩
  · exact .inl ⟨rfl, hsame⟩
  · have ht : t ∈ F ∨ t ∈ insert t A := .inr (Finset.mem_insert_self t A)
    refine .inr ⟨Nat.succ_ne_zero _, ?_, fun x h1 h2 => ?_, fun ap hap => ?_⟩
    · rw [Nat.add_sub_cancel, hsize]
      exact units_bytes h
    · rw [Nat.add_sub_cancel] at h1 h2
      have hpos : 0 < cov x t (st.size t) := cov_pos.2 ⟨h1, h2⟩
      exact St.obtained_pos.1 (hpos.trans_le (hheap.cov_le ht x))
    · rw [hlive] at hap
      obtain ⟨a, ha, rfl⟩ := Finset.mem_map.1 hap
      show a + 8 - 8 + _ ≤ _ ∨ _ ≤ a + 8 - 8
      rw [Nat.add_sub_cancel, Nat.add_sub_cancel]
      have ha' : a ∈ F ∨ a ∈ insert t A := .inr (Finset.mem_insert_of_mem ha)
      have hne : a ≠ t := fun heq => htA (heq ▸ ha)
      rcases hne.lt_or_gt with hlt | hgt
      · exact .inl (hheap.disjoint ha' ht hlt)
      · exact .inr (hheap.disjoint ht ha' hgt)

/-! ### Larger requests -/

/-- A program as `exec` leaves it: whole pages, and no call of `malloc` yet. -/
structure Started (base : Nat) (s : St) : Prop extends Idle base s where
  pages : s.sz % PGSIZE = 0
  mapped : s.mapped = s.sz
  below : s.sz < Vm.KERNBASE

theorem Started.inv (h : Started base s) : Prog.Inv base ⟨s, ∅⟩ := ⟨∅, .inl ⟨h.toIdle, rfl⟩, rfl⟩

/-- The number of units is 1, and no byte of the block is usable. -/
theorem Started.short (h : Started base s) {nbytes : Nat} (h₁ : 2 ^ 32 - 7 ≤ nbytes) (h₂ : nbytes < 2 ^ 32)
    (hroom : s.sz + 2 ^ 15 < Vm.KERNBASE) : ¬ Right base (kernelSbrk fun _ _ => true) ⟨s, ∅⟩ nbytes := by
  have hone : units nbytes = 1 := by
    rw [units]
    omega
  have hleast : atLeast 1 * 8 = 2 ^ 15 := rfl
  obtain ⟨r, st, hrun, hcase⟩ := malloc_run (kernelSbrk_fresh fun _ _ => true) (.inl ⟨h.toIdle, rfl⟩)
    nbytes (by rw [hone]; decide)
  rintro ⟨r', st', hrun', hright⟩
  obtain ⟨rfl, rfl⟩ : r = r' ∧ st = st' := by
    have hsame := hrun.symm.trans hrun'
    simpa using hsame
  rcases hcase with ⟨-, -, ⟨s1, hs1, hno⟩, -⟩ | ⟨F, t, rfl, -, -, -, hsize, -⟩
  · have hyes : s1.sz + 2 ^ 15 < Vm.KERNBASE ∧ true = true := ⟨hs1 ▸ hroom, rfl⟩
    rw [hone, hleast, kernelSbrk, if_neg (by decide), if_pos (by decide), if_pos hyes] at hno
    cases hno
  · rcases hright with ⟨hzero, -⟩ | ⟨-, hserves⟩
    · exact absurd hzero (Nat.succ_ne_zero _)
    · have hbytes := hserves.bytes
      rw [Nat.add_sub_cancel, hsize, hone] at hbytes
      omega

theorem Idle.malloc_eq (hi : Idle base s) (sbrk : Nat → M (Option Nat)) (nbytes : Nat) :
    ∃ k s₁, s₁.sz = s.sz ∧ s₁.mapped = s.mapped ∧ malloc base sbrk nbytes s = (do
      let p ← morecore sbrk (units nbytes)
      if p = 0 then return 0
      else do
        let h ← load p
        mallocLoop sbrk (units nbytes) k p h.ptr : M Nat) s₁ := by
  obtain ⟨s₁, hs1⟩ : ∃ s₁, s₁ = { s.setHdr base ⟨base, 0⟩ with freep := base } := ⟨_, rfl⟩
  have hheap : Heap base ∅ ∅ s₁ := hs1 ▸ hi.heap
  have hbegin : Umalloc.begin base s = (.ok s₁.freep, s₁) := by
    rw [hi.begin, hs1]
  have hsmall : ∀ c ∈ insert base (∅ : Finset Nat), s₁.size c < units nbytes := fun c hc => by
    rw [insert_empty_eq, Finset.mem_singleton] at hc
    rw [hc, hheap.base_size]
    exact units_pos nbytes
  have hcard := hheap.card_le
  have hdist := SortedRing.dist_lt (c := (s₁.hdr s₁.freep).ptr) hheap.freep
  obtain ⟨k, -, hrun⟩ := mallocLoop_none sbrk (q := s₁.freep) (k := maxRounds) hheap hsmall
    (hheap.ring.next_mem hheap.freep) (by rw [maxRounds]; omega)
  refine ⟨k, s₁, ?_, ?_, ?_⟩
  · rw [hs1]
    rfl
  · rw [hs1]
    rfl
  · rw [malloc, bind_of_ok hbegin, bind_of_ok (load_run (hheap.access (.inl hheap.freep))), hrun]

theorem kernelSbrk_back (grants : St → Nat → Bool) (hpages : s.sz % PGSIZE = 0) (hmap : s.mapped = s.sz) (hlow : s.sz < Vm.KERNBASE)
    (hn : n = 0 ∨ 2 ^ 31 ≤ n) :
    (∃ s', kernelSbrk grants n s = (.ok none, s') ∧ s'.mapped = 0) ∨
    ∃ s', kernelSbrk grants n s = (.ok (some s.sz), s') ∧ s'.mapped ≤ s.sz := by
  unfold kernelSbrk
  rcases hn with rfl | hn
  · exact .inr ⟨s, if_pos rfl, hmap.le⟩
  · rw [if_neg (by omega), if_neg (by omega)]
    dsimp only
    split
    · exact .inr ⟨s, rfl, hmap.le⟩
    · rename_i hlt
      split
      · exact .inl ⟨_, rfl, rfl⟩
      · refine .inr ⟨_, rfl, ?_⟩
        simp only [pgRoundUp, PGSIZE, Vm.KERNBASE] at hpages hlow ⊢
        omega

/-- The argument of `sbrk` is not positive: there is nothing behind the end of the process, or no memory left. -/
theorem Started.wrong (h : Started base s) {nbytes : Nat} (h₁ : maxRequest < nbytes) (h₂ : nbytes < 2 ^ 32 - 7)
    (grants : St → Nat → Bool) : ¬ Right base (kernelSbrk grants) ⟨s, ∅⟩ nbytes := by
  obtain ⟨k, s1, hsz, hmap, hmalloc⟩ := h.malloc_eq (kernelSbrk grants) nbytes
  have hroom := h.room
  have harg : atLeast (units nbytes) * 8 % 2 ^ 32 = 0 ∨ 2 ^ 31 ≤ atLeast (units nbytes) * 8 % 2 ^ 32 := by
    simp only [maxRequest] at h₁
    unfold atLeast units
    split <;> omega
  rintro ⟨r, st, hrun, hright⟩
  change malloc base (kernelSbrk grants) nbytes s = (.ok r, st) at hrun
  rw [hmalloc] at hrun
  obtain ⟨p, s2, hmore, hrun⟩ := bind_run_ok hrun
  have hback := kernelSbrk_back (s := s1) grants (hsz ▸ h.pages) (by rw [hmap, h.mapped, hsz])
    (hsz ▸ h.below) harg
  rcases hback with ⟨s', hnone, hgone⟩ | ⟨s', hsome, hend⟩
  · rw [morecore, bind_of_ok hnone] at hmore
    cases hmore
    rw [if_pos rfl] at hrun
    cases hrun
    rcases hright with ⟨-, hsame⟩ | ⟨hne, -⟩
    · have hmapped := hsame.mapped
      dsimp only at hmapped
      omega
    · exact hne rfl
  · have hfault : ¬ s1.sz + 8 ≤ s'.mapped := by omega
    have hload : load s1.sz s' = (.error .fault, s') := by
      show (if s1.sz + 8 ≤ s'.mapped then _ else _ : M Header) s' = _
      rw [if_neg hfault]
      rfl
    rw [morecore, bind_of_ok hsome] at hmore
    obtain ⟨_, _, hset, _⟩ := bind_run_ok hmore
    obtain ⟨_, _, hok, _⟩ := bind_run_ok hset
    rw [hload] at hok
    cases hok

theorem started_newborn : Started 4096 newborn := ⟨idle_newborn, by decide, rfl, by decide⟩

/-- A pointer for 4 GB less a byte, and a page fault for 2 GB. -/
theorem malloc_short_first :
    (malloc 4096 (kernelSbrk fun _ _ => true) (2 ^ 32 - 1) newborn).1.toOption = some 45056 ∧
    (malloc 4096 (kernelSbrk fun _ _ => true) (2 ^ 32 - 1) newborn).2.size (45056 - 8) = 1 ∧
    ¬ Right 4096 (kernelSbrk fun _ _ => true) ⟨newborn, ∅⟩ (2 ^ 32 - 1) ∧
    (malloc 4096 (kernelSbrk fun _ _ => true) (2 ^ 31) newborn).1.toOption = none ∧
    ¬ Right 4096 (kernelSbrk fun _ _ => true) ⟨newborn, ∅⟩ (2 ^ 31) := by
  refine ⟨by decide +kernel, by decide +kernel, ?_, by decide +kernel, ?_⟩
  · exact started_newborn.short (by decide) (by decide) (by decide)
  · exact started_newborn.wrong (by decide) (by decide) _

/-- The requests that `malloc` serves or refuses as it should, in every program whose requests so far were
such ones. -/
theorem malloc_right_iff (nbytes : UInt32) :
    (∀ base st grants g, Started base st →
      Machine.Reach (step base (kernelSbrk grants)) (fun _ a => a.upTo maxRequest) ⟨st, ∅⟩ g →
      Right base (kernelSbrk grants) g nbytes.toNat) ↔ nbytes.toNat ≤ 2 ^ 31 - 16 := by
  refine ⟨fun h => ?_, fun hle base st grants g hst hr => ?_⟩
  · by_contra hbig
    have hlt := nbytes.toNat_lt
    have hfirst := h 4096 newborn (fun _ _ => true) _ started_newborn .refl
    rcases Nat.lt_or_ge nbytes.toNat (2 ^ 32 - 7) with hmid | hshort
    · exact started_newborn.wrong (Nat.lt_of_not_le hbig) hmid _ hfirst
    · exact started_newborn.short hshort hlt (by decide) hfirst
  · have hinv := hst.inv.reach (kernelSbrk_fresh grants) le_rfl hr
    exact hinv.right (kernelSbrk_fresh grants) hle

end Xv6.Umalloc
