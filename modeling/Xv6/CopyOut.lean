import Xv6.ForkCopy
import Xv6.Lib.Bytes

/-!
# Copying to user memory (`copyout` of `vm.c`)

`copyout` walks the pages of a user buffer through a page directory that need not be the current one.
`uva2ka` does not look at whether `walkpgdir` has found a page table before it reads the entry. What the
loop does is said in one lemma (`copyout_run`): it stores the bytes up to the first page it cannot use,
and stops there, with -1 if there is an entry to read and with a fault if there is none.
-/

namespace Xv6.Vm

open Exec Function

/-- The entry of a page table that does not exist is read. -/
inductive Fault
  | nullPte
  deriving DecidableEq

def P2V (pa : Nat) : Nat := (pa + KERNBASE) % 2 ^ 32

/-- `uva2ka`, with the page for its kernel address and `none` for the address 0. -/
def uva2ka (pd : PageDir) (uva : Nat) : Exec Ram Fault (Option Nat) :=
  match pd.pde (PDX uva) with
  | none => Exec.stop .nullPte
  | some pgtab =>
    match pgtab.pte (PTX uva) with
    | none => pure none
    | some pte =>
      if pte.flags &&& PTE_U = 0 then pure none
      else pure (if P2V (pte.page * PGSIZE) = 0 then none else some pte.page)

def Ram.put (ram : Ram) (page off : Nat) (bs : List UInt8) : Ram :=
  update ram page (Bytes.put (ram page) off bs.length fun j => bs.getD j 0)

def memmove (page off : Nat) (bs : List UInt8) : Exec Ram Fault Unit := Exec.modify (·.put page off bs)

def copyout (pd : PageDir) (va : Nat) (buf : List UInt8) : Exec Ram Fault Int :=
  if _h : buf = [] then pure 0
  else do
    let va0 := pgRoundDown va
    match ← uva2ka pd va0 with
    | none => return -1
    | some page =>
      let n := if PGSIZE - (va - va0) > buf.length then buf.length else PGSIZE - (va - va0)
      memmove page (va - va0) (buf.take n)
      copyout pd ((va0 + PGSIZE) % 2 ^ 32) (buf.drop n)
termination_by buf.length
decreasing_by
  have hpos := List.length_pos_iff.2 _h
  have hn : 0 < n := by
    simp only [n, va0, pgRoundDown, PGSIZE]
    split <;> omega
  show (buf.drop n).length < buf.length
  rw [List.length_drop]
  omega

/-! ### What it is for -/

/-- The page at `va`, if it is present with `PTE_U`. -/
def PageDir.userPage (pd : PageDir) (va : Nat) : Option Nat :=
  (pd.get va).bind fun e => if e.flags &&& PTE_U = 0 then none else some e.page

/-- The byte of physical memory at `va`, an address modulo `2 ^ 32`. -/
def PageDir.byteAt (pd : PageDir) (va : Nat) : Option (Nat × Fin PGSIZE) :=
  (pd.userPage (va % 2 ^ 32)).map fun page => (page, offset va)

/-- The `len` bytes from `va` on are the bytes of `buf`, where two of them are not the same byte of
physical memory; nothing else has changed. -/
structure Written (pd : PageDir) (va : Nat) (buf : List UInt8) (ram ram' : Ram) : Prop where
  bytes : ∀ i page off, (h : i < buf.length) → pd.byteAt (va + i) = some (page, off) →
    (∀ j, i < j → j < buf.length → pd.byteAt (va + j) ≠ some (page, off)) → ram' page off = buf[i]
  rest : ∀ page off, (∀ i, i < buf.length → pd.byteAt (va + i) ≠ some (page, off)) → ram' page off = ram page off

def PageDir.Covers (pd : PageDir) (va len : Nat) : Prop := ∀ i, i < len → (pd.userPage ((va + i) % 2 ^ 32)).isSome

/-- What `copyout` is to return and to leave in memory. -/
def CopiedOut (pd : PageDir) (va : Nat) (buf : List UInt8) (ram : Ram) (r : Int) (ram' : Ram) : Prop :=
  r = 0 ∧ pd.Covers va buf.length ∧ Written pd va buf ram ram' ∨
  r = -1 ∧ ¬ pd.Covers va buf.length ∧
    ∀ page off, ram' page off ≠ ram page off → ∃ a, a < 2 ^ 32 ∧ pd.byteAt a = some (page, off)

def Safe (pd : PageDir) (va : Nat) (buf : List UInt8) : Prop :=
  ∀ ram, ∃ r ram', copyout pd va buf ram = (.ok r, ram') ∧ CopiedOut pd va buf ram r ram'

/-! ### Storing byte by byte -/

def Ram.setByte (ram : Ram) (p : Option (Nat × Fin PGSIZE)) (b : UInt8) : Ram :=
  match p with
  | none => ram
  | some (page, off) => update ram page (update (ram page) off b)

def storeAll (pd : PageDir) : Nat → List UInt8 → Ram → Ram
  | _, [], ram => ram
  | va, b :: bs, ram => storeAll pd (va + 1) bs (ram.setByte (pd.byteAt va) b)

variable {pd : PageDir} {va page off : Nat} {bs : List UInt8} {ram : Ram}

theorem Ram.setByte_apply (p : Option (Nat × Fin PGSIZE)) (b : UInt8) (q : Nat) (j : Fin PGSIZE) :
    ram.setByte p b q j = if p = some (q, j) then b else ram q j := by
  rcases p with _ | ⟨page, off⟩
  · exact (if_neg nofun).symm
  · show update ram page (update (ram page) off b) q j = _
    by_cases hq : q = page
    · subst hq
      rw [update_self]
      by_cases hj : j = off
      · subst hj
        rw [update_self, if_pos rfl]
      · rw [update_of_ne hj, if_neg fun h => hj (Prod.mk.inj (Option.some.inj h)).2.symm]
    · rw [update_of_ne hq, if_neg fun h => hq (Prod.mk.inj (Option.some.inj h)).1.symm]

theorem storeAll_append (bs bs' : List UInt8) :
    storeAll pd va (bs ++ bs') ram = storeAll pd (va + bs.length) bs' (storeAll pd va bs ram) := by
  induction bs generalizing va ram with
  | nil => rfl
  | cons b bs ih =>
    rw [List.length_cons, Nat.add_comm bs.length 1, ← Nat.add_assoc]
    exact ih

theorem written_storeAll (pd : PageDir) (va : Nat) (buf : List UInt8) (ram : Ram) :
    Written pd va buf ram (storeAll pd va buf ram) := by
  induction buf generalizing va ram with
  | nil => exact ⟨fun i _ _ h => absurd h (Nat.not_lt_zero i), fun _ _ _ => rfl⟩
  | cons b bs ih =>
    have hshift : ∀ i, va + 1 + i = va + (i + 1) := fun i => by omega
    have ih := ih (va + 1) (ram.setByte (pd.byteAt va) b)
    have hrest : ∀ page off, (∀ i, i < bs.length → pd.byteAt (va + (i + 1)) ≠ some (page, off)) →
        storeAll pd va (b :: bs) ram page off = if pd.byteAt va = some (page, off) then b else ram page off :=
      fun page off h => (ih.rest page off fun i hi => by rw [hshift]; exact h i hi).trans (Ram.setByte_apply _ _ _ _)
    refine ⟨fun i page off hi hat hlast => ?_, fun page off hno => ?_⟩
    · rcases i with _ | i
      · rw [hrest page off fun j hj => hlast (j + 1) (Nat.succ_pos j) (Nat.succ_lt_succ hj)]
        exact if_pos hat
      · refine ih.bytes i page off (Nat.lt_of_succ_lt_succ hi) (by rw [hshift]; exact hat) fun j h1 h2 => ?_
        rw [hshift]
        exact hlast (j + 1) (Nat.succ_lt_succ h1) (Nat.succ_lt_succ h2)
    · rw [hrest page off fun j hj => hno (j + 1) (Nat.succ_lt_succ hj)]
      exact if_neg (hno 0 (Nat.succ_pos _))

theorem Ram.put_apply (q : Nat) (j : Fin PGSIZE) : ram.put page off bs q j =
    if q = page ∧ off ≤ j.val ∧ j.val < off + bs.length then bs.getD (j.val - off) 0 else ram q j := by
  unfold put
  by_cases hq : q = page
  · subst hq
    rw [update_self]
    exact if_congr (and_iff_right rfl).symm rfl rfl
  · rw [update_of_ne hq, if_neg fun h => hq h.1]

theorem Ram.put_nil : ram.put page off [] = ram := by
  funext q j
  rw [put_apply, if_neg (by rw [List.length_nil]; omega)]

theorem Ram.put_cons {b : UInt8} (h : off < PGSIZE) :
    ram.put page off (b :: bs) = (ram.setByte (some (page, ⟨off, h⟩)) b).put page (off + 1) bs := by
  funext q j
  rw [put_apply, put_apply, setByte_apply, List.length_cons]
  by_cases hj : j.val = off
  · obtain rfl : j = ⟨off, h⟩ := Fin.ext hj
    have hout : ¬ (q = page ∧ off + 1 ≤ off ∧ off < off + 1 + bs.length) := by omega
    rw [if_neg hout]
    by_cases hq : q = page
    · subst hq
      rw [if_pos ⟨rfl, le_rfl, by dsimp only; omega⟩, if_pos rfl, Nat.sub_self]
      rfl
    · rw [if_neg fun hc => hq hc.1, if_neg fun hc => hq (Prod.mk.inj (Option.some.inj hc)).1.symm]
  · rw [if_neg fun hc => hj (congrArg Fin.val (Prod.mk.inj (Option.some.inj hc)).2).symm]
    refine ite_congr (propext ⟨fun hc => ⟨hc.1, by omega⟩, fun hc => ⟨hc.1, by omega⟩⟩) (fun hc => ?_) fun _ => rfl
    obtain ⟨k, hk⟩ : ∃ k, j.val - off = k + 1 := ⟨j.val - off - 1, by omega⟩
    rw [hk, show j.val - (off + 1) = k by omega]
    rfl

theorem storeAll_page (hpage : ∀ i, i < bs.length → pd.userPage ((va + i) % 2 ^ 32) = some page)
    (hfit : va % PGSIZE + bs.length ≤ PGSIZE) : storeAll pd va bs ram = ram.put page (va % PGSIZE) bs := by
  induction bs generalizing va ram with
  | nil => exact Ram.put_nil.symm
  | cons b bs ih =>
    rw [List.length_cons] at hfit
    have hat : pd.byteAt va = some (page, offset va) := by
      have hzero := hpage 0 (Nat.succ_pos _)
      rw [Nat.add_zero] at hzero
      rw [PageDir.byteAt, hzero, Option.map_some]
    rw [storeAll, hat, Ram.put_cons (by omega)]
    rcases bs with _ | ⟨b', bs⟩
    · rw [Ram.put_nil]
      rfl
    · have hnext : (va + 1) % PGSIZE = va % PGSIZE + 1 := by
        rw [List.length_cons] at hfit
        simp only [PGSIZE] at hfit ⊢
        omega
      have hpage' : ∀ i, i < (b' :: bs).length → pd.userPage ((va + 1 + i) % 2 ^ 32) = some page := fun i hi => by
        rw [show va + 1 + i = va + (i + 1) by omega]
        exact hpage (i + 1) (Nat.succ_lt_succ hi)
      rw [ih hpage' (by omega), hnext]
      rfl

/-! ### The loop -/

/-- The page at `va` if `copyout` can use it: its kernel address is not 0. -/
def PageDir.kernPage (pd : PageDir) (va : Nat) : Option Nat :=
  (pd.userPage va).filter fun page => P2V (page * PGSIZE) ≠ 0

theorem PDX_mod (va : Nat) : PDX (va % 2 ^ 32) = PDX va := Fin.ext (by simp only [PDX]; omega)

theorem PTX_mod (va : Nat) : PTX (va % 2 ^ 32) = PTX va := Fin.ext (by simp only [PTX]; omega)

theorem PageDir.samePage_of_div {a b : Nat} (h : a / PGSIZE = b / PGSIZE) : PageDir.SamePage a b := by
  simp only [PGSIZE] at h
  exact ⟨Fin.ext (by simp only [PDX]; omega), Fin.ext (by simp only [PTX]; omega)⟩

theorem PageDir.userPage_mod (va : Nat) : pd.userPage (va % 2 ^ 32) = pd.userPage va := by
  rw [userPage, userPage, get, get, PDX_mod, PTX_mod]

theorem PageDir.userPage_samePage {a b : Nat} (h : PageDir.SamePage a b) : pd.userPage a = pd.userPage b := by
  rw [userPage, userPage, get_samePage h]

theorem PageDir.kernPage_samePage {a b : Nat} (h : PageDir.SamePage a b) : pd.kernPage a = pd.kernPage b := by
  rw [kernPage, kernPage, userPage_samePage h]

theorem PageDir.kernPage_mod (va : Nat) : pd.kernPage (va % 2 ^ 32) = pd.kernPage va := by
  rw [kernPage, kernPage, userPage_mod]

theorem PageDir.userPage_of_kernPage (h : pd.kernPage va = some page) : pd.userPage va = some page :=
  (Option.filter_eq_some_iff.1 h).1

theorem uva2ka_run (pd : PageDir) (va : Nat) (ram : Ram) : uva2ka pd va ram =
    (if (pd.pde (PDX va)).isSome then .ok (pd.kernPage va) else .error .nullPte, ram) := by
  unfold uva2ka PageDir.kernPage PageDir.userPage PageDir.get
  rcases pd.pde (PDX va) with _ | t
  · rfl
  · rcases ht : t.pte (PTX va) with _ | e
    · simp [ht, pure_run]
    · by_cases hu : e.flags &&& PTE_U = 0
      · simp [ht, hu, pure_run]
      · by_cases hk : P2V (e.page * PGSIZE) = 0 <;> simp [ht, hu, hk, pure_run, Option.filter]

def roundLen (va len : Nat) : Nat := min (PGSIZE - va % PGSIZE) len

theorem copyout_nil : copyout pd va [] ram = (.ok 0, ram) := by
  rw [copyout, dif_pos rfl]
  rfl

theorem copyout_stop {buf : List UInt8} (hne : buf ≠ []) (h : pd.kernPage va = none) : copyout pd va buf ram =
    (if (pd.pde (PDX va)).isSome then .ok (-1) else .error .nullPte, ram) := by
  have hdown : PageDir.SamePage (pgRoundDown va) va :=
    PageDir.samePage_of_div (by simp only [pgRoundDown, PGSIZE]; omega)
  rw [copyout, dif_neg hne]
  dsimp only
  rw [bind_run, uva2ka_run, hdown.1, PageDir.kernPage_samePage hdown, h]
  rcases (pd.pde (PDX va)).isSome <;> rfl

theorem copyout_round {buf : List UInt8} (hne : buf ≠ []) (h : pd.kernPage va = some page) : copyout pd va buf ram =
    copyout pd ((pgRoundDown va + PGSIZE) % 2 ^ 32) (buf.drop (roundLen va buf.length))
      (ram.put page (va % PGSIZE) (buf.take (roundLen va buf.length))) := by
  have hdown : PageDir.SamePage (pgRoundDown va) va :=
    PageDir.samePage_of_div (by simp only [pgRoundDown, PGSIZE]; omega)
  have hoff : va - pgRoundDown va = va % PGSIZE := by
    simp only [pgRoundDown, PGSIZE]
    omega
  have htab : (pd.pde (PDX va)).isSome := by
    obtain ⟨e, he, -⟩ := Option.bind_eq_some_iff.1 (PageDir.userPage_of_kernPage h)
    exact PageDir.isSome_of_get he
  have hlen : (if PGSIZE - va % PGSIZE > buf.length then buf.length else PGSIZE - va % PGSIZE) =
      roundLen va buf.length := by
    unfold roundLen
    split <;> omega
  rw [copyout, dif_neg hne]
  dsimp only
  rw [bind_run, uva2ka_run, hdown.1, PageDir.kernPage_samePage hdown, h, if_pos htab]
  dsimp only
  rw [hoff, hlen]
  rfl

theorem copyout_mod (buf : List UInt8) : copyout pd (va % 2 ^ 32) buf ram = copyout pd va buf ram := by
  by_cases hne : buf = []
  · subst hne
    rw [copyout_nil, copyout_nil]
  · have hoff : va % 2 ^ 32 % PGSIZE = va % PGSIZE := by
      simp only [PGSIZE]
      omega
    have hnext : (pgRoundDown (va % 2 ^ 32) + PGSIZE) % 2 ^ 32 = (pgRoundDown va + PGSIZE) % 2 ^ 32 := by
      simp only [pgRoundDown, PGSIZE]
      omega
    rcases hpage : pd.kernPage va with _ | page
    · rw [copyout_stop hne hpage, copyout_stop hne ((PageDir.kernPage_mod va).trans hpage), PDX_mod]
    · rw [copyout_round hne hpage, copyout_round hne ((PageDir.kernPage_mod va).trans hpage), hnext, roundLen, hoff]
      rfl

theorem copyout_run (pd : PageDir) (va : Nat) (buf : List UInt8) (ram : Ram) :
    ∃ m, (∀ i, i < m → (pd.kernPage (va + i)).isSome) ∧
      (m = buf.length ∧ copyout pd va buf ram = (.ok 0, storeAll pd va buf ram) ∨
       m < buf.length ∧ pd.kernPage (va + m) = none ∧ copyout pd va buf ram =
        (if (pd.pde (PDX (va + m))).isSome then .ok (-1) else .error .nullPte, storeAll pd va (buf.take m) ram)) := by
  induction hlen : buf.length using Nat.strong_induction_on generalizing va buf ram with
  | _ len ih =>
    subst hlen
    by_cases hne : buf = []
    · subst hne
      exact ⟨0, fun i hi => absurd hi (Nat.not_lt_zero i), .inl ⟨rfl, copyout_nil⟩⟩
    have hpos := List.length_pos_iff.2 hne
    rcases hpage : pd.kernPage va with _ | page
    · exact ⟨0, fun i hi => absurd hi (Nat.not_lt_zero i), .inr ⟨hpos, hpage, copyout_stop hne hpage⟩⟩
    rw [copyout_round hne hpage]
    have hn : 0 < roundLen va buf.length ∧ roundLen va buf.length ≤ buf.length ∧
        va % PGSIZE + roundLen va buf.length ≤ PGSIZE := by
      simp only [roundLen, PGSIZE]
      omega
    generalize hr : roundLen va buf.length = n at *
    obtain ⟨hn0, hn1, hn2⟩ := hn
    have hsame : ∀ i, i < n → PageDir.SamePage (va + i) va := fun i hi =>
      PageDir.samePage_of_div (by simp only [PGSIZE] at hn2 ⊢; omega)
    have hfirst : ram.put page (va % PGSIZE) (buf.take n) = storeAll pd va (buf.take n) ram := by
      refine (storeAll_page (fun i hi => ?_) ?_).symm
      · rw [PageDir.userPage_mod, PageDir.userPage_samePage (hsame i ?_), PageDir.userPage_of_kernPage hpage]
        rw [List.length_take] at hi
        omega
      · rw [List.length_take]
        omega
    have hgood : ∀ i, i < n → (pd.kernPage (va + i)).isSome := fun i hi => by
      rw [PageDir.kernPage_samePage (hsame i hi), hpage]
      rfl
    rw [hfirst]
    rcases hn1.eq_or_lt with rfl | hlt
    · refine ⟨buf.length, hgood, .inl ⟨rfl, ?_⟩⟩
      rw [List.drop_length, List.take_length, copyout_nil]
    -- the rest starts on the next page
    have hnext : pgRoundDown va + PGSIZE = va + n := by
      subst hr
      simp only [roundLen, pgRoundDown, PGSIZE] at hlt ⊢
      omega
    have hsum : ∀ i, va + n + i = va + (n + i) := fun i => Nat.add_assoc va n i
    have hstored : ∀ l, storeAll pd (va + n) l (storeAll pd va (buf.take n) ram) = storeAll pd va (buf.take n ++ l) ram :=
      fun l => by rw [storeAll_append, List.length_take_of_le hn1]
    rw [hnext, copyout_mod]
    have hdrop : (buf.drop n).length < buf.length := by
      rw [List.length_drop]
      omega
    obtain ⟨m, hm, hrest⟩ := ih _ hdrop (va + n) (buf.drop n) (storeAll pd va (buf.take n) ram) rfl
    refine ⟨n + m, fun i hi => ?_, ?_⟩
    · rcases Nat.lt_or_ge i n with hin | hin
      · exact hgood i hin
      · have := hm (i - n) (by omega)
        rwa [hsum, Nat.add_sub_cancel' hin] at this
    · rw [List.length_drop] at hrest
      rcases hrest with ⟨h1, h2⟩ | ⟨h1, h2, h3⟩
      · refine .inl ⟨by omega, ?_⟩
        rw [h2, hstored, List.take_append_drop]
      · refine .inr ⟨by omega, by rw [← hsum, h2], ?_⟩
        rw [h3, hstored, hsum, List.take_add]
/-! ### When it is safe -/

/-- Up to the first page that cannot be used there are page tables, and no page of a buffer that is all
present with `PTE_U` is at kernel address 0. -/
structure Walkable (pd : PageDir) (va len : Nat) : Prop where
  tables : ∀ i, i < len → (∀ j, j < i → (pd.kernPage ((va + j) % 2 ^ 32)).isSome) →
    (pd.pde (PDX ((va + i) % 2 ^ 32))).isSome
  nonzero : pd.Covers va len → ∀ i, i < len → (pd.kernPage ((va + i) % 2 ^ 32)).isSome

theorem PageDir.isSome_of_kernPage (h : (pd.kernPage va).isSome) :
    (pd.userPage va).isSome ∧ (pd.pde (PDX va)).isSome := by
  obtain ⟨page, hpage⟩ := Option.isSome_iff_exists.1 h
  have huser := userPage_of_kernPage hpage
  obtain ⟨e, he, -⟩ := Option.bind_eq_some_iff.1 huser
  exact ⟨by rw [huser]; rfl, isSome_of_get he⟩

theorem PageDir.byteAt_mod (va : Nat) : pd.byteAt (va % 2 ^ 32) = pd.byteAt va := by
  have hoff : offset (va % 2 ^ 32) = offset va := Fin.ext (by simp only [offset, PGSIZE]; omega)
  rw [byteAt, byteAt, hoff, Nat.mod_mod]

theorem storeAll_changed {off : Fin PGSIZE} (h : storeAll pd va bs ram page off ≠ ram page off) :
    ∃ a, a < 2 ^ 32 ∧ pd.byteAt a = some (page, off) := by
  by_contra hno
  refine h ((written_storeAll pd va bs ram).rest page off fun i _ hat => hno ⟨(va + i) % 2 ^ 32, ?_, ?_⟩)
  · exact Nat.mod_lt _ (by decide)
  · rw [PageDir.byteAt_mod, hat]

theorem copyout_safe_iff (pd : PageDir) (va : Nat) (buf : List UInt8) :
    Safe pd va buf ↔ Walkable pd va buf.length := by
  constructor
  · intro hsafe
    obtain ⟨r, ram', hrun, hout⟩ := hsafe fun _ _ => 0
    obtain ⟨m, hm, hcase⟩ := copyout_run pd va buf fun _ _ => 0
    rw [hrun] at hcase
    refine ⟨fun i hi hgood => ?_, fun hcov i hi => ?_⟩
    · rw [PDX_mod]
      rcases Nat.lt_trichotomy i m with hlt | rfl | hgt
      · exact (PageDir.isSome_of_kernPage (hm i hlt)).2
      · rcases hcase with ⟨heq, -⟩ | ⟨-, -, heq⟩
        · omega
        · by_contra htab
          rw [if_neg htab] at heq
          cases heq
      · rcases hcase with ⟨heq, -⟩ | ⟨-, hnone, -⟩
        · omega
        · have := hgood m hgt
          rw [PageDir.kernPage_mod, hnone] at this
          cases this
    · have hzero : r = 0 := by
        rcases hout with ⟨h, -⟩ | ⟨-, h, -⟩
        · exact h
        · exact absurd hcov h
      subst hzero
      rw [PageDir.kernPage_mod]
      rcases hcase with ⟨heq, -⟩ | ⟨-, -, heq⟩
      · exact hm i (by omega)
      · split at heq <;> cases heq
  · intro hwalk ram
    obtain ⟨m, hm, ⟨rfl, hrun⟩ | ⟨hlt, hnone, hrun⟩⟩ := copyout_run pd va buf ram
    · refine ⟨_, _, hrun, .inl ⟨rfl, fun i hi => ?_, written_storeAll pd va buf ram⟩⟩
      rw [PageDir.userPage_mod]
      exact (PageDir.isSome_of_kernPage (hm i hi)).1
    · have htab := hwalk.tables m hlt fun j hj => by
        rw [PageDir.kernPage_mod]
        exact hm j hj
      rw [PDX_mod] at htab
      rw [if_pos htab] at hrun
      refine ⟨_, _, hrun, .inr ⟨rfl, fun hcov => ?_, fun page off => storeAll_changed⟩⟩
      have := hwalk.nonzero hcov m hlt
      rw [PageDir.kernPage_mod, hnone] at this
      cases this

/-- A directory as `exec` builds it for an empty program: a guard page, a stack page, and the tables that
`kmap` needs, none of them between `KERNBASE + PHYSTOP` and `DEVSPACE`. -/
def stackDir : PageDir where
  page := 1
  pde := fun i =>
    if i.val = 0 then
      some ⟨2, fun j => if j.val = 0 then some ⟨3, PTE_W⟩ else if j.val = 1 then some ⟨4, PTE_W + PTE_U⟩ else none⟩
    else if 512 ≤ i.val ∧ i.val < 568 ∨ 1016 ≤ i.val then some ⟨i.val + 5, fun _ => none⟩
    else none

theorem copyout_safe_iff_stack : Walkable stackDir 8188 4 ∧ Safe stackDir 8188 [1, 2, 3, 4] := by
  have hwalk : Walkable stackDir 8188 4 := ⟨by decide +kernel, fun _ => by decide +kernel⟩
  exact ⟨hwalk, (copyout_safe_iff stackDir 8188 [1, 2, 3, 4]).2 hwalk⟩

/-- An argument of 32 MB and 12287 bytes is to go to `0xFDFFF000`, where no page table is. -/
theorem copyout_unsafe_hole :
    ¬ Safe stackDir (sub32 8192 (33566719 + 1) / 4 * 4) (List.replicate 33566719 97 ++ [0]) := by
  intro hsafe
  obtain ⟨r, ram', hrun, -⟩ := hsafe fun _ _ => 0
  have hnone : stackDir.kernPage (sub32 8192 (33566719 + 1) / 4 * 4) = none := by decide +kernel
  have htab : (stackDir.pde (PDX (sub32 8192 (33566719 + 1) / 4 * 4))).isSome = false := by decide +kernel
  rw [copyout_stop (List.append_ne_nil_of_right_ne_nil _ (List.cons_ne_nil _ _)) hnone, htab] at hrun
  cases hrun

end Xv6.Vm
