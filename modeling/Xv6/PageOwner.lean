import Xv6.ProcCount

/-!
# Every page has one owner

From the boot on, and after each completed call, a page that the allocator manages is either on the
free list, once, or has one owner. A call of `fork`, `exec` or `pipe` that fails gives back every
page it took. A failing `sbrk` gives back the user pages; page tables that it added stay in the page
directory, which owns them.
-/

namespace Xv6.ProcMem

open Vm Function Tally Exec

variable {L : Layout} {s s' : St} {p : Fin NPROC} {f : Nat}

/-! ### Boot -/

def within (lo hi f : Nat) : Nat := if lo ≤ f ∧ f < hi then 1 else 0

theorem freerange_ends (n : Nat) (lo : Nat) (k : Kmem) :
    Ends (freerange L lo n) k fun _ k' => ∀ f, Keeps f k (within lo (lo + n) f) k' 0 := by
  induction n generalizing lo k with
  | zero =>
    rw [freerange]
    refine .pure fun f => ?_
    rw [within, if_neg (by omega)]
    exact .refl f _ _
  | succ n ih =>
    rw [freerange]
    refine .bind (kfree_ends k lo) fun _ k1 h1 => (ih (lo + 1) k1).mono fun _ k' h f => ?_
    have hsplit : within lo (lo + (n + 1)) f = is f lo + within (lo + 1) (lo + 1 + n) f := by
      simp only [within, is]
      split <;> split <;> split <;> omega
    rw [hsplit]
    exact ((h1 f).frame _).trans (by simpa using h f)

theorem Shifts.frame {o o' : Nat → Nat} (h : Shifts s o s' o') (r : Nat → Nat) :
    Shifts s (fun f => o f + r f) s' fun f => o' f + r f := fun f => by
  have := (h f).frame (r f)
  rwa [add_assoc, add_assoc] at this

theorem kvmalloc_ends (hs : s.kpgdir = none) : Ends (kvmalloc L) s fun _ s' =>
    Shifts s (fun _ => 0) s' (fun _ => 0) ∧ s'.procs = s.procs := by
  unfold kvmalloc
  refine lift_bind (setupkvm_ends _) fun r k hk => ?_
  rcases r with _ | pd
  · exact .stop
  refine .modify ⟨Shifts.trans (.kmem (fun _ => 0) hk (fun _ => rfl) fun _ => rfl) (.store rfl fun f => ?_), rfl⟩
  rw [St.owned, St.owned, hs]
  simp only [pgdirCount]
  omega

theorem startothers_ends (n : Nat) (s : St) : Ends (startothers n) s fun _ s' =>
    Shifts s (fun _ => 0) s' (fun _ => 0) ∧ s'.procs = s.procs := by
  induction n generalizing s with
  | zero =>
    rw [startothers]
    exact .pure ⟨.refl s _, rfl⟩
  | succ n ih =>
    rw [startothers]
    refine lift_bind (kalloc_ends _) fun r k hk => ?_
    rcases r with _ | stack
    · exact .stop
    refine .modify_bind ((ih _).mono fun _ s' h => ⟨Shifts.trans ?_ h.1, h.2⟩)
    refine Shifts.trans (.kmem (fun _ => 0) hk (fun _ => rfl) fun _ => rfl) (.store rfl fun f => ?_)
    rw [St.owned, St.owned]
    simp only [List.count_cons, held, is, beq_iff_eq]
    omega

theorem inituvm_ends (pd : PageDir) (k : Kmem) : Ends (inituvm pd) k fun pd' k' =>
    ∀ f, Keeps f k (pd.count f) k' (pd'.count f) := by
  unfold inituvm
  refine .bind (kalloc_ends k) fun r k1 h1 => ?_
  rcases r with _ | mem
  · exact .stop
  refine .bind (mappages_meets k1 pd 0 mem (PTE_W + PTE_U) rfl (by decide)).ends fun r k2 h2 => ?_
  obtain ⟨_ | _, pd'⟩ := r
  · exact .stop
  · refine .pure fun f => ?_
    have h3 : Keeps f k 0 k1 (is f mem) := h1 f
    have h4 : Keeps f k1 (pd.count f + is f mem) k2 (pd'.count f) := (h2.1 f).1
    omega

theorem userinit_ends (hs : ProcsOk s) : Ends (userinit L) s fun _ s' =>
    Shifts s (fun _ => 0) s' (fun _ => 0) ∧ ProcsOk s' := by
  unfold userinit
  refine .bind (allocproc_ends hs) fun r s1 h => ?_
  obtain ⟨h1, hok1, -, hsome⟩ := h
  rcases r with _ | np
  · exact .stop
  obtain ⟨hnp, -⟩ := hsome np rfl
  refine .modify_bind ?_
  generalize hs2 : ({ s1 with initproc := some np } : St) = s2
  have hslot : s2.procs = s1.procs := by rw [← hs2]
  have hok2 : ProcsOk s2 := by rw [← hs2]; exact hok1
  have hinit : Shifts s1 (fun _ => 0) s2 (fun _ => 0) := .store (by rw [← hs2]) fun f => by
    rw [St.owned, St.owned, ← hs2]
  refine lift_bind (setupkvm_ends _) fun r k hk => ?_
  rcases r with _ | pd
  · exact .stop
  refine lift_bind (inituvm_ends pd _) fun pd' k' hk' => setProc_ends ⟨h1.trans (hinit.trans ?_), ?_⟩
  · have hnew : ∀ f, Keeps f s2.kmem 0 k' (pd'.count f) := fun f => (hk f).trans (hk' f)
    refine .kmem_set hnew (fun f => Nat.zero_le _) fun f => ?_
    have hold : procCount f (s2.procs np) = held f (s2.procs np).kstack :=
      procCount_embryo (by rw [hslot]; exact hnp) f
    rw [hold]
    rfl
  · exact ProcsOk.set (s := { s2 with kmem := k' }) hok2 fun _ => ⟨show PGSIZE ≤ Vm.KERNBASE by decide, fun hu => by cases hu⟩

theorem start_owned (L : Layout) (f : Nat) : (start L).owned f = 0 := by
  have hprocs : tally (procCount f) (start L).procs = 0 := tally_eq_zero fun _ => rfl
  rw [St.owned, hprocs]
  rfl

theorem main_ends {mid ncpu : Nat} (h₁ : L.first ≤ mid) (h₂ : mid ≤ L.phystop) :
    Ends (main L mid ncpu) (start L) fun _ s =>
      Shifts (start L) (within L.first L.phystop) s (fun _ => 0) ∧ ProcsOk s := by
  have hok : ProcsOk (start L) := fun p => ⟨Nat.zero_le _, fun _ => rfl⟩
  unfold main
  refine lift_bind (freerange_ends _ _ _) fun _ k hk => ?_
  have hkinit1 : Shifts (start L) (within L.first L.phystop) { start L with kmem := k } (within mid L.phystop) :=
    .kmem (within mid L.phystop) hk (fun f => by
      simp only [within]
      split <;> split <;> split <;> omega) fun f => (Nat.zero_add _).symm
  refine .bind (kvmalloc_ends rfl) fun _ s1 ⟨hs1, hp1⟩ => ?_
  refine .bind (startothers_ends ncpu s1) fun _ s2 ⟨hs2, hp2⟩ => ?_
  have hothers := hkinit1.trans (by simpa using (hs1.trans hs2).frame (within mid L.phystop))
  refine lift_bind (freerange_ends _ _ _) fun _ k' hk' => ?_
  have hkinit2 : Shifts s2 (within mid L.phystop) { s2 with kmem := k' } (fun _ => 0) :=
    .kmem (fun _ => 0) hk' (fun f => by rw [Nat.add_sub_cancel' h₂]; rfl) fun _ => rfl
  have hok2 : ProcsOk { s2 with kmem := k' } := fun q => by
    show ProcOk (s2.procs q)
    rw [hp2, hp1]
    exact hok q
  exact (userinit_ends hok2).mono fun _ s h => ⟨(hothers.trans hkinit2).trans h.1, h.2⟩

/-! ### The invariant -/

/-- Every page of the allocator is free or has one owner, and it is handed out if it has. -/
structure Inv (L : Layout) (s : St) : Prop where
  once : ∀ f, s.kmem.count f + s.owned f = within L.first L.phystop f
  handed : ∀ f, s.kmem.handed f = s.owned f
  right : ∀ f, s.kmem.wrong f = 0
  procs : ProcsOk s

theorem within_le (lo hi f : Nat) : within lo hi f ≤ 1 := by
  unfold within
  split <;> omega

theorem mem_of_within_pos {lo hi : Nat} (h : 0 < within lo hi f) : lo ≤ f ∧ f < hi := by
  by_contra hno
  rw [within, if_neg hno] at h
  exact lt_irrefl 0 h

theorem Inv.shift (h : Inv L s) (hs : Shifts s (fun _ => 0) s' (fun _ => 0)) (hp : ProcsOk s') : Inv L s' := by
  have hf : ∀ f, s'.kmem.count f + s'.owned f = within L.first L.phystop f ∧ s'.kmem.handed f = s'.owned f ∧
      s'.kmem.wrong f = 0 := fun f => by
    have h1 := h.once f
    have h2 := h.handed f
    have h3 := h.right f
    have h4 := within_le L.first L.phystop f
    have h5 := hs f
    dsimp only at h5
    omega
  exact ⟨fun f => (hf f).1, fun f => (hf f).2.1, fun f => (hf f).2.2, hp⟩

theorem Inv.boot {mid ncpu : Nat} (h₁ : L.first ≤ mid) (h₂ : mid ≤ L.phystop)
    (hmain : main L mid ncpu (start L) = (.ok (), s)) : Inv L s := by
  obtain ⟨hs, hp⟩ := main_ends h₁ h₂ () s hmain
  have hout : ∀ f, (start L).kmem.handed f = within L.first L.phystop f := fun f => by
    show List.count f (List.range' L.first (L.phystop - L.first)) = _
    rw [List.Nodup.count List.nodup_range', within]
    refine if_congr ?_ rfl rfl
    rw [List.mem_range'_1]
    omega
  have hf : ∀ f, s.kmem.count f + s.owned f = within L.first L.phystop f ∧ s.kmem.handed f = s.owned f ∧
      s.kmem.wrong f = 0 := fun f => by
    have h₁ : (start L).kmem.count f = 0 := rfl
    have h₂ : (start L).kmem.wrong f = 0 := rfl
    have h3 := hout f
    have h4 := start_owned L f
    have h5 := within_le L.first L.phystop f
    have h6 := hs f
    dsimp only at h6
    omega
  exact ⟨fun f => (hf f).1, fun f => (hf f).2.1, fun f => (hf f).2.2, hp⟩

theorem Inv.pipes_free (h : Inv L s) (hf : 0 < s.kmem.count f) : s.pipes f = none := by
  have h1 := h.once f
  have h2 := within_le L.first L.phystop f
  rw [St.owned] at h1
  have h3 : pipeCount (s.pipes f) = 0 := by omega
  rcases hp : s.pipes f with _ | e
  · rfl
  · rw [hp] at h3
    cases h3

/-! ### Calls -/

/-- What a call `c` of process `p` has given back when it fails. -/
def GivesBack (p : Fin NPROC) (s s' : St) : Call → Prop
  | .fork | .exec _ | .pipe _ _ _ => s'.kmem.freelist.Perm s.kmem.freelist
  | .sbrk _ => ∃ pd', (s'.procs p).pgdir = some pd' ∧
      ∀ f ∈ s.kmem.freelist, f ∈ s'.kmem.freelist ∨ 0 < pd'.ownPages f
  | .exit | .wait _ | .close _ _ => True

theorem Inv.perm (h : Inv L s) (h' : Inv L s') (ho : ∀ f, s'.owned f = s.owned f) :
    s'.kmem.freelist.Perm s.kmem.freelist :=
  List.perm_iff_count.2 fun f => by
    have h1 := h.once f
    have h2 := h'.once f
    have h3 := ho f
    show s'.kmem.count f = s.kmem.count f
    omega

/-- A page that is not free any more is a page table: the page directory maps no new page. -/
theorem Inv.kept {pd pd' : PageDir} (h : Inv L s) (h' : Inv L s') (hb : pd'.Below pd)
    (ho : ∀ f, s'.owned f + pd.count f = s.owned f + pd'.count f)
    (hf : f ∈ s.kmem.freelist) : f ∈ s'.kmem.freelist ∨ 0 < pd'.ownPages f := by
  have h1 : 0 < s.kmem.count f := List.count_pos_iff.2 hf
  have h2 := h.once f
  have h3 := h'.once f
  have h4 := ho f
  have h5 := within_le L.first L.phystop f
  have h6 := pd.count_eq f
  have h7 := pd'.count_eq f
  have h8 := PageDir.userPages_le f hb
  rcases Nat.eq_zero_or_pos (pd'.ownPages f) with h0 | h0
  · exact .inl (List.count_pos_iff.1 (by show 0 < s'.kmem.count f; omega))
  · exact .inr h0

theorem Inv.run {c : Call} {r : Int} (h : Inv L s) (hp : (s.procs p).live = true)
    (hr : c.run L p s = (.ok r, s')) : Inv L s' ∧ (r = -1 → GivesBack p s s' c) := by
  rcases c with _ | x | _ | killed | n | ⟨argOk, filesOk, fdsOk⟩ | ⟨page, writable⟩
  · obtain ⟨h1, h2, h3⟩ := fork_ends h.procs r s' hr
    have h' := h.shift h1 h2
    exact ⟨h', fun he => h.perm h' (h3 he)⟩
  · obtain ⟨h1, h2, h3⟩ := exec_ends h.procs hp r s' hr
    have h' := h.shift h1 h2
    exact ⟨h', fun he => h.perm h' (h3 he)⟩
  · obtain ⟨h1, h2⟩ := exit_ends h.procs hp r s' hr
    exact ⟨h.shift h1 h2, fun _ => trivial⟩
  · obtain ⟨h1, h2⟩ := wait_ends h.procs r s' hr
    exact ⟨h.shift h1 h2, fun _ => trivial⟩
  · obtain ⟨h1, h2, h3⟩ := sbrk_ends h.procs hp r s' hr
    have h' := h.shift h1 h2
    refine ⟨h', fun he => ?_⟩
    obtain ⟨pd, pd', -, hpd', hb, ho⟩ := h3 he
    exact ⟨pd', hpd', fun f hf => h.kept h' hb ho hf⟩
  · obtain ⟨h1, h2, h3⟩ := pipe_ends h.procs (fun f => h.pipes_free) r s' hr
    have h' := h.shift h1 h2
    exact ⟨h', fun he => h.perm h' (h3 he)⟩
  · obtain ⟨h1, h2⟩ := close_ends h.procs r s' hr
    exact ⟨h.shift h1 h2, fun _ => trivial⟩

theorem Inv.withFails (h : Inv L s) (fails : List Bool) : Inv L (s.withFails fails) := by
  have ho : ∀ f, (s.withFails fails).owned f = s.owned f := s.owned_kmem _
  exact ⟨fun f => by rw [ho f]; exact h.once f, fun f => by rw [ho f]; exact h.handed f, h.right, h.procs⟩

theorem Inv.step {a : Act} (h : Inv L s) (hs : step L s a = some s') : Inv L s' := by
  unfold ProcMem.step at hs
  split at hs
  · rename_i hg
    rw [Bool.and_eq_true] at hg
    split at hs
    · rename_i r s1 hr
      cases hs
      exact ((h.withFails a.fails).run (by exact hg.1) hr).1
    · cases hs
  · cases hs

/-- What holds of the pages in every state that is reached after the boot. -/
theorem reachable_pages_owned {mid ncpu : Nat} {s₀ : St} (h₁ : L.first ≤ mid) (h₂ : mid ≤ L.phystop)
    (hboot : main L mid ncpu (start L) = (.ok (), s₀)) (h : Machine.Reachable (step L) s₀ s) :
    (∀ f, s.kmem.freelist.count f + s.owned f = if L.first ≤ f ∧ f < L.phystop then 1 else 0) ∧
      s.kmem.bad = [] ∧
      ∀ p c fails s', (s.procs p).live = true → Call.run L p c (s.withFails fails) = (.ok (-1), s') →
        GivesBack p s s' c := by
  have hinv : Inv L s := h.inv (Inv.boot h₁ h₂ hboot) fun _ _ _ hi _ hs => hi.step hs
  refine ⟨hinv.once, List.eq_nil_iff_forall_not_mem.2 fun f => List.count_eq_zero.1 (hinv.right f), ?_⟩
  intro p c fails s' hp hc
  have hgives := ((hinv.withFails fails).run (by exact hp) hc).2 rfl
  rcases c <;> exact hgives

def smallLayout (pages : Nat) : Layout where
  first := 1
  phystop := pages
  kmap := [⟨Vm.KERNBASE, 0, PGSIZE, PTE_W⟩]
  first_pos := Nat.one_pos
  upper := by simp [Kmap.size, sub32, Vm.KERNBASE, PGSIZE]

def bootSmall (pages : Nat) : Except Panic Unit × St :=
  main (smallLayout pages) 10 1 (start (smallLayout pages))

def runSmall (pages : Nat) (as : List Act) : Option St :=
  match bootSmall pages with
  | (.ok (), s) => Machine.run (step (smallLayout pages)) s as
  | (.error _, _) => none

theorem runSmall_reachable {pages : Nat} {as : List Act} (h : runSmall pages as = some s) :
    ∃ s₀, bootSmall pages = (.ok (), s₀) ∧ Machine.Reachable (step (smallLayout pages)) s₀ s := by
  unfold runSmall at h
  split at h
  · rename_i s₀ hs0
    exact ⟨s₀, hs0, .of_run h⟩
  · cases h

/-- A child that grows, makes a pipe and exits, and whose parent waits for it. -/
def forkPipeWait : List Act :=
  [⟨0, .fork, []⟩, ⟨1, .sbrk 4096, []⟩, ⟨1, .pipe true true true, []⟩, ⟨1, .exit, []⟩, ⟨0, .wait false, []⟩]

def failingFork (pages : Nat) (s : St) : Except Panic Int × St :=
  Call.run (smallLayout pages) 0 .fork (s.withFails [false, false, true])

theorem reachable_pages_owned_forkPipeWait : ∃ s s', runSmall 30 forkPipeWait = some s ∧
    failingFork 30 s = (.ok (-1), s') ∧
    (∀ f, s.kmem.freelist.count f + s.owned f = if 1 ≤ f ∧ f < 30 then 1 else 0) ∧ s.kmem.bad = [] ∧
    s'.kmem.freelist.Perm s.kmem.freelist := by
  have heval : (runSmall 30 forkPipeWait).any (fun s => (s.procs 0).live && match (failingFork 30 s).1 with
      | .ok r => r == -1
      | .error _ => false) = true := by decide +kernel
  obtain ⟨s, hs, hfork⟩ := Option.any_eq_true _ _ |>.1 heval
  rw [Bool.and_eq_true] at hfork
  obtain ⟨s0, hboot, hreach⟩ := runSmall_reachable hs
  have h := reachable_pages_owned (L := smallLayout 30) (by decide) (by decide) hboot hreach
  rcases hr : failingFork 30 s with ⟨_ | r, s'⟩
  · rw [hr] at hfork
    cases hfork.2
  · rw [hr] at hfork
    obtain rfl : r = -1 := by simpa using hfork.2
    exact ⟨s, s', hs, hr, h.1, h.2.1, h.2.2 0 .fork _ s' hfork.1 hr⟩

end Xv6.ProcMem
