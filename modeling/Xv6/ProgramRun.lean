import Xv6.ProgramLoad
import Xv6.StackPage

/-!
# `exec` replaces the program or does nothing

`exec` returns -1 with the process, the pages and the file system as they were, or 0 with the new program in
place (`exec_meets`). Whatever the file holds, it does not panic in the functions on page tables; what is
left are a full inode cache and `copyout`, of which it is only assumed that it has stored the bytes when it
returns 0.
-/

namespace Xv6

open Exec

/-! ### Transactions -/

namespace Fs

variable {s s' : Fs} {n : Nat} {lh : List Nat} {L : Option Slot} {I : Multiset Slot}

theorem Tree.setLog (h : s.Tree) : (s.setLog n lh).Tree :=
  ⟨h.sb, ⟨h.cache.nonneg, h.cache.dev, h.cache.uniq, h.cache.inum⟩, h.store, h.unlocked,
    ⟨h.root.live, h.root.lasting⟩, h.cached, h.align, fun i k h1 h2 h3 h4 =>
      ⟨(h.target i k h1 h2 h3 h4).live, (h.target i k h1 h2 h3 h4).lasting⟩⟩

theorem Calm.endOp (hidle : s.outstanding = 0 → s.lh = []) (h : Calm (s.setLog (s.outstanding + 1) s.lh) L I s') :
    ∃ s'', endOp s' = (.ok (), s'') ∧ Calm s L I s'' ∧ s''.icache = s'.icache := by
  have hout : s'.outstanding = s.outstanding + 1 := by
    rw [h.same]
    rfl
  have hlh : s'.lh = s.lh := by
    rw [h.same]
    rfl
  refine ⟨_, endOp_run s', ⟨?_, h.view, ?_, h.ref, h.inum, fun k hk => ?_, h.clean, h.locked⟩, rfl⟩
  · have hlog : (if s'.outstanding = 1 then [] else s'.lh) = s.lh := by
      split
      · rename_i hone
        exact (hidle (by omega)).symm
      · exact hlh
    rw [hlog, hout, Nat.add_sub_cancel]
    conv_lhs => rw [h.same]
    rfl
  · exact ⟨h.cache.nonneg, h.cache.dev, h.cache.uniq, h.cache.inum⟩
  · exact ⟨(h.kept k hk).live, (h.kept k hk).lasting⟩

end Fs

namespace Program

open Vm

variable {L : Layout} {k₀ : Kmem} {ram₀ : Ram} {old pd : PageDir} {s : Kernel} {fs : Fs} {ip cwd : Slot}
  {rd : UInt32 → UInt32 → Option (List UInt8)} {phs : List Proghdr} {sz : Nat} {path : List UInt8}
  {argv : List (List UInt8)}

theorem Keeps.trans {s s' s'' : Kernel} (h : Keeps s s') (h' : Keeps s' s'') : Keeps s s'' :=
  ⟨h'.fs.trans h.fs, h'.proc.trans h.proc⟩

theorem release_run {s' : Kernel} (ht : fs.Tree) (hidle : fs.outstanding = 0 → fs.lh = [])
    (h : Fs.Calm (fs.setLog (fs.outstanding + 1) fs.lh) (some ip) {ip} s'.fs) :
    ∃ fs', release (some ip) s' = (.ok (), { s' with fs := fs' }) ∧ Fs.Calm fs none 0 fs' := by
  obtain ⟨fs1, hrun1, h1, -⟩ := Fs.Calm.iunlockput (I := 0) ht.setLog h
  obtain ⟨fs2, hrun2, h2, -⟩ := h1.endOp hidle
  refine ⟨fs2, ?_, h2⟩
  have hfirst : onFs (iunlockput ip) s' = (.ok (), { s' with fs := fs1 }) := zoom_ok hrun1
  have hsecond : onFs endOp { s' with fs := fs1 } = (.ok (), { s' with fs := fs2 }) := zoom_ok hrun2
  show (onFs (iunlockput ip) >>= fun _ => onFs endOp) s' = _
  rw [bind_of_ok hfirst, hsecond]

def Given (k₀ : Kmem) (ram₀ : Ram) (pgdir : Option PageDir) (p : Phys) : Prop :=
  pgdir.elim (Restored k₀ ram₀ p) fun pd => Owns k₀ ram₀ pd p

theorem freeNew_meets (hk : Fresh L k₀ old) {pgdir : Option PageDir} (h : Given k₀ ram₀ pgdir s.phys) :
    Meets (freeNew L pgdir) s (fun _ s' => Keeps s s' ∧ Restored k₀ ram₀ s'.phys) fun _ _ => False := by
  rcases pgdir with _ | pd
  · exact .pure ⟨⟨rfl, rfl⟩, h⟩
  · exact onPhys_meets (Owns.freevm hk h)

/-! ### The file -/

def elfhdr (rd : UInt32 → UInt32 → Option (List UInt8)) : Elfhdr := Elfhdr.read ((rd 0 52).getD [])

def fileSegments (rd : UInt32 → UInt32 → Option (List UInt8)) : List Proghdr :=
  segments rd (elfhdr rd).phnum (elfhdr rd).phoff

structure Outcome (L : Layout) (p : Phys) (rd : UInt32 → UInt32 → Option (List UInt8))
    (r : Option (Nat × Nat × PageDir)) (p' : Phys) : Prop where
  failed : r = none → Restored p.kmem p.ram p'
  entry : ∀ x, r = some x → x.1 = (elfhdr rd).entry
  laid : ∀ x, r = some x → Laid L p.kmem p.ram rd (fileSegments rd) x.2.1 x.2.2 p'

theorem loadProgram_meets (hL : KmapOk L) (hk : Fresh L s.phys.kmem old) (ht : fs.Tree)
    (hidle : fs.outstanding = 0 → fs.lh = [])
    (hcalm : Fs.Calm (fs.setLog (fs.outstanding + 1) fs.lh) (some ip) {ip} s.fs)
    (hread : ∀ off n, readi ip off n s.fs = (.ok (rd off n), s.fs)) :
    Meets (loadProgram L ip) s (fun r s' => s'.proc = s.proc ∧ Fs.Calm fs none 0 s'.fs ∧
      Outcome L s.phys rd r s'.phys) fun _ _ => False := by
  -- every way to fail
  have hfail : ∀ (pgdir : Option PageDir) (s1 : Kernel), Keeps s s1 → Given s.phys.kmem s.phys.ram pgdir s1.phys →
      Meets (cleanupexec L pgdir (some ip) >>= fun _ => pure none) s1
        (fun (r : Option (Nat × Nat × PageDir)) s' => s'.proc = s.proc ∧ Fs.Calm fs none 0 s'.fs ∧
          Outcome L s.phys rd r s'.phys) fun _ _ => False := by
    intro pgdir s1 hkeep hgiven
    unfold cleanupexec
    rw [bind_assoc]
    refine .bind (freeNew_meets hk hgiven) ?_
    rintro _ s2 ⟨hkeep2, hrest⟩
    have hopen : Fs.Calm (fs.setLog (fs.outstanding + 1) fs.lh) (some ip) {ip} s2.fs := by
      rw [(hkeep.trans hkeep2).fs]
      exact hcalm
    obtain ⟨fs', hrun, hfs⟩ := release_run ht hidle hopen
    exact .ok_bind hrun (.pure ⟨(hkeep.trans hkeep2).proc, hfs, fun _ => hrest, nofun, nofun⟩)
  have hstart : Keeps s s := ⟨rfl, rfl⟩
  have hnone : Given s.phys.kmem s.phys.ram none s.phys := ⟨fun _ => rfl, fun _ _ => rfl⟩
  unfold loadProgram
  refine .ok_bind (onFs_readi hread rfl _ _) ?_
  rcases hbs : rd 0 52 with _ | bs
  · exact hfail none s hstart hnone
  have helf : elfhdr rd = Elfhdr.read bs := by rw [elfhdr, hbs, Option.getD_some]
  dsimp only
  rw [← helf]
  split
  · exact hfail none s hstart hnone
  split
  · exact hfail none s hstart hnone
  refine .bind (onPhys_meets (Space.setupkvm hL hk s.phys.ram)) ?_
  rintro (_ | pd) s1 ⟨hkeep, hspace⟩
  · exact hfail none s1 hkeep hspace
  · have hlaid : Laid L s.phys.kmem s.phys.ram rd [] 0 pd s1.phys :=
      ⟨hspace, nofun, nofun, fun va hva => absurd hva (Nat.not_lt_zero va)⟩
    refine .bind (loadSegments_meets hk hread _ hkeep.fs hlaid) ?_
    rintro ⟨_ | sz, pd'⟩ s2 ⟨hkeep2, howns, hlaid2⟩
    · exact hfail (some pd') s2 (hkeep.trans hkeep2) howns
    · have hopen : Fs.Calm (fs.setLog (fs.outstanding + 1) fs.lh) (some ip) {ip} s2.fs := by
        rw [(hkeep.trans hkeep2).fs]
        exact hcalm
      obtain ⟨fs', hrun, hfs⟩ := release_run ht hidle hopen
      refine .ok_bind hrun (.pure ⟨(hkeep.trans hkeep2).proc, hfs, nofun, fun x hx => ?_, fun x hx => ?_⟩) <;> cases hx
      · rfl
      · exact hlaid2 sz rfl

/-! ### The stack -/

/-- What is assumed of `copyout`; `F` says whether it may fault. -/
def Honest (copyout : PageDir → Nat → List UInt8 → Exec Ram Fault Int) (F : Prop) : Prop :=
  ∀ pd va buf ram, Meets (copyout pd va buf) ram (Wrote pd va buf ram) fun _ _ => F

def Faulted (F : Prop) (e : Halt) (_ : Kernel) : Prop := F ∧ ∃ f, e = .fault f

section Stack

variable {copyout : PageDir → Nat → List UInt8 → Exec Ram Fault Int} {F : Prop} (hco : Honest copyout F)
  {ram₁ : Ram} {sp : Nat} {objs : List (Nat × List UInt8)}

include hco

theorem onMem_copyout (pd : PageDir) (va : Nat) (buf : List UInt8) (s : Kernel) :
    Meets (onMem (copyout pd va buf)) s (fun r s' => Keeps s s' ∧ s'.phys.kmem = s.phys.kmem ∧
      Wrote pd va buf s.phys.ram r s'.phys.ram) (Faulted F) := by
  unfold onMem
  refine Meets.zoom (hco pd va buf s.phys.ram) ?_ ?_
  · exact fun _ _ h => ⟨⟨rfl, rfl⟩, rfl, h⟩
  · exact fun e _ h => ⟨h, e, rfl⟩

theorem pushArgs_meets (h : StackDir pd sz) (argc : Nat) (hp : Pushed pd sz ram₁ sp objs s.phys.ram)
    (ho : Owns k₀ ram₀ pd s.phys) :
    Meets (pushArgs copyout pd argv argc sp (objs.map (·.1))) s (fun r s' => Keeps s s' ∧ Owns k₀ ram₀ pd s'.phys ∧
      ∀ sp' ptrs, r = some (sp', ptrs) → ∃ new, Pushed pd sz ram₁ sp' (objs ++ new) s'.phys.ram ∧
        ptrs = (objs ++ new).map (·.1) ∧ new.map (·.2) = argv.map (· ++ [0])) (Faulted F) := by
  induction argv generalizing argc sp objs s with
  | nil =>
    refine .pure ⟨⟨rfl, rfl⟩, ho, fun sp' ptrs hr => ⟨[], ?_, ?_, rfl⟩⟩ <;> cases hr
    · rwa [List.append_nil]
    · rw [List.append_nil]
  | cons arg argv ih =>
    rw [pushArgs]
    split
    · exact .pure ⟨⟨rfl, rfl⟩, ho, nofun⟩
    · have hlen : arg.length + 1 = (arg ++ [0]).length := by rw [List.length_append, List.length_singleton]
      rw [hlen]
      refine .bind (onMem_copyout hco _ _ _ s) ?_
      rintro r s1 ⟨hkeep, hkmem, hw⟩
      have ho1 : Owns k₀ ram₀ pd s1.phys := by
        have := h.owns ho hw
        rwa [← hkmem] at this
      split
      · exact .pure ⟨hkeep, ho1, nofun⟩
      · rename_i hr
        rcases hw with ⟨-, hcov, hw⟩ | ⟨rfl, -⟩
        · have hp1 := hp.push h (List.append_ne_nil_of_right_ne_nil arg (List.cons_ne_nil 0 [])) hcov hw
          have hmap : objs.map (·.1) ++ [sub32 sp (arg ++ [0]).length / 4 * 4] =
              (objs ++ [(sub32 sp (arg ++ [0]).length / 4 * 4, arg ++ [0])]).map Prod.fst := by
            rw [List.map_append]
            rfl
          rw [hmap]
          refine (ih (argc + 1) hp1 ho1).mono ?_ fun _ _ => id
          rintro r s2 ⟨hkeep2, ho2, hres⟩
          refine ⟨hkeep.trans hkeep2, ho2, fun sp' ptrs hsome => ?_⟩
          obtain ⟨new, hnew, hptrs, hargs⟩ := hres sp' ptrs hsome
          rw [List.append_assoc] at hnew hptrs
          exact ⟨_, hnew, hptrs, by rw [List.map_append, hargs]; rfl⟩
        · exact absurd (by decide : (-1 : Int) < 0) hr

/-- The array that is copied to the stack, whose third word points to its fourth. -/
def ustack (esp : Nat) (ptrs : List Nat) : List Nat := 0xffffffff :: ptrs.length :: (esp + 12) :: (ptrs ++ [0])

omit hco in
theorem length_words (ws : List Nat) : (words ws).length = 4 * ws.length := by
  unfold words
  rw [List.length_flatMap]
  simp [Nat.mul_comm]

omit hco in
theorem length_ustack (esp : Nat) (ptrs : List Nat) : (words (ustack esp ptrs)).length = (3 + ptrs.length + 1) * 4 := by
  rw [length_words, ustack, List.length_cons, List.length_cons, List.length_cons, List.length_append,
    List.length_singleton]
  omega

/-- The argument strings and the array are on the stack. -/
structure OnStack (pd : PageDir) (sz : Nat) (ram₁ : Ram) (argv : List (List UInt8)) (esp : Nat)
    (objs : List (Nat × List UInt8)) (ram : Ram) : Prop where
  args : objs.map (·.2) = argv.map (· ++ [0])
  pushed : Pushed pd sz ram₁ esp (objs ++ [(esp, words (ustack esp (objs.map (·.1))))]) ram

theorem pushStack_meets (h : StackDir pd sz) (ho : Owns k₀ ram₀ pd s.phys) :
    Meets (pushStack copyout pd sz argv) s (fun r s' => Keeps s s' ∧ Owns k₀ ram₀ pd s'.phys ∧
      ∀ esp, r = some esp → ∃ objs, OnStack pd sz s.phys.ram argv esp objs s'.phys.ram) (Faulted F) := by
  unfold pushStack
  refine .bind (pushArgs_meets hco h 0 h.empty ho) ?_
  rintro (_ | ⟨sp, ptrs⟩) s1 ⟨hkeep, ho1, hres⟩
  · exact .pure ⟨hkeep, ho1, nofun⟩
  obtain ⟨objs, hp, hptrs, hargs⟩ := hres sp ptrs rfl
  rw [List.nil_append] at hp hptrs
  have hlen : argv.length = ptrs.length := by
    have := congrArg List.length hargs
    rw [List.length_map, List.length_map] at this
    rw [hptrs, List.length_map, this]
  have halign : sub32 sp ((3 + ptrs.length + 1) * 4) / 4 * 4 = sub32 sp ((3 + ptrs.length + 1) * 4) := by
    have := hp.align
    simp only [sub32]
    omega
  dsimp only
  rw [hlen]
  refine .bind (onMem_copyout hco _ _ _ s1) ?_
  rintro r s2 ⟨hkeep2, hkmem, hw⟩
  have ho2 : Owns k₀ ram₀ pd s2.phys := by
    have := h.owns ho1 hw
    rwa [← hkmem] at this
  refine .pure ⟨hkeep.trans hkeep2, ho2, fun esp hesp => ⟨objs, hargs, ?_⟩⟩
  split at hesp
  · cases hesp
  · rename_i hr
    obtain rfl := Option.some.inj hesp
    rcases hw with ⟨-, hcov, hw⟩ | ⟨rfl, -⟩
    · -- the third word points behind itself
      have hthird : ∀ a, sub32 sp ((3 + ptrs.length + 1) * 4) = a → a + (3 + ptrs.length + 1) * 4 ≤ sp →
          sub32 sp ((ptrs.length + 1) * 4) = a + 12 := by
        have := hp.hi
        have := h.low
        simp only [sub32, Vm.KERNBASE] at *
        omega
      have hlenw : ∀ x, (words (0xffffffff :: ptrs.length :: x :: (ptrs ++ [0]))).length = (3 + ptrs.length + 1) * 4 :=
        fun x => by
          simp only [length_words, List.length_cons, List.length_append, List.length_nil]
          omega
      rw [hlenw] at hcov
      have hfit := h.fits (n := (3 + ptrs.length + 1) * 4) hp.lo hp.hi hp.align (by omega) (by rw [halign]; exact hcov)
      rw [halign] at hfit
      rw [hthird _ rfl hfit.2] at hw
      have hne : words (ustack (sub32 sp ((3 + ptrs.length + 1) * 4)) ptrs) ≠ [] := fun hnil => by
        have := congrArg List.length hnil
        rw [length_ustack, List.length_nil] at this
        omega
      have hpush := hp.push h hne (by rw [length_ustack, halign]; exact hcov)
        (by rw [length_ustack, halign]; exact hw)
      rw [length_ustack, halign] at hpush
      rw [← hptrs]
      exact hpush
    · exact absurd (by decide : (-1 : Int) < 0) hr

/-- User memory of size `sz'` with the program in the first `sz` bytes and the stack in the last page. -/
structure Stacked (rd : UInt32 → UInt32 → Option (List UInt8)) (phs : List Proghdr) (sz : Nat)
    (argv : List (List UInt8)) (sz' esp : Nat) (pd : PageDir) (ram : Ram) : Prop where
  size : sz' = pgRoundUp sz + 2 * PGSIZE
  dir : StackDir pd sz'
  image : ∀ va, va < pgRoundUp sz → load pd ram va = some (loaded rd phs va)
  stack : ∃ ram₁ objs, OnStack pd sz' ram₁ argv esp objs ram

theorem makeStack_meets (hk : Fresh L k₀ old) (h : Laid L k₀ ram₀ rd phs sz pd s.phys) :
    Meets (makeStack L copyout sz pd argv) s (fun x s' => Keeps s s' ∧ Owns k₀ ram₀ x.2 s'.phys ∧
      ∀ sz' esp, x.1 = some (sz', esp) → Stacked rd phs sz argv sz' esp x.2 s'.phys.ram) (Faulted F) := by
  have hup := pgRoundUp_eq sz h.size
  unfold makeStack
  generalize hnew : (pgRoundUp sz + 2 * PGSIZE) % 2 ^ 32 = newsz
  have halloc := onPhys_meets (h.toSpace.roundUp.allocuvm hk newsz)
  refine .bind halloc.of_safe ?_
  rintro ⟨sz', pd'⟩ s1 ⟨hkeep, howns, hgrow⟩
  dsimp only at howns hgrow ⊢
  split
  · exact .pure ⟨hkeep, howns, nofun⟩
  rename_i hpos
  obtain ⟨hlow, hmax, hsp, hg⟩ := hgrow (Nat.pos_of_ne_zero hpos)
  obtain ⟨hsz, halign, hlow'⟩ : sz' = pgRoundUp sz + 2 * PGSIZE ∧ sz' % PGSIZE = 0 ∧ sz' < Vm.KERNBASE := by
    have h1 := hup.1
    have h2 := hup.2.1
    simp only [Vm.KERNBASE, PGSIZE] at h1 h2 hlow hnew ⊢
    omega
  have hclear := onPhys_meets (hsp.clearpteu hk halign (by omega) hlow')
  refine .bind hclear.of_safe ?_
  rintro pd2 s2 ⟨hkeep2, howns2, hdir, hload⟩
  refine .bind (pushStack_meets hco hdir howns2) ?_
  rintro sp s3 ⟨hkeep3, howns3, hstack⟩
  refine .pure ⟨(hkeep.trans hkeep2).trans hkeep3, howns3, fun sz'' esp hx => ?_⟩
  obtain ⟨esp', hsp', hpair⟩ := Option.map_eq_some_iff.1 hx
  obtain ⟨rfl, rfl⟩ := Prod.mk.inj hpair
  obtain ⟨objs, hon⟩ := hstack esp' hsp'
  refine ⟨hsz, hdir, fun va hva => ?_, _, objs, hon⟩
  have hround : pgRoundUp (pgRoundUp sz) = pgRoundUp sz := by
    have h1 := hup.1
    have h2 := hup.2.1
    generalize pgRoundUp sz = n at h1 h2
    simp only [Vm.KERNBASE, PGSIZE] at h1 h2
    simp only [pgRoundUp, PGSIZE]
    omega
  rw [hon.pushed.below va (by omega), hload va (by omega), hg.old va (by rwa [hround]), h.bytes va hva]

end Stack

end Program

end Xv6
