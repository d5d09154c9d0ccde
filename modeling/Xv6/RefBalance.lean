import Xv6.FileRefs
import Xv6.Lib.Run

/-!
# References balance over system calls

Each system call gives back every reference it takes, on success and on every failure path, except
those that a descriptor, a current directory or an open file then stands for.
-/

namespace Xv6.Sysfile

open Function Exec Tally Fs
open ProcMem (PipeEnds)

variable {L : Vm.Layout} {x y : Sys} {p np : Pid} {fd : Fd} {f g : Fid} {k ip : Slot} {page : Nat}
  {F : Fid → Int} {J : Slot → Int} {I : Multiset Slot}

/-! ### Reading and writing -/

/-- Only the offset of the file may differ, and no reference does. -/
structure FileSame (a b : OneFile) : Prop where
  fs : SameRefs a.fs b.fs
  file : ∃ off, b.f = { a.f with off := off }

instance : Std.Refl FileSame := ⟨fun a => ⟨refl_of SameRefs a.fs, a.f.off, rfl⟩⟩

instance : IsTrans OneFile FileSame :=
  ⟨fun _ _ _ h h' => ⟨trans_of SameRefs h.fs h'.fs, by
    obtain ⟨o, ho⟩ := h.file
    obtain ⟨o', ho'⟩ := h'.file
    exact ⟨o', by rw [ho', ho]⟩⟩⟩

theorem onFs_same {α : Type} {m : FsM α} (h : Moves SameRefs m) : Moves FileSame (onFs m) :=
  fun a => ⟨h a.fs, a.f.off, rfl⟩

theorem advance_same (r : Option Nat) : Moves FileSame (Exec.modify fun a => { a with f := a.f.advance r } : FileM Unit) :=
  .modify fun a => ⟨refl_of SameRefs a.fs, _, rfl⟩

theorem fileread_same (n : UInt32) (pipe : Option (List UInt8)) : Moves FileSame (fileread (pure pipe) n) := by
  refine .bind .get fun a => ?_
  split
  · exact .pure _
  split
  · exact .pure _
  · exact .bind (onFs_same (ilock_refs _)) fun _ => .bind (onFs_same (readi_refs _ _ _)) fun _ =>
      .bind (advance_same _) fun _ => .bind (onFs_same (iunlock_refs _)) fun _ => .pure _
  · exact onFs_same (.stop _)

theorem filewriteRound_same (src : Nat → UInt8) (n₁ : Nat) : Moves FileSame (filewriteRound src n₁) := by
  have hchunk : Moves FileSame (writeChunk src n₁) :=
    .bind .get fun _ => .bind (onFs_same (writei_refs _ _ _ _)) fun _ => .bind (advance_same _) fun _ => .pure _
  exact .bind .get fun _ => .bind (onFs_same beginOp_refs) fun _ => .bind (onFs_same (ilock_refs _)) fun _ =>
    .bind hchunk fun _ => .bind (onFs_same (iunlock_refs _)) fun _ => .bind (onFs_same endOp_refs) fun _ => .pure _

theorem filewriteLoop_same (src : Nat → UInt8) (n fuel i : Nat) : Moves FileSame (filewriteLoop src n fuel i) := by
  induction fuel generalizing i with
  | zero => exact .pure _
  | succ fuel ih =>
    unfold filewriteLoop
    split
    · refine .bind (filewriteRound_same _ _) fun r => ?_
      split
      · exact .pure _
      split
      · exact onFs_same (.stop _)
      · exact ih _
    · exact .pure _

theorem filewrite_same (src : Nat → UInt8) (n : Nat) (pipe : Int) : Moves FileSame (filewrite (pure pipe) src n) := by
  refine .bind .get fun a => ?_
  split
  · exact .pure _
  split
  · exact .pure _
  · exact filewriteLoop_same _ _ _ _
  · exact onFs_same (.stop _)

theorem filestat_same : Moves FileSame filestat := by
  refine .bind .get fun a => ?_
  dsimp only
  split
  · exact .bind (onFs_same (ilock_refs _)) fun _ => .bind .get fun _ => .bind (onFs_same (iunlock_refs _)) fun _ => .pure _
  · exact .pure _

/-! ### The rules for calls -/

/-- Between calls nothing is held. -/
def Sound (L : Vm.Layout) (x : Sys) : Prop := Balance L (fun _ => 0) (cnt 0) x

/-- The call keeps the references in balance, and the entries that are referenced are not recycled. -/
def CallOk (L : Vm.Layout) {α : Type} (p : Pid) (m : SysM α) : Prop :=
  ∀ x, Sound L x → (x.procs p).busy → Ends m x fun _ y => Sound L y ∧ Kept (base x) x.fs y.fs

theorem cwdOf_ends : Ends (cwdOf p) x fun ip y => (x.procs p).cwd = some ip ∧ y = x := by
  refine .get_bind ?_
  split
  · rename_i ip hip
    exact .pure ⟨hip, rfl⟩
  · exact .stop

theorem withCwd_ok {α : Type} {m : Slot → FsM α}
    (hm : ∀ (b : Slot → Nat) (cwd : Slot), 0 < b cwd → Uses b 0 (m cwd) fun _ => 0) : CallOk L p (withCwd p m) := by
  intro x hx hp
  refine cwdOf_ends.bind fun cwd y hy => ?_
  obtain ⟨hc, rfl⟩ := hy
  exact (liftFs_ends hx (hm _ cwd (base_pos hc))).mono fun _ _ h => h.2

theorem argfd_ends (a : Option Int) :
    Ends (argfd p a) x fun r y => y = x ∧ ∀ fd f, r = some (fd, f) → (x.procs p).ofile fd = some f := by
  refine .get_bind (.pure ⟨rfl, fun fd f hr => ?_⟩)
  rcases a with _ | n
  · cases hr
  · simp only [Option.bind_some] at hr
    split at hr
    · simp only [Option.map_eq_some_iff, Prod.mk.injEq] at hr
      obtain ⟨f', hf', rfl, rfl⟩ := hr
      exact hf'
    · cases hr

theorem liftFile_ends {α : Type} {m : FileM α} (h : Sound L x) (hm : Moves FileSame m) :
    Ends (liftFile f m) x fun _ y => Sound L y ∧ Kept (base x) x.fs y.fs := by
  intro a y hy
  have hs := hm ⟨x.fs, x.ftable f⟩
  obtain rfl : _ = y := congrArg Prod.snd hy
  obtain ⟨off, hoff⟩ := hs.file
  refine ⟨?_, hs.fs.kept⟩
  have hb : Balance L (fun _ => 0) (cnt 0) (x.putFile f { x.ftable f with off := off }) := by
    refine (h.putFile (d := 0) (e := { x.ftable f with off := off }) ?_ (h.nonneg f) (h.closed f) (fun k => Iff.rfl)
      fun page w => Iff.rfl).of_eq (fun g => ?_) fun _ => rfl
    · exact (add_zero _).symm
    · split_ifs <;> rfl
  have hheld : Held (base (x.putFile f { x.ftable f with off := off })) 0 x.fs := hb.held fun k => cast_add_count (base _ k) 0 k
  show Balance L _ _ { x with ftable := update x.ftable f _, fs := _ }
  rw [hoff]
  exact hb.setFs (hs.fs.held hheld) fun k => cast_add_count (base _ k) 0 k

theorem onFile_ok {a : Option Int} {m : Fid → SysM Int}
    (hm : ∀ f x, Sound L x → Ends (m f) x fun _ y => Sound L y ∧ Kept (base x) x.fs y.fs) :
    CallOk L p (do
      match ← argfd p a with
      | none => return -1
      | some (_, f) => m f) := by
  intro x hx hp
  refine (argfd_ends a).bind fun r y hy => ?_
  obtain ⟨rfl, hr⟩ := hy
  rcases r with _ | ⟨fd, f⟩
  · exact .pure ⟨hx, .refl _ _⟩
  · exact hm f y hx

theorem sysRead_ok (a : Option Int) (argOk : Bool) (n : UInt32) (pipe : Option (List UInt8)) :
    CallOk L p (sysRead p a argOk n pipe) := by
  refine onFile_ok fun f x hx => ?_
  split
  · exact .pure ⟨hx, .refl _ _⟩
  · exact (liftFile_ends hx (fileread_same n pipe)).bind fun r y hy => .pure hy

theorem sysWrite_ok (a : Option Int) (argOk : Bool) (src : Nat → UInt8) (n : Nat) (pipe : Int) :
    CallOk L p (sysWrite p a argOk src n pipe) := by
  refine onFile_ok fun f x hx => ?_
  split
  · exact .pure ⟨hx, .refl _ _⟩
  · exact liftFile_ends hx (filewrite_same src n pipe)

theorem sysFstat_ok (a : Option Int) (argOk : Bool) : CallOk L p (sysFstat p a argOk) := by
  refine onFile_ok fun f x hx => ?_
  split
  · exact .pure ⟨hx, .refl _ _⟩
  · exact (liftFile_ends hx filestat_same).bind fun r y hy => .pure hy

theorem sysDup_ok (a : Option Int) : CallOk L p (sysDup p a) := by
  intro x hx hp
  refine (argfd_ends a).bind fun r y hy => ?_
  obtain ⟨rfl, hr⟩ := hy
  rcases r with _ | ⟨fd, f⟩
  · exact .pure ⟨hx, .refl _ _⟩
  refine (fdalloc_ends hx hp).bind fun r y' hy' => ?_
  rcases r with _ | fd'
  · obtain rfl := hy'
    exact .pure ⟨hx, .refl _ _⟩
  obtain ⟨hb, -, rfl⟩ := hy'
  refine (filedup_ends hb).bind fun _ z hz => ?_
  obtain ⟨hz, e, rfl⟩ := hz
  exact .pure ⟨hz.of_eq (fun g => by omega) fun _ => rfl, .refl _ _⟩

theorem sysClose_ok (a : Option Int) : CallOk L p (sysClose L p a) := by
  intro x hx hp
  refine (argfd_ends a).bind fun r y hy => ?_
  obtain ⟨rfl, hr⟩ := hy
  rcases r with _ | ⟨fd, f⟩
  · exact .pure ⟨hx, .refl _ _⟩
  have hb := hx.putOfile p fd none (.inr rfl)
  rw [hr fd f rfl] at hb
  refine .modify_bind ((fileclose_ends hb).bind fun _ z hz => .pure ⟨?_, kept_of_all hz.2.2⟩)
  exact hz.1.of_eq (fun g => by simp) fun _ => rfl

/-! ### Opening files -/

theorem allocFd_ends (h : Balance L F (cnt I) x) (hp : (x.procs p).busy) :
    Ends (allocFd L p) x fun r y => Balance L F (cnt I) y ∧ match r with
      | none => y.procs = x.procs ∧ Kept (fun _ => 1) x.fs y.fs
      | some (f, _) => (y.ftable f).type = .FD_NONE ∧ 0 < (y.ftable f).ref ∧ y.fs = x.fs := by
  refine (filealloc_ends h).bind fun r y hy => ?_
  rcases r with _ | f
  · obtain rfl := hy
    exact .pure ⟨h, rfl, .refl _ _⟩
  obtain ⟨hb, hz, rfl⟩ := hy
  refine (fdalloc_ends (f := f) hb hp).bind fun r y hy => ?_
  rcases r with _ | fd
  · obtain rfl := hy
    refine (fileclose_ends hb).bind fun _ z hz => .pure ⟨?_, hz.2.1, hz.2.2⟩
    exact hz.1.of_eq (fun g => by omega) fun _ => rfl
  · obtain ⟨hb', -, rfl⟩ := hy
    refine .pure ⟨hb'.of_eq (fun g => by omega) fun _ => rfl, ?_⟩
    have he : ((x.putFile f { x.ftable f with ref := 1 }).ftable f) = { x.ftable f with ref := 1 } := putFile_self
    refine ⟨?_, ?_, rfl⟩
    · show ((x.putFile f { x.ftable f with ref := 1 }).ftable f).type = _
      rw [he]
      exact h.closed f hz
    · show 0 < ((x.putFile f { x.ftable f with ref := 1 }).ftable f).ref
      rw [he]
      exact Int.one_pos

theorem Balance.openFile {e : File} (h : Balance L F (cnt (ip ::ₘ I)) x) (hn : (x.ftable f).type = .FD_NONE)
    (hr : 0 < (x.ftable f).ref) (her : e.ref = (x.ftable f).ref) (het : e.type = .FD_INODE) (hei : e.ip = ip) :
    Balance L F (cnt I) (x.putFile f e) := by
  have hfiles := h.toFilesOk.putFile (f := f) (d := 0) (e := e) (by rw [her, add_zero]) (by omega) fun h' => by omega
  have hF : (fun g => F g + if g = f then (0 : Int) else 0) = F := by
    funext g
    split_ifs <;> omega
  rw [hF] at hfiles
  refine ⟨hfiles, h.pipes.congr (isEnd_putFile fun page w => ?_) rfl rfl rfl, fun k => ?_, h.uniq⟩
  · refine iff_of_false ?_ (not_isEnd_of_none hn page w)
    rintro ⟨-, ht, -⟩
    rw [het] at ht
    cases ht
  · have hk : Opens k e ↔ k = ip := ⟨fun ho => ho.2.2.symm.trans hei, fun hk => ⟨by omega, het, hei.trans hk.symm⟩⟩
    have := h.inode k
    rw [cnt_cons, one_some] at this
    rw [base_putFile, if_neg (not_opens_of_none hn k)]
    simp only [hk]
    show (x.fs.icache k).ref = _
    omega

theorem openOp_ends (hx : Sound L x) (hp : (x.procs p).busy) (hc : (x.procs p).cwd = some ip) (path : List UInt8)
    (omode : UInt32) : Ends (openOp L p ip path omode) x fun _ y => Sound L y ∧ Kept (base x) x.fs y.fs := by
  refine (liftFs_same hx beginOp_refs).bind fun _ y0 hy0 => ?_
  obtain ⟨⟨s0, rfl⟩, hb0, hk0⟩ := hy0
  refine (liftFs_ends hb0 (openInode_uses (base_pos hc) path omode)).bind fun r y hy => ?_
  obtain ⟨⟨s, rfl⟩, hb, hk⟩ := hy
  have hkept : Kept (base x) x.fs s := (kept_of_all hk0).trans hk
  rcases r with _ | ip
  · exact (liftFs_same hb endOp_refs).bind fun _ y1 hy1 => .pure ⟨hy1.2.1, hkept.trans (kept_of_all hy1.2.2)⟩
  replace hb : Balance L (fun _ => 0) (cnt (ip ::ₘ 0)) _ := hb
  refine (allocFd_ends hb hp).bind fun r y1 hy1 => ?_
  rcases r with _ | ⟨f, fd⟩
  · obtain ⟨hb1, hprocs, hk1⟩ := hy1
    refine (liftFs_kept hb1 (iunlockput_uses ip) (iunlockput_kept ip)).bind fun _ y2 hy2 => ?_
    refine (liftFs_same hy2.2.1 endOp_refs).bind fun _ y3 hy3 => .pure ⟨hy3.2.1, ?_⟩
    exact hkept.trans (kept_of_all (hk1.trans (hy2.2.2.trans hy3.2.2)))
  · obtain ⟨hb1, hn, hr, hfs⟩ := hy1
    refine (liftFs_same hb1 (iunlock_refs ip)).bind fun _ y2 hy2 => ?_
    obtain ⟨⟨s2, rfl⟩, hb2, hk2⟩ := hy2
    refine (liftFs_same hb2 endOp_refs).bind fun _ y3 hy3 => ?_
    obtain ⟨⟨s3, rfl⟩, hb3, hk3⟩ := hy3
    refine .modify_bind (.pure ⟨hb3.openFile hn hr rfl rfl rfl, hkept.trans (kept_of_all ?_)⟩)
    have hk' := hk2.trans hk3
    rwa [hfs] at hk'

theorem sysOpen_ok (path : PathArg) (omode : Option UInt32) : CallOk L p (sysOpen L p path omode) := by
  intro x hx hp
  unfold sysOpen
  split
  · refine cwdOf_ends.bind fun cwd y hy => ?_
    obtain ⟨hc, rfl⟩ := hy
    exact openOp_ends hx hp hc _ _
  · exact .pure ⟨hx, .refl _ _⟩

theorem sysChdir_ok (path : PathArg) : CallOk L p (sysChdir p path) := by
  intro x hx hp
  refine cwdOf_ends.bind fun cwd y hy => ?_
  obtain ⟨hc, rfl⟩ := hy
  refine (liftFs_same hx beginOp_refs).bind fun _ y0 hy0 => ?_
  obtain ⟨⟨s0, rfl⟩, hb0, hk0⟩ := hy0
  rcases path with _ | path
  · exact (liftFs_same hb0 endOp_refs).bind fun _ y1 hy1 => .pure ⟨hy1.2.1, kept_of_all (hk0.trans hy1.2.2)⟩
  refine (liftFs_ends hb0 (namei_uses (base_pos hc) path)).bind fun r y1 hy1 => ?_
  obtain ⟨⟨s, rfl⟩, hb, hk⟩ := hy1
  have hkept : Kept (base y) y.fs s := (kept_of_all hk0).trans hk
  rcases r with _ | ip
  · exact (liftFs_same hb endOp_refs).bind fun _ y1 hy1 => .pure ⟨hy1.2.1, hkept.trans (kept_of_all hy1.2.2)⟩
  replace hb : Balance L (fun _ => 0) (cnt (ip ::ₘ 0)) _ := hb
  refine (liftFs_same hb (ilock_refs ip)).bind fun _ y2 hy2 => ?_
  obtain ⟨⟨s2, rfl⟩, hb2, hk2⟩ := hy2
  refine .get_bind ?_
  split
  · refine (liftFs_kept hb2 (iunlockput_uses ip) (iunlockput_kept ip)).bind fun _ y3 hy3 => ?_
    refine (liftFs_same hy3.2.1 endOp_refs).bind fun _ y4 hy4 => .pure ⟨hy4.2.1, ?_⟩
    exact hkept.trans (kept_of_all (hk2.trans (hy3.2.2.trans hy4.2.2)))
  · refine (liftFs_same hb2 (iunlock_refs ip)).bind fun _ y3 hy3 => ?_
    obtain ⟨⟨s3, rfl⟩, hb3, hk3⟩ := hy3
    refine (iput_cwd_ends (p := p) hb3 hc).bind fun _ y4 hy4 => ?_
    obtain ⟨⟨s4, rfl⟩, hb4, hk4⟩ := hy4
    refine (liftFs_same hb4 endOp_refs).bind fun _ y5 hy5 => ?_
    obtain ⟨⟨s5, rfl⟩, hb5, hk5⟩ := hy5
    refine .modify_bind (.pure ⟨?_, hkept.trans (kept_of_all (hk2.trans (hk3.trans (hk4.trans hk5))))⟩)
    refine (hb5.putCwd (p := p) (o := some ip) (.inl hp)).of_eq (fun _ => rfl) fun k => ?_
    show cnt (ip ::ₘ 0) k - one (some cwd) k + one (y.procs p).cwd k - one (some ip) k = cnt 0 k
    rw [cnt_cons, hc]
    omega

/-! ### Pipes -/

theorem kalloc_cases (K : Vm.Kmem) :
    (∃ fails, Vm.kalloc K = (.ok none, { K with fails := fails })) ∨
      ∃ page next fails, K.freelist = page :: next ∧ Vm.kalloc K = (.ok (some page),
        ⟨next, fails, page :: K.out, if page ∈ K.out then page :: K.bad else K.bad⟩) := by
  unfold Vm.kalloc
  split
  · exact .inl ⟨_, rfl⟩
  · rcases hl : K.freelist with _ | ⟨page, next⟩
    · exact .inl ⟨K.fails.tail, by simp only⟩
    · exact .inr ⟨page, next, _, rfl, rfl⟩

theorem kalloc_ends : Ends (liftKmem Vm.kalloc) x fun r y => match r with
    | none => ∃ fails, y = { x with kmem := { x.kmem with fails := fails } }
    | some page => ∃ next fails, x.kmem.freelist = page :: next ∧ y = { x with kmem :=
        ⟨next, fails, page :: x.kmem.out, if page ∈ x.kmem.out then page :: x.kmem.bad else x.kmem.bad⟩ } := by
  intro r y hy
  unfold liftKmem at hy
  rcases kalloc_cases x.kmem with ⟨fails, hk⟩ | ⟨page, next, fails, hl, hk⟩ <;>
    simp only [hk, Except.mapError, Prod.mk.injEq, Except.ok.injEq] at hy <;> obtain ⟨rfl, rfl⟩ := hy
  · exact ⟨fails, rfl⟩
  · exact ⟨next, fails, hl, rfl⟩

theorem PipesOk.kalloc_fresh {next : List Nat} (h : PipesOk L x) (hl : x.kmem.freelist = page :: next) :
    page ∉ x.kmem.out ∧ x.pipes page = none := by
  have hn := h.nodup
  rw [hl, List.cons_append, List.nodup_cons, List.mem_append, not_or] at hn
  refine ⟨hn.1.2, ?_⟩
  have hc := h.pages page
  rw [List.count_eq_zero_of_not_mem hn.1.2] at hc
  rcases hp : x.pipes page with _ | e
  · rfl
  · rw [hp] at hc
    simp at hc

section MakePipe

variable {f₀ f₁ : Fid}

/-- The two file structures as the ends of the pipe in `page`. -/
def Sys.putEnds (x : Sys) (page : Nat) (f₀ f₁ : Fid) : Sys :=
  (x.putFile f₀ (File.toPipe page false (x.ftable f₀))).putFile f₁ (File.toPipe page true (x.ftable f₁))

variable (hn0 : (x.ftable f₀).type = .FD_NONE) (hn1 : (x.ftable f₁).type = .FD_NONE) (hr0 : 0 < (x.ftable f₀).ref)
  (hr1 : 0 < (x.ftable f₁).ref) (hne : f₀ ≠ f₁)

include hn0 hn1 hr0 hr1 hne

theorem isEnd_putEnds (page page' : Nat) (w : Bool) (g : Fid) :
    IsEnd page' w ((x.putEnds page f₀ f₁).ftable g) ↔
      IsEnd page' w (x.ftable g) ∨ page' = page ∧ g = if w then f₁ else f₀ := by
  unfold Sys.putEnds
  by_cases h1 : g = f₁
  · subst h1
    have hno := not_isEnd_of_none hn1 page' w
    rw [putFile_self, or_iff_right hno]
    cases w
    · refine iff_of_false (fun h => ?_) fun h => ?_
      · cases h.2.2.2
      · exact hne h.2.symm
    · exact ⟨fun h => ⟨h.2.2.1.symm, rfl⟩, fun h => ⟨hr1, rfl, h.1.symm, rfl⟩⟩
  rw [putFile_ne h1]
  by_cases h0 : g = f₀
  · subst h0
    have hno := not_isEnd_of_none hn0 page' w
    rw [putFile_self, or_iff_right hno]
    cases w
    · exact ⟨fun h => ⟨h.2.2.1.symm, rfl⟩, fun h => ⟨hr0, rfl, h.1.symm, rfl⟩⟩
    · refine iff_of_false (fun h => ?_) fun h => ?_
      · cases h.2.2.2
      · exact hne h.2
  · rw [putFile_ne h0, or_iff_left]
    rintro ⟨-, h⟩
    cases w
    · exact h0 h
    · exact h1 h

omit hn0 hn1 in
theorem files_putEnds (page : Nat) (h : FilesOk F x) : FilesOk F (x.putEnds page f₀ f₁) := by
  have hF : ∀ f, (fun g => F g + if g = f then (0 : Int) else 0) = F := fun f => by
    funext g
    split_ifs <;> omega
  have h' := h.putFile (f := f₀) (d := 0) (e := File.toPipe page false (x.ftable f₀)) (add_zero _).symm (h.nonneg f₀)
    fun hz => absurd hz hr0.ne'
  rw [hF] at h'
  have h'' := h'.putFile (f := f₁) (d := 0) (e := File.toPipe page true (x.ftable f₁)) ?_ (h.nonneg f₁)
    fun hz => absurd hz hr1.ne'
  · rwa [hF] at h''
  · rw [putFile_ne hne.symm]
    exact (add_zero _).symm

omit hr0 hr1 in
theorem base_putEnds (page : Nat) (k : Slot) : base (x.putEnds page f₀ f₁) k = base x k := by
  have hno : ∀ w (e : File), ¬ Opens k (File.toPipe page w e) := by
    rintro w e ⟨-, ht, -⟩
    cases ht
  have h0 := base_putFile (x := x) (f := f₀) (File.toPipe page false (x.ftable f₀)) k
  have h1 := base_putFile (x := x.putFile f₀ (File.toPipe page false (x.ftable f₀))) (f := f₁)
    (File.toPipe page true (x.ftable f₁)) k
  rw [if_neg (hno _ _), if_neg (not_opens_of_none hn0 k)] at h0
  rw [putFile_ne hne.symm, if_neg (hno _ _), if_neg (not_opens_of_none hn1 k)] at h1
  unfold Sys.putEnds
  omega

theorem PipesOk.make {z : Sys} {next : List Nat} (h : PipesOk L x) (hl : x.kmem.freelist = page :: next)
    (hzf : z.ftable = (x.putEnds page f₀ f₁).ftable) (hzp : z.pipes = update x.pipes page (some ⟨true, true⟩))
    (hz : z.kmem.freelist = next ∧ z.kmem.out = page :: x.kmem.out) (hzo : z.others = x.others)
    (hzb : z.kmem.bad = x.kmem.bad) : PipesOk L z := by
  have hfresh := h.kalloc_fresh hl
  have hperm : List.Perm (z.kmem.freelist ++ z.kmem.out) (x.kmem.freelist ++ x.kmem.out) := by
    rw [hz.1, hz.2, hl]
    exact List.perm_middle
  have hnone : ∀ w g, ¬ IsEnd page w (x.ftable g) := by
    intro w g hg
    obtain ⟨e, he, -⟩ := (h.ends page w).2 ⟨g, hg⟩
    rw [hfresh.2] at he
    cases he
  have hend := isEnd_putEnds hn0 hn1 hr0 hr1 hne page
  refine ⟨fun page' w => ?_, fun page' w g g' hg hg' => ?_, fun page' e he => ?_, fun page' => ?_, hperm.nodup_iff.2 h.nodup,
    fun page' hm => h.managed page' (hperm.mem_iff.1 hm), hzb.trans h.bad⟩
  · simp only [hzf, hzp, hend]
    by_cases hp : page' = page
    · subst hp
      refine iff_of_true ⟨⟨true, true⟩, update_self .., ?_⟩ ⟨_, .inr ⟨rfl, rfl⟩⟩
      cases w <;> rfl
    · rw [update_of_ne hp, h.ends]
      exact exists_congr fun g => (or_iff_left fun hh => hp hh.1).symm
  · rw [hzf, hend] at hg hg'
    rcases hg with hg | ⟨rfl, rfl⟩
    · rcases hg' with hg' | ⟨rfl, rfl⟩
      · exact h.alone _ _ _ _ hg hg'
      · exact absurd hg (hnone w g)
    · rcases hg' with hg' | ⟨-, rfl⟩
      · exact absurd hg' (hnone w g')
      · rfl
  · rw [hzp] at he
    by_cases hp : page' = page
    · subst hp
      rw [update_self] at he
      exact ⟨true, by rw [← Option.some.inj he]; rfl⟩
    · rw [update_of_ne hp] at he
      exact h.alive page' e he
  · rw [hz.2, hzo, hzp]
    by_cases hp : page' = page
    · subst hp
      rw [List.count_cons_self, h.pages page', hfresh.2, update_self]
      rfl
    · rw [update_of_ne hp, List.count_cons_of_ne (Ne.symm hp), h.pages page']

theorem makePipe_ends {next : List Nat} {K : Vm.Kmem} (h : Balance L F J x) (hl : x.kmem.freelist = page :: next)
    (hK : K.freelist = next ∧ K.out = page :: x.kmem.out) (hb : K.bad = x.kmem.bad) :
    Ends (do
      setPipe page (some ⟨true, true⟩)
      setFile f₀ (File.toPipe page false)
      setFile f₁ (File.toPipe page true)
      return some (f₀, f₁) : SysM (Option (Fid × Fid))) { x with kmem := K } fun r y =>
        r = some (f₀, f₁) ∧ y.procs = x.procs ∧ y.fs = x.fs ∧ Balance L F J y := by
  refine .modify_bind (.modify_bind (.modify_bind (.pure ⟨rfl, rfl, rfl, ?_⟩)))
  have hfiles := files_putEnds hr0 hr1 hne page h.toFilesOk
  have hf : (update (update x.ftable f₀ (File.toPipe page false (x.ftable f₀))) f₁
      (File.toPipe page true (update x.ftable f₀ (File.toPipe page false (x.ftable f₀)) f₁))) =
        (x.putEnds page f₀ f₁).ftable := by
    rw [update_of_ne hne.symm]
    rfl
  refine ⟨⟨fun g => ?_, fun g => ?_, fun g => ?_, hfiles.idle⟩,
    h.pipes.make hn0 hn1 hr0 hr1 hne hl hf rfl hK rfl hb, fun k => ?_, h.uniq⟩
  · exact (congrArg File.ref (congrFun hf g)).trans (hfiles.file g)
  · exact (hfiles.nonneg g).trans_eq (congrArg File.ref (congrFun hf g)).symm
  · intro hz
    have hg := congrFun hf g
    exact (congrArg File.type hg).trans (hfiles.closed g ((congrArg File.ref hg).symm.trans hz))
  · have hk := base_putEnds hn0 hn1 hne page k
    rw [h.inode k, ← hk]
    unfold base opens
    dsimp only
    rw [hf]
    rfl

end MakePipe

theorem pipealloc_ends (h : Balance L F (cnt I) x) :
    Ends (pipealloc L) x fun r y => y.procs = x.procs ∧ Kept (fun _ => 1) x.fs y.fs ∧ match r with
      | none => Balance L F (cnt I) y
      | some (f₀, f₁) => Balance L (fun g => F g + one (some f₀) g + one (some f₁) g) (cnt I) y := by
  refine (filealloc_ends h).bind fun r y0 hy0 => ?_
  rcases r with _ | f₀
  · obtain rfl := hy0
    exact .pure ⟨rfl, .refl _ _, h⟩
  obtain ⟨hb0, hz0, hx0⟩ := hy0
  refine (filealloc_ends hb0).bind fun r y1 hy1 => ?_
  rcases r with _ | f₁
  · obtain rfl := hy1
    refine (fileclose_ends hb0).bind fun _ z hz => .pure ?_
    rw [hx0] at hz
    exact ⟨hz.2.1, hz.2.2, hz.1.of_eq (fun g => by omega) fun _ => rfl⟩
  obtain ⟨hb1, hz1, hx1⟩ := hy1
  have hne : f₀ ≠ f₁ := by
    rintro rfl
    rw [hx0, putFile_self] at hz1
    cases hz1
  have he0 : y1.ftable f₀ = { x.ftable f₀ with ref := 1 } := by rw [hx1, putFile_ne hne, hx0, putFile_self]
  have he1 : y1.ftable f₁ = { x.ftable f₁ with ref := 1 } := by
    rw [hx1, putFile_self, hx0, putFile_ne hne.symm]
  have hn0 : (y1.ftable f₀).type = .FD_NONE := by
    rw [he0]
    exact h.closed f₀ hz0
  have hn1 : (y1.ftable f₁).type = .FD_NONE := by
    rw [he1]
    rw [hx0, putFile_ne hne.symm] at hz1
    exact h.closed f₁ hz1
  have hprocs : y1.procs = x.procs := by
    rw [hx1, hx0]
    rfl
  have hfs : y1.fs = x.fs := by
    rw [hx1, hx0]
    rfl
  refine kalloc_ends.bind fun r y2 hy2 => ?_
  rcases r with _ | page
  · obtain ⟨fails, rfl⟩ := hy2
    have hb2 : Balance L (fun g => F g + one (some f₀) g + one (some f₁) g) (cnt I)
        { y1 with kmem := { y1.kmem with fails := fails } } :=
      ⟨⟨hb1.file, hb1.nonneg, hb1.closed, hb1.idle⟩, ⟨hb1.pipes.ends, hb1.pipes.alone, hb1.pipes.alive, hb1.pipes.pages,
        hb1.pipes.nodup, hb1.pipes.managed, hb1.pipes.bad⟩, hb1.inode, hb1.uniq⟩
    refine (fileclose_ends (f := f₀) hb2).bind fun _ y3 hy3 => (fileclose_ends (f := f₁) hy3.1).bind fun _ y4 hy4 => .pure ?_
    refine ⟨(hy4.2.1.trans hy3.2.1).trans hprocs, ?_, hy4.1.of_eq (fun g => by omega) fun _ => rfl⟩
    have hk := hy3.2.2.trans hy4.2.2
    rwa [show ({ y1 with kmem := { y1.kmem with fails := fails } } : Sys).fs = x.fs from hfs] at hk
  · obtain ⟨next, fails, hl, rfl⟩ := hy2
    have hr0 : 0 < (y1.ftable f₀).ref := by
      rw [he0]
      exact Int.one_pos
    have hr1 : 0 < (y1.ftable f₁).ref := by
      rw [he1]
      exact Int.one_pos
    have hout := (hb1.pipes.kalloc_fresh hl).1
    refine (makePipe_ends hn0 hn1 hr0 hr1 hne hb1 hl ⟨rfl, rfl⟩ (if_neg hout)).mono ?_
    rintro _ z ⟨rfl, hp, hs, hb⟩
    refine ⟨hp.trans hprocs, ?_, hb⟩
    rw [hs, hfs]
    exact .refl _ _

theorem sysPipe_ok (argOk : Bool) : CallOk L p (sysPipe L p argOk) := by
  intro x hx hp
  unfold sysPipe
  split
  · exact .pure ⟨hx, .refl _ _⟩
  refine (pipealloc_ends hx).bind fun r y hy => ?_
  obtain ⟨hprocs, hk, hy⟩ := hy
  rcases r with _ | ⟨rf, wf⟩
  · exact .pure ⟨hy, kept_of_all hk⟩
  have hp' : (y.procs p).busy := by rwa [hprocs]
  -- both file structures are closed again if a descriptor is missing
  have hclose : ∀ {z : Sys}, Balance L (fun g => 0 + one (some rf) g + one (some wf) g) (cnt 0) z → Kept (fun _ => 1) x.fs z.fs →
      Ends (do fileclose L rf; fileclose L wf; return -1 : SysM Int) z fun _ z' => Sound L z' ∧ Kept (base x) x.fs z'.fs := by
    intro z hz hkz
    refine (fileclose_ends hz).bind fun _ z1 h1 => (fileclose_ends h1.1).bind fun _ z2 h2 => .pure ⟨?_, ?_⟩
    · exact h2.1.of_eq (fun g => by omega) fun _ => rfl
    · exact kept_of_all (hkz.trans (h1.2.2.trans h2.2.2))
  refine (fdalloc_ends hy hp').bind fun r y1 hy1 => ?_
  rcases r with _ | fd0
  · obtain rfl := hy1
    exact hclose hy hk
  obtain ⟨hb1, hn, rfl⟩ := hy1
  have hp1 : ((y.putProc p { y.procs p with ofile := update (y.procs p).ofile fd0 (some rf) }).procs p).busy := by
    rw [putProc_self]
    exact hp'
  refine (fdalloc_ends hb1 hp1).bind fun r y2 hy2 => ?_
  rcases r with _ | fd1
  · obtain rfl := hy2
    refine .modify_bind (hclose ?_ hk)
    refine (hb1.putOfile p fd0 none (.inr rfl)).of_eq (fun g => ?_) fun _ => rfl
    rw [putProc_self]
    simp only [update_self, one_none]
    omega
  · obtain ⟨hb2, -, rfl⟩ := hy2
    exact .pure ⟨hb2.of_eq (fun g => by omega) fun _ => rfl, kept_of_all hk⟩

/-! ### Processes -/

theorem dupFile_ends (h : Balance L F J x) (hne : np ≠ p) (hnp : (x.procs np).busy)
    (hfd : (x.procs np).ofile fd = none) :
    Ends (dupFile p np fd) x fun _ y => Balance L F J y ∧ y.fs = x.fs ∧ y.procs p = x.procs p ∧
      (y.procs np).busy ∧ (y.procs np).cwd = (x.procs np).cwd ∧
      ∀ fd', fd' ≠ fd → (y.procs np).ofile fd' = (x.procs np).ofile fd' := by
  refine .get_bind ?_
  split
  · exact .pure ⟨h, rfl, rfl, hnp, rfl, fun _ _ => rfl⟩
  · rename_i f hf
    refine (filedup_ends h).bind fun _ y hy => ?_
    obtain ⟨hb, e, rfl⟩ := hy
    refine .modify ⟨?_, rfl, putProc_ne hne.symm, ?_⟩
    · refine (hb.putOfile np fd (some f) (.inl hnp)).of_eq (fun g => ?_) fun _ => rfl
      show F g + one (some f) g + one ((x.procs np).ofile fd) g - one (some f) g = F g
      rw [hfd, one_none]
      omega
    · refine ⟨?_, ?_, fun fd' hne' => ?_⟩
      · show ((x.putProc np _).procs np).busy
        rw [putProc_self]
        exact hnp
      · show ((x.putProc np _).procs np).cwd = _
        rw [putProc_self]
        rfl
      · show ((x.putProc np _).procs np).ofile fd' = _
        rw [putProc_self]
        exact update_of_ne hne' ..

theorem dupFiles_ends {fds : List Fd} (h : Balance L F J x) (hne : np ≠ p) (hnp : (x.procs np).busy) (hnd : fds.Nodup)
    (hfd : ∀ fd ∈ fds, (x.procs np).ofile fd = none) :
    Ends (dupFiles p np fds) x fun _ y => Balance L F J y ∧ y.fs = x.fs ∧ y.procs p = x.procs p ∧
      (y.procs np).busy ∧ (y.procs np).cwd = (x.procs np).cwd := by
  induction fds generalizing x with
  | nil => exact .pure ⟨h, rfl, rfl, hnp, rfl⟩
  | cons fd fds ih =>
    obtain ⟨hnotin, hnd⟩ := List.nodup_cons.1 hnd
    refine (dupFile_ends h hne hnp (hfd fd (by simp))).bind fun _ y hy => ?_
    obtain ⟨hb, hfs, hp, hb', hc, ho⟩ := hy
    refine (ih hb hb' hnd fun fd' hm => ?_).mono fun _ z hz => ?_
    · rw [ho fd' fun he => hnotin (he ▸ hm)]
      exact hfd fd' (by simp [hm])
    · exact ⟨hz.1, hz.2.1.trans hfs, hz.2.2.1.trans hp, hz.2.2.2.1, hz.2.2.2.2.trans hc⟩

theorem allocproc_ends (h : Sound L x) :
    Ends allocproc x fun r y => Sound L y ∧ y.fs = x.fs ∧ ∀ np, r = some np →
      (x.procs np).state = .UNUSED ∧ (y.procs np).busy ∧ (∀ fd, (y.procs np).ofile fd = none) ∧
      (y.procs np).cwd = none ∧ ∀ q, q ≠ np → y.procs q = x.procs q := by
  refine .get_bind ?_
  split
  · exact .pure ⟨h, rfl, nofun⟩
  · rename_i np hnp
    have hu : (x.procs np).state = .UNUSED := by simpa using List.find?_some hnp
    have hidle := h.idle np fun hb => hb.1 hu
    have hb := Balance.putState (p := np) (q := { x.procs np with state := .EMBRYO, pid := x.nextpid }) h rfl rfl
      fun _ => hidle
    refine .modify_bind (.modify_bind (.pure ⟨?_, rfl, ?_⟩))
    · exact ⟨⟨hb.file, hb.nonneg, hb.closed, hb.idle⟩, hb.pipes.congr (fun _ _ _ => Iff.rfl) rfl rfl rfl, hb.inode, hb.uniq⟩
    · rintro _ ⟨⟩
      have hself : ((x.putProc np { x.procs np with state := .EMBRYO, pid := x.nextpid }).procs np) =
          { x.procs np with state := .EMBRYO, pid := x.nextpid } := putProc_self
      refine ⟨hu, ?_, ?_, ?_, fun q hq => putProc_ne hq⟩
      · show ((x.putProc np _).procs np).busy
        rw [hself]
        exact ⟨nofun, nofun⟩
      · intro fd
        show ((x.putProc np _).procs np).ofile fd = none
        rw [hself]
        exact hidle.1 fd
      · show ((x.putProc np _).procs np).cwd = none
        rw [hself]
        exact hidle.2

theorem fork_ok (memOk : Bool) : CallOk L p (fork p memOk) := by
  intro x hx hp
  refine (allocproc_ends hx).bind fun r y hy => ?_
  obtain ⟨hb, hfs, hy⟩ := hy
  have hkept : Kept (base x) x.fs y.fs := by
    rw [hfs]
    exact .refl _ _
  rcases r with _ | np
  · exact .pure ⟨hb, hkept⟩
  obtain ⟨hu, hnp, ho, hc, hother⟩ := hy np rfl
  have hne : np ≠ p := by
    rintro rfl
    exact hp.1 hu
  dsimp only
  split
  · exact .modify_bind (.pure ⟨hb.putState rfl rfl fun _ => ⟨ho, hc⟩, hkept⟩)
  refine (dupFiles_ends hb hne hnp (List.nodup_finRange _) fun fd _ => ho fd).bind fun _ y1 hy1 => ?_
  obtain ⟨hb1, hfs1, hp1, hnp1, hc1⟩ := hy1
  refine cwdOf_ends.bind fun cwd y₁' hcwd => ?_
  obtain ⟨hcwd, rfl⟩ := hcwd
  refine (liftFs_kept hb1 (idup_uses (base_pos hcwd)) (idup_kept cwd)).bind fun ip y2 hy2 => ?_
  obtain ⟨⟨s, rfl⟩, hb2, hk2⟩ := hy2
  have hb3 : Sound L ((y₁'.putFs s).putProc np { y₁'.procs np with cwd := some ip }) := by
    refine (hb2.putCwd (p := np) (o := some ip) (.inl hnp1)).of_eq (fun _ => rfl) fun k => ?_
    show cnt (ip ::ₘ 0) k + one (y₁'.procs np).cwd k - one (some ip) k = cnt 0 k
    rw [cnt_cons, hc1, hc, one_none]
    omega
  refine .modify_bind (.modify_bind (.get_bind (.pure ⟨?_, ?_⟩)))
  · exact hb3.putState rfl rfl fun hnb => absurd ⟨nofun, nofun⟩ hnb
  · refine hkept.trans (kept_of_all ?_)
    rwa [hfs1] at hk2

/-- One round of the loop of `exit`. The descriptor goes after the file is closed, so between the two a
reference is owed. -/
theorem closeFile_ends (h : Sound L x) (fd : Fd) :
    Ends (closeFile L p fd) x fun _ y => Sound L y ∧ Kept (fun _ => 1) x.fs y.fs ∧ (y.procs p).ofile fd = none ∧
      (y.procs p).cwd = (x.procs p).cwd ∧ ∀ fd', (x.procs p).ofile fd' = none → (y.procs p).ofile fd' = none := by
  refine .get_bind ?_
  split
  · rename_i hn
    exact .pure ⟨h, .refl _ _, hn, rfl, fun _ => id⟩
  · rename_i f hf
    refine (fileclose_ends h).bind fun _ y hy => ?_
    obtain ⟨hb, hprocs, hk⟩ := hy
    have hself : ((y.putProc p { y.procs p with ofile := update (y.procs p).ofile fd none }).procs p) =
        { y.procs p with ofile := update (y.procs p).ofile fd none } := putProc_self
    refine .modify ⟨?_, hk, ?_, ?_, fun fd' hfd' => ?_⟩
    · refine (hb.putOfile p fd none (.inr rfl)).of_eq (fun g => ?_) fun _ => rfl
      rw [hprocs, hf, one_none]
      omega
    · show ((y.putProc p _).procs p).ofile fd = none
      rw [hself]
      exact update_self ..
    · show ((y.putProc p _).procs p).cwd = _
      rw [hself, hprocs]
    · show ((y.putProc p _).procs p).ofile fd' = none
      rw [hself]
      by_cases he : fd' = fd
      · subst he
        exact update_self ..
      · refine (update_of_ne he ..).trans ?_
        rw [hprocs]
        exact hfd'

theorem closeFiles_ends (h : Sound L x) (fds : List Fd) :
    Ends (closeFiles L p fds) x fun _ y => Sound L y ∧ Kept (fun _ => 1) x.fs y.fs ∧
      (y.procs p).cwd = (x.procs p).cwd ∧ (∀ fd ∈ fds, (y.procs p).ofile fd = none) ∧
      ∀ fd', (x.procs p).ofile fd' = none → (y.procs p).ofile fd' = none := by
  induction fds generalizing x with
  | nil => exact .pure ⟨h, .refl _ _, rfl, by simp, fun _ => id⟩
  | cons fd fds ih =>
    refine (closeFile_ends h fd).bind fun _ y hy => ?_
    obtain ⟨hb, hk, hn, hc, hstay⟩ := hy
    refine (ih hb).mono fun _ z hz => ?_
    obtain ⟨hbz, hkz, hcz, hnz, hsz⟩ := hz
    refine ⟨hbz, hk.trans hkz, hcz.trans hc, fun fd' hm => ?_, fun fd' hfd' => hsz fd' (hstay fd' hfd')⟩
    rcases List.mem_cons.1 hm with rfl | hm
    · exact hsz fd' hn
    · exact hnz fd' hm

theorem exit_ok : CallOk L p (exit L p) := by
  intro x hx hp
  refine .get_bind ?_
  split
  · exact .stop
  refine (closeFiles_ends hx _).bind fun _ y hy => ?_
  obtain ⟨hb, hk, -, hn, -⟩ := hy
  refine cwdOf_ends.bind fun cwd y' hc => ?_
  obtain ⟨hc, rfl⟩ := hc
  have hput : Ends (liftFs (do beginOp; iput cwd; endOp)) y' fun _ z => (∃ s, z = y'.putFs s) ∧
      Balance L (fun _ => 0) (fun k => cnt 0 k - one (some cwd) k) z ∧ Kept (fun _ => 1) y'.fs z.fs := by
    rw [liftFs_bind]
    refine (liftFs_same hb beginOp_refs).bind fun _ z1 h1 => ?_
    obtain ⟨⟨s1, rfl⟩, hb1, hk1⟩ := h1
    rw [liftFs_bind]
    refine (iput_cwd_ends (p := p) hb1 hc).bind fun _ z2 h2 => ?_
    obtain ⟨⟨s2, rfl⟩, hb2, hk2⟩ := h2
    refine (liftFs_same hb2 endOp_refs).mono ?_
    rintro _ z3 ⟨⟨s3, rfl⟩, hb3, hk3⟩
    exact ⟨⟨s3, rfl⟩, hb3, hk1.trans (hk2.trans hk3)⟩
  refine hput.bind fun _ z hz => ?_
  obtain ⟨⟨s, rfl⟩, hb1, hk1⟩ := hz
  have hb2 : Sound L ((y'.putFs s).putProc p { y'.procs p with cwd := none }) := by
    refine (hb1.putCwd (p := p) (o := none) (.inr rfl)).of_eq (fun _ => rfl) fun k => ?_
    show cnt 0 k - one (some cwd) k + one (y'.procs p).cwd k - one none k = cnt 0 k
    rw [hc, one_none]
    omega
  refine .modify_bind (.modify_bind (.pure ⟨?_, kept_of_all (hk.trans hk1)⟩))
  refine hb2.putState rfl rfl fun _ => ?_
  have hself : (((y'.putFs s).putProc p { y'.procs p with cwd := none }).procs p) = { y'.procs p with cwd := none } :=
    putProc_self
  exact ⟨fun fd => (congrFun (congrArg Proc.ofile hself) fd).trans (hn fd (List.mem_finRange fd)), congrArg Proc.cwd hself⟩

/-! ### Runs -/

theorem syscall_ok (p : Pid) (c : Call) : CallOk L p (syscall L p c) := by
  cases c with
  | openFile path omode => exact sysOpen_ok path omode
  | mkdir path => exact withCwd_ok fun b cwd hc => sysMk_uses hc _ _ _ _
  | mknod path major minor => exact withCwd_ok fun b cwd hc => sysMk_uses hc _ _ _ _
  | link old new => exact withCwd_ok fun b cwd hc => sysLink_uses hc _ _
  | unlink path => exact withCwd_ok fun b cwd hc => sysUnlink_uses hc _
  | chdir path => exact sysChdir_ok path
  | dup fd => exact sysDup_ok fd
  | close fd => exact sysClose_ok fd
  | pipe argOk => exact sysPipe_ok argOk
  | fork memOk => exact fork_ok memOk
  | exec path kvm mem stack => exact withCwd_ok fun b cwd hc => sysExec_uses hc _ _ _ _
  | exit => exact exit_ok
  | fstat fd argOk => exact sysFstat_ok fd argOk
  | read fd argOk n pipe => exact sysRead_ok fd argOk n pipe
  | write fd argOk src n pipe => exact sysWrite_ok fd argOk src n pipe

theorem PipesOk.take {next : List Nat} {K : Vm.Kmem} (h : PipesOk L x) (hl : x.kmem.freelist = page :: next)
    (hK : K.freelist = next ∧ K.out = page :: x.kmem.out) (hb : K.bad = x.kmem.bad) :
    PipesOk L { x with kmem := K, others := page :: x.others } := by
  have hperm : List.Perm (K.freelist ++ K.out) (x.kmem.freelist ++ x.kmem.out) := by
    rw [hK.1, hK.2, hl]
    exact List.perm_middle
  refine ⟨h.ends, h.alone, h.alive, fun page' => ?_, hperm.nodup_iff.2 h.nodup,
    fun page' hm => h.managed page' (hperm.mem_iff.1 hm), hb.trans h.bad⟩
  show K.out.count page' = (page :: x.others).count page' + _
  rw [hK.2, List.count_cons, List.count_cons, h.pages page']
  exact Nat.add_right_comm _ _ _

theorem PipesOk.give {K : Vm.Kmem} (h : PipesOk L x) (hm : page ∈ x.others)
    (hK : K.freelist = page :: x.kmem.freelist ∧ K.out = x.kmem.out.erase page) (hb : K.bad = x.kmem.bad) :
    PipesOk L { x with kmem := K, others := x.others.erase page } := by
  have hcount : 0 < x.others.count page := List.count_pos_iff.2 hm
  have hout : page ∈ x.kmem.out := List.count_pos_iff.1 (by rw [h.pages]; omega)
  have hperm : List.Perm (K.freelist ++ K.out) (x.kmem.freelist ++ x.kmem.out) := by
    rw [hK.1, hK.2]
    exact List.perm_middle.symm.trans ((List.perm_cons_erase hout).symm.append_left _)
  refine ⟨h.ends, h.alone, h.alive, fun page' => ?_, hperm.nodup_iff.2 h.nodup,
    fun page' hm => h.managed page' (hperm.mem_iff.1 hm), hb.trans h.bad⟩
  show K.out.count page' = (x.others.erase page).count page' + if (x.pipes page').isSome then 1 else 0
  have := h.pages page'
  rw [hK.2]
  by_cases hp : page' = page
  · subst hp
    rw [List.count_erase_self, List.count_erase_self]
    omega
  · rw [List.count_erase_of_ne hp, List.count_erase_of_ne hp]
    exact this

theorem Sound.setPages {K : Vm.Kmem} {O : List Nat} (h : Sound L x) (hp : PipesOk L { x with kmem := K, others := O }) :
    Sound L { x with kmem := K, others := O } :=
  ⟨⟨h.file, h.nonneg, h.closed, h.idle⟩, hp, h.inode, h.uniq⟩

theorem step_sound {a : Act} (h : Sound L x) (hs : step L x a = some y) :
    Sound L y ∧ Kept (base x) x.fs y.fs := by
  cases a with
  | call p c =>
    simp only [step] at hs
    split at hs
    · rename_i halive
      rcases hc : syscall L p c x with ⟨_ | r, z⟩ <;> rw [hc] at hs <;> simp only [reduceCtorEq, Option.some.injEq] at hs
      subst hs
      exact syscall_ok p c x h (Proc.busy_of_alive halive) r z hc
    · cases hs
  | reap p =>
    simp only [step] at hs
    split at hs
    · rename_i hz
      cases hs
      have hidle := h.idle p fun hb => hb.2 hz
      exact ⟨Balance.putState (q := { x.procs p with state := .UNUSED }) h rfl rfl fun _ => hidle, .refl _ _⟩
    · cases hs
  | take =>
    rcases kalloc_cases x.kmem with ⟨fails, hk⟩ | ⟨page, next, fails, hl, hk⟩ <;>
      simp only [step, hk, Option.some.injEq] at hs <;> subst hs
    · exact ⟨h.setPages ⟨h.pipes.ends, h.pipes.alone, h.pipes.alive, h.pipes.pages, h.pipes.nodup, h.pipes.managed,
        h.pipes.bad⟩, .refl _ _⟩
    · exact ⟨h.setPages (h.pipes.take hl ⟨rfl, rfl⟩ (if_neg (h.pipes.kalloc_fresh hl).1)), .refl _ _⟩
  | give page =>
    simp only [step] at hs
    split at hs
    · rename_i hm
      have hcount : 0 < x.others.count page := List.count_pos_iff.2 hm
      have hout : page ∈ x.kmem.out := List.count_pos_iff.1 (by rw [h.pipes.pages]; omega)
      rw [kfree_run hout (h.pipes.managed page (List.mem_append_right _ hout))] at hs
      simp only [Option.some.injEq] at hs
      subst hs
      exact ⟨h.setPages (h.pipes.give hm ⟨rfl, rfl⟩ rfl), .refl _ _⟩
    · cases hs

theorem Boot.sound (h : Boot L x) : Sound L x := by
  have hh : ∀ f, handles x f = 0 := fun f => tally_eq_zero fun q => tally_eq_zero fun fd => by rw [h.ofile]; rfl
  have ho : ∀ k, opens x k = 0 := fun k => tally_eq_zero fun f =>
    if_neg (not_opens_of_none (h.ftable f).2 k)
  obtain ⟨ip, hip, href⟩ := h.cwd
  have hc : ∀ k, (cwds x k : Int) = if k = ip then 1 else 0 := by
    intro k
    have hsplit := tally_update (fun q : Proc => if q.cwd = some k then 1 else 0) x.procs x.initproc
      { x.procs x.initproc with cwd := none }
    have hz : tally (fun q : Proc => if q.cwd = some k then 1 else 0)
        (update x.procs x.initproc { x.procs x.initproc with cwd := none }) = 0 := by
      refine tally_eq_zero fun q => ?_
      by_cases hq : q = x.initproc
      · subst hq
        rw [update_self]
        rfl
      · rw [update_of_ne hq, (h.procs q hq).2]
        rfl
    rw [hz, hip] at hsplit
    unfold cwds
    simp only [Option.some.injEq, reduceCtorEq, if_false] at hsplit
    by_cases hk : k = ip
    · rw [if_pos hk.symm] at hsplit
      rw [if_pos hk]
      omega
    · rw [if_neg (Ne.symm hk)] at hsplit
      rw [if_neg hk]
      omega
  have hend : ∀ page w f, ¬ IsEnd page w (x.ftable f) := fun page w f => not_isEnd_of_none (h.ftable f).2 page w
  refine ⟨⟨fun f => ?_, fun f => ?_, fun f _ => (h.ftable f).2, fun p hp => ⟨h.ofile p, ?_⟩⟩,
    ⟨fun page w => ?_, fun page w f g hf => absurd hf (hend page w f), fun page e he => ?_, fun page => ?_, h.kmem.2.2.1,
      h.kmem.2.2.2, h.kmem.2.1⟩, fun k => ?_, fun k l hk hl _ _ => ?_⟩
  · rw [(h.ftable f).1, hh]
    rfl
  · rw [(h.ftable f).1]
  · refine (h.procs p ?_).2
    rintro rfl
    refine hp ⟨?_, ?_⟩ <;> rw [h.init] <;> nofun
  · refine iff_of_false ?_ ?_
    · rintro ⟨e, he, -⟩
      rw [h.pipes] at he
      cases he
    · rintro ⟨f, hf⟩
      exact hend page w f hf
  · rw [h.pipes] at he
    cases he
  · rw [h.kmem.1.count_eq, h.pipes]
    rfl
  · unfold base
    rw [href, ho]
    push_cast
    rw [hc, cnt_zero, add_zero, add_zero]
  · have hone : ∀ k, 0 < (x.fs.icache k).ref → k = ip := fun k hk => by
      by_contra hne
      rw [href, if_neg hne] at hk
      exact absurd hk (lt_irrefl _)
    exact (hone k hk).trans (hone l hl).symm

theorem sound_of_reachable {x₀ : Sys} (h₀ : Boot L x₀) (h : Machine.Reachable (step L) x₀ x) : Sound L x :=
  h.inv h₀.sound fun _ _ _ hs _ hstep => (step_sound hs hstep).1

/-- In every state of every run, the count of an open file is the number of descriptors that point to
it, a file without references is not open, a pipe has an end open exactly while an open file refers to
it and is gone when both are closed, and its page is in use exactly as long: no page was given back
that was not in use, or handed out while it was. -/
theorem open_files_balance {x₀ : Sys} (h₀ : Boot L x₀) (h : Machine.Reachable (step L) x₀ x) :
    (∀ f, (x.ftable f).ref = ((∑ p, ∑ fd, if (x.procs p).ofile fd = some f then 1 else 0 : Nat) : Int)) ∧
      (∀ f, (x.ftable f).ref = 0 → (x.ftable f).type = .FD_NONE) ∧
      (∀ page e, x.pipes page = some e → (e.readopen = true ↔ ∃ f, IsEnd page false (x.ftable f)) ∧
        (e.writeopen = true ↔ ∃ f, IsEnd page true (x.ftable f)) ∧ (e.readopen = true ∨ e.writeopen = true)) ∧
      (∀ page w, x.pipes page = none → ¬ ∃ f, IsEnd page w (x.ftable f)) ∧
      (∀ page, x.kmem.out.count page = x.others.count page + if (x.pipes page).isSome then 1 else 0) ∧
      (x.kmem.freelist ++ x.kmem.out).Nodup ∧ x.kmem.bad = [] := by
  have hx := sound_of_reachable h₀ h
  refine ⟨fun f => ?_, hx.closed, fun page e he => ?_, fun page w hn => ?_, hx.pipes.pages, hx.pipes.nodup, hx.pipes.bad⟩
  · exact (hx.file f).trans (add_zero _)
  · have hend : ∀ w, isOpen e w = true ↔ ∃ f, IsEnd page w (x.ftable f) := fun w =>
      ⟨fun ho => (hx.pipes.ends page w).1 ⟨e, he, ho⟩, fun hf => by
        obtain ⟨e', he', ho⟩ := (hx.pipes.ends page w).2 hf
        rw [he] at he'
        rwa [Option.some.inj he']⟩
    refine ⟨hend false, hend true, ?_⟩
    obtain ⟨w, hw⟩ := hx.pipes.alive page e he
    cases w
    · exact .inl hw
    · exact .inr hw
  · intro hf
    obtain ⟨e, he, -⟩ := (hx.pipes.ends page w).2 hf
    rw [hn] at he
    cases he

/-- A pipe whose read end both the parent and the child have closed. -/
theorem open_files_balance_pipe : ∃ x, Machine.Reachable (step Image.layout) Image.boot x ∧
    x.pipes 1 = some ⟨false, true⟩ ∧ (¬ ∃ f, IsEnd 1 false (x.ftable f)) ∧ (∃ f, IsEnd 1 true (x.ftable f)) ∧
    x.kmem.out.count 1 = 1 := by
  have hrun : (Machine.run (step Image.layout) Image.boot [.call 0 (.pipe true), .call 0 (.fork true),
      .call 0 (.close (some 0)), .call 1 (.close (some 0))]).any fun x =>
        (x.pipes 1).any (fun e => !e.readopen && e.writeopen) && x.others.isEmpty := by
    decide +kernel
  obtain ⟨x, hx, hp⟩ := (Option.any_eq_true ..).1 hrun
  rw [Bool.and_eq_true] at hp
  obtain ⟨e, he, hopen⟩ := (Option.any_eq_true ..).1 hp.1
  have hreach := Machine.Reach.of_run hx
  obtain ⟨-, -, hends, -, hpages, -, -⟩ := open_files_balance Image.boot_ok hreach
  obtain ⟨hr, hw, -⟩ := hends 1 e he
  obtain ⟨r, w⟩ := e
  simp only [Bool.and_eq_true, Bool.not_eq_true'] at hopen
  obtain ⟨rfl, rfl⟩ := hopen
  refine ⟨x, hreach, he, fun h => ?_, hw.1 rfl, ?_⟩
  · exact Bool.false_ne_true (hr.2 h)
  · rw [hpages, he, List.isEmpty_iff.1 hp.2]
    rfl

/-- In every state of every run, no two referenced cache entries are for the same inode, the count of
an entry is the number of processes whose current directory it is and of open files for it, and a call
does not recycle an entry that is referenced when it starts. -/
theorem inode_references_balance {x₀ : Sys} (h₀ : Boot L x₀) (h : Machine.Reachable (step L) x₀ x) :
    (∀ k l, 0 < (x.fs.icache k).ref → 0 < (x.fs.icache l).ref → (x.fs.icache k).dev = (x.fs.icache l).dev →
        (x.fs.icache k).inum = (x.fs.icache l).inum → k = l) ∧
      (∀ k, (x.fs.icache k).ref = ((∑ p, if (x.procs p).cwd = some k then 1 else 0) +
        (∑ f, if 0 < (x.ftable f).ref ∧ (x.ftable f).type = .FD_INODE ∧ (x.ftable f).ip = k then 1 else 0) : Nat)) ∧
      ∀ a y, step L x a = some y → ∀ k, 0 < (x.fs.icache k).ref →
        (y.fs.icache k).dev = (x.fs.icache k).dev ∧ (y.fs.icache k).inum = (x.fs.icache k).inum := by
  have hx := sound_of_reachable h₀ h
  have href : ∀ k, (x.fs.icache k).ref = base x k := fun k => (hx.inode k).trans (add_zero _)
  refine ⟨hx.uniq, href, fun a y hs k hk => (step_sound hx hs).2 k ?_⟩
  rw [href] at hk
  exact_mod_cast hk

/-- After the file `/a` is opened and the process has forked, the root directory is referenced by the
two processes and the file by the one open file that they share. -/
theorem inode_references_balance_open : ∃ x, Machine.Reachable (step Image.layout) Image.boot x ∧
    (x.fs.icache 0).ref = 2 ∧ (x.fs.icache 1).ref = 1 ∧
    (∑ p, if (x.procs p).cwd = some 0 then 1 else 0) +
      (∑ f, if 0 < (x.ftable f).ref ∧ (x.ftable f).type = .FD_INODE ∧ (x.ftable f).ip = 0 then 1 else 0) = 2 := by
  have hrun : (Machine.run (step Image.layout) Image.boot [.call 0 (.openFile (some [slash, 97]) (some (O_CREATE ||| O_RDWR))),
      .call 0 (.fork true), .call 1 (.chdir (some [slash])), .call 0 (.close (some 0))]).any fun x =>
        decide ((x.fs.icache 0).ref = 2) && decide ((x.fs.icache 1).ref = 1) := by
    decide +kernel
  obtain ⟨x, hx, hp⟩ := (Option.any_eq_true ..).1 hrun
  rw [Bool.and_eq_true, decide_eq_true_eq, decide_eq_true_eq] at hp
  have hreach := Machine.Reach.of_run hx
  refine ⟨x, hreach, hp.1, hp.2, ?_⟩
  have := (inode_references_balance Image.boot_ok hreach).2.1 0
  rw [hp.1] at this
  exact_mod_cast this.symm

end Xv6.Sysfile
