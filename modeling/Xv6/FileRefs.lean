import Xv6.InodeRefs
import Xv6.Lib.Tally

/-!
# Open files, descriptors and pipes

The reference count of an open file is the number of descriptors that point to it, the count of a
cached inode is the number of current directories and open files that do, and a pipe has its two ends
open as long as there are open files for them. In the middle of a call the running code holds
references of its own, or owes some: `Balance F J` is the invariant up to these differences, and each
function of the file layer moves them.
-/

namespace Xv6.Sysfile

open Function Exec Tally Fs
open ProcMem (PipeEnds)

variable {L : Vm.Layout} {x y : Sys} {p np : Pid} {fd : Fd} {f g : Fid} {k ip : Slot} {page : Nat}
  {F : Fid → Int} {J : Slot → Int}

/-! ### Who refers to what -/

def handles (x : Sys) (f : Fid) : Nat :=
  tally (fun q : Proc => tally (fun o : Option Fid => if o = some f then 1 else 0) q.ofile) x.procs

def cwds (x : Sys) (k : Slot) : Nat := tally (fun q : Proc => if q.cwd = some k then 1 else 0) x.procs

def Opens (k : Slot) (e : File) : Prop := 0 < e.ref ∧ e.type = .FD_INODE ∧ e.ip = k

instance (k : Slot) (e : File) : Decidable (Opens k e) := inferInstanceAs (Decidable (_ ∧ _))

def opens (x : Sys) (k : Slot) : Nat := tally (fun e : File => if Opens k e then 1 else 0) x.ftable

def base (x : Sys) (k : Slot) : Nat := cwds x k + opens x k

/-- The file refers to the read end (`writable` false) or the write end of the pipe in `page`. -/
def IsEnd (page : Nat) (writable : Bool) (e : File) : Prop :=
  0 < e.ref ∧ e.type = .FD_PIPE ∧ e.pipe = page ∧ e.writable = writable

instance (page : Nat) (w : Bool) (e : File) : Decidable (IsEnd page w e) := inferInstanceAs (Decidable (_ ∧ _))

def isOpen (e : PipeEnds) (writable : Bool) : Bool := if writable then e.writeopen else e.readopen

def Proc.busy (q : Proc) : Prop := q.state ≠ .UNUSED ∧ q.state ≠ .ZOMBIE

theorem Proc.busy_of_alive {q : Proc} (h : q.alive = true) : q.busy := by
  have h' : q.state = .RUNNABLE ∨ q.state = .RUNNING ∨ q.state = .SLEEPING := by simpa [Proc.alive] using h
  rcases h' with h' | h' | h' <;> simp [Proc.busy, h']

structure PipesOk (L : Vm.Layout) (x : Sys) : Prop where
  ends : ∀ page w, (∃ e, x.pipes page = some e ∧ isOpen e w = true) ↔ ∃ f, IsEnd page w (x.ftable f)
  alone : ∀ page w f g, IsEnd page w (x.ftable f) → IsEnd page w (x.ftable g) → f = g
  alive : ∀ page e, x.pipes page = some e → ∃ w, isOpen e w = true
  pages : ∀ page, x.kmem.out.count page = x.others.count page + if (x.pipes page).isSome then 1 else 0
  nodup : (x.kmem.freelist ++ x.kmem.out).Nodup
  managed : ∀ page ∈ x.kmem.freelist ++ x.kmem.out, L.managed page
  bad : x.kmem.bad = []

/-- The running code holds `F f` references to the open file `f`. -/
structure FilesOk (F : Fid → Int) (x : Sys) : Prop where
  file : ∀ f, (x.ftable f).ref = handles x f + F f
  nonneg : ∀ f, 0 ≤ (x.ftable f).ref
  closed : ∀ f, (x.ftable f).ref = 0 → (x.ftable f).type = .FD_NONE
  idle : ∀ p, ¬ (x.procs p).busy → (∀ fd, (x.procs p).ofile fd = none) ∧ (x.procs p).cwd = none

/-- And it holds `J k` references to the cache entry `k`. -/
structure Balance (L : Vm.Layout) (F : Fid → Int) (J : Slot → Int) (x : Sys) : Prop extends FilesOk F x where
  pipes : PipesOk L x
  inode : ∀ k, (x.fs.icache k).ref = base x k + J k
  uniq : ∀ k l, 0 < (x.fs.icache k).ref → 0 < (x.fs.icache l).ref → (x.fs.icache k).dev = (x.fs.icache l).dev →
    (x.fs.icache k).inum = (x.fs.icache l).inum → k = l

def one {α : Type} [DecidableEq α] (o : Option α) (a : α) : Int := if o = some a then 1 else 0

@[simp] theorem one_none {α : Type} [DecidableEq α] (a : α) : one none a = 0 := rfl

@[simp] theorem one_some {α : Type} [DecidableEq α] (a b : α) : one (some a) b = if b = a then 1 else 0 := by
  simp [one, eq_comm]

/-! ### Changes of the tables -/

def Sys.putFs (x : Sys) (s : Fs) : Sys := { x with fs := s }

def Sys.putFile (x : Sys) (f : Fid) (e : File) : Sys := { x with ftable := update x.ftable f e }

def Sys.putProc (x : Sys) (p : Pid) (q : Proc) : Sys := { x with procs := update x.procs p q }

theorem putFile_self {e : File} : (x.putFile f e).ftable f = e := update_self ..

theorem putFile_ne {e : File} (h : g ≠ f) : (x.putFile f e).ftable g = x.ftable g := update_of_ne h ..

theorem putProc_self {q : Proc} : (x.putProc p q).procs p = q := update_self ..

theorem putProc_ne {q : Proc} (h : np ≠ p) : (x.putProc p q).procs np = x.procs np := update_of_ne h ..

theorem opens_putFile (e : File) (k : Slot) :
    (opens (x.putFile f e) k : Int) =
      opens x k + (if Opens k e then 1 else 0) - if Opens k (x.ftable f) then 1 else 0 := by
  have := tally_update (fun e : File => if Opens k e then 1 else 0) x.ftable f e
  unfold opens Sys.putFile
  dsimp only at this ⊢
  split_ifs at this ⊢ <;> omega

theorem cwds_putProc (q : Proc) (k : Slot) :
    (cwds (x.putProc p q) k : Int) = cwds x k + one q.cwd k - one (x.procs p).cwd k := by
  have := tally_update (fun q : Proc => if q.cwd = some k then 1 else 0) x.procs p q
  unfold cwds Sys.putProc one
  dsimp only at this ⊢
  split_ifs at this ⊢ <;> omega

theorem handles_putProc_cwd (o : Option Slot) (f : Fid) :
    handles (x.putProc p { x.procs p with cwd := o }) f = handles x f := by
  have := tally_update (fun q : Proc => tally (fun o : Option Fid => if o = some f then 1 else 0) q.ofile) x.procs p
    { x.procs p with cwd := o }
  exact Nat.add_right_cancel this

theorem handles_putOfile (o : Option Fid) (f : Fid) :
    (handles (x.putProc p { x.procs p with ofile := update (x.procs p).ofile fd o }) f : Int) =
      handles x f + one o f - one ((x.procs p).ofile fd) f := by
  have h1 := tally_update (fun o : Option Fid => if o = some f then 1 else 0) (x.procs p).ofile fd o
  have h2 := tally_update (fun q : Proc => tally (fun o : Option Fid => if o = some f then 1 else 0) q.ofile) x.procs p
    { x.procs p with ofile := update (x.procs p).ofile fd o }
  unfold handles Sys.putProc one
  dsimp only at h1 h2 ⊢
  split_ifs at h1 h2 ⊢ <;> omega

theorem PipesOk.congr (h : PipesOk L x) (hf : ∀ page w f, IsEnd page w (y.ftable f) ↔ IsEnd page w (x.ftable f))
    (hp : y.pipes = x.pipes) (hk : y.kmem = x.kmem) (ho : y.others = x.others) : PipesOk L y := by
  refine ⟨fun page w => ?_, fun page w f g => ?_, ?_, ?_, ?_, ?_, ?_⟩
  · simp only [hp, hf]
    exact h.ends page w
  · rw [hf, hf]
    exact h.alone page w f g
  · rw [hp]
    exact h.alive
  · rw [hp, hk, ho]
    exact h.pages
  · rw [hk]
    exact h.nodup
  · rw [hk]
    exact h.managed
  · rw [hk]
    exact h.bad

theorem FilesOk.putFile {e : File} {d : Int} (h : FilesOk F x) (href : e.ref = (x.ftable f).ref + d)
    (hnn : 0 ≤ e.ref) (hcl : e.ref = 0 → e.type = .FD_NONE) :
    FilesOk (fun g => F g + if g = f then d else 0) (x.putFile f e) := by
  refine ⟨fun g => ?_, (forall_update_iff _ fun _ (e : File) => 0 ≤ e.ref).2 ⟨hnn, fun g _ => h.nonneg g⟩,
    (forall_update_iff _ fun _ (e : File) => e.ref = 0 → e.type = .FD_NONE).2 ⟨hcl, fun g _ => h.closed g⟩, h.idle⟩
  · show ((x.putFile f e).ftable g).ref = handles x g + (F g + if g = f then d else 0)
    by_cases hg : g = f
    · rw [hg, putFile_self, href, h.file, if_pos rfl]
      omega
    · rw [putFile_ne hg, h.file, if_neg hg]
      omega

theorem isEnd_putFile {e : File} (he : ∀ page w, IsEnd page w e ↔ IsEnd page w (x.ftable f)) (page : Nat) (w : Bool)
    (g : Fid) : IsEnd page w ((x.putFile f e).ftable g) ↔ IsEnd page w (x.ftable g) := by
  by_cases hg : g = f
  · rw [hg, putFile_self, he]
  · rw [putFile_ne hg]

theorem base_putFile (e : File) (k : Slot) :
    (base (x.putFile f e) k : Int) =
      base x k + (if Opens k e then 1 else 0) - if Opens k (x.ftable f) then 1 else 0 := by
  have := opens_putFile (x := x) (f := f) e k
  unfold base
  push_cast
  rw [this, show cwds (x.putFile f e) k = cwds x k from rfl]
  omega

theorem Balance.putFile {e : File} {d : Int} (h : Balance L F J x) (href : e.ref = (x.ftable f).ref + d)
    (hnn : 0 ≤ e.ref) (hcl : e.ref = 0 → e.type = .FD_NONE) (ho : ∀ k, Opens k e ↔ Opens k (x.ftable f))
    (he : ∀ page w, IsEnd page w e ↔ IsEnd page w (x.ftable f)) :
    Balance L (fun g => F g + if g = f then d else 0) J (x.putFile f e) := by
  refine ⟨h.toFilesOk.putFile href hnn hcl, h.pipes.congr (isEnd_putFile he) rfl rfl rfl, fun k => ?_, h.uniq⟩
  rw [base_putFile]
  simp only [ho, add_sub_cancel_right]
  exact h.inode k

theorem Balance.of_eq {F' : Fid → Int} {J' : Slot → Int} (h : Balance L F J x) (hF : ∀ g, F g = F' g)
    (hJ : ∀ k, J k = J' k) : Balance L F' J' x := by
  rw [← funext hF, ← funext hJ]
  exact h

theorem Balance.putProc {q : Proc} {F' : Fid → Int} (h : Balance L F J x)
    (hF : ∀ g, handles (x.putProc p q) g + F' g = handles x g + F g)
    (hq : ¬ q.busy → (∀ fd, q.ofile fd = none) ∧ q.cwd = none) :
    Balance L F' (fun k => J k + one (x.procs p).cwd k - one q.cwd k) (x.putProc p q) := by
  refine ⟨⟨fun g => (h.file g).trans (hF g).symm, h.nonneg, h.closed,
    (forall_update_iff _ fun _ (q : Proc) => ¬ q.busy → (∀ fd, q.ofile fd = none) ∧ q.cwd = none).2
      ⟨hq, fun p _ => h.idle p⟩⟩, h.pipes.congr (fun _ _ _ => Iff.rfl) rfl rfl rfl, fun k => ?_, h.uniq⟩
  have hc := cwds_putProc (x := x) (p := p) q k
  have := h.inode k
  unfold base at this ⊢
  push_cast at this ⊢
  rw [hc]
  show (x.fs.icache k).ref = cwds x k + one q.cwd k - one (x.procs p).cwd k + opens x k + _
  omega

theorem Balance.putOfile (p : Pid) (fd : Fd) (o : Option Fid) (h : Balance L F J x)
    (hp : (x.procs p).busy ∨ o = none) :
    Balance L (fun g => F g + one ((x.procs p).ofile fd) g - one o g) J
      (x.putProc p { x.procs p with ofile := update (x.procs p).ofile fd o }) := by
  refine (h.putProc (fun g => ?_) fun hq => ?_).of_eq (fun _ => rfl) fun k => add_sub_cancel_right _ _
  · rw [handles_putOfile]
    omega
  · have hidle := h.idle p hq
    rcases hp with hp | rfl
    · exact absurd hp hq
    · exact ⟨(forall_update_iff _ fun _ o => o = none).2 ⟨rfl, fun fd _ => hidle.1 fd⟩, hidle.2⟩

theorem Balance.putCwd {o : Option Slot} (h : Balance L F J x) (hp : (x.procs p).busy ∨ o = none) :
    Balance L F (fun k => J k + one (x.procs p).cwd k - one o k) (x.putProc p { x.procs p with cwd := o }) := by
  refine h.putProc (p := p) (q := { x.procs p with cwd := o }) (fun g => ?_) fun hq => ?_
  · rw [handles_putProc_cwd]
  · rcases hp with hp | rfl
    · exact absurd hp hq
    · exact ⟨(h.idle p hq).1, rfl⟩

theorem Balance.putState {q : Proc} (h : Balance L F J x) (ho : q.ofile = (x.procs p).ofile)
    (hc : q.cwd = (x.procs p).cwd) (hq : ¬ q.busy → (∀ fd, q.ofile fd = none) ∧ q.cwd = none) :
    Balance L F J (x.putProc p q) := by
  refine (h.putProc (fun g => ?_) hq).of_eq (fun _ => rfl) fun k => by rw [hc, add_sub_cancel_right]
  have := tally_update (fun q : Proc => tally (fun o : Option Fid => if o = some g then 1 else 0) q.ofile) x.procs p q
  rw [ho] at this
  have hh : handles (x.putProc p q) g = handles x g := Nat.add_right_cancel this
  rw [hh]

theorem Balance.setFs {J' : Slot → Int} {b : Slot → Nat} {I : Multiset Slot} {s : Fs} (h : Balance L F J x)
    (hs : Held b I s) (hJ : ∀ k, (b k + I.count k : Nat) = base x k + J' k) : Balance L F J' (x.putFs s) :=
  ⟨⟨h.file, h.nonneg, h.closed, h.idle⟩, h.pipes.congr (fun _ _ _ => Iff.rfl) rfl rfl rfl,
    fun k => (hs.ref k).trans (hJ k), hs.uniq⟩

theorem Balance.held {b : Slot → Nat} {I : Multiset Slot} (h : Balance L F J x)
    (hJ : ∀ k, (b k + I.count k : Nat) = base x k + J k) : Held b I x.fs :=
  ⟨fun k => (h.inode k).trans (hJ k).symm, h.uniq⟩

/-! ### Programs of the file system -/

def cnt (I : Multiset Slot) (k : Slot) : Int := I.count k

theorem cnt_zero (k : Slot) : cnt 0 k = 0 := rfl

theorem cast_add_count (n : Nat) (I : Multiset Slot) (k : Slot) : ((n + I.count k : Nat) : Int) = n + cnt I k := by
  push_cast
  rfl

theorem cnt_cons (ip : Slot) (I : Multiset Slot) (k : Slot) : cnt (ip ::ₘ I) k = cnt I k + one (some ip) k := by
  unfold cnt
  rw [Multiset.count_cons, one_some]
  split_ifs <;> simp

theorem liftFs_run_ok {α : Type} {m : FsM α} {a : α} (h : liftFs m x = (.ok a, y)) :
    m x.fs = (.ok a, y.fs) ∧ y = x.putFs y.fs := by
  unfold liftFs at h
  simp only [Prod.mk.injEq] at h
  obtain ⟨h1, rfl⟩ := h
  exact ⟨Prod.ext h1 rfl, rfl⟩

theorem liftFs_bind {α β : Type} (m : FsM α) (f : α → FsM β) : liftFs (m >>= f) = liftFs m >>= fun a => liftFs (f a) := by
  funext z
  simp only [liftFs, Exec.bind_run]
  rcases h : m z.fs with ⟨_ | a, s⟩ <;> simp only []

theorem liftFs_ends {α : Type} {m : FsM α} {I : Multiset Slot} {I' : α → Multiset Slot} (h : Balance L F (cnt I) x)
    (hm : Uses (base x) I m I') :
    Ends (liftFs m) x fun a y => (∃ s, y = x.putFs s) ∧ Balance L F (cnt (I' a)) y ∧ Kept (base x) x.fs y.fs := by
  intro a y hy
  obtain ⟨hfs, hy'⟩ := liftFs_run_ok hy
  obtain ⟨hheld, hkept⟩ := hm x.fs (h.held fun k => cast_add_count (base x k) I k) a _ hfs
  rw [hy']
  exact ⟨⟨_, rfl⟩, h.setFs hheld fun k => cast_add_count (base x k) _ k, hkept⟩

theorem liftFs_kept {α : Type} {m : FsM α} {I : Multiset Slot} {I' : α → Multiset Slot} (h : Balance L F (cnt I) x)
    (hm : Uses (base x) I m I') (hk : Moves (Kept fun _ => 1) m) :
    Ends (liftFs m) x fun a y => (∃ s, y = x.putFs s) ∧ Balance L F (cnt (I' a)) y ∧
      Kept (fun _ => 1) x.fs y.fs := by
  intro a y hy
  obtain ⟨hfs, hb, -⟩ := liftFs_ends h hm a y hy
  refine ⟨hfs, hb, ?_⟩
  have := hk x.fs
  rwa [(liftFs_run_ok hy).1] at this

theorem Balance.sameRefs {s : Fs} (h : Balance L F J x) (hs : SameRefs x.fs s) : Balance L F J (x.putFs s) := by
  refine ⟨⟨h.file, h.nonneg, h.closed, h.idle⟩, h.pipes.congr (fun _ _ _ => Iff.rfl) rfl rfl rfl,
    fun k => (hs.ref k).trans (h.inode k), fun k l => ?_⟩
  show 0 < (s.icache k).ref → 0 < (s.icache l).ref → (s.icache k).dev = (s.icache l).dev →
    (s.icache k).inum = (s.icache l).inum → k = l
  rw [hs.ref, hs.ref, hs.dev, hs.dev, hs.inum, hs.inum]
  exact h.uniq k l

theorem liftFs_same {α : Type} {m : FsM α} (h : Balance L F J x) (hm : Moves SameRefs m) :
    Ends (liftFs m) x fun _ y => (∃ s, y = x.putFs s) ∧ Balance L F J y ∧ Kept (fun _ => 1) x.fs y.fs := by
  intro a y hy
  obtain ⟨hfs, hy'⟩ := liftFs_run_ok hy
  have hs := hm x.fs
  rw [hfs] at hs
  rw [hy']
  exact ⟨⟨_, rfl⟩, h.sameRefs hs, hs.kept⟩

theorem kept_of_all {b : Slot → Nat} {s s' : Fs} (h : Kept (fun _ => 1) s s') : Kept b s s' :=
  fun k _ => h k Nat.one_pos

theorem base_pos (h : (x.procs p).cwd = some ip) : 0 < base x ip := by
  have := le_tally (fun q : Proc => if q.cwd = some ip then 1 else 0) x.procs p
  rw [if_pos h] at this
  unfold base cwds
  omega

theorem iput_cwd_ends {I : Multiset Slot} (h : Balance L F (cnt I) x) (hp : (x.procs p).cwd = some ip) :
    Ends (liftFs (iput ip)) x fun _ y => (∃ s, y = x.putFs s) ∧ Balance L F (fun k => cnt I k - one (some ip) k) y ∧
      Kept (fun _ => 1) x.fs y.fs := by
  intro a y hy
  obtain ⟨hfs, hy'⟩ := liftFs_run_ok hy
  have hpos := base_pos hp
  -- the reference of the directory is taken out of what others hold
  let b : Slot → Nat := update (base x) ip (base x ip - 1)
  have hb : ∀ k, (b k : Int) = base x k - one (some ip) k := by
    intro k
    rw [one_some]
    by_cases hk : k = ip
    · rw [hk, if_pos rfl, show b ip = base x ip - 1 from update_self ..]
      omega
    · rw [if_neg hk, show b k = base x k from update_of_ne hk ..]
      omega
  have hheld : Held b (ip ::ₘ I) x.fs := h.held fun k => by
    have hc : ((ip ::ₘ I).count k : Int) = cnt I k + one (some ip) k := cnt_cons ip I k
    push_cast
    rw [hb, hc]
    omega
  obtain ⟨hheld', -⟩ := iput_uses ip x.fs hheld a _ hfs
  have hk : Moves (Kept fun _ => 1) (iput ip) := iput_kept ip
  have hkept := hk x.fs
  rw [hfs] at hkept
  rw [hy']
  refine ⟨⟨_, rfl⟩, h.setFs hheld' fun k => ?_, hkept⟩
  push_cast
  rw [hb]
  unfold cnt
  omega

/-! ### The table of open files -/

theorem not_opens_of_none {e : File} (h : e.type = .FD_NONE) (k : Slot) : ¬ Opens k e := by
  rintro ⟨-, h', -⟩
  rw [h] at h'
  cases h'

theorem not_isEnd_of_none {e : File} (h : e.type = .FD_NONE) (page : Nat) (w : Bool) : ¬ IsEnd page w e := by
  rintro ⟨-, h', -⟩
  rw [h] at h'
  cases h'

theorem filealloc_ends (h : Balance L F J x) :
    Ends filealloc x fun r y => match r with
      | none => y = x
      | some f => Balance L (fun g => F g + one (some f) g) J y ∧ (x.ftable f).ref = 0 ∧
          y = x.putFile f { x.ftable f with ref := 1 } := by
  refine .get_bind ?_
  split
  · exact .pure rfl
  · rename_i f hf
    have hz : (x.ftable f).ref = 0 := by simpa using List.find?_some hf
    have hn := h.closed f hz
    refine .modify_bind (.pure ⟨?_, hz, rfl⟩)
    refine Balance.of_eq (h.putFile (f := f) (d := 1) (e := { x.ftable f with ref := 1 }) ?_ Int.one_nonneg
      (fun h' => absurd h' Int.one_ne_zero) (fun k => ?_) fun page w => ?_) (fun g => ?_) fun _ => rfl
    · rw [hz]
      rfl
    · exact iff_of_false (@not_opens_of_none { x.ftable f with ref := 1 } hn k) (not_opens_of_none hn k)
    · exact iff_of_false (@not_isEnd_of_none { x.ftable f with ref := 1 } hn page w) (not_isEnd_of_none hn page w)
    · rw [one_some]

theorem Balance.putRef {d : Int} (h : Balance L F J x) (h₀ : 0 < (x.ftable f).ref) (h₁ : 0 < (x.ftable f).ref + d) :
    Balance L (fun g => F g + if g = f then d else 0) J
      (x.putFile f { x.ftable f with ref := (x.ftable f).ref + d }) := by
  refine h.putFile rfl h₁.le (fun h' => absurd h' h₁.ne') (fun k => ?_) fun page w => ?_
  · exact and_congr_left' (iff_of_true h₁ h₀)
  · exact and_congr_left' (iff_of_true h₁ h₀)

theorem filedup_ends (h : Balance L F J x) :
    Ends (filedup f) x fun _ y => Balance L (fun g => F g + one (some f) g) J y ∧ ∃ e, y = x.putFile f e := by
  refine .get_bind ?_
  split
  · exact .stop
  · rename_i hpos
    refine .modify ⟨?_, _, rfl⟩
    exact (h.putRef (d := 1) (by omega) (by omega)).of_eq (fun g => by rw [one_some]) fun _ => rfl

theorem fdalloc_ends (h : Balance L F J x) (hp : (x.procs p).busy) :
    Ends (fdalloc p f) x fun r y => match r with
      | none => y = x
      | some fd => Balance L (fun g => F g - one (some f) g) J y ∧ (x.procs p).ofile fd = none ∧
          y = x.putProc p { x.procs p with ofile := update (x.procs p).ofile fd (some f) } := by
  refine .get_bind ?_
  split
  · exact .pure rfl
  · rename_i fd hfd
    have hn : (x.procs p).ofile fd = none := by simpa using List.find?_some hfd
    refine .modify_bind (.pure ⟨?_, hn, rfl⟩)
    refine (h.putOfile _ _ _ (.inl hp)).of_eq (fun g => ?_) fun _ => rfl
    rw [hn, one_none, add_zero]

/-! ### Pipes -/

def shut (e : PipeEnds) (w : Bool) : PipeEnds :=
  if w then { e with writeopen := false } else { e with readopen := false }

theorem isOpen_shut (e : PipeEnds) (w w' : Bool) : isOpen (shut e w) w' = (isOpen e w' && decide (w' ≠ w)) := by
  cases w <;> cases w' <;> simp [isOpen, shut]

theorem shut_closed (e : PipeEnds) (w : Bool) :
    ((shut e w).readopen = false ∧ (shut e w).writeopen = false) ↔ ∀ w', isOpen (shut e w) w' = false := by
  rw [Bool.forall_bool]
  rfl

section PipeClose

variable {w : Bool} (h : PipesOk L x) (hf : IsEnd page w (x.ftable f))
  (hy : ∀ page' w' g, IsEnd page' w' (y.ftable g) ↔ IsEnd page' w' (x.ftable g) ∧ g ≠ f)

include h hf hy

theorem ends_shut {e : PipeEnds} (he : x.pipes page = some e) (page' : Nat) (w' : Bool) :
    (∃ g, IsEnd page' w' (y.ftable g)) ↔
      if page' = page then isOpen (shut e w) w' = true else ∃ e', x.pipes page' = some e' ∧ isOpen e' w' = true := by
  have hdrop : (page', w') ≠ (page, w) → ((∃ g, IsEnd page' w' (y.ftable g)) ↔ ∃ g, IsEnd page' w' (x.ftable g)) := by
    intro hne
    refine exists_congr fun g => (hy page' w' g).trans (and_iff_left_of_imp ?_)
    rintro hg rfl
    exact hne (by rw [← hg.2.2.1, ← hg.2.2.2, hf.2.2.1, hf.2.2.2])
  by_cases hp : page' = page
  · subst hp
    rw [if_pos rfl, isOpen_shut]
    by_cases hw : w' = w
    · subst hw
      refine iff_of_false ?_ (by simp)
      rintro ⟨g, hg⟩
      obtain ⟨hg, hne⟩ := (hy _ _ _).1 hg
      exact hne (h.alone _ _ _ _ hg hf)
    · rw [hdrop (by simp [hw]), ← h.ends]
      simp [he, hw]
  · rw [if_neg hp, hdrop (by simp [hp]), h.ends]

/-- The pipes after the end is marked as closed, with `o` in place of the pipe. -/
theorem PipesOk.shut {z : Sys} {e : PipeEnds} {o : Option PipeEnds} (he : x.pipes page = some e)
    (hz : z.pipes = update x.pipes page o) (hzf : z.ftable = y.ftable)
    (ho : ∀ w', (∃ e', o = some e' ∧ isOpen e' w' = true) ↔ isOpen (shut e w) w' = true)
    (hal : ∀ e', o = some e' → ∃ w', isOpen e' w' = true)
    (hpages : ∀ page', z.kmem.out.count page' = z.others.count page' + if (z.pipes page').isSome then 1 else 0)
    (hperm : List.Perm (z.kmem.freelist ++ z.kmem.out) (x.kmem.freelist ++ x.kmem.out)) (hbad : z.kmem.bad = x.kmem.bad) :
    PipesOk L z := by
  refine ⟨fun page' w' => ?_, fun page' w' g g' hg hg' => ?_, fun page' e' he' => ?_, hpages, hperm.nodup_iff.2 h.nodup,
    fun page' hm => h.managed page' (hperm.mem_iff.1 hm), hbad.trans h.bad⟩
  · rw [hzf, ends_shut h hf hy he page' w', hz]
    by_cases hpp : page' = page
    · rw [hpp, update_self, if_pos rfl]
      exact ho w'
    · rw [update_of_ne hpp, if_neg hpp]
  · rw [hzf] at hg hg'
    exact h.alone _ _ _ _ ((hy _ _ _).1 hg).1 ((hy _ _ _).1 hg').1
  · rw [hz] at he'
    by_cases hpp : page' = page
    · rw [hpp, update_self] at he'
      exact hal e' he'
    · rw [update_of_ne hpp] at he'
      exact h.alive page' e' he'

omit h hf hy in
theorem kfree_run {K : Vm.Kmem} (hmem : page ∈ K.out) (hman : L.managed page) :
    Vm.kfree L page K = (.ok (), { K with freelist := page :: K.freelist, out := K.out.erase page }) := by
  unfold Vm.kfree
  rw [if_neg (by have := hman.1; have := hman.2; omega)]
  show (Except.ok (), _) = _
  simp only [if_pos hmem]

omit h hf hy in
theorem kfree_ends {K : Vm.Kmem} (hmem : page ∈ K.out) (hman : L.managed page) (hK : y.kmem = K) :
    Ends (liftKmem (Vm.kfree L page)) y fun _ z =>
      z = { y with kmem := { K with freelist := page :: K.freelist, out := K.out.erase page } } := by
  intro _ z hz
  unfold liftKmem at hz
  rw [hK, kfree_run hmem hman] at hz
  simp only [Except.mapError, Prod.mk.injEq, true_and] at hz
  exact hz.symm

theorem pipeclose_ends (hp : y.pipes = x.pipes) (hk : y.kmem = x.kmem) (ho : y.others = x.others) :
    Ends (pipeclose L page w) y fun _ z => PipesOk L z ∧ ∃ P K, z = { y with pipes := P, kmem := K } := by
  obtain ⟨e, he, hopen⟩ := (h.ends page w).2 ⟨f, hf⟩
  have hcount := h.pages page
  rw [he, Option.isSome_some, if_pos rfl] at hcount
  refine .get_bind ?_
  rw [hp, he]
  show Ends (if (Sysfile.shut e w).readopen = false ∧ (Sysfile.shut e w).writeopen = false then _ else _ : SysM Unit) y _
  split
  · rename_i hc
    have hmem : page ∈ x.kmem.out := List.count_pos_iff.1 (by omega)
    refine .modify_bind ((kfree_ends (y := { y with pipes := update y.pipes page none }) hmem
      (h.managed page (List.mem_append_right _ hmem)) hk).mono ?_)
    rintro _ z rfl
    refine ⟨h.shut hf hy (o := none) he (by rw [← hp]) rfl (fun w' => ?_) nofun (fun page' => ?_) ?_ rfl, _, _, rfl⟩
    · rw [(shut_closed e w).1 hc w']
      simp
    · show (x.kmem.out.erase page).count page' = y.others.count page' +
        if (update y.pipes page none page').isSome then 1 else 0
      rw [ho, hp]
      by_cases hpp : page' = page
      · rw [hpp, List.count_erase_self, hcount, update_self]
        rfl
      · rw [List.count_erase_of_ne hpp, h.pages page', update_of_ne hpp]
    · exact List.perm_middle.symm.trans ((List.perm_cons_erase hmem).symm.append_left _)
  · rename_i hc
    refine .modify ⟨h.shut hf hy (o := some (Sysfile.shut e w)) he ?_ rfl (fun w' => ?_) (fun e' he' => ?_)
      (fun page' => ?_) ?_ ?_, _, y.kmem, rfl⟩
    · rw [← hp]
      rfl
    · simp
    · obtain rfl : Sysfile.shut e w = e' := Option.some.inj he'
      by_contra hno
      refine hc ((shut_closed e w).2 fun w' => ?_)
      simpa using not_exists.1 hno w'
    · show y.kmem.out.count page' = y.others.count page' +
        if (update y.pipes page (some (Sysfile.shut e w)) page').isSome then 1 else 0
      rw [hk, ho, hp, h.pages page']
      by_cases hpp : page' = page
      · rw [hpp, he, update_self]
        rfl
      · rw [update_of_ne hpp]
    · show List.Perm (y.kmem.freelist ++ y.kmem.out) _
      rw [hk]
    · show y.kmem.bad = _
      rw [hk]

end PipeClose

/-! ### Closing files -/

def File.cleared (e : File) : File := { e with ref := 0, type := .FD_NONE }

section Last

variable {I : Multiset Slot} (h : Balance L F (cnt I) x) (hr : (x.ftable f).ref = 1)

include h hr

theorem files_cleared : FilesOk (fun g => F g - one (some f) g) (x.putFile f (File.cleared (x.ftable f))) := by
  have := h.toFilesOk.putFile (f := f) (d := -1) (e := File.cleared (x.ftable f)) (by rw [hr]; rfl) le_rfl fun _ => rfl
  have hF : (fun g => F g + if g = f then -1 else 0) = fun g => F g - one (some f) g := by
    funext g
    rw [one_some]
    split_ifs <;> omega
  rwa [hF] at this

theorem closeLast_ends :
    Ends (closeLast L (x.ftable f)) (x.putFile f (File.cleared (x.ftable f))) fun _ y =>
      Balance L (fun g => F g - one (some f) g) (cnt I) y ∧ y.procs = x.procs ∧ Kept (fun _ => 1) x.fs y.fs := by
  have hfiles := files_cleared h hr
  have hbase := base_putFile (x := x) (f := f) (File.cleared (x.ftable f))
  have hno : ∀ k, ¬ Opens k (File.cleared (x.ftable f)) := not_opens_of_none rfl
  have hne : ∀ page w, ¬ IsEnd page w (File.cleared (x.ftable f)) := not_isEnd_of_none rfl
  unfold closeLast
  split
  · -- the end of a pipe
    rename_i ht
    have hf : IsEnd (x.ftable f).pipe (x.ftable f).writable (x.ftable f) := ⟨by omega, ht, rfl, rfl⟩
    refine (pipeclose_ends (y := x.putFile f (File.cleared (x.ftable f))) h.pipes hf (fun page' w' g => ?_) rfl rfl
      rfl).mono ?_
    · by_cases hg : g = f
      · rw [hg, putFile_self]
        exact iff_of_false (hne _ _) fun hh => hh.2 rfl
      · rw [putFile_ne hg]
        exact (and_iff_left hg).symm
    · rintro _ z ⟨hz, P, K, rfl⟩
      refine ⟨⟨⟨hfiles.file, hfiles.nonneg, hfiles.closed, hfiles.idle⟩, hz, fun k => ?_, h.uniq⟩, rfl, .refl _ _⟩
      have hnk : ¬ Opens k (x.ftable f) := by
        rintro ⟨-, ht', -⟩
        rw [ht] at ht'
        cases ht'
      have := hbase k
      rw [if_neg (hno k), if_neg hnk] at this
      show (x.fs.icache k).ref = base (x.putFile f (File.cleared (x.ftable f))) k + cnt I k
      rw [h.inode k]
      omega
  · -- an inode
    rename_i ht
    have hx : Balance L (fun g => F g - one (some f) g) (cnt ((x.ftable f).ip ::ₘ I))
        (x.putFile f (File.cleared (x.ftable f))) := by
      refine ⟨hfiles, h.pipes.congr (isEnd_putFile fun page w => ?_) rfl rfl rfl, fun k => ?_, h.uniq⟩
      · refine iff_of_false (hne page w) ?_
        rintro ⟨-, ht', -⟩
        rw [ht] at ht'
        cases ht'
      · have hk : Opens k (x.ftable f) ↔ k = (x.ftable f).ip :=
          ⟨fun ho => ho.2.2.symm, fun hk => ⟨by omega, ht, hk.symm⟩⟩
        have := hbase k
        rw [if_neg (hno k)] at this
        simp only [hk] at this
        rw [cnt_cons, one_some]
        show (x.fs.icache k).ref = _
        rw [h.inode k]
        omega
    have hm : Uses (base (x.putFile f (File.cleared (x.ftable f)))) ((x.ftable f).ip ::ₘ I) (do
        beginOp
        iput (x.ftable f).ip
        endOp) fun _ => I :=
      .then_of_moves beginOp_refs fun _ => (iput_uses _).bind fun _ => .of_moves endOp_refs
    have hk : Moves (Kept fun _ => 1) (do
        beginOp
        iput (x.ftable f).ip
        endOp) :=
      .bind (beginOp_refs.mono fun _ _ => SameRefs.kept) fun _ => .bind (iput_kept _) fun _ =>
        endOp_refs.mono fun _ _ => SameRefs.kept
    refine (liftFs_kept hx hm hk).mono ?_
    rintro _ y ⟨⟨s, rfl⟩, hb, hkept⟩
    exact ⟨hb, rfl, hkept⟩
  · -- a file that was not opened
    rename_i ht
    refine .pure ⟨⟨hfiles, h.pipes.congr (isEnd_putFile fun page w => ?_) rfl rfl rfl, fun k => ?_, h.uniq⟩, rfl, .refl _ _⟩
    · exact iff_of_false (hne page w) (not_isEnd_of_none ht page w)
    · have := hbase k
      rw [if_neg (hno k), if_neg (not_opens_of_none ht k)] at this
      show (x.fs.icache k).ref = _
      rw [h.inode k]
      omega

end Last

theorem fileclose_ends {I : Multiset Slot} (h : Balance L F (cnt I) x) :
    Ends (fileclose L f) x fun _ y =>
      Balance L (fun g => F g - one (some f) g) (cnt I) y ∧ y.procs = x.procs ∧ Kept (fun _ => 1) x.fs y.fs := by
  refine .get_bind ?_
  dsimp only
  split
  · exact .stop
  split
  · refine .modify ⟨?_, rfl, .refl _ _⟩
    refine (h.putRef (d := -1) (by omega) (by omega)).of_eq (fun g => ?_) fun _ => rfl
    rw [one_some]
    split_ifs <;> omega
  · exact .modify_bind (closeLast_ends h (by omega))

end Xv6.Sysfile
