import Xv6.File
import Xv6.Lib.Run
import Xv6.Lib.Tally

/-!
# Writes that share an offset

Any number of processes call `filewrite` on one open file of a regular file. A step is what a process
does between two points where another can act: `begin_op`, taking the inode lock, `writei` at `f->off`,
moving `f->off` on, releasing the lock with `end_op`, and the return. The history has every call,
every chunk that was written with the place it was written to, and every return.
-/

namespace Xv6.SharedWrites

open Function (update update_self update_of_ne)
open Fs Tally

variable {ι : Type}

/-! ### The processes -/

/-- A call `filewrite(f, src, n)` that has written `i` bytes. -/
structure Call where
  src : Nat → UInt8
  n : Nat
  i : Nat

namespace Call

def n₁ (c : Call) : Nat := min (c.n - c.i) maxChunk

def next (c : Call) (j : Nat) : UInt8 := c.src (c.i + j)

def bytes (c : Call) : List UInt8 := (List.range c.n).map c.src

def written (c : Call) : List UInt8 := (List.range c.i).map c.src

end Call

inductive Pc
  | idle
  | loop (c : Call) -- at `while (i < n)`
  | begun (c : Call)
  | locked (c : Call)
  | wrote (c : Call) (r : Option Nat) -- `writei` has returned `r`
  | advanced (c : Call) (r : Option Nat)
  | failed (c : Call) -- after `break`

structure St (ι : Type) where
  x : OneFile
  pc : ι → Pc

inductive Act (ι : Type)
  | call (p : ι) (src : Nat → UInt8) (n : Nat)
  | begin (p : ι)
  | lock (p : ι)
  | write (p : ι)
  | advance (p : ι)
  | unlock (p : ι)
  | ret (p : ι)

def canBegin (s : Fs) : Prop := s.lh.length + (s.outstanding + 1) * MAXOPBLOCKS ≤ LOGSIZE

instance (s : Fs) : Decidable (canBegin s) := inferInstanceAs (Decidable (_ ≤ _))

def St.set [DecidableEq ι] (s : St ι) (p : ι) (fs : Fs) (f : File) (c : Pc) : St ι := ⟨⟨fs, f⟩, update s.pc p c⟩

/-- What `p` does with `r` after `end_op`; a short write panics. -/
def after (c : Call) : Option Nat → Option Pc
  | none => some (.failed c)
  | some r => if r = c.n₁ then some (.loop { c with i := c.i + r }) else none

def step [DecidableEq ι] (s : St ι) : Act ι → Option (St ι)
  | .call p src n =>
    match s.pc p with
    | .idle =>
      if n < 2 ^ 31 ∧ s.x.f.writable = true ∧ s.x.f.type = .FD_INODE then
        some (s.set p s.x.fs s.x.f (.loop ⟨src, n, 0⟩))
      else none
    | _ => none
  | .begin p =>
    match s.pc p with
    | .loop c =>
      if c.i < c.n ∧ canBegin s.x.fs then
        match beginOp s.x.fs with
        | (.ok _, fs) => some (s.set p fs s.x.f (.begun c))
        | (.error _, _) => none
      else none
    | _ => none
  | .lock p =>
    match s.pc p with
    | .begun c =>
      match ilock s.x.f.ip s.x.fs with
      | (.ok _, fs) => some (s.set p fs s.x.f (.locked c))
      | (.error _, _) => none
    | _ => none
  | .write p =>
    match s.pc p with
    | .locked c =>
      match writei s.x.f.ip c.next s.x.f.off (UInt32.ofNat c.n₁) s.x.fs with
      | (.ok r, fs) => some (s.set p fs s.x.f (.wrote c r))
      | (.error _, _) => none
    | _ => none
  | .advance p =>
    match s.pc p with
    | .wrote c r => some (s.set p s.x.fs (s.x.f.advance r) (.advanced c r))
    | _ => none
  | .unlock p =>
    match s.pc p with
    | .advanced c r =>
      match (iunlock s.x.f.ip >>= fun _ => endOp : FsM Unit) s.x.fs with
      | (.ok _, fs) => (after c r).map fun pc => s.set p fs s.x.f pc
      | (.error _, _) => none
    | _ => none
  | .ret p =>
    match s.pc p with
    | .loop c => if c.i < c.n then none else some (s.set p s.x.fs s.x.f .idle)
    | .failed _ => some (s.set p s.x.fs s.x.f .idle)
    | _ => none

/-! ### The history -/

inductive Event (ι : Type)
  | call (p : ι) (src : Nat → UInt8) (n : Nat)
  | chunk (p : ι) (start : Nat) (data : List UInt8)
  | ret (p : ι) (full : Bool) -- whether all bytes were written

def upd (s : St ι) (a : Act ι) (s' : St ι) (h : List (Event ι)) : Option (List (Event ι)) :=
  match a with
  | .call p src n => some (.call p src n :: h)
  | .write p =>
    match s'.pc p with
    | .wrote c (some r) => some (.chunk p s.x.f.off.toNat ((List.range r).map c.next) :: h)
    | _ => some h
  | .ret p =>
    match s.pc p with
    | .loop _ => some (.ret p true :: h)
    | _ => some (.ret p false :: h)
  | _ => some h

inductive Does [DecidableEq ι] (s : St ι) (h : List (Event ι)) : Act ι → St ι → List (Event ι) → Prop
  | call {p : ι} {src : Nat → UInt8} {n : Nat} (hpc : s.pc p = .idle) :
      Does s h (.call p src n) (s.set p s.x.fs s.x.f (.loop ⟨src, n, 0⟩)) (.call p src n :: h)
  | begin {p : ι} {c : Call} (hpc : s.pc p = .loop c) :
      Does s h (.begin p) (s.set p (s.x.fs.setLog (s.x.fs.outstanding + 1) s.x.fs.lh) s.x.f (.begun c)) h
  | lock {p : ι} {c : Call} {fs : Fs} (hpc : s.pc p = .begun c) (hrun : ilock s.x.f.ip s.x.fs = (.ok (), fs)) :
      Does s h (.lock p) (s.set p fs s.x.f (.locked c)) h
  | write {p : ι} {c : Call} {r : Option Nat} {fs : Fs} (hpc : s.pc p = .locked c)
      (hrun : writei s.x.f.ip c.next s.x.f.off (UInt32.ofNat c.n₁) s.x.fs = (.ok r, fs)) :
      Does s h (.write p) (s.set p fs s.x.f (.wrote c r))
        (r.elim h fun r => .chunk p s.x.f.off.toNat ((List.range r).map c.next) :: h)
  | advance {p : ι} {c : Call} {r : Option Nat} (hpc : s.pc p = .wrote c r) :
      Does s h (.advance p) (s.set p s.x.fs (s.x.f.advance r) (.advanced c r)) h
  | unlock {p : ι} {c : Call} {r : Option Nat} {fs : Fs} {pc : Pc} (hpc : s.pc p = .advanced c r)
      (hrun : (iunlock s.x.f.ip >>= fun _ => endOp : FsM Unit) s.x.fs = (.ok (), fs)) (hafter : after c r = some pc) :
      Does s h (.unlock p) (s.set p fs s.x.f pc) h
  | ret {p : ι} {c : Call} (hpc : s.pc p = .loop c) (hge : ¬ c.i < c.n) :
      Does s h (.ret p) (s.set p s.x.fs s.x.f .idle) (.ret p true :: h)
  | fail {p : ι} {c : Call} (hpc : s.pc p = .failed c) :
      Does s h (.ret p) (s.set p s.x.fs s.x.f .idle) (.ret p false :: h)

def ends (a : Nat) : List (Event ι) → Nat
  | [] => a
  | .chunk _ _ d :: h => ends a h + d.length
  | _ :: h => ends a h

/-- Every chunk begins where the one before it ends, the first at `a`. -/
def Tiles (a : Nat) : List (Event ι) → Prop
  | [] => True
  | .chunk _ start _ :: h => start = ends a h ∧ Tiles a h
  | _ :: h => Tiles a h

def contents (c : Nat → UInt8) : List (Event ι) → Nat → UInt8
  | [] => c
  | .chunk _ start d :: h => overlay (contents c h) start d.length fun j => d.getD j 0
  | _ :: h => contents c h

def lastCall [DecidableEq ι] (p : ι) : List (Event ι) → Option ((Nat → UInt8) × Nat)
  | [] => none
  | .call q src n :: h => if q = p then some (src, n) else lastCall p h
  | _ :: h => lastCall p h

/-- The bytes that `p` has written in its last call, in the order of its chunks. -/
def sofar [DecidableEq ι] (p : ι) : List (Event ι) → List UInt8
  | [] => []
  | .call q _ _ :: h => if q = p then [] else sofar p h
  | .chunk q _ d :: h => if q = p then sofar p h ++ d else sofar p h
  | _ :: h => sofar p h

/-- The chunks of a call are consecutive pieces of its bytes, from the first on, and a call that returns
its length has written all of them. -/
def InOrder [DecidableEq ι] : List (Event ι) → Prop
  | [] => True
  | .call _ _ _ :: h => InOrder h
  | .chunk p _ d :: h => InOrder h ∧ ∃ src n, lastCall p h = some (src, n) ∧
      sofar p h ++ d <+: (List.range n).map src
  | .ret p full :: h => InOrder h ∧ ∃ src n, lastCall p h = some (src, n) ∧
      (full = true → sofar p h = (List.range n).map src)

/-! ### What the history says -/

section History

variable {a : Nat} {c : Nat → UInt8} {h : List (Event ι)} {p : ι}

end History

/-! ### The invariant -/

namespace Pc

def inside : Pc → Bool
  | .locked _ | .wrote _ _ | .advanced _ _ => true
  | _ => false

def tx : Pc → Nat
  | .begun _ | .locked _ | .wrote _ _ | .advanced _ _ => 1
  | _ => 0

def pending : Pc → Nat
  | .wrote _ r => r.getD 0
  | _ => 0

/-- The call in progress, and how many of its bytes are written. -/
def doing : Pc → Option (Call × Nat)
  | .idle => none
  | .loop c | .begun c | .locked c | .failed c => some (c, c.i)
  | .wrote c r | .advanced c r => some (c, c.i + r.getD 0)

theorem pending_of_not_inside {pc : Pc} (h : pc.inside = false) : pc.pending = 0 := by
  rcases pc <;> first | rfl | cases h

theorem tx_of_inside {pc : Pc} (h : pc.inside = true) : pc.tx = 1 := by
  rcases pc <;> first | rfl | cases h

end Pc

/-- `i` is the inode of the file, `c₀` its contents and `a` the offset at the start. -/
structure Inv [Fintype ι] [DecidableEq ι] (ip : Slot) (i : Nat) (c₀ : Nat → UInt8) (a : Nat) (s : St ι) (h : List (Event ι)) : Prop where
  file : s.x.f.ip = ip
  inum : (s.x.fs.icache ip).inum = i
  op : s.x.fs.Open ip
  ok : s.x.fs.view.Ok s.x.fs.sb
  type : (s.x.fs.icache ip).type = T_FILE
  tx : s.x.fs.outstanding = tally Pc.tx s.pc
  excl : ∀ p q, (s.pc p).inside = true → (s.pc q).inside = true → p = q
  lock : ∀ p, (s.pc p).inside = true → (s.x.fs.icache ip).locked = true
  byte : ∀ pos, s.x.fs.view.byte i pos = contents c₀ h pos
  tiles : Tiles a h
  off : s.x.f.off.toNat + tally Pc.pending s.pc = ends a h
  small : ends a h < 2 ^ 32
  order : InOrder h
  doing : ∀ p c k, (s.pc p).doing = some (c, k) →
    lastCall p h = some (c.src, c.n) ∧ k ≤ c.n ∧ sofar p h = (List.range k).map c.src

section Steps

variable [Fintype ι] [DecidableEq ι] {ip : Slot} {i a : Nat} {c₀ : Nat → UInt8} {s s' : St ι} {h : List (Event ι)} {p : ι}
  {fs : Fs} {f : File} {pc : Pc}

structure Quiet (ip : Slot) (fs fs' : Fs) : Prop where
  inum : (fs'.icache ip).inum = (fs.icache ip).inum
  op : fs.Open ip → fs'.Open ip
  view : fs'.view = fs.view
  sb : fs'.sb = fs.sb
  type : (fs'.icache ip).type = (fs.icache ip).type
  size : (fs'.icache ip).size = (fs.icache ip).size

theorem Quiet.refl : Quiet ip fs fs := ⟨rfl, id, rfl, rfl, rfl, rfl⟩

theorem Quiet.trans {fs₁ fs₂ : Fs} (h₁ : Quiet ip fs fs₁) (h₂ : Quiet ip fs₁ fs₂) : Quiet ip fs fs₂ :=
  ⟨h₂.inum.trans h₁.inum, fun h => h₂.op (h₁.op h), h₂.view.trans h₁.view, h₂.sb.trans h₁.sb, h₂.type.trans h₁.type,
    h₂.size.trans h₁.size⟩

theorem Quiet.setLock (b : Bool) : Quiet ip fs (fs.setLock ip b) :=
  ⟨by rw [setLock_self], Open.setLock, view_setLock, rfl, by rw [setLock_self], by rw [setLock_self]⟩

theorem Quiet.setLog (n : Nat) (lh : List Nat) : Quiet ip fs (fs.setLog n lh) := ⟨rfl, Open.setLog, rfl, rfl, rfl, rfl⟩

omit [Fintype ι] in
@[simp] theorem set_self : (s.set p fs f pc).pc p = pc := update_self ..

omit [Fintype ι] in
theorem set_ne {q : ι} (hq : q ≠ p) : (s.set p fs f pc).pc q = s.pc q := update_of_ne hq ..

omit [Fintype ι] in
theorem inside_set {q : ι} (hq : ((s.set p fs f pc).pc q).inside = true) :
    q = p ∧ pc.inside = true ∨ q ≠ p ∧ (s.pc q).inside = true := by
  by_cases hqp : q = p
  · rw [hqp, set_self] at hq
    exact .inl ⟨hqp, hq⟩
  · rw [set_ne hqp] at hq
    exact .inr ⟨hqp, hq⟩

theorem Inv.excl_set (hi : Inv ip i c₀ a s h) (hone : pc.inside = true → ∀ q, (s.pc q).inside = true → q = p) {q q' : ι}
    (hq : ((s.set p fs f pc).pc q).inside = true) (hq' : ((s.set p fs f pc).pc q').inside = true) : q = q' := by
  rcases inside_set hq with ⟨rfl, hin⟩ | ⟨hne, hin⟩ <;> rcases inside_set hq' with ⟨rfl, hin'⟩ | ⟨hne', hin'⟩
  · rfl
  · exact (hone hin q' hin').symm
  · exact hone hin' q hin
  · exact hi.excl q q' hin hin'

/-- A step of `p` that does not write: the file system changes in what `Quiet` leaves open, and what `p`
has written stays the same. -/
theorem Inv.quiet (hi : Inv ip i c₀ a s h) {pc' : Pc} (hpc : s.pc p = pc') (hq : Quiet ip s.x.fs fs) (hip : f.ip = s.x.f.ip)
    (htx : fs.outstanding + pc'.tx = s.x.fs.outstanding + pc.tx)
    (hlock : pc.inside = true → (fs.icache ip).locked = true ∧ ∀ q, (s.pc q).inside = true → q = p)
    (hkeep : ∀ q, q ≠ p → (s.pc q).inside = true → (fs.icache ip).locked = true)
    (hoff : f.off.toNat + pc.pending = s.x.f.off.toNat + pc'.pending)
    (hdoing : ∀ c k, pc.doing = some (c, k) → ∃ c', pc'.doing = some (c', k) ∧ c'.src = c.src ∧ c'.n = c.n) :
    Inv ip i c₀ a (s.set p fs f pc) h := by
  have htally := tally_update Pc.tx s.pc p pc
  have hpend := tally_update Pc.pending s.pc p pc
  have htx0 := hi.tx
  have hoff0 := hi.off
  rw [hpc] at htally hpend
  refine ⟨hip.trans hi.file, hq.inum.trans hi.inum, hq.op hi.op, ?_, hq.type.trans hi.type, ?_,
    fun _ _ => hi.excl_set fun h => (hlock h).2, ?_, ?_, hi.tiles, ?_, hi.small, hi.order, ?_⟩
  · show fs.view.Ok fs.sb
    rw [hq.view, hq.sb]
    exact hi.ok
  · show fs.outstanding = tally Pc.tx (update s.pc p pc)
    omega
  · intro q hq
    rcases inside_set hq with ⟨-, hin⟩ | ⟨hne, hin⟩
    · exact (hlock hin).1
    · exact hkeep q hne hin
  · intro pos
    show fs.view.byte i pos = _
    rw [hq.view]
    exact hi.byte pos
  · show f.off.toNat + tally Pc.pending (update s.pc p pc) = _
    omega
  · intro q c k hd
    by_cases hqp : q = p
    · rw [hqp, set_self] at hd
      obtain ⟨c', hd', hsrc, hn⟩ := hdoing c k hd
      have := hi.doing p c' k (by rw [hpc, hd'])
      rw [hsrc, hn] at this
      rw [hqp]
      exact this
    · rw [set_ne hqp] at hd
      exact hi.doing q c k hd

theorem Inv.quiet_out (hi : Inv ip i c₀ a s h) {pc' : Pc} (hpc : s.pc p = pc') (hin : pc'.inside = false)
    (hout : pc.inside = false) (hq : Quiet ip s.x.fs fs) (hlock : (fs.icache ip).locked = (s.x.fs.icache ip).locked)
    (htx : fs.outstanding + pc'.tx = s.x.fs.outstanding + pc.tx)
    (hdoing : ∀ c k, pc.doing = some (c, k) → pc'.doing = some (c, k)) : Inv ip i c₀ a (s.set p fs s.x.f pc) h := by
  refine hi.quiet hpc hq rfl htx (fun h => by rw [hout] at h; cases h) (fun q _ hin => by rw [hlock]; exact hi.lock q hin) ?_
    fun c k hd => ⟨c, hdoing c k hd, rfl, rfl⟩
  rw [Pc.pending_of_not_inside hin, Pc.pending_of_not_inside hout]

theorem Inv.quiet_in (hi : Inv ip i c₀ a s h) {pc' : Pc} (hpc : s.pc p = pc') (hin : pc'.inside = true)
    (hip : f.ip = s.x.f.ip) (htx : pc'.tx = pc.tx) (hoff : f.off.toNat + pc.pending = s.x.f.off.toNat + pc'.pending)
    (hdoing : pc.doing = pc'.doing) : Inv ip i c₀ a (s.set p s.x.fs f pc) h := by
  rw [← hpc] at hin
  exact hi.quiet hpc .refl hip (by rw [htx]) (fun _ => ⟨hi.lock p hin, fun q hq => hi.excl q p hq hin⟩)
    (fun q _ hq => hi.lock q hq) hoff fun c k hd => ⟨c, hdoing ▸ hd, rfl, rfl⟩

theorem Inv.alone (hi : Inv ip i c₀ a s h) (hin : (s.pc p).inside = true) {q : ι} (hne : q ≠ p) :
    (s.pc q).inside = false := by
  by_contra hq
  exact hne (hi.excl q p (by simpa using hq) hin)

theorem tally_pending (hi : Inv ip i c₀ a s h) (hin : (s.pc p).inside = true) :
    tally Pc.pending s.pc = (s.pc p).pending := by
  have hu := tally_update Pc.pending s.pc p .idle
  have hz : tally Pc.pending (update s.pc p .idle) = 0 := tally_eq_zero fun q => by
    by_cases hq : q = p
    · rw [hq, update_self]
      rfl
    · rw [update_of_ne hq]
      exact Pc.pending_of_not_inside (hi.alone hin hq)
  have h0 : Pc.idle.pending = 0 := rfl
  omega

theorem Inv.lock_step {c : Call} (hi : Inv ip i c₀ a s h) (hpc : s.pc p = .begun c)
    (hrun : ilock s.x.f.ip s.x.fs = (.ok (), fs)) :
    Inv ip i c₀ a (s.set p fs s.x.f (.locked c)) h ∧ Quiet ip s.x.fs fs := by
  rw [hi.file] at hrun
  have hl : (s.x.fs.icache ip).locked = false := by
    by_contra hl
    have hasleep : ilock ip s.x.fs = (.error (.asleep ip), s.x.fs) := by
      have href : ¬ (s.x.fs.icache ip).ref < 1 := by have := hi.op.ref; omega
      show (if (s.x.fs.icache ip).ref < 1 then _ else _ : FsM Unit) s.x.fs = _
      rw [if_neg href]
      have hacq : acquiresleep ip s.x.fs = (.error (.asleep ip), s.x.fs) := by
        show (if (s.x.fs.icache ip).locked = true then _ else _ : FsM Unit) s.x.fs = _
        rw [if_pos (by simpa using hl)]
        rfl
      rw [Exec.bind_run, hacq]
    rw [hasleep] at hrun
    cases hrun
  rw [ilock_run hi.op hl] at hrun
  obtain rfl : s.x.fs.setLock ip true = fs := (Prod.mk.inj hrun).2
  have hnone : ∀ q, (s.pc q).inside = true → q = p := fun q hq => by
    have := hi.lock q hq
    rw [hl] at this
    cases this
  exact ⟨hi.quiet hpc (.setLock true) rfl rfl (fun _ => ⟨by rw [setLock_self], hnone⟩)
    (fun q hne hq => absurd (hnone q hq) hne) rfl fun c k hd => ⟨c, hd, rfl, rfl⟩, .setLock true⟩

theorem n₁_lt (c : Call) : (UInt32.ofNat c.n₁).toNat = c.n₁ := by
  have h : c.n₁ ≤ maxChunk := Nat.min_le_right ..
  have hmax : maxChunk < 2 ^ 32 := by decide
  rw [UInt32.toNat_ofNat']
  omega

theorem overlay_congr {c : Nat → UInt8} {off n : Nat} {src src' : Nat → UInt8} (h : ∀ j, j < n → src j = src' j) (pos : Nat) :
    overlay c off n src pos = overlay c off n src' pos := by
  unfold overlay
  split
  · exact h _ (by omega)
  · rfl

/-- The chunk that `p` writes goes where the last one ended. -/
theorem Inv.write_step {c : Call} {r : Option Nat} (hi : Inv ip i c₀ a s h) (hpc : s.pc p = .locked c)
    (hrun : writei s.x.f.ip c.next s.x.f.off (UInt32.ofNat c.n₁) s.x.fs = (.ok r, fs)) :
    (r = none ∧ ¬ s.x.fs.Fits ip s.x.f.off (UInt32.ofNat c.n₁) ∧ Inv ip i c₀ a (s.set p fs s.x.f (.wrote c none)) h) ∨
    (r = some c.n₁ ∧ s.x.f.off.toNat + c.n₁ ≤ (fs.icache ip).size.toNat ∧
      Inv ip i c₀ a (s.set p fs s.x.f (.wrote c r))
        (.chunk p s.x.f.off.toNat ((List.range c.n₁).map c.next) :: h)) := by
  rw [hi.file] at hrun
  have hin : (s.pc p).inside = true := by rw [hpc]; rfl
  have hdev : (s.x.fs.icache ip).type ≠ T_DEV := by rw [hi.type]; decide
  have hzero : (s.pc p).pending = 0 := by rw [hpc]; rfl
  have hend : s.x.f.off.toNat = ends a h := by
    have h1 := tally_pending hi hin
    have h2 := hi.off
    omega
  by_cases hfit : s.x.fs.Fits ip s.x.f.off (UInt32.ofNat c.n₁)
  · right
    have ho : 0 < s.x.fs.outstanding := by
      have h1 := le_tally Pc.tx s.pc p
      rw [Pc.tx_of_inside hin] at h1
      rw [hi.tx]
      omega
    obtain ⟨rfl, hw, -⟩ := (writei_meets hi.op hi.ok ho hdev hfit).run_ok hrun
    rw [n₁_lt] at hw ⊢
    obtain ⟨addrs, z, hslot, hz⟩ := hw.slot
    have hmine := hi.doing p c c.i (by rw [hpc]; rfl)
    have hle : c.i + c.n₁ ≤ c.n := by
      have h1 : c.n₁ ≤ c.n - c.i := Nat.min_le_left ..
      have h2 := hmine.2.1
      omega
    have hbytes : (List.range c.i).map c.src ++ (List.range c.n₁).map c.next = (List.range (c.i + c.n₁)).map c.src := by
      rw [List.range_add, List.map_append, List.map_map]
      rfl
    refine ⟨rfl, by rw [hslot]; exact hz ▸ Nat.le_max_right _ _, hi.file, ?_, hw.op, hw.ok, ?_, ?_,
      fun _ _ => hi.excl_set fun _ q hq => hi.excl q p hq hin, ?_, ?_, ⟨hend, hi.tiles⟩, ?_, ?_,
      ⟨hi.order, c.src, c.n, hmine.1, ?_⟩, ?_⟩
    · show (fs.icache ip).inum = i
      rw [hslot]
      exact hi.inum
    · show (fs.icache ip).type = _
      rw [hslot]
      exact hi.type
    · have h1 := tally_update Pc.tx s.pc p (.wrote c (some c.n₁))
      rw [Pc.tx_of_inside hin] at h1
      show fs.outstanding = tally Pc.tx (update s.pc p _)
      rw [hw.outstanding, hi.tx]
      exact (Nat.add_right_cancel h1).symm
    · intro q _
      show (fs.icache ip).locked = true
      rw [hslot]
      exact hi.lock p hin
    · intro pos
      have hb := hw.byte pos
      rw [hi.inum] at hb
      have hc : s.x.fs.view.byte i = contents c₀ h := funext hi.byte
      show fs.view.byte i pos = overlay (contents c₀ h) _ _ _ pos
      rw [hb, hc, List.length_map, List.length_range]
      refine overlay_congr (fun j hj => ?_) pos
      rw [List.getD_eq_getElem?_getD, List.getElem?_map, List.getElem?_range hj]
      rfl
    · have h1 := tally_update Pc.pending s.pc p (.wrote c (some c.n₁))
      have h2 := tally_pending hi hin
      have h3 : (Pc.wrote c (some c.n₁)).pending = c.n₁ := rfl
      show s.x.f.off.toNat + tally Pc.pending (update s.pc p _) = ends a h + _
      rw [List.length_map, List.length_range]
      omega
    · have h1 := hfit.max
      have hmax : MAXFILE * BSIZE < 2 ^ 32 := by decide
      rw [n₁_lt] at h1
      show ends a h + _ < _
      rw [List.length_map, List.length_range]
      omega
    · obtain ⟨m, hm⟩ := Nat.exists_eq_add_of_le hle
      refine ⟨(List.range m).map fun j => c.src (c.i + c.n₁ + j), ?_⟩
      rw [hmine.2.2, hbytes, hm, @List.range_add (c.i + c.n₁) m, List.map_append, List.map_map]
      rfl
    · intro q c' k hd
      by_cases hq : q = p
      · rw [hq, set_self] at hd
        obtain ⟨rfl, rfl⟩ : c = c' ∧ c.i + c.n₁ = k := by simpa [Pc.doing] using hd
        rw [hq]
        refine ⟨hmine.1, hle, ?_⟩
        show (if p = p then sofar p h ++ _ else _) = _
        rw [if_pos rfl, hmine.2.2, hbytes]
      · rw [set_ne hq] at hd
        have h1 := hi.doing q c' k hd
        refine ⟨h1.1, h1.2.1, ?_⟩
        show (if p = q then _ else sofar q h) = _
        rw [if_neg (Ne.symm hq)]
        exact h1.2.2
  · left
    rw [writei_rejects hdev hfit] at hrun
    cases hrun
    exact ⟨rfl, hfit, hi.quiet_in hpc rfl rfl rfl rfl rfl⟩

theorem Inv.advance_step {c : Call} {r : Option Nat} (hi : Inv ip i c₀ a s h) (hpc : s.pc p = .wrote c r) :
    Inv ip i c₀ a (s.set p s.x.fs (s.x.f.advance r) (.advanced c r)) h := by
  have hin : (s.pc p).inside = true := by rw [hpc]; rfl
  have hoff : s.x.f.off.toNat + (s.pc p).pending = _ := tally_pending hi hin ▸ hi.off
  rw [hpc] at hoff
  have hoff : s.x.f.off.toNat + r.getD 0 = ends a h := hoff
  have hsmall := hi.small
  refine hi.quiet_in hpc rfl rfl rfl ?_ rfl
  show (s.x.f.off + UInt32.ofNat (r.getD 0)).toNat + 0 = s.x.f.off.toNat + r.getD 0
  rw [UInt32.toNat_add, UInt32.toNat_ofNat']
  omega

theorem unlock_run (hop : fs.Open ip) (hl : (fs.icache ip).locked = true) {fs' : Fs}
    (hrun : (iunlock ip >>= fun _ => endOp : FsM Unit) fs = (.ok (), fs')) :
    fs' = (fs.setLock ip false).setLog (fs.outstanding - 1) (if fs.outstanding = 1 then [] else fs.lh) := by
  rw [Exec.bind_of_ok (iunlock_run hop.ref hl), endOp_run] at hrun
  exact (Prod.mk.inj hrun).2.symm

theorem Inv.unlock_step {c : Call} {r : Option Nat} (hi : Inv ip i c₀ a s h) (hpc : s.pc p = .advanced c r)
    (hrun : (iunlock s.x.f.ip >>= fun _ => endOp : FsM Unit) s.x.fs = (.ok (), fs)) (hpc' : after c r = some pc) :
    Inv ip i c₀ a (s.set p fs s.x.f pc) h ∧ Quiet ip s.x.fs fs := by
  rw [hi.file] at hrun
  have hin : (s.pc p).inside = true := by rw [hpc]; rfl
  obtain rfl := unlock_run hi.op (hi.lock p hin) hrun
  have hq : Quiet ip s.x.fs ((s.x.fs.setLock ip false).setLog (s.x.fs.outstanding - 1)
      (if s.x.fs.outstanding = 1 then [] else s.x.fs.lh)) := (Quiet.setLock false).trans (.setLog _ _)
  have hone : 1 ≤ s.x.fs.outstanding := by
    have h1 := le_tally Pc.tx s.pc p
    rw [Pc.tx_of_inside hin] at h1
    rw [hi.tx]
    exact h1
  have hnew : pc.inside = false ∧ pc.tx = 0 ∧ pc.pending = 0 ∧
      ∀ c' k, pc.doing = some (c', k) → k = c.i + r.getD 0 ∧ c'.src = c.src ∧ c'.n = c.n := by
    rcases r with _ | r
    · cases hpc'
      refine ⟨rfl, rfl, rfl, fun c' k hd => ?_⟩
      cases hd
      exact ⟨rfl, rfl, rfl⟩
    · obtain ⟨-, hsome⟩ := Option.ite_none_right_eq_some.1 hpc'
      cases hsome
      refine ⟨rfl, rfl, rfl, fun c' k hd => ?_⟩
      cases hd
      exact ⟨rfl, rfl, rfl⟩
  obtain ⟨hout, htx, hpend, hdoing⟩ := hnew
  refine ⟨hi.quiet hpc hq rfl ?_ (fun h => ?_) (fun q hne hq => absurd (hi.excl q p hq hin) hne) ?_ fun c' k hd => ?_, hq⟩
  · rw [htx]
    show s.x.fs.outstanding - 1 + 1 = s.x.fs.outstanding + 0
    omega
  · rw [hout] at h
    cases h
  · rw [hpend]
    rfl
  · obtain ⟨rfl, hsrc, hn⟩ := hdoing c' k hd
    exact ⟨c, rfl, hsrc.symm, hn.symm⟩

theorem Inv.call_step {src : Nat → UInt8} {n : Nat} (hi : Inv ip i c₀ a s h) (hpc : s.pc p = .idle) :
    Inv ip i c₀ a (s.set p s.x.fs s.x.f (.loop ⟨src, n, 0⟩)) (.call p src n :: h) := by
  have htx := tally_update Pc.tx s.pc p (.loop ⟨src, n, 0⟩)
  have hpend := tally_update Pc.pending s.pc p (.loop ⟨src, n, 0⟩)
  rw [hpc] at htx hpend
  refine ⟨hi.file, hi.inum, hi.op, hi.ok, hi.type, hi.tx.trans htx.symm, fun _ _ => hi.excl_set (fun h => by cases h), fun q hq => ?_,
    hi.byte, hi.tiles, ?_, hi.small, hi.order, fun q c k hd => ?_⟩
  · rcases inside_set hq with ⟨-, hin⟩ | ⟨-, hin⟩
    · cases hin
    · exact hi.lock q hin
  · exact (congrArg (s.x.f.off.toNat + ·) hpend).trans hi.off
  · by_cases hqp : q = p
    · rw [hqp, set_self] at hd
      cases hd
      refine ⟨?_, Nat.zero_le _, ?_⟩
      · rw [hqp]
        exact if_pos rfl
      · rw [hqp]
        exact if_pos rfl
    · rw [set_ne hqp] at hd
      obtain ⟨h1, h2, h3⟩ := hi.doing q c k hd
      refine ⟨?_, h2, ?_⟩
      · exact (if_neg (Ne.symm hqp)).trans h1
      · exact (if_neg (Ne.symm hqp)).trans h3

theorem Inv.ret_step {full : Bool} {c : Call} {k : Nat} (hi : Inv ip i c₀ a s h) (hpc : s.pc p = pc)
    (hin : pc.inside = false) (htx : pc.tx = 0) (hd : pc.doing = some (c, k)) (hfull : full = true → k = c.n) :
    Inv ip i c₀ a (s.set p s.x.fs s.x.f .idle) (.ret p full :: h) := by
  have hidle : Inv ip i c₀ a (s.set p s.x.fs s.x.f .idle) h := hi.quiet_out hpc hin rfl .refl rfl (by rw [htx]; rfl) nofun
  obtain ⟨h1, -, h3⟩ := hi.doing p c k (by rw [hpc, hd])
  refine ⟨hidle.file, hidle.inum, hidle.op, hidle.ok, hidle.type, hidle.tx, hidle.excl, hidle.lock, hidle.byte, hidle.tiles,
    hidle.off, hidle.small, ⟨hidle.order, c.src, c.n, h1, fun hf => ?_⟩, hidle.doing⟩
  rw [h3, hfull hf]

theorem Inv.step {h' : List (Event ι)} {act : Act ι} (hi : Inv ip i c₀ a s h) (hd : Does s h act s' h') :
    Inv ip i c₀ a s' h' := by
  cases hd with
  | call hpc => exact hi.call_step hpc
  | begin hpc => exact hi.quiet_out hpc rfl rfl (.setLog _ _) rfl rfl fun _ _ => id
  | lock hpc hrun => exact (hi.lock_step hpc hrun).1
  | write hpc hrun =>
    rcases hi.write_step hpc hrun with ⟨rfl, -, hinv⟩ | ⟨rfl, -, hinv⟩
    · exact hinv
    · exact hinv
  | advance hpc => exact hi.advance_step hpc
  | unlock hpc hrun hafter => exact (hi.unlock_step hpc hrun hafter).1
  | @ret p c hpc hge =>
    have hle := (hi.doing p c c.i (by rw [hpc]; rfl)).2.1
    exact hi.ret_step hpc rfl rfl rfl fun _ => by omega
  | fail hpc => exact hi.ret_step hpc rfl rfl rfl nofun

/-! ### No call fails -/

/-- `writei` has refused a chunk. -/
def Pc.refused : Pc → Bool
  | .wrote _ none | .advanced _ none | .failed _ => true
  | _ => false

/-- The chunk that is written next keeps the file within its maximum size. -/
def stays (x : St ι × List (Event ι)) : Act ι → Bool
  | .write p =>
    match x.1.pc p with
    | .locked c => x.1.x.f.off.toNat + c.n₁ ≤ MAXFILE * BSIZE
    | _ => true
  | _ => true

structure Good (ip : Slot) (a : Nat) (s : St ι) (h : List (Event ι)) : Prop where
  size : ends a h ≤ (s.x.fs.icache ip).size.toNat
  pc : ∀ p, (s.pc p).refused = false
  ret : ∀ p, Event.ret p false ∉ h

omit [Fintype ι] in
theorem Good.set {h' : List (Event ι)} (hg : Good ip a s h) (hsize : ends a h' ≤ (fs.icache ip).size.toNat)
    (hpc : pc.refused = false) (hret : ∀ q, .ret q false ∈ h' → .ret q false ∈ h) : Good ip a (s.set p fs f pc) h' := by
  refine ⟨hsize, fun q => ?_, fun q hmem => hg.ret q (hret q hmem)⟩
  by_cases hq : q = p
  · rw [hq]
    exact (congrArg Pc.refused (update_self ..)).trans hpc
  · exact (congrArg Pc.refused (update_of_ne hq ..)).trans (hg.pc q)

theorem Good.step {h' : List (Event ι)} {act : Act ι} (hg : Good ip a s h) (hi : Inv ip i c₀ a s h)
    (hstays : stays (s, h) act = true) (hd : Does s h act s' h') : Good ip a s' h' := by
  cases hd with
  | call hpc => exact hg.set hg.size rfl fun q hq => by simpa using hq
  | begin hpc => exact hg.set hg.size rfl fun _ => id
  | lock hpc hrun =>
    have hsize := (hi.lock_step hpc hrun).2.size
    exact hg.set (by rw [hsize]; exact hg.size) rfl fun _ => id
  | @write p c r fs hpc hrun =>
    rcases hi.write_step hpc hrun with ⟨rfl, hnot, -⟩ | ⟨rfl, hsize, hinv⟩
    · have hend : s.x.f.off.toNat ≤ ends a h := by have := hi.off; omega
      refine absurd ⟨?_, ?_⟩ hnot
      · exact hend.trans hg.size
      · rw [n₁_lt]
        simpa only [stays, hpc, decide_eq_true_iff] using hstays
    · refine hg.set ?_ rfl fun q hq => by simpa using hq
      have hoff := hi.off
      rw [tally_pending hi (p := p) (by rw [hpc]; rfl), hpc] at hoff
      show ends a h + _ ≤ _
      rw [List.length_map, List.length_range, ← hoff]
      exact hsize
  | @advance p c r hpc =>
    have hr := hg.pc p
    rw [hpc] at hr
    refine hg.set hg.size ?_ fun _ => id
    rcases r with _ | r
    · cases hr
    · rfl
  | @unlock p c r fs pc hpc hrun hafter =>
    have hr := hg.pc p
    rw [hpc] at hr
    have hsize := (hi.unlock_step hpc hrun hafter).2.size
    refine hg.set (by rw [hsize]; exact hg.size) ?_ fun _ => id
    rcases r with _ | r
    · cases hr
    · obtain ⟨-, hsome⟩ := Option.ite_none_right_eq_some.1 hafter
      cases hsome
      rfl
  | ret hpc hge => exact hg.set hg.size rfl fun q hq => by simpa using hq
  | @fail p c hpc =>
    have hr := hg.pc p
    rw [hpc] at hr
    cases hr

end Steps

/-! ### A call that runs alone -/

section Alone

open Exec

variable {x₀ x : OneFile} {src : Nat → UInt8} {n i : Nat}

/-- The first `i` bytes of `src` are written at the offset that the file had in `x₀`. -/
structure Written (x₀ : OneFile) (src : Nat → UInt8) (i : Nat) (x : OneFile) : Prop where
  ip : x.f.ip = x₀.f.ip
  off : x.f.off.toNat = x₀.f.off.toNat + i
  inum : (x.fs.icache x₀.f.ip).inum = (x₀.fs.icache x₀.f.ip).inum
  op : x.fs.Open x₀.f.ip
  ok : x.fs.view.Ok x.fs.sb
  type : (x.fs.icache x₀.f.ip).type = T_FILE
  unlocked : (x.fs.icache x₀.f.ip).locked = false
  byte : ∀ pos, x.fs.view.byte (x₀.fs.icache x₀.f.ip).inum pos =
    overlay (x₀.fs.view.byte (x₀.fs.icache x₀.f.ip).inum) x₀.f.off.toNat i src pos
  size : (x.fs.icache x₀.f.ip).size.toNat = max (x₀.fs.icache x₀.f.ip).size.toNat (x₀.f.off.toNat + i)

end Alone

/-! ### The result -/

end Xv6.SharedWrites
