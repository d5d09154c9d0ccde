import Xv6.FsFile

/-!
# Open files (`file.c`)

`struct file`, and reading and writing through it. `begin_op` waits while the log is full or being
committed; run alone it does not wait, and in a run of several processes it is a step that is not
enabled. `end_op` of the last operation in progress commits, after which the log is empty.
-/

namespace Xv6

open Exec

inductive FdType
  | FD_NONE | FD_PIPE | FD_INODE
  deriving DecidableEq

structure File where
  type : FdType
  ref : Int
  readable : Bool
  writable : Bool
  pipe : Nat -- the page of `struct pipe`
  ip : Slot
  off : UInt32

/-- The file system and one open file. -/
structure OneFile where
  fs : Fs
  f : File

abbrev FileM : Type → Type := Exec OneFile Stop

def onFs {α : Type} (m : FsM α) : FileM α := fun x => ((m x.fs).1, { x with fs := (m x.fs).2 })

def beginOp : FsM Unit := Exec.modify fun s => { s with outstanding := s.outstanding + 1 }

def endOp : FsM Unit := Exec.modify fun s => { s with
  outstanding := s.outstanding - 1
  lh := if s.outstanding = 1 then [] else s.lh }

def File.advance (f : File) (r : Option Nat) : File := { f with off := f.off + UInt32.ofNat (r.getD 0) }

/-- `fileread(f, addr, n)`: the bytes it stores at `addr`; `piperead` is what it does for a pipe. -/
def fileread (piperead : FileM (Option (List UInt8))) (n : UInt32) : FileM (Option (List UInt8)) := do
  let x ← Exec.get
  if !x.f.readable then return none
  else match x.f.type with
    | .FD_PIPE => piperead
    | .FD_INODE =>
      onFs (ilock x.f.ip)
      let r ← onFs (readi x.f.ip x.f.off n)
      Exec.modify fun y => { y with f := y.f.advance (r.map List.length) }
      onFs (iunlock x.f.ip)
      return r
    | .FD_NONE => onFs (panic "fileread")

def maxChunk : Nat := (MAXOPBLOCKS - 1 - 1 - 2) / 2 * 512

/-- `writei` at the offset of the file, which is moved on. -/
def writeChunk (src : Nat → UInt8) (n₁ : Nat) : FileM (Option Nat) := do
  let x ← Exec.get
  let r ← onFs (writei x.f.ip src x.f.off (UInt32.ofNat n₁))
  Exec.modify fun y => { y with f := y.f.advance r }
  return r

/-- The transaction that one round of `filewrite` makes. -/
def filewriteRound (src : Nat → UInt8) (n₁ : Nat) : FileM (Option Nat) := do
  let x ← Exec.get
  onFs beginOp
  onFs (ilock x.f.ip)
  let r ← writeChunk src n₁
  onFs (iunlock x.f.ip)
  onFs endOp
  return r

/-- The loop of `filewrite` in at most `fuel` rounds, when `i` bytes are written. -/
def filewriteLoop (src : Nat → UInt8) (n : Nat) : Nat → Nat → FileM Int
  | 0, _ => return -1
  | fuel + 1, i =>
    if i < n then do
      let n₁ := min (n - i) maxChunk
      match ← filewriteRound (fun j => src (i + j)) n₁ with
      | none => return -1
      | some r => if r ≠ n₁ then onFs (panic "short filewrite") else filewriteLoop src n fuel (i + r)
    else return n

/-- `filewrite(f, addr, n)`; `pipewrite` is what it does for a pipe. -/
def filewrite (pipewrite : FileM Int) (src : Nat → UInt8) (n : Nat) : FileM Int := do
  let x ← Exec.get
  if !x.f.writable then return -1
  else match x.f.type with
    | .FD_PIPE => pipewrite
    | .FD_INODE => filewriteLoop src n (n + 1) 0
    | .FD_NONE => onFs (panic "filewrite")

/-! ### Locks and transactions -/

namespace Fs

variable {s : Fs} {ip k : Slot} {b : Bool}

def setLock (s : Fs) (ip : Slot) (b : Bool) : Fs := s.setSlot ip { s.icache ip with locked := b }

theorem setLock_self : (s.setLock ip b).icache ip = { s.icache ip with locked := b } := setSlot_icache_self _

theorem setLock_ne (h : k ≠ ip) : (s.setLock ip b).icache k = s.icache k := setSlot_icache_ne h

theorem setLock_icache (s : Fs) (ip k : Slot) (b : Bool) :
    ∃ b', (s.setLock ip b).icache k = { s.icache k with locked := b' } := by
  by_cases hk : k = ip
  · subst hk
    exact ⟨b, setLock_self⟩
  · exact ⟨(s.icache k).locked, setLock_ne hk⟩

theorem view_setLock : (s.setLock ip b).view = s.view := view_setSlot_frame rfl rfl rfl Iff.rfl

theorem CacheOk.setLock (h : s.CacheOk) : (s.setLock ip b).CacheOk := by
  refine h.congr rfl ?_ ?_ ?_ ?_ <;> intro k <;> obtain ⟨b', hk⟩ := setLock_icache s ip k b <;> rw [hk]
  exact id

theorem Open.setLock (h : s.Open k) : (s.setLock ip b).Open k := by
  obtain ⟨b', hk⟩ := setLock_icache s ip k b
  exact ⟨h.sb, h.cache.setLock, by rw [view_setLock]; exact h.store, by rw [hk]; exact h.ref, by rw [hk]; exact h.valid,
    by rw [hk]; exact h.type⟩

def setLog (s : Fs) (n : Nat) (lh : List Nat) : Fs := { s with outstanding := n, lh := lh }

theorem Open.setLog {n : Nat} {lh : List Nat} (h : s.Open ip) : (s.setLog n lh).Open ip :=
  ⟨h.sb, ⟨h.cache.nonneg, h.cache.dev, h.cache.uniq, h.cache.inum⟩, h.store, h.ref, h.valid, h.type⟩

theorem endOp_run (s : Fs) :
    endOp s = (.ok (), s.setLog (s.outstanding - 1) (if s.outstanding = 1 then [] else s.lh)) := rfl

theorem ilock_run (h : s.Open ip) (hl : (s.icache ip).locked = false) : ilock ip s = (.ok (), s.setLock ip true) := by
  have href : ¬ (s.icache ip).ref < 1 := by have := h.ref; omega
  show (if (s.icache ip).ref < 1 then _ else _ : FsM Unit) s = _
  rw [if_neg href]
  have hacq : acquiresleep ip s = (.ok (), s.setLock ip true) := by
    show (if (s.icache ip).locked = true then _ else _ : FsM Unit) s = _
    rw [hl]
    rfl
  rw [bind_of_ok hacq, if_pos h.valid]
  rfl

theorem iunlock_run (hr : 0 < (s.icache ip).ref) (hl : (s.icache ip).locked = true) :
    iunlock ip s = (.ok (), s.setLock ip false) := by
  show (if (!(s.icache ip).locked) = true ∨ (s.icache ip).ref < 1 then _ else _ : FsM Unit) s = _
  rw [if_neg (by rw [hl]; simp; omega)]
  rfl

end Fs

end Xv6
