import Xv6.Lib.Bytes
import Xv6.Vm

/-!
# Arguments of system calls (`syscall.c`)

A system call takes its arguments from the user stack: the saved `esp` points to a return address, the
arguments stand above it. `fetchint`, `fetchstr`, `argint`, `argptr` and `argstr` compare what the user
gave with the size of the process, in 32-bit arithmetic. Here the words are `UInt32`, the C type `int`
is `Int32`, and `none` is the return value -1.
-/

namespace Xv6.Syscall

/-- What the checks read of the current process: its size, the saved stack pointer, its memory. -/
structure Proc where
  sz : UInt32
  esp : UInt32
  mem : UInt32 → UInt8

namespace Proc

variable (p : Proc)

def load (addr : UInt32) : Int32 :=
  (UInt32.ofNat (Bytes.leNat (fun i => p.mem (addr + UInt32.ofNat i)) 0 4)).toInt32

def fetchint (addr : UInt32) : Option Int32 :=
  if addr ≥ p.sz ∨ addr + 4 > p.sz then none else some (p.load addr)

/-- The loop of `fetchstr`: the first byte from `s` on that is zero. -/
def findNul (ep s : UInt32) : Option UInt32 :=
  if h : s < ep then
    if p.mem s = 0 then some s else findNul ep (s + 1)
  else none
termination_by ep.toNat - s.toNat
decreasing_by
  rw [UInt32.lt_iff_toNat_lt] at h
  have := ep.toNat_lt
  rw [UInt32.toNat_add, UInt32.toNat_one]
  omega

/-- `fetchstr`: the pointer it stores and the length it returns. -/
def fetchstr (addr : UInt32) : Option (UInt32 × Int32) :=
  if addr ≥ p.sz then none
  else (p.findNul p.sz addr).map fun s => (addr, (s - addr).toInt32)

def argAddr (n : Int32) : UInt32 := p.esp + 4 + 4 * n.toUInt32

def argint (n : Int32) : Option Int32 := p.fetchint (p.argAddr n)

def argptr (n size : Int32) : Option UInt32 :=
  match p.argint n with
  | none => none
  | some i =>
    if size < 0 ∨ i.toUInt32 ≥ p.sz ∨ i.toUInt32 + size.toUInt32 > p.sz then none
    else some i.toUInt32

def argstr (n : Int32) : Option (UInt32 × Int32) :=
  match p.argint n with
  | none => none
  | some addr => p.fetchstr addr.toUInt32

/-! ### Blocks inside the process -/

/-- The `n` bytes from `a` on lie in `[0, sz)`, and counting up to them does not wrap around. -/
def Inside (a : UInt32) (n : Nat) : Prop :=
  a.toNat + n ≤ p.sz.toNat ∧ ∀ i, i < n → (a + UInt32.ofNat i).toNat = a.toNat + i

/-- `n` bytes other than zero stand from `a` on, and then a zero. -/
def IsString (a : UInt32) (n : Nat) : Prop :=
  (∀ i, i < n → p.mem (a + UInt32.ofNat i) ≠ 0) ∧ p.mem (a + UInt32.ofNat n) = 0

variable {p} {a addr ep s : UInt32} {n size : Int32}

theorem Inside.of_le (h : a.toNat + k ≤ p.sz.toNat) : p.Inside a k := by
  have hlt := p.sz.toNat_lt
  refine ⟨h, fun i hi => ?_⟩
  have hi' : (UInt32.ofNat i).toNat = i := UInt32.toNat_ofNat_of_lt' (by simp only [UInt32.size]; omega)
  rw [UInt32.toNat_add, hi', Nat.mod_eq_of_lt (by omega)]

theorem fetchint_some {v : Int32} (hsz : p.sz.toNat < Vm.KERNBASE) (h : p.fetchint addr = some v) :
    p.Inside addr 4 ∧ v = p.load addr := by
  unfold fetchint at h
  split at h
  · cases h
  · rename_i hc
    rw [not_or, ge_iff_le, gt_iff_lt, UInt32.not_le, UInt32.not_lt, UInt32.lt_iff_toNat_lt,
      UInt32.le_iff_toNat_le, UInt32.toNat_add] at hc
    refine ⟨.of_le ?_, (Option.some.inj h).symm⟩
    have hfour : (4 : UInt32).toNat = 4 := rfl
    simp only [Vm.KERNBASE] at hsz
    omega

theorem toNat_of_nonneg (h : 0 ≤ size) : size.toUInt32.toNat = size.toInt.toNat := Int32.toNat_toUInt32_of_le h

theorem toInt_of_lt (h : a.toNat < Vm.KERNBASE) : a.toInt32.toInt = a.toNat := by
  show a.toBitVec.toInt = a.toNat
  rw [BitVec.toInt_eq_toNat_of_lt]
  · rfl
  · have : a.toBitVec.toNat = a.toNat := rfl
    simp only [Vm.KERNBASE] at h
    omega

theorem argint_some {v : Int32} (hsz : p.sz.toNat < Vm.KERNBASE) (h : p.argint n = some v) :
    p.Inside (p.argAddr n) 4 ∧ v = p.load (p.argAddr n) := fetchint_some hsz h

theorem argptr_some {ptr : UInt32} (hsz : p.sz.toNat < Vm.KERNBASE) (h : p.argptr n size = some ptr) :
    p.argint n = some ptr.toInt32 ∧ 0 ≤ size.toInt ∧ p.Inside ptr size.toInt.toNat := by
  unfold argptr at h
  split at h
  · cases h
  · rename_i i hi
    split at h
    · cases h
    · rename_i hc
      obtain rfl := Option.some.inj h
      rw [not_or, not_or, ge_iff_le, gt_iff_lt, UInt32.not_le, UInt32.not_lt, Int32.not_lt] at hc
      obtain ⟨hpos, hlt, hle⟩ := hc
      have hsize := toNat_of_nonneg hpos
      have hnonneg : 0 ≤ size.toInt := Int32.le_iff_toInt_le.1 hpos
      have hmax := size.toInt_lt
      rw [UInt32.lt_iff_toNat_lt] at hlt
      rw [UInt32.le_iff_toNat_le, UInt32.toNat_add, hsize] at hle
      rw [Int32.toInt32_toUInt32]
      refine ⟨hi, hnonneg, .of_le ?_⟩
      simp only [Vm.KERNBASE] at hsz
      omega

/-! ### Strings -/

theorem toNat_succ (h : s < ep) : (s + 1).toNat = s.toNat + 1 := by
  have := ep.toNat_lt
  rw [UInt32.lt_iff_toNat_lt] at h
  rw [UInt32.toNat_add, UInt32.toNat_one, Nat.mod_eq_of_lt (by omega)]

theorem le_iff_eq_or_succ_le {u : UInt32} (h : s < ep) : s ≤ u ↔ u = s ∨ s + 1 ≤ u := by
  rw [UInt32.le_iff_toNat_le, UInt32.le_iff_toNat_le, toNat_succ h, ← UInt32.toNat_inj]
  omega

theorem findNul_some {t : UInt32} (h : p.findNul ep s = some t) :
    s ≤ t ∧ t < ep ∧ p.mem t = 0 ∧ ∀ u, s ≤ u → u < t → p.mem u ≠ 0 := by
  fun_induction findNul p ep s with
  | case1 s hlt hnul =>
    obtain rfl := Option.some.inj h
    exact ⟨UInt32.le_refl s, hlt, hnul, fun u h1 h2 => absurd h2 (UInt32.not_lt.2 h1)⟩
  | case2 s hlt hnul ih =>
    obtain ⟨hle, hep, hmem, hbefore⟩ := ih h
    refine ⟨(le_iff_eq_or_succ_le hlt).2 (.inr hle), hep, hmem, fun u h1 h2 => ?_⟩
    rcases (le_iff_eq_or_succ_le hlt).1 h1 with rfl | h1
    · exact hnul
    · exact hbefore u h1 h2
  | case3 => cases h

theorem findNul_none : p.findNul ep s = none ↔ ∀ u, s ≤ u → u < ep → p.mem u ≠ 0 := by
  fun_induction findNul p ep s with
  | case1 s hlt hnul =>
    refine iff_of_false (by simp) fun h => h s (UInt32.le_refl s) hlt hnul
  | case2 s hlt hnul ih =>
    rw [ih]
    refine ⟨fun h u h1 h2 => ?_, fun h u h1 => h u ((le_iff_eq_or_succ_le hlt).2 (.inr h1))⟩
    rcases (le_iff_eq_or_succ_le hlt).1 h1 with rfl | h1
    · exact hnul
    · exact h u h1 h2
  | case3 s hge => exact iff_of_true rfl fun u h1 h2 => absurd (UInt32.lt_of_le_of_lt h1 h2) hge

theorem fetchstr_some {ptr : UInt32} {len : Int32} (hsz : p.sz.toNat < Vm.KERNBASE)
    (h : p.fetchstr addr = some (ptr, len)) :
    ptr = addr ∧ ∃ n : Nat, len.toInt = n ∧ p.Inside addr (n + 1) ∧ p.IsString addr n := by
  unfold fetchstr at h
  split at h
  · cases h
  · obtain ⟨t, ht, heq⟩ := Option.map_eq_some_iff.1 h
    obtain ⟨rfl, rfl⟩ := Prod.mk.inj heq
    obtain ⟨hle, hlt, hnul, hbefore⟩ := findNul_some ht
    have hsub : (t - addr).toNat = t.toNat - addr.toNat := UInt32.toNat_sub_of_le _ _ hle
    rw [UInt32.le_iff_toNat_le] at hle
    rw [UInt32.lt_iff_toNat_lt] at hlt
    have hin : p.Inside addr ((t - addr).toNat + 1) := .of_le (by omega)
    refine ⟨rfl, (t - addr).toNat, toInt_of_lt (by omega), hin, fun i hi => ?_, ?_⟩
    · have hi' := hin.2 i (by omega)
      refine hbefore _ ?_ ?_
      · rw [UInt32.le_iff_toNat_le]
        omega
      · rw [UInt32.lt_iff_toNat_lt]
        omega
    · have hend := hin.2 (t - addr).toNat (by omega)
      have : addr + UInt32.ofNat (t - addr).toNat = t := UInt32.toNat_inj.1 (by omega)
      rw [this]
      exact hnul

theorem fetchstr_none : p.fetchstr addr = none ↔ addr ≥ p.sz ∨ ∀ u, addr ≤ u → u < p.sz → p.mem u ≠ 0 := by
  unfold fetchstr
  split
  · exact iff_of_true rfl (.inl ‹_›)
  · rename_i hlt
    rw [Option.map_eq_none_iff, findNul_none, or_iff_right hlt]

theorem argstr_some {ptr : UInt32} {len : Int32} (h : p.argstr n = some (ptr, len)) :
    ∃ addr, p.argint n = some addr ∧ p.fetchstr addr.toUInt32 = some (ptr, len) := by
  unfold argstr at h
  split at h
  · cases h
  · exact ⟨_, ‹_›, h⟩

/-! ### Every check -/

structure Confined (p : Proc) : Prop where
  fetchint : ∀ addr v, p.fetchint addr = some v → p.Inside addr 4 ∧ v = p.load addr
  argint : ∀ n v, p.argint n = some v → p.Inside (p.argAddr n) 4 ∧ v = p.load (p.argAddr n)
  argptr : ∀ n size ptr, p.argptr n size = some ptr →
    p.Inside (p.argAddr n) 4 ∧ ptr.toInt32 = p.load (p.argAddr n) ∧ 0 ≤ size.toInt ∧ p.Inside ptr size.toInt.toNat
  fetchstr : ∀ addr ptr len, p.fetchstr addr = some (ptr, len) →
    ptr = addr ∧ ∃ n : Nat, len.toInt = n ∧ p.Inside addr (n + 1) ∧ p.IsString addr n
  fetchstr_fails : ∀ addr, p.fetchstr addr = none ↔
    addr ≥ p.sz ∨ ∀ u, addr ≤ u → u < p.sz → p.mem u ≠ 0
  argstr : ∀ n ptr len, p.argstr n = some (ptr, len) →
    p.Inside (p.argAddr n) 4 ∧ ptr.toInt32 = p.load (p.argAddr n) ∧
      ∃ k : Nat, len.toInt = k ∧ p.Inside ptr (k + 1) ∧ p.IsString ptr k

theorem arguments_confined (p : Proc) (hsz : p.sz.toNat < Vm.KERNBASE) : p.Confined where
  fetchint _ _ h := fetchint_some hsz h
  argint _ _ h := argint_some hsz h
  argptr n size ptr h := by
    obtain ⟨hint, hnonneg, hin⟩ := argptr_some hsz h
    obtain ⟨hword, hval⟩ := argint_some hsz hint
    exact ⟨hword, hval, hnonneg, hin⟩
  fetchstr _ _ _ h := fetchstr_some hsz h
  fetchstr_fails _ := fetchstr_none
  argstr n ptr len h := by
    obtain ⟨addr, hint, hstr⟩ := argstr_some h
    obtain ⟨hword, hval⟩ := argint_some hsz hint
    obtain ⟨rfl, k, hlen, hin, hs⟩ := fetchstr_some hsz hstr
    exact ⟨hword, by rw [Int32.toInt32_toUInt32]; exact hval, k, hlen, hin, hs⟩

def greeting : Proc :=
  { sz := 64, esp := 0, mem := fun a => if a = 4 then 16 else if a = 16 then 104 else if a = 17 then 105 else 0 }

theorem arguments_confined_greeting :
    greeting.argptr 0 8 = some 16 ∧ greeting.argstr 0 = some (16, 2) ∧ greeting.argptr 0 (-1) = none ∧
      greeting.Confined :=
  ⟨by decide +kernel, by decide +kernel, by decide +kernel, arguments_confined greeting (by decide)⟩

end Proc

end Xv6.Syscall
