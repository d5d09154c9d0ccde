import Xv6.Lib.Exec
import Xv6.Lib.Bytes

/-!
# Memory as kernel code sees it

A system call runs on the page table of the calling process: addresses below `KERNBASE` are the
process's own memory, those above are the kernel's, shared by all. Every access checks the page
permissions (the processor runs with `CR0_WP`); an access that fails is a trap in the kernel, which
panics. The trace records every access that is attempted and what it is for.

`int` is a 32-bit two's complement number, kept as an `Int`; `i32` is the wrap-around of an
operation on it.
-/

namespace Xv6

abbrev KERNBASE : UInt32 := 0x80000000

/-- An `int` result, reduced to 32 bits. -/
def i32 (x : Int) : Int := Int.bmod x (2 ^ 32)

/-- The bit pattern of an `int`: the cast to an unsigned number or to a pointer. -/
def uint (x : Int) : UInt32 := UInt32.ofNat (x % 2 ^ 32).toNat

namespace Kmem

inductive Kind
  | arg -- a system call argument in user memory
  | hdc -- a field of the `struct HDC` a handle points to
  | pool -- `hdcArray`, by index
  | pixel -- `cons_videobuffer`
  | screen -- the copy of `cons_videobuffer` to video memory
  | palette -- `indexWritten`
  | firstTime
  deriving DecidableEq

structure Access where
  kind : Kind
  write : Bool
  addr : UInt32
  len : Nat
  deriving DecidableEq

def Access.covers (e : Access) (a : UInt32) : Prop := (a - e.addr).toNat < e.len

/-- The calling process: who it is, the `struct proc` fields system calls use, and the permissions
its page table gives to kernel code. -/
structure Proc (ι : Type) where
  who : ι
  pid : Int
  sz : UInt32
  esp : UInt32
  readable : UInt32 → Bool
  writable : UInt32 → Bool

structure St (ι : Type) where
  kernel : UInt32 → UInt8
  user : ι → UInt32 → UInt8
  ports : List (Nat × UInt8) -- what `outb` sent
  trace : List Access

inductive Stop
  | fault -- a page fault in the kernel
  | overflow -- a loop counter passes the largest `int`

abbrev K (ι : Type) := Exec (St ι) Stop

variable {ι : Type}

namespace St

def byte (s : St ι) (p : ι) (a : UInt32) : UInt8 := if a < KERNBASE then s.user p a else s.kernel a

@[irreducible] def int (s : St ι) (p : ι) (a : UInt32) : Int :=
  Int.bmod (Bytes.leNat (fun i => s.byte p (a + UInt32.ofNat i)) 0 4) (2 ^ 32)

theorem byte_congr {s s' : St ι} {q : ι} (hk : s'.kernel = s.kernel) (hu : s'.user = s.user) :
    s'.byte q = s.byte q := by
  funext a
  unfold byte
  rw [hk, hu]

theorem int_congr {s s' : St ι} {q : ι} (hk : s'.kernel = s.kernel) (hu : s'.user = s.user) :
    s'.int q = s.int q := by
  funext a
  unfold int
  rw [byte_congr hk hu]

def log (s : St ι) (e : Access) : St ι := { s with trace := s.trace ++ [e] }

variable [DecidableEq ι]

def put (s : St ι) (p : ι) (a : UInt32) (len : Nat) (src : Nat → UInt8) : St ι :=
  { s with
    kernel := fun x => if ¬ x < KERNBASE ∧ (x - a).toNat < len then src (x - a).toNat else s.kernel x
    user := fun q x => if (q = p ∧ x < KERNBASE) ∧ (x - a).toNat < len then src (x - a).toNat else s.user q x }

end St

variable (p : Proc ι)

def load (k : Kind) (a : UInt32) : K ι Int := fun s =>
  if ∀ i, i < 4 → p.readable (a + UInt32.ofNat i) then (.ok (s.int p.who a), s.log ⟨k, false, a, 4⟩)
  else (.error .fault, s.log ⟨k, false, a, 4⟩)

def loadChar (k : Kind) (a : UInt32) : K ι Int := fun s =>
  if p.readable a then (.ok (Int.bmod (s.byte p.who a).toNat (2 ^ 8)), s.log ⟨k, false, a, 1⟩)
  else (.error .fault, s.log ⟨k, false, a, 1⟩)

def outb (port : Nat) (v : Int) : K ι Unit := Exec.modify fun s => { s with ports := s.ports ++ [(port, Bytes.leByte (uint v).toNat 0)] }

/-! ### System call arguments (`syscall.c`) -/

def fetchint (addr : UInt32) : K ι (Option Int) :=
  if addr ≥ p.sz ∨ addr + 4 > p.sz then pure none
  else do
    let v ← load p .arg addr
    return some v

/-- The address of the `n`-th argument on the user stack. -/
def Proc.argAddr (n : Nat) : UInt32 := p.esp + 4 + 4 * UInt32.ofNat n

def argint (n : Nat) : K ι (Option Int) := fetchint p (p.argAddr n)

/-- `argint` accepts the address of its argument. -/
def Proc.ArgOk (n : Nat) : Prop := ¬ (p.argAddr n ≥ p.sz ∨ p.argAddr n + 4 > p.sz)

/-- `argptr` accepts the pointer `i`. -/
def Proc.PtrOk (i : Int) (size : UInt32) : Prop := ¬ (uint i ≥ p.sz ∨ uint i + size > p.sz)

/-- `argptr` with a constant size. -/
def argptr (n : Nat) (size : UInt32) : K ι (Option UInt32) := do
  match ← argint p n with
  | none => return none
  | some i => if uint i ≥ p.sz ∨ uint i + size > p.sz then return none else return some (uint i)

/-! ### Kernel memory -/

def Block (a : UInt32) (n : Nat) : Prop := KERNBASE.toNat ≤ a.toNat ∧ a.toNat + n ≤ 2 ^ 32

def Apart (a : UInt32) (n : Nat) (b : UInt32) (m : Nat) : Prop :=
  a.toNat + n ≤ b.toNat ∨ b.toNat + m ≤ a.toNat

section Kernel

variable {a b : UInt32} {n m i : Nat} {v : Int}

theorem Block.toNat_add (h : Block a n) (hi : i < n) : (a + UInt32.ofNat i).toNat = a.toNat + i := by
  have := h.2
  rw [UInt32.toNat_add, UInt32.toNat_ofNat']
  omega

theorem Block.not_lt (h : Block a n) (hi : i < n) : ¬ a + UInt32.ofNat i < KERNBASE := by
  have := h.1
  rw [UInt32.lt_iff_toNat_lt, h.toNat_add hi]
  omega

theorem Block.sub_add (h : Block a n) (hi : i < n) : (a + UInt32.ofNat i - a).toNat = i := by
  have := h.2
  rw [UInt32.toNat_sub, h.toNat_add hi]
  omega

theorem Apart.sub_not_lt (h : Apart a n b m) (ha : Block a n) (hb : Block b m) (hi : i < m) :
    ¬ (b + UInt32.ofNat i - a).toNat < n := by
  have := ha.2
  have := hb.2
  rw [UInt32.toNat_sub, hb.toNat_add hi]
  rcases h with h | h <;> omega

theorem Apart.symm (h : Apart a n b m) : Apart b m a n := Or.symm h

theorem Block.sub (h : Block a n) (hm : i + m ≤ n) (hpos : 0 < m) : Block (a + UInt32.ofNat i) m := by
  have := h.1
  have := h.2
  have hi := h.toNat_add (by omega : i < n)
  exact ⟨by omega, by omega⟩

theorem Apart.sub {k : Nat} (h : Apart a n b m) (hb : Block b m) (hk : i + k ≤ m) (hpos : 0 < k) :
    Apart a n (b + UInt32.ofNat i) k := by
  have hi := hb.toNat_add (by omega : i < m)
  unfold Apart at h ⊢
  omega

theorem i32_i32 (v : Int) : i32 (i32 v) = i32 v := Int.bmod_bmod

theorem i32_eq_self : i32 v = v ↔ -2 ^ 31 ≤ v ∧ v < 2 ^ 31 := by
  unfold i32
  rw [Int.bmod_def]
  split <;> omega

theorem i32_between {lo hi : Int} (hlo : i32 lo = lo) (hhi : i32 hi = hi) (h₁ : lo ≤ v) (h₂ : v ≤ hi) : i32 v = v := by
  rw [i32_eq_self] at hlo hhi ⊢
  omega

theorem toNat_uint (v : Int) : ((uint v).toNat : Int) = v % 2 ^ 32 := by
  unfold uint
  rw [UInt32.toNat_ofNat']
  omega

theorem bmod_uint (v : Int) : Int.bmod (uint v).toNat (2 ^ 32) = i32 v := by
  rw [toNat_uint]
  exact Int.emod_bmod v (2 ^ 32)

theorem uint_i32_toNat (a : UInt32) : uint (i32 a.toNat) = a := by
  have h : i32 a.toNat % 2 ^ 32 = a.toNat := by
    unfold i32
    rw [show (2 ^ 32 : Int) = ((2 ^ 32 : Nat) : Int) from rfl, Int.bmod_emod]
    exact Int.emod_eq_of_lt (by omega) (by have := a.toNat_lt; omega)
  unfold uint
  rw [h, Int.toNat_natCast, UInt32.ofNat_toNat]

namespace St

@[irreducible] def kint (s : St ι) (a : UInt32) : Int :=
  Int.bmod (Bytes.leNat (fun i => s.kernel (a + UInt32.ofNat i)) 0 4) (2 ^ 32)

variable {s : St ι} {q : ι}

theorem int_eq_kint (h : Block a 4) : s.int q a = s.kint a := by
  have hbyte : ∀ i, 0 ≤ i → i < 0 + 4 → s.byte q (a + UInt32.ofNat i) = s.kernel (a + UInt32.ofNat i) :=
    fun i _ hi => if_neg (h.not_lt (by omega))
  unfold int kint
  rw [Bytes.leNat_congr hbyte]

theorem i32_int (s : St ι) (q : ι) (a : UInt32) : i32 (s.int q a) = s.int q a := by
  unfold int
  exact i32_i32 _

theorem i32_kint (s : St ι) (a : UInt32) : i32 (s.kint a) = s.kint a := by
  unfold kint
  exact i32_i32 _

end St

end Kernel

/-! ### Writes -/

variable [DecidableEq ι]

def storeBytes (k : Kind) (a : UInt32) (len : Nat) (v : Int) : K ι Unit := fun s =>
  if ∀ i, i < len → p.writable (a + UInt32.ofNat i) then
    (.ok (), (s.put p.who a len (Bytes.leByte (uint v).toNat)).log ⟨k, true, a, len⟩)
  else (.error .fault, s.log ⟨k, true, a, len⟩)

def store (k : Kind) (a : UInt32) (v : Int) : K ι Unit := storeBytes p k a 4 v

def storeChar (k : Kind) (a : UInt32) (v : Int) : K ι Unit := storeBytes p k a 1 v

def memmove (k : Kind) (dst src : UInt32) (n : Nat) : K ι Unit := fun s =>
  (.ok (), ((s.log ⟨k, false, src, n⟩).put p.who dst n fun i => s.byte p.who (src + UInt32.ofNat i)).log
    ⟨k, true, dst, n⟩)

/-! ### Reading back -/

section Kernel

variable {a b : UInt32} {n m i : Nat} {v : Int}

namespace St

variable {s : St ι} {q : ι}

theorem kernel_put (h : Block a n) (hi : i < n) {src : Nat → UInt8} :
    (s.put q a n src).kernel (a + UInt32.ofNat i) = src i := by
  have hsub := h.sub_add hi
  unfold put
  dsimp only
  rw [if_pos ⟨h.not_lt hi, by rwa [hsub]⟩, hsub]

theorem kernel_put_apart (h : Apart a n b m) (ha : Block a n) (hb : Block b m) (hi : i < m) {src : Nat → UInt8} :
    (s.put q a n src).kernel (b + UInt32.ofNat i) = s.kernel (b + UInt32.ofNat i) :=
  if_neg fun h' => h.sub_not_lt ha hb hi h'.2

theorem kint_put (h : Block a 4) : (s.put q a 4 (Bytes.leByte (uint v).toNat)).kint a = i32 v := by
  have hle : Bytes.leNat (fun i => (s.put q a 4 (Bytes.leByte (uint v).toNat)).kernel (a + UInt32.ofNat i)) 0 4 =
      (uint v).toNat := by
    rw [Bytes.leNat_congr fun i _ hi => kernel_put h (by omega : i < 4)]
    exact (Bytes.leNat_leByte _ 0 4).trans (Nat.mod_eq_of_lt (uint v).toNat_lt)
  unfold kint
  rw [hle, bmod_uint]

theorem kint_put_apart (h : Apart a n b 4) (ha : Block a n) (hb : Block b 4) {src : Nat → UInt8} :
    (s.put q a n src).kint b = s.kint b := by
  unfold kint
  rw [Bytes.leNat_congr fun i _ hi => kernel_put_apart h ha hb (by omega)]

end St

end Kernel

end Kmem

end Xv6
