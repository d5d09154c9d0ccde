import Xv6.Lib.Exec
import Xv6.Lib.Bytes

/-!
# Physical pages and page tables (`kalloc.c`, `vm.c`)

The physical page allocator and the functions that build, copy and free the page table of a
process. A physical page is named by its page number. A page directory is the tree it is in
memory: its own page, and for each present entry the page of a page table with its entries.
Virtual addresses are numbers below `2 ^ 32`, with the wrap-around of `uint` written out.

`kalloc` returns 0 when the free list is empty. So that a call may also fail where another CPU has
taken the last page, the state carries a list of answers that make it fail; a run chooses it.
The contents of user pages do not matter to any of these functions and are left out.
-/

namespace Xv6.Vm

open Function

abbrev PGSIZE : Nat := 4096
abbrev NPDENTRIES : Nat := 1024
abbrev KERNBASE : Nat := 0x80000000
abbrev PTE_W : Nat := 2
abbrev PTE_U : Nat := 4

def sub32 (x y : Nat) : Nat := (((x : Int) - y) % 2 ^ 32).toNat

def pgRoundUp (sz : Nat) : Nat := (sz + PGSIZE - 1) % 2 ^ 32 / PGSIZE * PGSIZE

def pgRoundDown (a : Nat) : Nat := a / PGSIZE * PGSIZE

structure Pte where
  page : Nat
  flags : Nat

structure PageTable where
  page : Nat
  pte : Fin 1024 → Option Pte

structure PageDir where
  page : Nat
  pde : Fin 1024 → Option PageTable

def PDX (va : Nat) : Fin 1024 := ⟨va / 2 ^ 22 % 1024, Nat.mod_lt _ (by decide)⟩

def PTX (va : Nat) : Fin 1024 := ⟨va / 2 ^ 12 % 1024, Nat.mod_lt _ (by decide)⟩

structure Kmap where
  virt : Nat
  phys_start : Nat
  phys_end : Nat
  perm : Nat

def Kmap.size (k : Kmap) : Nat := sub32 k.phys_end k.phys_start

/-- What the linker and `memlayout.h` fix: the pages from `end` to `PHYSTOP` that the allocator may
hold, and the kernel's mappings, which are all in the upper half. -/
structure Layout where
  first : Nat
  phystop : Nat
  kmap : List Kmap
  first_pos : 0 < first
  upper : ∀ k ∈ kmap, KERNBASE ≤ k.virt ∧ 0 < k.size ∧ k.virt + k.size ≤ 2 ^ 32

theorem Layout.upper_nil : ∀ k ∈ ([] : List Kmap), KERNBASE ≤ k.virt ∧ 0 < k.size ∧ k.virt + k.size ≤ 2 ^ 32 := nofun

def Layout.managed (L : Layout) (f : Nat) : Prop := L.first ≤ f ∧ f < L.phystop

inductive Panic
  | kfree | remap | loaduvm | clearpteu | copyuvm | freevm | initExiting | outOfMemory
  | loops -- a loop that does not end
  | asleep -- a call that waits

/-- `kmem`, with what a run needs to be told (`fails`) and a record that no function reads: the pages
in the hands of the callers, and those that were handed out or given back when they must not be. -/
structure Kmem where
  freelist : List Nat
  fails : List Bool
  out : List Nat
  bad : List Nat

abbrev KM := Exec Kmem Panic

/-! ### `kalloc.c` -/

def kalloc : KM (Option Nat) := fun s =>
  if s.fails.headD false then (.ok none, { s with fails := s.fails.tail })
  else
    match s.freelist with
    | [] => (.ok none, { s with fails := s.fails.tail })
    | r :: next => (.ok (some r), ⟨next, s.fails.tail, r :: s.out, if r ∈ s.out then r :: s.bad else s.bad⟩)

variable (L : Layout)

def kfree (v : Nat) : KM Unit :=
  if v < L.first ∨ v ≥ L.phystop then Exec.stop .kfree
  else Exec.modify fun s => { s with
    freelist := v :: s.freelist
    out := s.out.erase v
    bad := if v ∈ s.out then s.bad else v :: s.bad }

def freerange (p : Nat) : Nat → KM Unit
  | 0 => pure ()
  | n + 1 => do
    kfree L p
    freerange (p + 1) n

/-! ### `vm.c` -/

/-- More rounds than any loop over the pages of an address space makes. -/
@[irreducible] def maxRounds : Nat := 2 ^ 20 + 1

namespace PageDir

def get (pd : PageDir) (va : Nat) : Option Pte := (pd.pde (PDX va)).bind fun t => t.pte (PTX va)

/-- Stores the entry; there has to be a page table. -/
def set (pd : PageDir) (va : Nat) (e : Option Pte) : PageDir :=
  let table := (pd.pde (PDX va)).map fun t => { t with pte := update t.pte (PTX va) e }
  { pd with pde := update pd.pde (PDX va) table }

end PageDir

/-- Whether there is a page table for `va`, after making one if `alloc`. -/
def walkpgdir (pd : PageDir) (va : Nat) (alloc : Bool) : KM (Bool × PageDir) :=
  match pd.pde (PDX va) with
  | some _ => pure (true, pd)
  | none =>
    if alloc then do
      match ← kalloc with
      | none => return (false, pd)
      | some pgtab => return (true, { pd with pde := update pd.pde (PDX va) (some ⟨pgtab, fun _ => none⟩) })
    else pure (false, pd)

def mapPage (perm : Nat) (pd : PageDir) (a pa : Nat) : KM (Bool × PageDir) := do
  let (ok, pd) ← walkpgdir pd a true
  if !ok then return (false, pd)
  else if (pd.get a).isSome then Exec.stop .remap
  else return (true, pd.set a (some ⟨pa / PGSIZE, perm⟩))

def mapRounds (perm : Nat) : Nat → PageDir → Nat → Nat → KM (Bool × PageDir)
  | 0, pd, _, _ => pure (true, pd)
  | n + 1, pd, a, pa => do
    let (ok, pd) ← mapPage perm pd a pa
    if !ok then return (false, pd)
    else mapRounds perm n pd ((a + PGSIZE) % 2 ^ 32) ((pa + PGSIZE) % 2 ^ 32)

/-- The rounds of a loop over the pages from `a` to `last`. -/
def pagesUpTo (a last : Nat) : Nat := sub32 last a / PGSIZE + 1

def mappages (pd : PageDir) (va size pa perm : Nat) : KM (Bool × PageDir) :=
  let a := pgRoundDown va
  let last := pgRoundDown (sub32 (va + size) 1)
  mapRounds perm (pagesUpTo a last) pd a pa

def deallocRounds (oldsz : Nat) : Nat → PageDir → Nat → KM PageDir
  | 0, _, _ => Exec.stop .loops
  | n + 1, pd, a =>
    if a < oldsz then do
      let (ok, pd) ← walkpgdir pd a false
      if !ok then deallocRounds oldsz n pd (((PDX a).val + 1) * 2 ^ 22 % 2 ^ 32)
      else
        match pd.get a with
        | none => deallocRounds oldsz n pd ((a + PGSIZE) % 2 ^ 32)
        | some pte =>
          if pte.page = 0 then Exec.stop .kfree
          else do
            kfree L pte.page
            deallocRounds oldsz n (pd.set a none) ((a + PGSIZE) % 2 ^ 32)
    else pure pd

def deallocuvm (pd : PageDir) (oldsz newsz : Nat) : KM (Nat × PageDir) :=
  if newsz ≥ oldsz then pure (oldsz, pd)
  else do
    let pd ← deallocRounds L oldsz maxRounds pd (pgRoundUp newsz)
    return (newsz, pd)

/-- One round of the loop of `allocuvm`; on failure what the call has mapped so far is given back. -/
def allocPage (oldsz newsz : Nat) (pd : PageDir) (a : Nat) : KM (Bool × PageDir) := do
  match ← kalloc with
  | none =>
    let (_, pd) ← deallocuvm L pd newsz oldsz
    return (false, pd)
  | some mem =>
    let (ok, pd) ← mappages pd a PGSIZE (mem * PGSIZE) (PTE_W + PTE_U)
    if !ok then
      let (_, pd) ← deallocuvm L pd newsz oldsz
      kfree L mem
      return (false, pd)
    else return (true, pd)

def allocRounds (oldsz newsz : Nat) : Nat → PageDir → Nat → KM (Nat × PageDir)
  | 0, _, _ => Exec.stop .loops
  | n + 1, pd, a =>
    if a < newsz then do
      let (ok, pd) ← allocPage L oldsz newsz pd a
      if !ok then return (0, pd)
      else allocRounds oldsz newsz n pd ((a + PGSIZE) % 2 ^ 32)
    else pure (newsz, pd)

def allocuvm (pd : PageDir) (oldsz newsz : Nat) : KM (Nat × PageDir) :=
  if newsz ≥ KERNBASE then pure (0, pd)
  else if newsz < oldsz then pure (oldsz, pd)
  else allocRounds L oldsz newsz maxRounds pd (pgRoundUp oldsz)

def freeTable : Option PageTable → KM Unit
  | some t => kfree L t.page
  | none => pure ()

def freeTables (pd : PageDir) : List (Fin 1024) → KM Unit
  | [] => pure ()
  | i :: is => do
    freeTable L (pd.pde i)
    freeTables pd is

def freevm (pd : PageDir) : KM Unit := do
  let (_, pd) ← deallocuvm L pd KERNBASE 0
  freeTables L pd (List.finRange 1024)
  kfree L pd.page

/-- One round of the loop of `setupkvm`; on failure the page directory is freed. -/
def kmapRow (k : Kmap) (pd : PageDir) : KM (Option PageDir) := do
  let (ok, pd) ← mappages pd k.virt k.size k.phys_start k.perm
  if !ok then
    freevm L pd
    return none
  else return some pd

def kmapRounds : List Kmap → PageDir → KM (Option PageDir)
  | [], pd => pure (some pd)
  | k :: ks, pd => do
    match ← kmapRow L k pd with
    | none => return none
    | some pd => kmapRounds ks pd

def setupkvm : KM (Option PageDir) := do
  match ← kalloc with
  | none => return none
  | some page => kmapRounds L L.kmap ⟨page, fun _ => none⟩

def clearpteu (pd : PageDir) (uva : Nat) : KM PageDir := do
  let (ok, pd) ← walkpgdir pd uva false
  if !ok then Exec.stop .clearpteu
  else return pd.set uva ((pd.get uva).map fun e => { e with flags := e.flags &&& (2 ^ 12 - 1 - PTE_U) })

/-- One round of the loop of `copyuvm`: a copy of the page at `i`; on failure `d` is freed. -/
def copyPage (pgdir d : PageDir) (i : Nat) : KM (Option PageDir) :=
  match pgdir.get i with
  | none => Exec.stop .copyuvm
  | some pte => do
    match ← kalloc with
    | none =>
      freevm L d
      return none
    | some mem =>
      let (ok, d) ← mappages d i PGSIZE (mem * PGSIZE) pte.flags
      if !ok then
        kfree L mem
        freevm L d
        return none
      else return some d

def copyRounds (pgdir : PageDir) (sz : Nat) : Nat → PageDir → Nat → KM (Option PageDir)
  | 0, _, _ => Exec.stop .loops
  | n + 1, d, i =>
    if i < sz then do
      match ← copyPage L pgdir d i with
      | none => return none
      | some d => copyRounds pgdir sz n d ((i + PGSIZE) % 2 ^ 32)
    else pure (some d)

def copyuvm (pgdir : PageDir) (sz : Nat) : KM (Option PageDir) := do
  match ← setupkvm L with
  | none => return none
  | some d => copyRounds L pgdir sz maxRounds d 0

end Xv6.Vm
