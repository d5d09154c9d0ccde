import Xv6.Vm

/-!
# The memory allocator of user programs (`umalloc.c`)

A block begins with a header of 8 bytes, which holds its size in units of 8 bytes and, while it is free,
the address of the next free block. The free blocks form a circular list that also contains `base`, a
header of size 0 in the data segment.

The state is the headers by their address, `freep`, and of the process its size and how far its memory is
mapped; a header beyond that cannot be accessed. Two fields record what no code reads: the memory obtained
from `sbrk`, as addresses and units, and how many calls of `sbrk` have failed. What `sbrk` does is a
parameter. Arithmetic is that of `uint`.
-/

namespace Xv6.Umalloc

open Function
open Vm (sub32)

structure Header where
  ptr : Nat
  size : Nat

structure St where
  hdr : Nat → Header
  freep : Nat
  sz : Nat
  mapped : Nat
  got : List (Nat × Nat)
  refused : Nat

inductive Stop
  | fault -- an access outside the memory of the process
  | loops -- a loop that does not end
  deriving DecidableEq

abbrev M := Exec St Stop

/-- More rounds than any loop here makes. -/
@[irreducible] def maxRounds : Nat := 2 ^ 34

def plus (p n : Nat) : Nat := (p + 8 * n) % 2 ^ 32

def St.setHdr (s : St) (a : Nat) (h : Header) : St := { s with hdr := update s.hdr a h }

def load (a : Nat) : M Header := do
  let s ← Exec.get
  if a + 8 ≤ s.mapped then return s.hdr a else Exec.stop .fault

def setPtr (a v : Nat) : M Unit := do
  let h ← load a
  Exec.modify fun s => s.setHdr a { h with ptr := v }

def setSize (a v : Nat) : M Unit := do
  let h ← load a
  Exec.modify fun s => s.setHdr a { h with size := v }

def setFreep (p : Nat) : M Unit := Exec.modify fun s => { s with freep := p }

/-! ### `free` -/

def search (bp : Nat) : Nat → Nat → M Nat
  | 0, _ => Exec.stop .loops
  | n + 1, p => do
    let h ← load p
    if bp > p ∧ bp < h.ptr then return p
    else if p ≥ h.ptr ∧ (bp > p ∨ bp < h.ptr) then return p
    else search bp n h.ptr

/-- `bp` takes in the block behind it if that is free, and gets its link. -/
def joinNext (bp p : Nat) : M Unit := do
  let hb ← load bp
  let hp ← load p
  if plus bp hb.size = hp.ptr then do
    let hn ← load hp.ptr
    setSize bp ((hb.size + hn.size) % 2 ^ 32)
    setPtr bp hn.ptr
  else setPtr bp hp.ptr

/-- `p` takes in `bp` if that is right behind it, or gets a link to it. -/
def joinPrev (bp p : Nat) : M Unit := do
  let hp ← load p
  let hb ← load bp
  if plus p hp.size = bp then do
    setSize p ((hp.size + hb.size) % 2 ^ 32)
    setPtr p hb.ptr
  else setPtr p bp

def free (ap : Nat) : M Unit := do
  let bp := sub32 ap 8
  let s ← Exec.get
  let p ← search bp maxRounds s.freep
  joinNext bp p
  joinPrev bp p
  setFreep p

/-! ### `malloc` -/

variable (base : Nat) (sbrk : Nat → M (Option Nat))

/-- What `morecore` asks for at least. -/
def atLeast (nu : Nat) : Nat := if nu < 4096 then 4096 else nu

/-- `morecore`; `sbrk` returns `none` for -1. -/
def morecore (nu : Nat) : M Nat := do
  match ← sbrk (atLeast nu * 8 % 2 ^ 32) with
  | none => return 0
  | some hp =>
    setSize hp (atLeast nu)
    free (plus hp 1)
    let s ← Exec.get
    return s.freep

/-- A block `p` of the list that is large enough, behind `prevp`: the whole of it or its tail is handed out. -/
def take (nunits prevp p : Nat) (h : Header) : M Nat :=
  if h.size = nunits then do
    setPtr prevp h.ptr
    setFreep prevp
    return plus p 1
  else do
    setSize p (h.size - nunits)
    let p := plus p (h.size - nunits)
    setSize p nunits
    setFreep prevp
    return plus p 1

def mallocLoop (nunits : Nat) : Nat → Nat → Nat → M Nat
  | 0, _, _ => Exec.stop .loops
  | n + 1, prevp, p => do
    let h ← load p
    if h.size ≥ nunits then take nunits prevp p h
    else do
      let s ← Exec.get
      if p = s.freep then do
        let p ← morecore sbrk nunits
        if p = 0 then return 0
        else do
          let h ← load p
          mallocLoop nunits n p h.ptr
      else mallocLoop nunits n p h.ptr

def units (nbytes : Nat) : Nat := (nbytes + 8 - 1) % 2 ^ 32 / 8 + 1

/-- The list is made when `malloc` is called first. -/
def begin : M Nat := do
  let s ← Exec.get
  if s.freep = 0 then do
    setPtr base base
    setFreep base
    setSize base 0
    return base
  else return s.freep

def malloc (nbytes : Nat) : M Nat := do
  let prevp ← begin base
  let h ← load prevp
  mallocLoop sbrk (units nbytes) maxRounds prevp h.ptr

end Xv6.Umalloc
