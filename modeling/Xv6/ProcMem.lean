import Xv6.Vm
import Xv6.Lib.Run

/-!
# Pages held by processes and pipes (`proc.c`, `exec.c`, `pipe.c`)

The system calls that take and return physical pages: `fork`, `exec`, `exit`, `wait`, `sbrk`, `pipe`
and closing the end of a pipe. A call runs to its end before the next one starts; what the file
system answers (whether a file is found, what its program headers say, whether a read or a copy to
the new stack succeeds, whether file table slots are left) and which calls of `kalloc` fail is
chosen by the run. A pipe is known by the page it lives in.
-/

namespace Xv6.ProcMem

open Vm Function

abbrev NPROC : Nat := 64
abbrev MAXARG : Nat := 32

inductive ProcState
  | UNUSED | EMBRYO | SLEEPING | RUNNABLE | RUNNING | ZOMBIE
  deriving DecidableEq

structure Proc where
  state : ProcState
  kstack : Option Nat
  pgdir : Option PageDir
  sz : Nat
  pid : Nat
  parent : Option (Fin NPROC)

structure PipeEnds where
  readopen : Bool
  writeopen : Bool

structure St where
  kmem : Kmem
  procs : Fin NPROC → Proc
  nextpid : Nat
  initproc : Option (Fin NPROC)
  kpgdir : Option PageDir
  cpuStacks : List Nat
  pipes : Nat → Option PipeEnds

abbrev PM := Exec St Panic

def lift {α : Type} (m : KM α) : PM α := fun s => ((m s.kmem).1, { s with kmem := (m s.kmem).2 })

def setProc (p : Fin NPROC) (f : Proc → Proc) : PM Unit :=
  Exec.modify fun s => { s with procs := update s.procs p (f (s.procs p)) }

def setPipe (page : Nat) (e : Option PipeEnds) : PM Unit :=
  Exec.modify fun s => { s with pipes := update s.pipes page e }

variable (L : Layout)

/-! ### Processes -/

/-- The second half of `allocproc`: the kernel stack. -/
def allocStackFor (p : Fin NPROC) : PM (Option (Fin NPROC)) := do
  match ← lift kalloc with
  | none =>
    setProc p fun q => { q with kstack := none, state := .UNUSED }
    return none
  | some page =>
    setProc p fun q => { q with kstack := some page }
    return some p

def allocproc : PM (Option (Fin NPROC)) := do
  let s ← Exec.get
  match (List.finRange NPROC).find? fun i => (s.procs i).state = .UNUSED with
  | none => return none
  | some p =>
    Exec.modify fun s => { s with
      nextpid := s.nextpid + 1
      procs := update s.procs p { s.procs p with state := .EMBRYO, pid := s.nextpid } }
    allocStackFor p

def kfreeOpt : Option Nat → PM Unit
  | some page => lift (kfree L page)
  | none => Exec.stop .kfree

def freevmOpt : Option PageDir → PM Unit
  | some pd => lift (freevm L pd)
  | none => Exec.stop .freevm

/-- `fork` after `allocproc`: `pd` and `sz` are the parent's. -/
def forkInto (p np : Fin NPROC) (pd : PageDir) (sz : Nat) : PM Int := do
  match ← lift (copyuvm L pd sz) with
  | none =>
    setProc np fun q => { q with pgdir := none }
    let s ← Exec.get
    kfreeOpt L (s.procs np).kstack
    setProc np fun q => { q with kstack := none, state := .UNUSED }
    return -1
  | some d =>
    setProc np fun q => { q with pgdir := some d, sz := sz, parent := some p }
    let s ← Exec.get
    setProc np fun q => { q with state := .RUNNABLE }
    return (s.procs np).pid

def fork (p : Fin NPROC) : PM Int := do
  match ← allocproc with
  | none => return -1
  | some np =>
    let s ← Exec.get
    match (s.procs p).pgdir with
    | none => Exec.stop .copyuvm
    | some pd => forkInto L p np pd (s.procs p).sz

def exit (p : Fin NPROC) : PM Int := do
  let s ← Exec.get
  if s.initproc = some p then Exec.stop .initExiting
  else
    Exec.modify fun s => { s with procs := fun q =>
      if (s.procs q).parent = some p then { s.procs q with parent := s.initproc } else s.procs q }
    setProc p fun q => { q with state := .ZOMBIE }
    return 0

def reap (c : Fin NPROC) : PM Int := do
  let s ← Exec.get
  kfreeOpt L (s.procs c).kstack
  setProc c fun q => { q with kstack := none }
  freevmOpt L (s.procs c).pgdir
  setProc c fun q => { q with pid := 0, parent := none, state := .UNUSED }
  return (s.procs c).pid

def wait (p : Fin NPROC) (killed : Bool) : PM Int := do
  let s ← Exec.get
  match (List.finRange NPROC).find? fun c => (s.procs c).parent = some p ∧ (s.procs c).state = .ZOMBIE with
  | some c => reap L c
  | none =>
    let havekids := (List.finRange NPROC).any fun c => (s.procs c).parent = some p
    if !havekids || killed then return -1
    else Exec.stop .asleep

def growproc (pd : PageDir) (sz : Nat) (n : Int) : KM (Nat × PageDir) :=
  if n > 0 then allocuvm L pd sz ((sz + n) % 2 ^ 32).toNat
  else if n < 0 then deallocuvm L pd sz ((sz + n) % 2 ^ 32).toNat
  else pure (sz, pd)

def sbrk (p : Fin NPROC) (n : Int) : PM Int := do
  let s ← Exec.get
  match (s.procs p).pgdir with
  | none => Exec.stop .freevm
  | some pd =>
    let (sz, pd) ← lift (growproc L pd (s.procs p).sz n)
    setProc p fun q => { q with pgdir := some pd }
    if n ≠ 0 ∧ sz = 0 then return -1
    else
      setProc p fun q => { q with sz := sz }
      return (s.procs p).sz

/-! ### `exec` -/

structure Phdr where
  readOk : Bool
  load : Bool -- `ph.type == ELF_PROG_LOAD`
  vaddr : Nat
  memsz : Nat
  filesz : Nat
  loadOk : Bool

/-- The file and the arguments of a call of `exec`. -/
structure Image where
  found : Bool
  headerOk : Bool
  phdrs : List Phdr
  argsOk : List Bool -- `copyout` of each argument string
  stackOk : Bool -- `copyout` of `ustack`

/-- One round of the loop over the program headers: the new size and page directory. -/
def loadSegment (ph : Phdr) (sz : Nat) (pd : PageDir) : KM (Option Nat × PageDir) :=
  if !ph.readOk then pure (none, pd)
  else if !ph.load then pure (some sz, pd)
  else if ph.memsz < ph.filesz then pure (none, pd)
  else if (ph.vaddr + ph.memsz) % 2 ^ 32 < ph.vaddr then pure (none, pd)
  else do
    let (sz, pd) ← allocuvm L pd sz ((ph.vaddr + ph.memsz) % 2 ^ 32)
    if sz = 0 then return (none, pd)
    else if ph.vaddr % PGSIZE ≠ 0 then return (none, pd)
    else if !ph.loadOk then return (none, pd)
    else return (some sz, pd)

def loadSegments : List Phdr → Nat → PageDir → KM (Option Nat × PageDir)
  | [], sz, pd => pure (some sz, pd)
  | ph :: phs, sz, pd => do
    let (r, pd) ← loadSegment L ph sz pd
    match r with
    | none => return (none, pd)
    | some sz => loadSegments phs sz pd

/-- The stack pages, after the program is loaded. -/
def allocStack (sz : Nat) (pd : PageDir) : KM (Option Nat × PageDir) := do
  let (sz, pd) ← allocuvm L pd (pgRoundUp sz) (pgRoundUp sz + 2 * PGSIZE)
  if sz = 0 then return (none, pd)
  else
    let pd ← clearpteu pd (sz - 2 * PGSIZE)
    return (some sz, pd)

/-- The arguments fit and are copied. -/
def Image.argsCopied (x : Image) : Bool := x.argsOk.length ≤ MAXARG && x.argsOk.all id && x.stackOk

/-- `exec` up to the point of no return: the new size and page directory, or everything freed. -/
def buildImage (x : Image) : KM (Option (Nat × PageDir)) := do
  if !x.found || !x.headerOk then return none
  else
    match ← setupkvm L with
    | none => return none
    | some pd =>
      let (r, pd) ← loadSegments L x.phdrs 0 pd
      match r with
      | none =>
        freevm L pd
        return none
      | some sz =>
        let (r, pd) ← allocStack L sz pd
        match r with
        | none =>
          freevm L pd
          return none
        | some sz =>
          if x.argsCopied then return some (sz, pd)
          else
            freevm L pd
            return none

def exec (p : Fin NPROC) (x : Image) : PM Int := do
  match ← lift (buildImage L x) with
  | none => return -1
  | some (sz, pd) =>
    let s ← Exec.get
    setProc p fun q => { q with pgdir := some pd, sz := sz }
    freevmOpt L (s.procs p).pgdir
    return 0

/-! ### Pipes -/

def pipeclose (page : Nat) (e : PipeEnds) (writable : Bool) : PM Unit :=
  let e := if writable then { e with writeopen := false } else { e with readopen := false }
  if e.readopen = false ∧ e.writeopen = false then do
    setPipe page none
    lift (kfree L page)
  else setPipe page (some e)

/-- `sys_pipe`: `argOk` if the argument is a valid pointer, `filesOk` if two file structures are left,
`fdsOk` if two descriptors are. -/
def pipe (argOk filesOk fdsOk : Bool) : PM Int := do
  if !argOk || !filesOk then return -1
  else
    match ← lift kalloc with
    | none => return -1
    | some page =>
      setPipe page (some ⟨true, true⟩)
      if fdsOk then return 0
      else
        pipeclose L page ⟨true, true⟩ false
        pipeclose L page ⟨false, true⟩ true
        return -1

def close (page : Nat) (writable : Bool) : PM Int := do
  let s ← Exec.get
  match s.pipes page with
  | none => Exec.stop .kfree
  | some e =>
    pipeclose L page e writable
    return 0

/-! ### Boot -/

def kvmalloc : PM Unit := do
  match ← lift (setupkvm L) with
  | none => Exec.stop .outOfMemory
  | some pd => Exec.modify fun s => { s with kpgdir := some pd }

/-- `startothers`, with `n` CPUs to go. -/
def startothers : Nat → PM Unit
  | 0 => pure ()
  | n + 1 => do
    match ← lift kalloc with
    | none => Exec.stop .outOfMemory
    | some stack =>
      Exec.modify fun s => { s with cpuStacks := stack :: s.cpuStacks }
      startothers n

/-- `inituvm`. Neither answer is looked at by the source, which then runs on without the page. -/
def inituvm (pd : PageDir) : KM PageDir := do
  match ← kalloc with
  | none => Exec.stop .outOfMemory
  | some mem =>
    let (ok, pd) ← mappages pd 0 PGSIZE (mem * PGSIZE) (PTE_W + PTE_U)
    if !ok then Exec.stop .outOfMemory
    else return pd

def userinit : PM Unit := do
  match ← allocproc with
  | none => Exec.stop .outOfMemory
  | some p =>
    Exec.modify fun s => { s with initproc := some p }
    match ← lift (setupkvm L) with
    | none => Exec.stop .outOfMemory
    | some pd =>
      let pd ← lift (inituvm pd)
      setProc p fun q => { q with pgdir := some pd, sz := PGSIZE, state := .RUNNABLE }

/-- The part of `main` that takes pages: `mid` is the end of the memory `kinit1` frees. -/
def main (mid ncpu : Nat) : PM Unit := do
  lift (freerange L L.first (mid - L.first))
  kvmalloc L
  startothers ncpu
  lift (freerange L mid (L.phystop - mid))
  userinit L

/-- Before `main`: the boot code has every page in its hands. -/
def start : St where
  kmem := ⟨[], [], List.range' L.first (L.phystop - L.first), []⟩
  procs := fun _ => ⟨.UNUSED, none, none, 0, 0, none⟩
  nextpid := 1
  initproc := none
  kpgdir := none
  cpuStacks := []
  pipes := fun _ => none

/-! ### Runs -/

inductive Call
  | fork
  | exec (x : Image)
  | exit
  | wait (killed : Bool)
  | sbrk (n : Int)
  | pipe (argOk filesOk fdsOk : Bool)
  | close (page : Nat) (writable : Bool)

def Call.run (p : Fin NPROC) : Call → PM Int
  | fork => ProcMem.fork L p
  | exec x => ProcMem.exec L p x
  | exit => ProcMem.exit p
  | wait killed => ProcMem.wait L p killed
  | sbrk n => ProcMem.sbrk L p n
  | pipe argOk filesOk fdsOk => ProcMem.pipe L argOk filesOk fdsOk
  | close page writable => ProcMem.close L page writable

def Proc.live (q : Proc) : Bool :=
  match q.state with
  | .SLEEPING | .RUNNABLE | .RUNNING => true
  | .UNUSED | .EMBRYO | .ZOMBIE => false

/-- An end is closed once: by the last `fileclose` of the file that stands for it. -/
def Call.allowed (s : St) : Call → Bool
  | close page writable => (s.pipes page).any fun e => if writable then e.writeopen else e.readopen
  | _ => true

def St.withFails (s : St) (fails : List Bool) : St := { s with kmem := { s.kmem with fails := fails } }

/-- Process `p` makes the call `c`, in which the calls of `kalloc` fail as `fails` says. -/
structure Act where
  p : Fin NPROC
  c : Call
  fails : List Bool

def step (s : St) (a : Act) : Option St :=
  if (s.procs a.p).live && a.c.allowed s then
    match a.c.run L a.p (s.withFails a.fails) with
    | (.ok _, s') => some s'
    | (.error _, _) => none
  else none

end Xv6.ProcMem
