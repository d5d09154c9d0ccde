import Xv6.AddressSpaces
import Xv6.CopyOut
import Xv6.Sysfile

/-!
# Running a program (`exec.c`)

`exec` with all it works on: the file system, physical memory with what it holds, and the fields of
`struct proc` that it sets. The argument strings are the bytes before their terminators.

`copyout` is a parameter. It is a function of `vm.c` that `exec` calls with addresses of its own
making, and what is said about `exec` depends on what is known of it.
-/

namespace Xv6.Program

open Exec Vm

/-- The fields of the calling process. -/
structure Proc where
  pgdir : PageDir
  sz : Nat
  eip : Nat
  esp : Nat
  name : Bytes 16

structure Kernel where
  fs : Fs
  phys : Phys
  proc : Proc

inductive Halt
  | fs (e : Stop)
  | vm (e : Vm.Panic)
  | fault (e : Vm.Fault)

abbrev XM : Type → Type := Exec Kernel Halt

variable {α : Type}

def onFs (m : FsM α) : XM α := Exec.zoom (·.fs) (fun s fs => { s with fs := fs }) .fs m

def onPhys (m : RM α) : XM α := Exec.zoom (·.phys) (fun s phys => { s with phys := phys }) .vm m

def onMem (m : Exec Ram Fault α) : XM α :=
  Exec.zoom (·.phys.ram) (fun s ram => { s with phys := ⟨s.phys.kmem, ram⟩ }) .fault m

structure Proghdr where
  type : Nat
  off : Nat
  vaddr : Nat
  filesz : Nat
  memsz : Nat
deriving DecidableEq

def Proghdr.read (bs : List UInt8) : Proghdr := ⟨field32 bs 0, field32 bs 4, field32 bs 8, field32 bs 16, field32 bs 20⟩

structure Elfhdr where
  magic : Nat
  entry : Nat
  phoff : Nat
  phnum : Nat

def Elfhdr.read (bs : List UInt8) : Elfhdr :=
  ⟨field32 bs 0, field32 bs 24, field32 bs 28, Bytes.leNat (cstr bs) 44 2⟩

/-- `safestrcpy(s, t, sizeof(s))`. A string that is too short leaves two terminators. -/
def safestrcpy {n : Nat} (s : Bytes n) (t : List UInt8) : Bytes n := fun i =>
  if i.val < min t.length (n - 1) then t.getD i.val 0
  else if i.val ≤ min (t.length + 1) (n - 1) then 0
  else s i

def lastElem (path : List UInt8) : List UInt8 := (path.reverse.takeWhile (· ≠ slash)).reverse

/-- The loop of `loaduvm` from byte `i` on. The entry may not be present; the address of its page is then 0. -/
def loadRounds (ip : Slot) (pd : PageDir) (addr offset sz : Nat) : Nat → Nat → XM Bool
  | 0, _ => onPhys (Exec.stop .loops)
  | m + 1, i =>
    if i < sz then
      match pd.pde (PDX ((addr + i) % 2 ^ 32)) with
      | none => onPhys (Exec.stop .loaduvm)
      | some pgtab => do
        let page := ((pgtab.pte (PTX ((addr + i) % 2 ^ 32))).map Pte.page).getD 0
        let n := if sz - i < PGSIZE then sz - i else PGSIZE
        let r ← onFs (readi ip (UInt32.ofNat ((offset + i) % 2 ^ 32)) (UInt32.ofNat n))
        let bytes := (r.getD []).take n
        onPhys (writePage page bytes)
        if bytes.length ≠ n then return false
        else loadRounds ip pd addr offset sz m ((i + PGSIZE) % 2 ^ 32)
    else pure true

/-- `loaduvm`; `false` is the return value -1. -/
def loaduvm (ip : Slot) (pd : PageDir) (addr offset sz : Nat) : XM Bool :=
  if addr % PGSIZE ≠ 0 then onPhys (Exec.stop .loaduvm)
  else loadRounds ip pd addr offset sz maxRounds 0

variable (L : Layout) (copyout : PageDir → Nat → List UInt8 → Exec Ram Fault Int)

def freeNew : Option PageDir → XM Unit
  | some pgdir => onPhys (onRam (freevm L pgdir))
  | none => pure ()

def release : Option Slot → XM Unit
  | some ip => do
    onFs (iunlockput ip)
    onFs endOp
  | none => pure ()

def cleanupexec (pgdir : Option PageDir) (ip : Option Slot) : XM Unit := do
  freeNew L pgdir
  release ip

/-- One round of the loop over the program headers: the new size, or nothing for a file that is refused. -/
def loadSegment (ip : Slot) (off sz : Nat) (pgdir : PageDir) : XM (Option Nat × PageDir) := do
  match ← onFs (readi ip (UInt32.ofNat off) 32) with
  | none => return (none, pgdir)
  | some bs =>
    let ph := Proghdr.read bs
    if bs.length ≠ 32 then return (none, pgdir)
    else if ph.type ≠ ELF_PROG_LOAD then return (some sz, pgdir)
    else if ph.memsz < ph.filesz then return (none, pgdir)
    else if (ph.vaddr + ph.memsz) % 2 ^ 32 < ph.vaddr then return (none, pgdir)
    else
      let (sz, pgdir) ← onPhys (Phys.allocuvm L pgdir sz ((ph.vaddr + ph.memsz) % 2 ^ 32))
      if sz = 0 then return (none, pgdir)
      else if ph.vaddr % PGSIZE ≠ 0 then return (none, pgdir)
      else
        let ok ← loaduvm ip pgdir ph.vaddr ph.off ph.filesz
        return (if ok then some sz else none, pgdir)

/-- The loop over the program headers, `n` of them from `off` on. -/
def loadSegments (ip : Slot) : Nat → Nat → Nat → PageDir → XM (Option Nat × PageDir)
  | 0, _, sz, pgdir => return (some sz, pgdir)
  | n + 1, off, sz, pgdir => do
    match ← loadSegment L ip off sz pgdir with
    | (none, pgdir) => return (none, pgdir)
    | (some sz, pgdir) => loadSegments ip n (off + 32) sz pgdir

/-- `exec` while it has the file open: the entry point, the size and the page directory. -/
def loadProgram (ip : Slot) : XM (Option (Nat × Nat × PageDir)) := do
  match ← onFs (readi ip 0 52) with
  | none =>
    cleanupexec L none (some ip)
    return none
  | some bs =>
    let elf := Elfhdr.read bs
    if bs.length ≠ 52 then
      cleanupexec L none (some ip)
      return none
    else if elf.magic ≠ ELF_MAGIC then
      cleanupexec L none (some ip)
      return none
    else
      match ← onPhys (onRam (setupkvm L)) with
      | none =>
        cleanupexec L none (some ip)
        return none
      | some pgdir =>
        match ← loadSegments L ip elf.phnum elf.phoff 0 pgdir with
        | (none, pgdir) =>
          cleanupexec L (some pgdir) (some ip)
          return none
        | (some sz, pgdir) =>
          release (some ip)
          return some (elf.entry, sz, pgdir)

/-- The loop over the arguments: the stack pointer and the addresses of the strings. -/
def pushArgs (pgdir : PageDir) : List (List UInt8) → Nat → Nat → List Nat → XM (Option (Nat × List Nat))
  | [], _, sp, ustack => return some (sp, ustack)
  | arg :: argv, argc, sp, ustack =>
    if argc ≥ ProcMem.MAXARG then return none
    else do
      let sp := sub32 sp (arg.length + 1) / 4 * 4
      let r ← onMem (copyout pgdir sp (arg ++ [0]))
      if r < 0 then return none
      else pushArgs pgdir argv (argc + 1) sp (ustack ++ [sp])

def words (ws : List Nat) : List UInt8 := ws.flatMap fun w => (List.range 4).map (Bytes.leByte w)

/-- Both copies to the stack: the stack pointer of the program. -/
def pushStack (pgdir : PageDir) (sz : Nat) (argv : List (List UInt8)) : XM (Option Nat) := do
  match ← pushArgs copyout pgdir argv 0 sz [] with
  | none => return none
  | some (sp, ptrs) =>
    let argc := argv.length
    let ustack := 0xffffffff :: argc :: sub32 sp ((argc + 1) * 4) :: (ptrs ++ [0])
    let sp := sub32 sp ((3 + argc + 1) * 4)
    let r ← onMem (copyout pgdir sp (words ustack))
    return if r < 0 then none else some sp

/-- Two pages at the next page boundary, and the stack in the second one: the size and the stack pointer. -/
@[irreducible]
def makeStack (sz : Nat) (pgdir : PageDir) (argv : List (List UInt8)) : XM (Option (Nat × Nat) × PageDir) := do
  let (sz, pgdir) ← onPhys (Phys.allocuvm L pgdir (pgRoundUp sz) ((pgRoundUp sz + 2 * PGSIZE) % 2 ^ 32))
  if sz = 0 then return (none, pgdir)
  else
    let pgdir ← onPhys (onRam (clearpteu pgdir (sub32 sz (2 * PGSIZE))))
    let sp ← pushStack copyout pgdir sz argv
    return (sp.map (sz, ·), pgdir)

/-- The process gets the new image, and the old one is freed. -/
def commit (path : List UInt8) (entry sz sp : Nat) (pgdir : PageDir) : XM Unit := do
  let s ← Exec.get
  Exec.modify fun s => { s with proc := ⟨pgdir, sz, entry, sp, safestrcpy s.proc.name (lastElem path)⟩ }
  onPhys (onRam (freevm L s.proc.pgdir))

/-- `exec(path, argv)` by a process whose current directory is `cwd`. -/
def exec (cwd : Slot) (path : List UInt8) (argv : List (List UInt8)) : XM Int := do
  onFs beginOp
  match ← onFs (namei cwd path) with
  | none =>
    onFs endOp
    return -1
  | some ip =>
    onFs (ilock ip)
    match ← loadProgram L ip with
    | none => return -1
    | some (entry, sz, pgdir) =>
      match ← makeStack L copyout sz pgdir argv with
      | (none, pgdir) =>
        cleanupexec L (some pgdir) none
        return -1
      | (some (sz, sp), pgdir) =>
        commit L path entry sz sp pgdir
        return 0

end Xv6.Program
