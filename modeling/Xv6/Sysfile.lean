import Xv6.Dir
import Xv6.File
import Xv6.ProcMem

/-!
# System calls on files (`sysfile.c`, `file.c`, `pipe.c`, `exec.c`, `proc.c`)

The system calls that use the file system, the table of open files and the descriptors of processes,
each run to its end while no other process acts. An argument that cannot be fetched is `none`. What
the memory of a process answers (the page tables of `exec` and `fork`, the bytes that pass through a
pipe) is chosen by the caller.
-/

namespace Xv6

open Function (update)

abbrev NOFILE : Nat := 16
abbrev NFILE : Nat := 100

abbrev PathArg : Type := Option (List UInt8)

/-! ### Calls that only use the file system -/

def setNlink (ip : Slot) (f : UInt16 → UInt16) : FsM Unit :=
  Exec.modify fun s => s.setSlot ip { s.icache ip with nlink := f (s.icache ip).nlink }

def cleanupsyslink (ip : Slot) : FsM Unit := do
  ilock ip
  setNlink ip (· - 1)
  iupdate ip
  iunlockput ip
  endOp

/-- The condition under which `sys_link` gives up, as a result of `dirlink`. -/
def linkEntry (dp : Slot) (name : List UInt8) (ip : Slot) : FsM Int := do
  let s ← Exec.get
  if (s.icache dp).dev ≠ (s.icache ip).dev then return -1 else dirlink dp name (s.icache ip).inum

/-- `sys_link`, from the transaction on. -/
def linkOp (cwd : Slot) (old new : List UInt8) : FsM Int := do
  beginOp
  match ← namei cwd old with
  | none =>
    endOp
    return -1
  | some ip =>
    ilock ip
    if ((← Exec.get).icache ip).type = T_DIR then
      iunlockput ip
      endOp
      return -1
    else
      setNlink ip (· + 1)
      iupdate ip
      iunlock ip
      match ← nameiparent cwd new with
      | none =>
        cleanupsyslink ip
        return -1
      | some (dp, name) =>
        ilock dp
        if (← linkEntry dp name ip) < 0 then
          iunlockput dp
          cleanupsyslink ip
          return -1
        else
          iunlockput dp
          iput ip
          endOp
          return 0

def sysLink (cwd : Slot) : PathArg → PathArg → FsM Int
  | some old, some new => linkOp cwd old new
  | _, _ => return -1

def dirBusy (ip : Slot) : FsM Bool := do
  if ((← Exec.get).icache ip).type = T_DIR then return !(← isdirempty ip) else return false

/-- `sys_unlink`, from the transaction on. -/
def unlinkOp (cwd : Slot) (path : List UInt8) : FsM Int := do
  beginOp
  match ← nameiparent cwd path with
  | none =>
    endOp
    return -1
  | some (dp, name) =>
    ilock dp
    if namecmp (cstr name) (cstr dot) = 0 ∨ namecmp (cstr name) (cstr dotdot) = 0 then
      iunlockput dp
      endOp
      return -1
    else
      match ← dirlookup dp name with
      | none =>
        iunlockput dp
        endOp
        return -1
      | some (ip, off) =>
        ilock ip
        let x := (← Exec.get).icache ip
        -- `nlink` is a `short`
        if x.nlink = 0 ∨ 2 ^ 15 ≤ x.nlink.toNat then panic "unlink: nlink < 1"
        else
          if ← dirBusy ip then
            iunlockput ip
            iunlockput dp
            endOp
            return -1
          else
            writeDirent dp "unlink: writei" .zero off
            Exec.when (x.type = T_DIR) do
              setNlink dp (· - 1)
              iupdate dp
            iunlockput dp
            setNlink ip (· - 1)
            iupdate ip
            iunlockput ip
            endOp
            return 0

def sysUnlink (cwd : Slot) : PathArg → FsM Int
  | some path => unlinkOp cwd path
  | none => return -1

/-- The link count of the parent and the entries `.` and `..` of the new directory `ip`. -/
def createDots (dp ip : Slot) : FsM Unit := do
  setNlink dp (· + 1)
  iupdate dp
  let s ← Exec.get
  if (← dirlink ip dot (s.icache ip).inum) < 0 then panic "create dots"
  else if (← dirlink ip dotdot (s.icache dp).inum) < 0 then panic "create dots"
  else return ()

/-- `create` where the name is not bound: the new inode and its entry in `dp`. -/
def createIn (dp : Slot) (name : List UInt8) (type major minor : UInt16) : FsM Slot := do
  let s ← Exec.get
  let ip ← ialloc (s.icache dp).dev type
  ilock ip
  Exec.modify fun s => s.setSlot ip { s.icache ip with major := major, minor := minor, nlink := 1 }
  iupdate ip
  Exec.when (type = T_DIR) (createDots dp ip)
  let s ← Exec.get
  if (← dirlink dp name (s.icache ip).inum) < 0 then panic "create: dirlink"
  else
    iunlockput dp
    return ip

def create (cwd : Slot) (path : List UInt8) (type major minor : UInt16) : FsM (Option Slot) := do
  match ← nameiparent cwd path with
  | none => return none
  | some (dp, name) =>
    ilock dp
    match ← dirlookup dp name with
    | some (ip, _) =>
      iunlockput dp
      ilock ip
      if type = T_FILE ∧ ((← Exec.get).icache ip).type = T_FILE then return some ip
      else
        iunlockput ip
        return none
    | none => return some (← createIn dp name type major minor)

/-- The calls that make an inode and do not keep it; `path` is `none` if any argument is bad. -/
def sysMk (cwd : Slot) (path : PathArg) (type major minor : UInt16) : FsM Int := do
  beginOp
  match path with
  | none =>
    endOp
    return -1
  | some path =>
    match ← create cwd path type major minor with
    | none =>
      endOp
      return -1
    | some ip =>
      iunlockput ip
      endOp
      return 0

def sysMkdir (cwd : Slot) (path : PathArg) : FsM Int := sysMk cwd path T_DIR 0 0

def sysMknod (cwd : Slot) (path : PathArg) (major minor : UInt16) : FsM Int := sysMk cwd path T_DEV major minor

/-! ### `exec` -/

/-- The 32-bit field at `off` of a structure that was read. -/
def field32 (bs : List UInt8) (off : Nat) : Nat := Bytes.leNat (cstr bs) off 4

abbrev ELF_MAGIC : Nat := 0x464C457F
abbrev ELF_PROG_LOAD : Nat := 1

/-- `loaduvm`, from byte `i` of the segment on, in at most `fuel` rounds; whether all of it was read. -/
def loaduvm (ip : Slot) (offset sz : Nat) : Nat → Nat → FsM Bool
  | 0, _ => return true
  | fuel + 1, i => do
    if i < sz then
      let n := min (sz - i) Vm.PGSIZE
      let bs ← readi ip (UInt32.ofNat (offset + i)) (UInt32.ofNat n)
      if bs.map List.length = some n then loaduvm ip offset sz fuel (i + Vm.PGSIZE) else return false
    else return true

/-- The loop over the program headers, `n` of them from `off` on; `mem` says which calls of `allocuvm`
succeed. Whether all of them were loaded. -/
def loadSegments (ip : Slot) (mem : Nat → Bool) : Nat → Nat → FsM Bool
  | 0, _ => return true
  | n + 1, off => do
    match ← readi ip (UInt32.ofNat off) 32 with
    | none => return false
    | some ph =>
      if ph.length ≠ 32 then return false
      else if field32 ph 0 ≠ ELF_PROG_LOAD then loadSegments ip mem n (off + 32)
      else
        let vaddr := field32 ph 8
        let filesz := field32 ph 16
        let memsz := field32 ph 20
        if memsz < filesz then return false
        else if (vaddr + memsz) % 2 ^ 32 < vaddr then return false
        else if !mem n then return false
        else if vaddr % Vm.PGSIZE ≠ 0 then return false
        else if ← loaduvm ip (field32 ph 4) filesz (filesz / Vm.PGSIZE + 1) 0 then loadSegments ip mem n (off + 32)
        else return false

/-- What `exec` reads of the file; `kvm` says whether `setupkvm` succeeds. -/
def loadImage (ip : Slot) (kvm : Bool) (mem : Nat → Bool) : FsM Bool := do
  match ← readi ip 0 52 with
  | none => return false
  | some elf =>
    if elf.length ≠ 52 then return false
    else if field32 elf 0 ≠ ELF_MAGIC then return false
    else if !kvm then return false
    else loadSegments ip mem (Bytes.leNat (cstr elf) 44 2) (field32 elf 28)

/-- `exec(path, argv)`; `stack` says whether the stack can be made and the arguments copied to it. -/
def exec (cwd : Slot) (path : List UInt8) (kvm : Bool) (mem : Nat → Bool) (stack : Bool) : FsM Int := do
  beginOp
  match ← namei cwd path with
  | none =>
    endOp
    return -1
  | some ip =>
    ilock ip
    let ok ← loadImage ip kvm mem
    iunlockput ip
    endOp
    return if ok ∧ stack then 0 else -1

/-- `sys_exec`; `path` is `none` if it or an argument string is bad. -/
def sysExec (cwd : Slot) (path : PathArg) (kvm : Bool) (mem : Nat → Bool) (stack : Bool) : FsM Int :=
  match path with
  | some path => exec cwd path kvm mem stack
  | none => return -1

/-- `filestat`: the type, device, inode number, link count and size. -/
def filestat : FileM (Option (UInt16 × Nat × Nat × UInt16 × UInt32)) := do
  let f := (← Exec.get).f
  match f.type with
  | .FD_INODE =>
    onFs (ilock f.ip)
    let x := (← Exec.get).fs.icache f.ip
    onFs (iunlock f.ip)
    return some (x.type, x.dev, x.inum, x.nlink, x.size)
  | _ => return none

/-! ### Descriptors and open files -/

namespace Sysfile

open ProcMem (NPROC ProcState PipeEnds)

abbrev Pid : Type := Fin NPROC
abbrev Fd : Type := Fin NOFILE
abbrev Fid : Type := Fin NFILE

/-- `struct proc`, as far as files go. -/
structure Proc where
  state : ProcState
  pid : Nat
  ofile : Fd → Option Fid
  cwd : Option Slot

structure Sys where
  fs : Fs
  ftable : Fid → File
  procs : Pid → Proc
  initproc : Pid
  nextpid : Nat
  pipes : Nat → Option PipeEnds -- the pages that hold a `struct pipe`
  kmem : Vm.Kmem
  others : List Nat -- the pages the rest of the kernel has taken

abbrev SysM : Type → Type := Exec Sys Stop

section

variable {α : Type}

def liftFs (m : FsM α) : SysM α := fun x => ((m x.fs).1, { x with fs := (m x.fs).2 })

/-- A program about the open file `f`. -/
def liftFile (f : Fid) (m : FileM α) : SysM α := fun x =>
  let r := m ⟨x.fs, x.ftable f⟩
  (r.1, { x with fs := r.2.fs, ftable := update x.ftable f r.2.f })

def liftKmem (m : Vm.KM α) : SysM α := fun x =>
  ((m x.kmem).1.mapError fun _ => .panic "kfree", { x with kmem := (m x.kmem).2 })

def panic (msg : String) : SysM α := Exec.stop (.panic msg)

end

def setFile (f : Fid) (g : File → File) : SysM Unit :=
  Exec.modify fun x => { x with ftable := update x.ftable f (g (x.ftable f)) }

def setProc (p : Pid) (g : Proc → Proc) : SysM Unit :=
  Exec.modify fun x => { x with procs := update x.procs p (g (x.procs p)) }

def setOfile (p : Pid) (fd : Fd) (f : Option Fid) : SysM Unit :=
  setProc p fun q => { q with ofile := update q.ofile fd f }

def setPipe (page : Nat) (e : Option PipeEnds) : SysM Unit :=
  Exec.modify fun x => { x with pipes := update x.pipes page e }

def cwdOf (p : Pid) : SysM Slot := do
  match ((← Exec.get).procs p).cwd with
  | some ip => return ip
  | none => panic "no current directory"

def withCwd (p : Pid) {α : Type} (m : Slot → FsM α) : SysM α := do
  let cwd ← cwdOf p
  liftFs (m cwd)

def filealloc : SysM (Option Fid) := do
  let x ← Exec.get
  match (List.finRange NFILE).find? fun f => (x.ftable f).ref = 0 with
  | none => return none
  | some f =>
    setFile f fun e => { e with ref := 1 }
    return some f

def filedup (f : Fid) : SysM Unit := do
  if ((← Exec.get).ftable f).ref < 1 then panic "filedup"
  else setFile f fun e => { e with ref := e.ref + 1 }

variable (L : Vm.Layout)

def pipeclose (page : Nat) (writable : Bool) : SysM Unit := do
  match (← Exec.get).pipes page with
  | none => panic "pipeclose"
  | some e =>
    let e := if writable then { e with writeopen := false } else { e with readopen := false }
    if e.readopen = false ∧ e.writeopen = false then
      setPipe page none
      liftKmem (Vm.kfree L page)
    else setPipe page (some e)

/-- What `fileclose` does for the copy `ff` of an entry that is no longer referenced. -/
def closeLast (ff : File) : SysM Unit :=
  match ff.type with
  | .FD_PIPE => pipeclose L ff.pipe ff.writable
  | .FD_INODE => liftFs do
    beginOp
    iput ff.ip
    endOp
  | .FD_NONE => pure ()

def fileclose (f : Fid) : SysM Unit := do
  let ff := (← Exec.get).ftable f
  if ff.ref < 1 then panic "fileclose"
  else if 0 < ff.ref - 1 then setFile f fun e => { e with ref := e.ref - 1 }
  else
    setFile f fun e => { e with ref := 0, type := .FD_NONE }
    closeLast L ff

def argfd (p : Pid) (fd : Option Int) : SysM (Option (Fd × Fid)) := do
  let x ← Exec.get
  return fd.bind fun n =>
    if h : 0 ≤ n ∧ n < NOFILE then
      let fd : Fd := ⟨n.toNat, by omega⟩
      ((x.procs p).ofile fd).map fun f => (fd, f)
    else none

def fdalloc (p : Pid) (f : Fid) : SysM (Option Fd) := do
  let x ← Exec.get
  match (List.finRange NOFILE).find? fun fd => ((x.procs p).ofile fd).isNone with
  | none => return none
  | some fd =>
    setOfile p fd (some f)
    return some fd

def sysDup (p : Pid) (fd : Option Int) : SysM Int := do
  match ← argfd p fd with
  | none => return -1
  | some (_, f) =>
    match ← fdalloc p f with
    | none => return -1
    | some fd =>
      filedup f
      return fd.val

/-- `sys_read`; `argOk` if the other arguments are fine, `pipe` what `piperead` answers. -/
def sysRead (p : Pid) (fd : Option Int) (argOk : Bool) (n : UInt32) (pipe : Option (List UInt8)) : SysM Int := do
  match ← argfd p fd with
  | none => return -1
  | some (_, f) =>
    if !argOk then return -1
    else
      let r ← liftFile f (fileread (pure pipe) n)
      return (r.map fun bs => (bs.length : Int)).getD (-1)

def sysWrite (p : Pid) (fd : Option Int) (argOk : Bool) (src : Nat → UInt8) (n : Nat) (pipe : Int) : SysM Int := do
  match ← argfd p fd with
  | none => return -1
  | some (_, f) => if !argOk then return -1 else liftFile f (filewrite (pure pipe) src n)

def sysClose (p : Pid) (fd : Option Int) : SysM Int := do
  match ← argfd p fd with
  | none => return -1
  | some (fd, f) =>
    setOfile p fd none
    fileclose L f
    return 0

def sysFstat (p : Pid) (fd : Option Int) (argOk : Bool) : SysM Int := do
  match ← argfd p fd with
  | none => return -1
  | some (_, f) =>
    if !argOk then return -1
    else
      let st ← liftFile f filestat
      return if st.isSome then 0 else -1

abbrev O_WRONLY : UInt32 := 0x001
abbrev O_RDWR : UInt32 := 0x002
abbrev O_CREATE : UInt32 := 0x200

def openInode (cwd : Slot) (path : List UInt8) (omode : UInt32) : FsM (Option Slot) := do
  if omode &&& O_CREATE ≠ 0 then create cwd path T_FILE 0 0
  else
    match ← namei cwd path with
    | none => return none
    | some ip =>
      ilock ip
      if ((← Exec.get).icache ip).type = T_DIR ∧ omode ≠ 0 then
        iunlockput ip
        return none
      else return some ip

/-- `f = filealloc()` and `fd = fdalloc(f)`, undone if only the first succeeds. -/
def allocFd (p : Pid) : SysM (Option (Fid × Fd)) := do
  match ← filealloc with
  | none => return none
  | some f =>
    match ← fdalloc p f with
    | none =>
      fileclose L f
      return none
    | some fd => return some (f, fd)

/-- `sys_open`, from the transaction on. -/
def openOp (p : Pid) (cwd : Slot) (path : List UInt8) (omode : UInt32) : SysM Int := do
  liftFs beginOp
  match ← liftFs (openInode cwd path omode) with
  | none =>
    liftFs endOp
    return -1
  | some ip =>
    match ← allocFd L p with
    | none =>
      liftFs (iunlockput ip)
      liftFs endOp
      return -1
    | some (f, fd) =>
      liftFs (iunlock ip)
      liftFs endOp
      setFile f fun e => { e with
        type := .FD_INODE
        ip := ip
        off := 0
        readable := omode &&& O_WRONLY = 0
        writable := omode &&& O_WRONLY ≠ 0 ∨ omode &&& O_RDWR ≠ 0 }
      return fd.val

def sysOpen (p : Pid) (path : PathArg) (omode : Option UInt32) : SysM Int :=
  match path, omode with
  | some path, some omode => do openOp L p (← cwdOf p) path omode
  | _, _ => return -1

def sysChdir (p : Pid) (path : PathArg) : SysM Int := do
  let cwd ← cwdOf p
  liftFs beginOp
  match path with
  | none =>
    liftFs endOp
    return -1
  | some path =>
    match ← liftFs (namei cwd path) with
    | none =>
      liftFs endOp
      return -1
    | some ip =>
      liftFs (ilock ip)
      if ((← Exec.get).fs.icache ip).type ≠ T_DIR then
        liftFs (iunlockput ip)
        liftFs endOp
        return -1
      else
        liftFs (iunlock ip)
        liftFs (iput cwd)
        liftFs endOp
        setProc p fun q => { q with cwd := some ip }
        return 0

/-- The file structure of one end of the pipe in `page`. -/
def File.toPipe (page : Nat) (writable : Bool) (e : File) : File :=
  { e with type := .FD_PIPE, readable := !writable, writable := writable, pipe := page }

/-- `pipealloc`; where it fails, `cleanuppipealloc` closes the file structures it has. -/
def pipealloc : SysM (Option (Fid × Fid)) := do
  match ← filealloc with
  | none => return none
  | some f₀ =>
    match ← filealloc with
    | none =>
      fileclose L f₀
      return none
    | some f₁ =>
      match ← liftKmem Vm.kalloc with
      | none =>
        fileclose L f₀
        fileclose L f₁
        return none
      | some page =>
        setPipe page (some ⟨true, true⟩)
        setFile f₀ (File.toPipe page false)
        setFile f₁ (File.toPipe page true)
        return some (f₀, f₁)

def sysPipe (p : Pid) (argOk : Bool) : SysM Int := do
  if !argOk then return -1
  else
    match ← pipealloc L with
    | none => return -1
    | some (rf, wf) =>
      match ← fdalloc p rf with
      | none =>
        fileclose L rf
        fileclose L wf
        return -1
      | some fd₀ =>
        match ← fdalloc p wf with
        | none =>
          setOfile p fd₀ none
          fileclose L rf
          fileclose L wf
          return -1
        | some _ => return 0

/-! ### Processes -/

def dupFile (p np : Pid) (fd : Fd) : SysM Unit := do
  match ((← Exec.get).procs p).ofile fd with
  | none => return ()
  | some f =>
    filedup f
    setOfile np fd (some f)

def dupFiles (p np : Pid) : List Fd → SysM Unit
  | [] => pure ()
  | fd :: fds => do
    dupFile p np fd
    dupFiles p np fds

/-- The first half of `allocproc`: a slot of the table and a process id. -/
def allocproc : SysM (Option Pid) := do
  let x ← Exec.get
  match (List.finRange NPROC).find? fun q => (x.procs q).state = .UNUSED with
  | none => return none
  | some np =>
    setProc np fun q => { q with state := .EMBRYO, pid := x.nextpid }
    Exec.modify fun x => { x with nextpid := x.nextpid + 1 }
    return some np

/-- `fork`; `memOk` if the kernel stack and the copy of the address space can be made. -/
def fork (p : Pid) (memOk : Bool) : SysM Int := do
  match ← allocproc with
  | none => return -1
  | some np =>
    if !memOk then
      setProc np fun q => { q with state := .UNUSED }
      return -1
    else
      dupFiles p np (List.finRange NOFILE)
      let cwd ← cwdOf p
      let ip ← liftFs (idup cwd)
      setProc np fun q => { q with cwd := some ip }
      setProc np fun q => { q with state := .RUNNABLE }
      return ((← Exec.get).procs np).pid

def closeFile (p : Pid) (fd : Fd) : SysM Unit := do
  match ((← Exec.get).procs p).ofile fd with
  | none => return ()
  | some f =>
    fileclose L f
    setOfile p fd none

def closeFiles (p : Pid) : List Fd → SysM Unit
  | [] => pure ()
  | fd :: fds => do
    closeFile L p fd
    closeFiles p fds

def exit (p : Pid) : SysM Int := do
  if p = (← Exec.get).initproc then panic "init exiting"
  else
    closeFiles L p (List.finRange NOFILE)
    let cwd ← cwdOf p
    liftFs do
      beginOp
      iput cwd
      endOp
    setProc p fun q => { q with cwd := none }
    setProc p fun q => { q with state := .ZOMBIE }
    return 0

/-! ### Runs -/

inductive Call
  | openFile (path : PathArg) (omode : Option UInt32)
  | mkdir (path : PathArg)
  | mknod (path : PathArg) (major minor : UInt16)
  | link (old new : PathArg)
  | unlink (path : PathArg)
  | chdir (path : PathArg)
  | dup (fd : Option Int)
  | close (fd : Option Int)
  | pipe (argOk : Bool)
  | fork (memOk : Bool)
  | exec (path : PathArg) (kvm : Bool) (mem : Nat → Bool) (stack : Bool)
  | exit
  | fstat (fd : Option Int) (argOk : Bool)
  | read (fd : Option Int) (argOk : Bool) (n : UInt32) (pipe : Option (List UInt8))
  | write (fd : Option Int) (argOk : Bool) (src : Nat → UInt8) (n : Nat) (pipe : Int)

def syscall (p : Pid) : Call → SysM Int
  | .openFile path omode => sysOpen L p path omode
  | .mkdir path => withCwd p fun cwd => sysMkdir cwd path
  | .mknod path major minor => withCwd p fun cwd => sysMknod cwd path major minor
  | .link old new => withCwd p fun cwd => sysLink cwd old new
  | .unlink path => withCwd p fun cwd => sysUnlink cwd path
  | .chdir path => sysChdir p path
  | .dup fd => sysDup p fd
  | .close fd => sysClose L p fd
  | .pipe argOk => sysPipe L p argOk
  | .fork memOk => fork p memOk
  | .exec path kvm mem stack => withCwd p fun cwd => sysExec cwd path kvm mem stack
  | .exit => exit L p
  | .fstat fd argOk => sysFstat p fd argOk
  | .read fd argOk n pipe => sysRead p fd argOk n pipe
  | .write fd argOk src n pipe => sysWrite p fd argOk src n pipe

def Proc.alive (q : Proc) : Bool := q.state = .RUNNABLE ∨ q.state = .RUNNING ∨ q.state = .SLEEPING

inductive Act
  | call (p : Pid) (c : Call)
  | reap (p : Pid) -- `wait` frees the process
  | take -- the rest of the kernel takes a page
  | give (page : Nat) -- and returns one

/-- A step is a call that returns, or something the rest of the kernel does. -/
def step (x : Sys) : Act → Option Sys
  | .call p c =>
    if (x.procs p).alive then
      match syscall L p c x with
      | (.ok _, y) => some y
      | (.error _, _) => none
    else none
  | .reap p =>
    if (x.procs p).state = .ZOMBIE then
      some { x with procs := update x.procs p { x.procs p with state := .UNUSED } }
    else none
  | .take =>
    match Vm.kalloc x.kmem with
    | (.ok (some page), k) => some { x with kmem := k, others := page :: x.others }
    | (_, k) => some { x with kmem := k }
  | .give page =>
    if page ∈ x.others then
      match Vm.kfree L page x.kmem with
      | (.ok _, k) => some { x with kmem := k, others := x.others.erase page }
      | (.error _, _) => none
    else none

/-- After `userinit`: one process, in the root directory, and no open files. -/
structure Boot (x : Sys) : Prop where
  ftable : ∀ f, (x.ftable f).ref = 0 ∧ (x.ftable f).type = .FD_NONE
  procs : ∀ p, p ≠ x.initproc → (x.procs p).state = .UNUSED ∧ (x.procs p).cwd = none
  ofile : ∀ p fd, (x.procs p).ofile fd = none
  init : (x.procs x.initproc).state = .RUNNABLE
  cwd : ∃ ip, (x.procs x.initproc).cwd = some ip ∧ ∀ k, (x.fs.icache k).ref = if k = ip then 1 else 0
  pipes : ∀ page, x.pipes page = none
  kmem : x.kmem.out.Perm x.others ∧ x.kmem.bad = [] ∧ (x.kmem.freelist ++ x.kmem.out).Nodup ∧
    ∀ page ∈ x.kmem.freelist ++ x.kmem.out, L.managed page

end Sysfile

/-! ### A small image: an empty root directory, and the kernel after it has started from it -/

namespace Image

def sb : Superblock := ⟨100, 64, 16, 30, 2, 32, 35⟩

def root : Dinode where
  type := T_DIR
  major := 0
  minor := 0
  nlink := 1
  size := 512
  addrs k := if k.val = 0 then 36 else 0

def bitmap : Block := fun i => if i.val < 4 then 255 else if i.val = 4 then 31 else 0

def entries : Block := ((Bytes.zero BSIZE).put 0 DIRENT (Dirent.make dot 1).bytes).put 16 DIRENT (Dirent.make dotdot 1).bytes

def disk (b : Nat) : Block :=
  if b = 32 then Dinode.write (Bytes.zero BSIZE) 1 root
  else if b = 35 then bitmap
  else if b = 36 then entries
  else Bytes.zero BSIZE

/-- The root directory is the current directory of the first process. -/
def icache (k : Slot) : Inode :=
  if k = 0 then ⟨default, ROOTDEV, ROOTINO, 1, false, false⟩ else ⟨default, 0, 0, 0, false, false⟩

def fs : Fs := ⟨sb, disk, [], 0, icache, fun _ => ⟨none, none⟩⟩

def layout : Vm.Layout := ⟨1, 8, [], Nat.one_pos, Vm.Layout.upper_nil⟩

def boot : Sysfile.Sys where
  fs := fs
  ftable _ := ⟨.FD_NONE, 0, false, false, 0, 0, 0⟩
  procs p := if p = 0 then ⟨.RUNNABLE, 1, fun _ => none, some 0⟩ else ⟨.UNUSED, 0, fun _ => none, none⟩
  initproc := 0
  nextpid := 2
  pipes _ := none
  kmem := ⟨[1, 2, 3, 4, 5, 6, 7], [], [], []⟩
  others := []

theorem boot_ok : Sysfile.Boot layout boot := by
  refine ⟨fun _ => ⟨rfl, rfl⟩, fun p hp => ?_, fun p fd => ?_, rfl, ⟨0, rfl, fun k => ?_⟩, fun _ => rfl,
    .refl _, rfl, by decide, fun page hm => ?_⟩
  · have hfree : boot.procs p = ⟨.UNUSED, 0, fun _ => none, none⟩ := if_neg hp
    rw [hfree]
    exact ⟨rfl, rfl⟩
  · show (if p = 0 then _ else _ : Sysfile.Proc).ofile fd = none
    split <;> rfl
  · show (if k = 0 then _ else _ : Inode).ref = _
    split <;> rfl
  · have hb : ∀ page ∈ [1, 2, 3, 4, 5, 6, 7], 1 ≤ page ∧ page < 8 := by decide
    exact hb page hm

end Image

end Xv6
