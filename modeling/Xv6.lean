import Xv6.Lib.Run
import Xv6.Lib.RingBuffer
import Xv6.Pipe
import Xv6.PipeFifo
import Xv6.PipeFifo
import Xv6.Lib.Bytes
import Xv6.Lib.Tally
import Xv6.Log
import Xv6.Param
import Xv6.LogDisk
import Xv6.LogInv
import Xv6.LogCrash
import Xv6.LogAtomic
import Xv6.Bio
import Xv6.Lib.DList
import Xv6.BioInv
import Xv6.BioCache
import Xv6.Lib.Exec
import Xv6.Kmem
import Xv6.Graphics
import Xv6.GraphicsHandle
import Xv6.Vm
import Xv6.VmCount
import Xv6.ProcMem
import Xv6.PageOwner
import Xv6.ProcCount
import Xv6.SbrkKeeps
import Xv6.LogReserve
import Xv6.Sched
import Xv6.SchedMoves
import Xv6.SchedInv
import Xv6.SchedExcl
import Xv6.Life
import Xv6.ExitWait
import Xv6.Kill
import Xv6.Sleepers
import Xv6.SleepWakeup
import Xv6.Monitor
import Xv6.SleepLock
import Xv6.PipeWakeup
import Xv6.FsFormat
import Xv6.FsStore
import Xv6.Fs
import Xv6.FsView
import Xv6.FsContent
import Xv6.Console
import Xv6.ConsoleInput
import Xv6.Canvas
import Xv6.CanvasCalls
import Xv6.ScreenCopy
import Xv6.Contexts
import Xv6.ContextPool
import Xv6.ForkCopy
import Xv6.File
import Xv6.FsFile
import Xv6.SharedWrites
import Xv6.Dir
import Xv6.Sysfile
import Xv6.InodeRefs
import Xv6.FileRefs
import Xv6.RefBalance
import Xv6.Keyboard
import Xv6.Lib.Midpoint
import Xv6.Lines
import Xv6.LineWrites
import Xv6.LineCalls
import Xv6.Palette
import Xv6.SbrkExact
import Xv6.KernelMap
import Xv6.AddressSpaces
import Xv6.Ide
import Xv6.Lib.LinkedQueue
import Xv6.IdeRefines
import Xv6.IdeCalls
import Xv6.Mkfs
import Xv6.MkfsAppend
import Xv6.MkfsImage
import Xv6.DirScan
import Xv6.CopyOut
import Xv6.Syscall
import Xv6.UserMemory
import Xv6.Lib.SortedRing
import Xv6.Umalloc
import Xv6.UmallocInv
import Xv6.UmallocRun
import Xv6.UmallocSbrk
import Xv6.Shell
import Xv6.ShellTokens
import Xv6.ShellGrammar
import Xv6.ShellStrings
import Xv6.Icache
import Xv6.Namei
import Xv6.Program
import Xv6.NewSpace
import Xv6.StackPage
import Xv6.ProgramLoad
import Xv6.ProgramRun
import Xv6.ProgramExec
import Xv6.Lib.CopyLoop
import Xv6.Memmove
import Xv6.Grep
import Xv6.GrepMatch
import Xv6.BioLru
import Xv6.Lib.Recency
import Xv6.Mp
import Xv6.Printint
import Xv6.Spinlock
import Xv6.Terminal
import Xv6.ShellRun
import Xv6.Wc
