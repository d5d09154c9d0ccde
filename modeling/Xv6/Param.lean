import Xv6.Lib.Bytes

/-! # Constants shared by the kernel modules (`param.h`, `fs.h`) -/

namespace Xv6

abbrev BSIZE : Nat := 512
abbrev MAXOPBLOCKS : Nat := 10
abbrev LOGSIZE : Nat := MAXOPBLOCKS * 3
abbrev NBUF : Nat := MAXOPBLOCKS * 3
abbrev FSSIZE : Nat := 1000
abbrev ROOTDEV : Nat := 1

abbrev Block : Type := Bytes BSIZE

end Xv6
