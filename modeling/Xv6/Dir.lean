import Xv6.Fs

/-!
# Directories and paths (`fs.c`, `string.c`)

A `char *` is the function of the bytes it points to; a name or a path that the code has measured is
the list of the bytes before its terminator. The offsets of the directory loops are bounded by the
size of the directory and do not wrap.
-/

namespace Xv6

/-! ### Strings -/

/-- The bytes at a pointer to the string `l`. -/
def cstr (l : List UInt8) (i : Nat) : UInt8 := l.getD i 0

def rest (s : Nat → UInt8) (i : Nat) : UInt8 := s (i + 1)

def strncmp (p q : Nat → UInt8) : Nat → Int
  | 0 => 0
  | n + 1 => if p 0 ≠ 0 ∧ p 0 = q 0 then strncmp (rest p) (rest q) n else (p 0).toNat - (q 0).toNat

/-- The `n` bytes that `strncpy(s, t, n)` stores. -/
def strncpy (t : Nat → UInt8) : Nat → List UInt8
  | 0 => []
  | n + 1 => if t 0 ≠ 0 then t 0 :: strncpy (rest t) n else List.replicate (n + 1) 0

/-- The string of at most `n` bytes at a pointer. -/
def chars (s : Nat → UInt8) : Nat → List UInt8
  | 0 => []
  | n + 1 => if s 0 ≠ 0 then s 0 :: chars (rest s) n else []

def namecmp (s t : Nat → UInt8) : Int := strncmp s t DIRSIZ

def Dirent.str (de : Dirent) : Nat → UInt8 := de.name.get

/-- `strncpy(de.name, name, DIRSIZ); de.inum = inum;` -/
def Dirent.make (name : List UInt8) (inum : Nat) : Dirent where
  inum := UInt16.ofNat inum
  name i := (strncpy (cstr name) DIRSIZ).getD i 0

abbrev dot : List UInt8 := [46]

abbrev dotdot : List UInt8 := [46, 46]

/-! ### Directories -/

/-- The loops over a directory, in at most `fuel` rounds: the first entry from `off` on that satisfies
`p`, and the offset the loop stops at. `msg` is the panic for a read that fails. -/
def dirScan (dp : Slot) (msg : String) (p : Dirent → Bool) : Nat → Nat → FsM (Option Dirent × Nat)
  | 0, off => return (none, off)
  | fuel + 1, off => do
    if off < ((← Exec.get).icache dp).size.toNat then
      match ← readi dp (UInt32.ofNat off) (UInt32.ofNat DIRENT) with
      | none => panic msg
      | some bs =>
        if bs.length ≠ DIRENT then panic msg
        else
          let de := Dirent.read (cstr bs)
          if p de then return (some de, off) else dirScan dp msg p fuel (off + DIRENT)
    else return (none, off)

def dirRounds (s : Fs) (dp : Slot) : Nat := (s.icache dp).size.toNat / DIRENT + 1

/-- An entry in use whose name is `name`. -/
def Dirent.named (name : List UInt8) (de : Dirent) : Bool := de.inum ≠ 0 ∧ namecmp (cstr name) de.str = 0

/-- `dirlookup(dp, name, &off)`: the inode and the offset. -/
def dirlookup (dp : Slot) (name : List UInt8) : FsM (Option (Slot × Nat)) := do
  let s ← Exec.get
  if (s.icache dp).type ≠ T_DIR then panic "dirlookup not DIR"
  else
    match ← dirScan dp "dirlookup read" (Dirent.named name) (dirRounds s dp) 0 with
    | (none, _) => return none
    | (some de, off) =>
      let ip ← iget (s.icache dp).dev de.inum.toNat
      return some (ip, off)

/-- `writei(dp, (char*)&de, off, sizeof(de))`, which has to write all of it. -/
def writeDirent (dp : Slot) (msg : String) (de : Dirent) (off : Nat) : FsM Unit := do
  if (← writei dp de.bytes (UInt32.ofNat off) (UInt32.ofNat DIRENT)) ≠ some DIRENT then panic msg
  else return ()

def dirlink (dp : Slot) (name : List UInt8) (inum : Nat) : FsM Int := do
  match ← dirlookup dp name with
  | some (ip, _) =>
    iput ip
    return -1
  | none =>
    let s ← Exec.get
    let (_, off) ← dirScan dp "dirlink read" (fun de => de.inum = 0) (dirRounds s dp) 0
    writeDirent dp "dirlink" (.make name inum) off
    return 0

def isdirempty (dp : Slot) : FsM Bool := do
  let s ← Exec.get
  let (de, _) ← dirScan dp "isdirempty: readi" (fun de => de.inum ≠ 0) (dirRounds s dp) (2 * DIRENT)
  return de.isNone

/-! ### Paths -/

abbrev slash : UInt8 := 47

/-- The path after its first element, and the element as it is stored in a buffer of `DIRSIZ` bytes. -/
def skipelem (path : List UInt8) : Option (List UInt8 × List UInt8) :=
  match path.dropWhile (· = slash) with
  | [] => none
  | c :: cs =>
    let len := ((c :: cs).takeWhile (· ≠ slash)).length
    some (((c :: cs).drop len).dropWhile (· = slash), (c :: cs).take (min len DIRSIZ))

/-- The loop of `namex`; each round takes an element off the path, so `fuel` is not used up. -/
def namexLoop (nameiparent : Bool) : Nat → Slot → List UInt8 → List UInt8 → FsM (Option (Slot × List UInt8))
  | 0, _, _, _ => panic "namex: fuel"
  | fuel + 1, ip, path, name => do
    match skipelem path with
    | none =>
      if nameiparent then
        iput ip
        return none
      else return some (ip, name)
    | some (path, name) =>
      ilock ip
      if ((← Exec.get).icache ip).type ≠ T_DIR then
        iunlockput ip
        return none
      else if nameiparent ∧ path = [] then
        -- Stop one level early.
        iunlock ip
        return some (ip, name)
      else
        match ← dirlookup ip name with
        | none =>
          iunlockput ip
          return none
        | some (next, _) =>
          iunlockput ip
          namexLoop nameiparent fuel next path name

def namexStart (cwd : Slot) (path : List UInt8) : FsM Slot :=
  if path.head? = some slash then iget ROOTDEV ROOTINO else idup cwd

/-- `namex` by a process whose current directory is `cwd`. -/
def namex (cwd : Slot) (path : List UInt8) (nameiparent : Bool) : FsM (Option (Slot × List UInt8)) := do
  let ip ← namexStart cwd path
  namexLoop nameiparent (path.length + 1) ip path []

def namei (cwd : Slot) (path : List UInt8) : FsM (Option Slot) := do
  return (← namex cwd path false).map (·.1)

def nameiparent (cwd : Slot) (path : List UInt8) : FsM (Option (Slot × List UInt8)) := namex cwd path true

/-! ### Lemmas about strings -/

/-- The comparison finds the two strings equal exactly if they are equal up to a terminator or `n`. -/
theorem strncmp_eq_zero_iff {p q : Nat → UInt8} {n : Nat} : strncmp p q n = 0 ↔ chars p n = chars q n := by
  induction n generalizing p q with
  | zero => exact iff_of_true rfl rfl
  | succ n ih =>
    have hsub : (p 0 : UInt8).toNat - ((q 0 : UInt8).toNat : Int) = 0 ↔ p 0 = q 0 := by
      rw [← UInt8.toNat_inj]
      omega
    simp only [strncmp, chars]
    by_cases hp : p 0 = 0 <;> by_cases hq : q 0 = 0
    · simp [hp, hq]
    · have hne : ¬ (0 : UInt8) = q 0 := fun h => hq h.symm
      rw [hp] at hsub
      simp only [hp, ne_eq, not_true_eq_false, false_and, if_false, hq, not_false_eq_true, if_true, hsub, hne,
        reduceCtorEq]
    · simp only [hp, hq, ne_eq, not_false_eq_true, true_and, if_false, not_true_eq_false, if_true, reduceCtorEq, iff_false]
      rw [hq] at hsub
      rw [hsub]
      exact hp
    · by_cases he : p 0 = q 0
      · simp only [hq, he, ne_eq, not_false_eq_true, true_and, if_true, ih, List.cons.injEq]
      · simp only [hp, hq, he, ne_eq, not_false_eq_true, and_false, if_false, if_true, hsub, List.cons.injEq, false_and]

/-! ### Lemmas about paths -/

theorem length_dropWhile_le (p : UInt8 → Bool) (l : List UInt8) : (l.dropWhile p).length ≤ l.length :=
  (List.dropWhile_suffix p).length_le

theorem skipelem_length {path path' name : List UInt8} (h : skipelem path = some (path', name)) :
    path'.length < path.length := by
  unfold skipelem at h
  have hd := length_dropWhile_le (· = slash) path
  rcases hp : path.dropWhile (· = slash) with _ | ⟨c, cs⟩ <;> rw [hp] at h hd
  · cases h
  · have hc : c ≠ slash := by
      have := List.head?_dropWhile_not (· = slash) path
      rw [hp] at this
      simpa using this
    have hlen : 0 < ((c :: cs).takeWhile (· ≠ slash)).length := by
      rw [List.takeWhile_cons_of_pos (by simpa using hc)]
      exact Nat.succ_pos _
    simp only [Option.some.injEq, Prod.mk.injEq] at h
    rw [← h.1]
    have h1 := length_dropWhile_le (· = slash) ((c :: cs).drop ((c :: cs).takeWhile (· ≠ slash)).length)
    have hpos : 0 < (c :: cs).length := Nat.succ_pos _
    rw [List.length_drop] at h1
    omega

end Xv6
