import Xv6.Lib.Exec

/-!
# The command parser of the shell (`sh.c`)

`parsecmd` works on a line in memory, here a list of bytes: the line ends before the first 0, and behind
the end of the list there is a 0 too. Pointers into the line are indices. The functions share the cursor
`*ps`, which is the state. Loops and recursion take the number of rounds that they may still make.

The strings of a command are not copied: a word is the pair of the pointers to its begin and its end, and
`nulterminate` writes a 0 at the ends of all words when the line has been parsed. The memory for the nodes
of the tree is there.
-/

namespace Xv6.Shell

abbrev MAXARGS : Nat := 10

abbrev O_RDONLY : Nat := 0x000
abbrev O_WRONLY : Nat := 0x001
abbrev O_CREATE : Nat := 0x200

structure Word where
  q : Nat
  eq : Nat
  deriving DecidableEq

inductive Cmd
  | exec (argv : List Word)
  | redir (cmd : Cmd) (file : Word) (mode fd : Nat)
  | pipe (left right : Cmd)
  | list (left right : Cmd)
  | back (cmd : Cmd)
  deriving DecidableEq

inductive Panic
  | leftovers
  | missingFile
  | parseblock
  | missingParen
  | notWord
  | tooManyArgs
  deriving DecidableEq

inductive Stop
  | panic (p : Panic)
  | loops -- out of rounds
  deriving DecidableEq

abbrev M := Exec Nat Stop

def panic {α : Type} (p : Panic) : M α := Exec.stop (.panic p)

scoped instance coeChar : Coe Char UInt8 := ⟨Char.toUInt8⟩

def whitespace : List UInt8 := [' ', '\t', '\r', '\n', '\x0b']

def symbols : List UInt8 := ['<', '|', '>', '&', ';', '(', ')']

def cstr (s : List UInt8) : List UInt8 := s.takeWhile (· ≠ 0)

section Parse

variable (s : List UInt8) (es : Nat)

def byte (i : Nat) : UInt8 := s.getD i 0

/-- Goes on while the characters before `es` are of a kind. -/
def skip (kind : UInt8 → Bool) (i : Nat) : Nat :=
  if i < es ∧ kind (byte s i) = true then skip kind (i + 1) else i
termination_by es - i

def isWhite (c : UInt8) : Bool := whitespace.contains c

def isPlain (c : UInt8) : Bool := !whitespace.contains c && !symbols.contains c

/-- The kind of the token at `i`, and its end. -/
def scan (i : Nat) : UInt8 × Nat :=
  let c := byte s i
  if c = 0 then (0, i)
  else if c = '|' ∨ c = '(' ∨ c = ')' ∨ c = ';' ∨ c = '&' ∨ c = '<' then (c, i + 1)
  else if c = '>' then
    if byte s (i + 1) = '>' then ('+', i + 2) else (c, i + 1)
  else ('a', skip s es isPlain i)

def gettoken : M (UInt8 × Word) := do
  let ps ← Exec.get
  let q := skip s es isWhite ps
  let (ret, eq) := scan s es q
  Exec.modify fun _ => skip s es isWhite eq
  return (ret, ⟨q, eq⟩)

def peek (toks : List UInt8) : M Bool := do
  Exec.modify (skip s es isWhite)
  let ps ← Exec.get
  return byte s ps ≠ 0 ∧ toks.contains (byte s ps)

def parsebacks (cmd : Cmd) : Nat → M Cmd
  | 0 => Exec.stop .loops
  | n + 1 => do
    if ← peek s es ['&'] then do
      let _ ← gettoken s es
      parsebacks cmd.back n
    else return cmd

/-- The node for a redirection by the token `tok`; of another token `parseredirs` makes none. -/
def redircmd (cmd : Cmd) (tok : UInt8) (file : Word) : Cmd :=
  if tok = '<' then .redir cmd file O_RDONLY 0
  else if tok = '>' then .redir cmd file (O_WRONLY ||| O_CREATE) 1
  else if tok = '+' then .redir cmd file (O_WRONLY ||| O_CREATE) 1
  else cmd

def parseredirs (cmd : Cmd) : Nat → M Cmd
  | 0 => Exec.stop .loops
  | n + 1 => do
    if ← peek s es ['<', '>'] then do
      let (tok, _) ← gettoken s es
      let (ret, file) ← gettoken s es
      if ret ≠ 'a' then panic .missingFile
      else parseredirs (redircmd cmd tok file) n
    else return cmd

/-- `cmd->argv[argc] = q` and `cmd->eargv[argc] = eq` in the `execcmd` under the redirections. -/
def Cmd.addArg (w : Word) : Cmd → Cmd
  | .exec argv => .exec (argv ++ [w])
  | .redir cmd file mode fd => .redir (cmd.addArg w) file mode fd
  | cmd => cmd

def parseargs (ret : Cmd) (argc : Nat) : Nat → M Cmd
  | 0 => Exec.stop .loops
  | n + 1 => do
    if ← peek s es ['|', ')', '&', ';'] then return ret
    else do
      let (tok, w) ← gettoken s es
      if tok = 0 then return ret
      else if tok ≠ 'a' then panic .notWord
      else if argc + 1 ≥ MAXARGS then panic .tooManyArgs
      else do
        let ret ← parseredirs s es (ret.addArg w) n
        parseargs ret (argc + 1) n

mutual

def parseline : Nat → M Cmd
  | 0 => Exec.stop .loops
  | n + 1 => do
    let cmd ← parsepipe n
    let cmd ← parsebacks s es cmd n
    if ← peek s es [';'] then do
      let _ ← gettoken s es
      let right ← parseline n
      return .list cmd right
    else return cmd

def parsepipe : Nat → M Cmd
  | 0 => Exec.stop .loops
  | n + 1 => do
    let cmd ← parseexec n
    if ← peek s es ['|'] then do
      let _ ← gettoken s es
      let right ← parsepipe n
      return .pipe cmd right
    else return cmd

def parseblock : Nat → M Cmd
  | 0 => Exec.stop .loops
  | n + 1 => do
    if ← peek s es ['('] then do
      let _ ← gettoken s es
      let cmd ← parseline n
      if ← peek s es [')'] then do
        let _ ← gettoken s es
        parseredirs s es cmd n
      else panic .missingParen
    else panic .parseblock

def parseexec : Nat → M Cmd
  | 0 => Exec.stop .loops
  | n + 1 => do
    if ← peek s es ['('] then parseblock n
    else do
      let ret ← parseredirs s es (.exec []) n
      parseargs s es ret 0 n

end

end Parse

/-- Writes 0 at the ends of the words. -/
def nulterminate : Cmd → List UInt8 → List UInt8
  | .exec argv, s => argv.foldl (fun s w => s.set w.eq 0) s
  | .redir cmd file _ _, s => (nulterminate cmd s).set file.eq 0
  | .pipe left right, s => nulterminate right (nulterminate left s)
  | .list left right, s => nulterminate right (nulterminate left s)
  | .back cmd, s => nulterminate cmd s

/-- `parsecmd` before `nulterminate`. -/
def parsewhole (n : Nat) (s : List UInt8) : M Cmd := do
  let es := (cstr s).length
  let cmd ← parseline s es n
  let _ ← peek s es []
  let ps ← Exec.get
  if ps ≠ es then panic .leftovers else return cmd

/-- The tree of the line at `s`, and the memory with the words terminated. -/
def parsecmd (n : Nat) (s : List UInt8) : Except Stop (Cmd × List UInt8) :=
  match parsewhole n s 0 with
  | (.ok cmd, _) => .ok (cmd, nulterminate cmd s)
  | (.error e, _) => .error e

end Xv6.Shell
