import Xv6.ShellStrings
import Xv6.Sysfile

/-!
# Running a command (`sh.c`)

`runcmd` sets up the descriptors of a command by `close`, `open`, `dup` and `pipe`. It never says which
descriptor it wants: it closes one and counts on the kernel to hand out the lowest that is free.

A run is the tree of the processes it makes. Files are named by the node of the command that opened them.
-/

namespace Xv6.Shell

open Function

/-- The way from the root of a command to one of its nodes. -/
abbrev Node := List Nat

/-- What a descriptor stands for: something the shell was given, a file, or an end of a pipe. -/
inductive Obj
  | given (k : Nat)
  | file (node : Node) (name : List UInt8) (mode : Nat)
  | pipe (node : Node) (writable : Bool)
  deriving DecidableEq

abbrev Fds := Nat → Option Obj

def fdalloc (fds : Fds) : Option Nat := (List.range NOFILE).find? fun fd => (fds fd).isNone

def close (fds : Fds) (fd : Nat) : Fds := update fds fd none

def dup (fds : Fds) (fd : Nat) : Fds :=
  match fds fd, fdalloc fds with
  | some o, some k => update fds k (some o)
  | _, _ => fds

/-- `pipe(p)`: the two descriptors, and the table with them. -/
def pipe (fds : Fds) (node : Node) : Option (Nat × Nat × Fds) := do
  let p₀ ← fdalloc fds
  let fds := update fds p₀ (some (.pipe node false))
  let p₁ ← fdalloc fds
  return (p₀, p₁, update fds p₁ (some (.pipe node true)))

section Run

-- the strings are in `mem`, and `opens` says whether the `open` at a node succeeds
variable (mem : List UInt8) (opens : Node → List UInt8 → Nat → Bool)

end Run

/-- Redirections are of the standard descriptors. -/
def Cmd.Low : Cmd → Prop
  | .exec _ => True
  | .redir cmd _ _ fd => fd < 3 ∧ cmd.Low
  | .pipe left right => left.Low ∧ right.Low
  | .list left right => left.Low ∧ right.Low
  | .back cmd => cmd.Low

variable {mem s buf : List UInt8} {opens : Node → List UInt8 → Nat → Bool} {io : Nat → Obj} {fd n : Nat} {c : Cmd}

theorem low_wrap (hc : c.Low) (rs : List (Tok × Word)) : (wrap c rs).Low := by
  induction rs generalizing c with
  | nil => exact hc
  | cons r rs ih =>
    have hredir : (redirect c r.2 r.1).Low := by
      unfold redirect
      split <;> exact ⟨by omega, hc⟩
    exact ih hredir

theorem low_backs (hc : c.Low) (k : Nat) : (Cmd.back^[k] c).Low := by
  induction k generalizing c with
  | zero => exact hc
  | succ k ih => exact ih (c := c.back) hc

theorem Derives.low {nt : Nonterminal} {us : List Tok} (h : Derives nt us c) : c.Low := by
  induction h with
  | line k h ih => exact low_backs ih k
  | list k h h' ih ih' => exact ⟨low_backs ih k, ih'⟩
  | one h ih => exact ih
  | pipe h h' ih ih' => exact ⟨ih, ih'⟩
  | block h hr ih => exact low_wrap ih _
  | simple hr ha hlen => exact low_wrap (c := .exec _) trivial _

end Xv6.Shell
