import Xv6.Param
import Xv6.Lib.Run
import Xv6.Lib.Tally

/-!
# Admission to the log (`log.c`)

How `begin_op`, `log_write` and `end_op` share the room in the log. `begin_op` and `end_op` are one
step each, under `log.lock`; `log_write` is two, since it makes its two checks before it takes the
lock. The contents of blocks do not matter here.

`begin_op` reserves `MAXOPBLOCKS` of `LOGSIZE` places for each operation. The log of a disk made by
`mkfs` has `LOGSIZE` blocks with its header, and `log_write` refuses to run when all but the header
are in use, even for a block that is in the log already.
-/

namespace Xv6.LogReserve

open Function Tally

inductive Panic
  | tooBig -- "too big a transaction"
  | outsideOfTrans -- "log_write outside of trans"
  | committing -- "log.committing"
deriving DecidableEq

/-- Where a process is. `logged` is history: the blocks the operation has logged, each once. -/
inductive Pc
  | out
  | inOp (logged : List Nat)
  | write (logged : List Nat) (b : Nat) -- in `log_write`, before `acquire(&log.lock)`
  | commit -- in `end_op`, before `commit()` has cleared the log
  | cleared -- after `commit()`

structure St (ι : Type) where
  lh : List Nat -- `log.lh.block[0 .. log.lh.n)`
  outstanding : Int
  committing : Bool
  pc : ι → Pc
  panic : Option Panic

inductive Act (ι : Type)
  | begin (p : ι)
  | logWrite (p : ι) (b : Nat)
  | run (p : ι) -- the next step of a process in `log_write` or in `commit`
  | end (p : ι)

variable {ι : Type} [DecidableEq ι]

namespace St

variable (s : St ι)

def setPc (p : ι) (pc : Pc) : St ι := { s with pc := update s.pc p pc }

/-- `begin_op`; a process that would sleep does not step. -/
def beginOp (p : ι) : Option (St ι) :=
  match s.pc p with
  | .out =>
    if s.committing then none
    else if s.lh.length + (s.outstanding + 1) * MAXOPBLOCKS > LOGSIZE then none
    else some ({ s with outstanding := s.outstanding + 1 }.setPc p (.inOp []))
  | _ => none

/-- The checks of `log_write`, for a log of `size` blocks. -/
def logWrite (size : Nat) (p : ι) (b : Nat) : Option (St ι) :=
  match s.pc p with
  | .inOp logged =>
    if s.lh.length ≥ LOGSIZE ∨ (s.lh.length : Int) ≥ (size : Int) - 1 then some { s with panic := some .tooBig }
    else if s.outstanding < 1 then some { s with panic := some .outsideOfTrans }
    else some (s.setPc p (.write logged b))
  | _ => none

/-- The block at the end of the header, unless it is there already. -/
def addBlock (bs : List Nat) (b : Nat) : List Nat := if b ∈ bs then bs else bs ++ [b]

def endOp (p : ι) : Option (St ι) :=
  match s.pc p with
  | .inOp _ =>
    let s := { s with outstanding := s.outstanding - 1 }
    if s.committing then some { s with panic := some .committing }
    else if s.outstanding = 0 then some ({ s with committing := true }.setPc p .commit)
    else some (s.setPc p .out)
  | _ => none

/-- What is left of `log_write` after its checks, and of `end_op` after it has decided to commit. -/
def next (p : ι) : Option (St ι) :=
  match s.pc p with
  | .write logged b => some ({ s with lh := addBlock s.lh b }.setPc p (.inOp (addBlock logged b)))
  | .commit => some ({ s with lh := [] }.setPc p .cleared)
  | .cleared => some ({ s with committing := false }.setPc p .out)
  | .out | .inOp _ => none

end St

def step (size : Nat) (s : St ι) (a : Act ι) : Option (St ι) :=
  if s.panic.isSome then none
  else
    match a with
    | .begin p => s.beginOp p
    | .logWrite p b => s.logWrite size p b
    | .run p => s.next p
    | .end p => s.endOp p

def init : St ι where
  lh := []
  outstanding := 0
  committing := false
  pc := fun _ => .out
  panic := none

def logged : Pc → List Nat
  | .inOp logged | .write logged _ => logged
  | .out | .commit | .cleared => []

/-- No operation logs more than `n` different blocks. -/
def AtMost (n : Nat) (s : St ι) : Act ι → Prop
  | .logWrite p b => (St.addBlock (logged (s.pc p)) b).length ≤ n
  | .begin _ | .run _ | .end _ => True

instance (n : Nat) (s : St ι) : (a : Act ι) → Decidable (AtMost n s a)
  | .logWrite p b => inferInstanceAs (Decidable ((St.addBlock (logged (s.pc p)) b).length ≤ n))
  | .begin _ | .run _ | .end _ => inferInstanceAs (Decidable True)

/-! ### The invariant -/

def active : Pc → Nat
  | .inOp _ | .write _ _ => 1
  | .out | .commit | .cleared => 0

def commits : Pc → Nat
  | .commit | .cleared => 1
  | .out | .inOp _ | .write _ _ => 0

/-- The blocks an operation can still add to the log, when it logs one less than it has reserved. -/
def left : Pc → Nat
  | .inOp logged | .write logged _ => MAXOPBLOCKS - 1 - logged.length
  | .out | .commit | .cleared => 0

def due : Pc → List Nat
  | .write logged b => St.addBlock logged b
  | pc => logged pc

variable [Fintype ι] {s s' : St ι} {p : ι} {n : Nat}

structure Inv (s : St ι) : Prop where
  panic : s.panic = none
  outstanding : s.outstanding = tally active s.pc
  committing : tally commits s.pc = if s.committing then 1 else 0
  quiet : s.committing = true → tally active s.pc = 0
  reserved : s.lh.length + tally left s.pc ≤ LOGSIZE - 2
  inLog : ∀ p, logged (s.pc p) ⊆ s.lh
  small : ∀ p, (due (s.pc p)).length ≤ MAXOPBLOCKS - 1
  empty : s.outstanding = 0 → s.committing = false → s.lh = []
  cleared : ∀ p, s.pc p = .cleared → s.lh = []

theorem tally_same (w : Pc → Nat) {pc pc' : Pc} (hp : s.pc p = pc) (hw : w pc' = w pc) :
    tally w (update s.pc p pc') = tally w s.pc := by
  have := tally_update w s.pc p pc'
  rw [hp] at this
  omega

omit [DecidableEq ι] in
theorem tally_left_le (pc : ι → Pc) : tally left pc ≤ (MAXOPBLOCKS - 1) * tally active pc := by
  rw [tally, tally, Finset.mul_sum]
  refine Finset.sum_le_sum fun p _ => ?_
  rcases pc p with _ | logged | ⟨logged, b⟩ | _ | _ <;> simp [left, active]

theorem addBlock_length (bs : List Nat) (b : Nat) :
    (St.addBlock bs b).length = bs.length + if b ∈ bs then 0 else 1 := by
  unfold St.addBlock
  split <;> simp

theorem mem_addBlock {bs : List Nat} {b x : Nat} : x ∈ St.addBlock bs b ↔ x ∈ bs ∨ x = b := by
  unfold St.addBlock
  split
  · exact ⟨.inl, fun h => h.elim id fun h => h ▸ ‹_›⟩
  · simp

omit [DecidableEq ι] in
theorem inv_init : Inv (init : St ι) where
  panic := rfl
  outstanding := by
    have : tally active (init : St ι).pc = 0 := tally_eq_zero fun _ => rfl
    rw [this]
    rfl
  committing := tally_eq_zero fun _ => rfl
  quiet := nofun
  reserved := by
    have : tally left (init : St ι).pc = 0 := tally_eq_zero fun _ => rfl
    rw [this]
    exact Nat.zero_le _
  inLog _ := List.nil_subset _
  small _ := Nat.zero_le _
  empty _ _ := rfl
  cleared _ h := nomatch h

namespace Inv

omit [Fintype ι] in
theorem setPc (pc : Pc) (lh : List Nat) (hin : ∀ q ≠ p, logged (s.pc q) ⊆ lh) (hp : logged pc ⊆ lh)
    (hsmall : ∀ q ≠ p, (due (s.pc q)).length ≤ MAXOPBLOCKS - 1) (hp' : (due pc).length ≤ MAXOPBLOCKS - 1)
    (hc : ∀ q ≠ p, s.pc q = .cleared → lh = []) (hpc : pc = .cleared → lh = []) :
    (∀ q, logged (update s.pc p pc q) ⊆ lh) ∧ (∀ q, (due (update s.pc p pc q)).length ≤ MAXOPBLOCKS - 1) ∧
      ∀ q, update s.pc p pc q = .cleared → lh = [] :=
  ⟨(forall_update_iff s.pc fun _ pc => logged pc ⊆ lh).2 ⟨hp, hin⟩,
    (forall_update_iff s.pc fun _ pc => (due pc).length ≤ MAXOPBLOCKS - 1).2 ⟨hp', hsmall⟩,
    (forall_update_iff s.pc fun _ pc => pc = .cleared → lh = []).2 ⟨hpc, hc⟩⟩

theorem setPc_empty (h : Inv s) (p : ι) (pc : Pc) (hl : logged pc = []) (hd : due pc = []) (hc : pc ≠ .cleared) :
    (∀ q, logged (update s.pc p pc q) ⊆ s.lh) ∧
      (∀ q, (due (update s.pc p pc q)).length ≤ MAXOPBLOCKS - 1) ∧ ∀ q, update s.pc p pc q = .cleared → s.lh = [] :=
  setPc pc s.lh (fun q _ => h.inLog q) (by rw [hl]; exact List.nil_subset _) (fun q _ => h.small q)
    (by rw [hd]; exact Nat.zero_le _) (fun q _ => h.cleared q) fun h' => absurd h' hc

theorem beginOp (h : Inv s) (hs : s.beginOp p = some s') : Inv s' := by
  unfold St.beginOp at hs
  split at hs
  · rename_i hp
    split at hs
    · cases hs
    rename_i hc
    split at hs
    · cases hs
    rename_i hroom
    cases hs
    have hact := tally_update active s.pc p (.inOp [])
    have hcom := tally_update commits s.pc p (.inOp [])
    have hleft := tally_update left s.pc p (.inOp [])
    rw [hp] at hact hcom hleft
    simp only [active, commits, left, Nat.add_zero, List.length_nil, MAXOPBLOCKS] at hact hcom hleft
    have hle := tally_left_le s.pc
    have hout := h.outstanding
    have hres := h.reserved
    simp only [LOGSIZE, MAXOPBLOCKS] at hroom hle hres
    obtain ⟨h1, h2, h3⟩ := h.setPc_empty p (.inOp []) rfl rfl nofun
    refine ⟨h.panic, ?_, hcom.trans h.committing, fun hc' => absurd hc' hc, ?_, h1, h2, fun h0 => ?_, h3⟩
    · show s.outstanding + 1 = (tally active (update s.pc p (.inOp [])) : Int)
      omega
    · show s.lh.length + tally left (update s.pc p (.inOp [])) ≤ _
      simp only [LOGSIZE, MAXOPBLOCKS]
      -- alone in the log, or next to an operation that has a place to spare
      rcases Nat.eq_zero_or_pos (tally active s.pc) with h0 | h0
      · have hnil := h.empty (by omega) (by simpa using hc)
        rw [hnil]
        simp only [List.length_nil]
        omega
      · omega
    · have h0 : s.outstanding + 1 = 0 := h0
      omega
  · cases hs

theorem logWrite {b : Nat} (h : Inv s) (hok : AtMost (MAXOPBLOCKS - 1) s (.logWrite p b))
    (hs : s.logWrite LOGSIZE p b = some s') : Inv s' := by
  unfold St.logWrite at hs
  split at hs
  · rename_i l hp
    have hact := le_tally active s.pc p
    rw [hp] at hact
    have hout := h.outstanding
    have hres := h.reserved
    simp only [active] at hact
    simp only [LOGSIZE, MAXOPBLOCKS] at hres hs
    rw [if_neg (by omega), if_neg (by omega)] at hs
    cases hs
    -- the process stays in its operation
    have hsame := fun (w : Pc → Nat) (hw : w (.write l b) = w (.inOp l)) => tally_same w hp hw
    have hin := h.inLog p
    rw [AtMost, hp] at hok
    rw [hp] at hin
    obtain ⟨h1, h2, h3⟩ := setPc (p := p) (.write l b) s.lh (fun q _ => h.inLog q) hin
      (fun q _ => h.small q) hok (fun q _ => h.cleared q) nofun
    refine ⟨h.panic, ?_, (hsame commits rfl).trans h.committing, fun hc => (hsame active rfl).trans (h.quiet hc), ?_,
      h1, h2, h.empty, h3⟩
    · show s.outstanding = (tally active (update s.pc p (.write l b)) : Int)
      rw [hsame active rfl, hout]
    · show s.lh.length + tally left (update s.pc p (.write l b)) ≤ _
      rw [hsame left rfl]
      exact h.reserved
  · cases hs

theorem endOp (h : Inv s) (hs : s.endOp p = some s') : Inv s' := by
  unfold St.endOp at hs
  split at hs
  · rename_i l hp
    have hact := le_tally active s.pc p
    rw [hp] at hact
    have hout := h.outstanding
    simp only [active] at hact
    have hnot : s.committing = false := Bool.eq_false_iff.2 fun hc => by
      have := h.quiet hc
      omega
    have hcom := h.committing
    have hleft : ∀ pc, left pc = 0 → s.lh.length + tally left (update s.pc p pc) ≤ LOGSIZE - 2 := fun pc hpc => by
      have := tally_update left s.pc p pc
      have := h.reserved
      omega
    simp only [hnot, Bool.false_eq_true, if_false] at hs hcom
    split at hs
    · rename_i h0
      cases hs
      have hact' := tally_update active s.pc p .commit
      have hcom' := tally_update commits s.pc p .commit
      rw [hp] at hact' hcom'
      simp only [active, commits] at hact' hcom'
      obtain ⟨h1, h2, h3⟩ := h.setPc_empty p .commit rfl rfl nofun
      refine ⟨h.panic, ?_, ?_, fun _ => ?_, hleft .commit rfl, h1, h2, nofun, h3⟩
      · show s.outstanding - 1 = (tally active (update s.pc p .commit) : Int)
        omega
      · show tally commits (update s.pc p .commit) = 1
        omega
      · show tally active (update s.pc p .commit) = 0
        omega
    · rename_i h0
      cases hs
      have hact' := tally_update active s.pc p .out
      have hcom' := tally_update commits s.pc p .out
      rw [hp] at hact' hcom'
      simp only [active, commits] at hact' hcom'
      obtain ⟨h1, h2, h3⟩ := h.setPc_empty p .out rfl rfl nofun
      refine ⟨h.panic, ?_, ?_, nofun, hleft .out rfl, h1, h2, fun hz => absurd hz h0, h3⟩
      · show s.outstanding - 1 = (tally active (update s.pc p .out) : Int)
        omega
      · show tally commits (update s.pc p .out) = 0
        omega
  · cases hs

/-- A block that is new in the log is new to the operation that logs it. -/
theorem write {l : List Nat} {b : Nat} (h : Inv s) (hp : s.pc p = .write l b) :
    Inv ({ s with lh := St.addBlock s.lh b }.setPc p (.inOp (St.addBlock l b))) := by
  have hsame := fun (w : Pc → Nat) (hw : w (.inOp (St.addBlock l b)) = w (.write l b)) => tally_same w hp hw
  have hsub := h.inLog p
  have hle := h.small p
  have hact := le_tally active s.pc p
  rw [hp] at hsub hle hact
  simp only [logged, due, active] at hsub hle hact
  have hgrow : ∀ {bs : List Nat}, bs ⊆ s.lh → bs ⊆ St.addBlock s.lh b := fun hbs x hx =>
    mem_addBlock.2 (.inl (hbs hx))
  have hbusy : s.committing = false := Bool.eq_false_iff.2 fun hc => by
    have := h.quiet hc
    omega
  have hcl : ∀ q, s.pc q ≠ .cleared := fun q hq => by
    have h1 := le_tally commits s.pc q
    have h2 := h.committing
    rw [hq] at h1
    rw [hbusy, if_neg Bool.false_ne_true] at h2
    simp only [commits] at h1
    omega
  obtain ⟨h1, h2, h3⟩ := setPc (p := p) (.inOp (St.addBlock l b)) (St.addBlock s.lh b)
    (fun q _ => hgrow (h.inLog q))
    (fun x hx => mem_addBlock.2 ((mem_addBlock.1 hx).imp (fun h => hsub h) id)) (fun q _ => h.small q) hle
    (fun q _ hq => absurd hq (hcl q)) nofun
  refine ⟨h.panic, ?_, (hsame commits rfl).trans h.committing, fun hc => (hsame active rfl).trans (h.quiet hc), ?_,
    h1, h2, fun h0 => ?_, h3⟩
  · show s.outstanding = (tally active (update s.pc p (.inOp (St.addBlock l b))) : Int)
    rw [hsame active rfl]
    exact h.outstanding
  · show (St.addBlock s.lh b).length + tally left (update s.pc p (.inOp (St.addBlock l b))) ≤ _
    have hleft := tally_update left s.pc p (.inOp (St.addBlock l b))
    have hres := h.reserved
    rw [hp] at hleft
    rw [addBlock_length] at hle
    simp only [left, addBlock_length] at hleft ⊢
    have himp : b ∈ l → b ∈ s.lh := fun hb => hsub hb
    by_cases hb : b ∈ s.lh <;> by_cases hb' : b ∈ l <;>
      simp only [hb, hb', if_true, if_false, MAXOPBLOCKS, LOGSIZE] at hle hleft hres ⊢
    · omega
    · omega
    · exact absurd (himp hb') hb
    · omega
  · have h0 : s.outstanding = 0 := h0
    have := h.outstanding
    omega

theorem commit (h : Inv s) (hp : s.pc p = .commit) : Inv ({ s with lh := [] }.setPc p .cleared) := by
  have hsame := fun (w : Pc → Nat) (hw : w .cleared = w .commit) => tally_same w hp hw
  have hc : s.committing = true := by
    have h1 := le_tally commits s.pc p
    have h2 := h.committing
    rw [hp] at h1
    simp only [commits] at h1
    split at h2
    · assumption
    · omega
  have hidle : ∀ q, logged (s.pc q) = [] := fun q => by
    have := eq_zero_of_tally_eq_zero (h.quiet hc) q
    rcases hq : s.pc q with _ | l | ⟨l, b⟩ | _ | _ <;> rw [hq] at this <;> first | rfl | cases this
  obtain ⟨h1, h2, h3⟩ := setPc (p := p) .cleared [] (fun q _ => by rw [hidle q]; exact List.nil_subset _) (List.nil_subset _)
    (fun q _ => h.small q) (Nat.zero_le _) (fun _ _ _ => rfl) fun _ => rfl
  refine ⟨h.panic, ?_, (hsame commits rfl).trans h.committing, fun hc => (hsame active rfl).trans (h.quiet hc), ?_,
    h1, h2, fun _ _ => rfl, h3⟩
  · show s.outstanding = (tally active (update s.pc p .cleared) : Int)
    rw [hsame active rfl]
    exact h.outstanding
  · show 0 + tally left (update s.pc p .cleared) ≤ _
    rw [hsame left rfl]
    have := h.reserved
    omega

theorem finish (h : Inv s) (hp : s.pc p = .cleared) : Inv ({ s with committing := false }.setPc p .out) := by
  have hact := tally_update active s.pc p .out
  have hcom := tally_update commits s.pc p .out
  have hleft := tally_update left s.pc p .out
  have h1 := le_tally commits s.pc p
  have h2 := h.committing
  rw [hp] at hact hcom hleft h1
  simp only [active, commits, left, Nat.add_zero] at hact hcom hleft h1
  have hone : tally commits s.pc = 1 := by
    split at h2 <;> omega
  obtain ⟨h3, h4, h5⟩ := h.setPc_empty p .out rfl rfl nofun
  refine ⟨h.panic, ?_, ?_, nofun, ?_, h3, h4, fun _ _ => h.cleared p hp, h5⟩
  · show s.outstanding = (tally active (update s.pc p .out) : Int)
    rw [hact]
    exact h.outstanding
  · show tally commits (update s.pc p .out) = 0
    omega
  · show s.lh.length + tally left (update s.pc p .out) ≤ _
    rw [hleft]
    exact h.reserved

theorem next (h : Inv s) (hs : s.next p = some s') : Inv s' := by
  unfold St.next at hs
  rcases hp : s.pc p with _ | l | ⟨l, b⟩ | _ | _ <;> rw [hp] at hs <;> cases hs
  · exact h.write hp
  · exact h.commit hp
  · exact h.finish hp

theorem step {a : Act ι} (h : Inv s) (hok : AtMost (MAXOPBLOCKS - 1) s a) (hs : step LOGSIZE s a = some s') :
    Inv s' := by
  unfold LogReserve.step at hs
  rw [h.panic] at hs
  simp only [Option.isSome, Bool.false_eq_true, if_false] at hs
  rcases a with p | ⟨p, b⟩ | p | p
  · exact h.beginOp hs
  · exact h.logWrite hok hs
  · exact h.next hs
  · exact h.endOp hs

end Inv

/-- Operations that log one block less than they have reserved never fill the log. -/
theorem reachable_no_panic (h : Machine.Reach (step LOGSIZE) (AtMost (MAXOPBLOCKS - 1)) init s) : s.panic = none :=
  (h.inv inv_init fun _ _ _ hi hok hs => hi.step hok hs).panic

/-- Group commit: `outstanding` counts the operations in progress, whose blocks are all in the header; there is none
of them during a commit, and no second commit; and `begin_op` waits only for somebody in an operation or a commit. -/
theorem reachable_group_commit (h : Machine.Reach (step LOGSIZE) (AtMost (MAXOPBLOCKS - 1)) init s) :
    s.outstanding = tally active s.pc ∧ (∀ p, logged (s.pc p) ⊆ s.lh) ∧
    (∀ p, commits (s.pc p) = 1 → ∀ q, active (s.pc q) = 0 ∧ (q ≠ p → commits (s.pc q) = 0)) ∧
    ∀ p, s.pc p = .out → step LOGSIZE s (.begin p) = none → ∃ q, s.pc q ≠ .out := by
  have hi : Inv s := h.inv inv_init fun _ _ _ hi hok hs => hi.step hok hs
  refine ⟨hi.outstanding, hi.inLog, fun p hp q => ?_, fun p hp hwait => ?_⟩
  · have hle := le_tally commits s.pc p
    have hcom := hi.committing
    have hc : s.committing = true := by
      by_contra hc
      rw [if_neg hc] at hcom
      omega
    refine ⟨eq_zero_of_tally_eq_zero (hi.quiet hc) q, fun hne => ?_⟩
    -- without the commit of `p` there is none
    have hrest := tally_update commits s.pc p .out
    rw [hcom, hp, if_pos hc] at hrest
    have hq := eq_zero_of_tally_eq_zero (Nat.add_right_cancel (hrest.trans (Nat.add_comm 1 0))) q
    rwa [update_of_ne hne] at hq
  · by_contra hall
    have hout : ∀ q, s.pc q = .out := fun q => not_not.1 (not_exists.1 hall q)
    have hzero : ∀ w : Pc → Nat, w .out = 0 → tally w s.pc = 0 := fun w hw => tally_eq_zero fun q => by rw [hout q, hw]
    have hnone : s.outstanding = 0 := by rw [hi.outstanding, hzero active rfl]; rfl
    have hidle : s.committing = false := by
      have hcom := hi.committing
      rw [hzero commits rfl] at hcom
      by_contra hc
      rw [if_pos (by simpa using hc)] at hcom
      cases hcom
    simp [step, hi.panic, St.beginOp, hp, hidle, hnone, hi.empty hnone hidle, MAXOPBLOCKS, LOGSIZE] at hwait

/-- Three operations at once, each of which logs `n` blocks that the others do not. -/
def threeOps (n : Nat) : List (Act (Fin 3)) :=
  [.begin 0, .begin 1, .begin 2] ++
    (List.range (3 * n)).flatMap fun b => [.logWrite (Fin.ofNat 3 (b / n)) b, .run (Fin.ofNat 3 (b / n))]

theorem reachable_no_panic_threeOps : ∃ s, Machine.runOk (step LOGSIZE) (AtMost (MAXOPBLOCKS - 1)) init
    (threeOps 9) = some s ∧ s.lh.length = 27 ∧ s.panic = none := by
  have heval : (Machine.runOk (step LOGSIZE) (AtMost (MAXOPBLOCKS - 1)) init (threeOps 9)).any
      (fun s => s.lh.length == 27) = true := by decide +kernel
  obtain ⟨s, hs, hlen⟩ := (Option.any_eq_true _ _).1 heval
  exact ⟨s, hs, by simpa using hlen, reachable_no_panic (.of_runOk hs)⟩

theorem reachable_group_commit_threeOps : ∃ s, Machine.runOk (step LOGSIZE) (AtMost (MAXOPBLOCKS - 1)) init
    (threeOps 9) = some s ∧ logged (s.pc 0) ≠ [] ∧ ∀ p, logged (s.pc p) ⊆ s.lh := by
  have heval : (Machine.runOk (step LOGSIZE) (AtMost (MAXOPBLOCKS - 1)) init (threeOps 9)).any
      (fun s => logged (s.pc 0) ≠ []) = true := by decide +kernel
  obtain ⟨s, hs, hlogged⟩ := (Option.any_eq_true _ _).1 heval
  exact ⟨s, hs, of_decide_eq_true hlogged, (reachable_group_commit (.of_runOk hs)).2.1⟩

/-- The last of thirty blocks is refused. -/
theorem threeOps_too_big : ∃ s, Machine.Reach (step LOGSIZE) (AtMost MAXOPBLOCKS) (init : St (Fin 3)) s ∧
    s.panic = some .tooBig := by
  have heval : (Machine.runOk (step LOGSIZE) (AtMost MAXOPBLOCKS) init ((threeOps 10).take 62)).any
      (fun s => s.panic == some .tooBig) = true := by decide +kernel
  obtain ⟨s, hs, hpanic⟩ := (Option.any_eq_true _ _).1 heval
  exact ⟨s, .of_runOk hs, by simpa using hpanic⟩

end Xv6.LogReserve
