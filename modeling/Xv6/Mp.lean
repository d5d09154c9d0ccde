import Xv6.Lib.Bytes

/-!
# The multiprocessor table (`mp.c`)

`mpconfig` finds the configuration table that the firmware has left in memory, and `mpinit` walks through its
entries. The loop has no step expression: each `case` moves the cursor and continues, but the `default` case
leaves the `switch` only, with the cursor where it was. Memory is addressed as `P2V` does, by physical
address.
-/

namespace Xv6.Mp

open Function (update)

abbrev NCPU : Nat := 8

abbrev MPPROC : UInt8 := 0x00
abbrev MPBUS : UInt8 := 0x01
abbrev MPIOAPIC : UInt8 := 0x02
abbrev MPIOINTR : UInt8 := 0x03
abbrev MPLINTR : UInt8 := 0x04

/-! ### The search for the table -/

section Search

variable (mem : Nat → UInt8)

def sum (addr : Nat) : Nat → UInt8
  | 0 => 0
  | n + 1 => sum addr n + mem (addr + n)

/-- `memcmp(addr, bs, len) == 0`. -/
def holds (addr : Nat) : List UInt8 → Bool
  | [] => true
  | x :: bs => mem addr = x && holds (addr + 1) bs

def searchFrom : Nat → Nat → Option Nat
  | 0, _ => none
  | n + 1, p => if holds mem p [0x5f, 0x4d, 0x50, 0x5f] ∧ sum mem p 16 = 0 then some p else searchFrom n (p + 16)

def mpsearch1 (a len : Nat) : Option Nat := searchFrom mem (len / 16) a

/-- `mpsearch`: the extended BIOS data area or the end of base memory, then the BIOS. -/
def mpsearch : Option Nat :=
  let p := Bytes.leNat mem 0x40E 2 * 16
  let first :=
    if p ≠ 0 then mpsearch1 mem p 1024
    else mpsearch1 mem ((Bytes.leNat mem 0x413 2 * 1024 + (2 ^ 32 - 1024)) % 2 ^ 32) 1024
  first.or (mpsearch1 mem 0xF0000 0x10000)

def confLength (conf : Nat) : Nat := Bytes.leNat mem (conf + 4) 2

/-- `mpconfig`: the floating pointer structure and the table. -/
def mpconfig : Option (Nat × Nat) :=
  match mpsearch mem with
  | none => none
  | some mp =>
    let conf := Bytes.leNat mem (mp + 4) 4
    if conf = 0 then none
    else if ¬ holds mem conf [0x50, 0x43, 0x4d, 0x50] then none
    else if mem (conf + 6) ≠ 1 ∧ mem (conf + 6) ≠ 4 then none
    else if sum mem conf (confLength mem conf) ≠ 0 then none
    else some (mp, conf)

end Search

/-! ### The entries -/

structure St where
  p : Nat
  ismp : Bool
  ncpu : Nat
  apicid : Nat → UInt8 -- `cpus[i].apicid`
  ioapicid : UInt8
  lapic : Nat

def St.entry (mem : Nat → UInt8) (s : St) : St :=
  if mem s.p = MPPROC then
    let s' := if s.ncpu < NCPU then { s with apicid := update s.apicid s.ncpu (mem (s.p + 1)), ncpu := s.ncpu + 1 } else s
    { s' with p := s.p + 20 }
  else if mem s.p = MPIOAPIC then { s with ioapicid := mem (s.p + 1), p := s.p + 8 }
  else if mem s.p = MPBUS ∨ mem s.p = MPIOINTR ∨ mem s.p = MPLINTR then { s with p := s.p + 8 }
  else { s with ismp := false }

/-- The loop, at most `n` rounds of it; `none` if it has not ended by then. -/
def St.loop (mem : Nat → UInt8) (e : Nat) : Nat → St → Option St
  | 0, s => if s.p < e then none else some s
  | n + 1, s => if s.p < e then loop mem e n (s.entry mem) else some s

inductive Outcome
  | noSmp -- panic "Expect to run on an SMP"
  | unsuitable -- panic "Didn't find a suitable machine"
  | ready (imcr : Bool) -- whether external interrupts are routed by the IMCR
  deriving DecidableEq

/-- `conf + 1`. -/
abbrev CONFSIZE : Nat := 44

/-- `mpinit` from the state `s`, with at most `n` rounds of its loop; `none` if it still runs. -/
def mpinit (mem : Nat → UInt8) (s : St) (n : Nat) : Option (Outcome × St) :=
  match mpconfig mem with
  | none => some (.noSmp, s)
  | some (mp, conf) =>
    let s := { s with p := conf + CONFSIZE, ismp := true, lapic := Bytes.leNat mem (conf + 36) 4 }
    (s.loop mem (conf + confLength mem conf) n).map fun s =>
      if s.ismp then (.ready (mem (mp + 12) ≠ 0), s) else (.unsuitable, s)

/-! ### Termination -/

def Known (t : UInt8) : Prop := t = MPPROC ∨ t = MPBUS ∨ t = MPIOAPIC ∨ t = MPIOINTR ∨ t = MPLINTR

def entrySize (t : UInt8) : Nat := if t = MPPROC then 20 else 8

/-- Reading entry after entry from `p` on, one comes to `q`. -/
inductive Reads (mem : Nat → UInt8) (e : Nat) : Nat → Nat → Prop
  | here (p : Nat) : Reads mem e p p
  | next {p q : Nat} (hp : p < e) (hk : Known (mem p)) (h : Reads mem e (p + entrySize (mem p)) q) : Reads mem e p q

variable {mem : Nat → UInt8} {s s' : St} {e p q mp conf : Nat}

theorem entry_known (h : Known (mem s.p)) :
    (s.entry mem).p = s.p + entrySize (mem s.p) ∧ (s.entry mem).ismp = s.ismp := by
  unfold St.entry entrySize
  split
  · split <;> exact ⟨rfl, rfl⟩
  · rename_i hproc
    split
    · exact ⟨rfl, rfl⟩
    · rename_i hio
      rw [if_pos]
      · exact ⟨rfl, rfl⟩
      · unfold Known at h
        tauto

theorem entry_unknown (h : ¬ Known (mem s.p)) : (s.entry mem).p = s.p := by
  unfold Known at h
  unfold St.entry
  rw [if_neg (by tauto), if_neg (by tauto), if_neg (by tauto)]

theorem entry_ncpu (h : s.ncpu ≤ NCPU) : (s.entry mem).ncpu ≤ NCPU := by
  unfold St.entry
  split
  · dsimp only
    split
    · rename_i hlt
      exact hlt
    · exact h
  split
  · exact h
  split <;> exact h

/-- The loop ends if all entries are known: each of them moves the cursor. -/
theorem loop_ends (h : ∀ q, Reads mem e s.p q → q < e → Known (mem q)) :
    ∃ n s', s.loop mem e n = some s' ∧ s'.ismp = s.ismp := by
  induction hn : e - s.p using Nat.strongRecOn generalizing s with
  | ind m ih =>
    by_cases hlt : s.p < e
    · have hk := h s.p (.here _) hlt
      obtain ⟨hp, hismp⟩ := entry_known hk
      have hsize : 0 < entrySize (mem s.p) := by
        unfold entrySize
        split <;> omega
      obtain ⟨n, s', hs', hkeep⟩ := ih (e - (s.entry mem).p) (by omega) (s := s.entry mem)
        (fun q hq => h q (.next hlt hk (hp ▸ hq))) rfl
      exact ⟨n + 1, s', by rw [St.loop, if_pos hlt, hs'], hkeep.trans hismp⟩
    · exact ⟨0, s, by rw [St.loop, if_neg hlt], rfl⟩

theorem loop_ncpu {n : Nat} (h : s.ncpu ≤ NCPU) (hs : s.loop mem e n = some s') : s'.ncpu ≤ NCPU := by
  induction n generalizing s with
  | zero =>
    rw [St.loop] at hs
    split at hs
    · cases hs
    · exact Option.some.inj hs ▸ h
  | succ n ih =>
    rw [St.loop] at hs
    split at hs
    · exact ih (entry_ncpu h) hs
    · exact Option.some.inj hs ▸ h

theorem loop_stuck (hlt : s.p < e) (hk : ¬ Known (mem s.p)) (n : Nat) : s.loop mem e n = none := by
  induction n generalizing s with
  | zero => rw [St.loop, if_pos hlt]
  | succ n ih =>
    have hp := entry_unknown hk
    rw [St.loop, if_pos hlt]
    exact ih (by rw [hp]; exact hlt) (by rw [hp]; exact hk)

theorem loop_runs_forever (h : Reads mem e p q) (hlt : q < e) (hk : ¬ Known (mem q)) (hp : s.p = p) (n : Nat) :
    s.loop mem e n = none := by
  induction h generalizing s n with
  | here p => exact loop_stuck (hp ▸ hlt) (hp ▸ hk) n
  | next hpe hknown h ih =>
    subst hp
    cases n with
    | zero => rw [St.loop, if_pos hpe]
    | succ n =>
      rw [St.loop, if_pos hpe]
      exact ih hlt hk (entry_known hknown).1 n

def AllKnown (mem : Nat → UInt8) (conf : Nat) : Prop :=
  ∀ q, Reads mem (conf + confLength mem conf) (conf + CONFSIZE) q → q < conf + confLength mem conf → Known (mem q)

/-- With an accepted table, `mpinit` ends, with at most `NCPU` processors and with a panic if there is an entry of an
unknown type, exactly if there is no such entry. -/
theorem mpinit_ends_iff (h : mpconfig mem = some (mp, conf)) (hcpu : s.ncpu = 0) :
    (∃ n r s', mpinit mem s n = some (r, s') ∧ s'.ncpu ≤ NCPU ∧ (¬ AllKnown mem conf → r = .unsuitable)) ↔
      AllKnown mem conf := by
  unfold mpinit
  rw [h]
  dsimp only
  generalize hs1 : ({ s with p := conf + CONFSIZE, ismp := true, lapic := Bytes.leNat mem (conf + 36) 4 } : St) = s1
  have hp : s1.p = conf + CONFSIZE := by rw [← hs1]
  have hncpu : s1.ncpu ≤ NCPU := by rw [← hs1]; exact hcpu ▸ Nat.zero_le _
  constructor
  · rintro ⟨n, r, s', hrun, -⟩ q hq hlt
    by_contra hk
    rw [loop_runs_forever hq hlt hk hp n] at hrun
    cases hrun
  · intro hall
    have hentries : ∀ q, Reads mem (conf + confLength mem conf) s1.p q → q < conf + confLength mem conf →
        Known (mem q) := by
      rw [hp]
      exact hall
    obtain ⟨n, s', hs', hismp⟩ := loop_ends hentries
    have hkeep : s'.ismp = true := by rw [hismp, ← hs1]
    refine ⟨n, .ready (mem (mp + 12) ≠ 0), s', ?_, loop_ncpu hncpu hs', fun hno => absurd hall hno⟩
    rw [hs', Option.map_some, if_pos hkeep]

/-- A memory with a floating pointer structure in the extended BIOS data area and a table behind it. -/
def firmware (checksum length : UInt8) (entries : List UInt8) (a : Nat) : UInt8 :=
  if a = 0x40F then 0x90
  else if a < 0x90000 then 0
  else ([0x5f, 0x4d, 0x50, 0x5f, 0x10, 0, 9, 0, 1, 4, 135, 0, 0, 0, 0, 0,
    0x50, 0x43, 0x4d, 0x50, length, 0, 4, checksum] ++ List.replicate 36 0 ++ entries).getD (a - 0x90000) 0

def start : St := ⟨0, false, 0, fun _ => 0, 0, 0⟩

def oneCpu : List UInt8 := [0, 1, 20, 3] ++ List.replicate 16 0 ++ [2, 4, 17, 1, 0, 0, 192, 254]

theorem mpinit_ends_iff_one_cpu : ∃ n r s', mpinit (firmware 150 72 oneCpu) start n = some (r, s') ∧
    s'.ncpu ≤ NCPU := by
  have hconf : mpconfig (firmware 150 72 oneCpu) = some (0x90000, 0x90010) := by decide +kernel
  have hall : AllKnown (firmware 150 72 oneCpu) 0x90010 := by
    intro q hq hlt
    cases hq with
    | here => exact .inl (by decide +kernel)
    | next hp hk hq =>
      cases hq with
      | here => exact .inr (.inr (.inl (by decide +kernel)))
      | next hp hk hq =>
        cases hq with
        | here => exact absurd hlt (by decide +kernel)
        | next hp => exact absurd hp (by decide +kernel)
  obtain ⟨n, r, s', hrun, hcpu, -⟩ := (mpinit_ends_iff (s := start) hconf rfl).2 hall
  exact ⟨n, r, s', hrun, hcpu⟩

/-- A table whose only entry has the type 5: it is accepted, and `mpinit` does not end. -/
theorem mpinit_loops_on_unknown : mpconfig (firmware 154 45 [5]) = some (0x90000, 0x90010) ∧
    ∀ n, mpinit (firmware 154 45 [5]) start n = none := by
  have hconf : mpconfig (firmware 154 45 [5]) = some (0x90000, 0x90010) := by decide +kernel
  refine ⟨hconf, fun n => ?_⟩
  unfold mpinit
  rw [hconf]
  dsimp only
  rw [loop_stuck (by decide +kernel) (by unfold Known; decide +kernel)]
  rfl

end Xv6.Mp
