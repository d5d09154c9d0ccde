import Xv6.Lib.Exec
import Xv6.Lib.Run
import Xv6.Lib.Bytes

/-!
# Spinlocks and interrupts (`spinlock.c`)

`pushcli` and `popcli` nest: interrupts stay off until the last `popcli`, which restores the flag that the
first `pushcli` has found. The calls need not be nested as the locks are; only their numbers count. The CPU
is one that `mycpu` finds. `ncli` is taken to be unbounded: with `acquire` and `release` as callers it is the
number of locks held (`ncli_eq_held`), and inside them at most two more.
-/

namespace Xv6.Spinlock

open Exec

/-- The interrupt flag of a CPU, and its fields of `struct cpu`. -/
structure Cpu where
  flIf : Bool
  ncli : Int
  intena : Bool

inductive Stop
  | mycpu -- "mycpu called with interrupts enabled"
  | popcliInterruptible -- "popcli - interruptible"
  | popcli
  | acquire
  | release
  | spins -- the lock is never given up

def mycpu : Exec Cpu Stop Unit := do
  let c ← get
  when c.flIf (stop .mycpu)

def pushcli : Exec Cpu Stop Unit := do
  let eflags ← get
  modify fun c => { c with flIf := false }
  mycpu
  modify fun c => { c with intena := if c.ncli = 0 then eflags.flIf else c.intena }
  mycpu
  modify fun c => { c with ncli := c.ncli + 1 }

def popcli : Exec Cpu Stop Unit := do
  let c ← get
  when c.flIf (stop .popcliInterruptible)
  mycpu
  modify fun c => { c with ncli := c.ncli - 1 }
  let c ← get
  when (c.ncli < 0) (stop .popcli)
  mycpu
  when (c.ncli = 0 ∧ c.intena) (modify fun c => { c with flIf := true })

/-! ### Sequences of calls -/

inductive Op
  | push
  | pop
deriving DecidableEq

def Op.call : Op → Exec Cpu Stop Unit
  | .push => pushcli
  | .pop => popcli

def calls : List Op → Exec Cpu Stop Unit
  | [] => pure ()
  | op :: ops => do
    op.call
    calls ops

/-- No part of the sequence, from its beginning, has more pops than `d` and its pushes. -/
def Nested (d : Nat) (ops : List Op) : Prop := ∀ pre, pre <+: ops → pre.count .pop ≤ d + pre.count .push

/-- `d` calls of `pushcli` are open; the flag was `flag` before the first of them. -/
structure Open (flag : Bool) (d : Nat) (c : Cpu) : Prop where
  ncli : c.ncli = d
  off : 0 < d → c.flIf = false
  saved : 0 < d → c.intena = flag
  closed : d = 0 → c.flIf = flag

variable {flag : Bool} {d : Nat} {c : Cpu} {ops : List Op}

theorem pushcli_run (c : Cpu) :
    pushcli c = (.ok (), ⟨false, c.ncli + 1, if c.ncli = 0 then c.flIf else c.intena⟩) := rfl

theorem Open.pushcli (h : Open flag d c) : ∃ c', pushcli c = (.ok (), c') ∧ Open flag (d + 1) c' := by
  refine ⟨_, pushcli_run c, ?_, fun _ => rfl, fun _ => ?_, nofun⟩
  · dsimp only
    rw [h.ncli, Int.natCast_succ]
  · dsimp only
    rw [h.ncli]
    rcases Nat.eq_zero_or_pos d with rfl | hd
    · exact h.closed rfl
    · rw [if_neg (by omega)]
      exact h.saved hd

theorem popcli_run (hoff : c.flIf = false) (hpos : 0 < c.ncli) :
    popcli c = (.ok (), ⟨c.ncli - 1 = 0 ∧ c.intena = true, c.ncli - 1, c.intena⟩) := by
  obtain ⟨flIf, ncli, intena⟩ := c
  dsimp only at hoff hpos
  subst hoff
  have hneg : ¬ ncli - 1 < 0 := by omega
  show (when (ncli - 1 < 0) (stop .popcli) >>= fun _ => mycpu >>= fun _ =>
    when (ncli - 1 = 0 ∧ intena = true) (Exec.modify fun c => { c with flIf := true })) ⟨false, ncli - 1, intena⟩ = _
  rw [when, if_neg hneg]
  show when (ncli - 1 = 0 ∧ intena = true) (Exec.modify fun c : Cpu => { c with flIf := true })
    (⟨false, ncli - 1, intena⟩ : Cpu) = _
  unfold when
  split
  · rename_i h
    rw [decide_eq_true h]
    rfl
  · rename_i h
    rw [decide_eq_false h]
    rfl

theorem Open.popcli (h : Open flag (d + 1) c) : ∃ c', popcli c = (.ok (), c') ∧ Open flag d c' := by
  have hncli := h.ncli
  refine ⟨_, popcli_run (h.off (Nat.succ_pos d)) (by omega), ?_, fun hd => ?_, fun hd => ?_, fun hd => ?_⟩
  · dsimp only
    omega
  · exact decide_eq_false fun hone => by omega
  · exact h.saved (Nat.succ_pos d)
  · subst hd
    have hsaved := h.saved (Nat.succ_pos 0)
    cases flag
    · exact decide_eq_false fun hone => by rw [hsaved] at hone; exact Bool.false_ne_true hone.2
    · exact decide_eq_true ⟨by omega, hsaved⟩

theorem Nested.cons {op : Op} (h : Nested d (op :: ops)) {pre : List Op} (hpre : pre <+: ops) :
    (op :: pre).count .pop ≤ d + (op :: pre).count .push :=
  h (op :: pre) (List.cons_prefix_cons.2 ⟨rfl, hpre⟩)

theorem Open.calls (h : Open flag d c) (hops : Nested d ops) :
    ∃ c' d', calls ops c = (.ok (), c') ∧ d' + ops.count .pop = d + ops.count .push ∧ Open flag d' c' := by
  induction ops generalizing d c with
  | nil => exact ⟨c, d, rfl, rfl, h⟩
  | cons op ops ih =>
    cases op with
    | push =>
      obtain ⟨c1, hrun, h1⟩ := h.pushcli
      obtain ⟨c', d', hcalls, hcount, h'⟩ := ih h1 fun pre hpre => by
        have := hops.cons hpre
        rw [List.count_cons_of_ne (by decide), List.count_cons_self] at this
        omega
      refine ⟨c', d', (bind_of_ok hrun).trans hcalls, ?_, h'⟩
      rw [List.count_cons_of_ne (by decide), List.count_cons_self]
      omega
    | pop =>
      have hfirst := hops.cons (List.nil_prefix (l := ops))
      rw [List.count_cons_self, List.count_cons_of_ne (by decide), List.count_nil, List.count_nil] at hfirst
      obtain ⟨d, rfl⟩ := Nat.exists_eq_succ_of_ne_zero (n := d) (by omega)
      obtain ⟨c1, hrun, h1⟩ := h.popcli
      obtain ⟨c', d', hcalls, hcount, h'⟩ := ih h1 fun pre hpre => by
        have := hops.cons hpre
        rw [List.count_cons_self, List.count_cons_of_ne (by decide)] at this
        omega
      refine ⟨c', d', (bind_of_ok hrun).trans hcalls, ?_, h'⟩
      rw [List.count_cons_self, List.count_cons_of_ne (by decide)]
      omega

/-- From `ncli` 0, after every part of a sequence of `pushcli` and `popcli` calls without too many pops: no call has
panicked, interrupts are off if there were more pushes than pops, and the flag is as before if there were as many. -/
theorem pushcli_popcli_nest (hc : c.ncli = 0) (hops : Nested 0 ops) {pre : List Op} (hpre : pre <+: ops) :
    ∃ c', calls pre c = (.ok (), c') ∧ (pre.count .pop < pre.count .push → c'.flIf = false) ∧
      (pre.count .pop = pre.count .push → c'.flIf = c.flIf) := by
  have hstart : Open c.flIf 0 c := ⟨hc, nofun, nofun, fun _ => rfl⟩
  obtain ⟨c', d, hrun, hcount, h⟩ := hstart.calls fun pre' hpre' => hops pre' (hpre'.trans hpre)
  exact ⟨c', hrun, fun hlt => h.off (by omega), fun heq => h.closed (by omega)⟩

/-- Two locks that are released in the order in which they were acquired. -/
theorem pushcli_popcli_nest_two : ∃ c', calls [.push, .push, .pop, .pop] ⟨true, 0, false⟩ = (.ok (), c') ∧
    c'.flIf = true := by
  have hall : ∀ pre ∈ [Op.push, .push, .pop, .pop].inits, pre.count .pop ≤ 0 + pre.count .push := by decide
  have hnested : Nested 0 [.push, .push, .pop, .pop] := fun pre hpre => hall pre ((List.mem_inits ..).2 hpre)
  obtain ⟨c', hrun, -, heq⟩ := pushcli_popcli_nest (c := ⟨true, 0, false⟩) rfl hnested List.prefix_rfl
  exact ⟨c', hrun, heq rfl⟩

/-! ### Locks -/

/-- `struct spinlock`; the CPUs have numbers. -/
structure Lock where
  locked : Bool
  cpu : Option Nat
deriving DecidableEq

/-- One CPU, number `me`, and all spinlocks. -/
structure St (ι : Type) where
  cpu : Cpu
  lock : ι → Lock

section Locks

open Function (update)

variable {ι : Type} (me : Nat) (lk : ι)

def onCpu {α : Type} (m : Exec Cpu Stop α) : Exec (St ι) Stop α := zoom St.cpu (fun s c => { s with cpu := c }) id m

def setLock [DecidableEq ι] (l : Lock) : Exec (St ι) Stop Unit := Exec.modify fun s => { s with lock := update s.lock lk l }

def holding : Exec (St ι) Stop Bool := do
  onCpu pushcli
  let s ← get
  onCpu mycpu
  let r := (s.lock lk).locked && (s.lock lk).cpu == some me
  onCpu popcli
  return r

/-- `acquire`. The loop around `xchg` ends when it finds the lock free. -/
def acquire [DecidableEq ι] : Exec (St ι) Stop Unit := do
  onCpu pushcli
  let r ← holding me lk
  when r (stop .acquire)
  let s ← get
  when (s.lock lk).locked (stop .spins)
  onCpu mycpu
  setLock lk ⟨true, some me⟩

def release [DecidableEq ι] : Exec (St ι) Stop Unit := do
  let r ← holding me lk
  when (!r) (stop .release)
  setLock lk ⟨false, none⟩
  onCpu popcli

inductive Act (ι : Type)
  | acquire (lk : ι)
  | release (lk : ι)
  | others (lk : ι) (l : Lock) -- another CPU takes or gives up a lock

/-- The calls of this CPU, in any order; one that panics is not a step, and one that spins waits for the others. -/
def step [DecidableEq ι] (s : St ι) : Act ι → Option (St ι)
  | .acquire lk =>
    match acquire me lk s with
    | (.ok _, s') => some s'
    | _ => none
  | .release lk =>
    match release me lk s with
    | (.ok _, s') => some s'
    | _ => none
  | .others lk l =>
    if (s.lock lk).cpu = some me ∨ l.cpu = some me then none else some { s with lock := update s.lock lk l }

def held [Fintype ι] (s : St ι) : Finset ι := Finset.univ.filter fun lk => (s.lock lk).cpu = some me

variable {me lk} {s s' : St ι}

theorem onCpu_mycpu (h : s.cpu.flIf = false) : onCpu mycpu s = (.ok (), s) := by
  have hoff : mycpu s.cpu = (.ok (), s.cpu) := by
    unfold mycpu when
    rw [get_bind_run, if_neg (by rw [h]; decide), pure_run]
  exact zoom_ok hoff

theorem holding_run (h : Open flag d s.cpu) : ∃ c', holding me lk s =
    (.ok ((s.lock lk).locked && (s.lock lk).cpu == some me), { s with cpu := c' }) ∧ Open flag d c' := by
  obtain ⟨c1, hpush, h1⟩ := h.pushcli
  obtain ⟨c2, hpop, h2⟩ := h1.popcli
  refine ⟨c2, ?_, h2⟩
  have hpush' : onCpu pushcli s = (.ok (), { s with cpu := c1 }) := zoom_ok hpush
  have hmycpu : onCpu mycpu { s with cpu := c1 } = (.ok (), { s with cpu := c1 }) :=
    onCpu_mycpu (h1.off (Nat.succ_pos d))
  have hpop' : onCpu popcli { s with cpu := c1 } = (.ok (), { s with cpu := c2 }) := zoom_ok hpop
  unfold holding
  rw [bind_of_ok hpush', get_bind_run, bind_of_ok hmycpu, bind_of_ok hpop']
  rfl

variable [DecidableEq ι]

theorem acquire_ok (h : Open flag d s.cpu) (hs : acquire me lk s = (.ok (), s')) : (s.lock lk).locked = false ∧
    ∃ c', s' = ⟨c', update s.lock lk ⟨true, some me⟩⟩ ∧ Open flag (d + 1) c' := by
  obtain ⟨c1, hpush, h1⟩ := h.pushcli
  have hpush' : onCpu pushcli s = (.ok (), { s with cpu := c1 }) := zoom_ok hpush
  obtain ⟨c2, hhold, h2⟩ := holding_run (s := { s with cpu := c1 }) h1
  have hmycpu : onCpu mycpu { s with cpu := c2 } = (.ok (), { s with cpu := c2 }) :=
    onCpu_mycpu (h2.off (Nat.succ_pos d))
  unfold acquire when at hs
  rw [bind_of_ok hpush', bind_of_ok hhold] at hs
  dsimp only at hs
  split at hs
  · cases hs
  rw [bind_of_ok (pure_run () _), get_bind_run] at hs
  dsimp only at hs
  split at hs
  · cases hs
  rename_i hfree
  refine ⟨eq_false_of_ne_true hfree, c2, ?_, h2⟩
  rw [bind_of_ok (pure_run () _), bind_of_ok hmycpu] at hs
  cases hs
  rfl

theorem release_ok (h : Open flag d s.cpu) (hs : release me lk s = (.ok (), s')) : (s.lock lk).cpu = some me ∧
    (0 < d → ∃ c', s' = ⟨c', update s.lock lk ⟨false, none⟩⟩ ∧ Open flag (d - 1) c') := by
  obtain ⟨c1, hhold, h1⟩ := holding_run h
  unfold release when at hs
  rw [bind_of_ok hhold] at hs
  split at hs
  · cases hs
  rename_i hheld
  have hown : (s.lock lk).locked = true ∧ (s.lock lk).cpu = some me := by simpa using hheld
  refine ⟨hown.2, fun hd => ?_⟩
  rw [← Nat.succ_pred_eq_of_pos hd] at h1
  obtain ⟨c2, hpop, h2⟩ := h1.popcli
  refine ⟨c2, ?_, h2⟩
  have hset : setLock lk ⟨false, none⟩ { s with cpu := c1 } = (.ok (), ⟨c1, update s.lock lk ⟨false, none⟩⟩) := rfl
  have hpop' : onCpu popcli ⟨c1, update s.lock lk ⟨false, none⟩⟩ =
      (.ok (), ⟨c2, update s.lock lk ⟨false, none⟩⟩) := zoom_ok hpop
  rw [bind_of_ok (pure_run () _), bind_of_ok hset, hpop'] at hs
  cases hs
  rfl

variable [Fintype ι]

/-- Between calls, `ncli` is the number of locks this CPU holds. -/
structure Counted (me : Nat) (flag : Bool) (s : St ι) : Prop where
  owned : ∀ lk, (s.lock lk).cpu = some me → (s.lock lk).locked = true
  depth : Open flag (held me s).card s.cpu

omit [DecidableEq ι] in
theorem mem_held : lk ∈ held me s ↔ (s.lock lk).cpu = some me := by
  rw [held, Finset.mem_filter, and_iff_right (Finset.mem_univ lk)]

theorem Counted.setLock {c' : Cpu} {l : Lock} (h : Counted me flag s) (hl : l.cpu = some me → l.locked = true)
    (hcount : Open flag (if l.cpu = some me then insert lk (held me s) else (held me s).erase lk).card c') :
    Counted me flag ⟨c', update s.lock lk l⟩ := by
  have hmem : ∀ lk', ((update s.lock lk l) lk').cpu = some me ↔
      if lk' = lk then l.cpu = some me else (s.lock lk').cpu = some me := by
    intro lk'
    by_cases he : lk' = lk
    · rw [he, Function.update_self, if_pos rfl]
    · rw [Function.update_of_ne he, if_neg he]
  have hheld : held me ⟨c', update s.lock lk l⟩ =
      if l.cpu = some me then insert lk (held me s) else (held me s).erase lk := by
    ext lk'
    rw [mem_held, hmem]
    by_cases hme : l.cpu = some me
    · rw [if_pos hme, Finset.mem_insert, mem_held]
      split <;> simp [*]
    · rw [if_neg hme, Finset.mem_erase, mem_held]
      split <;> simp [*]
  refine ⟨fun lk' hown => ?_, hheld ▸ hcount⟩
  dsimp only at hown ⊢
  by_cases he : lk' = lk
  · subst he
    rw [Function.update_self] at hown ⊢
    exact hl hown
  · rw [Function.update_of_ne he] at hown ⊢
    exact h.owned lk' hown

theorem Counted.step {a : Act ι} (h : Counted me flag s) (hs : step me s a = some s') : Counted me flag s' := by
  cases a with
  | acquire lk =>
    rw [Spinlock.step] at hs
    split at hs
    · rename_i hrun
      cases hs
      obtain ⟨hfree, c', rfl, hopen⟩ := acquire_ok h.depth hrun
      have hnot : lk ∉ held me s := fun hmem => by
        rw [h.owned lk (mem_held.1 hmem)] at hfree
        cases hfree
      refine h.setLock (fun _ => rfl) ?_
      rw [if_pos rfl, Finset.card_insert_of_notMem hnot]
      exact hopen
    · cases hs
  | release lk =>
    rw [Spinlock.step] at hs
    split at hs
    · rename_i hrun
      cases hs
      obtain ⟨hown, hnext⟩ := release_ok h.depth hrun
      have hmem : lk ∈ held me s := mem_held.2 hown
      obtain ⟨c', rfl, hopen⟩ := hnext (Finset.card_pos.2 ⟨lk, hmem⟩)
      refine h.setLock nofun ?_
      rw [if_neg nofun, Finset.card_erase_of_mem hmem]
      exact hopen
    · cases hs
  | others lk l =>
    rw [Spinlock.step] at hs
    split at hs
    · cases hs
    · rename_i hno
      rw [not_or] at hno
      cases hs
      refine h.setLock (fun hme => absurd hme hno.2) ?_
      rw [if_neg hno.2, Finset.erase_eq_of_notMem fun hmem => hno.1 (mem_held.1 hmem)]
      exact h.depth

/-- In every run of `acquire` and `release` calls, in whatever order the locks are taken and given up, `ncli` is the
number of locks held; interrupts are off as long as there is one, and afterwards as they were. -/
theorem ncli_eq_held {s₀ : St ι} (h₀ : s₀.cpu.ncli = 0) (hfree : ∀ lk, (s₀.lock lk).cpu ≠ some me)
    (hs : Machine.Reachable (step me) s₀ s) : s.cpu.ncli = (held me s).card ∧ (held me s).card ≤ Fintype.card ι ∧
      ((held me s).Nonempty → s.cpu.flIf = false) ∧ (held me s = ∅ → s.cpu.flIf = s₀.cpu.flIf) := by
  have hnone : held me s₀ = ∅ := Finset.eq_empty_of_forall_notMem fun lk hmem => hfree lk (mem_held.1 hmem)
  have hstart : Counted me s₀.cpu.flIf s₀ := by
    refine ⟨fun lk hown => absurd hown (hfree lk), ?_⟩
    rw [hnone, Finset.card_empty]
    exact ⟨h₀, nofun, nofun, fun _ => rfl⟩
  have h : Counted me s₀.cpu.flIf s := hs.inv hstart fun _ _ _ h _ hstep => h.step hstep
  refine ⟨h.depth.ncli, Finset.card_le_univ _, fun hne => h.depth.off (Finset.card_pos.2 hne), fun hempty => ?_⟩
  exact h.depth.closed (Finset.card_eq_zero.2 hempty)

theorem ncli_eq_held_two : ∃ s, Machine.run (step 0) (⟨⟨true, 0, false⟩, fun _ => ⟨false, none⟩⟩ : St (Fin 2))
    [.acquire 0, .acquire 1, .release 0] = some s ∧ s.cpu.ncli = 1 ∧ s.cpu.ncli = (held 0 s).card := by
  have hrun : ∃ s, Machine.run (step 0) (⟨⟨true, 0, false⟩, fun _ => ⟨false, none⟩⟩ : St (Fin 2))
    [.acquire 0, .acquire 1, .release 0] = some s ∧ s.cpu.ncli = 1 := ⟨_, rfl, rfl⟩
  obtain ⟨s, hs, hn⟩ := hrun
  exact ⟨s, hs, hn, (ncli_eq_held rfl nofun (.of_run hs)).1⟩

end Locks

end Xv6.Spinlock
