import Xv6.Contexts

/-!
# The pool of drawing contexts and the end of processes

A context is taken by `beginpaint` and given back by `endpaint`. `exit` closes files and gives up the
current directory; it does not look at `hdcArray`, so a process that ends without `endpaint` takes its
contexts with it. When all of them are taken, `allocateHDC` returns a null pointer, which `beginpaint`
dereferences.
-/

namespace Xv6.Graphics

open Function (update update_self update_of_ne)
open Kmem Exec

variable {ι : Type}

structure Pool (ι : Type) where
  mem : St ι
  exited : ι → Bool

inductive PoolAct (ι : Type)
  | user (q : ι) (mem : UInt32 → UInt8)
  | begin (p : Proc ι)
  | close (p : Proc ι)
  | exit (q : ι)

/-- What the process does with the drawing variables: `exit` does nothing with them. -/
def PoolAct.act : PoolAct ι → Option (Act ι)
  | .user q mem => some (.user q mem)
  | .begin p => some (.call p .beginpaint)
  | .close p => some (.call p (.handle .endpaint))
  | .exit _ => none

def PoolAct.who : PoolAct ι → ι
  | .user q _ => q
  | .begin p => p.who
  | .close p => p.who
  | .exit q => q

variable [DecidableEq ι] (g : Symbols)

def poolStep (s : Pool ι) (a : PoolAct ι) : Option (Pool ι) :=
  if s.exited a.who then none
  else match a.act with
    | some b => (step g s.mem b).map fun mem => { s with mem := mem }
    | none => some { s with exited := update s.exited a.who true }

def poolUpd (s : Pool ι) (a : PoolAct ι) (s' : Pool ι) (h : Hist ι) : Option (Hist ι) :=
  match a.act with
  | some b => upd g s.mem b s'.mem h
  | none => some h

/-- A process ends its contexts before it exits, and none is begun when all are taken. -/
def Tidy (pid : ι → Int) (x : Pool ι × Hist ι) : PoolAct ι → Prop
  | .begin p => p.pid = pid p.who ∧ x.2.inUse < MAX_PROCESSES
  | .close p => p.pid = pid p.who
  | .exit q => ∀ k, x.2.handle q k = none
  | .user _ _ => True

variable {g} {p : Proc ι} {s s' : St ι} {pid : ι → Int}

/-! ### What `beginpaint` accesses -/

def Null (e : Access) : Prop := e.kind = .hdc ∧ ∃ f : Field, e.addr = 0 + f.offset

def Derefs (g : Symbols) (p : Proc ι) (s : St ι) : Prop :=
  ∃ t, (beginpaint g p s).2.trace = s.trace ++ t ∧ ∃ e ∈ t, Null e

theorem moves_allocateRounds (pid : Int) (n i : Nat) :
    Moves (Confined fun e => e.kind ≠ .hdc) (allocateRounds g p pid n i) := by
  induction n generalizing i with
  | zero => exact .pure _
  | succ n ih =>
    refine .bind (moves_load (by simp)) fun owner => ?_
    split
    · exact .bind (moves_storeBytes (by simp)) fun _ => .pure _
    · exact ih (i + 1)

theorem moves_prepare : Moves (Confined fun e => e.kind ≠ .hdc) (prepare g p) := by
  refine .bind (moves_load (by simp)) fun first => ?_
  dsimp only
  split
  · refine .bind (.rounds (fun i => ?_) _ _) fun _ => .bind (moves_storeBytes (by simp)) fun _ =>
      moves_allocateRounds _ _ _
    exact .bind (moves_storeBytes (by simp)) fun _ => .bind (moves_storeBytes (by simp)) fun _ =>
      .bind (moves_storeBytes (by simp)) fun _ => moves_storeBytes (by simp)
  · exact moves_allocateRounds _ _ _

omit [DecidableEq ι] in
theorem report_trace (p : Proc ι) (hdc : UInt32) (s : St ι) : ∃ t, (report p hdc s).2.trace = s.trace ++ t ∧
    ⟨.hdc, false, hdc + Field.pid.offset, 4⟩ ∈ t ∧ ∀ e ∈ t, ∃ f : Field, e.addr = hdc + f.offset := by
  have hrest : Moves (Confined fun e => ∃ f : Field, e.addr = hdc + f.offset) (do
      let _ ← getField p hdc .colour
      let _ ← getField p hdc .x
      let _ ← getField p hdc .y
      return i32 hdc.toNat : K ι Int) :=
    .bind (moves_load ⟨.colour, rfl⟩) fun _ => .bind (moves_load ⟨.x, rfl⟩) fun _ =>
      .bind (moves_load ⟨.y, rfl⟩) fun _ => .pure _
  unfold report
  rw [bind_run]
  have hlog : (getField p hdc .pid s).2 = s.log ⟨.hdc, false, hdc + Field.pid.offset, 4⟩ := by
    unfold getField load
    split <;> rfl
  rcases hget : getField p hdc .pid s with ⟨e | v, s1⟩ <;> rw [hget] at hlog <;> subst hlog
  · exact ⟨[_], rfl, List.mem_singleton_self _, fun e he => ⟨.pid, by rw [List.mem_singleton.1 he]⟩⟩
  · obtain ⟨t, ht, hE, -⟩ := hrest (s.log ⟨.hdc, false, hdc + Field.pid.offset, 4⟩)
    refine ⟨_ :: t, ht.trans (List.append_assoc ..), List.mem_cons_self .., fun e he => ?_⟩
    rcases List.mem_cons.1 he with rfl | he
    · exact ⟨.pid, rfl⟩
    · exact hE e he

/-- The null pointer is dereferenced when no context is free; otherwise a free one is handed out. -/
theorem beginpaint_outcome (hg : g.Layout) (hm : g.Mapped p) (hp : i32 p.pid = p.pid) :
    (∀ k, ((canvas g s).ready.ctx k).pid ≠ -1) ∧ Derefs g p s ∨
    (∃ (k : Fin MAX_PROCESSES) (r : Int) (s' : St ι), ((canvas g s).ready.ctx k).pid = -1 ∧
      beginpaint g p s = (.ok r, s') ∧ uint r = g.entry k) ∧ ¬ Derefs g p s := by
  have hstop : ∀ e s', ¬ Trap g p False e s' := by
    rintro (_ | _) _ h
    · exact h hm
    · exact h
  obtain ⟨hdc, s1, hprep, hdc'⟩ := (prepare_meets (s := s) hg hp).total hstop
  obtain ⟨t1, ht1, hE1, -⟩ := moves_prepare (g := g) (p := p) s
  obtain ⟨t2, ht2, hpid, hE2⟩ := report_trace p hdc s1
  rw [hprep] at ht1
  have hrun : beginpaint g p s = report p hdc s1 := by rw [beginpaint_eq, bind_of_ok hprep]
  have htr : (beginpaint g p s).2.trace = s.trace ++ (t1 ++ t2) := by
    rw [hrun, ht2, ht1, List.append_assoc]
  rcases hdc' with ⟨k, rfl, hk, -⟩ | ⟨rfl, hnone⟩
  · obtain ⟨r, s', hr, hr'⟩ := (report_meets (s := s1) hg k).total hstop
    refine .inr ⟨⟨k, r, s', hk, hrun.trans hr, hr'.1⟩, ?_⟩
    rintro ⟨t, ht, e, he, hkind, f, hf⟩
    obtain rfl := List.append_cancel_left (ht.symm.trans htr)
    rcases List.mem_append.1 he with he | he
    · exact hE1 e he hkind
    · obtain ⟨f', hf'⟩ := hE2 e he
      have hge := (hg.field k f').1
      have hlt : (0 + f.offset).toNat < 16 := by cases f <;> decide
      have heq : g.field k f' = 0 + f.offset := hf'.symm.trans hf
      rw [heq] at hge
      exact absurd (lt_of_le_of_lt hge hlt) (by decide)
  · exact .inl ⟨hnone, _, htr, _, List.mem_append_right _ hpid, rfl, .pid, rfl⟩

/-! ### Runs -/

theorem upd_other {a : Act ι} {h h' : Hist ι} {q : ι} (hq : ∀ p c, a = .call p c → p.who ≠ q)
    (hu : upd g s a s' h = some h') : h'.handle q = h.handle q := by
  unfold upd at hu
  cases a with
  | user who mem =>
    cases Option.some.inj hu
    rfl
  | call p c =>
    have hne := (hq p c rfl).symm
    cases c with
    | setpencolour => cases hu
    | beginpaint =>
      dsimp only at hu
      split at hu
      · cases Option.some.inj hu
        exact update_of_ne hne _ _
      · cases hu
    | handle c =>
      dsimp only at hu
      split at hu
      · obtain ⟨k, -, rfl⟩ := Option.map_eq_some_iff.1 hu
        generalize c.op p s = op
        cases op with
        | endpaint a => exact update_of_ne hne _ _
        | _ => rfl
      · cases Option.some.inj hu
        rfl

structure Alive (g : Symbols) (pid : ι → Int) (x : Pool ι × Hist ι) : Prop where
  owned : Owned g pid (canvas g x.1.mem) x.2
  exited : ∀ q, x.1.exited q = true → ∀ k, x.2.handle q k = none

theorem Alive.step (hg : g.Layout) (hpid : Pids pid) {x y : Pool ι × Hist ι} {a : PoolAct ι} (hi : Alive g pid x)
    (htidy : Tidy pid x a) (hs : poolStep g x.1 a = some y.1) (hu : poolUpd g x.1 a y.1 x.2 = some y.2) :
    Alive g pid y := by
  obtain ⟨⟨mem, exited⟩, h⟩ := x
  obtain ⟨⟨mem', exited'⟩, h'⟩ := y
  obtain ⟨hlive, hs⟩ := Option.ite_none_left_eq_some.1 hs
  -- a step of the drawing machine
  have hact : ∀ b : Act ι, a.act = some b → (∀ p c, b = .call p c → p.who = a.who) → Fits pid (mem, h) b →
      Selects (mem, h) b → Alive g pid (⟨mem', exited'⟩, h') := by
    intro b hb hwho hfit hsel
    dsimp only at hs
    rw [hb] at hs
    obtain ⟨mem1, hmem, heq⟩ := Option.map_eq_some_iff.1 hs
    obtain ⟨rfl, rfl⟩ := Pool.mk.inj heq
    unfold poolUpd at hu
    dsimp only at hu
    rw [hb] at hu
    refine ⟨Owned.step (x := (mem, h)) (y := (mem1, h')) hg hpid hi.owned hfit hsel hmem hu, fun q hq k => ?_⟩
    have hne : ∀ p c, b = .call p c → p.who ≠ q := by
      rintro p c hbc rfl
      rw [hwho p c hbc] at hq
      exact hlive hq
    rw [upd_other hne hu]
    exact hi.exited q hq k
  cases a with
  | user q m => exact hact _ rfl nofun trivial trivial
  | begin p =>
    refine hact _ rfl ?_ htidy trivial
    rintro _ _ ⟨⟩
    rfl
  | close p =>
    refine hact _ rfl ?_ ⟨htidy, fun _ => nofun⟩ fun _ => trivial
    rintro _ _ ⟨⟩
    rfl
  | exit q =>
    cases Option.some.inj hs
    cases Option.some.inj hu
    refine ⟨hi.owned, fun q' hq' k => ?_⟩
    by_cases hqq : q' = q
    · subst hqq
      exact htidy k
    · change update exited q true q' = true at hq'
      rw [update_of_ne hqq] at hq'
      exact hi.exited q' hq' k

noncomputable def held (g : Symbols) (x : Pool ι × Hist ι) : Finset (Fin MAX_PROCESSES) :=
  open Classical in
  Finset.univ.filter fun i => ∃ q k, x.1.exited q = false ∧ x.2.handle q k = some (g.entry i)

theorem reachable_alive (hg : g.Layout) (hpid : Pids pid) {u : ι → UInt32 → UInt8} {x : Pool ι × Hist ι}
    (hx : Machine.Reach (Machine.along (poolStep g) (poolUpd g)) (Tidy pid) (⟨init u, fun _ => false⟩, Hist.init) x) :
    Alive g pid x := by
  refine hx.inv (I := Alive g pid) ⟨?_, nofun⟩ fun x a y hi htidy hs => ?_
  · exact reachable_owned hg hpid .refl
  · obtain ⟨hs, hu⟩ := Machine.along_eq hs
    exact hi.step hg hpid htidy hs hu

omit [DecidableEq ι] in
theorem Alive.mem_held {x : Pool ι × Hist ι} (hi : Alive g pid x) (hf : (canvas g x.1.mem).first = 1)
    {i : Fin MAX_PROCESSES} (hne : ((canvas g x.1.mem).ctx i).pid ≠ -1) :
    ∃ q k, x.1.exited q = false ∧ x.2.handle q k = some (g.entry i) := by
  obtain ⟨q, k, ha⟩ := hi.owned.used hf i hne
  refine ⟨q, k, ?_, ha⟩
  by_contra hq
  rw [hi.exited q (by simpa using hq) k] at ha
  cases ha

omit [DecidableEq ι] in
theorem Alive.held_lt_iff (hg : g.Layout) (hpid : Pids pid) {x : Pool ι × Hist ι} (hi : Alive g pid x) :
    (held g x).card < MAX_PROCESSES ↔ ∃ k, ((canvas g x.1.mem).ready.ctx k).pid = -1 := by
  have hcard : (held g x).card < MAX_PROCESSES ↔ ∃ i, i ∉ held g x := by
    rw [← not_forall, ← Finset.eq_univ_iff_forall, ← Ne, ← Finset.card_lt_iff_ne_univ, Fintype.card_fin]
  rw [hcard]
  refine exists_congr fun i => ?_
  have hmem : i ∈ held g x ↔ ∃ q k, x.1.exited q = false ∧ x.2.handle q k = some (g.entry i) := by
    simp [held]
  rw [hmem]
  constructor
  · intro hno
    by_contra hne
    obtain ⟨q, k, ha⟩ := hi.owned.ready.used (Canvas.ready_first _) i hne
    refine hno ⟨q, k, ?_, ha⟩
    by_contra hq
    rw [hi.exited q (by simpa using hq) k] at ha
    cases ha
  · rintro hfree ⟨q, k, -, ha⟩
    exact hi.owned.ready.ne_of_free hg hpid.ne hfree ha rfl

/-- In every run in which processes end their contexts before they exit, and begin one only when one is
free: once there is a pool, each context in use belongs to a live process that has begun and not ended it;
and `beginpaint` hands out a free context, without dereferencing a null pointer, if and only if live
processes hold fewer than `MAX_PROCESSES` of them. -/
theorem contexts_not_leaked {u : ι → UInt32 → UInt8} {x : Pool ι × Hist ι} (hg : g.Layout) (hpid : Pids pid)
    (hx : Machine.Reach (Machine.along (poolStep g) (poolUpd g)) (Tidy pid) (⟨init u, fun _ => false⟩, Hist.init) x) :
    ((canvas g x.1.mem).first = 1 → ∀ i, ((canvas g x.1.mem).ctx i).pid ≠ -1 → ∃ q k,
      x.1.exited q = false ∧ ((canvas g x.1.mem).ctx i).pid = pid q ∧ x.2.handle q k = some (g.entry i)) ∧
    ∀ p : Proc ι, g.Mapped p → p.pid = pid p.who →
      (((∃ r s', ∃ i : Fin MAX_PROCESSES, beginpaint g p x.1.mem = (.ok r, s') ∧ uint r = g.entry i ∧
        ∀ q k, x.2.handle q k ≠ some (g.entry i)) ∧ ¬ Derefs g p x.1.mem) ↔ (held g x).card < MAX_PROCESSES) := by
  have hi := reachable_alive hg hpid hx
  refine ⟨fun hf i hne => ?_, fun p hm hp => ?_⟩
  · obtain ⟨q, k, hlive, ha⟩ := hi.mem_held hf hne
    obtain ⟨j, hj, hpj, -⟩ := hi.owned.slot ha
    rw [← hg.entry_inj hj] at hpj
    exact ⟨q, k, hlive, hpj, ha⟩
  · have hrange : i32 p.pid = p.pid := by
      rw [hp, i32_eq_self]
      have := hpid p.who
      omega
    rw [hi.held_lt_iff hg hpid]
    rcases beginpaint_outcome (s := x.1.mem) hg hm hrange with ⟨hnone, hderef⟩ | ⟨⟨k, r, s', hk, hrun, hr⟩, hno⟩
    · exact iff_of_false (fun h => h.2 hderef) fun ⟨k, hk⟩ => hnone k hk
    · refine iff_of_true ⟨⟨r, s', k, hrun, hr, fun q k' ha => ?_⟩, hno⟩ ⟨k, hk⟩
      exact hi.owned.ready.ne_of_free hg hpid.ne hk ha rfl

/-- A process begins a context and has it. -/
theorem contexts_not_leaked_begin : ∃ x : Pool (Fin 2) × Hist (Fin 2),
    ((canvas sampleSymbols x.1.mem).ctx 0).pid = 1 ∧ ∃ q k, x.1.exited q = false ∧
      ((canvas sampleSymbols x.1.mem).ctx 0).pid = samplePid q ∧ x.2.handle q k = some (sampleSymbols.entry 0) := by
  have hpid : Pids samplePid := by unfold Pids samplePid; decide
  have hsome : (Machine.along (poolStep sampleSymbols) (poolUpd sampleSymbols)
      (⟨init sampleStacks, fun _ => false⟩, Hist.init) (.begin (sampleProc 0))).any (fun x =>
        (canvas sampleSymbols x.1.mem).first = 1 ∧ ((canvas sampleSymbols x.1.mem).ctx 0).pid = 1) = true := by
    decide +kernel
  obtain ⟨x, hx, hprop⟩ := (Option.any_eq_true _ _).1 hsome
  rw [decide_eq_true_eq] at hprop
  have htidy : Tidy samplePid (⟨init sampleStacks, fun _ => false⟩, Hist.init) (.begin (sampleProc 0)) :=
    ⟨rfl, by decide⟩
  refine ⟨x, hprop.2, (contexts_not_leaked sampleSymbols_layout hpid (.tail .refl htidy hx)).1 hprop.1 0 ?_⟩
  rw [hprop.2]
  decide

/-- A process begins a context and exits: the slot stays taken, and its owner is gone. -/
theorem exit_leaks_context : ∃ x : Pool (Fin 2) × Hist (Fin 2),
    Machine.Reachable (Machine.along (poolStep sampleSymbols) (poolUpd sampleSymbols))
      (⟨init sampleStacks, fun _ => false⟩, Hist.init) x ∧
    (canvas sampleSymbols x.1.mem).first = 1 ∧ ((canvas sampleSymbols x.1.mem).ctx 0).pid = samplePid 0 ∧
    x.1.exited 0 = true := by
  have hrun : (Machine.run (Machine.along (poolStep sampleSymbols) (poolUpd sampleSymbols))
      (⟨init sampleStacks, fun _ => false⟩, Hist.init) [.begin (sampleProc 0), .exit 0]).any (fun x =>
        (canvas sampleSymbols x.1.mem).first = 1 ∧ ((canvas sampleSymbols x.1.mem).ctx 0).pid = samplePid 0 ∧
        x.1.exited 0 = true) = true := by
    decide +kernel
  obtain ⟨x, hx, hprop⟩ := (Option.any_eq_true _ _).1 hrun
  rw [decide_eq_true_eq] at hprop
  exact ⟨x, .of_run hx, hprop⟩

end Xv6.Graphics
