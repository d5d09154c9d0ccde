import Mathlib

/-!
# Runs of a partial step function

A system is a function `step : σ → α → Option σ`: the action `a` is enabled in `s` when `step s a` is
not `none`. `Reach step ok s₀ s` says that `s` is reached from `s₀` by enabled actions each of which
satisfies `ok` in the state it is taken in; `Reach.inv` is the induction every safety result goes
through. `along` runs a second component beside the system: a history of what it does, or a program
that says which action may come next.
-/

namespace Machine

variable {σ α : Type*} {step : σ → α → Option σ} {ok : σ → α → Prop} {s₀ s s' : σ}

/-- `s` is reached from `s₀` by enabled actions, each allowed by `ok` where it is taken. -/
inductive Reach (step : σ → α → Option σ) (ok : σ → α → Prop) (s₀ : σ) : σ → Prop
  | refl : Reach step ok s₀ s₀
  | tail {s s' : σ} {a : α} (h : Reach step ok s₀ s) (hok : ok s a) (hs : step s a = some s') :
      Reach step ok s₀ s'

/-- `s` is reached from `s₀` by enabled actions, whatever they are. -/
abbrev Reachable (step : σ → α → Option σ) (s₀ s : σ) : Prop :=
  Reach step (fun _ _ => True) s₀ s

/-- Runs the actions in order, stopping with `none` at the first that is not enabled. -/
def run (step : σ → α → Option σ) : σ → List α → Option σ
  | s, [] => some s
  | s, a :: as => (step s a).bind fun s' => run step s' as

theorem run_append (s : σ) (as bs : List α) : run step s (as ++ bs) = (run step s as).bind fun s' => run step s' bs := by
  induction as generalizing s with
  | nil => rfl
  | cons a as ih =>
    simp only [List.cons_append, run, Option.bind_assoc]
    exact congrArg _ (funext ih)

/-- A property that holds at the start and is kept by every allowed step holds along every run. -/
theorem Reach.inv {I : σ → Prop} (h : Reach step ok s₀ s) (h₀ : I s₀)
    (hstep : ∀ s a s', I s → ok s a → step s a = some s' → I s') : I s := by
  induction h with
  | refl => exact h₀
  | tail _ hok hs ih => exact hstep _ _ _ ih hok hs

theorem Reach.trans {s₁ : σ} (h : Reach step ok s₀ s₁) (h' : Reach step ok s₁ s) :
    Reach step ok s₀ s := by
  induction h' with
  | refl => exact h
  | tail _ hok hs ih => exact ih.tail hok hs

theorem Reach.mono {ok' : σ → α → Prop} (h : Reach step ok s₀ s) (hok : ∀ s a, ok s a → ok' s a) :
    Reach step ok' s₀ s := by
  induction h with
  | refl => exact .refl
  | tail _ ho hs ih => exact ih.tail (hok _ _ ho) hs

theorem Reach.of_run {as : List α} (h : run step s as = some s') : Reachable step s s' := by
  induction as generalizing s with
  | nil => cases h; exact .refl
  | cons a as ih =>
    obtain ⟨s1, hs, h⟩ := Option.bind_eq_some_iff.1 h
    exact (Reach.refl.tail trivial hs).trans (ih h)

/-- Runs the actions in order as long as each is allowed by `ok`. -/
def runOk (step : σ → α → Option σ) (ok : σ → α → Prop) [∀ s a, Decidable (ok s a)] : σ → List α → Option σ
  | s, [] => some s
  | s, a :: as => if ok s a then (step s a).bind fun s' => runOk step ok s' as else none

theorem Reach.of_runOk [∀ s a, Decidable (ok s a)] {as : List α} (h : runOk step ok s as = some s') :
    Reach step ok s s' := by
  induction as generalizing s with
  | nil => cases h; exact .refl
  | cons a as ih =>
    rw [runOk] at h
    split at h
    · rename_i hok
      obtain ⟨s1, hs, h⟩ := Option.bind_eq_some_iff.1 h
      exact (Reach.refl.tail hok hs).trans (ih h)
    · cases h

/-- `step` with a component of type `η` beside it. The component sees each step and either changes
its state or forbids the step. -/
def along {η : Type*} (step : σ → α → Option σ) (upd : σ → α → σ → η → Option η) (x : σ × η) (a : α) :
    Option (σ × η) :=
  (step x.1 a).bind fun s' => (upd x.1 a s' x.2).map fun e => (s', e)

section Along

variable {η : Type*} {upd : σ → α → σ → η → Option η} {x y : σ × η} {a : α}

theorem along_eq (h : along step upd x a = some y) : step x.1 a = some y.1 ∧ upd x.1 a y.1 x.2 = some y.2 := by
  obtain ⟨s', hs, h⟩ := Option.bind_eq_some_iff.1 h
  obtain ⟨e, he, h⟩ := Option.map_eq_some_iff.1 h
  cases h
  exact ⟨hs, he⟩

/-- What the system does in a run of both is a run of the system. -/
theorem Reach.fst {ok' : σ × η → α → Prop} (h : Reach (along step upd) ok' x y) (hok : ∀ x a, ok' x a → ok x.1 a) :
    Reach step ok x.1 y.1 := by
  induction h with
  | refl => exact .refl
  | tail _ ho hs ih => exact ih.tail (hok _ _ ho) (along_eq hs).1

theorem Reach.fst_reachable {ok' : σ × η → α → Prop} (h : Reach (along step upd) ok' x y) :
    Reachable step x.1 y.1 :=
  h.fst fun _ _ _ => trivial

end Along

end Machine
