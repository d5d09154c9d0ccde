import Mathlib

/-!
# Programs that change a state and may stop

`Exec σ ε α` is a program over the state `σ` that returns a value of type `α` or stops with an
`ε`; the state it has reached is kept in either case. `Moves R m` says that `m` relates every start
state to the state it ends in by `R`. For a preorder `R` it is closed under sequencing and loops, so
a property of a whole program follows from its accesses.
-/

/-- A program over the state `σ` that returns an `α` or stops with an `ε`. -/
def Exec (σ ε α : Type) : Type := σ → Except ε α × σ

namespace Exec

variable {σ ε α β : Type}

instance : Monad (Exec σ ε) where
  pure a s := (.ok a, s)
  bind m f s :=
    match m s with
    | (.ok a, s') => f a s'
    | (.error e, s') => (.error e, s')

def get : Exec σ ε σ := fun s => (.ok s, s)

def modify (f : σ → σ) : Exec σ ε Unit := fun s => (.ok (), f s)

def stop (e : ε) : Exec σ ε α := fun s => (.error e, s)

/-- `m` if `c` holds, and nothing otherwise. -/
def when (c : Prop) [Decidable c] (m : Exec σ ε Unit) : Exec σ ε Unit := if c then m else pure ()

theorem pure_run (a : α) (s : σ) : (pure a : Exec σ ε α) s = (.ok a, s) := rfl

theorem bind_run (m : Exec σ ε α) (f : α → Exec σ ε β) (s : σ) :
    (m >>= f) s = match m s with
      | (.ok a, s') => f a s'
      | (.error e, s') => (.error e, s') := rfl

theorem get_bind_run (f : σ → Exec σ ε α) (s : σ) : (get >>= f) s = f s s := rfl

theorem modify_bind_run (g : σ → σ) (f : Unit → Exec σ ε α) (s : σ) : (modify g >>= f) s = f () (g s) := rfl

theorem bind_run_ok {m : Exec σ ε α} {f : α → Exec σ ε β} {s s' : σ} {b : β}
    (h : (m >>= f) s = (.ok b, s')) : ∃ a s₁, m s = (.ok a, s₁) ∧ f a s₁ = (.ok b, s') := by
  rw [bind_run] at h
  rcases hm : m s with ⟨_ | a, s₁⟩
  · rw [hm] at h; cases h
  · rw [hm] at h; exact ⟨a, s₁, rfl, h⟩

theorem bind_of_ok {m : Exec σ ε α} {f : α → Exec σ ε β} {s s' : σ} {a : α} (h : m s = (.ok a, s')) :
    (m >>= f) s = f a s' := by
  rw [bind_run, h]

theorem bind_assoc {γ : Type} (m : Exec σ ε α) (f : α → Exec σ ε β) (h : β → Exec σ ε γ) :
    m >>= f >>= h = m >>= fun a => f a >>= h := by
  funext s
  rw [bind_run, bind_run, bind_run]
  rcases m s with ⟨e | a, s1⟩ <;> rfl

/-! ### Parts of a state -/

/-- `m` run on the part `view` of the state, which `put` stores back. -/
def zoom {τ ε' : Type} (view : σ → τ) (put : σ → τ → σ) (wrap : ε' → ε) (m : Exec τ ε' α) : Exec σ ε α := fun s =>
  match m (view s) with
  | (.ok a, t) => (.ok a, put s t)
  | (.error e, t) => (.error (wrap e), put s t)

theorem zoom_ok {τ ε' : Type} {view : σ → τ} {put : σ → τ → σ} {wrap : ε' → ε} {m : Exec τ ε' α} {s : σ} {a : α} {t : τ}
    (h : m (view s) = (.ok a, t)) : zoom view put wrap m s = (.ok a, put s t) := by
  rw [zoom, h]

theorem zoom_bind {τ ε' : Type} {view : σ → τ} {put : σ → τ → σ} {wrap : ε' → ε} (h₁ : ∀ s t, view (put s t) = t)
    (h₂ : ∀ s t t', put (put s t) t' = put s t') (m : Exec τ ε' α) (f : α → Exec τ ε' β) :
    zoom view put wrap (m >>= f) = zoom view put wrap m >>= fun a => zoom view put wrap (f a) := by
  funext s
  rw [bind_run, zoom, zoom, bind_run]
  rcases m (view s) with ⟨e | a, t⟩
  · rfl
  · dsimp only
    rw [zoom, h₁]
    rcases f a t with ⟨e | b, t'⟩
    all_goals
      dsimp only
      rw [h₂]

/-! ### Loops -/

/-- `for (x = lo; …; x++) body x`, `n` rounds of it. -/
def rounds (body : Int → Exec σ ε Unit) : Nat → Int → Exec σ ε Unit
  | 0, _ => pure ()
  | n + 1, x => do
    body x
    rounds body n (x + 1)

/-! ### Relating start and end -/

def Moves (R : σ → σ → Prop) (m : Exec σ ε α) : Prop := ∀ s, R s (m s).2

namespace Moves

variable {R : σ → σ → Prop} {m : Exec σ ε α} {f : α → Exec σ ε β}

theorem pure [Std.Refl R] (a : α) : Moves R (Pure.pure a : Exec σ ε α) := fun s => refl_of R s

theorem get [Std.Refl R] : Moves R (Exec.get : Exec σ ε σ) := fun s => refl_of R s

theorem stop [Std.Refl R] (e : ε) : Moves R (Exec.stop e : Exec σ ε α) := fun s => refl_of R s

theorem mono {R' : σ → σ → Prop} (h : Moves R m) (hR : ∀ s s', R s s' → R' s s') : Moves R' m :=
  fun s => hR _ _ (h s)

theorem modify {g : σ → σ} (h : ∀ s, R s (g s)) : Moves R (Exec.modify g : Exec σ ε Unit) := h

theorem bind [IsTrans σ R] (hm : Moves R m) (hf : ∀ a, Moves R (f a)) : Moves R (m >>= f) := by
  intro s
  have h := hm s
  rw [bind_run]
  rcases hms : m s with ⟨_ | a, s1⟩ <;> rw [hms] at h
  · exact h
  · exact trans_of R h (hf a s1)

theorem ite {c : Prop} [Decidable c] {m' : Exec σ ε α} (h : Moves R m) (h' : Moves R m') :
    Moves R (if c then m else m') := by
  split
  · exact h
  · exact h'

theorem when [Std.Refl R] {c : Prop} [Decidable c] {m : Exec σ ε Unit} (h : Moves R m) : Moves R (Exec.when c m) := by
  unfold Exec.when
  split
  · exact h
  · exact .pure ()

theorem rounds [Std.Refl R] [IsTrans σ R] {body : Int → Exec σ ε Unit} (h : ∀ x, Moves R (body x))
    (n : Nat) (x : Int) : Moves R (Exec.rounds body n x) := by
  induction n generalizing x with
  | zero => exact .pure ()
  | succ n ih => exact .bind (h x) fun _ => ih (x + 1)

end Moves

/-! ### Postconditions -/

/-- If `m` returns from `s`, the value and the state satisfy `Q`. -/
def Ends (m : Exec σ ε α) (s : σ) (Q : α → σ → Prop) : Prop := ∀ a s', m s = (.ok a, s') → Q a s'

namespace Ends

variable {m : Exec σ ε α} {f : α → Exec σ ε β} {s : σ} {P P' : α → σ → Prop} {Q : β → σ → Prop}

theorem pure {a : α} (h : P a s) : Ends (Pure.pure a : Exec σ ε α) s P := by
  rintro _ _ ⟨⟩
  exact h

theorem stop {e : ε} : Ends (Exec.stop e : Exec σ ε α) s P := nofun

theorem modify {g : σ → σ} {P : Unit → σ → Prop} (h : P () (g s)) : Ends (Exec.modify g : Exec σ ε Unit) s P := by
  rintro _ _ ⟨⟩
  exact h

theorem bind (hm : Ends m s P) (hf : ∀ a s', P a s' → Ends (f a) s' Q) : Ends (m >>= f) s Q := by
  intro b s' h
  obtain ⟨a, s1, h1, h2⟩ := bind_run_ok h
  exact hf a s1 (hm a s1 h1) b s' h2

theorem get_bind {f : σ → Exec σ ε β} (h : Ends (f s) s Q) : Ends (Exec.get >>= f) s Q := h

theorem modify_bind {g : σ → σ} {f : Unit → Exec σ ε β} (h : Ends (f ()) (g s) Q) :
    Ends (Exec.modify g >>= f) s Q := h

theorem any : Ends m s fun _ _ => True := fun _ _ _ => trivial

theorem mono (hm : Ends m s P) (h : ∀ a s', P a s' → P' a s') : Ends m s P' :=
  fun a s' hs => h a s' (hm a s' hs)

end Ends

/-! ### Outcomes -/

/-- From `s`, `m` returns with `Q` or stops with `E`. -/
def Meets (m : Exec σ ε α) (s : σ) (Q : α → σ → Prop) (E : ε → σ → Prop) : Prop :=
  match m s with
  | (.ok a, s') => Q a s'
  | (.error e, s') => E e s'

namespace Meets

variable {m : Exec σ ε α} {f : α → Exec σ ε β} {s s' : σ} {P P' : α → σ → Prop} {Q : β → σ → Prop}
  {E E' : ε → σ → Prop}

theorem pure {a : α} (h : P a s) : Meets (Pure.pure a : Exec σ ε α) s P E := h

theorem stop {e : ε} (h : E e s) : Meets (Exec.stop e : Exec σ ε α) s P E := h

theorem of_ok {a : α} (hm : m s = (.ok a, s')) (h : P a s') : Meets m s P E := by
  rw [Meets, hm]
  exact h

theorem of_error {e : ε} (hm : m s = (.error e, s')) (h : E e s') : Meets m s P E := by
  rw [Meets, hm]
  exact h

theorem bind (hm : Meets m s P E) (hf : ∀ a s', P a s' → Meets (f a) s' Q E) : Meets (m >>= f) s Q E := by
  unfold Meets at hm ⊢
  rw [bind_run]
  rcases hms : m s with ⟨e | a, s1⟩ <;> rw [hms] at hm
  · exact hm
  · exact hf a s1 hm

theorem ok_bind {a : α} (hm : m s = (.ok a, s')) (h : Meets (f a) s' Q E) : Meets (m >>= f) s Q E := by
  rw [Meets, bind_of_ok hm]
  exact h

theorem get_bind {f : σ → Exec σ ε β} (h : Meets (f s) s Q E) : Meets (Exec.get >>= f) s Q E := h

theorem modify {g : σ → σ} {P : Unit → σ → Prop} (h : P () (g s)) :
    Meets (Exec.modify g : Exec σ ε Unit) s P E := h

theorem modify_bind {g : σ → σ} {f : Unit → Exec σ ε β} (h : Meets (f ()) (g s) Q E) :
    Meets (Exec.modify g >>= f) s Q E := h

theorem mono (hm : Meets m s P E) (h : ∀ a s', P a s' → P' a s') (hE : ∀ e s', E e s' → E' e s') :
    Meets m s P' E' := by
  unfold Meets at hm ⊢
  rcases hms : m s with ⟨e | a, s1⟩ <;> rw [hms] at hm
  · exact hE e s1 hm
  · exact h a s1 hm

theorem of_safe (hm : Meets m s P fun _ _ => False) : Meets m s P E := hm.mono (fun _ _ => id) fun _ _ => False.elim

theorem and_run (hm : Meets m s P E) (h : ∀ {a s'}, m s = (.ok a, s') → P' a s') :
    Meets m s (fun a s' => P a s' ∧ P' a s') E := by
  unfold Meets at hm ⊢
  rcases hms : m s with ⟨e | a, s1⟩ <;> rw [hms] at hm
  · exact hm
  · exact ⟨hm, h hms⟩

theorem run_ok (hm : Meets m s P E) {a : α} (h : m s = (.ok a, s')) : P a s' := by
  rw [Meets, h] at hm
  exact hm

theorem ends (hm : Meets m s P E) : Ends m s P := fun _ _ h => hm.run_ok h

theorem total (hm : Meets m s P E) (h : ∀ e s', ¬ E e s') : ∃ a s', m s = (.ok a, s') ∧ P a s' := by
  unfold Meets at hm
  rcases hms : m s with ⟨e | a, s1⟩ <;> rw [hms] at hm
  · exact absurd hm (h e s1)
  · exact ⟨a, s1, rfl, hm⟩

theorem zoom {τ ε' : Type} {view : σ → τ} {put : σ → τ → σ} {wrap : ε' → ε} {m : Exec τ ε' α} {Q : α → τ → Prop}
    {F : ε' → τ → Prop} (hm : Meets m (view s) Q F) (h : ∀ a t, Q a t → P a (put s t))
    (hE : ∀ e t, F e t → E (wrap e) (put s t)) : Meets (Exec.zoom view put wrap m) s P E := by
  unfold Meets at hm ⊢
  unfold Exec.zoom
  rcases hms : m (view s) with ⟨e | a, t⟩ <;> rw [hms] at hm
  · exact hE e t hm
  · exact h a t hm

theorem run_error (hm : Meets m s P E) {e : ε} (h : m s = (.error e, s')) : E e s' := by
  rw [Meets, h] at hm
  exact hm

end Meets

/-! ### Programs that return -/

/-- From `s`, `m` returns. -/
def Halts (m : Exec σ ε α) (s : σ) : Prop := ∃ a s', m s = (.ok a, s')

namespace Halts

variable {m : Exec σ ε α} {s : σ} {P : α → σ → Prop}

theorem meets {E : ε → σ → Prop} (hm : Halts m s) (h : Ends m s P) : Meets m s P E := by
  obtain ⟨a, s', hs⟩ := hm
  exact .of_ok hs (h a s' hs)

end Halts

/-! ### Values returned -/

def Returns (Q : α → Prop) (m : Exec σ ε α) : Prop := ∀ s a s', m s = (.ok a, s') → Q a

theorem Returns.pure {Q : α → Prop} {a : α} (h : Q a) : Returns Q (Pure.pure a : Exec σ ε α) := by
  rintro s _ _ ⟨⟩
  exact h

theorem Returns.bind {Q : β → Prop} {m : Exec σ ε α} {f : α → Exec σ ε β} (h : ∀ a, Returns Q (f a)) :
    Returns Q (m >>= f) := by
  intro s b s' hs
  obtain ⟨a, s1, -, hf⟩ := bind_run_ok hs
  exact h a s1 b s' hf

end Exec
