import Xv6.Graphics

/-!
# What a drawing call does with its handle

None of the calls compares its handle with anything. Through the handle a call accesses the four
fields at that address and no others; besides, it writes pixels and copies the frame buffer to
video memory.
-/

namespace Xv6.Graphics

open Kmem Exec

variable {ι : Type} {E : Access → Prop} {s s' s₁ : St ι} {α : Type}

/-- From `s` to `s'` only accesses that satisfy `E` are made, and no byte changes that no write
among them covers. -/
def Confined (E : Access → Prop) (s s' : St ι) : Prop :=
  ∃ t, s'.trace = s.trace ++ t ∧ (∀ e ∈ t, E e) ∧
    ∀ q a, s'.byte q a ≠ s.byte q a → ∃ e ∈ t, e.write = true ∧ e.covers a

instance : Std.Refl (Confined E : St ι → St ι → Prop) :=
  ⟨fun s => ⟨[], by simp, nofun, fun q a h => absurd rfl h⟩⟩

instance : IsTrans (St ι) (Confined E) where
  trans s s₁ s' := by
    rintro ⟨t, ht, hE, hm⟩ ⟨t', ht', hE', hm'⟩
    refine ⟨t ++ t', by rw [ht', ht, List.append_assoc], fun e he => ?_, fun q a h => ?_⟩
    · rcases List.mem_append.1 he with he | he
      · exact hE e he
      · exact hE' e he
    · by_cases h₁ : s₁.byte q a = s.byte q a
      · rw [← h₁] at h
        obtain ⟨e, he, h⟩ := hm' q a h
        exact ⟨e, List.mem_append_right _ he, h⟩
      · obtain ⟨e, he, h⟩ := hm q a h₁
        exact ⟨e, List.mem_append_left _ he, h⟩

theorem Confined.of_log {e : Access} (he : E e) : Confined E s (s.log e) :=
  ⟨[e], rfl, by simpa using he, fun _ _ h => absurd rfl h⟩

theorem byte_put [DecidableEq ι] {p q : ι} {a x : UInt32} {len : Nat} {src : Nat → UInt8}
    (h : (s.put p a len src).byte q x ≠ s.byte q x) : (x - a).toNat < len := by
  by_contra hlt
  refine h ?_
  simp [St.byte, St.put, hlt]

variable {p : Proc ι} {k : Kind} {a : UInt32}

theorem Confined.of_put [DecidableEq ι] {q : ι} {len : Nat} {src : Nat → UInt8} (h : E ⟨k, true, a, len⟩) :
    Confined E s ((s.put q a len src).log ⟨k, true, a, len⟩) := by
  refine ⟨[⟨k, true, a, len⟩], rfl, by simpa using h, fun q' x hx => ⟨⟨k, true, a, len⟩, by simp, rfl, ?_⟩⟩
  change (s.put q a len src).byte q' x ≠ s.byte q' x at hx
  exact byte_put hx

theorem moves_load (h : E ⟨k, false, a, 4⟩) : Moves (Confined E) (load p k a) := by
  intro s
  unfold load
  split
  · exact .of_log h
  · exact .of_log h

theorem moves_loadChar (h : E ⟨k, false, a, 1⟩) : Moves (Confined E) (loadChar p k a) := by
  intro s
  unfold loadChar
  split
  · exact .of_log h
  · exact .of_log h

theorem moves_argint (h : ∀ a, E ⟨.arg, false, a, 4⟩) (n : Nat) : Moves (Confined E) (argint p n) := by
  unfold argint fetchint
  split
  · exact .pure none
  · exact .bind (moves_load (h _)) fun v => .pure (some v)

theorem moves_argptr (h : ∀ a, E ⟨.arg, false, a, 4⟩) (n : Nat) (size : UInt32) :
    Moves (Confined E) (argptr p n size) := by
  refine .bind (moves_argint h n) fun v => ?_
  rcases v with _ | i
  · exact .pure none
  · dsimp only
    split
    · exact .pure none
    · exact .pure _

theorem moves_forUp {lo hi : Int} {body : Int → K ι Unit} (hb : ∀ x, Moves (Confined E) (body x)) :
    Moves (Confined E) (forUp lo hi body) := by
  refine .bind (.rounds hb _ _) fun _ => ?_
  split
  · exact .stop _
  · exact .pure ()

/-! ### Accesses of a call with handle `h` -/

/-- The accesses a call makes with the handle `h`: the fields at `h`, and otherwise reads of its
arguments and of `indexWritten`, pixels and the copy to video memory. -/
def ByHandle (h : UInt32) (e : Access) : Prop :=
  match e.kind with
  | .hdc => ∃ f : Field, e.addr = h + f.offset ∧ e.len = 4
  | .arg => e.write = false
  | .palette => e.write = false
  | .pixel => e.len = 1
  | .screen => e.len = 2 * 320 * 200
  | _ => False

variable {g : Symbols} {h : UInt32}

theorem moves_getField (f : Field) : Moves (Confined (ByHandle h)) (getField p h f) :=
  moves_load ⟨f, rfl, rfl⟩

variable [DecidableEq ι]

theorem moves_storeBytes {len : Nat} {v : Int} (h : E ⟨k, true, a, len⟩) :
    Moves (Confined E) (storeBytes p k a len v) := by
  intro s
  unfold storeBytes
  split
  · exact .of_put h
  · exact .of_log h

theorem moves_setField (f : Field) (v : Int) : Moves (Confined (ByHandle h)) (setField p h f v) :=
  moves_storeBytes ⟨f, rfl, rfl⟩

theorem moves_plot (x y : Int) : Moves (Confined (ByHandle h)) (plot g p h x y) :=
  .bind (moves_getField .colour) fun _ => moves_storeBytes rfl

theorem moves_verticalLine {x y1 y2 d : Int} :
    Moves (Confined (ByHandle h)) (verticalLine g p h x y1 y2 d) := by
  refine .bind (moves_forUp fun y => moves_plot x y) fun _ => ?_
  split
  · exact moves_setField .y y1
  · exact moves_setField .y y2

theorem moves_horizontalLine {x1 x2 y d : Int} :
    Moves (Confined (ByHandle h)) (horizontalLine g p h x1 x2 y d) := by
  refine .bind (moves_forUp fun x => moves_plot x y) fun _ => ?_
  split
  · exact moves_setField .x x1
  · exact moves_setField .x x2

theorem moves_bressenhamRounds (dx dy m : Int) (n : Nat) (x y err : Int) :
    Moves (Confined (ByHandle h)) (bressenhamRounds g p h dx dy m n x y err) := by
  induction n generalizing x y err with
  | zero => exact .pure ()
  | succ n ih =>
    exact .bind (moves_plot x y) fun _ => .bind (moves_loadChar rfl) fun _ =>
      .bind (moves_setField .x x) fun _ => .bind (moves_setField .y _) fun _ => ih _ _ _

theorem moves_bressenhamLine {x1 x2 y1 y2 : Int} :
    Moves (Confined (ByHandle h)) (bressenhamLine g p x1 x2 y1 y2 h) := by
  refine .bind (moves_bressenhamRounds _ _ _ _ _ _ _) fun _ => ?_
  split
  · exact .stop _
  · exact .pure ()

/-- A call that takes a point. -/
def withPoint (p : Proc ι) (f : Int → Int → K ι Int) : K ι Int := do
  let some uX ← argint p 1 | return -1
  let some uY ← argint p 2 | return -1
  f uX uY

def HandleCall.success (h : Int) : HandleCall → Int
  | .setpixel => 0
  | .moveto => 0
  | .lineto => 1
  | .selectpen => h
  | .fillrect => 1
  | .endpaint => 0

/-- The arguments besides the handle are in the process's memory. -/
def HandleCall.ArgsOk (p : Proc ι) (s : St ι) : HandleCall → Prop
  | .setpixel => p.ArgOk 1 ∧ p.ArgOk 2
  | .moveto => p.ArgOk 1 ∧ p.ArgOk 2
  | .lineto => p.ArgOk 1 ∧ p.ArgOk 2
  | .selectpen => p.ArgOk 1
  | .fillrect => p.ArgOk 1 ∧ p.PtrOk (s.int p.who (p.argAddr 1)) 16
  | .endpaint => True

omit [DecidableEq ι] in
theorem load_ok {v : Int} (hs : load p k a s = (.ok v, s')) :
    v = s.int p.who a ∧ s' = s.log ⟨k, false, a, 4⟩ := by
  unfold load at hs
  split at hs
  · obtain ⟨h1, h2⟩ := Prod.mk.inj hs
    exact ⟨(Except.ok.inj h1).symm, h2.symm⟩
  · cases (Prod.mk.inj hs).1

omit [DecidableEq ι] in
theorem argint_ok {n : Nat} {v : Option Int} (hs : argint p n s = (.ok v, s')) :
    (p.ArgOk n → v = some (s.int p.who (p.argAddr n))) ∧ (¬ p.ArgOk n → v = none) ∧
      s'.kernel = s.kernel ∧ s'.user = s.user := by
  unfold argint fetchint at hs
  split at hs
  · rename_i hn
    cases hs
    exact ⟨fun h => absurd hn h, fun _ => rfl, rfl, rfl⟩
  · rename_i hn
    obtain ⟨a, s₁, hl, hp⟩ := bind_run_ok hs
    obtain ⟨ha, hs1⟩ := load_ok hl
    obtain ⟨h1, h2⟩ := Prod.mk.inj hp
    rw [← h2, hs1]
    exact ⟨fun _ => by rw [← ha]; exact (Except.ok.inj h1).symm, fun h => absurd hn h, rfl, rfl⟩

def Rejected (s s' : St ι) (r : Int) : Prop := r = -1 ∧ s'.kernel = s.kernel ∧ s'.user = s.user

omit [DecidableEq ι] in
theorem argint_isSome {n : Nat} {v : Option Int} (hs : argint p n s = (.ok v, s')) :
    (p.ArgOk n → v.isSome = true) ∧ (¬ p.ArgOk n → v = none) ∧ s'.kernel = s.kernel ∧ s'.user = s.user := by
  obtain ⟨h1, h2⟩ := argint_ok hs
  exact ⟨fun h => by rw [h1 h]; rfl, h2⟩

omit [DecidableEq ι] in
theorem argptr_ok {n : Nat} {size : UInt32} {v : Option UInt32} (hs : argptr p n size s = (.ok v, s')) :
    (p.ArgOk n ∧ p.PtrOk (s.int p.who (p.argAddr n)) size → v.isSome = true) ∧
      (¬ (p.ArgOk n ∧ p.PtrOk (s.int p.who (p.argAddr n)) size) → v = none) ∧
      s'.kernel = s.kernel ∧ s'.user = s.user := by
  obtain ⟨i, s₁, hi, hs⟩ := bind_run_ok hs
  obtain ⟨h1, h2, h3, h4⟩ := argint_ok hi
  by_cases hn : p.ArgOk n
  · rw [h1 hn] at hs
    dsimp only at hs
    split at hs
    · rename_i hp
      cases hs
      exact ⟨fun h => absurd hp h.2, fun _ => rfl, h3, h4⟩
    · rename_i hp
      cases hs
      exact ⟨fun _ => rfl, fun h => absurd ⟨hn, hp⟩ h, h3, h4⟩
  · rw [h2 hn] at hs
    cases hs
    exact ⟨fun h => absurd h.1 hn, fun _ => rfl, h3, h4⟩

omit [DecidableEq ι] in
/-- One more argument, accepted if `Q`: the call goes on with its value, or returns -1. -/
theorem fetch_bind {β : Type} {m : K ι (Option β)} {k : Option β → K ι Int} {r w : Int} {P Q : Prop}
    (hm : ∀ v s₁, m s = (.ok v, s₁) →
      (Q → v.isSome = true) ∧ (¬ Q → v = none) ∧ s₁.kernel = s.kernel ∧ s₁.user = s.user)
    (hs : (m >>= k) s = (.ok r, s')) (hnone : k none = pure (-1))
    (hf : ∀ v s₁, k (some v) s₁ = (.ok r, s') → (P → r = w) ∧ (¬ P → Rejected s₁ s' r)) :
    (Q ∧ P → r = w) ∧ (¬ (Q ∧ P) → Rejected s s' r) := by
  obtain ⟨v, s₁, hv, hs⟩ := bind_run_ok hs
  obtain ⟨h1, h2, h3, h4⟩ := hm v s₁ hv
  by_cases hQ : Q
  · obtain ⟨v, rfl⟩ := Option.isSome_iff_exists.1 (h1 hQ)
    obtain ⟨h5, h6⟩ := hf v s₁ hs
    refine ⟨fun h => h5 h.2, fun h => ?_⟩
    obtain ⟨h7, h8, h9⟩ := h6 fun hP => h ⟨hQ, hP⟩
    exact ⟨h7, h8.trans h3, h9.trans h4⟩
  · rw [h2 hQ, hnone] at hs
    cases hs
    exact ⟨fun h => absurd h.1 hQ, fun _ => ⟨rfl, h3, h4⟩⟩

theorem returns_lineto (v x y : Int) : Returns (· = 1) (lineto g p v x y) := by
  have htail : ∀ _ : Unit, Returns (· = 1) (do flush g p; pure 1 : K ι Int) :=
    fun _ => .bind fun _ => .pure rfl
  refine .bind fun sX => .bind fun sY => ?_
  dsimp only
  split
  · split <;> exact .bind htail
  · split
    · split <;> exact .bind htail
    · exact .bind htail

theorem returns_selectpen (v i : Int) : Returns (· = v) (selectpen g p v i) := by
  have htail : ∀ known : Bool, Returns (· = v) (do
      if known then
        setField p (uint v) .colour i
        let _ ← getField p (uint v) .colour
      pure v : K ι Int) := by
    intro known
    cases known
    · exact .pure rfl
    · exact .bind fun _ => .bind fun _ => .pure rfl
  unfold selectpen
  dsimp only
  split
  · exact .bind htail
  · exact .bind fun _ => .bind htail

theorem returns_fillrect (v : Int) (r : UInt32) : Returns (· = 1) (fillrect g p v r) := by
  refine .bind fun _ => .bind fun _ => .bind fun _ => .bind fun _ => ?_
  dsimp only
  split <;> exact .bind fun _ => .bind fun _ => .pure rfl

theorem body_returns (c : HandleCall) (v : Int) {r : Int} (hs : c.body g p v s = (.ok r, s')) :
    (c.ArgsOk p s → r = c.success v) ∧ (¬ c.ArgsOk p s → Rejected s s' r) := by
  have hpoint : ∀ f : Int → Int → K ι Int, ∀ w, (∀ x y, Returns (· = w) (f x y)) → withPoint p f s = (.ok r, s') →
      (p.ArgOk 1 ∧ p.ArgOk 2 → r = w) ∧ (¬ (p.ArgOk 1 ∧ p.ArgOk 2) → Rejected s s' r) := by
    intro f w hf hs
    refine fetch_bind (fun _ _ => argint_isSome) hs rfl fun x s₁ hs => ?_
    have := fetch_bind (P := True) (w := w) (fun _ _ => argint_isSome) hs rfl fun y s2 hs =>
      ⟨fun _ => hf x y _ _ _ hs, fun h => absurd trivial h⟩
    simpa using this
  cases c with
  | setpixel => exact hpoint _ 0 (fun x y => .bind fun _ => .bind fun _ => .pure rfl) hs
  | moveto => exact hpoint _ 0 (fun x y => .bind fun _ => .bind fun _ => .pure rfl) hs
  | lineto => exact hpoint _ 1 (returns_lineto v) hs
  | selectpen =>
    have := fetch_bind (P := True) (w := v) (fun _ _ => argint_isSome) hs rfl fun i s2 hs =>
      ⟨fun _ => returns_selectpen v i _ _ _ hs, fun h => absurd trivial h⟩
    simpa [HandleCall.ArgsOk, HandleCall.success] using this
  | fillrect =>
    have := fetch_bind (P := True) (w := 1) (fun _ _ => argptr_ok) hs rfl fun q s2 hs =>
      ⟨fun _ => returns_fillrect v q _ _ _ hs, fun h => absurd trivial h⟩
    simpa [HandleCall.ArgsOk, HandleCall.success] using this
  | endpaint =>
    have hret : Returns (· = 0) (endpaint p v) := .bind fun _ => .pure rfl
    exact ⟨fun _ => hret _ _ _ hs, fun h => absurd trivial h⟩

/-- A call whose arguments are all in the process's memory runs with the values they have there; any
other call returns -1. -/
theorem sys_returns (c : HandleCall) {r : Int} (hs : c.sys g p s = (.ok r, s')) :
    (p.ArgOk 0 ∧ c.ArgsOk p s → r = c.success (s.int p.who (p.argAddr 0))) ∧
      (¬ (p.ArgOk 0 ∧ c.ArgsOk p s) → Rejected s s' r) := by
  obtain ⟨v, s₁, ha, hs⟩ := bind_run_ok hs
  obtain ⟨h1, h2, h3, h4⟩ := argint_ok ha
  have hargs : c.ArgsOk p s₁ ↔ c.ArgsOk p s := by
    have hint : s₁.int p.who = s.int p.who := St.int_congr h3 h4
    cases c with
    | fillrect => rw [HandleCall.ArgsOk, HandleCall.ArgsOk, hint]
    | _ => exact Iff.rfl
  by_cases hn : p.ArgOk 0
  · rw [h1 hn] at hs
    obtain ⟨h5, h6⟩ := body_returns c _ hs
    refine ⟨fun h => h5 (hargs.2 h.2), fun h => ?_⟩
    obtain ⟨h7, h8, h9⟩ := h6 fun hc => h ⟨hn, hargs.1 hc⟩
    exact ⟨h7, h8.trans h3, h9.trans h4⟩
  · rw [h2 hn] at hs
    cases hs
    exact ⟨fun h => absurd h.1 hn, fun _ => ⟨rfl, h3, h4⟩⟩

def sampleSymbols : Symbols := ⟨0x80110000, 0x80120000, 0x80121000, 0x80122000⟩

/-- Process `i` has pid `i + 1`, two pages of memory and its stack pointer at 4096. -/
def sampleProc (i : Fin 2) : Proc (Fin 2) := ⟨i, i.val + 1, 8192, 4096, fun _ => true, fun _ => true⟩

def movetoStack (a : UInt32) : UInt8 :=
  Bytes.leByte (if a < 4104 then 0x80122000 else if a < 4108 then 5 else 6) (a.toNat % 4)

end Xv6.Graphics
