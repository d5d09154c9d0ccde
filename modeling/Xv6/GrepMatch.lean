import Mathlib

/-!
# The matcher of `grep` (`grep.c`)

Strings are their bytes up to the terminating 0. `matchhere` and `matchstar` search with backtracking; what
they are to find is said by reading the pattern as a list of items (`items`) and each item as a set of
strings (`Item.Takes`). `matchPattern_iff` says that the two agree.
-/

namespace Xv6.Grep

abbrev caret : UInt8 := 94
abbrev dollar : UInt8 := 36
abbrev star : UInt8 := 42
abbrev dot : UInt8 := 46

/-! ### The program -/

/-- `matchstar(c, re, text)`, where `here` is `matchhere` for `re`. -/
def matchstar (here : List UInt8 → Bool) (c : UInt8) : List UInt8 → Bool
  | [] => here []
  | x :: text =>
    if here (x :: text) then true
    else if x = c ∨ c = dot then matchstar here c text
    else false

/-- The last two lines of `matchhere`, where `next` is `matchhere` for `re + 1`. -/
def matchchar (next : List UInt8 → Bool) (c : UInt8) : List UInt8 → Bool
  | [] => false
  | x :: text => if c = dot ∨ c = x then next text else false

def matchhere : List UInt8 → List UInt8 → Bool
  | [], _ => true
  | [c], text => if c = dollar then text.isEmpty else matchchar (matchhere []) c text
  | c :: d :: re, text => if d = star then matchstar (matchhere re) c text else matchchar (matchhere (d :: re)) c text

def matchFrom (re : List UInt8) : List UInt8 → Bool
  | [] => matchhere re []
  | x :: text => if matchhere re (x :: text) then true else matchFrom re text

def matchPattern (re text : List UInt8) : Bool :=
  match re with
  | c :: re' => if c = caret then matchhere re' text else matchFrom re text
  | [] => matchFrom [] text

/-! ### The meaning of a pattern -/

inductive Item
  | one (c : UInt8)
  | many (c : UInt8)
  | eol

/-- The bytes a character of the pattern stands for. -/
def Stands (c x : UInt8) : Prop := c = dot ∨ c = x

/-- The item matches `u` where `rest` follows. -/
def Item.Takes : Item → List UInt8 → List UInt8 → Prop
  | .one c, u, _ => ∃ x, u = [x] ∧ Stands c x
  | .many c, u, _ => ∀ x ∈ u, Stands c x
  | .eol, u, rest => u = [] ∧ rest = []

/-- The items match `u`, one after the other, where `rest` follows. -/
def Takes : List Item → List UInt8 → List UInt8 → Prop
  | [], u, _ => u = []
  | i :: is, u, rest => ∃ v w, u = v ++ w ∧ i.Takes v (w ++ rest) ∧ Takes is w rest

def items : List UInt8 → List Item
  | [] => []
  | [c] => if c = dollar then [.eol] else [.one c]
  | c :: d :: re => if d = star then .many c :: items re else .one c :: items (d :: re)

def body : List UInt8 → List UInt8
  | c :: re => if c = caret then re else c :: re
  | [] => []

/-! ### Correctness -/

/-- A prefix of `text` is matched by the items. -/
def Begins (is : List Item) (text : List UInt8) : Prop := ∃ u rest, text = u ++ rest ∧ Takes is u rest

variable {is : List Item} {here next : List UInt8 → Bool} {re text : List UInt8} {c : UInt8}

theorem begins_nil (text : List UInt8) : Begins [] text := ⟨[], text, rfl, rfl⟩

theorem begins_cons {i : Item} : Begins (i :: is) text ↔ ∃ v t, text = v ++ t ∧ ∃ w rest, t = w ++ rest ∧
    i.Takes v (w ++ rest) ∧ Takes is w rest := by
  constructor
  · rintro ⟨_, rest, rfl, v, w, rfl, hi, his⟩
    exact ⟨v, w ++ rest, List.append_assoc .., w, rest, rfl, hi, his⟩
  · rintro ⟨v, _, rfl, w, rest, rfl, hi, his⟩
    exact ⟨v ++ w, rest, (List.append_assoc ..).symm, v, w, rfl, hi, his⟩

theorem begins_cons_of {i : Item} {P : List UInt8 → Prop} (h : ∀ u rest, i.Takes u rest ↔ P u) :
    Begins (i :: is) text ↔ ∃ v t, text = v ++ t ∧ P v ∧ Begins is t := by
  rw [begins_cons]
  constructor
  · rintro ⟨v, t, rfl, w, rest, rfl, hi, his⟩
    exact ⟨v, w ++ rest, rfl, (h ..).1 hi, w, rest, rfl, his⟩
  · rintro ⟨v, _, rfl, hv, w, rest, rfl, his⟩
    exact ⟨v, w ++ rest, rfl, w, rest, rfl, (h ..).2 hv, his⟩

theorem begins_eol : Begins [.eol] text ↔ text = [] := by
  rw [begins_cons]
  constructor
  · rintro ⟨v, _, rfl, w, rest, rfl, ⟨rfl, hrest⟩, -⟩
    exact hrest
  · rintro rfl
    exact ⟨[], [], rfl, [], [], rfl, ⟨rfl, rfl⟩, rfl⟩

theorem matchchar_iff (hnext : ∀ t, next t = true ↔ Begins is t) :
    matchchar next c text = true ↔ Begins (.one c :: is) text := by
  rw [begins_cons_of fun _ _ => Iff.rfl]
  cases text with
  | nil =>
    refine ⟨fun h => (Bool.false_ne_true h).elim, ?_⟩
    rintro ⟨_, t, h, ⟨x, rfl, -⟩, -⟩
    cases h
  | cons x text =>
    rw [matchchar]
    constructor
    · intro h
      split at h
      · rename_i hc
        exact ⟨[x], text, rfl, ⟨x, rfl, hc⟩, (hnext text).1 h⟩
      · cases h
    · rintro ⟨_, t, h, ⟨y, rfl, hc⟩, ht⟩
      cases h
      have hcond : c = dot ∨ c = x := hc
      rw [if_pos hcond]
      exact (hnext t).2 ht

theorem matchstar_iff (hhere : ∀ t, here t = true ↔ Begins is t) :
    matchstar here c text = true ↔ Begins (.many c :: is) text := by
  rw [begins_cons_of fun _ _ => Iff.rfl]
  induction text with
  | nil =>
    rw [matchstar, hhere]
    refine ⟨fun h => ⟨[], [], rfl, nofun, h⟩, ?_⟩
    rintro ⟨v, t, h, -, ht⟩
    rwa [(List.append_eq_nil_iff.1 h.symm).2] at ht
  | cons x text ih =>
    rw [matchstar]
    split
    · rename_i h
      exact iff_of_true rfl ⟨[], x :: text, rfl, nofun, (hhere _).1 h⟩
    · rename_i h
      -- an empty match is ruled out, so the first character belongs to the repetition
      rw [hhere] at h
      have hfirst : (∃ v t, x :: text = v ++ t ∧ (∀ y ∈ v, Stands c y) ∧ Begins is t) ↔
          Stands c x ∧ ∃ v t, text = v ++ t ∧ (∀ y ∈ v, Stands c y) ∧ Begins is t := by
        constructor
        · rintro ⟨v, t, htext, hv, ht⟩
          cases v with
          | nil => exact absurd (htext ▸ ht) h
          | cons y v =>
            cases htext
            exact ⟨hv x (List.mem_cons_self ..), v, t, rfl, fun y hy => hv y (List.mem_cons_of_mem _ hy), ht⟩
        · rintro ⟨hx, v, t, rfl, hv, ht⟩
          exact ⟨x :: v, t, rfl, List.forall_mem_cons.2 ⟨hx, hv⟩, ht⟩
      refine Iff.trans ?_ hfirst.symm
      split
      · rename_i hc
        have hstands : Stands c x := hc.symm.imp_right Eq.symm
        exact ih.trans (and_iff_right hstands).symm
      · rename_i hc
        refine iff_of_false Bool.false_ne_true fun hno => hc ?_
        exact hno.1.symm.imp_left Eq.symm

theorem matchhere_iff (re text : List UInt8) : matchhere re text = true ↔ Begins (items re) text := by
  induction re using items.induct generalizing text with
  | case1 => exact iff_of_true rfl (begins_nil text)
  | case2 =>
    rw [matchhere, items, if_pos rfl, if_pos rfl, begins_eol, List.isEmpty_iff]
  | case3 c hc =>
    rw [matchhere, items, if_neg hc, if_neg hc]
    exact matchchar_iff fun t => iff_of_true rfl (begins_nil t)
  | case4 c re ih =>
    rw [matchhere, items, if_pos rfl, if_pos rfl]
    exact matchstar_iff ih
  | case5 c d re hd ih =>
    rw [matchhere, items, if_neg hd, if_neg hd]
    exact matchchar_iff ih

theorem matchFrom_iff : matchFrom re text = true ↔ ∃ pre t, text = pre ++ t ∧ Begins (items re) t := by
  induction text with
  | nil =>
    rw [matchFrom, matchhere_iff]
    refine ⟨fun h => ⟨[], [], rfl, h⟩, ?_⟩
    rintro ⟨pre, t, h, ht⟩
    rwa [(List.append_eq_nil_iff.1 h.symm).2] at ht
  | cons x text ih =>
    rw [matchFrom]
    split
    · rename_i h
      exact iff_of_true rfl ⟨[], x :: text, rfl, (matchhere_iff ..).1 h⟩
    · rename_i h
      rw [ih]
      constructor
      · rintro ⟨pre, t, rfl, ht⟩
        exact ⟨x :: pre, t, rfl, ht⟩
      · rintro ⟨pre, t, htext, ht⟩
        cases pre with
        | nil => exact absurd ((matchhere_iff ..).2 (htext ▸ ht)) h
        | cons y pre =>
          cases htext
          exact ⟨pre, t, rfl, ht⟩

/-- `match` finds out whether some part of the text, the first part if the pattern begins with `^`, is matched by
the items of the pattern. -/
theorem matchPattern_iff (re text : List UInt8) : matchPattern re text = true ↔
    ∃ pre u rest, text = pre ++ u ++ rest ∧ (re.head? = some caret → pre = []) ∧ Takes (items (body re)) u rest := by
  have hfrom : ∀ re' : List UInt8, matchFrom re' text = true ↔
      ∃ pre u rest, text = pre ++ u ++ rest ∧ Takes (items re') u rest := by
    intro re'
    rw [matchFrom_iff]
    constructor
    · rintro ⟨pre, _, rfl, u, rest, rfl, h⟩
      exact ⟨pre, u, rest, (List.append_assoc ..).symm, h⟩
    · rintro ⟨pre, u, rest, rfl, h⟩
      exact ⟨pre, u ++ rest, List.append_assoc .., u, rest, rfl, h⟩
  cases re with
  | nil => simpa [matchPattern, body] using hfrom []
  | cons c re =>
    rw [matchPattern, body]
    by_cases hc : c = caret
    · rw [if_pos hc, if_pos hc, matchhere_iff]
      constructor
      · rintro ⟨u, rest, rfl, h⟩
        exact ⟨[], u, rest, rfl, fun _ => rfl, h⟩
      · rintro ⟨pre, u, rest, htext, hpre, h⟩
        rw [hpre (congrArg some hc)] at htext
        exact ⟨u, rest, htext, h⟩
    · rw [if_neg hc, if_neg hc, hfrom]
      simp [hc]

end Xv6.Grep
