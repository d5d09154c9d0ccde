import Xv6.Shell

/-!
# Tokens of a command line

The tokens of a line are its maximal words and the operators; `At` says which of them are behind the
cursor. `peek` looks at the first one and `gettoken` takes it, whatever white space there is.
-/

namespace Xv6.Shell

open Exec

inductive Tok
  | word (w : Word)
  | bar
  | lparen
  | rparen
  | semi
  | amp
  | lt
  | gt
  | gtgt
  deriving DecidableEq

/-- The operators of one character that no other operator begins with. -/
def single (c : UInt8) : Tok :=
  if c = '|' then .bar
  else if c = '(' then .lparen
  else if c = ')' then .rparen
  else if c = ';' then .semi
  else if c = '&' then .amp
  else .lt

def lex : Nat → List UInt8 → List Tok
  | _, [] => []
  | i, c :: l =>
    if isWhite c then lex (i + 1) l
    else if isPlain c then
      let n := (l.takeWhile isPlain).length
      .word ⟨i, i + 1 + n⟩ :: lex (i + 1 + n) (l.drop n)
    else if c = '>' then
      if l.head? = some ('>' : UInt8) then .gtgt :: lex (i + 2) (l.drop 1) else .gt :: lex (i + 1) l
    else single c :: lex (i + 1) l
termination_by _ l => l.length
decreasing_by all_goals simp only [List.length_cons, List.length_drop]; omega

def tokens (s : List UInt8) : List Tok := lex 0 (cstr s)

/-- What `gettoken` returns for a token. -/
def Tok.code : Tok → UInt8
  | .word _ => 'a'
  | .bar => '|'
  | .lparen => '('
  | .rparen => ')'
  | .semi => ';'
  | .amp => '&'
  | .lt => '<'
  | .gt => '>'
  | .gtgt => '+'

/-- The first character of an operator. -/
def Tok.char? : Tok → Option UInt8
  | .word _ => none
  | .gtgt => some '>'
  | t => some t.code

/-- Whether `peek` finds one of `toks` before the tokens `ts`. -/
def sees (toks : List UInt8) (ts : List Tok) : Bool := (ts.head?.bind Tok.char?).any toks.contains

variable {s l : List UInt8} {i ps : Nat} {c : UInt8} {t : Tok} {ts : List Tok} {toks : List UInt8}

/-! ### Characters -/

theorem cstr_ne_zero (h : c ∈ cstr s) : c ≠ 0 := by
  rw [cstr] at h
  simpa using List.mem_takeWhile_imp h

theorem getD_cstr (s : List UInt8) (h : i ≤ (cstr s).length) : s.getD i 0 = (cstr s).getD i 0 := by
  induction s generalizing i with
  | nil => rfl
  | cons c s ih =>
    unfold cstr at h ⊢
    by_cases hc : c = 0
    · subst hc
      rw [List.takeWhile_cons_of_neg (by decide)] at h ⊢
      obtain rfl : i = 0 := Nat.le_zero.1 h
      rfl
    · have hpos : decide (c ≠ 0) = true := decide_eq_true hc
      rw [List.takeWhile_cons, if_pos hpos] at h ⊢
      cases i with
      | zero => rfl
      | succ i => exact ih (Nat.le_of_succ_le_succ h)

theorem lt_of_drop (h : (cstr s).drop i = c :: l) : i < (cstr s).length := by
  by_contra hge
  rw [List.drop_eq_nil_of_le (Nat.le_of_not_lt hge)] at h
  cases h

theorem byte_of_drop (h : (cstr s).drop i = c :: l) : byte s i = c := by
  have hlt := lt_of_drop h
  rw [byte, getD_cstr s hlt.le, List.getD_eq_getElem?_getD, ← List.head?_drop, h]
  rfl

theorem byte_end (s : List UInt8) : byte s (cstr s).length = 0 := by
  rw [byte, getD_cstr s le_rfl, List.getD_eq_getElem?_getD, List.getElem?_eq_none le_rfl]
  rfl

theorem drop_succ_of (h : (cstr s).drop i = c :: l) : (cstr s).drop (i + 1) = l := by
  rw [← List.drop_drop, h]
  rfl

theorem skip_eq (s : List UInt8) (kind : UInt8 → Bool) (i : Nat) :
    skip s (cstr s).length kind i = i + (((cstr s).drop i).takeWhile kind).length := by
  generalize hl : (cstr s).drop i = l
  induction l generalizing i with
  | nil =>
    have hge : ¬ i < (cstr s).length := Nat.not_lt.2 (List.drop_eq_nil_iff.1 hl)
    rw [skip, if_neg fun h => hge h.1]
    rfl
  | cons c l ih =>
    have hlt := lt_of_drop hl
    rw [skip, byte_of_drop hl]
    by_cases hc : kind c = true
    · rw [if_pos ⟨hlt, hc⟩, ih (i + 1) (drop_succ_of hl), List.takeWhile_cons_of_pos hc, List.length_cons]
      omega
    · rw [if_neg fun h => hc h.2, List.takeWhile_cons_of_neg hc]
      rfl

/-! ### The cursor -/

structure At (s : List UInt8) (ts : List Tok) (ps : Nat) : Prop where
  le : ps ≤ (cstr s).length
  lex : lex ps ((cstr s).drop ps) = ts

theorem lex_white (i : Nat) (l : List UInt8) :
    lex (i + (l.takeWhile isWhite).length) (l.drop (l.takeWhile isWhite).length) = lex i l := by
  induction l generalizing i with
  | nil => rfl
  | cons c l ih =>
    by_cases hc : isWhite c = true
    · rw [List.takeWhile_cons_of_pos hc, List.length_cons, lex, if_pos hc, List.drop_succ_cons, ← ih (i + 1)]
      congr 1
      omega
    · rw [List.takeWhile_cons_of_neg hc]
      rfl

theorem At.white (h : At s ts ps) : At s ts (skip s (cstr s).length isWhite ps) := by
  rw [skip_eq]
  have hlen := (List.takeWhile_prefix isWhite (l := (cstr s).drop ps)).length_le
  rw [List.length_drop] at hlen
  refine ⟨by have := h.le; omega, ?_⟩
  rw [← List.drop_drop, lex_white, h.lex]

theorem head_drop_takeWhile (p : UInt8 → Bool) (l l' : List UInt8) (h : l.drop (l.takeWhile p).length = c :: l') :
    p c = false := by
  induction l with
  | nil => cases h
  | cons d l ih =>
    by_cases hd : p d = true
    · rw [List.takeWhile_cons_of_pos hd, List.length_cons, List.drop_succ_cons] at h
      exact ih h
    · rw [List.takeWhile_cons_of_neg hd] at h
      cases h
      exact eq_false_of_ne_true hd

/-- Behind white space there is another character, or the end. -/
theorem skip_stops (h : ps ≤ (cstr s).length) :
    skip s (cstr s).length isWhite ps = (cstr s).length ∨
    ∃ c l, (cstr s).drop (skip s (cstr s).length isWhite ps) = c :: l ∧ isWhite c = false := by
  have hle : skip s (cstr s).length isWhite ps ≤ (cstr s).length := (At.white ⟨h, rfl⟩).le
  cases hl : (cstr s).drop (skip s (cstr s).length isWhite ps) with
  | nil => exact .inl (le_antisymm hle (List.drop_eq_nil_iff.1 hl))
  | cons c l =>
    refine .inr ⟨c, l, rfl, head_drop_takeWhile isWhite ((cstr s).drop ps) l ?_⟩
    rw [List.drop_drop, ← skip_eq, hl]

theorem mem_of_drop (h : (cstr s).drop i = c :: l) : c ∈ cstr s :=
  List.mem_of_mem_drop (h ▸ List.mem_cons_self)

theorem symbols_cases (hw : isWhite c = false) (hp : isPlain c = false) :
    c = '<' ∨ c = '|' ∨ c = '>' ∨ c = '&' ∨ c = ';' ∨ c = '(' ∨ c = ')' := by
  rw [isWhite] at hw
  rw [isPlain, hw, Bool.not_false, Bool.true_and, Bool.not_eq_false', List.contains_iff_mem] at hp
  simpa [symbols] using hp

theorem not_symbol (h : isPlain c = true) :
    c ≠ '<' ∧ c ≠ '|' ∧ c ≠ '>' ∧ c ≠ '&' ∧ c ≠ ';' ∧ c ≠ '(' ∧ c ≠ ')' := by
  rw [isPlain, Bool.and_eq_true] at h
  simpa [symbols] using h.2

structure Scanned (s : List UInt8) (i : Nat) (c : UInt8) (t : Tok) : Prop where
  code : (scan s (cstr s).length i).1 = t.code
  word : ∀ w, t = .word w → w = ⟨i, (scan s (cstr s).length i).2⟩
  char : t.char? = if isPlain c then none else some c
  rest : At s (lex (scan s (cstr s).length i).2 ((cstr s).drop (scan s (cstr s).length i).2))
    (scan s (cstr s).length i).2
  lex : lex i ((cstr s).drop i) = t :: lex (scan s (cstr s).length i).2 ((cstr s).drop (scan s (cstr s).length i).2)

theorem scanned_word (hl : (cstr s).drop i = c :: l) (hw : isWhite c = false) (hp : isPlain c = true) :
    Scanned s i c (.word ⟨i, i + 1 + (l.takeWhile isPlain).length⟩) := by
  obtain ⟨h1, h2, h3, h4, h5, h6, h7⟩ := not_symbol hp
  have hne := cstr_ne_zero (mem_of_drop hl)
  have hskip : skip s (cstr s).length isPlain i = i + 1 + (l.takeWhile isPlain).length := by
    rw [skip_eq, hl, List.takeWhile_cons_of_pos hp, List.length_cons]
    omega
  have hscan : scan s (cstr s).length i = (('a' : UInt8), i + 1 + (l.takeWhile isPlain).length) := by
    simp only [scan, byte_of_drop hl, hne, h1, h2, h3, h4, h5, h6, h7, if_false, or_self, hskip]
  have hlen := (List.takeWhile_prefix isPlain (l := l)).length_le
  have hle : i + 1 + (l.takeWhile isPlain).length ≤ (cstr s).length := by
    have := congrArg List.length hl
    rw [List.length_drop, List.length_cons] at this
    omega
  constructor
  · rw [hscan]
    rfl
  · intro w heq
    rw [hscan]
    exact (Tok.word.inj heq).symm
  · rw [if_pos hp]
    rfl
  · rw [hscan]
    exact ⟨hle, rfl⟩
  · rw [hscan, ← List.drop_drop, drop_succ_of hl, hl, Shell.lex, if_neg (Bool.eq_false_iff.1 hw), if_pos hp]

/-- An operator of one character, not the first one of a longer operator. -/
theorem scanned_single (hl : (cstr s).drop i = c :: l) (hw : isWhite c = false) (hp : isPlain c = false)
    (hne : c ≠ '>') : Scanned s i c (single c) := by
  have hop : c = '|' ∨ c = '(' ∨ c = ')' ∨ c = ';' ∨ c = '&' ∨ c = '<' := by
    rcases symbols_cases hw hp with h | h | h | h | h | h | h
    all_goals simp only [h, true_or, or_true]
    exact absurd h hne
  have hscan : scan s (cstr s).length i = (c, i + 1) := by
    simp only [scan, byte_of_drop hl, cstr_ne_zero (mem_of_drop hl), if_false, if_pos hop]
  constructor
  · rw [hscan]
    rcases hop with rfl | rfl | rfl | rfl | rfl | rfl <;> rfl
  · rcases hop with rfl | rfl | rfl | rfl | rfl | rfl <;> nofun
  · rw [if_neg (Bool.eq_false_iff.1 hp)]
    rcases hop with rfl | rfl | rfl | rfl | rfl | rfl <;> rfl
  · rw [hscan]
    exact ⟨lt_of_drop hl, rfl⟩
  · rw [hscan, drop_succ_of hl, hl, Shell.lex, if_neg (Bool.eq_false_iff.1 hw), if_neg (Bool.eq_false_iff.1 hp),
      if_neg hne]

theorem byte_succ (hl : (cstr s).drop i = c :: l) : l.head? = some (byte s (i + 1)) ∨ l = [] ∧ byte s (i + 1) = 0 := by
  cases l with
  | nil =>
    have hend : i + 1 = (cstr s).length := by
      have := congrArg List.length hl
      rw [List.length_drop, List.length_singleton] at this
      omega
    exact .inr ⟨rfl, by rw [hend, byte_end]⟩
  | cons d l => exact .inl (congrArg some (byte_of_drop (drop_succ_of hl)).symm)

theorem scanned_gt (hl : (cstr s).drop i = ('>' : UInt8) :: l) : ∃ t, Scanned s i '>' t := by
  have hw : isWhite '>' = false := by decide
  have hp : isPlain '>' = false := by decide
  have hbyte := byte_of_drop hl
  have hlt := lt_of_drop hl
  by_cases hnext : l.head? = some ('>' : UInt8)
  · have hsecond : byte s (i + 1) = '>' := by
      rcases byte_succ hl with h | ⟨h, -⟩
      · exact Option.some.inj (h.symm.trans hnext)
      · rw [h] at hnext
        cases hnext
    have hscan : scan s (cstr s).length i = (('+' : UInt8), i + 2) := by
      rw [scan, hbyte, hsecond]
      rfl
    have hlt' : i + 1 < (cstr s).length := by
      obtain ⟨l', rfl⟩ := List.head?_eq_some_iff.1 hnext
      exact lt_of_drop (drop_succ_of hl)
    refine ⟨.gtgt, ?_, nofun, rfl, ?_, ?_⟩
    · rw [hscan]
      rfl
    · rw [hscan]
      exact ⟨hlt', rfl⟩
    · have hdrop : (cstr s).drop (i + 2) = l.drop 1 := by rw [← drop_succ_of hl, List.drop_drop]
      rw [hscan, hdrop, hl, Shell.lex, if_neg (Bool.eq_false_iff.1 hw), if_neg (Bool.eq_false_iff.1 hp), if_pos rfl,
        if_pos hnext]
  · have hsecond : byte s (i + 1) ≠ '>' := by
      rcases byte_succ hl with h | ⟨-, h⟩
      · exact fun heq => hnext (by rw [h, heq])
      · rw [h]
        decide
    have hscan : scan s (cstr s).length i = (('>' : UInt8), i + 1) := by
      rw [scan, hbyte, if_neg (by decide), if_neg (by decide), if_pos rfl, if_neg hsecond]
    refine ⟨.gt, ?_, nofun, rfl, ?_, ?_⟩
    · rw [hscan]
      rfl
    · rw [hscan]
      exact ⟨hlt, rfl⟩
    · rw [hscan, drop_succ_of hl, hl, Shell.lex, if_neg (Bool.eq_false_iff.1 hw), if_neg (Bool.eq_false_iff.1 hp),
        if_pos rfl, if_neg hnext]

theorem scanned (hl : (cstr s).drop i = c :: l) (hw : isWhite c = false) : ∃ t, Scanned s i c t := by
  by_cases hp : isPlain c = true
  · exact ⟨_, scanned_word hl hw hp⟩
  · by_cases hgt : c = '>'
    · subst hgt
      exact scanned_gt hl
    · exact ⟨_, scanned_single hl hw (eq_false_of_ne_true hp) hgt⟩

/-! ### `peek` and `gettoken` -/

theorem peek_at (toks : List UInt8) (h : At s ts ps) (htoks : toks.all symbols.contains = true) :
    ∃ ps', peek s (cstr s).length toks ps = (.ok (sees toks ts), ps') ∧ At s ts ps' := by
  refine ⟨_, Prod.ext (congrArg Except.ok ?_) rfl, h.white⟩
  obtain ⟨hle, hlex⟩ := h.white
  show decide (byte s (skip s (cstr s).length isWhite ps) ≠ 0 ∧ _) = _
  rcases skip_stops h.le with hend | ⟨c, l, hl, hw⟩
  · rw [hend, List.drop_length] at hlex
    rw [hend, byte_end, ← hlex]
    simp [Shell.lex, sees]
  · obtain ⟨t, ht⟩ := scanned hl hw
    rw [ht.lex] at hlex
    rw [byte_of_drop hl, ← hlex]
    have hne := cstr_ne_zero (mem_of_drop hl)
    simp only [sees, List.head?_cons, Option.bind_some, ht.char]
    split
    · rename_i hp
      have hnot : c ∉ toks := fun hmem => by
        have hsymbol := List.all_eq_true.1 htoks c hmem
        rw [isPlain, hsymbol, Bool.not_true, Bool.and_false] at hp
        cases hp
      simp [hnot]
    · simp [hne]

theorem gettoken_run (s : List UInt8) (ps : Nat) : gettoken s (cstr s).length ps =
    (.ok ((scan s (cstr s).length (skip s (cstr s).length isWhite ps)).1, ⟨skip s (cstr s).length isWhite ps,
      (scan s (cstr s).length (skip s (cstr s).length isWhite ps)).2⟩),
      skip s (cstr s).length isWhite (scan s (cstr s).length (skip s (cstr s).length isWhite ps)).2) := rfl

theorem gettoken_nil (h : At s [] ps) :
    ∃ w ps', gettoken s (cstr s).length ps = (.ok (0, w), ps') ∧ At s [] ps' := by
  obtain ⟨hle, hlex⟩ := h.white
  rw [gettoken_run]
  rcases skip_stops h.le with hend | ⟨c, l, hl, hw⟩
  · have hscan : scan s (cstr s).length (cstr s).length = (0, (cstr s).length) := by
      rw [scan, byte_end, if_pos rfl]
    rw [hend, hscan]
    exact ⟨_, _, rfl, At.white ⟨le_rfl, by rw [List.drop_length, Shell.lex]⟩⟩
  · obtain ⟨t, ht⟩ := scanned hl hw
    rw [ht.lex] at hlex
    cases hlex

theorem gettoken_cons (h : At s (t :: ts) ps) :
    ∃ w ps', gettoken s (cstr s).length ps = (.ok (t.code, w), ps') ∧ At s ts ps' ∧ ∀ w', t = .word w' → w' = w := by
  obtain ⟨hle, hlex⟩ := h.white
  rw [gettoken_run]
  rcases skip_stops h.le with hend | ⟨c, l, hl, hw⟩
  · rw [hend, List.drop_length, Shell.lex] at hlex
    cases hlex
  · obtain ⟨t', ht⟩ := scanned hl hw
    rw [ht.lex] at hlex
    obtain ⟨rfl, rfl⟩ := List.cons.inj hlex
    rw [ht.code]
    exact ⟨_, _, rfl, ht.rest.white, ht.word⟩

end Xv6.Shell
