import Xv6.ShellGrammar

/-!
# The strings of a command

All words of a tree point into the line that was read, and `nulterminate` writes a 0 behind each of them.
A word is a maximal run of plain characters, so the byte behind it belongs to no word.
-/

namespace Xv6.Shell

open Exec

def Cmd.words : Cmd → List Word
  | .exec argv => argv
  | .redir cmd file _ _ => cmd.words ++ [file]
  | .pipe left right => left.words ++ right.words
  | .list left right => left.words ++ right.words
  | .back cmd => cmd.words

variable {s buf : List UInt8} {us : List Tok} {rs : List (Tok × Word)} {ws : List Word} {n i : Nat} {c : Cmd} {w : Word}

/-! ### The words of a tree -/

theorem words_wrap (c : Cmd) (rs : List (Tok × Word)) : (wrap c rs).words = c.words ++ rs.map Prod.snd := by
  induction rs generalizing c with
  | nil => exact (List.append_nil _).symm
  | cons r rs ih =>
    have hredir : (redirect c r.2 r.1).words = c.words ++ [r.2] := by
      unfold redirect
      split <;> rfl
    show (wrap (redirect c r.2 r.1) rs).words = _
    rw [ih, hredir, List.append_assoc]
    rfl

theorem words_backs (k : Nat) (c : Cmd) : (Cmd.back^[k] c).words = c.words := by
  induction k generalizing c with
  | zero => rfl
  | succ k ih => exact ih c.back

theorem Redirs.words (h : Redirs us rs) : Tok.word w ∈ us ↔ w ∈ rs.map Prod.snd := by
  induction h with
  | nil => simp
  | @cons t w' us rs ht h ih =>
    have hne : Tok.word w ≠ t := fun heq => by
      subst heq
      simp [redirToks] at ht
    simp only [List.mem_cons, hne, false_or, Tok.word.injEq, List.map_cons, ih]

theorem Args.words (h : Args us ws rs) : Tok.word w ∈ us ↔ w ∈ ws ++ rs.map Prod.snd := by
  induction h with
  | nil => simp
  | cons hr h ih =>
    simp only [List.cons_append, List.mem_cons, Tok.word.injEq, List.mem_append, hr.words, ih, List.map_append]
    grind

theorem Derives.words {nt : Nonterminal} (h : Derives nt us c) : Tok.word w ∈ us ↔ w ∈ c.words := by
  induction h with
  | line k h ih => simp [words_backs, ih]
  | list k h h' ih ih' => simp [Cmd.words, words_backs, ih, ih']
  | one h ih => exact ih
  | pipe h h' ih ih' => simp [Cmd.words, ih, ih']
  | block h hr ih => simp [words_wrap, ih, hr.words]
  | simple hr ha hlen =>
    rw [words_wrap, Cmd.words, List.mem_append, List.mem_append, hr.words, ha.words, List.map_append, List.mem_append,
      List.mem_append]
    exact or_left_comm

/-! ### The words of a line -/

/-- `w` is a maximal run of plain characters. -/
structure IsWord (s : List UInt8) (w : Word) : Prop where
  lt : w.q < w.eq
  le : w.eq ≤ (cstr s).length
  plain : ∀ i, w.q ≤ i → i < w.eq → isPlain (byte s i) = true
  maximal : w.eq = (cstr s).length ∨ isPlain (byte s w.eq) = false

theorem byte_takeWhile {l : List UInt8} (hl : (cstr s).drop i = l) {p : UInt8 → Bool} {j : Nat}
    (hj : j < (l.takeWhile p).length) : p (byte s (i + j)) = true := by
  induction l generalizing i j with
  | nil => exact absurd hj (Nat.not_lt_zero j)
  | cons c l ih =>
    by_cases hc : p c = true
    · cases j with
      | zero => rwa [Nat.add_zero, byte_of_drop hl]
      | succ j =>
        rw [List.takeWhile_cons_of_pos hc, List.length_cons] at hj
        have := ih (drop_succ_of hl) (Nat.lt_of_succ_lt_succ hj)
        rwa [Nat.add_right_comm] at this
    · rw [List.takeWhile_cons_of_neg hc] at hj
      exact absurd hj (Nat.not_lt_zero j)

theorem isWord_run {l : List UInt8} {a : UInt8} (hl : (cstr s).drop i = a :: l) (hp : isPlain a = true) :
    IsWord s ⟨i, i + 1 + (l.takeWhile isPlain).length⟩ := by
  have hnext := drop_succ_of hl
  have hlen := (List.takeWhile_prefix isPlain (l := l)).length_le
  have htotal := congrArg List.length hl
  rw [List.length_drop, List.length_cons] at htotal
  refine ⟨by dsimp only; omega, by dsimp only; omega, fun j h1 h2 => ?_, ?_⟩
  · dsimp only at h1 h2
    have htake : j - i < ((a :: l).takeWhile isPlain).length := by
      rw [List.takeWhile_cons_of_pos hp, List.length_cons]
      omega
    have := byte_takeWhile hl htake
    rwa [Nat.add_sub_cancel' h1] at this
  · dsimp only
    cases hrest : l.drop (l.takeWhile isPlain).length with
    | nil =>
      have := List.drop_eq_nil_iff.1 hrest
      exact .inl (by omega)
    | cons b l' =>
      right
      have hdrop : (cstr s).drop (i + 1 + (l.takeWhile isPlain).length) = b :: l' := by
        rw [← List.drop_drop, hnext, hrest]
      rw [byte_of_drop hdrop]
      exact head_drop_takeWhile isPlain l l' hrest

theorem single_ne_word (a : UInt8) : single a ≠ .word w := by
  unfold single
  repeat' split
  all_goals nofun

theorem isWord_of_lex {l : List UInt8} (hl : (cstr s).drop i = l) (h : Tok.word w ∈ lex i l) : IsWord s w := by
  fun_induction lex i l with
  | case1 => cases h
  | case2 i a l hw ih => exact ih (drop_succ_of hl) h
  | case3 i a l hw hp k ih =>
    rcases List.mem_cons.1 h with heq | h
    · cases heq
      exact isWord_run hl hp
    · refine ih ?_ h
      rw [← List.drop_drop, drop_succ_of hl]
  | case4 i l hw hp hnext ih =>
    refine ih ?_ ((List.mem_cons.1 h).resolve_left nofun)
    rw [← drop_succ_of hl, List.drop_drop]
  | case5 i l hw hp hnext ih => exact ih (drop_succ_of hl) ((List.mem_cons.1 h).resolve_left nofun)
  | case6 i a l hw hp hne ih => exact ih (drop_succ_of hl) ((List.mem_cons.1 h).resolve_left (single_ne_word a).symm)

/-! ### `nulterminate` -/

theorem byte_set (s : List UInt8) (i j : Nat) : byte (s.set j 0) i = if i = j then 0 else byte s i := by
  unfold byte
  simp only [List.getD_eq_getElem?_getD, List.getElem?_set]
  split
  · rename_i heq
    subst heq
    split <;> simp
  · rename_i hne
    rw [if_neg (Ne.symm hne)]

theorem byte_foldl (ws : List Word) (s : List UInt8) (i : Nat) :
    byte (ws.foldl (fun s w => s.set w.eq 0) s) i = if i ∈ ws.map Word.eq then 0 else byte s i := by
  induction ws generalizing s with
  | nil => rfl
  | cons w ws ih =>
    rw [List.foldl_cons, ih, byte_set, List.map_cons]
    simp only [List.mem_cons]
    grind

theorem byte_nulterminate (c : Cmd) (s : List UInt8) (i : Nat) :
    byte (nulterminate c s) i = if i ∈ c.words.map Word.eq then 0 else byte s i := by
  induction c generalizing s with
  | exec argv => exact byte_foldl argv s i
  | redir c file mode fd ih =>
    rw [nulterminate, byte_set, ih, Cmd.words, List.map_append, List.map_singleton]
    simp only [List.mem_append, List.mem_singleton]
    grind
  | pipe l r ihl ihr | list l r ihl ihr =>
    rw [nulterminate, ihr, ihl, Cmd.words, List.map_append]
    simp only [List.mem_append]
    grind
  | back c ih => exact ih s

theorem cstr_eq {l t : List UInt8} (h : ∀ j, j < t.length → byte l j = byte t j) (hne : 0 ∉ t)
    (hend : byte l t.length = 0) : cstr l = t := by
  induction t generalizing l with
  | nil =>
    rcases l with _ | ⟨a, l⟩
    · rfl
    · obtain rfl : a = 0 := hend
      rfl
  | cons b t ih =>
    have hb : b ≠ 0 := fun heq => hne (heq ▸ List.mem_cons_self)
    rcases l with _ | ⟨a, l⟩
    · exact absurd (h 0 (Nat.succ_pos _)).symm hb
    · obtain rfl : a = b := h 0 (Nat.succ_pos _)
      have hrest : cstr l = t := ih (fun j hj => h (j + 1) (Nat.succ_lt_succ hj))
        (fun hmem => hne (List.mem_cons_of_mem _ hmem)) hend
      have hpos : decide (a ≠ 0) = true := decide_eq_true hb
      rw [cstr, List.takeWhile_cons, if_pos hpos]
      exact congrArg (a :: ·) hrest

/-- The string at a word whose characters are in place and whose end is terminated. -/
theorem IsWord.string (hw : IsWord s w) (hin : ∀ i, w.q ≤ i → i < w.eq → byte buf i = byte s i)
    (hend : byte buf w.eq = 0) : cstr (buf.drop w.q) = ((cstr s).drop w.q).take (w.eq - w.q) := by
  have hlt := hw.lt
  have hle := hw.le
  have hlen : (((cstr s).drop w.q).take (w.eq - w.q)).length = w.eq - w.q := by
    rw [List.length_take, List.length_drop]
    omega
  have hdrop : ∀ j, byte (buf.drop w.q) j = byte buf (w.q + j) := fun j => by
    simp only [byte, List.getD_eq_getElem?_getD, List.getElem?_drop]
  refine cstr_eq (fun j hj => ?_) (fun hmem => ?_) ?_
  · rw [hlen] at hj
    rw [hdrop, hin _ (by omega) (by omega), byte, getD_cstr s (by omega)]
    simp only [byte, List.getD_eq_getElem?_getD, List.getElem?_take, if_pos hj, List.getElem?_drop]
  · exact cstr_ne_zero (List.mem_of_mem_drop (List.mem_of_mem_take hmem)) rfl
  · rw [hlen, hdrop, Nat.add_sub_cancel' hlt.le, hend]

theorem IsWord.end_outside {w' : Word} (hw : IsWord s w) (hw' : IsWord s w') : ¬ (w'.q ≤ w.eq ∧ w.eq < w'.eq) := by
  rintro ⟨h1, h2⟩
  rcases hw.maximal with hend | hno
  · have := hw'.le
    omega
  · rw [hw'.plain w.eq h1 h2] at hno
    cases hno

/-- In the line as `parsecmd` leaves it, the words of the tree are strings, and all words are intact. -/
theorem nulterminate_words (hn : 4 * (tokens s).length + 4 ≤ n) (h : parsecmd n s = .ok (c, buf)) :
    (∀ w ∈ c.words, Tok.word w ∈ tokens s ∧ cstr (buf.drop w.q) = ((cstr s).drop w.q).take (w.eq - w.q)) ∧
    ∀ w, Tok.word w ∈ tokens s → ∀ i, w.q ≤ i → i < w.eq → byte buf i = byte s i := by
  obtain ⟨hd, rfl⟩ : Derives .line (tokens s) c ∧ buf = nulterminate c s := by
    unfold parsecmd at h
    rcases hrun : parsewhole n s 0 with ⟨e | c', ps⟩ <;> rw [hrun] at h
    · cases h
    · cases h
      exact ⟨(parsewhole_meets hn).run_ok hrun, rfl⟩
  have hword : ∀ w, Tok.word w ∈ tokens s → IsWord s w := fun w hw => isWord_of_lex rfl hw
  have hintact : ∀ w, Tok.word w ∈ tokens s → ∀ i, w.q ≤ i → i < w.eq → byte (nulterminate c s) i = byte s i := by
    intro w hw i h1 h2
    rw [byte_nulterminate, if_neg]
    intro hmem
    obtain ⟨w', hw', rfl⟩ := List.mem_map.1 hmem
    exact (hword w' (hd.words.2 hw')).end_outside (hword w hw) ⟨h1, h2⟩
  refine ⟨fun w hw => ?_, hintact⟩
  have htok := hd.words.2 hw
  refine ⟨htok, (hword w htok).string (hintact w htok) ?_⟩
  rw [byte_nulterminate, if_pos (List.mem_map_of_mem hw)]

/-- `cat a>b;(c|d e)&`, with a newline. -/
def sample : List UInt8 :=
  ['c', 'a', 't', ' ', 'a', '>', 'b', ';', '(', 'c', '|', 'd', ' ', 'e', ')', '&', '\n', '\x00']

theorem nulterminate_words_sample : ∃ c buf, parsecmd 100 sample = .ok (c, buf) ∧
    c.words = [⟨0, 3⟩, ⟨4, 5⟩, ⟨6, 7⟩, ⟨9, 10⟩, ⟨11, 12⟩, ⟨13, 14⟩] ∧
    (∀ w ∈ c.words, Tok.word w ∈ tokens sample ∧
      cstr (buf.drop w.q) = ((cstr sample).drop w.q).take (w.eq - w.q)) ∧
    ∀ w, Tok.word w ∈ tokens sample → ∀ i, w.q ≤ i → i < w.eq → byte buf i = byte sample i := by
  have hwords : (parsecmd 100 sample).toOption.map (·.1.words) =
      some [⟨0, 3⟩, ⟨4, 5⟩, ⟨6, 7⟩, ⟨9, 10⟩, ⟨11, 12⟩, ⟨13, 14⟩] := by
    decide +kernel
  rcases hrun : parsecmd 100 sample with e | ⟨c, buf⟩ <;> rw [hrun] at hwords
  · cases hwords
  · exact ⟨c, buf, rfl, Option.some.inj hwords, nulterminate_words (by decide +kernel) hrun⟩

end Xv6.Shell
