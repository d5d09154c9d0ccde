import Xv6.ShellTokens

/-!
# The grammar of command lines

    line  -> pipe '&'* [';' line]
    pipe  -> exec ['|' pipe]
    exec  -> '(' line ')' redir* | redir* (word redir*)*
    redir -> ('<' | '>' | '>>') word

`Derives` derives token lists together with their trees. The parser decides by the next token alone: what
can follow an `exec` is nothing that an `exec` could go on with, and so on for the others.
-/

namespace Xv6.Shell

open Exec

def redirToks : List Tok := [.lt, .gt, .gtgt]

def redirect (cmd : Cmd) (file : Word) : Tok → Cmd
  | .lt => .redir cmd file O_RDONLY 0
  | _ => .redir cmd file (O_WRONLY ||| O_CREATE) 1

def wrap (cmd : Cmd) (rs : List (Tok × Word)) : Cmd := rs.foldl (fun c r => redirect c r.2 r.1) cmd

inductive Redirs : List Tok → List (Tok × Word) → Prop
  | nil : Redirs [] []
  | cons {t : Tok} {w : Word} {ts rs} (ht : t ∈ redirToks) (h : Redirs ts rs) :
    Redirs (t :: .word w :: ts) ((t, w) :: rs)

inductive Args : List Tok → List Word → List (Tok × Word) → Prop
  | nil : Args [] [] []
  | cons {w : Word} {us ts rs ws rs'} (hr : Redirs us rs) (h : Args ts ws rs') :
    Args (.word w :: us ++ ts) (w :: ws) (rs ++ rs')

inductive Nonterminal
  | line
  | pipe
  | exec

inductive Derives : Nonterminal → List Tok → Cmd → Prop
  | line {us c} (k : Nat) (h : Derives .pipe us c) : Derives .line (us ++ List.replicate k .amp) (Cmd.back^[k] c)
  | list {us ts c c'} (k : Nat) (h : Derives .pipe us c) (h' : Derives .line ts c') :
    Derives .line (us ++ (List.replicate k .amp ++ .semi :: ts)) (.list (Cmd.back^[k] c) c')
  | one {us c} (h : Derives .exec us c) : Derives .pipe us c
  | pipe {us ts c c'} (h : Derives .exec us c) (h' : Derives .pipe ts c') :
    Derives .pipe (us ++ .bar :: ts) (.pipe c c')
  | block {us ts c rs} (h : Derives .line us c) (hr : Redirs ts rs) :
    Derives .exec (.lparen :: us ++ .rparen :: ts) (wrap c rs)
  | simple {us ts rs ws rs'} (hr : Redirs us rs) (ha : Args ts ws rs') (hlen : ws.length ≤ MAXARGS - 1) :
    Derives .exec (us ++ ts) (wrap (.exec ws) (rs ++ rs'))

variable {s : List UInt8} {ts us : List Tok} {rs : List (Tok × Word)} {ws : List Word} {ps n : Nat} {c : Cmd}

theorem wrap_append (c : Cmd) (rs rs' : List (Tok × Word)) : wrap c (rs ++ rs') = wrap (wrap c rs) rs' :=
  List.foldl_append ..

/-- A further argument goes to the command under the redirections. -/
theorem addArg_wrap (w : Word) (rs : List (Tok × Word)) (c : Cmd) : (wrap c rs).addArg w = wrap (c.addArg w) rs := by
  induction rs generalizing c with
  | nil => rfl
  | cons r rs ih =>
    have hredir : (redirect c r.2 r.1).addArg w = redirect (c.addArg w) r.2 r.1 := by
      unfold redirect
      split <;> rfl
    show (wrap (redirect c r.2 r.1) rs).addArg w = _
    rw [ih, hredir]
    rfl

theorem redircmd_code {t : Tok} (ht : t ∈ redirToks) (c : Cmd) (w : Word) : redircmd c t.code w = redirect c w t := by
  simp only [redirToks, List.mem_cons, List.not_mem_nil, or_false] at ht
  rcases ht with rfl | rfl | rfl <;> rfl

theorem eq_of_sees (t : Tok) (ht : t ∈ [Tok.bar, .lparen, .rparen, .semi, .amp]) (h : sees [t.code] ts = true) :
    ∃ ts', ts = t :: ts' := by
  rcases ts with _ | ⟨t', ts⟩
  · cases h
  · refine ⟨ts, congrArg (· :: ts) ?_⟩
    simp only [List.mem_cons, List.not_mem_nil, or_false] at ht
    rcases ht with rfl | rfl | rfl | rfl | rfl <;> cases t' <;> first | rfl | cases h

theorem Tok.code_ne_zero (t : Tok) : t.code ≠ 0 := by
  cases t
  all_goals
    simp only [Tok.code]
    decide

theorem sees_redirs {t : Tok} : sees ['<', '>'] (t :: ts) = true ↔ t ∈ redirToks := by
  cases t
  case lt | gt | gtgt => exact iff_of_true rfl (by decide)
  all_goals exact iff_of_false (Bool.eq_false_iff.1 rfl) (by simp [redirToks])

/-! ### What is accepted is derived -/

abbrev Panics (e : Stop) (_ : Nat) : Prop := e ≠ .loops

theorem parsebacks_meets (h : At s ts ps) (hn : ts.length < n) :
    Meets (parsebacks s (cstr s).length c n) ps
      (fun c' ps' => ∃ k ts', ts = List.replicate k .amp ++ ts' ∧ c' = Cmd.back^[k] c ∧ At s ts' ps') Panics := by
  induction n generalizing ts ps c with
  | zero => omega
  | succ n ih =>
    obtain ⟨ps1, hpeek, h1⟩ := peek_at ['&'] h (by decide)
    rw [parsebacks]
    refine .ok_bind hpeek ?_
    split
    · rename_i hsees
      obtain ⟨ts, rfl⟩ := eq_of_sees .amp (by decide) hsees
      obtain ⟨w, ps2, hget, h2, -⟩ := gettoken_cons h1
      refine .ok_bind hget ((ih h2 (Nat.lt_of_succ_lt_succ hn)).mono ?_ fun _ _ => id)
      rintro c' ps' ⟨k, ts', rfl, rfl, h'⟩
      exact ⟨k + 1, ts', rfl, rfl, h'⟩
    · exact .pure ⟨0, ts, rfl, rfl, h1⟩

theorem parseredirs_meets (h : At s ts ps) (hn : ts.length < n) :
    Meets (parseredirs s (cstr s).length c n) ps
      (fun c' ps' => ∃ us rs ts', ts = us ++ ts' ∧ Redirs us rs ∧ c' = wrap c rs ∧ At s ts' ps') Panics := by
  induction n generalizing ts ps c with
  | zero => omega
  | succ n ih =>
    obtain ⟨ps1, hpeek, h1⟩ := peek_at ['<', '>'] h (by decide)
    rw [parseredirs]
    refine .ok_bind hpeek ?_
    split
    · rename_i hsees
      rcases ts with _ | ⟨t, ts⟩
      · cases hsees
      · have ht := sees_redirs.1 hsees
        obtain ⟨w, ps2, hget, h2, -⟩ := gettoken_cons h1
        refine .ok_bind hget ?_
        rcases ts with _ | ⟨t', ts⟩
        · obtain ⟨w', ps3, hend, -⟩ := gettoken_nil h2
          exact .ok_bind hend (.stop nofun)
        · obtain ⟨w', ps3, hfile, h3, hw⟩ := gettoken_cons h2
          refine .ok_bind hfile ?_
          dsimp only
          split
          · exact .stop nofun
          · rename_i hcode
            obtain rfl : t' = .word w' := by
              cases t'
              case word w'' => rw [hw w'' rfl]
              all_goals exact absurd (by decide) hcode
            rw [redircmd_code ht]
            simp only [List.length_cons] at hn
            refine (ih h3 (by omega)).mono ?_ fun _ _ => id
            rintro c' ps' ⟨us, rs, ts', rfl, hus, rfl, h'⟩
            exact ⟨_, _, ts', rfl, .cons ht hus, rfl, h'⟩
    · exact .pure ⟨[], [], ts, rfl, .nil, rfl, h1⟩

theorem parseargs_meets (ws : List Word) (rs : List (Tok × Word)) (h : At s ts ps) (hn : ts.length < n) (hws : ws.length < MAXARGS) :
    Meets (parseargs s (cstr s).length (wrap (.exec ws) rs) ws.length n) ps
      (fun c' ps' => ∃ us ws' rs' ts', ts = us ++ ts' ∧ Args us ws' rs' ∧ (ws ++ ws').length < MAXARGS ∧
        c' = wrap (.exec (ws ++ ws')) (rs ++ rs') ∧ At s ts' ps') Panics := by
  induction n generalizing ts ps ws rs with
  | zero => omega
  | succ n ih =>
    obtain ⟨ps1, hpeek, h1⟩ := peek_at ['|', ')', '&', ';'] h (by decide)
    have hdone : ∀ {ps'}, At s ts ps' → ∃ us ws' rs' ts', ts = us ++ ts' ∧ Args us ws' rs' ∧
        (ws ++ ws').length < MAXARGS ∧ wrap (.exec ws) rs = wrap (.exec (ws ++ ws')) (rs ++ rs') ∧ At s ts' ps' :=
      fun h' => ⟨[], [], [], ts, rfl, .nil, by rwa [List.append_nil], by rw [List.append_nil, List.append_nil], h'⟩
    rw [parseargs]
    refine .ok_bind hpeek ?_
    split
    · exact .pure (hdone h1)
    · rename_i hno
      rcases ts with _ | ⟨t, ts⟩
      · obtain ⟨w, ps2, hget, h2⟩ := gettoken_nil h1
        exact .ok_bind hget (.pure (hdone h2))
      · obtain ⟨w, ps2, hget, h2, hw⟩ := gettoken_cons h1
        refine .ok_bind hget ?_
        dsimp only
        rw [if_neg t.code_ne_zero]
        split
        · exact .stop nofun
        · rename_i hcode
          obtain rfl : t = .word w := by
            cases t
            case word w' => rw [hw w' rfl]
            all_goals exact absurd (by decide) hcode
          split
          · exact .stop nofun
          · rename_i hmax
            simp only [List.length_cons] at hn
            rw [addArg_wrap]
            refine .bind (parseredirs_meets h2 (by omega)) ?_
            rintro c' ps3 ⟨us, rs1, ts1, rfl, hus, rfl, h3⟩
            rw [List.length_append] at hn
            have hnext := ih (ws ++ [w]) (rs ++ rs1) h3 (by omega)
              (by rw [List.length_append, List.length_singleton]; omega)
            rw [List.length_append, List.length_singleton, wrap_append] at hnext
            refine hnext.mono ?_ fun _ _ => id
            rintro c' ps' ⟨us', ws', rs', ts', rfl, hargs, hlen, rfl, h'⟩
            refine ⟨_, w :: ws', rs1 ++ rs', ts', ?_, .cons hus hargs, ?_, ?_, h'⟩
            · simp only [List.cons_append, List.append_assoc]
            · simpa using hlen
            · simp only [List.append_assoc, List.singleton_append]

/-- A parser of a nonterminal at the tokens `ts`. -/
def Accepts (s : List UInt8) (nt : Nonterminal) (ts : List Tok) (ps : Nat) (m : M Cmd) : Prop :=
  Meets m ps (fun c ps' => ∃ us ts', ts = us ++ ts' ∧ Derives nt us c ∧ At s ts' ps') Panics

/-- Each token costs at most four calls. -/
theorem parse_accepts (n : Nat) : ∀ {ts ps}, At s ts ps →
    (4 * ts.length + 4 ≤ n → Accepts s .line ts ps (parseline s (cstr s).length n)) ∧
    (4 * ts.length + 3 ≤ n → Accepts s .pipe ts ps (parsepipe s (cstr s).length n)) ∧
    (4 * ts.length + 1 ≤ n → Accepts s .exec ts ps (parseblock s (cstr s).length n)) ∧
    (4 * ts.length + 2 ≤ n → Accepts s .exec ts ps (parseexec s (cstr s).length n)) := by
  induction n with
  | zero => exact fun _ => ⟨by omega, by omega, by omega, by omega⟩
  | succ n ih =>
    intro ts ps h
    refine ⟨fun hn => ?_, fun hn => ?_, fun hn => ?_, fun hn => ?_⟩
    · rw [parseline]
      refine .bind ((ih h).2.1 (by omega)) ?_
      rintro c ps1 ⟨us, ts1, rfl, hus, h1⟩
      rw [List.length_append] at hn
      refine .bind (parsebacks_meets h1 (by omega)) ?_
      rintro _ ps2 ⟨k, ts2, rfl, rfl, h2⟩
      obtain ⟨ps3, hpeek, h3⟩ := peek_at [';'] h2 (by decide)
      refine .ok_bind hpeek ?_
      split
      · rename_i hsees
        obtain ⟨ts2, rfl⟩ := eq_of_sees .semi (by decide) hsees
        obtain ⟨w, ps4, hget, h4, -⟩ := gettoken_cons h3
        simp only [List.length_append, List.length_cons] at hn
        refine .ok_bind hget (.bind ((ih h4).1 (by omega)) ?_)
        rintro c' ps' ⟨us', ts', rfl, hus', h'⟩
        refine .pure ⟨us ++ (List.replicate k .amp ++ .semi :: us'), ts', ?_, .list k hus hus', h'⟩
        simp only [List.append_assoc, List.cons_append]
      · exact .pure ⟨_, ts2, (List.append_assoc ..).symm, .line k hus, h3⟩
    · rw [parsepipe]
      refine .bind ((ih h).2.2.2 (by omega)) ?_
      rintro c ps1 ⟨us, ts1, rfl, hus, h1⟩
      obtain ⟨ps2, hpeek, h2⟩ := peek_at ['|'] h1 (by decide)
      refine .ok_bind hpeek ?_
      split
      · rename_i hsees
        obtain ⟨ts1, rfl⟩ := eq_of_sees .bar (by decide) hsees
        obtain ⟨w, ps3, hget, h3, -⟩ := gettoken_cons h2
        simp only [List.length_append, List.length_cons] at hn
        refine .ok_bind hget (.bind ((ih h3).2.1 (by omega)) ?_)
        rintro c' ps' ⟨us', ts', rfl, hus', h'⟩
        refine .pure ⟨us ++ .bar :: us', ts', ?_, .pipe hus hus', h'⟩
        simp only [List.append_assoc, List.cons_append]
      · exact .pure ⟨us, ts1, rfl, .one hus, h2⟩
    · rw [parseblock]
      obtain ⟨ps1, hpeek, h1⟩ := peek_at ['('] h (by decide)
      refine .ok_bind hpeek ?_
      split
      · rename_i hsees
        obtain ⟨ts, rfl⟩ := eq_of_sees .lparen (by decide) hsees
        obtain ⟨w, ps2, hget, h2, -⟩ := gettoken_cons h1
        simp only [List.length_cons] at hn
        refine .ok_bind hget (.bind ((ih h2).1 (by omega)) ?_)
        rintro c ps3 ⟨us, ts1, rfl, hus, h3⟩
        obtain ⟨ps4, hpeek4, h4⟩ := peek_at [')'] h3 (by decide)
        refine .ok_bind hpeek4 ?_
        split
        · rename_i hsees
          obtain ⟨ts1, rfl⟩ := eq_of_sees .rparen (by decide) hsees
          obtain ⟨w, ps5, hget5, h5, -⟩ := gettoken_cons h4
          simp only [List.length_append, List.length_cons] at hn
          refine .ok_bind hget5 ((parseredirs_meets h5 (by omega)).mono ?_ fun _ _ => id)
          rintro _ ps' ⟨us', rs, ts', rfl, hus', rfl, h'⟩
          refine ⟨.lparen :: us ++ .rparen :: us', ts', ?_, .block hus hus', h'⟩
          simp only [List.append_assoc, List.cons_append]
        · exact .stop nofun
      · exact .stop nofun
    · rw [parseexec]
      obtain ⟨ps1, hpeek, h1⟩ := peek_at ['('] h (by decide)
      refine .ok_bind hpeek ?_
      split
      · exact (ih h1).2.2.1 (by omega)
      · refine .bind (parseredirs_meets h1 (by omega)) ?_
        rintro _ ps2 ⟨us, rs, ts1, rfl, hus, rfl, h2⟩
        rw [List.length_append] at hn
        refine (parseargs_meets [] _ h2 (by omega) (by decide)).mono ?_ fun _ _ => id
        rintro _ ps' ⟨us', ws, rs', ts', rfl, hargs, hlen, rfl, h'⟩
        exact ⟨us ++ us', ts', (List.append_assoc ..).symm, .simple hus hargs (Nat.le_pred_of_lt hlen), h'⟩

/-! ### What is derived is accepted -/

def follow : Nonterminal → List Tok
  | .line => [.rparen]
  | .pipe => [.amp, .semi, .rparen]
  | .exec => [.bar, .amp, .semi, .rparen]

def Follows (nt : Nonterminal) (ts : List Tok) : Prop := ∀ t ∈ ts.head?, t ∈ follow nt

theorem sees_eq_false {toks : List UInt8} (h : ∀ t ∈ ts.head?, sees toks [t] = false) : sees toks ts = false := by
  rcases ts with _ | ⟨t, ts⟩
  · rfl
  · exact h t rfl

theorem peek_sees (toks : List UInt8) {b : Bool} (h : At s ts ps) (htoks : toks.all symbols.contains = true)
    (hb : sees toks ts = b) : ∃ ps', peek s (cstr s).length toks ps = (.ok b, ps') ∧ At s ts ps' :=
  hb ▸ peek_at toks h htoks

theorem Follows.cons {nt : Nonterminal} {t : Tok} (h : t ∈ follow nt) : Follows nt (t :: ts) := fun t' ht' => by
  cases ht'
  exact h

theorem Follows.mono {nt nt' : Nonterminal} (h : Follows nt ts) (hsub : ∀ t ∈ follow nt, t ∈ follow nt') :
    Follows nt' ts := fun t ht => hsub t (h t ht)

theorem Redirs.head (h : Redirs us rs) : ∀ t ∈ (us ++ ts).head?, t ∈ redirToks ∨ t ∈ ts.head? := by
  cases h with
  | nil => exact fun t ht => .inr ht
  | cons hr h =>
    intro t ht
    cases ht
    exact .inl hr

theorem Args.head (h : Args us ws rs) : ∀ t ∈ (us ++ ts).head?, (∃ w, t = .word w) ∨ t ∈ ts.head? := by
  cases h with
  | nil => exact fun t ht => .inr ht
  | cons hr h =>
    intro t ht
    cases ht
    exact .inl ⟨_, rfl⟩

theorem parsebacks_run (k : Nat) (h : At s (List.replicate k .amp ++ ts) ps) (hstop : sees ['&'] ts = false)
    (hn : k < n) :
    ∃ ps', parsebacks s (cstr s).length c n ps = (.ok (Cmd.back^[k] c), ps') ∧ At s ts ps' := by
  induction k generalizing n ps c with
  | zero =>
    obtain ⟨n, rfl⟩ : ∃ m, n = m + 1 := ⟨n - 1, by omega⟩
    obtain ⟨ps1, hpeek, h1⟩ := peek_sees _ h (by decide) hstop
    refine ⟨ps1, ?_, h1⟩
    rw [parsebacks, bind_of_ok hpeek, if_neg Bool.false_ne_true]
    rfl
  | succ k ih =>
    obtain ⟨n, rfl⟩ : ∃ m, n = m + 1 := ⟨n - 1, by omega⟩
    obtain ⟨ps1, hpeek, h1⟩ := peek_sees ['&'] h (by decide) rfl
    obtain ⟨w, ps2, hget, h2, -⟩ := gettoken_cons h1
    obtain ⟨ps', hrun, h'⟩ := ih (c := c.back) h2 (Nat.lt_of_succ_lt_succ hn)
    refine ⟨ps', ?_, h'⟩
    rw [parsebacks, bind_of_ok hpeek]
    exact (bind_of_ok hget).trans hrun

theorem parseredirs_run (hr : Redirs us rs) (h : At s (us ++ ts) ps) (hstop : sees ['<', '>'] ts = false)
    (hn : us.length < n) :
    ∃ ps', parseredirs s (cstr s).length c n ps = (.ok (wrap c rs), ps') ∧ At s ts ps' := by
  induction hr generalizing n ps c with
  | nil =>
    obtain ⟨n, rfl⟩ : ∃ m, n = m + 1 := ⟨n - 1, by omega⟩
    obtain ⟨ps1, hpeek, h1⟩ := peek_sees _ h (by decide) hstop
    refine ⟨ps1, ?_, h1⟩
    rw [parseredirs, bind_of_ok hpeek, if_neg Bool.false_ne_true]
    rfl
  | @cons t w us rs ht hr ih =>
    obtain ⟨n, rfl⟩ : ∃ m, n = m + 1 := ⟨n - 1, by omega⟩
    obtain ⟨ps1, hpeek, h1⟩ := peek_sees _ h (by decide) (sees_redirs.2 ht)
    obtain ⟨w1, ps2, hget, h2, -⟩ := gettoken_cons h1
    obtain ⟨w2, ps3, hfile, h3, hw⟩ := gettoken_cons h2
    obtain rfl := hw w rfl
    simp only [List.length_cons] at hn
    obtain ⟨ps', hrun, h'⟩ := ih (c := redirect c w t) (n := n) h3 (by omega)
    have hrun' : parseredirs s (cstr s).length (redircmd c t.code w) n ps3 = (.ok (wrap c ((t, w) :: rs)), ps') := by
      rw [redircmd_code ht]
      exact hrun
    refine ⟨ps', ?_, h'⟩
    rw [parseredirs, bind_of_ok hpeek]
    exact (bind_of_ok hget).trans ((bind_of_ok hfile).trans hrun')

theorem parseargs_run (ws : List Word) (rs : List (Tok × Word)) {ws' : List Word} {rs' : List (Tok × Word)}
    (ha : Args us ws' rs') (h : At s (us ++ ts) ps)
    (hstop : Follows .exec ts) (hn : us.length < n) (hmax : (ws ++ ws').length < MAXARGS) :
    ∃ ps', parseargs s (cstr s).length (wrap (.exec ws) rs) ws.length n ps =
      (.ok (wrap (.exec (ws ++ ws')) (rs ++ rs')), ps') ∧ At s ts ps' := by
  induction ha generalizing n ps ws rs with
  | nil =>
    obtain ⟨n, rfl⟩ : ∃ m, n = m + 1 := ⟨n - 1, by omega⟩
    rw [List.append_nil, List.append_nil]
    rcases ts with _ | ⟨t, ts⟩
    · obtain ⟨ps1, hpeek, h1⟩ := peek_sees ['|', ')', '&', ';'] h (by decide) rfl
      obtain ⟨w, ps2, hget, h2⟩ := gettoken_nil h1
      refine ⟨ps2, ?_, h2⟩
      rw [parseargs, bind_of_ok hpeek]
      exact bind_of_ok hget
    · have hsees : ∀ t ∈ follow .exec, sees ['|', ')', '&', ';'] [t] = true := by decide
      obtain ⟨ps1, hpeek, h1⟩ := peek_sees _ h (by decide) (hsees t (hstop t rfl))
      refine ⟨ps1, ?_, h1⟩
      rw [parseargs, bind_of_ok hpeek]
      rfl
  | @cons w us us' rs1 ws' rs' hr ha ih =>
    obtain ⟨n, rfl⟩ : ∃ m, n = m + 1 := ⟨n - 1, by omega⟩
    rw [List.append_assoc, List.cons_append] at h
    obtain ⟨ps1, hpeek, h1⟩ := peek_sees ['|', ')', '&', ';'] (b := false) h (by decide) rfl
    obtain ⟨w1, ps2, hget, h2, hw⟩ := gettoken_cons h1
    obtain rfl := hw w rfl
    have hnext : sees ['<', '>'] (us' ++ ts) = false := sees_eq_false fun t ht => by
      have hfollow : ∀ t ∈ follow .exec, sees ['<', '>'] [t] = false := by decide
      rcases ha.head t ht with ⟨w', rfl⟩ | ht
      · rfl
      · exact hfollow t (hstop t ht)
    simp only [List.length_append, List.length_cons] at hn hmax
    obtain ⟨ps3, hredirs, h3⟩ := parseredirs_run (c := wrap (.exec (ws ++ [w])) rs) (n := n) hr h2 hnext (by omega)
    obtain ⟨ps', hrun, h'⟩ := ih (n := n) (ws ++ [w]) (rs ++ rs1) h3 (by omega)
      (by simp only [List.length_append, List.length_singleton]; omega)
    rw [List.length_append, List.length_singleton, List.append_assoc, List.singleton_append, List.append_assoc,
      wrap_append] at hrun
    have hadd : (wrap (.exec ws) rs).addArg w = wrap (.exec (ws ++ [w])) rs := addArg_wrap ..
    have hcode : (Tok.word w).code = 'a' := rfl
    refine ⟨ps', ?_, h'⟩
    rw [parseargs, bind_of_ok hpeek, if_neg Bool.false_ne_true, bind_of_ok hget]
    dsimp only
    rw [if_neg (Tok.code_ne_zero _), if_neg (not_not.2 hcode), if_neg (by omega), hadd, bind_of_ok hredirs]
    exact hrun

def parse (s : List UInt8) : Nonterminal → Nat → M Cmd
  | .line => parseline s (cstr s).length
  | .pipe => parsepipe s (cstr s).length
  | .exec => parseexec s (cstr s).length

def cost : Nonterminal → Nat
  | .line => 4
  | .pipe => 3
  | .exec => 2

theorem parse_complete {nt : Nonterminal} (hd : Derives nt us c) (h : At s (us ++ ts) ps) (hf : Follows nt ts)
    (hn : 4 * us.length + cost nt ≤ n) : ∃ ps', parse s nt n ps = (.ok c, ps') ∧ At s ts ps' := by
  induction hd generalizing n ps ts with
  | @line us c k hd ih =>
    simp only [cost, List.length_append, List.length_replicate] at hn ih
    rw [List.append_assoc] at h
    obtain ⟨n, rfl⟩ : ∃ m, n = m + 1 := ⟨n - 1, by omega⟩
    have hamp : Follows .pipe (List.replicate k .amp ++ ts) := by
      cases k with
      | zero => exact hf.mono (by decide)
      | succ k => exact .cons (by decide)
    obtain ⟨ps1, hpipe, h1⟩ := ih (n := n) h hamp (by omega)
    have hstop : ∀ t ∈ follow .line, sees ['&'] [t] = false ∧ sees [';'] [t] = false := by decide
    obtain ⟨ps2, hbacks, h2⟩ := parsebacks_run (c := c) (n := n) k h1
      (sees_eq_false fun t ht => (hstop t (hf t ht)).1) (by omega)
    obtain ⟨ps3, hpeek, h3⟩ := peek_sees _ h2 (by decide) (sees_eq_false fun t ht => (hstop t (hf t ht)).2)
    refine ⟨ps3, ?_, h3⟩
    show parseline s (cstr s).length (n + 1) ps = _
    rw [parseline]
    exact (bind_of_ok hpipe).trans ((bind_of_ok hbacks).trans (bind_of_ok hpeek))
  | @list us us' c c' k hd hd' ih ih' =>
    simp only [cost, List.length_append, List.length_replicate, List.length_cons] at hn ih ih'
    rw [List.append_assoc, List.append_assoc, List.cons_append] at h
    obtain ⟨n, rfl⟩ : ∃ m, n = m + 1 := ⟨n - 1, by omega⟩
    have hamp : Follows .pipe (List.replicate k .amp ++ .semi :: (us' ++ ts)) := by
      cases k <;> exact .cons (by decide)
    obtain ⟨ps1, hpipe, h1⟩ := ih (n := n) h hamp (by omega)
    obtain ⟨ps2, hbacks, h2⟩ := parsebacks_run (c := c) (n := n) k h1 rfl (by omega)
    obtain ⟨ps3, hpeek, h3⟩ := peek_sees [';'] h2 (by decide) rfl
    obtain ⟨w, ps4, hget, h4, -⟩ := gettoken_cons h3
    obtain ⟨ps', hline, h'⟩ := ih' (n := n) h4 hf (by omega)
    refine ⟨ps', ?_, h'⟩
    show parseline s (cstr s).length (n + 1) ps = _
    rw [parseline]
    exact (bind_of_ok hpipe).trans ((bind_of_ok hbacks).trans ((bind_of_ok hpeek).trans
      ((bind_of_ok hget).trans (bind_of_ok hline))))
  | @one us c hd ih =>
    simp only [cost] at hn ih
    obtain ⟨n, rfl⟩ : ∃ m, n = m + 1 := ⟨n - 1, by omega⟩
    obtain ⟨ps1, hexec, h1⟩ := ih (n := n) h (hf.mono (by decide)) (by omega)
    have hstop : ∀ t ∈ follow .pipe, sees ['|'] [t] = false := by decide
    obtain ⟨ps2, hpeek, h2⟩ := peek_sees _ h1 (by decide) (sees_eq_false fun t ht => hstop t (hf t ht))
    refine ⟨ps2, ?_, h2⟩
    show parsepipe s (cstr s).length (n + 1) ps = _
    rw [parsepipe]
    exact (bind_of_ok hexec).trans (bind_of_ok hpeek)
  | @pipe us us' c c' hd hd' ih ih' =>
    simp only [cost, List.length_append, List.length_cons] at hn ih ih'
    rw [List.append_assoc, List.cons_append] at h
    obtain ⟨n, rfl⟩ : ∃ m, n = m + 1 := ⟨n - 1, by omega⟩
    obtain ⟨ps1, hexec, h1⟩ := ih (n := n) h (.cons (by decide)) (by omega)
    obtain ⟨ps2, hpeek, h2⟩ := peek_sees ['|'] h1 (by decide) rfl
    obtain ⟨w, ps3, hget, h3, -⟩ := gettoken_cons h2
    obtain ⟨ps', hpipe, h'⟩ := ih' (n := n) h3 hf (by omega)
    refine ⟨ps', ?_, h'⟩
    show parsepipe s (cstr s).length (n + 1) ps = _
    rw [parsepipe]
    exact (bind_of_ok hexec).trans ((bind_of_ok hpeek).trans ((bind_of_ok hget).trans (bind_of_ok hpipe)))
  | @block us us' c rs hd hr ih =>
    simp only [cost, List.length_append, List.length_cons] at hn ih
    rw [List.append_assoc, List.cons_append, List.cons_append] at h
    obtain ⟨n, rfl⟩ : ∃ m, n = m + 2 := ⟨n - 2, by omega⟩
    obtain ⟨ps1, hpeek, h1⟩ := peek_sees ['('] (b := true) h (by decide) rfl
    obtain ⟨ps2, hpeek2, h2⟩ := peek_sees ['('] h1 (by decide) rfl
    obtain ⟨w, ps3, hget, h3, -⟩ := gettoken_cons h2
    obtain ⟨ps4, hline, h4⟩ := ih (n := n) h3 (.cons (by decide)) (by omega)
    obtain ⟨ps5, hpeek5, h5⟩ := peek_sees [')'] h4 (by decide) rfl
    obtain ⟨w', ps6, hget6, h6, -⟩ := gettoken_cons h5
    have hstop : ∀ t ∈ follow .exec, sees ['<', '>'] [t] = false := by decide
    obtain ⟨ps', hredirs, h'⟩ := parseredirs_run (c := c) (n := n) hr h6 (sees_eq_false fun t ht => hstop t (hf t ht))
      (by omega)
    refine ⟨ps', ?_, h'⟩
    show parseexec s (cstr s).length (n + 2) ps = _
    rw [parseexec, bind_of_ok hpeek, if_pos rfl, parseblock]
    exact (bind_of_ok hpeek2).trans ((bind_of_ok hget).trans ((bind_of_ok hline).trans
      ((bind_of_ok hpeek5).trans ((bind_of_ok hget6).trans hredirs))))
  | @simple us us' rs ws rs' hr ha hlen =>
    simp only [cost, List.length_append] at hn
    rw [List.append_assoc] at h
    obtain ⟨n, rfl⟩ : ∃ m, n = m + 1 := ⟨n - 1, by omega⟩
    have hfollow : ∀ t ∈ follow .exec, sees ['<', '>'] [t] = false ∧ sees ['('] [t] = false := by decide
    have hredir : ∀ t ∈ redirToks, sees ['('] [t] = false := by decide
    have hparen : sees ['('] (us ++ (us' ++ ts)) = false := sees_eq_false fun t ht => by
      rcases hr.head t ht with ht | ht
      · exact hredir t ht
      · rcases ha.head t ht with ⟨w, rfl⟩ | ht
        · rfl
        · exact (hfollow t (hf t ht)).2
    have hnext : sees ['<', '>'] (us' ++ ts) = false := sees_eq_false fun t ht => by
      rcases ha.head t ht with ⟨w, rfl⟩ | ht
      · rfl
      · exact (hfollow t (hf t ht)).1
    obtain ⟨ps1, hpeek, h1⟩ := peek_sees _ h (by decide) hparen
    obtain ⟨ps2, hredirs, h2⟩ := parseredirs_run (c := .exec []) (n := n) hr h1 hnext (by omega)
    obtain ⟨ps', hargs, h'⟩ := parseargs_run [] rs (n := n) ha h2 hf (by omega) (by
      rw [List.nil_append]
      exact Nat.lt_of_le_pred (by decide) hlen)
    refine ⟨ps', ?_, h'⟩
    show parseexec s (cstr s).length (n + 1) ps = _
    rw [parseexec]
    exact (bind_of_ok hpeek).trans ((bind_of_ok hredirs).trans hargs)

/-! ### Lines -/

theorem At.start (s : List UInt8) : At s (tokens s) 0 := ⟨Nat.zero_le _, rfl⟩

theorem peek_end (h : At s ts ps) :
    ∃ ps', peek s (cstr s).length [] ps = (.ok false, ps') ∧ (ps' = (cstr s).length ↔ ts = []) := by
  have hpeek : peek s (cstr s).length [] ps = (.ok false, skip s (cstr s).length isWhite ps) :=
    Prod.ext (congrArg Except.ok (decide_eq_false fun hand => Bool.false_ne_true hand.2)) rfl
  have hlex := h.white.lex
  refine ⟨_, hpeek, fun hend => ?_, fun hnil => ?_⟩
  · rw [hend, List.drop_length, lex] at hlex
    exact hlex.symm
  · rcases skip_stops h.le with hend | ⟨c, l, hl, hw⟩
    · exact hend
    · obtain ⟨t, ht⟩ := scanned hl hw
      rw [ht.lex, hnil] at hlex
      cases hlex

theorem parsewhole_meets (hn : 4 * (tokens s).length + 4 ≤ n) :
    Meets (parsewhole n s) 0 (fun c _ => Derives .line (tokens s) c) Panics := by
  unfold parsewhole
  refine .bind ((parse_accepts n (.start s)).1 hn) ?_
  rintro c ps1 ⟨us, ts, heq, hus, h1⟩
  obtain ⟨ps2, hpeek, hend⟩ := peek_end h1
  refine .ok_bind hpeek (.get_bind ?_)
  split
  · exact .stop nofun
  · rename_i hps
    rw [hend.1 (not_not.1 hps), List.append_nil] at heq
    rw [heq]
    exact .pure hus

theorem parsewhole_run (hd : Derives .line (tokens s) c) (hn : 4 * (tokens s).length + 4 ≤ n) :
    ∃ ps, parsewhole n s 0 = (.ok c, ps) := by
  have hstart : At s (tokens s ++ []) 0 := by
    rw [List.append_nil]
    exact .start s
  obtain ⟨ps1, hline, h1⟩ := parse_complete hd hstart (nofun : Follows .line []) hn
  obtain ⟨ps2, hpeek, hend⟩ := peek_end h1
  refine ⟨ps2, ?_⟩
  unfold parsewhole
  refine (bind_of_ok hline).trans ((bind_of_ok hpeek).trans ?_)
  show (if ps2 ≠ (cstr s).length then _ else _ : M Cmd) ps2 = _
  rw [if_neg (not_not.2 (hend.2 rfl))]
  rfl

/-- With enough rounds `parsecmd` returns or panics, and it returns exactly the trees of the grammar. -/
theorem parsecmd_grammar (s : List UInt8) : ∃ n₀, ∀ n, n₀ ≤ n → parsecmd n s ≠ .error .loops ∧
    ∀ c, (∃ buf, parsecmd n s = .ok (c, buf)) ↔ Derives .line (tokens s) c := by
  refine ⟨4 * (tokens s).length + 4, fun n hn => ?_⟩
  have hmeets := parsewhole_meets hn
  refine ⟨?_, fun c => ⟨?_, fun hd => ?_⟩⟩
  · unfold parsecmd
    rcases hrun : parsewhole n s 0 with ⟨e | c, ps⟩
    · exact fun heq => hmeets.run_error hrun (Except.error.inj heq)
    · nofun
  · rintro ⟨buf, hbuf⟩
    unfold parsecmd at hbuf
    rcases hrun : parsewhole n s 0 with ⟨e | c', ps⟩ <;> rw [hrun] at hbuf
    · cases hbuf
    · cases hbuf
      exact hmeets.run_ok hrun
  · obtain ⟨ps, hrun⟩ := parsewhole_run hd hn
    exact ⟨_, by rw [parsecmd, hrun]⟩

end Xv6.Shell
