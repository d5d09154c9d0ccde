import Xv6.GrepMatch
import Xv6.Memmove
import Xv6.Lib.Run

/-!
# Reading lines (`grep.c`)

`grep` reads into a buffer and looks at the lines that are complete. What is left of an unfinished line is
moved to the front of the buffer; but when a read has brought no newline at all, the buffer is emptied, and
a line that ends later has lost its beginning. So the output is right for every pattern exactly if no
newline comes after a read without one (`grep_lines_iff`).
-/

namespace Xv6

/-- `strchr(s, c)`, as an offset. -/
def Ulib.strchr (c : UInt8) : List UInt8 → Option Nat
  | [] => none
  | x :: s => if x = 0 then none else if x = c then some 0 else (strchr c s).map (· + 1)

theorem Ulib.strchr_lt {c : UInt8} {s : List UInt8} {i : Nat} (h : Ulib.strchr c s = some i) : i < s.length := by
  induction s generalizing i with
  | nil => cases h
  | cons x s ih =>
    rw [strchr] at h
    split at h
    · cases h
    split at h
    · cases h
      exact Nat.succ_pos _
    · obtain ⟨j, hj, rfl⟩ := Option.map_eq_some_iff.1 h
      exact Nat.succ_lt_succ (ih hj)

namespace Grep

open Ulib (strchr)

abbrev newline : UInt8 := 10
abbrev BUFSIZE : Nat := 1024

/-! ### The program -/

structure St where
  buf : List UInt8
  m : Nat
  out : List UInt8 -- written to file descriptor 1

def text (buf : List UInt8) (p : Nat) : List UInt8 := (buf.drop p).takeWhile (· ≠ 0)

def store (buf : List UInt8) (off : Nat) (bs : List UInt8) : List UInt8 :=
  buf.take off ++ bs ++ buf.drop (off + bs.length)

/-- `memmove(buf, p, n)`. -/
def move (buf : List UInt8) (p n : Nat) : List UInt8 :=
  (List.range buf.length).map (Ulib.memmove (fun a => buf.getD a 0) 0 p n)

def scan (pattern buf out : List UInt8) (p : Nat) : List UInt8 × List UInt8 × Nat :=
  match h : strchr newline (buf.drop p) with
  | none => (buf, out, p)
  | some i =>
    let cut := buf.set (p + i) 0
    if matchPattern pattern (text cut p) then
      let whole := cut.set (p + i) newline
      scan pattern whole (out ++ (whole.drop p).take (i + 1)) (p + i + 1)
    else scan pattern cut out (p + i + 1)
termination_by buf.length - p
decreasing_by
  all_goals
    have := Ulib.strchr_lt h
    rw [List.length_drop] at this
    simp only [List.length_set]
    omega

/-- One round of the outer loop, after a `read` that returned `piece`. -/
def round (pattern : List UInt8) (s : St) (piece : List UInt8) : St :=
  let m := s.m + piece.length
  let (buf, out, p) := scan pattern ((store s.buf s.m piece).set m 0) s.out 0
  let m := if p = 0 then 0 else m
  if 0 < m then ⟨move buf p (m - p), m - p, out⟩ else ⟨buf, m, out⟩

/-- A `read` returns at least one byte and at most as many as were asked for. -/
def step (pattern : List UInt8) (s : St) (piece : List UInt8) : Option St :=
  if 0 < piece.length ∧ piece.length ≤ BUFSIZE - s.m - 1 then some (round pattern s piece) else none

/-- What `grep` writes when the calls of `read` return these pieces and then 0. -/
def grep (pattern buf : List UInt8) (pieces : List (List UInt8)) : Option (List UInt8) :=
  (Machine.run (step pattern) ⟨buf, 0, []⟩ pieces).map St.out

/-! ### Lines -/

def finished (s : List UInt8) : List (List UInt8) := (s.splitOn newline).dropLast

def unfinished (s : List UInt8) : List UInt8 := (s.splitOn newline).getLast (List.splitOn_ne_nil _ _)

def selected (pattern s : List UInt8) : List UInt8 :=
  ((finished s).filter (matchPattern pattern)).flatMap (· ++ [newline])

variable {pattern s t l buf out piece : List UInt8} {pieces : List (List UInt8)}

theorem finished_of_not_mem (h : newline ∉ s) : finished s = [] := by
  rw [finished, List.splitOn_eq_singleton h]
  rfl

theorem unfinished_of_not_mem (h : newline ∉ s) : unfinished s = s := by
  simp only [unfinished, List.splitOn_eq_singleton h, List.getLast_singleton]

theorem finished_line (h : newline ∉ l) : finished (l ++ newline :: s) = l :: finished s := by
  rw [finished, List.splitOn_append_cons_self_of_not_mem h, List.dropLast_cons_of_ne_nil (List.splitOn_ne_nil _ _)]
  rfl

theorem unfinished_line (h : newline ∉ l) : unfinished (l ++ newline :: s) = unfinished s := by
  simp only [unfinished, List.splitOn_append_cons_self_of_not_mem h, List.getLast_cons (List.splitOn_ne_nil _ _)]

theorem line_induction {P : List UInt8 → Prop} (tail : ∀ s, newline ∉ s → P s)
    (line : ∀ l s, newline ∉ l → P s → P (l ++ newline :: s)) (s : List UInt8) : P s := by
  induction hn : s.length using Nat.strongRecOn generalizing s with
  | ind n ih =>
    by_cases hs : newline ∈ s
    · obtain ⟨l, s, rfl, hl⟩ := List.eq_append_cons_of_mem hs
      refine line l s hl (ih s.length ?_ s rfl)
      rw [← hn, List.length_append, List.length_cons]
      omega
    · exact tail s hs

theorem not_mem_unfinished (s : List UInt8) : newline ∉ unfinished s := by
  induction s using line_induction with
  | tail s h => rwa [unfinished_of_not_mem h]
  | line l s h ih => rwa [unfinished_line h]

theorem finished_append (s t : List UInt8) : finished (s ++ t) = finished s ++ finished (unfinished s ++ t) := by
  induction s using line_induction with
  | tail s h => rw [finished_of_not_mem h, unfinished_of_not_mem h, List.nil_append]
  | line l s h ih =>
    rw [List.append_assoc, List.cons_append, finished_line h, finished_line h, unfinished_line h, ih, List.cons_append]

theorem unfinished_append (s t : List UInt8) : unfinished (s ++ t) = unfinished (unfinished s ++ t) := by
  induction s using line_induction with
  | tail s h => rw [unfinished_of_not_mem h]
  | line l s h ih => rw [List.append_assoc, List.cons_append, unfinished_line h, unfinished_line h, ih]

theorem selected_append (s t : List UInt8) :
    selected pattern (s ++ t) = selected pattern s ++ selected pattern (unfinished s ++ t) := by
  rw [selected, finished_append, List.filter_append, List.flatMap_append]
  rfl

theorem selected_of_not_mem (h : newline ∉ s) : selected pattern s = [] := by
  rw [selected, finished_of_not_mem h]
  rfl

theorem selected_line (h : newline ∉ l) : selected pattern (l ++ newline :: s) =
    (if matchPattern pattern l then l ++ [newline] else []) ++ selected pattern s := by
  rw [selected, finished_line h, List.filter_cons]
  split <;> rfl

/-! ### The buffer -/

theorem strchr_none (h : newline ∉ s) (h₀ : 0 ∉ s) (junk : List UInt8) :
    strchr newline (s ++ 0 :: junk) = none := by
  induction s with
  | nil => rfl
  | cons x s ih =>
    rw [List.mem_cons, not_or] at h h₀
    rw [List.cons_append, strchr, if_neg (Ne.symm h₀.1), if_neg (Ne.symm h.1), ih h.2 h₀.2]
    rfl

theorem strchr_found (h : newline ∉ l) (h₀ : 0 ∉ l) (s : List UInt8) :
    strchr newline (l ++ newline :: s) = some l.length := by
  induction l with
  | nil => rfl
  | cons x l ih =>
    rw [List.mem_cons, not_or] at h h₀
    rw [List.cons_append, strchr, if_neg (Ne.symm h₀.1), if_neg (Ne.symm h.1), ih h.2 h₀.2]
    rfl

theorem text_eq (h₀ : 0 ∉ l) (done junk : List UInt8) : text (done ++ (l ++ 0 :: junk)) done.length = l := by
  have hne : ∀ x ∈ l, decide (x ≠ 0) = true := fun x hx => decide_eq_true fun h => h₀ (h ▸ hx)
  rw [text, List.drop_left, List.takeWhile_append_of_pos hne, List.takeWhile_cons_of_neg (by decide), List.append_nil]

theorem set_behind (done l junk : List UInt8) (x y : UInt8) :
    (done ++ (l ++ x :: junk)).set (done.length + l.length) y = done ++ (l ++ y :: junk) := by
  rw [List.set_append_right _ _ (Nat.le_add_right ..), Nat.add_sub_cancel_left,
    List.set_append_right _ _ (Nat.le_refl _), Nat.sub_self, List.set_cons_zero]

theorem scan_none {p : Nat} (h : strchr newline (buf.drop p) = none) : scan pattern buf out p = (buf, out, p) := by
  rw [scan]
  split
  · rfl
  · rename_i h'
    rw [h] at h'
    cases h'

theorem scan_some {p i : Nat} (h : strchr newline (buf.drop p) = some i) : scan pattern buf out p =
    if matchPattern pattern (text (buf.set (p + i) 0) p) then
      scan pattern ((buf.set (p + i) 0).set (p + i) newline)
        (out ++ (((buf.set (p + i) 0).set (p + i) newline).drop p).take (i + 1)) (p + i + 1)
    else scan pattern (buf.set (p + i) 0) out (p + i + 1) := by
  rw [scan]
  split
  · rename_i h'
    rw [h] at h'
    cases h'
  · rename_i h'
    rw [h] at h'
    cases h'
    rfl

theorem scan_eq (pattern : List UInt8) (h₀ : 0 ∉ s) (done junk out : List UInt8) :
    ∃ done', done'.length + (unfinished s).length = done.length + s.length ∧
      scan pattern (done ++ (s ++ 0 :: junk)) out done.length =
        (done' ++ (unfinished s ++ 0 :: junk), out ++ selected pattern s, done'.length) := by
  induction s using line_induction generalizing done out with
  | tail s h =>
    refine ⟨done, by rw [unfinished_of_not_mem h], ?_⟩
    rw [scan_none (by rw [List.drop_left, strchr_none h h₀]), unfinished_of_not_mem h, selected_of_not_mem h,
      List.append_nil]
  | line l s h ih =>
    rw [List.mem_append, List.mem_cons, not_or, not_or] at h₀
    rw [unfinished_line h, selected_line h, List.append_assoc, List.cons_append]
    -- the line ends with a newline, or with the 0 that was put there
    have hnext : ∀ (x : UInt8) (out' : List UInt8), ∃ done',
        done'.length + (unfinished s).length = done.length + (l ++ newline :: s).length ∧
        scan pattern (done ++ (l ++ x :: (s ++ 0 :: junk))) out' (done.length + l.length + 1) =
          (done' ++ (unfinished s ++ 0 :: junk), out' ++ selected pattern s, done'.length) := by
      intro x out'
      obtain ⟨done', hlen, hscan⟩ := ih h₀.2.2 (done ++ (l ++ [x])) out'
      have hfront : (done ++ (l ++ [x])).length = done.length + l.length + 1 := by
        rw [List.length_append, List.length_append, List.length_singleton, Nat.add_assoc]
      refine ⟨done', ?_, ?_⟩
      · rw [hlen, hfront, List.length_append, List.length_cons]
        omega
      · rw [hfront, List.append_assoc, List.append_assoc] at hscan
        exact hscan
    have hfind : strchr newline ((done ++ (l ++ newline :: (s ++ 0 :: junk))).drop done.length) = some l.length := by
      rw [List.drop_left, strchr_found h h₀.1]
    rw [scan_some hfind, set_behind, set_behind, text_eq h₀.1, List.drop_left]
    split
    · obtain ⟨done', hlen, hscan⟩ := hnext newline (out ++ (l ++ [newline]))
      refine ⟨done', hlen, ?_⟩
      have hline : (l ++ newline :: (s ++ 0 :: junk)).take (l.length + 1) = l ++ [newline] := by
        rw [List.take_length_add_append]
        rfl
      rw [hline, hscan, List.append_assoc]
    · obtain ⟨done', hlen, hscan⟩ := hnext 0 out
      exact ⟨done', hlen, hscan⟩

structure Holds (st : St) (carry : List UInt8) : Prop where
  size : st.buf.length = BUFSIZE
  len : st.m = carry.length
  front : ∃ junk, st.buf = carry ++ junk
  nul : 0 ∉ carry

def keep (s : List UInt8) : List UInt8 := if newline ∈ s then unfinished s else []

theorem take_move {p n : Nat} (h : p + n ≤ buf.length) : ∃ junk, move buf p n = (buf.drop p).take n ++ junk := by
  have hcopied : CopyLoop.Copied (fun a => buf.getD a 0) 0 p n (Ulib.memmove (fun a => buf.getD a 0) 0 p n) :=
    copied_ulib_memmove (.inl (Nat.zero_le p))
  have hfront : (move buf p n).take n = (buf.drop p).take n := by
    refine List.ext_getElem (by simp [move]; omega) fun i h1 h2 => ?_
    rw [List.length_take] at h1
    have hi := hcopied.inside i (by omega)
    rw [Nat.zero_add] at hi
    simp only [move, List.getElem_take, List.getElem_map, List.getElem_range, List.getElem_drop, hi]
    rw [List.getD_eq_getElem?_getD, List.getElem?_eq_getElem (by omega), Option.getD_some]
  exact ⟨(move buf p n).drop n, by rw [← hfront, List.take_append_drop]⟩

theorem length_move (buf : List UInt8) (p n : Nat) : (move buf p n).length = buf.length := by
  rw [move, List.length_map, List.length_range]

theorem length_unfinished_lt (h : newline ∈ s) : (unfinished s).length < s.length := by
  induction s using line_induction with
  | tail s hs => exact absurd h hs
  | line l s hl ih =>
    rw [unfinished_line hl, List.length_append, List.length_cons]
    by_cases hs : newline ∈ s
    · have := ih hs
      omega
    · rw [unfinished_of_not_mem hs]
      omega

theorem Holds.read {st : St} {carry : List UInt8} (h : Holds st carry) (hroom : carry.length + piece.length < BUFSIZE) :
    ∃ junk, (store st.buf st.m piece).set (st.m + piece.length) 0 = (carry ++ piece) ++ 0 :: junk ∧
      ((carry ++ piece) ++ 0 :: junk).length = BUFSIZE := by
  obtain ⟨junk, hbuf⟩ := h.front
  have hsize := h.size
  rw [hbuf, List.length_append] at hsize
  have hlen : piece.length < junk.length := by omega
  have hstore : store st.buf st.m piece = (carry ++ piece) ++ junk[piece.length] :: junk.drop (piece.length + 1) := by
    rw [store, hbuf, h.len, List.take_left, ← List.drop_drop, List.drop_left, List.drop_eq_getElem_cons hlen]
  refine ⟨junk.drop (piece.length + 1), ?_, ?_⟩
  · rw [hstore, h.len, ← List.length_append, List.set_append_right _ _ (Nat.le_refl _), Nat.sub_self,
      List.set_cons_zero]
  · rw [List.length_append, List.length_append, List.length_cons, List.length_drop]
    omega

theorem nul_unfinished (h₀ : 0 ∉ s) : 0 ∉ unfinished s := by
  induction s using line_induction with
  | tail s h => rwa [unfinished_of_not_mem h]
  | line l s h ih =>
    rw [List.mem_append, List.mem_cons, not_or, not_or] at h₀
    rw [unfinished_line h]
    exact ih h₀.2.2

/-- One round: the complete lines in the buffer that match are written, and the unfinished one is kept. -/
theorem Holds.round {st : St} {carry : List UInt8} (pattern : List UInt8) (h : Holds st carry) (hnul : 0 ∉ piece)
    (hpos : 0 < piece.length) (hroom : carry.length + piece.length < BUFSIZE) :
    Holds (round pattern st piece) (keep (carry ++ piece)) ∧
      (Grep.round pattern st piece).out = st.out ++ selected pattern (carry ++ piece) := by
  have h0 : 0 ∉ carry ++ piece := by
    rw [List.mem_append, not_or]
    exact ⟨h.nul, hnul⟩
  have hm : st.m + piece.length = (carry ++ piece).length := by rw [h.len, List.length_append]
  have hm_pos : 0 < (carry ++ piece).length := by omega
  obtain ⟨junk, hbuf, hsize⟩ := h.read hroom
  obtain ⟨done, hlen, hscan⟩ := scan_eq pattern h0 [] junk st.out
  rw [List.nil_append, List.length_nil] at hscan
  rw [List.length_nil, Nat.zero_add] at hlen
  have htotal : (done ++ (unfinished (carry ++ piece) ++ 0 :: junk)).length = BUFSIZE := by
    rw [← hsize, ← List.append_assoc, List.length_append, List.length_append, hlen, ← List.length_append]
  unfold Grep.round keep
  dsimp only
  rw [hbuf, hscan]
  dsimp only
  rw [hm]
  by_cases hnl : newline ∈ carry ++ piece
  · have hlt := length_unfinished_lt hnl
    have hdone : done.length ≠ 0 := by omega
    simp only [if_neg hdone, if_pos hm_pos, if_pos hnl]
    have hrest : (carry ++ piece).length - done.length = (unfinished (carry ++ piece)).length := by omega
    refine ⟨⟨(length_move ..).trans htotal, hrest, ?_, nul_unfinished h0⟩, trivial⟩
    have hfits : done.length + (unfinished (carry ++ piece)).length ≤
        (done ++ (unfinished (carry ++ piece) ++ 0 :: junk)).length := by
      rw [List.length_append, List.length_append]
      omega
    obtain ⟨junk', hmove⟩ := take_move hfits
    rw [hrest]
    exact ⟨junk', by rw [hmove, List.drop_left, List.take_left]⟩
  · rw [unfinished_of_not_mem hnl] at hlen htotal
    have hdone : done.length = 0 := by omega
    simp only [if_pos hdone, if_neg (Nat.lt_irrefl 0), if_neg hnl, unfinished_of_not_mem hnl]
    exact ⟨⟨htotal, rfl, ⟨_, rfl⟩, List.not_mem_nil⟩, trivial⟩

/-! ### All reads -/

/-- `read` can return these pieces one after the other, when `carry` is in the buffer. -/
def Readable : List UInt8 → List (List UInt8) → Prop
  | _, [] => True
  | carry, piece :: pieces =>
    0 < piece.length ∧ carry.length + piece.length < BUFSIZE ∧ Readable (keep (carry ++ piece)) pieces

/-- What is written when `carry` is in the buffer. -/
def written (pattern : List UInt8) : List UInt8 → List (List UInt8) → List UInt8
  | _, [] => []
  | carry, piece :: pieces =>
    selected pattern (carry ++ piece) ++ written pattern (keep (carry ++ piece)) pieces

theorem run_eq {st : St} {carry : List UInt8} (h : Holds st carry) (hread : Readable carry pieces)
    (hnul : ∀ piece ∈ pieces, 0 ∉ piece) :
    (Machine.run (step pattern) st pieces).map St.out = some (st.out ++ written pattern carry pieces) := by
  induction pieces generalizing st carry with
  | nil => rw [written, List.append_nil]; rfl
  | cons piece pieces ih =>
    obtain ⟨hpos, hroom, hread⟩ := hread
    rw [List.forall_mem_cons] at hnul
    obtain ⟨hnext, hout⟩ := h.round pattern hnul.1 hpos hroom
    have hstep : step pattern st piece = some (Grep.round pattern st piece) :=
      if_pos ⟨hpos, by rw [h.len]; omega⟩
    rw [Machine.run, hstep, Option.bind_some, ih hnext hread hnul.2, hout, List.append_assoc]
    rfl

theorem grep_eq (hbuf : buf.length = BUFSIZE) (hread : Readable [] pieces) (hnul : 0 ∉ pieces.flatten) :
    grep pattern buf pieces = some (written pattern [] pieces) := by
  have hstart : Holds ⟨buf, 0, []⟩ [] := ⟨hbuf, rfl, ⟨buf, rfl⟩, List.not_mem_nil⟩
  exact run_eq hstart hread fun piece hp h => hnul (List.mem_flatten.2 ⟨piece, hp, h⟩)

/-! ### What is lost -/

variable {carry : List UInt8}

theorem not_mem_keep (s : List UInt8) : newline ∉ keep s := by
  unfold keep
  split
  · exact not_mem_unfinished s
  · exact List.not_mem_nil

/-- If no newline comes after a piece without one, all complete lines are seen. -/
theorem written_of_pairwise (hcarry : newline ∉ carry) (h : pieces.Pairwise fun a b => newline ∈ b → newline ∈ a) :
    written pattern carry pieces = selected pattern (carry ++ pieces.flatten) := by
  induction pieces generalizing carry with
  | nil => rw [written, List.flatten_nil, List.append_nil, selected_of_not_mem hcarry]
  | cons piece pieces ih =>
    rw [List.pairwise_cons] at h
    rw [written, ih (not_mem_keep _) h.2, List.flatten_cons, ← List.append_assoc, selected_append (carry ++ piece)]
    congr 1
    by_cases hnl : newline ∈ carry ++ piece
    · rw [keep, if_pos hnl]
    · have hflat : newline ∉ pieces.flatten := fun hmem => by
        obtain ⟨b, hb, hmem⟩ := List.mem_flatten.1 hmem
        exact hnl (List.mem_append_right _ (h.1 b hb hmem))
      rw [keep, if_neg hnl, unfinished_of_not_mem hnl, List.nil_append, selected_of_not_mem hflat,
        selected_of_not_mem (by rw [List.mem_append, not_or]; exact ⟨hnl, hflat⟩)]

theorem unfinished_append_of_mem (h : newline ∈ t) : unfinished (s ++ t) = unfinished t := by
  obtain ⟨l, t, rfl, hl⟩ := List.eq_append_cons_of_mem h
  have hline : newline ∉ unfinished s ++ l := by
    rw [List.mem_append, not_or]
    exact ⟨not_mem_unfinished s, hl⟩
  rw [unfinished_append, ← List.append_assoc, unfinished_line hline, unfinished_line hl]

theorem length_selected_nil (s : List UInt8) : (selected [] s).length + (unfinished s).length = s.length := by
  have hall : ∀ l, matchPattern [] l = true := fun l => by cases l <;> rfl
  induction s using line_induction with
  | tail s h => rw [selected_of_not_mem h, unfinished_of_not_mem h, List.length_nil, Nat.zero_add]
  | line l s h ih =>
    rw [selected_line h, if_pos (hall l), unfinished_line h]
    simp only [List.length_append, List.length_cons, List.length_nil]
    omega

theorem length_written_nil (hcarry : newline ∉ carry) (hpos : ∀ piece ∈ pieces, 0 < piece.length) :
    (written [] carry pieces).length + (unfinished (carry ++ pieces.flatten)).length ≤
        (carry ++ pieces.flatten).length ∧
      (¬ (pieces.Pairwise fun a b => newline ∈ b → newline ∈ a) →
        (written [] carry pieces).length + (unfinished (carry ++ pieces.flatten)).length <
          (carry ++ pieces.flatten).length) := by
  induction pieces generalizing carry with
  | nil =>
    rw [written, List.flatten_nil, List.append_nil, unfinished_of_not_mem hcarry]
    exact ⟨by rw [List.length_nil]; omega, fun h => absurd List.Pairwise.nil h⟩
  | cons piece pieces ih =>
    rw [List.forall_mem_cons] at hpos
    have hih := ih (not_mem_keep (carry ++ piece)) hpos.2
    have hsel := length_selected_nil (carry ++ piece)
    have htotal : ∀ s : List UInt8, (s ++ pieces.flatten).length = s.length + pieces.flatten.length :=
      fun _ => List.length_append
    rw [htotal] at hih
    rw [written, List.flatten_cons, ← List.append_assoc, List.pairwise_cons, List.length_append, htotal]
    by_cases hnl : newline ∈ carry ++ piece
    · rw [keep, if_pos hnl, ← unfinished_append] at hih
      rw [keep, if_pos hnl]
      have hpiece : newline ∈ piece := (List.mem_append.1 hnl).resolve_left hcarry
      refine ⟨by omega, fun h => ?_⟩
      have := hih.2 fun hp => h ⟨fun _ _ _ => hpiece, hp⟩
      omega
    · have hnil : (keep (carry ++ piece)).length = 0 := by rw [keep, if_neg hnl, List.length_nil]
      rw [unfinished_of_not_mem hnl] at hsel
      have hlen : 0 < (carry ++ piece).length := by
        have := hpos.1
        rw [List.length_append]
        omega
      by_cases hflat : newline ∈ pieces.flatten
      · rw [unfinished_append_of_mem hflat] at hih ⊢
        exact ⟨by omega, fun _ => by omega⟩
      · have hall : newline ∉ carry ++ piece ++ pieces.flatten := by
          rw [List.mem_append, not_or]
          exact ⟨hnl, hflat⟩
        have hkeep : newline ∉ keep (carry ++ piece) ++ pieces.flatten := by
          rw [List.mem_append, not_or]
          exact ⟨not_mem_keep _, hflat⟩
        rw [unfinished_of_not_mem hkeep, List.length_append] at hih
        rw [unfinished_of_not_mem hall, List.length_append]
        have hpair : ∀ b ∈ pieces, newline ∈ b → newline ∈ piece :=
          fun b hb hmem => absurd (List.mem_flatten.2 ⟨b, hb, hmem⟩) hflat
        refine ⟨by omega, fun h => ?_⟩
        have := hih.2 fun hp => h ⟨hpair, hp⟩
        omega

theorem Readable.pos (h : Readable carry pieces) : ∀ piece ∈ pieces, 0 < piece.length := by
  induction pieces generalizing carry with
  | nil => nofun
  | cons piece pieces ih => exact List.forall_mem_cons.2 ⟨h.1, ih h.2.2⟩

/-- Whatever the pattern, `grep` writes the complete lines that match, exactly if no newline comes after a `read` that
has returned none. -/
theorem grep_lines_iff (hbuf : buf.length = BUFSIZE) (hread : Readable [] pieces) (hnul : 0 ∉ pieces.flatten) :
    (∀ pattern, grep pattern buf pieces = some (selected pattern pieces.flatten)) ↔
      pieces.Pairwise fun a b => newline ∈ b → newline ∈ a := by
  constructor
  · intro h
    by_contra hnot
    have hall := h []
    rw [grep_eq hbuf hread hnul, Option.some.injEq] at hall
    have hlt := (length_written_nil List.not_mem_nil hread.pos).2 hnot
    rw [hall, List.nil_append, length_selected_nil] at hlt
    exact Nat.lt_irrefl _ hlt
  · intro h pattern
    rw [grep_eq hbuf hread hnul, written_of_pairwise List.not_mem_nil h, List.nil_append]

/-- The lines `ab` and `c`, the second one cut off before its end: a piece without a newline may come last. -/
theorem grep_lines_iff_two : grep [97] (List.replicate BUFSIZE 0) [[97, 98, 10], [99, 10, 97], [97]] =
    some [97, 98, 10] := by
  have hread : Readable [] [[97, 98, 10], [99, 10, 97], [97]] :=
    ⟨by decide, by decide, by decide, by decide, by decide, by decide, trivial⟩
  have hpair : [[97, 98, 10], [99, 10, 97], [97]].Pairwise fun a b : List UInt8 => newline ∈ b → newline ∈ a := by
    simp
  rw [(grep_lines_iff List.length_replicate hread (by simp)).2 hpair [97]]
  decide

/-- The line `ab` in one piece and in two. -/
theorem grep_loses_line : grep [97, 98] (List.replicate BUFSIZE 0) [[97, 98, 10]] = some [97, 98, 10] ∧
    grep [97, 98] (List.replicate BUFSIZE 0) [[97], [98, 10]] = some [] := by
  have hone : Readable [] [[97, 98, 10]] := ⟨by decide, by decide, trivial⟩
  have htwo : Readable [] [[97], [98, 10]] := ⟨by decide, by decide, by decide, by decide, trivial⟩
  rw [grep_eq List.length_replicate hone (by simp), grep_eq List.length_replicate htwo (by simp)]
  decide

end Grep

end Xv6
