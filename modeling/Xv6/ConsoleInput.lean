import Xv6.Lib.RingBuffer
import Xv6.Lib.Run

/-!
# Console input (`consoleintr`, `consoleread`)

`input` is a ring of typed characters with three free-running indices. One step is one character
handled by `consoleintr`, a call of `consoleread`, or one round of its loop; `cons.lock` is held over
a whole batch of characters and over the rounds of a reader that does not sleep, so the interleavings
of the kernel are among those of these steps. A reader that finds the buffer empty sleeps: it has no
step until a line has been committed. The echo on the screen is left out.

`Line` is what the input means: the characters committed so far, the line that can still be edited,
and how many of the committed characters have been consumed.
-/

namespace Xv6.ConsoleInput

open Function (update update_self update_of_ne)
open RingBuffer (slot Window)

abbrev INPUT_BUF : Nat := 128

/-- `C(x)`: Control-x. -/
abbrev ctrlD : UInt8 := 4
abbrev ctrlH : UInt8 := 8
abbrev ctrlP : UInt8 := 16
abbrev ctrlU : UInt8 := 21
abbrev newline : UInt8 := 10
abbrev carriageReturn : UInt8 := 13
abbrev delete : UInt8 := 0x7f

structure Input where
  buf : Fin INPUT_BUF → UInt8
  r : UInt32
  w : UInt32
  e : UInt32

namespace Input

variable (s : Input)

/-- The loop of kill-line, in at most the given number of rounds. -/
def killLine : Nat → Input → Input
  | 0, s => s
  | n + 1, s =>
    if s.e ≠ s.w ∧ s.buf (slot INPUT_BUF (s.e - 1)) ≠ newline then killLine n { s with e := s.e - 1 } else s

/-- `input.buf[input.e++ % INPUT_BUF] = c`, and the commit of a line that is complete. -/
def store (c : UInt8) : Input :=
  let s := { s with buf := update s.buf (slot INPUT_BUF s.e) c, e := s.e + 1 }
  if c = newline ∨ c = ctrlD ∨ s.e = s.r + UInt32.ofNat INPUT_BUF then { s with w := s.e } else s

/-- One round of the loop of `consoleintr`. -/
def consoleintr (c : UInt8) : Input :=
  if c = ctrlP then s
  else if c = ctrlU then s.killLine (s.e - s.w).toNat
  else if c = ctrlH ∨ c = delete then
    if s.e ≠ s.w then { s with e := s.e - 1 } else s
  else if c ≠ 0 ∧ s.e - s.r < UInt32.ofNat INPUT_BUF then
    s.store (if c = carriageReturn then newline else c)
  else s

end Input

structure Reader where
  n : Int
  target : Int
  got : List UInt8

structure St (ι : Type) where
  input : Input
  reader : ι → Option Reader

inductive Act (ι : Type)
  | type (c : UInt8)
  | call (p : ι) (n : Int)
  | read (p : ι)

variable {ι : Type}

/-- The character at `input.r`, and what is left of the buffer after `input.r++`. -/
def St.next (s : St ι) : UInt8 := s.input.buf (slot INPUT_BUF s.input.r)

def St.advance (s : St ι) : St ι := { s with input := { s.input with r := s.input.r + 1 } }

def St.setReader [DecidableEq ι] (s : St ι) (p : ι) (x : Option Reader) : St ι := { s with reader := update s.reader p x }

theorem St.setReader_self [DecidableEq ι] (s : St ι) (p : ι) (x : Option Reader) : (s.setReader p x).reader p = x := by
  simp [St.setReader]

theorem St.setReader_ne [DecidableEq ι] (s : St ι) {p q : ι} (h : q ≠ p) (x : Option Reader) :
    (s.setReader p x).reader q = s.reader q := by
  simp [St.setReader, h]

/-- One round of the loop of `consoleread`; a reader that is done is gone. -/
def St.round [DecidableEq ι] (s : St ι) (p : ι) (x : Reader) : St ι :=
  if s.next = ctrlD then
    -- `input.r++`, undone if there are bytes to return first
    if x.n < x.target then s.setReader p none else s.advance.setReader p none
  else
    s.advance.setReader p
      (if s.next = newline ∨ x.n - 1 ≤ 0 then none else some ⟨x.n - 1, x.target, x.got ++ [s.next]⟩)

def step [DecidableEq ι] (s : St ι) : Act ι → Option (St ι)
  | .type c => some { s with input := s.input.consoleintr c }
  | .call p n =>
    match s.reader p with
    | some _ => none
    | none => some (if 0 < n then s.setReader p (some ⟨n, n, []⟩) else s)
  | .read p =>
    match s.reader p with
    | none => none
    | some x => if s.input.r = s.input.w then none else some (s.round p x)

def init (buf : Fin INPUT_BUF → UInt8) : St ι := ⟨⟨buf, 0, 0, 0⟩, fun _ => none⟩

/-! ### What the input means -/

/-- The committed input, the line being edited, and how much of the committed input was consumed. -/
structure Line where
  committed : List UInt8
  pending : List UInt8
  taken : Nat

namespace Line

variable (l : Line)

def unread : Nat := l.committed.length + l.pending.length - l.taken

def add (c : UInt8) : Line :=
  if c = newline ∨ c = ctrlD ∨ l.unread + 1 = INPUT_BUF then
    { l with committed := l.committed ++ (l.pending ++ [c]), pending := [] }
  else { l with pending := l.pending ++ [c] }

/-- A typed character: edits reach only the pending line, a full buffer drops the character. -/
def type (c : UInt8) : Line :=
  if c = ctrlP ∨ c = 0 then l
  else if c = ctrlU then { l with pending := [] }
  else if c = ctrlH ∨ c = delete then { l with pending := l.pending.dropLast }
  else if l.unread < INPUT_BUF then l.add (if c = carriageReturn then newline else c)
  else l

end Line

/-- A read that has returned: what it asked for, what it got, and the position in the committed input
of the Ctrl-D it has consumed. -/
structure Ret where
  n : Int
  got : List UInt8
  eof : Option Nat

structure Typed where
  line : Line
  delivered : List UInt8
  rets : List Ret

namespace Typed

def init : Typed := ⟨⟨[], [], 0⟩, [], []⟩

def type (t : Typed) (c : UInt8) : Typed := { t with line := t.line.type c }

def ret (t : Typed) (x : Ret) : Typed := { t with rets := t.rets ++ [x] }

def take (t : Typed) : Typed := { t with line := { t.line with taken := t.line.taken + 1 } }

def round (s : St ι) (x : Reader) (t : Typed) : Typed :=
  if s.next = ctrlD then
    if x.n < x.target then t.ret ⟨x.target, x.got, none⟩ else t.take.ret ⟨x.target, x.got, some t.line.taken⟩
  else
    let t := { t.take with delivered := t.delivered ++ [s.next] }
    if s.next = newline ∨ x.n - 1 ≤ 0 then t.ret ⟨x.target, x.got ++ [s.next], none⟩ else t

end Typed

def upd (s : St ι) (a : Act ι) (_ : St ι) (t : Typed) : Option Typed :=
  some <| match a with
  | .type c => t.type c
  | .call _ n => if 0 < n then t else t.ret ⟨n, [], none⟩
  | .read p => (s.reader p).elim t fun x => t.round s x

/-! ### The ring holds the line -/

structure Sim (s : Input) (l : Line) : Prop where
  r : s.r = UInt32.ofNat l.taken
  w : s.w = UInt32.ofNat l.committed.length
  e : s.e = UInt32.ofNat (l.committed.length + l.pending.length)
  taken : l.taken ≤ l.committed.length
  room : l.committed.length + l.pending.length ≤ l.taken + INPUT_BUF
  window : Window s.buf l.taken (l.committed.length + l.pending.length) (l.committed ++ l.pending)
  pending : newline ∉ l.pending

namespace Sim

variable {s : Input} {l : Line} {c : UInt8}

theorem init (buf : Fin INPUT_BUF → UInt8) : Sim ⟨buf, 0, 0, 0⟩ ⟨[], [], 0⟩ :=
  ⟨rfl, rfl, rfl, le_rfl, by simp, Window.nil _ _, List.not_mem_nil⟩

theorem e_eq_w (h : Sim s l) : s.e = s.w ↔ l.pending = [] := by
  have := h.taken
  have := h.room
  rw [h.e, h.w, eq_comm, @RingBuffer.ofNat_eq_iff INPUT_BUF _ _ (by omega) (by omega) (by decide),
    ← List.length_eq_zero_iff]
  omega

theorem r_eq_w (h : Sim s l) : s.r = s.w ↔ l.taken = l.committed.length := by
  have := h.room
  rw [h.r, h.w, @RingBuffer.ofNat_eq_iff INPUT_BUF _ _ h.taken (by omega) (by decide)]

theorem pending_length (h : Sim s l) : (s.e - s.w).toNat = l.pending.length := by
  have := h.taken
  have := h.room
  rw [h.e, h.w, @RingBuffer.toNat_sub_ofNat INPUT_BUF _ _ (by omega) (by omega) (by decide)]
  omega

theorem committed_length (h : Sim s l) : (s.w - s.r).toNat = l.committed.length - l.taken := by
  have := h.room
  rw [h.r, h.w, @RingBuffer.toNat_sub_ofNat INPUT_BUF _ _ h.taken (by omega) (by decide)]

theorem unread_eq (h : Sim s l) : (s.e - s.r).toNat = l.unread := by
  have := h.taken
  rw [h.e, h.r, @RingBuffer.toNat_sub_ofNat INPUT_BUF _ _ (by omega) h.room (by decide)]
  rfl

/-- `input.e--` takes the last character of the pending line, which `input.e - 1` points to. -/
theorem backspace {p : List UInt8} {b : UInt8} (h : Sim s l) (hp : l.pending = p ++ [b]) :
    s.buf (slot INPUT_BUF (s.e - 1)) = b ∧ Sim { s with e := s.e - 1 } { l with pending := p } := by
  have hlen : l.committed.length + l.pending.length = l.committed.length + p.length + 1 := by
    rw [hp, List.length_append]
    rfl
  have he : s.e - 1 = UInt32.ofNat (l.committed.length + p.length) := by
    rw [h.e, hlen, RingBuffer.ofNat_pred]
  have htaken := h.taken
  have hroom := h.room
  constructor
  · have hlast := h.window (l.committed.length + p.length) (by omega) (by omega)
    rw [hp, ← List.append_assoc, ← List.length_append, List.getElem?_concat_length, Option.some.injEq,
      List.length_append] at hlast
    rw [he, RingBuffer.slot_ofNat (by decide)]
    exact hlast.symm
  · refine ⟨h.r, h.w, he, h.taken, by dsimp only; omega, ?_, fun hm => h.pending ?_⟩
    · refine h.window.shrink (by dsimp only; omega) fun k hk => ?_
      have hk' : k < (l.committed ++ p).length := by rwa [List.length_append]
      rw [hp, ← List.append_assoc, List.getElem?_append_left hk']
    · rw [hp]
      exact List.mem_append_left _ hm

/-- Kill-line stops at the committed text: there is no newline before it. -/
theorem killLine {p : List UInt8} (h : Sim s l) (hp : l.pending = p) :
    Sim (s.killLine p.length) { l with pending := [] } := by
  induction p using List.reverseRec generalizing s l with
  | nil =>
    obtain ⟨committed, pending, taken⟩ := l
    subst hp
    exact h
  | append_singleton p b ih =>
    obtain ⟨hb, h'⟩ := h.backspace hp
    have hne : s.e ≠ s.w := by
      rw [Ne, h.e_eq_w, hp]
      simp
    have hnl : b ≠ newline := by
      rintro rfl
      exact h.pending (by rw [hp]; simp)
    rw [List.length_append, List.length_singleton, Input.killLine, if_pos ⟨hne, by rwa [hb]⟩]
    have hrest := ih h' rfl
    exact hrest

theorem store (h : Sim s l) (hfull : l.unread < INPUT_BUF) (c : UInt8) : Sim (s.store c) (l.add c) := by
  have htaken := h.taken
  have hlt : l.committed.length + l.pending.length < l.taken + INPUT_BUF := by
    unfold Line.unread at hfull
    omega
  have he : s.e + 1 = UInt32.ofNat (l.committed.length + l.pending.length + 1) := by
    rw [h.e, RingBuffer.ofNat_succ]
  have hcommit : s.e + 1 = s.r + UInt32.ofNat INPUT_BUF ↔ l.unread + 1 = INPUT_BUF := by
    rw [he, h.r, RingBuffer.ofNat_eq_add_cap_iff (by omega) (by omega) (by decide)]
    unfold Line.unread
    omega
  have hwin := h.window.push (List.length_append ..) hlt c
  rw [← RingBuffer.slot_ofNat (by decide), ← h.e, List.append_assoc] at hwin
  unfold Input.store Line.add
  simp only [hcommit]
  split
  · refine ⟨h.r, ?_, ?_, ?_, ?_, ?_, List.not_mem_nil⟩
    · rw [he]
      simp [Nat.add_assoc]
    · rw [he]
      simp [Nat.add_assoc]
    · simp only [List.length_append]
      omega
    · simp only [List.length_append, List.length_cons, List.length_nil]
      omega
    · simpa [Nat.add_assoc] using hwin
  · rename_i hc
    rw [not_or] at hc
    refine ⟨h.r, h.w, ?_, h.taken, ?_, ?_, ?_⟩
    · rw [he]
      simp [Nat.add_assoc]
    · simp only [List.length_append, List.length_cons, List.length_nil]
      omega
    · simpa [Nat.add_assoc] using hwin
    · intro hm
      rcases List.mem_append.1 hm with hm | hm
      · exact h.pending hm
      · exact hc.1 (List.mem_singleton.1 hm).symm

theorem consoleintr (h : Sim s l) (c : UInt8) : Sim (s.consoleintr c) (l.type c) := by
  unfold Input.consoleintr Line.type
  by_cases hP : c = ctrlP
  · rw [if_pos hP, if_pos (.inl hP)]
    exact h
  rw [if_neg hP]
  by_cases h0 : c = 0
  · subst h0
    rw [if_neg (by decide), if_neg (by decide), if_neg (by simp), if_pos (.inr rfl)]
    exact h
  rw [if_neg (show ¬ (c = ctrlP ∨ c = 0) from not_or.2 ⟨hP, h0⟩)]
  by_cases hU : c = ctrlU
  · rw [if_pos hU, if_pos hU, h.pending_length]
    exact h.killLine rfl
  rw [if_neg hU, if_neg hU]
  by_cases hH : c = ctrlH ∨ c = delete
  · rw [if_pos hH, if_pos hH]
    rcases List.eq_nil_or_concat l.pending with hp | ⟨p, b, hp⟩
    · rw [if_neg (not_not.2 (h.e_eq_w.2 hp)), hp, List.dropLast_nil, ← hp]
      exact h
    · rw [List.concat_eq_append] at hp
      rw [if_pos (by rw [Ne, h.e_eq_w, hp]; simp), hp, List.dropLast_concat]
      exact (h.backspace hp).2
  rw [if_neg hH, if_neg hH]
  have hfull : s.e - s.r < UInt32.ofNat INPUT_BUF ↔ l.unread < INPUT_BUF := by
    rw [UInt32.lt_iff_toNat_lt, h.unread_eq]
    rfl
  by_cases hlt : l.unread < INPUT_BUF
  · rw [if_pos ⟨h0, hfull.2 hlt⟩, if_pos hlt]
    exact h.store hlt _
  · rw [if_neg fun h' => hlt (hfull.1 h'.2), if_neg hlt]
    exact h

theorem next (h : Sim s l) (hne : s.r ≠ s.w) :
    l.taken < l.committed.length ∧ l.committed[l.taken]? = some (s.buf (slot INPUT_BUF s.r)) := by
  have hlt : l.taken < l.committed.length := lt_of_le_of_ne h.taken (mt h.r_eq_w.2 hne)
  refine ⟨hlt, ?_⟩
  have hhead := h.window.head (by omega)
  rwa [List.getElem?_append_left hlt, ← RingBuffer.slot_ofNat (by decide), ← h.r] at hhead

theorem take (h : Sim s l) (hlt : l.taken < l.committed.length) :
    Sim { s with r := s.r + 1 } { l with taken := l.taken + 1 } := by
  have hroom := h.room
  refine ⟨?_, h.w, h.e, hlt, by dsimp only; omega, h.window.pop, h.pending⟩
  rw [h.r, RingBuffer.ofNat_succ]

end Sim

/-! ### Whole runs -/

theorem Line.type_committed (l : Line) (c : UInt8) :
    ∃ b, (l.type c).committed = l.committed ++ b ∧ (l.type c).taken = l.taken := by
  unfold Line.type Line.add
  split_ifs
  all_goals first | exact ⟨_, rfl, rfl⟩ | exact ⟨[], (List.append_nil _).symm, rfl⟩

/-- The positions of the Ctrl-Ds among the first `n` committed characters. -/
def eofs (n : Nat) (committed : List UInt8) : List Nat :=
  (List.range n).filter fun k => committed[k]? = some ctrlD

theorem eofs_append {n : Nat} {committed : List UInt8} (hn : n ≤ committed.length) (b : List UInt8) :
    eofs n (committed ++ b) = eofs n committed := by
  refine List.filter_congr fun k hk => ?_
  rw [List.getElem?_append_left (by have := List.mem_range.1 hk; omega)]

theorem eofs_succ {n : Nat} {committed : List UInt8} {c : UInt8} (hc : committed[n]? = some c) :
    eofs (n + 1) committed = eofs n committed ++ if c = ctrlD then [n] else [] := by
  unfold eofs
  rw [List.range_succ, List.filter_append, List.filter_singleton, hc]
  by_cases h : c = ctrlD <;> simp [h]

theorem take_succ_filter {n : Nat} {committed : List UInt8} {c : UInt8} (hc : committed[n]? = some c) :
    (committed.take (n + 1)).filter (· ≠ ctrlD) =
      (committed.take n).filter (· ≠ ctrlD) ++ if c = ctrlD then [] else [c] := by
  rw [List.take_add_one, hc, Option.toList_some, List.filter_append, List.filter_singleton]
  by_cases h : c = ctrlD <;> simp [h]

structure Inv (s : St ι) (t : Typed) : Prop where
  sim : Sim s.input t.line
  delivered : t.delivered = (t.line.committed.take t.line.taken).filter (· ≠ ctrlD)
  eofs : t.rets.filterMap Ret.eof = eofs t.line.taken t.line.committed
  rets : ∀ x ∈ t.rets, x.eof ≠ none → 0 < x.n ∧ x.got = []
  reader : ∀ p x, s.reader p = some x → 0 < x.n ∧ x.n + x.got.length = x.target

namespace Inv

variable {s s' : St ι} {t t' : Typed} {p : ι} {x : Reader}

theorem setReader [DecidableEq ι] (h : Inv s t) (p : ι) (o : Option Reader)
    (ho : ∀ x, o = some x → 0 < x.n ∧ x.n + x.got.length = x.target) : Inv (s.setReader p o) t := by
  refine ⟨h.sim, h.delivered, h.eofs, h.rets, fun q x hx => ?_⟩
  by_cases hq : q = p
  · subst hq
    exact ho x (by rwa [St.setReader_self] at hx)
  · exact h.reader q x (by rwa [St.setReader_ne s hq] at hx)

theorem ret (h : Inv s t) (n : Int) (got : List UInt8) : Inv s (t.ret ⟨n, got, none⟩) := by
  refine ⟨h.sim, h.delivered, ?_, ?_, h.reader⟩
  · rw [Typed.ret, List.filterMap_append]
    simpa using h.eofs
  · intro y hy hn
    rcases List.mem_append.1 hy with hy | hy
    · exact h.rets y hy hn
    · rw [List.mem_singleton.1 hy] at hn
      exact absurd rfl hn

theorem type (h : Inv s t) (c : UInt8) : Inv { s with input := s.input.consoleintr c } (t.type c) := by
  obtain ⟨b, hb, ht⟩ := t.line.type_committed c
  have htaken := h.sim.taken
  refine ⟨h.sim.consoleintr c, ?_, ?_, h.rets, h.reader⟩
  · show t.delivered = _
    rw [h.delivered, Typed.type, hb, ht, List.take_append_of_le_length htaken]
  · show t.rets.filterMap Ret.eof = _
    rw [h.eofs, Typed.type, hb, ht, eofs_append htaken]

theorem deliver (h : Inv s t) (hne : s.input.r ≠ s.input.w) (hc : s.next ≠ ctrlD) :
    Inv s.advance { t.take with delivered := t.delivered ++ [s.next] } := by
  obtain ⟨hlt, hget⟩ := h.sim.next hne
  change _ = some s.next at hget
  refine ⟨h.sim.take hlt, ?_, ?_, h.rets, h.reader⟩
  · show t.delivered ++ [s.next] = _
    rw [Typed.take, take_succ_filter hget, ← h.delivered]
    exact congrArg _ (if_neg hc).symm
  · show t.rets.filterMap Ret.eof = _
    rw [Typed.take, eofs_succ hget, if_neg hc, List.append_nil]
    exact h.eofs

theorem eof (h : Inv s t) (hne : s.input.r ≠ s.input.w) (hc : s.next = ctrlD) {n : Int} (hn : 0 < n) :
    Inv s.advance (t.take.ret ⟨n, [], some t.line.taken⟩) := by
  obtain ⟨hlt, hget⟩ := h.sim.next hne
  change _ = some s.next at hget
  refine ⟨h.sim.take hlt, ?_, ?_, ?_, h.reader⟩
  · show t.delivered = _
    rw [Typed.ret, Typed.take, take_succ_filter hget, ← h.delivered]
    simpa using hc
  · show (t.rets ++ [_]).filterMap Ret.eof = _
    rw [Typed.ret, Typed.take, eofs_succ hget, if_pos hc, List.filterMap_append, h.eofs]
    rfl
  · intro y hy hn'
    rcases List.mem_append.1 hy with hy | hy
    · exact h.rets y hy hn'
    · rw [List.mem_singleton.1 hy]
      exact ⟨hn, rfl⟩

theorem round [DecidableEq ι] (h : Inv s t) (hx : s.reader p = some x) (hne : s.input.r ≠ s.input.w) :
    Inv (s.round p x) (t.round s x) := by
  obtain ⟨hpos, hgot⟩ := h.reader p x hx
  have hnone : ∀ y, (none : Option Reader) = some y → 0 < y.n ∧ y.n + y.got.length = y.target := nofun
  unfold St.round Typed.round
  by_cases hc : s.next = ctrlD
  · rw [if_pos hc, if_pos hc]
    by_cases hn : x.n < x.target
    · rw [if_pos hn, if_pos hn]
      exact (h.setReader p none hnone).ret _ _
    · have hnil : x.got = [] := List.length_eq_zero_iff.1 (by omega)
      rw [if_neg hn, if_neg hn, hnil]
      exact (h.eof hne hc (by omega)).setReader p none hnone
  · rw [if_neg hc, if_neg hc]
    have h' := h.deliver hne hc
    dsimp only
    by_cases hend : s.next = newline ∨ x.n - 1 ≤ 0
    · rw [if_pos hend, if_pos hend]
      exact (h'.setReader p none hnone).ret _ _
    · rw [if_neg hend, if_neg hend]
      refine h'.setReader p _ fun y hy => ?_
      obtain rfl := Option.some.inj hy
      simp only [List.length_append, List.length_singleton, Nat.cast_add, Nat.cast_one]
      omega

theorem step [DecidableEq ι] {a : Act ι} (h : Inv s t) (hs : step s a = some s') (ht : upd s a s' t = some t') : Inv s' t' := by
  cases Option.some.inj ht
  cases a with
  | type c =>
    cases Option.some.inj hs
    exact h.type c
  | call p n =>
    rw [ConsoleInput.step] at hs
    split at hs
    · cases hs
    cases Option.some.inj hs
    by_cases hn : 0 < n
    · simp only [if_pos hn]
      refine h.setReader p _ fun x hx => ?_
      obtain rfl := Option.some.inj hx
      exact ⟨hn, by simp⟩
    · simp only [if_neg hn]
      exact h.ret n []
  | read p =>
    rw [ConsoleInput.step] at hs
    split at hs
    · cases hs
    · rename_i x hx
      obtain ⟨hne, hs⟩ := Option.ite_none_left_eq_some.1 hs
      cases Option.some.inj hs
      simp only [hx, Option.elim_some]
      exact h.round hx hne

end Inv

theorem reachable_inv [DecidableEq ι] {buf : Fin INPUT_BUF → UInt8} {s : St ι} {t : Typed}
    (h : Machine.Reachable (Machine.along step upd) (init buf, Typed.init) (s, t)) : Inv s t := by
  refine h.inv (I := fun x => Inv x.1 x.2) ?_ fun x a y hi _ hs => ?_
  · exact ⟨Sim.init buf, rfl, rfl, nofun, nofun⟩
  · obtain ⟨hs, ht⟩ := Machine.along_eq hs
    exact hi.step hs ht

/-- In every state of every run the indices are in order; what readers have got is the consumed part
of the committed input without its Ctrl-Ds, and each Ctrl-D of that part was consumed by one read, which
asked for something and got nothing. -/
theorem reachable_line_discipline [DecidableEq ι] {buf : Fin INPUT_BUF → UInt8} {s : St ι} {t : Typed}
    (h : Machine.Reachable (Machine.along step upd) (init buf, Typed.init) (s, t)) :
    (s.input.w - s.input.r).toNat ≤ (s.input.e - s.input.r).toNat ∧
      (s.input.e - s.input.r).toNat ≤ INPUT_BUF ∧
      t.line.taken ≤ t.line.committed.length ∧
      t.delivered = (t.line.committed.take t.line.taken).filter (· ≠ ctrlD) ∧
      t.delivered <+: t.line.committed.filter (· ≠ ctrlD) ∧
      t.rets.filterMap Ret.eof = eofs t.line.taken t.line.committed ∧
      ∀ x ∈ t.rets, x.eof ≠ none → 0 < x.n ∧ x.got = [] := by
  have hi := reachable_inv h
  have htaken := hi.sim.taken
  have hroom := hi.sim.room
  refine ⟨?_, ?_, htaken, hi.delivered, ?_, hi.eofs, hi.rets⟩
  · rw [hi.sim.committed_length, hi.sim.unread_eq, Line.unread]
    omega
  · rw [hi.sim.unread_eq, Line.unread]
    omega
  · rw [hi.delivered]
    exact (List.take_prefix _ _).filter _

/-- Two letters and a Ctrl-D: the first read gets the letters and leaves the Ctrl-D to the second. -/
theorem reachable_line_discipline_letters : ∃ (s : St Unit) (t : Typed),
    Machine.run (Machine.along step upd) (init fun _ => 0, Typed.init)
      [.type 104, .type 105, .type ctrlD, .call () 10, .read (), .read (), .read (), .call () 10, .read ()] =
        some (s, t) ∧
      t.rets.map Ret.got = [[104, 105], []] ∧ t.rets.filterMap Ret.eof = [2] ∧
      t.delivered = (t.line.committed.take t.line.taken).filter (· ≠ ctrlD) := by
  have hrun : (Machine.run (Machine.along step upd) (init fun _ => 0, Typed.init)
      [.type 104, .type 105, .type ctrlD, .call () 10, .read (), .read (), .read (), .call () 10, .read ()]).any
      (fun x => x.2.rets.map Ret.got == [[104, 105], []] && x.2.rets.filterMap Ret.eof == [2]) = true := by
    decide
  obtain ⟨⟨s, t⟩, hs, hx⟩ := (Option.any_eq_true _ _).1 hrun
  rw [Bool.and_eq_true, beq_iff_eq, beq_iff_eq] at hx
  obtain ⟨-, -, -, hd, -⟩ := reachable_line_discipline (Machine.Reach.of_run hs)
  exact ⟨s, t, hs, hx.1, hx.2, hd⟩

end Xv6.ConsoleInput
