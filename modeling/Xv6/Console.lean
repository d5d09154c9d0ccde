import Xv6.Lib.Run

/-!
# Text output and video modes (`console.c`, `vga.c`)

`cgaputc` writes to CGA memory and moves the hardware cursor, or, while `textdisplayed` is 0, writes
to `consbuffer` and moves the cursor kept there. `videosetmode` saves the screen when it leaves text
mode and restores it when it comes back. Programming the card leaves text memory and the cursor
registers with arbitrary contents, and so does anything that happens to them in a graphics mode; the
actions carry these contents.
-/

namespace Xv6.Console

open Function (update update_self update_of_ne)

abbrev BACKSPACE : Nat := 0x100
abbrev CELLS : Nat := 80 * 25

/-- Text memory and the cursor: the screen, or the buffer that stands in for it. -/
structure Text where
  cell : Nat → UInt16
  pos : Nat

namespace Text

def set (t : Text) (i : Nat) (x : UInt16) : Text := { t with cell := update t.cell i x }

def place (t : Text) (c : Nat) : Text :=
  if c = 10 then { t with pos := t.pos + (80 - t.pos % 80) }
  else if c = BACKSPACE then { t with pos := t.pos - 1 }
  else { t.set t.pos (UInt16.ofNat (c % 256) ||| 0x0700) with pos := t.pos + 1 }

/-- Lines 1 to 23 move up, and what follows the cursor is cleared. -/
def scroll (t : Text) : Text where
  cell i :=
    if t.pos - 80 ≤ i ∧ i < 24 * 80 then 0
    else if i < 23 * 80 then t.cell (i + 80)
    else t.cell i
  pos := t.pos - 80

/-- `cgaputc`; `none` is the panic "pos under/overflow". -/
def putc (t : Text) (c : Nat) : Option Text :=
  let t := t.place c
  if 25 * 80 < t.pos then none
  else
    let t := if 24 ≤ t.pos / 80 then t.scroll else t
    some (t.set t.pos (0x20 ||| 0x0700))

structure Same (t u : Text) : Prop where
  cell : ∀ i, i < CELLS → t.cell i = u.cell i
  pos : t.pos = u.pos

end Text

structure St where
  crt : Nat → UInt16 -- CGA memory
  cursor : UInt16 -- CRTC registers 14 and 15
  videobuffer : Nat → UInt16 -- `consbuffer.videobuffer`
  cursorposition : Nat -- `consbuffer.cursorposition`
  textdisplayed : Bool
  currentVideoMode : UInt8

namespace St

variable (s : St)

def text : Text := if s.textdisplayed then ⟨s.crt, s.cursor.toNat⟩ else ⟨s.videobuffer, s.cursorposition⟩

def setText (t : Text) : St :=
  if s.textdisplayed then { s with crt := t.cell, cursor := UInt16.ofNat t.pos }
  else { s with videobuffer := t.cell, cursorposition := t.pos }

def cgaputc (c : Nat) : Option St := (s.text.putc c).map s.setText

def grabscreentobuffer : St :=
  { s with
    videobuffer := fun i => if i < CELLS then s.crt i else s.videobuffer i
    cursorposition := s.cursor.toNat
    textdisplayed := false }

def outputbuffertoscreen : St :=
  { s with
    crt := fun i => if i < CELLS then s.videobuffer i else s.crt i
    cursor := UInt16.ofNat s.cursorposition
    textdisplayed := true }

end St

/-- What the card leaves in text memory and in the cursor registers. -/
structure Noise where
  crt : Nat → UInt16
  cursor : UInt16

def St.program (s : St) (mode : UInt8) (z : Noise) : St :=
  { s with crt := z.crt, cursor := z.cursor, currentVideoMode := mode }

def videosetmode (mode : UInt8) (z : Noise) (s : St) : Int × St :=
  if s.currentVideoMode = mode then (0, s)
  else
    let s := if s.currentVideoMode = 0x03 then s.grabscreentobuffer else s
    if mode = 0x03 then (0, (s.program 0x03 z).outputbuffertoscreen)
    else if mode = 0x12 then (0, s.program 0x12 z)
    else if mode = 0x13 then (0, s.program 0x13 z)
    else (-1, s)

inductive Act
  | putc (c : Nat)
  | setmode (mode : UInt8) (z : Noise)
  | noise (z : Noise) -- text memory changes while a graphics mode is on

/-- A `cgaputc` that panics is not a step. -/
def step (s : St) : Act → Option St
  | .putc c => s.cgaputc c
  | .setmode mode z => some (videosetmode mode z s).2
  | .noise z =>
    if s.currentVideoMode = 0x03 then none else some { s with crt := z.crt, cursor := z.cursor }

def Supported (mode : UInt8) : Prop := mode = 0x03 ∨ mode = 0x12 ∨ mode = 0x13

instance (mode : UInt8) : Decidable (Supported mode) := inferInstanceAs (Decidable (_ ∨ _))

/-- The machine after boot: text mode, with any text and the cursor on one of the first 24 lines. -/
structure Boot (s : St) : Prop where
  mode : s.currentVideoMode = 0x03
  text : s.textdisplayed = true
  cursor : s.cursor.toNat < 24 * 80

/-! ### Characters -/

namespace Text

variable {t u : Text} {c : Nat}

@[simp] theorem set_cell_self (t : Text) (i : Nat) (x : UInt16) : (t.set i x).cell i = x := update_self ..

theorem set_cell_ne {i j : Nat} {x : UInt16} (h : j ≠ i) : (t.set i x).cell j = t.cell j := update_of_ne h ..

theorem place_pos_le (h : t.pos < 24 * 80) : (t.place c).pos ≤ 24 * 80 := by
  unfold place
  split
  · dsimp only
    omega
  · split <;> dsimp only <;> omega

theorem putc_eq_some (h : t.pos < 24 * 80) : ∃ u, t.putc c = some u ∧ u.pos < 24 * 80 := by
  have hle := place_pos_le (c := c) h
  unfold putc
  dsimp only
  rw [if_neg (by omega)]
  refine ⟨_, rfl, ?_⟩
  split
  · show (t.place c).pos - 80 < 24 * 80
    omega
  · show (t.place c).pos < 24 * 80
    omega

namespace Same

theorem set {i : Nat} {x : UInt16} (h : Same t u) : Same (t.set i x) (u.set i x) := by
  refine ⟨fun j hj => ?_, h.pos⟩
  by_cases he : j = i
  · subst he
    rw [set_cell_self, set_cell_self]
  · rw [set_cell_ne he, set_cell_ne he, h.cell j hj]

theorem place (h : Same t u) : Same (t.place c) (u.place c) := by
  unfold Text.place
  rw [h.pos]
  split
  · exact ⟨h.cell, rfl⟩
  · split
    · exact ⟨h.cell, rfl⟩
    · exact ⟨h.set.cell, rfl⟩

theorem scroll (h : Same t u) : Same t.scroll u.scroll := by
  refine ⟨fun i hi => ?_, congrArg (· - 80) h.pos⟩
  simp only [Text.scroll, h.pos]
  split
  · rfl
  split
  · exact h.cell _ (by simp only [CELLS]; omega)
  · exact h.cell _ hi

theorem putc (h : Same t u) (hp : t.pos < 24 * 80) :
    ∃ t' u', t.putc c = some t' ∧ u.putc c = some u' ∧ Same t' u' ∧ t'.pos < 24 * 80 := by
  obtain ⟨t', ht, hp'⟩ := putc_eq_some (c := c) hp
  obtain ⟨u', hu, -⟩ := putc_eq_some (c := c) (h.pos ▸ hp)
  refine ⟨t', u', ht, hu, ?_, hp'⟩
  have hpl := h.place (c := c)
  unfold Text.putc at ht hu
  dsimp only at ht hu
  rw [if_neg (by have := place_pos_le (c := c) hp; omega)] at ht
  rw [if_neg (by have := place_pos_le (c := c) hp; rw [hpl.pos] at this; omega)] at hu
  have hs : Same (if 24 ≤ (t.place c).pos / 80 then (t.place c).scroll else t.place c)
      (if 24 ≤ (u.place c).pos / 80 then (u.place c).scroll else u.place c) := by
    rw [hpl.pos]
    split
    · exact hpl.scroll
    · exact hpl
  rw [← Option.some.inj ht, ← Option.some.inj hu, hs.pos]
  exact hs.set

end Same

end Text

/-! ### Text output through mode switches -/

/-- `s` shows, or keeps in the buffer, the text `t`; output goes to the screen exactly in text mode. -/
structure Shows (s : St) (t : Text) : Prop where
  same : Text.Same s.text t
  pos : s.text.pos < 24 * 80
  mode : s.textdisplayed = true ↔ s.currentVideoMode = 0x03

variable {s s' : St} {t : Text} {mode : UInt8} {z : Noise}

theorem St.text_of_true (h : s.textdisplayed = true) : s.text = ⟨s.crt, s.cursor.toNat⟩ := if_pos h

theorem St.text_of_false (h : s.textdisplayed = false) : s.text = ⟨s.videobuffer, s.cursorposition⟩ :=
  if_neg (by rw [h]; decide)

theorem St.text_setText {u : Text} (hu : u.pos < 24 * 80) : (s.setText u).text = u := by
  have hpos : (UInt16.ofNat u.pos).toNat = u.pos := by rw [UInt16.toNat_ofNat']; omega
  rcases hd : s.textdisplayed with _ | _
  · rw [St.setText, if_neg (by rw [hd]; decide)]
    exact St.text_of_false hd
  · rw [St.setText, if_pos hd, St.text_of_true (by exact hd), hpos]

theorem St.setText_textdisplayed {u : Text} : (s.setText u).textdisplayed = s.textdisplayed := by
  unfold St.setText
  split <;> rfl

theorem St.setText_mode {u : Text} : (s.setText u).currentVideoMode = s.currentVideoMode := by
  unfold St.setText
  split <;> rfl

theorem Shows.putc (h : Shows s t) (c : Nat) :
    ∃ s' t', s.cgaputc c = some s' ∧ t.putc c = some t' ∧ Shows s' t' := by
  obtain ⟨u, t', hu, ht, hsame, hpos⟩ := h.same.putc (c := c) h.pos
  refine ⟨s.setText u, t', ?_, ht, ?_, ?_, ?_⟩
  · rw [St.cgaputc, hu]
    rfl
  · rwa [St.text_setText hpos]
  · rwa [St.text_setText hpos]
  · rw [St.setText_textdisplayed, St.setText_mode]
    exact h.mode

theorem Shows.grab (h : Shows s t) (hm : s.currentVideoMode = 0x03) :
    Text.Same s.grabscreentobuffer.text t ∧ s.grabscreentobuffer.text.pos < 24 * 80 := by
  have hs := h.same
  have hp := h.pos
  rw [St.text_of_true (h.mode.2 hm)] at hs hp
  refine ⟨⟨fun i hi => ?_, hs.pos⟩, hp⟩
  exact (if_pos hi).trans (hs.cell i hi)

theorem shows_program (hs : Text.Same s.text t) (hp : s.text.pos < 24 * 80) (hd : s.textdisplayed = false)
    (hm : mode ≠ 0x03) : Shows (s.program mode z) t := by
  have htext : (s.program mode z).text = s.text := by
    rw [St.text_of_false hd]
    exact St.text_of_false hd
  refine ⟨by rwa [htext], by rwa [htext], iff_of_false ?_ hm⟩
  show ¬ s.textdisplayed = true
  rw [hd]
  decide

theorem shows_output (hs : Text.Same s.text t) (hp : s.text.pos < 24 * 80) (hd : s.textdisplayed = false) :
    Shows (s.program 0x03 z).outputbuffertoscreen t := by
  rw [St.text_of_false hd] at hs hp
  have hcur : (UInt16.ofNat s.cursorposition).toNat = s.cursorposition := by
    rw [UInt16.toNat_ofNat']
    dsimp only at hp
    omega
  refine ⟨⟨fun i hi => (if_pos hi).trans (hs.cell i hi), hcur.trans hs.pos⟩, ?_, iff_of_true rfl rfl⟩
  show (UInt16.ofNat s.cursorposition).toNat < 24 * 80
  rwa [hcur]

theorem Shows.setmode (h : Shows s t) (hm : Supported mode) : Shows (videosetmode mode z s).2 t := by
  unfold videosetmode
  by_cases he : s.currentVideoMode = mode
  · rw [if_pos he]
    exact h
  rw [if_neg he]
  -- after the screen has been saved, if it had to be
  have hgrab : ∃ s1, (if s.currentVideoMode = 0x03 then s.grabscreentobuffer else s) = s1 ∧
      Text.Same s1.text t ∧ s1.text.pos < 24 * 80 ∧ s1.textdisplayed = false := by
    by_cases h3 : s.currentVideoMode = 0x03
    · exact ⟨_, if_pos h3, (h.grab h3).1, (h.grab h3).2, rfl⟩
    · refine ⟨_, if_neg h3, h.same, h.pos, ?_⟩
      rw [← Bool.not_eq_true, h.mode]
      exact h3
  obtain ⟨s1, hs1, hsame, hpos, hd⟩ := hgrab
  rw [hs1]
  dsimp only
  rcases hm with rfl | rfl | rfl
  · exact shows_output hsame hpos hd
  · exact shows_program hsame hpos hd (by decide)
  · exact shows_program hsame hpos hd (by decide)

theorem Shows.noise (h : Shows s t) (hm : s.currentVideoMode ≠ 0x03) :
    Shows { s with crt := z.crt, cursor := z.cursor } t := by
  have hd : s.textdisplayed = false := by
    rw [← Bool.not_eq_true, h.mode]
    exact hm
  have htext : St.text { s with crt := z.crt, cursor := z.cursor } = s.text := by
    rw [St.text_of_false hd]
    exact St.text_of_false hd
  exact ⟨by rw [htext]; exact h.same, by rw [htext]; exact h.pos, h.mode⟩

def Act.Supported : Act → Prop
  | .setmode mode _ => Console.Supported mode
  | _ => True

def chars : List Act → List Nat
  | [] => []
  | .putc c :: as => c :: chars as
  | _ :: as => chars as

theorem Shows.run {as : List Act} (h : Shows s t) (hok : ∀ a ∈ as, a.Supported)
    (hs : Machine.run step s as = some s') : ∃ t', (chars as).foldlM Text.putc t = some t' ∧ Shows s' t' := by
  induction as generalizing s t with
  | nil =>
    cases hs
    exact ⟨t, rfl, h⟩
  | cons a as ih =>
    obtain ⟨s1, h1, hs⟩ := Option.bind_eq_some_iff.1 hs
    have hok' : ∀ a ∈ as, a.Supported := fun a ha => hok a (List.mem_cons_of_mem _ ha)
    cases a with
    | putc c =>
      obtain ⟨s2, t', h2, ht, hshow⟩ := h.putc c
      obtain rfl : s2 = s1 := Option.some.inj (h2.symm.trans h1)
      obtain ⟨t'', ht'', hshow'⟩ := ih hshow hok' hs
      refine ⟨t'', ?_, hshow'⟩
      rw [chars, List.foldlM_cons, ht]
      exact ht''
    | setmode mode z =>
      obtain rfl : (videosetmode mode z s).2 = s1 := Option.some.inj h1
      exact ih (h.setmode (hok _ (List.mem_cons_self ..))) hok' hs
    | noise z =>
      obtain ⟨hm, h1⟩ := Option.ite_none_left_eq_some.1 h1
      obtain rfl := Option.some.inj h1
      exact ih (h.noise hm) hok' hs

theorem Boot.shows (h : Boot s) : Shows s s.text := by
  refine ⟨⟨fun _ _ => rfl, rfl⟩, ?_, iff_of_true h.text h.mode⟩
  rw [St.text_of_true h.text]
  exact h.cursor

theorem Boot.run_chars (h : Boot s) {cs : List Nat} (ht : cs.foldlM Text.putc s.text = some t) :
    ∃ s', Machine.run step s (cs.map .putc) = some s' ∧ Shows s' t ∧ s'.textdisplayed = true := by
  have hrun : ∀ (cs : List Nat) (s : St) (u : Text), Shows s u → s.textdisplayed = true → cs.foldlM Text.putc u = some t →
      ∃ s', Machine.run step s (cs.map .putc) = some s' ∧ Shows s' t ∧ s'.textdisplayed = true := by
    intro cs
    induction cs with
    | nil =>
      intro s u hs hd ht
      cases ht
      exact ⟨s, rfl, hs, hd⟩
    | cons c cs ih =>
      intro s u hs hd ht
      obtain ⟨s1, u1, h1, hu1, hs1⟩ := hs.putc c
      rw [List.foldlM_cons, hu1] at ht
      have hd1 : s1.textdisplayed = true := by
        obtain ⟨u', -, rfl⟩ := Option.map_eq_some_iff.1 h1
        rw [St.setText_textdisplayed, hd]
      obtain ⟨s', hs', hshow⟩ := ih s1 u1 hs1 hd1 ht
      refine ⟨s', ?_, hshow⟩
      show (s.cgaputc c).bind _ = _
      rw [h1]
      exact hs'
  exact hrun cs s s.text h.shows h.text ht

/-- A run of console output and switches between supported modes never panics, and if it ends in text
mode the cells and the cursor are those the same characters produce without any switch. -/
theorem text_survives_modes {s₀ s : St} (h₀ : Boot s₀) {as : List Act} (hok : ∀ a ∈ as, a.Supported)
    (hs : Machine.run step s₀ as = some s) :
    (∀ c, (s.cgaputc c).isSome = true) ∧
    (s.currentVideoMode = 0x03 → ∃ s', Machine.run step s₀ ((chars as).map .putc) = some s' ∧
      (∀ i, i < CELLS → s.crt i = s'.crt i) ∧ s.cursor = s'.cursor) := by
  obtain ⟨t, ht, hshow⟩ := h₀.shows.run hok hs
  refine ⟨fun c => ?_, fun hm => ?_⟩
  · obtain ⟨s', _, h', -⟩ := hshow.putc c
    rw [h']
    rfl
  · obtain ⟨s', hs', hshow', hd'⟩ := h₀.run_chars ht
    have h1 := hshow.same
    have h2 := hshow'.same
    rw [St.text_of_true (hshow.mode.2 hm)] at h1
    rw [St.text_of_true hd'] at h2
    refine ⟨s', hs', fun i hi => (h1.cell i hi).trans (h2.cell i hi).symm, ?_⟩
    exact UInt16.toNat_inj.1 (h1.pos.trans h2.pos.symm)

def blank : St := ⟨fun _ => 0, 0, fun _ => 0, 0, true, 0x03⟩

def zeroNoise : Noise := ⟨fun _ => 0, 0⟩

/-- The letter A, written in graphics mode, is on the screen when text mode is back. -/
theorem text_survives_modes_letter : ∃ s s' : St,
    Machine.run step blank [.setmode 0x13 zeroNoise, .putc 65, .setmode 0x03 zeroNoise] = some s ∧
      s.crt 0 = 0x0741 ∧ Machine.run step blank [.putc 65] = some s' ∧
      (∀ i, i < CELLS → s.crt i = s'.crt i) ∧ s.cursor = s'.cursor := by
  have hsome : (Machine.run step blank [.setmode 0x13 zeroNoise, .putc 65, .setmode 0x03 zeroNoise]).any
      (fun s => s.currentVideoMode == 0x03 && s.crt 0 == 0x0741) = true := by decide
  obtain ⟨s, hs, hprop⟩ := (Option.any_eq_true _ _).1 hsome
  rw [Bool.and_eq_true, beq_iff_eq, beq_iff_eq] at hprop
  have hboot : Boot blank := ⟨rfl, rfl, by decide⟩
  obtain ⟨s', hs', hcell, hcur⟩ := (text_survives_modes hboot (by
      intro a ha
      simp only [List.mem_cons, List.not_mem_nil, or_false] at ha
      rcases ha with rfl | rfl | rfl
      · exact .inr (.inr rfl)
      · exact trivial
      · exact .inl rfl) hs).2 hprop.1
  exact ⟨s, s', hs, hprop.2, hs', hcell, hcur⟩

/-! ### Rejected modes -/

/-- In text mode a call with an unsupported mode saves the screen and sends later output to the buffer. -/
theorem videosetmode_unsupported (hm : ¬ Supported mode) :
    videosetmode mode z s = (-1, if s.currentVideoMode = 0x03 then s.grabscreentobuffer else s) ∨
      s.currentVideoMode = mode ∧ videosetmode mode z s = (0, s) := by
  unfold Supported at hm
  rw [not_or, not_or] at hm
  unfold videosetmode
  by_cases he : s.currentVideoMode = mode
  · rw [if_pos he]
    exact .inr ⟨he, rfl⟩
  · rw [if_neg he, if_neg hm.1, if_neg hm.2.1, if_neg hm.2.2]
    exact .inl rfl

theorem reachable_mode {s₀ : St} (h₀ : Boot s₀) (h : Machine.Reachable step s₀ s) : Supported s.currentVideoMode := by
  refine h.inv (I := fun s => Supported s.currentVideoMode) (.inl h₀.mode) fun s a s' hi _ hs => ?_
  cases a with
  | putc c =>
    obtain ⟨u, -, rfl⟩ := Option.map_eq_some_iff.1 hs
    rwa [St.setText_mode]
  | setmode mode z =>
    obtain rfl := Option.some.inj hs
    by_cases hm : Supported mode
    · unfold videosetmode
      split
      · exact hi
      · rcases hm with rfl | rfl | rfl
        · exact .inl rfl
        · exact .inr (.inl rfl)
        · exact .inr (.inr rfl)
    · rcases videosetmode_unsupported (s := s) (z := z) hm with h | ⟨-, h⟩ <;> rw [h]
      · dsimp only
        split <;> exact hi
      · exact hi
  | noise z =>
    obtain ⟨hm, hs⟩ := Option.ite_none_left_eq_some.1 hs
    obtain rfl := Option.some.inj hs
    exact hi

/-- The call returns -1 and no later output or switch can tell that it was made. -/
def Harmless (mode : UInt8) (z : Noise) (s : St) : Prop :=
  (videosetmode mode z s).1 = -1 ∧ (videosetmode mode z s).2 = s ∧
    ∀ as, Machine.run step (videosetmode mode z s).2 as = Machine.run step s as

/-- Output already goes to the buffer, and the buffer is a copy of the screen. -/
def Grabbed (s : St) : Prop :=
  s.textdisplayed = false ∧ (∀ i, i < CELLS → s.videobuffer i = s.crt i) ∧ s.cursorposition = s.cursor.toNat

theorem grab_eq_iff : s.grabscreentobuffer = s ↔ Grabbed s := by
  constructor
  · intro h
    refine ⟨(congrArg St.textdisplayed h).symm, fun i hi => ?_, (congrArg St.cursorposition h).symm⟩
    have := congrFun (congrArg St.videobuffer h) i
    exact (this.symm.trans (if_pos hi))
  · rintro ⟨h1, h2, h3⟩
    have hbuf : (fun i => if i < CELLS then s.crt i else s.videobuffer i) = s.videobuffer := by
      funext i
      split
      · exact (h2 i ‹_›).symm
      · rfl
    unfold St.grabscreentobuffer
    rw [hbuf, ← h3, ← h1]

/-- In every reachable state a rejected mode changes nothing exactly when a graphics mode is on, or
when an earlier rejected call has already diverted the output and nothing has been written since. -/
theorem rejected_mode_harmless_iff {s₀ : St} (h₀ : Boot s₀) (h : Machine.Reachable step s₀ s)
    (hm : ¬ Supported mode) (z : Noise) : Harmless mode z s ↔ s.currentVideoMode ≠ 0x03 ∨ Grabbed s := by
  have hne : s.currentVideoMode ≠ mode := by
    rintro rfl
    exact hm (reachable_mode h₀ h)
  have heq : videosetmode mode z s = (-1, if s.currentVideoMode = 0x03 then s.grabscreentobuffer else s) := by
    rcases videosetmode_unsupported (s := s) (z := z) hm with h | ⟨h, -⟩
    · exact h
    · exact absurd h hne
  unfold Harmless
  rw [heq]
  dsimp only
  by_cases h3 : s.currentVideoMode = 0x03
  · rw [if_pos h3]
    constructor
    · rintro ⟨-, h, -⟩
      exact .inr (grab_eq_iff.1 h)
    · rintro (h | h)
      · exact absurd h3 h
      · rw [grab_eq_iff.2 h]
        exact ⟨rfl, rfl, fun _ => rfl⟩
  · rw [if_neg h3]
    exact iff_of_true ⟨rfl, rfl, fun _ => rfl⟩ (.inl h3)

/-- In mode 0x13 the mode 0x55 is rejected without effect. -/
theorem rejected_mode_harmless_graphics : ∃ s, Machine.Reachable step blank s ∧ s.currentVideoMode = 0x13 ∧
    Harmless 0x55 zeroNoise s := by
  have hr : Machine.Reachable step blank (videosetmode 0x13 zeroNoise blank).2 :=
    Machine.Reach.refl.tail trivial (a := .setmode 0x13 zeroNoise) rfl
  have hboot : Boot blank := ⟨rfl, rfl, by decide⟩
  exact ⟨_, hr, rfl, (rejected_mode_harmless_iff hboot hr (by decide) zeroNoise).2 (.inl (by decide))⟩

/-- In text mode the mode 0x55 is rejected, but the letter written next does not reach the screen. -/
theorem rejected_mode_diverts_output :
    (videosetmode 0x55 zeroNoise blank).1 = -1 ∧
      ((videosetmode 0x55 zeroNoise blank).2.cgaputc 65).map (fun s => (s.crt 0, s.textdisplayed)) = some (0, false) ∧
      (blank.cgaputc 65).map (fun s => (s.crt 0, s.textdisplayed)) = some (0x0741, true) := by
  decide

end Xv6.Console
