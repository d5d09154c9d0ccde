import Xv6.Console

/-!
# The screen as a terminal (`console.c`)

`cgaputc` writes on the first 24 lines of a screen of 25 and scrolls them. What it shows is compared with a
page that has as many rows as are needed (`Page`): the screen shows the last 24 rows of the page, where a
cell that was cleared and a cell under the cursor both count as blank (`console_scrolls`).
-/

namespace Xv6.Console

open Function (update update_self update_of_ne)

/-! ### A page without end -/

structure Page where
  cell : Nat → Nat → UInt16
  row : Nat
  col : Nat

namespace Page

def nextRow (p : Page) : Page := { p with row := p.row + 1, col := 0 }

def type (p : Page) (c : Nat) : Page :=
  if c = 10 then p.nextRow
  else
    let p := { p with cell := update p.cell p.row (update (p.cell p.row) p.col (UInt16.ofNat (c % 256) ||| 0x0700)) }
    if p.col + 1 = 80 then p.nextRow else { p with col := p.col + 1 }

def typeAll (p : Page) (cs : List Nat) : Page := cs.foldl type p

def top (p : Page) : Nat := p.row - 23

end Page

def Blank (x : UInt16) : Prop := x.toNat % 256 = 0 ∨ x.toNat % 256 = 0x20

def Looks (x y : UInt16) : Prop := x = y ∨ Blank x ∧ Blank y

/-- A text as a page: what is above and before the cursor. -/
def Text.page (t : Text) : Page :=
  ⟨fun r c => if 80 * r + c < t.pos then t.cell (80 * r + c) else 0, t.pos / 80, t.pos % 80⟩

/-! ### The screen shows the end of a page -/

/-- The 24 lines of the screen look like 24 rows of the page, from row `top` on. -/
def Lines (cell : Nat → UInt16) (rows : Nat → Nat → UInt16) (top : Nat) : Prop :=
  ∀ r c, r < 24 → c < 80 → Looks (cell (80 * r + c)) (rows (top + r) c)

structure ShowsPage (t : Text) (p : Page) : Prop where
  lines : Lines t.cell p.cell p.top
  col : p.col < 80
  pos : t.pos = 80 * min p.row 23 + p.col
  blank : ∀ r c, c < 80 → p.row < r ∨ r = p.row ∧ p.col ≤ c → Blank (p.cell r c)

/-- The end of `cgaputc`: the screen is scrolled if need be, and the cursor is drawn. -/
def Text.settle (t : Text) : Text :=
  let t := if 24 ≤ t.pos / 80 then t.scroll else t
  t.set t.pos (0x20 ||| 0x0700)

variable {t : Text} {p : Page} {c i r : Nat} {cell : Nat → UInt16} {rows : Nat → Nat → UInt16} {top : Nat} {x y : UInt16}

theorem blank_zero : Blank 0 := .inl rfl

theorem blank_cursor : Blank (0x20 ||| 0x0700) := .inr rfl

theorem Lines.write (h : Lines cell rows top) (hr : r < 24) (hc : c < 80) (hx : Looks x y) :
    Lines (update cell (80 * r + c) x) (update rows (top + r) (update (rows (top + r)) c y)) top := by
  intro r' c' hr' hc'
  by_cases hrow : r' = r
  · subst hrow
    rw [update_self]
    by_cases hcol : c' = c
    · subst hcol
      rw [update_self, update_self]
      exact hx
    · rw [update_of_ne hcol, update_of_ne (by omega)]
      exact h r' c' hr' hc'
  · rw [update_of_ne (by omega), update_of_ne (by omega)]
    exact h r' c' hr' hc'

theorem Lines.blank (h : Lines cell rows top) (hr : r < 24) (hc : c < 80) (hx : Blank x) (hy : Blank (rows (top + r) c)) :
    Lines (update cell (80 * r + c) x) rows top := by
  have hw := h.write hr hc (.inr ⟨hx, hy⟩)
  rwa [Function.update_eq_self, Function.update_eq_self] at hw

theorem Lines.scroll (h : Lines t.cell rows top) (hpos : t.pos = 24 * 80)
    (hblank : ∀ c, c < 80 → Blank (rows (top + 24) c)) : Lines t.scroll.cell rows (top + 1) := by
  intro r c hr hc
  unfold Text.scroll
  dsimp only
  by_cases hlast : r = 23
  · rw [if_pos (by omega), show top + 1 + r = top + 24 by omega]
    exact .inr ⟨blank_zero, hblank c hc⟩
  · rw [if_neg (by omega), if_pos (by omega), show 80 * r + c + 80 = 80 * (r + 1) + c by omega,
      show top + 1 + r = top + (r + 1) by omega]
    exact h (r + 1) c (by omega) hc

theorem ShowsPage.nextRow (hlines : Lines t.cell p.cell p.top) (hpos : t.pos = 80 * (min p.row 23 + 1))
    (hblank : ∀ r c, c < 80 → p.row < r → Blank (p.cell r c)) : ShowsPage t.settle p.nextRow := by
  have hafter : ∀ r c, c < 80 → p.row + 1 < r ∨ r = p.row + 1 ∧ 0 ≤ c → Blank (p.cell r c) :=
    fun r c hc h => hblank r c hc (by omega)
  unfold Text.settle
  dsimp only
  rcases Nat.lt_or_ge p.row 23 with hrow | hrow
  · have hsame : p.nextRow.top = p.top := by simp only [Page.top, Page.nextRow]; omega
    rw [if_neg (by omega)]
    refine ⟨?_, Nat.succ_pos 79, ?_, hafter⟩
    · have hcursor : t.pos = 80 * (p.row + 1) + 0 := by omega
      rw [hsame]
      show Lines (update t.cell t.pos _) p.cell p.top
      rw [hcursor]
      exact hlines.blank (by omega) (by omega) blank_cursor (hblank _ 0 (by omega) (by unfold Page.top; omega))
    · simp only [Page.nextRow, Text.set]
      omega
  · have hnext : p.nextRow.top = p.top + 1 := by simp only [Page.top, Page.nextRow]; omega
    have hbottom : p.top + 24 = p.row + 1 := by unfold Page.top; omega
    have hfull : t.pos = 24 * 80 := by omega
    rw [if_pos (by omega)]
    refine ⟨?_, Nat.succ_pos 79, ?_, hafter⟩
    · have hscroll := hlines.scroll hfull fun c hc => hblank _ c hc (by omega)
      have hcursor : t.scroll.pos = 80 * 23 + 0 := by simp only [Text.scroll]; omega
      rw [hnext]
      show Lines (update t.scroll.cell t.scroll.pos _) p.cell (p.top + 1)
      rw [hcursor]
      exact hscroll.blank (by omega) (by omega) blank_cursor (hblank _ 0 (by omega) (by omega))
    · simp only [Page.nextRow, Text.set, Text.scroll]
      omega

theorem putc_eq_settle (h : t.pos < 24 * 80) : t.putc c = some (t.place c).settle := by
  have hle := Text.place_pos_le (c := c) h
  unfold Text.putc
  dsimp only
  rw [if_neg (by omega)]
  rfl

theorem ShowsPage.type (h : ShowsPage t p) (hc : c ≠ BACKSPACE) : ShowsPage (t.place c).settle (p.type c) := by
  have hcol := h.col
  have hpos := h.pos
  have hrow : p.top + min p.row 23 = p.row := by unfold Page.top; omega
  unfold Text.place Page.type
  by_cases hnl : c = 10
  · rw [if_pos hnl, if_pos hnl]
    refine ShowsPage.nextRow h.lines ?_ fun r c hc hr => h.blank r c hc (.inl hr)
    dsimp only
    omega
  · rw [if_neg hnl, if_neg hnl, if_neg hc]
    dsimp only
    generalize UInt16.ofNat (c % 256) ||| 0x0700 = x
    have hwrite : Lines (update t.cell t.pos x) (update p.cell p.row (update (p.cell p.row) p.col x)) p.top := by
      have hw := h.lines.write (r := min p.row 23) (by omega) hcol (.inl (Eq.refl x))
      rwa [← hpos, hrow] at hw
    have hbelow : ∀ r c, c < 80 → p.row < r →
        Blank (update p.cell p.row (update (p.cell p.row) p.col x) r c) := fun r c hc hr => by
      rw [update_of_ne (by omega)]
      exact h.blank r c hc (.inl hr)
    by_cases hwrap : p.col + 1 = 80
    · rw [if_pos hwrap]
      exact ShowsPage.nextRow (p := { p with cell := _ }) hwrite (by dsimp only; omega) hbelow
    · rw [if_neg hwrap]
      have hbehind : Blank (update p.cell p.row (update (p.cell p.row) p.col x) p.row (p.col + 1)) := by
        rw [update_self, update_of_ne (by omega)]
        exact h.blank _ _ (by omega) (.inr ⟨rfl, by omega⟩)
      unfold Text.settle
      dsimp only
      rw [if_neg (by omega)]
      refine ⟨?_, by dsimp only; omega, by simp only [Text.set]; omega, ?_⟩
      · show Lines (update (update t.cell t.pos x) (t.pos + 1) _) _ p.top
        rw [hpos, Nat.add_assoc, ← hpos]
        exact hwrite.blank (by omega) (by omega) blank_cursor (by rw [hrow]; exact hbehind)
      · intro r c hc hafter
        dsimp only at hafter
        rcases hafter with hr | ⟨rfl, hle⟩
        · exact hbelow r c hc hr
        · dsimp only
          rw [update_self, update_of_ne (by omega)]
          exact h.blank _ _ hc (.inr ⟨rfl, by omega⟩)

theorem showsPage_page (hpos : t.pos < 24 * 80) (hblank : ∀ i, t.pos ≤ i → i < 24 * 80 → Blank (t.cell i)) :
    ShowsPage t t.page := by
  have htop : t.page.top = 0 := by simp only [Page.top, Text.page]; omega
  refine ⟨fun r c hr hc => ?_, ?_, ?_, fun r c hc hafter => ?_⟩
  · rw [htop, Nat.zero_add]
    simp only [Text.page]
    split
    · exact .inl rfl
    · exact .inr ⟨hblank _ (by omega) (by omega), blank_zero⟩
  · simp only [Text.page]
    omega
  · simp only [Text.page]
    omega
  · simp only [Text.page] at hafter ⊢
    rw [if_neg (by omega)]
    exact blank_zero

/-! ### Sequences of characters -/

theorem settle_outside (h : t.pos ≤ 24 * 80) (hi : CELLS ≤ i) : t.settle.cell i = t.cell i := by
  simp only [CELLS] at hi
  unfold Text.settle
  dsimp only
  split
  · rw [Text.set_cell_ne (by simp only [Text.scroll]; omega)]
    simp only [Text.scroll]
    rw [if_neg (by omega), if_neg (by omega)]
  · exact Text.set_cell_ne (by omega)

theorem place_outside (h : t.pos < 24 * 80) (hi : CELLS ≤ i) : (t.place c).cell i = t.cell i := by
  simp only [CELLS] at hi
  unfold Text.place
  split
  · rfl
  split
  · rfl
  · exact Text.set_cell_ne (by omega)

/-- The characters, one after the other; `none` is a panic. -/
def St.putAll (s : St) (cs : List Nat) : Option St := Machine.run St.cgaputc s cs

theorem St.cgaputc_eq {s : St} (h : s.text.pos < 24 * 80) : s.cgaputc c = some (s.setText (s.text.place c).settle) := by
  rw [St.cgaputc, putc_eq_settle h]
  rfl

/-- One character moves the cursor to a cell of the first 24 lines, and writes only cells of the screen. -/
theorem St.cgaputc_safe {s : St} (h : s.text.pos < 24 * 80) : ∃ s', s.cgaputc c = some s' ∧
    s'.text = (s.text.place c).settle ∧ s'.text.pos < 24 * 80 ∧
    ∀ i, CELLS ≤ i → s'.crt i = s.crt i ∧ s'.videobuffer i = s.videobuffer i := by
  have hplace := Text.place_pos_le (c := c) h
  obtain ⟨u, hu, hpos⟩ := Text.putc_eq_some (c := c) h
  rw [putc_eq_settle h] at hu
  obtain rfl := Option.some.inj hu
  have htext := St.text_setText (s := s) hpos
  refine ⟨_, St.cgaputc_eq h, htext, by rwa [htext], fun i hi => ?_⟩
  have hcell := (settle_outside hplace hi).trans (place_outside (c := c) h hi)
  unfold St.setText
  rcases hd : s.textdisplayed with _ | _
  · rw [St.text_of_false hd] at hcell ⊢
    exact ⟨rfl, hcell⟩
  · rw [St.text_of_true hd] at hcell ⊢
    exact ⟨hcell, rfl⟩

theorem St.putAll_showsPage {s s' : St} {cs : List Nat} (h : ShowsPage s.text p) (hpos : s.text.pos < 24 * 80)
    (hcs : ∀ c ∈ cs, c ≠ BACKSPACE) (hs : s.putAll cs = some s') : ShowsPage s'.text (p.typeAll cs) := by
  induction cs generalizing s p with
  | nil =>
    cases hs
    exact h
  | cons c cs ih =>
    rw [List.forall_mem_cons] at hcs
    obtain ⟨s1, hput, htext, hpos1, -⟩ := St.cgaputc_safe (c := c) hpos
    rw [St.putAll, Machine.run, hput, Option.bind_some] at hs
    exact ih (htext ▸ h.type hcs.1) hpos1 hcs.2 hs

theorem St.putAll_safe {s : St} (cs : List Nat) (hpos : s.text.pos < 24 * 80) : ∃ s', s.putAll cs = some s' ∧
    s'.text.pos < 24 * 80 ∧ ∀ i, CELLS ≤ i → s'.crt i = s.crt i ∧ s'.videobuffer i = s.videobuffer i := by
  induction cs generalizing s with
  | nil => exact ⟨s, rfl, hpos, fun _ _ => ⟨rfl, rfl⟩⟩
  | cons c cs ih =>
    obtain ⟨s1, hput, -, hpos1, hout1⟩ := St.cgaputc_safe (c := c) hpos
    obtain ⟨s', hs', hpos', hout'⟩ := ih hpos1
    refine ⟨s', ?_, hpos', fun i hi => ?_⟩
    · rw [St.putAll, Machine.run, hput, Option.bind_some]
      exact hs'
    · exact ⟨(hout' i hi).1.trans (hout1 i hi).1, (hout' i hi).2.trans (hout1 i hi).2⟩

/-- From a cursor on the first 24 lines, no sequence of characters and backspaces panics, leaves these lines or writes
outside the screen; and without backspaces, on a screen that is blank from the cursor on, the 24 lines look like the
last 24 rows of the page. -/
theorem console_scrolls (s : St) (cs : List Nat) (hpos : s.text.pos < 24 * 80) : ∃ s', s.putAll cs = some s' ∧
    s'.text.pos < 24 * 80 ∧ (∀ i, CELLS ≤ i → s'.crt i = s.crt i ∧ s'.videobuffer i = s.videobuffer i) ∧
    ((∀ c ∈ cs, c ≠ BACKSPACE) → (∀ i, s.text.pos ≤ i → i < 24 * 80 → Blank (s.text.cell i)) →
      ∀ r c, r < 24 → c < 80 → Looks (s'.text.cell (80 * r + c))
        ((s.text.page.typeAll cs).cell ((s.text.page.typeAll cs).top + r) c)) := by
  obtain ⟨s', hs', hpos', hout⟩ := St.putAll_safe cs hpos
  refine ⟨s', hs', hpos', hout, fun hcs hblank => ?_⟩
  exact (St.putAll_showsPage (showsPage_page hpos hblank) hpos hcs hs').lines

/-- An A, and a B on the next line. -/
theorem console_scrolls_two_lines : ∃ s', blank.putAll [65, 10, 66] = some s' ∧ s'.text.pos < 24 * 80 ∧
    Looks (s'.text.cell 80) 0x0742 := by
  obtain ⟨s', hs', hpos', -, hlines⟩ := console_scrolls blank [65, 10, 66] (by decide)
  refine ⟨s', hs', hpos', ?_⟩
  exact hlines (by decide) (fun _ _ _ => blank_zero) 1 0 (by decide) (by decide)

end Xv6.Console
