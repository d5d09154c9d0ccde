import Xv6.Contexts
import Xv6.LineWrites

/-!
# What lines and rectangles leave on the screen

`spot k` is the point that pixel `k` of the frame buffer shows. A drawing call between points of the screen
gives the pen's colour to the pixels of its list and to no others, so what is left is to say which points
these are. `sys_lineto` draws lines along an axis exactly; another line ends at its target only if it is
flat enough. `sys_fillrect` puts the rows of its rectangle in order, but not the columns.
-/

namespace Xv6.Graphics

open Kmem Exec
open Function (update)

/-! ### Pixels and points -/

def spot (k : Fin PIXELS) : Int × Int := (((k : Nat) % 320 : Nat), ((k : Nat) / 320 : Nat))

theorem index_onScreen {q : Int × Int} (h : OnScreen q.1 q.2) : Canvas.index q = 320 * q.2 + q.1 := by
  obtain ⟨h1, h2, h3, h4⟩ := h
  exact i32_eq_self.2 ⟨by omega, by omega⟩

theorem inside_onScreen {q : Int × Int} (h : OnScreen q.1 q.2) : Canvas.Inside q := by
  rw [Canvas.Inside, index_onScreen h]
  obtain ⟨h1, h2, h3, h4⟩ := h
  exact ⟨by omega, by show _ < ((320 * 200 : Nat) : Int); omega⟩

theorem eq_index_iff {q : Int × Int} (h : OnScreen q.1 q.2) (k : Fin PIXELS) :
    (k : Int) = Canvas.index q ↔ spot k = q := by
  rw [index_onScreen h, Prod.ext_iff]
  obtain ⟨h1, h2, h3, h4⟩ := h
  unfold spot
  dsimp only
  omega

theorem exists_spot {q : Int × Int} (h : OnScreen q.1 q.2) : ∃ k, spot k = q := by
  obtain ⟨h0, h1⟩ := inside_onScreen h
  have hk : (((⟨(Canvas.index q).toNat, by omega⟩ : Fin PIXELS) : Nat) : Int) = Canvas.index q := by
    dsimp only
    omega
  exact ⟨_, (eq_index_iff h _).1 hk⟩

theorem pixel_draw {c : Canvas} {qs : List (Int × Int)} (h : ∀ q ∈ qs, OnScreen q.1 q.2) (v : Int) (k : Fin PIXELS) :
    (c.draw qs v).pixel k = if spot k ∈ qs then Canvas.shade v else c.pixel k := by
  induction qs generalizing c with
  | nil => exact (if_neg List.not_mem_nil).symm
  | cons q qs ih =>
    rw [List.forall_mem_cons] at h
    have hplot : (c.plot q v).pixel k = if spot k = q then Canvas.shade v else c.pixel k :=
      if_congr (eq_index_iff h.1 k) rfl rfl
    refine (ih h.2).trans ?_
    rw [hplot]
    by_cases hq : spot k = q
    · rw [if_pos hq, ite_self, if_pos (hq ▸ List.mem_cons_self)]
    · rw [if_neg hq]
      exact if_congr (by rw [List.mem_cons, or_iff_right hq]) rfl rfl

variable {ι : Type} {g : Symbols} {p : Proc ι} {s s' : St ι} {i : Fin MAX_PROCESSES} {v : Int}

def penPos (g : Symbols) (i : Fin MAX_PROCESSES) (s : St ι) : Int × Int := (((canvas g s).ctx i).x, ((canvas g s).ctx i).y)

def ink (g : Symbols) (i : Fin MAX_PROCESSES) (s : St ι) : UInt8 := Canvas.shade ((canvas g s).ctx i).colour

/-- The pixels of the points in `R` get the pen's colour, and no other pixel changes. -/
def Fills (g : Symbols) (i : Fin MAX_PROCESSES) (s s' : St ι) (R : Int × Int → Prop) [DecidablePred R] : Prop :=
  ∀ k, (canvas g s').pixel k = if R (spot k) then ink g i s else (canvas g s).pixel k

theorem trap_absurd {big : Prop} (hm : g.Mapped p) (hbig : ¬ big) (e : Kmem.Stop) (s' : St ι) : ¬ Trap g p big e s' := by
  cases e
  · exact fun h => h hm
  · exact hbig

variable [DecidableEq ι]

theorem lineto_run (hg : g.Layout) (hm : g.Mapped p) (hv : uint v = g.entry i) {x y : Int}
    (hs : OnScreen (penPos g i s).1 (penPos g i s).2) (hu : OnScreen x y)
    (hq : ∀ q ∈ linePixels (penPos g i s).1 (penPos g i s).2 x y, OnScreen q.1 q.2) :
    ∃ s', lineto g p v x y s = (.ok 1, s') ∧ canvas g s' = (canvas g s).apply (.lineto i x y) := by
  obtain ⟨hs1, hs2, hs3, hs4⟩ := hs
  obtain ⟨hu1, hu2, hu3, hu4⟩ := hu
  have hsmall : ¬ (x = INT_MAX ∨ y = INT_MAX ∨ ((canvas g s).ctx i).x = INT_MAX ∨ ((canvas g s).ctx i).y = INT_MAX) := by
    unfold penPos at hs1 hs2 hs3 hs4
    dsimp only at hs1 hs2 hs3 hs4
    show ¬ (x = 2 ^ 31 - 1 ∨ y = 2 ^ 31 - 1 ∨ _ = (2 ^ 31 - 1 : Int) ∨ _ = (2 ^ 31 - 1 : Int))
    omega
  obtain ⟨r, s', hrun, hc⟩ := (lineto_meets (p := p) (s := s) hg hv (i32_eq_self.2 ⟨by omega, by omega⟩)
    (i32_eq_self.2 ⟨by omega, by omega⟩) id fun q hq' => inside_onScreen (hq q hq')).total (trap_absurd hm hsmall)
  obtain rfl := returns_lineto v x y s r s' hrun
  exact ⟨s', hrun, hc⟩

theorem apply_lineto_eq {c : Canvas} {x y : Int} (hq : ∀ q ∈ linePixels (c.ctx i).x (c.ctx i).y x y, OnScreen q.1 q.2) :
    (∀ k, (c.apply (.lineto i x y)).pixel k =
      if spot k ∈ linePixels (c.ctx i).x (c.ctx i).y x y then Canvas.shade (c.ctx i).colour else c.pixel k) ∧
    (c.apply (.lineto i x y)).ctx = update c.ctx i
      { c.ctx i with x := (lineEnd (c.ctx i).x (c.ctx i).y x y).1, y := (lineEnd (c.ctx i).x (c.ctx i).y x y).2 } := by
  refine ⟨fun k => pixel_draw hq _ k, ?_⟩
  show update (c.draw _ _).ctx i _ = _
  rw [Canvas.draw_ctx]
  rfl

/-! ### Lines along an axis -/

theorem lineto_axis (hg : g.Layout) (hm : g.Mapped p) (hv : uint v = g.entry i) {a b : Int × Int}
    (ha : OnScreen a.1 a.2) (hb : OnScreen b.1 b.2) (haxis : b.1 = a.1 ∨ b.2 = a.2) (hpen : penPos g i s = a) :
    ∃ s', lineto g p v b.1 b.2 s = (.ok 1, s') ∧ Fills g i s s' (Box a b) ∧
      (canvas g s').ctx = update (canvas g s).ctx i { (canvas g s).ctx i with x := b.1, y := b.2 } := by
  have hmem := mem_linePixels_axis haxis
  have hq : ∀ q ∈ linePixels a.1 a.2 b.1 b.2, OnScreen q.1 q.2 := fun q hq => ((hmem q).1 hq).onScreen ha hb
  obtain rfl := hpen
  obtain ⟨s', hrun, hc⟩ := lineto_run hg hm hv ha hb hq
  obtain ⟨hpix, hctx⟩ := apply_lineto_eq hq
  refine ⟨s', hrun, fun k => ?_, ?_⟩
  · rw [hc, hpix]
    exact if_congr (hmem (spot k)) rfl rfl
  · have hend : lineEnd ((canvas g s).ctx i).x ((canvas g s).ctx i).y b.1 b.2 = b := by
      refine (lineEnd_eq_iff (noOverflow_of_onScreen ha hb)).2 (.inl ?_)
      exact haxis.imp_right .inl
    rw [hc, hctx, hend]

/-- A line along an axis draws the same points in either direction: `s` has its pen at one end and `t` at the other. -/
theorem lineto_axis_exact (hg : g.Layout) (hm : g.Mapped p) (hv : uint v = g.entry i) {a b : Int × Int} {s t : St ι}
    (ha : OnScreen a.1 a.2) (hb : OnScreen b.1 b.2) (haxis : b.1 = a.1 ∨ b.2 = a.2) (hs : penPos g i s = a)
    (ht : penPos g i t = b) :
    (∃ s', lineto g p v b.1 b.2 s = (.ok 1, s') ∧ Fills g i s s' (Box a b) ∧
      (canvas g s').ctx = update (canvas g s).ctx i { (canvas g s).ctx i with x := b.1, y := b.2 }) ∧
    ∃ t', lineto g p v a.1 a.2 t = (.ok 1, t') ∧ Fills g i t t' (Box a b) ∧
      (canvas g t').ctx = update (canvas g t).ctx i { (canvas g t).ctx i with x := a.1, y := a.2 } := by
  refine ⟨lineto_axis hg hm hv ha hb haxis hs, ?_⟩
  obtain ⟨t', hrun, hfill, hctx⟩ := lineto_axis hg hm hv hb ha (haxis.imp Eq.symm Eq.symm) ht
  refine ⟨t', hrun, fun k => ?_, hctx⟩
  rw [hfill k]
  exact if_congr Box.comm rfl rfl

theorem sampleProc_mapped (q : Fin 2) : sampleSymbols.Mapped (sampleProc q) :=
  ⟨fun _ _ _ _ => ⟨rfl, rfl⟩, fun _ _ => rfl, by show (8192 : UInt32) ≤ KERNBASE; decide⟩

/-- The pen of the context in entry 0 is at (`x`, 0), its colour is 15, and the screen is empty. -/
def blank (x : UInt8) : St (Fin 2) :=
  ⟨fun a => if a = 0x80122000 then x else if a = 0x80122008 then 15 else 0, fun _ _ => 0, [], []⟩

theorem blank_pos : penPos sampleSymbols 0 (blank 0) = (0, 0) ∧ penPos sampleSymbols 0 (blank 9) = (9, 0) := by
  decide +kernel

/-- Between (0, 0) and (9, 0). -/
theorem lineto_axis_exact_row :
    (∃ s', lineto sampleSymbols (sampleProc 0) sampleHandle 9 0 (blank 0) = (.ok 1, s') ∧
      Fills sampleSymbols 0 (blank 0) s' (Box (0, 0) (9, 0))) ∧
    ∃ t', lineto sampleSymbols (sampleProc 0) sampleHandle 0 0 (blank 9) = (.ok 1, t') ∧
      Fills sampleSymbols 0 (blank 9) t' (Box (0, 0) (9, 0)) := by
  obtain ⟨⟨s', hs, hf, -⟩, t', ht, hf', -⟩ := lineto_axis_exact (a := (0, 0)) (b := (9, 0)) sampleSymbols_layout
    (sampleProc_mapped 0) (by decide : uint sampleHandle = sampleSymbols.entry ((0 : Fin MAX_PROCESSES) : Nat))
    (by unfold OnScreen; decide) (by unfold OnScreen; decide) (.inr rfl) blank_pos.1 blank_pos.2
  exact ⟨⟨s', hs, hf⟩, t', ht, hf'⟩

/-! ### Lines that end at their target -/

def Shows (g : Symbols) (s : St ι) (q : Int × Int) (c : UInt8) : Prop := ∃ k, spot k = q ∧ (canvas g s).pixel k = c

/-- From `s` to `s'` a line has been drawn from the pen to `q`, as far as its ends tell. -/
structure Lands (g : Symbols) (i : Fin MAX_PROCESSES) (s s' : St ι) (q : Int × Int) : Prop where
  pen : penPos g i s' = q
  start : Shows g s' (penPos g i s) (ink g i s)
  target : Shows g s' q (ink g i s)

/-- The last round of the loop stores the pen, whatever the pixels have overwritten. -/
theorem bressenhamRounds_pen (hg : g.Layout) {dx dy m x y err : Int} {n : Nat} (hx : ∀ w ∈ upFrom (n + 1) x, i32 w = w)
    (hy : i32 y = y) :
    Ends (bressenhamRounds g p (g.entry i) dx dy m (n + 1) x y err) s fun _ s' =>
      penPos g i s' = (x + n, diagonalEnd dx dy m (n + 1) y err) := by
  induction n generalizing x y err s with
  | zero =>
    rw [bressenhamRounds_succ]
    refine .bind .any fun _ s1 _ => .bind (P := fun _ _ => True)
      (fun _ _ _ => trivial) fun _ s2 _ => ?_
    intro _ s' hrun
    obtain ⟨_, s3, h3, hrun⟩ := bind_run_ok hrun
    obtain ⟨_, s4, h4, hrun⟩ := bind_run_ok hrun
    obtain rfl : s4 = s' := congrArg Prod.snd hrun
    have hc3 := Meets.run_ok (E := Trap g p True) (setField_meets hg i .x (hx x List.mem_cons_self)) h3
    have hc4 := Meets.run_ok (E := Trap g p True) (setField_meets hg i .y (i32_turn hy)) h4
    unfold penPos
    rw [hc4, hc3, Canvas.setCtx_setCtx, Canvas.setCtx_self, Canvas.setCtx_self]
    exact Prod.ext (add_zero x).symm rfl
  | succ n ih =>
    rw [bressenhamRounds_succ]
    refine .bind .any fun _ s1 _ => .bind (P := fun _ _ => True)
      (fun _ _ _ => trivial) fun _ s2 _ => .bind .any fun _ s3 _ =>
      .bind .any fun _ s4 _ => ?_
    refine (ih (fun w hw => hx w (List.mem_cons_of_mem _ hw)) (i32_turn hy)).mono fun _ s' h => ?_
    rw [h, diagonalEnd]
    push_cast
    exact Prod.ext (by dsimp only; ring) rfl

theorem ends_flush_pen (hg : g.Layout) {m : K ι Unit} {q : Int × Int} {r : Int}
    (hm : Ends m s fun _ s' => penPos g i s' = q) :
    Ends (do m; flush g p; pure r : K ι Int) s fun _ s' => penPos g i s' = q := by
  refine hm.bind fun _ s1 h1 => .bind (P := fun _ s' => penPos g i s' = q) (fun _ s2 h2 => ?_) fun _ _ h => .pure h
  have hc := Meets.run_ok (E := Trap g p True) (flush_meets hg) h2
  show penPos g i s2 = q
  unfold penPos
  rw [hc]
  exact h1

theorem bressenhamLine_pen (hg : g.Layout) {x1 x2 y1 y2 : Int} (h₁ : i32 x1 = x1) (h₂ : i32 x2 = x2) (hy : i32 y1 = y1)
    (hx : x1 < x2) (hne : y2 ≠ y1) :
    Ends (bressenhamLine g p x1 x2 y1 y2 (g.entry i)) s fun _ s' => penPos g i s' = lineEnd x1 y1 x2 y2 := by
  have hn : (x2 - x1 + 1).toNat = (x2 - x1).toNat + 1 := by omega
  have hend : lineEnd x1 y1 x2 y2 = (x2, diagonalEnd (i32 (x2 - x1)) (i32 (y2 - y1)) (i32 (2 * i32 (y2 - y1)))
      ((x2 - x1).toNat + 1) y1 (i32 (i32 (2 * i32 (y2 - y1)) - i32 (x2 - x1)))) := by
    rw [lineEnd, if_neg hx.ne', if_neg hne, if_pos hx.le, hn]
  refine .bind (P := fun _ s' => penPos g i s' = lineEnd x1 y1 x2 y2) ?_ fun _ s' h => ?_
  · rw [hn]
    refine (bressenhamRounds_pen hg (fun w hw => ?_) hy).mono fun _ s' h => ?_
    · rw [mem_upFrom] at hw
      exact i32_between h₁ h₂ hw.1 (by omega)
    · rw [h, hend]
      exact Prod.ext (by dsimp only; omega) rfl
  · split
    · exact .stop
    · exact .pure h

theorem lineto_pen (hg : g.Layout) (hv : uint v = g.entry i) {x y : Int} (hu : i32 x = x)
    (hx : ((canvas g s).ctx i).x < x) (hy : y ≠ ((canvas g s).ctx i).y) :
    Ends (lineto g p v x y) s fun _ s' =>
      penPos g i s' = lineEnd ((canvas g s).ctx i).x ((canvas g s).ctx i).y x y := by
  have hsX := i32_get g s i .x
  have hsY := i32_get g s i .y
  rw [HDC.get_x] at hsX
  rw [HDC.get_y] at hsY
  unfold lineto
  rw [hv]
  dsimp only
  refine .bind (P := fun w s1 => w = ((canvas g s).ctx i).get .x ∧ Same s s1)
    (fun _ _ h => Meets.run_ok (E := Trap g p True) (getField_meets hg i .x) h) ?_
  rintro _ s1 ⟨rfl, hs1⟩
  refine .bind (P := fun w s2 => w = ((canvas g s1).ctx i).get .y ∧ Same s1 s2)
    (fun _ _ h => Meets.run_ok (E := Trap g p True) (getField_meets hg i .y) h) ?_
  rintro _ s2 ⟨rfl, -⟩
  rw [hs1.canvas, HDC.get_x, HDC.get_y]
  generalize ((canvas g s).ctx i).x = sX at *
  generalize ((canvas g s).ctx i).y = sY at *
  rw [if_neg hx.ne', if_neg hy]
  exact ends_flush_pen hg (bressenhamLine_pen hg hsX hu hsY hx hy)

section Drawn

variable {q : Int × Int} (hq : ∀ r ∈ linePixels (penPos g i s).1 (penPos g i s).2 q.1 q.2, OnScreen r.1 r.2)
  (hc : canvas g s' = (canvas g s).apply (.lineto i q.1 q.2))

include hq hc

omit [DecidableEq ι]

theorem penPos_drawn : penPos g i s' = lineEnd (penPos g i s).1 (penPos g i s).2 q.1 q.2 := by
  have hctx := (apply_lineto_eq hq).2
  rw [penPos, hc, hctx, Function.update_self]
  rfl

theorem shows_drawn_of_mem {r : Int × Int} (hr : r ∈ linePixels (penPos g i s).1 (penPos g i s).2 q.1 q.2) :
    Shows g s' r (ink g i s) := by
  obtain ⟨k, rfl⟩ := exists_spot (hq r hr)
  refine ⟨k, rfl, ?_⟩
  rw [hc, (apply_lineto_eq hq).1]
  exact if_pos hr

theorem shows_drawn_of_not_mem {r : Int × Int} {c : UInt8}
    (hr : r ∉ linePixels (penPos g i s).1 (penPos g i s).2 q.1 q.2) : Shows g s' r c ↔ Shows g s r c := by
  have hpix : ∀ k, spot k = r → (canvas g s').pixel k = (canvas g s).pixel k := by
    rintro k rfl
    rw [hc, (apply_lineto_eq hq).1]
    exact if_neg hr
  exact exists_congr fun k => and_congr_right fun hk => by rw [hpix k hk]

end Drawn

/-- A line between points of the screen ends at its target if and only if it arrives, or it misses the target by a row and
the target has the pen's colour already. -/
theorem lineto_lands (hg : g.Layout) (hm : g.Mapped p) (hv : uint v = g.entry i) {q : Int × Int}
    (hs : OnScreen (penPos g i s).1 (penPos g i s).2) (hu : OnScreen q.1 q.2) :
    (∃ s', lineto g p v q.1 q.2 s = (.ok 1, s') ∧ Lands g i s s' q) ↔
      Arrives (penPos g i s).1 (penPos g i s).2 q.1 q.2 ∨
        Misses (penPos g i s).1 (penPos g i s).2 q.1 q.2 ∧ Shows g s q (ink g i s) := by
  have hno := noOverflow_of_onScreen hs hu
  have hend := lineEnd_eq_iff hno
  -- a line whose pen comes to the target is on the screen
  have hrun : Arrives (penPos g i s).1 (penPos g i s).2 q.1 q.2 ∨ Misses (penPos g i s).1 (penPos g i s).2 q.1 q.2 →
      ∃ s', lineto g p v q.1 q.2 s = (.ok 1, s') ∧ penPos g i s' = q ∧
        (∀ r ∈ linePixels (penPos g i s).1 (penPos g i s).2 q.1 q.2, Shows g s' r (ink g i s)) ∧
        ∀ r ∉ linePixels (penPos g i s).1 (penPos g i s).2 q.1 q.2, ∀ c, Shows g s' r c ↔ Shows g s r c := by
    intro h
    have hq : ∀ r ∈ linePixels (penPos g i s).1 (penPos g i s).2 q.1 q.2, OnScreen r.1 r.2 :=
      fun r hr => ((linePixels_box_iff hno).2 (staysInBox_of_end h) r hr).onScreen hs hu
    obtain ⟨s', hrun, hc⟩ := lineto_run hg hm hv hs hu hq
    exact ⟨s', hrun, (penPos_drawn hq hc).trans (hend.2 h), fun r hr => shows_drawn_of_mem hq hc hr,
      fun r hr c => shows_drawn_of_not_mem hq hc hr⟩
  constructor
  · rintro ⟨s', hs', hl⟩
    have hcases : Arrives (penPos g i s).1 (penPos g i s).2 q.1 q.2 ∨ Misses (penPos g i s).1 (penPos g i s).2 q.1 q.2 := by
      by_cases haxis : q.1 = (penPos g i s).1 ∨ q.2 = (penPos g i s).2
      · exact .inl (haxis.imp_right .inl)
      rw [not_or] at haxis
      rcases Int.lt_or_lt_of_ne haxis.1 with hleft | hright
      · obtain ⟨hnone, hstay⟩ := linePixels_left hleft haxis.2
        have hq : ∀ r ∈ linePixels (penPos g i s).1 (penPos g i s).2 q.1 q.2, OnScreen r.1 r.2 := by
          rw [hnone]
          exact nofun
        obtain ⟨s1, hs1, hc⟩ := lineto_run hg hm hv hs hu hq
        obtain rfl : s1 = s' := congrArg Prod.snd (hs1.symm.trans hs')
        have hpen := (penPos_drawn hq hc).symm.trans hl.pen
        rw [hstay] at hpen
        exact absurd (congrArg Prod.fst hpen).symm haxis.1
      · have hx : i32 q.1 = q.1 := i32_eq_self.2 ⟨by have := hu.1; omega, by have := hu.2.1; omega⟩
        exact hend.1 ((lineto_pen hg hv hx hright haxis.2 _ _ hs').symm.trans hl.pen)
    refine hcases.imp_right fun hmiss => ⟨hmiss, ?_⟩
    obtain ⟨s1, hs1, -, -, hkeep⟩ := hrun hcases
    obtain rfl : s1 = s' := congrArg Prod.snd (hs1.symm.trans hs')
    exact (hkeep q (not_mem_linePixels hno hmiss) _).1 hl.target
  · rintro (harr | ⟨hmiss, hshow⟩)
    · obtain ⟨s', hs', hpen, hdraw, -⟩ := hrun (.inl harr)
      obtain ⟨h1, h2⟩ := ends_mem_linePixels hno harr
      exact ⟨s', hs', hpen, hdraw _ h1, hdraw _ h2⟩
    · obtain ⟨s', hs', hpen, hdraw, hkeep⟩ := hrun (.inr hmiss)
      exact ⟨s', hs', hpen, hdraw _ (start_mem_linePixels hmiss.1 hmiss.ne hno),
        (hkeep q (not_mem_linePixels hno hmiss) _).2 hshow⟩

/-- Each line of a sequence is drawn from the target of the one before to its own. -/
def Polyline (g : Symbols) (p : Proc ι) (v : Int) (i : Fin MAX_PROCESSES) : St ι → List (Int × Int) → Prop
  | _, [] => True
  | s, q :: qs => ∃ s', lineto g p v q.1 q.2 s = (.ok 1, s') ∧ Lands g i s s' q ∧ Polyline g p v i s' qs

/-- Each line of the sequence that starts at `a` is on the screen and arrives. -/
def ArrivesAll : Int × Int → List (Int × Int) → Prop
  | _, [] => True
  | a, q :: qs => OnScreen q.1 q.2 ∧ Arrives a.1 a.2 q.1 q.2 ∧ ArrivesAll q qs

theorem polyline_of_arrivesAll (hg : g.Layout) (hm : g.Mapped p) (hv : uint v = g.entry i) {qs : List (Int × Int)}
    (hs : OnScreen (penPos g i s).1 (penPos g i s).2) (h : ArrivesAll (penPos g i s) qs) : Polyline g p v i s qs := by
  induction qs generalizing s with
  | nil => exact trivial
  | cons q qs ih =>
    obtain ⟨hu, harr, hrest⟩ := h
    obtain ⟨s', hrun, hl⟩ := (lineto_lands hg hm hv hs hu).2 (.inl harr)
    refine ⟨s', hrun, hl, ih ?_ ?_⟩
    · rwa [hl.pen]
    · rwa [hl.pen]

/-- When a line ends at its target, and that a sequence of lines that arrive is a connected one. -/
theorem lineto_lands_iff (hg : g.Layout) (hm : g.Mapped p) (hv : uint v = g.entry i) {q : Int × Int}
    (hs : OnScreen (penPos g i s).1 (penPos g i s).2) (hu : OnScreen q.1 q.2) :
    ((∃ s', lineto g p v q.1 q.2 s = (.ok 1, s') ∧ Lands g i s s' q) ↔
      Arrives (penPos g i s).1 (penPos g i s).2 q.1 q.2 ∨
        Misses (penPos g i s).1 (penPos g i s).2 q.1 q.2 ∧ Shows g s q (ink g i s)) ∧
    ∀ qs, ArrivesAll (penPos g i s) qs → Polyline g p v i s qs :=
  ⟨lineto_lands hg hm hv hs hu, fun _ => polyline_of_arrivesAll hg hm hv hs⟩

/-- The lines from (0, 0) to (9, 2), and on to (9, 7) and (0, 7). -/
theorem lineto_lands_iff_flat :
    (∃ s', lineto sampleSymbols (sampleProc 0) sampleHandle 9 2 (blank 0) = (.ok 1, s') ∧
      Lands sampleSymbols 0 (blank 0) s' (9, 2)) ∧
    Polyline sampleSymbols (sampleProc 0) sampleHandle 0 (blank 0) [(9, 2), (9, 7), (0, 7)] := by
  have hpos := blank_pos.1
  obtain ⟨hiff, hpoly⟩ := lineto_lands_iff (s := blank 0) (q := (9, 2)) sampleSymbols_layout (sampleProc_mapped 0)
    (by decide : uint sampleHandle = sampleSymbols.entry ((0 : Fin MAX_PROCESSES) : Nat))
    (by rw [hpos]; unfold OnScreen; decide) (by unfold OnScreen; decide)
  rw [hpos] at hiff hpoly
  refine ⟨hiff.2 (.inl ?_), hpoly _ ⟨?_, ?_, ?_, ?_, ?_, ?_, trivial⟩⟩
  all_goals
    first
      | unfold Arrives
        decide
      | unfold OnScreen
        decide

/-- The line from (0, 0) to (4, 1) leaves the pen at (4, 2). -/
theorem lineto_passes_target :
    penPos sampleSymbols 0 (blank 0) = (0, 0) ∧ OnScreen 0 0 ∧ OnScreen 4 1 ∧
    (lineto sampleSymbols (sampleProc 0) sampleHandle 4 1 (blank 0)).1.toOption = some 1 ∧
    penPos sampleSymbols 0 (lineto sampleSymbols (sampleProc 0) sampleHandle 4 1 (blank 0)).2 = (4, 2) :=
  ⟨blank_pos.1, by unfold OnScreen; decide, by unfold OnScreen; decide, by decide +kernel, by decide +kernel⟩

/-! ### Rectangles -/

theorem mem_rectPixels {x1 y1 x2 y2 : Int} {q : Int × Int} :
    q ∈ rectPixels x1 y1 x2 y2 ↔ (x1 ≤ q.1 ∧ q.1 ≤ x2) ∧ min y1 y2 ≤ q.2 ∧ q.2 ≤ max y1 y2 := by
  rw [rectPixels, List.mem_flatMap]
  constructor
  · rintro ⟨y, hy, hq⟩
    rw [mem_horizontal] at hq
    split at hy
    · rw [mem_upTo] at hy
      omega
    · rw [mem_upTo] at hy
      omega
  · rintro ⟨hx, hy⟩
    refine ⟨q.2, ?_, mem_horizontal.2 ⟨hx, rfl⟩⟩
    split
    · rw [mem_upTo]
      omega
    · rw [mem_upTo]
      omega

theorem fillrect_run (hg : g.Layout) (hm : g.Mapped p) (hv : uint v = g.entry i) {a : Int} (hp : p.PtrOk a 16)
    {x1 y1 x2 y2 : Int} (hx1 : s.int p.who (uint a) = x1) (hy1 : s.int p.who (uint a + 4) = y1)
    (hx2 : s.int p.who (uint a + 8) = x2) (hy2 : s.int p.who (uint a + 12) = y2) (h₁ : OnScreen x1 y1)
    (h₂ : OnScreen x2 y2) :
    ∃ s', fillrect g p v (uint a) s = (.ok 1, s') ∧
      ∀ k, (canvas g s').pixel k = if spot k ∈ rectPixels x1 y1 x2 y2 then ink g i s else (canvas g s).pixel k := by
  have hq : ∀ q ∈ rectPixels x1 y1 x2 y2, OnScreen q.1 q.2 := by
    intro q hq
    rw [mem_rectPixels] at hq
    unfold OnScreen at h₁ h₂ ⊢
    omega
  have hsmall : ¬ (x1 = INT_MAX ∨ x2 = INT_MAX ∨ y1 = INT_MAX ∨ y2 = INT_MAX) := by
    unfold OnScreen at h₁ h₂
    show ¬ (x1 = 2 ^ 31 - 1 ∨ x2 = 2 ^ 31 - 1 ∨ y1 = 2 ^ 31 - 1 ∨ y2 = 2 ^ 31 - 1)
    omega
  obtain ⟨r, s', hrun, hc⟩ := (fillrect_meets hg hv (fun hm j hj => readable_of_ptrOk hp (by decide) hm j hj) hx1 hy1 hx2 hy2
    id fun q hq' => inside_onScreen (hq q hq')).total (trap_absurd hm hsmall)
  obtain rfl := returns_fillrect v (uint a) s r s' hrun
  refine ⟨s', hrun, fun k => ?_⟩
  rw [hc]
  exact pixel_draw hq _ k

/-- `sys_fillrect` fills the rectangle between its corners if and only if the first corner is not to the right of
the second, or the rectangle has the pen's colour already. -/
theorem fillrect_exact_iff (hg : g.Layout) (hm : g.Mapped p) (hv : uint v = g.entry i) {a : Int} (hp : p.PtrOk a 16)
    {x1 y1 x2 y2 : Int} (hx1 : s.int p.who (uint a) = x1) (hy1 : s.int p.who (uint a + 4) = y1)
    (hx2 : s.int p.who (uint a + 8) = x2) (hy2 : s.int p.who (uint a + 12) = y2) (h₁ : OnScreen x1 y1)
    (h₂ : OnScreen x2 y2) :
    (∃ s', fillrect g p v (uint a) s = (.ok 1, s') ∧ Fills g i s s' (Box (x1, y1) (x2, y2))) ↔
      x1 ≤ x2 ∨ ∀ k, Box (x1, y1) (x2, y2) (spot k) → (canvas g s).pixel k = ink g i s := by
  obtain ⟨s', hrun, hpix⟩ := fillrect_run hg hm hv hp hx1 hy1 hx2 hy2 h₁ h₂
  have hfills : (∃ s', fillrect g p v (uint a) s = (.ok 1, s') ∧ Fills g i s s' (Box (x1, y1) (x2, y2))) ↔
      Fills g i s s' (Box (x1, y1) (x2, y2)) := by
    constructor
    · rintro ⟨s1, hs1, hf⟩
      obtain rfl : s1 = s' := congrArg Prod.snd (hs1.symm.trans hrun)
      exact hf
    · exact fun hf => ⟨s', hrun, hf⟩
  rw [hfills]
  by_cases hle : x1 ≤ x2
  · refine iff_of_true (fun k => (hpix k).trans (if_congr ?_ rfl rfl)) (.inl hle)
    rw [mem_rectPixels, Box, min_eq_left hle, max_eq_right hle]
  · have hnone : ∀ k, (canvas g s').pixel k = (canvas g s).pixel k := fun k => by
      rw [hpix, if_neg]
      rw [mem_rectPixels]
      omega
    rw [or_iff_right hle]
    constructor
    · intro hf k hk
      have := hf k
      rwa [hnone, if_pos hk] at this
    · intro hall k
      rw [hnone]
      split
      · rename_i hk
        exact hall k hk
      · rfl

/-- A `struct Rect` at address 4096 of the process: (`x1`, 1) and (`x2`, 0). -/
def rectStack (x1 x2 : UInt8) : St (Fin 2) :=
  { blank 0 with user := fun _ a => if a = 4096 then x1 else if a = 4100 then 1 else if a = 4104 then x2 else 0 }

theorem fillrect_exact_iff_rows :
    ∃ s', fillrect sampleSymbols (sampleProc 0) sampleHandle (uint 4096) (rectStack 0 2) = (.ok 1, s') ∧
      Fills sampleSymbols 0 (rectStack 0 2) s' (Box (0, 1) (2, 0)) := by
  refine (fillrect_exact_iff sampleSymbols_layout (sampleProc_mapped 0)
    (by decide : uint sampleHandle = sampleSymbols.entry ((0 : Fin MAX_PROCESSES) : Nat)) (by unfold Proc.PtrOk; decide)
    ?_ ?_ ?_ ?_ ?_ ?_).2 (.inl ?_)
  all_goals
    first
      | decide +kernel
      | unfold OnScreen
        decide

/-- With the corners (2, 1) and (0, 0) nothing is drawn: the pixel at (1, 0) stays 0. -/
theorem fillrect_draws_nothing :
    OnScreen 2 1 ∧ OnScreen 0 0 ∧ Box (2, 1) (0, 0) (spot 1) ∧ ink sampleSymbols 0 (rectStack 2 0) = 15 ∧
    (rectStack 2 0).int 0 4096 = 2 ∧ (rectStack 2 0).int 0 4100 = 1 ∧ (rectStack 2 0).int 0 4104 = 0 ∧
    (rectStack 2 0).int 0 4108 = 0 ∧
    (fillrect sampleSymbols (sampleProc 0) sampleHandle 4096 (rectStack 2 0)).1.toOption = some 1 ∧
    (canvas sampleSymbols (fillrect sampleSymbols (sampleProc 0) sampleHandle 4096 (rectStack 2 0)).2).pixel 1 = 0 :=
  ⟨by unfold OnScreen; decide, by unfold OnScreen; decide, by decide +kernel, by decide +kernel, by decide +kernel,
    by decide +kernel, by decide +kernel, by decide +kernel, by decide +kernel, by decide +kernel⟩

end Xv6.Graphics
