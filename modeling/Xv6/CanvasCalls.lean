import Xv6.Canvas

/-!
# The drawing calls on the canvas

Each function of `graphics.c`, given the address of an entry of `hdcArray`, changes the canvas as its
`Op` says. The functions are followed access by access; a call stops early only if the memory it uses is
not mapped (`Trap`), or if a loop counter passes the largest `int`.
-/

namespace Xv6.Graphics

open Kmem Exec

variable {ι : Type} {g : Symbols} {p : Proc ι} {s : St ι} {big : Prop} {k : Kind} {a : UInt32} {i : Fin MAX_PROCESSES}

def Trap (g : Symbols) (p : Proc ι) (big : Prop) : Stop → St ι → Prop
  | .fault, _ => ¬ g.Mapped p
  | .overflow, _ => big

def Same (s s' : St ι) : Prop := s'.kernel = s.kernel ∧ s'.user = s.user

theorem Same.canvas {s' : St ι} (h : Same s s') : canvas g s' = canvas g s := canvas_congr h.1

theorem Same.trans {s₁ s₂ : St ι} (h : Same s s₁) (h' : Same s₁ s₂) : Same s s₂ :=
  ⟨h'.1.trans h.1, h'.2.trans h.2⟩

theorem Same.int {s' : St ι} (h : Same s s') : s'.int = s.int := funext fun _ => St.int_congr h.1 h.2

theorem load_meets (h : g.Mapped p → ∀ j, j < 4 → p.readable (a + UInt32.ofNat j)) :
    Meets (load p k a) s (fun v s' => v = s.int p.who a ∧ Same s s') (Trap g p big) := by
  by_cases hr : ∀ j, j < 4 → p.readable (a + UInt32.ofNat j)
  · exact .of_ok (if_pos hr) ⟨rfl, rfl, rfl⟩
  · exact .of_error (if_neg hr) fun hm => hr (h hm)

theorem loadChar_meets (h : g.Mapped p → p.readable a) :
    Meets (loadChar p k a) s (fun _ s' => Same s s') (Trap g p big) := by
  by_cases hr : p.readable a = true
  · exact .of_ok (if_pos hr) ⟨rfl, rfl⟩
  · exact .of_error (if_neg hr) fun hm => hr (h hm)

theorem Symbols.Mapped.sub (h : g.Mapped p) {r : UInt32 × Nat} (hr : r ∈ g.regions) {o n : Nat} (hn : o + n ≤ r.2)
    (j : Nat) (hj : j < n) :
    p.readable (r.1 + UInt32.ofNat o + UInt32.ofNat j) ∧ p.writable (r.1 + UInt32.ofNat o + UInt32.ofNat j) := by
  rw [UInt32.add_assoc, ← UInt32.ofNat_add]
  exact h.data r hr _ (by omega)

theorem Symbols.Mapped.field (h : g.Mapped p) (i : Fin MAX_PROCESSES) (f : Field) (j : Nat) (hj : j < 4) :
    p.readable (g.field i f + UInt32.ofNat j) ∧ p.writable (g.field i f + UInt32.ofNat j) := by
  rw [Symbols.field_eq]
  refine h.sub (r := (g.hdcArray, 16 * MAX_PROCESSES)) (by simp [Symbols.regions]) ?_ j hj
  have := f.off_add_lt
  dsimp only
  omega

theorem Symbols.Mapped.pixel (h : g.Mapped p) {x y : Int} (hq : Canvas.Inside (x, y)) :
    p.readable (g.pixel x y) ∧ p.writable (g.pixel x y) := by
  rw [pixel_eq hq]
  refine h.data (g.videobuffer, PIXELS) (by simp [Symbols.regions]) _ ?_
  have := hq.1
  have := hq.2
  dsimp only
  omega

theorem loadField_meets (hg : g.Layout) (i : Fin MAX_PROCESSES) (f : Field) :
    Meets (load p k (g.field i f)) s (fun v s' => v = ((canvas g s).ctx i).get f ∧ Same s s') (Trap g p big) := by
  refine (load_meets fun hm j hj => (hm.field i f j hj).1).mono (fun v s' h => ⟨?_, h.2⟩) fun _ _ h => h
  rw [h.1, get_ctx, St.int_eq_kint (hg.field i f)]

theorem getField_meets (hg : g.Layout) (i : Fin MAX_PROCESSES) (f : Field) :
    Meets (getField p (g.entry i) f) s (fun v s' => v = ((canvas g s).ctx i).get f ∧ Same s s') (Trap g p big) :=
  loadField_meets hg i f

theorem forUp_meets {lo hi : Int} {body : Int → K ι Unit} {Q : Unit → St ι → Prop} (hbig : lo ≤ hi → hi = INT_MAX → big)
    (h : Meets (Exec.rounds body (hi - lo + 1).toNat lo) s Q (Trap g p big)) :
    Meets (forUp lo hi body) s Q (Trap g p big) := by
  refine .bind h fun _ s' hQ => ?_
  split
  · rename_i hmax
    exact .stop (hbig hmax.1 hmax.2)
  · exact .pure hQ

variable [DecidableEq ι]

theorem storeBytes_meets {n : Nat} {v : Int} (h : g.Mapped p → ∀ j, j < n → p.writable (a + UInt32.ofNat j)) :
    Meets (storeBytes p k a n v) s
      (fun _ s' => canvas g s' = canvas g (s.put p.who a n (Bytes.leByte (uint v).toNat))) (Trap g p big) := by
  by_cases hw : ∀ j, j < n → p.writable (a + UInt32.ofNat j)
  · exact .of_ok (if_pos hw) (canvas_log _ _ _)
  · exact .of_error (if_neg hw) fun hm => hw (h hm)

theorem storeField_meets (hg : g.Layout) (i : Fin MAX_PROCESSES) (f : Field) {v : Int} (hv : i32 v = v) :
    Meets (store p k (g.field i f) v) s
      (fun _ s' => canvas g s' = (canvas g s).setCtx i (((canvas g s).ctx i).set v f)) (Trap g p big) := by
  refine (storeBytes_meets fun hm j hj => (hm.field i f j hj).2).mono (fun _ s' h => ?_) fun _ _ h => h
  rw [h, canvas_put_field hg, hv]

theorem setField_meets (hg : g.Layout) (i : Fin MAX_PROCESSES) (f : Field) {v : Int} (hv : i32 v = v) :
    Meets (setField p (g.entry i) f v) s
      (fun _ s' => canvas g s' = (canvas g s).setCtx i (((canvas g s).ctx i).set v f)) (Trap g p big) :=
  storeField_meets hg i f hv

theorem plot_meets (hg : g.Layout) (i : Fin MAX_PROCESSES) {x y : Int} (hq : Canvas.Inside (x, y)) :
    Meets (plot g p (g.entry i) x y) s
      (fun _ s' => canvas g s' = (canvas g s).plot (x, y) ((canvas g s).ctx i).colour) (Trap g p big) := by
  refine .bind (getField_meets hg i .colour) ?_
  rintro c s1 ⟨rfl, hs1⟩
  refine (storeBytes_meets fun hm j hj => ?_).mono (fun _ s' h => ?_) fun _ _ h => h
  · obtain rfl : j = 0 := by omega
    rw [show UInt32.ofNat 0 = 0 from rfl, UInt32.add_zero]
    exact (hm.pixel hq).2
  · rw [h, canvas_put_pixel hg hq, hs1.canvas, HDC.get_colour]

theorem flush_meets (hg : g.Layout) : Meets (flush g p) s (fun _ s' => canvas g s' = canvas g s) (Trap g p big) := by
  refine .of_ok rfl ?_
  rw [canvas_log, canvas_put_video hg, canvas_log]

/-! ### Lines -/

theorem rounds_plot_meets (hg : g.Layout) (i : Fin MAX_PROCESSES) (f : Int → Int × Int) {n : Nat} {lo : Int}
    (hq : ∀ v ∈ upFrom n lo, Canvas.Inside (f v)) :
    Meets (Exec.rounds (fun v => plot g p (g.entry i) (f v).1 (f v).2) n lo) s
      (fun _ s' => canvas g s' = (canvas g s).draw ((upFrom n lo).map f) ((canvas g s).ctx i).colour)
      (Trap g p big) := by
  induction n generalizing lo s with
  | zero => exact .pure rfl
  | succ n ih =>
    refine .bind (plot_meets hg i (hq lo (List.mem_cons_self ..))) fun _ s1 h1 => ?_
    refine (ih fun v hv => hq v (List.mem_cons_of_mem _ hv)).mono (fun _ s' h => ?_) fun _ _ h => h
    rw [h, h1]
    rfl

theorem verticalLine_meets (hg : g.Layout) (i : Fin MAX_PROCESSES) {x y1 y2 d : Int} (h₁ : i32 y1 = y1)
    (h₂ : i32 y2 = y2) (hbig : y1 ≤ y2 → y2 = INT_MAX → big) (hq : ∀ q ∈ vertical x y1 y2, Canvas.Inside q) :
    Meets (verticalLine g p (g.entry i) x y1 y2 d) s
      (fun _ s' => canvas g s' = ((canvas g s).draw (vertical x y1 y2) ((canvas g s).ctx i).colour).setCtx i
        (((canvas g s).ctx i).set (if d = 1 then y1 else y2) .y)) (Trap g p big) := by
  refine .bind (forUp_meets hbig (rounds_plot_meets hg i (fun y => (x, y)) fun v hv => hq _ (List.mem_map_of_mem hv)))
    fun _ s1 hs1 => ?_
  split
  all_goals
    refine (setField_meets hg i .y (by assumption)).mono (fun _ s' h => ?_) fun _ _ h => h
    rw [h, hs1, Canvas.draw_ctx]
    rfl

theorem horizontalLine_meets (hg : g.Layout) (i : Fin MAX_PROCESSES) {x1 x2 y d : Int} (h₁ : i32 x1 = x1)
    (h₂ : i32 x2 = x2) (hbig : x1 ≤ x2 → x2 = INT_MAX → big) (hq : ∀ q ∈ horizontal x1 x2 y, Canvas.Inside q) :
    Meets (horizontalLine g p (g.entry i) x1 x2 y d) s
      (fun _ s' => canvas g s' = ((canvas g s).draw (horizontal x1 x2 y) ((canvas g s).ctx i).colour).setCtx i
        (((canvas g s).ctx i).set (if d = 1 then x1 else x2) .x)) (Trap g p big) := by
  refine .bind (forUp_meets hbig (rounds_plot_meets hg i (fun x => (x, y)) fun v hv => hq _ (List.mem_map_of_mem hv)))
    fun _ s1 hs1 => ?_
  split
  all_goals
    refine (setField_meets hg i .x (by assumption)).mono (fun _ s' h => ?_) fun _ _ h => h
    rw [h, hs1, Canvas.draw_ctx]
    rfl

omit [DecidableEq ι] in
theorem i32_turn {dx dy m y err : Int} (hy : i32 y = y) : i32 (turn dx dy m y err).1 = (turn dx dy m y err).1 := by
  unfold turn
  split
  · exact i32_i32 _
  · exact hy

theorem bressenhamRounds_succ (hdc : UInt32) (dx dy m x y err : Int) (n : Nat) :
    (bressenhamRounds g p hdc dx dy m (n + 1) x y err : K ι Unit) = (do
      plot g p hdc x y
      let _ ← loadChar p .pixel (g.pixel x y)
      setField p hdc .x x
      setField p hdc .y (turn dx dy m y err).1
      bressenhamRounds g p hdc dx dy m n (x + 1) (turn dx dy m y err).1 (turn dx dy m y err).2) := by
  have hfst : (if (i32 (err + m) ≥ 0 ∧ dy > 0) ∨ (i32 (err + m) ≤ 0 ∧ dy < 0) then
      i32 (y + if dy > 0 then 1 else -1) else y) = (turn dx dy m y err).1 := by
    unfold turn
    split <;> rfl
  have hsnd : (if (i32 (err + m) ≥ 0 ∧ dy > 0) ∨ (i32 (err + m) ≤ 0 ∧ dy < 0) then
      i32 (i32 (err + m) - i32 (2 * dx)) else i32 (err + m)) = (turn dx dy m y err).2 := by
    unfold turn
    split <;> rfl
  rw [bressenhamRounds]
  dsimp only
  rw [hfst, hsnd]

theorem bressenhamRounds_meets (hg : g.Layout) (i : Fin MAX_PROCESSES) {dx dy m x y err : Int} {n : Nat}
    (hx : ∀ v ∈ upFrom n x, i32 v = v) (hy : i32 y = y) (hq : ∀ q ∈ diagonal dx dy m n x y err, Canvas.Inside q) :
    Meets (bressenhamRounds g p (g.entry i) dx dy m n x y err) s
      (fun _ s' => canvas g s' =
        ((canvas g s).draw (diagonal dx dy m n x y err) ((canvas g s).ctx i).colour).setCtx i
          (if n = 0 then (canvas g s).ctx i
          else { (canvas g s).ctx i with x := x + n - 1, y := diagonalEnd dx dy m n y err })) (Trap g p big) := by
  induction n generalizing x y err s with
  | zero => exact .pure (Canvas.setCtx_eq_self _ rfl).symm
  | succ n ih =>
    have hin : Canvas.Inside (x, y) := hq _ (List.mem_cons_self ..)
    rw [bressenhamRounds_succ]
    refine .bind (plot_meets hg i hin) fun _ s1 hs1 => ?_
    refine .bind (loadChar_meets fun hm => (hm.pixel hin).1) fun _ s2 hs2 => ?_
    refine .bind (setField_meets hg i .x (hx x (List.mem_cons_self ..))) fun _ s3 hs3 => ?_
    refine .bind (setField_meets hg i .y (i32_turn hy)) fun _ s4 hs4 => ?_
    refine (ih (fun v hv => hx v (List.mem_cons_of_mem _ hv)) (i32_turn hy)
      fun q hq' => hq q (List.mem_cons_of_mem _ hq')).mono (fun _ s' h => ?_) fun _ _ h => h
    generalize canvas g s = c at *
    have hround : canvas g s4 = (c.plot (x, y) (c.ctx i).colour).setCtx i
        { c.ctx i with x := x, y := (turn dx dy m y err).1 } := by
      rw [hs4, hs3, hs2.canvas, hs1, Canvas.setCtx_setCtx, Canvas.setCtx_self]
      rfl
    rw [h, hround, Canvas.setCtx_self, Canvas.setCtx_draw, Canvas.setCtx_setCtx, if_neg (Nat.succ_ne_zero n)]
    refine congrArg (Canvas.setCtx _ i) ?_
    by_cases hn : n = 0
    · subst hn
      rw [if_pos rfl]
      simp [diagonalEnd]
    · rw [if_neg hn, HDC.mk.injEq]
      exact ⟨by omega, rfl, rfl, rfl⟩

/-! ### Calls on a context -/

theorem setpixel_meets (hg : g.Layout) {v x y : Int} (hv : uint v = g.entry i) (hq : Canvas.Inside (x, y)) :
    Meets (setpixel g p v x y) s (fun _ s' => canvas g s' = (canvas g s).apply (.setpixel i x y)) (Trap g p big) := by
  unfold setpixel
  rw [hv]
  refine .bind (plot_meets hg i hq) fun _ s1 h1 => .bind (flush_meets hg) fun _ s2 h2 => .pure ?_
  rw [h2, h1]
  exact (Canvas.setCtx_eq_self _ rfl).symm

theorem moveto_meets (hg : g.Layout) {v x y : Int} (hv : uint v = g.entry i) (hx : i32 x = x) (hy : i32 y = y) :
    Meets (moveto p v x y) s (fun _ s' => canvas g s' = (canvas g s).apply (.moveto i x y)) (Trap g p big) := by
  unfold moveto
  rw [hv]
  refine .bind (setField_meets hg i .x hx) fun _ s1 h1 => .bind (setField_meets hg i .y hy) fun _ s2 h2 => .pure ?_
  rw [h2, h1, Canvas.setCtx_setCtx, Canvas.setCtx_self]
  rfl

theorem bressenhamLine_meets (hg : g.Layout) {x1 x2 y1 y2 : Int} (hx1 : i32 x1 = x1) (hx2 : i32 x2 = x2)
    (hy : i32 y1 = y1) (hbig : x1 ≤ x2 → x2 = INT_MAX → big) (hnx : x2 ≠ x1) (hny : y2 ≠ y1)
    (hq : ∀ q ∈ linePixels x1 y1 x2 y2, Canvas.Inside q) (hx : ((canvas g s).ctx i).x = x1)
    (hy' : ((canvas g s).ctx i).y = y1) :
    Meets (bressenhamLine g p x1 x2 y1 y2 (g.entry i)) s
      (fun _ s' => canvas g s' = (canvas g s).apply (.lineto i x2 y2)) (Trap g p big) := by
  have hpix : linePixels x1 y1 x2 y2 = diagonal (i32 (x2 - x1)) (i32 (y2 - y1)) (i32 (2 * i32 (y2 - y1)))
      (x2 - x1 + 1).toNat x1 y1 (i32 (i32 (2 * i32 (y2 - y1)) - i32 (x2 - x1))) := by
    unfold linePixels
    rw [if_neg hnx, if_neg hny]
  rw [hpix] at hq
  have hcol : ∀ v ∈ upFrom (x2 - x1 + 1).toNat x1, i32 v = v := by
    intro v hv
    have := mem_upTo.1 (show v ∈ upTo x1 x2 from hv)
    exact i32_between hx1 hx2 this.1 this.2
  refine .bind (bressenhamRounds_meets hg i hcol hy hq) fun _ s1 h1 => ?_
  split
  · rename_i hmax
    exact .stop (hbig hmax.1 hmax.2)
  refine .pure ?_
  rw [h1]
  generalize canvas g s = c at *
  unfold Canvas.apply Op.pixels Op.ctx lineEnd Op.handle
  dsimp only
  rw [hx, hy', hpix, if_neg hnx, if_neg hny]
  refine congrArg (Canvas.setCtx _ i) ?_
  by_cases hle : x1 ≤ x2
  · rw [if_neg (by omega), if_pos hle, HDC.mk.injEq]
    exact ⟨by omega, rfl, rfl, rfl⟩
  · rw [if_pos (by omega), if_neg hle, ← hx, ← hy']

omit [DecidableEq ι] in
theorem apply_lineto {c : Canvas} {sX sY x y : Int} {d : HDC} {qs : List (Int × Int)} (hx : (c.ctx i).x = sX)
    (hy : (c.ctx i).y = sY) (hqs : linePixels sX sY x y = qs)
    (hd : { c.ctx i with x := (lineEnd sX sY x y).1, y := (lineEnd sX sY x y).2 } = d) :
    c.apply (.lineto i x y) = (c.draw qs (c.ctx i).colour).setCtx i d := by
  subst hx hy hqs hd
  rfl

theorem lineto_meets (hg : g.Layout) {v x y : Int} (hv : uint v = g.entry i) (hx : i32 x = x) (hy : i32 y = y)
    (hbig : (x = INT_MAX ∨ y = INT_MAX ∨ ((canvas g s).ctx i).x = INT_MAX ∨ ((canvas g s).ctx i).y = INT_MAX) → big)
    (hq : ∀ q ∈ linePixels ((canvas g s).ctx i).x ((canvas g s).ctx i).y x y, Canvas.Inside q) :
    Meets (lineto g p v x y) s (fun _ s' => canvas g s' = (canvas g s).apply (.lineto i x y)) (Trap g p big) := by
  have hsx := i32_get g s i .x
  have hsy := i32_get g s i .y
  rw [HDC.get_x] at hsx
  rw [HDC.get_y] at hsy
  unfold lineto
  rw [hv]
  dsimp only
  refine .bind (getField_meets hg i .x) ?_
  rintro _ s1 ⟨rfl, hs1⟩
  refine .bind (getField_meets hg i .y) ?_
  rintro _ s2 ⟨rfl, hs2⟩
  rw [hs1.canvas, HDC.get_x, HDC.get_y]
  rw [← (hs1.trans hs2).canvas] at hbig hq hsx hsy ⊢
  have htail : ∀ m : K ι Unit, Meets m s2 (fun _ s' => canvas g s' = (canvas g s2).apply (.lineto i x y)) (Trap g p big) →
      Meets (do m; flush g p; pure (1 : Int)) s2 (fun _ s' => canvas g s' = (canvas g s2).apply (.lineto i x y))
        (Trap g p big) :=
    fun m hm => .bind hm fun _ s3 h3 => .bind (flush_meets hg) fun _ s4 h4 => .pure (h4.trans h3)
  generalize hsX : ((canvas g s2).ctx i).x = sX at *
  generalize hsY : ((canvas g s2).ctx i).y = sY at *
  by_cases hvert : x = sX
  · have hend : lineEnd sX sY x y = (sX, y) := if_pos hvert
    rw [if_pos hvert]
    by_cases hlt : y < sY
    · have hpix : linePixels sX sY x y = vertical sX y sY := (if_pos hvert).trans (if_pos hlt)
      rw [if_pos hlt]
      refine htail _ ((verticalLine_meets hg i hy hsy (fun _ h => hbig (by simp [h])) (by rwa [← hpix])).mono
        (fun _ s' h => ?_) fun _ _ h => h)
      rw [h, if_pos rfl, apply_lineto hsX hsY hpix (by rw [hend, ← hsX])]
      rfl
    · have hpix : linePixels sX sY x y = vertical sX sY y := (if_pos hvert).trans (if_neg hlt)
      rw [if_neg hlt]
      refine htail _ ((verticalLine_meets hg i hsy hy (fun _ h => hbig (by simp [h])) (by rwa [← hpix])).mono
        (fun _ s' h => ?_) fun _ _ h => h)
      rw [h, if_neg (by decide), apply_lineto hsX hsY hpix (by rw [hend, ← hsX])]
      rfl
  rw [if_neg hvert]
  by_cases hhor : y = sY
  · have hend : lineEnd sX sY x y = (x, sY) := (if_neg hvert).trans (if_pos hhor)
    rw [if_pos hhor]
    by_cases hlt : x < sX
    · have hpix : linePixels sX sY x y = horizontal x sX sY :=
        (if_neg hvert).trans ((if_pos hhor).trans (if_pos hlt))
      rw [if_pos hlt]
      refine htail _ ((horizontalLine_meets hg i hx hsx (fun _ h => hbig (by simp [h])) (by rwa [← hpix])).mono
        (fun _ s' h => ?_) fun _ _ h => h)
      rw [h, if_pos rfl, apply_lineto hsX hsY hpix (by rw [hend, ← hsY])]
      rfl
    · have hpix : linePixels sX sY x y = horizontal sX x sY :=
        (if_neg hvert).trans ((if_pos hhor).trans (if_neg hlt))
      rw [if_neg hlt]
      refine htail _ ((horizontalLine_meets hg i hsx hx (fun _ h => hbig (by simp [h])) (by rwa [← hpix])).mono
        (fun _ s' h => ?_) fun _ _ h => h)
      rw [h, if_neg (by decide), apply_lineto hsX hsY hpix (by rw [hend, ← hsY])]
      rfl
  rw [if_neg hhor]
  exact htail _ (bressenhamLine_meets hg hsx hx hsy (fun _ h => hbig (by simp [h])) hvert hhor hq hsX hsY)

theorem selectpen_meets (hg : g.Layout) {v index : Int} (hv : uint v = g.entry i) (hi : i32 index = index)
    (hlt : index < COLOURS) :
    Meets (selectpen g p v index) s (fun _ s' => canvas g s' = (canvas g s).apply (.selectpen i index))
      (Trap g p big) := by
  have hpen : ∀ s1 : St ι, Same s s1 → ∀ b : Bool, (b = true ↔ index ≤ 15 ∨ (canvas g s).known index) →
      Meets (do
        if b then
          setField p (g.entry i) .colour index
          let _ ← getField p (g.entry i) .colour
        pure v : K ι Int) s1 (fun _ s' => canvas g s' = (canvas g s).apply (.selectpen i index)) (Trap g p big) := by
    intro s1 hs1 b hb
    rw [← hs1.canvas] at hb ⊢
    generalize hc : canvas g s1 = c at *
    have happly : c.apply (.selectpen i index) =
        c.setCtx i (if index ≤ 15 ∨ c.known index then { c.ctx i with colour := index } else c.ctx i) := rfl
    cases b
    · refine .pure ?_
      rw [hc, happly, if_neg fun h => Bool.false_ne_true (hb.2 h), Canvas.setCtx_eq_self _ rfl]
    · refine .bind (setField_meets hg i .colour hi) fun _ s2 h2 => .bind (getField_meets hg i .colour) fun _ s3 h3 =>
        .pure ?_
      rw [h3.2.canvas, h2, hc, happly, if_pos (hb.1 rfl)]
      rfl
  unfold selectpen
  rw [hv]
  dsimp only
  by_cases h15 : index ≤ 15
  · rw [if_pos h15]
    exact .bind (.pure (P := fun b s1 => b = true ∧ Same s s1) ⟨rfl, rfl, rfl⟩) fun b s1 h =>
      hpen s1 h.2 b (iff_of_true h.1 (.inl h15))
  · rw [if_neg h15]
    have h255 : index < 255 := hlt
    have hk : index.toNat < COLOURS := by omega
    have haddr : g.indexWritten + uint (4 * index) = g.indexWritten + UInt32.ofNat (4 * index.toNat) := by
      unfold uint
      rw [Int.emod_eq_of_lt (by omega) (by omega), show (4 * index).toNat = 4 * index.toNat by omega]
    have hread : ∀ j, j < 4 → g.Mapped p → p.readable (g.indexWritten + UInt32.ofNat (4 * index.toNat) + UInt32.ofNat j) :=
      fun j hj hm => (hm.sub (r := (g.indexWritten, 4 * COLOURS)) (by simp [Symbols.regions]) (by dsimp only; omega) j hj).1
    rw [haddr]
    refine .bind (load_meets fun hm j hj => hread j hj hm) fun w s1 h => hpen s1 h.2 (decide (w = 1)) ?_
    rw [h.1, Canvas.known, dif_pos hk, St.int_eq_kint (hg.colour ⟨_, hk⟩)]
    exact ⟨.inr, fun h => h.resolve_left h15⟩

theorem fillRows_meets (hg : g.Layout) (i : Fin MAX_PROCESSES) {x1 x2 lo : Int} {n : Nat} (h₁ : i32 x1 = x1)
    (h₂ : i32 x2 = x2) (hbig : x1 ≤ x2 → x2 = INT_MAX → big)
    (hq : ∀ q ∈ (upFrom n lo).flatMap fun y => horizontal x1 x2 y, Canvas.Inside q) :
    Meets (Exec.rounds (fun y => horizontalLine g p (g.entry i) x1 x2 y 0) n lo) s
      (fun _ s' => canvas g s' =
        ((canvas g s).draw ((upFrom n lo).flatMap fun y => horizontal x1 x2 y) ((canvas g s).ctx i).colour).setCtx i
          (if n = 0 then (canvas g s).ctx i else { (canvas g s).ctx i with x := x2 })) (Trap g p big) := by
  induction n generalizing lo s with
  | zero => exact .pure (Canvas.setCtx_eq_self _ rfl).symm
  | succ n ih =>
    have hrow : (upFrom (n + 1) lo).flatMap (fun y => horizontal x1 x2 y) =
      horizontal x1 x2 lo ++ (upFrom n (lo + 1)).flatMap fun y => horizontal x1 x2 y := rfl
    rw [hrow] at hq ⊢
    refine .bind (horizontalLine_meets hg i h₁ h₂ hbig fun q h => hq q (List.mem_append_left _ h)) fun _ s1 hs1 => ?_
    refine (ih fun q h => hq q (List.mem_append_right _ h)).mono (fun _ s' h => ?_) fun _ _ h => h
    rw [h, hs1, if_neg (by decide), if_neg (Nat.succ_ne_zero n), Canvas.setCtx_self, Canvas.setCtx_draw,
      Canvas.setCtx_setCtx, Canvas.draw_append]
    refine congrArg (Canvas.setCtx _ i) ?_
    split <;> rfl

theorem fillrect_meets (hg : g.Layout) {v : Int} {r : UInt32} (hv : uint v = g.entry i) {x1 y1 x2 y2 : Int}
    (hr : g.Mapped p → ∀ j, j < 16 → p.readable (r + UInt32.ofNat j))
    (hx1 : s.int p.who r = x1) (hy1 : s.int p.who (r + 4) = y1) (hx2 : s.int p.who (r + 8) = x2)
    (hy2 : s.int p.who (r + 12) = y2)
    (hbig : (x1 = INT_MAX ∨ x2 = INT_MAX ∨ y1 = INT_MAX ∨ y2 = INT_MAX) → big)
    (hq : ∀ q ∈ rectPixels x1 y1 x2 y2, Canvas.Inside q) :
    Meets (fillrect g p v r) s (fun _ s' => canvas g s' = (canvas g s).apply (.fillrect i x1 y1 x2 y2))
      (Trap g p big) := by
  have hload : ∀ (s1 : St ι) (a : UInt32) (o : Nat), a = r + UInt32.ofNat o → o + 4 ≤ 16 → Same s s1 →
      Meets (load p .arg a) s1 (fun v s' => v = s.int p.who a ∧ Same s s') (Trap g p big) := by
    rintro s1 _ o rfl ho hs1
    refine (load_meets fun hm j hj => ?_).mono (fun w s' h => ⟨?_, hs1.trans h.2⟩) fun _ _ h => h
    · rw [UInt32.add_assoc, ← UInt32.ofNat_add]
      exact hr hm _ (by omega)
    · rw [h.1, hs1.int]
  have hrows : ∀ (s1 : St ι) (lo hi : Int), Same s s1 → (hi = INT_MAX → big) → lo ≤ hi →
      rectPixels x1 y1 x2 y2 = (upTo lo hi).flatMap (fun y => horizontal x1 x2 y) →
      Meets (do forUp lo hi fun y => horizontalLine g p (g.entry i) x1 x2 y 0
                flush g p
                pure (1 : Int)) s1 (fun _ s' => canvas g s' = (canvas g s).apply (.fillrect i x1 y1 x2 y2))
        (Trap g p big) := by
    intro s1 lo hi hs1 hmax hle hpix
    rw [hpix] at hq
    refine .bind (forUp_meets (fun _ => hmax) (fillRows_meets hg i ?_ ?_ (fun _ h => hbig (by simp [h])) hq))
      fun _ s2 h2 => .bind (flush_meets hg) fun _ s3 h3 => .pure ?_
    · rw [← hx1, St.i32_int]
    · rw [← hx2, St.i32_int]
    · rw [h3, h2, hs1.canvas, if_neg (by omega)]
      generalize canvas g s = c
      unfold Canvas.apply Op.pixels Op.ctx Op.handle
      dsimp only
      rw [hpix]
      rfl
  unfold fillrect
  rw [hv]
  have hr0 : r = r + UInt32.ofNat 0 := by rw [show UInt32.ofNat 0 = 0 from rfl, UInt32.add_zero]
  refine .bind (hload s r 0 hr0 (by decide) ⟨rfl, rfl⟩) ?_
  rintro w1 s1 ⟨h1, hs1⟩
  refine .bind (hload s1 (r + 4) 4 rfl (by decide) hs1) ?_
  rintro w2 s2 ⟨h2, hs2⟩
  refine .bind (hload s2 (r + 8) 8 rfl (by decide) hs2) ?_
  rintro w3 s3 ⟨h3, hs3⟩
  refine .bind (hload s3 (r + 12) 12 rfl (by decide) hs3) ?_
  rintro w4 s4 ⟨h4, hs4⟩
  rw [h1.trans hx1, h2.trans hy1, h3.trans hx2, h4.trans hy2]
  dsimp only
  split
  · rename_i hlt
    exact hrows s4 y1 y2 hs4 (fun h => hbig (by simp [h])) (by omega) (by rw [rectPixels, if_pos hlt])
  · rename_i hlt
    exact hrows s4 y2 y1 hs4 (fun h => hbig (by simp [h])) (by omega) (by rw [rectPixels, if_neg hlt])

/-! ### The pool of contexts -/

theorem endpaint_meets (hg : g.Layout) {v : Int} (hv : uint v = g.entry i) :
    Meets (endpaint p v) s (fun _ s' => canvas g s' = (canvas g s).apply (.endpaint i)) (Trap g p big) := by
  unfold endpaint releaseHDC
  rw [hv]
  refine .bind (P := fun _ s' => canvas g s' = (canvas g s).apply (.endpaint i)) ?_ fun _ s' h => .pure h
  refine .bind (setField_meets hg i .pid (by decide)) fun _ s1 h1 => .bind (setField_meets hg i .colour (by decide))
    fun _ s2 h2 => .bind (setField_meets hg i .x (by decide)) fun _ s3 h3 =>
    .bind (setField_meets hg i .y (by decide)) fun _ s4 h4 => ?_
  refine .bind (getField_meets hg i .pid) fun _ s5 h5 => .bind (getField_meets hg i .colour) fun _ s6 h6 =>
    .bind (getField_meets hg i .x) fun _ s7 h7 => .bind (getField_meets hg i .y) fun _ s8 h8 => .pure ?_
  rw [h8.2.canvas, h7.2.canvas, h6.2.canvas, h5.2.canvas, h4, h3, h2, h1]
  simp only [Canvas.setCtx_setCtx, Canvas.setCtx_self]
  rfl

theorem initHdcArray_meets (hg : g.Layout) :
    Meets (initHdcArray g p) s (fun _ s' => canvas g s' = { canvas g s with ctx := fun _ => HDC.free })
      (Trap g p big) := by
  have hrounds : ∀ (n lo : Nat) (s : St ι), lo + n = MAX_PROCESSES → Meets (Exec.rounds (fun i => do
      store p .pool (g.entry i.toNat + Field.pid.offset) (-1)
      store p .pool (g.entry i.toNat + Field.colour.offset) 15
      store p .pool (g.entry i.toNat + Field.x.offset) 0
      store p .pool (g.entry i.toNat + Field.y.offset) 0) n (lo : Int)) s
      (fun _ s' => canvas g s' =
        { canvas g s with ctx := fun j => if lo ≤ j.val then HDC.free else (canvas g s).ctx j }) (Trap g p big) := by
    intro n
    induction n with
    | zero =>
      intro lo s hlo
      refine .pure ?_
      generalize canvas g s = c
      rw [Canvas.mk.injEq]
      exact ⟨rfl, funext fun j => (if_neg (by omega)).symm, rfl, rfl⟩
    | succ n ih =>
      intro lo s hlo
      have hlt : lo < MAX_PROCESSES := by omega
      refine .bind (P := fun _ s' => canvas g s' = (canvas g s).setCtx ⟨lo, hlt⟩ HDC.free) ?_ fun _ s1 h1 => ?_
      · beta_reduce
        rw [Int.toNat_natCast]
        refine .bind (storeField_meets hg ⟨lo, hlt⟩ .pid (by decide)) fun _ s1 h1 =>
          .bind (storeField_meets hg ⟨lo, hlt⟩ .colour (by decide)) fun _ s2 h2 =>
          .bind (storeField_meets hg ⟨lo, hlt⟩ .x (by decide)) fun _ s3 h3 =>
          (storeField_meets hg ⟨lo, hlt⟩ .y (by decide)).mono (fun _ s4 h4 => ?_) fun _ _ h => h
        rw [h4, h3, h2, h1]
        simp only [Canvas.setCtx_setCtx, Canvas.setCtx_self]
        rfl
      · refine (ih (lo + 1) s1 (by omega)).mono (fun _ s' h => ?_) fun _ _ h => h
        rw [h, h1]
        generalize canvas g s = c
        rw [Canvas.mk.injEq]
        refine ⟨rfl, funext fun j => ?_, rfl, rfl⟩
        by_cases hj : j = ⟨lo, hlt⟩
        · subst hj
          rw [Canvas.setCtx_self, if_neg (by simp), if_pos le_rfl]
        · rw [Canvas.setCtx_ne _ hj]
          have : j.val ≠ lo := fun h => hj (Fin.ext h)
          by_cases hlo' : lo ≤ j.val
          · rw [if_pos (by omega), if_pos hlo']
          · rw [if_neg (by omega), if_neg hlo']
  refine (hrounds MAX_PROCESSES 0 s (by decide)).mono (fun _ s' h => ?_) fun _ _ h => h
  rw [h]
  simp

theorem allocateRounds_meets (hg : g.Layout) {pid : Int} (hpid : i32 pid = pid) {n lo : Nat}
    (hlo : lo + n = MAX_PROCESSES) :
    Meets (allocateRounds g p pid n lo) s
      (fun hdc s' =>
        (∃ k : Fin MAX_PROCESSES, hdc = g.entry k ∧ ((canvas g s).ctx k).pid = -1 ∧
          canvas g s' = (canvas g s).setCtx k { (canvas g s).ctx k with pid := pid }) ∨
        hdc = 0 ∧ (∀ k : Fin MAX_PROCESSES, lo ≤ k.val → ((canvas g s).ctx k).pid ≠ -1) ∧ canvas g s' = canvas g s)
      (Trap g p big) := by
  induction n generalizing lo s with
  | zero => exact .pure (.inr ⟨rfl, fun k hk => by omega, rfl⟩)
  | succ n ih =>
    have hlt : lo < MAX_PROCESSES := by omega
    refine .bind (loadField_meets hg ⟨lo, hlt⟩ .pid) fun owner s1 h1 => ?_
    rw [h1.1, HDC.get_pid]
    split
    · rename_i hfree
      refine .bind (storeField_meets hg ⟨lo, hlt⟩ .pid hpid) fun _ s2 h2 => .pure (.inl ⟨⟨lo, hlt⟩, rfl, hfree, ?_⟩)
      rw [h2, h1.2.canvas]
      rfl
    · rename_i hused
      refine (ih (by omega)).mono (fun hdc s' h => ?_) fun _ _ h => h
      rw [h1.2.canvas] at h
      refine h.imp id fun h => ⟨h.1, fun k hk => ?_, h.2.2⟩
      by_cases hkl : k.val = lo
      · obtain rfl : k = ⟨lo, hlt⟩ := Fin.ext hkl
        exact hused
      · exact h.2.1 k (by omega)

/-! ### `beginpaint` in two parts -/

/-- `beginpaint` up to the call of `allocateHDC`. -/
def prepare (g : Symbols) (p : Proc ι) : K ι UInt32 := do
  let first ← load p .firstTime g.firstTime
  if first ≠ 1 then
    initHdcArray g p
    store p .firstTime g.firstTime 1
  allocateHDC g p p.pid

/-- The rest, which reads the context to print it. -/
def report (p : Proc ι) (hdc : UInt32) : K ι Int := do
  let _ ← getField p hdc .pid
  let _ ← getField p hdc .colour
  let _ ← getField p hdc .x
  let _ ← getField p hdc .y
  return i32 hdc.toNat

theorem beginpaint_eq (g : Symbols) (p : Proc ι) : beginpaint g p = prepare g p >>= report p := by
  unfold beginpaint prepare
  rw [bind_assoc]
  refine congrArg _ (funext fun first => ?_)
  dsimp only
  split
  · rw [bind_assoc]
    refine congrArg _ (funext fun _ => ?_)
    rw [bind_assoc]
    rfl
  · rfl

theorem prepare_meets (hg : g.Layout) (hpid : i32 p.pid = p.pid) :
    Meets (prepare g p) s (fun hdc s' =>
      (∃ k : Fin MAX_PROCESSES, hdc = g.entry k ∧ ((canvas g s).ready.ctx k).pid = -1 ∧
        canvas g s' = (canvas g s).ready.setCtx k { (canvas g s).ready.ctx k with pid := p.pid }) ∨
      hdc = 0 ∧ ∀ k, ((canvas g s).ready.ctx k).pid ≠ -1) (Trap g p big) := by
  have halloc : ∀ s1 : St ι, canvas g s1 = (canvas g s).ready → Meets (allocateHDC g p p.pid) s1 (fun hdc s' =>
      (∃ k : Fin MAX_PROCESSES, hdc = g.entry k ∧ ((canvas g s).ready.ctx k).pid = -1 ∧
        canvas g s' = (canvas g s).ready.setCtx k { (canvas g s).ready.ctx k with pid := p.pid }) ∨
      hdc = 0 ∧ ∀ k, ((canvas g s).ready.ctx k).pid ≠ -1) (Trap g p big) := by
    intro s1 hs1
    rw [← hs1]
    refine (allocateRounds_meets hg hpid (by decide)).mono (fun hdc s' h => h.imp id fun h => ?_) fun _ _ h => h
    exact ⟨h.1, fun k => h.2.1 k (Nat.zero_le _)⟩
  have hfirst : Meets (load p .firstTime g.firstTime) s (fun v s' => v = (canvas g s).first ∧ Same s s')
      (Trap g p big) := by
    refine (load_meets fun hm j hj => ?_).mono (fun v s' h => ⟨?_, h.2⟩) fun _ _ h => h
    · exact (hm.data (g.firstTime, 4) (by simp [Symbols.regions]) j hj).1
    · rw [h.1, St.int_eq_kint hg.firstTime]
      rfl
  refine .bind hfirst fun v s1 h₁ => ?_
  rw [h₁.1]
  dsimp only
  by_cases h1 : (canvas g s).first = 1
  · rw [if_neg (not_not.2 h1)]
    refine halloc s1 ?_
    rw [h₁.2.canvas, Canvas.ready, if_pos h1]
  · rw [if_pos h1]
    refine .bind (initHdcArray_meets hg) fun _ s2 h2 => .bind (storeBytes_meets fun hm j hj =>
      (hm.data (g.firstTime, 4) (by simp [Symbols.regions]) j hj).2) fun _ s3 h3 => halloc s3 ?_
    rw [h3, canvas_put_first hg, h2, h₁.2.canvas, Canvas.ready, if_neg h1]
    rfl

omit [DecidableEq ι] in
theorem report_meets (hg : g.Layout) (i : Fin MAX_PROCESSES) :
    Meets (report p (g.entry i)) s (fun r s' => uint r = g.entry i ∧ Same s s') (Trap g p big) :=
  .bind (getField_meets hg i .pid) fun _ _ h1 => .bind (getField_meets hg i .colour) fun _ _ h2 =>
    .bind (getField_meets hg i .x) fun _ _ h3 => .bind (getField_meets hg i .y) fun _ _ h4 =>
    .pure ⟨uint_i32_toNat _, ((h1.2.trans h2.2).trans h3.2).trans h4.2⟩

theorem beginpaint_meets (hg : g.Layout) (hpid : i32 p.pid = p.pid)
    (hfree : ∃ k, ((canvas g s).ready.ctx k).pid = -1) :
    Meets (beginpaint g p) s (fun r s' => ∃ k : Fin MAX_PROCESSES, uint r = g.entry k ∧
      ((canvas g s).ready.ctx k).pid = -1 ∧
      canvas g s' = (canvas g s).ready.setCtx k { (canvas g s).ready.ctx k with pid := p.pid }) (Trap g p big) := by
  rw [beginpaint_eq]
  refine .bind (prepare_meets hg hpid) fun hdc s1 h1 => ?_
  rcases h1 with ⟨k, rfl, hk, h1⟩ | ⟨-, hnone⟩
  · refine (report_meets hg k).mono (fun r s' h => ⟨k, h.1, hk, ?_⟩) fun _ _ h => h
    rw [h.2.canvas, h1]
  · obtain ⟨k, hk⟩ := hfree
    exact absurd hk (hnone k)

end Xv6.Graphics
