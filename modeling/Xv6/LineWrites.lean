import Xv6.CanvasCalls
import Xv6.Lines

/-!
# The pixels a line writes

`Draws g B m qs`: the writes to the frame buffer that `m` makes are those of the pixels `qs`, in this
order; if it stops, which `B` allows, it has made the first of them. The handle may be any address and the
pixels need not be inside the buffer: the lines compute their pixels from local variables only.
-/

namespace Xv6.Graphics

open Kmem Exec

variable {ι : Type} {α β : Type} {g : Symbols} {p : Proc ι} {s s' s₁ : St ι} {B : Kmem.Stop → Prop} {k : Kind} {a hdc : UInt32}
  {qs rs : List (Int × Int)}

def pixelWrites (t : List Access) : List UInt32 := (t.filter fun e => e.kind = .pixel ∧ e.write).map Access.addr

def Plotted (g : Symbols) (s s' : St ι) (qs : List (Int × Int)) : Prop :=
  pixelWrites s'.trace = pixelWrites s.trace ++ qs.map fun q => g.pixel q.1 q.2

theorem Plotted.refl (g : Symbols) (s : St ι) : Plotted g s s [] := (List.append_nil _).symm

theorem Plotted.trans (h : Plotted g s s₁ qs) (h' : Plotted g s₁ s' rs) : Plotted g s s' (qs ++ rs) := by
  rw [Plotted, h', h, List.map_append, List.append_assoc]

theorem plotted_log {e : Access} (he : ¬ (e.kind = .pixel ∧ e.write = true)) : Plotted g s (s.log e) [] := by
  unfold Plotted pixelWrites St.log
  rw [List.filter_append, List.filter_singleton, decide_eq_false he]
  simp

theorem plotted_pixel (s : St ι) (x y : Int) (n : Nat) :
    Plotted g s (s.log ⟨.pixel, true, g.pixel x y, n⟩) [(x, y)] := by
  unfold Plotted pixelWrites St.log
  rw [List.filter_append, List.map_append]
  rfl

def Draws (g : Symbols) (B : Kmem.Stop → Prop) (m : K ι α) (qs : List (Int × Int)) : Prop :=
  ∀ s, Meets m s (fun _ s' => Plotted g s s' qs) fun e s' => B e ∧ ∃ rs, rs <+: qs ∧ Plotted g s s' rs

theorem Draws.pure (v : α) : Draws g B (Pure.pure v : K ι α) [] := fun s => .pure (.refl g s)

theorem Draws.bind {m : K ι α} {f : α → K ι β} (hm : Draws g B m qs) (hf : ∀ v, Draws g B (f v) rs) :
    Draws g B (m >>= f) (qs ++ rs) := by
  intro s
  have h : Meets m s (fun _ s' => Plotted g s s' qs) fun e s' => B e ∧ ∃ ts, ts <+: qs ++ rs ∧ Plotted g s s' ts :=
    (hm s).mono (fun _ _ h => h) fun _ _ ⟨hB, ts, hts, hp⟩ => ⟨hB, ts, hts.trans (List.prefix_append _ _), hp⟩
  refine h.bind fun v s₁ h1 => ((hf v) s₁).mono (fun _ _ h2 => h1.trans h2) ?_
  rintro e s' ⟨hB, ts, hts, h2⟩
  exact ⟨hB, qs ++ ts, (List.prefix_append_right_inj qs).2 hts, h1.trans h2⟩

theorem Draws.after {m : K ι α} {f : α → K ι β} (hm : Draws g B m []) (hf : ∀ v, Draws g B (f v) qs) :
    Draws g B (m >>= f) qs := hm.bind hf

theorem Draws.before {m : K ι α} {f : α → K ι β} (hm : Draws g B m qs) (hf : ∀ v, Draws g B (f v) []) :
    Draws g B (m >>= f) qs := by
  have h := hm.bind hf
  rwa [List.append_nil] at h

theorem Draws.stop {e : Kmem.Stop} (h : B e) : Draws g B (Exec.stop e : K ι α) [] :=
  fun s => .stop ⟨h, [], List.prefix_rfl, .refl g s⟩

theorem draws_load (h : ¬ (∀ j, j < 4 → p.readable (a + UInt32.ofNat j)) → B .fault) :
    Draws g B (load p k a) [] := by
  intro s
  have hlog : Plotted g s (s.log ⟨k, false, a, 4⟩) [] := plotted_log fun h => Bool.false_ne_true h.2
  by_cases hr : ∀ j, j < 4 → p.readable (a + UInt32.ofNat j)
  · exact .of_ok (if_pos hr) hlog
  · exact .of_error (if_neg hr) ⟨h hr, [], List.prefix_rfl, hlog⟩

theorem draws_loadChar (h : ¬ p.readable a → B .fault) : Draws g B (loadChar p k a) [] := by
  intro s
  have hlog : Plotted g s (s.log ⟨k, false, a, 1⟩) [] := plotted_log fun h => Bool.false_ne_true h.2
  by_cases hr : p.readable a = true
  · exact .of_ok (if_pos hr) hlog
  · exact .of_error (if_neg hr) ⟨h hr, [], List.prefix_rfl, hlog⟩

structure Drawable (g : Symbols) (p : Proc ι) (hdc : UInt32) (qs : List (Int × Int)) : Prop where
  field : ∀ (f : Field) (j : Nat), j < 4 →
    p.readable (hdc + f.offset + UInt32.ofNat j) ∧ p.writable (hdc + f.offset + UInt32.ofNat j)
  pixel : ∀ q ∈ qs, p.readable (g.pixel q.1 q.2) ∧ p.writable (g.pixel q.1 q.2)

theorem Drawable.mono (h : Drawable g p hdc qs) (hrs : ∀ q ∈ rs, q ∈ qs) : Drawable g p hdc rs :=
  ⟨h.field, fun q hq => h.pixel q (hrs q hq)⟩

def Faults (g : Symbols) (p : Proc ι) (hdc : UInt32) (B : Kmem.Stop → Prop) (qs : List (Int × Int)) : Prop :=
  ¬ Drawable g p hdc qs → B .fault

theorem Faults.mono (h : Faults g p hdc B qs) (hrs : ∀ q ∈ rs, q ∈ qs) : Faults g p hdc B rs :=
  fun hd => h fun hq => hd (hq.mono hrs)

theorem draws_getField (h : Faults g p hdc B qs) (f : Field) : Draws g B (getField p hdc f) [] :=
  draws_load fun hr => h fun hd => hr fun j hj => (hd.field f j hj).1

section Write

variable [DecidableEq ι]

theorem draws_storeBytes {n : Nat} {v : Int} (hk : k ≠ .pixel)
    (h : ¬ (∀ j, j < n → p.writable (a + UInt32.ofNat j)) → B .fault) : Draws g B (storeBytes p k a n v) [] := by
  intro s
  have hlog : ∀ t : St ι, Plotted g t (t.log ⟨k, true, a, n⟩) [] := fun t => plotted_log fun h => hk h.1
  by_cases hw : ∀ j, j < n → p.writable (a + UInt32.ofNat j)
  · exact .of_ok (if_pos hw) (hlog (s.put p.who a n _))
  · exact .of_error (if_neg hw) ⟨h hw, [], List.prefix_rfl, hlog s⟩

theorem draws_setField (h : Faults g p hdc B qs) (f : Field) (v : Int) : Draws g B (setField p hdc f v) [] :=
  draws_storeBytes nofun fun hw => h fun hd => hw fun j hj => (hd.field f j hj).2

theorem draws_plot {x y : Int} (h : Faults g p hdc B [(x, y)]) : Draws g B (plot g p hdc x y) [(x, y)] := by
  refine (draws_getField h .colour).after fun v s => ?_
  by_cases hw : ∀ j, j < 1 → p.writable (g.pixel x y + UInt32.ofNat j)
  · exact .of_ok (if_pos hw) (plotted_pixel (s.put p.who (g.pixel x y) 1 _) x y 1)
  · refine .of_error (if_neg hw) ⟨h fun hd => hw fun j hj => ?_, [(x, y)], List.prefix_rfl, plotted_pixel s x y 1⟩
    obtain rfl : j = 0 := by omega
    rw [show UInt32.ofNat 0 = 0 from rfl, UInt32.add_zero]
    exact (hd.pixel (x, y) (List.mem_singleton_self _)).2

theorem draws_flush : Draws g B (flush g p : K ι Unit) [] := by
  intro s
  refine .of_ok rfl ?_
  have h1 : Plotted g s (s.log ⟨.screen, false, g.videobuffer, 2 * 320 * 200⟩) [] := plotted_log fun h => by cases h.1
  have h2 : Plotted g (s.log ⟨.screen, false, g.videobuffer, 2 * 320 * 200⟩) (flush g p s).2 [] :=
    plotted_log fun h => by cases h.1
  exact h1.trans h2

/-! ### Loops -/

omit [DecidableEq ι] in
theorem draws_rounds {f : Int → Int × Int} {body : Int → K ι Unit} {n : Nat} {lo : Int}
    (hb : ∀ v ∈ upFrom n lo, Draws g B (body v) [f v]) : Draws g B (rounds body n lo) ((upFrom n lo).map f) := by
  induction n generalizing lo with
  | zero => exact .pure ()
  | succ n ih =>
    rw [upFrom, List.forall_mem_cons] at hb
    exact hb.1.bind fun _ => ih hb.2

theorem draws_forUp {lo hi : Int} {f : Int → Int × Int} (hover : lo ≤ hi → hi = INT_MAX → B .overflow)
    (h : Faults g p hdc B ((upTo lo hi).map f)) :
    Draws g B (forUp lo hi fun v => plot g p hdc (f v).1 (f v).2) ((upTo lo hi).map f) := by
  refine (draws_rounds fun v hv => draws_plot (h.mono fun q hq => ?_)).before fun _ => ?_
  · rw [List.mem_singleton.1 hq]
    exact List.mem_map_of_mem hv
  · split
    · rename_i hmax
      exact .stop (hover hmax.1 hmax.2)
    · exact .pure ()

theorem draws_verticalLine {x y1 y2 d : Int} (hover : y1 ≤ y2 → y2 = INT_MAX → B .overflow)
    (h : Faults g p hdc B (vertical x y1 y2)) : Draws g B (verticalLine g p hdc x y1 y2 d) (vertical x y1 y2) := by
  have hloop : Draws g B (forUp y1 y2 fun y => plot g p hdc x y) (vertical x y1 y2) :=
    draws_forUp (f := fun y => (x, y)) hover h
  refine hloop.before fun _ => ?_
  split
  · exact draws_setField h .y y1
  · exact draws_setField h .y y2

theorem draws_horizontalLine {x1 x2 y d : Int} (hover : x1 ≤ x2 → x2 = INT_MAX → B .overflow)
    (h : Faults g p hdc B (horizontal x1 x2 y)) :
    Draws g B (horizontalLine g p hdc x1 x2 y d) (horizontal x1 x2 y) := by
  have hloop : Draws g B (forUp x1 x2 fun x => plot g p hdc x y) (horizontal x1 x2 y) :=
    draws_forUp (f := fun x => (x, y)) hover h
  refine hloop.before fun _ => ?_
  split
  · exact draws_setField h .x x1
  · exact draws_setField h .x x2

theorem draws_bressenhamRounds {dx dy m x y err : Int} {n : Nat} (h : Faults g p hdc B (diagonal dx dy m n x y err)) :
    Draws g B (bressenhamRounds g p hdc dx dy m n x y err) (diagonal dx dy m n x y err) := by
  induction n generalizing x y err with
  | zero => exact .pure ()
  | succ n ih =>
    have hfirst : Faults g p hdc B [(x, y)] := h.mono fun q hq => by
      rw [List.mem_singleton.1 hq]
      exact List.mem_cons_self
    rw [bressenhamRounds_succ]
    refine (draws_plot hfirst).bind fun _ => (draws_loadChar fun hr => hfirst fun hd =>
      hr (hd.pixel (x, y) (List.mem_singleton_self _)).1).after fun _ =>
      (draws_setField hfirst .x x).after fun _ => (draws_setField hfirst .y _).after fun _ => ?_
    exact ih (h.mono fun q hq => List.mem_cons_of_mem _ hq)

theorem draws_bressenhamLine {x1 x2 y1 y2 : Int} (hx : x2 ≠ x1) (hy : y2 ≠ y1)
    (hover : x1 ≤ x2 → x2 = INT_MAX → B .overflow) (h : Faults g p hdc B (linePixels x1 y1 x2 y2)) :
    Draws g B (bressenhamLine g p x1 x2 y1 y2 hdc) (linePixels x1 y1 x2 y2) := by
  rw [linePixels, if_neg hx, if_neg hy] at h ⊢
  refine (draws_bressenhamRounds h).before fun _ => ?_
  split
  · rename_i hmax
    exact .stop (hover hmax.1 hmax.2)
  · exact .pure ()

/-! ### `sys_lineto` -/

theorem NoOverflow.ne_max {sX sY uX uY : Int} (h : NoOverflow sX sY uX uY) :
    (uX = sX → max sY uY ≠ INT_MAX) ∧ (uX ≠ sX → uY = sY → max sX uX ≠ INT_MAX) ∧
      (uX ≠ sX → uY ≠ sY → sX ≤ uX → uX ≠ INT_MAX) := by
  unfold NoOverflow at h
  refine ⟨fun hx => ?_, fun hx hy => ?_, fun hx hy hle => ?_⟩
  · rw [if_pos hx] at h
    have := h.2.2
    show _ ≠ (2 ^ 31 - 1 : Int)
    omega
  · rw [if_neg hx, if_pos hy] at h
    have := h.2.2
    show _ ≠ (2 ^ 31 - 1 : Int)
    omega
  · rw [if_neg hx, if_neg hy, show (uX - sX + 1).toNat = (uX - sX).toNat + 1 by omega] at h
    have := h.2.2.2.2.isInt_last.2
    show _ ≠ (2 ^ 31 - 1 : Int)
    omega

omit [DecidableEq ι] in
theorem Draws.meets {m : K ι α} (hm : Draws g B m qs) (h : Plotted g s s₁ []) :
    Meets m s₁ (fun _ s' => Plotted g s s' qs) fun e s' => B e ∧ ∃ rs, rs <+: qs ∧ Plotted g s s' rs :=
  (hm s₁).mono (fun _ _ h' => h.trans h') fun _ _ ⟨hB, rs, hrs, h'⟩ => ⟨hB, rs, hrs, h.trans h'⟩

omit [DecidableEq ι] in
theorem getField_bind_meets {m : Int → K ι α} {f : Field} (hf : Faults g p hdc B qs) (h : Plotted g s s₁ [])
    (hsame : Same s s₁)
    (hm : ∀ s₂, Plotted g s s₂ [] → Same s s₂ → Meets (m (s.int p.who (hdc + f.offset))) s₂
      (fun _ s' => Plotted g s s' qs) fun e s' => B e ∧ ∃ rs, rs <+: qs ∧ Plotted g s s' rs) :
    Meets (getField p hdc f >>= m) s₁ (fun _ s' => Plotted g s s' qs)
      fun e s' => B e ∧ ∃ rs, rs <+: qs ∧ Plotted g s s' rs := by
  have hstop := (draws_getField (f := f) hf).meets h
  refine Meets.bind (P := fun v s₂ => v = s.int p.who (hdc + f.offset) ∧ Same s s₂ ∧ Plotted g s s₂ []) ?_ ?_
  · unfold Meets at hstop ⊢
    rcases hrun : getField p hdc f s₁ with ⟨e | v, s₂⟩ <;> rw [hrun] at hstop
    · obtain ⟨hB, rs, hrs, hp⟩ := hstop
      exact ⟨hB, rs, hrs.trans List.nil_prefix, hp⟩
    · obtain ⟨rfl, rfl⟩ := load_ok hrun
      exact ⟨by rw [hsame.int], hsame, hstop⟩
  · rintro _ s₂ ⟨rfl, hs2, hp⟩
    exact hm s₂ hp hs2

/-- The pixels of `sys_lineto` are those of the line from the pen to the target. -/
theorem lineto_draws {v x y sX sY : Int} (hsX : s.int p.who (uint v + Field.x.offset) = sX)
    (hsY : s.int p.who (uint v + Field.y.offset) = sY) (hno : NoOverflow sX sY x y)
    (h : Faults g p (uint v) B (linePixels sX sY x y)) :
    Meets (lineto g p v x y) s (fun _ s' => Plotted g s s' (linePixels sX sY x y))
      fun e s' => B e ∧ ∃ rs, rs <+: linePixels sX sY x y ∧ Plotted g s s' rs := by
  obtain ⟨hmax1, hmax2, hmax3⟩ := hno.ne_max
  have htail : ∀ m : K ι Unit, Draws g B m (linePixels sX sY x y) →
      Draws g B (do m; flush g p; pure (1 : Int)) (linePixels sX sY x y) :=
    fun m hm => hm.before fun _ => draws_flush.after fun _ => .pure _
  refine getField_bind_meets h (.refl g s) ⟨rfl, rfl⟩ fun s₁ h1 hs1 => getField_bind_meets h h1 hs1 fun s2 h2 _ => ?_
  rw [hsX, hsY]
  refine Draws.meets ?_ h2
  dsimp only
  by_cases hvert : x = sX
  · rw [if_pos hvert]
    have hmax := hmax1 hvert
    rw [linePixels, if_pos hvert] at h htail ⊢
    split
    · rename_i hlt
      rw [if_pos hlt] at h htail
      exact htail _ (draws_verticalLine (fun _ hy => absurd (hy ▸ max_eq_left hlt.le) hmax) h)
    · rename_i hlt
      rw [if_neg hlt] at h htail
      exact htail _ (draws_verticalLine (fun hle hy => absurd (hy ▸ max_eq_right hle) hmax) h)
  rw [if_neg hvert]
  by_cases hhor : y = sY
  · rw [if_pos hhor]
    have hmax := hmax2 hvert hhor
    rw [linePixels, if_neg hvert, if_pos hhor] at h htail ⊢
    split
    · rename_i hlt
      rw [if_pos hlt] at h htail
      exact htail _ (draws_horizontalLine (fun _ hy => absurd (hy ▸ max_eq_left hlt.le) hmax) h)
    · rename_i hlt
      rw [if_neg hlt] at h htail
      exact htail _ (draws_horizontalLine (fun hle hy => absurd (hy ▸ max_eq_right hle) hmax) h)
  · rw [if_neg hhor]
    exact htail _ (draws_bressenhamLine hvert hhor (fun hle hx => absurd hx (hmax3 hvert hhor hle)) h)

def Blocked (g : Symbols) (p : Proc ι) (hdc : UInt32) (qs : List (Int × Int)) (e : Kmem.Stop) : Prop :=
  e = .fault ∧ ¬ Drawable g p hdc qs

omit [DecidableEq ι] in
theorem writes_of_meets {m : K ι α} (h : Meets m s (fun _ s' => Plotted g s s' qs)
      fun e s' => Blocked g p hdc qs e ∧ ∃ rs, rs <+: qs ∧ Plotted g s s' rs) :
    (∃ rs, rs <+: qs ∧ Plotted g s (m s).2 rs) ∧
      (Drawable g p hdc qs → ∃ v s', m s = (.ok v, s') ∧ Plotted g s s' qs) := by
  unfold Meets at h
  rcases hrun : m s with ⟨e | v, s'⟩ <;> rw [hrun] at h
  · exact ⟨h.2, fun hd => absurd hd h.1.2⟩
  · exact ⟨⟨qs, List.prefix_rfl, h⟩, fun _ => ⟨v, s', rfl, h⟩⟩

omit [DecidableEq ι] in
theorem faults_blocked (g : Symbols) (p : Proc ι) (hdc : UInt32) (qs : List (Int × Int)) :
    Faults g p hdc (Blocked g p hdc qs) qs := fun h => ⟨rfl, h⟩

/-- A line that does not overflow writes the pixels of `linePixels` in order, as far as memory allows; they are all in
the rectangle between the pen and the target if and only if `StaysInBox`, and then a line between points of
the screen stays in the frame buffer. -/
theorem lineto_box_iff (g : Symbols) (p : Proc ι) {s : St ι} {v x y sX sY : Int}
    (hsX : s.int p.who (uint v + Field.x.offset) = sX) (hsY : s.int p.who (uint v + Field.y.offset) = sY)
    (hno : NoOverflow sX sY x y) :
    (∃ rs, rs <+: linePixels sX sY x y ∧ Plotted g s (lineto g p v x y s).2 rs) ∧
    (Drawable g p (uint v) (linePixels sX sY x y) →
      ∃ s', lineto g p v x y s = (.ok 1, s') ∧ Plotted g s s' (linePixels sX sY x y)) ∧
    ((∀ q ∈ linePixels sX sY x y, Box (sX, sY) (x, y) q) ↔ StaysInBox sX sY x y) ∧
    (OnScreen sX sY → OnScreen x y → StaysInBox sX sY x y →
      ∀ q ∈ linePixels sX sY x y, 0 ≤ 320 * q.2 + q.1 ∧ 320 * q.2 + q.1 ≤ 63999) := by
  have hbox := linePixels_box_iff hno
  obtain ⟨hany, hall⟩ := writes_of_meets (lineto_draws hsX hsY hno (faults_blocked g p (uint v) _))
  refine ⟨hany, fun hd => ?_, hbox, fun hs hu hstays q hq => ?_⟩
  · obtain ⟨r, s', hrun, hp⟩ := hall hd
    obtain rfl := returns_lineto v x y s r s' hrun
    exact ⟨s', hrun, hp⟩
  · obtain ⟨h1, h2, h3, h4⟩ := (hbox.2 hstays q hq).onScreen hs hu
    omega

def penBelow : St (Fin 2) := ⟨fun a => if a = 0x80122004 then 1 else 0, fun _ _ => 0, [], []⟩

abbrev sampleHandle : Int := i32 0x80122000

theorem penBelow_pos : penBelow.int 0 (uint sampleHandle + Field.x.offset) = 0 ∧
    penBelow.int 0 (uint sampleHandle + Field.y.offset) = 1 := by decide +kernel

/-- The line from (0, 1) to (2, 199) is steep and stays on the screen. -/
theorem lineto_box_iff_steep :
    (∃ s', lineto sampleSymbols (sampleProc 0) sampleHandle 2 199 penBelow = (.ok 1, s') ∧
      Plotted sampleSymbols penBelow s' (linePixels 0 1 2 199)) ∧
    ∀ q ∈ linePixels 0 1 2 199, 0 ≤ 320 * q.2 + q.1 ∧ 320 * q.2 + q.1 ≤ 63999 := by
  have hs : OnScreen 0 1 := by unfold OnScreen; decide
  have hu : OnScreen 2 199 := by unfold OnScreen; decide
  obtain ⟨-, hrun, -, hin⟩ := lineto_box_iff sampleSymbols (sampleProc 0) penBelow_pos.1 penBelow_pos.2
    (noOverflow_of_onScreen hs hu)
  exact ⟨hrun ⟨fun _ _ _ => ⟨rfl, rfl⟩, fun _ _ => ⟨rfl, rfl⟩⟩, hin hs hu (.inr (.inr (.inl (by decide))))⟩

/-- The line from (0, 1) to (5, 0) goes up by a row in each column: its third pixel is before the frame buffer. -/
theorem lineto_leaves_screen :
    penBelow.int 0 (uint sampleHandle + Field.x.offset) = 0 ∧ penBelow.int 0 (uint sampleHandle + Field.y.offset) = 1 ∧
    OnScreen 0 1 ∧ OnScreen 5 0 ∧
    (lineto sampleSymbols (sampleProc 0) sampleHandle 5 0 penBelow).1.toOption = some 1 ∧
    sampleSymbols.pixel 2 (-1) ∈ pixelWrites (lineto sampleSymbols (sampleProc 0) sampleHandle 5 0 penBelow).2.trace ∧
    PIXELS ≤ (sampleSymbols.pixel 2 (-1) - sampleSymbols.videobuffer).toNat ∧ ¬ Box (0, 1) (5, 0) (2, -1) :=
  ⟨penBelow_pos.1, penBelow_pos.2, by unfold OnScreen; decide, by unfold OnScreen; decide, by decide +kernel,
    by decide +kernel, by decide +kernel, by decide⟩

/-- For a line of at most one row for each column: it has one pixel in each column, and all of them are nearest to
the ideal line if and only if it has exactly one row for each column. -/
theorem bressenhamLine_accurate_iff (g : Symbols) (p : Proc ι) (s : St ι) (hdc : UInt32) {x1 x2 y1 y2 : Int}
    (hx : x1 < x2) (hy : 0 < |y2 - y1|) (hle : |y2 - y1| ≤ x2 - x1) (hno : NoOverflow x1 y1 x2 y2) :
    let qs := linePixels x1 y1 x2 y2
    (∃ rs, rs <+: qs ∧ Plotted g s (bressenhamLine g p x1 x2 y1 y2 hdc s).2 rs) ∧
    (Drawable g p hdc qs → ∃ s', bressenhamLine g p x1 x2 y1 y2 hdc s = (.ok (), s') ∧ Plotted g s s' qs) ∧
    qs.map Prod.fst = upTo x1 x2 ∧
    ((∀ q ∈ qs, |2 * (x2 - x1) * (q.2 - y1) - 2 * (y2 - y1) * (q.1 - x1)| ≤ x2 - x1) ↔ |y2 - y1| = x2 - x1) := by
  intro qs
  have hne : y2 ≠ y1 := by
    rintro rfl
    simp at hy
  have hdraws : Draws g (Blocked g p hdc qs) (bressenhamLine g p x1 x2 y1 y2 hdc) qs :=
    draws_bressenhamLine hx.ne' hne (fun h hmax => absurd hmax (hno.ne_max.2.2 hx.ne' hne h)) (faults_blocked g p hdc qs)
  obtain ⟨hany, hall⟩ := writes_of_meets (hdraws s)
  refine ⟨hany, fun hd => ?_, fst_linePixels hx hne hno, linePixels_accurate_iff hx hy hle hno⟩
  obtain ⟨_, hrun⟩ := hall hd
  exact hrun

/-- The line from (0, 0) to (3, 3). -/
theorem bressenhamLine_accurate_iff_square : (linePixels 0 0 3 3).map Prod.fst = upTo 0 3 ∧
    ∀ q ∈ linePixels 0 0 3 3, |2 * (3 - 0) * (q.2 - 0) - 2 * (3 - 0) * (q.1 - 0)| ≤ 3 - 0 := by
  obtain ⟨-, -, hcols, hacc⟩ := bressenhamLine_accurate_iff sampleSymbols (sampleProc 0) penBelow 0x80122000
    (by decide : (0 : Int) < 3) (by decide : (0 : Int) < |3 - 0|) (by decide)
    (noOverflow_of_onScreen (by unfold OnScreen; decide) (by unfold OnScreen; decide))
  exact ⟨hcols, hacc.2 (by decide)⟩

/-- The line from (0, 0) to (4, 1) has (1, 1) in its second column, three quarters of a row below the ideal line. -/
theorem bressenhamLine_inaccurate :
    pixelWrites (bressenhamLine sampleSymbols (sampleProc 0) 0 4 0 1 0x80122000 penBelow).2.trace =
      [(0, 0), (1, 1), (2, 1), (3, 1), (4, 1)].map (fun q : Int × Int => sampleSymbols.pixel q.1 q.2) ∧
    ¬ |2 * (4 - 0) * ((1 : Int) - 0) - 2 * (1 - 0) * (1 - 0)| ≤ 4 - 0 :=
  ⟨by decide +kernel, by decide⟩

end Write

end Xv6.Graphics
