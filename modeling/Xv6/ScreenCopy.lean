import Xv6.Canvas
import Xv6.GraphicsHandle

/-!
# The copy to video memory

`clear320x200x256`, `setpixel`, `lineto` and `fillrect` end by copying the frame buffer to video memory,
`sizeof(ushort) * 320 * 200` bytes of it. The frame buffer has half as many: the copy shows what the
buffer holds, but it reads as many bytes behind the buffer, and it writes them over the rest of the window at
`0xA0000` and over the text cells at `0xB8000`.
-/

namespace Xv6.Graphics

open Kmem Exec

variable {ι : Type} [DecidableEq ι] {g : Symbols} {p : Proc ι} {s s' s₁ : St ι}

inductive Draw (ι : Type)
  | clear (p : Proc ι)
  | setpixel (p : Proc ι)
  | lineto (p : Proc ι)
  | fillrect (p : Proc ι)

def Draw.run (g : Symbols) : Draw ι → K ι Unit
  | .clear p => clear320x200x256 g p
  | .setpixel p => do let _ ← HandleCall.sys g p .setpixel
  | .lineto p => do let _ ← HandleCall.sys g p .lineto
  | .fillrect p => do let _ ← HandleCall.sys g p .fillrect

def drawStep (g : Symbols) (s : St ι) (d : Draw ι) : Option (St ι) :=
  match d.run g s with
  | (.ok _, s') => some s'
  | (.error _, _) => none

def OnScreen (x y : Int) : Prop := 0 ≤ x ∧ x < 320 ∧ 0 ≤ y ∧ y < 200

/-- The arguments of the call are in the process's memory and are points of the screen. -/
def Draw.OnScreen (s : St ι) : Draw ι → Prop
  | .clear _ => True
  | .setpixel p => p.ArgOk 0 ∧ p.ArgOk 1 ∧ p.ArgOk 2 ∧
    Graphics.OnScreen (s.int p.who (p.argAddr 1)) (s.int p.who (p.argAddr 2))
  | .lineto p => p.ArgOk 0 ∧ p.ArgOk 1 ∧ p.ArgOk 2 ∧
    Graphics.OnScreen (s.int p.who (p.argAddr 1)) (s.int p.who (p.argAddr 2))
  | .fillrect p => p.ArgOk 0 ∧ p.ArgOk 1 ∧ p.PtrOk (s.int p.who (p.argAddr 1)) 16 ∧
    let r := uint (s.int p.who (p.argAddr 1))
    Graphics.OnScreen (s.int p.who r) (s.int p.who (r + 4)) ∧
      Graphics.OnScreen (s.int p.who (r + 8)) (s.int p.who (r + 12))

def Mirrors (g : Symbols) (s : St ι) : Prop :=
  ∀ i, i < PIXELS → s.kernel (videoMemory + UInt32.ofNat i) = s.kernel (g.videobuffer + UInt32.ofNat i)

/-- An access of the copy that reads only the frame buffer, or writes only the part of video memory the
frame buffer is shown in. -/
def Contained (g : Symbols) (e : Access) : Prop :=
  e.kind = .screen → ∀ a, e.covers a → (a - if e.write then videoMemory else g.videobuffer).toNat < PIXELS

/-! ### Every call ends with the copy -/

def Grows (s s' : St ι) : Prop := ∃ t, s'.trace = s.trace ++ t

def Copied (g : Symbols) (s s' : St ι) : Prop := ∃ (p : Proc ι) (s₁ : St ι), Grows s s₁ ∧ s' = (flush g p s₁).2

omit [DecidableEq ι] in
theorem Grows.trans {s₂ : St ι} (h : Grows s s₁) (h' : Grows s₁ s₂) : Grows s s₂ := by
  obtain ⟨t, ht⟩ := h
  obtain ⟨t', ht'⟩ := h'
  exact ⟨t ++ t', by rw [ht', ht, List.append_assoc]⟩

omit [DecidableEq ι] in
theorem ends_grows {α : Type} {E : Access → Prop} {m : K ι α} (hm : Moves (Confined E) m) (h : Grows s s₁) :
    Ends m s₁ fun _ s' => Grows s s' := by
  intro a s' hs
  obtain ⟨t, ht, -⟩ := hm s₁
  rw [hs] at ht
  exact h.trans ⟨t, ht⟩

theorem ends_copied {r : Int} (h : Grows s s₁) :
    Ends (do flush g p; pure r : K ι Int) s₁ fun _ s' => Copied g s s' := by
  rintro _ _ ⟨⟩
  exact ⟨p, s₁, h, rfl⟩

theorem ends_draw {m : K ι Unit} {E : Access → Prop} {r : Int} (hm : Moves (Confined E) m) (h : Grows s s₁) :
    Ends (do m; flush g p; pure r : K ι Int) s₁ fun _ s' => Copied g s s' :=
  .bind (ends_grows hm h) fun _ _ h' => ends_copied h'

theorem ends_lineto {v x y : Int} (h : Grows s s₁) : Ends (lineto g p v x y) s₁ fun _ s' => Copied g s s' := by
  refine .bind (ends_grows (moves_getField .x) h) fun sX s2 h2 => .bind (ends_grows (moves_getField .y) h2)
    fun sY s3 h3 => ?_
  dsimp only
  split
  · split
    · exact ends_draw moves_verticalLine h3
    · exact ends_draw moves_verticalLine h3
  · split
    · split
      · exact ends_draw moves_horizontalLine h3
      · exact ends_draw moves_horizontalLine h3
    · exact ends_draw moves_bressenhamLine h3

theorem ends_fillrect {v : Int} {r : UInt32} (h : Grows s s₁) :
    Ends (fillrect g p v r) s₁ fun _ s' => Copied g s s' := by
  have hload : ∀ a, Moves (Confined fun _ => True) (load p .arg a : K ι Int) := fun a => moves_load trivial
  refine .bind (ends_grows (hload _) h) fun x1 s2 h2 => .bind (ends_grows (hload _) h2) fun y1 s3 h3 =>
    .bind (ends_grows (hload _) h3) fun x2 s4 h4 => .bind (ends_grows (hload _) h4) fun y2 s5 h5 => ?_
  dsimp only
  split
  · exact ends_draw (moves_forUp fun y => moves_horizontalLine) h5
  · exact ends_draw (moves_forUp fun y => moves_horizontalLine) h5

def Quiet (s s' : St ι) : Prop := Grows s s' ∧ s'.kernel = s.kernel ∧ s'.user = s.user

omit [DecidableEq ι] in
theorem ends_fetch {β : Type} {m : K ι (Option β)} {k : Option β → K ι Int} {Q : Prop} {R : Int → St ι → Prop}
    (hm : ∀ v s₂, m s₁ = (.ok v, s₂) →
      (Q → v.isSome = true) ∧ (¬ Q → v = none) ∧ s₂.kernel = s₁.kernel ∧ s₂.user = s₁.user)
    (hgrow : Moves (Confined fun _ => True) m) (hQ : Q) (h : Quiet s s₁)
    (hk : ∀ x s₂, Quiet s s₂ → Ends (k (some x)) s₂ R) : Ends (m >>= k) s₁ R := by
  refine .bind (P := fun v s₂ => v.isSome = true ∧ Quiet s s₂) (fun v s₂ hv => ?_) fun v s₂ hv => ?_
  · obtain ⟨h1, -, h2, h3⟩ := hm v s₂ hv
    exact ⟨h1 hQ, ends_grows hgrow h.1 v s₂ hv, h2.trans h.2.1, h3.trans h.2.2⟩
  · obtain ⟨x, rfl⟩ := Option.isSome_iff_exists.1 hv.1
    exact hk x s₂ hv.2

omit [DecidableEq ι] in
theorem ends_argint {n : Nat} {k : Option Int → K ι Int} {R : Int → St ι → Prop} (hn : p.ArgOk n) (h : Quiet s s₁)
    (hk : ∀ x s₂, Quiet s s₂ → Ends (k (some x)) s₂ R) : Ends (argint p n >>= k) s₁ R :=
  ends_fetch (fun _ _ => argint_isSome) (moves_argint (fun _ => trivial) n) hn h hk

theorem drawStep_copied {d : Draw ι} (hd : d.OnScreen s) (hs : drawStep g s d = some s') : Copied g s s' := by
  have hrefl : Quiet s s := ⟨⟨[], (List.append_nil _).symm⟩, rfl, rfl⟩
  have hends : Ends (d.run g) s fun _ s' => Copied g s s' := by
    cases d with
    | clear p =>
      refine .bind (ends_grows (.rounds (fun i => moves_storeBytes (E := fun _ => True) trivial) _ _) hrefl.1) ?_
      rintro _ s₁ h1 _ _ ⟨⟩
      exact ⟨p, s₁, h1, rfl⟩
    | setpixel p =>
      refine .bind (ends_argint hd.1 hrefl fun v s₁ h1 => ends_argint hd.2.1 h1 fun x s2 h2 =>
        ends_argint hd.2.2.1 h2 fun y s3 h3 => ends_draw (moves_plot x y) h3.1) fun _ _ h => .pure h
    | lineto p =>
      refine .bind (ends_argint hd.1 hrefl fun v s₁ h1 => ends_argint hd.2.1 h1 fun x s2 h2 =>
        ends_argint hd.2.2.1 h2 fun y s3 h3 => ends_lineto h3.1) fun _ _ h => .pure h
    | fillrect p =>
      refine .bind (ends_argint hd.1 hrefl fun v s₁ h1 => ends_fetch (fun _ _ => argptr_ok)
        (moves_argptr (fun _ => trivial) 1 16) ⟨hd.2.1, ?_⟩ h1 fun r s2 h2 => ends_fillrect h2.1) fun _ _ h => .pure h
      rw [St.int_congr h1.2.1 h1.2.2]
      exact hd.2.2.1
  unfold drawStep at hs
  rcases hrun : d.run g s with ⟨e | r, s₁⟩ <;> rw [hrun] at hs
  · cases hs
  · cases hs
    exact hends _ _ hrun

/-! ### What the copy does -/

theorem flush_kernel (g : Symbols) (p : Proc ι) (s : St ι) : (flush g p s).2.kernel =
    (s.put p.who videoMemory (2 * 320 * 200) fun i => s.byte p.who (g.videobuffer + UInt32.ofNat i)).kernel := rfl

theorem Copied.mirrors (hg : g.Layout) (h : Copied g s s') : Mirrors g s' := by
  obtain ⟨p, s₁, -, rfl⟩ := h
  intro i hi
  have hb : Apart videoMemory (2 * 320 * 200) g.videobuffer PIXELS :=
    hg.video (r := (g.videobuffer, PIXELS)) (by simp [Symbols.regions])
  have hsrc : s₁.byte p.who (g.videobuffer + UInt32.ofNat i) = s₁.kernel (g.videobuffer + UInt32.ofNat i) :=
    if_neg (hg.buffer.not_lt hi)
  rw [flush_kernel, St.kernel_put video_block (lt_trans hi (by decide)), hsrc,
    St.kernel_put_apart hb video_block hg.buffer hi]

theorem Copied.grows (h : Copied g s s') : Grows s s' := by
  obtain ⟨p, s₁, h, rfl⟩ := h
  exact h.trans ⟨[_, _], (List.append_assoc ..)⟩

/-- The copy reads behind the frame buffer. -/
theorem Copied.not_contained {t : List Access} (h : Copied g s s') (ht : s'.trace = s.trace ++ t) :
    ∃ e ∈ t, ¬ Contained g e := by
  obtain ⟨p, s₁, ⟨t1, ht1⟩, rfl⟩ := h
  have htr : (flush g p s₁).2.trace =
      s.trace ++ (t1 ++ [⟨.screen, false, g.videobuffer, 2 * 320 * 200⟩, ⟨.screen, true, videoMemory, 2 * 320 * 200⟩]) := by
    rw [← List.append_assoc, ← ht1]
    exact List.append_assoc _ [_] [_]
  obtain rfl := List.append_cancel_left (ht.symm.trans htr)
  refine ⟨⟨.screen, false, g.videobuffer, 2 * 320 * 200⟩, by simp, fun hc => ?_⟩
  have hcov : (g.videobuffer + 64000 - g.videobuffer).toNat = 64000 := by
    rw [UInt32.add_comm, UInt32.add_sub_cancel]
    rfl
  have hlt := hc rfl (g.videobuffer + 64000) (show _ < 2 * 320 * 200 by rw [hcov]; decide)
  change (g.videobuffer + 64000 - g.videobuffer).toNat < PIXELS at hlt
  rw [hcov] at hlt
  exact absurd hlt (by decide)

inductive Drawing (g : Symbols) : St ι → List (Draw ι) → St ι → Prop
  | nil {s : St ι} : Drawing g s [] s
  | cons {s s₁ s' : St ι} {d : Draw ι} {ds : List (Draw ι)} (hd : d.OnScreen s) (hs : drawStep g s d = some s₁)
      (h : Drawing g s₁ ds s') : Drawing g s (d :: ds) s'

theorem Drawing.copied {ds : List (Draw ι)} (h : Drawing g s ds s') (hne : ds ≠ []) : Copied g s s' := by
  induction h with
  | nil => exact absurd rfl hne
  | cons hd hs h ih =>
    have hfirst := drawStep_copied hd hs
    rcases h with _ | ⟨hd', hs', h'⟩
    · exact hfirst
    · obtain ⟨p, s2, h2, hs2⟩ := ih (List.cons_ne_nil _ _)
      exact ⟨p, s2, hfirst.grows.trans h2, hs2⟩

/-- After every sequence of calls with arguments on the screen, video memory shows the frame buffer; but
as soon as there is one call in it, bytes behind the frame buffer have been copied. -/
theorem copy_contained_iff (hg : g.Layout) {ds : List (Draw ι)} {t : List Access} (h : Drawing g s ds s')
    (ht : s'.trace = s.trace ++ t) : (ds ≠ [] → Mirrors g s') ∧ ((∀ e ∈ t, Contained g e) ↔ ds = []) := by
  refine ⟨fun hne => (h.copied hne).mirrors hg, fun hc => ?_, ?_⟩
  · by_contra hne
    obtain ⟨e, he, hbad⟩ := (h.copied hne).not_contained ht
    exact hbad (hc e he)
  · rintro rfl
    cases h
    rw [List.self_eq_append_right.1 ht]
    exact nofun

/-- The stack of a process that calls `setpixel(&hdcArray[0], 5, 6)`, and a byte behind the frame buffer. -/
def behindBuffer : St (Fin 2) :=
  ⟨fun a => if a = sampleSymbols.videobuffer + 0x18000 then 7 else 0, fun _ => movetoStack, [], []⟩

theorem setpixel_onScreen : (Draw.setpixel (sampleProc 0)).OnScreen behindBuffer := by
  refine ⟨by unfold Proc.ArgOk; decide, by unfold Proc.ArgOk; decide, by unfold Proc.ArgOk; decide, ?_⟩
  unfold OnScreen
  decide +kernel

/-- After one `setpixel` the screen shows the buffer, and the copy has gone too far. -/
theorem copy_contained_iff_setpixel : ∃ (s' : St (Fin 2)) (t : List Access),
    Drawing sampleSymbols behindBuffer [.setpixel (sampleProc 0)] s' ∧ Mirrors sampleSymbols s' ∧
      s'.trace = t ∧ ¬ ∀ e ∈ t, Contained sampleSymbols e := by
  have hg : sampleSymbols.Layout := by
    constructor
    · decide
    · unfold Apart
      decide
  have hsome : (drawStep sampleSymbols behindBuffer (.setpixel (sampleProc 0))).isSome = true := by decide +kernel
  obtain ⟨s', hs⟩ := Option.isSome_iff_exists.1 hsome
  have hrun : Drawing sampleSymbols behindBuffer [.setpixel (sampleProc 0)] s' := .cons setpixel_onScreen hs .nil
  obtain ⟨h1, h2⟩ := copy_contained_iff hg hrun (t := s'.trace) rfl
  exact ⟨s', _, hrun, h1 (List.cons_ne_nil _ _), rfl, fun h => List.cons_ne_nil _ _ (h2.1 h)⟩

/-- The byte behind the frame buffer is copied to the text cell at `0xB8000`. -/
theorem setpixel_overwrites_text : (Draw.setpixel (sampleProc 0)).OnScreen behindBuffer ∧
    behindBuffer.kernel (KERNBASE + 0xB8000) = 0 ∧
    (drawStep sampleSymbols behindBuffer (.setpixel (sampleProc 0))).map (fun s' => s'.kernel (KERNBASE + 0xB8000)) =
      some 7 :=
  ⟨setpixel_onScreen, by decide, by decide +kernel⟩

end Xv6.Graphics
