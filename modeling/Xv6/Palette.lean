import Xv6.Contexts

/-!
# Pen colours (`sys_setpencolour`, `sys_selectpen`)

`setpencolour` programs an entry of the palette and notes it in `indexWritten`; `selectpen` looks there
before it accepts an index above 15. A run is a sequence of these two calls by any processes, which may
change their own memory in between; `made` lists the entries that have been programmed in it.

`indexWritten` has 255 entries, but `setpencolour` accepts the index 255; it tests the components of a colour
only from above, and `selectpen` tests its index only from above too.
-/

namespace Xv6.Graphics

open Function (update update_self update_of_ne)
open Kmem Exec

variable {ι : Type} {α : Type} {g : Symbols} {p : Proc ι} {s s' s₁ : St ι}

def arg (p : Proc ι) (s : St ι) (n : Nat) : Int := s.int p.who (p.argAddr n)

/-- An access to `indexWritten` is one to an entry of it. -/
def InPalette (g : Symbols) (e : Access) : Prop :=
  e.kind = .palette → e.len = 4 ∧ ∃ j : Fin COLOURS, e.addr = g.indexWritten + UInt32.ofNat (4 * j)

/-- A colour component sent to the DAC is below 64. -/
def SixBits (o : Nat × UInt8) : Prop := o.1 = 0x3C9 → o.2.toNat < 64

def Sends (g : Symbols) (s s' : St ι) : Prop :=
  (∃ t, s'.trace = s.trace ++ t ∧ ∀ e ∈ t, InPalette g e) ∧ ∃ u, s'.ports = s.ports ++ u ∧ ∀ o ∈ u, SixBits o

instance : Std.Refl (Sends g : St ι → St ι → Prop) :=
  ⟨fun _ => ⟨⟨[], (List.append_nil _).symm, nofun⟩, [], (List.append_nil _).symm, nofun⟩⟩

instance : IsTrans (St ι) (Sends g) where
  trans s s₁ s' := by
    rintro ⟨⟨t, ht, h⟩, u, hu, k⟩ ⟨⟨t', ht', h'⟩, u', hu', k'⟩
    refine ⟨⟨t ++ t', by rw [ht', ht, List.append_assoc], fun e he => ?_⟩,
      u ++ u', by rw [hu', hu, List.append_assoc], fun o ho => ?_⟩
    · exact (List.mem_append.1 he).elim (h e) (h' e)
    · exact (List.mem_append.1 ho).elim (k o) (k' o)

theorem sends_log {e : Access} (he : InPalette g e) : Sends g s (s.log e) :=
  ⟨⟨[e], rfl, by simpa using he⟩, [], (List.append_nil _).symm, nofun⟩

theorem sends_load {k : Kind} {a : UInt32} (h : InPalette g ⟨k, false, a, 4⟩) : Moves (Sends g) (load p k a) := by
  intro s
  unfold load
  split
  · exact sends_log h
  · exact sends_log h

theorem sends_argint (n : Nat) : Moves (Sends g) (argint p n) := by
  unfold argint fetchint
  split
  · exact .pure none
  · exact .bind (sends_load nofun) fun v => .pure (some v)

theorem sends_outb {port : Nat} {v : Int} (h : SixBits (port, Bytes.leByte (uint v).toNat 0)) :
    Moves (Sends g) (outb port v : K ι Unit) :=
  .modify fun s => ⟨⟨[], (List.append_nil _).symm, nofun⟩, [_], rfl, by simpa using h⟩

section Write

variable [DecidableEq ι]

theorem sends_storeBytes {k : Kind} {a : UInt32} {n : Nat} {v : Int} (h : InPalette g ⟨k, true, a, n⟩) :
    Moves (Sends g) (storeBytes p k a n v) := by
  intro s
  unfold storeBytes
  split
  · have hlog := sends_log (s := s.put p.who a n (Bytes.leByte (uint v).toNat)) h
    exact hlog
  · exact sends_log h

theorem toNat_lt_colours {index : Int} (h : index < COLOURS) : index.toNat < COLOURS := by
  have h' : index < 255 := h
  show index.toNat < 255
  omega

theorem entry_addr {index : Int} (h₀ : 0 ≤ index) (h₁ : index < COLOURS) :
    g.indexWritten + uint (4 * index) = g.indexWritten + UInt32.ofNat (4 * index.toNat) := by
  have h : index < 255 := h₁
  unfold uint
  rw [Int.emod_eq_of_lt (by omega) (by omega), show (4 * index).toNat = 4 * index.toNat by omega]

theorem inPalette_entry {index : Int} (h₀ : 0 ≤ index) (h₁ : index < COLOURS) (w : Bool) :
    InPalette g ⟨.palette, w, g.indexWritten + uint (4 * index), 4⟩ :=
  fun _ => ⟨rfl, ⟨index.toNat, toNat_lt_colours h₁⟩, entry_addr h₀ h₁⟩

theorem sixBits_component {v : Int} (h₀ : 0 ≤ v) (h₁ : v < 64) : SixBits (0x3C9, Bytes.leByte (uint v).toNat 0) := by
  intro _
  have hv : (uint v).toNat = v.toNat := by
    have := toNat_uint v
    omega
  show (Bytes.leByte (uint v).toNat 0).toNat < 64
  rw [hv, Bytes.leByte, pow_zero, Nat.div_one, UInt8.toNat_ofNat']
  omega

/-! ### The two calls -/

def Programs (index r gr b : Int) : Prop := 15 < index ∧ index ≤ 255 ∧ r < 64 ∧ gr < 64 ∧ b < 64

theorem setpencolour_rejects {index r gr b : Int} (h : ¬ Programs index r gr b) :
    (setpencolour g p index r gr b : K ι Int) = pure 1 := by
  unfold Programs at h
  unfold setpencolour
  split
  · rfl
  · rw [if_pos (by omega)]

theorem setpencolour_accepts {index r gr b : Int} (h : Programs index r gr b) :
    (setpencolour g p index r gr b : K ι Int) = (do
      outb 0x3C8 index
      outb 0x3C9 r
      outb 0x3C9 gr
      outb 0x3C9 b
      let _ ← load p .palette (g.indexWritten + uint (4 * index))
      store p .palette (g.indexWritten + uint (4 * index)) 1
      return 1) := by
  unfold Programs at h
  unfold setpencolour
  rw [if_neg (by omega), if_neg (by omega)]

/-- Arguments of `setpencolour` that are in range if they are accepted. -/
def ColourInRange (index r gr b : Int) : Prop :=
  Programs index r gr b → index < COLOURS ∧ 0 ≤ r ∧ 0 ≤ gr ∧ 0 ≤ b

theorem sends_setpencolour {index r gr b : Int} (h : ColourInRange index r gr b) :
    Moves (Sends g) (setpencolour g p index r gr b : K ι Int) := by
  by_cases hacc : Programs index r gr b
  · obtain ⟨hlt, h1, h2, h3⟩ := h hacc
    rw [setpencolour_accepts hacc]
    obtain ⟨hlo, -, h4, h5, h6⟩ := hacc
    exact .bind (sends_outb nofun) fun _ => .bind (sends_outb (sixBits_component h1 h4)) fun _ =>
      .bind (sends_outb (sixBits_component h2 h5)) fun _ => .bind (sends_outb (sixBits_component h3 h6)) fun _ =>
      .bind (sends_load (inPalette_entry (by omega) hlt false)) fun _ =>
      .bind (sends_storeBytes (inPalette_entry (by omega) hlt true)) fun _ => .pure 1
  · rw [setpencolour_rejects hacc]
    exact .pure 1

theorem sends_selectpen {v index : Int} (h : index < COLOURS) : Moves (Sends g) (selectpen g p v index : K ι Int) := by
  have htail : ∀ known : Bool, Moves (Sends g) (do
      if known then
        setField p (uint v) .colour index
        let _ ← getField p (uint v) .colour
      pure v : K ι Int) := by
    intro known
    cases known
    · exact .pure v
    · exact .bind (sends_storeBytes nofun) fun _ => .bind (sends_load nofun) fun _ => .pure v
  unfold selectpen
  dsimp only
  split
  · exact .bind (.pure true) htail
  · exact .bind (sends_load (inPalette_entry (by omega) h false)) fun _ => .bind (.pure _) htail

theorem canvas_put_colour (hg : g.Layout) {q : ι} (j : Fin COLOURS) (v : Int) :
    canvas g (s.put q (g.indexWritten + UInt32.ofNat (4 * j)) 4 (Bytes.leByte (uint v).toNat)) =
      { canvas g s with written := update (canvas g s).written j (i32 v) } := by
  obtain ⟨⟨h1, -, -⟩, ⟨h2, h3⟩, -⟩ := hg.apart_all
  have hsub : ∀ {b : UInt32} {m : Nat}, Apart g.indexWritten (4 * COLOURS) b m →
      Apart (g.indexWritten + UInt32.ofNat (4 * j)) 4 b m :=
    fun h => (hg.apart_colour h.symm j).symm
  rw [Canvas.mk.injEq]
  refine ⟨pixel_put hg (hg.colour j) (hsub h1.symm ..), ctx_put hg (hg.colour j) (hsub h3), funext fun k => ?_,
    first_put hg (hg.colour j) (hsub h2)⟩
  by_cases hk : k = j
  · subst hk
    rw [update_self]
    exact St.kint_put (hg.colour k)
  · rw [update_of_ne hk]
    refine St.kint_put_apart ?_ (hg.colour j) (hg.colour k)
    have hne := Fin.val_ne_of_ne hk
    unfold Apart
    rw [hg.palette.toNat_add (by omega), hg.palette.toNat_add (by omega)]
    omega

theorem setpencolour_written (hg : g.Layout) {index r gr b : Int} (hacc : Programs index r gr b) (hlt : index < COLOURS) :
    Ends (setpencolour g p index r gr b) s fun _ s' => canvas g s' =
      { canvas g s with written := update (canvas g s).written ⟨index.toNat, toNat_lt_colours hlt⟩ 1 } := by
  have hout : ∀ (s₁ : St ι) port v, Ends (outb port v) s₁ fun _ s2 => canvas g s2 = canvas g s₁ :=
    fun s₁ port v => .modify (canvas_congr rfl)
  rw [setpencolour_accepts hacc, entry_addr (by have := hacc.1; omega) hlt]
  refine .bind (hout _ _ _) fun _ s₁ h1 => .bind (hout _ _ _) fun _ s2 h2 => .bind (hout _ _ _) fun _ s3 h3 =>
    .bind (hout _ _ _) fun _ s4 h4 => ?_
  rw [← h1, ← h2, ← h3, ← h4]
  intro _ s' hrun
  obtain ⟨_, s5, h5, hrun⟩ := bind_run_ok hrun
  obtain ⟨_, s6, h6, hrun⟩ := bind_run_ok hrun
  obtain rfl : s6 = s' := congrArg Prod.snd hrun
  obtain ⟨-, rfl⟩ := load_ok h5
  unfold store storeBytes at h6
  split at h6
  · cases h6
    rw [canvas_log]
    refine (canvas_put_colour hg ⟨index.toNat, toNat_lt_colours hlt⟩ 1).trans ?_
    rw [canvas_log]
    rfl
  · cases h6

/-! ### Calls with their arguments -/

omit [DecidableEq ι] in
theorem fetch_arg {k : Option Int → K ι Int} {n : Nat} {r : Int} (hnone : k none = pure (-1)) (h : Same s s₁)
    (ht : Sends g s s₁) (hrun : (argint p n >>= k) s₁ = (.ok r, s')) :
    (¬ p.ArgOk n ∧ Same s s' ∧ Sends g s s') ∨
      p.ArgOk n ∧ ∃ s₂, Same s s₂ ∧ Sends g s s₂ ∧ k (some (arg p s n)) s₂ = (.ok r, s') := by
  obtain ⟨v, s₂, hv, hrun⟩ := bind_run_ok hrun
  have hmove : Sends g s₁ s₂ := by
    have := sends_argint (g := g) (p := p) n s₁
    rwa [hv] at this
  have ht2 : Sends g s s₂ := trans_of (Sends g) ht hmove
  obtain ⟨hsome, hnot, hk, hu⟩ := argint_ok hv
  by_cases hn : p.ArgOk n
  · rw [hsome hn, h.int] at hrun
    exact .inr ⟨hn, s₂, h.trans ⟨hk, hu⟩, ht2, hrun⟩
  · rw [hnot hn, hnone] at hrun
    obtain rfl : s₂ = s' := congrArg Prod.snd hrun
    exact .inl ⟨hn, h.trans ⟨hk, hu⟩, ht2⟩

theorem setpencolour_sys {r : Int} (hrun : Call.sys g p .setpencolour s = (.ok r, s')) :
    (¬ (p.ArgOk 0 ∧ p.ArgOk 1 ∧ p.ArgOk 2 ∧ p.ArgOk 3) ∧ Same s s' ∧ Sends g s s') ∨
      (p.ArgOk 0 ∧ p.ArgOk 1 ∧ p.ArgOk 2 ∧ p.ArgOk 3) ∧ ∃ s₁, Same s s₁ ∧ Sends g s s₁ ∧
        setpencolour g p (arg p s 0) (arg p s 1) (arg p s 2) (arg p s 3) s₁ = (.ok r, s') := by
  rcases fetch_arg rfl ⟨rfl, rfl⟩ (refl_of (Sends g) s) hrun with ⟨h0, h⟩ | ⟨h0, s₁, hs1, ht1, hrun⟩
  · exact .inl ⟨fun h => h0 h.1, h⟩
  rcases fetch_arg rfl hs1 ht1 hrun with ⟨h1, h⟩ | ⟨h1, s2, hs2, ht2, hrun⟩
  · exact .inl ⟨fun h => h1 h.2.1, h⟩
  rcases fetch_arg rfl hs2 ht2 hrun with ⟨h2, h⟩ | ⟨h2, s3, hs3, ht3, hrun⟩
  · exact .inl ⟨fun h => h2 h.2.2.1, h⟩
  rcases fetch_arg rfl hs3 ht3 hrun with ⟨h3, h⟩ | ⟨h3, s4, hs4, ht4, hrun⟩
  · exact .inl ⟨fun h => h3 h.2.2.2, h⟩
  exact .inr ⟨⟨h0, h1, h2, h3⟩, s4, hs4, ht4, hrun⟩

theorem selectpen_sys {r : Int} (hrun : Call.sys g p (.handle .selectpen) s = (.ok r, s')) :
    (¬ (p.ArgOk 0 ∧ p.ArgOk 1) ∧ Same s s' ∧ Sends g s s') ∨
      (p.ArgOk 0 ∧ p.ArgOk 1) ∧ ∃ s₁, Same s s₁ ∧ Sends g s s₁ ∧
        selectpen g p (arg p s 0) (arg p s 1) s₁ = (.ok r, s') := by
  rcases fetch_arg rfl ⟨rfl, rfl⟩ (refl_of (Sends g) s) hrun with ⟨h0, h⟩ | ⟨h0, s₁, hs1, ht1, hrun⟩
  · exact .inl ⟨fun h => h0 h.1, h⟩
  rcases fetch_arg rfl hs1 ht1 hrun with ⟨h1, h⟩ | ⟨h1, s2, hs2, ht2, hrun⟩
  · exact .inl ⟨fun h => h1 h.2, h⟩
  exact .inr ⟨⟨h0, h1⟩, s2, hs2, ht2, hrun⟩

/-! ### Runs -/

instance (index r gr b : Int) : Decidable (Programs index r gr b) := inferInstanceAs (Decidable (_ ∧ _))

instance (n : Nat) : Decidable (p.ArgOk n) := inferInstanceAs (Decidable (¬ _))

/-- The palette entries programmed so far; only the two calls are made. -/
def paletteUpd (s : St ι) (a : Act ι) (_ : St ι) (made : List Int) : Option (List Int) :=
  match a with
  | .user _ _ => some made
  | .call p .setpencolour =>
    if (p.ArgOk 0 ∧ p.ArgOk 1 ∧ p.ArgOk 2 ∧ p.ArgOk 3) ∧ Programs (arg p s 0) (arg p s 1) (arg p s 2) (arg p s 3) then
      some (arg p s 0 :: made)
    else some made
  | .call _ (.handle .selectpen) => some made
  | _ => none

/-- The arguments of the calls are in range, and the handles are those of contexts. -/
def InRange (g : Symbols) (x : St ι × List Int) : Act ι → Prop
  | .call p .setpencolour => p.ArgOk 0 ∧ p.ArgOk 1 ∧ p.ArgOk 2 ∧ p.ArgOk 3 →
    ColourInRange (arg p x.1 0) (arg p x.1 1) (arg p x.1 2) (arg p x.1 3)
  | .call p (.handle .selectpen) => p.ArgOk 0 ∧ p.ArgOk 1 →
    (0 ≤ arg p x.1 1 ∧ arg p x.1 1 < COLOURS) ∧ ∃ i : Fin MAX_PROCESSES, uint (arg p x.1 0) = g.entry i
  | _ => True

structure PaletteOk (g : Symbols) (x : St ι × List Int) : Prop where
  trace : ∀ e ∈ x.1.trace, InPalette g e
  ports : ∀ o ∈ x.1.ports, SixBits o
  made : ∀ j : Fin COLOURS, (canvas g x.1).written j = 1 ↔ (j : Int) ∈ x.2

omit [DecidableEq ι] in
theorem PaletteOk.sends {made made' : List Int} (h : PaletteOk g (s, made)) (ht : Sends g s s')
    (hm : ∀ j : Fin COLOURS, (canvas g s').written j = 1 ↔ (j : Int) ∈ made') : PaletteOk g (s', made') := by
  obtain ⟨⟨t, ht, he⟩, u, hu, ho⟩ := ht
  refine ⟨fun e hmem => ?_, fun o hmem => ?_, hm⟩
  · rw [show (s', made').1.trace = s.trace ++ t from ht, List.mem_append] at hmem
    exact hmem.elim (h.trace e) (he e)
  · rw [show (s', made').1.ports = s.ports ++ u from hu, List.mem_append] at hmem
    exact hmem.elim (h.ports o) (ho o)

theorem step_call {c : Call} (h : step g s (.call p c) = some s') : ∃ r, c.sys g p s = (.ok r, s') := by
  unfold step at h
  dsimp only at h
  rcases hrun : c.sys g p s with ⟨e | r, s₁⟩ <;> rw [hrun] at h
  · cases h
  · cases h
    exact ⟨r, rfl⟩

theorem selectpen_canvas (hg : g.Layout) {i : Fin MAX_PROCESSES} (hs : step g s (.call p (.handle .selectpen)) = some s')
    (hargs : p.ArgOk 0 ∧ p.ArgOk 1) (hi : uint (arg p s 0) = g.entry i) (hlt : arg p s 1 < COLOURS) :
    canvas g s' = (canvas g s).apply (.selectpen i (arg p s 1)) := by
  obtain ⟨r, hrun⟩ := step_call hs
  rcases selectpen_sys hrun with ⟨hno, -⟩ | ⟨-, s₁, hsame, -, hrun⟩
  · exact absurd hargs hno
  · rw [← hsame.canvas]
    exact Meets.run_ok (E := Trap g p True) (selectpen_meets hg hi (s.i32_int _ _) hlt) hrun

theorem PaletteOk.step (hg : g.Layout) {x y : St ι × List Int} {a : Act ι} (h : PaletteOk g x) (hok : InRange g x a)
    (hs : Machine.along (step g) paletteUpd x a = some y) : PaletteOk g y := by
  obtain ⟨hs, hm⟩ := Machine.along_eq hs
  obtain ⟨s, made⟩ := x
  obtain ⟨s', made'⟩ := y
  rcases a with ⟨who, mem⟩ | ⟨p, c⟩
  · cases hs
    cases hm
    have hc : canvas g { s with user := update s.user who mem } = canvas g s := canvas_congr rfl
    refine ⟨h.trace, h.ports, fun j => ?_⟩
    rw [hc]
    exact h.made j
  obtain ⟨r, hrun⟩ := step_call hs
  rcases c with c | _ | _
  · cases c with
    | selectpen =>
      cases hm
      rcases selectpen_sys hrun with ⟨-, hsame, hsend⟩ | ⟨hargs, s₁, -, hsend, hrun'⟩
      · exact h.sends hsend (by rw [hsame.canvas]; exact h.made)
      · obtain ⟨⟨-, hlt⟩, i, hi⟩ := hok hargs
        have hmove := sends_selectpen (g := g) (p := p) (v := arg p s 0) hlt s₁
        rw [hrun'] at hmove
        refine h.sends (trans_of (Sends g) hsend hmove) ?_
        rw [selectpen_canvas hg hs hargs hi hlt]
        exact h.made
    | _ => cases hm
  · cases hm
  · have hset := setpencolour_sys hrun
    unfold paletteUpd at hm
    dsimp only at hm hok
    rcases hset with ⟨hno, hsame, hsend⟩ | ⟨hargs, s₁, hsame, hsend, hrun'⟩
    · rw [if_neg fun h => hno h.1] at hm
      cases hm
      exact h.sends hsend (by rw [hsame.canvas]; exact h.made)
    · have hmove := sends_setpencolour (g := g) (p := p) (hok hargs) s₁
      rw [hrun'] at hmove
      have hsend' := trans_of (Sends g) hsend hmove
      by_cases hacc : Programs (arg p s 0) (arg p s 1) (arg p s 2) (arg p s 3)
      · rw [if_pos ⟨hargs, hacc⟩] at hm
        cases hm
        have hc := setpencolour_written hg hacc (hok hargs hacc).1 _ _ hrun'
        refine h.sends hsend' fun j => ?_
        rw [hc, hsame.canvas, List.mem_cons]
        have hpos : 15 < arg p s 0 := hacc.1
        by_cases hj : j = ⟨(arg p s 0).toNat, toNat_lt_colours (hok hargs hacc).1⟩
        · subst hj
          dsimp only
          rw [update_self]
          exact iff_of_true rfl (.inl (by omega))
        · dsimp only
          rw [update_of_ne hj, h.made j]
          refine (or_iff_right fun hji => hj (Fin.ext ?_)).symm
          dsimp only
          omega
      · rw [if_neg fun h => hacc h.2] at hm
        rw [setpencolour_rejects hacc] at hrun'
        obtain rfl : s₁ = s' := congrArg Prod.snd hrun'
        cases hm
        exact h.sends hsend (by rw [hsame.canvas]; exact h.made)

/-- In a run whose arguments are in range, all accesses to `indexWritten` are to its entries, all components sent to the
DAC are below 64, and `selectpen` changes the pen of its context only to one of the first 16 colours or to one that
has been made before. -/
theorem palette_discipline (hg : g.Layout) {s₀ : St ι} (hw : ∀ j, (canvas g s₀).written j ≠ 1) (htr : s₀.trace = [])
    (hpo : s₀.ports = []) {x : St ι × List Int}
    (h : Machine.Reach (Machine.along (step g) paletteUpd) (InRange g) (s₀, []) x) :
    (∀ e ∈ x.1.trace, InPalette g e) ∧ (∀ o ∈ x.1.ports, SixBits o) ∧
    ∀ p s', step g x.1 (.call p (.handle .selectpen)) = some s' → InRange g x (.call p (.handle .selectpen)) →
      (¬ (p.ArgOk 0 ∧ p.ArgOk 1) → canvas g s' = canvas g x.1) ∧
      (p.ArgOk 0 ∧ p.ArgOk 1 → ∃ i : Fin MAX_PROCESSES, uint (arg p x.1 0) = g.entry i ∧
        canvas g s' = (canvas g x.1).setCtx i { (canvas g x.1).ctx i with
          colour := if (0 ≤ arg p x.1 1 ∧ arg p x.1 1 ≤ 15) ∨ arg p x.1 1 ∈ x.2 then arg p x.1 1
            else ((canvas g x.1).ctx i).colour }) := by
  have hinv : PaletteOk g x := h.inv (by
    refine ⟨?_, ?_, fun j => iff_of_false (hw j) List.not_mem_nil⟩
    · rw [htr]
      exact nofun
    · rw [hpo]
      exact nofun) fun x a y hx hok hs => hx.step hg hok hs
  refine ⟨hinv.trace, hinv.ports, fun p s' hs hok => ⟨fun hno => ?_, fun hargs => ?_⟩⟩
  · obtain ⟨r, hrun⟩ := step_call hs
    rcases selectpen_sys hrun with ⟨-, hsame, -⟩ | ⟨hyes, -⟩
    · exact hsame.canvas
    · exact absurd hyes hno
  · obtain ⟨⟨hnn, hlt⟩, i, hi⟩ := hok hargs
    refine ⟨i, hi, ?_⟩
    rw [selectpen_canvas hg hs hargs hi hlt]
    have hknown : (canvas g x.1).known (arg p x.1 1) = true ↔ arg p x.1 1 ∈ x.2 := by
      rw [Canvas.known, dif_pos (toNat_lt_colours hlt), decide_eq_true_iff, hinv.made]
      dsimp only
      rw [Int.toNat_of_nonneg hnn]
    have happly : (canvas g x.1).apply (.selectpen i (arg p x.1 1)) = (canvas g x.1).setCtx i
        (if arg p x.1 1 ≤ 15 ∨ (canvas g x.1).known (arg p x.1 1) then
          { (canvas g x.1).ctx i with colour := arg p x.1 1 } else (canvas g x.1).ctx i) := rfl
    rw [happly]
    by_cases hcol : (0 ≤ arg p x.1 1 ∧ arg p x.1 1 ≤ 15) ∨ arg p x.1 1 ∈ x.2
    · rw [if_pos hcol, if_pos (hcol.imp And.right hknown.2)]
    · have hno : ¬ (arg p x.1 1 ≤ 15 ∨ (canvas g x.1).known (arg p x.1 1)) := by
        rintro (hle | hk)
        · exact hcol (.inl ⟨hnn, hle⟩)
        · exact hcol (.inr (hknown.1 hk))
      rw [if_neg hcol, if_neg hno]

end Write

/-- The first process makes the colour 20, the second selects it for the context in entry 0. -/
def paletteStacks (q : Fin 2) : UInt32 → UInt8 := if q = 0 then argStack 20 1 2 else argStack 0x80122000 20 0

instance (g : Symbols) (e : Access) : Decidable (InPalette g e) := inferInstanceAs (Decidable (_ → _))

instance (index r gr b : Int) : Decidable (ColourInRange index r gr b) := inferInstanceAs (Decidable (_ → _))

theorem palette_discipline_made : ∃ (x : St (Fin 2) × List Int) (s' : St (Fin 2)),
    Machine.Reach (Machine.along (step sampleSymbols) paletteUpd) (InRange sampleSymbols) (init paletteStacks, []) x ∧
    step sampleSymbols x.1 (.call (sampleProc 1) (.handle .selectpen)) = some s' ∧
    (∀ e ∈ x.1.trace, InPalette sampleSymbols e) ∧ ((canvas sampleSymbols s').ctx 0).colour = 20 := by
  have hrun : (Machine.along (step sampleSymbols) paletteUpd (init paletteStacks, [])
      (.call (sampleProc 0) .setpencolour)).any (fun x => x.2 = [20] ∧ arg (sampleProc 1) x.1 1 = 20 ∧
        uint (arg (sampleProc 1) x.1 0) = sampleSymbols.entry 0 ∧
        (step sampleSymbols x.1 (.call (sampleProc 1) (.handle .selectpen))).isSome) = true := by
    decide +kernel
  obtain ⟨x, hx, hprop⟩ := (Option.any_eq_true ..).1 hrun
  rw [decide_eq_true_iff] at hprop
  obtain ⟨hmade, harg, hent, hsome⟩ := hprop
  obtain ⟨s', hs'⟩ := Option.isSome_iff_exists.1 hsome
  have hok : InRange sampleSymbols (init paletteStacks, []) (.call (sampleProc 0) .setpencolour) :=
    fun _ => by decide +kernel
  have hok' : InRange sampleSymbols x (.call (sampleProc 1) (.handle .selectpen)) := by
    refine fun _ => ⟨?_, 0, hent⟩
    rw [harg]
    decide
  have hreach := Machine.Reach.refl.tail hok hx
  obtain ⟨htrace, -, hsel⟩ := palette_discipline sampleSymbols_layout (by decide +kernel) rfl rfl hreach
  obtain ⟨-, hpen⟩ := hsel (sampleProc 1) s' hs' hok'
  obtain ⟨i, hi, hc⟩ := hpen (by constructor <;> unfold Proc.ArgOk <;> decide)
  obtain rfl : i = 0 := sampleSymbols_layout.entry_inj (hi.symm.trans hent)
  refine ⟨x, s', hreach, hs', htrace, ?_⟩
  rw [hc, Canvas.setCtx_self, harg, hmade]
  rfl

/-- `setpencolour(255, 0, 0, 0)` uses the entry behind the last one, `setpencolour(16, -1, 0, 0)` sends 255 to the
DAC, and `selectpen(hdc, -7)` makes -7 the colour of the pen. -/
theorem palette_not_disciplined :
    (step sampleSymbols (init fun _ => argStack 255 0 0) (.call (sampleProc 0) .setpencolour)).any (fun s' =>
      ∃ e ∈ s'.trace, ¬ InPalette sampleSymbols e) ∧
    (step sampleSymbols (init fun _ => argStack 16 0xFFFFFFFF 0) (.call (sampleProc 0) .setpencolour)).any (fun s' =>
      (0x3C9, 255) ∈ s'.ports) ∧
    (step sampleSymbols (init fun _ => argStack 0x80122000 0xFFFFFFF9 0) (.call (sampleProc 0) (.handle .selectpen))).any
      (fun s' => ((canvas sampleSymbols s').ctx 0).colour = -7) := by
  decide +kernel

end Xv6.Graphics
