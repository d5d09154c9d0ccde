import Xv6.CanvasCalls
import Xv6.GraphicsHandle

/-!
# Drawing contexts and their owners

Beside the machine a history is kept: which contexts each process has begun and not yet ended, and which
calls it has made on them, with the context named by its number and not by its address. In a run in which
every process passes its own handles, what a process finds in its contexts is a function (`pens`) of its own
calls.

`selectpen` is an exception: it reads `indexWritten` at any index it is given, and behind the array there
are variables other processes change.
-/

namespace Xv6.Graphics

open Function (update update_self update_of_ne)
open Kmem Exec

variable {ι : Type}

/-! ### Calls with their arguments -/

def HandleCall.op (p : Proc ι) (s : St ι) : HandleCall → Op UInt32
  | .setpixel => .setpixel (uint (s.int p.who (p.argAddr 0))) (s.int p.who (p.argAddr 1)) (s.int p.who (p.argAddr 2))
  | .moveto => .moveto (uint (s.int p.who (p.argAddr 0))) (s.int p.who (p.argAddr 1)) (s.int p.who (p.argAddr 2))
  | .lineto => .lineto (uint (s.int p.who (p.argAddr 0))) (s.int p.who (p.argAddr 1)) (s.int p.who (p.argAddr 2))
  | .selectpen => .selectpen (uint (s.int p.who (p.argAddr 0))) (s.int p.who (p.argAddr 1))
  | .fillrect =>
    let r := uint (s.int p.who (p.argAddr 1))
    .fillrect (uint (s.int p.who (p.argAddr 0))) (s.int p.who r) (s.int p.who (r + 4)) (s.int p.who (r + 8))
      (s.int p.who (r + 12))
  | .endpaint => .endpaint (uint (s.int p.who (p.argAddr 0)))

def Op.Small {κ : Type} : Op κ → Prop
  | selectpen _ index => index < COLOURS
  | _ => True

theorem HandleCall.op_handle (p : Proc ι) (s : St ι) (c : HandleCall) :
    (c.op p s).handle = uint (s.int p.who (p.argAddr 0)) := by
  cases c <;> rfl

section Sys

variable [DecidableEq ι] {g : Symbols} {p : Proc ι} {s s' : St ι} {i : Fin MAX_PROCESSES} {r : Int}

omit [DecidableEq ι] in
theorem fetch_same {n : Nat} {v : Option Int} {s₁ s₂ : St ι} (h : Same s s₁) (hn : p.ArgOk n)
    (hs : argint p n s₁ = (.ok v, s₂)) : v = some (s.int p.who (p.argAddr n)) ∧ Same s s₂ := by
  obtain ⟨h1, -, h2, h3⟩ := argint_ok hs
  rw [h1 hn, h.int]
  exact ⟨rfl, h.trans ⟨h2, h3⟩⟩

omit [DecidableEq ι] in
theorem fetch_ptr_same {n : Nat} {size : UInt32} {v : Option UInt32} {s₁ s₂ : St ι} (h : Same s s₁) (hn : p.ArgOk n)
    (hp : p.PtrOk (s.int p.who (p.argAddr n)) size) (hs : argptr p n size s₁ = (.ok v, s₂)) :
    v = some (uint (s.int p.who (p.argAddr n))) ∧ Same s s₂ := by
  obtain ⟨x, s3, hx, hs⟩ := bind_run_ok hs
  obtain ⟨rfl, h3⟩ := fetch_same h hn hx
  dsimp only at hs
  rw [if_neg hp] at hs
  cases hs
  exact ⟨rfl, h3⟩

omit [DecidableEq ι] in
theorem readable_of_ptrOk {x : Int} {size : UInt32} (hp : p.PtrOk x size) (hsize : size.toNat ≤ 2 ^ 31)
    (hm : g.Mapped p) (j : Nat) (hj : j < size.toNat) : p.readable (uint x + UInt32.ofNat j) := by
  have hsz : p.sz.toNat ≤ 2 ^ 31 := UInt32.le_iff_toNat_le.1 hm.size
  unfold Proc.PtrOk at hp
  rw [not_or, ge_iff_le, gt_iff_lt, UInt32.le_iff_toNat_le, UInt32.lt_iff_toNat_lt, UInt32.toNat_add] at hp
  refine hm.user _ ?_
  rw [UInt32.lt_iff_toNat_lt, UInt32.toNat_add, UInt32.toNat_ofNat']
  omega

theorem sys_canvas (hg : g.Layout) (c : HandleCall) (hs : c.sys g p s = (.ok r, s')) (h0 : p.ArgOk 0)
    (hargs : c.ArgsOk p s) (hslot : (c.op p s).handle = g.entry i)
    (hin : ∀ q ∈ (c.op p s).pixels ((canvas g s).ctx i), Canvas.Inside q) (hsmall : (c.op p s).Small) :
    canvas g s' = (canvas g s).apply ((c.op p s).on i) := by
  obtain ⟨v, s1, hv, hs⟩ := bind_run_ok hs
  obtain ⟨rfl, h1⟩ := fetch_same ⟨rfl, rfl⟩ h0 hv
  rw [HandleCall.op_handle] at hslot
  have hpoint : ∀ (f : Int → Int → K ι Int) (Q : Int → St ι → Prop), p.ArgOk 1 ∧ p.ArgOk 2 →
      withPoint p f s1 = (.ok r, s') → (∀ s2, Same s s2 →
        Meets (f (s.int p.who (p.argAddr 1)) (s.int p.who (p.argAddr 2))) s2 Q (Trap g p True)) → Q r s' := by
    intro f Q ha hs hf
    obtain ⟨x, s2, hx, hs⟩ := bind_run_ok hs
    obtain ⟨rfl, h2⟩ := fetch_same h1 ha.1 hx
    obtain ⟨y, s3, hy, hs⟩ := bind_run_ok hs
    obtain ⟨rfl, h3⟩ := fetch_same h2 ha.2 hy
    exact (hf s3 h3).run_ok hs
  have hint := fun n => s.i32_int p.who (p.argAddr n)
  cases c with
  | setpixel =>
    refine hpoint _ (fun _ s' => canvas g s' = _) hargs hs fun s2 h2 => ?_
    rw [← h2.canvas]
    exact setpixel_meets hg hslot (hin _ (List.mem_singleton_self _))
  | moveto =>
    refine hpoint _ (fun _ s' => canvas g s' = _) hargs hs fun s2 h2 => ?_
    rw [← h2.canvas]
    exact moveto_meets hg hslot (hint 1) (hint 2)
  | lineto =>
    refine hpoint _ (fun _ s' => canvas g s' = _) hargs hs fun s2 h2 => ?_
    rw [← h2.canvas] at hin ⊢
    exact lineto_meets hg hslot (hint 1) (hint 2) (fun _ => trivial) hin
  | selectpen =>
    obtain ⟨x, s2, hx, hs⟩ := bind_run_ok hs
    obtain ⟨rfl, h2⟩ := fetch_same h1 hargs hx
    rw [← h2.canvas]
    exact Meets.run_ok (E := Trap g p True) (selectpen_meets hg hslot (hint 1) hsmall) hs
  | fillrect =>
    obtain ⟨x, s2, hx, hs⟩ := bind_run_ok hs
    obtain ⟨rfl, h2⟩ := fetch_ptr_same h1 hargs.1 hargs.2 hx
    rw [← h2.canvas]
    exact Meets.run_ok (E := Trap g p True) (fillrect_meets hg hslot
      (fun hm j hj => readable_of_ptrOk hargs.2 (by decide) hm j hj) (by rw [h2.int]) (by rw [h2.int]) (by rw [h2.int])
      (by rw [h2.int]) (fun _ => trivial) hin) hs
  | endpaint =>
    rw [← h1.canvas]
    exact Meets.run_ok (E := Trap g p True) (endpaint_meets hg hslot) hs

end Sys

/-! ### What a process sees -/

structure Pen where
  x : Int
  y : Int
  colour : Int
  deriving DecidableEq

def HDC.pen (c : HDC) : Pen := ⟨c.x, c.y, c.colour⟩

def penAt (s : St ι) (q : ι) (a : UInt32) : Pen :=
  ⟨s.int q (a + Field.x.offset), s.int q (a + Field.y.offset), s.int q (a + Field.colour.offset)⟩

/-- A call of a process, with its contexts numbered in the order it has begun them. -/
inductive Event
  | begin
  | call (op : Op Nat)
  | rejected -- a call that returned -1 because of an argument outside the process's memory
  deriving DecidableEq

/-- The contexts of one process: how many it has begun, and those it has not ended. -/
structure Pens where
  begun : Nat
  pen : Nat → Option Pen

/-- What a call other than `endpaint` does to its context when no colour above 15 has been made. -/
def Op.pen {κ : Type} (op : Op κ) (w : Pen) : Pen := (op.ctx (fun _ => false) ⟨w.x, w.y, w.colour, 0⟩).pen

def Pens.step (P : Pens) : Event → Pens
  | .begin => ⟨P.begun + 1, update P.pen P.begun (some ⟨0, 0, 15⟩)⟩
  | .call (.endpaint k) => ⟨P.begun, update P.pen k none⟩
  | .call op => ⟨P.begun, update P.pen op.handle ((P.pen op.handle).map op.pen)⟩
  | .rejected => P

def pens (calls : List Event) : Pens := calls.foldl Pens.step ⟨0, fun _ => none⟩

theorem Pens.step_call {op : Op Nat} (hop : ∀ h, op ≠ .endpaint h) (P : Pens) :
    P.step (.call op) = ⟨P.begun, update P.pen op.handle ((P.pen op.handle).map op.pen)⟩ := by
  cases op with
  | endpaint h => exact absurd rfl (hop h)
  | _ => rfl

theorem pens_concat (calls : List Event) (e : Event) : pens (calls ++ [e]) = (pens calls).step e := by
  rw [pens, List.foldl_append]
  rfl

/-! ### History -/

structure Hist (ι : Type) where
  begun : ι → Nat
  handle : ι → Nat → Option UInt32 -- the handle of a process's `k`-th context, until it is ended
  calls : ι → List Event
  inUse : Nat -- contexts begun and not ended, of all processes

namespace Hist

def init : Hist ι := ⟨fun _ => 0, fun _ _ => none, fun _ => [], 0⟩

variable [DecidableEq ι] (h : Hist ι) (q : ι)

def log (e : Event) : Hist ι := { h with calls := update h.calls q (h.calls q ++ [e]) }

def begin (a : UInt32) : Hist ι :=
  { h with
    begun := update h.begun q (h.begun q + 1)
    handle := update h.handle q (update (h.handle q) (h.begun q) (some a))
    inUse := h.inUse + 1 }.log q .begin

def close (k : Nat) : Hist ι :=
  { h with
    handle := update h.handle q (update (h.handle q) k none)
    inUse := h.inUse - 1 }.log q (.call (.endpaint k))

def number (a : UInt32) : Option Nat := (List.range (h.begun q)).find? fun k => h.handle q k = some a

theorem calls_log (e : Event) (q' : ι) :
    (h.log q e).calls q' = if q' = q then h.calls q ++ [e] else h.calls q' :=
  Function.update_apply ..

theorem handle_begin (a : UInt32) (q' : ι) (k : Nat) :
    (h.begin q a).handle q' k = if q' = q ∧ k = h.begun q then some a else h.handle q' k := by
  show update h.handle q (update (h.handle q) (h.begun q) (some a)) q' k = _
  rw [Function.update_apply]
  by_cases hq : q' = q
  · subst hq
    rw [if_pos rfl, Function.update_apply]
    simp
  · simp [hq]

theorem handle_close (k : Nat) (q' : ι) (k' : Nat) :
    (h.close q k).handle q' k' = if q' = q ∧ k' = k then none else h.handle q' k' := by
  show update h.handle q (update (h.handle q) k none) q' k' = _
  rw [Function.update_apply]
  by_cases hq : q' = q
  · subst hq
    rw [if_pos rfl, Function.update_apply]
    simp
  · simp [hq]

theorem begun_begin (a : UInt32) (q' : ι) :
    (h.begin q a).begun q' = if q' = q then h.begun q + 1 else h.begun q' :=
  Function.update_apply ..

theorem calls_begin (a : UInt32) (q' : ι) :
    (h.begin q a).calls q' = if q' = q then h.calls q ++ [.begin] else h.calls q' :=
  Function.update_apply ..

theorem calls_close (k : Nat) (q' : ι) :
    (h.close q k).calls q' = if q' = q then h.calls q ++ [.call (.endpaint k)] else h.calls q' :=
  Function.update_apply ..

end Hist

theorem Op.handle_on {κ κ' : Type} (op : Op κ) (x : κ') : (op.on x).handle = x := by cases op <;> rfl

theorem Op.ctx_on {κ κ' : Type} (op : Op κ) (x : κ') (known : Int → Bool) (c : HDC) :
    (op.on x).ctx known c = op.ctx known c := by
  cases op <;> rfl

theorem Op.pen_on {κ κ' : Type} (op : Op κ) (x : κ') : (op.on x).pen = op.pen := by
  funext w
  unfold Op.pen
  rw [Op.ctx_on]

theorem Op.on_ne_endpaint {κ κ' : Type} {op : Op κ} (hop : ∀ h, op ≠ .endpaint h) (x : κ') :
    ∀ h, op.on x ≠ .endpaint h := by
  cases op with
  | endpaint h => exact absurd rfl (hop h)
  | _ => exact nofun

theorem Op.ctx_pid {κ : Type} {op : Op κ} (hop : ∀ h, op ≠ .endpaint h) (known : Int → Bool) (c : HDC) :
    (op.ctx known c).pid = c.pid := by
  cases op with
  | selectpen h index =>
    unfold Op.ctx
    dsimp only
    split <;> rfl
  | endpaint h => exact absurd rfl (hop h)
  | _ => rfl

theorem Op.ctx_pen {κ : Type} {op : Op κ} (c : HDC) : (op.ctx (fun _ => false) c).pen = op.pen c.pen := by
  cases op with
  | selectpen h index =>
    unfold Op.pen Op.ctx
    dsimp only
    split <;> rfl
  | _ => rfl

/-! ### The invariant -/

structure Owned (g : Symbols) (pid : ι → Int) (c : Canvas) (h : Hist ι) : Prop where
  written : ∀ i, c.written i ≠ 1
  boot : c.first ≠ 1 → (∀ q k, h.handle q k = none) ∧ h.inUse = 0
  begun : ∀ q, (pens (h.calls q)).begun = h.begun q
  lt : ∀ {q k a}, h.handle q k = some a → k < h.begun q
  slot : ∀ {q k a}, h.handle q k = some a → ∃ i : Fin MAX_PROCESSES,
    a = g.entry i ∧ (c.ctx i).pid = pid q ∧ (pens (h.calls q)).pen k = some (c.ctx i).pen
  ended : ∀ {q k}, h.handle q k = none → (pens (h.calls q)).pen k = none
  inj : ∀ {q k q' k' a}, h.handle q k = some a → h.handle q' k' = some a → q = q' ∧ k = k'
  used : c.first = 1 → ∀ i, (c.ctx i).pid ≠ -1 → ∃ q k, h.handle q k = some (g.entry i)
  free : c.first = 1 → ∀ i, (c.ctx i).pid = -1 → c.ctx i = HDC.free
  count : c.first = 1 → (Finset.univ.filter fun i => (c.ctx i).pid ≠ -1).card = h.inUse

theorem Symbols.Layout.entry_inj {g : Symbols} (hg : g.Layout) {i j : Fin MAX_PROCESSES} (h : g.entry i = g.entry j) :
    i = j := by
  have h1 := hg.toNat_field i .x
  have h2 := hg.toNat_field j .x
  unfold Symbols.field at h1 h2
  rw [h, h2] at h1
  exact Fin.ext (by omega)

namespace Owned

variable {g : Symbols} {pid : ι → Int} {c : Canvas} {h : Hist ι} {q : ι} {k : Nat} {i : Fin MAX_PROCESSES}

theorem init (hw : ∀ i, c.written i ≠ 1) (hf : c.first ≠ 1) : Owned g pid c (Hist.init : Hist ι) :=
  ⟨hw, fun _ => ⟨fun _ _ => rfl, rfl⟩, fun _ => rfl, nofun, nofun, fun _ => rfl, nofun, fun h => absurd h hf,
    fun h => absurd h hf, fun h => absurd h hf⟩

theorem ready (hi : Owned g pid c h) : Owned g pid c.ready h := by
  unfold Canvas.ready
  split
  · exact hi
  · rename_i hf
    obtain ⟨hnone, huse⟩ := hi.boot hf
    refine ⟨hi.written, fun h => absurd rfl h, hi.begun, hi.lt, fun ha => ?_, hi.ended, hi.inj,
      fun _ i hne => absurd rfl hne, fun _ _ _ => rfl, fun _ => ?_⟩
    · rw [hnone] at ha
      cases ha
    · rw [huse, Finset.card_eq_zero, Finset.filter_eq_empty_iff]
      exact fun i _ hne => hne rfl

theorem exists_free (hi : Owned g pid c h) (hf : c.first = 1) (huse : h.inUse < MAX_PROCESSES) :
    ∃ i, (c.ctx i).pid = -1 := by
  by_contra hnone
  have hall : (Finset.univ.filter fun i => (c.ctx i).pid ≠ -1) = Finset.univ :=
    Finset.filter_true_of_mem fun i _ h => hnone ⟨i, h⟩
  have hcount := hi.count hf
  rw [hall, Finset.card_univ, Fintype.card_fin] at hcount
  omega

theorem ne_of_free (hg : g.Layout) (hpid : ∀ q, pid q ≠ -1) (hi : Owned g pid c h) (hk : (c.ctx i).pid = -1)
    {j : Fin MAX_PROCESSES} (ha : h.handle q k = some (g.entry j)) : j ≠ i := by
  rintro rfl
  obtain ⟨j', hj, hp, -⟩ := hi.slot ha
  rw [← hg.entry_inj hj, hk] at hp
  exact hpid q hp.symm

theorem known (hi : Owned g pid c h) : c.known = fun _ => false := by
  funext index
  unfold Canvas.known
  split
  · exact decide_eq_false (hi.written _)
  · rfl

variable [DecidableEq ι]

theorem rejected (hi : Owned g pid c h) : Owned g pid c (h.log q .rejected) := by
  have hpens : ∀ q', pens ((h.log q .rejected).calls q') = pens (h.calls q') := by
    intro q'
    rw [Hist.calls_log]
    split
    · subst q'
      exact pens_concat _ _
    · rfl
  refine ⟨hi.written, hi.boot, fun q' => ?_, hi.lt, fun {q' k a} ha => ?_, fun {q' k} ha => ?_, hi.inj, hi.used, hi.free,
    hi.count⟩
  · rw [hpens]
    exact hi.begun q'
  · rw [hpens]
    exact hi.slot ha
  · rw [hpens]
    exact hi.ended ha

theorem begin (hg : g.Layout) (hpid : ∀ q, pid q ≠ -1) (hi : Owned g pid c h) (hf : c.first = 1)
    (hk : (c.ctx i).pid = -1) (q : ι) :
    Owned g pid (c.setCtx i { c.ctx i with pid := pid q }) (h.begin q (g.entry i)) := by
  have hnew : ∀ {q' k}, q' = q ∧ k = h.begun q → h.handle q' k = none := by
    rintro q' k ⟨rfl, rfl⟩
    by_contra hne
    obtain ⟨a, ha⟩ := Option.ne_none_iff_exists'.1 hne
    exact absurd (hi.lt ha) (Nat.lt_irrefl _)
  have hpen : ∀ q' k, (pens ((h.begin q (g.entry i)).calls q')).pen k =
      if q' = q ∧ k = h.begun q then some ⟨0, 0, 15⟩ else (pens (h.calls q')).pen k := by
    intro q' k
    rw [Hist.calls_begin]
    by_cases hq : q' = q
    · subst hq
      rw [if_pos rfl, pens_concat]
      show update _ _ _ k = _
      rw [Function.update_apply, hi.begun]
      simp
    · simp [hq]
  refine ⟨hi.written, fun h => absurd hf h, fun q' => ?_, fun {q' k a} ha => ?_, fun {q' k a} ha => ?_,
    fun {q' k} ha => ?_, fun {q1 k1 q2 k2 a} h1 h2 => ?_, fun _ j hj => ?_, fun _ j hj => ?_, fun _ => ?_⟩
  · rw [Hist.calls_begin, Hist.begun_begin]
    split
    · rw [pens_concat, ← hi.begun q]
      rfl
    · exact hi.begun q'
  · rw [Hist.begun_begin]
    rw [Hist.handle_begin] at ha
    split at ha
    · rename_i hq
      rw [if_pos hq.1, hq.2]
      exact Nat.lt_succ_self _
    · have := hi.lt ha
      split
      · subst q'
        omega
      · exact this
  · rw [hpen]
    rw [Hist.handle_begin] at ha
    split at ha
    · rename_i hq
      refine ⟨i, (Option.some.inj ha).symm, ?_, ?_⟩
      · rw [Canvas.setCtx_self, hq.1]
      · rw [if_pos hq, Canvas.setCtx_self, hi.free hf i hk]
        rfl
    · rename_i hq
      obtain ⟨j, rfl, hp, hw⟩ := hi.slot ha
      have hji := hi.ne_of_free hg hpid hk ha
      exact ⟨j, rfl, by rwa [Canvas.setCtx_ne _ hji], by rwa [if_neg hq, Canvas.setCtx_ne _ hji]⟩
  · rw [hpen]
    rw [Hist.handle_begin] at ha
    split at ha
    · cases ha
    · rename_i hq
      rw [if_neg hq]
      exact hi.ended ha
  · rw [Hist.handle_begin] at h1 h2
    split at h1
    · rename_i hq1
      split at h2
      · rename_i hq2
        exact ⟨hq1.1.trans hq2.1.symm, hq1.2.trans hq2.2.symm⟩
      · rw [← Option.some.inj h1] at h2
        exact absurd rfl (hi.ne_of_free hg hpid hk h2)
    · split at h2
      · rw [← Option.some.inj h2] at h1
        exact absurd rfl (hi.ne_of_free hg hpid hk h1)
      · exact hi.inj h1 h2
  · by_cases hji : j = i
    · subst hji
      exact ⟨q, h.begun q, by rw [Hist.handle_begin, if_pos ⟨rfl, rfl⟩]⟩
    · rw [Canvas.setCtx_ne _ hji] at hj
      obtain ⟨q', k, ha⟩ := hi.used hf j hj
      refine ⟨q', k, ?_⟩
      rw [Hist.handle_begin, if_neg fun hq => ?_, ha]
      rw [hnew hq] at ha
      cases ha
  · by_cases hji : j = i
    · subst hji
      rw [Canvas.setCtx_self] at hj
      exact absurd hj (hpid q)
    · rw [Canvas.setCtx_ne _ hji] at hj ⊢
      exact hi.free hf j hj
  · have hins : (Finset.univ.filter fun j => ((c.setCtx i { c.ctx i with pid := pid q }).ctx j).pid ≠ -1) =
        insert i (Finset.univ.filter fun j => (c.ctx j).pid ≠ -1) := by
      ext j
      by_cases hji : j = i
      · subst hji
        simp [Canvas.setCtx_self, hpid q]
      · simp [Canvas.setCtx_ne _ hji, hji]
    rw [hins, Finset.card_insert_of_notMem (by simp [hk]), hi.count hf]
    rfl

theorem call (hg : g.Layout) (hpid : ∀ q, pid q ≠ -1) {κ : Type} {op : Op κ} (hop : ∀ h, op ≠ .endpaint h)
    (hi : Owned g pid c h)
    (hh : h.handle q k = some (g.entry i)) : Owned g pid (c.apply (op.on i)) (h.log q (.call (op.on k))) := by
  have hself : (c.apply (op.on i)).ctx i = op.ctx (fun _ => false) (c.ctx i) := by
    unfold Canvas.apply
    rw [Op.handle_on, Canvas.setCtx_self, Op.ctx_on, hi.known]
  have hother : ∀ {j}, j ≠ i → (c.apply (op.on i)).ctx j = c.ctx j := by
    intro j hj
    unfold Canvas.apply
    rw [Op.handle_on, Canvas.setCtx_ne _ hj, Canvas.draw_ctx]
  have hpids : ∀ j, ((c.apply (op.on i)).ctx j).pid = (c.ctx j).pid := by
    intro j
    by_cases hj : j = i
    · subst hj
      rw [hself, Op.ctx_pid hop]
    · rw [hother hj]
  have hfirst : (c.apply (op.on i)).first = c.first := by
    unfold Canvas.apply
    rw [Canvas.draw_eq]
    rfl
  have hwritten : (c.apply (op.on i)).written = c.written := by
    unfold Canvas.apply
    rw [Canvas.draw_eq]
    rfl
  have hpens : ∀ q', pens ((h.log q (.call (op.on k))).calls q') =
      if q' = q then ⟨(pens (h.calls q)).begun, update (pens (h.calls q)).pen k
        (((pens (h.calls q)).pen k).map op.pen)⟩ else pens (h.calls q') := by
    intro q'
    rw [Hist.calls_log]
    split
    · rw [pens_concat, Pens.step_call (Op.on_ne_endpaint hop k), Op.handle_on, Op.pen_on]
    · rfl
  obtain ⟨i', hi', -, hw⟩ := hi.slot hh
  obtain rfl := hg.entry_inj hi'
  refine ⟨by rw [hwritten]; exact hi.written, by rw [hfirst]; exact hi.boot, fun q' => ?_, hi.lt, fun {q' k' a} ha => ?_,
    fun {q' k'} ha => ?_, hi.inj, fun hf j hj => ?_, fun hf j hj => ?_, fun hf => ?_⟩
  · rw [hpens]
    split
    · subst q'
      exact hi.begun q
    · exact hi.begun q'
  · change h.handle q' k' = some a at ha
    obtain ⟨j, rfl, hp, hw'⟩ := hi.slot ha
    refine ⟨j, rfl, (hpids j).trans hp, ?_⟩
    rw [hpens]
    by_cases hj : j = i
    · subst hj
      obtain ⟨rfl, rfl⟩ := hi.inj ha hh
      rw [if_pos rfl, hself, Op.ctx_pen]
      show update _ _ _ _ = _
      rw [update_self, hw]
      rfl
    · rw [hother hj]
      split
      · subst q'
        show update _ _ _ _ = _
        rw [update_of_ne, hw']
        rintro rfl
        rw [hh] at ha
        exact hj (hg.entry_inj (Option.some.inj ha)).symm
      · exact hw'
  · change h.handle q' k' = none at ha
    rw [hpens]
    split
    · subst q'
      show update _ _ _ _ = _
      rw [update_of_ne, hi.ended ha]
      rintro rfl
      rw [hh] at ha
      cases ha
    · exact hi.ended ha
  · rw [hfirst] at hf
    rw [hpids] at hj
    exact hi.used hf j hj
  · rw [hfirst] at hf
    rw [hpids] at hj
    by_cases hji : j = i
    · subst hji
      exact absurd rfl (hi.ne_of_free hg hpid hj hh)
    · rw [hother hji]
      exact hi.free hf j hj
  · rw [hfirst] at hf
    simp only [hpids]
    exact hi.count hf

theorem close (hg : g.Layout) (hpid : ∀ q, pid q ≠ -1) (hi : Owned g pid c h) (hh : h.handle q k = some (g.entry i)) :
    Owned g pid (c.apply (.endpaint i)) (h.close q k) := by
  have happly : c.apply (.endpaint i) = c.setCtx i HDC.free := rfl
  have hslot : ∀ {q' k'} {j : Fin MAX_PROCESSES}, ¬ (q' = q ∧ k' = k) → h.handle q' k' = some (g.entry j) → j ≠ i := by
    rintro q' k' j hne ha rfl
    exact hne (hi.inj ha hh)
  have hpen : ∀ q' k', (pens ((h.close q k).calls q')).pen k' =
      if q' = q ∧ k' = k then none else (pens (h.calls q')).pen k' := by
    intro q' k'
    rw [Hist.calls_close]
    by_cases hq : q' = q
    · subst hq
      rw [if_pos rfl, pens_concat]
      show update _ _ _ k' = _
      rw [Function.update_apply]
      simp
    · simp [hq]
  rw [happly]
  refine ⟨hi.written, fun hf => ?_, fun q' => ?_, fun {q' k' a} ha => ?_, fun {q' k' a} ha => ?_, fun {q' k'} ha => ?_,
    fun {q1 k1 q2 k2 a} h1 h2 => ?_, fun hf j hj => ?_, fun hf j hj => ?_, fun hf => ?_⟩
  · rw [(hi.boot hf).1] at hh
    cases hh
  · rw [Hist.calls_close]
    split
    · subst q'
      rw [pens_concat]
      exact hi.begun q
    · exact hi.begun q'
  · rw [Hist.handle_close] at ha
    split at ha
    · cases ha
    · exact hi.lt ha
  · rw [Hist.handle_close] at ha
    split at ha
    · cases ha
    · rename_i hne
      obtain ⟨j, rfl, hp, hw⟩ := hi.slot ha
      have hj := hslot hne ha
      exact ⟨j, rfl, by rwa [Canvas.setCtx_ne _ hj], by rwa [hpen, if_neg hne, Canvas.setCtx_ne _ hj]⟩
  · rw [hpen]
    rw [Hist.handle_close] at ha
    split
    · rfl
    · rename_i hne
      rw [if_neg hne] at ha
      exact hi.ended ha
  · rw [Hist.handle_close] at h1 h2
    split at h1
    · cases h1
    · split at h2
      · cases h2
      · exact hi.inj h1 h2
  · by_cases hji : j = i
    · subst hji
      rw [Canvas.setCtx_self] at hj
      exact absurd rfl hj
    · rw [Canvas.setCtx_ne _ hji] at hj
      obtain ⟨q', k', ha⟩ := hi.used hf j hj
      refine ⟨q', k', ?_⟩
      rw [Hist.handle_close, if_neg ?_, ha]
      rintro ⟨rfl, rfl⟩
      rw [hh] at ha
      exact hji (hg.entry_inj (Option.some.inj ha)).symm
  · by_cases hji : j = i
    · rw [hji, Canvas.setCtx_self]
    · rw [Canvas.setCtx_ne _ hji] at hj ⊢
      exact hi.free hf j hj
  · obtain ⟨i', hi', hp, -⟩ := hi.slot hh
    obtain rfl := hg.entry_inj hi'
    have hera : (Finset.univ.filter fun j => ((c.setCtx i HDC.free).ctx j).pid ≠ -1) =
        (Finset.univ.filter fun j => (c.ctx j).pid ≠ -1).erase i := by
      ext j
      by_cases hji : j = i
      · subst hji
        simp only [Finset.mem_filter, Finset.mem_univ, true_and, Finset.mem_erase, Canvas.setCtx_self]
        simp [HDC.free]
      · simp [Canvas.setCtx_ne _ hji, hji]
    rw [hera, Finset.card_erase_of_mem (by simp [hp, hpid q]), hi.count hf]
    rfl

end Owned

/-! ### Runs -/

section Runs

variable [DecidableEq ι] (g : Symbols)

instance (p : Proc ι) (n : Nat) : Decidable (p.ArgOk n) := inferInstanceAs (Decidable (¬ _))

instance (p : Proc ι) (x : Int) (size : UInt32) : Decidable (p.PtrOk x size) := inferInstanceAs (Decidable (¬ _))

instance (p : Proc ι) (s : St ι) (c : HandleCall) : Decidable (c.ArgsOk p s) :=
  match c with
  | .setpixel => inferInstanceAs (Decidable (_ ∧ _))
  | .moveto => inferInstanceAs (Decidable (_ ∧ _))
  | .lineto => inferInstanceAs (Decidable (_ ∧ _))
  | .selectpen => inferInstanceAs (Decidable (p.ArgOk 1))
  | .fillrect => inferInstanceAs (Decidable (_ ∧ _))
  | .endpaint => inferInstanceAs (Decidable True)

def Hist.record (h : Hist ι) (q : ι) (k : Nat) : Op UInt32 → Hist ι
  | .endpaint _ => h.close q k
  | op => h.log q (.call (op.on k))

/-- The history beside the machine. A process passes only handles of contexts it has begun and not ended,
and nobody calls `setpencolour`. -/
def upd (s : St ι) (a : Act ι) (_ : St ι) (h : Hist ι) : Option (Hist ι) :=
  match a with
  | .user _ _ => some h
  | .call _ .setpencolour => none
  | .call p .beginpaint =>
    match (beginpaint g p s).1 with
    | .ok r => some (h.begin p.who (uint r))
    | .error _ => none
  | .call p (.handle c) =>
    if p.ArgOk 0 ∧ c.ArgsOk p s then
      (h.number p.who (c.op p s).handle).map fun k => h.record p.who k (c.op p s)
    else some (h.log p.who .rejected)

def hdcAt (s : St ι) (q : ι) (a : UInt32) : HDC := HDC.ofFields fun f => s.int q (a + f.offset)

/-- Fewer than `MAX_PROCESSES` contexts are in use when one is begun, and drawing stays in the buffer. -/
def Fits (pid : ι → Int) (x : St ι × Hist ι) : Act ι → Prop
  | .user _ _ => True
  | .call p c => p.pid = pid p.who ∧ match c with
    | .setpencolour => True
    | .beginpaint => x.2.inUse < MAX_PROCESSES
    | .handle c => p.ArgOk 0 ∧ c.ArgsOk p x.1 →
      ∀ q ∈ (c.op p x.1).pixels (hdcAt x.1 p.who (c.op p x.1).handle), Canvas.Inside q

def Selects (x : St ι × Hist ι) : Act ι → Prop
  | .call p (.handle c) => p.ArgOk 0 ∧ c.ArgsOk p x.1 → (c.op p x.1).Small
  | _ => True

instance (q : Int × Int) : Decidable (Canvas.Inside q) := inferInstanceAs (Decidable (_ ∧ _))

instance {κ : Type} (op : Op κ) : Decidable op.Small :=
  match op with
  | .selectpen _ index => inferInstanceAs (Decidable (index < COLOURS))
  | .setpixel _ _ _ => inferInstanceAs (Decidable True)
  | .moveto _ _ _ => inferInstanceAs (Decidable True)
  | .lineto _ _ _ => inferInstanceAs (Decidable True)
  | .fillrect _ _ _ _ _ => inferInstanceAs (Decidable True)
  | .endpaint _ => inferInstanceAs (Decidable True)

instance (pid : ι → Int) (x : St ι × Hist ι) (a : Act ι) : Decidable (Fits pid x a) :=
  match a with
  | .user _ _ => inferInstanceAs (Decidable True)
  | .call _ .setpencolour => inferInstanceAs (Decidable (_ ∧ True))
  | .call _ .beginpaint => inferInstanceAs (Decidable (_ ∧ x.2.inUse < MAX_PROCESSES))
  | .call p (.handle c) => inferInstanceAs (Decidable (_ ∧ (p.ArgOk 0 ∧ c.ArgsOk p x.1 →
      ∀ q ∈ (c.op p x.1).pixels (hdcAt x.1 p.who (c.op p x.1).handle), Canvas.Inside q)))

instance (x : St ι × Hist ι) (a : Act ι) : Decidable (Selects x a) :=
  match a with
  | .user _ _ => inferInstanceAs (Decidable True)
  | .call _ .setpencolour => inferInstanceAs (Decidable True)
  | .call _ .beginpaint => inferInstanceAs (Decidable True)
  | .call p (.handle c) => inferInstanceAs (Decidable (p.ArgOk 0 ∧ c.ArgsOk p x.1 → (c.op p x.1).Small))

end Runs

section Reachable

variable {g : Symbols} {pid : ι → Int} {x y : St ι × Hist ι} {a : Act ι}

theorem hdcAt_entry (hg : g.Layout) (s : St ι) (q : ι) (i : Fin MAX_PROCESSES) :
    hdcAt s q (g.entry i) = (canvas g s).ctx i :=
  congrArg HDC.ofFields (funext fun f => St.int_eq_kint (hg.field i f))

theorem penAt_entry (hg : g.Layout) (s : St ι) (q : ι) (i : Fin MAX_PROCESSES) :
    penAt s q (g.entry i) = ((canvas g s).ctx i).pen := by
  rw [← hdcAt_entry hg s q i]
  rfl

def Pids (pid : ι → Int) : Prop := ∀ q, 0 < pid q ∧ pid q < 2 ^ 31

theorem Pids.ne (hpid : Pids pid) (q : ι) : pid q ≠ -1 := by
  have := hpid q
  omega

theorem number_eq {h : Hist ι} {q : ι} {a : UInt32} {k : Nat} (hk : h.number q a = some k) : h.handle q k = some a := by
  have := List.find?_some hk
  simpa using this

theorem Owned.pen_eq (hg : g.Layout) {s : St ι} {h : Hist ι} (hi : Owned g pid (canvas g s) h) (q : ι) (k : Nat) :
    (h.handle q k).map (penAt s q) = (pens (h.calls q)).pen k := by
  rcases ha : h.handle q k with _ | a
  · exact (hi.ended ha).symm
  · obtain ⟨i, rfl, -, hw⟩ := hi.slot ha
    rw [hw, Option.map_some, penAt_entry hg]

theorem Canvas.ready_first (c : Canvas) : c.ready.first = 1 := by
  unfold Canvas.ready
  split
  · assumption
  · rfl

variable [DecidableEq ι]

theorem beginpaint_free (hg : g.Layout) (hpid : Pids pid) {p : Proc ι} {r : Int} {s s' : St ι} {h : Hist ι}
    (hi : Owned g pid (canvas g s) h) (hp : p.pid = pid p.who) (huse : h.inUse < MAX_PROCESSES)
    (hs : beginpaint g p s = (.ok r, s')) : ∃ k : Fin MAX_PROCESSES, uint r = g.entry k ∧
      ((canvas g s).ready.ctx k).pid = -1 ∧
      canvas g s' = (canvas g s).ready.setCtx k { (canvas g s).ready.ctx k with pid := pid p.who } := by
  have hfree := hi.ready.exists_free (Canvas.ready_first _) huse
  have hrange : i32 p.pid = p.pid := by
    rw [hp, i32_eq_self]
    have := hpid p.who
    omega
  rw [← hp]
  exact Meets.run_ok (E := Trap g p True) (beginpaint_meets hg hrange hfree) hs

theorem Owned.step (hg : g.Layout) (hpid : Pids pid) (hi : Owned g pid (canvas g x.1) x.2) (hfit : Fits pid x a)
    (hsel : Selects x a) (hs : step g x.1 a = some y.1) (hu : upd g x.1 a y.1 x.2 = some y.2) :
    Owned g pid (canvas g y.1) y.2 := by
  obtain ⟨s, h⟩ := x
  obtain ⟨s', h'⟩ := y
  dsimp only at *
  cases a with
  | user who mem =>
    cases Option.some.inj hs
    cases Option.some.inj hu
    have hc : canvas g { s with user := update s.user who mem } = canvas g s := canvas_congr rfl
    rw [hc]
    exact hi
  | call p c =>
    obtain ⟨hp, hfit⟩ := hfit
    obtain ⟨r, hr⟩ : ∃ r, c.sys g p s = (.ok r, s') := by
      unfold Graphics.step at hs
      dsimp only at hs
      split at hs
      · rename_i r s1 heq
        cases hs
        exact ⟨r, heq⟩
      · cases hs
    cases c with
    | setpencolour => cases hu
    | beginpaint =>
      change beginpaint g p s = (.ok r, s') at hr
      unfold upd at hu
      dsimp only at hu
      rw [hr] at hu
      cases Option.some.inj hu
      obtain ⟨k, hk, hfree, hc⟩ := beginpaint_free hg hpid hi hp hfit hr
      rw [hc, hk]
      exact hi.ready.begin hg hpid.ne (Canvas.ready_first _) hfree p.who
    | handle c =>
      change c.sys g p s = (.ok r, s') at hr
      unfold upd at hu
      dsimp only at hu
      by_cases hargs : p.ArgOk 0 ∧ c.ArgsOk p s
      · rw [if_pos hargs] at hu
        obtain ⟨k, hk, hrec⟩ := Option.map_eq_some_iff.1 hu
        have hh := number_eq hk
        obtain ⟨i, hslot, -⟩ := hi.slot hh
        rw [hslot] at hh
        have hin := hfit hargs
        rw [hslot, hdcAt_entry hg] at hin
        rw [sys_canvas hg c hr hargs.1 hargs.2 hslot hin (hsel hargs), ← hrec]
        generalize c.op p s = op
        cases op with
        | endpaint a => exact hi.close hg hpid.ne hh
        | _ => exact hi.call hg hpid.ne nofun hh
      · rw [if_neg hargs] at hu
        cases Option.some.inj hu
        rw [canvas_congr ((sys_returns c hr).2 hargs).2.1]
        exact hi.rejected

theorem reachable_owned (hg : g.Layout) (hpid : Pids pid) {u : ι → UInt32 → UInt8}
    (hx : Machine.Reach (Machine.along (step g) (upd g)) (fun x a => Fits pid x a ∧ Selects x a)
      (init u, Hist.init) x) : Owned g pid (canvas g x.1) x.2 := by
  refine hx.inv (I := fun x => Owned g pid (canvas g x.1) x.2) ?_ fun x a y hi hok hs => ?_
  · have hzero : ∀ a, (init u : St ι).kint a = 0 := by
      intro a
      have hle : Bytes.leNat (fun i => (init u : St ι).kernel (a + UInt32.ofNat i)) 0 4 = 0 :=
        Bytes.leNat_zero fun _ _ _ => rfl
      unfold St.kint
      rw [hle]
      rfl
    refine Owned.init (fun i hi => ?_) fun hf => ?_
    · exact absurd ((hzero _).symm.trans hi) (by decide)
    · exact absurd ((hzero _).symm.trans hf) (by decide)
  · obtain ⟨hs, hu⟩ := Machine.along_eq hs
    exact hi.step hg hpid hok.1 hok.2 hs hu

/-- In any two runs in which process `A` makes the same calls, its contexts have the same positions and colours,
whatever other processes do; no two contexts in use have the same handle; and a new context is at the
origin with colour 15. -/
theorem contexts_independent {pid' : ι → Int} {u u' : ι → UInt32 → UInt8} (hg : g.Layout) (hpid : Pids pid)
    (hpid' : Pids pid')
    (hx : Machine.Reach (Machine.along (step g) (upd g)) (fun x a => Fits pid x a ∧ Selects x a) (init u, Hist.init) x)
    (hy : Machine.Reach (Machine.along (step g) (upd g)) (fun x a => Fits pid' x a ∧ Selects x a)
      (init u', Hist.init) y) {A : ι} (hcalls : x.2.calls A = y.2.calls A) :
    (∀ k, (x.2.handle A k).map (penAt x.1 A) = (y.2.handle A k).map (penAt y.1 A)) ∧
      (∀ q k q' k' a, x.2.handle q k = some a → x.2.handle q' k' = some a → q = q' ∧ k = k') ∧
      ∀ p r s', Fits pid x (.call p .beginpaint) → beginpaint g p x.1 = (.ok r, s') →
        penAt s' p.who (uint r) = ⟨0, 0, 15⟩ := by
  have hi := reachable_owned hg hpid hx
  have hi' := reachable_owned hg hpid' hy
  refine ⟨fun k => ?_, fun q k q' k' a => hi.inj, fun p r s' hfit hs => ?_⟩
  · rw [hi.pen_eq hg, hi'.pen_eq hg, hcalls]
  · obtain ⟨k, hk, hfree, hc⟩ := beginpaint_free hg hpid hi hfit.1 hfit.2 hs
    have hctx := hi.ready.free (Canvas.ready_first _) k hfree
    rw [hk, penAt_entry hg, hc, Canvas.setCtx_self, hctx]
    rfl

def argStack (x y z : Nat) (a : UInt32) : UInt8 :=
  Bytes.leByte (if a < 4104 then x else if a < 4108 then y else z) (a.toNat % 4)

/-- The first process passes its context and 2052, the second its context and the point (1, 7). -/
def sampleStacks (q : Fin 2) : UInt32 → UInt8 :=
  if q = 0 then argStack 0x80122000 2052 0 else argStack 0x80122010 1 7

def samplePid (q : Fin 2) : Int := q.val + 1

theorem sampleSymbols_layout : sampleSymbols.Layout := by
  constructor
  · decide
  · unfold Apart
    decide

/-- The second process moves its pen, or does nothing: the first sees the same. -/
theorem contexts_independent_moveto : ∃ x y : St (Fin 2) × Hist (Fin 2),
    x.2.calls 1 ≠ y.2.calls 1 ∧ x.2.calls 0 = y.2.calls 0 ∧
      (∀ k, (x.2.handle 0 k).map (penAt x.1 0) = (y.2.handle 0 k).map (penAt y.1 0)) ∧
      (x.2.handle 0 0).map (penAt x.1 0) = some ⟨2052, 0, 15⟩ := by
  have hx : (Machine.runOk (Machine.along (step sampleSymbols) (upd sampleSymbols))
      (fun x a => Fits samplePid x a ∧ Selects x a) (init sampleStacks, Hist.init)
      [.call (sampleProc 0) .beginpaint, .call (sampleProc 1) .beginpaint, .call (sampleProc 1) (.handle .moveto),
        .call (sampleProc 0) (.handle .moveto)]).any (fun x =>
          x.2.calls 0 = [.begin, .call (.moveto 0 2052 0)] ∧ x.2.calls 1 = [.begin, .call (.moveto 0 1 7)] ∧
          (x.2.handle 0 0).map (penAt x.1 0) = some ⟨2052, 0, 15⟩) = true := by
    decide +kernel
  have hy : (Machine.runOk (Machine.along (step sampleSymbols) (upd sampleSymbols))
      (fun x a => Fits samplePid x a ∧ Selects x a) (init sampleStacks, Hist.init)
      [.call (sampleProc 0) .beginpaint, .call (sampleProc 0) (.handle .moveto)]).any (fun x =>
          x.2.calls 0 = [.begin, .call (.moveto 0 2052 0)] ∧ x.2.calls 1 = []) = true := by
    decide +kernel
  obtain ⟨x, hx, hx'⟩ := (Option.any_eq_true _ _).1 hx
  obtain ⟨y, hy, hy'⟩ := (Option.any_eq_true _ _).1 hy
  rw [decide_eq_true_eq] at hx' hy'
  have hcalls : x.2.calls 0 = y.2.calls 0 := hx'.1.trans hy'.1.symm
  have hpid : Pids samplePid := by unfold Pids samplePid; decide
  have hmain := contexts_independent sampleSymbols_layout hpid hpid (Machine.Reach.of_runOk hx)
    (Machine.Reach.of_runOk hy) hcalls
  refine ⟨x, y, ?_, hcalls, hmain.1, hx'.2.2⟩
  rw [hx'.2.1, hy'.2]
  exact nofun

/-- `indexWritten[2052]` is the second process's pen position: the first process's colour depends on it. -/
theorem selectpen_reads_foreign_context : ∃ x y : St (Fin 2) × Hist (Fin 2),
    Machine.Reach (Machine.along (step sampleSymbols) (upd sampleSymbols)) (Fits samplePid)
      (init sampleStacks, Hist.init) x ∧
    Machine.Reach (Machine.along (step sampleSymbols) (upd sampleSymbols)) (Fits samplePid)
      (init sampleStacks, Hist.init) y ∧
    x.2.calls 0 = y.2.calls 0 ∧ y.2.calls 1 = [] ∧
    (x.2.handle 0 0).map (penAt x.1 0) = some ⟨0, 0, 2052⟩ ∧
    (y.2.handle 0 0).map (penAt y.1 0) = some ⟨0, 0, 15⟩ := by
  have hx : (Machine.runOk (Machine.along (step sampleSymbols) (upd sampleSymbols)) (Fits samplePid)
      (init sampleStacks, Hist.init)
      [.call (sampleProc 0) .beginpaint, .call (sampleProc 1) .beginpaint, .call (sampleProc 1) (.handle .moveto),
        .call (sampleProc 0) (.handle .selectpen)]).any (fun x =>
          x.2.calls 0 = [.begin, .call (.selectpen 0 2052)] ∧
          (x.2.handle 0 0).map (penAt x.1 0) = some ⟨0, 0, 2052⟩) = true := by
    decide +kernel
  have hy : (Machine.runOk (Machine.along (step sampleSymbols) (upd sampleSymbols)) (Fits samplePid)
      (init sampleStacks, Hist.init)
      [.call (sampleProc 0) .beginpaint, .call (sampleProc 0) (.handle .selectpen)]).any (fun x =>
          x.2.calls 0 = [.begin, .call (.selectpen 0 2052)] ∧ x.2.calls 1 = [] ∧
          (x.2.handle 0 0).map (penAt x.1 0) = some ⟨0, 0, 15⟩) = true := by
    decide +kernel
  obtain ⟨x, hx, hx'⟩ := (Option.any_eq_true _ _).1 hx
  obtain ⟨y, hy, hy'⟩ := (Option.any_eq_true _ _).1 hy
  rw [decide_eq_true_eq] at hx' hy'
  exact ⟨x, y, .of_runOk hx, .of_runOk hy, hx'.1.trans hy'.1.symm, hy'.2.1, hx'.2, hy'.2.2⟩

end Reachable

end Xv6.Graphics
