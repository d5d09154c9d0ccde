import Xv6.Graphics

/-!
# What the variables of `graphics.c` hold

`canvas g s` reads the frame buffer, the drawing contexts, `indexWritten` and `firstTime` out of memory;
`Symbols.Layout` says that the linker has placed them apart from each other and from video memory. A
drawing call on the context in slot `i` is an `Op`: the pixels it plots and what it does to its context
are functions of that context, and `Canvas.apply` is the effect of the whole call.
-/

namespace Xv6.Graphics

open Function (update update_self update_of_ne)
open Kmem Exec

variable {ι : Type}

abbrev PIXELS : Nat := 320 * 200
abbrev COLOURS : Nat := 255

/-- The physical address the kernel is loaded at, as kernel address: `KERNLINK`. -/
abbrev KERNLINK : Nat := 0x80100000

structure HDC where
  x : Int
  y : Int
  colour : Int
  pid : Int
  deriving DecidableEq

deriving instance DecidableEq for Field

namespace HDC

def get (c : HDC) : Field → Int
  | .x => c.x
  | .y => c.y
  | .colour => c.colour
  | .pid => c.pid

def set (c : HDC) (v : Int) : Field → HDC
  | .x => { c with x := v }
  | .y => { c with y := v }
  | .colour => { c with colour := v }
  | .pid => { c with pid := v }

@[simp] theorem get_x (c : HDC) : c.get .x = c.x := rfl

@[simp] theorem get_y (c : HDC) : c.get .y = c.y := rfl

@[simp] theorem get_colour (c : HDC) : c.get .colour = c.colour := rfl

@[simp] theorem get_pid (c : HDC) : c.get .pid = c.pid := rfl

def ofFields (v : Field → Int) : HDC := ⟨v .x, v .y, v .colour, v .pid⟩

theorem get_ofFields (v : Field → Int) (f : Field) : (ofFields v).get f = v f := by cases f <;> rfl

def free : HDC := ⟨0, 0, 15, -1⟩

theorem ext_get {c d : HDC} (h : ∀ f, c.get f = d.get f) : c = d := by
  obtain ⟨x, y, colour, pid⟩ := c
  have h1 : x = d.x := h .x
  have h2 : y = d.y := h .y
  have h3 : colour = d.colour := h .colour
  have h4 : pid = d.pid := h .pid
  rw [h1, h2, h3, h4]

theorem get_set (c : HDC) (v : Int) (f f' : Field) : (c.set v f).get f' = if f' = f then v else c.get f' := by
  cases f <;> cases f' <;> rfl

end HDC

structure Canvas where
  pixel : Fin PIXELS → UInt8
  ctx : Fin MAX_PROCESSES → HDC
  written : Fin COLOURS → Int
  first : Int

/-! ### Where the variables are -/

def Field.off : Field → Nat
  | .x => 0
  | .y => 4
  | .colour => 8
  | .pid => 12

namespace Symbols

variable (g : Symbols)

def regions : List (UInt32 × Nat) :=
  [(g.videobuffer, PIXELS), (g.indexWritten, 4 * COLOURS), (g.firstTime, 4), (g.hdcArray, 16 * MAX_PROCESSES)]

/-- The variables are in the kernel's image and do not overlap. -/
structure Layout : Prop where
  block : ∀ r ∈ g.regions, KERNLINK ≤ r.1.toNat ∧ r.1.toNat + r.2 ≤ 2 ^ 32
  apart : g.regions.Pairwise fun r t => Apart r.1 r.2 t.1 t.2

/-- The process can use the variables, and the kernel can read the memory of the process. -/
structure Mapped (p : Proc ι) : Prop where
  data : ∀ r ∈ g.regions, ∀ i, i < r.2 → p.readable (r.1 + UInt32.ofNat i) ∧ p.writable (r.1 + UInt32.ofNat i)
  user : ∀ a, a < p.sz → p.readable a
  size : p.sz ≤ KERNBASE

def field (i : Nat) (f : Field) : UInt32 := g.entry i + f.offset

theorem field_eq (i : Nat) (f : Field) : g.field i f = g.hdcArray + UInt32.ofNat (16 * i + f.off) := by
  have hoff : f.offset = UInt32.ofNat f.off := by cases f <;> rfl
  rw [field, entry, hoff, UInt32.ofNat_add, UInt32.ofNat_mul, UInt32.add_assoc]
  rfl

end Symbols

theorem Field.off_add_lt (f : Field) : f.off + 4 ≤ 16 := by cases f <;> decide

theorem Field.off_apart {f f' : Field} (h : f' ≠ f) : f.off + 4 ≤ f'.off ∨ f'.off + 4 ≤ f.off := by
  cases f <;> cases f' <;> first | exact absurd rfl h | decide

namespace Symbols.Layout

variable {g : Symbols} {f f' : Field} {a b : UInt32} {n m : Nat}

theorem buffer (h : g.Layout) : Block g.videobuffer PIXELS := by
  have := h.block _ (by simp [regions] : (g.videobuffer, PIXELS) ∈ g.regions)
  exact ⟨le_trans (by decide) this.1, this.2⟩

theorem palette (h : g.Layout) : Block g.indexWritten (4 * COLOURS) := by
  have := h.block _ (by simp [regions] : (g.indexWritten, 4 * COLOURS) ∈ g.regions)
  exact ⟨le_trans (by decide) this.1, this.2⟩

theorem firstTime (h : g.Layout) : Block g.firstTime 4 := by
  have := h.block _ (by simp [regions] : (g.firstTime, 4) ∈ g.regions)
  exact ⟨le_trans (by decide) this.1, this.2⟩

theorem pool (h : g.Layout) : Block g.hdcArray (16 * MAX_PROCESSES) := by
  have := h.block _ (by simp [regions] : (g.hdcArray, 16 * MAX_PROCESSES) ∈ g.regions)
  exact ⟨le_trans (by decide) this.1, this.2⟩

theorem apart_all (h : g.Layout) :
    (Apart g.videobuffer PIXELS g.indexWritten (4 * COLOURS) ∧ Apart g.videobuffer PIXELS g.firstTime 4 ∧
      Apart g.videobuffer PIXELS g.hdcArray (16 * MAX_PROCESSES)) ∧
    (Apart g.indexWritten (4 * COLOURS) g.firstTime 4 ∧
      Apart g.indexWritten (4 * COLOURS) g.hdcArray (16 * MAX_PROCESSES)) ∧
    Apart g.firstTime 4 g.hdcArray (16 * MAX_PROCESSES) := by
  simpa [regions] using h.apart

theorem field (h : g.Layout) (i : Fin MAX_PROCESSES) (f : Field) : Block (g.field i f) 4 := by
  rw [field_eq]
  exact h.pool.sub (by have := f.off_add_lt; omega) (by decide)

theorem colour (h : g.Layout) (i : Fin COLOURS) : Block (g.indexWritten + UInt32.ofNat (4 * i)) 4 :=
  h.palette.sub (by omega) (by decide)

theorem apart_field (h : g.Layout) (ha : Apart a n g.hdcArray (16 * MAX_PROCESSES)) (i : Fin MAX_PROCESSES)
    (f : Field) : Apart a n (g.field i f) 4 := by
  rw [field_eq]
  exact ha.sub h.pool (by have := f.off_add_lt; omega) (by decide)

theorem apart_colour (h : g.Layout) (ha : Apart a n g.indexWritten (4 * COLOURS)) (i : Fin COLOURS) :
    Apart a n (g.indexWritten + UInt32.ofNat (4 * i)) 4 :=
  ha.sub h.palette (by omega) (by decide)

theorem toNat_field (h : g.Layout) (i : Fin MAX_PROCESSES) (f : Field) :
    (g.field i f).toNat = g.hdcArray.toNat + (16 * i + f.off) := by
  rw [field_eq]
  exact h.pool.toNat_add (by have := f.off_add_lt; omega)

theorem field_apart (h : g.Layout) {i j : Fin MAX_PROCESSES} (hne : j ≠ i ∨ f' ≠ f) :
    Apart (g.field i f) 4 (g.field j f') 4 := by
  have hf := f.off_add_lt
  have hf' := f'.off_add_lt
  unfold Apart
  rw [h.toNat_field, h.toNat_field]
  by_cases hij : j = i
  · subst hij
    have := Field.off_apart (hne.resolve_left fun h => h rfl)
    omega
  · have := Fin.val_ne_of_ne hij
    omega

theorem video (h : g.Layout) {r : UInt32 × Nat} (hr : r ∈ g.regions) :
    Apart videoMemory (2 * 320 * 200) r.1 r.2 :=
  .inl (le_trans (by decide) (h.block r hr).1)

end Symbols.Layout

theorem video_block : Block videoMemory (2 * 320 * 200) := by
  constructor <;> decide

/-! ### Reading them -/

def canvas (g : Symbols) (s : St ι) : Canvas where
  pixel i := s.kernel (g.videobuffer + UInt32.ofNat i)
  ctx i := HDC.ofFields fun f => s.kint (g.field i f)
  written i := s.kint (g.indexWritten + UInt32.ofNat (4 * i))
  first := s.kint g.firstTime

namespace Canvas

variable (c : Canvas)

def index (q : Int × Int) : Int := i32 (320 * q.2 + q.1)

def Inside (q : Int × Int) : Prop := 0 ≤ index q ∧ index q < PIXELS

/-- A pen colour, as a byte of the frame buffer. -/
def shade (v : Int) : UInt8 := Bytes.leByte (uint v).toNat 0

def plot (q : Int × Int) (v : Int) : Canvas :=
  { c with pixel := fun i => if (i : Int) = index q then shade v else c.pixel i }

def draw (c : Canvas) (qs : List (Int × Int)) (v : Int) : Canvas := qs.foldl (fun c q => c.plot q v) c

/-- The context in slot `i` changes. -/
def setCtx (i : Fin MAX_PROCESSES) (d : HDC) : Canvas := { c with ctx := update c.ctx i d }

theorem draw_append (qs rs : List (Int × Int)) (v : Int) : c.draw (qs ++ rs) v = (c.draw qs v).draw rs v :=
  List.foldl_append

theorem draw_eq (qs : List (Int × Int)) (v : Int) : c.draw qs v = { c with pixel := (c.draw qs v).pixel } := by
  induction qs generalizing c with
  | nil => rfl
  | cons q qs ih => exact ih (c.plot q v)

theorem draw_ctx (qs : List (Int × Int)) (v : Int) : (c.draw qs v).ctx = c.ctx := by
  rw [draw_eq]

theorem setCtx_draw (i : Fin MAX_PROCESSES) (d : HDC) (qs : List (Int × Int)) (v : Int) :
    (c.setCtx i d).draw qs v = (c.draw qs v).setCtx i d := by
  induction qs generalizing c with
  | nil => rfl
  | cons q qs ih => exact ih (c.plot q v)

theorem setCtx_self (i : Fin MAX_PROCESSES) (d : HDC) : (c.setCtx i d).ctx i = d := update_self i _ c.ctx

theorem setCtx_ne {i j : Fin MAX_PROCESSES} (h : j ≠ i) (d : HDC) : (c.setCtx i d).ctx j = c.ctx j :=
  update_of_ne h _ c.ctx

theorem setCtx_setCtx (i : Fin MAX_PROCESSES) (d e : HDC) : (c.setCtx i d).setCtx i e = c.setCtx i e := by
  unfold setCtx
  rw [Function.update_idem]

theorem setCtx_eq_self {i : Fin MAX_PROCESSES} {d : HDC} (h : c.ctx i = d) : c.setCtx i d = c := by
  unfold setCtx
  rw [← h, Function.update_eq_self]

end Canvas

/-- The canvas `sys_beginpaint` looks for a free context on: the first call initialises the contexts. -/
def Canvas.ready (c : Canvas) : Canvas := if c.first = 1 then c else { c with ctx := fun _ => HDC.free, first := 1 }

theorem get_ctx (g : Symbols) (s : St ι) (i : Fin MAX_PROCESSES) (f : Field) :
    ((canvas g s).ctx i).get f = s.kint (g.field i f) :=
  HDC.get_ofFields _ f

theorem i32_get (g : Symbols) (s : St ι) (i : Fin MAX_PROCESSES) (f : Field) :
    i32 (((canvas g s).ctx i).get f) = ((canvas g s).ctx i).get f := by
  rw [get_ctx, St.i32_kint]

theorem canvas_congr {g : Symbols} {s s' : St ι} (h : s'.kernel = s.kernel) : canvas g s' = canvas g s := by
  unfold canvas St.kint
  rw [h]

theorem canvas_log (g : Symbols) (s : St ι) (e : Access) : canvas g (s.log e) = canvas g s := canvas_congr rfl

section Put

variable {g : Symbols} {s : St ι} {q : ι} {a : UInt32} {n : Nat} {src : Nat → UInt8} [DecidableEq ι]

theorem pixel_put (hg : g.Layout) (ha : Block a n) (h : Apart a n g.videobuffer PIXELS) :
    (canvas g (s.put q a n src)).pixel = (canvas g s).pixel :=
  funext fun i => St.kernel_put_apart (q := q) h ha hg.buffer i.isLt

theorem ctx_put (hg : g.Layout) (ha : Block a n) (h : Apart a n g.hdcArray (16 * MAX_PROCESSES)) :
    (canvas g (s.put q a n src)).ctx = (canvas g s).ctx := by
  refine funext fun i => HDC.ext_get fun f => ?_
  rw [get_ctx, get_ctx, St.kint_put_apart (hg.apart_field h i f) ha (hg.field i f)]

theorem written_put (hg : g.Layout) (ha : Block a n) (h : Apart a n g.indexWritten (4 * COLOURS)) :
    (canvas g (s.put q a n src)).written = (canvas g s).written :=
  funext fun i => St.kint_put_apart (hg.apart_colour h i) ha (hg.colour i)

theorem first_put (hg : g.Layout) (ha : Block a n) (h : Apart a n g.firstTime 4) :
    (canvas g (s.put q a n src)).first = (canvas g s).first :=
  St.kint_put_apart h ha hg.firstTime

theorem canvas_put_video (hg : g.Layout) : canvas g (s.put q videoMemory (2 * 320 * 200) src) = canvas g s := by
  have h : ∀ r ∈ g.regions, Apart videoMemory (2 * 320 * 200) r.1 r.2 := fun r hr => hg.video hr
  simp only [Symbols.regions, List.forall_mem_cons] at h
  rw [Canvas.mk.injEq]
  exact ⟨pixel_put hg video_block h.1, ctx_put hg video_block h.2.2.2.1, written_put hg video_block h.2.1,
    first_put hg video_block h.2.2.1⟩

theorem canvas_put_field (hg : g.Layout) (i : Fin MAX_PROCESSES) (f : Field) (v : Int) :
    canvas g (s.put q (g.field i f) 4 (Bytes.leByte (uint v).toNat)) =
      (canvas g s).setCtx i (((canvas g s).ctx i).set (i32 v) f) := by
  obtain ⟨⟨-, -, h1⟩, ⟨-, h2⟩, h3⟩ := hg.apart_all
  rw [Canvas.mk.injEq]
  refine ⟨pixel_put hg (hg.field i f) (hg.apart_field h1 i f).symm, funext fun j => HDC.ext_get fun f' => ?_,
    written_put hg (hg.field i f) (hg.apart_field h2 i f).symm, first_put hg (hg.field i f) (hg.apart_field h3 i f).symm⟩
  by_cases hj : j = i
  · subst hj
    rw [get_ctx, Canvas.setCtx_self, HDC.get_set, get_ctx]
    split
    · subst f'
      exact St.kint_put (hg.field j f)
    · rename_i hf
      exact St.kint_put_apart (hg.field_apart (.inr hf)) (hg.field j f) (hg.field j f')
  · rw [get_ctx, Canvas.setCtx_ne _ hj, get_ctx]
    exact St.kint_put_apart (hg.field_apart (.inl hj)) (hg.field i f) (hg.field j f')

theorem canvas_put_first (hg : g.Layout) (v : Int) :
    canvas g (s.put q g.firstTime 4 (Bytes.leByte (uint v).toNat)) = { canvas g s with first := i32 v } := by
  obtain ⟨⟨-, h1, -⟩, ⟨h2, -⟩, h3⟩ := hg.apart_all
  rw [Canvas.mk.injEq]
  exact ⟨pixel_put hg hg.firstTime h1.symm, ctx_put hg hg.firstTime h3, written_put hg hg.firstTime h2.symm,
    St.kint_put hg.firstTime⟩

theorem pixel_eq {x y : Int} (h : Canvas.Inside (x, y)) :
    g.pixel x y = g.videobuffer + UInt32.ofNat (Canvas.index (x, y)).toNat := by
  obtain ⟨h0, h1⟩ := h
  have hmod : Canvas.index (x, y) % 2 ^ 32 = Canvas.index (x, y) := Int.emod_eq_of_lt h0 (lt_trans h1 (by decide))
  unfold Symbols.pixel uint
  rw [show i32 (320 * y + x) = Canvas.index (x, y) from rfl, hmod]

theorem canvas_put_pixel (hg : g.Layout) {x y : Int} (h : Canvas.Inside (x, y)) (v : Int) :
    canvas g (s.put q (g.pixel x y) 1 (Bytes.leByte (uint v).toNat)) = (canvas g s).plot (x, y) v := by
  obtain ⟨h0, h1⟩ := id h
  obtain ⟨k, hk⟩ := Int.eq_ofNat_of_zero_le h0
  have hlt : k < PIXELS := by omega
  have ha : Block (g.pixel x y) 1 := by
    rw [pixel_eq h]
    exact hg.buffer.sub (by omega) (by decide)
  have hap : ∀ {b : UInt32} {m : Nat}, Apart g.videobuffer PIXELS b m → Apart (g.pixel x y) 1 b m := by
    intro b m hb
    rw [pixel_eq h]
    exact (hb.symm.sub hg.buffer (by omega) (by decide)).symm
  obtain ⟨⟨h2, h3, h4⟩, -⟩ := hg.apart_all
  rw [Canvas.mk.injEq]
  refine ⟨funext fun i => ?_, ctx_put hg ha (hap h4), written_put hg ha (hap h2), first_put hg ha (hap h3)⟩
  show (s.put q (g.pixel x y) 1 _).kernel (g.videobuffer + UInt32.ofNat i) = if (i : Int) = _ then _ else _
  rw [pixel_eq h, hk, Int.toNat_natCast]
  by_cases hi : (i : Nat) = k
  · have hput : (s.put q (g.videobuffer + UInt32.ofNat k) 1 (Bytes.leByte (uint v).toNat)).kernel
        (g.videobuffer + UInt32.ofNat k + UInt32.ofNat 0) = _ :=
      St.kernel_put (hg.buffer.sub (by omega : k + 1 ≤ PIXELS) (by decide)) (by decide)
    rw [show UInt32.ofNat 0 = 0 from rfl, UInt32.add_zero] at hput
    rw [if_pos (by omega), hi, hput]
    rfl
  · rw [if_neg (by omega)]
    refine if_neg fun h' => hi ?_
    have hsub := h'.2
    rw [UInt32.toNat_sub, hg.buffer.toNat_add i.isLt, hg.buffer.toNat_add hlt] at hsub
    have := hg.buffer.2
    omega

end Put

/-! ### Lines -/

/-- `lo, lo + 1, …`, `n` numbers. -/
def upFrom : Nat → Int → List Int
  | 0, _ => []
  | n + 1, lo => lo :: upFrom n (lo + 1)

/-- The numbers of a loop from `lo` to `hi`. -/
def upTo (lo hi : Int) : List Int := upFrom (hi - lo + 1).toNat lo

theorem mem_upFrom {n : Nat} {lo v : Int} : v ∈ upFrom n lo ↔ lo ≤ v ∧ v < lo + n := by
  induction n generalizing lo with
  | zero => exact iff_of_false List.not_mem_nil (by omega)
  | succ n ih =>
    simp only [upFrom, List.mem_cons, ih]
    omega

theorem mem_upTo {lo hi v : Int} : v ∈ upTo lo hi ↔ lo ≤ v ∧ v ≤ hi := by
  rw [upTo, mem_upFrom]
  omega

def vertical (x y1 y2 : Int) : List (Int × Int) := (upTo y1 y2).map fun y => (x, y)

def horizontal (x1 x2 y : Int) : List (Int × Int) := (upTo x1 x2).map fun x => (x, y)

/-- The row and the error term for the next column of a diagonal line. -/
def turn (dx dy m_new y err : Int) : Int × Int :=
  if (i32 (err + m_new) ≥ 0 ∧ dy > 0) ∨ (i32 (err + m_new) ≤ 0 ∧ dy < 0) then
    (i32 (y + if dy > 0 then 1 else -1), i32 (i32 (err + m_new) - i32 (2 * dx)))
  else (y, i32 (err + m_new))

def diagonal (dx dy m_new : Int) : Nat → Int → Int → Int → List (Int × Int)
  | 0, _, _, _ => []
  | n + 1, x, y, err => (x, y) :: diagonal dx dy m_new n (x + 1) (turn dx dy m_new y err).1 (turn dx dy m_new y err).2

def diagonalEnd (dx dy m_new : Int) : Nat → Int → Int → Int
  | 0, y, _ => y
  | n + 1, y, err => diagonalEnd dx dy m_new n (turn dx dy m_new y err).1 (turn dx dy m_new y err).2

def linePixels (sX sY uX uY : Int) : List (Int × Int) :=
  if uX = sX then if uY < sY then vertical sX uY sY else vertical sX sY uY
  else if uY = sY then if uX < sX then horizontal uX sX sY else horizontal sX uX sY
  else
    let m_new := i32 (2 * i32 (uY - sY))
    diagonal (i32 (uX - sX)) (i32 (uY - sY)) m_new (uX - sX + 1).toNat sX sY (i32 (m_new - i32 (uX - sX)))

def lineEnd (sX sY uX uY : Int) : Int × Int :=
  if uX = sX then (sX, uY)
  else if uY = sY then (uX, sY)
  else if sX ≤ uX then
    let m_new := i32 (2 * i32 (uY - sY))
    (uX, diagonalEnd (i32 (uX - sX)) (i32 (uY - sY)) m_new (uX - sX + 1).toNat sY (i32 (m_new - i32 (uX - sX))))
  else (sX, sY)

def rectPixels (x1 y1 x2 y2 : Int) : List (Int × Int) :=
  (if y1 < y2 then upTo y1 y2 else upTo y2 y1).flatMap fun y => horizontal x1 x2 y

/-! ### Calls -/

inductive Op (κ : Type)
  | setpixel (h : κ) (x y : Int)
  | moveto (h : κ) (x y : Int)
  | lineto (h : κ) (x y : Int)
  | selectpen (h : κ) (index : Int)
  | fillrect (h : κ) (x1 y1 x2 y2 : Int)
  | endpaint (h : κ)
  deriving DecidableEq

namespace Op

variable {κ κ' : Type}

def handle : Op κ → κ
  | setpixel h _ _ => h
  | moveto h _ _ => h
  | lineto h _ _ => h
  | selectpen h _ => h
  | fillrect h _ _ _ _ => h
  | endpaint h => h

def on (h : κ') : Op κ → Op κ'
  | setpixel _ x y => setpixel h x y
  | moveto _ x y => moveto h x y
  | lineto _ x y => lineto h x y
  | selectpen _ index => selectpen h index
  | fillrect _ x1 y1 x2 y2 => fillrect h x1 y1 x2 y2
  | endpaint _ => endpaint h

def pixels (c : HDC) : Op κ → List (Int × Int)
  | setpixel _ x y => [(x, y)]
  | lineto _ x y => linePixels c.x c.y x y
  | fillrect _ x1 y1 x2 y2 => rectPixels x1 y1 x2 y2
  | _ => []

/-- What a call does to its context; `known` tells which colours above 15 have been made. -/
def ctx (known : Int → Bool) (c : HDC) : Op κ → HDC
  | setpixel _ _ _ => c
  | moveto _ x y => { c with x := x, y := y }
  | lineto _ x y => { c with x := (lineEnd c.x c.y x y).1, y := (lineEnd c.x c.y x y).2 }
  | selectpen _ index => if index ≤ 15 ∨ known index then { c with colour := index } else c
  | fillrect _ _ _ x2 _ => { c with x := x2 }
  | endpaint _ => HDC.free

end Op

/-- The colours above 15 that can be selected. -/
def Canvas.known (c : Canvas) (index : Int) : Bool :=
  if h : index.toNat < COLOURS then c.written ⟨index.toNat, h⟩ = 1 else false

/-- The effect of a call on the context in slot `op.handle`. -/
def Canvas.apply (c : Canvas) (op : Op (Fin MAX_PROCESSES)) : Canvas :=
  (c.draw (op.pixels (c.ctx op.handle)) (c.ctx op.handle).colour).setCtx op.handle
    (op.ctx c.known (c.ctx op.handle))

end Xv6.Graphics
