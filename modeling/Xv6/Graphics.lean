import Xv6.Kmem
import Xv6.Lib.Run

/-!
# Drawing system calls (`graphics.c`)

A drawing context (`struct HDC`: `x`, `y`, `colour`, `pid`, four `int`s) is an entry of `hdcArray`;
its handle is its address. The functions are written as accesses to memory, so that what they do
with a handle that is the address of something else is part of the model. The text they print is
left out; the reads that printing makes are not.
-/

namespace Xv6.Graphics

open Kmem

variable {ι : Type}

abbrev MAX_PROCESSES : Nat := 64
abbrev INT_MAX : Int := 2 ^ 31 - 1

structure Symbols where
  videobuffer : UInt32
  indexWritten : UInt32
  firstTime : UInt32
  hdcArray : UInt32

abbrev videoMemory : UInt32 := KERNBASE + 0xA0000

/-- Fields of `struct HDC`, by their offset. -/
inductive Field
  | x | y | colour | pid

def Field.offset : Field → UInt32
  | .x => 0
  | .y => 4
  | .colour => 8
  | .pid => 12

variable (g : Symbols) (p : Proc ι)

def Symbols.entry (i : Nat) : UInt32 := g.hdcArray + 16 * UInt32.ofNat i

/-- `&cons_videobuffer.videobuffer[320 * y + x]`. -/
def Symbols.pixel (x y : Int) : UInt32 := g.videobuffer + uint (i32 (320 * y + x))

def getField (hdc : UInt32) (f : Field) : K ι Int := load p .hdc (hdc + f.offset)

def forUp (lo hi : Int) (body : Int → K ι Unit) : K ι Unit := do
  Exec.rounds body (hi - lo + 1).toNat lo
  if lo ≤ hi ∧ hi = INT_MAX then Exec.stop .overflow

variable [DecidableEq ι]

def setField (hdc : UInt32) (f : Field) (v : Int) : K ι Unit := store p .hdc (hdc + f.offset) v

/-- `cons_videobuffer.videobuffer[320 * y + x] = hdc->colour`. -/
def plot (hdc : UInt32) (x y : Int) : K ι Unit := do
  let c ← getField p hdc .colour
  storeChar p .pixel (g.pixel x y) c

def flush : K ι Unit := memmove p .screen videoMemory g.videobuffer (2 * 320 * 200)

def clear320x200x256 : K ι Unit := do
  Exec.rounds (fun i => storeChar p .pixel (g.videobuffer + uint i) 0) (320 * 200) 0
  flush g p

/-! ### Lines -/

def verticalLine (hdc : UInt32) (x y1 y2 direction : Int) : K ι Unit := do
  forUp y1 y2 fun y => plot g p hdc x y
  if direction = 1 then setField p hdc .y y1 else setField p hdc .y y2

def horizontalLine (hdc : UInt32) (x1 x2 y direction : Int) : K ι Unit := do
  forUp x1 x2 fun x => plot g p hdc x y
  if direction = 1 then setField p hdc .x x1 else setField p hdc .x x2

def bressenhamRounds (hdc : UInt32) (dx dy m_new : Int) : Nat → Int → Int → Int → K ι Unit
  | 0, _, _, _ => pure ()
  | n + 1, x, y, err => do
    plot g p hdc x y
    let err := i32 (err + m_new)
    let turn := (err ≥ 0 ∧ dy > 0) ∨ (err ≤ 0 ∧ dy < 0)
    let y' := if turn then i32 (y + if dy > 0 then 1 else -1) else y
    let err := if turn then i32 (err - i32 (2 * dx)) else err
    let _ ← loadChar p .pixel (g.pixel x y)
    setField p hdc .x x
    setField p hdc .y y'
    bressenhamRounds hdc dx dy m_new n (x + 1) y' err

def bressenhamLine (x1 x2 y1 y2 : Int) (hdc : UInt32) : K ι Unit := do
  let dx := i32 (x2 - x1)
  let dy := i32 (y2 - y1)
  let m_new := i32 (2 * i32 (y2 - y1))
  bressenhamRounds g p hdc dx dy m_new (x2 - x1 + 1).toNat x1 y1 (i32 (m_new - i32 (x2 - x1)))
  if x1 ≤ x2 ∧ x2 = INT_MAX then Exec.stop .overflow

/-! ### System calls -/

def setpixel (hdcHandle uX uY : Int) : K ι Int := do
  plot g p (uint hdcHandle) uX uY
  flush g p
  return 0

def moveto (hdcHandle uX uY : Int) : K ι Int := do
  setField p (uint hdcHandle) .x uX
  setField p (uint hdcHandle) .y uY
  return 0

def lineto (hdcHandle uX uY : Int) : K ι Int := do
  let hdc := uint hdcHandle
  let sX ← getField p hdc .x
  let sY ← getField p hdc .y
  if uX = sX then
    if uY < sY then verticalLine g p hdc sX uY sY 1 else verticalLine g p hdc sX sY uY 0
  else if uY = sY then
    if uX < sX then horizontalLine g p hdc uX sX sY 1 else horizontalLine g p hdc sX uX sY 0
  else bressenhamLine g p sX uX sY uY hdc
  flush g p
  return 1

def selectpen (hdcHandle index : Int) : K ι Int := do
  let hdc := uint hdcHandle
  let known ← if index ≤ 15 then pure true
    else do
      let w ← load p .palette (g.indexWritten + uint (4 * index))
      pure (w = 1)
  if known then
    setField p hdc .colour index
    let _ ← getField p hdc .colour
  return hdcHandle

def fillrect (hdcHandle : Int) (r : UInt32) : K ι Int := do
  let x1 ← load p .arg r
  let y1 ← load p .arg (r + 4)
  let x2 ← load p .arg (r + 8)
  let y2 ← load p .arg (r + 12)
  if y1 < y2 then forUp y1 y2 fun y => horizontalLine g p (uint hdcHandle) x1 x2 y 0
  else forUp y2 y1 fun y => horizontalLine g p (uint hdcHandle) x1 x2 y 0
  flush g p
  return 1

def releaseHDC (hdc : UInt32) : K ι Unit := do
  setField p hdc .pid (-1)
  setField p hdc .colour 15
  setField p hdc .x 0
  setField p hdc .y 0
  let _ ← getField p hdc .pid
  let _ ← getField p hdc .colour
  let _ ← getField p hdc .x
  let _ ← getField p hdc .y

def endpaint (hdcHandle : Int) : K ι Int := do
  releaseHDC p (uint hdcHandle)
  return 0

def setpencolour (index r gr b : Int) : K ι Int := do
  if index ≤ 15 ∨ index > 255 then return 1
  else if r ≥ 64 ∨ gr ≥ 64 ∨ b ≥ 64 then return 1
  else
    outb 0x3C8 index
    outb 0x3C9 r
    outb 0x3C9 gr
    outb 0x3C9 b
    let _ ← load p .palette (g.indexWritten + uint (4 * index))
    store p .palette (g.indexWritten + uint (4 * index)) 1
    return 1

def initHdcArray : K ι Unit :=
  Exec.rounds (fun i => do
    store p .pool (g.entry i.toNat + Field.pid.offset) (-1)
    store p .pool (g.entry i.toNat + Field.colour.offset) 15
    store p .pool (g.entry i.toNat + Field.x.offset) 0
    store p .pool (g.entry i.toNat + Field.y.offset) 0) MAX_PROCESSES 0

def allocateRounds (pid : Int) : Nat → Nat → K ι UInt32
  | 0, _ => pure 0
  | n + 1, i => do
    let owner ← load p .pool (g.entry i + Field.pid.offset)
    if owner = -1 then
      store p .pool (g.entry i + Field.pid.offset) pid
      return g.entry i
    else allocateRounds pid n (i + 1)

def allocateHDC (pid : Int) : K ι UInt32 := allocateRounds g p pid MAX_PROCESSES 0

def beginpaint : K ι Int := do
  let first ← load p .firstTime g.firstTime
  if first ≠ 1 then
    initHdcArray g p
    store p .firstTime g.firstTime 1
  let hdc ← allocateHDC g p p.pid
  let _ ← getField p hdc .pid
  let _ ← getField p hdc .colour
  let _ ← getField p hdc .x
  let _ ← getField p hdc .y
  return i32 hdc.toNat

/-! ### Dispatch -/

inductive HandleCall
  | setpixel | moveto | lineto | selectpen | fillrect | endpaint

/-- The call after `argint(0, &hdcHandle)`: its other arguments are fetched from the user stack. -/
def HandleCall.body (h : Int) : HandleCall → K ι Int
  | .setpixel => do
    let some uX ← argint p 1 | return -1
    let some uY ← argint p 2 | return -1
    Graphics.setpixel g p h uX uY
  | .moveto => do
    let some uX ← argint p 1 | return -1
    let some uY ← argint p 2 | return -1
    Graphics.moveto p h uX uY
  | .lineto => do
    let some uX ← argint p 1 | return -1
    let some uY ← argint p 2 | return -1
    Graphics.lineto g p h uX uY
  | .selectpen => do
    let some index ← argint p 1 | return -1
    Graphics.selectpen g p h index
  | .fillrect => do
    let some r ← argptr p 1 16 | return -1
    Graphics.fillrect g p h r
  | .endpaint => Graphics.endpaint p h

def HandleCall.sys (c : HandleCall) : K ι Int := do
  let some h ← argint p 0 | return -1
  c.body g p h

inductive Call
  | handle (c : HandleCall)
  | beginpaint
  | setpencolour

def Call.sys : Call → K ι Int
  | .handle c => c.sys g p
  | .beginpaint => Graphics.beginpaint g p
  | .setpencolour => do
    let some index ← argint p 0 | return -1
    let some r ← argint p 1 | return -1
    let some gr ← argint p 2 | return -1
    let some b ← argint p 3 | return -1
    Graphics.setpencolour g p index r gr b

/-- A process runs in user mode and changes its own memory, or makes a system call. -/
inductive Act (ι : Type)
  | user (who : ι) (mem : UInt32 → UInt8)
  | call (p : Proc ι) (c : Call)

/-- A call that stops the kernel is not a step. -/
def step (s : St ι) : Act ι → Option (St ι)
  | .user who mem => some { s with user := Function.update s.user who mem }
  | .call p c =>
    match c.sys g p s with
    | (.ok _, s') => some s'
    | (.error _, _) => none

def init (user : ι → UInt32 → UInt8) : St ι := ⟨fun _ => 0, user, [], []⟩

end Xv6.Graphics
