import Mathlib.Algebra.Group.Int.Defs
import Mathlib.Algebra.Group.Nat.Defs
import TpeSo.Lib.Outcome
import TpeSo.Lib.Trace

namespace TpeSo.Video

open Lib

/-!
# `drivers/videoDriver.c` — the text screen

The driver keeps a cursor in pixels and, beside it, a log of the text with a cursor and an
origin of its own, from which `scroll_down` draws the screen again.  What a pixel or a glyph
looks like is left out: only where the driver draws is kept, in `accesses`, together with the
places of the log that it touches and where each `scroll_down` leaves the cursor.

`posX`, `posY` and `size` are `unsigned int`, the positions of the log are `int`.
-/

abbrev screenWidthPixels : Nat := 1024
abbrev screenHeightPixels : Nat := 768

def lf : UInt8 := 10
def bs : UInt8 := 8
def ht : UInt8 := 9
def blank : UInt8 := 32

/-- What the driver touches. -/
inductive Access where
  /-- A call of `putPixel`. -/
  | pixel (x y : Nat)
  /-- A read or a write of `screen_text_log[row][col]`. -/
  | log (row col : Int)
  /-- `scroll_down` returns with the cursor here. -/
  | scrolled (posX posY : Nat)
  deriving DecidableEq

/-- The driver's variables. -/
structure Screen where
  posX : Nat := 0
  posY : Nat := 0
  size : Nat := 1
  screenTextLog : Int → Int → UInt8 := fun _ _ => 0
  topLeftScreen : Int := 0
  currentX : Int := 0
  currentY : Int := 0
  moovingMatrix : Bool := false
  /-- What the call that is running has touched so far. -/
  accesses : List Access := []

/-- Arithmetic of `unsigned int`. -/
def u32 (n : Nat) : Nat := n % 2 ^ 32

/-- Subtraction of `unsigned int`. -/
def sub32 (a b : Nat) : Nat := (a + 2 ^ 32 - b) % 2 ^ 32

/-- The conversion of an `int` to `unsigned int`. -/
def unsigned (i : Int) : Nat := (i % 2 ^ 32).toNat

namespace Screen

/-- `CHAR_WIDTH`. -/
def charWidth (s : Screen) : Nat := 8 * s.size

/-- `CHAR_HEIGHT`. -/
def charHeight (s : Screen) : Nat := 16 * s.size

/-- `MAX_WIDTH_LOG`. -/
def maxWidthLog (s : Screen) : Nat := screenWidthPixels / s.charWidth

/-- `MAX_HEIGHT_LOG`. -/
def maxHeightLog (s : Screen) : Nat := screenHeightPixels / s.charHeight

/-- Note what is touched. -/
def touch (s : Screen) (as : List Access) : Screen := { s with accesses := s.accesses ++ as }

/-- `screen_text_log[row][col] = c`. -/
def writeLog (s : Screen) (row col : Int) (c : UInt8) : Screen :=
  { s.touch [.log row col] with
    screenTextLog := fun r k => if r = row ∧ k = col then c else s.screenTextLog r k }

end Screen

/-! ### Drawing -/

/-- The pixels of one character with its corner at `(x, y)`: `size` rows of `size` pixels
    for each of the 16 by 8 points of the glyph. -/
def glyphPixels (size x y : Nat) : List Access :=
  (List.range 16).flatMap fun cy => (List.range size).flatMap fun i =>
    (List.range 8).flatMap fun cx => (List.range size).map fun j =>
      .pixel (x + (cx * size + j)) (y + (cy * size + i))

/-- `drawcharSize` behind the two tests: draw, and move the cursor on. -/
def drawGlyph (s : Screen) : Screen :=
  let s := s.touch (glyphPixels s.size s.posX s.posY)
  let x := u32 (s.posX + s.charWidth) % screenWidthPixels
  { s with posX := x, posY := if x = 0 then u32 (s.posY + s.charHeight) else s.posY }

/-- A row of the first loop of `scroll_down`, with `n` columns left: blanks up to the end of
    the line. -/
def clearRow (draw : UInt8 → Screen → Outcome Screen) (y : Int) : Nat → Screen → Outcome Screen
  | 0, s => .ok s
  | n + 1, s =>
    let x : Int := s.maxWidthLog - (n + 1 : Nat)
    let s := s.touch [.log y x]
    if s.screenTextLog y x = lf then .ok s
    else do
      let s ← draw blank s
      clearRow draw y n s

/-- `n` blanks. -/
def drawBlanks (draw : UInt8 → Screen → Outcome Screen) : Nat → Screen → Outcome Screen
  | 0, s => .ok s
  | n + 1, s => do
    let s ← draw blank s
    drawBlanks draw n s

/-- A row of the second loop of `scroll_down`, with `n` columns left: the text of the line,
    filled up with blanks. -/
def redrawRow (draw : UInt8 → Screen → Outcome Screen) (y : Int) : Nat → Screen → Outcome Screen
  | 0, s => .ok s
  | n + 1, s =>
    let x : Int := s.maxWidthLog - (n + 1 : Nat)
    let s := s.touch [.log y x]
    if s.screenTextLog y x = lf then drawBlanks draw (n + 1) s
    else do
      let s := s.touch [.log y x]
      let s ← draw (s.screenTextLog y x) s
      redrawRow draw y n s

/-- A loop of `scroll_down` over rows: from `y` on, circularly, up to `stop`; the first row
    is not compared with it. -/
def eachRow (row : Int → Screen → Outcome Screen) (stop : Int) :
    Nat → Bool → Int → Screen → Outcome Screen
  | 0, _, _, _ => .hang
  | fuel + 1, first, y, s =>
    if first ∨ y ≠ stop then do
      let s ← row y s
      eachRow row stop fuel false (unsigned (y + 1) % s.maxHeightLog : Nat) s
    else .ok s

/-- `scroll_down`, which draws with `drawcharSize`. -/
def scrollDownWith (draw : UInt8 → Screen → Outcome Screen) (s : Screen) : Outcome Screen := do
  let fuel := s.maxHeightLog + 1
  let s := { s with posX := 0, posY := 0 }
  let s ← eachRow (fun y s => clearRow draw y s.maxWidthLog s) s.topLeftScreen fuel true
    s.topLeftScreen s
  let s := { s with posX := 0, posY := 0 }
  let stop := if s.topLeftScreen ≠ 0 then s.topLeftScreen - 1 else (s.maxHeightLog : Int) - 1
  let s ← eachRow (fun y s => redrawRow draw y s.maxWidthLog s) stop fuel true s.topLeftScreen s
  let s := { s with posY := sub32 screenHeightPixels s.charHeight }
  let s ← drawBlanks draw s.maxWidthLog s
  let s := { s with posY := sub32 s.posY s.charHeight }
  .ok (s.touch [.scrolled s.posX s.posY])

/-- The first test of `drawcharSize`: does the character fit into the row? -/
def fitColumn (s : Screen) : Screen :=
  if sub32 screenWidthPixels s.charWidth < s.posX then
    { s with posX := 0, posY := u32 (s.posY + s.charHeight) }
  else s

/-- The second test: does the row fit onto the screen? -/
def belowScreen (s : Screen) : Prop := sub32 screenHeightPixels s.charHeight < s.posY

instance (s : Screen) : Decidable (belowScreen s) := inferInstanceAs (Decidable (_ < _))

/-- `drawcharSize`, when `nested` more calls of `scroll_down` may be entered.  One that would
    be entered beyond these never comes back. -/
def drawcharSize : Nat → UInt8 → Screen → Outcome Screen
  | 0, _, s =>
    if belowScreen (fitColumn s) then .hang else .ok (drawGlyph (fitColumn s))
  | nested + 1, _, s =>
    if belowScreen (fitColumn s) then do
      let s ← scrollDownWith (drawcharSize nested) (fitColumn s)
      .ok (drawGlyph s)
    else .ok (drawGlyph (fitColumn s))

/-- `scroll_down`, inside which `nested` more of its calls may be entered. -/
def scrollDown (nested : Nat) (s : Screen) : Outcome Screen :=
  scrollDownWith (drawcharSize nested) s

/-- `deleteChar`. -/
def deleteChar (s : Screen) : Outcome Screen :=
  if s.posX = 0 ∧ s.posY ≠ 0 then do
    let s := { s with
      posX := sub32 screenWidthPixels s.charWidth
      posY := sub32 s.posY s.charHeight }
    let s ← drawcharSize 1 blank s
    .ok { s with
      posX := sub32 screenWidthPixels s.charWidth
      posY := sub32 s.posY s.charHeight }
  else do
    let s := { s with posX := sub32 s.posX s.charWidth }
    let s ← drawcharSize 1 blank s
    .ok { s with posX := sub32 s.posX s.charWidth }

/-! ### The text log -/

/-- `clear_screen_text_log`. -/
def clearScreenTextLog (s : Screen) : Screen :=
  { s with currentX := 0, currentY := 0, topLeftScreen := 0, moovingMatrix := false }

/-- `can_move_top_left_pointer`. -/
def canMoveTopLeftPointer (s : Screen) : Bool :=
  unsigned s.currentY = s.maxHeightLog ∨
    s.moovingMatrix ∧ ((s.currentY - s.topLeftScreen).natAbs ≤ 1 ∨
      unsigned s.currentY = s.maxHeightLog - 1 ∧ s.topLeftScreen = 0)

/-- `top_left_screen++`. -/
def incTop (s : Screen) : Screen := { s with topLeftScreen := s.topLeftScreen + 1 }

/-- `top_left_screen %= MAX_HEIGHT_LOG`. -/
def modTop (s : Screen) : Screen :=
  { s with topLeftScreen := (unsigned s.topLeftScreen % s.maxHeightLog : Nat) }

/-- `currentX = 0; currentY++`. -/
def nextRow (s : Screen) : Screen := { s with currentX := 0, currentY := s.currentY + 1 }

/-- `currentY %= MAX_HEIGHT_LOG`. -/
def modRow (s : Screen) : Screen :=
  { s with currentY := (unsigned s.currentY % s.maxHeightLog : Nat) }

/-- The wrap in front of the `switch` of `update_screen_text_log`. -/
def wrapLine (s : Screen) : Screen :=
  if s.maxWidthLog ≤ unsigned s.currentX then
    let s := modRow (nextRow s)
    if canMoveTopLeftPointer s then modTop (incTop s) else s
  else s

/-- The case of a newline. -/
def logNewline (s : Screen) : Screen :=
  let s := nextRow (s.writeLog s.currentY s.currentX lf)
  let s :=
    if s.maxHeightLog ≤ unsigned s.currentY then incTop { s with currentY := 0 }
    else if s.moovingMatrix then incTop s
    else s
  modTop (modRow s)

/-- The case of a backspace. -/
def logBackspace (s : Screen) : Screen :=
  if s.currentX = 0 then
    if s.currentY = 0 ∧ s.moovingMatrix then
      let s := { s with
        currentX := (s.maxWidthLog - 1 : Nat)
        currentY := (s.maxHeightLog - 1 : Nat) }
      s.writeLog s.currentY s.currentX blank
    else if s.currentY ≠ 0 then
      let s := { s with currentY := s.currentY - 1, currentX := (s.maxWidthLog - 1 : Nat) }
      s.writeLog s.currentY s.currentX blank
    else s
  else
    let s := { s with currentX := s.currentX - 1 }
    s.writeLog s.currentY s.currentX blank

/-- A round of the loop of the case of a tab. -/
def logTabStep (s : Screen) : Screen :=
  let s :=
    if s.maxWidthLog ≤ unsigned s.currentX then
      let s := nextRow s
      let s :=
        if s.maxHeightLog ≤ unsigned s.currentY then incTop { s with currentY := 0 }
        else if s.topLeftScreen ≠ 0 ∨ s.moovingMatrix then incTop s
        else s
      modRow (modTop s)
    else s
  let s := s.writeLog s.currentY s.currentX blank
  { s with currentX := s.currentX + 1 }

/-- The case of any other character. -/
def logChar (s : Screen) (c : UInt8) : Screen :=
  let s := s.writeLog s.currentY s.currentX c
  { s with currentX := s.currentX + 1 }

/-- The `switch` of `update_screen_text_log`. -/
def logCase (s : Screen) (c : UInt8) : Screen :=
  if c = lf then logNewline s
  else if c = bs then logBackspace s
  else if c = ht then logTabStep (logTabStep (logTabStep (logTabStep s)))
  else logChar s c

/-- `update_screen_text_log`. -/
def updateScreenTextLog (s : Screen) (c : UInt8) : Screen :=
  let s := logCase (wrapLine s) c
  if s.topLeftScreen ≠ 0 then { s with moovingMatrix := true } else s

/-! ### Printing -/

/-- `special_char`, of a `char` that is signed. -/
def specialChar (c : UInt8) : Bool := c < 6 ∨ 128 ≤ c

/-- The drawing side of `print` for a character that is not special. -/
def drawCase (s : Screen) (fd : Nat) (c : UInt8) : Outcome Screen :=
  if c = lf then
    let s := { s with posY := u32 (s.posY + s.charHeight), posX := 0 }
    if belowScreen s then scrollDown 0 s else .ok s
  else if c = bs then deleteChar s
  else if c = ht then drawBlanks (drawcharSize 1) 4 s
  else
    match fd with
    | 1 | 2 => drawcharSize 1 c s
    | _ => .ok s

/-- A round of the loop of `print`. -/
def printChar (fd : Nat) (s : Screen) (c : UInt8) : Outcome Screen :=
  if specialChar c then .ok s else drawCase (updateScreenTextLog s c) fd c

/-- `print` to the descriptor `fd`.  One `scroll_down` may run at a time: that a second one
    is never entered inside it is a result about this model. -/
def print (fd : Nat) : List UInt8 → Screen → Outcome Screen
  | [], s => .ok s
  | c :: cs, s => do
    let s ← printChar fd s c
    print fd cs s

/-- `clear_screen`. -/
def clearScreen (s : Screen) : Screen :=
  let s := s.touch ((List.range screenWidthPixels).flatMap fun i =>
    (List.range screenHeightPixels).map fun j => .pixel i j)
  clearScreenTextLog { s with posX := 0, posY := 0 }

/-- `zoom_in`. -/
def zoomIn (s : Screen) : Screen :=
  clearScreen { s with size :=
    match s.size with
    | 1 => 2
    | 2 => 4
    | _ => 4 }

/-- `zoom_out`. -/
def zoomOut (s : Screen) : Screen :=
  clearScreen { s with size :=
    match s.size with
    | 4 => 2
    | 2 => 1
    | _ => 1 }

/-- The calls of the driver. -/
inductive Call where
  | print (fd : Nat) (buf : List UInt8)
  | zoomIn
  | zoomOut
  | clearScreen

/-- One call, from its first access on. -/
def call (s : Screen) (e : Call) : Outcome Screen :=
  let s := { s with accesses := [] }
  match e with
  | .print fd buf => print fd buf s
  | .zoomIn => .ok (zoomIn s)
  | .zoomOut => .ok (zoomOut s)
  | .clearScreen => .ok (clearScreen s)

/-- A call that comes back, with what it has touched. -/
def next (s : Screen) (e : Call) : Option (Screen × List Access) :=
  (call s e).toOption.map fun s => (s, s.accesses)

end TpeSo.Video
