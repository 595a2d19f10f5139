import TpeSo.Kernel.Process

namespace TpeSo

open Ds Lib

/-!
# `drivers/keyboardDriver.c` and the reading side of `drivers/tty.c`

A key press edits the keyboard ring and may wake the one process that waits for a line;
Ctrl-C kills the foreground process.  What the driver prints is left out: the screen is
not part of this state.
-/

def newline : UInt8 := 10
def backspace : UInt8 := 8
def tab : UInt8 := 9
def space : UInt8 := 32
def veof : UInt8 := 4

/-- `printableAscii`. -/
def printableAscii : List (UInt8 × UInt8) :=
  [(0, 0), (27, 27), (49, 33), (50, 64), (51, 35), (52, 36), (53, 37), (54, 94), (55, 38),
   (56, 42), (57, 40), (48, 41), (45, 95), (61, 43), (8, 8), (9, 9), (113, 81), (119, 87),
   (101, 69), (114, 82), (116, 84), (121, 89), (117, 85), (105, 73), (111, 79), (112, 80),
   (91, 123), (93, 125), (10, 10), (0, 0), (97, 65), (115, 83), (100, 68), (102, 70),
   (103, 71), (104, 72), (106, 74), (107, 75), (108, 76), (59, 58), (39, 34), (96, 126),
   (0, 0), (92, 124), (122, 90), (120, 88), (99, 67), (118, 86), (98, 66), (110, 78),
   (109, 77), (44, 60), (46, 62), (47, 63), (0, 0), (0, 0), (0, 0), (32, 32)]

/-! ### Reading -/

/-- `get_line`.  The discarded tail of a long line goes to a local buffer. -/
def getLine (k : Kernel) (count : Nat) : Kernel × List UInt8 :=
  if k.canonicalMode then
    let r := ringbufReadUntil k.kbuff newline count
    if r.2.length = count ∧ r.2.getLast? ≠ some newline then
      ({ k with kbuff := (ringbufReadUntil r.1 newline kbuffSize).1 }, r.2)
    else ({ k with kbuff := r.1 }, r.2)
  else
    let r := ringbufRead k.kbuff count
    ({ k with kbuff := r.1 }, r.2)

/-- `next_line_length`; a search that never ends hangs the kernel. -/
def nextLineLength (k : Kernel) : Outcome Nat :=
  if k.canonicalMode then
    match ringbufFind k.kbuff newline with
    | none => .hang
    | some n => .ok n
  else .ok (ringbufAvailable k.kbuff)

/-- The bytes and the result of a completed keyboard read. -/
abbrev LineResult := List UInt8 × Int

/-- The end of `read_from_keyboard`: a line that starts with Ctrl-D reads as end of file.
    `buf0` is what the caller's buffer held, which is looked at when nothing was stored. -/
def lineResult (bytes : List UInt8) (n : Int) (buf0 : UInt8) : LineResult :=
  if bytes.headD buf0 = veof then (0 :: bytes.tail, 0) else (bytes, n)

/-- `read_line` by the current process `c`, from the loop test on. -/
def readLine (k : Kernel) (c : ProcId) (count : Nat) (buf0 : UInt8) :
    Outcome (Kernel × Option LineResult) := do
  let n ← nextLineLength k
  if n = 0 then
    if k.keyboardQueue ≠ [] then .ok (k, some (lineResult [] (-1) buf0))
    else
      let node := k.kmalloc
      let k := k.alloc
      let k := { k with keyboardQueue := enqueue node k.keyboardQueue c }
      let k ← blockCurrent (k.suspend (.readLine count buf0)) .terminal .keyboard
      .ok (k, none)
  else
    let r := getLine k count
    .ok (r.1, some (lineResult r.2 r.2.length buf0))

def eInval : Int := 22
def ePerm : Int := 1

/-- `read_from_keyboard` (`kb_read`). -/
def readFromKeyboard (k : Kernel) (c : ProcId) (count : Nat) (buf0 : UInt8) :
    Outcome (Kernel × Option LineResult) :=
  if k.foregroundProcess = none ∨ count = 0 then .ok (k, some ([], -eInval))
  else if some c ≠ k.foregroundProcess then .ok (k, some ([], -ePerm))
  else readLine k c count buf0

/-! ### Key presses -/

/-- `ringbuf_write(kbuff, 1, &c)`. -/
def kbuffPut (k : Kernel) (c : UInt8) : Kernel :=
  { k with kbuff := (ringbufWrite k.kbuff [c]).1 }

/-- `proc_ready(dequeue(waiting_queue))`, when a process waits. -/
def wakeReader (k : Kernel) : Kernel :=
  let r := dequeue k.keyboardQueue
  procReady { k with keyboardQueue := r.2 } r.1

/-- `handle_ctrl_d`. -/
def handleCtrlD (k : Kernel) : Kernel :=
  if k.keyboardQueue ≠ [] then
    let k := if k.currentLineLen = 0 then kbuffPut k veof else k
    wakeReader (kbuffPut k newline)
  else k

/-- `handle_key_press`, the part behind the modifier keys, for a character `c`. -/
def handleChar (k : Kernel) (c : UInt8) : Kernel :=
  if c = backspace then
    if 0 < k.currentLineLen then
      { k with kbuff := ringbufUnwrite k.kbuff, currentLineLen := k.currentLineLen - 1 }
    else k
  else if c = tab then
    let k := kbuffPut (kbuffPut (kbuffPut (kbuffPut k space) space) space) space
    { k with currentLineLen := k.currentLineLen + 4 }
  else
    let k := if 32 ≤ c ∧ c ≤ 126 then
        { kbuffPut k c with currentLineLen := k.currentLineLen + 1 }
      else k
    let k := if c = newline then
        let k := kbuffPut k c
        let k := if k.canonicalMode then wakeReader k else k
        { k with currentLineLen := 0 }
      else k
    if ringbufAvailable k.kbuff ≠ 0 ∧ k.canonicalMode = false then wakeReader k else k

/-- `handle_key_press`, for a scan code inside the table. -/
def handleKey (k : Kernel) (key : UInt8 × UInt8) : Outcome Kernel :=
  if k.ctrl ∧ key.1 = 100 then .ok (handleCtrlD k)
  else if k.ctrl ∧ key.1 = 99 then procKill k k.foregroundProcess 0
  else if k.arrow then .ok { k with arrow := false }
  else .ok (handleChar k (if k.shift ^^ k.capsLock then key.2 else key.1))

/-- `handle_key_press`. -/
def handleKeyPress (k : Kernel) (scanCode : Nat) : Outcome Kernel :=
  match scanCode with
  | 0x1D => .ok { k with ctrl := true }
  | 0x9D => .ok { k with ctrl := false }
  | 0x2A | 0x36 => .ok { k with shift := true }
  | 0xAA | 0xB6 => .ok { k with shift := false }
  | 0x3A => .ok { k with capsLock := !k.capsLock }
  | 0x01 => .ok { k with esc := true }
  -- the arrow codes lie outside the table, so the handler ends after noting the arrow
  | 0x48 | 0x4B | 0x4D | 0x50 => .ok { k with arrow := true }
  | _ =>
    match printableAscii[scanCode]? with
    | none => .ok k
    | some key => handleKey k key

end TpeSo
