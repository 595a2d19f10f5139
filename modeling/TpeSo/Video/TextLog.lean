import TpeSo.Video.Cursor

namespace TpeSo.Video

open Lib

/-!
# Video — the cursor of the text log

The log is a ring of rows.  Its cursor wraps before a character is written, and its origin
`top_left_screen` moves along once the screen is full.

* `LogPos` — the cursor and the origin as natural numbers, with what each character does to
  them;
* `Follows s s' p` — `s'` is `s` with the log at `p`, in range, and all that was touched is
  inside the log;
* `update_follows` — **`update_screen_text_log` does to the variables what `LogPos.after` does
  to the numbers**, whatever the character;
* `InOrder`, `call_inOrder` — the invariant of the driver, which every call keeps;
* `drawing_inside`, `logIndices_inside` — over all runs, drawing ends and stays on the
  screen, and the log is only touched in range.
-/

/-- The cursor of the log, its origin, and whether the origin moves. -/
structure LogPos where
  x : Nat
  y : Nat
  top : Nat
  moving : Bool

namespace LogPos

variable (w h : Nat) (p : LogPos)

/-- A cursor behind the last column goes to the next row first. -/
def wrap : LogPos :=
  if p.x = w then
    let y := (p.y + 1) % h
    let near := y ≤ p.top + 1 ∧ p.top ≤ y + 1 ∨ y = h - 1 ∧ p.top = 0
    { p with x := 0, y := y, top := if p.moving ∧ near then (p.top + 1) % h else p.top }
  else p

def newline : LogPos :=
  { p with
    x := 0
    y := (p.y + 1) % h
    top := if p.y + 1 = h ∨ p.moving then (p.top + 1) % h else p.top }

def backspace : LogPos :=
  if p.x = 0 then
    if p.y = 0 ∧ p.moving then { p with x := w - 1, y := h - 1 }
    else if p.y ≠ 0 then { p with x := w - 1, y := p.y - 1 }
    else p
  else { p with x := p.x - 1 }

/-- One of the four blanks of a tab. -/
def tabStep : LogPos :=
  if p.x = w then
    { p with
      x := 1
      y := (p.y + 1) % h
      top := if p.y + 1 = h ∨ p.top ≠ 0 ∨ p.moving then (p.top + 1) % h else p.top }
  else { p with x := p.x + 1 }

/-- What the `switch` does. -/
def case (c : UInt8) : LogPos :=
  if c = lf then p.newline h
  else if c = bs then p.backspace w h
  else if c = ht then (tabStep w h)^[4] p
  else { p with x := p.x + 1 }

/-- An origin that has moved once goes on moving. -/
def settle : LogPos := if p.top ≠ 0 then { p with moving := true } else p

/-- The log after the character `c`. -/
def after (c : UInt8) : LogPos := ((p.wrap w h).case w h c).settle

/-- The cursor and the origin are in range; the cursor may stand behind the last column. -/
structure Fits : Prop where
  x_le : p.x ≤ w
  y_lt : p.y < h
  top_lt : p.top < h

end LogPos

variable {s s' : Screen} {p p' : LogPos}

/-- The variables of the log. -/
structure Holds (s : Screen) (p : LogPos) : Prop where
  currentX : s.currentX = p.x
  currentY : s.currentY = p.y
  top : s.topLeftScreen = p.top
  moving : s.moovingMatrix = p.moving

/-- Only the log has changed, and what was touched is inside it. -/
structure Logs (s s' : Screen) : Prop where
  posX : s'.posX = s.posX
  posY : s'.posY = s.posY
  size : s'.size = s.size
  accesses : ∃ as, (∀ a ∈ as, Inside s a) ∧ s'.accesses = s.accesses ++ as

theorem Logs.refl (s : Screen) : Logs s s :=
  ⟨rfl, rfl, rfl, [], (fun _ ha => nomatch ha), (List.append_nil _).symm⟩

theorem maxWidthLog_of_size (h : s'.size = s.size) : s'.maxWidthLog = s.maxWidthLog := by
  unfold Screen.maxWidthLog Screen.charWidth
  rw [h]

theorem maxHeightLog_of_size (h : s'.size = s.size) : s'.maxHeightLog = s.maxHeightLog := by
  unfold Screen.maxHeightLog Screen.charHeight
  rw [h]

theorem zoomed_of_size (h : s'.size = s.size) (hz : Zoomed s) : Zoomed s' := by
  unfold Zoomed
  rwa [h]

theorem inside_of_size (h : s'.size = s.size) {a : Access} (ha : Inside s' a) : Inside s a := by
  cases a with
  | pixel x y => exact ha
  | log row col =>
    unfold Inside at *
    rwa [maxWidthLog_of_size h, maxHeightLog_of_size h] at ha
  | scrolled x y =>
    unfold Inside Screen.charHeight at *
    rwa [h] at ha

theorem Logs.trans {s'' : Screen} (h : Logs s s') (h' : Logs s' s'') : Logs s s'' := by
  obtain ⟨as, has, he⟩ := h.accesses
  obtain ⟨as', has', he'⟩ := h'.accesses
  refine ⟨h'.posX.trans h.posX, h'.posY.trans h.posY, h'.size.trans h.size, as ++ as', ?_, ?_⟩
  · intro a ha
    rcases List.mem_append.mp ha with ha | ha
    · exact has a ha
    · exact inside_of_size h.size (has' a ha)
  · rw [he', he, List.append_assoc]

/-- `s'` is `s` with the log at `p`, which is in range. -/
structure Follows (s s' : Screen) (p : LogPos) : Prop where
  logs : Logs s s'
  holds : Holds s' p
  fits : p.Fits s.maxWidthLog s.maxHeightLog

theorem Follows.trans {s'' : Screen} (h : Follows s s' p) (h' : Follows s' s'' p') :
    Follows s s'' p' := by
  have hfits := h'.fits
  rw [maxWidthLog_of_size h.logs.size, maxHeightLog_of_size h.logs.size] at hfits
  exact ⟨h.logs.trans h'.logs, h'.holds, hfits⟩

/-- The range that the next character finds. -/
theorem Follows.fits' (h : Follows s s' p) : p.Fits s'.maxWidthLog s'.maxHeightLog := by
  rw [maxWidthLog_of_size h.logs.size, maxHeightLog_of_size h.logs.size]
  exact h.fits

/-! ### The cases -/

theorem Zoomed.bounds (h : Zoomed s) : 12 ≤ s.maxHeightLog ∧ s.maxHeightLog ≤ 48 ∧
    32 ≤ s.maxWidthLog ∧ s.maxWidthLog ≤ 128 := by
  rcases h.measures with ⟨-, -, h3, h4⟩ | ⟨-, -, h3, h4⟩ | ⟨-, -, h3, h4⟩ <;> omega

/-- A write within range. -/
theorem Logs.write {row col : Nat} (hrow : row < s.maxHeightLog) (hcol : col < s.maxWidthLog)
    (c : UInt8) : Logs s (s.writeLog row col c) := by
  refine ⟨rfl, rfl, rfl, [.log row col], fun a ha => ?_, rfl⟩
  rw [List.mem_singleton.mp ha]
  show 0 ≤ (row : Int) ∧ _ ∧ _ ∧ _
  omega

theorem natAbs_sub_le_one (a b : Nat) : ((a : Int) - b).natAbs ≤ 1 ↔ a ≤ b + 1 ∧ b ≤ a + 1 := by
  omega

/-- What the cases of a newline and of a tab have in common: the next row of the ring, where
    the origin may have to make room. -/
def rowOn (moves : Prop) [Decidable moves] (s : Screen) : Screen :=
  let s := nextRow s
  let s :=
    if s.maxHeightLog ≤ unsigned s.currentY then incTop { s with currentY := 0 }
    else if moves then incTop s
    else s
  modTop (modRow s)

theorem logNewline_eq (s : Screen) :
    logNewline s = rowOn (s.moovingMatrix = true) (s.writeLog s.currentY s.currentX lf) := rfl

theorem logTabStep_eq (s : Screen) : logTabStep s =
    let s := if s.maxWidthLog ≤ unsigned s.currentX then
        rowOn (s.topLeftScreen ≠ 0 ∨ s.moovingMatrix = true) s
      else s
    logChar s blank := rfl

section Cases

variable (h : Zoomed s) (hp : Holds s p) (hf : p.Fits s.maxWidthLog s.maxHeightLog)
include h hp hf

/-- Is the cursor behind the last column? -/
theorem full_iff : s.maxWidthLog ≤ unsigned s.currentX ↔ p.x = s.maxWidthLog := by
  have hx := hf.x_le
  have hb := h.bounds
  rw [hp.currentX, unsigned_natCast (by omega)]
  omega

/-- `currentY++; currentY %= MAX_HEIGHT_LOG`. -/
theorem nextRow_y : ((unsigned (s.currentY + 1) % s.maxHeightLog : Nat) : Int) =
    ((p.y + 1) % s.maxHeightLog : Nat) := by
  rw [hp.currentY]
  exact nextRow_eq hf.y_lt h.bounds.2.1

/-- `top_left_screen++; top_left_screen %= MAX_HEIGHT_LOG`. -/
theorem nextTop : ((unsigned (s.topLeftScreen + 1) % s.maxHeightLog : Nat) : Int) =
    ((p.top + 1) % s.maxHeightLog : Nat) := by
  rw [hp.top]
  exact nextRow_eq hf.top_lt h.bounds.2.1

/-- The test on the row behind the cursor. -/
theorem canMove_iff : canMoveTopLeftPointer (modRow (nextRow s)) = true ↔
    p.moving = true ∧
      ((p.y + 1) % s.maxHeightLog ≤ p.top + 1 ∧ p.top ≤ (p.y + 1) % s.maxHeightLog + 1 ∨
        (p.y + 1) % s.maxHeightLog = s.maxHeightLog - 1 ∧ p.top = 0) := by
  have hb := h.bounds
  have hlt : (p.y + 1) % s.maxHeightLog < s.maxHeightLog := Nat.mod_lt _ (by omega)
  have hy : (modRow (nextRow s)).currentY = ((p.y + 1) % s.maxHeightLog : Nat) := nextRow_y h hp hf
  have htop : (modRow (nextRow s)).topLeftScreen = p.top := hp.top
  have hmoving : (modRow (nextRow s)).moovingMatrix = p.moving := hp.moving
  have hrows : (modRow (nextRow s)).maxHeightLog = s.maxHeightLog := rfl
  unfold canMoveTopLeftPointer
  rw [hy, htop, hmoving, hrows, unsigned_natCast (by omega), decide_eq_true_iff, natAbs_sub_le_one,
    Int.natCast_eq_zero]
  exact or_iff_right (Nat.ne_of_lt hlt)

theorem wrapLine_follows :
    Follows s (wrapLine s) (p.wrap s.maxWidthLog s.maxHeightLog) ∧
      (p.wrap s.maxWidthLog s.maxHeightLog).x < s.maxWidthLog := by
  have hb := h.bounds
  have hx := hf.x_le
  have hrow : (p.y + 1) % s.maxHeightLog < s.maxHeightLog := Nat.mod_lt _ (by omega)
  unfold wrapLine LogPos.wrap
  by_cases hfull : p.x = s.maxWidthLog
  · -- the cursor goes to the next row, and the origin may move with it
    rw [if_pos ((full_iff h hp hf).mpr hfull), if_pos hfull]
    dsimp only
    by_cases hcan : canMoveTopLeftPointer (modRow (nextRow s)) = true
    · rw [if_pos hcan, if_pos ((canMove_iff h hp hf).mp hcan)]
      refine ⟨⟨⟨rfl, rfl, rfl, [], (fun _ ha => nomatch ha), (List.append_nil _).symm⟩,
        ⟨rfl, nextRow_y h hp hf, nextTop (s := s) h hp hf, hp.moving⟩, ?_⟩, ?_⟩
      · exact ⟨Nat.zero_le _, hrow, Nat.mod_lt _ (by omega)⟩
      · show 0 < s.maxWidthLog
        omega
    · rw [if_neg hcan, if_neg (fun hn => hcan ((canMove_iff h hp hf).mpr hn))]
      refine ⟨⟨⟨rfl, rfl, rfl, [], (fun _ ha => nomatch ha), (List.append_nil _).symm⟩,
        ⟨rfl, nextRow_y h hp hf, hp.top, hp.moving⟩, ?_⟩, ?_⟩
      · exact ⟨Nat.zero_le _, hrow, hf.top_lt⟩
      · show 0 < s.maxWidthLog
        omega
  · rw [if_neg (fun hn => hfull ((full_iff h hp hf).mp hn)), if_neg hfull]
    exact ⟨⟨Logs.refl s, hp, hf⟩, by omega⟩

/-- **The next row**: the origin moves if the cursor comes round, or if `q` holds. -/
theorem rowOn_follows {m q : Prop} [Decidable m] [Decidable q] (hq : m ↔ q) :
    Follows s (rowOn m s) { p with
      x := 0
      y := (p.y + 1) % s.maxHeightLog
      top := if p.y + 1 = s.maxHeightLog ∨ q then (p.top + 1) % s.maxHeightLog else p.top } := by
  have hb := h.bounds
  have hy := hf.y_lt
  have htop := hf.top_lt
  have hrow : (p.y + 1) % s.maxHeightLog < s.maxHeightLog := Nat.mod_lt _ (by omega)
  have hnext : (p.top + 1) % s.maxHeightLog < s.maxHeightLog := Nat.mod_lt _ (by omega)
  have hlast : s.maxHeightLog ≤ unsigned (s.currentY + 1) ↔ p.y + 1 = s.maxHeightLog := by
    rw [hp.currentY, show (p.y : Int) + 1 = ((p.y + 1 : Nat) : Int) by omega,
      unsigned_natCast (by omega)]
    omega
  have hsame : ((unsigned s.topLeftScreen % s.maxHeightLog : Nat) : Int) = p.top := by
    rw [hp.top, unsigned_natCast (by omega), Nat.mod_eq_of_lt htop]
  have hlogs : ∀ t : Screen, t.posX = s.posX → t.posY = s.posY → t.size = s.size →
      t.accesses = s.accesses → Logs s t := fun t h1 h2 h3 h4 =>
    ⟨h1, h2, h3, [], (fun _ ha => nomatch ha), by rw [h4, List.append_nil]⟩
  unfold rowOn
  dsimp only
  by_cases hcome : p.y + 1 = s.maxHeightLog
  · -- `currentY` is set to 0, which the remainder leaves alone
    rw [if_pos (show (nextRow s).maxHeightLog ≤ unsigned (nextRow s).currentY from hlast.mpr hcome),
      if_pos (.inl hcome)]
    refine ⟨hlogs _ rfl rfl rfl rfl, ⟨rfl, ?_, nextTop (s := s) h hp hf, hp.moving⟩,
      ⟨Nat.zero_le _, hrow, hnext⟩⟩
    show ((unsigned 0 % s.maxHeightLog : Nat) : Int) = ((p.y + 1) % s.maxHeightLog : Nat)
    rw [hcome, Nat.mod_self]
    exact congrArg _ (Nat.zero_mod _)
  · rw [if_neg (show ¬ (nextRow s).maxHeightLog ≤ unsigned (nextRow s).currentY from fun hn =>
      hcome (hlast.mp hn))]
    by_cases hmoves : m
    · rw [if_pos hmoves, if_pos (.inr (hq.mp hmoves))]
      exact ⟨hlogs _ rfl rfl rfl rfl, ⟨rfl, nextRow_y h hp hf, nextTop (s := s) h hp hf, hp.moving⟩,
        ⟨Nat.zero_le _, hrow, hnext⟩⟩
    · rw [if_neg hmoves, if_neg (fun hn => hn.elim hcome fun hn => hmoves (hq.mpr hn))]
      exact ⟨hlogs _ rfl rfl rfl rfl, ⟨rfl, nextRow_y h hp hf, hsame, hp.moving⟩,
        ⟨Nat.zero_le _, hrow, htop⟩⟩

/-- The case of a newline, in a column of the row. -/
theorem logNewline_follows (hx : p.x < s.maxWidthLog) :
    Follows s (logNewline s) (p.newline s.maxHeightLog) := by
  have hwrite := Logs.write (s := s) hf.y_lt hx lf
  rw [logNewline_eq, hp.currentY, hp.currentX]
  have hrow := rowOn_follows (s := s.writeLog p.y p.x lf) h
    ⟨hp.currentX, hp.currentY, hp.top, hp.moving⟩ hf (m := s.moovingMatrix = true)
    (q := p.moving = true) (by rw [hp.moving])
  exact ⟨hwrite.trans hrow.logs, hrow.holds, hrow.fits⟩

omit h in
/-- Any other character, in a column of the row. -/
theorem logChar_follows (hx : p.x < s.maxWidthLog) (c : UInt8) :
    Follows s (logChar s c) { p with x := p.x + 1 } := by
  have hwrite := Logs.write (s := s) hf.y_lt hx c
  unfold logChar
  rw [hp.currentY, hp.currentX]
  refine ⟨⟨hwrite.posX, hwrite.posY, hwrite.size, hwrite.accesses⟩, ⟨?_, hp.currentY, hp.top,
    hp.moving⟩, ⟨hx, hf.y_lt, hf.top_lt⟩⟩
  show s.currentX + 1 = ((p.x + 1 : Nat) : Int)
  rw [hp.currentX]
  rfl

/-- A blank of a tab, which wraps by a rule of its own. -/
theorem logTabStep_follows :
    Follows s (logTabStep s) (p.tabStep s.maxWidthLog s.maxHeightLog) := by
  have hb := h.bounds
  rw [logTabStep_eq]
  unfold LogPos.tabStep
  by_cases hfull : p.x = s.maxWidthLog
  · -- unlike a newline, a tab moves the origin whenever it is not 0
    rw [if_pos ((full_iff h hp hf).mpr hfull), if_pos hfull]
    have hrow := rowOn_follows h hp hf (m := s.topLeftScreen ≠ 0 ∨ s.moovingMatrix = true)
      (q := p.top ≠ 0 ∨ p.moving = true) (by rw [hp.moving, hp.top, Int.natCast_ne_zero])
    refine hrow.trans (logChar_follows hrow.holds hrow.fits' ?_ blank)
    rw [maxWidthLog_of_size hrow.logs.size]
    show 0 < s.maxWidthLog
    omega
  · rw [if_neg (fun hn => hfull ((full_iff h hp hf).mp hn)), if_neg hfull]
    have hx := hf.x_le
    exact logChar_follows hp hf (by omega) blank

/-- The case of a backspace. -/
theorem logBackspace_follows (hx : p.x < s.maxWidthLog) :
    Follows s (logBackspace s) (p.backspace s.maxWidthLog s.maxHeightLog) := by
  have hb := h.bounds
  have hy := hf.y_lt
  -- the cursor is set and a blank is written there
  have hset : ∀ x y : Nat, x < s.maxWidthLog → y < s.maxHeightLog → ∀ t : Screen,
      t = { s with currentX := x, currentY := y } →
      Follows s (t.writeLog y x blank) { p with x := x, y := y } := by
    rintro x y hx' hy' t rfl
    have hwrite := Logs.write (s := s) hy' hx' blank
    exact ⟨⟨rfl, rfl, rfl, hwrite.accesses⟩, ⟨rfl, rfl, hp.top, hp.moving⟩,
      ⟨hx'.le, hy', hf.top_lt⟩⟩
  have hx0 : s.currentX = 0 ↔ p.x = 0 := by rw [hp.currentX, Int.natCast_eq_zero]
  have hy0 : s.currentY = 0 ↔ p.y = 0 := by rw [hp.currentY, Int.natCast_eq_zero]
  unfold logBackspace LogPos.backspace
  dsimp only
  by_cases hpx : p.x = 0
  · rw [if_pos (hx0.mpr hpx), if_pos hpx]
    by_cases hcome : p.y = 0 ∧ p.moving = true
    · rw [if_pos ⟨hy0.mpr hcome.1, hp.moving.trans hcome.2⟩, if_pos hcome]
      exact hset _ _ (by omega) (by omega) _ rfl
    · rw [if_neg (fun hn => hcome ⟨hy0.mp hn.1, hp.moving.symm.trans hn.2⟩), if_neg hcome]
      by_cases hpy : p.y = 0
      · rw [if_neg (fun hn => hn (hy0.mpr hpy)), if_neg (fun hn => hn hpy)]
        exact ⟨Logs.refl s, hp, hf⟩
      · rw [if_pos (fun hn => hpy (hy0.mp hn)), if_pos hpy]
        have hback : s.currentY - 1 = ((p.y - 1 : Nat) : Int) := by
          rw [hp.currentY]
          omega
        rw [hback]
        exact hset _ _ (by omega) (by omega) _ rfl
  · rw [if_neg (fun hn => hpx (hx0.mp hn)), if_neg hpx]
    have hback : s.currentX - 1 = ((p.x - 1 : Nat) : Int) := by
      rw [hp.currentX]
      omega
    rw [hback]
    have hstay := hset (p.x - 1) p.y (by omega) hy { s with currentX := (p.x - 1 : Nat) } (by
      rw [← hp.currentY])
    rw [← hp.currentY] at hstay
    exact hstay

theorem tabSteps_follows (n : Nat) :
    Follows s (logTabStep^[n] s) ((LogPos.tabStep s.maxWidthLog s.maxHeightLog)^[n] p) := by
  induction n with
  | zero => exact ⟨Logs.refl s, hp, hf⟩
  | succ n ih =>
    rw [Function.iterate_succ_apply', Function.iterate_succ_apply']
    have hsize := ih.logs.size
    have hstep := logTabStep_follows (zoomed_of_size hsize h) ih.holds ih.fits'
    rw [maxWidthLog_of_size hsize, maxHeightLog_of_size hsize] at hstep
    exact ih.trans hstep

/-- The `switch`, in a column of the row. -/
theorem logCase_follows (hx : p.x < s.maxWidthLog) (c : UInt8) :
    Follows s (logCase s c) (p.case s.maxWidthLog s.maxHeightLog c) := by
  unfold logCase LogPos.case
  split
  · exact logNewline_follows h hp hf hx
  · split
    · exact logBackspace_follows h hp hf hx
    · split
      · exact tabSteps_follows h hp hf 4
      · exact logChar_follows hp hf hx c

/-- **`update_screen_text_log`** does to the variables what `LogPos.after` does to the numbers. -/
theorem update_follows (c : UInt8) :
    Follows s (updateScreenTextLog s c) (p.after s.maxWidthLog s.maxHeightLog c) := by
  obtain ⟨hwrap, hx⟩ := wrapLine_follows h hp hf
  have hsize := hwrap.logs.size
  have hcase := logCase_follows (zoomed_of_size hsize h) hwrap.holds hwrap.fits'
    (by rw [maxWidthLog_of_size hsize]; exact hx) c
  rw [maxWidthLog_of_size hsize, maxHeightLog_of_size hsize] at hcase
  have hall := hwrap.trans hcase
  have htop : (logCase (wrapLine s) c).topLeftScreen ≠ 0 ↔
      ((p.wrap s.maxWidthLog s.maxHeightLog).case s.maxWidthLog s.maxHeightLog c).top ≠ 0 := by
    rw [hall.holds.top, Int.natCast_ne_zero]
  unfold updateScreenTextLog LogPos.after LogPos.settle
  dsimp only
  by_cases hmoved : (logCase (wrapLine s) c).topLeftScreen ≠ 0
  · rw [if_pos hmoved, if_pos (htop.mp hmoved)]
    exact ⟨⟨hall.logs.posX, hall.logs.posY, hall.logs.size, hall.logs.accesses⟩,
      ⟨hall.holds.currentX, hall.holds.currentY, hall.holds.top, rfl⟩,
      ⟨hall.fits.x_le, hall.fits.y_lt, hall.fits.top_lt⟩⟩
  · rw [if_neg hmoved, if_neg (fun hn => hmoved (htop.mpr hn))]
    exact hall

end Cases

/-! ### The driver -/

theorem cellAfter_of_size (h : s'.size = s.size) (fd : Nat) (c : UInt8) (k : Nat) :
    cellAfter s' fd c k = cellAfter s fd c k := by
  have hdrawn : drawn s' = drawn s := by
    funext k
    unfold drawn Screen.cells
    rw [maxWidthLog_of_size h, maxHeightLog_of_size h]
  unfold cellAfter newlined erased
  rw [maxWidthLog_of_size h, maxHeightLog_of_size h, hdrawn]

theorem at_of_size {k : Nat} (hx : s'.posX = s.posX) (hy : s'.posY = s.posY)
    (hsize : s'.size = s.size) (h : At s k) : At s' k := by
  unfold At Screen.charWidth Screen.charHeight at *
  rw [maxWidthLog_of_size hsize, hx, hy, hsize]
  exact h

/-- The zoom level, the cell of the cursor and the place in the log. -/
structure Stands (s : Screen) (k : Nat) (p : LogPos) : Prop where
  zoomed : Zoomed s
  cell : At s k
  cell_le : k ≤ s.cells
  holds : Holds s p
  fits : p.Fits s.maxWidthLog s.maxHeightLog

/-- All that has been touched since `s` is inside. -/
def Touches (s s' : Screen) : Prop :=
  s'.size = s.size ∧ ∃ as, (∀ a ∈ as, Inside s a) ∧ s'.accesses = s.accesses ++ as

theorem Touches.refl (s : Screen) : Touches s s :=
  ⟨rfl, [], (fun _ ha => nomatch ha), (List.append_nil _).symm⟩

theorem Touches.trans {s'' : Screen} (h : Touches s s') (h' : Touches s' s'') : Touches s s'' := by
  obtain ⟨hsize, as, has, he⟩ := h
  obtain ⟨hsize', as', has', he'⟩ := h'
  refine ⟨hsize'.trans hsize, as ++ as', fun a ha => ?_, by rw [he', he, List.append_assoc]⟩
  rcases List.mem_append.mp ha with ha | ha
  · exact has a ha
  · exact inside_of_size hsize (has' a ha)

/-- **One character** moves both cursors. -/
theorem Stands.printChar {k : Nat} (h : Stands s k p) (fd : Nat) {c : UInt8}
    (hc : specialChar c = false) : ∃ s', printChar fd s c = .ok s' ∧
      Stands s' (cellAfter s fd c k) (p.after s.maxWidthLog s.maxHeightLog c) ∧ Touches s s' := by
  obtain ⟨hlogs, hholds, hfits⟩ := update_follows h.zoomed h.holds h.fits c
  have hwidth := maxWidthLog_of_size hlogs.size
  have hheight := maxHeightLog_of_size hlogs.size
  have hcells : (updateScreenTextLog s c).cells = s.cells := by
    unfold Screen.cells
    rw [hwidth, hheight]
  have hzoomed := zoomed_of_size hlogs.size h.zoomed
  have htop : TopInside (updateScreenTextLog s c) := by
    have htl := hfits.top_lt
    unfold TopInside
    rw [hholds.top, hheight]
    omega
  have hle : k ≤ (updateScreenTextLog s c).cells := by
    rw [hcells]
    exact h.cell_le
  obtain ⟨as, has, hdraw⟩ := drawCase_moves hzoomed htop
    (at_of_size hlogs.posX hlogs.posY hlogs.size h.cell) hle fd c
  have hcell := cellAfter_le hzoomed hle fd c
  rw [cellAfter_of_size hlogs.size] at hdraw hcell
  refine ⟨(updateScreenTextLog s c).placed (cellAfter s fd c k) as, ?_,
    ⟨hzoomed, placed_at _ _ as, hcell, ?_, ?_⟩, ?_⟩
  · rw [TpeSo.Video.printChar, if_neg (by rw [hc]; exact nofun), hdraw]
  · exact ⟨hholds.currentX, hholds.currentY, hholds.top, hholds.moving⟩
  · show LogPos.Fits (updateScreenTextLog s c).maxWidthLog (updateScreenTextLog s c).maxHeightLog _
    rw [hwidth, hheight]
    exact hfits
  · have hlog : Touches s (updateScreenTextLog s c) := ⟨hlogs.size, hlogs.accesses⟩
    exact hlog.trans ⟨rfl, as, has, rfl⟩

/-- **A string** leaves both cursors in order. -/
theorem Stands.print (fd : Nat) (buf : List UInt8) : ∀ {s : Screen} {k : Nat} {p : LogPos},
    Stands s k p → ∃ s' k' p', print fd buf s = .ok s' ∧ Stands s' k' p' ∧ Touches s s' := by
  induction buf with
  | nil => exact fun h => ⟨_, _, _, rfl, h, Touches.refl _⟩
  | cons c buf ih =>
    intro s k p h
    cases hc : specialChar c with
    | true =>
      have hskip : TpeSo.Video.printChar fd s c = .ok s := if_pos hc
      rw [TpeSo.Video.print, hskip, Outcome.ok_bind]
      exact ih h
    | false =>
      obtain ⟨s₁, hok, hs₁, htouch⟩ := h.printChar fd hc
      obtain ⟨s', k', p', hrest, hs', htouch'⟩ := ih hs₁
      rw [TpeSo.Video.print, hok, Outcome.ok_bind]
      exact ⟨s', k', p', hrest, hs', htouch.trans htouch'⟩

/-- A cleared screen, at a zoom level. -/
theorem clearScreen_stands (h : Zoomed s) : Stands (clearScreen s) 0 ⟨0, 0, 0, false⟩ where
  zoomed := h
  cell := by
    unfold At
    rw [Nat.zero_mod, Nat.zero_div, Nat.zero_mul, Nat.zero_mul]
    exact ⟨rfl, rfl⟩
  cell_le := Nat.zero_le _
  holds := ⟨rfl, rfl, rfl, rfl⟩
  fits := by
    have hb := h.bounds
    exact ⟨Nat.zero_le _, by show 0 < s.maxHeightLog; omega, by show 0 < s.maxHeightLog; omega⟩

/-- What `clear_screen` touches, whatever the zoom level is. -/
theorem clearScreen_inside (t : Screen) (hs : s.accesses = []) :
    ∀ a ∈ (clearScreen s).accesses, Inside t a := by
  intro a ha
  have ha : a ∈ s.accesses ++ (List.range screenWidthPixels).flatMap fun i =>
    (List.range screenHeightPixels).map fun j => Access.pixel i j := ha
  rw [hs, List.nil_append, List.mem_flatMap] at ha
  obtain ⟨i, hi, ha⟩ := ha
  obtain ⟨j, hj, rfl⟩ := List.mem_map.mp ha
  exact ⟨List.mem_range.mp hi, List.mem_range.mp hj⟩

/-- The invariant of the driver: both cursors are in order. -/
def InOrder (s : Screen) : Prop := ∃ k p, Stands s k p

theorem inOrder_boot : InOrder {} := by
  refine ⟨0, ⟨0, 0, 0, false⟩, .inl rfl, ⟨?_, ?_⟩, Nat.zero_le _, ⟨rfl, rfl, rfl, rfl⟩, ?_⟩
  · decide
  · decide
  · exact ⟨by decide, by decide, by decide⟩

/-- **A call** comes back with both cursors in order, and touches only what is inside. -/
theorem call_inOrder (h : InOrder s) (e : Call) : ∃ s', call s e = .ok s' ∧ InOrder s' ∧
    ∀ a ∈ s'.accesses, Inside s a := by
  obtain ⟨k, p, h⟩ := h
  have hclear : ∀ size, (size = 1 ∨ size = 2 ∨ size = 4) →
      InOrder (clearScreen { s with size := size, accesses := [] }) := fun size hsize =>
    ⟨_, _, clearScreen_stands (s := { s with size := size, accesses := [] }) hsize⟩
  cases e with
  | print fd buf =>
    obtain ⟨s', k', p', hok, hs', hsize, as, has, he⟩ :=
      Stands.print fd buf (s := { s with accesses := [] })
        ⟨h.zoomed, h.cell, h.cell_le, ⟨h.holds.currentX, h.holds.currentY, h.holds.top,
          h.holds.moving⟩, h.fits⟩
    refine ⟨s', hok, ⟨k', p', hs'⟩, fun a ha => has a ?_⟩
    rwa [he, List.nil_append] at ha
  | zoomIn =>
    refine ⟨_, rfl, hclear _ ?_, clearScreen_inside s rfl⟩
    rcases h.zoomed with hs | hs | hs <;> rw [hs] <;> decide
  | zoomOut =>
    refine ⟨_, rfl, hclear _ ?_, clearScreen_inside s rfl⟩
    rcases h.zoomed with hs | hs | hs <;> rw [hs] <;> decide
  | clearScreen => exact ⟨_, rfl, hclear s.size h.zoomed, clearScreen_inside s rfl⟩

/-- Every state of a run is in order. -/
theorem run_inOrder {tr : List (Screen × Call × List Access)}
    (hrun : Trace next (fun _ _ => True) {} tr s) : InOrder s := by
  refine hrun.invariant InOrder inOrder_boot ?_
  intro t e u o ht _ hstep
  obtain ⟨t', hok, ht', -⟩ := call_inOrder ht e
  rw [next, hok] at hstep
  obtain ⟨rfl, -⟩ := Prod.mk.inj (Option.some.inj hstep)
  exact ht'

/-- **Drawing ends and stays on the screen.**  In every state of a run every call comes back,
    although `scroll_down` is never entered inside itself; all pixels are on the screen, and
    `scroll_down` leaves the cursor at the start of the last row. -/
theorem drawing_inside {tr : List (Screen × Call × List Access)}
    (hrun : Trace next (fun _ _ => True) {} tr s) (e : Call) : ∃ s', call s e = .ok s' ∧
      (∀ x y, .pixel x y ∈ s'.accesses → x < screenWidthPixels ∧ y < screenHeightPixels) ∧
      (∀ x y, .scrolled x y ∈ s'.accesses → x = 0 ∧ y = screenHeightPixels - s.charHeight) := by
  obtain ⟨s', hok, -, hin⟩ := call_inOrder (run_inOrder hrun) e
  exact ⟨s', hok, fun x y ha => hin _ ha, fun x y ha => hin _ ha⟩

theorem drawing_inside_boot : ∃ s', call {} (.print 1 [65, lf, ht, bs]) = .ok s' ∧
    (∀ x y, .pixel x y ∈ s'.accesses → x < screenWidthPixels ∧ y < screenHeightPixels) ∧
    (∀ x y, .scrolled x y ∈ s'.accesses →
      x = 0 ∧ y = screenHeightPixels - ({} : Screen).charHeight) :=
  drawing_inside .nil (.print 1 [65, lf, ht, bs])

/-- **The log is only touched in range**, and its cursor and its origin stay in range. -/
theorem logIndices_inside {tr : List (Screen × Call × List Access)}
    (hrun : Trace next (fun _ _ => True) {} tr s) :
    (0 ≤ s.currentX ∧ s.currentX ≤ s.maxWidthLog) ∧
    (0 ≤ s.currentY ∧ s.currentY < s.maxHeightLog) ∧
    (0 ≤ s.topLeftScreen ∧ s.topLeftScreen < s.maxHeightLog) ∧
    ∀ e, ∃ s', call s e = .ok s' ∧ ∀ row col : Int, .log row col ∈ s'.accesses →
      (0 ≤ row ∧ row < s.maxHeightLog) ∧ 0 ≤ col ∧ col < s.maxWidthLog := by
  obtain ⟨_, p, h⟩ := run_inOrder hrun
  have hx := h.fits.x_le
  have hy := h.fits.y_lt
  have htop := h.fits.top_lt
  rw [h.holds.currentX, h.holds.currentY, h.holds.top]
  refine ⟨by omega, by omega, by omega, fun e => ?_⟩
  obtain ⟨s', hok, -, hinside⟩ := call_inOrder (run_inOrder hrun) e
  refine ⟨s', hok, fun row col ha => ?_⟩
  obtain ⟨h1, h2, h3, h4⟩ := hinside _ ha
  exact ⟨⟨h1, h2⟩, h3, h4⟩

theorem logIndices_inside_boot : (0 ≤ ({} : Screen).currentX ∧
      ({} : Screen).currentX ≤ ({} : Screen).maxWidthLog) ∧
    (0 ≤ ({} : Screen).currentY ∧ ({} : Screen).currentY < ({} : Screen).maxHeightLog) ∧
    (0 ≤ ({} : Screen).topLeftScreen ∧
      ({} : Screen).topLeftScreen < ({} : Screen).maxHeightLog) ∧
    ∀ e, ∃ s', call {} e = .ok s' ∧ ∀ row col : Int, .log row col ∈ s'.accesses →
      (0 ≤ row ∧ row < ({} : Screen).maxHeightLog) ∧ 0 ≤ col ∧
        col < ({} : Screen).maxWidthLog :=
  logIndices_inside .nil

end TpeSo.Video
