import Mathlib.Tactic.IntervalCases
import TpeSo.Video.Driver

namespace TpeSo.Video

open Lib

/-!
# Video — the cursor in pixels

At each zoom level the screen is a grid of `W` columns and `H` rows, and the cursor stands on
the corner of a cell.  Cells are numbered row by row; one number more stands for the cursor
that has passed the last cell and has not scrolled yet.

* `At s k` — the cursor stands at cell `k`, `k ≤ W * H`;
* `Moves s k o` — `o` is `s` with the cursor at cell `k`, and all that was touched is `Inside`
  the screen and the log;
* `scrollDown_moves` — **`scroll_down` comes back**, with the cursor at the start of the last
  row, and without calling itself;
* `drawcharSize_moves`, `deleteChar_moves`, `drawCase_moves` — where drawing and erasing move
  the cursor.
-/

variable {s : Screen} {k n : Nat}

/-! ### The grid -/

/-- One of the three zoom levels. -/
def Zoomed (s : Screen) : Prop := s.size = 1 ∨ s.size = 2 ∨ s.size = 4

/-- The cells of the grid. -/
def Screen.cells (s : Screen) : Nat := s.maxWidthLog * s.maxHeightLog

/-- The measures at the three zoom levels. -/
theorem Zoomed.measures (h : Zoomed s) :
    s.charWidth = 8 ∧ s.charHeight = 16 ∧ s.maxWidthLog = 128 ∧ s.maxHeightLog = 48 ∨
    s.charWidth = 16 ∧ s.charHeight = 32 ∧ s.maxWidthLog = 64 ∧ s.maxHeightLog = 24 ∨
    s.charWidth = 32 ∧ s.charHeight = 64 ∧ s.maxWidthLog = 32 ∧ s.maxHeightLog = 12 := by
  unfold Screen.maxWidthLog Screen.maxHeightLog Screen.charWidth Screen.charHeight
  rcases h with h | h | h <;> rw [h] <;> decide

/-- The cursor stands on the corner of cell `k`. -/
def At (s : Screen) (k : Nat) : Prop :=
  s.posX = k % s.maxWidthLog * s.charWidth ∧ s.posY = k / s.maxWidthLog * s.charHeight

/-- What may be touched: pixels of the screen, places of the log within the columns and rows
    of the zoom level; and where `scroll_down` leaves the cursor. -/
def Inside (s : Screen) : Access → Prop
  | .pixel x y => x < screenWidthPixels ∧ y < screenHeightPixels
  | .log row col => 0 ≤ row ∧ row < s.maxHeightLog ∧ 0 ≤ col ∧ col < s.maxWidthLog
  | .scrolled x y => x = 0 ∧ y = screenHeightPixels - s.charHeight

/-- The screen with the cursor at cell `k`, after touching `as`. -/
def Screen.placed (s : Screen) (k : Nat) (as : List Access) : Screen :=
  { s with
    posX := k % s.maxWidthLog * s.charWidth
    posY := k / s.maxWidthLog * s.charHeight
    accesses := s.accesses ++ as }

theorem placed_at (s : Screen) (k : Nat) (as : List Access) : At (s.placed k as) k := ⟨rfl, rfl⟩

theorem placed_placed (s : Screen) (k k' : Nat) (as as' : List Access) :
    (s.placed k as).placed k' as' = s.placed k' (as ++ as') := by
  unfold Screen.placed
  dsimp only
  rw [List.append_assoc]
  rfl

/-- The cursor is set, and something is touched. -/
theorem touch_eq_placed {x y : Nat} {as : List Access} (hx : x = k % s.maxWidthLog * s.charWidth)
    (hy : y = k / s.maxWidthLog * s.charHeight) :
    ({ s with posX := x, posY := y } : Screen).touch as = s.placed k as := by
  subst hx hy
  rfl

/-- The cursor is set. -/
theorem pos_eq_placed {x y : Nat} (hx : x = k % s.maxWidthLog * s.charWidth)
    (hy : y = k / s.maxWidthLog * s.charHeight) :
    ({ s with posX := x, posY := y } : Screen) = s.placed k [] := by
  subst hx hy
  simp [Screen.placed]

theorem touch_eq (h : At s k) (as : List Access) : s.touch as = s.placed k as :=
  touch_eq_placed h.1 h.2

/-- `o` is the screen `s` with the cursor at cell `k`; all that was touched is inside. -/
def Moves (s : Screen) (k : Nat) (o : Outcome Screen) : Prop :=
  ∃ as, (∀ a ∈ as, Inside s a) ∧ o = .ok (s.placed k as)

theorem Moves.touch (h : At s k) {as : List Access} (has : ∀ a ∈ as, Inside s a) :
    Moves s k (.ok (s.touch as)) := ⟨as, has, by rw [touch_eq h]⟩

theorem Moves.refl (h : At s k) : Moves s k (.ok s) := by
  refine ⟨[], (fun _ ha => nomatch ha), ?_⟩
  rw [← touch_eq h, Screen.touch, List.append_nil]

/-- The screen may be looked at after the cursor has been set. -/
theorem Moves.of_placed {k' : Nat} {o : Outcome Screen} (h : Moves (s.placed k []) k' o) :
    Moves s k' o := by
  obtain ⟨as, has, rfl⟩ := h
  exact ⟨as, has, by rw [placed_placed, List.nil_append]⟩

theorem Moves.placed (s : Screen) (k : Nat) : Moves s k (.ok (s.placed k [])) :=
  ⟨[], (fun _ ha => nomatch ha), rfl⟩

/-- Where the cursor stood before does not matter. -/
theorem Moves.of_pos {x y : Nat} {o : Outcome Screen}
    (h : Moves { s with posX := x, posY := y } k o) : Moves s k o := by
  obtain ⟨as, has, rfl⟩ := h
  exact ⟨as, has, rfl⟩

/-- **Composition**, when the last cell is known up to `P`. -/
theorem Moves.bind_exists {P : Nat → Prop} {o : Outcome Screen} {f : Screen → Outcome Screen}
    (h : Moves s k o)
    (hf : ∀ as, ∃ k', P k' ∧ Moves (s.placed k as) k' (f (s.placed k as))) :
    ∃ k', P k' ∧ Moves s k' (o >>= f) := by
  obtain ⟨as, has, rfl⟩ := h
  obtain ⟨k', hP, as', has', hok⟩ := hf as
  rw [Outcome.ok_bind, hok, placed_placed]
  refine ⟨k', hP, as ++ as', fun a ha => ?_, rfl⟩
  rcases List.mem_append.mp ha with ha | ha
  · exact has a ha
  · exact has' a ha

/-- **Composition.** -/
theorem Moves.bind {k' : Nat} {o : Outcome Screen} {f : Screen → Outcome Screen} (h : Moves s k o)
    (hf : ∀ as, Moves (s.placed k as) k' (f (s.placed k as))) : Moves s k' (o >>= f) := by
  obtain ⟨_, rfl, hmoves⟩ := h.bind_exists (P := fun i => i = k') fun as => ⟨k', rfl, hf as⟩
  exact hmoves

/-! ### One character -/

theorem glyphPixels_inside (h : Zoomed s) {x y : Nat} (hx : x + s.charWidth ≤ screenWidthPixels)
    (hy : y + s.charHeight ≤ screenHeightPixels) : ∀ a ∈ glyphPixels s.size x y, Inside s a := by
  intro a ha
  simp only [glyphPixels, List.mem_flatMap, List.mem_map, List.mem_range] at ha
  obtain ⟨cy, hcy, i, hi, cx, hcx, j, hj, rfl⟩ := ha
  unfold Screen.charWidth screenWidthPixels at hx
  unfold Screen.charHeight screenHeightPixels at hy
  show _ < 1024 ∧ _ < 768
  -- at each zoom level the products of the sizes are linear
  rcases h with h | h | h <;> rw [h] at hx hy hi hj ⊢ <;> omega

/-- A cell of the grid lies inside the screen. -/
theorem At.fits (hk : At s k) (h : Zoomed s) (hlt : k < s.cells) :
    s.posX + s.charWidth ≤ screenWidthPixels ∧ s.posY + s.charHeight ≤ screenHeightPixels := by
  obtain ⟨hx, hy⟩ := hk
  unfold Screen.cells at hlt
  unfold screenWidthPixels screenHeightPixels
  rcases h.measures with ⟨h1, h2, h3, h4⟩ | ⟨h1, h2, h3, h4⟩ | ⟨h1, h2, h3, h4⟩ <;>
    rw [h1, h3] at hx <;> rw [h2, h3] at hy <;> rw [h3, h4] at hlt <;> rw [h1, h2] <;> omega

/-- **A glyph inside the screen** moves the cursor to the next cell. -/
theorem drawGlyph_moves (h : Zoomed s) (hk : At s k) (hlt : k < s.cells) :
    Moves s (k + 1) (.ok (drawGlyph s)) := by
  obtain ⟨hfitx, hfity⟩ := hk.fits h hlt
  refine ⟨glyphPixels s.size s.posX s.posY, glyphPixels_inside h hfitx hfity,
    congrArg Outcome.ok ?_⟩
  obtain ⟨hx, hy⟩ := hk
  have hnext : u32 (s.posX + s.charWidth) % screenWidthPixels =
      (k + 1) % s.maxWidthLog * s.charWidth ∧
      (if u32 (s.posX + s.charWidth) % screenWidthPixels = 0 then u32 (s.posY + s.charHeight)
        else s.posY) = (k + 1) / s.maxWidthLog * s.charHeight := by
    unfold Screen.cells at hlt
    unfold u32 screenWidthPixels
    -- the remainder is 0 exactly behind the last column, where the row changes too
    rcases h.measures with ⟨h1, h2, h3, h4⟩ | ⟨h1, h2, h3, h4⟩ | ⟨h1, h2, h3, h4⟩ <;>
      rw [h1, h3] at hx <;> rw [h2, h3] at hy <;> rw [h3, h4] at hlt <;>
      rw [h1, h2, h3, hx, hy] <;> refine ⟨by omega, ?_⟩ <;> split <;> omega
  unfold Screen.placed
  rw [← hnext.1, ← hnext.2]
  rfl

/-- A cell of the grid passes both tests. -/
theorem At.tests (hk : At s k) (h : Zoomed s) (hlt : k < s.cells) :
    fitColumn s = s ∧ ¬ belowScreen s := by
  obtain ⟨hfitx, hfity⟩ := hk.fits h hlt
  have htests : ¬ sub32 screenWidthPixels s.charWidth < s.posX ∧
      ¬ sub32 screenHeightPixels s.charHeight < s.posY := by
    unfold sub32
    unfold screenWidthPixels screenHeightPixels at *
    omega
  exact ⟨if_neg htests.1, htests.2⟩

/-- `drawcharSize` inside the screen. -/
theorem drawcharSize_fits (h : Zoomed s) (hk : At s k) (hlt : k < s.cells) (nested : Nat)
    (c : UInt8) : drawcharSize nested c s = .ok (drawGlyph s) := by
  obtain ⟨hfit, hbelow⟩ := hk.tests h hlt
  cases nested with
  | zero => rw [drawcharSize, hfit, if_neg hbelow]
  | succ nested => rw [drawcharSize, hfit, if_neg hbelow]

/-- A routine that draws a character inside the screen as `drawcharSize` does. -/
def DrawsInside (draw : UInt8 → Screen → Outcome Screen) : Prop :=
  ∀ (s : Screen) (k : Nat) (c : UInt8), Zoomed s → At s k → k < s.cells →
    Moves s (k + 1) (draw c s)

theorem drawcharSize_inside (nested : Nat) : DrawsInside (drawcharSize nested) := by
  intro s k c h hk hlt
  rw [drawcharSize_fits h hk hlt]
  exact drawGlyph_moves h hk hlt

/-! ### The loops of `scroll_down` -/

/-- A place of the log. -/
theorem log_inside {y : Nat} (hy : y < s.maxHeightLog) {n : Nat} (hn : n < s.maxWidthLog) :
    Inside s (.log y ((s.maxWidthLog : Int) - (n + 1 : Nat))) := by
  show 0 ≤ (y : Int) ∧ _ ∧ _ ∧ _
  omega

/-- The place of the log with `n` columns behind it. -/
def logPlace (s : Screen) (y n : Nat) : Access := .log y ((s.maxWidthLog : Int) - (n + 1 : Nat))

theorem logPlace_inside {y : Nat} (hy : y < s.maxHeightLog) {n : Nat} (hn : n < s.maxWidthLog) :
    ∀ a ∈ [logPlace s y n], Inside s a := by
  intro a ha
  rw [List.mem_singleton.mp ha]
  exact log_inside hy hn

theorem clearRow_eq (draw : UInt8 → Screen → Outcome Screen) (y n : Nat) (s : Screen) :
    clearRow draw y (n + 1) s =
      if s.screenTextLog y ((s.maxWidthLog : Int) - (n + 1 : Nat)) = lf then
        .ok (s.touch [logPlace s y n])
      else draw blank (s.touch [logPlace s y n]) >>= clearRow draw y n := rfl

theorem redrawRow_eq (draw : UInt8 → Screen → Outcome Screen) (y n : Nat) (s : Screen) :
    redrawRow draw y (n + 1) s =
      if s.screenTextLog y ((s.maxWidthLog : Int) - (n + 1 : Nat)) = lf then
        drawBlanks draw (n + 1) (s.touch [logPlace s y n])
      else draw (s.screenTextLog y ((s.maxWidthLog : Int) - (n + 1 : Nat)))
        ((s.touch [logPlace s y n]).touch [logPlace s y n]) >>= redrawRow draw y n := rfl

section Loops

variable {draw : UInt8 → Screen → Outcome Screen} (hdraw : DrawsInside draw)
include hdraw

/-- `n` blanks take `n` cells. -/
theorem drawBlanks_moves (n : Nat) : ∀ {s : Screen} {k : Nat}, Zoomed s → At s k →
    k + n ≤ s.cells → Moves s (k + n) (drawBlanks draw n s) := by
  induction n with
  | zero => exact fun _ hk _ => Moves.refl hk
  | succ n ih =>
    intro s k h hk hle
    refine (hdraw s k blank h hk (by omega)).bind fun as => ?_
    rw [show k + (n + 1) = k + 1 + n by omega]
    exact ih h (placed_at s _ as) (by show k + 1 + n ≤ s.cells; omega)

/-- A cleared row takes at most as many cells as there are columns. -/
theorem clearRow_moves {y : Nat} (n : Nat) : ∀ {s : Screen} {k : Nat}, Zoomed s → At s k →
    y < s.maxHeightLog → n ≤ s.maxWidthLog → k + n ≤ s.cells →
    ∃ k', (k ≤ k' ∧ k' ≤ k + n) ∧ Moves s k' (clearRow draw y n s) := by
  induction n with
  | zero => exact fun _ hk _ _ _ => ⟨_, ⟨Nat.le_refl _, Nat.le_refl _⟩, Moves.refl hk⟩
  | succ n ih =>
    intro s k h hk hy hn hle
    have htouch := Moves.touch hk (logPlace_inside hy (show n < s.maxWidthLog by omega))
    rw [clearRow_eq]
    split
    · -- a newline ends the row, and the columns behind it are not cleared
      exact ⟨k, ⟨Nat.le_refl _, by omega⟩, htouch⟩
    · refine htouch.bind_exists (f := fun s' => draw blank s' >>= clearRow draw y n) fun as => ?_
      have hk : k < s.cells := by omega
      refine (hdraw (s.placed k as) k blank h (placed_at s k as) hk).bind_exists fun as' => ?_
      rw [placed_placed]
      obtain ⟨k', ⟨hlo, hhi⟩, hmoves⟩ := ih (s := s.placed (k + 1) (as ++ as')) h
        (placed_at s _ _) hy (by show n ≤ s.maxWidthLog; omega)
        (by show k + 1 + n ≤ s.cells; omega)
      exact ⟨k', ⟨by omega, by omega⟩, hmoves⟩

/-- A redrawn row takes exactly as many cells as there are columns. -/
theorem redrawRow_moves {y : Nat} (n : Nat) : ∀ {s : Screen} {k : Nat}, Zoomed s → At s k →
    y < s.maxHeightLog → n ≤ s.maxWidthLog → k + n ≤ s.cells →
    Moves s (k + n) (redrawRow draw y n s) := by
  induction n with
  | zero => exact fun _ hk _ _ _ => Moves.refl hk
  | succ n ih =>
    intro s k h hk hy hn hle
    have hin := logPlace_inside hy (show n < s.maxWidthLog by omega)
    have htouch := Moves.touch hk hin
    rw [redrawRow_eq]
    split
    · -- behind a newline the row is filled up
      exact htouch.bind fun as => drawBlanks_moves hdraw (n + 1) h (placed_at s k as) hle
    · -- the place is read for the test, and once more for the character
      have htwice : Moves s k (.ok ((s.touch [logPlace s y n]).touch [logPlace s y n])) :=
        htouch.bind (f := fun s' => .ok (s'.touch [logPlace s y n])) fun as =>
          Moves.touch (placed_at s k as) hin
      refine htwice.bind (f := fun s' => draw _ s' >>= redrawRow draw y n) fun as => ?_
      have hk : k < s.cells := by omega
      refine (hdraw (s.placed k as) k _ h (placed_at s k as) hk).bind fun as' => ?_
      rw [placed_placed, show k + (n + 1) = k + 1 + n by omega]
      exact ih h (placed_at s _ _) hy (by show n ≤ s.maxWidthLog; omega)
        (by show k + 1 + n ≤ s.cells; omega)

end Loops

/-! ### `scroll_down` -/

theorem unsigned_natCast {n : Nat} (h : n < 2 ^ 32) : unsigned n = n := by
  unfold unsigned
  omega

/-- The row behind row `y`, circularly. -/
theorem nextRow_eq {y rows : Nat} (hy : y < rows) (hrows : rows ≤ 48) :
    ((unsigned ((y : Int) + 1) % rows : Nat) : Int) = ((y + 1) % rows : Nat) := by
  have hcast : ((y : Int) + 1) = ((y + 1 : Nat) : Int) := by omega
  rw [hcast, unsigned_natCast (by omega)]

/-- **A loop over rows** that has `d` rows to go comes back, when each row takes between
    `lo W` and `W` cells. -/
theorem eachRow_moves (row : Int → Screen → Outcome Screen) (lo : Nat → Nat) (stop : Nat)
    (hrow : ∀ (s : Screen) (k y : Nat), Zoomed s → At s k → y < s.maxHeightLog →
      k + s.maxWidthLog ≤ s.cells →
      ∃ k', (k + lo s.maxWidthLog ≤ k' ∧ k' ≤ k + s.maxWidthLog) ∧ Moves s k' (row y s))
    (d : Nat) : ∀ (first : Bool) {s : Screen} {k y fuel : Nat}, Zoomed s → At s k →
    y < s.maxHeightLog → (y + d) % s.maxHeightLog = stop → d ≤ s.maxHeightLog →
    (first = true → 0 < d) → (first = false → d < s.maxHeightLog) → d < fuel →
    k + d * s.maxWidthLog ≤ s.cells →
    ∃ k', (k + d * lo s.maxWidthLog ≤ k' ∧ k' ≤ k + d * s.maxWidthLog) ∧
      Moves s k' (eachRow row stop fuel first y s) := by
  induction d with
  | zero =>
    intro first s k y fuel h hk hy hstop _ hfirst _ hfuel _
    obtain ⟨fuel, rfl⟩ : ∃ f, fuel = f + 1 := ⟨fuel - 1, by omega⟩
    rw [Nat.add_zero, Nat.mod_eq_of_lt hy] at hstop
    -- no row to go: this is the row to stop at, and not the first
    have hnot : ¬ (first = true ∨ (y : Int) ≠ stop) := by
      rintro (hf | hne)
      · exact absurd (hfirst hf) (Nat.lt_irrefl 0)
      · exact hne (congrArg _ hstop)
    rw [eachRow, if_neg hnot]
    exact ⟨k, ⟨by omega, by omega⟩, Moves.refl hk⟩
  | succ d ih =>
    intro first s k y fuel h hk hy hstop hd hfirst hlater hfuel hcells
    obtain ⟨fuel, rfl⟩ : ∃ f, fuel = f + 1 := ⟨fuel - 1, by omega⟩
    have hrows : s.maxHeightLog ≤ 48 := by
      rcases h.measures with ⟨-, -, -, h4⟩ | ⟨-, -, -, h4⟩ | ⟨-, -, -, h4⟩ <;> omega
    have hgo : first = true ∨ (y : Int) ≠ stop := by
      by_cases hf : first = true
      · exact .inl hf
      · -- the loop has not come round yet
        refine .inr fun he => ?_
        have hlt := hlater (Bool.eq_false_iff.mpr hf)
        have he : y = stop := by omega
        rw [← hstop] at he
        by_cases hw : y + (d + 1) < s.maxHeightLog
        · rw [Nat.mod_eq_of_lt hw] at he
          omega
        · rw [Nat.mod_eq_sub_mod (by omega), Nat.mod_eq_of_lt (by omega)] at he
          omega
    rw [Nat.add_mul, Nat.one_mul] at hcells
    rw [eachRow, if_pos hgo]
    obtain ⟨k₁, ⟨hlo, hhi⟩, hmoves⟩ := hrow s k y h hk hy (by omega)
    refine hmoves.bind_exists fun as => ?_
    have hmod : ((y + 1) % s.maxHeightLog + d) % s.maxHeightLog = stop := by
      rw [Nat.mod_add_mod, show y + 1 + d = y + (d + 1) by omega]
      exact hstop
    obtain ⟨k', ⟨hlo', hhi'⟩, hmoves'⟩ := ih false (s := s.placed k₁ as) h (placed_at s k₁ as)
      (Nat.mod_lt (y + 1) (by omega : 0 < s.maxHeightLog)) hmod (by show d ≤ s.maxHeightLog; omega)
      (fun hf => nomatch hf) (fun _ => by show d < s.maxHeightLog; omega)
      (by omega : d < fuel) (by show k₁ + d * s.maxWidthLog ≤ s.cells; omega)
    have hlo' : k₁ + d * lo s.maxWidthLog ≤ k' := hlo'
    have hhi' : k' ≤ k₁ + d * s.maxWidthLog := hhi'
    refine ⟨k', ⟨?_, ?_⟩, ?_⟩
    · rw [Nat.add_mul, Nat.one_mul]
      omega
    · rw [Nat.add_mul, Nat.one_mul]
      omega
    · show Moves _ _ (eachRow row stop fuel false
        (unsigned ((y : Int) + 1) % s.maxHeightLog : Nat) (s.placed k₁ as))
      rw [nextRow_eq hy hrows]
      exact hmoves'

/-- The origin of the log is one of its rows. -/
def TopInside (s : Screen) : Prop := 0 ≤ s.topLeftScreen ∧ s.topLeftScreen < s.maxHeightLog

/-- The cursor set to the corner of the screen. -/
theorem home_eq (s : Screen) : ({ s with posX := 0, posY := 0 } : Screen) = s.placed 0 [] :=
  pos_eq_placed (by simp) (by simp)

section Scroll

variable {draw : UInt8 → Screen → Outcome Screen} (hdraw : DrawsInside draw)
include hdraw

/-- The first loop draws at most as many blanks as there are cells. -/
theorem clearRows_moves (h : Zoomed s) (hk : At s 0) (htop : TopInside s) : ∃ k',
    Moves s k' (eachRow (fun y s => clearRow draw y s.maxWidthLog s) s.topLeftScreen
      (s.maxHeightLog + 1) true s.topLeftScreen s) := by
  obtain ⟨top, ht⟩ := Int.eq_ofNat_of_zero_le htop.1
  have hlt : top < s.maxHeightLog := by
    have := htop.2
    omega
  rw [ht]
  obtain ⟨k', -, hmoves⟩ := eachRow_moves (fun y s => clearRow draw y s.maxWidthLog s) (fun _ => 0)
    top
    (fun s k y h hk hy hle => clearRow_moves hdraw s.maxWidthLog h hk hy (Nat.le_refl _) hle)
    s.maxHeightLog true h hk hlt (by rw [Nat.add_mod_right, Nat.mod_eq_of_lt hlt]) (Nat.le_refl _)
    (fun _ => by omega) (fun hf => nomatch hf) (Nat.lt_succ_self _)
    (by rw [Nat.zero_add, Nat.mul_comm]; exact Nat.le_refl _)
  exact ⟨k', hmoves⟩

/-- The second loop draws all rows but the last. -/
theorem redrawRows_moves (h : Zoomed s) (hk : At s 0) (htop : TopInside s) :
    Moves s ((s.maxHeightLog - 1) * s.maxWidthLog)
      (eachRow (fun y s => redrawRow draw y s.maxWidthLog s)
        (if s.topLeftScreen ≠ 0 then s.topLeftScreen - 1 else (s.maxHeightLog : Int) - 1)
        (s.maxHeightLog + 1) true s.topLeftScreen s) := by
  obtain ⟨top, ht⟩ := Int.eq_ofNat_of_zero_le htop.1
  have hlt : top < s.maxHeightLog := by
    have := htop.2
    omega
  have hrows : 2 ≤ s.maxHeightLog := by
    rcases h.measures with ⟨-, -, -, h4⟩ | ⟨-, -, -, h4⟩ | ⟨-, -, -, h4⟩ <;> omega
  -- the row in front of the first
  have hstop : (if s.topLeftScreen ≠ 0 then s.topLeftScreen - 1 else (s.maxHeightLog : Int) - 1) =
      ((top + (s.maxHeightLog - 1)) % s.maxHeightLog : Nat) := by
    rw [ht]
    split
    · rw [show top + (s.maxHeightLog - 1) = top - 1 + s.maxHeightLog by omega, Nat.add_mod_right,
        Nat.mod_eq_of_lt (by omega)]
      omega
    · rw [show top + (s.maxHeightLog - 1) = s.maxHeightLog - 1 by omega,
        Nat.mod_eq_of_lt (by omega)]
      omega
  rw [hstop, ht]
  obtain ⟨k', ⟨hlo, hhi⟩, hmoves⟩ := eachRow_moves (fun y s => redrawRow draw y s.maxWidthLog s)
    id ((top + (s.maxHeightLog - 1)) % s.maxHeightLog)
    (fun s k y h hk hy hle => ⟨k + s.maxWidthLog, ⟨Nat.le_refl _, Nat.le_refl _⟩,
      redrawRow_moves hdraw s.maxWidthLog h hk hy (Nat.le_refl _) hle⟩)
    (s.maxHeightLog - 1) true h hk hlt rfl (Nat.sub_le _ _)
    (fun _ => by omega) (fun hf => nomatch hf) (by omega : s.maxHeightLog - 1 < s.maxHeightLog + 1)
    (by
      rw [Nat.zero_add, Screen.cells, Nat.mul_comm]
      exact Nat.mul_le_mul_left _ (Nat.sub_le _ _))
  rw [Nat.zero_add] at hlo hhi
  rw [Nat.le_antisymm hhi hlo] at hmoves
  exact hmoves

end Scroll

/-- The start of the last row, and the place behind the last cell, in pixels. -/
theorem Zoomed.lastRow (h : Zoomed s) :
    (s.maxHeightLog - 1) * s.maxWidthLog % s.maxWidthLog * s.charWidth = 0 ∧
    (s.maxHeightLog - 1) * s.maxWidthLog / s.maxWidthLog * s.charHeight =
      screenHeightPixels - s.charHeight ∧
    sub32 screenHeightPixels s.charHeight = screenHeightPixels - s.charHeight ∧
    s.cells % s.maxWidthLog * s.charWidth = 0 ∧
    s.cells / s.maxWidthLog * s.charHeight = screenHeightPixels := by
  unfold Screen.cells
  rcases h.measures with ⟨h1, h2, h3, h4⟩ | ⟨h1, h2, h3, h4⟩ | ⟨h1, h2, h3, h4⟩ <;>
    rw [h1, h2, h3, h4] <;> decide

/-- The end of `scroll_down`: the last row is cleared, and the cursor returns to its start. -/
theorem lastRow_moves {draw : UInt8 → Screen → Outcome Screen} (hdraw : DrawsInside draw)
    (h : Zoomed s) (hk : At s ((s.maxHeightLog - 1) * s.maxWidthLog)) :
    Moves s ((s.maxHeightLog - 1) * s.maxWidthLog) (do
      let s := { s with posY := sub32 screenHeightPixels s.charHeight }
      let s ← drawBlanks draw s.maxWidthLog s
      let s := { s with posY := sub32 s.posY s.charHeight }
      .ok (s.touch [.scrolled s.posX s.posY])) := by
  obtain ⟨hx, hy, hsub, hxend, hyend⟩ := h.lastRow
  -- the second loop has stopped at the start of this row
  have hsame : ({ s with posY := sub32 screenHeightPixels s.charHeight } : Screen) = s := by
    rw [hsub, ← hy, ← hk.2]
  have hcells : (s.maxHeightLog - 1) * s.maxWidthLog + s.maxWidthLog = s.cells := by
    unfold Screen.cells
    rcases h.measures with ⟨-, -, h3, h4⟩ | ⟨-, -, h3, h4⟩ | ⟨-, -, h3, h4⟩ <;> rw [h3, h4]
  dsimp only
  rw [hsame]
  have hblanks := drawBlanks_moves hdraw s.maxWidthLog h hk (Nat.le_of_eq hcells)
  rw [hcells] at hblanks
  refine hblanks.bind fun as => ?_
  have hposX : (s.placed s.cells as).posX = 0 := hxend
  have hposY : sub32 (s.placed s.cells as).posY s.charHeight =
      screenHeightPixels - s.charHeight := by
    show sub32 (s.cells / s.maxWidthLog * s.charHeight) s.charHeight = _
    rw [hyend, hsub]
  refine ⟨[.scrolled 0 (screenHeightPixels - s.charHeight)], ?_, congrArg Outcome.ok ?_⟩
  · intro a ha
    rw [List.mem_singleton.mp ha]
    exact ⟨rfl, rfl⟩
  · show Screen.touch { s.placed s.cells as with
        posY := sub32 (s.placed s.cells as).posY s.charHeight } [.scrolled
          (s.placed s.cells as).posX (sub32 (s.placed s.cells as).posY s.charHeight)] = _
    rw [hposX, hposY]
    exact touch_eq_placed (hposX.trans hx.symm) hy.symm

/-- **`scroll_down` comes back**, at the start of the last row. -/
theorem scrollDownWith_moves {draw : UInt8 → Screen → Outcome Screen} (hdraw : DrawsInside draw)
    (h : Zoomed s) (htop : TopInside s) :
    Moves s ((s.maxHeightLog - 1) * s.maxWidthLog) (scrollDownWith draw s) := by
  unfold scrollDownWith
  dsimp only
  rw [home_eq s]
  obtain ⟨k₁, hclear⟩ := clearRows_moves hdraw (s := s.placed 0 []) h (placed_at s 0 []) htop
  refine Moves.of_placed (hclear.bind fun as => ?_)
  -- wherever the first loop has stopped, the second begins at the corner
  simp only [home_eq]
  refine Moves.of_placed ((redrawRows_moves hdraw (s := ((s.placed 0 []).placed k₁ as).placed 0 [])
    h (placed_at _ 0 []) htop).bind fun as' => ?_)
  exact lastRow_moves hdraw h (placed_at _ _ as')

/-! ### Drawing and erasing -/

/-- The cell behind a character that is drawn at cell `k`; behind the last cell the screen
    scrolls first. -/
def drawn (s : Screen) (k : Nat) : Nat :=
  if k = s.cells then (s.maxHeightLog - 1) * s.maxWidthLog + 1 else k + 1

/-- The cell that a newline at cell `k` leads to. -/
def newlined (s : Screen) (k : Nat) : Nat :=
  min (k / s.maxWidthLog + 1) (s.maxHeightLog - 1) * s.maxWidthLog

/-- The cell that a backspace at cell `k` leads to. -/
def erased (s : Screen) (k : Nat) : Nat := if k = 0 then s.maxWidthLog else k - 1

/-- **`drawcharSize`** enters `scroll_down` behind the last cell only, and no second one. -/
theorem drawcharSize_moves (h : Zoomed s) (htop : TopInside s) (hk : At s k) (hle : k ≤ s.cells)
    (nested : Nat) (c : UInt8) : Moves s (drawn s k) (drawcharSize (nested + 1) c s) := by
  by_cases hend : k = s.cells
  · -- the cursor stands below the last row
    subst hend
    obtain ⟨-, -, hsub, hxend, hyend⟩ := h.lastRow
    have hfit : fitColumn s = s := by
      rw [fitColumn, hk.1, hxend]
      exact if_neg (Nat.not_lt_zero _)
    have hbelow : belowScreen s := by
      rw [belowScreen, hk.2, hyend, hsub]
      rcases h.measures with ⟨-, h2, -⟩ | ⟨-, h2, -⟩ | ⟨-, h2, -⟩ <;> rw [h2] <;> decide
    have hlast : (s.maxHeightLog - 1) * s.maxWidthLog < s.cells := by
      unfold Screen.cells
      rcases h.measures with ⟨-, -, h3, h4⟩ | ⟨-, -, h3, h4⟩ | ⟨-, -, h3, h4⟩ <;>
        rw [h3, h4] <;> decide
    rw [drawn, if_pos rfl, drawcharSize, hfit, if_pos hbelow]
    -- what `scroll_down` draws lies inside, whatever `nested` is
    exact (scrollDownWith_moves (drawcharSize_inside nested) h htop).bind fun as =>
      drawGlyph_moves h (placed_at s _ as) hlast
  · rw [drawn, if_neg hend]
    exact drawcharSize_inside _ s k c h hk (by omega)

/-- The cell in front of cell `k`, in pixels. -/
theorem At.back (hk : At s k) (h : Zoomed s) (hle : k ≤ s.cells) (h0 : k ≠ 0) :
    (s.posX = 0 → sub32 screenWidthPixels s.charWidth = (k - 1) % s.maxWidthLog * s.charWidth ∧
      sub32 s.posY s.charHeight = (k - 1) / s.maxWidthLog * s.charHeight ∧ s.posY ≠ 0) ∧
    (s.posX ≠ 0 → sub32 s.posX s.charWidth = (k - 1) % s.maxWidthLog * s.charWidth ∧
      s.posY = (k - 1) / s.maxWidthLog * s.charHeight) := by
  obtain ⟨hx, hy⟩ := hk
  unfold Screen.cells at hle
  unfold sub32 screenWidthPixels
  rcases h.measures with ⟨h1, h2, h3, h4⟩ | ⟨h1, h2, h3, h4⟩ | ⟨h1, h2, h3, h4⟩ <;>
    rw [h1, h3] at hx <;> rw [h2, h3] at hy <;> rw [h3, h4] at hle <;> rw [h1, h2, h3] <;>
    refine ⟨fun _ => ?_, fun _ => ?_⟩ <;> omega

/-- A blank in front of cell `k` brings the cursor to it. -/
theorem blank_before (h : Zoomed s) (htop : TopInside s) (hle : k ≤ s.cells) (h0 : k ≠ 0) :
    Moves (s.placed (k - 1) []) k (drawcharSize 1 blank (s.placed (k - 1) [])) := by
  have hdrawn : drawn (s.placed (k - 1) []) (k - 1) = k := by
    rw [drawn, if_neg (by show k - 1 ≠ s.cells; omega)]
    omega
  have hmoves := drawcharSize_moves (s := s.placed (k - 1) []) h htop (placed_at s _ [])
    (by show k - 1 ≤ s.cells; omega) 0 blank
  rw [hdrawn] at hmoves
  exact hmoves

/-- A column that does not fit is left for the next row. -/
theorem fitColumn_far {x : Nat} (hx : sub32 screenWidthPixels s.charWidth < x) :
    fitColumn { s with posX := x } = { s with posX := 0, posY := u32 (s.posY + s.charHeight) } :=
  if_pos hx

/-- At the corner the column in front is far outside, and the blank goes to the second row. -/
theorem blank_corner (h : Zoomed s) (hk : At s 0) :
    drawcharSize 1 blank { s with posX := sub32 s.posX s.charWidth } =
      .ok (drawGlyph (s.placed s.maxWidthLog [])) := by
  have hx : s.posX = 0 := by
    rw [hk.1]
    simp
  have hy : s.posY = 0 := by
    rw [hk.2]
    simp
  have hfar : sub32 screenWidthPixels s.charWidth < sub32 s.posX s.charWidth ∧
      0 = s.maxWidthLog % s.maxWidthLog * s.charWidth ∧
      u32 (s.posY + s.charHeight) = s.maxWidthLog / s.maxWidthLog * s.charHeight ∧
      s.maxWidthLog < s.cells := by
    unfold Screen.cells
    rw [hx, hy]
    rcases h.measures with ⟨h1, h2, h3, h4⟩ | ⟨h1, h2, h3, h4⟩ | ⟨h1, h2, h3, h4⟩ <;>
      rw [h1, h2, h3, h4] <;> decide
  obtain ⟨hwrap, hcx, hcy, hlt⟩ := hfar
  have hfit : fitColumn { s with posX := sub32 s.posX s.charWidth } =
      s.placed s.maxWidthLog [] :=
    (fitColumn_far hwrap).trans (pos_eq_placed hcx hcy)
  have hbelow : ¬ belowScreen (s.placed s.maxWidthLog []) :=
    ((placed_at s s.maxWidthLog []).tests h hlt).2
  rw [drawcharSize, hfit, if_neg hbelow]

/-- **`deleteChar`** moves the cursor one cell back, or from the corner to the second row. -/
theorem deleteChar_moves (h : Zoomed s) (htop : TopInside s) (hk : At s k) (hle : k ≤ s.cells) :
    Moves s (erased s k) (deleteChar s) := by
  unfold deleteChar erased
  by_cases h0 : k = 0
  · subst h0
    have hy : s.posY = 0 := by
      rw [hk.2]
      simp
    have hrow : s.maxWidthLog + 1 < s.cells := by
      unfold Screen.cells
      rcases h.measures with ⟨-, -, h3, h4⟩ | ⟨-, -, h3, h4⟩ | ⟨-, -, h3, h4⟩ <;>
        rw [h3, h4] <;> decide
    rw [if_pos rfl, if_neg (fun hc => hc.2 hy)]
    dsimp only
    -- `pos_x` has wrapped around: the blank goes to the second row, and the cursor stays there
    rw [blank_corner h hk]
    refine Moves.of_placed ((drawGlyph_moves (s := s.placed s.maxWidthLog []) h
      (placed_at s s.maxWidthLog []) (by show s.maxWidthLog < s.cells; omega)).bind fun as => ?_)
    obtain ⟨-, hback⟩ := (placed_at (s.placed s.maxWidthLog []) (s.maxWidthLog + 1) as).back h
      hrow.le (Nat.succ_ne_zero _)
    obtain ⟨hbx, hby⟩ := hback (by
      show (s.maxWidthLog + 1) % s.maxWidthLog * s.charWidth ≠ 0
      rcases h.measures with ⟨h1, -, h3, -⟩ | ⟨h1, -, h3, -⟩ | ⟨h1, -, h3, -⟩ <;>
        rw [h1, h3] <;> decide)
    rw [pos_eq_placed hbx hby]
    exact Moves.placed _ _
  · rw [if_neg h0]
    obtain ⟨hzero, hpos⟩ := hk.back h hle h0
    by_cases hx : s.posX = 0
    · -- at the start of a row the cell in front ends the row above
      obtain ⟨hbx, hby, hy⟩ := hzero hx
      rw [if_pos ⟨hx, hy⟩]
      dsimp only
      rw [pos_eq_placed hbx hby]
      refine Moves.of_placed ((blank_before h htop hle h0).bind fun as => ?_)
      obtain ⟨hback, -⟩ := (placed_at (s.placed (k - 1) []) k as).back h hle h0
      obtain ⟨hbx', hby', -⟩ := hback (hk.1.symm.trans hx)
      rw [pos_eq_placed hbx' hby']
      exact Moves.placed _ _
    · obtain ⟨hbx, hby⟩ := hpos hx
      rw [if_neg (fun hc => hx hc.1)]
      dsimp only
      rw [pos_eq_placed hbx hby]
      refine Moves.of_placed ((blank_before h htop hle h0).bind fun as => ?_)
      obtain ⟨-, hback⟩ := (placed_at (s.placed (k - 1) []) k as).back h hle h0
      obtain ⟨hbx', hby'⟩ := hback fun hz => hx (hk.1.trans hz)
      rw [pos_eq_placed hbx' hby']
      exact Moves.placed _ _

/-! ### What `print` draws -/

/-- The cell that the character `c`, printed to `fd` at cell `k`, leads to. -/
def cellAfter (s : Screen) (fd : Nat) (c : UInt8) (k : Nat) : Nat :=
  if c = lf then newlined s k
  else if c = bs then erased s k
  else if c = ht then (drawn s)^[4] k
  else if fd = 1 ∨ fd = 2 then drawn s k
  else k

theorem drawn_le (h : Zoomed s) (hle : k ≤ s.cells) : drawn s k ≤ s.cells := by
  unfold drawn
  unfold Screen.cells at *
  rcases h.measures with ⟨-, -, h3, h4⟩ | ⟨-, -, h3, h4⟩ | ⟨-, -, h3, h4⟩ <;>
    rw [h3, h4] at hle ⊢ <;> split <;> omega

theorem cellAfter_le (h : Zoomed s) (hle : k ≤ s.cells) (fd : Nat) (c : UInt8) :
    cellAfter s fd c k ≤ s.cells := by
  unfold cellAfter
  split
  · unfold newlined Screen.cells
    rw [Nat.mul_comm]
    exact Nat.mul_le_mul_left _ ((Nat.min_le_right _ _).trans (Nat.sub_le _ _))
  · split
    · unfold erased
      unfold Screen.cells at *
      rcases h.measures with ⟨-, -, h3, h4⟩ | ⟨-, -, h3, h4⟩ | ⟨-, -, h3, h4⟩ <;>
        rw [h3, h4] at hle ⊢ <;> split <;> omega
    · split
      · exact drawn_le h (drawn_le h (drawn_le h (drawn_le h hle)))
      · split
        · exact drawn_le h hle
        · exact hle

/-- The row below cell `k`, in pixels. -/
theorem At.below (hk : At s k) (h : Zoomed s) (hle : k ≤ s.cells) :
    let t : Screen := { s with posY := u32 (s.posY + s.charHeight), posX := 0 }
    if belowScreen t then newlined s k = (s.maxHeightLog - 1) * s.maxWidthLog
    else t = s.placed (newlined s k) [] := by
  obtain ⟨-, hy⟩ := hk
  dsimp only
  unfold Screen.cells at hle
  split
  · rename_i hbelow
    have hbelow : sub32 screenHeightPixels s.charHeight < u32 (s.posY + s.charHeight) := hbelow
    unfold newlined
    unfold sub32 u32 screenHeightPixels at hbelow
    rcases h.measures with ⟨h1, h2, h3, h4⟩ | ⟨h1, h2, h3, h4⟩ | ⟨h1, h2, h3, h4⟩ <;>
      rw [h2, h3] at hy <;> rw [h3, h4] at hle <;> rw [h2] at hbelow <;> rw [h3, h4] <;> omega
  · rename_i hbelow
    have hbelow : ¬ sub32 screenHeightPixels s.charHeight < u32 (s.posY + s.charHeight) := hbelow
    refine pos_eq_placed ?_ ?_
    · unfold newlined
      simp
    · unfold newlined
      unfold sub32 u32 screenHeightPixels at *
      rcases h.measures with ⟨h1, h2, h3, h4⟩ | ⟨h1, h2, h3, h4⟩ | ⟨h1, h2, h3, h4⟩ <;>
        rw [h2, h3] at hy <;> rw [h3, h4] at hle <;> rw [h2] at hbelow <;> rw [h2, h3, h4] <;> omega

/-- A newline goes to the next row, or scrolls. -/
theorem newline_moves (h : Zoomed s) (htop : TopInside s) (hk : At s k) (hle : k ≤ s.cells) :
    Moves s (newlined s k) (
      let s := { s with posY := u32 (s.posY + s.charHeight), posX := 0 }
      if belowScreen s then scrollDown 0 s else .ok s) := by
  have hcases := hk.below h hle
  dsimp only at hcases ⊢
  split
  · -- the position below the screen does not matter to `scroll_down`, which sets its own
    rename_i hbelow
    rw [if_pos hbelow] at hcases
    rw [hcases]
    exact Moves.of_pos (scrollDownWith_moves (drawcharSize_inside 0) h htop)
  · rename_i hbelow
    rw [if_neg hbelow] at hcases
    rw [hcases]
    exact Moves.placed s _

/-- Blanks, wherever the cursor stands. -/
theorem blanks_moves (n : Nat) : ∀ {s : Screen} {k : Nat}, Zoomed s → TopInside s → At s k →
    k ≤ s.cells → Moves s ((drawn s)^[n] k) (drawBlanks (drawcharSize 1) n s) := by
  induction n with
  | zero => exact fun _ _ hk _ => Moves.refl hk
  | succ n ih =>
    intro s k h htop hk hle
    exact (drawcharSize_moves h htop hk hle 0 blank).bind fun as =>
      ih (s := s.placed (drawn s k) as) h htop (placed_at s _ as) (drawn_le h hle)

/-- **The drawing side of `print`** moves the cursor as `cellAfter` says. -/
theorem drawCase_moves (h : Zoomed s) (htop : TopInside s) (hk : At s k) (hle : k ≤ s.cells)
    (fd : Nat) (c : UInt8) : Moves s (cellAfter s fd c k) (drawCase s fd c) := by
  unfold drawCase cellAfter
  split
  · exact newline_moves h htop hk hle
  · split
    · exact deleteChar_moves h htop hk hle
    · split
      · exact blanks_moves 4 h htop hk hle
      · split
        · rename_i hfd
          rcases hfd with rfl | rfl
          · exact drawcharSize_moves h htop hk hle 0 c
          · exact drawcharSize_moves h htop hk hle 0 c
        · rename_i hfd
          split
          · exact absurd (.inl rfl) hfd
          · exact absurd (.inr rfl) hfd
          · exact Moves.refl hk

end TpeSo.Video
