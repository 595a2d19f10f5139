import Mathlib.Data.List.Induction
import TpeSo.Video.TextLog

namespace TpeSo.Video

open Lib

/-!
# Video — the two cursors and the page

A text is laid out on a page of `w` columns that has no end; the screen shows its last `h`
rows.  Both cursors of the driver are compared with the page.

* `Place`, `layout` — the page;
* `cellOf`, `logOf` — what a place is to the cursor in pixels and to the log;
* `Shows.printChar` — **one character moves both cursors as on the page**, unless the first
  screenful is filled to its last column: there `can_move_top_left_pointer` compares the row
  with `MAX_HEIGHT_LOG` after it has been reduced, and the origin of the log stays behind;
* `filled_disagrees` — in that case the two differ at once;
* `cursorsAgree_iff` — the texts for which they agree all along.
-/

variable {s : Screen} {c : UInt8} {w h : Nat}

/-! ### The page -/

/-- A place on the page; the column may be the one behind the last. -/
structure Place where
  row : Nat
  col : Nat
  deriving DecidableEq

namespace Place

variable (w : Nat) (q : Place)

/-- What comes next goes to the next row if this one is full. -/
def wrap : Place := if q.col = w then ⟨q.row + 1, 0⟩ else q

/-- One character is put down. -/
def put : Place := ⟨(q.wrap w).row, (q.wrap w).col + 1⟩

/-- The place behind the character `c`. -/
def step (c : UInt8) : Place :=
  if c = lf then ⟨(q.wrap w).row + 1, 0⟩
  else if c = ht then (put w)^[4] q
  else put w q

variable {w q}

theorem wrap_col_lt (hw : 0 < w) (hq : q.col ≤ w) : (q.wrap w).col < w := by
  unfold wrap
  split
  · exact hw
  · omega

theorem wrap_wrap (hw : 0 < w) (hq : q.col ≤ w) : (q.wrap w).wrap w = q.wrap w :=
  if_neg (Nat.ne_of_lt (wrap_col_lt hw hq))

theorem put_wrap (hw : 0 < w) (hq : q.col ≤ w) : (q.wrap w).put w = q.put w := by
  rw [put, wrap_wrap hw hq, put]

theorem put_col_le (hw : 0 < w) (hq : q.col ≤ w) : (q.put w).col ≤ w := wrap_col_lt hw hq

/-- The place behind `n` characters, fewer than a row has columns. -/
theorem puts_eq (hq : q.col ≤ w) {n : Nat} (hn : n ≤ w) : (put w)^[n] q =
    if q.col + n ≤ w then ⟨q.row, q.col + n⟩ else ⟨q.row + 1, q.col + n - w⟩ := by
  induction n with
  | zero => exact (if_pos hq).symm
  | succ n ih =>
    rw [Function.iterate_succ_apply', ih (by omega)]
    by_cases hfit : q.col + n ≤ w
    · rw [if_pos hfit]
      unfold put wrap
      dsimp only
      by_cases hfull : q.col + n = w
      · rw [if_pos hfull, if_neg (by omega)]
        dsimp only
        congr 1
        omega
      · rw [if_neg hfull, if_pos (by omega)]
        rfl
    · rw [if_neg hfit, if_neg (by omega)]
      unfold put wrap
      dsimp only
      rw [if_neg (by omega)]
      dsimp only
      congr 1
      omega

/-- A wrap in front changes nothing. -/
theorem step_wrap (hw : 0 < w) (hq : q.col ≤ w) (c : UInt8) : (q.wrap w).step w c = q.step w c := by
  unfold step
  rw [wrap_wrap hw hq, Function.iterate_succ_apply, put_wrap hw hq, ← Function.iterate_succ_apply]

theorem step_col_le (hw : 4 ≤ w) (hq : q.col ≤ w) (c : UInt8) : (q.step w c).col ≤ w := by
  unfold step
  split
  · exact Nat.zero_le _
  · split
    · rw [puts_eq hq hw]
      split <;> dsimp only <;> omega
    · exact put_col_le (by omega) hq

end Place

/-- The place where a text ends. -/
def layout (w : Nat) (text : List UInt8) : Place := text.foldl (Place.step w) ⟨0, 0⟩

theorem layout_concat (w : Nat) (text : List UInt8) (c : UInt8) :
    layout w (text ++ [c]) = (layout w text).step w c := by
  rw [layout, List.foldl_append]
  rfl

/-! ### The log -/

/-- The row of the log that the screen begins with, when the text has come to row `r`. -/
def origin (h r : Nat) : Nat := (r + 1 - h) % h

/-- The log when the text has come to the place `q`. -/
def logOf (h : Nat) (q : Place) : LogPos := ⟨q.col, q.row % h, origin h q.row, decide (h ≤ q.row)⟩

theorem origin_small {r : Nat} (hr : r < h) : origin h r = 0 := by
  rw [origin, show r + 1 - h = 0 by omega]
  exact Nat.zero_mod h

theorem origin_ne_zero {r : Nat} (hr : origin h r ≠ 0) : h ≤ r := by
  by_contra hlt
  exact hr (origin_small (by omega))

/-- The origin moves when the text comes to the last row of the ring, and on from there. -/
theorem origin_succ (h r : Nat) :
    (if r % h + 1 = h ∨ h ≤ r then (origin h r + 1) % h else origin h r) = origin h (r + 1) := by
  unfold origin
  by_cases hr : h ≤ r + 1
  · have hmove : r % h + 1 = h ∨ h ≤ r := by
      by_cases hlast : h ≤ r
      · exact .inr hlast
      · exact .inl (by rw [Nat.mod_eq_of_lt (by omega)]; omega)
    rw [if_pos hmove, Nat.mod_add_mod]
    congr 1
    omega
  · rw [if_neg (by rw [Nat.mod_eq_of_lt (by omega)]; omega), show r + 1 - h = 0 by omega,
      show r + 1 + 1 - h = 0 by omega]

theorem settle_logOf (h : Nat) (q : Place) : (logOf h q).settle = logOf h q := by
  unfold LogPos.settle
  split
  · rename_i htop
    have hmoving : decide (h ≤ q.row) = true := decide_eq_true (origin_ne_zero htop)
    unfold logOf
    rw [hmoving]
  · rfl

/-- The log one row on, once the origin has settled. -/
theorem settle_nextRow (hh : 2 ≤ h) (r x : Nat) :
    LogPos.settle ⟨x, (r + 1) % h, origin h (r + 1), decide (h ≤ r)⟩ = logOf h ⟨r + 1, x⟩ := by
  unfold LogPos.settle logOf
  dsimp only
  split
  · rename_i htop
    rw [decide_eq_true (origin_ne_zero htop)]
  · rename_i htop
    have hsame : h ≤ r ↔ h ≤ r + 1 := by
      refine ⟨fun hle => Nat.le_succ_of_le hle, fun hle => ?_⟩
      by_contra hlast
      refine htop ?_
      rw [origin, show r + 1 + 1 - h = 1 by omega, Nat.mod_eq_of_lt hh]
      exact Nat.one_ne_zero
    rw [decide_eq_decide.mpr hsame]

/-- The blanks of a tab, as long as the origin has not settled. -/
theorem tabSteps_logOf {q : Place} (hq : q.col < w) {n : Nat} (hn : n ≤ w) :
    (LogPos.tabStep w h)^[n] (logOf h q) =
      { logOf h ((Place.put w)^[n] q) with moving := decide (h ≤ q.row) } := by
  induction n with
  | zero => rfl
  | succ n ih =>
    rw [Function.iterate_succ_apply', Function.iterate_succ_apply', ih (by omega),
      Place.puts_eq hq.le (by omega)]
    unfold LogPos.tabStep Place.put Place.wrap logOf
    by_cases hfit : q.col + n ≤ w
    · rw [if_pos hfit]
      dsimp only
      by_cases hfull : q.col + n = w
      · rw [if_pos hfull, if_pos hfull, ← origin_succ, Nat.mod_add_mod]
        have hmoves : q.row % h + 1 = h ∨ origin h q.row ≠ 0 ∨ decide (h ≤ q.row) = true ↔
            q.row % h + 1 = h ∨ h ≤ q.row := by
          rw [decide_eq_true_iff]
          exact or_congr_right ⟨fun ho => ho.elim origin_ne_zero id, .inr⟩
        rw [if_congr hmoves rfl rfl]
      · rw [if_neg hfull, if_neg hfull]
    · rw [if_neg hfit]
      dsimp only
      rw [if_neg (by omega), if_neg (by omega)]

/-- **The `switch`** moves the log as the page. -/
theorem case_logOf (hw : 4 ≤ w) (hh : 2 ≤ h) {q : Place} (hq : q.col < w) (hc : c ≠ bs) :
    ((logOf h q).case w h c).settle = logOf h (q.step w c) := by
  have hwrap : q.wrap w = q := if_neg (Nat.ne_of_lt hq)
  unfold LogPos.case Place.step
  by_cases hlf : c = lf
  · rw [if_pos hlf, if_pos hlf, hwrap, ← settle_nextRow hh, ← origin_succ]
    unfold LogPos.newline logOf
    dsimp only
    rw [Nat.mod_add_mod, if_congr (or_congr_right decide_eq_true_iff) rfl rfl]
  · rw [if_neg hlf, if_neg hlf, if_neg hc]
    by_cases hht : c = ht
    · rw [if_pos hht, if_pos hht, tabSteps_logOf hq hw, Place.puts_eq hq.le hw]
      split
      · exact settle_logOf h ⟨q.row, q.col + 4⟩
      · exact settle_nextRow hh _ _
    · rw [if_neg hht, if_neg hht, Place.put, hwrap]
      exact settle_logOf h ⟨q.row, q.col + 1⟩

/-- **The wrap in front** moves the log as the page, unless the first screenful is full. -/
theorem wrap_logOf (hh : 0 < h) {q : Place} (hfill : q ≠ ⟨h - 1, w⟩) :
    (logOf h q).wrap w h = logOf h (q.wrap w) := by
  obtain ⟨r, x⟩ := q
  unfold LogPos.wrap Place.wrap logOf
  dsimp only
  by_cases hfull : x = w
  · rw [if_pos hfull, if_pos hfull, Nat.mod_add_mod]
    dsimp only
    have hrow : r ≠ h - 1 := fun hr => hfill (by rw [hr, hfull])
    rw [decide_eq_decide.mpr (show h ≤ r ↔ h ≤ r + 1 by omega), ← origin_succ]
    by_cases hmoving : h ≤ r
    · -- the row behind the cursor is the origin
      have hnear : (r + 1) % h = origin h r := Nat.mod_eq_sub_mod (by omega)
      rw [if_pos ⟨decide_eq_true (by omega), .inl (by rw [hnear]; omega)⟩, if_pos (.inr hmoving)]
    · rw [if_neg (fun hn => hmoving (by have := of_decide_eq_true hn.1; omega)),
        if_neg (by rw [Nat.mod_eq_of_lt (by omega)]; omega)]
  · rw [if_neg hfull, if_neg hfull]

/-- Behind the first screenful the log returns to its first row and leaves the origin there. -/
theorem wrap_filled (hh : 0 < h) (w : Nat) :
    (logOf h ⟨h - 1, w⟩).wrap w h = logOf h ⟨0, 0⟩ := by
  unfold LogPos.wrap logOf
  dsimp only
  have hstays : ¬ h ≤ h - 1 := by omega
  rw [if_pos rfl, Nat.mod_add_mod, Nat.sub_add_cancel hh, Nat.mod_self,
    origin_small (by omega : h - 1 < h), origin_small hh, Nat.zero_mod, decide_eq_false hstays,
    decide_eq_false (by omega : ¬ h ≤ 0), if_neg (fun hn => Bool.false_ne_true hn.1)]

/-! ### The cursor in pixels -/

/-- The cell of a place of the page, when the screen shows its last `h` rows. -/
def cellOf (w h : Nat) (q : Place) : Nat := min q.row (h - 1) * w + q.col

/-- The cell in rows and columns. -/
theorem cellOf_div (hh : Zoomed s) {q : Place} (hq : q.col ≤ s.maxWidthLog) :
    cellOf s.maxWidthLog s.maxHeightLog q ≤ s.cells ∧
    (q.col < s.maxWidthLog →
      cellOf s.maxWidthLog s.maxHeightLog q % s.maxWidthLog = q.col ∧
      cellOf s.maxWidthLog s.maxHeightLog q / s.maxWidthLog = min q.row (s.maxHeightLog - 1)) ∧
    (q.col = s.maxWidthLog → cellOf s.maxWidthLog s.maxHeightLog q / s.maxWidthLog =
      min q.row (s.maxHeightLog - 1) + 1) := by
  unfold cellOf Screen.cells
  rcases hh.measures with ⟨-, -, h3, h4⟩ | ⟨-, -, h3, h4⟩ | ⟨-, -, h3, h4⟩ <;>
    rw [h3] at hq <;> rw [h3, h4] <;> omega

theorem drawn_cellOf (hh : Zoomed s) {q : Place} (hq : q.col ≤ s.maxWidthLog) :
    drawn s (cellOf s.maxWidthLog s.maxHeightLog q) =
      cellOf s.maxWidthLog s.maxHeightLog (q.put s.maxWidthLog) := by
  unfold drawn cellOf Place.put Place.wrap Screen.cells
  by_cases hfull : q.col = s.maxWidthLog
  · rw [if_pos hfull, hfull]
    dsimp only
    rcases hh.measures with ⟨-, -, h3, h4⟩ | ⟨-, -, h3, h4⟩ | ⟨-, -, h3, h4⟩ <;>
      rw [h3, h4] <;> split <;> omega
  · rw [if_neg hfull]
    dsimp only
    rcases hh.measures with ⟨-, -, h3, h4⟩ | ⟨-, -, h3, h4⟩ | ⟨-, -, h3, h4⟩ <;>
      rw [h3] at hq hfull <;> rw [h3, h4] <;> split <;> omega

theorem drawns_cellOf (hh : Zoomed s) (n : Nat) : ∀ {q : Place}, q.col ≤ s.maxWidthLog →
    (drawn s)^[n] (cellOf s.maxWidthLog s.maxHeightLog q) =
      cellOf s.maxWidthLog s.maxHeightLog ((Place.put s.maxWidthLog)^[n] q) := by
  have hb := hh.bounds
  induction n with
  | zero => exact fun _ => rfl
  | succ n ih =>
    intro q hq
    rw [Function.iterate_succ_apply, Function.iterate_succ_apply, drawn_cellOf hh hq]
    exact ih (Place.put_col_le (by omega) hq)

/-- **Drawing** moves the cursor in pixels as the page. -/
theorem cellAfter_cellOf (hh : Zoomed s) {q : Place} (hq : q.col ≤ s.maxWidthLog) (hc : c ≠ bs) :
    cellAfter s 1 c (cellOf s.maxWidthLog s.maxHeightLog q) =
      cellOf s.maxWidthLog s.maxHeightLog (q.step s.maxWidthLog c) := by
  unfold cellAfter Place.step
  by_cases hlf : c = lf
  · rw [if_pos hlf, if_pos hlf]
    obtain ⟨-, hinside, hbehind⟩ := cellOf_div hh hq
    unfold newlined Place.wrap
    by_cases hfull : q.col = s.maxWidthLog
    · rw [hbehind hfull, if_pos hfull, cellOf, Nat.add_zero]
      congr 1
      dsimp only
      omega
    · rw [(hinside (by omega)).2, if_neg hfull, cellOf, Nat.add_zero]
      congr 1
      dsimp only
      omega
  · rw [if_neg hlf, if_neg hlf, if_neg hc]
    split
    · exact drawns_cellOf hh 4 hq
    · rw [if_pos (.inl rfl)]
      exact drawn_cellOf hh hq

/-! ### Both cursors -/

/-- When no wrap is pending, the place in the log is that of the cursor. -/
def Agrees (s : Screen) : Prop :=
  s.currentX < s.maxWidthLog → s.posY ≤ screenHeightPixels - s.charHeight →
    s.currentX = (s.posX / s.charWidth : Nat) ∧
    (s.currentY - s.topLeftScreen) % s.maxHeightLog = (s.posY / s.charHeight : Nat)

/-- Agreement in cells and rows. -/
theorem Stands.agrees_iff {k : Nat} {p : LogPos} (hs : Stands s k p) : Agrees s ↔
    (p.x < s.maxWidthLog → k < s.cells →
      p.x = k % s.maxWidthLog ∧
      (p.y + s.maxHeightLog - p.top) % s.maxHeightLog = k / s.maxWidthLog) := by
  obtain ⟨hx, hy⟩ := hs.cell
  have hle := hs.cell_le
  have hrow := hs.fits.y_lt
  have htop := hs.fits.top_lt
  unfold Agrees Screen.cells
  unfold Screen.cells at hle
  rw [hs.holds.currentX, hs.holds.currentY, hs.holds.top, hx, hy]
  unfold screenHeightPixels
  rcases hs.zoomed.measures with ⟨h1, h2, h3, h4⟩ | ⟨h1, h2, h3, h4⟩ | ⟨h1, h2, h3, h4⟩ <;>
    rw [h4] at hrow htop <;> rw [h3, h4] at hle <;> rw [h1, h2, h3, h4] <;> omega

/-- Both cursors stand at the place `q` of the page. -/
structure Shows (s : Screen) (q : Place) : Prop where
  col_le : q.col ≤ s.maxWidthLog
  stands : Stands s (cellOf s.maxWidthLog s.maxHeightLog q) (logOf s.maxHeightLog q)

theorem Shows.agrees {q : Place} (hs : Shows s q) : Agrees s := by
  have hb := hs.stands.zoomed.bounds
  refine hs.stands.agrees_iff.mpr fun hx _ => ?_
  obtain ⟨-, hinside, -⟩ := cellOf_div hs.stands.zoomed hs.col_le
  obtain ⟨hcol, hrow⟩ := hinside hx
  rw [hcol, hrow]
  refine ⟨rfl, ?_⟩
  show (q.row % s.maxHeightLog + s.maxHeightLog - (q.row + 1 - s.maxHeightLog) % s.maxHeightLog) %
    s.maxHeightLog = _
  rcases hs.stands.zoomed.measures with ⟨-, -, -, h4⟩ | ⟨-, -, -, h4⟩ | ⟨-, -, -, h4⟩ <;>
    rw [h4] <;> omega

/-- A printable character, a newline or a tab. -/
def Text (c : UInt8) : Prop := c = lf ∨ c = ht ∨ 32 ≤ c ∧ c ≤ 126

theorem Text.ne_bs (hc : Text c) : c ≠ bs := by
  rintro rfl
  revert hc
  unfold Text
  decide

theorem Text.not_special (hc : Text c) : specialChar c = false := by
  unfold specialChar
  rw [decide_eq_false_iff_not]
  rcases hc with rfl | rfl | ⟨hlo, hhi⟩
  · decide
  · decide
  · rw [UInt8.le_iff_toNat_le] at hlo hhi
    rw [UInt8.lt_iff_toNat_lt, UInt8.le_iff_toNat_le]
    have hlo : 32 ≤ c.toNat := hlo
    have hhi : c.toNat ≤ 126 := hhi
    show ¬ (c.toNat < 6 ∨ 128 ≤ c.toNat)
    omega

/-- **One character** moves both cursors as on the page, unless the first screenful is full. -/
theorem Shows.printChar {q : Place} (hs : Shows s q) (hc : Text c)
    (hfill : q ≠ ⟨s.maxHeightLog - 1, s.maxWidthLog⟩) : ∃ s', printChar 1 s c = .ok s' ∧
      s'.size = s.size ∧ Shows s' (q.step s.maxWidthLog c) := by
  have hb := hs.stands.zoomed.bounds
  obtain ⟨s', hok, hs', hsize, -⟩ := hs.stands.printChar 1 hc.not_special
  have hwrap := Place.wrap_col_lt (by omega) hs.col_le
  rw [cellAfter_cellOf hs.stands.zoomed hs.col_le hc.ne_bs, LogPos.after,
    wrap_logOf (by omega) hfill, case_logOf (by omega) (by omega) hwrap hc.ne_bs,
    Place.step_wrap (by omega) hs.col_le] at hs'
  refine ⟨s', hok, hsize, ?_, ?_⟩
  · rw [maxWidthLog_of_size hsize]
    exact Place.step_col_le (by omega) hs.col_le c
  · rw [maxWidthLog_of_size hsize, maxHeightLog_of_size hsize]
    exact hs'

/-- The places behind one character, at the start of the page and behind the first screenful. -/
theorem step_rows (hw : 5 ≤ w) (hh : 2 ≤ h) (c : UInt8) :
    ((⟨0, 0⟩ : Place).step w c).row ≤ 1 ∧ ((⟨0, 0⟩ : Place).step w c).col < w ∧
    h ≤ ((⟨h - 1, w⟩ : Place).step w c).row ∧ ((⟨h - 1, w⟩ : Place).step w c).col < w := by
  unfold Place.step
  rw [Place.puts_eq (q := ⟨0, 0⟩) (Nat.zero_le _) (by omega : 4 ≤ w),
    Place.puts_eq (q := ⟨h - 1, w⟩) (Nat.le_refl _) (by omega : 4 ≤ w)]
  unfold Place.put Place.wrap
  dsimp only
  rw [if_pos rfl, if_neg (by omega : ¬ 0 = w), if_pos (by omega : 0 + 4 ≤ w),
    if_neg (by omega : ¬ w + 4 ≤ w)]
  split
  · dsimp only
    omega
  · split <;> dsimp only <;> omega

/-- **Behind the first screenful the cursors differ**, whatever comes next. -/
theorem filled_disagrees (hs : Shows s ⟨s.maxHeightLog - 1, s.maxWidthLog⟩) (hc : Text c) :
    ∃ s', TpeSo.Video.printChar 1 s c = .ok s' ∧ ¬ Agrees s' := by
  have hb := hs.stands.zoomed.bounds
  obtain ⟨s', hok, hs', hsize, -⟩ := hs.stands.printChar 1 hc.not_special
  refine ⟨s', hok, fun hagree => ?_⟩
  rw [cellAfter_cellOf hs.stands.zoomed hs.col_le hc.ne_bs, LogPos.after,
    wrap_filled (by omega), case_logOf (by omega) (by omega) (by show 0 < s.maxWidthLog; omega)
      hc.ne_bs, ← maxWidthLog_of_size hsize, ← maxHeightLog_of_size hsize] at hs'
  have hb' := hs'.zoomed.bounds
  obtain ⟨hrow, hcol, hlast, hcol'⟩ := step_rows (w := s'.maxWidthLog) (h := s'.maxHeightLog)
    (by omega) (by omega) c
  obtain ⟨-, hinside, -⟩ := cellOf_div hs'.zoomed hcol'.le
  obtain ⟨-, hdiv⟩ := hinside hcol'
  rw [Nat.min_eq_right (by omega)] at hdiv
  have hlt : cellOf s'.maxWidthLog s'.maxHeightLog ((⟨s'.maxHeightLog - 1, s'.maxWidthLog⟩ :
      Place).step s'.maxWidthLog c) < s'.cells := by
    rw [Screen.cells, Nat.mul_comm, ← Nat.div_lt_iff_lt_mul (by omega), hdiv]
    omega
  obtain ⟨-, he⟩ := hs'.agrees_iff.mp hagree hcol hlt
  -- the log is in its first two rows, the cursor in the last row of the screen
  generalize (⟨0, 0⟩ : Place).step s'.maxWidthLog c = q at hrow he
  rw [hdiv] at he
  unfold logOf at he
  dsimp only at he
  rw [origin_small (by omega), Nat.sub_zero, Nat.add_mod_right, Nat.mod_mod,
    Nat.mod_eq_of_lt (by omega)] at he
  omega

/-! ### Texts -/

theorem print_concat (fd : Nat) (c : UInt8) : ∀ (text : List UInt8) (s : Screen),
    print fd (text ++ [c]) s = print fd text s >>= fun s' => printChar fd s' c := by
  intro text
  -- `print` is a left fold: the induction is on the front, with the screen left open
  induction text with
  | nil =>
    intro s
    exact Outcome.bind_ok (printChar fd s c)
  | cons a text ih =>
    intro s
    show (printChar fd s a >>= fun s' => print fd (text ++ [c]) s') =
      (printChar fd s a >>= fun s' => print fd text s') >>= fun s' => printChar fd s' c
    rw [Outcome.bind_assoc]
    exact congrArg _ (funext ih)

/-- No proper prefix of the text ends at the end of the first screenful. -/
def NeverFilled (w h : Nat) (text : List UInt8) : Prop :=
  ∀ p, p <+: text → p ≠ text → layout w p ≠ ⟨h - 1, w⟩

theorem NeverFilled.of_prefix {p text : List UInt8} (ht : NeverFilled w h text) (hp : p <+: text) :
    NeverFilled w h p := by
  intro q hq hne
  refine ht q (hq.trans hp) ?_
  rintro rfl
  exact hne (hq.eq_of_length_le hp.length_le)

/-- **A text** brings both cursors to where it ends on the page. -/
theorem print_shows (hz : Zoomed s) {text : List UInt8} : (∀ c ∈ text, Text c) →
    NeverFilled s.maxWidthLog s.maxHeightLog text → ∃ s', print 1 text (clearScreen s) = .ok s' ∧
      s'.size = s.size ∧ Shows s' (layout s.maxWidthLog text) := by
  induction text using List.reverseRecOn with
  | nil =>
    intro _ _
    -- the empty page, on a cleared screen
    refine ⟨_, rfl, rfl, Nat.zero_le _, ?_⟩
    have hs := clearScreen_stands hz
    have hlog : logOf s.maxHeightLog ⟨0, 0⟩ = ⟨0, 0, 0, false⟩ := by
      have hb := hz.bounds
      unfold logOf
      dsimp only
      rw [origin_small (by omega), Nat.zero_mod, decide_eq_false (by omega)]
    show Stands _ (cellOf s.maxWidthLog s.maxHeightLog ⟨0, 0⟩) (logOf s.maxHeightLog ⟨0, 0⟩)
    rw [hlog, cellOf, Nat.zero_min, Nat.zero_mul]
    exact hs
  | append_singleton text c ih =>
    intro htext hfill
    obtain ⟨s₁, hok, hsize, hs₁⟩ := ih (fun c hc => htext c (List.mem_append_left _ hc))
      (hfill.of_prefix (List.prefix_append _ _))
    -- the front is a proper prefix, and so does not end where the screenful does
    have hne : layout s.maxWidthLog text ≠ ⟨s₁.maxHeightLog - 1, s₁.maxWidthLog⟩ := by
      rw [maxWidthLog_of_size hsize, maxHeightLog_of_size hsize]
      exact hfill text (List.prefix_append _ _) fun he => by
        simpa using congrArg List.length he
    obtain ⟨s', hstep, hsize', hs'⟩ := hs₁.printChar (htext c (by simp)) hne
    rw [maxWidthLog_of_size hsize] at hs'
    refine ⟨s', ?_, hsize'.trans hsize, ?_⟩
    · rw [print_concat, hok, Outcome.ok_bind, hstep]
    · rw [layout_concat]
      exact hs'

/-- **The cursors agree** all along a text if and only if it never goes on behind the end of
    the first screenful. -/
theorem cursorsAgree_iff (hz : Zoomed s) (text : List UInt8) (htext : ∀ c ∈ text, Text c) :
    (∀ p, p <+: text → ∃ s', print 1 p (clearScreen s) = .ok s' ∧ Agrees s') ↔
      NeverFilled s.maxWidthLog s.maxHeightLog text := by
  constructor
  · -- a proper prefix that fills the screen is followed by a character, which parts the cursors
    intro hagree
    induction text using List.reverseRecOn with
    | nil => exact fun p hp hne => absurd (List.prefix_nil.mp hp) hne
    | append_singleton text c ih =>
      have htext' : ∀ c ∈ text, Text c := fun c hc => htext c (List.mem_append_left _ hc)
      have hprev := ih htext' fun p hp => hagree p (hp.trans (List.prefix_append _ _))
      intro p hp hne hfull
      rcases List.prefix_concat_iff.mp hp with rfl | hp
      · exact hne rfl
      · by_cases hall : p = text
        · -- the text goes on behind the first screenful
          subst hall
          obtain ⟨s₁, hok, hsize, hs₁⟩ := print_shows hz htext' hprev
          rw [hfull, ← maxWidthLog_of_size hsize, ← maxHeightLog_of_size hsize] at hs₁
          obtain ⟨s', hstep, hnot⟩ := filled_disagrees hs₁ (htext c (by simp))
          obtain ⟨s'', hok', hyes⟩ := hagree _ (List.prefix_refl _)
          rw [print_concat, hok, Outcome.ok_bind, hstep] at hok'
          cases hok'
          exact hnot hyes
        · exact hprev p hp hall hfull
  · intro hfill p hp
    obtain ⟨s', hok, -, hs'⟩ := print_shows hz (fun c hc => htext c (hp.subset hc))
      (NeverFilled.of_prefix hfill hp)
    exact ⟨s', hok, hs'.agrees⟩

/-- At the largest zoom level: eleven newlines and a full row. -/
def screenful : List UInt8 := List.replicate 11 lf ++ List.replicate 32 65

theorem screenful_text : ∀ c ∈ screenful, Text c := by
  intro c hc
  rcases List.mem_append.mp hc with hc | hc
  · exact .inl (List.eq_of_mem_replicate hc)
  · rw [List.eq_of_mem_replicate hc]
    exact .inr (.inr (by decide))

theorem screenful_neverFilled : NeverFilled 32 12 screenful := by
  have htakes : ∀ n < 43, layout 32 (screenful.take n) ≠ ⟨11, 32⟩ := by decide
  intro p hp hne
  rw [List.prefix_iff_eq_take.mp hp]
  refine htakes _ (Nat.lt_of_le_of_ne hp.length_le fun he => hne ?_)
  exact hp.eq_of_length he

theorem cursorsAgree_screenful :
    (∀ p, p <+: screenful → ∃ s', print 1 p (clearScreen { size := 4 }) = .ok s' ∧ Agrees s') ↔
      NeverFilled ({ size := 4 } : Screen).maxWidthLog ({ size := 4 } : Screen).maxHeightLog
        screenful :=
  cursorsAgree_iff (s := { size := 4 }) (.inr (.inr rfl)) screenful screenful_text

/-- One character more. -/
theorem behind_screenful :
    Zoomed { size := 4 } ∧ (∀ c ∈ screenful ++ [65], Text c) ∧
    ∃ s', print 1 (screenful ++ [65]) (clearScreen { size := 4 }) = .ok s' ∧ ¬ Agrees s' := by
  refine ⟨.inr (.inr rfl), fun c hc => ?_, ?_⟩
  · rcases List.mem_append.mp hc with hc | hc
    · exact screenful_text c hc
    · rw [List.mem_singleton.mp hc]
      exact .inr (.inr (by decide))
  · obtain ⟨s₁, hok, hsize, hs₁⟩ := print_shows (s := { size := 4 }) (.inr (.inr rfl))
      screenful_text screenful_neverFilled
    have hplace : layout ({ size := 4 } : Screen).maxWidthLog screenful =
        ⟨s₁.maxHeightLog - 1, s₁.maxWidthLog⟩ := by
      rw [maxWidthLog_of_size hsize, maxHeightLog_of_size hsize]
      decide
    rw [hplace] at hs₁
    obtain ⟨s', hstep, hnot⟩ := filled_disagrees (c := 65) hs₁ (.inr (.inr (by decide)))
    exact ⟨s', by rw [print_concat, hok, Outcome.ok_bind, hstep], hnot⟩

end TpeSo.Video
