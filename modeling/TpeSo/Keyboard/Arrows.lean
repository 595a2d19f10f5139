import TpeSo.Keyboard.Line

namespace TpeSo

open Ds Lib

/-!
# Keyboard — what an arrow key does to the other keys

`handle_key_press` notes an arrow in `arrow` and leaves at the size of the table, before the
test that clears the flag.  The flag is cleared by the next key that gets there, which is
then dropped.

* `handleKeys` — the driver on a sequence of scan codes;
* `ArrowsAside` — two runs, with the arrow keys and without: the unread bytes and
  `current_line_len` agree at the end;
* `Ignorable k sc` — the presses that change neither of them anyway;
* `keyPress_aside`, `keyPress_swallowed` — **one press**, in both runs;
* `arrowsAside_iff` — the two agree after every prefix exactly if all dropped presses are
  of that kind.
-/

variable {k k' : Kernel} {sc : Nat} {ch : UInt8}

/-- The codes of the four arrow keys. -/
def arrowCodes : List Nat := [0x48, 0x4B, 0x4D, 0x50]

/-- `handle_key_press` for each of the codes. -/
def handleKeys (k : Kernel) : List Nat → Outcome Kernel
  | [] => .ok k
  | sc :: codes => do
    let k ← handleKeyPress k sc
    handleKeys k codes

/-- The sequence without the arrow keys. -/
def withoutArrows (codes : List Nat) : List Nat := codes.filter fun sc => sc ∉ arrowCodes

theorem handleKeys_snoc (sc : Nat) (codes : List Nat) : ∀ k : Kernel,
    handleKeys k (codes ++ [sc]) = handleKeys k codes >>= fun k => handleKeyPress k sc := by
  induction codes with
  | nil =>
    intro k
    exact Outcome.bind_ok (handleKeyPress k sc)
  | cons c codes ih =>
    intro k
    show handleKeyPress k c >>= (fun k => handleKeys k (codes ++ [sc])) =
      (handleKeyPress k c >>= fun k => handleKeys k codes) >>= fun k => handleKeyPress k sc
    rw [Outcome.bind_assoc]
    exact congrArg _ (funext ih)

/-! ### The driver on its own -/

/-- Nobody reads from the keyboard, which is in its canonical mode. -/
structure Unread (k : Kernel) : Prop where
  queue : k.keyboardQueue = []
  foreground : k.foregroundProcess = none
  canonical : k.canonicalMode = true
  live : k.kbuff.Live

theorem unread_boot (f : Nat → Bool) : Unread (boot f) :=
  ⟨rfl, rfl, rfl, (ringbufNew_wf (by decide : 0 < kbuffSize)).live⟩

theorem Unread.wakeReader (h : Unread k) : wakeReader k = k := by
  have hq : { k with keyboardQueue := [] } = k := by rw [← h.queue]
  unfold TpeSo.wakeReader
  rw [h.queue]
  exact hq

theorem Unread.wakeRaw (h : Unread k) : wakeRaw k = k := by
  unfold TpeSo.wakeRaw
  rw [h.canonical, if_neg (fun hc => nomatch hc.2)]

theorem Unread.handleCtrlD (h : Unread k) : handleCtrlD k = k := by
  unfold TpeSo.handleCtrlD
  rw [if_neg (fun hq => hq h.queue)]

theorem Unread.kbuffPut (h : Unread k) (ch : UInt8) : Unread (kbuffPut k ch) where
  queue := h.queue
  foreground := h.foreground
  canonical := h.canonical
  live := (ringbufWrite_back [ch] h.live).1

theorem Unread.setLen (h : Unread k) (n : Int) : Unread { k with currentLineLen := n } :=
  ⟨h.queue, h.foreground, h.canonical, h.live⟩

/-- A newline, with nobody waiting for it. -/
theorem Unread.putLine (h : Unread k) :
    putLine k newline = { TpeSo.kbuffPut k newline with currentLineLen := 0 } := by
  unfold TpeSo.putLine
  dsimp only
  rw [if_pos (h.kbuffPut newline).canonical, (h.kbuffPut newline).wakeReader]

/-- A character, with nobody waiting. -/
theorem Unread.handleChar_eq (h : Unread k) (ch : UInt8) : handleChar k ch =
    if ch = backspace then
      if 0 < k.currentLineLen then
        { k with kbuff := ringbufUnwrite k.kbuff, currentLineLen := k.currentLineLen - 1 }
      else k
    else if ch = tab then putTab k
    else if ch = newline then { TpeSo.kbuffPut k newline with currentLineLen := 0 }
    else if 32 ≤ ch ∧ ch ≤ 126 then putPrintable k ch
    else k := by
  rw [TpeSo.handleChar_eq, h.putLine, h.wakeRaw, ((h.kbuffPut newline).setLen 0).wakeRaw,
    putPrintable, ((h.kbuffPut ch).setLen _).wakeRaw]

theorem Unread.handleChar (h : Unread k) (ch : UInt8) : Unread (handleChar k ch) := by
  rw [h.handleChar_eq]
  split
  · split
    · exact ⟨h.queue, h.foreground, h.canonical, (ringbufUnwrite_live h.live).1⟩
    · exact h
  · split
    · exact ((((h.kbuffPut _).kbuffPut _).kbuffPut _).kbuffPut _).setLen _
    · split
      · exact (h.kbuffPut _).setLen _
      · split
        · exact (h.kbuffPut _).setLen _
        · exact h

/-! ### The characters that change nothing -/

@[simp] theorem currentLineLen_kbuffPut (k : Kernel) (ch : UInt8) :
    (kbuffPut k ch).currentLineLen = k.currentLineLen := rfl

theorem currentLineLen_putTab (k : Kernel) :
    (putTab k).currentLineLen = k.currentLineLen + 4 := by
  simp only [putTab, currentLineLen_kbuffPut]

theorem currentLineLen_putPrintable (k : Kernel) (ch : UInt8) :
    (putPrintable k ch).currentLineLen = k.currentLineLen + 1 := rfl

/-- The character leaves the unread bytes and the counter as they are. -/
def CharIgnorable (k : Kernel) (ch : UInt8) : Prop :=
  if ch = backspace then k.currentLineLen ≤ 0
  else if ch = tab then False
  else if ch = newline then k.currentLineLen = 0 ∧ k.kbuff.Full
  else ¬ (32 ≤ ch ∧ ch ≤ 126)

/-- An ignorable character changes nothing at all. -/
theorem Unread.handleChar_ignorable (h : Unread k) (hch : CharIgnorable k ch) :
    TpeSo.handleChar k ch = k := by
  rw [h.handleChar_eq]
  unfold CharIgnorable at hch
  split at hch
  · rename_i hb
    rw [if_pos hb, if_neg (Int.not_lt.mpr hch)]
  · rename_i hb
    rw [if_neg hb]
    split at hch
    · exact hch.elim
    · rename_i ht
      rw [if_neg ht]
      split at hch
      · rename_i hn
        obtain ⟨hlen, hfull⟩ := hch
        have hput : TpeSo.kbuffPut k newline = k := by
          rw [TpeSo.kbuffPut, ringbufWrite_full hfull]
        rw [if_pos hn, hput, ← hlen]
      · rename_i hn
        rw [if_neg hn, if_neg hch]

/-- Any other character changes the unread bytes or the counter. -/
theorem Unread.handleChar_changes (h : Unread k) (hch : ¬ CharIgnorable k ch) :
    (TpeSo.handleChar k ch).typed ≠ k.typed ∨
      (TpeSo.handleChar k ch).currentLineLen ≠ k.currentLineLen := by
  rw [h.handleChar_eq]
  unfold CharIgnorable at hch
  split at hch
  · -- a backspace with something to delete moves the counter
    rename_i hb
    rw [if_pos hb, if_pos (Int.not_le.mp hch)]
    exact .inr (by dsimp only; omega)
  · rename_i hb
    rw [if_neg hb]
    split at hch
    · rename_i ht
      rw [if_pos ht, currentLineLen_putTab]
      exact .inr (by omega)
    · rename_i ht
      rw [if_neg ht]
      split at hch
      · rename_i hn
        rw [if_pos hn]
        by_cases hlen : k.currentLineLen = 0
        · -- there is room, and the newline is stored
          have hroom : ¬ k.kbuff.Full := fun hfull => hch ⟨hlen, hfull⟩
          refine .inl fun heq => ?_
          obtain ⟨-, hc⟩ := write_step h.live hroom newline
          have hput : (TpeSo.kbuffPut k newline).typed = k.typed ++ [newline] := by
            rw [Kernel.typed, TpeSo.kbuffPut, ringbufWrite,
              if_neg (show ¬ (_ % _ = _ % _) from hroom)]
            exact hc
          have hlen' := congrArg List.length (hput.symm.trans heq)
          rw [List.length_append, List.length_singleton] at hlen'
          omega
        · exact .inr (Ne.symm hlen)
      · rename_i hn
        rw [if_neg hn, if_pos (not_not.mp hch), currentLineLen_putPrintable]
        exact .inr (by omega)

/-! ### One press in both runs -/

/-- The same kernel with no arrow noted. -/
def Kernel.unarrowed (k : Kernel) : Kernel := { k with arrow := false }

theorem Unread.unarrowed (h : Unread k) : Unread k.unarrowed :=
  ⟨h.queue, h.foreground, h.canonical, h.live⟩

theorem unarrowed_of_not (h : ¬ k.arrow = true) : k.unarrowed = k := by
  rw [Kernel.unarrowed, ← Bool.eq_false_iff.mpr h]

/-- The press changes nothing, were it not for a noted arrow. -/
def Ignorable (k : Kernel) (sc : Nat) : Prop :=
  ∀ ch, pressed k.unarrowed sc = .char ch → CharIgnorable k ch

/-- The press is looked at in the run with the arrow keys as well, or does not matter. -/
def Heeded (k : Kernel) (sc : Nat) : Prop := k.arrow = true → Ignorable k sc

/-- A code of the table, but for those of the modifier keys. -/
theorem handleKeyPress_table {key : UInt8 × UInt8} (hnote : sc ∉ [0x01, 0x1D, 0x2A, 0x36])
    (hkey : printableAscii[sc]? = some key) (k : Kernel) :
    handleKeyPress k sc = handleKey k key := by
  unfold handleKeyPress
  split
  any_goals
    first
    | exact absurd (by decide) hnote
    | cases hkey
  rw [hkey]

/-- A press of a character is dropped when an arrow is noted, and handled otherwise. -/
theorem keyPress_char (hch : pressed k.unarrowed sc = .char ch) :
    handleKeyPress k sc = .ok (if k.arrow then k.unarrowed else handleChar k ch) := by
  unfold pressed at hch
  split at hch
  · cases hch
  · rename_i hnote
    split at hch
    · cases hch
    · rename_i key hkey
      rw [handleKeyPress_table hnote hkey, handleKey]
      split at hch
      · cases hch
      · rename_i hd
        split at hch
        · cases hch
        · rename_i hc
          rw [if_neg (show ¬ k.unarrowed.arrow = true from nofun)] at hch
          rw [if_neg (show ¬ (k.ctrl ∧ key.1 = 100) from hd),
            if_neg (show ¬ (k.ctrl ∧ key.1 = 99) from hc), ← Pressed.char.inj hch]
          cases k.arrow with
          | true => rfl
          | false => rfl

/-- Ctrl-D and Ctrl-C, with nobody there. -/
theorem Unread.handleKey_ctrl (h : Unread k) {key : UInt8 × UInt8}
    (hkey : k.ctrl ∧ (key.1 = 100 ∨ key.1 = 99)) : handleKey k key = .ok k := by
  unfold handleKey
  by_cases hd : k.ctrl ∧ key.1 = 100
  · rw [if_pos hd, h.handleCtrlD]
  · have hc : k.ctrl ∧ key.1 = 99 := ⟨hkey.1, hkey.2.resolve_left fun he => hd ⟨hkey.1, he⟩⟩
    rw [if_neg hd, if_pos hc, h.foreground]
    rfl

/-- Any other press does the same in both runs. -/
theorem keyPress_other (h : Unread k) (hsc : sc ∉ arrowCodes)
    (hch : ∀ ch, pressed k.unarrowed sc ≠ .char ch) :
    ∃ k', handleKeyPress k sc = .ok k' ∧ handleKeyPress k.unarrowed sc = .ok k'.unarrowed ∧
      Unread k' := by
  by_cases hnote : sc ∈ [0x01, 0x1D, 0x2A, 0x36]
  · simp only [List.mem_cons, List.not_mem_nil, or_false] at hnote
    rcases hnote with rfl | rfl | rfl | rfl <;>
      exact ⟨_, rfl, rfl, h.queue, h.foreground, h.canonical, h.live⟩
  · cases hkey : printableAscii[sc]? with
    | some key =>
      -- a code of the table that gives no character is one of the two control keys
      have hctrl : k.ctrl ∧ (key.1 = 100 ∨ key.1 = 99) := by
        by_contra hno
        rw [not_and_or, not_or] at hno
        refine hch (if k.shift ^^ k.capsLock then key.2 else key.1) ?_
        rw [pressed, if_neg hnote, hkey]
        dsimp only
        have hd : ¬ (k.unarrowed.ctrl ∧ key.1 = 100) := by
          rintro ⟨hk, he⟩
          exact hno.elim (fun h => h hk) fun h => h.1 he
        have hc : ¬ (k.unarrowed.ctrl ∧ key.1 = 99) := by
          rintro ⟨hk, he⟩
          exact hno.elim (fun h => h hk) fun h => h.2 he
        rw [if_neg hd, if_neg hc]
        rfl
      refine ⟨k, ?_, ?_, h⟩
      · rw [handleKeyPress_table hnote hkey, h.handleKey_ctrl hctrl]
      · rw [handleKeyPress_table hnote hkey, h.unarrowed.handleKey_ctrl hctrl]
    | none =>
      unfold handleKeyPress
      split
      any_goals
        first
        | exact absurd (by decide) hsc
        | exact ⟨_, rfl, rfl, h.queue, h.foreground, h.canonical, h.live⟩
      rw [hkey]
      exact ⟨k, rfl, rfl, h⟩

/-- An arrow key is noted. -/
theorem keyPress_arrow (hsc : sc ∈ arrowCodes) :
    handleKeyPress k sc = .ok { k with arrow := true } := by
  simp only [arrowCodes, List.mem_cons, List.not_mem_nil, or_false] at hsc
  rcases hsc with rfl | rfl | rfl | rfl <;> rfl

theorem unarrowed_kbuffPut (k : Kernel) (ch : UInt8) :
    (kbuffPut k ch).unarrowed = kbuffPut k.unarrowed ch := rfl

theorem unarrowed_setLen (k : Kernel) (n : Int) :
    ({ k with currentLineLen := n } : Kernel).unarrowed =
      { k.unarrowed with currentLineLen := n } := rfl

theorem unarrowed_putTab (k : Kernel) : (putTab k).unarrowed = putTab k.unarrowed := by
  unfold putTab
  dsimp only
  rw [unarrowed_setLen, unarrowed_kbuffPut, unarrowed_kbuffPut, unarrowed_kbuffPut,
    unarrowed_kbuffPut]
  rfl

theorem unarrowed_putPrintable (k : Kernel) (ch : UInt8) :
    (putPrintable k ch).unarrowed = putPrintable k.unarrowed ch := rfl

theorem unarrowed_handleChar (h : Unread k) (ch : UInt8) :
    handleChar k.unarrowed ch = (handleChar k ch).unarrowed := by
  rw [h.handleChar_eq, h.unarrowed.handleChar_eq]
  simp only [apply_ite Kernel.unarrowed]
  rw [unarrowed_putTab, unarrowed_putPrintable]
  refine if_congr Iff.rfl (if_congr Iff.rfl rfl rfl) (if_congr Iff.rfl rfl ?_)
  exact if_congr Iff.rfl rfl (if_congr Iff.rfl rfl rfl)

/-- **A press that is heeded** leaves the two runs side by side. -/
theorem keyPress_aside (h : Unread k) (hsc : sc ∉ arrowCodes) (hh : Heeded k sc) :
    ∃ k', handleKeyPress k sc = .ok k' ∧ handleKeyPress k.unarrowed sc = .ok k'.unarrowed ∧
      Unread k' := by
  by_cases hch : ∃ ch, pressed k.unarrowed sc = .char ch
  · obtain ⟨ch, hch⟩ := hch
    rw [keyPress_char hch, keyPress_char (k := k.unarrowed) hch]
    cases hk : k.arrow with
    | false =>
      exact ⟨_, rfl, congrArg Outcome.ok (unarrowed_handleChar h ch), h.handleChar ch⟩
    | true =>
      refine ⟨_, rfl, ?_, h.unarrowed⟩
      have hsame : handleChar k.unarrowed ch = k.unarrowed :=
        h.unarrowed.handleChar_ignorable (hh hk ch hch)
      exact congrArg Outcome.ok hsame
  · exact keyPress_other h hsc fun ch hc => hch ⟨ch, hc⟩

/-- **A press that is not heeded** drives them apart. -/
theorem keyPress_swallowed (h : Unread k) (hh : ¬ Heeded k sc) :
    handleKeyPress k sc = .ok k.unarrowed ∧ ∃ k', handleKeyPress k.unarrowed sc = .ok k' ∧
      (k'.typed ≠ k.typed ∨ k'.currentLineLen ≠ k.currentLineLen) := by
  unfold Heeded Ignorable at hh
  push Not at hh
  obtain ⟨hk, ch, hch, hno⟩ := hh
  refine ⟨?_, handleChar k.unarrowed ch, ?_, h.unarrowed.handleChar_changes hno⟩
  · rw [keyPress_char hch, if_pos hk]
  · rw [keyPress_char (k := k.unarrowed) hch]
    rfl

/-! ### The two runs -/

/-- After the keys, and after the same keys without the arrows, the same bytes are unread
    and the line has the same length. -/
def ArrowsAside (k : Kernel) (codes : List Nat) : Prop :=
  ∃ k₁ k₂, handleKeys k codes = .ok k₁ ∧ handleKeys k (withoutArrows codes) = .ok k₂ ∧
    k₁.typed = k₂.typed ∧ k₁.currentLineLen = k₂.currentLineLen

/-- No key of the sequence is dropped that would have changed anything. -/
def AllHeeded (k : Kernel) (codes : List Nat) : Prop :=
  ∀ p sc, p ++ [sc] <+: codes → sc ∉ arrowCodes → ∀ k', handleKeys k p = .ok k' → Heeded k' sc

theorem withoutArrows_snoc (codes : List Nat) (sc : Nat) : withoutArrows (codes ++ [sc]) =
    if sc ∈ arrowCodes then withoutArrows codes else withoutArrows codes ++ [sc] := by
  unfold withoutArrows
  rw [List.filter_append]
  split
  · rename_i h
    simp [h]
  · rename_i h
    simp [h]

theorem AllHeeded.snoc {codes : List Nat} : AllHeeded k (codes ++ [sc]) ↔ AllHeeded k codes ∧
    (sc ∉ arrowCodes → ∀ k', handleKeys k codes = .ok k' → Heeded k' sc) := by
  constructor
  · intro h
    exact ⟨fun p c hp => h p c (hp.trans (List.prefix_append _ _)), h codes sc (List.prefix_refl _)⟩
  · rintro ⟨h, hlast⟩ p c hp
    rcases List.prefix_concat_iff.mp hp with he | hp
    · obtain ⟨rfl, rfl⟩ := List.append_singleton_inj.mp he
      exact hlast
    · exact h p c hp

/-- As long as every key is heeded, the run without the arrow keys is the run with them, but
    for the noted arrow. -/
theorem handleKeys_aside (h : Unread k) (hk : ¬ k.arrow = true) (codes : List Nat)
    (hall : AllHeeded k codes) : ∃ k', handleKeys k codes = .ok k' ∧
      handleKeys k (withoutArrows codes) = .ok k'.unarrowed ∧ Unread k' := by
  induction codes using List.reverseRecOn with
  | nil => exact ⟨k, rfl, congrArg Outcome.ok (unarrowed_of_not hk).symm, h⟩
  | append_singleton codes sc ih =>
    obtain ⟨hfront, hlast⟩ := AllHeeded.snoc.mp hall
    obtain ⟨j, hj, hj', hu⟩ := ih hfront
    rw [withoutArrows_snoc, handleKeys_snoc, hj, Outcome.ok_bind]
    by_cases hsc : sc ∈ arrowCodes
    · rw [if_pos hsc, keyPress_arrow hsc]
      exact ⟨_, rfl, hj', hu.queue, hu.foreground, hu.canonical, hu.live⟩
    · rw [if_neg hsc, handleKeys_snoc, hj', Outcome.ok_bind]
      exact keyPress_aside hu hsc (hlast hsc j hj)

/-- **The arrow keys do not show** after any prefix exactly if every dropped press is one
    that changes nothing. -/
theorem arrowsAside_iff (f : Nat → Bool) (codes : List Nat) :
    (∀ p, p <+: codes → ArrowsAside (boot f) p) ↔ AllHeeded (boot f) codes := by
  constructor
  · intro h
    induction codes using List.reverseRecOn with
    | nil => exact fun p sc hp => absurd (List.prefix_nil.mp hp) (by simp)
    | append_singleton codes sc ih =>
      have hfront := ih fun p hp => h p (hp.trans (List.prefix_append _ _))
      refine AllHeeded.snoc.mpr ⟨hfront, fun hsc j hj => ?_⟩
      obtain ⟨j₁, hj₁, hj₂, hu⟩ := handleKeys_aside (unread_boot f) nofun codes hfront
      obtain rfl := Outcome.ok.inj (hj.symm.trans hj₁)
      by_contra hno
      -- both runs are side by side up to here, and the last press drives them apart
      obtain ⟨hdrop, k', hpress, hdiff⟩ := keyPress_swallowed hu hno
      obtain ⟨k₁, k₂, h₁, h₂, htyped, hlen⟩ := h _ (List.prefix_refl _)
      rw [handleKeys_snoc, hj, Outcome.ok_bind, hdrop] at h₁
      rw [withoutArrows_snoc, if_neg hsc, handleKeys_snoc, hj₂, Outcome.ok_bind, hpress] at h₂
      cases h₁
      cases h₂
      rcases hdiff with hd | hd
      · exact hd htyped.symm
      · exact hd hlen.symm
  · intro h p hp
    obtain ⟨k', h₁, h₂, -⟩ := handleKeys_aside (unread_boot f) nofun p
      fun q sc hq => h q sc (hq.trans hp)
    exact ⟨k', k'.unarrowed, h₁, h₂, rfl, rfl⟩

/-- After an arrow key the letter `a` is dropped. -/
theorem arrow_drops_letter : ¬ ArrowsAside (boot fun _ => true) [0x48, 0x1E] := by
  rintro ⟨k₁, k₂, h₁, h₂, -, hlen⟩
  have hdropped : (handleKeys (boot fun _ => true) [0x48, 0x1E]).toOption.map
      Kernel.currentLineLen = some 0 := by decide
  have htyped : (handleKeys (boot fun _ => true) (withoutArrows [0x48, 0x1E])).toOption.map
      Kernel.currentLineLen = some 1 := by decide
  rw [h₁] at hdropped
  rw [h₂] at htyped
  have hdropped : k₁.currentLineLen = 0 := Option.some.inj hdropped
  have htyped : k₂.currentLineLen = 1 := Option.some.inj htyped
  omega

end TpeSo
