import TpeSo.Keyboard.Line

namespace TpeSo

open Ds Lib

/-!
# Keyboard — editing the line that is being typed

A backspace takes the newest byte back from `kbuff` while `current_line_len` is positive.
The counter is kept beside the ring, by every branch that writes to it.

* `Typing k` — the driver edits lines, in a ring that is in order;
* `KeyCounted k e` — the keys that leave the counter right: nothing is dropped for want of
  room while it is counted, and a Ctrl-D ends no line that has bytes;
* `Typing.afterStep` — **one step keeps the counter right exactly if its key does**;
* `editsPending_iff` — **the counter is right after every event of a run, and no backspace
  touches a finished line, exactly if all keys are of that kind**.
-/

variable {k k' : Kernel} {e : Event} {o : Option Completion}

/-! ### The keys -/

/-- The driver edits lines, in a ring. -/
structure Typing (k : Kernel) : Prop extends KbuffLive k where
  canonical : k.canonicalMode = true

theorem Typing.of_lineSide (hk : Typing k) (h : k'.lineSide = k.lineSide) : Typing k' :=
  ⟨hk.toKbuffLive.of_lineSide h, (canonicalMode_of_lineSide h).trans hk.canonical⟩

theorem lineSide_wakeReader (k : Kernel) : (wakeReader k).lineSide = k.lineSide :=
  lineSide_of_offPipes
    (offPipes_procReady { k with keyboardQueue := (dequeue k.keyboardQueue).2 } _)

theorem lineSide_wakeRaw (k : Kernel) : (wakeRaw k).lineSide = k.lineSide := by
  unfold wakeRaw
  split
  · exact lineSide_wakeReader k
  · rfl

/-- The line behind an Enter. -/
theorem lineSide_putLine (k : Kernel) :
    (putLine k newline).lineSide = { kbuffPut k newline with currentLineLen := 0 }.lineSide := by
  have hwake : (if (kbuffPut k newline).canonicalMode then wakeReader (kbuffPut k newline)
      else kbuffPut k newline).lineSide = (kbuffPut k newline).lineSide := by
    split
    · exact lineSide_wakeReader _
    · rfl
  exact congrArg (fun x : Ringbuf × Int × Bool => (x.1, (0 : Int), x.2.2)) hwake

/-- The line behind a Ctrl-D that finds a reader. -/
theorem lineSide_handleCtrlD (hq : k.keyboardQueue ≠ []) :
    (handleCtrlD k).lineSide =
      (kbuffPut (if k.currentLineLen = 0 then kbuffPut k veof else k) newline).lineSide := by
  rw [handleCtrlD, if_pos hq]
  exact lineSide_wakeReader _

/-- **A backspace takes back a byte of the unfinished line, or nothing.** -/
theorem Typing.afterBackspace (h : Typing k) (hlen : LineCounted k) :
    Typing (handleChar k backspace) ∧ LineCounted (handleChar k backspace) ∧
      wholeLines newline (handleChar k backspace).typed = wholeLines newline k.typed := by
  rw [handleChar_eq, if_pos rfl]
  by_cases hpos : 0 < k.currentLineLen
  · rw [if_pos hpos]
    have hne : lastLine newline k.typed ≠ [] := by
      intro hnil
      rw [LineCounted, hnil] at hlen
      exact hpos.ne' hlen
    have hmany : ¬ k.kbuff.Overruns 1 := by
      intro hover
      have hnil : k.typed = [] := List.length_eq_zero_iff.mp (by
        have hlt := hover.2
        rw [Kernel.typed, contents_length]
        omega)
      rw [hnil] at hne
      exact hne rfl
    obtain ⟨hlive, hsize, hback⟩ := ringbufUnwrite_back h.live hmany
    obtain ⟨hlast, hwhole⟩ := dropLast_lastLine hne
    have hbehind : (ringbufUnwrite k.kbuff).head ≠ 0 →
        (ringbufUnwrite k.kbuff).buf ((ringbufUnwrite k.kbuff).head - 1) = newline := by
      obtain ⟨hhead, hbuf⟩ := ringbufUnwrite_front k.kbuff
      rw [hhead, hbuf]
      exact h.behind
    refine ⟨⟨⟨hlive, hsize.trans h.size_eq, hbehind⟩, h.canonical⟩, ?_, ?_⟩
    · show k.currentLineLen - 1 = (lastLine newline (contents (ringbufUnwrite k.kbuff))).length
      have hcount : 0 < (lastLine newline k.typed).length := List.length_pos_iff.mpr hne
      rw [hback, show contents k.kbuff = k.typed from rfl, hlast, List.length_dropLast, hlen]
      omega
    · show wholeLines newline (contents (ringbufUnwrite k.kbuff)) = _
      rw [hback]
      exact hwhole
  · rw [if_neg hpos]
    exact ⟨h, hlen, rfl⟩

/-- Enter ends the line if the newline fits. -/
theorem Typing.afterEnter (h : Typing k) (hlen : LineCounted k) :
    Typing (putLine k newline) ∧
      (LineCounted (putLine k newline) ↔ k.hasRoom 1 ∨ k.currentLineLen = 0) := by
  obtain ⟨hput, htyped⟩ := h.put newline
  have hside := lineSide_putLine k
  have hzero : Typing { kbuffPut k newline with currentLineLen := 0 } :=
    ⟨⟨hput.live, hput.size_eq, hput.behind⟩, h.canonical⟩
  refine ⟨hzero.of_lineSide hside, ?_⟩
  rw [lineCounted_of_lineSide hside]
  show (0 : Int) = (lastLine newline (kbuffPut k newline).typed).length ↔ _
  rw [htyped]
  by_cases hroom : k.hasRoom 1
  · simp [hroom]
  · rw [if_neg hroom, ← hlen]
    simp only [hroom, false_or]
    exact eq_comm

/-- A printable character is counted whether or not it fits. -/
theorem Typing.afterPrintable (h : Typing k) (hlen : LineCounted k) {ch : UInt8}
    (hch : ch ≠ newline) :
    Typing (putPrintable k ch) ∧ (LineCounted (putPrintable k ch) ↔ k.hasRoom 1) := by
  have hput := (h.put ch).1
  refine ⟨⟨⟨hput.live, hput.size_eq, hput.behind⟩, h.canonical⟩, ?_⟩
  show k.currentLineLen + 1 = (lastLine newline (kbuffPut k ch).typed).length ↔ _
  rw [hlen]
  rcases h.put_counts hch with ⟨hroom, -, hlast⟩ | ⟨hroom, -, hlast⟩ <;> rw [hlast] <;>
    simp only [hroom, iff_true, iff_false] <;> omega

/-- The line after `n` puts. -/
theorem Typing.puts (h : Typing k) {ch : UInt8} (hch : ch ≠ newline) (n : Nat) :
    ∃ k', k' = (fun k => kbuffPut k ch)^[n] k ∧ Typing k' ∧ k'.currentLineLen = k.currentLineLen ∧
      ringbufAvailable k'.kbuff =
        ringbufAvailable k.kbuff + min n (kbuffSize - 1 - ringbufAvailable k.kbuff) ∧
      (lastLine newline k'.typed).length =
        (lastLine newline k.typed).length + min n (kbuffSize - 1 - ringbufAvailable k.kbuff) := by
  induction n with
  | zero => exact ⟨k, rfl, h, rfl, by omega, by omega⟩
  | succ n ih =>
    obtain ⟨k', hk', h', hlen, havail, hlast⟩ := ih
    have hput := (h'.put ch).1
    refine ⟨kbuffPut k' ch, ?_, ⟨hput, h'.canonical⟩, hlen, ?_⟩
    · rw [Function.iterate_succ_apply', hk']
    · have hcount := h'.put_counts hch
      unfold Kernel.hasRoom at hcount
      generalize ringbufAvailable (kbuffPut k' ch).kbuff = a at hcount ⊢
      generalize (lastLine newline (kbuffPut k' ch).typed).length = l at hcount ⊢
      omega

/-- A tab is counted as four characters whether or not they fit. -/
theorem Typing.afterTab (h : Typing k) (hlen : LineCounted k) :
    Typing (putTab k) ∧ (LineCounted (putTab k) ↔ k.hasRoom 4) := by
  obtain ⟨k', hk', h', hlen', -, hlast⟩ := h.puts (show space ≠ newline by decide) 4
  have htab : putTab k = { k' with currentLineLen := k'.currentLineLen + 4 } := by
    rw [hk']
    rfl
  rw [htab]
  refine ⟨⟨⟨h'.live, h'.size_eq, h'.behind⟩, h'.canonical⟩, ?_⟩
  show k'.currentLineLen + 4 = (lastLine newline k'.typed).length ↔ _
  unfold LineCounted at hlen
  unfold Kernel.hasRoom
  rw [hlen', hlast, hlen]
  omega

/-- Ctrl-D ends the line without restarting the count. -/
theorem Typing.afterCtrlD (h : Typing k) (hlen : LineCounted k) :
    Typing (handleCtrlD k) ∧ (LineCounted (handleCtrlD k) ↔
      k.keyboardQueue = [] ∨ ¬ k.hasRoom 1 ∨ k.currentLineLen = 0 ∧ k.hasRoom 2) := by
  by_cases hq : k.keyboardQueue = []
  · rw [handleCtrlD, if_neg (not_not_intro hq)]
    simp only [hq, true_or, iff_true]
    exact ⟨h, hlen⟩
  · have hside := lineSide_handleCtrlD hq
    simp only [hq, false_or]
    rw [lineCounted_of_lineSide hside]
    by_cases hzero : k.currentLineLen = 0
    · rw [if_pos hzero] at hside ⊢
      obtain ⟨h₁, -⟩ := h.put veof
      obtain ⟨h₂, htyped⟩ := h₁.put newline
      refine ⟨Typing.of_lineSide ⟨h₂, h.canonical⟩ hside, ?_⟩
      show k.currentLineLen =
        (lastLine newline (kbuffPut (kbuffPut k veof) newline).typed).length ↔ _
      have hcount := h.put_counts (show veof ≠ newline by decide)
      unfold LineCounted at hlen
      rw [htyped]
      -- the newline fits when both bytes do; with room for one only, Ctrl-D itself is left
      by_cases hroom : (kbuffPut k veof).hasRoom 1
      · rw [if_pos hroom, lastLine_terminated, List.length_nil]
        unfold Kernel.hasRoom at hcount hroom ⊢
        omega
      · rw [if_neg hroom]
        unfold Kernel.hasRoom at hcount hroom ⊢
        omega
    · rw [if_neg hzero] at hside ⊢
      obtain ⟨h₁, htyped⟩ := h.put newline
      refine ⟨Typing.of_lineSide ⟨h₁, h.canonical⟩ hside, ?_⟩
      show k.currentLineLen = (lastLine newline (kbuffPut k newline).typed).length ↔ _
      rw [htyped]
      by_cases hroom : k.hasRoom 1
      · simp [hroom, hzero]
      · rw [if_neg hroom, ← hlen]
        simp [hroom]

/-! ### Reading -/

/-- In canonical mode a line is waiting when the search has found its end. -/
theorem Typing.find (h : Typing k) {n : Nat} (hn : nextLineLength k = .ok n) :
    ringbufFind k.kbuff newline = some n := by
  rw [nextLineLength, if_pos h.canonical] at hn
  split at hn
  · cases hn
  · rename_i m hfind
    cases hn
    exact hfind

/-- `get_line` moves `head` right behind a newline, and changes nothing else. -/
theorem Typing.getLine_head (h : Typing k) {n : Nat} (hn : nextLineLength k = .ok n)
    (h0 : n ≠ 0) (count : Nat) :
    ∃ i, (getLine k count).1 = { k with kbuff := { k.kbuff with head := i } } ∧ i ≠ 0 ∧
      i ≤ kbuffSize ∧ k.kbuff.buf (i - 1) = newline := by
  have hfind := h.find hn
  have hsize := find_le_size h.live hfind
  have hfrom : ringbufFindFrom k.kbuff newline (k.kbuff.size + 2) k.kbuff.head 0 =
      some (0 + n) := by
    rw [Nat.zero_add]
    exact hfind
  obtain ⟨hall, hpart⟩ := readUntil_found _ h.live hfrom h0 count
  rw [h.size_eq] at hsize
  unfold getLine
  rw [if_pos h.canonical]
  dsimp only
  by_cases hle : n ≤ count
  · obtain ⟨i, he, hi, hisize, hbuf, hlast⟩ := hall hle
    rw [if_neg (fun hc => hc.2 hlast)]
    exact ⟨i, by rw [he], hi, h.size_eq ▸ hisize, hbuf⟩
  · -- the rest of the line goes to the second read
    obtain ⟨i, he, hlive, ⟨fuel, hf⟩, hlen, hlast⟩ := hpart (by omega)
    rw [if_pos ⟨hlen, hlast⟩]
    have hrest : ringbufFindFrom { k.kbuff with head := i } newline fuel i count =
        some (count + (n - count)) := by
      rw [findFrom_head, ← Nat.zero_add count, hf]
      congr 1
      omega
    obtain ⟨i', he', hi', hisize', hbuf', -⟩ :=
      (readUntil_found fuel hlive hrest (by omega) kbuffSize).1 (by omega)
    rw [he]
    exact ⟨i', by rw [he'], hi', h.size_eq ▸ hisize', hbuf'⟩

/-- A read of a line that is there. -/
theorem Typing.getLine_typed (h : Typing k) (hmem : newline ∈ k.typed) (count : Nat) :
    (getLine k count).1.kbuff.Live ∧
      lastLine newline (getLine k count).1.typed = lastLine newline k.typed := by
  obtain ⟨hlive, hsame, hrest⟩ := lastLine_readUntil h.live hmem count
  unfold getLine
  rw [if_pos h.canonical]
  dsimp only
  split
  · rename_i hpart
    obtain ⟨hlive', hsame', -⟩ := lastLine_readUntil hlive (hrest hpart.2) kbuffSize
    exact ⟨hlive', hsame'.trans hsame⟩
  · exact ⟨hlive, hsame⟩

/-- **A read takes the first line**, or what a search past `tail` has found: the unfinished
    line stays. -/
theorem Typing.afterRead (h : Typing k) {n : Nat} (hn : nextLineLength k = .ok n) (h0 : n ≠ 0)
    (count : Nat) :
    Typing (getLine k count).1 ∧
      (LineCounted (getLine k count).1 ↔ LineCounted k) := by
  obtain ⟨i, he, hi, hisize, hbuf⟩ := h.getLine_head hn h0 count
  have hnext : (getLine k count).1.kbuff.Live ∧
      lastLine newline (getLine k count).1.typed = lastLine newline k.typed := by
    by_cases hmem : newline ∈ k.typed
    · exact h.getLine_typed hmem count
    · -- the search has gone round the array, and so does the read
      have hr : k.kbuff.Rewound := by
        by_contra hr
        have habsent := (h.find hn).symm.trans (ringbufFind_absent h.live hr hmem)
        exact h0 (Option.some.inj habsent)
      have hlive : ({ k.kbuff with head := i } : Ringbuf).Live :=
        live_of_head h.live (Nat.pos_of_ne_zero hi) (h.size_eq.symm ▸ hisize)
      rw [he]
      refine ⟨hlive, ?_⟩
      show lastLine newline (contents { k.kbuff with head := i }) =
        lastLine newline (contents k.kbuff)
      rw [contents_rewound hlive ⟨hr.1, hi⟩, contents_rewound h.live hr,
        lastLine_cells hr.2 h.live.head_le (h.behind hr.2)]
      exact lastLine_cells hi (h.size_eq.symm ▸ hisize) hbuf
  rw [he] at hnext ⊢
  refine ⟨⟨⟨hnext.1, h.size_eq, fun _ => hbuf⟩, h.canonical⟩, ?_⟩
  rw [LineCounted, LineCounted, hnext.2]

/-! ### The keys that keep the count -/

/-- The character is counted as it is stored. -/
def CharCounted (k : Kernel) (ch : UInt8) : Prop :=
  if ch = backspace then True
  else if ch = tab then k.hasRoom 4
  else if ch = newline then k.hasRoom 1 ∨ k.currentLineLen = 0
  else if 32 ≤ ch ∧ ch ≤ 126 then k.hasRoom 1
  else True

/-- The key keeps the count: a character finds room, and a Ctrl-D that finds a reader ends a
    line without bytes, or has no room to end one. -/
def PressCounted (k : Kernel) : Pressed → Prop
  | .char ch => CharCounted k ch
  | .ctrlD => k.keyboardQueue = [] ∨ ¬ k.hasRoom 1 ∨ k.currentLineLen = 0 ∧ k.hasRoom 2
  | .noted | .ctrlC => True

/-- The event is no key press, or one that keeps the count. -/
def KeyCounted (k : Kernel) : Event → Prop
  | .key sc => PressCounted k (pressed k sc)
  | _ => True

/-- After the event the count is right, and if it was a backspace, the finished lines are
    those from before. -/
def EditsPending (k : Kernel) (e : Event) : Prop :=
  ∀ k' o, step k e = some (k', o) → LineCounted k' ∧
    ∀ sc, e = .key sc → pressed k sc = .char backspace →
      wholeLines newline k'.typed = wholeLines newline k.typed

theorem Typing.afterChar (h : Typing k) (hlen : LineCounted k) (ch : UInt8) :
    Typing (handleChar k ch) ∧ (LineCounted (handleChar k ch) ↔ CharCounted k ch) := by
  unfold CharCounted
  by_cases hback : ch = backspace
  · subst hback
    obtain ⟨h', hlen', -⟩ := h.afterBackspace hlen
    exact ⟨h', by simp [hlen']⟩
  rw [handleChar_eq, if_neg hback, if_neg hback]
  split
  · exact h.afterTab hlen
  split
  · obtain ⟨h', hiff⟩ := h.afterEnter hlen
    exact ⟨h'.of_lineSide (lineSide_wakeRaw _),
      (lineCounted_of_lineSide (lineSide_wakeRaw _)).trans hiff⟩
  · rename_i hnl
    split
    · obtain ⟨h', hiff⟩ := h.afterPrintable hlen hnl
      exact ⟨h'.of_lineSide (lineSide_wakeRaw _),
        (lineCounted_of_lineSide (lineSide_wakeRaw _)).trans hiff⟩
    · exact ⟨h.of_lineSide (lineSide_wakeRaw _),
        (lineCounted_of_lineSide (lineSide_wakeRaw _)).trans ⟨fun _ => trivial, fun _ => hlen⟩⟩

/-- **One step of the count**: it stays right exactly when the event keeps it. -/
theorem Typing.afterStep (h : Typing k) (hlen : LineCounted k) (hmode : e ≠ .sysSetCanonical false)
    (hs : step k e = some (k', o)) : Typing k' ∧ (LineCounted k' ↔ KeyCounted k e) := by
  cases step_line hs with
  | same hkey hside =>
    refine ⟨h.of_lineSide hside, (lineCounted_of_lineSide hside).trans ⟨fun _ => ?_, fun _ => hlen⟩⟩
    unfold KeyCounted
    split
    · rename_i sc
      rcases hkey sc rfl with hp | hp <;> rw [hp] <;> trivial
    · trivial
  | char sc ch he hch hside =>
    subst he
    obtain ⟨h', hiff⟩ := h.afterChar hlen ch
    refine ⟨h'.of_lineSide hside, (lineCounted_of_lineSide hside).trans ?_⟩
    rw [KeyCounted, hch]
    exact hiff
  | ctrlD sc he hch hside =>
    subst he
    obtain ⟨h', hiff⟩ := h.afterCtrlD hlen
    refine ⟨h'.of_lineSide hside, (lineCounted_of_lineSide hside).trans ?_⟩
    rw [KeyCounted, hch]
    exact hiff
  | line count n hkey hn h0 hside =>
    obtain ⟨h', hiff⟩ := h.afterRead hn h0 count
    refine ⟨h'.of_lineSide hside, (lineCounted_of_lineSide hside).trans (hiff.trans ?_)⟩
    unfold KeyCounted
    split
    · rename_i sc
      exact absurd rfl (hkey sc)
    · exact ⟨fun _ => trivial, fun _ => hlen⟩
  | canonical b he hside =>
    subst he
    have hb : b = k.canonicalMode := by
      rw [h.canonical]
      cases b with
      | true => rfl
      | false => exact absurd rfl hmode
    subst hb
    have hsame : k'.lineSide = k.lineSide := hside
    exact ⟨h.of_lineSide hsame, (lineCounted_of_lineSide hsame).trans
      ⟨fun _ => trivial, fun _ => hlen⟩⟩

/-! ### Whole runs -/

/-- The event leaves canonical mode on. -/
def StaysCanonical : Event → Prop
  | .sysSetCanonical b => b = true
  | _ => True

instance : DecidablePred StaysCanonical := fun e => by
  rcases e with ⟨⟩ <;> dsimp only [StaysCanonical] <;> infer_instance

instance (k : Kernel) (ch : UInt8) : Decidable (CharCounted k ch) := by
  unfold CharCounted
  infer_instance

instance (k : Kernel) : ∀ p, Decidable (PressCounted k p)
  | .char ch => inferInstanceAs (Decidable (CharCounted k ch))
  | .ctrlD => inferInstanceAs (Decidable (_ ∨ _))
  | .noted | .ctrlC => instDecidableTrue

instance (k : Kernel) (e : Event) : Decidable (KeyCounted k e) := by
  rcases e with ⟨⟩ <;> dsimp only [KeyCounted] <;> infer_instance

theorem typing_boot (f : Nat → Bool) : Typing (boot f) :=
  ⟨⟨(ringbufNew_wf (show 0 < kbuffSize by decide)).live, rfl, fun h => absurd rfl h⟩, rfl⟩

/-- An event edits the line that is being typed exactly if it keeps the count. -/
theorem Typing.edits_step (h : Typing k) (hlen : LineCounted k) (hmode : StaysCanonical e)
    (hs : TpeSo.step k e = some (k', o)) : EditsPending k e ↔ KeyCounted k e := by
  have hcanon : e ≠ .sysSetCanonical false := by
    rintro rfl
    cases hmode
  constructor
  · exact fun hedit => (h.afterStep hlen hcanon hs).2.mp (hedit k' o hs).1
  · intro hcount k₁ o₁ hs₁
    refine ⟨(h.afterStep hlen hcanon hs₁).2.mpr hcount, ?_⟩
    rintro sc rfl hpress
    cases step_line hs₁ with
    | same hkey _ => rcases hkey sc rfl with hp | hp <;> rw [hp] at hpress <;> cases hpress
    | char sc' ch he hch hside =>
      cases he
      cases hch.symm.trans hpress
      rw [typed_of_lineSide hside]
      exact (h.afterBackspace hlen).2.2
    | ctrlD sc' he hch _ => cases he; cases hch.symm.trans hpress
    | line count n hnokey => exact absurd rfl (hnokey sc)
    | canonical b he => cases he

/-- **Backspace only edits the pending line**, in every run in canonical mode, exactly as long
    as every key keeps the count. -/
theorem editsPending_iff {f : Nat → Bool} {tr : List (Kernel × Event × Option Completion)}
    (h : Run f (fun _ e => StaysCanonical e) tr k) :
    (∀ x ∈ tr, EditsPending x.1 x.2.1) ↔ ∀ x ∈ tr, KeyCounted x.1 x.2.1 := by
  have hrun : ((∀ x ∈ tr, KeyCounted x.1 x.2.1) → Typing k ∧ LineCounted k) ∧
      ((∀ x ∈ tr, EditsPending x.1 x.2.1) ↔ ∀ x ∈ tr, KeyCounted x.1 x.2.1) := by
    induction h with
    | nil => exact ⟨fun _ => ⟨typing_boot f, rfl⟩, by simp⟩
    | @snoc tr t e u o _ hmode hs ih =>
      obtain ⟨hinv, hiff⟩ := ih
      simp only [List.forall_mem_append, List.forall_mem_singleton]
      have hcanon : e ≠ .sysSetCanonical false := by
        rintro rfl
        cases hmode
      constructor
      · rintro ⟨hall, hlast⟩
        obtain ⟨ht, hlen⟩ := hinv hall
        obtain ⟨hu, hcount⟩ := ht.afterStep hlen hcanon hs
        exact ⟨hu, hcount.mpr hlast⟩
      · rw [hiff]
        refine and_congr_right fun hall => ?_
        obtain ⟨ht, hlen⟩ := hinv hall
        exact ht.edits_step hlen hmode hs
  exact hrun.2

/-- A character, Enter, and a backspace that finds nothing to take back. -/
theorem editsPending_typed : ∃ tr k, Run (fun _ => true) (fun _ e => StaysCanonical e) tr k ∧
    k.typed = [97, newline] ∧ ∀ x ∈ tr, EditsPending x.1 x.2.1 := by
  have hcheck : execCheck step (fun _ e => StaysCanonical e)
      (fun tr k => decide (∀ x ∈ tr, KeyCounted x.1 x.2.1) && k.typed == [97, newline])
      (boot fun _ => true) [.key 30, .key 28, .key 14] = true := by decide +kernel
  obtain ⟨tr, k, hrun, hQ⟩ := Trace.of_execCheck hcheck
  simp only [Bool.and_eq_true, beq_iff_eq, decide_eq_true_eq] at hQ
  exact ⟨tr, k, hrun, hQ.2, (editsPending_iff hrun).mpr hQ.1⟩

/-- `init` waits for a line; a character and Ctrl-D are typed, then a backspace. -/
def ctrlDEvents : List Event :=
  [.sysSpawn { entry := some 1, fds := none, background := false },
   .sysSpawn { entry := some 2, fds := none, background := false }, .timer, .sysYield,
   .sysRead 0 10 0, .resume, .key 30, .key 0x1D, .key 32, .key 0x9D]

/-- **A finished line loses its newline**: Ctrl-D ends the line and leaves the count at `1`, so
    that the backspace finds a byte to take back. -/
theorem backspace_unfinishes :
    (¬ ∀ tr k, Run (fun _ => true) (fun _ e => StaysCanonical e) tr k → LineCounted k) ∧
    ¬ ∀ tr k, Run (fun _ => true) (fun _ e => StaysCanonical e) tr k →
      ∀ sc k' o, step k (.key sc) = some (k', o) → pressed k sc = .char backspace →
        wholeLines newline k'.typed = wholeLines newline k.typed := by
  have hcheck : execCheck step (fun _ e => StaysCanonical e)
      (fun _ k => k.typed == [97, newline] && k.currentLineLen == 1 &&
        pressed k 14 == .char backspace &&
        (step k (.key 14)).any fun r => r.1.typed == [97])
      (boot fun _ => true) ctrlDEvents = true := by decide +kernel
  obtain ⟨tr, k, hrun, hQ⟩ := Trace.of_execCheck hcheck
  simp only [Bool.and_eq_true, beq_iff_eq, Option.any_eq_true] at hQ
  obtain ⟨⟨⟨htyped, hlen⟩, hpress⟩, ⟨k', o⟩, hs, htyped'⟩ := hQ
  refine ⟨fun hall => ?_, fun hall => ?_⟩
  · have hcount := hall tr k hrun
    rw [LineCounted, hlen, htyped] at hcount
    exact absurd hcount (by decide)
  · have hwhole := hall tr k hrun 14 k' o hs hpress
    rw [htyped, htyped'] at hwhole
    exact absurd hwhole (by decide)

end TpeSo
