import TpeSo.Acts.Objects
import TpeSo.Ds.RingLine
import TpeSo.Lib.Lines

namespace TpeSo

open Ds Lib

/-!
# Keyboard — the ring of typed bytes and its counter

* `Kernel.typed` — the unread bytes of `kbuff`;
* `LineCounted k` — `current_line_len` is the number of bytes behind the last newline;
* `LineStep`, `step_line` — what a step does to the ring, the counter and the mode;
* `KbuffLive k` — the ring's indices are in range, and what was read last is a whole line;
* `KbuffLive.put` — a byte joins the unread ones if there is room.
-/

variable {k k' : Kernel} {e : Event} {o : Option Completion}

/-- The unread typed bytes. -/
def Kernel.typed (k : Kernel) : List UInt8 := contents k.kbuff

/-- `kbuff` accepts `n` more bytes. -/
def Kernel.hasRoom (k : Kernel) (n : Nat) : Prop := ringbufAvailable k.kbuff + n < kbuffSize

instance (k : Kernel) (n : Nat) : Decidable (k.hasRoom n) := inferInstanceAs (Decidable (_ < _))

/-- `current_line_len` counts the bytes behind the last newline. -/
def LineCounted (k : Kernel) : Prop := k.currentLineLen = (lastLine newline k.typed).length

/-! ### What a step does to the line -/

/-- The keyboard ring, the counter and the mode. -/
def Kernel.lineSide (k : Kernel) : Ringbuf × Int × Bool :=
  (k.kbuff, k.currentLineLen, k.canonicalMode)

theorem lineSide_of_offPipes (h : k'.offPipes = k.offPipes) : k'.lineSide = k.lineSide :=
  congrArg Prod.snd h

theorem lineSide_of_offSems (h : k'.offSems = k.offSems) : k'.lineSide = k.lineSide :=
  congrArg (fun x => x.2.2.2) h

section Parts

variable (h : k'.lineSide = k.lineSide)
include h

theorem kbuff_of_lineSide : k'.kbuff = k.kbuff := congrArg Prod.fst h

theorem canonicalMode_of_lineSide : k'.canonicalMode = k.canonicalMode := congrArg (·.2.2) h

theorem typed_of_lineSide : k'.typed = k.typed := congrArg contents (kbuff_of_lineSide h)

theorem lineCounted_of_lineSide : LineCounted k' ↔ LineCounted k := by
  have hlen : k'.currentLineLen = k.currentLineLen := congrArg (·.2.1) h
  rw [LineCounted, LineCounted, typed_of_lineSide h, hlen]

end Parts

/-- What a step does to the line. -/
inductive LineStep (k : Kernel) (e : Event) (k' : Kernel) : Prop where
  | same (hkey : ∀ sc, e = .key sc → pressed k sc = .noted ∨ pressed k sc = .ctrlC)
      (h : k'.lineSide = k.lineSide)
  | char (sc : Nat) (ch : UInt8) (he : e = .key sc) (hch : pressed k sc = .char ch)
      (h : k'.lineSide = (handleChar k ch).lineSide)
  | ctrlD (sc : Nat) (he : e = .key sc) (hch : pressed k sc = .ctrlD)
      (h : k'.lineSide = (handleCtrlD k).lineSide)
  | line (count n : Nat) (hkey : ∀ sc, e ≠ .key sc) (hn : nextLineLength k = .ok n) (h0 : n ≠ 0)
      (h : k'.lineSide = (getLine k count).1.lineSide)
  | canonical (b : Bool) (he : e = .sysSetCanonical b)
      (h : k'.lineSide = { k with canonicalMode := b }.lineSide)

/-- A key press goes on to the handler. -/
theorem step_key {sc : Nat} (hs : step k (.key sc) = some (k', o)) :
    handleKeyPress k sc = .ok k' := by
  rcases step_eq_some hs with ⟨-, -, h⟩ | ⟨he, -⟩
  · obtain ⟨k₁, hk, h⟩ := Outcome.bind_eq_ok.mp h
    cases h
    exact hk
  · cases he

/-- **Only the keys and the calls on the keyboard** change the line. -/
theorem step_line (hs : step k e = some (k', o)) : LineStep k e k' := by
  by_cases hfix : ∀ sc, e = .key sc → pressed k sc = .noted ∨ pressed k sc = .ctrlC
  · have same : k'.lineSide = k.lineSide → LineStep k e k' := .same hfix
    cases step_offPipes hs with
    | same h => exact same (lineSide_of_offPipes h)
    | semCreate id v _ h =>
      exact same ((lineSide_of_offPipes h).trans (lineSide_of_offSems (offSems_mySemCreate k id v)))
    | semDestroy id _ h =>
      exact same ((lineSide_of_offPipes h).trans (lineSide_of_offSems (offSems_mySemDestroy k id)))
    | semPost id _ r hr h =>
      exact same ((lineSide_of_offPipes h).trans (lineSide_of_offSems (offSems_mySemPost hr)))
    | semWait id _ r hr h =>
      exact same ((lineSide_of_offPipes h).trans (lineSide_of_offSems (offSems_mySemWait hr)))
    | semTrywait id _ r hr h =>
      exact same ((lineSide_of_offPipes h).trans (lineSide_of_offSems (offSems_mySemTrywait hr)))
    | char sc ch he hch _ => rcases hfix sc he with h | h <;> rw [hch] at h <;> cases h
    | ctrlD sc he hch _ => rcases hfix sc he with h | h <;> rw [hch] at h <;> cases h
    | line count n hkey hn h0 h => exact .line count n hkey hn h0 (lineSide_of_offPipes h)
    | canonical b he h => exact .canonical b he (lineSide_of_offPipes h)
  · simp only [not_forall, not_or] at hfix
    obtain ⟨sc, rfl, hnoted, hctrlC⟩ := hfix
    have hpress := handleKeyPress_pressed (step_key hs)
    cases hch : pressed k sc with
    | noted => exact absurd hch hnoted
    | ctrlC => exact absurd hch hctrlC
    | ctrlD =>
      rw [hch] at hpress
      exact .ctrlD sc rfl hch (by rw [hpress])
    | char ch =>
      rw [hch] at hpress
      exact .char sc ch rfl hch (by rw [hpress])

/-! ### The ring and the line that was read last -/

/-- The indices of `kbuff` are in range, and the byte in front of `head` ends a line. -/
structure KbuffLive (k : Kernel) : Prop where
  live : k.kbuff.Live
  size_eq : k.kbuff.size = kbuffSize
  behind : k.kbuff.head ≠ 0 → k.kbuff.buf (k.kbuff.head - 1) = newline

theorem KbuffLive.of_lineSide (hk : KbuffLive k) (h : k'.lineSide = k.lineSide) :
    KbuffLive k' := by
  have hbuf := kbuff_of_lineSide h
  exact ⟨by rw [hbuf]; exact hk.live, by rw [hbuf]; exact hk.size_eq, by rw [hbuf]; exact hk.behind⟩

/-- A put changes the cell `tail` leads to, if any, and leaves `head` alone. -/
theorem kbuffPut_kbuff (k : Kernel) (ch : UInt8) :
    k.kbuff.Full ∧ (kbuffPut k ch).kbuff = k.kbuff ∨
      ¬ k.kbuff.Full ∧ (kbuffPut k ch).kbuff = { k.kbuff with
        buf := Function.update k.kbuff.buf (wrapIdx k.kbuff k.kbuff.tail) ch,
        tail := wrapIdx k.kbuff k.kbuff.tail + 1 } := by
  show _ ∧ (ringbufWrite k.kbuff [ch]).1 = _ ∨ _ ∧ (ringbufWrite k.kbuff [ch]).1 = _
  by_cases hfull : k.kbuff.Full
  · rw [ringbufWrite_full hfull]
    exact .inl ⟨hfull, rfl⟩
  · refine .inr ⟨hfull, ?_⟩
    rw [ringbufWrite, if_neg (show ¬ (_ % _ = _ % _) from hfull)]
    rfl

/-- `kbuff` is full when it has no room. -/
theorem KbuffLive.hasRoom_one (h : KbuffLive k) : k.hasRoom 1 ↔ ¬ k.kbuff.Full := by
  have hlt := ringbufAvailable_lt h.live
  rw [full_iff h.live, Kernel.hasRoom, h.size_eq] at *
  omega

/-- A byte joins the line if there is room for it. -/
theorem KbuffLive.put (h : KbuffLive k) (ch : UInt8) :
    KbuffLive (kbuffPut k ch) ∧
      (kbuffPut k ch).typed = if k.hasRoom 1 then k.typed ++ [ch] else k.typed := by
  rcases kbuffPut_kbuff k ch with ⟨hfull, he⟩ | ⟨hroom, he⟩
  · refine ⟨⟨by rw [he]; exact h.live, by rw [he]; exact h.size_eq, by rw [he]; exact h.behind⟩, ?_⟩
    rw [if_neg (fun hr => h.hasRoom_one.mp hr hfull)]
    exact congrArg contents he
  · obtain ⟨hwf, hc⟩ := write_step h.live hroom ch
    refine ⟨⟨by rw [he]; exact hwf.live, by rw [he]; exact h.size_eq, ?_⟩, ?_⟩
    · -- the cell in front of `head` is the one that stays unused
      rw [he]
      intro hhead
      have hne : k.kbuff.head - 1 ≠ wrapIdx k.kbuff k.kbuff.tail := by
        intro heq
        have hhle := h.live.head_le
        have hpos := h.live.size_pos
        rw [wrapIdx_eq_mod hpos h.live.tail_le] at heq
        apply hroom
        rw [Ringbuf.Full, ← Nat.mod_add_mod, ← heq]
        congr 1
        have hhead : k.kbuff.head ≠ 0 := hhead
        omega
      exact (Function.update_of_ne hne _ _).trans (h.behind hhead)
    · rw [if_pos (h.hasRoom_one.mpr hroom)]
      exact (congrArg contents he).trans hc

/-- The counts after a put: of the unread bytes, and of those behind the last newline. -/
theorem KbuffLive.put_counts (h : KbuffLive k) {ch : UInt8} (hch : ch ≠ newline) :
    k.hasRoom 1 ∧ ringbufAvailable (kbuffPut k ch).kbuff = ringbufAvailable k.kbuff + 1 ∧
        (lastLine newline (kbuffPut k ch).typed).length = (lastLine newline k.typed).length + 1 ∨
      ¬ k.hasRoom 1 ∧ ringbufAvailable (kbuffPut k ch).kbuff = ringbufAvailable k.kbuff ∧
        (lastLine newline (kbuffPut k ch).typed).length = (lastLine newline k.typed).length := by
  obtain ⟨-, htyped⟩ := h.put ch
  have havail : ringbufAvailable (kbuffPut k ch).kbuff = (kbuffPut k ch).typed.length :=
    (contents_length _).symm
  have havail₀ : k.typed.length = ringbufAvailable k.kbuff := contents_length _
  rw [havail, htyped]
  by_cases hroom : k.hasRoom 1
  · rw [if_pos hroom, lastLine_concat, if_neg hch]
    exact .inl ⟨hroom, by simp [havail₀], by simp⟩
  · rw [if_neg hroom]
    exact .inr ⟨hroom, havail₀, rfl⟩

end TpeSo
