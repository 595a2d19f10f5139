import Mathlib.Data.Nat.Digits.Lemmas
import TpeSo.Userland.Printf

namespace TpeSo.Userland

open Lib

/-!
# `programs/wc.c` — lines, words and characters

`wc_main` counts while it reads, and a `read` may end anywhere, also within a word.

* `wcMain` — the program: what the calls of `read` deliver, and what is printed;
* `wcFor_eq`, `wcLoop_eq` — both loops together go once over the whole text;
* `foldl_wcStep`, `wcLast_foldl` — what has been counted at its end;
* `printf_report` — how the three numbers are printed;
* `wc_reports` — **the report** depends on the whole text only.
-/

/-- `sizeof(buffer)`. -/
def wcBufferSize : Nat := 1024

/-- The counters of `wc_main`, and `in_word`. -/
structure Wc where
  lines : Int := 0
  words : Int := 0
  chars : Int := 0
  inWord : Bool := false

/-- A round of the inner loop, on the byte `c`. -/
def wcStep (s : Wc) (c : UInt8) : Wc :=
  let s := { s with chars := int32 (s.chars + 1) }
  let s := if c = newline then { s with lines := int32 (s.lines + 1) } else s
  if c = space ∨ c = newline ∨ c = tab then
    if s.inWord then { s with words := int32 (s.words + 1), inWord := false } else s
  else { s with inWord := true }

/-- The inner loop from index `i` on, with `n` bytes to go. -/
def wcFor (buffer : Memory) : Nat → Nat → Wc → Wc
  | 0, _, s => s
  | n + 1, i, s => wcFor buffer n (i + 1) (wcStep s (buffer i))

/-- The buffer after a `read` that has delivered the bytes `part`. -/
def fill (buffer : Memory) (part : List UInt8) : Memory := fun i => part.getD i (buffer i)

/-- The loop over the calls of `read`, each with what it delivers: nothing when it returns `0`
    or an error, as the calls behind the last one do. -/
def wcLoop : List (List UInt8) → Memory → Wc → Outcome Wc
  | [], _, s => .ok s
  | part :: parts, buffer, s =>
    let bytesRead := part.length
    if bytesRead = 0 then .ok s
    else if wcBufferSize ≤ bytesRead then .fault
    else
      let buffer := Function.update (fill buffer part) bytesRead 0
      wcLoop parts buffer (wcFor buffer bytesRead 0 s)

/-- The last word may end with the text. -/
def wcLast (s : Wc) : Wc := if s.inWord then { s with words := int32 (s.words + 1) } else s

/-- `"%d %d %d\n"`. -/
def wcFormat : List UInt8 := [37, 100, 32, 37, 100, 32, 37, 100, 10]

/-- The characters of a string constant, by index. -/
def charAt (fmt : List UInt8) (i : Int) : UInt8 := if i < 0 then 0 else fmt.getD i.toNat 0

/-- `lines`, `words` and `chars`, as `va_arg` finds them. -/
def wcArgs (s : Wc) (i : Nat) : Arg := ⟨BitVec.ofInt 64 ([s.lines, s.words, s.chars].getD i 0), []⟩

/-- `wc_main`: its result, and what it prints. -/
def wcMain (fuel : Nat) (buffer : Memory) (parts : List (List UInt8)) :
    Outcome (Int × List UInt8) := do
  let s ← wcLoop parts buffer {}
  let r ← printf fuel (charAt wcFormat) (wcArgs (wcLast s))
  .ok (0, r.out)

/-! ### Counting -/

variable {buffer : Memory} {c : UInt8} {l : List UInt8} {s : Wc} {a b n k fuel : Nat}

/-- What ends a word. -/
def endsWord (c : UInt8) : Bool := c = space ∨ c = newline ∨ c = tab

/-- The inner loop goes over the bytes that stand in the buffer. -/
theorem wcFor_eq : ∀ {l : List UInt8} {i : Nat} {s : Wc}, Holds buffer i l →
    wcFor buffer l.length i s = l.foldl wcStep s := by
  intro l
  induction l with
  | nil => exact fun _ => rfl
  | cons c l ih =>
    intro i s h
    rw [List.length_cons, wcFor, h.1, List.foldl_cons]
    exact ih h.2

/-- What a `read` has delivered stands in the buffer. -/
theorem holds_fill (buffer : Memory) (part : List UInt8) :
    Holds (Function.update (fill buffer part) part.length 0) 0 part := by
  have hpart : Holds (fun i => part.getD i 0) 0 part := holds_getD part 0
  refine hpart.congr fun x _ hx => ?_
  rw [Nat.zero_add] at hx
  rw [Function.update_of_ne (Nat.ne_of_lt hx), fill]
  simp [List.getD_eq_getElem?_getD, List.getElem?_eq_getElem hx]

/-- **Both loops**: wherever the text has been cut, it is gone over once. -/
theorem wcLoop_eq : ∀ {parts : List (List UInt8)} {buffer : Memory} {s : Wc},
    (∀ part ∈ parts, part ≠ [] ∧ part.length ≤ wcBufferSize - 1) →
    wcLoop parts buffer s = .ok (parts.flatten.foldl wcStep s) := by
  intro parts
  induction parts with
  | nil => exact fun _ => rfl
  | cons part parts ih =>
    intro buffer s hparts
    obtain ⟨hne, hshort⟩ := hparts part List.mem_cons_self
    unfold wcBufferSize at hshort
    have hsome : part.length ≠ 0 := fun h => hne (List.length_eq_zero_iff.mp h)
    -- the `NUL` behind the part stands inside the buffer
    have hfits : ¬ wcBufferSize ≤ part.length := by
      unfold wcBufferSize
      omega
    rw [wcLoop]
    dsimp only
    rw [if_neg hsome, if_neg hfits, wcFor_eq (holds_fill buffer part),
      ih fun q hq => hparts q (List.mem_cons_of_mem _ hq), List.flatten_cons, List.foldl_append]

/-- A round, as long as the counters are far from the end of their range. -/
theorem wcStep_eq (hl : a ≤ n) (hw : b ≤ n) (hn : n + 1 < 2 ^ 31) (w : Bool) (c : UInt8) :
    wcStep ⟨a, b, n, w⟩ c =
      ⟨(a + if c = newline then 1 else 0 : Nat), (b + if endsWord c ∧ w then 1 else 0 : Nat),
        (n + 1 : Nat), !endsWord c⟩ := by
  have hinc : ∀ m : Nat, m ≤ n → int32 ((m : Int) + 1) = ((m + 1 : Nat) : Int) :=
    fun m hm => int32_eq (by omega) (by omega)
  unfold wcStep endsWord
  dsimp only
  rw [hinc n (le_refl n), hinc a hl]
  by_cases hnl : c = newline
  · rw [if_pos hnl, if_pos hnl, if_pos (.inr (.inl hnl)), decide_eq_true (.inr (.inl hnl))]
    cases w with
    | true => simp [hinc b hw]
    | false => simp
  · rw [if_neg hnl, if_neg hnl]
    by_cases hsep : c = space ∨ c = newline ∨ c = tab
    · rw [if_pos hsep, decide_eq_true hsep]
      cases w with
      | true => simp [hinc b hw]
      | false => simp
    · rw [if_neg hsep, decide_eq_false hsep]
      simp

/-- **What has been counted** behind the text `l`, when `b` words have ended before it and one
    more has begun if `w` holds. -/
theorem foldl_wcStep : ∀ {l : List UInt8} {a b n : Nat} {w : Bool}, a ≤ n → b + w.toNat ≤ n →
    n + l.length < 2 ^ 31 → ∃ (b' : Nat) (w' : Bool),
      l.foldl wcStep ⟨a, b, n, w⟩ =
        ⟨(a + l.count newline : Nat), b', (n + l.length : Nat), w'⟩ ∧
      b' + w'.toNat = b + unfinished endsWord w l := by
  intro l
  induction l with
  | nil =>
    intro a b n w _ hw _
    exact ⟨b, w, rfl, by rw [unfinished_nil]⟩
  | cons c l ih =>
    intro a b n w hl hw hn
    rw [List.length_cons] at hn
    -- no counter gets ahead of the number of bytes, which an `int` holds
    have hbegun : b + (if endsWord c ∧ w then 1 else 0) + (!endsWord c).toNat ≤ n + 1 := by
      cases endsWord c <;> cases w <;> simp at hw ⊢ <;> omega
    have hlines : a + (if c = newline then 1 else 0) ≤ n + 1 := by split <;> omega
    obtain ⟨b', w', hfold, hwords⟩ := ih (w := !endsWord c) hlines hbegun (by omega)
    rw [List.foldl_cons, wcStep_eq hl (by omega) (by omega), hfold]
    refine ⟨b', w', ?_, ?_⟩
    · congr 2
      · rw [List.count_cons]
        simp only [beq_iff_eq]
        omega
      · rw [List.length_cons]
        omega
    · rw [hwords]
      cases hc : endsWord c with
      | true =>
        rw [unfinished_separator hc]
        cases w with
        | true => simp; omega
        | false => simp
      | false =>
        rw [unfinished_other hc]
        simp

/-- The words of a text. -/
def words (text : List UInt8) : List (List UInt8) := pieces endsWord text

/-- The counters behind the whole text. -/
theorem wcLast_foldl (hl : l.length < 2 ^ 31) : wcLast (l.foldl wcStep {}) =
    ⟨(l.count newline : Nat), ((words l).length : Nat), (l.length : Nat),
      (l.foldl wcStep {}).inWord⟩ := by
  obtain ⟨b, w, hfold, hwords⟩ := foldl_wcStep (l := l) (a := 0) (b := 0) (n := 0)
    (w := false) (le_refl 0) (le_refl 0) (by omega)
  simp only [Nat.zero_add] at hfold hwords
  have hstart : ({} : Wc) = ⟨((0 : Nat) : Int), ((0 : Nat) : Int), ((0 : Nat) : Int), false⟩ := rfl
  rw [hstart, hfold]
  unfold wcLast
  cases w with
  | true =>
    -- the text ends inside a word, which is counted behind the loop
    have hword : int32 ((b : Int) + 1) = ((words l).length : Nat) := by
      have hsum : b + 1 = (words l).length := hwords
      have hle := length_pieces_le (p := endsWord) l
      rw [← hsum]
      exact int32_eq (by omega) (by rw [words] at hsum; omega)
    simp [hword]
  | false =>
    have hsum : b = (words l).length := hwords
    simp [hsum]

/-! ### The report -/

/-- The text of a number. -/
def decimal (v : Nat) : List UInt8 := if v = 0 then [digitChar 0] else textOf v

theorem itoa_decimal (v : Nat) (buffer : Memory) :
    IsString (itoa v buffer).2 0 (decimal v) ∧ (itoa v buffer).1 = (decimal v).length := by
  unfold decimal
  split
  · rename_i hv
    subst hv
    exact ⟨writeZero_isString buffer, rfl⟩
  · rename_i hv
    exact itoa_pos (Nat.pos_of_ne_zero hv) buffer

theorem length_decimal (hv : n < 2 ^ 31) : (decimal n).length < 64 := by
  unfold decimal
  split
  · decide
  · have hlen : (Nat.digits 10 n).length ≤ 10 :=
      (Nat.digits_length_le_iff (by decide) n).mpr (by omega)
    unfold textOf
    rw [List.length_reverse, List.length_map]
    omega

/-- A string is what stands in front of the first `NUL`. -/
theorem takeWhile_range' : ∀ {l : List UInt8} {i n : Nat}, IsString buffer i l → l.length < n →
    ((List.range' i n).map buffer).takeWhile (· ≠ 0) = l := by
  intro l
  induction l with
  | nil =>
    intro i n h hn
    obtain ⟨n, rfl⟩ : ∃ m, n = m + 1 := ⟨n - 1, by omega⟩
    have hnul : buffer i = 0 := h.nul
    rw [List.range'_succ, List.map_cons, List.takeWhile_cons_of_neg (by simp [hnul])]
  | cons c l ih =>
    intro i n h hn
    rw [List.length_cons] at hn
    obtain ⟨n, rfl⟩ : ∃ m, n = m + 1 := ⟨n - 1, by omega⟩
    obtain ⟨hc, hne, hrest⟩ := h.head
    rw [List.range'_succ, List.map_cons, hc, List.takeWhile_cons_of_pos (by simp [hne]),
      ih hrest (by omega)]

theorem bufferText_eq (h : IsString buffer 0 l) (hlen : l.length < 64) : bufferText buffer = l := by
  unfold bufferText
  rw [List.range_eq_range']
  exact takeWhile_range' h hlen

/-- Without a width nothing is added. -/
theorem padded_zero (n : Nat) (text : List UInt8) : padded false 0 n text = text := by
  have hnone : ¬ (0 : Int) > n := by omega
  unfold padded
  rw [if_neg hnone]
  rfl

/-- **`%d`** of a number that an `int` holds. -/
theorem printfLoop_decimal {str : Int → UInt8} {args : Nat → Arg} (fuel rounds : Nat) {i v : Nat}
    {s : Printf} (hi : i + 2 < 2 ^ 31) (h0 : str i = percent) (h1 : str (i + 1 : Nat) = 100)
    (harg : (args s.taken).bits = BitVec.ofInt 64 v) (hv : v < 2 ^ 31) :
    ∃ s', printfLoop str args (fuel + 1) (rounds + 1) i s =
        printfLoop str args (fuel + 1) rounds (i + 2 : Nat) s' ∧
      s'.out = s.out ++ decimal v ∧ s'.taken = s.taken + 1 := by
  obtain ⟨htext, hlen⟩ := itoa_decimal v fun _ => 0
  -- the argument is 64 bits wide, and `va_arg` takes an `int` out of it
  have hbits : ((BitVec.ofInt 64 (v : Int)).truncate 32).toInt = v := by
    have hnat : ((BitVec.ofInt 64 (v : Int)).truncate 32).toNat = v := by
      rw [BitVec.ofInt_natCast, BitVec.truncate_eq_setWidth, BitVec.toNat_setWidth,
        BitVec.toNat_ofNat]
      omega
    rw [BitVec.toInt_eq_toNat_of_lt (by rw [hnat]; omega), hnat]
  have hdirective : ∀ s₁ : Printf, s₁.out = s.out → s₁.taken = s.taken → ∃ s',
      directive str args (fuel + 1) (i + 1 : Nat) s₁ = .ok (((i + 1 : Nat) : Int), s') ∧
        s'.out = s.out ++ decimal v ∧ s'.taken = s.taken + 1 := by
    intro s₁ hout htaken
    have hminus : decide (str (i + 1 : Nat) = minus) = false := by
      rw [h1]
      decide
    have hwidth : widthLoop str (fuel + 1) (i + 1 : Nat) 0 (s₁.read (i + 1 : Nat)) =
        .ok ((((i + 1 : Nat) : Int), 0), (s₁.read (i + 1 : Nat)).read (i + 1 : Nat)) := by
      rw [widthLoop, h1, if_neg (by decide)]
    unfold directive
    dsimp only
    rw [hminus, if_neg Bool.false_ne_true, hwidth, Outcome.ok_bind]
    dsimp only
    rw [h1]
    refine ⟨_, rfl, ?_, ?_⟩
    · show s₁.out ++ padded false 0 (itoa ((args s₁.taken).bits.truncate 32).toInt _).1
        (bufferText (itoa ((args s₁.taken).bits.truncate 32).toInt _).2) = _
      rw [htaken, harg, hbits, hlen, bufferText_eq htext (length_decimal hv), hout, padded_zero]
    · show s₁.taken + 1 = _
      rw [htaken]
  obtain ⟨s', hs', hout, htaken⟩ := hdirective (s.read i) rfl rfl
  refine ⟨s', ?_, hout, htaken⟩
  rw [printfLoop, h0, if_neg (by decide), if_pos rfl, inc_eq (by omega), hs', Outcome.ok_bind,
    inc_eq (by omega)]

/-- Any other character. -/
theorem printfLoop_other {str : Int → UInt8} {args : Nat → Arg} (fuel rounds : Nat) {i : Nat}
    {s : Printf} {c : UInt8} (hi : i + 1 < 2 ^ 31) (hc : str i = c) (h0 : c ≠ 0) (hp : c ≠ percent)
    (hb : c ≠ backslash) : ∃ s', printfLoop str args fuel (rounds + 1) i s =
        printfLoop str args fuel rounds (i + 1 : Nat) s' ∧
      s'.out = s.out ++ [c] ∧ s'.taken = s.taken := by
  refine ⟨(s.read i).put [c], ?_, rfl, rfl⟩
  rw [printfLoop, hc, if_neg h0, if_neg hp, if_neg hb, inc_eq hi]

/-- A number and the character behind it. -/
theorem printfLoop_item (str : Int → UInt8) (args : Nat → Arg) (fuel rounds : Nat) {i v : Nat}
    {s : Printf} {c : UInt8} (hi : i + 3 < 2 ^ 31) (h0 : str i = percent)
    (h1 : str (i + 1 : Nat) = 100) (h2 : str (i + 2 : Nat) = c)
    (hc : c ≠ 0 ∧ c ≠ percent ∧ c ≠ backslash)
    (harg : (args s.taken).bits = BitVec.ofInt 64 v) (hv : v < 2 ^ 31) :
    ∃ s', printfLoop str args (fuel + 1) (rounds + 2) i s =
        printfLoop str args (fuel + 1) rounds (i + 3 : Nat) s' ∧
      s'.out = s.out ++ decimal v ++ [c] ∧ s'.taken = s.taken + 1 := by
  obtain ⟨s₁, h₁, hout₁, htaken₁⟩ := printfLoop_decimal fuel (rounds + 1) (by omega) h0 h1 harg hv
  obtain ⟨s', h', hout', htaken'⟩ := printfLoop_other (fuel + 1) rounds (s := s₁) (by omega) h2
    hc.1 hc.2.1 hc.2.2
  exact ⟨s', h₁.trans h', by rw [hout', hout₁], htaken'.trans htaken₁⟩

/-- What `wc` prints. -/
def report (lines words chars : Nat) : List UInt8 :=
  decimal lines ++ [space] ++ decimal words ++ [space] ++ decimal chars ++ [newline]

theorem printf_report (lines words chars : Nat) (hl : lines < 2 ^ 31) (hw : words < 2 ^ 31)
    (hc : chars < 2 ^ 31) (w : Bool) (hfuel : wcFormat.length < fuel) :
    ∃ r, printf fuel (charAt wcFormat) (wcArgs ⟨lines, words, chars, w⟩) = .ok r ∧
      r.out = report lines words chars := by
  obtain ⟨fuel, rfl⟩ : ∃ f, fuel = f + 10 := ⟨fuel - 10, by
    have hlen : wcFormat.length = 9 := rfl
    omega⟩
  have hspace : space ≠ 0 ∧ space ≠ percent ∧ space ≠ backslash :=
    ⟨by decide, by decide, by decide⟩
  have hnewline : newline ≠ 0 ∧ newline ≠ percent ∧ newline ≠ backslash :=
    ⟨by decide, by decide, by decide⟩
  obtain ⟨s₁, h₁, hout₁, htaken₁⟩ := printfLoop_item (charAt wcFormat)
    (wcArgs ⟨lines, words, chars, w⟩) (fuel + 9) (fuel + 8) (i := 0) (s := {}) (c := space)
    (by decide) rfl rfl rfl hspace rfl hl
  obtain ⟨s₂, h₂, hout₂, htaken₂⟩ := printfLoop_item (charAt wcFormat)
    (wcArgs ⟨lines, words, chars, w⟩) (fuel + 9) (fuel + 6) (i := 3) (s := s₁) (c := space)
    (by decide) rfl rfl rfl hspace (by rw [htaken₁]; rfl) hw
  obtain ⟨s₃, h₃, hout₃, -⟩ := printfLoop_item (charAt wcFormat)
    (wcArgs ⟨lines, words, chars, w⟩) (fuel + 9) (fuel + 4) (i := 6) (s := s₂) (c := newline)
    (by decide) rfl rfl rfl hnewline (by rw [htaken₂, htaken₁]; rfl) hc
  have hend : printfLoop (charAt wcFormat) (wcArgs ⟨lines, words, chars, w⟩) (fuel + 10) (fuel + 4)
      ((9 : Nat) : Int) s₃ = .ok (s₃.read 9) := by
    rw [printfLoop, if_pos (by decide)]
    rfl
  refine ⟨s₃.read 9, ((h₁.trans h₂).trans h₃).trans hend, ?_⟩
  show s₃.out = report lines words chars
  rw [hout₃, hout₂, hout₁]
  simp only [report, List.nil_append, List.append_assoc]

/-- **`wc` does not depend on how its input is cut.** -/
theorem wc_reports (text : List UInt8) (hlen : text.length < 2 ^ 31) (parts : List (List UInt8))
    (hparts : ∀ part ∈ parts, part ≠ [] ∧ part.length ≤ 1023) (htext : parts.flatten = text)
    (buffer : Memory) (hfuel : wcFormat.length < fuel) :
    wcMain fuel buffer parts =
      .ok (0, report (text.count newline) (words text).length text.length) := by
  have hwords : (words text).length ≤ text.length := length_pieces_le text
  have hcount : text.count newline ≤ text.length := List.count_le_length
  obtain ⟨r, hr, hout⟩ := printf_report (text.count newline) (words text).length text.length
    (by omega) (by omega) hlen (text.foldl wcStep {}).inWord hfuel
  unfold wcMain
  rw [wcLoop_eq hparts, htext, Outcome.ok_bind, wcLast_foldl hlen, hr, Outcome.ok_bind, hout]

/-- `"ab c\n"`, with the first read ending inside a word. -/
theorem wc_reports_abc :
    wcMain 10 (fun _ => 0) [[97], [98, 32], [99, 10]] = .ok (0, [49, 32, 50, 32, 53, 10]) := by
  have hparts : ∀ part ∈ ([[97], [98, 32], [99, 10]] : List (List UInt8)),
      part ≠ [] ∧ part.length ≤ 1023 := by decide
  have hwords : (words [97, 98, 32, 99, 10]).length = 2 := by decide
  rw [wc_reports [97, 98, 32, 99, 10] (by decide) [[97], [98, 32], [99, 10]] hparts rfl
    (fun _ => 0) (by decide), hwords]
  decide

end TpeSo.Userland
