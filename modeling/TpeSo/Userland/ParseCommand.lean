import TpeSo.Userland.Strings

namespace TpeSo.Userland

open Lib

/-!
# `core/shell.c` — the tokens of a line

`parse_command` cuts the line in place and copies its tokens into a `parsed_input_t`.

* `parseCommand` — the function, with the places at which it stores;
* `tokens` — the runs between spaces of the trimmed line;
* `endToken_spec`, `parseParams_spec` — one token, and the loop over the parameters;
* `parseCommand_tokens` — **what a line is parsed to**, and that no store is outside the line
  and the structure.
-/

def maxParams : Nat := 10
def maxParamLen : Nat := 32
def maxCmdLen : Nat := 32

/-- `parsed_input_t`. -/
structure ParsedInput where
  cmd : Memory
  paramCount : Nat
  params : Nat → Memory

/-- Where something is stored. -/
inductive Store where
  | line (a : Nat)
  | cmd (i : Nat)
  | paramCount
  | params (k i : Nat)

/-- The memory with the line, the result, and what has been stored. -/
structure Parse where
  mem : Memory
  parsed : ParsedInput
  stores : List Store := []

/-- The end of a token is looked for, and cut off from what follows; the pointer returned is
    behind it. -/
def endToken (fuel input : Nat) (s : Parse) : Outcome (Nat × Parse) := do
  let input ← skipWhile (fun c => c ≠ space ∧ c ≠ 0) s.mem fuel input
  if s.mem input ≠ 0 then
    .ok (input + 1, { s with
      mem := Function.update s.mem input 0
      stores := s.stores ++ [.line input] })
  else .ok (input, s)

/-- A token is copied into a field, which is closed. -/
def copyToken (mem dest : Memory) (tokenStart : Nat) : Memory × List Nat :=
  let r := strNcpy mem dest tokenStart (maxParamLen - 1)
  (Function.update r.1 (maxParamLen - 1) 0, r.2 ++ [maxParamLen - 1])

def Parse.copyCmd (s : Parse) (tokenStart : Nat) : Parse :=
  let r := copyToken s.mem s.parsed.cmd tokenStart
  { s with
    parsed := { s.parsed with cmd := r.1 }
    stores := s.stores ++ r.2.map .cmd }

def Parse.copyParam (s : Parse) (tokenStart : Nat) : Parse :=
  let k := s.parsed.paramCount
  let r := copyToken s.mem (s.parsed.params k) tokenStart
  { s with
    parsed := { s.parsed with
      params := Function.update s.parsed.params k r.1
      paramCount := k + 1 }
    stores := s.stores ++ (r.2.map (.params k) ++ [.paramCount]) }

/-- The loop over the parameters. -/
def parseParams (fuel : Nat) : Nat → Nat → Parse → Outcome Parse
  | 0, _, _ => .hang
  | rounds + 1, input, s =>
    if s.mem input ≠ 0 ∧ s.parsed.paramCount < maxParams then do
      let input ← skipWhile (fun c => c = space) s.mem fuel input
      if s.mem input = 0 then .ok s
      else do
        let r ← endToken fuel input s
        parseParams fuel rounds r.1 (r.2.copyParam input)
    else .ok s

/-- `parse_command`. -/
def parseCommand (fuel input : Nat) (s : Parse) : Outcome Parse := do
  let s : Parse := { s with
    parsed := { s.parsed with paramCount := 0, cmd := Function.update s.parsed.cmd 0 0 }
    stores := s.stores ++ [.paramCount, .cmd 0] }
  let t ← trim fuel s.mem input
  let s : Parse := { s with mem := t.mem, stores := s.stores ++ [.line t.stored] }
  if s.mem t.str = 0 then .ok s
  else do
    let r ← endToken fuel t.str s
    parseParams fuel fuel r.1 (r.2.copyCmd t.str)

/-! ### Tokens -/

def isSpace (c : UInt8) : Bool := c = space

/-- The tokens of a line. -/
def tokens (line : List UInt8) : List (List UInt8) := pieces isSpace (trimmed isBlank line)

variable {s s' : Parse} {l : List UInt8} {lo hi str fuel : Nat} {mem dest : Memory}

/-- Inside the line, and inside a field. -/
def Store.Inside (lo hi : Nat) : Store → Prop
  | .line a => lo ≤ a ∧ a ≤ hi
  | .cmd i => i < maxCmdLen
  | .paramCount => True
  | .params k i => k < maxParams ∧ i < maxParamLen

/-- What has been stored since `s` is inside. -/
def Stores (lo hi : Nat) (s s' : Parse) : Prop :=
  ∃ as, s'.stores = s.stores ++ as ∧ ∀ a ∈ as, Store.Inside lo hi a

theorem Stores.refl (lo hi : Nat) (s : Parse) : Stores lo hi s s :=
  ⟨[], (List.append_nil _).symm, fun _ ha => nomatch ha⟩

theorem Stores.trans {s'' : Parse} (h : Stores lo hi s s') (h' : Stores lo hi s' s'') :
    Stores lo hi s s'' := by
  obtain ⟨as, he, has⟩ := h
  obtain ⟨as', he', has'⟩ := h'
  refine ⟨as ++ as', by rw [he', he, List.append_assoc], fun a ha => ?_⟩
  rcases List.mem_append.mp ha with ha | ha
  · exact has a ha
  · exact has' a ha

/-- On the characters of a string the test for the end of a token is that for a space. -/
theorem tokenTest_congr (hl : 0 ∉ l) :
    l.takeWhile (fun c => decide (c ≠ space ∧ c ≠ 0)) = l.takeWhile (fun c => !isSpace c) := by
  induction l with
  | nil => rfl
  | cons c l ih =>
    have hc : c ≠ 0 := fun h => hl (h ▸ List.mem_cons_self)
    have htest : decide (c ≠ space ∧ c ≠ 0) = !isSpace c := by
      unfold isSpace
      rw [← decide_not]
      exact decide_eq_decide.mpr (and_iff_left hc)
    rw [List.takeWhile_cons, List.takeWhile_cons, htest, ih fun h => hl (List.mem_cons_of_mem _ h)]

/-- **The end of a token**: the token is a string of its own, and so is what follows. -/
theorem endToken_spec (lo hi : Nat) (hs : IsString s.mem str l) (hfuel : l.length < fuel)
    (hlo : lo ≤ str) (hhi : str + l.length ≤ hi) : ∃ q s', endToken fuel str s = .ok (q, s') ∧
      IsString s'.mem str (l.takeWhile fun c => !isSpace c) ∧
      IsString s'.mem q (l.dropWhile fun c => !isSpace c).tail ∧
      (str ≤ q ∧ q + (l.dropWhile fun c => !isSpace c).tail.length ≤ str + l.length) ∧
      s'.parsed = s.parsed ∧ Stores lo hi s s' := by
  have happ := List.takeWhile_append_dropWhile (p := fun c => !isSpace c) (l := l)
  have hsum := congrArg List.length happ
  rw [List.length_append] at hsum
  have hscan := skipWhile_eq (p := fun c => decide (c ≠ space ∧ c ≠ 0)) (by decide) hs hfuel
  rw [tokenTest_congr hs.2] at hscan
  unfold endToken
  rw [hscan, Outcome.ok_bind]
  generalize l.takeWhile (fun c => !isSpace c) = w at *
  rw [← happ] at hs
  have hrest := hs.of_append
  cases hd : l.dropWhile fun c => !isSpace c with
  | nil =>
    -- the token ends with the line, and nothing is stored
    rw [hd] at hrest hs hsum
    rw [List.append_nil] at hs
    rw [List.length_nil] at hsum
    have hnul : s.mem (str + w.length) = 0 := hrest.nul
    rw [if_neg (not_not.mpr hnul)]
    refine ⟨_, _, rfl, hs, hrest, ?_, rfl, Stores.refl lo hi s⟩
    show str ≤ str + w.length ∧ str + w.length + 0 ≤ str + l.length
    omega
  | cons c rest =>
    -- the space behind the token becomes its `NUL`
    rw [hd] at hrest hs hsum
    rw [List.length_cons] at hsum
    obtain ⟨hc, hne, hnext⟩ := hrest.head
    rw [if_pos (by rw [hc]; exact hne)]
    refine ⟨_, _, rfl, hs.cut, hnext.update (.inl (Nat.lt_succ_self _)), ?_, rfl,
      [.line (str + w.length)], rfl, fun a ha => ?_⟩
    · show str ≤ str + w.length + 1 ∧ str + w.length + 1 + rest.length ≤ str + l.length
      omega
    · rw [List.mem_singleton.mp ha]
      show lo ≤ str + w.length ∧ str + w.length ≤ hi
      omega

/-- **A copied token** is cut off to fit the field. -/
theorem copyToken_spec (hs : IsString mem str l) (dest : Memory) :
    IsString (copyToken mem dest str).1 0 (l.take (maxParamLen - 1)) ∧
    ∀ i ∈ (copyToken mem dest str).2, i < maxParamLen := by
  obtain ⟨hcopy, hin⟩ := strNcpy_isString hs dest (maxParamLen - 1)
  have hlen : (l.take (maxParamLen - 1)).length ≤ maxParamLen - 1 := List.length_take_le _ _
  constructor
  · rcases Nat.lt_or_eq_of_le hlen with hlt | heq
    · exact hcopy.update (.inr (by rw [Nat.zero_add]; exact hlt))
    · -- the field is full, and closed already
      have hcut := IsString.cut (t := []) (by rw [List.append_nil]; exact hcopy)
      rw [Nat.zero_add, heq] at hcut
      exact hcut
  · intro i hi
    rcases List.mem_append.mp hi with hi | hi
    · exact Nat.lt_of_le_of_lt (hin i hi) (by decide)
    · rw [List.mem_singleton.mp hi]
      decide

/-- A parameter is copied into the next field. -/
theorem copyParam_spec (lo hi : Nat) (hs : IsString s.mem str l)
    (hcount : s.parsed.paramCount < maxParams) :
    IsString ((s.copyParam str).parsed.params s.parsed.paramCount) 0 (l.take (maxParamLen - 1)) ∧
    (∀ k < s.parsed.paramCount, (s.copyParam str).parsed.params k = s.parsed.params k) ∧
    Stores lo hi s (s.copyParam str) := by
  obtain ⟨hcopy, hin⟩ := copyToken_spec hs (s.parsed.params s.parsed.paramCount)
  refine ⟨?_, fun k hk => Function.update_of_ne (Nat.ne_of_lt hk) _ _, _, rfl, fun a ha => ?_⟩
  · have hfield : (s.copyParam str).parsed.params s.parsed.paramCount =
        (copyToken s.mem (s.parsed.params s.parsed.paramCount) str).1 := Function.update_self _ _ _
    rw [hfield]
    exact hcopy
  · rcases List.mem_append.mp ha with ha | ha
    · obtain ⟨i, hi', rfl⟩ := List.mem_map.mp ha
      exact ⟨hcount, hin i hi'⟩
    · rw [List.mem_singleton.mp ha]
      trivial

/-- From `s` to `s'` the tokens `ws` have been copied into the next fields, as long as there is
    room. -/
structure Copies (lo hi : Nat) (s s' : Parse) (ws : List (List UInt8)) : Prop where
  stores : Stores lo hi s s'
  cmd : s'.parsed.cmd = s.parsed.cmd
  paramCount : s'.parsed.paramCount = min maxParams (s.parsed.paramCount + ws.length)
  old : ∀ k < s.parsed.paramCount, s'.parsed.params k = s.parsed.params k
  new : ∀ k, s.parsed.paramCount ≤ k → k < s'.parsed.paramCount →
    IsString (s'.parsed.params k) 0
      ((ws.getD (k - s.parsed.paramCount) []).take (maxParamLen - 1))

/-- There is no token left, or no room. -/
theorem Copies.stay {ws : List (List UInt8)}
    (h : min maxParams (s.parsed.paramCount + ws.length) = s.parsed.paramCount) :
    Copies lo hi s s ws :=
  ⟨.refl lo hi s, rfl, h.symm, fun _ _ => rfl,
    fun _ hle hlt => absurd hlt (Nat.not_lt_of_le hle)⟩

/-- What is stored in the line before does not matter to the fields. -/
theorem Copies.after {s₁ : Parse} {ws : List (List UInt8)} (hst : Stores lo hi s s₁)
    (hparsed : s₁.parsed = s.parsed) (h : Copies lo hi s₁ s' ws) : Copies lo hi s s' ws := by
  refine ⟨hst.trans h.stores, ?_, ?_, ?_, ?_⟩ <;> rw [← hparsed]
  · exact h.cmd
  · exact h.paramCount
  · exact h.old
  · exact h.new

/-- One token, and then the others. -/
theorem Copies.cons {w : List UInt8} {ws : List (List UInt8)} (hs : IsString s.mem str w)
    (hcount : s.parsed.paramCount < maxParams) (h : Copies lo hi (s.copyParam str) s' ws) :
    Copies lo hi s s' (w :: ws) := by
  obtain ⟨hcopy, hkeep, hst⟩ := copyParam_spec lo hi hs hcount
  have hsucc : (s.copyParam str).parsed.paramCount = s.parsed.paramCount + 1 := rfl
  obtain ⟨hst', hcmd, hnum, hold, hnew⟩ := h
  rw [hsucc] at hnum hold hnew
  refine ⟨hst.trans hst', hcmd, ?_, fun k hk => ?_, fun k hle hlt => ?_⟩
  · rw [hnum, List.length_cons, Nat.add_right_comm, Nat.add_assoc]
  · rw [hold k (Nat.lt_succ_of_lt hk)]
    exact hkeep k hk
  · rcases Nat.eq_or_lt_of_le hle with rfl | hlt'
    · rw [Nat.sub_self, List.getD_cons_zero, hold _ (Nat.lt_succ_self _)]
      exact hcopy
    · have hk := hnew k hlt' hlt
      rw [show k - s.parsed.paramCount = k - (s.parsed.paramCount + 1) + 1 by omega,
        List.getD_cons_succ]
      exact hk

/-- What is left after a token is shorter. -/
theorem rest_lt (c : UInt8) (t : List UInt8) :
    ((c :: t).dropWhile fun c => !isSpace c).tail.length < (c :: t).length := by
  have hle := (List.dropWhile_sublist (l := c :: t) fun c => !isSpace c).length_le
  rw [List.length_tail]
  rw [List.length_cons] at hle ⊢
  omega

/-- **The loop over the parameters** copies the tokens that are left, as long as there is
    room. -/
theorem parseParams_spec (lo hi rounds : Nat) : ∀ {s : Parse} {l : List UInt8} {input : Nat},
    IsString s.mem input l → l.length < rounds → l.length < fuel → lo ≤ input →
    input + l.length ≤ hi → s.parsed.paramCount ≤ maxParams →
    ∃ s', parseParams fuel rounds input s = .ok s' ∧ Copies lo hi s s' (pieces isSpace l) := by
  induction rounds with
  | zero => exact fun _ hr => absurd hr (Nat.not_lt_zero _)
  | succ rounds ih =>
    intro s l input hs hrounds hfuel hlo hhi hcount
    rw [parseParams]
    by_cases hgo : s.mem input ≠ 0 ∧ s.parsed.paramCount < maxParams
    · rw [if_pos hgo]
      have happ := List.takeWhile_append_dropWhile (p := isSpace) (l := l)
      have hsum := congrArg List.length happ
      rw [List.length_append] at hsum
      have hskip : skipWhile (fun c => c = space) s.mem fuel input =
          .ok (input + (l.takeWhile isSpace).length) :=
        skipWhile_eq (p := isSpace) (by decide) hs hfuel
      rw [hskip, Outcome.ok_bind]
      -- what is left begins behind the separators, and has the same pieces
      rw [← happ] at hs
      have hrest := hs.of_append
      generalize hstart : input + (l.takeWhile isSpace).length = start at *
      have hwords := pieces_dropWhile (p := isSpace) l
      rw [← hwords]
      cases hd : l.dropWhile isSpace with
      | nil =>
        rw [hd] at hrest
        -- only separators were left
        have hnul : s.mem start = 0 := hrest.nul
        rw [if_pos hnul, pieces_nil]
        exact ⟨s, rfl, .stay (Nat.min_eq_right hcount)⟩
      | cons c t =>
        have hc : isSpace c = false := not_of_dropWhile_eq_cons hd
        rw [hd] at hrest hsum
        obtain ⟨hmem, hne, -⟩ := hrest.head
        rw [if_neg (by rw [hmem]; exact hne)]
        obtain ⟨q, s₁, hok, htoken, hnext, ⟨hq, hqlen⟩, hparsed, hst⟩ :=
          endToken_spec (s := s) lo hi hrest (show (c :: t).length < fuel by omega) (by omega)
            (by omega)
        rw [pieces_eq_cons hc, hok, Outcome.ok_bind]
        have hcount₁ : s₁.parsed.paramCount < maxParams := by
          rw [hparsed]
          exact hgo.2
        have hshort := rest_lt c t
        obtain ⟨s', hdone, hcopies⟩ := ih (s := s₁.copyParam start) hnext (by omega) (by omega)
          (by omega) (by omega) hcount₁
        exact ⟨s', hdone, (hcopies.cons htoken hcount₁).after hst hparsed⟩
    · rw [if_neg hgo]
      refine ⟨s, rfl, .stay ?_⟩
      by_cases hfull : s.parsed.paramCount < maxParams
      · -- the line is at its end
        have hnul : s.mem input = 0 := by
          by_contra hne
          exact hgo ⟨hne, hfull⟩
        cases l with
        | nil =>
          rw [pieces_nil]
          exact Nat.min_eq_right hcount
        | cons c l =>
          obtain ⟨hc, hne, -⟩ := hs.head
          exact absurd (hc.symm.trans hnul) hne
      · omega

/-- The first character of a string in a field. -/
theorem IsString.first_ne_zero {c : UInt8} (h : IsString mem 0 (c :: l)) : mem 0 ≠ 0 := by
  obtain ⟨hc, hne, -⟩ := h.head
  rw [hc]
  exact hne

/-- The command is copied into its field. -/
theorem copyCmd_spec (lo hi : Nat) (hs : IsString s.mem str l) :
    IsString (s.copyCmd str).parsed.cmd 0 (l.take (maxCmdLen - 1)) ∧
    Stores lo hi s (s.copyCmd str) := by
  obtain ⟨hcopy, hin⟩ := copyToken_spec hs s.parsed.cmd
  refine ⟨hcopy, _, rfl, fun a ha => ?_⟩
  obtain ⟨i, hi', rfl⟩ := List.mem_map.mp ha
  exact hin i hi'

/-- The command and the parameters of a line that begins with a token. -/
theorem parseTokens_spec (lo hi : Nat) {c : UInt8} (hs : IsString s.mem str (c :: l))
    (hc : isSpace c = false) (hcount : s.parsed.paramCount = 0) (hfuel : (c :: l).length < fuel)
    (hlo : lo ≤ str) (hhi : str + (c :: l).length ≤ hi) : ∃ r,
      (endToken fuel str s >>= fun r => parseParams fuel fuel r.1 (r.2.copyCmd str)) = .ok r ∧
      Stores lo hi s r ∧
      IsString r.parsed.cmd 0 (((pieces isSpace (c :: l)).headD []).take (maxCmdLen - 1)) ∧
      r.parsed.paramCount = min maxParams (pieces isSpace (c :: l)).tail.length ∧
      (∀ k < r.parsed.paramCount, IsString (r.parsed.params k) 0
        (((pieces isSpace (c :: l)).tail.getD k []).take (maxParamLen - 1))) ∧
      r.parsed.cmd 0 ≠ 0 := by
  obtain ⟨q, s₁, hok, htoken, hnext, ⟨hq, hqlen⟩, hs₁, hst⟩ := endToken_spec lo hi hs hfuel hlo hhi
  obtain ⟨hcopy, hst'⟩ := copyCmd_spec lo hi htoken
  have hcount₁ : (s₁.copyCmd str).parsed.paramCount = 0 := by
    show s₁.parsed.paramCount = 0
    rw [hs₁, hcount]
  obtain ⟨r, hdone, hst'', hcmd, hnum, -, hparams⟩ :=
    parseParams_spec lo hi fuel (s := s₁.copyCmd str) hnext (by omega)
      (show _ < fuel by omega) (by omega) (by omega) (by rw [hcount₁]; exact Nat.zero_le _)
  rw [hcount₁, Nat.zero_add] at hnum
  rw [hcount₁] at hparams
  rw [← hcmd] at hcopy
  rw [hok, Outcome.ok_bind, pieces_eq_cons hc, List.headD_cons, List.tail_cons]
  refine ⟨r, hdone, (hst.trans hst').trans hst'', hcopy, hnum,
    fun k hk => hparams k (Nat.zero_le k) hk, ?_⟩
  rw [List.takeWhile_cons_of_pos (by simp [hc]), show maxCmdLen - 1 = 30 + 1 from rfl,
    List.take_succ_cons] at hcopy
  exact hcopy.first_ne_zero

/-- **What a line is parsed to.**  The first token is the command, the next ones, ten at most,
    are the parameters; each is cut to fit its field.  Nothing is stored outside the line and
    the fields. -/
theorem parseCommand_tokens {line : List UInt8} {input : Nat} (hline : IsString mem input line)
    (hlen : line.length < 2 ^ 31) (hfuel : line.length < fuel) (parsed : ParsedInput) :
    ∃ r, parseCommand fuel input ⟨mem, parsed, []⟩ = .ok r ∧
      IsString r.parsed.cmd 0 (((tokens line).headD []).take (maxCmdLen - 1)) ∧
      r.parsed.paramCount = min maxParams (tokens line).tail.length ∧
      (∀ k < r.parsed.paramCount,
        IsString (r.parsed.params k) 0 (((tokens line).tail.getD k []).take (maxParamLen - 1))) ∧
      (r.parsed.cmd 0 = 0 ∧ r.parsed.paramCount = 0 ↔ ∀ c ∈ line, isBlank c = true) ∧
      ∀ a ∈ r.stores, a.Inside input (input + line.length) := by
  obtain ⟨t, htrim, ht, ⟨hlo, hhi⟩, hstored⟩ := trim_eq hline hfuel hlen
  -- what is stored before the first token
  have hfirst : ∀ a ∈ [Store.paramCount, .cmd 0, .line t.stored],
      a.Inside input (input + line.length) := by
    intro a ha
    simp only [List.mem_cons, List.not_mem_nil, or_false] at ha
    obtain rfl | rfl | rfl := ha
    · trivial
    · exact (by decide : 0 < maxCmdLen)
    · exact hstored
  unfold parseCommand
  dsimp only
  rw [htrim, Outcome.ok_bind, ← trimmed_eq_nil_iff (p := isBlank)]
  unfold tokens
  cases hl : trimmed isBlank line with
  | nil =>
    rw [hl] at ht
    have hnul : t.mem t.str = 0 := ht.nul
    have hempty : Function.update parsed.cmd 0 0 0 = 0 := Function.update_self _ _ _
    rw [if_pos hnul, pieces_nil]
    exact ⟨_, rfl, ⟨⟨hempty, trivial⟩, nofun⟩, rfl, fun k hk => absurd hk (Nat.not_lt_zero k),
      ⟨fun _ => rfl, fun _ => ⟨hempty, rfl⟩⟩, hfirst⟩
  | cons c l =>
    rw [hl] at ht hhi
    have hc : isSpace c = false := by
      have hblank := trimmed_head hl
      unfold isBlank at hblank
      exact decide_eq_false fun h => of_decide_eq_false hblank (.inl h)
    obtain ⟨hmem, hne, -⟩ := ht.head
    rw [if_neg (by rw [hmem]; exact hne)]
    obtain ⟨r, hdone, ⟨as, he, has⟩, hcmd, hnum, hparams, hfull⟩ := parseTokens_spec
      (s := ⟨t.mem, { parsed with cmd := Function.update parsed.cmd 0 0, paramCount := 0 },
        [.paramCount, .cmd 0, .line t.stored]⟩)
      input (input + line.length) ht hc rfl (show _ < fuel by omega) hlo (by omega)
    refine ⟨r, hdone, hcmd, hnum, hparams, ⟨fun h => absurd h.1 hfull, nofun⟩, fun a ha => ?_⟩
    rw [he] at ha
    rcases List.mem_append.mp ha with ha | ha
    · exact hfirst a ha
    · exact has a ha

/-- `" ls  a "` at address 5. -/
def sampleLine : List UInt8 := [32, 108, 115, 32, 32, 97, 32]

theorem parseCommand_tokens_sample : ∃ r, parseCommand 8 5
      ⟨fun a => sampleLine.getD (a - 5) 0, ⟨fun _ => 1, 7, fun _ _ => 1⟩, []⟩ = .ok r ∧
    IsString r.parsed.cmd 0 (((tokens sampleLine).headD []).take (maxCmdLen - 1)) ∧
    r.parsed.paramCount = min maxParams (tokens sampleLine).tail.length ∧
    (∀ k < r.parsed.paramCount, IsString (r.parsed.params k) 0
      (((tokens sampleLine).tail.getD k []).take (maxParamLen - 1))) ∧
    (r.parsed.cmd 0 = 0 ∧ r.parsed.paramCount = 0 ↔ ∀ c ∈ sampleLine, isBlank c = true) ∧
    ∀ a ∈ r.stores, a.Inside 5 (5 + sampleLine.length) :=
  parseCommand_tokens ⟨by decide, by decide⟩ (by decide) (by decide) _

end TpeSo.Userland
