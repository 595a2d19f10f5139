import TpeSo.Userland.Decimal

namespace TpeSo.Userland

open Lib

/-!
# `lib/stdLibrary.c` — `printf`

`printf` walks over its format with an index that is moved on in many places.  The indices at
which the format is read are kept, beside what is printed.

* `printf` — the function;
* `Mode`, `Complete` — a format that does not end within a directive or an escape;
* `directive_spec` — **a directive** ends at a character of the format or, if there is none, at
  the `NUL`;
* `printfLoop_inside`, `printfLoop_outside` — the loop over a complete format, and over one that
  is not: there the `++` of its header steps over the `NUL`;
* `stopsAtNul_iff` — the formats that are read up to the `NUL` and no further.
-/

def percent : UInt8 := 37
def backslash : UInt8 := 92

/-- An argument as the directives take it: the 64 bits that `va_arg` finds and, when they are
    the address of a string, that string. -/
structure Arg where
  bits : BitVec 64
  str : List UInt8

/-- Where the format has been read, what has been printed, and the arguments taken. -/
structure Printf where
  reads : List Int := []
  out : List UInt8 := []
  taken : Nat := 0

namespace Printf

/-- `str[i]` is read. -/
def read (s : Printf) (i : Int) : Printf := { s with reads := s.reads ++ [i] }

/-- `put_char`, or `put_str`. -/
def put (s : Printf) (text : List UInt8) : Printf := { s with out := s.out ++ text }

/-- `va_arg` has been used. -/
def take (s : Printf) : Printf := { s with taken := s.taken + 1 }

end Printf

/-- `i++`. -/
def inc (i : Int) : Int := int32 (i + 1)

/-- A text with spaces in front or behind, up to the width; `len` is what counts as its
    length. -/
def padded (leftAlign : Bool) (width len : Int) (text : List UInt8) : List UInt8 :=
  let spaces := if width > len then List.replicate (width - len).toNat space else []
  if leftAlign then text ++ spaces else spaces ++ text

/-- The string in `char buffer[64]`. -/
def bufferText (buffer : Memory) : List UInt8 :=
  ((List.range 64).map buffer).takeWhile (· ≠ 0)

/-- A number that has been converted into `buffer`. -/
def putNumber (leftAlign : Bool) (width : Int) (r : Nat × Memory) (s : Printf) : Printf :=
  (s.take).put (padded leftAlign width r.1 (bufferText r.2))

/-- The `switch` on the last character of a directive. -/
def convert (args : Nat → Arg) (leftAlign : Bool) (width : Int) (c : UInt8) (s : Printf) : Printf :=
  let arg := args s.taken
  let buffer : Memory := fun _ => 0
  if c = 100 then putNumber leftAlign width (itoa (arg.bits.truncate 32).toInt buffer) s
  else if c = 117 then putNumber leftAlign width (utoa arg.bits.toNat buffer) s
  else if c = 120 then putNumber leftAlign width (xtoa arg.bits.toNat buffer) s
  else if c = 115 then (s.take).put (padded leftAlign width arg.str.length arg.str)
  else if c = 99 then (s.take).put [UInt8.ofNat arg.bits.toNat]
  else s.put [percent, c]

/-- The `switch` behind a backslash. -/
def putEscape (c : UInt8) (s : Printf) : Printf :=
  if c = 110 then s.put [newline]
  else if c = 116 then s.put [tab]
  else s.put [backslash, c]

/-- The loop over the digits of a width: where it ends, and the width. -/
def widthLoop (str : Int → UInt8) : Nat → Int → Int → Printf → Outcome ((Int × Int) × Printf)
  | 0, _, _, _ => .hang
  | fuel + 1, i, width, s =>
    let s := s.read i
    if isDigit (str i) then widthLoop str fuel (inc i) (readDigit width (str i)) s
    else .ok ((i, width), s)

/-- What follows a `%`, from index `i` on; and where it ends. -/
def directive (str : Int → UInt8) (args : Nat → Arg) (fuel : Nat) (i : Int) (s : Printf) :
    Outcome (Int × Printf) := do
  let s := s.read i
  let leftAlign : Bool := str i = minus
  let i := if leftAlign then inc i else i
  let r ← widthLoop str fuel i 0 s
  let i := r.1.1
  .ok (i, convert args leftAlign r.1.2 (str i) (r.2.read i))

/-- The loop of `printf`. -/
def printfLoop (str : Int → UInt8) (args : Nat → Arg) (fuel : Nat) :
    Nat → Int → Printf → Outcome Printf
  | 0, _, _ => .hang
  | rounds + 1, i, s =>
    let s := s.read i
    if str i = 0 then .ok s
    else if str i = percent then do
      let r ← directive str args fuel (inc i) s
      printfLoop str args fuel rounds (inc r.1) r.2
    else if str i = backslash then
      let i := inc i
      printfLoop str args fuel rounds (inc i) (putEscape (str i) (s.read i))
    else printfLoop str args fuel rounds (inc i) (s.put [str i])

/-- `printf`. -/
def printf (fuel : Nat) (str : Int → UInt8) (args : Nat → Arg) : Outcome Printf :=
  printfLoop str args fuel fuel 0 {}

/-! ### Formats -/

/-- Where in a format one is. -/
inductive Mode where
  | text
  /-- Behind a `%`. -/
  | flags
  /-- Behind the `-` or a digit of a width. -/
  | width
  /-- Behind a backslash. -/
  | escape
  deriving DecidableEq

def Mode.next : Mode → UInt8 → Mode
  | .text, c => if c = percent then .flags else if c = backslash then .escape else .text
  | .flags, c => if c = minus ∨ isDigit c then .width else .text
  | .width, c => if isDigit c then .width else .text
  | .escape, _ => .text

/-- The mode at the end of a format. -/
def Mode.after (m : Mode) (l : List UInt8) : Mode := l.foldl Mode.next m

/-- The format does not end within a directive or an escape. -/
def Complete (fmt : List UInt8) : Prop := Mode.text.after fmt = .text

instance (fmt : List UInt8) : Decidable (Complete fmt) := inferInstanceAs (Decidable (_ = _))

example : Complete [37, 45, 53, 100, 92, 110] ∧ ¬ Complete [97, 37, 45, 53] := by decide

/-- Behind the digits of a width. -/
theorem Mode.after_width (l : List UInt8) : Mode.width.after l =
    match l.dropWhile isDigit with
    | [] => .width
    | _ :: t => Mode.text.after t := by
  induction l with
  | nil => rfl
  | cons c l ih =>
    show (Mode.next .width c).after l = _
    cases hc : isDigit c with
    | true =>
      rw [List.dropWhile_cons_of_pos hc, show Mode.next .width c = .width from if_pos hc]
      exact ih
    | false =>
      rw [List.dropWhile_cons_of_neg (by simp [hc]),
        show Mode.next .width c = .text from if_neg (by simp [hc])]

/-- Without a `-` the flags are the beginning of the width. -/
theorem Mode.after_flags {c : UInt8} (hc : c ≠ minus) (l : List UInt8) :
    Mode.flags.after (c :: l) = Mode.width.after (c :: l) := by
  show (Mode.next .flags c).after l = (Mode.next .width c).after l
  have hnext : Mode.next .flags c = Mode.next .width c := by
    unfold Mode.next
    exact if_congr (or_iff_right hc) rfl rfl
  rw [hnext]

/-! ### What is read -/

variable {str : Int → UInt8} {args : Nat → Arg} {s s' : Printf} {l : List UInt8} {k N fuel : Nat}

/-- What has been read since `s` is no further than index `N`. -/
def Reads (N : Nat) (s s' : Printf) : Prop :=
  ∃ rs, s'.reads = s.reads ++ rs ∧ ∀ i ∈ rs, 0 ≤ i ∧ i ≤ (N : Int)

theorem Reads.trans {s'' : Printf} (h : Reads N s s') (h' : Reads N s' s'') : Reads N s s'' := by
  obtain ⟨rs, he, hrs⟩ := h
  obtain ⟨rs', he', hrs'⟩ := h'
  refine ⟨rs ++ rs', by rw [he', he, List.append_assoc], fun i hi => ?_⟩
  rcases List.mem_append.mp hi with hi | hi
  · exact hrs i hi
  · exact hrs' i hi

theorem Reads.read (s : Printf) (hk : k ≤ N) : Reads N s (s.read k) := by
  refine ⟨[(k : Int)], rfl, fun i hi => ?_⟩
  rw [List.mem_singleton.mp hi]
  omega

/-- Printing reads nothing. -/
@[simp] theorem convert_reads (args : Nat → Arg) (leftAlign : Bool) (width : Int) (c : UInt8)
    (s : Printf) : (convert args leftAlign width c s).reads = s.reads := by
  unfold convert
  dsimp only
  repeat' split
  all_goals rfl

@[simp] theorem putEscape_reads (c : UInt8) (s : Printf) : (putEscape c s).reads = s.reads := by
  unfold putEscape
  split
  · rfl
  · split <;> rfl

theorem Reads.of_reads {t : Printf} (h : Reads N s s') (ht : t.reads = s'.reads) : Reads N s t := by
  obtain ⟨rs, he, hrs⟩ := h
  exact ⟨rs, ht.trans he, hrs⟩

/-- The characters `l` and the `NUL` stand in the format from index `k` on. -/
def IsFormat (str : Int → UInt8) (k : Nat) (l : List UInt8) : Prop :=
  IsString (fun i : Nat => str i) k l

theorem IsFormat.nul (h : IsFormat str k []) : str k = 0 := IsString.nul h

theorem IsFormat.head {c : UInt8} (h : IsFormat str k (c :: l)) :
    str k = c ∧ c ≠ 0 ∧ IsFormat str (k + 1) l := IsString.head h

theorem inc_eq (hk : k + 1 < 2 ^ 31) : inc (k : Int) = ((k + 1 : Nat) : Int) :=
  int32_eq (by omega) (by omega)

/-- **The digits of a width** end at the first other character. -/
theorem widthLoop_spec (hN : N + 1 < 2 ^ 31) {l : List UInt8} : ∀ (fuel : Nat) (width : Int)
    (s : Printf) {k : Nat}, IsFormat str k l → k + l.length ≤ N →
    (∀ r, widthLoop str fuel k width s = .ok r →
      r.1.1 = (k + (l.takeWhile isDigit).length : Nat) ∧ Reads N s r.2) ∧
    (l.length < fuel → ∃ r, widthLoop str fuel k width s = .ok r) := by
  induction l with
  | nil =>
    intro fuel width s k hs hk
    cases fuel with
    | zero => exact ⟨(fun r hr => nomatch hr), fun hf => absurd hf (Nat.not_lt_zero _)⟩
    | succ fuel =>
      rw [widthLoop, hs.nul, if_neg (by decide)]
      refine ⟨fun r hr => ?_, fun _ => ⟨_, rfl⟩⟩
      rw [← Outcome.ok.inj hr]
      exact ⟨rfl, Reads.read s hk⟩
  | cons c l ih =>
    intro fuel width s k hs hk
    obtain ⟨hc, -, hs'⟩ := hs.head
    rw [List.length_cons] at hk
    cases fuel with
    | zero => exact ⟨(fun r hr => nomatch hr), fun hf => absurd hf (Nat.not_lt_zero _)⟩
    | succ fuel =>
      have hread := Reads.read (N := N) s (show k ≤ N by omega)
      rw [widthLoop, hc]
      cases hd : isDigit c with
      | true =>
        rw [if_pos rfl, inc_eq (by omega), List.takeWhile_cons_of_pos hd, List.length_cons,
          List.length_cons]
        obtain ⟨hok, htotal⟩ := ih fuel (readDigit width c) (s.read k) hs' (by omega)
        refine ⟨fun r hr => ?_, fun hf => htotal (by omega)⟩
        obtain ⟨he, hr'⟩ := hok r hr
        refine ⟨?_, hread.trans hr'⟩
        rw [he]
        omega
      | false =>
        rw [if_neg Bool.false_ne_true, List.takeWhile_cons_of_neg (by simp [hd])]
        refine ⟨fun r hr => ?_, fun _ => ⟨_, rfl⟩⟩
        rw [← Outcome.ok.inj hr]
        exact ⟨rfl, hread⟩

/-- Where a directive ends, when `l` follows the `%`: at the `NUL`, or at a character that
    belongs to it. -/
def DirectiveEnd (str : Int → UInt8) (k : Nat) (l : List UInt8) (e : Nat) : Prop :=
  e = k + l.length ∧ Mode.flags.after l ≠ .text ∨
  ∃ c t, IsFormat str e (c :: t) ∧ k ≤ e ∧ e + (c :: t).length = k + l.length ∧
    Mode.flags.after l = Mode.text.after t

/-- Behind the width. -/
theorem width_end (hs : IsFormat str k l) :
    k + (l.takeWhile isDigit).length = k + l.length ∧ Mode.width.after l ≠ .text ∨
    ∃ c t, IsFormat str (k + (l.takeWhile isDigit).length) (c :: t) ∧
      k + (l.takeWhile isDigit).length + (c :: t).length = k + l.length ∧
      Mode.width.after l = Mode.text.after t := by
  have happ := List.takeWhile_append_dropWhile (p := isDigit) (l := l)
  have hsum := congrArg List.length happ
  rw [List.length_append] at hsum
  rw [Mode.after_width]
  unfold IsFormat at hs ⊢
  rw [← happ] at hs
  have hrest := hs.of_append
  cases hd : l.dropWhile isDigit with
  | nil =>
    rw [hd, List.length_nil] at hsum
    exact .inl ⟨by omega, by decide⟩
  | cons c t =>
    rw [hd] at hrest hsum
    exact .inr ⟨c, t, hrest, by omega, rfl⟩

/-- **The directive from its width on**, which begins at index `k'`. -/
theorem fromWidth_spec (hN : N + 1 < 2 ^ 31) (args : Nat → Arg) (fuel : Nat) (s : Printf)
    (leftAlign : Bool) {k' : Nat} {l' : List UInt8} (hs : IsFormat str k' l') (hle : k ≤ k')
    (htotal : k' + l'.length = k + l.length) (hk : k + l.length ≤ N)
    (hmode : Mode.flags.after l ≠ .text ∧ l' = [] ∨ Mode.flags.after l = Mode.width.after l') :
    (∀ r, (widthLoop str fuel k' 0 (s.read k) >>= fun r =>
        .ok (r.1.1, convert args leftAlign r.1.2 (str r.1.1) (r.2.read r.1.1))) = .ok r →
      ∃ e : Nat, r.1 = e ∧ DirectiveEnd str k l e ∧ Reads N s r.2) ∧
    (l.length < fuel → ∃ r, (widthLoop str fuel k' 0 (s.read k) >>= fun r =>
        .ok (r.1.1, convert args leftAlign r.1.2 (str r.1.1) (r.2.read r.1.1))) = .ok r) := by
  have hread := Reads.read (N := N) s (show k ≤ N by omega)
  obtain ⟨hok, hsome⟩ := widthLoop_spec hN fuel 0 (s.read k) hs (by omega)
  constructor
  · intro r hr
    obtain ⟨w, hw, hr⟩ := Outcome.bind_eq_ok.mp hr
    obtain ⟨he, hreads⟩ := hok w hw
    rw [← Outcome.ok.inj hr]
    refine ⟨_, he, ?_, ?_⟩
    · -- the digits end at the `NUL`, or at the character that is converted
      rcases width_end hs with ⟨hend, hnot⟩ | ⟨c, t, hct, hlen, hafter⟩
      · rcases hmode with ⟨hflags, -⟩ | hflags
        · exact .inl ⟨by omega, hflags⟩
        · exact .inl ⟨by omega, by rw [hflags]; exact hnot⟩
      · rcases hmode with ⟨-, rfl⟩ | hflags
        · rw [List.length_cons, List.length_nil] at hlen
          omega
        · exact .inr ⟨c, t, hct, by omega, by omega, hflags.trans hafter⟩
    · have hlast : k' + (l'.takeWhile isDigit).length ≤ N := by
        have hdigits := (List.takeWhile_sublist (l := l') isDigit).length_le
        omega
      refine ((hread.trans hreads).trans (Reads.read w.2 hlast)).of_reads ?_
      rw [← he]
      exact convert_reads _ _ _ _ _
  · intro hf
    obtain ⟨w, hw⟩ := hsome (by omega)
    rw [hw]
    exact ⟨_, rfl⟩

/-- **A directive** ends at a character of the format or at the `NUL`. -/
theorem directive_spec (hN : N + 1 < 2 ^ 31) (args : Nat → Arg) (fuel : Nat) (s : Printf)
    (hs : IsFormat str k l) (hk : k + l.length ≤ N) :
    (∀ r, directive str args fuel k s = .ok r →
      ∃ e : Nat, r.1 = e ∧ DirectiveEnd str k l e ∧ Reads N s r.2) ∧
    (l.length < fuel → ∃ r, directive str args fuel k s = .ok r) := by
  unfold directive
  dsimp only
  cases l with
  | nil =>
    rw [hs.nul, decide_eq_false (by decide), if_neg Bool.false_ne_true]
    exact fromWidth_spec hN args fuel s false hs (le_refl k) rfl hk (.inl ⟨by decide, rfl⟩)
  | cons c t =>
    obtain ⟨hc, -, hs'⟩ := hs.head
    rw [hc]
    have hlen : (c :: t).length = t.length + 1 := List.length_cons
    by_cases hminus : c = minus
    · rw [decide_eq_true hminus, if_pos rfl, inc_eq (by omega)]
      refine fromWidth_spec hN args fuel s true hs' (by omega) (by omega) hk (.inr ?_)
      show (Mode.next .flags c).after t = _
      rw [show Mode.next .flags c = .width from if_pos (.inl hminus)]
    · rw [decide_eq_false hminus, if_neg Bool.false_ne_true]
      exact fromWidth_spec hN args fuel s false hs (le_refl k) rfl hk
        (.inr (Mode.after_flags hminus t))

/-! ### The loop -/

theorem text_after_percent (l : List UInt8) :
    Mode.text.after (percent :: l) = Mode.flags.after l := rfl

theorem text_after_backslash (l : List UInt8) :
    Mode.text.after (backslash :: l) = Mode.escape.after l := rfl

theorem text_after_other {c : UInt8} (hp : c ≠ percent) (hb : c ≠ backslash) (l : List UInt8) :
    Mode.text.after (c :: l) = Mode.text.after l := by
  show (Mode.next .text c).after l = _
  rw [show Mode.next .text c = .text from (if_neg hp).trans (if_neg hb)]

/-- **A complete format** is read up to the `NUL`. -/
theorem printfLoop_inside (hN : N + 1 < 2 ^ 31) (args : Nat → Arg) (rounds : Nat) :
    ∀ {l : List UInt8} {k : Nat} {s : Printf}, IsFormat str k l → k + l.length = N →
    l.length < rounds → l.length < fuel → Mode.text.after l = .text →
    ∃ s', printfLoop str args fuel rounds k s = .ok s' ∧ Reads N s s' ∧
      s'.reads.getLast? = some (N : Int) := by
  induction rounds with
  | zero => exact fun _ _ hr => absurd hr (Nat.not_lt_zero _)
  | succ rounds ih =>
    intro l k s hs hk hrounds hfuel hcomplete
    have hread := Reads.read (N := N) s (show k ≤ N by omega)
    -- the rest of the format, from a state that has not read further
    have hrest : ∀ (t : List UInt8) (k' : Nat) (s₁ : Printf), Reads N s s₁ → IsFormat str k' t →
        k' + t.length = N → t.length < l.length → Mode.text.after t = .text →
        ∃ s', printfLoop str args fuel rounds k' s₁ = .ok s' ∧ Reads N s s' ∧
          s'.reads.getLast? = some (N : Int) := by
      intro t k' s₁ hs₁ ht hk' hlt hcomplete'
      obtain ⟨s', hok, hreads, hlast⟩ := ih ht hk' (by omega) (by omega) hcomplete'
      exact ⟨s', hok, hs₁.trans hreads, hlast⟩
    rw [printfLoop]
    cases l with
    | nil =>
      rw [if_pos hs.nul]
      refine ⟨_, rfl, hread, ?_⟩
      have hend : k = N := hk
      show (s.reads ++ [(k : Int)]).getLast? = _
      rw [List.getLast?_concat, hend]
    | cons c t =>
      obtain ⟨hc, hne, hs'⟩ := hs.head
      have hlen : (c :: t).length = t.length + 1 := List.length_cons
      rw [hc, if_neg hne]
      by_cases hp : c = percent
      · subst hp
        rw [text_after_percent] at hcomplete
        rw [if_pos rfl, inc_eq (by omega)]
        obtain ⟨hok, hsome⟩ := directive_spec hN args fuel (s.read k) hs' (by omega)
        obtain ⟨r, hr⟩ := hsome (by omega)
        obtain ⟨e, he, hend, hreads⟩ := hok r hr
        rw [hr, Outcome.ok_bind, he]
        rcases hend with ⟨-, hnot⟩ | ⟨d, t', hdt, hle, hlen', hafter⟩
        · -- a directive that ends at the `NUL` is not complete
          exact absurd hcomplete hnot
        · rw [List.length_cons] at hlen'
          rw [inc_eq (by omega)]
          exact hrest t' (e + 1) _ (hread.trans hreads) hdt.head.2.2 (by omega) (by omega)
            (hafter.symm.trans hcomplete)
      · rw [if_neg hp]
        by_cases hb : c = backslash
        · subst hb
          rw [text_after_backslash] at hcomplete
          rw [if_pos rfl, inc_eq (by omega)]
          cases t with
          | nil => exact nomatch hcomplete
          | cons d t =>
            have hlen' : (d :: t).length = t.length + 1 := List.length_cons
            dsimp only
            rw [inc_eq (by omega)]
            have hread' := Reads.read (N := N) (s.read k) (show k + 1 ≤ N by omega)
            exact hrest t (k + 1 + 1) _
              ((hread.trans hread').of_reads (putEscape_reads _ _)) hs'.head.2.2 (by omega)
              (by omega) hcomplete
        · rw [text_after_other hp hb] at hcomplete
          rw [if_neg hb, inc_eq (by omega)]
          exact hrest t (k + 1) _ (hread.of_reads rfl) hs' (by omega) (by omega) hcomplete

/-! ### Behind the `NUL` -/

theorem widthLoop_keeps {str : Int → UInt8} (fuel : Nat) : ∀ {i width : Int} {s : Printf}
    {r : (Int × Int) × Printf}, widthLoop str fuel i width s = .ok r → s.reads <+: r.2.reads := by
  induction fuel with
  | zero => exact fun hr => nomatch hr
  | succ fuel ih =>
    intro i width s r hr
    have hread : s.reads <+: (s.read i).reads := List.prefix_append _ _
    rw [widthLoop] at hr
    split at hr
    · exact hread.trans (ih hr)
    · rw [← Outcome.ok.inj hr]
      exact hread

theorem directive_keeps {i : Int} {r : Int × Printf} (hr : directive str args fuel i s = .ok r) :
    s.reads <+: r.2.reads := by
  unfold directive at hr
  obtain ⟨w, hw, hr⟩ := Outcome.bind_eq_ok.mp hr
  rw [← Outcome.ok.inj hr]
  show s.reads <+: (convert _ _ _ _ _).reads
  rw [convert_reads]
  exact ((List.prefix_append s.reads [i]).trans (widthLoop_keeps fuel hw)).trans
    (List.prefix_append _ _)

/-- What has been read is kept, and the loop begins with the index that it is given. -/
theorem printfLoop_keeps (rounds : Nat) : ∀ {i : Int} {s s' : Printf},
    printfLoop str args fuel rounds i s = .ok s' → (s.read i).reads <+: s'.reads := by
  induction rounds with
  | zero => exact fun hok => nomatch hok
  | succ rounds ih =>
    intro i s s' hok
    have hread : ∀ (t : Printf) (j : Int), t.reads <+: (t.read j).reads := fun t j =>
      List.prefix_append _ _
    rw [printfLoop] at hok
    split at hok
    · cases hok
      exact List.prefix_refl _
    · split at hok
      · obtain ⟨r, hr, hok⟩ := Outcome.bind_eq_ok.mp hok
        exact ((directive_keeps hr).trans (hread r.2 _)).trans (ih hok)
      · split at hok
        · refine List.IsPrefix.trans ?_ (ih hok)
          refine List.IsPrefix.trans ?_ (hread _ _)
          rw [putEscape_reads]
          exact hread _ _
        · exact List.IsPrefix.trans (hread ((s.read i).put _) _) (ih hok)

/-- **A format that is not complete** is read behind the `NUL`. -/
theorem printfLoop_outside (hN : N + 1 < 2 ^ 31) (rounds : Nat) : ∀ {l : List UInt8} {k : Nat}
    {s s' : Printf}, IsFormat str k l → k + l.length = N → Mode.text.after l ≠ .text →
    printfLoop str args fuel rounds k s = .ok s' → ((N + 1 : Nat) : Int) ∈ s'.reads := by
  -- the header of the loop steps over the `NUL`
  have hover : ∀ {rounds : Nat} {s s' : Printf},
      printfLoop str args fuel rounds (inc N) s = .ok s' → ((N + 1 : Nat) : Int) ∈ s'.reads := by
    intro rounds s s' hok
    rw [inc_eq hN] at hok
    exact (printfLoop_keeps rounds hok).subset (List.mem_append_right _ List.mem_cons_self)
  induction rounds with
  | zero => exact fun _ _ _ hok => nomatch hok
  | succ rounds ih =>
    intro l k s s' hs hk hbroken hok
    cases l with
    | nil => exact absurd rfl hbroken
    | cons c t =>
      obtain ⟨hc, hne, hs'⟩ := hs.head
      have hlen : (c :: t).length = t.length + 1 := List.length_cons
      rw [printfLoop, hc, if_neg hne] at hok
      by_cases hp : c = percent
      · subst hp
        rw [text_after_percent] at hbroken
        rw [if_pos rfl, inc_eq (by omega)] at hok
        obtain ⟨r, hr, hok⟩ := Outcome.bind_eq_ok.mp hok
        obtain ⟨e, he, hend, -⟩ := (directive_spec hN args fuel _ hs' (by omega)).1 r hr
        rw [he] at hok
        rcases hend with ⟨rfl, -⟩ | ⟨d, t', hdt, hle, hlen', hafter⟩
        · rw [show k + 1 + t.length = N by omega] at hok
          exact hover hok
        · rw [List.length_cons] at hlen'
          rw [inc_eq (by omega)] at hok
          exact ih hdt.head.2.2 (by omega) (by rw [← hafter]; exact hbroken) hok
      · rw [if_neg hp] at hok
        by_cases hb : c = backslash
        · subst hb
          rw [text_after_backslash] at hbroken
          rw [if_pos rfl, inc_eq (by omega)] at hok
          cases t with
          | nil =>
            rw [show k + 1 = N from hk] at hok
            exact hover hok
          | cons d t =>
            have hlen' : (d :: t).length = t.length + 1 := List.length_cons
            dsimp only at hok
            rw [inc_eq (by omega)] at hok
            exact ih hs'.head.2.2 (by omega) hbroken hok
        · rw [text_after_other hp hb] at hbroken
          rw [if_neg hb, inc_eq (by omega)] at hok
          exact ih hs' (by omega) hbroken hok

/-- `printf` comes back, has read nothing behind index `N`, and has read that last. -/
def StopsAt (str : Int → UInt8) (args : Nat → Arg) (N : Nat) : Prop :=
  ∃ fuel s, printf fuel str args = .ok s ∧ (∀ i ∈ s.reads, 0 ≤ i ∧ i ≤ (N : Int)) ∧
    s.reads.getLast? = some (N : Int)

/-- **A format is read up to its `NUL` and no further** if and only if it does not end within a
    directive or an escape. -/
theorem stopsAtNul_iff {fmt : List UInt8} (hfmt : IsFormat str 0 fmt)
    (hlen : fmt.length + 1 < 2 ^ 31) (args : Nat → Arg) :
    StopsAt str args fmt.length ↔ Complete fmt := by
  constructor
  · rintro ⟨fuel, s, hok, hin, -⟩
    by_contra hbroken
    have hbehind := printfLoop_outside hlen fuel hfmt (Nat.zero_add _) hbroken hok
    have hle := (hin _ hbehind).2
    omega
  · intro hcomplete
    obtain ⟨s, hok, ⟨rs, he, hrs⟩, hlast⟩ := printfLoop_inside (s := {}) hlen args
      (fmt.length + 1) hfmt (Nat.zero_add _) (Nat.lt_succ_self _) (Nat.lt_succ_self _) hcomplete
    refine ⟨fmt.length + 1, s, hok, fun i hi => hrs i ?_, hlast⟩
    rwa [he, List.nil_append] at hi

/-- `"a%d"`. -/
def numberFormat : List UInt8 := [97, 37, 100]

theorem numberFormat_isFormat : IsFormat (fun i => numberFormat.getD i.toNat 0) 0 numberFormat :=
  ⟨by decide, by decide⟩

theorem stopsAtNul_number :
    StopsAt (fun i => numberFormat.getD i.toNat 0) (fun _ => ⟨7, []⟩) 3 ↔ Complete numberFormat :=
  stopsAtNul_iff numberFormat_isFormat (by decide) _

/-- `"%"`: the `NUL` is printed, and what stands behind it. -/
theorem percent_overruns : IsFormat (fun i => if i = 0 then percent else 0) 0 [percent] ∧
    ¬ StopsAt (fun i => if i = 0 then percent else 0) (fun _ => ⟨0, []⟩) 1 := by
  have hfmt : IsFormat (fun i => if i = 0 then percent else 0) 0 [percent] :=
    ⟨by decide, by decide⟩
  refine ⟨hfmt, ?_⟩
  rintro ⟨fuel, s, hok, hin, -⟩
  have hbehind := printfLoop_outside (N := 1) (by decide) fuel hfmt rfl (by decide) hok
  exact absurd (hin _ hbehind).2 (by decide)

end TpeSo.Userland
