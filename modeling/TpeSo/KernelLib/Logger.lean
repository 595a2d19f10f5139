import Mathlib.Data.List.GetD
import TpeSo.Ds.RingOverwrite
import TpeSo.Userland.Decimal

namespace TpeSo.KernelLib

open Ds Lib Userland

/-!
# `lib/logger.c` — `vprintk`

`vprintk` copies its format into the log and puts the arguments where the directives stand.
What is none of the directives is meant to be copied: the `switch` behind a `%` goes back to
it, the one behind `%l` goes back to the `l` only.

* `vprintk` — the function, with the addresses at which the format is read and the format
  bytes that are copied;
* `directiveLen`, `outside` — the recognised directives of a format, and the bytes outside
  them;
* `directive_spec` — the three ways in which a `%` is dealt with;
* `vprintkLoop_spec`, `vprintk_spec` — **what the loop does** from a byte on at which no
  directive goes on, and what is in the log at its end;
* `losesNothing_iff` — **nothing is lost exactly when every `%l` goes on with `x` or `d`**.
-/

def percent : UInt8 := 37

/-- An argument: the 64 bits that `va_arg` finds and, when they are the address of a string, the
    bytes that `my_strlen` counts there; `none` for `NULL`. -/
structure Arg where
  bits : BitVec 64
  str : Option (List UInt8)

/-- What is put into the log: the byte `c` of the format, from the address `fmt`, or a text that
    has been made from an argument. -/
inductive Emitted where
  | byte (fmt : Nat) (c : UInt8)
  | text (s : List UInt8)

namespace Emitted

def bytes : Emitted → List UInt8
  | .byte _ c => [c]
  | .text s => s

/-- The byte of the format, with its address. -/
def copied : Emitted → Option (Nat × UInt8)
  | .byte fmt c => some (fmt, c)
  | .text _ => none

end Emitted

/-- The log, what has been put into it, `ret`, the arguments taken and the addresses at which the
    format has been read. -/
structure Vprintk where
  kmsg : Ringbuf
  out : List Emitted := []
  ret : Int := 0
  taken : Nat := 0
  reads : List Nat := []

namespace Vprintk

/-- `*fmt` is read. -/
def read (s : Vprintk) (fmt : Nat) : Vprintk := { s with reads := s.reads ++ [fmt] }

/-- `va_arg` has been used. -/
def take (s : Vprintk) : Vprintk := { s with taken := s.taken + 1 }

/-- Something is put into the log. -/
def emit (s : Vprintk) (e : Emitted) : Vprintk :=
  { s with kmsg := (ringbufWriteOverwrite s.kmsg e.bytes).1, out := s.out ++ [e] }

/-- `ret += putc(..)`. -/
def putc (s : Vprintk) (e : Emitted) : Vprintk :=
  let n := (ringbufWriteOverwrite s.kmsg e.bytes).2
  { s.emit e with ret := int32 (s.ret + n) }

/-- `ret += puts(..)`: `puts` returns `0`. -/
def puts (s : Vprintk) (text : List UInt8) : Vprintk := s.emit (.text text)

end Vprintk

/-- `"(null)"`. -/
def nullText : List UInt8 := [40, 110, 117, 108, 108, 41]

/-- `enc[d]`. -/
def enc (d : Nat) : UInt8 := ([48, 49, 50, 51, 52, 53, 54, 55, 56, 57, 65, 66, 67, 68, 69, 70] :
  List UInt8).getD d 0

/-- The loop of `putx`, with `i` bytes free in front of `text`. -/
def putxLoop : Nat → Nat → List UInt8 → List UInt8
  | 0, _, text => text
  | i + 1, val, text => if val = 0 then text else putxLoop i (val / 16) (enc (val % 16) :: text)

/-- `putx`. -/
def putx (val : Nat) : List UInt8 := if val = 0 then [48] else putxLoop 8 val []

/-- The loops of `putlx` and `putb`, which fill their buffer. -/
def fillLoop (base : Nat) : Nat → Nat → List UInt8 → List UInt8
  | 0, _, text => text
  | i + 1, val, text => fillLoop base i (val / base) (enc (val % base) :: text)

/-- `putlx`. -/
def putlx (val : Nat) : List UInt8 := fillLoop 16 16 val []

/-- `putb`. -/
def putb (val : Nat) : List UInt8 := fillLoop 2 8 val []

/-- The loops of `putud` and `putul`: no check keeps them from going on in front of the buffer. -/
def putdLoop : Nat → Nat → List UInt8 → Outcome (List UInt8)
  | 0, val, text => if val = 0 then .ok text else .fault
  | i + 1, val, text =>
    if val = 0 then .ok text
    else putdLoop i ((val - val % 10) / 10) (digitChar (val % 10) :: text)

/-- `putud`. -/
def putud (val : Nat) : Outcome (List UInt8) := if val = 0 then .ok [48] else putdLoop 10 val []

/-- `putul`. -/
def putul (val : Nat) : Outcome (List UInt8) := if val = 0 then .ok [48] else putdLoop 20 val []

/-- The `switch` behind `%l`, with `fmt` on the byte behind the `l`; and where `fmt` ends. -/
def longDirective (mem : Memory) (arg : Arg) (fmt : Nat) (s : Vprintk) :
    Outcome (Nat × Vprintk) :=
  let s := s.read fmt
  let val := arg.bits.toNat
  if mem fmt = 120 then .ok (fmt, s.take.puts (putlx val))
  else if mem fmt = 100 then do
    let text ← putul val
    .ok (fmt, s.take.puts text)
  else
    let fmt := fmt - 1
    .ok (fmt, (s.read fmt).putc (.byte fmt (mem fmt)))

/-- The `switch` behind a `%`, with `fmt` on the byte behind it; and where `fmt` ends. -/
def directive (mem : Memory) (args : Nat → Arg) (fmt : Nat) (s : Vprintk) :
    Outcome (Nat × Vprintk) :=
  let arg := args s.taken
  let s := s.read fmt
  let val := arg.bits.toNat
  if mem fmt = 99 then .ok (fmt, s.take.putc (.text [UInt8.ofNat val]))
  else if mem fmt = 115 then .ok (fmt, s.take.puts (arg.str.getD nullText))
  else if mem fmt = 100 then do
    let text ← putud (val % 2 ^ 32)
    .ok (fmt, s.take.puts text)
  else if mem fmt = 108 then longDirective mem arg (fmt + 1) s
  else if mem fmt = 98 then .ok (fmt, s.take.puts (putb (val % 2 ^ 8)))
  else if mem fmt = 120 then .ok (fmt, s.take.puts (putx (val % 2 ^ 32)))
  else if mem fmt = 112 then .ok (fmt, (s.puts [48, 120]).take.puts (putlx val))
  else
    let fmt := fmt - 1
    .ok (fmt, (s.read fmt).putc (.byte fmt (mem fmt)))

/-- The loop of `vprintk`. -/
def vprintkLoop (mem : Memory) (args : Nat → Arg) : Nat → Nat → Vprintk → Outcome Vprintk
  | 0, _, _ => .hang
  | rounds + 1, fmt, s =>
    let s := s.read fmt
    if mem fmt = 0 then .ok s
    else if mem fmt = percent then do
      let (fmt, s) ← directive mem args (fmt + 1) s
      vprintkLoop mem args rounds (fmt + 1) s
    else vprintkLoop mem args rounds (fmt + 1) (s.putc (.byte fmt (mem fmt)))

/-- `vprintk`. -/
def vprintk (rounds : Nat) (mem : Memory) (fmt : Nat) (args : Nat → Arg) (kmsg : Ringbuf) :
    Outcome Vprintk :=
  vprintkLoop mem args rounds fmt ⟨kmsg, [], 0, 0, []⟩

/-! ### Directives -/

/-- The length of the recognised directive at index `i` of a format, `0` when there is none:
    one of `%c`, `%s`, `%d`, `%b`, `%x`, `%p`, or `%lx` or `%ld`. -/
def directiveLen (fmt : List UInt8) (i : Nat) : Nat :=
  if fmt.getD i 0 ≠ percent then 0
  else if fmt.getD (i + 1) 0 ∈ ([99, 115, 100, 98, 120, 112] : List UInt8) then 2
  else if fmt.getD (i + 1) 0 = 108 ∧ fmt.getD (i + 2) 0 ∈ ([120, 100] : List UInt8) then 3
  else 0

/-- Index `j` is in a recognised directive. -/
def InDirective (fmt : List UInt8) (j : Nat) : Prop := ∃ i ≤ j, j < i + directiveLen fmt i

instance (fmt : List UInt8) (j : Nat) : Decidable (InDirective fmt j) :=
  inferInstanceAs (Decidable (∃ i, i ≤ j ∧ j < i + directiveLen fmt i))

/-- The bytes outside the recognised directives, with their addresses. -/
def outside (str : Nat) (fmt : List UInt8) : List (Nat × UInt8) :=
  ((List.range fmt.length).filter fun j => ¬ InDirective fmt j).map
    fun j => (str + j, fmt.getD j 0)

/-- `vprintk` terminates, reads the format up to its `NUL`, and copies the bytes outside the
    directives, each once and in order. -/
def LosesNothing (rounds : Nat) (mem : Memory) (str : Nat) (fmt : List UInt8) (args : Nat → Arg)
    (kmsg : Ringbuf) : Prop :=
  ∃ s, vprintk rounds mem str args kmsg = .ok s ∧
    (∀ a ∈ s.reads, str ≤ a ∧ a ≤ str + fmt.length) ∧
    s.out.filterMap Emitted.copied = outside str fmt

/-- At index `j` stands a `%l` that goes on with neither `x` nor `d`. -/
def StrayLong (fmt : List UInt8) (j : Nat) : Prop :=
  fmt.getD j 0 = percent ∧ fmt.getD (j + 1) 0 = 108 ∧
    fmt.getD (j + 2) 0 ∉ ([120, 100] : List UInt8)

instance (fmt : List UInt8) (j : Nat) : Decidable (StrayLong fmt j) :=
  inferInstanceAs (Decidable (_ ∧ _ ∧ _))

/-! ### The converted arguments -/

variable {mem : Memory} {args : Nat → Arg} {fmt : List UInt8} {s s' s'' : Vprintk}
  {cs cs' : List (Nat × UInt8)} {str lo hi i j n val rounds : Nat}

/-- The buffer is long enough when the number has no more than `i` digits. -/
theorem putdLoop_eq : ∀ {i val : Nat} (text : List UInt8), val < 10 ^ i →
    putdLoop i val text = .ok (((Nat.digits 10 val).map digitChar).reverse ++ text) := by
  intro i
  induction i with
  | zero =>
    intro val text h
    obtain rfl : val = 0 := by omega
    rfl
  | succ i ih =>
    intro val text h
    rw [Nat.pow_succ] at h
    unfold putdLoop
    split
    · rename_i hval
      rw [hval]
      rfl
    · rename_i hval
      have hdiv : (val - val % 10) / 10 = val / 10 := by omega
      have hlt : val / 10 < 10 ^ i := Nat.div_lt_of_lt_mul (by rwa [Nat.mul_comm])
      have hdigits : Nat.digits 10 val = val % 10 :: Nat.digits 10 (val / 10) :=
        Nat.digits_def' (by decide) (Nat.pos_of_ne_zero hval)
      rw [hdiv, ih _ hlt, hdigits, List.map_cons, List.reverse_cons, List.append_assoc]
      rfl

theorem putud_ok (h : val < 2 ^ 32) : ∃ text, putud val = .ok text := by
  unfold putud
  split
  · exact ⟨_, rfl⟩
  · exact ⟨_, putdLoop_eq [] (by omega)⟩

theorem putul_ok (h : val < 2 ^ 64) : ∃ text, putul val = .ok text := by
  unfold putul
  split
  · exact ⟨_, rfl⟩
  · exact ⟨_, putdLoop_eq [] (by omega)⟩

/-! ### What is read and copied -/

/-- From `s` to `s'` the format is read between `lo` and `hi`, and the bytes `cs` of it are
    copied; the log is the ring to which everything has been put. -/
structure Emits (lo hi : Nat) (cs : List (Nat × UInt8)) (s s' : Vprintk) : Prop where
  reads : ∃ rs, s'.reads = s.reads ++ rs ∧ ∀ a ∈ rs, lo ≤ a ∧ a ≤ hi
  out : ∃ es, s'.out = s.out ++ es ∧ es.filterMap Emitted.copied = cs ∧
    s'.kmsg = es.foldl (fun r e => (ringbufWriteOverwrite r e.bytes).1) s.kmsg

namespace Emits

theorem trans (h : Emits lo hi cs s s') (h' : Emits lo hi cs' s' s'') :
    Emits lo hi (cs ++ cs') s s'' := by
  obtain ⟨⟨rs, hrs, hin⟩, es, hes, hcs, hkmsg⟩ := h
  obtain ⟨⟨rs', hrs', hin'⟩, es', hes', hcs', hkmsg'⟩ := h'
  refine ⟨⟨rs ++ rs', by rw [hrs', hrs, List.append_assoc], fun a ha => ?_⟩, es ++ es',
    by rw [hes', hes, List.append_assoc], by rw [List.filterMap_append, hcs, hcs'],
    by rw [hkmsg', hkmsg, List.foldl_append]⟩
  rcases List.mem_append.mp ha with ha | ha
  · exact hin a ha
  · exact hin' a ha

theorem read (s : Vprintk) (hlo : lo ≤ i) (hhi : i ≤ hi) : Emits lo hi [] s (s.read i) := by
  refine ⟨⟨[i], rfl, fun a ha => ?_⟩, [], (List.append_nil _).symm, rfl, rfl⟩
  rw [List.mem_singleton.mp ha]
  exact ⟨hlo, hhi⟩

theorem take (s : Vprintk) : Emits lo hi [] s s.take :=
  ⟨⟨[], (List.append_nil _).symm, fun _ ha => nomatch ha⟩, [], (List.append_nil _).symm, rfl, rfl⟩

theorem putc (s : Vprintk) (e : Emitted) : Emits lo hi e.copied.toList s (s.putc e) := by
  refine ⟨⟨[], (List.append_nil _).symm, fun _ ha => nomatch ha⟩, [e], rfl, ?_, rfl⟩
  cases e <;> rfl

theorem puts (s : Vprintk) (text : List UInt8) : Emits lo hi [] s (s.puts text) :=
  ⟨⟨[], (List.append_nil _).symm, fun _ ha => nomatch ha⟩, [.text text], rfl, rfl, rfl⟩

/-- A converted argument. -/
theorem take_puts (s : Vprintk) (text : List UInt8) : Emits lo hi [] s (s.take.puts text) :=
  (take s).trans (puts s.take text)

end Emits

/-- The bytes of a format, and its `NUL`. -/
theorem byte_eq (h : IsString mem str fmt) (hi : i ≤ fmt.length) :
    mem (str + i) = fmt.getD i 0 := by
  have hlen : i < (fmt ++ [0]).length := by
    rw [List.length_append, List.length_singleton]
    omega
  rw [h.1.getD hlen 0]
  rcases Nat.lt_or_eq_of_le hi with hi | rfl
  · exact List.getD_append fmt [0] 0 i hi
  · simp

theorem byte_ne_zero (h : IsString mem str fmt) (hi : i < fmt.length) : fmt.getD i 0 ≠ 0 := by
  rw [List.getD_eq_getElem fmt 0 hi]
  exact fun h0 => h.2 (h0 ▸ List.getElem_mem hi)

/-- Where a byte is not the `NUL`, the format has not come to its end. -/
theorem lt_length (hi : fmt.getD i 0 ≠ 0) : i < fmt.length := by
  by_contra hle
  exact hi (List.getD_eq_default fmt 0 (by omega))

/-- A byte of the format is read again, and copied. -/
theorem Emits.reread (h : IsString mem str fmt) (hi : i < fmt.length) (s : Vprintk) :
    Emits str (str + fmt.length) [(str + i, fmt.getD i 0)] s
      ((s.read (str + i)).putc (.byte (str + i) (mem (str + i)))) := by
  have hread : Emits str (str + fmt.length) [] s (s.read (str + i)) :=
    read s (by omega) (by omega)
  rw [byte_eq h (Nat.le_of_lt hi)]
  exact hread.trans (putc _ (.byte (str + i) (fmt.getD i 0)))

/-- Behind a `%l`. -/
theorem longDirective_spec (h : IsString mem str fmt) (arg : Arg) (hl : fmt.getD (i + 1) 0 = 108)
    (s : Vprintk) :
    if fmt.getD (i + 2) 0 ∈ ([120, 100] : List UInt8) then
      ∃ s', longDirective mem arg (str + (i + 2)) s = .ok (str + (i + 2), s') ∧
        Emits str (str + fmt.length) [] s s'
    else
      ∃ s', longDirective mem arg (str + (i + 2)) s = .ok (str + (i + 1), s') ∧
        Emits str (str + fmt.length) [(str + (i + 1), fmt.getD (i + 1) 0)] s s' := by
  have hlt : i + 1 < fmt.length := lt_length (by rw [hl]; decide)
  have hread : Emits str (str + fmt.length) [] s (s.read (str + (i + 2))) :=
    .read s (by omega) (by omega)
  unfold longDirective
  dsimp only
  rw [byte_eq h (by omega : i + 2 ≤ fmt.length)]
  generalize fmt.getD (i + 2) 0 = c
  by_cases hx : c = 120
  · rw [if_pos hx, if_pos (by rw [hx]; decide)]
    exact ⟨_, rfl, hread.trans (.take_puts _ _)⟩
  by_cases hd : c = 100
  · obtain ⟨text, htext⟩ := putul_ok arg.bits.isLt
    rw [if_neg hx, if_pos hd, if_pos (by rw [hd]; decide), htext, Outcome.ok_bind]
    exact ⟨_, rfl, hread.trans (.take_puts _ _)⟩
  · -- back to the `l`, but not to the `%`
    rw [if_neg hx, if_neg hd, if_neg (by simp [hx, hd])]
    exact ⟨_, rfl, hread.trans (.reread h hlt _)⟩

/-- **Behind a `%`**: the directive is left behind with nothing copied; or the `l` of a stray
    `%l` is copied, or the `%`. -/
theorem directive_spec (h : IsString mem str fmt) (args : Nat → Arg) (hp : fmt.getD i 0 = percent)
    (s : Vprintk) :
    (∃ n s', directiveLen fmt i = n + 2 ∧
      directive mem args (str + (i + 1)) s = .ok (str + (i + (n + 1)), s') ∧
      Emits str (str + fmt.length) [] s s') ∨
    (StrayLong fmt i ∧ ∃ s', directive mem args (str + (i + 1)) s = .ok (str + (i + 1), s') ∧
      Emits str (str + fmt.length) [(str + (i + 1), fmt.getD (i + 1) 0)] s s') ∨
    (directiveLen fmt i = 0 ∧ ¬ StrayLong fmt i ∧
      ∃ s', directive mem args (str + (i + 1)) s = .ok (str + i, s') ∧
      Emits str (str + fmt.length) [(str + i, fmt.getD i 0)] s s') := by
  have hlt : i < fmt.length := lt_length (by rw [hp]; decide)
  have hread : Emits str (str + fmt.length) [] s (s.read (str + (i + 1))) :=
    .read s (by omega) (by omega)
  have hlen : fmt.getD (i + 1) 0 ∈ ([99, 115, 100, 98, 120, 112] : List UInt8) →
      directiveLen fmt i = 0 + 2 := fun hc => by
    rw [directiveLen, if_neg (not_not_intro hp), if_pos hc]
  generalize hdir : directive mem args (str + (i + 1)) s = d
  unfold directive at hdir
  dsimp only at hdir
  rw [byte_eq h (by omega : i + 1 ≤ fmt.length)] at hdir
  generalize args s.taken = arg at hdir
  generalize hc : fmt.getD (i + 1) 0 = c at hlen hdir ⊢
  split_ifs at hdir with hchar hstr hdec hlong hbin hhex hptr <;> subst hdir
  · exact .inl ⟨0, _, hlen (by rw [hchar]; decide), rfl,
      (hread.trans (.take _)).trans (.putc _ (.text [UInt8.ofNat arg.bits.toNat]))⟩
  · exact .inl ⟨0, _, hlen (by rw [hstr]; decide), rfl, hread.trans (.take_puts _ _)⟩
  · obtain ⟨text, htext⟩ := putud_ok (Nat.mod_lt arg.bits.toNat (by decide : 0 < 2 ^ 32))
    rw [htext, Outcome.ok_bind]
    exact .inl ⟨0, _, hlen (by rw [hdec]; decide), rfl, hread.trans (.take_puts _ _)⟩
  · subst hlong
    have hbehind := longDirective_spec h arg hc (s.read (str + (i + 1)))
    split at hbehind
    · rename_i hgoes
      obtain ⟨s', hs', hemits⟩ := hbehind
      refine .inl ⟨1, s', ?_, hs', hread.trans hemits⟩
      rw [directiveLen, if_neg (not_not_intro hp), hc, if_neg (by decide), if_pos ⟨rfl, hgoes⟩]
    · rename_i hgoes
      obtain ⟨s', hs', hemits⟩ := hbehind
      rw [hc] at hemits
      exact .inr (.inl ⟨⟨hp, hc, hgoes⟩, s', hs', hread.trans hemits⟩)
  · exact .inl ⟨0, _, hlen (by rw [hbin]; decide), rfl, hread.trans (.take_puts _ _)⟩
  · exact .inl ⟨0, _, hlen (by rw [hhex]; decide), rfl, hread.trans (.take_puts _ _)⟩
  · exact .inl ⟨0, _, hlen (by rw [hptr]; decide), rfl,
      (hread.trans (.puts _ _)).trans (.take_puts _ _)⟩
  · refine .inr (.inr ⟨?_, ?_, _, rfl, hread.trans (.reread h hlt _)⟩)
    · rw [directiveLen, if_neg (not_not_intro hp), hc, if_neg, if_neg fun hl => hlong hl.1]
      simp only [List.mem_cons, List.not_mem_nil, or_false, not_or]
      exact ⟨hchar, hstr, hdec, hbin, hhex, hptr⟩
    · exact fun hstray => hlong (hc ▸ hstray.2.1)

/-! ### The loop -/

/-- No directive that begins in front of index `i` goes on behind it. -/
def Free (fmt : List UInt8) (i : Nat) : Prop := ∀ k < i, k + directiveLen fmt k ≤ i

theorem directiveLen_eq_zero (h : fmt.getD i 0 ≠ percent) : directiveLen fmt i = 0 := if_pos h

theorem directiveLen_cases (fmt : List UInt8) (i : Nat) :
    directiveLen fmt i = 0 ∨ ∃ n, directiveLen fmt i = n + 2 := by
  unfold directiveLen
  split_ifs
  · exact .inl rfl
  · exact .inr ⟨0, rfl⟩
  · exact .inr ⟨1, rfl⟩
  · exact .inl rfl

theorem StrayLong.directiveLen_eq (h : StrayLong fmt i) : directiveLen fmt i = 0 := by
  obtain ⟨hp, hl, hgoes⟩ := h
  rw [directiveLen, if_neg (not_not_intro hp), hl, if_neg (by decide), if_neg fun hx => hgoes hx.2]

/-- Within a directive no other one begins, and the format does not end. -/
theorem directive_inside (h : directiveLen fmt i = n + 2) :
    (∀ k, i < k → k < i + (n + 2) → fmt.getD k 0 ≠ percent) ∧ i + (n + 2) ≤ fmt.length := by
  have hpercent : percent ∉ ([99, 115, 100, 98, 120, 112] : List UInt8) ∧
      percent ∉ ([120, 100] : List UInt8) ∧ (108 : UInt8) ≠ percent := by decide
  have hnul : (0 : UInt8) ∉ ([99, 115, 100, 98, 120, 112] : List UInt8) ∧
      (0 : UInt8) ∉ ([120, 100] : List UInt8) := by decide
  unfold directiveLen at h
  split_ifs at h with hp hc hl
  · obtain rfl : n = 0 := by omega
    refine ⟨fun k hik hk => ?_, lt_length fun h0 => hnul.1 (h0 ▸ hc)⟩
    obtain rfl : k = i + 1 := by omega
    exact fun hk => hpercent.1 (hk ▸ hc)
  · obtain rfl : n = 1 := by omega
    refine ⟨fun k hik hk => ?_, lt_length fun h0 => hnul.2 (h0 ▸ hl.2)⟩
    rcases (by omega : k = i + 1 ∨ k = i + 2) with rfl | rfl
    · rw [hl.1]
      exact hpercent.2.2
    · exact fun hk => hpercent.2.1 (hk ▸ hl.2)

/-- A stray `%` is in no directive. -/
theorem StrayLong.outside (h : StrayLong fmt j) : ¬ InDirective fmt j := by
  rintro ⟨i, hi, hlt⟩
  obtain ⟨n, hn⟩ := (directiveLen_cases fmt i).resolve_left (by omega)
  rcases Nat.lt_or_eq_of_le hi with hi | rfl
  · exact (directive_inside hn).1 j hi (by omega) h.1
  · rw [h.directiveLen_eq] at hn
    omega

namespace Free

theorem inDirective_iff (h : Free fmt i) : InDirective fmt i ↔ directiveLen fmt i ≠ 0 := by
  constructor
  · rintro ⟨k, hk, hlt⟩
    rcases Nat.lt_or_eq_of_le hk with hk | rfl
    · exact absurd (h k hk) (by omega)
    · omega
  · exact fun h0 => ⟨i, le_refl i, by omega⟩

theorem next (h : Free fmt i) (h0 : directiveLen fmt i = 0) : Free fmt (i + 1) := by
  intro k hk
  rcases Nat.lt_or_eq_of_le (Nat.le_of_lt_succ hk) with hk | rfl
  · exact Nat.le_succ_of_le (h k hk)
  · omega

/-- Behind a directive. -/
theorem skip (h : Free fmt i) (hn : directiveLen fmt i = n + 2) : Free fmt (i + (n + 2)) := by
  intro k hk
  rcases Nat.lt_trichotomy k i with hlt | rfl | hgt
  · exact le_trans (h k hlt) (Nat.le_add_right _ _)
  · omega
  · rw [directiveLen_eq_zero ((directive_inside hn).1 k hgt hk)]
    omega

end Free

/-- What is copied of the `n` bytes from index `i` on: those outside the directives, without the
    `%` of a stray `%l`. -/
def kept (str : Nat) (fmt : List UInt8) (i n : Nat) : List (Nat × UInt8) :=
  ((List.range' i n).filter fun j => ¬ InDirective fmt j ∧ ¬ StrayLong fmt j).map
    fun j => (str + j, fmt.getD j 0)

theorem kept_cons (hd : ¬ InDirective fmt i) (hs : ¬ StrayLong fmt i) :
    kept str fmt i (n + 1) = (str + i, fmt.getD i 0) :: kept str fmt (i + 1) n := by
  unfold kept
  rw [List.range'_succ, List.filter_cons_of_pos (by simp [hd, hs]), List.map_cons]

theorem kept_skip (h : InDirective fmt i ∨ StrayLong fmt i) :
    kept str fmt i (n + 1) = kept str fmt (i + 1) n := by
  unfold kept
  rw [List.range'_succ, List.filter_cons_of_neg]
  simpa [imp_iff_not_or] using h

theorem kept_within : ∀ {k i : Nat}, (∀ j, i ≤ j → j < i + k → InDirective fmt j) →
    kept str fmt i (k + n) = kept str fmt (i + k) n := by
  intro k
  induction k with
  | zero =>
    intro i _
    rw [Nat.zero_add]
    rfl
  | succ k ih =>
    intro i h
    rw [Nat.succ_add, kept_skip (.inl (h i (le_refl i) (by omega))),
      ih fun j hj hlt => h j (by omega) (by omega), Nat.add_assoc, Nat.add_comm 1 k]

/-- Nothing is kept of a directive. -/
theorem kept_directive {k : Nat} (hk : directiveLen fmt i = k + 2) :
    kept str fmt i (k + 2 + n) = kept str fmt (i + (k + 2)) n :=
  kept_within fun j hj hlt => ⟨i, hj, by rw [hk]; exact hlt⟩

/-- A byte with which no directive begins. -/
theorem Free.kept_plain (h : Free fmt i) (h0 : directiveLen fmt i = 0) (hs : ¬ StrayLong fmt i) :
    kept str fmt i (n + 1) = (str + i, fmt.getD i 0) :: kept str fmt (i + 1) n :=
  kept_cons (fun hd => h.inDirective_iff.mp hd h0) hs

/-- Of a stray `%l` the `l` is kept, with which nothing begins. -/
theorem Free.kept_stray (h : Free fmt i) (hs : StrayLong fmt i) : Free fmt (i + 2) ∧
    kept str fmt i (n + 2) = (str + (i + 1), fmt.getD (i + 1) 0) :: kept str fmt (i + 2) n := by
  have hl : fmt.getD (i + 1) 0 ≠ percent := by
    rw [hs.2.1]
    decide
  have hfree := h.next hs.directiveLen_eq
  have hzero := directiveLen_eq_zero hl
  refine ⟨hfree.next hzero, ?_⟩
  rw [kept_skip (.inr hs), hfree.kept_plain hzero fun hs' => hl hs'.1]

/-- **The loop**, from a byte on at which no directive begun before goes on: the induction is on
    the rounds, and every round leaves the loop at such a byte. -/
theorem vprintkLoop_spec (h : IsString mem str fmt) (args : Nat → Arg) :
    ∀ {rounds n i : Nat} {s : Vprintk}, i + n = fmt.length → Free fmt i → n < rounds →
    ∃ s', vprintkLoop mem args rounds (str + i) s = .ok s' ∧
      Emits str (str + fmt.length) (kept str fmt i n) s s' := by
  intro rounds
  induction rounds with
  | zero => exact fun _ _ hn => absurd hn (Nat.not_lt_zero _)
  | succ rounds ih =>
    intro n i s hlen hfree hn
    have hread : Emits str (str + fmt.length) [] s (s.read (str + i)) :=
      .read s (by omega) (by omega)
    unfold vprintkLoop
    dsimp only
    rw [byte_eq h (by omega : i ≤ fmt.length)]
    cases n with
    | zero =>
      obtain rfl : i = fmt.length := hlen
      rw [if_pos (List.getD_eq_default fmt 0 (le_refl _))]
      exact ⟨_, rfl, hread⟩
    | succ n =>
      rw [if_neg (byte_ne_zero h (by omega))]
      split
      · rename_i hp
        rw [Nat.add_assoc str i 1]
        rcases directive_spec h args hp (s.read (str + i)) with
          ⟨k, s₁, hk, hs₁, hemits⟩ | ⟨hstray, s₁, hs₁, hemits⟩ | ⟨hzero, hstray, s₁, hs₁, hemits⟩
        · -- a recognised directive
          have hend := (directive_inside hk).2
          obtain ⟨m, rfl⟩ : ∃ m, n = k + 1 + m := ⟨n - (k + 1), by omega⟩
          obtain ⟨s', hs', hrest⟩ := ih (s := s₁) (by omega : i + (k + 2) + m = fmt.length)
            (hfree.skip hk) (by omega)
          rw [hs₁, Outcome.ok_bind]
          refine ⟨s', hs', ?_⟩
          rw [(by omega : k + 1 + m + 1 = k + 2 + m), kept_directive hk]
          exact (hread.trans hemits).trans hrest
        · -- the `%` is lost
          have hbehind : i + 1 < fmt.length := lt_length (by rw [hstray.2.1]; decide)
          obtain ⟨m, rfl⟩ : ∃ m, n = m + 1 := ⟨n - 1, by omega⟩
          obtain ⟨hfree', hkept⟩ := hfree.kept_stray hstray
          obtain ⟨s', hs', hrest⟩ := ih (s := s₁) (by omega : i + 2 + m = fmt.length)
            hfree' (by omega)
          rw [hs₁, Outcome.ok_bind]
          refine ⟨s', hs', ?_⟩
          rw [hkept]
          exact (hread.trans hemits).trans hrest
        · -- the `%` is copied
          obtain ⟨s', hs', hrest⟩ := ih (s := s₁) (by omega : i + 1 + n = fmt.length)
            (hfree.next hzero) (by omega)
          rw [hs₁, Outcome.ok_bind]
          refine ⟨s', hs', ?_⟩
          rw [hfree.kept_plain hzero hstray]
          exact (hread.trans hemits).trans hrest
      · rename_i hp
        have hzero := directiveLen_eq_zero hp
        obtain ⟨s', hs', hrest⟩ := ih
          (s := (s.read (str + i)).putc (.byte (str + i) (fmt.getD i 0)))
          (by omega : i + 1 + n = fmt.length) (hfree.next hzero) (by omega)
        refine ⟨s', hs', ?_⟩
        rw [hfree.kept_plain hzero fun hs => hp hs.1]
        exact (hread.trans (.putc _ (.byte (str + i) (fmt.getD i 0)))).trans hrest

/-- **What `vprintk` does** with any format: it ends, having read nothing behind the `NUL`. -/
theorem vprintk_spec (h : IsString mem str fmt) (args : Nat → Arg) (kmsg : Ringbuf)
    (hrounds : fmt.length < rounds) : ∃ s, vprintk rounds mem str args kmsg = .ok s ∧
      (∀ a ∈ s.reads, str ≤ a ∧ a ≤ str + fmt.length) ∧
      s.out.filterMap Emitted.copied = kept str fmt 0 fmt.length ∧
      s.kmsg = s.out.foldl (fun r e => (ringbufWriteOverwrite r e.bytes).1) kmsg := by
  obtain ⟨s, hs, ⟨rs, hrs, hin⟩, es, hes, hcs, hkmsg⟩ := vprintkLoop_spec h args
    (s := ⟨kmsg, [], 0, 0, []⟩) (Nat.zero_add fmt.length)
    (fun k hk => absurd hk (Nat.not_lt_zero k)) hrounds
  obtain rfl : s.reads = rs := hrs
  obtain rfl : s.out = es := hes
  exact ⟨s, hs, hin, hcs, hkmsg⟩

/-- Of the bytes outside the directives the `%` of each stray `%l` is missing. -/
theorem kept_eq_outside_iff (str : Nat) (fmt : List UInt8) :
    kept str fmt 0 fmt.length = outside str fmt ↔ ∀ j, ¬ StrayLong fmt j := by
  unfold kept outside
  rw [List.range_eq_range']
  constructor
  · intro heq j hstray
    have hlt : j < fmt.length := lt_length (by rw [hstray.1]; decide)
    have hmem : (str + j, fmt.getD j 0) ∈ (((List.range' 0 fmt.length).filter
        fun j => ¬ InDirective fmt j).map fun j => (str + j, fmt.getD j 0)) := by
      refine List.mem_map.mpr ⟨j, List.mem_filter.mpr ⟨?_, ?_⟩, rfl⟩
      · rw [List.mem_range'_1]
        omega
      · exact decide_eq_true hstray.outside
    rw [← heq] at hmem
    obtain ⟨k, hk, hsame⟩ := List.mem_map.mp hmem
    obtain rfl : k = j := Nat.add_left_cancel (Prod.mk.inj hsame).1
    exact (of_decide_eq_true (List.mem_filter.mp hk).2).2 hstray
  · intro hnone
    congr 1
    exact List.filter_congr fun j _ => decide_eq_decide.mpr (and_iff_left (hnone j))

/-- **`vprintk` loses nothing exactly when every `%l` goes on with `x` or `d`.** -/
theorem losesNothing_iff (h : IsString mem str fmt) (args : Nat → Arg) (kmsg : Ringbuf)
    (hrounds : fmt.length < rounds) :
    LosesNothing rounds mem str fmt args kmsg ↔ ∀ j, ¬ StrayLong fmt j := by
  obtain ⟨s, hs, hreads, hcopied, -⟩ := vprintk_spec h args kmsg hrounds
  rw [← kept_eq_outside_iff str fmt]
  constructor
  · rintro ⟨s', hs', -, hout⟩
    rw [hs] at hs'
    cases hs'
    exact hcopied.symm.trans hout
  · exact fun heq => ⟨s, hs, hreads, hcopied.trans heq⟩

/-- The constant `text`, at address `0`. -/
def constant (text : List UInt8) : Memory := fun a => text.getD a 0

/-- `"%ld%%lx"`. -/
theorem losesNothing_long : LosesNothing 8 (constant [37, 108, 100, 37, 37, 108, 120]) 0
    [37, 108, 100, 37, 37, 108, 120] (fun _ => ⟨7, none⟩) (ringbufNew 8192) := by
  have hfew : ∀ j < 7, ¬ StrayLong [37, 108, 100, 37, 37, 108, 120] j := by decide
  refine (losesNothing_iff ⟨by decide, by decide⟩ (fun _ => ⟨7, none⟩) (ringbufNew 8192)
    (by decide)).mpr fun j hs => ?_
  exact hfew j (lt_length (by rw [hs.1]; decide)) hs

/-- `"%lu"`: the log gets `"lu"`. -/
theorem losesSome_lu : IsString (constant [37, 108, 117]) 0 [37, 108, 117] ∧
    ¬ LosesNothing 4 (constant [37, 108, 117]) 0 [37, 108, 117] (fun _ => ⟨7, none⟩)
      (ringbufNew 8192) := by
  refine ⟨⟨by decide, by decide⟩, ?_⟩
  rintro ⟨s, hs, -, hout⟩
  have hcopied : (vprintk 4 (constant [37, 108, 117]) 0 (fun _ => ⟨7, none⟩)
      (ringbufNew 8192)).toOption.map (fun s => s.out.filterMap Emitted.copied) =
        some [(1, 108), (2, 117)] := by
    decide
  rw [hs, Outcome.toOption, Option.map_some, hout] at hcopied
  revert hcopied
  decide

end TpeSo.KernelLib
