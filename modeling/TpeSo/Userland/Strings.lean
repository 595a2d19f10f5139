import TpeSo.Lib.Bytes
import TpeSo.Lib.Outcome
import TpeSo.Lib.Pieces

namespace TpeSo.Userland

open Lib

/-!
# `lib/stdLibrary.c` — strings in memory

The string functions of the user side walk over bytes of memory until they find a `NUL`.  A
loop is given `fuel` rounds and hangs when it needs more.

* `skipWhile`, `strLen`, `trim`, `strNcpy` — the functions, with what they store;
* `IsString` — a string stands at an address;
* `skipWhile_eq`, `strLen_eq_ok`, `trim_eq`, `strNcpy_isString` — **what each of them does to a
  string**.
-/

variable {mem : Memory} {p : UInt8 → Bool} {c : UInt8} {s t : List UInt8}
  {str fuel n i x : Nat}

def space : UInt8 := 32
def tab : UInt8 := 9
def newline : UInt8 := 10

/-- The value of an `int`. -/
def int32 (i : Int) : Int := i.bmod (2 ^ 32)

/-- A loop that moves a pointer on as long as the byte there passes a test. -/
def skipWhile (test : UInt8 → Bool) (mem : Memory) : Nat → Nat → Outcome Nat
  | 0, _ => .hang
  | fuel + 1, str => if test (mem str) then skipWhile test mem fuel (str + 1) else .ok str

/-- The loop of `str_len`, with the length so far. -/
def strLenLoop (mem : Memory) : Nat → Nat → Int → Outcome Int
  | 0, _, _ => .hang
  | fuel + 1, str, len =>
    if mem str ≠ 0 then strLenLoop mem fuel (str + 1) (int32 (len + 1)) else .ok len

/-- `str_len`. -/
def strLen (fuel : Nat) (mem : Memory) (str : Nat) : Outcome Int := strLenLoop mem fuel str 0

/-- What `trim` and `atoi` take for white space. -/
def isBlank (c : UInt8) : Bool := c = space ∨ c = tab ∨ c = newline

/-- The loop of `trim` that comes back from the end. -/
def trimLoop (mem : Memory) (str : Nat) : Nat → Int → Outcome Int
  | 0, _ => .hang
  | fuel + 1, fin =>
    if str < fin ∧ isBlank (mem fin.toNat) then trimLoop mem str fuel (fin - 1) else .ok fin

/-- What `trim` returns, what becomes of the memory, and where it stores a byte. -/
structure Trimmed where
  str : Nat
  mem : Memory
  stored : Nat

/-- `trim`. -/
def trim (fuel : Nat) (mem : Memory) (str : Nat) : Outcome Trimmed := do
  let str ← skipWhile isBlank mem fuel str
  let len ← strLen fuel mem str
  let fin ← trimLoop mem str fuel (str + len - 1)
  .ok ⟨str, Function.update mem (fin + 1).toNat 0, (fin + 1).toNat⟩

/-- The loop of `str_ncpy` from index `i` on, with `n` characters to go; with the indices at
    which `dest` is written. -/
def strNcpyLoop (mem : Memory) (src : Nat) : Nat → Nat → Memory → Memory × List Nat
  | 0, i, dest => (Function.update dest i 0, [i])
  | n + 1, i, dest =>
    if mem (src + i) ≠ 0 then
      let r := strNcpyLoop mem src n (i + 1) (Function.update dest i (mem (src + i)))
      (r.1, i :: r.2)
    else (Function.update dest i 0, [i])

/-- `str_ncpy`. -/
def strNcpy (mem : Memory) (dest : Memory) (src n : Nat) : Memory × List Nat :=
  strNcpyLoop mem src n 0 dest

/-! ### Strings -/

/-- The string `s` stands at `str`, and a `NUL` behind it. -/
def IsString (mem : Memory) (str : Nat) (s : List UInt8) : Prop :=
  Holds mem str (s ++ [0]) ∧ 0 ∉ s

theorem int32_eq {i : Int} (hlo : 0 ≤ i) (hhi : i < 2 ^ 31) : int32 i = i := by
  unfold int32
  rw [Int.bmod_eq_of_le] <;> omega

theorem agreeOn_update (h : x < str ∨ str + n ≤ x) :
    AgreeOn str n mem (Function.update mem x c) :=
  fun _ hlo hhi => Function.update_of_ne (by omega) _ _

/-- The byte behind a prefix. -/
theorem holds_head (h : Holds mem str (s ++ c :: t)) : mem (str + s.length) = c :=
  (holds_append.mp h).2.1

namespace IsString

theorem nul (h : IsString mem str s) : mem (str + s.length) = 0 := holds_head h.1

/-- A part of the string at its end. -/
theorem of_append (h : IsString mem str (s ++ t)) : IsString mem (str + s.length) t := by
  have hh := h.1
  rw [List.append_assoc, holds_append] at hh
  exact ⟨hh.2, fun hm => h.2 (List.mem_append_right _ hm)⟩

theorem head (h : IsString mem str (c :: s)) : mem str = c ∧ c ≠ 0 ∧ IsString mem (str + 1) s :=
  ⟨h.1.1, fun hc => h.2 (hc ▸ List.mem_cons_self), h.1.2, fun hm => h.2 (List.mem_cons_of_mem _ hm)⟩

/-- A byte is stored elsewhere. -/
theorem update (h : IsString mem str s) (hx : x < str ∨ str + s.length < x) :
    IsString (Function.update mem x c) str s := by
  refine ⟨h.1.congr (agreeOn_update ?_), h.2⟩
  rw [List.length_append, List.length_singleton]
  omega

/-- A string is cut by a `NUL`. -/
theorem cut (h : IsString mem str (s ++ t)) :
    IsString (Function.update mem (str + s.length) 0) str s := by
  refine ⟨?_, fun hm => h.2 (List.mem_append_left _ hm)⟩
  have hh := h.1
  rw [List.append_assoc, holds_append] at hh
  rw [holds_append]
  refine ⟨hh.1.congr (agreeOn_update (.inr (le_refl _))), ?_, trivial⟩
  exact Function.update_self _ _ _

end IsString

/-- **A scan** stops behind the longest prefix that passes. -/
theorem skipWhile_eq (h0 : p 0 = false) {s : List UInt8} : ∀ {str fuel : Nat},
    IsString mem str s → s.length < fuel →
    skipWhile p mem fuel str = .ok (str + (s.takeWhile p).length) := by
  induction s with
  | nil =>
    intro str fuel hs hfuel
    obtain ⟨fuel, rfl⟩ : ∃ f, fuel = f + 1 := ⟨fuel - 1, by omega⟩
    have hnul : mem str = 0 := hs.nul
    rw [skipWhile, hnul, h0]
    rfl
  | cons c s ih =>
    intro str fuel hs hfuel
    rw [List.length_cons] at hfuel
    obtain ⟨fuel, rfl⟩ : ∃ f, fuel = f + 1 := ⟨fuel - 1, by omega⟩
    obtain ⟨hc, -, hs'⟩ := hs.head
    rw [skipWhile, hc]
    cases hp : p c with
    | true =>
      rw [if_pos rfl, ih hs' (by omega), List.takeWhile_cons_of_pos hp, List.length_cons]
      congr 1
      omega
    | false =>
      rw [if_neg Bool.false_ne_true, List.takeWhile_cons_of_neg (by simp [hp])]
      rfl

theorem strLenLoop_eq {s : List UInt8} : ∀ {str fuel k : Nat}, IsString mem str s →
    s.length < fuel → k + s.length < 2 ^ 31 →
    strLenLoop mem fuel str k = .ok (k + s.length : Nat) := by
  induction s with
  | nil =>
    intro str fuel k hs hfuel _
    obtain ⟨fuel, rfl⟩ : ∃ f, fuel = f + 1 := ⟨fuel - 1, by omega⟩
    have hnul : mem str = 0 := hs.nul
    rw [strLenLoop, if_neg (not_not.mpr hnul)]
    rfl
  | cons c s ih =>
    intro str fuel k hs hfuel hlen
    rw [List.length_cons] at hfuel hlen
    obtain ⟨fuel, rfl⟩ : ∃ f, fuel = f + 1 := ⟨fuel - 1, by omega⟩
    obtain ⟨hc, hne, hs'⟩ := hs.head
    have hnext : int32 ((k : Int) + 1) = ((k + 1 : Nat) : Int) :=
      int32_eq (by omega) (by omega)
    rw [strLenLoop, hc, if_pos hne, hnext, ih hs' (by omega) (by omega), List.length_cons,
      Nat.add_right_comm, Nat.add_assoc]

/-- **The length**, as far as an `int` goes. -/
theorem strLen_eq_ok (hs : IsString mem str s) (hfuel : s.length < fuel)
    (hlen : s.length < 2 ^ 31) : strLen fuel mem str = .ok s.length := by
  have hloop := strLenLoop_eq (k := 0) hs hfuel (by omega)
  rw [Nat.zero_add] at hloop
  exact hloop

/-- The loop from the end stops at the last byte that is not blank. -/
theorem trimLoop_eq {t : List UInt8} : ∀ {fuel : Nat},
    Holds mem str (c :: t) → t.length < fuel →
    trimLoop mem str fuel ((str + t.length : Nat) : Int) =
      .ok ((str + (t.rdropWhile isBlank).length : Nat) : Int) := by
  induction t using List.reverseRecOn with
  | nil =>
    intro fuel _ hfuel
    obtain ⟨fuel, rfl⟩ : ∃ f, fuel = f + 1 := ⟨fuel - 1, by omega⟩
    rw [trimLoop, if_neg]
    · rfl
    · rintro ⟨hlt, -⟩
      exact absurd hlt (by rw [List.length_nil]; omega)
  | append_singleton t d ih =>
    intro fuel hs hfuel
    rw [List.length_append, List.length_singleton] at hfuel ⊢
    obtain ⟨fuel, rfl⟩ : ∃ f, fuel = f + 1 := ⟨fuel - 1, by omega⟩
    have hd : mem (str + (t.length + 1)) = d := holds_head (s := c :: t) (t := []) hs
    have hfront : Holds mem str (c :: t) := (holds_append (l := c :: t).mp hs).1
    have hback : ((str + (t.length + 1) : Nat) : Int) - 1 = ((str + t.length : Nat) : Int) := by
      omega
    rw [trimLoop, Int.toNat_natCast, hd, hback]
    cases hp : isBlank d with
    | true =>
      rw [if_pos ⟨by omega, rfl⟩, ih hfront (by omega), List.rdropWhile_concat_pos _ _ _ hp]
    | false =>
      rw [if_neg (fun h => Bool.false_ne_true h.2), List.rdropWhile_concat_neg _ _ _ (by simp [hp]),
        List.length_append, List.length_singleton]

/-- **`trim`** leaves the trimmed string, and stores one byte, inside the string or at its end. -/
theorem trim_eq (hs : IsString mem str s) (hfuel : s.length < fuel) (hlen : s.length < 2 ^ 31) :
    ∃ r, trim fuel mem str = .ok r ∧ IsString r.mem r.str (trimmed isBlank s) ∧
      (str ≤ r.str ∧ r.str + (trimmed isBlank s).length ≤ str + s.length) ∧
      str ≤ r.stored ∧ r.stored ≤ str + s.length := by
  have happ := List.takeWhile_append_dropWhile (p := isBlank) (l := s)
  have hsum := congrArg List.length happ
  rw [List.length_append] at hsum
  have hs' := hs
  rw [← happ] at hs'
  have hrest := hs'.of_append
  have hskip : skipWhile isBlank mem fuel str = .ok (str + (s.takeWhile isBlank).length) :=
    skipWhile_eq (by decide) hs hfuel
  have hstrLen := strLen_eq_ok hrest (by omega : _ < fuel) (by omega)
  unfold trim
  rw [hskip, Outcome.ok_bind, hstrLen, Outcome.ok_bind]
  generalize hstart : str + (s.takeWhile isBlank).length = start at *
  unfold trimmed
  cases hd : s.dropWhile isBlank with
  | nil =>
    -- nothing is left, and the byte stored is the `NUL` itself
    rw [hd] at hrest hsum
    rw [List.length_nil] at hsum
    obtain ⟨fuel, rfl⟩ : ∃ f, fuel = f + 1 := ⟨fuel - 1, by omega⟩
    have hstop : trimLoop mem start (fuel + 1) ((start : Int) + ([] : List UInt8).length - 1) =
        .ok ((start : Int) - 1) := by
      rw [trimLoop, if_neg]
      · simp
      · rintro ⟨hlt, -⟩
        rw [List.length_nil] at hlt
        omega
    rw [hstop, Outcome.ok_bind, Int.sub_add_cancel, Int.toNat_natCast]
    refine ⟨_, rfl, ?_, ?_, ?_⟩
    · exact IsString.cut (s := []) (t := []) hrest
    · show str ≤ start ∧ start + 0 ≤ str + s.length
      omega
    · show str ≤ start ∧ start ≤ str + s.length
      omega
  | cons c t =>
    -- the first character stops the loop from behind at the latest
    rw [hd] at hrest hsum
    have hc : isBlank c = false := not_of_dropWhile_eq_cons hd
    have hfin : (start : Int) + (c :: t).length - 1 = ((start + t.length : Nat) : Int) := by
      rw [List.length_cons]
      omega
    rw [List.length_cons] at hsum
    have hholds : Holds mem start (c :: t) := (holds_append.mp hrest.1).1
    rw [hfin, trimLoop_eq hholds (by omega), Outcome.ok_bind]
    obtain ⟨tail, htail⟩ := List.rdropWhile_prefix (p := isBlank) t
    have hle := congrArg List.length htail
    rw [List.length_append] at hle
    have hstored : (((start + (t.rdropWhile isBlank).length : Nat) : Int) + 1).toNat =
        start + (c :: t.rdropWhile isBlank).length := by
      rw [List.length_cons]
      omega
    rw [rdropWhile_cons hc, hstored]
    refine ⟨_, rfl, ?_, ?_, ?_⟩
    · rw [← htail, ← List.cons_append] at hrest
      exact hrest.cut
    · show str ≤ start ∧ start + (c :: t.rdropWhile isBlank).length ≤ str + s.length
      rw [List.length_cons]
      omega
    · show str ≤ start + (c :: t.rdropWhile isBlank).length ∧
        start + (c :: t.rdropWhile isBlank).length ≤ str + s.length
      rw [List.length_cons]
      omega

/-! ### `str_ncpy` -/

theorem strNcpyLoop_spec (n : Nat) : ∀ (dest : Memory) {s : List UInt8} {i : Nat},
    IsString mem (str + i) s →
    Holds (strNcpyLoop mem str n i dest).1 i (s.take n ++ [0]) ∧
    (∀ j < i, (strNcpyLoop mem str n i dest).1 j = dest j) ∧
    ∀ j ∈ (strNcpyLoop mem str n i dest).2, j ≤ i + n := by
  -- the loop ends here
  have hend : ∀ (i : Nat) (dest : Memory), Holds (Function.update dest i 0) i [0] ∧
      (∀ j < i, Function.update dest i 0 j = dest j) ∧ ∀ j ∈ [i], j ≤ i := fun i dest =>
    ⟨⟨Function.update_self _ _ _, trivial⟩, fun j hj => Function.update_of_ne (Nat.ne_of_lt hj) _ _,
      fun j hj => Nat.le_of_eq (List.mem_singleton.mp hj)⟩
  induction n with
  | zero => exact fun _ _ _ _ => hend _ _
  | succ n ih =>
    intro dest s i hs
    obtain ⟨h1, h2, h3⟩ := hend i dest
    cases s with
    | nil =>
      have hnul : mem (str + i) = 0 := hs.nul
      rw [strNcpyLoop, if_neg (not_not.mpr hnul)]
      exact ⟨h1, h2, fun j hj => (h3 j hj).trans (Nat.le_add_right _ _)⟩
    | cons c s =>
      obtain ⟨hc, hne, hs'⟩ := hs.head
      obtain ⟨hcopy, hkeep, hin⟩ := ih (Function.update dest i c) (i := i + 1) hs'
      rw [strNcpyLoop, hc, if_pos hne]
      refine ⟨⟨?_, hcopy⟩, fun j hj => ?_, fun j hj => ?_⟩
      · exact (hkeep i (Nat.lt_succ_self i)).trans (Function.update_self _ _ _)
      · exact (hkeep j (by omega)).trans (Function.update_of_ne (by omega) _ _)
      · rcases List.mem_cons.mp hj with rfl | hj
        · exact Nat.le_add_right _ _
        · exact (hin j hj).trans (by omega)

/-- **`str_ncpy`** copies the string or its first `n` characters, and writes no further than
    index `n`. -/
theorem strNcpy_isString (hs : IsString mem str s) (dest : Memory) (n : Nat) :
    IsString (strNcpy mem dest str n).1 0 (s.take n) ∧
    ∀ j ∈ (strNcpy mem dest str n).2, j ≤ n := by
  obtain ⟨hcopy, -, hin⟩ := strNcpyLoop_spec n dest (i := 0) hs
  refine ⟨⟨hcopy, fun hm => hs.2 (List.mem_of_mem_take hm)⟩, fun j hj => ?_⟩
  have hle := hin j hj
  rwa [Nat.zero_add] at hle

end TpeSo.Userland
