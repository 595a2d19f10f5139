import Mathlib.Data.Nat.Digits.Defs
import TpeSo.Userland.Strings

namespace TpeSo.Userland

open Lib

/-!
# `lib/stdLibrary.c` — numbers as text

`itoa` takes the digits of a number off its end and turns them round; `atoi` reads them back.

* `itoa`, `utoa`, `xtoa`, `atoi` — the functions;
* `digitLoop_eq`, `atoiLoop_digits` — the loops in terms of the digits of a number;
* `itoa_pos`, `itoa_neg` — the text of a number that can be negated;
* `roundTrips_iff` — **the number is read back**, unless it is the smallest `int`, whose
  negation is itself: it is written as a sign without digits.
-/

variable {mem buffer : Memory} {tmp cs : List UInt8} {n : Int} {base i len str fuel v : Nat}

def minus : UInt8 := 45
def plus : UInt8 := 43

/-- `value % 10 + '0'`. -/
def digitChar (d : Nat) : UInt8 := UInt8.ofNat (d + 48)

/-- The loop that fills `tmp`: the digits of a number, the last one first. -/
def digitLoop (base : Nat) (hbase : 1 < base) (digit : Nat → UInt8) (value : Nat) : List UInt8 :=
  if _ : 0 < value then digit (value % base) :: digitLoop base hbase digit (value / base) else []
termination_by value
decreasing_by exact Nat.div_lt_self ‹0 < value› hbase

/-- The loop that empties `tmp` into the buffer; `i` characters are left. -/
def copyBack (tmp : List UInt8) : Nat → Nat → Memory → Nat × Memory
  | 0, len, buffer => (len, buffer)
  | i + 1, len, buffer => copyBack tmp i (len + 1) (Function.update buffer len (tmp.getD i 0))

/-- The end of the conversions. -/
def writeDigits (tmp : List UInt8) (len : Nat) (buffer : Memory) : Nat × Memory :=
  let r := copyBack tmp tmp.length len buffer
  (r.1, Function.update r.2 r.1 0)

/-- `0` has a digit. -/
def writeZero (buffer : Memory) : Nat × Memory :=
  (1, Function.update (Function.update buffer 0 (digitChar 0)) 1 0)

/-- `itoa`: the value returned and the buffer.  The loop does not run for a value that is
    negative still. -/
def itoa (value : Int) (buffer : Memory) : Nat × Memory :=
  if value = 0 then writeZero buffer
  else
    let neg := value < 0
    let value := if neg then int32 (-value) else value
    let tmp := digitLoop 10 (by decide) digitChar value.toNat
    if neg then writeDigits tmp 1 (Function.update buffer 0 minus)
    else writeDigits tmp 0 buffer

/-- `utoa`. -/
def utoa (value : Nat) (buffer : Memory) : Nat × Memory :=
  if value = 0 then writeZero buffer
  else writeDigits (digitLoop 10 (by decide) digitChar value) 0 buffer

/-- The digits of `xtoa`. -/
def hexChar (d : Nat) : UInt8 := if d < 10 then UInt8.ofNat (d + 48) else UInt8.ofNat (d + 87)

/-- `xtoa`. -/
def xtoa (value : Nat) (buffer : Memory) : Nat × Memory :=
  if value = 0 then writeZero buffer
  else writeDigits (digitLoop 16 (by decide) hexChar value) 0 buffer

def isDigit (c : UInt8) : Bool := 48 ≤ c ∧ c ≤ 57

/-- `res * 10 + (*str - '0')`. -/
def readDigit (res : Int) (c : UInt8) : Int := int32 (res * 10 + ((c.toNat : Int) - 48))

/-- The last loop of `atoi`. -/
def atoiLoop (mem : Memory) : Nat → Nat → Int → Outcome Int
  | 0, _, _ => .hang
  | fuel + 1, str, res =>
    if isDigit (mem str) then atoiLoop mem fuel (str + 1) (readDigit res (mem str)) else .ok res

/-- `atoi`. -/
def atoi (fuel : Nat) (mem : Memory) (str : Nat) : Outcome Int := do
  let str ← skipWhile isBlank mem fuel str
  if mem str = minus then do
    let res ← atoiLoop mem fuel (str + 1) 0
    .ok (int32 (-1 * res))
  else do
    let res ← atoiLoop mem fuel (if mem str = plus then str + 1 else str) 0
    .ok (int32 (1 * res))

/-! ### Digits -/

theorem digitLoop_eq (hbase : 1 < base) (digit : Nat → UInt8) (value : Nat) :
    digitLoop base hbase digit value = (Nat.digits base value).map digit := by
  induction value using Nat.strong_induction_on with
  | _ value ih =>
    rw [digitLoop]
    split
    · rename_i hpos
      rw [Nat.digits_def' hbase hpos, List.map_cons, ih _ (Nat.div_lt_self hpos hbase)]
    · rename_i hzero
      rw [Nat.eq_zero_of_not_pos hzero, Nat.digits_zero, List.map_nil]

theorem digitChar_toNat {d : Nat} (hd : d < 10) : (digitChar d).toNat = d + 48 := by
  rw [digitChar, UInt8.toNat_ofNat']
  exact Nat.mod_eq_of_lt (by omega)

/-- The characters of a number are digits. -/
theorem digit_of_mem (hcs : cs = ((Nat.digits 10 v).map digitChar).reverse) :
    ∀ c ∈ cs, isDigit c = true := by
  intro c hc
  rw [hcs, List.mem_reverse] at hc
  obtain ⟨d, hd, rfl⟩ := List.mem_map.mp hc
  have hlt : d < 10 := Nat.digits_lt_base (by decide) hd
  unfold isDigit
  rw [decide_eq_true_iff, UInt8.le_iff_toNat_le, UInt8.le_iff_toNat_le, digitChar_toNat hlt]
  show 48 ≤ d + 48 ∧ d + 48 ≤ 57
  omega

/-- A digit is neither a `NUL`, nor blank, nor a sign. -/
theorem isDigit.other {c : UInt8} (hc : isDigit c = true) :
    c ≠ 0 ∧ isBlank c = false ∧ c ≠ minus ∧ c ≠ plus := by
  have hlo : 48 ≤ c := (of_decide_eq_true hc).1
  have hne : ∀ d : UInt8, d < 48 → c ≠ d := fun d hd he => by
    subst he
    exact absurd hlo (UInt8.not_le.mpr hd)
  refine ⟨hne 0 (by decide), decide_eq_false ?_, hne minus (by decide), hne plus (by decide)⟩
  rintro (h | h | h)
  · exact hne space (by decide) h
  · exact hne tab (by decide) h
  · exact hne newline (by decide) h

/-- **Digits are read** one by one. -/
theorem atoiLoop_eq : ∀ {cs : List UInt8} {str fuel : Nat} {res : Int}, IsString mem str cs →
    (∀ c ∈ cs, isDigit c = true) → cs.length < fuel →
    atoiLoop mem fuel str res = .ok (cs.foldl readDigit res) := by
  intro cs
  induction cs with
  | nil =>
    intro str fuel res hs _ hfuel
    obtain ⟨fuel, rfl⟩ : ∃ f, fuel = f + 1 := ⟨fuel - 1, by omega⟩
    have hnul : mem str = 0 := hs.nul
    rw [atoiLoop, hnul, if_neg (by decide)]
    rfl
  | cons c cs ih =>
    intro str fuel res hs hcs hfuel
    rw [List.length_cons] at hfuel
    obtain ⟨fuel, rfl⟩ : ∃ f, fuel = f + 1 := ⟨fuel - 1, by omega⟩
    obtain ⟨hc, -, hs'⟩ := hs.head
    rw [atoiLoop, hc, if_pos (hcs c List.mem_cons_self),
      ih hs' (fun d hd => hcs d (List.mem_cons_of_mem _ hd)) (by omega), List.foldl_cons]

/-- The digits of a number that an `int` holds add up to it. -/
theorem foldl_readDigit : ∀ ds : List Nat, (∀ d ∈ ds, d < 10) → Nat.ofDigits 10 ds < 2 ^ 31 →
    (ds.map digitChar).reverse.foldl readDigit 0 = ((Nat.ofDigits 10 ds : Nat) : Int) := by
  intro ds
  -- the last digit that is read is the first of the list
  induction ds with
  | nil => exact fun _ _ => rfl
  | cons d ds ih =>
    intro hds hlt
    have hd := hds d List.mem_cons_self
    rw [Nat.ofDigits_cons] at hlt ⊢
    have hlt : d + 10 * Nat.ofDigits 10 ds < 2 ^ 31 := hlt
    rw [List.map_cons, List.reverse_cons, List.foldl_append,
      ih (fun d hd => hds d (List.mem_cons_of_mem _ hd)) (by omega)]
    show readDigit _ (digitChar d) = _
    rw [readDigit, digitChar_toNat hd, int32_eq (by omega) (by omega)]
    push_cast
    ring

theorem foldl_digits (hv : v < 2 ^ 31) :
    ((Nat.digits 10 v).map digitChar).reverse.foldl readDigit 0 = (v : Int) := by
  have hread := foldl_readDigit (Nat.digits 10 v)
    (fun d hd => Nat.digits_lt_base (by decide) hd) (by rw [Nat.ofDigits_digits]; exact hv)
  rw [Nat.ofDigits_digits] at hread
  exact hread

/-! ### The buffer -/

/-- `tmp` is turned round. -/
theorem copyBack_spec (tmp : List UInt8) (i : Nat) : ∀ (len : Nat) (buffer : Memory),
    i ≤ tmp.length → (copyBack tmp i len buffer).1 = len + i ∧
      (∀ j < len, (copyBack tmp i len buffer).2 j = buffer j) ∧
      Holds (copyBack tmp i len buffer).2 len (tmp.take i).reverse := by
  induction i with
  | zero => exact fun len buffer _ => ⟨rfl, fun _ _ => rfl, trivial⟩
  | succ i ih =>
    intro len buffer hi
    obtain ⟨hlen, hkeep, hholds⟩ := ih (len + 1) (Function.update buffer len (tmp.getD i 0))
      (by omega)
    rw [copyBack, List.take_succ_eq_append_getElem (by omega), List.reverse_append]
    refine ⟨by omega, fun j hj => ?_, ?_, hholds⟩
    · rw [hkeep j (by omega), Function.update_of_ne (by omega)]
    · rw [hkeep len (Nat.lt_succ_self len), Function.update_self, List.getD_eq_getElem?_getD,
        List.getElem?_eq_getElem (by omega), Option.getD_some]

/-- **The text** that ends up in the buffer, behind what was there. -/
theorem writeDigits_spec (tmp pre : List UInt8) (buffer : Memory) (hpre : Holds buffer 0 pre)
    (hnul : 0 ∉ pre ++ tmp.reverse) :
    IsString (writeDigits tmp pre.length buffer).2 0 (pre ++ tmp.reverse) ∧
      (writeDigits tmp pre.length buffer).1 = (pre ++ tmp.reverse).length := by
  obtain ⟨hend, hkeep, hholds⟩ := copyBack_spec tmp tmp.length pre.length buffer (le_refl _)
  rw [List.take_length] at hholds
  have htotal : (pre ++ tmp.reverse).length = pre.length + tmp.length := by
    rw [List.length_append, List.length_reverse]
  have hfront : Holds (copyBack tmp tmp.length pre.length buffer).2 0 (pre ++ tmp.reverse) := by
    rw [holds_append, Nat.zero_add]
    exact ⟨hpre.congr fun x _ hx => hkeep x (by omega), hholds⟩
  unfold writeDigits
  dsimp only
  rw [hend, htotal]
  refine ⟨⟨?_, hnul⟩, rfl⟩
  rw [holds_append]
  refine ⟨hfront.congr (agreeOn_update (.inr (by rw [htotal]; omega))), ?_, trivial⟩
  rw [htotal, Nat.zero_add]
  exact Function.update_self _ _ _

/-! ### The round trip -/

/-- The digits of a number, in reading order. -/
def textOf (v : Nat) : List UInt8 := ((Nat.digits 10 v).map digitChar).reverse

theorem textOf_ne_nil (hv : 0 < v) : textOf v ≠ [] := by
  unfold textOf
  rw [Ne, List.reverse_eq_nil_iff, List.map_eq_nil_iff]
  exact Nat.digits_ne_nil_iff_ne_zero.mpr (by omega)

theorem zero_notMem_of_digits (hcs : ∀ c ∈ cs, isDigit c = true) : 0 ∉ cs :=
  fun hm => (isDigit.other (hcs 0 hm)).1 rfl

/-- The text of zero. -/
theorem writeZero_isString (buffer : Memory) :
    IsString (writeZero buffer).2 0 [digitChar 0] := by
  have hfirst : Holds (Function.update buffer 0 (digitChar 0)) 0 [digitChar 0] :=
    ⟨Function.update_self _ _ _, trivial⟩
  have hnul : (writeZero buffer).2 1 = 0 := by simp only [writeZero, Function.update_self]
  rw [IsString, holds_append]
  exact ⟨⟨hfirst.congr (agreeOn_update (.inr (le_refl _))), hnul, trivial⟩, by decide⟩

/-- The text of a positive number. -/
theorem itoa_pos (hv : 0 < v) (buffer : Memory) : IsString (itoa v buffer).2 0 (textOf v) ∧
    (itoa v buffer).1 = (textOf v).length := by
  have htext := writeDigits_spec ((Nat.digits 10 v).map digitChar) [] buffer trivial
    (zero_notMem_of_digits (digit_of_mem rfl))
  unfold itoa
  dsimp only
  rw [if_neg (by omega), if_neg (by omega), if_neg (by omega), Int.toNat_natCast, digitLoop_eq]
  exact htext

/-- The text of a negative number, other than the smallest one. -/
theorem itoa_neg (hv : 0 < v) (hlt : v < 2 ^ 31) (buffer : Memory) :
    IsString (itoa (-v) buffer).2 0 (minus :: textOf v) ∧
    (itoa (-v) buffer).1 = (minus :: textOf v).length := by
  have hnul : 0 ∉ [minus] ++ textOf v := by
    rw [List.singleton_append, List.mem_cons, not_or]
    exact ⟨by decide, zero_notMem_of_digits (digit_of_mem rfl)⟩
  have htext := writeDigits_spec ((Nat.digits 10 v).map digitChar) [minus]
    (Function.update buffer 0 minus) ⟨Function.update_self _ _ _, trivial⟩ hnul
  unfold itoa
  dsimp only
  rw [if_neg (by omega), if_pos (by omega), if_pos (by omega), Int.neg_neg,
    int32_eq (by omega) (by omega), Int.toNat_natCast, digitLoop_eq]
  exact htext

/-- Digits are read as their number. -/
theorem atoi_digits (hs : IsString mem str cs) (hcs : ∀ c ∈ cs, isDigit c = true) (hne : cs ≠ [])
    (hfuel : cs.length < fuel) :
    atoi fuel mem str = .ok (int32 (1 * cs.foldl readDigit 0)) := by
  obtain ⟨c, cs, rfl⟩ := List.exists_cons_of_ne_nil hne
  obtain ⟨hc, -, -⟩ := hs.head
  obtain ⟨-, hblank, hminus, hplus⟩ := isDigit.other (hcs c List.mem_cons_self)
  have hskip : skipWhile isBlank mem fuel str = .ok str := by
    rw [skipWhile_eq (by decide) hs hfuel, List.takeWhile_cons_of_neg (by simp [hblank])]
    rfl
  unfold atoi
  rw [hskip, Outcome.ok_bind, hc, if_neg hminus, if_neg hplus, atoiLoop_eq hs hcs hfuel,
    Outcome.ok_bind]

/-- Digits behind a sign. -/
theorem atoi_minus (hs : IsString mem str (minus :: cs)) (hcs : ∀ c ∈ cs, isDigit c = true)
    (hfuel : (minus :: cs).length < fuel) :
    atoi fuel mem str = .ok (int32 (-1 * cs.foldl readDigit 0)) := by
  rw [List.length_cons] at hfuel
  obtain ⟨hc, -, hs'⟩ := hs.head
  have hskip : skipWhile isBlank mem fuel str = .ok str := by
    rw [skipWhile_eq (by decide) hs (by rw [List.length_cons]; exact hfuel),
      List.takeWhile_cons_of_neg (by decide)]
    rfl
  unfold atoi
  rw [hskip, Outcome.ok_bind, hc, if_pos rfl, atoiLoop_eq hs' hcs (by omega), Outcome.ok_bind]

/-- The number is written as a string, the length of which is returned, and read back. -/
def RoundTrips (n : Int) (buffer : Memory) : Prop :=
  ∃ s, IsString (itoa n buffer).2 0 s ∧ (itoa n buffer).1 = s.length ∧
    ∀ fuel, s.length < fuel → atoi fuel (itoa n buffer).2 0 = .ok n

theorem roundTrips_zero (buffer : Memory) : RoundTrips 0 buffer := by
  have hdigit : ∀ c ∈ [digitChar 0], isDigit c = true := by
    intro c hc
    rw [List.mem_singleton.mp hc]
    rfl
  refine ⟨[digitChar 0], writeZero_isString buffer, rfl, fun fuel hfuel => ?_⟩
  exact atoi_digits (writeZero_isString buffer) hdigit (List.cons_ne_nil _ _) hfuel

theorem roundTrips_pos (hv : 0 < v) (hlt : v < 2 ^ 31) (buffer : Memory) :
    RoundTrips v buffer := by
  obtain ⟨hs, hlen⟩ := itoa_pos hv buffer
  refine ⟨_, hs, hlen, fun fuel hfuel => ?_⟩
  rw [atoi_digits hs (digit_of_mem rfl) (textOf_ne_nil hv) hfuel, textOf, foldl_digits hlt,
    Int.one_mul, int32_eq (by omega) (by omega)]

theorem roundTrips_neg (hv : 0 < v) (hlt : v < 2 ^ 31) (buffer : Memory) :
    RoundTrips (-v) buffer := by
  obtain ⟨hs, hlen⟩ := itoa_neg hv hlt buffer
  have hneg : int32 (-1 * (v : Int)) = -v := by
    unfold int32
    rw [Int.bmod_eq_of_le] <;> omega
  refine ⟨_, hs, hlen, fun fuel hfuel => ?_⟩
  rw [atoi_minus hs (digit_of_mem rfl) hfuel, textOf, foldl_digits hlt, hneg]

/-- The negation of the smallest `int` is itself, and its loop does not run. -/
theorem itoa_min (buffer : Memory) : IsString (itoa (-2 ^ 31) buffer).2 0 [minus] := by
  have htext := writeDigits_spec [] [minus] (Function.update buffer 0 minus)
    ⟨Function.update_self _ _ _, trivial⟩ (by decide)
  have hmin : (int32 (- -2 ^ 31)).toNat = 0 := by decide
  unfold itoa
  dsimp only
  rw [if_neg (by decide), if_pos (by decide), if_pos (by decide), hmin, digitLoop,
    dif_neg (Nat.lt_irrefl 0)]
  exact htext.1

/-- The sign alone is read as 0. -/
theorem not_roundTrips_min (buffer : Memory) : ¬ RoundTrips (-2 ^ 31) buffer := by
  rintro ⟨s, -, -, hback⟩
  have hread : atoi (s.length + 2) _ 0 = _ := atoi_minus (itoa_min buffer)
    (fun c hc => nomatch hc) (by rw [List.length_singleton]; omega)
  rw [hback (s.length + 2) (by omega)] at hread
  exact absurd (Outcome.ok.inj hread) (by decide)

/-- **The number is read back**, unless it is the smallest `int`. -/
theorem roundTrips_iff (hlo : -2 ^ 31 ≤ n) (hhi : n < 2 ^ 31) (buffer : Memory) :
    RoundTrips n buffer ↔ n ≠ -2 ^ 31 := by
  constructor
  · rintro h rfl
    exact not_roundTrips_min buffer h
  · intro hne
    obtain ⟨v, rfl | rfl⟩ := Int.eq_nat_or_neg n
    · rcases Nat.eq_zero_or_pos v with rfl | hv
      · exact roundTrips_zero buffer
      · exact roundTrips_pos hv (by omega) buffer
    · rcases Nat.eq_zero_or_pos v with rfl | hv
      · exact roundTrips_zero buffer
      · exact roundTrips_neg hv (by omega) buffer

theorem roundTrips_seven : RoundTrips (-7) (fun _ => 0) ↔ (-7 : Int) ≠ -2 ^ 31 :=
  roundTrips_iff (by decide) (by decide) (fun _ => 0)

/-- The smallest `int` is not read back. -/
theorem min_not_read : ¬ RoundTrips (-2147483648) fun _ => 0 := by
  rw [show (-2147483648 : Int) = -2 ^ 31 by decide]
  exact not_roundTrips_min _

end TpeSo.Userland
