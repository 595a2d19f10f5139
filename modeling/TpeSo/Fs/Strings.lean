import Mathlib.Data.List.TakeWhile
import TpeSo.Kernel.Fs

namespace TpeSo

/-!
# Programs — the strings in memory

What the string functions of `lib.c` make of the bytes at a pointer depends on the bytes before
the first `NUL` only.

* `cstr` — the string the memory at a pointer holds;
* `strCmp_eq_zero`, `strLen_eq` — `str_cmp` and `str_len` in terms of it;
* `cstr_copyName` — a name that fits is copied whole.
-/

/-- The string that the memory at a pointer holds. -/
def cstr (bytes : List UInt8) : List UInt8 := bytes.takeWhile (· ≠ 0)

theorem cstr_nil : cstr [] = [] := rfl

theorem cstr_zero (s : List UInt8) : cstr (0 :: s) = [] := by simp [cstr]

theorem cstr_cons {a : UInt8} (h : a ≠ 0) (s : List UInt8) : cstr (a :: s) = a :: cstr s := by
  simp [cstr, h]

theorem ne_zero_of_mem_cstr {a : UInt8} {s : List UInt8} (h : a ∈ cstr s) : a ≠ 0 := by
  simpa using List.mem_takeWhile_imp h

/-- A string that ends in `NUL`s. -/
theorem cstr_append {s t : List UInt8} (hs : ∀ a ∈ s, a ≠ 0) (ht : cstr t = []) :
    cstr (s ++ t) = s := by
  induction s with
  | nil => exact ht
  | cons a s ih =>
    rw [List.cons_append, cstr_cons (hs a List.mem_cons_self),
      ih fun b hb => hs b (List.mem_cons_of_mem a hb)]

theorem strLen_eq (s : List UInt8) : strLen s = (cstr s).length := by
  induction s with
  | nil => rfl
  | cons a s ih =>
    by_cases ha : a = 0
    · subst ha
      rw [cstr_zero]
      rfl
    · rw [strLen, if_pos ha, cstr_cons ha, ih, List.length_cons]

/-- Two strings differ at their first bytes, or one of them is at its end. -/
theorem cstr_eq_cons_iff {a : UInt8} (ha : a ≠ 0) {s t : List UInt8} :
    a :: cstr s = cstr t ↔ a = t.headD 0 ∧ cstr s = cstr t.tail := by
  cases t with
  | nil => simp [cstr_nil, ha]
  | cons b t =>
    by_cases hb : b = 0
    · subst hb
      simp [cstr_zero, ha]
    · simp [cstr_cons hb]

theorem cstr_eq_nil_iff {t : List UInt8} : cstr t = [] ↔ t.headD 0 = 0 := by
  cases t with
  | nil => simp [cstr_nil]
  | cons b t =>
    by_cases hb : b = 0
    · subst hb
      simp [cstr_zero]
    · simp [cstr_cons hb, hb]

/-- **`str_cmp`** finds two strings equal exactly when they are. -/
theorem strCmp_eq_zero (s : List UInt8) : ∀ t, strCmp s t = 0 ↔ cstr s = cstr t := by
  have hdiff : ∀ a b : UInt8, (a.toNat : Int) - (b.toNat : Int) = 0 ↔ a = b := by
    intro a b
    rw [sub_eq_zero, Int.natCast_inj]
    exact UInt8.toNat_inj
  induction s with
  | nil =>
    intro t
    rw [strCmp, cstr_nil, eq_comm (a := ([] : List UInt8)), cstr_eq_nil_iff]
    exact (hdiff 0 (t.headD 0)).trans eq_comm
  | cons a s ih =>
    intro t
    by_cases ha : a = 0
    · subst ha
      rw [strCmp, if_neg (fun h => h.1 rfl), hdiff, cstr_zero, eq_comm (a := ([] : List UInt8)),
        cstr_eq_nil_iff, eq_comm]
    · rw [cstr_cons ha, cstr_eq_cons_iff ha, strCmp]
      by_cases hab : a = t.headD 0
      · rw [if_pos ⟨ha, hab⟩, ih]
        exact (and_iff_right hab).symm
      · rw [if_neg fun h => hab h.2, hdiff]
        exact ⟨fun h => absurd h hab, fun h => absurd h.1 hab⟩

theorem cstr_replicate_zero (n : Nat) (t : List UInt8) (ht : cstr t = []) :
    cstr (List.replicate n 0 ++ t) = [] := by
  cases n with
  | zero => exact ht
  | succ n => exact cstr_zero _

/-- **A name that fits** is copied whole. -/
theorem cstr_copyName {s : List UInt8} (h : (cstr s).length < maxFileNameLen) :
    cstr (copyName s) = cstr s := by
  have htake : (s.takeWhile (· ≠ 0)).take (maxFileNameLen - 1) = cstr s :=
    List.take_of_length_le (Nat.le_sub_one_of_lt h)
  unfold copyName strNcpy
  dsimp only
  rw [htake, List.append_assoc]
  exact cstr_append (fun a ha => ne_zero_of_mem_cstr ha) (cstr_replicate_zero _ _ (cstr_zero []))

end TpeSo
