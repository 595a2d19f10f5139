import Mathlib.Algebra.Order.Ring.Nat
import Mathlib.Logic.Function.Basic

namespace TpeSo.Lib

/-!
# Byte-addressed memory

* `load`, `store` — numbers of `n` bytes, the lowest byte first;
* `load_store_self`, `load_store_apart` — what is read back after a store;
* `AgreeOn` — two memories with the same bytes in a range;
* `Holds`, `bytesOf` — a list of bytes that stands at an address, and the bytes of a number.
-/

/-- The contents of every address. -/
abbrev Memory := Nat → UInt8

variable {mem mem' : Memory} {a b i n m v x : Nat}

/-- The number whose `n` bytes stand at `a`, the lowest first. -/
def load (mem : Memory) (a : Nat) : Nat → Nat
  | 0 => 0
  | n + 1 => (mem a).toNat + 256 * load mem (a + 1) n

/-- Write the lowest `n` bytes of a number at `a`. -/
def store (mem : Memory) (a : Nat) : Nat → Nat → Memory
  | 0, _ => mem
  | n + 1, v => store (Function.update mem a (UInt8.ofNat v)) (a + 1) n (v / 256)

theorem load_lt : ∀ (n a : Nat) (mem : Memory), load mem a n < 256 ^ n := by
  intro n
  induction n with
  | zero => exact fun _ _ => Nat.one_pos
  | succ n ih =>
    intro a mem
    have hlow : (mem a).toNat < 256 := (mem a).toNat_lt
    have hhigh := ih (a + 1) mem
    rw [load, Nat.pow_succ']
    omega

/-- The bytes from `a` on, `n` of them, are the same. -/
def AgreeOn (a n : Nat) (mem mem' : Memory) : Prop := ∀ x, a ≤ x → x < a + n → mem' x = mem x

namespace AgreeOn

theorem mono (h : AgreeOn a n mem mem') (hlo : a ≤ b) (hhi : b + m ≤ a + n) :
    AgreeOn b m mem mem' :=
  fun x hx hxm => h x (le_trans hlo hx) (lt_of_lt_of_le hxm hhi)

end AgreeOn

/-- What is read depends on the bytes read only. -/
theorem load_congr : ∀ {n a : Nat}, AgreeOn a n mem mem' → load mem' a n = load mem a n := by
  intro n
  induction n with
  | zero => exact fun _ => rfl
  | succ n ih =>
    intro a h
    rw [load, load, h a (le_refl a) (by omega), ih (h.mono (by omega) (by omega))]

/-- A store leaves the other bytes alone. -/
theorem store_of_notMem : ∀ {n a v : Nat} {mem : Memory}, x < a ∨ a + n ≤ x →
    store mem a n v x = mem x := by
  intro n
  induction n with
  | zero => exact fun _ => rfl
  | succ n ih =>
    intro a v mem h
    rw [store, ih (by omega), Function.update_of_ne (by omega)]

theorem agreeOn_store (h : a + n ≤ b ∨ b + m ≤ a) : AgreeOn b m mem (store mem a n v) :=
  fun _ hlo hhi => store_of_notMem (by omega)

/-- A number is read back, as far as its bytes go. -/
theorem load_store_self : ∀ (n a v : Nat) (mem : Memory),
    load (store mem a n v) a n = v % 256 ^ n := by
  intro n
  induction n with
  | zero =>
    intro a v mem
    rw [load, pow_zero, Nat.mod_one]
  | succ n ih =>
    intro a v mem
    have hbyte : (store (Function.update mem a (UInt8.ofNat v)) (a + 1) n (v / 256) a).toNat =
        v % 256 := by
      rw [store_of_notMem (.inl (Nat.lt_succ_self a)), Function.update_self]
      exact UInt8.toNat_ofNat'
    rw [load, store, hbyte, ih, Nat.pow_succ', Nat.mod_mul]

theorem load_store_of_lt (h : v < 256 ^ n) (a : Nat) (mem : Memory) :
    load (store mem a n v) a n = v := by
  rw [load_store_self, Nat.mod_eq_of_lt h]

/-- A store elsewhere is not seen. -/
theorem load_store_apart (h : a + n ≤ b ∨ b + m ≤ a) : load (store mem a n v) b m = load mem b m :=
  load_congr (agreeOn_store h)

/-- Storing what was loaded copies the bytes. -/
theorem store_load : ∀ {n i a : Nat} {mem : Memory}, i < n →
    store mem a n (load mem' b n) (a + i) = mem' (b + i) := by
  intro n
  induction n generalizing b with
  | zero => exact fun hi => absurd hi (Nat.not_lt_zero _)
  | succ n ih =>
    intro i a mem hi
    have hlow : UInt8.ofNat (load mem' b (n + 1)) = mem' b := by
      apply UInt8.toNat_inj.mp
      rw [UInt8.toNat_ofNat', load, Nat.add_mul_mod_self_left]
      exact Nat.mod_eq_of_lt (mem' b).toNat_lt
    have hhigh : load mem' b (n + 1) / 256 = load mem' (b + 1) n := by
      have hlt : (mem' b).toNat < 256 := (mem' b).toNat_lt
      rw [load, Nat.add_mul_div_left _ _ (by decide), Nat.div_eq_of_lt hlt, Nat.zero_add]
    rw [store, hlow, hhigh]
    cases i with
    | zero =>
      have hkeep : store (Function.update mem a (mem' b)) (a + 1) n (load mem' (b + 1) n) a =
          Function.update mem a (mem' b) a := store_of_notMem (.inl (Nat.lt_succ_self a))
      exact hkeep.trans (Function.update_self _ _ _)
    | succ i =>
      have hshift : ∀ c : Nat, c + (i + 1) = c + 1 + i := fun c => by omega
      rw [hshift a, hshift b]
      exact ih (by omega)

/-! ### Lists of bytes -/

/-- The bytes `l` stand at `a`. -/
def Holds (mem : Memory) : Nat → List UInt8 → Prop
  | _, [] => True
  | a, c :: l => mem a = c ∧ Holds mem (a + 1) l

instance decidableHolds (mem : Memory) : ∀ (a : Nat) (l : List UInt8), Decidable (Holds mem a l)
  | _, [] => inferInstanceAs (Decidable True)
  | a, c :: l =>
    have := decidableHolds mem (a + 1) l
    inferInstanceAs (Decidable (mem a = c ∧ Holds mem (a + 1) l))

/-- The lowest `n` bytes of a number, the lowest first. -/
def bytesOf : Nat → Nat → List UInt8
  | 0, _ => []
  | n + 1, v => UInt8.ofNat v :: bytesOf n (v / 256)

@[simp] theorem length_bytesOf : ∀ n v : Nat, (bytesOf n v).length = n
  | 0, _ => rfl
  | n + 1, v => congrArg (· + 1) (length_bytesOf n (v / 256))

theorem holds_append : ∀ {l l' : List UInt8} {a : Nat},
    Holds mem a (l ++ l') ↔ Holds mem a l ∧ Holds mem (a + l.length) l' := by
  intro l l'
  induction l with
  | nil => exact ⟨fun h => ⟨trivial, h⟩, fun h => h.2⟩
  | cons c l ih =>
    intro a
    have hlen : a + (c :: l).length = a + 1 + l.length := by
      rw [List.length_cons]
      omega
    rw [List.cons_append, Holds, Holds, ih, hlen, and_assoc]

theorem Holds.congr : ∀ {l : List UInt8} {a : Nat}, Holds mem a l → AgreeOn a l.length mem mem' →
    Holds mem' a l := by
  intro l
  induction l with
  | nil => exact fun _ _ => trivial
  | cons c l ih =>
    intro a h hsame
    rw [List.length_cons] at hsame
    exact ⟨(hsame a (le_refl a) (by omega)).trans h.1, ih h.2 (hsame.mono (by omega) (by omega))⟩

/-- The bytes of a list, by index. -/
theorem holds_getD (l : List UInt8) (d : UInt8) : Holds (fun i => l.getD i d) 0 l := by
  have hfrom : ∀ (front l : List UInt8),
      Holds (fun i => (front ++ l).getD i d) front.length l := by
    intro front l
    induction l generalizing front with
    | nil => trivial
    | cons c l ih =>
      have hnext := ih (front ++ [c])
      rw [List.append_assoc, List.length_append] at hnext
      refine ⟨?_, hnext⟩
      show (front ++ c :: l).getD front.length d = c
      simp
  exact hfrom [] l

/-- A byte of a list, by index. -/
theorem Holds.getD : ∀ {l : List UInt8} {a i : Nat}, Holds mem a l → i < l.length →
    ∀ d, mem (a + i) = l.getD i d := by
  intro l
  induction l with
  | nil => exact fun _ hi => absurd hi (Nat.not_lt_zero _)
  | cons c l ih =>
    intro a i h hi d
    cases i with
    | zero => exact h.1
    | succ i =>
      rw [Nat.add_comm i 1, ← Nat.add_assoc, Nat.add_comm 1 i]
      exact ih h.2 (Nat.lt_of_succ_lt_succ hi) d

/-- Bytes that were copied stand at the new place. -/
theorem Holds.copy : ∀ {l : List UInt8} {a b : Nat}, Holds mem b l →
    (∀ i < l.length, mem' (a + i) = mem (b + i)) → Holds mem' a l := by
  intro l
  induction l with
  | nil => exact fun _ _ => trivial
  | cons c l ih =>
    intro a b h hcopy
    refine ⟨(hcopy 0 (Nat.succ_pos _)).trans h.1, ih h.2 fun i hi => ?_⟩
    have hnext := hcopy (i + 1) (Nat.succ_lt_succ hi)
    rwa [← Nat.add_assoc, ← Nat.add_assoc, Nat.add_right_comm, Nat.add_right_comm b] at hnext

/-- The bytes of a number are read as that number. -/
theorem Holds.load : ∀ {n v a : Nat}, Holds mem a (bytesOf n v) → load mem a n = v % 256 ^ n := by
  intro n
  induction n with
  | zero =>
    intro v a _
    rw [Lib.load, pow_zero, Nat.mod_one]
  | succ n ih =>
    intro v a h
    rw [Lib.load, h.1, ih h.2, Nat.pow_succ', Nat.mod_mul]
    rfl

end TpeSo.Lib
