import Mathlib.Data.Nat.Basic

namespace TpeSo.Lib

/-!
# Places around a circle

`n` places in a circle, numbered from `0`.  Places join and leave behind the last one, so the
first and the last place are the ones whose neighbours change.

* `left`, `right`, `Beside` — the neighbours;
* `Apart` — no two neighbours are in a set; `Apart.insert`, `Apart.grow`, `Apart.shrink`;
* `Served` — everybody who waits has a neighbour in a set; `Served.grow`, `Served.shrink`.
-/

namespace Circle

variable {n i j : Nat} {W W' D D' : Nat → Prop}

def right (n i : Nat) : Nat := (i + 1) % n

def left (n i : Nat) : Nat := (i + n - 1) % n

/-- One is a neighbour of the other. -/
def Beside (n i j : Nat) : Prop := j = left n i ∨ j = right n i

/-! ### Neighbours -/

theorem right_eq (h : i < n) : right n i = if i + 1 = n then 0 else i + 1 := by
  unfold right
  split
  · next hl => rw [hl, Nat.mod_self]
  · exact Nat.mod_eq_of_lt (by omega)

theorem left_eq (h : i < n) : left n i = if i = 0 then n - 1 else i - 1 := by
  unfold left
  split
  · next h0 => rw [h0, Nat.zero_add, Nat.mod_eq_of_lt (by omega)]
  · rw [show i + n - 1 = i - 1 + n by omega, Nat.add_mod_right, Nat.mod_eq_of_lt (by omega)]

theorem right_lt (h : i < n) : right n i < n := Nat.mod_lt _ (by omega)

theorem left_lt (h : i < n) : left n i < n := Nat.mod_lt _ (by omega)

theorem right_left (h : i < n) : right n (left n i) = i := by
  rw [right_eq (left_lt h), left_eq h]
  split <;> split <;> omega

theorem left_right (h : i < n) : left n (right n i) = i := by
  rw [left_eq (right_lt h), right_eq h]
  split <;> split <;> omega

theorem Beside.symm (hi : i < n) (h : Beside n i j) : Beside n j i := by
  obtain rfl | rfl := h
  · exact .inr (right_left hi).symm
  · exact .inl (left_right hi).symm

/-- Neighbours in the larger circle are neighbours in the smaller one. -/
theorem Beside.of_succ (hi : i < n) (hj : j < n) (h : Beside (n + 1) i j) : Beside n i j := by
  unfold Beside at *
  rw [left_eq (by omega), right_eq (by omega)] at h
  rw [left_eq hi, right_eq hi]
  split_ifs at h ⊢ <;> omega

/-- New neighbours in the smaller circle are the neighbours of the place that has left. -/
theorem Beside.succ (hi : i < n) (hj : j < n) (h : Beside n i j) : Beside (n + 1) i j ∨
    (i = left (n + 1) n ∧ j = right (n + 1) n) ∨ (i = right (n + 1) n ∧ j = left (n + 1) n) := by
  unfold Beside at *
  rw [left_eq hi, right_eq hi] at h
  rw [left_eq (by omega), right_eq (by omega), left_eq (by omega), right_eq (by omega)]
  split_ifs at h ⊢ <;> omega

/-! ### Nobody beside another -/

/-- No two neighbours are in `D`. -/
def Apart (n : Nat) (D : Nat → Prop) : Prop :=
  ∀ i j, i < n → j < n → i ≠ j → Beside n i j → D i → ¬ D j

theorem Apart.anti (h : Apart n D) (hsub : ∀ i < n, D' i → D i) : Apart n D' :=
  fun i j hi hj hne hb hdi hdj => h i j hi hj hne hb (hsub i hi hdi) (hsub j hj hdj)

/-- A place none of whose neighbours is in the set may join it. -/
theorem Apart.insert (h : Apart n D) (hl : ¬ D (left n i)) (hr : ¬ D (right n i))
    (hsub : ∀ j < n, D' j → D j ∨ j = i) : Apart n D' := by
  have hbeside : ∀ j, Beside n i j → ¬ D j := by
    rintro j (rfl | rfl)
    · exact hl
    · exact hr
  intro a b ha hb hne hab hda hdb
  obtain hda | rfl := hsub a ha hda
  · obtain hdb | rfl := hsub b hb hdb
    · exact h a b ha hb hne hab hda hdb
    · exact hbeside a (hab.symm ha) hda
  · exact hbeside b hab ((hsub b hb hdb).resolve_right hne.symm)

/-- A place that is not in the set joins the circle. -/
theorem Apart.grow (h : Apart n D) (hn : ¬ D n) : Apart (n + 1) D := by
  intro i j hi hj hne hb hdi hdj
  have hin : i ≠ n := by rintro rfl; exact hn hdi
  have hjn : j ≠ n := by rintro rfl; exact hn hdj
  have hi' : i < n := by omega
  have hj' : j < n := by omega
  exact h i j hi' hj' hne (hb.of_succ hi' hj') hdi hdj

/-- The last place leaves, when its two neighbours are not both in the set. -/
theorem Apart.shrink (h : Apart (n + 1) D)
    (hends : ¬ (D (left (n + 1) n) ∧ D (right (n + 1) n))) : Apart n D := by
  intro i j hi hj hne hb hdi hdj
  obtain hb | ⟨rfl, rfl⟩ | ⟨rfl, rfl⟩ := hb.succ hi hj
  · exact h i j (by omega) (by omega) hne hb hdi hdj
  · exact hends ⟨hdi, hdj⟩
  · exact hends ⟨hdj, hdi⟩

/-! ### Everybody beside somebody -/

/-- Everybody in `W` has a neighbour in `D`. -/
def Served (n : Nat) (W D : Nat → Prop) : Prop := ∀ i < n, W i → D (left n i) ∨ D (right n i)

theorem Served.mono (h : Served n W D) (hw : ∀ i < n, W' i → W i) (hd : ∀ i < n, D i → D' i) :
    Served n W' D' :=
  fun i hi hwi => (h i hi (hw i hi hwi)).imp (hd _ (left_lt hi)) (hd _ (right_lt hi))

/-- A place joins the circle, when neither end waits for the other one only. -/
theorem Served.grow (h : Served n W D) (hn : ¬ W n) (hdisj : ∀ i < n, W i → ¬ D i)
    (hfirst : ¬ (W 0 ∧ D (n - 1) ∧ ¬ D 1)) (hlast : ¬ (W (n - 1) ∧ D 0 ∧ ¬ D (n - 2))) :
    Served (n + 1) W D := by
  intro i hi hwi
  have hin : i ≠ n := by rintro rfl; exact hn hwi
  have hi' : i < n := by omega
  have hold := h i hi' hwi
  have hself := hdisj i hi' hwi
  rw [left_eq hi', right_eq hi'] at hold
  rw [left_eq hi, right_eq hi]
  split_ifs at hold ⊢ <;> grind

/-- The last place leaves the circle, when it is not the only one that an end waits for. -/
theorem Served.shrink (h : Served (n + 1) W D) (hn : 2 ≤ n)
    (hfirst : ¬ (D n ∧ W 0 ∧ ¬ D 1)) (hlast : ¬ (D n ∧ W (n - 1) ∧ ¬ D (n - 2))) :
    Served n W D := by
  intro i hi hwi
  have hold := h i (by omega) hwi
  rw [left_eq (by omega), right_eq (by omega)] at hold
  rw [left_eq hi, right_eq hi]
  split_ifs at hold ⊢ <;> grind

end Circle

end TpeSo.Lib
