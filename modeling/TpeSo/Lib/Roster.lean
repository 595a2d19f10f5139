import Mathlib.Data.List.Nodup

namespace TpeSo.Lib

/-!
# Rosters: finite maps that remember the order of arrival

A roster is a list of named entries.  An entry joins at the end, and leaves without disturbing
the others.

* `strike` — the entry with a name leaves;
* `lookup_enroll`, `lookup_strike` — where no name occurs twice, both are the operations of a
  finite map;
* `Change`, `Change.names`, `Change.value` — a history of changes read for the order of the
  names, and for the value of one of them.
-/

variable {κ ν : Type}

/-- Named entries in the order in which they have joined. -/
abbrev Roster (κ ν : Type) := List (κ × ν)

namespace Roster

variable {r : Roster κ ν} {k q : κ} {v : ν}

/-- The names, in the order in which they have joined. -/
def names (r : Roster κ ν) : List κ := r.map Prod.fst

/-- The entry named `k` leaves. -/
def strike [BEq κ] (r : Roster κ ν) (k : κ) : Roster κ ν := r.eraseP fun x => x.1 == k

@[simp] theorem names_nil : names ([] : Roster κ ν) = [] := rfl

@[simp] theorem names_cons (x : κ × ν) (r : Roster κ ν) : names (x :: r) = x.1 :: names r := rfl

@[simp] theorem names_enroll (r : Roster κ ν) (k : κ) (v : ν) :
    names (r ++ [(k, v)]) = names r ++ [k] := by
  simp [names]

variable [BEq κ] [LawfulBEq κ]

theorem lookup_eq_none (h : k ∉ names r) : r.lookup k = none := by
  rw [List.lookup_eq_none_iff]
  intro x hx
  rw [bne_iff_ne]
  rintro rfl
  exact h (List.mem_map_of_mem hx)

theorem lookup_enroll (h : k ∉ names r) :
    (r ++ [(k, v)]).lookup q = if k == q then some v else r.lookup q := by
  rw [List.lookup_append]
  by_cases hq : k = q
  · subst hq
    simp [lookup_eq_none h]
  · have hqk : (q == k) = false := beq_false_of_ne fun he => hq he.symm
    simp [List.lookup_cons, hqk, hq]

theorem names_strike (r : Roster κ ν) (k : κ) : names (strike r k) = (names r).erase k := by
  induction r with
  | nil => rfl
  | cons x r ih =>
    unfold strike at ih ⊢
    by_cases hx : x.1 = k
    · simp [hx]
    · rw [List.eraseP_cons_of_neg (by simpa using hx), names_cons, names_cons, ih,
        List.erase_cons_tail (by simpa using hx)]

theorem lookup_strike (h : (names r).Nodup) :
    (strike r k).lookup q = if k == q then none else r.lookup q := by
  induction r with
  | nil => simp [strike]
  | cons x r ih =>
    rw [names_cons, List.nodup_cons] at h
    have ih := ih h.2
    unfold strike at ih ⊢
    by_cases hx : x.1 = k
    · rw [List.eraseP_cons_of_pos (by simpa using hx)]
      by_cases hq : k = q
      · rw [if_pos (by simpa using hq), ← hq, ← hx]
        exact lookup_eq_none h.1
      · have hqx : (q == x.1) = false := beq_false_of_ne fun he => hq (hx.symm.trans he.symm)
        rw [if_neg (by simpa using hq), List.lookup_cons, hqx]
    · rw [List.eraseP_cons_of_neg (by simpa using hx), List.lookup_cons, ih, List.lookup_cons]
      by_cases hq : k = q
      · have hqx : (q == x.1) = false := beq_false_of_ne fun he => hx (he.symm.trans hq.symm)
        rw [hqx, if_pos (by simpa using hq)]
      · simp [hq]

end Roster

/-- A change of a roster. -/
inductive Change (κ ν : Type) where
  | enroll (k : κ) (v : ν)
  | strike (k : κ)
  | none

namespace Change

/-- What a change does to the names. -/
def names [BEq κ] (l : List κ) : Change κ ν → List κ
  | .enroll k _ => l ++ [k]
  | .strike k => l.erase k
  | .none => l

/-- What a change does to the value of `q`. -/
def value [BEq κ] (q : κ) (o : Option ν) : Change κ ν → Option ν
  | .enroll k v => if k == q then some v else o
  | .strike k => if k == q then Option.none else o
  | .none => o

/-- What a change does to a roster. -/
def apply [BEq κ] (r : Roster κ ν) : Change κ ν → Roster κ ν
  | .enroll k v => r ++ [(k, v)]
  | .strike k => r.strike k
  | .none => r

/-- Only new names join. -/
def Fresh (r : Roster κ ν) : Change κ ν → Prop
  | .enroll k _ => k ∉ r.names
  | _ => True

variable [BEq κ] [LawfulBEq κ] {r : Roster κ ν} {c : Change κ ν}

theorem names_apply (r : Roster κ ν) (c : Change κ ν) : (c.apply r).names = c.names r.names := by
  cases c with
  | enroll k v => exact Roster.names_enroll r k v
  | strike k => exact Roster.names_strike r k
  | none => rfl

theorem nodup_apply (h : r.names.Nodup) (hf : c.Fresh r) : (c.apply r).names.Nodup := by
  rw [names_apply]
  cases c with
  | enroll k v =>
    rw [names, ← List.concat_eq_append]
    exact h.concat hf
  | strike k => exact h.erase k
  | none => exact h

theorem lookup_apply (h : r.names.Nodup) (hf : c.Fresh r) (q : κ) :
    (c.apply r).lookup q = c.value q (r.lookup q) := by
  cases c with
  | enroll k v => exact Roster.lookup_enroll hf
  | strike k => exact Roster.lookup_strike h
  | none => rfl

end Change

end TpeSo.Lib
