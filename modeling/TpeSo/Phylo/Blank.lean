import TpeSo.Phylo.Neighbours

namespace TpeSo.Phylo

open Lib Dinner

/-!
# `programs/phylo.c` — seats without a philosopher

* `Blank k` — a seat has the state `NONE` while its process does not run, or has not begun;
* `set_cases` — whose state a statement sets;
* `blank_next` — every step keeps it.
-/

variable {k k' : Dinner} {w : Who} {r : Reply} {i : Nat}

/-- The seat whose philosopher has been killed and whose state is still to be cleared. -/
def MainLine.clearing : MainLine → Option Nat
  | .removePhylo .close idx _ | .removePhylo .pid idx _ | .removePhylo .state idx _ => some idx
  | _ => none

/-- A seat has the state `NONE` while its process does not run, or has not begun. -/
structure Blank (k : Dinner) : Prop where
  vacant : ∀ i, k.lines (.phylo i) = none → (k.lines .main).bind MainLine.clearing ≠ some i →
    k.phyloStates i = .none
  fresh : ∀ i, k.lines (.phylo i) = some .start → k.phyloStates i = .none

theorem blank_start : Blank start := ⟨fun _ _ _ => rfl, fun _ _ => rfl⟩

/-- The seats that a statement sets, and the others. -/
theorem states_effect {L : Type} (st : Stmt L) (t : Table) (r : Reply) (i : Nat) :
    (st.effect t r).phyloStates i = t.phyloStates i ∨ ∃ s l, st = .setState i s l := by
  cases st with
  | setState j s l =>
    by_cases hij : i = j
    · subst hij
      exact .inr ⟨s, l, rfl⟩
    · exact .inl (Table.setState_of_ne hij t s)
  | _ => exact .inl rfl

variable {l : w.Line}

/-- Who is at its first line has been spawned by this step, or was there before. -/
theorem fresh_before (hq : Queues k) (hl : k.lines w = some l)
    (h : k.exec w r (k.stmt w l) = some k') (hi : k'.lines (.phylo i) = some .start) :
    (k.lines (.phylo i) = some .start ∧ w ≠ .phylo i) ∨ ∃ l', k.stmt w l = .spawn i l' := by
  by_cases hw : w = .phylo i
  · subst hw
    obtain ⟨l', hl', hleads⟩ := exec_self hq hl h
    rw [hi, Option.some.injEq] at hl'
    subst hl'
    obtain hleads | ⟨rfl, s, l'', hst⟩ := hleads
    · cases l <;> simp [stmt, phyloStmt, Stmt.Leads] at hleads <;> split at hleads <;> cases hleads
    · cases hst
  · have ho := exec_other hq hl h (v := .phylo i) (Ne.symm hw)
    generalize hst : k.stmt w l = st at ho
    cases ho with
    | same h => exact .inl ⟨h.symm.trans hi, hw⟩
    | @woken s l' lv lv' hlv hsv h =>
      rw [hi, Option.some.injEq] at h
      subst h
      cases lv <;> cases hsv
    | spawned hv =>
      cases hv
      exact .inr ⟨_, rfl⟩
    | killed _ _ h =>
      rw [hi] at h
      cases h

/-- Who does not run has been killed by this step, or did not run before. -/
theorem vacant_before (hq : Queues k) (hl : k.lines w = some l)
    (h : k.exec w r (k.stmt w l) = some k') (hi : k'.lines (.phylo i) = none) :
    (k.lines (.phylo i) = none ∧ w ≠ .phylo i) ∨ ∃ l', k.stmt w l = .kill i l' := by
  by_cases hw : w = .phylo i
  · subst hw
    obtain ⟨l', hl', -⟩ := exec_self hq hl h
    rw [hi] at hl'
    cases hl'
  · have ho := exec_other hq hl h (v := .phylo i) (Ne.symm hw)
    generalize hst : k.stmt w l = st at ho
    cases ho with
    | same h => exact .inl ⟨h.symm.trans hi, hw⟩
    | woken _ _ h =>
      rw [hi] at h
      cases h
    | spawned hv _ h =>
      cases hv
      rw [hi] at h
      cases h
    | killed hv =>
      cases hv
      exact .inr ⟨_, rfl⟩

/-- A seat stays one that is still to be cleared, until it is. -/
theorem clearing_after (hq : Queues k) (hl : k.lines w = some l)
    (h : k.exec w r (k.stmt w l) = some k')
    (hi : (k.lines .main).bind MainLine.clearing = some i) :
    (k'.lines .main).bind MainLine.clearing = some i ∨ ∃ l', k.stmt w l = .setState i .none l' := by
  obtain ⟨lm, hlm, hc⟩ := Option.bind_eq_some_iff.mp hi
  by_cases hw : w = .main
  · subst hw
    rw [hl, Option.some.injEq] at hlm
    subst hlm
    obtain ⟨l', hl', hleads⟩ := exec_self hq hl h
    rw [hl']
    cases l with
    | removePhylo line idx c =>
      cases line <;> cases hc
      · obtain rfl | ⟨-, s, l'', hst⟩ := hleads
        · exact .inl rfl
        · cases hst
      · obtain rfl | ⟨-, s, l'', hst⟩ := hleads
        · exact .inl rfl
        · cases hst
      · exact .inr ⟨_, rfl⟩
    | _ => cases hc
  · have ho := exec_other hq hl h (v := .main) (Ne.symm hw)
    generalize hst : k.stmt w l = st at ho
    cases ho with
    | same h =>
      rw [h, hlm]
      exact .inl hc
    | @woken s l' lv lv' hlv hsv h =>
      rw [hlm, Option.some.injEq] at hlv
      subst hlv
      cases lm with
      | removePhylo line idx c => cases line <;> cases hc <;> cases hsv
      | _ => cases hc
    | spawned hv => cases hv
    | killed hv => cases hv

/-- Whose state a statement sets: the philosopher's own, one that is cleared, or that of a
    neighbour who is seated. -/
theorem set_cases {s : PhyloState} {l' : w.Line} (hv : safeOutline.Valid k)
    (hl : k.lines w = some l) (hst : k.stmt w l = .setState i s l') :
    w = .phylo i ∨ s = .none ∨ k.phyloStates i ≠ .none := by
  cases w with
  | main =>
    cases l with
    | newPhylo line idx seating => cases line <;> cases hst
    | removePhylo line idx c =>
      cases line <;> cases hst
      exact .inr (.inl rfl)
    | _ => cases hst
  | phylo j =>
    cases l <;> cases hst
    · exact .inl rfl
    · exact .inl rfl
    · exact .inl rfl
    · exact .inl rfl
    · exact .inr (.inr (hv.known _ _ hl trivial).2.2.1)
    · exact .inr (.inr (hv.known _ _ hl trivial).2.2.1)

theorem blank_next {e : Event} {o : Unit} (hk : Orderly k) (hv : safeOutline.Valid k)
    (hb : Blank k) (h : next k e = some (k', o)) : Blank k' := by
  obtain ⟨w, r⟩ := e
  obtain ⟨l, hl, he⟩ := next_exec h
  dsimp only at hl he
  have htable := exec_table he
  -- a seat that was blank and whose philosopher does not step stays so
  have hkeep : ∀ i, w ≠ .phylo i → k.phyloStates i = .none → k'.phyloStates i = .none := by
    intro i hw hi
    rw [htable]
    obtain hsame | ⟨s, l', hst⟩ := states_effect (k.stmt w l) k.toTable r i
    · exact hsame.trans hi
    · obtain hself | rfl | hsome := set_cases hv hl hst
      · exact absurd hself hw
      · rw [hst]
        exact Table.setState_self ..
      · exact absurd hi hsome
  constructor
  · intro i hnone hclear
    obtain ⟨hold, hw⟩ | ⟨l', hst⟩ := vacant_before hk.queues hl he hnone
    · by_cases hc : (k.lines .main).bind MainLine.clearing = some i
      · obtain hc' | ⟨l', hst⟩ := clearing_after hk.queues hl he hc
        · exact absurd hc' hclear
        · rw [htable, hst]
          exact Table.setState_self ..
      · exact hkeep i hw (hb.vacant i hold hc)
    · obtain rfl := main_of_kill hst
      obtain ⟨l₁, hl₁, hleads⟩ := exec_self hk.queues hl he
      rw [hst] at hleads
      obtain rfl | ⟨-, s, l'', hs⟩ := hleads
      · refine absurd ?_ hclear
        rw [hl₁]
        cases l with
        | newPhylo line idx seating => cases line <;> cases hst
        | removePhylo line idx c =>
          cases line <;> cases hst
          rfl
        | _ => cases hst
      · cases hs
  · intro i hstart
    obtain ⟨hold, hw⟩ | ⟨l', hst⟩ := fresh_before hk.queues hl he hstart
    · exact hkeep i hw (hb.fresh i hold)
    · obtain rfl := main_of_spawn hst
      refine hkeep i nofun (hb.vacant i (hk.seats.vacant hl hst) ?_)
      rw [hl]
      cases l with
      | newPhylo line idx seating => nofun
      | removePhylo line idx c => cases line <;> cases hst
      | _ => cases hst

end TpeSo.Phylo
