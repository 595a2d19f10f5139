import TpeSo.Phylo.Neighbours

namespace TpeSo.Phylo

open Lib Dinner

/-!
# `programs/phylo.c` — the seats stay contiguous

* `Created` — no creation of a semaphore fails;
* `Kept k` — `SEM_ID` is free, or somebody is inside who will post it; `kept_next`;
* `contiguous_run` — **the statement about whole runs**;
* `leaked_run`, `quit_run` — what becomes of `SEM_ID` when a creation fails, and of the seats on
  the way out.
-/

variable {k k' : Dinner} {w : Who} {r : Reply} {tr : List (Dinner × Event × Unit)}

/-- The philosopher whose semaphore is being created. -/
def MainLine.creating : MainLine → Option Nat
  | .newPhylo .create idx _ => some idx
  | _ => none

/-- No creation of a semaphore fails. -/
def Created (k : Dinner) (e : Event) : Prop :=
  e.who = .main → ∀ idx ∈ (k.lines .main).bind MainLine.creating,
    e.reply.yes = true ∧ k.sems (.phylo idx) = none

/-- `SEM_ID` is free, or somebody is inside who will post it. -/
def Kept (k : Dinner) : Prop := Free k ∨ ∃ w, Holds k w

/-- No creation fails, and `remove_all` removes one philosopher at most. -/
def KeepsSeats (k : Dinner) (e : Event) : Prop := NotFromFront k e ∧ Created k e

instance (e : Event) : Decidable (KeepsSeats k e) := by
  unfold KeepsSeats Created
  infer_instance

theorem kept_start : Kept start := .inl ⟨{ value := 1 }, rfl, Nat.one_pos⟩

/-- **One step** loses no token. -/
theorem kept_next {e : Event} {o : Unit} (hk : Orderly k) (hkept : Kept k) (hok : Created k e)
    (h : next k e = some (k', o)) : Kept k' := by
  obtain ⟨w, r⟩ := e
  obtain ⟨l, hl, he⟩ := next_exec h
  dsimp only at hl he
  obtain ⟨sem, hs, htoken⟩ := hk.locked
  obtain ⟨sem', hs', hcross⟩ := crossing hk.seats hk.queues hs hl he
  have hside := crosses k w l
  cases hcross with
  | within _ hin' => exact .inr ⟨w, hin'⟩
  | outside hout hout' hval hrest hkeep =>
    obtain ⟨sem₀, hs₀, hpos⟩ | ⟨u, hu⟩ := hkept
    · cases hs.symm.trans hs₀
      exact .inl ⟨sem', hs', hval ▸ hpos⟩
    · have huw : u ≠ w := by
        rintro rfl
        exact hout ((holds_iff hl).mp hu)
      exact .inr ⟨u, hkeep u huw hu⟩
  | @enters l' hst hl' =>
    rw [hst] at hside
    exact .inr ⟨w, l', hl', hside.2⟩
  | leaves hst hout' hval => exact .inl ⟨sem', hs', hval ▸ Nat.succ_pos _⟩
  | @hands l' v lv lv' hst hout' hne hlv hsv hlv' =>
    have hcv := crosses k v lv
    rw [hsv] at hcv
    exact .inr ⟨v, lv', hlv', hcv.2⟩
  | @fails i l₁ l₂ hst hfail =>
    refine absurd ?_ hfail
    cases w with
    | phylo j => cases l <;> cases hst
    | main =>
      refine hok rfl i ?_
      rw [hl]
      cases l with
      | newPhylo line idx seating =>
        cases line <;> cases hst
        rfl
      | removePhylo line idx c => cases line <;> cases hst
      | _ => cases hst

/-- **The seats stay contiguous**, and `SEM_ID` is released on every path: in every run in which no
    creation of a semaphore fails and `remove_all` never removes a philosopher in front of
    another. -/
theorem contiguous_run (h : Run KeepsSeats tr k) :
    (Free k → (∀ i, k.Seated i ↔ i < k.phyloCount) ∧
      ∀ i, k.Seated i → k.Seated (k.left i) ∧ k.Seated (k.right i)) ∧
    (Free k ∨ ∃ w, Holds k w) := by
  have hrun : Orderly k ∧ Kept k := by
    refine h.invariant (fun k => Orderly k ∧ Kept k) ⟨orderly_start, kept_start⟩ ?_
    rintro k e k' o ⟨hk, hkept⟩ hok hs
    exact ⟨orderly_next hk hok.1 hs, kept_next hk hkept hok.2 hs⟩
  obtain ⟨hk, hkept⟩ := hrun
  refine ⟨fun hfree => ?_, hkept⟩
  have hseated := hk.seated_iff (hk.nobody hfree .main)
  refine ⟨hseated, fun i hi => ?_⟩
  have hlt := (hseated i).mp hi
  exact ⟨(hseated _).mpr (Circle.left_lt hlt), (hseated _).mpr (Circle.right_lt hlt)⟩

/-- Three philosophers sit down, and one of them eats. -/
theorem contiguous_run_three : ∃ tr k, Run KeepsSeats tr k ∧ k.phyloCount = 3 ∧ Free k ∧
    k.Seated 2 ∧ k.Seated (k.left 2) ∧ k.Seated (k.right 2) := by
  have hcheck : execCheck next KeepsSeats (fun _ k => decide (k.phyloCount = 3 ∧ Free k)) start
      (seating 10 ++ seating 11 ++ seating 12 ++ eating 2 9) = true := by
    decide +kernel
  obtain ⟨tr, k, h, hQ⟩ := Trace.of_execCheck hcheck
  obtain ⟨hcount, hfree⟩ := of_decide_eq_true hQ
  obtain ⟨hseats, hbeside⟩ := (contiguous_run h).1 hfree
  have htwo : k.Seated 2 := (hseats 2).mpr (by omega)
  exact ⟨tr, k, h, hcount, hfree, htwo, hbeside 2 htwo⟩

/-- The creation of the fourth semaphore fails: `new_phylo` has returned, nobody is inside, and
    `SEM_ID` is not free. -/
theorem leaked_run : ∃ tr k, Run NotFromFront tr k ∧ k.lines .main = some .pollRemove ∧
    ¬ Free k ∧ ∀ w, ¬ Holds k w := by
  have hcheck : execCheck next NotFromFront
      (fun _ k => decide (k.lines .main = some .pollRemove ∧ ¬ Free k ∧ k.phyloCount = 3 ∧
        k.lines (.phylo 0) = some .start ∧ k.lines (.phylo 1) = some .start ∧
        k.lines (.phylo 2) = some .start)) start
      (seating 10 ++ seating 11 ++ seating 12 ++
        [⟨.main, {}⟩, ⟨.main, { yes := true }⟩, ⟨.main, {}⟩, ⟨.main, {}⟩, ⟨.main, {}⟩]) = true := by
    decide +kernel
  obtain ⟨tr, k, h, hQ⟩ := Trace.of_execCheck hcheck
  obtain ⟨hmain, hfree, hcount, h0, h1, h2⟩ := of_decide_eq_true hQ
  refine ⟨tr, k, h, hmain, hfree, fun w => ?_⟩
  cases w with
  | main =>
    rw [holds_iff hmain]
    exact id
  | phylo i =>
    rintro ⟨l, hl, hin⟩
    -- only the first three philosophers run, and they have not begun
    obtain ⟨lm, hlm, hat⟩ := (orderly_run (fun _ _ => id) h).seats
    cases hmain.symm.trans hlm
    have hrun : k.Running i := fun hnone => by rw [hl] at hnone; cases hnone
    have hlt : i < k.phyloCount := hat.runs i hrun
    obtain rfl | rfl | rfl : i = 0 ∨ i = 1 ∨ i = 2 := by omega
    · cases h0.symm.trans hl
      exact hin
    · cases h1.symm.trans hl
      exact hin
    · cases h2.symm.trans hl
      exact hin

/-- On the way out the first philosopher is removed while two others are seated: `SEM_ID` is free,
    seat 2 is taken, and `phylo_count` is 2. -/
theorem quit_run : ∃ tr k, Run (fun _ _ => True) tr k ∧ Free k ∧ k.phyloCount = 2 ∧
    ¬ k.Seated 0 ∧ k.Seated 2 := by
  have hcheck : execCheck next (fun _ _ => True)
      (fun _ k => decide (Free k ∧ k.phyloCount = 2 ∧ ¬ k.Seated 0 ∧ k.Seated 2)) start
      (seating 10 ++ seating 11 ++ seating 12 ++ List.replicate 3 ⟨.main, {}⟩ ++
        [⟨.main, { yes := true }⟩] ++ List.replicate 10 ⟨.main, {}⟩) = true := by
    decide +kernel
  obtain ⟨tr, k, h, hQ⟩ := Trace.of_execCheck hcheck
  exact ⟨tr, k, h, of_decide_eq_true hQ⟩

end TpeSo.Phylo
