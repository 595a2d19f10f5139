import TpeSo.Phylo.Steps

namespace TpeSo.Phylo

open Lib Dinner

/-!
# `programs/phylo.c` — the seats

Only the main program changes `phylo_count` and `phylo_pids`, so what it has done to them can be
read off its line.

* `LineOk t l` — the arguments of the main program and `phylo_count`;
* `Sits t l`, `Runs t l` — the seats whose pid is set, and those whose process runs;
* `Seats k` — all this in one state; `seats_next`;
* `NotFromFront` — `remove_all` never removes a philosopher in front of another.
-/

variable {k k' : Dinner} {w v : Who} {r : Reply} {s : SemId} {i : Nat} {t t' : Table}
  {l l' : MainLine}

/-! ### The line of the main program -/

/-- What the main program knows about `phylo_count` at each line. -/
def LineOk (t : Table) : MainLine → Prop
  | .seating i => t.phyloCount = i ∧ i ≤ minPhy
  | .newPhylo line idx seating =>
    (t.phyloCount = if line = .unlock ∧ t.Seated idx then idx + 1 else idx) ∧
      (if seating then idx < minPhy else minPhy ≤ idx ∧ idx < maxPhy)
  | .removePhylo line idx c =>
    (t.phyloCount = if line = .unlock then idx else idx + 1) ∧
      match c with
      | .loop => minPhy ≤ idx ∧ idx < maxPhy
      | .removeAll max quit => idx = 0 ∧ max = 1 ∧ quit = false
  | .removeAll i max quit =>
    if quit then i = 0 ∧ max = t.phyloCount ∧ minPhy ≤ max
    else (i = 0 ∧ max = t.phyloCount ∧ max < minPhy) ∨ (i = 1 ∧ max = 1 ∧ t.phyloCount = 0)
  | .pollAdd | .add | .pollRemove | .remove | .pollQuit =>
    minPhy ≤ t.phyloCount ∧ t.phyloCount ≤ maxPhy
  | .closing => False
  | .returned => True

/-- The seats whose pid is set. -/
def Sits (t : Table) (l : MainLine) (i : Nat) : Prop :=
  match l with
  | .newPhylo .count idx _ => i < idx ∨ (i = idx ∧ t.Seated idx)
  | .removePhylo .state idx _ | .removePhylo .count idx _ => i < idx
  | _ => i < t.phyloCount

/-- The seats whose process runs. -/
def Runs (t : Table) (l : MainLine) (i : Nat) : Prop :=
  match l with
  | .newPhylo .count idx _ => i < idx ∨ (i = idx ∧ t.Seated idx)
  | .removePhylo .close idx _ | .removePhylo .pid idx _ | .removePhylo .state idx _
  | .removePhylo .count idx _ => i < idx
  | _ => i < t.phyloCount

/-- The seats, as the line of the main program tells. -/
structure SeatsAt (t : Table) (running : Nat → Prop) (l : MainLine) : Prop where
  line : LineOk t l
  sits : ∀ i, t.Seated i ↔ Sits t l i
  runs : ∀ i, running i → Runs t l i

/-- A philosopher's process exists. -/
def Dinner.Running (k : Dinner) (i : Nat) : Prop := k.lines (.phylo i) ≠ none

/-- The seats, in one state. -/
def Seats (k : Dinner) : Prop :=
  ∃ l, k.lines .main = some l ∧ SeatsAt k.toTable k.Running l

/-- How many philosophers `remove_all` is removing. -/
def MainLine.removing : MainLine → Option Nat
  | .removeAll _ max _ => some max
  | _ => none

/-- `remove_all` removes one philosopher at most, so never one in front of another. -/
def NotFromFront (k : Dinner) (e : Event) : Prop :=
  e.who = .main → ∀ max ∈ (k.lines .main).bind MainLine.removing, max ≤ 1

instance (e : Event) : Decidable (NotFromFront k e) := by
  unfold NotFromFront
  infer_instance

theorem seats_start : Seats start := by
  refine ⟨.seating 0, rfl, ⟨rfl, Nat.zero_le _⟩, fun i => ?_, fun i h => absurd rfl h⟩
  exact iff_of_false (fun h => h rfl) (Nat.not_lt_zero i)

/-- A wait changes nothing about the seats. -/
theorem SeatsAt.granted {running : Nat → Prop} (h : SeatsAt t running l)
    (hs : mainStmt t l = .wait s l') : SeatsAt t running l' := by
  obtain ⟨hline, hsits, hruns⟩ := h
  unfold mainStmt at hs
  split at hs <;> cases hs
  all_goals exact ⟨hline, hsits, hruns⟩

theorem SeatsAt.congr {running running' : Nat → Prop} (h : SeatsAt t running l)
    (hp : t'.phyloPids = t.phyloPids) (hc : t'.phyloCount = t.phyloCount)
    (hr : ∀ i, running' i → running i) : SeatsAt t' running' l := by
  obtain ⟨hline, hsits, hruns⟩ := h
  obtain ⟨states, pids, count⟩ := t
  obtain ⟨states', pids', count'⟩ := t'
  obtain rfl : pids' = pids := hp
  obtain rfl : count' = count := hc
  exact ⟨hline, hsits, fun i hi => hruns i (hr i hi)⟩

/-! ### A step of a philosopher -/

/-- No statement of a philosopher changes `phylo_pids` or `phylo_count`. -/
theorem effect_phylo (t : Table) (r : Reply) (j : Nat) (l : PhyloLine) :
    ((phyloStmt t j l).effect t r).phyloPids = t.phyloPids ∧
      ((phyloStmt t j l).effect t r).phyloCount = t.phyloCount := by
  cases l <;> exact ⟨rfl, rfl⟩

theorem seats_phylo {j : Nat} {lp : PhyloLine} (hq : Queues k) (hk : Seats k)
    (hl : k.lines (.phylo j) = some lp)
    (h : k.exec (.phylo j) r (k.stmt (.phylo j) lp) = some k') : Seats k' := by
  obtain ⟨l, hmain, hseats⟩ := hk
  obtain ⟨hpids, hcount⟩ := effect_phylo k.toTable r j lp
  have htable : k'.toTable = (phyloStmt k.toTable j lp).effect k.toTable r := exec_table h
  rw [← htable] at hpids hcount
  have hrun : ∀ i, k'.Running i → k.Running i := by
    intro i hi
    by_cases hij : i = j
    · subst hij
      intro hnone
      rw [hl] at hnone
      cases hnone
    · have ho := exec_other hq hl h (v := .phylo i) (by simpa using hij)
      generalize hst : k.stmt (.phylo j) lp = st at ho
      cases ho with
      | same h => exact fun hnone => hi (h.trans hnone)
      | woken hlv => exact fun hnone => by rw [hlv] at hnone; cases hnone
      | spawned => cases main_of_spawn hst
      | killed => cases main_of_kill hst
  have ho := exec_other hq hl h (v := .main) nofun
  generalize hst : k.stmt (.phylo j) lp = st at ho
  cases ho with
  | same h => exact ⟨l, h.trans hmain, hseats.congr hpids hcount hrun⟩
  | @woken s _ lv lv' hlv hs h =>
    rw [hmain, Option.some.injEq] at hlv
    subst hlv
    exact ⟨lv', h, (hseats.granted hs).congr hpids hcount hrun⟩
  | spawned => cases main_of_spawn hst
  | killed => cases main_of_kill hst

/-! ### A step of the main program -/

/-- Which processes run after a step of the main program. -/
theorem running_main (hq : Queues k) (hl : k.lines .main = some l)
    (h : k.exec .main r (mainStmt k.toTable l) = some k') (hi : k'.Running i) :
    k.Running i ∨ ∃ l', mainStmt k.toTable l = .spawn i l' ∧ r.pid ≠ noPid := by
  have ho := exec_other hq hl h (v := .phylo i) nofun
  generalize hst : k.stmt .main l = st at ho
  cases ho with
  | same h => exact .inl fun hnone => hi (h.trans hnone)
  | woken hlv =>
    refine .inl fun hnone => ?_
    rw [hlv] at hnone
    cases hnone
  | spawned hv hr =>
    cases hv
    exact .inr ⟨_, hst, hr⟩
  | killed _ _ h => exact absurd h hi

/-- Where the main program goes on after `new_phylo`, all processes sit. -/
theorem SeatsAt.afterNew {running : Nat → Prop} {idx : Nat} {seating ok : Bool}
    (hcount : t.phyloCount = if ok then idx + 1 else idx)
    (hidx : if seating then idx < minPhy else minPhy ≤ idx ∧ idx < maxPhy)
    (hsits : ∀ i, t.Seated i ↔ i < t.phyloCount) (hruns : ∀ i, running i → i < t.phyloCount) :
    SeatsAt t running (afterNew idx seating ok) := by
  cases seating <;> cases ok
  · exact ⟨⟨hcount ▸ hidx.1, hcount ▸ Nat.le_of_lt hidx.2⟩, hsits, hruns⟩
  · exact ⟨⟨hcount ▸ Nat.le_succ_of_le hidx.1, hcount ▸ hidx.2⟩, hsits, hruns⟩
  · exact ⟨.inl ⟨rfl, hcount.symm, hidx⟩, hsits, hruns⟩
  · exact ⟨⟨hcount, hidx⟩, hsits, hruns⟩

theorem SeatsAt.step {running running' : Nat → Prop} (h : SeatsAt t running l)
    (hleads : (mainStmt t l).Leads r l')
    (hrun : ∀ i, running' i → running i ∨ ∃ l', mainStmt t l = .spawn i l' ∧ r.pid ≠ noPid)
    (hkill : ∀ i l', mainStmt t l = .kill i l' → t.Seated i → ¬ running' i)
    (hfront : ∀ i max quit, l = .removeAll i max quit → max ≤ 1) :
    SeatsAt ((mainStmt t l).effect t r) running' l' := by
  obtain ⟨hline, hsits, hruns⟩ := h
  have hstay : (∀ i l', mainStmt t l ≠ .spawn i l') → ∀ i, running' i → Runs t l i :=
    fun hne i hi => hruns i ((hrun i hi).resolve_right fun ⟨l', hs, _⟩ => hne i l' hs)
  cases l with
  | seating i =>
    simp only [mainStmt, Stmt.Leads] at hleads
    obtain ⟨hcount, hle⟩ := hline
    split at hleads
    · next hlt =>
      cases hleads
      exact ⟨⟨hcount, of_decide_eq_true hlt⟩, hsits, hstay nofun⟩
    · next hlt =>
      cases hleads
      rw [decide_eq_true_eq] at hlt
      have hlow : minPhy ≤ t.phyloCount ∧ t.phyloCount ≤ maxPhy := by
        unfold minPhy maxPhy at *
        omega
      exact ⟨hlow, hsits, hstay nofun⟩
  | newPhylo line idx seating =>
    cases line with
    | wait =>
      cases hleads
      exact ⟨hline, hsits, hstay nofun⟩
    | create =>
      obtain ⟨-, rfl⟩ | rfl := hleads
      · exact ⟨hline, hsits, hstay nofun⟩
      · exact @SeatsAt.afterNew _ _ _ _ false hline.1 hline.2 hsits (hstay nofun)
    | spawn =>
      cases hleads
      obtain ⟨hcount, hidx⟩ := hline
      change t.phyloCount = idx at hcount
      change SeatsAt { t with phyloPids := Function.update t.phyloPids idx r.pid } running' _
      refine ⟨⟨hcount, hidx⟩, fun i => ?_, fun i hi => ?_⟩
      · change (Function.update t.phyloPids idx r.pid) i ≠ noPid ↔ i < idx ∨ (i = idx ∧ _)
        by_cases hi : i = idx
        · subst hi
          exact ⟨fun h => .inr ⟨rfl, h⟩, fun h => (h.resolve_left (lt_irrefl i)).2⟩
        · rw [Function.update_of_ne hi]
          refine (hsits i).trans ?_
          change i < t.phyloCount ↔ _
          simp [hcount, hi]
      · obtain hi | ⟨l', hs, hpid⟩ := hrun i hi
        · exact .inl (hcount ▸ hruns i hi)
        · cases hs
          refine .inr ⟨rfl, ?_⟩
          change Function.update t.phyloPids idx r.pid idx ≠ noPid
          rwa [Function.update_self]
    | count =>
      cases hleads
      obtain ⟨hcount, hidx⟩ := hline
      change t.phyloCount = idx at hcount
      change SeatsAt { t with phyloCount := if t.Seated idx then t.phyloCount + 1 else t.phyloCount }
        running' _
      have hnew : ∀ i, (i < idx ∨ (i = idx ∧ t.Seated idx)) ↔
          i < if t.Seated idx then t.phyloCount + 1 else t.phyloCount := by
        intro i
        by_cases hs : t.Seated idx
        · rw [if_pos hs, hcount]
          simp only [hs, and_true]
          omega
        · rw [if_neg hs, hcount]
          simp only [hs, and_false, or_false]
      refine ⟨⟨?_, hidx⟩, fun i => (hsits i).trans (hnew i), fun i hi => (hnew i).mp ?_⟩
      · change (if t.Seated idx then t.phyloCount + 1 else t.phyloCount) = _
        simp only [hcount, true_and]
        rfl
      · exact hstay nofun i hi
    | unlock =>
      cases hleads
      refine .afterNew (t := t) (hline.1.trans ?_) hline.2 hsits (hstay nofun)
      simp
  | removePhylo line idx c =>
    cases line with
    | kill =>
      cases hleads
      obtain ⟨hcount, hc⟩ := hline
      change t.phyloCount = idx + 1 at hcount
      refine ⟨⟨hcount, hc⟩, hsits, fun i hi => ?_⟩
      have hlt : i < t.phyloCount := hstay nofun i hi
      have hne : i ≠ idx := by
        rintro rfl
        exact hkill i _ rfl ((hsits i).mpr (by change i < t.phyloCount; omega)) hi
      change i < idx
      omega
    | pid =>
      cases hleads
      obtain ⟨hcount, hc⟩ := hline
      change t.phyloCount = idx + 1 at hcount
      change SeatsAt { t with phyloPids := Function.update t.phyloPids idx noPid } running' _
      refine ⟨⟨hcount, hc⟩, fun i => ?_, hstay nofun⟩
      change (Function.update t.phyloPids idx noPid) i ≠ noPid ↔ i < idx
      by_cases hi : i = idx
      · subst hi
        rw [Function.update_self]
        exact iff_of_false (fun h => h rfl) (lt_irrefl i)
      · rw [Function.update_of_ne hi]
        refine (hsits i).trans ?_
        change i < t.phyloCount ↔ _
        omega
    | state =>
      cases hleads
      exact ⟨hline, hsits, hstay nofun⟩
    | count =>
      cases hleads
      obtain ⟨hcount, hc⟩ := hline
      change t.phyloCount = idx + 1 at hcount
      change SeatsAt { t with phyloCount := t.phyloCount - 1 } running' _
      have hnew : t.phyloCount - 1 = idx := by omega
      rw [hnew]
      exact ⟨⟨rfl, hc⟩, hsits, hstay nofun⟩
    | unlock =>
      cases hleads
      obtain ⟨hcount, hc⟩ := hline
      change t.phyloCount = idx at hcount
      refine ⟨?_, ?_, ?_⟩ <;> cases c
      · exact ⟨hcount ▸ hc.1, Nat.le_of_lt (hcount ▸ hc.2)⟩
      · obtain ⟨rfl, rfl, rfl⟩ := hc
        exact .inr ⟨rfl, rfl, hcount⟩
      · exact hsits
      · exact hsits
      · exact hstay nofun
      · exact hstay nofun
    | test =>
      simp only [mainStmt, Stmt.Leads] at hleads
      split at hleads <;> cases hleads <;> exact ⟨hline, hsits, hstay nofun⟩
    | _ =>
      cases hleads
      exact ⟨hline, hsits, hstay nofun⟩
  | removeAll i max quit =>
    have hmax := hfront i max quit rfl
    simp only [mainStmt, Stmt.Leads, decide_eq_true_eq] at hleads
    cases quit with
    | true =>
      obtain ⟨-, -, hlow⟩ := hline
      exact absurd (Nat.le_trans hlow hmax) (by decide)
    | false =>
      split at hleads
      · next hlt =>
        cases hleads
        -- one philosopher is seated, and it is the first
        obtain ⟨rfl, rfl, -⟩ | ⟨rfl, rfl, -⟩ := hline
        · have hone : t.phyloCount = 1 := by omega
          exact ⟨⟨hone, rfl, hone, rfl⟩, hsits, hstay nofun⟩
        · exact absurd hlt (lt_irrefl 1)
      · cases hleads
        exact ⟨trivial, hsits, hstay nofun⟩
  | add =>
    simp only [mainStmt, Stmt.Leads] at hleads
    split at hleads
    · next hlt =>
      cases hleads
      exact ⟨⟨rfl, hline.1, of_decide_eq_true hlt⟩, hsits, hstay nofun⟩
    · cases hleads
      exact ⟨hline, hsits, hstay nofun⟩
  | remove =>
    simp only [mainStmt, Stmt.Leads] at hleads
    split at hleads
    · next hlt =>
      cases hleads
      rw [decide_eq_true_eq] at hlt
      obtain ⟨hlow, hhigh⟩ := hline
      have hlast : t.phyloCount = t.phyloCount - 1 + 1 ∧ minPhy ≤ t.phyloCount - 1 ∧
          t.phyloCount - 1 < maxPhy := by omega
      exact ⟨hlast, hsits, hstay nofun⟩
    · cases hleads
      exact ⟨hline, hsits, hstay nofun⟩
  | pollAdd =>
    simp only [mainStmt, Stmt.Leads] at hleads
    split at hleads <;> cases hleads <;> exact ⟨hline, hsits, hstay nofun⟩
  | pollRemove =>
    simp only [mainStmt, Stmt.Leads] at hleads
    split at hleads <;> cases hleads <;> exact ⟨hline, hsits, hstay nofun⟩
  | pollQuit => 
    simp only [mainStmt, Stmt.Leads] at hleads
    split at hleads <;> cases hleads 
    · exact ⟨⟨rfl, rfl, hline.1⟩, hsits, hstay nofun⟩
    · exact ⟨hline, hsits, hstay nofun⟩
  | closing => exact hline.elim
  | returned => cases hleads

theorem seats_main (hq : Queues k) (hk : Seats k) (hok : NotFromFront k ⟨.main, r⟩)
    (hl : k.lines .main = some l) (h : k.exec .main r (mainStmt k.toTable l) = some k') :
    Seats k' := by
  obtain ⟨l₀, hmain, hseats⟩ := hk
  rw [hl, Option.some.injEq] at hmain
  subst hmain
  obtain ⟨l', hl', hleads⟩ := exec_self hq hl h
  have htable : k'.toTable = (mainStmt k.toTable l).effect k.toTable r := exec_table h
  have hrun := fun i => running_main (i := i) hq hl h
  have hfront : ∀ i max quit, l = .removeAll i max quit → max ≤ 1 := by
    rintro i max quit rfl
    exact hok rfl max (by rw [hl]; rfl)
  have hkill : ∀ i l', mainStmt k.toTable l = .kill i l' → k.Seated i → ¬ k'.Running i :=
    fun i l' hs hseat hi => hi (exec_kill (k := k) (w := .main) (l := l) hs h hseat)
  refine ⟨l', hl', ?_⟩
  rw [htable]
  obtain hleads | ⟨rfl, s, l'', hwait⟩ := hleads
  · exact hseats.step hleads hrun hkill hfront
  · have heff : (mainStmt k.toTable l').effect k.toTable r = k.toTable := by
      have hwait' : mainStmt k.toTable l' = .wait s l'' := hwait
      rw [hwait']
      rfl
    rw [heff]
    refine hseats.congr rfl rfl fun i hi => (hrun i hi).resolve_right ?_
    rintro ⟨l₁, hs, -⟩
    exact absurd (hwait.symm.trans hs) nofun

/-! ### Every run -/

theorem next_exec {e : Event} {o : Unit} (h : next k e = some (k', o)) :
    ∃ l, k.lines e.who = some l ∧ k.exec e.who e.reply (k.stmt e.who l) = some k' := by
  unfold next at h
  split at h
  · cases h
  · next l hl =>
    obtain ⟨k₁, hk₁, he⟩ := Option.map_eq_some_iff.mp h
    cases he
    exact ⟨l, hl, hk₁⟩

/-- The seat that a philosopher is spawned for is behind the last one. -/
theorem Seats.vacant (hk : Seats k) (hl : k.lines .main = some l)
    (hs : mainStmt k.toTable l = .spawn i l') : k.lines (.phylo i) = none := by
  obtain ⟨l₀, hmain, hat⟩ := hk
  rw [hl, Option.some.injEq] at hmain
  subst hmain
  by_contra hrun
  have hruns := hat.runs i hrun
  have hline := hat.line
  cases l with
  | newPhylo line idx seating =>
    cases line <;> cases hs
    have hcount : k.phyloCount = i := hline.1
    exact absurd hruns (Nat.not_lt.mpr (Nat.le_of_eq hcount))
  | removePhylo line idx c => cases line <;> cases hs
  | _ => cases hs

/-- **One step** keeps the seats and the queues. -/
theorem seats_next {e : Event} {o : Unit} (hk : Seats k ∧ Queues k) (hok : NotFromFront k e)
    (h : next k e = some (k', o)) : Seats k' ∧ Queues k' := by
  obtain ⟨hseats, hq⟩ := hk
  obtain ⟨w, r⟩ := e
  obtain ⟨l, hl, he⟩ := next_exec h
  cases w with
  | phylo j =>
    exact ⟨seats_phylo hq hseats hl he, hq.exec hl he fun i l' hs => by cases main_of_spawn hs⟩
  | main =>
    exact ⟨seats_main hq hseats hok hl he, hq.exec hl he fun i l' hs => hseats.vacant hl hs⟩

theorem queues_start : Queues start := by
  intro s sem hs
  cases s with
  | table =>
    cases hs
    exact ⟨List.nodup_nil, nofun⟩
  | phylo i => cases hs

theorem seats_run {ok : Dinner → Event → Prop} (himp : ∀ k e, ok k e → NotFromFront k e)
    {tr : List (Dinner × Event × Unit)} (h : Run ok tr k) : Seats k ∧ Queues k :=
  h.invariant (fun k => Seats k ∧ Queues k) ⟨seats_start, queues_start⟩
    fun k e _ _ hk hok hs => seats_next hk (himp k e hok) hs

end TpeSo.Phylo
