import TpeSo.Phylo.Blank

namespace TpeSo.Phylo

open Lib Dinner

/-!
# `programs/phylo.c` — no philosopher waits without reason

Whoever joins or leaves the circle changes who is beside whom, and a philosopher that leaves while
`DRIVING` promotes nobody, unlike `leave_pedals`.

* `NoStranding` — no end of the circle waits for the place that the change takes away from it;
* `PhyloServes`, `MainServes` — what is known about those who wait, at each line inside;
* `serveOutline` — the steps of one process inside keep it;
* `waiters_run` — **the statement about whole runs**; `stranded_add`, `stranded_remove` — the runs
  it excludes.
-/

variable {k k' : Dinner} {w : Who} {r : Reply} {t t' : Table} {i j n : Nat}
  {tr : List (Dinner × Event × Unit)} {W W' D D' : Nat → Prop}

/-! ### Who is stranded -/

/-- `a` waits, of its neighbours `b` is `DRIVING` and `c` is not. -/
def Relies (t : Table) (a b c : Nat) : Prop := t.Waiting a ∧ t.Driving b ∧ ¬ t.Driving c

/-- The statement takes a neighbour away from somebody who relies on it. -/
def Strands (t : Table) : MainLine → Prop
  | .newPhylo .count idx _ =>
    t.Seated idx ∧ (Relies t 0 (idx - 1) 1 ∨ Relies t (idx - 1) 0 (idx - 2))
  | .removePhylo .state idx _ => Relies t 0 idx 1 ∨ Relies t (idx - 1) idx (idx - 2)
  | _ => False

instance (t : Table) (a b c : Nat) : Decidable (Relies t a b c) := by
  unfold Relies
  infer_instance

instance (t : Table) : DecidablePred (Strands t) := fun l => by
  unfold Strands
  split <;> infer_instance

/-- Philosophers join and leave at the end of the circle, and no change strands an end of it. -/
def NoStranding (k : Dinner) (e : Event) : Prop :=
  NoRemoveAll k e ∧ (e.who = .main → ∀ l ∈ k.lines .main, ¬ Strands k.toTable l)

instance (e : Event) : Decidable (NoStranding k e) := by
  unfold NoStranding
  infer_instance

/-! ### Who waits, at each line -/

/-- What is known inside a philosopher's functions, of those who wait and those who eat. -/
def PhyloServes (n : Nat) (W D : Nat → Prop) (i : Nat) : PhyloLine → Prop
  | .takeTest =>
    (¬ D (Circle.left n i) ∧ ¬ D (Circle.right n i) →
      Circle.Served n (fun j => W j ∧ j ≠ i) fun j => D j ∨ j = i) ∧
    (D (Circle.left n i) ∨ D (Circle.right n i) → Circle.Served n W D)
  | .takeDriving => Circle.Served n (fun j => W j ∧ j ≠ i) fun j => D j ∨ j = i
  | .leaveTestLeft | .leaveDriveLeft =>
    Circle.Served n (fun j => W j ∧ j ≠ Circle.left n i ∧ j ≠ Circle.right n i) D
  | .leavePostLeft | .leaveTestRight | .leaveDriveRight =>
    Circle.Served n (fun j => W j ∧ j ≠ Circle.right n i) D
  | _ => Circle.Served n W D

/-- What is known inside the main program's functions. -/
def MainServes (n : Nat) (W D : Nat → Prop) : MainLine → Prop
  | .newPhylo .count idx _ => Circle.Served n W D ∧ ¬ W idx
  | .removePhylo .count idx _ => Circle.Served idx W D
  | _ => Circle.Served n W D

def ServesAt (t : Table) : (w : Who) → w.Line → Prop
  | .main, l => MainServes t.phyloCount t.Waiting t.Driving l
  | .phylo i, l => PhyloServes t.phyloCount t.Waiting t.Driving i l

/-- Those who wait may become fewer. -/
theorem PhyloServes.mono {l : PhyloLine} (h : PhyloServes n W D i l) (hw : ∀ j, W' j → W j)
    (hd : ∀ j, D' j ↔ D j) : PhyloServes n W' D' i l := by
  obtain rfl : D' = D := funext fun j => propext (hd j)
  have hmono : ∀ X E : Nat → Prop, Circle.Served n (fun j => W j ∧ X j) E →
      Circle.Served n (fun j => W' j ∧ X j) E := fun X E hs =>
    hs.mono (fun j _ hj => ⟨hw j hj.1, hj.2⟩) fun _ _ => id
  have hall : Circle.Served n W D' → Circle.Served n W' D' :=
    fun hs => hs.mono (fun j _ => hw j) fun _ _ => id
  cases l with
  | takeTest => exact ⟨fun hf => hmono _ _ (h.1 hf), fun hf => hall (h.2 hf)⟩
  | takeDriving => exact hmono (fun j => j ≠ i) (fun j => D' j ∨ j = i) h
  | leaveTestLeft | leaveDriveLeft =>
    exact hmono (fun j => j ≠ Circle.left n i ∧ j ≠ Circle.right n i) _ h
  | leavePostLeft | leaveTestRight | leaveDriveRight =>
    exact hmono (fun j => j ≠ Circle.right n i) _ h
  | _ => exact hall h

theorem MainServes.mono {l : MainLine} (h : MainServes n W D l) (hw : ∀ j, W' j → W j)
    (hd : ∀ j, D' j ↔ D j) : MainServes n W' D' l := by
  obtain rfl : D' = D := funext fun j => propext (hd j)
  have hall : ∀ m, Circle.Served m W D' → Circle.Served m W' D' :=
    fun m hs => hs.mono (fun j _ => hw j) fun _ _ => id
  cases l with
  | newPhylo line idx seating =>
    cases line with
    | count => exact ⟨hall _ h.1, fun hi => h.2 (hw idx hi)⟩
    | _ => exact hall _ h
  | removePhylo line idx c =>
    cases line <;> exact hall _ h
  | _ => exact hall _ h

/-! ### The states of the philosophers -/

namespace Table

theorem waiting_of_setState {st : PhyloState} (hst : st ≠ .waiting)
    (h : (t.setState j st).Waiting i) : t.Waiting i ∧ i ≠ j := by
  have hij : i ≠ j := by
    rintro rfl
    exact hst ((setState_self t i st).symm.trans h)
  exact ⟨(setState_of_ne hij t st).symm.trans h, hij⟩

theorem driving_setState {st : PhyloState} (h : t.Driving i) (hij : i ≠ j) :
    (t.setState j st).Driving i := (setState_of_ne hij t st).trans h

theorem driving_drive (h : t.Driving i ∨ i = j) : (t.setState j .driving).Driving i := by
  by_cases hij : i = j
  · rw [hij]
    exact setState_self ..
  · exact driving_setState (h.resolve_right hij) hij

end Table

/-- Somebody who waits, or not, is promoted. -/
theorem served_drive (h : Circle.Served n (fun j => t.Waiting j ∧ j ≠ i)
    fun j => t.Driving j ∨ j = i) :
    Circle.Served n (t.setState i .driving).Waiting (t.setState i .driving).Driving :=
  h.mono (fun _ _ => Table.waiting_of_setState nofun) fun _ _ => Table.driving_drive

/-- The test of `take_pedals` tells whether the philosopher would wait without reason. -/
theorem serves_taking (hs : Safe t) (hi : i < t.phyloCount)
    (h : Circle.Served t.phyloCount t.Waiting t.Driving) :
    PhyloServes t.phyloCount (t.setState i .waiting).Waiting (t.setState i .waiting).Driving i
      .takeTest := by
  have hwait : ∀ j, (t.setState i .waiting).Waiting j → j ≠ i → t.Waiting j :=
    fun j hj hji => (Table.setState_of_ne hji t .waiting).symm.trans hj
  constructor
  · rintro -
    refine h.mono (fun j _ hj => hwait j hj.1 hj.2) fun j _ hj => ?_
    by_cases hji : j = i
    · exact .inr hji
    · exact .inl (Table.driving_setState hj hji)
  · intro hbeside
    -- whoever has a neighbour that eats did not eat
    have hself : ¬ t.Driving i := by
      intro hd
      obtain hb | hb := hbeside
      · have hne : i ≠ Circle.left t.phyloCount i := by
          intro he
          rw [← he] at hb
          exact absurd ((Table.setState_self t i .waiting).symm.trans hb) nofun
        exact hs.apart i _ hi (Circle.left_lt hi) hne (.inl rfl) hd
          (Table.driving_of_setState (by nofun) hb)
      · have hne : i ≠ Circle.right t.phyloCount i := by
          intro he
          rw [← he] at hb
          exact absurd ((Table.setState_self t i .waiting).symm.trans hb) nofun
        exact hs.apart i _ hi (Circle.right_lt hi) hne (.inr rfl) hd
          (Table.driving_of_setState (by nofun) hb)
    have hdriving : ∀ j, t.Driving j → (t.setState i .waiting).Driving j := fun j hj =>
      Table.driving_setState hj (by rintro rfl; exact hself hj)
    intro j hj hwj
    by_cases hji : j = i
    · rw [hji]
      exact hbeside
    · exact (h j hj (hwait j hwj hji)).imp (hdriving _) (hdriving _)

/-- A philosopher that stops eating leaves only its neighbours without reason to wait. -/
theorem serves_leaving (h : Circle.Served t.phyloCount t.Waiting t.Driving) :
    PhyloServes t.phyloCount (t.setState i .thinking).Waiting (t.setState i .thinking).Driving i
      .leaveTestLeft := by
  rintro j hj ⟨hwj, hl, hr⟩
  obtain ⟨hwj, -⟩ := Table.waiting_of_setState (by nofun) hwj
  refine (h j hj hwj).imp (fun hd => Table.driving_setState hd ?_)
    fun hd => Table.driving_setState hd ?_
  · intro he
    exact hr (by rw [← he, Circle.right_left hj])
  · intro he
    exact hl (by rw [← he, Circle.left_right hj])

/-- A philosopher's statement. -/
theorem servesAt_phylo {l l' : PhyloLine} (hs : Safe t) (hi : i < t.phyloCount) (hin : l.inside)
    (hin' : l'.inside) (hleads : (phyloStmt t i l).Leads r l')
    (h : PhyloServes t.phyloCount t.Waiting t.Driving i l) :
    ServesAt ((phyloStmt t i l).effect t r) (.phylo i) l' := by
  cases l with
  | takeWaiting =>
    cases hleads
    exact serves_taking hs hi h
  | takeTest =>
    simp only [phyloStmt, Stmt.Leads, decide_eq_true_eq] at hleads
    split at hleads
    · next hfree =>
      cases hleads
      exact h.1 hfree
    · next hbeside =>
      cases hleads
      refine h.2 ?_
      by_contra hno
      exact hbeside (not_or.mp hno)
  | takeDriving =>
    cases hleads
    exact served_drive h
  | leaveThinking =>
    cases hleads
    exact serves_leaving h
  | leaveTestLeft =>
    simp only [phyloStmt, Stmt.Leads, decide_eq_true_eq] at hleads
    split at hleads
    · cases hleads
      exact h
    · next hno =>
      cases hleads
      rintro j hj ⟨hwj, hr⟩
      by_cases hjl : j = Circle.left t.phyloCount i
      · subst hjl
        by_contra hnone
        exact hno ⟨hwj, (not_or.mp hnone).1⟩
      · exact h j hj ⟨hwj, hjl, hr⟩
  | leaveDriveLeft =>
    cases hleads
    rintro j hj ⟨hwj, hr⟩
    change (t.setState (t.left i) .driving).Waiting j at hwj
    obtain ⟨hwj, hjl⟩ := Table.waiting_of_setState (by decide) hwj
    exact (h j hj ⟨hwj, hjl, hr⟩).imp (fun hd => Table.driving_drive (.inl hd))
      fun hd => Table.driving_drive (.inl hd)
  | leaveTestRight =>
    simp only [phyloStmt, Stmt.Leads, decide_eq_true_eq] at hleads
    split at hleads
    · cases hleads
      exact h
    · next hno =>
      cases hleads
      intro j hj hwj
      by_cases hjr : j = Circle.right t.phyloCount i
      · subst hjr
        by_contra hnone
        exact hno ⟨hwj, (not_or.mp hnone).2⟩
      · exact h j hj ⟨hwj, hjr⟩
  | leaveDriveRight =>
    cases hleads
    intro j hj hwj
    change (t.setState (t.right i) .driving).Waiting j at hwj
    obtain ⟨hwj, hjr⟩ := Table.waiting_of_setState (by decide) hwj
    exact (h j hj ⟨hwj, hjr⟩).imp (fun hd => Table.driving_drive (.inl hd))
      fun hd => Table.driving_drive (.inl hd)
  | takePost | leavePostLeft | leavePostRight =>
    cases hleads
    exact h
  | takeUnlock | leaveUnlock =>
    cases hleads
    exact hin'.elim
  | start | loop | takeWait | takeOwn | leaveWait => exact hin.elim

theorem driving_of_waiting (h : t.Waiting i) : ¬ t.Driving i :=
  fun hd => absurd (h.symm.trans hd) nofun

/-- A statement of the main program. -/
theorem servesAt_main {l l' : MainLine} (hline : LineOk t l) (hin : l.inside) (hin' : l'.inside)
    (hleads : (mainStmt t l).Leads r l') (hok : ¬ Strands t l)
    (hblank : ∀ idx s, l = .newPhylo .spawn idx s → ¬ t.Waiting idx)
    (h : MainServes t.phyloCount t.Waiting t.Driving l) :
    ServesAt ((mainStmt t l).effect t r) .main l' := by
  cases l with
  | newPhylo line idx seating =>
    cases line with
    | wait => exact absurd rfl hin
    | create =>
      obtain ⟨-, rfl⟩ | rfl := hleads
      · exact h
      · exact absurd hin' (not_inside_afterNew idx seating _)
    | spawn =>
      cases hleads
      exact ⟨h, hblank idx seating rfl⟩
    | count =>
      cases hleads
      have hcount : t.phyloCount = idx := hline.1
      change Circle.Served (if t.Seated idx then t.phyloCount + 1 else t.phyloCount) _ _
      obtain ⟨hserved, hnew⟩ := h
      split
      · next hseat =>
        obtain ⟨hfirst, hlast⟩ := not_or.mp fun hs => hok ⟨hseat, hs⟩
        rw [hcount] at hserved ⊢
        exact hserved.grow hnew (fun i _ => driving_of_waiting) hfirst hlast
      · exact hserved
    | unlock =>
      cases hleads
      exact absurd hin' (not_inside_afterNew idx seating _)
  | removePhylo line idx c =>
    cases line with
    | wait => exact absurd rfl hin.1
    | sleep => exact absurd rfl hin.2.1
    | retake => exact absurd rfl hin.2.2
    | test =>
      simp only [mainStmt, Stmt.Leads, decide_eq_true_eq] at hleads
      split at hleads <;> cases hleads <;> exact h
    | release =>
      cases hleads
      exact absurd rfl hin'.2.1
    | kill | close | pid =>
      cases hleads
      exact h
    | state =>
      cases hleads
      obtain ⟨hcount, hc⟩ := hline
      change t.phyloCount = idx + 1 at hcount
      change Circle.Served t.phyloCount _ _ at h
      rw [hcount] at h
      have hsmall : Circle.Served idx t.Waiting t.Driving := by
        obtain ⟨hfirst, hlast⟩ := not_or.mp hok
        cases c with
        | loop =>
          have htwo : 2 ≤ idx := Nat.le_trans (by decide) hc.1
          exact h.shrink htwo (fun hs => hfirst ⟨hs.2.1, hs.1, hs.2.2⟩)
            fun hs => hlast ⟨hs.2.1, hs.1, hs.2.2⟩
        | removeAll max quit =>
          obtain ⟨rfl, -⟩ := hc
          exact fun i hi => absurd hi (Nat.not_lt_zero i)
      refine hsmall.mono (fun i _ hw => (Table.waiting_of_setState (by decide) hw).1) fun i hi hd => ?_
      exact Table.driving_setState hd (Nat.ne_of_lt hi)
    | count =>
      cases hleads
      have hcount : t.phyloCount = idx + 1 := hline.1
      change Circle.Served (t.phyloCount - 1) _ _
      rw [hcount]
      exact h
    | unlock =>
      cases hleads
      exact absurd hin' (not_inside_afterRemove idx c)
  | _ => exact hin.elim

/-! ### Every run -/

/-- What the rule may rely on. -/
structure Tended (k : Dinner) : Prop where
  orderly : Orderly k
  safe : safeOutline.Valid k
  blank : Blank k

/-- Whoever sits down did not eat. -/
theorem Tended.sits (hk : Tended k) (hi : k.lines (.phylo i) = some .start) :
    (∀ j, (k.toTable.setState i .thinking).Waiting j → k.Waiting j) ∧
      ∀ j, (k.toTable.setState i .thinking).Driving j ↔ k.Driving j := by
  have hnone := hk.blank.fresh i hi
  refine ⟨fun j hj => (Table.waiting_of_setState (by decide) hj).1, fun j => ?_⟩
  refine ⟨Table.driving_of_setState (by decide), fun hd => Table.driving_setState hd ?_⟩
  rintro rfl
  exact absurd (hnone.symm.trans hd) (by decide)

/-- **What `SEM_ID` protects.** -/
def serveOutline : Outline Tended NoStranding where
  free t := Circle.Served t.phyloCount t.Waiting t.Driving
  known := ServesAt
  start := fun i hi => absurd hi (Nat.not_lt_zero i)
  enter := by
    intro k w l l' hk hl hst h
    cases w with
    | phylo i => cases l <;> cases hst <;> exact h
    | main =>
      cases l with
      | newPhylo line idx seating =>
        cases line <;> cases hst
        exact h
      | removePhylo line idx c => cases line <;> cases hst <;> exact h
      | _ => cases hst
  leave := by
    intro k w l l' hk hl hst h
    cases w with
    | phylo i => cases l <;> cases hst <;> exact h
    | main =>
      cases l with
      | newPhylo line idx seating =>
        cases line <;> cases hst
        exact h
      | removePhylo line idx c => cases line <;> cases hst <;> exact h
      | _ => cases hst
  fail := by
    intro k w l l₁ l₂ i hk hl hst h
    cases w with
    | phylo j => cases l <;> cases hst
    | main =>
      cases l with
      | newPhylo line idx seating =>
        cases line <;> cases hst
        exact h
      | removePhylo line idx c => cases line <;> cases hst
      | _ => cases hst
  inside := by
    rintro k ⟨w, r⟩ l l' hk hok hl hin hin' hleads h
    cases w with
    | phylo i =>
      exact servesAt_phylo (safe_of_valid hk.safe) (hk.orderly.lt_count hl hin) hin hin' hleads h
    | main =>
      refine servesAt_main (hk.orderly.lineOk hl) hin hin' hleads (hok.2 rfl l hl) ?_ h
      rintro idx s rfl hw
      have hnone : k.lines (.phylo idx) = none := hk.orderly.seats.vacant hl rfl
      have hblank := hk.blank.vacant idx hnone (by rw [hl]; nofun)
      exact absurd (hblank.symm.trans hw) nofun
  sits := by
    intro k i hk hi h
    obtain ⟨hw, hd⟩ := hk.sits hi
    exact h.mono (fun j _ => hw j) fun j _ => (hd j).mpr
  sits_known := by
    intro k i w l hk hi hl hin h
    obtain ⟨hw, hd⟩ := hk.sits hi
    cases w with
    | phylo j => exact h.mono hw hd
    | main => exact h.mono hw hd

theorem serve_run (h : Run NoStranding tr k) : Tended k ∧ serveOutline.Valid k := by
  refine h.invariant (fun k => Tended k ∧ serveOutline.Valid k)
    ⟨⟨orderly_start, safeOutline.valid_start, blank_start⟩, serveOutline.valid_start⟩ ?_
  rintro k e k' o ⟨hk, hv⟩ hok hs
  refine ⟨⟨?_, ?_, ?_⟩, serveOutline.next hk.orderly hk hv hok hs⟩
  · exact orderly_next hk.orderly hok.1.notFromFront hs
  · exact safeOutline.next hk.orderly hk.orderly hk.safe hok.1 hs
  · exact blank_next hk.orderly hk.safe hk.blank hs

/-- **No philosopher waits without reason**: in every run in which no change strands an end of the
    circle, whenever `SEM_ID` is free. -/
theorem waiters_run (h : Run NoStranding tr k) (hfree : Free k) (i : Nat) (hseat : k.Seated i)
    (hwait : k.phyloStates i = .waiting) :
    k.phyloStates (k.left i) = .driving ∨ k.phyloStates (k.right i) = .driving := by
  obtain ⟨hk, hv⟩ := serve_run h
  have hnobody := hk.orderly.nobody hfree
  exact hv.free hnobody i ((hk.orderly.seated_iff (hnobody .main) i).mp hseat) hwait

/-- `SEM_ID` is free and `i` waits without reason. -/
def Stranded (k : Dinner) (i : Nat) : Prop :=
  Free k ∧ k.Seated i ∧ k.Waiting i ∧ ¬ k.Driving (k.left i) ∧ ¬ k.Driving (k.right i)

instance (k : Dinner) (i : Nat) : Decidable (Stranded k i) := by
  unfold Stranded
  infer_instance

/-- Philosopher 2 eats and its neighbour 0 waits for it. -/
def rivals : List Event := seating 10 ++ seating 11 ++ seating 12 ++ eating 2 9 ++ eating 0 6

theorem waiters_run_rivals : ∃ tr k, Run NoStranding tr k ∧ k.phyloStates 0 = .waiting ∧
    (k.phyloStates (k.left 0) = .driving ∨ k.phyloStates (k.right 0) = .driving) := by
  have hcheck : execCheck next NoStranding
      (fun _ k => decide (Free k ∧ k.Seated 0 ∧ k.Waiting 0)) start rivals = true := by
    decide +kernel
  obtain ⟨tr, k, h, hQ⟩ := Trace.of_execCheck hcheck
  obtain ⟨hfree, hseat, hwait⟩ := of_decide_eq_true hQ
  exact ⟨tr, k, h, hwait, waiters_run h hfree 0 hseat hwait⟩

/-- A fourth philosopher sits down between 2 and 0: 0 goes on waiting, and nobody beside it
    eats. -/
theorem stranded_add : ∃ tr k, Run NoRemoveAll tr k ∧ Stranded k 0 := by
  have hcheck : execCheck next NoRemoveAll (fun _ k => decide (Stranded k 0)) start
      (rivals ++ [⟨.main, {}⟩, ⟨.main, { yes := true }⟩] ++ seating 13) = true := by
    decide +kernel
  obtain ⟨tr, k, h, hQ⟩ := Trace.of_execCheck hcheck
  exact ⟨tr, k, h, of_decide_eq_true hQ⟩

/-- The fourth philosopher is removed while it eats: nobody promotes its neighbour 0. -/
theorem stranded_remove : ∃ tr k, Run NoRemoveAll tr k ∧ Stranded k 0 := by
  have hcheck : execCheck next NoRemoveAll (fun _ k => decide (Stranded k 0)) start
      (seating 10 ++ seating 11 ++ seating 12 ++ [⟨.main, {}⟩, ⟨.main, { yes := true }⟩] ++
        seating 13 ++ eating 3 9 ++ eating 0 6 ++ [⟨.main, { yes := true }⟩] ++
        List.replicate 9 ⟨.main, {}⟩) = true := by
    decide +kernel
  obtain ⟨tr, k, h, hQ⟩ := Trace.of_execCheck hcheck
  exact ⟨tr, k, h, of_decide_eq_true hQ⟩

end TpeSo.Phylo
