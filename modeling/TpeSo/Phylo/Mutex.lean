import TpeSo.Lib.Token
import TpeSo.Phylo.Seats

namespace TpeSo.Phylo

open Lib Dinner

/-!
# `programs/phylo.c` — what `SEM_ID` protects

* `Who.inside`, `Holds` — the lines between a wait for `SEM_ID` and the post of it;
* `Locked k` — `SEM_ID` is free or one process is inside; `locked_next`;
* `Outline` — what is known at each line inside, and what is known when nobody is inside;
* `Outline.next` — the rule: it is enough to look at the steps of one process inside.
-/

variable {k k' : Dinner} {w v : Who} {r : Reply} {s : SemId} {i : Nat} {e : Event} {o : Unit}

/-- `take_pedals` and `leave_pedals` between the wait for `SEM_ID` and the post. -/
def PhyloLine.inside : PhyloLine → Prop
  | .start | .loop | .takeWait | .takeOwn | .leaveWait => False
  | _ => True

/-- `new_phylo` and `remove_phylo` between a wait for `SEM_ID` and the post. -/
def MainLine.inside : MainLine → Prop
  | .newPhylo line _ _ => line ≠ .wait
  | .removePhylo line _ _ => line ≠ .wait ∧ line ≠ .sleep ∧ line ≠ .retake
  | _ => False

def Who.inside : (w : Who) → w.Line → Prop
  | .main, l => MainLine.inside l
  | .phylo _, l => PhyloLine.inside l

/-- How a statement may lead from one side to the other. -/
def Stmt.Crosses {L : Type} (inside : L → Prop) (l : L) : Stmt L → Prop
  | .wait .table l' => ¬ inside l ∧ inside l'
  | .wait (.phylo _) l' | .close .table l' => ¬ inside l ∧ ¬ inside l'
  | .post .table l' => inside l ∧ ¬ inside l'
  | .post (.phylo _) l' | .close (.phylo _) l' | .spawn _ l' | .kill _ l' | .clearPid _ l'
  | .setCount _ l' => inside l ∧ inside l'
  | .setState _ _ l' => inside l ↔ inside l'
  | .test _ l₁ l₂ => (inside l ↔ inside l₁) ∧ (inside l ↔ inside l₂)
  | .ask l₁ l₂ => ¬ inside l ∧ ¬ inside l₁ ∧ ¬ inside l₂
  | .create _ l₁ l₂ => inside l ∧ inside l₁ ∧ ¬ inside l₂
  | .halt => ¬ inside l

theorem not_inside_afterNew (idx : Nat) (seating ok : Bool) :
    ¬ (afterNew idx seating ok).inside := by
  cases seating <;> cases ok <;> exact id

theorem not_inside_afterRemove (idx : Nat) (c : Caller) : ¬ (afterRemove idx c).inside := by
  cases c <;> exact id

/-- **Every line of the program**: inside is entered by a wait for `SEM_ID`, and left by the post
    of it or by a creation that fails. -/
theorem crosses (k : Dinner) (w : Who) (l : w.Line) : (k.stmt w l).Crosses w.inside l := by
  cases w with
  | phylo i =>
    cases l <;> simp [stmt, phyloStmt, Stmt.Crosses, Who.inside, PhyloLine.inside]
  | main =>
    cases l with
    | newPhylo line idx seating =>
      cases line <;> simp [stmt, mainStmt, Stmt.Crosses, Who.inside, MainLine.inside]
      all_goals exact not_inside_afterNew idx seating _
    | removePhylo line idx c =>
      cases line <;> simp [stmt, mainStmt, Stmt.Crosses, Who.inside, MainLine.inside]
      exact not_inside_afterRemove idx c
    | removeAll i max quit =>
      cases quit <;> simp [stmt, mainStmt, Stmt.Crosses, Who.inside, MainLine.inside]
    | _ => simp [stmt, mainStmt, Stmt.Crosses, Who.inside, MainLine.inside]

/-- `w` is inside. -/
def Holds (k : Dinner) (w : Who) : Prop := ∃ l, k.lines w = some l ∧ w.inside l

/-- `SEM_ID` exists, and it is free or one process is inside. -/
def Locked (k : Dinner) : Prop :=
  ∃ sem, k.sems .table = some sem ∧ OneToken sem.value (Holds k)

theorem holds_iff {l : w.Line} (hl : k.lines w = some l) : Holds k w ↔ w.inside l := by
  constructor
  · rintro ⟨l', hl', hin⟩
    rw [hl, Option.some.injEq] at hl'
    exact hl' ▸ hin
  · exact fun hin => ⟨l, hl, hin⟩

/-! ### How a step crosses -/

/-- **What a step of `w` at `l` does about `SEM_ID`**, whose state changes from `sem` to `sem'`. -/
inductive Crossing (k k' : Dinner) (w : Who) (l : w.Line) (r : Reply) (sem sem' : Fifo Who) :
    Prop where
  | within (hin : w.inside l) (hin' : Holds k' w) (hval : sem'.value = sem.value)
      (hrest : ∀ u, u ≠ w → Holds k' u → k'.lines u = k.lines u)
  | outside (hout : ¬ w.inside l) (hout' : ¬ Holds k' w) (hval : sem'.value = sem.value)
      (hrest : ∀ u, u ≠ w → Holds k' u → k'.lines u = k.lines u)
      (hkeep : ∀ u, u ≠ w → Holds k u → Holds k' u)
  | enters {l' : w.Line} (hst : k.stmt w l = .wait .table l') (hl' : k'.lines w = some l')
      (hpos : 0 < sem.value) (hval : sem'.value = sem.value - 1)
      (hrest : ∀ u, u ≠ w → Holds k' u → k'.lines u = k.lines u)
  | leaves {l' : w.Line} (hst : k.stmt w l = .post .table l') (hout' : ¬ Holds k' w)
      (hval : sem'.value = sem.value + 1)
      (hrest : ∀ u, u ≠ w → Holds k' u → k'.lines u = k.lines u)
  | hands {l' : w.Line} {v : Who} {lv lv' : v.Line} (hst : k.stmt w l = .post .table l')
      (hout' : ¬ Holds k' w) (hne : v ≠ w) (hlv : k.lines v = some lv)
      (hsv : k.stmt v lv = .wait .table lv') (hlv' : k'.lines v = some lv')
      (hval : sem'.value = sem.value)
      (hrest : ∀ u, u ≠ w → u ≠ v → Holds k' u → k'.lines u = k.lines u)
  | fails {i : Nat} {l₁ l₂ : w.Line} (hst : k.stmt w l = .create i l₁ l₂)
      (hfail : ¬ (r.yes ∧ k.sems (.phylo i) = none)) (hout' : ¬ Holds k' w)
      (hval : sem'.value = sem.value)
      (hrest : ∀ u, u ≠ w → Holds k' u → k'.lines u = k.lines u)

variable {l : w.Line}

/-- Who is inside after a statement that does not post `SEM_ID` is where it was. -/
theorem rest_of_not_post (hq : Queues k) (hl : k.lines w = some l)
    (h : k.exec w r (k.stmt w l) = some k') (hst : ∀ l', k.stmt w l ≠ .post .table l')
    (u : Who) (hne : u ≠ w) (hu : Holds k' u) : k'.lines u = k.lines u := by
  have ho := exec_other hq hl h hne
  generalize hs : k.stmt w l = st at ho
  cases ho with
  | same h => exact h
  | @woken s l₁ lv lv' hlv hsv h =>
    have hcross := crosses k u lv
    rw [hsv] at hcross
    cases s with
    | table => exact absurd hs (hst _)
    | phylo i => exact absurd ((holds_iff h).mp hu) hcross.2
  | spawned hv _ h =>
    subst hv
    exact absurd ((holds_iff h).mp hu) id
  | killed _ _ h =>
    obtain ⟨lu, hlu, -⟩ := hu
    rw [h] at hlu
    cases hlu

/-- A statement outside takes nobody out. -/
theorem keep_of_outside (hq : Queues k) (hl : k.lines w = some l)
    (h : k.exec w r (k.stmt w l) = some k') (hout : ¬ w.inside l) (u : Who) (hne : u ≠ w)
    (hu : Holds k u) : Holds k' u := by
  obtain ⟨lu, hlu, hin⟩ := hu
  have ho := exec_other hq hl h hne
  have hcross := crosses k w l
  generalize hs : k.stmt w l = st at ho hcross
  cases ho with
  | same h => exact ⟨lu, h.trans hlu, hin⟩
  | @woken s l₁ lv lv' hlv hsv h =>
    cases s with
    | table => exact absurd hcross.1 hout
    | phylo i => exact absurd hcross.1 hout
  | spawned => exact absurd hcross.1 hout
  | killed => exact absurd hcross.1 hout

/-- A statement other than a wait, a post or a close of `SEM_ID` leaves its counter alone. -/
theorem sem_of_other {sem : Fifo Who} (hq : Queues k) (hl : k.lines w = some l)
    (hs : k.sems .table = some sem) (h : k.exec w r (k.stmt w l) = some k')
    (hwait : ∀ l', k.stmt w l ≠ .wait .table l')
    (hpost : ∀ l', k.stmt w l ≠ .post .table l') (hclose : ∀ l', k.stmt w l ≠ .close .table l') :
    ∃ sem', k'.sems .table = some sem' ∧ sem'.value = sem.value := by
  cases hst : k.stmt w l with
  | wait s l' =>
    cases s with
    | table => exact absurd hst (hwait l')
    | phylo i =>
      rw [hst] at h
      unfold Dinner.exec at h
      dsimp only at h
      split at h
      · cases h
        exact ⟨sem, hs, rfl⟩
      · split at h
        · cases h
        · cases h
          refine ⟨sem, ?_, rfl⟩
          split
          · rw [goto_sems, setSem_phylo, hs]
          · rw [setSem_phylo, hs]
  | post s l' =>
    cases s with
    | table => exact absurd hst (hpost l')
    | phylo i =>
      rw [hst] at h
      cases h
      refine ⟨sem, ?_, rfl⟩
      generalize hk : (k.goto w l').post (.phylo i) = k₁
      have hp := posted hq hl hst
      rw [hk] at hp
      cases hp with
      | missing => exact hs
      | counted => rw [setSem_phylo, goto_sems, hs]
      | handed => rw [goto_sems, setSem_phylo, goto_sems, hs]
  | close s l' =>
    cases s with
    | table => exact absurd hst (hclose l')
    | phylo i =>
      rw [hst] at h
      cases h
      exact ⟨sem, by rw [goto_sems, setSem_phylo, hs], rfl⟩
  | kill i l' =>
    rw [hst] at h
    cases h
    rw [goto_sems]
    split
    · exact ⟨sem.drop (.phylo i), by rw [stop_sems, hs]; rfl, rfl⟩
    · exact ⟨sem, hs, rfl⟩
  | create i l₁ l₂ =>
    rw [hst] at h
    unfold Dinner.exec at h
    dsimp only at h
    split at h <;> cases h
    · exact ⟨sem, by rw [goto_sems, setSem_phylo, hs], rfl⟩
    · exact ⟨sem, hs, rfl⟩
  | spawn i l' =>
    rw [hst] at h
    cases h
    refine ⟨sem, ?_, rfl⟩
    split <;> exact hs
  | halt =>
    rw [hst] at h
    cases h
  | _ =>
    rw [hst] at h
    cases h
    exact ⟨sem, hs, rfl⟩

/-- Any other statement leads from inside to inside, and from outside to outside. -/
theorem side_of_other (hq : Queues k) (hl : k.lines w = some l)
    (h : k.exec w r (k.stmt w l) = some k') (hwait : ∀ l', k.stmt w l ≠ .wait .table l')
    (hpost : ∀ l', k.stmt w l ≠ .post .table l')
    (hcreate : ∀ i l₁ l₂, k.stmt w l ≠ .create i l₁ l₂) : Holds k' w ↔ w.inside l := by
  obtain ⟨l', hl', hleads⟩ := exec_self hq hl h
  rw [holds_iff hl']
  obtain hleads | ⟨rfl, -⟩ := hleads
  · have hcross := crosses k w l
    cases hst : k.stmt w l with
    | wait s l₁ =>
      rw [hst] at hleads hcross
      cases hleads
      cases s with
      | table => exact absurd hst (hwait l')
      | phylo i => exact iff_of_false hcross.2 hcross.1
    | post s l₁ =>
      rw [hst] at hleads hcross
      cases hleads
      cases s with
      | table => exact absurd hst (hpost l')
      | phylo i => exact iff_of_true hcross.2 hcross.1
    | close s l₁ =>
      rw [hst] at hleads hcross
      cases hleads
      cases s with
      | table => exact iff_of_false hcross.2 hcross.1
      | phylo i => exact iff_of_true hcross.2 hcross.1
    | test b l₁ l₂ =>
      rw [hst] at hleads hcross
      cases hleads
      split
      · exact hcross.1.symm
      · exact hcross.2.symm
    | ask l₁ l₂ =>
      rw [hst] at hleads hcross
      cases hleads
      refine iff_of_false ?_ hcross.1
      split
      · exact hcross.2.1
      · exact hcross.2.2
    | setState i st l₁ =>
      rw [hst] at hleads hcross
      cases hleads
      exact hcross.symm
    | create i l₁ l₂ => exact absurd hst (hcreate i l₁ l₂)
    | halt =>
      rw [hst] at hleads
      exact hleads.elim
    | _ =>
      rw [hst] at hleads hcross
      cases hleads
      exact iff_of_true hcross.2 hcross.1
  · exact Iff.rfl

/-- `SEM_ID` is closed at the very end only. -/
theorem not_close (hk : Seats k) (hl : k.lines w = some l) (l' : w.Line) :
    k.stmt w l ≠ .close .table l' := by
  intro hst
  cases w with
  | phylo j => cases l <;> cases hst
  | main =>
    obtain ⟨l₀, hmain, hat⟩ := hk
    rw [hl, Option.some.injEq] at hmain
    subst hmain
    cases l with
    | newPhylo line idx seating => cases line <;> cases hst
    | removePhylo line idx c => cases line <;> cases hst
    | closing => exact hat.line
    | _ => cases hst

/-- **Every step crosses in one of these ways.** -/
theorem crossing {sem : Fifo Who} (hk : Seats k) (hq : Queues k) (hs : k.sems .table = some sem)
    (hl : k.lines w = some l) (h : k.exec w r (k.stmt w l) = some k') :
    ∃ sem', k'.sems .table = some sem' ∧ Crossing k k' w l r sem sem' := by
  have hcross := crosses k w l
  have hrest := rest_of_not_post hq hl h
  by_cases hwait : ∃ l', k.stmt w l = .wait .table l'
  · obtain ⟨l', hst⟩ := hwait
    have hrest := hrest (by rw [hst]; nofun)
    have hkeep := keep_of_outside hq hl h
    rw [hst] at h hcross
    unfold Dinner.exec at h
    dsimp only at h
    rw [hs] at h
    dsimp only at h
    split at h
    · cases h
    · cases h
      by_cases hw : (sem.wait w).2 = true
      · rw [if_pos hw] at hrest hkeep ⊢
        obtain ⟨hpos, hval⟩ := Fifo.value_of_granted hw
        exact ⟨_, by rw [goto_sems, setSem_sems], .enters hst (goto_lines ..) hpos hval hrest⟩
      · rw [if_neg hw] at hrest hkeep ⊢
        have hval := Fifo.value_of_queued (eq_false_of_ne_true hw)
        exact ⟨_, setSem_sems .., .outside hcross.1 (fun hh => hcross.1 ((holds_iff hl).mp hh)) hval
          hrest (hkeep hcross.1)⟩
  by_cases hpost : ∃ l', k.stmt w l = .post .table l'
  · obtain ⟨l', hst⟩ := hpost
    rw [hst] at h hcross
    cases h
    have hp := posted hq hl hst
    generalize (k.goto w l').post .table = k₁ at hp
    cases hp with
    | missing hn =>
      rw [hs] at hn
      cases hn
    | @counted sem₁ hs₁ hcount =>
      rw [hs, Option.some.injEq] at hs₁
      subst hs₁
      refine ⟨_, setSem_sems .., .leaves hst ?_ (Fifo.value_of_counted hcount) fun u hne _ => ?_⟩
      · rintro ⟨l₁, hl₁, hin⟩
        rw [setSem_lines, goto_lines] at hl₁
        cases hl₁
        exact hcross.2 hin
      · rw [setSem_lines, goto_lines_of_ne hne]
    | @handed sem₁ v lv lv' hs₁ hv hne hlv hsv =>
      rw [hs, Option.some.injEq] at hs₁
      subst hs₁
      refine ⟨_, by rw [goto_sems, setSem_sems], .hands hst ?_ hne hlv hsv (goto_lines ..)
        (Fifo.value_of_handed hv) fun u hw huv _ => ?_⟩
      · rw [holds_iff (l := l') (by rw [goto_lines_of_ne hne.symm, setSem_lines, goto_lines])]
        exact hcross.2
      · rw [goto_lines_of_ne huv, setSem_lines, goto_lines_of_ne hw]
  by_cases hcreate : ∃ i l₁ l₂, k.stmt w l = .create i l₁ l₂
  · obtain ⟨i, l₁, l₂, hst⟩ := hcreate
    have hrest := hrest (by rw [hst]; nofun)
    rw [hst] at h hcross
    unfold Dinner.exec at h
    dsimp only at h
    split at h
    · cases h
      refine ⟨sem, by rw [goto_sems, setSem_phylo, hs], .within hcross.1 ?_ rfl hrest⟩
      exact ⟨l₁, goto_lines .., hcross.2.1⟩
    · next hfail =>
      cases h
      refine ⟨sem, hs, .fails hst hfail ?_ rfl hrest⟩
      rw [holds_iff (l := l₂) (goto_lines ..)]
      exact hcross.2.2
  have hside := side_of_other hq hl h (fun l' he => hwait ⟨l', he⟩) (fun l' he => hpost ⟨l', he⟩)
    fun i l₁ l₂ he => hcreate ⟨i, l₁, l₂, he⟩
  obtain ⟨sem', hs', hval⟩ := sem_of_other hq hl hs h (fun l' he => hwait ⟨l', he⟩)
    (fun l' he => hpost ⟨l', he⟩) (not_close hk hl)
  have hrest := hrest fun l' he => hpost ⟨l', he⟩
  refine ⟨sem', hs', ?_⟩
  by_cases hin : w.inside l
  · exact .within hin (hside.mpr hin) hval hrest
  · exact .outside hin (fun hh => hin (hside.mp hh)) hval hrest (keep_of_outside hq hl h hin)

/-! ### Mutual exclusion -/

/-- Who is inside after a step, apart from the process that steps and the one it has handed over
to, was inside before. -/
theorem holds_of_lines {u : Who} (h : k'.lines u = k.lines u) (hu : Holds k' u) : Holds k u := by
  obtain ⟨lu, hlu, hin⟩ := hu
  exact ⟨lu, h.symm.trans hlu, hin⟩

theorem locked_next (hk : Seats k) (hq : Queues k) (hlock : Locked k) (hl : k.lines w = some l)
    (h : k.exec w r (k.stmt w l) = some k') : Locked k' := by
  obtain ⟨sem, hs, htoken⟩ := hlock
  obtain ⟨sem', hs', hcross⟩ := crossing hk hq hs hl h
  refine ⟨sem', hs', ?_⟩
  have hw : ∀ {l'}, k.stmt w l = .post .table l' → Holds k w := by
    intro l' hst
    have hc := crosses k w l
    rw [hst] at hc
    exact ⟨l, hl, hc.1⟩
  cases hcross with
  | within hin hin' hval hrest =>
    rw [hval]
    refine htoken.mono fun u hu => ?_
    by_cases hne : u = w
    · subst hne
      exact ⟨l, hl, hin⟩
    · exact holds_of_lines (hrest u hne hu) hu
  | outside hout hout' hval hrest hkeep =>
    rw [hval]
    refine htoken.mono fun u hu => holds_of_lines (hrest u ?_ hu) hu
    rintro rfl
    exact hout' hu
  | enters hst hl' hpos hval hrest =>
    rw [hval]
    refine htoken.take (p := w) hpos fun u hu => ?_
    by_cases hne : u = w
    · exact .inr hne
    · exact .inl (holds_of_lines (hrest u hne hu) hu)
  | leaves hst hout' hval hrest =>
    rw [hval]
    refine htoken.put (hw hst) fun u hu => ?_
    have hne : u ≠ w := by
      rintro rfl
      exact hout' hu
    exact ⟨holds_of_lines (hrest u hne hu) hu, hne⟩
  | @hands l' v lv lv' hst hout' hne hlv hsv hlv' hval hrest =>
    rw [hval]
    refine htoken.pass (q := v) (hw hst) fun u hu => ?_
    have huw : u ≠ w := by
      rintro rfl
      exact hout' hu
    by_cases huv : u = v
    · exact .inr huv
    · exact .inl ⟨holds_of_lines (hrest u huw huv hu) hu, huw⟩
  | fails hst hfail hout' hval hrest =>
    rw [hval]
    refine htoken.mono fun u hu => holds_of_lines (hrest u ?_ hu) hu
    rintro rfl
    exact hout' hu

/-- What holds in every state: the seats, the queues and the lock are in order. -/
structure Orderly (k : Dinner) : Prop where
  seats : Seats k
  queues : Queues k
  locked : Locked k

theorem nobody_start (w : Who) : ¬ Holds start w := by
  rintro ⟨l, hl, hin⟩
  cases w with
  | main =>
    cases hl
    exact hin
  | phylo i => cases hl

theorem orderly_start : Orderly start where
  seats := seats_start
  queues := queues_start
  locked := ⟨{ value := 1 }, rfl, Nat.le_refl 1, fun w _ hw => absurd hw (nobody_start w),
    fun _ => nobody_start⟩

theorem orderly_next (hk : Orderly k) (hok : NotFromFront k e) (h : next k e = some (k', o)) :
    Orderly k' := by
  obtain ⟨hseats, hqueues⟩ := seats_next ⟨hk.seats, hk.queues⟩ hok h
  obtain ⟨l, hl, he⟩ := next_exec h
  exact ⟨hseats, hqueues, locked_next hk.seats hk.queues hk.locked hl he⟩

theorem orderly_run {ok : Dinner → Event → Prop} (himp : ∀ k e, ok k e → NotFromFront k e)
    {tr : List (Dinner × Event × Unit)} (h : Run ok tr k) : Orderly k :=
  h.invariant Orderly orderly_start fun k e _ _ hk hok hs => orderly_next hk (himp k e hok) hs

/-- `SEM_ID` is free. -/
def Free (k : Dinner) : Prop := ∃ sem ∈ k.sems .table, 0 < sem.value

instance : Decidable (Free k) := by
  unfold Free
  infer_instance

theorem Orderly.nobody (hk : Orderly k) (hfree : Free k) (w : Who) : ¬ Holds k w := by
  obtain ⟨sem, hs, htoken⟩ := hk.locked
  obtain ⟨sem', hs', hpos⟩ := hfree
  cases hs.symm.trans hs'
  exact htoken.kept hpos w

/-- While the main program is outside, the seated philosophers are the first `phylo_count`. -/
theorem Orderly.seated_iff (hk : Orderly k) (hmain : ¬ Holds k .main) (i : Nat) :
    k.Seated i ↔ i < k.phyloCount := by
  obtain ⟨l, hl, hat⟩ := hk.seats
  rw [holds_iff hl] at hmain
  have hsits := hat.sits i
  cases l with
  | newPhylo line idx seating =>
    cases line with
    | wait => exact hsits
    | _ => exact absurd nofun hmain
  | removePhylo line idx c =>
    cases line with
    | wait | sleep | retake => exact hsits
    | _ => exact absurd ⟨nofun, nofun, nofun⟩ hmain
  | _ => exact hsits

/-! ### The rule for what `SEM_ID` protects -/

/-- What is known about the shared variables while nobody is inside, and at each line inside;
    with the reasons why the steps of one process keep it, in states that are `good`. -/
structure Outline (good : Dinner → Prop) (ok : Dinner → Event → Prop) where
  free : Table → Prop
  known : Table → (w : Who) → w.Line → Prop
  start : free start.toTable
  enter : ∀ {k : Dinner} {w : Who} {l l' : w.Line}, good k → k.lines w = some l →
    k.stmt w l = .wait .table l' → free k.toTable → known k.toTable w l'
  leave : ∀ {k : Dinner} {w : Who} {l l' : w.Line}, good k → k.lines w = some l →
    k.stmt w l = .post .table l' → known k.toTable w l → free k.toTable
  fail : ∀ {k : Dinner} {w : Who} {l l₁ l₂ : w.Line} {i : Nat}, good k → k.lines w = some l →
    k.stmt w l = .create i l₁ l₂ → known k.toTable w l → free k.toTable
  inside : ∀ {k : Dinner} {e : Event} {l l' : e.who.Line}, good k → ok k e →
    k.lines e.who = some l → e.who.inside l → e.who.inside l' →
    (k.stmt e.who l).Leads e.reply l' → known k.toTable e.who l →
    known ((k.stmt e.who l).effect k.toTable e.reply) e.who l'
  -- the first statement of a philosopher, which `SEM_ID` does not protect
  sits : ∀ {k : Dinner} {i : Nat}, good k → k.lines (.phylo i) = some .start →
    free k.toTable → free (k.toTable.setState i .thinking)
  sits_known : ∀ {k : Dinner} {i : Nat} {w : Who} {l : w.Line}, good k →
    k.lines (.phylo i) = some .start → k.lines w = some l → w.inside l → known k.toTable w l →
    known (k.toTable.setState i .thinking) w l

/-- The outline holds in a state. -/
structure Outline.Valid {good : Dinner → Prop} {ok : Dinner → Event → Prop} (O : Outline good ok)
    (k : Dinner) : Prop where
  known : ∀ w l, k.lines w = some l → w.inside l → O.known k.toTable w l
  free : (∀ w, ¬ Holds k w) → O.free k.toTable

/-- Outside, only the first statement of a philosopher changes the shared variables. -/
theorem effect_of_outside (hl : k.lines w = some l) (hout : ¬ w.inside l) (r : Reply) :
    (k.stmt w l).effect k.toTable r = k.toTable ∨
      ∃ i, k.lines (.phylo i) = some .start ∧
        (k.stmt w l).effect k.toTable r = k.toTable.setState i .thinking := by
  cases w with
  | phylo i =>
    cases l with
    | start => exact .inr ⟨i, hl, rfl⟩
    | loop | takeWait | takeOwn | leaveWait => exact .inl rfl
    | _ => exact absurd trivial hout
  | main =>
    cases l with
    | newPhylo line idx seating =>
      cases line with
      | wait => exact .inl rfl
      | _ => exact absurd nofun hout
    | removePhylo line idx c =>
      cases line with
      | wait | sleep | retake => exact .inl rfl
      | _ => exact absurd ⟨nofun, nofun, nofun⟩ hout
    | _ => exact .inl rfl

/-- **The rule.** Every step keeps the outline. -/
theorem Outline.next {good : Dinner → Prop} {ok : Dinner → Event → Prop} (O : Outline good ok)
    (hk : Orderly k) (hg : good k) (hv : O.Valid k) (hok : ok k e)
    (h : TpeSo.Phylo.next k e = some (k', o)) : O.Valid k' := by
  obtain ⟨w, r⟩ := e
  obtain ⟨l, hl, he⟩ := next_exec h
  obtain ⟨sem, hs, htoken⟩ := hk.locked
  obtain ⟨sem', hs', hcross⟩ := crossing hk.seats hk.queues hs hl he
  have htable := exec_table he
  have hside := crosses k w l
  dsimp only at hl he hcross htable hside
  -- when the process that steps was inside, nobody else was
  have halone : ∀ u, w.inside l → u ≠ w → Holds k' u → ¬ (k'.lines u = k.lines u) :=
    fun u hin hne hu hsame =>
      hne (htoken.alone u w (holds_of_lines hsame hu) ⟨l, hl, hin⟩)
  cases hcross with
  | within hin hin' hval hrest =>
    obtain ⟨l', hl', hleads⟩ := exec_self hk.queues hl he
    have hl'in := (holds_iff hl').mp hin'
    have hleads := hleads.resolve_right (by
      rintro ⟨rfl, s, l'', hst⟩
      rw [hst] at hside
      cases s <;> exact hside.1 hin)
    refine ⟨fun u lu hlu hu => ?_, fun hnone => absurd hin' (hnone w)⟩
    obtain rfl : u = w := by
      by_contra hne
      exact halone u hin hne ⟨lu, hlu, hu⟩ (hrest u hne ⟨lu, hlu, hu⟩)
    rw [hl', Option.some.injEq] at hlu
    subst hlu
    rw [htable]
    exact O.inside hg hok hl hin hl'in hleads (hv.known u l hl hin)
  | outside hout hout' hval hrest hkeep =>
    have hne : ∀ u, Holds k' u → u ≠ w := by
      rintro u hu rfl
      exact hout' hu
    have hfree : (∀ u, ¬ Holds k' u) → O.free k.toTable := fun hnone => hv.free fun u hu => by
      by_cases huw : u = w
      · subst huw
        exact hout ((holds_iff hl).mp hu)
      · exact hnone u (hkeep u huw hu)
    obtain hsame | ⟨i, hstart, hsit⟩ := effect_of_outside hl hout r
    · rw [hsame] at htable
      rw [← htable] at hfree
      refine ⟨fun u lu hlu hu => ?_, hfree⟩
      rw [htable]
      exact hv.known u lu ((hrest u (hne u ⟨lu, hlu, hu⟩) ⟨lu, hlu, hu⟩).symm.trans hlu) hu
    · rw [hsit] at htable
      refine ⟨fun u lu hlu hu => ?_, fun hnone => ?_⟩
      · have hold := (hrest u (hne u ⟨lu, hlu, hu⟩) ⟨lu, hlu, hu⟩).symm.trans hlu
        rw [htable]
        exact O.sits_known hg hstart hold hu (hv.known u lu hold hu)
      · rw [htable]
        exact O.sits hg hstart (hfree hnone)
  | @enters l' hst hl' hpos hval hrest =>
    have hfree := hv.free (htoken.kept hpos)
    rw [hst] at htable
    refine ⟨fun u lu hlu hu => ?_, fun hnone => ?_⟩
    · obtain rfl : u = w := by
        by_contra hne
        exact htoken.kept hpos u (holds_of_lines (hrest u hne ⟨lu, hlu, hu⟩) ⟨lu, hlu, hu⟩)
      rw [hl', Option.some.injEq] at hlu
      subst hlu
      rw [htable]
      exact O.enter hg hl hst hfree
    · rw [hst] at hside
      exact absurd ⟨l', hl', hside.2⟩ (hnone w)
  | leaves hst hout' hval hrest =>
    rw [hst] at htable hside
    have hfree := O.leave hg hl hst (hv.known w l hl hside.1)
    refine ⟨fun u lu hlu hu => ?_, fun _ => htable ▸ hfree⟩
    have hne : u ≠ w := by
      rintro rfl
      exact hout' ⟨lu, hlu, hu⟩
    exact absurd (hrest u hne ⟨lu, hlu, hu⟩) (halone u hside.1 hne ⟨lu, hlu, hu⟩)
  | @hands l' v lv lv' hst hout' hne hlv hsv hlv' hval hrest =>
    have hcv := crosses k v lv
    rw [hsv] at hcv
    rw [hst] at htable hside
    have hfree := O.leave hg hl hst (hv.known w l hl hside.1)
    refine ⟨fun u lu hlu hu => ?_, fun hnone => absurd ⟨lv', hlv', hcv.2⟩ (hnone v)⟩
    have huw : u ≠ w := by
      rintro rfl
      exact hout' ⟨lu, hlu, hu⟩
    obtain rfl : u = v := by
      by_contra huv
      exact halone u hside.1 huw ⟨lu, hlu, hu⟩ (hrest u huw huv ⟨lu, hlu, hu⟩)
    rw [hlv', Option.some.injEq] at hlu
    subst hlu
    rw [htable]
    exact O.enter hg hlv hsv hfree
  | fails hst hfail hout' hval hrest =>
    rw [hst] at htable hside
    have hfree := O.fail hg hl hst (hv.known w l hl hside.1)
    refine ⟨fun u lu hlu hu => ?_, fun _ => htable ▸ hfree⟩
    have hne : u ≠ w := by
      rintro rfl
      exact hout' ⟨lu, hlu, hu⟩
    exact absurd (hrest u hne ⟨lu, hlu, hu⟩) (halone u hside.1 hne ⟨lu, hlu, hu⟩)

/-- The outline holds at the beginning. -/
theorem Outline.valid_start {good : Dinner → Prop} {ok : Dinner → Event → Prop}
    (O : Outline good ok) : O.Valid Phylo.start :=
  ⟨fun w l hl hin => absurd ⟨l, hl, hin⟩ (nobody_start w), fun _ => O.start⟩

end TpeSo.Phylo
