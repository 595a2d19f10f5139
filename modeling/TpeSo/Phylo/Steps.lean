import TpeSo.Phylo.Program

namespace TpeSo.Phylo

open Lib

/-!
# `programs/phylo.c` — what one step changes

* `Queues k` — everybody in a queue is at a wait for that semaphore; `queues_next`;
* `exec_table` — a statement changes the shared variables as `Stmt.effect` says;
* `exec_self` — the process that steps goes on to a line that its statement leads to;
* `exec_other` — another process is woken by a post, spawned or killed, or it stays where it is.
-/

variable {k k' : Dinner} {w v : Who} {r : Reply} {s : SemId} {t : Table} {i j : Nat}

/-! ### Reading the state after an update -/

namespace Dinner

@[simp] theorem goto_toTable (k : Dinner) (w : Who) (l : w.Line) :
    (k.goto w l).toTable = k.toTable := rfl

@[simp] theorem goto_sems (k : Dinner) (w : Who) (l : w.Line) : (k.goto w l).sems = k.sems := rfl

@[simp] theorem goto_lines (k : Dinner) (w : Who) (l : w.Line) :
    (k.goto w l).lines w = some l := Function.update_self ..

theorem goto_lines_of_ne (h : v ≠ w) (k : Dinner) (l : w.Line) :
    (k.goto w l).lines v = k.lines v := Function.update_of_ne h ..

@[simp] theorem setSem_toTable (k : Dinner) (s : SemId) (sem : Option (Fifo Who)) :
    (k.setSem s sem).toTable = k.toTable := rfl

@[simp] theorem setSem_lines (k : Dinner) (s : SemId) (sem : Option (Fifo Who)) :
    (k.setSem s sem).lines = k.lines := rfl

@[simp] theorem setSem_sems (k : Dinner) (s : SemId) (sem : Option (Fifo Who)) :
    (k.setSem s sem).sems s = sem := Function.update_self ..

theorem setSem_sems_of_ne {s' : SemId} (h : s' ≠ s) (k : Dinner) (sem : Option (Fifo Who)) :
    (k.setSem s sem).sems s' = k.sems s' := Function.update_of_ne h ..

@[simp] theorem setSem_phylo (k : Dinner) (i : Nat) (sem : Option (Fifo Who)) :
    (k.setSem (.phylo i) sem).sems .table = k.sems .table :=
  setSem_sems_of_ne (by nofun) k sem

theorem stop_sems (k : Dinner) (w : Who) (s : SemId) :
    (k.stop w).sems s = (k.sems s).map fun sem => sem.drop w := rfl

/-- Which statement is a wait does not depend on the shared variables. -/
theorem stmt_wait {l l' : w.Line} (h : k.stmt w l = .wait s l') (k' : Dinner) :
    k'.stmt w l = .wait s l' := by
  cases w with
  | main =>
    unfold stmt mainStmt at *
    dsimp only at *
    split at h <;> first | exact h | cases h
  | phylo i =>
    unfold stmt phyloStmt at *
    dsimp only at *
    split at h <;> first | exact h | cases h

/-- `w` is at a wait for `s`. -/
def WaitsFor (k : Dinner) (w : Who) (s : SemId) : Prop :=
  ∃ l l', k.lines w = some l ∧ k.stmt w l = .wait s l'

theorem WaitsFor.of_lines (h : k.WaitsFor w s) (hl : k'.lines w = k.lines w) : k'.WaitsFor w s := by
  obtain ⟨l, l', hw, hs⟩ := h
  exact ⟨l, l', hl.trans hw, stmt_wait hs k'⟩

theorem wake_eq {l l' : w.Line} (hl : k.lines w = some l) (hs : k.stmt w l = .wait s l') :
    k.wake w = k.goto w l' := by
  unfold wake
  rw [hl]
  dsimp only
  rw [hs]

end Dinner

open Dinner

/-- Nobody waits twice, and everybody in a queue is at a wait for that semaphore. -/
def Queues (k : Dinner) : Prop :=
  ∀ s sem, k.sems s = some sem → sem.Queued fun w => k.WaitsFor w s

/-- **What a post of `w`, which goes on to `l'`, does**: it fails, it counts, or it hands over to
    another process that waits. -/
inductive Posted (k : Dinner) (w : Who) (l' : w.Line) (s : SemId) : Dinner → Prop where
  | missing (h : k.sems s = none) : Posted k w l' s (k.goto w l')
  | counted {sem : Fifo Who} (h : k.sems s = some sem) (hp : sem.post.2 = none) :
      Posted k w l' s ((k.goto w l').setSem s (some sem.post.1))
  | handed {sem : Fifo Who} {v : Who} {lv lv' : v.Line} (h : k.sems s = some sem)
      (hp : sem.post.2 = some v) (hne : v ≠ w) (hl : k.lines v = some lv)
      (hs : k.stmt v lv = .wait s lv') :
      Posted k w l' s (((k.goto w l').setSem s (some sem.post.1)).goto v lv')

variable {l l' : w.Line}

theorem posted (hq : Queues k) (hl : k.lines w = some l) (hst : k.stmt w l = .post s l') :
    Posted k w l' s ((k.goto w l').post s) := by
  unfold Dinner.post
  rw [goto_sems]
  split
  · next hs => exact .missing hs
  · next sem hs =>
    split
    · next hp => exact .counted hs hp
    · next v hp =>
      obtain ⟨lv, lv', hlv, hsv⟩ := (hq s sem hs).waits v (Fifo.mem_of_post hp)
      -- the poster itself is at no wait
      have hne : v ≠ w := by
        rintro rfl
        rw [hl, Option.some.injEq] at hlv
        rw [hlv, hsv] at hst
        cases hst
      have hlv' : ((k.goto w l').setSem s (some sem.post.1)).lines v = some lv := by
        rw [setSem_lines, goto_lines_of_ne hne, hlv]
      rw [wake_eq hlv' (stmt_wait hsv _)]
      exact .handed hs hp hne hlv hsv

/-! ### The shared variables -/

namespace Table

/-- `phylo_states[j] = st`. -/
def setState (t : Table) (j : Nat) (st : PhyloState) : Table :=
  { t with phyloStates := Function.update t.phyloStates j st }

@[simp] theorem setState_count (t : Table) (j : Nat) (st : PhyloState) :
    (t.setState j st).phyloCount = t.phyloCount := rfl

@[simp] theorem setState_left (t : Table) (j : Nat) (st : PhyloState) (i : Nat) :
    (t.setState j st).left i = t.left i := rfl

@[simp] theorem setState_right (t : Table) (j : Nat) (st : PhyloState) (i : Nat) :
    (t.setState j st).right i = t.right i := rfl

@[simp] theorem setState_self (t : Table) (j : Nat) (st : PhyloState) :
    (t.setState j st).phyloStates j = st := Function.update_self ..

theorem setState_of_ne (h : i ≠ j) (t : Table) (st : PhyloState) :
    (t.setState j st).phyloStates i = t.phyloStates i := Function.update_of_ne h ..

/-- A state other than `DRIVING` makes nobody `DRIVING`. -/
theorem driving_of_setState {st : PhyloState} (hst : st ≠ .driving)
    (h : (t.setState j st).Driving i) : t.Driving i := by
  by_cases hij : i = j
  · subst hij
    exact absurd ((setState_self t i st).symm.trans h) hst
  · exact (setState_of_ne hij t st).symm.trans h

end Table

/-- What a statement does to the shared variables. -/
def Stmt.effect {L : Type} (t : Table) (r : Reply) : Stmt L → Table
  | .setState i st _ => t.setState i st
  | .spawn i _ => { t with phyloPids := Function.update t.phyloPids i r.pid }
  | .clearPid i _ => { t with phyloPids := Function.update t.phyloPids i noPid }
  | .setCount n _ => { t with phyloCount := n }
  | _ => t

theorem wake_toTable (k : Dinner) (w : Who) : (k.wake w).toTable = k.toTable := by
  unfold Dinner.wake
  split
  · rfl
  · split <;> rfl

theorem post_toTable (k : Dinner) (s : SemId) : (k.post s).toTable = k.toTable := by
  unfold Dinner.post
  split
  · rfl
  · split
    · rfl
    · exact wake_toTable _ _

theorem exec_table {st : Stmt w.Line} (h : k.exec w r st = some k') :
    k'.toTable = st.effect k.toTable r := by
  cases st with
  | wait s l =>
    unfold Dinner.exec at h
    dsimp only at h
    split at h
    · cases h
      rfl
    · split at h
      · cases h
      · cases h
        split <;> rfl
  | post s l =>
    cases h
    exact post_toTable _ _
  | create i l l' =>
    unfold Dinner.exec at h
    dsimp only at h
    split at h <;> cases h <;> rfl
  | spawn i l =>
    cases h
    split <;> rfl
  | kill i l =>
    cases h
    split <;> rfl
  | halt => cases h
  | _ =>
    cases h
    rfl

/-! ### The process that steps -/

/-- The lines a statement can lead to. -/
def Stmt.Leads {L : Type} (r : Reply) (l' : L) : Stmt L → Prop
  | .test b l₁ l₂ => l' = if b then l₁ else l₂
  | .ask l₁ l₂ => l' = if r.yes then l₁ else l₂
  | .create _ l₁ l₂ => (r.yes ∧ l' = l₁) ∨ l' = l₂
  | .wait _ l | .post _ l | .setState _ _ l | .spawn _ l | .kill _ l | .close _ l
  | .clearPid _ l | .setCount _ l => l' = l
  | .halt => False

/-- Only the main program starts and kills processes. -/
theorem main_of_spawn (h : k.stmt w l = .spawn i l') : w = .main := by
  cases w with
  | main => rfl
  | phylo j => cases l <;> cases h

theorem main_of_kill (h : k.stmt w l = .kill i l') : w = .main := by
  cases w with
  | main => rfl
  | phylo j => cases l <;> cases h

/-- **The process that steps** goes on, or it joins a queue. -/
theorem exec_self (hq : Queues k) (hl : k.lines w = some l)
    (h : k.exec w r (k.stmt w l) = some k') :
    ∃ l', k'.lines w = some l' ∧
      ((k.stmt w l).Leads r l' ∨ (l' = l ∧ ∃ s l'', k.stmt w l = .wait s l'')) := by
  cases hst : k.stmt w l with
  | wait s l' =>
    rw [hst] at h
    unfold Dinner.exec at h
    dsimp only at h
    split at h
    · cases h
      exact ⟨l', goto_lines .., .inl rfl⟩
    · split at h
      · cases h
      · cases h
        split
        · exact ⟨l', goto_lines .., .inl rfl⟩
        · exact ⟨l, hl, .inr ⟨rfl, s, l', rfl⟩⟩
  | post s l' =>
    rw [hst] at h
    cases h
    refine ⟨l', ?_, .inl rfl⟩
    generalize hk : (k.goto w l').post s = k₁
    have hp := posted hq hl hst
    rw [hk] at hp
    cases hp with
    | missing => exact goto_lines ..
    | counted => exact goto_lines ..
    | handed _ _ hne => rw [goto_lines_of_ne hne.symm, setSem_lines, goto_lines]
  | create i l₁ l₂ =>
    rw [hst] at h
    unfold Dinner.exec at h
    dsimp only at h
    split at h
    · next hc =>
      cases h
      exact ⟨l₁, goto_lines .., .inl (.inl ⟨hc.1, rfl⟩)⟩
    · cases h
      exact ⟨l₂, goto_lines .., .inl (.inr rfl)⟩
  | spawn i l' =>
    obtain rfl := main_of_spawn hst
    rw [hst] at h
    cases h
    refine ⟨l', ?_, .inl rfl⟩
    split
    · exact goto_lines ..
    · rw [goto_lines_of_ne (by nofun), goto_lines]
  | halt =>
    rw [hst] at h
    cases h
  | test b l₁ l₂ =>
    rw [hst] at h
    cases h
    exact ⟨_, goto_lines .., .inl rfl⟩
  | ask l₁ l₂ =>
    rw [hst] at h
    cases h
    exact ⟨_, goto_lines .., .inl rfl⟩
  | _ =>
    rw [hst] at h
    cases h
    exact ⟨_, goto_lines .., .inl rfl⟩

/-! ### The other processes -/

/-- **What becomes of another process** `v`: it stays where it is, it is woken by a post, it is
    spawned, or it is killed. -/
inductive Other (k k' : Dinner) (r : Reply) (v : Who) : {L : Type} → Stmt L → Prop where
  | same {L : Type} {st : Stmt L} (h : k'.lines v = k.lines v) : Other k k' r v st
  | woken {L : Type} {s : SemId} {l : L} {lv lv' : v.Line} (hl : k.lines v = some lv)
      (hs : k.stmt v lv = .wait s lv') (h : k'.lines v = some lv') : Other k k' r v (.post s l)
  | spawned {L : Type} {i : Nat} {l : L} (hv : v = .phylo i) (hr : r.pid ≠ noPid)
      (h : k'.lines (.phylo i) = some .start) : Other k k' r v (.spawn i l)
  | killed {L : Type} {i : Nat} {l : L} (hv : v = .phylo i) (hs : k.Seated i)
      (h : k'.lines v = none) : Other k k' r v (.kill i l)

theorem exec_other (hq : Queues k) (hl : k.lines w = some l)
    (h : k.exec w r (k.stmt w l) = some k') (hne : v ≠ w) : Other k k' r v (k.stmt w l) := by
  cases hst : k.stmt w l with
  | wait s l' =>
    rw [hst] at h
    unfold Dinner.exec at h
    dsimp only at h
    split at h
    · cases h
      exact .same (goto_lines_of_ne hne ..)
    · split at h
      · cases h
      · cases h
        split
        · exact .same (goto_lines_of_ne hne ..)
        · exact .same rfl
  | post s l' =>
    rw [hst] at h
    cases h
    generalize hk : (k.goto w l').post s = k₁
    have hp := posted hq hl hst
    rw [hk] at hp
    cases hp with
    | missing => exact .same (goto_lines_of_ne hne ..)
    | counted => exact .same (goto_lines_of_ne hne ..)
    | @handed sem u lu lu' _ _ _ hlu hsu =>
      by_cases hvu : v = u
      · subst hvu
        exact .woken hlu hsu (goto_lines ..)
      · refine .same ?_
        rw [goto_lines_of_ne hvu, setSem_lines, goto_lines_of_ne hne]
  | create i l₁ l₂ =>
    rw [hst] at h
    unfold Dinner.exec at h
    dsimp only at h
    split at h <;> cases h <;> exact .same (goto_lines_of_ne hne ..)
  | spawn i l' =>
    rw [hst] at h
    cases h
    by_cases hr : r.pid = noPid
    · rw [if_pos hr]
      exact .same (goto_lines_of_ne hne ..)
    · rw [if_neg hr]
      by_cases hv : v = .phylo i
      · exact .spawned hv hr (goto_lines ..)
      · refine .same ?_
        rw [goto_lines_of_ne hv, goto_lines_of_ne hne]
  | kill i l' =>
    rw [hst] at h
    cases h
    by_cases hs : k.Seated i
    · rw [if_pos hs]
      by_cases hv : v = .phylo i
      · refine .killed hv hs ?_
        subst hv
        rw [goto_lines_of_ne hne]
        exact Function.update_self ..
      · refine .same ?_
        rw [goto_lines_of_ne hne]
        exact Function.update_of_ne hv ..
    · rw [if_neg hs]
      exact .same (goto_lines_of_ne hne ..)
  | halt =>
    rw [hst] at h
    cases h
  | _ =>
    rw [hst] at h
    cases h
    exact .same (goto_lines_of_ne hne ..)

theorem exec_kill (hst : k.stmt w l = .kill i l') (h : k.exec w r (k.stmt w l) = some k')
    (hs : k.Seated i) : k'.lines (.phylo i) = none := by
  obtain rfl := main_of_kill hst
  rw [hst] at h
  cases h
  rw [if_pos hs, goto_lines_of_ne (by nofun)]
  exact Function.update_self ..

/-! ### The queues -/

/-- A process that steps from a line that is no wait is in no queue. -/
theorem not_queued (hq : Queues k) (hl : k.lines w = some l) {sem : Fifo Who}
    (hs : k.sems s = some sem) (hst : ∀ l', k.stmt w l ≠ .wait s l') : w ∉ sem.queue := by
  intro hmem
  obtain ⟨lw, lw', hlw, hsw⟩ := (hq s sem hs).waits w hmem
  rw [hl, Option.some.injEq] at hlw
  subst hlw
  exact hst lw' hsw

/-- A semaphore that a step leaves alone, together with everybody in its queue. -/
theorem Queues.keep (hq : Queues k) {sem sem' : Fifo Who} (hs : k.sems s = some sem)
    (hqueue : sem'.queue = sem.queue) (hsame : ∀ v ∈ sem.queue, k'.lines v = k.lines v) :
    sem'.Queued fun v => k'.WaitsFor v s := by
  have h := hq s sem hs
  refine ⟨hqueue ▸ h.nodup, fun v hv => ?_⟩
  rw [hqueue] at hv
  exact (h.waits v hv).of_lines (hsame v hv)

/-- The queues stay in order, when no process is spawned twice. -/
theorem Queues.exec (hq : Queues k) (hl : k.lines w = some l)
    (h : k.exec w r (k.stmt w l) = some k')
    (hspawn : ∀ i l', k.stmt w l = .spawn i l' → k.lines (.phylo i) = none) : Queues k' := by
  -- who is queued where nothing happens, stays where it is
  have hsame : ∀ s sem, k.sems s = some sem → (∀ l', k.stmt w l ≠ .wait s l') →
      (∀ l', k.stmt w l ≠ .post s l') → (∀ i l', k.stmt w l ≠ .kill i l') →
      ∀ v ∈ sem.queue, k'.lines v = k.lines v := by
    intro s sem hs hwait hpost hkill v hv
    have hne : v ≠ w := fun he => not_queued hq hl hs hwait (he ▸ hv)
    obtain ⟨lv, lv', hlv, hsv⟩ := (hq s sem hs).waits v hv
    have ho := exec_other hq hl h hne
    generalize hst : k.stmt w l = st at ho
    cases ho with
    | same h => exact h
    | woken hl' hs' =>
      rw [hlv, Option.some.injEq] at hl'
      subst hl'
      rw [hsv] at hs'
      cases hs'
      exact absurd hst (hpost _)
    | spawned hv' =>
      subst hv'
      rw [hspawn _ _ hst] at hlv
      cases hlv
    | killed => exact absurd hst (hkill _ _)
  intro s' sem' hs'
  -- a semaphore that is as it was, at a statement that leaves its queue alone
  have hkeep : k.sems s' = some sem' → (∀ l', k.stmt w l ≠ .wait s' l') →
      (∀ l', k.stmt w l ≠ .post s' l') → (∀ i l', k.stmt w l ≠ .kill i l') →
      sem'.Queued fun v => k'.WaitsFor v s' := fun hs hw hp hk =>
    hq.keep hs rfl (hsame s' sem' hs hw hp hk)
  cases hst : k.stmt w l with
  | wait s l' =>
    rw [hst] at h
    unfold Dinner.exec at h
    dsimp only at h
    split at h
    · next hnone =>
      cases h
      have hss : s' ≠ s := by
        rintro rfl
        rw [goto_sems, hnone] at hs'
        cases hs'
      exact hkeep hs' (by rw [hst]; rintro _ ⟨⟩; exact hss rfl) (by rw [hst]; nofun)
        (by rw [hst]; nofun)
    · next sem hsem =>
      split at h
      · cases h
      · next hmem =>
        cases h
        by_cases hss : s' = s
        · subst hss
          by_cases hw : (sem.wait w).2 = true
          · rw [if_pos hw] at hs' ⊢
            rw [goto_sems, setSem_sems, Option.some.injEq] at hs'
            subst hs'
            refine hq.keep hsem (Fifo.queue_of_wait hw) fun v hv => ?_
            rw [goto_lines_of_ne (by rintro rfl; exact hmem hv), setSem_lines]
          · rw [if_neg hw] at hs' ⊢
            rw [setSem_sems, Option.some.injEq] at hs'
            subst hs'
            exact ((hq s' sem hsem).wait hmem ⟨l, l', hl, hst⟩).mono fun v _ hv => hv.of_lines rfl
        · refine hkeep ?_ (by rw [hst]; rintro _ ⟨⟩; exact hss rfl) (by rw [hst]; nofun)
            (by rw [hst]; nofun)
          rw [← hs']
          split
          · rw [goto_sems, setSem_sems_of_ne hss]
          · rw [setSem_sems_of_ne hss]
  | post s l' =>
    rw [hst] at h
    cases h
    generalize hk : (k.goto w l').post s = k₁ at *
    have hp := posted hq hl hst
    rw [hk] at hp
    by_cases hss : s' = s
    · subst hss
      have hposter : ∀ {sem}, k.sems s' = some sem → ∀ {v}, v ∈ sem.queue → v ≠ w := by
        rintro sem hsem v hv rfl
        exact not_queued hq hl hsem (by rw [hst]; nofun) hv
      cases hp with
      | missing hn =>
        rw [goto_sems, hn] at hs'
        cases hs'
      | @counted sem hsem hcount =>
        rw [setSem_sems, Option.some.injEq] at hs'
        subst hs'
        refine hq.keep hsem (Fifo.queue_of_post hcount) fun v hv => ?_
        rw [setSem_lines, goto_lines_of_ne (hposter hsem hv)]
      | @handed sem u lu lu' hsem hu hne hlu hsu =>
        rw [goto_sems, setSem_sems, Option.some.injEq] at hs'
        subst hs'
        refine (hq s' sem hsem).post.mono fun v hv hv' => hv'.of_lines ?_
        have hvu : v ≠ u := by
          rintro rfl
          exact (hq s' sem hsem).not_mem_post hu hv
        rw [goto_lines_of_ne hvu, setSem_lines,
          goto_lines_of_ne (hposter hsem (Fifo.mem_of_mem_post hv))]
    · refine hkeep ?_ (by rw [hst]; nofun) (by rw [hst]; rintro _ ⟨⟩; exact hss rfl)
        (by rw [hst]; nofun)
      rw [← hs']
      cases hp with
      | missing => rfl
      | counted => rw [setSem_sems_of_ne hss, goto_sems]
      | handed => rw [goto_sems, setSem_sems_of_ne hss, goto_sems]
  | kill i l' =>
    obtain rfl := main_of_kill hst
    rw [hst] at h
    cases h
    rw [goto_sems] at hs'
    have hmain : ∀ {sem}, k.sems s' = some sem → ∀ {v}, v ∈ sem.queue → v ≠ .main := by
      rintro sem hsem v hv rfl
      exact not_queued hq hl hsem (by rw [hst]; nofun) hv
    by_cases hseat : k.Seated i
    · rw [if_pos hseat] at hs' ⊢
      obtain ⟨sem, hsem, rfl⟩ := Option.map_eq_some_iff.mp hs'
      refine ((hq s' sem hsem).drop (.phylo i)).mono fun v hv hv' => hv'.1.of_lines ?_
      rw [goto_lines_of_ne (hmain hsem (List.mem_of_mem_filter hv))]
      exact Function.update_of_ne hv'.2 ..
    · rw [if_neg hseat] at hs' ⊢
      exact hq.keep hs' rfl fun v hv => goto_lines_of_ne (hmain hs' hv) ..
  | create i l₁ l₂ =>
    rw [hst] at h
    unfold Dinner.exec at h
    dsimp only at h
    split at h
    · cases h
      rw [goto_sems] at hs'
      by_cases hi : s' = .phylo i
      · subst hi
        rw [setSem_sems, Option.some.injEq] at hs'
        subst hs'
        exact ⟨List.nodup_nil, nofun⟩
      · rw [setSem_sems_of_ne hi] at hs'
        exact hkeep hs' (by rw [hst]; nofun) (by rw [hst]; nofun) (by rw [hst]; nofun)
    · cases h
      exact hkeep hs' (by rw [hst]; nofun) (by rw [hst]; nofun) (by rw [hst]; nofun)
  | close s l' =>
    rw [hst] at h
    cases h
    rw [goto_sems] at hs'
    by_cases hss : s' = s
    · subst hss
      rw [setSem_sems] at hs'
      cases hs'
    · rw [setSem_sems_of_ne hss] at hs'
      exact hkeep hs' (by rw [hst]; nofun) (by rw [hst]; nofun) (by rw [hst]; nofun)
  | spawn i l' =>
    rw [hst] at h
    cases h
    refine hkeep ?_ (by rw [hst]; nofun) (by rw [hst]; nofun) (by rw [hst]; nofun)
    rw [← hs']
    split <;> rfl
  | halt =>
    rw [hst] at h
    cases h
  | _ =>
    rw [hst] at h
    cases h
    exact hkeep hs' (by rw [hst]; nofun) (by rw [hst]; nofun) (by rw [hst]; nofun)

end TpeSo.Phylo
