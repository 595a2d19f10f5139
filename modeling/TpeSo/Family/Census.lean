import TpeSo.Family.DeadKill
import TpeSo.Family.Remains
import TpeSo.Family.Changes
import TpeSo.Sched.Born

namespace TpeSo

open Ds Lib Family

/-!
# Family — what the process table holds, in every run

Without any condition on the run: also with `kmalloc` failing, with processes that are killed
twice, and with code that goes on after its own process was killed.

* `Census φ k` — the table holds processes under their ids, no zombie is `idle` or `init`, and
  the phase says no more about its process than that;
* `Rooted k` — whoever has an id above 1 found `init`'s place taken;
* `ChildIds k` — the arrays of children hold places of the table;
* `census_run`, `rooted_run`, `childIds_run` — all of this in every reachable kernel.
-/

variable {f : Nat → Bool} {ok : Kernel → Event → Prop} {φ ψ : Phase} {k k' k₀ : Kernel} {e : Event}
  {o : Option Completion} {p q c : ProcId} {x : Int}
  {tr : List (Kernel × Event × Option Completion)}

/-- `proc_kill` spares `idle` and `init`. -/
def Mortal (k : Kernel) (p : ProcId) : Prop := (k.procs p).pid ≠ 0 ∧ (k.procs p).pid ≠ 1

/-- **The table.** -/
structure Census (φ : Phase) (k : Kernel) : Prop where
  table : ∀ i p, k.processTable i = some p →
    i < maxProcesses ∧ (k.procs p).pid = i ∧ p < k.nextProc
  spared : ∀ p, (k.procs p).status = .zombie → Mortal k p
  dying : ∀ p, φ = .dying p → Mortal k p
  spawning : ∀ p slot, φ = .spawning p slot → p < k.nextProc ∧ (k.procs p).status ≠ .zombie ∧
    (slot = none → ∀ i, k.processTable i ≠ some p)

/-! ### Every edit -/

/-- Which phase an edit leads to: the one it was made in, unless it opens or closes one. -/
theorem Micro.phase {a : Act} (hm : Micro φ k a ψ k') (ha : a.offIds) :
    (∀ p, ψ = .dying p → φ = .dying p ∨ a = .kill p) ∧
      ∀ p slot, ψ = .spawning p slot → φ = .spawning p slot := by
  by_cases hoff : a.offSched
  · obtain ⟨-, rfl⟩ := hm.schedSame hoff
    exact ⟨fun _ h => .inl h, fun _ _ h => h⟩
  cases hm with
  | kill p code =>
    refine ⟨?_, (fun _ _ h => nomatch h)⟩
    rintro _ ⟨⟩
    exact .inr rfl
  | reapSelf | reapChild | newProc | noPid | claimPid => exact ha.elim
  | _ => first | exact absurd trivial hoff | exact ⟨fun _ h => .inl h, fun _ _ h => h⟩ |
      exact ⟨(fun _ h => nomatch h), fun _ _ h => nomatch h⟩

theorem Mortal.sameIds (h : Mortal k p) (g : SameIds k k') : Mortal k' p := by
  unfold Mortal at h ⊢
  rwa [g.pid]

/-- The victim of an entry is mortal. -/
theorem Origin.mortal (h : Origin k₀ e k (.kill p)) : Mortal k p := by
  have hpid := killTarget_pid h.2
  rw [← h.1.pid, not_or] at hpid
  exact hpid

theorem Census.offIds {a : Act} (h : Census φ k) (ho : Origin k₀ e k a) (hm : Micro φ k a ψ k')
    (ha : a.offIds) : Census ψ k' := by
  have hsame := hm.sameIds ha
  obtain ⟨hdying, hspawning⟩ := hm.phase ha
  refine ⟨fun i p hi => ?_, fun p hz => ?_, fun p hφ => ?_, fun p slot hφ => ?_⟩
  · rw [hsame.table] at hi
    rw [hsame.pid, hsame.next]
    exact h.table i p hi
  · rcases hm.zombie hz with hz | rfl
    · exact (h.spared p hz).sameIds hsame
    · exact ho.mortal.sameIds hsame
  · rcases hdying p hφ with hφ | rfl
    · exact (h.dying p hφ).sameIds hsame
    · exact ho.mortal.sameIds hsame
  · obtain ⟨hp, hz, hfree⟩ := h.spawning p slot (hspawning p slot hφ)
    rw [hsame.next, hsame.table]
    refine ⟨hp, fun hz' => ?_, hfree⟩
    rcases hm.zombie hz' with hz' | rfl
    · exact hz hz'
    · cases hm with
      | kill => cases hφ

theorem forgetPid_processTable (k : Kernel) (p : ProcId) : (forgetPid k p).processTable =
    Function.update k.processTable (k.procs p).pid.toNat none := rfl

/-- The table forgets a process. -/
theorem Census.forgetPid (h : Census φ k) (p : ProcId) : Census φ (forgetPid k p) := by
  have hsub : ∀ i q, (TpeSo.forgetPid k p).processTable i = some q → k.processTable i = some q := by
    intro i q hi
    by_cases hip : i = (k.procs p).pid.toNat
    · rw [forgetPid_processTable, hip, Function.update_self] at hi
      cases hi
    · rwa [forgetPid_processTable, Function.update_of_ne hip] at hi
  refine ⟨fun i q hi => h.table i q (hsub i q hi), h.spared, h.dying, fun q slot hφ => ?_⟩
  obtain ⟨hq, hz, hfree⟩ := h.spawning q slot hφ
  exact ⟨hq, hz, fun hs i hi => hfree hs i (hsub i q hi)⟩

theorem Census.step {a : Act} (h : Census φ k) (ho : Origin k₀ e k a) (hm : Micro φ k a ψ k') :
    Census ψ k' := by
  by_cases ha : a.offIds
  · exact h.offIds ho hm ha
  cases hm with
  | reapSelf | reapChild => exact h.forgetPid _
  | newProc =>
    have hold : ∀ q < k.nextProc, Function.update k.procs k.nextProc {} q = k.procs q :=
      fun q hq => Function.update_of_ne (Nat.ne_of_lt hq) _ _
    refine ⟨fun i q hi => ?_, fun q hz => ?_, (fun _ hφ => nomatch hφ), ?_⟩
    · obtain ⟨hr, hpid, hq⟩ := h.table i q hi
      refine ⟨hr, ?_, Nat.lt_succ_of_lt hq⟩
      dsimp only
      rwa [hold q hq]
    · by_cases hq : q = k.nextProc
      · rw [hq] at hz
        simp at hz
      · have hsame : Function.update k.procs k.nextProc {} q = k.procs q :=
          Function.update_of_ne hq _ _
        dsimp only at hz
        rw [hsame] at hz
        unfold Mortal
        dsimp only
        rw [hsame]
        exact h.spared q hz
    · rintro _ _ ⟨⟩
      refine ⟨Nat.lt_succ_self _, by simp, fun _ i hi => ?_⟩
      exact absurd (h.table i _ hi).2.2 (Nat.lt_irrefl _)
  | @noPid p =>
    obtain ⟨hp, hz, hfree⟩ := h.spawning p none rfl
    have hold : ∀ q ≠ p, (k.setProc p fun q => { q with pid := -1 }).procs q = k.procs q :=
      fun q hq => k.procs_setProc_ne hq
    have hstatus := k.setProc_spares Proc.status (p := p) (f := fun q => { q with pid := -1 }) rfl
    refine ⟨fun i q hi => ?_, fun q hzq => ?_, (fun _ hφ => nomatch hφ), ?_⟩
    · rw [hold q fun hq => hfree rfl i (hq ▸ hi)]
      exact h.table i q hi
    · rw [hstatus] at hzq
      unfold Mortal
      rw [hold q fun hq => hz (hq ▸ hzq)]
      exact h.spared q hzq
    · rintro _ _ ⟨⟩
      exact ⟨hp, hstatus p ▸ hz, fun _ => hfree rfl⟩
  | @claimPid p _ i hi hslot =>
    obtain ⟨hp, hz, hfree⟩ := h.spawning p none rfl
    have hold : ∀ q ≠ p, (k.setProc p fun q => { q with pid := i }).procs q = k.procs q :=
      fun q hq => k.procs_setProc_ne hq
    have hstatus := k.setProc_spares Proc.status (p := p) (f := fun q => { q with pid := i }) rfl
    refine ⟨fun j q hj => ?_, fun q hzq => ?_, (fun _ hφ => nomatch hφ), ?_⟩
    · dsimp only at hj ⊢
      by_cases hji : j = i
      · rw [hji, Function.update_self] at hj
        obtain rfl := Option.some.inj hj
        rw [k.procs_setProc_self, hji]
        exact ⟨hi, rfl, hp⟩
      · rw [Function.update_of_ne hji] at hj
        rw [hold q fun hq => hfree rfl j (hq ▸ hj)]
        exact h.table j q hj
    · dsimp only at hzq
      rw [hstatus] at hzq
      unfold Mortal
      dsimp only
      rw [hold q fun hq => hz (hq ▸ hzq)]
      exact h.spared q hzq
    · rintro _ _ ⟨⟩
      exact ⟨hp, hstatus p ▸ hz, fun hs => nomatch hs⟩
  | _ => exact absurd trivial ha

theorem Census.boot (f : Nat → Bool) : Census .run (boot f) :=
  ⟨(fun _ _ hi => nomatch hi), (fun _ hz => nomatch hz), (fun _ hφ => nomatch hφ),
    fun _ _ hφ => nomatch hφ⟩

theorem census_run (h : Run f ok tr k) : Census .run k :=
  h.invariant (Census .run) (.boot f) fun _ _ _ _ hI _ hs =>
    Does.invariant Census (fun _ _ _ _ _ hI ho hm => hI.step ho hm) (step_does hs) hI

/-! ### The place of `init` -/

/-- Whoever has an id above 1 found the place of `init` taken, and `init` does not go. -/
def Rooted (k : Kernel) : Prop := ∀ i, 1 < i → k.processTable i ≠ none → k.processTable 1 ≠ none

/-- No edit frees the place of `init`. -/
theorem Micro.keepsInit {a : Act} (h : Census φ k) (ho : Origin k₀ e k a) (hm : Micro φ k a ψ k')
    (h1 : k.processTable 1 ≠ none) : k'.processTable 1 ≠ none := by
  by_cases ha : a.offIds
  · rwa [(hm.sameIds ha).table]
  have hforget : ∀ p, Mortal k p → (forgetPid k p).processTable 1 ≠ none := by
    intro p hp
    have hne : 1 ≠ (k.procs p).pid.toNat := by
      obtain ⟨h0, h1⟩ := hp
      omega
    rwa [forgetPid_processTable, Function.update_of_ne hne]
  cases hm with
  | @reapSelf p => exact hforget p (h.dying p rfl)
  | @reapChild p _ _ hs => exact hforget _ (h.spared _ ‹_›)
  | newProc | noPid => exact h1
  | @claimPid p _ i hi hslot =>
    have hne : 1 ≠ i := by
      rintro rfl
      exact h1 hslot
    dsimp only
    rwa [Function.update_of_ne hne]
  | _ => exact absurd trivial ha

theorem Rooted.offIds {a : Act} (h : Rooted k) (hm : Micro φ k a ψ k') (ha : a.offIds) :
    Rooted k' := by
  unfold Rooted
  rw [(hm.sameIds ha).table]
  exact h

theorem Rooted.step {a : Act} (hc : Census φ k) (h : Rooted k)
    (hinit : k₀.processTable 1 ≠ none → k.processTable 1 ≠ none) (ho : Origin k₀ e k a)
    (hm : Micro φ k a ψ k') : Rooted k' := by
  intro i hi hslot
  by_cases ha : a.offIds
  · exact h.offIds hm ha i hi hslot
  have hforget : ∀ p, (forgetPid k p).processTable i ≠ none → k.processTable i ≠ none := by
    intro p hne hnone
    by_cases hip : i = (k.procs p).pid.toNat
    · rw [forgetPid_processTable, hip, Function.update_self] at hne
      exact hne rfl
    · rw [forgetPid_processTable, Function.update_of_ne hip] at hne
      exact hne hnone
  refine hm.keepsInit hc ho ?_
  cases hm with
  | reapSelf | reapChild => exact h i hi (hforget _ hslot)
  | newProc | noPid => exact h i hi hslot
  | @claimPid p _ j hj hfree =>
    by_cases hij : i = j
    · -- the first free place is a later one
      refine hinit fun hnone => ?_
      obtain ⟨-, -, hbefore⟩ := List.find?_range_eq_some.mp ho.2
      have htaken := hbefore 1 (hij ▸ hi)
      rw [hnone] at htaken
      cases htaken
    · dsimp only at hslot
      rw [Function.update_of_ne hij] at hslot
      exact h i hi hslot
  | _ => exact absurd trivial ha

theorem rooted_run (h : Run f ok tr k) : Rooted k := by
  refine (h.invariant (fun k => Census .run k ∧ Rooted k) ⟨.boot f, fun _ _ hi => absurd rfl hi⟩
    fun k₀ e _ _ hI _ hs => ?_).2
  have hedits := Does.invariant (fun φ k => Census φ k ∧ Rooted k ∧
    (k₀.processTable 1 ≠ none → k.processTable 1 ≠ none)) (fun φ k a ψ k' hI ho hm => ?_)
    (step_does hs) ⟨hI.1, hI.2, id⟩
  · exact ⟨hedits.1, hedits.2.1⟩
  · obtain ⟨hcensus, hroot, hinit⟩ := hI
    exact ⟨hcensus.step ho hm, hroot.step hcensus hinit ho hm,
      fun h1 => hm.keepsInit hcensus ho (hinit h1)⟩

/-! ### The arrays of children -/

/-- The arrays of children hold places of the table. -/
def ChildIds (k : Kernel) : Prop :=
  ∀ p, ∀ x ∈ (k.kins p).children, 0 ≤ x ∧ x < maxProcesses

theorem ChildIds.of_kins (h : ChildIds k) (hkin : k'.kins = k.kins) : ChildIds k' := by
  unfold ChildIds
  rw [hkin]
  exact h

/-- The arrays hold places of the table, and an id that names a process is that process's. -/
structure Family.Placed (s : Family) : Prop where
  children : ∀ p, ∀ x ∈ (s.kin p).children, 0 ≤ x ∧ x < maxProcesses
  named : ∀ x z, s.Names x z → (s.kin z).pid = x

theorem Family.Placed.reparented {s s' : Family} {child i : ProcId} (h : s.Placed)
    (hx : s.Names x child) (r : s.Reparented child i s') : s'.Placed := by
  refine ⟨fun q y hy => ?_, fun y z hy => ?_⟩
  · by_cases hq : q = i
    · subst hq
      rcases r.room with ⟨-, -, hadd⟩ | ⟨-, -, hsame⟩
      · rw [hadd, List.mem_append, List.mem_singleton, h.named x child hx] at hy
        rcases hy with hy | rfl
        · exact h.children q y hy
        · exact (names_iff.mp hx).1
      · exact h.children q y (hsame ▸ hy)
    · exact h.children q y (r.children q hq ▸ hy)
  · rw [r.pid]
    exact h.named y z (r.names.mp hy)

/-- A death appends ids that name somebody to the array of `init`. -/
theorem Family.Placed.kill {s s' : Family} (h : s.Placed) (hk : s.kill p = .ok s') :
    ∀ q, ∀ x ∈ (s'.kin q).children, 0 ≤ x ∧ x < maxProcesses := by
  obtain ⟨s₁, hall, hend⟩ := Family.kill_eq_ok hk
  have ht := s.sameTree_setForeground (s.kin p).parent (some p)
  have hstart : (s.setForeground (s.kin p).parent (some p)).Placed := by
    refine ⟨fun q y hy => h.children q y (ht.children q ▸ hy), fun y z hy => ?_⟩
    rw [ht.pid]
    exact h.named y z (ht.names.mp hy)
  have hplaced : s₁.Placed := reparentAll_induction (fun _ s => s.Placed) (fun _ _ _ hI _ => hI)
    (fun _ _ _ _ _ _ hI hx _ r => hI.reparented hx r) hall hstart
  rcases hend with ⟨-, rfl⟩ | ⟨-, hreap⟩
  · exact hplaced.children
  · rw [(Family.reap_eq_ok hreap).2]
    exact hplaced.children

theorem Census.placed (h : Census φ k) (hc : ChildIds k) : k.family.Placed := by
  refine ⟨hc, fun x z hx => ?_⟩
  obtain ⟨⟨h0, -⟩, hslot⟩ := names_iff.mp hx
  have hpid : (k.procs z).pid = x.toNat := (h.table _ z hslot).2.1
  exact hpid.trans (Int.toNat_of_nonneg h0)

theorem ChildIds.procKill {code : Int} {proc : Option ProcId} (h : k.family.Placed)
    (hk : procKill k proc code = .ok k') : ChildIds k' := by
  cases proc with
  | none =>
    cases hk
    exact h.children
  | some p =>
    by_cases hpid : (k.procs p).pid = 0 ∨ (k.procs p).pid = 1
    · rw [TpeSo.procKill, if_pos hpid] at hk
      cases hk
      exact h.children
    · exact h.kill (family_procKill hpid hk)

theorem ChildIds.spawn {a : SpawnArgs} {r : Kernel × Int} (h : ChildIds k)
    (hb : Born .run k) (hs : sysSpawnProcess k a = .ok r) : ChildIds r.1 := by
  rcases family_sysSpawnProcess hs with hsame | ⟨-, hgrown⟩
  · exact h.of_kins (kins_of_family hsame)
  · have hparent : k.currentProcess ≠ some k.family.next :=
      fun hc => absurd (hb.current _ hc) (Nat.lt_irrefl _)
    have hg := k.family.grown_birth (procPidAlloc k) (k.mallocOk 1) k.currentProcess a.background
      hparent
    intro q x hx
    change x ∈ (r.1.family.kin q).children at hx
    rw [hgrown] at hx
    rcases hg.mem_children hx with ⟨-, hold⟩ | ⟨-, -, -, i, hslot, rfl⟩
    · exact h q x hold
    · have hi := List.mem_range.mp (List.mem_of_find?_eq_some hslot)
      omega

theorem ChildIds.step (h : ChildIds k) (hc : Census .run k) (hb : Born .run k)
    (hs : step k e = some (k', o)) : ChildIds k' := by
  cases step_people hs with
  | same _ _ hkin => exact h.of_kins hkin
  | caller _ c _ _ hkin => exact h.of_kins hkin
  | @collect _ k₁ hprocs c i child hcol =>
    have hstart : ChildIds k₁ := by
      unfold ChildIds Kernel.kins
      rw [hprocs]
      exact h
    intro q x hx
    exact hstart q x (((collected (family_collect hcol)).sublist q).subset hx)
  | spawn _ hspawn => exact h.spawn hb hspawn
  | @kill k₁ k₂ proc hprocs htable _ hk hk' =>
    have hfam : k₁.family.Placed := by
      obtain ⟨hchildren, hnamed⟩ := hc.placed h
      refine ⟨fun q y hy => hchildren q y ?_, fun y z hy => ?_⟩
      · have hq : (k.family.kin q).children = (k₁.procs q).children := by rw [hprocs]; rfl
        exact hq ▸ hy
      · have hz : (k₁.family.kin z).pid = (k.family.kin z).pid := by
          show (k₁.procs z).pid = _
          rw [hprocs]
          rfl
        rw [hz]
        rw [names_iff] at hy
        have hy' : k₁.family.table = k.family.table := htable
        rw [hy'] at hy
        exact hnamed y z (names_iff.mpr hy)
    exact (ChildIds.procKill hfam hk).of_kins (kins_of_people hk')

theorem childIds_run (h : Run f ok tr k) : ChildIds k := by
  refine (h.invariant (fun k => Census .run k ∧ Born .run k ∧ ChildIds k)
    ⟨.boot f, .boot f, fun _ _ hx => nomatch hx⟩ fun k₀ e _ _ hI _ hs => ?_).2.2
  obtain ⟨hcensus, hborn, hids⟩ := hI
  exact ⟨Does.invariant Census (fun _ _ _ _ _ hI ho hm => hI.step ho hm) (step_does hs) hcensus,
    Does.invariant Born (fun _ _ _ _ _ hI _ hm => hI.step hm) (step_does hs) hborn,
    hids.step hcensus hborn hs⟩

end TpeSo
