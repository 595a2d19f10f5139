import TpeSo.Family.Census

namespace TpeSo

open Ds Lib Family

/-!
# Family — nobody is his own parent

`change_priority` asks whether its caller is the parent of the process, and `proc_kill` hands the
children of a dead process to `init`.  That `init` is never handed to itself rests on who can be
its parent: only `idle` ran before it, and `idle` does not die.

* `Family.Rootless s` — nobody but a process with the id `0` has `init` among its children, and
  nobody is his own parent;
* `Descent k` — the same, and before `init` is there every process has the id `0`;
* `descent_run` — in every run.
-/

variable {f : Nat → Bool} {ok : Kernel → Event → Prop} {k k' : Kernel} {e : Event}
  {o : Option Completion} {p q : ProcId} {s s' : Family}
  {tr : List (Kernel × Event × Option Completion)}

/-- The relations that keep `init` from becoming its own parent. -/
structure Family.Rootless (s : Family) : Prop where
  named : ∀ x z, s.Names x z → (s.kin z).pid = x
  heir : ∀ q, 1 ∈ (s.kin q).children → (s.kin q).pid = 0
  parent : ∀ q, (s.kin q).parent ≠ some q

namespace Family.Rootless

theorem of_sameTree (h : s.Rootless) (t : SameTree s s') : s'.Rootless where
  named x z hx := by
    rw [t.pid]
    exact h.named x z (t.names.mp hx)
  heir q hq := by
    rw [t.pid]
    exact h.heir q (t.children q ▸ hq)
  parent q := by
    rw [t.parent]
    exact h.parent q

/-- A child that is not `init` is handed to `init`. -/
theorem reparented {child i : ProcId} {x : Int} (h : s.Rootless) (hx : s.Names x child)
    (hne : x ≠ 1) (hi : s.table 1 = some i) (r : s.Reparented child i s') : s'.Rootless := by
  have hchild : child ≠ i := by
    rintro rfl
    have h1 : s.Names 1 child := names_iff.mpr ⟨by decide, hi⟩
    exact hne ((h.named x child hx).symm.trans (h.named 1 child h1))
  refine ⟨fun y z hy => ?_, fun q hq => ?_, fun q hq => ?_⟩
  · rw [r.pid]
    exact h.named y z (r.names.mp hy)
  · rw [r.pid]
    refine h.heir q ?_
    by_cases hqi : q = i
    · subst hqi
      rcases r.room with ⟨-, -, hadd⟩ | ⟨-, -, hsame⟩
      · rw [hadd, List.mem_append, List.mem_singleton, h.named x child hx] at hq
        exact hq.resolve_right (Ne.symm hne)
      · exact hsame ▸ hq
    · exact r.children q hqi ▸ hq
  · by_cases hqc : q = child
    · subst hqc
      rcases r.room with ⟨-, hp, -⟩ | ⟨-, hp, -⟩
      · exact hchild (Option.some.inj (hq.symm.trans hp))
      · cases hq.symm.trans hp
    · exact h.parent q ((r.parent q hqc).symm.trans hq)

/-- A death of a process that is not `idle`. -/
theorem kill (h : s.Rootless) (hpid : (s.kin p).pid ≠ 0) (hk : s.kill p = .ok s') :
    s'.Rootless := by
  obtain ⟨s₁, hall, hend⟩ := Family.kill_eq_ok hk
  have hstart := h.of_sameTree (s.sameTree_setForeground (s.kin p).parent (some p))
  have hnone : 1 ∉ (s.kin p).children := fun h1 => hpid (h.heir p h1)
  have hrest := reparentAll_induction (fun rest s => 1 ∉ rest ∧ s.Rootless)
    (fun _ _ _ hI _ => ⟨fun h1 => hI.1 (List.mem_cons_of_mem _ h1), hI.2⟩)
    (fun x _ _ _ _ _ hI hx hi r => ⟨fun h1 => hI.1 (List.mem_cons_of_mem _ h1),
      hI.2.reparented hx (fun h1 => hI.1 (h1 ▸ List.mem_cons_self)) hi r⟩) hall ⟨hnone, hstart⟩
  rcases hend with ⟨-, rfl⟩ | ⟨-, hreap⟩
  · exact hrest.2
  · have hkin := (Family.reap_eq_ok hreap).2
    refine ⟨fun x z hx => ?_, fun q hq => ?_, fun q => ?_⟩
    · rw [hkin]
      exact hrest.2.named x z ((Family.names_reap hreap).mp hx).1
    · rw [hkin] at hq ⊢
      exact hrest.2.heir q hq
    · rw [hkin]
      exact hrest.2.parent q

theorem collected {c : ProcId} {n : Nat} {x : Int} (h : s.Rootless) (hc : s.Collected c n x s') :
    s'.Rootless where
  named y z hy := by
    rw [hc.pid]
    exact h.named y z ((hc.names y z).mp hy).1
  heir q hq := by
    rw [hc.pid]
    exact h.heir q ((hc.sublist q).subset hq)
  parent q := by
    rw [hc.parent]
    exact h.parent q

end Family.Rootless

/-- What holds of the relations in every reachable kernel. -/
structure Descent (k : Kernel) : Prop where
  rootless : k.family.Rootless
  lone : k.processTable 1 = none → ∀ q, (k.procs q).pid = 0

theorem Descent.boot (f : Nat → Bool) : Descent (boot f) where
  rootless := by
    refine ⟨fun x z hx => ?_, fun q hq => ?_, fun q hq => ?_⟩
    · cases (names_iff.mp hx).2
    · cases hq
    · cases hq
  lone _ _ := rfl

/-- No step frees the place of `init`. -/
theorem step_keepsInit (h : Census .run k) (hs : step k e = some (k', o))
    (h1 : k.processTable 1 ≠ none) : k'.processTable 1 ≠ none :=
  (Does.invariant (fun φ k => Census φ k ∧ k.processTable 1 ≠ none)
    (fun _ _ _ _ _ hI ho hm => ⟨hI.1.step ho hm, hm.keepsInit hI.1 ho hI.2⟩)
    (step_does hs) ⟨h, h1⟩).2

theorem Census.named (h : Census .run k) :
    ∀ x z, k.family.Names x z → (k.family.kin z).pid = x := by
  intro x z hx
  obtain ⟨⟨h0, -⟩, hslot⟩ := names_iff.mp hx
  have hpid : (k.procs z).pid = x.toNat := (h.table _ z hslot).2.1
  exact hpid.trans (Int.toNat_of_nonneg h0)

/-- Before `init` is there, the next process gets the id `0` or `1`. -/
theorem procPidAlloc_of_lone (h : k.processTable 1 = none) :
    procPidAlloc k = some 0 ∨ procPidAlloc k = some 1 := by
  cases hslot : procPidAlloc k with
  | none =>
    have hfull := List.find?_eq_none.mp hslot 1 (by decide)
    rw [h] at hfull
    simp at hfull
  | some i =>
    obtain ⟨-, -, hbefore⟩ := List.find?_range_eq_some.mp hslot
    have hi : ¬ 1 < i := by
      intro hi
      have htaken := hbefore 1 hi
      rw [h] at htaken
      cases htaken
    rcases (by omega : i = 0 ∨ i = 1) with rfl | rfl
    · exact .inl rfl
    · exact .inr rfl

/-- A birth: whoever brings `init` into the world has the id `0`. -/
theorem Descent.spawn {a : SpawnArgs} {r : Kernel × Int} (h : Descent k) (hb : Born .run k)
    (hcensus : Census .run r.1) (hs : sysSpawnProcess k a = .ok r) : Descent r.1 := by
  rcases family_sysSpawnProcess hs with hsame | ⟨-, hgrown⟩
  · have hpid : ∀ q, (r.1.procs q).pid = (k.procs q).pid :=
      fun q => congrArg (fun s : Family => (s.kin q).pid) hsame
    have htable : r.1.processTable = k.processTable := congrArg Family.table hsame
    refine ⟨hsame ▸ h.rootless, fun h1 q => ?_⟩
    rw [hpid]
    exact h.lone (htable ▸ h1) q
  · have hparent : k.currentProcess ≠ some k.family.next :=
      fun hc => absurd (hb.current _ hc) (Nat.lt_irrefl _)
    have g := k.family.grown_birth (procPidAlloc k) (k.mallocOk 1) k.currentProcess a.background
      hparent
    rw [← hgrown] at g
    have hold : ∀ q, q ≠ k.nextProc → (r.1.procs q).pid = (k.procs q).pid := g.oldPid
    refine ⟨⟨hcensus.named, fun q hq => ?_, fun q hq => ?_⟩, fun h1 q => ?_⟩
    · rcases g.mem_children hq with ⟨hne, hmem⟩ | ⟨hne, -, -, i, hi, hi1⟩
      · exact (hold q hne).trans (h.rootless.heir q hmem)
      · -- the newborn is `init`, so that nobody had another id than `0` before
        have hi1 : i = 1 := by omega
        subst hi1
        have hfree : k.processTable 1 = none := by simpa using List.find?_some hi
        exact (hold q hne).trans (h.lone hfree q)
    · by_cases hne : q = k.family.next
      · subst hne
        rw [g.newParent] at hq
        split at hq
        · exact hparent hq
        · cases hq
      · exact h.rootless.parent q ((g.oldParent q hne).symm.trans hq)
    · have htable : r.1.processTable = _ := g.table
      have hfree : k.processTable 1 = none := by
        cases hslot : procPidAlloc k with
        | none =>
          rw [hslot] at htable
          exact (congrFun htable 1).symm.trans h1
        | some i =>
          rw [hslot] at htable
          have hnew := (congrFun htable 1).symm.trans h1
          dsimp only at hnew
          by_cases hi : 1 = i
          · subst hi
            rw [Function.update_self] at hnew
            cases hnew
          · rwa [Function.update_of_ne hi] at hnew
      by_cases hne : q = k.nextProc
      · subst hne
        rcases procPidAlloc_of_lone hfree with hslot | hslot
        · rw [hslot] at g
          exact g.newPid
        · rw [hslot] at htable
          have htaken := (congrFun htable 1).symm.trans h1
          dsimp only at htaken
          rw [Function.update_self] at htaken
          cases htaken
      · rw [hold q hne]
        exact h.lone hfree q

/-- A death. -/
theorem Family.Rootless.procKill {proc : Option ProcId} {code : Int} (h : k.family.Rootless)
    (hk : procKill k proc code = .ok k') :
    k'.family.Rootless ∧ ∀ q, (k'.procs q).pid = (k.procs q).pid := by
  cases proc with
  | none =>
    cases hk
    exact ⟨h, fun _ => rfl⟩
  | some p =>
    by_cases hpid : (k.procs p).pid = 0 ∨ (k.procs p).pid = 1
    · rw [TpeSo.procKill, if_pos hpid] at hk
      cases hk
      exact ⟨h, fun _ => rfl⟩
    · refine ⟨h.kill (fun h0 => hpid (.inl h0)) (family_procKill hpid hk), fun q => ?_⟩
      have hrem := congrFun (remains_procKill hpid hk) q
      by_cases hq : q = p
      · subst hq
        rw [Function.update_self] at hrem
        exact congrArg Prod.fst hrem
      · rw [Function.update_of_ne hq] at hrem
        exact congrArg Prod.fst hrem

theorem Descent.step (h : Descent k) (hc : Census .run k) (hc' : Census .run k')
    (hb : Born .run k) (hs : step k e = some (k', o)) : Descent k' := by
  have hinit : k'.processTable 1 = none → k.processTable 1 = none := by
    intro h1
    by_contra hne
    exact step_keepsInit hc hs hne h1
  have of_kins : (∀ q, (k'.procs q).pid = (k.procs q).pid) →
      (∀ q, 1 ∈ (k'.procs q).children → 1 ∈ (k.procs q).children) →
      (∀ q, (k'.procs q).parent = (k.procs q).parent) → Descent k' := by
    intro hpid hchildren hparent
    refine ⟨⟨hc'.named, fun q hq => ?_, fun q hq => ?_⟩, fun h1 q => ?_⟩
    · exact (hpid q).trans (h.rootless.heir q (hchildren q hq))
    · exact h.rootless.parent q ((hparent q).symm.trans hq)
    · rw [hpid]
      exact h.lone (hinit h1) q
  have of_same : k'.kins = k.kins → Descent k' := fun hkin => by
    have hq : ∀ q, (k'.procs q).kin = (k.procs q).kin := fun q => congrFun hkin q
    refine of_kins (fun q => congrArg Kin.pid (hq q)) (fun q h1 => ?_)
      fun q => congrArg Kin.parent (hq q)
    have hsame : (k'.procs q).children = (k.procs q).children := congrArg Kin.children (hq q)
    rwa [hsame] at h1
  cases step_people hs with
  | same _ _ hkin => exact of_same hkin
  | caller _ c _ _ hkin => exact of_same hkin
  | @collect _ k₁ hprocs c i child hcol =>
    have hcoll := collected (family_collect hcol)
    have hkin : ∀ q, k₁.family.kin q = k.family.kin q := by
      intro q
      show (k₁.procs q).kin = _
      rw [hprocs]
      rfl
    refine of_kins (fun q => (hcoll.pid q).trans (congrArg Kin.pid (hkin q))) (fun q h1 => ?_)
      fun q => (hcoll.parent q).trans (congrArg Kin.parent (hkin q))
    have hmem := (hcoll.sublist q).subset h1
    rwa [hkin] at hmem
  | spawn _ hspawn => exact h.spawn hb hc' hspawn
  | @kill k₁ k₂ proc hprocs htable hp hk hk' =>
    have hkin : k₁.family.kin = k.family.kin := by
      funext q
      show (k₁.procs q).kin = _
      rw [hprocs]
      rfl
    have hfam : k₁.family.Rootless := by
      refine ⟨fun x z hx => ?_, hkin ▸ h.rootless.heir, hkin ▸ h.rootless.parent⟩
      rw [hkin]
      have ht : k₁.family.table = k.family.table := htable
      exact h.rootless.named x z (names_iff.mpr (ht ▸ names_iff.mp hx))
    obtain ⟨hend, hpid⟩ := hfam.procKill hk
    have hkin' : ∀ q, (k'.procs q).kin = (k₂.procs q).kin :=
      fun q => congrFun (kins_of_people hk') q
    refine ⟨⟨hc'.named, fun q hq => ?_, fun q hq => ?_⟩, fun h1 q => ?_⟩
    · have hchildren : (k'.family.kin q).children = (k₂.family.kin q).children :=
        congrArg Kin.children (hkin' q)
      rw [hchildren] at hq
      exact (congrArg Kin.pid (hkin' q)).trans (hend.heir q hq)
    · exact hend.parent q ((congrArg Kin.parent (hkin' q)).symm.trans hq)
    · have hsame : (k'.procs q).pid = (k₁.procs q).pid :=
        (congrArg Kin.pid (hkin' q)).trans (hpid q)
      rw [hsame, hprocs]
      exact h.lone (hinit h1) q

theorem descent_run (h : Run f ok tr k) : Descent k := by
  refine (h.invariant (fun k => Census .run k ∧ Born .run k ∧ Descent k)
    ⟨.boot f, .boot f, .boot f⟩ fun k₀ e _ _ hI _ hs => ?_).2.2
  obtain ⟨hcensus, hborn, hdescent⟩ := hI
  have hcensus' := Does.invariant Census (fun _ _ _ _ _ hI ho hm => hI.step ho hm) (step_does hs)
    hcensus
  exact ⟨hcensus', Does.invariant Born (fun _ _ _ _ _ hI _ hm => hI.step hm) (step_does hs) hborn,
    hdescent.step hcensus hcensus' hborn hs⟩

end TpeSo
