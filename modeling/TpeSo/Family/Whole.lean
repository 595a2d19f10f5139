import TpeSo.Family.Wakeups
import TpeSo.Sems.Tokens
import Mathlib.Data.List.Perm.Subperm

namespace TpeSo

open Ds Lib Family

/-!
# Family — every process is somebody's

While no `kmalloc` fails, nobody dies twice, and every process but the first two is spawned by
another, arrays and parent pointers say the same, and no process is left without a parent that
could collect it.

* `Whole s Z` — `Kinship`, and every parent pointer to a living process is in its array;
* `Whole.kill`, `Whole.collect`, `Whole.grown` — a death, a collection and a birth keep this;
* `Consistent k` — what that means for a kernel;
* `family_consistent` — the statement about whole runs;
* `orphan_spawn` — the run in which a process that has killed itself spawns one more.
-/

variable {s s' t : Family} {Z : Set ProcId} {f : Nat → Bool} {k k' : Kernel} {e : Event}
  {o : Option Completion} {p q c i z : ProcId} {x : Int}
  {tr : List (Kernel × Event × Option Completion)}

/-- **Nothing is missing**: parent pointers are in arrays, everybody but `idle` and `init` has a
    living parent, and every process has an id. -/
structure Whole (s : Family) (Z : Set ProcId) : Prop extends Kinship s Z where
  listed : ∀ x z q, s.Names x z → (s.kin z).parent = some q → q ∉ Z → x ∈ (s.kin q).children
  cared : ∀ x z, s.Names x z → x ≠ 0 → x ≠ 1 → ∃ q, (s.kin z).parent = some q ∧ q ∉ Z
  placed : ∀ p < s.next, 0 ≤ (s.kin p).pid

/-- The array of a living process has room for one more child. -/
theorem Kinship.room (h : Kinship s Z) (hq : q ∉ Z) (hx : x ∉ (s.kin q).children)
    (hrange : 0 ≤ x ∧ x < maxProcesses) : (s.kin q).children.length < maxProcesses := by
  have hnodup : (x :: (s.kin q).children).Nodup := List.nodup_cons.mpr ⟨hx, h.nodup q hq⟩
  have hids : x :: (s.kin q).children ⊆ (List.range maxProcesses).map Int.ofNat := by
    have hid : ∀ y : Int, 0 ≤ y ∧ y < maxProcesses → y ∈ (List.range maxProcesses).map Int.ofNat := by
      intro y hy
      exact List.mem_map.mpr ⟨y.toNat, List.mem_range.mpr (by omega), Int.toNat_of_nonneg hy.1⟩
    intro y hy
    rcases List.mem_cons.mp hy with rfl | hy
    · exact hid y hrange
    · obtain ⟨z, hz, -⟩ := h.children q hq y hy
      exact hid y (names_iff.mp hz).1
  have hlen := (List.subperm_of_subset hnodup hids).length_le
  simp only [List.length_cons, List.length_map, List.length_range] at hlen
  omega

/-- The loop over the children of the dead process `p`, which has still to see `rest`. -/
structure Adoption (s t : Family) (Z : Set ProcId) (p : ProcId) (rest : List Int) : Prop
    extends Orphans t Z p rest where
  listed : ∀ x z q, t.Names x z → (t.kin z).parent = some q → q ∉ Z → x ∈ (t.kin q).children
  cared : ∀ x z, t.Names x z → x ≠ 0 → x ≠ 1 → ∃ q, (t.kin z).parent = some q ∧
    (q ∉ Z ∨ q = p ∧ x ∈ rest)
  pid : ∀ q, (t.kin q).pid = (s.kin q).pid
  next : t.next = s.next
  parent : (t.kin p).parent = (s.kin p).parent

/-- One child is given to `init`, which has room for it. -/
theorem Adoption.step {rest : List Int} {child : ProcId} {t' : Family}
    (h : Adoption s t Z p (x :: rest)) (hp : p ∈ Z) (hself : (s.kin p).parent ≠ some p)
    (hx : t.Names x child) (hi : t.table 1 = some i) (r : t.Reparented child i t') :
    Adoption s t' Z p rest := by
  have hparent := h.owned x List.mem_cons_self child hx
  obtain ⟨hpid, hlt, hiZ⟩ := h.kin.init_living hi
  have hchild : (t.kin child).pid = x := (h.kin.table x child hx).1
  have hxi : x ∉ (t.kin i).children := by
    intro hmem
    have hparent' := h.kin.parent_of_child hiZ hmem hx
    rw [hparent, Option.some.injEq] at hparent'
    exact hiZ (hparent' ▸ hp)
  obtain ⟨hnew, hlist⟩ : (t'.kin child).parent = some i ∧
      (t'.kin i).children = (t.kin i).children ++ [x] := by
    rcases r.room with ⟨-, hnew, hlist⟩ | ⟨hfull, -⟩
    · exact ⟨hnew, hchild ▸ hlist⟩
    · exact absurd (h.kin.room hiZ hxi (names_iff.mp hx).1) hfull
  have hgrow : ∀ q y, y ∈ (t.kin q).children → y ∈ (t'.kin q).children := by
    intro q y hy
    by_cases hqi : q = i
    · subst hqi
      rw [hlist]
      exact List.mem_append_left _ hy
    · rwa [r.children q hqi]
  have hpc : p ≠ child := by
    rintro rfl
    exact hself (h.parent ▸ hparent)
  refine ⟨h.toOrphans.step hp hx hi r, fun y z q hz hq hqZ => ?_, fun y z hz h0 h1 => ?_,
    fun q => (r.pid q).trans (h.pid q), r.next.trans h.next, (r.parent p hpc).trans h.parent⟩
  · have hz' := r.names.mp hz
    by_cases hzc : z = child
    · subst hzc
      rw [hnew, Option.some.injEq] at hq
      subst hq
      rw [hlist, ← (h.kin.table y z hz').1, hchild]
      simp
    · rw [r.parent z hzc] at hq
      exact hgrow q y (h.listed y z q hz' hq hqZ)
  · have hz' := r.names.mp hz
    by_cases hzc : z = child
    · subst hzc
      exact ⟨i, hnew, .inl hiZ⟩
    · rw [r.parent z hzc]
      obtain ⟨q, hq, hcare⟩ := h.cared y z hz' h0 h1
      refine ⟨q, hq, hcare.imp id fun ⟨hqp, hy⟩ => ⟨hqp, ?_⟩⟩
      refine (List.mem_cons.mp hy).resolve_left ?_
      rintro rfl
      exact hzc (hz'.unique hx)

theorem Adoption.skip {rest : List Int} (h : Adoption s t Z p (x :: rest))
    (hx : ∀ z, ¬ t.Names x z) : Adoption s t Z p rest where
  toOrphans := h.toOrphans.skip
  listed := h.listed
  cared y z hz h0 h1 := by
    obtain ⟨q, hq, hcare⟩ := h.cared y z hz h0 h1
    refine ⟨q, hq, hcare.imp id fun ⟨hqp, hy⟩ => ⟨hqp, ?_⟩⟩
    refine (List.mem_cons.mp hy).resolve_left ?_
    rintro rfl
    exact hx z hz
  pid := h.pid
  next := h.next
  parent := h.parent

/-- **A death** of a living process. -/
theorem Whole.kill (h : Whole s Z) (hpid : (s.kin p).pid ≠ 0 ∧ (s.kin p).pid ≠ 1)
    (hp : p < s.next) (hZ : p ∉ Z) (hk : s.kill p = .ok s') : Whole s' (insert p Z) := by
  have hkin := (h.toKinship.kill hpid hp (fun hz => absurd hz hZ) hk).1
  obtain ⟨s₁, hall, hend⟩ := Family.kill_eq_ok hk
  have ht := s.sameTree_setForeground (s.kin p).parent (some p)
  generalize s.setForeground (s.kin p).parent (some p) = s₀ at hall ht
  have hnames₀ := fun x z => ht.names (x := x) (z := z)
  have hself : (s₀.kin p).parent ≠ some p := fun hs =>
    hpid.2 (h.noSelf p (ht.parent p ▸ hs))
  have hstart : Adoption s₀ s₀ (insert p Z) p (s.kin p).children := by
    refine ⟨⟨(h.toKinship.bury hpid hp).of_sameTree ht, h.nodup p hZ, fun x hx z hz => ?_⟩,
      fun x z q hz hq hqZ => ?_, fun x z hz h0 h1 => ?_, fun _ => rfl, rfl, rfl⟩
    · rw [ht.parent]
      exact h.parent_of_child hZ hx ((hnames₀ x z).mp hz)
    · rw [ht.children]
      rw [ht.parent] at hq
      exact h.listed x z q ((hnames₀ x z).mp hz) hq fun hq' => hqZ (.inr hq')
    · rw [ht.parent]
      obtain ⟨q, hq, hqZ⟩ := h.cared x z ((hnames₀ x z).mp hz) h0 h1
      refine ⟨q, hq, ?_⟩
      by_cases hqp : q = p
      · subst hqp
        exact .inr ⟨rfl, h.listed x z q ((hnames₀ x z).mp hz) hq hZ⟩
      · exact .inl fun hq' => hq'.elim hqp hqZ
  have hdone : Adoption s₀ s₁ (insert p Z) p [] := by
    refine Family.reparentAll_induction (fun rest t => Adoption s₀ t (insert p Z) p rest)
      (fun x rest t ha hnone => ha.skip fun z hz => ?_)
      (fun x rest t child i t' ha hx hi r => ha.step (.inl rfl) hself hx hi r) hall hstart
    cases hnone.symm.trans hz
  -- the parent of `p` is alive, so `p` stays in the table
  have hparent : (s₁.kin p).parent ≠ none := by
    rw [hdone.parent, ht.parent]
    have hlisted := h.living p hp hZ (h.placed p hp)
    obtain ⟨q, hq, -⟩ := h.cared _ p hlisted hpid.1 hpid.2
    simp [hq]
  obtain rfl : s' = s₁ := by
    rcases hend with ⟨-, hs⟩ | ⟨hnone, -⟩
    · exact hs
    · exact absurd hnone hparent
  refine ⟨hkin, hdone.listed, fun x z hz h0 h1 => ?_, fun q hq => ?_⟩
  · obtain ⟨q, hq, hcare⟩ := hdone.cared x z hz h0 h1
    exact ⟨q, hq, hcare.resolve_right fun hr => by cases hr.2⟩
  · rw [hdone.pid, ht.pid]
    exact h.placed q (by rw [← ht.next, ← hdone.next]; exact hq)

/-- **A completed wait.** -/
theorem Whole.collect {n : Nat} {child : ProcId} (h : Whole s Z) (hc : c ∉ Z)
    (hn : (s.kin c).children[n]? = some x) (hx : s.Names x child) (hdead : child ∈ Z)
    (hk : s.collect c n child = .ok s') : Whole s' Z := by
  have hcol := Family.collected hk
  rw [(h.table x child hx).1] at hcol
  refine ⟨h.toKinship.collect hc hn hx hdead hk, fun y z q hz hq hqZ => ?_, fun y z hz h0 h1 => ?_,
    fun q hq => ?_⟩
  · obtain ⟨hz, hyx⟩ := (hcol.names y z).mp hz
    have hmem := h.listed y z q hz (hcol.parent z ▸ hq) hqZ
    by_cases hqc : q = c
    · subst hqc
      obtain ⟨hlt, rfl⟩ := List.getElem?_eq_some_iff.mp hn
      rw [hcol.self, ← (h.nodup q hqZ).erase_getElem n hlt]
      exact (List.mem_erase_of_ne hyx).mpr hmem
    · rwa [hcol.children q hqc]
  · rw [hcol.parent]
    exact h.cared y z ((hcol.names y z).mp hz).1 h0 h1
  · rw [hcol.pid]
    exact h.placed q (hcol.next ▸ hq)

/-- **A birth**: the new process is `idle` or `init`, or somebody has spawned it. -/
theorem Whole.grown {slot : Option Nat} {stack : Bool} {parent : Option ProcId} (h : Whole s Z)
    (hslot : ∀ i, slot = some i → i < maxProcesses ∧ s.table i = none)
    (hparent : ∀ c, parent = some c → c < s.next ∧ c ∉ Z) (hstack : stack = true) (hroom : slot ≠ none)
    (hspawner : ∀ i, slot = some i → i ≠ 0 → i ≠ 1 → parent ≠ none)
    (g : s.Grown slot stack parent s') : Whole s' Z := by
  have hkinship := h.toKinship.grown hslot (fun c hc => (hparent c hc).1) g
  subst hstack
  obtain ⟨i, rfl⟩ := Option.ne_none_iff_exists'.mp hroom
  obtain ⟨hi, hfree⟩ := hslot i rfl
  have hnames := fun x z => g.names (x := x) (z := z) hslot
  have hnew : (s'.kin s.next).parent = parent := by simpa using g.newParent
  -- the id is in nobody's array yet, so its parent has room
  have hgrow : ∀ q, q ≠ s.next → q ∉ Z → (s'.kin q).children =
      if parent = some q then (s.kin q).children ++ [(i : Int)] else (s.kin q).children := by
    intro q hq hqZ
    rw [g.children q hq]
    have hi' : (i : Int) ∉ (s.kin q).children := by
      intro hmem
      obtain ⟨z, hz, -⟩ := h.children q hqZ _ hmem
      have htab := (names_iff.mp hz).2
      rw [Int.toNat_natCast, hfree] at htab
      cases htab
    have hlen := h.toKinship.room hqZ hi' ⟨by omega, by omega⟩
    by_cases hp : parent = some q
    · rw [if_pos ⟨rfl, hp, hlen⟩, if_pos hp]
      rfl
    · rw [if_neg fun hc => hp hc.2.1, if_neg hp]
  refine ⟨hkinship, fun x z q hz hq hqZ => ?_, fun x z hz h0 h1 => ?_, fun q hq => ?_⟩
  · rcases (hnames x z).mp hz with hz | ⟨j, hj, rfl, rfl⟩
    · have hzn := (h.table x z hz).2.ne
      rw [g.oldParent z hzn] at hq
      have hqn := (h.older z q hq).ne
      rw [hgrow q hqn hqZ]
      have hmem := h.listed x z q hz hq hqZ
      split
      · exact List.mem_append_left _ hmem
      · exact hmem
    · cases hj
      rw [hnew] at hq
      rw [hgrow q (hparent q hq).1.ne hqZ, if_pos hq]
      simp
  · rcases (hnames x z).mp hz with hz | ⟨j, hj, rfl, rfl⟩
    · rw [g.oldParent z (h.table x z hz).2.ne]
      exact h.cared x z hz h0 h1
    · cases hj
      obtain ⟨c, hc⟩ := Option.ne_none_iff_exists'.mp
        (hspawner i rfl (fun h => h0 (by simp [h])) fun h => h1 (by simp [h]))
      exact ⟨c, hnew.trans hc, (hparent c hc).2⟩
  · by_cases hqn : q = s.next
    · subst hqn
      have hpid : (s'.kin s.next).pid = (i : Int) := g.newPid
      rw [hpid]
      omega
    · rw [g.oldPid q hqn]
      rw [g.next] at hq
      exact h.placed q (Nat.lt_of_le_of_ne (Nat.lt_succ_iff.mp hq) hqn)

/-! ### Whole runs -/

/-- Whoever is spawned after `idle` and `init` is spawned by a running process. -/
def Spawned (k : Kernel) : Event → Prop
  | .sysSpawn _ => ∀ i ∈ procPidAlloc k, i ≠ 0 → i ≠ 1 → k.currentProcess ≠ none
  | _ => True

instance (k : Kernel) : DecidablePred (Spawned k) := fun e => by
  rcases e with ⟨⟩ <;> dsimp only [Spawned] <;> infer_instance

/-- An entry of a family: nobody dies twice. -/
def FamilyEntry (k : Kernel) (e : Event) : Prop :=
  familyEvent e = true ∧ ∀ p ∈ killTarget k e, (k.procs p).status ≠ .zombie

instance (k : Kernel) (e : Event) : Decidable (FamilyEntry k e) := inferInstanceAs (Decidable (_ ∧ _))

/-- **Family consistency.** -/
structure Consistent (k : Kernel) : Prop where
  table : ∀ i < maxProcesses, ∀ z, k.processTable i = some z → (k.procs z).pid = i
  /-- The array of a living process holds the ids of its children, each once. -/
  children : ∀ p, (k.procs p).status ≠ .zombie → (k.procs p).children.Nodup ∧
    ∀ x, x ∈ (k.procs p).children ↔
      ∃ z, getProcByPid k x = .ok (some z) ∧ (k.procs z).parent = some p
  /-- Everybody but `idle` and `init` has a living parent, which is in the table. -/
  parent : ∀ i < maxProcesses, ∀ z, k.processTable i = some z → i ≠ 0 → i ≠ 1 →
    ∃ q, (k.procs z).parent = some q ∧ (k.procs q).status ≠ .zombie ∧
      getProcByPid k (k.procs q).pid = .ok (some q)
  /-- There is exactly one process that can collect a zombie. -/
  collector : ∀ i < maxProcesses, ∀ z, k.processTable i = some z → (k.procs z).status = .zombie →
    ∃! q, (k.procs q).status ≠ .zombie ∧ (i : Int) ∈ (k.procs q).children

theorem names_of_table {i : Nat} (hi : i < maxProcesses) (h : k.processTable i = some z) :
    k.family.Names (i : Int) z :=
  names_iff.mpr ⟨by omega, by rw [Int.toNat_natCast]; exact h⟩

theorem Whole.consistent (h : Whole k.family k.zombies) : Consistent k := by
  refine ⟨fun i hi z hz => (h.table _ z (names_of_table hi hz)).1, fun p hp => ⟨h.nodup p hp,
    fun x => ⟨h.children p hp x, fun ⟨z, hz, hq⟩ => h.listed x z p hz hq hp⟩⟩,
    fun i hi z hz h0 h1 => ?_, fun i hi z hz hzombie => ?_⟩
  · obtain ⟨q, hq, hqZ⟩ := h.cared _ z (names_of_table hi hz) (by omega) (by omega)
    have hlt := h.older z q hq
    exact ⟨q, hq, hqZ, h.living q hlt hqZ (h.placed q hlt)⟩
  · have hnames := names_of_table hi hz
    have hspared := h.spared z hzombie
    rw [(h.table _ z hnames).1] at hspared
    obtain ⟨q, hq, hqZ⟩ := h.cared _ z hnames hspared.1 hspared.2
    refine ⟨q, ⟨hqZ, h.listed _ z q hnames hq hqZ⟩, fun q' ⟨hq'Z, hmem⟩ => ?_⟩
    have hq' := h.parent_of_child hq'Z hmem hnames
    exact Option.some.inj (hq'.symm.trans hq)

theorem FamilyStep.whole (hset : Settled k) (hheap : k.HeapOk) (h : Whole k.family k.zombies)
    (he : FamilyEntry k e) (hsp : Spawned k e) (hs : FamilyStep k e k') :
    Whole k'.family k'.zombies := by
  cases hs with
  | steady hfam hz hr =>
    rw [hfam, hz]
    exact h
  | wait hc hfam hz hr hnone =>
    rw [hfam, hz]
    exact h
  | collect hc hpid hchild hdead hfam hz hr =>
    rw [hz]
    exact h.collect (hset.current hc).2 hpid hchild hdead hfam
  | kill ht hfam hz hr hparent =>
    obtain ⟨hpid, hlt⟩ := hset.victim ht
    rw [hz]
    exact h.kill hpid hlt (he.2 _ ht) hfam
  | spawn he' hroom hfam hz hr =>
    subst he'
    rw [hz]
    exact h.grown (fun _ => procPidAlloc_eq_some) (fun c hc => hset.current hc) (hheap 1)
      (hroom hheap) (fun i hi h0 h1 => hsp i hi h0 h1) (hset.grown hfam)

theorem Whole.boot (f : Nat → Bool) : Whole (boot f).family (boot f).zombies where
  toKinship := .boot f
  listed x z q hx := by
    have ht := (names_iff.mp hx).2
    cases ht
  cared x z hx := by
    have ht := (names_iff.mp hx).2
    cases ht
  placed p hp := absurd hp (Nat.not_lt_zero p)

/-- **Families are consistent** in every run in which nobody dies twice, no `kmalloc` fails,
    and whoever is spawned after `idle` and `init` is spawned by a running process. -/
theorem family_consistent (hf : ∀ n, f n = true)
    (h : Run f (fun k e => FamilyEntry k e ∧ Spawned k e) tr k) : Consistent k := by
  refine (h.invariant (fun k => Settled k ∧ k.HeapOk ∧ Whole k.family k.zombies)
    ⟨.boot f, hf, .boot f⟩ ?_).2.2.consistent
  rintro k e k' o ⟨hset, hheap, hI⟩ ⟨he, hsp⟩ hs
  exact ⟨hset.step he.1 hs, step_heapOk hheap hs, (step_family hset he.1 hs).whole hset hheap hI he hsp⟩

theorem family_consistent_orphan : ∃ tr k,
    Run (fun _ => true) (fun k e => FamilyEntry k e ∧ Spawned k e) tr k ∧
      (k.procs 4).parent = some 1 ∧ (k.procs 4).status = .zombie ∧ Consistent k := by
  have hcheck : execCheck step (fun k e => FamilyEntry k e ∧ Spawned k e)
      (fun _ k => (k.procs 4).parent == some 1 && (k.procs 4).status == .zombie)
      (boot fun _ => true) orphanedZombieEvents = true := by decide +kernel
  obtain ⟨tr, k, hrun, hQ⟩ := Trace.of_execCheck hcheck
  simp only [Bool.and_eq_true, beq_iff_eq] at hQ
  exact ⟨tr, k, hrun, hQ.1, hQ.2, family_consistent (fun _ => rfl) hrun⟩

/-- A child of `init` kills itself, and spawns one more process before it is switched out. -/
def orphanSpawnEvents : List Event :=
  [.sysSpawn { entry := some 1, fds := none, background := false },
   .sysSpawn { entry := some 2, fds := none, background := false }, .timer, .sysYield,
   .sysSpawn { entry := some 3, fds := none, background := true }, .sysYield, .resume, .sysYield,
   .sysKillProc 2, .sysSpawn { entry := some 4, fds := none, background := true }]

/-- **A process without a parent**: a process that kills itself goes on running, as nobody, and
    what it spawns is nobody's child. -/
theorem orphan_spawn : ¬ ∀ tr k, Run (fun _ => true) FamilyEntry tr k → Consistent k := by
  intro hall
  have hcheck : execCheck step FamilyEntry
      (fun _ k => k.processTable 3 == some 3 && (k.procs 3).parent == none)
      (boot fun _ => true) orphanSpawnEvents = true := by decide +kernel
  obtain ⟨tr, k, hrun, hQ⟩ := Trace.of_execCheck hcheck
  simp only [Bool.and_eq_true, beq_iff_eq] at hQ
  obtain ⟨q, hq, -⟩ := (hall tr k hrun).parent 3 (by decide) 3 hQ.1 (by decide) (by decide)
  rw [hQ.2] at hq
  cases hq

end TpeSo
