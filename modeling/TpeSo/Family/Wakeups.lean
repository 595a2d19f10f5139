import TpeSo.Family.Kinship

namespace TpeSo

open Ds Lib Family

/-!
# Family — who waits for any child has no dead one

A process in `wait_pid(-1)` has looked at its children before it blocked, and the death of a
child wakes it.  But a zombie also becomes somebody's child by being handed to `init`, and that
wakes nobody.

* `FamilyStep.kinship` — parents, arrays and table agree after every entry;
* `KeepsWaits k p` — the death of `p` brings no dead child to an `init` that keeps waiting;
* `NoLostExit k` — nobody waits for any child and has a dead one;
* `no_lost_exit` — the statement about whole runs;
* `lost_exit` — the run in which `init` waits for ever beside a dead child.
-/

variable {f : Nat → Bool} {k k' : Kernel} {e : Event} {o : Option Completion} {p c : ProcId}
  {tr : List (Kernel × Event × Option Completion)}

/-! ### Kinship along a run -/

/-- A process that dies a second time is still in the table, and its array names nobody. -/
def DiesAgain (k : Kernel) (p : ProcId) : Prop :=
  (k.procs p).status = .zombie → getProcByPid k (k.procs p).pid = .ok (some p) ∧
    ∀ x ∈ (k.procs p).children, ∀ z, getProcByPid k x ≠ .ok (some z)

/-- The current process has been born and is not dead. -/
theorem Settled.current (h : Settled k) (hc : k.currentProcess = some c) :
    c < k.family.next ∧ c ∉ k.zombies := h.final.current c hc

/-- Whom an entry kills has been born. -/
theorem Settled.victim (h : Settled k) (ht : killTarget k e = some p) :
    ((k.family.kin p).pid ≠ 0 ∧ (k.family.kin p).pid ≠ 1) ∧ p < k.family.next := by
  have hpid := not_or.mp (killTarget_pid ht)
  refine ⟨hpid, ?_⟩
  by_contra hp
  exact hpid.1 (h.final.unborn p (not_lt.mp hp)).2

/-- The birth an entry makes. -/
theorem Settled.grown (h : Settled k) {stack background : Bool}
    (hfam : k'.family = k.family.birth (procPidAlloc k) stack k.currentProcess background) :
    k.family.Grown (procPidAlloc k) stack k.currentProcess k'.family := by
  rw [hfam]
  exact grown_birth _ _ _ _ _ fun hc => lt_irrefl _ (h.current hc).1

/-- **Kinship is kept** by every entry whose victim does not die a second time amid others. -/
theorem FamilyStep.kinship (hset : Settled k) (h : Kinship k.family k.zombies)
    (hagain : ∀ p, killTarget k e = some p → DiesAgain k p) (hs : FamilyStep k e k') :
    Kinship k'.family k'.zombies := by
  cases hs with
  | steady hfam hz hr =>
    rw [hfam, hz]
    exact h
  | wait hc hfam hz hr hnone =>
    rw [hfam, hz]
    exact h
  | collect hc hpid hchild hdead hfam hz hr =>
    rw [hz]
    exact h.collect (hset.current hc).2 hpid hchild hdead hfam
  | kill ht hfam hz hr hparent =>
    obtain ⟨hpid, hlt⟩ := hset.victim ht
    rw [hz]
    exact (h.kill hpid hlt (hagain _ ht) hfam).1
  | spawn he hroom hfam hz hr =>
    rw [hz]
    exact h.grown (fun _ => procPidAlloc_eq_some) (fun c hc => (hset.current hc).1)
      (hset.grown hfam)

/-! ### Waiting for any child -/

/-- Nobody waits for any child and has a dead one. -/
def NoLostExit (k : Kernel) : Prop :=
  ∀ p, AwaitsChild k p (-1) → ∀ x ∈ (k.procs p).children, ∀ z,
    getProcByPid k x = .ok (some z) → (k.procs z).status ≠ .zombie

/-- The death of `p` leaves nobody waiting beside a dead child: when `init` waits for any child,
    it is woken as the parent of `p`, or no child of `p` is dead; and if `p` is dead already, it
    has no children to hand over. -/
structure KeepsWaits (k : Kernel) (p : ProcId) : Prop where
  init : ∀ i, k.processTable 1 = some i → AwaitsChild k i (-1) → (k.procs p).parent = some i ∨
    ∀ x ∈ (k.procs p).children, ∀ z, getProcByPid k x = .ok (some z) →
      (k.procs z).status ≠ .zombie
  again : DiesAgain k p

/-- **One entry.** -/
theorem FamilyStep.noLostExit (hset : Settled k) (hkin : Kinship k.family k.zombies)
    (h : NoLostExit k) (hok : ∀ p, killTarget k e = some p → KeepsWaits k p)
    (hs : FamilyStep k e k') : NoLostExit k' := by
  intro q hq x hx z hnames hz
  change k'.family.Names x z at hnames
  change x ∈ (k'.family.kin q).children at hx
  change z ∈ k'.zombies at hz
  -- who waited before, and had a dead child
  have hold : AwaitsChild k q (-1) → x ∈ (k.family.kin q).children → k.family.Names x z →
      z ∉ k.zombies := fun hq hx hn => h q hq x hx z hn
  cases hs with
  | steady hfam hz' hr =>
    rw [hfam] at hnames hx
    exact hold (hr q _ hq) hx hnames (hz' ▸ hz)
  | wait hc hfam hz' hr hnone =>
    rw [hfam] at hnames hx
    rw [hz'] at hz
    rcases hr q _ hq with hq | ⟨rfl, hpid⟩
    · exact hold hq hx hnames hz
    · exact hnone hpid.symm x hx z hnames hz
  | @collect c child i pid hc hpid hchild hdead hfam hz' hr =>
    have hcol := Family.collected hfam
    exact hold (hr q _ hq) ((hcol.sublist q).subset hx) ((hcol.names x z).mp hnames).1 (hz' ▸ hz)
  | @kill p ht hfam hz' hr hparent =>
    obtain ⟨hpid, hlt⟩ := hset.victim ht
    obtain ⟨hinit, hagain⟩ := hok p ht
    obtain ⟨-, hd⟩ := hkin.kill hpid hlt hagain hfam
    have hn := hd.names x z hnames
    have hqk := hr q _ hq
    have hqZ : q ∉ k.zombies := by
      intro hqz
      exact absurd (hqk.1.symm.trans hqz) (by decide)
    have hnotParent : (k.family.kin p).parent ≠ some q := fun hp =>
      hparent q _ (hd.parent.trans hp) hq
    rw [hz'] at hz
    rcases hd.children q x hx with hx | ⟨hi, hxp, -⟩
    · rcases hz with rfl | hz
      · exact hnotParent (hkin.parent_of_child hqZ hx hn)
      · exact hold hqk hx hn hz
    · -- `init` is handed a child of `p`
      rcases hinit q hi hqk with hp | hnone
      · exact hnotParent hp
      · rcases hz with rfl | hz
        · by_cases hpZ : z ∈ k.zombies
          · exact (hagain hpZ).2 x hxp z hn
          · exact hpid.2 (hkin.noSelf z (hkin.parent_of_child hpZ hxp hn))
        · exact hnone x hxp z hn hz
  | spawn he hroom hfam hz' hr =>
    have g := hset.grown hfam
    rw [hz'] at hz
    rcases (g.names fun _ => procPidAlloc_eq_some).mp hnames with hn | ⟨i, -, -, rfl⟩
    · rcases g.mem_children hx with ⟨-, hx⟩ | ⟨-, -, -, i, hi, rfl⟩
      · exact hold (hr q _ hq) hx hn hz
      · have ht := (names_iff.mp hn).2
        rw [Int.toNat_natCast] at ht
        exact absurd (ht.symm.trans (procPidAlloc_eq_some hi).2) (by simp)
    · exact absurd (hkin.born _ hz) (lt_irrefl _)

/-- An entry of a family, all of whose deaths keep the waits. -/
def KeepsWaitsStep (k : Kernel) (e : Event) : Prop :=
  familyEvent e = true ∧ ∀ p, killTarget k e = some p → KeepsWaits k p

/-- An entry of a family whose victim lives and has no children. -/
def ChildlessStep (k : Kernel) (e : Event) : Prop :=
  familyEvent e = true ∧ ∀ p ∈ killTarget k e, (k.procs p).status ≠ .zombie ∧ (k.procs p).children = []

instance (k : Kernel) (e : Event) : Decidable (ChildlessStep k e) :=
  inferInstanceAs (Decidable (_ ∧ _))

theorem ChildlessStep.keepsWaits (h : ChildlessStep k e) : KeepsWaitsStep k e := by
  refine ⟨h.1, fun p hp => ?_⟩
  obtain ⟨hs, hc⟩ := h.2 p hp
  refine ⟨fun i _ _ => .inr fun x hx => ?_, fun hz => absurd hz hs⟩
  rw [hc] at hx
  cases hx

/-- `idle` and `init`; `init` has a child and waits for it; the child has one in its turn. -/
def grandchildEvents : List Event :=
  [.sysSpawn { entry := some 1, fds := none, background := false },
   .sysSpawn { entry := some 2, fds := none, background := false }, .timer, .sysYield,
   .sysSpawn { entry := some 3, fds := none, background := true }, .sysWait, .resume, .sysYield,
   .sysSpawn { entry := some 4, fds := none, background := true }, .sysYield, .resume, .sysYield]

/-- The great-grandchild of `init` dies uncollected; then its parent is killed. -/
def orphanedZombieEvents : List Event :=
  grandchildEvents ++
  [.sysSpawn { entry := some 5, fds := none, background := true }, .sysYield, .resume, .sysYield,
   .resume, .sysYield, .sysExit 0, .resume, .sysYield, .resume, .sysKillProc 3]

end TpeSo
