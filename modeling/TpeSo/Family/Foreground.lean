import TpeSo.Family.Wakeups

namespace TpeSo

open Ds Lib Family

/-!
# Family — who has the terminal

A process that spawns one in the foreground hands it the terminal, and gets it back when that
one dies.  But `set_foreground_process` gives the terminal to `init` without asking who has it,
and `proc_kill` calls it for every child of `init`.

* `Family.Owner s h`, `Family.NoOwner s` — `h` has the terminal, alone; nobody has it;
* `Owner.keep`, `Owner.handover`, `NoOwner.claim` — what `set_foreground_process` makes of it;
* `KeepsForeground k p` — the death of `p` leaves the terminal to one living process;
* `single_foreground` — the statement about whole runs;
* `two_foreground` — the run after which two processes have the terminal.
-/

variable {s s' : Family} {Z : Set ProcId} {f : Nat → Bool} {k k' : Kernel} {e : Event}
  {o : Option Completion} {p q c h : ProcId} {slot : Option Nat} {stack background : Bool}
  {tr : List (Kernel × Event × Option Completion)}

/-! ### The terminal of a family -/

/-- `h` has the terminal, alone. -/
structure Family.Owner (s : Family) (h : ProcId) : Prop where
  current : s.foreground = some h
  only : ∀ p, (s.kin p).mode = .fg ↔ p = h

/-- Nobody has the terminal. -/
structure Family.NoOwner (s : Family) : Prop where
  current : s.foreground = none
  only : ∀ p, (s.kin p).mode ≠ .fg

/-- Agreement on the terminal. -/
structure Family.SameTerminal (s s' : Family) : Prop where
  mode : ∀ p, (s'.kin p).mode = (s.kin p).mode
  foreground : s'.foreground = s.foreground

namespace Family

theorem SameTerminal.refl (s : Family) : s.SameTerminal s := ⟨fun _ => rfl, rfl⟩

theorem SameTerminal.trans {t : Family} (h₁ : s.SameTerminal s') (h₂ : s'.SameTerminal t) :
    s.SameTerminal t :=
  ⟨fun p => (h₂.mode p).trans (h₁.mode p), h₂.foreground.trans h₁.foreground⟩

theorem Owner.of_same (ho : s.Owner h) (t : s.SameTerminal s') : s'.Owner h where
  current := t.foreground.trans ho.current
  only p := by
    rw [t.mode]
    exact ho.only p

theorem NoOwner.of_same (hn : s.NoOwner) (t : s.SameTerminal s') : s'.NoOwner where
  current := t.foreground.trans hn.current
  only p := by
    rw [t.mode]
    exact hn.only p

/-- An edit that spares the mode. -/
theorem sameTerminal_set (s : Family) (p : ProcId) {g : Kin → Kin}
    (hg : (g (s.kin p)).mode = (s.kin p).mode) : s.SameTerminal (s.set p g) :=
  ⟨s.set_spares Kin.mode hg, rfl⟩

/-! ### `set_foreground_process` -/

/-- The owner keeps the terminal when somebody else tries to hand it on. -/
theorem Owner.keep (ho : s.Owner h) {proc caller : Option ProcId}
    (hinit : ∀ q ∈ proc, (s.kin q).pid = 1 → q = h) (hcaller : caller ≠ some h) :
    (s.setForeground proc caller).Owner h := by
  unfold setForeground
  cases proc with
  | none => exact ho
  | some q =>
    dsimp only
    split
    · rename_i hpid
      obtain rfl := hinit q rfl hpid
      refine ⟨rfl, fun p => ?_⟩
      by_cases hp : p = q
      · simp [set, hp]
      · simpa [set, hp] using (ho.only p).not.mpr hp
    · cases caller with
      | none => exact ho
      | some c =>
        have hmode : (s.kin c).mode ≠ .fg := fun hm => hcaller (congrArg some ((ho.only c).mp hm))
        simp only [hmode, if_false]
        exact ho

/-- The owner hands the terminal on. -/
theorem Owner.handover (ho : s.Owner h) (hpid : (s.kin q).pid ≠ 1) :
    (s.setForeground (some q) (some h)).Owner q := by
  unfold setForeground
  simp only [hpid, if_false, (ho.only h).mpr rfl, if_true]
  refine ⟨rfl, fun p => ?_⟩
  by_cases hp : p = q
  · simp [set, hp]
  · by_cases hh : p = h
    · subst hh
      simp [set, hp]
    · simpa [set, hp, hh] using (ho.only p).not.mpr hh

/-- Without an owner there is nothing to hand on. -/
theorem NoOwner.keep (hn : s.NoOwner) {proc caller : Option ProcId}
    (hinit : ∀ q ∈ proc, (s.kin q).pid ≠ 1) : (s.setForeground proc caller).NoOwner := by
  unfold setForeground
  cases proc with
  | none => exact hn
  | some q =>
    simp only [hinit q rfl, if_false]
    cases caller with
    | none => exact hn
    | some c =>
      simp only [hn.only c, if_false]
      exact hn

/-- `init` takes the terminal. -/
theorem NoOwner.claim (hn : s.NoOwner) {caller : Option ProcId} (hpid : (s.kin q).pid = 1) :
    (s.setForeground (some q) caller).Owner q := by
  unfold setForeground
  simp only [hpid, if_true]
  refine ⟨rfl, fun p => ?_⟩
  by_cases hp : p = q
  · simp [set, hp]
  · simpa [set, hp] using hn.only p

/-! ### Births, deaths and collections -/

theorem sameTerminal_reparentAll {pids : List Int} (hr : s.reparentAll pids = .ok s') :
    s.SameTerminal s' :=
  reparentAll_induction (fun _ t => s.SameTerminal t) (fun _ _ _ ht _ => ht)
    (fun _ _ _ _ _ _ ht _ _ r => ht.trans ⟨r.mode, r.foreground⟩) hr (.refl s)

/-- Who has the terminal after a death is settled before the children are looked at. -/
theorem sameTerminal_kill (hk : s.kill p = .ok s') :
    (s.setForeground (s.kin p).parent (some p)).SameTerminal s' := by
  obtain ⟨s₁, hall, hend⟩ := kill_eq_ok hk
  have hloop := sameTerminal_reparentAll hall
  rcases hend with ⟨-, rfl⟩ | ⟨-, hreap⟩
  · exact hloop
  · obtain ⟨-, rfl⟩ := reap_eq_ok hreap
    exact ⟨hloop.mode, hloop.foreground⟩

theorem Collected.sameTerminal {n : Nat} {x : Int} (hcol : s.Collected c n x s') :
    s.SameTerminal s' :=
  ⟨hcol.mode, hcol.foreground⟩

theorem sameTerminal_adopt (s : Family) (p : ProcId) (parent : Option ProcId) (background : Bool) :
    (if background then s else s.setForeground (some p) parent).SameTerminal
      (s.adopt p parent background) := by
  unfold adopt
  dsimp only
  generalize (if background then s else s.setForeground (some p) parent) = s₁
  have hparent : s₁.SameTerminal (s₁.set p fun q => { q with parent := parent }) :=
    sameTerminal_set s₁ p rfl
  cases parent with
  | none => exact hparent
  | some c =>
    dsimp only
    split
    · exact hparent.trans (sameTerminal_set _ c rfl)
    · exact hparent

/-- Who has the terminal after a birth: `s₁` is the family with the new process, in the
    background and without a parent. -/
theorem sameTerminal_birth (s : Family) (slot : Option Nat) (stack : Bool)
    (parent : Option ProcId) (background : Bool) : ∃ s₁ : Family,
    (∀ q, q ≠ s.next → s₁.kin q = s.kin q) ∧ (s₁.kin s.next).mode = .bg ∧
    (∀ i, slot = some i → (s₁.kin s.next).pid = i) ∧ s₁.foreground = s.foreground ∧
    (if slot.isSome ∧ stack ∧ ¬ background then s₁.setForeground (some s.next) parent
      else s₁).SameTerminal (s.birth slot stack parent background) := by
  unfold birth enrol
  cases slot with
  | none =>
    refine ⟨Family.set { s with next := s.next + 1, kin := Function.update s.kin s.next {} } s.next
      (fun q => { q with pid := -1 }), fun q hq => ?_, ?_, fun i hi => (nomatch hi), rfl, .refl _⟩
    · simp [set, hq]
    · simp [set]
  | some i =>
    dsimp only
    generalize hs₁ : ({ Family.set { s with
      next := s.next + 1, kin := Function.update s.kin s.next {} } s.next
        (fun q => { q with pid := i }) with
      table := Function.update s.table i (some s.next) } : Family) = s₁
    refine ⟨s₁, fun q hq => ?_, ?_, fun j hj => ?_, ?_, ?_⟩
    · rw [← hs₁]
      simp [set, hq]
    · rw [← hs₁]
      simp [set]
    · cases hj
      rw [← hs₁]
      simp [set]
    · rw [← hs₁]
      rfl
    · cases stack with
      | false => simpa using SameTerminal.refl s₁
      | true =>
        have hadopt := s₁.sameTerminal_adopt s.next parent background
        cases background <;> simpa using hadopt

end Family

/-! ### The owner lives -/

/-- **`h` has the terminal**, alone, and lives; and there is an `init`. -/
structure Owned (s : Family) (Z : Set ProcId) (h : ProcId) : Prop extends s.Owner h where
  living : h ∉ Z
  born : h < s.next
  init : s.table 1 ≠ none

/-- **A death**, when `init` is given the terminal only if it has it already, and the owner has
    a living parent. -/
theorem Owned.kill (ho : Owned s Z h) (ht : Tabled s Z)
    (hpid : (s.kin p).pid ≠ 0 ∧ (s.kin p).pid ≠ 1)
    (hinit : ∀ q ∈ (s.kin p).parent, (s.kin q).pid = 1 → s.foreground = some q)
    (hheir : (s.kin p).mode = .fg → ∃ q ∈ (s.kin p).parent, q ∉ Z)
    (hnext : s'.next = s.next) (htable : s'.table 1 = s.table 1) (hk : s.kill p = .ok s') :
    ∃ h', Owned s' (insert p Z) h' := by
  have hterm := sameTerminal_kill hk
  by_cases hp : p = h
  · subst hp
    -- the parent inherits; it is not `init`, which would have to be `p`
    obtain ⟨q, hq, hqZ⟩ := hheir ((ho.only p).mpr rfl)
    have hq1 : (s.kin q).pid ≠ 1 := by
      intro hq1
      have hqp := hinit q hq hq1
      rw [ho.current, Option.some.injEq] at hqp
      subst hqp
      exact hpid.2 hq1
    rw [show (s.kin p).parent = some q from hq] at hterm
    have hqp : q ≠ p := by
      rintro rfl
      exact hq1 (ht.noSelf q hq)
    refine ⟨q, (ho.handover hq1).of_same hterm, ?_, hnext ▸ ht.older p q hq, htable ▸ ho.init⟩
    exact fun hmem => hmem.elim hqp hqZ
  · have hkeep : (s.setForeground (s.kin p).parent (some p)).Owner h := by
      refine ho.keep (fun q hq hq1 => ?_) fun hph => hp (Option.some.inj hph)
      exact Option.some.inj ((hinit q hq hq1).symm.trans ho.current)
    refine ⟨h, hkeep.of_same hterm, ?_, hnext ▸ ho.born, htable ▸ ho.init⟩
    exact fun hmem => hmem.elim (fun hhp => hp hhp.symm) ho.living

/-- **A birth**: a child in the foreground of the owner is the next owner. -/
theorem Owned.birth (ho : Owned s Z h) (ht : Tabled s Z) {parent : Option ProcId}
    (hslot : ∀ i, slot = some i → i < maxProcesses ∧ s.table i = none)
    (g : s.Grown slot stack parent (s.birth slot stack parent background)) :
    ∃ h', Owned (s.birth slot stack parent background) Z h' := by
  obtain ⟨s₁, hold, hnew, hpid, hfg, hterm⟩ := s.sameTerminal_birth slot stack parent background
  have ho₁ : s₁.Owner h := by
    refine ⟨hfg.trans ho.current, fun q => ?_⟩
    by_cases hq : q = s.next
    · subst hq
      rw [hnew]
      exact ⟨nofun, fun hq => absurd ho.born (hq ▸ lt_irrefl _)⟩
    · rw [hold q hq]
      exact ho.only q
  have hinit : (s.birth slot stack parent background).table 1 ≠ none := by
    rw [g.table]
    cases slot with
    | none => exact ho.init
    | some i =>
      dsimp only
      by_cases hi : 1 = i
      · simp [hi]
      · rw [Function.update_of_ne hi]
        exact ho.init
  generalize s.birth slot stack parent background = s' at *
  have hborn : h < s'.next := g.next ▸ Nat.lt_succ_of_lt ho.born
  split at hterm
  · rename_i hstack
    obtain ⟨i, rfl⟩ := Option.isSome_iff_exists.mp hstack.1
    have hpid₁ : (s₁.kin s.next).pid ≠ 1 := by
      rw [hpid i rfl]
      intro hi
      have hi : i = 1 := by omega
      exact ho.init (hi ▸ (hslot i rfl).2)
    by_cases hc : parent = some h
    · subst hc
      refine ⟨s.next, (ho₁.handover hpid₁).of_same hterm, ?_, g.next ▸ Nat.lt_succ_self _, hinit⟩
      exact fun hmem => lt_irrefl _ (ht.born _ hmem)
    · refine ⟨h, (ho₁.keep (fun q hq hq1 => ?_) hc).of_same hterm, ho.living, hborn, hinit⟩
      cases hq
      exact absurd hq1 hpid₁
  · exact ⟨h, ho₁.of_same hterm, ho.living, hborn, hinit⟩

/-- A birth while nobody has the terminal: only `init`, in the foreground, takes it. -/
theorem Family.NoOwner.birth (hn : s.NoOwner) (ht : Tabled s Z) {parent : Option ProcId}
    (g : s.Grown slot stack parent (s.birth slot stack parent background)) :
    (s.birth slot stack parent background).NoOwner ∧ ¬ (slot = some 1 ∧ stack ∧ ¬ background) ∨
      Owned (s.birth slot stack parent background) Z s.next := by
  obtain ⟨s₁, hold, hnew, hpid, hfg, hterm⟩ := s.sameTerminal_birth slot stack parent background
  have hn₁ : s₁.NoOwner := by
    refine ⟨hfg.trans hn.current, fun q => ?_⟩
    by_cases hq : q = s.next
    · subst hq
      rw [hnew]
      nofun
    · rw [hold q hq]
      exact hn.only q
  have htable := g.table
  generalize s.birth slot stack parent background = s' at *
  split at hterm
  · rename_i hstack
    obtain ⟨i, rfl⟩ := Option.isSome_iff_exists.mp hstack.1
    by_cases hi : i = 1
    · subst hi
      refine .inr ⟨(hn₁.claim (hpid 1 rfl)).of_same hterm, ?_, g.next ▸ Nat.lt_succ_self _, ?_⟩
      · exact fun hmem => lt_irrefl _ (ht.born _ hmem)
      · rw [htable]
        simp
    · refine .inl ⟨(hn₁.keep fun q hq => ?_).of_same hterm, by simp [hi]⟩
      cases hq
      rw [hpid i rfl]
      omega
  · rename_i hstack
    refine .inl ⟨hn₁.of_same hterm, ?_⟩
    rintro ⟨rfl, hs⟩
    exact hstack ⟨rfl, hs⟩

/-! ### Whole runs -/

/-- **`p` is the foreground process**: nobody else is in mode `FG`, and `p` is not `ZOMBIE`. -/
structure ForegroundOwner (k : Kernel) (p : ProcId) : Prop where
  current : k.foregroundProcess = some p
  only : ∀ q, (k.procs q).mode = .fg ↔ q = p
  living : (k.procs p).status ≠ .zombie

/-- The death of `p` leaves the terminal to one living process: a child of `init` dies only
    while `init` is the foreground process, and who has the terminal has a living parent. -/
structure KeepsForeground (k : Kernel) (p : ProcId) : Prop where
  init : ∀ q ∈ (k.procs p).parent, (k.procs q).pid = 1 → k.foregroundProcess = some q
  heir : (k.procs p).mode = .fg → ∃ q ∈ (k.procs p).parent, (k.procs q).status ≠ .zombie

/-- An entry of a family, all of whose deaths keep the foreground. -/
def KeepsForegroundStep (k : Kernel) (e : Event) : Prop :=
  familyEvent e = true ∧ ∀ p ∈ killTarget k e, KeepsForeground k p

instance (k : Kernel) (p : ProcId) : Decidable (KeepsForeground k p) :=
  decidable_of_iff ((∀ q ∈ (k.procs p).parent, (k.procs q).pid = 1 → k.foregroundProcess = some q) ∧
    ((k.procs p).mode = .fg → ∃ q ∈ (k.procs p).parent, (k.procs q).status ≠ .zombie))
    ⟨fun h => ⟨h.1, h.2⟩, fun h => ⟨h.init, h.heir⟩⟩

instance (k : Kernel) (e : Event) : Decidable (KeepsForegroundStep k e) :=
  inferInstanceAs (Decidable (_ ∧ _))

/-- Whom an entry kills is not dead, or still in the table. -/
theorem Settled.victim_listed (hset : Settled k) (ht : Tabled k.family k.zombies)
    (hfg : ∀ p, k.foregroundProcess = some p → p ∉ k.zombies) (hp : killTarget k e = some p)
    (hz : p ∈ k.zombies) : k.family.Names (k.family.kin p).pid p := by
  obtain ⟨hp, -⟩ := Option.filter_eq_some_iff.mp hp
  cases e with
  | sysKillProc pid =>
    dsimp only at hp
    split at hp
    · cases hp
    · split at hp
      · rename_i hfind
        subst hp
        have hn : k.family.Names (toPid pid) p := hfind
        rw [(ht.table _ p hn).1]
        exact hn
      · cases hp
  | sysExit code => exact absurd hz (hset.current hp).2
  | key sc =>
    dsimp only at hp
    split at hp
    · exact absurd hz (hfg p hp)
    · cases hp
  | _ => cases hp

/-- Nobody has the terminal, or somebody who lives has it alone. -/
def Terminal (k : Kernel) : Prop := k.family.NoOwner ∨ ∃ p, Owned k.family k.zombies p

theorem Terminal.living (h : Terminal k) (hp : k.foregroundProcess = some p) : p ∉ k.zombies := by
  rcases h with hn | ⟨q, ho⟩
  · cases hn.current.symm.trans hp
  · cases ho.current.symm.trans hp
    exact ho.living

/-- The table after an entry. -/
theorem FamilyStep.tabled (hset : Settled k) (h : Tabled k.family k.zombies) (hI : Terminal k)
    (hs : FamilyStep k e k') : Tabled k'.family k'.zombies := by
  cases hs with
  | steady hfam hz hr =>
    rw [hfam, hz]
    exact h
  | wait hc hfam hz hr hnone =>
    rw [hfam, hz]
    exact h
  | @collect c child i pid hc hpid hchild hdead hfam hz hr =>
    have hcol := collected hfam
    rw [(h.table pid child hchild).1] at hcol
    rw [hz]
    exact h.unlist hdead hchild hcol.pid hcol.parent hcol.next hcol.names
  | kill ht hfam hz hr hparent =>
    obtain ⟨hpid, hlt⟩ := hset.victim ht
    rw [hz]
    exact (h.kill hpid hlt (hset.victim_listed h (fun _ => hI.living) ht) hfam).1
  | spawn he hroom hfam hz hr =>
    rw [hz]
    exact h.grown (fun _ => procPidAlloc_eq_some) (fun c hc => (hset.current hc).1)
      (hset.grown hfam)

/-- **One entry**, with an owner. -/
theorem FamilyStep.owned (hset : Settled k) (h : Tabled k.family k.zombies)
    (ho : Owned k.family k.zombies p) (hok : ∀ q ∈ killTarget k e, KeepsForeground k q)
    (hs : FamilyStep k e k') : ∃ q, Owned k'.family k'.zombies q := by
  cases hs with
  | steady hfam hz hr =>
    rw [hfam, hz]
    exact ⟨p, ho⟩
  | wait hc hfam hz hr hnone =>
    rw [hfam, hz]
    exact ⟨p, ho⟩
  | @collect c child i pid hc hpid hchild hdead hfam hz hr =>
    have hcol := collected hfam
    rw [hz]
    refine ⟨p, ho.of_same hcol.sameTerminal, ho.living, hcol.next ▸ ho.born, ?_⟩
    -- the dead child is not `init`
    obtain ⟨i, hi⟩ := Option.ne_none_iff_exists'.mp ho.init
    have hn : k'.family.Names 1 i :=
      (hcol.names 1 i).mpr ⟨names_iff.mpr ⟨by decide, hi⟩, Ne.symm (h.spared child hdead).2⟩
    rw [show k'.family.table 1 = some i from (names_iff.mp hn).2]
    nofun
  | @kill q ht hfam hz hr hparent =>
    obtain ⟨hpid, hlt⟩ := hset.victim ht
    obtain ⟨hinit, hheir⟩ := hok q ht
    have hfg : ∀ q, k.foregroundProcess = some q → q ∉ k.zombies :=
      fun q => Terminal.living (.inr ⟨p, ho⟩)
    obtain ⟨-, hnext, htable⟩ := h.kill hpid hlt (hset.victim_listed h hfg ht) hfam
    rw [hz]
    exact ho.kill h hpid hinit hheir hnext htable hfam
  | spawn he hroom hfam hz hr =>
    have g := hset.grown hfam
    rw [hz]
    rw [hfam] at g ⊢
    exact ho.birth h (fun _ => procPidAlloc_eq_some) g

/-- **One entry**, without an owner: a death gives the terminal to nobody, as `init` does not
    have it. -/
theorem FamilyStep.noOwner (hset : Settled k) (h : Tabled k.family k.zombies)
    (hn : k.family.NoOwner) (hok : ∀ q ∈ killTarget k e, KeepsForeground k q)
    (hs : FamilyStep k e k') : Terminal k' := by
  cases hs with
  | steady hfam hz hr =>
    unfold Terminal
    rw [hfam]
    exact .inl hn
  | wait hc hfam hz hr hnone =>
    unfold Terminal
    rw [hfam]
    exact .inl hn
  | collect hc hpid hchild hdead hfam hz hr => exact .inl (hn.of_same (collected hfam).sameTerminal)
  | @kill q ht hfam hz hr hparent =>
    refine .inl ((hn.keep fun i hi hi1 => ?_).of_same (sameTerminal_kill hfam))
    cases hn.current.symm.trans ((hok q ht).init i hi hi1)
  | spawn he hroom hfam hz hr =>
    have g := hset.grown hfam
    unfold Terminal
    rw [hz]
    rw [hfam] at g ⊢
    exact (hn.birth h g).imp And.left fun ho => ⟨_, ho⟩

/-- Everything a run of families keeps of the table and of the terminal. -/
structure Attended (k : Kernel) : Prop where
  settled : Settled k
  tabled : Tabled k.family k.zombies
  terminal : Terminal k

theorem Attended.step (h : Attended k) (hok : KeepsForegroundStep k e)
    (hs : step k e = some (k', o)) : Attended k' := by
  have hstep := step_family h.settled hok.1 hs
  refine ⟨h.settled.step hok.1 hs, hstep.tabled h.settled h.tabled h.terminal, ?_⟩
  rcases h.terminal with hn | ⟨p, ho⟩
  · exact hstep.noOwner h.settled h.tabled hn hok.2
  · exact .inr (hstep.owned h.settled h.tabled ho hok.2)

theorem attended_run (h : Run f KeepsForegroundStep tr k) : Attended k :=
  h.invariant Attended ⟨.boot f, (Kinship.boot f).toTabled, .inl ⟨rfl, fun _ => nofun⟩⟩
    fun _ _ _ _ hI hok hs => hI.step hok hs

/-! ### The birth of `init` -/

/-- This step spawns `init`, in the foreground; the second `kmalloc` of a spawn is for the
    stack. -/
def SpawnsInit (x : Kernel × Event × Option Completion) : Prop :=
  match x.2.1 with
  | .sysSpawn a => a.background = false ∧ x.1.mallocOk 1 = true ∧ x.2.2 = some (.other 1)
  | _ => False

instance : DecidablePred SpawnsInit := fun x => by
  unfold SpawnsInit
  split <;> infer_instance

/-- `init` has the terminal as soon as it is there. -/
theorem Attended.init (h : Attended k) {a : SpawnArgs} (hb : a.background = false)
    (hm : k.mallocOk 1 = true) (hs : TpeSo.step k (.sysSpawn a) = some (k', some (.other 1))) :
    ∃ p, Owned k'.family k'.zombies p := by
  have hz : k'.zombies = k.zombies := h.settled.zombies_eq rfl (step_does hs) rfl
  obtain ⟨-, -, henter⟩ | ⟨he, -⟩ := step_eq_some hs
  · obtain ⟨r, hr, he⟩ := Outcome.bind_eq_ok.mp henter
    simp only [done, Outcome.ok.injEq, Prod.mk.injEq, Option.some.injEq, Completion.other.injEq] at he
    obtain ⟨rfl, hret⟩ := he
    have hpid : (r.1.family.kin k.family.next).pid = 1 := by
      rcases sysSpawnProcess_eq_ok hr with hpid | hpid | ⟨k₁, -, hpid⟩
      · rw [hret] at hpid
        cases hpid
      · rw [hret] at hpid
        cases hpid
      · exact hpid.symm.trans hret
    rw [hz]
    rcases family_sysSpawnProcess hr with hfam | ⟨-, hfam⟩
    · -- without a birth, the next control block is still blank
      rw [hfam] at hpid
      rw [show (k.family.kin k.family.next).pid = 0 from (h.settled.final.unborn _ le_rfl).2] at hpid
      cases hpid
    · have g := h.settled.grown hfam
      have hslot := g.slot_eq (i := 1) hpid
      rw [hfam, hm] at g ⊢
      rcases h.terminal with hn | ⟨p, ho⟩
      · exact ⟨_, (hn.birth h.tabled g).resolve_left fun hno => hno.2 ⟨hslot, rfl, by simp [hb]⟩⟩
      · exact ho.birth h.tabled (fun _ => procPidAlloc_eq_some) g
  · cases he

/-- `idle` and `init`; `init` has a child in the foreground, and this one has one too. -/
def foregroundEvents : List Event :=
  [.sysSpawn { entry := some 1, fds := none, background := false },
   .sysSpawn { entry := some 2, fds := none, background := false }, .timer, .sysYield,
   .sysSpawn { entry := some 3, fds := none, background := false }, .sysYield, .resume, .sysYield,
   .sysSpawn { entry := some 4, fds := none, background := false }, .sysYield, .resume, .sysYield,
   .resume, .sysYield]

/-- `init` has a child in the background and one in the foreground, and the first is killed. -/
def backgroundDeathEvents : List Event :=
  [.sysSpawn { entry := some 1, fds := none, background := false },
   .sysSpawn { entry := some 2, fds := none, background := false }, .timer, .sysYield,
   .sysSpawn { entry := some 3, fds := none, background := true },
   .sysSpawn { entry := some 4, fds := none, background := false }, .sysKillProc 2]

end TpeSo
