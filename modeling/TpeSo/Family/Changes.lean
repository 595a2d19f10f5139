import TpeSo.Family.Tree

namespace TpeSo

open Ds Lib

/-!
# Family — what births, deaths and collections change

One description for each operation on families, from which every invariant of families is
derived.

* `Family.Names s x z` — the process id `x` names `z`;
* `SameTree` — handing over the terminal leaves the tree alone;
* `Reparented`, `reparentAll_induction` — giving one child to `init`, and the rule for the loop;
* `Family.Died`, `Family.Collected`, `Family.Grown` — a death, a collection and a birth.
-/

variable {s s' : Family} {p q c z : ProcId} {x : Int}

namespace Family

/-- The process id `x` names `z`. -/
def Names (s : Family) (x : Int) (z : ProcId) : Prop := s.find x = .ok (some z)

theorem names_iff : s.Names x z ↔ (0 ≤ x ∧ x < maxProcesses) ∧ s.table x.toNat = some z := by
  unfold Names find
  split
  · rename_i hx
    simp [hx]
  · rename_i hx
    simp [hx]

theorem Names.unique (h : s.Names x p) (g : s.Names x q) : p = q := by
  unfold Names at h g
  rw [h] at g
  simpa using g

/-! ### One process changed -/

@[simp] theorem set_kin_self (s : Family) (p : ProcId) (f : Kin → Kin) :
    (s.set p f).kin p = f (s.kin p) := by
  simp [set]

@[simp] theorem set_kin_ne (s : Family) {f : Kin → Kin} (h : q ≠ p) :
    (s.set p f).kin q = s.kin q := by
  simp [set, h]

@[simp] theorem set_table (s : Family) (p : ProcId) (f : Kin → Kin) :
    (s.set p f).table = s.table := rfl

@[simp] theorem set_next (s : Family) (p : ProcId) (f : Kin → Kin) : (s.set p f).next = s.next := rfl

/-- A projection that `f` spares is spared by the edit `f` of one process. -/
theorem set_spares {β : Type} (s : Family) (g : Kin → β) {f : Kin → Kin}
    (h : g (f (s.kin p)) = g (s.kin p)) (q : ProcId) : g ((s.set p f).kin q) = g (s.kin q) := by
  by_cases hq : q = p
  · subst hq
    rw [set_kin_self, h]
  · rw [set_kin_ne s hq]

/-- Agreement on everything but the terminal. -/
structure SameTree (s s' : Family) : Prop where
  pid : ∀ p, (s'.kin p).pid = (s.kin p).pid
  parent : ∀ p, (s'.kin p).parent = (s.kin p).parent
  children : ∀ p, (s'.kin p).children = (s.kin p).children
  table : s'.table = s.table
  next : s'.next = s.next

theorem SameTree.names (h : SameTree s s') : s'.Names x z ↔ s.Names x z := by
  rw [names_iff, names_iff, h.table]

/-- Handing over the terminal changes modes only. -/
theorem sameTree_setForeground (s : Family) (proc caller : Option ProcId) :
    SameTree s (s.setForeground proc caller) := by
  have hset : ∀ (s : Family) (p : ProcId) (m : Mode), SameTree s (s.set p fun q => { q with mode := m }) :=
    fun s p m => ⟨s.set_spares Kin.pid rfl, s.set_spares Kin.parent rfl,
      s.set_spares Kin.children rfl, rfl, rfl⟩
  unfold setForeground
  split
  · exact ⟨fun _ => rfl, fun _ => rfl, fun _ => rfl, rfl, rfl⟩
  · rename_i p
    split
    · exact { hset s p .fg with }
    · split
      · exact ⟨fun _ => rfl, fun _ => rfl, fun _ => rfl, rfl, rfl⟩
      · rename_i c
        split
        · have h₁ := hset s c .bg
          have h₂ := hset (s.set c fun q => { q with mode := .bg }) p .fg
          exact ⟨fun q => (h₂.pid q).trans (h₁.pid q), fun q => (h₂.parent q).trans (h₁.parent q),
            fun q => (h₂.children q).trans (h₁.children q), rfl, rfl⟩
        · exact ⟨fun _ => rfl, fun _ => rfl, fun _ => rfl, rfl, rfl⟩

/-- What `reparent_to_init` does to `child`, `i` being `init`: with room in the array of `i`,
    `child` is appended to it; without, it is left without a parent. -/
structure Reparented (s : Family) (child i : ProcId) (s' : Family) : Prop where
  pid : ∀ q, (s'.kin q).pid = (s.kin q).pid
  mode : ∀ q, (s'.kin q).mode = (s.kin q).mode
  table : s'.table = s.table
  foreground : s'.foreground = s.foreground
  next : s'.next = s.next
  parent : ∀ q, q ≠ child → (s'.kin q).parent = (s.kin q).parent
  children : ∀ q, q ≠ i → (s'.kin q).children = (s.kin q).children
  room : ((s.kin i).children.length < maxProcesses ∧ (s'.kin child).parent = some i ∧
      (s'.kin i).children = (s.kin i).children ++ [(s.kin child).pid]) ∨
    (¬ (s.kin i).children.length < maxProcesses ∧ (s'.kin child).parent = none ∧
      (s'.kin i).children = (s.kin i).children)

theorem Reparented.names {child : ProcId} (r : s.Reparented child i s') :
    s'.Names x z ↔ s.Names x z := by
  rw [names_iff, names_iff, r.table]

theorem reparentToInit_eq_ok {child : ProcId} (h : s.reparentToInit child = .ok s') :
    ∃ i, s.table 1 = some i ∧ s.Reparented child i s' := by
  unfold reparentToInit at h
  split at h
  · cases h
  · rename_i i hi
    refine ⟨i, hi, ?_⟩
    have hpid := s.set_spares (p := child) Kin.pid (f := fun q => { q with parent := some i }) rfl
    have hmode := s.set_spares (p := child) Kin.mode (f := fun q => { q with parent := some i }) rfl
    have hlist := s.set_spares (p := child) Kin.children
      (f := fun q => { q with parent := some i }) rfl
    have hself : ((s.set child fun q => { q with parent := some i }).kin child).parent = some i := by
      simp
    have hother : ∀ q, q ≠ child →
        ((s.set child fun q => { q with parent := some i }).kin q).parent = (s.kin q).parent := by
      intro q hq
      rw [set_kin_ne s hq]
    have hfg : (s.set child fun q => { q with parent := some i }).foreground = s.foreground := rfl
    dsimp only at h
    rw [hlist i, hpid child] at h
    generalize ht : (s.set child fun q => { q with parent := some i }) = t at *
    have htable : t.table = s.table := by rw [← ht]; rfl
    have hnext : t.next = s.next := by rw [← ht]; rfl
    split at h
    · rename_i hroom
      cases h
      have hspare := fun q => t.set_spares (p := i) Kin.parent
        (f := fun q => { q with children := q.children ++ [(s.kin child).pid] }) rfl q
      refine ⟨fun q => (t.set_spares Kin.pid rfl q).trans (hpid q),
        fun q => (t.set_spares Kin.mode rfl q).trans (hmode q), htable, hfg, hnext,
        fun q hq => (hspare q).trans (hother q hq), fun q hq => ?_, .inl ⟨hroom, ?_, ?_⟩⟩
      · rw [set_kin_ne t hq, hlist]
      · exact (hspare child).trans hself
      · rw [set_kin_self, hlist]
    · rename_i hroom
      cases h
      refine ⟨fun q => (t.set_spares Kin.pid rfl q).trans (hpid q),
        fun q => (t.set_spares Kin.mode rfl q).trans (hmode q), htable, hfg, hnext,
        fun q hq => ?_, fun q _ => (t.set_spares Kin.children rfl q).trans (hlist q),
        .inr ⟨hroom, ?_, (t.set_spares Kin.children rfl i).trans (hlist i)⟩⟩
      · rw [set_kin_ne t hq, hother q hq]
      · rw [set_kin_self]

/-- **Rule for the loop over the children.**  `I` is told which ids are still to come. -/
theorem reparentAll_induction (I : List Int → Family → Prop)
    (hskip : ∀ x rest s, I (x :: rest) s → s.find x = .ok none → I rest s)
    (hstep : ∀ x rest s child i s', I (x :: rest) s → s.Names x child → s.table 1 = some i →
      s.Reparented child i s' → I rest s') {pids : List Int} :
    ∀ {s : Family}, s.reparentAll pids = .ok s' → I pids s → I [] s' := by
  induction pids with
  | nil =>
    intro s h h0
    cases h
    exact h0
  | cons x rest ih =>
    intro s h h0
    obtain ⟨o, ho, h⟩ := Outcome.bind_eq_ok.mp h
    cases o with
    | none => exact ih h (hskip x rest s h0 ho)
    | some child =>
      obtain ⟨s₁, hr, h⟩ := Outcome.bind_eq_ok.mp h
      obtain ⟨i, hi, hrep⟩ := reparentToInit_eq_ok hr
      exact ih h (hstep x rest s child i s₁ h0 ho hi hrep)

end Family

open Family

/-! ### Death -/

/-- The parts of a death. -/
theorem Family.kill_eq_ok (h : s.kill p = .ok s') : ∃ s₁,
    (s.setForeground (s.kin p).parent (some p)).reparentAll (s.kin p).children = .ok s₁ ∧
      (((s₁.kin p).parent ≠ none ∧ s' = s₁) ∨ ((s₁.kin p).parent = none ∧ s₁.reap p = .ok s')) := by
  obtain ⟨s₁, hr, h⟩ := Outcome.bind_eq_ok.mp h
  have ht := s.sameTree_setForeground (s.kin p).parent (some p)
  rw [ht.children p] at hr
  refine ⟨s₁, hr, ?_⟩
  cases hp : (s₁.kin p).parent with
  | none =>
    rw [hp] at h
    exact .inr ⟨rfl, h⟩
  | some q =>
    rw [hp] at h
    cases h
    exact .inl ⟨by simp, rfl⟩

theorem Family.reap_eq_ok (h : s.reap p = .ok s') : (0 ≤ (s.kin p).pid ∧ (s.kin p).pid < maxProcesses) ∧
    s' = { s with table := Function.update s.table (s.kin p).pid.toNat none } := by
  unfold Family.reap at h
  split at h
  · rename_i hpid
    cases h
    exact ⟨hpid, rfl⟩
  · cases h

/-- After a collection, the id of the collected process names nobody; the others stay. -/
theorem Family.names_reap (h : s.reap p = .ok s') :
    s'.Names x z ↔ s.Names x z ∧ x ≠ (s.kin p).pid := by
  obtain ⟨hpid, rfl⟩ := reap_eq_ok h
  rw [names_iff, names_iff]
  by_cases hx : x = (s.kin p).pid
  · subst hx
    simp
  · have hne : 0 ≤ x → x.toNat ≠ (s.kin p).pid.toNat := by omega
    have hsame : 0 ≤ x →
        Function.update s.table (s.kin p).pid.toNat none x.toNat = s.table x.toNat :=
      fun h0 => Function.update_of_ne (hne h0) _ _
    constructor
    · rintro ⟨hr, ht⟩
      exact ⟨⟨hr, (hsame hr.1).symm.trans ht⟩, hx⟩
    · rintro ⟨⟨hr, ht⟩, -⟩
      exact ⟨hr, (hsame hr.1).trans ht⟩

/-- What a death does to arrays and to the table: `init` gets the dead process's children, and
    no id comes to name anybody else. -/
structure Family.Died (s : Family) (p : ProcId) (s' : Family) : Prop where
  parent : (s'.kin p).parent = (s.kin p).parent
  pid : ∀ q, (s'.kin q).pid = (s.kin q).pid
  next : s'.next = s.next
  names : ∀ x z, s'.Names x z → s.Names x z
  children : ∀ q x, x ∈ (s'.kin q).children → x ∈ (s.kin q).children ∨
    (s.table 1 = some q ∧ x ∈ (s.kin p).children ∧ ∃ z, s.Names x z)

theorem Family.Died.refl (s : Family) (p : ProcId) : s.Died p s :=
  ⟨rfl, fun _ => rfl, rfl, fun _ _ h => h, fun _ _ h => .inl h⟩

/-! ### Collection -/

/-- What a collection leaves: all but the id `x` of the child, which no longer names it, and
    one place in the array of `c`. -/
structure Family.Collected (s : Family) (c : ProcId) (n : Nat) (x : Int) (s' : Family) : Prop where
  pid : ∀ q, (s'.kin q).pid = (s.kin q).pid
  parent : ∀ q, (s'.kin q).parent = (s.kin q).parent
  mode : ∀ q, (s'.kin q).mode = (s.kin q).mode
  foreground : s'.foreground = s.foreground
  next : s'.next = s.next
  names : ∀ y z, s'.Names y z ↔ s.Names y z ∧ y ≠ x
  self : (s'.kin c).children = (s.kin c).children.eraseIdx n
  children : ∀ q, q ≠ c → (s'.kin q).children = (s.kin q).children

theorem Family.collected {n : Nat} {child : ProcId} (h : s.collect c n child = .ok s') :
    s.Collected c n (s.kin child).pid s' := by
  obtain ⟨s₁, hreap, he⟩ := Outcome.bind_eq_ok.mp h
  cases he
  have hnames := fun y z => Family.names_reap (x := y) (z := z) hreap
  have hkin : s₁.kin = s.kin := by rw [(Family.reap_eq_ok hreap).2]
  refine ⟨fun q => (s₁.set_spares Kin.pid rfl q).trans (by rw [hkin]),
    fun q => (s₁.set_spares Kin.parent rfl q).trans (by rw [hkin]),
    fun q => (s₁.set_spares Kin.mode rfl q).trans (by rw [hkin]), ?_, ?_, hnames, ?_, fun q hq => ?_⟩
  · show s₁.foreground = _
    rw [(Family.reap_eq_ok hreap).2]
  · show s₁.next = _
    rw [(Family.reap_eq_ok hreap).2]
  · rw [set_kin_self, hkin]
  · rw [set_kin_ne s₁ hq, hkin]

/-- An array loses members at most. -/
theorem Family.Collected.sublist {n : Nat} (h : s.Collected c n x s') (q : ProcId) :
    (s'.kin q).children.Sublist (s.kin q).children := by
  by_cases hq : q = c
  · subst hq
    rw [h.self]
    exact List.eraseIdx_sublist _ n
  · rw [h.children q hq]

/-! ### Birth -/

/-- What a birth adds: one process, under the id `slot`, at the end of its parent's array. -/
structure Family.Grown (s : Family) (slot : Option Nat) (stack : Bool) (parent : Option ProcId)
    (s' : Family) : Prop where
  next : s'.next = s.next + 1
  oldPid : ∀ q, q ≠ s.next → (s'.kin q).pid = (s.kin q).pid
  oldParent : ∀ q, q ≠ s.next → (s'.kin q).parent = (s.kin q).parent
  table : s'.table = match slot with
    | none => s.table
    | some i => Function.update s.table i (some s.next)
  newPid : (s'.kin s.next).pid = match slot with
    | none => -1
    | some i => (i : Int)
  newParent : (s'.kin s.next).parent = if slot.isSome ∧ stack then parent else none
  newChildren : (s'.kin s.next).children = []
  children : ∀ q, q ≠ s.next → (s'.kin q).children =
    if stack ∧ parent = some q ∧ (s.kin q).children.length < maxProcesses then
      (s.kin q).children ++ slot.toList.map Int.ofNat
    else (s.kin q).children

theorem Family.grown_birth (s : Family) (slot : Option Nat) (stack : Bool) (parent : Option ProcId)
    (background : Bool) (hparent : parent ≠ some s.next) :
    s.Grown slot stack parent (s.birth slot stack parent background) := by
  unfold birth enrol
  cases slot with
  | none =>
    refine ⟨rfl, fun q hq => ?_, fun q hq => ?_, rfl, by simp, by simp, by simp, fun q hq => ?_⟩
    all_goals simp [set, hq]
  | some i =>
    dsimp only
    generalize hs₁ : ({ Family.set { s with
      next := s.next + 1, kin := Function.update s.kin s.next {} } s.next
        (fun q => { q with pid := i }) with
      table := Function.update s.table i (some s.next) } : Family) = s₁
    have hold : ∀ q, q ≠ s.next → s₁.kin q = s.kin q := by
      intro q hq
      rw [← hs₁]
      simp [set, hq]
    have hnew : s₁.kin s.next = { pid := i } := by
      rw [← hs₁]
      simp [set]
    have hnext : s₁.next = s.next + 1 := by rw [← hs₁]; rfl
    have htable : s₁.table = Function.update s.table i (some s.next) := by rw [← hs₁]
    cases stack with
    | false =>
      simp only [Bool.false_eq_true, if_false]
      refine ⟨hnext, fun q hq => by rw [hold q hq], fun q hq => by rw [hold q hq], htable,
        by rw [hnew], by simp [hnew], by rw [hnew], fun q hq => by simp [hold q hq]⟩
    | true =>
      simp only [if_true]
      -- the terminal changes hands, or does not
      have ht : s₁.SameTree (if background then s₁ else s₁.setForeground (some s.next) parent) := by
        split
        · exact ⟨fun _ => rfl, fun _ => rfl, fun _ => rfl, rfl, rfl⟩
        · exact s₁.sameTree_setForeground (some s.next) parent
      unfold adopt
      dsimp only
      generalize (if background then s₁ else s₁.setForeground (some s.next) parent) = s₂ at ht ⊢
      generalize hs₃ : (s₂.set s.next fun q => { q with parent := parent }) = s₃
      have hpid : ∀ q, (s₃.kin q).pid = (s₁.kin q).pid := by
        intro q
        rw [← hs₃, s₂.set_spares Kin.pid rfl, ht.pid]
      have hchildren : ∀ q, (s₃.kin q).children = (s₁.kin q).children := by
        intro q
        rw [← hs₃, s₂.set_spares Kin.children rfl, ht.children]
      have hparents : ∀ q, q ≠ s.next → (s₃.kin q).parent = (s.kin q).parent := by
        intro q hq
        rw [← hs₃, set_kin_ne s₂ hq, ht.parent, hold q hq]
      have hself : (s₃.kin s.next).parent = parent := by
        rw [← hs₃, set_kin_self]
      have hnext₃ : s₃.next = s.next + 1 := by rw [← hs₃, set_next, ht.next, hnext]
      have htable₃ : s₃.table = Function.update s.table i (some s.next) := by
        rw [← hs₃, set_table, ht.table, htable]
      have hplain : (∀ q, q ≠ s.next → ¬ (parent = some q ∧ (s.kin q).children.length < maxProcesses)) →
          s.Grown (some i) true parent s₃ := by
        intro hroom
        refine ⟨hnext₃, fun q hq => by rw [hpid, hold q hq], hparents, htable₃, by rw [hpid, hnew],
          by simpa using hself, by rw [hchildren, hnew], fun q hq => ?_⟩
        rw [if_neg fun h => hroom q hq h.2, hchildren, hold q hq]
      cases parent with
      | none =>
        refine hplain fun q _ h => ?_
        cases h.1
      | some c =>
        have hc : c ≠ s.next := fun hc => hparent (by rw [hc])
        dsimp only
        rw [hchildren, hold c hc, hpid, hnew]
        by_cases hroom : (s.kin c).children.length < maxProcesses
        · rw [if_pos hroom]
          refine ⟨hnext₃, fun q hq => ?_, fun q hq => ?_, htable₃, ?_, ?_, ?_, fun q hq => ?_⟩
          · rw [s₃.set_spares Kin.pid rfl, hpid, hold q hq]
          · rw [s₃.set_spares Kin.parent rfl, hparents q hq]
          · rw [s₃.set_spares Kin.pid rfl, hpid, hnew]
          · rw [s₃.set_spares Kin.parent rfl]
            simpa using hself
          · rw [set_kin_ne s₃ (Ne.symm hc), hchildren, hnew]
          · by_cases hqc : q = c
            · subst hqc
              rw [set_kin_self, hchildren, hold q hq, if_pos ⟨rfl, rfl, hroom⟩]
              rfl
            · rw [set_kin_ne s₃ hqc, hchildren, hold q hq, if_neg]
              exact fun h => hqc (Option.some.inj h.2.1).symm
        · rw [if_neg hroom]
          refine hplain fun q _ h => ?_
          cases h.1
          exact hroom h.2

/-- The place of a new process is its id. -/
theorem Family.Grown.slot_eq {slot : Option Nat} {stack : Bool} {parent : Option ProcId} {i : Nat}
    (g : s.Grown slot stack parent s') (hpid : (s'.kin s.next).pid = i) : slot = some i := by
  have hnew := g.newPid
  cases slot with
  | none =>
    dsimp only at hnew
    omega
  | some j =>
    dsimp only at hnew
    exact congrArg some (by omega)

/-- After a birth, the new id names the new process; the others stay. -/
theorem Family.Grown.names {slot : Option Nat} {stack : Bool} {parent : Option ProcId}
    (g : s.Grown slot stack parent s')
    (hslot : ∀ i, slot = some i → i < maxProcesses ∧ s.table i = none) :
    s'.Names x z ↔ s.Names x z ∨ ∃ i : Nat, slot = some i ∧ x = i ∧ z = s.next := by
  rw [names_iff, names_iff, g.table]
  cases slot with
  | none => simp
  | some i =>
    obtain ⟨hi, hfree⟩ := hslot i rfl
    by_cases hx : x.toNat = i
    · dsimp only
      rw [hx, Function.update_self, hfree]
      constructor
      · rintro ⟨hr, hz⟩
        exact .inr ⟨i, rfl, by omega, (Option.some.inj hz).symm⟩
      · rintro (⟨-, hz⟩ | ⟨j, hj, rfl, rfl⟩)
        · cases hz
        · cases hj
          exact ⟨by omega, rfl⟩
    · dsimp only
      rw [Function.update_of_ne hx]
      constructor
      · exact .inl
      · rintro (h | ⟨j, hj, rfl, rfl⟩)
        · exact h
        · cases hj
          exact absurd (Int.toNat_natCast i) hx

/-- A living process's array grows by the new process at most. -/
theorem Family.Grown.mem_children {slot : Option Nat} {stack : Bool} {parent : Option ProcId}
    (g : s.Grown slot stack parent s') (hx : x ∈ (s'.kin q).children) :
    (q ≠ s.next ∧ x ∈ (s.kin q).children) ∨
      (q ≠ s.next ∧ stack = true ∧ parent = some q ∧ ∃ i : Nat, slot = some i ∧ x = i) := by
  by_cases hq : q = s.next
  · rw [hq, g.newChildren] at hx
    cases hx
  · rw [g.children q hq] at hx
    split at hx
    · rename_i hroom
      rw [List.mem_append] at hx
      rcases hx with hx | hx
      · exact .inl ⟨hq, hx⟩
      · cases slot with
        | none => cases hx
        | some i =>
          simp only [Option.toList_some, List.map_cons, List.map_nil, List.mem_singleton] at hx
          exact .inr ⟨hq, hroom.1, hroom.2.1, i, rfl, hx⟩
    · exact .inl ⟨hq, hx⟩

end TpeSo
