import TpeSo.Family.Changes
import TpeSo.Family.Step
import Mathlib.Data.List.Nodup

namespace TpeSo

open Ds Lib Family

/-!
# Family — parents, children and the process table agree

The invariants of the three redundant structures, for a family and its dead `Z`.

* `Kinship s Z` — the table holds processes under their ids, and the array of a living process
  holds children of it, each once;
* `Orphans` — how far the loop over the children of a dead process has come;
* `Kinship.kill`, `Kinship.collect`, `Kinship.grown` — a death, a collection and a birth keep
  this.
-/

variable {s s' : Family} {Z : Set ProcId} {p q c i z : ProcId} {x : Int} {slot : Nat}

/-! ### The invariant -/

/-- **The table**, with `Z` the processes `proc_kill` has been through. -/
structure Tabled (s : Family) (Z : Set ProcId) : Prop where
  /-- The table holds processes under their ids. -/
  table : ∀ x z, s.Names x z → (s.kin z).pid = x ∧ z < s.next
  /-- The living are in the table. -/
  living : ∀ p < s.next, p ∉ Z → 0 ≤ (s.kin p).pid → s.Names (s.kin p).pid p
  /-- `idle` and `init` do not die. -/
  spared : ∀ p ∈ Z, (s.kin p).pid ≠ 0 ∧ (s.kin p).pid ≠ 1
  born : ∀ p ∈ Z, p < s.next
  noSelf : ∀ p, (s.kin p).parent = some p → (s.kin p).pid = 1
  older : ∀ p q, (s.kin p).parent = some q → q < s.next

/-- **Kinship**: a living process's array holds children of it, each once. -/
structure Kinship (s : Family) (Z : Set ProcId) : Prop extends Tabled s Z where
  children : ∀ p ∉ Z, ∀ x ∈ (s.kin p).children, ∃ z, s.Names x z ∧ (s.kin z).parent = some p
  nodup : ∀ p ∉ Z, (s.kin p).children.Nodup

namespace Tabled

theorem of_sameTree (h : Tabled s Z) (t : s.SameTree s') : Tabled s' Z where
  table x z hx := by
    rw [t.pid, t.next]
    exact h.table x z (t.names.mp hx)
  living p := by
    rw [t.pid, t.next, t.names]
    exact h.living p
  spared p := by
    rw [t.pid]
    exact h.spared p
  born p := by
    rw [t.next]
    exact h.born p
  noSelf p := by
    rw [t.pid, t.parent]
    exact h.noSelf p
  older p q := by
    rw [t.parent, t.next]
    exact h.older p q

/-- One more death. -/
theorem bury (h : Tabled s Z) (hpid : (s.kin p).pid ≠ 0 ∧ (s.kin p).pid ≠ 1) (hp : p < s.next) :
    Tabled s (insert p Z) where
  table := h.table
  living q hq hZ := h.living q hq fun hq' => hZ (.inr hq')
  spared q hq := by
    rcases hq with rfl | hq
    · exact hpid
    · exact h.spared q hq
  born q hq := by
    rcases hq with rfl | hq
    · exact hp
    · exact h.born q hq
  noSelf := h.noSelf
  older := h.older

/-- `init` is not dead. -/
theorem init_living (h : Tabled s Z) (hi : s.table 1 = some i) :
    (s.kin i).pid = 1 ∧ i < s.next ∧ i ∉ Z := by
  have hnames : s.Names 1 i := names_iff.mpr ⟨by decide, hi⟩
  obtain ⟨hpid, hlt⟩ := h.table 1 i hnames
  exact ⟨hpid, hlt, fun hz => (h.spared i hz).2 hpid⟩

/-- A child is given to `init`. -/
theorem reparent {child : ProcId} (h : Tabled s Z) (hi : s.table 1 = some i)
    (r : s.Reparented child i s') : Tabled s' Z := by
  obtain ⟨hpid, hlt, -⟩ := h.init_living hi
  have hnew : ∀ q, (s'.kin child).parent = some q → q = i := by
    intro q hq
    rcases r.room with ⟨-, hnew, -⟩ | ⟨-, hnew, -⟩
    · exact (Option.some.inj (hnew.symm.trans hq)).symm
    · exact nomatch hnew.symm.trans hq
  refine ⟨fun y z hz => ?_, fun q hq hqZ h0 => ?_, fun q hq => ?_, fun q hq => ?_, fun q hq => ?_,
    fun q q' hq => ?_⟩
  · rw [r.pid, r.next]
    exact h.table y z (r.names.mp hz)
  · rw [r.pid] at h0 ⊢
    exact r.names.mpr (h.living q (r.next ▸ hq) hqZ h0)
  · rw [r.pid]
    exact h.spared q hq
  · rw [r.next]
    exact h.born q hq
  · rw [r.pid]
    by_cases hqc : q = child
    · subst hqc
      rw [hnew q hq, hpid]
    · rw [r.parent q hqc] at hq
      exact h.noSelf q hq
  · rw [r.next]
    by_cases hqc : q = child
    · subst hqc
      rw [hnew q' hq]
      exact hlt
    · rw [r.parent q hqc] at hq
      exact h.older q q' hq

/-- The id `x` of a dead process is taken out of the table. -/
theorem unlist (h : Tabled s Z) (hp : p ∈ Z) (hx : s.Names x p)
    (hpid : ∀ q, (s'.kin q).pid = (s.kin q).pid) (hparent : ∀ q, (s'.kin q).parent = (s.kin q).parent)
    (hnext : s'.next = s.next) (hnames : ∀ y z, s'.Names y z ↔ s.Names y z ∧ y ≠ x) :
    Tabled s' Z where
  table y z hz := by
    rw [hpid, hnext]
    exact h.table y z ((hnames y z).mp hz).1
  living q hq hqZ h0 := by
    rw [hpid] at h0 ⊢
    have hliving := h.living q (hnext ▸ hq) hqZ h0
    refine (hnames _ q).mpr ⟨hliving, ?_⟩
    rintro rfl
    exact hqZ (hliving.unique hx ▸ hp)
  spared q hq := by
    rw [hpid]
    exact h.spared q hq
  born q hq := by
    rw [hnext]
    exact h.born q hq
  noSelf q hq := by
    rw [hparent] at hq
    rw [hpid]
    exact h.noSelf q hq
  older q q' hq := by
    rw [hparent] at hq
    rw [hnext]
    exact h.older q q' hq

end Tabled

namespace Kinship

/-- Whom a living process's array names. -/
theorem parent_of_child (h : Kinship s Z) (hp : p ∉ Z) (hx : x ∈ (s.kin p).children)
    (hz : s.Names x z) : (s.kin z).parent = some p := by
  obtain ⟨z', hz', hparent⟩ := h.children p hp x hx
  rwa [hz'.unique hz] at hparent

theorem of_sameTree (h : Kinship s Z) (t : s.SameTree s') : Kinship s' Z where
  toTabled := h.toTabled.of_sameTree t
  children p hp x hx := by
    rw [t.children] at hx
    obtain ⟨z, hz, hparent⟩ := h.children p hp x hx
    exact ⟨z, t.names.mpr hz, by rwa [t.parent]⟩
  nodup p := by
    rw [t.children]
    exact h.nodup p

/-- One more death. -/
theorem bury (h : Kinship s Z) (hpid : (s.kin p).pid ≠ 0 ∧ (s.kin p).pid ≠ 1) (hp : p < s.next) :
    Kinship s (insert p Z) where
  toTabled := h.toTabled.bury hpid hp
  children q hq := h.children q fun hq' => hq (.inr hq')
  nodup q hq := h.nodup q fun hq' => hq (.inr hq')

/-! ### Reparenting -/

/-- A child of a dead process is given to `init`. -/
theorem reparent {child : ProcId} (h : Kinship s Z) (hp : p ∈ Z) (hx : s.Names x child)
    (hparent : (s.kin child).parent = some p) (hi : s.table 1 = some i) (r : s.Reparented child i s') :
    Kinship s' Z := by
  obtain ⟨-, -, hiZ⟩ := h.init_living hi
  have hchild := (h.table x child hx).1
  -- nobody living has `child` in its array
  have hfree : ∀ q ∉ Z, ∀ y ∈ (s.kin q).children, ∀ z, s.Names y z → z ≠ child := by
    rintro q hq y hy z hz rfl
    have hparent' := h.parent_of_child hq hy hz
    rw [hparent] at hparent'
    cases hparent'
    exact hq hp
  have hxi : x ∉ (s.kin i).children := fun hmem => hfree i hiZ x hmem child hx rfl
  refine ⟨h.toTabled.reparent hi r, fun q hq y hy => ?_, fun q hq => ?_⟩
  · have hold : y ∈ (s.kin q).children → ∃ z, s'.Names y z ∧ (s'.kin z).parent = some q := by
      intro hmem
      obtain ⟨z, hz, hpz⟩ := h.children q hq y hmem
      exact ⟨z, r.names.mpr hz, by rwa [r.parent z (hfree q hq y hmem z hz)]⟩
    by_cases hqi : q = i
    · subst hqi
      rcases r.room with ⟨-, hnew, hlist⟩ | ⟨-, -, hlist⟩
      · rw [hlist, List.mem_append, List.mem_singleton, hchild] at hy
        rcases hy with hy | rfl
        · exact hold hy
        · exact ⟨child, r.names.mpr hx, hnew⟩
      · exact hold (hlist ▸ hy)
    · exact hold (r.children q hqi ▸ hy)
  · by_cases hqi : q = i
    · subst hqi
      rcases r.room with ⟨-, -, hlist⟩ | ⟨-, -, hlist⟩
      · rw [hlist, hchild, List.nodup_append]
        refine ⟨h.nodup q hq, List.nodup_singleton x, fun a ha b hb hab => ?_⟩
        rw [List.mem_singleton.mp hb] at hab
        exact hxi (hab ▸ ha)
      · rw [hlist]
        exact h.nodup q hq
    · rw [r.children q hqi]
      exact h.nodup q hq

end Kinship

/-- The loop over the children of the dead process `p` has still to see `rest`. -/
structure Orphans (s : Family) (Z : Set ProcId) (p : ProcId) (rest : List Int) : Prop where
  kin : Kinship s Z
  nodup : rest.Nodup
  owned : ∀ x ∈ rest, ∀ z, s.Names x z → (s.kin z).parent = some p

namespace Orphans

variable {rest : List Int}

theorem skip (h : Orphans s Z p (x :: rest)) : Orphans s Z p rest where
  kin := h.kin
  nodup := h.nodup.of_cons
  owned y hy := h.owned y (List.mem_cons_of_mem x hy)

theorem step {child : ProcId} (h : Orphans s Z p (x :: rest)) (hp : p ∈ Z) (hx : s.Names x child)
    (hi : s.table 1 = some i) (r : s.Reparented child i s') : Orphans s' Z p rest where
  kin := h.kin.reparent hp hx (h.owned x List.mem_cons_self child hx) hi r
  nodup := h.nodup.of_cons
  owned y hy z hz := by
    have hz' := r.names.mp hz
    have hne : z ≠ child := by
      rintro rfl
      have hyx : y = x := (h.kin.table y z hz').1.symm.trans (h.kin.table x z hx).1
      exact (List.nodup_cons.mp h.nodup).1 (hyx ▸ hy)
    rw [r.parent z hne]
    exact h.owned y (List.mem_cons_of_mem x hy) z hz'

end Orphans

/-! ### Death -/

/-- The id `x` of a dead process is taken out of the table and out of all arrays. -/
theorem Kinship.unlist (h : Kinship s Z) (hp : p ∈ Z) (hx : s.Names x p)
    (hpid : ∀ q, (s'.kin q).pid = (s.kin q).pid) (hparent : ∀ q, (s'.kin q).parent = (s.kin q).parent)
    (hnext : s'.next = s.next) (hnames : ∀ y z, s'.Names y z ↔ s.Names y z ∧ y ≠ x)
    (hsub : ∀ q, (s'.kin q).children.Sublist (s.kin q).children)
    (hfree : ∀ q ∉ Z, x ∉ (s'.kin q).children) : Kinship s' Z where
  toTabled := h.toTabled.unlist hp hx hpid hparent hnext hnames
  children q hq y hy := by
    obtain ⟨z, hz, hpz⟩ := h.children q hq y ((hsub q).subset hy)
    refine ⟨z, (hnames y z).mpr ⟨hz, ?_⟩, by rwa [hparent]⟩
    rintro rfl
    exact hfree q hq hy
  nodup q hq := (hsub q).nodup (h.nodup q hq)

/-- The loop over the children of a process that dies for the first time. -/
theorem Kinship.reparentAll (h : Kinship s Z) (hp : p ∈ Z) (hnodup : (s.kin p).children.Nodup)
    (hself : (s.kin p).parent ≠ some p)
    (howned : ∀ x ∈ (s.kin p).children, ∀ z, s.Names x z → (s.kin z).parent = some p)
    (hr : s.reparentAll (s.kin p).children = .ok s') :
    Kinship s' Z ∧ s'.table = s.table ∧ s.Died p s' := by
  have hend := Family.reparentAll_induction
    (fun rest t => Orphans t Z p rest ∧ rest ⊆ (s.kin p).children ∧ t.table = s.table ∧ s.Died p t)
    (fun x rest t ⟨ho, hsub, htab, hd⟩ _ =>
      ⟨ho.skip, fun y hy => hsub (List.mem_cons_of_mem x hy), htab, hd⟩)
    ?_ hr ⟨⟨h, hnodup, howned⟩, fun _ hx => hx, rfl, .refl s p⟩
  · exact ⟨hend.1.kin, hend.2.2.1, hend.2.2.2⟩
  rintro x rest t child i t' ⟨ho, hsub, htab, hd⟩ hx hi r
  refine ⟨ho.step hp hx hi r, fun y hy => hsub (List.mem_cons_of_mem x hy), r.table.trans htab, ?_⟩
  have hchild : p ≠ child := by
    rintro rfl
    exact hself (hd.parent ▸ ho.owned x List.mem_cons_self p hx)
  refine ⟨(r.parent p hchild).trans hd.parent, fun q => (r.pid q).trans (hd.pid q),
    r.next.trans hd.next, fun y z hy => ?_, fun q y hy => ?_⟩
  · rwa [names_iff, r.table, htab, ← names_iff] at hy
  · by_cases hqi : q = i
    · subst hqi
      rcases r.room with ⟨-, -, hlist⟩ | ⟨-, -, hlist⟩
      · rw [hlist, List.mem_append, List.mem_singleton] at hy
        rcases hy with hy | rfl
        · exact hd.children q y hy
        · rw [(ho.kin.table x child hx).1]
          exact .inr ⟨htab ▸ hi, hsub List.mem_cons_self, child, hd.names x child hx⟩
      · exact hd.children q y (hlist ▸ hy)
    · exact hd.children q y (r.children q hqi ▸ hy)

/-- A death keeps the table.  A process that dies a second time must still be in it. -/
theorem Tabled.kill (h : Tabled s Z) (hpid : (s.kin p).pid ≠ 0 ∧ (s.kin p).pid ≠ 1)
    (hp : p < s.next) (hagain : p ∈ Z → s.Names (s.kin p).pid p) (hk : s.kill p = .ok s') :
    Tabled s' (insert p Z) ∧ s'.next = s.next ∧ s'.table 1 = s.table 1 := by
  obtain ⟨s₁, hall, hend⟩ := Family.kill_eq_ok hk
  have ht := s.sameTree_setForeground (s.kin p).parent (some p)
  have hloop := Family.reparentAll_induction
    (fun _ t => Tabled t (insert p Z) ∧ t.next = s.next ∧ t.table = s.table ∧
      (t.kin p).pid = (s.kin p).pid)
    (fun _ _ _ ht _ => ht)
    (fun _ _ t _ i t' ⟨ht, hnext, htab, hp'⟩ _ hi r =>
      ⟨ht.reparent hi r, r.next.trans hnext, r.table.trans htab, (r.pid p).trans hp'⟩)
    hall ⟨(h.bury hpid hp).of_sameTree ht, ht.next, ht.table, ht.pid p⟩
  obtain ⟨h₁, hnext, htable, hpid₁⟩ := hloop
  rcases hend with ⟨-, rfl⟩ | ⟨-, hreap⟩
  · exact ⟨h₁, hnext, by rw [htable]⟩
  · have hn := fun x z => Family.names_reap (x := x) (z := z) hreap
    obtain ⟨hrange, rfl⟩ := Family.reap_eq_ok hreap
    have hnames : s₁.Names (s₁.kin p).pid p := by
      rw [names_iff, htable, ← names_iff, hpid₁]
      by_cases hZ : p ∈ Z
      · exact hagain hZ
      · exact h.living p hp hZ (hpid₁ ▸ hrange.1)
    refine ⟨h₁.unlist (.inl rfl) hnames (fun _ => rfl) (fun _ => rfl) rfl hn, hnext, ?_⟩
    have hne : 1 ≠ (s₁.kin p).pid.toNat := by
      rw [hpid₁]
      omega
    exact (Function.update_of_ne hne _ _).trans (by rw [htable])

/-- **A death.**  A process that dies a second time must still be in the table, and its array
    must name nobody. -/
theorem Kinship.kill (h : Kinship s Z) (hpid : (s.kin p).pid ≠ 0 ∧ (s.kin p).pid ≠ 1)
    (hp : p < s.next) (hagain : p ∈ Z → s.Names (s.kin p).pid p ∧
      ∀ x ∈ (s.kin p).children, ∀ z, ¬ s.Names x z) (hk : s.kill p = .ok s') :
    Kinship s' (insert p Z) ∧ s.Died p s' := by
  obtain ⟨s₁, hall, hend⟩ := Family.kill_eq_ok hk
  have ht := s.sameTree_setForeground (s.kin p).parent (some p)
  generalize s.setForeground (s.kin p).parent (some p) = s₀ at hall ht
  have hnames₀ := fun x z => ht.names (x := x) (z := z)
  have h₀ : Kinship s₀ (insert p Z) := (h.bury hpid hp).of_sameTree ht
  have hself : (s₀.kin p).parent ≠ some p := fun hself => hpid.2 (ht.pid p ▸ h₀.noSelf p hself)
  have hloop : Kinship s₁ (insert p Z) ∧ s₁.table = s₀.table ∧ s₀.Died p s₁ := by
    rw [← ht.children p] at hall
    by_cases hZ : p ∈ Z
    · -- nobody is found under the ids a zombie's array still holds
      have hsame := Family.reparentAll_induction
        (fun rest t => t = s₀ ∧ ∀ x ∈ rest, ∀ z, ¬ s₀.Names x z)
        (fun x rest t ⟨ht, hno⟩ _ => ⟨ht, fun y hy => hno y (List.mem_cons_of_mem x hy)⟩)
        (fun x rest t child i t' ⟨ht, hno⟩ hx => absurd (ht ▸ hx) (hno x List.mem_cons_self child))
        hall ⟨rfl, fun x hx z hz => (hagain hZ).2 x (ht.children p ▸ hx) z ((hnames₀ x z).mp hz)⟩
      rw [hsame.1]
      exact ⟨h₀, rfl, .refl s₀ p⟩
    · refine h₀.reparentAll (.inl rfl) (ht.children p ▸ h.nodup p hZ) hself (fun x hx z hz => ?_) hall
      rw [ht.parent]
      exact h.parent_of_child hZ (ht.children p ▸ hx) ((hnames₀ x z).mp hz)
  obtain ⟨h₁, htable, hd⟩ := hloop
  have hdied : s.Died p s₁ := by
    refine ⟨hd.parent.trans (ht.parent p), fun q => (hd.pid q).trans (ht.pid q),
      hd.next.trans ht.next, fun x z hx => (hnames₀ x z).mp (hd.names x z hx), fun q x hx => ?_⟩
    rcases hd.children q x hx with hx | ⟨hi, hx, z, hz⟩
    · exact .inl (ht.children q ▸ hx)
    · exact .inr ⟨ht.table ▸ hi, ht.children p ▸ hx, z, (hnames₀ x z).mp hz⟩
  rcases hend with ⟨-, rfl⟩ | ⟨hnone, hreap⟩
  · exact ⟨h₁, hdied⟩
  · -- without a parent, it is collected at once
    have hpid₁ : (s₁.kin p).pid = (s.kin p).pid := hdied.pid p
    have hn := fun x z => Family.names_reap (x := x) (z := z) hreap
    obtain ⟨hrange, rfl⟩ := Family.reap_eq_ok hreap
    have hnames : s₁.Names (s₁.kin p).pid p := by
      have hlisted : s.Names (s.kin p).pid p := by
        by_cases hZ : p ∈ Z
        · exact (hagain hZ).1
        · exact h.living p hp hZ (hpid₁ ▸ hrange.1)
      rw [hpid₁]
      rwa [names_iff, htable, ht.table, ← names_iff]
    refine ⟨h₁.unlist (.inl rfl) hnames (fun _ => rfl) (fun _ => rfl) rfl hn
      (fun _ => List.Sublist.refl _) (fun q hq hmem => ?_), hdied.parent, hdied.pid, hdied.next,
      fun x z hx => hdied.names x z ((hn x z).mp hx).1, hdied.children⟩
    have hchild := h₁.parent_of_child hq hmem hnames
    rw [hnone] at hchild
    cases hchild

/-! ### Collection -/

/-- **A completed wait** takes one dead child out of the table and out of the array of its
    parent. -/
theorem Kinship.collect {n : Nat} {child : ProcId} (h : Kinship s Z) (hc : c ∉ Z)
    (hn : (s.kin c).children[n]? = some x) (hx : s.Names x child) (hdead : child ∈ Z)
    (hk : s.collect c n child = .ok s') : Kinship s' Z := by
  have hcol := Family.collected hk
  rw [(h.table x child hx).1] at hcol
  refine h.unlist hdead hx hcol.pid hcol.parent hcol.next hcol.names hcol.sublist fun q hq hmem => ?_
  by_cases hqc : q = c
  · subst hqc
    -- the array holds the child once, at place `n`
    obtain ⟨hlt, rfl⟩ := List.getElem?_eq_some_iff.mp hn
    rw [hcol.self, ← (h.nodup q hq).erase_getElem n hlt] at hmem
    exact (h.nodup q hq).not_mem_erase hmem
  · rw [hcol.children q hqc] at hmem
    have hparent := (h.parent_of_child hc (List.mem_of_getElem? hn) hx).symm.trans
      (h.parent_of_child hq hmem hx)
    exact hqc (Option.some.inj hparent).symm

/-! ### Birth -/

/-- **A birth**, into a free place of the table. -/
theorem Tabled.grown {slot : Option Nat} {stack : Bool} {parent : Option ProcId}
    (h : Tabled s Z) (hslot : ∀ i, slot = some i → i < maxProcesses ∧ s.table i = none)
    (hparent : ∀ c, parent = some c → c < s.next) (g : s.Grown slot stack parent s') :
    Tabled s' Z := by
  have hnames := fun x z => g.names (x := x) (z := z) hslot
  have hnewParent : ∀ q, (s'.kin s.next).parent = some q → parent = some q := by
    intro q hq
    rw [g.newParent] at hq
    split at hq
    · exact hq
    · cases hq
  refine ⟨fun x z hx => ?_, fun q hq hqZ h0 => ?_, fun q hq => ?_, fun q hq => ?_, fun q hq => ?_,
    fun q q' hq => ?_⟩
  · rw [g.next]
    rcases (hnames x z).mp hx with hx | ⟨i, rfl, rfl, rfl⟩
    · obtain ⟨hpid, hlt⟩ := h.table x z hx
      exact ⟨(g.oldPid z hlt.ne).trans hpid, Nat.lt_succ_of_lt hlt⟩
    · exact ⟨g.newPid, Nat.lt_succ_self _⟩
  · by_cases hqn : q = s.next
    · subst hqn
      have hpid := g.newPid
      cases slot with
      | none =>
        rw [hpid] at h0
        cases h0
      | some i =>
        rw [hpid]
        exact (hnames _ _).mpr (.inr ⟨i, rfl, rfl, rfl⟩)
    · rw [g.oldPid q hqn] at h0 ⊢
      rw [g.next] at hq
      have hlt : q < s.next := Nat.lt_of_le_of_ne (Nat.lt_succ_iff.mp hq) hqn
      exact (hnames _ _).mpr (.inl (h.living q hlt hqZ h0))
  · rw [g.oldPid q (h.born q hq).ne]
    exact h.spared q hq
  · rw [g.next]
    exact Nat.lt_succ_of_lt (h.born q hq)
  · by_cases hqn : q = s.next
    · subst hqn
      exact absurd (hparent _ (hnewParent _ hq)) (lt_irrefl _)
    · rw [g.oldParent q hqn] at hq
      rw [g.oldPid q hqn]
      exact h.noSelf q hq
  · rw [g.next]
    by_cases hqn : q = s.next
    · subst hqn
      exact Nat.lt_succ_of_lt (hparent q' (hnewParent q' hq))
    · rw [g.oldParent q hqn] at hq
      exact Nat.lt_succ_of_lt (h.older q q' hq)

theorem Kinship.grown {slot : Option Nat} {stack : Bool} {parent : Option ProcId}
    (h : Kinship s Z) (hslot : ∀ i, slot = some i → i < maxProcesses ∧ s.table i = none)
    (hparent : ∀ c, parent = some c → c < s.next) (g : s.Grown slot stack parent s') :
    Kinship s' Z := by
  have hnames := fun x z => g.names (x := x) (z := z) hslot
  refine ⟨h.toTabled.grown hslot hparent g, fun q hq x hx => ?_, fun q hq => ?_⟩
  · rcases g.mem_children hx with ⟨-, hmem⟩ | ⟨-, hstack, hpar, i, rfl, rfl⟩
    · obtain ⟨z, hz, hpz⟩ := h.children q hq x hmem
      refine ⟨z, (hnames x z).mpr (.inl hz), ?_⟩
      rw [g.oldParent z (h.table x z hz).2.ne]
      exact hpz
    · refine ⟨s.next, (hnames _ _).mpr (.inr ⟨i, rfl, rfl, rfl⟩), ?_⟩
      rw [g.newParent, hstack]
      simpa using hpar
  · by_cases hqn : q = s.next
    · rw [hqn, g.newChildren]
      exact List.nodup_nil
    · rw [g.children q hqn]
      split
      · cases slot with
        | none => simpa using h.nodup q hq
        | some i =>
          -- the id was free, so no array holds it
          have hnot : (i : Int) ∉ (s.kin q).children := by
            intro hmem
            obtain ⟨z, hz, -⟩ := h.children q hq _ hmem
            have ht := (names_iff.mp hz).2
            rw [Int.toNat_natCast, (hslot i rfl).2] at ht
            cases ht
          rw [List.nodup_append]
          refine ⟨h.nodup q hq, by simp, fun a ha b hb hab => ?_⟩
          simp only [Option.toList_some, List.map_cons, List.map_nil, List.mem_singleton] at hb
          have hai : a = (i : Int) := hab.trans hb
          exact hnot (hai ▸ ha)
      · exact h.nodup q hq

theorem Kinship.boot (f : Nat → Bool) : Kinship (boot f).family (boot f).zombies where
  table x z hx := by
    have ht := (names_iff.mp hx).2
    cases ht
  living _ hp := absurd hp (Nat.not_lt_zero _)
  spared _ hp := nomatch hp
  born _ hp := nomatch hp
  children _ _ _ hx := nomatch hx
  nodup _ _ := List.nodup_nil
  noSelf _ hp := nomatch hp
  older _ _ hp := nomatch hp

end TpeSo
