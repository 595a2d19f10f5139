import TpeSo.Phylo.Mutex

namespace TpeSo.Phylo

open Lib Dinner

/-!
# `programs/phylo.c` — neighbours never eat together

* `Safe t` — no two neighbours are `DRIVING`;
* `SafeAt` — what is known at the lines where somebody is about to be `DRIVING`, and while a
  philosopher is being removed;
* `safeOutline` — the steps of one process inside keep it;
* `apart_run` — **the statement about whole runs**.
-/

variable {k k' : Dinner} {w : Who} {t : Table} {i j : Nat} {tr : List (Dinner × Event × Unit)}

/-- No two neighbours are `DRIVING`, and nobody outside the circle is. -/
structure Safe (t : Table) : Prop where
  apart : Circle.Apart t.phyloCount t.Driving
  outside : ∀ i, t.phyloCount ≤ i → ¬ t.Driving i

/-- What a philosopher knows besides. -/
def PhyloKnows (t : Table) (i : Nat) : PhyloLine → Prop
  | .takeDriving => ¬ t.Driving (t.left i) ∧ ¬ t.Driving (t.right i)
  | .leaveTestLeft | .leavePostLeft | .leaveTestRight => t.phyloStates i = .thinking
  | .leaveDriveLeft => t.phyloStates i = .thinking ∧ t.phyloStates (t.left i) ≠ .none ∧
      t.left i ≠ i ∧ ¬ t.Driving (t.left (t.left i))
  | .leaveDriveRight => t.phyloStates i = .thinking ∧ t.phyloStates (t.right i) ≠ .none ∧
      ¬ t.Driving (t.right (t.right i))
  | _ => True

/-- What the main program knows besides. -/
def MainKnows (t : Table) : MainLine → Prop
  | .removePhylo .kill idx _ | .removePhylo .close idx _ | .removePhylo .pid idx _
  | .removePhylo .state idx _ => ¬ (t.Driving (t.left idx) ∧ t.Driving (t.right idx))
  | .removePhylo .count idx _ =>
    ¬ (t.Driving (t.left idx) ∧ t.Driving (t.right idx)) ∧ t.phyloStates idx = .none
  | _ => True

def SafeAt (t : Table) : (w : Who) → w.Line → Prop
  | .main, l => Safe t ∧ MainKnows t l
  | .phylo i, l => Safe t ∧ PhyloKnows t i l

/-- `remove_all` is not run. -/
def NoRemoveAll (k : Dinner) (e : Event) : Prop :=
  e.who = .main → (k.lines .main).bind MainLine.removing = none

instance (e : Event) : Decidable (NoRemoveAll k e) := by
  unfold NoRemoveAll
  infer_instance

theorem NoRemoveAll.notFromFront {e : Event} (h : NoRemoveAll k e) : NotFromFront k e := by
  intro hw max hmax
  rw [h hw] at hmax
  cases hmax

/-! ### The operations of the table -/

/-- Somebody stops, or goes on waiting. -/
theorem Safe.setState (h : Safe t) (j : Nat) (st : PhyloState) (hst : st ≠ .driving) :
    Safe (t.setState j st) where
  apart := h.apart.anti fun _ _ => Table.driving_of_setState hst
  outside i hi hd := h.outside i hi (Table.driving_of_setState hst hd)

/-- Somebody starts whose neighbours are not `DRIVING`. -/
theorem Safe.drive (h : Safe t) (hj : j < t.phyloCount) (hl : ¬ t.Driving (t.left j))
    (hr : ¬ t.Driving (t.right j)) : Safe (t.setState j .driving) where
  apart := by
    refine h.apart.insert hl hr fun i _ hd => ?_
    by_cases hij : i = j
    · exact .inr hij
    · exact .inl ((Table.setState_of_ne hij t .driving).symm.trans hd)
  outside i hi hd := by
    have hij : i ≠ j := by
      rintro rfl
      exact absurd hj (Nat.not_lt.mpr hi)
    exact h.outside i hi ((Table.setState_of_ne hij t .driving).symm.trans hd)

theorem Safe.grow (h : Safe t) : Safe { t with phyloCount := t.phyloCount + 1 } where
  apart := h.apart.grow (h.outside _ (Nat.le_refl _))
  outside i hi := h.outside i (Nat.le_of_succ_le hi)

theorem Safe.shrink {n : Nat} (h : Safe t) (hn : t.phyloCount = n + 1)
    (hends : ¬ (t.Driving (t.left n) ∧ t.Driving (t.right n))) (hlast : ¬ t.Driving n) :
    Safe { t with phyloCount := n } where
  apart := by
    have hapart := h.apart
    unfold Table.left Table.right at hends
    rw [hn] at hapart hends
    exact hapart.shrink hends
  outside i hi := by
    change n ≤ i at hi
    by_cases hin : i = n
    · rw [hin]
      exact hlast
    · exact h.outside i (by omega)

/-! ### One process inside -/

/-- A philosopher inside is seated at the circle. -/
theorem Orderly.lt_count {l : PhyloLine} (hk : Orderly k) (hl : k.lines (.phylo i) = some l)
    (hin : l.inside) : i < k.phyloCount := by
  obtain ⟨lm, hmain, hat⟩ := hk.seats
  obtain ⟨sem, -, htoken⟩ := hk.locked
  have hrun : k.Running i := fun hnone => by rw [hl] at hnone; cases hnone
  have hout : ¬ lm.inside := fun hmin =>
    absurd (htoken.alone .main (.phylo i) ⟨lm, hmain, hmin⟩ ⟨l, hl, hin⟩) nofun
  have hruns := hat.runs i hrun
  cases lm with
  | newPhylo line idx seating =>
    cases line with
    | wait => exact hruns
    | _ => exact absurd nofun hout
  | removePhylo line idx c =>
    cases line with
    | wait | sleep | retake => exact hruns
    | _ => exact absurd ⟨nofun, nofun, nofun⟩ hout
  | _ => exact hruns

/-- What the main program knows about `phylo_count`. -/
theorem Orderly.lineOk {l : MainLine} (hk : Orderly k) (hl : k.lines .main = some l) :
    LineOk k.toTable l := by
  obtain ⟨lm, hmain, hat⟩ := hk.seats
  rw [hl, Option.some.injEq] at hmain
  exact hmain ▸ hat.line

theorem SafeAt.safe {l : w.Line} (h : SafeAt t w l) : Safe t := by
  cases w <;> exact h.1

/-- A philosopher's statement. -/
theorem safeAt_phylo {l l' : PhyloLine} {r : Reply} (hi : i < t.phyloCount) (hin : l.inside)
    (hin' : l'.inside) (hleads : (phyloStmt t i l).Leads r l') (h : Safe t ∧ PhyloKnows t i l) :
    Safe ((phyloStmt t i l).effect t r) ∧ PhyloKnows ((phyloStmt t i l).effect t r) i l' := by
  obtain ⟨hsafe, hknows⟩ := h
  cases l with
  | takeWaiting =>
    cases hleads
    exact ⟨hsafe.setState i .waiting (by decide), trivial⟩
  | takeTest =>
    simp only [phyloStmt, Stmt.Leads, decide_eq_true_eq] at hleads
    split at hleads
    · next hfree =>
      cases hleads
      exact ⟨hsafe, hfree⟩
    · cases hleads
      exact ⟨hsafe, trivial⟩
  | takeDriving =>
    cases hleads
    exact ⟨hsafe.drive hi hknows.1 hknows.2, trivial⟩
  | leaveThinking =>
    cases hleads
    exact ⟨hsafe.setState i .thinking (by decide), Table.setState_self ..⟩
  | leaveTestLeft =>
    simp only [phyloStmt, Stmt.Leads, decide_eq_true_eq] at hleads
    split at hleads
    · next hleft =>
      cases hleads
      refine ⟨hsafe, hknows, fun hnone => ?_, fun hself => ?_, hleft.2⟩
      · exact absurd (hnone.symm.trans hleft.1) (by decide)
      · have hwait : t.Waiting i := hself ▸ hleft.1
        exact absurd (hwait.symm.trans hknows) (by decide)
    · cases hleads
      exact ⟨hsafe, hknows⟩
  | leaveDriveLeft =>
    cases hleads
    obtain ⟨hself, -, hne, hleft⟩ := hknows
    have hright : ¬ t.Driving (t.right (t.left i)) := by
      rw [Table.right, Table.left, Circle.right_left hi]
      exact fun hd => absurd (hself.symm.trans hd) (by decide)
    exact ⟨hsafe.drive (Circle.left_lt hi) hleft hright,
      (Table.setState_of_ne hne.symm ..).trans hself⟩
  | leaveTestRight =>
    simp only [phyloStmt, Stmt.Leads, decide_eq_true_eq] at hleads
    split at hleads
    · next hright =>
      cases hleads
      refine ⟨hsafe, hknows, fun hnone => ?_, hright.2⟩
      exact absurd (hnone.symm.trans hright.1) (by decide)
    · cases hleads
      exact ⟨hsafe, trivial⟩
  | leaveDriveRight =>
    cases hleads
    obtain ⟨hself, -, hright⟩ := hknows
    have hleft : ¬ t.Driving (t.left (t.right i)) := by
      rw [Table.right, Table.left, Circle.left_right hi]
      exact fun hd => absurd (hself.symm.trans hd) (by decide)
    exact ⟨hsafe.drive (Circle.right_lt hi) hleft hright, trivial⟩
  | takePost | leavePostLeft | leavePostRight =>
    cases hleads
    exact ⟨hsafe, hknows⟩
  | takeUnlock | leaveUnlock =>
    cases hleads
    exact hin'.elim
  | start | loop | takeWait | takeOwn | leaveWait => exact hin.elim

/-- A statement of the main program. -/
theorem safeAt_main {l l' : MainLine} {r : Reply} (hline : LineOk t l) (hin : l.inside)
    (hin' : l'.inside) (hleads : (mainStmt t l).Leads r l') (h : Safe t ∧ MainKnows t l) :
    Safe ((mainStmt t l).effect t r) ∧ MainKnows ((mainStmt t l).effect t r) l' := by
  obtain ⟨hsafe, hknows⟩ := h
  cases l with
  | newPhylo line idx seating =>
    cases line with
    | wait => exact absurd rfl hin
    | create =>
      obtain ⟨-, rfl⟩ | rfl := hleads
      · exact ⟨hsafe, trivial⟩
      · exact absurd hin' (not_inside_afterNew idx seating _)
    | spawn =>
      cases hleads
      exact ⟨⟨hsafe.apart, hsafe.outside⟩, trivial⟩
    | count =>
      cases hleads
      refine ⟨?_, trivial⟩
      change Safe { t with phyloCount := if t.Seated idx then t.phyloCount + 1 else t.phyloCount }
      split
      · exact hsafe.grow
      · exact hsafe
    | unlock =>
      cases hleads
      exact absurd hin' (not_inside_afterNew idx seating _)
  | removePhylo line idx c =>
    cases line with
    | wait => exact absurd rfl hin.1
    | sleep => exact absurd rfl hin.2.1
    | retake => exact absurd rfl hin.2.2
    | test =>
      simp only [mainStmt, Stmt.Leads, decide_eq_true_eq] at hleads
      split at hleads
      · cases hleads
        exact ⟨hsafe, trivial⟩
      · next hends =>
        cases hleads
        exact ⟨hsafe, hends⟩
    | release =>
      cases hleads
      exact absurd rfl hin'.2.1
    | kill | close =>
      cases hleads
      exact ⟨hsafe, hknows⟩
    | pid =>
      cases hleads
      exact ⟨⟨hsafe.apart, hsafe.outside⟩, hknows⟩
    | state =>
      cases hleads
      refine ⟨hsafe.setState idx .none (by decide), fun hboth => hknows ?_, Table.setState_self ..⟩
      exact hboth.imp (Table.driving_of_setState (by decide)) (Table.driving_of_setState (by decide))
    | count =>
      cases hleads
      obtain ⟨hends, hnone⟩ := hknows
      have hcount : t.phyloCount = idx + 1 := hline.1
      refine ⟨?_, trivial⟩
      change Safe { t with phyloCount := t.phyloCount - 1 }
      rw [hcount, Nat.add_sub_cancel]
      exact hsafe.shrink hcount hends fun hd => absurd (hnone.symm.trans hd) (by decide)
    | unlock =>
      cases hleads
      exact absurd hin' (not_inside_afterRemove idx c)
  | _ => exact hin.elim

/-! ### Every run -/

/-- A philosopher that sits down makes nobody `DRIVING`. -/
theorem phyloKnows_sit {l : PhyloLine} (j : Nat) (h : PhyloKnows t i l) :
    PhyloKnows (t.setState j .thinking) i l := by
  have hdriving : ∀ a, ¬ t.Driving a → ¬ (t.setState j .thinking).Driving a :=
    fun a => mt (Table.driving_of_setState nofun)
  have hself : ∀ a, t.phyloStates a = .thinking →
      (t.setState j .thinking).phyloStates a = .thinking := by
    intro a ha
    by_cases haj : a = j
    · rw [haj, Table.setState_self]
    · rw [Table.setState_of_ne haj, ha]
  have hsome : ∀ a, t.phyloStates a ≠ .none → (t.setState j .thinking).phyloStates a ≠ .none := by
    intro a ha
    by_cases haj : a = j
    · rw [haj, Table.setState_self]
      nofun
    · rwa [Table.setState_of_ne haj]
  cases l with
  | takeDriving => exact ⟨hdriving _ h.1, hdriving _ h.2⟩
  | leaveTestLeft | leavePostLeft | leaveTestRight => exact hself i h
  | leaveDriveLeft => exact ⟨hself i h.1, hsome _ h.2.1, h.2.2.1, hdriving _ h.2.2.2⟩
  | leaveDriveRight => exact ⟨hself i h.1, hsome _ h.2.1, hdriving _ h.2.2⟩
  | _ => trivial

theorem mainKnows_sit {l : MainLine} (h : MainKnows t l)
    (hj : ∀ idx c, l = .removePhylo .count idx c → idx ≠ j) :
    MainKnows (t.setState j .thinking) l := by
  have hends : ∀ a b, ¬ (t.Driving a ∧ t.Driving b) →
      ¬ ((t.setState j .thinking).Driving a ∧ (t.setState j .thinking).Driving b) :=
    fun a b => mt (And.imp (Table.driving_of_setState nofun) (Table.driving_of_setState nofun))
  cases l with
  | removePhylo line idx c =>
    cases line with
    | kill | close | pid | state => exact hends _ _ h
    | count => exact ⟨hends _ _ h.1, (Table.setState_of_ne (hj idx c rfl) ..).trans h.2⟩
    | _ => trivial
  | _ => trivial

/-- Nobody sits down at the seat that is being cleared. -/
theorem Orderly.cleared {idx : Nat} {c : Caller} (hk : Orderly k)
    (hl : k.lines .main = some (.removePhylo .count idx c)) : k.lines (.phylo idx) = none := by
  obtain ⟨lm, hmain, hat⟩ := hk.seats
  rw [hl, Option.some.injEq] at hmain
  subst hmain
  by_contra hrun
  exact absurd (hat.runs idx hrun) (Nat.lt_irrefl idx)

/-- **What `SEM_ID` protects.** -/
def safeOutline : Outline Orderly NoRemoveAll where
  free := Safe
  known := SafeAt
  start := ⟨fun i _ hi => absurd hi (Nat.not_lt_zero i), fun _ _ h => absurd h nofun⟩
  enter := by
    intro k w l l' hk hl hst h
    cases w with
    | phylo i => cases l <;> cases hst <;> exact ⟨h, trivial⟩
    | main =>
      cases l with
      | newPhylo line idx seating =>
        cases line <;> cases hst
        exact ⟨h, trivial⟩
      | removePhylo line idx c => cases line <;> cases hst <;> exact ⟨h, trivial⟩
      | _ => cases hst
  leave := fun _ _ _ h => h.safe
  fail := fun _ _ _ h => h.safe
  inside := by
    rintro k ⟨w, r⟩ l l' hk hok hl hin hin' hleads h
    cases w with
    | phylo i => exact safeAt_phylo (hk.lt_count hl hin) hin hin' hleads h
    | main => exact safeAt_main (hk.lineOk hl) hin hin' hleads h
  sits := fun _ _ h => h.setState _ .thinking nofun
  sits_known := by
    intro k i w l hk hi hl hin h
    cases w with
    | phylo a => exact ⟨h.1.setState i .thinking nofun, phyloKnows_sit i h.2⟩
    | main =>
      refine ⟨h.1.setState i .thinking nofun, mainKnows_sit h.2 ?_⟩
      rintro idx c rfl rfl
      rw [hk.cleared hl] at hi
      cases hi

/-- In every state nobody is beside another who is `DRIVING`, whoever is inside. -/
theorem safe_of_valid (h : safeOutline.Valid k) : Safe k.toTable := by
  by_cases hnone : ∀ w, ¬ Holds k w
  · exact h.free hnone
  · obtain ⟨w, hw⟩ := not_forall.mp hnone
    obtain ⟨l, hl, hin⟩ := not_not.mp hw
    exact (h.known w l hl hin).safe

theorem safe_run (h : Run NoRemoveAll tr k) : Orderly k ∧ safeOutline.Valid k := by
  refine h.invariant (fun k => Orderly k ∧ safeOutline.Valid k)
    ⟨orderly_start, safeOutline.valid_start⟩ ?_
  rintro k e k' o ⟨hk, hv⟩ hok hs
  exact ⟨orderly_next hk hok.notFromFront hs, safeOutline.next hk hk hv hok hs⟩

/-- The steps that seat a philosopher whose process gets `pid`. -/
def seating (pid : Int) : List Event :=
  [⟨.main, {}⟩, ⟨.main, {}⟩, ⟨.main, { yes := true }⟩, ⟨.main, { pid := pid }⟩, ⟨.main, {}⟩,
    ⟨.main, {}⟩]

/-- The next `n` steps of philosopher `i`, who wants to eat. -/
def eating (i n : Nat) : List Event := List.replicate n ⟨.phylo i, { yes := true }⟩

end TpeSo.Phylo
