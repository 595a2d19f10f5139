import Mathlib.Data.List.TakeWhile
import TpeSo.Pipes.Directory
import TpeSo.Sems.Tokens

namespace TpeSo

open Ds Lib

/-!
# Pipes — opening by name

`create_pipe` stores the first 32 bytes of a name, with a `NUL` only behind a shorter one;
`find_pipe_by_id` compares with `str_cmp`, which runs on into `in_use` and `lock`.

* `cString`, `strCmp_eq_zero_iff` — a string ends at its first `NUL`, and `str_cmp` compares
  strings;
* `idBytes_iff` — a name of less than 32 bytes is found where it was stored, and nowhere else;
* `Rows` — the table is filled from the front, with pipes under the names they were given;
* `Leads` — the first slot that holds a name; no step changes it;
* `openByName_iff` — **the names that always lead to one pipe are those of less than 32
  bytes.**
-/

variable {f : Nat → Bool} {tr : List (Kernel × Event × Option Completion)} {k k' : Kernel}
  {e : Event} {o : Option Completion} {pp pp' : PipeId} {id id' junk : List UInt8}

/-! ### Strings -/

/-- The string that starts at a pointer: the bytes in front of the first `NUL`. -/
def cString (s : List UInt8) : List UInt8 := s.takeWhile (· ≠ 0)

theorem cString_nul {s : List UInt8} (h : s.headD 0 = 0) : cString s = [] := by
  cases s with
  | nil => rfl
  | cons a s =>
    rw [List.headD_cons] at h
    subst h
    rfl

theorem cString_cons {a : UInt8} (h : a ≠ 0) (s : List UInt8) :
    cString (a :: s) = a :: cString s :=
  List.takeWhile_cons_of_pos (by simpa using h)

theorem cString_ne_zero {s : List UInt8} : ∀ a ∈ cString s, a ≠ 0 := by
  intro a ha
  simpa using List.mem_takeWhile_imp ha

/-- Bytes without a `NUL` among them, in front of others. -/
theorem cString_append {s : List UInt8} (h : ∀ a ∈ s, a ≠ 0) (t : List UInt8) :
    cString (s ++ t) = s ++ cString t :=
  List.takeWhile_append_of_pos fun a ha => by simpa using h a ha

/-- **`str_cmp`** finds no difference between equal strings only. -/
theorem strCmp_eq_zero_iff (s : List UInt8) : ∀ t, strCmp s t = 0 ↔ cString s = cString t := by
  induction s with
  | nil =>
    intro t
    rw [strCmp, cString_nul (s := []) rfl]
    cases t with
    | nil => simp [cString]
    | cons b t =>
      by_cases hb : b = 0
      · subst hb
        simp [cString]
      · have hb' : b.toNat ≠ 0 := fun h => hb (UInt8.toNat_inj.mp h)
        rw [cString_cons hb]
        simp [hb']
  | cons a s ih =>
    intro t
    rw [strCmp]
    by_cases ha : a ≠ 0 ∧ a = t.headD 0
    · rw [if_pos ha, ih, cString_cons ha.1]
      cases t with
      | nil => exact absurd ha.2 ha.1
      | cons b t =>
        obtain ⟨ha, rfl⟩ : a ≠ 0 ∧ a = b := ha
        rw [cString_cons ha, List.tail_cons, List.cons.injEq, and_iff_right rfl]
    · rw [if_neg ha, sub_eq_zero, Int.natCast_inj, UInt8.toNat_inj]
      constructor
      · intro he
        have ha0 : a = 0 := by
          by_contra hne
          exact ha ⟨hne, he⟩
        rw [cString_nul (s := a :: s) ha0, cString_nul (he.symm.trans ha0)]
      · intro he
        by_contra hne
        by_cases ha0 : a = 0
        · rw [cString_nul (s := a :: s) ha0] at he
          cases t with
          | nil => exact hne (ha0)
          | cons b t =>
            rw [List.headD_cons] at hne
            have hb : b ≠ 0 := fun hb => hne (ha0.trans hb.symm)
            rw [cString_cons hb] at he
            cases he
        · rw [cString_cons ha0] at he
          cases t with
          | nil => cases he
          | cons b t =>
            by_cases hb : b = 0
            · rw [cString_nul (s := b :: t) hb] at he
              cases he
            · rw [cString_cons hb] at he
              exact hne (List.cons.inj he).1

theorem strNcpy_eq (src : List UInt8) (n : Nat) : strNcpy src n =
    (cString src).take n ++ List.replicate (n - ((cString src).take n).length) 0 := rfl

/-- A name shorter than the field is stored with its end. -/
theorem cString_strNcpy {n : Nat} (h : (cString id).length < n) (rest : List UInt8) :
    cString (strNcpy id n ++ rest) = cString id := by
  have hend : List.replicate (n - (cString id).length) (0 : UInt8) =
      0 :: List.replicate (n - (cString id).length - 1) 0 := by
    rw [← List.replicate_succ]
    congr 1
    omega
  rw [strNcpy_eq, List.take_of_length_le h.le, hend, List.append_assoc,
    cString_append cString_ne_zero]
  exact List.append_nil _

/-- A name that fills the field is stored without its end. -/
theorem strNcpy_long {n : Nat} (h : n ≤ (cString id).length) :
    strNcpy id n = (cString id).take n := by
  rw [strNcpy_eq, List.length_take, Nat.min_eq_left h, Nat.sub_self]
  exact List.append_nil _

/-- What the comparison with `id` finds at a pipe that was named `w`. -/
theorem idBytes_iff {q : Pipe} {w : List UInt8} (hq : q.id = strNcpy w 32)
    (hshort : (cString id).length < 32) :
    strCmp q.idBytes id = 0 ↔ q.id = strNcpy id 32 := by
  rw [strCmp_eq_zero_iff, Pipe.idBytes, hq, List.append_assoc]
  by_cases hw : (cString w).length < 32
  · rw [cString_strNcpy hw]
    constructor
    · intro he
      rw [strNcpy_eq, strNcpy_eq, he]
    · intro he
      have hcut := congrArg (fun s => cString (s ++ [])) he
      simp only [cString_strNcpy hw, cString_strNcpy hshort] at hcut
      exact hcut
  · rw [not_lt] at hw
    have hfull : ∀ a ∈ strNcpy w 32, a ≠ 0 := by
      rw [strNcpy_long hw]
      exact fun a ha => cString_ne_zero a (List.mem_of_mem_take ha)
    have hlen : (strNcpy w 32).length = 32 := by
      rw [strNcpy_long hw, List.length_take]
      omega
    constructor
    · intro he
      have hl := congrArg List.length he
      rw [cString_append hfull, List.length_append, hlen] at hl
      omega
    · intro he
      have hcut := congrArg (fun s => (cString (s ++ [])).length) he
      simp only [cString_strNcpy hshort] at hcut
      rw [cString_append hfull, List.length_append, hlen] at hcut
      omega

/-! ### Pipes that have not been released are in use -/

/-- Every pipe that has not been released is in use. -/
def Standing (s : Store) : Prop :=
  ∀ pp, pp < s.nextPipe → (s.pipe pp).freed = false → (s.pipe pp).inUse = true

namespace Standing

variable {s s' : Store}

theorem setPipe (h : Standing s) (pp : PipeId) {f : PipeBody → PipeBody}
    (hf : (f (s.pipe pp)).freed = false → (f (s.pipe pp)).inUse = (s.pipe pp).inUse ∧
      (s.pipe pp).freed = false) : Standing (s.setPipe pp f) := by
  intro i hi hfreed
  by_cases hip : i = pp
  · subst hip
    have hself : (s.setPipe i f).pipe i = f (s.pipe i) := Function.update_self _ _ _
    rw [hself] at hfreed ⊢
    obtain ⟨hin, hold⟩ := hf hfreed
    rw [hin]
    exact h i hi hold
  · have hother : (s.setPipe pp f).pipe i = s.pipe i := Function.update_of_ne hip _ _
    rw [hother] at hfreed ⊢
    exact h i hi hfreed

theorem setRefs (h : Standing s) (x : ProcId × Fin fdMax) (d : FdEntry) (ops : FileOps)
    (pp : PipeId) (f : Nat → Nat) : Standing ((s.setSlot x d).setRefs ops pp f) := by
  intro i hi hfreed
  rw [Store.setRefs_nextPipe] at hi
  rw [Store.setRefs_freed] at hfreed
  rw [Store.setRefs_inUse]
  exact h i hi hfreed

/-- **Every edit of the table keeps `Standing`.** -/
theorem step (h : Standing s) {a : Act} (hm : TableStep a s s') : Standing s' := by
  cases hm with
  | same => exact h
  | sem id f => exact h
  | newProc => exact h
  | fill => exact h
  | clear => exact h
  | refer => exact h.setRefs _ _ _ _ _
  | drop => exact h.setRefs _ _ _ _ _
  | free => exact h.setPipe _ nofun
  | freeNamed => exact h.setPipe _ nofun
  | newPipe =>
    intro i hi hfreed
    by_cases hin : i = s.nextPipe
    · subst hin
      simp
    · dsimp only at hfreed ⊢
      rw [Function.update_of_ne hin] at hfreed ⊢
      exact h i (Nat.lt_of_le_of_ne (Nat.le_of_lt_succ hi) hin) hfreed
  | take pp size => exact h.setPipe pp fun hf => ⟨rfl, hf⟩
  | put pp buf => exact h.setPipe pp fun hf => ⟨rfl, hf⟩

end Standing

/-! ### The rows of the table -/

/-- The table is filled from the front, with pipes under the names they were given. -/
structure Rows (k : Kernel) : Prop where
  filled : ∀ i j, i < j → j < maxPipes → k.pipesTable j ≠ none → k.pipesTable i ≠ none
  born : ∀ i pp, k.pipesTable i = some pp → pp < k.nextPipe
  named : ∀ i pp, k.pipesTable i = some pp → ∃ w, (k.pipes pp).id = strNcpy w 32

/-- The first slot that holds the name `id` holds the pipe `pp`. -/
def Leads (id : List UInt8) (k : Kernel) (pp : PipeId) : Prop :=
  ∃ i < maxPipes, k.pipesTable i = some pp ∧ (k.pipes pp).id = strNcpy id 32 ∧
    ∀ j < i, ∃ pp', k.pipesTable j = some pp' ∧ (k.pipes pp').id ≠ strNcpy id 32

theorem Leads.unique (h : Leads id k pp) (h' : Leads id k pp') : pp = pp' := by
  obtain ⟨i, -, hi, hid, hlow⟩ := h
  obtain ⟨i', -, hi', hid', hlow'⟩ := h'
  have hii : i = i' := by
    rcases lt_trichotomy i i' with hlt | heq | hlt
    · obtain ⟨q, hq, hne⟩ := hlow' i hlt
      rw [hi] at hq
      cases hq
      exact absurd hid hne
    · exact heq
    · obtain ⟨q, hq, hne⟩ := hlow i' hlt
      rw [hi'] at hq
      cases hq
      exact absurd hid' hne
  rw [hii, hi'] at hi
  exact (Option.some.inj hi).symm

theorem ids_of_titles (h : k'.titles = k.titles) (pp : PipeId) :
    (k'.pipes pp).id = (k.pipes pp).id := congrFun (congrArg Prod.fst h) pp

theorem table_of_titles (h : k'.titles = k.titles) : k'.pipesTable = k.pipesTable :=
  congrArg (·.2.1) h

theorem next_of_titles (h : k'.titles = k.titles) : k'.nextPipe = k.nextPipe :=
  congrArg (·.2.2) h

theorem Rows.congr (hr : Rows k) (h : k'.titles = k.titles) : Rows k' := by
  obtain ⟨h1, h2, h3⟩ := hr
  refine ⟨?_, ?_, ?_⟩
  · rwa [table_of_titles h]
  · rwa [table_of_titles h, next_of_titles h]
  · simpa only [table_of_titles h, ids_of_titles h] using h3

theorem Leads.congr (hl : Leads id k pp) (h : k'.titles = k.titles) : Leads id k' pp := by
  simpa only [Leads, table_of_titles h, ids_of_titles h] using hl

theorem freePipeSlot_eq_some {i : Nat} (h : freePipeSlot k = some i) :
    i < maxPipes ∧ k.pipesTable i = none ∧ ∀ j < i, k.pipesTable j ≠ none := by
  obtain ⟨hnull, hi, hlow⟩ := List.find?_range_eq_some.mp h
  refine ⟨List.mem_range.mp hi, Option.isNone_iff_eq_none.mp hnull, fun j hj hn => ?_⟩
  have hused := hlow j hj
  rw [hn] at hused
  cases hused

/-- What `create_pipe` does to the titles. -/
theorem createPipe_cases (k : Kernel) (id junk : List UInt8) :
    ((createPipe k id junk).2 = none ∧ (createPipe k id junk).1.titles = k.titles) ∨
      ∃ i, freePipeSlot k = some i ∧ (createPipe k id junk).2 = some k.nextPipe ∧
        (createPipe k id junk).1.titles = (listPipe k i id junk).titles := by
  have halloc := objects_allocAll 5 k
  unfold createPipe
  split
  · exact .inl ⟨rfl, rfl⟩
  · rename_i i hi
    dsimp only
    split
    · refine .inr ⟨i, hi, congrArg some (nextPipe_of_objects halloc), ?_⟩
      simp only [Kernel.titles, listPipe, pipes_of_objects halloc, pipesTable_of_objects halloc,
        nextPipe_of_objects halloc]
    · exact .inl ⟨rfl, titles_of_objects halloc⟩

section
variable {i : Nat} (hr : Rows k) (hi : freePipeSlot k = some i)

include hr

theorem Rows.id_listPipe (w junk : List UInt8) (i : Nat) {j : Nat} (hj : k.pipesTable j = some pp) :
    ((listPipe k i w junk).pipes pp).id = (k.pipes pp).id := by
  have hne : pp ≠ k.nextPipe := (hr.born j pp hj).ne
  simp [listPipe, hne]

include hi

/-- A new pipe in the first free slot. -/
theorem Rows.fill (w junk : List UInt8) : Rows (listPipe k i w junk) := by
  obtain ⟨-, hnull, hlow⟩ := freePipeSlot_eq_some hi
  have htable : ∀ j, j ≠ i → (listPipe k i w junk).pipesTable j = k.pipesTable j :=
    fun j hj => Function.update_of_ne hj _ _
  refine ⟨?_, ?_, ?_⟩
  · intro a b hab hb hused
    by_cases ha : a = i
    · simp [listPipe, ha]
    · rw [htable a ha]
      by_cases hbi : b = i
      · exact hlow a (hbi ▸ hab)
      · rw [htable b hbi] at hused
        exact hr.filled a b hab hb hused
  · intro j pp hj
    by_cases hji : j = i
    · simp only [listPipe, hji, Function.update_self, Option.some.injEq] at hj
      exact hj ▸ Nat.lt_succ_self _
    · rw [htable j hji] at hj
      exact Nat.lt_succ_of_lt (hr.born j pp hj)
  · intro j pp hj
    by_cases hji : j = i
    · simp only [listPipe, hji, Function.update_self, Option.some.injEq] at hj
      exact ⟨w, by simp [listPipe, ← hj]⟩
    · rw [htable j hji] at hj
      rw [hr.id_listPipe w junk i hj]
      exact hr.named j pp hj

/-- The slots a name leads to lie in front of a new pipe. -/
theorem Leads.fill (hl : Leads id k pp) (w junk : List UInt8) :
    Leads id (listPipe k i w junk) pp := by
  obtain ⟨-, hnull, -⟩ := freePipeSlot_eq_some hi
  obtain ⟨j, hj, hpp, hid, hlow⟩ := hl
  have hkeep : ∀ a q, k.pipesTable a = some q → (listPipe k i w junk).pipesTable a = some q := by
    intro a q ha
    have hai : a ≠ i := by
      rintro rfl
      rw [hnull] at ha
      cases ha
    rw [← ha]
    exact Function.update_of_ne hai _ _
  refine ⟨j, hj, hkeep j pp hpp, by rw [hr.id_listPipe w junk i hpp, hid], fun a ha => ?_⟩
  obtain ⟨q, hq, hne⟩ := hlow a ha
  exact ⟨q, hkeep a q hq, by rwa [hr.id_listPipe w junk i hq]⟩

/-- A name that no slot holds leads to the pipe created under it. -/
theorem Rows.leads_new (hnone : ∀ j pp, k.pipesTable j = some pp → j < maxPipes →
    (k.pipes pp).id ≠ strNcpy id 32) (junk : List UInt8) :
    Leads id (listPipe k i id junk) k.nextPipe := by
  obtain ⟨hlt, -, hlow⟩ := freePipeSlot_eq_some hi
  refine ⟨i, hlt, by simp [listPipe], by simp [listPipe], fun j hj => ?_⟩
  obtain ⟨q, hq⟩ := Option.ne_none_iff_exists'.mp (hlow j hj)
  refine ⟨q, ?_, ?_⟩
  · rw [← hq]
    exact Function.update_of_ne hj.ne _ _
  · rw [hr.id_listPipe id junk i hq]
    exact hnone j q hq (hj.trans hlt)

end

/-! ### Steps -/

theorem titles_closeFds (p : ProcId) (is : List (Fin fdMax)) :
    ∀ k : Kernel, (closeFds k p is).titles = k.titles := by
  induction is with
  | nil => exact fun _ => rfl
  | cons i is ih => exact fun k => (ih _).trans (titles_closeSlot k p i)

theorem titles_of_pipeSide (h : k'.pipeSide = k.pipeSide) : k'.titles = k.titles :=
  congrArg Prod.fst (directory_of_pipeSide h)

/-- The last lines of `open_pipe`: the slot is filled and its end counted. -/
def attachEnd (k : Kernel) (c : ProcId) (i : Fin fdMax) (pp : PipeId) (mode : Int) : Kernel :=
  if mode = 0 then pipeAddRefRead (setFd k c i (pipeEntry pp .pipeRead)) pp
  else pipeAddRefWrite (setFd k c i (pipeEntry pp .pipeWrite)) pp

theorem titles_attachEnd (k : Kernel) (c : ProcId) (i : Fin fdMax) (pp : PipeId) (mode : Int) :
    (attachEnd k c i pp mode).titles = k.titles := by
  unfold attachEnd
  split
  · exact congrArg Prod.fst (directory_addRef (setFd k c i _) .pipeRead pp)
  · exact congrArg Prod.fst (directory_addRef (setFd k c i _) .pipeWrite pp)

theorem resource_attachEnd (k : Kernel) (c : ProcId) (i : Fin fdMax) (pp : PipeId) (mode : Int) :
    (((attachEnd k c i pp mode).procs c).fds i).resource = some pp := by
  unfold attachEnd
  split <;> simp [pipeAddRefRead, pipeAddRefWrite, Kernel.setPipe, setFd, Kernel.setProc, pipeEntry]

/-- The outcomes of `open_pipe`. -/
inductive OpenResult (k : Kernel) (c : ProcId) (i : Fin fdMax) (id junk : List UInt8) (mode : Int) :
    Kernel × Int → Prop where
  | badMode : OpenResult k c i id junk mode (k, -1)
  | found (pp : PipeId) (hf : findPipeById k id = some pp) :
      OpenResult k c i id junk mode (attachEnd k c i pp mode, 0)
  | noRoom (hf : findPipeById k id = none) (hc : (createPipe k id junk).2 = none) :
      OpenResult k c i id junk mode ((createPipe k id junk).1, -1)
  | created (pp : PipeId) (hf : findPipeById k id = none)
      (hc : (createPipe k id junk).2 = some pp) :
      OpenResult k c i id junk mode (attachEnd (createPipe k id junk).1 c i pp mode, 0)

theorem openPipe_result (k : Kernel) (c : ProcId) (i : Fin fdMax) (id junk : List UInt8)
    (mode : Int) : OpenResult k c i id junk mode (openPipe k c i id junk mode) := by
  have hend : ∀ (k₁ : Kernel) (pp : PipeId), (if mode = 0 then
        (pipeAddRefRead (setFd k₁ c i (pipeEntry pp .pipeRead)) pp, (0 : Int))
      else (pipeAddRefWrite (setFd k₁ c i (pipeEntry pp .pipeWrite)) pp, 0)) =
      (attachEnd k₁ c i pp mode, 0) := by
    intro k₁ pp
    unfold attachEnd
    split <;> rfl
  unfold openPipe
  split
  · exact .badMode
  · cases hf : findPipeById k id with
    | some pp =>
      dsimp only
      rw [hend]
      exact .found pp hf
    | none =>
      dsimp only
      split
      · rename_i hc
        exact .noRoom hf hc
      · rename_i pp hc
        rw [hend]
        exact .created pp hf hc

/-- **A step changes the titles as `create_pipe` does, if at all.** -/
theorem step_titles (hs : step k e = some (k', o)) :
    k'.titles = k.titles ∨ ∃ id junk, k'.titles = (createPipe k id junk).1.titles := by
  cases step_pipe hs with
  | same h => exact .inl (titles_of_pipeSide h)
  | pipeRead pp size hcall c hc r hr h =>
    exact .inl ((titles_of_pipeSide h).trans ((congrArg Prod.fst (directory_pipeRead hr)).trans
      (titles_of_objects (objects_entered k e))))
  | pipeWrite pp buf hcall c hc r hr h =>
    exact .inl ((titles_of_pipeSide h).trans ((congrArg Prod.fst (directory_pipeWrite hr)).trans
      (titles_of_objects (objects_entered k e))))
  | createPipe id junk he h => exact .inr ⟨id, junk, titles_of_pipeSide h⟩
  | openPipe id junk mode he c hc i hi h =>
    have hres := openPipe_result k c i id junk mode
    generalize openPipe k c i id junk mode = r at h hres
    have ht := titles_of_pipeSide h
    cases hres with
    | badMode => exact .inl ht
    | found pp => exact .inl (ht.trans (titles_attachEnd k c i pp mode))
    | noRoom => exact .inr ⟨id, junk, ht⟩
    | created pp => exact .inr ⟨id, junk, ht.trans (titles_attachEnd _ c i pp mode)⟩
  | closeName id he pp hpp h => exact .inl ((titles_of_pipeSide h).trans (titles_setPipe k pp rfl))
  | closeFd i he c hc h => exact .inl ((titles_of_pipeSide h).trans (titles_closeFds c [i] k))
  | kill p hp k₁ hk₁ code h =>
    have h₁ : k₁.titles = k.titles := by
      rcases hk₁ with rfl | rfl
      · rfl
      · exact titles_of_objects (objects_suspend k .exit)
    exact .inl ((titles_of_pipeSide h).trans ((titles_closeFds p _ _).trans
      ((congrArg Prod.fst (directory_killUnlink k₁ p code)).trans h₁)))
  | inherit a he k₁ hk₁ p s fds h =>
    exact .inl ((titles_of_pipeSide h).trans ((congrArg Prod.fst
      (directory_inheritLoop p s fds _ k₁)).trans (titles_of_pipeSide hk₁)))

theorem Rows.boot (f : Nat → Bool) : Rows (boot f) :=
  ⟨fun _ _ _ _ h => absurd rfl h, (fun _ _ h => nomatch h), (fun _ _ h => nomatch h)⟩

/-- No step moves a row, or turns a name to another pipe. -/
theorem Rows.step (hr : Rows k) (hs : step k e = some (k', o)) :
    Rows k' ∧ ∀ id pp, Leads id k pp → Leads id k' pp := by
  rcases step_titles hs with h | ⟨w, junk, h⟩
  · exact ⟨hr.congr h, fun _ _ hl => hl.congr h⟩
  · rcases createPipe_cases k w junk with ⟨-, hc⟩ | ⟨i, hi, -, hc⟩
    · exact ⟨hr.congr (h.trans hc), fun _ _ hl => hl.congr (h.trans hc)⟩
    · exact ⟨(hr.fill hi w junk).congr (h.trans hc),
        fun _ _ hl => (hl.fill hr hi w junk).congr (h.trans hc)⟩

/-- No pipe that has been created has been released. -/
def NoneFreed (k : Kernel) : Prop := ∀ pp < k.nextPipe, (k.pipes pp).freed = false

instance (k : Kernel) : Decidable (NoneFreed k) :=
  inferInstanceAs (Decidable (∀ pp < k.nextPipe, _ = _))

/-- **The search**, for a name of less than 32 bytes, while no pipe has been released. -/
theorem pipeMatches_iff (hr : Rows k) (hstand : Standing k.store) (hfree : NoneFreed k)
    (hshort : (cString id).length < 32) {i : Nat} (hi : k.pipesTable i = some pp) :
    pipeMatches k id i = true ↔ (k.pipes pp).id = strNcpy id 32 := by
  obtain ⟨w, hw⟩ := hr.named i pp hi
  have hu : (k.pipes pp).inUse = true :=
    hstand pp (hr.born i pp hi) (hfree pp (hr.born i pp hi))
  rw [pipeMatches, hi]
  dsimp only
  rw [hu, Bool.true_and, beq_iff_eq, idBytes_iff hw hshort]

theorem leads_of_find (hr : Rows k) (hstand : Standing k.store) (hfree : NoneFreed k)
    (hshort : (cString id).length < 32) (hf : findPipeById k id = some pp) : Leads id k pp := by
  obtain ⟨i, hi, hpp⟩ := Option.bind_eq_some_iff.mp hf
  obtain ⟨hmatch, hlt, hlow⟩ := List.find?_range_eq_some.mp hi
  refine ⟨i, List.mem_range.mp hlt, hpp,
    (pipeMatches_iff hr hstand hfree hshort hpp).mp hmatch, fun j hj => ?_⟩
  have hused := hr.filled j i hj (List.mem_range.mp hlt) (by rw [hpp]; exact Option.some_ne_none pp)
  obtain ⟨q, hq⟩ := Option.ne_none_iff_exists'.mp hused
  refine ⟨q, hq, fun hid => ?_⟩
  have hmiss := hlow j hj
  rw [(pipeMatches_iff hr hstand hfree hshort hq).mpr hid] at hmiss
  cases hmiss

theorem unnamed_of_find (hr : Rows k) (hstand : Standing k.store) (hfree : NoneFreed k)
    (hshort : (cString id).length < 32) (hf : findPipeById k id = none) :
    ∀ j pp, k.pipesTable j = some pp → j < maxPipes → (k.pipes pp).id ≠ strNcpy id 32 := by
  intro j pp hj hlt hid
  have hmatch := (pipeMatches_iff hr hstand hfree hshort hj).mpr hid
  have hfound : ((List.range maxPipes).find? (pipeMatches k id)).isSome :=
    List.find?_isSome.mpr ⟨j, List.mem_range.mpr hlt, hmatch⟩
  obtain ⟨i, hi⟩ := Option.isSome_iff_exists.mp hfound
  have hm := List.find?_some hi
  rw [findPipeById, hi, Option.bind_some] at hf
  rw [pipeMatches, hf] at hm
  cases hm

/-! ### Successful opens -/

/-- The pipe behind the descriptor that a successful `sys_pipe_open` of the name `id` hands
    out. -/
def openedPipe (id : List UInt8) (k : Kernel) (e : Event) : Option PipeId :=
  match e, k.currentProcess, step k e with
  | .sysPipeOpen id' _ _, some c, some (k', some (.other fd)) =>
    if h : cString id' = cString id ∧ 0 ≤ fd ∧ fd < fdMax then
      ((k'.procs c).fds ⟨fd.toNat, toNat_lt_fdMax h.2⟩).resource
    else none
  | _, _, _ => none

/-- All successful opens of the name `id` attach to one pipe. -/
def OnePipe (id : List UInt8) (tr : List (Kernel × Event × Option Completion)) : Prop :=
  ∀ x ∈ tr, ∀ y ∈ tr, ∀ pp ∈ openedPipe id x.1 x.2.1, ∀ pp' ∈ openedPipe id y.1 y.2.1, pp = pp'

theorem findPipeById_congr (h : cString id' = cString id) (k : Kernel) :
    findPipeById k id' = findPipeById k id := by
  have hm : pipeMatches k id' = pipeMatches k id := by
    funext i
    unfold pipeMatches
    cases k.pipesTable i with
    | none => rfl
    | some pp =>
      dsimp only
      rw [Bool.eq_iff_iff]
      simp only [Bool.and_eq_true, beq_iff_eq, strCmp_eq_zero_iff, h]
  rw [findPipeById, hm, findPipeById]

theorem strNcpy_congr (h : cString id' = cString id) : strNcpy id' 32 = strNcpy id 32 := by
  rw [strNcpy_eq, h, strNcpy_eq]

/-- What a successful open attaches to: the pipe that the name is found at, or a new one. -/
theorem openedPipe_cases (h : openedPipe id k e = some pp) : ∃ k' o, step k e = some (k', o) ∧
    (findPipeById k id = some pp ∧ k'.titles = k.titles ∨
      findPipeById k id = none ∧ ∃ j id' junk, freePipeSlot k = some j ∧
        cString id' = cString id ∧ pp = k.nextPipe ∧
        k'.titles = (listPipe k j id' junk).titles) := by
  unfold openedPipe at h
  split at h
  · rename_i id' junk mode c k' fd hc hs
    split at h
    · rename_i hfd
      obtain ⟨hname, h0, hlt⟩ := hfd
      refine ⟨k', some (.other fd), hs, ?_⟩
      have hcall : sysPipeOpen k id' junk mode = .ok (k', some (.other fd)) := step_attempt hs
      unfold sysPipeOpen at hcall
      split at hcall
      · cases hcall
        exact absurd h0 (by decide)
      · rw [hc] at hcall
        dsimp only at hcall
        split at hcall
        · cases hcall
          exact absurd h0 (by decide)
        · rename_i i hi
          split at hcall
          · rename_i hneg
            cases hcall
            omega
          · rename_i hok
            have hres := openPipe_result k c i id' junk mode
            generalize openPipe k c i id' junk mode = r at hcall hok hres
            cases hcall
            rw [show (⟨Int.toNat (i.val : Int), by omega⟩ : Fin fdMax) = i from rfl] at h
            rw [← findPipeById_congr hname]
            cases hres with
            | badMode => exact absurd (show (-1 : Int) < 0 by decide) hok
            | found q hf =>
              rw [resource_attachEnd] at h
              exact .inl ⟨hf.trans h, titles_attachEnd k c i q mode⟩
            | noRoom => exact absurd (show (-1 : Int) < 0 by decide) hok
            | created q hf hq =>
              rw [resource_attachEnd] at h
              rcases createPipe_cases k id' junk with ⟨hnone, -⟩ | ⟨j, hj, hnew, ht⟩
              · rw [hnone] at hq
                cases hq
              · rw [hnew] at hq
                exact .inr ⟨hf, j, id', junk, hj, hname, Option.some.inj (h.symm.trans hq.symm),
                  (titles_attachEnd _ c i q mode).trans ht⟩
    · cases h
  · cases h

/-- A successful open leaves the name leading to the pipe it attached to. -/
theorem Rows.leads_open (hr : Rows k) (hstand : Standing k.store) (hfree : NoneFreed k)
    (hshort : (cString id).length < 32) (ho : openedPipe id k e = some pp)
    (hs : TpeSo.step k e = some (k', o)) : Leads id k' pp := by
  obtain ⟨k₁, o₁, hs₁, hcases⟩ := openedPipe_cases ho
  rw [hs] at hs₁
  cases hs₁
  rcases hcases with ⟨hf, ht⟩ | ⟨hf, j, id', junk, hj, hname, rfl, ht⟩
  · exact (leads_of_find hr hstand hfree hshort hf).congr ht
  · have hnone := unnamed_of_find hr hstand hfree hshort hf
    rw [← strNcpy_congr hname] at hnone
    have hnew := (hr.leads_new hj hnone junk).congr ht
    rwa [Leads, strNcpy_congr hname] at hnew

/-- **Names of less than 32 bytes**, in a run that releases no pipe. -/
theorem onePipe_run (hshort : (cString id).length < 32)
    (h : Run f (fun k _ => NoneFreed k) tr k) : OnePipe id tr := by
  have hinv := h.invariant_history (fun tr k => Born .run k ∧ Standing k.store ∧ Rows k ∧
      ∀ x ∈ tr, ∀ pp ∈ openedPipe id x.1 x.2.1, Leads id k pp)
    ⟨.boot f, (fun _ hpp => absurd hpp (Nat.not_lt_zero _)), .boot f, (fun x hx => nomatch hx)⟩ ?_
  · exact fun x hx y hy pp hpp pp' hpp' =>
      (hinv.2.2.2 x hx pp hpp).unique (hinv.2.2.2 y hy pp' hpp')
  · rintro tr k₁ e k₂ o - ⟨hb, hstand, hr, hleads⟩ hfree hs
    obtain ⟨hb', hstand'⟩ := Does.invariant (fun φ k => Born φ k ∧ Standing k.store)
      (fun _ _ _ _ _ hI _ hm => ⟨hI.1.step hm, hI.2.step (hm.tableStep hI.1)⟩)
      (step_does hs) ⟨hb, hstand⟩
    obtain ⟨hr', hkeep⟩ := hr.step hs
    refine ⟨hb', hstand', hr', fun x hx pp hpp => ?_⟩
    rcases List.mem_append.mp hx with hx | hx
    · exact hkeep id pp (hleads x hx pp hpp)
    · rw [List.mem_singleton.mp hx] at hpp
      exact hr.leads_open hstand hfree hshort hpp hs

/-! ### Names that fill the field -/

/-- The bytes behind `lock` may be such that a name of 32 bytes or more is not found where
    it was stored. -/
theorem long_mismatch (hlong : 32 ≤ (cString id).length) : ∃ junk : List UInt8, ∀ q : Pipe,
    q.id = strNcpy id 32 → q.inUse = true → q.lock = true → q.junk = junk →
      strCmp q.idBytes id ≠ 0 := by
  have hbytes : ∀ (junk : List UInt8) (q : Pipe), q.id = strNcpy id 32 → q.inUse = true →
      q.lock = true → q.junk = junk → strCmp q.idBytes id = 0 →
        (cString id).drop 32 = 1 :: 1 :: cString junk := by
    intro junk q hq hu hl hj he
    have hfull : ∀ a ∈ strNcpy id 32, a ≠ 0 := by
      rw [strNcpy_long hlong]
      exact fun a ha => cString_ne_zero a (List.mem_of_mem_take ha)
    rw [strCmp_eq_zero_iff, Pipe.idBytes, hq, hu, hl, hj, List.append_assoc, cString_append hfull,
      strNcpy_long hlong] at he
    conv_rhs at he => rw [← List.take_append_drop 32 (cString id)]
    exact (List.append_cancel_left he).symm
  by_cases hd : (cString id).drop 32 = [1, 1]
  · refine ⟨[1], fun q hq hu hl hj he => ?_⟩
    have hno := hbytes [1] q hq hu hl hj he
    rw [hd] at hno
    exact absurd hno (by decide)
  · exact ⟨[], fun q hq hu hl hj he => hd (hbytes [] q hq hu hl hj he)⟩

theorem allocAll_eq (n : Nat) : ∀ k : Kernel, ∃ m, (allocAll k n).1 = { k with mallocOk := m } := by
  induction n with
  | zero => exact fun k => ⟨k.mallocOk, rfl⟩
  | succ n ih =>
    intro k
    rw [allocAll]
    split
    · exact ih k.alloc
    · exact ⟨_, rfl⟩

theorem allocAll_of_heapOk (n : Nat) : ∀ {k : Kernel}, k.HeapOk → (allocAll k n).2 = true := by
  induction n with
  | zero => exact fun _ => rfl
  | succ n ih =>
    intro k hk
    rw [allocAll, if_pos hk.kmalloc]
    exact ih hk.alloc

/-- A process in user mode whose descriptors are free from `fds` on, with a table that is free
    from `slots` on. -/
structure Roomy (k : Kernel) (c : ProcId) (fds slots : Nat) : Prop where
  heap : k.HeapOk
  user : k.inKernel = false
  current : k.currentProcess = some c
  fd : ∀ i : Fin fdMax, fds ≤ i.val → ((k.procs c).fds i).type = .none
  slot : ∀ j, slots ≤ j → j < maxPipes → k.pipesTable j = none

/-- `create_pipe` with a free slot and memory. -/
theorem createPipe_new {j : Nat} (hheap : k.HeapOk) (hj : freePipeSlot k = some j)
    (id junk : List UInt8) : ∃ m, createPipe k id junk =
      (listPipe { k with mallocOk := m } j id junk, some k.nextPipe) := by
  obtain ⟨m, hm⟩ := allocAll_eq 5 k
  refine ⟨m, ?_⟩
  unfold createPipe
  rw [hj]
  dsimp only
  rw [if_pos (allocAll_of_heapOk 5 hheap), hm]
  rfl

theorem Roomy.freeFd {c : ProcId} {a b : Nat} (h : Roomy k c a b) (ha : a < fdMax) :
    ∃ i, findFreeFd k c = some i ∧ i.val ≤ a := by
  have hfree : decide (((k.procs c).fds ⟨a, ha⟩).type = .none) = true :=
    decide_eq_true (h.fd ⟨a, ha⟩ le_rfl)
  obtain ⟨i, hi⟩ := Option.isSome_iff_exists.mp
    ((List.find?_isSome (p := fun i => decide (((k.procs c).fds i).type = .none))).mpr
      ⟨⟨a, ha⟩, List.mem_finRange _, hfree⟩)
  obtain ⟨-, n, hn, hget, hlow⟩ := List.find?_eq_some_iff_getElem.mp hi
  refine ⟨i, hi, ?_⟩
  by_contra hlt
  have hval : i.val = n := by rw [← hget, List.getElem_finRange]; rfl
  have hmiss := hlow a (by omega)
  rw [List.getElem_finRange] at hmiss
  rw [show Fin.cast _ (⟨a, _⟩ : Fin _) = ⟨a, ha⟩ from rfl, hfree] at hmiss
  cases hmiss

theorem Roomy.freeSlot {c : ProcId} {a b : Nat} (h : Roomy k c a b) (hb : b < maxPipes) :
    ∃ j, freePipeSlot k = some j ∧ j ≤ b := by
  have hfree : (k.pipesTable b).isNone = true :=
    Option.isNone_iff_eq_none.mpr (h.slot b le_rfl hb)
  obtain ⟨j, hj⟩ := Option.isSome_iff_exists.mp
    ((List.find?_isSome (p := fun i => (k.pipesTable i).isNone)).mpr
      ⟨b, List.mem_range.mpr hb, hfree⟩)
  refine ⟨j, hj, ?_⟩
  by_contra hlt
  exact (freePipeSlot_eq_some hj).2.2 b (by omega) (h.slot b le_rfl hb)

/-- An open of a name that is not found, by a process with room for it. -/
theorem Roomy.open_new {c : ProcId} {a b : Nat} (h : Roomy k c a b) (ha : a < fdMax)
    (hb : b < maxPipes) (hf : findPipeById k id = none) (junk : List UInt8) : ∃ k' o j,
    step k (.sysPipeOpen id junk 0) = some (k', o) ∧
      openedPipe id k (.sysPipeOpen id junk 0) = some k.nextPipe ∧
      Roomy k' c (a + 1) (b + 1) ∧ k'.nextPipe = k.nextPipe + 1 ∧
      k'.pipesTable = Function.update k.pipesTable j (some k.nextPipe) ∧
      k'.pipes = Function.update k.pipes k.nextPipe
        { id := strNcpy id 32, inUse := true, lock := true, junk := junk, readers := 1 } := by
  obtain ⟨i, hi, hia⟩ := h.freeFd ha
  obtain ⟨j, hj, hjb⟩ := h.freeSlot hb
  obtain ⟨m, hm⟩ := createPipe_new h.heap hj id junk
  generalize hA : ({ k with mallocOk := m } : Kernel) = A at hm
  have hopen : openPipe k c i id junk 0 =
      (attachEnd (listPipe A j id junk) c i k.nextPipe 0, 0) := by
    unfold openPipe
    rw [if_neg (by decide), hf]
    dsimp only
    rw [hm]
    rfl
  have hcall : sysPipeOpen k id junk 0 =
      .ok (attachEnd (listPipe A j id junk) c i k.nextPipe 0, some (.other i.val)) := by
    unfold sysPipeOpen
    rw [if_neg (by decide), h.current]
    dsimp only
    rw [hi]
    dsimp only
    rw [hopen]
    exact if_neg (lt_irrefl (0 : Int))
  have hstep : step k (.sysPipeOpen id junk 0) =
      some (attachEnd (listPipe A j id junk) c i k.nextPipe 0, some (.other i.val)) := by
    show (if k.inKernel then none else (sysPipeOpen k id junk 0).toOption) = _
    rw [h.user, hcall]
    rfl
  subst hA
  refine ⟨_, _, j, hstep, ?_, ⟨step_heapOk h.heap hstep, h.user, h.current, ?_, ?_⟩, rfl, rfl, ?_⟩
  · simp only [openedPipe, h.current, hstep]
    rw [dif_pos ⟨trivial, Int.natCast_nonneg _, Int.ofNat_lt.mpr i.isLt⟩]
    exact resource_attachEnd _ c i k.nextPipe 0
  · intro x hx
    have hxi : x ≠ i := by
      rintro rfl
      omega
    simp only [attachEnd, pipeAddRefRead, Kernel.setPipe, setFd, Kernel.setProc, listPipe, if_true,
      Function.update_self, Function.update_of_ne hxi]
    exact h.fd x (by omega)
  · intro x hx hlt
    have hxj : x ≠ j := by omega
    refine Eq.trans ?_ (h.slot x (by omega) hlt)
    exact Function.update_of_ne hxj _ _
  · simp only [attachEnd, pipeAddRefRead, Kernel.setPipe, setFd, Kernel.setProc, listPipe, if_true,
      Function.update_self, Function.update_idem]

/-- `idle` has been spawned and has the processor. -/
theorem roomy_start : ∃ tr k, Run (fun _ => true) (fun k _ => NoneFreed k) tr k ∧
    Roomy k 0 3 0 ∧ k.nextPipe = 0 ∧ ∀ j < maxPipes, k.pipesTable j = none := by
  have hcheck : execCheck step (fun k _ => NoneFreed k)
      (fun _ k => !k.inKernel && k.currentProcess == some 0 && k.nextPipe == 0 &&
        decide (∀ i : Fin fdMax, 3 ≤ i.val → ((k.procs 0).fds i).type = .none) &&
        decide (∀ j < maxPipes, k.pipesTable j = none))
      (boot fun _ => true)
      [.sysSpawn { entry := some 1, fds := none, background := false }, .timer] = true := by
    decide +kernel
  obtain ⟨tr, k, hrun, hQ⟩ := Trace.of_execCheck hcheck
  simp only [Bool.and_eq_true, beq_iff_eq, decide_eq_true_eq, Bool.not_eq_true'] at hQ
  obtain ⟨⟨⟨⟨huser, hc⟩, hnext⟩, hfd⟩, hslot⟩ := hQ
  have hheap : k.HeapOk :=
    hrun.invariant Kernel.HeapOk (fun _ => rfl) fun _ _ _ _ hk _ hs => step_heapOk hk hs
  exact ⟨tr, k, hrun, ⟨hheap, huser, hc, hfd, fun j _ hj => hslot j hj⟩, hnext, hslot⟩

/-- **Names of 32 bytes or more**: opened twice, they can lead to two pipes. -/
theorem twoPipes_run (hlong : 32 ≤ (cString id).length) :
    ∃ tr k, Run (fun _ => true) (fun k _ => NoneFreed k) tr k ∧ ¬ OnePipe id tr := by
  obtain ⟨junk, hjunk⟩ := long_mismatch hlong
  obtain ⟨tr, k, hrun, hroom, hnext, hempty⟩ := roomy_start
  have hmiss : ∀ {k : Kernel}, (∀ i < maxPipes, pipeMatches k id i = false) →
      findPipeById k id = none := by
    intro k hall
    have hnone : (List.range maxPipes).find? (pipeMatches k id) = none :=
      List.find?_eq_none.mpr fun i hi => by
        rw [hall i (List.mem_range.mp hi)]
        exact Bool.false_ne_true
    rw [findPipeById, hnone]
    rfl
  have hf : findPipeById k id = none := hmiss fun i hi => by
    rw [pipeMatches, hempty i hi]
  obtain ⟨k₁, o₁, j, hs₁, ho₁, hroom₁, hnext₁, htable₁, hpipes₁⟩ :=
    hroom.open_new (by decide) (by decide) hf junk
  have hf₁ : findPipeById k₁ id = none := hmiss fun i hi => by
    rw [pipeMatches, htable₁, hpipes₁]
    by_cases hij : i = j
    · rw [hij, Function.update_self]
      dsimp only
      rw [Function.update_self]
      have hne := hjunk
        { id := strNcpy id 32, inUse := true, lock := true, junk := junk, readers := 1 }
        rfl rfl rfl rfl
      rw [Bool.true_and, beq_eq_false_iff_ne]
      exact hne
    · rw [Function.update_of_ne hij, hempty i hi]
  obtain ⟨k₂, o₂, -, hs₂, ho₂, -⟩ := hroom₁.open_new (by decide) (by decide) hf₁ junk
  have hfree : NoneFreed k := fun pp hpp => absurd (hnext ▸ hpp) (Nat.not_lt_zero _)
  have hfree₁ : NoneFreed k₁ := by
    intro pp hpp
    rw [hnext₁, hnext, Nat.zero_add, Nat.lt_one_iff] at hpp
    rw [hpipes₁, hnext, hpp, Function.update_self]
  refine ⟨_, k₂, (hrun.snoc hfree hs₁).snoc hfree₁ hs₂, fun hone => ?_⟩
  have hsame := hone (k, .sysPipeOpen id junk 0, o₁) (by simp) (k₁, .sysPipeOpen id junk 0, o₂)
    (by simp) k.nextPipe ho₁ k₁.nextPipe ho₂
  rw [hnext₁] at hsame
  exact absurd hsame.symm (Nat.succ_ne_self _)

/-- **Opening by name.**  A name always leads to one and the same pipe, in every run in which
    no pipe is released, if and only if it has less than 32 bytes. -/
theorem openByName_iff (id : List UInt8) :
    (∀ f tr k, Run f (fun k _ => NoneFreed k) tr k → OnePipe id tr) ↔
      (cString id).length < 32 := by
  constructor
  · intro hall
    by_contra hlong
    obtain ⟨tr, k, hrun, hno⟩ := twoPipes_run (not_lt.mp hlong)
    exact hno (hall _ tr k hrun)
  · exact fun hshort f tr k => onePipe_run hshort

/-- A name of 32 bytes. -/
theorem openByName_splits : ¬ ∀ (id : List UInt8) f tr k,
    Run f (fun k _ => NoneFreed k) tr k → OnePipe id tr := by
  intro hall
  obtain ⟨tr, k, hrun, hno⟩ :=
    twoPipes_run (show 32 ≤ (cString (List.replicate 32 65)).length by decide)
  exact hno (hall _ _ tr k hrun)

end TpeSo
