import Mathlib.Data.Finset.Prod
import Mathlib.Data.Fintype.Basic
import TpeSo.Lib.Tally
import TpeSo.Pipes.Table

namespace TpeSo

open Ds Lib

/-!
# Pipes — the reference counts

The counters of a pipe are compared with the descriptor slots that refer to it.

* `Store.slotsOn` — the slots on one end of a pipe;
* `Refs` — the counters of every pipe that has not been released count its slots, and no
  slot refers to one that has;
* `Refs.overwrite` — overwriting one slot, with the counters following;
* `Refs.step` — every edit keeps `Refs`, when releases by name find no references.
-/

variable {s s' : Store}

/-! ### The slots on a pipe -/

namespace Store

/-- The slots of all processes that have been handed out. -/
def places (s : Store) : Finset (ProcId × Fin fdMax) := Finset.range s.nextProc ×ˢ Finset.univ

/-- The slots on the end of `pp` that `ops` stands for. -/
def slotsOn (s : Store) (ops : FileOps) (pp : PipeId) : Finset (ProcId × Fin fdMax) :=
  holders s.places (fun e => e.refers ops pp) s.slot

theorem mem_places {x : ProcId × Fin fdMax} : x ∈ s.places ↔ x.1 < s.nextProc := by
  simp [places]

end Store

/-! ### The invariant -/

/-- The counters of every live pipe count its slots; no slot refers to a released pipe. -/
structure Refs (s : Store) : Prop where
  unborn : ∀ x, s.nextProc ≤ x.1 → s.slot x = {}
  typed : ∀ x, (s.slot x).Typed
  live : ∀ x ops pp, (s.slot x).refers ops pp → pp < s.nextPipe ∧ (s.pipe pp).freed = false
  inUse : ∀ pp, (s.pipe pp).inUse = true → pp < s.nextPipe ∧ (s.pipe pp).freed = false
  count : ∀ ops pp, ops.isPipe → (s.pipe pp).freed = false →
    s.refs ops pp = (s.slotsOn ops pp).card

namespace Refs

theorem boot (f : Nat → Bool) : Refs (boot f).store where
  unborn _ _ := rfl
  typed _ := .empty
  live _ _ _ h := (FdEntry.not_refers_empty h).elim
  inUse _ h := nomatch h
  count ops pp _ _ := by
    have hz : ((TpeSo.boot f).store.slotsOn ops pp).card = 0 :=
      tally_eq_zero.mpr fun _ _ => FdEntry.not_refers_empty
    rw [hz]
    cases ops <;> rfl

theorem mem_slotsOn (h : Refs s) {x : ProcId × Fin fdMax} {ops : FileOps} {pp : PipeId} :
    x ∈ s.slotsOn ops pp ↔ (s.slot x).refers ops pp := by
  rw [Store.slotsOn, mem_holders, Store.mem_places, and_iff_right_iff_imp]
  intro hx
  by_contra hn
  rw [h.unborn x (Nat.le_of_not_lt hn)] at hx
  exact FdEntry.not_refers_empty hx

/-- Without counted references nothing refers to the pipe. -/
theorem not_refers (h : Refs s) {pp : PipeId} (hr : (s.pipe pp).readers = 0)
    (hw : (s.pipe pp).writers = 0) (x : ProcId × Fin fdMax) (ops : FileOps) :
    ¬ (s.slot x).refers ops pp := by
  intro hx
  have hc := h.count ops pp hx.1 (h.live x ops pp hx).2
  have hz : s.refs ops pp = 0 := by
    cases ops <;> first | exact hr | exact hw | rfl
  rw [hz, eq_comm, Finset.card_eq_zero] at hc
  have hmem := h.mem_slotsOn.mpr hx
  rw [hc] at hmem
  exact Finset.notMem_empty x hmem

/-- **Overwriting one slot**, with the counters following. -/
theorem overwrite (h : Refs s) {x : ProcId × Fin fdMax} (hx : x.1 < s.nextProc) {e : FdEntry}
    (hslot : s'.slot = Function.update s.slot x e) (hn : s'.nextProc = s.nextProc)
    (hnp : s'.nextPipe = s.nextPipe) (hfreed : ∀ pp, (s'.pipe pp).freed = (s.pipe pp).freed)
    (hin : ∀ pp, (s'.pipe pp).inUse = (s.pipe pp).inUse) (he : e.Typed)
    (hlive : ∀ ops pp, e.refers ops pp → pp < s.nextPipe ∧ (s.pipe pp).freed = false)
    (hrefs : ∀ ops pp, ops.isPipe → (s.pipe pp).freed = false →
      s'.refs ops pp + (if (s.slot x).refers ops pp then 1 else 0) =
        s.refs ops pp + (if e.refers ops pp then 1 else 0)) : Refs s' where
  unborn y hy := by
    have hne : y ≠ x := by
      rintro rfl
      exact absurd hx (not_lt.mpr (hn ▸ hy))
    rw [hslot, Function.update_of_ne hne]
    exact h.unborn y (hn ▸ hy)
  typed y := by
    rw [hslot]
    by_cases hy : y = x
    · subst hy
      rwa [Function.update_self]
    · rw [Function.update_of_ne hy]
      exact h.typed y
  live y ops pp hy := by
    rw [hslot] at hy
    rw [hnp, hfreed]
    by_cases hyx : y = x
    · subst hyx
      rw [Function.update_self] at hy
      exact hlive ops pp hy
    · rw [Function.update_of_ne hyx] at hy
      exact h.live y ops pp hy
  inUse pp hp := by
    rw [hnp, hfreed]
    exact h.inUse pp (hin pp ▸ hp)
  count ops pp hops hf := by
    rw [hfreed] at hf
    have hplaces : s'.places = s.places := by rw [Store.places, Store.places, hn]
    have htally := tally_update (P := fun e => e.refers ops pp) s.slot (Store.mem_places.mpr hx) e
    have hold := h.count ops pp hops hf
    have hnew := hrefs ops pp hops hf
    show _ = tally s'.places (fun e => e.refers ops pp) s'.slot
    rw [hplaces, hslot]
    change s.refs ops pp = tally s.places (fun e => e.refers ops pp) s.slot at hold
    omega

/-- Overwriting a slot that refers to nothing with one that refers to nothing. -/
theorem setSlot (h : Refs s) {x : ProcId × Fin fdMax} (hx : x.1 < s.nextProc) {e : FdEntry}
    (he : e.Typed) (hold : ∀ ops pp, ¬ (s.slot x).refers ops pp)
    (hnew : ∀ ops pp, ¬ e.refers ops pp) : Refs (s.setSlot x e) := by
  refine h.overwrite hx rfl rfl rfl (fun _ => rfl) (fun _ => rfl) he
    (fun ops pp hr => (hnew ops pp hr).elim) fun ops pp _ _ => ?_
  rw [if_neg (hold ops pp), if_neg (hnew ops pp)]
  rfl

/-- A new reference, in a slot that refers to nothing. -/
theorem addRef (h : Refs s) {x : ProcId × Fin fdMax} (hx : x.1 < s.nextProc) {e : FdEntry}
    (he : e.Typed) (hold : ∀ ops pp, ¬ (s.slot x).refers ops pp) {ops : FileOps} {pp : PipeId}
    (hr : e.refers ops pp) (hlive : pp < s.nextPipe ∧ (s.pipe pp).freed = false) :
    Refs ((s.setSlot x e).setRefs ops pp (· + 1)) := by
  refine h.overwrite hx (e := e) (by simp [Store.setSlot]) (by simp [Store.setSlot])
    (by simp [Store.setSlot]) (by simp [Store.setSlot]) (by simp [Store.setSlot]) he
    (fun ops' pp' hr' => ?_) fun ops' pp' _ _ => ?_
  · obtain ⟨rfl, rfl⟩ := FdEntry.refers_unique hr hr'
    exact hlive
  · have hiff : e.refers ops' pp' ↔ ops' = ops ∧ pp' = pp :=
      ⟨FdEntry.refers_unique hr, fun hs => hs.1 ▸ hs.2 ▸ hr⟩
    rw [Store.refs_setRefs _ hr.1, if_neg (hold ops' pp')]
    by_cases hsame : ops' = ops ∧ pp' = pp
    · rw [if_pos hsame, if_pos (hiff.mpr hsame), hsame.1, hsame.2]
      rfl
    · rw [if_neg hsame, if_neg (mt hiff.mp hsame)]
      rfl

/-- A reference less. -/
theorem dropRef (h : Refs s) {x : ProcId × Fin fdMax} {ops : FileOps} {pp : PipeId}
    (hr : (s.slot x).refers ops pp) : Refs ((s.setSlot x {}).setRefs ops pp (· - 1)) := by
  have hx : x.1 < s.nextProc := by
    have hmem := h.mem_slotsOn.mpr hr
    exact Store.mem_places.mp (mem_holders.mp hmem).1
  refine h.overwrite hx (e := {}) (by simp [Store.setSlot]) (by simp [Store.setSlot])
    (by simp [Store.setSlot]) (by simp [Store.setSlot]) (by simp [Store.setSlot]) .empty
    (fun _ _ hr' => (FdEntry.not_refers_empty hr').elim) fun ops' pp' _ hf => ?_
  rw [Store.refs_setRefs _ hr.1, if_neg FdEntry.not_refers_empty]
  by_cases hsame : ops' = ops ∧ pp' = pp
  · obtain ⟨rfl, rfl⟩ := hsame
    -- the slot itself is counted, so the counter is not `0`
    have hpos : 0 < s.refs ops' pp' := by
      rw [h.count ops' pp' hr.1 hf]
      exact Finset.card_pos.mpr ⟨x, h.mem_slotsOn.mpr hr⟩
    rw [if_pos ⟨rfl, rfl⟩, if_pos hr]
    show s.refs ops' pp' - 1 + 1 = s.refs ops' pp' + 0
    omega
  · rw [if_neg hsame, if_neg (mt (FdEntry.refers_unique hr) hsame)]
    rfl

/-- Releasing a pipe nothing refers to. -/
theorem free (h : Refs s) {pp : PipeId} (hr : (s.pipe pp).readers = 0)
    (hw : (s.pipe pp).writers = 0) : Refs (s.free pp) := by
  have hpipe : ∀ i, i ≠ pp → (s.free pp).pipe i = s.pipe i :=
    fun i hi => Function.update_of_ne hi _ _
  have hfreed : ((s.free pp).pipe pp).freed = true := by simp [Store.free, Store.setPipe]
  have hout : ((s.free pp).pipe pp).inUse = false := by simp [Store.free, Store.setPipe]
  refine ⟨h.unborn, h.typed, fun x ops i hx => ?_, fun i hi => ?_, fun ops i hops hf => ?_⟩
  · have hi : i ≠ pp := by
      rintro rfl
      exact h.not_refers hr hw x ops hx
    rw [hpipe i hi]
    exact h.live x ops i hx
  · have hi' : i ≠ pp := by
      rintro rfl
      simp [hout] at hi
    rw [hpipe i hi'] at hi ⊢
    exact h.inUse i hi
  · have hi : i ≠ pp := by
      rintro rfl
      simp [hfreed] at hf
    rw [hpipe i hi] at hf
    rw [show (s.free pp).refs ops i = s.refs ops i by
      cases ops <;> simp [Store.refs, hpipe i hi]]
    exact h.count ops i hops hf

theorem freeUnreferenced (h : Refs s) (pp : PipeId) : Refs (s.freeUnreferenced pp) := by
  unfold Store.freeUnreferenced
  split
  · rename_i hz
    exact h.free hz.1 hz.2
  · exact h

/-- An edit of a pipe that spares its counters and flags. -/
theorem setPipe (h : Refs s) (pp : PipeId) {f : PipeBody → PipeBody}
    (hr : (f (s.pipe pp)).readers = (s.pipe pp).readers)
    (hw : (f (s.pipe pp)).writers = (s.pipe pp).writers)
    (hi : (f (s.pipe pp)).inUse = (s.pipe pp).inUse)
    (hf : (f (s.pipe pp)).freed = (s.pipe pp).freed) : Refs (s.setPipe pp f) where
  unborn := h.unborn
  typed := h.typed
  live x ops i hx := by
    rw [Store.setPipe_spares PipeBody.freed hf]
    exact h.live x ops i hx
  inUse i hin := by
    rw [Store.setPipe_spares PipeBody.inUse hi] at hin
    rw [Store.setPipe_spares PipeBody.freed hf]
    exact h.inUse i hin
  count ops i hops hfr := by
    rw [Store.setPipe_spares PipeBody.freed hf] at hfr
    have hc := h.count ops i hops hfr
    cases ops with
    | pipeRead => exact (Store.setPipe_spares PipeBody.readers hr i).trans hc
    | pipeWrite => exact (Store.setPipe_spares PipeBody.writers hw i).trans hc
    | _ => exact hops.elim

/-- The semaphores play no part. -/
theorem setSem (h : Refs s) (id : Nat) (f : SemBody → SemBody) : Refs (s.setSem id f) :=
  ⟨h.unborn, h.typed, h.live, h.inUse, h.count⟩

/-- A new process without descriptors. -/
theorem newProc (h : Refs s) : Refs { s with
    nextProc := s.nextProc + 1
    slot := fun x => if x.1 = s.nextProc then {} else s.slot x } := by
  have hslot : (fun x => if x.1 = s.nextProc then {} else s.slot x) = s.slot := by
    funext x
    split
    · rename_i hx
      exact (h.unborn x hx.ge).symm
    · rfl
  rw [hslot]
  refine ⟨fun x hx => h.unborn x (Nat.le_of_succ_le hx), h.typed, h.live, h.inUse,
    fun ops pp hops hf => (h.count ops pp hops hf).trans ?_⟩
  refine tally_congr fun x => ?_
  simp only [Store.mem_places]
  refine ⟨fun ⟨hx, hr⟩ => ⟨Nat.lt_succ_of_lt hx, hr⟩, fun ⟨_, hr⟩ => ⟨?_, hr⟩⟩
  exact Store.mem_places.mp (mem_holders.mp (h.mem_slotsOn.mpr hr)).1

/-- A new pipe without references. -/
theorem newPipe (h : Refs s) (b : Ringbuf) : Refs { s with
    nextPipe := s.nextPipe + 1
    pipe := Function.update s.pipe s.nextPipe ⟨b, 0, 0, true, false⟩ } := by
  have hpipe : ∀ i, i < s.nextPipe →
      Function.update s.pipe s.nextPipe ⟨b, 0, 0, true, false⟩ i = s.pipe i :=
    fun i hi => Function.update_of_ne hi.ne _ _
  refine ⟨h.unborn, h.typed, fun x ops i hx => ?_, fun i hi => ?_, fun ops i hops hf => ?_⟩
  · obtain ⟨hi, hf⟩ := h.live x ops i hx
    exact ⟨Nat.lt_succ_of_lt hi, (congrArg PipeBody.freed (hpipe i hi)).trans hf⟩
  · by_cases hin : i = s.nextPipe
    · subst hin
      exact ⟨Nat.lt_succ_self _, by simp⟩
    · simp only [Function.update_of_ne hin] at hi ⊢
      exact ⟨Nat.lt_succ_of_lt (h.inUse i hi).1, (h.inUse i hi).2⟩
  · by_cases hin : i = s.nextPipe
    · subst hin
      -- nothing referred to the address before it was handed out
      have hz : (s.slotsOn ops s.nextPipe).card = 0 :=
        tally_eq_zero.mpr fun x _ hx => (h.live x ops _ hx).1.ne rfl
      show _ = (s.slotsOn ops s.nextPipe).card
      rw [hz]
      cases ops <;> simp [Store.refs]
    · simp only [Function.update_of_ne hin] at hf
      refine Eq.trans ?_ (h.count ops i hops hf)
      cases ops <;> simp [Store.refs, hin]

/-- Clearing a slot that refers to nothing. -/
theorem clear (h : Refs s) {x : ProcId × Fin fdMax} (hx : ∀ ops pp, ¬ (s.slot x).refers ops pp) :
    Refs (s.setSlot x {}) := by
  by_cases hlt : x.1 < s.nextProc
  · exact h.setSlot hlt .empty hx fun _ _ => FdEntry.not_refers_empty
  · have hs : s.setSlot x {} = s := by
      unfold Store.setSlot
      rw [← h.unborn x (not_lt.mp hlt), Function.update_eq_self]
    rwa [hs]

/-- **Every edit of the table keeps the counts**, when a pipe that is released by name has no
    references left. -/
theorem step (h : Refs s) {a : Act} (hm : TableStep a s s')
    (hfree : ∀ pp, a = .freeNamed pp → (s.pipe pp).readers = 0 ∧ (s.pipe pp).writers = 0) :
    Refs s' := by
  cases hm with
  | same => exact h
  | sem id f => exact h.setSem id f
  | newProc => exact h.newProc
  | @fill _ _ x e hx hold he hnew =>
    refine h.setSlot hx ?_ ((h.typed x).none hold) hnew
    rcases he with ⟨y, rfl⟩ | he
    · exact h.typed y
    · exact he
  | @refer _ _ x e ops pp hx hold hr he =>
    rcases he with ⟨y, rfl⟩ | ⟨he, hu⟩
    · exact h.addRef hx (h.typed y) ((h.typed x).none hold) hr (h.live y ops pp hr)
    · exact h.addRef hx he ((h.typed x).none hold) hr (h.inUse pp hu)
  | drop hr => exact h.dropRef hr
  | clear hr => exact h.clear hr
  | free hr hw => exact h.free hr hw
  | freeNamed => exact h.free (hfree _ rfl).1 (hfree _ rfl).2
  | newPipe => exact h.newPipe _
  | take pp size => exact h.setPipe pp rfl rfl rfl rfl
  | put pp buf => exact h.setPipe pp rfl rfl rfl rfl

end Refs

end TpeSo
