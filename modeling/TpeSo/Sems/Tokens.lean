import TpeSo.Lib.Ledger
import TpeSo.Sems.Frame

namespace TpeSo

open Ds Lib

/-!
# Semaphores — tokens

A semaphore is compared with a ledger (`Lib/Ledger.lean`) over any run that begins with its
creation.

* `posts`, `takes`, `calls`, `hands` — what one entry means for semaphore `id`: a post, a
  token granted on the spot, a caller that has to wait, a waiter that is handed a token;
* `SemLedger L id tr k` — the semaphore and the history `tr` are what the ledger `L` says;
* `SemLedger.step` — every step is an entry into the ledger;
* `semTokens_run` — **conservation of tokens, no idle token while somebody waits, and waiters
  served in the order of their calls**.
-/

variable {φ ψ : Phase} {k k' k₀ k₁ : Kernel} {e : Event} {o : Option Completion} {id v : Nat}
  {tr : List (Kernel × Event × Option Completion)}

/-! ### The heap -/

@[simp] theorem heapOk_popWaiter (w : WaitRef) : (popWaiter k w).HeapOk ↔ k.HeapOk := by
  cases w <;> rfl

/-- No edit spoils a heap that never runs out. -/
theorem Micro.heapOk {a : Act} (h : Micro φ k a ψ k') (hk : k.HeapOk) : k'.HeapOk := by
  have hsuspend : ∀ (k : Kernel) w, k.HeapOk → (k.suspend w).HeapOk := by
    intro k w hk
    unfold Kernel.suspend
    split <;> exact hk
  cases h with
  | quiet hq => exact hq.heap hk
  | suspend => exact hsuspend k _ hk
  | @blockSelf _ c w =>
    refine (hsuspend (linkWaiter k w c) _ ?_).alloc
    cases w <;> first | exact hk | exact hk.alloc
  | blockSleep => exact (hsuspend (linkSleeper k _ _) _ hk.alloc).alloc
  | wakeSleeper | preempt | blockOther | unblock | wakeParent | semLinkNull | start =>
    exact hk.alloc
  | @wake _ _ w =>
    have hpop : (popWaiter k w).HeapOk := (heapOk_popWaiter w).mpr hk
    exact hpop.alloc
  | startBare => exact hk.alloc.alloc
  | kill p code =>
    show (unlinkWaiting (rmCurrent k p) p).HeapOk
    have hrm : (rmCurrent k p).HeapOk := by
      unfold rmCurrent
      split <;> exact hk
    unfold unlinkWaiting
    split <;> exact hrm
  | inherit j =>
    show (fdAddRef k _).HeapOk
    unfold fdAddRef
    split <;> exact hk
  | openRef ops => cases ops <;> exact hk
  | @dropRef _ _ _ _ ops => cases ops <;> exact hk
  | _ => exact hk

theorem step_heapOk (hk : k.HeapOk) (hs : step k e = some (k', o)) : k'.HeapOk :=
  (step_does hs).invariant (fun _ k => k.HeapOk) (fun _ _ _ _ _ hk _ hm => hm.heapOk hk) hk

/-! ### Reading a history -/

/-- A post that succeeded. -/
def posts (id : Nat) : Kernel × Event × Option Completion → Bool
  | (_, .sysSemPost i, some (.semPost _ ret)) => i == id && ret == 0
  | _ => false

/-- A wait or trywait that was granted its token on the spot. -/
def takes (id : Nat) : Kernel × Event × Option Completion → Bool
  | (_, .sysSemWait i, some (.semWait _ ret)) => i == id && ret == 0
  | (_, .sysSemTrywait i, some (.semTrywait _ ret)) => i == id && ret == 0
  | _ => false

/-- The caller of a wait that has to wait. -/
def calls (id : Nat) : Kernel × Event × Option Completion → Option ProcId
  | (k, .sysSemWait i, none) => if i = id then k.currentProcess else none
  | _ => none

/-- The waiter that a post dequeues. -/
def hands (id : Nat) : Kernel × Event × Option Completion → Option ProcId
  | (k, .sysSemPost i, _) => if i = id then firstWaiter k (.semaphore id) else none
  | _ => none

/-- Semaphore `id` is not destroyed, and only processes wait on it. -/
def SemStep (id : Nat) (k : Kernel) : Event → Prop
  | .sysCloseSem i => i ≠ id
  | .sysSemWait i => i = id → k.currentProcess ≠ none
  | _ => True

instance (id : Nat) (k : Kernel) (e : Event) : Decidable (SemStep id k e) := by
  rcases e with ⟨⟩ <;> dsimp only [SemStep] <;> infer_instance

/-! ### The ledger of a run -/

/-- The semaphore and its history are what the ledger says. -/
structure SemLedger (L : Ledger ProcId v) (id : Nat)
    (tr : List (Kernel × Event × Option Completion)) (k : Kernel) : Prop where
  isOpen : semIsOpen k id = true
  value : (k.semaphores id).value = L.value
  queue : (k.semaphores id).waitingQueue = L.queue.map some
  posts : tr.countP (posts id) = L.posts
  taken : tr.countP (takes id) = L.taken
  calls : tr.filterMap (calls id) = L.calls
  handed : tr.filterMap (hands id) = L.handed

namespace SemLedger

variable {L : Ledger ProcId v}

theorem first (h : SemLedger L id tr k) : firstWaiter k (.semaphore id) = L.queue.head? := by
  rw [firstWaiter, h.queue]
  cases L.queue <;> rfl

/-- The ledger `L'` is `L` with what the entry shows of `id` written into it. -/
theorem entry (h : SemLedger L id tr k) {L' : Ledger ProcId v}
    (hsem : (k'.semaphores id).watched =
      (L'.value, (k.semaphores id).inUse, L'.queue.map some))
    (hp : L.posts + (if TpeSo.posts id (k, e, o) then 1 else 0) = L'.posts)
    (ht : L.taken + (if takes id (k, e, o) then 1 else 0) = L'.taken)
    (hc : L.calls ++ (TpeSo.calls id (k, e, o)).toList = L'.calls)
    (hh : L.handed ++ (hands id (k, e, o)).toList = L'.handed) :
    SemLedger L' id (tr ++ [(k, e, o)]) k' := by
  obtain ⟨hvalue, hopen, hqueue⟩ : _ ∧ _ ∧ _ := by simpa [Semaphore.watched] using hsem
  refine ⟨?_, hvalue, hqueue, ?_, ?_, ?_, ?_⟩
  · have hk := h.isOpen
    unfold semIsOpen at hk ⊢
    rwa [hopen]
  · rw [← hp, List.countP_append, h.posts, List.countP_singleton]
  · rw [← ht, List.countP_append, h.taken, List.countP_singleton]
  · rw [← hc, List.filterMap_append, h.calls]
    cases hx : TpeSo.calls id (k, e, o) <;> simp [hx]
  · rw [← hh, List.filterMap_append, h.handed]
    cases hx : hands id (k, e, o) <;> simp [hx]

/-- An entry that shows nothing of `id` leaves the ledger as it is. -/
theorem idle (h : SemLedger L id tr k) (hsem : (k'.semaphores id).watched = (k.semaphores id).watched)
    (hp : TpeSo.posts id (k, e, o) = false) (ht : takes id (k, e, o) = false)
    (hc : TpeSo.calls id (k, e, o) = none) (hh : hands id (k, e, o) = none) :
    SemLedger L id (tr ++ [(k, e, o)]) k' := by
  refine h.entry ?_ (by simp [hp]) (by simp [ht]) (by simp [hc]) (by simp [hh])
  rw [hsem, Semaphore.watched, h.value, h.queue]

/-- Only the calls on `id` show something of it. -/
theorem offSem (h : SemLedger L id tr k) (hs : TpeSo.step k e = some (k', o)) (he : e.offSem id) :
    SemLedger L id (tr ++ [(k, e, o)]) k' := by
  refine h.idle (step_offSem hs he) ?_ ?_ ?_ ?_
  · cases e <;> try rfl
    cases o with
    | none => rfl
    | some c => cases c <;> simp [TpeSo.posts, show _ ≠ id from he]
  · cases e <;> try rfl
    all_goals
      cases o with
      | none => rfl
      | some c => cases c <;> simp [takes, show _ ≠ id from he]
  · cases e <;> try rfl
    cases o with
    | none => simp [TpeSo.calls, show _ ≠ id from he]
    | some c => rfl
  · cases e <;> try rfl
    simp [hands, show _ ≠ id from he]

/-- A semaphore in use is not created again. -/
theorem create (h : SemLedger L id tr k) {n : Nat}
    (hs : TpeSo.step k (.sysCreateSem id n) = some (k', o)) :
    SemLedger L id (tr ++ [(k, .sysCreateSem id n, o)]) k' := by
  rcases step_eq_some hs with ⟨-, -, h'⟩ | ⟨he, -⟩
  · have huse : ¬ (id < maxSemaphores ∧ (k.semaphores id).inUse = false) := by
      have hk := h.isOpen
      unfold semIsOpen at hk
      simp_all
    simp only [enter, mySemCreate, if_neg huse, done] at h'
    cases h'
    exact h.idle rfl rfl rfl rfl rfl
  · cases he

theorem post (h : SemLedger L id tr k) (hs : TpeSo.step k (.sysSemPost id) = some (k', o))
    (hlt : (tr ++ [(k, Event.sysSemPost id, o)]).countP (TpeSo.posts id) < word - v) :
    ∃ L' : Ledger ProcId v, SemLedger L' id (tr ++ [(k, .sysSemPost id, o)]) k' := by
  rcases step_eq_some hs with ⟨-, -, h'⟩ | ⟨he, -⟩
  · obtain ⟨r, hr, he⟩ := Outcome.bind_eq_ok.mp h'
    cases he
    cases hq : L.queue with
    | nil =>
      obtain ⟨hret, hsem⟩ := mySemPost_raise h.isOpen (by rw [h.first, hq]; rfl) hr
      have hp : TpeSo.posts id (k, .sysSemPost id, some (.semPost id r.2)) = true := by
        simp [TpeSo.posts, hret]
      have hfirst : hands id (k, .sysSemPost id, some (.semPost id r.2)) = none := by
        simp [hands, h.first, hq]
      refine ⟨L.raise hq, h.entry ?_ (by simp [hp, Ledger.raise]) rfl (List.append_nil _)
        (by simp [hfirst, Ledger.raise])⟩
      have hsmall : L.value + 1 < word := by
        have hle := L.value_le
        rw [List.countP_append, h.posts, List.countP_singleton, hp] at hlt
        simp only [if_true] at hlt
        omega
      rw [hsem, h.value, h.queue, hq, Nat.mod_eq_of_lt hsmall]
      simp [Ledger.raise, hq]
    | cons p q =>
      obtain ⟨hret, hsem⟩ := mySemPost_hand h.isOpen (by rw [h.first, hq]; rfl) hr
      have hp : TpeSo.posts id (k, .sysSemPost id, some (.semPost id r.2)) = true := by
        simp [TpeSo.posts, hret]
      have hfirst : hands id (k, .sysSemPost id, some (.semPost id r.2)) = some p := by
        simp [hands, h.first, hq]
      refine ⟨L.hand p q hq, h.entry ?_ (by simp [hp, Ledger.hand]) rfl (List.append_nil _)
        (by simp [hfirst, Ledger.hand])⟩
      rw [hsem, h.value, h.queue, hq]
      rfl
  · cases he

theorem wait (h : SemLedger L id tr k) (hheap : k.HeapOk) (hc : k.currentProcess ≠ none)
    (hs : TpeSo.step k (.sysSemWait id) = some (k', o)) :
    ∃ L' : Ledger ProcId v, SemLedger L' id (tr ++ [(k, .sysSemWait id, o)]) k' := by
  rcases step_eq_some hs with ⟨-, -, h'⟩ | ⟨he, -⟩
  · obtain ⟨r, hr, he⟩ := Outcome.bind_eq_ok.mp h'
    cases he
    obtain ⟨c, hc⟩ := Option.ne_none_iff_exists'.mp hc
    by_cases hv : L.value = 0
    · obtain ⟨hret, hsem⟩ := mySemWait_call h.isOpen (h.value.trans hv) hc hr
      refine ⟨L.call hv c, h.entry ?_ ?_ ?_ ?_ ?_⟩
      · rw [hsem, hheap.kmalloc, enqueue_true, h.value, h.queue]
        simp [Ledger.call]
      · simp [TpeSo.posts, Ledger.call]
      · simp [hret, takes, Ledger.call]
      · simp [hret, TpeSo.calls, hc, Ledger.call]
      · simp [hands, Ledger.call]
    · obtain ⟨hret, hsem⟩ := mySemWait_take h.isOpen (h.value ▸ Nat.pos_of_ne_zero hv) hr
      refine ⟨L.take (Nat.pos_of_ne_zero hv), h.entry ?_ ?_ ?_ ?_ ?_⟩
      · rw [hsem, h.value, h.queue]
        rfl
      · simp [TpeSo.posts, Ledger.take]
      · simp [hret, takes, Ledger.take]
      · simp [hret, TpeSo.calls, Ledger.take]
      · simp [hands, Ledger.take]
  · cases he

theorem trywait (h : SemLedger L id tr k) (hs : TpeSo.step k (.sysSemTrywait id) = some (k', o)) :
    ∃ L' : Ledger ProcId v, SemLedger L' id (tr ++ [(k, .sysSemTrywait id, o)]) k' := by
  rcases step_eq_some hs with ⟨-, -, h'⟩ | ⟨he, -⟩
  · obtain ⟨r, hr, he⟩ := Outcome.bind_eq_ok.mp h'
    cases he
    by_cases hv : L.value = 0
    · obtain ⟨hret, hsem⟩ := mySemTrywait_fail h.isOpen (h.value.trans hv) hr
      exact ⟨L, h.idle hsem rfl (by simp [takes, hret]) rfl rfl⟩
    · obtain ⟨hret, hsem⟩ := mySemTrywait_take h.isOpen (h.value ▸ Nat.pos_of_ne_zero hv) hr
      refine ⟨L.take (Nat.pos_of_ne_zero hv), h.entry ?_ rfl ?_ (List.append_nil _)
        (List.append_nil _)⟩
      · rw [hsem, h.value, h.queue]
        rfl
      · simp [hret, takes, Ledger.take]
  · cases he

/-- **Every step is an entry into the ledger.** -/
theorem step (h : SemLedger L id tr k) (hheap : k.HeapOk) (hok : SemStep id k e)
    (hs : TpeSo.step k e = some (k', o))
    (hlt : (tr ++ [(k, e, o)]).countP (TpeSo.posts id) < word - v) :
    ∃ L' : Ledger ProcId v, SemLedger L' id (tr ++ [(k, e, o)]) k' := by
  by_cases he : e.offSem id
  · exact ⟨L, h.offSem hs he⟩
  · cases e with
    | sysCreateSem i n =>
      obtain rfl : i = id := not_not.mp he
      exact ⟨L, h.create hs⟩
    | sysCloseSem i => exact absurd hok he
    | sysSemPost i =>
      obtain rfl : i = id := not_not.mp he
      exact h.post hs hlt
    | sysSemWait i =>
      obtain rfl : i = id := not_not.mp he
      exact h.wait hheap (hok rfl) hs
    | sysSemTrywait i =>
      obtain rfl : i = id := not_not.mp he
      exact h.trywait hs
    | _ => exact absurd trivial he

end SemLedger

/-! ### Whole runs -/

/-- The ledger of a semaphore that has just been created. -/
theorem SemLedger.created (hcreate : mySemCreate k₀ id v = (k, 0)) :
    SemLedger (Ledger.create ProcId v) id [] k := by
  unfold mySemCreate at hcreate
  split at hcreate
  · rename_i hid
    simp only at hcreate
    split at hcreate
    · obtain ⟨rfl, -⟩ := Prod.mk.inj hcreate
      refine ⟨?_, ?_, ?_, rfl, rfl, rfl, rfl⟩
      · simp [semIsOpen, hid.1]
      · simp [Ledger.create]
      · simp [Ledger.create]
    · cases (Prod.mk.inj hcreate).2
  · cases (Prod.mk.inj hcreate).2

/-- **Token conservation.**  In every run that begins with the creation of semaphore `id` with
    `v` tokens, and in which the value does not wrap around: the tokens put in are those left
    and those granted; while there is a token, nobody waits; and the waits that had to wait are
    handed their tokens in the order of the calls. -/
theorem semTokens_run (hcreate : mySemCreate k₀ id v = (k₁, 0)) (hheap : k₁.HeapOk)
    (h : Trace step (SemStep id) k₁ tr k) (hposts : tr.countP (posts id) < word - v) :
    v + tr.countP (posts id) = (k.semaphores id).value +
        (tr.countP (takes id) + (tr.filterMap (hands id)).length) ∧
      (0 < (k.semaphores id).value → (k.semaphores id).waitingQueue = []) ∧
      tr.filterMap (calls id) = tr.filterMap (hands id) ++ waiters k (.semaphore id) := by
  have hledger := h.invariant_history (fun tr k => k.HeapOk ∧
    (tr.countP (posts id) < word - v → ∃ L : Ledger ProcId v, SemLedger L id tr k)) ?_ ?_
  · obtain ⟨L, hL⟩ := hledger.2 hposts
    rw [hL.posts, hL.value, hL.taken, hL.handed, hL.calls, hL.queue]
    refine ⟨L.tokens, fun hv => by rw [L.idle hv]; rfl, ?_⟩
    rw [L.order, waiters, hL.queue, List.reduceOption]
    simp
  · exact ⟨hheap, fun _ => ⟨_, .created hcreate⟩⟩
  · rintro tr k e k' o - ⟨hk, hL⟩ hok hs
    refine ⟨step_heapOk hk hs, fun hlt => ?_⟩
    have hle : tr.countP (posts id) ≤ (tr ++ [(k, e, o)]).countP (posts id) := by
      rw [List.countP_append]
      exact Nat.le_add_right _ _
    obtain ⟨L, hL⟩ := hL (hle.trans_lt hlt)
    exact hL.step hk hok hs hlt

/-- `idle` takes the one token and waits for another; `init` tries in vain and posts twice. -/
def handOverEvents : List Event :=
  [.sysSpawn { entry := some 1, fds := none, background := false },
   .sysSpawn { entry := some 2, fds := none, background := true },
   .timer, .sysSemWait 5, .sysSemWait 5, .sysSemTrywait 5, .sysSemPost 5, .sysSemPost 5]

theorem semTokens_run_handOver : ∃ k₁ tr k, mySemCreate (boot fun _ => true) 5 1 = (k₁, 0) ∧
    Trace step (SemStep 5) k₁ tr k ∧ tr.filterMap (hands 5) = [0] ∧
    1 + 2 = (k.semaphores 5).value + (1 + 1) ∧
    tr.filterMap (calls 5) = tr.filterMap (hands 5) ++ waiters k (.semaphore 5) := by
  have hcheck : execCheck step (SemStep 5)
      (fun tr _ => tr.countP (posts 5) == 2 && tr.countP (takes 5) == 1 &&
        tr.filterMap (hands 5) == [0])
      (mySemCreate (boot fun _ => true) 5 1).1 handOverEvents = true := by decide +kernel
  obtain ⟨tr, k, hrun, hQ⟩ := Trace.of_execCheck hcheck
  simp only [Bool.and_eq_true, beq_iff_eq] at hQ
  obtain ⟨⟨hp, ht⟩, hh⟩ := hQ
  have hcreate : mySemCreate (boot fun _ => true) 5 1 =
      ((mySemCreate (boot fun _ => true) 5 1).1, 0) := rfl
  obtain ⟨htokens, -, horder⟩ := semTokens_run hcreate (fun _ => rfl) hrun (by rw [hp]; decide)
  rw [hp, ht, hh] at htokens
  exact ⟨_, tr, k, rfl, hrun, hh, htokens, horder⟩

end TpeSo
