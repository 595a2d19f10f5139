import TpeSo.Acts.Completions
import TpeSo.Acts.Lives

namespace TpeSo

open Ds Lib

/-!
# Acts — the entries into the kernel as sequences of edits

* `does_pipeRead`, `does_pipeWrite`, `does_readLine` — the system calls that may wait;
* `does_enter`, `does_resume` — one lemma for each entry, with the occasion of every edit;
* `step_does` — **a step of the machine is a sequence of edits**.
-/

variable {C : Kernel → Act → Prop} {φ : Phase} {k k' : Kernel}

/-- `proc_pid_alloc` grants a free place of the table. -/
theorem procPidAlloc_eq_some {i : Nat} (h : procPidAlloc k = some i) :
    i < maxProcesses ∧ k.processTable i = none :=
  ⟨List.mem_range.mp (List.mem_of_find?_eq_some h), by simpa using List.find?_some h⟩

theorem Quiet.calm_suspend (k : Kernel) (w : Pending) : Calm k (k.suspend w) := by
  unfold Kernel.suspend
  split
  · exact (Quiet.refl k).toCalm
  · exact ⟨fun _ => rfl, fun _ hq => hq, fun _ => rfl, fun _ => rfl, rfl, id⟩

/-! ### Semaphores -/

theorem does_mySemCreate (id v : Nat) :
    Does (Cause k (.sysCreateSem id v)) (.run, k) (.run, (mySemCreate k id v).1) := by
  have hC := Common.cause k (.sysCreateSem id v)
  unfold mySemCreate
  split
  · rename_i hid
    simp only
    split
    · have hk : (k.alloc.setSem id fun s =>
          { s with waitingQueue := [], value := v, inUse := true, lock := true }) =
          releaseSem (k.alloc.setSem id fun s =>
            { s with waitingQueue := [], value := v, inUse := true }) id := by
        simp [releaseSem, Kernel.setSem]
      rw [hk]
      have hcreate : Micro .run k.alloc (.semCreate id v) .run _ := .semCreate hid.2
      exact .trans ((Quiet.alloc k).does hC) (.trans (.one hcreate ⟨rfl, trivial⟩)
        ((Quiet.releaseSem _ id).does hC))
    · exact (Quiet.alloc k).does hC
  · exact .refl _

theorem does_mySemDestroy (id : Nat) :
    Does (Cause k (.sysCloseSem id)) (.run, k) (.run, (mySemDestroy k id).1) := by
  unfold mySemDestroy
  split
  · exact .one (.semDestroy id) ⟨rfl, trivial⟩
  · exact .refl _

theorem does_mySemPost {id : Nat} {r : Kernel × Int} (h : mySemPost k id = .ok r) :
    Does (Cause k (.sysSemPost id)) (.run, k) (.run, r.1) := by
  have hC := Common.cause k (.sysSemPost id)
  unfold mySemPost at h
  split at h
  · obtain ⟨k₁, hacq, h⟩ := Outcome.bind_eq_ok.mp h
    refine .trans ((Quiet.acquireSem hacq).does hC) ?_
    simp only at h
    split at h
    · rename_i p hp
      cases h
      -- the lock is released before `proc_ready`
      show Does _ _ (_, procReady ((popWaiter k₁ (.semaphore id)).setSem id _) (some p))
      rw [procReady_setSem]
      exact .trans (.one (.wake (w := .semaphore id) (.inl rfl) hp) ⟨rfl, trivial⟩)
        ((Quiet.releaseSem _ id).does hC)
    · rename_i hp
      cases h
      exact .trans (.one (.semInc hp) ⟨rfl, trivial⟩) ((Quiet.releaseSem _ id).does hC)
  · cases h
    exact .refl _

/-- The queue a process links itself into does not depend on the lock, so that the lock may as well
    be released first. -/
theorem releaseSem_link {c : ProcId} (hc : k.currentProcess = some c) (id : Nat) :
    releaseSem (k.alloc.setSem id fun s =>
      { s with waitingQueue := enqueue k.kmalloc s.waitingQueue k.currentProcess }) id =
    linkWaiter (releaseSem k id) (.semaphore id) c := by
  simp [releaseSem, linkWaiter, Kernel.setSem, Kernel.alloc, Kernel.kmalloc, hc]

theorem does_mySemWait {id : Nat} {r : Kernel × Option Int} (h : mySemWait k id = .ok r) :
    Does (Cause k (.sysSemWait id)) (.run, k) (.run, r.1) := by
  have hC := Common.cause k (.sysSemWait id)
  unfold mySemWait at h
  split at h
  · obtain ⟨k₁, hacq, h⟩ := Outcome.bind_eq_ok.mp h
    refine .trans ((Quiet.acquireSem hacq).does hC) ?_
    have hcur := (Quiet.acquireSem hacq).toCalm.current
    split at h
    · rename_i hv
      cases h
      exact .trans (.one (.semTake hv) ⟨.inl rfl, trivial⟩) ((Quiet.releaseSem _ id).does hC)
    · simp only at h
      obtain ⟨k₂, hb, he⟩ := Outcome.bind_eq_ok.mp h
      cases he
      cases hc : k₁.currentProcess with
      | none =>
        have hc' : (releaseSem (k₁.alloc.setSem id fun s =>
            { s with waitingQueue := enqueue k₁.kmalloc s.waitingQueue none }) id).currentProcess =
            none := hc
        have hk : Kernel.suspend (releaseSem (k₁.alloc.setSem id fun s =>
            { s with waitingQueue := enqueue k₁.kmalloc s.waitingQueue none }) id)
            (.semWait id) = releaseSem (k₁.alloc.setSem id fun s =>
            { s with waitingQueue := enqueue k₁.kmalloc s.waitingQueue none }) id := by
          rw [Kernel.suspend, hc']
        rw [hc, hk, blockCurrent, hc'] at hb
        cases hb
        exact .trans (.one (.semLinkNull hc) ⟨rfl, trivial⟩) ((Quiet.releaseSem _ id).does hC)
      | some c =>
        rw [releaseSem_link hc] at hb
        refine .trans ((Quiet.releaseSem k₁ id).does hC) ?_
        have hT : Preempts (Cause k (.sysSemWait id)) (releaseSem k₁ id) :=
          .cause fun c hc => hcur.symm.trans hc
        exact does_blockCurrent hC hT (.semaphore id) (.semWait id) hc (by rfl)
          ⟨rfl, hcur.symm.trans hc⟩ hb
  · cases h
    exact .refl _

theorem does_mySemTrywait {id : Nat} {r : Kernel × Int} (h : mySemTrywait k id = .ok r) :
    Does (Cause k (.sysSemTrywait id)) (.run, k) (.run, r.1) := by
  have hC := Common.cause k (.sysSemTrywait id)
  unfold mySemTrywait at h
  split at h
  · obtain ⟨k₁, hacq, h⟩ := Outcome.bind_eq_ok.mp h
    refine .trans ((Quiet.acquireSem hacq).does hC) ?_
    split at h
    · rename_i hv
      cases h
      exact .trans (.one (.semTake hv) ⟨.inr rfl, trivial⟩) ((Quiet.releaseSem _ id).does hC)
    · cases h
      exact (Quiet.releaseSem _ id).does hC
  · cases h
    exact .refl _

/-! ### Pipes -/

theorem does_pipeRead (hC : Common C) (hT : Preempts C k) {c : ProcId} {pp : PipeId} {size : Nat}
    {r : Kernel × Option (List UInt8)} (htake : ∀ k, C k (.take pp))
    (hblock : ∀ k, C k (.blockSelf c (.pipeReaders pp) (.pipeRead pp size)))
    (hc : k.currentProcess = some c) (h : pipeRead k c pp size = .ok r) :
    Does C (.run, k) (.run, r.1) := by
  obtain ⟨k₁, hacq, h⟩ := Outcome.bind_eq_ok.mp h
  have hq := Quiet.acquirePipe hacq
  have hc₁ : k₁.currentProcess = some c := by rw [hq.current, hc]
  refine .trans (hq.does hC) ?_
  split at h
  · split at h
    · cases h
      exact (Quiet.releasePipe k₁ pp).does hC
    · obtain ⟨k₂, hb, he⟩ := Outcome.bind_eq_ok.mp h
      cases he
      refine .trans ((Quiet.releasePipe k₁ pp).does hC) ?_
      exact does_blockCurrent hC (hT.congr (hc₁.trans hc.symm)) (.pipeReaders pp) (.pipeRead pp size)
        hc₁ (by rfl) (hblock _) hb
  · cases h
    have hk : ∀ o, procReady (k₁.setPipe pp fun q =>
        { q with
          buffer := (ringbufRead (k₁.pipes pp).buffer size).1
          writersWaitQueue := (dequeue (k₁.pipes pp).writersWaitQueue).2 }) o =
        procReady (popWaiter (k₁.setPipe pp fun q =>
          { q with buffer := (ringbufRead q.buffer size).1 }) (.pipeWriters pp)) o := by
      intro o
      simp [popWaiter, Kernel.setPipe, dequeue]
    simp only
    rw [hk]
    have hserve := does_serve hC (.inl rfl) (k₁.setPipe pp fun q =>
      { q with buffer := (ringbufRead q.buffer size).1 }) (w := .pipeWriters pp) (.inr (.inl ⟨pp, rfl⟩))
    have hf : firstWaiter (k₁.setPipe pp fun q =>
        { q with buffer := (ringbufRead q.buffer size).1 }) (.pipeWriters pp) =
        (dequeue (k₁.pipes pp).writersWaitQueue).1 := by
      simp [firstWaiter, Kernel.setPipe, dequeue]
    rw [hf] at hserve
    exact .trans (.one (.take pp size) (htake _)) (.trans hserve
      ((Quiet.releasePipe _ pp).does hC))

theorem does_pipeWrite (hC : Common C) (hT : Preempts C k) {c : ProcId} {pp : PipeId} {buf : List UInt8}
    {r : Kernel × Option Int} (hput : ∀ k, C k (.put pp))
    (hblock : ∀ k, C k (.blockSelf c (.pipeWriters pp) (.pipeWrite pp buf)))
    (hc : k.currentProcess = some c) (h : pipeWrite k c pp buf = .ok r) :
    Does C (.run, k) (.run, r.1) := by
  obtain ⟨k₁, hacq, h⟩ := Outcome.bind_eq_ok.mp h
  have hq := Quiet.acquirePipe hacq
  have hc₁ : k₁.currentProcess = some c := by rw [hq.current, hc]
  refine .trans (hq.does hC) ?_
  split at h
  · split at h
    · cases h
      exact (Quiet.releasePipe k₁ pp).does hC
    · obtain ⟨k₂, hb, he⟩ := Outcome.bind_eq_ok.mp h
      cases he
      refine .trans ((Quiet.releasePipe k₁ pp).does hC) ?_
      exact does_blockCurrent hC (hT.congr (hc₁.trans hc.symm)) (.pipeWriters pp) (.pipeWrite pp buf)
        hc₁ (by rfl) (hblock _) hb
  · cases h
    have hk : ∀ o, procReady (k₁.setPipe pp fun q =>
        { q with
          buffer := (ringbufWrite (k₁.pipes pp).buffer buf).1
          readersWaitQueue := (dequeue (k₁.pipes pp).readersWaitQueue).2 }) o =
        procReady (popWaiter (k₁.setPipe pp fun q =>
          { q with buffer := (ringbufWrite q.buffer buf).1 }) (.pipeReaders pp)) o := by
      intro o
      simp [popWaiter, Kernel.setPipe, dequeue]
    simp only
    rw [hk]
    have hserve := does_serve hC (.inl rfl) (k₁.setPipe pp fun q =>
      { q with buffer := (ringbufWrite q.buffer buf).1 }) (w := .pipeReaders pp) (.inl ⟨pp, rfl⟩)
    have hf : firstWaiter (k₁.setPipe pp fun q =>
        { q with buffer := (ringbufWrite q.buffer buf).1 }) (.pipeReaders pp) =
        (dequeue (k₁.pipes pp).readersWaitQueue).1 := by
      simp [firstWaiter, Kernel.setPipe, dequeue]
    rw [hf] at hserve
    exact .trans (.one (.put pp buf) (hput _)) (.trans hserve
      ((Quiet.releasePipe _ pp).does hC))

theorem Quiet.allocAll (n : Nat) : ∀ k : Kernel, Quiet k (allocAll k n).1 := by
  induction n with
  | zero => intro k; exact .refl k
  | succ n ih =>
    intro k
    rw [TpeSo.allocAll]
    split
    · exact (Quiet.alloc k).trans (ih k.alloc)
    · exact .alloc k

/-- `create_pipe`, and what it hands out: a pipe in use. -/
theorem does_createPipe (hC : Common C) (hnew : ∀ k pp, C k (.newPipe pp))
    (k : Kernel) (id junk : List UInt8) :
    Does C (.run, k) (.run, (createPipe k id junk).1) ∧
      (createPipe k id junk).1.procs = k.procs ∧
      (createPipe k id junk).1.currentProcess = k.currentProcess ∧
      ∀ pp, (createPipe k id junk).2 = some pp →
        ((createPipe k id junk).1.pipes pp).inUse = true := by
  have hprocs : ∀ n (k : Kernel), (allocAll k n).1.procs = k.procs ∧
      (allocAll k n).1.currentProcess = k.currentProcess := by
    intro n
    induction n with
    | zero => intro k; exact ⟨rfl, rfl⟩
    | succ n ih =>
      intro k
      rw [allocAll]
      split
      · exact ih k.alloc
      · exact ⟨rfl, rfl⟩
  unfold createPipe
  split
  · exact ⟨.refl _, rfl, rfl, by simp⟩
  · rename_i i _
    have hq := Quiet.allocAll 5 k
    obtain ⟨hp, hcur⟩ := hprocs 5 k
    generalize allocAll k 5 = r at hq hp hcur ⊢
    simp only
    split
    · refine ⟨.trans (hq.does hC) (.one (.newPipe _ junk) (hnew _ _)), hp, hcur, ?_⟩
      intro pp hpp
      simp only [Option.some.injEq] at hpp
      simp [hpp]
    · exact ⟨hq.does hC, hp, hcur, by simp⟩

theorem findPipeById_inUse {id : List UInt8} {pp : PipeId} (h : findPipeById k id = some pp) :
    (k.pipes pp).inUse = true := by
  obtain ⟨i, hi, hpp⟩ := Option.bind_eq_some_iff.mp h
  have hm := List.find?_some hi
  simp only [pipeMatches, hpp, Bool.and_eq_true] at hm
  exact hm.1

theorem does_openPipe (hC : Common C) (hnew : ∀ k pp, C k (.newPipe pp)) {c : ProcId}
    (i : Fin fdMax) (id junk : List UInt8) (mode : Int) (hc : k.currentProcess = some c)
    (hi : ((k.procs c).fds i).type = .none) :
    Does C (.run, k) (.run, (openPipe k c i id junk mode).1) := by
  -- the reference is counted after the descriptor is stored, on a pipe that is in use
  have hend : ∀ (k₁ : Kernel) (pp : PipeId), k₁.procs = k.procs →
      k₁.currentProcess = k.currentProcess → (k₁.pipes pp).inUse = true →
      Does C (.run, k₁) (.run, (if mode = 0 then
        (pipeAddRefRead (setFd k₁ c i (pipeEntry pp .pipeRead)) pp, (0 : Int))
        else (pipeAddRefWrite (setFd k₁ c i (pipeEntry pp .pipeWrite)) pp, 0)).1) := by
    intro k₁ pp hprocs hcur hu
    rw [← hcur] at hc
    rw [← hprocs] at hi
    split
    · exact .one (.openRef .pipeRead hc hi hu trivial) (hC _ _ trivial)
    · exact .one (.openRef .pipeWrite hc hi hu trivial) (hC _ _ trivial)
  unfold openPipe
  split
  · exact .refl _
  · cases hf : findPipeById k id with
    | some pp => exact hend k pp rfl rfl (findPipeById_inUse hf)
    | none =>
      obtain ⟨hd, hprocs, hcur, hu⟩ := does_createPipe hC hnew k id junk
      generalize createPipe k id junk = r at hd hprocs hcur hu
      obtain ⟨k₁, o⟩ := r
      cases o with
      | none => exact hd
      | some pp => exact hd.trans (hend k₁ pp hprocs hcur (hu pp rfl))

/-! ### The keyboard -/

theorem Quiet.getLine (k : Kernel) (count : Nat) : Quiet k (getLine k count).1 := by
  unfold TpeSo.getLine
  split
  · simp only
    split
    · exact .unwatched rfl rfl rfl rfl rfl id
    · exact .unwatched rfl rfl rfl rfl rfl id
  · exact .unwatched rfl rfl rfl rfl rfl id

theorem does_readLine (hC : Common C) (hT : Preempts C k) {c : ProcId} {count : Nat} {buf0 : UInt8}
    {r : Kernel × Option LineResult} (hc : k.currentProcess = some c)
    (hblock : ∀ k, C k (.blockSelf c .keyboard (.readLine count buf0)))
    (h : readLine k c count buf0 = .ok r) : Does C (.run, k) (.run, r.1) := by
  obtain ⟨n, -, h⟩ := Outcome.bind_eq_ok.mp h
  split at h
  · split at h
    · cases h
      exact .refl _
    · obtain ⟨k₁, hb, he⟩ := Outcome.bind_eq_ok.mp h
      cases he
      refine does_blockCurrent hC hT (c := c) .keyboard (.readLine count buf0) hc ?_ (hblock k) hb
      trivial
  · cases h
    exact (Quiet.getLine k count).does hC

theorem does_readFromKeyboard (hC : Common C) (hT : Preempts C k) {c : ProcId} {count : Nat} {buf0 : UInt8}
    {r : Kernel × Option LineResult} (hc : k.currentProcess = some c)
    (hblock : ∀ k, C k (.blockSelf c .keyboard (.readLine count buf0)))
    (h : readFromKeyboard k c count buf0 = .ok r) : Does C (.run, k) (.run, r.1) := by
  unfold readFromKeyboard at h
  split at h
  · cases h
    exact .refl _
  · split at h
    · cases h
      exact .refl _
    · exact does_readLine hC hT hc hblock h

theorem Quiet.kbuffPut (k : Kernel) (c : UInt8) : Quiet k (kbuffPut k c) :=
  .unwatched rfl rfl rfl rfl rfl id

theorem Quiet.setLineLen (k : Kernel) (n : Int) : Quiet k { k with currentLineLen := n } :=
  .unwatched rfl rfl rfl rfl rfl id

theorem does_wakeReader (hC : Common C) (k : Kernel) :
    Does C (.run, k) (.run, wakeReader k) :=
  does_serve hC (.inl rfl) k (.inr (.inr rfl))

theorem does_handleCtrlD (hC : Common C) (k : Kernel) :
    Does C (.run, k) (.run, handleCtrlD k) := by
  unfold handleCtrlD
  split
  · simp only
    refine .trans (Quiet.does hC ?_) (does_wakeReader hC _)
    split
    · exact (Quiet.kbuffPut k veof).trans (.kbuffPut _ newline)
    · exact .kbuffPut k newline
  · exact .refl _

theorem does_handleChar (hC : Common C) (k : Kernel) (c : UInt8) :
    Does C (.run, k) (.run, handleChar k c) := by
  unfold handleChar
  split
  · split
    · exact Quiet.does hC (.unwatched rfl rfl rfl rfl rfl id)
    · exact .refl _
  · split
    · have hq : Quiet k (kbuffPut (kbuffPut (kbuffPut (kbuffPut k space) space) space) space) :=
        (Quiet.kbuffPut k space).trans ((Quiet.kbuffPut _ space).trans
          ((Quiet.kbuffPut _ space).trans (.kbuffPut _ space)))
      exact (hq.trans (.setLineLen _ _)).does hC
    · simp only
      -- the printable character, the end of a line, and what a raw read waits for
      have h₁ : Does C (.run, k) (.run, if 32 ≤ c ∧ c ≤ 126 then
          { kbuffPut k c with currentLineLen := k.currentLineLen + 1 } else k) := by
        split
        · exact Quiet.does hC (.unwatched rfl rfl rfl rfl rfl id)
        · exact .refl _
      generalize (if 32 ≤ c ∧ c ≤ 126 then
        { kbuffPut k c with currentLineLen := k.currentLineLen + 1 } else k) = k₁ at h₁ ⊢
      have h₂ : Does C (.run, k₁) (.run, if c = newline then
          { (if (kbuffPut k₁ c).canonicalMode = true then wakeReader (kbuffPut k₁ c)
              else kbuffPut k₁ c) with currentLineLen := 0 } else k₁) := by
        split
        · refine .trans ((Quiet.kbuffPut k₁ c).does hC) (.trans ?_
            ((Quiet.setLineLen _ 0).does hC))
          split
          · exact does_wakeReader hC _
          · exact .refl _
        · exact .refl _
      generalize (if c = newline then
          { (if (kbuffPut k₁ c).canonicalMode = true then wakeReader (kbuffPut k₁ c)
              else kbuffPut k₁ c) with currentLineLen := 0 } else k₁) = k₂ at h₂ ⊢
      refine .trans h₁ (.trans h₂ ?_)
      split
      · exact does_wakeReader hC k₂
      · exact .refl _

theorem does_handleKeyPress (hC : Common C) {sc : Nat}
    (hkill : ∀ p k₁, killTarget k (.key sc) = some p → Quiet k k₁ → C k₁ (.kill p))
    (h : handleKeyPress k sc = .ok k') : Does C (.run, k) (.run, k') := by
  unfold handleKeyPress at h
  split at h
  -- the modifier keys only note themselves
  any_goals (cases h; exact Quiet.does hC (.unwatched rfl rfl rfl rfl rfl id))
  split at h
  · cases h
    exact .refl _
  · rename_i key hkey
    unfold handleKey at h
    split at h
    · cases h
      exact does_handleCtrlD hC k
    · split at h
      · rename_i hctrl
        refine does_procKill hC ?_ h
        intro p k₁ hp hq
        refine hkill p k₁ ?_ hq
        simp only [killTarget, hctrl.1, hkey, Option.map_some, hctrl.2, and_self, if_true]
        exact hp
      · split at h
        · cases h
          exact Quiet.does hC (.unwatched rfl rfl rfl rfl rfl id)
        · cases h
          exact does_handleChar hC k _

/-! ### Blocking by pid -/

/-- `block` of a process that is not the current one. -/
theorem does_blockOther (hC : Common C) (hT : Preempts C k) {p : ProcId} (hblock : C k (.blockOther p))
    (hp : k.currentProcess ≠ some p)
    (hs : (k.procs p).status ≠ .zombie ∧ (k.procs p).status ≠ .dead ∧
      (k.procs p).status ≠ .blocked)
    (h : block k p .arbitrary .null = .ok k') : Does C (.run, k) (.run, k') := by
  refine .trans (.one (.blockOther hp hs) hblock) ?_
  unfold block at h
  simp only at h
  split at h
  · cases h
    exact .refl _
  · split at h
    · exact does_yield hC hT h
    · cases h
      exact .refl _

theorem does_sysBlock {pid : Int} {r : Kernel × Option Int}
    (h : blockProcessByPid k (toPid pid) = .ok r) :
    Does (Cause k (.sysBlock pid)) (.run, k) (.run, r.1) := by
  have hC := Common.cause k (.sysBlock pid)
  have hT : Preempts (Cause k (.sysBlock pid)) k := .cause fun _ hc => hc
  obtain ⟨o, ho, h⟩ := Outcome.bind_eq_ok.mp h
  cases o with
  | none =>
    cases h
    exact .refl _
  | some p =>
    have htarget : blockTarget k (.sysBlock pid) = some p := by
      simp only [blockTarget, ho]
    simp only at h
    split at h
    · cases h
      exact .refl _
    · rename_i hzd
      split at h
      · cases h
        exact .refl _
      · rename_i hb
        have hs : (k.procs p).status ≠ .zombie ∧ (k.procs p).status ≠ .dead ∧
            (k.procs p).status ≠ .blocked := by tauto
        split at h
        · obtain ⟨k₁, hk₁, he⟩ := Outcome.bind_eq_ok.mp h
          cases he
          by_cases hc : k.currentProcess = some p
          · have hb' : blockCurrent (k.suspend .block) .arbitrary .null = .ok k₁ := by
              rw [blockCurrent, suspend_currentProcess, hc]
              exact hk₁
            exact does_blockCurrent_null hC hT hc (by trivial) ⟨trivial, hc⟩ hb'
          · -- two processes of one pid: the caller yields, but it is the other that blocks
            refine .trans (.one (.suspend (w := .block) trivial) ⟨trivial, rfl⟩) ?_
            refine does_blockOther hC (hT.congr (suspend_currentProcess k _)) ⟨trivial, htarget⟩ ?_ ?_ hk₁
            · rw [suspend_currentProcess]
              exact hc
            · have hst := (Quiet.calm_suspend k .block).status p
              rw [hst]
              exact hs
        · rename_i hself
          obtain ⟨k₁, hk₁, he⟩ := Outcome.bind_eq_ok.mp h
          cases he
          refine does_blockOther hC hT ⟨trivial, htarget⟩ ?_ hs hk₁
          intro hc
          exact hself (by simp [blocksItself, hc])

/-! ### The system calls -/

theorem does_sleepHelper {e : Event} {n : Nat} (he : sleepTick k e = some (wakeUpTick k n))
    (h : sleepHelper k n = .ok k') : Does (Cause k e) (.run, k) (.run, k') := by
  have hC := Common.cause k e
  unfold sleepHelper at h
  split at h
  · cases h
  · rename_i c hc
    simp only at h
    split at h
    · have hc' : (linkSleeper k.alloc c (wakeUpTick k n)).currentProcess = some c := hc
      refine .trans ((Quiet.alloc k).does hC) ?_
      refine .trans (.one (.blockSleep (wakeUpTick k n) hc) ⟨⟨(Quiet.alloc k).toCalm, he⟩, hc⟩) ?_
      have hT : Preempts (Cause k e) (linkSleeper k.alloc c (wakeUpTick k n)) :=
        .cause fun _ h => (hc.trans hc'.symm).trans h
      refine does_leave hC hT hc' ?_
      have hb : blockCurrent ((linkSleeper k.alloc c (wakeUpTick k n)).suspend .sleep) .sleep
          .sleepers = .ok k' := h
      rw [blockCurrent, suspend_currentProcess, hc'] at hb
      exact hb
    · cases h

theorem Quiet.changePriority_parts (k : Kernel) (p : ProcId) (n : Nat) :
    (k.setProc p fun q => { q with priority := n, hasQuantum := n }) =
      (k.setProc p fun q => { q with priority := n }).setProc p fun q =>
        { q with hasQuantum := n } := by
  rw [Kernel.setProc_setProc]

theorem does_changePriority (hC : Common C) (k : Kernel) (child : Option ProcId) (n : Int) :
    Does C (.run, k) (.run, (changePriority k child n).1) := by
  unfold changePriority
  split
  · exact .refl _
  · rename_i p
    simp only
    split
    · exact .refl _
    · split
      · exact .refl _
      · rw [Quiet.changePriority_parts]
        exact .then_one (Quiet.does hC (.setProc p rfl id)) (.quantum p _) (hC _ _ trivial)

theorem does_fdRead {e : Event} {c : ProcId} {i : Fin fdMax} {count : Nat} {buf0 : UInt8}
    {r : StepResult} (he : ∃ fd n b, e = .sysRead fd n b) (hc : k.currentProcess = some c)
    (h : fdRead k c ((k.procs c).fds i) count buf0 = .ok r) :
    Does (Cause k e) (.run, k) (.run, r.1) := by
  have hC := Common.cause k e
  unfold fdRead at h
  split at h
  · obtain ⟨r₁, hr, hd⟩ := Outcome.bind_eq_ok.mp h
    cases hd
    rename_i pp ho hp
    have hreach : Reaches k e .pipeRead pp := ⟨c, hc, .inl ⟨.inl he, i, trivial, ho, hp⟩⟩
    exact does_pipeRead hC (.cause fun _ hc => hc) (fun _ => ⟨hreach, trivial⟩)
      (fun _ => ⟨hreach, hc⟩) hc hr
  · cases h
  · obtain ⟨r₁, hr, hd⟩ := Outcome.bind_eq_ok.mp h
    cases hd
    exact does_readFromKeyboard hC (.cause fun _ hc => hc) hc (fun _ => ⟨trivial, hc⟩) hr
  · cases h
    exact .refl _

theorem does_fdWrite {e : Event} {c : ProcId} {i : Fin fdMax} {buf : List UInt8}
    {r : StepResult} (he : ∃ fd b, e = .sysWrite fd b) (hc : k.currentProcess = some c)
    (h : fdWrite k c ((k.procs c).fds i) buf = .ok r) :
    Does (Cause k e) (.run, k) (.run, r.1) := by
  have hC := Common.cause k e
  unfold fdWrite at h
  split at h
  · obtain ⟨r₁, hr, hd⟩ := Outcome.bind_eq_ok.mp h
    cases hd
    rename_i pp ho hp
    have hreach : Reaches k e .pipeWrite pp := ⟨c, hc, .inl ⟨.inr he, i, trivial, ho, hp⟩⟩
    exact does_pipeWrite hC (.cause fun _ hc => hc) (fun _ => ⟨hreach, trivial⟩)
      (fun _ => ⟨hreach, hc⟩) hc hr
  · cases h
  · cases h
    exact .refl _
  · cases h
    exact .refl _
  · cases h
    exact .refl _

theorem does_withFd {fd : Int} {f : ProcId → FdEntry → Outcome StepResult} {r : StepResult}
    (hf : ∀ c i, k.currentProcess = some c → f c ((k.procs c).fds i) = .ok r →
      Does C (.run, k) (.run, r.1))
    (h : withFd k fd f = .ok r) : Does C (.run, k) (.run, r.1) := by
  unfold withFd at h
  split at h
  · split at h
    · cases h
      exact .refl _
    · rename_i c hc
      exact hf c _ hc h
  · cases h
    exact .refl _

theorem does_sysPipeOpen (hC : Common C) (hnew : ∀ k pp, C k (.newPipe pp))
    {id junk : List UInt8} {mode : Int} {r : StepResult}
    (h : sysPipeOpen k id junk mode = .ok r) : Does C (.run, k) (.run, r.1) := by
  unfold sysPipeOpen at h
  split at h
  · cases h
    exact .refl _
  · split at h
    · cases h
      exact .refl _
    · rename_i c hc
      split at h
      · cases h
        exact .refl _
      · rename_i i hi
        have hfree : ((k.procs c).fds i).type = .none := by
          simpa using List.find?_some hi
        have hopen := does_openPipe hC hnew i id junk mode hc hfree
        simp only at h
        split at h
        · cases h
          exact hopen
        · cases h
          exact hopen

theorem does_sysPipeCreate (hC : Common C) (hnew : ∀ k pp, C k (.newPipe pp))
    {id junk : List UInt8} {r : StepResult} (h : sysPipeCreate k id junk = .ok r) :
    Does C (.run, k) (.run, r.1) := by
  have hcreate := (does_createPipe hC hnew k id junk).1
  unfold sysPipeCreate at h
  simp only at h
  split at h
  · cases h
    exact hcreate
  · cases h
    exact hcreate

theorem does_sysPipeClose {id : List UInt8} {r : StepResult} (h : sysPipeClose k id = .ok r) :
    Does (Cause k (.sysPipeClose id)) (.run, k) (.run, r.1) := by
  unfold sysPipeClose at h
  split at h
  · cases h
    exact .refl _
  · rename_i pp hpp
    cases h
    exact .one (.freeNamed (findPipeById_inUse hpp)) ⟨⟨(Quiet.refl k).toCalm, id, rfl, hpp⟩, trivial⟩

theorem does_sysCloseFd (hC : Common C) {fd : Int} {r : StepResult}
    (h : sysCloseFd k fd = .ok r) : Does C (.run, k) (.run, r.1) := by
  unfold sysCloseFd at h
  split at h
  · cases h
    exact .refl _
  · split at h
    · cases h
      exact does_closeSlot hC (.inl rfl) k _ _
    · cases h
      exact .refl _

theorem does_sysKillProc {pid : Int} {r : StepResult} (h : sysKillProc k pid = .ok r) :
    Does (Cause k (.sysKillProc pid)) (.run, k) (.run, r.1) := by
  have hC := Common.cause k (.sysKillProc pid)
  unfold sysKillProc at h
  split at h
  · cases h
    exact .refl _
  · rename_i hpid
    obtain ⟨o, ho, h⟩ := Outcome.bind_eq_ok.mp h
    cases o with
    | none =>
      cases h
      exact .refl _
    | some p =>
      obtain ⟨k₁, hk₁, he⟩ := Outcome.bind_eq_ok.mp h
      cases he
      refine does_procKill hC ?_ hk₁
      intro q k₂ hq hquiet
      refine ⟨⟨hquiet.toCalm, ?_⟩, trivial⟩
      simp only [killTarget, hpid, if_false, ho]
      exact hq

theorem does_sysExit {code : Int} {r : StepResult} (h : sysExit k code = .ok r) :
    Does (Cause k (.sysExit code)) (.run, k) (.run, r.1) := by
  have hC := Common.cause k (.sysExit code)
  obtain ⟨k₁, hk₁, h⟩ := Outcome.bind_eq_ok.mp h
  obtain ⟨k₂, hk₂, he⟩ := Outcome.bind_eq_ok.mp h
  cases he
  refine .trans (.one (.suspend (w := .exit) trivial) ⟨trivial, rfl⟩) ?_
  refine .trans (does_procKill hC ?_ hk₁) (does_timer hC (.cause fun c hc => ?_) hk₂)
  · intro p k₃ hp hq
    have hcalm := Quiet.calm_suspend k .exit
    refine ⟨⟨hcalm.trans hq.toCalm, ?_⟩, trivial⟩
    simp only [hcalm.pid] at hp
    exact hp
  · have hcur := current_procKill hk₁ hc
    rwa [suspend_currentProcess] at hcur

theorem does_sysUnblock {pid : Int} {r : StepResult} (h : sysUnblock k pid = .ok r) :
    Does (Cause k (.sysUnblock pid)) (.run, k) (.run, r.1) := by
  obtain ⟨r₁, h₁, he⟩ := Outcome.bind_eq_ok.mp h
  cases he
  obtain ⟨o, ho, h₂⟩ := Outcome.bind_eq_ok.mp h₁
  cases o with
  | none =>
    cases h₂
    exact .refl _
  | some p =>
    simp only at h₂
    split at h₂
    · cases h₂
      exact .refl _
    · rename_i hs
      cases h₂
      refine .one (.unblock (not_not.mp hs)) ⟨⟨(Quiet.refl k).toCalm, ?_⟩, trivial⟩
      simp only [unblockTarget, ho]

/-- Every entry from user mode is a sequence of edits with their occasions. -/
theorem does_enter {e : Event} {r : StepResult} (h : enter k e = .ok r) :
    Does (Cause k e) (.run, k) (.run, r.1) := by
  have hC := Common.cause k e
  cases e with
  | timer =>
    obtain ⟨k₁, hk₁, he⟩ := Outcome.bind_eq_ok.mp h
    cases he
    exact does_timer hC (.cause fun _ hc => hc) hk₁
  | key sc =>
    obtain ⟨k₁, hk₁, he⟩ := Outcome.bind_eq_ok.mp h
    cases he
    exact does_handleKeyPress hC (fun p k₂ hp hq => ⟨⟨hq.toCalm, hp⟩, trivial⟩) hk₁
  | user rsp =>
    cases h
    exact Quiet.does hC (.unwatched rfl rfl rfl rfl rfl id)
  | resume => cases h
  | sysRead fd count buf0 =>
    rw [enter, sysRead] at h
    exact does_withFd (fun c i hc hd => does_fdRead ⟨fd, count, buf0, rfl⟩ hc hd) h
  | sysWrite fd buf =>
    rw [enter, sysWrite] at h
    exact does_withFd (fun c i hc hd => does_fdWrite ⟨fd, buf, rfl⟩ hc hd) h
  | sysSleep s =>
    obtain ⟨k₁, hk₁, he⟩ := Outcome.bind_eq_ok.mp h
    cases he
    exact does_sleepHelper rfl hk₁
  | sysUsleep us =>
    simp only [enter, sysUsleep] at h
    split at h
    · cases h
      exact .refl _
    · rename_i hne
      obtain ⟨k₁, hk₁, he⟩ := Outcome.bind_eq_ok.mp h
      cases he
      exact does_sleepHelper (if_neg hne) hk₁
  | sysPipeCreate id junk => exact does_sysPipeCreate hC (fun _ _ => ⟨trivial, trivial⟩) h
  | sysPipeOpen id junk mode => exact does_sysPipeOpen hC (fun _ _ => ⟨trivial, trivial⟩) h
  | sysPipeClose id => exact does_sysPipeClose h
  | sysSpawn a =>
    obtain ⟨r₁, hr, he⟩ := Outcome.bind_eq_ok.mp h
    cases he
    exact does_sysSpawnProcess hC (fun _ i hi => ⟨⟨⟨a, rfl⟩, hi⟩, trivial⟩) hr
  | sysKillProc pid => exact does_sysKillProc h
  | sysChangePriority pid prio =>
    obtain ⟨o, -, he⟩ := Outcome.bind_eq_ok.mp h
    cases he
    exact does_changePriority hC k o prio
  | sysExit code => exact does_sysExit h
  | sysBlock pid =>
    obtain ⟨r₁, hr, he⟩ := Outcome.bind_eq_ok.mp h
    cases he
    exact does_sysBlock hr
  | sysUnblock pid => exact does_sysUnblock h
  | sysCloseFd fd => exact does_sysCloseFd hC h
  | sysWaitPid pid =>
    obtain ⟨r₁, hr, he⟩ := Outcome.bind_eq_ok.mp h
    cases he
    exact does_waitPid hC (.cause fun _ hc => hc) (fun c hc => ⟨trivial, hc⟩) hr
  | sysWait =>
    obtain ⟨r₁, hr, he⟩ := Outcome.bind_eq_ok.mp h
    cases he
    exact does_waitPid hC (.cause fun _ hc => hc) (fun c hc => ⟨trivial, hc⟩) hr
  | sysYield =>
    obtain ⟨k₁, hk₁, he⟩ := Outcome.bind_eq_ok.mp h
    cases he
    have hT : Preempts (Cause k .sysYield) (k.suspend .yield) := .cause fun c hc => by
      rwa [suspend_currentProcess] at hc
    exact .trans (.one (.suspend (w := .yield) trivial) ⟨trivial, rfl⟩) (does_yield hC hT hk₁)
  | sysSetCanonical b =>
    cases h
    exact Quiet.does hC (.unwatched rfl rfl rfl rfl rfl id)
  | sysCreateSem id v =>
    cases h
    exact does_mySemCreate id v
  | sysCloseSem id =>
    cases h
    exact does_mySemDestroy id
  | sysSemPost id =>
    obtain ⟨r₁, hr, he⟩ := Outcome.bind_eq_ok.mp h
    cases he
    exact does_mySemPost hr
  | sysSemWait id =>
    obtain ⟨r₁, hr, he⟩ := Outcome.bind_eq_ok.mp h
    cases he
    exact does_mySemWait hr
  | sysSemTrywait id =>
    obtain ⟨r₁, hr, he⟩ := Outcome.bind_eq_ok.mp h
    cases he
    exact does_mySemTrywait hr

/-- Going on with a system call is a sequence of edits with their occasions. -/
theorem does_resume {c : ProcId} {w : Pending} {r : StepResult} (hc : k.currentProcess = some c)
    (hw : k.kstack c = some w) (h : resume k c w = .ok r) :
    Does (Cause k .resume) (.run, k) (.run, r.1) := by
  have hC := Common.cause k .resume
  have hfin : Does (Cause k .resume) (.run, k)
      (.run, { k with kstack := Function.update k.kstack c none }) :=
    .one (.finish hc hw) ⟨⟨rfl, hc, hw⟩, trivial⟩
  have hc' : ({ k with kstack := Function.update k.kstack c none } : Kernel).currentProcess =
      some c := hc
  have hT : Preempts (Cause k .resume) { k with kstack := Function.update k.kstack c none } :=
    .cause fun _ hc => hc
  refine hfin.trans ?_
  cases w with
  | yield =>
    cases h
    exact .refl _
  | sleep =>
    cases h
    exact .refl _
  | block =>
    cases h
    exact .refl _
  | exit => cases h
  | semWait id =>
    cases h
    exact .refl _
  | pipeRead pp size =>
    obtain ⟨r₁, hr, he⟩ := Outcome.bind_eq_ok.mp h
    cases he
    have hreach : Reaches k .resume .pipeRead pp := ⟨c, hc, .inr ⟨rfl, _, hw, rfl⟩⟩
    exact does_pipeRead hC hT (fun _ => ⟨hreach, trivial⟩) (fun _ => ⟨hreach, hc⟩) hc' hr
  | pipeWrite pp buf =>
    obtain ⟨r₁, hr, he⟩ := Outcome.bind_eq_ok.mp h
    cases he
    have hreach : Reaches k .resume .pipeWrite pp := ⟨c, hc, .inr ⟨rfl, _, hw, rfl⟩⟩
    exact does_pipeWrite hC hT (fun _ => ⟨hreach, trivial⟩) (fun _ => ⟨hreach, hc⟩) hc' hr
  | waitPid pid =>
    obtain ⟨r₁, hr, he⟩ := Outcome.bind_eq_ok.mp h
    cases he
    exact does_waitPidLoop hC hT hc' ⟨trivial, hc⟩ hr
  | readLine count buf0 =>
    obtain ⟨r₁, hr, he⟩ := Outcome.bind_eq_ok.mp h
    cases he
    exact does_readLine hC hT hc' (fun _ => ⟨trivial, hc⟩) hr

/-- **A step of the machine is a sequence of edits**, each with its occasion and whose doing it is. -/
theorem step_causes {e : Event} {o : Option Completion} (h : step k e = some (k', o)) :
    Does (Cause k e) (.run, k) (.run, k') := by
  rcases step_eq_some h with ⟨-, -, h⟩ | ⟨rfl, c, w, hc, hw, h⟩
  · exact does_enter h
  · exact does_resume hc hw h

/-- A step of the machine is a sequence of edits, each with its occasion. -/
theorem step_does {e : Event} {o : Option Completion} (h : step k e = some (k', o)) :
    Does (Origin k e) (.run, k) (.run, k') := (step_causes h).mono fun _ _ hC => hC.1

end TpeSo
