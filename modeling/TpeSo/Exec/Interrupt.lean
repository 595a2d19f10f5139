import TpeSo.Exec.RoundTrip
import TpeSo.Lib.Spans

namespace TpeSo.Exec

open Lib

/-!
# `asm/interrupts.asm`, `asm/macros.inc` — the registers on the stack

`_irq00Handler` finds five registers on the stack, which the processor has pushed, and pushes the
other fifteen; at its end it takes all of them off again, from wherever `schedule` tells it to.

* `saveState`, `restoreState` — the two ends of the handler;
* `restoreState_saveState` — what was saved is what is restored;
* `restoreState_congr` — as long as nobody writes into the frame;
* `restoreState_execv` — the frame of `execv` is restored to the registers of a new process.
-/

variable {mem mem' : Memory} {regs regs' : Register → BitVec 64} {sp top processWrapper : Ptr}
  {argv : Argv}

/-- What every register holds. -/
abbrev Registers := Register → BitVec 64

/-- What the processor pushes when it takes an interrupt. -/
def interruptFrame : List Register := [.ss, .rsp, .rflags, .cs, .rip]

/-- The `push`es of `pushState`: `push rax` and those of `pushStateNoRAX`. -/
def pushState : List Register :=
  .rax :: [.rbx, .rcx, .rdx, .rbp, .rdi, .rsi, .r8, .r9, .r10, .r11, .r12, .r13, .r14, .r15]

/-- Where the processor starts to push: it first aligns the stack pointer to 16 bytes. -/
def interruptTop (regs : Registers) : Ptr := regs .rsp &&& -16

/-- The words of the frame, in the order in which they are pushed. -/
def savedWords (regs : Registers) : List (BitVec 64) := (interruptFrame ++ pushState).map regs

/-- The stack pointer after `pushState`. -/
def framePointer (regs : Registers) : Ptr := pushed (interruptTop regs) 20

/-- The interrupt and `pushState`. -/
def saveState (mem : Memory) (regs : Registers) : Memory :=
  writeAll mem (pushAll (interruptTop regs) (savedWords regs))

/-- `popState` and `iretq`, with `rsp` where `schedule` has put it. -/
def restoreState (mem : Memory) (sp : Ptr) (regs : Registers) : Registers :=
  pops mem sp (popState ++ iretq) regs

/-- The addresses of a frame. -/
def frameSpan (sp : Ptr) : Span := ⟨sp.toNat, 160⟩

theorem length_restored : (popState ++ iretq).length = 20 := rfl

/-! ### There and back -/

theorem assign_map : ∀ {rs : List Register} {regs' : Registers} {r : Register},
    assign rs (rs.map regs) regs' r = if r ∈ rs then regs r else regs' r := by
  intro rs
  induction rs with
  | nil => exact fun {_ _} => rfl
  | cons q rs ih =>
    intro regs' r
    rw [List.map_cons, assign, ih]
    by_cases hrs : r ∈ rs
    · rw [if_pos hrs, if_pos (List.mem_cons_of_mem q hrs)]
    · rw [if_neg hrs]
      by_cases hr : r = q
      · subst hr
        rw [Function.update_self, if_pos List.mem_cons_self]
      · rw [Function.update_of_ne hr, if_neg fun h => hrs ((List.mem_cons.mp h).resolve_left hr)]

/-- The registers come off in the opposite order, and none is left out. -/
theorem assign_savedWords (regs regs' : Registers) :
    assign (popState ++ iretq) (savedWords regs).reverse regs' = regs := by
  have hback : (savedWords regs).reverse = (popState ++ iretq).map regs := rfl
  funext r
  rw [hback, assign_map, if_pos]
  cases r <;> decide

theorem toNat_framePointer (h : (framePointer regs).toNat + 160 < 2 ^ 64) :
    160 ≤ (interruptTop regs).toNat ∧
      (framePointer regs).toNat = (interruptTop regs).toNat - 160 := by
  have hsize : 160 ≤ (interruptTop regs).toNat := by
    by_contra hlow
    have hwrap : (framePointer regs).toNat = (interruptTop regs).toNat + 2 ^ 64 - 160 := by
      have hval : (BitVec.ofNat 64 (8 * 20)).toNat = 160 := by decide
      rw [framePointer, pushed, BitVec.toNat_sub, hval]
      omega
    omega
  have hlow : (framePointer regs).toNat = (interruptTop regs).toNat - 160 :=
    toNat_pushed (n := 20) (by omega)
  exact ⟨hsize, hlow⟩

@[simp] theorem length_savedWords (regs : Registers) : (savedWords regs).length = 20 := rfl

/-- The writes of the interrupt are within the frame. -/
theorem saveState_descends (h : (framePointer regs).toNat + 160 < 2 ^ 64) :
    Descends (interruptTop regs).toNat
      ((pushAll (interruptTop regs) (savedWords regs)).map Chunk.span)
      (framePointer regs).toNat := by
  have hroom : 8 * (savedWords regs).length ≤ (interruptTop regs).toNat := by
    rw [length_savedWords]
    exact (toNat_framePointer h).1
  have hdesc := Descends.pushAll hroom
  rwa [length_savedWords] at hdesc

/-- What is outside of the frame stays. -/
theorem agreeOn_saveState (h : (framePointer regs).toNat + 160 < 2 ^ 64) {s : Span}
    (hs : (frameSpan (framePointer regs)).Apart s) :
    AgreeOn s.lo s.len mem (saveState mem regs) := by
  obtain ⟨hroom, hlow⟩ := toNat_framePointer h
  refine agreeOn_writeAll fun c hc => ?_
  have hin := (saveState_descends h).inside (List.mem_map_of_mem hc)
  have hspan : c.span.Inside (frameSpan (framePointer regs)) := by
    refine ⟨hin.1, hin.2.trans ?_⟩
    show _ ≤ (framePointer regs).toNat + 160
    omega
  exact ⟨lt_of_le_of_lt hin.2 (BitVec.isLt _), hspan.apart_left hs⟩

/-- **What was saved is what is restored.** -/
theorem restoreState_saveState (h : (framePointer regs).toNat + 160 < 2 ^ 64) :
    restoreState (saveState mem regs) (framePointer regs) regs' = regs := by
  have hheld : ∀ c ∈ pushAll (interruptTop regs) (savedWords regs),
      Holds (saveState mem regs) c.base.toNat c.bytes := fun c hc =>
    holds_writeAll (saveState_descends h) (interruptTop regs).isLt hc
  have hwords := words_pushAll hheld
  rw [length_savedWords] at hwords
  rw [restoreState, pops_eq, length_restored, framePointer, hwords, assign_savedWords]

/-- The frame is as it was left. -/
theorem restoreState_congr (hfit : sp.toNat + 160 < 2 ^ 64)
    (h : AgreeOn (frameSpan sp).lo (frameSpan sp).len mem mem') (regs : Registers) :
    restoreState mem' sp regs = restoreState mem sp regs := by
  have hwords : words mem' sp 20 = words mem sp 20 := words_congr (by omega) h
  rw [restoreState, restoreState, pops_eq, pops_eq, length_restored, hwords]

theorem assign_over : ∀ {rs : List Register} {vs : List (BitVec 64)} {regs regs' : Registers}
    {r : Register}, rs.length ≤ vs.length → r ∈ rs ∨ regs r = regs' r →
    assign rs vs regs r = assign rs vs regs' r := by
  intro rs
  induction rs with
  | nil => exact fun _ h => h.resolve_left List.not_mem_nil
  | cons q rs ih =>
    intro vs regs regs' r hlen h
    cases vs with
    | nil => cases hlen
    | cons v vs =>
      refine ih (Nat.le_of_succ_le_succ hlen) ?_
      by_cases hr : r = q
      · subst hr
        exact .inr (by rw [Function.update_self, Function.update_self])
      · rw [Function.update_of_ne hr, Function.update_of_ne hr]
        exact h.imp_left fun hmem => (List.mem_cons.mp hmem).resolve_left hr

theorem length_words (mem : Memory) : ∀ (n : Nat) (sp : Ptr), (words mem sp n).length = n
  | 0, _ => rfl
  | n + 1, sp => congrArg (· + 1) (length_words mem n (sp + 8))

/-- What the registers held before does not matter. -/
theorem restoreState_over (mem : Memory) (sp : Ptr) (regs regs' : Registers) :
    restoreState mem sp regs = restoreState mem sp regs' := by
  rw [restoreState, restoreState, pops_eq, pops_eq]
  funext r
  refine assign_over (Nat.le_of_eq (length_words mem _ sp).symm) (.inl ?_)
  cases r <;> decide

/-! ### A new process -/

/-- The registers of a process that has not run yet. -/
def firstRegisters (processWrapper top : Ptr) (argc : Nat) (userArgv : Ptr) : Registers
  | .rdi => BitVec.ofNat 64 argc
  | .rsi => userArgv
  | .rip => processWrapper
  | .cs => x86CS
  | .rflags => x86RFlags
  | .rsp => top
  | .ss => x86SS
  | _ => 0

/-- The first registers, for arguments that `execv` lays down below `top`. -/
def startRegisters (processWrapper top : Ptr) (argv : Argv) : Registers :=
  firstRegisters processWrapper (pushed (arrayAt top argv) 2) argv.argc (arrayAt top argv)

theorem length_frameWords (argc : Nat) (userArgv : Ptr) :
    (frameWords processWrapper top argc userArgv).length = 20 := rfl

theorem assign_firstRegisters (argc : Nat) (userArgv : Ptr) (regs : Registers) :
    assign (popState ++ iretq) (frameWords processWrapper top argc userArgv).reverse regs =
      firstRegisters processWrapper top argc userArgv := by
  funext r
  cases r <;> rfl

/-- **The first frame** is restored to the registers of a new process. -/
theorem restoreState_execv (hroom : needed top argv ≤ top.toNat) (regs : Registers) :
    restoreState (writeAll mem (execv processWrapper true top argv).writes)
        (execv processWrapper true top argv).stackPointer regs =
      startRegisters processWrapper top argv := by
  have hframe : ∀ c ∈ pushAll (pushed (arrayAt top argv) 2)
      (frameWords processWrapper (pushed (arrayAt top argv) 2) argv.argc (arrayAt top argv)),
      Holds (writeAll mem (execv processWrapper true top argv).writes) c.base.toNat c.bytes := by
    intro c hc
    refine holds_writeAll (execv_descends hroom) top.isLt ?_
    rw [execv_eq, pushedWords, pushAll_append]
    exact List.mem_append_right _ (List.mem_cons_of_mem _ (List.mem_append_right _ hc))
  have hsp : (execv processWrapper true top argv).stackPointer =
      pushed (pushed (arrayAt top argv) 2) 20 := by
    rw [execv_eq]
    exact (pushed_pushed _ 2 20).symm
  have hwords := words_pushAll hframe
  rw [length_frameWords] at hwords
  rw [restoreState, pops_eq, length_restored, hsp, hwords, assign_firstRegisters]
  rfl

end TpeSo.Exec
