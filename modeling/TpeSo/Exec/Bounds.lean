import TpeSo.Exec.Layout

namespace TpeSo.Exec

open Lib

/-!
# Whether `execv` stays inside the stack

Nothing compares the arguments with `STACK_SIZE`, and `sys_spawn_process` looks neither at the
result of `proc_init`, which may have left no stack, nor at that of `execv`.

* `execv_inside_iff` — every byte is inside the stack exactly when nothing is written, the
  kernel's buffer having been refused, or when there is a stack with room for everything.
* `execv_frame` — the stack pointer of the process is the one the kernel's `execv` is handed.
-/

variable {processWrapper : Ptr} {argv : Argv} {block : Option StackBlock}

/-- All bytes written are between the start and the end of the stack. -/
def StaysInside (start : Nat) (writes : List (Chunk 64)) : Prop :=
  ∀ c ∈ writes, ∀ i < c.bytes.length, start ≤ c.addr i ∧ c.addr i < start + stackSize

theorem toNat_stackTop (b : StackBlock) : (stackTop (some b)).toNat = b.start + stackSize := by
  rw [stackTop, BitVec.toNat_ofNat]
  exact Nat.mod_eq_of_lt b.inSpace

/-- With room for everything, everything stays inside. -/
theorem execv_inside (b : StackBlock) (h : needed (stackTop (some b)) argv ≤ stackSize) :
    StaysInside b.start (execv processWrapper true (stackTop (some b)) argv).writes := by
  have htop := toNat_stackTop b
  have hdesc := @execv_descends processWrapper (stackTop (some b)) argv (h.trans (by omega))
  have hlow :
      b.start ≤ (execv processWrapper true (stackTop (some b)) argv).stackPointer.toNat := by
    rw [execv_stackPointer, toNat_sub_ofNat (by omega), htop]
    omega
  intro c hc i hi
  obtain ⟨hlo, hhi⟩ := hdesc.addr_mem (BitVec.isLt _) hc hi
  exact ⟨hlow.trans hlo, htop ▸ hhi⟩

/-- The lowest byte of the frame is where the stack pointer ends. -/
theorem execv_lowest (processWrapper top : Ptr) (argv : Argv) :
    ∃ c ∈ (execv processWrapper true top argv).writes, 0 < c.bytes.length ∧
      c.base = top - BitVec.ofNat 64 (needed top argv) := by
  have hne : pushedWords processWrapper top argv ≠ [] := List.cons_ne_nil _ _
  obtain ⟨c, hc, hbase, hlen⟩ := exists_mem_pushAll (arrayAt top argv) hne
  have hmem : c ∈ (execv processWrapper true top argv).writes := by
    rw [execv_eq]
    exact List.mem_append_right _ (List.mem_cons_of_mem _ hc)
  refine ⟨c, hmem, hlen, ?_⟩
  rw [hbase, ← @execv_stackPointer processWrapper top argv, execv_eq, length_pushedWords]

/-- Without a stack, or without room on it, the lowest byte is outside. -/
theorem execv_outside (h : ∀ b, block = some b → stackSize < needed (stackTop (some b)) argv) :
    ¬ StaysInside (stackStart block) (execv processWrapper true (stackTop block) argv).writes := by
  intro hinside
  obtain ⟨c, hc, hlen, hbase⟩ := execv_lowest processWrapper (stackTop block) argv
  have hin := hinside c hc 0 hlen
  have haddr :
      c.addr 0 = (stackTop block - BitVec.ofNat 64 (needed (stackTop block) argv)).toNat := by
    rw [Chunk.addr, hbase]
    exact congrArg BitVec.toNat (BitVec.add_zero _)
  have hbound := needed_add_le (stackTop block) argv
  rw [haddr, BitVec.toNat_sub, BitVec.toNat_ofNat] at hin
  have hpos : 0 < needed (stackTop block) argv := Nat.succ_pos _
  cases block with
  | none => 
    have hzero : (stackTop none).toNat = 0 := rfl
    have hstart : stackStart none = 0 := rfl
    rw [stackSize] at *
    omega
  | some b =>
    have htop := toNat_stackTop b
    have hdeep := h b rfl
    have hspace := b.inSpace
    have hstart : stackStart (some b) = b.start := rfl
    rw [stackSize] at *
    omega

/-- A refused buffer ends `execv` before anything is written. -/
theorem execv_refused (processWrapper top : Ptr) (argv : Argv) :
    execv processWrapper false top argv = { ret := -1, stackPointer := top, writes := [] } := rfl

theorem execv_inside_iff (processWrapper : Ptr) (ok : Bool) (block : Option StackBlock)
    (argv : Argv) :
    StaysInside (stackStart block) (execv processWrapper ok (stackTop block) argv).writes ↔
      ok = false ∨ (block.isSome ∧ needed (stackTop block) argv ≤ stackSize) := by
  cases ok with
  | false => exact iff_of_true (fun c hc => absurd hc List.not_mem_nil) (.inl rfl)
  | true =>
    constructor
    · intro hinside
      by_contra hnot
      refine execv_outside (fun b hb => ?_) hinside
      subst hb
      exact Nat.lt_of_not_le fun hle => hnot (.inr ⟨rfl, hle⟩)
    · rintro (hok | ⟨hsome, hfits⟩)
      · exact nomatch hok
      · obtain ⟨b, rfl⟩ := Option.isSome_iff_exists.mp hsome
        exact execv_inside b hfits

/-- A string as long as the stack. -/
def longStr : CStr where
  chars := List.replicate stackSize 97
  noNul h := nomatch List.eq_of_mem_replicate h
  short := by
    rw [List.length_replicate]
    decide

def longArgv : Argv := ⟨[some longStr], by decide⟩

/-- It goes past the start of the stack, into what precedes it on the heap. -/
theorem execv_overruns : ¬ ∀ processWrapper ok block argv,
    StaysInside (stackStart block) (execv processWrapper ok (stackTop block) argv).writes := by
  intro hall
  refine execv_outside (fun b _ => ?_) (hall 0 true (some ⟨heapBase, by decide⟩) longArgv)
  have hone : ∀ (s : CStr) (h : [some s].length + 1 < 2 ^ 31),
      stringsSize ⟨[some s], h⟩ = strLen s + 1 := fun _ _ => rfl
  have hlen : strLen longStr = stackSize := List.length_replicate
  have hlong : stringsSize longArgv = stackSize + 1 := by rw [longArgv, hone, hlen]
  rw [needed]
  omega

/-- The kernel's `execv`, given the stack pointer this one leaves. -/
theorem execv_frame {k k' : Kernel} {p : ProcId}
    (hptr : (k.procs p).stackPointer = (stackTop block).toNat)
    (hok : TpeSo.execv k p
      (execv processWrapper k.kmalloc (stackTop block) argv).stackPointer.toNat = .ok k') :
    (k'.procs p).stackPointer =
      (execv processWrapper k.kmalloc (stackTop block) argv).stackPointer.toNat := by
  rw [TpeSo.execv] at hok
  cases hbuf : k.kmalloc with
  | false =>
    rw [hbuf] at hok
    obtain rfl := Outcome.ok.inj hok
    exact hptr
  | true =>
    rw [hbuf] at hok
    simp only [if_true] at hok
    split at hok
    · obtain rfl := Outcome.ok.inj hok
      simp only [Kernel.setProc, Function.update_self]
    · exact nomatch hok

end TpeSo.Exec
