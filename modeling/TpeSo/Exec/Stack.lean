import TpeSo.Kernel.Process
import TpeSo.Lib.Descend

namespace TpeSo.Exec

open Lib

/-!
# `proc/exec.c` — the first stack of a process

`execv` copies the argument strings below the stack pointer, the array of pointers to them
below the strings, `argv` and `argc` below the array, and a frame for `popState` and `iretq`
below those.  Nothing compares the stack pointer with `stack_start`.

* A write is a `Chunk`: a pointer, which wraps, and the bytes written from it on.
* The buffer of pointers that the kernel allocates for the time of the call is the list of
  what it holds; whether `kmalloc` gave it is an argument.
-/

/-- `char *` and `uint64_t *`. -/
abbrev Ptr := BitVec 64

/-- `STACK_SIZE`. -/
def stackSize : Nat := 8192

def x86SS : BitVec 64 := 0x0
def x86CS : BitVec 64 := 0x8
def x86RFlags : BitVec 64 := 0x202

/-- A string up to its terminator.  `str_len` counts in an `int`, and one more byte is added
    to what it returns. -/
structure CStr where
  chars : List UInt8
  noNul : 0 ∉ chars
  short : chars.length + 1 < 2 ^ 31

/-- `""`. -/
def CStr.empty : CStr := ⟨[], List.not_mem_nil, by decide⟩

/-- The caller's `argv`, `argc` entries of it; `argc + 1` is an `int` as well. -/
structure Argv where
  strings : List (Option CStr)
  short : strings.length + 1 < 2 ^ 31

namespace Argv

def argc (argv : Argv) : Nat := argv.strings.length

end Argv

/-- `str_len`. -/
def strLen (s : CStr) : Nat := s.chars.length

/-- `str_cpy`. -/
def strCpy (dest : Ptr) (src : CStr) : Chunk 64 := ⟨dest, src.chars ++ [0]⟩

/-- `memcpy`, of the first `n` bytes of a buffer. -/
def memcpy (dest : Ptr) (src : List UInt8) (n : Nat) : Chunk 64 := ⟨dest, src.take n⟩

/-- `*dest = v`, a word. -/
def putWord (dest : Ptr) (v : BitVec 64) : Chunk 64 := ⟨dest, bytesOf 8 v.toNat⟩

/-- A `NULL` entry counts as `""`. -/
def argStr (s : Option CStr) : CStr := s.getD .empty

/-- What `prepare_argv_on_stack` comes to. -/
structure Prepared where
  /-- `user_argv_ptr_array_kernel_buf`. -/
  buf : List Ptr
  /-- `current_stack_ptr`. -/
  current : Ptr
  writes : List (Chunk 64)

/-- The loop of `prepare_argv_on_stack`. -/
def copyStrings : Ptr → List (Option CStr) → Prepared
  | current, [] => { buf := [], current := current, writes := [] }
  | current, s :: rest =>
    let len := strLen (argStr s) + 1
    let current := current - BitVec.ofNat 64 len
    let r := copyStrings current rest
    { r with buf := current :: r.buf, writes := strCpy current (argStr s) :: r.writes }

/-- `prepare_argv_on_stack`; `ok` says whether `kmalloc` gave the buffer. -/
def prepareArgvOnStack (ok : Bool) (argv : Argv) (current : Ptr) : Option Prepared :=
  if ok then
    let r := copyStrings current argv.strings
    some { r with buf := r.buf ++ [0] }
  else none

/-- `(argc + 1) * sizeof(char *)`. -/
def argvArrayTotalSize (argc : Nat) : Nat := (argc + 1) * 8

/-- `copy_argv_ptr_array_to_stack`: the new stack pointer, and the write. -/
def copyArgvPtrArrayToStack (current : Ptr) (argc : Nat) (buf : List Ptr) : Ptr × Chunk 64 :=
  let current := current &&& -8
  let current := current - BitVec.ofNat 64 (argvArrayTotalSize argc)
  (current, memcpy current (wordsBytes buf) (argvArrayTotalSize argc))

/-- `push_argc_argv_to_stack`. -/
def pushArgcArgvToStack (current : Ptr) (argc : Nat) (userArgv : Ptr) : Ptr × List (Chunk 64) :=
  let atArgv := current - 8
  let atArgc := atArgv - 8
  (atArgc, [putWord atArgv userArgv, putWord atArgc (BitVec.ofNat 64 argc)])

/-- The words `setup_initial_stack_frame` pushes, in that order. -/
def frameWords (processWrapper top : Ptr) (argc : Nat) (userArgv : Ptr) : List (BitVec 64) :=
  [x86SS, top, x86RFlags, x86CS, processWrapper] ++
    (List.range 15).map fun i =>
      if i = 5 then BitVec.ofNat 64 argc else if i = 6 then userArgv else 0

/-- `setup_initial_stack_frame`. -/
def setupInitialStackFrame (processWrapper top : Ptr) (argc : Nat) (userArgv : Ptr) :
    Ptr × List (Chunk 64) :=
  let words := frameWords processWrapper top argc userArgv
  (pushed top words.length, pushAll top words)

/-- What `execv` returns, the stack pointer it leaves and what it writes through it. -/
structure Result where
  ret : Int
  stackPointer : Ptr
  writes : List (Chunk 64)

/-- `execv`, on `proc->stack_pointer`. -/
def execv (processWrapper : Ptr) (ok : Bool) (stackPointer : Ptr) (argv : Argv) : Result :=
  match prepareArgvOnStack ok argv stackPointer with
  | none => { ret := -1, stackPointer := stackPointer, writes := [] }
  | some p =>
    let array := copyArgvPtrArrayToStack p.current argv.argc p.buf
    let args := pushArgcArgvToStack array.1 argv.argc array.1
    let frame := setupInitialStackFrame processWrapper args.1 argv.argc array.1
    { ret := 0, stackPointer := frame.1,
      writes := p.writes ++ array.2 :: (args.2 ++ frame.2) }

/-! ### What takes the frame off again -/

/-- The registers that `popState` and `iretq` load. -/
inductive Register
  | rax | rbx | rcx | rdx | rbp | rdi | rsi | r8 | r9 | r10 | r11 | r12 | r13 | r14 | r15
  | rip | cs | rflags | rsp | ss
  deriving DecidableEq, Repr

/-- The `pop`s of `popState`, that is `popStateNoRAX` and `pop rax`. -/
def popState : List Register :=
  [.r15, .r14, .r13, .r12, .r11, .r10, .r9, .r8, .rsi, .rdi, .rbp, .rdx, .rcx, .rbx] ++ [.rax]

/-- The order in which `iretq` takes its frame off the stack. -/
def iretq : List Register := [.rip, .cs, .rflags, .rsp, .ss]

/-- Pop one register after another off the stack at `sp`. -/
def pops (mem : Memory) :
    Ptr → List Register → (Register → BitVec 64) → (Register → BitVec 64)
  | _, [], regs => regs
  | sp, r :: rs, regs => pops mem (sp + 8) rs (Function.update regs r (loadWord mem sp))

/-! ### Where the stack is -/

/-- The block `proc_init` gets for the stack; blocks lie in the address space. -/
structure StackBlock where
  start : Nat
  inSpace : start + stackSize < 2 ^ 64

/-- `proc->stack_start`, `NULL` when `proc_init` found no memory or no pid. -/
def stackStart : Option StackBlock → Nat
  | none => 0
  | some b => b.start

/-- `proc->stack_pointer` as `execv` finds it. -/
def stackTop : Option StackBlock → Ptr
  | none => 0
  | some b => BitVec.ofNat 64 (b.start + stackSize)

/-- The bytes of the strings and their terminators. -/
def stringsSize (argv : Argv) : Nat := (argv.strings.map fun s => strLen (argStr s) + 1).sum

/-- The bytes the alignment leaves between the strings and the array. -/
def padding (top : Ptr) (argv : Argv) : Nat := (top - BitVec.ofNat 64 (stringsSize argv)).toNat % 8

/-- The bytes `execv` goes down: strings, padding, array, `argv` and `argc`, frame. -/
def needed (top : Ptr) (argv : Argv) : Nat :=
  stringsSize argv + padding top argv + argvArrayTotalSize argv.argc + 16 + 160

end TpeSo.Exec
