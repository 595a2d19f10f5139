import TpeSo.Exec.Stack
import Mathlib.Algebra.Order.BigOperators.Group.List

namespace TpeSo.Exec

open Lib

/-!
# What `execv` lays down on the stack, and how far it goes

* `execv_eq` — the writes of the four functions: the strings, the array of pointers to them,
  then the words pushed below it;
* `execv_stackPointer` — the stack pointer ends exactly `needed` bytes below where it began,
  whether or not the stack is that deep;
* `execv_descends` — with that much below the stack pointer, each write is below the one before.
-/

variable {processWrapper top : Ptr} {argv : Argv}

/-- The mask that aligns the stack pointer takes the remainder off it. -/
theorem align_eq (a : Ptr) : a &&& -8 = a - BitVec.ofNat 64 (a.toNat % 8) := by
  have hmask : (7 : BitVec 64).toNat = 7 := rfl
  have hlow : BitVec.ofNat 64 (a.toNat % 8) = a &&& 7 := by
    apply BitVec.eq_of_toNat_eq
    have hmod : a.toNat &&& 7 = a.toNat % 8 := Nat.and_two_pow_sub_one_eq_mod a.toNat 3
    rw [BitVec.toNat_and, BitVec.toNat_ofNat, hmask, hmod]
    omega
  have hnone : (-8 &&& 7 : BitVec 64) = 0 := by decide
  have hall : (-8 ||| 7 : BitVec 64) = BitVec.allOnes 64 := by decide
  have hapart : (a &&& -8) &&& (a &&& 7) = 0 := by
    rw [BitVec.and_assoc, ← BitVec.and_assoc (-8), BitVec.and_comm (-8) a, BitVec.and_assoc a,
      hnone]
    exact (congrArg (a &&& ·) BitVec.and_zero).trans BitVec.and_zero
  have hsplit : (a &&& -8) + (a &&& 7) = a := by
    rw [BitVec.add_eq_or_of_and_eq_zero _ _ hapart, ← BitVec.and_or_distrib_left, hall,
      BitVec.and_allOnes]
  rw [hlow]
  exact BitVec.eq_sub_iff_add_eq.mpr hsplit

/-! ### The strings -/

/-- The bytes of some of the strings. -/
def sizes (ss : List (Option CStr)) : Nat := (ss.map fun s => strLen (argStr s) + 1).sum

theorem sizes_cons (s : Option CStr) (ss : List (Option CStr)) :
    sizes (s :: ss) = strLen (argStr s) + 1 + sizes ss := rfl

theorem length_strCpy (dest : Ptr) (src : CStr) :
    (strCpy dest src).bytes.length = strLen src + 1 := by
  rw [strCpy, List.length_append]
  rfl

theorem copyStrings_current : ∀ {ss : List (Option CStr)} {a : Ptr},
    (copyStrings a ss).current = a - BitVec.ofNat 64 (sizes ss) := by
  intro ss
  induction ss with
  | nil => exact fun {a} => (BitVec.sub_zero a).symm
  | cons s ss ih =>
    intro a
    rw [copyStrings, ih, sub_ofNat_sub_ofNat, sizes_cons]

/-- The pointers stored are where the strings were written. -/
theorem copyStrings_buf : ∀ {ss : List (Option CStr)} {a : Ptr},
    (copyStrings a ss).buf = (copyStrings a ss).writes.map Chunk.base := by
  intro ss
  induction ss with
  | nil => exact fun {_} => rfl
  | cons s ss ih =>
    intro a
    rw [copyStrings, List.map_cons, ← ih]
    rfl

/-- The strings are written in order, terminators included. -/
theorem copyStrings_bytes : ∀ {ss : List (Option CStr)} {a : Ptr},
    (copyStrings a ss).writes.map Chunk.bytes = ss.map fun s => (argStr s).chars ++ [0] := by
  intro ss
  induction ss with
  | nil => exact fun {_} => rfl
  | cons s ss ih =>
    intro a
    rw [copyStrings, List.map_cons, ih, List.map_cons]
    rfl

theorem length_copyStrings_buf (ss : List (Option CStr)) (a : Ptr) :
    (copyStrings a ss).buf.length = ss.length := by
  have hlen := congrArg List.length (@copyStrings_bytes ss a)
  rwa [List.length_map, List.length_map, ← List.length_map Chunk.base, ← copyStrings_buf] at hlen

theorem copyStrings_descends : ∀ {ss : List (Option CStr)} {a : Ptr}, sizes ss ≤ a.toNat →
    Descends a.toNat ((copyStrings a ss).writes.map Chunk.span)
      (copyStrings a ss).current.toNat := by
  intro ss
  induction ss with
  | nil => exact fun {a} _ => le_refl _
  | cons s ss ih =>
    intro a h
    rw [sizes_cons] at h
    have hlen : strLen (argStr s) + 1 ≤ a.toNat := by omega
    have hnext := toNat_sub_ofNat hlen
    have hroom : sizes ss ≤ (a - BitVec.ofNat 64 (strLen (argStr s) + 1)).toNat := by omega
    refine ⟨?_, ih hroom⟩
    rw [Span.hi, Chunk.span, length_strCpy, strCpy, hnext]
    exact (Nat.sub_add_cancel hlen).le

/-! ### The whole of it -/

/-- Where the array of pointers is: `argv` for the process. -/
def arrayAt (top : Ptr) (argv : Argv) : Ptr :=
  ((top - BitVec.ofNat 64 (stringsSize argv)) &&& -8) -
    BitVec.ofNat 64 (argvArrayTotalSize argv.argc)

/-- The words below the array: `argv`, `argc` and the frame. -/
def pushedWords (processWrapper : Ptr) (top : Ptr) (argv : Argv) : List (BitVec 64) :=
  let array := arrayAt top argv
  [array, BitVec.ofNat 64 argv.argc] ++ frameWords processWrapper (pushed array 2) argv.argc array

theorem length_pushedWords : (pushedWords processWrapper top argv).length = 22 := rfl

/-- The buffer of pointers, as the array on the stack holds it. -/
def arrayWords (top : Ptr) (argv : Argv) : List Ptr := (copyStrings top argv.strings).buf ++ [0]

theorem length_arrayWords (top : Ptr) (argv : Argv) :
    (wordsBytes (arrayWords top argv)).length = argvArrayTotalSize argv.argc := by
  rw [length_wordsBytes, arrayWords, List.length_append, length_copyStrings_buf, argvArrayTotalSize,
    Nat.mul_comm]
  rfl

theorem pushArgcArgvToStack_eq (current : Ptr) (argc : Nat) (userArgv : Ptr) :
    pushArgcArgvToStack current argc userArgv =
      (pushed current 2, pushAll current [userArgv, BitVec.ofNat 64 argc]) :=
  Prod.ext (pushed_pushed current 1 1) rfl

/-- The four functions together. -/
theorem execv_eq : execv processWrapper true top argv =
    { ret := 0
      stackPointer := pushed (arrayAt top argv) 22
      writes := (copyStrings top argv.strings).writes ++
        ⟨arrayAt top argv, wordsBytes (arrayWords top argv)⟩ ::
          pushAll (arrayAt top argv) (pushedWords processWrapper top argv) } := by
  have hcur : (copyStrings top argv.strings).current =
      top - BitVec.ofNat 64 (stringsSize argv) := copyStrings_current
  have hcopy : copyArgvPtrArrayToStack (copyStrings top argv.strings).current argv.argc
      (arrayWords top argv) =
      (arrayAt top argv, ⟨arrayAt top argv, wordsBytes (arrayWords top argv)⟩) := by
    rw [copyArgvPtrArrayToStack, hcur, memcpy,
      List.take_of_length_le (length_arrayWords top argv).le]
    rfl
  have hend : pushed (arrayAt top argv) 22 = pushed (pushed (arrayAt top argv) 2) 20 :=
    (pushed_pushed _ 2 20).symm
  rw [hend, pushedWords, pushAll_append]
  simp only [execv, prepareArgvOnStack, if_true]
  rw [← arrayWords, hcopy]
  simp only [pushArgcArgvToStack_eq]
  rfl

/-- The array is below the strings and the padding. -/
theorem arrayAt_eq : arrayAt top argv =
    top - BitVec.ofNat 64 (stringsSize argv + padding top argv + argvArrayTotalSize argv.argc) := by
  rw [arrayAt, align_eq, sub_ofNat_sub_ofNat, sub_ofNat_sub_ofNat, Nat.add_assoc]
  rfl

/-- How far down `execv` goes. -/
theorem execv_stackPointer : (execv processWrapper true top argv).stackPointer =
    top - BitVec.ofNat 64 (needed top argv) := by
  rw [execv_eq, arrayAt_eq]
  exact sub_ofNat_sub_ofNat _ _ _

theorem needed_eq (top : Ptr) (argv : Argv) : needed top argv =
    stringsSize argv + padding top argv + argvArrayTotalSize argv.argc + 16 + 160 := rfl

theorem toNat_arrayAt (h : needed top argv ≤ top.toNat) : (arrayAt top argv).toNat =
    top.toNat - (stringsSize argv + padding top argv + argvArrayTotalSize argv.argc) := by
  rw [needed_eq] at h
  rw [arrayAt_eq]
  exact toNat_sub_ofNat (by omega)

/-- The strings are above the array. -/
theorem copyStrings_above (h : needed top argv ≤ top.toNat) :
    Descends top.toNat ((copyStrings top argv.strings).writes.map Chunk.span)
      ((arrayAt top argv).toNat + argvArrayTotalSize argv.argc) := by
  have harray := toNat_arrayAt h
  rw [needed_eq] at h
  have hsizes : sizes argv.strings = stringsSize argv := rfl
  refine (copyStrings_descends (by omega)).lower ?_
  rw [copyStrings_current, harray, toNat_sub_ofNat (by omega), hsizes]
  omega

/-- As long as there is room below the stack pointer, each write is below the one before. -/
theorem execv_descends (h : needed top argv ≤ top.toNat) :
    Descends top.toNat ((execv processWrapper true top argv).writes.map Chunk.span)
      (execv processWrapper true top argv).stackPointer.toNat := by
  have harray := toNat_arrayAt h
  have hlen := length_arrayWords top argv
  have hbelow : (arrayAt top argv).toNat + (wordsBytes (arrayWords top argv)).length ≤
      (arrayAt top argv).toNat + argvArrayTotalSize argv.argc := by rw [hlen]
  have hpush : Descends (arrayAt top argv).toNat
      ((pushAll (arrayAt top argv) (pushedWords processWrapper top argv)).map Chunk.span)
      (pushed (arrayAt top argv) 22).toNat := by
    apply Descends.pushAll
    rw [length_pushedWords]
    rw [needed_eq] at h
    omega
  rw [execv_eq, List.map_append, List.map_cons]
  exact (copyStrings_above h).append ⟨hbelow, hpush⟩

/-- The address space is deeper than anything `execv` can be asked to write. -/
theorem needed_add_le (top : Ptr) (argv : Argv) : needed top argv + stackSize ≤ 2 ^ 64 := by
  have hstrings : stringsSize argv ≤ argv.strings.length * 2 ^ 31 := by
    have hsum := List.sum_le_card_nsmul (argv.strings.map fun s => strLen (argStr s) + 1) (2 ^ 31)
      fun n hn => by
        obtain ⟨s, -, rfl⟩ := List.mem_map.mp hn
        exact (argStr s).short.le
    rwa [List.length_map, Nat.nsmul_eq_mul] at hsum
  have hargc : argv.strings.length + 1 < 2 ^ 31 := argv.short
  have hpad : padding top argv < 8 := Nat.mod_lt _ (by decide)
  have hsize : argvArrayTotalSize argv.argc = (argv.strings.length + 1) * 8 := rfl
  have hmul : argv.strings.length * 2 ^ 31 ≤ 2 ^ 31 * 2 ^ 31 := Nat.mul_le_mul_right _ (by omega)
  rw [needed_eq, hsize, stackSize]
  omega

end TpeSo.Exec
