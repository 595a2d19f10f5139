import TpeSo.Exec.Bounds

namespace TpeSo.Exec

open Lib

/-!
# What the process finds in its registers

The first return from an interrupt into a process pops the frame that `execv` left.

* `pops_eq` — popping registers is assigning them the words of the stack, upwards;
* `execv_round_trip` — `rdi` is `argc`, `rsi` is the array, the entries of the array lead to
  the strings, and none of it overlaps or leaves the stack.
-/

variable {processWrapper top : Ptr} {argv : Argv} {mem : Memory}

/-! ### The frame -/

/-- Give the registers their values, one after another. -/
def assign : List Register → List (BitVec 64) → (Register → BitVec 64) → (Register → BitVec 64)
  | r :: rs, v :: vs, regs => assign rs vs (Function.update regs r v)
  | _, _, regs => regs

theorem pops_eq : ∀ {rs : List Register} {sp : Ptr} {regs : Register → BitVec 64},
    pops mem sp rs regs = assign rs (words mem sp rs.length) regs := by
  intro rs
  induction rs with
  | nil => exact fun {_ _} => rfl
  | cons r rs ih =>
    intro sp regs
    rw [pops, ih]
    rfl

/-- The registers after the words of the frame. -/
structure Loaded (processWrapper : Ptr) (argc : Nat) (userArgv : Ptr)
    (regs : Register → BitVec 64) : Prop where
  rdi : regs .rdi = BitVec.ofNat 64 argc
  rsi : regs .rsi = userArgv
  rip : regs .rip = processWrapper
  cs : regs .cs = 0x8
  rflags : regs .rflags = 0x202

/-- The order of the words is the one the registers are popped in. -/
theorem assign_frameWords (argc : Nat) (userArgv : Ptr) (regs : Register → BitVec 64) :
    Loaded processWrapper argc userArgv
      (assign (popState ++ iretq) (frameWords processWrapper top argc userArgv).reverse regs) :=
  ⟨rfl, rfl, rfl, rfl, rfl⟩

theorem execv_loaded (hroom : needed top argv ≤ top.toNat) (regs : Register → BitVec 64) :
    Loaded processWrapper argv.argc (arrayAt top argv)
      (pops (writeAll mem (execv processWrapper true top argv).writes)
        (execv processWrapper true top argv).stackPointer (popState ++ iretq) regs) := by
  have hframe : ∀ c ∈ pushAll (pushed (arrayAt top argv) 2)
      (frameWords processWrapper (pushed (arrayAt top argv) 2) argv.argc (arrayAt top argv)),
      Holds (writeAll mem (execv processWrapper true top argv).writes) c.base.toNat c.bytes := by
    intro c hc
    refine holds_writeAll (execv_descends hroom) top.isLt ?_
    rw [execv_eq, pushedWords, pushAll_append]
    exact List.mem_append_right _ (List.mem_cons_of_mem _ (List.mem_append_right _ hc))
  have hsp : (execv processWrapper true top argv).stackPointer =
      pushed (pushed (arrayAt top argv) 2) 20 := by
    rw [execv_eq]
    exact (pushed_pushed _ 2 20).symm
  have hwords := words_pushAll hframe
  rw [pops_eq, hsp]
  exact hwords ▸ assign_frameWords argv.argc (arrayAt top argv) regs

/-! ### The strings -/

/-- The bytes of a string, terminator included. -/
def strSpan (p : Nat) (s : Option CStr) : Span := ⟨p, strLen (argStr s) + 1⟩

theorem copyStrings_spans : ∀ {ss : List (Option CStr)} {a : Ptr},
    List.zipWith strSpan ((copyStrings a ss).buf.map BitVec.toNat) ss =
      (copyStrings a ss).writes.map Chunk.span := by
  intro ss
  induction ss with
  | nil => exact fun {_} => rfl
  | cons s ss ih =>
    intro a
    rw [copyStrings, List.map_cons, List.zipWith_cons_cons, ih, List.map_cons, Chunk.span,
      length_strCpy]
    rfl

/-- The copy of a string that an entry of the buffer points at. -/
theorem exists_copy {ss : List (Option CStr)} {a : Ptr} {i : Nat} {s : Option CStr}
    (hs : ss[i]? = some s) : ∃ c ∈ (copyStrings a ss).writes,
      (copyStrings a ss).buf[i]? = some c.base ∧ c.bytes = (argStr s).chars ++ [0] := by
  have hbytes := congrArg (·[i]?) (@copyStrings_bytes ss a)
  simp only [List.getElem?_map, hs, Option.map_some] at hbytes
  obtain ⟨c, hc, hchars⟩ := Option.map_eq_some_iff.mp hbytes
  refine ⟨c, List.mem_of_getElem? hc, ?_, hchars⟩
  rw [copyStrings_buf, List.getElem?_map, hc]
  rfl

/-! ### The array -/

/-- The entry of the array at `A`, as a number. -/
def entry (mem : Memory) (A i : Nat) : Nat := load mem (A + 8 * i) 8

theorem execv_array (hroom : needed top argv ≤ top.toNat) :
    Holds (writeAll mem (execv processWrapper true top argv).writes) (arrayAt top argv).toNat
      (wordsBytes (arrayWords top argv)) := by
  have hmem : ⟨arrayAt top argv, wordsBytes (arrayWords top argv)⟩ ∈
      (execv processWrapper true top argv).writes := by
    rw [execv_eq]
    exact List.mem_append_right _ List.mem_cons_self
  exact holds_writeAll (execv_descends hroom) top.isLt hmem

theorem execv_entry (hroom : needed top argv ≤ top.toNat) {i : Nat} {p : Ptr}
    (hp : (copyStrings top argv.strings).buf[i]? = some p) :
    entry (writeAll mem (execv processWrapper true top argv).writes) (arrayAt top argv).toNat i =
      p.toNat := by
  have hi : i < (copyStrings top argv.strings).buf.length := (List.getElem?_eq_some_iff.mp hp).1
  refine (execv_array hroom).word_of_getElem? ?_
  rw [arrayWords, List.getElem?_append_left hi, hp]

/-- The array ends with `NULL`. -/
theorem execv_terminator (hroom : needed top argv ≤ top.toNat) :
    entry (writeAll mem (execv processWrapper true top argv).writes) (arrayAt top argv).toNat
      argv.argc = 0 := by
  have hargc : argv.argc = (copyStrings top argv.strings).buf.length :=
    (length_copyStrings_buf argv.strings top).symm
  have hlast : (arrayWords top argv)[argv.argc]? = some 0 := by
    rw [arrayWords, hargc, List.getElem?_append_right (le_refl _), Nat.sub_self]
    rfl
  exact (execv_array hroom).word_of_getElem? hlast

theorem execv_entries (hroom : needed top argv ≤ top.toNat) :
    (List.range argv.argc).map (entry (writeAll mem (execv processWrapper true top argv).writes)
        (arrayAt top argv).toNat) =
      (copyStrings top argv.strings).buf.map BitVec.toNat := by
  have hlen := length_copyStrings_buf argv.strings top
  refine List.ext_getElem ?_ fun i hi hi' => ?_
  · rw [List.length_map, List.length_range, List.length_map, hlen, Argv.argc]
  · rw [List.getElem_map, List.getElem_range, List.getElem_map]
    rw [List.length_map] at hi'
    exact execv_entry hroom (List.getElem?_eq_getElem hi')

theorem arrayAt_dvd (hroom : needed top argv ≤ top.toNat) : 8 ∣ (arrayAt top argv).toNat := by
  have harray := toNat_arrayAt hroom
  have hpad : padding top argv = (top.toNat - stringsSize argv) % 8 := by
    rw [needed_eq] at hroom
    rw [padding, toNat_sub_ofNat (by omega)]
  have hsize : argvArrayTotalSize argv.argc = (argv.argc + 1) * 8 := rfl
  rw [harray, hsize, hpad]
  omega

/-! ### All of it -/

/-- The regions the process is given: the strings its array leads to, the array, `argv` and
    `argc` below it, and the saved frame. -/
def regions (mem : Memory) (A : Nat) (sp : Ptr) (argv : Argv) : List Span :=
  List.zipWith strSpan ((List.range argv.argc).map (entry mem A)) argv.strings ++
    [⟨A, argvArrayTotalSize argv.argc⟩, ⟨A - 16, 16⟩, ⟨sp.toNat, 160⟩]

/-- What a process with these registers has been passed. -/
structure Passed (processWrapper : Ptr) (b : StackBlock) (argv : Argv) (mem : Memory) (sp : Ptr)
    (regs : Register → BitVec 64) : Prop where
  rdi : (regs .rdi).toNat = argv.argc
  rip : regs .rip = processWrapper
  cs : regs .cs = 0x8
  rflags : regs .rflags = 0x202
  aligned : 8 ∣ (regs .rsi).toNat
  strings : ∀ i s, argv.strings[i]? = some s →
    Holds mem (entry mem (regs .rsi).toNat i) ((argStr s).chars ++ [0])
  terminator : entry mem (regs .rsi).toNat argv.argc = 0
  apart : (regions mem (regs .rsi).toNat sp argv).Pairwise fun s t => t.hi ≤ s.lo
  inside : ∀ s ∈ regions mem (regs .rsi).toNat sp argv,
    b.start ≤ s.lo ∧ s.hi ≤ b.start + stackSize

theorem regions_descend (hroom : needed top argv ≤ top.toNat) :
    Descends top.toNat
      (regions (writeAll mem (execv processWrapper true top argv).writes) (arrayAt top argv).toNat
        (execv processWrapper true top argv).stackPointer argv)
      (execv processWrapper true top argv).stackPointer.toNat := by
  have hsp : (execv processWrapper true top argv).stackPointer.toNat =
      (arrayAt top argv).toNat - 176 := by
    rw [execv_eq]
    refine toNat_pushed ?_
    rw [toNat_arrayAt hroom]
    rw [needed_eq] at hroom
    omega
  have hdeep : 176 ≤ (arrayAt top argv).toNat := by
    rw [toNat_arrayAt hroom]
    rw [needed_eq] at hroom
    omega
  have hargs : (arrayAt top argv).toNat - 16 + 16 ≤ (arrayAt top argv).toNat := by omega
  have hframe : (arrayAt top argv).toNat - 176 + 160 ≤ (arrayAt top argv).toNat - 16 := by omega
  rw [regions, execv_entries hroom, copyStrings_spans, hsp]
  exact (copyStrings_above hroom).append ⟨le_refl _, hargs, hframe, le_refl _⟩

theorem execv_passed (b : StackBlock) (mem : Memory) (regs : Register → BitVec 64)
    (h : needed (stackTop (some b)) argv ≤ stackSize) :
    Passed processWrapper b argv
      (writeAll mem (execv processWrapper true (stackTop (some b)) argv).writes)
      (execv processWrapper true (stackTop (some b)) argv).stackPointer
      (pops (writeAll mem (execv processWrapper true (stackTop (some b)) argv).writes)
        (execv processWrapper true (stackTop (some b)) argv).stackPointer (popState ++ iretq)
        regs) := by
  have htop := toNat_stackTop b
  have hroom : needed (stackTop (some b)) argv ≤ (stackTop (some b)).toNat := by omega
  have hloaded := @execv_loaded processWrapper _ argv mem hroom regs
  have hregions := @regions_descend processWrapper _ argv mem hroom
  have hargc : argv.argc < 2 ^ 64 := lt_trans (Nat.lt_of_succ_lt argv.short) (by decide)
  constructor
  · rw [hloaded.rdi, BitVec.toNat_ofNat]
    exact Nat.mod_eq_of_lt hargc
  · exact hloaded.rip
  · exact hloaded.cs
  · exact hloaded.rflags
  · rw [hloaded.rsi]
    exact arrayAt_dvd hroom
  · intro i s hs
    obtain ⟨c, hc, hbuf, hbytes⟩ := @exists_copy _ (stackTop (some b)) _ _ hs
    have hmem : c ∈ (execv processWrapper true (stackTop (some b)) argv).writes := by
      rw [execv_eq]
      exact List.mem_append_left _ hc
    rw [hloaded.rsi, execv_entry hroom hbuf, ← hbytes]
    exact holds_writeAll (execv_descends hroom) (BitVec.isLt _) hmem
  · rw [hloaded.rsi]
    exact execv_terminator hroom
  · rw [hloaded.rsi]
    exact hregions.pairwise
  · intro s hs
    rw [hloaded.rsi] at hs
    obtain ⟨hlo, hhi⟩ := hregions.inside hs
    rw [execv_stackPointer, toNat_sub_ofNat hroom, htop] at hlo
    exact ⟨by omega, htop ▸ hhi⟩

/-- Arguments that fit on the stack reach the process, unless the kernel has no memory for its
    buffer: then `execv` says so, and has written nothing. -/
theorem execv_round_trip (processWrapper : Ptr) (ok : Bool) (b : StackBlock) (argv : Argv)
    (mem : Memory) (regs : Register → BitVec 64)
    (h : needed (stackTop (some b)) argv ≤ stackSize) :
    let r := execv processWrapper ok (stackTop (some b)) argv
    let mem' := writeAll mem r.writes
    if ok then
      r.ret = 0 ∧ Passed processWrapper b argv mem' r.stackPointer
        (pops mem' r.stackPointer (popState ++ iretq) regs)
    else r.ret = -1 ∧ r.writes = [] := by
  cases ok with
  | true => exact ⟨congrArg Result.ret execv_eq, execv_passed b mem regs h⟩
  | false => exact ⟨rfl, rfl⟩

/-- `ls` with an empty argument behind it. -/
def lsArgv : Argv :=
  ⟨[some ⟨[108, 115], by decide, by decide⟩, none], by decide⟩

theorem execv_round_trip_ls :
    let b : StackBlock := ⟨heapBase, by decide⟩
    let r := execv 0x400000 true (stackTop (some b)) lsArgv
    let mem' := writeAll (fun _ => 0) r.writes
    needed (stackTop (some b)) lsArgv = 208 ∧ r.ret = 0 ∧
      Passed 0x400000 b lsArgv mem' r.stackPointer
        (pops mem' r.stackPointer (popState ++ iretq) fun _ => 0) :=
  ⟨by decide, execv_round_trip 0x400000 true ⟨heapBase, by decide⟩ lsArgv (fun _ => 0) (fun _ => 0)
    (by decide)⟩

end TpeSo.Exec
