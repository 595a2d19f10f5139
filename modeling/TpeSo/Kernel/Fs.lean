import TpeSo.Kernel.Pipe

namespace TpeSo

/-!
# `proc/fs.c` — the table of the programs

An array of 64 entries, of which the first `fs_entry_count` are in use.  A name argument is
what the memory at the pointer holds; behind the list it reads as `NUL`.
-/

def maxFileEntries : Nat := 64
def maxFileNameLen : Nat := 32

/-- `str_len`, whose `int` no string in the machine's 512 MiB overflows. -/
def strLen : List UInt8 → Nat
  | [] => 0
  | c :: s => if c ≠ 0 then strLen s + 1 else 0

/-- `fs_entry_t`; an entry point may be `NULL`. -/
structure FsEntry where
  name : List UInt8 := List.replicate maxFileNameLen 0
  entryPoint : Option Nat := none

/-- `fs_entries` and `fs_entry_count`. -/
structure Fs where
  fsEntries : Nat → FsEntry := fun _ => {}
  fsEntryCount : Nat := 0

/-- The two lines that copy a name into a field of `MAX_FILE_NAME_LEN` bytes. -/
def copyName (src : List UInt8) : List UInt8 := strNcpy src (maxFileNameLen - 1) ++ [0]

/-- The search the functions of `fs.c` share: the first entry whose name compares equal. -/
def findEntry (fs : Fs) (name : List UInt8) : Option Nat :=
  (List.range fs.fsEntryCount).find? fun i => strCmp (fs.fsEntries i).name name == 0

/-- `fs_load`. -/
def fsLoad (fs : Fs) (name : List UInt8) (entryPoint : Option Nat) : Fs × Int :=
  if maxFileEntries ≤ fs.fsEntryCount ∨ maxFileNameLen ≤ strLen name then (fs, -1)
  else if (findEntry fs name).isSome then (fs, -1)
  else
    ({ fsEntries := Function.update fs.fsEntries fs.fsEntryCount
        { name := copyName name, entryPoint := entryPoint }
       fsEntryCount := fs.fsEntryCount + 1 }, 0)

/-- `fs_get_entry`. -/
def fsGetEntry (fs : Fs) (name : List UInt8) : Option Nat :=
  (findEntry fs name).bind fun i => (fs.fsEntries i).entryPoint

/-- The inner loop of `fs_rm`, with `n` rounds to go: each entry from `j` on takes the place of
    the one before it. -/
def shiftEntries (entries : Nat → FsEntry) (j : Nat) : Nat → Nat → FsEntry
  | 0 => entries
  | n + 1 => shiftEntries (Function.update entries j (entries (j + 1))) (j + 1) n

/-- `fs_rm`. -/
def fsRm (fs : Fs) (name : List UInt8) : Fs × Int :=
  match findEntry fs name with
  | none => (fs, -1)
  | some i =>
    ({ fsEntries := shiftEntries fs.fsEntries i (fs.fsEntryCount - 1 - i)
       fsEntryCount := fs.fsEntryCount - 1 }, 0)

/-- The loop of `fs_list_programs` at entry `i`, with `n` entries to go and `count` names in the
    caller's buffer. -/
def listLoop (fs : Fs) (maxCount : Int) (i count : Nat) : Nat → List (List UInt8)
  | 0 => []
  | n + 1 =>
    if (count : Int) < maxCount then
      copyName (fs.fsEntries i).name :: listLoop fs maxCount (i + 1) (count + 1) n
    else []

/-- `fs_list_programs`: the names it writes into the caller's buffer, whose number is
    `*out_count`. -/
def fsListPrograms (fs : Fs) (maxCount : Int) : List (List UInt8) :=
  listLoop fs maxCount 0 0 fs.fsEntryCount

/-- The calls that change the table. -/
inductive FsCall where
  | load (name : List UInt8) (entryPoint : Option Nat)
  | rm (name : List UInt8)

/-- One call, with its result. -/
def fsStep (fs : Fs) : FsCall → Option (Fs × Int)
  | .load name entryPoint => some (fsLoad fs name entryPoint)
  | .rm name => some (fsRm fs name)

end TpeSo
