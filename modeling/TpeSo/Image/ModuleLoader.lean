import TpeSo.Lib.Bytes
import TpeSo.Lib.Outcome

namespace TpeSo.Image

open Lib

/-!
# `Kernel/moduleLoader.c` — the modules are copied to where they run

With `memcpy` from `Kernel/lib/lib.c`.  Addresses are numbers, and what is addressed does not wrap
around at `2 ^ 64`.
-/

/-- The first `n` rounds of `d[i] = s[i]`, for items of `w` bytes. -/
def copyItems (w destination source : Nat) (mem : Memory) : Nat → Memory
  | 0 => mem
  | n + 1 =>
    let mem := copyItems w destination source mem n
    store mem (destination + w * n) w (load mem (source + w * n) w)

/-- `memcpy`. -/
def memcpy (mem : Memory) (destination source length : Nat) : Memory :=
  if destination % 4 = 0 ∧ source % 4 = 0 ∧ length % 4 = 0 then
    copyItems 4 destination source mem (length / 4)
  else copyItems 1 destination source mem length

/-- `readUint32`: the number, and where the next one stands. -/
def readUint32 (mem : Memory) (address : Nat) : Nat × Nat := (load mem address 4, address + 4)

/-- `loadModule`: the memory, and where the next module stands. -/
def loadModule (mem : Memory) (module targetModuleAddress : Nat) : Memory × Nat :=
  let (moduleSize, module) := readUint32 mem module
  (memcpy mem targetModuleAddress module moduleSize, module + moduleSize)

/-- The loop of `loadModules`, for `n` more modules from the `i`-th on. -/
def loadFrom (targetModuleAddress : List Nat) :
    Nat → Nat → Memory → Nat → Outcome Memory
  | 0, _, mem, _ => .ok mem
  | n + 1, i, mem, currentModule =>
    match targetModuleAddress[i]? with
    | none => .fault
    | some target =>
      let (mem, currentModule) := loadModule mem currentModule target
      loadFrom targetModuleAddress n (i + 1) mem currentModule

/-- `loadModules`. -/
def loadModules (mem : Memory) (payloadStart : Nat) (targetModuleAddress : List Nat) :
    Outcome Memory :=
  let (moduleCount, currentModule) := readUint32 mem payloadStart
  loadFrom targetModuleAddress moduleCount 0 mem currentModule

end TpeSo.Image
