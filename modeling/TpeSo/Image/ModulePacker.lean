import Mathlib.Data.List.Basic
import TpeSo.Lib.Bytes

namespace TpeSo.Image

open Lib

/-!
# `Toolchain/ModulePacker/main.c` — the kernel and its modules in one file

A file is the list of its bytes; a stream that reads one has the bytes that are left, and an
end-of-file flag that a read sets when it comes back short.
-/

def bufferSize : Nat := 128

/-- A `FILE` open for reading. -/
structure Source where
  rest : List UInt8
  eof : Bool := false

/-- `fread(buffer, 1, n, source)`. -/
def Source.fread (source : Source) (n : Nat) : List UInt8 × Source :=
  (source.rest.take n, { rest := source.rest.drop n, eof := decide (source.rest.length < n) })

/-- `write_file`. -/
def writeFile (target : List UInt8) (source : Source) : List UInt8 :=
  if source.eof then target
  else
    let read := source.fread bufferSize
    writeFile (target ++ read.1) read.2
termination_by source.rest.length + (if source.eof then 0 else 1)
decreasing_by
  rename_i heof
  -- a short read sets the flag, and a full one leaves fewer bytes
  show (source.rest.drop 128).length + (if decide (source.rest.length < 128) then 0 else 1) <
    source.rest.length + (if source.eof then 0 else 1)
  rw [List.length_drop, if_neg heof]
  by_cases hshort : source.rest.length < 128
  · rw [decide_eq_true hshort, if_pos rfl]
    omega
  · rw [decide_eq_false hshort, if_neg Bool.false_ne_true]
    omega

/-- `write_size`: the size of a file, as a `uint32_t`. -/
def writeSize (target : List UInt8) (file : List UInt8) : List UInt8 :=
  target ++ bytesOf 4 (file.length % 2 ^ 32)

/-- `array_t`: the kernel is the first file, and `length` is an `int`. -/
structure FileArray where
  kernel : List UInt8
  modules : List (List UInt8)
  length_lt : modules.length + 1 < 2 ^ 31

/-- The loop of `buildImage`. -/
def writeModules (target : List UInt8) : List (List UInt8) → List UInt8
  | [] => target
  | file :: files => writeModules (writeFile (writeSize target file) { rest := file }) files

/-- `buildImage`: the contents of the target file. -/
def buildImage (fileArray : FileArray) : List UInt8 :=
  let target := writeFile [] { rest := fileArray.kernel }
  let extraBinaries := fileArray.modules.length
  writeModules (target ++ bytesOf 4 extraBinaries) fileArray.modules

end TpeSo.Image
