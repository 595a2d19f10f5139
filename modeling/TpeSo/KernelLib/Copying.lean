import TpeSo.Exec.Stack
import TpeSo.Image.RoundTrip
import TpeSo.Lib.Copying

namespace TpeSo.KernelLib

open Lib

/-!
# `lib/lib.c` — `memcpy` and `memmove`

Pointers and lengths have 64 bits, and an array of bytes may go on at address `0` behind the
last address.

* `memcpy`, `memmove` — the functions, with the value they return and the memory;
* `byteLoop_copied`, `backLoop_copied`, `wordLoop_copied` — what each loop copies, provided that
  no round spoils a later one;
* `memmove_copies` — **`memmove` copies the bytes whatever overlaps**;
* `memcpy_copies` — **`memcpy` copies them where nothing overlaps**, and its words are those bytes;
* `memcpy_eq_image`, `copyArgv_memcpy` — the copies of the module loader and of `execv`.
-/

/-- `uint8_t *`. -/
abbrev Ptr := BitVec 64

/-- The address of `p[i]`, for bytes. -/
def byteAt (p : Ptr) (i : Nat) : Nat := (p + BitVec.ofNat 64 i).toNat

/-- `d[i] = s[i]`, for bytes. -/
def copyByte (d s : Ptr) (i : Nat) (mem : Memory) : Memory :=
  Function.update mem (byteAt d i) (mem (byteAt s i))

/-- The loop over bytes, upwards from index `i` on, with `n` to go. -/
def byteLoop (d s : Ptr) : Nat → Nat → Memory → Memory
  | 0, _, mem => mem
  | n + 1, i, mem => byteLoop d s n (i + 1) (copyByte d s i mem)

/-- The loop over bytes, downwards. -/
def backLoop (d s : Ptr) : Nat → Memory → Memory
  | 0, mem => mem
  | i + 1, mem => backLoop d s i (copyByte d s i mem)

/-- The loop over words of four bytes, upwards from index `i` on, with `n` to go. -/
def wordLoop (d s : Ptr) : Nat → Nat → Memory → Memory
  | 0, _, mem => mem
  | n + 1, i, mem =>
    wordLoop d s n (i + 1) (store mem (byteAt d (4 * i)) 4 (load mem (byteAt s (4 * i)) 4))

/-- `memcpy`. -/
def memcpy (mem : Memory) (destination source : Ptr) (length : BitVec 64) : Ptr × Memory :=
  let n := length.toNat
  if destination.toNat % 4 = 0 ∧ source.toNat % 4 = 0 ∧ n % 4 = 0 then
    (destination, wordLoop destination source (n / 4) 0 mem)
  else (destination, byteLoop destination source n 0 mem)

/-- `memmove`. -/
def memmove (mem : Memory) (dest src : Ptr) (n : BitVec 64) : Ptr × Memory :=
  if dest = src ∨ n = 0 then (dest, mem)
  else if dest < src ∨ src + n ≤ dest then (dest, byteLoop dest src n.toNat 0 mem)
  else (dest, backLoop dest src n.toNat mem)

/-! ### The loops -/

variable {mem : Memory} {d s : Ptr} {i j k n : Nat}

theorem byteAt_eq (p : Ptr) (i : Nat) : byteAt p i = (p.toNat + i) % 2 ^ 64 := by
  rw [byteAt, BitVec.toNat_add, BitVec.toNat_ofNat, Nat.add_mod_mod]

/-- Within an array that does not wrap. -/
theorem byteAt_of_lt {p : Ptr} (h : p.toNat + i < 2 ^ 64) : byteAt p i = p.toNat + i := by
  rw [byteAt_eq, Nat.mod_eq_of_lt h]

theorem byteLoop_pairwise : ∀ {n i : Nat} {mem : Memory},
    (List.range' i n).Pairwise (Spares (byteAt d) (byteAt s)) →
    Copied (byteAt d) (byteAt s) (List.range' i n) mem (byteLoop d s n i mem) := by
  intro n
  induction n with
  | zero => exact fun _ => .nil
  | succ n ih =>
    intro i mem h
    rw [List.range'_succ] at h ⊢
    obtain ⟨hfirst, hrest⟩ := List.pairwise_cons.mp h
    exact .cons hfirst (ih hrest)

theorem backLoop_pairwise : ∀ {n : Nat} {mem : Memory},
    (List.range n).reverse.Pairwise (Spares (byteAt d) (byteAt s)) →
    Copied (byteAt d) (byteAt s) (List.range n).reverse mem (backLoop d s n mem) := by
  intro n
  induction n with
  | zero => exact fun _ => .nil
  | succ n ih =>
    intro mem h
    rw [List.range_succ, List.reverse_concat] at h ⊢
    obtain ⟨hfirst, hrest⟩ := List.pairwise_cons.mp h
    exact .cons hfirst (ih hrest)

theorem pairwise_range {R : Nat → Nat → Prop} (h : ∀ i j, i < j → j < n → R i j) :
    (List.range n).Pairwise R := by
  refine List.Pairwise.imp_of_mem ?_ List.pairwise_lt_range
  intro i j _ hj hij
  exact h i j hij (List.mem_range.mp hj)

/-- **Upwards**: no byte may be written before it is read by a later round. -/
theorem byteLoop_copied (h : ∀ i j, i < j → j < n → Spares (byteAt d) (byteAt s) i j) :
    Copied (byteAt d) (byteAt s) (List.range n) mem (byteLoop d s n 0 mem) := by
  have hpairwise := pairwise_range h
  rw [List.range_eq_range'] at hpairwise ⊢
  exact byteLoop_pairwise hpairwise

/-- **Downwards**, the later rounds are those of the smaller indices. -/
theorem backLoop_copied (h : ∀ i j, i < j → j < n → Spares (byteAt d) (byteAt s) j i) :
    Copied (byteAt d) (byteAt s) (List.range n) mem (backLoop d s n mem) := by
  have hpairwise := List.pairwise_reverse.mpr (pairwise_range h)
  exact (backLoop_pairwise hpairwise).congr fun _ => List.mem_reverse

/-! ### `memmove` -/

theorem memmove_copied (hdest : d.toNat + n ≤ 2 ^ 64) (hsrc : s.toNat + n ≤ 2 ^ 64)
    {len : BitVec 64} (hlen : len.toNat = n) :
    Copied (byteAt d) (byteAt s) (List.range n) mem (memmove mem d s len).2 := by
  have hd : ∀ i, i < n → byteAt d i = d.toNat + i := fun i hi => byteAt_of_lt (by omega)
  have hs : ∀ i, i < n → byteAt s i = s.toNat + i := fun i hi => byteAt_of_lt (by omega)
  have hsum : s.toNat + n < 2 ^ 64 → (s + len).toNat = s.toNat + n := fun h => by
    rw [BitVec.toNat_add, hlen, Nat.mod_eq_of_lt h]
  unfold memmove
  split_ifs with hsame hup
  · -- nothing has to be done
    rcases hsame with rfl | rfl
    · exact ⟨fun _ _ => rfl, fun _ _ => rfl⟩
    · obtain rfl : n = 0 := hlen.symm
      exact .nil
  · -- what is written stands in front of what is read, or behind all of it
    rw [hlen]
    refine byteLoop_copied fun i j hij hj => ?_
    rw [BitVec.lt_def, BitVec.le_def] at hup
    unfold Spares
    rw [hd i (by omega), hd j hj, hs j hj]
    by_cases hfit : s.toNat + n < 2 ^ 64
    · rw [hsum hfit] at hup
      omega
    · omega
  · -- what is written stands behind what is read, and the larger indices are read first
    rw [hlen]
    refine backLoop_copied fun i j hij hj => ?_
    rw [BitVec.lt_def] at hup
    unfold Spares
    rw [hd i (by omega), hd j hj, hs i (by omega)]
    omega

/-- **`memmove` copies the bytes**, however the two places lie. -/
theorem memmove_copies (mem : Memory) (dest src : Ptr) (n : BitVec 64)
    (hdest : dest.toNat + n.toNat ≤ 2 ^ 64) (hsrc : src.toNat + n.toNat ≤ 2 ^ 64) :
    (∀ i < n.toNat, (memmove mem dest src n).2 (dest.toNat + i) = mem (src.toNat + i)) ∧
      ∀ a, a < dest.toNat ∨ dest.toNat + n.toNat ≤ a → (memmove mem dest src n).2 a = mem a := by
  have hcopied : Copied (byteAt dest) (byteAt src) (List.range n.toNat) mem
      (memmove mem dest src n).2 := memmove_copied hdest hsrc rfl
  refine ⟨fun i hi => ?_, fun a ha => hcopied.kept a fun i hi => ?_⟩
  · have hbyte := hcopied.copied i (List.mem_range.mpr hi)
    rwa [byteAt_of_lt (by omega), byteAt_of_lt (by omega)] at hbyte
  · have hlt := List.mem_range.mp hi
    rw [byteAt_of_lt (by omega)]
    omega

/-- Four bytes move up by two. -/
theorem memmove_copies_up :
    let mem : Memory := fun a => UInt8.ofNat a
    ∀ i < 4, (memmove mem 102 100 4).2 (102 + i) = UInt8.ofNat (100 + i) :=
  (memmove_copies (fun a => UInt8.ofNat a) 102 100 4 (by decide) (by decide)).1

/-! ### `memcpy` -/

/-- Within a word that stands at a multiple of four. -/
theorem byteAt_word {p : Ptr} (hp : p.toNat % 4 = 0) (hk : k < 4) :
    byteAt p (4 * i + k) = byteAt p (4 * i) + k := by
  rw [byteAt_eq, byteAt_eq]
  omega

/-- A word is read as a whole before it is written. -/
theorem copyWord_copied (hd : d.toNat % 4 = 0) (hs : s.toNat % 4 = 0) (i : Nat) (mem : Memory) :
    Copied (byteAt d) (byteAt s) (List.range' (4 * i) 4) mem
      (store mem (byteAt d (4 * i)) 4 (load mem (byteAt s (4 * i)) 4)) where
  copied j hj := by
    rw [List.mem_range'_1] at hj
    obtain ⟨k, rfl⟩ := Nat.exists_eq_add_of_le hj.1
    have hk : k < 4 := by omega
    rw [byteAt_word hd hk, byteAt_word hs hk, store_load hk]
  kept a ha := by
    refine store_of_notMem ?_
    by_contra hin
    obtain ⟨k, rfl⟩ := Nat.exists_eq_add_of_le (by omega : byteAt d (4 * i) ≤ a)
    have hk : k < 4 := by omega
    exact ha (4 * i + k) (List.mem_range'_1.mpr (by omega)) (byteAt_word hd hk)

theorem wordLoop_copied (hd : d.toNat % 4 = 0) (hs : s.toNat % 4 = 0) : ∀ {n i : Nat}
    {mem : Memory}, (List.range' (4 * i) (4 * n)).Pairwise (Spares (byteAt d) (byteAt s)) →
    Copied (byteAt d) (byteAt s) (List.range' (4 * i) (4 * n)) mem (wordLoop d s n i mem) := by
  intro n
  induction n with
  | zero => exact fun _ => .nil
  | succ n ih =>
    intro i mem h
    have hsplit : List.range' (4 * i) (4 * (n + 1)) =
        List.range' (4 * i) 4 ++ List.range' (4 * (i + 1)) (4 * n) := by
      rw [Nat.mul_succ 4 n, Nat.add_comm (4 * n) 4, ← List.range'_append_1]
      rfl
    rw [hsplit] at h ⊢
    obtain ⟨-, hrest, hspares⟩ := List.pairwise_append.mp h
    exact (copyWord_copied hd hs i mem).append (ih hrest) hspares

/-- All the words, from the first on. -/
theorem wordLoop_range (hd : d.toNat % 4 = 0) (hs : s.toNat % 4 = 0) (hn : n % 4 = 0)
    (h : ∀ i j, i < j → j < n → Spares (byteAt d) (byteAt s) i j) :
    Copied (byteAt d) (byteAt s) (List.range n) mem (wordLoop d s (n / 4) 0 mem) := by
  have hbytes : List.range' (4 * 0) (4 * (n / 4)) = List.range n := by
    rw [(by omega : 4 * (n / 4) = n), Nat.mul_zero, List.range_eq_range']
  rw [← hbytes]
  exact wordLoop_copied hd hs (hbytes ▸ pairwise_range h)

/-- The two places share no byte, of an array that may wrap. -/
theorem spares_of_apart (hn : n ≤ 2 ^ 64)
    (hapart : ∀ i < n, ∀ j < n, byteAt d i ≠ byteAt s j) (hij : i < j) (hj : j < n) :
    Spares (byteAt d) (byteAt s) i j := by
  refine ⟨?_, hapart i (by omega) j hj⟩
  rw [byteAt_eq, byteAt_eq]
  omega

/-- Either loop copies the bytes. -/
theorem memcpy_copied {length : BitVec 64}
    (hapart : ∀ i < length.toNat, ∀ j < length.toNat, byteAt d i ≠ byteAt s j) :
    Copied (byteAt d) (byteAt s) (List.range length.toNat) mem (memcpy mem d s length).2 := by
  have hspares : ∀ i j, i < j → j < length.toNat → Spares (byteAt d) (byteAt s) i j :=
    fun i j => spares_of_apart (Nat.le_of_lt length.isLt) hapart
  unfold memcpy
  dsimp only
  split
  · -- the three tests of the word path
    rename_i haligned
    exact wordLoop_range haligned.1 haligned.2.1 haligned.2.2 hspares
  · exact byteLoop_copied hspares

/-- **`memcpy` copies the bytes** of a place that is apart, and its words are those bytes. -/
theorem memcpy_copies (mem : Memory) (destination source : Ptr) (length : BitVec 64)
    (hapart : ∀ i < length.toNat, ∀ j < length.toNat,
      byteAt destination i ≠ byteAt source j) :
    (∀ i < length.toNat, (memcpy mem destination source length).2 (byteAt destination i) =
        mem (byteAt source i)) ∧
      (∀ a, (∀ i < length.toNat, byteAt destination i ≠ a) →
        (memcpy mem destination source length).2 a = mem a) ∧
      (memcpy mem destination source length).2 =
        byteLoop destination source length.toNat 0 mem := by
  have hcopied : Copied (byteAt destination) (byteAt source) (List.range length.toNat) mem
      (memcpy mem destination source length).2 := memcpy_copied hapart
  refine ⟨fun i hi => hcopied.copied i (List.mem_range.mpr hi),
    fun a ha => hcopied.kept a fun i hi => ha i (List.mem_range.mp hi), ?_⟩
  refine hcopied.unique (byteLoop_copied fun i j => ?_)
  exact spares_of_apart (Nat.le_of_lt length.isLt) hapart

/-- Two words go to the place right behind them. -/
theorem memcpy_copies_words :
    let mem : Memory := fun a => UInt8.ofNat a
    (memcpy mem 8 0 8).2 = byteLoop 8 0 8 0 mem :=
  (memcpy_copies (fun a => UInt8.ofNat a) 8 0 8 (by decide)).2.2

/-! ### Where `memcpy` is used -/

/-- Where nothing wraps, the bytes at `d` and those outside say what `memcpy` leaves. -/
theorem memcpy_eq_of_bytes {length : BitVec 64} {mem' : Memory}
    (hd : d.toNat + length.toNat ≤ 2 ^ 64) (hs : s.toNat + length.toNat ≤ 2 ^ 64)
    (hapart : d.toNat + length.toNat ≤ s.toNat ∨ s.toNat + length.toNat ≤ d.toNat ∨
      length.toNat = 0)
    (hbytes : ∀ i < length.toNat, mem' (d.toNat + i) = mem (s.toNat + i))
    (hkept : ∀ a, a < d.toNat ∨ d.toNat + length.toNat ≤ a → mem' a = mem a) :
    (memcpy mem d s length).2 = mem' := by
  have hdst : ∀ i < length.toNat, byteAt d i = d.toNat + i := fun i hi => byteAt_of_lt (by omega)
  have hsrc : ∀ i < length.toNat, byteAt s i = s.toNat + i := fun i hi => byteAt_of_lt (by omega)
  refine (memcpy_copied fun i hi j hj => ?_).unique ⟨fun i hi => ?_, fun a ha => hkept a ?_⟩
  · rw [hdst i hi, hsrc j hj]
    omega
  · have hlt := List.mem_range.mp hi
    rw [hdst i hlt, hsrc i hlt, hbytes i hlt]
  · by_contra hin
    have hlt : a - d.toNat < length.toNat := by omega
    refine ha (a - d.toNat) (List.mem_range.mpr hlt) ?_
    rw [hdst _ hlt]
    omega

/-- **The module loader**'s copy, where nothing wraps. -/
theorem memcpy_eq_image (hd : d.toNat + n ≤ 2 ^ 64) (hs : s.toNat + n ≤ 2 ^ 64)
    (hapart : d.toNat + n ≤ s.toNat ∨ s.toNat + n ≤ d.toNat ∨ n = 0) {length : BitVec 64}
    (hlength : length.toNat = n) :
    (memcpy mem d s length).2 = Image.memcpy mem d.toNat s.toNat n := by
  subst hlength
  refine memcpy_eq_of_bytes hd hs hapart (fun i hi => ?_) fun a ha => ?_
  · rw [Image.memcpy_apply hapart, if_pos (by omega), Nat.add_sub_cancel_left]
  · rw [Image.memcpy_apply hapart, if_neg (by omega)]

/-- **The copy of a buffer onto the stack**, where nothing wraps. -/
theorem memcpy_eq_chunk {buf : List UInt8} {length : BitVec 64} (hbuf : Holds mem s.toNat buf)
    (hlen : length.toNat = buf.length) (hd : d.toNat + buf.length < 2 ^ 64)
    (hs : s.toNat + buf.length ≤ 2 ^ 64)
    (hapart : d.toNat + buf.length ≤ s.toNat ∨ s.toNat + buf.length ≤ d.toNat) :
    (memcpy mem d s length).2 = writeChunk mem (Exec.memcpy d buf length.toNat) := by
  have hwhole : writeChunk mem (Exec.memcpy d buf length.toNat) = writeBytes mem d buf := by
    rw [writeChunk, Exec.memcpy, hlen, List.take_length]
  rw [hwhole]
  refine memcpy_eq_of_bytes (by omega) (by omega) (by omega) (fun i hi => ?_) fun a ha => ?_
  · rw [(holds_writeBytes hd).getD (hlen ▸ hi) 0, hbuf.getD (hlen ▸ hi) 0]
  · exact writeBytes_apart hd (hlen ▸ ha)

/-- `copy_argv_ptr_array_to_stack`, the pointers standing at `kernelBuf`. -/
theorem copyArgv_memcpy {current kernelBuf : Ptr} {argc : Nat} {buf : List Ptr}
    (hbuf : Holds mem kernelBuf.toNat (wordsBytes buf)) (hargc : buf.length = argc + 1)
    (hroom : kernelBuf.toNat + 8 * buf.length ≤ 2 ^ 64) :
    let array := Exec.copyArgvPtrArrayToStack current argc buf
    array.1.toNat + 8 * buf.length < 2 ^ 64 →
    (array.1.toNat + 8 * buf.length ≤ kernelBuf.toNat ∨
      kernelBuf.toNat + 8 * buf.length ≤ array.1.toNat) →
    (memcpy mem array.1 kernelBuf (BitVec.ofNat 64 (Exec.argvArrayTotalSize argc))).2 =
      writeChunk mem array.2 := by
  intro array hfit hapart
  have hsize : Exec.argvArrayTotalSize argc = (wordsBytes buf).length := by
    rw [length_wordsBytes, hargc, Exec.argvArrayTotalSize, Nat.mul_comm]
  have hbound : Exec.argvArrayTotalSize argc < 2 ^ 64 := by
    rw [hsize, length_wordsBytes]
    omega
  have hlen : (BitVec.ofNat 64 (Exec.argvArrayTotalSize argc)).toNat =
      Exec.argvArrayTotalSize argc := by
    rw [BitVec.toNat_ofNat, Nat.mod_eq_of_lt hbound]
  rw [← length_wordsBytes] at hroom hfit hapart
  have hcopy := memcpy_eq_chunk hbuf (hlen.trans hsize) hfit hroom hapart
  rw [hcopy, hlen]
  rfl

end TpeSo.KernelLib
