import TpeSo.Ds.Deque
import TpeSo.Kernel.Keyboard
import TpeSo.Kernel.Syscall

namespace TpeSo

open Ds Lib

/-!
# Keyboard — where `get_line` stores the line

`get_line` reads a line into the caller's buffer and, when the line is longer than the
caller asked for, the rest of it into a local array of 128 bytes.  The second read is
limited by the size of the ring, not by that of the array.

* `getLineStores` — the bytes the two reads store;
* `getLineChecked` — `get_line`, where a store behind `rest_buffer` has no meaning;
* `getLineChecked_eq_ok` — what comes back is what `getLine` computes;
* `getLineStores_line` — **what is stored of one line**: the front in `buffer`, all the rest
  in `rest_buffer`;
* `takesLine_iff`, `storesFit_iff` — a read takes one line, and stays inside its buffers,
  exactly if at most 128 bytes of the line are left over.
-/

variable {k : Kernel} {w rest : List UInt8} {count : Nat}

/-- `sizeof(rest_buffer)`. -/
def restBufferSize : Nat := 128

/-- The bytes that `get_line` stores in each of its buffers, from index `0` on. -/
structure LineStores where
  buffer : List UInt8
  restBuffer : List UInt8

/-- `get_line` with the stores its reads make. -/
def getLineStores (k : Kernel) (count : Nat) : Kernel × LineStores :=
  if k.canonicalMode then
    let r := ringbufReadUntil k.kbuff newline count
    if r.2.length = count ∧ r.2.getLast? ≠ some newline then
      let rest := ringbufReadUntil r.1 newline kbuffSize
      ({ k with kbuff := rest.1 }, ⟨r.2, rest.2⟩)
    else ({ k with kbuff := r.1 }, ⟨r.2, []⟩)
  else
    let r := ringbufRead k.kbuff count
    ({ k with kbuff := r.1 }, ⟨r.2, []⟩)

/-- `get_line`.  It looks at `buffer[count - 1]`, and a store behind `rest_buffer` destroys
    the stack frame. -/
def getLineChecked (k : Kernel) (count : Nat) : Outcome (Kernel × List UInt8) :=
  let r := getLineStores k count
  if k.canonicalMode ∧ count = 0 ∨ restBufferSize < r.2.restBuffer.length then .fault
  else .ok (r.1, r.2.buffer)

/-- The ring and the caller's buffer end up as in `getLine`. -/
theorem getLineStores_eq (k : Kernel) (count : Nat) :
    ((getLineStores k count).1, (getLineStores k count).2.buffer) = getLine k count := by
  unfold getLineStores getLine
  split
  · dsimp only
    split <;> rfl
  · rfl

/-- What comes back is what `getLine` computes. -/
theorem getLineChecked_eq_ok {r : Kernel × List UInt8} (h : getLineChecked k count = .ok r) :
    getLine k count = r := by
  unfold getLineChecked at h
  dsimp only at h
  split at h
  · cases h
  · rw [← getLineStores_eq]
    exact Outcome.ok.inj h

/-! ### One line -/

/-- A line: a newline ends it, and it has no other. -/
def IsLine (w : List UInt8) : Prop := ∃ l, w = l ++ [newline] ∧ newline ∉ l

theorem IsLine.idxOf (h : IsLine w) (rest : List UInt8) :
    (w ++ rest).idxOf newline + 1 = w.length := by
  obtain ⟨l, rfl, hl⟩ := h
  rw [List.append_assoc, List.idxOf_append_of_notMem hl, List.length_append]
  simp

theorem IsLine.mem (h : IsLine w) : newline ∈ w := by
  obtain ⟨l, rfl, -⟩ := h
  simp

/-- A part of a line ends with the newline only if it is the whole line. -/
theorem IsLine.getLast?_take (h : IsLine w) :
    (w.take count).getLast? = some newline ↔ w.length ≤ count := by
  constructor
  · intro hlast
    by_contra hlt
    obtain ⟨l, rfl, hl⟩ := h
    rw [List.length_append, List.length_singleton] at hlt
    rw [List.take_append_of_le_length (by omega)] at hlast
    exact hl (List.mem_of_mem_take (List.mem_of_getLast? hlast))
  · intro hle
    obtain ⟨l, rfl, -⟩ := h
    rw [List.take_of_length_le hle, List.getLast?_concat]

/-- What is left of a line is one, unless nothing is. -/
theorem IsLine.drop (h : IsLine w) (hlt : count < w.length) : IsLine (w.drop count) := by
  obtain ⟨l, rfl, hl⟩ := h
  rw [List.length_append, List.length_singleton] at hlt
  refine ⟨l.drop count, ?_, fun hmem => hl (List.mem_of_mem_drop hmem)⟩
  rw [List.drop_append_of_le_length (by omega)]

/-- A read of at most `count` bytes of the line in front. -/
theorem readUntil_line {r : Ringbuf} (hlive : r.Live) (hc : contents r = w ++ rest)
    (hw : IsLine w) (count : Nat) :
    (ringbufReadUntil r newline count).1.Live ∧
      (ringbufReadUntil r newline count).2 = w.take count ∧
      contents (ringbufReadUntil r newline count).1 = w.drop count ++ rest := by
  have hmem : newline ∈ contents r := by
    rw [hc]
    exact List.mem_append_left _ hw.mem
  obtain ⟨hlive', -, hread, hrest⟩ := ringbufReadUntil_front newline count hlive (.inl hmem)
  rw [hc, hw.idxOf] at hread hrest
  refine ⟨hlive', ?_, ?_⟩
  · rw [hread, List.take_append_of_le_length (Nat.min_le_right _ _)]
    exact List.take_eq_take_min.symm
  · rw [hrest, List.drop_append_of_le_length (Nat.min_le_right _ _)]
    congr 1
    -- the read stops at the limit or behind the newline, whichever comes first
    rcases Nat.le_total count w.length with hle | hle
    · rw [Nat.min_eq_left hle]
    · rw [Nat.min_eq_right hle, List.drop_length, List.drop_of_length_le hle]

section Line

variable (hlive : k.kbuff.Live) (hsize : k.kbuff.size = kbuffSize)
  (hmode : k.canonicalMode = true) (hc : contents k.kbuff = w ++ rest) (hw : IsLine w)
include hlive hsize hmode hc hw

/-- **What is stored of one line.** -/
theorem getLineStores_line (count : Nat) :
    contents (getLineStores k count).1.kbuff = rest ∧
      (getLineStores k count).2.buffer = w.take count ∧
      (getLineStores k count).2.restBuffer = w.drop count := by
  obtain ⟨hlive', hread, hrest⟩ := readUntil_line hlive hc hw count
  unfold getLineStores
  rw [if_pos hmode]
  dsimp only
  by_cases hle : w.length ≤ count
  · -- the newline has come along, so that no second read is made
    rw [List.drop_of_length_le hle] at hrest ⊢
    rw [if_neg]
    · exact ⟨hrest, hread, rfl⟩
    · rw [hread]
      exact fun h => h.2 (hw.getLast?_take.mpr hle)
  · have hlt : count < w.length := Nat.lt_of_not_le hle
    rw [if_pos]
    · -- the ring is larger than what is left, and the limit is the ring's size
      have hshort : (w.drop count).length ≤ kbuffSize := by
        have havail := ringbufAvailable_lt hlive
        rw [← contents_length, hc, List.length_append] at havail
        rw [List.length_drop]
        omega
      obtain ⟨-, hread', hrest'⟩ := readUntil_line hlive' hrest (hw.drop hlt) kbuffSize
      rw [List.drop_of_length_le hshort] at hrest'
      rw [List.take_of_length_le hshort] at hread'
      exact ⟨hrest', hread, hread'⟩
    · rw [hread, List.length_take, Nat.min_eq_left hlt.le]
      exact ⟨rfl, fun hlast => hle (hw.getLast?_take.mp hlast)⟩

end Line

/-- A read of `count` bytes takes the line `w` and leaves `rest`. -/
def TakesLine (k : Kernel) (count : Nat) (w rest : List UInt8) : Prop :=
  ∃ r, getLineChecked k count = .ok r ∧ r.2.length = min count w.length ∧
    r.2 = w.take count ∧ contents r.1.kbuff = rest

/-- The stores stay inside the two buffers. -/
def StoresFit (s : LineStores) (count : Nat) : Prop :=
  s.buffer.length ≤ count ∧ s.restBuffer.length ≤ restBufferSize

/-- **A read takes exactly one line** as long as at most 128 bytes of it are left over. -/
theorem takesLine_iff (hlive : k.kbuff.Live) (hsize : k.kbuff.size = kbuffSize)
    (hmode : k.canonicalMode = true) (hc : contents k.kbuff = w ++ rest) (hw : IsLine w)
    (hcount : 1 ≤ count) :
    TakesLine k count w rest ↔ w.length ≤ count + restBufferSize := by
  obtain ⟨hrest, hbuf, htail⟩ := getLineStores_line hlive hsize hmode hc hw count
  have hlen : (getLineStores k count).2.restBuffer.length = w.length - count := by
    rw [htail, List.length_drop]
  unfold TakesLine getLineChecked
  dsimp only
  constructor
  · rintro ⟨r, hr, -⟩
    split at hr
    · cases hr
    · rename_i hin
      rw [hlen] at hin
      omega
  · intro hle
    refine ⟨_, if_neg ?_, ?_, hbuf, hrest⟩
    · rw [hlen]
      omega
    · show (getLineStores k count).2.buffer.length = _
      rw [hbuf, List.length_take]

/-- **The stores stay inside the buffers** as long as at most 128 bytes are left over. -/
theorem storesFit_iff (hlive : k.kbuff.Live) (hsize : k.kbuff.size = kbuffSize)
    (hmode : k.canonicalMode = true) (hc : contents k.kbuff = w ++ rest) (hw : IsLine w)
    (_hcount : 1 ≤ count) :
    StoresFit (getLineStores k count).2 count ↔ w.length ≤ count + restBufferSize := by
  obtain ⟨-, hbuf, htail⟩ := getLineStores_line hlive hsize hmode hc hw count
  rw [StoresFit, hbuf, htail, List.length_drop, List.length_take]
  omega

/-! ### A line of 130 bytes, read one byte at a time -/

/-- 129 times `a`, and Enter. -/
def longLine : List UInt8 := List.replicate 129 97 ++ [newline]

/-- `kbuff` after the line has been written to it. -/
def longLineKernel : Kernel :=
  { boot fun _ => true with kbuff := (ringbufWrite (ringbufNew kbuffSize) longLine).1 }

theorem longLine_length : longLine.length = 130 := by
  rw [longLine, List.length_append, List.length_replicate, List.length_singleton]

theorem longLine_isLine : IsLine longLine :=
  ⟨_, rfl, fun hmem => absurd (List.eq_of_mem_replicate hmem) (by decide)⟩

/-- What fits into an empty ring is there after the write. -/
theorem written_new {size : Nat} (hpos : 0 < size) (bs : List UInt8) (hle : bs.length < size) :
    (ringbufWrite (ringbufNew size) bs).1.Live ∧
      (ringbufWrite (ringbufNew size) bs).1.size = size ∧
      contents (ringbufWrite (ringbufNew size) bs).1 = bs := by
  obtain ⟨hlive, hsize, -, hcount, hc⟩ := ringbufWrite_back bs (ringbufNew_wf hpos).live
  have havail : ringbufAvailable (ringbufNew size) = 0 := by
    rw [← contents_length, contents_ringbufNew, List.length_nil]
  refine ⟨hlive, hsize, ?_⟩
  rw [hc, hcount, havail, contents_ringbufNew, List.nil_append]
  exact List.take_of_length_le (Nat.le_min.mpr ⟨Nat.le_refl _, Nat.le_sub_one_of_lt hle⟩)

theorem longLineKernel_ring : longLineKernel.kbuff.Live ∧ longLineKernel.kbuff.size = kbuffSize ∧
    contents longLineKernel.kbuff = longLine ++ [] := by
  rw [List.append_nil]
  unfold longLineKernel
  dsimp only
  exact written_new (by decide) longLine (by rw [longLine_length]; decide)

/-- Reading one byte of it asks for 129 in `rest_buffer`. -/
theorem longLine_restBuffer :
    (getLineStores longLineKernel 1).2.restBuffer.length = 129 := by
  obtain ⟨hlive, hsize, hc⟩ := longLineKernel_ring
  obtain ⟨-, -, htail⟩ := getLineStores_line hlive hsize rfl hc longLine_isLine 1
  rw [htail, List.length_drop, longLine_length]

/-- The line is there, and the read does not take it. -/
theorem longLine_not_taken : contents longLineKernel.kbuff = longLine ++ [] ∧
    IsLine longLine ∧ ¬ TakesLine longLineKernel 1 longLine [] := by
  refine ⟨longLineKernel_ring.2.2, longLine_isLine, ?_⟩
  rintro ⟨r, hr, -⟩
  unfold getLineChecked at hr
  dsimp only at hr
  rw [if_pos (.inr (by rw [longLine_restBuffer]; decide))] at hr
  cases hr

/-- The line is there, and the read leaves `rest_buffer`. -/
theorem longLine_not_fit : contents longLineKernel.kbuff = longLine ++ [] ∧
    IsLine longLine ∧ ¬ StoresFit (getLineStores longLineKernel 1).2 1 := by
  refine ⟨longLineKernel_ring.2.2, longLine_isLine, fun h => ?_⟩
  have hfit := h.2
  rw [longLine_restBuffer] at hfit
  exact absurd hfit (by decide)

/-- 30 bytes fit. -/
theorem takesLine_longLine : TakesLine longLineKernel 30 longLine [] :=
  (takesLine_iff longLineKernel_ring.1 longLineKernel_ring.2.1 rfl longLineKernel_ring.2.2
    longLine_isLine (by decide)).mpr (by rw [longLine_length]; decide)

theorem storesFit_longLine : StoresFit (getLineStores longLineKernel 30).2 30 :=
  (storesFit_iff longLineKernel_ring.1 longLineKernel_ring.2.1 rfl longLineKernel_ring.2.2
    longLine_isLine (by decide)).mpr (by rw [longLine_length]; decide)

end TpeSo
