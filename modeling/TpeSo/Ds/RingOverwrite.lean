import TpeSo.Ds.Ringbuf

namespace TpeSo.Ds

/-!
# `ringbuf_write_overwrite` — the ring of the kernel log

A writer that finds the ring full is meant to push `head` on and lose the oldest byte.  The
test for that compares `head` modulo `size` with `tail` modulo `size`, plus one, and the sum
is not reduced: at the last cell it misses a `head` at `0`.

* `ringbufWriteOverwrite`, `logAfter` — one call, and the log after a sequence of calls;
* `Logged` — `head` never leaves `0`, and the cells in front of `tail` hold the last bytes
  written;
* `log_keeps_recent_iff` — **the log keeps the last `size - 1` bytes exactly when it has not
  wrapped, or the wrap is one byte away or just completed.**
-/

/-- `ringbuf_write_overwrite` of the caller's bytes: the ring afterwards and the returned
    count. -/
def ringbufWriteOverwrite (r : Ringbuf) : List UInt8 → Ringbuf × Nat
  | [] => (r, 0)
  | b :: bs =>
    let r :=
      if r.head % r.size = r.tail % r.size + 1 then { r with head := r.head % r.size + 1 }
      else r
    let t := wrapIdx r r.tail
    let res := ringbufWriteOverwrite
      { r with buf := Function.update r.buf t b, tail := t + 1 } bs
    (res.1, res.2 + 1)

/-- The log after the calls `calls`, from an empty ring whose array holds `buf`. -/
def logAfter (buf : Nat → UInt8) (size : Nat) (calls : List (List UInt8)) : Ringbuf :=
  calls.foldl (fun r bs => (ringbufWriteOverwrite r bs).1) { ringbufNew size with buf := buf }

/-- What `ringbuf_read` hands out when it is asked for everything. -/
def unread (r : Ringbuf) : List UInt8 := (ringbufRead r r.size).2

/-- The unread bytes are the last of `written`, `size - 1` of them unless fewer have been
    written, and `ringbuf_available` is their number. -/
structure KeepsRecent (r : Ringbuf) (written : List UInt8) : Prop where
  suffix : unread r <:+ written
  enough : min written.length (r.size - 1) ≤ (unread r).length
  available : ringbufAvailable r = (unread r).length

/-! ### What the calls keep -/

/-- `head` stands at `0` and the cells in front of `tail` hold the last bytes of `written`. -/
structure Logged (size : Nat) (r : Ringbuf) (written : List UInt8) : Prop where
  size_eq : r.size = size
  head_eq : r.head = 0
  tail_le : r.tail ≤ size
  tail_zero : r.tail = 0 → written = []
  /-- `tail` counts the bytes written, as an index does that is wrapped at the next access. -/
  tail_mod : r.tail % size = written.length % size
  tail_length : r.tail ≤ written.length
  cells : (List.range r.tail).map r.buf = written.drop (written.length - r.tail)

namespace Logged

variable {size : Nat} {r : Ringbuf} {written : List UInt8}

theorem new (size : Nat) (buf : Nat → UInt8) :
    Logged size { ringbufNew size with buf := buf } [] :=
  ⟨rfl, rfl, Nat.zero_le _, fun _ => rfl, rfl, Nat.zero_le _, rfl⟩

/-- One byte: the test for a full ring fails, `head` being `0`. -/
theorem push (h : Logged size r written) (hpos : 0 < size) (b : UInt8) :
    Logged size { r with buf := Function.update r.buf (wrapIdx r r.tail) b,
                         tail := wrapIdx r r.tail + 1 } (written ++ [b]) := by
  obtain ⟨hsize, hhead, hle, hzero, hmod, hlen, hcells⟩ := h
  have hsub : (written ++ [b]).length - (wrapIdx r r.tail + 1)
      = written.length - wrapIdx r r.tail := by
    rw [List.length_append, List.length_singleton, Nat.add_sub_add_right]
  by_cases ht : r.tail = r.size
  · have hw : wrapIdx r r.tail = 0 := if_pos ht
    have hmod' : 0 ≡ written.length [MOD size] := by
      rw [Nat.ModEq, ← hmod, ht, hsize, Nat.mod_self, Nat.zero_mod]
    rw [hw] at hsub ⊢
    refine ⟨hsize, hhead, hpos, fun hn => absurd hn (Nat.succ_ne_zero _), ?_, ?_, ?_⟩
    · rw [List.length_append, List.length_singleton]
      exact hmod'.add_right 1
    · rw [List.length_append, List.length_singleton]
      exact Nat.le_add_left _ _
    · dsimp only
      rw [hsub, Nat.sub_zero, List.drop_left]
      simp
  · have hw : wrapIdx r r.tail = r.tail := if_neg ht
    rw [hw] at hsub ⊢
    refine ⟨hsize, hhead, ?_, fun hn => absurd hn (Nat.succ_ne_zero _), ?_, ?_, ?_⟩
    · dsimp only
      omega
    · rw [List.length_append, List.length_singleton]
      exact Nat.ModEq.add_right 1 hmod
    · rw [List.length_append, List.length_singleton]
      exact Nat.succ_le_succ hlen
    · dsimp only
      rw [hsub, List.drop_append_of_le_length (Nat.sub_le _ _), ← hcells, List.range_succ,
        List.map_append, List.map_singleton, Function.update_self]
      congr 1
      apply List.map_congr_left
      intro i hi
      rw [List.mem_range] at hi
      exact Function.update_of_ne (Nat.ne_of_lt hi) b r.buf

/-- One call, which accepts all its bytes. -/
theorem write (hpos : 0 < size) (bs : List UInt8) : ∀ {r : Ringbuf} {written : List UInt8},
    Logged size r written → Logged size (ringbufWriteOverwrite r bs).1 (written ++ bs) ∧
      (ringbufWriteOverwrite r bs).2 = bs.length := by
  induction bs with
  | nil =>
    intro r written h
    rw [List.append_nil]
    exact ⟨h, rfl⟩
  | cons b bs ih =>
    intro r written h
    have hmiss : ¬ r.head % r.size = r.tail % r.size + 1 := by
      rw [h.head_eq, Nat.zero_mod]
      exact (Nat.succ_ne_zero _).symm
    obtain ⟨hrest, hcount⟩ := ih (h.push hpos b)
    rw [ringbufWriteOverwrite, if_neg hmiss, ← List.singleton_append, ← List.append_assoc]
    exact ⟨hrest, congrArg Nat.succ hcount⟩

/-- A sequence of calls. -/
theorem calls (hpos : 0 < size) (calls : List (List UInt8)) :
    ∀ {r : Ringbuf} {written : List UInt8}, Logged size r written →
      Logged size (calls.foldl (fun r bs => (ringbufWriteOverwrite r bs).1) r)
        (written ++ calls.flatten) := by
  induction calls with
  | nil =>
    intro r written h
    rw [List.flatten_nil, List.append_nil]
    exact h
  | cons bs calls ih =>
    intro r written h
    have hrest := ih (write hpos bs h).1
    rwa [List.append_assoc] at hrest

/-! ### What is read from it -/

/-- A read of a ring that does not wrap. -/
theorem read_straight (n : Nat) : ∀ {r : Ringbuf}, r.head ≤ r.tail → r.tail ≤ r.size →
    (ringbufRead r n).2 =
      (List.range (min n (r.tail - r.head))).map fun i => r.buf (r.head + i) := by
  induction n with
  | zero => intro r _ _; rw [Nat.zero_min]; rfl
  | succ n ih =>
    intro r hle hsize
    rw [ringbufRead]
    by_cases he : r.head = r.tail
    · rw [if_pos he, he, Nat.sub_self, Nat.min_zero]
      rfl
    · have hw : wrapIdx r r.head = r.head := if_neg (by omega)
      have hrest := @ih { r with head := r.head + 1 } (by dsimp only; omega) hsize
      dsimp only at hrest
      rw [if_neg he]
      dsimp only
      rw [hw, hrest, show min (n + 1) (r.tail - r.head) = min n (r.tail - (r.head + 1)) + 1 by
        omega, List.range_succ_eq_map, List.map_cons, List.map_map, Nat.add_zero]
      congr 1
      apply List.map_congr_left
      intro i _
      rw [Function.comp_apply, Nat.succ_eq_add_one, Nat.add_assoc, Nat.add_comm 1 i]

theorem unread_eq (h : Logged size r written) :
    unread r = written.drop (written.length - r.tail) := by
  have hle := h.tail_le
  rw [← h.size_eq] at hle
  rw [unread, read_straight _ (by rw [h.head_eq]; exact Nat.zero_le _) hle, h.head_eq,
    Nat.sub_zero, Nat.min_eq_right hle, ← h.cells]
  simp only [Nat.zero_add]

theorem unread_length (h : Logged size r written) : (unread r).length = r.tail := by
  have hlen := h.tail_length
  rw [h.unread_eq, List.length_drop]
  omega

/-- Where `tail` stands decides how many bytes are kept. -/
theorem keeps_iff (h : Logged size r written) :
    KeepsRecent r written ↔ min written.length (size - 1) ≤ r.tail := by
  constructor
  · intro hk
    have henough := hk.enough
    rwa [h.size_eq, h.unread_length] at henough
  · intro hle
    refine ⟨?_, by rw [h.size_eq, h.unread_length]; exact hle, ?_⟩
    · rw [h.unread_eq]
      exact List.drop_suffix _ _
    · rw [h.unread_length, ringbufAvailable, h.head_eq, if_pos (Nat.zero_le _), Nat.sub_zero]

/-- `tail` in terms of the number of bytes written. -/
theorem tail_ge_iff (h : Logged size r written) (hsize : 2 ≤ size) :
    min written.length (size - 1) ≤ r.tail ↔
      written.length ≤ size ∨ written.length % size = 0 ∨ written.length % size = size - 1 := by
  obtain ⟨-, -, hle, hzero, hmod, hlen, -⟩ := h
  rw [← hmod]
  by_cases ht : r.tail = size
  · rw [ht, Nat.mod_self]
    omega
  · have hlt : r.tail < size := by omega
    rw [Nat.mod_eq_of_lt hlt] at hmod ⊢
    by_cases hfew : written.length ≤ size
    · by_cases hfull : written.length = size
      · rw [hfull, Nat.mod_self] at hmod
        have hnil := congrArg List.length (hzero hmod)
        rw [List.length_nil] at hnil
        omega
      · rw [Nat.mod_eq_of_lt (by omega)] at hmod
        omega
    · have hne : r.tail ≠ 0 := fun h0 => by
        rw [hzero h0, List.length_nil] at hfew
        omega
      omega

end Logged

theorem logAfter_logged {size : Nat} (hpos : 0 < size) (buf : Nat → UInt8)
    (calls : List (List UInt8)) : Logged size (logAfter buf size calls) calls.flatten := by
  have h := Logged.calls hpos calls (Logged.new size buf)
  rwa [List.nil_append] at h

/-- **The log.**  After any sequence of calls that starts with an empty ring, the unread bytes
    are the last ones written, `size - 1` of them unless fewer have been written, if and only
    if at most `size` bytes have been written or their number is `0` or `size - 1` modulo
    `size`. -/
theorem log_keeps_recent_iff {size : Nat} (hsize : 2 ≤ size) (buf : Nat → UInt8)
    (calls : List (List UInt8)) :
    KeepsRecent (logAfter buf size calls) calls.flatten ↔
      calls.flatten.length ≤ size ∨ calls.flatten.length % size = 0 ∨
        calls.flatten.length % size = size - 1 := by
  have h := logAfter_logged (show 0 < size by omega) buf calls
  rw [h.keeps_iff, h.tail_ge_iff hsize]

theorem log_keeps_recent_wrapped :
    KeepsRecent (logAfter (fun _ => 0) 3 [[1, 2], [3, 4, 5]]) [1, 2, 3, 4, 5] ↔
      [1, 2, 3, 4, 5].length ≤ 3 ∨ [1, 2, 3, 4, 5].length % 3 = 0 ∨
        [1, 2, 3, 4, 5].length % 3 = 3 - 1 :=
  log_keeps_recent_iff (by decide) (fun _ => 0) [[1, 2], [3, 4, 5]]

/-- The fourth byte written into three cells leaves it alone in the log. -/
theorem log_forgets :
    unread (logAfter (fun _ => 0) 3 [[1, 2, 3, 4]]) = [4] ∧
      ¬ KeepsRecent (logAfter (fun _ => 0) 3 [[1, 2, 3, 4]]) [1, 2, 3, 4] := by
  refine ⟨by decide, fun hk => ?_⟩
  have henough := hk.enough
  revert henough
  decide

end TpeSo.Ds
