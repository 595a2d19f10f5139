import TpeSo.Ds.RingSearch

namespace TpeSo.Ds

open Lib

/-!
# `ringbuf_read_noconsume` — peeking at the unread bytes

`ringbuf_read` compares its index with `tail` before it wraps it; the peek wraps first.  Its
start `head + off` is not reduced, and a start behind `size` is never wrapped.

* `peekFrom`, `ringbufReadNoconsume` — the loop and the operation;
* `peek_front` — what lies between the start and `tail` is handed out in order;
* `peek_through`, `peek_outside` — a `tail` at `size` that the loop passes by, and a start
  outside the array;
* `peek_iff_read` — **the peek hands out what a read would exactly when it asks for nothing,
  or starts inside the array and, with `tail` at `size`, asks for no more than there is.**
-/

/-- The loop of `ringbuf_read_noconsume` from index `head`; `none` once it looks at a byte
    outside the array. -/
def peekFrom (r : Ringbuf) : Nat → Nat → Option (List UInt8)
  | _, 0 => some []
  | head, n + 1 =>
    let h := wrapIdx r head
    if h = r.tail then some []
    else if h < r.size then (peekFrom r (h + 1) n).map (r.buf h :: ·)
    else none

/-- `ringbuf_read_noconsume` at offset `off`: the ring, which it has no assignment to, and the
    bytes stored in the caller's buffer, whose number is the returned count. -/
def ringbufReadNoconsume (r : Ringbuf) (off n : Nat) : Option (Ringbuf × List UInt8) :=
  let head := r.head + off
  if r.head < r.tail ∧ r.tail < head then some (r, [])
  else (peekFrom r head n).map fun bytes => (r, bytes)

/-- The operations of the kernel's FIFO rings. -/
def RingOp.plain : RingOp → Prop
  | .write _ => True
  | .read _ => True
  | .readUntil _ _ => False
  | .unwrite => False

instance : ∀ op : RingOp, Decidable op.plain
  | .write _ => instDecidableTrue
  | .read _ => instDecidableTrue
  | .readUntil _ _ => instDecidableFalse
  | .unwrite => instDecidableFalse

theorem wf_ringStep {r : Ringbuf} (h : r.Wf) {op : RingOp} (hop : op.plain) :
    (ringStep r op).1.Wf := by
  cases op with
  | write bs => exact (ringbufWrite_spec bs h).1
  | read n => exact (ringbufRead_spec n h).1
  | readUntil c count => exact hop.elim
  | unwrite => exact hop.elim

theorem wf_after (ops : List RingOp) : ∀ {r : Ringbuf}, r.Wf → (∀ op ∈ ops, op.plain) →
    (after ringStep r ops).Wf := by
  induction ops with
  | nil => intro r h _; exact h
  | cons op ops ih =>
    intro r h hops
    exact ih (wf_ringStep h (hops op (List.mem_cons_self ..)))
      fun op' hmem => hops op' (List.mem_cons_of_mem _ hmem)

/-- On reads and writes alone `tail` stays where the emptiness test is right. -/
theorem ringAfter_wf {size : Nat} (hpos : 0 < size) (buf : Nat → UInt8) {ops : List RingOp}
    (hops : ∀ op ∈ ops, op.plain) : (ringAfter buf size ops).Wf := by
  have hwf := ringbufNew_wf hpos
  exact wf_after ops ⟨hwf.size_pos, hwf.head_le, hwf.tail_le, hwf.not_full, hwf.tail_zero⟩ hops

variable {r : Ringbuf}

/-! ### The loop -/

/-- The loop looks at the ring's array, size and `tail` only. -/
theorem peekFrom_head (h n : Nat) : ∀ i, peekFrom { r with head := h } i n = peekFrom r i n := by
  induction n with
  | zero => intro i; rfl
  | succ n ih =>
    intro i
    simp only [peekFrom]
    rw [ih]
    rfl

/-- With unread bytes left the wrapped index is not `tail`. -/
theorem wrapIdx_ne_tail (h : r.Live) (h0 : ringbufAvailable r ≠ 0) :
    wrapIdx r r.head ≠ r.tail := by
  have h1 := h.head_le
  have h3 := h.not_full
  unfold ringbufAvailable at h0
  unfold wrapIdx
  split at h0 <;> split <;> omega

/-- Without unread bytes the wrapped index is `tail`, unless `tail` stands at `size`. -/
theorem wrapIdx_eq_tail (h : r.Live) (ht : r.tail ≠ r.size) (h0 : ringbufAvailable r = 0) :
    wrapIdx r r.head = r.tail := by
  have h1 := h.head_le
  have h2 := h.tail_le
  unfold ringbufAvailable at h0
  unfold wrapIdx
  split at h0 <;> split <;> omega

/-- The bytes in front of `tail` are handed out in order. -/
theorem peek_front (n : Nat) : ∀ {r : Ringbuf}, r.Live → n ≤ ringbufAvailable r ∨ r.tail ≠ r.size →
    peekFrom r r.head n = some ((contents r).take n) := by
  induction n with
  | zero => intro r _ _; rfl
  | succ n ih =>
    intro r h hok
    rw [peekFrom]
    by_cases h0 : ringbufAvailable r = 0
    · have ht : r.tail ≠ r.size := hok.resolve_left (by omega)
      have hnil : contents r = [] := List.length_eq_zero_iff.mp (by rw [contents_length, h0])
      rw [if_pos (wrapIdx_eq_tail h ht h0), hnil, List.take_nil]
    · obtain ⟨hlive, hc⟩ := read_step h h0
      have hlen := congrArg List.length hc
      simp only [contents_length, List.length_cons] at hlen
      have hrec := ih hlive (hok.imp_left fun hle => by omega)
      rw [peekFrom_head] at hrec
      rw [if_neg (wrapIdx_ne_tail h h0), if_pos (wrapIdx_lt h h.head_le), hrec, hc,
        List.take_succ_cons]
      rfl

/-- An index is never equal to a `tail` that stands at `size`: the loop goes on. -/
theorem peek_through (h : r.Live) (ht : r.tail = r.size) (n : Nat) : ∀ {i : Nat}, i ≤ r.size →
    ∃ bytes, peekFrom r i n = some bytes ∧ bytes.length = n := by
  induction n with
  | zero => intro i _; exact ⟨[], rfl, rfl⟩
  | succ n ih =>
    intro i hi
    have hlt := wrapIdx_lt h hi
    obtain ⟨bytes, hb, hlen⟩ := ih (Nat.succ_le_of_lt hlt)
    refine ⟨r.buf (wrapIdx r i) :: bytes, ?_, congrArg Nat.succ hlen⟩
    rw [peekFrom]
    rw [if_neg (by omega), if_pos hlt, hb]
    rfl

/-- A start behind `size` is not wrapped. -/
theorem peek_outside (h : r.Live) {i : Nat} (hi : r.size < i) (n : Nat) :
    peekFrom r i (n + 1) = none := by
  have hle := h.tail_le
  have hw : wrapIdx r i = i := if_neg (Nat.ne_of_gt hi)
  rw [peekFrom]
  rw [hw, if_neg (by omega), if_neg (by omega)]

/-! ### The start -/

/-- Moving `head` on inside the array drops the bytes passed. -/
theorem contents_advance (h : r.Live) {off : Nat} (hoff : off ≤ ringbufAvailable r)
    (hle : r.head + off ≤ r.size) :
    ({ r with head := r.head + off } : Ringbuf).Live ∧
      contents { r with head := r.head + off } = (contents r).drop off := by
  obtain ⟨h4, h1, h2, h3⟩ := h
  have hav : ringbufAvailable { r with head := r.head + off } = ringbufAvailable r - off := by
    unfold ringbufAvailable at hoff ⊢
    dsimp only
    split at hoff <;> split <;> omega
  refine ⟨⟨h4, hle, h2, fun hn => ?_⟩, ?_⟩
  · dsimp only at hn
    omega
  · refine List.ext_getElem (by rw [contents_length, List.length_drop, contents_length, hav]) ?_
    intro i _ _
    simp only [contents, List.getElem_map, List.getElem_range, List.getElem_drop]
    rw [Nat.add_assoc]

theorem noconsume_eq {off : Nat} (hoff : off ≤ ringbufAvailable r) (n : Nat) :
    ringbufReadNoconsume r off n =
      (peekFrom r (r.head + off) n).map fun bytes => (r, bytes) := by
  refine if_neg fun hn => ?_
  unfold ringbufAvailable at hoff
  rw [if_pos hn.1.le] at hoff
  omega

theorem peek_eq_read_iff (hwf : r.Wf) {off : Nat} (hoff : off ≤ ringbufAvailable r) (n : Nat) :
    ringbufReadNoconsume r off n = some (r, (ringbufRead r (off + n)).2.drop off) ↔
      n = 0 ∨ r.head + off ≤ r.size ∧ (r.tail = r.size → off + n ≤ ringbufAvailable r) := by
  obtain ⟨-, -, -, hread, -⟩ :=
    ringbufRead_front (off + n) hwf.live fun hov => hwf.not_rewound hov.1
  rw [noconsume_eq hoff, hread, List.drop_take, Nat.add_sub_cancel_left]
  cases n with
  | zero => simp [peekFrom]
  | succ n =>
    rw [or_iff_right (Nat.succ_ne_zero n)]
    by_cases hin : r.head + off ≤ r.size
    · obtain ⟨hlive, hdrop⟩ := contents_advance hwf.live hoff hin
      have hav := congrArg List.length hdrop
      rw [contents_length, List.length_drop, contents_length] at hav
      rw [and_iff_right hin]
      constructor
      · intro heq ht
        obtain ⟨bytes, hb, hlen⟩ := peek_through hwf.live ht (n + 1) hin
        rw [hb] at heq
        have hbytes := congrArg (fun o => o.map fun p => p.2.length) heq
        simp only [Option.map_some, Option.some.injEq, List.length_take, List.length_drop,
          contents_length] at hbytes
        omega
      · intro hok
        have hfront := peek_front (n + 1) hlive (by
          rw [hav]
          by_cases ht : r.tail = r.size
          · exact .inl (by have := hok ht; omega)
          · exact .inr ht)
        rw [peekFrom_head] at hfront
        dsimp only at hfront
        rw [hfront, hdrop]
        rfl
    · rw [peek_outside hwf.live (by omega)]
      constructor
      · intro heq
        cases heq
      · exact fun hok => absurd hok.1 hin

/-- **Peek against read.**  After any sequence of writes and reads, a peek at an offset within
    the unread bytes leaves the ring as it is and hands out what a read of `off + n` bytes
    hands out behind its first `off`, if and only if it asks for nothing, or it starts within
    the array and, where `tail` stands at `size`, asks for no more than there is. -/
theorem peek_iff_read {size : Nat} (hsize : 2 ≤ size) (buf : Nat → UInt8) {ops : List RingOp}
    (hops : ∀ op ∈ ops, op.plain) {off : Nat}
    (hoff : off ≤ ringbufAvailable (ringAfter buf size ops)) (n : Nat) :
    let r := ringAfter buf size ops
    ringbufReadNoconsume r off n = some (r, (ringbufRead r (off + n)).2.drop off) ↔
      n = 0 ∨ r.head + off ≤ r.size ∧ (r.tail = r.size → off + n ≤ ringbufAvailable r) :=
  peek_eq_read_iff (ringAfter_wf (by omega) buf hops) hoff n

/-- Three cells, one unread byte in the last of them. -/
def lastCellOps : List RingOp := [.write [1, 2], .read 2, .write [3]]

theorem peek_iff_read_last :
    ringbufReadNoconsume (ringAfter (fun _ => 0) 3 lastCellOps) 0 1 =
        some (ringAfter (fun _ => 0) 3 lastCellOps,
          (ringbufRead (ringAfter (fun _ => 0) 3 lastCellOps) (0 + 1)).2.drop 0) ↔
      1 = 0 ∨ (ringAfter (fun _ => 0) 3 lastCellOps).head + 0 ≤ 3 ∧
        ((ringAfter (fun _ => 0) 3 lastCellOps).tail = 3 →
          0 + 1 ≤ ringbufAvailable (ringAfter (fun _ => 0) 3 lastCellOps)) :=
  peek_iff_read (by decide) (fun _ => 0) (by decide) (Nat.zero_le _) 1

/-- A peek of two bytes at the one unread byte goes on with a byte read long ago; with one
    byte more in the ring, a peek behind both starts outside the array. -/
theorem peek_ne_read :
    (ringbufReadNoconsume (ringAfter (fun _ => 0) 3 lastCellOps) 0 2).map Prod.snd =
        some [3, 1] ∧
      (ringbufRead (ringAfter (fun _ => 0) 3 lastCellOps) 2).2 = [3] ∧
      (ringbufReadNoconsume (ringAfter (fun _ => 0) 3 (lastCellOps ++ [.write [4]])) 2 1).map
          Prod.snd = none ∧
      (ringbufRead (ringAfter (fun _ => 0) 3 (lastCellOps ++ [.write [4]])) 3).2 = [3, 4] := by
  decide

end TpeSo.Ds
