import TpeSo.Ds.Ringbuf
import TpeSo.Lib.Mealy

namespace TpeSo.Ds

open Lib

/-!
# The keyboard ring as a bounded deque

`kbuff` is edited with four operations: the driver appends a typed byte and takes the last
one back on a backspace, a reader takes bytes or a line from the front.

* `Deque` — a sequence of at most `cap` values, with the four operations;
* `RingOp`, `ringStep`, `dequeStep` — one operation on a ring and on a deque of bytes; the
  answer of a step is what the operation hands back and how many bytes are there after it;
* `ring_refines_deque` — **a ring that starts empty answers like the deque exactly as long
  as no operation runs past the last unread byte while `tail` stands at `0` and `head` does
  not.**
-/

/-! ### The abstract side -/

/-- At most `cap` values, oldest first. -/
structure Deque (α : Type) (cap : Nat) where
  items : List α
  fits : items.length ≤ cap

namespace Deque

variable {α : Type} {cap : Nat}

/-- No value at all. -/
def empty (α : Type) (cap : Nat) : Deque α cap := ⟨[], Nat.zero_le _⟩

/-- How many values of `xs` there is room for. -/
def accepts (d : Deque α cap) (xs : List α) : Nat := min xs.length (cap - d.items.length)

/-- Append the longest prefix of `xs` there is room for. -/
def write (d : Deque α cap) (xs : List α) : Deque α cap where
  items := d.items ++ xs.take (d.accepts xs)
  fits := by
    have hfits := d.fits
    simp only [accepts, List.length_append, List.length_take]
    omega

/-- Drop the `n` oldest values, or all. -/
def dropFront (d : Deque α cap) (n : Nat) : Deque α cap where
  items := d.items.drop n
  fits := by
    have hfits := d.fits
    rw [List.length_drop]
    omega

/-- How many values a read of at most `n` takes that ends behind the first `c`. -/
def through [DecidableEq α] (d : Deque α cap) (c : α) (n : Nat) : Nat :=
  min n (d.items.idxOf c + 1)

/-- Take back the newest value. -/
def unwrite (d : Deque α cap) : Deque α cap where
  items := d.items.dropLast
  fits := by
    have hfits := d.fits
    rw [List.length_dropLast]
    omega

end Deque

/-! ### One operation -/

/-- The operations applied to `kbuff`. -/
inductive RingOp where
  | write (bs : List UInt8)
  | read (n : Nat)
  | readUntil (c : UInt8) (count : Nat)
  | unwrite

/-- What an operation hands back: a count, and bytes in the caller's buffer. -/
structure RingAnswer where
  count : Nat
  bytes : List UInt8
  /-- `ringbuf_available` after the operation. -/
  available : Nat
  deriving DecidableEq

/-- One operation on a ring. -/
def ringStep (r : Ringbuf) : RingOp → Ringbuf × RingAnswer
  | .write bs =>
    let res := ringbufWrite r bs
    (res.1, ⟨res.2, [], ringbufAvailable res.1⟩)
  | .read n =>
    let res := ringbufRead r n
    (res.1, ⟨res.2.length, res.2, ringbufAvailable res.1⟩)
  | .readUntil c count =>
    let res := ringbufReadUntil r c count
    (res.1, ⟨res.2.length, res.2, ringbufAvailable res.1⟩)
  | .unwrite => (ringbufUnwrite r, ⟨0, [], ringbufAvailable (ringbufUnwrite r)⟩)

/-- One operation on a deque of bytes. -/
def dequeStep {cap : Nat} (d : Deque UInt8 cap) : RingOp → Deque UInt8 cap × RingAnswer
  | .write bs => (d.write bs, ⟨d.accepts bs, [], (d.write bs).items.length⟩)
  | .read n =>
    (d.dropFront n, ⟨min n d.items.length, d.items.take n, (d.dropFront n).items.length⟩)
  | .readUntil c count =>
    let n := d.through c count
    (d.dropFront n, ⟨min n d.items.length, d.items.take n, (d.dropFront n).items.length⟩)
  | .unwrite => (d.unwrite, ⟨0, [], d.unwrite.items.length⟩)

/-- The operation looks at a byte behind the unread ones: it asks for more than there are,
    `tail` having been moved back onto `0` from behind `head`. -/
def RingOp.runsPast (r : Ringbuf) : RingOp → Prop
  | .write _ => False
  | .read n => r.Overruns n
  | .readUntil c count => c ∉ contents r ∧ r.Overruns count
  | .unwrite => r.Overruns 1

instance (r : Ringbuf) : ∀ op : RingOp, Decidable (op.runsPast r)
  | .write _ => instDecidableFalse
  | .read n => inferInstanceAs (Decidable (r.Overruns n))
  | .readUntil c count => inferInstanceAs (Decidable (c ∉ contents r ∧ r.Overruns count))
  | .unwrite => inferInstanceAs (Decidable (r.Overruns 1))

/-! ### Reading a line -/

variable {r : Ringbuf}

/-- **`ringbuf_read_until` removes from the front up to and including the first `c`**, as
    long as it does not overrun. -/
theorem ringbufReadUntil_front (c : UInt8) (n : Nat) : ∀ {r : Ringbuf}, r.Live →
    (c ∈ contents r ∨ ¬ r.Overruns n) →
    (ringbufReadUntil r c n).1.Live ∧ (ringbufReadUntil r c n).1.size = r.size ∧
      (ringbufReadUntil r c n).2 = (contents r).take (min n ((contents r).idxOf c + 1)) ∧
      contents (ringbufReadUntil r c n).1 =
        (contents r).drop (min n ((contents r).idxOf c + 1)) := by
  induction n with
  | zero => intro r h _; simp [ringbufReadUntil, h]
  | succ n ih =>
    intro r h hok
    by_cases h0 : ringbufAvailable r = 0
    · have hnil : contents r = [] := List.length_eq_zero_iff.mp (by rw [contents_length, h0])
      have hr : ¬ r.Rewound := by
        rcases hok with hmem | hok
        · rw [hnil] at hmem
          cases hmem
        · exact fun hr => hok ⟨hr, by omega⟩
      rw [ringbufReadUntil, if_pos ((ringbufAvailable_eq_zero h hr).mp h0), hnil]
      simp [h]
    · obtain ⟨hlive, hc⟩ := read_step h h0
      rw [ringbufReadUntil, if_neg (head_ne_tail h0), hc]
      dsimp only
      by_cases hb : r.buf (wrapIdx r r.head) = c
      · rw [if_pos hb, hb, List.idxOf_cons_self]
        simp [hlive]
      · have hok' : c ∈ contents { r with head := wrapIdx r r.head + 1 } ∨
            ¬ ({ r with head := wrapIdx r r.head + 1 } : Ringbuf).Overruns n := by
          rcases hok with hmem | hok
          · rw [hc] at hmem
            exact .inl ((List.mem_cons.mp hmem).resolve_left (Ne.symm hb))
          · exact .inr (mt (Overruns.next h h0 n).mp hok)
        obtain ⟨h1, h2, h3, h4⟩ := ih hlive hok'
        rw [if_neg hb, List.idxOf_cons_ne _ hb, Nat.succ_min_succ]
        exact ⟨h1, h2, congrArg _ h3, h4⟩

/-- A search for an absent `c` that overruns hands out more than there is. -/
theorem ringbufReadUntil_overrun (c : UInt8) (n : Nat) : ∀ {r : Ringbuf}, r.Live →
    c ∉ contents r → r.Overruns n →
    ringbufAvailable r < (ringbufReadUntil r c n).2.length := by
  induction n with
  | zero => intro r _ _ hov; exact absurd hov.2 (Nat.not_lt_zero _)
  | succ n ih =>
    intro r h hmem hov
    by_cases h0 : ringbufAvailable r = 0
    · have hne : r.head ≠ r.tail := by rw [hov.1.1]; exact hov.1.2
      rw [ringbufReadUntil, if_neg hne, h0]
      dsimp only
      split
      · exact Nat.one_pos
      · exact Nat.succ_pos _
    · obtain ⟨hlive, hc⟩ := read_step h h0
      have hlen := congrArg List.length hc
      simp only [contents_length, List.length_cons] at hlen
      rw [hc, List.mem_cons, not_or] at hmem
      have hrec := ih hlive hmem.2 ((Overruns.next h h0 n).mpr hov)
      rw [ringbufReadUntil, if_neg (head_ne_tail h0), hlen]
      dsimp only
      rw [if_neg (Ne.symm hmem.1)]
      exact Nat.succ_lt_succ hrec

/-! ### Taking a byte back -/

/-- **`ringbuf_unwrite` removes the newest byte**, as long as it does not overrun. -/
theorem ringbufUnwrite_back (h : r.Live) (hok : ¬ r.Overruns 1) :
    (ringbufUnwrite r).Live ∧ (ringbufUnwrite r).size = r.size ∧
      contents (ringbufUnwrite r) = (contents r).dropLast := by
  by_cases h0 : ringbufAvailable r = 0
  · have hr : ¬ r.Rewound := fun hr => hok ⟨hr, by omega⟩
    have hnil : contents r = [] := List.length_eq_zero_iff.mp (by rw [contents_length, h0])
    rw [ringbufUnwrite, if_pos ((ringbufAvailable_eq_zero h hr).mp h0).symm, hnil]
    exact ⟨h, rfl, rfl⟩
  · have hne := head_ne_tail h0
    obtain ⟨t, ht, hlive, hav⟩ : ∃ t, ringbufUnwrite r = { r with tail := t } ∧
        ({ r with tail := t } : Ringbuf).Live ∧
        ringbufAvailable r = ringbufAvailable { r with tail := t } + 1 := by
      obtain ⟨h4, h1, h2, h3⟩ := h
      unfold ringbufAvailable at h0
      by_cases htail : r.tail = 0
      · refine ⟨r.size - 1, by rw [ringbufUnwrite, if_neg hne.symm, if_pos htail], ?_, ?_⟩
        · exact ⟨h4, h1, Nat.sub_le _ _, by dsimp only; omega⟩
        · simp only [ringbufAvailable]
          rw [if_neg (by omega)] at h0 ⊢
          split <;> omega
      · refine ⟨r.tail - 1, by rw [ringbufUnwrite, if_neg hne.symm, if_neg htail], ?_, ?_⟩
        · exact ⟨h4, h1, (Nat.sub_le _ _).trans h2, by dsimp only; omega⟩
        · simp only [ringbufAvailable]
          by_cases hle : r.head ≤ r.tail
          · rw [if_pos hle, if_pos (by omega)]
            omega
          · rw [if_neg hle, if_neg (by omega)]
            omega
    rw [ht]
    refine ⟨hlive, rfl, ?_⟩
    unfold contents
    rw [hav, List.range_succ, List.map_append, List.map_singleton, List.dropLast_concat]

/-- Taking a byte back from an empty ring whose `tail` stands at `0` fills it. -/
theorem ringbufUnwrite_overrun (h : r.Live) (hov : r.Overruns 1) :
    ringbufAvailable (ringbufUnwrite r) + 1 = r.size := by
  obtain ⟨⟨ht, hh⟩, h0⟩ := hov
  have h1 := h.head_le
  have h4 := h.size_pos
  have hhead : r.head = r.size := by
    unfold ringbufAvailable at h0
    split at h0 <;> omega
  rw [ringbufUnwrite, if_neg (by rw [ht]; exact Ne.symm hh), if_pos ht]
  simp only [ringbufAvailable]
  split <;> omega

/-! ### The refinement -/

/-- The ring holds what the deque holds. -/
structure Tracks {cap : Nat} (r : Ringbuf) (d : Deque UInt8 cap) : Prop where
  live : r.Live
  size_eq : r.size = cap + 1
  items_eq : contents r = d.items

namespace Tracks

variable {cap : Nat} {d : Deque UInt8 cap}

theorem available (h : Tracks r d) : ringbufAvailable r = d.items.length := by
  rw [← h.items_eq, contents_length]

/-- An operation that does not run past the unread bytes is answered alike. -/
theorem step (h : Tracks r d) {op : RingOp} (hok : ¬ op.runsPast r) :
    (ringStep r op).2 = (dequeStep d op).2 ∧ Tracks (ringStep r op).1 (dequeStep d op).1 := by
  have hsize : ∀ {r' : Ringbuf}, r'.size = r.size → r'.size = cap + 1 :=
    fun hr => hr.trans h.size_eq
  cases op with
  | write bs =>
    obtain ⟨h1, h2, -, h4, h5⟩ := ringbufWrite_back bs h.live
    have hcount : (ringbufWrite r bs).2 = d.accepts bs := by
      rw [h4, h.size_eq, h.available]
      rfl
    have hT : Tracks (ringbufWrite r bs).1 (d.write bs) :=
      ⟨h1, hsize h2, by rw [h5, hcount, h.items_eq]; rfl⟩
    exact ⟨by simp only [ringStep, dequeStep, hcount, hT.available], hT⟩
  | read n =>
    obtain ⟨h1, h2, -, h4, h5⟩ := ringbufRead_front n h.live hok
    have hT : Tracks (ringbufRead r n).1 (d.dropFront n) :=
      ⟨h1, hsize h2, by rw [h5, h.items_eq]; rfl⟩
    refine ⟨?_, hT⟩
    simp only [ringStep, dequeStep, h4, h.items_eq, hT.available, List.length_take]
  | readUntil c count =>
    have hok' : c ∈ contents r ∨ ¬ r.Overruns count := by
      by_contra hno
      rw [not_or, not_not] at hno
      exact hok hno
    obtain ⟨h1, h2, h4, h5⟩ := ringbufReadUntil_front c count h.live hok'
    have hT : Tracks (ringbufReadUntil r c count).1 (d.dropFront (d.through c count)) :=
      ⟨h1, hsize h2, by rw [h5, h.items_eq]; rfl⟩
    refine ⟨?_, hT⟩
    simp only [ringStep, dequeStep, h4, h.items_eq, hT.available, List.length_take, Deque.through]
  | unwrite =>
    obtain ⟨h1, h2, h3⟩ := ringbufUnwrite_back h.live hok
    have hT : Tracks (ringbufUnwrite r) d.unwrite := ⟨h1, hsize h2, by rw [h3, h.items_eq]; rfl⟩
    exact ⟨by simp only [ringStep, dequeStep, hT.available], hT⟩

/-- An operation that runs past the unread bytes hands out too much, or leaves too much. -/
theorem step_ne (h : Tracks r d) (hcap : 0 < cap) {op : RingOp} (hpast : op.runsPast r) :
    (ringStep r op).2 ≠ (dequeStep d op).2 := by
  intro heq
  have hcount := congrArg RingAnswer.count heq
  have hleft := congrArg RingAnswer.available heq
  cases op with
  | write bs => exact hpast
  | read n =>
    have hlt := ringbufRead_overrun n h.live hpast
    rw [h.available] at hlt
    simp only [ringStep, dequeStep] at hcount
    omega
  | readUntil c count =>
    have hlt := ringbufReadUntil_overrun c count h.live hpast.1 hpast.2
    rw [h.available] at hlt
    simp only [ringStep, dequeStep] at hcount
    omega
  | unwrite =>
    have hfull := ringbufUnwrite_overrun h.live hpast
    have hempty := hpast.2
    rw [h.available] at hempty
    rw [h.size_eq] at hfull
    simp only [ringStep, dequeStep, Deque.unwrite, List.length_dropLast] at hleft
    omega

end Tracks

/-- **The ring is a bounded deque.**  A ring of `size` cells that starts empty, whatever its
    array holds, answers every sequence of operations as a deque of capacity `size - 1` does,
    if and only if no operation of the sequence runs past the unread bytes. -/
theorem ring_refines_deque {size : Nat} (h : 2 ≤ size) (buf : Nat → UInt8) (ops : List RingOp) :
    outputs ringStep { ringbufNew size with buf := buf } ops =
        outputs dequeStep (Deque.empty UInt8 (size - 1)) ops ↔
      Always ringStep (fun r op => ¬ op.runsPast r) { ringbufNew size with buf := buf } ops := by
  have hwf := ringbufNew_wf (show 0 < size by omega)
  refine outputs_eq_iff (f := ringStep) (g := dequeStep) Tracks (fun r d op hR hok => hR.step hok)
    (fun r d op hR hno => hR.step_ne (show 0 < size - 1 by omega) (not_not.mp hno)) ops ?_
  exact ⟨⟨hwf.size_pos, hwf.head_le, hwf.tail_le, hwf.not_full⟩, by
    show size = size - 1 + 1
    omega, rfl⟩

/-- Two cells: both have been written and read, a third byte is typed and taken back. -/
def rewindOps : List RingOp :=
  [.write [1], .read 1, .write [2], .read 1, .write [3], .unwrite]

theorem ring_refines_deque_rewound :
    outputs ringStep { ringbufNew 2 with buf := fun _ => 0 } rewindOps =
      outputs dequeStep (Deque.empty UInt8 (2 - 1)) rewindOps :=
  (ring_refines_deque (le_refl 2) _ rewindOps).mpr (by decide)

/-- The byte taken back is read. -/
theorem ring_not_deque :
    outputs ringStep (ringbufNew 2) (rewindOps ++ [.read 1]) ≠
      outputs dequeStep (Deque.empty UInt8 1) (rewindOps ++ [.read 1]) := by
  decide

end TpeSo.Ds
