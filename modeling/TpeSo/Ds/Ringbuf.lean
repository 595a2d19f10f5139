import Mathlib.Data.List.Basic
import Mathlib.Data.List.TakeDrop
import Mathlib.Logic.Function.Basic
import Mathlib.Data.Nat.ModEq

namespace TpeSo.Ds

/-!
# `ds/ringbuf.h` — the ring buffer and its FIFO reading

`head` and `tail` range over `0 .. size`: an index that has reached `size` is reset only by
the next access.  Emptiness is `head == tail` on the raw indices, fullness compares the
indices modulo `size` and keeps one cell unused.

* `contents` — the unread bytes, oldest first;
* `Ringbuf.Wf` — the index combinations that `ringbuf_read` and `ringbuf_write` can reach
  from an empty ring;
* `ringbufRead_spec`, `ringbufWrite_spec` — on such a ring the two operations are removal
  from the front and appending to the back of `contents`.
-/

/-- `struct ringbuf`; `buf` is the array of `size` bytes. -/
structure Ringbuf where
  buf : Nat → UInt8
  size : Nat
  head : Nat
  tail : Nat

/-- `ringbuf_new` / `RINGBUF_NEW`: an empty ring. -/
def ringbufNew (size : Nat) : Ringbuf where
  buf := fun _ => 0
  size := size
  head := 0
  tail := 0

/-- `ringbuf_available`. -/
def ringbufAvailable (r : Ringbuf) : Nat :=
  if r.head ≤ r.tail then r.tail - r.head else r.tail + r.size - r.head

/-- The lazy wrap every access starts with: an index at `size` becomes `0`. -/
def wrapIdx (r : Ringbuf) (i : Nat) : Nat := if i = r.size then 0 else i

/-- `ringbuf_read` of `n` bytes: the ring afterwards and the bytes stored in the caller's
    buffer, whose number is the returned count. -/
def ringbufRead (r : Ringbuf) : Nat → Ringbuf × List UInt8
  | 0 => (r, [])
  | n + 1 =>
    if r.head = r.tail then (r, [])
    else
      let h := wrapIdx r r.head
      let res := ringbufRead { r with head := h + 1 } n
      (res.1, r.buf h :: res.2)

/-- `ringbuf_write` of the caller's bytes: the ring afterwards and the returned count. -/
def ringbufWrite (r : Ringbuf) : List UInt8 → Ringbuf × Nat
  | [] => (r, 0)
  | b :: bs =>
    if (r.tail + 1) % r.size = r.head % r.size then (r, 0)
    else
      let t := wrapIdx r r.tail
      let res := ringbufWrite { r with buf := Function.update r.buf t b, tail := t + 1 } bs
      (res.1, res.2 + 1)

/-- `ringbuf_read_until`: read up to and including the first `c`, at most `count` bytes. -/
def ringbufReadUntil (r : Ringbuf) (c : UInt8) : Nat → Ringbuf × List UInt8
  | 0 => (r, [])
  | n + 1 =>
    if r.head = r.tail then (r, [])
    else
      let h := wrapIdx r r.head
      let r' := { r with head := h + 1 }
      if r.buf h = c then (r', [r.buf h])
      else
        let res := ringbufReadUntil r' c n
        (res.1, r.buf h :: res.2)

/-- The loop of `ringbuf_find` from index `head` with `count` bytes seen; `none` once the
    fuel is used up. -/
def ringbufFindFrom (r : Ringbuf) (c : UInt8) : Nat → Nat → Nat → Option Nat
  | 0, _, _ => none
  | fuel + 1, head, count =>
    if head = r.tail then some 0
    else
      let h := wrapIdx r head
      if r.buf h = c then some (count + 1)
      else ringbufFindFrom r c fuel (h + 1) (count + 1)

/-- `ringbuf_find`.  The loop's state is its index, one of `0 .. size`; a scan of
    `size + 2` steps has met one of them twice and so never ends, which is `none`. -/
def ringbufFind (r : Ringbuf) (c : UInt8) : Option Nat :=
  ringbufFindFrom r c (r.size + 2) r.head 0

/-- `ringbuf_unwrite`: drop the last written byte. -/
def ringbufUnwrite (r : Ringbuf) : Ringbuf :=
  if r.tail = r.head then r
  else if r.tail = 0 then { r with tail := r.size - 1 }
  else { r with tail := r.tail - 1 }

/-! ### The FIFO reading -/

/-- The unread bytes, oldest first. -/
def contents (r : Ringbuf) : List UInt8 :=
  (List.range (ringbufAvailable r)).map fun i => r.buf ((r.head + i) % r.size)

@[simp] theorem contents_length (r : Ringbuf) : (contents r).length = ringbufAvailable r := by
  simp [contents]

/-- The index combinations that all operations keep. -/
structure Ringbuf.Live (r : Ringbuf) : Prop where
  size_pos : 0 < r.size
  head_le : r.head ≤ r.size
  tail_le : r.tail ≤ r.size
  /-- One cell stays unused. -/
  not_full : ¬ (r.head = 0 ∧ r.tail = r.size)

/-- The index combinations that reads and writes reach from an empty ring. -/
structure Ringbuf.Wf (r : Ringbuf) : Prop where
  size_pos : 0 < r.size
  head_le : r.head ≤ r.size
  tail_le : r.tail ≤ r.size
  /-- One cell stays unused. -/
  not_full : ¬ (r.head = 0 ∧ r.tail = r.size)
  /-- `tail` is `0` only before the first write. -/
  tail_zero : r.tail = 0 → r.head = 0

/-- `ringbuf_unwrite` has moved `tail` back onto `0`, where an empty ring may have
    `head ≠ tail`. -/
def Ringbuf.Rewound (r : Ringbuf) : Prop := r.tail = 0 ∧ r.head ≠ 0

instance (r : Ringbuf) : Decidable r.Rewound := inferInstanceAs (Decidable (_ ∧ _))

/-- The fullness test of `ringbuf_write`: the ring accepts no byte. -/
def Ringbuf.Full (r : Ringbuf) : Prop := (r.tail + 1) % r.size = r.head % r.size

instance (r : Ringbuf) : Decidable r.Full := inferInstanceAs (Decidable (_ = _))

theorem Ringbuf.Wf.live {r : Ringbuf} (h : r.Wf) : r.Live :=
  ⟨h.size_pos, h.head_le, h.tail_le, h.not_full⟩

theorem Ringbuf.Wf.not_rewound {r : Ringbuf} (h : r.Wf) : ¬ r.Rewound :=
  fun hr => hr.2 (h.tail_zero hr.1)

theorem Ringbuf.Live.wf {r : Ringbuf} (h : r.Live) (hr : ¬ r.Rewound) : r.Wf where
  size_pos := h.size_pos
  head_le := h.head_le
  tail_le := h.tail_le
  not_full := h.not_full
  tail_zero ht := by
    by_contra hh
    exact hr ⟨ht, hh⟩

theorem ringbufNew_wf {size : Nat} (h : 0 < size) : (ringbufNew size).Wf where
  size_pos := h
  head_le := Nat.zero_le _
  tail_le := Nat.zero_le _
  not_full := by
    rintro ⟨-, h2⟩
    simp only [ringbufNew] at h2
    omega
  tail_zero := fun _ => rfl

@[simp] theorem contents_ringbufNew (size : Nat) : contents (ringbufNew size) = [] := rfl

variable {r : Ringbuf}

theorem ringbufAvailable_lt (h : r.Live) : ringbufAvailable r < r.size := by
  obtain ⟨h4, h1, h2, h3⟩ := h
  unfold ringbufAvailable
  split <;> omega

/-- The emptiness test of the operations is right as long as `tail` has not been moved back
    onto `0`. -/
theorem ringbufAvailable_eq_zero (h : r.Live) (hr : ¬ r.Rewound) :
    ringbufAvailable r = 0 ↔ r.head = r.tail := by
  have h1 := h.head_le
  have h5 := (h.wf hr).tail_zero
  unfold ringbufAvailable
  split <;> omega

/-- The position just behind the unread bytes is the one `tail` denotes. -/
theorem head_add_available (h : r.Live) : r.head + ringbufAvailable r ≡ r.tail [MOD r.size] := by
  obtain ⟨h4, h1, h2, -⟩ := h
  unfold ringbufAvailable
  split
  · rw [show r.head + (r.tail - r.head) = r.tail by omega]
  · rw [show r.head + (r.tail + r.size - r.head) = r.tail + r.size by omega]
    exact Nat.add_mod_right _ _

theorem wrapIdx_eq_mod (_hpos : 0 < r.size) {i : Nat} (hi : i ≤ r.size) :
    wrapIdx r i = i % r.size := by
  unfold wrapIdx
  split
  · rename_i he
    rw [he, Nat.mod_self]
  · exact (Nat.mod_eq_of_lt (by omega)).symm

/-- The fullness test of `ringbuf_write` says that the ring holds `size - 1` bytes. -/
theorem full_iff (h : r.Live) :
    r.Full ↔ ringbufAvailable r + 1 = r.size := by
  have hlt := ringbufAvailable_lt h
  have hpos := h.size_pos
  have htail : (r.head + (ringbufAvailable r + 1)) % r.size = (r.tail + 1) % r.size :=
    (head_add_available h).add_right 1
  unfold Ringbuf.Full
  rw [← htail]
  constructor
  · intro he
    have hd : r.size ∣ r.head + (ringbufAvailable r + 1) - r.head :=
      (Nat.modEq_iff_dvd' (by omega)).mp he.symm
    have hle := Nat.le_of_dvd (by omega) hd
    omega
  · intro he
    rw [he]
    exact Nat.add_mod_right _ _

/-! ### Reading -/

/-- One iteration of `ringbuf_read`: the oldest byte leaves the ring. -/
theorem read_step (h : r.Live) (hne : ringbufAvailable r ≠ 0) :
    ({ r with head := wrapIdx r r.head + 1 } : Ringbuf).Live ∧
      contents r = r.buf (wrapIdx r r.head)
        :: contents { r with head := wrapIdx r r.head + 1 } := by
  obtain ⟨h4, h1, h2, h3⟩ := h
  have hw : wrapIdx r r.head < r.size := by
    unfold wrapIdx
    split <;> omega
  have hmod : ∀ i, (r.head + (i + 1)) % r.size = (wrapIdx r r.head + 1 + i) % r.size := by
    intro i
    rw [wrapIdx_eq_mod h4 h1, Nat.add_assoc, Nat.mod_add_mod, Nat.add_comm 1 i]
  have havail : ringbufAvailable r
      = ringbufAvailable { r with head := wrapIdx r r.head + 1 } + 1 := by
    unfold ringbufAvailable at hne
    simp only [ringbufAvailable, wrapIdx]
    by_cases hle : r.head ≤ r.tail
    · rw [if_pos hle] at hne ⊢
      split <;> split <;> omega
    · rw [if_neg hle] at hne ⊢
      split <;> split <;> omega
  refine ⟨⟨h4, hw, h2, by simp⟩, ?_⟩
  unfold contents
  rw [havail, List.range_succ_eq_map, List.map_cons, List.map_map, Nat.add_zero,
    wrapIdx_eq_mod h4 h1]
  congr 1
  apply List.map_congr_left
  intro i _
  simp only [Function.comp_apply, Nat.succ_eq_add_one]
  rw [hmod i, wrapIdx_eq_mod h4 h1]

/-- The loops of the read operations look at a byte behind the unread ones only on a ring
    whose `tail` has been moved back onto `0`. -/
def Ringbuf.Overruns (r : Ringbuf) (n : Nat) : Prop := r.Rewound ∧ ringbufAvailable r < n

instance (r : Ringbuf) (n : Nat) : Decidable (r.Overruns n) :=
  inferInstanceAs (Decidable (_ ∧ _))

theorem rewound_of_read (hne : ringbufAvailable r ≠ 0)
    (hr : ({ r with head := wrapIdx r r.head + 1 } : Ringbuf).Rewound) : r.Rewound := by
  refine ⟨hr.1, fun hh => hne ?_⟩
  have ht : r.tail = 0 := hr.1
  simp [ringbufAvailable, ht, hh]

theorem Overruns.next (h : r.Live) (hne : ringbufAvailable r ≠ 0) (n : Nat) :
    ({ r with head := wrapIdx r r.head + 1 } : Ringbuf).Overruns n ↔ r.Overruns (n + 1) := by
  obtain ⟨-, hc⟩ := read_step h hne
  have hlen := congrArg List.length hc
  simp only [contents_length, List.length_cons] at hlen
  constructor
  · rintro ⟨hr, hlt⟩
    exact ⟨rewound_of_read hne hr, by omega⟩
  · rintro ⟨⟨ht, -⟩, hlt⟩
    exact ⟨⟨ht, Nat.succ_ne_zero _⟩, by omega⟩

/-- With unread bytes left, the emptiness test of the read operations fails. -/
theorem head_ne_tail (hne : ringbufAvailable r ≠ 0) : r.head ≠ r.tail := by
  intro he
  exact hne (by simp [ringbufAvailable, he])

/-- **`ringbuf_read` removes from the front**, as long as it does not overrun. -/
theorem ringbufRead_front (n : Nat) : ∀ {r : Ringbuf}, r.Live → ¬ r.Overruns n →
    (ringbufRead r n).1.Live ∧ (ringbufRead r n).1.size = r.size ∧
      ((ringbufRead r n).1.Rewound → r.Rewound) ∧
      (ringbufRead r n).2 = (contents r).take n ∧
      contents (ringbufRead r n).1 = (contents r).drop n := by
  induction n with
  | zero => intro r h _; exact ⟨h, rfl, id, rfl, rfl⟩
  | succ n ih =>
    intro r h hok
    by_cases h0 : ringbufAvailable r = 0
    · have hr : ¬ r.Rewound := fun hr => hok ⟨hr, by omega⟩
      have hnil : contents r = [] := List.length_eq_zero_iff.mp (by rw [contents_length, h0])
      rw [ringbufRead, if_pos ((ringbufAvailable_eq_zero h hr).mp h0), hnil, List.take_nil,
        List.drop_nil]
      exact ⟨h, rfl, id, rfl, rfl⟩
    · obtain ⟨hlive, hc⟩ := read_step h h0
      obtain ⟨h1, h2, h3, h4, h5⟩ := ih hlive (mt (Overruns.next h h0 n).mp hok)
      rw [ringbufRead, if_neg (head_ne_tail h0), hc]
      exact ⟨h1, h2, fun hr => rewound_of_read h0 (h3 hr), congrArg _ h4, h5⟩

/-- A read that overruns hands out more than there is. -/
theorem ringbufRead_overrun (n : Nat) : ∀ {r : Ringbuf}, r.Live → r.Overruns n →
    ringbufAvailable r < (ringbufRead r n).2.length := by
  induction n with
  | zero => intro r _ hov; exact absurd hov.2 (Nat.not_lt_zero _)
  | succ n ih =>
    intro r h hov
    by_cases h0 : ringbufAvailable r = 0
    · have hne : r.head ≠ r.tail := by rw [hov.1.1]; exact hov.1.2
      rw [ringbufRead, if_neg hne, h0]
      exact Nat.succ_pos _
    · obtain ⟨hlive, hc⟩ := read_step h h0
      have hlen := congrArg List.length hc
      simp only [contents_length, List.length_cons] at hlen
      have hrec := ih hlive ((Overruns.next h h0 n).mpr hov)
      rw [ringbufRead, if_neg (head_ne_tail h0), hlen]
      exact Nat.succ_lt_succ hrec

/-- `ringbuf_read` on a ring that reads and writes have reached. -/
theorem ringbufRead_spec (n : Nat) {r : Ringbuf} (h : r.Wf) :
    (ringbufRead r n).1.Wf ∧ (ringbufRead r n).1.size = r.size ∧
      (ringbufRead r n).2 ++ contents (ringbufRead r n).1 = contents r := by
  obtain ⟨h1, h2, h3, h4, h5⟩ := ringbufRead_front n h.live fun hov => h.not_rewound hov.1
  refine ⟨h1.wf fun hr => h.not_rewound (h3 hr), h2, ?_⟩
  rw [h4, h5, List.take_append_drop]

/-! ### Writing -/

/-- One iteration of `ringbuf_write`: a byte joins the ring at the back. -/
theorem write_step (h : r.Live) (hroom : ¬ r.Full) (b : UInt8) :
    ({ r with buf := Function.update r.buf (wrapIdx r r.tail) b,
              tail := wrapIdx r r.tail + 1 } : Ringbuf).Wf ∧
      contents { r with buf := Function.update r.buf (wrapIdx r r.tail) b,
                        tail := wrapIdx r r.tail + 1 } = contents r ++ [b] := by
  have hlt := ringbufAvailable_lt h
  have hfree := mt (full_iff h).mpr hroom
  have hpos := head_add_available h
  obtain ⟨h4, h1, h2, h3⟩ := h
  have havail : ringbufAvailable
      { r with buf := Function.update r.buf (wrapIdx r r.tail) b, tail := wrapIdx r r.tail + 1 }
      = ringbufAvailable r + 1 := by
    unfold ringbufAvailable at hlt hfree
    simp only [ringbufAvailable, wrapIdx]
    by_cases hle : r.head ≤ r.tail
    · rw [if_pos hle] at hlt hfree ⊢
      split <;> split <;> omega
    · rw [if_neg hle] at hlt hfree ⊢
      split <;> split <;> omega
  have hnotfull : ¬ (r.head = 0 ∧ wrapIdx r r.tail + 1 = r.size) := by
    rintro ⟨hh, ht⟩
    have hav : ringbufAvailable r + 1 = wrapIdx r r.tail + 1 := by
      rw [← havail]
      simp [ringbufAvailable, hh]
    exact hfree (hav.trans ht)
  have hw : wrapIdx r r.tail < r.size := by
    unfold wrapIdx
    split <;> omega
  refine ⟨⟨h4, h1, hw, hnotfull, by simp⟩, ?_⟩
  unfold contents
  rw [havail, List.range_succ, List.map_append, List.map_singleton]
  dsimp only
  rw [show (r.head + ringbufAvailable r) % r.size = _ from hpos, ← wrapIdx_eq_mod h4 h2,
    Function.update_self]
  congr 1
  apply List.map_congr_left
  intro i hi
  rw [List.mem_range] at hi
  -- the cell written differs from every unread one: both lie within one turn
  apply Function.update_of_ne
  rw [wrapIdx_eq_mod h4 h2, ← show (r.head + ringbufAvailable r) % r.size = _ from hpos]
  intro heq
  have hd : r.size ∣ (r.head + ringbufAvailable r) - (r.head + i) :=
    (Nat.modEq_iff_dvd' (by omega)).mp heq
  have hle := Nat.le_of_dvd (by omega) hd
  omega

/-- A full ring accepts nothing. -/
theorem ringbufWrite_full (h : r.Full) (bs : List UInt8) : ringbufWrite r bs = (r, 0) := by
  cases bs with
  | nil => rfl
  | cons b bs => exact if_pos h

/-- **`ringbuf_write` appends the longest prefix that fits.** -/
theorem ringbufWrite_back (bs : List UInt8) : ∀ {r : Ringbuf}, r.Live →
    (ringbufWrite r bs).1.Live ∧ (ringbufWrite r bs).1.size = r.size ∧
      ((ringbufWrite r bs).1.Rewound → r.Rewound) ∧
      (ringbufWrite r bs).2 = min bs.length (r.size - 1 - ringbufAvailable r) ∧
      contents (ringbufWrite r bs).1 = contents r ++ bs.take (ringbufWrite r bs).2 := by
  induction bs with
  | nil => intro r h; exact ⟨h, rfl, id, by simp [ringbufWrite], by simp [ringbufWrite]⟩
  | cons b bs ih =>
    intro r h
    by_cases hfull : r.Full
    · have hav := (full_iff h).mp hfull
      rw [ringbufWrite_full hfull]
      exact ⟨h, rfl, id, by omega, by simp⟩
    · have hav := mt (full_iff h).mpr hfull
      have hlt := ringbufAvailable_lt h
      obtain ⟨hwf, hc⟩ := write_step h hfull b
      obtain ⟨h1, h2, h3, h4, h5⟩ := ih hwf.live
      have hlen := congrArg List.length hc
      simp only [contents_length, List.length_append, List.length_singleton] at hlen
      rw [ringbufWrite, if_neg (show ¬ (r.tail + 1) % r.size = r.head % r.size from hfull)]
      refine ⟨h1, h2, fun hr => ?_, ?_, ?_⟩
      · exact absurd (h3 hr).1 (Nat.succ_ne_zero _)
      · dsimp only at h4 ⊢
        rw [h4, hlen, List.length_cons]
        omega
      · rw [h5, hc, List.take_succ_cons, List.append_assoc, List.singleton_append]

/-- `ringbuf_write` on a ring that reads and writes have reached. -/
theorem ringbufWrite_spec (bs : List UInt8) {r : Ringbuf} (h : r.Wf) :
    (ringbufWrite r bs).1.Wf ∧ (ringbufWrite r bs).1.size = r.size ∧
      contents (ringbufWrite r bs).1 = contents r ++ bs.take (ringbufWrite r bs).2 := by
  obtain ⟨h1, h2, h3, -, h5⟩ := ringbufWrite_back bs h.live
  exact ⟨h1.wf fun hr => h.not_rewound (h3 hr), h2, h5⟩

end TpeSo.Ds
