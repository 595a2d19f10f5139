import TpeSo.Ds.Deque

namespace TpeSo.Ds

open Lib

/-!
# `ringbuf_find` on the ring of typed bytes

`next_line_length` looks for a newline with interrupts off, in a loop that stops at the
character or at an index equal to `tail`.  An index at `size` is wrapped by the access, which
leaves `1` behind: apart from the start, the loop never compares `0` with `tail`.

* `ringAfter` — the ring after a sequence of operations, whatever they ran past;
* `find_mem`, `find_absent`, `find_rewound` — the loop meets `c`, the loop meets `tail`, and
  a `tail` at `0` that the loop passes by;
* `ringbufFind_exact_iff` — **the search returns, and returns the right position, exactly
  when `tail` has not been moved back onto `0` or `c` is there.**
-/

/-- The 1-based position of the first `c`, `0` if there is none. -/
def linePosition (c : UInt8) (bs : List UInt8) : Nat := if c ∈ bs then bs.idxOf c + 1 else 0

/-- The ring after the operations `ops`, from an empty ring whose array holds `buf`. -/
def ringAfter (buf : Nat → UInt8) (size : Nat) (ops : List RingOp) : Ringbuf :=
  after ringStep { ringbufNew size with buf := buf } ops

/-- `ringbuf_find` returns `v`. -/
def FindReturns (r : Ringbuf) (c : UInt8) (v : Nat) : Prop :=
  ∃ fuel, ringbufFindFrom r c fuel r.head 0 = some v

variable {r : Ringbuf}

/-! ### The indices stay in range -/

theorem live_of_head {h : Nat} (hr : r.Live) (h0 : 0 < h) (hle : h ≤ r.size) :
    ({ r with head := h } : Ringbuf).Live :=
  ⟨hr.size_pos, hle, hr.tail_le, fun hn => absurd hn.1 (Nat.ne_of_gt h0)⟩

theorem wrapIdx_lt (hr : r.Live) {i : Nat} (hi : i ≤ r.size) : wrapIdx r i < r.size := by
  have hpos := hr.size_pos
  unfold wrapIdx
  split <;> omega

theorem live_next_head (hr : r.Live) :
    ({ r with head := wrapIdx r r.head + 1 } : Ringbuf).Live :=
  live_of_head hr (Nat.succ_pos _) (wrapIdx_lt hr hr.head_le)

/-- A read keeps the index combinations even where it overruns. -/
theorem ringbufRead_live (n : Nat) : ∀ {r : Ringbuf}, r.Live →
    (ringbufRead r n).1.Live ∧ (ringbufRead r n).1.size = r.size := by
  induction n with
  | zero => intro r h; exact ⟨h, rfl⟩
  | succ n ih =>
    intro r h
    rw [ringbufRead]
    split
    · exact ⟨h, rfl⟩
    · exact ih (live_next_head h)

theorem ringbufReadUntil_live (c : UInt8) (n : Nat) : ∀ {r : Ringbuf}, r.Live →
    (ringbufReadUntil r c n).1.Live ∧ (ringbufReadUntil r c n).1.size = r.size := by
  induction n with
  | zero => intro r h; exact ⟨h, rfl⟩
  | succ n ih =>
    intro r h
    rw [ringbufReadUntil]
    dsimp only
    split
    · exact ⟨h, rfl⟩
    · split
      · exact ⟨live_next_head h, rfl⟩
      · exact ih (live_next_head h)

theorem ringbufUnwrite_live (h : r.Live) :
    (ringbufUnwrite r).Live ∧ (ringbufUnwrite r).size = r.size := by
  have hpos := h.size_pos
  have htail := h.tail_le
  unfold ringbufUnwrite
  split
  · exact ⟨h, rfl⟩
  · split
    · exact ⟨⟨hpos, h.head_le, Nat.sub_le _ _, by dsimp only; omega⟩, rfl⟩
    · exact ⟨⟨hpos, h.head_le, (Nat.sub_le _ _).trans htail, by dsimp only; omega⟩, rfl⟩

theorem ringStep_live (h : r.Live) (op : RingOp) :
    (ringStep r op).1.Live ∧ (ringStep r op).1.size = r.size := by
  cases op with
  | write bs =>
    obtain ⟨h1, h2, -⟩ := ringbufWrite_back bs h
    exact ⟨h1, h2⟩
  | read n => exact ringbufRead_live n h
  | readUntil c count => exact ringbufReadUntil_live c count h
  | unwrite => exact ringbufUnwrite_live h

/-- Whatever the operations run past, the indices stay within the array. -/
theorem ringAfter_live {size : Nat} (hpos : 0 < size) (buf : Nat → UInt8) (ops : List RingOp) :
    (ringAfter buf size ops).Live ∧ (ringAfter buf size ops).size = size := by
  have hwf := ringbufNew_wf hpos
  refine after_invariant (fun r : Ringbuf => r.Live ∧ r.size = size) (fun r op h => ?_) ops
    ⟨⟨hwf.size_pos, hwf.head_le, hwf.tail_le, hwf.not_full⟩, rfl⟩
  obtain ⟨hlive, hsize⟩ := ringStep_live h.1 op
  exact ⟨hlive, hsize.trans h.2⟩

/-! ### The loop -/

/-- The loop looks at the ring's array, size and `tail` only. -/
theorem findFrom_head (h : Nat) (c : UInt8) (fuel : Nat) : ∀ i n,
    ringbufFindFrom { r with head := h } c fuel i n = ringbufFindFrom r c fuel i n := by
  induction fuel with
  | zero => intro i n; rfl
  | succ fuel ih =>
    intro i n
    simp only [ringbufFindFrom]
    rw [ih]
    rfl

/-- More fuel does not change a result. -/
theorem findFrom_mono {c : UInt8} {fuel v : Nat} : ∀ {fuel' i n : Nat}, fuel ≤ fuel' →
    ringbufFindFrom r c fuel i n = some v → ringbufFindFrom r c fuel' i n = some v := by
  induction fuel with
  | zero => intro fuel' i n _ h; cases h
  | succ fuel ih =>
    intro fuel' i n hle h
    cases fuel' with
    | zero => exact absurd hle (Nat.not_succ_le_zero _)
    | succ m =>
      rw [ringbufFindFrom] at h ⊢
      dsimp only at h ⊢
      by_cases ht : i = r.tail
      · rwa [if_pos ht] at h ⊢
      · rw [if_neg ht] at h ⊢
        by_cases hb : r.buf (wrapIdx r i) = c
        · rwa [if_pos hb] at h ⊢
        · rw [if_neg hb] at h ⊢
          exact ih (Nat.le_of_succ_le_succ hle) h

theorem FindReturns.unique {c : UInt8} {v w : Nat} (hv : FindReturns r c v)
    (hw : FindReturns r c w) : v = w := by
  obtain ⟨f, hf⟩ := hv
  obtain ⟨g, hg⟩ := hw
  have h1 := findFrom_mono (Nat.le_max_left f g) hf
  have h2 := findFrom_mono (Nat.le_max_right f g) hg
  exact Option.some.inj (h1.symm.trans h2)

/-- A character that is there is found at its first position. -/
theorem find_mem {c : UInt8} (fuel : Nat) : ∀ {r : Ringbuf} (n : Nat), r.Live →
    c ∈ contents r → (contents r).idxOf c < fuel →
    ringbufFindFrom r c fuel r.head n = some (n + (contents r).idxOf c + 1) := by
  induction fuel with
  | zero => intro r n _ _ hf; exact absurd hf (Nat.not_lt_zero _)
  | succ fuel ih =>
    intro r n h hmem hf
    have h0 : ringbufAvailable r ≠ 0 := by
      rw [← contents_length]
      exact Nat.ne_of_gt (List.length_pos_of_mem hmem)
    obtain ⟨hlive, hc⟩ := read_step h h0
    rw [ringbufFindFrom, if_neg (head_ne_tail h0)]
    rw [hc] at hmem hf ⊢
    dsimp only
    by_cases hb : r.buf (wrapIdx r r.head) = c
    · rw [if_pos hb, hb, List.idxOf_cons_self]
    · rw [if_neg hb]
      rw [List.idxOf_cons_ne _ hb] at hf ⊢
      have hrec := ih (n + 1) hlive ((List.mem_cons.mp hmem).resolve_left (Ne.symm hb))
        (Nat.lt_of_succ_lt_succ hf)
      rw [findFrom_head] at hrec
      rw [hrec]
      congr 1
      omega

/-- The search for an absent character ends at `tail`, where the loop compares it. -/
theorem find_absent {c : UInt8} (fuel : Nat) : ∀ {r : Ringbuf} (n : Nat), r.Live →
    ¬ r.Rewound → c ∉ contents r → ringbufAvailable r < fuel →
    ringbufFindFrom r c fuel r.head n = some 0 := by
  induction fuel with
  | zero => intro r n _ _ _ hf; exact absurd hf (Nat.not_lt_zero _)
  | succ fuel ih =>
    intro r n h hr hmem hf
    rw [ringbufFindFrom]
    by_cases h0 : ringbufAvailable r = 0
    · rw [if_pos ((ringbufAvailable_eq_zero h hr).mp h0)]
    · obtain ⟨hlive, hc⟩ := read_step h h0
      have hlen := congrArg List.length hc
      simp only [contents_length, List.length_cons] at hlen
      rw [hc, List.mem_cons, not_or] at hmem
      rw [if_neg (head_ne_tail h0)]
      dsimp only
      rw [if_neg (Ne.symm hmem.1)]
      have hrec := ih (n + 1) hlive (fun hr' => hr (rewound_of_read h0 hr')) hmem.2 (by omega)
      rwa [findFrom_head] at hrec

/-- With `tail` at `0`, a loop that has left `0` never reports "not found". -/
theorem find_rewound (ht : r.tail = 0) (c : UInt8) (fuel : Nat) : ∀ {i : Nat} (n : Nat),
    i ≠ 0 → ringbufFindFrom r c fuel i n ≠ some 0 := by
  induction fuel with
  | zero => intro i n _ h; cases h
  | succ fuel ih =>
    intro i n hi
    rw [ringbufFindFrom, ht, if_neg hi]
    dsimp only
    split
    · exact fun h => Nat.succ_ne_zero n (Option.some.inj h)
    · exact ih (n + 1) (Nat.succ_ne_zero _)

/-- With `tail` at `0` the loop goes round the whole array. -/
theorem find_round (ht : r.tail = 0) (hpos : 0 < r.size) (c : UInt8) (fuel : Nat) :
    ∀ {i : Nat} (n : Nat), i ≠ 0 → i ≤ r.size →
      ((∃ v, ringbufFindFrom r c fuel i n = some v) ↔
        ∃ s < fuel, r.buf ((i + s) % r.size) = c) := by
  induction fuel with
  | zero =>
    intro i n _ _
    constructor
    · rintro ⟨v, hv⟩
      cases hv
    · rintro ⟨s, hs, -⟩
      exact absurd hs (Nat.not_lt_zero _)
  | succ fuel ih =>
    intro i n hi hle
    have hw := wrapIdx_eq_mod hpos hle
    have hlt : wrapIdx r i < r.size := hw ▸ Nat.mod_lt _ hpos
    rw [ringbufFindFrom, ht, if_neg hi]
    dsimp only
    by_cases hb : r.buf (wrapIdx r i) = c
    · rw [if_pos hb]
      constructor
      · exact fun _ => ⟨0, Nat.succ_pos _, by rw [Nat.add_zero, ← hw, hb]⟩
      · exact fun _ => ⟨n + 1, rfl⟩
    · have hnext : ∀ s, (wrapIdx r i + 1 + s) % r.size = (i + (s + 1)) % r.size := by
        intro s
        rw [hw, Nat.add_assoc, Nat.mod_add_mod, Nat.add_comm 1 s]
      rw [if_neg hb, ih (n + 1) (Nat.succ_ne_zero _) hlt]
      constructor
      · rintro ⟨s, hs, he⟩
        exact ⟨s + 1, Nat.succ_lt_succ hs, by rw [← hnext, he]⟩
      · rintro ⟨s, hs, he⟩
        cases s with
        | zero => exact absurd (by rw [hw, ← Nat.add_zero i, he]) hb
        | succ s => exact ⟨s, Nat.lt_of_succ_lt_succ hs, by rw [hnext, he]⟩

/-- A search of `size + 2` steps on a ring whose `tail` was moved back onto `0`. -/
theorem ringbufFind_rewound (h : r.Live) (hr : r.Rewound) (c : UInt8) :
    (∃ v, ringbufFind r c = some v) ↔ ∃ i < r.size, r.buf i = c := by
  rw [ringbufFind, find_round hr.1 h.size_pos c _ 0 hr.2 h.head_le]
  constructor
  · rintro ⟨s, -, hs⟩
    exact ⟨_, Nat.mod_lt _ h.size_pos, hs⟩
  · rintro ⟨i, hi, hb⟩
    have hle := h.head_le
    refine ⟨(r.size - r.head + i) % r.size, ?_, ?_⟩
    · exact (Nat.mod_lt _ h.size_pos).trans_le (Nat.le_add_right _ _)
    · rw [Nat.add_mod_mod, show r.head + (r.size - r.head + i) = r.size + i by omega,
        Nat.add_mod_left, Nat.mod_eq_of_lt hi, hb]

theorem ringbufFind_mem (h : r.Live) {c : UInt8} (hmem : c ∈ contents r) :
    ringbufFind r c = some (linePosition c (contents r)) := by
  have hidx := List.idxOf_lt_length_of_mem hmem
  have hlt := ringbufAvailable_lt h
  rw [contents_length] at hidx
  rw [ringbufFind, find_mem _ 0 h hmem (by omega), linePosition, if_pos hmem, Nat.zero_add]

theorem ringbufFind_absent (h : r.Live) (hr : ¬ r.Rewound) {c : UInt8}
    (hmem : c ∉ contents r) : ringbufFind r c = some 0 := by
  have hlt := ringbufAvailable_lt h
  exact find_absent _ 0 h hr hmem (by omega)

/-- The bound of `size + 2` steps cuts no search short. -/
theorem ringbufFind_eq_some_iff (h : r.Live) {c : UInt8} {v : Nat} :
    ringbufFind r c = some v ↔ FindReturns r c v := by
  constructor
  · exact fun hv => ⟨_, hv⟩
  · intro hv
    obtain ⟨w, hw⟩ : ∃ w, ringbufFind r c = some w := by
      by_cases hmem : c ∈ contents r
      · exact ⟨_, ringbufFind_mem h hmem⟩
      · by_cases hr : r.Rewound
        · obtain ⟨fuel, hf⟩ := hv
          obtain ⟨s, -, hs⟩ := (find_round hr.1 h.size_pos c fuel 0 hr.2 h.head_le).mp ⟨v, hf⟩
          exact (ringbufFind_rewound h hr c).mpr ⟨_, Nat.mod_lt _ h.size_pos, hs⟩
        · exact ⟨0, ringbufFind_absent h hr hmem⟩
    rw [hw, FindReturns.unique ⟨_, hw⟩ hv]

/-- **The search never ends** on a ring whose `tail` was moved back onto `0` and whose array
    holds `c` nowhere. -/
theorem ringbufFind_hangs_iff (h : r.Live) (c : UInt8) :
    ringbufFind r c = none ↔ r.Rewound ∧ ∀ i < r.size, r.buf i ≠ c := by
  constructor
  · intro hnone
    have hr : r.Rewound := by
      by_contra hr
      by_cases hmem : c ∈ contents r
      · rw [ringbufFind_mem h hmem] at hnone
        cases hnone
      · rw [ringbufFind_absent h hr hmem] at hnone
        cases hnone
    refine ⟨hr, fun i hi hb => ?_⟩
    obtain ⟨v, hv⟩ := (ringbufFind_rewound h hr c).mpr ⟨i, hi, hb⟩
    rw [hnone] at hv
    cases hv
  · rintro ⟨hr, hno⟩
    rw [Option.eq_none_iff_forall_ne_some]
    intro v hv
    obtain ⟨i, hi, hb⟩ := (ringbufFind_rewound h hr c).mp ⟨v, hv⟩
    exact hno i hi hb

theorem find_exact_iff (h : r.Live) (c : UInt8) :
    FindReturns r c (linePosition c (contents r)) ↔ ¬ r.Rewound ∨ c ∈ contents r := by
  by_cases hmem : c ∈ contents r
  · exact ⟨fun _ => .inr hmem, fun _ => ⟨_, ringbufFind_mem h hmem⟩⟩
  · rw [linePosition, if_neg hmem, or_iff_left hmem]
    constructor
    · rintro ⟨fuel, hf⟩ hr
      exact find_rewound hr.1 c fuel 0 hr.2 hf
    · exact fun hr => ⟨_, ringbufFind_absent h hr hmem⟩

/-- **The line search.**  After any sequence of writes, reads, line reads and taken-back bytes
    `ringbuf_find` returns the position of the first `c` among the unread bytes, or `0` when it
    is not among them, if and only if `tail` has not been moved back onto `0` from behind
    `head`, or `c` is among the unread bytes.  As long as no operation has run past them,
    these are the bytes that a deque holds after the same operations. -/
theorem ringbufFind_exact_iff {size : Nat} (hsize : 2 ≤ size) (buf : Nat → UInt8)
    (ops : List RingOp) (c : UInt8) :
    (FindReturns (ringAfter buf size ops) c (linePosition c (contents (ringAfter buf size ops))) ↔
        ¬ (ringAfter buf size ops).Rewound ∨ c ∈ contents (ringAfter buf size ops)) ∧
      (Always ringStep (fun r op => ¬ op.runsPast r) { ringbufNew size with buf := buf } ops →
        contents (ringAfter buf size ops) =
          (after dequeStep (Deque.empty UInt8 (size - 1)) ops).items) := by
  have hwf := ringbufNew_wf (show 0 < size by omega)
  refine ⟨find_exact_iff (ringAfter_live (by omega) buf ops).1 c, fun hok => ?_⟩
  refine (after_related (f := ringStep) (g := dequeStep) Tracks
    (fun r d op hR hok => (hR.step hok).2) ops ?_ hok).items_eq
  exact ⟨⟨hwf.size_pos, hwf.head_le, hwf.tail_le, hwf.not_full⟩, by
    show size = size - 1 + 1
    omega, rfl⟩

theorem ringbufFind_exact_rewound :
    (FindReturns (ringAfter (fun _ => 0) 2 rewindOps) 10
          (linePosition 10 (contents (ringAfter (fun _ => 0) 2 rewindOps))) ↔
        ¬ (ringAfter (fun _ => 0) 2 rewindOps).Rewound ∨
          10 ∈ contents (ringAfter (fun _ => 0) 2 rewindOps)) ∧
      (Always ringStep (fun r op => ¬ op.runsPast r) (ringbufNew 2) rewindOps →
        contents (ringAfter (fun _ => 0) 2 rewindOps) =
          (after dequeStep (Deque.empty UInt8 1) rewindOps).items) :=
  ringbufFind_exact_iff (le_refl 2) (fun _ => 0) rewindOps 10

/-- The byte typed at the wrap point has been taken back: no byte is unread, and the search
    for a newline goes round the two cells for ever. -/
theorem ringbufFind_endless :
    ringbufAvailable (ringAfter (fun _ => 0) 2 rewindOps) = 0 ∧
      ∀ v, ¬ FindReturns (ringAfter (fun _ => 0) 2 rewindOps) 10 v := by
  have hlive := (ringAfter_live (show 0 < 2 by decide) (fun _ => 0) rewindOps).1
  refine ⟨by decide, fun v hv => ?_⟩
  have hnone : ringbufFind (ringAfter (fun _ => 0) 2 rewindOps) 10 = none := by decide
  rw [(ringbufFind_eq_some_iff hlive).mpr hv] at hnone
  cases hnone

end TpeSo.Ds
