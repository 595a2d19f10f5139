import TpeSo.Ds.RingSearch
import TpeSo.Lib.Lines

namespace TpeSo.Ds

open Lib

/-!
# Reading the line that a search has found

`read_line` reads only after `ringbuf_find` has found a newline.  The search may have gone
past `tail`, when that was moved back onto `0`, and the read then goes the same way.

* `readUntil_found` — **a read follows the search**: it ends right behind the character, or
  runs out of count before it and the search goes on from there;
* `find_le_size` — a search meets the character within one turn;
* `contents_rewound` — the unread bytes of a ring whose `tail` stands at `0`;
* `lastLine_readUntil` — a read of the first line leaves the unfinished one alone.
-/

variable {r : Ringbuf} {c : UInt8}

/-- A found position lies behind the start and within the fuel. -/
theorem findFrom_bounds {fuel v : Nat} : ∀ {i m : Nat}, ringbufFindFrom r c fuel i m = some v →
    v ≠ 0 → m < v ∧ v ≤ m + fuel := by
  induction fuel with
  | zero => intro i m h _; cases h
  | succ fuel ih =>
    intro i m h hv
    rw [ringbufFindFrom] at h
    dsimp only at h
    split at h
    · exact absurd (Option.some.inj h).symm hv
    · split at h
      · have he := Option.some.inj h
        omega
      · have hrec := ih h hv
        omega

/-- **A read follows the search.** -/
theorem readUntil_found (fuel : Nat) : ∀ {r : Ringbuf} {m n : Nat}, r.Live →
    ringbufFindFrom r c fuel r.head m = some (m + n) → n ≠ 0 → ∀ count,
    (n ≤ count → ∃ h, (ringbufReadUntil r c count).1 = { r with head := h } ∧ h ≠ 0 ∧
      h ≤ r.size ∧ r.buf (h - 1) = c ∧ (ringbufReadUntil r c count).2.getLast? = some c) ∧
    (count < n → ∃ h, (ringbufReadUntil r c count).1 = { r with head := h } ∧
      ({ r with head := h } : Ringbuf).Live ∧
      (∃ fuel', ringbufFindFrom r c fuel' h (m + count) = some (m + n)) ∧
      (ringbufReadUntil r c count).2.length = count ∧
      (ringbufReadUntil r c count).2.getLast? ≠ some c) := by
  induction fuel with
  | zero => intro r m n _ h _; cases h
  | succ fuel ih =>
    intro r m n hlive hfind h0 count
    cases count with
    | zero =>
      refine ⟨fun hle => absurd (Nat.le_zero.mp hle) h0, fun _ => ?_⟩
      exact ⟨r.head, rfl, hlive, ⟨_, hfind⟩, rfl, nofun⟩
    | succ count =>
      rw [ringbufFindFrom] at hfind
      dsimp only at hfind
      by_cases ht : r.head = r.tail
      · rw [if_pos ht] at hfind
        have hz := Option.some.inj hfind
        omega
      · rw [if_neg ht] at hfind
        rw [ringbufReadUntil, if_neg ht]
        dsimp only
        by_cases hb : r.buf (wrapIdx r r.head) = c
        · rw [if_pos hb] at hfind ⊢
          have hn := Option.some.inj hfind
          refine ⟨fun _ => ⟨_, rfl, Nat.succ_ne_zero _, wrapIdx_lt hlive hlive.head_le, hb, ?_⟩,
            fun hlt => ?_⟩
          · rw [List.getLast?_singleton, hb]
          · omega
        · rw [if_neg hb] at hfind ⊢
          have hbounds := findFrom_bounds hfind (by omega)
          have hrest : ringbufFindFrom { r with head := wrapIdx r r.head + 1 } c fuel
              (wrapIdx r r.head + 1) (m + 1) = some (m + 1 + (n - 1)) := by
            rw [findFrom_head, hfind]
            congr 1
            omega
          obtain ⟨hall, hpart⟩ := ih (live_next_head hlive) hrest (by omega) count
          constructor
          · intro hle
            obtain ⟨h, he, hne, hsize, hbuf, hlast⟩ := hall (by omega)
            refine ⟨h, he, hne, hsize, hbuf, ?_⟩
            rw [List.getLast?_cons, hlast, Option.getD_some]
          · intro hlt
            obtain ⟨h, he, hl, ⟨fuel', hf⟩, hlen, hlast⟩ := hpart (by omega)
            rw [findFrom_head] at hf
            refine ⟨h, he, hl, ⟨fuel', ?_⟩, by rw [List.length_cons, hlen], ?_⟩
            · rw [show m + (count + 1) = m + 1 + count by omega, hf]
              congr 1
              omega
            · rw [List.getLast?_cons]
              intro hc
              have hc := Option.some.inj hc
              generalize (ringbufReadUntil { r with head := wrapIdx r r.head + 1 } c count).2.getLast?
                = x at hc hlast
              cases x with
              | none => exact hb hc
              | some x => exact hlast (congrArg some hc)

/-- A search meets the character within one turn. -/
theorem find_le_size (h : r.Live) {v : Nat} (hv : ringbufFind r c = some v) : v ≤ r.size := by
  by_cases hmem : c ∈ contents r
  · rw [ringbufFind_mem h hmem, linePosition, if_pos hmem] at hv
    have hidx := List.idxOf_lt_length_of_mem hmem
    have hlt := ringbufAvailable_lt h
    rw [contents_length] at hidx
    have he := Option.some.inj hv
    omega
  · by_cases hr : r.Rewound
    · obtain ⟨i, hi, hb⟩ := (ringbufFind_rewound h hr c).mp ⟨v, hv⟩
      have hle := h.head_le
      have hpos := h.size_pos
      obtain ⟨w, hw⟩ := (find_round hr.1 hpos c r.size 0 hr.2 hle).mpr
        ⟨(r.size - r.head + i) % r.size, Nat.mod_lt _ hpos, by
          rw [Nat.add_mod_mod, show r.head + (r.size - r.head + i) = r.size + i by omega,
            Nat.add_mod_left, Nat.mod_eq_of_lt hi, hb]⟩
      have hsame : w = v := FindReturns.unique ⟨_, hw⟩ ⟨_, hv⟩
      by_cases hv0 : v = 0
      · omega
      · have hbound := (findFrom_bounds (hsame ▸ hw) hv0).2
        omega
    · rw [ringbufFind_absent h hr hmem] at hv
      rw [← Option.some.inj hv]
      exact Nat.zero_le _

/-- The bytes of the array. -/
def cells (r : Ringbuf) : List UInt8 := (List.range r.size).map r.buf

/-- With `tail` at `0` the unread bytes are the end of the array. -/
theorem contents_rewound (h : r.Live) (hr : r.Rewound) : contents r = (cells r).drop r.head := by
  have hle := h.head_le
  have havail : ringbufAvailable r = r.size - r.head := by
    have hhead := hr.2
    rw [ringbufAvailable, hr.1, if_neg (by omega)]
    omega
  apply List.ext_getElem
  · rw [contents_length, havail, cells, List.length_drop, List.length_map, List.length_range]
  · intro i hi _
    rw [contents_length, havail] at hi
    simp only [contents, cells, List.getElem_map, List.getElem_range, List.getElem_drop]
    rw [Nat.mod_eq_of_lt (by omega)]

/-- What follows a `c` of the array ends with the same unfinished line. -/
theorem lastLine_cells {i : Nat} (hi : i ≠ 0) (hle : i ≤ r.size)
    (hbuf : r.buf (i - 1) = c) :
    lastLine c ((cells r).drop i) = lastLine c (cells r) := by
  have hlen : i - 1 < (cells r).length := by
    rw [cells, List.length_map, List.length_range]
    omega
  have hcell : (cells r)[i - 1] = c := by simpa [cells] using hbuf
  conv_rhs => rw [← List.take_append_drop (i - 1) (cells r), List.drop_eq_getElem_cons hlen, hcell,
    lastLine_behind, Nat.sub_add_cancel (Nat.one_le_iff_ne_zero.mpr hi)]

/-- Dropping the part of the first line that a read takes. -/
theorem lastLine_readUntil (h : r.Live) (hmem : c ∈ contents r) (count : Nat) :
    (ringbufReadUntil r c count).1.Live ∧
      lastLine c (contents (ringbufReadUntil r c count).1) =
        lastLine c (contents r) ∧
      ((ringbufReadUntil r c count).2.getLast? ≠ some c →
        c ∈ contents (ringbufReadUntil r c count).1) := by
  obtain ⟨hlive, -, hread, hrest⟩ := ringbufReadUntil_front c count h (.inl hmem)
  rw [hread, hrest]
  refine ⟨hlive, lastLine_drop hmem (Nat.min_le_right _ _), fun hlast => ?_⟩
  have hidx := List.idxOf_lt_length_of_mem hmem
  by_cases hc : count ≤ (contents r).idxOf c
  · rw [Nat.min_eq_left (by omega)]
    refine List.mem_iff_getElem.mpr ⟨(contents r).idxOf c - count, ?_, ?_⟩
    · rw [List.length_drop]
      omega
    · simp only [List.getElem_drop, Nat.add_sub_cancel' hc, List.getElem_idxOf]
  · rw [Nat.min_eq_right (by omega), List.take_succ_eq_append_getElem hidx, List.getElem_idxOf,
      List.getLast?_concat] at hlast
    exact absurd rfl hlast

/-- Taking a byte back leaves `head` and the array alone. -/
theorem ringbufUnwrite_front (r : Ringbuf) :
    (ringbufUnwrite r).head = r.head ∧ (ringbufUnwrite r).buf = r.buf := by
  unfold ringbufUnwrite
  split
  · exact ⟨rfl, rfl⟩
  · split <;> exact ⟨rfl, rfl⟩

end TpeSo.Ds
