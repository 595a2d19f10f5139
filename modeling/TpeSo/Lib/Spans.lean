import TpeSo.Lib.Descend

namespace TpeSo.Lib

/-!
# Writes that stay out of a range

* `Span.Apart`, `Span.Inside` — two ranges of addresses without a common address, and one within
  the other;
* `Chunk.fits` — a write that does not run over the end of the address space;
* `agreeOn_writeAll` — writes apart from a range leave it as it is;
* `words_congr` — words are read back as long as their range is left as it is.
-/

variable {w n : Nat} {mem mem' : Memory} {r s t : Span} {c : Chunk w} {cs : List (Chunk w)}

namespace Span

/-- No address is in both. -/
def Apart (s t : Span) : Prop := s.hi ≤ t.lo ∨ t.hi ≤ s.lo

/-- The addresses of `s` are among those of `t`. -/
structure Inside (s t : Span) : Prop where
  lo : t.lo ≤ s.lo
  hi : s.hi ≤ t.hi

instance (s t : Span) : Decidable (s.Apart t) := inferInstanceAs (Decidable (_ ∨ _))

instance (s t : Span) : Decidable (s.Inside t) :=
  decidable_of_iff (t.lo ≤ s.lo ∧ s.hi ≤ t.hi) ⟨fun h => ⟨h.1, h.2⟩, fun h => ⟨h.lo, h.hi⟩⟩

theorem Apart.symm (h : s.Apart t) : t.Apart s := Or.symm h

theorem Inside.apart_right (h : s.Inside t) (ha : r.Apart t) : r.Apart s :=
  ha.imp (fun hle => hle.trans h.lo) fun hle => h.hi.trans hle

theorem Inside.apart_left (h : s.Inside t) (ha : t.Apart r) : s.Apart r :=
  (h.apart_right ha.symm).symm

end Span

/-- The write does not run over the end of the address space. -/
def Chunk.fits (c : Chunk w) : Prop := c.span.hi < 2 ^ w

instance (c : Chunk w) : Decidable c.fits := inferInstanceAs (Decidable (_ < _))

theorem agreeOn_writeChunk (hfit : c.fits) (hs : c.span.Apart s) :
    AgreeOn s.lo s.len mem (writeChunk mem c) := by
  intro x hlo hhi
  refine writeBytes_apart hfit ?_
  rcases hs with hbelow | habove
  · exact .inr (hbelow.trans hlo)
  · exact .inl (lt_of_lt_of_le hhi habove)

/-- Writes apart from a range leave it as it is. -/
theorem agreeOn_writeAll : ∀ {cs : List (Chunk w)} {mem : Memory},
    (∀ c ∈ cs, c.fits ∧ c.span.Apart s) → AgreeOn s.lo s.len mem (writeAll mem cs) := by
  intro cs
  induction cs with
  | nil => exact fun _ _ _ _ => rfl
  | cons c cs ih =>
    intro mem h x hlo hhi
    obtain ⟨hfit, hs⟩ := h c List.mem_cons_self
    have hlater : AgreeOn s.lo s.len (writeChunk mem c) (writeAll (writeChunk mem c) cs) :=
      ih fun d hd => h d (List.mem_cons_of_mem _ hd)
    exact (hlater x hlo hhi).trans (agreeOn_writeChunk hfit hs x hlo hhi)

/-- One change after another, none of them in the range. -/
theorem AgreeOn.trans {a m : Nat} {mem'' : Memory} (h : AgreeOn a m mem mem')
    (g : AgreeOn a m mem' mem'') : AgreeOn a m mem mem'' :=
  fun x hlo hhi => (g x hlo hhi).trans (h x hlo hhi)

/-- The words of a range that is left as it is. -/
theorem words_congr : ∀ {n : Nat} {sp : BitVec 64}, sp.toNat + 8 * n < 2 ^ 64 →
    AgreeOn sp.toNat (8 * n) mem mem' → words mem' sp n = words mem sp n := by
  intro n
  induction n with
  | zero => exact fun _ _ => rfl
  | succ n ih =>
    intro sp hfit h
    have hnext : (sp + 8).toNat = sp.toNat + 8 := by
      rw [BitVec.toNat_add, Nat.mod_eq_of_lt]
      · rfl
      · show sp.toNat + 8 < 2 ^ 64
        omega
    have hword : loadWord mem' sp = loadWord mem sp := by
      rw [loadWord, loadWord, load_congr (h.mono (le_refl _) (by omega))]
    have hrest : words mem' (sp + 8) n = words mem (sp + 8) n := by
      refine ih (by omega) ?_
      rw [hnext]
      exact h.mono (by omega) (by omega)
    rw [words, words, hword, hrest]

end TpeSo.Lib
