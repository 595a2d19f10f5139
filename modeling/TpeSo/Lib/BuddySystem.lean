import Mathlib.Data.List.Nodup
import Mathlib.Data.Nat.Bitwise
import Mathlib.Data.Set.Insert
import Mathlib.Tactic.Ring

namespace TpeSo.Lib

/-!
# The buddy system

Memory is cut into blocks.  A block of order `k` is `2 ^ (k + s)` long and starts at a multiple of
its length; the orders go from `low` to `top`, and a block of order `top` is the whole memory.
Free blocks are listed by order; the others are *out*.

* `buddy` — the block a block of order `k` makes one of order `k + 1` with;
* `Buddied f out` — the invariant of a buddy system: the blocks are placed, apart from each other,
  and no two buddies are free;
* `Buddied.take`, `give`, `split`, `join` — the four steps allocation and release are made of;
* `carve`, `coalesce` — what they make of the lists, and `coalesce_carve`: release undoes
  allocation.
-/

variable {s low top k j a b : Nat} {f : Nat → List Nat} {out : Set (Nat × Nat)}

/-- The length of a block of order `k`. -/
def blockLen (s k : Nat) : Nat := 2 ^ (k + s)

theorem blockLen_pos (s k : Nat) : 0 < blockLen s k := Nat.two_pow_pos _

theorem blockLen_succ (s k : Nat) : blockLen s (k + 1) = blockLen s k + blockLen s k := by
  simp only [blockLen, Nat.add_right_comm k 1 s, Nat.pow_succ]
  ring

theorem blockLen_dvd (s : Nat) (h : k ≤ j) : blockLen s k ∣ blockLen s j :=
  Nat.pow_dvd_pow 2 (by omega)

theorem blockLen_le (s : Nat) (h : k ≤ j) : blockLen s k ≤ blockLen s j :=
  Nat.le_of_dvd (blockLen_pos s j) (blockLen_dvd s h)

/-! ### Buddies -/

/-- The start of the buddy of the block of order `k` that starts at `a`. -/
def buddy (s k a : Nat) : Nat := a ^^^ blockLen s k

theorem buddy_mul (s k i : Nat) : buddy s k (i * blockLen s k) = (i ^^^ 1) * blockLen s k := by
  have hshift : ∀ x, x * blockLen s k = x <<< (k + s) := fun x => (Nat.shiftLeft_eq x (k + s)).symm
  rw [buddy, hshift, hshift, Nat.shiftLeft_xor_distrib, Nat.one_shiftLeft]
  rfl

/-- The lower of two buddies starts where the block they make starts. -/
theorem buddy_of_dvd (h : blockLen s (k + 1) ∣ a) : buddy s k a = a + blockLen s k := by
  obtain ⟨i, rfl⟩ := h
  have hi : blockLen s (k + 1) * i = (i + i) * blockLen s k := by
    rw [blockLen_succ]
    ring
  rw [hi, buddy_mul, Nat.xor_one_of_even ⟨i, rfl⟩]
  ring

/-- The upper of two buddies starts one length behind it. -/
theorem buddy_of_not_dvd (h : blockLen s k ∣ a) (hn : ¬ blockLen s (k + 1) ∣ a) :
    buddy s k a + blockLen s k = a ∧ blockLen s (k + 1) ∣ buddy s k a := by
  obtain ⟨i, rfl⟩ := h
  rcases Nat.even_or_odd' i with ⟨c, rfl | rfl⟩
  · refine absurd ?_ hn
    refine ⟨c, ?_⟩
    rw [blockLen_succ]
    ring
  · have hodd : Odd (2 * c + 1) := ⟨c, rfl⟩
    rw [Nat.mul_comm, buddy_mul, Nat.xor_one_of_odd hodd, Nat.add_sub_cancel]
    refine ⟨by ring, c, ?_⟩
    rw [blockLen_succ]
    ring

theorem buddy_buddy (s k a : Nat) : buddy s k (buddy s k a) = a := by
  rw [buddy, buddy, Nat.xor_assoc, Nat.xor_self, Nat.xor_zero]

theorem buddy_ne (s k a : Nat) : buddy s k a ≠ a := by
  intro h
  have hzero : blockLen s k = 0 := by
    have := congrArg (a ^^^ ·) h
    simpa [buddy, ← Nat.xor_assoc] using this
  exact (blockLen_pos s k).ne' hzero

/-- A block and its buddy are the two halves of one block. -/
theorem halves (h : blockLen s k ∣ a) : blockLen s (k + 1) ∣ min a (buddy s k a) ∧
    max a (buddy s k a) = min a (buddy s k a) + blockLen s k := by
  have hpos := blockLen_pos s k
  by_cases hd : blockLen s (k + 1) ∣ a
  · rw [buddy_of_dvd hd, min_eq_left (by omega), max_eq_right (by omega)]
    exact ⟨hd, rfl⟩
  · obtain ⟨heq, hdvd⟩ := buddy_of_not_dvd h hd
    rw [min_eq_right (by omega), max_eq_left (by omega)]
    exact ⟨hdvd, heq.symm⟩

/-- The buddy of a block that is not the whole memory lies in the memory. -/
theorem buddy_inside (hd : blockLen s k ∣ a) (hin : a + blockLen s k ≤ blockLen s top)
    (hk : k < top) : buddy s k a + blockLen s k ≤ blockLen s top := by
  obtain ⟨⟨i, hi⟩, hmax⟩ := halves hd
  obtain ⟨q, hq⟩ := blockLen_dvd s (show k + 1 ≤ top from hk)
  have hlen := blockLen_succ s k
  have hpos := blockLen_pos s k
  have hlt : blockLen s (k + 1) * i < blockLen s (k + 1) * q := by omega
  have hle : blockLen s (k + 1) * (i + 1) ≤ blockLen s (k + 1) * q :=
    Nat.mul_le_mul_left _ (Nat.lt_of_mul_lt_mul_left hlt)
  rw [Nat.mul_succ] at hle
  omega

/-! ### The invariant -/

/-- The two blocks share no place. -/
def Apart (s : Nat) (x y : Nat × Nat) : Prop :=
  x.1 + blockLen s x.2 ≤ y.1 ∨ y.1 + blockLen s y.2 ≤ x.1

theorem Apart.symm {x y : Nat × Nat} (h : Apart s x y) : Apart s y x := Or.symm h

theorem Apart.ne {x y : Nat × Nat} (h : Apart s x y) : x ≠ y := by
  rintro rfl
  have hpos := blockLen_pos s x.2
  rcases h with h | h <;> omega

/-- A part of a block is apart from what the block is apart from. -/
theorem Apart.part {x y z : Nat × Nat} (h : Apart s x y) (hlo : x.1 ≤ z.1)
    (hhi : z.1 + blockLen s z.2 ≤ x.1 + blockLen s x.2) : Apart s z y := by
  rcases h with h | h
  · exact .inl (le_trans hhi h)
  · exact .inr (le_trans h hlo)

/-- The free blocks and the blocks that are out. -/
def IsBlock (f : Nat → List Nat) (out : Set (Nat × Nat)) (x : Nat × Nat) : Prop :=
  x.1 ∈ f x.2 ∨ x ∈ out

/-- **The invariant of a buddy system.** -/
structure Buddied (s low top : Nat) (f : Nat → List Nat) (out : Set (Nat × Nat)) : Prop where
  order : ∀ x, IsBlock f out x → low ≤ x.2 ∧ x.2 ≤ top
  aligned : ∀ x, IsBlock f out x → blockLen s x.2 ∣ x.1
  inside : ∀ x, IsBlock f out x → x.1 + blockLen s x.2 ≤ blockLen s top
  nodup : ∀ k, (f k).Nodup
  notOut : ∀ k, ∀ a ∈ f k, (a, k) ∉ out
  apart : ∀ x y, IsBlock f out x → IsBlock f out y → x ≠ y → Apart s x y
  coalesced : ∀ k < top, ∀ a ∈ f k, buddy s k a ∉ f k

/-- The whole memory is one free block. -/
theorem Buddied.init (h : low ≤ top) :
    Buddied s low top (fun k => if k = top then [0] else []) ∅ := by
  have hblock : ∀ x, IsBlock (fun k => if k = top then [0] else []) ∅ x → x = (0, top) := by
    rintro ⟨a, k⟩ (hx | hx)
    · by_cases hk : k = top
      · simp_all
      · simp [hk] at hx
    · exact absurd hx (Set.notMem_empty _)
  refine ⟨?_, ?_, ?_, ?_, ?_, ?_, ?_⟩
  · intro x hx
    rw [hblock x hx]
    exact ⟨h, le_refl _⟩
  · intro x hx
    rw [hblock x hx]
    exact dvd_zero _
  · intro x hx
    rw [hblock x hx]
    exact (Nat.zero_add _).le
  · intro k
    split
    · exact List.nodup_singleton 0
    · exact List.nodup_nil
  · exact fun _ _ _ => Set.notMem_empty _
  · intro x y hx hy hne
    exact absurd ((hblock x hx).trans (hblock y hy).symm) hne
  · intro k hk a ha
    simp [Nat.ne_of_lt hk] at ha

namespace Buddied

/-- A block that starts in another one is that block. -/
theorem eq_of_start (h : Buddied s low top f out) {x y : Nat × Nat} (hx : IsBlock f out x)
    (hy : IsBlock f out y) (hlo : x.1 ≤ y.1) (hhi : y.1 < x.1 + blockLen s x.2) : x = y := by
  by_contra hne
  have hpos := blockLen_pos s y.2
  rcases h.apart x y hx hy hne with hap | hap <;> omega

/-- The blocks after a free block was taken out of its list. -/
theorem isBlock_take (ha : a ∈ f k) (x : Nat × Nat) :
    IsBlock (Function.update f k ((f k).erase a)) (insert (a, k) out) x → IsBlock f out x := by
  rintro (hx | hx | hx)
  · by_cases hk : x.2 = k
    · rw [hk, Function.update_self] at hx
      exact .inl (hk ▸ List.mem_of_mem_erase hx)
    · rw [Function.update_of_ne hk] at hx
      exact .inl hx
  · rw [show x = (a, k) from hx]
    exact .inl ha
  · exact .inr hx

/-- **Taking** a free block out of its list. -/
theorem take (h : Buddied s low top f out) (ha : a ∈ f k) :
    Buddied s low top (Function.update f k ((f k).erase a)) (insert (a, k) out) := by
  have hblock : ∀ x, IsBlock (Function.update f k ((f k).erase a)) (insert (a, k) out) x →
      IsBlock f out x := isBlock_take ha
  have hsub : ∀ j b, b ∈ Function.update f k ((f k).erase a) j → b ∈ f j := by
    intro j b hb
    by_cases hj : j = k
    · subst hj
      rw [Function.update_self] at hb
      exact List.mem_of_mem_erase hb
    · rwa [Function.update_of_ne hj] at hb
  refine ⟨?_, ?_, ?_, ?_, ?_, ?_, ?_⟩
  · exact fun x hx => h.order x (hblock x hx)
  · exact fun x hx => h.aligned x (hblock x hx)
  · exact fun x hx => h.inside x (hblock x hx)
  · intro j
    by_cases hj : j = k
    · subst hj
      rw [Function.update_self]
      exact (h.nodup j).erase a
    · rw [Function.update_of_ne hj]
      exact h.nodup j
  · rintro j b hb (heq | hout)
    · obtain ⟨rfl, rfl⟩ := Prod.mk.inj heq
      rw [Function.update_self] at hb
      exact (h.nodup j).not_mem_erase hb
    · exact h.notOut j b (hsub j b hb) hout
  · exact fun x y hx hy => h.apart x y (hblock x hx) (hblock y hy)
  · exact fun j hj b hb hbuddy => h.coalesced j hj b (hsub j b hb) (hsub j _ hbuddy)

/-- **Giving back** a block whose buddy is not free. -/
theorem give (h : Buddied s low top f (insert (a, k) out)) (hnew : (a, k) ∉ out)
    (hb : k < top → buddy s k a ∉ f k) : Buddied s low top (Function.update f k (a :: f k)) out := by
  have hmem : ∀ j b, b ∈ Function.update f k (a :: f k) j ↔ b ∈ f j ∨ (b, j) = (a, k) := by
    intro j b
    by_cases hj : j = k
    · subst hj
      rw [Function.update_self, List.mem_cons, Prod.mk.injEq]
      tauto
    · rw [Function.update_of_ne hj, Prod.mk.injEq]
      tauto
  have hblock : ∀ x, IsBlock (Function.update f k (a :: f k)) out x →
      IsBlock f (insert (a, k) out) x := by
    rintro x (hx | hx)
    · rcases (hmem _ _).mp hx with hx | hx
      · exact .inl hx
      · exact .inr (.inl hx)
    · exact .inr (.inr hx)
  refine ⟨?_, ?_, ?_, ?_, ?_, ?_, ?_⟩
  · exact fun x hx => h.order x (hblock x hx)
  · exact fun x hx => h.aligned x (hblock x hx)
  · exact fun x hx => h.inside x (hblock x hx)
  · intro j
    by_cases hj : j = k
    · subst hj
      rw [Function.update_self]
      exact List.nodup_cons.mpr ⟨fun ha => h.notOut _ _ ha (.inl rfl), h.nodup j⟩
    · rw [Function.update_of_ne hj]
      exact h.nodup j
  · intro j b hb hout
    rcases (hmem j b).mp hb with hb | heq
    · exact h.notOut j b hb (.inr hout)
    · exact hnew (heq ▸ hout)
  · exact fun x y hx hy => h.apart x y (hblock x hx) (hblock y hy)
  · intro j hj c hc hbuddy
    rcases (hmem j c).mp hc with hold | heq
    · rcases (hmem j _).mp hbuddy with hbuddy | heq
      · exact h.coalesced j hj c hold hbuddy
      · obtain ⟨rfl, rfl⟩ := Prod.mk.inj heq
        rw [buddy_buddy] at hb
        exact hb hj hold
    · obtain ⟨rfl, rfl⟩ := Prod.mk.inj heq
      rcases (hmem j _).mp hbuddy with hold | heq
      · exact hb hj hold
      · exact buddy_ne s j c (Prod.mk.inj heq).1

/-- **Splitting** a block that is out. -/
theorem split (h : Buddied s low top f (insert (a, k + 1) out)) (hnew : (a, k + 1) ∉ out)
    (hlow : low ≤ k) : Buddied s low top f (insert (a, k) (insert (a + blockLen s k, k) out)) := by
  have hbig : IsBlock f (insert (a, k + 1) out) (a, k + 1) := .inr (.inl rfl)
  have hlen := blockLen_succ s k
  have hpos := blockLen_pos s k
  have hdvd : blockLen s k ∣ a :=
    dvd_trans (blockLen_dvd s (Nat.le_succ k)) (h.aligned _ hbig)
  have htop : k + 1 ≤ top := (h.order _ hbig).2
  have hin : a + blockLen s (k + 1) ≤ blockLen s top := h.inside _ hbig
  -- a block is an old one, or one of the halves
  have hblock : ∀ x, IsBlock f (insert (a, k) (insert (a + blockLen s k, k) out)) x →
      (IsBlock f (insert (a, k + 1) out) x ∧ x ≠ (a, k + 1)) ∨
        (x.2 = k ∧ (x.1 = a ∨ x.1 = a + blockLen s k)) := by
    rintro x (hx | rfl | rfl | hx)
    · refine .inl ⟨.inl hx, ?_⟩
      rintro rfl
      exact h.notOut _ _ hx (.inl rfl)
    · exact .inr ⟨rfl, .inl rfl⟩
    · exact .inr ⟨rfl, .inr rfl⟩
    · exact .inl ⟨.inr (.inr hx), fun heq => hnew (heq ▸ hx)⟩
  have hhalf : ∀ x y : Nat × Nat, (x.2 = k ∧ (x.1 = a ∨ x.1 = a + blockLen s k)) →
      IsBlock f (insert (a, k + 1) out) y → y ≠ (a, k + 1) → Apart s x y := by
    rintro x y ⟨hk, hx⟩ hy hne
    refine (h.apart (a, k + 1) y hbig hy hne.symm).part ?_ ?_
    · show a ≤ x.1
      omega
    · show x.1 + blockLen s x.2 ≤ a + blockLen s (k + 1)
      rw [hk]
      omega
  refine ⟨?_, ?_, ?_, h.nodup, ?_, ?_, h.coalesced⟩
  · intro x hx
    rcases hblock x hx with ⟨hold, -⟩ | ⟨hk, -⟩
    · exact h.order x hold
    · rw [hk]
      exact ⟨hlow, Nat.le_of_succ_le htop⟩
  · intro x hx
    rcases hblock x hx with ⟨hold, -⟩ | ⟨hk, hx | hx⟩
    · exact h.aligned x hold
    · rw [hk, hx]
      exact hdvd
    · rw [hk, hx]
      exact Nat.dvd_add hdvd (dvd_refl _)
  · intro x hx
    rcases hblock x hx with ⟨hold, -⟩ | ⟨hk, hx⟩
    · exact h.inside x hold
    · rw [hk]
      omega
  · intro j b hb hout
    have hold : IsBlock f (insert (a, k + 1) out) (b, j) := .inl hb
    have hne : (b, j) ≠ (a, k + 1) := fun heq => h.notOut j b hb (.inl heq)
    have hself : ∀ x : Nat × Nat, (x.2 = k ∧ (x.1 = a ∨ x.1 = a + blockLen s k)) → (b, j) ≠ x :=
      fun x hx heq => (hhalf x (b, j) hx hold hne).ne heq.symm
    rcases hout with heq | heq | hout
    · exact hself _ ⟨rfl, .inl rfl⟩ heq
    · exact hself _ ⟨rfl, .inr rfl⟩ heq
    · exact h.notOut j b hb (.inr hout)
  · intro x y hx hy hne
    rcases hblock x hx with ⟨hxold, hxne⟩ | hxhalf
    · rcases hblock y hy with ⟨hyold, -⟩ | hyhalf
      · exact h.apart x y hxold hyold hne
      · exact (hhalf y x hyhalf hxold hxne).symm
    · rcases hblock y hy with ⟨hyold, hyne⟩ | ⟨hyk, hy⟩
      · exact hhalf x y hxhalf hyold hyne
      · obtain ⟨hxk, hx⟩ := hxhalf
        have hxy : x.1 ≠ y.1 := fun heq => hne (Prod.ext heq (hxk.trans hyk.symm))
        unfold Apart
        rw [hxk, hyk]
        omega

/-- **Joining** two buddies that are out. -/
theorem join (h : Buddied s low top f (insert (a, k) (insert (buddy s k a, k) out)))
    (ha : (a, k) ∉ out) (hb : (buddy s k a, k) ∉ out) (hk : k < top) :
    Buddied s low top f (insert (min a (buddy s k a), k + 1) out) := by
  have hself : IsBlock f (insert (a, k) (insert (buddy s k a, k) out)) (a, k) := .inr (.inl rfl)
  have hother : IsBlock f (insert (a, k) (insert (buddy s k a, k) out)) (buddy s k a, k) :=
    .inr (.inr (.inl rfl))
  have haligned : blockLen s k ∣ a := h.aligned _ hself
  obtain ⟨hdvd, hmax⟩ := halves haligned
  have hlen := blockLen_succ s k
  have hpos := blockLen_pos s k
  have hin : max a (buddy s k a) + blockLen s k ≤ blockLen s top := by
    rcases max_choice a (buddy s k a) with hm | hm
    · rw [hm]
      exact h.inside _ hself
    · rw [hm]
      exact h.inside _ hother
  have hblock : ∀ x, IsBlock f (insert (min a (buddy s k a), k + 1) out) x →
      (IsBlock f (insert (a, k) (insert (buddy s k a, k) out)) x ∧
        x ≠ (a, k) ∧ x ≠ (buddy s k a, k)) ∨ x = (min a (buddy s k a), k + 1) := by
    rintro x (hx | rfl | hx)
    · refine .inl ⟨.inl hx, ?_, ?_⟩
      · rintro rfl
        exact h.notOut _ _ hx (.inl rfl)
      · rintro rfl
        exact h.notOut _ _ hx (.inr (.inl rfl))
    · exact .inr rfl
    · exact .inl ⟨.inr (.inr (.inr hx)), fun heq => ha (heq ▸ hx), fun heq => hb (heq ▸ hx)⟩
  -- what is apart from both halves is apart from the whole
  have hwhole : ∀ y, IsBlock f (insert (a, k) (insert (buddy s k a, k) out)) y → y ≠ (a, k) →
      y ≠ (buddy s k a, k) → Apart s (min a (buddy s k a), k + 1) y := by
    intro y hy hya hyb
    have h₁ := h.apart (a, k) y hself hy hya.symm
    have h₂ := h.apart (buddy s k a, k) y hother hy hyb.symm
    have hypos := blockLen_pos s y.2
    unfold Apart at h₁ h₂ ⊢
    dsimp only at h₁ h₂ ⊢
    omega
  refine ⟨?_, ?_, ?_, h.nodup, ?_, ?_, h.coalesced⟩
  · intro x hx
    rcases hblock x hx with ⟨hold, -⟩ | rfl
    · exact h.order x hold
    · exact ⟨le_trans (h.order _ hself).1 (Nat.le_succ k), hk⟩
  · intro x hx
    rcases hblock x hx with ⟨hold, -⟩ | rfl
    · exact h.aligned x hold
    · exact hdvd
  · intro x hx
    rcases hblock x hx with ⟨hold, -⟩ | rfl
    · exact h.inside x hold
    · dsimp only
      omega
  · intro j c hc hout
    have hold : IsBlock f (insert (a, k) (insert (buddy s k a, k) out)) (c, j) := .inl hc
    rcases hout with heq | hout
    · refine (hwhole (c, j) hold ?_ ?_).ne heq.symm
      · exact fun heq => h.notOut j c hc (.inl heq)
      · exact fun heq => h.notOut j c hc (.inr (.inl heq))
    · exact h.notOut j c hc (.inr (.inr hout))
  · intro x y hx hy hne
    rcases hblock x hx with ⟨hxold, hxa, hxb⟩ | rfl
    · rcases hblock y hy with ⟨hyold, -⟩ | rfl
      · exact h.apart x y hxold hyold hne
      · exact (hwhole x hxold hxa hxb).symm
    · rcases hblock y hy with ⟨hyold, hya, hyb⟩ | rfl
      · exact hwhole y hyold hya hyb
      · exact absurd rfl hne

end Buddied

/-! ### Allocation and release -/

/-- The lists after a block of order `k` was cut out of the block `a`, the head of the list of
    order `j`: the tail `l` stays there, and the upper halves are free. -/
def carve (s k j a : Nat) (l : List Nat) (f : Nat → List Nat) : Nat → List Nat := fun o =>
  if o = j then l else if k ≤ o ∧ o < j then (a + blockLen s o) :: f o else f o

theorem carve_self (s j a : Nat) (l : List Nat) (f : Nat → List Nat) :
    carve s j j a l f = Function.update f j l := by
  funext o
  by_cases hj : o = j
  · subst hj
    rw [Function.update_self, carve, if_pos rfl]
  · rw [Function.update_of_ne hj, carve, if_neg hj, if_neg (by omega)]

theorem carve_below (h : k < j) (a : Nat) (l : List Nat) (f : Nat → List Nat) :
    carve s (k + 1) j a l f k = f k := by
  rw [carve, if_neg (by omega), if_neg (by omega)]

theorem carve_succ (h : k < j) (a : Nat) (l : List Nat) (f : Nat → List Nat) :
    carve s k j a l f = Function.update (carve s (k + 1) j a l f) k ((a + blockLen s k) :: f k) := by
  funext o
  by_cases hk : o = k
  · subst hk
    rw [Function.update_self, carve, if_neg (by omega), if_pos ⟨le_refl _, h⟩]
  · have hle : k + 1 ≤ o ↔ k ≤ o := by omega
    simp only [Function.update_of_ne hk, carve, hle]

/-- The lists after the block `a` of order `k` was given back, with `n` orders left above. -/
def coalesce (s : Nat) (f : Nat → List Nat) : Nat → Nat → Nat → Nat → List Nat
  | 0, k, a => Function.update f k (a :: f k)
  | n + 1, k, a =>
    if buddy s k a ∈ f k then
      coalesce s (Function.update f k ((f k).erase (buddy s k a))) n (k + 1) (min a (buddy s k a))
    else Function.update f k (a :: f k)

/-- **Release undoes allocation**: the lists are the same, in the same order. -/
theorem coalesce_carve {l : List Nat} (h : Buddied s low top f out) (hj : f j = a :: l) :
    ∀ n k, n + k = top → k ≤ j → (∀ o, k ≤ o → o < j → f o = []) →
      coalesce s (carve s k j a l f) n k a = f := by
  have hblock : IsBlock f out (a, j) := by
    refine .inl ?_
    rw [hj]
    exact List.mem_cons_self
  have hjtop : j ≤ top := (h.order _ hblock).2
  -- at the order of the block that was cut, nothing is left to merge with
  have hlast : Function.update (carve s j j a l f) j (a :: carve s j j a l f j) = f := by
    rw [carve_self, Function.update_self, Function.update_idem, ← hj, Function.update_eq_self]
  intro n
  induction n with
  | zero =>
    intro k hk hkj _
    obtain rfl : k = j := by omega
    exact hlast
  | succ n ih =>
    intro k hk hkj hempty
    rcases Nat.eq_or_lt_of_le hkj with rfl | hlt
    · have hmiss : buddy s k a ∉ carve s k k a l f k := by
        intro hmem
        rw [carve_self, Function.update_self] at hmem
        refine h.coalesced k (by omega) a ?_ ?_
        · rw [hj]
          exact List.mem_cons_self
        · rw [hj]
          exact List.mem_cons_of_mem a hmem
      rw [coalesce, if_neg hmiss]
      exact hlast
    · have hdvd : blockLen s (k + 1) ∣ a := dvd_trans (blockLen_dvd s hlt) (h.aligned _ hblock)
      have hbuddy : buddy s k a = a + blockLen s k := buddy_of_dvd hdvd
      have hlist : carve s k j a l f k = [buddy s k a] := by
        rw [carve_succ hlt, Function.update_self, hempty k (le_refl k) hlt, hbuddy]
      have hmin : min a (buddy s k a) = a := by
        rw [hbuddy]
        exact min_eq_left (Nat.le_add_right _ _)
      have hrest : Function.update (carve s k j a l f) k [] = carve s (k + 1) j a l f := by
        rw [carve_succ hlt, Function.update_idem, ← hempty k (le_refl k) hlt,
          ← carve_below hlt a l f, Function.update_eq_self]
      rw [coalesce, hlist, if_pos List.mem_cons_self, List.erase_cons_head, hmin, hrest]
      exact ih (k + 1) (by omega) hlt fun o ho => hempty o (by omega)

end TpeSo.Lib
