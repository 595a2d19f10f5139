import TpeSo.Memory.BuddyHeap

namespace TpeSo.Buddy

open Lib

/-!
# Allocation by the buddy memory manager

* `Took` — what `alloc_block` leaves: the lists, the header of the block, and everything else in
  order;
* `Took.pop`, `Took.split` — the head of a list is taken, and a block is cut in two;
* `allocFrom_none`, `allocFrom_some` — both outcomes, by induction on the orders left;
* `getOrder_spec` — the order `get_order` settles on;
* `buddyKmalloc_cases` — the whole call.
-/

variable {m m' : Cdt} {f f' : Nat → List Nat} {out : Set (Nat × Nat)} {a b j k n size : Nat}
  {l : List Nat} {x : Nat × Nat}

/-- The block `x` was taken: it is out, its header says so, and the lists are `f'`. -/
structure Took (m m' : Cdt) (out : Set (Nat × Nat)) (x : Nat × Nat) (f' : Nat → List Nat) :
    Prop where
  shows : Shows m' f' (insert x out)
  new : x ∉ out
  header : Header m' x 0
  keeps : ∀ y ∈ out, ∀ v, Header m y v → Header m' y v
  marks : ∀ b, blockLen 6 0 ∣ b → b ≠ x.1 → Marked m b → Marked m' b

/-- The head of a list is taken. -/
theorem Took.pop (h : Shows m f out) (hf : f k = a :: l) :
    Took m (((m.setList k (m.get (m.base + a) .next)).put (m.base + a) .isFree 0).put
      (m.base + a) .next 0) out (a, k) (Function.update f k l) := by
  have ha : a ∈ f k := by
    rw [hf]
    exact List.mem_cons_self
  have hlen : a + headerSize ≤ a + blockLen 6 k := Nat.add_le_add_left (headerSize_le k) a
  have hdrop := h.drop (show f k = [] ++ a :: _ from hf)
  rw [lastOf_nil, unlink, if_neg (fun h0 => h0 rfl), List.nil_append] at hdrop
  have hout : (a, k) ∈ insert (a, k) out := .inl rfl
  have hdvd : blockLen 6 0 ∣ a := h.dvd (x := (a, k)) (.inl ha)
  refine ⟨?_, h.buddied.notOut k a ha, ?_, ?_, ?_⟩
  · exact (hdrop.relabel hout (le_refl a) hlen .isFree 0).relabel hout (le_refl a) hlen .next 0
  · have hhead := h.free k a ha
    refine ⟨?_, ?_⟩
    · refine (get_put_ne (by decide)).trans ((get_put_ne (by decide)).trans hhead.order)
    · exact (get_put_ne (by decide)).trans (get_put_self (by decide))
  · intro y hy v hv
    have hne : (a, k) ≠ y := fun heq => h.buddied.notOut k a ha (heq ▸ hy)
    have hap := h.buddied.apart (a, k) y (.inl ha) (.inr hy) hne
    exact (((hv.setList k _).put_block hap (le_refl a) hlen).put_block hap (le_refl a) hlen)
  · intro b hb hne hm
    exact marked_put hb hdvd (fun h0 => by cases h0)
      (marked_put hb hdvd (fun _ h0 => absurd h0.symm hne) (marked_setList k _ hm))

/-- A block is cut in two: the upper half is listed. -/
theorem Took.split (h : Took m m' out (a, k + 1) f) (hk : minOrder ≤ k)
    (hf : a ∉ f k) :
    Took m (((((((m'.put (m'.base + a + blocksize k) .order k).put
      (m'.base + a + blocksize k) .isFree 1).put
      (m'.base + a + blocksize k) .next (m'.freeLists k)).setList k
      (m'.base + a + blocksize k)).put (m'.base + a) .order k).put (m'.base + a) .isFree 0).put
      (m'.base + a) .next 0) out (a, k) (Function.update f k ((a + blockLen 6 k) :: f k)) := by
  obtain ⟨hshows, hnew, hhead, hkeeps, hmarks⟩ := h
  have hbig : IsBlock f (insert (a, k + 1) out) (a, k + 1) := .inr (.inl rfl)
  have hlen := blockLen_succ 6 k
  have hpos := blockLen_pos 6 k
  have hsize := headerSize_le k
  have haddr : m'.base + a + blocksize k = m'.base + (a + blockLen 6 k) := Nat.add_assoc _ _ _
  -- neither half is a block that was out before
  have hlow : (a, k) ∉ out := by
    intro hin
    have heq := hshows.buddied.eq_of_start hbig (.inr (.inr hin)) (le_refl a) (by dsimp only; omega)
    have hsnd := (Prod.mk.inj heq).2
    omega
  have hup : (a + blockLen 6 k, k) ∉ insert (a, k) out := by
    rintro (heq | hin)
    · have hfst := (Prod.mk.inj heq).1
      omega
    · have heq := hshows.buddied.eq_of_start hbig (.inr (.inr hin))
        (Nat.le_add_right a _) (by dsimp only; omega)
      have hsnd := (Prod.mk.inj heq).2
      omega
  have hbuddied := hshows.buddied.split hnew hk
  have hmem : (a + blockLen 6 k, k) ∈ insert (a, k) (insert (a + blockLen 6 k, k) out) :=
    .inr (.inl rfl)
  have hmem' : (a, k) ∈ insert (a, k) out := .inl rfl
  have hbuddy : buddy 6 k (a + blockLen 6 k) = a := by
    rw [← buddy_of_dvd (hshows.buddied.aligned _ hbig), buddy_buddy]
  have hgive : Buddied 6 minOrder maxOrder
      (Function.update f k ((a + blockLen 6 k) :: f k)) (insert (a, k) out) := by
    rw [Set.insert_comm] at hbuddied
    exact hbuddied.give hup fun _ => hbuddy.symm ▸ hf
  have hsmall : k < 256 ^ Field.width .order :=
    order_lt (Nat.le_of_succ_le (hshows.buddied.order _ hbig).2)
  have hlow' : a + headerSize ≤ a + blockLen 6 k := Nat.add_le_add_left hsize a
  have hup' : a + blockLen 6 k + headerSize ≤ a + blockLen 6 k + blockLen 6 k :=
    Nat.add_le_add_left hsize _
  rw [haddr]
  refine ⟨?_, hlow, ?_, ?_, ?_⟩
  · -- the upper half gets its header and is listed, then the lower half gets its own
    have s₁ := (hshows.rename hbuddied).relabel hmem (le_refl _) hup' .order k
    have s₂ := s₁.relabel hmem (le_refl _) hup' .isFree 1
    have s₃ := s₂.give hmem hgive (header_put m' _ hsmall (by decide))
    have s₄ := s₃.relabel hmem' (le_refl a) hlow' .order k
    have s₅ := s₄.relabel hmem' (le_refl a) hlow' .isFree 0
    exact s₅.relabel hmem' (le_refl a) hlow' .next 0
  · exact (header_put _ a hsmall (by decide)).put_next (x := (a, k)) (.inl rfl)
  · intro y hy v hv
    have hya : (a, k) ≠ y := fun heq => hlow (heq ▸ hy)
    have hyc : (a + blockLen 6 k, k) ≠ y := fun heq => hup (.inr (heq ▸ hy))
    have hapa := hbuddied.apart (a, k) y (.inr (.inl rfl)) (.inr (.inr (.inr hy))) hya
    have hapc := hbuddied.apart _ y (.inr hmem) (.inr (.inr (.inr hy))) hyc
    have hup₃ := (((hkeeps y hy v hv).put_block hapc (le_refl _) hup' (g := .order) (v := k)).put_block
      hapc (le_refl _) hup' (g := .isFree) (v := 1)).put_block hapc (le_refl _) hup'
      (g := .next) (v := m'.freeLists k)
    exact (((hup₃.setList k _).put_block hapa (le_refl a) hlow').put_block hapa (le_refl a)
      hlow').put_block hapa (le_refl a) hlow'
  · intro b hb hne hm
    have hda : blockLen 6 0 ∣ a := hshows.dvd hbig
    have hdc : blockLen 6 0 ∣ a + blockLen 6 k :=
      Nat.dvd_add hda (blockLen_dvd 6 (Nat.zero_le k))
    have hother : ∀ {g : Field} {v : Nat}, g = .isFree → a = b → v = 1 :=
      fun _ h0 => absurd h0.symm hne
    have hlink : ∀ {g : Field} {v : Nat}, g ≠ .isFree → g = .isFree → a + blockLen 6 k = b → v = 1 :=
      fun hg h0 => absurd h0 hg
    have c₁ := marked_put (v := k) hb hdc (hlink (g := .order) (by decide)) (hmarks b hb hne hm)
    have c₂ := marked_put (v := 1) hb hdc (fun _ _ => rfl) (g := .isFree) c₁
    have c₃ := marked_put (v := m'.freeLists k) hb hdc (hlink (g := .next) (by decide)) c₂
    have c₄ := marked_put (v := k) (g := .order) hb hda hother
      (marked_setList k (m'.base + (a + blockLen 6 k)) c₃)
    have c₅ := marked_put (v := 0) (g := .isFree) hb hda hother c₄
    exact marked_put (v := 0) (g := .next) hb hda hother c₅

/-! ### `alloc_block` -/

/-- Without a free block of the order or a higher one, nothing is touched ... -/
theorem allocFrom_none (h : Shows m f out) : ∀ n k, (∀ o, k ≤ o → o < k + n → f o = []) →
    allocFrom m n k = (m, none) := by
  intro n
  induction n with
  | zero => exact fun _ _ => rfl
  | succ n ih =>
    intro k hempty
    have hzero : m.freeLists k = 0 :=
      h.freeLists_eq_zero_iff.mpr (hempty k (le_refl k) (by omega))
    rw [allocFrom, if_neg (fun hne => hne hzero),
      ih (k + 1) fun o hlo hhi => hempty o (by omega) (by omega)]

/-- ... and otherwise the block is cut out of the head of the first list that has one. -/
theorem allocFrom_some (h : Shows m f out) (hj : f j = a :: l) : ∀ n k, minOrder ≤ k → k ≤ j →
    j < k + n → (∀ o, k ≤ o → o < j → f o = []) →
    ∃ m', allocFrom m n k = (m', some (m.base + a)) ∧ m'.base = m.base ∧
      Took m m' out (a, k) (carve 6 k j a l f) := by
  intro n
  induction n with
  | zero => exact fun k _ hkj hlt _ => absurd hlt (by omega)
  | succ n ih =>
    intro k hk hkj hlt hempty
    rcases Nat.eq_or_lt_of_le hkj with rfl | hkj
    · have hhead := h.freeLists_of_cons hj
      have hbase := h.base_pos
      refine ⟨_, ?_, ?_, carve_self 6 k a l f ▸ Took.pop h hj⟩
      · rw [allocFrom, if_pos (by omega), hhead]
      · rfl
    · have hzero : m.freeLists k = 0 :=
        h.freeLists_eq_zero_iff.mpr (hempty k (le_refl k) hkj)
      obtain ⟨m₁, hrun, hbase, htook⟩ := ih (k + 1) (by omega) hkj (by omega)
        fun o hlo hhi => hempty o (by omega) hhi
      have hnil : carve 6 (k + 1) j a l f k = [] := by
        rw [carve_below hkj, hempty k (le_refl k) hkj]
      have hcut := htook.split hk (by rw [hnil]; exact List.not_mem_nil)
      rw [hnil, ← hempty k (le_refl k) hkj, ← carve_succ hkj, hbase] at hcut
      refine ⟨_, ?_, ?_, hcut⟩
      · rw [allocFrom, if_neg (fun hne => hne hzero), hrun]
        rfl
      · exact hbase

/-! ### `get_order` -/

theorem orderFrom_spec (size : Nat) : ∀ n k, k ≤ orderFrom size n k ∧ orderFrom size n k ≤ k + n ∧
    (∀ o, k ≤ o → o < orderFrom size n k → blocksize o < size) ∧
    (orderFrom size n k < k + n → orderFrom size n k ≤ maxOrder →
      size ≤ blocksize (orderFrom size n k)) := by
  intro n
  induction n with
  | zero =>
    intro k
    refine ⟨le_refl k, le_refl k, fun o hlo hhi => ?_, fun hlt _ => ?_⟩
    · exact absurd hhi (not_lt_of_ge hlo)
    · exact absurd hlt (lt_irrefl k)
  | succ n ih =>
    intro k
    rw [orderFrom]
    split
    · rename_i hgo
      obtain ⟨hlo, hhi, hbelow, hfit⟩ := ih (k + 1)
      refine ⟨by omega, by omega, fun o ho hlt => ?_, fun hlt => hfit (by omega)⟩
      rcases Nat.eq_or_lt_of_le ho with rfl | ho
      · exact hgo.2
      · exact hbelow o ho hlt
    · rename_i hstop
      refine ⟨le_refl k, by omega, fun o hlo hhi => ?_, fun _ hmax => ?_⟩
      · exact absurd hhi (not_lt_of_ge hlo)
      · by_contra hsmall
        exact hstop ⟨hmax, not_le.mp hsmall⟩

/-- The order is the first from `MIN_ORDER` on whose blocks are long enough for the sum that was
    computed; it is above `MAX_ORDER` if there is none. -/
theorem getOrder_spec (size : Nat) : minOrder ≤ getOrder size ∧
    (∀ o, minOrder ≤ o → o < getOrder size → blocksize o < (size + headerSize) % word) ∧
    (getOrder size ≤ maxOrder → (size + headerSize) % word ≤ blocksize (getOrder size)) := by
  obtain ⟨hlo, -, hbelow, hfit⟩ :=
    orderFrom_spec ((size + headerSize) % word) (maxOrder + 1 - minOrder) minOrder
  refine ⟨hlo, hbelow, fun hmax => hfit ?_ hmax⟩
  have hlt : getOrder size < maxOrder + 1 := Nat.lt_succ_of_le hmax
  exact hlt

/-! ### `buddy_kmalloc` -/

/-- The first list from `k` on that is not empty, if there is one. -/
theorem first_list (f : Nat → List Nat) (k : Nat) :
    (∀ o, k ≤ o → o ≤ maxOrder → f o = []) ∨
      ∃ j a l, k ≤ j ∧ j ≤ maxOrder ∧ f j = a :: l ∧ ∀ o, k ≤ o → o < j → f o = [] := by
  classical
  by_cases hex : ∃ j, k ≤ j ∧ j ≤ maxOrder ∧ f j ≠ []
  · right
    obtain ⟨hlo, hhi, hne⟩ := Nat.find_spec hex
    obtain ⟨a, l, hf⟩ := List.exists_cons_of_ne_nil hne
    refine ⟨Nat.find hex, a, l, hlo, hhi, hf, fun o ho hlt => ?_⟩
    by_contra hno
    exact Nat.find_min hex hlt ⟨ho, le_trans (Nat.le_of_lt hlt) hhi, hno⟩
  · left
    intro o hlo hhi
    by_contra hno
    exact hex ⟨o, hlo, hhi, hno⟩

/-- **`buddy_kmalloc`** either touches nothing, or takes a block of the order that was computed out
    of the first list that has one. -/
theorem buddyKmalloc_cases (h : Shows m f out) (size : Nat) :
    (buddyKmalloc m size = (m, none) ∧
      (size = 0 ∨ ∀ o, getOrder size ≤ o → o ≤ maxOrder → f o = [])) ∨
    ∃ j a l m', size ≠ 0 ∧ getOrder size ≤ j ∧ j ≤ maxOrder ∧ f j = a :: l ∧
      (∀ o, getOrder size ≤ o → o < j → f o = []) ∧
      buddyKmalloc m size = (m', some (m.base + a + headerSize)) ∧ m'.base = m.base ∧
      Took m m' out (a, getOrder size) (carve 6 (getOrder size) j a l f) := by
  obtain ⟨hmin, -, -⟩ := getOrder_spec size
  by_cases hsize : size = 0
  · exact .inl ⟨if_pos hsize, .inl hsize⟩
  rcases first_list f (getOrder size) with hempty | ⟨j, a, l, hkj, hj, hf, hempty⟩
  · refine .inl ⟨?_, .inr hempty⟩
    have hrun : allocBlock m (getOrder size) = (m, none) := by
      rw [allocBlock]
      split
      · rfl
      · exact allocFrom_none h _ _ fun o hlo hhi => hempty o hlo (by omega)
    rw [buddyKmalloc, if_neg hsize, hrun]
    rfl
  · right
    obtain ⟨m', hrun, hbase, htook⟩ := allocFrom_some h hf (maxOrder + 1 - getOrder size)
      (getOrder size) hmin hkj (by omega) hempty
    refine ⟨j, a, l, m', hsize, hkj, hj, hf, hempty, ?_, hbase, htook⟩
    rw [buddyKmalloc, if_neg hsize, allocBlock, if_neg (by omega), hrun]
    rfl

end TpeSo.Buddy
