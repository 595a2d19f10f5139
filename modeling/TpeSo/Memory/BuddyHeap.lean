import Mathlib.Data.List.Perm.Subperm
import TpeSo.Lib.BuddySystem
import TpeSo.Memory.Buddy

namespace TpeSo.Buddy

open Lib

/-!
# The buddy memory manager — the lists and headers in memory

* `Chain mem base p l` — the blocks at the offsets `l`, linked by their `next` fields, from the
  pointer `p` on; `walk_hit`, `walk_miss` — what the walk along it finds;
* `Shows m f out` — the manager's lists are `f`, the blocks at `out` are in no list, and together
  they are a buddy system with headers in order;
* `Shows.take`, `give`, `relabel` — what the edits of `alloc_block` and `free_block` make of the
  lists: a block leaves its list, a block is listed, the header of a block in no list is written.

Blocks are named by their offset from the base of the heap, and their order.
-/

variable {m m' : Cdt} {mem mem' : Memory} {f : Nat → List Nat} {out used : Set (Nat × Nat)}
  {base a b k n p v : Nat} {l : List Nat} {g g' : Field} {x y : Nat × Nat}

/-! ### Fields -/

theorem get_put_self (h : v < 256 ^ g.width) : get (put mem b g v) b g = v := load_store_of_lt h _ _

/-- A write to one field is not seen in another one of the header ... -/
theorem get_put_ne (h : g ≠ g') : get (put mem b g v) b g' = get mem b g' := by
  refine load_store_apart ?_
  cases g <;> cases g' <;> simp only [Field.offset, Field.width] <;>
    first | omega | exact absurd rfl h

theorem field_end (g : Field) : g.offset + g.width ≤ headerSize := by
  cases g <;> decide

/-- ... nor in another header. -/
theorem get_put_apart (h : a + headerSize ≤ b ∨ b + headerSize ≤ a) :
    get (put mem a g v) b g' = get mem b g' := by
  have h₁ := field_end g
  have h₂ := field_end g'
  refine load_store_apart ?_
  omega

/-- A header depends on its own bytes. -/
theorem get_congr (h : AgreeOn b headerSize mem mem') : get mem' b g = get mem b g := by
  have hend := field_end g
  exact load_congr (h.mono (by omega) (by omega))

theorem get_lt (mem : Memory) (b : Nat) (g : Field) : get mem b g < 256 ^ g.width := load_lt _ _ _

theorem bmod_small (h : 2 * k < n) : (k : Int).bmod n = k := Int.bmod_eq_of_le (by omega) (by omega)

/-- A small order is read back as it was written. -/
theorem orderOf_eq (hk : k ≤ maxOrder) (h : get mem b .order = k) : orderOf mem b = k := by
  have hmax : maxOrder = 18 := rfl
  have hsmall : 2 * k < 4294967296 := by omega
  exact (congrArg (fun v : Nat => (v : Int).bmod (2 ^ 32)) h).trans (bmod_small hsmall)

theorem order_lt (hk : k ≤ maxOrder) : k < 256 ^ Field.width .order :=
  lt_of_le_of_lt hk (by decide)

/-! ### Chains -/

/-- The blocks at the offsets `l`, linked by their `next` fields, from the pointer `p` on. -/
def Chain (mem : Memory) (base : Nat) : Nat → List Nat → Prop
  | p, [] => p = 0
  | p, a :: l => p = base + a ∧ Chain mem base (get mem (base + a) .next) l

namespace Chain

theorem congr : ∀ {l : List Nat} {p : Nat}, Chain mem base p l →
    (∀ a ∈ l, get mem' (base + a) .next = get mem (base + a) .next) → Chain mem' base p l := by
  intro l
  induction l with
  | nil => exact fun h _ => h
  | cons a l ih =>
    intro p h hl
    refine ⟨h.1, ?_⟩
    rw [hl a List.mem_cons_self]
    exact ih h.2 fun b hb => hl b (List.mem_cons_of_mem a hb)

theorem eq_zero_iff (h : Chain mem base p l) (hbase : 0 < base) : p = 0 ↔ l = [] := by
  cases l with
  | nil => simp [show p = 0 from h]
  | cons a l =>
    have hp := h.1
    simp only [reduceCtorEq, iff_false]
    omega

/-- The list is determined by the pointer. -/
theorem unique (hbase : 0 < base) : ∀ {l l' : List Nat} {p : Nat}, Chain mem base p l →
    Chain mem base p l' → l = l' := by
  intro l
  induction l with
  | nil =>
    intro l' p h h'
    exact ((h'.eq_zero_iff hbase).mp h).symm
  | cons a l ih =>
    intro l' p h h'
    cases l' with
    | nil => exact absurd ((h.eq_zero_iff hbase).mp h') (List.cons_ne_nil a l)
    | cons b l' =>
      have hab : a = b := Nat.add_left_cancel (h.1.symm.trans h'.1)
      subst hab
      rw [ih h.2 h'.2]

/-- **Unlinking**: the block before `b` is linked to the one behind it. -/
theorem unlink {pre post : List Nat} {c : Nat} : ∀ {p : Nat},
    Chain mem base p (pre ++ c :: b :: post) →
    (∀ a ∈ pre ++ post, get mem' (base + a) .next = get mem (base + a) .next) →
    get mem' (base + c) .next = get mem (base + b) .next →
    Chain mem' base p (pre ++ c :: post) := by
  induction pre with
  | nil =>
    intro p h hsame hc
    refine ⟨h.1, ?_⟩
    rw [hc]
    exact h.2.2.congr hsame
  | cons a pre ih =>
    intro p h hsame hc
    refine ⟨h.1, ?_⟩
    rw [hsame a List.mem_cons_self]
    exact ih h.2 (fun x hx => hsame x (List.mem_cons_of_mem a hx)) hc

end Chain

/-- The pointer to the last of the blocks `l`, or `p` if there is none. -/
def lastOf (base p : Nat) : List Nat → Nat
  | [] => p
  | a :: l => lastOf base (base + a) l

@[simp] theorem lastOf_nil : lastOf base p [] = p := rfl

@[simp] theorem lastOf_snoc : ∀ (l : List Nat) (p : Nat), lastOf base p (l ++ [a]) = base + a
  | [], _ => rfl
  | c :: l, _ => lastOf_snoc l (base + c)

/-- The walk finds a block of the list, and the one before it ... -/
theorem walk_hit {pre post : List Nat} (hbase : 0 < base) (hb : b ∉ pre) : ∀ {fuel p r : Nat},
    Chain mem base p (pre ++ b :: post) → pre.length < fuel →
    walk mem (base + b) fuel p r = .ok (true, lastOf base r pre) := by
  induction pre with
  | nil =>
    intro fuel p prev h hfuel
    obtain ⟨fuel, rfl⟩ := Nat.exists_eq_add_of_lt hfuel
    have hp : p = base + b := h.1
    rw [walk, if_neg (by omega), if_pos hp]
    rfl
  | cons a pre ih =>
    intro fuel p prev h hfuel
    obtain ⟨hab, hpre⟩ := not_or.mp (List.mem_cons.not.mp hb)
    cases fuel with
    | zero => exact absurd hfuel (Nat.not_lt_zero _)
    | succ fuel =>
      have hp : p = base + a := h.1
      have hne : p ≠ base + b := by omega
      rw [walk, if_neg (by omega), if_neg hne, hp]
      exact ih hpre h.2 (Nat.lt_of_succ_lt_succ hfuel)

/-- ... and no other block. -/
theorem walk_miss (hbase : 0 < base) (hb : b ∉ l) : ∀ {fuel p r : Nat},
    Chain mem base p l → l.length < fuel →
    ∃ q, walk mem (base + b) fuel p r = .ok (false, q) := by
  induction l with
  | nil =>
    intro fuel p prev h hfuel
    obtain ⟨fuel, rfl⟩ := Nat.exists_eq_add_of_lt hfuel
    have hp : p = 0 := h
    rw [walk, if_pos hp]
    exact ⟨prev, rfl⟩
  | cons a l ih =>
    intro fuel p prev h hfuel
    obtain ⟨hab, hl⟩ := not_or.mp (List.mem_cons.not.mp hb)
    cases fuel with
    | zero => exact absurd hfuel (Nat.not_lt_zero _)
    | succ fuel =>
      have hp : p = base + a := h.1
      have hne : p ≠ base + b := by omega
      rw [walk, if_neg (by omega), if_neg hne, hp]
      exact ih hl h.2 (Nat.lt_of_succ_lt_succ hfuel)

/-- The free list of order `k`, as offsets. -/
def Listed (m : Cdt) (k : Nat) (l : List Nat) : Prop := Chain m.mem m.base (m.freeLists k) l

/-! ### Managers in order -/

/-- The header of the block `x` says its order, and `v` for `is_free`. -/
structure Header (m : Cdt) (x : Nat × Nat) (v : Nat) : Prop where
  order : m.get (m.base + x.1) .order = x.2
  isFree : m.get (m.base + x.1) .isFree = v

/-- The lists are `f` and the blocks at `out` are in none of them; together they are a buddy
    system, and the headers of the free blocks are in order. -/
structure Shows (m : Cdt) (f : Nat → List Nat) (out : Set (Nat × Nat)) : Prop where
  base : m.base = heapBase + cdtSize
  limit : m.limit = m.base + heapSize
  buddied : Buddied 6 minOrder maxOrder f out
  lists : ∀ k, Listed m k (f k)
  free : ∀ k, ∀ a ∈ f k, Header m (a, k) 1

theorem headerSize_le (k : Nat) : headerSize ≤ blockLen 6 k := by
  have h : blockLen 6 0 ≤ blockLen 6 k := blockLen_le 6 (Nat.zero_le k)
  have h0 : blockLen 6 0 = 64 := rfl
  have h16 : headerSize = 16 := rfl
  omega

theorem heapSize_eq : heapSize = blockLen 6 maxOrder := rfl

theorem getBuddy_eq (a base k : Nat) : getBuddy (base + a) base k = base + buddy 6 k a := by
  rw [getBuddy, Nat.add_sub_cancel_left, Nat.add_comm]
  rfl

/-- What lies in a block is not in the header of a block apart from it. -/
theorem header_apart (h : Apart 6 x y) (hlo : x.1 ≤ a) (hhi : a + headerSize ≤ x.1 + blockLen 6 x.2)
    (base : Nat) :
    base + a + headerSize ≤ base + y.1 ∨ base + y.1 + headerSize ≤ base + a := by
  have hy := headerSize_le y.2
  rcases h with h | h
  · left
    omega
  · right
    omega

/-- A write inside one block does not reach the header of another. -/
theorem get_put_block (h : Apart 6 x y) (hlo : x.1 ≤ a)
    (hhi : a + headerSize ≤ x.1 + blockLen 6 x.2) (base : Nat) :
    get (put mem (base + a) g v) (base + y.1) g' = get mem (base + y.1) g' :=
  get_put_apart (header_apart h hlo hhi base)

theorem Header.put_block (h : Header m y n) (hap : Apart 6 x y) (hlo : x.1 ≤ a)
    (hhi : a + headerSize ≤ x.1 + blockLen 6 x.2) : Header (m.put (m.base + a) g v) y n where
  order := (get_put_block hap hlo hhi m.base).trans h.order
  isFree := (get_put_block hap hlo hhi m.base).trans h.isFree

/-- A write to a `next` field changes no header in what it says of its block. -/
theorem Header.put_next (h : Header m y n) (hap : x = y ∨ Apart 6 x y) :
    Header (m.put (m.base + x.1) .next v) y n := by
  rcases hap with rfl | hap
  · exact ⟨(get_put_ne (by decide)).trans h.order, (get_put_ne (by decide)).trans h.isFree⟩
  · exact h.put_block hap (le_refl _) (Nat.add_le_add_left (headerSize_le _) _)

/-- The order and `is_free` are written. -/
theorem header_put (m : Cdt) (a : Nat) (hk : k < 256 ^ Field.width .order)
    (hv : v < 256 ^ Field.width .isFree) :
    Header ((m.put (m.base + a) .order k).put (m.base + a) .isFree v) (a, k) v where
  order := (get_put_ne (by decide)).trans (get_put_self hk)
  isFree := get_put_self hv

theorem Header.setList (h : Header m x n) (k b : Nat) : Header (m.setList k b) x n := ⟨h.order, h.isFree⟩

theorem unlink_base (m : Cdt) (k b p : Nat) : (unlink m k b p).base = m.base := by
  unfold unlink
  split <;> rfl

theorem unlink_limit (m : Cdt) (k b p : Nat) : (unlink m k b p).limit = m.limit := by
  unfold unlink
  split <;> rfl

/-- The header at the offset `b` does not say that its block is in use. -/
def Marked (m : Cdt) (b : Nat) : Prop := m.get (m.base + b) .isFree ≠ 0

theorem marked_setList (k p : Nat) (h : Marked m b) : Marked (m.setList k p) b := h

/-- Headers at two different offsets share no byte. -/
theorem marked_put {c : Nat} (hb : blockLen 6 0 ∣ b) (hc : blockLen 6 0 ∣ c)
    (hv : g = .isFree → c = b → v = 1) (h : Marked m b) : Marked (m.put (m.base + c) g v) b := by
  have h64 : blockLen 6 0 = 64 := rfl
  have h16 : headerSize = 16 := rfl
  rw [h64] at hb hc
  show Buddy.get (Buddy.put m.mem (m.base + c) g v) (m.base + b) .isFree ≠ 0
  by_cases hcb : c = b
  · subst hcb
    by_cases hg : g = .isFree
    · subst hg
      rw [hv rfl rfl, get_put_self (by decide)]
      exact Nat.one_ne_zero
    · rw [get_put_ne hg]
      exact h
  · rw [get_put_apart (by omega)]
    exact h

namespace Shows

variable (h : Shows m f out)

include h

theorem base_pos : 0 < m.base := by
  rw [h.base]
  decide

/-- A list is empty exactly when its pointer is `NULL`. -/
theorem freeLists_eq_zero_iff : m.freeLists k = 0 ↔ f k = [] :=
  (h.lists k).eq_zero_iff h.base_pos

theorem freeLists_of_cons (hf : f k = a :: l) : m.freeLists k = m.base + a := by
  have hlist := h.lists k
  rw [Listed, hf] at hlist
  exact hlist.1

/-- Blocks lie in the heap, and the heap far below `2 ^ 64`. -/
theorem block_lt (hx : IsBlock f out x) : x.1 + headerSize ≤ heapSize ∧ m.base + x.1 < 256 ^ 8 := by
  have hin := h.buddied.inside x hx
  have hsize := headerSize_le x.2
  rw [← heapSize_eq] at hin
  rw [h.base]
  have hbase : heapBase + cdtSize = 6291624 := rfl
  have hheap : heapSize = 16777216 := rfl
  have hword : (256 : Nat) ^ 8 = 18446744073709551616 := rfl
  omega

/-- A header stands right before the payload of its block. -/
theorem headerOf_payload (hx : IsBlock f out x) :
    headerOf (m.base + x.1 + headerSize) = m.base + x.1 := by
  have hlt := (h.block_lt hx).2
  have hword : word = 256 ^ 8 := rfl
  rw [headerOf, Nat.add_right_comm, Nat.add_sub_cancel, Nat.add_mod_right]
  exact Nat.mod_eq_of_lt hlt

theorem freeLists_lt (k : Nat) : m.freeLists k < 256 ^ 8 := by
  cases hf : f k with
  | nil =>
    rw [h.freeLists_eq_zero_iff.mpr hf]
    decide
  | cons a l =>
    rw [h.freeLists_of_cons hf]
    exact (h.block_lt (x := (a, k)) (.inl (by rw [hf]; exact List.mem_cons_self))).2

/-- The members of a list are in the memory as before, if what is written lies in a block that is
    in no list. -/
theorem listed_put (hx : x ∈ out) (hlo : x.1 ≤ a) (hhi : a + headerSize ≤ x.1 + blockLen 6 x.2)
    (g : Field) (v k : Nat) : Listed (m.put (m.base + a) g v) k (f k) := by
  refine (h.lists k).congr fun b hb => ?_
  have hne : x ≠ (b, k) := fun heq => h.buddied.notOut k b hb (heq ▸ hx)
  exact get_put_block (y := (b, k)) (h.buddied.apart x _ (.inr hx) (.inl hb) hne) hlo hhi m.base

/-- **The header of a block in no list is written.** -/
theorem relabel (hx : x ∈ out) (hlo : x.1 ≤ a) (hhi : a + headerSize ≤ x.1 + blockLen 6 x.2)
    (g : Field) (v : Nat) : Shows (m.put (m.base + a) g v) f out where
  base := h.base
  limit := h.limit
  buddied := h.buddied
  lists := h.listed_put hx hlo hhi g v
  free k b hb := by
    have hne : x ≠ (b, k) := fun heq => h.buddied.notOut k b hb (heq ▸ hx)
    exact (h.free k b hb).put_block (h.buddied.apart x _ (.inr hx) (.inl hb) hne) hlo hhi

/-- **A block in no list is listed.** -/
theorem give (hx : (a, k) ∈ out) (hnew : Buddied 6 minOrder maxOrder (Function.update f k (a :: f k)) used)
    (hhead : Header m (a, k) 1) :
    Shows ((m.put (m.base + a) .next (m.freeLists k)).setList k (m.base + a))
      (Function.update f k (a :: f k)) used where
  base := h.base
  limit := h.limit
  buddied := hnew
  lists j := by
    have hlen : a + headerSize ≤ a + blockLen 6 k := Nat.add_le_add_left (headerSize_le k) a
    have hold := h.listed_put hx (le_refl a) hlen .next (m.freeLists k)
    show Chain _ m.base (Function.update m.freeLists k (m.base + a) j) _
    by_cases hj : j = k
    · subst hj
      rw [Function.update_self, Function.update_self]
      refine ⟨rfl, ?_⟩
      show Chain _ m.base (Buddy.get (Buddy.put m.mem _ _ _) _ _) _
      rw [get_put_self (h.freeLists_lt j)]
      exact hold j
    · rw [Function.update_of_ne hj, Function.update_of_ne hj]
      exact hold j
  free j b hb := by
    refine Header.setList ?_ k _
    by_cases hself : (b, j) = (a, k)
    · rw [hself]
      exact hhead.put_next (x := (a, k)) (.inl rfl)
    · have hold : b ∈ f j := by
        by_cases hj : j = k
        · subst hj
          rw [Function.update_self, List.mem_cons] at hb
          exact hb.resolve_left fun heq => hself (by rw [heq])
        · rwa [Function.update_of_ne hj] at hb
      exact (h.free j b hold).put_next (x := (a, k))
        (.inr (h.buddied.apart _ _ (.inr hx) (.inl hold) (Ne.symm hself)))

/-- Which blocks are out is told by the buddy system alone. -/
theorem rename (hnew : Buddied 6 minOrder maxOrder f used) : Shows m f used where
  base := h.base
  limit := h.limit
  buddied := hnew
  lists := h.lists
  free := h.free

/-- A member of a list comes before or behind any other one, and not twice. -/
theorem notMem_of_split {pre post : List Nat} (hf : f k = pre ++ b :: post) :
    b ∉ pre ∧ b ∉ post := by
  have hnodup := h.buddied.nodup k
  rw [hf, List.nodup_middle, List.nodup_cons, List.mem_append] at hnodup
  exact not_or.mp hnodup.1

/-- A list is shorter than the walk may be long. -/
theorem length_lt (k : Nat) : (f k).length < word := by
  have hsub : f k ⊆ List.range heapSize := by
    intro a ha
    have hin := (h.block_lt (x := (a, k)) (.inl ha)).1
    have h16 : headerSize = 16 := rfl
    exact List.mem_range.mpr (by omega)
  have hle := ((h.buddied.nodup k).subperm hsub).length_le
  rw [List.length_range] at hle
  have hheap : heapSize = 16777216 := rfl
  have hword : word = 18446744073709551616 := rfl
  omega

/-- Blocks start at multiples of the smallest length. -/
theorem dvd (hx : IsBlock f out x) : blockLen 6 0 ∣ x.1 :=
  dvd_trans (blockLen_dvd 6 (Nat.zero_le x.2)) (h.buddied.aligned x hx)

/-- What `unlink` writes is a pointer to the list, or the link of the block before. -/
theorem unlink_eq (pre : List Nat) (k b : Nat) :
    (pre = [] ∧ unlink m k (m.base + b) (lastOf m.base 0 pre) =
      m.setList k (m.get (m.base + b) .next)) ∨
    ∃ init c, pre = init ++ [c] ∧ unlink m k (m.base + b) (lastOf m.base 0 pre) =
      m.put (m.base + c) .next (m.get (m.base + b) .next) := by
  have hbase := h.base_pos
  rcases pre.eq_nil_or_concat' with rfl | ⟨init, c, rfl⟩
  · exact .inl ⟨rfl, if_neg (by simp)⟩
  · refine .inr ⟨init, c, rfl, ?_⟩
    rw [lastOf_snoc]
    exact if_pos (by omega)

/-- No header changes in what it says of its block. -/
theorem header_unlink {pre post : List Nat} (hf : f k = pre ++ b :: post) (hy : IsBlock f out y)
    (hv : Header m y v) : Header (unlink m k (m.base + b) (lastOf m.base 0 pre)) y v := by
  rcases h.unlink_eq pre k b with ⟨-, hun⟩ | ⟨init, c, rfl, hun⟩
  · rw [hun]
    exact hv.setList k _
  · have hc : IsBlock f out (c, k) := by
      refine .inl ?_
      rw [hf, List.append_assoc]
      exact List.mem_append_right init List.mem_cons_self
    rw [hun]
    by_cases heq : (c, k) = y
    · exact hv.put_next (x := (c, k)) (.inl heq)
    · exact hv.put_next (x := (c, k)) (.inr (h.buddied.apart _ _ hc hy heq))

theorem marked_unlink {pre post : List Nat} {c : Nat} (hf : f k = pre ++ b :: post)
    (hd : blockLen 6 0 ∣ c) (hm : Marked m c) :
    Marked (unlink m k (m.base + b) (lastOf m.base 0 pre)) c := by
  rcases h.unlink_eq pre k b with ⟨-, hun⟩ | ⟨init, e, rfl, hun⟩
  · rw [hun]
    exact marked_setList k _ hm
  · have he : e ∈ f k := by
      rw [hf, List.append_assoc]
      exact List.mem_append_right init List.mem_cons_self
    rw [hun]
    exact marked_put hd (h.dvd (x := (e, k)) (.inl he)) (fun h0 => by cases h0) hm

/-- **A block leaves its list.** -/
theorem drop {pre post : List Nat} (hf : f k = pre ++ b :: post) :
    Shows (unlink m k (m.base + b) (lastOf m.base 0 pre))
      (Function.update f k (pre ++ post)) (insert (b, k) out) := by
  have hb : b ∈ f k := by
    rw [hf]
    exact List.mem_append_right pre List.mem_cons_self
  obtain ⟨hpre, -⟩ := h.notMem_of_split hf
  have herase : (f k).erase b = pre ++ post := by
    rw [hf, List.erase_append_right _ hpre, List.erase_cons_head]
  have hbuddied := h.buddied.take hb
  rw [herase] at hbuddied
  have hmem : ∀ j, ∀ a ∈ Function.update f k (pre ++ post) j, a ∈ f j := by
    intro j a ha
    by_cases hj : j = k
    · subst hj
      rw [Function.update_self, ← herase] at ha
      exact List.mem_of_mem_erase ha
    · rwa [Function.update_of_ne hj] at ha
  have hlist := h.lists k
  rw [Listed, hf] at hlist
  refine ⟨?_, ?_, hbuddied, ?_, fun j a ha => ?_⟩
  · rw [unlink_base, h.base]
  · rw [unlink_limit, unlink_base, h.limit]
  · intro j
    rcases h.unlink_eq pre k b with ⟨rfl, hun⟩ | ⟨init, c, rfl, hun⟩
    · -- the head of the list: only the pointer to it changes
      rw [hun]
      show Chain m.mem m.base (Function.update m.freeLists k _ j) _
      by_cases hj : j = k
      · subst hj
        rw [Function.update_self, Function.update_self]
        exact hlist.2
      · rw [Function.update_of_ne hj, Function.update_of_ne hj]
        exact h.lists j
    · rw [hun]
      show Chain _ m.base (m.freeLists j) _
      rw [List.append_assoc, List.singleton_append] at hf hlist ⊢
      have hc : c ∈ f k := by
        rw [hf]
        exact List.mem_append_right init List.mem_cons_self
      obtain ⟨hinit, htail⟩ := h.notMem_of_split hf
      have hsame : ∀ a, a ∈ f j → (a, j) ≠ (c, k) → Buddy.get (Buddy.put m.mem (m.base + c) .next
          (m.get (m.base + b) .next)) (m.base + a) .next = Buddy.get m.mem (m.base + a) .next := by
        intro a ha hne
        exact get_put_block (x := (c, k)) (y := (a, j))
          (h.buddied.apart _ _ (.inl hc) (.inl ha) hne.symm) (le_refl _)
          (Nat.add_le_add_left (headerSize_le k) _) m.base
      by_cases hj : j = k
      · subst hj
        rw [Function.update_self]
        refine hlist.unlink (fun a ha => hsame a ?_ ?_) (get_put_self (get_lt _ _ _))
        · rw [hf]
          simp only [List.mem_append, List.mem_cons] at ha ⊢
          tauto
        · rintro heq
          rw [(Prod.mk.inj heq).1] at ha
          exact (List.mem_append.mp ha).elim hinit fun hpost => htail (List.mem_cons_of_mem b hpost)
      · rw [Function.update_of_ne hj]
        exact (h.lists j).congr fun a ha => hsame a ha fun heq => hj (Prod.mk.inj heq).2
  · exact h.header_unlink hf (.inl (hmem j a ha)) (h.free j a (hmem j a ha))

end Shows

end TpeSo.Buddy
