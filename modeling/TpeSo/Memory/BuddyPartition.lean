import TpeSo.Lib.BuddyCover
import TpeSo.Memory.BuddyHistory

namespace TpeSo.Buddy

open Lib

/-!
# The buddy memory manager leaves no gap

* `Heap.liveBlocks` — the blocks of the pointers that are handed out, by their headers;
* `Full` — the manager is in order, its blocks cover the heap, and their lengths add up;
* `Full.history` — so it is after every history;
* `buddyKmmMemInfo_eq` — what `buddy_kmm_mem_info` then counts;
* `buddy_partition`, `buddy_independent` — the heap is cut into free and live blocks, and the free
  ones depend on the live ones alone.
-/

variable {s s' t : Heap} {m : Cdt} {mem mem' : Memory} {f f' : Nat → List Nat}
  {out used : Set (Nat × Nat)} {tr : List (Heap × Call × Option Nat)} {a j k n p size : Nat}
  {x : Nat × Nat} {c : Call} {o : Option Nat}

/-- The block of a pointer that was handed out: its offset, and the order in its header. -/
def Heap.blockOf (s : Heap) (p : Nat) : Nat × Nat :=
  (headerOf p - s.cdt.base, s.cdt.get (headerOf p) .order)

def Heap.liveBlocks (s : Heap) : List (Nat × Nat) := s.live.map s.blockOf

/-- The length of all live blocks. -/
def Heap.liveLen (s : Heap) : Nat := (s.live.map fun p => blocksize (s.blockOf p).2).sum

namespace InOrder

variable (h : InOrder s f out)

include h

theorem blockOf_payload (hx : x ∈ out) : s.blockOf (s.cdt.base + x.1 + headerSize) = x := by
  rw [Heap.blockOf, h.shows.headerOf_payload (.inr hx), Nat.add_sub_cancel_left, (h.used x hx).order]

/-- The blocks that are out are the live ones. -/
theorem mem_liveBlocks : x ∈ s.liveBlocks ↔ x ∈ out := by
  rw [Heap.liveBlocks, List.mem_map]
  constructor
  · rintro ⟨p, hp, rfl⟩
    obtain ⟨y, hy, rfl⟩ := (h.live p).mp hp
    rwa [h.blockOf_payload hy]
  · exact fun hx => ⟨_, (h.live _).mpr ⟨x, hx, rfl⟩, h.blockOf_payload hx⟩

theorem liveBlocks_eq : {x | x ∈ s.liveBlocks} = out := Set.ext fun _ => h.mem_liveBlocks

theorem nodup_liveBlocks : s.liveBlocks.Nodup := by
  refine h.nodup.map_on fun p hp q hq hpq => ?_
  obtain ⟨x, hx, rfl⟩ := (h.live p).mp hp
  obtain ⟨y, hy, rfl⟩ := (h.live q).mp hq
  rw [h.blockOf_payload hx, h.blockOf_payload hy] at hpq
  rw [hpq]

/-- A block that is out before and after is the same block. -/
theorem blockOf_eq (h' : InOrder s' f' used) (hx : x ∈ out) (hx' : x ∈ used) :
    s'.blockOf (s.cdt.base + x.1 + headerSize) = s.blockOf (s.cdt.base + x.1 + headerSize) := by
  rw [h.blockOf_payload hx, h.shows.base, ← h'.shows.base, h'.blockOf_payload hx']

end InOrder

/-- The manager is in order and its blocks leave no gap. -/
structure Full (s : Heap) (f : Nat → List Nat) (out : Set (Nat × Nat)) : Prop
    extends InOrder s f out where
  covers : Covers 6 maxOrder f out
  total : freeLen 6 maxOrder f + s.liveLen = heapSize

namespace Full

theorem init (mem : Memory) : Full (Heap.init mem) (fun k => if k = maxOrder then [0] else []) ∅ where
  toInOrder := .init mem
  covers := covers_init 6 maxOrder
  total := freeLen_init 6 maxOrder

/-- **Every call keeps the heap full.** -/
theorem next (h : Full s f out) (hc : c.Proper s) (hs : Buddy.next s c = some (s', o)) :
    ∃ f' out', Full s' f' out' := by
  have hord := h.toInOrder
  have htotal := h.total
  cases hord.callStep hc hs with
  | same hs' => exact ⟨f, out, hs' ▸ h⟩
  | take size j a l _ hf hkj hj _ hlive hbase ht =>
    have hord' := hord.took ht hbase hlive
    have hself : s'.blockOf (s.cdt.base + a + headerSize) = (a, getOrder size) := by
      rw [← hbase]
      exact hord'.blockOf_payload (x := (a, getOrder size)) (.inl rfl)
    have hold : (s.live.map fun p => blocksize (s'.blockOf p).2) =
        s.live.map fun p => blocksize (s.blockOf p).2 := by
      refine List.map_congr_left fun p hp => ?_
      obtain ⟨x, hx, rfl⟩ := (hord.live p).mp hp
      rw [hord.blockOf_eq hord' hx (.inr hx)]
    have hcarve := freeLen_carve (s := 6) hf hj hkj
    have hlen : blocksize (getOrder size) = blockLen 6 (getOrder size) := rfl
    refine ⟨_, _, ⟨hord', fun p hp => covers_carve hf hkj (h.covers p hp), ?_⟩⟩
    rw [Heap.liveLen] at htotal ⊢
    rw [hlive, List.map_cons, List.sum_cons, hself, hold]
    dsimp only
    omega
  | give x hx _ _ hlive hord' ht _ =>
    have hblock : IsBlock f out x := .inr hx
    obtain ⟨-, htop⟩ := hord.shows.buddied.order x hblock
    have hold : ((s.live.erase (s.cdt.base + x.1 + headerSize)).map fun p =>
        blocksize (s'.blockOf p).2) =
        (s.live.erase (s.cdt.base + x.1 + headerSize)).map fun p => blocksize (s.blockOf p).2 := by
      refine List.map_congr_left fun p hp => ?_
      obtain ⟨hne, hp⟩ := hord.nodup.mem_erase_iff.mp hp
      obtain ⟨y, hy, rfl⟩ := (hord.live p).mp hp
      have hyx : y ≠ x := by
        rintro rfl
        exact hne rfl
      rw [hord.blockOf_eq hord' hy ⟨hy, hyx⟩]
    have hsum := List.sum_map_erase (fun p => blocksize (s.blockOf p).2)
      ((hord.live _).mpr ⟨x, hx, rfl⟩)
    have hcoalesce := freeLen_coalesce (s := 6) (maxOrder - x.2) x.2 x.1 f (Nat.sub_add_cancel htop)
    have hlen : blocksize x.2 = blockLen 6 x.2 := rfl
    refine ⟨_, _, ⟨hord', fun p hp => ?_, ?_⟩⟩
    · refine covers_coalesce (hord.shows.buddied.aligned x hblock) _ ?_
      rw [Set.insert_sdiff_singleton, Set.insert_eq_of_mem hx]
      exact h.covers p hp
    · rw [Heap.liveLen] at htotal ⊢
      rw [hord.blockOf_payload hx] at hsum
      rw [hlive, hold]
      omega
  | write mem' _ _ hs' hsame =>
    subst hs'
    have hord' := hord.write hsame
    have hold : (s.live.map fun p => blocksize
        (Heap.blockOf { s with cdt := { s.cdt with mem := mem' } } p).2) =
        s.live.map fun p => blocksize (s.blockOf p).2 := by
      refine List.map_congr_left fun p hp => ?_
      obtain ⟨x, hx, rfl⟩ := (hord.live p).mp hp
      rw [hord.blockOf_eq hord' hx hx]
    refine ⟨f, out, ⟨hord', h.covers, ?_⟩⟩
    rw [Heap.liveLen] at htotal ⊢
    rw [hold]
    exact htotal

/-- **The heap is full** after every history. -/
theorem history (h : History mem tr s) : ∃ f out, Full s f out :=
  h.invariant (fun s => ∃ f out, Full s f out) ⟨_, _, init mem⟩
    fun _ _ _ _ ⟨_, _, hs⟩ hc hstep => hs.next hc hstep

end Full

/-! ### `buddy_kmm_mem_info` -/

/-- The inner loop counts the blocks of a list. -/
theorem addList_eq {base : Nat} : ∀ {l : List Nat} {fuel p free : Nat}, Chain mem base p l →
    0 < base → l.length < fuel → free + l.length * blocksize k < word →
    addList mem k fuel p free = .ok (free + l.length * blocksize k) := by
  intro l
  induction l with
  | nil =>
    intro fuel p free h _ hfuel _
    obtain ⟨fuel, rfl⟩ := Nat.exists_eq_add_of_lt hfuel
    have hp : p = 0 := h
    rw [addList, if_pos hp, List.length_nil, Nat.zero_mul, Nat.add_zero]
  | cons a l ih =>
    intro fuel p free h hbase hfuel hlt
    rw [List.length_cons, Nat.succ_mul] at hlt ⊢
    cases fuel with
    | zero => exact absurd hfuel (Nat.not_lt_zero _)
    | succ fuel =>
      have hp : p = base + a := h.1
      rw [addList, if_neg (by omega), Nat.mod_eq_of_lt (by omega), hp,
        ih h.2 hbase (Nat.lt_of_succ_lt_succ hfuel) (by omega)]
      congr 1
      omega

/-- The outer loop counts the free memory below an order. -/
theorem addLists_eq (h : Shows m f out) (htotal : freeLen 6 maxOrder f ≤ heapSize) :
    ∀ n, n ≤ maxOrder + 1 →
      addLists m n = .ok (∑ k ∈ Finset.range n, (f k).length * blockLen 6 k) := by
  intro n
  induction n with
  | zero => exact fun _ => rfl
  | succ n ih =>
    intro hn
    have hpart : ∑ k ∈ Finset.range (n + 1), (f k).length * blockLen 6 k ≤ heapSize :=
      le_trans (Finset.sum_le_sum_of_subset (Finset.range_mono hn)) htotal
    have hheap : heapSize < word := by decide
    rw [Finset.sum_range_succ] at hpart ⊢
    rw [addLists, ih (Nat.le_of_succ_le hn), Outcome.ok_bind]
    exact addList_eq (h.lists n) h.base_pos (h.length_lt n) (lt_of_le_of_lt hpart hheap)

/-- **`buddy_kmm_mem_info`** counts what is not live as free. -/
theorem Full.memInfo (h : Full s f out) : buddyKmmMemInfo s.cdt =
    .ok { totalSize := heapSize, free := heapSize - s.liveLen, reserved := s.liveLen } := by
  have htotal := h.total
  have hlists : addLists s.cdt (maxOrder + 1) = .ok (freeLen 6 maxOrder f) :=
    addLists_eq h.shows (by omega) _ (le_refl _)
  have hheap : heapSize < word := by decide
  have hsize : (s.cdt.limit + word - s.cdt.base) % word = heapSize := by
    rw [h.shows.limit, Nat.add_assoc, Nat.add_sub_cancel_left, Nat.add_mod_right,
      Nat.mod_eq_of_lt hheap]
  have hfree : freeLen 6 maxOrder f = heapSize - s.liveLen := by omega
  have hrest : (heapSize + word - (heapSize - s.liveLen)) % word = s.liveLen := by
    have hsub : heapSize + word - (heapSize - s.liveLen) = s.liveLen + word := by omega
    rw [hsub, Nat.add_mod_right, Nat.mod_eq_of_lt (by omega)]
  rw [buddyKmmMemInfo, hsize, hlists, Outcome.ok_bind, hfree, hrest]

/-! ### Partition and independence -/

/-- A pointer that was handed out keeps its block, until it is given back. -/
theorem blockOf_since {tr₁ tr₂ : List (Heap × Call × Option Nat)}
    (h : History mem (tr₁ ++ (t, .kmalloc size, some p) :: tr₂) s)
    (hkept : ∀ j o, (j, .kmmFree p, o) ∉ tr₂) :
    p ∈ s.live ∧ (s.blockOf p).2 = getOrder size := by
  refine Trace.since (fun tr s => (∀ j o, (j, .kmmFree p, o) ∉ tr) →
    p ∈ s.live ∧ (s.blockOf p).2 = getOrder size) ?_ ?_ h hkept
  · intro u hj hc hs _
    obtain ⟨f, out, hord⟩ := InOrder.history hj
    cases hord.callStep hc hs with
    | same _ ho => cases ho
    | take size' j a l hc' _ _ _ ho hlive hbase ht =>
      cases hc'
      obtain rfl := Option.some.inj ho
      have hblock := (hord.took ht hbase hlive).blockOf_payload (x := (a, getOrder size)) (.inl rfl)
      rw [hbase] at hblock
      rw [hlive, hblock]
      exact ⟨List.mem_cons_self, rfl⟩
    | give _ _ hc' => cases hc'
    | write _ hc' => cases hc'
  · intro tr j c u o hj hJ hc hs hfree
    obtain ⟨hp, hblock⟩ := hJ fun i o hi => hfree i o (List.mem_append_left _ hi)
    obtain ⟨f, out, hord⟩ := InOrder.history hj
    obtain ⟨x, hx, rfl⟩ := (hord.live p).mp hp
    cases hord.callStep hc hs with
    | same hs' =>
      subst hs'
      exact ⟨hp, hblock⟩
    | take _ _ _ _ _ _ _ _ _ hlive hbase ht =>
      rw [hlive, hord.blockOf_eq (hord.took ht hbase hlive) hx (.inr hx)]
      exact ⟨List.mem_cons_of_mem _ hp, hblock⟩
    | give y hy hc' _ hlive hord' =>
      have hxy : x ≠ y := by
        rintro rfl
        exact hfree j o (hc' ▸ List.mem_append_right tr List.mem_cons_self)
      rw [hord.blockOf_eq hord' hx ⟨hx, hxy⟩]
      refine ⟨?_, hblock⟩
      rw [hlive]
      refine (List.mem_erase_of_ne fun heq => hxy ?_).mpr hp
      exact hord.eq_of_fst hx hy (by omega)
    | write mem' _ _ hs' hsame =>
      subst hs'
      rw [hord.blockOf_eq (hord.write hsame) hx hx]
      exact ⟨hp, hblock⟩

/-- **The heap is cut into free and live blocks**, without a gap. -/
theorem buddy_partition (h : History mem tr s) : ∃ f : Nat → List Nat,
    (∀ k, Listed s.cdt k (f k) ∧ (f k).Nodup ∧ ∀ a ∈ f k, Header s.cdt (a, k) 1) ∧
    (s.liveBlocks.Nodup ∧ ∀ x ∈ s.liveBlocks, Header s.cdt x 0) ∧
    (∀ x, IsBlock f {x | x ∈ s.liveBlocks} x → minOrder ≤ x.2 ∧ x.2 ≤ maxOrder ∧
      blocksize x.2 ∣ x.1 ∧ x.1 + blocksize x.2 ≤ heapSize) ∧
    (∀ p < heapSize, ∃! x, IsBlock f {x | x ∈ s.liveBlocks} x ∧ x.1 ≤ p ∧
      p < x.1 + blocksize x.2) ∧
    (∀ tr₁ t size p tr₂, tr = tr₁ ++ (t, .kmalloc size, some p) :: tr₂ →
      (∀ j o, (j, .kmmFree p, o) ∉ tr₂) → p ∈ s.live ∧ (s.blockOf p).2 = getOrder size) ∧
    buddyKmmMemInfo s.cdt =
      .ok { totalSize := heapSize, free := heapSize - s.liveLen, reserved := s.liveLen } := by
  obtain ⟨f, out, hs⟩ := Full.history h
  have hbuddied := hs.shows.buddied
  refine ⟨f, fun k => ⟨hs.shows.lists k, hbuddied.nodup k, hs.shows.free k⟩,
    ⟨hs.nodup_liveBlocks, fun x hx => hs.used x (hs.mem_liveBlocks.mp hx)⟩, ?_, ?_, ?_, hs.memInfo⟩
  · rw [hs.liveBlocks_eq]
    intro x hx
    obtain ⟨hlow, htop⟩ := hbuddied.order x hx
    exact ⟨hlow, htop, hbuddied.aligned x hx, hbuddied.inside x hx⟩
  · rw [hs.liveBlocks_eq]
    intro p hp
    obtain ⟨x, hx, hin⟩ := hs.covers p hp
    refine ⟨x, ⟨hx, hin⟩, ?_⟩
    rintro y ⟨hy, hlo, hhi⟩
    by_contra hne
    unfold Within at hin
    unfold blocksize at hhi
    have hap := hbuddied.apart y x hy hx hne
    unfold Apart blockLen at hap
    unfold blockLen at hin
    omega
  · rintro tr₁ t size p tr₂ rfl hkept
    exact blockOf_since h hkept

/-- At the start a page can be had. -/
theorem history_page : ∃ s p, History (fun _ => 0) [(Heap.init fun _ => 0, .kmalloc 4096, some p)] s ∧
    s.live = [p] := by
  have hinit := (InOrder.init fun _ => 0).shows
  rcases buddyKmalloc_cases hinit 4096 with
    ⟨-, hwhy⟩ | ⟨j, a, l, m, -, -, -, -, -, hrun, -, -⟩
  · have hempty := hwhy.resolve_left (by decide) maxOrder (by decide) (le_refl _)
    cases hempty
  · generalize (Heap.init fun _ => 0).cdt.base + a + headerSize = p at hrun
    have hproper : Call.Proper (Heap.init fun _ => 0) (.kmalloc 4096) := by
      show 4096 < word
      decide
    have hnext : next (Heap.init fun _ => 0) (.kmalloc 4096) = some (⟨m, [p]⟩, some p) := by
      rw [Buddy.next, hrun]
      rfl
    exact ⟨_, _, .snoc .nil hproper hnext, rfl⟩

/-- The page takes a block of 8192 bytes. -/
theorem buddy_partition_page : ∃ (s : Heap) (p : Nat), s.live = [p] ∧ (s.blockOf p).2 = 7 ∧
    buddyKmmMemInfo s.cdt =
      .ok { totalSize := heapSize, free := heapSize - 8192, reserved := 8192 } := by
  obtain ⟨s, p, h, hlive⟩ := history_page
  obtain ⟨f, -, -, -, -, hkept, hinfo⟩ := buddy_partition h
  have hsince := hkept [] _ 4096 p [] rfl fun _ _ => List.not_mem_nil
  have horder : (s.blockOf p).2 = 7 := hsince.2.trans (by decide)
  have hlen : s.liveLen = 8192 := by
    rw [Heap.liveLen, hlive, List.map_singleton, List.sum_singleton, horder]
    rfl
  rw [hlen] at hinfo
  exact ⟨s, p, hlive, horder, hinfo⟩

/-- **The free blocks depend on the live ones alone**, and two buddies are not both free. -/
theorem buddy_independent (h : History mem tr s) :
    (∀ k < maxOrder, ∀ l, Listed s.cdt k l → ∀ a ∈ l, ∀ b ∈ l,
      getBuddy (s.cdt.base + a) s.cdt.base k ≠ s.cdt.base + b) ∧
    (∀ mem' tr' s', History mem' tr' s' → (∀ x, x ∈ s.liveBlocks ↔ x ∈ s'.liveBlocks) →
      ∀ k l l', Listed s.cdt k l → Listed s'.cdt k l' → ∀ a, a ∈ l ↔ a ∈ l') ∧
    (s.live = [] → ∀ k, Listed s.cdt k (if k = maxOrder then [0] else [])) := by
  obtain ⟨f, out, hs⟩ := Full.history h
  have hlist : ∀ {k l}, Listed s.cdt k l → l = f k :=
    fun hl => Chain.unique hs.shows.base_pos hl (hs.shows.lists _)
  have hfree : ∀ {mem' tr' s'}, History mem' tr' s' → (∀ x, x ∈ s.liveBlocks ↔ x ∈ s'.liveBlocks) →
      ∀ k l', Listed s'.cdt k l' → ∀ a, a ∈ f k ↔ a ∈ l' := by
    intro mem' tr' s' h' hsame k l' hl' a
    obtain ⟨f', used, hs'⟩ := Full.history h'
    rw [Chain.unique hs'.shows.base_pos hl' (hs'.shows.lists k)]
    have hout : used = out := by
      rw [← hs.liveBlocks_eq, ← hs'.liveBlocks_eq]
      exact Set.ext fun x => (hsame x).symm
    have hbuddied' := hs'.shows.buddied
    have hcovers' := hs'.covers
    rw [hout] at hbuddied' hcovers'
    exact hs.shows.buddied.free_iff hs.covers hbuddied' hcovers'
  refine ⟨fun k hk l hl a ha b hb heq => ?_, fun mem' tr' s' h' hsame k l l' hl => ?_, fun hnil k => ?_⟩
  · rw [hlist hl] at ha hb
    rw [getBuddy_eq] at heq
    refine hs.shows.buddied.coalesced k hk a ha ?_
    rwa [Nat.add_left_cancel heq]
  · rw [hlist hl]
    exact hfree h' hsame k l'
  · -- the start, too, has nothing live
    have hnone : (Heap.init mem).live = [] := rfl
    have hempty : ∀ x, x ∈ s.liveBlocks ↔ x ∈ (Heap.init mem).liveBlocks := by
      intro x
      rw [Heap.liveBlocks, Heap.liveBlocks, hnil, hnone, List.map_nil, List.map_nil]
    have hstart : History mem [] (Heap.init mem) := .nil
    have hmem := hfree hstart hempty k _ ((InOrder.init mem).shows.lists k)
    have hk := hs.shows.lists k
    by_cases htop : k = maxOrder
    · rw [if_pos htop] at hmem ⊢
      have hone : f k = [0] := by
        have hnodup := hs.shows.buddied.nodup k
        have hperm := (List.perm_ext_iff_of_nodup hnodup (List.nodup_singleton 0)).mpr hmem
        exact List.perm_singleton.mp hperm
      rwa [hone] at hk
    · rw [if_neg htop] at hmem ⊢
      have hno : f k = [] := List.eq_nil_iff_forall_not_mem.mpr fun a ha =>
        absurd ((hmem a).mp ha) List.not_mem_nil
      rwa [hno] at hk

/-- The page is given back: the heap is one free block again. -/
theorem buddy_independent_page : ∃ (s : Heap) (p : Nat) (s' : Heap), s.live = [p] ∧ next s (.kmmFree p) = some (s', none) ∧
    s'.live = [] ∧ Listed s'.cdt maxOrder [0] ∧ ∀ k < maxOrder, s'.cdt.freeLists k = 0 := by
  obtain ⟨s, p, h, hlive⟩ := history_page
  obtain ⟨f, out, hord⟩ := InOrder.history h
  have hp : p ∈ s.live := hlive ▸ List.mem_cons_self
  obtain ⟨x, hx, rfl⟩ := (hord.live p).mp hp
  obtain ⟨m', hfree, -⟩ := hord.giveBack hx
  have hnil : s.live.erase (s.cdt.base + x.1 + headerSize) = [] := by
    rw [hlive, List.erase_cons_head]
  have hnext : next s (.kmmFree (s.cdt.base + x.1 + headerSize)) = some (⟨m', []⟩, none) := by
    rw [Buddy.next, hfree, hnil]
    rfl
  have h' := h.snoc (show Call.Proper s (.kmmFree _) from .inl hp) hnext
  obtain ⟨-, -, hlists⟩ := buddy_independent h'
  refine ⟨s, _, _, hlive, hnext, rfl, ?_, fun k hk => ?_⟩
  · have htop := hlists rfl maxOrder
    rwa [if_pos rfl] at htop
  · have hlist := hlists rfl k
    rwa [if_neg (Nat.ne_of_lt hk)] at hlist

end TpeSo.Buddy
