import Mathlib.Order.CompletePartialOrder
import Mathlib.Order.Interval.Set.Disjoint
import TpeSo.Image.ModuleLoader
import TpeSo.Image.ModulePacker

namespace TpeSo.Image

open Lib

/-!
# The image round trip

* `image`, `buildImage_eq` — the format: the count, and before each module its size;
* `memcpy_apply` — both loops of `memcpy` copy the bytes, if the two places are apart;
* `loadFrom_spec` — by induction on the modules that are left: they end up at their targets, and
  nothing else changes;
* `loadModules_buildImage` — the whole way.
-/

variable {mem mem' : Memory} {w d s n x base : Nat}

/-! ### The format -/

/-- The modules, each with its size before it. -/
def packed : List (List UInt8) → List UInt8
  | [] => []
  | file :: files => bytesOf 4 file.length ++ (file ++ packed files)

/-- The whole file is written, whatever the size of the buffer. -/
theorem writeFile_eq : ∀ (rest target : List UInt8), writeFile target { rest := rest } = target ++ rest := by
  intro rest
  induction hlen : rest.length using Nat.strong_induction_on generalizing rest with
  | _ len ih =>
    intro target
    subst hlen
    rw [writeFile, if_neg Bool.false_ne_true]
    by_cases hshort : rest.length < bufferSize
    · rw [writeFile, if_pos (by simpa [Source.fread] using hshort)]
      show target ++ rest.take bufferSize = target ++ rest
      rw [List.take_of_length_le (Nat.le_of_lt hshort)]
    · have hread : (Source.fread { rest := rest } bufferSize).2 = { rest := rest.drop bufferSize } := by
        rw [Source.fread, decide_eq_false hshort]
      have hpos : 0 < bufferSize := by decide
      dsimp only
      rw [hread, ih (rest.drop bufferSize).length (by rw [List.length_drop]; omega) _ rfl]
      show (target ++ rest.take bufferSize) ++ rest.drop bufferSize = target ++ rest
      rw [List.append_assoc, List.take_append_drop]

theorem writeModules_eq : ∀ (files : List (List UInt8)) (target : List UInt8),
    (∀ file ∈ files, file.length < 2 ^ 32) → writeModules target files = target ++ packed files := by
  intro files
  induction files with
  | nil => exact fun target _ => (List.append_nil target).symm
  | cons file files ih =>
    intro target hsize
    rw [writeModules, ih _ fun f hf => hsize f (List.mem_cons_of_mem file hf), writeFile_eq,
      writeSize, Nat.mod_eq_of_lt (hsize file List.mem_cons_self), packed]
    simp only [List.append_assoc]

/-- What `buildImage` appends to the kernel. -/
theorem buildImage_eq (files : FileArray) (hsize : ∀ file ∈ files.modules, file.length < 2 ^ 32) :
    buildImage files =
      files.kernel ++ (bytesOf 4 files.modules.length ++ packed files.modules) := by
  rw [buildImage, writeModules_eq _ _ hsize, writeFile_eq, List.nil_append, List.append_assoc]

/-! ### Copying -/

theorem copyItems_apply : ∀ n, (d + w * n ≤ s ∨ s + w * n ≤ d) → ∀ x,
    copyItems w d s mem n x = if d ≤ x ∧ x < d + w * n then mem (s + (x - d)) else mem x := by
  intro n
  induction n with
  | zero =>
    intro _ x
    rw [if_neg (by omega)]
    rfl
  | succ n ih =>
    intro hap x
    rw [Nat.mul_succ] at hap ⊢
    have ih := ih (by omega)
    -- the source is read as it was at the start
    have hread : load (copyItems w d s mem n) (s + w * n) w = load mem (s + w * n) w := by
      refine load_congr fun y hlo hhi => ?_
      rw [ih, if_neg (by omega)]
    show store (copyItems w d s mem n) (d + w * n) w (load (copyItems w d s mem n) (s + w * n) w) x = _
    rw [hread]
    by_cases hin : d + w * n ≤ x ∧ x < d + w * n + w
    · obtain ⟨i, rfl⟩ := Nat.exists_eq_add_of_le hin.1
      rw [store_load (by omega), if_pos (by omega)]
      congr 1
      omega
    · rw [store_of_notMem (by omega), ih]
      by_cases hold : d ≤ x ∧ x < d + w * n
      · rw [if_pos hold, if_pos (by omega)]
      · rw [if_neg hold, if_neg (by omega)]

/-- **`memcpy`** copies the bytes, word by word or byte by byte. -/
theorem memcpy_apply (hap : d + n ≤ s ∨ s + n ≤ d ∨ n = 0) (x : Nat) :
    memcpy mem d s n x = if d ≤ x ∧ x < d + n then mem (s + (x - d)) else mem x := by
  rcases Nat.eq_zero_or_pos n with rfl | hpos
  · rw [if_neg (by omega), memcpy]
    split <;> rfl
  · rw [memcpy]
    split
    · rename_i haligned
      have hwords : 4 * (n / 4) = n := Nat.mul_div_cancel' (Nat.dvd_of_mod_eq_zero haligned.2.2)
      rw [copyItems_apply _ (by omega), hwords]
    · rw [copyItems_apply _ (by omega), Nat.one_mul]

/-! ### Loading -/

/-- Where a module goes. -/
def place (r : Nat × List UInt8) : Set Nat := Set.Ico r.1 (r.1 + r.2.length)

/-- The modules that are left go to their targets, and nothing else changes. -/
theorem loadFrom_spec (targets : List Nat) : ∀ (loads : List (Nat × List UInt8)) (i cur : Nat)
    (mem : Memory), targets.drop i = loads.map Prod.fst → (∀ r ∈ loads, r.2.length < 2 ^ 32) →
    Holds mem cur (packed (loads.map Prod.snd)) →
    (∀ r ∈ loads, Disjoint (place r) (Set.Ico cur (cur + (packed (loads.map Prod.snd)).length))) →
    loads.Pairwise (fun r r' => Disjoint (place r) (place r')) →
    ∃ mem', loadFrom targets loads.length i mem cur = .ok mem' ∧
      (∀ r ∈ loads, Holds mem' r.1 r.2) ∧ ∀ x, (∀ r ∈ loads, x ∉ place r) → mem' x = mem x := by
  intro loads
  induction loads with
  | nil => exact fun _ _ mem _ _ _ _ _ => ⟨mem, rfl, fun r hr => absurd hr List.not_mem_nil, fun _ _ => rfl⟩
  | cons r loads ih =>
    intro i cur mem htargets hsize himage hpayload hapart
    obtain ⟨t, file⟩ := r
    obtain ⟨hfirst, hrest⟩ := List.pairwise_cons.mp hapart
    have htarget : targets[i]? = some t := by
      rw [← Nat.add_zero i, ← List.getElem?_drop, htargets]
      rfl
    have htail : targets.drop (i + 1) = loads.map Prod.fst := by
      rw [← List.tail_drop, htargets]
      rfl
    -- the size, the module and what comes behind it
    rw [List.map_cons, packed] at himage hpayload
    dsimp only at himage hpayload
    obtain ⟨hsz, hbody⟩ := holds_append.mp himage
    obtain ⟨hfile, hmore⟩ := holds_append.mp hbody
    rw [length_bytesOf] at hfile hmore
    have hread : load mem cur 4 = file.length := by
      rw [hsz.load]
      exact Nat.mod_eq_of_lt (hsize (t, file) List.mem_cons_self)
    simp only [List.length_append, length_bytesOf] at hpayload
    have hhere := Set.Ico_disjoint_Ico.mp (hpayload (t, file) List.mem_cons_self)
    dsimp only at hhere
    have hcopy : ∀ x, memcpy mem t (cur + 4) file.length x =
        if t ≤ x ∧ x < t + file.length then mem (cur + 4 + (x - t)) else mem x :=
      memcpy_apply (by omega)
    have hplaced : Holds (memcpy mem t (cur + 4) file.length) t file := by
      refine hfile.copy fun i hi => ?_
      rw [hcopy, if_pos (by omega), Nat.add_sub_cancel_left]
    have hkept : Holds (memcpy mem t (cur + 4) file.length) (cur + 4 + file.length)
        (packed (loads.map Prod.snd)) := by
      refine hmore.congr fun x hlo hhi => ?_
      rw [hcopy, if_neg (by omega)]
    obtain ⟨mem', hrun, hall, hother⟩ := ih (i + 1) (cur + 4 + file.length) _ htail
      (fun r hr => hsize r (List.mem_cons_of_mem _ hr)) hkept
      (fun r hr => (hpayload r (List.mem_cons_of_mem _ hr)).mono_right
        (Set.Ico_subset_Ico (by omega) (by omega))) hrest
    refine ⟨mem', ?_, ?_, fun x hx => ?_⟩
    · rw [List.length_cons, loadFrom, htarget]
      dsimp only [loadModule, readUint32]
      rw [hread]
      exact hrun
    · intro r hr
      rcases List.mem_cons.mp hr with rfl | hr
      · refine hplaced.congr fun x hlo hhi => hother x fun r hr hin => ?_
        exact Set.disjoint_left.mp (hfirst r hr) ⟨hlo, hhi⟩ hin
      · exact hall r hr
    · have hout : ¬ (t ≤ x ∧ x < t + file.length) := hx (t, file) List.mem_cons_self
      rw [hother x fun r hr => hx r (List.mem_cons_of_mem _ hr), hcopy, if_neg hout]

/-- **Round trip.** What `buildImage` appends to the kernel, `loadModules` takes apart: every module
    is copied to its target, and no other byte of the memory changes. -/
theorem loadModules_buildImage (files : FileArray) (targets : List Nat) (mem : Memory)
    (endOfKernelBinary : Nat) (hsize : ∀ file ∈ files.modules, file.length < 2 ^ 32)
    (hlen : targets.length = files.modules.length)
    (himage : Holds mem endOfKernelBinary ((buildImage files).drop files.kernel.length))
    (hpayload : ∀ r ∈ targets.zip files.modules, Disjoint (place r) (Set.Ico endOfKernelBinary
      (endOfKernelBinary + ((buildImage files).drop files.kernel.length).length)))
    (hapart : (targets.zip files.modules).Pairwise fun r r' => Disjoint (place r) (place r')) :
    ∃ mem', loadModules mem endOfKernelBinary targets = .ok mem' ∧
      (∀ (i t : Nat) (file : List UInt8), targets[i]? = some t → files.modules[i]? = some file → Holds mem' t file) ∧
      ∀ x, (∀ r ∈ targets.zip files.modules, x ∉ place r) → mem' x = mem x := by
  rw [buildImage_eq files hsize, List.drop_left] at himage hpayload
  obtain ⟨hcount, hrest⟩ := holds_append.mp himage
  rw [length_bytesOf] at hrest
  simp only [List.length_append, length_bytesOf] at hpayload
  have hfst : (targets.zip files.modules).map Prod.fst = targets := List.map_fst_zip hlen.le
  have hsnd : (targets.zip files.modules).map Prod.snd = files.modules := List.map_snd_zip hlen.ge
  have hread : load mem endOfKernelBinary 4 = files.modules.length := by
    rw [hcount.load]
    have hlt := files.length_lt
    exact Nat.mod_eq_of_lt (by omega)
  have hzip : (targets.zip files.modules).length = files.modules.length := by
    rw [List.length_zip, hlen, Nat.min_self]
  obtain ⟨mem', hrun, hall, hother⟩ := loadFrom_spec targets (targets.zip files.modules) 0
    (endOfKernelBinary + 4) mem hfst.symm
    (fun r hr => hsize r.2 (List.of_mem_zip hr).2) (by rwa [hsnd])
    (fun r hr => (hpayload r hr).mono_right (Set.Ico_subset_Ico (by omega) (by rw [hsnd]; omega)))
    hapart
  refine ⟨mem', ?_, fun i t file ht hf => ?_, hother⟩
  · rw [loadModules, readUint32, hread, ← hzip]
    exact hrun
  · refine hall (t, file) (List.mem_of_getElem? (i := i) ?_)
    rw [List.getElem?_zip_eq_some]
    exact ⟨ht, hf⟩

/-- A kernel of one byte, a module of three bytes and one of four, copied as a word. -/
def twoModules : FileArray where
  kernel := [0xf4]
  modules := [[1, 2, 3], [4, 5, 6, 7]]
  length_lt := by decide

/-- The payload of `twoModules` from the address 101 on, and nothing else. -/
def twoModulesMemory : Memory :=
  fun x => ([2, 0, 0, 0, 3, 0, 0, 0, 1, 2, 3, 4, 0, 0, 0, 4, 5, 6, 7] : List UInt8).getD (x - 101) 0

/-- Both are loaded. -/
theorem loadModules_twoModules : ∃ mem',
    loadModules twoModulesMemory 101 [200, 300] = .ok mem' ∧ Holds mem' 200 [1, 2, 3] ∧
    Holds mem' 300 [4, 5, 6, 7] ∧ mem' 203 = 0 := by
  have hsize : ∀ file ∈ twoModules.modules, file.length < 2 ^ 32 := by decide
  have himage : (buildImage twoModules).drop twoModules.kernel.length =
      bytesOf 4 2 ++ packed twoModules.modules := by
    rw [buildImage_eq twoModules hsize, List.drop_left]
    rfl
  obtain ⟨mem', hrun, hall, hother⟩ := loadModules_buildImage twoModules [200, 300]
    twoModulesMemory 101 hsize rfl (by rw [himage]; decide)
    (by
      rw [himage]
      intro r hr
      refine Set.Ico_disjoint_Ico.mpr ?_
      revert r
      decide)
    (by
      refine List.pairwise_pair.mpr (Set.Ico_disjoint_Ico.mpr ?_)
      decide)
  have hbetween : ∀ r ∈ [200, 300].zip twoModules.modules, r.1 + r.2.length ≤ 203 ∨ 203 < r.1 := by
    decide
  refine ⟨mem', hrun, hall 0 _ _ rfl rfl, hall 1 _ _ rfl rfl, hother 203 fun r hr hin => ?_⟩
  rcases hbetween r hr with hlt | hlt
  · exact absurd hin.2 (not_lt_of_ge hlt)
  · exact absurd hin.1 (not_le_of_gt hlt)

end TpeSo.Image
