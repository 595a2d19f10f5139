import TpeSo.Fs.Strings
import TpeSo.Lib.Roster
import TpeSo.Lib.Trace

namespace TpeSo

open Lib

/-!
# Programs — the table as a map

* `Fs.roster` — the names the table stores, with their entry points, in the order of the array;
* `FsOk` — what `fs_load` and `fs_rm` keep;
* `fsLoad_roster`, `fsRm_roster` — the two are the changes of a roster;
* `ProgramMap`, `programMap_run` — **the table is a finite map that remembers the order of
  loading**.
-/

variable {fs fs' : Fs} {name s : List UInt8} {entryPoint : Option Nat} {i n : Nat}

/-- The entries in use: the string each stores, and its entry point. -/
def Fs.roster (fs : Fs) : Roster (List UInt8) (Option Nat) :=
  (List.range fs.fsEntryCount).map fun i =>
    (cstr (fs.fsEntries i).name, (fs.fsEntries i).entryPoint)

/-- The stored names, in the order of the array. -/
def Fs.names (fs : Fs) : List (List UInt8) := fs.roster.names

/-- What `fs_load` and `fs_rm` keep. -/
structure FsOk (fs : Fs) : Prop where
  room : fs.names.length ≤ maxFileEntries
  nodup : fs.names.Nodup
  short : ∀ s ∈ fs.names, s.length < maxFileNameLen

/-! ### The search -/

theorem length_names (fs : Fs) : fs.names.length = fs.fsEntryCount := by
  simp [Fs.names, Fs.roster, Roster.names]

theorem find?_range (p : Nat → Bool) (n : Nat) :
    (List.range n).find? p = (List.range n).findIdx? p := by
  induction n with
  | zero => rfl
  | succ n ih =>
    rw [List.range_succ, List.find?_append, List.findIdx?_append, ih, List.length_range]
    cases hp : p n <;> simp [List.findIdx?_cons, hp]

/-- The test the loops make of an entry. -/
theorem matches_eq (fs : Fs) (name : List UInt8) :
    (fun i => strCmp (fs.fsEntries i).name name == 0) =
      fun i => cstr (fs.fsEntries i).name == cstr name := by
  funext i
  rw [Bool.eq_iff_iff, beq_iff_eq, beq_iff_eq]
  exact strCmp_eq_zero _ _

/-- **The search** finds the first entry that stores the name. -/
theorem findEntry_eq (fs : Fs) (name : List UInt8) :
    findEntry fs name = fs.roster.findIdx? fun x => x.1 == cstr name := by
  rw [findEntry, matches_eq, find?_range, Fs.roster, List.findIdx?_map]
  rfl

theorem findEntry_eq_none : findEntry fs name = none ↔ cstr name ∉ fs.names := by
  rw [findEntry_eq, List.findIdx?_eq_none_iff, Fs.names, Roster.names, List.mem_map]
  constructor
  · rintro h ⟨x, hx, hk⟩
    exact absurd hk (by simpa using h x hx)
  · intro h x hx
    exact beq_false_of_ne fun hk => h ⟨x, hx, hk⟩

theorem findEntry_isSome : (findEntry fs name).isSome ↔ cstr name ∈ fs.names := by
  rw [Option.isSome_iff_ne_none, ne_eq, findEntry_eq_none, not_not]

/-- **`fs_get_entry`** looks the name up. -/
theorem fsGetEntry_eq (fs : Fs) (name : List UInt8) :
    fsGetEntry fs name = (fs.roster.lookup (cstr name)).join := by
  rw [fsGetEntry, findEntry, matches_eq, Fs.roster]
  induction List.range fs.fsEntryCount with
  | nil => rfl
  | cons i l ih =>
    rw [List.map_cons, List.lookup_cons, List.find?_cons, BEq.comm]
    cases cstr name == cstr (fs.fsEntries i).name with
    | true => rfl
    | false => exact ih

/-! ### Loading -/

/-- When a load is refused. -/
theorem fsLoad_eq (fs : Fs) (name : List UInt8) (entryPoint : Option Nat) :
    fsLoad fs name entryPoint =
      if (cstr name).length < maxFileNameLen ∧ cstr name ∉ fs.names ∧
          fs.names.length < maxFileEntries then
        ({ fsEntries := Function.update fs.fsEntries fs.fsEntryCount
            { name := copyName name, entryPoint := entryPoint }
           fsEntryCount := fs.fsEntryCount + 1 }, 0)
      else (fs, -1) := by
  rw [fsLoad, strLen_eq, length_names]
  by_cases hroom : maxFileEntries ≤ fs.fsEntryCount ∨ maxFileNameLen ≤ (cstr name).length
  · rw [if_pos hroom, if_neg fun h => hroom.elim (Nat.not_le.mpr h.2.2) (Nat.not_le.mpr h.1)]
  · rw [not_or, Nat.not_le, Nat.not_le] at hroom
    rw [if_neg fun h => h.elim (Nat.not_le.mpr hroom.1) (Nat.not_le.mpr hroom.2)]
    by_cases hmem : cstr name ∈ fs.names
    · rw [if_pos (findEntry_isSome.mpr hmem), if_neg fun h => h.2.1 hmem]
    · rw [if_neg fun h => hmem (findEntry_isSome.mp h), if_pos ⟨hroom.2, hmem, hroom.1⟩]

/-- **A new entry** joins at the end. -/
theorem roster_load (h : (cstr name).length < maxFileNameLen) :
    Fs.roster { fsEntries := Function.update fs.fsEntries fs.fsEntryCount
                  { name := copyName name, entryPoint := entryPoint }
                fsEntryCount := fs.fsEntryCount + 1 } =
      fs.roster ++ [(cstr name, entryPoint)] := by
  unfold Fs.roster
  dsimp only
  rw [List.range_succ, List.map_append, List.map_singleton, Function.update_self, cstr_copyName h]
  congr 1
  refine List.map_congr_left fun i hi => ?_
  rw [Function.update_of_ne (Nat.ne_of_lt (List.mem_range.mp hi))]

/-! ### Removal -/

/-- What the inner loop of `fs_rm` leaves at each place. -/
theorem shiftEntries_apply (entries : Nat → FsEntry) (j n x : Nat) :
    shiftEntries entries j n x = if j ≤ x ∧ x < j + n then entries (x + 1) else entries x := by
  induction n generalizing entries j with
  | zero => rw [shiftEntries, if_neg (by omega)]
  | succ n ih =>
    rw [shiftEntries, ih]
    by_cases hx : x = j
    · subst hx
      rw [if_neg (by omega), if_pos (by omega), Function.update_self]
    · rw [Function.update_of_ne hx]
      by_cases hin : j + 1 ≤ x ∧ x < j + 1 + n
      · rw [if_pos hin, if_pos (by omega), Function.update_of_ne (by omega)]
      · rw [if_neg hin, if_neg (by omega)]

theorem roster_getElem? (fs : Fs) (x : Nat) :
    fs.roster[x]? = if x < fs.fsEntryCount then
      some (cstr (fs.fsEntries x).name, (fs.fsEntries x).entryPoint) else none := by
  rw [Fs.roster, List.getElem?_map]
  by_cases hx : x < fs.fsEntryCount
  · rw [if_pos hx, List.getElem?_range hx]
    rfl
  · rw [if_neg hx, List.getElem?_eq_none (by simpa using hx)]
    rfl

/-- **The shift** closes the gap that entry `i` leaves. -/
theorem roster_rm (h : i < fs.fsEntryCount) :
    Fs.roster { fsEntries := shiftEntries fs.fsEntries i (fs.fsEntryCount - 1 - i)
                fsEntryCount := fs.fsEntryCount - 1 } = fs.roster.eraseIdx i := by
  refine List.ext_getElem? fun x => ?_
  rw [List.getElem?_eraseIdx, roster_getElem?, roster_getElem?, roster_getElem?]
  dsimp only
  rw [shiftEntries_apply]
  by_cases hlt : x < i
  · rw [if_pos hlt, if_pos (by omega), if_neg (by omega), if_pos (by omega)]
  · rw [if_neg hlt]
    by_cases hx : x < fs.fsEntryCount - 1
    · rw [if_pos hx, if_pos (by omega), if_pos (by omega)]
    · rw [if_neg hx, if_neg (by omega)]

/-- **`fs_rm`** takes the entry with the name out. -/
theorem fsRm_eq (fs : Fs) (name : List UInt8) :
    (cstr name ∉ fs.names ∧ fsRm fs name = (fs, -1)) ∨
      (cstr name ∈ fs.names ∧ (fsRm fs name).2 = 0 ∧
        (fsRm fs name).1.roster = fs.roster.strike (cstr name)) := by
  unfold fsRm
  cases hf : findEntry fs name with
  | none => exact .inl ⟨findEntry_eq_none.mp hf, rfl⟩
  | some i =>
    refine .inr ⟨findEntry_isSome.mp (by rw [hf]; rfl), rfl, ?_⟩
    have hi : i < fs.fsEntryCount := by
      have := List.mem_of_find?_eq_some hf
      exact List.mem_range.mp this
    dsimp only
    rw [roster_rm hi, Roster.strike, List.eraseP_eq_eraseIdx, ← findEntry_eq, hf]

/-! ### The listing -/

theorem listLoop_eq (fs : Fs) (maxCount : Int) (i count n : Nat) :
    listLoop fs maxCount i count n =
      ((List.range' i n).take (maxCount - count).toNat).map fun x =>
        copyName (fs.fsEntries x).name := by
  induction n generalizing i count with
  | zero => rw [listLoop, List.range'_zero, List.take_nil, List.map_nil]
  | succ n ih =>
    rw [listLoop]
    by_cases hc : (count : Int) < maxCount
    · have hsucc : (maxCount - count).toNat = (maxCount - ((count + 1 : Nat) : Int)).toNat + 1 := by
        omega
      rw [if_pos hc, ih, hsucc, List.range'_succ, List.take_succ_cons, List.map_cons]
    · rw [if_neg hc, Int.toNat_of_nonpos (by omega), List.take_zero, List.map_nil]

/-- **`fs_list_programs`** yields the first names of the table. -/
theorem fsListPrograms_eq (h : ∀ s ∈ fs.names, s.length < maxFileNameLen) (maxCount : Int) :
    (fsListPrograms fs maxCount).map cstr = fs.names.take maxCount.toNat := by
  have hnames : fs.names = (List.range fs.fsEntryCount).map fun x =>
      cstr (fs.fsEntries x).name := by
    rw [Fs.names, Roster.names, Fs.roster, List.map_map]
    rfl
  have hcopy : ∀ x ∈ List.range fs.fsEntryCount,
      cstr (copyName (fs.fsEntries x).name) = cstr (fs.fsEntries x).name := by
    intro x hx
    refine cstr_copyName (h _ ?_)
    rw [hnames]
    exact List.mem_map_of_mem hx
  have hmax : (maxCount - (0 : Nat)).toNat = maxCount.toNat := by omega
  rw [fsListPrograms, listLoop_eq, List.map_map, hnames, ← List.map_take, hmax,
    ← List.range_eq_range']
  exact List.map_congr_left fun x hx => hcopy x (List.mem_of_mem_take hx)

/-! ### Runs -/

/-- What a call has done to the table: a successful load, a successful removal, or nothing. -/
def fsChange (x : Fs × FsCall × Int) : Change (List UInt8) (Option Nat) :=
  if x.2.2 = 0 then
    match x.2.1 with
    | .load name entryPoint => .enroll (cstr name) entryPoint
    | .rm name => .strike (cstr name)
  else .none

/-- The names that a history has loaded and not removed since, in the order of loading. -/
def loadOrder (tr : List (Fs × FsCall × Int)) : List (List UInt8) :=
  tr.foldl (fun l x => (fsChange x).names l) []

/-- The entry point that the latest successful load of `s` has given, when no successful removal
    of it has followed. -/
def latestLoad (s : List UInt8) (tr : List (Fs × FsCall × Int)) : Option (Option Nat) :=
  tr.foldl (fun o x => (fsChange x).value s o) none

/-- What a call can do. -/
theorem fsStep_cases {c : FsCall} {r : Int} (h : fsStep fs c = some (fs', r)) :
    (r = -1 ∧ fs' = fs) ∨
      (∃ name entryPoint, c = .load name entryPoint ∧ r = 0 ∧
        (cstr name).length < maxFileNameLen ∧ cstr name ∉ fs.names ∧
        fs.names.length < maxFileEntries ∧ fs'.roster = fs.roster ++ [(cstr name, entryPoint)]) ∨
      (∃ name, c = .rm name ∧ r = 0 ∧ cstr name ∈ fs.names ∧
        fs'.roster = fs.roster.strike (cstr name)) := by
  cases c with
  | load name entryPoint =>
    rw [fsStep, fsLoad_eq] at h
    split at h
    · next hok =>
      simp only [Option.some.injEq, Prod.mk.injEq] at h
      obtain ⟨rfl, rfl⟩ := h
      exact .inr <| .inl
        ⟨name, entryPoint, rfl, rfl, hok.1, hok.2.1, hok.2.2, roster_load hok.1⟩
    · simp only [Option.some.injEq, Prod.mk.injEq] at h
      exact .inl ⟨h.2.symm, h.1.symm⟩
  | rm name =>
    rw [fsStep, Option.some.injEq] at h
    obtain ⟨-, heq⟩ | ⟨hmem, hret, hroster⟩ := fsRm_eq fs name
    · rw [heq, Prod.mk.injEq] at h
      exact .inl ⟨h.2.symm, h.1.symm⟩
    · rw [h] at hret hroster
      exact .inr <| .inr ⟨name, rfl, hret, hmem, hroster⟩

/-- One call changes the table as its history records. -/
theorem roster_step {c : FsCall} {r : Int} (h : fsStep fs c = some (fs', r)) :
    fs'.roster = (fsChange (fs, c, r)).apply fs.roster ∧ (fsChange (fs, c, r)).Fresh fs.roster := by
  obtain ⟨rfl, rfl⟩ | ⟨name, entryPoint, rfl, rfl, -, hfresh, -, hroster⟩ |
    ⟨name, rfl, rfl, -, hroster⟩ := fsStep_cases h
  · exact ⟨rfl, trivial⟩
  · exact ⟨hroster, hfresh⟩
  · exact ⟨hroster, trivial⟩

theorem FsOk.step {c : FsCall} {r : Int} (hok : FsOk fs) (h : fsStep fs c = some (fs', r)) :
    FsOk fs' := by
  have hnodup : fs'.names.Nodup := by
    obtain ⟨hroster, hfresh⟩ := roster_step h
    rw [Fs.names, hroster]
    exact Change.nodup_apply hok.nodup hfresh
  obtain ⟨-, rfl⟩ | ⟨name, entryPoint, -, -, hshort, -, hroom, hroster⟩ |
    ⟨name, -, -, -, hroster⟩ := fsStep_cases h
  · exact hok
  · have hnames : fs'.names = fs.names ++ [cstr name] := by
      rw [Fs.names, hroster, Roster.names_enroll, Fs.names]
    refine ⟨?_, hnodup, fun s hs => ?_⟩
    · rw [hnames, List.length_append]
      exact hroom
    · rw [hnames, List.mem_append, List.mem_singleton] at hs
      obtain hs | rfl := hs
      · exact hok.short s hs
      · exact hshort
  · have hnames : fs'.names = fs.names.erase (cstr name) := by
      rw [Fs.names, hroster, Roster.names_strike, Fs.names]
    refine ⟨?_, hnodup, fun s hs => hok.short s ?_⟩
    · rw [hnames]
      exact List.length_erase_le.trans hok.room
    · rw [hnames] at hs
      exact List.mem_of_mem_erase hs

theorem fsOk_initial : FsOk {} where
  room := Nat.zero_le _
  nodup := List.nodup_nil
  short := fun _ h => absurd h List.not_mem_nil

/-- The table as a finite map that remembers the order of loading, after the calls of `tr`. -/
structure ProgramMap (tr : List (Fs × FsCall × Int)) (fs : Fs) : Prop where
  distinct : fs.names.Nodup
  short : ∀ s ∈ fs.names, s.length < 32
  order : fs.names = loadOrder tr
  get : ∀ name, fsGetEntry fs name = (latestLoad (cstr name) tr).join
  load : ∀ name entryPoint, (fsLoad fs name entryPoint).2 = 0 ↔
    (cstr name).length < 32 ∧ cstr name ∉ fs.names ∧ fs.names.length < 64
  loaded : ∀ name entryPoint, (fsLoad fs name entryPoint).2 = 0 →
    (fsLoad fs name entryPoint).1.roster = fs.roster ++ [(cstr name, entryPoint)]
  refused : ∀ name entryPoint, (fsLoad fs name entryPoint).2 ≠ 0 →
    fsLoad fs name entryPoint = (fs, -1)
  list : ∀ maxCount,
    (fsListPrograms fs maxCount).map cstr = (loadOrder tr).take maxCount.toNat
  rm : ∀ name, (fsRm fs name).2 = 0 ↔ cstr name ∈ fs.names
  removed : ∀ name, (fsRm fs name).2 = 0 →
    (fsRm fs name).1.roster = fs.roster.strike (cstr name) ∧
      (fsRm fs name).1.names = fs.names.erase (cstr name)
  missing : ∀ name, (fsRm fs name).2 ≠ 0 → fsRm fs name = (fs, -1)

theorem fsLoad_snd (fs : Fs) (name : List UInt8) (entryPoint : Option Nat) :
    (fsLoad fs name entryPoint).2 = 0 ↔ (cstr name).length < maxFileNameLen ∧
      cstr name ∉ fs.names ∧ fs.names.length < maxFileEntries := by
  rw [fsLoad_eq]
  split
  · next h => exact iff_of_true rfl h
  · next h => exact iff_of_false (fun h0 => absurd h0 (by decide : (-1 : Int) ≠ 0)) h

/-- **`fs.c` is a finite map** that remembers the order of loading: after every sequence of
    calls. -/
theorem programMap_run {tr : List (Fs × FsCall × Int)}
    (h : Trace fsStep (fun _ _ => True) {} tr fs) : ProgramMap tr fs := by
  have hok : FsOk fs := h.invariant FsOk fsOk_initial fun _ _ _ _ hok _ hs => hok.step hs
  -- the two readings of the history, by induction on it
  have hhist : fs.names = loadOrder tr ∧
      ∀ s, fs.roster.lookup s = latestLoad s tr := by
    refine h.invariant_history (fun tr fs => fs.names = loadOrder tr ∧
      ∀ s, fs.roster.lookup s = latestLoad s tr) ⟨rfl, fun _ => rfl⟩ ?_
    intro tr fs c fs' r hr ⟨horder, hget⟩ _ hs
    have hnodup : fs.roster.names.Nodup :=
      (hr.invariant FsOk fsOk_initial fun _ _ _ _ hok _ hs => hok.step hs).nodup
    obtain ⟨hroster, hfresh⟩ := roster_step hs
    constructor
    · rw [Fs.names, hroster, Change.names_apply, loadOrder, List.foldl_append]
      exact congrArg (fun l => (fsChange (fs, c, r)).names l) horder
    · intro s
      rw [hroster, Change.lookup_apply hnodup hfresh, latestLoad, List.foldl_append]
      exact congrArg (fun o => (fsChange (fs, c, r)).value s o) (hget s)
  exact {
    distinct := hok.nodup
    short := hok.short
    order := hhist.1
    get := fun name => by rw [fsGetEntry_eq, hhist.2]
    load := fsLoad_snd fs
    loaded := fun name entryPoint h0 => by
      have hok := (fsLoad_snd fs name entryPoint).mp h0
      rw [fsLoad_eq, if_pos hok]
      exact roster_load hok.1
    refused := fun name entryPoint h0 => by
      rw [fsLoad_eq, if_neg fun hok => h0 ((fsLoad_snd fs name entryPoint).mpr hok)]
    list := fun maxCount => by rw [fsListPrograms_eq hok.short, hhist.1]
    rm := fun name => by
      obtain ⟨hmem, heq⟩ | ⟨hmem, hret, -⟩ := fsRm_eq fs name
      · rw [heq]
        exact iff_of_false (by decide : (-1 : Int) ≠ 0) hmem
      · exact iff_of_true hret hmem
    removed := fun name h0 => by
      obtain ⟨-, heq⟩ | ⟨-, -, hroster⟩ := fsRm_eq fs name
      · rw [heq] at h0
        exact absurd h0 (by decide : (-1 : Int) ≠ 0)
      · exact ⟨hroster, by rw [Fs.names, hroster, Roster.names_strike, Fs.names]⟩
    missing := fun name h0 => by
      obtain ⟨-, heq⟩ | ⟨-, hret, -⟩ := fsRm_eq fs name
      · exact heq
      · exact absurd hret h0 }

/-- Two programs are loaded, a second load of the first is refused, and the first is removed. -/
theorem programMap_run_reload : ∃ tr fs, ProgramMap tr fs ∧ loadOrder tr = [[98]] ∧
    tr.map (fun x => x.2.2) = [0, 0, -1, 0] := by
  have hcheck : execCheck fsStep (fun _ _ => True)
      (fun tr _ => loadOrder tr == [[98]] && tr.map (fun x => x.2.2) == [0, 0, -1, 0]) {}
      [.load [97] (some 1), .load [98] (some 2), .load [97] (some 3), .rm [97]] = true := by
    decide +kernel
  obtain ⟨tr, fs, h, hQ⟩ := Trace.of_execCheck hcheck
  simp only [Bool.and_eq_true, beq_iff_eq] at hQ
  exact ⟨tr, fs, programMap_run h, hQ.1, hQ.2⟩

end TpeSo
