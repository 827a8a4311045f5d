import AndroidSystem.Zip.CentralDirectory

/-!
# Lookup and iteration

For a directory that `ParseZipArchive` accepts, the table is a finite map from the names of its
records (`EntryMap`): `EntryToIndex` finds exactly the names of records, and repeated calls of `Next`
visit exactly the slots whose names have the given prefix and suffix.

`FindEntry`, which `Next` calls for each slot, returns an entry or an error other than
`kIterationEnd` (`findEntryAt_answers`), so an iteration is not cut short.
-/

namespace AndroidSystem.Zip

open List

variable {offset n : Nat} {d : Directory}

/-! ## Functions that answer -/

/-- The function returns, and not with `-1`. -/
def Answers {α : Type} (run : Run α) : Prop :=
  ∀ stop, run = .error stop → ∃ e, stop = .error e ∧ e.code ≠ -1

section Answers

variable {α β : Type}

theorem answers_ok (a : α) : Answers (.ok a : Run α) := by
  intro stop h
  cases h

theorem answers_fail {e : ZipError} (h : e.code ≠ -1) : Answers (fail e : Run α) := by
  intro stop hstop
  cases hstop
  exact ⟨e, rfl, h⟩

theorem answers_bind {run : Run α} {f : α → Run β} (h : Answers run)
    (hf : ∀ a, run = .ok a → Answers (f a)) : Answers (run >>= f) := by
  cases run with
  | error stop =>
    intro stop' h'
    cases h'
    exact h stop rfl
  | ok a => exact hf a rfl

theorem answers_ite {c : Prop} [Decidable c] {x y : Run α} (hx : c → Answers x)
    (hy : ¬c → Answers y) : Answers (if c then x else y) := by
  split_ifs with hc
  · exact hx hc
  · exact hy hc

theorem answers_readFully (file : Region) (offset n : Nat) : Answers (readFully file offset n) := by
  unfold readFully
  cases file.read offset n with
  | none => exact answers_fail (by decide)
  | some b => exact answers_ok b

theorem readFully_ok {file b : Region} (h : readFully file offset n = .ok b) :
    offset + n ≤ file.size ∧ b.size = n ∧ b.bytes = (file.bytes.drop offset).take n := by
  unfold readFully at h
  cases hread : file.read offset n with
  | none =>
    rw [hread] at h
    cases h
  | some b' =>
    rw [hread] at h
    cases h
    exact Region.read_size hread

theorem readCentral_ok {cd : Region} {ptr : Nat} (h : ptr + sizeofCentralDirectoryRecord ≤ cd.size) :
    ∃ r, readCentral cd ptr = .ok r := by
  unfold sizeofCentralDirectoryRecord at h
  unfold readCentral
  repeat rw [need_word (by omega)]
  exact ⟨_, rfl⟩

theorem localFileHeader_read_ok {lfh : Region} (h : lfh.size = sizeofLocalFileHeader) :
    ∃ r, LocalFileHeader.read lfh = .ok r := by
  unfold sizeofLocalFileHeader at h
  unfold LocalFileHeader.read
  repeat rw [need_word (by omega)]
  exact ⟨_, rfl⟩

end Answers

namespace ZipArchive

section FindEntry

variable {a : ZipArchive} {slot : ZipEntryName} {i : Nat}

theorem checkName_answers (h : slot.Inside a.directoryMap) (lfh : LocalFileHeader)
    (localHeaderOffset : Nat) : Answers (a.checkName slot lfh localHeaderOffset) := by
  apply answers_ite
  · intro _
    apply answers_ite
    · exact fun _ => answers_fail (by decide)
    · intro _
      refine answers_bind (answers_readFully _ _ _) fun nameBuf _ => ?_
      obtain ⟨b, hb, -⟩ := h.read
      rw [hb]
      exact answers_ite (fun _ => answers_fail (by decide)) (fun _ => answers_ok _)
  · exact fun _ => answers_fail (by decide)

theorem checkData_answers (a : ZipArchive) (data : ZipEntry) (dataOffset : Nat) :
    Answers (a.checkData data dataOffset) := by
  refine answers_ite (fun _ => answers_fail (by decide)) fun _ => ?_
  refine answers_ite (fun _ => answers_fail (by decide)) fun _ => ?_
  exact answers_ite (fun _ => answers_fail (by decide)) fun _ => answers_ok _

theorem findEntryAt_answers (hslot : a.hashTable[i]? = some (some slot))
    (h : slot.Inside a.directoryMap) (hname : sizeofCentralDirectoryRecord ≤ slot.name) :
    Answers (a.findEntryAt i) := by
  unfold findEntryAt
  rw [hslot]
  refine answers_ite (fun _ => answers_fail (by decide)) fun _ => ?_
  have hfixed : slot.name - sizeofCentralDirectoryRecord + sizeofCentralDirectoryRecord ≤
      a.directoryMap.size := by
    unfold ZipEntryName.Inside at h
    omega
  obtain ⟨⟨data, localHeaderOffset⟩, hcentral⟩ := readCentral_ok hfixed
  rw [hcentral]
  refine answers_ite (fun _ => answers_fail (by decide)) fun _ => ?_
  refine answers_bind (answers_readFully _ _ _) fun lfhBuf hread => ?_
  obtain ⟨lfh, hlfh⟩ := localFileHeader_read_ok (readFully_ok hread).2.1
  rw [hlfh]
  refine answers_ite (fun _ => answers_fail (by decide)) fun _ => ?_
  refine answers_ite (fun _ => answers_fail (by decide)) fun _ => ?_
  exact answers_bind (checkName_answers h lfh localHeaderOffset) fun _ _ =>
    checkData_answers a _ _

end FindEntry

/-! ## Iteration -/

/-- Whether the result of `Next` is `kIterationEnd`, as the caller sees it. -/
def ended {α : Type} : Except ZipError α → Bool
  | .error e => e.code = ZipError.iterationEnd.code
  | .ok _ => false

/-- Calls of `Next` up to the end of the iteration: the slots that are visited, with the results. -/
def iterate (a : ZipArchive) : Nat → IterationHandle →
    Run (List (Nat × Except ZipError (ZipEntry × ZipEntryName)))
  | 0, _ => .error .endless
  | n + 1, handle => do
    let (handle, result) ← a.next handle
    if ended result then .ok []
    else do
      let visits ← a.iterate n handle
      .ok ((handle.position - 1, result) :: visits)

/-- A slot whose name has a prefix and a suffix. -/
def Selected (a : ZipArchive) (namePrefix nameSuffix : List UInt8) (i : Nat) : Prop :=
  ∃ slot, a.hashTable[i]? = some (some slot) ∧ namePrefix <+: slot.bytes a.directoryMap ∧
    nameSuffix <:+ slot.bytes a.directoryMap

/-- A visit of a slot: the result of `FindEntry` for it, with its name. -/
def Visit (a : ZipArchive) (v : Nat × Except ZipError (ZipEntry × ZipEntryName)) : Prop :=
  ∃ slot result, a.hashTable[v.1]? = some (some slot) ∧ returned (a.findEntryAt v.1) = .ok result ∧
    v.2 = result.map fun data => (data, slot)

/-- The slots of an archive are as `FindEntry` and `Next` expect them. -/
def SlotsOk (a : ZipArchive) : Prop :=
  ∀ (i : Nat) (slot : ZipEntryName), a.hashTable[i]? = some (some slot) →
    slot.Inside a.directoryMap ∧ sizeofCentralDirectoryRecord ≤ slot.name

section Next

variable {a : ZipArchive} {slot : ZipEntryName} {handle : IterationHandle}

theorem comparePart_eq (h : slot.Inside a.directoryMap) (part : List UInt8)
    (hoffset : part.length ≤ slot.nameLength → offset + part.length ≤ slot.nameLength) :
    ∃ found, a.comparePart slot part offset = .ok found ∧ (found = true ↔
      part.length ≤ slot.nameLength ∧
        ((slot.bytes a.directoryMap).drop offset).take part.length = part) := by
  unfold comparePart
  by_cases hzero : part.length = 0
  · rw [length_eq_zero_iff.1 hzero]
    exact ⟨true, rfl, by simp⟩
  rw [if_neg hzero]
  by_cases hle : part.length ≤ slot.nameLength
  · rw [if_pos hle]
    unfold ZipEntryName.Inside at h
    obtain ⟨b, hb⟩ := Option.isSome_iff_exists.1 (Region.read_isSome.2
      (show slot.name + offset + part.length ≤ a.directoryMap.size by omega))
    obtain ⟨-, -, hbytes⟩ := Region.read_size hb
    rw [hb]
    have hpart : ((slot.bytes a.directoryMap).drop offset).take part.length = b.bytes := by
      unfold ZipEntryName.bytes
      rw [hbytes, drop_take, drop_drop, take_take, min_eq_left (by omega)]
    rw [hpart]
    exact ⟨decide (b.bytes = part), rfl, by simp [hle]⟩
  · rw [if_neg hle]
    exact ⟨false, rfl, by simp [hle]⟩

theorem matchesName_eq (h : slot.Inside a.directoryMap) (handle : IterationHandle) :
    ∃ found, a.matchesName handle slot = .ok found ∧
      (found = true ↔ handle.namePrefix <+: slot.bytes a.directoryMap ∧
        handle.nameSuffix <:+ slot.bytes a.directoryMap) := by
  have hlen := h.length
  have hfirst : handle.namePrefix <+: slot.bytes a.directoryMap ↔
      handle.namePrefix.length ≤ slot.nameLength ∧
        ((slot.bytes a.directoryMap).drop 0).take handle.namePrefix.length = handle.namePrefix := by
    constructor
    · intro hp
      exact ⟨hlen ▸ hp.length_le, (prefix_iff_eq_take.1 hp).symm⟩
    · rintro ⟨-, hp⟩
      exact prefix_iff_eq_take.2 hp.symm
  have hlast : handle.nameSuffix <:+ slot.bytes a.directoryMap ↔
      handle.nameSuffix.length ≤ slot.nameLength ∧
        ((slot.bytes a.directoryMap).drop (slot.nameLength - handle.nameSuffix.length)).take
          handle.nameSuffix.length = handle.nameSuffix := by
    constructor
    · intro hs
      have hle := hlen ▸ hs.length_le
      refine ⟨hle, ?_⟩
      rw [← hlen, ← suffix_iff_eq_drop.1 hs, take_length]
    · rintro ⟨hle, hs⟩
      rw [take_of_length_le (by rw [length_drop]; omega), ← hlen] at hs
      exact suffix_iff_eq_drop.2 hs.symm
  unfold matchesName
  obtain ⟨found1, hrun1, hfound1⟩ := comparePart_eq h handle.namePrefix
    (fun hle => show 0 + handle.namePrefix.length ≤ slot.nameLength by omega)
  obtain ⟨found2, hrun2, hfound2⟩ := comparePart_eq h handle.nameSuffix
    (fun hle => show slot.nameLength - handle.nameSuffix.length + handle.nameSuffix.length ≤
      slot.nameLength by omega)
  rw [hrun1, hfirst, hlast, ← hfound1, ← hfound2]
  cases found1 with
  | false => exact ⟨false, rfl, by simp⟩
  | true => exact ⟨found2, hrun2, by simp⟩

/-- What a loop from slot `i` on finds: the first slot with the property, if there is one. -/
def FindsNext (a : ZipArchive) (P : Nat → Prop) (i : Nat)
    (run : Run (Option (Nat × ZipEntryName))) : Prop :=
  (run = .ok none ∧ ∀ j, i ≤ j → ¬P j) ∨
  ∃ j slot, run = .ok (some (j, slot)) ∧ i ≤ j ∧ a.hashTable[j]? = some (some slot) ∧ P j ∧
    ∀ l, i ≤ l → l < j → ¬P l

/-- The loop of `Next` finds the first selected slot. -/
theorem nextLoop_spec (hslots : SlotsOk a) (handle : IterationHandle) {i : Nat}
    (hn : i + n = a.hashTable.length) :
    FindsNext a (Selected a handle.namePrefix handle.nameSuffix) i (a.nextLoop handle n i) := by
  set P := Selected a handle.namePrefix handle.nameSuffix
  induction n generalizing i with
  | zero =>
    refine .inl ⟨rfl, ?_⟩
    rintro j hj ⟨slot, hslot, -⟩
    have := (List.getElem?_eq_some_iff.1 hslot).1
    omega
  | succ n ih =>
    obtain ⟨slot?, hslot⟩ : ∃ slot?, a.hashTable[i]? = some slot? :=
      ⟨_, getElem?_eq_getElem (by omega)⟩
    -- what follows a slot that is not selected
    have hskip (hnot : ¬P i) : FindsNext a P i (a.nextLoop handle n (i + 1)) := by
      have hfrom : ∀ {l}, i ≤ l → (i + 1 ≤ l → ¬P l) → ¬P l := by
        intro l hl hlater
        obtain rfl | hl' := eq_or_lt_of_le hl
        · exact hnot
        · exact hlater hl'
      obtain ⟨hrun, hnone⟩ | ⟨j, slot, hrun, hij, hj, hsel, hbefore⟩ :=
        ih (show i + 1 + n = a.hashTable.length by omega)
      · exact .inl ⟨hrun, fun j hj => hfrom hj (hnone j)⟩
      · exact .inr ⟨j, slot, hrun, by omega, hj, hsel,
          fun l hl hlj => hfrom hl fun hl' => hbefore l hl' hlj⟩
    unfold nextLoop
    rw [hslot]
    cases slot? with
    | none =>
      apply hskip
      rintro ⟨slot, hslot', -⟩
      rw [hslot] at hslot'
      cases hslot'
    | some slot =>
      obtain ⟨found, hmatch, hfound⟩ := matchesName_eq (hslots i slot hslot).1 handle
      show FindsNext a P i (a.matchesName handle slot >>= _)
      rw [hmatch]
      have hsel : P i ↔ found = true := by
        rw [hfound]
        constructor
        · rintro ⟨slot', hslot', hboth⟩
          rw [hslot] at hslot'
          cases hslot'
          exact hboth
        · exact fun hboth => ⟨slot, hslot, hboth⟩
      cases found with
      | false => exact hskip (by rw [hsel]; simp)
      | true => exact .inr ⟨i, slot, rfl, le_rfl, hslot, hsel.2 rfl, by omega⟩

theorem next_spec (hslots : SlotsOk a) (hpos : handle.position ≤ a.hashTable.length) :
    (a.next handle = .ok ({ handle with position := 0 }, .error .iterationEnd) ∧
      ∀ j, handle.position ≤ j → ¬Selected a handle.namePrefix handle.nameSuffix j) ∨
    ∃ j result, a.next handle = .ok ({ handle with position := j + 1 }, result) ∧
      ended result = false ∧ Visit a (j, result) ∧ handle.position ≤ j ∧
      Selected a handle.namePrefix handle.nameSuffix j ∧
      ∀ l, handle.position ≤ l → l < j → ¬Selected a handle.namePrefix handle.nameSuffix l := by
  unfold next
  obtain ⟨hrun, hnone⟩ | ⟨j, slot, hrun, hle, hslot, hsel, hbefore⟩ := nextLoop_spec hslots handle
    (show handle.position + (a.hashTable.length - handle.position) = _ by omega)
  · rw [hrun]
    exact .inl ⟨rfl, hnone⟩
  · rw [hrun, ok_bind]
    obtain ⟨hinside, hname⟩ := hslots j slot hslot
    have hanswers := findEntryAt_answers hslot hinside hname
    right
    dsimp only
    cases hfind : a.findEntryAt j with
    | ok data =>
      exact ⟨j, .ok (data, slot), rfl, rfl, ⟨slot, .ok data, hslot, by rw [hfind]; rfl, rfl⟩, hle,
        hsel, hbefore⟩
    | error stop =>
      obtain ⟨e, rfl, hcode⟩ := hanswers stop hfind
      exact ⟨j, .error e, rfl, decide_eq_false hcode,
        ⟨slot, .error e, hslot, by rw [hfind]; rfl, rfl⟩, hle, hsel, hbefore⟩

theorem iterate_spec (hslots : SlotsOk a) (hpos : handle.position ≤ a.hashTable.length)
    (hn : a.hashTable.length < handle.position + n) :
    ∃ visits, a.iterate n handle = .ok visits ∧ (visits.map Prod.fst).Pairwise (· < ·) ∧
      (∀ i, i ∈ visits.map Prod.fst ↔
        handle.position ≤ i ∧ Selected a handle.namePrefix handle.nameSuffix i) ∧
      ∀ v ∈ visits, Visit a v := by
  induction n generalizing handle with
  | zero => omega
  | succ n ih =>
    unfold iterate
    obtain ⟨hrun, hnone⟩ | ⟨j, result, hrun, hend, hvisit, hle, hsel, hbefore⟩ :=
      next_spec hslots hpos
    · rw [hrun]
      refine ⟨[], rfl, List.Pairwise.nil, ?_, by simp⟩
      intro i
      constructor
      · intro hi
        cases hi
      · rintro ⟨hi, hsel⟩
        exact absurd hsel (hnone i hi)
    · have hj : j < a.hashTable.length := by
        obtain ⟨slot, hslot, -⟩ := hsel
        exact (List.getElem?_eq_some_iff.1 hslot).1
      obtain ⟨visits, hvisits, hsorted, hmem, hall⟩ := ih
        (show ({ handle with position := j + 1 } : IterationHandle).position ≤ _ from hj)
        (show a.hashTable.length < j + 1 + n by omega)
      refine ⟨(j, result) :: visits, ?_, ?_, ?_, ?_⟩
      · rw [hrun]
        show (if ended result = true then _ else _) = _
        rw [if_neg (by rw [hend]; simp), hvisits]
        rfl
      · rw [map_cons, pairwise_cons]
        exact ⟨fun i hi => ((hmem i).1 hi).1, hsorted⟩
      · intro i
        rw [map_cons, mem_cons, hmem]
        constructor
        · rintro (rfl | ⟨hi, hsel'⟩)
          · exact ⟨hle, hsel⟩
          · exact ⟨by dsimp only at hi; omega, hsel'⟩
        · rintro ⟨hi, hsel'⟩
          obtain hlt | rfl | hgt := lt_trichotomy i j
          · exact absurd hsel' (hbefore i hi hlt)
          · exact .inl rfl
          · exact .inr ⟨hgt, hsel'⟩
      · intro v hv
        obtain rfl | hv := mem_cons.1 hv
        · exact hvisit
        · exact hall v hv

end Next

end ZipArchive

/-! ## The table as a map -/

/-- The names of the records of a directory. -/
def Directory.names (d : Directory) : List (List UInt8) :=
  (List.range d.numEntries).map fun j => (recordName d.directoryMap j).bytes d.directoryMap

/-- The table of an archive stands for the set of the names of its records. -/
structure EntryMap (a : ZipArchive) : Prop where
  /-- Two records never share a name. -/
  distinct : a.names.Nodup
  /-- `EntryToIndex` finds the names of records. -/
  find : ∀ name ∈ a.names, ∃ ent slot, entryToIndex a.directoryMap a.hashTable name = .ok ent ∧
    a.hashTable[ent]? = some (some slot) ∧ slot.bytes a.directoryMap = name
  /-- It finds no others. -/
  missing : ∀ name ∉ a.names,
    entryToIndex a.directoryMap a.hashTable name = fail .entryNotFound
  /-- `AddToHash` comes to an end, whatever is added to the table. -/
  add : ∀ slot : ZipEntryName, slot.Inside a.directoryMap →
    addToHash a.directoryMap a.hashTable slot = fail .duplicateEntry ∨
      ∃ hashTable, addToHash a.directoryMap a.hashTable slot = .ok hashTable
  /-- An iteration visits the selected slots, each once. -/
  iterate : ∀ namePrefix nameSuffix, ∃ visits,
    a.iterate (a.hashTable.length + 1) (ZipArchive.startIteration namePrefix nameSuffix) = .ok visits ∧
      (visits.map Prod.fst).Pairwise (· < ·) ∧
      (∀ i, i ∈ visits.map Prod.fst ↔ a.Selected namePrefix nameSuffix i) ∧
      ∀ v ∈ visits, a.Visit v

theorem parseZipArchive_ok {hashTable : HashTable} (hn : d.numEntries < 2 ^ 16)
    (h : parseZipArchive d = .ok hashTable) :
    Table d.directoryMap hashTable ((range d.numEntries).map (recordName d.directoryMap)) ∧
      d.numEntries < hashTable.length := by
  obtain ⟨s, hrun, hs⟩ := bind_eq_ok.1 h
  cases hs
  obtain ⟨-, hparsed, hroom⟩ := parseLoop_ok hn le_rfl hrun
  exact ⟨hparsed.table, hroom⟩

theorem parseZipArchive_ends (hn : d.numEntries < 2 ^ 16) :
    parseZipArchive d ≠ .error .endless := by
  obtain ⟨hstart, hroom⟩ := parsed_start hn
  have hparse : parseZipArchive d =
      (parseLoop d d.numEntries (.start d) >>= fun s => .ok s.hashTable) := rfl
  rw [hparse]
  obtain ⟨-, s', hrun, -⟩ | ⟨i, -, -, -, -, ⟨-, e, hrun⟩ | ⟨-, hrun⟩⟩ :=
    parseLoop_cases hstart (show 0 + d.numEntries ≤ _ by omega)
  all_goals
    rw [hrun]
    intro h
    cases h

theorem slotsOk_of_table {a : ZipArchive} (h : Table a.directoryMap a.hashTable
    ((range a.numEntries).map (recordName a.directoryMap))) : a.SlotsOk := by
  intro i slot hslot
  have hmem := (h.slots slot).1 (mem_of_getElem? hslot)
  refine ⟨h.inside slot hmem, ?_⟩
  obtain ⟨j, -, rfl⟩ := mem_map.1 hmem
  exact Nat.le_add_left _ _

/-- Parsing comes to an end for every directory, and the table of a directory that is accepted is a
map. -/
theorem entryTable_refines (a : ZipArchive) (hn : a.numEntries < 2 ^ 16) :
    parseZipArchive a.toDirectory ≠ .error .endless ∧
      (parseZipArchive a.toDirectory = .ok a.hashTable → EntryMap a) := by
  refine ⟨parseZipArchive_ends hn, fun hparse => ?_⟩
  obtain ⟨htable, hroom⟩ := parseZipArchive_ok hn hparse
  have hroom' : ((range a.numEntries).map (recordName a.directoryMap)).length <
      a.hashTable.length := by
    rwa [length_map, length_range]
  have hnames : a.names = ((range a.numEntries).map (recordName a.directoryMap)).map
      (ZipEntryName.bytes a.directoryMap) := by
    rw [map_map]
    rfl
  refine ⟨hnames ▸ htable.distinct, ?_, ?_, ?_, ?_⟩
  · intro name hname
    rw [hnames] at hname
    unfold entryToIndex
    obtain ⟨i, slot, hrun, hslot, -, hbytes⟩ | ⟨k, -, -, -, hnot⟩ := htable.search hroom' name
    · exact ⟨i, slot, by rw [hrun]; rfl, hslot, hbytes⟩
    · exact absurd hname hnot
  · intro name hname
    rw [hnames] at hname
    unfold entryToIndex
    obtain ⟨i, slot, -, -, hmem, hbytes⟩ | ⟨k, hrun, -⟩ := htable.search hroom' name
    · exact absurd (mem_map.2 ⟨slot, hmem, hbytes⟩) hname
    · rw [hrun]
      rfl
  · intro slot hslot
    obtain ⟨-, hrun⟩ | ⟨-, hashTable, hrun, -⟩ := htable.add hroom' hslot
    · exact .inl hrun
    · exact .inr ⟨hashTable, hrun⟩
  · intro namePrefix nameSuffix
    obtain ⟨visits, hrun, hsorted, hmem, hall⟩ := ZipArchive.iterate_spec
      (slotsOk_of_table htable)
      (show (ZipArchive.startIteration namePrefix nameSuffix).position ≤ a.hashTable.length from
        Nat.zero_le _)
      (show a.hashTable.length < 0 + (a.hashTable.length + 1) by omega)
    refine ⟨visits, hrun, hsorted, fun i => ?_, hall⟩
    rw [hmem]
    exact ⟨And.right, fun h => ⟨Nat.zero_le _, h⟩⟩

/-- The hashes of both names lead to slot 1. -/
def twoArchive : ZipArchive where
  numEntries := 2
  directoryOffset := 1
  directoryMap := twoRecords
  file := twoRecordsFile
  hashTable := [none, some ⟨46, 1⟩, some ⟨93, 1⟩, none]

theorem twoArchive_map : parseZipArchive twoArchive.toDirectory = .ok twoArchive.hashTable ∧
    EntryMap twoArchive :=
  ⟨rfl, (entryTable_refines twoArchive (by decide)).2 rfl⟩

end AndroidSystem.Zip
