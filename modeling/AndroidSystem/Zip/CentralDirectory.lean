import AndroidSystem.Zip.EntryTable

/-!
# The central directory

`MapCentralDirectory` finds the last end record of the file (`EocdFound`) and compares the end of the
directory with its offset, in 32 bits. So the directory is before the end record exactly if the sum
of its offset and size does not overflow (`mapCentralDirectory_ok`).

`ParseZipArchive` goes through the records of the directory. Where they begin and what is required of
them is described without it (`recordStart`, `RecordOk`), and what one pass of its loop does is
`parseRecord_cases`: it accepts the good records and rejects the others, but it looks at the signature
before it knows that there is one, and at the name before it knows where the name ends (`Readable`).
-/

namespace AndroidSystem.Zip

open List Option Region

variable {n offset : Nat} {d : Directory}

/-! ## The end record -/

/-- The last end record of a file. -/
structure EocdFound (file : Region) (offset : Nat) (eocd : EocdRecord) : Prop where
  signature : file.readWord offset 4 = some eocdSignature
  fields : EocdRecord.read file offset = .ok eocd
  bound : offset + sizeofEocdRecord ≤ file.size
  last : ∀ i, offset < i → i + sizeofEocdRecord ≤ file.size →
    file.readWord i 4 ≠ some eocdSignature

section Eocd

variable {file buffer : Region} {create : Nat → Nat → Option Region}

/-- The scan finds the last signature before `n`. -/
theorem scanLoop_spec (hn : n + 3 ≤ buffer.size) :
    (scanLoop buffer n = .ok none ∧ ∀ i < n, buffer.readWord i 4 ≠ some eocdSignature) ∨
    ∃ i < n, scanLoop buffer n = .ok (some i) ∧ buffer.readWord i 4 = some eocdSignature ∧
      ∀ j, i < j → j < n → buffer.readWord j 4 ≠ some eocdSignature := by
  induction n with
  | zero => exact .inl ⟨rfl, by simp⟩
  | succ n ih =>
    obtain ⟨word, hword⟩ := isSome_iff_exists.1
      (readWord_isSome.2 (show n + 4 ≤ buffer.size by omega))
    have hbyte := readWord_low hword
    by_cases hsig : word = eocdSignature
    · refine .inr ⟨n, by omega, ?_, hsig ▸ hword, by omega⟩
      unfold scanLoop
      rw [hbyte, hword, hsig]
      rfl
    · have hnot : buffer.readWord n 4 ≠ some eocdSignature := by
        rw [hword, ne_eq, some_inj]
        exact hsig
      have hrun : scanLoop buffer (n + 1) = scanLoop buffer n := by
        rw [scanLoop, hbyte, hword]
        show (if word % 256 = 0x50 then if word = eocdSignature then _ else _ else _) = _
        rw [if_neg hsig, ite_self]
      rw [hrun]
      obtain ⟨hnone, hall⟩ | ⟨i, hi, hsome, hfound, hlast⟩ := ih (by omega)
      · refine .inl ⟨hnone, fun i hi => ?_⟩
        obtain rfl | hi' := Nat.lt_succ_iff_lt_or_eq.1 hi |>.symm
        · exact hnot
        · exact hall i hi'
      · refine .inr ⟨i, by omega, hsome, hfound, fun j hij hj => ?_⟩
        obtain rfl | hj' := Nat.lt_succ_iff_lt_or_eq.1 hj |>.symm
        · exact hnot
        · exact hlast j hij hj'

theorem eocd_read_eq {i : Nat} (h : file.read offset n = some buffer)
    (hi : i + sizeofEocdRecord ≤ n) :
    EocdRecord.read buffer i = EocdRecord.read file (offset + i) := by
  unfold sizeofEocdRecord at hi
  unfold EocdRecord.read
  simp only [readWord_read h (show i + 10 + 2 ≤ n by omega),
    readWord_read h (show i + 12 + 4 ≤ n by omega), readWord_read h (show i + 16 + 4 ≤ n by omega),
    readWord_read h (show i + 20 + 2 ≤ n by omega), add_assoc]

/-- What the checks of `MapCentralDirectory` say about the end record. -/
structure Mapped (create : Nat → Nat → Option Region) (file : Region) (d : Directory) (offset : Nat)
    (eocd : EocdRecord) : Prop where
  found : EocdFound file offset eocd
  length : file.size < 2 ^ 32
  trailing : offset + sizeofEocdRecord + eocd.commentLength = file.size
  bound : u32 (eocd.cdStartOffset + eocd.cdSize) ≤ offset
  numEntries : d.numEntries = eocd.numRecords
  directoryOffset : d.directoryOffset = eocd.cdStartOffset
  directoryMap : create eocd.cdStartOffset eocd.cdSize = some d.directoryMap

theorem mapCentralDirectory_ok (h : mapCentralDirectory create file = .ok d) :
    ∃ offset eocd, Mapped create file d offset eocd := by
  unfold mapCentralDirectory at h
  split_ifs at h with hlong hshort
  · cases h
  · cases h
  generalize hamount : min maxEOCDSearch file.size = amount at h
  unfold sizeofEocdRecord at hshort
  have hmin : 22 ≤ amount := by
    rw [← hamount]
    exact le_min (by decide) (by omega)
  obtain ⟨buffer, hbuffer⟩ := isSome_iff_exists.1
    (read_isSome.2 (show file.size - amount + amount ≤ file.size by omega))
  obtain ⟨-, hsize, -⟩ := read_size hbuffer
  have hfully : readFully file (file.size - amount) amount = .ok buffer := by
    unfold readFully
    rw [hbuffer]
  unfold mapCentralDirectory0 at h
  dsimp only at h
  rw [hfully, ok_bind] at h
  unfold sizeofEocdRecord at h
  obtain ⟨hnone, -⟩ | ⟨i, hi, hsome, hfound, hlast⟩ :=
    scanLoop_spec (show amount - 22 + 1 + 3 ≤ buffer.size by omega)
  · rw [hnone] at h
    cases h
  · rw [hsome, ok_bind] at h
    dsimp only at h
    rw [eocd_read_eq hbuffer (by unfold sizeofEocdRecord; omega)] at h
    obtain ⟨eocd, hfields, h⟩ := bind_eq_ok.1 h
    split_ifs at h with htrailing hbound hempty
    · cases h
    · cases h
    · cases h
    cases hmap : create eocd.cdStartOffset eocd.cdSize with
    | none =>
      rw [hmap] at h
      cases h
    | some map =>
      rw [hmap] at h
      cases h
      refine ⟨file.size - amount + i, eocd, ⟨?_, hfields, ?_, ?_⟩, by omega,
        not_not.1 htrailing, not_lt.1 hbound, rfl, rfl, hmap⟩
      · rw [← readWord_read hbuffer (by omega)]
        exact hfound
      · unfold sizeofEocdRecord
        omega
      · intro j hj hj'
        unfold sizeofEocdRecord at hj'
        have := hlast (j - (file.size - amount)) (by omega) (by omega)
        rw [readWord_read hbuffer (by omega)] at this
        rwa [show file.size - amount + (j - (file.size - amount)) = j by omega] at this

/-- The directory ends before the end record exactly if its end is not above 32 bits. -/
theorem Mapped.before_iff {eocd : EocdRecord} (h : Mapped create file d offset eocd) :
    eocd.cdStartOffset + eocd.cdSize ≤ offset ↔ eocd.cdStartOffset + eocd.cdSize < 2 ^ 32 := by
  have hlength := h.length
  have hoffset := h.found.bound
  constructor
  · omega
  · intro hlt
    have hbound := h.bound
    rwa [u32_of_lt hlt] at hbound

end Eocd

/-! ## Records -/

/-- A number in the directory. -/
def word (cd : Region) (offset n : Nat) : Nat := (cd.readWord offset n).getD 0

def lengthsAt (cd : Region) (ptr : Nat) : RecordLengths where
  fileName := word cd (ptr + 28) 2
  extraField := word cd (ptr + 30) 2
  comment := word cd (ptr + 32) 2

/-- Where a record begins. -/
def recordStart (cd : Region) : Nat → Nat
  | 0 => 0
  | j + 1 => recordStart cd j + (lengthsAt cd (recordStart cd j)).total

/-- The name of a record. -/
def recordName (cd : Region) (j : Nat) : ZipEntryName where
  name := recordStart cd j + sizeofCentralDirectoryRecord
  nameLength := (lengthsAt cd (recordStart cd j)).fileName

/-- A record that is accepted. -/
structure RecordOk (d : Directory) (j : Nat) : Prop where
  signature : d.directoryMap.readWord (recordStart d.directoryMap j) 4 =
    some centralDirectorySignature
  localHeader : word d.directoryMap (recordStart d.directoryMap j + 42) 4 < d.directoryOffset
  name : ValidName ((recordName d.directoryMap j).bytes d.directoryMap)
  inside : recordStart d.directoryMap (j + 1) ≤ d.directoryMap.size
  fresh : ∀ i < j, (recordName d.directoryMap i).bytes d.directoryMap ≠
    (recordName d.directoryMap j).bytes d.directoryMap

/-- A record that can be checked without leaving the directory: there is room for a signature, and if
nothing is wrong before the name, then the name is in the directory, or something is wrong with the
part of it that is. -/
structure Readable (d : Directory) (j : Nat) : Prop where
  signature : recordStart d.directoryMap j + 4 ≤ d.directoryMap.size
  name : d.directoryMap.readWord (recordStart d.directoryMap j) 4 =
      some centralDirectorySignature →
    recordStart d.directoryMap j + sizeofCentralDirectoryRecord ≤ d.directoryMap.size →
    word d.directoryMap (recordStart d.directoryMap j + 42) 4 < d.directoryOffset →
    (recordName d.directoryMap j).Inside d.directoryMap ∨
      nameState 0 ((recordName d.directoryMap j).bytes d.directoryMap) = none

section Records

variable {d : Directory} {j : Nat} {s : ParseState} {cd : Region}

theorem need_word (h : offset + n ≤ cd.size) :
    need (cd.readWord offset n) = .ok (word cd offset n) := by
  obtain ⟨w, hw⟩ := isSome_iff_exists.1 (readWord_isSome.2 h)
  unfold word
  rw [hw]
  rfl

theorem lengths_read {ptr : Nat} (h : ptr + sizeofCentralDirectoryRecord ≤ cd.size) :
    RecordLengths.read cd ptr = .ok (lengthsAt cd ptr) := by
  unfold sizeofCentralDirectoryRecord at h
  unfold RecordLengths.read
  rw [need_word (by omega), need_word (by omega), need_word (by omega)]
  rfl

theorem recordName_inside (h : recordStart cd (j + 1) ≤ cd.size) : (recordName cd j).Inside cd := by
  unfold recordStart RecordLengths.total at h
  unfold ZipEntryName.Inside recordName
  dsimp only
  omega

theorem length_name_lt (h : ¬(recordName cd j).Inside cd)
    (hfixed : recordStart cd j + sizeofCentralDirectoryRecord ≤ cd.size) :
    ((recordName cd j).bytes cd).length < (recordName cd j).nameLength := by
  unfold ZipEntryName.Inside size at h
  unfold size at hfixed
  unfold ZipEntryName.bytes
  rw [length_take, length_drop]
  have : (recordName cd j).name = recordStart cd j + sizeofCentralDirectoryRecord := rfl
  omega

/-- The state before record `j`. -/
structure Parsed (d : Directory) (j : Nat) (s : ParseState) : Prop where
  ptr : s.ptr = recordStart d.directoryMap j
  table : Table d.directoryMap s.hashTable ((List.range j).map (recordName d.directoryMap))

/-- Nothing is wrong with a record before its name. -/
structure FixedOk (d : Directory) (j : Nat) : Prop where
  four : recordStart d.directoryMap j + 4 ≤ d.directoryMap.size
  signature : d.directoryMap.readWord (recordStart d.directoryMap j) 4 =
    some centralDirectorySignature
  fixed : recordStart d.directoryMap j + sizeofCentralDirectoryRecord ≤ d.directoryMap.size
  localHeader : word d.directoryMap (recordStart d.directoryMap j + 42) 4 < d.directoryOffset

/-- The three ways in which a pass of the loop ends. -/
def Passes (d : Directory) (j : Nat) (s : ParseState) (run : Run ParseState) : Prop :=
  (¬Readable d j ∧ run = .error .outside) ∨
  (Readable d j ∧ ¬RecordOk d j ∧ ∃ e, run = fail e) ∨
  (Readable d j ∧ RecordOk d j ∧ ∃ s', run = .ok s' ∧ Parsed d (j + 1) s' ∧
    s'.hashTable.length = s.hashTable.length)

/-- The end of a pass: adding the name, and the advance to the next record. -/
def addName (d : Directory) (j : Nat) (hashTable : HashTable) : Run ParseState := do
  let hashTable ← addToHash d.directoryMap hashTable (recordName d.directoryMap j)
  if recordStart d.directoryMap (j + 1) > d.directoryMap.size then fail .unnamed
  else .ok ⟨recordStart d.directoryMap (j + 1), hashTable⟩

section

variable (h : Parsed d j s) (hroom : j < s.hashTable.length)
include h hroom

theorem addName_cases (hfixed : FixedOk d j)
    (hinside : (recordName d.directoryMap j).Inside d.directoryMap)
    (hvalid : ValidName ((recordName d.directoryMap j).bytes d.directoryMap)) :
    Passes d j s (addName d j s.hashTable) := by
  have hreadable : Readable d j := ⟨hfixed.four, fun _ _ _ => .inl hinside⟩
  have hadd := h.table.add (by rwa [length_map, length_range]) hinside
  have hmem : (recordName d.directoryMap j).bytes d.directoryMap ∈ map (ZipEntryName.bytes
      d.directoryMap) ((range j).map (recordName d.directoryMap)) ↔ ∃ i < j,
      (recordName d.directoryMap i).bytes d.directoryMap =
        (recordName d.directoryMap j).bytes d.directoryMap := by
    simp
  rw [hmem] at hadd
  rw [addName]
  obtain ⟨⟨i, hi, heq⟩, hdup⟩ | ⟨hnew, T', hset, hlen, htable⟩ := hadd
  · rw [hdup]
    exact .inr (.inl ⟨hreadable, fun hok => hok.fresh i hi heq, _, rfl⟩)
  · rw [hset, ok_bind]
    by_cases hend : recordStart d.directoryMap (j + 1) ≤ d.directoryMap.size
    · rw [if_neg (not_lt.2 hend)]
      refine .inr (.inr ⟨hreadable, ⟨hfixed.signature, hfixed.localHeader, hvalid, hend, ?_⟩,
        _, rfl, ⟨rfl, ?_⟩, hlen⟩)
      · intro i hi heq
        exact hnew ⟨i, hi, heq⟩
      · rw [range_succ, map_append]
        exact htable
    · rw [if_pos (not_le.1 hend)]
      exact .inr (.inl ⟨hreadable, fun hok => hend hok.inside, _, rfl⟩)

theorem parseName_cases (hfixed : FixedOk d j) :
    Passes d j s (isValidEntryName d.directoryMap (recordName d.directoryMap j).name
      (recordName d.directoryMap j).nameLength >>= fun valid =>
        if valid then addName d j s.hashTable else fail .unnamed) := by
  rw [isValidEntryName_eq]
  change Passes d j s (verdict 0 ((recordName d.directoryMap j).bytes d.directoryMap) _ >>= _)
  unfold verdict
  cases hstate : nameState 0 ((recordName d.directoryMap j).bytes d.directoryMap) with
  | none =>
    refine .inr (.inl ⟨⟨hfixed.four, fun _ _ _ => .inr hstate⟩, fun hok => ?_, _, rfl⟩)
    obtain ⟨p, hp, -⟩ := hok.name
    rw [hstate] at hp
    cases hp
  | some pending =>
    dsimp only
    by_cases hinside : (recordName d.directoryMap j).Inside d.directoryMap
    · rw [if_neg (by rw [hinside.length]; exact lt_irrefl _), ok_bind]
      by_cases hpending : pending &&& 0x80 = 0
      · rw [if_pos (decide_eq_true hpending)]
        exact addName_cases h hroom hfixed hinside ⟨pending, hstate, hpending⟩
      · rw [if_neg (by simpa using hpending)]
        refine .inr (.inl ⟨⟨hfixed.four, fun _ _ _ => .inl hinside⟩, fun hok => ?_, _, rfl⟩)
        obtain ⟨p, hp, htop⟩ := hok.name
        rw [hstate, some_inj] at hp
        exact hpending (hp ▸ htop)
    · rw [if_pos (length_name_lt hinside hfixed.fixed)]
      refine .inl ⟨fun hr => ?_, rfl⟩
      obtain hin | hnone := hr.name hfixed.signature hfixed.fixed hfixed.localHeader
      · exact hinside hin
      · rw [hstate] at hnone
        cases hnone

theorem parseRecord_cases : Passes d j s (parseRecord d s) := by
  generalize hrun : parseRecord d s = run
  unfold parseRecord at hrun
  dsimp only at hrun
  rw [h.ptr] at hrun
  -- the signature
  by_cases hfour : recordStart d.directoryMap j + 4 ≤ d.directoryMap.size
  case neg =>
    refine .inl ⟨fun hr => hfour hr.signature, hrun.symm.trans ?_⟩
    have hread : d.directoryMap.readWord (recordStart d.directoryMap j) 4 = none := by
      rw [← not_isSome_iff_eq_none, readWord_isSome]
      exact hfour
    rw [hread]
    rfl
  obtain ⟨signature, hread⟩ := isSome_iff_exists.1 (readWord_isSome.2 hfour)
  rw [hread, need, ok_bind] at hrun
  by_cases hsig : signature = centralDirectorySignature
  case neg =>
    rw [if_pos hsig] at hrun
    refine .inr (.inl ⟨⟨hfour, fun hs => ?_⟩, fun hok => ?_, _, hrun.symm⟩)
    · rw [hread, some_inj] at hs
      exact absurd hs hsig
    · have hs := hok.signature
      rw [hread, some_inj] at hs
      exact hsig hs
  subst hsig
  -- the fixed part
  by_cases hfixed : recordStart d.directoryMap j + sizeofCentralDirectoryRecord ≤
      d.directoryMap.size
  case neg =>
    rw [if_pos (not_le.1 hfixed)] at hrun
    refine .inr (.inl ⟨⟨hfour, fun _ hf => absurd hf hfixed⟩, fun hok => ?_, _, hrun.symm⟩)
    have := hok.inside
    unfold recordStart RecordLengths.total at this
    omega
  rw [if_neg (not_lt.2 hfixed), need_word (by unfold sizeofCentralDirectoryRecord at hfixed; omega),
    ok_bind] at hrun
  by_cases hlocal : word d.directoryMap (recordStart d.directoryMap j + 42) 4 < d.directoryOffset
  case neg =>
    rw [if_pos (not_lt.1 hlocal)] at hrun
    exact .inr (.inl ⟨⟨hfour, fun _ _ hl => absurd hl hlocal⟩, fun hok => hlocal hok.localHeader, _,
      hrun.symm⟩)
  rw [if_neg (not_le.2 hlocal), lengths_read hfixed] at hrun
  rw [← hrun]
  exact parseName_cases h hroom ⟨hfour, hread, hfixed, hlocal⟩

end

theorem RecordOk.readable (h : RecordOk d j) : Readable d j := by
  have hinside := h.inside
  unfold recordStart RecordLengths.total sizeofCentralDirectoryRecord at hinside
  exact ⟨by omega, fun _ _ _ => .inl (recordName_inside h.inside)⟩

/-- What the loop does: it goes to the end, or to the first record that is not accepted. -/
theorem parseLoop_cases (h : Parsed d j s) (hroom : j + n ≤ s.hashTable.length) :
    ((∀ i, j ≤ i → i < j + n → RecordOk d i) ∧
      ∃ s', parseLoop d n s = .ok s' ∧ Parsed d (j + n) s' ∧
        s'.hashTable.length = s.hashTable.length) ∨
    ∃ i, j ≤ i ∧ i < j + n ∧ (∀ l, j ≤ l → l < i → RecordOk d l) ∧ ¬RecordOk d i ∧
      ((Readable d i ∧ ∃ e, parseLoop d n s = fail e) ∨
        (¬Readable d i ∧ parseLoop d n s = .error .outside)) := by
  induction n generalizing j s with
  | zero => exact .inl ⟨by omega, s, rfl, h, rfl⟩
  | succ n ih =>
    unfold parseLoop
    obtain ⟨hnot, hrun⟩ | ⟨hr, hnot, e, hrun⟩ | ⟨-, hok, s', hrun, hnext, hlen⟩ :=
      parseRecord_cases h (by omega)
    · refine .inr ⟨j, le_rfl, by omega, by omega, fun hok => hnot hok.readable, .inr ⟨hnot, ?_⟩⟩
      rw [hrun]
      rfl
    · refine .inr ⟨j, le_rfl, by omega, by omega, hnot, .inl ⟨hr, e, ?_⟩⟩
      rw [hrun]
      rfl
    · rw [hrun]
      have hfrom : ∀ {i}, (∀ l, j + 1 ≤ l → l < i → RecordOk d l) →
          ∀ l, j ≤ l → l < i → RecordOk d l := by
        intro i hall l hl hli
        obtain rfl | hl' := eq_or_lt_of_le hl
        · exact hok
        · exact hall l hl' hli
      obtain ⟨hall, s1, hrun1, hparsed, hlen1⟩ | ⟨i, hi, hin, hall, hrest⟩ := ih hnext (by omega)
      · refine .inl ⟨hfrom fun l hl hln => hall l hl (by omega), s1, hrun1, ?_, hlen1.trans hlen⟩
        rwa [show j + (n + 1) = j + 1 + n by omega]
      · exact .inr ⟨i, by omega, by omega, hfrom hall, hrest⟩

/-- The state before the loop. -/
def ParseState.start (d : Directory) : ParseState := ⟨0, newHashTable d.numEntries⟩

section

variable (hn : d.numEntries < 2 ^ 16)
include hn

theorem parsed_start :
    Parsed d 0 (.start d) ∧ d.numEntries < (ParseState.start d).hashTable.length := by
  obtain ⟨k, hlen, hlt⟩ := length_newHashTable hn
  refine ⟨⟨rfl, ?_⟩, hlen ▸ hlt⟩
  have hk : roundUpPower2 (1 + d.numEntries * 4 / 3) = 2 ^ k := by
    unfold newHashTable at hlen
    rwa [length_replicate] at hlen
  exact Table.empty hk

section

variable (hle : n ≤ d.numEntries) (hrun : parseLoop d n (.start d) = .ok s)
include hle hrun

theorem parseLoop_ok :
    (∀ j < n, RecordOk d j) ∧ Parsed d n s ∧ d.numEntries < s.hashTable.length := by
  obtain ⟨hstart, hroom⟩ := parsed_start hn
  obtain ⟨hall, s', hrun', hparsed, hlen⟩ | ⟨i, -, -, -, -, ⟨-, e, hrun'⟩ | ⟨-, hrun'⟩⟩ :=
    parseLoop_cases hstart (show 0 + n ≤ _ by omega)
  all_goals
    rw [hrun] at hrun'
    cases hrun'
  rw [zero_add] at hparsed hall
  exact ⟨fun j => hall j (Nat.zero_le _), hparsed, hlen ▸ hroom⟩

/-- The records that are accepted are in the directory, whatever comes after them. -/
theorem accepted_inside :
    s.ptr = recordStart d.directoryMap n ∧ ∀ j < n, recordStart d.directoryMap j +
      (lengthsAt d.directoryMap (recordStart d.directoryMap j)).total ≤ d.directoryMap.size := by
  obtain ⟨hall, hparsed, -⟩ := parseLoop_ok hn hle hrun
  exact ⟨hparsed.ptr, fun j hj => (hall j hj).inside⟩

end

/-- Nothing outside the directory is read exactly if the first record that is not accepted can be
checked. -/
theorem parseZipArchive_inside_iff :
    parseZipArchive d ≠ .error .outside ↔
      ∀ j < d.numEntries, (∀ i < j, RecordOk d i) → Readable d j := by
  obtain ⟨hstart, hroom⟩ := parsed_start hn
  have hparse : parseZipArchive d =
      (parseLoop d d.numEntries (.start d) >>= fun s => .ok s.hashTable) := rfl
  rw [hparse]
  obtain ⟨hall, s', hrun, -⟩ | ⟨i, -, hi, hall, hnot, hrest⟩ :=
    parseLoop_cases hstart (show 0 + d.numEntries ≤ _ by omega)
  · rw [hrun]
    exact ⟨fun _ j hj _ => (hall j (Nat.zero_le _) (by omega)).readable, fun _ h => by cases h⟩
  · obtain ⟨hr, e, hrun⟩ | ⟨hr, hrun⟩ := hrest
    · rw [hrun]
      refine ⟨fun _ j hj hbefore => ?_, fun _ h => by cases h⟩
      obtain hlt | rfl | hgt := lt_trichotomy j i
      · exact (hall j (Nat.zero_le _) hlt).readable
      · exact hr
      · exact absurd (hbefore i hgt) hnot
    · rw [hrun]
      refine ⟨fun h => absurd rfl h, fun h => ?_⟩
      exact absurd (h i (by omega) fun l hl => hall l (Nat.zero_le _) hl) hr

end

end Records

/-! ## Bounds -/

/-- A mapped directory is before the end record if its end does not overflow, and parsing it stays
inside if every record that is looked at can be checked. What is accepted is inside in any case. -/
theorem centralDirectory_inBounds (create : Nat → Nat → Option Region) (file : Region)
    (d : Directory) (hn : d.numEntries < 2 ^ 16) :
    (mapCentralDirectory create file = .ok d →
      ∃ offset eocd, Mapped create file d offset eocd ∧
        (eocd.cdStartOffset + eocd.cdSize ≤ offset ↔
          eocd.cdStartOffset + eocd.cdSize < 2 ^ 32)) ∧
    (parseZipArchive d ≠ .error .outside ↔
      ∀ j < d.numEntries, (∀ i < j, RecordOk d i) → Readable d j) ∧
    ∀ n ≤ d.numEntries, ∀ s, parseLoop d n (.start d) = .ok s →
      s.ptr = recordStart d.directoryMap n ∧ ∀ j < n, recordStart d.directoryMap j +
        (lengthsAt d.directoryMap (recordStart d.directoryMap j)).total ≤ d.directoryMap.size := by
  refine ⟨fun hmap => ?_, parseZipArchive_inside_iff hn,
    fun n hle s hrun => accepted_inside hn hle hrun⟩
  obtain ⟨offset, eocd, hmapped⟩ := mapCentralDirectory_ok hmap
  exact ⟨offset, eocd, hmapped, hmapped.before_iff⟩

/-- The record of an entry whose name is one byte, up to the name. -/
def recordHeader : List UInt8 :=
  le 4 centralDirectorySignature ++ List.replicate 24 0 ++ le 2 1 ++ List.replicate 16 0

/-- A directory with two records, named `a` and `e`, and an end record after it. -/
def twoRecords : Region := ⟨recordHeader ++ [0x61] ++ (recordHeader ++ [0x65]), by decide⟩

def twoRecordsFile : Region :=
  ⟨[0] ++ twoRecords.bytes ++ (le 4 eocdSignature ++ List.replicate 4 0 ++ le 2 2 ++ le 2 2 ++
    le 4 94 ++ le 4 1 ++ le 2 0), by decide⟩

set_option maxRecDepth 2000 in
/-- It is mapped before its end record, and parsing it does not leave it. -/
theorem twoRecords_inBounds :
    mapCentralDirectory twoRecordsFile.read twoRecordsFile = .ok ⟨2, 1, twoRecords⟩ ∧
    (∃ offset eocd, EocdFound twoRecordsFile offset eocd ∧
      eocd.cdStartOffset + eocd.cdSize ≤ offset) ∧
    ∀ j < 2, (∀ i < j, RecordOk ⟨2, 1, twoRecords⟩ i) → Readable ⟨2, 1, twoRecords⟩ j := by
  have hmap : mapCentralDirectory twoRecordsFile.read twoRecordsFile = .ok ⟨2, 1, twoRecords⟩ := rfl
  obtain ⟨hbefore, hinside, -⟩ := centralDirectory_inBounds twoRecordsFile.read twoRecordsFile
    ⟨2, 1, twoRecords⟩ (by decide)
  obtain ⟨offset, eocd, hmapped, hiff⟩ := hbefore hmap
  refine ⟨hmap, ⟨offset, eocd, hmapped.found, hiff.2 ?_⟩, ?_⟩
  · have hmapped' := hmapped.directoryMap
    have hsize := (read_size hmapped').1
    have hfile : twoRecordsFile.size = 117 := rfl
    omega
  · refine hinside.1 ?_
    intro h
    cases h

/-- An end record, with a directory of one byte at the offset `0xffffffff`. -/
def wrappedEocd : Region :=
  ⟨le 4 eocdSignature ++ le 2 0 ++ le 2 0 ++ le 2 1 ++ le 2 1 ++ le 4 1 ++ le 4 0xffffffff ++ le 2 0,
    by decide⟩

def oneByte : Region := ⟨[0x50], by decide⟩

/-- A record with the first 46 bytes and nothing after them, although its name has one byte. -/
def truncatedRecord : Region := ⟨recordHeader, by decide⟩

/-- The file is accepted, although its directory is not before the end record. In both directories
parsing leaves the mapping: for the signature, and for the name. -/
theorem parse_leaves_directory :
    mapCentralDirectory (fun _ _ => some oneByte) wrappedEocd = .ok ⟨1, 0xffffffff, oneByte⟩ ∧
    EocdFound wrappedEocd 0 ⟨1, 1, 0xffffffff, 0⟩ ∧
    parseZipArchive ⟨1, 0xffffffff, oneByte⟩ = .error .outside ∧
    truncatedRecord.size = sizeofCentralDirectoryRecord ∧
    parseZipArchive ⟨1, 1, truncatedRecord⟩ = .error .outside := by
  refine ⟨rfl, ⟨rfl, rfl, by decide, ?_⟩, rfl, rfl, rfl⟩
  intro i hi hle
  have : wrappedEocd.size = 22 := rfl
  unfold sizeofEocdRecord at hle
  omega

end AndroidSystem.Zip
