import AndroidSystem.Lib.Machine
import AndroidSystem.Lib.Region

/-!
# `libziparchive`: opening an archive

The model of the part of `zip_archive.cc` that finds and parses the central directory, looks names up
in the table of entries and iterates over it.

Memory that is read is a `Region`: the scan buffer, the mapped central directory, a local file header.
A read that leaves its region ends in `Stop.outside`, and a search that goes round in the table in
`Stop.endless`; the functions of the source do not notice either. The archive file is a region as
well. Reads of the file give what the file holds; `FileMap::create` is a parameter.
-/

namespace AndroidSystem.Zip

/-! ## Results -/

inductive ZipError where
  | iterationEnd
  | zlibError
  | invalidFile
  | invalidHandle
  | duplicateEntry
  | emptyArchive
  | entryNotFound
  | invalidOffset
  | inconsistentInformation
  | invalidEntryName
  | ioError
  | mmapFailed
  /-- The `-1` of `ParseZipArchive` and `ExtractToWriter`, which has no name there. -/
  | unnamed
  deriving DecidableEq

def ZipError.code : ZipError → Int
  | .iterationEnd => -1
  | .zlibError => -2
  | .invalidFile => -3
  | .invalidHandle => -4
  | .duplicateEntry => -5
  | .emptyArchive => -6
  | .entryNotFound => -7
  | .invalidOffset => -8
  | .inconsistentInformation => -9
  | .invalidEntryName => -10
  | .ioError => -11
  | .mmapFailed => -12
  | .unnamed => -1

/-- How a function ends if it does not succeed. -/
inductive Stop where
  | error (e : ZipError)
  /-- A read outside an object. -/
  | outside
  /-- A loop without end. -/
  | endless
  deriving DecidableEq

abbrev Run := Except Stop

def fail {α : Type} (e : ZipError) : Run α := .error (.error e)

/-- A read that has to be in its region. -/
def need {α : Type} : Option α → Run α
  | some a => .ok a
  | none => .error .outside

/-- A read from a file, which may be too short. -/
def readFully (file : Region) (offset n : Nat) : Run Region :=
  match file.read offset n with
  | some b => .ok b
  | none => fail .ioError

/-! ## Records -/

def sizeofEocdRecord : Nat := 22

def sizeofCentralDirectoryRecord : Nat := 46

def sizeofLocalFileHeader : Nat := 30

def eocdSignature : Nat := 0x06054b50

def centralDirectorySignature : Nat := 0x02014b50

def localFileSignature : Nat := 0x04034b50

/-- The mask of the flag for a data descriptor. -/
def gpbDDFlagMask : Nat := 0x0008

def maxCommentLen : Nat := 65535

def maxEOCDSearch : Nat := maxCommentLen + sizeofEocdRecord

def compressStored : Nat := 0

def compressDeflated : Nat := 8

/-- The fields of an `EocdRecord` that are used. -/
structure EocdRecord where
  numRecords : Nat
  cdSize : Nat
  cdStartOffset : Nat
  commentLength : Nat
  deriving DecidableEq

/-- The record at an offset. -/
def EocdRecord.read (buffer : Region) (i : Nat) : Run EocdRecord := do
  let numRecords ← need (buffer.readWord (i + 10) 2)
  let cdSize ← need (buffer.readWord (i + 12) 4)
  let cdStartOffset ← need (buffer.readWord (i + 16) 4)
  let commentLength ← need (buffer.readWord (i + 20) 2)
  .ok { numRecords, cdSize, cdStartOffset, commentLength }

/-- The fields of a `CentralDirectoryRecord` that `ParseZipArchive` uses after the first checks. -/
structure RecordLengths where
  fileName : Nat
  extraField : Nat
  comment : Nat
  deriving DecidableEq

def RecordLengths.read (cd : Region) (ptr : Nat) : Run RecordLengths := do
  let fileName ← need (cd.readWord (ptr + 28) 2)
  let extraField ← need (cd.readWord (ptr + 30) 2)
  let comment ← need (cd.readWord (ptr + 32) 2)
  .ok { fileName, extraField, comment }

/-- The size of a record with all that belongs to it. -/
def RecordLengths.total (l : RecordLengths) : Nat :=
  sizeofCentralDirectoryRecord + l.fileName + l.extraField + l.comment

/-! ## Mapping the central directory -/

/-- The fields of a `ZipArchive` that `MapCentralDirectory` sets. -/
structure Directory where
  numEntries : Nat
  directoryOffset : Nat
  directoryMap : Region

/-- The backward scan for the signature, from before position `i`. -/
def scanLoop (buffer : Region) : Nat → Run (Option Nat)
  | 0 => .ok none
  | i + 1 => do
    let byte ← need (buffer.readWord i 1)
    if byte = 0x50 then do
      let signature ← need (buffer.readWord i 4)
      if signature = eocdSignature then .ok (some i) else scanLoop buffer i
    else scanLoop buffer i

section

variable (create : Nat → Nat → Option Region) (file : Region)

/-- `MapCentralDirectory0`, where `create` is `FileMap::create` with an offset and a length. The sum of
the two fields of the record is one of `uint32_t`. -/
def mapCentralDirectory0 (readAmount : Nat) :
    Run Directory := do
  let searchStart := file.size - readAmount
  let scanBuffer ← readFully file searchStart readAmount
  let found ← scanLoop scanBuffer (readAmount - sizeofEocdRecord + 1)
  match found with
  | none => fail .invalidFile
  | some i => do
    let eocdOffset := searchStart + i
    let eocd ← EocdRecord.read scanBuffer i
    if eocdOffset + sizeofEocdRecord + eocd.commentLength ≠ file.size then fail .invalidFile
    else if u32 (eocd.cdStartOffset + eocd.cdSize) > eocdOffset then fail .invalidOffset
    else if eocd.numRecords = 0 then fail .emptyArchive
    else match create eocd.cdStartOffset eocd.cdSize with
      | none => fail .mmapFailed
      | some directoryMap => .ok {
          numEntries := eocd.numRecords, directoryOffset := eocd.cdStartOffset, directoryMap }

def mapCentralDirectory : Run Directory :=
  if file.size > 0xffffffff then fail .invalidFile
  else if file.size < sizeofEocdRecord then fail .invalidFile
  else mapCentralDirectory0 create file (min maxEOCDSearch file.size)

end

/-! ## Names -/

section

variable (r : Region) (name length : Nat)

/-- The loop over the continuation bytes of one sequence, which gives the index of the last one, or
`none` for an invalid name. The bits of `first` are shifted out at the top. -/
def continuationLoop : Nat → UInt8 → Nat → Run (Option Nat)
  | 0, _, i => .ok (some i)
  | n + 1, first, i =>
    if first &&& 0x80 = 0 then .ok (some i)
    else if i + 1 = length then .ok none
    else do
      let byte ← need (r.readWord (name + (i + 1)) 1)
      if UInt8.ofNat byte &&& 0xc0 ≠ 0x80 then .ok none
      else continuationLoop n (first <<< 1) (i + 1)

/-- The loop of `IsValidEntryName`; at most `n` passes are left. -/
def validLoop : Nat → Nat → Run Bool
  | 0, _ => .ok true
  | n + 1, i =>
    if i < length then do
      let byte ← need (r.readWord (name + i) 1)
      let byte := UInt8.ofNat byte
      if byte = 0 then .ok false
      else if byte &&& 0x80 = 0 then validLoop n (i + 1)
      else if byte &&& 0xc0 = 0x80 ∨ byte &&& 0xfe = 0xfe then .ok false
      else do
        let last ← continuationLoop r name length 8 (byte <<< 1) i
        match last with
        | none => .ok false
        | some i => validLoop n (i + 1)
    else .ok true

/-- `IsValidEntryName` for the name at an offset of a region. -/
def isValidEntryName : Run Bool := validLoop r name length length 0

end

/-! ## The table of entries -/

/-- A `ZipEntryName` in the table: `name` is an offset in the directory. -/
structure ZipEntryName where
  name : Nat
  nameLength : Nat
  deriving DecidableEq

abbrev HashTable := List (Option ZipEntryName)

def roundUpPower2 (val : Nat) : Nat :=
  let val := u32OfInt (val - 1 : Int)
  let val := val ||| val >>> 1
  let val := val ||| val >>> 2
  let val := val ||| val >>> 4
  let val := val ||| val >>> 8
  let val := val ||| val >>> 16
  u32 (val + 1)

def computeHash (name : List UInt8) : Nat :=
  name.foldl (fun hash byte => u32 (hash * 31 + byte.toNat)) 0

/-- The search in `EntryToIndex` and `AddToHash`: the slot where it ends, and whether the name is
there. In a table of `n` slots it has come round after `n` passes. -/
def searchLoop (cd : Region) (hashTable : HashTable) (name : List UInt8) :
    Nat → Nat → Run (Nat × Bool)
  | 0, _ => .error .endless
  | n + 1, ent => do
    let slot ← need hashTable[ent]?
    match slot with
    | none => .ok (ent, false)
    | some slot =>
      let next := (ent + 1) &&& (hashTable.length - 1)
      if slot.nameLength = name.length then do
        let bytes ← need (cd.read slot.name slot.nameLength)
        if bytes.bytes = name then .ok (ent, true) else searchLoop cd hashTable name n next
      else searchLoop cd hashTable name n next

section

variable (cd : Region) (hashTable : HashTable)
include hashTable

def search (name : List UInt8) : Run (Nat × Bool) :=
  searchLoop cd hashTable name hashTable.length (computeHash name &&& (hashTable.length - 1))

def entryToIndex (name : List UInt8) : Run Nat := do
  let (ent, found) ← search cd hashTable name
  if found then .ok ent else fail .entryNotFound

def addToHash (name : ZipEntryName) : Run HashTable := do
  let bytes ← need (cd.read name.name name.nameLength)
  let (ent, found) ← search cd hashTable bytes.bytes
  if found then fail .duplicateEntry else .ok (hashTable.set ent (some name))

end

/-! ## Parsing the central directory -/

/-- `ptr`, as an offset in the directory, and the table. -/
structure ParseState where
  ptr : Nat
  hashTable : HashTable

/-- One pass of the loop of `ParseZipArchive`. -/
def parseRecord (d : Directory) (s : ParseState) : Run ParseState := do
  let cd := d.directoryMap
  let signature ← need (cd.readWord s.ptr 4)
  if signature ≠ centralDirectorySignature then fail .unnamed
  else if s.ptr + sizeofCentralDirectoryRecord > cd.size then fail .unnamed
  else do
    let localHeaderOffset ← need (cd.readWord (s.ptr + 42) 4)
    if localHeaderOffset ≥ d.directoryOffset then fail .unnamed
    else do
      let lengths ← RecordLengths.read cd s.ptr
      let fileName := s.ptr + sizeofCentralDirectoryRecord
      let valid ← isValidEntryName cd fileName lengths.fileName
      if valid then do
        let hashTable ← addToHash cd s.hashTable ⟨fileName, lengths.fileName⟩
        let ptr := s.ptr + lengths.total
        if ptr > cd.size then fail .unnamed else .ok ⟨ptr, hashTable⟩
      else fail .unnamed

def parseLoop (d : Directory) : Nat → ParseState → Run ParseState
  | 0, s => .ok s
  | n + 1, s => do
    let s ← parseRecord d s
    parseLoop d n s

/-- The table before the first record. -/
def newHashTable (numEntries : Nat) : HashTable :=
  List.replicate (roundUpPower2 (1 + numEntries * 4 / 3)) none

def parseZipArchive (d : Directory) : Run HashTable := do
  let s ← parseLoop d d.numEntries ⟨0, newHashTable d.numEntries⟩
  .ok s.hashTable

/-! ## An open archive -/

structure ZipArchive extends Directory where
  file : Region
  hashTable : HashTable

def openArchive (create : Nat → Nat → Option Region) (file : Region) : Run ZipArchive := do
  let d ← mapCentralDirectory create file
  let hashTable ← parseZipArchive d
  .ok { toDirectory := d, file, hashTable }

structure ZipEntry where
  method : Nat
  modTime : Nat
  hasDataDescriptor : Bool
  crc32 : Nat
  compressedLength : Nat
  uncompressedLength : Nat
  offset : Nat
  deriving DecidableEq

/-- The fields of a `CentralDirectoryRecord` that `FindEntry` uses, as the entry they fill, and the
offset of the local file header. -/
def readCentral (cd : Region) (ptr : Nat) : Run (ZipEntry × Nat) := do
  let method ← need (cd.readWord (ptr + 10) 2)
  let modTime ← need (cd.readWord (ptr + 12) 2)
  let crc32 ← need (cd.readWord (ptr + 16) 4)
  let compressedLength ← need (cd.readWord (ptr + 20) 4)
  let uncompressedLength ← need (cd.readWord (ptr + 24) 4)
  let localHeaderOffset ← need (cd.readWord (ptr + 42) 4)
  .ok ({ method, modTime, hasDataDescriptor := false, crc32, compressedLength, uncompressedLength,
         offset := 0 }, localHeaderOffset)

/-- The fields of a `LocalFileHeader` that `FindEntry` uses. -/
structure LocalFileHeader where
  signature : Nat
  gpbFlags : Nat
  crc32 : Nat
  compressedSize : Nat
  uncompressedSize : Nat
  fileNameLength : Nat
  extraFieldLength : Nat

def LocalFileHeader.read (lfh : Region) : Run LocalFileHeader := do
  let signature ← need (lfh.readWord 0 4)
  let gpbFlags ← need (lfh.readWord 6 2)
  let crc32 ← need (lfh.readWord 14 4)
  let compressedSize ← need (lfh.readWord 18 4)
  let uncompressedSize ← need (lfh.readWord 22 4)
  let fileNameLength ← need (lfh.readWord 26 2)
  let extraFieldLength ← need (lfh.readWord 28 2)
  .ok { signature, gpbFlags, crc32, compressedSize, uncompressedSize, fileNameLength,
        extraFieldLength }

namespace ZipArchive

/-- The checks of `FindEntry` on the name in the local file header. -/
def checkName (a : ZipArchive) (slot : ZipEntryName) (lfh : LocalFileHeader)
    (localHeaderOffset : Nat) : Run Unit :=
  if lfh.fileNameLength = slot.nameLength then do
    let nameOffset := localHeaderOffset + sizeofLocalFileHeader
    if nameOffset + lfh.fileNameLength > a.directoryOffset then fail .invalidOffset
    else do
      let nameBuf ← readFully a.file nameOffset slot.nameLength
      let name ← need (a.directoryMap.read slot.name slot.nameLength)
      if name ≠ nameBuf then fail .inconsistentInformation else .ok ()
  else fail .inconsistentInformation

/-- The checks of `FindEntry` on the place of the data. -/
def checkData (a : ZipArchive) (data : ZipEntry) (dataOffset : Nat) : Run ZipEntry :=
  if dataOffset > a.directoryOffset then fail .invalidOffset
  else if dataOffset + data.compressedLength > a.directoryOffset then fail .invalidOffset
  else if data.method = compressStored ∧
      dataOffset + data.uncompressedLength > a.directoryOffset then fail .invalidOffset
  else .ok { data with offset := dataOffset }

/-- `FindEntry` for a slot of the table. A free slot holds a null pointer, which is not in the
mapping. -/
def findEntryAt (a : ZipArchive) (ent : Nat) : Run ZipEntry := do
  let slot ← need a.hashTable[ent]?
  match slot with
  | none => fail .invalidOffset
  | some slot =>
    if slot.name < sizeofCentralDirectoryRecord ∨
        slot.name - sizeofCentralDirectoryRecord > a.directoryMap.size then fail .invalidOffset
    else do
      let (data, localHeaderOffset) ←
        readCentral a.directoryMap (slot.name - sizeofCentralDirectoryRecord)
      if localHeaderOffset + sizeofLocalFileHeader ≥ a.directoryOffset then fail .invalidOffset
      else do
        let lfhBuf ← readFully a.file localHeaderOffset sizeofLocalFileHeader
        let lfh ← LocalFileHeader.read lfhBuf
        if lfh.signature ≠ localFileSignature then fail .invalidOffset
        else do
          let hasDataDescriptor := lfh.gpbFlags &&& gpbDDFlagMask ≠ 0
          if ¬hasDataDescriptor ∧ (data.compressedLength ≠ lfh.compressedSize ∨
              data.uncompressedLength ≠ lfh.uncompressedSize ∨ data.crc32 ≠ lfh.crc32) then
            fail .inconsistentInformation
          else do
            a.checkName slot lfh localHeaderOffset
            a.checkData { data with hasDataDescriptor } (localHeaderOffset + sizeofLocalFileHeader +
              lfh.fileNameLength + lfh.extraFieldLength)

/-- `FindEntry` for a name. -/
def findEntry (a : ZipArchive) (name : List UInt8) : Run ZipEntry :=
  if name.length = 0 then fail .invalidEntryName
  else do
    let ent ← entryToIndex a.directoryMap a.hashTable name
    a.findEntryAt ent

/-! ## Iteration -/

/-- An `IterationHandle`. No name and an empty one are the same for it. -/
structure IterationHandle where
  position : Nat
  namePrefix : List UInt8
  nameSuffix : List UInt8

def startIteration (namePrefix nameSuffix : List UInt8) : IterationHandle :=
  { position := 0, namePrefix, nameSuffix }

/-- Whether the `part` is at `offset` in the name of a slot. -/
def comparePart (a : ZipArchive) (slot : ZipEntryName) (part : List UInt8) (offset : Nat) :
    Run Bool :=
  if part.length = 0 then .ok true
  else if slot.nameLength ≥ part.length then do
    let bytes ← need (a.directoryMap.read (slot.name + offset) part.length)
    .ok (bytes.bytes = part)
  else .ok false

/-- The condition in the loop of `Next`. -/
def matchesName (a : ZipArchive) (handle : IterationHandle) (slot : ZipEntryName) : Run Bool := do
  let first ← a.comparePart slot handle.namePrefix 0
  if first then
    a.comparePart slot handle.nameSuffix (slot.nameLength - handle.nameSuffix.length)
  else .ok false

/-- The loop of `Next`: the first slot from `i` on, among `n`, that is to be visited, and its name. -/
def nextLoop (a : ZipArchive) (handle : IterationHandle) :
    Nat → Nat → Run (Option (Nat × ZipEntryName))
  | 0, _ => .ok none
  | n + 1, i => do
    let slot ← need a.hashTable[i]?
    match slot with
    | none => nextLoop a handle n (i + 1)
    | some slot => do
      let found ← a.matchesName handle slot
      if found then .ok (some (i, slot)) else nextLoop a handle n (i + 1)

/-- What a function returns, as a value. -/
def returned {α : Type} : Run α → Run (Except ZipError α)
  | .ok a => .ok (.ok a)
  | .error (.error e) => .ok (.error e)
  | .error .outside => .error .outside
  | .error .endless => .error .endless

/-- `Next`: the handle afterwards, and the result. -/
def next (a : ZipArchive) (handle : IterationHandle) :
    Run (IterationHandle × Except ZipError (ZipEntry × ZipEntryName)) := do
  let found ← a.nextLoop handle (a.hashTable.length - handle.position) handle.position
  match found with
  | none => .ok ({ handle with position := 0 }, .error .iterationEnd)
  | some (i, slot) => do
    let result ← returned (a.findEntryAt i)
    .ok ({ handle with position := i + 1 }, result.map fun data => (data, slot))

end ZipArchive

end AndroidSystem.Zip
