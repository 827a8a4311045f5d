import AndroidSystem.Zip.Iteration

/-!
# Extraction

The model of `ExtractToWriter`, with its two ways of getting the data: `CopyEntryToWriter` copies as
many bytes as the entry has uncompressed, and `InflateEntryToWriter` reads as many as it has
compressed. Both read from the place of the data on, one block after the other, and a data descriptor
is read where they end.

A writer is any function that takes bytes or refuses them. Of zlib it is assumed that `inflate` gives
no more output than there is room for, and that `total_out` counts the output.

An extraction that succeeds has appended as many bytes as the entry says. It has read the range of the
data exactly if the entry is not a stored one with two different lengths (`extraction_exact`).
-/

namespace AndroidSystem.Zip

open List

/-! ## Writers and zlib -/

/-- A `Writer`: its state after `Append`, or `none` if that returns `false`. -/
structure Writer (ω : Type) where
  append : ω → List UInt8 → Option ω

inductive ZStatus where
  | ok
  | streamEnd
  /-- Any of the errors. -/
  | failed
  deriving DecidableEq

variable {n last fuel : Nat} {status : ZStatus} {entry : ZipEntry}

/-- What a call of `inflate` does. -/
structure InflateResult (ζ : Type) where
  status : ZStatus
  consumed : Nat
  output : List UInt8
  stream : ζ

/-- zlib, as far as it is documented: `inflate` is given the bytes at `next_in` and the room at
`next_out`. -/
structure Zlib (ζ : Type) where
  inflateInit : Option ζ
  inflate : ζ → List UInt8 → Nat → InflateResult ζ
  output_le : ∀ stream input room, (inflate stream input room).output.length ≤ room

/-! ## The model -/

/-- The offset of the file descriptor, the writer, and all that has been appended to it. -/
structure Extraction (ω : Type) where
  pos : Nat
  writer : ω
  appended : List UInt8

def kBufSize : Nat := 32768

/-- The size of the next block. -/
def blockSize (remaining : Nat) : Nat := if remaining > kBufSize then kBufSize else remaining

section Model

variable {ω ζ : Type}

/-- The loop of `CopyEntryToWriter`; each pass copies at least one byte. -/
def copyLoop (w : Writer ω) (file : Region) (length : Nat) :
    Nat → Nat → Extraction ω → Run (Extraction ω)
  | 0, _, s => .ok s
  | n + 1, count, s =>
    if count < length then do
      let size := blockSize (length - count)
      let buf ← readFully file s.pos size
      match w.append s.writer buf.bytes with
      | none => fail .ioError
      | some writer =>
        copyLoop w file length n (count + size)
          { pos := s.pos + size, writer, appended := s.appended ++ buf.bytes }
    else .ok s

def copyEntryToWriter (w : Writer ω) (file : Region) (entry : ZipEntry) (s : Extraction ω) :
    Run (Extraction ω) :=
  copyLoop w file entry.uncompressedLength entry.uncompressedLength 0 s

/-- The state of the loop of `InflateEntryToWriter`: the stream with what is left in `read_buf`, what
is in `write_buf`, and the number of compressed bytes that have not been read. -/
structure InflateState (ζ ω : Type) where
  stream : ζ
  input : List UInt8
  output : List UInt8
  totalOut : Nat
  compressedLength : Nat
  extraction : Extraction ω

/-- Reading more input, if there is none. -/
def refill (file : Region) (t : InflateState ζ ω) : Run (InflateState ζ ω) :=
  if t.input.length = 0 then do
    let getSize := blockSize t.compressedLength
    let buf ← readFully file t.extraction.pos getSize
    .ok { t with
      input := buf.bytes
      compressedLength := t.compressedLength - getSize
      extraction := { t.extraction with pos := t.extraction.pos + getSize } }
  else .ok t

/-- Writing, when `write_buf` is full or the stream has ended. -/
def flush (w : Writer ω) (status : ZStatus) (t : InflateState ζ ω) : Run (InflateState ζ ω) :=
  if t.output.length = kBufSize ∨ (status = .streamEnd ∧ t.output.length ≠ 0) then
    match w.append t.extraction.writer t.output with
    | none => fail .inconsistentInformation
    | some writer => .ok { t with
        output := []
        extraction := { t.extraction with
          writer, appended := t.extraction.appended ++ t.output } }
  else .ok t

/-- One pass of the loop, and the status of `inflate` in it. -/
def inflatePass (zlib : Zlib ζ) (w : Writer ω) (file : Region) (t : InflateState ζ ω) :
    Run (InflateState ζ ω × ZStatus) := do
  let t ← refill file t
  let result := zlib.inflate t.stream t.input (kBufSize - t.output.length)
  if result.status = .failed then fail .zlibError
  else do
    let t ← flush w result.status { t with
      stream := result.stream
      input := t.input.drop result.consumed
      output := t.output ++ result.output
      totalOut := t.totalOut + result.output.length }
    .ok (t, result.status)

def inflateLoop (zlib : Zlib ζ) (w : Writer ω) (file : Region) :
    Nat → InflateState ζ ω → Run (InflateState ζ ω)
  | 0, _ => .error .endless
  | n + 1, t => do
    let (t, status) ← inflatePass zlib w file t
    if status = .ok then inflateLoop zlib w file n t else .ok t

section

variable (fuel : Nat) (zlib : Zlib ζ) (w : Writer ω)

section

variable (file : Region) (entry : ZipEntry)

/-- `InflateEntryToWriter`, with a bound on the passes of its loop. -/
def inflateEntryToWriter (s : Extraction ω) : Run (Extraction ω) :=
  match zlib.inflateInit with
  | none => fail .zlibError
  | some stream => do
    let t ← inflateLoop zlib w file fuel {
      stream, input := [], output := [], totalOut := 0,
      compressedLength := entry.compressedLength, extraction := s }
    if t.totalOut ≠ entry.uncompressedLength ∨ t.compressedLength ≠ 0 then
      fail .inconsistentInformation
    else .ok t.extraction

def dataDescriptorSignature : Nat := 0x08074b50

/-- `UpdateEntryFromDataDescriptor`, with the offset of the file descriptor. -/
def updateEntryFromDataDescriptor (pos : Nat) :
    Run ZipEntry := do
  let ddBuf ← readFully file pos 16
  let ddSignature ← need (ddBuf.readWord 0 4)
  let offset := if ddSignature = dataDescriptorSignature then 4 else 0
  let crc32 ← need (ddBuf.readWord offset 4)
  let compressedLength ← need (ddBuf.readWord (offset + 4) 4)
  let uncompressedLength ← need (ddBuf.readWord (offset + 8) 4)
  .ok { entry with crc32, compressedLength, uncompressedLength }

/-- Getting the data of an entry: what `ExtractToWriter` does before it looks for a descriptor. -/
def extractData (writer : ω) : Run (Extraction ω) :=
  let s : Extraction ω := { pos := entry.offset, writer, appended := [] }
  if entry.method = compressStored then copyEntryToWriter w file entry s
  else if entry.method = compressDeflated then inflateEntryToWriter fuel zlib w file entry s
  else fail .unnamed

/-- `ExtractToWriter`: the entry afterwards, and the state when its data has been read. -/
def extractToWriter (writer : ω) : Run (ZipEntry × Extraction ω) := do
  let s ← extractData fuel zlib w file entry writer
  if entry.hasDataDescriptor then do
    let entry ← updateEntryFromDataDescriptor file entry s.pos
    .ok (entry, s)
  else .ok (entry, s)

end

end

end Model

/-! ## Stored entries -/

section Copy

variable {ω ζ : Type} {w : Writer ω} {file : Region} {entry : ZipEntry}

theorem blockSize_le (remaining : Nat) : blockSize remaining ≤ remaining := by
  unfold blockSize
  split_ifs <;> omega

theorem blockSize_pos {remaining : Nat} (h : 0 < remaining) : 0 < blockSize remaining := by
  unfold blockSize kBufSize
  split_ifs <;> omega

theorem copyLoop_spec {length count : Nat} {s s' : Extraction ω} (hcount : count ≤ length)
    (hn : length ≤ count + n) (h : copyLoop w file length n count s = .ok s') :
    s'.pos = s.pos + (length - count) ∧
      s'.appended = s.appended ++ (file.bytes.drop s.pos).take (length - count) ∧
      (s'.appended).length = s.appended.length + (length - count) := by
  induction n generalizing count s with
  | zero =>
    cases h
    rw [show length - count = 0 by omega]
    simp
  | succ n ih =>
    unfold copyLoop at h
    by_cases hlt : count < length
    · rw [if_pos hlt] at h
      obtain ⟨buf, hread, h⟩ := bind_eq_ok.1 h
      obtain ⟨-, hsize, hbytes⟩ := readFully_ok hread
      have hle := blockSize_le (length - count)
      have hpos := blockSize_pos (show 0 < length - count by omega)
      cases happend : w.append s.writer buf.bytes with
      | none =>
        rw [happend] at h
        cases h
      | some writer =>
        rw [happend] at h
        obtain ⟨hpos', happended, hlength⟩ := ih (by omega) (by omega) h
        dsimp only at hpos' happended hlength
        refine ⟨by omega, ?_, ?_⟩
        · rw [happended, hbytes, append_assoc, ← drop_drop, ← take_add]
          congr 2
          omega
        · rw [hlength, length_append]
          unfold Region.size at hsize
          omega
    · rw [if_neg hlt] at h
      cases h
      rw [show length - count = 0 by omega]
      simp

end Copy

/-! ## Deflated entries -/

section Inflate

variable {ω ζ : Type} {zlib : Zlib ζ} {w : Writer ω} {file : Region} {t t' : InflateState ζ ω}

/-- The counts of the loop: of the bytes that have been read, up to `last`, and of those that have
been produced. -/
structure Counts (last : Nat) (t : InflateState ζ ω) : Prop where
  read : t.extraction.pos + t.compressedLength = last
  room : t.output.length ≤ kBufSize
  written : t.extraction.appended.length + t.output.length = t.totalOut

section

variable (h : Counts last t)
include h

theorem Counts.refill (hrun : refill file t = .ok t') : Counts last t' := by
  unfold Zip.refill at hrun
  split_ifs at hrun
  · obtain ⟨buf, -, hrun⟩ := bind_eq_ok.1 hrun
    cases hrun
    have hle := blockSize_le t.compressedLength
    have hread := h.read
    refine ⟨?_, h.room, h.written⟩
    show t.extraction.pos + blockSize t.compressedLength + (t.compressedLength - _) = last
    omega
  · cases hrun
    exact h

/-- A call of `inflate` that keeps to the room it is given. -/
theorem Counts.inflate (r : InflateResult ζ)
    (hroom : r.output.length ≤ kBufSize - t.output.length) :
    Counts last { t with
      stream := r.stream
      input := t.input.drop r.consumed
      output := t.output ++ r.output
      totalOut := t.totalOut + r.output.length } := by
  have hle := h.room
  have hwritten := h.written
  refine ⟨h.read, ?_, ?_⟩
  · rw [length_append]
    omega
  · show t.extraction.appended.length + (t.output ++ r.output).length = t.totalOut + _
    rw [length_append]
    omega

theorem Counts.flush (hrun : flush w status t = .ok t') :
    Counts last t' ∧ (status = .streamEnd → t'.output = []) := by
  unfold Zip.flush at hrun
  split_ifs at hrun with hwrite
  · cases happend : w.append t.extraction.writer t.output with
    | none =>
      rw [happend] at hrun
      cases hrun
    | some writer =>
      rw [happend] at hrun
      cases hrun
      refine ⟨⟨h.read, Nat.zero_le _, ?_⟩, fun _ => rfl⟩
      rw [length_append]
      exact h.written
  · cases hrun
    refine ⟨h, fun hend => ?_⟩
    simp only [not_or, not_and, not_not] at hwrite
    exact length_eq_zero_iff.1 (hwrite.2 hend)

theorem Counts.pass (hrun : inflatePass zlib w file t = .ok (t', status)) :
    Counts last t' ∧ status ≠ .failed ∧ (status = .streamEnd → t'.output = []) := by
  obtain ⟨t1, hrefill, hrun⟩ := bind_eq_ok.1 hrun
  have h1 := h.refill hrefill
  dsimp only at hrun
  split_ifs at hrun with hfailed
  · cases hrun
  · obtain ⟨t2, hflush, hrun⟩ := bind_eq_ok.1 hrun
    cases hrun
    obtain ⟨h2, hend⟩ := (h1.inflate _ (zlib.output_le _ _ _)).flush hflush
    exact ⟨h2, hfailed, hend⟩

theorem Counts.loop (hrun : inflateLoop zlib w file fuel t = .ok t') :
    Counts last t' ∧ t'.output = [] := by
  induction fuel generalizing t with
  | zero => cases hrun
  | succ n ih =>
    obtain ⟨⟨t1, status⟩, hpass, hrun⟩ := bind_eq_ok.1 hrun
    obtain ⟨h1, hfailed, hend⟩ := h.pass hpass
    dsimp only at hrun
    split_ifs at hrun with hok
    · exact ih h1 hrun
    · cases hrun
      refine ⟨h1, hend ?_⟩
      cases status with
      | ok => exact absurd rfl hok
      | streamEnd => rfl
      | failed => exact absurd rfl hfailed

end

theorem inflateEntryToWriter_spec {s s' : Extraction ω} (hs : s.appended = [])
    (h : inflateEntryToWriter fuel zlib w file entry s = .ok s') :
    s'.pos = s.pos + entry.compressedLength ∧ s'.appended.length = entry.uncompressedLength := by
  unfold inflateEntryToWriter at h
  cases hinit : zlib.inflateInit with
  | none =>
    rw [hinit] at h
    cases h
  | some stream =>
    rw [hinit] at h
    obtain ⟨t, hloop, h⟩ := bind_eq_ok.1 h
    split_ifs at h with hsizes
    · cases h
    · cases h
      have hstart : Counts (s.pos + entry.compressedLength) ({
          stream, input := [], output := [], totalOut := 0,
          compressedLength := entry.compressedLength, extraction := s } : InflateState ζ ω) :=
        ⟨rfl, Nat.zero_le _, by rw [hs]; rfl⟩
      obtain ⟨hcounts, hempty⟩ := hstart.loop hloop
      have hread := hcounts.read
      have hwritten := hcounts.written
      rw [hempty, length_nil] at hwritten
      omega

end Inflate

/-! ## Entries -/

/-- The range of the data of an entry is before the central directory. -/
theorem ZipArchive.findEntryAt_range {a : ZipArchive} {i : Nat} {e : ZipEntry}
    (h : a.findEntryAt i = .ok e) : e.offset + e.compressedLength ≤ a.directoryOffset := by
  obtain ⟨slot, -, h⟩ := bind_eq_ok.1 h
  cases slot with
  | none => cases h
  | some slot =>
    dsimp only at h
    split_ifs at h
    · cases h
    obtain ⟨⟨data, localHeaderOffset⟩, -, h⟩ := bind_eq_ok.1 h
    split_ifs at h
    · cases h
    obtain ⟨lfhBuf, -, h⟩ := bind_eq_ok.1 h
    obtain ⟨lfh, -, h⟩ := bind_eq_ok.1 h
    split_ifs at h
    · cases h
    · cases h
    obtain ⟨-, -, h⟩ := bind_eq_ok.1 h
    unfold checkData at h
    split_ifs at h with hoffset hrange
    · cases h
    · cases h
    · cases h
    cases h
    exact not_lt.1 hrange

section Exact

variable {ω ζ : Type}

/-- Where the data ends and how much has been appended. -/
theorem extractData_spec {zlib : Zlib ζ} {w : Writer ω} {file : Region} {writer : ω}
    {s : Extraction ω} (h : extractData fuel zlib w file entry writer = .ok s) :
    s.appended.length = entry.uncompressedLength ∧
      (entry.method = compressStored →
        s.appended = (file.bytes.drop entry.offset).take entry.uncompressedLength) ∧
      s.pos = entry.offset + (if entry.method = compressStored then entry.uncompressedLength
        else entry.compressedLength) := by
  unfold extractData at h
  split_ifs at h ⊢ with hstored hdeflated
  · obtain ⟨hpos, happended, hlength⟩ := copyLoop_spec (Nat.zero_le _) (by omega) h
    simp only [length_nil] at hpos happended hlength
    exact ⟨by omega, fun _ => happended, hpos⟩
  · obtain ⟨hpos, hlength⟩ := inflateEntryToWriter_spec rfl h
    exact ⟨hlength, fun h => absurd h hstored, hpos⟩
  · cases h

/-- The data of an entry is before the central directory. An extraction that succeeds appends the
uncompressed length, for a stored entry the bytes of the file, and reads the data and then the
descriptor exactly if a stored entry has one length. -/
theorem extraction_exact (a : ZipArchive) (name : List UInt8) (e : ZipEntry)
    (h : a.findEntry name = .ok e) :
    e.offset + e.compressedLength ≤ a.directoryOffset ∧
    ∀ (fuel : Nat) (zlib : Zlib ζ) (w : Writer ω) (writer : ω) (e' : ZipEntry) (s : Extraction ω),
      extractToWriter fuel zlib w a.file e writer = .ok (e', s) →
        s.appended.length = e.uncompressedLength ∧
        (e.method = compressStored →
          s.appended = (a.file.bytes.drop e.offset).take e.uncompressedLength) ∧
        ((s.pos = e.offset + e.compressedLength ∧
            (e.hasDataDescriptor → updateEntryFromDataDescriptor a.file e
              (e.offset + e.compressedLength) = .ok e')) ↔
          (e.method = compressStored → e.compressedLength = e.uncompressedLength)) := by
  unfold ZipArchive.findEntry at h
  split_ifs at h
  · cases h
  obtain ⟨ent, -, h⟩ := bind_eq_ok.1 h
  refine ⟨ZipArchive.findEntryAt_range h, fun fuel zlib w writer e' s hrun => ?_⟩
  obtain ⟨s1, hdata, hrun⟩ := bind_eq_ok.1 hrun
  obtain ⟨hlength, hcopy, hpos⟩ := extractData_spec hdata
  have hdescriptor : s1 = s ∧ (e.hasDataDescriptor →
      updateEntryFromDataDescriptor a.file e s1.pos = .ok e') := by
    split_ifs at hrun with hdd
    · obtain ⟨e1, hupdate, hrun⟩ := bind_eq_ok.1 hrun
      cases hrun
      exact ⟨rfl, fun _ => hupdate⟩
    · cases hrun
      exact ⟨rfl, fun h => absurd h hdd⟩
  obtain ⟨rfl, hupdate⟩ := hdescriptor
  refine ⟨hlength, hcopy, ?_⟩
  constructor
  · rintro ⟨hrange, -⟩ hstored
    rw [if_pos hstored] at hpos
    omega
  · intro hsame
    have hrange : s1.pos = e.offset + e.compressedLength := by
      rw [hpos]
      split_ifs with hstored
      · rw [hsame hstored]
      · rfl
    exact ⟨hrange, hrange ▸ hupdate⟩

end Exact

/-! ### Stored entries with one and with two lengths -/

/-- An archive with a stored entry `a` of two bytes, for which it gives two lengths. -/
def storedFile (compressedSize uncompressedSize : Nat) : Region :=
  ⟨le 4 localFileSignature ++ List.replicate 14 0 ++ le 4 compressedSize ++ le 4 uncompressedSize ++
      le 2 1 ++ le 2 0 ++ [0x61, 1, 2] ++
    (le 4 centralDirectorySignature ++ List.replicate 16 0 ++ le 4 compressedSize ++
      le 4 uncompressedSize ++ le 2 1 ++ List.replicate 16 0 ++ [0x61]) ++
    (le 4 eocdSignature ++ List.replicate 4 0 ++ le 2 1 ++ le 2 1 ++ le 4 47 ++ le 4 33 ++ le 2 0),
    by simp⟩

/-- The archive when it has been opened. -/
def storedArchive (compressedSize uncompressedSize : Nat) : ZipArchive where
  numEntries := 1
  directoryOffset := 33
  directoryMap := ⟨le 4 centralDirectorySignature ++ List.replicate 16 0 ++ le 4 compressedSize ++
    le 4 uncompressedSize ++ le 2 1 ++ List.replicate 16 0 ++ [0x61], by simp⟩
  file := storedFile compressedSize uncompressedSize
  hashTable := [none, some ⟨46, 1⟩]

def storedEntry (compressedLength uncompressedLength : Nat) : ZipEntry where
  method := 0
  modTime := 0
  hasDataDescriptor := false
  crc32 := 0
  compressedLength := compressedLength
  uncompressedLength := uncompressedLength
  offset := 31

/-- A writer that takes everything. -/
def memoryWriter : Writer Unit := ⟨fun writer _ => some writer⟩

def noZlib : Zlib Unit := ⟨none, fun stream _ _ => ⟨.failed, 0, [], stream⟩, by simp⟩

/-- With one length, the data is read and nothing else. -/
theorem stored_exact :
    openArchive (storedFile 2 2).read (storedFile 2 2) = .ok (storedArchive 2 2) ∧
    (storedArchive 2 2).findEntry [0x61] = .ok (storedEntry 2 2) ∧
    ∃ s, extractToWriter 0 noZlib memoryWriter (storedFile 2 2) (storedEntry 2 2) () =
        .ok (storedEntry 2 2, s) ∧
      s.appended.length = 2 ∧ s.appended = [1, 2] ∧ s.pos = 31 + 2 := by
  have hfind : (storedArchive 2 2).findEntry [0x61] = .ok (storedEntry 2 2) := rfl
  have hrun : extractToWriter 0 noZlib memoryWriter (storedFile 2 2) (storedEntry 2 2) () =
      .ok (storedEntry 2 2, ⟨33, (), [1, 2]⟩) := rfl
  obtain ⟨-, hexact⟩ := extraction_exact (storedArchive 2 2) [0x61] (storedEntry 2 2) hfind
  obtain ⟨hlength, hcopy, hiff⟩ := hexact 0 noZlib memoryWriter () _ _ hrun
  exact ⟨rfl, hfind, _, hrun, hlength, hcopy rfl, (hiff.2 fun _ => rfl).1⟩

/-- With a compressed length of 1, an extraction that succeeds reads 2 bytes. -/
theorem stored_inexact :
    openArchive (storedFile 1 2).read (storedFile 1 2) = .ok (storedArchive 1 2) ∧
    (storedArchive 1 2).findEntry [0x61] = .ok (storedEntry 1 2) ∧
    ∃ s, extractToWriter 0 noZlib memoryWriter (storedFile 1 2) (storedEntry 1 2) () =
        .ok (storedEntry 1 2, s) ∧ s.pos = (storedEntry 1 2).offset + 2 :=
  ⟨rfl, rfl, ⟨33, (), [1, 2]⟩, rfl, rfl⟩

end AndroidSystem.Zip
