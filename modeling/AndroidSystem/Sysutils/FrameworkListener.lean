import Mathlib.Data.List.Induction

/-!
# Commands on a framework socket

A model of `onDataAvailable` of `FrameworkListener.cpp`, called by the loop of `SocketListener.cpp`.
Commands end with a zero byte. Each call reads once into a buffer of its own and gives the strings
that end in it to `dispatchCommand`; what comes after the last zero byte is not kept for the next
call. So a command that two reads share is cut.
-/

namespace AndroidSystem.Sysutils

open List

def cmdBufSize : Nat := 1024

/-- The strings given to `dispatchCommand`, and the bytes from `offset` to the loop's `i`. -/
structure Scan where
  dispatched : List (List UInt8) := []
  current : List UInt8 := []

/-- The loop of `onDataAvailable` at one byte of the buffer. -/
def scanByte (s : Scan) (b : UInt8) : Scan :=
  if b = 0 then { dispatched := s.dispatched ++ [s.current] }
  else { s with current := s.current ++ [b] }

/-- The strings that are dispatched and the result, for what `read` returns, `none` if it fails. -/
def onDataAvailable : Option (List UInt8) → List (List UInt8) × Bool
  | none => ([], false)
  | some buffer =>
    if buffer.length = 0 then ([], false) else ((buffer.foldl scanByte {}).dispatched, true)

/-- The rounds of `runListener` in which a client has data. It is released after a `false`. -/
def runListener : List (Option (List UInt8)) → List (List UInt8)
  | [] => []
  | data :: reads =>
    match onDataAvailable data with
    | (dispatched, false) => dispatched
    | (dispatched, true) => dispatched ++ runListener reads

/-! ### Strings and their ends -/

/-- The commands as they are sent. -/
def terminated (commands : List (List UInt8)) : List UInt8 := commands.flatMap (· ++ [0])

theorem terminated_append (l m : List (List UInt8)) :
    terminated (l ++ m) = terminated l ++ terminated m :=
  flatMap_append

theorem splitOn_terminated {commands : List (List UInt8)} (h : ∀ c ∈ commands, 0 ∉ c) :
    (terminated commands).splitOn 0 = commands ++ [[]] := by
  induction commands with
  | nil => rfl
  | cons c commands ih =>
    rw [forall_mem_cons] at h
    rw [terminated, flatMap_cons, append_assoc]
    exact (splitOn_append_cons_self_of_not_mem h.1 _).trans (congrArg _ (ih h.2))

/-- The bytes scanned so far. -/
structure Scanned (s : Scan) (l : List UInt8) : Prop where
  eq : l = terminated s.dispatched ++ s.current
  noZero : ∀ c ∈ s.current :: s.dispatched, 0 ∉ c

theorem Scanned.scanByte {s : Scan} {l : List UInt8} (h : Scanned s l) (b : UInt8) :
    Scanned (scanByte s b) (l ++ [b]) := by
  obtain ⟨hcurrent, hdispatched⟩ := forall_mem_cons.1 h.noZero
  rw [Sysutils.scanByte, h.eq]
  split_ifs with hb
  · refine ⟨?_, ?_⟩
    · simp [terminated, hb]
    · simpa [or_imp, forall_and, hcurrent] using hdispatched
  · exact ⟨append_assoc _ _ _, by simpa [hcurrent, Ne.symm hb] using hdispatched⟩

theorem scanned (buffer : List UInt8) : Scanned (buffer.foldl Sysutils.scanByte {}) buffer := by
  induction buffer using reverseRec with
  | nil => exact ⟨rfl, by simp⟩
  | append_singleton buffer b ih =>
    rw [foldl_append]
    exact ih.scanByte b

/-! ### Commands and reads -/

/-- What the other side may send. -/
structure Command where
  bytes : List UInt8
  noZero : 0 ∉ bytes
  lt : bytes.length < cmdBufSize

/-- What one `read` may return. -/
structure Chunk where
  bytes : List UInt8
  ne_nil : bytes ≠ []
  le : bytes.length ≤ cmdBufSize

/-- What is dispatched while the chunks are read. -/
def dispatched (chunks : List Chunk) : List (List UInt8) :=
  runListener (chunks.map fun chunk => some chunk.bytes)

theorem dispatched_cons (chunk : Chunk) (chunks : List Chunk) :
    ∃ s, dispatched (chunk :: chunks) = s.dispatched ++ dispatched chunks ∧
      Scanned s chunk.bytes := by
  refine ⟨_, ?_, scanned chunk.bytes⟩
  rw [dispatched, map_cons, runListener, onDataAvailable, if_neg (by simpa using chunk.ne_nil)]
  rfl

/-- A chunk ends with a zero byte if nothing of it is left. -/
theorem Scanned.getLast? {s : Scan} {chunk : Chunk} (h : Scanned s chunk.bytes) :
    chunk.bytes.getLast? = some 0 ↔ s.current = [] := by
  have hbytes := h.eq
  obtain hnil | ⟨l, b, hcurrent⟩ := eq_nil_or_concat s.current
  · obtain hempty | ⟨commands, c, hconcat⟩ := eq_nil_or_concat s.dispatched
    · rw [hnil, hempty] at hbytes
      exact absurd hbytes chunk.ne_nil
    · simp [hbytes, hnil, hconcat, terminated]
  · have hb : b ≠ 0 := by
      rintro rfl
      exact h.noZero _ mem_cons_self (by simp [hcurrent])
    simp [hbytes, hcurrent, hb]

/-- Bytes may be lost, and none is if each chunk ends with a zero byte. -/
theorem terminated_dispatched (chunks : List Chunk) :
    (∀ c ∈ dispatched chunks, 0 ∉ c) ∧
    (terminated (dispatched chunks)).length ≤ (chunks.flatMap (·.bytes)).length ∧
    (terminated (dispatched chunks) = chunks.flatMap (·.bytes) ↔
      ∀ chunk ∈ chunks, chunk.bytes.getLast? = some 0) := by
  induction chunks with
  | nil => simp [dispatched, runListener, terminated]
  | cons chunk chunks ih =>
    obtain ⟨ihZero, ihLength, ihEq⟩ := ih
    obtain ⟨s, heq, h⟩ := dispatched_cons chunk chunks
    rw [heq, flatMap_cons, forall_mem_cons, terminated_append, ← ihEq, h.getLast?, h.eq,
      append_assoc, append_cancel_left_eq, ← length_eq_zero_iff]
    refine ⟨forall_mem_append.2 ⟨(forall_mem_cons.1 h.noZero).2, ihZero⟩, ?_, fun hlost => ?_, ?_⟩
    · simp only [length_append]
      omega
    · have hlength := congrArg length hlost
      rw [length_append] at hlength
      have hcurrent : s.current.length = 0 := by omega
      rw [length_eq_zero_iff.1 hcurrent] at hlost
      exact ⟨hcurrent, hlost⟩
    · rintro ⟨hcurrent, hrest⟩
      rw [length_eq_zero_iff.1 hcurrent, hrest, nil_append]

/-- The commands of a stream are dispatched if no read ends inside one of them. -/
theorem dispatched_iff (commands : List Command) (chunks : List Chunk)
    (hstream : chunks.flatMap (·.bytes) = terminated (commands.map (·.bytes))) :
    dispatched chunks = commands.map (·.bytes) ↔
      ∀ chunk ∈ chunks, chunk.bytes.getLast? = some 0 := by
  obtain ⟨hzero, -, heq⟩ := terminated_dispatched chunks
  rw [← heq, hstream]
  refine ⟨congrArg terminated, fun hterm => (append_left_inj [[]]).1 ?_⟩
  rw [← splitOn_terminated hzero, hterm, splitOn_terminated]
  simpa using fun command _ => command.noZero

/-- Two commands in one read and one in another. -/
theorem dispatched_ab :
    dispatched [⟨[97, 98, 0, 99, 0], by decide, by decide⟩, ⟨[100, 0], by decide, by decide⟩] =
      [[97, 98], [99], [100]] :=
  (dispatched_iff [⟨[97, 98], by decide, by decide⟩, ⟨[99], by decide, by decide⟩,
    ⟨[100], by decide, by decide⟩] _ rfl).2 (by simp)

/-- The command `ab` in two reads: what is dispatched is `b`. -/
theorem dispatched_ab_cut :
    terminated [[97, 98]] = [97] ++ [98, 0] ∧
    dispatched [⟨[97], by decide, by decide⟩, ⟨[98, 0], by decide, by decide⟩] = [[98]] := by
  decide

end AndroidSystem.Sysutils
