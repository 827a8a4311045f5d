import AndroidSystem.Lib.Except
import AndroidSystem.Lib.Machine
import Mathlib.Data.List.GetD

/-!
# Splitting a text log entry

A model of `android_log_processLogBuffer` of `liblog/logprint.c`. The payload of an entry is a priority,
a tag and a message, both with a NUL behind them. One loop looks for the two terminators. If it does not
find the second one, a NUL is written over the last byte of the payload.

If the first terminator is the last byte, the message starts behind the payload and its length wraps
around. In all other cases tag and message are inside the payload.
-/

namespace AndroidSystem.Liblog

open List

/-- A wire-format entry. Its length is a 16-bit number. -/
structure LoggerEntry where
  pid : Int
  tid : Int
  sec : Int
  nsec : Int
  msg : List UInt8
  len_lt : msg.length < 2 ^ 16

/-- The entry that is split off. `tag` and `message` are places in the payload, which is `payload`
after the call. -/
structure AndroidLogEntry where
  tv_sec : Int
  tv_nsec : Int
  priority : UInt8
  pid : Int
  tid : Int
  tag : Nat
  messageLen : Nat
  message : Nat
  payload : List UInt8
  deriving DecidableEq

/-- Why a call gives no entry: it returns -1, or it reads or writes outside the payload. -/
inductive Halt where
  | invalid
  | outside
  deriving DecidableEq

section

variable (msg : List UInt8)

/-- A byte of the payload. -/
def byteAt (i : Nat) : Except Halt UInt8 :=
  match msg[i]? with
  | some c => .ok c
  | none => .error .outside

/-- Write a byte of the payload. -/
def setByte (i : Nat) (c : UInt8) : Except Halt (List UInt8) :=
  if i < msg.length then .ok (msg.set i c) else .error .outside

/-- The loop over the bytes from `i` on, `n` of them. It gives `msgStart` and `msgEnd`. -/
def scanTerminators : Nat → Nat → Int → Except Halt (Int × Int)
  | 0, _, msgStart => .ok (msgStart, -1)
  | n + 1, i, msgStart => do
    let c ← byteAt msg i
    if c = 0 then
      if msgStart = -1 then scanTerminators n (i + 1) (i + 1) else .ok (msgStart, i)
    else scanTerminators n (i + 1) msgStart

/-- A message without a terminator gets one. -/
def forceEnd (msgEnd : Int) : Except Halt (Int × List UInt8) :=
  if msgEnd = -1 then (setByte msg (msg.length - 1) 0).map fun msg' => ((msg.length : Int) - 1, msg')
  else .ok (msgEnd, msg)

end

def processLogBuffer (buf : LoggerEntry) : Except Halt AndroidLogEntry :=
  if buf.msg.length < 3 then .error .invalid
  else do
    let (msgStart, msgEnd) ← scanTerminators buf.msg (buf.msg.length - 1) 1 (-1)
    if msgStart = -1 then .error .invalid
    else do
      let (msgEnd, msg) ← forceEnd buf.msg msgEnd
      let priority ← byteAt msg 0
      .ok { tv_sec := buf.sec, tv_nsec := buf.nsec, priority, pid := buf.pid, tid := buf.tid, tag := 1,
            message := msgStart.toNat, messageLen := u64OfInt (msgEnd - msgStart), payload := msg }

/-! ## The terminators -/

/-- The place of the first NUL from `i` on, or the length. -/
def nulFrom (msg : List UInt8) (i : Nat) : Nat := i + (msg.drop i).idxOf 0

section

variable {msg : List UInt8} {i n : Nat}

theorem byteAt_of_lt (hi : i < msg.length) : byteAt msg i = .ok msg[i] := by
  rw [byteAt, getElem?_eq_getElem hi]

theorem nulFrom_of_zero (hi : i < msg.length) (hzero : msg[i] = 0) : nulFrom msg i = i := by
  rw [nulFrom, drop_eq_getElem_cons hi, hzero, idxOf_cons_self, add_zero]

theorem nulFrom_of_ne (hi : i < msg.length) (hne : msg[i] ≠ 0) :
    nulFrom msg i = nulFrom msg (i + 1) := by
  rw [nulFrom, nulFrom, drop_eq_getElem_cons hi, idxOf_cons, beq_eq_false_iff_ne.2 hne,
    cond_false]
  omega

theorem nulFrom_length : nulFrom msg msg.length = msg.length := by
  rw [nulFrom, drop_length, idxOf_nil, add_zero]

theorem le_nulFrom (msg : List UInt8) (i : Nat) : i ≤ nulFrom msg i := Nat.le_add_right _ _

theorem getElem?_nulFrom (hlt : nulFrom msg i < msg.length) : msg[nulFrom msg i]? = some 0 := by
  have hidx : (msg.drop i).idxOf 0 < (msg.drop i).length := by
    rw [length_drop]
    rw [nulFrom] at hlt
    omega
  have hget := getElem_idxOf hidx
  rw [getElem_drop] at hget
  rw [getElem?_eq_getElem hlt]
  exact congrArg some hget

theorem scanTerminators_next (hn : i + n = msg.length) (msgStart : Int) :
    scanTerminators msg n i msgStart =
      if nulFrom msg i < msg.length then
        if msgStart = -1 then scanTerminators msg (msg.length - (nulFrom msg i + 1))
          (nulFrom msg i + 1) ((nulFrom msg i : Int) + 1)
        else .ok (msgStart, nulFrom msg i)
      else .ok (msgStart, -1) := by
  induction n generalizing i with
  | zero =>
    have hi : i = msg.length := hn
    rw [hi, nulFrom_length, if_neg (lt_irrefl _)]
    rfl
  | succ n ih =>
    have hi : i < msg.length := by omega
    rw [scanTerminators, byteAt_of_lt hi]
    change (if msg[i] = 0 then _ else _) = _
    by_cases hzero : msg[i] = 0
    · rw [if_pos hzero, nulFrom_of_zero hi hzero, if_pos hi, show msg.length - (i + 1) = n by omega]
    · rw [if_neg hzero, ih (by omega), ← nulFrom_of_ne hi hzero]

end

/-! ## The parts of an entry -/

/-- The first terminator is the last byte of the payload. -/
def EndsInTag (buf : LoggerEntry) : Prop :=
  3 ≤ buf.msg.length ∧ nulFrom buf.msg 1 + 1 = buf.msg.length

instance (buf : LoggerEntry) : Decidable (EndsInTag buf) := inferInstanceAs (Decidable (_ ∧ _))

/-- Tag and message are inside the payload, each with a NUL behind it. -/
structure InsidePayload (buf : LoggerEntry) (entry : AndroidLogEntry) : Prop where
  length_payload : entry.payload.length = buf.msg.length
  tag_ends : ∃ i, entry.tag ≤ i ∧ i < buf.msg.length ∧ entry.payload[i]? = some 0
  message_lt : entry.message < buf.msg.length
  messageLen_le : entry.messageLen ≤ buf.msg.length - entry.message
  message_ends : entry.payload[entry.message + entry.messageLen]? = some 0

/-- The entry with a message from the byte behind the first terminator up to `msgEnd`. -/
def splitAt (buf : LoggerEntry) (msgEnd : Int) (payload : List UInt8) : AndroidLogEntry where
  tv_sec := buf.sec
  tv_nsec := buf.nsec
  priority := payload.getD 0 0
  pid := buf.pid
  tid := buf.tid
  tag := 1
  messageLen := u64OfInt (msgEnd - (nulFrom buf.msg 1 + 1))
  message := nulFrom buf.msg 1 + 1
  payload := payload

section

variable {buf : LoggerEntry}

theorem messageLen_splitAt {msgEnd : Int} {n : Nat} (payload : List UInt8)
    (hend : msgEnd = nulFrom buf.msg 1 + 1 + n) (hn : n < 2 ^ 16) :
    (splitAt buf msgEnd payload).messageLen = n := by
  change u64OfInt (msgEnd - (nulFrom buf.msg 1 + 1)) = n
  rw [u64OfInt]
  omega

theorem processLogBuffer_invalid (h : buf.msg.length < 3 ∨ ¬nulFrom buf.msg 1 < buf.msg.length) :
    processLogBuffer buf = .error .invalid := by
  rw [processLogBuffer]
  split_ifs with hlen
  · rfl
  · rw [scanTerminators_next (by omega), if_neg (h.resolve_left hlen)]
    rfl

theorem scanTerminators_eq (hlen : ¬buf.msg.length < 3) (hfirst : nulFrom buf.msg 1 < buf.msg.length) :
    scanTerminators buf.msg (buf.msg.length - 1) 1 (-1) =
      .ok ((nulFrom buf.msg 1 : Int) + 1,
        if nulFrom buf.msg (nulFrom buf.msg 1 + 1) < buf.msg.length then
          (nulFrom buf.msg (nulFrom buf.msg 1 + 1) : Int) else -1) := by
  rw [scanTerminators_next (by omega), if_pos rfl, scanTerminators_next (by omega),
    if_neg (show ¬(nulFrom buf.msg 1 : Int) + 1 = -1 by omega)]
  split_ifs <;> rfl

theorem byteAt_zero {msg : List UInt8} (hlen : 0 < msg.length) :
    byteAt msg 0 = .ok (msg.getD 0 0) := by
  rw [byteAt_of_lt hlen, getD_eq_getElem _ _ hlen]

theorem processLogBuffer_found (hlen : ¬buf.msg.length < 3)
    (hsecond : nulFrom buf.msg (nulFrom buf.msg 1 + 1) < buf.msg.length) :
    processLogBuffer buf = .ok (splitAt buf (nulFrom buf.msg (nulFrom buf.msg 1 + 1)) buf.msg) := by
  have hfirst : nulFrom buf.msg 1 < buf.msg.length := by
    have := le_nulFrom buf.msg (nulFrom buf.msg 1 + 1)
    omega
  rw [processLogBuffer, if_neg hlen, scanTerminators_eq hlen hfirst, if_pos hsecond]
  have hend : forceEnd buf.msg (nulFrom buf.msg (nulFrom buf.msg 1 + 1)) =
      .ok ((nulFrom buf.msg (nulFrom buf.msg 1 + 1) : Int), buf.msg) := if_neg (by omega)
  simp only [ok_bind, hend, byteAt_zero (show 0 < buf.msg.length by omega)]
  rfl

theorem processLogBuffer_forced (hlen : ¬buf.msg.length < 3)
    (hfirst : nulFrom buf.msg 1 < buf.msg.length)
    (hsecond : ¬nulFrom buf.msg (nulFrom buf.msg 1 + 1) < buf.msg.length) :
    processLogBuffer buf =
      .ok (splitAt buf (buf.msg.length - 1) (buf.msg.set (buf.msg.length - 1) 0)) := by
  rw [processLogBuffer, if_neg hlen, scanTerminators_eq hlen hfirst, if_neg hsecond]
  have hend : forceEnd buf.msg (-1) =
      .ok ((buf.msg.length : Int) - 1, buf.msg.set (buf.msg.length - 1) 0) := by
    rw [forceEnd, if_pos rfl, setByte, if_pos (by omega)]
    rfl
  have hpos : 0 < (buf.msg.set (buf.msg.length - 1) 0).length := by
    rw [length_set]
    omega
  simp only [ok_bind, hend, byteAt_zero hpos]
  rfl

end

/-- The parts of the entry are inside the payload, unless the first terminator is its last byte. -/
theorem processLogBuffer_inside_iff (buf : LoggerEntry) :
    (processLogBuffer buf ≠ .error .outside ∧
      ∀ entry, processLogBuffer buf = .ok entry → InsidePayload buf entry) ↔ ¬EndsInTag buf := by
  have hlt := buf.len_lt
  set first := nulFrom buf.msg 1
  have hstart : 1 ≤ first := le_nulFrom _ _
  by_cases hinvalid : buf.msg.length < 3 ∨ ¬first < buf.msg.length
  · rw [processLogBuffer_invalid hinvalid]
    have hnot : ¬EndsInTag buf := by
      rintro ⟨hlen, hlast⟩
      omega
    simp [hnot]
  obtain ⟨hlen, hfirst⟩ := not_or.1 hinvalid
  rw [not_not] at hfirst
  have hafter := le_nulFrom buf.msg (first + 1)
  by_cases hsecond : nulFrom buf.msg (first + 1) < buf.msg.length
  · rw [processLogBuffer_found hlen hsecond]
    have hnot : ¬EndsInTag buf := by
      rintro ⟨-, hlast⟩
      omega
    refine iff_of_true ⟨by simp, ?_⟩ hnot
    intro entry hentry
    obtain rfl := Except.ok.inj hentry
    have hlength : (splitAt buf (nulFrom buf.msg (first + 1)) buf.msg).messageLen =
        nulFrom buf.msg (first + 1) - (first + 1) :=
      messageLen_splitAt buf.msg (by omega) (by omega)
    refine ⟨rfl, ⟨first, hstart, hfirst, getElem?_nulFrom hfirst⟩, ?_, ?_, ?_⟩
    · change first + 1 < _
      omega
    · rw [hlength]
      change _ ≤ buf.msg.length - (first + 1)
      omega
    · rw [hlength]
      change buf.msg[first + 1 + _]? = _
      rw [Nat.add_sub_cancel' hafter]
      exact getElem?_nulFrom hsecond
  · rw [processLogBuffer_forced hlen hfirst hsecond]
    by_cases hends : EndsInTag buf
    · refine iff_of_false ?_ (not_not.2 hends)
      rintro ⟨-, hall⟩
      have hmessage : first + 1 < buf.msg.length := (hall _ rfl).message_lt
      exact hmessage.ne hends.2
    · have hinside : first + 1 < buf.msg.length := by
        rw [EndsInTag] at hends
        omega
      refine iff_of_true ⟨by simp, ?_⟩ hends
      intro entry hentry
      obtain rfl := Except.ok.inj hentry
      have hlength : (splitAt buf (buf.msg.length - 1) (buf.msg.set (buf.msg.length - 1) 0)).messageLen =
          buf.msg.length - 1 - (first + 1) :=
        messageLen_splitAt _ (by omega) (by omega)
      refine ⟨length_set, ⟨first, hstart, hfirst, ?_⟩, hinside, ?_, ?_⟩
      · change (buf.msg.set _ 0)[first]? = _
        rw [getElem?_set_ne (by omega)]
        exact getElem?_nulFrom hfirst
      · change _ ≤ buf.msg.length - (first + 1)
        omega
      · rw [hlength]
        change (buf.msg.set _ 0)[first + 1 + _]? = _
        rw [Nat.add_sub_cancel' (by omega), getElem?_set_self (by omega)]

/-- The payload of a priority and a tag of one byte, with no message. -/
theorem processLogBuffer_wraps :
    ∃ entry, processLogBuffer ⟨0, 0, 0, 0, [4, 65, 0], by decide⟩ = .ok entry ∧ entry.message = 3 ∧
      entry.messageLen = 2 ^ 64 - 1 :=
  ⟨_, rfl, rfl, rfl⟩

end AndroidSystem.Liblog
