import AndroidSystem.Lib.CText
import AndroidSystem.Lib.LittleEndian
import AndroidSystem.Liblog.LogEntry

/-!
# Binary event log entries

A model of `android_log_printBinaryEvent` and `android_log_processBinaryLogBuffer` of
`liblog/logprint.c`. The payload is a tag number and a value: a number, a string, or a list of values.
The text of the value is written into a message buffer. If there is no room for it, the output ends
with `!`.

The four cursors of the source are places in the payload and in the message buffer, with the number of
bytes that are left. A read outside the payload or a write outside the buffer is `outside`. The text of
a `float` is a parameter.
-/

namespace AndroidSystem.Liblog

open CText

/-- The cursors, and the message buffer. -/
structure Cursors where
  eventData : Nat
  eventDataLen : Nat
  outBuf : Nat
  outBufLen : Nat
  buffer : List UInt8
  deriving DecidableEq

/-- Why a binary entry gives no result: the call returns -1, reads or writes outside, its assertion
fails, or the bound on its depth of recursion is too small. -/
inductive Failure where
  | invalid
  | outside
  | assertion
  | depth
  deriving DecidableEq

/-- What `%f` writes for the bits of a `float`. -/
structure FloatFormat where
  text : Nat → List UInt8
  ne_nil : ∀ bits, text bits ≠ []

/-- Bytes of the payload. -/
def readBytes (payload : List UInt8) (place n : Nat) : Except Failure (List UInt8) :=
  if place + n ≤ payload.length then .ok ((payload.drop place).take n) else .error .outside

/-- Write to the message buffer. -/
def put (buffer : List UInt8) (place : Nat) (bytes : List UInt8) : Except Failure (List UInt8) :=
  match writeAt buffer place bytes with
  | some buffer' => .ok buffer'
  | none => .error .outside

/-- `snprintf` with a size: what fits, and a NUL behind it. -/
def snprintf (buffer : List UInt8) (place size : Nat) (text : List UInt8) :
    Except Failure (List UInt8) :=
  if size = 0 then .ok buffer else put buffer place (text.take (size - 1) ++ [0])

/-- The characters `[`, `,`, `]` and `!`. -/
def leftBracket : UInt8 := 91

def comma : UInt8 := 44

def rightBracket : UInt8 := 93

def exclamation : UInt8 := 33

/-! ## Values -/

section

variable (payload : List UInt8)

/-- A number: `width` bytes of data, printed if there is room for it and a NUL. -/
def printNumber (width : Nat) (text : List UInt8 → List UInt8) (s : Cursors) :
    Except Failure (Bool × Cursors) :=
  if s.eventDataLen < width then .error .invalid
  else do
    let bytes ← readBytes payload s.eventData width
    let s := { s with eventData := s.eventData + width, eventDataLen := s.eventDataLen - width }
    let buffer ← snprintf s.buffer s.outBuf s.outBufLen (text bytes)
    let outCount := (text bytes).length
    if outCount < s.outBufLen then
      .ok (false, { s with buffer, outBuf := s.outBuf + outCount, outBufLen := s.outBufLen - outCount })
    else .ok (true, { s with buffer })

/-- A string: what there is room for is copied. -/
def printString (s : Cursors) : Except Failure (Bool × Cursors) :=
  if s.eventDataLen < 4 then .error .invalid
  else do
    let bytes ← readBytes payload s.eventData 4
    let strLen := unle bytes
    let s := { s with eventData := s.eventData + 4, eventDataLen := s.eventDataLen - 4 }
    if s.eventDataLen < strLen then .error .invalid
    else do
      let skip := { s with eventData := s.eventData + strLen, eventDataLen := s.eventDataLen - strLen }
      if strLen < s.outBufLen then do
        let string ← readBytes payload s.eventData strLen
        let buffer ← put s.buffer s.outBuf string
        .ok (false, { skip with
          buffer, outBuf := s.outBuf + strLen, outBufLen := s.outBufLen - strLen })
      else if s.outBufLen > 0 then do
        let string ← readBytes payload s.eventData s.outBufLen
        let buffer ← put s.buffer s.outBuf string
        .ok (true, { s with buffer, outBuf := s.outBuf + s.outBufLen, outBufLen := 0 })
      else .ok (false, skip)

/-- A character, if there is room for it. -/
def printChar (c : UInt8) (s : Cursors) : Except Failure (Bool × Cursors) :=
  if s.outBufLen > 0 then do
    let buffer ← put s.buffer s.outBuf [c]
    .ok (false, { s with buffer, outBuf := s.outBuf + 1, outBufLen := s.outBufLen - 1 })
  else .ok (true, s)

/-- The next step, if there was room for the last one. -/
def whileRoom (r : Except Failure (Bool × Cursors)) (next : Cursors → Except Failure (Bool × Cursors)) :
    Except Failure (Bool × Cursors) :=
  r.bind fun result => if result.1 then .ok result else next result.2

section

variable (item : Cursors → Except Failure (Bool × Cursors))

/-- The loop over the items of a list, with a comma between them. -/
def printItems :
    Nat → Cursors → Except Failure (Bool × Cursors)
  | 0, s => .ok (false, s)
  | n + 1, s =>
    whileRoom (item s) fun s =>
      if n = 0 then .ok (false, s) else whileRoom (printChar comma s) (printItems n)

/-- A list: the number of items, and the items. -/
def printList (s : Cursors) : Except Failure (Bool × Cursors) :=
  if s.eventDataLen < 1 then .error .invalid
  else do
    let count ← readBytes payload s.eventData 1
    let s := { s with eventData := s.eventData + 1, eventDataLen := s.eventDataLen - 1 }
    whileRoom (printChar leftBracket s) fun s =>
      whileRoom (printItems item (unle count) s) (printChar rightBracket)

end

/-- The switch on the type of a value. -/
def printValue (format : FloatFormat)
    (item : Cursors → Except Failure (Bool × Cursors)) (type : Nat) (s : Cursors) :
    Except Failure (Bool × Cursors) :=
  match type with
  | 0 => printNumber payload 4 (fun bytes => decimal (i32 (unle bytes))) s
  | 1 => printNumber payload 8 (fun bytes => decimal (i64 (unle bytes))) s
  | 2 => printString payload s
  | 3 => printList payload item s
  | 4 => printNumber payload 4 (fun bytes => format.text (unle bytes)) s
  | _ => .error .invalid

/-- `android_log_printBinaryEvent`, with a bound on the depth of recursion. The result says whether
there was no room. -/
def printBinaryEvent (format : FloatFormat) :
    Nat → Cursors → Except Failure (Bool × Cursors)
  | 0, _ => .error .depth
  | depth + 1, s =>
    if s.eventDataLen < 1 then .error .invalid
    else do
      let type ← readBytes payload s.eventData 1
      let s := { s with eventData := s.eventData + 1, eventDataLen := s.eventDataLen - 1 }
      printValue payload format (printBinaryEvent format depth) (unle type) s

end

/-! ## Entries -/

/-- An entry made from a binary payload. The tag is a name found in the map, or it is the text at the
start of the message buffer. -/
structure BinaryLogEntry where
  tv_sec : Int
  tv_nsec : Int
  priority : UInt8
  pid : Int
  tid : Int
  tag : Option (List UInt8)
  messageLen : Nat
  message : Nat
  buffer : List UInt8
  deriving DecidableEq

/-- The text that stands for a tag without a name. -/
def tagText (tagIndex : Nat) : List UInt8 := leftBracket :: decimal (i32 tagIndex) ++ [rightBracket]

/-- The tag: a name, or a generated text for which the buffer is shifted down. -/
def chooseTag (lookupEventTag : Nat → Option (List UInt8)) (tagIndex : Nat) (messageBuf : List UInt8) :
    Except Failure (Option (List UInt8) × Nat × List UInt8) :=
  match lookupEventTag tagIndex with
  | some tag => .ok (some tag, 0, messageBuf)
  | none => do
    let buffer ← snprintf messageBuf 0 messageBuf.length (tagText tagIndex)
    .ok (none, (tagText tagIndex).length + 1, buffer)

/-- Leave an indicator if there was no room. -/
def markFull (full : Bool) (message : Nat) (s : Cursors) : Except Failure Cursors :=
  if ¬full then .ok s
  else if s.outBuf > message then do
    let buffer ← put s.buffer (s.outBuf - 1) [exclamation]
    .ok { s with buffer, eventDataLen := 0 }
  else do
    let buffer ← put s.buffer s.outBuf [exclamation]
    .ok { s with
      buffer, outBuf := s.outBuf + 1, outBufLen := s.outBufLen - 1, eventDataLen := 0 }

/-- Eat the silly terminating newline. -/
def eatNewline (payload : List UInt8) (s : Cursors) : Except Failure Cursors :=
  if s.eventDataLen = 1 then do
    let c ← readBytes payload s.eventData 1
    if c = [10] then .ok { s with eventData := s.eventData + 1, eventDataLen := 0 } else .ok s
  else .ok s

/-- `android_log_processBinaryLogBuffer`. `lookupEventTag` is the map of tag names, and gives nothing if
there is no map. -/
def processBinaryLogBuffer (lookupEventTag : Nat → Option (List UInt8))
    (format : FloatFormat) (buf : LoggerEntry) (messageBuf : List UInt8) :
    Except Failure BinaryLogEntry :=
  if buf.msg.length < 4 then .error .invalid
  else do
    let tagBytes ← readBytes buf.msg 0 4
    let (tag, message, buffer) ← chooseTag lookupEventTag (unle tagBytes) messageBuf
    let messageBufLen := (messageBuf.length : Int) - message
    let outRemaining := u64OfInt (messageBufLen - 1)
    let (full, s) ← printBinaryEvent buf.msg format buf.msg.length
      ⟨4, buf.msg.length - 4, message, outRemaining, buffer⟩
    let s ← markFull full message s
    let s ← eatNewline buf.msg s
    let buffer ← put s.buffer s.outBuf [0]
    let messageLen := s.outBuf - message
    if messageLen ≠ u64OfInt (messageBufLen - 1 - s.outBufLen) then .error .assertion
    else .ok { tv_sec := buf.sec, tv_nsec := buf.nsec, priority := 4, pid := buf.pid, tid := buf.tid,
               tag, messageLen, message, buffer }

end AndroidSystem.Liblog
