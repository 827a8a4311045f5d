import AndroidSystem.Liblog.BinaryText

/-!
# The message of a binary event

What `android_log_processBinaryLogBuffer` leaves in a message buffer of at least 16 bytes: the text of
the event, or a proper prefix of it whose last character is `!`. The printer takes a string for which
the room is exactly enough as one that does not fit, and a number of one character as well. The last
character of such a text is lost although nothing had to be cut, and these are the only cases.
-/

namespace AndroidSystem.Liblog

open CText List Option

/-- A message buffer. Its size is an `int`. -/
structure MessageBuffer where
  bytes : List UInt8
  length_ge : 16 ≤ bytes.length
  length_lt : bytes.length < 2 ^ 31

variable {lookupEventTag : Nat → Option (List UInt8)} {format : FloatFormat} {buf : LoggerEntry}
  {messageBuf : MessageBuffer}

/-- The text of the event in an entry. -/
def eventText (format : FloatFormat) (buf : LoggerEntry) : Rendering :=
  renderEvent format buf.msg.length (buf.msg.drop 4)

section

variable (lookupEventTag : Nat → Option (List UInt8)) (buf : LoggerEntry)

/-- Where the message starts: behind a generated tag, or at the start of the buffer. -/
def messagePlace : Nat :=
  match lookupEventTag (unle (buf.msg.take 4)) with
  | some _ => 0
  | none => (tagText (unle (buf.msg.take 4))).length + 1

/-- The room for the message, without its NUL. -/
def messageRoom (messageBuf : MessageBuffer) : Nat :=
  messageBuf.bytes.length - messagePlace lookupEventTag buf - 1

end

/-- A string with exactly as many bytes as there is room for, or a number of one character in a room of
one byte. -/
def FillsRoom (format : FloatFormat) (buf : LoggerEntry) (room : Nat) : Prop :=
  ((buf.msg.drop 4).head? = some 2 ∨ room = 1 ∧ (buf.msg.drop 4).head? ≠ some 3) ∧
    (eventText format buf).2 ≠ none ∧ (eventText format buf).1.length = room

/-! ## The tag -/

theorem length_tagText (tagIndex : Nat) : (tagText tagIndex).length ≤ 13 := by
  have hdigits : (i32 tagIndex).natAbs < 10 ^ 10 := by
    unfold i32
    split_ifs <;> omega
  have hlength := length_decimal_le (by norm_num) hdigits
  rw [tagText, length_append, length_cons, length_singleton]
  omega

section

variable (lookupEventTag : Nat → Option (List UInt8))

section

variable (buf : LoggerEntry)

theorem messagePlace_le : messagePlace lookupEventTag buf ≤ 14 := by
  rw [messagePlace]
  split
  · exact Nat.zero_le _
  · exact Nat.succ_le_succ (length_tagText _)

section

variable (messageBuf : MessageBuffer)

theorem messageRoom_pos : 0 < messageRoom lookupEventTag buf messageBuf := by
  have hplace := messagePlace_le lookupEventTag buf
  have hsize := messageBuf.length_ge
  rw [messageRoom]
  omega

theorem messagePlace_add_room : messagePlace lookupEventTag buf +
      messageRoom lookupEventTag buf messageBuf + 1 = messageBuf.bytes.length := by
  have hplace := messagePlace_le lookupEventTag buf
  have hsize := messageBuf.length_ge
  rw [messageRoom]
  omega

theorem chooseTag_eq :
    ∃ tag buffer, chooseTag lookupEventTag (unle (buf.msg.take 4)) messageBuf.bytes =
        .ok (tag, messagePlace lookupEventTag buf, buffer) ∧
      buffer.length = messageBuf.bytes.length := by
  have hsize := messageBuf.length_ge
  have htag := length_tagText (unle (buf.msg.take 4))
  rw [chooseTag, messagePlace]
  cases lookupEventTag (unle (buf.msg.take 4)) with
  | some tag => exact ⟨some tag, messageBuf.bytes, rfl, rfl⟩
  | none =>
    obtain ⟨buffer, hwrite, hwrote⟩ := writeAt_eq messageBuf.bytes 0
      (tagText (unle (buf.msg.take 4)) ++ [0]) (by rw [length_append, length_singleton]; omega)
    refine ⟨none, buffer, ?_, hwrote.length_eq⟩
    have htake : (tagText (unle (buf.msg.take 4))).take (messageBuf.bytes.length - 1) =
        tagText (unle (buf.msg.take 4)) := take_of_length_le (by omega)
    simp only [snprintf, if_neg (show messageBuf.bytes.length ≠ 0 by omega), htake, put, hwrite,
      ok_bind]

end

end

end

/-! ## The outcome of printing -/

/-- What printing the event of an entry can do to the cursors, with at least one byte of room. `exact`
says that the text fills the room. -/
inductive Outcome (r : Rendering) (exact : Prop) (s : Cursors) :
    Except Failure (Bool × Cursors) → Prop
  | invalid : r.2 = none → Outcome r exact s (.error .invalid)
  | done {s' : Cursors} : Printed s s' r.1 → r.2 ≠ none → ¬exact → Outcome r exact s (.ok (false, s'))
  | full {s' : Cursors} {w : List UInt8} : Printed s s' w → w <+: r.1 → w ≠ r.1 →
      (w = [] → 1 < r.1.length) → ¬exact → Outcome r exact s (.ok (true, s'))
  | filled {s' : Cursors} {w : List UInt8} : Printed s s' w → w.dropLast = r.1.dropLast →
      r.1 ≠ [] → exact → Outcome r exact s (.ok (true, s'))

section

variable {payload : List UInt8} {s : Cursors}

section

variable (hs : s.Inside payload) (hroom : 0 < s.outBufLen)
include hs hroom

theorem outcome_printNumber (width : Nat)
    {text : List UInt8 → List UInt8} (htext : ∀ bytes, text bytes ≠ []) :
    Outcome (renderNumber width text (payload.drop s.eventData))
      (s.outBufLen = 1 ∧ (renderNumber width text (payload.drop s.eventData)).2 ≠ none ∧
        (renderNumber width text (payload.drop s.eventData)).1.length = s.outBufLen) s
      (printNumber payload width text s) := by
  rw [renderNumber, hs.length_drop]
  obtain ⟨hlen, hprint⟩ | ⟨hlen, s', hdata, ⟨hfits, hprint, hprinted⟩ | ⟨hfits, hprint, hprinted⟩⟩ :=
    printNumber_cases hs width text
  · rw [hprint, if_pos hlen]
    exact .invalid rfl
  · rw [hprint, if_neg hlen]
    refine .done hprinted (some_ne_none _) ?_
    rintro ⟨-, -, heq⟩
    exact absurd heq hfits.ne
  · rw [hprint, if_neg hlen]
    have hne := htext ((payload.drop s.eventData).take width)
    by_cases hone : (text ((payload.drop s.eventData).take width)).length = 1
    · refine .filled hprinted ?_ hne ⟨by omega, some_ne_none _, ?_⟩
      · exact (eq_nil_of_length_eq_zero (by rw [length_dropLast, hone])).symm
      · change (text ((payload.drop s.eventData).take width)).length = s.outBufLen
        omega
    · refine .full hprinted nil_prefix hne.symm ?_ ?_
      · intro _
        change 1 < (text ((payload.drop s.eventData).take width)).length
        omega
      · rintro ⟨hroom', -, heq⟩
        exact hone (heq.trans hroom')

theorem outcome_printString :
    Outcome (renderString (payload.drop s.eventData))
      ((renderString (payload.drop s.eventData)).2 ≠ none ∧
        (renderString (payload.drop s.eventData)).1.length = s.outBufLen) s
      (printString payload s) := by
  obtain ⟨hrender, hprint⟩ | ⟨string, s', hrender, hcases⟩ := printString_cases hs
  · rw [hrender, hprint]
    exact .invalid rfl
  · rw [hrender]
    obtain ⟨hfits, hprint, -, hprinted⟩ | ⟨hfits, -, hprint, hprinted⟩ | ⟨hzero, -, -, -⟩ := hcases
    · rw [hprint]
      refine .done hprinted (some_ne_none _) ?_
      rintro ⟨-, heq⟩
      exact absurd heq hfits.ne
    · rw [hprint]
      by_cases hexact : string.length = s.outBufLen
      · rw [← hexact, take_length] at hprinted
        refine .filled hprinted rfl ?_ ⟨some_ne_none _, hexact⟩
        exact length_pos_iff.1 (by rw [hexact]; exact hroom)
      · have hlength : (string.take s.outBufLen).length = s.outBufLen :=
          length_take_of_le (not_lt.1 hfits)
        refine .full hprinted ⟨_, take_append_drop _ _⟩ ?_ ?_ fun hfill => hexact hfill.2
        · intro heq
          exact hexact (by rw [← hlength, heq])
        · intro hnil
          rw [hnil] at hlength
          exact absurd hlength hroom.ne
    · exact absurd hzero hroom.ne'

theorem outcome_printList {item : List UInt8 → Rendering} {itemP : Cursors → Except Failure (Bool × Cursors)}
    (hitem : ∀ s', s'.Inside payload → s'.eventDataLen ≤ s.eventDataLen →
      Follows payload (item (payload.drop s'.eventData)) s' (itemP s')) :
    Outcome (renderList item (payload.drop s.eventData)) False s (printList payload itemP s) := by
  obtain ⟨hdata, hprint⟩ | ⟨r, s1, hrender, hskip, ⟨hzero, -⟩ | ⟨s2, hchar, hstrictly⟩⟩ :=
    strictly_printList hs hitem
  · rw [hdata, hprint]
    exact .invalid rfl
  · exact absurd hzero hroom.ne'
  · rw [hrender]
    have hbegin := hskip.trans hchar
    generalize printList payload itemP s = res at hstrictly ⊢
    cases hstrictly with
    | invalid hnone => exact .invalid hnone
    | done hprinted hrest =>
      refine .done (hbegin.trans hprinted) ?_ not_false
      rw [hrest]
      exact some_ne_none _
    | full hprinted hpre hne =>
      refine .full (hbegin.trans hprinted) ((prefix_append_right_inj [leftBracket]).2 hpre) ?_ ?_
        not_false
      · intro heq
        exact hne (append_cancel_left heq)
      · intro hnil
        exact absurd hnil (cons_ne_nil _ _)

end

end

theorem Outcome.congr {r : Rendering} {p q : Prop} {s s' : Cursors}
    {res : Except Failure (Bool × Cursors)} (h : Outcome r p s' res) (hskip : Printed s s' [])
    (hiff : p ↔ q) : Outcome r q s res := by
  rw [← hiff]
  cases h with
  | invalid hnone => exact .invalid hnone
  | done hprinted hrest hexact => exact .done (hskip.trans hprinted) hrest hexact
  | full hprinted hpre hne hlength hexact => exact .full (hskip.trans hprinted) hpre hne hlength hexact
  | filled hprinted hlast hne hexact => exact .filled (hskip.trans hprinted) hlast hne hexact

theorem outcome_printBinaryEvent (format : FloatFormat) (buf : LoggerEntry)
    (hlen : 4 ≤ buf.msg.length) {message room : Nat} {buffer : List UInt8} (hroom : 0 < room)
    (hout : message + room < buffer.length) :
    Outcome (eventText format buf) (FillsRoom format buf room)
      ⟨4, buf.msg.length - 4, message, room, buffer⟩
      (printBinaryEvent buf.msg format buf.msg.length
        ⟨4, buf.msg.length - 4, message, room, buffer⟩) := by
  set s : Cursors := ⟨4, buf.msg.length - 4, message, room, buffer⟩ with hcursors
  have hs : s.Inside buf.msg := ⟨Nat.add_sub_cancel' hlen, hout⟩
  obtain ⟨depth, hdepth⟩ : ∃ depth, buf.msg.length = depth + 1 := ⟨buf.msg.length - 1, by omega⟩
  rw [FillsRoom, eventText, hdepth]
  cases hdata : buf.msg.drop 4 with
  | nil =>
    rw [printBinaryEvent_nil format depth hs hdata]
    exact .invalid rfl
  | cons type data =>
    obtain ⟨s1, hskip, hrest, hlen1, hprint⟩ := printBinaryEvent_cons format depth hs hdata
    have hs1 := hskip.inside hs
    have hroom1 : s1.outBufLen = room := hskip.outBufLen_eq
    have htype : ∀ n : UInt8, type = n ↔ type.toNat = n.toNat := by
      intro n
      exact UInt8.toNat_inj.symm
    rw [hprint, renderEvent, ← hrest, ← hroom1, head?_cons, ne_eq, some_inj, some_inj,
      htype 2, htype 3]
    rw [← hroom1] at hroom
    rcases type.toNat with _ | _ | _ | _ | _ | type'
    · refine (outcome_printNumber hs1 hroom 4
        fun bytes => decimal_ne_nil (i32 (unle bytes))).congr hskip ?_
      simp [renderValue]
    · refine (outcome_printNumber hs1 hroom 8
        fun bytes => decimal_ne_nil (i64 (unle bytes))).congr hskip ?_
      simp [renderValue]
    · refine (outcome_printString hs1 hroom).congr hskip ?_
      simp [renderValue]
    · refine (outcome_printList hs1 hroom ?_).congr hskip ?_
      · intro s' hs' hle
        refine follows_printBinaryEvent format depth hs' ?_
        have hlen' : s.eventDataLen = buf.msg.length - 4 := rfl
        omega
      · simp
    · refine (outcome_printNumber hs1 hroom 4 fun _ => format.ne_nil _).congr hskip ?_
      simp [renderValue]
    · exact .invalid rfl

/-! ## The end of the message -/

/-- A text stands at the place of the message, up to the cursor. -/
structure Ended (message room size : Nat) (s : Cursors) (text : List UInt8) : Prop where
  length_eq : s.buffer.length = size
  outBuf_eq : s.outBuf = message + text.length
  outBufLen_eq : s.outBufLen + text.length = room
  text_eq : (s.buffer.take s.outBuf).drop message = text

section

variable {message room size : Nat} {s s' : Cursors} {text w : List UInt8}

theorem Printed.ended (h : Printed s s' w) (hsize : s.buffer.length = size) (hout : s.outBuf ≤ size) :
    Ended s.outBuf s.outBufLen size s' w where
  length_eq := h.buffer_length.trans hsize
  outBuf_eq := h.outBuf_eq
  outBufLen_eq := h.outBufLen_eq
  text_eq := by
    rw [h.take_eq]
    exact drop_left' (length_take_of_le (by omega))

section

variable (h : Ended message room size s text)
include h

theorem Ended.markFull_eq (hroom : 0 < room) (hsize : message + room < size) :
    ∃ s', markFull true message s = .ok s' ∧ s'.eventDataLen = 0 ∧
      Ended message room size s' (text.dropLast ++ [exclamation]) := by
  obtain ⟨hlength, hout, hlen, htext⟩ := h
  rw [markFull, if_neg (by simp)]
  cases text with
  | nil =>
    rw [length_nil] at hout hlen
    obtain ⟨buffer, hwrite, hwrote⟩ := writeAt_eq s.buffer s.outBuf [exclamation]
      (by rw [length_singleton]; omega)
    rw [if_neg (by omega), put, hwrite]
    refine ⟨_, rfl, rfl, hwrote.length_eq.trans hlength, ?_, ?_, ?_⟩
    · change s.outBuf + 1 = message + 1
      omega
    · change s.outBufLen - 1 + 1 = room
      omega
    · have htake := hwrote.take_eq
      rw [length_singleton] at htake
      rw [htake]
      exact drop_left' (by rw [length_take_of_le (by omega)]; exact hout)
  | cons c cs =>
    rw [length_cons] at hout hlen
    obtain ⟨buffer, hwrite, hwrote⟩ := writeAt_eq s.buffer (s.outBuf - 1) [exclamation]
      (by rw [length_singleton]; omega)
    have hmarked : ((c :: cs).dropLast ++ [exclamation]).length = cs.length + 1 := by
      rw [length_append, length_dropLast]
      rfl
    rw [if_pos (by omega), put, hwrite]
    refine ⟨_, rfl, rfl, hwrote.length_eq.trans hlength, ?_, ?_, ?_⟩
    · rw [hmarked]
      exact hout
    · rw [hmarked]
      exact hlen
    · have htake := hwrote.take_eq
      rw [length_singleton, Nat.sub_add_cancel (by omega)] at htake
      have hbefore : (s.buffer.take (s.outBuf - 1)).drop message = (c :: cs).dropLast := by
        rw [← htext, dropLast_eq_take, htext, ← htext, take_drop, take_take]
        congr 2
        rw [htext, length_cons]
        omega
      rw [htake, drop_append_of_le_length, hbefore]
      rw [length_take_of_le (by omega)]
      omega

theorem Ended.eatNewline_eq {payload : List UInt8}
    (hdata : s.eventDataLen = 0 ∨ s.eventData + s.eventDataLen = payload.length) :
    ∃ s', eatNewline payload s = .ok s' ∧ Ended message room size s' text := by
  rw [eatNewline]
  by_cases hone : s.eventDataLen = 1
  · rw [if_pos hone, readBytes, if_pos (by omega), ok_bind]
    split_ifs
    · exact ⟨_, rfl, h.length_eq, h.outBuf_eq, h.outBufLen_eq, h.text_eq⟩
    · exact ⟨s, rfl, h⟩
  · rw [if_neg hone]
    exact ⟨s, rfl, h⟩

theorem Ended.put_nul (hsize : message + room < size) :
    ∃ buffer, put s.buffer s.outBuf [0] = .ok buffer ∧ buffer.length = size ∧
      buffer[message + text.length]? = some 0 ∧ (buffer.drop message).take text.length = text := by
  obtain ⟨hlength, hout, hlen, htext⟩ := h
  obtain ⟨buffer, hwrite, hwrote⟩ := writeAt_eq s.buffer s.outBuf [0]
    (by rw [length_singleton]; omega)
  refine ⟨buffer, by rw [put, hwrite], hwrote.length_eq.trans hlength, ?_, ?_⟩
  · rw [← hout]
    exact hwrote.getElem? (by omega) one_pos
  · rw [take_drop, ← hout, hwrote.take_pos (by omega), htext]

end

end

/-! ## Whole calls -/

/-- The message is NUL-terminated, and it is the text of the event or a proper prefix of it with `!` as
its last character. -/
structure ShowsEvent (r : Rendering) (size : Nat) (entry : BinaryLogEntry) : Prop where
  length_eq : entry.buffer.length = size
  terminated : entry.buffer[entry.message + entry.messageLen]? = some 0
  text : r.2 ≠ none ∧ (entry.buffer.drop entry.message).take entry.messageLen = r.1 ∨
    ∃ p, p <+: r.1 ∧ p ≠ r.1 ∧ p ≠ [] ∧
      (entry.buffer.drop entry.message).take entry.messageLen = p.dropLast ++ [exclamation]

/-- A call without an access outside the payload or the buffer and without a failing assertion. It
fails only for malformed data, and otherwise the message shows the event. -/
def RendersEvent (lookupEventTag : Nat → Option (List UInt8)) (format : FloatFormat)
    (buf : LoggerEntry) (messageBuf : MessageBuffer) : Prop :=
  match processBinaryLogBuffer lookupEventTag format buf messageBuf.bytes with
  | .error e => e = .invalid ∧ (eventText format buf).2 = none
  | .ok entry => ShowsEvent (eventText format buf) messageBuf.bytes.length entry

/-- What a call leaves in the buffer. -/
structure Leaves (size : Nat) (text : List UInt8) (entry : BinaryLogEntry) : Prop where
  length_eq : entry.buffer.length = size
  terminated : entry.buffer[entry.message + entry.messageLen]? = some 0
  text_eq : (entry.buffer.drop entry.message).take entry.messageLen = text

section

variable {tag : Option (List UInt8)} {buffer : List UInt8} {message room : Nat}

variable (hplace : message + room + 1 = messageBuf.bytes.length)
include hplace

theorem u64OfInt_room {k : Nat} (hk : k ≤ room) :
    u64OfInt ((messageBuf.bytes.length : Int) - message - 1 - k) = room - k := by
  have hsize := messageBuf.length_lt
  unfold u64OfInt
  omega

theorem u64OfInt_outRemaining : u64OfInt ((messageBuf.bytes.length : Int) - message - 1) = room := by
  have hroom := u64OfInt_room hplace (Nat.zero_le _)
  rwa [Nat.cast_zero, sub_zero, Nat.sub_zero] at hroom

variable (hlen : ¬buf.msg.length < 4) (hchoose : chooseTag lookupEventTag (unle (buf.msg.take 4))
    messageBuf.bytes = .ok (tag, message, buffer))
include hlen hchoose

theorem processBinaryLogBuffer_error {e : Failure}
    (hprint : printBinaryEvent buf.msg format buf.msg.length
      ⟨4, buf.msg.length - 4, message, room, buffer⟩ = .error e) :
    processBinaryLogBuffer lookupEventTag format buf messageBuf.bytes = .error e := by
  have hroom := u64OfInt_outRemaining hplace
  rw [processBinaryLogBuffer, if_neg hlen, readBytes, if_pos (by omega), drop_zero, ok_bind, hchoose]
  simp only [ok_bind, hroom, hprint, error_bind]

/-- A call whose event was printed: the assertion holds, and the text is left in the buffer. -/
theorem processBinaryLogBuffer_ok {full : Bool} {s s' : Cursors}
    (hprint : printBinaryEvent buf.msg format buf.msg.length
      ⟨4, buf.msg.length - 4, message, room, buffer⟩ = .ok (full, s))
    (hmark : markFull full message s = .ok s')
    (hdata : s'.eventDataLen = 0 ∨ s'.eventData + s'.eventDataLen = buf.msg.length)
    {text : List UInt8} (hended : Ended message room messageBuf.bytes.length s' text) :
    ∃ entry, processBinaryLogBuffer lookupEventTag format buf messageBuf.bytes = .ok entry ∧
      Leaves messageBuf.bytes.length text entry := by
  have hroom := u64OfInt_outRemaining hplace
  obtain ⟨s1, heat, hended1⟩ := hended.eatNewline_eq hdata
  obtain ⟨buffer', hput, hlength, hnul, htext⟩ := hended1.put_nul (by omega)
  have hout := hended1.outBuf_eq
  have hleft := hended1.outBufLen_eq
  have hassert : s1.outBuf - message =
      u64OfInt ((messageBuf.bytes.length : Int) - message - 1 - s1.outBufLen) := by
    rw [u64OfInt_room hplace (by omega)]
    omega
  have hlen' : s1.outBuf - message = text.length := by omega
  rw [processBinaryLogBuffer, if_neg hlen, readBytes, if_pos (by omega), drop_zero, ok_bind, hchoose]
  simp only [ok_bind, hroom, hprint, hmark, heat, hput]
  rw [if_neg (not_not.2 hassert)]
  refine ⟨_, rfl, hlength, ?_, ?_⟩
  · simp only [hlen', hnul]
  · simp only [hlen', htext]

end

/-- A proper prefix that is not empty. If no room was used, it is the first character. -/
theorem exists_marked {w text : List UInt8} (hpre : w <+: text) (hne : w ≠ text)
    (hlength : w = [] → 1 < text.length) :
    ∃ p, p <+: text ∧ p ≠ text ∧ p ≠ [] ∧ w.dropLast ++ [exclamation] = p.dropLast ++ [exclamation] := by
  by_cases hnil : w = []
  · have hlong := hlength hnil
    have htake : (text.take 1).length = 1 := length_take_of_le hlong.le
    refine ⟨text.take 1, take_prefix _ _, ?_, ?_, ?_⟩
    · intro heq
      rw [heq] at htake
      omega
    · exact length_pos_iff.1 (by omega)
    · have hlast : (text.take 1).dropLast = [] :=
        eq_nil_of_length_eq_zero (by rw [length_dropLast, htake])
      rw [hnil, hlast, dropLast_nil]
  · exact ⟨w, hpre, hne, hnil, rfl⟩

section

variable (lookupEventTag : Nat → Option (List UInt8)) (format : FloatFormat) (buf : LoggerEntry)
  (messageBuf : MessageBuffer)

theorem processBinaryLogBuffer_cases :
    (processBinaryLogBuffer lookupEventTag format buf messageBuf.bytes = .error .invalid ∧
      (eventText format buf).2 = none) ∨
    ∃ entry text, processBinaryLogBuffer lookupEventTag format buf messageBuf.bytes = .ok entry ∧
      Leaves messageBuf.bytes.length text entry ∧
      (((text = (eventText format buf).1 ∧ (eventText format buf).2 ≠ none ∨
          ∃ p, p <+: (eventText format buf).1 ∧ p ≠ (eventText format buf).1 ∧ p ≠ [] ∧
            text = p.dropLast ++ [exclamation]) ∧
          ¬FillsRoom format buf (messageRoom lookupEventTag buf messageBuf)) ∨
        text = (eventText format buf).1.dropLast ++ [exclamation] ∧ (eventText format buf).1 ≠ [] ∧
          FillsRoom format buf (messageRoom lookupEventTag buf messageBuf)) := by
  by_cases hlen : buf.msg.length < 4
  · left
    refine ⟨by rw [processBinaryLogBuffer, if_pos hlen], ?_⟩
    rw [eventText, drop_eq_nil_of_le hlen.le]
    cases buf.msg.length <;> rfl
  obtain ⟨tag, buffer, hchoose, hsize⟩ := chooseTag_eq lookupEventTag buf messageBuf
  have hplace := messagePlace_add_room lookupEventTag buf messageBuf
  have hroom := messageRoom_pos lookupEventTag buf messageBuf
  generalize messagePlace lookupEventTag buf = message at *
  generalize messageRoom lookupEventTag buf messageBuf = room at *
  have houtcome := outcome_printBinaryEvent format buf (not_lt.1 hlen) hroom
    (show message + room < buffer.length by omega)
  have hended {s' : Cursors} {w : List UInt8}
      (hprinted : Printed ⟨4, buf.msg.length - 4, message, room, buffer⟩ s' w) :
      Ended message room messageBuf.bytes.length s' w :=
    hprinted.ended hsize (show message ≤ _ by omega)
  generalize hprint : printBinaryEvent buf.msg format buf.msg.length _ = res at houtcome
  cases houtcome with
  | invalid hnone => exact .inl ⟨processBinaryLogBuffer_error hplace hlen hchoose hprint, hnone⟩
  | @done s' hprinted hrest hfill =>
    obtain ⟨entry, hprocess, hleaves⟩ := processBinaryLogBuffer_ok hplace hlen hchoose hprint rfl
      (.inr (hprinted.data_eq.trans (Nat.add_sub_cancel' (not_lt.1 hlen)))) (hended hprinted)
    exact .inr ⟨entry, _, hprocess, hleaves, .inl ⟨.inl ⟨rfl, hrest⟩, hfill⟩⟩
  | @full s' w hprinted hpre hne hlength hfill =>
    obtain ⟨s1, hmark, hzero, hmarked⟩ := (hended hprinted).markFull_eq hroom (by omega)
    obtain ⟨entry, hprocess, hleaves⟩ :=
      processBinaryLogBuffer_ok hplace hlen hchoose hprint hmark (.inl hzero) hmarked
    exact .inr ⟨entry, _, hprocess, hleaves, .inl ⟨.inr (exists_marked hpre hne hlength), hfill⟩⟩
  | @filled s' w hprinted hlast hne hfill =>
    obtain ⟨s1, hmark, hzero, hmarked⟩ := (hended hprinted).markFull_eq hroom (by omega)
    obtain ⟨entry, hprocess, hleaves⟩ :=
      processBinaryLogBuffer_ok hplace hlen hchoose hprint hmark (.inl hzero) hmarked
    exact .inr ⟨entry, _, hprocess, hleaves, .inr ⟨by rw [hlast], hne, hfill⟩⟩

/-- The text of the event fills the room, and does not end with `!`. -/
def LosesCharacter : Prop :=
  FillsRoom format buf (messageRoom lookupEventTag buf messageBuf) ∧
    (eventText format buf).1.getLast? ≠ some exclamation

end

theorem LosesCharacter.not_renders (h : LosesCharacter lookupEventTag format buf messageBuf) :
    ¬RendersEvent lookupEventTag format buf messageBuf := by
  obtain ⟨hprocess, hnone⟩ | ⟨entry, text, hprocess, hleaves, ⟨-, hfill⟩ | ⟨htext, hne, -⟩⟩ :=
    processBinaryLogBuffer_cases lookupEventTag format buf messageBuf
  · exact absurd hnone h.1.2.1
  · exact absurd h.1 hfill
  · rw [RendersEvent, hprocess]
    rintro ⟨-, -, hshown⟩
    rw [hleaves.text_eq, htext] at hshown
    obtain ⟨-, heq⟩ | ⟨p, hpre, hproper, hp, heq⟩ := hshown
    · refine h.2 ?_
      rw [← heq, getLast?_append]
      rfl
    · have hlength := congrArg length heq
      have hpos := length_pos_iff.2 hne
      have hppos := length_pos_iff.2 hp
      simp only [length_append, length_dropLast] at hlength
      exact hproper (hpre.eq_of_length (by omega))

/-- **Every event is rendered or cut, except for those that fill the room exactly.** -/
theorem processBinaryLogBuffer_renders_iff (lookupEventTag : Nat → Option (List UInt8))
    (format : FloatFormat) (buf : LoggerEntry) (messageBuf : MessageBuffer) :
    RendersEvent lookupEventTag format buf messageBuf ↔
      ¬LosesCharacter lookupEventTag format buf messageBuf := by
  refine ⟨fun hrenders hloses => hloses.not_renders hrenders, ?_⟩
  intro hloses
  rw [RendersEvent]
  obtain ⟨hprocess, hnone⟩ | ⟨entry, text, hprocess, hleaves, ⟨htext, -⟩ | ⟨htext, -, hfill⟩⟩ :=
    processBinaryLogBuffer_cases lookupEventTag format buf messageBuf
  · rw [hprocess]
    exact ⟨rfl, hnone⟩
  · rw [hprocess]
    refine ⟨hleaves.length_eq, hleaves.terminated, ?_⟩
    rw [hleaves.text_eq]
    exact htext.imp_left And.symm
  · rw [hprocess]
    refine ⟨hleaves.length_eq, hleaves.terminated, .inl ⟨hfill.2.1, ?_⟩⟩
    have hlast : (eventText format buf).1.getLast? = some exclamation := by
      by_contra hlast
      exact hloses ⟨hfill, hlast⟩
    rw [hleaves.text_eq, htext]
    exact dropLast_append_getLast? _ hlast

/-- A format for numbers that are not there. -/
def zeroFormat : FloatFormat where
  text _ := [48]
  ne_nil _ := cons_ne_nil _ _

/-- An event with a string of 15 bytes. -/
def stringEntry : LoggerEntry where
  pid := 1
  tid := 1
  sec := 0
  nsec := 0
  msg := [1, 0, 0, 0, 2, 15, 0, 0, 0] ++ replicate 15 97
  len_lt := by decide

/-- A message buffer of 16 bytes. -/
def smallBuffer : MessageBuffer where
  bytes := replicate 16 0
  length_ge := by decide
  length_lt := by decide

/-- The string and its NUL fit into the buffer, and the last character is lost. -/
theorem processBinaryLogBuffer_loses_character :
    (eventText zeroFormat stringEntry).1 = replicate 15 97 ∧
    (processBinaryLogBuffer (fun _ => some []) zeroFormat stringEntry smallBuffer.bytes).map
        BinaryLogEntry.buffer = .ok (replicate 14 97 ++ [33, 0]) ∧
    ¬RendersEvent (fun _ => some []) zeroFormat stringEntry smallBuffer := by
  refine ⟨by decide, by decide, LosesCharacter.not_renders ⟨⟨.inl rfl, ?_, ?_⟩, ?_⟩⟩ <;> decide

end AndroidSystem.Liblog
