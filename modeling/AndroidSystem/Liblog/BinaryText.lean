import AndroidSystem.Liblog.BinaryEvent

/-!
# The text of a binary event

`renderEvent` is the text of a value with any room, and says where the data of the value ends. If the
data is cut short, it is the text of the part before that. The printer writes this text, or a prefix of
it if there is no room. It stops at the first character for which there is no room, except that a string
is passed over without a word if there is no room at all. Inside a list the next character then has no
room either.
-/

namespace AndroidSystem.Liblog

open CText List

/-! ## Rendering -/

/-- A text, and the data behind the value. -/
abbrev Rendering : Type := List UInt8 × Option (List UInt8)

variable {item : List UInt8 → Rendering} {itemP : Cursors → Except Failure (Bool × Cursors)}
  {text : List UInt8}

def renderNumber (width : Nat) (text : List UInt8 → List UInt8) (data : List UInt8) : Rendering :=
  if data.length < width then ([], none) else (text (data.take width), some (data.drop width))

def renderString (data : List UInt8) : Rendering :=
  if data.length < 4 then ([], none)
  else if (data.drop 4).length < unle (data.take 4) then ([], none)
  else ((data.drop 4).take (unle (data.take 4)), some ((data.drop 4).drop (unle (data.take 4))))

/-- One text after the other, as long as there is data. -/
def Rendering.andThen (r : Rendering) (next : List UInt8 → Rendering) : Rendering :=
  match r.2 with
  | none => r
  | some data => (r.1 ++ (next data).1, (next data).2)

def renderChar (c : UInt8) (data : List UInt8) : Rendering := ([c], some data)

def renderItems (item : List UInt8 → Rendering) : Nat → List UInt8 → Rendering
  | 0, data => ([], some data)
  | n + 1, data =>
    (item data).andThen fun data =>
      if n = 0 then ([], some data) else (renderChar comma data).andThen (renderItems item n)

def renderList (item : List UInt8 → Rendering) (data : List UInt8) : Rendering :=
  match data with
  | [] => ([], none)
  | count :: data =>
    (renderChar leftBracket data).andThen fun data =>
      (renderItems item count.toNat data).andThen (renderChar rightBracket)

def renderValue (format : FloatFormat) (item : List UInt8 → Rendering) (type : Nat)
    (data : List UInt8) : Rendering :=
  match type with
  | 0 => renderNumber 4 (fun bytes => decimal (i32 (unle bytes))) data
  | 1 => renderNumber 8 (fun bytes => decimal (i64 (unle bytes))) data
  | 2 => renderString data
  | 3 => renderList item data
  | 4 => renderNumber 4 (fun bytes => format.text (unle bytes)) data
  | _ => ([], none)

/-- The text of the value at the head of the data. -/
def renderEvent (format : FloatFormat) : Nat → List UInt8 → Rendering
  | 0, _ => ([], none)
  | _ + 1, [] => ([], none)
  | depth + 1, type :: data => renderValue format (renderEvent format depth) type.toNat data

/-! ## Cursors -/

/-- The cursors are inside the payload and the buffer, with one byte left for a NUL. -/
structure Cursors.Inside (payload : List UInt8) (s : Cursors) : Prop where
  data_eq : s.eventData + s.eventDataLen = payload.length
  out_lt : s.outBuf + s.outBufLen < s.buffer.length

/-- What was written between two states of the cursors. -/
structure Printed (s s' : Cursors) (w : List UInt8) : Prop where
  data_eq : s'.eventData + s'.eventDataLen = s.eventData + s.eventDataLen
  data_le : s.eventData ≤ s'.eventData
  buffer_length : s'.buffer.length = s.buffer.length
  outBuf_eq : s'.outBuf = s.outBuf + w.length
  outBufLen_eq : s'.outBufLen + w.length = s.outBufLen
  take_eq : s'.buffer.take s'.outBuf = s.buffer.take s.outBuf ++ w

section

variable {payload : List UInt8} {s s' s'' : Cursors} {w w' : List UInt8}

theorem Printed.inside (h : Printed s s' w) (hs : s.Inside payload) : s'.Inside payload := by
  obtain ⟨hdata, hout⟩ := hs
  have hlen := h.outBufLen_eq
  refine ⟨h.data_eq.trans hdata, ?_⟩
  rw [h.outBuf_eq, h.buffer_length]
  omega

theorem Printed.refl (s : Cursors) : Printed s s [] :=
  ⟨rfl, le_rfl, rfl, rfl, rfl, (append_nil _).symm⟩

theorem Printed.trans (h : Printed s s' w) (h' : Printed s' s'' w') : Printed s s'' (w ++ w') where
  data_eq := h'.data_eq.trans h.data_eq
  data_le := h.data_le.trans h'.data_le
  buffer_length := h'.buffer_length.trans h.buffer_length
  outBuf_eq := by rw [h'.outBuf_eq, h.outBuf_eq, length_append, add_assoc]
  outBufLen_eq := by
    have h1 := h.outBufLen_eq
    have h2 := h'.outBufLen_eq
    rw [length_append]
    omega
  take_eq := by rw [h'.take_eq, h.take_eq, append_assoc]

/-! ## Reading and writing inside -/

section

variable (hs : s.Inside payload)
include hs

theorem Cursors.Inside.readBytes_eq {n : Nat} (hn : ¬s.eventDataLen < n) :
    readBytes payload s.eventData n = .ok ((payload.drop s.eventData).take n) := by
  have := hs.data_eq
  rw [readBytes, if_pos (by omega)]

theorem Cursors.Inside.length_drop : (payload.drop s.eventData).length = s.eventDataLen := by
  have := hs.data_eq
  rw [List.length_drop]
  omega

theorem Cursors.Inside.skip {n : Nat} (hn : ¬s.eventDataLen < n) :
    Printed s { s with eventData := s.eventData + n, eventDataLen := s.eventDataLen - n } [] where
  data_eq := by
    have := hs.data_eq
    simp only
    omega
  data_le := Nat.le_add_right _ _
  buffer_length := rfl
  outBuf_eq := rfl
  outBufLen_eq := rfl
  take_eq := (append_nil _).symm

theorem Cursors.Inside.put_eq (hw : w.length ≤ s.outBufLen) :
    ∃ buffer, put s.buffer s.outBuf w = .ok buffer ∧
      Printed s { s with buffer, outBuf := s.outBuf + w.length, outBufLen := s.outBufLen - w.length }
        w := by
  have hout := hs.out_lt
  obtain ⟨buffer, hwrite, hwrote⟩ := writeAt_eq s.buffer s.outBuf w (by omega)
  refine ⟨buffer, by rw [put, hwrite], rfl, le_rfl, hwrote.length_eq, rfl, ?_, hwrote.take_eq⟩
  exact Nat.sub_add_cancel hw

theorem Cursors.Inside.snprintf_fits (htext : text.length < s.outBufLen) :
    ∃ buffer, snprintf s.buffer s.outBuf s.outBufLen text = .ok buffer ∧
      Printed s
        { s with buffer, outBuf := s.outBuf + text.length, outBufLen := s.outBufLen - text.length }
        text := by
  have hout := hs.out_lt
  have htake : text.take (s.outBufLen - 1) = text := take_of_length_le (by omega)
  obtain ⟨buffer, hwrite, hwrote⟩ := writeAt_eq s.buffer s.outBuf (text ++ [0])
    (by rw [length_append, length_singleton]; omega)
  refine ⟨buffer, ?_, rfl, le_rfl, hwrote.length_eq, rfl, Nat.sub_add_cancel htext.le, ?_⟩
  · rw [snprintf, if_neg (by omega), htake, put, hwrite]
  · have hbegin := congrArg (take (s.outBuf + text.length)) hwrote.take_eq
    rw [take_take, length_append, min_eq_left (by omega), ← append_assoc, take_left'] at hbegin
    · exact hbegin
    · rw [length_append, length_take_of_le (by omega)]

/-- `snprintf` without room writes only behind the cursor. -/
theorem Cursors.Inside.snprintf_full (htext : ¬text.length < s.outBufLen) :
    ∃ buffer, snprintf s.buffer s.outBuf s.outBufLen text = .ok buffer ∧
      Printed s { s with buffer } [] := by
  have hout := hs.out_lt
  by_cases hzero : s.outBufLen = 0
  · refine ⟨s.buffer, by rw [snprintf, if_pos hzero], rfl, le_rfl, rfl, rfl, rfl, ?_⟩
    exact (append_nil _).symm
  · have hlength : (text.take (s.outBufLen - 1) ++ [0]).length = s.outBufLen := by
      rw [length_append, length_singleton, length_take]
      omega
    obtain ⟨buffer, hwrite, hwrote⟩ := writeAt_eq s.buffer s.outBuf
      (text.take (s.outBufLen - 1) ++ [0]) (by omega)
    refine ⟨buffer, ?_, rfl, le_rfl, hwrote.length_eq, rfl, rfl, ?_⟩
    · rw [snprintf, if_neg hzero, put, hwrite]
    · rw [append_nil]
      exact hwrote.take_pos (by omega)

end

end

/-! ## Following a rendering -/

/-- How a printer may do what a rendering says: the data is malformed, the text is written, the text is
cut because there is no room left, or the printer stops because there is no room. It stops at the very
end only if the data is complete. -/
inductive Follows (payload : List UInt8) (r : Rendering) (s : Cursors) :
    Except Failure (Bool × Cursors) → Prop
  | invalid : r.2 = none → Follows payload r s (.error .invalid)
  | done {s' : Cursors} : Printed s s' r.1 → r.2 = some (payload.drop s'.eventData) →
      Follows payload r s (.ok (false, s'))
  | cut {s' : Cursors} {w : List UInt8} : Printed s s' w → w <+: r.1 → s'.outBufLen = 0 →
      r.2 = some (payload.drop s'.eventData) → Follows payload r s (.ok (false, s'))
  | full {s' : Cursors} {w : List UInt8} : Printed s s' w → w <+: r.1 → (w = r.1 → r.2 ≠ none) →
      Follows payload r s (.ok (true, s'))

/-- The printer of an item follows its rendering, where there is no more than so much data. -/
def FollowsUpTo (payload : List UInt8) (m : Nat) (item : List UInt8 → Rendering)
    (itemP : Cursors → Except Failure (Bool × Cursors)) : Prop :=
  ∀ s, s.Inside payload → s.eventDataLen ≤ m →
    Follows payload (item (payload.drop s.eventData)) s (itemP s)

section

variable {payload : List UInt8} {r : Rendering} {s s' : Cursors}
  {res : Except Failure (Bool × Cursors)} {next : List UInt8 → Rendering}
  {nextP : Cursors → Except Failure (Bool × Cursors)}

theorem Follows.after {w : List UInt8} (hw : Printed s s' w) (h : Follows payload r s' res) :
    Follows payload (w ++ r.1, r.2) s res := by
  cases h with
  | invalid hnone => exact .invalid hnone
  | done hprinted hrest => exact .done (hw.trans hprinted) hrest
  | cut hprinted hpre hzero hrest =>
    exact .cut (hw.trans hprinted) ((prefix_append_right_inj w).2 hpre) hzero hrest
  | full hprinted hpre hexact =>
    refine .full (hw.trans hprinted) ((prefix_append_right_inj w).2 hpre) ?_
    intro heq
    exact hexact (append_cancel_left heq)

/-- After a text that was cut, with no room left. -/
theorem Follows.after_cut {w : List UInt8} (hw : Printed s s' w) (hpre : w <+: text)
    (hzero : s'.outBufLen = 0) (h : Follows payload r s' res) :
    Follows payload (text ++ r.1, r.2) s res := by
  have hnothing {s'' : Cursors} {w' : List UInt8} (h : Printed s' s'' w') :
      w' = [] ∧ s''.outBufLen = 0 ∧ w ++ w' <+: text ++ r.1 := by
    have hlen := h.outBufLen_eq
    obtain rfl : w' = [] := eq_nil_of_length_eq_zero (by omega)
    refine ⟨rfl, hlen.trans hzero, ?_⟩
    rw [append_nil]
    exact hpre.trans (prefix_append _ _)
  cases h with
  | invalid hnone => exact .invalid hnone
  | done hprinted hrest | cut hprinted _ _ hrest =>
    obtain ⟨-, hzero', hpre'⟩ := hnothing hprinted
    exact .cut (hw.trans hprinted) hpre' hzero' hrest
  | full hprinted _ hexact =>
    obtain ⟨rfl, -, hpre'⟩ := hnothing hprinted
    refine .full (hw.trans hprinted) hpre' ?_
    intro heq
    have hlength := congrArg length heq
    have hle := hpre.length_le
    simp only [append_nil, length_append] at hlength
    exact hexact (eq_nil_of_length_eq_zero (by omega)).symm

/-- One text after the other. The second one has some text if its data is malformed. -/
theorem Follows.andThen (h : Follows payload r s res) (hs : s.Inside payload)
    (hnext : FollowsUpTo payload s.eventDataLen next nextP)
    (hempty : ∀ data, (next data).1 = [] → (next data).2 ≠ none) :
    Follows payload (r.andThen next) s (whileRoom res nextP) := by
  have hle : ∀ {s' w}, Printed s s' w → s'.eventDataLen ≤ s.eventDataLen := by
    intro s' w hprinted
    have h1 := hprinted.data_eq
    have h2 := hprinted.data_le
    omega
  cases h with
  | invalid hnone =>
    refine .invalid ?_
    simp only [Rendering.andThen, hnone]
  | @done s' hprinted hrest =>
    have hfollows := hnext s' (hprinted.inside hs) (hle hprinted)
    simp only [Rendering.andThen, hrest]
    exact hfollows.after hprinted
  | @cut s' w hprinted hpre hzero hrest =>
    have hfollows := hnext s' (hprinted.inside hs) (hle hprinted)
    simp only [Rendering.andThen, hrest]
    exact hfollows.after_cut hprinted hpre hzero
  | @full s' w hprinted hpre hexact =>
    cases hr : r.2 with
    | none =>
      simp only [Rendering.andThen, hr]
      exact .full hprinted hpre hexact
    | some data =>
      simp only [Rendering.andThen, hr]
      refine .full hprinted (hpre.trans (prefix_append _ _)) ?_
      intro heq
      have hlength := congrArg length heq
      have hle := hpre.length_le
      simp only [length_append] at hlength
      exact hempty data (eq_nil_of_length_eq_zero (by omega))

theorem follows_printChar_andThen (hs : s.Inside payload) (c : UInt8)
    (hnext : FollowsUpTo payload s.eventDataLen next nextP) :
    Follows payload ((renderChar c (payload.drop s.eventData)).andThen next) s
      (whileRoom (printChar c s) nextP) := by
  rw [printChar]
  split_ifs with hroom
  · obtain ⟨buffer, hput, hprinted⟩ := hs.put_eq (w := [c]) hroom
    rw [hput]
    exact (hnext _ (hprinted.inside hs) le_rfl).after hprinted
  · refine .full (.refl s) nil_prefix ?_
    simp [renderChar, Rendering.andThen]

theorem follows_printItems {m : Nat} (hitem : FollowsUpTo payload m item itemP) (n : Nat)
    (hs : s.Inside payload) (hm : s.eventDataLen ≤ m) :
    Follows payload (renderItems item n (payload.drop s.eventData)) s (printItems itemP n s) := by
  induction n generalizing s with
  | zero => exact .done (.refl s) rfl
  | succ n ih =>
    refine (hitem s hs hm).andThen hs ?_ ?_
    · intro s' hs' hle
      split_ifs with hlast
      · exact .done (.refl s') rfl
      · refine follows_printChar_andThen hs' comma ?_
        intro s'' hs'' hle'
        exact ih hs'' (by omega)
    · split_ifs with hlast
      · simp
      · simp [renderChar, Rendering.andThen]

/-- A printer that either writes the whole text or stops before its end. -/
inductive Strictly (payload : List UInt8) (r : Rendering) (s : Cursors) :
    Except Failure (Bool × Cursors) → Prop
  | invalid : r.2 = none → Strictly payload r s (.error .invalid)
  | done {s' : Cursors} : Printed s s' r.1 → r.2 = some (payload.drop s'.eventData) →
      Strictly payload r s (.ok (false, s'))
  | full {s' : Cursors} {w : List UInt8} : Printed s s' w → w <+: r.1 → w ≠ r.1 →
      Strictly payload r s (.ok (true, s'))

theorem Strictly.follows (h : Strictly payload r s res) : Follows payload r s res := by
  cases h with
  | invalid hnone => exact .invalid hnone
  | done hprinted hrest => exact .done hprinted hrest
  | full hprinted hpre hne => exact .full hprinted hpre fun heq => absurd heq hne

/-- A last character makes sure that nothing before it was left out. -/
theorem Follows.andThen_char (h : Follows payload r s res) (hs : s.Inside payload) (c : UInt8) :
    Strictly payload (r.andThen (renderChar c)) s (whileRoom res (printChar c)) := by
  have hshort : ∀ {w : List UInt8}, w <+: r.1 → w <+: r.1 ++ [c] ∧ w ≠ r.1 ++ [c] := by
    intro w hpre
    refine ⟨hpre.trans (prefix_append _ _), ?_⟩
    rintro rfl
    have hle := hpre.length_le
    rw [length_append, length_singleton] at hle
    omega
  cases h with
  | invalid hnone =>
    refine .invalid ?_
    simp only [Rendering.andThen, hnone]
  | @done s' hprinted hrest =>
    have hs' := hprinted.inside hs
    simp only [Rendering.andThen, hrest]
    change Strictly payload _ s (printChar c s')
    rw [printChar]
    split_ifs with hroom
    · obtain ⟨buffer, hput, hchar⟩ := hs'.put_eq (w := [c]) hroom
      rw [hput]
      exact .done (hprinted.trans hchar) rfl
    · exact .full hprinted (hshort (prefix_refl _)).1 (hshort (prefix_refl _)).2
  | @cut s' w hprinted hpre hzero hrest =>
    simp only [Rendering.andThen, hrest]
    change Strictly payload _ s (printChar c s')
    rw [printChar, if_neg (by omega)]
    exact .full hprinted (hshort hpre).1 (hshort hpre).2
  | @full s' w hprinted hpre hexact =>
    cases hr : r.2 with
    | none =>
      simp only [Rendering.andThen, hr]
      exact .full hprinted hpre fun heq => hexact heq hr
    | some data =>
      simp only [Rendering.andThen, hr]
      exact .full hprinted (hshort hpre).1 (hshort hpre).2

end

/-! ## Numbers and strings -/

section

variable {payload : List UInt8} {s : Cursors}

section

variable (hs : s.Inside payload)
include hs

theorem printNumber_cases (width : Nat) (text : List UInt8 → List UInt8) :
    (s.eventDataLen < width ∧ printNumber payload width text s = .error .invalid) ∨
    ¬s.eventDataLen < width ∧ ∃ s', s'.eventData = s.eventData + width ∧
      ((text ((payload.drop s.eventData).take width)).length < s.outBufLen ∧
        printNumber payload width text s = .ok (false, s') ∧
        Printed s s' (text ((payload.drop s.eventData).take width)) ∨
      ¬(text ((payload.drop s.eventData).take width)).length < s.outBufLen ∧
        printNumber payload width text s = .ok (true, s') ∧ Printed s s' []) := by
  rw [printNumber]
  split_ifs with hlen
  · exact .inl ⟨hlen, rfl⟩
  · refine .inr ⟨hlen, ?_⟩
    have hskip := hs.skip hlen
    have hs1 := hskip.inside hs
    rw [hs.readBytes_eq hlen]
    by_cases hroom : (text ((payload.drop s.eventData).take width)).length < s.outBufLen
    · obtain ⟨buffer, hprint, hprinted⟩ := hs1.snprintf_fits hroom
      refine ⟨_, rfl, .inl ⟨hroom, ?_, hskip.trans hprinted⟩⟩
      simp only [ok_bind, hprint, if_pos hroom]
    · obtain ⟨buffer, hprint, hprinted⟩ := hs1.snprintf_full hroom
      refine ⟨_, rfl, .inr ⟨hroom, ?_, hskip.trans hprinted⟩⟩
      simp only [ok_bind, hprint, if_neg hroom]

theorem follows_printNumber (width : Nat) {text : List UInt8 → List UInt8}
    (htext : ∀ bytes, text bytes ≠ []) :
    Follows payload (renderNumber width text (payload.drop s.eventData)) s
      (printNumber payload width text s) := by
  rw [renderNumber, hs.length_drop]
  obtain ⟨hlen, hprint⟩ | ⟨hlen, s', hdata, ⟨-, hprint, hprinted⟩ | ⟨-, hprint, hprinted⟩⟩ :=
    printNumber_cases hs width text
  · rw [hprint, if_pos hlen]
    exact .invalid rfl
  · rw [hprint, if_neg hlen]
    exact .done hprinted (by rw [hdata, drop_drop])
  · rw [hprint, if_neg hlen]
    exact .full hprinted nil_prefix fun hnil => absurd hnil.symm (htext _)

/-- The ways a string is printed: the whole of it, as much as there is room for, or nothing. -/
theorem printString_cases :
    (renderString (payload.drop s.eventData) = ([], none) ∧
      printString payload s = .error .invalid) ∨
    ∃ string s', renderString (payload.drop s.eventData) =
        (string, some (payload.drop (s.eventData + 4 + string.length))) ∧
      (string.length < s.outBufLen ∧ printString payload s = .ok (false, s') ∧
        s'.eventData = s.eventData + 4 + string.length ∧ Printed s s' string ∨
      ¬string.length < s.outBufLen ∧ s.outBufLen > 0 ∧ printString payload s = .ok (true, s') ∧
        Printed s s' (string.take s.outBufLen) ∨
      s.outBufLen = 0 ∧ printString payload s = .ok (false, s') ∧
        s'.eventData = s.eventData + 4 + string.length ∧ Printed s s' []) := by
  rw [renderString, printString, hs.length_drop]
  by_cases hlen : s.eventDataLen < 4
  · rw [if_pos hlen, if_pos hlen]
    exact .inl ⟨rfl, rfl⟩
  have hskip := hs.skip hlen
  have hs1 := hskip.inside hs
  set n := unle ((payload.drop s.eventData).take 4) with hn
  rw [if_neg hlen, if_neg hlen, hs.readBytes_eq hlen, drop_drop, drop_drop, hs1.length_drop]
  simp only [ok_bind, ← hn]
  by_cases hstring : s.eventDataLen - 4 < n
  · rw [if_pos hstring, if_pos hstring]
    exact .inl ⟨rfl, rfl⟩
  rw [if_neg hstring, if_neg hstring]
  have hlength : ((payload.drop (s.eventData + 4)).take n).length = n := by
    rw [length_take, hs1.length_drop]
    exact min_eq_left (not_lt.1 hstring)
  have hskip2 := hskip.trans (hs1.skip hstring)
  have hs2 := hskip2.inside hs
  refine .inr ⟨(payload.drop (s.eventData + 4)).take n, ?_⟩
  rw [hlength]
  by_cases hfits : n < s.outBufLen
  · obtain ⟨buffer, hput, hprinted⟩ := hs2.put_eq
      (by rw [hlength]; exact hfits.le)
    rw [hlength] at hprinted
    refine ⟨_, rfl, .inl ⟨hfits, ?_, rfl, hskip2.trans hprinted⟩⟩
    simp only [if_pos hfits, hs1.readBytes_eq hstring, ok_bind, hput]
  · rw [if_neg hfits]
    by_cases hroom : s.outBufLen > 0
    · have hpart : ((payload.drop (s.eventData + 4)).take s.outBufLen).length = s.outBufLen := by
        rw [length_take, hs1.length_drop]
        refine min_eq_left ?_
        change s.outBufLen ≤ s.eventDataLen - 4
        omega
      obtain ⟨buffer, hput, hprinted⟩ :=
        hs1.put_eq hpart.le
      rw [hpart] at hprinted
      refine ⟨⟨s.eventData + 4, s.eventDataLen - 4, s.outBuf + s.outBufLen, 0, buffer⟩, rfl,
        .inr (.inl ⟨hfits, hroom, ?_, ?_⟩)⟩
      · rw [if_pos hroom, hs1.readBytes_eq (by change ¬s.eventDataLen - 4 < _; omega)]
        simp only [ok_bind, hput]
      · rw [take_take, min_eq_left (not_lt.1 hfits)]
        have htotal := hskip.trans hprinted
        simp only [Nat.sub_self] at htotal
        exact htotal
    · refine ⟨_, rfl, .inr (.inr ⟨by omega, ?_, rfl, hskip2⟩)⟩
      rw [if_neg hroom]

theorem follows_printString :
    Follows payload (renderString (payload.drop s.eventData)) s (printString payload s) := by
  obtain ⟨hrender, hprint⟩ | ⟨string, s', hrender, hcases⟩ := printString_cases hs
  · rw [hrender, hprint]
    exact .invalid rfl
  · rw [hrender]
    obtain ⟨-, hprint, hdata, hprinted⟩ | ⟨-, -, hprint, hprinted⟩ | ⟨hzero, hprint, hdata, hprinted⟩ :=
      hcases
    · rw [hprint]
      exact .done hprinted (by rw [hdata])
    · rw [hprint]
      exact .full hprinted ⟨_, take_append_drop _ _⟩ fun _ => Option.some_ne_none _
    · rw [hprint]
      have hlen := hprinted.outBufLen_eq
      exact .cut hprinted nil_prefix (hlen.trans hzero) (by rw [hdata])

end

end

/-! ## Values -/

variable {payload : List UInt8} {s : Cursors} {format : FloatFormat}

theorem unle_singleton (c : UInt8) : unle [c] = c.toNat := by
  simp [unle]

section

variable (hs : s.Inside payload) (hitem : FollowsUpTo payload s.eventDataLen item itemP)
include hs hitem

theorem strictly_printList :
    (payload.drop s.eventData = [] ∧ printList payload itemP s = .error .invalid) ∨
    ∃ r s1, renderList item (payload.drop s.eventData) = (leftBracket :: r.1, r.2) ∧ Printed s s1 [] ∧
      (s.outBufLen = 0 ∧ printList payload itemP s = .ok (true, s1) ∨
      ∃ s2, Printed s1 s2 [leftBracket] ∧ Strictly payload r s2 (printList payload itemP s)) := by
  have hlength := hs.length_drop
  rw [printList]
  cases hdata : payload.drop s.eventData with
  | nil =>
    rw [hdata, length_nil] at hlength
    rw [if_pos (by omega)]
    exact .inl ⟨rfl, rfl⟩
  | cons count data =>
    right
    rw [hdata, length_cons] at hlength
    have hlen : ¬s.eventDataLen < 1 := by omega
    have hskip := hs.skip hlen
    have hs1 := hskip.inside hs
    have hdrop : payload.drop (s.eventData + 1) = data := by
      rw [← drop_drop, hdata]
      rfl
    rw [if_neg hlen, hs.readBytes_eq hlen, hdata]
    simp only [take_succ_cons]
    refine ⟨(renderItems item count.toNat data).andThen (renderChar rightBracket), _, rfl, hskip, ?_⟩
    by_cases hroom : s.outBufLen > 0
    · right
      obtain ⟨buffer, hput, hprinted⟩ := hs1.put_eq (w := [leftBracket]) hroom
      have hs2 := hprinted.inside hs1
      have hchar := follows_printItems hitem count.toNat hs2 (Nat.sub_le _ _)
      simp only [hdrop] at hchar
      refine ⟨_, hprinted, ?_⟩
      rw [printChar, if_pos hroom, hput]
      exact hchar.andThen_char hs2 rightBracket
    · left
      refine ⟨by omega, ?_⟩
      rw [printChar, if_neg hroom]
      rfl

theorem follows_printList :
    Follows payload (renderList item (payload.drop s.eventData)) s (printList payload itemP s) := by
  obtain ⟨hdata, hprint⟩ | ⟨r, s1, hrender, hskip, ⟨-, hprint⟩ | ⟨s2, hchar, hstrictly⟩⟩ :=
    strictly_printList hs hitem
  · rw [hdata, hprint]
    exact .invalid rfl
  · rw [hrender, hprint]
    exact .full hskip nil_prefix fun hnil => absurd hnil.symm (cons_ne_nil _ _)
  · rw [hrender]
    exact hstrictly.follows.after (hskip.trans hchar)

end

section

variable (format : FloatFormat)

theorem follows_printValue (hs : s.Inside payload)
    (hitem : FollowsUpTo payload s.eventDataLen item itemP) (type : Nat) :
    Follows payload (renderValue format item type (payload.drop s.eventData)) s
      (printValue payload format itemP type s) := by
  rcases type with _ | _ | _ | _ | _ | type
  · exact follows_printNumber hs 4 fun bytes => decimal_ne_nil (i32 (unle bytes))
  · exact follows_printNumber hs 8 fun bytes => decimal_ne_nil (i64 (unle bytes))
  · exact follows_printString hs
  · exact follows_printList hs hitem
  · exact follows_printNumber hs 4 fun _ => format.ne_nil _
  · exact .invalid rfl

section

variable (depth : Nat) (hs : s.Inside payload)
include hs

theorem printBinaryEvent_cons {type : UInt8}
    {data : List UInt8} (hdata : payload.drop s.eventData = type :: data) :
    ∃ s1, Printed s s1 [] ∧ payload.drop s1.eventData = data ∧
      s1.eventDataLen + 1 = s.eventDataLen ∧ printBinaryEvent payload format (depth + 1) s =
        printValue payload format (printBinaryEvent payload format depth) type.toNat s1 := by
  have hlength := hs.length_drop
  rw [hdata, length_cons] at hlength
  have hlen : ¬s.eventDataLen < 1 := by omega
  refine ⟨_, hs.skip hlen, ?_, Nat.sub_add_cancel (not_lt.1 hlen), ?_⟩
  · rw [← drop_drop, hdata]
    rfl
  · rw [printBinaryEvent, if_neg hlen, hs.readBytes_eq hlen, hdata]
    simp only [ok_bind, take_succ_cons, take_zero, unle_singleton]

theorem printBinaryEvent_nil (hdata : payload.drop s.eventData = []) :
    printBinaryEvent payload format (depth + 1) s = .error .invalid := by
  have hlength := hs.length_drop
  rw [hdata, length_nil] at hlength
  rw [printBinaryEvent, if_pos (by omega)]

theorem follows_printBinaryEvent (hdepth : s.eventDataLen < depth) :
    Follows payload (renderEvent format depth (payload.drop s.eventData)) s
      (printBinaryEvent payload format depth s) := by
  induction depth generalizing s with
  | zero => exact absurd hdepth (Nat.not_lt_zero _)
  | succ depth ih =>
    cases hdata : payload.drop s.eventData with
    | nil =>
      rw [printBinaryEvent_nil format depth hs hdata]
      exact .invalid rfl
    | cons type data =>
      obtain ⟨s1, hskip, hrest, hlen, hprint⟩ := printBinaryEvent_cons format depth hs hdata
      rw [hprint, ← hrest]
      refine Follows.after hskip (follows_printValue format (hskip.inside hs) ?_ type.toNat)
      intro s' hs' hle
      exact ih hs' (by omega)

end

end

end AndroidSystem.Liblog
