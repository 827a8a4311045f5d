import Mathlib.Data.List.Infix
import Mathlib.Logic.Relation

/-!
# A stop-and-wait byte stream

Two ends exchange bytes over one FIFO channel in each direction. An end may send one `data`
message for every `ack` it gets; the end that accepted the stream starts with one to spend. Bytes
that have arrived wait in a backlog until they are written out, and the `ack` is sent when the
backlog is empty. Either end may close at any time; an end that is told to close keeps its backlog
until it is written.

**The machine.** `Local` is what an end does on its own, `Receive` what it does with a message.
`Pipe` is both ends with the channels and the logs of what was delivered, and `Pipe.Step` lets the
left end move; the right end moves in the mirror image `Pipe.swap`.

**The invariant.** `Half` says what holds of the direction from left to right, and `Inv` says it of
both. `Inv.step` is the step lemma, `Inv.run` the run lemma. What they give: at most one `data`
message is unanswered, a `data` message is answered at most once, what is written is a prefix of
what was read, and nothing is lost unless the receiver itself closed.
-/

namespace AndroidSystem.StopAndWait

open List Relation

variable {β : Type*}

/-! ## The machine -/

/-- Messages of one stream. -/
inductive Msg (β : Type*) where
  | ack
  | data (d : List β)
  | close
  deriving DecidableEq

open Msg

/-- Is the message data? -/
def Msg.isData : Msg β → Bool
  | .data _ => true
  | _ => false

/-- Is the message an acknowledgement? -/
def Msg.isAck : Msg β → Bool
  | .ack => true
  | _ => false

/-- The bytes a message carries. -/
def Msg.payload : Msg β → List β
  | .data d => d
  | _ => []

/-- The bytes carried by a list of messages. -/
def payload (ms : List (Msg β)) : List β := ms.flatMap Msg.payload

inductive Status where
  | active
  | closing
  | closed
  deriving DecidableEq

/-- One end. `joined`: it knows that the stream is up. `credit`: it may send data. `owes`: data has
arrived and was not acknowledged. `accepted`: it is the end that accepted the stream. `ownClose`: it
closed by itself, so that it may have dropped data. -/
structure End (β : Type*) where
  status : Status
  joined : Bool
  credit : Bool
  owes : Bool
  accepted : Bool
  ownClose : Bool
  backlog : List β
  read : List β
  written : List β

/-- What an end does on its own, and what it sends. -/
inductive Local : End β → List (Msg β) → End β → Prop
  | write {e : End β} (d r : List β) (h : e.backlog = d ++ r) :
      Local e [] { e with backlog := r, written := e.written ++ d }
  | acknowledge {e : End β} (ha : e.status = .active) (ho : e.owes = true) :
      Local e [.ack] { e with owes := false }
  | send {e : End β} (d : List β) (ha : e.status = .active) (hc : e.credit = true) :
      Local e [.data d] { e with read := e.read ++ d, credit := false }
  | close {e : End β} (ha : e.status = .active) :
      Local e (if e.joined then [.close] else [])
        { e with status := .closing, joined := false, credit := false, ownClose := true }
  | finish {e : End β} (hc : e.status = .closing) (hb : e.backlog = []) :
      Local e [] { e with status := .closed, owes := false }
  | fail {e : End β} (hc : e.status = .closing) :
      Local e [] { e with status := .closed, owes := false, backlog := [], ownClose := true }

/-- What an end does with a message, and what it sends. -/
inductive Receive : End β → Msg β → List (Msg β) → End β → Prop
  | ack {e : End β} (ha : e.status = .active) :
      Receive e .ack [] { e with joined := true, credit := true }
  | data {e : End β} (d : List β) (ha : e.status = .active) (hj : e.joined = true) :
      Receive e (.data d) [] { e with backlog := e.backlog ++ d, owes := true }
  | close {e : End β} (ha : e.status = .active) (hj : e.joined = true) :
      Receive e .close [.close] { e with status := .closing, joined := false, credit := false }
  | early {e : End β} {m : Msg β} (ha : e.status = .active) (hj : e.joined = false)
      (hm : m ≠ .ack) : Receive e m [] e
  | ignore {e : End β} {m : Msg β} (ha : e.status ≠ .active) : Receive e m [] e

/-- Several moves of an end on its own. -/
inductive Moves : End β → List (Msg β) → End β → Prop
  | refl (e : End β) : Moves e [] e
  | tail {e e' e'' : End β} {out out' : List (Msg β)} (h : Moves e out e') (hl : Local e' out' e'') :
      Moves e (out ++ out') e''

variable {e e' : End β} {out tl ms : List (Msg β)} {m : Msg β}

theorem Local.moves (h : Local e out e') : Moves e out e' :=
  .tail (.refl e) h

theorem Moves.trans {e'' : End β} {out' : List (Msg β)} (h : Moves e out e')
    (h' : Moves e' out' e'') : Moves e (out ++ out') e'' := by
  induction h' with
  | refl => simpa using h
  | tail _ hl ih => simpa using ih.tail hl

/-- Both ends, the messages on their way and the messages delivered so far. -/
structure Pipe (β : Type*) where
  left : End β
  right : End β
  gotLeft : List (Msg β)
  toLeft : List (Msg β)
  gotRight : List (Msg β)
  toRight : List (Msg β)

namespace Pipe

/-- The same pipe seen from the other side. -/
def swap (s : Pipe β) : Pipe β :=
  { left := s.right, right := s.left, gotLeft := s.gotRight, toLeft := s.toRight,
    gotRight := s.gotLeft, toRight := s.toLeft }

/-- A move of the left end. -/
inductive Step : Pipe β → Pipe β → Prop
  | act {s : Pipe β} {out : List (Msg β)} {e : End β} (h : Local s.left out e) :
      Step s { s with left := e, toRight := s.toRight ++ out }
  | deliver {s : Pipe β} {m : Msg β} {rest out : List (Msg β)} {e : End β}
      (hm : s.toLeft = m :: rest) (h : Receive s.left m out e) :
      Step s { s with left := e, toLeft := rest, gotLeft := s.gotLeft ++ [m],
                      toRight := s.toRight ++ out }

end Pipe

/-! ## The invariant -/

/-- One direction of the stream: `left` sends data, `right` answers. -/
structure Half (s : Pipe β) : Prop where
  /-- An active end has not announced that it closes. -/
  quiet : s.left.status = .active → close ∉ s.toRight
  /-- An end that does not know of the stream yet is told so first. -/
  greeted : s.right.status = .active → s.right.joined = false →
    ∃ rest, s.toRight = .ack :: rest
  /-- No data comes after a close. -/
  ordered : s.toRight.Pairwise fun p q => p = .close → q.isData = false
  /-- An active end has not closed. -/
  honest : s.right.status = .active → s.right.ownClose = false
  /-- An end closed by the other one has got all data. -/
  drained : s.right.status ≠ .active → s.right.ownClose = false →
    s.left.status ≠ .active ∧ ∀ m ∈ s.toRight, m.isData = false
  /-- Nothing is lost unless the receiver closed by itself. -/
  exact : s.right.ownClose = false →
    s.left.read = s.right.written ++ s.right.backlog ++ payload s.toRight
  /-- What is written, and what waits to be, is a prefix of what was read. -/
  sound : s.right.written ++ s.right.backlog <+: s.left.read
  /-- Every data message spends an acknowledgement, or the one given in advance. -/
  window : (s.gotRight ++ s.toRight).countP isData
      + (if s.left.status = .active ∧ s.left.credit then 1 else 0)
    ≤ s.gotLeft.countP isAck + s.left.accepted.toNat
  /-- Every acknowledgement answers a data message, or accepts the stream. -/
  answers : (s.gotRight ++ s.toRight).countP isAck
      + (if s.left.status = .active ∧ s.left.owes then 1 else 0)
    ≤ s.gotLeft.countP isData + s.left.accepted.toNat

/-- Both directions. -/
structure Inv (s : Pipe β) : Prop where
  right : Half s
  left : Half s.swap

theorem payload_append (ms ns : List (Msg β)) : payload (ms ++ ns) = payload ms ++ payload ns :=
  flatMap_append

theorem payload_eq_nil (h : ∀ m ∈ ms, m.isData = false) : payload ms = [] := by
  refine flatMap_eq_nil_iff.2 fun m hm => ?_
  cases m with
  | data d => exact absurd (h _ hm) (by simp [isData])
  | _ => rfl

variable {s : Pipe β}

/-- Appending a message keeps `ordered` when no close was sent before. -/
theorem ordered_append (h : ms.Pairwise fun p q => p = .close → q.isData = false)
    (hc : close ∉ ms) (out : Msg β) :
    (ms ++ [out]).Pairwise fun p q => p = .close → q.isData = false := by
  refine pairwise_append.2 ⟨h, pairwise_singleton _ _, ?_⟩
  intro p hp q _ hpc
  exact absurd (hpc ▸ hp) hc

theorem greeted_append (h : ∃ rest, ms = .ack :: rest) : ∃ rest, ms ++ out = .ack :: rest := by
  obtain ⟨rest, rfl⟩ := h
  exact ⟨rest ++ out, rfl⟩

/-- The left end moves on its own: it is the sender here. -/
theorem Half.left_local (hs : Half s) (h : Local s.left out e) :
    Half { s with left := e, toRight := s.toRight ++ out } := by
  have hw := hs.window
  have ha' := hs.answers
  cases h with
  | write d r h =>
    exact { hs with
      quiet := by simpa using hs.quiet
      greeted := by simpa using hs.greeted
      ordered := by simpa using hs.ordered
      drained := by simpa using hs.drained
      exact := by simpa using hs.exact
      window := by simpa using hw
      answers := by simpa using ha' }
  | acknowledge ha ho =>
    refine ⟨?_, fun h1 h2 => greeted_append (hs.greeted h1 h2),
      ordered_append hs.ordered (hs.quiet ha) _, hs.honest, fun h1 h2 => ?_, ?_, hs.sound, ?_, ?_⟩
    · simpa using hs.quiet
    · exact absurd ha (hs.drained h1 h2).1
    · simpa [payload_append, payload, Msg.payload] using hs.exact
    · simpa [isData] using hw
    · simp only [ha, ho] at ha'
      simpa [isAck, ← Nat.add_assoc] using ha'
  | send d ha hc =>
    refine ⟨?_, fun h1 h2 => greeted_append (hs.greeted h1 h2),
      ordered_append hs.ordered (hs.quiet ha) _, hs.honest, fun h1 h2 => ?_, fun h => ?_, ?_, ?_,
      ?_⟩
    · simpa using hs.quiet
    · exact absurd ha (hs.drained h1 h2).1
    · simp [hs.exact h, payload, Msg.payload]
    · exact hs.sound.trans (prefix_append _ _)
    · simp only [ha, hc] at hw
      simpa [isData, ← Nat.add_assoc] using hw
    · simpa [isAck] using ha'
  | close ha =>
    have hout : ∀ m ∈ (if s.left.joined then [close] else []), m = (close : Msg β) := by
      intro m hm
      split_ifs at hm <;> simp_all
    have hpay : payload (if s.left.joined then [close] else [] : List (Msg β)) = [] :=
      payload_eq_nil fun m hm => by rw [hout m hm]; rfl
    have hcount : ∀ f : Msg β → Bool, f .close = false →
        (if s.left.joined then [close] else [] : List (Msg β)).countP f = 0 := by
      intro f hf
      rw [countP_eq_zero]
      intro m hm
      simp [hout m hm, hf]
    refine ⟨by simp, fun h1 h2 => greeted_append (hs.greeted h1 h2), ?_, hs.honest,
      fun h1 h2 => ?_, fun h => ?_, hs.sound, ?_, ?_⟩
    · split_ifs
      · exact ordered_append hs.ordered (hs.quiet ha) _
      · simpa using hs.ordered
    · exact absurd ha (hs.drained h1 h2).1
    · rw [payload_append, hpay, append_nil]
      exact hs.exact h
    · have hd := hcount isData rfl
      rw [← append_assoc, countP_append]
      simp only [reduceCtorEq, false_and, if_false]
      omega
    · have hd := hcount isAck rfl
      rw [← append_assoc, countP_append]
      simp only [reduceCtorEq, false_and, if_false]
      omega
  | finish | fail =>
    refine ⟨by simp, fun h1 h2 => greeted_append (hs.greeted h1 h2), by simpa using hs.ordered,
      hs.honest, fun h1 h2 => ⟨by simp, by simpa using (hs.drained h1 h2).2⟩, by simpa using hs.exact,
      hs.sound, ?_, ?_⟩
    · simp only [append_nil, reduceCtorEq, false_and, if_false]
      omega
    · simp only [append_nil, reduceCtorEq, false_and, if_false]
      omega

/-- The right end moves on its own: it is the receiver here. -/
theorem Half.right_local (hs : Half s) (h : Local s.right out e) :
    Half { s with right := e, toLeft := tl } := by
  cases h with
  | write d r h =>
    have hb : s.right.written ++ d ++ r = s.right.written ++ s.right.backlog := by
      rw [h, append_assoc]
    exact { hs with
      exact := fun hx => by rw [hb]; exact hs.exact hx
      sound := by rw [hb]; exact hs.sound }
  | acknowledge ha ho => exact { hs with }
  | send d ha hc => exact { hs with }
  | close ha =>
    exact { hs with
      greeted := fun h1 => by simp at h1
      honest := fun h1 => by simp at h1
      drained := fun _ h2 => by simp at h2
      exact := fun h2 => by simp at h2 }
  | finish hc hb =>
    exact { hs with
      greeted := fun h1 => by simp at h1
      honest := fun h1 => by simp at h1
      drained := fun _ h2 => hs.drained (by simp [hc]) h2 }
  | fail hc =>
    exact { hs with
      greeted := fun h1 => by simp at h1
      honest := fun h1 => by simp at h1
      drained := fun _ h2 => by simp at h2
      exact := fun h2 => by simp at h2
      sound := by
        rw [append_nil]
        exact (prefix_append _ _).trans hs.sound }

/-- A message the left end does not heed only goes to its log. -/
theorem Half.left_log (hs : Half s) (m : Msg β) :
    Half { s with toLeft := tl, gotLeft := s.gotLeft ++ [m] } := by
  have hle : ∀ f : Msg β → Bool, s.gotLeft.countP f ≤ (s.gotLeft ++ [m]).countP f := fun f =>
    (sublist_append_left _ _).countP_le
  exact { hs with
    window := hs.window.trans (Nat.add_le_add_right (hle _) _)
    answers := hs.answers.trans (Nat.add_le_add_right (hle _) _) }

/-- The left end gets a message: an answer to its data, or data it will have to answer. -/
theorem Half.left_receive (hs : Half s) (h : Receive s.left m out e) :
    Half { s with left := e, toLeft := tl, gotLeft := s.gotLeft ++ [m],
                  toRight := s.toRight ++ out } := by
  have hw := hs.window
  have ha' := hs.answers
  cases h with
  | ack ha =>
    refine ⟨by simpa using hs.quiet, fun h1 h2 => greeted_append (hs.greeted h1 h2),
      by simpa using hs.ordered, hs.honest, by simpa using hs.drained, by simpa using hs.exact, hs.sound,
      ?_, ?_⟩
    · simp only [append_nil, countP_append, countP_singleton, isAck, ha, and_self]
      simp only [countP_append] at hw
      omega
    · simpa [isData] using ha'
  | data d ha hj =>
    refine ⟨by simpa using hs.quiet, fun h1 h2 => greeted_append (hs.greeted h1 h2),
      by simpa using hs.ordered, hs.honest, by simpa using hs.drained, by simpa using hs.exact, hs.sound,
      ?_, ?_⟩
    · simpa [isAck] using hw
    · simp only [append_nil, countP_append, countP_singleton, isData, ha, and_self]
      simp only [countP_append] at ha'
      omega
  | close ha hj =>
    refine ⟨by simp, fun h1 h2 => greeted_append (hs.greeted h1 h2),
      ordered_append hs.ordered (hs.quiet ha) _, hs.honest,
      fun h1 h2 => absurd ha (hs.drained h1 h2).1, ?_, hs.sound, ?_, ?_⟩
    · simpa [payload_append, payload, Msg.payload] using hs.exact
    · simp only [countP_append, countP_singleton, isData, reduceCtorEq, false_and, if_false] at hw ⊢
      omega
    · simp only [countP_append, countP_singleton, isAck, reduceCtorEq, false_and, if_false] at ha' ⊢
      omega
  | early ha hj hm => simpa using hs.left_log m
  | ignore ha => simpa using hs.left_log m

/-- The right end gets a message that the left end sent. -/
theorem Half.right_receive (hs : Half s) {rest : List (Msg β)} (hm : s.toRight = m :: rest)
    (h : Receive s.right m out e) :
    Half { s with right := e, toRight := rest, gotRight := s.gotRight ++ [m], toLeft := tl } := by
  have hmem : ∀ x ∈ rest, x ∈ s.toRight := fun x hx => hm ▸ mem_cons_of_mem _ hx
  have hquiet : s.left.status = .active → close ∉ rest := fun ha hc => hs.quiet ha (hmem _ hc)
  have hord := hs.ordered
  rw [hm, pairwise_cons] at hord
  -- the message moves from the channel to the log, so what was sent stays the same
  have hsent : s.gotRight ++ [m] ++ rest = s.gotRight ++ s.toRight := by simp [hm]
  have hwin := hs.window
  have hans := hs.answers
  rw [← hsent] at hwin hans
  have hexact := hs.exact
  rw [hm] at hexact
  cases h with
  | ack ha =>
    refine ⟨hquiet, fun _ h2 => by simp at h2, hord.2, hs.honest, fun h1 => absurd ha h1, ?_,
      hs.sound, hwin, hans⟩
    simpa [payload, Msg.payload] using hexact
  | data d ha hj =>
    refine ⟨hquiet, fun _ h2 => ?_, hord.2, hs.honest, fun h1 => absurd ha h1, fun h2 => ?_, ?_,
      hwin, hans⟩
    · simp [hj] at h2
    · simpa [payload, Msg.payload] using hexact h2
    · refine ⟨payload rest, ?_⟩
      simpa [payload, Msg.payload] using (hexact (hs.honest ha)).symm
  | close ha hj =>
    refine ⟨hquiet, fun h1 => by simp at h1, hord.2, fun h1 => by simp at h1,
      fun _ h2 => ⟨fun hl => ?_, fun x hx => hord.1 x hx rfl⟩, ?_, hs.sound, hwin, hans⟩
    · exact hs.quiet hl (by simp [hm])
    · simpa [payload, Msg.payload] using hexact
  | early ha hj hne =>
    obtain ⟨r, hr⟩ := hs.greeted ha hj
    rw [hm, cons.injEq] at hr
    exact absurd hr.1 hne
  | ignore ha =>
    refine ⟨hquiet, fun h1 => absurd h1 ha, hord.2, hs.honest, fun h1 h2 => ?_, fun h2 => ?_,
      hs.sound, hwin, hans⟩
    · exact ⟨(hs.drained h1 h2).1, fun x hx => (hs.drained h1 h2).2 x (hmem x hx)⟩
    · have hnd := (hs.drained ha h2).2 m (by simp [hm])
      have hp : m.payload = [] := by cases m <;> simp_all [isData, Msg.payload]
      simpa [payload, hp] using hexact h2

/-! ## Steps and runs -/

theorem Inv.step {s' : Pipe β} (hs : Inv s) (h : s.Step s') : Inv s' := by
  cases h with
  | act h => exact ⟨hs.right.left_local h, hs.left.right_local h⟩
  | deliver hm h => exact ⟨hs.right.left_receive h, hs.left.right_receive hm h⟩

theorem Inv.swap (hs : Inv s) : Inv s.swap := ⟨hs.left, hs.right⟩

theorem Inv.run {s' : Pipe β} (hs : Inv s) (h : ReflTransGen Pipe.Step s s') : Inv s' := by
  induction h with
  | refl => exact hs
  | tail _ hstep ih => exact ih.step hstep

theorem Pipe.run_moves (h : Moves s.left out e) :
    ReflTransGen Pipe.Step s { s with left := e, toRight := s.toRight ++ out } := by
  induction h with
  | refl => simpa using ReflTransGen.refl
  | @tail e' e'' out out' _ hstep ih =>
    have hlast := Pipe.Step.act (s := { s with left := e', toRight := s.toRight ++ out }) hstep
    simpa using ih.tail hlast

/-- A message and the moves it leads to are a run of the pipe. -/
theorem Pipe.run_deliver {rest out' : List (Msg β)} (hm : s.toLeft = m :: rest)
    (h : Receive s.left m out e) (h' : Moves e out' e') :
    ReflTransGen Pipe.Step s
      { s with left := e', toLeft := rest, gotLeft := s.gotLeft ++ [m],
               toRight := s.toRight ++ (out ++ out') } := by
  have hfirst := ReflTransGen.single (Pipe.Step.deliver hm h)
  simpa using hfirst.trans (Pipe.run_moves h')

/-- An end that has done nothing yet. -/
def End.fresh (accepted : Bool) : End β :=
  { status := .active, joined := accepted, credit := accepted, owes := false, accepted := accepted,
    ownClose := false, backlog := [], read := [], written := [] }

/-- A stream that was just accepted: the left end has announced it. The right end, which asked for
it, is still waiting, or has closed by itself in the meantime. -/
def Pipe.accepted (right : End β) : Pipe β :=
  { left := .fresh true, right := right, gotLeft := [], toLeft := [], gotRight := [],
    toRight := [.ack] }

theorem inv_accepted (h0 : e.accepted = false) (hc : e.credit = false) (ho : e.owes = false)
    (hb : e.backlog = []) (hr : e.read = []) (hw : e.written = [])
    (hst : e.status = .active ∧ e.ownClose = false ∨ e.status ≠ .active ∧ e.ownClose = true) :
    Inv (Pipe.accepted e) := by
  refine ⟨?_, ?_⟩
  · refine ⟨?_, fun _ _ => ⟨[], rfl⟩, ?_, ?_, ?_, ?_, ?_, ?_, ?_⟩ <;>
      simp [Pipe.accepted, End.fresh, payload, Msg.payload, isData, isAck, hb, hw]
    all_goals rcases hst with h | h <;> simp [h.1, h.2]
  · refine ⟨?_, ?_, ?_, ?_, ?_, ?_, ?_, ?_, ?_⟩ <;>
      simp [Pipe.accepted, Pipe.swap, End.fresh, payload, h0, hc, ho, hr]

end AndroidSystem.StopAndWait
