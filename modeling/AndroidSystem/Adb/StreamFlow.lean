import AndroidSystem.Adb.Moves

/-!
# Flow control and integrity of adb streams

What holds of every stream after any run of two endpoints whose actions are all careful: one
`A_WRTE` is unanswered at a time and is answered at most once, the bytes written at one end are a
prefix of the bytes read at the other, and none are lost unless the receiving socket failed to write
or closed at the end of its own file (`stream_flow_control`).

An action is careless in two ways. A closing socket may get an `FDE_READ` it no longer asks for,
since `fdevent_set` drops the wrong pending events, or a socket may get one because its service
process has exited; `stream_drops_backlog` is a run in which a socket is then destroyed with data
that it had accepted. And the ids of sockets may wrap around.
-/

namespace AndroidSystem.Adb

open List StopAndWait Option Relation Duplex

/-! ## Runs -/

theorem Wiring.step {d d' : Duplex} (h : Wiring d) (hs : Streams d)
    (hstep : Step Careful d d') : Wiring d' ∧ Streams d' := by
  have hmoves : ∀ {c c' : Duplex}, ReflTransGen Move c c' → Wiring c → Streams c →
      Wiring c' ∧ Streams c' := by
    intro c c' hm hw hst
    induction hm with
    | refl => exact ⟨hw, hst⟩
    | tail _ hlast ih => exact ⟨ih.1.move hlast, ih.2.move ih.1 hlast⟩
  cases hstep with
  | near a ha hc => exact hmoves (h.act_moves ha hc) h hs
  | far a ha hc =>
    obtain ⟨hw, hst⟩ := hmoves (h.swap.act_moves ha hc) h.swap hs.swap
    exact ⟨hw.swap, hst.swap⟩

/-- **Every careful run keeps the wiring and the streams.** -/
theorem streams_of_run {d0 d : Duplex} (h : d0.Start)
    (hr : ReflTransGen (Step Careful) d0 d) : Wiring d ∧ Streams d := by
  induction hr with
  | refl =>
    refine ⟨wiring_start h, fun x y hend => absurd hend.1 ?_⟩
    simp [h.near_count]
  | tail _ hstep ih => exact ih.1.step ih.2 hstep

/-! ## What a stream guarantees -/

/-- The packets with command `c` from socket `i` to socket `j`. -/
def countStream (c : Command) (i j : Nat) (ps : List Packet) : Nat :=
  ps.countP fun p => p.command = c ∧ p.arg0 = i ∧ p.arg1 = j

/-- The bytes that the packets carry from socket `i` to socket `j`. -/
def streamBytes (i j : Nat) (ps : List Packet) : List UInt8 :=
  ps.flatMap fun p => if p.command = .wrte ∧ p.arg0 = i ∧ p.arg1 = j then p.data else []

/-- The direction of a stream from socket `x` of the near endpoint to socket `y` of the far one. -/
structure Flow (d : Duplex) (x y : Nat) : Prop where
  /-- At most one `A_WRTE` is unacknowledged. The first `A_OKAY` to a socket that opened the stream
  acknowledges its `A_OPEN`. -/
  window : countStream .wrte (d.near.sockets x).id (d.far.sockets y).id (d.gotFar ++ d.toFar)
      + (if (d.near.sockets x).transport = none then 0 else 1)
    ≤ countStream .okay (d.far.sockets y).id (d.near.sockets x).id d.gotNear + 1
  /-- An `A_WRTE` is acknowledged at most once. -/
  answers : countStream .okay (d.far.sockets y).id (d.near.sockets x).id (d.gotNear ++ d.toNear)
    ≤ countStream .wrte (d.near.sockets x).id (d.far.sockets y).id d.gotFar
      + (if (d.far.sockets y).transport = none then 1 else 0)
  /-- The bytes written are a prefix of the bytes read. -/
  prefix_read : (d.far.sockets y).written <+: (d.near.sockets x).read
  /-- Nothing is lost to a receiver that did not close at the end of its own file, unless a write
  failed. -/
  lossless : (d.far.sockets y).ownClose ≠ some .endOfFile →
    (d.far.sockets y).ownClose ≠ some .writeFailed →
    (d.near.sockets x).read = (d.far.sockets y).written ++ (d.far.sockets y).pkts.flatten
      ++ streamBytes (d.near.sockets x).id (d.far.sockets y).id d.toFar

theorem countP_message {i j : Nat} {f : Msg UInt8 → Bool} {c : Command}
    (hf : ∀ p : Packet, ((p.message i j).map f).getD false =
      decide (p.command = c ∧ p.arg0 = i ∧ p.arg1 = j))
    (ps : List Packet) : (ps.filterMap (·.message i j)).countP f = countStream c i j ps := by
  rw [countP_filterMap]
  exact congrArg (countP · ps) (funext hf)

section

variable (i j : Nat) (ps : List Packet)

theorem countP_isData :
    (ps.filterMap (·.message i j)).countP Msg.isData = countStream .wrte i j ps := by
  refine countP_message (fun p => ?_) ps
  unfold Packet.message
  by_cases ha : p.arg0 = i ∧ p.arg1 = j
  · cases hc : p.command <;> simp [ha, Msg.isData]
  · simp [ha]

theorem countP_isAck :
    (ps.filterMap (·.message i j)).countP Msg.isAck = countStream .okay i j ps := by
  refine countP_message (fun p => ?_) ps
  unfold Packet.message
  by_cases ha : p.arg0 = i ∧ p.arg1 = j
  · cases hc : p.command <;> simp [ha, Msg.isAck]
  · simp [ha]

theorem payload_message : payload (ps.filterMap (·.message i j)) = streamBytes i j ps := by
  induction ps with
  | nil => rfl
  | cons p ps ih =>
    unfold streamBytes at ih ⊢
    rw [flatMap_cons, ← ih, filterMap_cons]
    unfold Packet.message
    by_cases ha : p.arg0 = i ∧ p.arg1 = j
    · cases hc : p.command <;> simp [ha, payload, Msg.payload]
    · simp [ha]

end

/-- The invariant of the abstract machine is what a stream guarantees. -/
theorem flow_of_inv {d : Duplex} {x y : Nat} (h : StopAndWait.Inv (d.stream x y)) : Flow d x y := by
  have hwin := h.right.window
  have hans := h.left.answers
  simp only [stream, Pipe.swap, ← filterMap_append, countP_isData, countP_isAck,
    LocalSocket.toEnd] at hwin hans
  refine ⟨?_, ?_, ?_, fun heof hfailed => ?_⟩
  · cases ht : (d.near.sockets x).transport <;> simp [ht] at hwin ⊢ <;> omega
  · cases ht : (d.far.sockets y).transport <;> simp [ht] at hans ⊢ <;> omega
  · exact (prefix_append _ _).trans h.right.sound
  · have hown : (d.far.sockets y).ownClose.isSome = false := by
      rcases hc : (d.far.sockets y).ownClose with - | - | -
      · rfl
      · exact absurd hc hfailed
      · exact absurd hc heof
    have := h.right.exact hown
    rwa [show (d.stream x y).toRight = d.toFar.filterMap (·.message (d.near.sockets x).id
      (d.far.sockets y).id) from rfl, payload_message] at this

/-- **Flow control and integrity of streams.** After any run of careful steps, both directions of
every stream have at most one `A_WRTE` in flight, answer it at most once, and write a prefix of what
was read without losing anything. -/
theorem stream_flow_control {d₀ d : Duplex} (h : d₀.Start)
    (hr : ReflTransGen (Step Careful) d₀ d) (x y : Nat) (hend : Ends d x y) :
    Flow d x y ∧ Flow d.swap y x := by
  obtain ⟨-, hs⟩ := streams_of_run h hr
  refine ⟨flow_of_inv (hs x y hend), flow_of_inv ?_⟩
  exact (hs x y hend).swap

/-! ## Runs of two endpoints -/

/-- A schedule: which endpoint acts (`true` for the far one), and how. -/
def Duplex.run (ok : Duplex → Act → Prop) [∀ d a, Decidable (ok d a)] :
    List (Bool × Act) → Duplex → Option Duplex
  | [], d => some d
  | (false, a) :: l, d => if ok d a then (d.act a).bind (run ok l) else none
  | (true, a) :: l, d =>
    if ok d.swap a then (d.swap.act a).bind fun d' => run ok l d'.swap else none

theorem Duplex.run_steps {ok : Duplex → Act → Prop} [∀ d a, Decidable (ok d a)] :
    ∀ {l : List (Bool × Act)} {d d' : Duplex}, run ok l d = some d' →
      ReflTransGen (Step ok) d d'
  | [], d, d', h => by
    obtain rfl := some.inj h
    exact .refl
  | (false, a) :: l, d, d', h => by
    unfold run at h
    split_ifs at h with ho
    obtain ⟨c, hc, hl⟩ := bind_eq_some_iff.1 h
    exact (run_steps hl).head (.near a hc ho)
  | (true, a) :: l, d, d', h => by
    unfold run at h
    split_ifs at h with ho
    obtain ⟨c, hc, hl⟩ := bind_eq_some_iff.1 h
    exact (run_steps hl).head (show Step _ d c.swap from .far a hc ho)

/-- A host and a device that have just connected. -/
def freshDuplex : Duplex :=
  { near := { host := true, authRequired := false, transports := fun _ => { online := true } }
    far := { host := false, authRequired := false, transports := fun _ => { online := true } } }

theorem freshDuplex_start : freshDuplex.Start := by
  constructor <;> simp [freshDuplex]

/-- The host opens a stream to a service, reads two bytes and the end of its file, and closes. The
device cannot write the bytes yet. -/
def backlogSchedule : List (Bool × Act) :=
  [(false, .connect false false [120]),
   (true, .deliver { service := fun _ => some false }),
   (false, .deliver {}),
   (false, .poll 0 { read := true }),
   (false, .call 0 [] [.got 65 [66], .eof]),
   (true, .deliver { writes := [.again] })]

/-- The descriptor of the device's socket becomes readable, then the close arrives, and then the
socket handles the event and finds the end of its file. -/
def staleReadSchedule : List (Bool × Act) :=
  backlogSchedule ++
    [(true, .poll 0 { read := true }), (true, .deliver {}), (true, .call 0 [] [.eof])]

/-- The first socket of either endpoint, and the packets on their way to the far one. -/
def Duplex.observe (d : Duplex) : (Nat × LocalSocket) × (Nat × LocalSocket) × List Packet :=
  ((d.near.count, d.near.sockets 0), (d.far.count, d.far.sockets 0), d.toFar)

/-- The host's socket after it has read its file and closed. -/
def hostSocket : LocalSocket :=
  { id := 1, status := .freed, transport := some 0, partner := some 1, read := [65, 66],
    ownClose := some .endOfFile }

/-- The device's socket with the two bytes queued. -/
def deviceSocket : LocalSocket :=
  { id := 1, peer := some ⟨1, 0⟩, partner := some 1, pkts := [[65, 66]],
    fde := { want := { read := true, write := true } } }

theorem backlog_observe :
    (run Careful backlogSchedule freshDuplex).map observe =
      some ((1, hostSocket), (1, deviceSocket), [{ command := .clse, arg0 := 1, arg1 := 1 }]) := by
  decide

theorem staleRead_observe :
    (run (fun _ _ => True) staleReadSchedule freshDuplex).map observe =
      some ((1, hostSocket),
        (1, { deviceSocket with status := .freed, peer := none, pkts := [], fde := {} }), []) := by
  decide

/-- While the device has two bytes queued, the stream is as it should be. -/
theorem stream_flow_backlog :
    ∃ d, ReflTransGen (Step Careful) freshDuplex d ∧ Ends d 0 0
      ∧ (d.far.sockets 0).pkts = [[65, 66]] ∧ Flow d 0 0 ∧ Flow d.swap 0 0 := by
  obtain ⟨d, hrun, hobs⟩ := map_eq_some_iff.1 backlog_observe
  simp only [observe, Prod.mk.injEq] at hobs
  obtain ⟨⟨hnc, hn⟩, ⟨hfc, hf⟩, -⟩ := hobs
  have hend : Ends d 0 0 := by
    unfold Ends
    rw [hnc, hfc, hn, hf]
    decide
  refine ⟨d, run_steps hrun, hend, by rw [hf]; rfl, ?_⟩
  exact stream_flow_control freshDuplex_start (run_steps hrun) 0 0 hend

/-- **A socket drops data it had accepted.** The host read two bytes, sent them and closed. The
device's socket had queued them; no write failed and the socket did not close by itself, but neither
byte is written and the socket is gone. -/
theorem stream_drops_backlog :
    ∃ d, ReflTransGen (Step fun _ _ => True) freshDuplex d ∧ Ends d 0 0
      ∧ (d.near.sockets 0).read = [65, 66] ∧ d.toFar = []
      ∧ (d.far.sockets 0).status = .freed ∧ (d.far.sockets 0).ownClose = none
      ∧ (d.far.sockets 0).written = [] ∧ ¬Flow d 0 0 := by
  obtain ⟨d, hrun, hobs⟩ := map_eq_some_iff.1 staleRead_observe
  simp only [observe, Prod.mk.injEq] at hobs
  obtain ⟨⟨hnc, hn⟩, ⟨hfc, hf⟩, hto⟩ := hobs
  have hend : Ends d 0 0 := by
    unfold Ends
    rw [hnc, hfc, hn, hf]
    decide
  refine ⟨d, run_steps hrun, hend, by rw [hn]; rfl, hto, by rw [hf], by rw [hf]; rfl,
    by rw [hf]; rfl, fun hflow => ?_⟩
  have hloss := hflow.lossless (by rw [hf]; nofun) (by rw [hf]; nofun)
  rw [hn, hf, hto] at hloss
  exact absurd hloss (by decide)

end AndroidSystem.Adb
