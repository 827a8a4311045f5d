import AndroidSystem.Adb.HandlePacket
import AndroidSystem.Lib.StopAndWait

/-!
# A local socket is an end of a stop-and-wait stream

`LocalSocket.toEnd` reads a local socket as an end of the abstract stream: `FDE_READ` being asked for
is the credit to send, and a queue of packets is an acknowledgement owed. The functions of
`sockets.cpp` then do what an end may do, and send the packets that render its messages:

* `localSocketEventFunc_refines`: handling the events of a descriptor is a run of moves of the end,
  provided a pending `FDE_READ` is one that the socket has asked for;
* `socketOkay_receives`, `localSocketEnqueue_receives`, `localSocketClose_receives`: the three stream
  packets are the three messages.

`SocketOk` is what every local socket keeps up for that: nothing is read, queued or written without a
peer, and `FDE_WRITE` is asked for only while packets are queued.
-/

namespace AndroidSystem.Adb

open StopAndWait LocalSocket SocketStatus

variable {s : LocalSocket} {ws : List WriteResult} {r : RemoteSocket}

/-! ## The abstraction -/

/-- The status of an end. -/
def SocketStatus.toStatus : SocketStatus → Status
  | .active => .active
  | .closing => .closing
  | .freed => .closed

/-- A local socket as an end of a stream. -/
def LocalSocket.toEnd (s : LocalSocket) : End UInt8 :=
  { status := s.status.toStatus
    joined := s.peer.isSome
    credit := s.fde.want.read
    owes := !s.pkts.isEmpty
    accepted := s.transport.isNone
    ownClose := s.ownClose.isSome
    backlog := s.pkts.flatten
    read := s.read
    written := s.written }

/-- The packet that carries a message from socket `id` to its peer. -/
def render (id : Nat) (r : RemoteSocket) : Msg UInt8 → TransportId × Packet
  | .ack => (r.transport, { command := .okay, arg0 := id, arg1 := r.id })
  | .data d => (r.transport, { command := .wrte, arg0 := id, arg1 := r.id, data := d })
  | .close => (r.transport, { command := .clse, arg0 := id, arg1 := r.id })

/-- What a socket has to keep up. -/
structure SocketOk (s : LocalSocket) : Prop where
  pending_write : s.status = .active → s.fde.pending.write → s.fde.want.write
  want_write : s.status = .active → s.fde.want.write → s.pkts ≠ []
  pkts_peer : s.status = .active → s.pkts ≠ [] → s.peer.isSome
  read_peer : s.status = .active → s.fde.want.read → s.peer.isSome
  accepted_peer : s.status = .active → s.transport = none → s.peer.isSome
  gone : s.status ≠ .active → s.peer = none
  quiet : s.status ≠ .active → s.fde.want.read = false

/-- What a function may change about a socket that goes on being the same one: it keeps its name and
the transport it opened its stream on, it is not revived and gets no other peer. -/
structure Same (s s' : LocalSocket) : Prop where
  id : s'.id = s.id
  transport : s'.transport = s.transport
  partner : s'.partner = s.partner
  active : s'.status = .active → s.status = .active
  peer : s'.peer = s.peer ∨ s'.peer = none

theorem Same.refl (s : LocalSocket) : Same s s := ⟨rfl, rfl, rfl, fun h => h, .inl rfl⟩

theorem Same.trans {s' s'' : LocalSocket} (h : Same s s') (h' : Same s' s'') : Same s s'' := by
  refine ⟨h'.id.trans h.id, h'.transport.trans h.transport, h'.partner.trans h.partner,
    fun ha => h.active (h'.active ha), ?_⟩
  rcases h'.peer with h1 | h1
  · rw [h1]; exact h.peer
  · exact .inr h1

/-- A function that does to a socket what moves of the end do, and sends what they send. -/
structure Refines (s : LocalSocket) (x : Effect) (ms : List (Msg UInt8)) : Prop where
  moves : Moves s.toEnd ms x.socket.toEnd
  out : x.out = s.peer.elim [] fun r => ms.map (render s.id r)
  silent : s.peer = none → ms = []
  same : Same s x.socket
  ok : SocketOk x.socket

/-! ## Closing -/

theorem socketOk_inactive (hs : s.status ≠ .active) (hp : s.peer = none)
    (hr : s.fde.want.read = false) : SocketOk s :=
  ⟨fun h => absurd h hs, fun h => absurd h hs, fun h => absurd h hs, fun h => absurd h hs,
    fun h => absurd h hs, fun _ => hp, fun _ => hr⟩

/-- The status text a socket owes its client is no part of the stream. -/
theorem settle_same (s : LocalSocket) (text : List UInt8) :
    (s.settle text).toEnd = s.toEnd ∧ Same s (s.settle text)
      ∧ (s.settle text).status = s.status ∧ (s.settle text).peer = s.peer
      ∧ (s.settle text).pkts = s.pkts ∧ (s.settle text).fde = s.fde := by
  unfold settle
  split_ifs
  · exact ⟨rfl, ⟨rfl, rfl, rfl, fun h => h, .inl rfl⟩, rfl, rfl, rfl, rfl⟩
  · exact ⟨rfl, .refl s, rfl, rfl, rfl, rfl⟩

theorem localSocketClose_active (ha : s.status = .active) :
    (localSocketClose s).socket.toEnd =
        { s.toEnd with status := if s.pkts = [] then .closed else .closing, joined := false,
                       credit := false }
      ∧ Same s (localSocketClose s).socket ∧ SocketOk (localSocketClose s).socket
      ∧ (localSocketClose s).out = s.peer.elim [] (remoteSocketShutdown s.id) := by
  obtain ⟨hend, hsame, hst, hpeer, hpkts, hfde⟩ := settle_same s failClosedText
  unfold localSocketClose
  generalize s.settle failClosedText = u at hend hsame hst hpeer hpkts hfde ⊢
  rw [← hend, ← hpkts, ← hpeer, ← hsame.id]
  rw [ha] at hst
  unfold localSocketCloseLocked localSocketRetire
  by_cases hp : u.pkts = []
  · rw [if_pos (.inr hp)]
    refine ⟨?_, hsame.trans ⟨rfl, rfl, rfl, by simp [localSocketDestroy], .inr rfl⟩,
      socketOk_inactive (by simp [localSocketDestroy]) rfl rfl, rfl⟩
    simp [localSocketDestroy, toEnd, toStatus, hp]
  · rw [if_neg (by simp [hp, hst])]
    refine ⟨?_, hsame.trans ⟨rfl, rfl, rfl, by simp, .inr rfl⟩,
      socketOk_inactive (by simp) rfl (by simp [fdeventDel_read_want]), rfl⟩
    simp [toEnd, toStatus, hp, fdeventDel_read_want]

theorem localSocketClose_closing (hc : s.status = .closing) (hp : s.peer = none) :
    (localSocketClose s).socket.toEnd =
        { s.toEnd with status := .closed, credit := false, owes := false, backlog := [] }
      ∧ Same s (localSocketClose s).socket ∧ SocketOk (localSocketClose s).socket
      ∧ (localSocketClose s).out = [] := by
  obtain ⟨hend, hsame, hst, hpeer, -, -⟩ := settle_same s failClosedText
  unfold localSocketClose
  rw [← hend]
  unfold localSocketCloseLocked localSocketRetire
  rw [if_pos (.inl (hst.trans hc))]
  refine ⟨?_, hsame.trans ⟨rfl, rfl, rfl, by simp [localSocketDestroy], .inr rfl⟩,
    socketOk_inactive (by simp [localSocketDestroy]) rfl rfl, by simp [hpeer, hp]⟩
  simp [localSocketDestroy, toEnd, toStatus, hpeer, hp]

/-- **An active socket that closes by itself** closes the end, and frees it if there is no queue. -/
theorem localSocketClose_refines (ha : s.status = .active) (cause : OwnClose) :
    Refines s (localSocketClose { s with ownClose := some cause })
      (if s.peer.isSome then [.close] else []) := by
  obtain ⟨hend, hsame, hok, hout⟩ :=
    localSocketClose_active (s := { s with ownClose := some cause }) ha
  have hclose : Moves s.toEnd (if s.peer.isSome then [.close] else [])
      { s.toEnd with status := .closing, joined := false, credit := false, ownClose := true } :=
    (Local.close (by simp [toEnd, ha, toStatus])).moves
  have hown : Same s { s with ownClose := some cause } := ⟨rfl, rfl, rfl, fun h => h, .inl rfl⟩
  refine ⟨?_, ?_, ?_, hown.trans hsame, hok⟩
  · rw [hend]
    by_cases hp : s.pkts = []
    · have hfin := hclose.tail (.finish rfl (by simp [toEnd, hp]))
      simpa [toEnd, hp] using hfin
    · simpa [toEnd, hp] using hclose
  · rw [hout]
    cases s.peer <;> rfl
  · intro h
    simp [h]

/-! ## Events of the descriptor -/

/-- Moves that send nothing, followed by a function. -/
theorem Refines.after {u : LocalSocket} {x : Effect} {ms : List (Msg UInt8)}
    (h : Moves s.toEnd [] u.toEnd) (hsame : Same s u) (hpeer : u.peer = s.peer)
    (hx : Refines u x ms) : Refines s x ms := by
  refine ⟨by simpa using h.trans hx.moves, ?_, ?_, hsame.trans hx.same, hx.ok⟩
  · rw [hx.out, hpeer, hsame.id]
  · rw [← hpeer]; exact hx.silent

theorem drained_same (s : LocalSocket) (d : Drained) : Same s (s.drained d) :=
  ⟨rfl, rfl, rfl, fun h => h, .inl rfl⟩

theorem isEmpty_eq_false {α : Type*} {l : List α} (h : l ≠ []) : l.isEmpty = false := by
  simpa using h

/-- Writing out the queue is a move of the end, up to the acknowledgement. -/
theorem drainLoop_moves (s : LocalSocket) (ws : List WriteResult) :
    Moves s.toEnd []
      { (s.drained (drainLoop ws s.pkts)).toEnd with owes := !s.pkts.isEmpty } :=
  (Local.write _ _ (drainLoop_spec ws s.pkts).symm).moves

theorem drainLoop_left {ps : List (List UInt8)} (h : (drainLoop ws ps).left ≠ []) : ps ≠ [] := by
  rintro rfl
  exact h rfl

theorem drainLoop_moves_left (h : (drainLoop ws s.pkts).left ≠ []) :
    Moves s.toEnd [] (s.drained (drainLoop ws s.pkts)).toEnd := by
  have howes : (s.drained (drainLoop ws s.pkts)).toEnd.owes = !s.pkts.isEmpty := by
    rw [isEmpty_eq_false (drainLoop_left h)]
    exact congrArg not (isEmpty_eq_false h)
  have hm := drainLoop_moves s ws
  rwa [← howes] at hm

section

variable (hs : SocketOk s)
include hs

theorem SocketOk.drained (h : (drainLoop ws s.pkts).left ≠ []) :
    SocketOk (s.drained (drainLoop ws s.pkts)) :=
  { hs with
    want_write := fun _ _ => h
    pkts_peer := fun ha _ => hs.pkts_peer ha (drainLoop_left h) }

theorem localSocketClose_fails (hc : s.status = .closing) (cause : OwnClose) :
    Refines s (localSocketClose { s with ownClose := some cause }) [] := by
  have hp : s.peer = none := hs.gone (by simp [hc])
  obtain ⟨hend, hsame, hok, hout⟩ :=
    localSocketClose_closing (s := { s with ownClose := some cause }) hc hp
  have hown : Same s { s with ownClose := some cause } := ⟨rfl, rfl, rfl, fun h => h, .inl rfl⟩
  refine ⟨?_, by rw [hout, hp]; rfl, fun _ => rfl, hown.trans hsame, hok⟩
  have hm := (Local.fail (e := s.toEnd) (by simp [toEnd, hc, toStatus])).moves
  have hr := hs.quiet (by simp [hc])
  rw [hend]
  simpa [toEnd, hr] using hm

omit hs in
theorem active_or_closing (h : s.status ≠ .freed) : s.status = .active ∨ s.status = .closing := by
  cases hs : s.status <;> simp_all

/-- The queue is not written to its end: the socket waits for the next event, or the write failed
and it closes. -/
theorem localSocketWritable_left (hst : s.status ≠ .freed) (h : (drainLoop ws s.pkts).left ≠ []) :
    ∃ ms, Refines s (localSocketWritable ws s).1 ms ∧ (localSocketWritable ws s).2 = false := by
  unfold localSocketWritable
  rw [if_pos h]
  have hok := hs.drained h
  have hsame := drained_same s (drainLoop ws s.pkts)
  have hm := drainLoop_moves_left h
  have hpeer : (s.drained (drainLoop ws s.pkts)).peer = s.peer := rfl
  have hstu : (s.drained (drainLoop ws s.pkts)).status = s.status := rfl
  generalize s.drained (drainLoop ws s.pkts) = u at hok hsame hm hpeer hstu ⊢
  split_ifs with hf
  · rcases active_or_closing (hstu ▸ hst) with ha | hc
    · exact ⟨_, (localSocketClose_refines ha .writeFailed).after hm hsame hpeer, rfl⟩
    · exact ⟨_, (localSocketClose_fails hok hc .writeFailed).after hm hsame hpeer, rfl⟩
  · exact ⟨[], ⟨hm, by cases s.peer <;> rfl, fun _ => rfl, hsame, hok⟩, rfl⟩

theorem localSocketWritable_closing (hc : s.status = .closing) (h : (drainLoop ws s.pkts).left = []) :
    Refines s (localSocketWritable ws s).1 [] ∧ (localSocketWritable ws s).2 = false := by
  have hp : s.peer = none := hs.gone (by simp [hc])
  have hr := hs.quiet (by simp [hc])
  obtain ⟨hend, hsame, hok, hout⟩ := localSocketClose_closing
    (s := s.drained (drainLoop ws s.pkts)) hc hp
  unfold localSocketWritable
  rw [if_neg (by simp [h]), if_pos hc]
  refine ⟨⟨?_, by rw [hout, hp]; rfl, fun _ => rfl, (drained_same _ _).trans hsame, hok⟩, rfl⟩
  have hfin := (drainLoop_moves s ws).tail (.finish
    (by simp [toEnd, drained, hc, toStatus])
    (by simp [toEnd, drained, h]))
  rw [hend]
  simpa [toEnd, drained, h, hr] using hfin

theorem localSocketWritable_active (ha : s.status = .active) (hne : s.pkts ≠ [])
    (hpend : s.fde.pending = {}) (h : (drainLoop ws s.pkts).left = []) :
    Refines s (localSocketWritable ws s).1 [.ack]
      ∧ (localSocketWritable ws s).1.socket.peer = s.peer
      ∧ (localSocketWritable ws s).1.socket.status = .active
      ∧ (localSocketWritable ws s).1.socket.fde.want.read = s.fde.want.read := by
  obtain ⟨r, hr⟩ := Option.isSome_iff_exists.1 (hs.pkts_peer ha hne)
  have hrd : (s.drained (drainLoop ws s.pkts)).peer = some r := hr
  unfold localSocketWritable
  dsimp only
  rw [if_neg (by simp [h]), if_neg (by simp [ha]), hrd]
  refine ⟨⟨?_, by rw [hr]; rfl, by simp [hr], ⟨rfl, rfl, rfl, fun _ => ha, .inl hr.symm⟩, ?_⟩,
    hr.symm, ha, by simp [fdeventDel_write_want]⟩
  · have hack := (drainLoop_moves s ws).tail (.acknowledge
      (by simp [toEnd, drained, ha, toStatus])
      (by simp [hne]))
    simpa [toEnd, drained, h, hr, fdeventDel_write_want] using hack
  · refine ⟨fun _ hp => ?_, fun _ hw => ?_, fun _ hp => absurd h hp, fun _ _ => rfl,
      fun _ _ => rfl, fun hn => absurd ha hn, fun hn => absurd ha hn⟩
    · have := fdeventSet_pending_write hp
      simp [hpend] at this
    · simp [fdeventDel_write_want] at hw

omit hs in
/-- One function after another, on a socket that keeps its peer in between. -/
theorem Refines.trans {x y : Effect} {ms ms' : List (Msg UInt8)} (hx : Refines s x ms)
    (hp : x.socket.peer = s.peer) (hy : Refines x.socket y ms') :
    Refines s { y with out := x.out ++ y.out } (ms ++ ms') := by
  refine ⟨hx.moves.trans hy.moves, ?_, ?_, hx.same.trans hy.same, hy.ok⟩
  · show x.out ++ y.out = _
    rw [hx.out, hy.out, hp, hx.same.id]
    cases s.peer <;> simp
  · intro hn
    rw [hx.silent hn, hy.silent (hp.trans hn)]
    rfl

/-- The bytes of a read event go out as one message, and spend the credit. -/
theorem localSocketSend_refines (data : List UInt8) (ha : s.status = .active)
    (hw : s.fde.want.read = true) :
    ∃ ms, Refines s (localSocketSend data { s with read := s.read ++ data }) ms
      ∧ (localSocketSend data { s with read := s.read ++ data }).socket.peer = s.peer
      ∧ (localSocketSend data { s with read := s.read ++ data }).socket.status = .active := by
  obtain ⟨r, hr⟩ := Option.isSome_iff_exists.1 (hs.read_peer ha hw)
  unfold localSocketSend
  by_cases hd : data = []
  · rw [if_pos hd]
    refine ⟨[], ⟨?_, by cases s.peer <;> rfl, fun _ => rfl, ⟨rfl, rfl, rfl, fun h => h, .inl rfl⟩,
      ?_⟩, rfl, ha⟩
    · simpa [toEnd, hd] using Moves.refl s.toEnd
    · simpa [hd] using hs
  · have hru : ({ s with read := s.read ++ data } : LocalSocket).peer = some r := hr
    rw [if_neg hd, hru]
    refine ⟨[.data data], ⟨?_, by rw [hr]; rfl, by simp [hr],
      ⟨rfl, rfl, rfl, fun h => h, .inl hr.symm⟩, ?_⟩, rfl, ha⟩
    · have hm := (Local.send (e := s.toEnd) data
        (by simp [toEnd, ha, toStatus]) hw).moves
      simpa [toEnd, hr, fdeventDel_read_want] using hm
    · refine ⟨fun _ hp => ?_, fun _ hw => ?_, fun _ _ => rfl, fun _ _ => rfl, fun _ _ => rfl,
        fun hn => absurd ha hn, fun hn => absurd ha hn⟩
      · have := hs.pending_write ha (fdeventSet_pending_write hp)
        simpa [fdeventDel_read_want] using this
      · exact hs.want_write ha (by simpa [fdeventDel_read_want] using hw)

/-- **A readable descriptor.** An active socket that asked for `FDE_READ` sends what it reads, and
closes at the end of the file. -/
theorem localSocketReadable_refines (rs : List ReadResult) (ha : s.status = .active)
    (hw : s.fde.want.read = true) : ∃ ms, Refines s (localSocketReadable rs s) ms := by
  generalize hl : readLoop rs maxPayload = l
  obtain ⟨ms, hsend, hpeer, hact⟩ := localSocketSend_refines hs l.1 ha hw
  unfold localSocketReadable
  simp only [hl]
  generalize localSocketSend l.1 { s with read := s.read ++ l.1 } = x at hsend hpeer hact ⊢
  split_ifs with he
  · exact ⟨_, hsend.trans hpeer (localSocketClose_refines hact .endOfFile)⟩
  · exact ⟨ms, hsend⟩

/-- **Handling the events of a descriptor** is a run of moves of the end, provided a pending
`FDE_READ` is one the socket has asked for. -/
theorem localSocketEventFunc_refines (ws : List WriteResult) (rs : List ReadResult)
    (hst : s.status ≠ .freed) (hread : s.fde.pending.read = true → s.fde.want.read = true) :
    ∃ ms, Refines s (localSocketEventFunc ws rs s) ms := by
  -- the pending events are taken off first
  set u : LocalSocket := { s with fde := { s.fde with pending := {} } } with hu
  have hok : SocketOk u := { hs with pending_write := fun _ h => by simp [hu] at h }
  have hsame : Same s u := ⟨rfl, rfl, rfl, fun h => h, .inl rfl⟩
  have hpend : u.fde.pending = {} := rfl
  have hact : s.fde.pending.read = true → u.status = .active := by
    intro h
    by_contra hn
    exact absurd (hread h) (by rw [hs.quiet hn]; decide)
  suffices h : ∃ ms, Refines u (localSocketEventFunc ws rs s) ms by
    obtain ⟨ms, hms⟩ := h
    have hstay : Moves s.toEnd [] u.toEnd := .refl s.toEnd
    exact ⟨ms, hms.after hstay hsame rfl⟩
  unfold localSocketEventFunc
  rw [← hu]
  by_cases hw : s.fde.pending.write = true
  · simp only [hw, if_true]
    by_cases hleft : (drainLoop ws u.pkts).left = []
    · cases hstatus : u.status with
      | active =>
        have hne := hs.want_write hstatus (hs.pending_write hstatus hw)
        obtain ⟨hx, hpeer, hxa, hxr⟩ := localSocketWritable_active hok hstatus hne hpend hleft
        split_ifs with hgo
        · obtain ⟨ms, hms⟩ := localSocketReadable_refines hx.ok rs hxa
            (hxr.trans (hread hgo.2))
          exact ⟨_, hx.trans hpeer hms⟩
        · exact ⟨_, hx⟩
      | closing =>
        obtain ⟨hx, hstop⟩ := localSocketWritable_closing hok hstatus hleft
        simp only [hstop]
        exact ⟨_, hx⟩
      | freed => exact absurd hstatus hst
    · obtain ⟨ms, hx, hstop⟩ := localSocketWritable_left hok hst hleft
      simp only [hstop]
      exact ⟨ms, hx⟩
  · simp only [hw, Bool.false_eq_true, if_false, true_and]
    split_ifs with hr
    · obtain ⟨ms, hms⟩ := localSocketReadable_refines hok rs (hact hr) (hread hr)
      exact ⟨ms, hms⟩
    · exact ⟨[], .refl _, by cases u.peer <;> rfl, fun _ => rfl, .refl u, hok⟩

/-! ## Packets -/

/-- A function that does to a socket what an end does when it receives `m`. -/
structure Receives (s : LocalSocket) (m : Msg UInt8) (s' : LocalSocket) (ms : List (Msg UInt8)) :
    Prop where
  receive : ∃ out out' e, Receive s.toEnd m out e ∧ Moves e out' s'.toEnd ∧ ms = out ++ out'
  id : s'.id = s.id
  transport : s'.transport = s.transport
  active : s'.status = .active → s.status = .active
  ok : SocketOk s'

omit hs in
theorem toEnd_active (ha : s.status = .active) : s.toEnd.status = .active := by
  simp [toEnd, ha, toStatus]

/-- **`A_OKAY`** gives credit, and joins a socket that was waiting for its stream. -/
theorem socketOkay_receives (ha : s.status = .active) (hr : s.peer = none ∨ s.peer = some r) :
    Receives s .ack (socketOkay r s) []
      ∧ (socketOkay r s).peer = some r
      ∧ (socketOkay r s).partner = (if s.peer = none then some r.id else s.partner) := by
  -- whether the peer is new or not, the socket is made ready
  have hready : ∀ u : LocalSocket, u.peer = some r → u.status = .active →
      { s.toEnd with joined := true } = u.toEnd → u.fde = s.fde → u.pkts = s.pkts → u.id = s.id →
      u.transport = s.transport →
      Receives s .ack (localSocketReady u) [] ∧ (localSocketReady u).peer = some r
        ∧ (localSocketReady u).partner = u.partner := by
    intro u hu hua hend hfde hpkts hid htr
    obtain ⟨huend, husame, hust, hupeer, hupkts, hufde⟩ := settle_same u okayText
    refine ⟨⟨⟨[], [], _, .ack (toEnd_active ha), ?_, rfl⟩, husame.id.trans hid,
      husame.transport.trans htr, fun _ => ha, ?_⟩, hupeer.trans hu, husame.partner⟩
    · have he : (localSocketReady u).toEnd = { (u.settle okayText).toEnd with credit := true } := by
        simp [localSocketReady, toEnd, fdeventAdd_read_want]
      rw [he, huend, ← hend]
      exact .refl _
    · have hsome : (u.settle okayText).peer.isSome := by rw [hupeer, hu]; rfl
      refine ⟨fun _ hp => ?_, fun _ hw => ?_, fun _ _ => hsome, fun _ _ => hsome, fun _ _ => hsome,
        fun hn => absurd (hust.trans hua) hn, fun hn => absurd (hust.trans hua) hn⟩
      · have := hs.pending_write ha (by rw [← hfde]; exact fdeventSet_pending_write hp)
        simpa [localSocketReady, fdeventAdd_read_want, hfde] using this
      · have := hs.want_write ha (by simpa [localSocketReady, fdeventAdd_read_want, hfde] using hw)
        simpa [localSocketReady, hupkts, hpkts] using this
  unfold socketOkay
  rcases hr with hr | hr
  · simp only [hr]
    exact hready _ rfl ha (by simp [toEnd]) rfl rfl rfl rfl
  · simp only [hr]
    exact hready s hr ha (by simp [toEnd, hr]) rfl rfl rfl rfl

end

theorem localSocketClose_receives (ha : s.status = .active) (hr : s.peer = some r) :
    Receives s .close (localSocketClose s).socket [.close]
      ∧ Same s (localSocketClose s).socket
      ∧ (localSocketClose s).out = [render s.id r .close] := by
  obtain ⟨hend, hsame, hok, hout⟩ := localSocketClose_active ha
  refine ⟨⟨⟨[.close], [], _, .close (toEnd_active ha) (by simp [toEnd, hr]), ?_, rfl⟩,
    hsame.id, hsame.transport, hsame.active, hok⟩, hsame, by rw [hout, hr]; rfl⟩
  rw [hend]
  by_cases hp : s.pkts = []
  · have hfin : Moves { s.toEnd with status := .closing, joined := false, credit := false } []
        { s.toEnd with status := .closed, joined := false, credit := false, owes := false } :=
      (Local.finish rfl (by simp [toEnd, hp])).moves
    simpa [toEnd, hp] using hfin
  · rw [if_neg hp]
    exact .refl _

theorem socketOk_queued (ha : s.status = .active) (hsome : s.peer.isSome) {ps : List (List UInt8)}
    (hps : ps ≠ []) {written : List UInt8} :
    SocketOk { s with pkts := ps, written := written, fde := fdeventAdd s.fde fdeWrite } :=
  ⟨fun _ _ => by simp [fdeventAdd_write_want], fun _ _ => hps, fun _ _ => hsome, fun _ _ => hsome,
    fun _ _ => hsome, fun hn => absurd ha hn, fun hn => absurd ha hn⟩

/-- **`A_WRTE`** adds to the queue. What can be written at once is, and if that is everything the
acknowledgement follows. -/
theorem localSocketEnqueue_receives (hs : SocketOk s) (ha : s.status = .active)
    (hr : s.peer = some r) (ws : List WriteResult) (data : List UInt8) :
    ∃ ms, Receives s (.data data) (localSocketEnqueue ws data s).2.socket ms
      ∧ Same s (localSocketEnqueue ws data s).2.socket
      ∧ ((localSocketEnqueue ws data s).2.out
          ++ if (localSocketEnqueue ws data s).1 = 0 then sendReady s.id r.id r.transport else [])
        = ms.map (render s.id r) := by
  have hrec : Receive s.toEnd (.data data) []
      { s.toEnd with backlog := s.pkts.flatten ++ data, owes := true } :=
    .data data (toEnd_active ha) (by simp [toEnd, hr])
  have hsome : s.peer.isSome := by simp [hr]
  unfold localSocketEnqueue
  by_cases hp : s.pkts = []
  · rw [if_neg (by simp [hp])]
    have hwrite := writeLoop_spec ws data
    generalize (writeLoop ws data).1 = w at hwrite ⊢
    have hbacklog : s.pkts.flatten ++ data = w.done ++ w.left := by simp [hp, hwrite]
    have hmove : Moves { s.toEnd with backlog := s.pkts.flatten ++ data, owes := true } []
        { s.toEnd with backlog := w.left, owes := true, written := s.written ++ w.done } :=
      (Local.write w.done w.left hbacklog).moves
    by_cases hf : w.failed = true
    · rw [if_pos hf]
      -- the write failed: the socket is freed with the rest of the packet
      obtain ⟨hend, hsame, hok, hout⟩ := localSocketClose_active
        (s := { s with written := s.written ++ w.done, ownClose := some .writeFailed }) ha
      have hsame' : Same s { s with written := s.written ++ w.done, ownClose := some .writeFailed } :=
        ⟨rfl, rfl, rfl, fun h => h, .inl rfl⟩
      refine ⟨[.close], ⟨⟨[], [.close], _, hrec, ?_, rfl⟩, hsame.id, hsame.transport, hsame.active,
        hok⟩, hsame'.trans hsame, by rw [hout, hr]; rfl⟩
      have hclose := (hmove.tail (.close (toEnd_active ha))).tail (.fail rfl)
      rw [hend]
      simpa [toEnd, hp, hr] using hclose
    · rw [if_neg hf]
      by_cases hleft : w.left = []
      · rw [if_pos hleft]
        refine ⟨[.ack], ⟨⟨[], [.ack], _, hrec, ?_, rfl⟩, rfl, rfl, fun h => h, ?_⟩,
          ⟨rfl, rfl, rfl, fun h => h, .inl rfl⟩, rfl⟩
        · have hack := hmove.tail (.acknowledge (toEnd_active ha) rfl)
          simpa [toEnd, hp, hleft] using hack
        · exact { hs with }
      · rw [if_neg hleft]
        refine ⟨[], ⟨⟨[], [], _, hrec, ?_, rfl⟩, rfl, rfl, fun h => h, ?_⟩,
          ⟨rfl, rfl, rfl, fun h => h, .inl rfl⟩, rfl⟩
        · simpa [toEnd, fdeventAdd_write_want] using hmove
        · exact socketOk_queued ha hsome (by simp)
  · rw [if_pos hp]
    refine ⟨[], ⟨⟨[], [], _, hrec, ?_, rfl⟩, rfl, rfl, fun h => h, ?_⟩,
      ⟨rfl, rfl, rfl, fun h => h, .inl rfl⟩, rfl⟩
    · have hne : (s.pkts ++ [data]).isEmpty = false := isEmpty_eq_false (by simp)
      simpa [toEnd, fdeventAdd_write_want, hne] using
        Moves.refl { s.toEnd with backlog := s.pkts.flatten ++ data, owes := true }
    · exact socketOk_queued ha hsome (by simp)

end AndroidSystem.Adb
