import Mathlib.Data.List.Basic
import Mathlib.Tactic.Ring

/-!
# adb packets and local sockets

The stream layer of adb (`sockets.cpp`, `fdevent.cpp`). A *local socket* sits between a file
descriptor and a remote socket, the near end of a stream that runs over a transport. Every
`local_socket_*` function touches one local socket and sends packets, so each is a function of
that socket, and its `Effect` says what the socket becomes, what is sent and whether the process
ends.

**The descriptor.** What `adb_read` and `adb_write` return is up to the environment, so the loops
around them take the list of results. A list that runs out stands for a descriptor that would
block.

**History.** `read`, `written` and `replies` log the traffic of the descriptor, `partner` keeps
the id of the peer after the peer is gone and `ownClose` records why the socket was closed from its
own side. No function reads them.
-/

namespace AndroidSystem.Adb

open List

/-! ## Packets -/

/-- The `command` word of an `amessage`. -/
inductive Command where
  | sync
  | cnxn
  | open_
  | okay
  | clse
  | wrte
  | auth
  | unknown (word : Nat)
  deriving Repr, DecidableEq

/-- An `apacket`: the message and its payload. -/
structure Packet where
  command : Command
  arg0 : Nat := 0
  arg1 : Nat := 0
  data : List UInt8 := []
  deriving Repr, DecidableEq

/-- Transports are named by numbers. -/
abbrev TransportId := Nat

/-- Packets handed to `send_packet`, each with its transport, oldest first. -/
abbrev Output := List (TransportId × Packet)

def maxPayload : Nat := 4096

def sendReady (localId remoteId : Nat) (t : TransportId) : Output :=
  [(t, { command := .okay, arg0 := localId, arg1 := remoteId })]

def sendClose (localId remoteId : Nat) (t : TransportId) : Output :=
  [(t, { command := .clse, arg0 := localId, arg1 := remoteId })]

/-! ## Events of a descriptor -/

/-- A set of the events `FDE_READ` and `FDE_WRITE`. -/
structure Events where
  read : Bool := false
  write : Bool := false
  deriving Repr, DecidableEq

/-- An `fdevent`: the events asked for (`state & FDE_EVENTMASK`) and those that wait to be
delivered (`events`, with `FDE_PENDING` set when there are any). -/
structure Fdevent where
  want : Events := {}
  pending : Events := {}
  deriving Repr, DecidableEq

section

variable (fde : Fdevent) (events : Events)

def fdeventSet : Fdevent :=
  if fde.want = events then fde
  else
    -- `fde->events &= (~events)` drops the events that are wanted from now on; the comment in
    -- the source asks for the opposite
    { want := events
      pending := { read := fde.pending.read && !events.read
                   write := fde.pending.write && !events.write } }

def fdeventAdd : Fdevent :=
  fdeventSet fde { read := fde.want.read || events.read, write := fde.want.write || events.write }

def fdeventDel : Fdevent :=
  fdeventSet fde
    { read := fde.want.read && !events.read, write := fde.want.write && !events.write }

end

def fdeRead : Events := { read := true }

def fdeWrite : Events := { write := true }

/-- `fdevent_process` finds `ready` events on the descriptor: those asked for become pending. -/
def Fdevent.poll (fde : Fdevent) (ready : Events) : Fdevent :=
  { fde with pending := { read := fde.pending.read || (fde.want.read && ready.read)
                          write := fde.pending.write || (fde.want.write && ready.write) } }

/-- `fdevent_subproc_event_func` on the descriptor of a service process that has exited with no
byte left to read: `FDE_READ` becomes pending whether or not it was asked for. -/
def Fdevent.subproc (fde : Fdevent) : Fdevent :=
  { fde with pending := { fde.pending with read := true } }

/-! ## Reading and writing a descriptor -/

/-- What one `adb_write` returns. `wrote n` is `n + 1` bytes, or all there are if fewer. -/
inductive WriteResult where
  | wrote (n : Nat)
  | again
  | error
  deriving Repr, DecidableEq

/-- What one `adb_read` returns: at least one byte, `EAGAIN`, or end of file (an unhandled error
is treated like it). -/
inductive ReadResult where
  | got (b : UInt8) (bs : List UInt8)
  | again
  | eof
  deriving Repr, DecidableEq

/-- Where a write loop stops: the bytes that went out, those that did not, and whether the last
`adb_write` failed. -/
structure Written where
  done : List UInt8
  left : List UInt8
  failed : Bool
  deriving Repr, DecidableEq

/-- The loop `while (p->len > 0)` around `adb_write`, and the results it leaves unused. -/
def writeLoop : List WriteResult → List UInt8 → Written × List WriteResult
  | rs, [] => (⟨[], [], false⟩, rs)
  | [], p => (⟨[], p, false⟩, [])
  | .again :: rs, p => (⟨[], p, false⟩, rs)
  | .error :: rs, p => (⟨[], p, true⟩, rs)
  | .wrote n :: rs, p =>
    let w := writeLoop rs (p.drop (n + 1))
    ({ w.1 with done := p.take (n + 1) ++ w.1.done }, w.2)

/-- Where draining the queue of packets stops. -/
structure Drained where
  done : List UInt8
  left : List (List UInt8)
  failed : Bool
  deriving Repr, DecidableEq

/-- The loop over `pkt_first` in `local_socket_event_func`. -/
def drainLoop : List WriteResult → List (List UInt8) → Drained
  | _, [] => ⟨[], [], false⟩
  | rs, p :: ps =>
    let w := writeLoop rs p
    if w.1.left = [] then
      let d := drainLoop w.2 ps
      { d with done := w.1.done ++ d.done }
    else ⟨w.1.done, w.1.left :: ps, w.1.failed⟩

/-- The loop around `adb_read`: the bytes read and `is_eof`. -/
def readLoop : List ReadResult → Nat → List UInt8 × Bool
  | _, 0 => ([], false)
  | [], _ => ([], false)
  | .again :: _, _ => ([], false)
  | .eof :: _, _ => ([], true)
  | .got b bs :: rs, avail =>
    let x := (b :: bs).take avail
    let l := readLoop rs (avail - x.length)
    (x ++ l.1, l.2)

/-! ## Local sockets -/

/-- Where a local socket is kept: on `local_socket_list`, on `local_socket_closing_list`, or
freed. -/
inductive SocketStatus where
  | active
  | closing
  | freed
  deriving Repr, DecidableEq

/-- A remote socket: the id of the stream's other end and the transport it is reached over. -/
structure RemoteSocket where
  id : Nat
  transport : TransportId
  deriving Repr, DecidableEq

/-- Why a local socket is closed from its own side. -/
inductive OwnClose where
  | writeFailed
  | endOfFile
  deriving Repr, DecidableEq

/-- A local socket (`asocket`). `transport` is set on a socket that opens a stream, and `notify`
while its `ready` and `close` are the `_notify` functions. `remove_socket` clears the id of a
socket that leaves `local_socket_list`; it is kept here, and only sockets on that list are
looked up. -/
structure LocalSocket where
  id : Nat := 0
  status : SocketStatus := .active
  peer : Option RemoteSocket := none
  transport : Option TransportId := none
  notify : Bool := false
  exitOnClose : Bool := false
  fde : Fdevent := {}
  pkts : List (List UInt8) := []
  read : List UInt8 := []
  written : List UInt8 := []
  replies : List UInt8 := []
  partner : Option Nat := none
  ownClose : Option OwnClose := none
  deriving Repr, DecidableEq

/-- How a process ends inside a function. -/
inductive Halt where
  | exit
  | segfault
  deriving Repr, DecidableEq

/-- What a function does to the one local socket it is given. -/
structure Effect where
  socket : LocalSocket
  out : Output := []
  halt : Option Halt := none
  deriving Repr, DecidableEq

/-- `remote_socket_enqueue` of the peer of local socket `localId` -/
def remoteSocketEnqueue (localId : Nat) (data : List UInt8) (r : RemoteSocket) : Output :=
  [(r.transport, { command := .wrte, arg0 := localId, arg1 := r.id, data := data })]

def remoteSocketReady (localId : Nat) (r : RemoteSocket) : Output :=
  sendReady localId r.id r.transport

def remoteSocketShutdown (localId : Nat) (r : RemoteSocket) : Output :=
  sendClose localId r.id r.transport

section

variable (s : LocalSocket)

def localSocketDestroy : Effect :=
  { socket := { s with status := .freed, fde := {}, pkts := [] }
    halt := if s.exitOnClose then some .exit else none }

/-- The end of `local_socket_close_locked`, once the peer is gone. -/
def localSocketRetire : Effect :=
  if s.status = .closing ∨ s.pkts = [] then localSocketDestroy s
  else { socket := { s with status := .closing, fde := fdeventDel s.fde fdeRead } }

def localSocketCloseLocked : Effect :=
  { localSocketRetire { s with peer := none } with
    out := s.peer.elim [] (remoteSocketShutdown s.id) }

/-- The text `SendOkay` writes. -/
def okayText : List UInt8 := [79, 75, 65, 89]

/-- The text `SendFail` writes for the reason `closed`: `FAIL0006closed`. -/
def failClosedText : List UInt8 := [70, 65, 73, 76, 48, 48, 48, 54, 99, 108, 111, 115, 101, 100]

/-- The first thing `local_socket_ready_notify` and `local_socket_close_notify` do: they give way to
the plain functions and write a status to the descriptor. -/
def LocalSocket.settle (status : List UInt8) : LocalSocket :=
  if s.notify then { s with notify := false, replies := s.replies ++ status } else s

/-- `s->close(s)`: `local_socket_close`, or `local_socket_close_notify`. -/
def localSocketClose : Effect := localSocketCloseLocked (s.settle failClosedText)

/-- `s->ready(s)`: `local_socket_ready`, or `local_socket_ready_notify`. -/
def localSocketReady : LocalSocket :=
  { s.settle okayText with fde := fdeventAdd s.fde fdeRead }

end

/-- `local_socket_enqueue`: `0` when the packet went out whole, `1` when it did not. -/
def localSocketEnqueue (ws : List WriteResult) (data : List UInt8) (s : LocalSocket) :
    Int × Effect :=
  if s.pkts ≠ [] then
    (1, { socket := { s with pkts := s.pkts ++ [data], fde := fdeventAdd s.fde fdeWrite } })
  else
    let w := (writeLoop ws data).1
    let s := { s with written := s.written ++ w.done }
    if w.failed then (1, localSocketClose { s with ownClose := some .writeFailed })
    else if w.left = [] then (0, { socket := s })
    else (1, { socket := { s with pkts := [w.left], fde := fdeventAdd s.fde fdeWrite } })

/-- The socket after some of its queue is written. -/
def LocalSocket.drained (s : LocalSocket) (d : Drained) : LocalSocket :=
  { s with pkts := d.left, written := s.written ++ d.done }

/-- The `FDE_WRITE` part of `local_socket_event_func`, and whether the function goes on. -/
def localSocketWritable (ws : List WriteResult) (s : LocalSocket) : Effect × Bool :=
  let d := drainLoop ws s.pkts
  if d.left ≠ [] then
    (if d.failed then localSocketClose { s.drained d with ownClose := some .writeFailed }
      else { socket := s.drained d }, false)
  else if s.status = .closing then (localSocketClose (s.drained d), false)
  else
    let s := { s.drained d with fde := fdeventDel s.fde fdeWrite }
    -- `s->peer->ready(s->peer)` does not test the peer
    s.peer.elim ({ socket := s, halt := some .segfault }, false) fun r =>
      ({ socket := s, out := remoteSocketReady s.id r }, true)

/-- The bytes of one read event go to the peer, which cannot take more for now. -/
def localSocketSend (data : List UInt8) (s : LocalSocket) : Effect :=
  if data = [] then { socket := s }
  else
    s.peer.elim { socket := s } fun r =>
      { socket := { s with fde := fdeventDel s.fde fdeRead }
        out := remoteSocketEnqueue s.id data r }

/-- The `FDE_READ` part of `local_socket_event_func`. -/
def localSocketReadable (rs : List ReadResult) (s : LocalSocket) : Effect :=
  let l := readLoop rs maxPayload
  let x := localSocketSend l.1 { s with read := s.read ++ l.1 }
  if l.2 then
    let c := localSocketClose
      { x.socket with
        ownClose := if x.socket.status = .active then some .endOfFile else x.socket.ownClose }
    { c with out := x.out ++ c.out }
  else x

/-- `local_socket_event_func`, called by `fdevent_call_fdfunc` with the pending events. -/
def localSocketEventFunc (ws : List WriteResult) (rs : List ReadResult) (s : LocalSocket) :
    Effect :=
  let ev := s.fde.pending
  let s := { s with fde := { s.fde with pending := {} } }
  let w : Effect × Bool := if ev.write then localSocketWritable ws s else ({ socket := s }, true)
  if w.2 ∧ ev.read then
    let r := localSocketReadable rs w.1.socket
    { r with out := w.1.out ++ r.out }
  else w.1

/-! ## What the loops deliver -/

theorem writeLoop_spec (rs : List WriteResult) (p : List UInt8) :
    (writeLoop rs p).1.done ++ (writeLoop rs p).1.left = p := by
  fun_induction writeLoop rs p with
  | case5 n rs p hp w ih => rw [append_assoc, ih, take_append_drop]
  | _ => simp

theorem drainLoop_spec (rs : List WriteResult) (ps : List (List UInt8)) :
    (drainLoop rs ps).done ++ (drainLoop rs ps).left.flatten = ps.flatten := by
  fun_induction drainLoop rs ps with
  | case1 => rfl
  | case2 rs p ps w hw d ih =>
    have hp := writeLoop_spec rs p
    rw [hw, append_nil] at hp
    rw [append_assoc, ih, flatten_cons, hp]
  | case3 rs p ps w hw =>
    rw [flatten_cons, ← append_assoc, writeLoop_spec rs p, flatten_cons]

/-! ## What is asked for after a change -/

section

variable (fde : Fdevent)

@[simp] theorem fdeventSet_want (ev : Events) : (fdeventSet fde ev).want = ev := by
  unfold fdeventSet
  split_ifs with h
  · exact h
  · rfl

theorem fdeventSet_pending_write {fde : Fdevent} {ev : Events}
    (h : (fdeventSet fde ev).pending.write = true) : fde.pending.write = true := by
  unfold fdeventSet at h
  split_ifs at h
  · exact h
  · exact (Bool.and_eq_true_iff.1 h).1

theorem fdeventAdd_read_want :
    (fdeventAdd fde fdeRead).want = { read := true, write := fde.want.write } := by
  simp [fdeventAdd, fdeRead]

theorem fdeventAdd_write_want :
    (fdeventAdd fde fdeWrite).want = { read := fde.want.read, write := true } := by
  simp [fdeventAdd, fdeWrite]

theorem fdeventDel_read_want :
    (fdeventDel fde fdeRead).want = { read := false, write := fde.want.write } := by
  simp [fdeventDel, fdeRead]

theorem fdeventDel_write_want :
    (fdeventDel fde fdeWrite).want = { read := fde.want.read, write := false } := by
  simp [fdeventDel, fdeWrite]

end

end AndroidSystem.Adb
