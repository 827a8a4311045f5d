import AndroidSystem.Adb.Socket

/-!
# One adb endpoint

The state of an adb process as far as packets change it: the table of local sockets
(`sockets.cpp`), the transports with their authorization state (`adb.cpp`), and the globals
that connect a device to its framework (`adb_auth_client.cpp`). `handlePacket` is
`handle_packet` with every command, for local sockets with a descriptor. `Adbd` adds the sockets of
the services `jdwp` and `track-jdwp` (`jdwp_service.cpp`), which have none.

Local sockets are named by the order of their creation. `local_socket_list` is appended to and
keeps its order, so searching it is searching the active sockets in that order.

What the code asks of the rest of the system is in `Env`: the services a device offers, the
results of `adb_write`, fresh tokens, the RSA check, the keys of a host and the link to the
framework.
-/

namespace AndroidSystem.Adb

/-! ## State -/

/-- `connection_state` of a transport -/
inductive ConnectionState where
  | offline
  | bootloader
  | device
  | host
  | recovery
  | noperm
  | sideload
  | unauthorized
  deriving Repr, DecidableEq

/-- The fields of an `atransport` that handling packets reads. `authFde` is the framework
connection that `auth_fde` is installed on. -/
structure Transport where
  online : Bool := false
  connectionState : ConnectionState := .offline
  token : List UInt8 := List.replicate 20 0
  key : Option Nat := none
  failedAuthAttempts : Nat := 0
  authFde : Option Nat := none
  deriving Repr, DecidableEq

/-- An adb process. `host` is `ADB_HOST`. Framework connections are numbered, and `framework` is
the one behind `framework_fd`. `forwarded` is the history of the keys sent to the framework. -/
structure Endpoint where
  host : Bool
  authRequired : Bool
  sockets : Nat → LocalSocket := fun _ => {}
  count : Nat := 0
  nextId : Nat := 1
  transports : TransportId → Transport := fun _ => {}
  usbTransport : Option TransportId := none
  needsRetry : Bool := false
  framework : Option Nat := none
  connections : Nat := 0
  forwarded : List (TransportId × List UInt8) := []
  halted : Option Halt := none

/-- What the process asks of the rest of the system while it handles one packet. `service` says
whether a service has a descriptor (`service_to_fd`), and if so whether its local socket has
`exit_on_close`. -/
structure Env where
  service : List UInt8 → Option Bool := fun _ => none
  writes : List WriteResult := []
  token : List UInt8 := List.replicate 20 0
  tokenOk : Bool := true
  rsaVerify : List UInt8 → List UInt8 → Bool := fun _ _ => false
  nextKey : Option Nat → Option Nat := fun _ => none
  sign : Nat → List UInt8 → List UInt8 := fun _ _ => []
  userKey : List UInt8 := []
  banner : List UInt8 := []
  frameworkWrite : Bool := true

namespace Endpoint

/-- Replaces local socket `k`. -/
def setSocket (e : Endpoint) (k : Nat) (s : LocalSocket) : Endpoint :=
  { e with sockets := Function.update e.sockets k s }

/-- Changes transport `t`. -/
def setTransport (e : Endpoint) (t : TransportId) (f : Transport → Transport) : Endpoint :=
  { e with transports := Function.update e.transports t (f (e.transports t)) }

/-- Takes over what a function did to local socket `k`. -/
def apply (e : Endpoint) (k : Nat) (x : Effect) : Endpoint :=
  { e.setSocket k x.socket with halted := e.halted <|> x.halt }

end Endpoint

/-! ## The table of local sockets -/

/-- `find_local_socket`: the first active socket with the id decides. -/
def findLocalSocket (e : Endpoint) (localId peerId : Nat) : Option Nat :=
  ((List.range e.count).find? fun k =>
    (e.sockets k).status = .active ∧ (e.sockets k).id = localId).filter fun k =>
      peerId = 0 ∨ (e.sockets k).peer.any (·.id = peerId)

/-- `create_local_socket` with `install_local_socket`: the socket takes the next id. -/
def createLocalSocket (e : Endpoint) (s : LocalSocket) : Endpoint :=
  { e.setSocket e.count { s with id := e.nextId } with
    count := e.count + 1
    -- `local_socket_next_id` is unsigned and skips 0
    nextId := if (e.nextId + 1) % 2 ^ 32 = 0 then 1 else (e.nextId + 1) % 2 ^ 32 }

/-- A stream is opened from this side: a listener or a smart socket makes a local socket for
transport `t` and calls `connect_to_remote`. -/
def connectToRemote (e : Endpoint) (t : TransportId) (notify : Bool) (destination : List UInt8) :
    Endpoint × Output :=
  (createLocalSocket e { transport := some t, notify := notify },
    [(t, { command := .open_, arg0 := e.nextId, data := destination ++ [0] })])

/-- Local socket `s` loses its peer when transport `t` goes (`remote_socket_disconnect`). -/
def remoteSocketDisconnect (t : TransportId) (s : LocalSocket) : Effect :=
  if s.status = .active ∧ s.peer.any (·.transport = t) then localSocketClose { s with peer := none }
  else { socket := s }

/-! ## Authorization -/

def usbDisconnected (e : Endpoint) : Endpoint :=
  { e with usbTransport := none, needsRetry := false }

/-- `run_transport_disconnects`: the remote sockets on `t`, and `usb_disconnected` if it is
registered there. If closing a socket ends the process, what the later ones become does not
matter. -/
def runTransportDisconnects (e : Endpoint) (t : TransportId) : Endpoint :=
  let e' := { e with
    sockets := fun k =>
      if k < e.count then (remoteSocketDisconnect t (e.sockets k)).socket else e.sockets k
    halted := e.halted <|>
      if (List.range e.count).any fun k => (remoteSocketDisconnect t (e.sockets k)).halt.isSome
      then some .exit else none }
  if e.usbTransport = some t then usbDisconnected e' else e'

def handleOnline (e : Endpoint) (t : TransportId) : Endpoint :=
  e.setTransport t fun x => { x with online := true }

def handleOffline (e : Endpoint) (t : TransportId) : Endpoint :=
  runTransportDisconnects (e.setTransport t fun x => { x with online := false }) t

section

variable (env : Env)

def sendConnect (t : TransportId) : Output :=
  [(t, { command := .cnxn, arg0 := 0x01000000, arg1 := maxPayload, data := env.banner })]

section

variable (e : Endpoint)

/-- `send_auth_request`: the transport gets a new token and the client is asked to sign it. On a
host `adb_auth_generate_token` returns 0 and leaves the token alone. -/
def sendAuthRequest (t : TransportId) : Endpoint × Output :=
  if e.host then (e, [])
  else
    (e.setTransport t fun x => { x with token := env.token },
      if env.tokenOk then [(t, { command := .auth, arg0 := 1, data := env.token })] else [])

def adbAuthVerified (t : TransportId) : Endpoint × Output :=
  (handleOnline e t, sendConnect env t)

def rsaNumBytes : Nat := 256

/-- `adb_auth_verify`: one of the stored keys accepts the signature. A host accepts none. -/
def adbAuthVerify (token sig : List UInt8) : Bool :=
  !e.host && sig.length = rsaNumBytes && env.rsaVerify token sig

/-- Can `adb_auth_confirm_key` send this key to the framework: it ends with a NUL, the text
`PK` with the key fits the buffer, and the write succeeds. -/
def forwardable (key : List UInt8) : Bool :=
  key.getLast? = some 0 && (key.takeWhile (· ≠ 0)).length + 2 < maxPayload && env.frameworkWrite

/-- The first transport with a key to confirm becomes `usb_transport`. -/
def claimUsbTransport (t : TransportId) : Endpoint :=
  if e.usbTransport = none then { e with usbTransport := some t } else e

/-- The key goes to the framework, if one is connected, and its answer is waited for. -/
def forwardKey (key : List UInt8) (t : TransportId) : Endpoint :=
  if e.framework = none then { e with needsRetry := true }
  else if forwardable env key then
    { e.setTransport t fun x => { x with authFde := e.framework } with
      forwarded := e.forwarded ++ [(t, key)] }
  else e

/-- `adb_auth_confirm_key`; nothing on a host. -/
def adbAuthConfirmKey (key : List UInt8) (t : TransportId) : Endpoint :=
  if e.host then e else forwardKey env (claimUsbTransport e t) key t

/-- `adb_auth_event` when the framework answers `OK` -/
def adbAuthOk : Endpoint × Output :=
  e.usbTransport.elim (e, []) (adbAuthVerified env e)

/-- `adb_auth_event` when the framework has closed its end -/
def adbAuthClosed : Endpoint :=
  { e.usbTransport.elim e fun t => e.setTransport t fun x => { x with authFde := none } with
    framework := none }

/-- `adb_auth_listener` accepts a connection of the framework. -/
def adbAuthListener : Endpoint × Output :=
  let e := { e with framework := some e.connections, connections := e.connections + 1 }
  if e.needsRetry then
    let e := { e with needsRetry := false }
    e.usbTransport.elim (e, []) (sendAuthRequest env e)
  else (e, [])

end

end

/-! ## Packets -/

/-- The part of a byte string before its first colon or NUL. -/
def bannerType (banner : List UInt8) : List UInt8 :=
  (banner.takeWhile (· ≠ 0)).takeWhile (· ≠ 58)

/-- The texts `bootloader`, `device`, `recovery` and `sideload`. -/
def bannerTypes : List (List UInt8 × ConnectionState) :=
  [([98, 111, 111, 116, 108, 111, 97, 100, 101, 114], .bootloader),
   ([100, 101, 118, 105, 99, 101], .device),
   ([114, 101, 99, 111, 118, 101, 114, 121], .recovery),
   ([115, 105, 100, 101, 108, 111, 97, 100], .sideload)]

/-- `parse_banner`: the connection state a banner stands for. -/
def parseBanner (banner : List UInt8) : ConnectionState :=
  ((bannerTypes.find? (·.1 = bannerType banner)).map Prod.snd).getD .host

section

variable (env : Env)

/-- `A_SYNC` -/
def handleSync (t : TransportId) (p : Packet) (e : Endpoint) : Endpoint × Output :=
  if p.arg0 ≠ 0 then (e, (t, p) :: if e.host then sendConnect env t else [])
  else
    (handleOffline (e.setTransport t fun x => { x with connectionState := .offline }) t, [(t, p)])

/-- The end of `A_CNXN`: the transport is online, or the client is asked for its authorization. -/
def admitTransport (e : Endpoint) (t : TransportId) : Endpoint × Output :=
  if e.host ∨ ¬e.authRequired then
    (handleOnline e t, if e.host then [] else sendConnect env t)
  else sendAuthRequest env e t

/-- `A_CNXN` -/
def handleConnect (t : TransportId) (p : Packet) (e : Endpoint) : Endpoint × Output :=
  let e :=
    if (e.transports t).connectionState ≠ .offline then
      handleOffline (e.setTransport t fun x => { x with connectionState := .offline }) t
    else e
  admitTransport env
    (e.setTransport t fun x => { x with connectionState := parseBanner p.data }) t

/-- `send_auth_response`, or `send_auth_publickey` when there is no key to try. A device has
neither keys nor a public key to send. -/
def answerToken (e : Endpoint) (token : List UInt8) (t : TransportId) : Output :=
  let (arg0, data) := (e.transports t).key.elim (3, env.userKey) fun k => (2, env.sign k token)
  if e.host ∧ data ≠ [] then [(t, { command := .auth, arg0 := arg0, data := data })] else []

section

variable (t : TransportId) (p : Packet) (e : Endpoint)

/-- `A_AUTH` -/
def handleAuth : Endpoint × Output :=
  if p.arg0 = 1 then
    let e := e.setTransport t fun x =>
      { x with connectionState := .unauthorized, key := if e.host then env.nextKey x.key else none }
    (e, answerToken env e p.data t)
  else if p.arg0 = 2 then
    if adbAuthVerify env e (e.transports t).token p.data then
      let (e, out) := adbAuthVerified env e t
      (e.setTransport t fun x => { x with failedAuthAttempts := 0 }, out)
    else
      sendAuthRequest env
        (e.setTransport t fun x => { x with failedAuthAttempts := x.failedAuthAttempts + 1 }) t
  else if p.arg0 = 3 then (adbAuthConfirmKey env e p.data t, [])
  else (e, [])

/-- The destination named by an `A_OPEN`: its last byte is overwritten with a NUL. -/
def serviceName (data : List UInt8) : List UInt8 := data.dropLast.takeWhile (· ≠ 0)

/-- `A_OPEN` -/
def handleOpen : Endpoint × Output :=
  if (e.transports t).online ∧ p.arg0 ≠ 0 ∧ p.arg1 = 0 then
    (env.service (serviceName p.data)).elim (e, sendClose 0 p.arg0 t) fun exitOnClose =>
      (createLocalSocket e (localSocketReady
          { peer := some ⟨p.arg0, t⟩, exitOnClose := exitOnClose, partner := some p.arg0 }),
        sendReady e.nextId p.arg0 t)
  else (e, [])

/-- What an `A_OKAY` from remote socket `r` does to the local socket it names. -/
def socketOkay (r : RemoteSocket) (s : LocalSocket) : LocalSocket :=
  match s.peer with
  | none => localSocketReady { s with peer := some r, partner := some r.id }
  | some r' => if r'.id = r.id then localSocketReady s else s

/-- `A_OKAY` -/
def handleOkay : Endpoint × Output :=
  if (e.transports t).online ∧ p.arg0 ≠ 0 ∧ p.arg1 ≠ 0 then
    (findLocalSocket e p.arg1 0).elim (e, []) fun k =>
      (e.setSocket k (socketOkay ⟨p.arg0, t⟩ (e.sockets k)), [])
  else (e, [])

/-- `A_CLSE` -/
def handleClose : Endpoint × Output :=
  if (e.transports t).online ∧ p.arg1 ≠ 0 then
    (findLocalSocket e p.arg1 p.arg0).elim (e, []) fun k =>
      if p.arg0 = 0 ∧ (e.sockets k).peer.any (·.transport ≠ t) then (e, [])
      else (e.apply k (localSocketClose (e.sockets k)), (localSocketClose (e.sockets k)).out)
  else (e, [])

/-- `A_WRTE` -/
def handleWrite : Endpoint × Output :=
  if (e.transports t).online ∧ p.arg0 ≠ 0 ∧ p.arg1 ≠ 0 then
    (findLocalSocket e p.arg1 p.arg0).elim (e, []) fun k =>
      let x := localSocketEnqueue env.writes p.data (e.sockets k)
      (e.apply k x.2,
        x.2.out ++ if x.1 = 0 then sendReady (e.sockets k).id p.arg0 t else [])
  else (e, [])

def handlePacket : Endpoint × Output :=
  match p.command with
  | .sync => handleSync env t p e
  | .cnxn => handleConnect env t p e
  | .auth => handleAuth env t p e
  | .open_ => handleOpen env t p e
  | .okay => handleOkay t p e
  | .clse => handleClose t p e
  | .wrte => handleWrite env t p e
  | .unknown _ => (e, [])

end

end

/-! ## The jdwp services -/

/-- The services whose local sockets have functions of their own. -/
inductive JdwpService where
  | jdwp
  | tracker
  deriving Repr, DecidableEq

/-- The texts `jdwp` and `track-jdwp`. -/
def jdwpServices : List (List UInt8 × JdwpService) :=
  [([106, 100, 119, 112], .jdwp),
   ([116, 114, 97, 99, 107, 45, 106, 100, 119, 112], .tracker)]

/-- An adb process and the local sockets in its table that belong to a jdwp service. -/
structure Adbd where
  endpoint : Endpoint
  jdwp : Nat → Option JdwpService := fun _ => none

/-- `jdwp_socket_close` and `jdwp_tracker_close`: no `A_CLSE` is sent. -/
def jdwpSocketClose (s : LocalSocket) : LocalSocket := { s with status := .freed, peer := none }

/-- `jdwp_socket_ready` and `jdwp_tracker_ready` after their first call, which `A_OPEN` makes. -/
def JdwpService.ready (s : LocalSocket) : JdwpService → LocalSocket
  | .jdwp => jdwpSocketClose s
  | .tracker => s

/-- The local socket that a packet is for. -/
def namedSocket (t : TransportId) (p : Packet) (e : Endpoint) : Option Nat :=
  match p.command with
  | .okay =>
    if (e.transports t).online ∧ p.arg0 ≠ 0 ∧ p.arg1 ≠ 0 then findLocalSocket e p.arg1 0 else none
  | .clse =>
    if (e.transports t).online ∧ p.arg1 ≠ 0 then findLocalSocket e p.arg1 p.arg0 else none
  | .wrte =>
    if (e.transports t).online ∧ p.arg0 ≠ 0 ∧ p.arg1 ≠ 0 then findLocalSocket e p.arg1 p.arg0
    else none
  | _ => none

section

variable (t : TransportId) (p : Packet)

/-- What a packet does to the socket of a jdwp service. Nothing can be written to it: its `enqueue`
closes it. -/
def JdwpService.handlePacket (service : JdwpService) (s : LocalSocket) : LocalSocket :=
  match p.command with
  | .okay =>
    match s.peer with
    | none => service.ready { s with peer := some ⟨p.arg0, t⟩, partner := some p.arg0 }
    | some r => if r.id = p.arg0 then service.ready s else s
  | .clse => if p.arg0 = 0 ∧ s.peer.any (·.transport ≠ t) then s else jdwpSocketClose s
  | .wrte => jdwpSocketClose s
  | _ => s

variable (d : Adbd)

/-- The jdwp service that an `A_OPEN` asks for. A host has none. -/
def Adbd.opened : Option JdwpService :=
  if p.command = .open_ ∧ ((d.endpoint.transports t).online ∧ p.arg0 ≠ 0 ∧ p.arg1 = 0)
      ∧ ¬d.endpoint.host then
    (jdwpServices.find? (·.1 = serviceName p.data)).map Prod.snd
  else none

/-- The jdwp socket that a packet is for. -/
def Adbd.named : Option (Nat × JdwpService) :=
  (namedSocket t p d.endpoint).bind fun k => (d.jdwp k).map (k, ·)

/-- `handle_packet`. The first call of a `ready` sends the list of processes. A jdwp socket has no
queue and no `exit_on_close`: when its transport goes, it is freed like any other. -/
def Adbd.handlePacket (env : Env) (processList : JdwpService → List UInt8) : Adbd × Output :=
  let e := d.endpoint
  match d.named t p, d.opened t p with
  | some (k, service), _ =>
    ({ d with endpoint := e.setSocket k (service.handlePacket t p (e.sockets k)) }, [])
  | none, some service =>
    ({ endpoint := createLocalSocket e { peer := some ⟨p.arg0, t⟩, partner := some p.arg0 }
       jdwp := Function.update d.jdwp e.count (some service) },
      sendReady e.nextId p.arg0 t ++
        remoteSocketEnqueue e.nextId (processList service) ⟨p.arg0, t⟩)
  | none, none =>
    let r := Adb.handlePacket env t p e
    ({ endpoint := r.1, jdwp := fun k => if k < e.count then d.jdwp k else none }, r.2)

end

end AndroidSystem.Adb
