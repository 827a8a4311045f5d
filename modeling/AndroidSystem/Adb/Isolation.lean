import AndroidSystem.Adb.HandlePacket

/-!
# Isolation of transports

Local sockets are found by id alone, or by the ids of both ends; neither says which transport a
packet came over. So a packet may act on a stream of another transport. `isolated_iff` says exactly
when it does: its ids name a socket whose stream belongs to another transport (`Reaches`), or it
closes a socket that takes the whole process with it (`Exits`). Only `A_CLSE` with a zero id tests the
transport, and only on a socket that has a peer.

`isolated_endpoint` is the result for sockets with a descriptor; `isolated_iff` adds those of the
jdwp services, which an `A_OKAY` or any `A_WRTE` closes.
-/

namespace AndroidSystem.Adb

open List LocalSocket

variable {s : LocalSocket}

/-- The stream of the socket belongs to another transport than `t`: its peer is there, or it waits
there for the first `A_OKAY`. -/
def Foreign (t : TransportId) (s : LocalSocket) : Prop :=
  s.status = .active
    ∧ (s.peer.any (·.transport ≠ t) = true ∨ s.peer = none ∧ s.transport.any (· ≠ t) = true)

instance (t : TransportId) (s : LocalSocket) : Decidable (Foreign t s) := by
  unfold Foreign; infer_instance

/-- Handling `p` on transport `t` leaves every stream of another transport alone. -/
def Isolated (env : Env) (t : TransportId) (p : Packet) (e : Endpoint) : Prop :=
  ∀ k < e.count, Foreign t (e.sockets k) →
    (handlePacket env t p e).1.sockets k = e.sockets k ∧ (handlePacket env t p e).1.halted = none

/-- The packet names a socket of another transport and has an effect on it. -/
def Reaches (t : TransportId) (p : Packet) (e : Endpoint) : Prop :=
  match p.command with
  | .okay => (e.transports t).online ∧ p.arg0 ≠ 0 ∧ p.arg1 ≠ 0 ∧
      ∃ k ∈ findLocalSocket e p.arg1 0, Foreign t (e.sockets k) ∧
        ((e.sockets k).peer = none ∨ (e.sockets k).peer.any (·.id = p.arg0) = true
          ∧ ((e.sockets k).notify = true ∨ (e.sockets k).fde.want.read = false))
  | .clse => (e.transports t).online ∧ p.arg1 ≠ 0 ∧
      ∃ k ∈ findLocalSocket e p.arg1 p.arg0, Foreign t (e.sockets k) ∧
        (p.arg0 ≠ 0 ∨ (e.sockets k).peer = none)
  | .wrte => (e.transports t).online ∧ p.arg0 ≠ 0 ∧ p.arg1 ≠ 0 ∧
      ∃ k ∈ findLocalSocket e p.arg1 p.arg0, Foreign t (e.sockets k) ∧
        ((e.sockets k).pkts ≠ [] ∨ p.data ≠ [])
  | _ => False

/-- A socket with `exit_on_close` and no queue, connected over `t`. -/
def Fatal (t : TransportId) (e : Endpoint) : Prop :=
  ∃ k < e.count, (e.sockets k).status = .active ∧ (e.sockets k).peer.any (·.transport = t) = true
    ∧ (e.sockets k).exitOnClose = true ∧ (e.sockets k).pkts = []

/-- The packet closes a socket with `exit_on_close`, and the process ends. -/
def Exits (env : Env) (t : TransportId) (p : Packet) (e : Endpoint) : Prop :=
  match p.command with
  | .sync => p.arg0 = 0 ∧ Fatal t e
  | .cnxn => (e.transports t).connectionState ≠ .offline ∧ Fatal t e
  | .clse => (e.transports t).online ∧ p.arg1 ≠ 0 ∧
      ∃ k ∈ findLocalSocket e p.arg1 p.arg0,
        ¬(p.arg0 = 0 ∧ (e.sockets k).peer.any (·.transport ≠ t) = true)
        ∧ (e.sockets k).exitOnClose = true ∧ (e.sockets k).pkts = []
  | .wrte => (e.transports t).online ∧ p.arg0 ≠ 0 ∧ p.arg1 ≠ 0 ∧
      ∃ k ∈ findLocalSocket e p.arg1 p.arg0, (writeLoop env.writes p.data).1.failed = true
        ∧ (e.sockets k).exitOnClose = true ∧ (e.sockets k).pkts = []
  | _ => False

/-! ## What the socket functions change -/

theorem localSocketReady_eq_self :
    localSocketReady s = s ↔ s.notify = false ∧ s.fde.want.read = true := by
  constructor
  · intro h
    have hw := congrArg (fun s : LocalSocket => s.fde.want.read) h
    simp only [localSocketReady, fdeventAdd_read_want] at hw
    refine ⟨?_, hw.symm⟩
    by_contra hn
    have hnotify := congrArg notify h
    simp_all [localSocketReady, settle]
  · rintro ⟨hn, hw⟩
    have hfde : fdeventAdd s.fde fdeRead = s.fde := by
      unfold fdeventAdd fdeventSet
      cases hwant : s.fde.want
      simp_all [fdeRead]
    unfold localSocketReady settle
    rw [if_neg (by simp [hn]), hfde]

/-- `A_OKAY` leaves a socket alone if its peer has another id, or if it is reading already. -/
theorem socketOkay_eq_self {r : RemoteSocket} :
    socketOkay r s = s ↔ ¬(s.peer = none ∨ s.peer.any (·.id = r.id) = true
      ∧ (s.notify = true ∨ s.fde.want.read = false)) := by
  unfold socketOkay
  cases hp : s.peer with
  | none =>
    refine iff_of_false (fun h => ?_) (by simp)
    have hpeer := congrArg peer h
    unfold localSocketReady settle at hpeer
    split_ifs at hpeer <;> simp [hp] at hpeer
  | some r' =>
    by_cases hid : r'.id = r.id
    · simp [hid, localSocketReady_eq_self]
    · simp [hid]

/-- A closed socket is not active, and takes the process with it if it has `exit_on_close` and no
queue. -/
theorem localSocketClose_outcome (ha : s.status = .active) :
    (localSocketClose s).socket.status ≠ .active
      ∧ ((localSocketClose s).halt = none ↔ ¬(s.exitOnClose = true ∧ s.pkts = [])) := by
  have hset : (s.settle failClosedText).pkts = s.pkts
      ∧ (s.settle failClosedText).exitOnClose = s.exitOnClose
      ∧ (s.settle failClosedText).status = .active := by
    unfold settle
    split_ifs <;> exact ⟨rfl, rfl, ha⟩
  obtain ⟨hp, hx, hs⟩ := hset
  unfold localSocketClose localSocketCloseLocked localSocketRetire localSocketDestroy
  simp only [hp, hx, hs]
  constructor
  · split_ifs <;> simp
  · by_cases hq : s.pkts = []
    · cases hxx : s.exitOnClose <;> simp [hq]
    · simp [hq]

theorem writeLoop_nil (ws : List WriteResult) : writeLoop ws [] = (⟨[], [], false⟩, ws) := by
  cases ws <;> rfl

/-- `A_WRTE` changes a socket unless there is nothing to write. -/
theorem localSocketEnqueue_outcome {ws : List WriteResult} {data : List UInt8}
    (ha : s.status = .active) :
    ((localSocketEnqueue ws data s).2.socket = s ↔ ¬(s.pkts ≠ [] ∨ data ≠ []))
      ∧ ((localSocketEnqueue ws data s).2.halt = none ↔
        ¬((writeLoop ws data).1.failed = true ∧ s.exitOnClose = true ∧ s.pkts = [])) := by
  unfold localSocketEnqueue
  by_cases hq : s.pkts = []
  · rw [if_neg (by simp [hq])]
    have hspec := writeLoop_spec ws data
    have hnil : data = [] → (writeLoop ws data).1.failed = false := by
      rintro rfl
      rw [writeLoop_nil]
    generalize (writeLoop ws data).1 = w at hspec hnil ⊢
    by_cases hf : w.failed = true
    · rw [if_pos hf]
      obtain ⟨hst, hhalt⟩ := localSocketClose_outcome
        (s := { s with written := s.written ++ w.done, ownClose := some .writeFailed }) ha
      have hdata : data ≠ [] := fun hd => by simp [hnil hd] at hf
      refine ⟨iff_of_false (fun heq => hst (by rw [heq]; exact ha)) (by simp [hdata]), ?_⟩
      rw [hhalt]
      simp [hf]
    · rw [if_neg hf]
      by_cases hleft : w.left = []
      · rw [if_pos hleft]
        rw [hleft, append_nil] at hspec
        refine ⟨⟨fun heq => ?_, fun hdata => ?_⟩, by simp [hf]⟩
        · have := congrArg (fun s : LocalSocket => s.written.length) heq
          simp only [hspec] at this
          simpa [hq] using this
        · have hd : data = [] := by simpa [hq] using hdata
          simp [hspec, hd]
      · rw [if_neg hleft]
        refine ⟨iff_of_false (fun heq => ?_) ?_, by simp [hf]⟩
        · have := congrArg pkts heq
          simp [hq] at this
        · have hdata : data ≠ [] := fun hd => hleft (by
            rw [hd] at hspec
            exact (append_eq_nil_iff.1 hspec).2)
          simp [hdata]
  · rw [if_pos hq]
    refine ⟨iff_of_false (fun heq => ?_) (by simp [hq]), by simp [hq]⟩
    have := congrArg (fun s : LocalSocket => s.pkts.length) heq
    simp at this

/-! ## What each packet changes -/

section

variable {env : Env} {t : TransportId} {p : Packet} {e : Endpoint}

theorem findLocalSocket_some {localId peerId k : Nat} (h : findLocalSocket e localId peerId = some k) :
    k < e.count ∧ (e.sockets k).status = .active
      ∧ (peerId = 0 ∨ (e.sockets k).peer.any (·.id = peerId) = true) := by
  obtain ⟨hfind, hpeer⟩ := Option.filter_eq_some_iff.1 h
  have hmem := mem_of_find?_eq_some hfind
  have hsome := find?_some hfind
  simp only [decide_eq_true_eq] at hsome hpeer
  exact ⟨mem_range.1 hmem, hsome.1, hpeer⟩

theorem isolated_same (h : (handlePacket env t p e).1 = e) (hrun : e.halted = none) :
    Isolated env t p e :=
  fun _ _ _ => h.symm ▸ ⟨rfl, hrun⟩

/-- Replacing one socket keeps the streams of other transports, unless it is one of them. -/
theorem setSocket_keeps_iff {k : Nat} (hk : k < e.count) :
    (∀ j < e.count, Foreign t (e.sockets j) → (e.setSocket k s).sockets j = e.sockets j) ↔
      ¬(Foreign t (e.sockets k) ∧ s ≠ e.sockets k) := by
  simp only [Endpoint.setSocket]
  constructor
  · rintro h ⟨hf, hne⟩
    have hsame := h k hk hf
    rw [Function.update_self] at hsame
    exact hne hsame
  · intro h j hj hf
    by_cases hjk : j = k
    · subst hjk
      rw [Function.update_self]
      by_contra hne
      exact h ⟨hf, hne⟩
    · exact Function.update_of_ne hjk _ _

theorem isolated_one {k : Nat} {h : Option Halt} (hk : k < e.count)
    (hres : (handlePacket env t p e).1 = { e.setSocket k s with halted := h }) :
    Isolated env t p e ↔ ¬(Foreign t (e.sockets k) ∧ s ≠ e.sockets k)
      ∧ ((∃ j < e.count, Foreign t (e.sockets j)) → h = none) := by
  unfold Isolated
  rw [hres, ← setSocket_keeps_iff hk]
  constructor
  · intro h
    exact ⟨fun j hj hf => (h j hj hf).1, fun ⟨j, hj, hf⟩ => (h j hj hf).2⟩
  · rintro ⟨hsame, hhalt⟩ j hj hf
    exact ⟨hsame j hj hf, hhalt ⟨j, hj, hf⟩⟩

/-- A packet that acts on the socket it names, if it is let through and finds one. -/
theorem isolated_found {c : Prop} [Decidable c] {localId peerId : Nat}
    {f : Nat → Endpoint × Output} (R X : Nat → Prop) (hrun : e.halted = none)
    (hpkt : handlePacket env t p e =
      if c then (findLocalSocket e localId peerId).elim (e, []) f else (e, []))
    (hone : ∀ k < e.count, (e.sockets k).status = .active → handlePacket env t p e = f k →
      (Isolated env t p e ↔ ¬R k ∧ ((∃ k < e.count, Foreign t (e.sockets k)) → ¬X k))) :
    Isolated env t p e ↔ ¬(c ∧ ∃ k ∈ findLocalSocket e localId peerId, R k)
      ∧ ((∃ k < e.count, Foreign t (e.sockets k)) →
        ¬(c ∧ ∃ k ∈ findLocalSocket e localId peerId, X k)) := by
  by_cases hc : c
  · rw [if_pos hc] at hpkt
    cases hfind : findLocalSocket e localId peerId with
    | none => exact iff_of_true (isolated_same (by rw [hpkt, hfind]; rfl) hrun) (by simp)
    | some k =>
      obtain ⟨hk, ha, -⟩ := findLocalSocket_some hfind
      rw [hone k hk ha (by rw [hpkt, hfind]; rfl)]
      simp [hc]
  · exact iff_of_true (isolated_same (by rw [hpkt, if_neg hc]) hrun) (by simp [hc])

theorem foreign_stays (hf : Foreign t s) : remoteSocketDisconnect t s = { socket := s } := by
  unfold remoteSocketDisconnect
  rw [if_neg]
  rintro ⟨-, hp⟩
  have := hf.2
  cases hs : s.peer <;> simp_all

theorem remoteSocketDisconnect_halts : (remoteSocketDisconnect t s).halt.isSome = true ↔
    s.status = .active ∧ s.peer.any (·.transport = t) = true ∧ s.exitOnClose = true ∧ s.pkts = [] := by
  unfold remoteSocketDisconnect
  split_ifs with hcon
  · have hout := (localSocketClose_outcome (s := { s with peer := none }) hcon.1).2
    rw [Option.isSome_iff_ne_none, ne_eq, hout]
    simp [hcon]
  · refine iff_of_false (by simp) ?_
    rintro ⟨ha, hp, -⟩
    exact hcon ⟨ha, hp⟩

/-- A packet that ends the streams of its transport leaves those of the others alone, unless it ends
the process. -/
theorem isolated_offline
    (hres : (handlePacket env t p e).1.sockets = (runTransportDisconnects e t).sockets
      ∧ (handlePacket env t p e).1.halted = (runTransportDisconnects e t).halted)
    (hrun : e.halted = none) :
    Isolated env t p e ↔ ((∃ k < e.count, Foreign t (e.sockets k)) → ¬Fatal t e) := by
  have hsock : (runTransportDisconnects e t).sockets = fun k =>
      if k < e.count then (remoteSocketDisconnect t (e.sockets k)).socket else e.sockets k := by
    unfold runTransportDisconnects
    split_ifs <;> rfl
  have hhalt : (runTransportDisconnects e t).halted =
      if (range e.count).any fun k => (remoteSocketDisconnect t (e.sockets k)).halt.isSome
      then some .exit else none := by
    unfold runTransportDisconnects
    rw [hrun]
    split_ifs <;> rfl
  have hfatal : (runTransportDisconnects e t).halted = none ↔ ¬Fatal t e := by
    rw [hhalt]
    simp only [any_eq_true, mem_range, remoteSocketDisconnect_halts, ite_eq_right_iff, reduceCtorEq]
    rfl
  unfold Isolated
  rw [hres.1, hres.2, hfatal]
  constructor
  · rintro h ⟨k, hk, hf⟩
    exact (h k hk hf).2
  · intro h k hk hf
    refine ⟨?_, h ⟨k, hk, hf⟩⟩
    rw [hsock]
    simp only [hk, if_true, foreign_stays hf]

theorem handleOffline_sockets (f : Transport → Transport) :
    (handleOffline (e.setTransport t f) t).sockets = (runTransportDisconnects e t).sockets
      ∧ (handleOffline (e.setTransport t f) t).halted = (runTransportDisconnects e t).halted := by
  unfold handleOffline runTransportDisconnects
  by_cases hu : e.usbTransport = some t
  · simp only [Endpoint.setTransport, hu]
    exact ⟨rfl, rfl⟩
  · simp only [Endpoint.setTransport, hu]
    exact ⟨rfl, rfl⟩

variable (hrun : e.halted = none)

include hrun

theorem isolated_okay (hc : p.command = .okay) :
    Isolated env t p e ↔ ¬Reaches t p e
      ∧ ((∃ k < e.count, Foreign t (e.sockets k)) → ¬Exits env t p e) := by
  have hpkt : handlePacket env t p e = handleOkay t p e := by rw [handlePacket, hc]
  refine (isolated_found (fun k => Foreign t (e.sockets k)
    ∧ socketOkay ⟨p.arg0, t⟩ (e.sockets k) ≠ e.sockets k) (fun _ => False) hrun hpkt ?_).trans ?_
  · intro k hk _ hres
    rw [isolated_one hk (by rw [hres])]
    simp [Endpoint.setSocket, hrun]
  · simp [Reaches, Exits, hc, socketOkay_eq_self, and_assoc]

theorem isolated_write (hc : p.command = .wrte) :
    Isolated env t p e ↔ ¬Reaches t p e
      ∧ ((∃ k < e.count, Foreign t (e.sockets k)) → ¬Exits env t p e) := by
  have hpkt : handlePacket env t p e = handleWrite env t p e := by rw [handlePacket, hc]
  refine (isolated_found (fun k => Foreign t (e.sockets k) ∧ ((e.sockets k).pkts ≠ [] ∨ p.data ≠ []))
    (fun k => (writeLoop env.writes p.data).1.failed = true ∧ (e.sockets k).exitOnClose = true
      ∧ (e.sockets k).pkts = []) hrun hpkt ?_).trans ?_
  · intro k hk ha hres
    obtain ⟨hsame, hexit⟩ := localSocketEnqueue_outcome ha
    rw [isolated_one hk (by rw [hres]; rfl), hrun, ne_eq, hsame, not_not, ← hexit]
    rfl
  · simp only [Reaches, Exits, hc, and_assoc]

theorem isolated_close (hc : p.command = .clse) :
    Isolated env t p e ↔ ¬Reaches t p e
      ∧ ((∃ k < e.count, Foreign t (e.sockets k)) → ¬Exits env t p e) := by
  have hpkt : handlePacket env t p e = handleClose t p e := by rw [handlePacket, hc]
  refine (isolated_found (fun k => Foreign t (e.sockets k) ∧ (p.arg0 ≠ 0 ∨ (e.sockets k).peer = none))
    (fun k => ¬(p.arg0 = 0 ∧ (e.sockets k).peer.any (·.transport ≠ t) = true)
      ∧ (e.sockets k).exitOnClose = true ∧ (e.sockets k).pkts = []) hrun hpkt ?_).trans ?_
  · intro k hk ha hres
    by_cases hother : p.arg0 = 0 ∧ (e.sockets k).peer.any (·.transport ≠ t) = true
    · -- the one case in which the transport is tested
      have hpeer : (e.sockets k).peer ≠ none := by
        intro hn
        simp [hn] at hother
      exact iff_of_true (isolated_same (by rw [hres, if_pos hother]) hrun)
        ⟨fun hr => hr.2.elim (· hother.1) hpeer, fun _ hx => hx.1 hother⟩
    · obtain ⟨hst, hexit⟩ := localSocketClose_outcome ha
      have hne : (localSocketClose (e.sockets k)).socket ≠ e.sockets k := fun heq =>
        hst (by rw [heq]; exact ha)
      have hforeign : Foreign t (e.sockets k) → p.arg0 ≠ 0 ∨ (e.sockets k).peer = none := by
        intro hf
        by_contra hcon
        push Not at hcon
        refine hother ⟨hcon.1, ?_⟩
        have := hf.2
        simp_all
      rw [isolated_one hk (by rw [hres, if_neg hother]; rfl), hrun,
        and_congr_right fun hf => iff_of_true hne (hforeign hf), and_iff_right hother, ← hexit]
      rfl
  · simp only [Reaches, Exits, hc, and_assoc]

theorem isolated_sync (hc : p.command = .sync) :
    Isolated env t p e ↔ ¬Reaches t p e
      ∧ ((∃ k < e.count, Foreign t (e.sockets k)) → ¬Exits env t p e) := by
  have hpkt : handlePacket env t p e = handleSync env t p e := by rw [handlePacket, hc]
  simp only [Reaches, Exits, hc]
  by_cases h0 : p.arg0 = 0
  · rw [isolated_offline (by
      rw [hpkt, handleSync, if_neg (by simp [h0])]; exact handleOffline_sockets _) hrun]
    simp [h0]
  · exact iff_of_true (isolated_same (by rw [hpkt, handleSync, if_pos h0]) hrun) (by simp [h0])

theorem isolated_connect (hc : p.command = .cnxn) :
    Isolated env t p e ↔ ¬Reaches t p e
      ∧ ((∃ k < e.count, Foreign t (e.sockets k)) → ¬Exits env t p e) := by
  -- what follows the offline handling concerns only the transport
  have hafter : ∀ e' : Endpoint, (admitTransport env e' t).1.sockets = e'.sockets
      ∧ (admitTransport env e' t).1.halted = e'.halted := by
    intro e'
    unfold admitTransport sendAuthRequest
    split_ifs <;> exact ⟨rfl, rfl⟩
  have hpkt : handlePacket env t p e = handleConnect env t p e := by rw [handlePacket, hc]
  rw [handleConnect] at hpkt
  simp only [Reaches, Exits, hc]
  by_cases hst : (e.transports t).connectionState = .offline
  · refine iff_of_true (fun k _ _ => ?_) (by simp [hst])
    rw [hpkt, if_neg (not_not.2 hst), (hafter _).1, (hafter _).2]
    exact ⟨rfl, hrun⟩
  · rw [isolated_offline (by
      rw [hpkt, if_pos hst, (hafter _).1, (hafter _).2]; exact handleOffline_sockets _) hrun]
    simp [hst]

/-- `A_AUTH`, `A_OPEN` and unknown commands change no socket there is. -/
theorem isolated_other (hc : p.command = .auth ∨ p.command = .open_ ∨ ∃ w, p.command = .unknown w) :
    Isolated env t p e := by
  intro k hk _
  rcases hc with hc | hc | ⟨w, hc⟩
  · have hauth : (handleAuth env t p e).1.sockets = e.sockets
        ∧ (handleAuth env t p e).1.halted = e.halted := by
      unfold handleAuth adbAuthConfirmKey forwardKey claimUsbTransport sendAuthRequest
      split_ifs <;> exact ⟨rfl, rfl⟩
    rw [handlePacket, hc]
    exact ⟨congrFun hauth.1 k, hauth.2.trans hrun⟩
  · rw [handlePacket, hc, handleOpen]
    split_ifs with hon
    · cases env.service (serviceName p.data) with
      | none => exact ⟨rfl, hrun⟩
      | some x => exact ⟨Function.update_of_ne hk.ne _ _, hrun⟩
    · exact ⟨rfl, hrun⟩
  · rw [handlePacket, hc]
    exact ⟨rfl, hrun⟩

end

/-- Among sockets with a descriptor, a packet leaves the streams of other transports alone exactly
when its ids do not name one of them in a way that has an effect, and it does not end the process. -/
theorem isolated_endpoint (env : Env) (t : TransportId) (p : Packet) (e : Endpoint)
    (hrun : e.halted = none) :
    Isolated env t p e ↔ ¬Reaches t p e
      ∧ ((∃ k < e.count, Foreign t (e.sockets k)) → ¬Exits env t p e) := by
  cases hc : p.command with
  | sync => exact isolated_sync hrun hc
  | cnxn => exact isolated_connect hrun hc
  | open_ => exact iff_of_true (isolated_other hrun (.inr (.inl hc))) (by simp [Reaches, Exits, hc])
  | okay => exact isolated_okay hrun hc
  | clse => exact isolated_close hrun hc
  | wrte => exact isolated_write hrun hc
  | auth => exact iff_of_true (isolated_other hrun (.inl hc)) (by simp [Reaches, Exits, hc])
  | unknown w =>
    exact iff_of_true (isolated_other hrun (.inr (.inr ⟨w, hc⟩))) (by simp [Reaches, Exits, hc])

/-! ## The jdwp services -/

section

variable (env : Env) (processList : JdwpService → List UInt8) (t : TransportId) (p : Packet)
  (d : Adbd)

/-- Handling `p` on transport `t` leaves every stream of another transport alone. -/
def Adbd.Isolated : Prop :=
  let d' := (d.handlePacket t p env processList).1
  ∀ k < d.endpoint.count, Foreign t (d.endpoint.sockets k) →
    d'.endpoint.sockets k = d.endpoint.sockets k ∧ d'.jdwp k = d.jdwp k
      ∧ d'.endpoint.halted = none

/-- The packet has an effect on the socket of a jdwp service. A tracker that has a peer takes no
notice of an `A_OKAY`. -/
def JdwpService.Affected (service : JdwpService) (s : LocalSocket) : Prop :=
  match p.command with
  | .okay => s.peer = none ∨ s.peer.any (·.id = p.arg0) = true ∧ service = .jdwp
  | .clse => ¬(p.arg0 = 0 ∧ s.peer.any (·.transport ≠ t) = true)
  | .wrte => True
  | _ => False

/-- The packet names a socket of another transport and has an effect on it. -/
def Adbd.Reaches : Prop :=
  match d.named t p with
  | some (k, service) =>
    Foreign t (d.endpoint.sockets k) ∧ service.Affected t p (d.endpoint.sockets k)
  | none => Adb.Reaches t p d.endpoint

/-- The packet closes a socket with `exit_on_close`. -/
def Adbd.Exits : Prop :=
  d.named t p = none ∧ Adb.Exits env t p d.endpoint

end

section

variable {env : Env} {t : TransportId} {p : Packet} {d : Adbd} {service : JdwpService}

theorem jdwpSocketClose_ne (ha : s.status = .active) : jdwpSocketClose s ≠ s := by
  intro heq
  have hstatus := congrArg status heq
  rw [ha] at hstatus
  cases hstatus

theorem JdwpService.handlePacket_eq_self (ha : s.status = .active) :
    service.handlePacket t p s = s ↔ ¬service.Affected t p s := by
  unfold JdwpService.handlePacket JdwpService.Affected
  cases p.command with
  | okay =>
    cases hp : s.peer with
    | none =>
      refine iff_of_false (fun heq => ?_) (by simp)
      cases service with
      | jdwp => exact absurd (ha ▸ congrArg status heq) (by simp [ready, jdwpSocketClose])
      | tracker => exact absurd (hp ▸ congrArg peer heq) (by simp [ready])
    | some r => by_cases hid : r.id = p.arg0 <;> cases service <;>
        simp [hid, ready, jdwpSocketClose_ne ha]
  | clse =>
    by_cases hother : p.arg0 = 0 ∧ s.peer.any (·.transport ≠ t) = true
    · exact iff_of_true (if_pos hother) (not_not.2 hother)
    · rw [if_neg hother]
      exact iff_of_false (jdwpSocketClose_ne ha) (not_not.2 hother)
  | wrte => simp [jdwpSocketClose_ne ha]
  | _ => simp

theorem namedSocket_some {k : Nat} (h : namedSocket t p d.endpoint = some k) :
    k < d.endpoint.count ∧ (d.endpoint.sockets k).status = .active := by
  have hfound : ∃ localId peerId, findLocalSocket d.endpoint localId peerId = some k := by
    unfold namedSocket at h
    split at h
    case h_4 => cases h
    all_goals
      split_ifs at h
      exact ⟨_, _, h⟩
  obtain ⟨localId, peerId, hfind⟩ := hfound
  exact ⟨(findLocalSocket_some hfind).1, (findLocalSocket_some hfind).2.1⟩

variable {processList : JdwpService → List UInt8} (hrun : d.endpoint.halted = none)

include hrun

theorem isolated_named {k : Nat} (hnamed : d.named t p = some (k, service)) :
    d.Isolated env processList t p ↔ ¬(Foreign t (d.endpoint.sockets k) ∧
      service.Affected t p (d.endpoint.sockets k)) := by
  obtain ⟨j, hj, hmap⟩ := Option.bind_eq_some_iff.1 hnamed
  obtain ⟨service', hservice, heq⟩ := Option.map_eq_some_iff.1 hmap
  cases heq
  obtain ⟨hk, ha⟩ := namedSocket_some hj
  have hne : service.Affected t p (d.endpoint.sockets k) ↔
      service.handlePacket t p (d.endpoint.sockets k) ≠ d.endpoint.sockets k := by
    rw [ne_eq, JdwpService.handlePacket_eq_self ha, not_not]
  rw [hne, ← setSocket_keeps_iff hk]
  simp only [Adbd.Isolated, Adbd.handlePacket, hnamed]
  refine forall₂_congr fun j _ => forall_congr' fun _ => ?_
  exact ⟨And.left, fun h => ⟨h, trivial, hrun⟩⟩

theorem isolated_opened (hnamed : d.named t p = none) (hopened : d.opened t p = some service) :
    d.Isolated env processList t p := by
  intro k hk _
  simp only [Adbd.handlePacket, hnamed, hopened]
  exact ⟨Function.update_of_ne hk.ne _ _, Function.update_of_ne hk.ne _ _, hrun⟩

omit hrun in
/-- A packet that concerns no jdwp socket is handled as without them. -/
theorem isolated_rest (hnamed : d.named t p = none) (hopened : d.opened t p = none) :
    d.Isolated env processList t p ↔ Adb.Isolated env t p d.endpoint := by
  simp only [Adbd.Isolated, Adb.Isolated, Adbd.handlePacket, hnamed, hopened]
  refine forall₂_congr fun k hk => forall_congr' fun _ => ?_
  rw [if_pos hk, eq_self, true_and]

end

/-- **When a packet leaves the streams of other transports alone**: exactly when its ids do not name
one of their sockets in a way that has an effect, and it does not end the process. -/
theorem isolated_iff (env : Env) (processList : JdwpService → List UInt8) (t : TransportId)
    (p : Packet) (d : Adbd) (hrun : d.endpoint.halted = none) :
    d.Isolated env processList t p ↔ ¬d.Reaches t p
      ∧ ((∃ k < d.endpoint.count, Foreign t (d.endpoint.sockets k)) → ¬d.Exits env t p) := by
  unfold Adbd.Reaches Adbd.Exits
  cases hnamed : d.named t p with
  | some x => simp [isolated_named hrun hnamed]
  | none =>
    cases hopened : d.opened t p with
    | some service =>
      have hopen : p.command = .open_ := by
        unfold Adbd.opened at hopened
        split_ifs at hopened with h
        exact h.1
      exact iff_of_true (isolated_opened hrun hnamed hopened)
        (by simp [Adb.Reaches, Adb.Exits, hopen])
    | none =>
      rw [isolated_rest hnamed hopened, isolated_endpoint _ _ _ _ hrun]
      simp only [true_and]

/-! ## A packet from another device -/

/-- A host with two devices, and a stream to the second. -/
def twoDevices : Endpoint :=
  (handlePacket {} 1 { command := .okay, arg0 := 5, arg1 := 1 }
    (connectToRemote
      { host := true, authRequired := false, transports := fun _ => { online := true } }
      1 false [120]).1).1

/-- A packet of the first device that uses the ids of that stream. -/
def forgedWrite : Packet := { command := .wrte, arg0 := 5, arg1 := 1, data := [66] }

/-- **The first device writes into the stream of the second.** -/
theorem forged_write_reaches :
    Foreign 0 (twoDevices.sockets 0)
      ∧ ((Adbd.handlePacket 0 forgedWrite ⟨twoDevices, fun _ => none⟩ { writes := [.wrote 0] }
        fun _ => []).1.endpoint.sockets 0).written = [66]
      ∧ ¬Adbd.Isolated { writes := [.wrote 0] } (fun _ => []) 0 forgedWrite
        ⟨twoDevices, fun _ => none⟩ := by
  have hf : Foreign 0 (twoDevices.sockets 0) := by decide
  refine ⟨hf, by decide, fun h => ?_⟩
  have hsame := (h 0 (by decide) hf).1
  exact absurd (congrArg written hsame) (by decide)

/-- A device with a stream to the service `jdwp` on each of its two transports. -/
def jdwpDevice : Adbd :=
  let open_ (t : TransportId) (d : Adbd) : Adbd :=
    (d.handlePacket t { command := .open_, arg0 := 5 + t, data := [106, 100, 119, 112, 0] } {}
      fun _ => []).1
  open_ 1 (open_ 0
    { endpoint :=
        { host := false, authRequired := false, transports := fun _ => { online := true } } })

/-- The first stream is closed over its own transport and the second stays. -/
theorem own_okay_isolated :
    Foreign 0 (jdwpDevice.endpoint.sockets 1)
      ∧ Adbd.Isolated {} (fun _ => []) 0 { command := .okay, arg0 := 5, arg1 := 1 } jdwpDevice := by
  have hnamed : jdwpDevice.named 0 { command := .okay, arg0 := 5, arg1 := 1 } = some (0, .jdwp) := by
    decide
  refine ⟨by decide, (isolated_iff _ _ 0 _ jdwpDevice rfl).2 ⟨?_, ?_⟩⟩
  · rw [Adbd.Reaches, hnamed]
    rintro ⟨hf, -⟩
    exact absurd hf (by decide)
  · rintro - ⟨hnone, -⟩
    rw [hnamed] at hnone
    cases hnone

end AndroidSystem.Adb
