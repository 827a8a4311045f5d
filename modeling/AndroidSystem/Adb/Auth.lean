import AndroidSystem.Adb.HandlePacket

/-!
# Who is allowed to talk to adbd

A device with `auth_required` keeps a transport offline until its client is authorized, either by
a signature over the transport's token or by the user, whom the framework asks about the
client's public key. Packets on any number of transports and the events of the framework
connections are interleaved freely here.

The framework's `OK` carries no name. `adb_auth_event` gives it to `usb_transport`, which is the
first transport that had a key to confirm, while the key the user has seen is the last one that was
sent. The two agree as long as every key that is sent belongs to `usb_transport` and every
transport that becomes `usb_transport` gets its key sent (`KeyInTurn`); then `asked` is an
invariant and the authorization is sound (`authorization_sound`). Otherwise the `OK` to one client
lets in another (`authorized_by_another_key`).
-/

namespace AndroidSystem.Adb

open Relation Option

variable {e e' : Endpoint} {t : TransportId} {env : Env}

/-! ## Runs -/

/-- What can happen to the authorization state of a process. -/
inductive AuthAct where
  /-- a packet on a transport -/
  | packet (env : Env) (t : TransportId) (p : Packet)
  /-- the framework connects -/
  | frameworkConnect (env : Env)
  /-- the framework answers `OK` on the connection that the `auth_fde` of `u` watches -/
  | frameworkOk (env : Env) (u : TransportId)
  /-- the framework closes that connection -/
  | frameworkClosed (u : TransportId)
  /-- a transport is removed -/
  | remove (t : TransportId)
  /-- anything else the process does, which is all about its sockets -/
  | sockets (table : Nat → LocalSocket) (count nextId : Nat)

variable {e₁ e₂ e₃ : Endpoint} {f : Transport → Transport} {p : Packet} {a : AuthAct}

/-- One event. An answer of the framework is only noticed through an installed `auth_fde`. -/
def Endpoint.authAct (e : Endpoint) : AuthAct → Option Endpoint
  | .packet env t p => some (handlePacket env t p e).1
  | .frameworkConnect env => some (adbAuthListener env e).1
  | .frameworkOk env u =>
    if (e.transports u).authFde.isSome then some (adbAuthOk env e).1 else none
  | .frameworkClosed u =>
    if (e.transports u).authFde.isSome then some (adbAuthClosed e) else none
  | .remove t => some (runTransportDisconnects e t)
  | .sockets table count nextId =>
    some { e with sockets := table, count := count, nextId := nextId }

/-- The event may put transport `t` online: it is a signature received on `t` that
`adb_auth_verify` accepts for the token of `t`, or the `OK` of a framework that was last sent a key
presented on `t`. -/
def Authorizes (e : Endpoint) (t : TransportId) : AuthAct → Prop
  | .packet env u p => u = t ∧ p.command = .auth ∧ p.arg0 = 2
      ∧ adbAuthVerify env e (e.transports t).token p.data
  | .frameworkOk _ _ => e.forwarded.getLast?.map Prod.fst = some t
  | _ => False

instance (e : Endpoint) (t : TransportId) (a : AuthAct) : Decidable (Authorizes e t a) := by
  cases a <;> unfold Authorizes <;> infer_instance

/-- The commands that work on the streams of a transport. -/
def Command.onStream : Command → Bool
  | .open_ | .okay | .clse | .wrte => true
  | _ => false

/-- A key can be sent to the framework now. -/
def Sendable (env : Env) (e : Endpoint) (key : List UInt8) : Prop :=
  e.framework ≠ none ∧ forwardable env key

/-- A public key presented on `t` is dealt with in turn. If `t` is `usb_transport` already there
is nothing to ask. If nobody is, `t` becomes it, and its key must be sent unless no answer to an
older key can come. If another transport is, the key must not be sent. -/
def KeyInTurn (env : Env) (e : Endpoint) (key : List UInt8) (t : TransportId) : Prop :=
  match e.usbTransport with
  | none => Sendable env e key ∨ ∀ u, (e.transports u).authFde = none
  | some v => v = t ∨ ¬Sendable env e key

/-- Public keys are presented in turn. -/
def InTurn (e : Endpoint) : AuthAct → Prop
  | .packet env t p => p.command = .auth → p.arg0 = 3 → KeyInTurn env e p.data t
  | _ => True

/-- An event that presents a public key in turn, if it presents one. -/
def InTurnStep (e e' : Endpoint) : Prop := ∃ a, InTurn e a ∧ e.authAct a = some e'

/-! ## The invariant -/

/-- A device that wants its clients authorized. The last key sent to the framework is that of
`usb_transport`, or nobody waits for an answer. -/
structure Asked (e : Endpoint) : Prop where
  device : e.host = false
  required : e.authRequired = true
  asked : ∀ t, e.usbTransport = some t →
    e.forwarded.getLast?.map Prod.fst = some t ∨ ∀ u, (e.transports u).authFde = none

/-- Nobody becomes online, nobody is asked about and nobody starts to wait for an answer. -/
structure Quiet (e e' : Endpoint) : Prop where
  host : e'.host = e.host
  required : e'.authRequired = e.authRequired
  forwarded : e'.forwarded = e.forwarded
  usb : e'.usbTransport = e.usbTransport ∨ e'.usbTransport = none
  fde : ∀ u, (e.transports u).authFde = none → (e'.transports u).authFde = none
  online : ∀ t, (e'.transports t).online = true → (e.transports t).online = true

namespace Quiet

theorem refl (e : Endpoint) : Quiet e e :=
  ⟨rfl, rfl, rfl, .inl rfl, fun _ => id, fun _ => id⟩

theorem trans (h₁ : Quiet e₁ e₂) (h₂ : Quiet e₂ e₃) : Quiet e₁ e₃ where
  host := h₂.host.trans h₁.host
  required := h₂.required.trans h₁.required
  forwarded := h₂.forwarded.trans h₁.forwarded
  usb := by
    rcases h₂.usb with h | h
    · rw [h]
      exact h₁.usb
    · exact .inr h
  fde := fun u hu => h₂.fde u (h₁.fde u hu)
  online := fun t ht => h₁.online t (h₂.online t ht)

theorem asked (h : Quiet e e') (he : Asked e) : Asked e' where
  device := h.host.trans he.device
  required := h.required.trans he.required
  asked := by
    intro t ht
    rcases h.usb with husb | husb
    · rw [h.forwarded]
      exact (he.asked t (husb ▸ ht)).imp_right fun hn u => h.fde u (hn u)
    · rw [husb] at ht
      cases ht

section

variable (e : Endpoint) (t : TransportId)

/-- A change of one transport that does not touch the fields at stake. -/
theorem setTransport (hf : ∀ x, x.authFde = none → (f x).authFde = none)
    (ho : ∀ x, (f x).online = true → x.online = true) :
    Quiet e (e.setTransport t f) where
  host := rfl
  required := rfl
  forwarded := rfl
  usb := .inl rfl
  fde := by
    intro u hu
    by_cases h : u = t
    · subst h
      simpa [Endpoint.setTransport] using hf _ hu
    · simpa [Endpoint.setTransport, h] using hu
  online := by
    intro u hu
    by_cases h : u = t
    · subst h
      exact ho _ (by simpa [Endpoint.setTransport] using hu)
    · simpa [Endpoint.setTransport, h] using hu

theorem runTransportDisconnects : Quiet e (runTransportDisconnects e t) := by
  unfold Adb.runTransportDisconnects
  by_cases h : e.usbTransport = some t
  · rw [if_pos h]
    exact ⟨rfl, rfl, rfl, .inr rfl, fun _ => id, fun _ => id⟩
  · rw [if_neg h]
    exact ⟨rfl, rfl, rfl, .inl rfl, fun _ => id, fun _ => id⟩

theorem handleOffline : Quiet e (handleOffline e t) :=
  (setTransport e t (by simp) (by simp)).trans (runTransportDisconnects _ t)

theorem goOffline :
    Quiet e (Adb.handleOffline
      (e.setTransport t fun x => { x with connectionState := .offline }) t) :=
  (setTransport e t (by simp) (by simp)).trans (handleOffline _ t)

end

theorem sendAuthRequest (env : Env) (e : Endpoint) (t : TransportId) :
    Quiet e (sendAuthRequest env e t).1 := by
  unfold Adb.sendAuthRequest
  by_cases h : e.host
  · rw [if_pos h]
    exact refl e
  · rw [if_neg h]
    dsimp only
    exact setTransport e t (by simp) (by simp)

theorem handleSync (env : Env) (t : TransportId) (p : Packet) (e : Endpoint) :
    Quiet e (handleSync env t p e).1 := by
  unfold Adb.handleSync
  by_cases h : p.arg0 ≠ 0
  · rw [if_pos h]
    exact refl e
  · rw [if_neg h]
    exact goOffline e t

theorem handleConnect (env : Env) (t : TransportId) (p : Packet) (he : Asked e) :
    Quiet e (handleConnect env t p e).1 := by
  unfold Adb.handleConnect
  generalize hx : (if (e.transports t).connectionState ≠ .offline then
    Adb.handleOffline (e.setTransport t fun x => { x with connectionState := .offline }) t
    else e) = x
  have hq : Quiet e x := by
    rw [← hx]
    split_ifs
    · exact goOffline e t
    · exact refl e
  have hq' := hq.trans
    (setTransport x t (f := fun y => { y with connectionState := parseBanner p.data })
      (by simp) (by simp))
  unfold admitTransport
  rw [if_neg (by simp [hq'.host, hq'.required, he.device, he.required])]
  exact hq'.trans (sendAuthRequest env _ t)

/-- A packet for a stream is let through and finds its socket, or nothing happens. -/
theorem guarded {α : Type*} {c : Prop} [Decidable c] {o : Option α} {out : Output}
    {f : α → Endpoint × Output} (hf : ∀ a, Quiet e (f a).1) :
    Quiet e (if c then o.elim (e, out) f else (e, [])).1 := by
  split_ifs
  · cases o with
    | none => exact refl e
    | some a => exact hf a
  · exact refl e

theorem adbAuthListener (env : Env) (e : Endpoint) : Quiet e (adbAuthListener env e).1 := by
  unfold Adb.adbAuthListener
  dsimp only
  split_ifs
  · generalize hx : { e with
      framework := some e.connections, connections := e.connections + 1, needsRetry := false } = x
    have hq : Quiet e x := by
      rw [← hx]
      exact ⟨rfl, rfl, rfl, .inl rfl, fun _ => id, fun _ => id⟩
    cases e.usbTransport with
    | none => exact hq
    | some t => exact hq.trans (sendAuthRequest env x t)
  · exact ⟨rfl, rfl, rfl, .inl rfl, fun _ => id, fun _ => id⟩

theorem adbAuthClosed (e : Endpoint) : Quiet e (adbAuthClosed e) := by
  have h : Quiet e (e.usbTransport.elim e fun t =>
      e.setTransport t fun x => { x with authFde := none }) := by
    cases e.usbTransport with
    | none => exact refl e
    | some t =>
      dsimp
      exact setTransport e t (by simp) (by simp)
  exact h.trans ⟨rfl, rfl, rfl, .inl rfl, fun _ => id, fun _ => id⟩

end Quiet

/-! ## What an event does -/

/-- Only transport `t` may become online, and nothing changes about the framework. -/
structure Admits (t : TransportId) (e e' : Endpoint) : Prop where
  host : e'.host = e.host
  required : e'.authRequired = e.authRequired
  forwarded : e'.forwarded = e.forwarded
  usb : e'.usbTransport = e.usbTransport
  fde : ∀ u, (e'.transports u).authFde = (e.transports u).authFde
  online : ∀ u, u ≠ t → (e'.transports u).online = (e.transports u).online

theorem Admits.asked (h : Admits t e e') (he : Asked e) :
    Asked e' where
  device := h.host.trans he.device
  required := h.required.trans he.required
  asked := by
    intro u hu
    rw [h.forwarded]
    exact (he.asked u (h.usb ▸ hu)).imp_right fun hn v => (h.fde v).trans (hn v)

theorem admits_setTransport (e : Endpoint) (t : TransportId) (hf : ∀ x, (f x).authFde = x.authFde) :
    Admits t e (e.setTransport t f) where
  host := rfl
  required := rfl
  forwarded := rfl
  usb := rfl
  fde := by
    intro u
    by_cases h : u = t
    · subst h
      simp [Endpoint.setTransport, hf]
    · simp [Endpoint.setTransport, h]
  online := by
    intro u h
    simp [Endpoint.setTransport, h]

theorem Admits.trans (h₁ : Admits t e₁ e₂) (h₂ : Admits t e₂ e₃) :
    Admits t e₁ e₃ where
  host := h₂.host.trans h₁.host
  required := h₂.required.trans h₁.required
  forwarded := h₂.forwarded.trans h₁.forwarded
  usb := h₂.usb.trans h₁.usb
  fde := fun u => (h₂.fde u).trans (h₁.fde u)
  online := fun u hu => (h₂.online u hu).trans (h₁.online u hu)

theorem adbAuthConfirmKey_online (env : Env) (e : Endpoint) (key : List UInt8) (t u : TransportId) :
    ((adbAuthConfirmKey env e key t).transports u).online = (e.transports u).online := by
  have hclaim : (claimUsbTransport e t).transports = e.transports := by
    unfold claimUsbTransport
    split_ifs <;> rfl
  unfold adbAuthConfirmKey forwardKey
  split_ifs
  · rfl
  · rw [hclaim]
  · by_cases h : u = t
    · subst h
      simp [Endpoint.setTransport, hclaim]
    · simp [Endpoint.setTransport, h, hclaim]
  · rw [hclaim]

/-- A key presented in turn keeps the last key sent that of `usb_transport`. -/
theorem adbAuthConfirmKey_asked {key : List UInt8} (he : Asked e) (hturn : KeyInTurn env e key t) :
    Asked (adbAuthConfirmKey env e key t) := by
  -- claiming changes only `usb_transport`: it is `t` if the key is sent, and hears from nobody if not
  obtain ⟨v, hclaim, hsent, hkept⟩ : ∃ v, claimUsbTransport e t = { e with usbTransport := some v }
      ∧ (Sendable env e key → v = t) ∧ (¬Sendable env e key →
        e.forwarded.getLast?.map Prod.fst = some v ∨ ∀ u, (e.transports u).authFde = none) := by
    unfold KeyInTurn at hturn
    unfold claimUsbTransport
    cases husb : e.usbTransport with
    | none =>
      rw [husb] at hturn
      exact ⟨t, if_pos rfl, fun _ => rfl, fun hs => .inr (hturn.resolve_left hs)⟩
    | some v =>
      rw [husb] at hturn
      exact ⟨v, by rw [if_neg (by simp), ← husb], fun hs => hturn.resolve_right (· hs),
        fun _ => he.asked v husb⟩
  unfold adbAuthConfirmKey forwardKey
  rw [if_neg (by simp [he.device]), hclaim]
  split_ifs with hnofw hsend
  · exact ⟨he.device, he.required, fun u hu => some.inj hu ▸ hkept fun hs => hs.1 hnofw⟩
  · refine ⟨he.device, he.required, fun u hu => .inl ?_⟩
    rw [← some.inj hu, hsent ⟨hnofw, hsend⟩]
    simp
  · exact ⟨he.device, he.required, fun u hu => some.inj hu ▸ hkept fun hs => hsend hs.2⟩

/-- What a packet can do to the authorization state. -/
theorem handlePacket_auth (he : Asked e) :
    Quiet e (handlePacket env t p e).1
      ∨ (Authorizes e t (.packet env t p) ∧ Admits t e (handlePacket env t p e).1)
      ∨ (p.command = .auth ∧ p.arg0 = 3
        ∧ (handlePacket env t p e).1 = adbAuthConfirmKey env e p.data t) := by
  unfold handlePacket
  cases hc : p.command with
  | sync => exact .inl (.handleSync env t p e)
  | cnxn => exact .inl (.handleConnect env t p he)
  | open_ | okay | wrte =>
    exact .inl (.guarded fun _ => ⟨rfl, rfl, rfl, .inl rfl, fun _ => id, fun _ => id⟩)
  | clse =>
    refine .inl (.guarded fun _ => ?_)
    split_ifs
    · exact .refl e
    · exact ⟨rfl, rfl, rfl, .inl rfl, fun _ => id, fun _ => id⟩
  | unknown w => exact .inl (.refl e)
  | auth =>
    unfold handleAuth
    by_cases h1 : p.arg0 = 1
    · rw [if_pos h1]
      dsimp only
      exact .inl (.setTransport e t (by simp) (by simp))
    split_ifs with h2 hv h3
    · refine .inr (.inl ⟨⟨rfl, hc, h2, hv⟩, ?_⟩)
      dsimp only [adbAuthVerified]
      exact (admits_setTransport e t (by simp)).trans (admits_setTransport _ t (by simp))
    · refine .inl (Quiet.trans ?_ (.sendAuthRequest env _ t))
      exact .setTransport e t (by simp) (by simp)
    · exact .inr (.inr ⟨rfl, h3, rfl⟩)
    · exact .inl (.refl e)

/-- What an event can do to the authorization state. -/
theorem authAct_cases (he : Asked e) (ha : e.authAct a = some e') :
    Quiet e e' ∨ (∃ t, Authorizes e t a ∧ Admits t e e')
      ∨ ∃ env t p, a = .packet env t p ∧ p.command = .auth ∧ p.arg0 = 3
        ∧ e' = adbAuthConfirmKey env e p.data t := by
  cases a with
  | packet env t p =>
    obtain rfl := some.inj ha
    rcases handlePacket_auth (p := p) he with h | ⟨hauth, h⟩ | ⟨hc, h3, h⟩
    · exact .inl h
    · exact .inr (.inl ⟨t, hauth, h⟩)
    · exact .inr (.inr ⟨env, t, p, rfl, hc, h3, h⟩)
  | frameworkConnect env =>
    obtain rfl := some.inj ha
    exact .inl (.adbAuthListener env e)
  | frameworkOk env u =>
    obtain ⟨hu, ⟨⟩⟩ := ite_none_right_eq_some.1 ha
    unfold adbAuthOk
    cases husb : e.usbTransport with
    | none => exact .inl (.refl e)
    | some t =>
      -- somebody waits for this answer, so the last key sent is that of `usb_transport`
      have hlast := (he.asked t husb).resolve_right fun hn => by simp [hn u] at hu
      exact .inr (.inl ⟨t, hlast,
        admits_setTransport (f := fun x => { x with online := true }) e t (by simp)⟩)
  | frameworkClosed u =>
    obtain ⟨-, ⟨⟩⟩ := ite_none_right_eq_some.1 ha
    exact .inl (.adbAuthClosed e)
  | remove t =>
    obtain rfl := some.inj ha
    exact .inl (.runTransportDisconnects e t)
  | sockets table count nextId =>
    obtain rfl := some.inj ha
    exact .inl ⟨rfl, rfl, rfl, .inl rfl, fun _ => id, fun _ => id⟩

/-- **Step.** An event that presents keys in turn keeps the invariant, and whoever becomes online
is authorized by it. -/
theorem asked_step (he : Asked e) (ha : e.authAct a = some e') :
    (InTurn e a → Asked e')
      ∧ ∀ t, (e.transports t).online = false → (e'.transports t).online = true →
        Authorizes e t a := by
  rcases authAct_cases he ha with h | ⟨t, hauth, h⟩ | ⟨env, t, p, rfl, hc, h3, rfl⟩
  · refine ⟨fun _ => h.asked he, fun t hoff hon => ?_⟩
    exact absurd (h.online t hon) (by simp [hoff])
  · refine ⟨fun _ => h.asked he, fun u hoff hon => ?_⟩
    by_cases hu : u = t
    · exact hu ▸ hauth
    · rw [h.online u hu, hoff] at hon
      cases hon
  · refine ⟨fun hturn => adbAuthConfirmKey_asked he (hturn hc h3), fun u hoff hon => ?_⟩
    rw [adbAuthConfirmKey_online, hoff] at hon
    cases hon

theorem asked_run {e0 : Endpoint} (h0 : Asked e0) (hrun : ReflTransGen InTurnStep e0 e) :
    Asked e := by
  induction hrun with
  | refl => exact h0
  | tail _ hstep ih =>
    obtain ⟨a, hturn, ha⟩ := hstep
    exact (asked_step ih ha).1 hturn

/-- A transport that is offline does nothing to the streams. -/
theorem offline_no_effect (hoff : (e.transports t).online = false) (hp : p.command.onStream = true) :
    handlePacket env t p e = (e, []) := by
  unfold handlePacket
  cases hc : p.command <;> rw [hc] at hp <;> try cases hp
  all_goals
    simp [handleOpen, handleOkay, handleClose, handleWrite, hoff]

/-! ## Soundness -/

/-- **Authorization is sound if keys are presented in turn.** On a device that requires
authorization and starts with no `usb_transport`, whatever packets and events of the framework come
in whatever order: the event that puts a transport online authorizes that transport, and an offline
transport has no effect on the streams. -/
theorem authorization_sound {e₀ e e' : Endpoint} {a : AuthAct} (hdevice : e₀.host = false)
    (hrequired : e₀.authRequired = true) (hstart : e₀.usbTransport = none)
    (hrun : ReflTransGen InTurnStep e₀ e) (ha : e.authAct a = some e') :
    (∀ t, (e.transports t).online = false → (e'.transports t).online = true →
        Authorizes e t a)
      ∧ ∀ env t p, (e.transports t).online = false → p.command.onStream = true →
        handlePacket env t p e = (e, []) := by
  have h0 : Asked e₀ := ⟨hdevice, hrequired, fun t ht => by rw [hstart] at ht; cases ht⟩
  exact ⟨(asked_step (asked_run h0 hrun) ha).2, fun _ _ _ => offline_no_effect⟩

/-- A device that nobody is connected to. -/
def lockedDevice : Endpoint := { host := false, authRequired := true }

/-- A client presents its public key. -/
def presentKey (t : TransportId) (key : List UInt8) : AuthAct :=
  .packet {} t { command := .auth, arg0 := 3, data := key }

/-- The device after a list of events. -/
def Endpoint.authRun (e : Endpoint) (as : List AuthAct) : Option Endpoint :=
  as.foldlM Endpoint.authAct e

/-- One client, whose key the user accepts. -/
theorem single_client_authorized :
    ∃ e e', ReflTransGen InTurnStep lockedDevice e
      ∧ e.authAct (.frameworkOk {} 1) = some e' ∧ (e.transports 1).online = false
      ∧ (e'.transports 1).online = true ∧ Authorizes e 1 (.frameworkOk {} 1) := by
  let e₁ := (adbAuthListener {} lockedDevice).1
  let e₂ := adbAuthConfirmKey {} e₁ [75, 0] 1
  have hrun : ReflTransGen InTurnStep lockedDevice e₂ := by
    refine (ReflTransGen.single ⟨.frameworkConnect {}, trivial, rfl⟩).tail
      ⟨presentKey 1 [75, 0], ?_, rfl⟩
    exact fun _ _ => .inl ⟨by decide, by decide⟩
  have hsound := authorization_sound (a := .frameworkOk {} 1)
    rfl rfl rfl hrun rfl
  exact ⟨e₂, _, hrun, rfl, by decide, by decide, hsound.1 1 (by decide) (by decide)⟩

/-- **The user's answer about one client lets in another.** Two clients present their keys, the
second is the last that the user is asked about, and the `OK` puts the first online. -/
theorem authorized_by_another_key :
    ∃ e e', lockedDevice.authRun
        [.frameworkConnect {}, presentKey 1 [75, 0], presentKey 2 [76, 0]] = some e
      ∧ e.authAct (.frameworkOk {} 2) = some e'
      ∧ e.forwarded.getLast? = some (2, [76, 0])
      ∧ (e.transports 1).online = false ∧ (e'.transports 1).online = true
      ∧ (e'.transports 2).online = false
      ∧ ¬Authorizes e 1 (.frameworkOk {} 2) :=
  ⟨_, _, rfl, rfl, by decide, by decide, by decide, by decide, by decide⟩

end AndroidSystem.Adb
