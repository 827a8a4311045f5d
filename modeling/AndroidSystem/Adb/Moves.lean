import AndroidSystem.Adb.Duplex

/-!
# What an action of an endpoint amounts to

`Move` lists what an action of the near endpoint does to a wired-up system: a socket runs on its own,
a socket heeds a packet of its stream, a packet is dropped, a socket without a stream changes, a
stream is accepted, refused or opened. `act_moves` shows that every careful action consists of these,
and is the only place where `handle_packet` is taken apart. Two facts are read off `Move` then: it
keeps the wiring (`Wiring.move`), and each stream makes a run of the abstract machine
(`Streams.move`).
-/

namespace AndroidSystem.Adb

open List StopAndWait Option Relation Duplex

variable {p : Packet} {rest : List Packet} {x : Nat} {ms : List (Msg UInt8)} {m : Msg UInt8}
  {d' : Duplex}

variable {i j y : Nat} {s : LocalSocket} {d : Duplex} {out : Output}

/-! ## Streams -/

/-- The message that a packet carries from socket `i` to socket `j`. -/
def Packet.message (i j : Nat) (p : Packet) : Option (Msg UInt8) :=
  if p.arg0 = i ∧ p.arg1 = j then
    match p.command with
    | .okay => some .ack
    | .wrte => some (.data p.data)
    | .clse => some .close
    | _ => none
  else none

/-- The stream between socket `x` of the near endpoint and socket `y` of the far one. -/
def Duplex.stream (d : Duplex) (x y : Nat) : Pipe UInt8 :=
  let i := (d.near.sockets x).id
  let j := (d.far.sockets y).id
  { left := (d.near.sockets x).toEnd
    right := (d.far.sockets y).toEnd
    gotLeft := d.gotNear.filterMap (·.message j i)
    toLeft := d.toNear.filterMap (·.message j i)
    gotRight := d.gotFar.filterMap (·.message i j)
    toRight := d.toFar.filterMap (·.message i j) }

theorem message_render (i : Nat) (r : RemoteSocket) (m : Msg UInt8) :
    (render i r m).2.message i r.id = some m := by
  cases m <;> simp [render, Packet.message]

theorem message_eq_none (h : p.arg0 ≠ i ∨ p.arg1 ≠ j) : p.message i j = none := by
  unfold Packet.message
  rw [if_neg]
  rintro ⟨h0, h1⟩
  exact h.elim (· h0) (· h1)

theorem streamed_of_message (h : p.message i j = some m) (hi : i ≠ 0) :
    p.Streamed ∧ p.arg0 = i ∧ p.arg1 = j := by
  unfold Packet.message at h
  split_ifs at h with ha
  refine ⟨?_, ha⟩
  cases hc : p.command <;> simp_all [Packet.Streamed]

theorem active_of_toEnd (h : s.toEnd.status = .active) : s.status = .active := by
  cases hs : s.status <;> simp_all [LocalSocket.toEnd, SocketStatus.toStatus]

/-! ## Moves -/

/-- What an action of the near endpoint does. -/
inductive Move (d : Duplex) : Duplex → Prop
  /-- A socket runs on its own. -/
  | run {k : Nat} {e : Effect} {ms : List (Msg UInt8)} (hk : k < d.near.count)
      (ha : Allowed d k e.socket e.out) (hr : Refines (d.near.sockets k) e ms) :
      Move d (d.effect k e)
  /-- A socket heeds a packet of its stream. -/
  | heed {p : Packet} {rest : List Packet} {k y : Nat} {m : Msg UInt8} {e : Effect}
      {ms : List (Msg UInt8)} (hp : d.toNear = p :: rest) (hend : Ends d k y)
      (hm : p.message (d.far.sockets y).id (d.near.sockets k).id = some m)
      (ha : Allowed d k e.socket e.out) (hr : Receives (d.near.sockets k) m e.socket ms)
      (hout : e.out = ms.map (render (d.near.sockets k).id ⟨(d.far.sockets y).id, 0⟩)) :
      Move d ((d.take p).effect k e)
  /-- A packet is dropped: it belongs to no stream, its socket is gone or does not know of the
  stream yet. -/
  | drop {p : Packet} {rest : List Packet} (hp : d.toNear = p :: rest)
      (hm : ∀ x y m, Ends d x y → p.message (d.far.sockets y).id (d.near.sockets x).id = some m →
        (d.near.sockets x).status ≠ .active ∨ (d.near.sockets x).peer = none ∧ m ≠ .ack) :
      Move d (d.take p)
  /-- A socket changes whose stream is not up. -/
  | alone {k : Nat} {e : Effect} (hk : k < d.near.count) (hno : ∀ y, ¬Ends d k y)
      (ha : Allowed d k e.socket e.out) : Move d (d.effect k e)
  /-- A stream is accepted. -/
  | accept {p : Packet} {rest : List Packet} {y : Nat} (exitOnClose : Bool)
      (hp : d.toNear = p :: rest) (ho : p.command = .open_) (hc : d.near.count + 1 < 2 ^ 32)
      (hy : Asking (d.take p) y)
      (hst : (d.far.sockets y).Undisturbed)
      (hno : ∀ q ∈ d.toFar, q.command = .clse → q.arg0 = 0 → q.arg1 ≠ (d.far.sockets y).id) :
      Move d ((d.take p).create (acceptedSocket d y exitOnClose)
        (sendReady d.near.nextId (d.far.sockets y).id 0))
  /-- A stream is refused. -/
  | refuse {p : Packet} {rest : List Packet} {y : Nat} (hp : d.toNear = p :: rest)
      (ho : p.command = .open_) (hy : Asking (d.take p) y) :
      Move d ((d.take p).absorb (d.near, sendClose 0 (d.far.sockets y).id 0))
  /-- A stream is opened. -/
  | connect (notify : Bool) (destination : List UInt8) (hc : d.near.count + 1 < 2 ^ 32) :
      Move d (d.absorb (connectToRemote d.near 0 notify destination))

/-- What may be done to a socket does not depend on the packets on their way to it. -/
theorem Allowed.take {k : Nat} (ha : Allowed d k s out) : Allowed (d.take p) k s out :=
  { ha with }

/-- **A move keeps the wiring.** -/
theorem Wiring.move (h : Wiring d) (hm : Move d d') : Wiring d' := by
  cases hm with
  | run hk ha hr => exact h.effect ha
  | heed hp hend hm ha hr hout => exact (h.take hp).effect ha.take
  | drop hp hm => exact h.take hp
  | alone hk hno ha => exact h.effect ha
  | accept x hp ho hc hy hst hno => exact (h.take hp).accept hc hy hno x
  | refuse hp ho hy => exact (h.take hp).refuse hy
  | connect notify destination hc => exact h.connect hc notify destination

/-! ## Streams follow the abstract machine -/

/-- Every stream satisfies the invariant of the abstract machine. -/
def Streams (d : Duplex) : Prop := ∀ x y, Ends d x y → StopAndWait.Inv (d.stream x y)

theorem Streams.swap (h : Streams d) : Streams d.swap := by
  intro y x hend
  exact (h x y (ends_swap.1 hend)).swap

section

variable {d : Duplex} {k : Nat} {e : Effect}

theorem Wired.id_ne_zero (h : Wired d) (hx : x < d.near.count) : (d.near.sockets x).id ≠ 0 := by
  rw [h.ids x hx]; omega

theorem stream_effect_other (h : Wired d) (ha : Allowed d k e.socket e.out) (hend : Ends d x y)
    (hk : k < d.near.count) (hx : x ≠ k) : (d.effect k e).stream x y = d.stream x y := by
  have hid : (d.near.sockets k).id ≠ (d.near.sockets x).id := fun he =>
    hx (h.id_inj hend.1 hk he.symm)
  have hnil : (e.out.map Prod.snd).filterMap
      (·.message (d.near.sockets x).id (d.far.sockets y).id) = [] := by
    refine filterMap_eq_nil_iff.2 fun p hp => message_eq_none (.inl ?_)
    obtain ⟨q, hq, rfl⟩ := mem_map.1 hp
    rw [(ha.out q hq).2.choose_spec.2.1]
    exact hid
  unfold stream
  rw [effect_other hx, effect_far, effect_toFar]
  simp only [filterMap_append, hnil, append_nil]
  rfl

theorem stream_effect_self (ha : Allowed d k e.socket e.out)
    (hout : (e.out.map Prod.snd).filterMap (·.message (d.near.sockets k).id (d.far.sockets y).id) = ms) :
    (d.effect k e).stream k y =
      { d.stream k y with left := e.socket.toEnd, toRight := (d.stream k y).toRight ++ ms } := by
  unfold stream
  rw [effect_self, effect_far, effect_toFar, ha.id]
  simp only [filterMap_append, hout]
  rfl

/-- The packets that render messages carry these messages. -/
theorem filterMap_render (i : Nat) (r : RemoteSocket) (ms : List (Msg UInt8)) :
    ((ms.map (render i r)).map Prod.snd).filterMap (·.message i r.id) = ms := by
  induction ms with
  | nil => rfl
  | cons m ms ih =>
    simp only [map_cons, filterMap_cons, message_render, ih]

theorem stream_take_none (hp : d.toNear = p :: rest)
    (hm : p.message (d.far.sockets y).id (d.near.sockets x).id = none) :
    (d.take p).stream x y = d.stream x y := by
  simp [stream, Duplex.take, hp, hm]

/-- A packet of the stream is a message that is delivered to its left end. -/
theorem stream_take_some (hp : d.toNear = p :: rest)
    (hm : p.message (d.far.sockets y).id (d.near.sockets x).id = some m) :
    ∃ ms, (d.stream x y).toLeft = m :: ms ∧ (d.take p).stream x y =
      { d.stream x y with toLeft := ms, gotLeft := (d.stream x y).gotLeft ++ [m] } := by
  refine ⟨rest.filterMap (·.message (d.far.sockets y).id (d.near.sockets x).id), ?_, ?_⟩
  · simp [stream, hp, hm]
  · simp [stream, Duplex.take, hp, hm]

/-- A socket runs on its own: its stream makes the same moves. -/
theorem Streams.run (h : Wiring d) (hs : Streams d) (hk : k < d.near.count)
    (ha : Allowed d k e.socket e.out) (hr : Refines (d.near.sockets k) e ms) :
    Streams (d.effect k e) := by
  intro x y hend'
  have hend := (ends_effect ha).1 hend'
  by_cases hx : x = k
  · subst hx
    have hout : (e.out.map Prod.snd).filterMap
        (·.message (d.near.sockets x).id (d.far.sockets y).id) = ms := by
      cases hpeer : (d.near.sockets x).peer with
      | none => rw [hr.out, hr.silent hpeer, hpeer]; rfl
      | some r =>
        obtain ⟨y', hy', rfl⟩ := h.near.peers x hk r hpeer
        rw [hr.out, hpeer, h.near.unique x y y' hend hy']
        exact filterMap_render (d.near.sockets x).id ⟨(d.far.sockets y').id, 0⟩ ms
    rw [stream_effect_self ha hout]
    exact (hs x y hend).run (Pipe.run_moves hr.moves)
  · rw [stream_effect_other h.near ha hend hk hx]
    exact hs x y hend

/-- A socket heeds a packet of its stream: the stream delivers the message. -/
theorem Streams.heed (h : Wiring d) (hs : Streams d) (hp : d.toNear = p :: rest) (hend : Ends d k y)
    (hm : p.message (d.far.sockets y).id (d.near.sockets k).id = some m)
    (ha : Allowed d k e.socket e.out) (hr : Receives (d.near.sockets k) m e.socket ms)
    (hout : e.out = ms.map (render (d.near.sockets k).id ⟨(d.far.sockets y).id, 0⟩)) :
    Streams ((d.take p).effect k e) := by
  intro x z hend'
  have hendx : Ends d x z := (ends_effect ha.take).1 hend'
  by_cases hx : x = k
  · subst hx
    obtain rfl := h.near.unique x y z hend hendx
    obtain ⟨left, hleft, htake⟩ := stream_take_some hp hm
    obtain ⟨out, out', e', hrec, hmoves, rfl⟩ := hr.receive
    have hcarried : (e.out.map Prod.snd).filterMap
        (·.message (d.near.sockets x).id (d.far.sockets y).id) = out ++ out' := by
      rw [hout]
      exact filterMap_render _ ⟨(d.far.sockets y).id, 0⟩ _
    rw [stream_effect_self ha.take hcarried, htake]
    exact (hs x y hend).run (Pipe.run_deliver hleft hrec hmoves)
  · have hid : (d.near.sockets k).id ≠ (d.near.sockets x).id := fun he =>
      hx (h.near.id_inj hendx.1 hend.1 he.symm)
    have harg := (streamed_of_message hm (h.far.id_ne_zero hend.2.1)).2.2
    rw [stream_effect_other (h.take hp).near ha.take hendx hend.1 hx,
      stream_take_none hp (message_eq_none (.inr (by rw [harg]; exact hid)))]
    exact hs x z hendx

/-- A packet is dropped: the stream it belongs to, if any, drops the message. -/
theorem Streams.drop (hs : Streams d) (hp : d.toNear = p :: rest)
    (hm : ∀ x y m, Ends d x y → p.message (d.far.sockets y).id (d.near.sockets x).id = some m →
      (d.near.sockets x).status ≠ .active ∨ (d.near.sockets x).peer = none ∧ m ≠ .ack) :
    Streams (d.take p) := by
  intro x y hend
  have hinv := hs x y hend
  cases hmsg : p.message (d.far.sockets y).id (d.near.sockets x).id with
  | none => rw [stream_take_none hp hmsg]; exact hinv
  | some m =>
    obtain ⟨left, hleft, htake⟩ := stream_take_some hp hmsg
    have hignore : Receive (d.stream x y).left m [] (d.stream x y).left := by
      by_cases hact : (d.near.sockets x).status = .active
      · obtain ⟨hpeer, hne⟩ := (hm x y m hend hmsg).resolve_left (· hact)
        exact .early (toEnd_active hact) (by simp [stream, LocalSocket.toEnd, hpeer]) hne
      · exact .ignore fun hst => hact (active_of_toEnd hst)
    rw [htake]
    simpa using hinv.run (Pipe.run_deliver hleft hignore (.refl _))

/-- The socket of a stream that did not come up changes: no stream is concerned. -/
theorem Streams.alone (h : Wiring d) (hs : Streams d) (hk : k < d.near.count)
    (hno : ∀ y, ¬Ends d k y) (ha : Allowed d k e.socket e.out) : Streams (d.effect k e) := by
  intro x y hend'
  have hend := (ends_effect ha).1 hend'
  have hx : x ≠ k := by
    rintro rfl
    exact hno y hend
  rw [stream_effect_other h.near ha hend hk hx]
  exact hs x y hend

theorem Streams.take (h : Wiring d) (hs : Streams d) (hp : d.toNear = p :: rest)
    (hst : ¬p.Streamed) : Streams (d.take p) :=
  hs.drop hp fun _ _ _ hend hmsg =>
    absurd (streamed_of_message hmsg (h.far.id_ne_zero hend.2.1)).1 hst

theorem Streams.refuse (h : Wiring d) (hs : Streams d) (j : Nat) :
    Streams (d.absorb (d.near, sendClose 0 j 0)) := by
  intro x y hend
  have hnone : ({ command := .clse, arg1 := j } : Packet).message
      (d.near.sockets x).id (d.far.sockets y).id = none :=
    message_eq_none (.inl (h.near.id_ne_zero hend.1).symm)
  have hsame : (d.absorb (d.near, sendClose 0 j 0)).stream x y = d.stream x y := by
    simp [stream, absorb, sendClose, hnone]
  rw [hsame]
  exact hs x y hend

variable {s : LocalSocket} {q : Packet}

theorem stream_create_old (h : Wired d) (hc : d.near.count + 1 < 2 ^ 32)
    (h0 : q.arg0 = d.near.nextId) (hx : x < d.near.count) :
    (d.create s [(0, q)]).stream x y = d.stream x y := by
  have hid : d.near.nextId ≠ (d.near.sockets x).id := by
    rw [h.next hc, h.ids x hx]
    omega
  have hnone : q.message (d.near.sockets x).id (d.far.sockets y).id = none :=
    message_eq_none (.inl (h0 ▸ hid))
  unfold stream
  rw [create_old hx, create_far, create_toFar]
  simp only [map_cons, map_nil, filterMap_append, filterMap_cons, hnone,
    filterMap_nil, append_nil]
  rfl

theorem Wiring.no_message (h : Wiring d) (hc : d.near.count + 1 < 2 ^ 32) (j : Nat) (hj : j ≠ 0) :
    (d.gotFar ++ d.toFar).filterMap (·.message d.near.nextId j) = []
      ∧ (d.gotNear ++ d.toNear).filterMap (·.message j d.near.nextId) = [] := by
  have hfresh : ∀ x < d.near.count, (d.near.sockets x).id ≠ d.near.nextId := by
    intro x hx
    rw [h.near.next hc, h.near.ids x hx]
    omega
  constructor
  · refine filterMap_eq_nil_iff.2 fun p hp => ?_
    by_contra hne
    obtain ⟨m, hm⟩ := ne_none_iff_exists'.1 hne
    obtain ⟨hst, h0, -⟩ := streamed_of_message hm (by rw [h.near.next hc]; omega)
    obtain ⟨x, y, hend, hx, -⟩ := h.near.sent p hp hst
    exact hfresh x hend.1 (hx.symm.trans h0)
  · refine filterMap_eq_nil_iff.2 fun p hp => ?_
    by_contra hne
    obtain ⟨m, hm⟩ := ne_none_iff_exists'.1 hne
    obtain ⟨hst, -, h1⟩ := streamed_of_message hm hj
    obtain ⟨y, x, hend, -, hx⟩ := h.far.sent p hp hst
    exact hfresh x hend.2.1 (hx.symm.trans h1)

/-- **A stream that was just accepted** is a stream of the abstract machine at its start. -/
theorem Streams.accept (h : Wiring d) (hs : Streams d) (hc : d.near.count + 1 < 2 ^ 32)
    (hy : Asking d y) (hst : (d.far.sockets y).Undisturbed) (exitOnClose : Bool) :
    Streams (d.create (acceptedSocket d y exitOnClose)
      (sendReady d.near.nextId (d.far.sockets y).id 0)) := by
  intro x z hend
  rcases (ends_accept h hy rfl rfl).1 hend with hold | ⟨rfl, rfl⟩
  · have hsame := stream_create_old (s := acceptedSocket d y exitOnClose)
      (q := { command := .okay, arg0 := d.near.nextId, arg1 := (d.far.sockets y).id })
      h.near hc rfl (y := z) hold.1
    exact (congrArg StopAndWait.Inv hsame).mpr (hs x z hold)
  · obtain ⟨hnone, hnone'⟩ := h.no_message hc (d.far.sockets z).id (h.far.id_ne_zero hy.lt)
    rw [filterMap_append, append_eq_nil_iff] at hnone hnone'
    have hstart : (d.create (acceptedSocket d z exitOnClose)
        (sendReady d.near.nextId (d.far.sockets z).id 0)).stream d.near.count z =
          Pipe.accepted (d.far.sockets z).toEnd := by
      have hleft : ({ acceptedSocket d z exitOnClose with id := d.near.nextId } : LocalSocket).toEnd
          = End.fresh true := by
        simp [acceptedSocket, localSocketReady, LocalSocket.settle, LocalSocket.toEnd, End.fresh,
          fdeventAdd_read_want, SocketStatus.toStatus]
      have hack : ({ command := .okay, arg0 := d.near.nextId, arg1 := (d.far.sockets z).id } :
          Packet).message d.near.nextId (d.far.sockets z).id = some .ack := by
        simp [Packet.message]
      unfold stream Pipe.accepted
      rw [create_new, hleft]
      simp only [create_far, create_toFar, create_gotFar, create_gotNear, create_toNear,
        filterMap_append, sendReady, map_cons, map_nil, filterMap_cons,
        filterMap_nil, hack, hnone, hnone', nil_append]
    rw [hstart]
    obtain ⟨-, hread, hpkts, hr, hw⟩ := h.far.idle z hy.lt fun x hx => hy.alone x (ends_swap.1 hx)
    refine inv_accepted ?_ hread ?_ ?_ hr hw ?_
    · exact isNone_eq_false_iff.2 (isSome_iff_ne_none.2 hy.opener)
    · exact congrArg (fun l => !isEmpty l) hpkts
    · exact congrArg flatten hpkts
    · exact hst.imp (.imp_left toEnd_active) (.imp_left (mt active_of_toEnd))

end

/-- **A move is a run of the abstract machine on every stream.** -/
theorem Streams.move (h : Wiring d) (hs : Streams d) (hm : Move d d') : Streams d' := by
  cases hm with
  | run hk ha hr => exact hs.run h hk ha hr
  | heed hp hend hm ha hr hout => exact hs.heed h hp hend hm ha hr hout
  | drop hp hm => exact hs.drop hp hm
  | alone hk hno ha => exact hs.alone h hk hno ha
  | accept x hp ho hc hy hst hno =>
    refine Streams.accept (h.take hp) (hs.take h hp ?_) hc hy hst x
    exact fun hstr => (streamed_kind hstr).1 ho
  | refuse hp ho hy =>
    exact Streams.refuse (h.take hp) (hs.take h hp fun hstr => (streamed_kind hstr).1 ho) _
  | connect notify destination hc =>
    intro x z hend
    have hold := (ends_connect h hc (by simp)).1 hend
    exact (congrArg StopAndWait.Inv (stream_create_old h.near hc rfl hold.1)).mpr (hs x z hold)

/-! ## Every action consists of moves -/

section Actions

variable {d : Duplex} {k y : Nat}

section

variable (h : Wiring d)
include h

theorem Wiring.peer_eq (hend : Ends d k y) {r : RemoteSocket}
    (hr : (d.near.sockets k).peer = some r) : r = ⟨(d.far.sockets y).id, 0⟩ := by
  obtain ⟨y', hend', rfl⟩ := h.near.peers k hend.1 r hr
  rw [h.near.unique k y y' hend hend']

/-- What may be done to a socket whose stream is up. -/
theorem Wiring.allowed (hend : Ends d k y) (ms : List (Msg UInt8))
    (hid : s.id = (d.near.sockets k).id) (htr : s.transport = (d.near.sockets k).transport)
    (hpa : (d.near.sockets k).transport = none → s.partner = (d.near.sockets k).partner)
    (hok : SocketOk s) (hpeer : ∀ r, s.peer = some r → r = ⟨(d.far.sockets y).id, 0⟩)
    (hout : out = ms.map (render (d.near.sockets k).id ⟨(d.far.sockets y).id, 0⟩)) :
    Allowed d k s out := by
  refine ⟨hid, htr, hpa, hok, fun r hr => ⟨y, hend, hpeer r hr⟩, fun q hq => ?_,
    fun hno => absurd hend (hno y), fun ⟨p, hp, ho, h0⟩ => ?_⟩
  · rw [hout] at hq
    obtain ⟨m, -, rfl⟩ := mem_map.1 hq
    obtain ⟨hst, h0, h1⟩ := streamed_of_message (message_render (d.near.sockets k).id
      ⟨(d.far.sockets y).id, 0⟩ m) (h.near.id_ne_zero hend.1)
    exact ⟨hst, y, hend, h0, h1⟩
  · obtain ⟨-, x, hx, hx0, -, hno, -⟩ := h.near.opens p hp ho
    obtain rfl := h.near.id_inj hend.1 hx (h0.symm.trans hx0)
    exact absurd hend (hno y)

theorem Wiring.allowed_same (hend : Ends d k y) (ms : List (Msg UInt8))
    (hsame : Same (d.near.sockets k) s) (hok : SocketOk s)
    (hout : out = ms.map (render (d.near.sockets k).id ⟨(d.far.sockets y).id, 0⟩)) :
    Allowed d k s out := by
  refine h.allowed hend ms hsame.id hsame.transport (fun _ => hsame.partner) hok
    (fun r hr => ?_) hout
  rcases hsame.peer with hs | hs
  · exact h.peer_eq hend (hs.symm.trans hr)
  · simp [hs] at hr

theorem Wiring.run (hend : Ends d k y) {e : Effect} (hr : Refines (d.near.sockets k) e ms) :
    Move d (d.effect k e) := by
  refine .run hend.1 ?_ hr
  have hout : e.out = ms.map (render (d.near.sockets k).id ⟨(d.far.sockets y).id, 0⟩) := by
    cases hp : (d.near.sockets k).peer with
    | none => rw [hr.out, hr.silent hp, hp]; rfl
    | some r => rw [hr.out, hp, h.peer_eq hend hp]; rfl
  exact h.allowed_same hend ms hr.same hr.ok hout

theorem Wiring.touch (hk : k < d.near.count) (ev : Events)
    (hw : (d.near.sockets k).status = .active → ev.write →
      (d.near.sockets k).fde.want.write) :
    Move d (d.effect k { socket := { d.near.sockets k with
      fde := { (d.near.sockets k).fde with pending := ev } } }) := by
  have hs := h.near.ok k hk
  have hok : SocketOk { d.near.sockets k with fde := { (d.near.sockets k).fde with pending := ev } } :=
    { hs with pending_write := hw }
  refine .run hk ⟨rfl, rfl, fun _ => rfl, hok, h.near.peers k hk, by simp, fun hno => ?_,
    fun ⟨p, hp, ho, h0⟩ => ?_⟩ ⟨.refl _, ?_, fun _ => rfl, ⟨rfl, rfl, rfl, fun h => h, .inl rfl⟩, hok⟩
  · obtain ⟨h1, h2, h3, h4, h5⟩ := h.near.idle k hk hno
    exact ⟨h1, h2, h3, h4, h5⟩
  · obtain ⟨-, x, hx, hx0, -, -, hst⟩ := h.near.opens p hp ho
    obtain rfl := h.near.id_inj hk hx (h0.symm.trans hx0)
    exact hst
  · cases (d.near.sockets k).peer <;> rfl

theorem Wiring.pending_idle (hk : d.Live k)
    (hread : (d.near.sockets k).fde.pending.read = true → (d.near.sockets k).fde.want.read = true)
    (hno : ∀ y, ¬Ends d k y) : (d.near.sockets k).fde.pending = {} := by
  have hidle := h.near.idle k hk.1 hno
  have hact : (d.near.sockets k).status = .active :=
    (active_or_closing hk.2).resolve_right hidle.status
  have hok := h.near.ok k hk.1
  have hr : (d.near.sockets k).fde.pending.read = false := by
    by_contra hp
    have := hread (by simpa using hp)
    rw [hidle.read_off] at this
    exact absurd this (by decide)
  have hw : (d.near.sockets k).fde.pending.write = false := by
    by_contra hp
    exact hok.want_write hact (hok.pending_write hact (by simpa using hp)) hidle.pkts
  cases hpend : (d.near.sockets k).fde.pending
  simp_all

theorem Wiring.dropped {p : Packet} {rest : List Packet} (hp : d.toNear = p :: rest)
    (hend : Ends d k y) (h1 : p.arg1 = (d.near.sockets k).id)
    (hst : (d.near.sockets k).status ≠ .active
      ∨ (d.near.sockets k).peer = none ∧ p.command ≠ .okay) : Move d (d.take p) := by
  refine .drop hp fun x z m hendx hmsg => ?_
  obtain ⟨-, -, hx⟩ := streamed_of_message hmsg (h.far.id_ne_zero hendx.2.1)
  obtain rfl := h.near.id_inj hendx.1 hend.1 (hx.symm.trans h1)
  refine hst.imp_right fun ⟨hpeer, hne⟩ => ⟨hpeer, ?_⟩
  rintro rfl
  unfold Packet.message at hmsg
  cases hc : p.command <;> simp_all

/-! ### Packets -/

omit h in
theorem effect_of_setSocket {d0 : Duplex} (s : LocalSocket) :
    d0.absorb (d0.near.setSocket k s, []) = d0.effect k { socket := s } := by
  have hhalt : ((d0.near.halted <|> none : Option Halt)) = d0.near.halted := by
    cases d0.near.halted <;> rfl
  simp only [effect, Endpoint.apply, hhalt]
  rfl

section

variable (hp : d.toNear = p :: rest)
include hp

/-- A stream packet comes from the other end of the stream of the socket it names. -/
theorem Wiring.addressed (hst : p.Streamed) :
    ∃ x z, Ends d x z ∧ p.arg0 = (d.far.sockets z).id
      ∧ p.arg1 = (d.near.sockets x).id ∧ p.arg0 ≠ 0 ∧ p.arg1 ≠ 0 := by
  have hmem : p ∈ d.gotNear ++ d.toNear := by simp [hp]
  obtain ⟨z, x, hend, h0, h1⟩ := h.far.sent p hmem hst
  have hend' := ends_swap.1 hend
  refine ⟨x, z, hend', h0, h1, ?_, ?_⟩
  · rw [h0]; exact h.far.id_ne_zero hend.1
  · rw [h1]; exact h.near.id_ne_zero hend'.1

theorem Wiring.okay (hc : p.command = .okay) :
    Move d ((d.take p).absorb (handleOkay 0 p d.near)) := by
  obtain ⟨x, z, hend, h0, h1, hn0, hn1⟩ := h.addressed hp (.inl hc)
  unfold handleOkay
  rw [if_pos ⟨h.near.online, hn0, hn1⟩, h1, h.near.find hend.1]
  by_cases ha : (d.near.sockets x).status = .active
  · rw [if_pos ⟨ha, .inl rfl⟩, h0]
    show Move d ((d.take p).absorb ((d.take p).near.setSocket x _, []))
    rw [effect_of_setSocket]
    set r : RemoteSocket := ⟨(d.far.sockets z).id, 0⟩ with hr
    have hpeer : (d.near.sockets x).peer = none ∨ (d.near.sockets x).peer = some r := by
      cases hpe : (d.near.sockets x).peer with
      | none => exact .inl rfl
      | some r' => exact .inr (by rw [h.peer_eq hend hpe])
    obtain ⟨hrec, hpeer', hpartner⟩ := socketOkay_receives (h.near.ok x hend.1) ha hpeer
    refine .heed hp hend ?_ (h.allowed hend [] hrec.id
      hrec.transport ?_ hrec.ok (fun r' hr' => ?_) rfl) hrec rfl
    · simp [Packet.message, h0, h1, hc]
    · -- a socket that was created for its stream knows its partner from the start
      intro ht
      obtain ⟨r', hr'⟩ := isSome_iff_exists.1 ((h.near.ok x hend.1).accepted_peer ha ht)
      rw [hpartner, if_neg (by simp [hr'])]
    · exact some.inj (hr'.symm.trans hpeer')
  · rw [if_neg fun hh => ha hh.1]
    simpa [absorb, Duplex.take] using h.dropped hp hend h1 (.inl ha)

omit hp in
/-- The socket that a packet with both ids names, if there is one: it is active and its peer is the
sender. -/
theorem Wiring.find_peer (hend : Ends d k y) :
    findLocalSocket d.near (d.near.sockets k).id (d.far.sockets y).id =
      if (d.near.sockets k).status = .active ∧ (d.near.sockets k).peer = some ⟨(d.far.sockets y).id, 0⟩
      then some k else none := by
  have hne : (d.far.sockets y).id ≠ 0 := h.far.id_ne_zero hend.2.1
  rw [h.near.find hend.1]
  refine if_congr (and_congr_right fun _ => ?_) rfl rfl
  cases hpe : (d.near.sockets k).peer with
  | none => simp [hne]
  | some r => simp [h.peer_eq hend hpe]

theorem Wiring.dropped_peer (hend : Ends d k y) (h1 : p.arg1 = (d.near.sockets k).id)
    (hc : p.command ≠ .okay)
    (hn : ¬((d.near.sockets k).status = .active ∧ (d.near.sockets k).peer = some ⟨(d.far.sockets y).id, 0⟩)) :
    Move d (d.take p) := by
  refine h.dropped hp hend h1 ?_
  by_cases ha : (d.near.sockets k).status = .active
  · refine .inr ⟨?_, hc⟩
    cases hpe : (d.near.sockets k).peer with
    | none => rfl
    | some r => exact absurd ⟨ha, by rw [hpe, h.peer_eq hend hpe]⟩ hn
  · exact .inl ha

theorem Wiring.write (hc : p.command = .wrte) (env : Env) :
    Move d ((d.take p).absorb (handleWrite env 0 p d.near)) := by
  obtain ⟨x, z, hend, h0, h1, hn0, hn1⟩ := h.addressed hp (.inr (.inl hc))
  unfold handleWrite
  rw [if_pos ⟨h.near.online, hn0, hn1⟩, h1, h0, h.find_peer hend]
  by_cases hconn : (d.near.sockets x).status = .active
      ∧ (d.near.sockets x).peer = some ⟨(d.far.sockets z).id, 0⟩
  · rw [if_pos hconn]
    obtain ⟨ms, hrec, hsame, hout⟩ := localSocketEnqueue_receives (h.near.ok x hend.1) hconn.1
      hconn.2 env.writes p.data
    set e := localSocketEnqueue env.writes p.data (d.near.sockets x) with he
    show Move d ((d.take p).effect x { e.2 with
      out := e.2.out ++
        (if e.1 = 0 then sendReady (d.near.sockets x).id (d.far.sockets z).id 0 else []) })
    exact .heed hp hend (by simp [Packet.message, h0, h1, hc])
      (h.allowed_same hend _ hsame hrec.ok hout) hrec hout
  · rw [if_neg hconn]
    simpa [absorb, Duplex.take] using h.dropped_peer hp hend h1 (by simp [hc]) hconn

theorem Wiring.close (hc : p.command = .clse) (hne : p.arg0 ≠ 0) :
    Move d ((d.take p).absorb (handleClose 0 p d.near)) := by
  obtain ⟨x, z, hend, h0, h1, hn0, hn1⟩ := h.addressed hp (.inr (.inr ⟨hc, hne⟩))
  unfold handleClose
  rw [if_pos ⟨h.near.online, hn1⟩, h1, h0, h.find_peer hend]
  by_cases hconn : (d.near.sockets x).status = .active
      ∧ (d.near.sockets x).peer = some ⟨(d.far.sockets z).id, 0⟩
  · rw [if_pos hconn]
    obtain ⟨hrec, hsame, hout⟩ := localSocketClose_receives hconn.1 hconn.2
    rw [elim_some, if_neg fun hz => hne (h0.trans hz.1)]
    exact .heed hp hend (by simp [Packet.message, h0, h1, hc])
      (h.allowed_same hend [.close] hsame hrec.ok hout) hrec hout
  · rw [if_neg hconn]
    simpa [absorb, Duplex.take] using h.dropped_peer hp hend h1 (by simp [hc]) hconn

omit h in
omit hp in
theorem localSocketClose_idle (hs : Idle s) (ha : s.status = .active) (hp : s.peer = none) :
    Idle (localSocketClose s).socket ∧ (localSocketClose s).socket.status = .freed
      ∧ (localSocketClose s).socket.ownClose.isSome = s.ownClose.isSome
      ∧ (localSocketClose s).out = []
      ∧ Same s (localSocketClose s).socket ∧ SocketOk (localSocketClose s).socket := by
  obtain ⟨hend, hsame, hok, hout⟩ := localSocketClose_active ha
  obtain ⟨-, -, hpkts, hr, hw⟩ := hs
  rw [if_pos hpkts] at hend
  have hfreed : (localSocketClose s).socket.status = .freed := by
    have := congrArg End.status hend
    cases hc : (localSocketClose s).socket.status <;>
      simp [LocalSocket.toEnd, SocketStatus.toStatus, hc] at this ⊢
  have hq : (localSocketClose s).socket.pkts = [] := by
    have := congrArg End.owes hend
    simpa [LocalSocket.toEnd, hpkts] using this
  refine ⟨⟨by simp [hfreed], hok.quiet (by simp [hfreed]), hq, ?_, ?_⟩, hfreed,
    congrArg End.ownClose hend, by rw [hout, hp]; rfl, hsame, hok⟩
  · exact (congrArg End.read hend).trans hr
  · exact (congrArg End.written hend).trans hw

omit hp in
theorem Wiring.peer_none (hk : k < d.near.count) (hno : ∀ z, ¬Ends d k z) :
    (d.near.sockets k).peer = none := by
  cases hpe : (d.near.sockets k).peer with
  | none => rfl
  | some r => exact absurd (h.near.peers k hk r hpe).choose_spec.1 (hno _)

omit hp in
theorem Wiring.close_alone (hk : k < d.near.count) (hno : ∀ z, ¬Ends d k z)
    (ha : (d.near.sockets k).status = .active) (own : Option OwnClose)
    (hopen : own.isSome = true ∨ ∀ p ∈ d.toFar, p.command = .open_ → p.arg0 ≠ (d.near.sockets k).id) :
    Move d (d.effect k (localSocketClose { d.near.sockets k with ownClose := own })) := by
  obtain ⟨h1, h2, h3, h4, h5⟩ := h.near.idle k hk hno
  obtain ⟨hidle, hfreed, hown, hout, hsame, hok⟩ := localSocketClose_idle
    (s := { d.near.sockets k with ownClose := own }) ⟨h1, h2, h3, h4, h5⟩ ha (h.peer_none hk hno)
  have hgone := hok.gone (by simp [hfreed])
  refine .alone hk hno ⟨hsame.id, hsame.transport, fun _ => hsame.partner, hok,
    fun r hr => absurd (hgone.symm.trans hr) (by simp), by simp [hout], fun _ => hidle,
    fun ⟨p, hp, ho, h0⟩ => .inr ⟨by simp [hfreed], hown.trans ?_⟩⟩
  exact hopen.resolve_right fun hn => hn p hp ho h0

theorem Wiring.refusal (hc : p.command = .clse) (h0 : p.arg0 = 0) :
    ReflTransGen Move d ((d.take p).absorb (handleClose 0 p d.near)) := by
  obtain ⟨x, hx, h1, hno, hopen⟩ := h.far.refused p (by simp [Duplex.swap, hp]) hc h0
  have hx' : x < d.near.count := hx
  have h1' : p.arg1 = (d.near.sockets x).id := h1
  have hno' : ∀ z, ¬Ends d x z := fun z hz => hno z (ends_swap.2 hz)
  have hdrop : Move d (d.take p) := .drop hp fun x z m hend hmsg =>
    absurd ((streamed_of_message hmsg (h.far.id_ne_zero hend.2.1)).2.1.symm.trans h0)
      (h.far.id_ne_zero hend.2.1)
  unfold handleClose
  rw [if_pos ⟨h.near.online, by rw [h1']; exact h.near.id_ne_zero hx'⟩, h1', h0, h.near.find hx']
  by_cases ha : (d.near.sockets x).status = .active
  · rw [if_pos ⟨ha, .inl rfl⟩, elim_some, if_neg (by simp [h.peer_none hx' hno'])]
    refine (ReflTransGen.single hdrop).tail ?_
    exact (h.take hp).close_alone hx' hno' ha (d.near.sockets x).ownClose (.inr hopen)
  · rw [if_neg fun hh => ha hh.1]
    simpa [absorb, Duplex.take] using ReflTransGen.single hdrop

theorem Wiring.open_ (hc : p.command = .open_) (hcount : d.near.count + 1 < 2 ^ 32) (env : Env) :
    Move d ((d.take p).absorb (handleOpen env 0 p d.near)) := by
  have hmem : p ∈ d.toNear := by simp [hp]
  obtain ⟨h1, z, hz, h0, ht, hno, hst⟩ := h.far.opens p hmem hc
  have hz' : z < d.far.count := hz
  have h0' : p.arg0 = (d.far.sockets z).id := h0
  have hask : Asking (d.take p) z := by
    refine ⟨hz, ht, fun x hx => hno x (ends_swap.2 hx), fun q hq ho => ?_⟩
    have honce := h.far.once
    rw [show d.swap.toFar = p :: rest from hp, pairwise_cons] at honce
    have hq' : q ∈ rest := by simpa [Duplex.take, hp] using hq
    exact fun hq0 => honce.1 q hq' hc ho (h0.trans hq0.symm)
  unfold handleOpen
  rw [if_pos ⟨h.near.online, by rw [h0']; exact h.far.id_ne_zero hz', h1⟩, h0']
  cases env.service (serviceName p.data) with
  | none => exact .refuse hp hc hask
  | some exitOnClose =>
    refine .accept exitOnClose hp hc hcount hask hst fun q hq hcl hq0 hq1 => ?_
    -- a refusal on its way means that the stream is not asked for any more
    obtain ⟨z', hz'', hq1', -, hopen⟩ := h.near.refused q hq hcl hq0
    obtain rfl := h.far.id_inj hz' hz'' (hq1.symm.trans hq1')
    exact hopen p hmem hc h0'

end

theorem Wiring.hangup (hc : d.near.count + 1 < 2 ^ 32) (notify : Bool) (destination : List UInt8)
    (d' : Duplex) (hd' : d' = d.absorb (connectToRemote d.near 0 notify destination)) :
    Move d' (d'.effect d.near.count
      (localSocketClose
        { d'.near.sockets d.near.count with ownClose := some .endOfFile })) := by
  subst hd'
  set s : LocalSocket := { transport := some 0, notify := notify } with hs
  set p : Packet := { command := .open_, arg0 := d.near.nextId, data := destination ++ [0] } with hp
  have hends : ∀ {x z : Nat}, Ends (d.create s [(0, p)]) x z ↔ Ends d x z :=
    ends_connect h hc (by simp [hs])
  refine (h.connect hc notify destination).close_alone (Nat.lt_succ_self _) (fun z hz => ?_) ?_
    (some .endOfFile) (.inl rfl)
  · exact absurd (hends.1 hz).1 (lt_irrefl _)
  · show ((d.create s [(0, p)]).near.sockets d.near.count).status = .active
    rw [create_new]

/-- **Every careful action consists of moves.** -/
theorem Wiring.act_moves {a : Act} (ha : d.act a = some d') (hcare : d.Careful a) :
    ReflTransGen Move d d' := by
  unfold act at ha
  split_ifs at ha with hhalt
  cases a with
  | deliver env =>
    obtain ⟨p, hhead, rfl⟩ := map_eq_some_iff.1 ha
    obtain ⟨rest, hp⟩ : ∃ rest, d.toNear = p :: rest := by
      cases hq : d.toNear with
      | nil => simp [hq] at hhead
      | cons q qs => simp_all
    have hmem : p ∈ d.swap.toFar := by simp [Duplex.swap, hp]
    unfold handlePacket
    rcases h.far.kinds p hmem with hc | hc | hc | hc
    · simp only [hc]
      exact .single (h.open_ hp hc (hcare (by simp [hp, hc])) env)
    · simp only [hc]
      exact .single (h.okay hp hc)
    · simp only [hc]
      by_cases h0 : p.arg0 = 0
      · exact h.refusal hp hc h0
      · exact .single (h.close hp hc h0)
    · simp only [hc]
      exact .single (h.write hp hc env)
  | poll k ready =>
    simp only at ha
    split_ifs at ha with hk
    obtain rfl := some.inj ha
    refine .single (h.touch hk.1 _ fun hact hw => ?_)
    rcases Bool.or_eq_true_iff.1 hw with hw | hw
    · exact (h.near.ok k hk.1).pending_write hact hw
    · exact (Bool.and_eq_true_iff.1 hw).1
  | subproc k =>
    simp only at ha
    split_ifs at ha with hk
    obtain rfl := some.inj ha
    exact .single (h.touch hk.1 _ (h.near.ok k hk.1).pending_write)
  | call k ws rs =>
    simp only at ha
    split_ifs at ha with hk
    obtain rfl := some.inj ha
    obtain ⟨y, hend⟩ : ∃ y, Ends d k y := by
      by_contra hno
      exact hk.2 (h.pending_idle hk.1 hcare (not_exists.1 hno))
    obtain ⟨ms, hms⟩ := localSocketEventFunc_refines (h.near.ok k hk.1.1) ws rs hk.1.2 hcare
    exact .single (h.run hend hms)
  | connect notify hangup destination =>
    simp only at ha
    have hfirst : Move d _ := .connect notify destination hcare
    split_ifs at ha with hlen hh
    · obtain rfl := some.inj ha
      exact (ReflTransGen.single hfirst).tail (h.hangup hcare notify destination _ rfl)
    · obtain rfl := some.inj ha
      exact .single hfirst

end

end Actions

end AndroidSystem.Adb
