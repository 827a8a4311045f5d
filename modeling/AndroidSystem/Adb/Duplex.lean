import AndroidSystem.Adb.Stream

/-!
# Two adb endpoints and their wiring

Two processes joined by a FIFO channel in each direction. One of them, the *near* one, acts: it
handles the next packet, polls a descriptor, runs the event function of a socket or opens a stream.
The far one acts in the mirror image `Duplex.swap`.

**Ends.** Each stream has an end on either side: one socket opened it, the other was created for its
`A_OPEN` and names the first as its partner (`Ends`).

**Wiring.** `Wired` is what makes a packet find the right socket. As long as ids have not wrapped
around, a socket's id is its place in the table, a socket with a peer has its stream's other end as
that peer, a socket has one other end, and every stream packet belongs to a stream.
-/

namespace AndroidSystem.Adb

open List StopAndWait

variable {x y : Nat} {p : Packet}

/-! ## The system -/

/-- Two endpoints, the packets delivered to each so far, and those on their way. -/
structure Duplex where
  near : Endpoint
  far : Endpoint
  gotNear : List Packet := []
  toNear : List Packet := []
  gotFar : List Packet := []
  toFar : List Packet := []

variable {d : Duplex} {rest : List Packet}

/-- What the near endpoint can do. The results of system calls are part of the action. -/
inductive Act where
  /-- `handle_packet` on the next packet. -/
  | deliver (env : Env)
  /-- `fdevent_process` finds the descriptor of a socket ready. -/
  | poll (k : Nat) (ready : Events)
  /-- The service process behind a socket has exited. -/
  | subproc (k : Nat)
  /-- `fdevent_call_fdfunc` on a socket with pending events. -/
  | call (k : Nat) (ws : List WriteResult) (rs : List ReadResult)
  /-- A local client opens a stream. With `hangup`, end of file follows its request at once. -/
  | connect (notify hangup : Bool) (destination : List UInt8)

namespace Duplex

section

variable (d : Duplex)

/-- The same system seen from the far side. -/
def swap : Duplex :=
  { near := d.far, far := d.near, gotNear := d.gotFar, toNear := d.toFar,
    gotFar := d.gotNear, toFar := d.toNear }

/-- The near endpoint becomes `r.1` and sends `r.2`. -/
def absorb (r : Endpoint × Output) : Duplex :=
  { d with near := r.1, toFar := d.toFar ++ r.2.map Prod.snd }

/-- The first packet on its way to the near endpoint is delivered. -/
def take (p : Packet) : Duplex :=
  { d with toNear := d.toNear.tail, gotNear := d.gotNear ++ [p] }

/-- Takes over what a function did to local socket `k` of the near endpoint. -/
def effect (k : Nat) (x : Effect) : Duplex := d.absorb (d.near.apply k x, x.out)

/-- Is `k` a socket of the near endpoint that was not freed? -/
def Live (k : Nat) : Prop := k < d.near.count ∧ (d.near.sockets k).status ≠ .freed

instance (k : Nat) : Decidable (d.Live k) := by unfold Live; infer_instance

/-- One action of the near endpoint, if it can take place. -/
def act (a : Act) : Option Duplex :=
  if d.near.halted ≠ none then none
  else match a with
    | .deliver env =>
      d.toNear.head?.map fun p => (d.take p).absorb (handlePacket env 0 p d.near)
    | .poll k ready =>
      if d.Live k then
        some (d.effect k { socket :=
          { d.near.sockets k with fde := (d.near.sockets k).fde.poll ready } })
      else none
    | .subproc k =>
      if d.Live k then
        some (d.effect k { socket :=
          { d.near.sockets k with fde := (d.near.sockets k).fde.subproc } })
      else none
    | .call k ws rs =>
      if d.Live k ∧ (d.near.sockets k).fde.pending ≠ {} then
        some (d.effect k (localSocketEventFunc ws rs (d.near.sockets k)))
      else none
    | .connect notify hangup destination =>
      if destination.length + 1 < maxPayload then
        let d' := d.absorb (connectToRemote d.near 0 notify destination)
        some (if hangup then
            d'.effect d.near.count
              (localSocketClose
                { d'.near.sockets d.near.count with ownClose := some .endOfFile })
          else d')
      else none

/-- What keeps the streams apart and in step: a local socket gets `FDE_READ` only if it has asked for
it, and the counter of socket ids does not wrap around. -/
def Careful : Act → Prop
  | .call k _ _ =>
    (d.near.sockets k).fde.pending.read = true → (d.near.sockets k).fde.want.read = true
  | .deliver _ => d.toNear.head?.any (·.command = .open_) = true → d.near.count + 1 < 2 ^ 32
  | .connect _ _ _ => d.near.count + 1 < 2 ^ 32
  | _ => True

instance (a : Act) : Decidable (d.Careful a) := by
  cases a <;> unfold Careful <;> infer_instance

end

/-- A step of either endpoint. -/
inductive Step (ok : Duplex → Act → Prop) : Duplex → Duplex → Prop
  | near {d d' : Duplex} (a : Act) (h : d.act a = some d') (ho : ok d a) : Step ok d d'
  | far {d d' : Duplex} (a : Act) (h : d.swap.act a = some d'.swap) (ho : ok d.swap a) : Step ok d d'

/-- Two endpoints that have just connected. -/
structure Start (d : Duplex) : Prop where
  near_count : d.near.count = 0
  far_count : d.far.count = 0
  near_next : d.near.nextId = 1
  far_next : d.far.nextId = 1
  near_online : (d.near.transports 0).online = true
  far_online : (d.far.transports 0).online = true
  empty : d.gotNear = [] ∧ d.toNear = [] ∧ d.gotFar = [] ∧ d.toFar = []

end Duplex

/-! ## The two ends of a stream -/

/-- Socket `x` of the near endpoint and socket `y` of the far one are the ends of one stream: one
opened it, the other was created for it. -/
def Ends (d : Duplex) (x y : Nat) : Prop :=
  x < d.near.count ∧ y < d.far.count ∧
    ((d.near.sockets x).transport ≠ none ∧ (d.far.sockets y).transport = none
        ∧ (d.far.sockets y).partner = some (d.near.sockets x).id
      ∨ (d.far.sockets y).transport ≠ none ∧ (d.near.sockets x).transport = none
        ∧ (d.near.sockets x).partner = some (d.far.sockets y).id)

theorem ends_swap : Ends d.swap y x ↔ Ends d x y := by
  constructor
  · rintro ⟨hy, hx, h | h⟩
    · exact ⟨hx, hy, .inr h⟩
    · exact ⟨hx, hy, .inl h⟩
  · rintro ⟨hx, hy, h | h⟩
    · exact ⟨hy, hx, .inr h⟩
    · exact ⟨hy, hx, .inl h⟩

/-- A socket whose stream is not up has done nothing. -/
structure Idle (s : LocalSocket) : Prop where
  status : s.status ≠ .closing
  read_off : s.fde.want.read = false
  pkts : s.pkts = []
  read : s.read = []
  written : s.written = []

/-- The socket is active, or it was closed from its own side. -/
def LocalSocket.Undisturbed (s : LocalSocket) : Prop :=
  s.status = .active ∧ s.ownClose.isSome = false ∨ s.status ≠ .active ∧ s.ownClose.isSome = true

/-- Is this a packet of a stream that is up? -/
def Packet.Streamed (p : Packet) : Prop :=
  p.command = .okay ∨ p.command = .wrte ∨ p.command = .clse ∧ p.arg0 ≠ 0

/-- The near endpoint is wired up with the far one. -/
structure Wired (d : Duplex) : Prop where
  count_lt : d.near.count < 2 ^ 32
  next : d.near.count + 1 < 2 ^ 32 → d.near.nextId = d.near.count + 1
  ids : ∀ x < d.near.count, (d.near.sockets x).id = x + 1
  online : (d.near.transports 0).online = true
  ok : ∀ x < d.near.count, SocketOk (d.near.sockets x)
  /-- A peer is the other end of the stream. -/
  peers : ∀ x < d.near.count, ∀ r, (d.near.sockets x).peer = some r →
    ∃ y, Ends d x y ∧ r = ⟨(d.far.sockets y).id, 0⟩
  /-- A socket created for an `A_OPEN` has an other end. -/
  accepted : ∀ x < d.near.count, (d.near.sockets x).transport = none → ∃ y, Ends d x y
  unique : ∀ x y y', Ends d x y → Ends d x y' → y = y'
  /-- Every stream packet ever sent belongs to a stream. -/
  sent : ∀ p ∈ d.gotFar ++ d.toFar, p.Streamed →
    ∃ x y, Ends d x y ∧ p.arg0 = (d.near.sockets x).id ∧ p.arg1 = (d.far.sockets y).id
  /-- An `A_OPEN` on its way is for a stream that is not up. -/
  opens : ∀ p ∈ d.toFar, p.command = .open_ → p.arg1 = 0 ∧ ∃ x < d.near.count,
    p.arg0 = (d.near.sockets x).id ∧ (d.near.sockets x).transport ≠ none ∧ (∀ y, ¬Ends d x y)
      ∧ (d.near.sockets x).Undisturbed
  once : d.toFar.Pairwise fun p q => p.command = .open_ → q.command = .open_ → p.arg0 ≠ q.arg0
  /-- A refusal on its way is for a stream that will not come up. -/
  refused : ∀ p ∈ d.toFar, p.command = .clse → p.arg0 = 0 → ∃ y < d.far.count,
    p.arg1 = (d.far.sockets y).id ∧ (∀ x, ¬Ends d x y)
      ∧ ∀ q ∈ d.toNear, q.command = .open_ → q.arg0 ≠ (d.far.sockets y).id
  kinds : ∀ p ∈ d.toFar, p.command = .open_ ∨ p.command = .okay ∨ p.command = .clse
    ∨ p.command = .wrte
  idle : ∀ x < d.near.count, (∀ y, ¬Ends d x y) → Idle (d.near.sockets x)

/-- Both endpoints are wired up. -/
structure Wiring (d : Duplex) : Prop where
  near : Wired d
  far : Wired d.swap

theorem Wiring.swap (h : Wiring d) : Wiring d.swap := ⟨h.far, h.near⟩

theorem Wired.id_inj (h : Wired d) {x' : Nat} (hx : x < d.near.count) (hx' : x' < d.near.count)
    (he : (d.near.sockets x).id = (d.near.sockets x').id) : x = x' := by
  rw [h.ids x hx, h.ids x' hx'] at he
  omega

/-- **Two endpoints start out wired up.** -/
theorem wiring_start (h : d.Start) : Wiring d := by
  obtain ⟨hn, hf, hnn, hfn, hno, hfo, h1, h2, h3, h4⟩ := h
  constructor
  · refine ⟨?_, ?_, ?_, hno, ?_, ?_, ?_, ?_, ?_, ?_, ?_, ?_, ?_, ?_⟩ <;>
      simp [hn, hnn, h3, h4, Ends]
  · refine ⟨?_, ?_, ?_, hfo, ?_, ?_, ?_, ?_, ?_, ?_, ?_, ?_, ?_, ?_⟩ <;>
      simp [Duplex.swap, hf, hfn, h1, h2, Ends]

/-! ## Looking up a socket -/

theorem find?_range_unique {n : Nat} {p : Nat → Bool} (hx : x < n)
    (hp : ∀ z < n, p z = true → z = x) : (range n).find? p = if p x then some x else none := by
  split_ifs with h
  · refine find?_range_eq_some.2 ⟨h, mem_range.2 hx, fun j hj => ?_⟩
    by_contra hpj
    have := hp j (by omega) (by simpa using hpj)
    omega
  · refine find?_eq_none.2 fun z hz hpz => ?_
    have := hp z (mem_range.1 hz) hpz
    exact h (this ▸ hpz)

/-- **An id names one socket**, which is found while it is active. -/
theorem Wired.find (h : Wired d) (hx : x < d.near.count) (peerId : Nat) :
    findLocalSocket d.near (d.near.sockets x).id peerId =
      if (d.near.sockets x).status = .active
        ∧ (peerId = 0 ∨ (d.near.sockets x).peer.any (·.id = peerId)) then some x else none := by
  unfold findLocalSocket
  rw [find?_range_unique hx]
  · by_cases ha : (d.near.sockets x).status = .active
    · simp [ha, Option.filter]
    · simp [ha]
  · intro z hz hpz
    simp only [decide_eq_true_eq] at hpz
    exact h.id_inj hz hx hpz.2

/-- The wiring of the near endpoint depends on the far one only through the names of its sockets, the
streams, and the streams it asks for. A new far socket may be the other end of a socket that has none
and asks for none. -/
theorem Wired.congr_far {d' : Duplex} (h : Wired d) (hnear : d'.near = d.near)
    (hgot : d'.gotFar = d.gotFar) (hto : d'.toFar = d.toFar) (hcount : d.far.count ≤ d'.far.count)
    (hid : ∀ y < d.far.count, (d'.far.sockets y).id = (d.far.sockets y).id)
    (hold : ∀ x y, Ends d x y → Ends d' x y) (hnew : ∀ x y, Ends d' x y → Ends d x y ∨
      y = d.far.count ∧ (∀ z, ¬Ends d x z) ∧
        ∀ q ∈ d.toFar, q.command = .open_ → q.arg0 ≠ (d.near.sockets x).id)
    (hopen : ∀ q ∈ d'.toNear, q.command = .open_ →
      q ∈ d.toNear ∨ ∀ y < d.far.count, q.arg0 ≠ (d.far.sockets y).id) : Wired d' := by
  obtain ⟨near, far, gotNear, toNear, gotFar, toFar⟩ := d'
  cases hnear
  cases hgot
  cases hto
  refine ⟨h.count_lt, h.next, h.ids, h.online, h.ok, ?_, ?_, ?_, ?_, ?_, h.once, ?_, h.kinds, ?_⟩
  · intro x hx r hr
    obtain ⟨y, hy, hry⟩ := h.peers x hx r hr
    exact ⟨y, hold x y hy, by rw [hid y hy.2.1]; exact hry⟩
  · intro x hx ht
    obtain ⟨y, hy⟩ := h.accepted x hx ht
    exact ⟨y, hold x y hy⟩
  · intro x y y' hy hy'
    rcases hnew x y hy with hy | ⟨hy, hnone, -⟩ <;> rcases hnew x y' hy' with hy' | ⟨hy', hnone', -⟩
    · exact h.unique x y y' hy hy'
    · exact absurd hy (hnone' y)
    · exact absurd hy' (hnone y')
    · exact hy.trans hy'.symm
  · intro p hp hst
    obtain ⟨x, y, hy, h0, h1⟩ := h.sent p hp hst
    exact ⟨x, y, hold x y hy, h0, by rw [hid y hy.2.1]; exact h1⟩
  · intro p hp ho
    obtain ⟨h1, x, hx, h0, ht, hno, hst⟩ := h.opens p hp ho
    refine ⟨h1, x, hx, h0, ht, fun y hy => ?_, hst⟩
    rcases hnew x y hy with hy | ⟨-, -, hlast⟩
    · exact hno y hy
    · exact hlast p hp ho h0
  · intro p hp hc h0
    obtain ⟨y, hy, h1, hno, hq⟩ := h.refused p hp hc h0
    rw [← hid y hy] at h1
    refine ⟨y, hy.trans_le hcount, h1, fun x hx => ?_, fun q hqm ho => ?_⟩
    · exact hno x ((hnew x y hx).resolve_right fun hx => hy.ne hx.1)
    rw [hid y hy]
    rcases hopen q hqm ho with hold | hnew
    · exact hq q hold ho
    · exact hnew y hy
  · exact fun x hx hno => h.idle x hx fun y hy => hno y (hold x y hy)

/-! ## Delivering a packet -/

theorem take_sent (hp : d.toNear = p :: rest) :
    (d.take p).gotNear ++ (d.take p).toNear = d.gotNear ++ d.toNear := by
  simp [Duplex.take, hp]

theorem Wiring.take (h : Wiring d) (hp : d.toNear = p :: rest) : Wiring (d.take p) := by
  have htail : ∀ q ∈ d.toNear.tail, q ∈ d.toNear := fun q hq => mem_of_mem_tail hq
  constructor
  · refine { h.near with refused := ?_ }
    intro q hq hc h0
    obtain ⟨y, hy, ha, hno, hopen⟩ := h.near.refused q hq hc h0
    exact ⟨y, hy, ha, hno, fun o ho => hopen o (htail o ho)⟩
  · have hsent : ∀ q ∈ (d.take p).gotNear ++ (d.take p).toNear, q ∈ d.gotNear ++ d.toNear := by
      rw [take_sent hp]
      exact fun q hq => hq
    exact { h.far with
      sent := fun q hq => h.far.sent q (hsent q hq)
      opens := fun q hq => h.far.opens q (htail q hq)
      once := h.far.once.sublist (tail_sublist _)
      refused := fun q hq => h.far.refused q (htail q hq)
      kinds := fun q hq => h.far.kinds q (htail q hq) }

/-! ## Changing a socket -/

/-- What may be done to socket `k` of the near endpoint. -/
structure Allowed (d : Duplex) (k : Nat) (s : LocalSocket) (out : Output) : Prop where
  id : s.id = (d.near.sockets k).id
  transport : s.transport = (d.near.sockets k).transport
  partner : (d.near.sockets k).transport = none → s.partner = (d.near.sockets k).partner
  ok : SocketOk s
  peer : ∀ r, s.peer = some r → ∃ y, Ends d k y ∧ r = ⟨(d.far.sockets y).id, 0⟩
  out : ∀ q ∈ out, q.2.Streamed ∧ ∃ y, Ends d k y
    ∧ q.2.arg0 = (d.near.sockets k).id ∧ q.2.arg1 = (d.far.sockets y).id
  idle : (∀ y, ¬Ends d k y) → Idle s
  opening : (∃ p ∈ d.toFar, p.command = .open_ ∧ p.arg0 = (d.near.sockets k).id) → s.Undisturbed

section Effect

variable {d : Duplex} {k : Nat} {e : Effect}

@[simp] theorem effect_far : (d.effect k e).far = d.far := rfl

@[simp] theorem effect_self : (d.effect k e).near.sockets k = e.socket := by
  simp [Duplex.effect, Duplex.absorb, Endpoint.apply, Endpoint.setSocket]

theorem effect_other (hx : x ≠ k) : (d.effect k e).near.sockets x = d.near.sockets x := by
  simp [Duplex.effect, Duplex.absorb, Endpoint.apply, Endpoint.setSocket, hx]

@[simp] theorem effect_toFar : (d.effect k e).toFar = d.toFar ++ e.out.map Prod.snd := rfl

section

variable (ha : Allowed d k e.socket e.out)
include ha

theorem effect_id (x : Nat) : ((d.effect k e).near.sockets x).id = (d.near.sockets x).id := by
  by_cases hx : x = k
  · subst hx; rw [effect_self, ha.id]
  · rw [effect_other hx]

theorem effect_transport (x : Nat) :
    ((d.effect k e).near.sockets x).transport = (d.near.sockets x).transport := by
  by_cases hx : x = k
  · subst hx; rw [effect_self, ha.transport]
  · rw [effect_other hx]

theorem ends_effect : Ends (d.effect k e) x y ↔ Ends d x y := by
  unfold Ends
  rw [effect_id ha, effect_transport ha, effect_far]
  -- the partner matters only for a socket that was created for its stream
  have hpartner : (d.near.sockets x).transport = none →
      ((d.effect k e).near.sockets x).partner = (d.near.sockets x).partner := by
    intro ht
    by_cases hx : x = k
    · subst hx; rw [effect_self, ha.partner ht]
    · rw [effect_other hx]
  refine and_congr_right fun _ => and_congr_right fun _ => or_congr_right
    (and_congr_right fun _ => and_congr_right fun ht => ?_)
  rw [hpartner ht]

end

theorem streamed_kind (h : p.Streamed) :
    p.command ≠ .open_ ∧ ¬(p.command = .clse ∧ p.arg0 = 0)
      ∧ (p.command = .okay ∨ p.command = .clse ∨ p.command = .wrte) := by
  rcases h with h | h | ⟨h, h0⟩
  · simp [h]
  · simp [h]
  · simp [h, h0]

/-- **Changing a socket in an allowed way keeps the wiring.** -/
theorem Wiring.effect (h : Wiring d) (ha : Allowed d k e.socket e.out) : Wiring (d.effect k e) := by
  have hends : ∀ {x y : Nat}, Ends (d.effect k e) x y ↔ Ends d x y := ends_effect ha
  have hout : ∀ p ∈ e.out.map Prod.snd, p.Streamed ∧ ∃ y, Ends d k y
      ∧ p.arg0 = (d.near.sockets k).id ∧ p.arg1 = (d.far.sockets y).id := by
    intro p hp
    obtain ⟨q, hq, rfl⟩ := mem_map.1 hp
    exact ha.out q hq
  constructor
  · refine ⟨h.near.count_lt, h.near.next, ?_, h.near.online, ?_, ?_, ?_, ?_, ?_, ?_, ?_, ?_, ?_, ?_⟩
    · intro x hx
      rw [effect_id ha]
      exact h.near.ids x hx
    · intro x hx
      by_cases hxk : x = k
      · subst hxk; rw [effect_self]; exact ha.ok
      · rw [effect_other hxk]; exact h.near.ok x hx
    · intro x hx r hr
      have : ∃ y, Ends d x y ∧ r = ⟨(d.far.sockets y).id, 0⟩ := by
        by_cases hxk : x = k
        · subst hxk; rw [effect_self] at hr; exact ha.peer r hr
        · rw [effect_other hxk] at hr; exact h.near.peers x hx r hr
      obtain ⟨y, hy, hry⟩ := this
      exact ⟨y, hends.2 hy, hry⟩
    · intro x hx ht
      rw [effect_transport ha] at ht
      obtain ⟨y, hy⟩ := h.near.accepted x hx ht
      exact ⟨y, hends.2 hy⟩
    · exact fun x y y' hy hy' => h.near.unique x y y' (hends.1 hy) (hends.1 hy')
    · intro p hp hst
      have : ∃ x y, Ends d x y ∧ p.arg0 = (d.near.sockets x).id ∧ p.arg1 = (d.far.sockets y).id := by
        rw [effect_toFar, ← append_assoc] at hp
        rcases mem_append.1 hp with hp | hp
        · exact h.near.sent p hp hst
        · exact ⟨k, (hout p hp).2⟩
      obtain ⟨x, y, hy, h0, h1⟩ := this
      exact ⟨x, y, hends.2 hy, by rw [effect_id ha]; exact h0, h1⟩
    · intro p hp ho
      rw [effect_toFar] at hp
      rcases mem_append.1 hp with hp | hp
      · obtain ⟨h1, x, hx, h0, ht, hno, hst⟩ := h.near.opens p hp ho
        refine ⟨h1, x, hx, by rw [effect_id ha]; exact h0, by rw [effect_transport ha]; exact ht,
          fun y hy => hno y (hends.1 hy), ?_⟩
        by_cases hxk : x = k
        · subst hxk
          rw [effect_self]
          exact ha.opening ⟨p, hp, ho, h0⟩
        · rw [effect_other hxk]
          exact hst
      · exact absurd ho (streamed_kind (hout p hp).1).1
    · refine pairwise_append.2 ⟨h.near.once, pairwise_of_forall_mem_list ?_, ?_⟩
      · intro p hp q _ ho
        exact absurd ho (streamed_kind (hout p hp).1).1
      · intro p _ q hq _ ho
        exact absurd ho (streamed_kind (hout q hq).1).1
    · intro p hp hc h0
      rcases mem_append.1 hp with hp | hp
      · obtain ⟨y, hy, h1, hno, hopen⟩ := h.near.refused p hp hc h0
        exact ⟨y, hy, h1, fun x hx => hno x (hends.1 hx), hopen⟩
      · exact absurd ⟨hc, h0⟩ (streamed_kind (hout p hp).1).2.1
    · intro p hp
      rcases mem_append.1 hp with hp | hp
      · exact h.near.kinds p hp
      · exact .inr (streamed_kind (hout p hp).1).2.2
    · intro x hx hno
      have hno' : ∀ y, ¬Ends d x y := fun y hy => hno y (hends.2 hy)
      by_cases hxk : x = k
      · subst hxk; rw [effect_self]; exact ha.idle hno'
      · rw [effect_other hxk]; exact h.near.idle x hx hno'
  · exact h.far.congr_far rfl rfl rfl le_rfl (fun y _ => effect_id ha y)
      (fun x y => by rw [ends_swap, ends_swap, hends]; exact id)
      (fun x y => by rw [ends_swap, ends_swap, hends]; exact .inl)
      (fun q hq ho => .inl (by
        rcases mem_append.1 hq with hq | hq
        · exact hq
        · exact absurd ho (streamed_kind (hout q hq).1).1))

end Effect

/-! ## Creating a socket -/

/-- The near endpoint gets a new local socket and sends `out`. -/
def Duplex.create (d : Duplex) (s : LocalSocket) (out : Output) : Duplex :=
  d.absorb (createLocalSocket d.near s, out)

section Create

variable {d : Duplex} {s : LocalSocket} {out : Output}

@[simp] theorem create_far : (d.create s out).far = d.far := rfl

@[simp] theorem create_count : (d.create s out).near.count = d.near.count + 1 := rfl

@[simp] theorem create_toFar : (d.create s out).toFar = d.toFar ++ out.map Prod.snd := rfl

@[simp] theorem create_gotFar : (d.create s out).gotFar = d.gotFar := rfl

@[simp] theorem create_gotNear : (d.create s out).gotNear = d.gotNear := rfl

@[simp] theorem create_toNear : (d.create s out).toNear = d.toNear := rfl

theorem create_new :
    (d.create s out).near.sockets d.near.count = { s with id := d.near.nextId } := by
  simp [Duplex.create, Duplex.absorb, createLocalSocket, Endpoint.setSocket]

theorem create_old (hx : x < d.near.count) :
    (d.create s out).near.sockets x = d.near.sockets x := by
  simp [Duplex.create, Duplex.absorb, createLocalSocket, Endpoint.setSocket,
    Function.update_of_ne hx.ne]

theorem create_ids (h : Wired d) (hc : d.near.count + 1 < 2 ^ 32) :
    ∀ x < d.near.count + 1, ((d.create s out).near.sockets x).id = x + 1 := by
  intro x hx
  rcases Nat.lt_succ_iff_lt_or_eq.1 hx with hx | rfl
  · rw [create_old hx]; exact h.ids x hx
  · rw [create_new]; exact h.next hc

theorem create_next (h : Wired d) (hc : d.near.count + 1 < 2 ^ 32)
    (hc' : d.near.count + 1 + 1 < 2 ^ 32) :
    (d.create s out).near.nextId = d.near.count + 1 + 1 := by
  have hn := h.next hc
  simp only [Duplex.create, Duplex.absorb, createLocalSocket, hn]
  rw [Nat.mod_eq_of_lt hc', if_neg (by omega)]

theorem ends_create_old (hx : x < d.near.count) : Ends (d.create s out) x y ↔ Ends d x y := by
  unfold Ends
  rw [create_old hx, create_count]
  exact and_congr_left fun _ => ⟨fun _ => hx, fun _ => by omega⟩

theorem Wiring.partner_new (h : Wiring d) (hc : d.near.count + 1 < 2 ^ 32) (hy : y < d.far.count)
    (ht : (d.far.sockets y).transport = none) : (d.far.sockets y).partner ≠ some d.near.nextId := by
  obtain ⟨x, hx⟩ := h.far.accepted y hy ht
  have hend := ends_swap.1 hx
  rcases hend.2.2 with ⟨-, -, hp⟩ | ⟨hto, -, -⟩
  · rw [hp, h.near.ids x hend.1, h.near.next hc]
    have := hend.1
    simp
    omega
  · exact absurd ht hto

/-- What a new socket and the packet announcing it have to satisfy. -/
structure Entering (d : Duplex) (s : LocalSocket) (p : Packet) : Prop where
  ok : SocketOk { s with id := d.near.nextId }
  peer : ∀ r, s.peer = some r →
    ∃ y, Ends (d.create s [(0, p)]) d.near.count y ∧ r = ⟨(d.far.sockets y).id, 0⟩
  accepted : s.transport = none → ∃ y, Ends (d.create s [(0, p)]) d.near.count y
  unique : ∀ y y', Ends (d.create s [(0, p)]) d.near.count y →
    Ends (d.create s [(0, p)]) d.near.count y' → y = y'
  kind : p.command = .open_ ∨ p.command = .okay
  arg0 : p.arg0 = d.near.nextId
  okay : p.command = .okay →
    ∃ y, Ends (d.create s [(0, p)]) d.near.count y ∧ p.arg1 = (d.far.sockets y).id
  opens : p.command = .open_ → p.arg1 = 0 ∧ s.transport ≠ none
    ∧ (∀ y, ¬Ends (d.create s [(0, p)]) d.near.count y) ∧ s.status = .active
    ∧ s.ownClose.isSome = false
  refused : ∀ q ∈ d.toFar, q.command = .clse → q.arg0 = 0 → ∀ y < d.far.count,
    q.arg1 = (d.far.sockets y).id → ¬Ends (d.create s [(0, p)]) d.near.count y
  idle : (∀ y, ¬Ends (d.create s [(0, p)]) d.near.count y) → Idle s

theorem Wired.create (h : Wired d) (hc : d.near.count + 1 < 2 ^ 32) (he : Entering d s p) :
    Wired (d.create s [(0, p)]) := by
  have hnew : (d.create s [(0, p)]).near.sockets d.near.count = { s with id := d.near.nextId } :=
    create_new
  have hcases : ∀ x < d.near.count + 1, x < d.near.count ∨ x = d.near.count := by omega
  have hold : ∀ {x y : Nat}, Ends d x y → Ends (d.create s [(0, p)]) x y := fun hy =>
    (ends_create_old hy.1).2 hy
  have hmem : ∀ q ∈ (d.create s [(0, p)]).toFar, q ∈ d.toFar ∨ q = p := by
    intro q hq
    simpa using hq
  refine ⟨hc, create_next h hc, create_ids h hc, h.online, ?_, ?_, ?_, ?_, ?_, ?_, ?_, ?_, ?_, ?_⟩
  · intro x hx
    rcases hcases x hx with hx | rfl
    · rw [create_old hx]; exact h.ok x hx
    · rw [hnew]; exact he.ok
  · intro x hx r hr
    rcases hcases x hx with hx | rfl
    · rw [create_old hx] at hr
      obtain ⟨y, hy, hry⟩ := h.peers x hx r hr
      exact ⟨y, hold hy, hry⟩
    · rw [hnew] at hr; exact he.peer r hr
  · intro x hx ht
    rcases hcases x hx with hx | rfl
    · rw [create_old hx] at ht
      obtain ⟨y, hy⟩ := h.accepted x hx ht
      exact ⟨y, hold hy⟩
    · rw [hnew] at ht; exact he.accepted ht
  · intro x y y' hy hy'
    rcases hcases x hy.1 with hx | rfl
    · exact h.unique x y y' ((ends_create_old hx).1 hy) ((ends_create_old hx).1 hy')
    · exact he.unique y y' hy hy'
  · intro q hq hst
    rw [create_toFar, ← append_assoc] at hq
    rcases mem_append.1 hq with hq | hq
    · obtain ⟨x, y, hy, h0, h1⟩ := h.sent q hq hst
      exact ⟨x, y, hold hy, by rw [create_old hy.1]; exact h0, h1⟩
    · obtain rfl : q = p := by simpa using hq
      obtain ⟨y, hy, h1⟩ := he.okay (he.kind.resolve_left (streamed_kind hst).1)
      exact ⟨d.near.count, y, hy, by rw [hnew]; exact he.arg0, h1⟩
  · intro q hq ho
    rcases hmem q hq with hq | rfl
    · obtain ⟨h1, x, hx, h0, ht, hno, hst⟩ := h.opens q hq ho
      refine ⟨h1, x, Nat.lt_succ_of_lt hx, ?_⟩
      rw [create_old hx]
      exact ⟨h0, ht, fun y hy => hno y ((ends_create_old hx).1 hy), hst⟩
    · obtain ⟨h1, ht, hno, hst, hown⟩ := he.opens ho
      refine ⟨h1, d.near.count, Nat.lt_succ_self _, ?_⟩
      rw [hnew]
      exact ⟨he.arg0, ht, hno, .inl ⟨hst, hown⟩⟩
  · refine pairwise_append.2 ⟨h.once, pairwise_singleton _ _, ?_⟩
    intro q hq q' hq' ho _
    obtain ⟨-, x, hx, h0, -⟩ := h.opens q hq ho
    obtain rfl : q' = p := by simpa using hq'
    rw [h0, he.arg0, h.ids x hx, h.next hc]
    omega
  · intro q hq hcl h0
    rcases hmem q hq with hq | rfl
    · obtain ⟨y, hy, h1, hno, hopen⟩ := h.refused q hq hcl h0
      refine ⟨y, hy, h1, fun x hx => ?_, hopen⟩
      rcases hcases x hx.1 with hxc | rfl
      · exact hno x ((ends_create_old hxc).1 hx)
      · exact he.refused q hq hcl h0 y hy h1 hx
    · rcases he.kind with hk | hk <;> simp [hk] at hcl
  · intro q hq
    rcases hmem q hq with hq | rfl
    · exact h.kinds q hq
    · rcases he.kind with hk | hk
      · exact .inl hk
      · exact .inr (.inl hk)
  · intro x hx hno
    rcases hcases x hx with hx | rfl
    · rw [create_old hx]; exact h.idle x hx fun y hy => hno y (hold hy)
    · rw [hnew]
      obtain ⟨h1, h2, h3, h4, h5⟩ := he.idle hno
      exact ⟨h1, h2, h3, h4, h5⟩

theorem ends_connect (h : Wiring d) (hc : d.near.count + 1 < 2 ^ 32) (ht : s.transport ≠ none) :
    Ends (d.create s out) x y ↔ Ends d x y := by
  by_cases hx : x < d.near.count
  · exact ends_create_old hx
  · refine iff_of_false (fun hend => ?_) fun hend => hx hend.1
    obtain rfl : x = d.near.count := by
      have : x < d.near.count + 1 := hend.1
      omega
    have hends := hend.2.2
    rw [create_new] at hends
    rcases hends with ⟨-, hty, hp⟩ | ⟨-, hts, -⟩
    · exact h.partner_new hc hend.2.1 hty hp
    · exact ht hts

theorem Wiring.connect (h : Wiring d) (hc : d.near.count + 1 < 2 ^ 32) (notify : Bool)
    (destination : List UInt8) :
    Wiring (d.absorb (connectToRemote d.near 0 notify destination)) := by
  set s : LocalSocket := { transport := some 0, notify := notify } with hs
  set p : Packet := { command := .open_, arg0 := d.near.nextId, data := destination ++ [0] } with hp
  show Wiring (d.create s [(0, p)])
  have hends : ∀ {x y : Nat}, Ends (d.create s [(0, p)]) x y ↔ Ends d x y :=
    ends_connect h hc (by simp [hs])
  have hno : ∀ y, ¬Ends (d.create s [(0, p)]) d.near.count y := fun y hy =>
    absurd (hends.1 hy).1 (lt_irrefl _)
  constructor
  · refine h.near.create hc ⟨by constructor <;> simp [hs], fun r hr => ?_, fun ht => ?_,
      fun y _ hy => absurd hy (hno y), .inl rfl, rfl, fun hk => ?_, fun _ => ⟨rfl, by simp [hs], hno,
      rfl, rfl⟩, fun _ _ _ _ y _ _ => hno y, fun _ => ⟨by simp [hs], rfl, rfl, rfl, rfl⟩⟩
    · simp [hs] at hr
    · simp [hs] at ht
    · simp [hp] at hk
  · refine h.far.congr_far rfl rfl rfl (Nat.le_succ _) (fun y hy => ?_)
      (fun x y => by rw [ends_swap, ends_swap, hends]; exact id)
      (fun x y => by rw [ends_swap, ends_swap, hends]; exact .inl) ?_
    · show ((d.create s [(0, p)]).near.sockets y).id = (d.near.sockets y).id
      rw [create_old hy]
    · intro q hq _
      rcases mem_append.1 hq with hq | hq
      · exact .inl hq
      · refine .inr fun y hy => ?_
        rw [mem_singleton.1 hq]
        show d.near.nextId ≠ (d.near.sockets y).id
        have hy' : y < d.near.count := hy
        rw [h.near.next hc, h.near.ids y hy']
        omega

/-- The far socket `y` has asked for a stream that is not up, and asks no more. -/
structure Asking (d : Duplex) (y : Nat) : Prop where
  lt : y < d.far.count
  opener : (d.far.sockets y).transport ≠ none
  alone : ∀ x, ¬Ends d x y
  last : ∀ q ∈ d.toNear, q.command = .open_ → q.arg0 ≠ (d.far.sockets y).id

/-- The socket created for the stream that `y` asks for is its other end, and nothing else changes. -/
theorem ends_accept (h : Wiring d) {y0 : Nat} (hy : Asking d y0) (ht : s.transport = none)
    (hp : s.partner = some (d.far.sockets y0).id) :
    Ends (d.create s out) x y ↔ Ends d x y ∨ x = d.near.count ∧ y = y0 := by
  by_cases hx : x < d.near.count
  · rw [ends_create_old hx]
    refine ⟨.inl, fun h => h.resolve_right fun hxy => ?_⟩
    omega
  · constructor
    · intro hend
      obtain rfl : x = d.near.count := by
        have : x < d.near.count + 1 := hend.1
        omega
      have hends := hend.2.2
      rw [create_new] at hends
      rcases hends with ⟨hts, -, -⟩ | ⟨-, -, hpy⟩
      · exact absurd ht hts
      · rw [hp, Option.some.injEq] at hpy
        exact .inr ⟨rfl, (h.far.id_inj hy.lt hend.2.1 hpy).symm⟩
    · rintro (hend | ⟨rfl, rfl⟩)
      · exact absurd hend.1 hx
      · refine ⟨Nat.lt_succ_self _, hy.lt, .inr ?_⟩
        rw [create_new]
        exact ⟨hy.opener, ht, hp⟩

/-- The socket that `A_OPEN` creates for the stream that `y` asks for. -/
def acceptedSocket (d : Duplex) (y : Nat) (exitOnClose : Bool) : LocalSocket :=
  localSocketReady { peer := some ⟨(d.far.sockets y).id, 0⟩, exitOnClose := exitOnClose,
                     partner := some (d.far.sockets y).id }

theorem Wiring.accept (h : Wiring d) (hc : d.near.count + 1 < 2 ^ 32) (hy : Asking d y)
    (hno : ∀ q ∈ d.toFar, q.command = .clse → q.arg0 = 0 → q.arg1 ≠ (d.far.sockets y).id)
    (exitOnClose : Bool) :
    Wiring (d.create (acceptedSocket d y exitOnClose)
      (sendReady d.near.nextId (d.far.sockets y).id 0)) := by
  set s := acceptedSocket d y exitOnClose with hs
  set p : Packet := { command := .okay, arg0 := d.near.nextId, arg1 := (d.far.sockets y).id } with hp
  show Wiring (d.create s [(0, p)])
  have hends : ∀ {x z : Nat},
      Ends (d.create s [(0, p)]) x z ↔ Ends d x z ∨ x = d.near.count ∧ z = y :=
    ends_accept h hy rfl rfl
  have hnew : Ends (d.create s [(0, p)]) d.near.count y := hends.2 (.inr ⟨rfl, rfl⟩)
  have honly : ∀ z, Ends (d.create s [(0, p)]) d.near.count z → z = y := by
    intro z hz
    rcases hends.1 hz with hz | hz
    · exact absurd hz.1 (lt_irrefl _)
    · exact hz.2
  constructor
  · refine h.near.create hc ⟨?_, fun r hr => ⟨y, hnew, ?_⟩, fun _ => ⟨y, hnew⟩,
      fun z z' hz hz' => (honly z hz).trans (honly z' hz').symm, .inr rfl, rfl,
      fun _ => ⟨y, hnew, rfl⟩, fun hk => ?_, fun q hq hcl h0 z _ h1 hz => ?_,
      fun hnone => absurd hnew (hnone y)⟩
    · constructor <;> simp [hs, acceptedSocket, localSocketReady, LocalSocket.settle, fdeventAdd,
        fdeventSet, fdeRead]
    · exact (Option.some.inj hr).symm
    · simp [hp] at hk
    · exact hno q hq hcl h0 (honly z hz ▸ h1)
  · refine h.far.congr_far rfl rfl rfl (Nat.le_succ _) (fun x hx => ?_) (fun z x hz => ?_)
      (fun z x hz => ?_) fun q hq ho => ?_
    · show ((d.create s [(0, p)]).near.sockets x).id = (d.near.sockets x).id
      rw [create_old hx]
    · exact ends_swap.2 (hends.2 (.inl (ends_swap.1 hz)))
    · rcases hends.1 (ends_swap.1 hz) with hz | ⟨rfl, rfl⟩
      · exact .inl (ends_swap.2 hz)
      · exact .inr ⟨rfl, fun x hx => hy.alone x (ends_swap.1 hx), hy.last⟩
    · rcases mem_append.1 hq with hq | hq
      · exact .inl hq
      · rw [mem_singleton.1 hq] at ho
        simp [hp] at ho

end Create

theorem Wiring.refuse (h : Wiring d) (hy : Asking d y) :
    Wiring (d.absorb (d.near, sendClose 0 (d.far.sockets y).id 0)) := by
  set p : Packet := { command := .clse, arg1 := (d.far.sockets y).id } with hp
  have hmem : ∀ q ∈ d.toFar ++ [p], q ∈ d.toFar ∨ q = p := by
    intro q hq
    simpa using hq
  constructor
  · refine { h.near with sent := ?_, opens := ?_, once := ?_, refused := ?_, kinds := ?_ }
    · intro q hq hst
      rw [show (d.absorb (d.near, sendClose 0 (d.far.sockets y).id 0)).toFar = d.toFar ++ [p]
        from rfl, ← append_assoc] at hq
      rcases mem_append.1 hq with hq | hq
      · exact h.near.sent q hq hst
      · rw [mem_singleton.1 hq] at hst
        exact absurd ⟨rfl, rfl⟩ (streamed_kind hst).2.1
    · intro q hq ho
      rcases hmem q hq with hq | rfl
      · exact h.near.opens q hq ho
      · simp [hp] at ho
    · refine pairwise_append.2 ⟨h.near.once, pairwise_singleton _ _, ?_⟩
      intro q _ q' hq' _ ho
      rw [mem_singleton.1 hq'] at ho
      simp at ho
    · intro q hq hcl h0
      rcases hmem q hq with hq | rfl
      · exact h.near.refused q hq hcl h0
      · exact ⟨y, hy.lt, rfl, hy.alone, hy.last⟩
    · intro q hq
      rcases hmem q hq with hq | rfl
      · exact h.near.kinds q hq
      · exact .inr (.inr (.inl rfl))
  · refine h.far.congr_far rfl rfl rfl le_rfl (fun _ _ => rfl) (fun _ _ => id) (fun _ _ => .inl) ?_
    intro q hq ho
    rcases hmem q hq with hq | rfl
    · exact .inl hq
    · simp [hp] at ho

end AndroidSystem.Adb
