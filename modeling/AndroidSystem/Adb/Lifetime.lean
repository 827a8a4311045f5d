import AndroidSystem.Adb.Socket
import AndroidSystem.Lib.LinkedRing
import Mathlib.Data.List.Nodup
import Mathlib.Data.List.Perm.Subperm

/-!
# The lifetime of a transport

`transport.cpp` at the level of its critical sections. A new transport is linked into
`pending_list` and announced to the main loop, which starts an input and an output thread for it
and moves it to `transport_list`. Each thread drops one of the two references when it exits;
the last one posts a removal, upon which the main loop unlinks the transport and frees it.

`unregister_transport` and `unregister_all_tcp_transports` also unlink the transport and also drop
a reference, although the two references belong to the threads. So the removal is posted while
one thread still runs, and it unlinks the transport a second time, through links that are stale
(`unregistered_transport_unlinked_twice`). Without them the lifetime is right
(`transport_lifetime`); only a USB device that could not be opened, which has no threads, may be
unregistered.

Kicking and closing the device below a transport is left out: neither touches the lists, the count
or the memory of the transport.
-/

namespace AndroidSystem.Adb

open List Function Relation

/-! ## State -/

/-- The device below a transport: USB, which adb may have no permission to write to
(`CS_NOPERM`), a TCP connection (`kTransportLocal` without an emulator port), or an emulator. -/
inductive DeviceKind where
  | usb (writeable : Bool)
  | tcp
  | emulator
  deriving DecidableEq

/-- No threads are started for a device that adb has no permission for. -/
def DeviceKind.noPermission (k : DeviceKind) : Prop := k = .usb false

instance (k : DeviceKind) : Decidable k.noPermission :=
  inferInstanceAs (Decidable (k = .usb false))

/-- What `next` and `prev` can point to: the two list heads and the transports. -/
inductive Node where
  | pendingList
  | transportList
  | transport (t : TransportId)
  deriving DecidableEq

/-- A message on the registration socket: `action` 1 and 0 of `tmsg`. -/
inductive Action where
  | register
  | remove
  deriving DecidableEq

/-- A thread of a transport. -/
inductive Thread where
  | unstarted
  | running
  | exited
  deriving DecidableEq

/-- Where the main loop stands between two critical sections. -/
inductive Stage where
  /-- `transport_registration_func`, threads are started -/
  | registering
  /-- `transport_registration_func`, a removal was read -/
  | removing
  /-- the removed transport is unlinked -/
  | freeing
  /-- `unregister_transport` was called -/
  | found
  /-- it has unlinked the transport -/
  | unregistering
  deriving DecidableEq

/-- The transports of an adb process. `announcing` are those that are linked into `pending_list`
but whose registration is not written to the socket yet. `freed` counts how often each transport
was freed. -/
structure Registry where
  links : Links Node := ⟨id, id⟩
  kind : TransportId → DeviceKind := fun _ => .emulator
  refCount : TransportId → Int := fun _ => 0
  input : TransportId → Thread := fun _ => .unstarted
  output : TransportId → Thread := fun _ => .unstarted
  freed : TransportId → Nat := fun _ => 0
  count : Nat := 0
  announcing : List TransportId := []
  messages : List (TransportId × Action) := []
  main : Option (Stage × TransportId) := none

open Registry

namespace Registry

/-- The transports in a list, as walking it finds them. -/
def listed (s : Registry) (head : Node) : List Node :=
  s.links.walk head (s.count + 1) (s.links.next head)

/-- The transport is in one of the lists. -/
def Linked (s : Registry) (t : TransportId) : Prop :=
  .transport t ∈ s.listed .transportList ∨ .transport t ∈ s.listed .pendingList

instance (s : Registry) (t : TransportId) : Decidable (s.Linked t) :=
  inferInstanceAs (Decidable (_ ∨ _))

/-! ## Steps -/

section

variable (s : Registry)

/-- `register_socket_transport` and `register_usb_transport` up to the end of their critical
section -/
def enlist (k : DeviceKind) : Registry :=
  { s with
    links := s.links.insertBefore .pendingList (.transport s.count)
    kind := update s.kind s.count k
    count := s.count + 1
    announcing := s.count :: s.announcing }

section

variable (t : TransportId)

/-- `transport_unref_locked` -/
def unref : Registry :=
  { s with
    refCount := update s.refCount t (s.refCount t - 1)
    messages := s.messages ++ if s.refCount t - 1 = 0 then [(t, .remove)] else [] }

/-- `transport_registration_func` before its critical section -/
def startThreads : Registry :=
  if (s.kind t).noPermission then s
  else
    { s with
      refCount := update s.refCount t 2
      input := update s.input t .running
      output := update s.output t .running }

/-- Takes a transport out of the list it is in, if it is in one. -/
def unlink : Registry :=
  { s with links := s.links.unlink (.transport t) }

/-- What the main loop does next for transport `t`. -/
def advance : Stage → Registry
  | .registering =>
    { s with
      links := (s.links.unlink (.transport t)).insertBefore .transportList (.transport t)
      main := none }
  | .removing => { s.unlink t with main := some (.freeing, t) }
  | .freeing => { s with freed := update s.freed t (s.freed t + 1), main := none }
  | .found => { s.unlink t with main := some (.unregistering, t) }
  | .unregistering => { s.unref t with main := none }

end

end

/-- The loop of `unregister_all_tcp_transports` from a node on -/
def unregisterTcp : Nat → Node → Registry → Registry
  | fuel + 1, .transport t, s =>
    unregisterTcp fuel (s.links.next (.transport t))
      (if s.kind t = .tcp then (s.unlink t).unref t else s)
  | _, _, s => s

end Registry

/-- The critical sections and the messages. -/
inductive LifeAct where
  /-- a device shows up -/
  | enlist (k : DeviceKind)
  /-- `register_transport` writes its message -/
  | announce (t : TransportId)
  /-- the main loop reads a message -/
  | receive
  /-- the main loop goes on -/
  | advance
  /-- `input_thread` ends with `transport_unref` -/
  | inputExit (t : TransportId)
  /-- `output_thread` ends with `transport_unref` -/
  | outputExit (t : TransportId)
  /-- the main loop calls `unregister_transport` on a transport it has found -/
  | unregister (t : TransportId)
  /-- the main loop calls `unregister_all_tcp_transports` -/
  | unregisterAllTcp
  /-- `unregister_usb_transport` finds a device without permission -/
  | unregisterUsb (t : TransportId)

variable {head : Node} {us : List TransportId} {a : LifeAct} {ms : List (TransportId × Action)}
  {st : Stage}

namespace Registry

/-- One step of the process. -/
def act (s : Registry) : LifeAct → Option Registry
  | .enlist k => some (s.enlist k)
  | .announce t =>
    if t ∈ s.announcing then
      some { s with
        announcing := s.announcing.erase t
        messages := s.messages ++ [(t, .register)] }
    else none
  | .receive =>
    match s.main, s.messages with
    | none, (t, .register) :: ms =>
      some { s.startThreads t with messages := ms, main := some (.registering, t) }
    | none, (t, .remove) :: ms => some { s with messages := ms, main := some (.removing, t) }
    | _, _ => none
  | .advance => s.main.map fun x => s.advance x.2 x.1
  | .inputExit t =>
    if s.input t = .running then
      some ({ s with input := update s.input t .exited }.unref t)
    else none
  | .outputExit t =>
    if s.output t = .running then
      some ({ s with output := update s.output t .exited }.unref t)
    else none
  | .unregister t =>
    if s.main = none ∧ .transport t ∈ s.listed .transportList then
      some { s with main := some (.found, t) }
    else none
  | .unregisterAllTcp =>
    if s.main = none then
      some (unregisterTcp (s.count + 1) (s.links.next .transportList) s)
    else none
  | .unregisterUsb t =>
    if (s.kind t).noPermission ∧ .transport t ∈ s.listed .transportList then
      some (s.unlink t)
    else none

/-- The step rewrites the links of the lists through transport `t`. -/
def Unlinks (s : Registry) (t : TransportId) : LifeAct → Prop
  | .advance => s.main = some (.registering, t) ∨ s.main = some (.removing, t)
      ∨ s.main = some (.found, t)
  | .unregisterAllTcp => .transport t ∈ s.listed .transportList ∧ s.kind t = .tcp
  | .unregisterUsb u => u = t
  | _ => False

/-- The removals of a transport that are posted or under way. -/
def removals (s : Registry) (t : TransportId) : Nat :=
  s.messages.count (t, .remove)
    + if s.main = some (.removing, t) ∨ s.main = some (.freeing, t) then 1 else 0

/-- What should hold of the transports at any time: links are only rewritten through transports
that are linked; and a transport is removed once if both its threads have exited, and not at all
otherwise. -/
structure Sound (s : Registry) : Prop where
  linked : ∀ a t, (s.act a).isSome → s.Unlinks t a → s.Linked t
  once : ∀ t, s.freed t + s.removals t =
    if s.input t = .exited ∧ s.output t = .exited then 1 else 0

/-- Nothing that has threads is unregistered, and a device is not unregistered by the USB thread
while the main loop is unregistering it. -/
def Careful (s : Registry) : LifeAct → Prop
  | .unregister t => (s.kind t).noPermission
  | .unregisterAllTcp => ∀ t, .transport t ∈ s.listed .transportList → s.kind t ≠ .tcp
  | .unregisterUsb t => s.main ≠ some (.found, t)
  | _ => True

/-- A careful step. -/
def CarefulStep (s s' : Registry) : Prop := ∃ a, s.Careful a ∧ s.act a = some s'

end Registry

/-! ## One transport -/

/-- What the state says about one transport. -/
structure TransportView where
  kind : DeviceKind
  refCount : Int := 0
  input : Thread := .unstarted
  output : Thread := .unstarted
  freed : Nat := 0
  announcing : Nat := 0
  registers : Nat := 0
  removes : Nat := 0
  main : Option Stage := none
  pending : Bool := false
  listed : Bool := false

/-- The reference that a thread holds. -/
def Thread.refs : Thread → Int
  | .running => 1
  | _ => 0

/-- The life of a transport, phase by phase. Those without permission stay without threads;
the others go from `announced` through `live` to `freed`. -/
inductive Lawful : TransportView → Prop
  | unborn (k : DeviceKind) : Lawful { kind := k }
  | enlisted (k : DeviceKind) : Lawful { kind := k, announcing := 1, pending := true }
  | announced (k : DeviceKind) : Lawful { kind := k, registers := 1, pending := true }
  /-- registered: `b` tells whether it is still in `pending_list` -/
  | barred (b : Bool) :
    Lawful {
      kind := .usb false
      main := if b then some .registering else none
      pending := b
      listed := !b }
  | found : Lawful { kind := .usb false, main := some .found, listed := true }
  | unregistering : Lawful { kind := .usb false, main := some .unregistering }
  | gone (r : Int) : Lawful { kind := .usb false, refCount := r }
  | live (k : DeviceKind) (i o : Thread) (b : Bool) (hk : ¬k.noPermission) (hi : i ≠ .unstarted)
      (ho : o ≠ .unstarted) :
    Lawful {
      kind := k
      refCount := i.refs + o.refs
      input := i
      output := o
      removes := if i = .exited ∧ o = .exited then 1 else 0
      main := if b then some .registering else none
      pending := b
      listed := !b }
  | removing (k : DeviceKind) (hk : ¬k.noPermission) :
    Lawful {
      kind := k
      input := .exited
      output := .exited
      main := some .removing
      listed := true }
  | freeing (k : DeviceKind) :
    Lawful { kind := k, input := .exited, output := .exited, main := some .freeing }
  | freed (k : DeviceKind) :
    Lawful { kind := k, input := .exited, output := .exited, freed := 1 }

namespace TransportView

/-- `transport_unref_locked` on one transport -/
def unref (v : TransportView) : TransportView :=
  { v with
    refCount := v.refCount - 1
    removes := v.removes + if v.refCount - 1 = 0 then 1 else 0 }

/-- Threads are started, if there are any. -/
def startThreads (v : TransportView) : TransportView :=
  if v.kind.noPermission then v
  else { v with refCount := 2, input := .running, output := .running }

end TransportView

namespace Lawful

variable {v : TransportView}

section

variable (h : Lawful v)
include h

theorem announce (ha : v.announcing ≠ 0) :
    Lawful { v with announcing := v.announcing - 1, registers := v.registers + 1 } := by
  cases h <;> simp at ha
  exact .announced _

theorem receiveRegister (hr : v.registers ≠ 0) (hm : v.main = none) :
    Lawful { v.startThreads with registers := v.registers - 1, main := some .registering } := by
  cases h <;> simp at hr
  case announced k =>
    unfold TransportView.startThreads
    split_ifs with hk
    · cases hk
      exact .barred true
    · exact .live k .running .running true hk (by decide) (by decide)

theorem receiveRemove (hr : v.removes ≠ 0) (hm : v.main = none) :
    Lawful { v with removes := v.removes - 1, main := some .removing } := by
  cases h <;> simp at hr hm
  case live k i o b hk hi ho =>
    obtain ⟨rfl, rfl⟩ := hr
    subst hm
    exact .removing k hk

theorem relink (hm : v.main = some .registering) :
    Lawful { v with main := none, pending := false, listed := true } ∧ v.pending = true := by
  cases h <;> simp at hm
  case barred b =>
    subst hm
    exact ⟨.barred false, rfl⟩
  case live k i o b hk hi ho =>
    subst hm
    exact ⟨.live k i o false hk hi ho, rfl⟩

theorem unlink (hm : v.main = some .removing) :
    Lawful { v with main := some .freeing, listed := false } ∧ v.listed = true := by
  cases h <;> simp at hm
  case removing k hk => exact ⟨.freeing k, rfl⟩

theorem free (hm : v.main = some .freeing) :
    Lawful { v with freed := v.freed + 1, main := none } := by
  cases h <;> simp at hm
  case freeing k => exact .freed k

theorem inputExit (hi : v.input = .running) : Lawful { v with input := .exited }.unref := by
  cases h <;> simp at hi
  case live k i o b hk hi' ho =>
    subst hi
    cases o with
    | unstarted => exact absurd rfl ho
    | running => exact .live k .exited .running b hk (by decide) (by decide)
    | exited => exact .live k .exited .exited b hk (by decide) (by decide)

theorem outputExit (ho : v.output = .running) : Lawful { v with output := .exited }.unref := by
  cases h <;> simp at ho
  case live k i o b hk hi ho' =>
    subst ho
    cases i with
    | unstarted => exact absurd rfl hi
    | running => exact .live k .running .exited b hk (by decide) (by decide)
    | exited => exact .live k .exited .exited b hk (by decide) (by decide)

theorem find (hk : v.kind.noPermission) (hl : v.listed = true) (hm : v.main = none) :
    Lawful { v with main := some .found } := by
  cases h <;> simp at hl hm
  case barred b =>
    subst hl
    exact .found
  case live => contradiction

theorem unlinkFound (hm : v.main = some .found) :
    Lawful { v with main := some .unregistering, listed := false } ∧ v.listed = true := by
  cases h <;> simp at hm
  case found => exact ⟨.unregistering, rfl⟩

theorem unregister (hm : v.main = some .unregistering) : Lawful { v.unref with main := none } := by
  cases h <;> simp at hm
  case unregistering => exact .gone (-1)

theorem unregisterUsb (hk : v.kind.noPermission) (hl : v.listed = true) (hm : v.main ≠ some .found) :
    Lawful { v with listed := false } := by
  cases h <;> simp at hl hm
  case barred b =>
    subst hl
    exact .gone 0
  case live => contradiction
  case removing => contradiction

end

end Lawful

/-! ## The lists -/

/-- The links are those of the two lists, with the transports `xs` registered and `ys` pending. -/
structure Lists (l : Links Node) (xs ys : List TransportId) : Prop where
  registered : l.Ring .transportList (xs.map .transport)
  pending : l.Ring .pendingList (ys.map .transport)
  disjoint : ∀ t ∈ xs, t ∉ ys

namespace Lists

variable {l : Links Node} {xs ys : List TransportId} {t : TransportId}

theorem nodup_of_ring (h : l.Ring head (us.map .transport)) : us.Nodup :=
  (nodup_cons.1 h.nodup).2.of_map _

/-- Two lists of different transports with different heads have no node in common. -/
theorem disjoint_nodes {a b : Node} {vs : List TransportId} (hab : a ≠ b)
    (ha : ∀ t, a ≠ .transport t) (hb : ∀ t, b ≠ .transport t) (h : ∀ t ∈ us, t ∉ vs) :
    ∀ c ∈ a :: us.map .transport, c ∉ b :: vs.map .transport := by
  intro c hc hc'
  simp only [mem_cons, mem_map] at hc hc'
  rcases hc with rfl | ⟨u, hu, rfl⟩
  · rcases hc' with hc' | ⟨v, -, hv⟩
    · exact hab hc'
    · exact ha v hv.symm
  · rcases hc' with hc' | ⟨v, hv, hvu⟩
    · exact hb u hc'.symm
    · exact h u hu (Node.transport.inj hvu ▸ hv)

theorem enlist (h : Lists l xs ys) (hx : t ∉ xs) (hy : t ∉ ys) :
    Lists (l.insertBefore .pendingList (.transport t)) xs (ys ++ [t]) where
  registered := by
    refine h.pending.insertBefore_other h.registered (by simpa using hx) ?_
    exact disjoint_nodes (by simp) (by simp) (by simp) fun u hu hxs => h.disjoint u hxs hu
  pending := by
    rw [map_append]
    exact h.pending.insertBefore (by simpa using hy)
  disjoint := by
    intro u hu
    simp
    exact ⟨h.disjoint u hu, fun e => hx (e ▸ hu)⟩

theorem unlink (h : Lists l xs ys) (ht : t ∈ xs) :
    ∃ xs', Lists (l.unlink (.transport t)) xs' ys ∧ ∀ u, u ∈ xs' ↔ u ∈ xs ∧ u ≠ t := by
  obtain ⟨as, bs, rfl⟩ := append_of_mem ht
  have hreg := h.registered
  rw [map_append] at hreg
  have hmem (u : TransportId) := Links.mem_unlinked (y := u) (nodup_of_ring h.registered)
  refine ⟨as ++ bs, ⟨?_, ?_, ?_⟩, hmem⟩
  · rw [map_append]
    exact hreg.unlink
  · refine hreg.unlink_other h.pending ?_
    rw [← map_append]
    exact disjoint_nodes (by simp) (by simp) (by simp) fun u hu => h.disjoint u ((hmem u).1 hu).1
  · exact fun u hu => h.disjoint u ((hmem u).1 hu).1

theorem move (h : Lists l xs ys) (ht : t ∈ ys) :
    ∃ ys', Lists ((l.unlink (.transport t)).insertBefore .transportList (.transport t))
        (xs ++ [t]) ys' ∧ ∀ u, u ∈ ys' ↔ u ∈ ys ∧ u ≠ t := by
  obtain ⟨as, bs, rfl⟩ := append_of_mem ht
  have hpend := h.pending
  rw [map_append] at hpend
  have hmem (u : TransportId) := Links.mem_unlinked (y := u) (nodup_of_ring h.pending)
  have hreg := hpend.unlink_other h.registered (by
    rw [← map_append]
    exact disjoint_nodes (by simp) (by simp) (by simp)
      fun u hu hxs => h.disjoint u hxs ((hmem u).1 hu).1)
  have hpend' := hpend.unlink
  rw [← map_append] at hpend'
  have ht' : t ∉ xs := fun hxs => h.disjoint t hxs ht
  refine ⟨as ++ bs, ⟨?_, ?_, ?_⟩, hmem⟩
  · rw [map_append]
    exact hreg.insertBefore (by simpa using ht')
  · refine hreg.insertBefore_other hpend' ?_ ?_
    · simpa using fun hu => ((hmem t).1 (mem_append.2 hu)).2 rfl
    · exact disjoint_nodes (by simp) (by simp) (by simp)
        fun u hu hu' => h.disjoint u hu ((hmem u).1 hu').1
  · intro u hu hmem'
    rcases mem_append.1 hu with hu | hu
    · exact h.disjoint u hu ((hmem u).1 hmem').1
    · exact ((hmem u).1 hmem').2 (by simpa using hu)

theorem walk_eq (h : l.Ring head (us.map .transport)) {n : Nat} (hn : ∀ t ∈ us, t < n) :
    l.walk head (n + 1) (l.next head) = us.map .transport := by
  refine h.walk ?_
  have := (subperm_of_subset (nodup_of_ring h) (fun t ht => mem_range.2 (hn t ht))).length_le
  simpa [Nat.lt_succ_iff] using this

end Lists

/-! ## The invariant -/

namespace Registry

/-- What the state says about transport `t`, with the transports `xs` registered and `ys`
pending. -/
def view (s : Registry) (xs ys : List TransportId) (t : TransportId) : TransportView where
  kind := s.kind t
  refCount := s.refCount t
  input := s.input t
  output := s.output t
  freed := s.freed t
  announcing := s.announcing.count t
  registers := s.messages.count (t, .register)
  removes := s.messages.count (t, .remove)
  main := s.main.bind fun x => if x.2 = t then some x.1 else none
  pending := decide (t ∈ ys)
  listed := decide (t ∈ xs)

/-- The lists are well-formed and every transport is in one of the phases of its life. -/
structure Inv (s : Registry) (xs ys : List TransportId) : Prop where
  lists : Lists s.links xs ys
  lawful : ∀ t, Lawful (s.view xs ys t)
  fresh : ∀ t, s.count ≤ t → s.view xs ys t = { kind := s.kind t }

variable {s s' : Registry} {xs ys xs' ys' : List TransportId} {t : TransportId}

namespace Inv

variable (h : Inv s xs ys)
include h

/-- A step is about one transport. -/
theorem change (hlists : Lists s'.links xs' ys') (hcount : s'.count = s.count) (ht : t < s.count)
    (hview : Lawful (s'.view xs' ys' t)) (hother : ∀ u, u ≠ t → s'.view xs' ys' u = s.view xs ys u) :
    Inv s' xs' ys' where
  lists := hlists
  lawful := by
    intro u
    by_cases hu : u = t
    · exact hu ▸ hview
    · exact hother u hu ▸ h.lawful u
  fresh := by
    intro u hu
    have hut : u ≠ t := fun e => lt_irrefl t (lt_of_lt_of_le ht (hcount ▸ e ▸ hu))
    have hkind : s'.kind u = s.kind u := congrArg TransportView.kind (hother u hut)
    rw [hother u hut, hkind]
    exact h.fresh u (hcount ▸ hu)

theorem born (hne : s.view xs ys t ≠ { kind := s.kind t }) : t < s.count := by
  by_contra hc
  exact hne (h.fresh t (Nat.le_of_not_lt hc))

theorem born_of_listed (ht : t ∈ xs) : t < s.count :=
  h.born fun e => by simpa [view, ht] using congrArg TransportView.listed e

theorem born_of_pending (ht : t ∈ ys) : t < s.count :=
  h.born fun e => by simpa [view, ht] using congrArg TransportView.pending e

theorem listed_registered : s.listed .transportList = xs.map .transport :=
  Lists.walk_eq h.lists.registered fun _ => h.born_of_listed

theorem listed_pending : s.listed .pendingList = ys.map .transport :=
  Lists.walk_eq h.lists.pending fun _ => h.born_of_pending

theorem mem_listed : .transport t ∈ s.listed .transportList ↔ t ∈ xs := by
  rw [h.listed_registered]
  simp

theorem enlist (k : DeviceKind) : Inv (s.enlist k) xs (ys ++ [s.count]) := by
  have hx : s.count ∉ xs := fun hmem => lt_irrefl _ (h.born_of_listed hmem)
  have hy : s.count ∉ ys := fun hmem => lt_irrefl _ (h.born_of_pending hmem)
  have hnew : (s.enlist k).view xs (ys ++ [s.count]) s.count
      = { kind := k, announcing := 1, pending := true } := by
    have := h.fresh s.count (le_refl _)
    simp only [view, TransportView.mk.injEq] at this
    simp [view, Registry.enlist, this, hx]
  have hother (u : TransportId) (hu : u ≠ s.count) :
      (s.enlist k).view xs (ys ++ [s.count]) u = s.view xs ys u := by
    simp [view, Registry.enlist, hu, Ne.symm hu]
  refine ⟨h.lists.enlist hx hy, fun u => ?_, fun u hu => ?_⟩
  · by_cases hu : u = s.count
    · rw [hu, hnew]
      exact .enlisted k
    · rw [hother u hu]
      exact h.lawful u
  · have hlt : s.count + 1 ≤ u := hu
    have hne : u ≠ s.count := by omega
    rw [hother u hne, h.fresh u (by omega)]
    simp [Registry.enlist, hne]

theorem announce (ht : t ∈ s.announcing) :
    Inv { s with
      announcing := s.announcing.erase t
      messages := s.messages ++ [(t, .register)] } xs ys := by
  have hcount : s.announcing.count t ≠ 0 := by
    simpa [count_eq_zero] using ht
  have hborn := h.born fun e => hcount (congrArg TransportView.announcing e)
  refine h.change h.lists rfl hborn ?_ fun u hu => ?_
  · convert (h.lawful t).announce hcount using 1
    simp [view, count_erase_self]
  · simp [view, count_erase_of_ne hu, Ne.symm hu]

theorem receiveRegister (hm : s.main = none) (hms : s.messages = (t, .register) :: ms) :
    Inv { s.startThreads t with messages := ms, main := some (.registering, t) } xs ys := by
  have hreg : (s.view xs ys t).registers = ms.count (t, .register) + 1 := by
    simp [view, hms]
  have hborn : t < s.count := h.born fun e => by rw [e] at hreg; cases hreg
  have hlinks : (s.startThreads t).links = s.links ∧ (s.startThreads t).count = s.count := by
    unfold startThreads
    split_ifs <;> exact ⟨rfl, rfl⟩
  refine h.change (by rw [hlinks.1]; exact h.lists) hlinks.2 hborn ?_ fun u hu => ?_
  · convert (h.lawful t).receiveRegister (by omega) (by simp [view, hm]) using 1
    unfold startThreads TransportView.startThreads
    by_cases hk : (s.kind t).noPermission <;> simp [view, hms, hk]
  · unfold startThreads
    by_cases hk : (s.kind t).noPermission <;> simp [view, hms, hk, hm, hu, Ne.symm hu]

theorem receiveRemove (hm : s.main = none) (hms : s.messages = (t, .remove) :: ms) :
    Inv { s with messages := ms, main := some (.removing, t) } xs ys := by
  have hrem : (s.view xs ys t).removes = ms.count (t, .remove) + 1 := by
    simp [view, hms]
  have hborn : t < s.count := h.born fun e => by rw [e] at hrem; cases hrem
  refine h.change h.lists rfl hborn ?_ fun u hu => ?_
  · convert (h.lawful t).receiveRemove (by omega) (by simp [view, hm]) using 1
    simp [view, hms]
  · simp [view, hms, hm, Ne.symm hu]

omit h in
theorem view_main (hm : s.main = some (st, t)) : (s.view xs ys t).main = some st := by
  simp [view, hm]

omit h in
theorem view_unref : (s.unref t).view xs ys t = (s.view xs ys t).unref := by
  unfold unref TransportView.unref
  by_cases hr : s.refCount t - 1 = 0 <;> simp [view, hr]

omit h in
theorem view_unref_other {u : TransportId} (hu : u ≠ t) :
    (s.unref t).view xs ys u = s.view xs ys u := by
  unfold unref
  by_cases hr : s.refCount t - 1 = 0 <;> simp [view, hr, hu, Ne.symm hu]

theorem unlinkListed {st' : Stage} (hm : s.main = some (st, t)) (ht : t < s.count)
    (hlaw : Lawful { s.view xs ys t with main := some st', listed := false }
      ∧ (s.view xs ys t).listed = true) :
    ∃ xs' ys', Inv { s.unlink t with main := some (st', t) } xs' ys' := by
  obtain ⟨xs', hlists, hxs⟩ := h.lists.unlink (by simpa [view] using hlaw.2)
  refine ⟨xs', ys, h.change hlists rfl ht ?_ fun u hu => ?_⟩
  · convert hlaw.1 using 1
    simp [view, unlink, hxs]
  · simp [view, unlink, hm, hxs, hu, Ne.symm hu]

theorem advance (hm : s.main = some (st, t)) : ∃ xs' ys', Inv (s.advance t st) xs' ys' := by
  have hlaw := h.lawful t
  have hst : (s.view xs ys t).main = some st := view_main hm
  have hborn : t < s.count := h.born fun e => by rw [e] at hst; cases hst
  cases st with
  | registering =>
    obtain ⟨hlaw', hpend⟩ := hlaw.relink hst
    have hmem : t ∈ ys := by simpa [view] using hpend
    obtain ⟨ys', hlists, hys⟩ := h.lists.move hmem
    refine ⟨xs ++ [t], ys', h.change hlists rfl hborn ?_ fun u hu => ?_⟩
    · convert hlaw' using 1
      simp [view, advance, hys]
    · simp [view, advance, hm, hys, hu, Ne.symm hu]
  | removing => exact h.unlinkListed hm hborn (hlaw.unlink hst)
  | freeing =>
    refine ⟨xs, ys, h.change h.lists rfl hborn ?_ fun u hu => ?_⟩
    · convert hlaw.free hst using 1
      simp [view, advance]
    · simp [view, advance, hm, hu, Ne.symm hu]
  | found => exact h.unlinkListed hm hborn (hlaw.unlinkFound hst)
  | unregistering =>
    refine ⟨xs, ys, h.change h.lists rfl hborn ?_ fun u hu => ?_⟩
    · convert hlaw.unregister hst using 1
      rw [← view_unref]
      simp [view, advance]
    · rw [← view_unref_other (s := s) hu]
      simp [view, advance, unref, hm, Ne.symm hu]

theorem inputExit (hi : s.input t = .running) :
    Inv ({ s with input := update s.input t .exited }.unref t) xs ys := by
  have hborn : t < s.count := h.born fun e => by cases hi.symm.trans (congrArg TransportView.input e)
  refine h.change h.lists rfl hborn ?_ fun u hu => ?_
  · rw [view_unref]
    convert (h.lawful t).inputExit hi using 2
    simp [view]
  · rw [view_unref_other hu]
    simp [view, hu]

theorem outputExit (ho : s.output t = .running) :
    Inv ({ s with output := update s.output t .exited }.unref t) xs ys := by
  have hborn : t < s.count := h.born fun e => by cases ho.symm.trans (congrArg TransportView.output e)
  refine h.change h.lists rfl hborn ?_ fun u hu => ?_
  · rw [view_unref]
    convert (h.lawful t).outputExit ho using 2
    simp [view]
  · rw [view_unref_other hu]
    simp [view, hu]

theorem unregister (hm : s.main = none) (ht : t ∈ xs) (hk : (s.kind t).noPermission) :
    Inv { s with main := some (.found, t) } xs ys := by
  refine h.change h.lists rfl (h.born_of_listed ht) ?_ fun u hu => ?_
  · convert (h.lawful t).find hk (by simpa [view] using ht) (by simp [view, hm]) using 1
    simp [view]
  · simp [view, hm, Ne.symm hu]

theorem unregisterUsb (hk : (s.kind t).noPermission) (ht : t ∈ xs) (hm : s.main ≠ some (.found, t)) :
    ∃ xs', Inv (s.unlink t) xs' ys := by
  have hst : (s.view xs ys t).main ≠ some .found := by
    simp only [view, ne_eq, Option.bind_eq_some_iff, not_exists, not_and]
    intro x hx
    split_ifs with hxt
    · intro e
      exact hm (hx.trans (by rw [← hxt, ← Option.some.inj e]))
    · simp
  obtain ⟨xs', hlists, hxs⟩ := h.lists.unlink ht
  refine ⟨xs', h.change hlists rfl (h.born_of_listed ht) ?_ fun u hu => ?_⟩
  · convert (h.lawful t).unregisterUsb hk (by simpa [view] using ht) hst using 1
    simp [view, unlink, hxs]
  · simp [view, unlink, hxs, hu]

end Inv

/-- The loop of `unregister_all_tcp_transports` does nothing if it meets no TCP connection. -/
theorem unregisterTcp_eq {h : Node} (fuel : Nat) (n : Node)
    (hn : ∀ t, .transport t ∈ s.links.walk h fuel n → s.kind t ≠ .tcp) (hh : ∀ t, h ≠ .transport t) :
    unregisterTcp fuel n s = s := by
  induction fuel generalizing n with
  | zero => rfl
  | succ fuel ih =>
    cases n with
    | pendingList => rfl
    | transportList => rfl
    | transport t =>
      have hwalk : s.links.walk h (fuel + 1) (.transport t)
          = .transport t :: s.links.walk h fuel (s.links.next (.transport t)) := by
        rw [Links.walk, if_neg (Ne.symm (hh t))]
      rw [hwalk] at hn
      rw [unregisterTcp, if_neg (hn t mem_cons_self)]
      exact ih _ fun u hu => hn u (mem_cons_of_mem _ hu)

theorem inv_step (h : Inv s xs ys) (hc : s.Careful a) (ha : s.act a = some s') :
    ∃ xs' ys', Inv s' xs' ys' := by
  cases a with
  | enlist k =>
    obtain rfl := Option.some.inj ha
    exact ⟨_, _, h.enlist k⟩
  | announce t =>
    obtain ⟨ht, ⟨⟩⟩ := Option.ite_none_right_eq_some.1 ha
    exact ⟨_, _, h.announce ht⟩
  | receive =>
    rw [act] at ha
    split at ha
    · rename_i t ms hm hms
      obtain rfl := Option.some.inj ha
      exact ⟨_, _, h.receiveRegister hm hms⟩
    · rename_i t ms hm hms
      obtain rfl := Option.some.inj ha
      exact ⟨_, _, h.receiveRemove hm hms⟩
    · cases ha
  | advance =>
    obtain ⟨⟨st, t⟩, hm, rfl⟩ := Option.map_eq_some_iff.1 ha
    exact h.advance hm
  | inputExit t =>
    obtain ⟨hi, ⟨⟩⟩ := Option.ite_none_right_eq_some.1 ha
    exact ⟨_, _, h.inputExit hi⟩
  | outputExit t =>
    obtain ⟨ho, ⟨⟩⟩ := Option.ite_none_right_eq_some.1 ha
    exact ⟨_, _, h.outputExit ho⟩
  | unregister t =>
    obtain ⟨ht, ⟨⟩⟩ := Option.ite_none_right_eq_some.1 ha
    exact ⟨_, _, h.unregister ht.1 (h.mem_listed.1 ht.2) hc⟩
  | unregisterAllTcp =>
    obtain ⟨-, ⟨⟩⟩ := Option.ite_none_right_eq_some.1 ha
    rw [unregisterTcp_eq _ _ hc (by simp)]
    exact ⟨_, _, h⟩
  | unregisterUsb t =>
    obtain ⟨ht, ⟨⟩⟩ := Option.ite_none_right_eq_some.1 ha
    obtain ⟨xs', h'⟩ := h.unregisterUsb ht.1 (h.mem_listed.1 ht.2) hc
    exact ⟨_, _, h'⟩

theorem inv_init : Inv {} [] [] where
  lists := ⟨⟨by simp, by simp [Links.Segment, Links.Joined]⟩,
    ⟨by simp, by simp [Links.Segment, Links.Joined]⟩, by simp⟩
  lawful := fun _ => .unborn _
  fresh := fun _ _ => rfl

theorem inv_run (hrun : ReflTransGen CarefulStep {} s) : ∃ xs ys, Inv s xs ys := by
  induction hrun with
  | refl => exact ⟨_, _, inv_init⟩
  | tail _ hstep ih =>
    obtain ⟨xs, ys, h⟩ := ih
    obtain ⟨a, hc, ha⟩ := hstep
    exact inv_step h hc ha

/-! ## Soundness -/

theorem Inv.linked (h : Inv s xs ys) (ha : (s.act a).isSome) (hu : s.Unlinks t a) : s.Linked t := by
  unfold Linked
  rw [h.listed_registered, h.listed_pending]
  have hlaw := h.lawful t
  cases a with
  | advance =>
    rcases hu with hm | hm | hm
    · exact .inr (by simpa [view] using (hlaw.relink (view_main hm)).2)
    · exact .inl (by simpa [view] using (hlaw.unlink (view_main hm)).2)
    · exact .inl (by simpa [view] using (hlaw.unlinkFound (view_main hm)).2)
  | unregisterAllTcp => exact .inl (h.listed_registered ▸ hu.1)
  | unregisterUsb u =>
    obtain rfl : u = t := hu
    rw [act] at ha
    split_ifs at ha with hg
    · exact .inl (h.listed_registered ▸ hg.2)
    · cases ha
  | _ => exact hu.elim

theorem removals_eq (xs ys : List TransportId) :
    s.removals t = (s.view xs ys t).removes
      + if (s.view xs ys t).main = some .removing ∨ (s.view xs ys t).main = some .freeing
        then 1 else 0 := by
  have hmain (st : Stage) : s.main = some (st, t) ↔ (s.view xs ys t).main = some st := by
    cases hm : s.main with
    | none => simp [view, hm]
    | some x => simp [view, hm, Prod.ext_iff, and_comm]
  simp only [removals, hmain]
  rfl

/-- In every phase of its life a transport is removed once if both its threads have exited. -/
theorem Inv.once (h : Inv s xs ys) : s.freed t + s.removals t =
    if s.input t = .exited ∧ s.output t = .exited then 1 else 0 := by
  rw [removals_eq xs ys]
  have hlaw := h.lawful t
  show (s.view xs ys t).freed + _ = if (s.view xs ys t).input = .exited
    ∧ (s.view xs ys t).output = .exited then 1 else 0
  generalize s.view xs ys t = v at hlaw
  cases hlaw <;> simp

/-- **Transports live as they should unless one with threads is unregistered.** For any
interleaving of registrations, thread exits, removals and the unregistering of devices without
permission: links are only rewritten through linked transports, and a transport is removed and
freed once when both its threads have exited, and not before. -/
theorem transport_lifetime (hrun : ReflTransGen CarefulStep {} s) : s.Sound := by
  obtain ⟨xs, ys, h⟩ := inv_run hrun
  exact ⟨fun _ _ => h.linked, fun _ => h.once⟩

/-- The state after a list of steps. -/
def run (s : Registry) (as : List LifeAct) : Option Registry := as.foldlM act s

theorem careful_run (hrun : ReflTransGen CarefulStep {} s) (hc : s.Careful a)
    (ha : s.act a = some s') : ReflTransGen CarefulStep {} s' :=
  hrun.tail ⟨a, hc, ha⟩

/-- A device comes and goes. -/
theorem transport_removed_once :
    ∃ s, ReflTransGen CarefulStep {} s ∧ s.freed 0 = 1 ∧ s.Sound := by
  have hrun : ∃ s, ReflTransGen CarefulStep {} s ∧ s.freed 0 = 1 := by
    have h0 : ReflTransGen CarefulStep {} {} := .refl
    have h1 := careful_run h0 (a := .enlist .tcp) trivial rfl
    have h2 := careful_run h1 (a := .announce 0) trivial rfl
    have h3 := careful_run h2 (a := .receive) trivial rfl
    have h4 := careful_run h3 (a := .inputExit 0) trivial rfl
    have h5 := careful_run h4 (a := .advance) trivial rfl
    have h6 := careful_run h5 (a := .outputExit 0) trivial rfl
    have h7 := careful_run h6 (a := .receive) trivial rfl
    have h8 := careful_run h7 (a := .advance) trivial rfl
    have h9 := careful_run h8 (a := .advance) trivial rfl
    exact ⟨_, h9, rfl⟩
  obtain ⟨s, hs, hfreed⟩ := hrun
  exact ⟨s, hs, hfreed, transport_lifetime hs⟩

/-- **An unregistered transport is unlinked twice and freed under a running thread.** A TCP device
is disconnected, its input thread exits, and the removal goes through its stale links while the
output thread still runs. -/
theorem unregistered_transport_unlinked_twice :
    ∃ s s' s'' : Registry,
      run {} [.enlist .tcp, .announce 0, .receive, .advance, .unregister 0, .advance, .advance,
        .inputExit 0, .receive] = some s
      ∧ s.act .advance = some s' ∧ s.Unlinks 0 .advance ∧ ¬s.Linked 0
      ∧ s'.act .advance = some s'' ∧ s''.freed 0 = 1 ∧ s''.output 0 = .running :=
  ⟨_, _, _, rfl, rfl, .inr (.inl rfl), by decide, rfl, rfl, rfl⟩

end Registry

end AndroidSystem.Adb
