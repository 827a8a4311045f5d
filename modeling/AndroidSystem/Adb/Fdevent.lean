import Mathlib.Data.List.Nodup

/-!
# Pending events

The nodes for which `select` has reported events are on a list, and a bit in the state of a node says
that it is there. All calls keep the two together (`fdevent_pending`). A change of interest is meant to
leave those of the pending events that are still wanted, but it clears just these and leaves the others.

What `select` reports is arbitrary, so the sets of descriptors it is given are left out. A function that
is called for a node calls these functions in turn: its calls are steps like all others.
-/

namespace AndroidSystem.Adb

open Function List

/-- A node: `active` and `pending` are bits of `state`, and `interest` is the part under
`FDE_EVENTMASK`. -/
structure FdeNode where
  fd : Nat
  active : Bool
  pending : Bool
  interest : BitVec 16
  events : BitVec 16

def fdeEventmask : BitVec 16 := 0x00ff

/-- The nodes, `fd_table`, and the nodes on `list_pending`. -/
structure Fdevents where
  node : Nat → FdeNode
  fdTable : Nat → Option Nat
  listPending : List Nat

namespace Fdevents

/-! ## The source -/

section

variable (s : Fdevents) (n : Nat)

def put (fde : FdeNode) : Fdevents := { s with node := update s.node n fde }

def fdeventPlistEnqueue : Fdevents := { s with listPending := s.listPending ++ [n] }

def fdeventPlistRemove : Fdevents := { s with listPending := s.listPending.erase n }

/-- The events that the function of the node is called with, and the state then. -/
def fdeventCallFdfunc : Option (BitVec 16) × Fdevents :=
  let fde := s.node n
  (if fde.pending then some fde.events else none, s.put n { fde with events := 0, pending := false })

/-- The pointers of the node are cleared too, so it must not be on the list. -/
def fdeventInstall (fd : Nat) : Fdevents :=
  { s.put n ⟨fd, true, false, 0, 0⟩ with fdTable := update s.fdTable fd (some n) }

/-- `none` is `FATAL`. -/
def fdeventRemove : Option Fdevents :=
  let fde := s.node n
  let s := (if fde.pending then s.fdeventPlistRemove n else s).put n ⟨fde.fd, false, false, 0, 0⟩
  if fde.active then
    if s.fdTable fde.fd = some n then some { s with fdTable := update s.fdTable fde.fd none } else none
  else some s

def fdeventSet (events : BitVec 16) : Fdevents :=
  let events := events &&& fdeEventmask
  let fde := s.node n
  if fde.interest = events then s
  else if fde.pending then
    let rest := fde.events &&& ~~~events
    if rest = 0 then
      (s.fdeventPlistRemove n).put n { fde with interest := events, events := rest, pending := false }
    else s.put n { fde with interest := events, events := rest }
  else s.put n { fde with interest := events }

def fdeventAdd (events : BitVec 16) : Fdevents :=
  s.fdeventSet n ((s.node n).interest ||| (events &&& fdeEventmask))

def fdeventDel (events : BitVec 16) : Fdevents :=
  s.fdeventSet n ((s.node n).interest &&& ~~~(events &&& fdeEventmask))

/-- What `fdevent_process` does with the events of a descriptor. -/
def fdeventProcess (fd : Nat) (events : BitVec 16) : Option Fdevents :=
  (s.fdTable fd).map fun n =>
    let fde := s.node n
    let s := s.put n { fde with events := fde.events ||| events, pending := true }
    if fde.pending then s else s.fdeventPlistEnqueue n

/-- What `fdevent_subproc_event_func` does with the node of a process that has exited. -/
def subprocExited : Fdevents :=
  let fde := s.node n
  let s := s.put n { fde with events := fde.events ||| 1, pending := true }
  if fde.pending then s else (s.fdeventCallFdfunc n).2

end

/-! ## Runs -/

def initial : Fdevents := ⟨fun _ => ⟨0, false, false, 0, 0⟩, fun _ => none, []⟩

/-- The states that calls and events lead to, if no node is installed that is on the list. -/
inductive Reached : Fdevents → Prop
  | init : Reached initial
  | install {s : Fdevents} {n : Nat} (fd : Nat) : Reached s → n ∉ s.listPending →
    Reached (s.fdeventInstall n fd)
  | remove {s s' : Fdevents} {n : Nat} : Reached s → s.fdeventRemove n = some s' → Reached s'
  | set {s : Fdevents} (n : Nat) (events : BitVec 16) : Reached s → Reached (s.fdeventSet n events)
  | add {s : Fdevents} (n : Nat) (events : BitVec 16) : Reached s → Reached (s.fdeventAdd n events)
  | del {s : Fdevents} (n : Nat) (events : BitVec 16) : Reached s → Reached (s.fdeventDel n events)
  | process {s s' : Fdevents} {fd : Nat} {events : BitVec 16} : Reached s → events ≠ 0 →
    s.fdeventProcess fd events = some s' → Reached s'
  /-- `fdevent_loop` takes the first node from the list. -/
  | call {s : Fdevents} {n : Nat} {l : List Nat} : Reached s → s.listPending = n :: l →
    Reached (fdeventCallFdfunc { s with listPending := l } n).2
  | exited {s : Fdevents} (n : Nat) : Reached s → Reached (s.subprocExited n)

structure Inv (s : Fdevents) : Prop where
  listed : ∀ n, n ∈ s.listPending ↔ (s.node n).pending = true
  nodup : s.listPending.Nodup
  events : ∀ n, (s.node n).pending = true → (s.node n).events ≠ 0

variable {s s' : Fdevents} {n : Nat} {fde : FdeNode} {l : List Nat} {events : BitVec 16}

section

variable (h : Inv s) (ht : s'.node = update s.node n fde)
include h ht

theorem Inv.step (hl : ∀ m, m ∈ s'.listPending ↔ if m = n then fde.pending = true else m ∈ s.listPending)
    (hd : s'.listPending.Nodup) (he : fde.pending = true → fde.events ≠ 0) : Inv s' := by
  refine ⟨fun m => ?_, hd, fun m => ?_⟩
  · rw [hl, ht, update_apply]
    split_ifs
    · rfl
    · exact h.listed m
  · rw [ht, update_apply]
    split_ifs
    · exact he
    · exact h.events m

theorem Inv.keep (hl : s'.listPending = s.listPending) (hp : fde.pending = (s.node n).pending)
    (he : fde.pending = true → fde.events ≠ 0) : Inv s' := by
  refine h.step ht (fun m => ?_) (hl ▸ h.nodup) he
  rw [hl]
  split_ifs with hm
  · rw [hm, hp, h.listed]
  · rfl

theorem Inv.drop (hl : s'.listPending = s.listPending.erase n) (hp : fde.pending = false) : Inv s' := by
  refine h.step ht (fun m => ?_) (hl ▸ h.nodup.erase n) (by simp [hp])
  rw [hl, h.nodup.mem_erase_iff, hp]
  split_ifs with hm <;> simp [hm]

end

theorem Inv.set (h : Inv s) (n : Nat) (events : BitVec 16) : Inv (s.fdeventSet n events) := by
  unfold fdeventSet
  dsimp only
  split_ifs with hsame hp hrest
  · exact h
  · exact h.drop rfl rfl rfl
  · exact h.keep rfl rfl rfl fun _ => hrest
  · exact h.keep rfl rfl rfl (h.events n)

theorem Inv.remove (h : Inv s) (hr : s.fdeventRemove n = some s') : Inv s' := by
  have hnode : s'.node = update s.node n ⟨(s.node n).fd, false, false, 0, 0⟩ ∧
      s'.listPending = if (s.node n).pending then s.listPending.erase n else s.listPending := by
    unfold fdeventRemove at hr
    dsimp only at hr
    split_ifs at hr ⊢ <;> cases hr <;> exact ⟨rfl, rfl⟩
  split_ifs at hnode with hp
  · exact h.drop hnode.1 hnode.2 rfl
  · exact h.keep hnode.1 hnode.2 (by simpa using hp) (by simp)

theorem Inv.process {fd : Nat} (h : Inv s) (he : events ≠ 0) (hr : s.fdeventProcess fd events = some s') :
    Inv s' := by
  obtain ⟨n, -, rfl⟩ := Option.map_eq_some_iff.1 hr
  have hne : (s.node n).events ||| events ≠ 0 := fun h => he (BitVec.or_eq_zero_iff.1 h).2
  dsimp only
  split_ifs with hp
  · exact h.keep rfl rfl hp.symm fun _ => hne
  · have hn : n ∉ s.listPending := (h.listed n).not.2 hp
    refine h.step rfl (fun m => ?_) (h.nodup.append (nodup_singleton n) (by simpa using hn)) fun _ => hne
    simp only [fdeventPlistEnqueue, put]
    split_ifs with hm <;> simp [hm]

theorem Reached.inv (h : Reached s) : Inv s := by
  induction h with
  | init => exact ⟨by simp [initial], nodup_nil, by simp [initial]⟩
  | @install s n fd _ hn ih =>
    exact ih.keep rfl rfl (by simpa using (ih.listed n).not.1 hn) (by simp)
  | remove _ hr ih => exact ih.remove hr
  | set n events _ ih => exact ih.set n events
  | add n events _ ih => exact ih.set n _
  | del n events _ ih => exact ih.set n _
  | process _ he hr ih => exact ih.process he hr
  | call _ hl ih => exact ih.drop rfl (by simp [hl, fdeventCallFdfunc, put]) rfl
  | @exited s n _ ih =>
    unfold subprocExited
    dsimp only
    split_ifs with hp
    · exact ih.keep rfl rfl hp.symm fun _ h => by simpa using (BitVec.or_eq_zero_iff.1 h).2
    · exact ih.keep (update_idem ..) rfl (by simpa using hp) (by simp)

theorem eq_zero_of_and_not {x m : BitVec 16} (h : x &&& ~~~m = x &&& m) : x = 0 := by
  ext i hi
  have := congrArg (fun y : BitVec 16 => y[i]) h
  simp at this ⊢
  cases hx : x[i] <;> simp_all

/-- Of the pending events, a change of interest leaves those that are still wanted. -/
def Filters (s : Fdevents) (n : Nat) (ev : BitVec 16) : Prop :=
  ((s.fdeventSet n ev).node n).events = (s.node n).events &&& (ev &&& fdeEventmask)

/-- The list and the bits agree. The events of a pending node are filtered only if there is no change of
interest and all of them are wanted. -/
theorem fdevent_pending (h : Reached s) :
    (∀ n, n ∈ s.listPending ↔ (s.node n).pending = true) ∧
    ∀ n ∈ s.listPending, ∀ ev, s.Filters n ev ↔ (s.node n).interest = ev &&& fdeEventmask ∧
      (s.node n).events = (s.node n).events &&& (s.node n).interest := by
  refine ⟨h.inv.listed, fun n hn ev => ?_⟩
  have hp := (h.inv.listed n).1 hn
  unfold Filters fdeventSet
  dsimp only
  by_cases hsame : (s.node n).interest = ev &&& fdeEventmask
  · rw [if_pos hsame, ← hsame]
    exact (and_iff_right rfl).symm
  · have hrest : (s.node n).events &&& ~~~(ev &&& fdeEventmask) ≠
        (s.node n).events &&& (ev &&& fdeEventmask) := fun heq => h.inv.events n hp (eq_zero_of_and_not heq)
    refine iff_of_false ?_ fun h => hsame h.1
    split_ifs <;> simpa [put] using hrest

/-- A node that waits for reading and writing, with data to read. -/
def readable : Fdevents :=
  (((initial.fdeventInstall 0 5).fdeventSet 0 3).fdeventProcess 5 1).getD initial

theorem readable_reached : Reached readable :=
  .process (.set 0 3 (.install (n := 0) 5 .init (by simp [initial]))) (by decide)
    (rfl : fdeventProcess _ 5 1 = _)

theorem readable_pending : 0 ∈ readable.listPending ∧ readable.Filters 0 3 :=
  ⟨by decide, ((fdevent_pending readable_reached).2 0 (by decide) 3).2 ⟨by decide, by decide⟩⟩

/-- When it waits for reading only, it is not told of the data; when for writing only, it is. -/
theorem readable_inverted : Reached readable ∧ (readable.fdeventSet 0 1).listPending = [] ∧
    ((readable.fdeventSet 0 2).fdeventCallFdfunc 0).1 = some 1 :=
  ⟨readable_reached, rfl, rfl⟩

end Fdevents

end AndroidSystem.Adb
