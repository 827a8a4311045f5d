import AndroidSystem.Logd.LogBuffer
import Mathlib.Data.List.DropRight

/-!
# Readers of the log

A model of `LogTimes.cpp`, of `flushTo` and `log` of `LogBuffer.cpp`, and of the threads together. What a
thread does while it holds `mLogElementsLock` is one step. A message gets its sequence number before its
writer takes the lock, and a reader sends an element without the lock.

The number of threads is the reference count of an entry. `sent`, `skipped`, `arrived` (what was logged
since the entry is there) and `owed` (the notifications that writers still have to give) are not in the
source, and neither is the trace.
-/

namespace AndroidSystem.Logd

open List

/-! ## Entries of `mTimes` -/

/-- Where the thread of a reader is: there is none, at the head of its loop, before the second pass,
sending an element, behind a round, or waiting. -/
inductive Place where
  | stopped
  | top
  | second (start : Nat)
  | sending (e : LogBufferElement) (start : Nat)
  | flushed
  | waiting
  deriving DecidableEq

structure LogTimeEntry where
  client : Nat
  uid : Nat
  privileged : Bool
  nonBlock : Bool
  tail : Nat
  watching : LogId → Bool
  pid : Nat
  start : Nat
  endSequence : Nat
  release : Bool := false
  error : Bool := false
  leadingDropped : Bool := true
  skipAhead : LogId → Nat := fun _ => 0
  count : Nat := 0
  index : Nat := 0
  place : Place := .top
  sent : List LogBufferElement := []
  skipped : List LogBufferElement := []
  arrived : List LogBufferElement := []
  owed : Nat := 0

namespace LogTimeEntry

section

variable (t : LogTimeEntry)

def owned : Bool := t.place ≠ .stopped

def isError : Bool := t.release || t.error

/-- What a reader asked for. -/
def wants (e : LogBufferElement) : Bool :=
  t.watching e.logId && (t.pid == 0 || t.pid == e.pid)

def filterFirstPass (e : LogBufferElement) : LogTimeEntry :=
  if t.leadingDropped ∧ e.getDropped ≠ 0 then t
  else
    { t with
      leadingDropped := false
      start := if t.count = 0 then e.sequence else t.start
      count := if t.wants e then t.count + 1 else t.count }

end

inductive Verdict where
  | send
  | skip
  | stop

/-- `FilterSecondPass`, behind the checks for elements to skip ahead and for leading drops -/
def filterTail (t : LogTimeEntry) (e : LogBufferElement) : LogTimeEntry × Verdict :=
  if t.nonBlock ∧ t.tail ≠ 0 ∧ t.count ≤ t.index then (t, .stop)
  else if t.wants e = false then (t, .skip)
  else if t.isError then (t, .stop)
  else if t.tail = 0 then (t, .send)
  else
    let t := { t with index := t.index + 1 }
    if t.tail < t.count ∧ t.index ≤ t.count - t.tail then ({ t with skipped := e :: t.skipped }, .skip)
    else ({ t with tail := if t.nonBlock then t.tail else 0 }, .send)

def filterSecondPass (t : LogTimeEntry) (e : LogBufferElement) : LogTimeEntry × Verdict :=
  let t := { t with start := e.sequence }
  if t.skipAhead e.logId ≠ 0 then
    ({ t with
      skipAhead := Function.update t.skipAhead e.logId (t.skipAhead e.logId - 1)
      skipped := e :: t.skipped }, .skip)
  else if t.leadingDropped ∧ e.getDropped ≠ 0 then (t, .skip)
  else filterTail { t with leadingDropped := false } e

/-- The elements `flushTo` hands to a filter, from the place where it starts on. -/
def visits (t : LogTimeEntry) (start : Nat) (e : LogBufferElement) : Bool :=
  (t.privileged || e.uid == t.uid) && start < e.sequence

/-- `flushTo`, up to the next element that is sent -/
def scan (start : Nat) : List LogBufferElement → LogTimeEntry → LogTimeEntry
  | [], t => { t with place := .flushed }
  | e :: rest, t =>
    if t.visits start e then
      match t.filterSecondPass e with
      | (t, .skip) => scan start rest t
      | (t, .stop) => { t with place := .flushed }
      | (t, .send) => { t with place := .sending e start }
    else scan start rest t

end LogTimeEntry

/-- Where `flushTo` starts: behind the last element with a number that is not above `start`. -/
def flushFrom (start : Nat) (elements : List LogBufferElement) : List LogBufferElement :=
  if start ≤ 1 then elements else elements.rtakeWhile (start < ·.sequence)

/-- One step of the thread of a reader, with the result of the call that sends an element. There is no
entry left when the thread ends. -/
def LogTimeEntry.next (elements : List LogBufferElement) (ok : Bool) (t : LogTimeEntry) :
    Option LogTimeEntry :=
  match t.place with
  | .stopped | .waiting => some t
  | .top =>
    if t.isError then none
    else if t.tail = 0 then some { t with place := .second t.start }
    else
      let visited := (flushFrom t.start elements).filter (t.visits t.start)
      some { visited.foldl filterFirstPass t with place := .second t.start, leadingDropped := true }
  | .second start => some (t.scan start (flushFrom start elements))
  | .sending e start =>
    let rest := (elements.dropWhile (·.sequence ≠ e.sequence)).tail
    if ok then some ({ t with sent := e :: t.sent }.scan start rest)
    else some { t with error := true, place := .flushed }
  | .flushed =>
    if t.nonBlock ∨ t.isError then none else some { t with skipAhead := fun _ => 0, place := .waiting }

/-- A new entry, with what the client gave and whether a thread could be started. -/
def LogTimeEntry.fresh (t : LogTimeEntry) (sequence : Nat) : LogTimeEntry :=
  { client := t.client, uid := t.uid, privileged := t.privileged, nonBlock := t.nonBlock, tail := t.tail,
    watching := t.watching, pid := t.pid, start := t.start, endSequence := sequence,
    place := if t.place = .stopped then .stopped else .top }

/-- A signal: a waiting thread goes on. -/
def LogTimeEntry.trigger (t : LogTimeEntry) : LogTimeEntry :=
  if t.place = .waiting then { t with place := .top } else t

/-- `FlushCommand::runSocketCommand` of a client that has an entry -/
def LogTimeEntry.notify (t : LogTimeEntry) : LogTimeEntry :=
  let t := { t.trigger with owed := t.owed - 1 }
  if t.place = .stopped ∧ t.isError = false ∧ t.nonBlock = false then
    { t with place := .top, leadingDropped := true }
  else t

/-! ## The threads together -/

def slower (id : LogId) (oldest : Option LogTimeEntry) (t : LogTimeEntry) : Option LogTimeEntry :=
  if t.owned ∧ t.watching id ∧ oldest.all (t.start < ·.start) then some t else oldest

/-- The slowest reader of a log. -/
def oldest (id : LogId) (times : List LogTimeEntry) : Option LogTimeEntry := times.foldl (slower id) none

/-- The first sequence number that may not be pruned. -/
def regionLock (id : LogId) (times : List LogTimeEntry) : Option Nat := (oldest id times).map (·.start)

/-- What a reader is asked for by `prune`. -/
def LogTimeEntry.asked (id : LogId) (t : LogTimeEntry) : Ask → LogTimeEntry
  | .release => { t with release := true }.trigger
  | .skip rows => { t with skipAhead := Function.update t.skipAhead id (u32 rows) }

structure System where
  buffer : LogBuffer
  times : List LogTimeEntry
  sequence : Nat
  pending : List LogBufferElement
  trace : List Event

/-- The entry of a client does something. -/
def onClient (c : Nat) (f : LogTimeEntry → Option LogTimeEntry) (times : List LogTimeEntry) :
    List LogTimeEntry :=
  times.filterMap fun t => if t.client = c then f t else some t

/-- A call of `prune` is over. -/
def System.pruned (s : System) (id : LogId) (p : Pass) : System :=
  { s with
    buffer := p.buffer
    trace := s.trace ++ p.trace
    times := match oldest id s.times, p.ask with
      | some o, some ask => onClient o.client (fun t => some (t.asked id ask)) s.times
      | _, _ => s.times }

/-- Where `log` puts an element: before the later ones, but not before one that a reader may have. -/
def place (times : List LogTimeEntry) (e : LogBufferElement) (elements : List LogBufferElement) :
    List LogBufferElement :=
  let later := elements.rtakeWhile fun x => e.realTime.lt x.realTime
  if later.head?.all fun last => times.any fun t => t.owned && (!t.nonBlock || last.sequence ≤ t.endSequence)
  then elements ++ [e]
  else elements.rdropWhile (fun x => e.realTime.lt x.realTime) ++ e :: later

def LogBuffer.insert (times : List LogTimeEntry) (e : LogBufferElement) (b : LogBuffer) : LogBuffer :=
  { b with logElements := place times e b.logElements, stats := b.stats.add e }

inductive Action where
  | construct (id : LogId) (uid pid tid : Nat) (realTime : LogTime) (len : Nat)
  | refuse (e : LogBufferElement)
  | log (env : Settings) (e : LogBufferElement)
  | prune (env : Settings) (id : LogId) (rows uid : Nat)
  | register (t : LogTimeEntry)
  | notify (client : Nat)
  | reader (client : Nat) (ok : Bool)

/-- A message that was given its number is put into the list. -/
def System.log (s : System) (env : Settings) (e : LogBufferElement) : System :=
  let b := s.buffer.insert s.times e
  let p := maybePrune env e.logId (regionLock e.logId s.times) b
  { s.pruned e.logId p with
    pending := s.pending.erase e
    times := (s.pruned e.logId p).times.map fun t =>
      { t with owed := t.owed + 1, arrived := e :: t.arrived } }

def System.step (s : System) : Action → System
  | .construct id uid pid tid realTime len =>
    { s with
      sequence := s.sequence + 1
      pending := ⟨id, uid, pid, tid, s.sequence, realTime, .msg len⟩ :: s.pending }
  | .refuse e =>
    if e ∈ s.pending then
      { s with
        pending := s.pending.erase e
        buffer := { s.buffer with stats := (s.buffer.stats.add e).subtract e } }
    else s
  | .log env e => if e ∈ s.pending then s.log env e else s
  | .prune env id rows uid =>
    s.pruned id (prunePass env id (regionLock id s.times) uid (s.buffer.pass rows))
  | .register t =>
    if s.times.any (·.client = t.client) then s else { s with times := t.fresh s.sequence :: s.times }
  | .notify c => { s with times := onClient c (fun t => some t.notify) s.times }
  | .reader c ok => { s with times := onClient c (·.next s.buffer.logElements ok) s.times }

/-- The messages are of certain lengths. -/
def Action.Length (P : Nat → Prop) : Action → Prop
  | .construct _ _ _ _ _ len => P len
  | _ => True

def System.run (s : System) (actions : List Action) : System := actions.foldl System.step s

/-- The system before the first message. -/
def initial (enable : Bool) : System where
  buffer := ⟨[], ⟨fun _ => 0, fun _ => 0, fun _ _ => none, fun _ => none, fun _ => none, enable⟩,
    fun _ _ => none⟩
  times := []
  sequence := 1
  pending := []
  trace := []

theorem place_eq (times : List LogTimeEntry) (e : LogBufferElement) (elements : List LogBufferElement) :
    ∃ a r, elements = a ++ r ∧ place times e elements = a ++ e :: r := by
  rw [place]
  split_ifs
  · exact ⟨elements, [], (append_nil _).symm, rfl⟩
  · exact ⟨_, _, rdropWhile_append_rtakeWhile.symm, rfl⟩

/-- An invariant of the steps holds in a run. -/
theorem run_keeps {I : System → Prop} {P : Action → Prop} (hstep : ∀ s a, P a → I s → I (s.step a))
    {s : System} (hs : I s) {actions : List Action} (hactions : ∀ a ∈ actions, P a) :
    I (s.run actions) := by
  induction actions generalizing s with
  | nil => exact hs
  | cons a actions ih =>
    exact ih (hstep s a (hactions a mem_cons_self) hs) fun x hx => hactions x (mem_cons_of_mem _ hx)

end AndroidSystem.Logd
