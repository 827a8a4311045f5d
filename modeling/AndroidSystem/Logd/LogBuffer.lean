import AndroidSystem.Lib.Machine

/-!
# The log buffer of logd

A model of `LogBuffer.cpp`, `LogBufferElement.h` and `LogStatistics`: the elements of all logs in one
list, the counters over them, and `prune`, which expires the oldest elements of one log. An element of
the worst offender in the middle of the log is not erased but becomes a `chatty` element, which only
counts how many messages were dropped, and such elements are merged.

The list is in two parts while a loop runs over it, the elements before the iterator and the rest. A
pointer in the map of the last chatty elements is a place in the first part, and the remembered iterators
of `mLastWorstUid` are sequence numbers. What a call does to the elements is listed in `trace`, which the
source does not have. Counters wrap below zero but not above. Lists of names, the table of tags and the
totals are left out.
-/

namespace AndroidSystem.Logd

open Function

inductive LogId where
  | main
  | radio
  | events
  | system
  | crash
  | kernel
  deriving DecidableEq

/-! ## Elements -/

structure LogTime where
  sec : Nat
  nsec : Nat
  deriving DecidableEq

/-- A message with its length, or how many messages were dropped. -/
inductive Content where
  | msg (len : Nat)
  | dropped (count : Nat)
  deriving DecidableEq

structure LogBufferElement where
  logId : LogId
  uid : Nat
  pid : Nat
  tid : Nat
  sequence : Nat
  realTime : LogTime
  content : Content
  deriving DecidableEq

namespace LogBufferElement

variable (e : LogBufferElement)

def getDropped : Nat :=
  match e.content with
  | .msg _ => 0
  | .dropped count => count

def getMsgLen : Nat :=
  match e.content with
  | .msg len => len
  | .dropped _ => 0

def setDropped (value : Nat) : LogBufferElement :=
  { e with content := .dropped value }

/-- `LogBufferElementKey`: the low 16 bits of each number. -/
def key : Nat × Nat × Nat := (u16 e.uid, u16 e.pid, u16 e.tid)

end LogBufferElement

namespace LogTime

def lt (a b : LogTime) : Bool := a.sec < b.sec || (a.sec == b.sec && a.nsec < b.nsec)

def nsecs (a : LogTime) : Nat := a.sec * 1000000000 + a.nsec

/-- A day before, but not before the epoch. -/
def dayBefore (a : LogTime) : LogTime := if LogTime.lt ⟨86400, 0⟩ a then ⟨a.sec - 86400, a.nsec⟩ else ⟨0, 0⟩

end LogTime

/-! ## Statistics -/

/-- A difference of `size_t`. -/
def sub64 (a b : Nat) : Nat := if b ≤ a then a - b else a + 2 ^ 64 - b

/-- `EntryBaseDropped` -/
@[ext] structure Entry where
  size : Nat
  dropped : Nat
  deriving DecidableEq

/-- `LogHashtable` -/
abbrev Table : Type := Nat → Option Entry

namespace Table

variable (t : Table) (key : Nat) (e : LogBufferElement)

def add : Table :=
  let old := (t key).getD ⟨0, 0⟩
  update t key (some ⟨old.size + e.getMsgLen, old.dropped + e.getDropped⟩)

def subtract : Table :=
  match t key with
  | none => t
  | some old =>
    let new : Entry := ⟨sub64 old.size e.getMsgLen, sub64 old.dropped e.getDropped⟩
    update t key (if new.size = 0 ∧ new.dropped = 0 then none else some new)

def drop : Table :=
  match t key with
  | none => t
  | some old => update t key (some ⟨sub64 old.size e.getMsgLen, old.dropped + 1⟩)

end Table

structure LogStatistics where
  sizes : LogId → Nat
  elements : LogId → Nat
  uidTable : LogId → Table
  pidTable : Table
  tidTable : Table
  enable : Bool

namespace LogStatistics

variable (s : LogStatistics)

/-- The tables that an element of a log is counted in. -/
def tables (f : Table → Nat → Table) (e : LogBufferElement) : LogStatistics :=
  let s := { s with uidTable := update s.uidTable e.logId (f (s.uidTable e.logId) e.uid) }
  if s.enable then { s with pidTable := f s.pidTable e.pid, tidTable := f s.tidTable e.tid } else s

section

variable (e : LogBufferElement)

def add : LogStatistics :=
  let s := { s with
    sizes := update s.sizes e.logId (s.sizes e.logId + e.getMsgLen)
    elements := update s.elements e.logId (s.elements e.logId + 1) }
  if e.logId = .kernel then s else s.tables (fun t key => t.add key e) e

def subtract : LogStatistics :=
  let s := { s with
    sizes := update s.sizes e.logId (sub64 (s.sizes e.logId) e.getMsgLen)
    elements := update s.elements e.logId (sub64 (s.elements e.logId) 1) }
  if e.logId = .kernel then s else s.tables (fun t key => t.subtract key e) e

/-- The log of the kernel is no exception here. -/
def drop : LogStatistics :=
  let s := { s with
    sizes := update s.sizes e.logId (sub64 (s.sizes e.logId) e.getMsgLen) }
  s.tables (fun t key => t.drop key e) e

def erase : LogStatistics :=
  { s with elements := update s.elements e.logId (sub64 (s.elements e.logId) 1) }

end

end LogStatistics

/-! ## The loops of `prune` -/

/-- Settings, and what a call cannot know: the order of a hash table in each pass, and what is read from
an element that was just freed, its uid and its length. -/
structure Settings where
  maxSize : LogId → Nat
  hasBlacklist : Bool
  hasWhitelist : Bool
  worstUidEnabled : Bool
  naughty : Nat → Nat → Bool
  nice : Nat → Nat → Bool
  uidOrder : Nat → List Nat
  freed : LogBufferElement → Nat × Nat

/-- What is done to an element: it is erased, merged into another one, or dropped. -/
inductive Event where
  | erased (e : LogBufferElement)
  | merged (e into : LogBufferElement)
  | dropped (e : LogBufferElement)
  deriving DecidableEq

/-- What the slowest reader is asked for. -/
inductive Ask where
  | release
  | skip (rows : Nat)
  deriving DecidableEq

/-- The last chatty elements but those that are ten seconds older than `e`. -/
def recent (e : LogBufferElement) (before : List LogBufferElement)
    (last : Nat × Nat × Nat → Option Nat) : Nat × Nat × Nat → Option Nat :=
  let current := sub64 e.realTime.nsecs 10000000000
  fun k => (last k).filter fun i =>
    !(before[i]?.any fun l => 10 ≤ l.getDropped && l.realTime.nsecs < current)

/-- The state of a loop. -/
structure Pass where
  before : List LogBufferElement
  stats : LogStatistics
  lastWorstUid : LogId → Nat → Option Nat
  pruneRows : Nat
  last : Nat × Nat × Nat → Option Nat
  leading : Bool
  kick : Bool
  worstSizes : Nat
  whitelist : Bool
  ask : Option Ask
  trace : List Event

namespace Pass

variable (p : Pass)

section

variable (e : LogBufferElement)

/-- Go on to the next element. -/
def keep : Pass := { p with before := p.before ++ [e] }

def setLastWorst (id : LogId) (uid : Nat) (it : Option Nat) : Pass :=
  let m := update (p.lastWorstUid id) uid it
  { p with lastWorstUid := update p.lastWorstUid id m }

/-- An element that is erased is no longer remembered. -/
def forget : Pass :=
  if p.lastWorstUid e.logId e.uid = some e.sequence then p.setLastWorst e.logId e.uid none else p

def erase : Pass :=
  { p.forget e with stats := p.stats.subtract e, trace := p.trace ++ [.erased e] }

/-- `erase` without the statistics of the element. -/
def eraseMerged : Pass :=
  { p.forget e with stats := p.stats.erase e }

def merge (dropped : Nat) : Pass × Bool :=
  match p.last e.key with
  | none => (p, false)
  | some i =>
    match p.before[i]? with
    | none => (p, false)
    | some l =>
      if dropped + l.getDropped > 65535 then
        ({ p with last := update p.last e.key none }, false)
      else
        ({ p with
            before := p.before.set i (l.setDropped (dropped + l.getDropped))
            trace := p.trace ++ [.merged e l] }, true)

def addLast : Pass :=
  { p with last := update p.last e.key (some p.before.length) }

/-- `LogBufferElementLast::clear` of an element -/
def clearLast : Pass := { p with last := recent e p.before p.last }

end

def decRows : Pass := { p with pruneRows := p.pruneRows - 1 }

end Pass

/-- What stays fixed in a pass of the first loop: the log, the region lock, the worst offender with the
size it may go down to, whether this is a garbage collection, and the time of the last element. -/
structure Worst where
  id : LogId
  oldest : Option Nat
  worst : Nat
  second : Nat
  gc : Bool
  lastTime : LogTime

/-- `(uid_t) -1` -/
def noUid : Nat := 2 ^ 32 - 1

/-- The end of a round that dropped or erased a message of the worst offender. -/
def leaveWorst (w : Worst) (p : Pass) (len : Nat) : Pass × Bool :=
  if p.worstSizes < w.second then (p, true)
  else ({ p with worstSizes := sub64 p.worstSizes len }, false)

section

variable (env : Settings)

/-- A blacklisted element. -/
def pruneNaughty (w : Worst) (e : LogBufferElement) (p : Pass) : Pass × Bool :=
  let p := (p.clearLast e).erase e
  if e.getDropped ≠ 0 then (p, false)
  else if p.decRows.pruneRows = 0 then (p.decRows, true)
  else if (env.freed e).1 = w.worst then leaveWorst w { p.decRows with kick := true } (env.freed e).2
  else (p.decRows, false)

/-- A message of the worst offender becomes a chatty element. -/
def dropElement (w : Worst) (e : LogBufferElement) (p : Pass) : Pass :=
  let p := { p with stats := p.stats.drop e, trace := p.trace ++ [Event.dropped e] }
  let e := e.setDropped 1
  let m := p.merge e 1
  if m.2 then m.1.eraseMerged e
  else
    let p := m.1.addLast e
    let p := if w.gc = false ∨ p.lastWorstUid w.id w.worst = none then
      p.setLastWorst w.id w.worst (some e.sequence) else p
    p.keep e

/-- A message of the worst offender. -/
def pruneWorst (w : Worst) (e : LogBufferElement) (p : Pass) : Pass × Bool :=
  if p.decRows.pruneRows = 0 then (p.decRows.keep e, true)
  else
    let p := { p.decRows with kick := true }
    leaveWorst w (if p.leading then p.erase e else dropElement w e p) e.getMsgLen

/-- A chatty element that is not merged. -/
def keepDropped (w : Worst) (e : LogBufferElement) (p : Pass) : Pass :=
  let p := p.addLast e
  let p := if (w.gc = false ∧ e.uid = w.worst) ∨ p.lastWorstUid w.id e.uid = none
    then p.setLastWorst w.id e.uid (some e.sequence) else p
  p.keep e

/-- An element of the log that was not merged. -/
def pruneRest (w : Worst) (e : LogBufferElement) (p : Pass) : Pass × Bool :=
  if env.hasBlacklist ∧ env.naughty e.uid e.pid then pruneNaughty env w e p
  else if e.realTime.lt w.lastTime.dayBefore ∨ w.lastTime.lt e.realTime then (p.keep e, true)
  else if e.getDropped ≠ 0 then (keepDropped w e p, false)
  else if e.uid ≠ w.worst then (({ p with leading := false }.clearLast e).keep e, false)
  else pruneWorst w e p

/-- One round of the first loop. The flag says that the loop is left. -/
def pruneElement (w : Worst) (e : LogBufferElement) (p : Pass) : Pass × Bool :=
  if w.oldest.any (· ≤ e.sequence) then (p.keep e, true)
  else if e.logId ≠ w.id then (p.keep e, false)
  else if p.leading ∧ e.getDropped ≠ 0 then (p.erase e, false)
  else
    let m := if e.getDropped ≠ 0 then p.merge e e.getDropped else (p, false)
    if m.2 then (m.1.eraseMerged e, false) else pruneRest env w e m.1

/-- A loop over the elements behind the iterator, until the flag is set. -/
def loop (round : LogBufferElement → Pass → Pass × Bool) : List LogBufferElement → Pass → Pass
  | [], p => p
  | e :: rest, p =>
    if (round e p).2 then { (round e p).1 with before := (round e p).1.before ++ rest }
    else loop round rest (round e p).1

/-- The two largest entries, in the order `sort` finds them. -/
def topTwo (t : Table) : List Nat → Option (Nat × Nat) × Option (Nat × Nat) →
    Option (Nat × Nat) × Option (Nat × Nat)
  | [], top => top
  | uid :: uids, top =>
    match t uid with
    | none => topTwo t uids top
    | some entry =>
      if top.2.all (fun x => x.2 < entry.size) then
        if top.1.all (fun x => x.2 < entry.size) then topTwo t uids (some (uid, entry.size), top.1)
        else topTwo t uids (top.1, some (uid, entry.size))
      else topTwo t uids top

/-- The worst offender, its size, and the size of the second one. -/
def worstOffender (id : LogId) (t : Table) (order : List Nat) : Nat × Nat × Nat :=
  let threshold := env.maxSize id / 8
  if id ≠ .crash ∧ id ≠ .kernel ∧ id ≠ .events ∧ env.worstUidEnabled then
    match topTwo t order (none, none) with
    | (some first, some second) =>
      if first.2 > threshold then (first.1, first.2, max second.2 threshold) else (noUid, first.2, 0)
    | _ => (noUid, 0, 0)
  else (noUid, 0, 0)

/-- The start of a pass: at the remembered element of the worst offender, or at the oldest one. -/
def startPass (w : Worst) (worstSizes : Nat) (p : Pass) : List LogBufferElement × Pass :=
  let p := { p with last := fun _ => none, kick := false, worstSizes }
  match if w.gc = false ∧ w.worst ≠ noUid then p.lastWorstUid w.id w.worst else none with
  | some s =>
    (p.before.dropWhile (·.sequence ≠ s),
      { p with leading := false, before := p.before.takeWhile (·.sequence ≠ s) })
  | none => (p.before, { p with leading := true, before := [] })

/-- What is fixed for a pass, and the size of the worst offender. -/
def passSetup (id : LogId) (oldest : Option Nat) (n : Nat) (p : Pass) : Worst × Nat :=
  let worst := worstOffender env id (p.stats.uidTable id) (env.uidOrder n)
  (⟨id, oldest, worst.1, worst.2.2, p.pruneRows ≤ 1, (p.before.getLast?.map (·.realTime)).getD ⟨0, 0⟩⟩,
    worst.2.1)

/-- The first loop: passes as long as they drop messages of the worst offender. -/
def worstLoop (id : LogId) (oldest : Option Nat) : Nat → Pass → Pass
  | 0, p => p
  | n + 1, p =>
    let w := (passSetup env id oldest n p).1
    if p.pruneRows = 0 ∨ (w.worst = noUid ∧ env.hasBlacklist = false) then p
    else
      let start := startPass w (passSetup env id oldest n p).2 p
      let p := loop (pruneElement env w) start.1 start.2
      if p.kick ∧ env.worstUidEnabled then worstLoop id oldest n p else p

/-- One round of the second loop, and of the third one, which has no whitelist. -/
def expireElement (id : LogId) (oldest : Option Nat) (hasWhitelist : Bool)
    (e : LogBufferElement) (p : Pass) : Pass × Bool :=
  if p.pruneRows = 0 then (p.keep e, true)
  else if e.logId ≠ id then (p.keep e, false)
  else if oldest.any (· ≤ e.sequence) then
    if p.whitelist ∧ hasWhitelist then (p.keep e, true)
    else if p.stats.sizes id > 2 * env.maxSize id then ({ p.keep e with ask := some .release }, true)
    else ({ p.keep e with ask := some (.skip p.pruneRows) }, true)
  else if hasWhitelist ∧ e.getDropped = 0 ∧ env.nice e.uid e.pid then
    ({ p.keep e with whitelist := true }, false)
  else ((p.erase e).decRows, false)

/-- The loop for a caller who may only clear own elements. -/
def clearElement (id : LogId) (oldest : Option Nat) (callerUid : Nat) (e : LogBufferElement) (p : Pass) :
    Pass × Bool :=
  if oldest.any (· ≤ e.sequence) then (p.keep e, true)
  else if e.logId ≠ id then (p.keep e, false)
  else if e.uid = callerUid then
    let p := { p.erase e with pruneRows := sub64 p.pruneRows 1 }
    (p, p.pruneRows = 0)
  else (p.keep e, false)

/-- Start a loop at the oldest element. -/
def fromBegin (round : LogBufferElement → Pass → Pass × Bool) (p : Pass) : Pass :=
  loop round p.before { p with before := [] }

def aidRoot : Nat := 0

/-- `LogBuffer::prune`, with the region lock of the readers. -/
def prunePass (id : LogId) (oldest : Option Nat) (callerUid : Nat) (p : Pass) : Pass :=
  if callerUid ≠ aidRoot then fromBegin (clearElement id oldest callerUid) p
  else
    let p := worstLoop env id oldest p.pruneRows p
    let p := fromBegin (expireElement env id oldest env.hasWhitelist) { p with whitelist := false }
    if p.whitelist ∧ p.pruneRows > 0 then fromBegin (expireElement env id oldest false) p else p

end

/-! ## The buffer -/

structure LogBuffer where
  logElements : List LogBufferElement
  stats : LogStatistics
  lastWorstUid : LogId → Nat → Option Nat

/-- The state in which a call of `prune` starts. -/
def LogBuffer.pass (b : LogBuffer) (pruneRows : Nat) : Pass where
  before := b.logElements
  stats := b.stats
  lastWorstUid := b.lastWorstUid
  pruneRows := pruneRows
  last _ := none
  leading := false
  kick := false
  worstSizes := 0
  whitelist := false
  ask := none
  trace := []

def Pass.buffer (p : Pass) : LogBuffer := ⟨p.before, p.stats, p.lastWorstUid⟩

/-- `maybePrune`: how many rows are pruned if a log is over its limit. -/
def rowsToPrune (env : Settings) (id : LogId) (s : LogStatistics) : Option Nat :=
  let sizes := s.sizes id
  let maxSize := env.maxSize id
  if sizes > maxSize then
    let sizeOver := sizes - maxSize * 9 / 10
    let elements := s.elements id
    some (min 256 (max (elements / 10) (elements * sizeOver / sizes)))
  else none

def maybePrune (env : Settings) (id : LogId) (oldest : Option Nat) (b : LogBuffer) : Pass :=
  match rowsToPrune env id b.stats with
  | some pruneRows => prunePass env id oldest aidRoot (b.pass pruneRows)
  | none => b.pass 0

end AndroidSystem.Logd
