import Mathlib.Data.List.Basic

/-!
# Waiting for a kill

A model of the memory pressure handler of `lmkd.c` and of the commands that change what it reads.
`kill_lasttime` is to make the handler wait after a kill. It is reset when a process is removed, but
nothing sets it, so that it is always 0 and the handler never waits.
-/

namespace AndroidSystem.Lmkd

open List

def killTimeout : Int := 2
def oomDisable : Int := -17
def oomAdjustMax : Int := 15
def maxTargets : Nat := 6

structure Proc where
  pid : Int
  oomadj : Int

/-- The processes of all slots, the last one slotted first, and `lowmem_minfree` with `lowmem_adj`. -/
structure State where
  procs : List Proc := []
  targets : List (Int × Int) := []
  killLasttime : Int := 0

/-- What `proc_get_name`, `proc_get_size` and `kill` say of a process. -/
structure Answer where
  named : Bool
  size : Int
  killed : Bool

/-- A memory pressure event: the time, how often `/proc/zoneinfo` cannot be read, what it says of free
and of cached memory, and what is found of each process. None is looked at twice. -/
structure Pressure where
  now : Int
  failures : Nat
  free : Int
  file : Int
  answer : Int → Answer

/-! ### Commands -/

def pidRemove (procs : List Proc) (pid : Int) : List Proc := procs.eraseP (·.pid = pid)

def cmdProcprio (s : State) (pid oomadj : Int) : State :=
  if oomadj < oomDisable ∨ oomadj > oomAdjustMax then s
  else { s with procs := { pid, oomadj } :: pidRemove s.procs pid }

def cmdProcremove (s : State) (pid : Int) : State :=
  { s with procs := pidRemove s.procs pid, killLasttime := 0 }

def cmdTarget (s : State) (targets : List (Int × Int)) : State :=
  if targets.length > maxTargets then s else { s with targets }

/-! ### Memory pressure -/

section

variable (answer : Int → Answer) (targets : List (Int × Int))

def procAdjLru (procs : List Proc) (oomadj : Int) : Option Proc :=
  (procs.filter (·.oomadj = oomadj)).getLast?

/-- The size of the process, or -1 if it is not killed. It is removed in any case. -/
def killOneProcess (a : Answer) : Int :=
  if !a.named then -1 else if a.size ≤ 0 then -1 else if a.killed then a.size else -1

/-- The second loop of `find_and_kill_process`, with `goto retry`. A round leaves out a slot or a
process, so that `n` is at least the number of both. The result is a killed process and its size. -/
def killLoop : Nat → List Int → List Proc → List Proc × Option (Int × Int)
  | n + 1, i :: slots, procs =>
    match procAdjLru procs i with
    | none => killLoop n slots procs
    | some proc =>
      let procs := pidRemove procs proc.pid
      let killedSize := killOneProcess (answer proc.pid)
      if killedSize < 0 then killLoop n (i :: slots) procs
      else (procs, some (proc.pid, killedSize))
  | _, _, procs => (procs, none)

def findAndKillProcess (procs : List Proc) (otherFree otherFile : Int) :
    List Proc × Option (Int × Int) :=
  match targets.find? fun t => otherFree < t.1 && otherFile < t.1 with
  | none => (procs, none)
  | some t =>
    let slots := (range (oomAdjustMax + 1 - t.2).toNat).map fun k : Nat => oomAdjustMax - k
    killLoop answer (slots.length + procs.length) slots procs

/-- The first loop of `mp_event`, with the processes that it kills. -/
def killBlindly : Nat → List Proc → List Proc × List Int
  | 0, procs => (procs, [])
  | failures + 1, procs =>
    let r := findAndKillProcess answer targets procs 0 0
    let r' := killBlindly failures r.1
    (r'.1, (r.2.map (·.1)).toList ++ r'.2)

/-- The second loop. There is a process less after each round but the last. -/
def killWhileShort : Nat → List Proc → Int → Int → List Proc × List Int
  | 0, procs, _, _ => (procs, [])
  | n + 1, procs, otherFree, otherFile =>
    match findAndKillProcess answer targets procs otherFree otherFile with
    | (procs, none) => (procs, [])
    | (procs, some (pid, killedSize)) =>
      let r := killWhileShort n procs (otherFree + killedSize) (otherFile + killedSize)
      (r.1, pid :: r.2)

end

/-- What `mp_event` does if it does not have to wait. -/
def relieve (s : State) (p : Pressure) : State × List Int :=
  let r := killBlindly p.answer s.targets p.failures s.procs
  let r' := killWhileShort p.answer s.targets (r.1.length + 1) r.1 p.free p.file
  ({ s with procs := r'.1 }, r.2 ++ r'.2)

def mpEvent (s : State) (p : Pressure) : State × List Int :=
  if p.now - s.killLasttime < killTimeout then (s, []) else relieve s p

/-! ### Runs -/

/-- The states of a run, with the times of the kills since the last `PROCREMOVE`. -/
inductive Reached : State → List Int → Prop
  | init : Reached {} []
  | pressure {s kills} (h : Reached s kills) (p : Pressure) :
    Reached (mpEvent s p).1 (if (mpEvent s p).2 = [] then kills else p.now :: kills)
  | procprio {s kills} (h : Reached s kills) (pid oomadj : Int) :
    Reached (cmdProcprio s pid oomadj) kills
  | procremove {s kills} (h : Reached s kills) (pid : Int) : Reached (cmdProcremove s pid) []
  | target {s kills} (h : Reached s kills) (targets : List (Int × Int)) :
    Reached (cmdTarget s targets) kills

/-- An event kills nothing while a kill is too recent. -/
def Waits (s : State) (kills : List Int) (p : Pressure) : Prop :=
  (∃ t ∈ kills, p.now - t < killTimeout) → (mpEvent s p).2 = []

theorem Reached.killLasttime {s : State} {kills : List Int} (h : Reached s kills) :
    s.killLasttime = 0 := by
  induction h with
  | init => rfl
  | pressure _ p ih =>
    rw [mpEvent]
    split_ifs <;> exact ih
  | procprio _ pid oomadj ih =>
    rw [cmdProcprio]
    split_ifs <;> exact ih
  | procremove => rfl
  | target _ targets ih =>
    rw [cmdTarget]
    split_ifs <;> exact ih

/-! ### What is there to kill -/

def Answer.Killable (a : Answer) : Prop := a.named ∧ 0 < a.size ∧ a.killed

section

variable (answer : Int → Answer) (targets : List (Int × Int))

/-- The processes that could be killed are the same. -/
def SameKillable (procs procs' : List Proc) : Prop :=
  ∀ q, (answer q.pid).Killable → (q ∈ procs ↔ q ∈ procs')

theorem SameKillable.trans {answer : Int → Answer} {a b c : List Proc}
    (h : SameKillable answer a b) (h' : SameKillable answer b c) : SameKillable answer a c :=
  fun q hq => (h q hq).trans (h' q hq)

end

end AndroidSystem.Lmkd
