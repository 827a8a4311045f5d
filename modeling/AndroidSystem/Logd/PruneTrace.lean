import AndroidSystem.Logd.LogBuffer

/-!
# What pruning does

Everything that `prune` does to the elements and the counters is a sequence of three kinds of events, and
its trace is that sequence: an element is erased, it is merged into a chatty element before it, or a
message becomes a chatty element. All of them only touch elements that the call may prune.
-/

namespace AndroidSystem.Logd

open List

variable {id : LogId} {oldest : Option Nat}

variable {round : LogBufferElement → Pass → Pass × Bool}

/-- The elements and the counters. -/
abbrev Contents : Type := List LogBufferElement × LogStatistics

/-- What a call may prune: the log, the region lock, and the user who asks. -/
structure Scope where
  id : LogId
  oldest : Option Nat
  callerUid : Nat

def Scope.Prunable (q : Scope) (e : LogBufferElement) : Prop :=
  e.logId = q.id ∧ (∀ s, q.oldest = some s → e.sequence < s) ∧
    (q.callerUid ≠ aidRoot → e.uid = q.callerUid)

/-- The effect of an event, inside a scope. -/
inductive Does (q : Scope) : Event → Contents → Contents → Prop
  | erased {a r e s} : q.Prunable e → Does q (.erased e) (a ++ e :: r, s) (a ++ r, s.subtract e)
  | merged {a b r e l s} : q.Prunable e → q.Prunable l → l.key = e.key → l.getMsgLen = 0 → e.getMsgLen = 0 →
      e.getDropped + l.getDropped ≤ 65535 →
      Does q (.merged e l) (a ++ l :: (b ++ e :: r), s)
        (a ++ l.setDropped (e.getDropped + l.getDropped) :: (b ++ r), s.erase e)
  | dropped {a r e s} : q.Prunable e → e.getDropped = 0 →
      Does q (.dropped e) (a ++ e :: r, s) (a ++ e.setDropped 1 :: r, s.drop e)

/-- A sequence of events. -/
inductive Runs (q : Scope) (c : Contents) : List Event → Contents → Prop
  | nil : Runs q c [] c
  | snoc {trace c' event c''} : Runs q c trace c' → Does q event c' c'' → Runs q c (trace ++ [event]) c''

/-- A property that all events keep is kept by a run. -/
theorem Runs.keeps {q : Scope} {Q : Contents → Prop} {R : Event → Prop}
    (step : ∀ event c c', R event → Does q event c c' → Q c → Q c') {c c' : Contents}
    {trace : List Event} (h : Runs q c trace c') (htrace : ∀ event ∈ trace, R event) (hc : Q c) :
    Q c' := by
  induction h with
  | nil => exact hc
  | snoc hrun hdoes ih =>
    refine step _ _ _ (htrace _ (mem_append_right _ mem_cons_self)) hdoes (ih ?_)
    intro event hevent
    exact htrace event (mem_append_left _ hevent)

variable {q : Scope} {c : Contents} {e : LogBufferElement} {r : List LogBufferElement}
  {p : Pass}

/-- An invariant of the rounds, between the elements that are left and the state, holds after a loop. -/
theorem loop_keeps {I : List LogBufferElement → Pass → Prop}
    (hround : ∀ e r p, I (e :: r) p → I r (round e p).1)
    (hleave : ∀ r p, I r p → I [] { p with before := p.before ++ r }) (h : I r p) :
    I [] (loop round r p) := by
  induction r generalizing p with
  | nil => exact h
  | cons e rest ih =>
    have hnext := hround e rest p h
    rw [loop]
    split_ifs
    · exact hleave rest _ hnext
    · exact ih hnext

/-- What holds between two rounds of a loop: the trace leads to the elements, and the map of the last
chatty elements points to chatty elements with its keys. -/
structure Good (q : Scope) (c : Contents) (r : List LogBufferElement) (p : Pass) :
    Prop where
  runs : Runs q c p.trace (p.before ++ r, p.stats)
  last : ∀ k i, p.last k = some i → ∃ l, p.before[i]? = some l ∧ q.Prunable l ∧ l.key = k ∧ l.getMsgLen = 0

theorem Good.keep (h : Good q c (e :: r) p) : Good q c r (p.keep e) := by
  refine ⟨by simpa [Pass.keep] using h.runs, ?_⟩
  intro k i hi
  obtain ⟨l, hl, hrest⟩ := h.last k i hi
  exact ⟨l, (getElem?_append_left (List.getElem?_eq_some_iff.1 hl).1).trans hl, hrest⟩

theorem Good.leave (h : Good q c r p) : Good q c [] { p with before := p.before ++ r } := by
  refine ⟨by simpa using h.runs, ?_⟩
  intro k i hi
  obtain ⟨l, hl, hrest⟩ := h.last k i hi
  exact ⟨l, (getElem?_append_left (List.getElem?_eq_some_iff.1 hl).1).trans hl, hrest⟩

theorem Good.erase (h : Good q c (e :: r) p) (he : q.Prunable e) : Good q c r (p.erase e) := by
  have hlast : (p.erase e).last = p.last := by unfold Pass.erase Pass.forget; split_ifs <;> rfl
  have hbefore : (p.erase e).before = p.before := by unfold Pass.erase Pass.forget; split_ifs <;> rfl
  refine ⟨?_, by rw [hlast, hbefore]; exact h.last⟩
  rw [hbefore]
  exact h.runs.snoc (.erased he)

theorem Good.clearLast (h : Good q c r p) (e : LogBufferElement) : Good q c r (p.clearLast e) := by
  refine ⟨h.runs, ?_⟩
  intro k i hi
  exact h.last k i (Option.mem_filter_iff.1 hi).1

section

variable (h : Good q c (e :: r) p) (he : q.Prunable e) (hlen : e.getMsgLen = 0)
include h he hlen

theorem Good.addLast : Good q c r ((p.addLast e).keep e) := by
  refine ⟨h.keep.runs, ?_⟩
  intro k i hi
  rw [Pass.addLast, Pass.keep] at hi ⊢
  by_cases hk : k = e.key
  · subst hk
    simp only [Function.update_self, Option.some.injEq] at hi
    subst hi
    exact ⟨e, by simp, he, rfl, hlen⟩
  · simp only [Function.update_of_ne hk] at hi
    exact h.keep.last k i hi

theorem Good.merge :
    ((p.merge e e.getDropped).2 = true → Good q c r ((p.merge e e.getDropped).1.eraseMerged e)) ∧
    ((p.merge e e.getDropped).2 = false → Good q c (e :: r) (p.merge e e.getDropped).1) := by
  rw [Pass.merge]
  split
  · exact ⟨fun hfalse => absurd hfalse Bool.false_ne_true, fun _ => h⟩
  · rename_i i hi
    obtain ⟨l, hl, hPl, hkey, hmsg⟩ := h.last _ _ hi
    simp only [hl]
    split_ifs with hsum
    · refine ⟨fun hfalse => hfalse.elim, fun _ => ⟨h.runs, ?_⟩⟩
      intro k j hj
      by_cases hk : k = e.key
      · simp [hk] at hj
      · simp only [Function.update_of_ne hk] at hj
        exact h.last k j hj
    · refine ⟨fun _ => ?_, fun hfalse => hfalse.elim⟩
      obtain ⟨a, b, hbefore, hlength⟩ : ∃ a b, p.before = a ++ l :: b ∧ a.length = i := by
        obtain ⟨hlt, hget⟩ := List.getElem?_eq_some_iff.1 hl
        refine ⟨p.before.take i, p.before.drop (i + 1), ?_, length_take_of_le hlt.le⟩
        rw [← hget, getElem_cons_drop, take_append_drop]
      have hset : p.before.set i (l.setDropped (e.getDropped + l.getDropped)) =
          a ++ l.setDropped (e.getDropped + l.getDropped) :: b := by
        rw [hbefore, ← hlength, set_append_right _ _ le_rfl, Nat.sub_self, set_cons_zero]
      have hgood : Good q c r
          { p with
            before := p.before.set i (l.setDropped (e.getDropped + l.getDropped))
            trace := p.trace ++ [.merged e l]
            stats := p.stats.erase e } := by
        constructor
        · have hruns := h.runs
          simp only [hbefore, append_assoc] at hruns
          simpa [hset] using hruns.snoc (.merged he hPl hkey hmsg hlen (by omega))
        · intro k j hj
          obtain ⟨l', hl', hrest⟩ := h.last k j hj
          by_cases hij : i = j
          · subst hij
            rw [hl] at hl'
            cases hl'
            exact ⟨_, getElem?_set_self (List.getElem?_eq_some_iff.1 hl).1, hrest.1, hrest.2.1, rfl⟩
          · exact ⟨l', by rw [getElem?_set_ne hij, hl'], hrest⟩
      rw [Pass.eraseMerged, Pass.forget]
      split_ifs <;> exact ⟨hgood.runs, hgood.last⟩

end

/-! ## The first loop -/

theorem prunable_of_not {callerUid : Nat} (hid : ¬e.logId ≠ id)
    (hlock : ¬oldest.any (· ≤ e.sequence) = true) (huid : callerUid ≠ aidRoot → e.uid = callerUid) :
    Scope.Prunable ⟨id, oldest, callerUid⟩ e := by
  refine ⟨not_not.1 hid, ?_, huid⟩
  intro s hs
  obtain rfl : oldest = some s := hs
  simpa using hlock

section

variable {env : Settings} {w : Worst}

theorem Good.leaveWorst (h : Good q c r p) (len : Nat) : Good q c r (leaveWorst w p len).1 := by
  rw [Logd.leaveWorst]
  split_ifs <;> exact ⟨h.runs, h.last⟩

theorem Good.pruneNaughty (h : Good q c (e :: r) p) (he : q.Prunable e) :
    Good q c r (pruneNaughty env w e p).1 := by
  have hgood := (h.clearLast e).erase he
  rw [Logd.pruneNaughty]
  split_ifs
  · exact hgood
  · exact ⟨hgood.runs, hgood.last⟩
  · refine Good.leaveWorst ?_ _
    exact ⟨hgood.runs, hgood.last⟩
  · exact ⟨hgood.runs, hgood.last⟩

theorem Good.dropElement (h : Good q c (e :: r) p) (he : q.Prunable e) (hdropped : e.getDropped = 0) :
    Good q c r (dropElement w e p) := by
  have hgood : Good q c (e.setDropped 1 :: r)
      { p with stats := p.stats.drop e, trace := p.trace ++ [Event.dropped e] } :=
    ⟨h.runs.snoc (.dropped he hdropped), h.last⟩
  have hmerge := hgood.merge he rfl
  rw [Logd.dropElement]
  simp only
  split_ifs with hmerged hfirst
  · exact hmerge.1 hmerged
  · have hkept := (hmerge.2 (Bool.not_eq_true _ ▸ hmerged)).addLast he rfl
    exact ⟨hkept.runs, hkept.last⟩
  · exact (hmerge.2 (Bool.not_eq_true _ ▸ hmerged)).addLast he rfl

theorem getMsgLen_of_dropped (h : e.getDropped ≠ 0) : e.getMsgLen = 0 := by
  unfold LogBufferElement.getDropped at h
  unfold LogBufferElement.getMsgLen
  split at h
  · exact absurd rfl h
  · simp

theorem Good.pruneRest (h : Good q c (e :: r) p) (he : q.Prunable e) :
    Good q c r (pruneRest env w e p).1 := by
  rw [Logd.pruneRest]
  split_ifs with hnaughty htime hdropped huid
  · exact h.pruneNaughty he
  · exact h.keep
  · have hkept := h.addLast he (getMsgLen_of_dropped hdropped)
    rw [keepDropped]
    split_ifs <;> exact ⟨hkept.runs, hkept.last⟩
  · refine Good.keep (Good.clearLast ?_ e)
    exact ⟨h.runs, h.last⟩
  · rw [pruneWorst]
    split_ifs
    · exact Good.keep ⟨h.runs, h.last⟩
    · refine Good.leaveWorst ?_ _
      split_ifs
      · exact Good.erase ⟨h.runs, h.last⟩ he
      · exact Good.dropElement ⟨h.runs, h.last⟩ he (not_not.1 hdropped)

theorem Good.pruneElement (h : Good ⟨w.id, w.oldest, aidRoot⟩ c (e :: r) p) :
    Good ⟨w.id, w.oldest, aidRoot⟩ c r (pruneElement env w e p).1 := by
  rw [Logd.pruneElement]
  split_ifs with hlock hid hleading hdropped
  · exact h.keep
  · exact h.keep
  · exact h.erase (prunable_of_not hid hlock fun hroot => absurd rfl hroot)
  · have he : Scope.Prunable _ e := prunable_of_not hid hlock fun hroot => absurd rfl hroot
    have hmerge := h.merge he (getMsgLen_of_dropped hdropped)
    simp only
    split_ifs with hmerged
    · exact hmerge.1 hmerged
    · exact (hmerge.2 (Bool.not_eq_true _ ▸ hmerged)).pruneRest he
  · exact h.pruneRest (prunable_of_not hid hlock fun hroot => absurd rfl hroot)

theorem Good.worstLoop (h : Good ⟨id, oldest, aidRoot⟩ c [] p) (n : Nat) :
    Good ⟨id, oldest, aidRoot⟩ c [] (worstLoop env id oldest n p) := by
  induction n generalizing p with
  | zero => exact h
  | succ n ih =>
    have hpass : Good ⟨id, oldest, aidRoot⟩ c []
        (loop (Logd.pruneElement env (passSetup env id oldest n p).1)
          (startPass (passSetup env id oldest n p).1 (passSetup env id oldest n p).2 p).1
          (startPass (passSetup env id oldest n p).1 (passSetup env id oldest n p).2 p).2) := by
      refine loop_keeps ?_ (fun r p hp => Good.leave hp) ⟨?_, ?_⟩
      · intro e r p' hp
        exact Good.pruneElement (w := (passSetup env id oldest n p).1) hp
      · have hruns := h.runs
        rw [startPass]
        split
        · simpa [takeWhile_append_dropWhile] using hruns
        · simpa using hruns
      · intro k i hi
        rw [startPass] at hi
        split at hi <;> cases hi
    simp only [Logd.worstLoop]
    split_ifs
    · exact h
    · exact ih hpass
    · exact hpass

end

/-! ## The other loops -/

/-- The trace leads to the elements, of which some are left. -/
def Traced (q : Scope) (c : Contents) (r : List LogBufferElement) (p : Pass) : Prop :=
  Runs q c p.trace (p.before ++ r, p.stats)

theorem Traced.keep (h : Traced q c (e :: r) p) : Traced q c r (p.keep e) := by
  simpa [Traced, Pass.keep] using h

theorem Traced.erase (h : Traced q c (e :: r) p) (he : q.Prunable e) :
    Traced q c r (p.erase e) := by
  have hbefore : (p.erase e).before = p.before := by unfold Pass.erase Pass.forget; split_ifs <;> rfl
  rw [Traced, hbefore]
  exact Runs.snoc h (.erased he)

theorem fromBegin_traced (hround : ∀ e r p, Traced q c (e :: r) p → Traced q c r (round e p).1)
    (h : Traced q c [] p) : Traced q c [] (fromBegin round p) := by
  refine loop_keeps hround (fun r p hp => ?_) ?_
  · simpa [Traced] using hp
  · simpa [Traced] using h

theorem Traced.expireElement {env : Settings} {white : Bool}
    (h : Traced ⟨id, oldest, aidRoot⟩ c (e :: r) p) :
    Traced ⟨id, oldest, aidRoot⟩ c r (expireElement env id oldest white e p).1 := by
  rw [Logd.expireElement]
  split_ifs with _ hid hlock
  all_goals try exact h.keep
  exact h.erase (prunable_of_not hid hlock fun hroot => absurd rfl hroot)

theorem Traced.clearElement {uid : Nat} (h : Traced ⟨id, oldest, uid⟩ c (e :: r) p) :
    Traced ⟨id, oldest, uid⟩ c r (clearElement id oldest uid e p).1 := by
  rw [Logd.clearElement]
  split_ifs with hlock hid huid
  · exact h.keep
  · exact h.keep
  · exact h.erase (prunable_of_not hid hlock fun _ => huid)
  · exact h.keep

section

variable (env : Settings) (id : LogId) (oldest : Option Nat)

theorem prunePass_runs (callerUid : Nat) (b : LogBuffer) (rows : Nat) :
    Traced ⟨id, oldest, callerUid⟩ (b.logElements, b.stats) []
      (prunePass env id oldest callerUid (b.pass rows)) := by
  have hstart : Traced ⟨id, oldest, callerUid⟩ (b.logElements, b.stats) [] (b.pass rows) := by
    simpa [Traced, LogBuffer.pass] using Runs.nil
  rw [prunePass]
  split_ifs with hroot
  · exact fromBegin_traced (fun e r p hp => hp.clearElement) hstart
  · obtain rfl : callerUid = aidRoot := not_not.1 hroot
    have hworst : Good _ _ [] (worstLoop env id oldest rows (b.pass rows)) :=
      Good.worstLoop ⟨hstart, fun k i hi => nomatch hi⟩ rows
    have hsecond : Traced ⟨id, oldest, aidRoot⟩ (b.logElements, b.stats) []
        (fromBegin (expireElement env id oldest env.hasWhitelist)
          { worstLoop env id oldest rows (b.pass rows) with whitelist := false }) :=
      fromBegin_traced (fun e r p hp => hp.expireElement) hworst.runs
    simp only
    split_ifs
    · exact fromBegin_traced (fun e r p hp => hp.expireElement) hsecond
    · exact hsecond

theorem maybePrune_runs (b : LogBuffer) :
    Traced ⟨id, oldest, aidRoot⟩ (b.logElements, b.stats) [] (maybePrune env id oldest b) := by
  rw [maybePrune]
  split
  · exact prunePass_runs env id oldest aidRoot b _
  · simpa [Traced, LogBuffer.pass] using Runs.nil

end

end AndroidSystem.Logd
