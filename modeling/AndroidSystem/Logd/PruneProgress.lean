import AndroidSystem.Logd.Statistics

/-!
# Pruning makes progress

A log over its limit loses an element, unless the budget of rows is one and the first loop meets a message
of the worst offender before it has done anything: the budget is counted down and found empty before the
message is touched, and the other loops have no rows left.
-/

namespace AndroidSystem.Logd

open List Pass

variable {env : Settings} {w : Worst} {e : LogBufferElement} {p : Pass}

variable {q : Scope} {c c' : Contents} {b : LogBuffer}

/-! ## One round -/

/-- What decides whether the first loop goes on. -/
structure Ledger where
  events : Nat
  kick : Bool
  rows : Nat

def Pass.events (p : Pass) : Nat := p.trace.length

def Pass.ledger (p : Pass) : Ledger := ⟨p.events, p.kick, p.pruneRows⟩

theorem ledger_erase : (p.erase e).ledger = ⟨p.events + 1, p.kick, p.pruneRows⟩ := by
  rw [erase, forget]
  split_ifs <;> simp [ledger, events, setLastWorst]

theorem ledger_eraseMerged : (p.eraseMerged e).ledger = p.ledger := by
  rw [eraseMerged, forget]
  split_ifs <;> rfl

theorem ledger_leaveWorst (len : Nat) : (leaveWorst w p len).1.ledger = p.ledger := by
  rw [leaveWorst]
  split_ifs <;> rfl

/-- A merge is an event, or nothing that counts happens. -/
theorem ledger_merge (n : Nat) :
    ((p.merge e n).2 = true ∧ (p.merge e n).1.ledger = ⟨p.events + 1, p.kick, p.pruneRows⟩) ∨
      ((p.merge e n).2 = false ∧ (p.merge e n).1.ledger = p.ledger) := by
  rw [Pass.merge]
  split
  · exact Or.inr ⟨rfl, rfl⟩
  · split
    · exact Or.inr ⟨rfl, rfl⟩
    · split_ifs
      · exact Or.inr ⟨rfl, rfl⟩
      · exact Or.inl ⟨rfl, by simp [ledger, events]⟩

/-- Something was done, and a kick costs a row. -/
structure Ledger.Acts (l l' : Ledger) : Prop where
  events : l.events < l'.events
  rows : l'.rows ≤ l.rows
  kick : l'.kick = true → l.kick = true ∨ l'.rows < l.rows

/-- An element is neither blacklisted nor out of the range of times. -/
def Ordinary (env : Settings) (w : Worst) (e : LogBufferElement) : Prop :=
  ¬(env.hasBlacklist ∧ env.naughty e.uid e.pid) ∧
    ¬(e.realTime.lt w.lastTime.dayBefore ∨ w.lastTime.lt e.realTime)

/-- A message of the worst offender that the first loop does not pass over. -/
def hits (env : Settings) (w : Worst) (e : LogBufferElement) : Prop :=
  ¬w.oldest.any (· ≤ e.sequence) ∧ e.logId = w.id ∧ e.getDropped = 0 ∧ Ordinary env w e ∧
    e.uid = w.worst

theorem pruneNaughty_acts : p.ledger.Acts (pruneNaughty env w e p).1.ledger := by
  have herase : ((p.clearLast e).erase e).ledger = ⟨p.events + 1, p.kick, p.pruneRows⟩ := ledger_erase
  obtain ⟨hevents, hkick, hrows⟩ := Ledger.mk.inj herase
  have hdec : ((p.clearLast e).erase e).decRows.ledger = ⟨p.events + 1, p.kick, p.pruneRows - 1⟩ := by
    rw [← hevents, ← hkick, ← hrows]
    rfl
  rw [pruneNaughty]
  split_ifs with _ hzero
  · rw [herase]
    exact ⟨Nat.lt_succ_self _, le_rfl, Or.inl⟩
  · rw [hdec]
    exact ⟨Nat.lt_succ_self _, Nat.sub_le _ _, Or.inl⟩
  · have hpos : p.pruneRows - 1 ≠ 0 := fun h => hzero ((Ledger.mk.inj hdec).2.2.trans h)
    have hkicked : ({ ((p.clearLast e).erase e).decRows with kick := true } : Pass).ledger =
        ⟨p.events + 1, true, p.pruneRows - 1⟩ := congrArg (fun l : Ledger => { l with kick := true }) hdec
    rw [ledger_leaveWorst, hkicked]
    refine ⟨Nat.lt_succ_self _, Nat.sub_le _ _, fun _ => Or.inr ?_⟩
    change p.pruneRows - 1 < p.pruneRows
    omega
  · rw [hdec]
    exact ⟨Nat.lt_succ_self _, Nat.sub_le _ _, Or.inl⟩

theorem ledger_dropElement : p.events < (dropElement w e p).events ∧
    (dropElement w e p).kick = p.kick ∧ (dropElement w e p).pruneRows = p.pruneRows := by
  have hmerge := ledger_merge (p := { p with stats := p.stats.drop e, trace := p.trace ++ [.dropped e] })
    (e := e.setDropped 1) 1
  have hevents : ({ p with stats := p.stats.drop e, trace := p.trace ++ [.dropped e] } : Pass).events =
      p.events + 1 := by simp [events]
  rw [dropElement]
  simp only
  rcases hmerge with ⟨htrue, hledger⟩ | ⟨hfalse, hledger⟩
  · rw [if_pos htrue]
    obtain ⟨hevents', hrest⟩ := Ledger.mk.inj (ledger_eraseMerged.trans hledger)
    exact ⟨by omega, hrest⟩
  · obtain ⟨hevents', hrest⟩ := Ledger.mk.inj hledger
    rw [if_neg (by simp [hfalse])]
    split_ifs
    · exact ⟨(Nat.lt_of_succ_le (hevents'.trans hevents).ge), hrest⟩
    · exact ⟨(Nat.lt_of_succ_le (hevents'.trans hevents).ge), hrest⟩

theorem pruneWorst_acts (hrows : ¬p.pruneRows ≤ 1) : p.ledger.Acts (pruneWorst w e p).1.ledger := by
  have hlt : p.decRows.pruneRows < p.pruneRows := by
    change p.pruneRows - 1 < p.pruneRows
    omega
  have hzero : ¬p.decRows.pruneRows = 0 := by
    change ¬p.pruneRows - 1 = 0
    omega
  rw [pruneWorst, if_neg hzero, ledger_leaveWorst]
  split_ifs
  · rw [ledger_erase]
    exact ⟨Nat.lt_succ_self _, hlt.le, fun _ => Or.inr hlt⟩
  · obtain ⟨hevents, -, hdrop⟩ := ledger_dropElement (e := e) (p := { p.decRows with kick := true })
    have hlt' := hdrop.trans_lt hlt
    exact ⟨hevents, hlt'.le, fun _ => Or.inr hlt'⟩

/-! ## The scan for a message of the worst offender -/

/-- What a scan of the elements keeps: those it has seen, the places of the last chatty ones, and
whether there was no message yet. -/
structure Scan where
  seen : List LogBufferElement
  last : Nat × Nat × Nat → Option Nat
  leading : Bool

def Pass.scan (p : Pass) : Scan := ⟨p.before, p.last, p.leading⟩

/-- A message came before the chatty element `e`, and the last one with its key has no room for it. -/
def Scan.Apart (s : Scan) (e : LogBufferElement) : Prop :=
  s.leading = false ∧ ∀ i ∈ s.last e.key, ∀ l ∈ s.seen[i]?, 65535 < e.getDropped + l.getDropped

/-- Nothing is done to the element and nothing stops there. -/
def Scan.Skips (env : Settings) (w : Worst) (s : Scan) (e : LogBufferElement) : Prop :=
  ¬w.oldest.any (· ≤ e.sequence) ∧ (e.logId = w.id → Ordinary env w e ∧
    if e.getDropped = 0 then e.uid ≠ w.worst else s.Apart e)

/-- The scan goes past an element. At a message of the log it forgets the old chatty elements. -/
def Scan.next (w : Worst) (s : Scan) (e : LogBufferElement) : Scan :=
  if e.logId ≠ w.id then { s with seen := s.seen ++ [e] }
  else if e.getDropped ≠ 0 then
    ⟨s.seen ++ [e], Function.update s.last e.key (some s.seen.length), s.leading⟩
  else ⟨s.seen ++ [e], recent e s.seen s.last, false⟩

/-- A message of the worst offender comes, and nothing before it that is erased or merged or stops
the loop. -/
def Reaches (env : Settings) (w : Worst) : List LogBufferElement → Scan → Prop
  | [], _ => False
  | e :: rest, s => hits env w e ∨ s.Skips env w e ∧ Reaches env w rest (s.next w e)

theorem hits.not_skips {s : Scan} (hhits : hits env w e) : ¬s.Skips env w e := by
  intro h
  have hother := (h.2 hhits.2.1).2
  rw [if_pos hhits.2.2.1] at hother
  exact hother hhits.2.2.2.2

/-- What a round comes to: the scan goes on, or the loop is left, or it acts, or the budget ends at a
message of the worst offender. -/
inductive Comes (env : Settings) (w : Worst) (e : LogBufferElement) (p : Pass) : Pass × Bool → Prop
  | skips {q : Pass} : p.scan.Skips env w e → q.ledger = p.ledger → q.scan = p.scan.next w e →
      Comes env w e p (q, false)
  | leaves {q : Pass} : ¬p.scan.Skips env w e → ¬hits env w e → q.ledger = p.ledger →
      Comes env w e p (q, true)
  | acts {out : Pass × Bool} : ¬p.scan.Skips env w e → ¬(hits env w e ∧ p.pruneRows ≤ 1) →
      p.ledger.Acts out.1.ledger → Comes env w e p out
  | spends {q : Pass} : hits env w e → p.pruneRows ≤ 1 → q.ledger = { p.ledger with rows := 0 } →
      Comes env w e p (q, true)

theorem pruneRest_comes {q : Pass} (hlock : ¬w.oldest.any (· ≤ e.sequence) = true)
    (hid : e.logId = w.id) (hledger : q.ledger = p.ledger)
    (hnext : q.scan.next w e = p.scan.next w e) (hapart : e.getDropped ≠ 0 → p.scan.Apart e) :
    Comes env w e p (pruneRest env w e q) := by
  have hrows : q.pruneRows = p.pruneRows := (Ledger.mk.inj hledger).2.2
  rw [pruneRest]
  split_ifs with hnaughty htime hdropped huid
  · exact .acts (fun h => (h.2 hid).1.1 hnaughty) (fun h => h.1.2.2.2.1.1 hnaughty)
      (hledger ▸ pruneNaughty_acts)
  · exact .leaves (fun h => (h.2 hid).1.2 htime) (fun h => h.2.2.2.1.2 htime) hledger
  · refine .skips ⟨hlock, fun _ => ⟨⟨hnaughty, htime⟩, ?_⟩⟩ ?_ ?_
    · rw [if_neg hdropped]
      exact hapart hdropped
    · rw [← hledger, keepDropped]
      split_ifs <;> rfl
    · rw [← hnext, keepDropped]
      split_ifs <;> simp [scan, Scan.next, keep, addLast, setLastWorst, hid, hdropped]
  · refine .skips ⟨hlock, fun _ => ⟨⟨hnaughty, htime⟩, ?_⟩⟩ hledger ?_
    · rwa [if_pos (not_not.1 hdropped)]
    rw [← hnext]
    simp [scan, Scan.next, keep, clearLast, hid, hdropped]
  · have hhits : hits env w e :=
      ⟨hlock, hid, not_not.1 hdropped, ⟨hnaughty, htime⟩, not_not.1 huid⟩
    by_cases hone : p.pruneRows ≤ 1
    · have hzero : q.decRows.pruneRows = 0 := Nat.sub_eq_zero_of_le (hrows.trans_le hone)
      rw [pruneWorst, if_pos hzero]
      exact .spends hhits hone (hledger ▸ congrArg (Ledger.mk _ _) hzero)
    · exact .acts hhits.not_skips (fun h => hone h.2) (hledger ▸ pruneWorst_acts (hrows ▸ hone))

/-- A chatty element behind a message is merged unless the last one with its key has no room. -/
theorem merge_apart (hleading : p.leading = false) (hid : e.logId = w.id)
    (hdropped : e.getDropped ≠ 0) :
    ((p.merge e e.getDropped).2 = false ↔ p.scan.Apart e) ∧
      ((p.merge e e.getDropped).2 = false →
        (p.merge e e.getDropped).1.scan.next w e = p.scan.next w e) := by
  simp only [Pass.merge, Scan.Apart, scan]
  cases hlast : p.last e.key with
  | none => simp [hleading]
  | some i =>
    cases hl : p.before[i]? with
    | none => simp [hl, hleading]
    | some l =>
      by_cases hroom : e.getDropped + l.getDropped > 65535
      · simp [hl, hroom, hleading, Scan.next, hid, hdropped]
      · simp [hl, hroom]

theorem pruneElement_comes (env : Settings) (w : Worst) (e : LogBufferElement) (p : Pass) :
    Comes env w e p (pruneElement env w e p) := by
  rw [pruneElement]
  split_ifs with hlock hid hleading hdropped
  · exact .leaves (fun h => h.1 hlock) (fun h => h.1 hlock) rfl
  · exact .skips ⟨hlock, fun h => absurd h hid⟩ rfl (by simp [Scan.next, hid, scan, keep])
  · refine .acts (fun h => ?_) (fun h => hleading.2 h.1.2.2.1) ?_
    · have hapart := (h.2 (not_not.1 hid)).2
      rw [if_neg hleading.2] at hapart
      exact Bool.false_ne_true (hapart.1.symm.trans hleading.1)
    · rw [ledger_erase]
      exact ⟨Nat.lt_succ_self _, le_rfl, Or.inl⟩
  · have hfront : p.leading = false := Bool.eq_false_iff.2 fun h => hleading ⟨h, hdropped⟩
    obtain ⟨hapart, hnext⟩ := merge_apart hfront (not_not.1 hid) hdropped
    rcases ledger_merge (e := e) e.getDropped with ⟨htrue, hledger⟩ | ⟨hfalse, hledger⟩
    · rw [if_pos htrue]
      refine .acts (fun h => ?_) (fun h => hdropped h.1.2.2.1) ?_
      · have happly := (h.2 (not_not.1 hid)).2
        rw [if_neg hdropped, ← hapart, htrue] at happly
        cases happly
      · rw [ledger_eraseMerged, hledger]
        exact ⟨Nat.lt_succ_self _, le_rfl, Or.inl⟩
    · rw [if_neg (by simp [hfalse])]
      exact pruneRest_comes hlock (not_not.1 hid) hledger (hnext hfalse) fun _ => hapart.1 hfalse
  · exact pruneRest_comes hlock (not_not.1 hid) rfl rfl fun h => absurd h hdropped

/-! ## A pass -/

/-- How a pass ends: nothing counts, it acts, or the budget is spent on nothing. -/
def Passes (l l' : Ledger) (spent : Prop) : Prop :=
  (¬spent ∧ (l' = l ∨ l.Acts l')) ∨ (spent ∧ l' = { l with rows := 0 })

variable {l l' l'' : Ledger} {spent : Prop}

theorem Passes.events_le (h : Passes l l' spent) : l.events ≤ l'.events := by
  rcases h with ⟨-, rfl | h⟩ | ⟨-, rfl⟩
  · exact le_rfl
  · exact h.events.le
  · exact le_rfl

theorem Ledger.Acts.trans_passes (h : l.Acts l') (h' : Passes l' l'' spent) : l.Acts l'' := by
  rcases h' with ⟨-, rfl | hacts⟩ | ⟨-, rfl⟩
  · exact h
  · refine ⟨h.events.trans hacts.events, hacts.rows.trans h.rows, fun hkick => ?_⟩
    rcases hacts.kick hkick with hkick' | hlt
    · exact (h.kick hkick').imp_right fun hlt => hacts.rows.trans_lt hlt
    · exact Or.inr (hlt.trans_le h.rows)
  · exact ⟨h.events, Nat.zero_le _, fun hkick => (h.kick hkick).imp_right fun hlt => Nat.zero_lt_of_lt hlt⟩

theorem loop_passes (rest : List LogBufferElement) (p : Pass) :
    Passes p.ledger (loop (pruneElement env w) rest p).ledger
      (p.pruneRows ≤ 1 ∧ Reaches env w rest p.scan) := by
  induction rest generalizing p with
  | nil => exact Or.inl ⟨fun h => h.2, Or.inl rfl⟩
  | cons e rest ih =>
    have hrest := ih (pruneElement env w e p).1
    rw [loop]
    have hcomes := pruneElement_comes env w e p
    generalize pruneElement env w e p = out at hcomes hrest ⊢
    cases hcomes with
    | @skips q hskips hledger hscan =>
      -- nothing happened, so the rest decides
      rw [Reaches, or_iff_right fun hhits => hhits.not_skips hskips, and_iff_right hskips, ← hscan,
        ← hledger, ← (Ledger.mk.inj hledger).2.2]
      exact hrest
    | leaves hskips hhits hledger =>
      exact Or.inl ⟨fun h => h.2.elim hhits fun h => hskips h.1, Or.inl hledger⟩
    | acts hskips hnot hacts =>
      refine Or.inl ⟨fun h => h.2.elim (fun hhits => hnot ⟨hhits, h.1⟩) fun h => hskips h.1, Or.inr ?_⟩
      split_ifs
      · exact hacts
      · exact hacts.trans_passes hrest
    | spends hhits hone hledger => exact Or.inr ⟨⟨hone, Or.inl hhits⟩, hledger⟩

/-! ## The first loop -/

variable {id : LogId} {oldest : Option Nat} {n : Nat} {p' : Pass}

section

variable (env : Settings) (id : LogId) (oldest : Option Nat) (n : Nat) (p : Pass)

/-- One pass of the first loop. -/
def onePass : Pass :=
  let setup := passSetup env id oldest n p
  let start := startPass setup.1 setup.2 p
  loop (pruneElement env setup.1) start.1 start.2

/-- There is nobody to look for. -/
def noTarget : Prop :=
  (passSetup env id oldest n p).1.worst = noUid ∧ env.hasBlacklist = false

instance :
    Decidable (noTarget env id oldest n p) := inferInstanceAs (Decidable (_ ∧ _))

/-- A pass meets a message of the worst offender before it has done anything. -/
def PassReaches : Prop :=
  let setup := passSetup env id oldest n p
  let start := startPass setup.1 setup.2 p
  Reaches env setup.1 start.1 start.2.scan

/-- The first loop spends its last row at a message of the worst offender before anything is done. -/
def Stalls : Prop :=
  ¬noTarget env id oldest n p ∧ p.pruneRows = 1 ∧ PassReaches env id oldest n p

end

/-- The passes come to an end by themselves within a number of them. -/
def EndsWithin (env : Settings) (id : LogId) (oldest : Option Nat) : Nat → Pass → Prop
  | 0, p => p.pruneRows = 0
  | n + 1, p =>
    p.pruneRows = 0 ∨ noTarget env id oldest n p ∨
      ¬((onePass env id oldest n p).kick = true ∧ env.worstUidEnabled = true) ∨
      EndsWithin env id oldest n (onePass env id oldest n p)

theorem startPass_ledger (size : Nat) :
    (startPass w size p).2.ledger = { p.ledger with kick := false } := by
  rw [startPass]
  split <;> rfl

theorem onePass_comes (env : Settings) (id : LogId) (oldest : Option Nat) (n : Nat) (p : Pass) :
    Passes { p.ledger with kick := false } (onePass env id oldest n p).ledger
      (p.pruneRows ≤ 1 ∧ PassReaches env id oldest n p) := by
  have hstart := startPass_ledger (w := (passSetup env id oldest n p).1) (p := p)
    (passSetup env id oldest n p).2
  have hrows := (Ledger.mk.inj hstart).2.2
  change _ = p.pruneRows at hrows
  rw [← hstart, ← hrows]
  exact loop_passes _ _

theorem kick_costs (h : (onePass env id oldest n p).kick = true) :
    p.events < (onePass env id oldest n p).events ∧ (onePass env id oldest n p).pruneRows < p.pruneRows ∧
      ¬(p.pruneRows ≤ 1 ∧ PassReaches env id oldest n p) := by
  rcases onePass_comes env id oldest n p with ⟨hspent, hledger | hacts⟩ | ⟨-, hledger⟩
  · exact absurd (h.symm.trans (Ledger.mk.inj hledger).2.1) Bool.noConfusion
  · exact ⟨hacts.events, (hacts.kick h).resolve_left Bool.false_ne_true, hspent⟩
  · exact absurd (h.symm.trans (Ledger.mk.inj hledger).2.1) Bool.noConfusion

theorem endsWithin_rows (h : p.pruneRows ≤ n) : EndsWithin env id oldest n p := by
  induction n generalizing p with
  | zero => exact Nat.le_zero.1 h
  | succ n ih =>
    refine Or.inr (Or.inr ?_)
    by_cases hkick : (onePass env id oldest n p).kick = true
    · exact Or.inr (ih (by have := (kick_costs hkick).2.1; omega))
    · exact Or.inl fun h => hkick h.1

theorem worstLoop_succ :
    worstLoop env id oldest (n + 1) p =
      if p.pruneRows = 0 ∨ noTarget env id oldest n p then p
      else if (onePass env id oldest n p).kick ∧ env.worstUidEnabled then
        worstLoop env id oldest n (onePass env id oldest n p)
      else onePass env id oldest n p := rfl

theorem worstLoop_events_le (n : Nat) (p : Pass) :
    p.events ≤ (worstLoop env id oldest n p).events := by
  induction n generalizing p with
  | zero => exact le_rfl
  | succ n ih =>
    have hpass := (onePass_comes env id oldest n p).events_le
    rw [worstLoop_succ]
    split_ifs
    · exact le_rfl
    · exact hpass.trans (ih _)
    · exact hpass

/-- The first loop does nothing and keeps its rows, or it acts, or it stalls. -/
theorem worstLoop_cases (hrows : p.pruneRows = n + 1) (hrun : worstLoop env id oldest (n + 1) p = p') :
    (¬Stalls env id oldest n p ∧ (p.events < p'.events ∨
      (p'.events = p.events ∧ p'.pruneRows = p.pruneRows))) ∨
    (Stalls env id oldest n p ∧ p'.events = p.events ∧ p'.pruneRows = 0) := by
  rw [← hrun, worstLoop_succ]
  have hpos : ¬p.pruneRows = 0 := by omega
  by_cases hskip : noTarget env id oldest n p
  · rw [if_pos (Or.inr hskip)]
    exact Or.inl ⟨fun h => h.1 hskip, Or.inr ⟨rfl, rfl⟩⟩
  · have hstalls : Stalls env id oldest n p ↔ p.pruneRows ≤ 1 ∧ PassReaches env id oldest n p :=
      ⟨fun h => ⟨h.2.1.le, h.2.2⟩, fun h => ⟨hskip, by omega, h.2⟩⟩
    rw [if_neg (not_or.2 ⟨hpos, hskip⟩), hstalls]
    split_ifs with hkick
    · -- something was done in this pass, so there are events whatever follows
      obtain ⟨hevents, -, hspent⟩ := kick_costs hkick.1
      exact Or.inl ⟨hspent, Or.inl (hevents.trans_le (worstLoop_events_le _ _))⟩
    · rcases onePass_comes env id oldest n p with ⟨hspent, hledger | hacts⟩ | ⟨hspent, hledger⟩
      · exact Or.inl ⟨hspent, Or.inr ⟨(Ledger.mk.inj hledger).1, (Ledger.mk.inj hledger).2.2⟩⟩
      · exact Or.inl ⟨hspent, Or.inl hacts.events⟩
      · exact Or.inr ⟨hspent, (Ledger.mk.inj hledger).1, (Ledger.mk.inj hledger).2.2⟩

/-! ## The other loops -/

variable {white : Bool} {rest : List LogBufferElement}

theorem expire_events_le (rest : List LogBufferElement) (p : Pass) :
    p.events ≤ (loop (expireElement env id oldest white) rest p).events := by
  refine loop_keeps (I := fun _ p' => p.events ≤ p'.events) ?_ (fun _ _ h => h) le_rfl
  intro e r p' hle
  rw [expireElement]
  split_ifs
  all_goals try exact hle
  exact hle.trans ((Nat.le_succ _).trans_eq (Ledger.mk.inj ledger_erase).1.symm)

theorem expire_idle (hrows : p.pruneRows = 0) :
    (loop (expireElement env id oldest white) rest p).events = p.events ∧
      (loop (expireElement env id oldest white) rest p).whitelist = p.whitelist := by
  cases rest with
  | nil => exact ⟨rfl, rfl⟩
  | cons e rest => simp [loop, expireElement, hrows, keep, events]

/-- Without readers, with rows left and with an element of the log something is erased, or all of them are
in the whitelist. -/
theorem expire_acts (white : Bool) (hrun : loop (expireElement env id none white) rest p = p')
    (hrows : p.pruneRows ≠ 0) (h : (∃ e ∈ rest, e.logId = id) ∨ (p.whitelist = true ∧ white = true)) :
    p.events < p'.events ∨ (p'.events = p.events ∧ p'.pruneRows = p.pruneRows ∧
      p'.before = p.before ++ rest ∧ p'.whitelist = true ∧ white = true) := by
  subst hrun
  induction rest generalizing p with
  | nil =>
    rcases h with ⟨e, he, -⟩ | ⟨hwhitelist, hwhite⟩
    · exact absurd he not_mem_nil
    · exact Or.inr ⟨rfl, rfl, (append_nil _).symm, hwhitelist, hwhite⟩
  | cons e rest ih =>
    rw [loop]
    by_cases hid : e.logId = id
    · by_cases hnice : white = true ∧ e.getDropped = 0 ∧ env.nice e.uid e.pid = true
      · have hround : expireElement env id none white e p = ({ p.keep e with whitelist := true }, false) := by
          simp [expireElement, hrows, hid, hnice]
        rw [hround]
        simpa [keep, events] using
          ih (p := { p.keep e with whitelist := true }) hrows (Or.inr ⟨rfl, hnice.1⟩)
      · have hround : expireElement env id none white e p = ((p.erase e).decRows, false) := by
          simp [expireElement, hrows, hid, hnice]
        rw [hround]
        have herase : (p.erase e).decRows.events = p.events + 1 := (Ledger.mk.inj ledger_erase).1
        exact Or.inl (Nat.lt_of_succ_le (herase.symm.trans_le (expire_events_le _ _)))
    · have hround : expireElement env id none white e p = (p.keep e, false) := by
        simp [expireElement, hrows, hid]
      rw [hround]
      have hrest : (∃ e ∈ rest, e.logId = id) ∨ (p.whitelist = true ∧ white = true) := by
        rcases h with ⟨x, hx, hxid⟩ | hwhite
        · exact Or.inl ⟨x, (mem_cons.1 hx).resolve_left fun heq => hid (heq ▸ hxid), hxid⟩
        · exact Or.inr hwhite
      simpa [keep, events] using ih (p := p.keep e) hrows hrest

section

variable (env : Settings) (id : LogId) (oldest : Option Nat) (p : Pass)

/-- The second loop, and the third one. -/
def secondLoop : Pass :=
  fromBegin (expireElement env id oldest env.hasWhitelist) { p with whitelist := false }

def thirdLoop : Pass :=
  if p.whitelist ∧ p.pruneRows > 0 then fromBegin (expireElement env id oldest false) p else p

end

theorem secondLoop_events_le (p : Pass) : p.events ≤ (secondLoop env id oldest p).events :=
  expire_events_le p.before { p with whitelist := false, before := [] }

theorem thirdLoop_events_le (p : Pass) : p.events ≤ (thirdLoop env id oldest p).events := by
  rw [thirdLoop]
  split_ifs
  · exact expire_events_le p.before { p with before := [] }
  · exact le_rfl

theorem loops_idle (hrows : p.pruneRows = 0) :
    (thirdLoop env id oldest (secondLoop env id oldest p)).events = p.events := by
  obtain ⟨hevents, hwhitelist⟩ : (secondLoop env id oldest p).events = p.events ∧
      (secondLoop env id oldest p).whitelist = false := expire_idle hrows
  rw [thirdLoop, if_neg (by simp [hwhitelist])]
  exact hevents

theorem loops_act (env : Settings) (hrows : p.pruneRows ≠ 0) (he : ∃ e ∈ p.before, e.logId = id) :
    p.events < (thirdLoop env id none (secondLoop env id none p)).events := by
  obtain hevents | ⟨hevents, hrows', hbefore, hwhitelist, -⟩ : p.events < (secondLoop env id none p).events ∨
      (secondLoop env id none p).events = p.events ∧ (secondLoop env id none p).pruneRows = p.pruneRows ∧
        (secondLoop env id none p).before = p.before ∧ (secondLoop env id none p).whitelist = true ∧
        env.hasWhitelist = true :=
    expire_acts _ (p := { p with whitelist := false, before := [] }) rfl hrows (Or.inl he)
  · exact hevents.trans_le (thirdLoop_events_le _)
  · rw [thirdLoop, if_pos ⟨hwhitelist, by omega⟩, ← hevents]
    rcases expire_acts false (p := { secondLoop env id none p with before := [] }) rfl
      (hrows'.trans_ne hrows) (Or.inl (hbefore ▸ he)) with h | ⟨_, _, _, _, h⟩
    · exact h
    · exact absurd h Bool.false_ne_true

/-! ## A call of `prune` -/

theorem Runs.eq_of_nil (h : Runs q c [] c') : c' = c := by
  generalize htrace : ([] : List Event) = trace at h
  cases h with
  | nil => rfl
  | snoc => exact absurd htrace.symm (by simp)

theorem prunePass_trace_nil (he : ∃ e ∈ b.logElements, e.logId = id) :
    (prunePass env id none aidRoot (b.pass (n + 1))).trace = [] ↔ Stalls env id none n (b.pass (n + 1)) := by
  have hgood : Good ⟨id, none, aidRoot⟩ (b.logElements, b.stats) []
      (worstLoop env id none (n + 1) (b.pass (n + 1))) :=
    Good.worstLoop ⟨by simpa [LogBuffer.pass] using Runs.nil, fun _ i (hi : none = some i) => nomatch hi⟩ _
  have hprune : prunePass env id none aidRoot (b.pass (n + 1)) =
      thirdLoop env id none (secondLoop env id none (worstLoop env id none (n + 1) (b.pass (n + 1)))) := rfl
  rw [← length_eq_zero_iff, hprune]
  generalize hworst : worstLoop env id none (n + 1) (b.pass (n + 1)) = p' at hgood ⊢
  rcases worstLoop_cases rfl hworst with
    ⟨hstalls, hevents | ⟨hevents, hrows⟩⟩ | ⟨hstalls, hevents, hrows⟩
  · refine iff_of_false (ne_of_gt ?_) hstalls
    exact (hevents.trans_le (secondLoop_events_le _)).trans_le (thirdLoop_events_le _)
  · have hruns := hgood.runs
    rw [length_eq_zero_iff.1 hevents, append_nil] at hruns
    have hbefore : p'.before = b.logElements := congrArg Prod.fst hruns.eq_of_nil
    exact iff_of_false (ne_of_gt (hevents.symm.trans_lt (loops_act env
      (hrows.trans_ne (Nat.succ_ne_zero n)) (hbefore.symm ▸ he)))) hstalls
  · exact iff_of_true ((loops_idle hrows).trans hevents) hstalls

/-- Chatty elements weigh less than messages. -/
def weight (id : LogId) (elements : List LogBufferElement) : Nat :=
  tally (·.logId = id) (fun e => if e.getDropped = 0 then 2 else 1) elements

theorem Does.weight_lt {event : Event} (h : Does q event c c') :
    weight q.id c'.1 < weight q.id c.1 := by
  cases h with
  | erased he =>
    simp only [weight, tally_append, tally_cons, he.1]
    split_ifs <;> omega
  | @merged a b r e l s he hl =>
    have hcount : (l.setDropped (e.getDropped + l.getDropped)).getDropped = e.getDropped + l.getDropped := rfl
    simp only [weight, tally_append, tally_cons, he.1, hl.1]
    split_ifs <;> omega
  | @dropped a r e s he hdropped =>
    have hset : (e.setDropped 1).logId = e.logId := rfl
    have hone : (e.setDropped 1).getDropped = 1 := rfl
    simp only [weight, tally_append, tally_cons, hset, hone, he.1, hdropped, if_true, one_ne_zero, if_false]
    omega

theorem Runs.weight_lt {trace : List Event} (h : Runs q c trace c') (htrace : trace ≠ []) :
    weight q.id c'.1 < weight q.id c.1 := by
  have hle : weight q.id c'.1 + trace.length ≤ weight q.id c.1 := by
    induction h with
    | nil => rfl
    | @snoc trace c' event c'' hrun hdoes ih =>
      have hlt := hdoes.weight_lt
      by_cases htail : trace = []
      · subst htail
        rw [hrun.eq_of_nil] at hlt
        exact hlt
      · have := ih htail
        simp
        omega
  have := length_pos_iff.2 htrace
  omega

/-- The elements of a log have changed. -/
def Changes (id : LogId) (before after : List LogBufferElement) : Prop :=
  after.filter (·.logId = id) ≠ before.filter (·.logId = id)

theorem prunePass_changes_iff (he : ∃ e ∈ b.logElements, e.logId = id) :
    Changes id b.logElements (prunePass env id none aidRoot (b.pass (n + 1))).before ↔
      ¬Stalls env id none n (b.pass (n + 1)) := by
  have hruns := prunePass_runs env id none aidRoot b (n + 1)
  rw [Traced, append_nil] at hruns
  rw [← prunePass_trace_nil he]
  constructor
  · intro hchanges hnil
    rw [hnil] at hruns
    exact hchanges (congrArg (fun c : Contents => c.1.filter (·.logId = id)) hruns.eq_of_nil)
  · intro htrace heq
    have hlt := hruns.weight_lt htrace
    rw [weight, weight, ← tally_filter, ← tally_filter _ _ b.logElements] at hlt
    exact absurd hlt (by rw [heq]; exact lt_irrefl _)

/-! ## Reachable buffers -/

/-- A log over its limit has at least 17 elements, so at least one row is to be pruned. -/
theorem rowsToPrune_pos {s : LogStatistics} {elements : List LogBufferElement} (h : TotalsHold elements s)
    (hlengths : ∀ e ∈ elements, e.getMsgLen ≤ 4076) (hmax : 65536 ≤ env.maxSize id)
    (hover : env.maxSize id < s.sizes id) : ∃ n, rowsToPrune env id s = some (n + 1) := by
  have hle : s.sizes id ≤ 4076 * s.elements id := by
    rw [h.sizes, h.elements]
    exact tally_le_mul _ _ hlengths
  have hrows : 1 ≤ min 256 (max (s.elements id / 10)
      (s.elements id * (s.sizes id - env.maxSize id * 9 / 10) / s.sizes id)) := by
    refine le_min (by decide) (le_max_of_le_left ?_)
    omega
  obtain ⟨n, hn⟩ := Nat.exists_eq_add_of_le' hrows
  refine ⟨n, ?_⟩
  rw [rowsToPrune, if_pos hover]
  exact congrArg some hn

/-- The buffer in which `log` looks for what to prune. -/
def System.inserted (s : System) (e : LogBufferElement) : LogBuffer := s.buffer.insert s.times e

/-- Without readers, with messages of at most the maximal payload and a limit of at least 64 kB, a log
over its limit is pruned in finitely many passes, and loses an element if and only if the first loop does
not stall. -/
theorem log_changes_iff (enable : Bool) (actions : List Action) (hlen : ∀ a ∈ actions, a.Length (· ≤ 4076))
    (e : LogBufferElement) (he : e ∈ ((initial enable).run actions).pending)
    (hreaders : ((initial enable).run actions).times = []) (env : Settings)
    (hmax : 65536 ≤ env.maxSize e.logId)
    (hover : env.maxSize e.logId < (((initial enable).run actions).inserted e).stats.sizes e.logId) :
    ∃ n, rowsToPrune env e.logId (((initial enable).run actions).inserted e).stats = some (n + 1) ∧
      EndsWithin env e.logId none (n + 1) ((((initial enable).run actions).inserted e).pass (n + 1)) ∧
      (Changes e.logId (((initial enable).run actions).inserted e).logElements
          (maybePrune env e.logId (regionLock e.logId ((initial enable).run actions).times)
            (((initial enable).run actions).inserted e)).before ↔
        ¬Stalls env e.logId none n ((((initial enable).run actions).inserted e).pass (n + 1))) := by
  have hrun : RunCounted (· ≤ 4076) enable ((initial enable).run actions) := run_counted hlen
  have hcounted := (hrun.right.insert ((initial enable).run actions).times (hrun.pending e he).2).counted
  have hlengths : ∀ x ∈ (((initial enable).run actions).inserted e).logElements, x.getMsgLen ≤ 4076 := by
    intro x hx
    by_cases hdropped : x.getDropped = 0
    · exact hcounted.lengths x hx hdropped
    · rw [getMsgLen_of_dropped hdropped]
      exact Nat.zero_le _
  obtain ⟨n, hrows⟩ := rowsToPrune_pos (s := (((initial enable).run actions).inserted e).stats)
    hcounted.totals hlengths hmax hover
  refine ⟨n, hrows, endsWithin_rows le_rfl, ?_⟩
  rw [hreaders, maybePrune, hrows]
  refine prunePass_changes_iff ⟨e, ?_, rfl⟩
  obtain ⟨a, r, -, hplace⟩ := place_eq ((initial enable).run actions).times e
    ((initial enable).run actions).buffer.logElements
  change e ∈ place _ e _
  rw [hplace]
  exact mem_append_right _ mem_cons_self

/-- Sixteen messages of one user, and a short one of another user that is about to be logged. -/
def sixteenMessages : List Action :=
  logMessages plainSettings 1 (replicate 16 (10050, 5, 4076)) ++ [.construct .main 1000 7 7 ⟨100, 0⟩ 321]

theorem log_changes_iff_seventeen :
    ∃ n, rowsToPrune plainSettings .main
        (((initial false).run sixteenMessages).inserted (message 1000 7 17 321)).stats = some (n + 1) ∧
      EndsWithin plainSettings .main none (n + 1)
        ((((initial false).run sixteenMessages).inserted (message 1000 7 17 321)).pass (n + 1)) ∧
      (Changes .main (((initial false).run sixteenMessages).inserted (message 1000 7 17 321)).logElements
          (maybePrune plainSettings .main (regionLock .main ((initial false).run sixteenMessages).times)
            (((initial false).run sixteenMessages).inserted (message 1000 7 17 321))).before ↔
        ¬Stalls plainSettings .main none n
          ((((initial false).run sixteenMessages).inserted (message 1000 7 17 321)).pass (n + 1))) :=
  log_changes_iff false sixteenMessages (by simp [sixteenMessages, logMessages, Action.Length, replicate])
    (message 1000 7 17 321) (by decide +kernel)
    (by have : ((initial false).run sixteenMessages).times.length = 0 := by decide +kernel
        exact length_eq_zero_iff.1 this)
    plainSettings (by decide) (by decide +kernel)

/-- The log is over its limit by one byte, and stays as it is. -/
theorem log_keeps_everything :
    plainSettings.maxSize .main <
        (((initial false).run sixteenMessages).inserted (message 1000 7 17 321)).stats.sizes .main ∧
      ¬Changes .main (((initial false).run sixteenMessages).inserted (message 1000 7 17 321)).logElements
        (maybePrune plainSettings .main none
          (((initial false).run sixteenMessages).inserted (message 1000 7 17 321))).before := by
  refine ⟨by decide +kernel, not_not.2 ?_⟩
  decide +kernel

end AndroidSystem.Logd
