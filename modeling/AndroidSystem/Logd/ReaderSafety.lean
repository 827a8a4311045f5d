import AndroidSystem.Logd.PruneTrace
import AndroidSystem.Logd.Readers

/-!
# What pruning leaves alone

`prune` does not touch elements of other logs, of other users if the caller may not, or elements that a
reader of the log has not passed yet. A reader that sends an element has set its `mStart` to it, so the
element stays in the list as it is.
-/

namespace AndroidSystem.Logd

open List LogTimeEntry

variable {e : LogBufferElement} {elements : List LogBufferElement} {t' : LogTimeEntry} {s : System}

/-- The elements that a call of `prune` has to leave alone. -/
def isProtected (times : List LogTimeEntry) (id : LogId) (uid : Nat) (e : LogBufferElement) : Bool :=
  e.logId ≠ id || times.any (fun t => t.owned && t.watching id && t.start ≤ e.sequence) ||
    (uid ≠ aidRoot && e.uid ≠ uid)

variable {times : List LogTimeEntry} {id : LogId} {t : LogTimeEntry} {uid : Nat}

theorem regionLock_le (ht : t ∈ times) (howned : t.owned) (hwatching : t.watching id) :
    ∃ s, regionLock id times = some s ∧ s ≤ t.start := by
  have hfold : ∀ (l : List LogTimeEntry) (o : Option LogTimeEntry),
      (t ∈ l ∨ ∃ x, o = some x ∧ x.start ≤ t.start) →
      ∃ x, l.foldl (slower id) o = some x ∧ x.start ≤ t.start := by
    intro l
    induction l with
    | nil =>
      intro o ho
      exact ho.resolve_left not_mem_nil
    | cons y l ih =>
      intro o ho
      apply ih
      rcases ho with hmem | ⟨x, rfl, hx⟩
      · rcases mem_cons.1 hmem with rfl | hl
        · right
          cases o with
          | none => exact ⟨t, by simp [slower, howned, hwatching], le_rfl⟩
          | some x =>
            by_cases hlt : t.start < x.start
            · exact ⟨t, by simp [slower, howned, hwatching, hlt], le_rfl⟩
            · exact ⟨x, by simp [slower, hlt], not_lt.1 hlt⟩
        · exact Or.inl hl
      · right
        rw [slower]
        split_ifs with hy
        · exact ⟨y, rfl, le_trans (of_decide_eq_true hy.2.2).le hx⟩
        · exact ⟨x, rfl, hx⟩
  obtain ⟨x, hx, hle⟩ := hfold times none (Or.inl ht)
  exact ⟨x.start, by rw [regionLock, oldest, hx]; rfl, hle⟩

theorem not_prunable (h : isProtected times id uid e) :
    ¬Scope.Prunable ⟨id, regionLock id times, uid⟩ e := by
  rintro ⟨hid, hlock, huid⟩
  simp only [isProtected, Bool.or_eq_true, decide_eq_true_eq, any_eq_true, Bool.and_eq_true] at h
  rcases h with (hne | ⟨t, ht, ⟨howned, hwatching⟩, hle⟩) | ⟨hroot, hne⟩
  · exact hne hid
  · obtain ⟨s, hs, hst⟩ := regionLock_le ht howned hwatching
    have := hlock s hs
    omega
  · exact hne (huid hroot)

theorem Does.protected {event : Event} {c c' : Contents}
    (h : Does ⟨id, regionLock id times, uid⟩ event c c') :
    c'.1.filter (isProtected times id uid) = c.1.filter (isProtected times id uid) := by
  have hnot : ∀ e, Scope.Prunable ⟨id, regionLock id times, uid⟩ e → ¬isProtected times id uid e :=
    fun e he h => not_prunable h he
  cases h with
  | erased he => simp [hnot _ he]
  | @merged a b r e l s he hl =>
    have hset : ¬isProtected times id uid (l.setDropped (e.getDropped + l.getDropped)) := hnot l hl
    simp [hnot _ he, hnot _ hl, hset]
  | @dropped a r e s he =>
    have hset : ¬isProtected times id uid (e.setDropped 1) := hnot e he
    simp [hnot _ he, hset]

theorem prunePass_protected (env : Settings) (b : LogBuffer) (rows : Nat) :
    (prunePass env id (regionLock id times) uid (b.pass rows)).before.filter (isProtected times id uid) =
      b.logElements.filter (isProtected times id uid) := by
  have hruns := prunePass_runs env id (regionLock id times) uid b rows
  have hkept := Runs.keeps
    (fun event c c' _ hdoes hc => hdoes.protected.trans hc) hruns (fun _ _ => trivial) rfl
  simpa using hkept

theorem maybePrune_protected (env : Settings) (b : LogBuffer) :
    (maybePrune env id (regionLock id times) b).before.filter (isProtected times id aidRoot) =
      b.logElements.filter (isProtected times id aidRoot) := by
  rw [maybePrune]
  split
  · exact prunePass_protected env b _
  · rfl

/-! ## Elements that are being sent -/

/-- The element a reader is sending is in the list, and the region lock keeps it there. -/
def SendingIn (elements : List LogBufferElement) (t : LogTimeEntry) : Prop :=
  ∀ e start, t.place = .sending e start → e ∈ elements ∧ t.start = e.sequence ∧ t.watching e.logId

theorem filterSecondPass_send (h : t.filterSecondPass e = (t', .send)) :
    t'.start = e.sequence ∧ t'.watching e.logId := by
  have htail : ∀ x : LogTimeEntry, x.filterTail e = (t', .send) →
      t'.start = x.start ∧ t'.watching e.logId := by
    intro x hx
    rw [filterTail] at hx
    simp only at hx
    split_ifs at hx with _ hwants <;> cases hx
    all_goals
      simp only [Bool.not_eq_false, wants, Bool.and_eq_true] at hwants
      exact ⟨rfl, hwants.1⟩
  rw [filterSecondPass] at h
  split_ifs at h
  · exact absurd (Prod.mk.inj h).2 (by simp)
  · exact absurd (Prod.mk.inj h).2 (by simp)
  · exact htail _ h

theorem scan_sendingIn {start : Nat} {l : List LogBufferElement} (hl : l ⊆ elements) :
    SendingIn elements (t.scan start l) := by
  induction l generalizing t with
  | nil =>
    intro e st h
    cases h
  | cons x l ih =>
    have hrest (u : LogTimeEntry) : SendingIn elements (u.scan start l) :=
      ih fun y hy => hl (mem_cons_of_mem _ hy)
    rw [scan]
    split_ifs
    · split
      · exact hrest _
      · intro e st h
        cases h
      · rename_i t' heq
        intro e st h
        cases h
        obtain ⟨hstart, hwatching⟩ := filterSecondPass_send heq
        exact ⟨hl mem_cons_self, hstart, hwatching⟩
    · exact hrest t

theorem next_sendingIn {ok : Bool} (hnext : t.next elements ok = some t')
    (h : SendingIn elements t) : SendingIn elements t' := by
  rw [LogTimeEntry.next] at hnext
  split at hnext
  · cases hnext
    exact h
  · cases hnext
    exact h
  · split_ifs at hnext <;> cases hnext <;> exact fun e st hplace => nomatch hplace
  · cases hnext
    refine scan_sendingIn ?_
    rw [flushFrom]
    split_ifs
    · exact Subset.refl _
    · exact (rtakeWhile_suffix _ _).subset
  · split_ifs at hnext <;> cases hnext
    · exact scan_sendingIn ((tail_suffix _).trans (dropWhile_suffix _)).subset
    · exact fun e st hplace => nomatch hplace
  · split_ifs at hnext
    cases hnext
    exact fun e st hplace => nomatch hplace

/-- Everything but the thread itself lets an entry keep its number, and can only stop it from sending. -/
structure Follows (t t' : LogTimeEntry) : Prop where
  client : t'.client = t.client
  start : t'.start = t.start
  watching : t'.watching = t.watching
  place : ∀ e start, t'.place = .sending e start → t.place = .sending e start

theorem Follows.sendingIn {elements' : List LogBufferElement} (h : Follows t t')
    (hkept : ∀ e start, t.place = .sending e start → e ∈ elements →
      t.watching e.logId → t.start = e.sequence → e ∈ elements')
    (ht : SendingIn elements t) : SendingIn elements' t' := by
  intro e start hplace
  obtain ⟨hmem, hstart, hwatching⟩ := ht e start (h.place e start hplace)
  exact ⟨hkept e start (h.place e start hplace) hmem hwatching hstart, h.start.trans hstart,
    by rw [h.watching]; exact hwatching⟩

theorem follows_trigger (t : LogTimeEntry) : Follows t t.trigger := by
  rw [trigger]
  split_ifs
  · exact ⟨rfl, rfl, rfl, fun e start h => nomatch h⟩
  · exact ⟨rfl, rfl, rfl, fun e start h => h⟩

theorem follows_notify (t : LogTimeEntry) : Follows t t.notify := by
  rw [notify]
  have h := follows_trigger t
  split_ifs
  · exact { h with place := fun e start h => nomatch h }
  · exact { h with }

theorem follows_asked (t : LogTimeEntry) (ask : Ask) : Follows t (t.asked id ask) := by
  cases ask with
  | release =>
    have h := follows_trigger { t with release := true }
    exact { h with }
  | skip rows => exact ⟨rfl, rfl, rfl, fun e start h => h⟩

theorem mem_onClient {c : Nat} {f : LogTimeEntry → Option LogTimeEntry} (ht : t ∈ onClient c f times) :
    ∃ u ∈ times, u.client = c ∧ f u = some t ∨ u = t := by
  rw [onClient, mem_filterMap] at ht
  obtain ⟨u, hu, hut⟩ := ht
  split_ifs at hut with hc
  · exact ⟨u, hu, Or.inl ⟨hc, hut⟩⟩
  · exact ⟨u, hu, Or.inr (Option.some.inj hut)⟩

theorem mem_pruned {p : Pass} (ht : t ∈ (s.pruned id p).times) :
    ∃ u ∈ s.times, t = u ∨ ∃ ask, t = u.asked id ask := by
  rw [System.pruned] at ht
  split at ht
  · obtain ⟨u, hu, ⟨-, hut⟩ | rfl⟩ := mem_onClient ht
    · exact ⟨u, hu, Or.inr ⟨_, (Option.some.inj hut).symm⟩⟩
    · exact ⟨u, hu, Or.inl rfl⟩
  · exact ⟨t, ht, Or.inl rfl⟩

theorem follows_pruned {p : Pass} (ht : t ∈ (s.pruned id p).times) :
    ∃ u ∈ s.times, Follows u t := by
  obtain ⟨u, hu, rfl | ⟨ask, rfl⟩⟩ := mem_pruned ht
  · exact ⟨t, hu, rfl, rfl, rfl, fun _ _ hplace => hplace⟩
  · exact ⟨u, hu, follows_asked u ask⟩

/-- No step of a reader, of a writer or of `prune` takes away what a reader is sending. -/
def Safe (s : System) : Prop := ∀ t ∈ s.times, SendingIn s.buffer.logElements t

theorem mem_place {x : LogBufferElement} (h : x ∈ elements) : x ∈ place times e elements := by
  obtain ⟨a, r, rfl, hplace⟩ := place_eq times e elements
  rw [hplace]
  rcases mem_append.1 h with h | h
  · exact mem_append_left _ h
  · exact mem_append_right _ (mem_cons_of_mem _ h)

/-- What a reader has not passed is protected from `prune`. -/
theorem mem_of_protected {before after : List LogBufferElement}
    (hfilter : after.filter (isProtected times id uid) = before.filter (isProtected times id uid))
    (ht : t ∈ times) (howned : t.place ≠ .stopped) (hmem : e ∈ before)
    (hwatching : t.watching e.logId) (hstart : t.start ≤ e.sequence) : e ∈ after := by
  have hprotected : isProtected times id uid e := by
    by_cases hid : e.logId = id
    · have hany : times.any (fun t => t.owned && t.watching id && decide (t.start ≤ e.sequence)) := by
        refine any_eq_true.2 ⟨t, ht, ?_⟩
        simp [owned, howned, ← hid, hwatching, hstart]
      simp [isProtected, hany]
    · simp [isProtected, hid]
  exact (mem_filter.1 (hfilter ▸ mem_filter.2 ⟨hmem, hprotected⟩)).1

theorem Safe.step (h : Safe s) (a : Action) : Safe (s.step a) := by
  cases a with
  | construct => exact h
  | refuse e =>
    rw [System.step]
    split_ifs <;> exact h
  | log env e =>
    rw [System.step]
    split_ifs
    · intro t ht
      simp only [System.log, mem_map] at ht
      obtain ⟨u, hu, rfl⟩ := ht
      obtain ⟨v, hv, hfollows⟩ := follows_pruned hu
      refine Follows.sendingIn
        { hfollows with } ?_ (h v hv)
      intro x start hplace hx hwatching hstart
      exact mem_of_protected (maybePrune_protected env (s.buffer.insert s.times e)) hv (by simp [hplace])
        (mem_place hx) hwatching hstart.le
    · exact h
  | prune env id rows uid =>
    intro t ht
    obtain ⟨v, hv, hfollows⟩ := follows_pruned ht
    refine hfollows.sendingIn ?_ (h v hv)
    intro x start hplace hx hwatching hstart
    exact mem_of_protected (prunePass_protected env s.buffer rows) hv (by simp [hplace]) hx
      hwatching hstart.le
  | register t =>
    rw [System.step]
    split_ifs
    · exact h
    · intro u hu
      rcases mem_cons.1 hu with rfl | hu
      · intro e start hplace
        rw [fresh] at hplace
        split_ifs at hplace
      · exact h u hu
  | notify c =>
    intro t ht
    obtain ⟨u, hu, ⟨-, hut⟩ | rfl⟩ := mem_onClient ht
    · cases hut
      exact (follows_notify u).sendingIn (fun e start _ hmem _ _ => hmem) (h u hu)
    · exact h u hu
  | reader c ok =>
    intro t ht
    obtain ⟨u, hu, ⟨-, hut⟩ | rfl⟩ := mem_onClient ht
    · exact next_sendingIn hut (h u hu)
    · exact h u hu

/-- `prune` leaves the elements of other logs, of readers and of other users as they are, and in every
interleaving the element that a reader is sending stays in the list. -/
theorem prune_leaves_protected (enable : Bool) (actions : List Action) (env : Settings) (b : LogBuffer)
    (times : List LogTimeEntry) (id : LogId) (rows uid : Nat) :
    (prunePass env id (regionLock id times) uid (b.pass rows)).buffer.logElements.filter
        (isProtected times id uid) = b.logElements.filter (isProtected times id uid) ∧
      Safe ((initial enable).run actions) :=
  ⟨prunePass_protected env b rows,
    run_keeps (fun _ a _ hs => hs.step a) (fun _ ht => nomatch ht) fun _ _ => trivial⟩

end AndroidSystem.Logd
