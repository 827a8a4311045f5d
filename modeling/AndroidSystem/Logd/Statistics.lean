import AndroidSystem.Logd.ChattyCount

/-!
# The statistics of the log

The counters of `LogStatistics` are the sums over the elements of the list: sizes and numbers of elements
in every run, and the tables of users, processes and threads as long as no merge mixes two sources and no
message of the kernel is dropped while the tables of processes and threads are kept.
-/

namespace AndroidSystem.Logd

open List Function Option

/-! ## Tables -/

variable {owner : Source → Option Nat} {a b r l l' : List LogBufferElement} {e : LogBufferElement} {t : Table}
  {k : Nat}

/-- The sums over the elements that an entry is about. -/
def entryOf (owner : Source → Option Nat) (elements : List LogBufferElement) (k : Nat) : Entry :=
  ⟨tally (owner ·.source = some k) (·.getMsgLen) elements,
    tally (owner ·.source = some k) (·.getDropped) elements⟩

/-- A table holds the sums, and an entry that is missing stands for zeros. -/
def Table.Holds (t : Table) (owner : Source → Option Nat) (elements : List LogBufferElement) : Prop :=
  ∀ k, (t k).getD ⟨0, 0⟩ = entryOf owner elements k

theorem Table.Holds.congr (h : t.Holds owner l) (hsums : ∀ k, entryOf owner l' k = entryOf owner l k) :
    t.Holds owner l' :=
  fun k => (h k).trans (hsums k).symm

theorem Table.Holds.update {entry : Option Entry} (h : t.Holds owner l)
    (hentry : entry.getD ⟨0, 0⟩ = entryOf owner l' k)
    (hsums : ∀ j, j ≠ k → entryOf owner l' j = entryOf owner l j) :
    Table.Holds (update t k entry) owner l' := by
  intro j
  by_cases hj : j = k
  · subst hj
    rw [update_self, hentry]
  · rw [update_of_ne hj, h j, hsums j hj]

theorem sub64_eq {m n : Nat} (h : n ≤ m) : sub64 m n = m - n := if_pos h

theorem entryOf_insert (j : Nat) :
    entryOf owner (a ++ e :: r) j =
      if owner e.source = some j then
        ⟨(entryOf owner (a ++ r) j).size + e.getMsgLen, (entryOf owner (a ++ r) j).dropped + e.getDropped⟩
      else entryOf owner (a ++ r) j := by
  simp only [entryOf, tally_append, tally_cons]
  split_ifs
  · rw [Entry.mk.injEq]
    omega
  · simp

theorem entryOf_insert_of_ne {j : Nat} (h : owner e.source ≠ some j) :
    entryOf owner (a ++ e :: r) j = entryOf owner (a ++ r) j := by
  rw [entryOf_insert, if_neg h]

/-- What an operation with an element does to a table where it is counted, and to the others. -/
structure Updates (f : Table → Nat → Table) (e : LogBufferElement) (l l' : List LogBufferElement) : Prop where
  counted : ∀ {owner t k}, owner e.source = some k → t.Holds owner l → (f t k).Holds owner l'
  other : ∀ {owner} {t : Table}, owner e.source = none → t.Holds owner l → t.Holds owner l'

theorem updates_add : Updates (fun t k => t.add k e) e (a ++ r) (a ++ e :: r) := by
  constructor
  · intro owner t k hk h
    refine h.update ?_ fun j hj => entryOf_insert_of_ne (by rw [hk]; simpa using hj.symm)
    rw [entryOf_insert, if_pos hk, ← h k]
    rfl
  · intro owner t hnone h
    exact h.congr fun j => entryOf_insert_of_ne (by rw [hnone]; simp)

theorem updates_subtract : Updates (fun t k => t.subtract k e) e (a ++ e :: r) (a ++ r) := by
  constructor
  · intro owner t k hk h
    have hentry := h k
    rw [entryOf_insert, if_pos hk] at hentry
    have hother : ∀ j, j ≠ k → entryOf owner (a ++ r) j = entryOf owner (a ++ e :: r) j := fun j hj =>
      (entryOf_insert_of_ne (by rw [hk]; simpa using hj.symm)).symm
    simp only [Table.subtract]
    cases hold : t k with
    | none =>
      -- nothing is counted, so the element is empty
      rw [hold, getD_none, Entry.mk.injEq] at hentry
      refine h.congr fun j => ?_
      by_cases hj : j = k
      · subst hj
        rw [← h j, hold]
        ext <;> simp only [getD_none] <;> omega
      · exact hother j hj
    | some old =>
      rw [hold, getD_some] at hentry
      refine h.update ?_ hother
      rw [hentry, sub64_eq (Nat.le_add_left _ _), sub64_eq (Nat.le_add_left _ _), Nat.add_sub_cancel,
        Nat.add_sub_cancel]
      split_ifs with hzero
      · ext
        · exact hzero.1.symm
        · exact hzero.2.symm
      · rfl
  · intro owner t hnone h
    exact h.congr fun j => (entryOf_insert_of_ne (by rw [hnone]; simp)).symm

theorem updates_drop (hlen : 0 < e.getMsgLen) (hdropped : e.getDropped = 0) :
    Updates (fun t k => t.drop k e) e (a ++ e :: r) (a ++ e.setDropped 1 :: r) := by
  have hne : ∀ {owner : Source → Option Nat} {j : Nat}, owner e.source ≠ some j →
      entryOf owner (a ++ e.setDropped 1 :: r) j = entryOf owner (a ++ e :: r) j := by
    intro owner j h
    rw [entryOf_insert_of_ne (show owner (e.setDropped 1).source ≠ some j from h), entryOf_insert_of_ne h]
  constructor
  · intro owner t k hk h
    have hentry := h k
    rw [entryOf_insert, if_pos hk, hdropped] at hentry
    simp only [Table.drop]
    cases hold : t k with
    | none =>
      rw [hold, getD_none, Entry.mk.injEq] at hentry
      omega
    | some old =>
      rw [hold, getD_some] at hentry
      refine h.update ?_ fun j hj => hne (by rw [hk]; simpa using hj.symm)
      rw [entryOf_insert, if_pos (show owner (e.setDropped 1).source = some k from hk), hentry,
        sub64_eq (Nat.le_add_left _ _), Nat.add_sub_cancel]
      rfl
  · intro owner t hnone h
    exact h.congr fun j => hne (by rw [hnone]; simp)

theorem Table.Holds.merge {x : LogBufferElement} (hsource : e.source = x.source) (hlen : e.getMsgLen = 0)
    (hlen' : x.getMsgLen = 0) (h : t.Holds owner (a ++ x :: (b ++ e :: r))) :
    t.Holds owner (a ++ x.setDropped (e.getDropped + x.getDropped) :: (b ++ r)) := by
  refine h.congr fun j => ?_
  have hset : (x.setDropped (e.getDropped + x.getDropped)).source = x.source := rfl
  have hcount : (x.setDropped (e.getDropped + x.getDropped)).getDropped = e.getDropped + x.getDropped := rfl
  have hzero : (x.setDropped (e.getDropped + x.getDropped)).getMsgLen = 0 := rfl
  simp only [entryOf, tally_append, tally_cons, hset, hsource, Entry.mk.injEq]
  split_ifs <;> omega

/-! ## All counters -/

/-- The user of an element of a log. -/
def userIn (id : LogId) (k : Source) : Option Nat := if k.1 = id then some k.2.1 else none

/-- The process and the thread of an element, which are not counted for the kernel. -/
def process (k : Source) : Option Nat := if k.1 = .kernel then none else some k.2.2.1

def thread (k : Source) : Option Nat := if k.1 = .kernel then none else some k.2.2.2

/-- The tables hold the sums. -/
structure TablesHold (elements : List LogBufferElement) (s : LogStatistics) : Prop where
  uid : ∀ id, id ≠ .kernel → (s.uidTable id).Holds (userIn id) elements
  pid : s.enable = true → s.pidTable.Holds process elements
  tid : s.enable = true → s.tidTable.Holds thread elements

/-- The totals of the logs. -/
structure TotalsHold (elements : List LogBufferElement) (s : LogStatistics) : Prop where
  sizes : ∀ id, s.sizes id = tally (·.logId = id) (·.getMsgLen) elements
  elements : ∀ id, s.elements id = tally (·.logId = id) (fun _ => 1) elements

variable {s s' : LogStatistics}

theorem TablesHold.same (h : TablesHold l s) (huid : s'.uidTable = s.uidTable)
    (hpid : s'.pidTable = s.pidTable)
    (htid : s'.tidTable = s.tidTable) (henable : s'.enable = s.enable)
    (hall : ∀ {owner} {t : Table}, owner e.source = none → t.Holds owner l → t.Holds owner l')
    (hkernel : e.logId = .kernel) : TablesHold l' s' := by
  constructor
  · intro id hid
    rw [huid]
    exact hall (if_neg fun heq : e.logId = id => hid (heq.symm.trans hkernel)) (h.uid id hid)
  · intro hs
    rw [hpid]
    exact hall (if_pos hkernel) (h.pid (henable ▸ hs))
  · intro hs
    rw [htid]
    exact hall (if_pos hkernel) (h.tid (henable ▸ hs))

theorem TablesHold.tables {f : Table → Nat → Table} (h : TablesHold l s) (hf : Updates f e l l')
    (hkernel : e.logId ≠ .kernel) : TablesHold l' (s.tables f e) := by
  have huid : ∀ id, id ≠ .kernel →
      (update s.uidTable e.logId (f (s.uidTable e.logId) e.uid) id).Holds (userIn id) l' := by
    intro id hid
    by_cases heq : id = e.logId
    · subst heq
      rw [update_self]
      exact hf.counted (if_pos rfl) (h.uid _ hid)
    · rw [update_of_ne heq]
      exact hf.other (if_neg fun hlog : e.logId = id => heq hlog.symm) (h.uid id hid)
  rw [LogStatistics.tables]
  split_ifs with henable
  · exact ⟨huid, fun hs => hf.counted (if_neg hkernel) (h.pid hs),
      fun hs => hf.counted (if_neg hkernel) (h.tid hs)⟩
  · exact ⟨huid, fun hs => absurd hs henable, fun hs => absurd hs henable⟩

namespace LogStatistics

variable (s : LogStatistics) (f : Table → Nat → Table) (e : LogBufferElement)

@[simp] theorem tables_sizes : (s.tables f e).sizes = s.sizes := by
  rw [tables]
  split_ifs <;> rfl

@[simp] theorem tables_elements : (s.tables f e).elements = s.elements := by
  rw [tables]
  split_ifs <;> rfl

@[simp] theorem tables_enable : (s.tables f e).enable = s.enable := by
  rw [tables]
  split_ifs <;> rfl

end LogStatistics

/-- The totals are right, and messages are of certain lengths. -/
structure Counted (P : Nat → Prop) (enable : Bool) (c : Contents) : Prop where
  enable_eq : c.2.enable = enable
  lengths : ∀ e ∈ c.1, e.getDropped = 0 → P e.getMsgLen
  totals : TotalsHold c.1 c.2

variable {P : Nat → Prop} {enable : Bool}

theorem Counted.add (h : Counted P enable (a ++ r, s)) (he : P e.getMsgLen) :
    Counted P enable (a ++ e :: r, s.add e) := by
  have hsizes : (s.add e).sizes = update s.sizes e.logId (s.sizes e.logId + e.getMsgLen) := by
    rw [LogStatistics.add]
    split_ifs <;> simp
  have helements : (s.add e).elements = update s.elements e.logId (s.elements e.logId + 1) := by
    rw [LogStatistics.add]
    split_ifs <;> simp
  refine ⟨?_, ?_, ?_, ?_⟩
  · rw [← h.enable_eq, LogStatistics.add]
    split_ifs <;> simp
  · intro x hx
    rcases eq_or_ne x e with rfl | hne
    · exact fun _ => he
    · exact h.lengths x (by grind)
  · intro id
    have := h.totals.sizes id
    simp only [hsizes, tally_append, tally_cons] at *
    grind
  · intro id
    have := h.totals.elements id
    simp only [helements, tally_append, tally_cons] at *
    grind

theorem Counted.subtract (h : Counted P enable (a ++ e :: r, s)) :
    Counted P enable (a ++ r, s.subtract e) := by
  have hsizes : (s.subtract e).sizes =
      update s.sizes e.logId (sub64 (s.sizes e.logId) e.getMsgLen) := by
    rw [LogStatistics.subtract]
    split_ifs <;> simp
  have helements : (s.subtract e).elements =
      update s.elements e.logId (sub64 (s.elements e.logId) 1) := by
    rw [LogStatistics.subtract]
    split_ifs <;> simp
  refine ⟨?_, fun x hx => h.lengths x (by grind), ?_, ?_⟩
  · rw [← h.enable_eq, LogStatistics.subtract]
    split_ifs <;> simp
  · intro id
    have := h.totals.sizes id
    simp only [hsizes, tally_append, tally_cons, sub64] at *
    grind
  · intro id
    have := h.totals.elements id
    simp only [helements, tally_append, tally_cons, sub64] at *
    grind

theorem Counted.drop (h : Counted P enable (a ++ e :: r, s)) :
    Counted P enable (a ++ e.setDropped 1 :: r, s.drop e) := by
  have hlog : (e.setDropped 1).logId = e.logId := rfl
  have hlen : (e.setDropped 1).getMsgLen = 0 := rfl
  refine ⟨?_, ?_, ?_, ?_⟩
  · rw [← h.enable_eq]
    simp [LogStatistics.drop]
  · intro x hx
    rcases eq_or_ne x (e.setDropped 1) with rfl | hne
    · exact fun hzero => absurd hzero one_ne_zero
    · exact h.lengths x (by grind)
  · intro id
    have := h.totals.sizes id
    simp only [LogStatistics.drop, LogStatistics.tables_sizes, tally_append, tally_cons, sub64] at *
    grind
  · intro id
    have := h.totals.elements id
    simpa [LogStatistics.drop, hlog] using this

theorem Counted.merge {x : LogBufferElement} (hlog : e.logId = x.logId)
    (hlen : e.getMsgLen = 0) (hlen' : x.getMsgLen = 0) (h : Counted P enable (a ++ x :: (b ++ e :: r), s)) :
    Counted P enable (a ++ x.setDropped (e.getDropped + x.getDropped) :: (b ++ r), s.erase e) := by
  have hset : (x.setDropped (e.getDropped + x.getDropped)).logId = x.logId := rfl
  have hzero : (x.setDropped (e.getDropped + x.getDropped)).getMsgLen = 0 := rfl
  have hcount : (x.setDropped (e.getDropped + x.getDropped)).getDropped = e.getDropped + x.getDropped := rfl
  refine ⟨h.enable_eq, ?_, ?_, ?_⟩
  · intro y hy
    rcases eq_or_ne y (x.setDropped (e.getDropped + x.getDropped)) with rfl | hne
    · intro hsum
      rw [hcount, Nat.add_eq_zero_iff] at hsum
      rw [hzero, ← hlen']
      exact h.lengths x (by simp) hsum.2
    · exact h.lengths y (by grind)
  · intro id
    have := h.totals.sizes id
    simp only [LogStatistics.erase, tally_append, tally_cons, hzero, hlen, hlen', ite_self] at *
    omega
  · intro id
    have := h.totals.elements id
    simp only [LogStatistics.erase, tally_append, tally_cons, sub64] at *
    grind

/-! ## Runs -/

/-- No message of the kernel is dropped. -/
def Event.SparesKernel : Event → Prop
  | dropped e => e.logId ≠ .kernel
  | _ => True

variable {q : Scope} {event : Event} {trace : List Event} {c c' : Contents}

theorem Does.counted (h : Does q event c c') (hc : Counted P enable c) : Counted P enable c' := by
  cases h with
  | erased => exact hc.subtract
  | merged he hl _ hlen' hlen => exact hc.merge (he.1.trans hl.1.symm) hlen hlen'
  | dropped => exact hc.drop

theorem TablesHold.add (h : TablesHold (a ++ r) s) : TablesHold (a ++ e :: r) (s.add e) := by
  rw [LogStatistics.add]
  split_ifs with hkernel
  · exact h.same rfl rfl rfl rfl updates_add.other hkernel
  · exact TablesHold.tables ⟨h.uid, h.pid, h.tid⟩ updates_add hkernel

theorem TablesHold.subtract (h : TablesHold (a ++ e :: r) s) :
    TablesHold (a ++ r) (s.subtract e) := by
  rw [LogStatistics.subtract]
  split_ifs with hkernel
  · exact h.same rfl rfl rfl rfl updates_subtract.other hkernel
  · exact TablesHold.tables ⟨h.uid, h.pid, h.tid⟩ updates_subtract hkernel

theorem TablesHold.drop (h : TablesHold (a ++ e :: r) s) (hlen : 0 < e.getMsgLen)
    (hdropped : e.getDropped = 0)
    (hkernel : s.enable = true → e.logId ≠ .kernel) :
    TablesHold (a ++ e.setDropped 1 :: r) (s.drop e) := by
  have hupdates : Updates (fun t k => t.drop k e) e (a ++ e :: r) (a ++ e.setDropped 1 :: r) :=
    updates_drop hlen hdropped
  rw [LogStatistics.drop]
  by_cases hlog : e.logId = .kernel
  · -- only the table of the kernel's users changes
    have henable : ¬s.enable = true := fun hs => hkernel hs hlog
    rw [LogStatistics.tables]
    simp only [if_neg henable]
    refine ⟨fun id hid => ?_, fun hs => absurd hs henable, fun hs => absurd hs henable⟩
    have hne : id ≠ e.logId := fun heq => hid (heq.trans hlog)
    simp only [update_of_ne hne]
    exact hupdates.other (if_neg fun heq : e.logId = id => hne heq.symm) (h.uid id hid)
  · exact TablesHold.tables ⟨h.uid, h.pid, h.tid⟩ hupdates hlog

/-- What a step must not do. -/
def Fair (enable : Bool) (event : Event) : Prop :=
  event.SameSource ∧ (enable = true → event.SparesKernel)

instance : DecidablePred Event.SparesKernel
  | .erased _ | .merged _ _ => instDecidableTrue
  | .dropped _ => instDecidableNot

instance (enable : Bool) : DecidablePred (Fair enable) :=
  fun _ => @instDecidableAnd _ _ _ (forall_prop_decidable _)

theorem Does.tablesHold (h : Does q event c c') (hP : ∀ n, P n → 0 < n) (hc : Counted P enable c)
    (hfair : Fair enable event) (htables : TablesHold c.1 c.2) : TablesHold c'.1 c'.2 := by
  obtain ⟨hsource, hkernel⟩ := hfair
  cases h with
  | erased => exact htables.subtract
  | merged _ _ _ hlen' hlen =>
    exact ⟨fun id hid => (htables.uid id hid).merge hsource hlen hlen',
      fun hs => (htables.pid hs).merge hsource hlen hlen',
      fun hs => (htables.tid hs).merge hsource hlen hlen'⟩
  | dropped _ hdropped =>
    exact htables.drop (hP _ (hc.lengths _ (mem_append_right _ mem_cons_self) hdropped)) hdropped
      fun hs => hkernel (hc.enable_eq ▸ hs)

/-- The tables are right as well, if messages are not empty and all events are fair. -/
structure Right (P : Nat → Prop) (enable : Bool) (trace : List Event) (c : Contents) : Prop where
  counted : Counted P enable c
  tables : (∀ n, P n → 0 < n) → (∀ event ∈ trace, Fair enable event) → TablesHold c.1 c.2

theorem Runs.right {before : List Event} (h : Runs q c trace c') (hc : Right P enable before c) :
    Right P enable (before ++ trace) c' := by
  induction h with
  | nil => rwa [append_nil]
  | snoc _ hdoes ih =>
    refine ⟨hdoes.counted ih.counted, fun hP hfair => ?_⟩
    rw [← append_assoc] at hfair
    exact hdoes.tablesHold hP ih.counted (hfair _ (mem_append_right _ mem_cons_self))
      (ih.tables hP fun event h => hfair event (mem_append_left _ h))

theorem Right.add (h : Right P enable trace (a ++ r, s)) (he : P e.getMsgLen) :
    Right P enable trace (a ++ e :: r, s.add e) :=
  ⟨h.counted.add he, fun hP hfair => (h.tables hP hfair).add⟩

/-- The invariant of a run. -/
structure RunCounted (P : Nat → Prop) (enable : Bool) (s : System) : Prop where
  right : Right P enable s.trace (s.buffer.logElements, s.buffer.stats)
  pending : ∀ e ∈ s.pending, e.getDropped = 0 ∧ P e.getMsgLen

variable {y : System} {x : LogBuffer}

/-- A new element is counted before the log is pruned. -/
theorem Right.insert (h : Right P enable trace (x.logElements, x.stats)) (times : List LogTimeEntry)
    (he : P e.getMsgLen) :
    Right P enable trace ((x.insert times e).logElements, (x.insert times e).stats) := by
  obtain ⟨a, r, hsplit, hplace⟩ := place_eq times e x.logElements
  rw [hsplit] at h
  rw [LogBuffer.insert]
  simp only [hplace]
  exact h.add he

theorem RunCounted.step (h : RunCounted P enable y) {action : Action} (hlen : action.Length P) :
    RunCounted P enable (y.step action) := by
  have herase : ∀ e, ∀ x ∈ y.pending.erase e, x.getDropped = 0 ∧ P x.getMsgLen :=
    fun e x hx => h.pending x (erase_subset hx)
  cases action with
  | construct id uid pid tid realTime len =>
    refine ⟨h.right, ?_⟩
    intro e he
    rcases mem_cons.1 he with rfl | he
    · exact ⟨rfl, hlen⟩
    · exact h.pending e he
  | refuse e =>
    rw [System.step]
    split_ifs with he
    · -- the element is counted and taken back at the end of the list
      have hadd : Right P enable y.trace (y.buffer.logElements ++ e :: [], y.buffer.stats.add e) :=
        Right.add ((append_nil _).symm ▸ h.right) (h.pending e he).2
      have hback : Right P enable y.trace (y.buffer.logElements ++ [], (y.buffer.stats.add e).subtract e) :=
        ⟨hadd.counted.subtract, fun hP hfair => (hadd.tables hP hfair).subtract⟩
      rw [append_nil] at hback
      exact ⟨hback, herase e⟩
    · exact h
  | log env e =>
    rw [System.step]
    split_ifs with he
    · have hruns := maybePrune_runs env e.logId (regionLock e.logId y.times) (y.buffer.insert y.times e)
      rw [Traced, append_nil] at hruns
      exact ⟨hruns.right (h.right.insert y.times (h.pending e he).2), herase e⟩
    · exact h
  | prune env id rows uid =>
    have hruns := prunePass_runs env id (regionLock id y.times) uid y.buffer rows
    rw [Traced, append_nil] at hruns
    exact ⟨hruns.right h.right, h.pending⟩
  | register t =>
    rw [System.step]
    split_ifs <;> exact ⟨h.right, h.pending⟩
  | notify | reader => exact ⟨h.right, h.pending⟩

theorem run_counted {actions : List Action} (hlen : ∀ a ∈ actions, a.Length P) :
    RunCounted P enable ((initial enable).run actions) := by
  refine run_keeps (fun _ _ ha hs => hs.step ha) ⟨⟨⟨rfl, ?_, fun _ => rfl, fun _ => rfl⟩, ?_⟩, ?_⟩ hlen
  · exact fun e he => absurd he not_mem_nil
  · exact fun _ _ => ⟨fun _ _ _ => rfl, fun _ _ => rfl, fun _ _ => rfl⟩
  · exact fun e he => absurd he not_mem_nil

/-- The counters are the sums over the elements, so none of them has wrapped. -/
def LogBuffer.StatisticsHold (b : LogBuffer) : Prop :=
  TotalsHold b.logElements b.stats ∧ TablesHold b.logElements b.stats

/-- In every run of messages that are not empty, in which no merge mixes two sources and no message of the
kernel is dropped while the tables of processes and threads are kept, the counters are right. -/
theorem run_statistics (enable : Bool) (actions : List Action) (hlen : ∀ a ∈ actions, a.Length (0 < ·))
    (hfair : ∀ event ∈ ((initial enable).run actions).trace, Fair enable event) :
    ((initial enable).run actions).buffer.StatisticsHold :=
  ⟨(run_counted hlen).right.counted.totals, (run_counted hlen).right.tables (fun _ h => h) hfair⟩

/-- Messages of some processes of users are logged. -/
def logMessages (env : Settings) : Nat → List (Nat × Nat × Nat) → List Action
  | _, [] => []
  | n, (uid, pid, len) :: rest =>
    .construct .main uid pid pid ⟨100, 0⟩ len :: .log env (message uid pid n len) ::
      logMessages env (n + 1) rest

/-- The messages of `twoProcesses`, and then the log is cleared by root. -/
def clearProcesses (pid : Nat) : List Action :=
  logMessages plainSettings 1
      [(1000, 7, 10), (10050, 5, 4076), (10050, pid, 4076), (10050, 5, 4076)] ++
    [.prune plainSettings .main (2 ^ 64 - 1) aidRoot]

/-- Messages of one process are dropped, merged and erased. -/
theorem run_statistics_cleared :
    ((initial true).run (clearProcesses 5)).trace.length = 6 ∧
      ((initial true).run (clearProcesses 5)).buffer.StatisticsHold := by
  refine ⟨by decide +kernel, run_statistics true _ ?_ (by decide +kernel)⟩
  simp [clearProcesses, logMessages, Action.Length]

/-- The list is empty, and yet a message of process 65541 is counted as dropped. -/
theorem run_statistics_wrong :
    ¬((initial true).run (clearProcesses 65541)).buffer.StatisticsHold := by
  intro h
  have henable : ((initial true).run (clearProcesses 65541)).buffer.stats.enable = true := by
    decide +kernel
  have hsums := h.2.pid henable 65541
  exact absurd hsums (by decide)

end AndroidSystem.Logd
