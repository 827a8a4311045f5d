import AndroidSystem.Logd.ReaderSafety
import AndroidSystem.Logd.Statistics

/-!
# A streaming reader

A blocking reader goes through the list by sequence numbers: each round starts behind the last number it
has seen. Everything that is logged while it is there is sent once and in order, if messages are put into
the list in the order of their numbers and no notification comes between the end of a round and the wait.
-/

namespace AndroidSystem.Logd

open List LogTimeEntry

variable {t t' : LogTimeEntry} {e : LogBufferElement} {start : Nat} {elements l : List LogBufferElement}

variable {x : LogBufferElement} {ok : Bool} {q : Scope} {c c' : Contents}

abbrev Sorted (elements : List LogBufferElement) : Prop := elements.Pairwise (·.sequence < ·.sequence)

namespace LogTimeEntry

/-- An element that the reader has not come to yet. -/
def Ahead (t : LogTimeEntry) (x : LogBufferElement) : Prop :=
  match t.place with
  | .second start => start < x.sequence
  | .sending e _ => e.sequence ≤ x.sequence
  | _ => t.start < x.sequence

/-- An element that was sent, or had to be skipped, or the reader has been given up. -/
def Done (t : LogTimeEntry) (x : LogBufferElement) : Prop :=
  x ∈ t.sent ∨ x ∈ t.skipped ∨ t.isError = true

/-- What is known of the start of a round. -/
def Bounds (t : LogTimeEntry) : Prop :=
  match t.place with
  | .second start => start ≤ t.start
  | .sending e start => start < e.sequence
  | _ => True

end LogTimeEntry

/-- The element is in the list, a message, and locked. -/
structure Waits (elements : List LogBufferElement) (start : Nat) (x : LogBufferElement) : Prop where
  mem : x ∈ elements
  message : x.getDropped = 0
  locked : start ≤ x.sequence

/-- The invariant of a streaming reader. -/
structure Track (elements : List LogBufferElement) (t : LogTimeEntry) : Prop where
  sorted : Sorted elements
  blocking : t.nonBlock = false
  privileged : t.privileged = true
  running : t.place ≠ .stopped
  sendingIn : SendingIn elements t
  bounds : t.Bounds
  arrived : ∀ x ∈ t.arrived, t.wants x → t.Done x ∨ (t.Ahead x ∧ Waits elements t.start x)
  resting : t.place = .flushed ∨ t.place = .waiting → t.owed = 0 → ∀ x ∈ t.arrived, t.wants x → t.Done x
  ordered : t.sent.Pairwise fun a b => b.sequence < a.sequence
  behind : ∀ x ∈ t.sent, ¬t.Ahead x

/-! ## The second pass -/

/-- What `FilterSecondPass` changes: an element that a blocking reader wants is skipped only on request. -/
theorem filterSecondPass_spec {verdict : Verdict} (hblocking : t.nonBlock = false)
    (h : t.filterSecondPass e = (t', verdict)) :
    ∃ skipAhead leadingDropped index tail skipped,
      t' = { t with start := e.sequence, skipAhead, leadingDropped, index, tail, skipped } ∧
      (∀ x ∈ t.skipped, x ∈ skipped) ∧
      (verdict = .skip → t.wants e → e.getDropped = 0 → e ∈ skipped) ∧
      (verdict = .stop → t.isError = true) := by
  rw [filterSecondPass] at h
  simp only [filterTail] at h
  split_ifs at h with hskip hleading hstop hwants herror htail hindex
  · cases h
    exact ⟨_, _, _, _, _, rfl, fun x hx => mem_cons_of_mem _ hx, fun _ _ _ => mem_cons_self, by simp⟩
  · cases h
    exact ⟨_, _, _, _, _, rfl, fun x hx => hx, fun _ _ hzero => absurd hzero hleading.2, by simp⟩
  · simp [hblocking] at hstop
  · cases h
    exact ⟨_, _, _, _, _, rfl, fun x hx => hx,
      fun _ hw => absurd (hwants.symm.trans hw) Bool.false_ne_true, by simp⟩
  · cases h
    exact ⟨_, _, _, _, _, rfl, fun x hx => hx, by simp, fun _ => herror⟩
  · cases h
    exact ⟨_, _, _, _, _, rfl, fun x hx => hx, by simp, by simp⟩
  · cases h
    exact ⟨_, _, _, _, _, rfl, fun x hx => mem_cons_of_mem _ hx, fun _ _ _ => mem_cons_self, by simp⟩
  all_goals
    cases h
    exact ⟨_, _, _, _, _, rfl, fun x hx => hx, by simp, by simp⟩

/-- A round, between two elements: what is left to do is in the rest of the list. -/
structure Scanning (start : Nat) (rest : List LogBufferElement) (t : LogTimeEntry) : Prop where
  blocking : t.nonBlock = false
  privileged : t.privileged = true
  todo : ∀ x ∈ t.arrived, t.wants x → t.Done x ∨ (x ∈ rest ∧ start < x.sequence ∧ x.getDropped = 0)
  ordered : t.sent.Pairwise fun a b => b.sequence < a.sequence
  passed : ∀ x ∈ t.sent, x.sequence ≤ t.start
  before : ∀ x ∈ t.sent, ∀ y ∈ rest, start < y.sequence → x.sequence < y.sequence

theorem Scanning.track (h : Scanning start l t) (hsorted : Sorted elements) (hl : l <:+ elements) :
    Track elements (t.scan start l) := by
  have hsending : SendingIn elements (t.scan start l) := scan_sendingIn hl.subset
  induction l generalizing t with
  | nil =>
    have hdone : ∀ x ∈ t.arrived, t.wants x → t.Done x := by
      intro x hx hwants
      exact (h.todo x hx hwants).resolve_right fun h => absurd h.1 not_mem_nil
    exact ⟨hsorted, h.blocking, h.privileged, Place.noConfusion, hsending, trivial,
      fun x hx hwants => Or.inl (hdone x hx hwants), fun _ _ => hdone, h.ordered,
      fun x hx => not_lt.2 (h.passed x hx)⟩
  | cons e l ih =>
    have hl' : l <:+ elements := (suffix_cons e l).trans hl
    have hlt : ∀ x ∈ l, e.sequence < x.sequence := (pairwise_cons.1 (hsorted.sublist hl.sublist)).1
    rw [scan] at hsending ⊢
    by_cases hvisit : start < e.sequence
    · have hvisits : t.visits start e = true := by simp [visits, h.privileged, hvisit]
      rw [if_pos hvisits] at hsending ⊢
      rcases hpass : t.filterSecondPass e with ⟨u, verdict⟩
      rw [hpass] at hsending
      obtain ⟨skipAhead, leading, index, tail, skipped, rfl, hskipped, hskip, hstop⟩ :=
        filterSecondPass_spec h.blocking hpass
      have hdone : ∀ x, t.Done x → Done
          { t with start := e.sequence, skipAhead, leadingDropped := leading, index, tail, skipped } x :=
        fun x hx => hx.imp_right fun hx => hx.imp_left (hskipped x)
      have hpassed : ∀ x ∈ t.sent, x.sequence < e.sequence :=
        fun x hx => h.before x hx e mem_cons_self hvisit
      cases verdict with
      | skip =>
        refine ih ⟨h.blocking, h.privileged, ?_, h.ordered, fun x hx => (hpassed x hx).le, ?_⟩ hl' hsending
        · intro x hx hwants
          rcases h.todo x hx hwants with hx | ⟨hmem, hstart, hzero⟩
          · exact Or.inl (hdone x hx)
          · rcases mem_cons.1 hmem with rfl | hmem
            · exact Or.inl (Or.inr (Or.inl (hskip rfl hwants hzero)))
            · exact Or.inr ⟨hmem, hstart, hzero⟩
        · exact fun x hx y hy => h.before x hx y (mem_cons_of_mem _ hy)
      | stop =>
        have herror := hstop rfl
        exact ⟨hsorted, h.blocking, h.privileged, Place.noConfusion, hsending, trivial,
          fun _ _ _ => Or.inl (Or.inr (Or.inr herror)), fun _ _ _ _ _ => Or.inr (Or.inr herror), h.ordered,
          fun x hx => not_lt.2 (hpassed x hx).le⟩
      | send =>
        refine ⟨hsorted, h.blocking, h.privileged, Place.noConfusion, hsending, hvisit,
          ?_, by simp, h.ordered,
          fun x hx => not_le.2 (hpassed x hx)⟩
        intro x hx hwants
        rcases h.todo x hx hwants with hx | ⟨hmem, hstart, hzero⟩
        · exact Or.inl (hdone x hx)
        · have hle : e.sequence ≤ x.sequence := by
            rcases mem_cons.1 hmem with rfl | hmem
            · exact le_rfl
            · exact (hlt x hmem).le
          exact Or.inr ⟨hle, hl.subset hmem, hzero, hle⟩
    · have hvisits : ¬t.visits start e = true := by simp [visits, hvisit]
      rw [if_neg hvisits] at hsending ⊢
      refine ih ⟨h.blocking, h.privileged, ?_, h.ordered, h.passed, ?_⟩ hl' hsending
      · intro x hx hwants
        rcases h.todo x hx hwants with hx | ⟨hmem, hstart, hzero⟩
        · exact Or.inl hx
        · exact Or.inr ⟨(mem_cons.1 hmem).resolve_left fun heq => hvisit (heq ▸ hstart), hstart, hzero⟩
      · exact fun x hx y hy => h.before x hx y (mem_cons_of_mem _ hy)

/-! ## The first pass -/

/-- The first pass moves `mStart`, but not beyond a message that the reader wants. -/
theorem firstPass_spec (l : List LogBufferElement) (t : LogTimeEntry) :
    ∃ leadingDropped start count,
      l.foldl filterFirstPass t = { t with leadingDropped, start, count } ∧
      (start = t.start ∨ ∃ y ∈ l, start = y.sequence) ∧ (t.count ≠ 0 → start = t.start) ∧
      (Sorted l → ∀ x ∈ l, t.wants x → x.getDropped = 0 → t.start ≤ x.sequence → start ≤ x.sequence) := by
  induction l generalizing t with
  | nil => exact ⟨_, _, _, rfl, Or.inl rfl, fun _ => rfl, fun _ x hx => absurd hx not_mem_nil⟩
  | cons y l ih =>
    rw [foldl_cons, filterFirstPass]
    by_cases hleading : t.leadingDropped = true ∧ y.getDropped ≠ 0
    · rw [if_pos hleading]
      obtain ⟨leading, start, count, heq, hstart, hcount, hwanted⟩ := ih t
      refine ⟨leading, start, count, heq, hstart.imp_right ?_, hcount, ?_⟩
      · rintro ⟨x, hx, rfl⟩
        exact ⟨x, mem_cons_of_mem _ hx, rfl⟩
      · intro hsorted x hx hwants hzero
        rcases mem_cons.1 hx with rfl | hx
        · exact absurd hzero hleading.2
        · exact hwanted (pairwise_cons.1 hsorted).2 x hx hwants hzero
    · rw [if_neg hleading]
      generalize hnew : (if t.count = 0 then y.sequence else t.start) = new
      generalize hn : (if t.wants y = true then t.count + 1 else t.count) = n
      have hcases : new = t.start ∨ new = y.sequence := by
        rw [← hnew]
        split_ifs
        · exact Or.inr rfl
        · exact Or.inl rfl
      obtain ⟨leading, start, count, heq, hstart, hcount, hwanted⟩ :=
        ih { t with leadingDropped := false, start := new, count := n }
      refine ⟨leading, start, count, heq, ?_, ?_, ?_⟩
      · rcases hstart with rfl | ⟨x, hx, rfl⟩
        · exact hcases.imp_right fun h => ⟨y, mem_cons_self, h⟩
        · exact Or.inr ⟨x, mem_cons_of_mem _ hx, rfl⟩
      · intro hzero
        rw [if_neg hzero] at hnew
        rw [hnew]
        refine hcount ?_
        change n ≠ 0
        rw [← hn]
        split_ifs <;> omega
      · intro hsorted x hx hwants hzero hle
        obtain ⟨hlt, hsorted'⟩ := pairwise_cons.1 hsorted
        rcases mem_cons.1 hx with rfl | hx
        · -- from here on something is counted, and the number stays
          have hfixed : start = new := by
            refine hcount ?_
            rw [← hn, if_pos hwants]
            exact Nat.succ_ne_zero _
          rw [hfixed]
          rcases hcases with rfl | rfl
          · exact hle
          · exact le_rfl
        · refine hwanted hsorted' x hx hwants hzero ?_
          rcases hcases with h | h
          · exact h.trans_le hle
          · exact h.trans_le (hlt x hx).le

/-! ## Steps of the thread -/

theorem mem_flushFrom (hsorted : Sorted elements) (hx : x ∈ elements) (hlt : start < x.sequence) :
    x ∈ flushFrom start elements := by
  rw [flushFrom]
  split_ifs
  · exact hx
  · obtain ⟨a, b, rfl⟩ := append_of_mem hx
    have hall : ∀ y ∈ (x :: b).reverse, decide (start < y.sequence) = true := by
      intro y hy
      rcases mem_cons.1 (mem_reverse.1 hy) with rfl | hy
      · exact decide_eq_true hlt
      · exact decide_eq_true (hlt.trans ((pairwise_cons.1 (pairwise_append.1 hsorted).2.1).1 y hy))
    rw [rtakeWhile, mem_reverse, reverse_append, takeWhile_append_of_pos hall]
    exact mem_append_left _ (mem_reverse.2 mem_cons_self)

theorem flushFrom_suffix (start : Nat) (elements : List LogBufferElement) :
    flushFrom start elements <:+ elements := by
  rw [flushFrom]
  split_ifs
  · exact suffix_refl _
  · exact rtakeWhile_suffix _ _

theorem mem_behind (hsorted : Sorted elements) (he : e ∈ elements) :
    x ∈ (elements.dropWhile (·.sequence ≠ e.sequence)).tail ↔ x ∈ elements ∧ e.sequence < x.sequence := by
  obtain ⟨a, b, rfl⟩ := append_of_mem he
  obtain ⟨-, hb, hab⟩ := pairwise_append.1 hsorted
  have ha : ∀ y ∈ a, decide (y.sequence ≠ e.sequence) = true :=
    fun y hy => decide_eq_true (hab y hy e mem_cons_self).ne
  rw [dropWhile_append_of_pos ha, dropWhile_cons_of_neg (by simp)]
  constructor
  · intro hx
    exact ⟨mem_append_right _ (mem_cons_of_mem _ hx), (pairwise_cons.1 hb).1 x hx⟩
  · rintro ⟨hx, hlt⟩
    rcases mem_append.1 hx with hx | hx
    · exact absurd (hab x hx e mem_cons_self) hlt.asymm
    · exact (mem_cons.1 hx).resolve_left fun heq => lt_irrefl _ (heq ▸ hlt)

theorem eq_of_sequence (hsorted : Sorted elements) (hx : x ∈ elements) (he : e ∈ elements)
    (heq : x.sequence = e.sequence) : x = e := by
  obtain ⟨a, b, rfl⟩ := append_of_mem he
  obtain ⟨-, hb, hab⟩ := pairwise_append.1 hsorted
  rcases mem_append.1 hx with hx | hx
  · exact absurd heq (hab x hx e mem_cons_self).ne
  · refine (mem_cons.1 hx).resolve_right fun hx => ?_
    exact absurd heq ((pairwise_cons.1 hb).1 x hx).ne'

section

variable (h : Track elements t)
include h

theorem Track.first (hplace : t.place = .top) (hvisited : l <:+ elements)
    (hmem : ∀ x ∈ elements, t.start < x.sequence → x ∈ l.filter (t.visits t.start)) :
    Track elements { (l.filter (t.visits t.start)).foldl filterFirstPass t with
      place := .second t.start, leadingDropped := true } := by
  obtain ⟨leading, start, count, heq, hstart, -, hwanted⟩ := firstPass_spec (l.filter (t.visits t.start)) t
  rw [heq]
  refine ⟨h.sorted, h.blocking, h.privileged, Place.noConfusion, ?_, ?_, ?_, by simp, h.ordered, ?_⟩
  · intro e st hsending
    cases hsending
  · rcases hstart with rfl | ⟨y, hy, rfl⟩
    · exact le_rfl
    · have hvisits := (mem_filter.1 hy).2
      simp only [visits, Bool.and_eq_true, decide_eq_true_eq] at hvisits
      exact hvisits.2.le
  · intro x hx hwants
    rcases h.arrived x hx hwants with hdone | ⟨hahead, hwaits⟩
    · exact Or.inl hdone
    · rw [Ahead, hplace] at hahead
      have hsorted : Sorted (l.filter (t.visits t.start)) :=
        h.sorted.sublist (filter_sublist.trans hvisited.sublist)
      exact Or.inr ⟨hahead, hwaits.mem, hwaits.message,
        hwanted hsorted x (hmem x hwaits.mem hahead) hwants hwaits.message hwaits.locked⟩
  · intro x hx
    have hbehind := h.behind x hx
    rw [Ahead, hplace] at hbehind
    exact hbehind

theorem Track.next (hnext : t.next elements ok = some t') : Track elements t' := by
  have harrived := h.arrived
  have hbehind := h.behind
  have hbounds := h.bounds
  simp only [Ahead] at harrived hbehind
  rw [Bounds] at hbounds
  rw [LogTimeEntry.next] at hnext
  split at hnext <;> rename_i hplace
  · cases hnext
    exact h
  · cases hnext
    exact h
  · simp only [hplace] at harrived hbehind
    split_ifs at hnext <;> cases hnext
    · exact ⟨h.sorted, h.blocking, h.privileged, Place.noConfusion,
        fun _ _ hs => Place.noConfusion hs, le_rfl, harrived, by simp, h.ordered, hbehind⟩
    · refine h.first hplace (flushFrom_suffix _ _) fun x hx hlt => ?_
      refine mem_filter.2 ⟨mem_flushFrom h.sorted hx hlt, ?_⟩
      simp [visits, h.privileged, hlt]
  · cases hnext
    simp only [hplace] at harrived hbehind hbounds
    refine Scanning.track ⟨h.blocking, h.privileged, ?_, h.ordered, ?_, ?_⟩ h.sorted (flushFrom_suffix _ _)
    · intro x hx hwants
      exact (harrived x hx hwants).imp_right fun hx =>
        ⟨mem_flushFrom h.sorted hx.2.mem hx.1, hx.1, hx.2.message⟩
    · exact fun x hx => (not_lt.1 (hbehind x hx)).trans hbounds
    · exact fun x hx y _ hlt => (not_lt.1 (hbehind x hx)).trans_lt hlt
  · rename_i e st
    simp only [hplace] at harrived hbehind hbounds
    obtain ⟨hmem, hstart, -⟩ := h.sendingIn e st hplace
    split_ifs at hnext <;> cases hnext
    · refine Scanning.track ⟨h.blocking, h.privileged, ?_, ?_, ?_, ?_⟩ h.sorted
        ((tail_suffix _).trans (dropWhile_suffix _))
      · intro x hx hwants
        rcases harrived x hx hwants with hdone | ⟨hle, hwaits⟩
        · exact Or.inl (hdone.imp_left (mem_cons_of_mem _))
        · rcases hle.eq_or_lt with heq | hlt
          · exact Or.inl (Or.inl (mem_cons.2 (Or.inl (eq_of_sequence h.sorted hwaits.mem hmem heq.symm))))
          · exact Or.inr ⟨(mem_behind h.sorted hmem).2 ⟨hwaits.mem, hlt⟩, hbounds.trans hlt, hwaits.message⟩
      · exact pairwise_cons.2 ⟨fun x hx => not_le.1 (hbehind x hx), h.ordered⟩
      · intro x hx
        rcases mem_cons.1 hx with rfl | hx
        · exact hstart.ge
        · exact (not_le.1 (hbehind x hx)).le.trans hstart.ge
      · intro x hx y hy _
        have hey := ((mem_behind h.sorted hmem).1 hy).2
        rcases mem_cons.1 hx with rfl | hx
        · exact hey
        · exact (not_le.1 (hbehind x hx)).trans hey
    · refine ⟨h.sorted, h.blocking, h.privileged, Place.noConfusion,
        fun _ _ hs => Place.noConfusion hs, trivial, ?_, ?_, h.ordered, ?_⟩
      · exact fun _ _ _ => Or.inl (Or.inr (Or.inr (Bool.or_true _)))
      · exact fun _ _ _ _ _ => Or.inr (Or.inr (Bool.or_true _))
      · intro x hx
        rw [hstart]
        exact (not_le.1 (hbehind x hx)).asymm
  · split_ifs at hnext
    cases hnext
    simp only [hplace] at harrived hbehind
    exact ⟨h.sorted, h.blocking, h.privileged, Place.noConfusion,
      fun _ _ hs => Place.noConfusion hs, trivial, harrived, fun _ => h.resting (Or.inl hplace),
      h.ordered, hbehind⟩

/-! ## Steps of the others -/

theorem Track.trigger : Track elements t.trigger := by
  rw [LogTimeEntry.trigger]
  split_ifs with hplace
  · have harrived := h.arrived
    have hbehind := h.behind
    simp only [Ahead, hplace] at harrived hbehind
    exact ⟨h.sorted, h.blocking, h.privileged, Place.noConfusion,
      fun _ _ hs => Place.noConfusion hs, trivial, harrived, by simp, h.ordered, hbehind⟩
  · exact h

theorem Track.asked (id : LogId) (ask : Ask) : Track elements (t.asked id ask) := by
  cases ask with
  | release =>
    refine Track.trigger { h with arrived := ?_, resting := ?_ }
    · exact fun _ _ _ => Or.inl (Or.inr (Or.inr rfl))
    · exact fun _ _ _ _ _ => Or.inr (Or.inr rfl)
  | skip rows => exact { h with }

/-- A notification that does not come too early. -/
theorem Track.notify (hplace : t.place ≠ .flushed) : Track elements t.notify := by
  have htrigger := h.trigger
  have hmoving : ¬(t.trigger.place = .flushed ∨ t.trigger.place = .waiting) := by
    rw [LogTimeEntry.trigger]
    split_ifs with hwaiting
    · simp
    · simp [hplace, hwaiting]
  rw [LogTimeEntry.notify]
  rw [if_neg fun hstopped => htrigger.running hstopped.1]
  exact { htrigger with resting := fun hrest => absurd hrest hmoving }

/-- A message with a number above all others comes in at the end. -/
theorem Track.arrive (hzero : e.getDropped = 0) (hstart : t.start < e.sequence)
    (hlast : ∀ x ∈ elements, x.sequence < e.sequence) :
    Track (elements ++ [e]) { t with owed := t.owed + 1, arrived := e :: t.arrived } := by
  refine ⟨?_, h.blocking, h.privileged, h.running, ?_, h.bounds, ?_, by simp, h.ordered, h.behind⟩
  · refine pairwise_append.2 ⟨h.sorted, pairwise_singleton _ _, fun x hx y hy => ?_⟩
    rw [mem_singleton.1 hy]
    exact hlast x hx
  · intro x st hplace
    obtain ⟨hmem, hx⟩ := h.sendingIn x st hplace
    exact ⟨mem_append_left _ hmem, hx⟩
  · intro x hx hwants
    rcases mem_cons.1 hx with rfl | hx
    · refine Or.inr ⟨?_, mem_append_right _ mem_cons_self, hzero, hstart.le⟩
      have hbounds := h.bounds
      have hsending := h.sendingIn
      rw [Bounds] at hbounds
      rw [Ahead]
      split
      · rename_i st hplace
        have hle : st ≤ t.start := by simpa only [show t.place = .second st from hplace] using hbounds
        exact hle.trans_lt hstart
      · rename_i y st hplace
        exact (hlast y (hsending y st hplace).1).le
      · exact hstart
    · exact (h.arrived x hx hwants).imp_right fun hx =>
        ⟨hx.1, mem_append_left _ hx.2.mem, hx.2.message, hx.2.locked⟩

/-- Pruning leaves what a reader has not passed. -/
theorem Track.shrink {after : List LogBufferElement} (hsorted : Sorted after)
    (hkept : ∀ x ∈ elements, t.watching x.logId → t.start ≤ x.sequence → x ∈ after) :
    Track after t := by
  refine { h with sorted := hsorted, sendingIn := ?_, arrived := ?_ }
  · intro e st hplace
    obtain ⟨hmem, hstart, hwatching⟩ := h.sendingIn e st hplace
    exact ⟨hkept e hmem hwatching hstart.le, hstart, hwatching⟩
  · intro x hx hwants
    refine (h.arrived x hx hwants).imp_right fun hx => ⟨hx.1, ?_, hx.2.message, hx.2.locked⟩
    simp only [wants, Bool.and_eq_true] at hwants
    exact hkept x hx.2.mem hwants.1 hx.2.locked

end

theorem Does.sequences {event : Event} (h : Does q event c c') :
    c'.1.map (·.sequence) <+ c.1.map (·.sequence) := by
  cases h with
  | erased => simp
  | @merged a b r e l =>
    have hset : (l.setDropped (e.getDropped + l.getDropped)).sequence = l.sequence := rfl
    simp [hset]
  | @dropped a r e =>
    have hset : (e.setDropped 1).sequence = e.sequence := rfl
    simp [hset]

theorem Runs.sorted {trace : List Event} (h : Runs q c trace c') (hc : Sorted c.1) :
    Sorted c'.1 := by
  have hsublist := Runs.keeps
    (fun _ _ _ _ hdoes hd => hdoes.sequences.trans hd) h (fun _ _ => trivial) (Sublist.refl _)
  exact pairwise_map.1 ((pairwise_map.2 hc).sublist hsublist)

/-! ## Runs -/

/-- What a step has to meet for the reader of client `c`: a message has a number above those in the list
and above what the reader has seen, and a notification does not come between a round and the wait. -/
def meets (c : Nat) (s : System) : Action → Bool
  | .log _ e => e ∉ s.pending || (s.buffer.logElements.all (·.sequence < e.sequence) &&
      s.times.all fun t => t.client ≠ c || t.start < e.sequence)
  | .notify client => client ≠ c || s.times.all fun t => t.client ≠ c || t.place ≠ .flushed
  | .register t => t.client ≠ c
  | _ => true

def runMeets (c : Nat) : System → List Action → Bool
  | _, [] => true
  | s, a :: rest => meets c s a && runMeets c (s.step a) rest

/-- The invariant of a run with a streaming reader. -/
structure Streaming (enable : Bool) (c : Nat) (s : System) : Prop where
  counted : RunCounted (fun _ => True) enable s
  track : ∀ t ∈ s.times, t.client = c → Track s.buffer.logElements t

variable {enable : Bool} {c : Nat} {s : System}

theorem place_blocking {times : List LogTimeEntry} (ht : t ∈ times) (h : Track elements t) :
    place times e l = l ++ [e] := by
  have hany : ∀ last : LogBufferElement,
      times.any (fun t => t.owned && (!t.nonBlock || decide (last.sequence ≤ t.endSequence))) = true := by
    intro last
    refine any_eq_true.2 ⟨t, ht, ?_⟩
    simp [owned, h.running, h.blocking]
  rw [place, if_pos]
  exact Option.all_eq_true_iff_get .. |>.2 fun _ => hany _

theorem client_scan (t : LogTimeEntry) (start : Nat) (l : List LogBufferElement) :
    (t.scan start l).client = t.client := by
  induction l generalizing t with
  | nil => rfl
  | cons e l ih =>
    have hclient : (t.filterSecondPass e).1.client = t.client := by
      rw [filterSecondPass]
      simp only [filterTail]
      split_ifs <;> rfl
    rw [scan]
    split_ifs
    · split <;> rename_i heq <;> rw [heq] at hclient
      · exact (ih _).trans hclient
      · exact hclient
      · exact hclient
    · exact ih t

theorem client_next (h : t.next elements ok = some t') : t'.client = t.client := by
  rw [LogTimeEntry.next] at h
  split at h
  · cases h
    rfl
  · cases h
    rfl
  · obtain ⟨_, _, _, heq, _⟩ := firstPass_spec ((flushFrom t.start elements).filter (t.visits t.start)) t
    simp only [heq] at h
    split_ifs at h <;> cases h <;> rfl
  · cases h
    exact client_scan _ _ _
  · split_ifs at h <;> cases h
    · exact client_scan _ _ _
    · rfl
  · split_ifs at h
    cases h
    rfl

/-- After a call of `prune` the reader is where it was. -/
theorem Streaming.pruned {id : LogId} {p : Pass} (h : Streaming enable c s) (ht : t ∈ (s.pruned id p).times)
    (hclient : t.client = c) :
    ∃ u ∈ s.times, u.client = c ∧ Follows u t ∧ u.place ≠ .stopped ∧ Track s.buffer.logElements t := by
  obtain ⟨u, hu, rfl | ⟨ask, rfl⟩⟩ := mem_pruned ht
  · have htrack := h.track t hu hclient
    exact ⟨t, hu, hclient, ⟨rfl, rfl, rfl, fun _ _ hplace => hplace⟩, htrack.running, htrack⟩
  · have hfollows : Follows u (u.asked id ask) := follows_asked u ask
    have hu' := hfollows.client.symm.trans hclient
    exact ⟨u, hu, hu', hfollows, (h.track u hu hu').running, (h.track u hu hu').asked id ask⟩

theorem Streaming.log {env : Settings} (h : Streaming enable c s) (he : e ∈ s.pending)
    (hlast : ∀ x ∈ s.buffer.logElements, x.sequence < e.sequence)
    (hstart : ∀ t ∈ s.times, t.client = c → t.start < e.sequence) (ht : t ∈ (s.log env e).times)
    (hclient : t.client = c) : Track (s.log env e).buffer.logElements t := by
  simp only [System.log, mem_map] at ht
  obtain ⟨v, hv, rfl⟩ := ht
  obtain ⟨u, hu, huc, hfollows, hrunning, htrack⟩ := h.pruned hv hclient
  have harrive := htrack.arrive (h.counted.pending e he).1 (hfollows.start.trans_lt (hstart u hu huc)) hlast
  have hinsert : (s.buffer.insert s.times e).logElements = s.buffer.logElements ++ [e] :=
    place_blocking hu (h.track u hu huc)
  have hruns := maybePrune_runs env e.logId (regionLock e.logId s.times) (s.buffer.insert s.times e)
  rw [Traced, append_nil] at hruns
  rw [← hinsert] at harrive
  refine harrive.shrink (hruns.sorted harrive.sorted) fun x hx hw hle => ?_
  exact mem_of_protected (maybePrune_protected env (s.buffer.insert s.times e)) hu hrunning hx
    (congrFun hfollows.watching x.logId ▸ hw) (hfollows.start ▸ hle)

theorem length_true (action : Action) : action.Length fun _ => True := by
  cases action <;> trivial

theorem Streaming.step (h : Streaming enable c s) {action : Action} (hmeets : meets c s action = true) :
    Streaming enable c (s.step action) := by
  refine ⟨h.counted.step (length_true action), ?_⟩
  intro t ht hclient
  cases action with
  | construct => exact h.track t ht hclient
  | refuse e =>
    rw [System.step] at ht ⊢
    split_ifs at ht ⊢ <;> exact h.track t ht hclient
  | log env e =>
    rw [System.step] at ht ⊢
    split_ifs at ht ⊢ with he
    · simp only [meets, he, not_true_eq_false, decide_false, Bool.false_or, Bool.and_eq_true, all_eq_true,
        decide_eq_true_eq, Bool.or_eq_true] at hmeets
      exact h.log he hmeets.1 (fun t ht hclient => (hmeets.2 t ht).resolve_left (not_not.2 hclient)) ht
        hclient
    · exact h.track t ht hclient
  | prune env id rows uid =>
    obtain ⟨u, hu, -, hfollows, hrunning, htrack⟩ := h.pruned ht hclient
    have hruns := prunePass_runs env id (regionLock id s.times) uid s.buffer rows
    rw [Traced, append_nil] at hruns
    refine htrack.shrink (hruns.sorted htrack.sorted) fun x hx hw hle => ?_
    exact mem_of_protected (prunePass_protected env s.buffer rows) hu hrunning hx
      (congrFun hfollows.watching x.logId ▸ hw) (hfollows.start ▸ hle)
  | register u =>
    rw [System.step] at ht ⊢
    split_ifs at ht ⊢
    · exact h.track t ht hclient
    · rcases mem_cons.1 ht with rfl | ht
      · exact absurd hclient (of_decide_eq_true hmeets)
      · exact h.track t ht hclient
  | notify client =>
    obtain ⟨u, hu, ⟨hu', hut⟩ | rfl⟩ := mem_onClient ht
    · cases hut
      have huc : u.client = c := (follows_notify u).client.symm.trans hclient
      simp only [meets, Bool.or_eq_true, decide_eq_true_eq, all_eq_true] at hmeets
      have hplace := (hmeets.resolve_left (not_not.2 (hu'.symm.trans huc)) u hu).resolve_left (not_not.2 huc)
      exact (h.track u hu huc).notify hplace
    · exact h.track u hu hclient
  | reader client ok =>
    obtain ⟨u, hu, ⟨-, hut⟩ | rfl⟩ := mem_onClient ht
    · exact (h.track u hu ((client_next hut).symm.trans hclient)).next hut
    · exact h.track u hu hclient

theorem Streaming.run (h : Streaming enable c s) {actions : List Action}
    (hmeets : runMeets c s actions = true) :
    Streaming enable c (s.run actions) := by
  induction actions generalizing s with
  | nil => exact h
  | cons a rest ih =>
    rw [runMeets, Bool.and_eq_true] at hmeets
    exact ih (h.step hmeets.1) hmeets.2

/-- The reader of a client gets everything: what it was sent is in the order of the list, each element once,
and when it waits and no notification is under way, all it wants of what was logged while it is there was
sent, or skipped on request. -/
def Streams (c : Nat) (s : System) : Prop :=
  ∀ t ∈ s.times, t.client = c → t.isError = false →
    Sorted s.buffer.logElements ∧ (t.sent.Pairwise fun a b => b.sequence < a.sequence) ∧
      (t.place = .waiting → t.owed = 0 → ∀ x ∈ t.arrived, t.wants x → x ∈ t.sent ∨ x ∈ t.skipped)

end AndroidSystem.Logd
