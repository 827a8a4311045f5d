import AndroidSystem.Ext4.AllocatorRun

/-!
# Allocations that fail

`ext4_allocate_best_fit` takes blocks group by group. If the groups do not have enough of them, it
reports an error and the caller gets nothing, but what was taken stays reserved.
-/

namespace AndroidSystem.Ext4

variable {G : Globals} {s : Allocator} {α : Type}

/-- A call that fails leaves the groups as they were. -/
def Atomic (G : Globals) (x : AllocM α) (failed : α → Prop) (s : Allocator) : Prop :=
  ∀ a s', x s = .ok a s' → failed a → ∀ g < G.aux.groups, s'.bgs g = s.bgs g

section

variable (hG : Layout G) (hs : GroupsOk G s) (n : Nat)
include hG hs

theorem bestFit_of_nothing (h : n = 0 ∨ totalFree G s = 0) {first : Option Nat} {s' : Allocator}
    (hok : ext4AllocateBestFit G n s = .ok first s') : s'.bgs = s.bgs := by
  cases n with
  | zero =>
    cases hok
    rfl
  | succ n =>
    have hzero := Finset.sum_eq_zero_iff.1 (h.resolve_left (Nat.succ_ne_zero n))
    unfold ext4AllocateBestFit bestFitLoop at hok
    rw [if_pos (Nat.succ_pos n)] at hok
    obtain ⟨-, hrun⟩ | ⟨g, k, -, hg, hk, -, -, hbest, -⟩ := partial_ok hG hs (Nat.succ_pos n)
    · rw [outcome, if_neg (Nat.succ_ne_zero n)] at hrun
      cases hforce : G.force with
      | true =>
        rw [bind_ok (error_force hforce _ _)] at hrun
        rw [bind_ok hrun] at hok
        cases hok
        rfl
      | false =>
        rw [bind_error (error_exit hforce _ _)] at hrun
        rw [bind_error hrun] at hok
        cases hok
    · have := hzero g (Finset.mem_range.2 hg)
      omega

theorem bestFit_atomic_iff :
    Atomic G (ext4AllocateBestFit G n) (· = none) s ↔ (Op.allocateBlocks n).Careful G s := by
  obtain ⟨taken, left, s1, hgreedy, hbuilt, hrun⟩ := bestFitLoop_spec hG n n le_rfl none none hs
    (by simp)
  have hleft : left = n - totalFree G s := hgreedy.left_eq
  constructor
  · intro h hforce
    by_contra hfew
    have hne : left ≠ 0 := by omega
    have hfail : ext4AllocateBestFit G n s =
        .ok none { s1 with errors := s1.errors ++ [.outOfSpace left] } := by
      rw [ext4AllocateBestFit, hrun, outcome, if_neg hne, bind_ok (error_force hforce _ _)]
      rfl
    -- every group is empty in the end, so it was empty before
    apply hfew
    refine .inl (Finset.sum_eq_zero fun g hg => ?_)
    have hsame := h _ _ hfail rfl g (Finset.mem_range.1 hg)
    have hempty := remaining_eq_zero hgreedy hne g (Finset.mem_range.1 hg)
    rw [← hbuilt.free] at hempty
    exact (congrArg BlockGroupInfo.freeBlocks hsame).symm.trans hempty
  · intro hcareful first s' hok hnone g _
    refine congrFun (bestFit_of_nothing hG hs n ?_ hok) g
    by_contra hsome
    have htaken : taken ≠ [] := by
      rintro rfl
      have := hgreedy.sum_add_left
      simp only [List.map_nil, List.sum_nil] at this
      omega
    rw [ext4AllocateBestFit, hrun, outcome] at hok
    split_ifs at hok with hzero
    · cases hok
      cases hnone
    · cases hforce : G.force with
      | true =>
        have := hcareful hforce
        omega
      | false =>
        rw [bind_error (error_exit hforce _ _)] at hok
        cases hok

/-- The same for a function that goes on with the regions, or reports that there are none. -/
theorem bind_atomic_iff {f : Option Nat → AllocM α} {failed : α → Prop}
    (hnone : G.force = true → ∀ s, ∃ a s', f none s = .ok a s' ∧ failed a)
    (hkeep : ∀ s a s', f none s = .ok a s' → s'.bgs = s.bgs)
    (hsome : ∀ r s a s', f (some r) s = .ok a s' → ¬failed a) :
    Atomic G (ext4AllocateBestFit G n >>= f) failed s ↔ (Op.allocateBlocks n).Careful G s := by
  constructor
  · intro h hforce
    refine (bestFit_atomic_iff hG hs n).1 ?_ hforce
    rintro _ s1 hok rfl
    obtain ⟨a, s2, hf, hfailed⟩ := hnone hforce s1
    rw [← hkeep s1 a s2 hf]
    exact h a s2 ((bind_ok hok).trans hf) hfailed
  · intro hcareful a s2 hok hfailed g hg
    cases hfit : ext4AllocateBestFit G n s with
    | error e s1 =>
      rw [bind_error hfit] at hok
      cases hok
    | ok first s1 =>
      rw [bind_ok hfit] at hok
      cases first with
      | none =>
        rw [hkeep s1 a s2 hok]
        exact (bestFit_atomic_iff hG hs n).2 hcareful none s1 hfit rfl g hg
      | some r => exact absurd hfailed (hsome r s1 a s2 hok)

theorem allocateBlocks_atomic_iff :
    Atomic G (allocateBlocks G n) (· = none) s ↔ (Op.allocateBlocks n).Careful G s := by
  refine bind_atomic_iff hG hs n (fun _ s => ⟨none, s, rfl, rfl⟩) ?_ ?_
  · intro s a s' h
    cases h
    rfl
  · intro r s a s' h
    cases h
    exact Option.some_ne_none _

theorem appendOobAllocation_atomic_iff (alloc : BlockAllocation) :
    Atomic G (appendOobAllocation G alloc n) (fun r => r.1 = false) s ↔
      (Op.allocateBlocks n).Careful G s := by
  refine bind_atomic_iff hG hs n (fun hforce s => ?_) ?_ ?_
  · exact ⟨_, _, bind_ok (error_force hforce _ s), rfl⟩
  · intro s a s' h
    cases hforce : G.force with
    | true =>
      cases (bind_ok (error_force hforce _ s)).symm.trans h
      rfl
    | false => cases (bind_error (error_exit hforce _ s)).symm.trans h
  · intro r s a s' h
    cases hloop : appendLoop 2 (some r) alloc.oobList s with
    | error e s1 => cases (bind_error hloop).symm.trans h
    | ok l s1 =>
      cases (bind_ok hloop).symm.trans h
      simp

end

/-- Neither `allocate_blocks` nor `append_oob_allocation` leaves a trace when it does not get `n`
blocks. -/
def FailsCleanly (G : Globals) (n : Nat) (s : Allocator) : Prop :=
  Atomic G (allocateBlocks G n) (· = none) s ∧
    ∀ alloc, Atomic G (appendOobAllocation G alloc n) (fun r => r.1 = false) s

/-- In every state of a run in which no call has failed halfway, a call for `n` blocks fails cleanly
exactly if there are `n` blocks or none, or if the tool stops at its first error. -/
theorem failsCleanly_iff (hG : Layout G) (ops : List Op)
    (hops : ∀ s, blockAllocatorInit G {} = .ok () s → CarefulOps G ops {} s) :
    Yields (do
      blockAllocatorInit G
      perform G ops {}) {}
      (fun _ s => ∀ n, FailsCleanly G n s ↔ (Op.allocateBlocks n).Careful G s) fun _ => True := by
  obtain ⟨s, hrun, hinv, -⟩ := init_inv hG
  refine .of_eq (bind_ok hrun) ⟨fun h s' hok n => ?_, fun _ _ _ => trivial⟩
  have hgroups := ((perform_inv hG ops hinv (hops s hrun)).ok h s' hok).groups
  have hcall := allocateBlocks_atomic_iff hG hgroups n
  exact ⟨fun h => hcall.1 h.1, fun hcareful => ⟨hcall.2 hcareful, fun alloc =>
    (appendOobAllocation_atomic_iff hG hgroups n alloc).2 hcareful⟩⟩

theorem failsCleanly_small : Yields (do
    blockAllocatorInit smallTool
    perform smallTool [.allocateBlocks 100, .reduceAllocation, .allocateBlock,
      .appendOobAllocation 0] {}) {}
    (fun _ s => ∀ n, FailsCleanly smallTool n s ↔ (Op.allocateBlocks n).Careful smallTool s)
    fun _ => True :=
  failsCleanly_iff smallTool_layout _ smallTool_careful

/-- A request for one block more than there is reserves them all. -/
theorem failed_request_reserves : ∃ s, blockAllocatorInit smallTool {} = .ok () s ∧
    ¬FailsCleanly smallTool 4022 s := by
  obtain ⟨s, hrun, hinv, -, htotal⟩ := smallTool_free
  refine ⟨s, hrun, fun h => ?_⟩
  have := (allocateBlocks_atomic_iff smallTool_layout hinv.groups 4022).1 h.1 rfl
  omega

end AndroidSystem.Ext4
