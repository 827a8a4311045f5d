import AndroidSystem.Sparse.Image
import Mathlib.Algebra.BigOperators.Ring.List
import Mathlib.Algebra.Order.BigOperators.Group.List

/-!
# Queueing regions

`queue_bb` keeps a list of regions sorted by block number and merges a region with its
neighbours where one goes on where the other ends. This module says what it does to any list that
queueing can build.

* `queueBb_fault_iff`: when it faults.
* `Merged` and `Grouped.queued`: after each call each node of the list is a group of the regions
  that were added, merged.
* `Merged.stands`: as long as the regions of a group are shorter than 4 GiB together and do not
  meet inside a block, the node stands for exactly those regions.
-/

namespace AndroidSystem.Sparse

open List Relation BackedBlock

variable {blockSize : Nat} {newBb prev n : BackedBlock} {bbl : BackedBlockList}
  {c l q rest d : List BackedBlock} {cs : List (List BackedBlock)}

variable {a b bb : BackedBlock} {pre l' : List BackedBlock} {env : Env}

/-! ## Merging two nodes -/

/-- `merge_bb` takes two nodes for one region. -/
def Joins (blockSize : Nat) (a b : BackedBlock) : Prop :=
  a.backing.type = b.backing.type ∧ u32 (a.block + a.len / blockSize) = b.block ∧
    continues a b = true

instance (blockSize : Nat) (a b : BackedBlock) : Decidable (Joins blockSize a b) :=
  inferInstanceAs (Decidable (_ ∧ _ ∧ _))

/-- The node `merge_bb` leaves. -/
def BackedBlock.join (a b : BackedBlock) : BackedBlock := { a with len := u32 (a.len + b.len) }

theorem mergeBb_eq (hbs : blockSize ≠ 0) (h : a.block < b.block) :
    mergeBb blockSize a b = .ok (if Joins blockSize a b then some (a.join b) else none) := by
  unfold mergeBb
  rw [if_neg (by simpa using h), if_neg hbs]
  by_cases hj : Joins blockSize a b
  · rw [if_pos hj, if_neg (not_not.2 hj.1), if_neg (not_not.2 hj.2.1), if_pos hj.2.2]
    rfl
  · split_ifs with h1 h2 h3
    · rfl
    · rfl
    · exact absurd ⟨not_not.1 h1, not_not.1 h2, h3⟩ hj
    · rfl

theorem mergeBb_assert (h : ¬ a.block < b.block) :
    mergeBb blockSize a b = .error .assertFail := if_pos h

theorem joins_of_mergeBb {m : BackedBlock} (h : mergeBb blockSize a b = .ok (some m)) :
    Joins blockSize a b ∧ m = a.join b := by
  unfold mergeBb at h
  split_ifs at h with _ htype _ hblock hcont
  all_goals cases h
  exact ⟨⟨not_not.1 htype, not_not.1 hblock, hcont⟩, rfl⟩

theorem mergeNext_same {r : BackedBlock × List BackedBlock}
    (h : mergeNext blockSize newBb rest = .ok r) :
    r.1.block = newBb.block ∧ r.1.backing = newBb.backing := by
  cases rest with
  | nil =>
    cases h
    exact ⟨rfl, rfl⟩
  | cons next rest =>
    rw [mergeNext] at h
    split at h
    · cases h
    · next m hm =>
      cases h
      rw [(joins_of_mergeBb hm).2]
      exact ⟨rfl, rfl⟩
    · cases h
      exact ⟨rfl, rfl⟩

/-- The new node after the merge with the one that follows it. -/
def joinNext (blockSize : Nat) (newBb : BackedBlock) :
    List BackedBlock → BackedBlock × List BackedBlock
  | [] => (newBb, [])
  | next :: rest =>
    if Joins blockSize newBb next then (newBb.join next, rest) else (newBb, next :: rest)

/-- The list from `bb` on after both merges, and whether the second one happened. -/
def joinBoth (blockSize : Nat) (bb newBb : BackedBlock) (rest : List BackedBlock) :
    List BackedBlock × Bool :=
  let (m, rest) := joinNext blockSize newBb rest
  if Joins blockSize bb m then (bb.join m :: rest, true) else (bb :: m :: rest, false)

theorem block_joinNext (blockSize : Nat) (newBb : BackedBlock) (rest : List BackedBlock) :
    (joinNext blockSize newBb rest).1.block = newBb.block := by
  cases rest with
  | nil => rfl
  | cons next rest =>
    rw [joinNext]
    split_ifs <;> rfl

theorem mergeNext_eq (hbs : blockSize ≠ 0) (h : ∀ x ∈ rest, newBb.block < x.block) :
    mergeNext blockSize newBb rest = .ok (joinNext blockSize newBb rest) := by
  cases rest with
  | nil => rfl
  | cons next rest =>
    rw [mergeNext, joinNext, mergeBb_eq hbs (h next (by simp))]
    split_ifs <;> rfl

theorem linkBb_eq (hbs : blockSize ≠ 0) (hbb : bb.block < newBb.block)
    (h : ∀ x ∈ rest, newBb.block < x.block) :
    linkBb blockSize bb newBb rest = .ok (joinBoth blockSize bb newBb rest) := by
  unfold linkBb joinBoth
  rw [mergeNext_eq hbs h]
  have hm : bb.block < (joinNext blockSize newBb rest).1.block := by
    rwa [block_joinNext]
  simp only [mergeBb_eq hbs hm]
  split_ifs <;> rfl

/-! ## Finding the place -/

/-- A list behind nodes that an operation does not touch. -/
def behind (pre : List BackedBlock) :
    Except Fault (List BackedBlock × Bool) → Except Fault (List BackedBlock × Bool)
  | .error e => .error e
  | .ok (l, freed) => .ok (pre ++ l, freed)

theorem behind_nil (r : Except Fault (List BackedBlock × Bool)) : behind [] r = r := by
  cases r <;> rfl

theorem behind_cons (x : BackedBlock) (pre : List BackedBlock)
    (r : Except Fault (List BackedBlock × Bool)) :
    (match behind pre r with
      | .error e => .error e
      | .ok (l, freed) => .ok (x :: l, freed)) = behind (x :: pre) r := by
  cases r <;> rfl

section

variable (blockSize : Nat) (hpre : ∀ x ∈ (pre ++ [prev]).tail, x.block < newBb.block)
  (hq : ∀ x ∈ q, newBb.block ≤ x.block)
include hpre hq

/-- The search ends at the last node below the new one, or at the node it starts from. -/
theorem searchBb_eq (h : bb :: rest = pre ++ prev :: q) :
    searchBb blockSize newBb bb rest = behind pre (linkBb blockSize prev newBb q) := by
  induction pre generalizing bb rest with
  | nil =>
    obtain ⟨rfl, rfl⟩ : bb = prev ∧ rest = q := by simpa using h
    cases rest with
    | nil => rw [searchBb, behind_nil]
    | cons next rest => rw [searchBb, if_neg (hq next (by simp)).not_gt, behind_nil]
  | cons x pre ih =>
    obtain ⟨rfl, rfl⟩ : bb = x ∧ rest = pre ++ prev :: q := by simpa using h
    obtain ⟨next, rest, hr⟩ : ∃ next rest, pre ++ prev :: q = next :: rest := by
      cases pre <;> exact ⟨_, _, rfl⟩
    have hnext : next ∈ pre ++ [prev] := by
      cases pre with
      | nil => simp_all
      | cons y pre => simp_all
    rw [hr, searchBb, if_pos (hpre next hnext), ih (fun y hy => hpre y (mem_of_mem_tail hy)) hr.symm]
    exact behind_cons bb pre _

/-- A search that starts at a node below the new one ends at the same place. -/
theorem searchFrom_eq {b : Nat} (hb : b < newBb.block)
    (hmem : ∃ x ∈ pre ++ prev :: q, x.block = b) :
    searchFrom blockSize newBb b (pre ++ prev :: q) =
      behind pre (linkBb blockSize prev newBb q) := by
  induction pre with
  | nil =>
    have hprev : prev.block = b := by
      obtain ⟨x, hx, rfl⟩ := hmem
      rcases mem_cons.1 hx with rfl | hx
      · rfl
      · exact absurd hb (hq x hx).not_gt
    rw [nil_append, searchFrom, if_pos hprev]
    exact searchBb_eq blockSize hpre hq rfl
  | cons x pre ih =>
    rw [cons_append, searchFrom]
    split_ifs with hx
    · exact searchBb_eq blockSize hpre hq rfl
    · obtain ⟨y, hy, hyb⟩ := hmem
      have hy' : y ∈ pre ++ prev :: q := by
        rcases mem_cons.1 hy with rfl | hy
        · exact absurd hyb hx
        · exact hy
      rw [ih (fun z hz => hpre z (mem_of_mem_tail hz)) ⟨y, hy', hyb⟩]
      exact behind_cons x pre _

end

/-! ## The queue -/

/-- What holds of every list that queueing builds: block numbers increase, and the saved pointer
is to a node of the list unless that node has been freed. -/
structure BackedBlockList.Ordered (bbl : BackedBlockList) : Prop where
  increasing : bbl.dataBlocks.Pairwise fun a b => a.block < b.block
  hint : ∀ b, bbl.lastUsed = .node b → ∃ x ∈ bbl.dataBlocks, x.block = b

theorem ordered_new (blockSize : Nat) : (backedBlockListNew blockSize).Ordered where
  increasing := .nil
  hint _ h := by simp [backedBlockListNew] at h

/-- The queue with a list that holds the new node; the flag says that the node has been freed. -/
def BackedBlockList.relink (bbl : BackedBlockList) (newBb : BackedBlock) :
    Except Fault (List BackedBlock × Bool) → Except Fault BackedBlockList
  | .error e => .error e
  | .ok (l, freed) =>
    .ok { bbl with dataBlocks := l, lastUsed := if freed then .freed else .node newBb.block }

theorem queueBb_front (env : Env) (h : ∀ x ∈ bbl.dataBlocks, newBb.block < x.block) :
    queueBb env bbl newBb = .ok { bbl with dataBlocks := newBb :: bbl.dataBlocks } := by
  unfold queueBb
  cases hl : bbl.dataBlocks with
  | nil => rfl
  | cons head rest =>
    have := h head (by simp [hl])
    simp only [if_pos this]

section

variable (env : Env) (ho : bbl.Ordered) (hl : bbl.dataBlocks = pre ++ prev :: q)
include ho hl

/-- Behind a node that is not above it the new one is linked at its place, wherever the search
starts, unless the saved pointer dangles. -/
theorem queueBb_behind (hle : ∀ x ∈ pre ++ [prev], x.block ≤ newBb.block)
    (hpre : ∀ x ∈ (pre ++ [prev]).tail, x.block < newBb.block) (hq : ∀ x ∈ q, newBb.block ≤ x.block) :
    queueBb env bbl newBb =
      if bbl.lastUsed = .freed ∧ env.reuse = false then .error .useAfterFree
      else bbl.relink newBb (behind pre (linkBb bbl.blockSize prev newBb q)) := by
  unfold queueBb
  cases hd : bbl.dataBlocks with
  | nil => simp [hl] at hd
  | cons head rest =>
    have hcons : head :: rest = pre ++ prev :: q := by rw [← hd, hl]
    have hhead : head.block ≤ newBb.block := by
      apply hle
      cases pre with
      | nil => simp_all
      | cons y pre => simp_all
    have hsearch := searchBb_eq bbl.blockSize hpre hq hcons
    simp only [if_neg hhead.not_gt]
    cases hu : bbl.lastUsed with
    | null =>
      rw [← hsearch]
      cases searchBb bbl.blockSize newBb head rest <;> rfl
    | node b =>
      by_cases hb : b < newBb.block
      · have hmem : ∃ x ∈ pre ++ prev :: q, x.block = b := hl ▸ ho.hint b hu
        have hfrom := searchFrom_eq bbl.blockSize hpre hq hb hmem
        rw [← hfrom, ← hcons]
        simp only [if_pos hb]
        cases searchFrom bbl.blockSize newBb b (head :: rest) <;> rfl
      · rw [← hsearch]
        simp only [if_neg hb]
        cases searchBb bbl.blockSize newBb head rest <;> rfl
    | freed =>
      cases hr : env.reuse with
      | false => simp
      | true =>
        rw [← hsearch]
        cases searchBb bbl.blockSize newBb head rest <;> rfl

theorem queueBb_behind_lower (hpre : ∀ x ∈ pre ++ [prev], x.block < newBb.block)
    (hq : ∀ x ∈ q, newBb.block ≤ x.block) :
    queueBb env bbl newBb =
      if bbl.lastUsed = .freed ∧ env.reuse = false then .error .useAfterFree
      else bbl.relink newBb (behind pre (linkBb bbl.blockSize prev newBb q)) :=
  queueBb_behind env ho hl (fun x hx => (hpre x hx).le) (fun x hx => hpre x (mem_of_mem_tail hx)) hq

end

/-- A list of increasing block numbers, cut before the first one that is not below `b`. -/
theorem exists_split (hinc : l.Pairwise fun a b => a.block < b.block) {b : Nat}
    (h : ∃ x ∈ l, x.block < b) :
    ∃ pre prev q, l = pre ++ prev :: q ∧ (∀ x ∈ pre ++ [prev], x.block < b) ∧
      ∀ x ∈ q, b ≤ x.block := by
  induction l with
  | nil => simp at h
  | cons x l ih =>
    obtain ⟨hx, hl⟩ := pairwise_cons.1 hinc
    by_cases hlow : ∃ y ∈ l, y.block < b
    · obtain ⟨pre, prev, q, rfl, hpre, hq⟩ := ih hl hlow
      refine ⟨x :: pre, prev, q, rfl, fun y hy => ?_, hq⟩
      rcases mem_cons.1 hy with rfl | hy
      · obtain ⟨z, hz, hzb⟩ := hlow
        exact (hx z hz).trans hzb
      · exact hpre y hy
    · push Not at hlow
      obtain ⟨y, hy, hyb⟩ := h
      rcases mem_cons.1 hy with rfl | hy
      · exact ⟨[], y, l, rfl, by simpa using hyb, hlow⟩
      · have := hlow y hy
        omega

/-- A block number that is taken is a fault, because one of the two merges asserts that it is
not. -/
theorem queueBb_taken (env : Env) (ho : bbl.Ordered)
    (h : ∃ x ∈ bbl.dataBlocks, x.block = newBb.block) : ∃ f, queueBb env bbl newBb = .error f := by
  obtain ⟨x, hx, hxb⟩ := h
  by_cases hlow : ∃ y ∈ bbl.dataBlocks, y.block < newBb.block
  · obtain ⟨pre, prev, q, hl, hpre, hq⟩ := exists_split ho.increasing hlow
    rw [queueBb_behind_lower env ho hl hpre hq]
    split_ifs with hf
    · exact ⟨_, rfl⟩
    · -- The node with the same number comes right after the new one.
      have hxq : x ∈ q := by
        rw [hl, append_cons] at hx
        rcases mem_append.1 hx with hx | hx
        · have := hpre x hx
          omega
        · exact hx
      cases q with
      | nil => simp at hxq
      | cons next q =>
        have hinc := (pairwise_append.1 (hl ▸ ho.increasing)).2.1
        have hnext : ¬ newBb.block < next.block := by
          rcases mem_cons.1 hxq with rfl | hxq
          · omega
          · have := (pairwise_cons.1 (pairwise_cons.1 hinc).2).1 x hxq
            omega
        exact ⟨.assertFail, by rw [linkBb, mergeNext, mergeBb_assert hnext]; rfl⟩
  · push Not at hlow
    -- Otherwise it is the first node.
    obtain ⟨head, rest, hd⟩ := exists_cons_of_ne_nil (ne_nil_of_mem hx)
    have hinc := pairwise_cons.1 (hd ▸ ho.increasing)
    have hhead : head.block = newBb.block := by
      have h1 := hlow head (by simp [hd])
      rcases mem_cons.1 (hd ▸ hx) with rfl | hx
      · exact hxb
      · have := hinc.1 x hx
        omega
    have hnil : bbl.dataBlocks = [] ++ head :: rest := hd
    rw [queueBb_behind env ho hnil (by simpa using hhead.le) (by simp)
      fun y hy => hhead ▸ (hinc.1 y hy).le]
    split_ifs with hf
    · exact ⟨_, rfl⟩
    · unfold linkBb
      cases hn : mergeNext bbl.blockSize newBb rest with
      | error f => exact ⟨f, rfl⟩
      | ok r =>
        have hm : ¬ head.block < r.1.block := by
          rw [(mergeNext_same hn).1]
          omega
        exact ⟨.assertFail, by simp only [mergeBb_assert hm]; rfl⟩

theorem queueBb_linked (env : Env) (ho : bbl.Ordered) (hbs : bbl.blockSize ≠ 0)
    (hhint : bbl.lastUsed = .freed → env.reuse = true) (hl : bbl.dataBlocks = pre ++ prev :: q)
    (hpre : ∀ x ∈ pre ++ [prev], x.block < newBb.block) (hq : ∀ x ∈ q, newBb.block < x.block) :
    queueBb env bbl newBb = .ok { bbl with
      dataBlocks := pre ++ (joinBoth bbl.blockSize prev newBb q).1
      lastUsed := if (joinBoth bbl.blockSize prev newBb q).2 then .freed else .node newBb.block } := by
  have hnot : ¬ (bbl.lastUsed = .freed ∧ env.reuse = false) := fun h => by
    simp [hhint h.1] at h
  rw [queueBb_behind_lower env ho hl hpre fun x hx => (hq x hx).le, if_neg hnot,
    linkBb_eq hbs (hpre prev (by simp)) hq]
  rfl

/-- A region can be queued: it goes in front of all others, or there is no reason to stop. -/
def AddSafe (env : Env) (bbl : BackedBlockList) (newBb : BackedBlock) : Prop :=
  (∀ x ∈ bbl.dataBlocks, newBb.block < x.block) ∨
    (bbl.blockSize ≠ 0 ∧ (bbl.lastUsed = .freed → env.reuse = true) ∧
      ∀ x ∈ bbl.dataBlocks, x.block ≠ newBb.block)

theorem exists_lower {b : Nat} (hfront : ¬ ∀ x ∈ l, b < x.block) (hne : ∀ x ∈ l, x.block ≠ b) :
    ∃ x ∈ l, x.block < b := by
  push Not at hfront
  obtain ⟨x, hx, hxb⟩ := hfront
  exact ⟨x, hx, lt_of_le_of_ne hxb (hne x hx)⟩

/-- Queueing faults exactly when the region cannot be queued. -/
theorem queueBb_fault_iff (env : Env) (ho : bbl.Ordered) (hbs : bbl.blockSize ≠ 0) :
    (∃ f, queueBb env bbl newBb = .error f) ↔ ¬ AddSafe env bbl newBb := by
  by_cases hfront : ∀ x ∈ bbl.dataBlocks, newBb.block < x.block
  · exact iff_of_false (by simp [queueBb_front env hfront]) (not_not.2 (.inl hfront))
  by_cases htaken : ∃ x ∈ bbl.dataBlocks, x.block = newBb.block
  · refine iff_of_true (queueBb_taken env ho htaken) ?_
    rintro (h | ⟨-, -, h⟩)
    · exact hfront h
    · obtain ⟨x, hx, hxb⟩ := htaken
      exact h x hx hxb
  have hne : ∀ x ∈ bbl.dataBlocks, x.block ≠ newBb.block := fun x hx hxb => htaken ⟨x, hx, hxb⟩
  obtain ⟨pre, prev, q, hl, hpre, hq⟩ := exists_split ho.increasing (exists_lower hfront hne)
  by_cases hhint : bbl.lastUsed = .freed → env.reuse = true
  · have hq' : ∀ x ∈ q, newBb.block < x.block := fun x hx =>
      lt_of_le_of_ne (hq x hx) (hne x (by simp [hl, hx])).symm
    exact iff_of_false (by simp [queueBb_linked env ho hbs hhint hl hpre hq'])
      (not_not.2 (.inr ⟨hbs, hhint, hne⟩))
  · push Not at hhint
    refine iff_of_true ⟨.useAfterFree, ?_⟩ ?_
    · rw [queueBb_behind_lower env ho hl hpre hq, if_pos ⟨hhint.1, by simpa using hhint.2⟩]
    · rintro (h | ⟨-, h, -⟩)
      · exact hfront h
      · exact hhint.2 (h hhint.1)

/-! ## One call -/

/-- What a call does to the list: the new node goes to the front, or behind a lower one and is
merged with its neighbours. -/
inductive Queued (blockSize : Nat) (newBb : BackedBlock) :
    List BackedBlock → List BackedBlock → Prop where
  | front {l : List BackedBlock} :
      (∀ x ∈ l, newBb.block < x.block) → Queued blockSize newBb l (newBb :: l)
  | link {pre : List BackedBlock} {prev : BackedBlock} {q : List BackedBlock} :
      (∀ x ∈ pre ++ [prev], x.block < newBb.block) → (∀ x ∈ q, newBb.block < x.block) →
      Queued blockSize newBb (pre ++ prev :: q) (pre ++ (joinBoth blockSize prev newBb q).1)

theorem joinNext_blocks (blockSize : Nat) (newBb : BackedBlock) (q : List BackedBlock) :
    ((joinNext blockSize newBb q).2.map block).Sublist (q.map block) := by
  cases q with
  | nil => exact List.Sublist.refl _
  | cons next q =>
    rw [joinNext]
    split_ifs
    · exact sublist_cons_self _ _
    · exact List.Sublist.refl _

theorem joinBoth_blocks (blockSize : Nat) (prev newBb : BackedBlock) (q : List BackedBlock) :
    ((joinBoth blockSize prev newBb q).1.map block).Sublist
      ((prev :: newBb :: q).map block) := by
  have hq := joinNext_blocks blockSize newBb q
  have hm := block_joinNext blockSize newBb q
  simp only [joinBoth]
  split_ifs
  · exact (hq.cons _).cons_cons _
  · simp only [map_cons, hm]
    exact (hq.cons_cons _).cons_cons _

theorem Queued.increasing (h : Queued blockSize newBb l l')
    (hl : l.Pairwise fun a b => a.block < b.block) : l'.Pairwise fun a b => a.block < b.block := by
  cases h with
  | front hlow => exact pairwise_cons.2 ⟨hlow, hl⟩
  | @link pre prev q hpre hq =>
    rw [← pairwise_map (R := (· < ·))]
    rw [map_append]
    have hsub := (joinBoth_blocks blockSize prev newBb q).append_left (pre.map block)
    apply List.Pairwise.sublist hsub
    rw [← map_append, pairwise_map]
    obtain ⟨h1, h2, h3⟩ := pairwise_append.1 hl
    obtain ⟨h4, h5⟩ := pairwise_cons.1 h2
    refine pairwise_append.2 ⟨h1, ?_, fun x hx y hy => ?_⟩
    · refine pairwise_cons.2 ⟨fun y hy => ?_, pairwise_cons.2 ⟨hq, h5⟩⟩
      rcases mem_cons.1 hy with rfl | hy
      · exact hpre prev (by simp)
      · exact h4 y hy
    · rcases mem_cons.1 hy with rfl | hy
      · exact h3 x hx y (by simp)
      · rcases mem_cons.1 hy with rfl | hy
        · exact hpre x (by simp [hx])
        · exact h3 x hx y (by simp [hy])

theorem queueBb_ok (ho : bbl.Ordered) (h : AddSafe env bbl newBb) :
    ∃ bbl', queueBb env bbl newBb = .ok bbl' ∧ bbl'.blockSize = bbl.blockSize ∧ bbl'.Ordered ∧
      Queued bbl.blockSize newBb bbl.dataBlocks bbl'.dataBlocks := by
  by_cases hfront : ∀ x ∈ bbl.dataBlocks, newBb.block < x.block
  · have hqd : Queued bbl.blockSize newBb bbl.dataBlocks (newBb :: bbl.dataBlocks) := .front hfront
    refine ⟨_, queueBb_front env hfront, rfl, ⟨hqd.increasing ho.increasing, fun b hb => ?_⟩, hqd⟩
    obtain ⟨x, hx, hxb⟩ := ho.hint b hb
    exact ⟨x, mem_cons_of_mem _ hx, hxb⟩
  obtain ⟨hbs, hhint, hne⟩ := h.resolve_left hfront
  obtain ⟨pre, prev, q, hl, hpre, hq⟩ := exists_split ho.increasing (exists_lower hfront hne)
  have hq' : ∀ x ∈ q, newBb.block < x.block := fun x hx =>
    lt_of_le_of_ne (hq x hx) (hne x (by simp [hl, hx])).symm
  have hqd : Queued bbl.blockSize newBb bbl.dataBlocks
      (pre ++ (joinBoth bbl.blockSize prev newBb q).1) := hl ▸ .link hpre hq'
  refine ⟨_, queueBb_linked env ho hbs hhint hl hpre hq', rfl,
    ⟨hqd.increasing ho.increasing, fun b hb => ?_⟩, hqd⟩
  -- The saved pointer is to the new node, which is still there.
  have hm := block_joinNext bbl.blockSize newBb q
  by_cases hj : Joins bbl.blockSize prev (joinNext bbl.blockSize newBb q).1
  · simp [joinBoth, hj] at hb
  · simp only [joinBoth, if_neg hj, Bool.false_eq_true, if_false, Hint.node.injEq] at hb ⊢
    exact ⟨_, by simp, hm.trans hb⟩

theorem queueBb_inv {bbl' : BackedBlockList} (ho : bbl.Ordered) (hbs : bbl.blockSize ≠ 0)
    (h : queueBb env bbl newBb = .ok bbl') :
    bbl'.blockSize = bbl.blockSize ∧ bbl'.Ordered ∧
      Queued bbl.blockSize newBb bbl.dataBlocks bbl'.dataBlocks := by
  have hsafe : AddSafe env bbl newBb := by
    by_contra hns
    obtain ⟨f, hf⟩ := (queueBb_fault_iff env ho hbs).2 hns
    rw [hf] at h
    cases h
  obtain ⟨b, hb, hrest⟩ := queueBb_ok ho hsafe
  rw [h] at hb
  cases hb
  exact hrest

/-! ## Groups of regions -/

/-- A node that merging has made of a list of regions, in this order. -/
inductive Merged (blockSize : Nat) : List BackedBlock → BackedBlock → Prop where
  | single (a : BackedBlock) : Merged blockSize [a] a
  | join {c d : List BackedBlock} {a b : BackedBlock} :
      Merged blockSize c a → Merged blockSize d b → a.block < b.block → Joins blockSize a b →
      Merged blockSize (c ++ d) (a.join b)

/-- Every node of a list is a group of the regions `adds`, merged. -/
def Grouped (blockSize : Nat) (adds l : List BackedBlock) : Prop :=
  ∃ cs, List.Forall₂ (Merged blockSize) cs l ∧ cs.flatten.Perm adds

theorem grouped_nil (blockSize : Nat) : Grouped blockSize [] [] := ⟨[], .nil, .refl _⟩

theorem forall₂_append_inv {α β : Type*} {R : α → β → Prop} {l : List α} {m n : List β}
    (h : List.Forall₂ R l (m ++ n)) :
    ∃ l1 l2, l = l1 ++ l2 ∧ List.Forall₂ R l1 m ∧ List.Forall₂ R l2 n := by
  induction m generalizing l with
  | nil => exact ⟨[], l, rfl, .nil, h⟩
  | cons b m ih =>
    obtain ⟨a, l', hab, h', rfl⟩ := forall₂_cons_right_iff.1 h
    obtain ⟨l1, l2, rfl, h1, h2⟩ := ih h'
    exact ⟨a :: l1, l2, rfl, .cons hab h1, h2⟩

theorem joinNext_grouped (hcs : List.Forall₂ (Merged blockSize) cs q)
    (hq : ∀ x ∈ q, newBb.block < x.block) :
    ∃ c cs', Merged blockSize c (joinNext blockSize newBb q).1 ∧
      List.Forall₂ (Merged blockSize) cs' (joinNext blockSize newBb q).2 ∧
      c ++ cs'.flatten = newBb :: cs.flatten := by
  cases hcs with
  | nil => exact ⟨[newBb], [], .single _, .nil, rfl⟩
  | @cons d next cs q hd hcs =>
    rw [joinNext]
    split_ifs with hj
    · exact ⟨[newBb] ++ d, cs, .join (.single _) hd (hq next (by simp)) hj, hcs, by simp⟩
    · exact ⟨[newBb], d :: cs, .single _, .cons hd hcs, rfl⟩

theorem Grouped.queued {adds : List BackedBlock} (h : Grouped blockSize adds l)
    (hqd : Queued blockSize newBb l l') : Grouped blockSize (newBb :: adds) l' := by
  obtain ⟨cs, hcs, hperm⟩ := h
  cases hqd with
  | front _ => exact ⟨[newBb] :: cs, .cons (.single _) hcs, by simpa using hperm⟩
  | @link pre prev q hpre hq =>
    obtain ⟨cpre, crest, rfl, hcpre, hcrest⟩ := forall₂_append_inv hcs
    obtain ⟨cp, cq, hcp, hcq, rfl⟩ := forall₂_cons_right_iff.1 hcrest
    obtain ⟨c, cs', hc, hcs', heq⟩ := joinNext_grouped hcq hq
    have hflat : (cpre.flatten ++ (cp ++ (c ++ cs'.flatten))).Perm (newBb :: adds) := by
      rw [heq, ← append_assoc]
      refine perm_middle.trans (List.Perm.cons _ ?_)
      simpa using hperm
    have hlt : prev.block < (joinNext blockSize newBb q).1.block := by
      rw [block_joinNext]
      exact hpre prev (by simp)
    simp only [joinBoth]
    split_ifs with hj
    · refine ⟨cpre ++ (cp ++ c) :: cs', rel_append hcpre (.cons (.join hcp hc hlt hj) hcs'), ?_⟩
      simpa using hflat
    · refine ⟨cpre ++ cp :: c :: cs', rel_append hcpre (.cons hcp (.cons hc hcs')), ?_⟩
      simpa using hflat

/-! ## What a group stands for -/

theorem continues_advance (h : continues a b = true) : b.backing = a.backing.advance a.len := by
  unfold continues at h
  cases ha : a.backing <;> cases hb : b.backing <;>
    simp [ha, hb, Backing.advance] at h ⊢ <;> simp_all

/-- Merging two nodes is the inverse of cutting one after whole blocks. -/
theorem cut_join (env : Env) (hbs : 0 < blockSize) (hc : continues a b = true)
    (hblock : a.block + a.len / blockSize = b.block) (hwhole : blockSize ∣ a.len)
    (hsum : a.len + b.len < 2 ^ 32) : (regions env blockSize).Cut (a.join b) a b := by
  have hk : a.len / blockSize * blockSize = a.len := Nat.div_mul_cancel hwhole
  have hlen : (a.join b).len = a.len + b.len := u32_of_lt hsum
  have hcut := cut_blocks env hbs (show a.len / blockSize * blockSize ≤ (a.join b).len by omega)
  have h1 : (a.join b).firstBlocks blockSize (a.len / blockSize) = a := by
    rw [firstBlocks, hk]
    rfl
  have h2 : (a.join b).dropBlocks blockSize (a.len / blockSize) = b := by
    rw [dropBlocks, hk, hlen, Nat.add_sub_cancel_left]
    show (⟨a.block + a.len / blockSize, b.len, a.backing.advance a.len⟩ : BackedBlock) = b
    rw [hblock, ← continues_advance hc]
  rwa [h1, h2] at hcut

theorem covers_of_refines (h : (regions env blockSize).Refines [n] c) (p : Nat) :
    (regions env blockSize).Covers n p ↔ ∃ x ∈ c, (regions env blockSize).Covers x p := by
  rw [← Segments.lookup_isSome_iff, h.lookup, Segments.lookup_isSome_iff]
  simp

/-- A group of regions whose lengths add up without wrapping, and that cannot meet inside a block:
they are whole blocks, or they hold something and are disjoint. -/
structure RegionGroup (env : Env) (blockSize : Nat) (c : List BackedBlock) : Prop where
  block_lt : ∀ x ∈ c, x.block < 2 ^ 32
  sum_lt : (c.map len).sum < 2 ^ 32
  apart : (∀ x ∈ c, blockSize ∣ x.len) ∨
    ((∀ x ∈ c, 0 < x.len) ∧ (regions env blockSize).Disjoint c)

theorem RegionGroup.sublist (h : RegionGroup env blockSize d) (hs : c.Sublist d) :
    RegionGroup env blockSize c where
  block_lt x hx := h.block_lt x (hs.subset hx)
  sum_lt := ((hs.map _).sum_le_sum fun _ _ => Nat.zero_le _).trans_lt h.sum_lt
  apart := h.apart.imp (fun ha x hx => ha x (hs.subset hx))
    fun hp => ⟨fun x hx => hp.1 x (hs.subset hx), hp.2.sublist hs⟩

theorem RegionGroup.left (h : RegionGroup env blockSize (c ++ d)) : RegionGroup env blockSize c :=
  h.sublist (sublist_append_left c d)

theorem RegionGroup.right (h : RegionGroup env blockSize (c ++ d)) : RegionGroup env blockSize d :=
  h.sublist (sublist_append_right c d)

/-- What a node says about the regions it was made of. -/
structure Stands (env : Env) (blockSize : Nat) (c : List BackedBlock) (n : BackedBlock) : Prop where
  len_eq : n.len = (c.map len).sum
  block_mem : ∃ x ∈ c, x.block = n.block
  stop_mem : ∃ x ∈ c, x.stop blockSize = n.stop blockSize
  type_eq : ∀ x ∈ c, x.backing.type = n.backing.type
  refines : (regions env blockSize).Refines [n] c

theorem Stands.len_pos (h : Stands env blockSize c n) (hpos : ∀ x ∈ c, 0 < x.len) : 0 < n.len := by
  obtain ⟨x, hx, -⟩ := h.block_mem
  have hle : x.len ≤ (c.map len).sum :=
    single_le_sum (fun _ _ => Nat.zero_le _) _ (mem_map_of_mem hx)
  have := hpos x hx
  rw [h.len_eq]
  omega

/-- Two nodes that are joined meet where the block numbers say: a sum that wrapped would lie
below the first block. -/
theorem Joins.block_eq (hj : Joins blockSize a b) (hlt : a.block < b.block)
    (hblock : a.block < 2 ^ 32) (hlen : a.len < 2 ^ 32) :
    a.block + a.len / blockSize = b.block := by
  have hk : a.len / blockSize ≤ a.len := Nat.div_le_self _ _
  have hsum := hj.2.1
  generalize a.len / blockSize = k at hk hsum ⊢
  unfold u32 at hsum
  omega

/-- A partial last block of a node would be the first block of the one it is joined with. -/
theorem whole_of_apart (hbs : 0 < blockSize) (sa : Stands env blockSize c a)
    (sb : Stands env blockSize d b) (hg : RegionGroup env blockSize (c ++ d))
    (hlt : a.block < b.block) (hblock : a.block + a.len / blockSize = b.block) :
    blockSize ∣ a.len := by
  rcases hg.apart with halign | ⟨hpos, hdisj⟩
  · rw [sa.len_eq]
    apply dvd_sum
    intro k hk
    obtain ⟨x, hx, rfl⟩ := mem_map.1 hk
    exact halign x (mem_append_left _ hx)
  · by_contra hnd
    have hlt' : a.len / blockSize < divRoundUp a.len blockSize := by
      rw [lt_divRoundUp_iff hbs]
      exact lt_of_le_of_ne (Nat.div_mul_le_self _ _) fun h => hnd ⟨_, by rw [mul_comm, h]⟩
    have hca : (regions env blockSize).Covers a b.block := by
      refine ⟨hlt.le, ?_⟩
      show b.block < a.block + divRoundUp a.len blockSize
      omega
    have hcb : (regions env blockSize).Covers b b.block :=
      ⟨le_rfl, block_lt_stop hbs
        (sb.len_pos fun x hx => hpos x (mem_append_right _ hx))⟩
    obtain ⟨x, hx, hxp⟩ := (covers_of_refines sa.refines _).1 hca
    obtain ⟨y, hy, hyp⟩ := (covers_of_refines sb.refines _).1 hcb
    exact (pairwise_append.1 hdisj).2.2 x hx y hy _ ⟨hxp, hyp⟩

/-- A node stands for the regions of its group, one after another. -/
theorem Merged.stands (hbs : 0 < blockSize) (h : Merged blockSize c n)
    (hg : RegionGroup env blockSize c) : Stands env blockSize c n := by
  induction h with
  | single a => exact ⟨by simp, ⟨a, by simp, rfl⟩, ⟨a, by simp, rfl⟩, by simp, .refl⟩
  | @join c d a b hc hd hlt hj ihc ihd =>
    have sa := ihc hg.left
    have sb := ihd hg.right
    have hsum : a.len + b.len < 2 ^ 32 := by
      have := hg.sum_lt
      rwa [map_append, sum_append, ← sa.len_eq, ← sb.len_eq] at this
    have hablock : a.block < 2 ^ 32 := by
      obtain ⟨x, hx, hxa⟩ := sa.block_mem
      rw [← hxa]
      exact hg.left.block_lt x hx
    have hblock := hj.block_eq hlt hablock (by omega)
    have hwhole := whole_of_apart hbs sa sb hg hlt hblock
    have hcut := cut_join env hbs hj.2.2 hblock hwhole hsum
    refine ⟨?_, ?_, ?_, fun x hx => ?_, ?_⟩
    · have hlen : (a.join b).len = a.len + b.len := u32_of_lt hsum
      rw [hlen, map_append, sum_append, sa.len_eq, sb.len_eq]
    · obtain ⟨x, hx, hxa⟩ := sa.block_mem
      exact ⟨x, mem_append_left _ hx, hxa⟩
    · obtain ⟨y, hy, hys⟩ := sb.stop_mem
      exact ⟨y, mem_append_right _ hy, hys.trans hcut.stop_eq⟩
    · rcases mem_append.1 hx with hx | hx
      · exact sa.type_eq x hx
      · exact (sb.type_eq x hx).trans hj.1.symm
    · have h0 : (regions env blockSize).Refines [a.join b] [a, b] :=
        Segments.Refines.cut (p := []) .refl hcut
      have h1 : (regions env blockSize).Refines [a, b] (c ++ [b]) :=
        sa.refines.append_right [b]
      exact (h0.trans h1).trans (sb.refines.append_left c)

theorem stands_of_merged (hbs : 0 < blockSize) (h : List.Forall₂ (Merged blockSize) cs l)
    (hg : ∀ c ∈ cs, RegionGroup env blockSize c) : List.Forall₂ (Stands env blockSize) cs l := by
  induction h with
  | nil => exact .nil
  | cons hc _ ih =>
    exact .cons (hc.stands hbs (hg _ (by simp))) (ih fun d hd => hg d (mem_cons_of_mem _ hd))

theorem refines_flatten (h : List.Forall₂ (Stands env blockSize) cs l) :
    (regions env blockSize).Refines l cs.flatten := by
  induction h with
  | nil => exact .refl
  | @cons c n cs l hc _ ih =>
    have h1 : (regions env blockSize).Refines (n :: l) (c ++ l) := hc.refines.append_right l
    exact h1.trans (ih.append_left c)

end AndroidSystem.Sparse
