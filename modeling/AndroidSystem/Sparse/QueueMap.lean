import AndroidSystem.Sparse.Queueing

/-!
# The queue as a map

A `backed_block_list` is there to collect regions in any order. What it should be is a map: the
union of the regions added. For regions of whole blocks that do not overlap and are shorter than
4 GiB together, `queue_denotes_iff` says that this is what a sequence of calls builds, sorted,
exactly when no call goes through a dangling `last_used`. `merge_bb` leaves one behind whenever it
merges the new node into the one before it, so the next region that is not put in front of the
list is queued through freed memory.
-/

namespace AndroidSystem.Sparse

open List BackedBlock

variable {env : Env} {bbl : BackedBlockList} {old adds l : List BackedBlock} {f : Fault}
  {blockSize : Nat} {n : BackedBlock}

/-! ## Runs of calls -/

section

variable (env : Env) (bbl : BackedBlockList) (bb : BackedBlock)

/-- A call of the `backed_block_add_*` function that belongs to a region. -/
def backedBlockAdd : Except Fault BackedBlockList :=
  match bb.backing with
  | .data data => backedBlockAddData env bbl data bb.len bb.block
  | .file filename offset => backedBlockAddFile env bbl filename offset bb.len bb.block
  | .fd fd offset => backedBlockAddFd env bbl fd offset bb.len bb.block
  | .fill val => backedBlockAddFill env bbl val bb.len bb.block

theorem backedBlockAdd_eq : backedBlockAdd env bbl bb = queueBb env bbl bb := by
  obtain ⟨block, len, backing⟩ := bb
  cases backing <;> rfl

end

/-- A sequence of calls. -/
def backedBlockAddAll (env : Env) :
    BackedBlockList → List BackedBlock → Except Fault BackedBlockList
  | bbl, [] => .ok bbl
  | bbl, bb :: rest =>
    match backedBlockAdd env bbl bb with
    | .error e => .error e
    | .ok bbl => backedBlockAddAll env bbl rest

/-- Every call of a sequence is made in a state in which its region can be queued. -/
def AddsSafe (env : Env) : BackedBlockList → List BackedBlock → Prop
  | _, [] => True
  | bbl, bb :: rest =>
    AddSafe env bbl bb ∧ ∀ bbl', backedBlockAdd env bbl bb = .ok bbl' → AddsSafe env bbl' rest

theorem backedBlockAddAll_grouped {bbl' : BackedBlockList} (ho : bbl.Ordered)
    (hbs : bbl.blockSize ≠ 0) (hg : Grouped bbl.blockSize old bbl.dataBlocks)
    (h : backedBlockAddAll env bbl adds = .ok bbl') :
    bbl'.Ordered ∧ Grouped bbl.blockSize (adds ++ old) bbl'.dataBlocks := by
  induction adds generalizing bbl old with
  | nil =>
    cases h
    exact ⟨ho, hg⟩
  | cons bb adds ih =>
    rw [backedBlockAddAll] at h
    cases ha : backedBlockAdd env bbl bb with
    | error f => simp [ha] at h
    | ok t =>
      rw [ha] at h
      rw [backedBlockAdd_eq] at ha
      obtain ⟨h1, h2, h3⟩ := queueBb_inv ho hbs ha
      obtain ⟨h4, cs, hcs, hperm⟩ := ih h2 (h1 ▸ hbs) (h1 ▸ hg.queued h3) h
      exact ⟨h4, cs, h1 ▸ hcs, hperm.trans perm_middle⟩

/-- A sequence of calls returns exactly when each of them is safe. -/
theorem backedBlockAddAll_ok_iff (ho : bbl.Ordered) (hbs : bbl.blockSize ≠ 0)
    (adds : List BackedBlock) :
    (∃ bbl', backedBlockAddAll env bbl adds = .ok bbl') ↔ AddsSafe env bbl adds := by
  induction adds generalizing bbl with
  | nil => exact iff_of_true ⟨bbl, rfl⟩ trivial
  | cons bb adds ih =>
    by_cases hsafe : AddSafe env bbl bb
    · obtain ⟨t, ht, h1, h2, -⟩ := queueBb_ok ho hsafe
      rw [← backedBlockAdd_eq] at ht
      rw [backedBlockAddAll, AddsSafe, ht]
      simp only [hsafe, true_and, Except.ok.injEq, forall_eq']
      exact ih h2 (h1 ▸ hbs)
    · obtain ⟨f, hf⟩ := (queueBb_fault_iff env ho hbs).2 hsafe
      rw [← backedBlockAdd_eq] at hf
      rw [backedBlockAddAll, AddsSafe, hf]
      simp [hsafe]

/-! ## Which fault it can be -/

/-- A free block number leaves only the dangling pointer. -/
theorem queueBb_error (ho : bbl.Ordered) (hbs : bbl.blockSize ≠ 0) {newBb : BackedBlock}
    (hne : ∀ x ∈ bbl.dataBlocks, x.block ≠ newBb.block) (h : queueBb env bbl newBb = .error f) :
    f = .useAfterFree := by
  have hsafe := (queueBb_fault_iff env ho hbs).1 ⟨f, h⟩
  have hfront : ¬ ∀ x ∈ bbl.dataBlocks, newBb.block < x.block := fun hf => hsafe (.inl hf)
  have hhint : bbl.lastUsed = .freed ∧ env.reuse = false := by
    by_contra hnot
    exact hsafe (.inr ⟨hbs, fun hf => by simpa using fun hr => hnot ⟨hf, hr⟩, hne⟩)
  obtain ⟨pre, prev, q, hl, hpre, hq⟩ := exists_split ho.increasing (exists_lower hfront hne)
  rw [queueBb_behind_lower env ho hl hpre hq, if_pos hhint] at h
  cases h
  rfl

theorem Merged.block_mem {c : List BackedBlock} (h : Merged blockSize c n) :
    ∃ x ∈ c, x.block = n.block := by
  induction h with
  | single a => exact ⟨a, by simp, rfl⟩
  | join _ _ _ _ ih _ =>
    obtain ⟨x, hx, hxn⟩ := ih
    exact ⟨x, mem_append_left _ hx, hxn⟩

theorem Grouped.block_mem (h : Grouped blockSize adds l) (hn : n ∈ l) :
    ∃ x ∈ adds, x.block = n.block := by
  obtain ⟨cs, hcs, hperm⟩ := h
  induction hcs generalizing adds with
  | nil => simp at hn
  | @cons c m cs l hc _ ih =>
    rcases mem_cons.1 hn with rfl | hn
    · obtain ⟨x, hx, hxn⟩ := hc.block_mem
      exact ⟨x, hperm.subset (by simp [hx]), hxn⟩
    · obtain ⟨x, hx, hxn⟩ := ih hn (List.Perm.refl _)
      exact ⟨x, hperm.subset (mem_append_right c hx), hxn⟩

/-- Regions that hold something and do not overlap start at different blocks. -/
theorem block_ne_of_disjoint (hbs : 0 < blockSize) {a b : BackedBlock} (ha : 0 < a.len)
    (hb : 0 < b.len)
    (h : ∀ p, ¬ ((regions env blockSize).Covers a p ∧ (regions env blockSize).Covers b p)) :
    a.block ≠ b.block := fun heq =>
  h a.block ⟨⟨le_rfl, block_lt_stop hbs ha⟩, heq.ge,
    heq ▸ block_lt_stop hbs hb⟩

/-- Regions that hold something never trip an assertion of `merge_bb`. -/
theorem backedBlockAddAll_error (ho : bbl.Ordered) (hbs : bbl.blockSize ≠ 0)
    (hg : Grouped bbl.blockSize old bbl.dataBlocks) (hpos : ∀ x ∈ old ++ adds, 0 < x.len)
    (hdisj : (regions env bbl.blockSize).Disjoint (old ++ adds))
    (h : backedBlockAddAll env bbl adds = .error f) : f = .useAfterFree := by
  induction adds generalizing bbl old with
  | nil => cases h
  | cons bb adds ih =>
    rw [backedBlockAddAll] at h
    cases ha : backedBlockAdd env bbl bb with
    | error f' =>
      rw [ha] at h
      cases h
      rw [backedBlockAdd_eq] at ha
      refine queueBb_error ho hbs (fun x hx => ?_) ha
      obtain ⟨y, hy, hyx⟩ := hg.block_mem hx
      rw [← hyx]
      exact block_ne_of_disjoint (pos_of_ne_zero hbs) (hpos y (mem_append_left _ hy))
        (hpos bb (by simp)) ((pairwise_append.1 hdisj).2.2 y hy bb (by simp))
    | ok t =>
      rw [ha] at h
      rw [backedBlockAdd_eq] at ha
      obtain ⟨h1, h2, h3⟩ := queueBb_inv ho hbs ha
      have hperm : (old ++ bb :: adds).Perm ((bb :: old) ++ adds) := perm_middle
      exact ih h2 (h1 ▸ hbs) (h1 ▸ hg.queued h3)
        (fun x hx => hpos x (hperm.symm.subset hx)) (h1 ▸ hdisj.perm hperm) h

/-! ## What the list stands for -/

section Union

variable {env : Env} {blockSize : Nat} (hbs : 0 < blockSize) {adds : List BackedBlock}
  (hblock : ∀ x ∈ adds, x.block < 2 ^ 32) (halign : ∀ x ∈ adds, blockSize ∣ x.len)
  (hsum : (adds.map len).sum < 2 ^ 32)
  (hdisj : (regions env blockSize).Disjoint adds)

include hbs hblock halign hsum hdisj

theorem grouped_disjoint_lookup (h : Grouped blockSize adds l) :
    (regions env blockSize).Disjoint l ∧
      ∀ p, (regions env blockSize).lookup l p = (regions env blockSize).lookup adds p := by
  obtain ⟨cs, hcs, hperm⟩ := h
  have hgroup : ∀ c ∈ cs, RegionGroup env blockSize c := fun c hc => by
    have hsub : c.Sublist cs.flatten := sublist_flatten_of_mem hc
    refine ⟨fun x hx => hblock x (hperm.subset (hsub.subset hx)), ?_,
      .inl fun x hx => halign x (hperm.subset (hsub.subset hx))⟩
    rw [← (hperm.map len).sum_eq] at hsum
    exact ((hsub.map _).sum_le_sum fun _ _ => Nat.zero_le _).trans_lt hsum
  have hstands := stands_of_merged hbs hcs hgroup
  have hflat : (regions env blockSize).Disjoint cs.flatten := hdisj.perm hperm.symm
  refine ⟨?_, fun p => ?_⟩
  · -- A position of two nodes would be one of two regions.
    clear hperm hcs hgroup
    induction hstands with
    | nil => exact .nil
    | @cons c n cs l hc hrest ih =>
      obtain ⟨-, hfl, hcross⟩ := pairwise_append.1 hflat
      refine pairwise_cons.2 ⟨fun m hm p hp => ?_, ih hfl⟩
      obtain ⟨x, hx, hxp⟩ := (covers_of_refines hc.refines p).1 hp.1
      have hsome : ((regions env blockSize).lookup cs.flatten p).isSome := by
        rw [(refines_flatten hrest).lookup, Segments.lookup_isSome_iff]
        exact ⟨m, hm, hp.2⟩
      obtain ⟨y, hy, hyp⟩ := Segments.lookup_isSome_iff.1 hsome
      exact hcross x hx y hy p ⟨hxp, hyp⟩
  · rw [← (refines_flatten hstands).lookup, Segments.lookup_perm hperm hflat]

end Union

/-- Queueing disjoint regions of whole blocks, shorter than 4 GiB together, in any order.

The calls return a list that is sorted, disjoint and stands for the union of the regions exactly
when each call is safe. Lists built in two orders stand for the same map. And for regions that
hold something the only possible fault is the dangling pointer, so the assertion that block
numbers differ never fails. -/
theorem queue_denotes_iff {env : Env} {blockSize : Nat} (hbs : 0 < blockSize)
    {adds : List BackedBlock} (hblock : ∀ x ∈ adds, x.block < 2 ^ 32)
    (halign : ∀ x ∈ adds, blockSize ∣ x.len) (hsum : (adds.map len).sum < 2 ^ 32)
    (hdisj : (regions env blockSize).Disjoint adds) :
    ((∃ bbl, backedBlockAddAll env (backedBlockListNew blockSize) adds = .ok bbl ∧
        bbl.dataBlocks.Pairwise (fun a b => a.block < b.block) ∧
        (regions env blockSize).Disjoint bbl.dataBlocks ∧
        ∀ p v, (regions env blockSize).lookup bbl.dataBlocks p = some v ↔
          ∃ x ∈ adds, (regions env blockSize).Covers x p ∧
            x.contents env blockSize (p - x.block) = v) ↔
      AddsSafe env (backedBlockListNew blockSize) adds) ∧
    (∀ adds' bbl bbl', adds'.Perm adds →
      backedBlockAddAll env (backedBlockListNew blockSize) adds = .ok bbl →
      backedBlockAddAll env (backedBlockListNew blockSize) adds' = .ok bbl' →
      ∀ p, (regions env blockSize).lookup bbl.dataBlocks p =
        (regions env blockSize).lookup bbl'.dataBlocks p) ∧
    ((∀ x ∈ adds, 0 < x.len) → ∀ f,
      backedBlockAddAll env (backedBlockListNew blockSize) adds = .error f → f = .useAfterFree) := by
  have ho := ordered_new blockSize
  have hgrouped {l : List BackedBlock} {bbl : BackedBlockList}
      (h : backedBlockAddAll env (backedBlockListNew blockSize) l = .ok bbl) :
      bbl.Ordered ∧ Grouped blockSize l bbl.dataBlocks := by
    have := backedBlockAddAll_grouped ho hbs.ne' (grouped_nil blockSize) h
    rwa [append_nil] at this
  refine ⟨?_, fun adds' bbl bbl' hperm h h' p => ?_, fun hpos f hf => ?_⟩
  · rw [← backedBlockAddAll_ok_iff ho hbs.ne']
    constructor
    · rintro ⟨bbl, hbbl, -⟩
      exact ⟨bbl, hbbl⟩
    · rintro ⟨bbl, hbbl⟩
      obtain ⟨hord, hg⟩ := hgrouped hbbl
      obtain ⟨hd, hlook⟩ := grouped_disjoint_lookup hbs hblock halign hsum hdisj hg
      exact ⟨bbl, hbbl, hord.increasing, hd, fun p v => by
        rw [hlook, hdisj.lookup_eq_some_iff]
        rfl⟩
  · obtain ⟨-, hg⟩ := hgrouped h
    obtain ⟨-, cs, hcs, hperm'⟩ := hgrouped h'
    rw [(grouped_disjoint_lookup hbs hblock halign hsum hdisj hg).2,
      (grouped_disjoint_lookup hbs hblock halign hsum hdisj ⟨cs, hcs, hperm'.trans hperm⟩).2]
  · exact backedBlockAddAll_error ho hbs.ne' (grouped_nil blockSize) hpos hdisj hf

/-- Three fill regions, of which the last is merged into the one before it. -/
def sampleAdds : List BackedBlock := [⟨5, 8, .fill 7⟩, ⟨1, 4, .fill 7⟩, ⟨2, 4, .fill 7⟩]

theorem sampleAdds_disjoint : (regions .zeros 4).Disjoint sampleAdds := by
  unfold sampleAdds Segments.Disjoint
  simp only [pairwise_cons, mem_cons, not_mem_nil, or_false, forall_eq_or_imp,
    forall_eq, Segments.Covers, regions, stop, divRoundUp]
  refine ⟨⟨fun p => ?_, fun p => ?_⟩, fun p => ?_, by simp⟩
  all_goals omega

theorem queue_denotes_sample :
    (∃ bbl, backedBlockAddAll .zeros (backedBlockListNew 4) sampleAdds = .ok bbl ∧
        bbl.dataBlocks.Pairwise (fun a b => a.block < b.block) ∧
        (regions .zeros 4).Disjoint bbl.dataBlocks ∧
        ∀ p v, (regions .zeros 4).lookup bbl.dataBlocks p = some v ↔
          ∃ x ∈ sampleAdds, (regions .zeros 4).Covers x p ∧
            x.contents .zeros 4 (p - x.block) = v) ↔
      AddsSafe .zeros (backedBlockListNew 4) sampleAdds :=
  (queue_denotes_iff (by decide) (by decide) (by decide) (by decide)
    sampleAdds_disjoint).1

/-- Two equal neighbours are merged, and the third region is queued through the freed node. -/
theorem queue_reads_freed_node :
    backedBlockAddAll { Env.zeros with reuse := false } (backedBlockListNew 4096)
      [⟨0, 4096, .fill 7⟩, ⟨1, 4096, .fill 7⟩, ⟨5, 4096, .fill 9⟩] = .error .useAfterFree := by
  decide

end AndroidSystem.Sparse
