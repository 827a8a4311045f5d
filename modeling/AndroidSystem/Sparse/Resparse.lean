import AndroidSystem.Sparse.Pack

/-!
# Cutting a sparse file into pieces

`sparse_file_resparse` moves regions from its input into output files, and puts back what the
caller has no room for. Two questions about it are answered here for every input.

* Nothing is lost: `resparse_partition`. Each move takes a front of the list, at most cutting one
  region in two, so the pieces in turn are the input with some regions cut.
* When it stops: `resparse_terminates_iff`. A move makes progress unless it splits a region after
  zero blocks.
-/

namespace AndroidSystem.Sparse

open List SparseFile

variable {l rest : List BackedBlock} {env : Env} {blockSize maxLen fuel : Nat} {inS s : SparseFile}
  {ps : List (List BackedBlock)} {bb : BackedBlock}

/-! ## Moving lists back -/

theorem spliceIn_eq_append (nodes : List BackedBlock) {startBlock : Nat}
    (h : ∀ bb ∈ l, bb.block ≤ startBlock) : spliceIn nodes startBlock l = l ++ nodes := by
  induction l with
  | nil => rfl
  | cons bb l ih =>
    cases l with
    | nil => rfl
    | cons next rest =>
      have hnext := h next (by simp)
      rw [spliceIn, if_neg (by omega), ih fun x hx => h x (mem_cons_of_mem _ hx)]
      rfl

/-- The pieces that are put back, one after another, end up in one sorted list. -/
theorem foldl_moveInto (h : (l ++ ps.flatten).Pairwise fun a b => a.block ≤ b.block) :
    ps.foldl moveInto l = l ++ ps.flatten := by
  induction ps generalizing l with
  | nil => simp
  | cons nodes ps ih =>
    have hmove : moveInto l nodes = l ++ nodes := by
      cases nodes with
      | nil => simp [moveInto]
      | cons node rest =>
        exact spliceIn_eq_append _ fun bb hbb =>
          (pairwise_append.1 h).2.2 bb hbb node (by simp)
    rw [foldl_cons, hmove, ih (by simpa using h)]
    simp

/-! ## One move -/

/-- Every part of a region that holds something can be read. -/
def Readable (env : Env) (bb : BackedBlock) : Prop :=
  ∀ d n, 0 < n → d + n ≤ bb.len → ioErrno env ⟨bb.block, n, bb.backing.advance d⟩ = 0

theorem ioErrno_block (env : Env) (b b' n : Nat) (k : Backing) :
    ioErrno env ⟨b, n, k⟩ = ioErrno env ⟨b', n, k⟩ := rfl

theorem Readable.ioErrno_eq (h : Readable env bb) (hpos : 0 < bb.len) : ioErrno env bb = 0 := by
  have := h 0 bb.len hpos (by omega)
  rwa [Backing.advance_zero] at this

theorem Readable.dropBlocks (h : Readable env bb) {k : Nat} (hk : k * blockSize < bb.len) :
    Readable env (bb.dropBlocks blockSize k) := by
  intro d n hn hd
  have hd : d + n ≤ bb.len - k * blockSize := hd
  have := h (k * blockSize + d) n hn (by omega)
  rw [ioErrno_block env _ bb.block]
  simpa [BackedBlock.dropBlocks, Backing.advance_add] using this

/-- Files that are there behave as documented: they can be opened, and a mapping of them succeeds
unless it is empty or larger than an `int` can say. -/
structure FilesOk (env : Env) : Prop where
  open_ok : ∀ f, env.openErrno f = 0
  mmap_ok : ∀ h size off, 0 < size → size < 2 ^ 31 → env.mmapErrno h size off = 0
  mmap_zero : ∀ h off, env.mmapErrno h 0 off ≠ 0

theorem filesOk_zeros : FilesOk .zeros where
  open_ok _ := rfl
  mmap_ok _ size _ h _ := if_neg h.ne'
  mmap_zero _ _ := (by decide : 22 ≠ 0)

/-- The bytes a region needs in memory: a mapping starts at a page boundary. -/
def BackedBlock.mapLen (bb : BackedBlock) : Int :=
  match bb.backing with
  | .file _ o | .fd _ o => bb.len + o % 4096
  | .data _ | .fill _ => bb.len

theorem mapErrno_eq_zero (h : FilesOk env) (f : Handle) {n : Nat} {o : Int} (hn : 0 < n)
    (hmap : (n : Int) + o % 4096 < 2 ^ 31) : mapErrno env f n o = 0 := by
  have hsize : bufferSize n o = n + o % 4096 := i32_of_lt (by omega) hmap
  have hcast : (u64OfInt (bufferSize n o) : Int) = n + o % 4096 := by
    unfold u64OfInt
    omega
  exact h.mmap_ok _ _ _ (by omega) (by omega)

theorem FilesOk.readable (h : FilesOk env) (hmap : bb.mapLen < 2 ^ 31) : Readable env bb := by
  intro d n hn hd
  cases hb : bb.backing with
  | data p => rfl
  | fill v => rfl
  | file f o =>
    simp only [BackedBlock.mapLen, hb] at hmap
    simp only [ioErrno, h.open_ok]
    exact mapErrno_eq_zero h _ hn (by omega)
  | fd f o =>
    simp only [BackedBlock.mapLen, hb] at hmap
    simp only [ioErrno]
    exact mapErrno_eq_zero h _ hn (by omega)

section

variable {p : Pack} (hbs : 0 < blockSize) (hq : Queue blockSize l)
  (hp : pack env blockSize maxLen l = p)
include hbs hq hp

/-- A move takes a front of the list, cutting the last region it takes if that is too long, or
moves nothing. -/
theorem pack_split : p.piece ++ p.rest = l ∨
    ∃ pre bb post k, l = pre ++ bb :: post ∧ k * blockSize < bb.len ∧
      p.piece = pre ++ [bb.firstBlocks blockSize k] ∧
      p.rest = bb.dropBlocks blockSize k :: post := by
  rcases packed hp with ⟨-, hov, - | - | ⟨-, -, hlt⟩⟩ | - | -
  · exact Or.inl hov.eq.symm
  · exact Or.inl (by simp [hov.eq])
  · refine Or.inr ⟨_, _, _, _, hov.eq, hlt, rfl, ?_⟩
    rw [u32_of_lt (block_add_lt hbs (hq.stop_le _ (by simp [hov.eq])) hlt)]
    rfl
  · exact Or.inl (append_nil l)
  · exact Or.inl rfl

theorem pack_refines (env' : Env) :
    (regions env' blockSize).Refines l (p.piece ++ p.rest) := by
  rcases pack_split hbs hq hp with h | ⟨pre, bb, post, k, rfl, hk, hpiece, hrest⟩
  · rw [h]
    exact .refl
  · rw [hpiece, hrest, append_assoc]
    exact .cut .refl (cut_blocks env' hbs hk.le)

/-- What a move leaves is a queue again, and can be read if the list could. -/
theorem pack_rest : Queue blockSize p.rest ∧
    ((∀ bb ∈ l, Readable env bb) → ∀ bb ∈ p.rest, Readable env bb) := by
  have hsorted := (pack_refines hbs hq hp env).sorted (hq.sorted_regions env)
  rcases pack_split hbs hq hp with h | ⟨pre, bb, post, k, rfl, hk, -, hrest⟩
  · rw [← h] at hq
    refine ⟨hq.append_right, fun hio x hx => hio x ?_⟩
    rw [← h]
    exact mem_append_right _ hx
  · have hpost := hq.append_right.tail
    rw [hrest] at hsorted ⊢
    refine ⟨⟨(pairwise_append.1 hsorted).2.1, ?_, ?_, ?_⟩, ?_⟩
    · exact forall_mem_cons.2 ⟨Nat.sub_pos_of_lt hk, hpost.len_pos⟩
    · exact forall_mem_cons.2 ⟨(Nat.sub_le _ _).trans_lt (hq.len_lt bb (by simp)), hpost.len_lt⟩
    · exact forall_mem_cons.2
        ⟨(cut_blocks env hbs hk.le).stop_eq.trans_le (hq.stop_le bb (by simp)), hpost.stop_le⟩
    · intro hio
      exact forall_mem_cons.2 ⟨(hio bb (by simp)).dropBlocks hk, fun x hx => hio x (by simp [hx])⟩

end

/-! ## All moves -/

/-- The pieces in turn are the input with some regions cut. -/
theorem pieces_refines (hbs : 0 < blockSize) (env' : Env) (hq : Queue blockSize l)
    (hp : pieces env blockSize maxLen fuel l = some (ps, rest)) :
    (regions env' blockSize).Refines l (ps.flatten ++ rest) := by
  induction fuel generalizing l ps with
  | zero => simp [pieces] at hp
  | succ fuel ih =>
    obtain ⟨p, hpk, ⟨-, ps', rfl, hp'⟩ | ⟨-, rfl, rfl⟩⟩ := pieces_cons hp
    · have := (ih (pack_rest hbs hq hpk).1 hp').append_left p.piece
      simpa using (pack_refines hbs hq hpk env').trans this
    · simpa using pack_refines hbs hq hpk env'

/-- When everything can be read, the last piece leaves nothing; a block size for which the counter
cannot be opened moves nothing at all. -/
theorem pieces_rest (hbs : 0 < blockSize) (hq : Queue blockSize l)
    (hio : ∀ bb ∈ l, Readable env bb) (hp : pieces env blockSize maxLen fuel l = some (ps, rest)) :
    (¬ i32 blockSize < 0 ∧ rest = []) ∨ (i32 blockSize < 0 ∧ ps.flatten = []) := by
  induction fuel generalizing l ps with
  | zero => simp [pieces] at hp
  | succ fuel ih =>
    obtain ⟨p, hpk, ⟨hmore, ps', rfl, hp'⟩ | ⟨hmore, rfl, rfl⟩⟩ := pieces_cons hp
    · have hopen : ¬ i32 blockSize < 0 := by
        intro hneg
        rw [← hpk, pack, if_pos hneg] at hmore
        cases hmore
      obtain ⟨hq', hio'⟩ := pack_rest hbs hq hpk
      exact Or.inl ((ih hq' (hio' hio) hp').resolve_right fun hneg => hopen hneg.1)
    · rcases packed hpk with ⟨-, -, hp⟩ | ⟨hopen, -, -⟩ | hopen | ⟨x, hx, hne⟩
      · exact absurd (hmore.symm.trans hp.more) Bool.false_ne_true
      · exact Or.inl ⟨hopen, rfl⟩
      · exact Or.inr ⟨hopen, rfl⟩
      · exact absurd ((hio x hx).ioErrno_eq (hq.len_pos x hx)) hne

theorem block_le_of_sorted (h : l.Pairwise fun a b => a.stop blockSize ≤ b.block) :
    l.Pairwise fun a b => a.block ≤ b.block :=
  h.imp fun hab => (Nat.le_add_right _ _).trans hab

/-- The files `sparse_file_resparse` fills and what it leaves in its input, in turn, are the
queue of the input with some regions cut. -/
theorem resparse_refines {outSCount : Int} {r : ResparseResult}
    (hq : Queue inS.blockSize inS.blocks) (hio : ∀ bb ∈ inS.blocks, Readable env bb)
    (h : sparseFileResparse env fuel inS maxLen outSCount = some (.ok r)) (env' : Env) :
    (regions env' inS.blockSize).Refines inS.blocks
      (r.outS.flatMap blocks ++ r.inS.blocks) := by
  obtain ⟨hbs, ps, rest, hp, -, ⟨hin, -⟩, hout, -⟩ := sparseFileResparse_inv h
  -- What was put back stands before what was never moved, since one of the two is empty.
  suffices hps : (regions env' inS.blockSize).Refines inS.blocks (ps.flatten ++ rest) ∧
      (rest = [] ∨ ps.flatten = []) by
    obtain ⟨href, hempty⟩ := hps
    have hsorted := block_le_of_sorted (href.sorted (hq.sorted_regions env'))
    have hsplit : ps.flatten = (ps.take outSCount.toNat).flatten ++
        (ps.drop outSCount.toNat).flatten := by
      rw [← flatten_append, take_append_drop]
    rw [hsplit, append_assoc] at hsorted
    have hback := foldl_moveInto (l := [])
      (pairwise_append.1 (pairwise_append.1 hsorted).2.1).1
    rw [flatMap_def, hout, hin, hback]
    rw [hsplit] at href
    rcases hempty with rfl | hnil
    · cases hd : (ps.drop outSCount.toNat).flatten with
      | nil => simpa [moveInto, hd] using href
      | cons node l => simpa [moveInto, hd, spliceIn] using href
    · rw [hsplit] at hnil
      rw [(append_eq_nil_iff.1 hnil).2] at href ⊢
      simpa [moveInto] using href
  have hpos := pos_of_ne_zero hbs
  exact ⟨pieces_refines hpos env' hq hp, (pieces_rest hpos hq hio hp).imp And.right And.right⟩

/-- `sparse_file_resparse` partitions its input: the files it fills and the input it leaves hold
disjoint regions, each in order, and together denote what the input denoted. -/
theorem resparse_partition {env : Env} {fuel : Nat} {inS : SparseFile} {maxLen : Nat}
    {outSCount : Int} {r : ResparseResult} (hq : Queue inS.blockSize inS.blocks)
    (hio : ∀ bb ∈ inS.blocks, Readable env bb)
    (h : sparseFileResparse env fuel inS maxLen outSCount = some (.ok r)) :
    r.outS.length = min r.count outSCount.toNat ∧
    (r.outS.flatMap blocks ++ r.inS.blocks).Pairwise (fun a b => ∀ p,
      ¬ ((regions env inS.blockSize).Covers a p ∧ (regions env inS.blockSize).Covers b p)) ∧
    (∀ s ∈ r.outS ++ [r.inS], s.SameShape inS ∧
      s.blocks.Pairwise fun a b => a.stop inS.blockSize ≤ b.block) ∧
    ∀ env' p v, inS.denote env' p = some v ↔
      ∃ s ∈ r.outS ++ [r.inS], s.denote env' p = some v := by
  have href := resparse_refines hq hio h
  have hsorted (env' : Env) := (href env').sorted (hq.sorted_regions env')
  obtain ⟨-, ps, rest, -, hcount, ⟨-, hinShape⟩, hout, houtShape⟩ := sparseFileResparse_inv h
  have hshape : ∀ s ∈ r.outS ++ [r.inS], s.SameShape inS := by
    simpa [or_imp, forall_and] using ⟨houtShape, hinShape⟩
  have hfiles : r.outS.flatMap blocks ++ r.inS.blocks =
      (r.outS ++ [r.inS]).flatMap blocks := by simp
  rw [hfiles] at href hsorted ⊢
  refine ⟨?_, (hsorted env).disjoint, fun s hs => ⟨hshape s hs, ?_⟩, fun env' p v => ?_⟩
  · have := congrArg length hout
    rw [length_map, length_take] at this
    omega
  · exact (hsorted env).sublist (sublist_flatten_of_mem (mem_map_of_mem hs))
  · have hdenote (s : SparseFile) (hs : s ∈ r.outS ++ [r.inS]) :
        s.denote env' p = (regions env' inS.blockSize).lookup s.blocks p := by
      rw [denote, (hshape s hs).1]
    rw [denote, ← (href env').lookup, (hsorted env').lookup_eq_some_iff]
    constructor
    · rintro ⟨a, ha, hcov, hval⟩
      obtain ⟨s, hs, has⟩ := mem_flatMap.1 ha
      refine ⟨s, hs, ?_⟩
      rw [hdenote s hs]
      have hsub := sublist_flatten_of_mem (mem_map_of_mem (f := blocks) hs)
      rw [Segments.lookup_of_mem ((hsorted env').sublist hsub) has hcov, hval]
    · rintro ⟨s, hs, hv⟩
      rw [hdenote s hs] at hv
      obtain ⟨a, ha, hcov, hval⟩ := Segments.mem_of_lookup hv
      exact ⟨a, mem_flatMap.2 ⟨s, hs, ha⟩, hcov, hval⟩

/-- A region that a limit of 84 cuts in three, and one after a gap. -/
def sampleFile : SparseFile := .ofBlocks 4 61 [⟨0, 34, .data 0⟩, ⟨10, 8, .fd 3 0⟩]

theorem sampleFile_queue : Queue sampleFile.blockSize sampleFile.blocks :=
  ⟨by decide, by decide, by decide, by decide⟩

theorem sampleFile_readable : ∀ bb ∈ sampleFile.blocks, Readable .zeros bb := fun bb hbb =>
  filesOk_zeros.readable ((by decide : ∀ bb ∈ sampleFile.blocks, bb.mapLen < 2 ^ 31) bb hbb)

/-- There is room for two of the pieces. -/
theorem resparse_partition_sample :
    ∃ r, sparseFileResparse .zeros 5 sampleFile 84 2 = some (.ok r) ∧
      r.outS.length = min r.count 2 := by
  obtain ⟨r, hr⟩ : ∃ r, sparseFileResparse .zeros 5 sampleFile 84 2 = some (.ok r) := ⟨_, rfl⟩
  exact ⟨r, hr, (resparse_partition sampleFile_queue sampleFile_readable hr).1⟩

/-! ## Progress -/

/-- The states of the input of `sparse_file_resparse` at the start of each iteration. -/
inductive Reached (env : Env) (maxLen : Nat) (inS : SparseFile) : SparseFile → Prop where
  | start : Reached env maxLen inS inS
  | move {s s' t : SparseFile} {bb : BackedBlock} :
      Reached env maxLen inS s →
      moveChunksUpToLen env s (sparseFileNew s.blockSize s.len) maxLen = .ok (some bb, s', t) →
      Reached env maxLen inS s'

/-- The first region that does not fit is split, with room for less than a block of it. -/
def EmptySplit (env : Env) (blockSize maxLen : Nat) (l : List BackedBlock) : Prop :=
  ¬ i32 blockSize < 0 ∧
  ∃ pre bb post, Overflow env blockSize (resparseLimit maxLen) l pre bb post ∧
    Splits blockSize (resparseLimit maxLen) pre ∧
    u32OfInt (roomAfter blockSize (resparseLimit maxLen) pre) < blockSize

/-- The data bytes of a list of regions. -/
def dataBytes (l : List BackedBlock) : Nat := (l.map BackedBlock.len).sum

@[simp] theorem dataBytes_cons (bb : BackedBlock) (l : List BackedBlock) :
    dataBytes (bb :: l) = bb.len + dataBytes l := by
  simp [dataBytes]

@[simp] theorem dataBytes_append (l m : List BackedBlock) :
    dataBytes (l ++ m) = dataBytes l + dataBytes m := by
  simp [dataBytes]

theorem dataBytes_pos (hne : l ≠ []) (hpos : ∀ bb ∈ l, 0 < bb.len) : 0 < dataBytes l := by
  cases l with
  | nil => exact absurd rfl hne
  | cons bb l =>
    have := hpos bb (by simp)
    rw [dataBytes_cons]
    omega

/-- A move without an empty split takes something and leaves no empty region. -/
theorem pack_progress (hbs : 0 < blockSize) (hpos : ∀ bb ∈ l, 0 < bb.len)
    (hsplit : ¬ EmptySplit env blockSize maxLen l) {p : Pack}
    (hp : pack env blockSize maxLen l = p) :
    (p.more → dataBytes p.rest < dataBytes l) ∧ ∀ x ∈ p.rest ++ p.piece, 0 < x.len := by
  rcases packed hp with ⟨hopen, hov, hp⟩ | - | -
  · simp only [hov.eq, forall_mem_append, forall_mem_cons] at hpos
    obtain ⟨hpre, hbb, hpost⟩ := hpos
    simp only [hov.eq, dataBytes_append, dataBytes_cons]
    rcases hp with hs | - | ⟨hs, hk, hlt⟩
    · -- The region stays: something stands before it.
      have := dataBytes_pos (fun hnil => hs (Or.inl hnil)) hpre
      refine ⟨fun _ => by simp only [dataBytes_cons]; omega, ?_⟩
      simpa [or_imp, forall_and] using ⟨hbb, hpost, hpre⟩
    · refine ⟨fun _ => by simp only; omega, ?_⟩
      simpa [or_imp, forall_and] using ⟨hpost, hpre, hbb⟩
    · -- The split takes at least one block.
      have hm := pos_of_ne_zero fun hzero => hsplit
        ⟨hopen, _, _, _, hov, hs, (alignDown_eq_zero_iff hbs _).1 (hk.symm.trans hzero)⟩
      refine ⟨fun _ => by simp only [dataBytes_cons, BackedBlock.dropBlocks]; omega, ?_⟩
      simpa [or_imp, forall_and] using ⟨Nat.sub_pos_of_lt hlt, hpost, hpre, hm⟩
  all_goals simpa using hpos

/-- An empty split puts an empty region into the piece. -/
theorem EmptySplit.mem_piece (h : EmptySplit env blockSize maxLen l) (hpos : ∀ bb ∈ l, 0 < bb.len) :
    ∃ x ∈ (pack env blockSize maxLen l).piece, x.len = 0 := by
  obtain ⟨hopen, pre, bb, post, hov, hs, hroom⟩ := h
  have hbb : 0 < bb.len := hpos bb (by simp [hov.eq])
  have hzero : cutLen blockSize (resparseLimit maxLen) pre = 0 :=
    (alignDown_eq_zero_iff (by omega) _).2 hroom
  generalize hp : pack env blockSize maxLen l = p
  rcases hov.packedAt ((if_neg hopen).symm.trans hp) with hns | ⟨-, hle⟩ | ⟨-, hk, -⟩
  · exact absurd hs hns
  · omega
  · exact ⟨_, mem_append_right _ mem_cons_self, hk.trans hzero⟩

section

variable {p : Pack} (hp : pack env s.blockSize maxLen s.blocks = p)
include hp

theorem move_eq (hbs : s.blockSize ≠ 0) :
    ∃ bb s' t, moveChunksUpToLen env s (sparseFileNew s.blockSize s.len) maxLen = .ok (bb, s', t) ∧
      bb.isSome = p.more ∧ (s'.blocks = p.rest ∧ s'.SameShape s) ∧ t.blocks = p.piece := by
  have hsize : (sparseFileNew s.blockSize s.len).blockSize = s.blockSize := rfl
  obtain ⟨bb, s', t, h, hmore, hrest, hpiece, -⟩ := moveChunksUpToLen_eq env hsize rfl hbs hp
  exact ⟨bb, s', t, h, hmore, hrest, hpiece⟩

theorem move_inv {s' t : SparseFile} {bb : Option BackedBlock}
    (hbs : s.blockSize ≠ 0)
    (h : moveChunksUpToLen env s (sparseFileNew s.blockSize s.len) maxLen = .ok (bb, s', t)) :
    bb.isSome = p.more ∧ (s'.blocks = p.rest ∧ s'.SameShape s) ∧ t.blocks = p.piece := by
  obtain ⟨bb', s'', t', h', hspec⟩ := move_eq hp hbs
  rw [h'] at h
  obtain ⟨rfl, rfl, rfl⟩ := h
  exact hspec

theorem Reached.next (h : Reached env maxLen inS s) (hbs : s.blockSize ≠ 0) (hmore : p.more = true) :
    ∃ s', Reached env maxLen inS s' ∧ s'.blocks = p.rest ∧ s'.SameShape s := by
  obtain ⟨bb, s', t, hmove, hbb, ⟨hrest, hsame⟩, -⟩ := move_eq hp hbs
  rw [hmore] at hbb
  obtain ⟨b, rfl⟩ := Option.isSome_iff_exists.1 hbb
  exact ⟨s', h.move hmove, hrest, hsame⟩

end

/-- A property of states that every iteration keeps holds of all states reached. -/
theorem Reached.induct {P : SparseFile → Prop} (hbs : inS.blockSize ≠ 0) (hstart : P inS)
    (hstep : ∀ s s' p, s.blockSize ≠ 0 → Reached env maxLen inS s → P s → s'.SameShape s →
      pack env s.blockSize maxLen s.blocks = p → p.more = true → s'.blocks = p.rest → P s')
    (h : Reached env maxLen inS s) : P s ∧ s.SameShape inS := by
  induction h with
  | start => exact ⟨hstart, rfl, rfl⟩
  | move hs hmove ih =>
    obtain ⟨hP, hshape⟩ := ih
    have hnz := hshape.1 ▸ hbs
    obtain ⟨hmore, ⟨hrest, hsame⟩, -⟩ := move_inv rfl hnz hmove
    exact ⟨hstep _ _ _ hnz hs hP hsame rfl hmore.symm hrest,
      hsame.1.trans hshape.1, hsame.2.trans hshape.2⟩

/-- If every iteration leaves less data, the loop ends. -/
theorem pieces_of_decreasing (env : Env) (maxLen : Nat) (hbs : inS.blockSize ≠ 0)
    (hdec : ∀ s p, Reached env maxLen inS s → pack env s.blockSize maxLen s.blocks = p →
      p.more = true → dataBytes p.rest < dataBytes s.blocks) :
    ∃ fuel p, pieces env inS.blockSize maxLen fuel inS.blocks = some p := by
  suffices h : ∀ n s, Reached env maxLen inS s → s.blockSize ≠ 0 →
      dataBytes s.blocks < n → ∃ p, pieces env s.blockSize maxLen n s.blocks = some p by
    exact ⟨_, h _ inS .start hbs (Nat.lt_succ_self _)⟩
  intro n
  induction n with
  | zero => intro s _ _ hn; omega
  | succ n ih =>
    intro s hs hbs hn
    rw [pieces]
    by_cases hmore : (pack env s.blockSize maxLen s.blocks).more
    · obtain ⟨s', hs', hrest, hsame⟩ := hs.next rfl hbs hmore
      have hlt := hdec s _ hs rfl hmore
      rw [← hrest] at hlt
      obtain ⟨p, hp⟩ := ih s' hs' (hsame.1 ▸ hbs) (by omega)
      rw [hsame.1, hrest] at hp
      exact ⟨_, by simp only [hmore, hp]; rfl⟩
    · exact ⟨_, by simp only [hmore]; rfl⟩

theorem mem_pieces_iff (hbs : 0 < inS.blockSize)
    (hp : pieces env inS.blockSize maxLen fuel inS.blocks = some (ps, rest))
    {p : List BackedBlock} :
    p ∈ ps ↔ ∃ s, Reached env maxLen inS s ∧
      p = (pack env s.blockSize maxLen s.blocks).piece := by
  constructor
  · suffices h : ∀ s, Reached env maxLen inS s → s.SameShape inS →
        pieces env inS.blockSize maxLen fuel s.blocks = some (ps, rest) → p ∈ ps →
          ∃ s, Reached env maxLen inS s ∧ p = (pack env s.blockSize maxLen s.blocks).piece from
      h inS .start ⟨rfl, rfl⟩ hp
    clear hp
    induction fuel generalizing ps with
    | zero => simp [pieces]
    | succ fuel ih =>
      intro s hs hshape hp hmem
      rw [← hshape.1] at hp
      obtain ⟨p, rfl, ⟨hmore, ps', rfl, hp'⟩ | ⟨-, rfl, -⟩⟩ := pieces_cons hp
      · rcases mem_cons.1 hmem with rfl | hmem
        · exact ⟨s, hs, rfl⟩
        · obtain ⟨s', hs', hrest, hsame⟩ := hs.next rfl (by rw [hshape.1]; omega) hmore
          exact ih s' hs' ⟨hsame.1.trans hshape.1, hsame.2.trans hshape.2⟩
            (by rw [hrest, ← hshape.1, hp']) hmem
      · exact ⟨s, hs, mem_singleton.1 hmem⟩
  · rintro ⟨s, hs, rfl⟩
    -- The pieces of a later state are among those of the first one.
    have hinv := hs.induct (P := fun s => ∃ fuel ps' rest', (∀ q ∈ ps', q ∈ ps) ∧
      pieces env s.blockSize maxLen fuel s.blocks = some (ps', rest')) hbs.ne'
      ⟨fuel, ps, rest, fun _ h => h, hp⟩ ?_
    · obtain ⟨⟨fuel', ps', rest', hsub, hp'⟩, -⟩ := hinv
      cases fuel' with
      | zero => simp [pieces] at hp'
      | succ fuel' =>
        apply hsub
        obtain ⟨p, rfl, ⟨-, qs, rfl, -⟩ | ⟨-, rfl, -⟩⟩ := pieces_cons hp'
        · exact mem_cons_self
        · exact mem_singleton_self _
    · rintro u u' p - - ⟨fuel', ps', rest', hsub, hp'⟩ hsame rfl hmore hrest
      cases fuel' with
      | zero => simp [pieces] at hp'
      | succ fuel' =>
        obtain ⟨p, rfl, ⟨-, qs, rfl, hq⟩ | ⟨hno, -⟩⟩ := pieces_cons hp'
        · exact ⟨fuel', qs, rest', fun x hx => hsub x (mem_cons_of_mem _ hx),
            by rw [hsame.1, hrest, hq]⟩
        · exact absurd (hno.symm.trans hmore) Bool.false_ne_true

/-- `sparse_file_resparse` ends with every move making progress and no empty region made, exactly
when the block size is not zero and no state it reaches has an empty split. -/
theorem resparse_terminates_iff {env : Env} {maxLen : Nat} {inS : SparseFile}
    (hpos : ∀ bb ∈ inS.blocks, 0 < bb.len) :
    ((∀ outSCount, ∃ fuel r, sparseFileResparse env fuel inS maxLen outSCount = some (.ok r)) ∧
      ∀ s bb s' t, Reached env maxLen inS s →
        moveChunksUpToLen env s (sparseFileNew s.blockSize s.len) maxLen = .ok (bb, s', t) →
        (bb.isSome → dataBytes s'.blocks < dataBytes s.blocks) ∧
          ∀ x ∈ s'.blocks ++ t.blocks, 0 < x.len) ↔
    inS.blockSize ≠ 0 ∧
      ∀ s, Reached env maxLen inS s → ¬ EmptySplit env s.blockSize maxLen s.blocks := by
  constructor
  · rintro ⟨hret, hstep⟩
    obtain ⟨fuel, r, hr⟩ := hret 0
    obtain ⟨hbs, -⟩ := sparseFileResparse_inv hr
    refine ⟨hbs, fun s hs hsplit => ?_⟩
    have hinv : (∀ bb ∈ s.blocks, 0 < bb.len) ∧ s.SameShape inS := by
      refine hs.induct (P := fun s => ∀ bb ∈ s.blocks, 0 < bb.len) hbs hpos
        fun u u' p hnz hu _ _ hp _ hrest x hx => ?_
      obtain ⟨bb, v, t, hmove, -, ⟨hv, -⟩, -⟩ := move_eq hp hnz
      exact (hstep u bb v t hu hmove).2 x (by simp [hv, ← hrest, hx])
    obtain ⟨bb, s', t, hmove, -, -, hpiece⟩ := move_eq rfl (hinv.2.1 ▸ hbs)
    obtain ⟨x, hx, hzero⟩ := hsplit.mem_piece hinv.1
    have := (hstep s bb s' t hs hmove).2 x (by simp [hpiece, hx])
    omega
  · rintro ⟨hbs, hsplit⟩
    have hinv (s : SparseFile) (hs : Reached env maxLen inS s) :
        (∀ bb ∈ s.blocks, 0 < bb.len) ∧ s.SameShape inS := by
      refine hs.induct (P := fun s => ∀ bb ∈ s.blocks, 0 < bb.len) hbs hpos
        fun u u' p hnz hu hpos _ hp _ hrest x hx => ?_
      exact (pack_progress (pos_of_ne_zero hnz) hpos (hsplit u hu) hp).2 x (by simp [← hrest, hx])
    have hnz (s : SparseFile) (hs : Reached env maxLen inS s) : s.blockSize ≠ 0 :=
      (hinv s hs).2.1 ▸ hbs
    have hprog (s : SparseFile) (hs : Reached env maxLen inS s) {p : Pack} :=
      @pack_progress _ _ _ _ (pos_of_ne_zero (hnz s hs)) (hinv s hs).1 (hsplit s hs) p
    constructor
    · intro outSCount
      obtain ⟨fuel, p, hp⟩ := pieces_of_decreasing env maxLen hbs fun s p hs hp hmore =>
        (hprog s hs hp).1 hmore
      obtain ⟨r, hr, -⟩ := sparseFileResparse_some env fuel maxLen outSCount hbs hp
      exact ⟨fuel, r, hr⟩
    · intro s bb s' t hs hmove
      obtain ⟨hmore, ⟨hrest, -⟩, hpiece⟩ := move_inv rfl (hnz s hs) hmove
      rw [hmore, hrest, hpiece]
      exact hprog s hs rfl

/-- The queue of the sample in turn. -/
def sampleStates : List (List BackedBlock) :=
  [sampleFile.blocks, [⟨4, 18, .data 16⟩, ⟨10, 8, .fd 3 0⟩],
    [⟨8, 2, .data 32⟩, ⟨10, 8, .fd 3 0⟩], [⟨10, 8, .fd 3 0⟩], []]

theorem reached_sampleFile (h : Reached .zeros 84 sampleFile s) :
    s.blocks ∈ sampleStates ∧ s.SameShape sampleFile := by
  suffices hP : s.blocks ∈ sampleStates ∧ s.blockSize = 4 from
    ⟨hP.1, (h.induct (P := fun _ => True) (by decide) trivial fun _ _ _ _ _ _ _ _ _ _ => trivial).2⟩
  refine (h.induct (P := fun s => s.blocks ∈ sampleStates ∧ s.blockSize = 4) (by decide)
    (by decide) ?_).1
  rintro u u' p - - ⟨hmem, hsize⟩ hsame hp hmore hrest
  rw [hsize] at hp
  rw [hrest, hsame.1, ← hp]
  rw [← hp] at hmore
  exact ⟨(by decide : ∀ l ∈ sampleStates, (pack .zeros 4 84 l).more = true →
    (pack .zeros 4 84 l).rest ∈ sampleStates) _ hmem hmore, hsize⟩

theorem resparse_terminates_sample : (∀ bb ∈ sampleFile.blocks, 0 < bb.len) ∧
    ∀ outSCount, ∃ fuel r, sparseFileResparse .zeros fuel sampleFile 84 outSCount = some (.ok r) := by
  refine ⟨by decide, ?_⟩
  refine ((resparse_terminates_iff (by decide)).2 ⟨by decide, fun s hs hsplit => ?_⟩).1
  obtain ⟨hmem, hshape⟩ := reached_sampleFile hs
  rw [hshape.1] at hsplit
  generalize s.blocks = l at hmem hsplit
  have hpos : ∀ l ∈ sampleStates, ∀ bb ∈ l, 0 < bb.len := by decide
  obtain ⟨x, hx, hzero⟩ := hsplit.mem_piece (hpos l hmem)
  exact (by decide : ∀ l ∈ sampleStates, ∀ x ∈ (pack .zeros 4 84 l).piece, x.len ≠ 0) l hmem x hx hzero

/-- A region of one block, and a limit that leaves room for a chunk header but not for a block:
every move splits off an empty region and leaves the same list. -/
theorem resparse_never_returns :
    (∀ bb ∈ (ofBlocks 4096 4096 [⟨0, 4096, .data 0⟩]).blocks, 0 < bb.len) ∧
    ∀ fuel outSCount, sparseFileResparse .zeros fuel (.ofBlocks 4096 4096 [⟨0, 4096, .data 0⟩])
      100 outSCount = none := by
  refine ⟨by decide, ?_⟩
  have hpack : pack .zeros 4096 100 [⟨0, 4096, .data 0⟩] =
    ⟨[⟨0, 0, .data 0⟩], [⟨0, 4096, .data 0⟩], true⟩ := rfl
  have hpieces : ∀ fuel, pieces .zeros 4096 100 fuel [⟨0, 4096, .data 0⟩] = none := by
    intro fuel
    induction fuel with
    | zero => rfl
    | succ fuel ih => simp only [pieces, hpack, if_true, ih, Option.map_none]
  exact fun fuel outSCount =>
    sparseFileResparse_none .zeros fuel 100 outSCount (by decide) (hpieces fuel)

end AndroidSystem.Sparse
