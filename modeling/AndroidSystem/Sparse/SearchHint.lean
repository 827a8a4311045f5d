import AndroidSystem.Sparse.Queueing

/-!
# The node to search from

`queue_bb` saves a pointer to the node it links, to start the next search there. If the node before
it takes the new one up, the new one is freed, and the pointer dangles. As long as no region that is
added goes on where a queued one ends, the pointer is `NULL` or leads to a node of its list, in every
state that adding, splitting and moving lead to (`lastUsed_linked`).
-/

namespace AndroidSystem.Sparse

open List

/-- The saved pointer is `NULL` or leads to a node of the list. -/
structure BackedBlockList.HintOk (bbl : BackedBlockList) : Prop where
  live : bbl.lastUsed ≠ .freed
  linked : ∀ b, bbl.lastUsed = .node b → ∃ x ∈ bbl.dataBlocks, x.block = b

/-- A region that is added goes on where no queued one ends. -/
def Apart (bbl : BackedBlockList) (newBb : BackedBlock) : Prop :=
  ∀ x ∈ bbl.dataBlocks, ¬Joins bbl.blockSize x newBb

/-- What calls make of new lists, if what is added meets a condition. All of `backed_block_add_*` make
a node and queue it. A list that is moved to itself is the source first, and then the destination. -/
inductive Made (env : Env) (ok : BackedBlockList → BackedBlock → Prop) : BackedBlockList → Prop
  | new (blockSize : Nat) : Made env ok (backedBlockListNew blockSize)
  | add {bbl bbl' : BackedBlockList} {b : BackedBlock} : Made env ok bbl → ok bbl b →
    queueBb env bbl b = .ok bbl' → Made env ok bbl'
  | split {bbl : BackedBlockList} {l l' : List BackedBlock} {b : BackedBlock} (maxLen : Nat) :
    Made env ok bbl → bbl.dataBlocks = l ++ b :: l' →
    Made env ok { bbl with
      dataBlocks := l ++ (backedBlockSplit bbl.blockSize b maxLen).1 ::
        ((backedBlockSplit bbl.blockSize b maxLen).2.toList ++ l') }
  | moveFrom {src dst : BackedBlockList} (start last : Option Nat) :
    Made env ok src → Made env ok dst →
    Made env ok (backedBlockListMove src dst start last).1
  | moveTo {src dst : BackedBlockList} (start last : Option Nat) :
    Made env ok src → Made env ok dst →
    Made env ok (backedBlockListMove src dst start last).2

variable {env : Env} {blockSize : Nat} {bb newBb : BackedBlock} {rest l : List BackedBlock}
  {r : List BackedBlock × Bool} {bbl bbl' src dst : BackedBlockList}

/-! ## The new node -/

/-- The new node is linked, and not freed. -/
def Kept (newBb : BackedBlock) (r : List BackedBlock × Bool) : Prop :=
  r.2 = false ∧ ∃ x ∈ r.1, x.block = newBb.block

theorem Kept.cons (h : Kept newBb r) (bb : BackedBlock) : Kept newBb (bb :: r.1, r.2) :=
  ⟨h.1, h.2.imp fun _ hx => ⟨mem_cons_of_mem bb hx.1, hx.2⟩⟩

theorem linkBb_kept (hj : ¬Joins blockSize bb newBb)
    (h : linkBb blockSize bb newBb rest = .ok r) : Kept newBb r := by
  unfold linkBb at h
  split at h
  · cases h
  · next m rest hm =>
    obtain ⟨hblock, hbacking⟩ := mergeNext_same hm
    split at h
    · cases h
    · next hmerge =>
      have hjoins := (joins_of_mergeBb hmerge).1
      unfold Joins continues at hj hjoins
      rw [hblock, hbacking] at hjoins
      exact absurd hjoins hj
    · cases h
      exact ⟨rfl, m, by simp, hblock⟩

theorem searchBb_kept (hj : ∀ x ∈ bb :: rest, ¬Joins blockSize x newBb)
    (h : searchBb blockSize newBb bb rest = .ok r) : Kept newBb r := by
  induction rest generalizing bb r with
  | nil => exact linkBb_kept (hj bb mem_cons_self) h
  | cons next rest ih =>
    rw [searchBb] at h
    split_ifs at h
    · split at h
      · cases h
      · next hs =>
        cases h
        exact (ih (fun x hx => hj x (mem_cons_of_mem _ hx)) hs).cons bb
    · exact linkBb_kept (hj bb mem_cons_self) h

theorem searchFrom_kept {b : Nat} (hj : ∀ x ∈ l, ¬Joins blockSize x newBb)
    (h : searchFrom blockSize newBb b l = .ok r) : Kept newBb r := by
  induction l generalizing r with
  | nil => cases h
  | cons bb rest ih =>
    rw [searchFrom] at h
    split_ifs at h
    · exact searchBb_kept hj h
    · split at h
      · cases h
      · next hs =>
        cases h
        exact (ih (fun x hx => hj x (mem_cons_of_mem _ hx)) hs).cons bb

/-! ## The saved pointer -/

theorem BackedBlockList.HintOk.keep (h : bbl.HintOk)
    (hl : ∀ x ∈ bbl.dataBlocks, ∃ y ∈ l, y.block = x.block) :
    HintOk { bbl with dataBlocks := l } where
  live := h.live
  linked b hb := by
    obtain ⟨x, hx, rfl⟩ := h.linked b hb
    exact hl x hx

theorem queueBb_hintOk (h : bbl.HintOk) (hj : Apart bbl newBb)
    (hq : queueBb env bbl newBb = .ok bbl') : bbl'.HintOk := by
  unfold queueBb at hq
  split at hq
  · next hnil =>
    cases hq
    exact h.keep (by simp [hnil])
  · next head rest hl =>
    rw [Apart, hl] at hj
    split at hq
    · cases hq
      exact h.keep fun x hx => ⟨x, mem_cons_of_mem _ (hl ▸ hx), rfl⟩
    · dsimp only at hq
      split at hq
      · cases hq
      · next l freed hfound =>
        obtain ⟨hfreed, hlinked⟩ : Kept newBb (l, freed) := by
          split at hfound
          · exact searchBb_kept hj hfound
          · split_ifs at hfound
            · exact searchFrom_kept hj hfound
            · exact searchBb_kept hj hfound
          · next hfreed => exact absurd hfreed h.live
        obtain rfl : freed = false := hfreed
        cases hq
        exact ⟨by simp, fun b hb => by cases hb; exact hlinked⟩

theorem block_split (blockSize : Nat) (bb : BackedBlock) (maxLen : Nat) :
    (backedBlockSplit blockSize bb maxLen).1.block = bb.block := by
  rw [backedBlockSplit]
  split_ifs <;> rfl

theorem move_hintOk (hsrc : src.HintOk) (hdst : dst.HintOk) (start last : Option Nat) :
    (backedBlockListMove src dst start last).1.HintOk ∧
      (backedBlockListMove src dst start last).2.HintOk := by
  unfold backedBlockListMove
  dsimp only
  split
  · exact ⟨hsrc, hdst⟩
  · exact ⟨⟨by simp, by simp⟩, by simp, by simp⟩

theorem lastUsed_linked (h : Made env Apart bbl) : bbl.HintOk := by
  induction h with
  | new blockSize => exact ⟨by simp [backedBlockListNew], by simp [backedBlockListNew]⟩
  | add _ hj hq ih => exact queueBb_hintOk ih hj hq
  | split maxLen _ hl ih =>
    refine ih.keep fun x hx => ?_
    rw [hl, mem_append, mem_cons] at hx
    obtain hx | rfl | hx := hx
    · exact ⟨x, by simp [hx], rfl⟩
    · exact ⟨_, mem_append_right _ mem_cons_self, block_split ..⟩
    · exact ⟨x, by simp [hx], rfl⟩
  | moveFrom start last _ _ hsrc hdst => exact (move_hintOk hsrc hdst start last).1
  | moveTo start last _ _ hsrc hdst => exact (move_hintOk hsrc hdst start last).2

theorem lastUsed_linked_two : ∃ bbl : BackedBlockList, bbl.lastUsed = .node 1 ∧ bbl.HintOk := by
  have h1 : Made Env.zeros Apart _ :=
    .add (b := ⟨0, 4096, .fill 0⟩) (.new 4096) (by simp [Apart, backedBlockListNew]) rfl
  have h2 := Made.add (b := ⟨1, 4096, .fill 1⟩) h1
    (show ∀ x ∈ [(⟨0, 4096, .fill 0⟩ : BackedBlock)], ¬Joins 4096 x _ by decide) rfl
  exact ⟨_, rfl, lastUsed_linked h2⟩

/-- Two blocks of zeros after each other: the next search reads the second one, which is gone. -/
theorem lastUsed_dangles :
    ∃ bbl, Made { Env.zeros with reuse := false } (fun _ _ => True) bbl ∧ bbl.lastUsed = .freed ∧
      queueBb { Env.zeros with reuse := false } bbl ⟨2, 4096, .fill 1⟩ = .error .useAfterFree := by
  have h1 : Made { Env.zeros with reuse := false } (fun _ _ => True) _ :=
    .add (b := ⟨0, 4096, .fill 0⟩) (.new 4096) trivial rfl
  exact ⟨_, .add (b := ⟨1, 4096, .fill 0⟩) h1 trivial rfl, rfl, rfl⟩

end AndroidSystem.Sparse
