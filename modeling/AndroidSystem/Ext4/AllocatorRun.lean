import AndroidSystem.Ext4.BestFit

/-!
# Runs of the block allocator

Any sequence of `allocate_blocks`, `allocate_block`, `append_oob_allocation` of one block and
`reduce_allocation` by one block right after an allocation. A history keeps the blocks that were
handed out and not given back. The bitmaps, the counters and the history agree in every state of
such a run (`Consistent`), and `reserve_blocks` never finds a block reserved already.

One case is excluded: with `force`, a request for more blocks than are free in all groups together.
`ext4_allocate_best_fit` then returns nothing, but the regions it had made stay reserved, so the
blocks are neither free nor handed out (`short_allocation_lost`). Without `force` the tool ends
there.

* `Inv` : the invariant, in terms of the free counters alone.
* `act_inv`, `perform_inv` : it is kept by one operation and by a run.
* `allocator_consistent` : the result.
-/

namespace AndroidSystem.Ext4

open BestFit List

variable {free : Nat → Nat} {E : Allocator → Prop}

/-! ## Pre- and postconditions -/

/-- The code ends with `Q`, or stops in a state with `E`. -/
structure Yields {α : Type} (x : AllocM α) (s : Allocator) (Q : α → Allocator → Prop)
    (E : Allocator → Prop) : Prop where
  ok : ∀ a s', x s = .ok a s' → Q a s'
  error : ∀ e s', x s = .error e s' → E s'

namespace Yields

variable {α β : Type} {x y : AllocM α} {f : α → AllocM β} {s s' : Allocator} {a : α} {e : Stop}
  {R : α → Allocator → Prop} {Q : β → Allocator → Prop} {E : Allocator → Prop}

theorem of_ok (h : x s = .ok a s') (hR : R a s') : Yields x s R E := by
  refine ⟨fun a1 s1 h1 => ?_, fun e1 s1 h1 => ?_⟩
  · cases h.symm.trans h1
    exact hR
  · cases h.symm.trans h1

theorem of_error (h : x s = .error e s') (hE : E s') : Yields x s R E := by
  refine ⟨fun a1 s1 h1 => ?_, fun e1 s1 h1 => ?_⟩
  · cases h.symm.trans h1
  · cases h.symm.trans h1
    exact hE

theorem of_eq (h : x s = y s') (hy : Yields y s' R E) : Yields x s R E :=
  ⟨fun a1 s1 h1 => hy.ok a1 s1 (h.symm.trans h1), fun e1 s1 h1 => hy.error e1 s1 (h.symm.trans h1)⟩

theorem mono (hx : Yields x s R E) {R' : α → Allocator → Prop}
    (hR : ∀ a s', R a s' → R' a s') : Yields x s R' E :=
  ⟨fun a1 s1 h1 => hR a1 s1 (hx.ok a1 s1 h1), hx.error⟩

/-- The rule for two pieces of code in a row; the second may use that the first ended there. -/
theorem bind' (hx : Yields x s R E)
    (hf : ∀ a s', x s = .ok a s' → R a s' → Yields (f a) s' Q E) :
    Yields (x >>= f) s Q E := by
  cases h : x s with
  | ok a s' => exact of_eq (bind_ok h) (hf a s' h (hx.ok a s' h))
  | error e s' => exact of_error (bind_error h) (hx.error e s' h)

theorem bind (hx : Yields x s R E) (hf : ∀ a s', R a s' → Yields (f a) s' Q E) :
    Yields (x >>= f) s Q E :=
  hx.bind' fun a s' _ hR => hf a s' hR

end Yields

/-! ## Histories -/

/-- The blocks of a region. -/
def Region.blocks (r : Region) : List Nat := range' r.block r.len

/-- The regions a pointer leads to. -/
def walk (regions : Nat → Option Region) : Nat → Option Nat → List Region
  | fuel + 1, some i =>
    match regions i with
    | some r => r :: walk regions fuel r.next
    | none => []
  | _, _ => []

/-- What the callers of the allocator got from it: the allocations, the blocks handed out and not
given back, and whether the last allocation was made just now. -/
structure History where
  allocs : List BlockAllocation := []
  held : List Nat := []
  just : Bool := false

/-- The operations; `appendOobAllocation` names an allocation. -/
inductive Op where
  | allocateBlocks (len : Nat)
  | allocateBlock
  | appendOobAllocation (alloc : Nat)
  | reduceAllocation
  deriving Repr, DecidableEq

section

variable (G : Globals)

/-- `append_oob_allocation` of one block to allocation `i`: the block is that of the last region of
the list. -/
def appendOne (h : History) (i : Nat) (a : BlockAllocation) : AllocM History := do
  let r ← appendOobAllocation G a 1
  let s ← get
  return {
    allocs := h.allocs.set i r.2
    held := if r.1 then h.held ++ (walk s.regions 1 r.2.oobList.last).flatMap Region.blocks
      else h.held
    just := false }

/-- `reduce_allocation` by one block: it gives back the last block of the region that `list.last`
points to. -/
def reduceOne (h : History) (a : BlockAllocation) : AllocM History := do
  let r ← deref a.list.last
  let a ← reduceAllocation a 1
  return {
    allocs := h.allocs.dropLast ++ [a]
    held := h.held.erase (r.block + r.len - 1)
    just := false }

/-- An operation, with what it hands out or is given back. An allocation can be reduced right after
it was made. An operation without its allocation is not done. -/
def act (h : History) : Op → AllocM History
  | .allocateBlocks len => do
    let alloc ← allocateBlocks G len
    let s ← get
    match alloc with
    | none => return { h with just := false }
    | some a => return {
        allocs := h.allocs ++ [a]
        held := h.held ++ (walk s.regions s.fresh a.list.first).flatMap Region.blocks
        just := true }
  | .allocateBlock => do
    let block ← allocateBlock G
    return { h with
      held := if block = ext4AllocateFailed then h.held else h.held ++ [block]
      just := false }
  | .appendOobAllocation i =>
    match h.allocs[i]? with
    | none => return h
    | some a => appendOne G h i a
  | .reduceAllocation =>
    match h.just, h.allocs.getLast? with
    | true, some a => reduceOne h a
    | _, _ => return h

/-- A sequence of operations. -/
def perform : List Op → History → AllocM History
  | [], h => return h
  | op :: ops, h => do
    let h ← act G h op
    perform ops h

/-- The free blocks of all groups. -/
def totalFree (s : Allocator) : Nat := ∑ g ∈ Finset.range G.aux.groups, s.free g

/-- With `force`, blocks are asked for only if there are enough, or none at all. -/
def Op.Careful (s : Allocator) : Op → Prop
  | .allocateBlocks len => G.force = true → totalFree G s = 0 ∨ len ≤ totalFree G s
  | _ => True

/-- Every operation of a sequence is careful in the state it is done in. -/
def CarefulOps : List Op → History → Allocator → Prop
  | [], _, _ => True
  | op :: ops, h, s => op.Careful G s ∧
    ∀ h' s', act G h op s = .ok h' s' → CarefulOps ops h' s'

end

/-- The bitmaps, the counters and the history agree. -/
structure Consistent (G : Globals) (h : History) (s : Allocator) : Prop where
  /-- The set bits are the header, the blocks behind the end and the blocks handed out. -/
  bits : ∀ g < G.aux.groups, ∀ b < G.info.blocksPerGroup,
    (s.bgs g).blockBitmap.bit b = true ↔
      b < headerBlocks G.info G.aux g ∨ G.aux.lenBlocks ≤ groupStart G.info G.aux g + b ∨
        groupStart G.info G.aux g + b ∈ h.held
  /-- The clear bits are one run from `first_free_block` on. -/
  run : ∀ g < G.aux.groups, (s.bgs g).blockBitmap.ClearRun G.info.blocksPerGroup
    (s.bgs g).firstFreeBlock (s.bgs g).freeBlocks
  /-- `free_blocks` is the number of the clear bits. -/
  count : ∀ g < G.aux.groups,
    (s.bgs g).freeBlocks = (s.bgs g).blockBitmap.clearCount G.info.blocksPerGroup
  distinct : h.held.Nodup
  inside : ∀ b ∈ h.held, b < G.aux.lenBlocks
  behindHeader : ∀ b ∈ h.held, ∀ g < G.aux.groups, ¬(groupStart G.info G.aux g ≤ b ∧
    b < groupStart G.info G.aux g + headerBlocks G.info G.aux g)
  notReported : Message.alreadyReserved ∉ s.errors

/-! ## The invariant -/

/-- The blocks handed out are those between the header and the free blocks of a group. -/
structure HeldIs (G : Globals) (free : Nat → Nat) (held : List Nat) : Prop where
  room : ∀ g < G.aux.groups, headerBlocks G.info G.aux g + free g ≤ groupSize G g
  nodup : held.Nodup
  mem : ∀ b, b ∈ held ↔ ∃ g < G.aux.groups,
    groupStart G.info G.aux g + headerBlocks G.info G.aux g ≤ b ∧
      b < groupStop G.info G.aux g - free g

/-- The allocation made just now: `list.last` is a region that ends where the free blocks of its
group start. -/
def LastOk (G : Globals) (a : BlockAllocation) (s : Allocator) : Prop :=
  ∃ i r, a.list.last = some i ∧ s.regions i = some r ∧ r.prev = none ∧ r.bg < G.aux.groups ∧
    0 < r.len ∧ r.block + r.len = groupStop G.info G.aux r.bg - s.free r.bg ∧
    groupStart G.info G.aux r.bg + headerBlocks G.info G.aux r.bg ≤ r.block

/-- What every operation keeps. -/
structure Inv (G : Globals) (h : History) (s : Allocator) : Prop where
  groups : GroupsOk G s
  notReported : Message.alreadyReserved ∉ s.errors
  held : HeldIs G s.free h.held
  last : h.just = true → ∀ a, h.allocs.getLast? = some a → LastOk G a s

/-- No block was found reserved already. -/
abbrev Quiet (s : Allocator) : Prop := Message.alreadyReserved ∉ s.errors

/-- The code keeps the invariant of a history, or stops. -/
abbrev Keeps (G : Globals) (x : AllocM History) (s : Allocator) : Prop := Yields x s (Inv G) Quiet

section Held

variable {G : Globals} {free : Nat → Nat} {held : List Nat} {g g' b k : Nat}

theorem group_unique (h1 : groupStart G.info G.aux g ≤ b) (h2 : b < groupStop G.info G.aux g)
    (h1' : groupStart G.info G.aux g' ≤ b) (h2' : b < groupStop G.info G.aux g') : g = g' := by
  unfold groupStop at h2 h2'
  unfold groupStart at *
  have hlt {i j : Nat} (hi : G.aux.firstDataBlock + i * G.info.blocksPerGroup ≤ b)
      (hj : b < G.aux.firstDataBlock + j * G.info.blocksPerGroup + G.info.blocksPerGroup) :
      i ≤ j := by
    by_contra hji
    have hmul : (j + 1) * G.info.blocksPerGroup ≤ i * G.info.blocksPerGroup :=
      Nat.mul_le_mul_right _ (by omega)
    rw [Nat.succ_mul] at hmul
    omega
  exact le_antisymm (hlt h1 (by omega)) (hlt h1' (by omega))

theorem HeldIs.mem_group (h : HeldIs G free held) (hg : g < G.aux.groups)
    (h1 : groupStart G.info G.aux g ≤ b) (h2 : b < groupStop G.info G.aux g) :
    b ∈ held ↔ groupStart G.info G.aux g + headerBlocks G.info G.aux g ≤ b ∧
      b < groupStop G.info G.aux g - free g := by
  rw [h.mem]
  constructor
  · rintro ⟨g', hg', hl, hr⟩
    obtain rfl : g = g' := group_unique h1 h2 (by omega) (by omega)
    exact ⟨hl, hr⟩
  · exact fun hb => ⟨g, hg, hb⟩

theorem HeldIs.take (h : HeldIs G free held) (hG : Layout G) (hg : g < G.aux.groups)
    (hk : k ≤ free g) :
    HeldIs G (Function.update free g (free g - k))
      (held ++ range' (groupStop G.info G.aux g - free g) k) := by
  have hroom := h.room g hg
  have hsum := hG.start_add_size hg
  refine ⟨fun i hi => ?_, ?_, fun b => ?_⟩
  · rw [Function.update_apply]
    split_ifs with hig
    · subst hig
      omega
    · exact h.room i hi
  · refine List.Nodup.append h.nodup nodup_range' fun b hb hb' => ?_
    rw [mem_range'_1] at hb'
    have := (h.mem_group hg (by omega) (by omega)).1 hb
    omega
  · rw [mem_append, mem_range'_1]
    constructor
    · rintro (hb | hb)
      · obtain ⟨i, hi, hl, hr⟩ := (h.mem b).1 hb
        refine ⟨i, hi, hl, ?_⟩
        rw [Function.update_apply]
        split_ifs with hig
        · subst hig
          omega
        · exact hr
      · refine ⟨g, hg, by omega, ?_⟩
        rw [Function.update_self]
        omega
    · rintro ⟨i, hi, hl, hr⟩
      rw [Function.update_apply] at hr
      split_ifs at hr with hig
      · subst hig
        by_cases hb : b < groupStop G.info G.aux i - free i
        · exact .inl ((h.mem b).2 ⟨i, hi, hl, hb⟩)
        · exact .inr (by omega)
      · exact .inl ((h.mem b).2 ⟨i, hi, hl, hr⟩)

theorem HeldIs.takeAll (hG : Layout G) {len left : Nat} {taken : List (Nat × Nat)}
    (hgreedy : Greedy G.aux.groups free len taken left) (h : HeldIs G free held) :
    HeldIs G (remaining free taken)
      (held ++ (regionsOf G free taken).flatMap Region.blocks) := by
  induction hgreedy generalizing held with
  | done => simpa [regionsOf, remaining] using h
  | empty => simpa [regionsOf, remaining] using h
  | fits hlen hg hfits hbest =>
    simpa [regionsOf, remaining, Region.blocks] using h.take hG hg hfits
  | @takes free len left g taken hg hpos hless hbest hrest ih =>
    have hnext := h.take hG hg (le_refl (free g))
    rw [Nat.sub_self] at hnext
    have := ih hnext
    simpa [regionsOf, remaining, Region.blocks] using this

theorem HeldIs.give (h : HeldIs G free held) (hG : Layout G) (hg : g < G.aux.groups)
    (hroom : headerBlocks G.info G.aux g + free g + 1 ≤ groupSize G g) :
    HeldIs G (Function.update free g (free g + 1))
      (held.erase (groupStop G.info G.aux g - free g - 1)) := by
  have hsum := hG.start_add_size hg
  refine ⟨fun i hi => ?_, h.nodup.erase _, fun b => ?_⟩
  · rw [Function.update_apply]
    split_ifs with hig
    · subst hig
      omega
    · exact h.room i hi
  · rw [h.nodup.mem_erase_iff]
    constructor
    · rintro ⟨hne, hb⟩
      obtain ⟨i, hi, hl, hr⟩ := (h.mem b).1 hb
      refine ⟨i, hi, hl, ?_⟩
      rw [Function.update_apply]
      split_ifs with hig
      · subst hig
        omega
      · exact hr
    · rintro ⟨i, hi, hl, hr⟩
      rw [Function.update_apply] at hr
      split_ifs at hr with hig
      · subst hig
        exact ⟨by omega, (h.mem b).2 ⟨i, hi, hl, by omega⟩⟩
      · refine ⟨fun hb => hig ?_, (h.mem b).2 ⟨i, hi, hl, hr⟩⟩
        exact group_unique (G := G) (b := b) (by omega) (by omega) (by omega) (by omega)

end Held

/-! ## Allocations -/

section Allocate

variable {G : Globals} {s s' : Allocator} {h : History} {taken : List (Nat × Nat)} {len left : Nat}

theorem remaining_of_not_mem {g : Nat} (hg : g ∉ taken.map Prod.fst) :
    remaining free taken g = free g := by
  induction taken generalizing free with
  | nil => rfl
  | cons r taken ih =>
    rw [map_cons, mem_cons, not_or] at hg
    rw [remaining, ih hg.2, Function.update_of_ne hg.1]

theorem remaining_eq_zero {n : Nat} (hgreedy : Greedy n free len taken left) (hleft : left ≠ 0)
    (i : Nat) (hi : i < n) : remaining free taken i = 0 := by
  induction hgreedy with
  | done => exact absurd rfl hleft
  | empty hlen hzero => exact hzero i hi
  | fits => exact absurd rfl hleft
  | @takes free len left g taken hg hpos hless hbest hrest ih =>
    rw [remaining, Nat.sub_self]
    exact ih hleft

theorem walk_chain {regions : Nat → Option Region} {rs : List Region} {prev : Option Nat}
    {i : Nat} (fuel : Nat) (hchain : Chain regions prev i rs) (hfuel : rs.length ≤ fuel) :
    (walk regions fuel (if rs = [] then none else some i)).flatMap Region.blocks
      = rs.flatMap Region.blocks := by
  induction rs generalizing prev i fuel with
  | nil => cases fuel <;> rfl
  | cons r rs ih =>
    obtain ⟨hat, hrest⟩ := hchain
    cases fuel with
    | zero => simp at hfuel
    | succ fuel =>
      rw [if_neg (cons_ne_nil _ _), walk, hat]
      rw [flatMap_cons, ih _ hrest (by simpa using hfuel)]
      rfl

section First

variable {g k : Nat} {rest : List (Nat × Nat)}
  (hgreedy : Greedy G.aux.groups s.free len ((g, k) :: rest) left)
include hgreedy

theorem head_spec : g < G.aux.groups ∧ 0 < k ∧ k ≤ s.free g :=
  hgreedy.mem_spec (g, k) (mem_cons_self ..)

theorem free_first (hbuilt : Built G s none ((g, k) :: rest) s') : s'.free g = s.free g - k := by
  have hnodup := hgreedy.nodup
  rw [map_cons, nodup_cons] at hnodup
  rw [hbuilt.free, remaining, remaining_of_not_mem hnodup.1, Function.update_self]

end First

/-- The first region of an allocation ends where the free blocks of its group start. -/
theorem lastOk_of_built (hG : Layout G) (hs : GroupsOk G s)
    (hgreedy : Greedy G.aux.groups s.free len taken left) (hbuilt : Built G s none taken s')
    (htaken : taken ≠ []) (a : BlockAllocation) (ha : a.list.last = some s.fresh) :
    LastOk G a s' := by
  obtain ⟨⟨g, k⟩, rest, rfl⟩ := exists_cons_of_ne_nil htaken
  obtain ⟨hg, hk, hle⟩ := head_spec hgreedy
  have hfree := free_first hgreedy hbuilt
  have hroom : headerBlocks G.info G.aux g + s.free g ≤ groupSize G g := (hs g hg).room
  have hsum := hG.start_add_size hg
  refine ⟨s.fresh, _, ha, hbuilt.chain.1, rfl, hg, hk, ?_, ?_⟩
  · show groupStop G.info G.aux g - s.free g + k = groupStop G.info G.aux g - s'.free g
    omega
  · show groupStart G.info G.aux g + headerBlocks G.info G.aux g
      ≤ groupStop G.info G.aux g - s.free g
    omega

/-- The errors that are not about reserved blocks. -/
theorem outcome_yields {Q : Option Nat → Allocator → Prop} {first : Option Nat}
    (hs : Quiet s) (hzero : left = 0 → Q first s)
    (hless : left ≠ 0 → G.force = true →
      Q none { s with errors := s.errors ++ [.outOfSpace left] }) :
    Yields (outcome G left first) s Q Quiet := by
  unfold outcome
  by_cases hleft : left = 0
  · rw [if_pos hleft]
    exact .of_ok rfl (hzero hleft)
  · rw [if_neg hleft]
    cases hforce : G.force with
    | true => exact .of_ok (bind_ok (error_force hforce _ _)) (hless hleft hforce)
    | false => exact .of_error (bind_error (error_exit hforce _ _)) (by simp [Quiet, hs])

/-- `ext4_allocate_best_fit` on a consistent state: all blocks are provided, or there are none. -/
theorem bestFit_yields (hG : Layout G) (hinv : Inv G h s)
    (hcareful : G.force = true → totalFree G s = 0 ∨ len ≤ totalFree G s) :
    Yields (ext4AllocateBestFit G len) s
      (fun first s' => ∃ taken s1 left es, Greedy G.aux.groups s.free len taken left ∧
        Built G s none taken s1 ∧ Message.alreadyReserved ∉ s1.errors ++ es ∧
        HeldIs G s1.free (h.held ++ (regionsOf G s.free taken).flatMap Region.blocks) ∧
        s' = { s1 with errors := s1.errors ++ es } ∧
        first = if taken = [] then none else some s.fresh)
      Quiet := by
  obtain ⟨taken, left, s', hgreedy, hbuilt, hrun⟩ := bestFitLoop_spec hG len len le_rfl none
    none hinv.groups (by simp)
  have herrors : Quiet s' := by
    rw [Quiet, hbuilt.errors]
    exact hinv.notReported
  have hheld := hinv.held.takeAll hG hgreedy
  rw [← hbuilt.free] at hheld
  refine .of_eq hrun (outcome_yields herrors (fun hleft => ?_) fun hleft hforce => ?_)
  · exact ⟨taken, s', left, [], hgreedy, hbuilt, by simpa using herrors, hheld, by simp, rfl⟩
  · have hnil : taken = [] := by
      apply hgreedy.eq_nil
      have hlack := hgreedy.left_eq
      rcases hcareful hforce with hzero | hle
      · exact hzero
      · unfold totalFree at hle
        omega
    exact ⟨taken, s', left, _, hgreedy, hbuilt, by simp [herrors], hheld, rfl, by rw [if_pos hnil]⟩

theorem allocateBlocks_inv (hG : Layout G) (hinv : Inv G h s)
    (hcareful : (Op.allocateBlocks len).Careful G s) :
    Keeps G (act G h (.allocateBlocks len)) s := by
  unfold act allocateBlocks
  simp
  refine (bestFit_yields hG hinv hcareful).bind ?_
  rintro first s' ⟨taken, s1, left, es, hgreedy, hbuilt, herrors, hheld, rfl, rfl⟩
  by_cases htaken : taken = []
  · subst htaken
    rw [regionsOf, flatMap_nil, append_nil] at hheld
    exact .of_ok rfl ⟨hbuilt.groups, herrors, hheld, fun hfalse => by cases hfalse⟩
  · rw [if_neg htaken]
    refine .of_ok rfl ⟨hbuilt.groups, herrors, ?_, fun _ a ha => ?_⟩
    · have hwalk := walk_chain s1.fresh hbuilt.chain
        (by rw [length_regionsOf, hbuilt.fresh]; omega)
      rw [if_neg (by rwa [regionsOf_eq_nil])] at hwalk
      rwa [hwalk]
    · simp only [getLast?_append, getLast?_singleton, Option.some_or,
        Option.some.injEq] at ha
      subst ha
      exact lastOk_of_built hG hinv.groups hgreedy hbuilt htaken _ rfl

/-- `allocate_block` takes a block from the first group that has one. -/
theorem allocateBlockFrom_spec (hG : Layout G) (hs : GroupsOk G s) (n i : Nat)
    (hn : i + n = G.aux.groups) :
    allocateBlockFrom G n i s = .ok ext4AllocateFailed s ∨
    ∃ g b, g < G.aux.groups ∧ GroupOk G g b ∧ b.freeBlocks = s.free g - 1 ∧ 1 ≤ s.free g ∧
      allocateBlockFrom G n i s = .ok (groupStop G.info G.aux g - s.free g) (s.setBg g b) := by
  induction n generalizing i with
  | zero => exact .inl rfl
  | succ n ih =>
    rw [allocateBlockFrom]
    rcases lt_or_ge (s.free i) 1 with hlt | hge
    · rw [bind_ok (allocateFromGroup_fails hlt)]
      exact ih (i + 1) (by omega)
    · have hi : i < G.aux.groups := by omega
      obtain ⟨b, hrun, hb, hfree⟩ := allocateFromGroup_ok hG hs hi (by decide) hge
      refine .inr ⟨i, b, hi, hb, hfree, hge, ?_⟩
      rw [bind_ok hrun, if_pos (ne_of_lt (hG.stop_sub_free_lt s hi))]
      rfl

theorem allocateBlock_inv (hG : Layout G) (hinv : Inv G h s) :
    Keeps G (act G h .allocateBlock) s := by
  rcases allocateBlockFrom_spec hG hinv.groups G.aux.groups 0 (by omega) with
    hrun | ⟨g, b, hg, hb, hfree, hge, hrun⟩
  · refine .of_ok (bind_ok hrun) ⟨hinv.groups, hinv.notReported, ?_, fun hfalse => by cases hfalse⟩
    exact hinv.held
  · refine .of_ok (bind_ok hrun)
      ⟨hinv.groups.setBg hb, hinv.notReported, ?_, fun hfalse => by cases hfalse⟩
    rw [if_neg (ne_of_lt (hG.stop_sub_free_lt s hg)), Allocator.free_setBg, hfree]
    exact hinv.held.take hG hg hge

end Allocate

/-! ## Appending and reducing -/

section Edit

variable {G : Globals} {s s' : Allocator} {h : History}

/-- Only the links between regions differ. -/
structure SameBlocks (s s' : Allocator) : Prop where
  bgs : s'.bgs = s.bgs
  errors : s'.errors = s.errors
  blocks : ∀ i, (s'.regions i).map Region.blocks = (s.regions i).map Region.blocks

theorem SameBlocks.refl (s : Allocator) : SameBlocks s s := ⟨rfl, rfl, fun _ => rfl⟩

theorem SameBlocks.trans {s1 s2 s3 : Allocator} (h1 : SameBlocks s1 s2) (h2 : SameBlocks s2 s3) :
    SameBlocks s1 s3 :=
  ⟨h2.bgs.trans h1.bgs, h2.errors.trans h1.errors, fun i => (h2.blocks i).trans (h1.blocks i)⟩

theorem update_yields (p : Option Nat) (f : Region → Region) (hf : ∀ r, (f r).blocks = r.blocks)
    (hE : E s) :
    Yields (update p f) s (fun _ s' => SameBlocks s s' ∧
      ∀ i, p = some i → ∃ r, s'.regions i = some (f r)) E := by
  cases p with
  | none => exact .of_error rfl hE
  | some i =>
    cases hr : s.regions i with
    | none =>
      refine .of_error (e := .badPointer) ?_ hE
      exact bind_error (by simp [deref, hr])
    | some r =>
      refine .of_ok (update_ok hr) ⟨⟨rfl, rfl, fun j => ?_⟩, ?_⟩
      · rw [Allocator.setRegion_regions]
        split_ifs with hj
        · rw [hj, hr, Option.map_some, Option.map_some, hf]
        · rfl
      · rintro j ⟨⟩
        exact ⟨r, if_pos rfl⟩

section

variable (list : RegionList) (reg : Nat) (hE : ∀ s', SameBlocks s s' → E s')
include hE

theorem regionListAppend_yields :
    Yields (regionListAppend list reg) s (fun l s' => SameBlocks s s' ∧ l.last = some reg ∧
      ∃ r, s'.regions reg = some r ∧ r.next = none) E := by
  unfold regionListAppend
  by_cases hfirst : list.first = none
  · rw [if_pos hfirst]
    refine (update_yields (some reg) (fun r => { r with next := none, prev := none })
      (fun _ => rfl) (hE s (.refl s))).bind fun _ s' ⟨hsame, hat⟩ => ?_
    obtain ⟨r, hr⟩ := hat reg rfl
    exact .of_ok rfl ⟨hsame, rfl, _, hr, rfl⟩
  · rw [if_neg hfirst]
    refine (update_yields list.last (fun l => { l with next := some reg })
      (fun _ => rfl) (hE s (.refl s))).bind fun _ s1 ⟨hsame1, _⟩ => ?_
    refine (update_yields (some reg) (fun r => { r with next := none, prev := list.last })
      (fun _ => rfl) (hE s1 hsame1)).bind fun _ s2 ⟨hsame2, hat⟩ => ?_
    obtain ⟨r, hr⟩ := hat reg rfl
    exact .of_ok rfl ⟨hsame1.trans hsame2, rfl, _, hr, rfl⟩

theorem appendLoop_yields :
    Yields (appendLoop 2 (some reg) list) s
      (fun l s' => SameBlocks s s' ∧ l.last = some reg) E := by
  refine (regionListAppend_yields list reg hE).bind fun l s' ⟨hsame, hlast, r, hr, hnext⟩ => ?_
  refine .of_ok ?_ ⟨hsame, hlast⟩
  rw [bind_ok (deref_ok hr), hnext]
  rfl

end

section

variable (hG : Layout G) (hinv : Inv G h s)
include hG hinv

/-- `append_oob_allocation` takes one block, or reports that there is none. -/
theorem appendOne_inv (i : Nat) (a : BlockAllocation) :
    Keeps G (appendOne G h i a) s := by
  unfold appendOne appendOobAllocation
  simp only [bind_assoc]
  refine (bestFit_yields hG hinv fun _ => by omega).bind ?_
  rintro first s' ⟨taken, s1, left, es, hgreedy, hbuilt, herrors, hheld, rfl, rfl⟩
  by_cases htaken : taken = []
  · rw [if_pos htaken]
    subst htaken
    rw [regionsOf, flatMap_nil, append_nil] at hheld
    simp
    cases hforce : G.force with
    | true =>
      exact .of_ok (bind_ok (error_force hforce _ _))
        ⟨hbuilt.groups, by simpa using herrors, hheld, fun hfalse => by cases hfalse⟩
    | false => exact .of_error (bind_error (error_exit hforce _ _)) (by simpa [Quiet] using herrors)
  · rw [if_neg htaken]
    simp only [bind_assoc]
    refine (appendLoop_yields a.oobList s.fresh fun s' hsame => ?_).bind fun l s2 hloop => ?_
    · rw [Quiet, hsame.errors]
      exact herrors
    · obtain ⟨hsame, hlast⟩ := hloop
      refine .of_ok rfl ⟨fun g hg => ?_, ?_, ?_, fun hfalse => by cases hfalse⟩
      · rw [hsame.bgs]
        exact hbuilt.groups g hg
      · rw [hsame.errors]
        exact herrors
      · have hfree : s2.free = s1.free := by
          unfold Allocator.free
          rw [hsame.bgs]
        obtain ⟨g, rfl⟩ := hgreedy.eq_singleton.resolve_left htaken
        have hat := hsame.blocks s.fresh
        rw [show s1.regions s.fresh = _ from hbuilt.chain.1] at hat
        obtain ⟨r, hr, hblocks⟩ := Option.map_eq_some_iff.1 hat
        rw [hlast, walk, hr, hfree]
        simpa [walk, hblocks, regionsOf] using hheld

theorem appendOobAllocation_inv (i : Nat) :
    Keeps G (act G h (.appendOobAllocation i)) s := by
  unfold act
  cases ha : h.allocs[i]? with
  | none =>
    simp only [ha]
    exact .of_ok rfl hinv
  | some a =>
    simp only [ha]
    exact appendOne_inv hG hinv i a

/-- `reduce_allocation` right after an allocation gives back the last block of its first region. -/
theorem reduceOne_inv (a : BlockAllocation) (hlast : LastOk G a s) :
    Keeps G (reduceOne h a) s := by
  obtain ⟨i, r, hi, hr, hprev, hg, hlen, hend, hstart⟩ := hlast
  have hsum := hG.start_add_size hg
  have hroom : headerBlocks G.info G.aux r.bg + s.free r.bg + 1 ≤ groupSize G r.bg := by omega
  have hgive := hinv.held.give hG hg hroom
  obtain ⟨b, hrun, hb, hfree⟩ := freeBlocks_group hG hg (hinv.groups r.bg hg) (by decide)
    hroom
  have hheld : HeldIs G (s.setBg r.bg b).free (h.held.erase (r.block + r.len - 1)) := by
    rw [Allocator.free_setBg, hfree, hend]
    exact hgive
  have hreduce : ∃ a' s', reduceLoop 1 1 a s = .ok a' s' ∧ s'.bgs = (s.setBg r.bg b).bgs ∧
      s'.errors = s.errors := by
    unfold reduceLoop
    rw [if_pos (by decide), hi, bind_ok (deref_ok hr)]
    by_cases hlong : r.len > 1
    · rw [if_pos hlong, bind_ok hrun, bind_ok (update_ok (s := s.setBg r.bg b) hr)]
      exact ⟨_, _, rfl, rfl, rfl⟩
    · obtain hone : r.len = 1 := by omega
      rw [if_neg hlong, hone, bind_ok hrun, hprev]
      exact ⟨_, _, rfl, rfl, rfl⟩
  obtain ⟨a', s', hrun', hbgs, herrors⟩ := hreduce
  have hact : reduceOne h a s = .ok { allocs := h.allocs.dropLast ++ [a']
                                      held := h.held.erase (r.block + r.len - 1)
                                      just := false } s' := by
    unfold reduceOne reduceAllocation
    rw [hi, bind_ok (deref_ok hr), bind_ok hrun']
    rfl
  refine .of_ok hact ⟨fun g hg => ?_, herrors ▸ hinv.notReported, ?_, fun hfalse => by cases hfalse⟩
  · rw [hbgs]
    exact (hinv.groups.setBg hb) g hg
  · have hfree' : s'.free = (s.setBg r.bg b).free := by
      unfold Allocator.free
      rw [hbgs]
    rwa [hfree']

theorem reduceAllocation_inv : Keeps G (act G h .reduceAllocation) s := by
  unfold act
  cases hjust : h.just with
  | false => exact .of_ok rfl hinv
  | true =>
    cases ha : h.allocs.getLast? with
    | none => exact .of_ok rfl hinv
    | some a => exact reduceOne_inv hG hinv a (hinv.last hjust a ha)

end

end Edit

/-! ## Runs -/

section Runs

variable {G : Globals} {s : Allocator} {h : History}

theorem act_inv (hG : Layout G) (hinv : Inv G h s) (op : Op) (hop : op.Careful G s) :
    Keeps G (act G h op) s := by
  cases op with
  | allocateBlocks len => exact allocateBlocks_inv hG hinv hop
  | allocateBlock => exact allocateBlock_inv hG hinv
  | appendOobAllocation i => exact appendOobAllocation_inv hG hinv i
  | reduceAllocation => exact reduceAllocation_inv hG hinv

theorem perform_inv (hG : Layout G) (ops : List Op) (hinv : Inv G h s)
    (hops : CarefulOps G ops h s) :
    Keeps G (perform G ops h) s := by
  induction ops generalizing h s with
  | nil => exact .of_ok rfl hinv
  | cons op ops ih =>
    exact (act_inv hG hinv op hops.1).bind' fun h' s' hrun hinv' => ih hinv' (hops.2 h' s' hrun)

theorem init_inv (hG : Layout G) :
    ∃ s, blockAllocatorInit G {} = .ok () s ∧ Inv G {} s ∧
      ∀ g < G.aux.groups, s.free g = groupSize G g - headerBlocks G.info G.aux g := by
  obtain ⟨bgs, hrun, hbgs⟩ := initGroups_ok hG G.aux.groups le_rfl {}
  refine ⟨_, hrun, ⟨fun g hg => (hbgs g hg).1, by simp, ⟨fun g hg => ?_, nodup_nil,
    fun b => ?_⟩, fun hfalse => by cases hfalse⟩, fun g hg => (hbgs g hg).2⟩
  · exact (hbgs g hg).1.room
  · constructor
    · intro hb
      cases hb
    · rintro ⟨g, hg, hl, hr⟩
      have hfree : (bgs g).freeBlocks = _ := (hbgs g hg).2
      change b < _ - (bgs g).freeBlocks at hr
      have hsum := hG.start_add_size hg
      omega

theorem Inv.consistent (hG : Layout G) (hinv : Inv G h s) : Consistent G h s := by
  have hclear (g : Nat) (hg : g < G.aux.groups) := (hinv.groups g hg).clearRun
  refine ⟨fun g hg b hb => ?_, hclear, fun g hg => (hclear g hg).clearCount_eq.symm,
    hinv.held.nodup, fun b hb => ?_, fun b hb g hg hbg => ?_, hinv.notReported⟩
  · have hroom : headerBlocks G.info G.aux g + s.free g ≤ groupSize G g := hinv.held.room g hg
    have hsum := hG.start_add_size hg
    have hbit := (hinv.groups g hg).clear b hb
    change _ ↔ groupSize G g - s.free g ≤ b ∧ b < groupSize G g at hbit
    rw [← Bool.not_eq_false, hbit]
    rcases lt_or_ge b (groupSize G g) with hlt | hge
    · have hstop : groupStop G.info G.aux g ≤ G.aux.lenBlocks := min_le_right _ _
      rw [hinv.held.mem_group hg (Nat.le_add_right _ b) (by omega)]
      omega
    · have hlen : G.aux.lenBlocks ≤ groupStart G.info G.aux g + b := by
        unfold groupStop at hsum
        omega
      exact ⟨fun _ => .inr (.inl hlen), fun _ => by omega⟩
  · obtain ⟨g, hg, hl, hr⟩ := (hinv.held.mem b).1 hb
    have : groupStop G.info G.aux g ≤ G.aux.lenBlocks := min_le_right _ _
    omega
  · have hstop := hG.fits g hg
    have := (hinv.held.mem_group hg hbg.1 (by omega)).1 hb
    omega

/-- In every state of a run the bitmaps, the counters and the blocks handed out agree, and a run
that the tool leaves early has not reported a reserved block either. -/
theorem allocator_consistent (hG : Layout G) (ops : List Op)
    (hops : ∀ s, blockAllocatorInit G {} = .ok () s → CarefulOps G ops {} s) :
    Yields (do
      blockAllocatorInit G
      perform G ops {}) {} (Consistent G) fun s => Message.alreadyReserved ∉ s.errors := by
  obtain ⟨s, hrun, hinv, -⟩ := init_inv hG
  exact .of_eq (bind_ok hrun) ((perform_inv hG ops hinv (hops s hrun)).mono fun _ _ hinv' =>
    hinv'.consistent hG)

end Runs

/-! ## A filesystem of 16 MiB -/

/-- A filesystem of 4096 blocks of 4 KiB, made with the option that sets `force`. -/
def smallTool : Globals where
  force := true
  info := makeFsInfo (4096 * 4096) 4096
  aux := ext4CreateFsAuxInfo (makeFsInfo (4096 * 4096) 4096)

theorem smallTool_layout : Layout smallTool where
  fits := by decide
  bitmap := by decide
  small := by decide

theorem smallTool_free : ∃ s, blockAllocatorInit smallTool {} = .ok () s ∧ Inv smallTool {} s ∧
    s.free 0 = 4021 ∧ totalFree smallTool s = 4021 := by
  obtain ⟨s, hrun, hinv, hfree⟩ := init_inv smallTool_layout
  have hgroup : groupSize smallTool 0 - headerBlocks smallTool.info smallTool.aux 0 = 4021 := by
    decide
  have hzero : s.free 0 = 4021 := (hfree 0 (by decide)).trans hgroup
  refine ⟨s, hrun, hinv, hzero, ?_⟩
  show ∑ g ∈ Finset.range 1, s.free g = 4021
  rw [Finset.sum_range_one, hzero]

theorem smallTool_careful (s : Allocator) (hs : blockAllocatorInit smallTool {} = .ok () s) :
    CarefulOps smallTool [.allocateBlocks 100, .reduceAllocation, .allocateBlock,
      .appendOobAllocation 0] {} s := by
  have hfirst : totalFree smallTool s = 4021 := by
    obtain ⟨s0, hrun, _, _, htotal⟩ := smallTool_free
    obtain rfl : s0 = s := by
      injection hrun.symm.trans hs
    exact htotal
  refine ⟨fun _ => .inr (by omega), fun _ _ _ => ⟨trivial, fun _ _ _ => ⟨trivial,
    fun _ _ _ => ⟨trivial, fun _ _ _ => trivial⟩⟩⟩⟩

theorem small_run_consistent : Layout smallTool ∧
    Yields (do
      blockAllocatorInit smallTool
      perform smallTool [.allocateBlocks 100, .reduceAllocation, .allocateBlock,
        .appendOobAllocation 0] {}) {} (Consistent smallTool)
      fun s => Message.alreadyReserved ∉ s.errors :=
  ⟨smallTool_layout, allocator_consistent smallTool_layout _ smallTool_careful⟩

/-- One block more than there is: the request fails, and all blocks are reserved. -/
theorem short_allocation_lost : ∃ h s, (do
      blockAllocatorInit smallTool
      perform smallTool [.allocateBlocks 4022] {}) {} = .ok h s ∧ h.held = [] ∧
    ¬Consistent smallTool h s := by
  obtain ⟨s, hrun, hinv, hfree, htotal⟩ := smallTool_free
  obtain ⟨taken, left, s', hgreedy, hbuilt, hloop⟩ := bestFitLoop_spec smallTool_layout 4022 4022
    le_rfl none none hinv.groups (by simp)
  have hleft : left = 1 := by
    have := hgreedy.left_eq
    unfold totalFree at htotal
    omega
  -- nothing is left in the one group
  have hempty : s'.free 0 = 0 := by
    rw [hbuilt.free]
    exact remaining_eq_zero hgreedy (by omega) 0 (by decide)
  have hfail : perform smallTool [.allocateBlocks 4022] {} s
      = .ok {} { s' with errors := s'.errors ++ [.outOfSpace left] } := by
    have hrun' : ext4AllocateBestFit smallTool 4022 s
        = .ok none { s' with errors := s'.errors ++ [.outOfSpace left] } := by
      unfold ext4AllocateBestFit
      rw [hloop, outcome, if_neg (by omega)]
      rfl
    unfold perform act allocateBlocks
    simp
    rw [bind_ok hrun']
    rfl
  refine ⟨_, _, (bind_ok hrun).trans hfail, rfl, fun hc => ?_⟩
  have hbit := (hc.bits 0 (by decide) 75 (by decide)).1 (by
    have hclear := (hbuilt.groups 0 (by decide)).clear 75 (by decide)
    rw [← Bool.not_eq_false]
    intro hfalse
    have hrange := hclear.1 hfalse
    change groupSize smallTool 0 - s'.free 0 ≤ 75 ∧ _ at hrange
    omega)
  revert hbit
  decide

end AndroidSystem.Ext4
