import AndroidSystem.Lib.BestFit
import AndroidSystem.Ext4.BlockGroup

/-!
# Allocations

What `ext4_allocate_best_fit` does: the sizes it takes from the groups are those of greedy best fit
(`BestFit.Greedy`), and the regions it returns are linked in the order they were taken. If the
groups cannot provide all the blocks, what was taken stays taken: nothing gives it back.
-/

namespace AndroidSystem.Ext4

open BestFit

/-! ## Regions in memory -/

section Memory

variable {s : Allocator} {p : Option Nat} {i : Nat} {r : Region} {f : Region → Region}

namespace Allocator

variable (s : Allocator) (i j : Nat) (r : Option Region)

@[simp] theorem setRegion_regions :
    (s.setRegion i r).regions j = if j = i then r else s.regions j := rfl

@[simp] theorem setRegion_bgs : (s.setRegion i r).bgs = s.bgs := rfl

@[simp] theorem setRegion_fresh : (s.setRegion i r).fresh = s.fresh := rfl

@[simp] theorem setRegion_errors : (s.setRegion i r).errors = s.errors := rfl

end Allocator

theorem deref_ok (h : s.regions i = some r) : deref (some i) s = .ok r s := by
  simp [deref, h]

theorem update_ok (h : s.regions i = some r) :
    update (some i) f s = .ok () (s.setRegion i (some (f r))) := by
  unfold update
  rw [bind_ok (deref_ok h)]
  rfl

end Memory

/-- From number `i` on, the memory holds the regions `rs` one after the other, each linked to the
next. -/
def Chain (regions : Nat → Option Region) : Option Nat → Nat → List Region → Prop
  | _, _, [] => True
  | prev, i, r :: rs =>
    regions i = some { r with next := if rs = [] then none else some (i + 1), prev := prev } ∧
      Chain regions (some i) (i + 1) rs

theorem Chain.congr {m m' : Nat → Option Region} {prev : Option Nat} {i : Nat} {rs : List Region}
    (h : Chain m prev i rs) (hm : ∀ j, i ≤ j → j < i + rs.length → m' j = m j) :
    Chain m' prev i rs := by
  induction rs generalizing prev i with
  | nil => trivial
  | cons r rs ih =>
    refine ⟨(hm i le_rfl (by simp)).trans h.1, ih h.2 fun j h1 h2 => hm j (by omega) ?_⟩
    rw [List.length_cons]
    omega

/-! ## One group -/

section Group

variable {G : Globals} {s : Allocator} {g k len : Nat}

/-- The numbers of free blocks. -/
def Allocator.free (s : Allocator) (g : Nat) : Nat := (s.bgs g).freeBlocks

theorem Allocator.free_setBg (s : Allocator) (g : Nat) (b : BlockGroupInfo) :
    (s.setBg g b).free = Function.update s.free g b.freeBlocks := by
  funext i
  unfold free
  rw [setBg_bgs, Function.update_apply]
  split_ifs <;> rfl

theorem GroupsOk.setBg (hs : GroupsOk G s) {b : BlockGroupInfo} (hb : GroupOk G g b) :
    GroupsOk G (s.setBg g b) := by
  intro i hi
  rw [Allocator.setBg_bgs]
  split_ifs with hig
  · exact hig ▸ hb
  · exact hs i hi

theorem Layout.stop_sub_free_lt (hG : Layout G) (s : Allocator) (hg : g < G.aux.groups) :
    groupStop G.info G.aux g - s.free g < ext4AllocateFailed := by
  have hstart := hG.start_lt hg
  have : groupStop G.info G.aux g ≤ groupStart G.info G.aux g + G.info.blocksPerGroup :=
    min_le_left _ _
  unfold ext4AllocateFailed
  omega

theorem allocateFromGroup_ok (hG : Layout G) (hs : GroupsOk G s) (hg : g < G.aux.groups)
    (hk : 0 < k) (hfree : k ≤ s.free g) :
    ∃ b, ext4AllocateBlocksFromBlockGroup G k g s
        = .ok (groupStop G.info G.aux g - s.free g) (s.setBg g b) ∧
      GroupOk G g b ∧ b.freeBlocks = s.free g - k := by
  have hgs := hs g hg
  obtain ⟨b, hrun, hb, hbfree⟩ := reserveBlocks_group hG hg hgs hk hfree
  refine ⟨{ b with dataBlocksUsed := i32 (b.dataBlocksUsed + k) }, ?_, { hb with }, hbfree⟩
  have hnext := hgs.next_of_free (lt_of_lt_of_le hk hfree)
  have hstart := hG.start_lt hg
  have hsize := groupSize_le G g
  have hsum := hG.start_add_size hg
  have hblock : u32 ((s.bgs g).firstBlock + (s.bgs g).firstFreeBlock)
      = groupStop G.info G.aux g - s.free g := by
    rw [hgs.first, u32_of_lt (by omega)]
    unfold Allocator.free
    omega
  unfold ext4AllocateBlocksFromBlockGroup
  rw [get_bind, if_neg (show ¬(s.bgs g).freeBlocks < k from not_lt.2 hfree), bind_ok hrun, hblock]
  simp only [Bool.not_true, Bool.false_eq_true, if_false]
  rw [modify_bind, Allocator.setBg_setBg, Allocator.setBg_bgs, if_pos rfl]
  rfl

theorem allocateFromGroup_fails (h : s.free g < k) :
    ext4AllocateBlocksFromBlockGroup G k g s = .ok ext4AllocateFailed s := by
  unfold ext4AllocateBlocksFromBlockGroup
  rw [get_bind, if_pos (show (s.bgs g).freeBlocks < k from h)]
  rfl

end Group

/-! ## The best group -/

/-- The loop of `ext4_allocate_best_fit_partial` finds a smallest group that fits, or else a largest
one. -/
theorem bestGroup_spec (free : Nat → Nat) {len : Nat} (hlen : 0 < len) (n : Nat) :
    ((bestGroup free len n).2 = 0 ∧ ∀ i < n, free i = 0) ∨
    ((bestGroup free len n).1 < n ∧ free (bestGroup free len n).1 = (bestGroup free len n).2 ∧
      0 < (bestGroup free len n).2 ∧
      ((len ≤ (bestGroup free len n).2 ∧
          ∀ i < n, len ≤ free i → (bestGroup free len n).2 ≤ free i) ∨
        ((bestGroup free len n).2 < len ∧ ∀ i < n, free i ≤ (bestGroup free len n).2))) := by
  induction n with
  | zero => exact .inl ⟨rfl, fun i hi => absurd hi (Nat.not_lt_zero i)⟩
  | succ n ih =>
    rw [bestGroup]
    have hstep {P : Nat → Prop} (hP : ∀ i < n, P i) (hn : P n) : ∀ i < n + 1, P i := by
      intro i hi
      rcases Nat.lt_succ_iff_lt_or_eq.1 hi with hlt | rfl
      · exact hP i hlt
      · exact hn
    split_ifs with hc
    · refine .inr ⟨Nat.lt_succ_self n, rfl, by omega, ?_⟩
      rcases lt_or_ge (free n) len with hlt | hge
      · refine .inr ⟨hlt, hstep (fun i hi => ?_) le_rfl⟩
        rcases ih with ⟨hz, hzero⟩ | ⟨hf1, hf2, hpos, ⟨hfit, -⟩ | ⟨hless, hbest⟩⟩
        · have := hzero i hi
          omega
        · omega
        · have := hbest i hi
          omega
      · refine .inl ⟨hge, hstep (fun i hi hi' => ?_) fun _ => le_rfl⟩
        rcases ih with ⟨hz, hzero⟩ | ⟨hf1, hf2, hpos, ⟨hfit, hbest⟩ | ⟨hless, hbest⟩⟩
        · have := hzero i hi
          omega
        · have := hbest i hi hi'
          omega
        · have := hbest i hi
          omega
    · rcases ih with ⟨hz, hzero⟩ | ⟨hf1, hf2, hpos, ⟨hfit, hbest⟩ | ⟨hless, hbest⟩⟩
      · exact .inl ⟨hz, hstep hzero (by omega)⟩
      · exact .inr ⟨by omega, hf2, hpos, .inl ⟨hfit, hstep hbest (by omega)⟩⟩
      · exact .inr ⟨by omega, hf2, hpos, .inr ⟨hless, hstep hbest (by omega)⟩⟩

/-! ## The regions of an allocation -/

/-- The regions that stand for what is taken. -/
def regionsOf (G : Globals) : (Nat → Nat) → List (Nat × Nat) → List Region
  | _, [] => []
  | free, (g, k) :: taken =>
    { block := groupStop G.info G.aux g - free g, len := k, bg := g }
      :: regionsOf G (Function.update free g (free g - k)) taken

/-- The free blocks that remain. -/
def remaining : (Nat → Nat) → List (Nat × Nat) → Nat → Nat
  | free, [] => free
  | free, (g, k) :: taken => remaining (Function.update free g (free g - k)) taken

@[simp] theorem length_regionsOf (G : Globals) (free : Nat → Nat) (taken : List (Nat × Nat)) :
    (regionsOf G free taken).length = taken.length := by
  induction taken generalizing free with
  | nil => rfl
  | cons r taken ih => simp [regionsOf, ih]

theorem regionsOf_eq_nil {G : Globals} {free : Nat → Nat} {taken : List (Nat × Nat)} :
    regionsOf G free taken = [] ↔ taken = [] := by
  rw [← List.length_eq_zero_iff, length_regionsOf, List.length_eq_zero_iff]

/-- How `ext4_allocate_best_fit` ends: with `left` blocks missing, an error is reported. -/
def outcome (G : Globals) (left : Nat) (first : Option Nat) : AllocM (Option Nat) :=
  if left = 0 then pure first else do
    error G (.outOfSpace left)
    return none

/-- What one round of the loop does to the memory: a region is added and linked to the one before
it. -/
def Allocator.link (s : Allocator) (prev : Option Nat) (r : Region) : Allocator :=
  { s with
    regions := fun j =>
      if j = s.fresh then some { r with prev := prev }
      else if prev = some j then (s.regions j).map fun p => { p with next := some s.fresh }
      else s.regions j
    fresh := s.fresh + 1 }

/-- What the loop has done in the end: blocks were taken from the groups, and the regions for them
follow `prev`. -/
structure Built (G : Globals) (s : Allocator) (prev : Option Nat) (taken : List (Nat × Nat))
    (s' : Allocator) : Prop where
  groups : GroupsOk G s'
  free : s'.free = remaining s.free taken
  errors : s'.errors = s.errors
  fresh : s'.fresh = s.fresh + taken.length
  old : ∀ j < s.fresh, s'.regions j =
    if taken ≠ [] ∧ prev = some j then (s.regions j).map fun p => { p with next := some s.fresh }
    else s.regions j
  chain : Chain s'.regions prev s.fresh (regionsOf G s.free taken)

section Loop

variable {G : Globals} {s s' : Allocator} {g k len left : Nat} {prev : Option Nat}
  {taken : List (Nat × Nat)}

theorem Built.nil (hs : GroupsOk G s) (prev : Option Nat) : Built G s prev [] s :=
  ⟨hs, rfl, rfl, rfl, fun j _ => by simp, trivial⟩

theorem Built.cons {b : BlockGroupInfo} (hb : b.freeBlocks = s.free g - k)
    (h : Built G ((s.setBg g b).link prev
      { block := groupStop G.info G.aux g - s.free g, len := k, bg := g }) (some s.fresh) taken s') :
    Built G s prev ((g, k) :: taken) s' := by
  have hfree : ((s.setBg g b).link prev
      { block := groupStop G.info G.aux g - s.free g, len := k, bg := g }).free
      = Function.update s.free g (s.free g - k) := by
    rw [← hb, ← Allocator.free_setBg]
    rfl
  refine ⟨h.groups, ?_, h.errors, ?_, fun j hj => ?_, ?_, ?_⟩
  · rw [h.free, hfree]
    rfl
  · rw [h.fresh, List.length_cons]
    show s.fresh + 1 + _ = _
    omega
  · rw [h.old j (Nat.lt_succ_of_lt hj), if_neg (by simp; omega)]
    show (if j = s.fresh then _ else if prev = some j then _ else s.regions j) = _
    rw [if_neg (by omega)]
    simp
  · rw [h.old s.fresh (Nat.lt_succ_self _)]
    show (if _ then Option.map _ (if s.fresh = s.fresh then _ else _) else
      (if s.fresh = s.fresh then _ else _)) = _
    by_cases ht : taken = []
    · subst ht
      simp [regionsOf]
    · simp [ht, regionsOf_eq_nil]
      rfl
  · have hchain := h.chain
    rw [hfree] at hchain
    exact hchain

theorem linkRegion_ok {r : Region} (hr : r.prev = none)
    (hprev : ∀ p, prev = some p → p < s.fresh ∧ (s.regions p).isSome) :
    linkRegion prev s.fresh (s.malloc r) = .ok () (s.link prev r) := by
  unfold linkRegion
  cases prev with
  | none =>
    refine congrArg (EStateM.Result.ok ()) (Allocator.ext rfl (funext fun j => ?_) rfl rfl)
    show (if j = s.fresh then some r else s.regions j)
      = if j = s.fresh then some { r with prev := none } else if none = some j then _ else s.regions j
    rw [if_neg (by simp : ¬none = some j), ← hr]
  | some p =>
    obtain ⟨hp, hsome⟩ := hprev p rfl
    obtain ⟨q, hq⟩ := Option.isSome_iff_exists.1 hsome
    rw [if_pos (Option.isSome_some), bind_ok (update_ok ?_), update_ok ?_]
    · refine congrArg (EStateM.Result.ok ()) (Allocator.ext rfl (funext fun j => ?_) rfl rfl)
      show (if j = s.fresh then _ else if j = p then _ else if j = s.fresh then _ else s.regions j)
        = if j = s.fresh then _ else if some p = some j then _ else _
      by_cases hj : j = s.fresh
      · rw [if_pos hj, if_pos hj]
      · rw [if_neg hj, if_neg hj, if_neg hj]
        by_cases hjp : j = p
        · rw [if_pos hjp, if_pos (by rw [hjp]), hjp, hq]
          rfl
        · rw [if_neg hjp, if_neg (by simpa using Ne.symm hjp)]
    · show (if s.fresh = p then _ else if s.fresh = s.fresh then some r else _) = some r
      rw [if_neg (by omega), if_pos rfl]
    · show (if p = s.fresh then _ else s.regions p) = some q
      rw [if_neg (by omega), hq]

theorem partial_ok (hG : Layout G) (hs : GroupsOk G s) (hlen : 0 < len) :
    ((∀ i < G.aux.groups, s.free i = 0) ∧
      ext4AllocateBestFitPartial G len s = outcome G len none s) ∨
    ∃ g k b, g < G.aux.groups ∧ 0 < k ∧ GroupOk G g b ∧ b.freeBlocks = s.free g - k ∧
      ((k = len ∧ len ≤ s.free g ∧ ∀ i < G.aux.groups, len ≤ s.free i → s.free g ≤ s.free i) ∨
        (k = s.free g ∧ s.free g < len ∧ ∀ i < G.aux.groups, s.free i ≤ s.free g)) ∧
      ext4AllocateBestFitPartial G len s = .ok (some s.fresh) ((s.setBg g b).malloc
        { block := groupStop G.info G.aux g - s.free g, len := k, bg := g }) := by
  unfold ext4AllocateBestFitPartial
  rw [get_bind, show (fun i => (s.bgs i).freeBlocks) = s.free from rfl]
  rcases bestGroup_spec s.free hlen G.aux.groups with ⟨hz, hzero⟩ | ⟨hlt, heq, hpos, hbest⟩
  · refine .inl ⟨hzero, ?_⟩
    rw [if_neg (not_not.2 hz), outcome, if_neg (by omega)]
  · generalize bestGroup s.free len G.aux.groups = f at *
    have hk : 0 < min len f.2 := by omega
    obtain ⟨b, hrun, hb, hfree⟩ := allocateFromGroup_ok hG hs hlt hk (by omega)
    refine .inr ⟨f.1, min len f.2, b, hlt, hk, hb, hfree, ?_, ?_⟩
    · rw [heq]
      rcases hbest with ⟨hfit, hbest⟩ | ⟨hless, hbest⟩
      · exact .inl ⟨by omega, hfit, hbest⟩
      · exact .inr ⟨by omega, hless, hbest⟩
    · rw [if_pos (by omega), allocateRegion, bind_ok hrun,
        if_neg (ne_of_lt (hG.stop_sub_free_lt s hlt))]
      rfl

/-- `ext4_allocate_best_fit` takes blocks by greedy best fit. -/
theorem bestFitLoop_spec (hG : Layout G) (fuel len : Nat) (hfuel : len ≤ fuel)
    (first prev : Option Nat) (hs : GroupsOk G s)
    (hprev : ∀ p, prev = some p → p < s.fresh ∧ (s.regions p).isSome) :
    ∃ taken left s', Greedy G.aux.groups s.free len taken left ∧ Built G s prev taken s' ∧
      bestFitLoop G fuel len first prev s
        = outcome G left (first.orElse fun _ => if taken = [] then none else some s.fresh) s' := by
  induction fuel generalizing len first prev s with
  | zero =>
    obtain rfl : len = 0 := by omega
    refine ⟨[], 0, s, .done _, .nil hs prev, ?_⟩
    cases first <;> rfl
  | succ fuel ih =>
    unfold bestFitLoop
    rcases eq_zero_or_pos len with rfl | hlen
    · refine ⟨[], 0, s, .done _, .nil hs prev, ?_⟩
      cases first <;> rfl
    rw [if_pos hlen]
    rcases partial_ok hG hs hlen with ⟨hzero, hrun⟩ | ⟨g, k, b, hg, hk, hb, hfree, hbest, hrun⟩
    · refine ⟨[], len, s, .empty hlen hzero, .nil hs prev, ?_⟩
      rw [outcome, if_neg (by omega)] at hrun ⊢
      cases hforce : G.force with
      | true =>
        rw [bind_ok (error_force hforce _ _)] at hrun ⊢
        exact bind_ok hrun
      | false =>
        rw [bind_error (error_exit hforce _ _)] at hrun ⊢
        exact bind_error hrun
    · generalize hr : ({ block := groupStop G.info G.aux g - s.free g, len := k, bg := g } : Region)
        = r at hrun
      have hlink : linkRegion prev s.fresh ((s.setBg g b).malloc r)
          = .ok () ((s.setBg g b).link prev r) :=
        linkRegion_ok (s := s.setBg g b) (by rw [← hr]) hprev
      have hat : ((s.setBg g b).link prev r).regions s.fresh = some { r with prev := prev } :=
        if_pos rfl
      have hlenk : r.len = k := hr ▸ rfl
      obtain ⟨taken, left, s', hgreedy, hbuilt, hrun'⟩ := ih (len - k) (by omega)
        (first.orElse fun _ => some s.fresh) (some s.fresh) (s := (s.setBg g b).link prev r)
        (hs.setBg hb) (by
          rintro p ⟨⟩
          exact ⟨Nat.lt_succ_self _, hat ▸ rfl⟩)
      have hupdate : ((s.setBg g b).link prev r).free
          = Function.update s.free g (s.free g - k) := by
        rw [← hfree, ← Allocator.free_setBg]
        rfl
      rw [hupdate] at hgreedy
      refine ⟨(g, k) :: taken, left, s', ?_, .cons hfree (hr ▸ hbuilt), ?_⟩
      · rcases hbest with ⟨rfl, hfit, hbest⟩ | ⟨rfl, hless, hbest⟩
        · rw [Nat.sub_self] at hgreedy
          cases hgreedy with
          | done => exact .fits hlen hg hfit hbest
          | empty hpos => exact absurd hpos (lt_irrefl 0)
          | fits hpos => exact absurd hpos (lt_irrefl 0)
          | takes _ hpos hless => exact absurd hless (Nat.not_lt_zero _)
        · rw [Nat.sub_self] at hgreedy
          exact .takes hg hk hless hbest hgreedy
      · rw [bind_ok hrun]
        dsimp only
        rw [bind_ok hlink, bind_ok (deref_ok hat)]
        rw [hlenk, hrun']
        cases first <;> rfl

end Loop

end AndroidSystem.Ext4
