import Mathlib.Algebra.BigOperators.Group.Finset.Piecewise
import Mathlib.Algebra.Order.BigOperators.Group.Finset
import Mathlib.Tactic.Ring

/-!
# Greedy best fit

A request is met out of `n` pools. If the rest of the request fits in a pool, it is taken from a
smallest pool that it fits in; otherwise a largest pool is emptied, and so on. `Greedy` describes
what is taken, whatever the choice between pools of equal size.

* `Greedy.left_eq` : what is left over is what all the pools together lack.
* `Greedy.length_le_iff` : no other way to meet the request needs fewer pools.
-/

namespace AndroidSystem.BestFit

open Finset Function

variable {S : Finset Nat} {g k b : Nat}

/-- What is taken from the pools: pairs of a pool and a size, and what is left of the request. -/
inductive Greedy (n : Nat) : (Nat → Nat) → Nat → List (Nat × Nat) → Nat → Prop where
  | done (free : Nat → Nat) : Greedy n free 0 [] 0
  | empty {free : Nat → Nat} {len : Nat} (hlen : 0 < len) (hzero : ∀ i < n, free i = 0) :
    Greedy n free len [] len
  | fits {free : Nat → Nat} {len g : Nat} (hlen : 0 < len) (hg : g < n) (hfits : len ≤ free g)
    (hbest : ∀ i < n, len ≤ free i → free g ≤ free i) : Greedy n free len [(g, len)] 0
  | takes {free : Nat → Nat} {len left g : Nat} {taken : List (Nat × Nat)} (hg : g < n)
    (hpos : 0 < free g) (hless : free g < len) (hbest : ∀ i < n, free i ≤ free g)
    (hrest : Greedy n (update free g 0) (len - free g) taken left) :
    Greedy n free len ((g, free g) :: taken) left

section

variable {n len left : Nat} {free : Nat → Nat} {taken : List (Nat × Nat)}

theorem sum_update_zero (free : Nat → Nat) (hg : g ∈ S) :
    ∑ i ∈ S, update free g 0 i + free g = ∑ i ∈ S, free i := by
  rw [sum_update_of_mem hg, zero_add, ← sum_sdiff (singleton_subset_iff.2 hg), sum_singleton]

theorem sum_update_other (free : Nat → Nat) (hg : g ∉ S) :
    ∑ i ∈ S, update free g 0 i = ∑ i ∈ S, free i := by
  apply sum_congr rfl
  intro i hi
  rw [update_of_ne]
  rintro rfl
  exact hg hi

namespace Greedy

section

variable (h : Greedy n free len taken left)
include h

theorem sum_add_left : (taken.map Prod.snd).sum + left = len := by
  induction h with
  | done => rfl
  | empty => simp
  | fits => simp
  | takes hg hpos hless hbest hrest ih =>
    rw [List.map_cons, List.sum_cons]
    omega

theorem left_eq : left = len - ∑ i ∈ range n, free i := by
  induction h with
  | done => simp
  | empty hlen hzero => rw [sum_eq_zero (fun i hi => hzero i (mem_range.1 hi)), Nat.sub_zero]
  | @fits free len g hlen hg hfits hbest =>
    have := sum_update_zero free (mem_range.2 hg)
    omega
  | @takes free len left g taken hg hpos hless hbest hrest ih =>
    have := sum_update_zero free (mem_range.2 hg)
    omega

theorem eq_nil (hzero : ∑ i ∈ range n, free i = 0) : taken = [] := by
  have hfree : ∀ i < n, free i = 0 := fun i hi =>
    (sum_eq_zero_iff.1 hzero) i (mem_range.2 hi)
  cases h with
  | done => rfl
  | empty => rfl
  | fits hlen hg hfits hbest =>
    have := hfree _ hg
    omega
  | takes hg hpos hless hbest hrest =>
    have := hfree _ hg
    omega

/-- A request that some pool can serve is served by the smallest such pool. -/
theorem eq_of_fits (hlen : 0 < len) (hfits : ∃ i < n, len ≤ free i) :
    ∃ g < n, taken = [(g, len)] ∧ len ≤ free g ∧ ∀ i < n, len ≤ free i → free g ≤ free i := by
  obtain ⟨i, hi, hfree⟩ := hfits
  cases h with
  | done => exact absurd hlen (lt_irrefl 0)
  | empty _ hzero =>
    have := hzero i hi
    omega
  | fits _ hg hle hbest => exact ⟨_, hg, rfl, hle, hbest⟩
  | takes hg hpos hless hbest =>
    have := hbest i hi
    omega

omit h in
theorem eq_singleton (h : Greedy n free 1 taken left) : taken = [] ∨ ∃ g, taken = [(g, 1)] := by
  cases h with
  | empty => exact .inl rfl
  | fits => exact .inr ⟨_, rfl⟩
  | takes hg hpos hless => omega

theorem mem_spec : ∀ r ∈ taken, r.1 < n ∧ 0 < r.2 ∧ r.2 ≤ free r.1 := by
  induction h with
  | done => simp
  | empty => simp
  | fits hlen hg hfits hbest =>
    intro r hr
    rw [List.mem_singleton] at hr
    exact hr ▸ ⟨hg, hlen, hfits⟩
  | @takes free len left g taken hg hpos hless hbest hrest ih =>
    intro r hr
    rcases List.mem_cons.1 hr with rfl | hr
    · exact ⟨hg, hpos, le_rfl⟩
    · obtain ⟨hlt, hpos', hle⟩ := ih r hr
      by_cases hrg : r.1 = g
      · rw [hrg, update_self] at hle
        omega
      · rw [update_of_ne hrg] at hle
        exact ⟨hlt, hpos', hle⟩

theorem length_le : taken.length ≤ len := by
  have hsum := h.sum_add_left
  have hle : taken.length ≤ (taken.map Prod.snd).sum := by
    rw [← List.length_map]
    refine List.length_le_sum_of_one_le _ fun k hk => ?_
    obtain ⟨r, hr, rfl⟩ := List.mem_map.1 hk
    exact (h.mem_spec r hr).2.1
  omega

theorem nodup : (taken.map Prod.fst).Nodup := by
  induction h with
  | done => simp
  | empty => simp
  | fits => simp
  | @takes free len left g taken hg hpos hless hbest hrest ih =>
    rw [List.map_cons, List.nodup_cons]
    refine ⟨fun hmem => ?_, ih⟩
    obtain ⟨r, hr, hrg⟩ := List.mem_map.1 hmem
    obtain ⟨-, hpos', hle⟩ := hrest.mem_spec r hr
    rw [hrg, update_self] at hle
    omega

end

/-- The pools taken from are as few as possible. -/
theorem length_le_iff (h : Greedy n free len taken 0) (m : Nat) :
    taken.length ≤ m ↔ ∃ S ⊆ range n, S.card ≤ m ∧ len ≤ ∑ i ∈ S, free i := by
  constructor
  · intro hm
    refine ⟨(taken.map Prod.fst).toFinset, fun i hi => ?_, ?_, ?_⟩
    · obtain ⟨r, hr, rfl⟩ := List.mem_map.1 (List.mem_toFinset.1 hi)
      exact mem_range.2 (h.mem_spec r hr).1
    · rw [List.toFinset_card_of_nodup h.nodup, List.length_map]
      exact hm
    · rw [List.sum_toFinset _ h.nodup, List.map_map, ← h.sum_add_left]
      exact List.sum_le_sum fun r hr => (h.mem_spec r hr).2.2
  · rintro ⟨S, hS, hcard, hsum⟩
    generalize hleft : (0 : Nat) = left at h
    induction h generalizing m S with
    | done => exact Nat.zero_le m
    | empty => omega
    | fits hlen =>
      have : S.card ≠ 0 := by
        rw [Ne, card_eq_zero]
        rintro rfl
        rw [sum_empty] at hsum
        omega
      show 1 ≤ m
      omega
    | @takes free len left g taken hg hpos hless hbest hrest ih =>
      -- of the pools in `S`, give up `g` if it is there, and any of the smaller ones otherwise
      obtain ⟨x, hx, hxg⟩ : ∃ x ∈ S, g ∈ S → x = g := by
        by_cases hgS : g ∈ S
        · exact ⟨g, hgS, fun _ => rfl⟩
        · obtain ⟨x, hx⟩ : S.Nonempty := by
            rw [nonempty_iff_ne_empty]
            rintro rfl
            rw [sum_empty] at hsum
            omega
          exact ⟨x, hx, fun h => absurd h hgS⟩
      have hxle : free x ≤ free g := hbest x (mem_range.1 (hS hx))
      have hgS : g ∉ S.erase x := fun hg' => (mem_erase.1 hg').1 (hxg (mem_erase.1 hg').2).symm
      have herase := sum_erase_add S free hx
      have hcard' := card_erase_of_mem hx
      have hpos' : 0 < S.card := card_pos.2 ⟨x, hx⟩
      have := ih (m - 1) (S.erase x) (fun i hi => hS (mem_of_mem_erase hi)) (by omega)
        (by rw [sum_update_other free hgS]; omega) hleft
      rw [List.length_cons]
      omega

/-- The first size taken is 1 only if no pool is larger. -/
theorem two_le_head_iff (h : Greedy n free len ((g, k) :: taken) left) (hlen : 2 ≤ len) :
    2 ≤ k ↔ ∃ i < n, 2 ≤ free i := by
  cases h with
  | fits _ hg hfits => exact ⟨fun _ => ⟨g, hg, by omega⟩, fun _ => hlen⟩
  | takes hg hpos hless hbest hrest =>
    constructor
    · exact fun hk => ⟨g, hg, hk⟩
    · rintro ⟨i, hi, hfree⟩
      exact le_trans hfree (hbest i hi)

/-- When none of the sizes taken is that of a largest pool. -/
theorem forall_lt_iff (h : Greedy n free len taken 0) (hlen : 0 < len) (hfree : ∀ i < n, free i ≤ b) :
    (∀ r ∈ taken, r.2 < b) ↔ ¬(b ≤ len ∧ ∃ i < n, free i = b) := by
  cases h with
  | done => exact absurd hlen (lt_irrefl 0)
  | empty => exact absurd hlen (lt_irrefl 0)
  | @fits _ _ g _ hg hfits hbest =>
    have hgb := hfree g hg
    rw [List.forall_mem_singleton]
    constructor
    · rintro hlt ⟨hle, -⟩
      omega
    · intro hno
      by_contra hge
      exact hno ⟨by omega, g, hg, by omega⟩
  | @takes _ _ _ g rest hg hpos hless hbest hrest =>
    have hgb := hfree g hg
    rcases lt_or_ge (free g) b with hlt | hge
    · have hall : ∀ r ∈ (g, free g) :: rest, r.2 < b := by
        intro r hr
        obtain ⟨hrn, -, hle⟩ := (takes hg hpos hless hbest hrest).mem_spec r hr
        exact lt_of_le_of_lt (le_trans hle (hbest r.1 hrn)) hlt
      refine iff_of_true hall ?_
      rintro ⟨-, i, hi, hib⟩
      have := hbest i hi
      omega
    · refine iff_of_false (fun hall => ?_) (not_not.2 ⟨by omega, g, hg, by omega⟩)
      have := hall (g, free g) (List.mem_cons_self ..)
      omega

/-- When the sizes taken are at most `b`, with one more for the first. -/
theorem sizes_le_iff (h : Greedy n free len ((g, k) :: taken) 0) :
    (k ≤ b + 1 ∧ ∀ r ∈ taken, r.2 ≤ b) ↔
      if ∃ i < n, len ≤ free i then len ≤ b + 1
      else (∀ i < n, free i ≤ b + 1) ∧ ¬(2 * (b + 1) ≤ len ∧
        ∃ i < n, ∃ j < n, i ≠ j ∧ free i = b + 1 ∧ free j = b + 1) := by
  cases h with
  | fits hlen hg hfits hbest =>
    rw [if_pos ⟨g, hg, hfits⟩]
    simp
  | takes hg hpos hless hbest hrest =>
    have hno : ¬∃ i < n, len ≤ free i := by
      rintro ⟨i, hi, hle⟩
      have := hbest i hi
      omega
    rw [if_neg hno]
    have hmax : (∀ i < n, free i ≤ b + 1) ↔ free g ≤ b + 1 :=
      ⟨fun hall => hall g hg, fun hle i hi => le_trans (hbest i hi) hle⟩
    rw [hmax]
    refine and_congr_right fun hle => ?_
    have hupdate : ∀ i < n, update free g 0 i ≤ b + 1 := by
      intro i hi
      rw [update_apply]
      split_ifs
      · exact Nat.zero_le _
      · exact le_trans (hbest i hi) hle
    have hiff := hrest.forall_lt_iff (by omega) hupdate
    simp only [Nat.lt_succ_iff] at hiff
    rw [hiff, not_iff_not]
    constructor
    · rintro ⟨hlen, i, hi, hib⟩
      have hig : i ≠ g := by
        rintro rfl
        rw [update_self] at hib
        omega
      rw [update_of_ne hig] at hib
      have := hbest i hi
      exact ⟨by omega, i, hi, g, hg, hig, hib, by omega⟩
    · rintro ⟨hlen, i, hi, j, hj, hij, hib, hjb⟩
      refine ⟨by omega, ?_⟩
      by_cases hig : i = g
      · exact ⟨j, hj, by rw [update_of_ne (fun hjg => hij (hig.trans hjg.symm)), hjb]⟩
      · exact ⟨i, hi, by rw [update_of_ne hig, hib]⟩

end Greedy

end

end AndroidSystem.BestFit
