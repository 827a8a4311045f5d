import Mathlib.Data.Finset.Card
import Mathlib.Data.Nat.ModEq
import Mathlib.Tactic.Ring

/-!
# Probe sequences

In a hash table with open addressing an entry is looked for at the positions
`start, start + inc, start + 2 * inc, …` modulo the number `n` of buckets. If `inc` and `n` have no
common divisor, the first `n` positions are all the buckets, each once.

`exists_probe` and `probe_inj` say this. `exists_not_of_card` finds the bucket at which a search
ends in a table that is not full.
-/

namespace AndroidSystem

open Finset

/-- The bucket at place `k` of a probe sequence. -/
def probe (n start inc k : Nat) : Nat := (start + k * inc) % n

section

variable {n start inc k l : Nat}

theorem probe_zero (h : start < n) : probe n start inc 0 = start := by
  rw [probe, zero_mul, add_zero, Nat.mod_eq_of_lt h]

theorem probe_succ (n start inc k : Nat) :
    (probe n start inc k + inc) % n = probe n start inc (k + 1) := by
  rw [probe, probe, Nat.mod_add_mod, Nat.succ_mul, add_assoc]

theorem probe_lt (hn : 0 < n) (start inc k : Nat) : probe n start inc k < n := Nat.mod_lt _ hn

theorem probe_inj (hco : Nat.Coprime n inc) (hk : k < n) (hl : l < n)
    (h : probe n start inc k = probe n start inc l) : k = l := by
  have hmod : k * inc ≡ l * inc [MOD n] := Nat.ModEq.add_left_cancel' start h
  have hkl : k ≡ l [MOD n] := Nat.ModEq.cancel_right_of_coprime hco hmod
  exact Nat.ModEq.eq_of_lt_of_lt hkl hk hl

theorem exists_probe (hco : Nat.Coprime n inc) (hn : 0 < n) (start : Nat) {i : Nat} (hi : i < n) :
    ∃ k < n, probe n start inc k = i := by
  have hsurj : image (probe n start inc) (range n) = range n := by
    apply eq_of_subset_of_card_le
    · intro j hj
      obtain ⟨k, -, rfl⟩ := mem_image.1 hj
      exact mem_range.2 (probe_lt hn start inc k)
    · rw [card_image_of_injOn]
      intro k hk l hl h
      exact probe_inj hco (mem_range.1 hk) (mem_range.1 hl) h
  have hmem : i ∈ image (probe n start inc) (range n) := by
    rw [hsurj]
    exact mem_range.2 hi
  obtain ⟨k, hk, heq⟩ := mem_image.1 hmem
  exact ⟨k, mem_range.1 hk, heq⟩

end

/-- A property of fewer than `n` of the buckets does not hold of all. -/
theorem exists_not_of_card {n : Nat} (p : Nat → Prop) [DecidablePred p]
    (h : ((range n).filter p).card < n) : ∃ i < n, ¬p i := by
  by_contra hall
  have hfilter : (range n).filter p = range n := by
    apply filter_true_of_mem
    intro i hi
    by_contra hp
    exact hall ⟨i, mem_range.1 hi, hp⟩
  rw [hfilter, card_range] at h
  exact lt_irrefl n h

end AndroidSystem
