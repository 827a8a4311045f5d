import Mathlib.Data.List.Basic
import Mathlib.Data.List.GetD

/-!
# Lists of chains

Facts about a list of chains and the list of all items in them: what becomes of the items if one chain
is replaced, or gets a new head.
-/

namespace AndroidSystem.Buckets

open List

variable {α β : Type} {chains : List (List α)} {i : Nat}

/-- The items before chain `i`, and those after it. -/
def itemsBefore (chains : List (List α)) (i : Nat) : List α := (chains.take i).flatten

def itemsAfter (chains : List (List α)) (i : Nat) : List α := (chains.drop (i + 1)).flatten

section

variable (hi : i < chains.length)
include hi

theorem split_at : chains = chains.take i ++ chains.getD i [] :: chains.drop (i + 1) := by
  rw [getD_eq_getElem _ _ hi, ← drop_eq_getElem_cons hi, take_append_drop]

theorem flatten_eq :
    chains.flatten = itemsBefore chains i ++ chains.getD i [] ++ itemsAfter chains i := by
  conv_lhs => rw [split_at hi]
  rw [flatten_append, append_assoc]
  rfl

theorem flatten_set (c : List α) :
    (chains.set i c).flatten = itemsBefore chains i ++ c ++ itemsAfter chains i := by
  rw [set_eq_take_append_cons_drop, if_pos hi, flatten_append, append_assoc]
  rfl

theorem flatten_eq_of_split {c : List α} (hc : chains.getD i [] = c) :
    chains.flatten = (chains.set i c).flatten := by
  rw [flatten_set hi, flatten_eq hi, hc]

theorem flatten_set_middle (before after : List α) (a : α) :
    (chains.set i (before ++ a :: after)).flatten ~ a :: (chains.set i (before ++ after)).flatten := by
  rw [flatten_set hi, flatten_set hi]
  have hmiddle : (itemsBefore chains i ++ before) ++ a :: (after ++ itemsAfter chains i) ~
      a :: ((itemsBefore chains i ++ before) ++ (after ++ itemsAfter chains i)) := perm_middle
  simpa only [append_assoc, cons_append] using hmiddle

omit hi in
theorem itemsAfter_set (c : List α) : itemsAfter (chains.set i c) i = itemsAfter chains i := by
  rw [itemsAfter, itemsAfter, drop_set_of_lt (Nat.lt_succ_self i)]

omit hi in
theorem itemsBefore_set (c : List α) : itemsBefore (chains.set i c) i = itemsBefore chains i := by
  rw [itemsBefore, itemsBefore, take_set_of_le (Nat.le_refl i)]

theorem itemsBefore_succ :
    itemsBefore chains (i + 1) = itemsBefore chains i ++ chains.getD i [] := by
  rw [itemsBefore, take_succ_eq_append_getElem hi, flatten_append, flatten_singleton,
    getD_eq_getElem _ _ hi]
  rfl

omit hi in
theorem itemsAfter_succ (hi : i + 1 < chains.length) :
    itemsAfter chains i = chains.getD (i + 1) [] ++ itemsAfter chains (i + 1) := by
  rw [itemsAfter, drop_eq_getElem_cons hi, flatten_cons, getD_eq_getElem _ _ hi]
  rfl

omit hi in
theorem itemsAfter_last (hi : chains.length ≤ i + 1) : itemsAfter chains i = [] := by
  rw [itemsAfter, drop_eq_nil_of_le hi]
  rfl

theorem getD_set (c : List α) (j : Nat) :
    (chains.set i c).getD j [] = if j = i then c else chains.getD j [] := by
  rw [getD_eq_getElem?_getD, getElem?_set, getD_eq_getElem?_getD]
  by_cases hj : i = j
  · rw [if_pos hj, if_pos hi, if_pos hj.symm]
    rfl
  · rw [if_neg hj, if_neg (Ne.symm hj)]

omit hi in
theorem mem_flatten_iff {a : α} :
    a ∈ chains.flatten ↔ ∃ i < chains.length, a ∈ chains.getD i [] := by
  constructor
  · intro ha
    obtain ⟨chain, hchain, ha⟩ := mem_flatten.1 ha
    obtain ⟨i, hi, rfl⟩ := getElem_of_mem hchain
    exact ⟨i, hi, by rwa [getD_eq_getElem _ _ hi]⟩
  · rintro ⟨i, hi, ha⟩
    rw [getD_eq_getElem _ _ hi] at ha
    exact mem_flatten.2 ⟨chains[i], getElem_mem hi, ha⟩

/-! ## A new head -/

theorem modify_eq_set (f : List α → List α) :
    chains.modify i f = chains.set i (f (chains.getD i [])) := by
  rw [modify_eq_set_getElem?, getElem?_eq_getElem hi, getD_eq_getElem _ _ hi]
  rfl

theorem flatten_modify_cons (a : α) : (chains.modify i (a :: ·)).flatten ~ a :: chains.flatten := by
  rw [modify_eq_set hi, flatten_set hi, flatten_eq hi]
  simpa only [cons_append, append_assoc] using perm_middle

theorem mem_getD_modify_cons {a b : α} {j : Nat} (h : b ∈ (chains.modify i (a :: ·)).getD j []) :
    b = a ∧ j = i ∨ b ∈ chains.getD j [] := by
  rw [modify_eq_set hi, getD_set hi] at h
  split_ifs at h with hj
  · rw [mem_cons] at h
    obtain rfl | hb := h
    · exact .inl ⟨rfl, hj⟩
    · exact .inr (hj ▸ hb)
  · exact .inr h

end

end AndroidSystem.Buckets
