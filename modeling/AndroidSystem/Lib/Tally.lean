import Mathlib.Order.Basic

/-!
# Tallies

The sum of a weight over the members of a list that meet a condition.
-/

namespace AndroidSystem

variable {α : Type*} (p : α → Prop) [DecidablePred p] (f : α → Nat)

def tally (l : List α) : Nat := l.foldr (fun a n => (if p a then f a else 0) + n) 0

@[simp] theorem tally_cons (a : α) (l : List α) :
    tally p f (a :: l) = (if p a then f a else 0) + tally p f l := rfl

@[simp] theorem tally_append (l m : List α) : tally p f (l ++ m) = tally p f l + tally p f m := by
  induction l with
  | nil => exact (Nat.zero_add _).symm
  | cons a l ih => rw [List.cons_append, tally_cons, tally_cons, ih, Nat.add_assoc]

theorem tally_filter (l : List α) : tally p f (l.filter p) = tally p f l := by
  induction l with
  | nil => rfl
  | cons a l ih => by_cases h : p a <;> simp [h, ih]

theorem tally_le_mul {n : Nat} {l : List α} (h : ∀ a ∈ l, f a ≤ n) :
    tally p f l ≤ n * tally p (fun _ => 1) l := by
  induction l with
  | nil => exact Nat.zero_le _
  | cons a l ih =>
    have hle := ih fun b hb => h b (List.mem_cons_of_mem _ hb)
    have ha := h a List.mem_cons_self
    rw [tally_cons, tally_cons, Nat.mul_add]
    split_ifs <;> omega

end AndroidSystem
