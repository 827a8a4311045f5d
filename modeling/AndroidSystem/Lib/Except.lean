import Mathlib.Tactic.Common

/-!
# Results that may be errors

Rules for `do` blocks over `Except`. `Ends E x P` is the postcondition `P` of a computation that may
also end with one of the errors `E`.
-/

namespace AndroidSystem

variable {ε α β : Type} {x : Except ε α} {f : α → Except ε β} {b : β}

theorem ok_bind (a : α) (f : α → Except ε β) : ((.ok a : Except ε α) >>= f) = f a := rfl

theorem error_bind (e : ε) (f : α → Except ε β) : ((.error e : Except ε α) >>= f) = .error e := rfl

theorem bind_eq_ok : (x >>= f) = .ok b ↔ ∃ a, x = .ok a ∧ f a = .ok b := by
  cases x with
  | error e =>
    constructor
    · intro h
      cases h
    · rintro ⟨a, ha, -⟩
      cases ha
  | ok a =>
    constructor
    · intro h
      exact ⟨a, rfl, h⟩
    · rintro ⟨a', ha, h⟩
      cases ha
      exact h

/-- The computation ends with an error in `E`, or with a value that has the property `P`. -/
def Ends (E : ε → Prop) (x : Except ε α) (P : α → Prop) : Prop :=
  (∃ e, x = .error e ∧ E e) ∨ ∃ a, x = .ok a ∧ P a

variable {E : ε → Prop} {P P' : α → Prop} {Q : β → Prop}

theorem Ends.ok {a : α} (h : P a) : Ends E (.ok a) P := .inr ⟨a, rfl, h⟩

theorem Ends.error {e : ε} (h : E e) : Ends E (.error e) P := .inl ⟨e, rfl, h⟩

theorem Ends.bind (hx : Ends E x P) (hf : ∀ a, P a → Ends E (f a) Q) : Ends E (x >>= f) Q := by
  obtain ⟨e, rfl, he⟩ | ⟨a, rfl, ha⟩ := hx
  · exact .error he
  · exact hf a ha

theorem Ends.mono (hx : Ends E x P) (h : ∀ a, P a → P' a) : Ends E x P' := by
  obtain ⟨e, rfl, he⟩ | ⟨a, rfl, ha⟩ := hx
  · exact .error he
  · exact .ok (h a ha)

theorem Ends.ite {c : Prop} [Decidable c] {y : Except ε α} (hx : c → Ends E x P)
    (hy : ¬c → Ends E y P) : Ends E (if c then x else y) P := by
  split
  · exact hx ‹c›
  · exact hy ‹¬c›

end AndroidSystem
