import Mathlib.Data.List.TakeWhile

/-!
# Tokens between delimiters

Taking tokens off a list one after the other, with runs of delimiters skipped, as `strtok_r` does. The
tokens are the non-empty pieces between delimiters. Also the map that a list of pairs gives if a later
pair replaces an earlier one with the same key.
-/

namespace AndroidSystem.Tokens

open List

variable {α β γ : Type} [DecidableEq α] {delim : α}

/-- The next token, and what is left after the delimiter that ends it. -/
def nextToken (delim : α) (s : List α) : Option (List α × List α) :=
  let s := s.dropWhile (· == delim)
  if s.isEmpty then none else some (s.takeWhile (· != delim), (s.dropWhile (· != delim)).drop 1)

/-- A loop over the tokens, with at most `n` of them. -/
def foldTokens (delim : α) (f : β → List α → β) : Nat → β → List α → β
  | 0, b, _ => b
  | n + 1, b, s =>
    match nextToken delim s with
    | none => b
    | some (token, rest) => foldTokens delim f n (f b token) rest

/-! ## Pieces -/

/-- The pieces that are not empty. -/
def tokens (delim : α) (s : List α) : List (List α) := (s.splitOn delim).filter fun t => !t.isEmpty

theorem tokens_cons_delim (s : List α) : tokens delim (delim :: s) = tokens delim s := by
  rw [tokens, splitOn, splitOnP_cons_eq_if_modifyHead, if_pos (beq_self_eq_true delim)]
  rfl

theorem tokens_dropWhile (s : List α) :
    tokens delim (s.dropWhile (· == delim)) = tokens delim s := by
  induction s with
  | nil => rfl
  | cons a s ih =>
    by_cases ha : a = delim
    · subst ha
      rw [dropWhile_cons_of_pos (by simp), ih, tokens_cons_delim]
    · rw [dropWhile_cons_of_neg (by simpa using ha)]

section

variable {t : List α} (ht : delim ∉ t)
include ht

theorem beq_delim : ∀ x ∈ t, (x == delim) = false := by
  intro x hx
  rw [beq_eq_false_iff_ne]
  rintro rfl
  exact ht hx

theorem tokens_append_delim (hne : t ≠ []) (s : List α) :
    tokens delim (t ++ delim :: s) = t :: tokens delim s := by
  rw [tokens, splitOn, splitOnP_append_cons_of_forall_mem (beq_delim ht) delim (beq_self_eq_true delim),
    filter_cons_of_pos (by simpa using hne)]
  rfl

theorem tokens_of_notMem (hne : t ≠ []) : tokens delim t = [t] := by
  rw [tokens, splitOn, splitOnP_eq_singleton (beq_delim ht),
    filter_cons_of_pos (by simpa using hne), filter_nil]

end

theorem tokens_eq_nextToken (delim : α) (s : List α) :
    (nextToken delim s = none ∧ tokens delim s = []) ∨
    ∃ token rest, nextToken delim s = some (token, rest) ∧ rest.length < s.length ∧
      tokens delim s = token :: tokens delim rest := by
  have hlength : (s.dropWhile (· == delim)).length ≤ s.length := (dropWhile_sublist _).length_le
  rw [← tokens_dropWhile]
  cases hs : s.dropWhile (· == delim) with
  | nil =>
    left
    simp [nextToken, hs, tokens]
  | cons a u =>
    right
    have ha : a ≠ delim := by
      have hhead := head?_dropWhile_not (· == delim) s
      rw [hs] at hhead
      simpa using hhead
    have hmem : delim ∉ (a :: u).takeWhile (· != delim) := by
      intro hmem
      have hnot := mem_takeWhile_imp hmem
      simp at hnot
    have hne : (a :: u).takeWhile (· != delim) ≠ [] := by
      rw [takeWhile_cons_of_pos (by simpa using ha)]
      exact cons_ne_nil _ _
    have hsplit : a :: u = (a :: u).takeWhile (· != delim) ++ (a :: u).dropWhile (· != delim) :=
      takeWhile_append_dropWhile.symm
    refine ⟨(a :: u).takeWhile (· != delim), ((a :: u).dropWhile (· != delim)).drop 1, ?_, ?_, ?_⟩
    · simp [nextToken, hs]
    · have hpos := length_pos_iff.2 hne
      have htotal := congrArg length hsplit
      rw [hs] at hlength
      rw [length_append] at htotal
      rw [length_drop]
      omega
    · cases hrest : (a :: u).dropWhile (· != delim) with
      | nil =>
        rw [hrest, append_nil] at hsplit
        rw [← hsplit, tokens_of_notMem (hsplit ▸ hmem) (cons_ne_nil _ _)]
        simp [tokens]
      | cons d v =>
        have hd : d = delim := by
          have hhead := head?_dropWhile_not (· != delim) (a :: u)
          rw [hrest] at hhead
          simpa using hhead
        rw [hrest, hd] at hsplit
        rw [← tokens_append_delim hmem hne, drop_one, tail_cons, ← hsplit]

theorem foldTokens_eq (f : β → List α → β) {n : Nat} {s : List α} (hn : s.length < n) (b : β) :
    foldTokens delim f n b s = (tokens delim s).foldl f b := by
  induction n generalizing s b with
  | zero => omega
  | succ n ih =>
    obtain ⟨hnone, hempty⟩ | ⟨token, rest, hsome, hlt, hcons⟩ := tokens_eq_nextToken delim s
    · rw [foldTokens, hnone, hempty]
      rfl
    · rw [foldTokens, hsome, hcons]
      exact ih (by omega) (f b token)

/-! ## Later pairs replace earlier ones -/

/-- The value of the last pair with the key. -/
def lastValue (pairs : List (α × γ)) (key : α) : Option γ :=
  (pairs.filter fun p => p.1 = key).getLast?.map (·.2)

theorem lastValue_concat (pairs : List (α × γ)) (p : α × γ) :
    lastValue (pairs ++ [p]) = Function.update (lastValue pairs) p.1 (some p.2) := by
  funext key
  rw [lastValue]
  by_cases hkey : p.1 = key
  · rw [← hkey]
    simp
  · rw [Function.update_of_ne (Ne.symm hkey)]
    simp [hkey, lastValue]

theorem lastValue_eq_some {pairs : List (α × γ)} (hpairs : pairs.Pairwise fun p q => p.1 ≠ q.1)
    (key : α) (v : γ) : lastValue pairs key = some v ↔ (key, v) ∈ pairs := by
  induction pairs with
  | nil => simp [lastValue]
  | cons p pairs ih =>
    obtain ⟨hne, htail⟩ := pairwise_cons.1 hpairs
    rw [lastValue, filter_cons, mem_cons]
    split_ifs with hkey
    · have hrest : pairs.filter (fun q => decide (q.1 = key)) = [] := by
        rw [filter_eq_nil_iff]
        intro q hq
        have := hne q hq
        simp only [decide_eq_true_eq] at hkey ⊢
        exact fun heq => this (hkey.trans heq.symm)
      have habsent : (key, v) ∉ pairs := by
        intro hmem
        exact hne _ hmem (by simpa using hkey)
      rw [hrest, getLast?_singleton, Option.map_some, Option.some_inj]
      simp only [decide_eq_true_eq] at hkey
      constructor
      · rintro rfl
        exact .inl (Prod.ext hkey.symm rfl)
      · rintro (heq | hmem)
        · rw [← heq]
        · exact absurd hmem habsent
    · rw [← lastValue, ih htail]
      constructor
      · exact .inr
      · rintro (rfl | hmem)
        · simp at hkey
        · exact hmem

end AndroidSystem.Tokens
