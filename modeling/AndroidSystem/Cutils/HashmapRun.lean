import AndroidSystem.Cutils.HashmapEntries
import Mathlib.Data.Set.Card

/-!
# A hash map is a finite map

The abstract map takes a class of equal keys to a value. Each operation on a valid hash map gives the
result that the finite map gives, and the entries stand for the new finite map. A run of operations
follows by induction.
-/

namespace AndroidSystem.Cutils

open List Buckets Function

variable {K V : Type} {h : Hashing K} {map : Hashmap K V}

/-! ## Finite maps -/

/-- Keys up to the equality of the map. -/
def Hashing.setoid (h : Hashing K) : Setoid K where
  r a b := h.equals a b = true
  iseqv := ⟨h.equals_refl, h.equals_symm, h.equals_trans⟩

/-- The class of a key. -/
def Hashing.cls (h : Hashing K) (key : K) : Quotient h.setoid := Quotient.mk h.setoid key

theorem Hashing.cls_eq {a b : K} : h.cls a = h.cls b ↔ h.equals a b = true :=
  Quotient.eq

/-- A map from classes of keys to values, where a value may be `NULL`. -/
abbrev KeyMap (h : Hashing K) (V : Type) : Type := Quotient h.setoid → Option (Option V)

/-- The entries are the pairs of the finite map. -/
def Represents (h : Hashing K) (entries : List (Entry K V)) (f : KeyMap h V) : Prop :=
  ∀ key v, f (h.cls key) = some v ↔ ∃ e ∈ entries, h.equals e.key key = true ∧ e.value = v

section

variable {entries : List (Entry K V)} {e : Entry K V} {f : KeyMap h V}

theorem Represents.perm {entries' : List (Entry K V)} (hf : Represents h entries f)
    (hperm : entries ~ entries') : Represents h entries' f := by
  intro key v
  rw [hf key v]
  simp only [hperm.mem_iff]

theorem Represents.eq_none (hf : Represents h entries f) {key : K} :
    f (h.cls key) = none ↔ ∀ e ∈ entries, h.equals e.key key = false := by
  constructor
  · intro hnone e he
    rw [Bool.eq_false_iff]
    intro hkey
    have hsome := (hf key e.value).2 ⟨e, he, hkey, rfl⟩
    rw [hnone] at hsome
    simp at hsome
  · intro habsent
    rw [Option.eq_none_iff_forall_ne_some]
    intro v hv
    obtain ⟨e, he, hkey, -⟩ := (hf key v).1 hv
    rw [habsent e he] at hkey
    simp at hkey

/-- The entries behind the one for a key are for other keys. -/
theorem equals_of_distinct (hdistinct : Distinct h (e :: entries)) {key : K}
    (hkey : h.cls key = h.cls e.key) {a : Entry K V} (ha : a ∈ entries) :
    ¬h.equals a.key key = true := by
  intro hakey
  have hea := h.equals_trans (Hashing.cls_eq.1 hkey.symm) (h.equals_symm hakey)
  rw [(distinct_cons.1 hdistinct).1 a ha] at hea
  simp at hea

open Classical in
theorem Represents.cons (hf : Represents h entries f) (hdistinct : Distinct h (e :: entries)) :
    Represents h (e :: entries) (update f (h.cls e.key) (some e.value)) := by
  intro key v
  rw [exists_mem_cons_iff]
  by_cases hkey : h.cls key = h.cls e.key
  · rw [hkey, update_self, Option.some_inj, or_iff_left, Hashing.cls_eq.1 hkey.symm]
    · simp
    · rintro ⟨a, ha, hakey, -⟩
      exact equals_of_distinct hdistinct hkey ha hakey
  · rw [update_of_ne hkey, hf key v, or_iff_right]
    rintro ⟨hakey, -⟩
    exact hkey (Hashing.cls_eq.2 hakey).symm

/-- Entries with different keys are the pairs of some finite map. -/
theorem exists_represents (hdistinct : Distinct h entries) : ∃ f, Represents h entries f := by
  induction entries with
  | nil => exact ⟨fun _ => none, fun key v => by simp⟩
  | cons e entries ih =>
    obtain ⟨f, hf⟩ := ih (distinct_cons.1 hdistinct).2.2
    exact ⟨_, hf.cons hdistinct⟩

open Classical in
theorem Represents.tail (hf : Represents h (e :: entries) f) (hdistinct : Distinct h (e :: entries)) :
    Represents h entries (update f (h.cls e.key) none) := by
  intro key v
  by_cases hkey : h.cls key = h.cls e.key
  · rw [hkey, update_self]
    constructor
    · intro hv
      simp at hv
    · rintro ⟨a, ha, hakey, -⟩
      exact absurd hakey (equals_of_distinct hdistinct hkey ha)
  · rw [update_of_ne hkey, hf key v, exists_mem_cons_iff, or_iff_right]
    rintro ⟨hakey, -⟩
    exact hkey (Hashing.cls_eq.2 hakey).symm

theorem Represents.ncard_eq (hf : Represents h entries f) (hdistinct : Distinct h entries) :
    {q | f q ≠ none}.ncard = entries.length := by
  classical
  have hset : {q | f q ≠ none} = ((entries.map fun e => h.cls e.key).toFinset : Set _) := by
    ext q
    induction q using Quotient.inductionOn with
    | h key =>
      change f (h.cls key) ≠ none ↔ h.cls key ∈ _
      rw [ne_eq, hf.eq_none, coe_toFinset, Set.mem_ofPred_eq, mem_map]
      constructor
      · intro hmem
        push Not at hmem
        obtain ⟨e, he, hkey⟩ := hmem
        exact ⟨e, he, Hashing.cls_eq.2 (by simpa using hkey)⟩
      · rintro ⟨e, he, hkey⟩ habsent
        have hequal := Hashing.cls_eq.1 hkey
        rw [habsent e he] at hequal
        simp at hequal
  have hnodup : (entries.map fun e => h.cls e.key).Nodup := by
    rw [Nodup, pairwise_map]
    refine hdistinct.keys.imp ?_
    intro a b hab heq
    rw [Hashing.cls_eq.1 heq] at hab
    simp at hab
  rw [hset, Set.ncard_coe_finset, toFinset_card_of_nodup hnodup, length_map]

end

/-! ## Operations -/

/-- An operation with its arguments. -/
inductive Op (K V : Type) where
  | put (key : K) (value : Option V)
  | get (key : K)
  | containsKey (key : K)
  | memoize (key : K) (initialValue : K → Option V)
  | remove (key : K)

/-- What an operation returns. -/
inductive Result (V : Type) where
  | value (v : Option V)
  | found (b : Bool)

section

variable [DecidableEq K]

def Hashmap.step (h : Hashing K) (map : Hashmap K V) : Op K V → Result V × Hashmap K V
  | .put key value => let r := hashmapPut h map key value; (.value r.1, r.2)
  | .get key => (.value (hashmapGet h map key), map)
  | .containsKey key => (.found (hashmapContainsKey h map key), map)
  | .memoize key initialValue => let r := hashmapMemoize h map key initialValue; (.value r.1, r.2)
  | .remove key => let r := hashmapRemove h map key; (.value r.1, r.2)

open Classical in
/-- The operations on a finite map. -/
noncomputable def KeyMap.step (f : KeyMap h V) : Op K V → Result V × KeyMap h V
  | .put key value => (.value (f (h.cls key)).join, update f (h.cls key) (some value))
  | .get key => (.value (f (h.cls key)).join, f)
  | .containsKey key => (.found (f (h.cls key)).isSome, f)
  | .memoize key initialValue =>
    (.value ((f (h.cls key)).getD (initialValue key)),
      update f (h.cls key) (some ((f (h.cls key)).getD (initialValue key))))
  | .remove key => (.value (f (h.cls key)).join, update f (h.cls key) none)

/-- A sequence of operations, with the results. -/
def Hashmap.run (h : Hashing K) (map : Hashmap K V) : List (Op K V) → List (Result V) × Hashmap K V
  | [] => ([], map)
  | op :: ops =>
    let r := map.step h op
    let rest := Hashmap.run h r.2 ops
    (r.1 :: rest.1, rest.2)

noncomputable def KeyMap.run (f : KeyMap h V) : List (Op K V) → List (Result V) × KeyMap h V
  | [] => ([], f)
  | op :: ops =>
    let r := KeyMap.step f op
    let rest := KeyMap.run r.2 ops
    (r.1 :: rest.1, rest.2)

end

/-- A valid map stands for a finite map. -/
structure Refines (h : Hashing K) (map : Hashmap K V) (f : KeyMap h V) : Prop where
  valid : map.Valid h
  represents : Represents h map.entries f

theorem Refines.size_eq {f : KeyMap h V} (hr : Refines h map f) :
    hashmapSize map = {q | f q ≠ none}.ncard := by
  rw [hr.represents.ncard_eq hr.valid.distinct]
  exact hr.valid.size_eq

theorem refines_hashmapCreate (h : Hashing K) (initialCapacity : Nat) :
    Refines h (hashmapCreate initialCapacity : Hashmap K V) fun _ => none where
  valid := valid_hashmapCreate h initialCapacity
  represents := by
    rw [entries_hashmapCreate]
    intro key v
    simp

section

variable {f : KeyMap h V} (hr : Refines h map f)
include hr

open Classical in
theorem Refines.addEntry {key : K} (habsent : ∀ e ∈ map.entries, h.equals e.key key = false)
    (value : Option V) :
    Refines h (addEntry h map key value) (update f (h.cls key) (some value)) := by
  obtain ⟨hvalid, hperm⟩ := hr.valid.addEntry habsent value
  have hcons := hr.represents.cons (hvalid.distinct.perm hperm)
  exact ⟨hvalid, hcons.perm hperm.symm⟩

variable [DecidableEq K]

/-- What the walk to a key finds is what the finite map has. -/
theorem Refines.walk_cases (key : K) :
    (f (h.cls key) = none ∧ (∀ e ∈ map.entries, h.equals e.key key = false) ∧
      (walk h key (map.chain (indexOf h map key))).2 = []) ∨
    ∃ before e after, map.chain (indexOf h map key) = before ++ e :: after ∧
      h.cls e.key = h.cls key ∧ f (h.cls key) = some e.value ∧
      walk h key (map.chain (indexOf h map key)) = (before, e :: after) := by
  obtain ⟨habsent, hwalk⟩ | ⟨before, e, after, hsplit, hkey, hwalk⟩ := hr.valid.walk_cases key
  · exact .inl ⟨hr.represents.eq_none.2 habsent, habsent, hwalk⟩
  · refine .inr ⟨before, e, after, hsplit, Hashing.cls_eq.2 hkey, ?_, hwalk⟩
    refine (hr.represents key e.value).2 ⟨e, ?_, hkey, rfl⟩
    refine mem_flatten_iff.2 ⟨_, hr.valid.indexOf_lt key, ?_⟩
    change e ∈ map.chain _
    rw [hsplit]
    exact mem_append_right _ mem_cons_self

theorem Refines.put (key : K) (value : Option V) :
    (hashmapPut h map key value).1 = (f (h.cls key)).join ∧
      Refines h (hashmapPut h map key value).2 (KeyMap.step f (.put key value)).2 := by
  classical
  obtain ⟨hnone, habsent, hwalk⟩ | ⟨before, e, after, hsplit, hkey, hsome, hwalk⟩ := hr.walk_cases key
  · have hput : hashmapPut h map key value = (none, Cutils.addEntry h map key value) := by
      rw [hashmapPut]
      split
      · rfl
      · next hfound =>
        rw [hfound] at hwalk
        simp at hwalk
    rw [hput, hnone]
    exact ⟨rfl, hr.addEntry habsent value⟩
  · have hi := hr.valid.indexOf_lt key
    have hput : hashmapPut h map key value = (e.value,
        ⟨map.buckets.set (indexOf h map key) (before ++ { e with value } :: after), map.size,
          map.fresh⟩) := by
      rw [hashmapPut]
      simp only [hwalk]
    obtain ⟨hold, hperm⟩ := hr.valid.remove hi hsplit
    obtain ⟨hvalid, hnew⟩ := hr.valid.replace hi hsplit value
    have hothers := (hr.represents.perm hperm).tail (hr.valid.distinct.perm hperm)
    have hrep := hothers.cons (hvalid.distinct.perm hnew)
    rw [update_idem, hkey] at hrep
    rw [hput, hsome]
    exact ⟨rfl, hvalid, hrep.perm hnew.symm⟩

theorem Refines.get (key : K) : hashmapGet h map key = (f (h.cls key)).join := by
  obtain ⟨hnone, -, hwalk⟩ | ⟨before, e, after, -, -, hsome, hwalk⟩ := hr.walk_cases key
  · rw [hashmapGet, hwalk, hnone]
    rfl
  · rw [hashmapGet, hwalk, hsome]
    rfl

theorem Refines.containsKey (key : K) : hashmapContainsKey h map key = (f (h.cls key)).isSome := by
  obtain ⟨hnone, -, hwalk⟩ | ⟨before, e, after, -, -, hsome, hwalk⟩ := hr.walk_cases key
  · rw [hashmapContainsKey, hwalk, hnone]
    rfl
  · rw [hashmapContainsKey, hwalk, hsome]
    rfl

theorem Refines.memoize (key : K) (initialValue : K → Option V) :
    (hashmapMemoize h map key initialValue).1 = (f (h.cls key)).getD (initialValue key) ∧
      Refines h (hashmapMemoize h map key initialValue).2
        (KeyMap.step f (.memoize key initialValue)).2 := by
  classical
  obtain ⟨hnone, habsent, hwalk⟩ | ⟨before, e, after, -, -, hsome, hwalk⟩ := hr.walk_cases key
  · rw [hashmapMemoize, hwalk, KeyMap.step, hnone]
    exact ⟨rfl, hr.addEntry habsent _⟩
  · have hself : update f (h.cls key) (some e.value) = f := by
      rw [← hsome]
      exact update_eq_self _ _
    rw [hashmapMemoize, hwalk, KeyMap.step, hsome, Option.getD_some, hself]
    exact ⟨rfl, hr⟩

theorem Refines.remove (key : K) :
    (hashmapRemove h map key).1 = (f (h.cls key)).join ∧
      Refines h (hashmapRemove h map key).2 (KeyMap.step f (.remove key : Op K V)).2 := by
  classical
  obtain ⟨hnone, -, hwalk⟩ | ⟨before, e, after, hsplit, hkey, hsome, hwalk⟩ := hr.walk_cases key
  · have hremove : hashmapRemove h map key = (none, map) := by
      rw [hashmapRemove]
      split
      · rfl
      · next hfound =>
        rw [hfound] at hwalk
        simp at hwalk
    have hself : update f (h.cls key) none = f := by
      rw [← hnone]
      exact update_eq_self _ _
    rw [hremove, KeyMap.step, hnone, hself]
    exact ⟨rfl, hr⟩
  · have hremove : hashmapRemove h map key = (e.value, { map with
        buckets := map.buckets.set (indexOf h map key) (before ++ after), size := map.size - 1 }) := by
      rw [hashmapRemove]
      simp only [hwalk]
    obtain ⟨hvalid, hperm⟩ := hr.valid.remove (hr.valid.indexOf_lt key) hsplit
    have hothers := (hr.represents.perm hperm).tail (hr.valid.distinct.perm hperm)
    rw [hkey] at hothers
    rw [hremove, hsome]
    exact ⟨rfl, hvalid, hothers⟩

theorem Refines.step (op : Op K V) :
    (map.step h op).1 = (KeyMap.step f op).1 ∧ Refines h (map.step h op).2 (KeyMap.step f op).2 := by
  cases op with
  | put key value => exact (hr.put key value).imp_left (congrArg Result.value)
  | get key => exact ⟨congrArg Result.value (hr.get key), hr⟩
  | containsKey key => exact ⟨congrArg Result.found (hr.containsKey key), hr⟩
  | memoize key initialValue => exact (hr.memoize key initialValue).imp_left (congrArg Result.value)
  | remove key => exact (hr.remove key).imp_left (congrArg Result.value)

end

theorem Refines.run [DecidableEq K] {f : KeyMap h V} (hr : Refines h map f) (ops : List (Op K V)) :
    (map.run h ops).1 = (KeyMap.run f ops).1 ∧ Refines h (map.run h ops).2 (KeyMap.run f ops).2 := by
  induction ops generalizing map f with
  | nil => exact ⟨rfl, hr⟩
  | cons op ops ih =>
    obtain ⟨hresult, hnext⟩ := hr.step op
    obtain ⟨hresults, hlast⟩ := ih hnext
    exact ⟨congrArg₂ cons hresult hresults, hlast⟩

end AndroidSystem.Cutils
