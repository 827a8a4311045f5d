import AndroidSystem.Cutils.HashmapRun

/-!
# Iteration over a hash map

`hashmapForEach` with a callback that may remove the entry it is given. The pointer to the next entry is
read before the callback runs, and the entry it points to is another one, so the pointer does not
dangle. The loops visit the entries of the map in their order, each one once.
-/

namespace AndroidSystem.Cutils

open List Buckets Hashmap

variable {K V C : Type} {h : Hashing K} {map : Hashmap K V}

variable {i : Nat} {before rest : List (Entry K V)} {e : Entry K V}

/-! ## Pointers to entries -/

/-- The entry at an address, in the chain where it is. -/
theorem Hashmap.Valid.entryAt (hmap : map.Valid h) (hi : i < map.bucketCount)
    (hsplit : map.chain i = before ++ e :: rest) : map.entryAt e.addr = some (e, rest) := by
  have haddrs := hmap.distinct.addrs
  rw [entries_eq hi, hsplit, append_assoc, append_assoc] at haddrs
  have hother : ∀ a ∈ itemsBefore map.buckets i ++ before, a.addr ≠ e.addr := by
    intro a ha
    rw [← append_assoc] at haddrs
    exact (pairwise_append.1 haddrs).2.2 a ha e (by simp)
  have hbuckets : map.buckets = map.buckets.take i ++ map.chain i :: map.buckets.drop (i + 1) :=
    split_at hi
  rw [Hashmap.entryAt, hbuckets, findSome?_append, findSome?_eq_none_iff.2, findSome?_cons, hsplit,
    dropWhile_append_of_pos]
  · simp
  · intro a ha
    have hne := hother a (mem_append_right _ ha)
    simpa using hne
  · intro chain hchain
    have hmiss : chain.dropWhile (fun a => decide (a.addr ≠ e.addr)) = [] := by
      rw [dropWhile_eq_nil_iff]
      intro a ha
      have hne := hother a (mem_append_left _ (mem_flatten.2 ⟨chain, hchain, ha⟩))
      simpa using hne
    rw [hmiss]

theorem Hashmap.chain_set (hi : i < map.bucketCount) (chain : List (Entry K V)) (size fresh : Nat) :
    Hashmap.chain ⟨map.buckets.set i chain, size, fresh⟩ i = chain := by
  rw [Hashmap.chain, getD_set hi, if_pos rfl]

/-! ## What is visited -/

/-- The entries that are visited: all up to the first that stops the loop. -/
def visited (goes : K → Option V → Bool) : List (Entry K V) → List (Entry K V)
  | [] => []
  | e :: l => e :: if goes e.key e.value then visited goes l else []

/-- The entries that remain. -/
def remaining (goes removes : K → Option V → Bool) : List (Entry K V) → List (Entry K V)
  | [] => []
  | e :: l => (if removes e.key e.value then [] else [e]) ++
      if goes e.key e.value then remaining goes removes l else l

theorem visited_all (l : List (Entry K V)) : visited (fun _ _ => true) l = l := by
  induction l with
  | nil => rfl
  | cons e l ih => rw [visited, if_pos rfl, ih]

theorem remaining_all (removes : K → Option V → Bool) (l : List (Entry K V)) :
    remaining (fun _ _ => true) removes l = l.filter fun e => !removes e.key e.value := by
  induction l with
  | nil => rfl
  | cons e l ih =>
    rw [remaining, ih, filter_cons]
    cases removes e.key e.value <;> rfl

/-! ## The loops -/

variable [DecidableEq K]

theorem Hashmap.Valid.hashmapRemove_eq (hmap : map.Valid h)
    (hsplit : map.chain i = before ++ e :: rest) :
    hashmapRemove h map e.key =
      (e.value, ⟨map.buckets.set i (before ++ rest), map.size - 1, map.fresh⟩) := by
  have hindex : indexOf h map e.key = i :=
    hmap.indexOf_eq (by rw [hsplit]; exact mem_append_right _ mem_cons_self) (h.equals_refl e.key)
  have hhash : ∀ a ∈ before ++ e :: rest, a.hash = hashKey h a.key := by
    rw [← hsplit]
    exact fun a ha => (hmap.placed i a ha).1
  have hbefore : ∀ a ∈ before, h.equals a.key e.key = false := by
    have hi : i < map.bucketCount := hindex ▸ hmap.indexOf_lt e.key
    have hsub : before ++ e :: rest <+ map.entries := by
      rw [← hsplit, entries_eq hi]
      exact (sublist_append_right _ _).trans (sublist_append_left _ _)
    intro a ha
    exact (pairwise_append.1 (hmap.distinct.sublist hsub).keys).2.2 a ha e mem_cons_self
  have hwalk := walk_append hhash hbefore (h.equals_refl e.key)
  rw [hashmapRemove]
  simp only [hindex, hsplit, hwalk]

/-- A callback that removes the entry it is given if `removes` says so, changes its context by
`visit`, and goes on if `goes` says so. -/
def visiting (h : Hashing K) (goes removes : K → Option V → Bool) (visit : C → K → Option V → C) :
    K → Option V → Hashmap K V × C → Bool × (Hashmap K V × C) :=
  fun key value s =>
    (goes key value,
      (if removes key value then (hashmapRemove h s.1 key).2 else s.1, visit s.2 key value))

section

variable (goes removes : K → Option V → Bool) (visit : C → K → Option V → C)

/-- The map after one call of the callback, in the bucket of the entry. -/
theorem Hashmap.Valid.visiting (hmap : map.Valid h) (hi : i < map.bucketCount)
    (hsplit : map.chain i = before ++ e :: rest) (c : C) :
    ∃ map' : Hashmap K V,
      visiting h goes removes visit e.key e.value (map, c) =
        (goes e.key e.value, (map', visit c e.key e.value)) ∧
      map'.Valid h ∧ map'.bucketCount = map.bucketCount ∧
      map'.chain i = before ++ (if removes e.key e.value then [] else [e]) ++ rest ∧
      itemsBefore map'.buckets i = itemsBefore map.buckets i ∧
      itemsAfter map'.buckets i = itemsAfter map.buckets i := by
  by_cases hremoves : removes e.key e.value = true
  · refine ⟨⟨map.buckets.set i (before ++ rest), map.size - 1, map.fresh⟩, ?_,
      (hmap.remove hi hsplit).1, length_set, ?_, ?_, itemsAfter_set _⟩
    · simp only [Cutils.visiting, hremoves, if_true, hmap.hashmapRemove_eq hsplit]
    · rw [chain_set hi, if_pos hremoves, append_nil]
    · exact itemsBefore_set _
  · refine ⟨map, ?_, hmap, rfl, ?_, rfl, rfl⟩
    · simp only [Cutils.visiting, hremoves, if_false, Bool.false_eq_true]
    · rw [if_neg hremoves, hsplit, append_assoc]
      rfl

/-- The loops from some entry on. `before` are the entries of its bucket that have been passed. -/
theorem forEachLoop_visiting (fuel : Nat) (hmap : map.Valid h) (hi : i < map.bucketCount)
    (hsplit : map.chain i = before ++ rest) (c : C)
    (hfuel : (rest ++ itemsAfter map.buckets i).length + (map.bucketCount - i) ≤ fuel) :
    ∃ map' : Hashmap K V,
      forEachLoop (visiting h goes removes visit) fuel i (rest.head?.map (·.addr)) (map, c) =
        some (map', (visited goes (rest ++ itemsAfter map.buckets i)).foldl
          (fun c e => visit c e.key e.value) c) ∧
      map'.Valid h ∧ map'.entries = itemsBefore map.buckets i ++ before ++
        remaining goes removes (rest ++ itemsAfter map.buckets i) := by
  induction fuel generalizing map i before rest c with
  | zero => omega
  | succ fuel ih =>
    cases rest with
    | nil =>
      rw [append_nil] at hsplit
      by_cases hnext : i + 1 < map.bucketCount
      · -- The first entry of the next bucket.
        have hafter := itemsAfter_succ hnext
        rw [nil_append, hafter] at hfuel ⊢
        have hbegin : map.chain (i + 1) = [] ++ map.buckets.getD (i + 1) [] := rfl
        obtain ⟨map', hloop, hvalid, hentries⟩ := ih hmap hnext hbegin c (by omega)
        refine ⟨map', ?_, hvalid, ?_⟩
        · rw [head?_nil, Option.map_none, forEachLoop, if_pos hnext]
          exact hloop
        · rw [hentries, append_nil]
          rw [itemsBefore_succ hi, ← hsplit]
          rfl
      · rw [itemsAfter_last (not_lt.1 hnext), head?_nil, Option.map_none, forEachLoop, if_neg hnext]
        refine ⟨map, rfl, hmap, ?_⟩
        rw [entries_eq hi, hsplit, itemsAfter_last (not_lt.1 hnext)]
        rfl
    | cons e rest =>
      obtain ⟨map1, hcall, hvalid1, hcount, hchain, hitems, hafter⟩ :=
        hmap.visiting goes removes visit hi hsplit c
      have hstep : forEachLoop (visiting h goes removes visit) (fuel + 1) i
          ((e :: rest).head?.map (·.addr)) (map, c) =
          if goes e.key e.value then forEachLoop (visiting h goes removes visit) fuel i
            (rest.head?.map (·.addr)) (map1, visit c e.key e.value)
          else some (map1, visit c e.key e.value) := by
        rw [head?_cons, Option.map_some, forEachLoop, hmap.entryAt hi hsplit]
        simp only [hcall]
      rw [hstep, cons_append, visited, remaining]
      by_cases hgoes : goes e.key e.value = true
      · simp only [if_pos hgoes]
        obtain ⟨map', hloop, hvalid, hentries⟩ :=
          ih hvalid1 (hcount ▸ hi) hchain (visit c e.key e.value) (by
            rw [hafter]
            simp only [cons_append, length_cons] at hfuel
            omega)
        rw [hafter] at hloop hentries
        rw [hitems] at hentries
        exact ⟨map', hloop, hvalid, by rw [hentries]; simp only [append_assoc]⟩
      · simp only [if_neg hgoes]
        refine ⟨map1, rfl, hvalid1, ?_⟩
        rw [entries_eq (hcount ▸ hi), hitems, hafter, hchain]
        simp

theorem hashmapForEach_visiting (hmap : map.Valid h) (c : C) (extra : Nat) :
    ∃ map' : Hashmap K V,
      hashmapForEach (visiting h goes removes visit) (map.size + map.bucketCount + extra) map c =
        some (map', (visited goes map.entries).foldl (fun c e => visit c e.key e.value) c) ∧
      map'.Valid h ∧ map'.entries = remaining goes removes map.entries := by
  have hpos := hmap.bucketCount_pos
  have hentries : map.entries = map.chain 0 ++ itemsAfter map.buckets 0 := by
    rw [entries_eq hpos]
    rfl
  have hbegin : map.chain 0 = [] ++ map.chain 0 := rfl
  obtain ⟨map', hloop, hvalid, hremaining⟩ :=
    forEachLoop_visiting goes removes visit (map.size + map.bucketCount + extra) hmap hpos hbegin c
      (by rw [← hentries, ← hmap.size_eq]; omega)
  rw [← hentries] at hloop hremaining
  refine ⟨map', ?_, hvalid, hremaining⟩
  rw [hashmapForEach, if_pos hpos]
  exact hloop

end

/-! ## The whole map -/

/-- Any sequence of operations on a new map gives the results of a finite map. The size is its number of
keys. An iteration visits each of its pairs once, also if the callback removes some of the entries
it visits, and what is left then are the other pairs. -/
theorem hashmap_is_finite_map (h : Hashing K) (initialCapacity : Nat) (ops : List (Op K V)) :
    ((hashmapCreate initialCapacity).run h ops).1 =
      (KeyMap.run (fun _ => none : KeyMap h V) ops).1 ∧
    hashmapSize ((hashmapCreate initialCapacity).run h ops).2 =
      {q | (KeyMap.run (fun _ => none : KeyMap h V) ops).2 q ≠ none}.ncard ∧
    ∃ seen : List (K × Option V),
      seen.Pairwise (fun a b => h.cls a.1 ≠ h.cls b.1) ∧
      (∀ key v, (KeyMap.run (fun _ => none : KeyMap h V) ops).2 (h.cls key) = some v ↔
        ∃ k, h.cls k = h.cls key ∧ (k, v) ∈ seen) ∧
      ∀ (C : Type) (removes : K → Option V → Bool) (visit : C → K → Option V → C) (c : C)
        (extra : Nat), ∃ (map' : Hashmap K V) (f' : KeyMap h V),
        hashmapForEach (visiting h (fun _ _ => true) removes visit)
            (((hashmapCreate initialCapacity).run h ops).2.size +
              ((hashmapCreate initialCapacity).run h ops).2.bucketCount + extra)
            ((hashmapCreate initialCapacity).run h ops).2 c =
          some (map', seen.foldl (fun c pair => visit c pair.1 pair.2) c) ∧
        Refines h map' f' ∧ ∀ key v, f' (h.cls key) = some v ↔
          ∃ k, h.cls k = h.cls key ∧ (k, v) ∈ seen ∧ removes k v = false := by
  obtain ⟨hresults, hrefines⟩ := (refines_hashmapCreate h initialCapacity).run ops
  set map := ((hashmapCreate initialCapacity : Hashmap K V).run h ops).2
  refine ⟨hresults, hrefines.size_eq, map.entries.map fun e => (e.key, e.value), ?_, ?_, ?_⟩
  · rw [pairwise_map]
    refine hrefines.valid.distinct.keys.imp ?_
    intro a b hab heq
    rw [Hashing.cls_eq.1 heq] at hab
    simp at hab
  · intro key v
    rw [hrefines.represents key v]
    constructor
    · rintro ⟨e, he, hkey, rfl⟩
      exact ⟨e.key, Hashing.cls_eq.2 hkey, mem_map.2 ⟨e, he, rfl⟩⟩
    · rintro ⟨k, hk, hmem⟩
      obtain ⟨e, he, heq⟩ := mem_map.1 hmem
      obtain ⟨rfl, rfl⟩ := Prod.mk.inj heq
      exact ⟨e, he, Hashing.cls_eq.1 hk, rfl⟩
  · intro C removes visit c extra
    obtain ⟨map', hloop, hvalid, hentries⟩ :=
      hashmapForEach_visiting (fun _ _ => true) removes visit hrefines.valid c extra
    rw [visited_all] at hloop
    rw [remaining_all] at hentries
    obtain ⟨f', hf'⟩ := exists_represents hvalid.distinct
    refine ⟨map', f', by rw [hloop, foldl_map], ⟨hvalid, hf'⟩, ?_⟩
    intro key v
    rw [hf' key v, hentries]
    constructor
    · rintro ⟨e, he, hkey, rfl⟩
      obtain ⟨he, hkept⟩ := mem_filter.1 he
      exact ⟨e.key, Hashing.cls_eq.2 hkey, mem_map.2 ⟨e, he, rfl⟩, by simpa using hkept⟩
    · rintro ⟨k, hk, hmem, hkept⟩
      obtain ⟨e, he, heq⟩ := mem_map.1 hmem
      obtain ⟨rfl, rfl⟩ := Prod.mk.inj heq
      exact ⟨e, mem_filter.2 ⟨he, by simpa using hkept⟩, Hashing.cls_eq.1 hk, rfl⟩

end AndroidSystem.Cutils
