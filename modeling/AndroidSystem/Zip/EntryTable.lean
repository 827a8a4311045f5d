import AndroidSystem.Lib.PowerOfTwo
import AndroidSystem.Lib.Probe
import AndroidSystem.Zip.EntryName

/-!
# The table of entries

The table of an archive is a hash table with linear probing, made with room for all entries and at
least one free slot. `Table` says which entries are in it: every entry is reached from the hash of its
name without meeting a free slot.

A search ends at the first slot that is free or has the name, so it finds the names of the entries and
no others (`Table.search`), and `AddToHash` keeps the invariant (`Table.add`).
-/

namespace AndroidSystem.Zip

open List

/-! ## The size of the table -/

theorem roundUpPower2_eq {val : Nat} (h : 0 < val) (hval : val ≤ 2 ^ 31) :
    roundUpPower2 val = 2 ^ (val - 1).size := by
  have hsub : u32OfInt ((val : Int) - 1) = val - 1 := by
    unfold u32OfInt
    omega
  have hsize : (val - 1).size ≤ 31 := Nat.size_le.2 (by omega)
  have hpow : 2 ^ (val - 1).size ≤ 2 ^ 31 := Nat.pow_le_pow_right two_pos hsize
  have hpos : 0 < 2 ^ (val - 1).size := Nat.two_pow_pos _
  have hsmeared := (Smeared.one (val - 1)).double.double.double.double.double
  have heq := hsmeared.eq (by omega)
  unfold roundUpPower2
  rw [hsub]
  dsimp only
  rw [heq, u32_of_lt (by omega)]
  omega

theorem length_newHashTable {numEntries : Nat} (h : numEntries < 2 ^ 16) :
    ∃ k, (newHashTable numEntries).length = 2 ^ k ∧ numEntries < 2 ^ k := by
  refine ⟨(1 + numEntries * 4 / 3 - 1).size, ?_, ?_⟩
  · unfold newHashTable
    rw [length_replicate, roundUpPower2_eq (by omega) (by omega)]
  · have := Nat.lt_size_self (1 + numEntries * 4 / 3 - 1)
    omega

/-! ## Searching -/

/-- The bytes of a name in the directory. -/
def ZipEntryName.bytes (cd : Region) (e : ZipEntryName) : List UInt8 :=
  (cd.bytes.drop e.name).take e.nameLength

/-- A name in the directory. -/
def ZipEntryName.Inside (cd : Region) (e : ZipEntryName) : Prop := e.name + e.nameLength ≤ cd.size

/-- A slot at which a search for a name ends. -/
def Stops (cd : Region) (T : HashTable) (name : List UInt8) (i : Nat) : Prop :=
  T[i]? = some none ∨ ∃ e, T[i]? = some (some e) ∧ e.bytes cd = name

section Search

variable {cd : Region} {T : HashTable} {name : List UInt8} {e : ZipEntryName}

theorem ZipEntryName.Inside.read (h : e.Inside cd) :
    ∃ b, cd.read e.name e.nameLength = some b ∧ b.bytes = e.bytes cd ∧ b.size = e.nameLength := by
  obtain ⟨b, hb⟩ := Option.isSome_iff_exists.1 (Region.read_isSome.2 h)
  obtain ⟨-, hsize, hbytes⟩ := Region.read_size hb
  exact ⟨b, hb, hbytes, hsize⟩

theorem ZipEntryName.Inside.length (h : e.Inside cd) : (e.bytes cd).length = e.nameLength := by
  obtain ⟨b, -, hbytes, hsize⟩ := h.read
  rw [← hbytes]
  exact hsize

theorem and_mask {n k : Nat} (h : n = 2 ^ k) (x : Nat) : x &&& (n - 1) = x % n := by
  rw [h, Nat.and_two_pow_sub_one_eq_mod]

/-- A search from probe `j` on ends at the first slot that stops it. -/
def EndsSearch (cd : Region) (T : List (Option ZipEntryName)) (name : List UInt8) (h j : Nat)
    (run : Run (Nat × Bool)) : Prop :=
  ∃ l found, run = .ok (probe T.length h 1 (j + l), found) ∧
    (∀ m < l, ¬Stops cd T name (probe T.length h 1 (j + m))) ∧
    ((found = false ∧ T[probe T.length h 1 (j + l)]? = some none) ∨
      (found = true ∧ ∃ e, T[probe T.length h 1 (j + l)]? = some (some e) ∧ e.bytes cd = name))

/-- The loop goes to the first slot at which the search ends. -/
theorem searchLoop_spec {k h : Nat} (hT : T.length = 2 ^ k)
    (hinside : ∀ e, some e ∈ T → e.Inside cd) {n j : Nat}
    (hstops : ∃ l < n, Stops cd T name (probe T.length h 1 (j + l))) :
    EndsSearch cd T name h j (searchLoop cd T name n (probe T.length h 1 j)) := by
  have hpos : 0 < T.length := hT ▸ Nat.two_pow_pos k
  have hnext : ∀ i, (probe T.length h 1 i + 1) &&& (T.length - 1) = probe T.length h 1 (i + 1) :=
    fun i => (and_mask hT _).trans (probe_succ T.length h 1 i)
  induction n generalizing j with
  | zero =>
    omega
  | succ n ih =>
    obtain ⟨slot, hslot⟩ : ∃ slot, T[probe T.length h 1 j]? = some slot :=
      ⟨_, getElem?_eq_getElem (probe_lt hpos h 1 j)⟩
    -- the rest of the search, if it does not end here
    have hrest (hnot : ¬Stops cd T name (probe T.length h 1 j)) :
        EndsSearch cd T name h j (searchLoop cd T name n (probe T.length h 1 (j + 1))) := by
      obtain ⟨l, found, hrun, hbefore, hend⟩ := ih (by
        obtain ⟨l, hl, hstop⟩ := hstops
        cases l with
        | zero => exact absurd hstop hnot
        | succ l => exact ⟨l, by omega, by rwa [show j + 1 + l = j + (l + 1) by omega]⟩)
      rw [show j + 1 + l = j + (l + 1) by omega] at hrun hend
      refine ⟨l + 1, found, hrun, ?_, hend⟩
      intro m hm
      cases m with
      | zero => exact hnot
      | succ m =>
        rw [show j + (m + 1) = j + 1 + m by omega]
        exact hbefore m (by omega)
    unfold searchLoop
    rw [hslot]
    cases slot with
    | none => exact ⟨0, false, rfl, by simp, .inl ⟨rfl, hslot⟩⟩
    | some e =>
      obtain ⟨b, hb, hbytes, hsize⟩ := (hinside e (mem_of_getElem? hslot)).read
      show EndsSearch cd T name h j (if e.nameLength = name.length then _ else _)
      have hstops_iff : Stops cd T name (probe T.length h 1 j) ↔ e.bytes cd = name := by
        unfold Stops
        rw [hslot]
        simp
      by_cases hlen : e.nameLength = name.length
      · rw [if_pos hlen, hb]
        show EndsSearch cd T name h j (if b.bytes = name then _ else _)
        rw [hbytes]
        by_cases hname : e.bytes cd = name
        · rw [if_pos hname]
          exact ⟨0, true, rfl, by simp, .inr ⟨rfl, e, hslot, hname⟩⟩
        · rw [if_neg hname, hnext]
          exact hrest (fun hstop => hname (hstops_iff.1 hstop))
      · rw [if_neg hlen, hnext]
        refine hrest (fun hstop => hlen ?_)
        rw [← hsize, ← hstops_iff.1 hstop, ← hbytes]
        rfl

/-! ## The invariant -/

/-- The entries in a table. -/
structure Table (cd : Region) (T : HashTable) (names : List ZipEntryName) : Prop where
  size : ∃ k, T.length = 2 ^ k
  inside : ∀ e ∈ names, e.Inside cd
  slots : ∀ e, some e ∈ T ↔ e ∈ names
  count : T.countP Option.isSome = names.length
  distinct : (names.map (ZipEntryName.bytes cd)).Nodup
  /-- No free slot is on the way to an entry. -/
  path : ∀ {i e}, T[i]? = some (some e) → ∃ k, probe T.length (computeHash (e.bytes cd)) 1 k = i ∧
    ∀ l < k, T[probe T.length (computeHash (e.bytes cd)) 1 l]? ≠ some none

variable {names : List ZipEntryName}

theorem Table.empty {n k : Nat} (h : n = 2 ^ k) : Table cd (replicate n none) [] where
  size := ⟨k, by rw [length_replicate, h]⟩
  inside := by simp
  slots := by simp
  count := by simp
  distinct := nodup_nil
  path := by
    intro i e hi
    have := mem_of_getElem? hi
    simp at this

section

variable (h : Table cd T names) (hroom : names.length < T.length)
include h hroom

/-- A table that is not full has a slot at which any search ends. -/
theorem Table.exists_free (start : Nat) :
    ∃ k < T.length, T[probe T.length start 1 k]? = some none := by
  have hnone : ∃ slot ∈ T, slot.isSome = false := by
    by_contra hall
    simp only [not_exists, not_and, Bool.not_eq_false] at hall
    have := countP_eq_length.2 hall
    have := h.count
    omega
  obtain ⟨slot, hslot, hfree⟩ := hnone
  obtain ⟨i, hi⟩ := mem_iff_getElem?.1 hslot
  have hlt : i < T.length := (List.getElem?_eq_some_iff.1 hi).1
  obtain ⟨k, hk, rfl⟩ := exists_probe (Nat.coprime_one_right _) (by omega) start hlt
  refine ⟨k, hk, ?_⟩
  rw [hi]
  simpa using hfree

theorem Table.search (name : List UInt8) :
    (∃ i e, search cd T name = .ok (i, true) ∧ T[i]? = some (some e) ∧ e ∈ names ∧
      e.bytes cd = name) ∨
    (∃ k, search cd T name = .ok (probe T.length (computeHash name) 1 k, false) ∧
      T[probe T.length (computeHash name) 1 k]? = some none ∧
      (∀ l < k, T[probe T.length (computeHash name) 1 l]? ≠ some none) ∧
      name ∉ names.map (ZipEntryName.bytes cd)) := by
  obtain ⟨p, hp⟩ := h.size
  have hinside : ∀ e, some e ∈ T → e.Inside cd := fun e he => h.inside e ((h.slots e).1 he)
  have hstart : computeHash name &&& (T.length - 1) = probe T.length (computeHash name) 1 0 := by
    rw [and_mask hp]
    unfold probe
    simp
  obtain ⟨k, hk, hfree⟩ := h.exists_free hroom (computeHash name)
  obtain ⟨l, found, hrun, hbefore, hend⟩ := searchLoop_spec hp hinside
    ⟨k, hk, .inl (by rwa [zero_add])⟩
  have hrun' : Zip.search cd T name = .ok (probe T.length (computeHash name) 1 l, found) := by
    unfold Zip.search
    rw [hstart, hrun, zero_add]
  simp only [zero_add] at hbefore hend
  obtain ⟨rfl, hslot⟩ | ⟨rfl, e, hslot, hname⟩ := hend
  · refine .inr ⟨l, hrun', hslot, fun m hm hnone => hbefore m hm (.inl hnone), ?_⟩
    -- an entry with this name would be on the way, before the free slot
    intro hmem
    obtain ⟨e, he, hname⟩ := mem_map.1 hmem
    obtain ⟨i, hi⟩ := mem_iff_getElem?.1 ((h.slots e).2 he)
    obtain ⟨m, hm, hpath⟩ := h.path hi
    rw [hname] at hm hpath
    obtain hlt | rfl | hgt := lt_trichotomy m l
    · exact hbefore m hlt (.inr ⟨e, by rwa [hm], hname⟩)
    · rw [hm, hi] at hslot
      cases hslot
    · exact hpath l hgt hslot
  · exact .inl ⟨_, e, hrun', hslot, (h.slots e).1 (mem_of_getElem? hslot), hname⟩

theorem Table.add (he : e.Inside cd) :
    (e.bytes cd ∈ names.map (ZipEntryName.bytes cd) ∧
      addToHash cd T e = fail .duplicateEntry) ∨
    (e.bytes cd ∉ names.map (ZipEntryName.bytes cd) ∧
      ∃ T', addToHash cd T e = .ok T' ∧ T'.length = T.length ∧ Table cd T' (names ++ [e])) := by
  obtain ⟨b, hb, hbytes, -⟩ := he.read
  unfold addToHash
  rw [hb]
  show _ ∧ (Zip.search cd T b.bytes >>= _) = _ ∨ _ ∧ ∃ T', (Zip.search cd T b.bytes >>= _) = _ ∧ _
  rw [hbytes]
  obtain ⟨i, e', hrun, -, he', hname⟩ | ⟨k, hrun, hfree, hbefore, hnew⟩ :=
    h.search hroom (e.bytes cd)
  · refine .inl ⟨mem_map.2 ⟨e', he', hname⟩, ?_⟩
    rw [hrun]
    rfl
  · refine .inr ⟨hnew, T.set (probe T.length (computeHash (e.bytes cd)) 1 k) (some e), ?_, ?_, ?_⟩
    · rw [hrun]
      rfl
    · exact length_set
    · generalize hi : probe T.length (computeHash (e.bytes cd)) 1 k = i at *
      obtain ⟨hlt, hget⟩ := List.getElem?_eq_some_iff.1 hfree
      have hset : ∀ {j}, (T.set i (some e))[j]? = if i = j then some (some e) else T[j]? := by
        intro j
        rw [getElem?_set, if_pos hlt]
      have hused : ∀ {j : Nat}, T[j]? ≠ some none → (T.set i (some e))[j]? ≠ some none := by
        intro j hj
        rw [hset]
        split_ifs
        · simp
        · exact hj
      refine ⟨by rw [length_set]; exact h.size, ?_, ?_, ?_, ?_, ?_⟩
      · intro e' hmem
        obtain hmem | hmem := mem_append.1 hmem
        · exact h.inside e' hmem
        · rw [mem_singleton.1 hmem]
          exact he
      · intro e'
        rw [mem_append, mem_singleton, ← h.slots, mem_iff_getElem?]
        constructor
        · rintro ⟨j, hj⟩
          rw [hset] at hj
          split_ifs at hj with hij
          · cases hj
            exact .inr rfl
          · exact .inl (mem_of_getElem? hj)
        · rintro (hmem | rfl)
          · obtain ⟨j, hj⟩ := mem_iff_getElem?.1 hmem
            refine ⟨j, ?_⟩
            rw [hset, if_neg, hj]
            rintro rfl
            rw [hfree] at hj
            cases hj
          · exact ⟨i, by rw [hset, if_pos rfl]⟩
      · rw [countP_set hlt, hget, h.count, length_append]
        rfl
      · rw [map_append, nodup_append]
        refine ⟨h.distinct, nodup_singleton _, ?_⟩
        intro a ha b hb
        rw [map_singleton, mem_singleton] at hb
        rw [hb]
        rintro rfl
        exact hnew ha
      · intro j e' hj
        rw [length_set]
        rw [hset] at hj
        split_ifs at hj with hij
        · cases hj
          exact ⟨k, hi.trans hij, fun l hl => hused (hbefore l hl)⟩
        · obtain ⟨m, hm, hpath⟩ := h.path hj
          exact ⟨m, hm, fun l hl => hused (hpath l hl)⟩

end

end Search

end AndroidSystem.Zip
