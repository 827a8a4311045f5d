import AndroidSystem.Utils.BlobCache
import Mathlib.Data.List.Pairwise

/-!
# `BlobCache::set`

The sum of the sizes of all entries (`stored`) and `mTotalSize` differ by a number that `set` and
`clean` do not change, here called the drift `d`. With no drift, `clean` always finds an entry to
remove. With a drift of more than half the limit it removes all entries and then takes a remainder by
zero (`clean_ok`).

`set_cases` says what `set` can do.
-/

namespace AndroidSystem.Utils

open List

variable {a b : Region}

/-! ## The order of the keys -/

theorem memcmpLt_irrefl (l : List UInt8) : memcmpLt l l = false := by
  induction l with
  | nil => rfl
  | cons a l ih => simp [memcmpLt, ih]

theorem memcmpLt_trans {l1 l2 l3 : List UInt8} (h : memcmpLt l1 l2 = true)
    (h' : memcmpLt l2 l3 = true) : memcmpLt l1 l3 = true := by
  induction l1 generalizing l2 l3 with
  | nil => cases l2 <;> cases h
  | cons a l1 ih =>
    cases l2 with
    | nil => cases h
    | cons b l2 =>
      cases l3 with
      | nil => cases h'
      | cons c l3 =>
        simp only [memcmpLt, Bool.or_eq_true, decide_eq_true_eq, Bool.and_eq_true] at h h' ⊢
        obtain hab | ⟨rfl, h⟩ := h
        · obtain hbc | ⟨rfl, -⟩ := h'
          · exact .inl (UInt8.lt_trans hab hbc)
          · exact .inl hab
        · obtain hbc | ⟨rfl, h'⟩ := h'
          · exact .inl hbc
          · exact .inr ⟨rfl, ih h h'⟩

theorem memcmpLt_total {l1 l2 : List UInt8} (hlen : l1.length = l2.length)
    (h : memcmpLt l1 l2 = false) (hne : l1 ≠ l2) : memcmpLt l2 l1 = true := by
  induction l1 generalizing l2 with
  | nil =>
    cases l2 with
    | nil => exact absurd rfl hne
    | cons b l2 => cases hlen
  | cons a l1 ih =>
    cases l2 with
    | nil => cases hlen
    | cons b l2 =>
      simp only [memcmpLt, Bool.or_eq_false_iff, decide_eq_false_iff_not, Bool.or_eq_true,
        decide_eq_true_eq, Bool.and_eq_true] at h ⊢
      by_cases hab : a = b
      · subst hab
        refine .inr ⟨rfl, ih (by simpa using hlen) ?_ ?_⟩
        · simpa using h.2
        · rintro rfl
          exact hne rfl
      · left
        rcases UInt8.lt_or_lt_of_ne hab with hlt | hlt
        · exact absurd hlt h.1
        · exact hlt

theorem blobLt_iff : blobLt a b = true ↔
    a.size < b.size ∨ a.size = b.size ∧ memcmpLt a.bytes b.bytes = true := by
  unfold blobLt
  split_ifs with h
  · simp [h]
  · simp [h]

theorem blobLt_irrefl (a : Region) : blobLt a a = false := by
  simp [blobLt, memcmpLt_irrefl]

theorem blobLt_trans {c : Region} (h : blobLt a b = true) (h' : blobLt b c = true) :
    blobLt a c = true := by
  rw [blobLt_iff] at h h' ⊢
  obtain h | ⟨hsize, h⟩ := h
  · obtain h' | ⟨hsize', -⟩ := h'
    · exact .inl (h.trans h')
    · exact .inl (hsize' ▸ h)
  · obtain h' | ⟨hsize', h'⟩ := h'
    · exact .inl (hsize ▸ h')
    · exact .inr ⟨hsize.trans hsize', memcmpLt_trans h h'⟩

theorem blobLt_total (h : blobLt a b = false) (hne : a ≠ b) : blobLt b a = true := by
  have hnot : ¬blobLt a b = true := by simp [h]
  rw [blobLt_iff, not_or, not_and] at hnot
  rw [blobLt_iff]
  rcases lt_trichotomy a.size b.size with hlt | heq | hgt
  · exact absurd hlt hnot.1
  · refine .inr ⟨heq.symm, memcmpLt_total heq ?_ fun hbytes => hne (Region.ext hbytes)⟩
    simpa using hnot.2 heq
  · exact .inl hgt

theorem blobLt_asymm (h : blobLt a b = true) : blobLt b a = false := by
  cases hba : blobLt b a with
  | false => rfl
  | true =>
    have := blobLt_trans h hba
    rw [blobLt_irrefl] at this
    cases this

theorem ne_of_blobLt (h : blobLt a b = true) : a ≠ b := by
  rintro rfl
  rw [blobLt_irrefl] at h
  cases h

namespace BlobCache

/-! ## The entries -/

/-- The sum of the sizes of all entries. -/
def stored (entries : List (Region × Region)) : Nat := (entries.map entrySize).sum

/-- The entries with an entry added or changed. -/
def put (key value : Region) (entries : List (Region × Region)) : List (Region × Region) :=
  match entries.findIdx? fun e => e.1 = key with
  | none => insertEntry (key, value) entries
  | some i => entries.modify i fun e => (e.1, value)

/-- The keys are in their order. -/
def Sorted (entries : List (Region × Region)) : Prop :=
  entries.Pairwise fun e e' => blobLt e.1 e'.1 = true

section Entries

variable {entries entries' : List (Region × Region)} {e : Region × Region} {key value : Region}
  {i : Nat}

section

variable (e : Region × Region) (entries : List (Region × Region))

theorem stored_cons : stored (e :: entries) = entrySize e + stored entries := by
  simp [stored]

theorem stored_insertEntry : stored (insertEntry e entries) = entrySize e + stored entries := by
  induction entries with
  | nil => rfl
  | cons x l ih =>
    unfold insertEntry
    split_ifs
    · rw [stored_cons]
    · rw [stored_cons, stored_cons]
      omega

end

theorem stored_eraseIdx (h : entries[i]? = some e) :
    entrySize e + stored (entries.eraseIdx i) = stored entries := by
  induction entries generalizing i with
  | nil => cases h
  | cons x l ih =>
    cases i with
    | zero =>
      cases h
      rw [eraseIdx_cons_zero, stored_cons]
    | succ i =>
      have := ih h
      rw [eraseIdx_cons_succ, stored_cons, stored_cons]
      omega

theorem stored_modify (h : entries[i]? = some e) (value : Region) :
    stored (entries.modify i fun e => (e.1, value)) + e.2.size = stored entries + value.size := by
  induction entries generalizing i with
  | nil => cases h
  | cons x l ih =>
    cases i with
    | zero =>
      cases h
      rw [modify_zero_cons, stored_cons, stored_cons]
      unfold entrySize
      dsimp only
      omega
    | succ i =>
      have := ih h
      rw [modify_succ_cons, stored_cons, stored_cons]
      omega

theorem stored_sublist (h : entries'.Sublist entries) : stored entries' ≤ stored entries := by
  induction h with
  | slnil => exact le_rfl
  | cons x _ ih =>
    rw [stored_cons]
    omega
  | cons_cons x _ ih =>
    rw [stored_cons, stored_cons]
    omega

theorem mem_insertEntry :
    e ∈ insertEntry (key, value) entries ↔ e = (key, value) ∨ e ∈ entries := by
  induction entries with
  | nil => simp [insertEntry]
  | cons x l ih =>
    unfold insertEntry
    split_ifs
    · simp
    · simp
      tauto

theorem getElem?_of_findIdx? (h : (entries.findIdx? fun e => e.1 = key) = some i) :
    ∃ value, entries[i]? = some (key, value) := by
  obtain ⟨hlt, hkey, -⟩ := findIdx?_eq_some_iff_getElem.1 h
  refine ⟨(entries.get ⟨i, hlt⟩).2, ?_⟩
  rw [getElem?_eq_getElem hlt]
  simp only [decide_eq_true_eq] at hkey
  rw [← hkey]
  rfl

theorem mem_put (h : e ∈ put key value entries) : e = (key, value) ∨ e ∈ entries := by
  unfold put at h
  split at h
  · exact mem_insertEntry.1 h
  · rename_i i hi
    obtain ⟨v, hv⟩ := getElem?_of_findIdx? hi
    obtain ⟨j, hj⟩ := mem_iff_getElem?.1 h
    rw [getElem?_modify] at hj
    split_ifs at hj with hij
    · subst hij
      rw [hv] at hj
      cases hj
      exact .inl rfl
    · exact .inr (mem_iff_getElem?.2 ⟨j, by simpa using hj⟩)

theorem insertEntry_sorted (h : Sorted entries) (hkey : ∀ e ∈ entries, e.1 ≠ key) :
    Sorted (insertEntry (key, value) entries) := by
  induction entries with
  | nil => exact pairwise_singleton ..
  | cons x l ih =>
    obtain ⟨hx, hl⟩ := pairwise_cons.1 h
    unfold insertEntry
    split_ifs with hlt
    · refine pairwise_cons.2 ⟨?_, h⟩
      intro e he
      obtain rfl | he := mem_cons.1 he
      · exact hlt
      · exact blobLt_trans hlt (hx e he)
    · refine pairwise_cons.2 ⟨?_, ih hl fun e he => hkey e (mem_cons_of_mem _ he)⟩
      intro e he
      obtain rfl | he := mem_insertEntry.1 he
      · exact blobLt_total (by simpa using hlt) (hkey x (by simp)).symm
      · exact hx e he

theorem put_sorted (h : Sorted entries) (key value : Region) : Sorted (put key value entries) := by
  unfold put
  split
  · rename_i hnone
    apply insertEntry_sorted h
    simpa using hnone
  · -- the keys have not changed
    unfold Sorted at h ⊢
    rw [← pairwise_map (R := fun a b => blobLt a b = true)] at h ⊢
    rename_i i _
    have hkeys : (entries.modify i fun e => (e.1, value)).map Prod.fst = entries.map Prod.fst := by
      apply ext_getElem?
      intro j
      rw [getElem?_map, getElem?_map, getElem?_modify]
      split_ifs with hij
      · cases entries[j]? <;> rfl
      · simp
    rwa [hkeys]

end Entries

/-! ## Cleaning -/

/-- The limits of a cache stay the same. -/
structure SameLimits (c c' : BlobCache) : Prop where
  key : c'.maxKeySize = c.maxKeySize
  value : c'.maxValueSize = c.maxValueSize
  total : c'.maxTotalSize = c.maxTotalSize

theorem SameLimits.refl (c : BlobCache) : SameLimits c c := ⟨rfl, rfl, rfl⟩

theorem SameLimits.trans {c c' c'' : BlobCache} (h : SameLimits c c') (h' : SameLimits c' c'') :
    SameLimits c c'' :=
  ⟨h'.key.trans h.key, h'.value.trans h.value, h'.total.trans h.total⟩

/-- Entries have been removed, and there is nothing more to clean. -/
structure Cleaned (d : Nat) (c c' : BlobCache) : Prop where
  limits : SameLimits c c'
  sublist : c'.entries.Sublist c.entries
  total : c'.totalSize = d + stored c'.entries
  half : c'.totalSize ≤ c.maxTotalSize / 2

section Clean

variable {c : BlobCache} {d : Nat}

theorem removeRandom_ok (htotal : c.totalSize = d + stored c.entries) (hlt : c.totalSize < 2 ^ 64)
    (hne : c.entries.length ≠ 0) :
    SameLimits c c.removeRandom ∧ c.removeRandom.entries.Sublist c.entries ∧
      c.removeRandom.entries.length + 1 = c.entries.length ∧
      c.removeRandom.totalSize = d + stored c.removeRandom.entries := by
  have hi : c.rand 0 % c.entries.length < c.entries.length := Nat.mod_lt _ (by omega)
  have hget := getElem?_eq_getElem hi
  have hstored := stored_eraseIdx hget
  refine ⟨⟨rfl, rfl, rfl⟩, eraseIdx_sublist .., ?_, ?_⟩
  · show (c.entries.eraseIdx _).length + 1 = _
    rw [length_eraseIdx_of_lt hi]
    omega
  · show u64OfInt (c.totalSize - ((c.entries[c.rand 0 % c.entries.length]?).map entrySize).getD 0)
      = d + stored (c.entries.eraseIdx _)
    rw [hget, Option.map_some, Option.getD_some]
    unfold u64OfInt
    omega

theorem cleanLoop_ok (n : Nat) (htotal : c.totalSize = d + stored c.entries)
    (hlt : c.totalSize < 2 ^ 64) (hn : c.entries.length < n) :
    (d ≤ c.maxTotalSize / 2 → ∃ c', cleanLoop n c = .ok c' ∧ Cleaned d c c') ∧
      (c.maxTotalSize / 2 < d → cleanLoop n c = .error .divByZero) := by
  induction n generalizing c with
  | zero => omega
  | succ n ih =>
    unfold cleanLoop isCleanable
    by_cases hfull : c.totalSize > c.maxTotalSize / 2
    · rw [if_pos (by simpa using hfull)]
      by_cases hlen : c.entries.length = 0
      · -- all of the total is drift
        have hnil : stored c.entries = 0 := by
          rw [length_eq_zero_iff.1 hlen]
          rfl
        rw [if_pos hlen]
        exact ⟨fun hd => by omega, fun _ => rfl⟩
      · obtain ⟨hlimits, hsub, hlen', htotal'⟩ := removeRandom_ok htotal hlt hlen
        have hle := stored_sublist hsub
        obtain ⟨hok, hfault⟩ := ih htotal' (by omega) (by omega)
        rw [if_neg hlen]
        refine ⟨fun hd => ?_, hfault⟩
        obtain ⟨c', hrun, hclean⟩ := hok hd
        exact ⟨c', hrun, hlimits.trans hclean.limits, hclean.sublist.trans hsub, hclean.total,
          hclean.half⟩
    · rw [if_neg (by simpa using hfull)]
      refine ⟨fun _ => ⟨c, rfl, .refl c, List.Sublist.refl _, htotal, by omega⟩, fun hd => ?_⟩
      omega

/-- `clean` comes to an end unless there is too much drift. -/
theorem clean_ok (htotal : c.totalSize = d + stored c.entries) (hlt : c.totalSize < 2 ^ 64) :
    (d ≤ c.maxTotalSize / 2 → ∃ c', c.clean = .ok c' ∧ Cleaned d c c') ∧
      (c.maxTotalSize / 2 < d → c.clean = .error .divByZero) :=
  cleanLoop_ok _ htotal hlt (Nat.lt_succ_self _)

end Clean

/-! ## `set` -/

/-- The cache with other entries, and a total that is a drift above them. -/
def refill (c : BlobCache) (d : Nat) (entries : List (Region × Region)) : BlobCache :=
  { c with totalSize := d + stored entries, entries }

section Set

variable {c : BlobCache} {d : Nat} {key value : Region}

/-- What the checks say, for sizes whose sum is a `size_t`. -/
theorem admits_iff {keySize valueSize : Nat} (h : keySize + valueSize < 2 ^ 64) :
    c.admits keySize valueSize = true ↔ keySize ≤ c.maxKeySize ∧ valueSize ≤ c.maxValueSize ∧
      keySize + valueSize ≤ c.maxTotalSize ∧ 0 < keySize ∧ 0 < valueSize := by
  unfold admits
  rw [u64_of_lt h]
  simp
  omega

section

variable (htotal : c.totalSize = d + stored c.entries) (hlt : c.totalSize < 2 ^ 63)
  (hsize : key.size + value.size < 2 ^ 63)
include htotal hlt hsize

theorem update_eq :
    c.update key value = (d + stored (put key value c.entries), put key value c.entries) := by
  unfold update put indexOf
  cases hidx : c.entries.findIdx? fun e => e.1 = key with
  | none =>
    dsimp only
    rw [stored_insertEntry, u64_of_lt (by omega)]
    unfold entrySize
    congr 1
    dsimp only
    omega
  | some i =>
    obtain ⟨v, hv⟩ := getElem?_of_findIdx? hidx
    have hmodify := stored_modify hv value
    have herase := stored_eraseIdx hv
    dsimp only at hmodify herase ⊢
    rw [hv, Option.map_some, Option.getD_some]
    congr 1
    unfold u64OfInt
    dsimp only
    omega

/-- What `set` can do with a key and a value that pass its checks. -/
theorem set_cases :
    (d + stored (put key value c.entries) ≤ c.maxTotalSize ∧
      setLoop 2 c key value = .ok (c.refill d (put key value c.entries))) ∨
    c.maxTotalSize < d + stored (put key value c.entries) ∧
      (c.totalSize ≤ c.maxTotalSize / 2 ∧ setLoop 2 c key value = .ok c ∨
      c.maxTotalSize / 2 < c.totalSize ∧ c.maxTotalSize / 2 < d ∧
        setLoop 2 c key value = .error .divByZero ∨
      c.maxTotalSize / 2 < c.totalSize ∧ ∃ c1 c', Cleaned d c c1 ∧ setLoop 2 c key value = .ok c' ∧
        (c' = c1 ∨ d + stored (put key value c1.entries) ≤ c1.maxTotalSize ∧
          c' = c1.refill d (put key value c1.entries))) := by
  have hpass : ∀ n {c : BlobCache}, c.totalSize = d + stored c.entries → c.totalSize < 2 ^ 63 →
      setLoop (n + 1) c key value =
        if c.maxTotalSize < d + stored (put key value c.entries) then
          if c.isCleanable then c.clean >>= fun c => setLoop n c key value else .ok c
        else .ok (c.refill d (put key value c.entries)) := by
    intro n c htotal hlt
    rw [setLoop, update_eq htotal hlt hsize]
    rfl
  rw [hpass 1 htotal hlt]
  by_cases hfits : c.maxTotalSize < d + stored (put key value c.entries)
  · right
    refine ⟨hfits, ?_⟩
    rw [if_pos hfits]
    by_cases hfull : c.maxTotalSize / 2 < c.totalSize
    · right
      rw [if_pos (by simpa [isCleanable] using hfull)]
      obtain ⟨hok, hfault⟩ := clean_ok htotal (by omega)
      by_cases hd : c.maxTotalSize / 2 < d
      · left
        rw [hfault hd]
        exact ⟨hfull, hd, rfl⟩
      · right
        obtain ⟨c1, hclean, hcleaned⟩ := hok (by omega)
        have hhalf := hcleaned.half
        rw [hclean]
        -- the second pass does not clean again
        have hsecond : setLoop 1 c1 key value =
            if c1.maxTotalSize < d + stored (put key value c1.entries) then .ok c1
            else .ok (c1.refill d (put key value c1.entries)) := by
          have hnot : ¬c1.isCleanable = true := by
            simpa [isCleanable, hcleaned.limits.total] using hhalf
          rw [hpass 0 hcleaned.total (by omega), if_neg hnot]
        show _ ∧ ∃ c1 c', _ ∧ setLoop 1 _ key value = _ ∧ _
        refine ⟨hfull, c1, ?_⟩
        rw [hsecond]
        split_ifs with hfits1
        · exact ⟨c1, hcleaned, rfl, .inl rfl⟩
        · exact ⟨_, hcleaned, rfl, .inr ⟨by omega, rfl⟩⟩
    · left
      rw [if_neg (by simpa [isCleanable] using hfull)]
      exact ⟨by omega, rfl⟩
  · left
    rw [if_neg hfits]
    exact ⟨by omega, rfl⟩

/-- What a call of `set` that returns has done: it may clean, and then it may put the entry. -/
theorem set_returns {c' : BlobCache} (hset : setLoop 2 c key value = .ok c') :
    ∃ c1, (c1 = c ∨ Cleaned d c c1) ∧ (c' = c1 ∨ d + stored (put key value c1.entries) ≤ c1.maxTotalSize ∧
      c' = c1.refill d (put key value c1.entries)) := by
  obtain ⟨hfits, hrun⟩ | ⟨-, ⟨-, hrun⟩ | ⟨-, -, hrun⟩ | ⟨-, c1, c2, hclean, hrun, hc2⟩⟩ :=
    set_cases htotal hlt hsize
  all_goals
    rw [hset] at hrun
    cases hrun
  · exact ⟨c, .inl rfl, .inr ⟨hfits, rfl⟩⟩
  · exact ⟨c, .inl rfl, .inl rfl⟩
  · exact ⟨c1, .inr hclean, hc2⟩

end

end Set

end BlobCache

end AndroidSystem.Utils
