import AndroidSystem.Cutils.Hashmap
import AndroidSystem.Lib.Buckets
import Mathlib.Data.List.TakeDrop
import Mathlib.Data.List.TakeWhile

/-!
# The entries of a hash map

The invariant of a map, and what each operation does to the list of its entries. Every entry is in the
bucket of its hash code, and no two entries have equal keys. So the loop over one chain finds the only
entry of a key, and an expansion only changes the order of the entries.
-/

namespace AndroidSystem.Cutils

open List Buckets

variable {K V : Type} {h : Hashing K} {map : Hashmap K V}

variable {e : Entry K V} {i n : Nat} {key : K} {l before after : List (Entry K V)}

variable {a b : K} {l' chain : List (Entry K V)} {buckets : List (List (Entry K V))}

/-! ## The invariant -/

/-- The entries have different keys and addresses. -/
structure Distinct (h : Hashing K) (entries : List (Entry K V)) : Prop where
  keys : entries.Pairwise fun a b => h.equals a.key b.key = false
  addrs : entries.Pairwise fun a b => a.addr ≠ b.addr

structure Hashmap.Valid (h : Hashing K) (map : Hashmap K V) : Prop where
  bucketCount_pos : 0 < map.bucketCount
  placed : ∀ i, ∀ e ∈ map.chain i,
    e.hash = hashKey h e.key ∧ calculateIndex map.bucketCount e.hash = i
  distinct : Distinct h map.entries
  size_eq : map.size = map.entries.length
  addr_lt : ∀ e ∈ map.entries, e.addr < map.fresh

open Hashmap

theorem Hashing.equals_false_symm (h : Hashing K) (hab : h.equals a b = false) :
    h.equals b a = false := by
  rw [Bool.eq_false_iff] at hab ⊢
  intro hba
  exact hab (h.equals_symm hba)

theorem Distinct.perm (hl : Distinct h l) (hperm : l ~ l') : Distinct h l' :=
  ⟨hl.keys.perm hperm fun hab => h.equals_false_symm hab, hl.addrs.perm hperm fun hab => Ne.symm hab⟩

theorem Distinct.sublist (hl : Distinct h l) (hsub : l' <+ l) : Distinct h l' :=
  ⟨hl.keys.sublist hsub, hl.addrs.sublist hsub⟩

theorem distinct_cons :
    Distinct h (e :: l) ↔
      (∀ a ∈ l, h.equals e.key a.key = false) ∧ (∀ a ∈ l, e.addr ≠ a.addr) ∧ Distinct h l := by
  constructor
  · intro hl
    have hkeys := pairwise_cons.1 hl.keys
    have haddrs := pairwise_cons.1 hl.addrs
    exact ⟨hkeys.1, haddrs.1, hkeys.2, haddrs.2⟩
  · rintro ⟨hkeys, haddrs, hl⟩
    exact ⟨pairwise_cons.2 ⟨hkeys, hl.keys⟩, pairwise_cons.2 ⟨haddrs, hl.addrs⟩⟩

theorem calculateIndex_lt (hn : 0 < n) (hash : Int32) : calculateIndex n hash < n := by
  have hle : calculateIndex n hash ≤ n - 1 := Nat.and_le_right
  omega

theorem Hashmap.entries_eq (hi : i < map.bucketCount) :
    map.entries = itemsBefore map.buckets i ++ map.chain i ++ itemsAfter map.buckets i :=
  flatten_eq hi

/-! ## Creation -/

theorem doubleBuckets_pos (minimum : Nat) (n : Nat) {count : Nat} (hcount : 0 < count) :
    0 < doubleBuckets minimum n count := by
  induction n generalizing count with
  | zero => exact hcount
  | succ n ih =>
    rw [doubleBuckets]
    split_ifs
    · exact ih (by rw [Nat.shiftLeft_eq]; omega)
    · exact hcount

theorem entries_hashmapCreate (initialCapacity : Nat) :
    (hashmapCreate initialCapacity : Hashmap K V).entries = [] :=
  flatten_replicate_nil

theorem valid_hashmapCreate (h : Hashing K) (initialCapacity : Nat) :
    (hashmapCreate initialCapacity : Hashmap K V).Valid h where
  bucketCount_pos := by
    rw [bucketCount, hashmapCreate, length_replicate]
    exact doubleBuckets_pos _ _ one_pos
  placed := by
    intro i e he
    rw [Hashmap.chain, hashmapCreate, getD_eq_getElem?_getD, getElem?_replicate] at he
    split_ifs at he <;> simp at he
  distinct := by
    rw [entries_hashmapCreate]
    exact ⟨.nil, .nil⟩
  size_eq := by
    rw [entries_hashmapCreate]
    rfl
  addr_lt := by
    rw [entries_hashmapCreate]
    simp

/-! ## Expansion -/

/-- The entries of new buckets are in their places. -/
def Placed (newBucketCount : Nat) (buckets : List (List (Entry K V))) : Prop :=
  buckets.length = newBucketCount ∧
    ∀ i, ∀ e ∈ buckets.getD i [], calculateIndex newBucketCount e.hash = i

theorem Placed.relink (hn : 0 < n) (hb : Placed n buckets) (e : Entry K V) :
    Placed n (relink n buckets e) ∧ (relink n buckets e).flatten ~ e :: buckets.flatten := by
  have hlt : calculateIndex n e.hash < buckets.length := hb.1 ▸ calculateIndex_lt hn e.hash
  refine ⟨⟨?_, ?_⟩, flatten_modify_cons hlt e⟩
  · rw [Cutils.relink, length_modify, hb.1]
  · intro i a ha
    obtain ⟨rfl, rfl⟩ | ha := mem_getD_modify_cons hlt ha
    · rfl
    · exact hb.2 i a ha

theorem Placed.foldl_relink (hn : 0 < n) (l : List (Entry K V)) (hb : Placed n buckets) :
    Placed n (l.foldl (Cutils.relink n) buckets) ∧
      (l.foldl (Cutils.relink n) buckets).flatten ~ l ++ buckets.flatten := by
  induction l generalizing buckets with
  | nil => exact ⟨hb, .refl _⟩
  | cons e l ih =>
    obtain ⟨hnext, hperm⟩ := hb.relink hn e
    obtain ⟨hrest, hrestPerm⟩ := ih hnext
    refine ⟨hrest, hrestPerm.trans ?_⟩
    exact (hperm.append_left l).trans perm_middle

theorem valid_expandIfNecessary (hmap : map.Valid h) :
    (expandIfNecessary map).Valid h ∧ (expandIfNecessary map).entries ~ map.entries := by
  by_cases hload : map.size > map.bucketCount * 3 / 4
  · have hn : 0 < map.bucketCount <<< 1 := by
      have := hmap.bucketCount_pos
      omega
    have hempty : Placed (K := K) (V := V) (map.bucketCount <<< 1)
        (replicate (map.bucketCount <<< 1) []) := by
      refine ⟨length_replicate, ?_⟩
      intro i e he
      rw [getD_eq_getElem?_getD, getElem?_replicate] at he
      split_ifs at he <;> simp at he
    obtain ⟨hplaced, hperm⟩ := hempty.foldl_relink hn map.entries
    rw [flatten_replicate_nil, append_nil] at hperm
    have hbuckets : (expandIfNecessary map).buckets =
        map.entries.foldl (relink (map.bucketCount <<< 1)) (replicate (map.bucketCount <<< 1) []) := by
      rw [expandIfNecessary, if_pos hload, entries, foldl_flatten]
    have hentries : (expandIfNecessary map).entries ~ map.entries := by
      rw [entries, hbuckets]
      exact hperm
    have hcount : (expandIfNecessary map).bucketCount = map.bucketCount <<< 1 := by
      rw [bucketCount, hbuckets, hplaced.1]
    have hsize : (expandIfNecessary map).size = map.size := by
      rw [expandIfNecessary, if_pos hload]
    have hfresh : (expandIfNecessary map).fresh = map.fresh := by
      rw [expandIfNecessary, if_pos hload]
    refine ⟨⟨hcount ▸ hn, ?_, hmap.distinct.perm hentries.symm, ?_, ?_⟩, hentries⟩
    · intro i e he
      have hi : i < (expandIfNecessary map).bucketCount := by
        by_contra hge
        rw [Hashmap.chain, getD_eq_default _ _ (not_lt.1 hge)] at he
        simp at he
      have hmem : e ∈ map.entries := hentries.subset (mem_flatten_iff.2 ⟨i, hi, he⟩)
      obtain ⟨j, -, hj⟩ := mem_flatten_iff.1 hmem
      refine ⟨(hmap.placed j e hj).1, ?_⟩
      rw [hcount]
      exact hplaced.2 i e (by rwa [Hashmap.chain, hbuckets] at he)
    · rw [hsize, hmap.size_eq, hentries.length_eq]
    · intro e he
      rw [hfresh]
      exact hmap.addr_lt e (hentries.subset he)
  · rw [expandIfNecessary, if_neg hload]
    exact ⟨hmap, .refl _⟩

/-! ## The walk along a chain -/

theorem hashKey_eq (hab : h.equals a b = true) : hashKey h a = hashKey h b := h.hash_eq hab

theorem Hashmap.Valid.indexOf_lt (hmap : map.Valid h) (key : K) :
    indexOf h map key < map.bucketCount :=
  calculateIndex_lt hmap.bucketCount_pos _

theorem Hashmap.Valid.indexOf_eq (hmap : map.Valid h) (he : e ∈ map.chain i)
    (hkey : h.equals e.key key = true) : indexOf h map key = i := by
  obtain ⟨hhash, hi⟩ := hmap.placed i e he
  rw [indexOf, ← hashKey_eq hkey, ← hhash, hi]

section

variable [DecidableEq K]

theorem equalKeys_eq (a b : K) : equalKeys h a (hashKey h a) b (hashKey h b) = h.equals a b := by
  rw [equalKeys]
  split_ifs with heq hhash
  · rw [heq, h.equals_refl]
  · by_contra hab
    rw [eq_comm, Bool.not_eq_false] at hab
    exact hhash (hashKey_eq hab)
  · rfl

theorem walk_append (hhash : ∀ a ∈ before ++ e :: after, a.hash = hashKey h a.key)
    (hbefore : ∀ a ∈ before, h.equals a.key key = false) (he : h.equals e.key key = true) :
    walk h key (before ++ e :: after) = (before, e :: after) := by
  have hmiss : ∀ a ∈ before, (!equalKeys h a.key a.hash key (hashKey h key)) = true := by
    intro a ha
    rw [hhash a (mem_append_left _ ha), equalKeys_eq, hbefore a ha, Bool.not_false]
  have hhit : (!equalKeys h e.key e.hash key (hashKey h key)) = false := by
    rw [hhash e (by simp), equalKeys_eq, he, Bool.not_true]
  rw [walk, span_eq_takeWhile_dropWhile, takeWhile_append_of_pos hmiss, dropWhile_append_of_pos hmiss,
    takeWhile_cons_of_neg (by simp [hhit]), dropWhile_cons_of_neg (by simp [hhit]), append_nil]

theorem walk_absent (hhash : ∀ a ∈ chain, a.hash = hashKey h a.key)
    (habsent : ∀ a ∈ chain, h.equals a.key key = false) : walk h key chain = (chain, []) := by
  have hmiss : ∀ a ∈ chain, (!equalKeys h a.key a.hash key (hashKey h key)) = true := by
    intro a ha
    rw [hhash a ha, equalKeys_eq, habsent a ha, Bool.not_false]
  rw [walk, span_eq_takeWhile_dropWhile, takeWhile_eq_self_iff.2 hmiss, dropWhile_eq_nil_iff.2 hmiss]

/-- Either no entry of the map has the key, or the walk comes to the one that has it. -/
theorem Hashmap.Valid.walk_cases (hmap : map.Valid h) (key : K) :
    ((∀ e ∈ map.entries, h.equals e.key key = false) ∧
      (walk h key (map.chain (indexOf h map key))).2 = []) ∨
    ∃ before e after, map.chain (indexOf h map key) = before ++ e :: after ∧
      h.equals e.key key = true ∧
      walk h key (map.chain (indexOf h map key)) = (before, e :: after) := by
  have hhash : ∀ a ∈ map.chain (indexOf h map key), a.hash = hashKey h a.key :=
    fun a ha => (hmap.placed _ a ha).1
  by_cases hfound : ∃ e ∈ map.chain (indexOf h map key), h.equals e.key key = true
  · right
    obtain ⟨e, he, hkey⟩ := hfound
    obtain ⟨before, after, hsplit⟩ := append_of_mem he
    refine ⟨before, e, after, hsplit, hkey, ?_⟩
    have hsub : before ++ e :: after <+ map.entries := by
      rw [← hsplit, entries_eq (hmap.indexOf_lt key)]
      exact (sublist_append_right _ _).trans (sublist_append_left _ _)
    have hdistinct := (pairwise_append.1 (hmap.distinct.sublist hsub).keys).2.2
    rw [hsplit] at hhash ⊢
    refine walk_append hhash ?_ hkey
    intro a ha
    -- An earlier entry with the key would have the key of `e`.
    rw [Bool.eq_false_iff]
    intro hakey
    have heq := h.equals_trans hakey (h.equals_symm hkey)
    exact Bool.false_ne_true ((hdistinct a ha e mem_cons_self).symm.trans heq)
  · left
    have habsent : ∀ a ∈ map.chain (indexOf h map key), h.equals a.key key = false := by
      intro a ha
      rw [Bool.eq_false_iff]
      exact fun hakey => hfound ⟨a, ha, hakey⟩
    refine ⟨?_, by rw [walk_absent hhash habsent]⟩
    intro e he
    rw [Bool.eq_false_iff]
    intro hkey
    obtain ⟨i, -, hi⟩ := mem_flatten_iff.1 he
    rw [hmap.indexOf_eq hi hkey] at hfound
    exact hfound ⟨e, hi, hkey⟩

end

/-! ## Replacing a chain -/

section

variable (hmap : map.Valid h) (hi : i < map.bucketCount)
include hmap hi

theorem Hashmap.Valid.set {size fresh : Nat}
    (hplaced : ∀ e ∈ chain, e.hash = hashKey h e.key ∧ calculateIndex map.bucketCount e.hash = i)
    (hdistinct : Distinct h (map.buckets.set i chain).flatten)
    (hsize : size = (map.buckets.set i chain).flatten.length)
    (hfresh : ∀ e ∈ (map.buckets.set i chain).flatten, e.addr < fresh) :
    Valid h ⟨map.buckets.set i chain, size, fresh⟩ where
  bucketCount_pos := by
    rw [bucketCount, length_set]
    exact hmap.bucketCount_pos
  placed := by
    intro j e he
    rw [Hashmap.chain, getD_set hi] at he
    rw [bucketCount, length_set]
    split_ifs at he with hj
    · rw [hj]
      exact hplaced e he
    · exact hmap.placed j e he
  distinct := hdistinct
  size_eq := hsize
  addr_lt := hfresh

theorem Hashmap.Valid.remove (hsplit : map.chain i = before ++ e :: after) :
    Valid h ⟨map.buckets.set i (before ++ after), map.size - 1, map.fresh⟩ ∧
      map.entries ~ e :: (map.buckets.set i (before ++ after)).flatten := by
  have hperm : map.entries ~ e :: (map.buckets.set i (before ++ after)).flatten := by
    rw [entries, flatten_eq_of_split hi hsplit]
    exact flatten_set_middle hi before after e
  have hdistinct := distinct_cons.1 (hmap.distinct.perm hperm)
  refine ⟨hmap.set hi ?_ hdistinct.2.2 ?_ ?_, hperm⟩
  · intro a ha
    refine hmap.placed i a ?_
    rw [hsplit]
    exact (Sublist.append_left (sublist_cons_self e after) before).subset ha
  · rw [hmap.size_eq, hperm.length_eq, length_cons, Nat.add_sub_cancel]
  · intro a ha
    exact hmap.addr_lt a (hperm.symm.subset (mem_cons_of_mem e ha))

theorem Hashmap.Valid.replace (hsplit : map.chain i = before ++ e :: after) (value : Option V) :
    Valid h { map with buckets := map.buckets.set i (before ++ { e with value } :: after) } ∧
      (map.buckets.set i (before ++ { e with value } :: after)).flatten ~
        { e with value } :: (map.buckets.set i (before ++ after)).flatten := by
  obtain ⟨-, hperm⟩ := hmap.remove hi hsplit
  have hnew := flatten_set_middle hi before after { e with value }
  have hothers := distinct_cons.1 (hmap.distinct.perm hperm)
  have hdistinct : Distinct h
      ({ e with value } :: (map.buckets.set i (before ++ after)).flatten) :=
    distinct_cons.2 ⟨hothers.1, hothers.2.1, hothers.2.2⟩
  refine ⟨hmap.set hi ?_ (hdistinct.perm hnew.symm) ?_ ?_, hnew⟩
  · intro a ha
    have hplaced := hmap.placed i
    rw [hsplit] at hplaced
    rw [mem_append, mem_cons] at ha
    obtain ha | rfl | ha := ha
    · exact hplaced a (by simp [ha])
    · exact hplaced e (by simp)
    · exact hplaced a (by simp [ha])
  · rw [hmap.size_eq, hperm.length_eq, hnew.length_eq]
    rfl
  · intro a ha
    have hmem := hnew.subset ha
    rw [mem_cons] at hmem
    obtain rfl | hmem := hmem
    · exact hmap.addr_lt e (hperm.symm.subset mem_cons_self)
    · exact hmap.addr_lt a (hperm.symm.subset (mem_cons_of_mem e hmem))

end

theorem Hashmap.Valid.addEntry (hmap : map.Valid h)
    (habsent : ∀ e ∈ map.entries, h.equals e.key key = false) (value : Option V) :
    (addEntry h map key value).Valid h ∧
      (addEntry h map key value).entries ~ ⟨map.fresh, key, hashKey h key, value⟩ :: map.entries := by
  have hi := hmap.indexOf_lt key
  set i := indexOf h map key with hindex
  set e : Entry K V := ⟨map.fresh, key, hashKey h key, value⟩ with he
  have hperm : (map.buckets.set i (map.chain i ++ [e])).flatten ~ e :: map.entries := by
    have hmiddle := flatten_set_middle hi (map.chain i) [] e
    have hself : map.buckets.getD i [] = map.chain i := rfl
    rwa [append_nil, ← flatten_eq_of_split hi hself] at hmiddle
  have hdistinct : Distinct h (e :: map.entries) := by
    refine distinct_cons.2 ⟨?_, ?_, hmap.distinct⟩
    · intro a ha
      exact h.equals_false_symm (habsent a ha)
    · intro a ha
      exact (hmap.addr_lt a ha).ne'
  have hvalid : Valid h
      ⟨map.buckets.set i (map.chain i ++ [e]), map.size + 1, map.fresh + 1⟩ := by
    refine hmap.set hi ?_ (hdistinct.perm hperm.symm) ?_ ?_
    · intro a ha
      rw [mem_append, mem_singleton] at ha
      obtain ha | rfl := ha
      · exact hmap.placed i a ha
      · exact ⟨rfl, rfl⟩
    · rw [hperm.length_eq, length_cons, hmap.size_eq]
    · intro a ha
      have hmem := hperm.subset ha
      rw [mem_cons] at hmem
      obtain rfl | hmem := hmem
      · exact Nat.lt_succ_self _
      · exact Nat.lt_succ_of_lt (hmap.addr_lt a hmem)
  obtain ⟨hexpand, hentries⟩ := valid_expandIfNecessary hvalid
  exact ⟨hexpand, hentries.trans hperm⟩

end AndroidSystem.Cutils
