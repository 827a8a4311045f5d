import AndroidSystem.Utils.VectorImpl
import Mathlib.Data.List.Basic

/-!
# Who owns the buffers

`Owned` is the invariant of the heap: given the storage of every vector, a buffer counts as many
owners as there are vectors with it. Whatever one vector does, the buffers of the others keep their
items (`Step.frame`), since a vector writes to a buffer only when it is its only owner.

Each function of `VectorImpl` is described by what it does to the items of its own vector.
-/

namespace AndroidSystem.Utils

open List Option Heap

variable {α β : Type} {t : ItemType α} {h h' : Heap α} {owners : List (Option Nat)}
  {s : Option Nat} {a : Nat} {b b' : SharedBuffer α} {v : VectorImpl}

variable {o : Option (SharedBuffer α)} {pos : Nat} {owners' : List (Option Nat)} {s' : Option Nat}
  {items : List α} {c : Prop} {E : Halt → Prop}

/-- The program stops with a message, or the result has the property `P`. -/
abbrev Gives (x : Except Halt β) (P : β → Prop) : Prop := Ends (· = .fatal) x P

theorem safeAdd_gives (m n : Nat) : Gives (safeAdd m n) (· = m + n) :=
  .ite (fun _ => .ok rfl) fun _ => .error rfl

theorem safeSub_gives (m n : Nat) : Gives (safeSub m n) (· = m - n) :=
  .ite (fun _ => .ok rfl) fun _ => .error rfl

theorem safeMul_gives (m n : Nat) : Gives (safeMul m n) (· = m * n) :=
  .ite (fun _ => .ok rfl) fun _ => .error rfl

/-! ## The items of a buffer -/

/-- The items in a storage, none where there is no storage. -/
def Heap.data (h : Heap α) (s : Option Nat) : List α := (s.bind h.buffers).elim [] SharedBuffer.data

@[simp]
theorem Heap.data_none : h.data none = [] := rfl

theorem Heap.data_some (hb : h.buffers a = some b) : h.data (some a) = b.data := by
  simp [data, hb]

@[simp]
theorem Heap.data_set_self : (h.set a (some b)).data (some a) = b.data := by
  simp [data, set]

theorem Heap.data_set_of_ne (hs : s ≠ some a) : (h.set a o).data s = h.data s := by
  cases s with
  | none => rfl
  | some c =>
    have hc : c ≠ a := fun heq => hs (congrArg some heq)
    simp [data, set, Function.update_of_ne hc]

theorem Heap.deref_eq (hb : h.buffers a = some b) : h.deref a = .ok b := by
  simp [deref, hb]

theorem Heap.read_eq {n : Nat} (hfit : pos + n ≤ (h.data s).length) :
    h.read s pos n = .ok (((h.data s).drop pos).take n) := by
  by_cases hn : n = 0
  · simp [read, hn]
  cases s with
  | none =>
    simp only [data_none, length_nil] at hfit
    omega
  | some a =>
    cases hb : h.buffers a with
    | none =>
      simp only [data, bind_some, hb, elim_none, length_nil] at hfit
      omega
    | some b =>
      rw [data_some hb] at hfit ⊢
      rw [read, if_neg hn]
      simp only [deref_eq hb, ok_bind, if_pos hfit]

/-! ## The invariant -/

/-- What `alloc` refuses to go up to. -/
abbrev sizeLimit : Nat := 2 ^ 64 - 1 - headerSize

/-- The owners are the storages of all vectors. -/
structure Owned (t : ItemType α) (h : Heap α) (owners : List (Option Nat)) : Prop where
  buffer : ∀ {a}, some a ∈ owners → ∃ b, h.buffers a = some b
  refs : ∀ {a b}, h.buffers a = some b → b.mRefs.toNat = owners.count (some a)
  size : ∀ {a b}, h.buffers a = some b → b.data.length = b.mSize / t.mItemSize
  bytes : ∀ {a b}, h.buffers a = some b → b.mSize < sizeLimit
  fresh : ∀ {a b}, h.buffers a = some b → a < h.next

theorem Owned.perm (ho : Owned t h owners) (hp : owners.Perm owners') : Owned t h owners' where
  buffer hmem := ho.buffer (hp.mem_iff.2 hmem)
  refs hb := (ho.refs hb).trans (hp.count_eq _)
  size hb := ho.size hb
  bytes hb := ho.bytes hb
  fresh hb := ho.fresh hb

theorem Owned.swap (ho : Owned t h (s :: s' :: owners)) : Owned t h (s' :: s :: owners) :=
  ho.perm (List.Perm.swap s' s owners)

theorem owned_none_cons : Owned t h (none :: owners) ↔ Owned t h owners := by
  have hcount (a : Nat) : (none :: owners).count (some a) = owners.count (some a) := by simp
  have hmem (a : Nat) : some a ∈ none :: owners ↔ some a ∈ owners := by simp
  constructor
  · intro ho
    exact ⟨fun ha => ho.buffer ((hmem _).2 ha), fun hb => (ho.refs hb).trans (hcount _),
      fun hb => ho.size hb, fun hb => ho.bytes hb, fun hb => ho.fresh hb⟩
  · intro ho
    exact ⟨fun ha => ho.buffer ((hmem _).1 ha), fun hb => (ho.refs hb).trans (hcount _).symm,
      fun hb => ho.size hb, fun hb => ho.bytes hb, fun hb => ho.fresh hb⟩

theorem Owned.notMem (ho : Owned t h (some a :: owners)) (hb : h.buffers a = some b)
    (hrefs : b.mRefs = 1) : some a ∉ owners := by
  have hcount := ho.refs hb
  rw [hrefs, count_cons_self] at hcount
  have hone : (1 : UInt32).toNat = 1 := rfl
  exact count_eq_zero.1 (by omega)

/-- The buffer at one address is replaced, or one is added or removed there. What the buffers at the
other addresses count has to stay as it is. -/
theorem Owned.update {next : Nat} (ho : Owned t h owners) (hnext : h.next ≤ next)
    (hcount : ∀ c, c ≠ a → owners'.count (some c) = owners.count (some c))
    (hmem : some a ∈ owners' → ∃ b, o = some b)
    (hbuffer : ∀ b, o = some b → b.mRefs.toNat = owners'.count (some a) ∧
      b.data.length = b.mSize / t.mItemSize ∧ b.mSize < sizeLimit ∧ a < next) :
    Owned t ⟨Function.update h.buffers a o, next⟩ owners' := by
  have hcases {c : Nat} {d : SharedBuffer α} (hd : Function.update h.buffers a o c = some d) :
      (c = a ∧ o = some d) ∨ (c ≠ a ∧ h.buffers c = some d) := by
    by_cases hc : c = a
    · rw [hc, Function.update_self] at hd
      exact .inl ⟨hc, hd⟩
    · rw [Function.update_of_ne hc] at hd
      exact .inr ⟨hc, hd⟩
  constructor
  · intro c hc
    by_cases hca : c = a
    · subst hca
      simpa only [Function.update_self] using hmem hc
    · rw [← count_pos_iff, hcount c hca, count_pos_iff] at hc
      simpa only [Function.update_of_ne hca] using ho.buffer hc
  · intro c d hd
    obtain ⟨rfl, ho⟩ | ⟨hc, hd⟩ := hcases hd
    · exact (hbuffer d ho).1
    · rw [ho.refs hd, hcount c hc]
  · intro c d hd
    obtain ⟨rfl, ho⟩ | ⟨-, hd⟩ := hcases hd
    · exact (hbuffer d ho).2.1
    · exact ho.size hd
  · intro c d hd
    obtain ⟨rfl, ho⟩ | ⟨-, hd⟩ := hcases hd
    · exact (hbuffer d ho).2.2.1
    · exact ho.bytes hd
  · intro c d hd
    obtain ⟨rfl, ho⟩ | ⟨-, hd⟩ := hcases hd
    · exact (hbuffer d ho).2.2.2
    · exact (ho.fresh hd).trans_le hnext

/-- A buffer gets other items, and maybe another size, with its owners unchanged. -/
theorem Owned.set (ho : Owned t h owners) (hb : h.buffers a = some b) (hrefs : b'.mRefs = b.mRefs)
    (hsize : b'.data.length = b'.mSize / t.mItemSize) (hbytes : b'.mSize < sizeLimit) :
    Owned t (h.set a (some b')) owners := by
  refine ho.update le_rfl (fun _ _ => rfl) (fun _ => ⟨b', rfl⟩) ?_
  intro d hd
  cases hd
  exact ⟨hrefs ▸ ho.refs hb, hsize, hbytes, ho.fresh hb⟩

/-- One vector has changed its storage to `s`, the others still have the items they had. -/
structure Step (t : ItemType α) (owners : List (Option Nat)) (h h' : Heap α) (s : Option Nat) :
    Prop where
  owned : Owned t h' (s :: owners)
  frame : ∀ o ∈ owners, h'.data o = h.data o

theorem Step.refl (ho : Owned t h (s :: owners)) : Step t owners h h s := ⟨ho, fun _ _ => rfl⟩

theorem Step.trans {h'' : Heap α} (h1 : Step t owners h h' s) (h2 : Step t owners h' h'' s') :
    Step t owners h h'' s' :=
  ⟨h2.owned, fun o ho => (h2.frame o ho).trans (h1.frame o ho)⟩

/-! ## `SharedBuffer` -/

theorem alloc_gives (ho : Owned t h owners) {size : Nat}
    (hE : size ≥ sizeLimit → E .fatal) :
    Ends E (h.alloc t size) fun r =>
      Step t owners h r.1 (some r.2) ∧ some r.2 ∉ owners ∧
        (r.1.data (some r.2)).length = size / t.mItemSize := by
  -- no vector has a buffer at the new address
  have hnot : some h.next ∉ owners := by
    intro hmem
    obtain ⟨b, hb⟩ := ho.buffer hmem
    exact lt_irrefl _ (ho.fresh hb)
  refine .ite (fun hsize => .error (hE hsize)) fun hsize => .ok ⟨⟨?_, ?_⟩, hnot, by simp [data]⟩
  · refine ho.update (Nat.le_succ _) ?_ (fun _ => ⟨_, rfl⟩) ?_
    · intro c hc
      exact count_cons_of_ne fun heq => hc (some.inj heq).symm
    · intro b hb
      cases hb
      refine ⟨?_, by simp, not_le.1 hsize, Nat.lt_succ_self _⟩
      rw [count_cons_self, count_eq_zero.2 hnot]
      rfl
  · intro o hmem
    exact data_set_of_ne fun heq => hnot (heq ▸ hmem)

theorem write_gives (ho : Owned t h (some a :: owners)) (halone : some a ∉ owners)
    (hfit : pos + items.length ≤ (h.data (some a)).length) :
    Ends E (h.write a pos items) fun h' => Step t owners h h' (some a) ∧
      h'.data (some a) = (h.data (some a)).take pos ++ items ++
        (h.data (some a)).drop (pos + items.length) ∧
      (h'.data (some a)).length = (h.data (some a)).length := by
  obtain ⟨b, hb⟩ := ho.buffer mem_cons_self
  rw [data_some hb] at hfit ⊢
  rw [write]
  simp only [deref_eq hb, ok_bind, if_pos hfit]
  have hlen : (b.data.take pos ++ items ++ b.data.drop (pos + items.length)).length =
      b.data.length := by
    simp
    omega
  refine .ok ⟨⟨ho.set hb rfl (hlen.trans (ho.size hb)) (ho.bytes hb :), ?_⟩, data_set_self,
    (congrArg length data_set_self).trans hlen⟩
  intro o hmem
  exact data_set_of_ne fun heq => halone (heq ▸ hmem)

theorem release_gives (ho : Owned t h (some a :: owners)) :
    Ends E (h.release a) fun h' => Owned t h' owners ∧ ∀ o ∈ owners, h'.data o = h.data o := by
  obtain ⟨b, hb⟩ := ho.buffer mem_cons_self
  have hcount := ho.refs hb
  rw [count_cons_self] at hcount
  rw [release]
  simp only [deref_eq hb]
  have hother (c : Nat) (hc : c ≠ a) :
      owners.count (some c) = (some a :: owners).count (some c) :=
    (count_cons_of_ne fun heq => hc (some.inj heq).symm).symm
  refine .ite (fun hrefs => .ok ⟨?_, ?_⟩) fun hrefs => .ok ⟨?_, ?_⟩
  · refine ho.update le_rfl hother (fun hmem => absurd hmem (ho.notMem hb hrefs)) ?_
    intro d hd
    cases hd
  · intro o hmem
    exact data_set_of_ne fun heq => ho.notMem hb hrefs (heq ▸ hmem)
  · refine ho.update le_rfl hother (fun _ => ⟨_, rfl⟩) ?_
    intro d hd
    cases hd
    refine ⟨?_, (ho.size hb :), (ho.bytes hb :), ho.fresh hb⟩
    have hle : (1 : UInt32) ≤ b.mRefs := by
      rw [UInt32.le_iff_toNat_le, hcount]
      exact Nat.le_add_left 1 _
    rw [UInt32.toNat_sub_of_le _ _ hle, hcount]
    rfl
  · intro o hmem
    by_cases hoa : o = some a
    · rw [hoa, data_set_self, data_some hb]
    · exact data_set_of_ne hoa

theorem acquire_gives (ho : Owned t h owners) (ha : some a ∈ owners)
    (hfew : owners.length + 1 < 2 ^ 32) :
    Gives (h.acquire a) fun h' => Step t owners h h' (some a) := by
  obtain ⟨b, hb⟩ := ho.buffer ha
  rw [acquire]
  simp only [deref_eq hb]
  refine .ok ⟨?_, ?_⟩
  · refine ho.update le_rfl ?_ (fun _ => ⟨_, rfl⟩) ?_
    · intro c hc
      exact count_cons_of_ne fun heq => hc (some.inj heq).symm
    · intro d hd
      cases hd
      refine ⟨?_, (ho.size hb :), (ho.bytes hb :), ho.fresh hb⟩
      have hle := count_le_length (a := some a) (l := owners)
      rw [UInt32.toNat_add, ho.refs hb, count_cons_self]
      exact Nat.mod_eq_of_lt (by simp; omega)
  · intro o hmem
    by_cases hoa : o = some a
    · rw [hoa, data_set_self, data_some hb]
    · exact data_set_of_ne hoa

section Copy

variable {dest pos n : Nat}

theorem copyItems_gives (ho : Owned t h (some a :: owners))
    (halone : some a ∉ owners) (hfrom : pos + n ≤ (h.data s).length)
    (hfit : dest + n ≤ (h.data (some a)).length) :
    Ends E (h.copyItems a dest s pos n) fun h' => Step t owners h h' (some a) ∧
      h'.data (some a) = (h.data (some a)).take dest ++ ((h.data s).drop pos).take n ++
        (h.data (some a)).drop (dest + n) ∧
      (h'.data (some a)).length = (h.data (some a)).length := by
  have hlen : (((h.data s).drop pos).take n).length = n := by
    rw [length_take, length_drop]
    omega
  rw [copyItems, read_eq hfrom]
  have hwrite := write_gives (E := E) ho halone (hlen.symm ▸ hfit)
  rwa [hlen] at hwrite

/-- A copy that is left out when there is nothing to copy. -/
theorem copyItemsIf_gives [Decidable c] (hc : ¬c → n = 0) (ho : Owned t h (some a :: owners))
    (halone : some a ∉ owners) (hfrom : pos + n ≤ (h.data s).length)
    (hfit : dest + n ≤ (h.data (some a)).length) :
    Ends E (h.copyItemsIf c a dest s pos n) fun h' => Step t owners h h' (some a) ∧
      h'.data (some a) = (h.data (some a)).take dest ++ ((h.data s).drop pos).take n ++
        (h.data (some a)).drop (dest + n) ∧
      (h'.data (some a)).length = (h.data (some a)).length := by
  refine .ite (fun _ => copyItems_gives ho halone hfrom hfit) fun hnot => .ok ⟨.refl ho, ?_, rfl⟩
  simp [hc hnot]

/-- The first `n` items of a storage are copied to a new buffer. -/
theorem copyFresh_gives [Decidable c] (hc : ¬c → n = 0) {f : Heap α × Nat → Heap α → Except Halt β}
    {P : β → Prop} {size : Nat} (hE : size ≥ sizeLimit → E .fatal)
    (ho : Owned t h (s :: owners)) (hroom : n ≤ size / t.mItemSize)
    (hn : n ≤ (h.data s).length)
    (hf : ∀ r h1, Step t (s :: owners) h h1 (some r.2) → some r.2 ∉ s :: owners →
      (h1.data (some r.2)).length = size / t.mItemSize →
      (h1.data (some r.2)).take n = (h.data s).take n → Ends E (f r h1) P) :
    Ends E (do
      let r ← h.alloc t size
      let h1 ← r.1.copyItemsIf c r.2 0 s 0 n
      f r h1) P := by
  refine (alloc_gives ho hE).bind ?_
  rintro r ⟨hstep, hnot, hlen⟩
  have hold : r.1.data s = h.data s := hstep.frame _ mem_cons_self
  refine (copyItemsIf_gives hc hstep.owned hnot (by rw [hold]; omega) (by omega)).bind ?_
  rintro h1 ⟨hstep1, hdata, hlen1⟩
  refine hf r h1 (hstep.trans hstep1) hnot (hlen1.trans hlen) ?_
  rw [hdata, hold, take_zero, nil_append, drop_zero, take_left' (length_take_of_le hn)]

end Copy

theorem editResize_gives (ho : Owned t h (some a :: owners)) (newSize : Nat) :
    Gives (h.editResize t a newSize) fun r => Step t owners h r.1 (some r.2) ∧
      some r.2 ∉ owners ∧ (r.1.data (some r.2)).length = newSize / t.mItemSize ∧
      ∀ k, k ≤ newSize / t.mItemSize → k ≤ (h.data (some a)).length →
        (r.1.data (some r.2)).take k = (h.data (some a)).take k := by
  obtain ⟨b, hb⟩ := ho.buffer mem_cons_self
  rw [editResize]
  simp only [deref_eq hb]
  refine .ite (fun hrefs => ?_) fun hrefs => ?_
  · have hnot := ho.notMem hb hrefs
    refine .ite (fun hsize => .ok ⟨.refl ho, hnot, ?_, fun _ _ _ => rfl⟩) fun _ => ?_
    · rw [data_some hb, ← hsize, ho.size hb]
    · refine .ite (fun _ => .error rfl) fun hbytes => .ok ⟨⟨?_, ?_⟩, hnot, ?_, ?_⟩
      · refine ho.set hb rfl ?_ (not_le.1 hbytes)
        simp [resized]
        omega
      · intro o hmem
        exact data_set_of_ne fun heq => hnot (heq ▸ hmem)
      · simp [resized]
        omega
      · intro k hk hkb
        rw [data_some hb] at hkb ⊢
        rw [data_set_self, resized, take_append_of_le_length, take_take,
          min_eq_left hk]
        rw [length_take]
        omega
  · have hn : (if newSize < b.mSize then newSize else b.mSize) / t.mItemSize =
        min (newSize / t.mItemSize) b.data.length := by
      rw [ho.size hb]
      split
      · exact (min_eq_left (Nat.div_le_div_right (by omega))).symm
      · exact (min_eq_right (Nat.div_le_div_right (by omega))).symm
    rw [hn, data_some hb]
    refine copyFresh_gives (absurd trivial) (fun _ => rfl) ho (min_le_left _ _)
      (by rw [data_some hb]; exact min_le_right _ _) ?_
    intro r h1 hstep hnot hlen htake
    refine (release_gives hstep.owned.swap).bind ?_
    rintro h2 ⟨howned, hframe⟩
    rw [← hframe (some r.2) mem_cons_self] at hlen htake
    refine .ok ⟨⟨howned, ?_⟩, fun hmem => hnot (mem_cons_of_mem _ hmem), hlen, ?_⟩
    · intro o hmem
      rw [hframe o (mem_cons_of_mem _ hmem), hstep.frame o (mem_cons_of_mem _ hmem)]
    · intro k hk hkb
      have hfront := congrArg (take k) htake
      rwa [take_take, take_take, min_eq_left (le_min hk hkb), data_some hb] at hfront

/-! ## The storage of a vector -/

namespace VectorImpl

/-- The items of a vector. -/
def contents (h : Heap α) (v : VectorImpl) : List α := (h.data v.mStorage).take v.mCount

/-- The storage has room for the items. -/
def Fits (h : Heap α) (v : VectorImpl) : Prop := v.mCount ≤ (h.data v.mStorage).length

theorem length_contents (hfits : v.Fits h) : (v.contents h).length = v.mCount :=
  length_take_of_le hfits

section

variable (ho : Owned t h (v.mStorage :: owners))
include ho

theorem mCount_lt (hfits : v.Fits h) : v.mCount < 2 ^ 64 := by
  rw [Fits] at hfits
  cases hs : v.mStorage with
  | none =>
    rw [hs, data_none, length_nil] at hfits
    omega
  | some a =>
    rw [hs] at ho hfits
    obtain ⟨b, hb⟩ := ho.buffer mem_cons_self
    rw [data_some hb, ho.size hb] at hfits
    exact hfits.trans_lt ((Nat.div_le_self _ _).trans_lt ((ho.bytes hb).trans (by decide)))

theorem capacity_eq : v.capacity t h = .ok (h.data v.mStorage).length := by
  cases hs : v.mStorage with
  | none => simp [capacity, hs]
  | some a =>
    rw [hs] at ho
    obtain ⟨b, hb⟩ := ho.buffer mem_cons_self
    simp only [capacity, hs, deref_eq hb, ok_bind, data_some hb, ho.size hb]

omit ho in
/-- A vector that has got a new storage gives up its old one. -/
theorem releaseStorage_gives {h0 : Heap α} (hstep : Step t (v.mStorage :: owners) h0 h s) :
    Ends E (v.releaseStorage h) fun h' => Step t owners h0 h' s ∧ h'.data s = h.data s := by
  have howned := hstep.owned.swap
  have hframe (o : Option Nat) (hmem : o ∈ owners) := hstep.frame o (mem_cons_of_mem _ hmem)
  rw [releaseStorage]
  cases hs : v.mStorage with
  | none =>
    rw [hs] at howned
    exact .ok ⟨⟨owned_none_cons.1 howned, hframe⟩, rfl⟩
  | some a =>
    rw [hs] at howned
    refine (release_gives howned).mono ?_
    rintro h' ⟨ho, hkeep⟩
    refine ⟨⟨ho, ?_⟩, hkeep s mem_cons_self⟩
    intro o hmem
    exact (hkeep o (mem_cons_of_mem _ hmem)).trans (hframe o hmem)

/-- No other vector has the storage. -/
def Alone (owners : List (Option Nat)) (v : VectorImpl) : Prop :=
  ∀ a, v.mStorage = some a → some a ∉ owners

theorem editArrayImpl_gives (hfits : v.Fits h) :
    Ends E (v.editArrayImpl t h) fun r => Step t owners h r.1 r.2.mStorage ∧ r.2.Alone owners ∧
      r.2.mCount = v.mCount ∧ (r.2.mStorage = none ↔ v.mStorage = none) ∧
      (r.1.data r.2.mStorage).length = (h.data v.mStorage).length ∧
      r.2.contents r.1 = v.contents h := by
  rw [editArrayImpl]
  cases hs : v.mStorage with
  | none =>
    rw [hs] at ho
    refine .ok ⟨hs ▸ .refl ho, ?_, rfl, by rw [hs], by rw [hs], rfl⟩
    intro a ha
    rw [hs] at ha
    cases ha
  | some a =>
    have ho' : Owned t h (some a :: owners) := hs ▸ ho
    obtain ⟨b, hb⟩ := ho'.buffer mem_cons_self
    simp only [deref_eq hb]
    refine .ite (fun hrefs => .ok ⟨hs ▸ .refl ho', ?_, rfl, by rw [hs], by rw [hs], rfl⟩)
      fun _ => ?_
    · intro c hc
      rw [hs] at hc
      cases hc
      exact ho'.notMem hb hrefs
    · have hsize : (h.data (some a)).length = b.mSize / t.mItemSize := by
        rw [data_some hb, ho'.size hb]
      have hroom := hfits
      rw [Fits, hs, hsize] at hroom
      rw [← hs]
      refine copyFresh_gives (absurd trivial) (absurd · (ho'.bytes hb).not_ge) ho hroom hfits ?_
      intro r h1 hstep hnot hlen htake
      refine (releaseStorage_gives hstep).bind ?_
      rintro h2 ⟨hstep2, hdata⟩
      rw [← hdata] at hlen htake
      refine .ok ⟨hstep2, ?_, rfl, by simp [hs], hlen.trans (by rw [hs, hsize]), htake⟩
      intro c hc
      cases hc
      exact fun hmem => hnot (mem_cons_of_mem _ hmem)

/-- Items may be written to a storage that no other vector has. -/
theorem store_gives (halone : v.Alone owners) (hs : v.mStorage ≠ none)
    (hfit : pos + items.length ≤ (h.data v.mStorage).length) :
    Ends E (v.store h pos items) fun h' => Step t owners h h' v.mStorage ∧
      h'.data v.mStorage = (h.data v.mStorage).take pos ++ items ++
        (h.data v.mStorage).drop (pos + items.length) ∧
      (h'.data v.mStorage).length = (h.data v.mStorage).length := by
  obtain ⟨a, ha⟩ := ne_none_iff_exists'.1 hs
  rw [store]
  have halone' := halone a ha
  simp only [ha] at ho hfit ⊢
  exact write_gives ho halone' hfit

end

end VectorImpl

end AndroidSystem.Utils
