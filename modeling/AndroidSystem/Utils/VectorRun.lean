import AndroidSystem.Utils.VectorSort
import Mathlib.Data.List.Perm.Basic

/-!
# Vectors as independent lists

A program with any number of vectors, made by construction, copy and assignment, and any sequence of
operations on them. `ListStep` is the meaning of an operation when each vector is a list of its own;
`vectors_follow_lists` says that the code has this meaning in every run.

There are two exceptions. `removeItemsAt` with `index + count` of `2 ^ 64` or more: the sum wraps
around and passes the check, and items outside of the storage are used. And no item at all is
inserted in front of one or removed: the items from there on are moved to their own places, and
destroyed there unless bytes are moved (`insertArrayAt_ne_ok`).
-/

namespace AndroidSystem.Utils

open List VectorImpl

variable {α : Type}

/-! ## Programs with vectors -/

/-- The operations that change the items of one vector. An item that is not given is to be
default-constructed. -/
inductive VectorEdit (α : Type)
  | insertAt (item : Option α) (index numItems : Nat)
  | insertArrayAt (items : List α) (index : Nat)
  | insertVectorAt (src index : Nat)
  | removeItemsAt (index count : Nat)
  | replaceAt (item : Option α) (index : Nat)
  /-- An item is written to the place that `editItemLocation` gives. -/
  | editItemLocation (index : Nat) (item : α)
  | setCapacity (size : Nat)
  | resize (size : Nat)
  | clear
  | sort (cmp : α → α → Int)
  | push (item : Option α)
  | pop

/-- Vectors are named by the order in which they were made. -/
inductive VectorOp (α : Type)
  | create
  | copy (src : Nat)
  | assign (dst src : Nat)
  | finish (v : Nat)
  | edit (v : Nat) (e : VectorEdit α)

structure Vectors (α : Type) where
  heap : Heap α
  vecs : List VectorImpl

open Vectors

namespace Vectors

def empty : Vectors α := ⟨⟨fun _ => none, 0⟩, []⟩

def contents (w : Vectors α) : List (List α) := w.vecs.map (·.contents w.heap)

end Vectors

/-- Only the heap and the vector, without the result. -/
def dropResult (x : Except Halt (Heap α × VectorImpl × Int)) :
    Except Halt (Heap α × VectorImpl) := do
  let r ← x
  .ok (r.1, r.2.1)

def VectorImpl.editItem (t : ItemType α) (h : Heap α) (v : VectorImpl) (index : Nat) (item : α) :
    Except Halt (Heap α × VectorImpl) := do
  let r ← v.editItemLocation t h index
  match r.2.2 with
  | none => .ok (r.1, r.2.1)
  | some pos => do
    let h ← r.2.1.store r.1 pos [item]
    .ok (h, r.2.1)

def VectorEdit.run (t : ItemType α) (vecs : List VectorImpl) (h : Heap α) (v : VectorImpl) :
    VectorEdit α → Except Halt (Heap α × VectorImpl)
  | .insertAt item index numItems => dropResult (v.insertAt t h item index numItems)
  | .insertArrayAt items index =>
    dropResult (v.insertArrayAt t h (fun _ => .ok items) index items.length)
  | .insertVectorAt src index =>
    match vecs[src]? with
    | none => .ok (h, v)
    | some vector => dropResult (v.insertVectorAt t h vector index)
  | .removeItemsAt index count => dropResult (v.removeItemsAt t h index count)
  | .replaceAt item index => dropResult (v.replaceAt t h item index)
  | .editItemLocation index item => v.editItem t h index item
  | .setCapacity size => dropResult (v.setCapacity t h size)
  | .resize size => dropResult (v.resize t h size)
  | .clear => v.clear t h
  | .sort cmp => v.sort t cmp h
  | .push item => dropResult (v.push t h item)
  | .pop => v.pop t h

/-- Vector `v` is replaced by what a call has made of it. -/
def Vectors.put (w : Vectors α) (v : Nat) (x : Except Halt (Heap α × VectorImpl)) :
    Except Halt (Vectors α) := do
  let r ← x
  .ok ⟨r.1, w.vecs.set v r.2⟩

/-- One operation. A name that no vector has makes it do nothing. -/
def Vectors.step (t : ItemType α) (w : Vectors α) : VectorOp α → Except Halt (Vectors α)
  | .create => .ok ⟨w.heap, w.vecs ++ [⟨none, 0⟩]⟩
  | .copy src =>
    match w.vecs[src]? with
    | none => .ok w
    | some rhs => do
      let r ← rhs.copy w.heap
      .ok ⟨r.1, w.vecs ++ [r.2]⟩
  | .assign dst src =>
    match w.vecs[dst]?, w.vecs[src]? with
    | some v, some rhs => if dst = src then .ok w else w.put dst (v.assign w.heap rhs)
    | _, _ => .ok w
  | .finish v =>
    match w.vecs[v]? with
    | none => .ok w
    | some x => w.put v (x.finishVector w.heap)
  | .edit v e =>
    match w.vecs[v]? with
    | none => .ok w
    | some x => w.put v (e.run t w.vecs w.heap x)

/-! ## Lists -/

/-- What an operation makes of the items `l` of its vector, where all vectors have the items `ls`. -/
def VectorEdit.Effect (t : ItemType α) (ls : List (List α)) (l l' : List α) :
    VectorEdit α → Prop
  | .insertAt item index numItems =>
    ∃ items, items.length = numItems ∧ Made t item items ∧ l' = insertItems l index items
  | .insertArrayAt items index => l' = insertItems l index items
  | .insertVectorAt src index => l' = insertItems l index (ls.getD src [])
  | .removeItemsAt index count => l' = removeItems l index count
  | .replaceAt item index => ∃ x, Made t item [x] ∧ l' = l.set index x
  | .editItemLocation index item => l' = l.set index item
  | .setCapacity _ => l' = l
  | .resize size =>
    ∃ items, items.length = size - l.length ∧ Made t none items ∧ l' = l.take size ++ items
  | .clear => l' = []
  | .sort cmp => StableSort cmp l l'
  | .push item => ∃ x, Made t item [x] ∧ l' = l ++ [x]
  | .pop => l' = l.dropLast

/-- What an operation makes of the items of all vectors, when each is a list of its own. -/
def ListStep (t : ItemType α) (ls ls' : List (List α)) : VectorOp α → Prop
  | .create => ls' = ls ++ [[]]
  | .copy src => ls' = ls ++ (ls[src]?).toList
  | .assign dst src => ls' = if src < ls.length then ls.set dst (ls.getD src []) else ls
  | .finish v => ls' = ls.set v []
  | .edit v e =>
    (v < ls.length → ∃ l', e.Effect t ls (ls.getD v []) l' ∧ ls' = ls.set v l') ∧
      (ls.length ≤ v → ls' = ls)

/-- Every operation of the sequence that is reached ends with a message or makes of the items what it
makes of lists. -/
def Follows (t : ItemType α) : Vectors α → List (VectorOp α) → Prop
  | _, [] => True
  | w, op :: ops =>
    Gives (w.step t op) fun w' => ListStep t w.contents w'.contents op ∧ Follows t w' ops

/-! ## The condition -/

/-- The number of items of a vector. -/
def Vectors.size (w : Vectors α) (v : Nat) : Nat := (w.contents.getD v []).length

/-- What is asked of an operation: a vector is not inserted into itself, `index + count` does not wrap
around, a new vector does not make the count of the owners wrap around, and something is inserted or
removed, unless that is at the end or items are moved as bytes. -/
def Proper (t : ItemType α) (w : Vectors α) : VectorOp α → Prop
  | .create | .copy _ => w.vecs.length + 1 < 2 ^ 32
  | .edit v (.insertAt _ index numItems) => Keeps t (w.size v) index numItems
  | .edit v (.insertArrayAt items index) => Keeps t (w.size v) index items.length
  | .edit v (.insertVectorAt src index) => src ≠ v ∧ Keeps t (w.size v) index (w.size src)
  | .edit v (.removeItemsAt index count) => index + count < 2 ^ 64 ∧ Keeps t (w.size v) index count
  | _ => True

/-- All operations of the sequence that are reached are proper. -/
def AllProper (t : ItemType α) : Vectors α → List (VectorOp α) → Prop
  | _, [] => True
  | w, op :: ops => Proper t w op ∧ ∀ w', w.step t op = .ok w' → AllProper t w' ops

/-! ## The invariant -/

/-- The heap counts the vectors, and every vector has room for its items. -/
structure Vectors.Inv (t : ItemType α) (w : Vectors α) : Prop where
  owned : Owned t w.heap (w.vecs.map (·.mStorage))
  fits : ∀ v ∈ w.vecs, v.Fits w.heap
  few : w.vecs.length < 2 ^ 32

variable {t : ItemType α} {w : Vectors α} {v : Nat} {x : VectorImpl}

/-- The vectors other than `v`. -/
def Vectors.others (w : Vectors α) (v : Nat) : List VectorImpl := w.vecs.eraseIdx v

theorem Vectors.perm_others (hv : w.vecs[v]? = some x) :
    (w.vecs.map (·.mStorage)).Perm (x.mStorage :: (w.others v).map (·.mStorage)) := by
  obtain ⟨hlt, rfl⟩ := List.getElem?_eq_some_iff.1 hv
  exact (getElem_cons_eraseIdx_perm hlt).symm.map (·.mStorage)

theorem Vectors.contents_set {h' : Heap α} {x' : VectorImpl} {l : List α}
    (hv : w.vecs[v]? = some x) (hkeep : ∀ y ∈ w.others v, y.contents h' = y.contents w.heap)
    (hnew : x'.contents h' = l) :
    (⟨h', w.vecs.set v x'⟩ : Vectors α).contents = w.contents.set v l := by
  rw [contents, contents, ← hnew]
  apply ext_getElem
  · simp
  intro i hi _
  rw [length_map, length_set] at hi
  by_cases heq : i = v
  · subst heq
    simp
  · rw [getElem_map, getElem_set_ne (Ne.symm heq), getElem_set_ne (Ne.symm heq),
      getElem_map]
    exact hkeep _ (mem_eraseIdx_iff_getElem.2 ⟨i, hi, heq, rfl⟩)

theorem Vectors.Inv.put (hinv : w.Inv t) (hv : w.vecs[v]? = some x)
    {E : Halt → Prop} {y : Except Halt (Heap α × VectorImpl)} {P : List α → Prop}
    (hy : Ends E y fun r => ∃ l, P l ∧
      Has t ((w.others v).map (·.mStorage)) w.heap l r) :
    Ends E (w.put v y) fun w' => w'.Inv t ∧ ∃ l, P l ∧ w'.contents = w.contents.set v l := by
  refine hy.bind ?_
  rintro ⟨h', x'⟩ ⟨l, hl, hstep, hfits, hcontents⟩
  obtain ⟨hlt, -⟩ := List.getElem?_eq_some_iff.1 hv
  have hkeep (y : VectorImpl) (hy : y ∈ w.others v) : h'.data y.mStorage = w.heap.data y.mStorage :=
    hstep.frame _ (mem_map_of_mem hy)
  refine .ok ⟨⟨?_, ?_, ?_⟩, l, hl, contents_set hv ?_ hcontents⟩
  · refine hstep.owned.perm ?_
    have hperm := (set_perm_cons_eraseIdx hlt x').symm.map mStorage
    exact hperm
  · intro z hz
    obtain hz | rfl := mem_cons.1 ((set_perm_cons_eraseIdx hlt x').mem_iff.1 hz) |>.symm
    · rw [Fits, hkeep z hz]
      exact hinv.fits z (mem_of_mem_eraseIdx hz)
    · exact hfits
  · rw [length_set]
    exact hinv.few
  · intro z hz
    rw [VectorImpl.contents, VectorImpl.contents, hkeep z hz]

/-! ## One step -/

theorem dropResult_gives {y : Except Halt (Heap α × VectorImpl × Int)}
    {P : Heap α × VectorImpl → Prop} (hy : Gives y fun r => P (r.1, r.2.1)) :
    Gives (dropResult y) P := by
  refine hy.bind ?_
  intro r hr
  exact .ok hr

theorem Vectors.getD_contents (hv : w.vecs[v]? = some x) :
    w.contents.getD v [] = x.contents w.heap := by
  rw [getD_eq_getElem?_getD, contents, getElem?_map, hv]
  rfl

namespace VectorImpl

variable {h : Heap α} {owners : List (Option Nat)} {rhs : VectorImpl}

section

variable (ho : Owned t h (x.mStorage :: owners))
include ho

theorem releaseStorage_owned : Gives (x.releaseStorage h) fun h' => Step t owners h h' none := by
  have hstep : Step t (x.mStorage :: owners) h h none := .refl (owned_none_cons.2 ho)
  refine (releaseStorage_gives hstep).mono ?_
  intro h' hh'
  exact hh'.1

theorem finishVector_gives : Gives (x.finishVector h) (Has t owners h []) := by
  refine (releaseStorage_owned ho).bind ?_
  intro h' hstep
  exact .ok ⟨hstep, Nat.zero_le _, rfl⟩

/-- The other vector keeps its storage while this one lets go of its own, even if it is the same. -/
theorem assign_gives (hmem : rhs.mStorage ∈ owners) (hfits : rhs.Fits h)
    (hfew : owners.length + 1 < 2 ^ 32) :
    Gives (x.assign h rhs) (Has t owners h (rhs.contents h)) := by
  refine (releaseStorage_owned ho).bind ?_
  intro h1 hstep
  have hdata := hstep.frame _ hmem
  refine .ite (fun hne => ?_) fun hzero => .ok ?_
  · cases hs : rhs.mStorage with
    | none =>
      rw [Fits, hs] at hfits
      exact absurd (Nat.le_zero.1 hfits) hne
    | some a =>
      refine (acquire_gives (owned_none_cons.1 hstep.owned) (hs ▸ hmem) hfew).bind ?_
      intro h2 hstep2
      have hdata2 := (hstep2.frame _ hmem).trans hdata
      refine .ok ⟨hstep.trans (hs ▸ hstep2), ?_, ?_⟩
      · rw [Fits, hdata2]
        exact hfits
      · rw [contents, contents, hdata2]
  · rw [not_not] at hzero
    refine ⟨hstep, Nat.zero_le _, ?_⟩
    rw [contents, contents, hzero, take_zero, take_zero]

omit ho in
theorem copy_gives (ho : Owned t h owners) (hmem : rhs.mStorage ∈ owners) (hfits : rhs.Fits h)
    (hfew : owners.length + 1 < 2 ^ 32) :
    Gives (rhs.copy h) fun r => r.2 = rhs ∧ Has t owners h (rhs.contents h) r := by
  rw [copy]
  cases hs : rhs.mStorage with
  | none =>
    have ho' : Owned t h (rhs.mStorage :: owners) := hs ▸ owned_none_cons.2 ho
    exact .ok ⟨rfl, .refl ho' hfits⟩
  | some a =>
    refine (acquire_gives ho (hs ▸ hmem) hfew).bind ?_
    intro h1 hstep
    have hdata := hstep.frame _ hmem
    refine .ok ⟨rfl, hs ▸ hstep, ?_, ?_⟩
    · rw [Fits, hdata]
      exact hfits
    · rw [contents, contents, hdata]

theorem push_gives {item : Option α} (hfits : x.Fits h) :
    Gives (x.push t h item) fun r =>
      ∃ y, Made t item [y] ∧ Has t owners h (x.contents h ++ [y]) (r.1, r.2.1) := by
  refine (insertAt_gives ho hfits fun hzero => absurd hzero one_ne_zero).mono ?_
  intro r hr
  obtain ⟨items, hone, hmade, hhas⟩ := hr
  obtain ⟨y, rfl⟩ := length_eq_one_iff.1 hone
  have hlen := length_contents hfits
  rw [insertItems, hlen, if_pos le_rfl, ← hlen, take_length, drop_length,
    append_nil] at hhas
  exact ⟨y, hmade, hhas⟩

theorem editItem_gives {index : Nat} {item : α} (hfits : x.Fits h) :
    Gives (x.editItem t h index item) (Has t owners h ((x.contents h).set index item)) := by
  refine (editItemLocation_gives ho hfits).bind ?_
  rintro ⟨h1, x1, place⟩ ⟨hhas, hplace⟩
  obtain ⟨rfl, hle⟩ | ⟨rfl, halone, -, hin⟩ := hplace
  · rw [set_eq_of_length_le ((length_contents hfits).le.trans hle)]
    exact .ok hhas
  · refine (hhas.store halone hin).bind ?_
    intro h2 hh2
    exact .ok hh2

end

end VectorImpl

theorem VectorEdit.run_gives {e : VectorEdit α} (hinv : w.Inv t) (hv : w.vecs[v]? = some x)
    (hproper : Proper t w (.edit v e)) :
    Gives (e.run t w.vecs w.heap x) fun r => ∃ l, e.Effect t w.contents (x.contents w.heap) l ∧
      Has t ((w.others v).map (·.mStorage)) w.heap l r := by
  have ho := hinv.owned.perm (perm_others hv)
  have hfits := hinv.fits x (mem_of_getElem? hv)
  have hsize : w.size v = x.mCount := by
    rw [Vectors.size, getD_contents hv, length_contents hfits]
  -- operations whose result is determined
  have hone {y : Except Halt (Heap α × VectorImpl)} {l : List α}
      (hl : e.Effect t w.contents (x.contents w.heap) l)
      (hy : Gives y (Has t ((w.others v).map (·.mStorage)) w.heap l)) :
      Gives y fun r => ∃ l, e.Effect t w.contents (x.contents w.heap) l ∧
        Has t ((w.others v).map (·.mStorage)) w.heap l r :=
    hy.mono fun r hr => ⟨l, hl, hr⟩
  cases e with
  | insertAt item index numItems =>
    refine dropResult_gives ((insertAt_gives ho hfits (hsize ▸ hproper)).mono ?_)
    intro r hr
    obtain ⟨items, hlen, hmade, hhas⟩ := hr
    exact ⟨_, ⟨items, hlen, hmade, rfl⟩, hhas⟩
  | insertArrayAt items index =>
    exact hone rfl (dropResult_gives
      (insertArrayAt_gives ho hfits (fun _ _ _ => rfl) (hsize ▸ hproper)))
  | insertVectorAt src index =>
    rw [VectorEdit.run]
    cases hsrc : w.vecs[src]? with
    | none =>
      have hnone : w.contents.getD src [] = [] := by
        rw [getD_eq_getElem?_getD, Vectors.contents, getElem?_map, hsrc]
        rfl
      have hsame : insertItems (x.contents w.heap) index (w.contents.getD src []) =
          x.contents w.heap := by
        rw [hnone, insertItems]
        split
        · rw [append_nil, take_append_drop]
        · rfl
      exact hone hsame.symm (.ok (.refl ho hfits))
    | some vector =>
      obtain ⟨hlt, hget⟩ := List.getElem?_eq_some_iff.1 hsrc
      have hmem : vector ∈ w.others v :=
        mem_eraseIdx_iff_getElem.2 ⟨src, hlt, hproper.1, hget⟩
      have hmoved := hproper.2
      rw [hsize, Vectors.size, getD_contents hsrc] at hmoved
      refine hone ?_ (dropResult_gives (insertVectorAt_gives ho hfits
        (mem_map_of_mem hmem) (hinv.fits vector (mem_of_getElem? hsrc)) hmoved))
      rw [VectorEdit.Effect, getD_contents hsrc]
  | removeItemsAt index count =>
    exact hone rfl (dropResult_gives (removeItemsAt_gives ho hfits hproper.1
      (hsize ▸ hproper.2)))
  | replaceAt item index =>
    refine dropResult_gives ((replaceAt_gives ho hfits).mono ?_)
    intro r hr
    obtain ⟨y, hmade, hhas⟩ := hr
    exact ⟨_, ⟨y, hmade, rfl⟩, hhas⟩
  | editItemLocation index item => exact hone rfl (editItem_gives ho hfits)
  | setCapacity size =>
    exact hone rfl (dropResult_gives (setCapacity_gives ho hfits))
  | resize size =>
    refine dropResult_gives ((resize_gives ho hfits).mono ?_)
    intro r hr
    obtain ⟨items, hlen, hmade, hhas⟩ := hr
    refine ⟨_, ⟨items, ?_, hmade, rfl⟩, hhas⟩
    rw [hlen, length_contents hfits]
  | clear => exact hone rfl (clear_gives ho hfits)
  | sort cmp => exact hone (sortList_stableSort cmp _) (sort_gives ho hfits)
  | push item =>
    refine dropResult_gives ((push_gives ho hfits).mono ?_)
    intro r hr
    obtain ⟨y, hmade, hhas⟩ := hr
    exact ⟨_, ⟨y, hmade, rfl⟩, hhas⟩
  | pop => exact hone rfl (pop_gives ho hfits)

theorem Vectors.Inv.append {h' : Heap α} {y : VectorImpl} {l : List α} (hinv : w.Inv t)
    (hfew : w.vecs.length + 1 < 2 ^ 32)
    (hhas : Has t (w.vecs.map (·.mStorage)) w.heap l (h', y)) :
    (⟨h', w.vecs ++ [y]⟩ : Vectors α).Inv t ∧
      (⟨h', w.vecs ++ [y]⟩ : Vectors α).contents = w.contents ++ [l] := by
  obtain ⟨hstep, hfits, hcontents⟩ := hhas
  have hkeep (z : VectorImpl) (hz : z ∈ w.vecs) : h'.data z.mStorage = w.heap.data z.mStorage :=
    hstep.frame _ (mem_map_of_mem hz)
  refine ⟨⟨?_, ?_, by simpa using hfew⟩, ?_⟩
  · refine hstep.owned.perm ?_
    rw [map_append]
    exact (perm_append_singleton _ _).symm
  · intro z hz
    obtain hz | hz := mem_append.1 hz
    · rw [Fits, hkeep z hz]
      exact hinv.fits z hz
    · rw [mem_singleton.1 hz]
      exact hfits
  · rw [contents, map_append, map_singleton, hcontents]
    congr 1
    apply map_congr_left
    intro z hz
    rw [VectorImpl.contents, VectorImpl.contents, hkeep z hz]

/-- One step keeps the invariant and is a step of the lists. -/
theorem Vectors.step_gives {op : VectorOp α} (hinv : w.Inv t) (hproper : Proper t w op) :
    Gives (w.step t op) fun w' => w'.Inv t ∧ ListStep t w.contents w'.contents op := by
  have hlen : w.contents.length = w.vecs.length := length_map _
  cases op with
  | create =>
    have hhas : Has t (w.vecs.map (·.mStorage)) w.heap [] (w.heap, ⟨none, 0⟩) :=
      ⟨.refl (owned_none_cons.2 hinv.owned), Nat.zero_le _, rfl⟩
    exact .ok (hinv.append hproper hhas)
  | copy src =>
    rw [step]
    cases hsrc : w.vecs[src]? with
    | none =>
      refine .ok ⟨hinv, ?_⟩
      rw [ListStep, contents, getElem?_map, hsrc, Option.map_none, Option.toList_none,
        append_nil]
    | some rhs =>
      have hmem := mem_of_getElem? hsrc
      refine (copy_gives hinv.owned (mem_map_of_mem hmem) (hinv.fits rhs hmem)
        (by rw [length_map]; exact hproper)).bind ?_
      rintro ⟨h', y⟩ ⟨rfl, hhas⟩
      obtain ⟨hinv', hcontents⟩ := hinv.append hproper hhas
      refine .ok ⟨hinv', hcontents.trans ?_⟩
      rw [contents, getElem?_map, hsrc]
      rfl
  | assign dst src =>
    rw [step]
    cases hdst : w.vecs[dst]? with
    | none =>
      refine .ok ⟨hinv, ?_⟩
      rw [ListStep, set_eq_of_length_le (hlen.le.trans (getElem?_eq_none_iff.1 hdst)),
        ite_self]
    | some x =>
      cases hsrc : w.vecs[src]? with
      | none =>
        refine .ok ⟨hinv, ?_⟩
        rw [ListStep, if_neg (by rw [hlen]; exact not_lt.2 (getElem?_eq_none_iff.1 hsrc))]
      | some rhs =>
        obtain ⟨hlt, hget⟩ := List.getElem?_eq_some_iff.1 hsrc
        simp only [ListStep, if_pos (hlen.symm ▸ hlt), getD_contents hsrc]
        refine .ite (fun heq => .ok ⟨hinv, ?_⟩) fun hne => ?_
        · subst heq
          have hitem : w.contents[dst]? = some (rhs.contents w.heap) := by
            rw [contents, getElem?_map, hsrc]
            rfl
          obtain ⟨hlt', hget'⟩ := List.getElem?_eq_some_iff.1 hitem
          rw [← hget', set_getElem_self]
        · have hmem : rhs ∈ w.others dst :=
            mem_eraseIdx_iff_getElem.2 ⟨src, hlt, fun heq => hne heq.symm, hget⟩
          have hfew : ((w.others dst).map (·.mStorage)).length + 1 < 2 ^ 32 := by
            have hdlt := (List.getElem?_eq_some_iff.1 hdst).1
            have hfew := hinv.few
            rw [length_map, others, length_eraseIdx_of_lt hdlt]
            omega
          have hassign := assign_gives (hinv.owned.perm (perm_others hdst))
            (mem_map_of_mem hmem) (hinv.fits rhs (mem_of_getElem? hsrc)) hfew
          refine (hinv.put hdst
            (hassign.mono fun r hr => ⟨_, rfl, hr⟩)).mono ?_
          rintro w' ⟨hinv', l, rfl, hcontents⟩
          exact ⟨hinv', hcontents⟩
  | finish v =>
    rw [step]
    cases hv : w.vecs[v]? with
    | none =>
      refine .ok ⟨hinv, ?_⟩
      rw [ListStep, set_eq_of_length_le (hlen.le.trans (getElem?_eq_none_iff.1 hv))]
    | some x =>
      have hfinish := finishVector_gives (hinv.owned.perm (perm_others hv))
      refine (hinv.put hv (hfinish.mono fun r hr => ⟨_, rfl, hr⟩)).mono ?_
      rintro w' ⟨hinv', l, rfl, hcontents⟩
      exact ⟨hinv', hcontents⟩
  | edit v e =>
    rw [step]
    cases hv : w.vecs[v]? with
    | none =>
      have hge := getElem?_eq_none_iff.1 hv
      refine .ok ⟨hinv, fun hlt => ?_, fun _ => rfl⟩
      omega
    | some x =>
      refine (hinv.put hv (VectorEdit.run_gives hinv hv hproper)).mono ?_
      rintro w' ⟨hinv', l, heffect, hcontents⟩
      have hlt := (List.getElem?_eq_some_iff.1 hv).1
      refine ⟨hinv', fun _ => ⟨l, ?_, hcontents⟩, fun hge => ?_⟩
      · rw [getD_contents hv]
        exact heffect
      · omega

/-! ## Sorting -/

/-- `sort` is a stable sort of one vector, and the others keep their items. -/
theorem sort_stable {cmp : α → α → Int} (hinv : w.Inv t) (hv : v < w.vecs.length)
    (hcmp : IsOrder cmp) :
    ∃ w' l, w.step t (.edit v (.sort cmp)) = .ok w' ∧ w'.contents = w.contents.set v l ∧
      l.Perm (w.contents.getD v []) ∧ l.Pairwise (fun x y => cmp x y ≤ 0) ∧
      ∀ z, l.filter (alike cmp z) = (w.contents.getD v []).filter (alike cmp z) := by
  obtain ⟨x, hx⟩ : ∃ x, w.vecs[v]? = some x := ⟨_, getElem?_eq_getElem hv⟩
  have ho := hinv.owned.perm (perm_others hx)
  have hsort : Ends (fun _ => False) (x.sort t cmp w.heap) fun r =>
      ∃ l, l = sortList cmp (x.contents w.heap) ∧
        Has t ((w.others v).map (·.mStorage)) w.heap l r :=
    (sort_gives ho (hinv.fits x (mem_of_getElem? hx))).mono fun r hr => ⟨_, rfl, hr⟩
  obtain ⟨e, -, hfalse⟩ | ⟨w', hrun, -, l, rfl, hcontents⟩ := hinv.put hx hsort
  · exact hfalse.elim
  · obtain ⟨hperm, hsorted, -⟩ := sortList_stableSort cmp (x.contents w.heap)
    rw [getD_contents hx]
    refine ⟨w', _, ?_, hcontents, hperm, hsorted hcmp, filter_sortList hcmp _⟩
    rw [step, hx]
    exact hrun

/-! ## Every run -/

theorem Vectors.Inv.follows {ops : List (VectorOp α)} (hinv : w.Inv t)
    (hproper : AllProper t w ops) : Follows t w ops := by
  induction ops generalizing w with
  | nil => trivial
  | cons op ops ih =>
    obtain ⟨hop, hrest⟩ := hproper
    obtain ⟨e, herror, he⟩ | ⟨w', hstep, hinv', hlist⟩ := step_gives hinv hop
    · exact .inl ⟨e, herror, he⟩
    · exact .inr ⟨w', hstep, hlist, ih hinv' (hrest w' hstep)⟩

/-- Items that are numbers, with nothing trivial about them. -/
def numbers : ItemType Nat := ⟨4, by decide, false, false, false, false, 0, fun _ _ => 0⟩

/-- Two vectors that share a storage with the items 2 and 1. -/
def sharedPair : Vectors Nat where
  heap := ⟨fun a => if a = 0 then some ⟨2, 8, [2, 1]⟩ else none, 1⟩
  vecs := [⟨some 0, 2⟩, ⟨some 0, 2⟩]

theorem sharedPair_inv : sharedPair.Inv numbers := by
  have hcases {a : Nat} {b : SharedBuffer Nat} (hb : sharedPair.heap.buffers a = some b) :
      a = 0 ∧ b = ⟨2, 8, [2, 1]⟩ := by
    simpa [sharedPair, eq_comm] using hb
  refine ⟨⟨?_, ?_, ?_, ?_, ?_⟩, by simp [sharedPair, Fits, Heap.data], by decide⟩
  · intro a ha
    obtain rfl : a = 0 := by simpa [sharedPair] using ha
    exact ⟨_, rfl⟩
  all_goals
    intro a b hb
    obtain ⟨rfl, rfl⟩ := hcases hb
    decide

def byValue (x y : Nat) : Int := x - y

theorem byValue_isOrder : IsOrder byValue := by
  constructor <;> intros <;> simp only [byValue] at * <;> omega

theorem sort_stable_shared : ∃ w' l,
    sharedPair.step numbers (.edit 0 (.sort byValue)) = .ok w' ∧
      w'.contents = [[2, 1], [2, 1]].set 0 l ∧ l.Perm [2, 1] ∧
      l.Pairwise (fun x y => byValue x y ≤ 0) ∧
      ∀ z, l.filter (alike byValue z) = [2, 1].filter (alike byValue z) :=
  sort_stable (v := 0) sharedPair_inv (by decide) byValue_isOrder

end AndroidSystem.Utils
