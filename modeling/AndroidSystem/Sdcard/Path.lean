import AndroidSystem.Lib.Machine

/-!
# The path of a node

A model of `get_node_path_locked` of `sdcard.c`. The room that a node leaves for the path of its
parent is smaller by one byte than what the path may take, so that a path with parents has to fit
with a byte to spare for each of them. When the name of a node just fits, the difference wraps
around, and the parents may write as much as they like.
-/

namespace AndroidSystem.Sdcard

variable {buf : Nat → UInt8} {bufsize : Nat}

/-- The strings of a node. -/
structure Strings where
  name : List UInt8
  actualName : Option (List UInt8)
  graftPath : Option (List UInt8)
  /-- The two names have `namelen` in common. -/
  length_actualName : ∀ a ∈ actualName, a.length = name.length

/-- The string that the path ends with. -/
def Strings.last (s : Strings) : List UInt8 := s.graftPath.getD (s.actualName.getD s.name)

/-- A node with its parents. -/
inductive Lineage where
  | root (s : Strings)
  | child (s : Strings) (parent : Lineage)

def memcpy (buf : Nat → UInt8) (start : Nat) (bytes : List UInt8) : Nat → UInt8 :=
  fun i => if start ≤ i then bytes.getD (i - start) (buf i) else buf i

/-- The length of the path, or `none` for -1, and the memory at `buf` after the call. -/
def getNodePath : Lineage → (Nat → UInt8) → Nat → Option Nat × (Nat → UInt8)
  | .root s, buf, bufsize =>
    if bufsize < s.last.length + 1 then (none, buf)
    else (some s.last.length, memcpy buf 0 (s.last ++ [0]))
  | .child s parent, buf, bufsize =>
    if bufsize < s.last.length + 1 then (none, buf)
    else if s.graftPath.isNone then
      match getNodePath parent buf (u64OfInt (bufsize - s.last.length - 2)) with
      | (none, buf) => (none, buf)
      | (some pathlen, buf) =>
        (some (pathlen + 1 + s.last.length),
          memcpy (memcpy buf pathlen [47]) (pathlen + 1) (s.last ++ [0]))
    else (some s.last.length, memcpy buf 0 (s.last ++ [0]))

namespace Lineage

/-- The path of a node: that of its nearest grafted ancestor or of the root, and the names below. -/
def path : Lineage → List UInt8
  | root s => s.last
  | child s parent => if s.graftPath.isNone then parent.path ++ 47 :: s.last else s.last

/-- How many names the path has below its first string. -/
def depth : Lineage → Nat
  | root _ => 0
  | child s parent => if s.graftPath.isNone then parent.depth + 1 else 0

/-- The name of some node that needs its parent just fits into what is left of the buffer. -/
def JustFits : Lineage → Nat → Prop
  | root _, _ => False
  | child s parent, bufsize => s.graftPath.isNone ∧
      (bufsize = s.last.length + 1 ∨
        s.last.length + 2 ≤ bufsize ∧ parent.JustFits (bufsize - s.last.length - 2))

end Lineage

open Lineage List

/-! ## What is written -/

theorem memcpy_memcpy (c : UInt8) (l : List UInt8) (start : Nat) :
    memcpy (memcpy buf start [c]) (start + 1) l = memcpy buf start (c :: l) := by
  funext i
  unfold memcpy
  obtain hlt | rfl | hgt := lt_trichotomy i start
  · simp [hlt.not_ge, show ¬start + 1 ≤ i by omega]
  · simp
  · obtain ⟨k, rfl⟩ := Nat.exists_eq_add_of_lt hgt
    have hone : start + k + 1 - (start + 1) = k := by omega
    have hzero : start + k + 1 - start = k + 1 := by omega
    simp [hone, hzero, hgt.le]

/-- The string that is appended overwrites the terminator. -/
theorem memcpy_append (l r : List UInt8) (c d : UInt8) :
    memcpy (memcpy buf 0 (l ++ [d])) l.length (c :: r) = memcpy buf 0 (l ++ c :: r) := by
  funext i
  unfold memcpy
  by_cases h : l.length ≤ i
  · obtain ⟨k, rfl⟩ := Nat.exists_eq_add_of_le h
    cases k <;> simp [getElem?_append_right]
  · simp [h, getElem?_append_left (not_le.1 h)]

/-- A call writes the whole path, or nothing. -/
theorem getNodePath_eq (b : Lineage) (hb : b.path.length + b.depth < 2 ^ 63)
    (hsize : bufsize < 2 ^ 64) :
    (b.path.length + 1 + b.depth ≤ bufsize ∨ b.JustFits bufsize →
      getNodePath b buf bufsize = (some b.path.length, memcpy buf 0 (b.path ++ [0]))) ∧
    (¬(b.path.length + 1 + b.depth ≤ bufsize ∨ b.JustFits bufsize) →
      getNodePath b buf bufsize = (none, buf)) := by
  induction b generalizing bufsize with
  | root s =>
    simp only [path, JustFits, or_false, not_le]
    exact ⟨fun h => if_neg (by omega), fun h => if_pos h⟩
  | child s parent ih =>
    by_cases hgraft : s.graftPath.isNone
    · simp only [path, depth, hgraft, if_true, length_append] at hb
      simp only [getNodePath, path, depth, JustFits, hgraft, if_true, true_and, length_append,
        length_cons]
      have hjoin : memcpy (memcpy (memcpy buf 0 (parent.path ++ [0])) parent.path.length [47])
          (parent.path.length + 1) (s.last ++ [0]) =
            memcpy buf 0 (parent.path ++ 47 :: s.last ++ [0]) := by
        rw [memcpy_memcpy, memcpy_append, append_assoc]
        rfl
      have hlength : parent.path.length + 1 + s.last.length =
          parent.path.length + (s.last.length + 1) := by omega
      obtain hlt | heq | hgt := lt_trichotomy bufsize (s.last.length + 1)
      · exact ⟨fun h => by omega, fun _ => if_pos hlt⟩
      · -- what is left for the parent wraps around
        have hwrap : u64OfInt (bufsize - s.last.length - 2) = 2 ^ 64 - 1 := by
          rw [u64OfInt]; omega
        have hparent := (ih (by omega) (show 2 ^ 64 - 1 < 2 ^ 64 by omega)).1 (.inl (by omega))
        refine ⟨fun _ => ?_, fun h => absurd (.inr (.inl heq)) h⟩
        rw [if_neg (by omega), hwrap, hparent, ← hjoin, ← hlength]
      · have hleft : u64OfInt (bufsize - s.last.length - 2) = bufsize - s.last.length - 2 := by
          rw [u64OfInt]; omega
        have hparent := ih (by omega) (show bufsize - s.last.length - 2 < 2 ^ 64 by omega)
        have hroom : parent.path.length + (s.last.length + 1) + 1 + (parent.depth + 1) ≤ bufsize ↔
            parent.path.length + 1 + parent.depth ≤ bufsize - s.last.length - 2 := by omega
        rw [if_neg (by omega), hleft, hroom]
        refine ⟨fun h => ?_, fun h => ?_⟩
        · rw [hparent.1 (h.imp_right fun h => (h.resolve_left (by omega)).2), ← hjoin, ← hlength]
        · rw [hparent.2 fun hp => h (hp.imp_right fun hp => .inr ⟨by omega, hp⟩)]
    · simp only [getNodePath, path, depth, JustFits, hgraft, Bool.false_eq_true, if_false,
        false_and, or_false, not_le]
      exact ⟨fun h => if_neg (by omega), fun h => if_pos h⟩

/-! ## Right paths -/

/-- Nothing behind the buffer changes, and it has the path if the path fits. -/
def PathRight (b : Lineage) (bufsize : Nat) : Prop :=
  ∀ buf, (∀ i, bufsize ≤ i → (getNodePath b buf bufsize).2 i = buf i) ∧
    if b.path.length + 1 ≤ bufsize then
      (getNodePath b buf bufsize).1 = some b.path.length ∧
        ∀ i ≤ b.path.length, (getNodePath b buf bufsize).2 i = (b.path ++ [0]).getD i 0
    else (getNodePath b buf bufsize).1 = none

/-- A path is right if it fits with bytes to spare, or if a name just fits exactly when it fits. -/
theorem getNodePath_right_iff (b : Lineage) (hb : b.path.length + b.depth < 2 ^ 63)
    (hsize : bufsize < 2 ^ 64) :
    PathRight b bufsize ↔ b.path.length + 1 + b.depth ≤ bufsize ∨
      (b.JustFits bufsize ↔ b.path.length + 1 ≤ bufsize) := by
  have hrun (buf : Nat → UInt8) := @getNodePath_eq buf bufsize b hb hsize
  have hless : b.path.length + 1 + b.depth ≤ bufsize → b.path.length + 1 ≤ bufsize := by omega
  by_cases hwrites : b.path.length + 1 + b.depth ≤ bufsize ∨ b.JustFits bufsize
  · have hiff : PathRight b bufsize ↔ b.path.length + 1 ≤ bufsize := by
      simp only [PathRight, (hrun _).1 hwrites]
      constructor
      · intro h
        by_contra hno
        simpa [hno] using (h fun _ => 0).2
      · intro h buf
        rw [if_pos h]
        refine ⟨fun i hi => ?_, trivial, fun i hi => ?_⟩
        · have hge : (b.path ++ [0]).length ≤ i := by simp; omega
          simp [memcpy, getElem?_eq_none hge]
        · have hlt : i < (b.path ++ [0]).length := by simp; omega
          simp [memcpy, getElem?_eq_getElem hlt]
    rw [hiff]
    tauto
  · have hiff : PathRight b bufsize ↔ ¬b.path.length + 1 ≤ bufsize := by
      simp only [PathRight, (hrun _).2 hwrites]
      constructor
      · intro h hle
        simpa [hle] using (h fun _ => 0).2
      · intro h buf
        simp [h]
    rw [hiff]
    tauto

/-- The node `a` below the root `/x`. -/
def smallLineage : Lineage :=
  .child ⟨[97], none, none, by simp⟩ (.root ⟨[47, 120], none, none, by simp⟩)

theorem getNodePath_right_small : PathRight smallLineage 6 :=
  (getNodePath_right_iff smallLineage (by decide) (by decide)).2 (.inl (by decide))

/-- A buffer of two bytes gets a path of four. -/
theorem getNodePath_overflows : ¬PathRight smallLineage 2 := by
  intro h
  exact absurd ((h fun _ => 1).1 4 (by decide)) (by decide)

end AndroidSystem.Sdcard
