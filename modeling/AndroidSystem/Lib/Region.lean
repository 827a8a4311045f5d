import AndroidSystem.Lib.LittleEndian
import Mathlib.Data.List.Infix

/-!
# Regions of memory

A region is what a pointer and a size describe: the bytes of one object, not larger than an object can
be. `read` and `write` are defined inside the region only. What is known about the bytes of a region
is that some list stands at an offset (`Holds`), and a part of what stands there can be read.
-/

namespace AndroidSystem

open List Option

/-- The bytes of an object. No object is larger than `PTRDIFF_MAX`. -/
structure Region where
  bytes : List UInt8
  small : bytes.length < 2 ^ 63
  deriving DecidableEq

variable {b : Region} {i k w : Nat}

namespace Region

def size (r : Region) : Nat := r.bytes.length

@[ext] theorem ext {r r' : Region} (h : r.bytes = r'.bytes) : r = r' := by
  cases r'
  cases h
  rfl

/-- The `n` bytes at `offset`. -/
def read (r : Region) (offset n : Nat) : Option Region :=
  if offset + n ≤ r.size then
    some ⟨(r.bytes.drop offset).take n, by
      have := r.small
      simp only [length_take, length_drop]
      omega⟩
  else none

/-- The region with the bytes `l` at `offset`. -/
def write (r : Region) (offset : Nat) (l : List UInt8) : Option Region :=
  if h : offset + l.length ≤ r.size then
    some ⟨r.bytes.take offset ++ l ++ r.bytes.drop (offset + l.length), by
      have := r.small
      unfold size at h
      simp only [length_append, length_take, length_drop]
      omega⟩
  else none

/-- The number in `n` bytes at `offset`. -/
def readWord (r : Region) (offset n : Nat) : Option Nat :=
  (r.read offset n).map fun word => unle word.bytes

/-- The bytes `l` stand at `offset`. -/
def Holds (r : Region) (offset : Nat) (l : List UInt8) : Prop := l <+: r.bytes.drop offset

section

variable {r r' : Region} {offset n : Nat} {l p m q : List UInt8}

theorem size_lt (r : Region) : r.size < 2 ^ 63 := r.small

theorem read_isSome : (r.read offset n).isSome ↔ offset + n ≤ r.size := by
  unfold read
  split_ifs with h <;> simp [h]

theorem readWord_isSome : (r.readWord offset n).isSome ↔ offset + n ≤ r.size := by
  unfold readWord
  rw [isSome_map, read_isSome]

section

variable (h : r.read offset n = some b)
include h

theorem read_size : offset + n ≤ r.size ∧ b.size = n ∧ b.bytes = (r.bytes.drop offset).take n := by
  unfold read at h
  split_ifs at h with hle
  cases h
  refine ⟨hle, ?_, rfl⟩
  show ((r.bytes.drop offset).take n).length = n
  unfold size at hle
  simp
  omega

theorem read_read (hk : i + k ≤ n) : b.read i k = r.read (offset + i) k := by
  obtain ⟨hle, hsize, hbytes⟩ := read_size h
  unfold read
  rw [if_pos (by omega), if_pos (by omega), some_inj]
  apply ext
  show (b.bytes.drop i).take k = (r.bytes.drop (offset + i)).take k
  rw [hbytes, drop_take, take_take, drop_drop, min_eq_left (by omega)]

theorem readWord_read (hk : i + k ≤ n) : b.readWord i k = r.readWord (offset + i) k := by
  unfold readWord
  rw [read_read h hk]

end

theorem readWord_one {b : UInt8} {rest : List UInt8} (h : r.bytes.drop offset = b :: rest) :
    r.readWord offset 1 = some b.toNat := by
  have hlen := congrArg length h
  rw [length_drop, length_cons] at hlen
  have hsome : (r.read offset 1).isSome := by
    rw [read_isSome]
    unfold size
    omega
  obtain ⟨c, hc⟩ := isSome_iff_exists.1 hsome
  obtain ⟨-, -, hbytes⟩ := read_size hc
  rw [h] at hbytes
  unfold readWord
  rw [hc, map_some, hbytes]
  simp [unle]

theorem readWord_low (h : r.readWord offset (n + 1) = some w) :
    r.readWord offset 1 = some (w % 256) := by
  obtain ⟨b, hb, rfl⟩ := map_eq_some_iff.1 h
  obtain ⟨hle, hsize, hbytes⟩ := read_size hb
  cases hdrop : r.bytes.drop offset with
  | nil =>
    rw [hdrop] at hbytes
    unfold size at hsize
    rw [hbytes] at hsize
    cases hsize
  | cons c l =>
    rw [hdrop, take_succ_cons] at hbytes
    rw [readWord_one hdrop, hbytes, some_inj, unle]
    have := c.toNat_lt
    omega

theorem Holds.read (h : r.Holds offset (p ++ m ++ q)) (hl : m ≠ []) :
    ∃ b, r.read (offset + p.length) m.length = some b ∧ b.bytes = m := by
  obtain ⟨rest, hrest⟩ := h
  have hdrop : r.bytes.drop (offset + p.length) = m ++ (q ++ rest) := by
    rw [← drop_drop, ← hrest, append_assoc, append_assoc, drop_left]
  have hlen := congrArg length hdrop
  have hpos := length_pos_of_ne_nil hl
  rw [length_drop, length_append] at hlen
  have hsome : (r.read (offset + p.length) m.length).isSome := by
    rw [read_isSome]
    unfold size
    omega
  obtain ⟨b, hb⟩ := isSome_iff_exists.1 hsome
  refine ⟨b, hb, ?_⟩
  rw [(read_size hb).2.2, hdrop, take_left]

theorem Holds.read_bytes {a : Region} (h : r.Holds offset (p ++ a.bytes ++ q)) (ha : 0 < a.size) :
    r.read (offset + p.length) a.size = some a := by
  obtain ⟨b, hb, hbytes⟩ := h.read (ne_nil_of_length_pos ha)
  exact hb.trans (congrArg some (Region.ext hbytes))

theorem Holds.readWord (hk : 0 < k) (h : r.Holds offset (p ++ le k w ++ q)) (hw : w < 256 ^ k) :
    r.readWord (offset + p.length) k = some w := by
  have hne : le k w ≠ [] := by
    intro hnil
    have := congrArg length hnil
    rw [length_le] at this
    simp only [length_nil] at this
    omega
  obtain ⟨b, hb, hbytes⟩ := h.read hne
  rw [length_le] at hb
  unfold Region.readWord
  rw [hb, map_some, hbytes, unle_le, Nat.mod_eq_of_lt hw]

/-- What is written stands there, with what stood before and after it. -/
theorem write_ok (r : Region) (offset : Nat) (l : List UInt8) (h : offset + l.length ≤ r.size) :
    ∃ r', r.write offset l = some r' ∧ r'.size = r.size ∧ r'.Holds offset l ∧
      r'.bytes.take offset = r.bytes.take offset ∧
      r'.bytes.drop (offset + l.length) = r.bytes.drop (offset + l.length) := by
  unfold size at h
  refine ⟨_, dif_pos h, ?_, ?_, ?_, ?_⟩
  · unfold size
    simp
    omega
  · unfold Holds
    have : (r.bytes.take offset).length = offset := by
      rw [length_take]
      omega
    dsimp only
    rw [append_assoc, drop_append_of_le_length (by omega), drop_eq_nil_of_le (by omega)]
    exact prefix_append ..
  · dsimp only
    rw [append_assoc, take_append_of_le_length (by rw [length_take]; omega),
      take_take, min_self]
  · rw [drop_append_of_le_length (by simp; omega), drop_eq_nil_of_le (by simp),
      nil_append]

theorem Holds.append (h1 : r.Holds offset p) (h2 : r.Holds (offset + p.length) m) :
    r.Holds offset (p ++ m) := by
  obtain ⟨rest, hrest⟩ := h1
  unfold Holds at h2 ⊢
  rw [← drop_drop, ← hrest, drop_left] at h2
  rw [← hrest]
  exact (prefix_append_right_inj p).2 h2

theorem Holds.right (h : r.Holds offset (p ++ m)) : r.Holds (offset + p.length) m := by
  obtain ⟨rest, hrest⟩ := h
  unfold Holds
  rw [← drop_drop, ← hrest, append_assoc, drop_left]
  exact prefix_append ..

/-- What stands before an offset only depends on the bytes before it. -/
theorem Holds.of_take (h : r.Holds offset l) (hk : offset + l.length ≤ k)
    (heq : r'.bytes.take k = r.bytes.take k) : r'.Holds offset l := by
  have hr : l <+: (r.bytes.take k).drop offset := by
    rw [drop_take]
    rw [prefix_take_iff]
    exact ⟨h, by omega⟩
  rw [← heq, drop_take, prefix_take_iff] at hr
  exact hr.1

end

end Region

end AndroidSystem
