import AndroidSystem.Utils.BlobCacheRun

/-!
# `BlobCache` through a buffer

What `flatten` writes, `unflatten` reads (`Flat`, `scan_flat`). Into a cache with the total size `d`
left over from earlier entries it puts the same entries, if there is room for them above `d`
(`unflatten_flat_iff`). For any other buffer, `Loadable` is exactly when `unflatten` returns.
-/

namespace AndroidSystem.Utils.BlobCache

open List Option Region

variable {buildId : BuildId}

variable {key value : Region} {c : BlobCache} {byteOffset : Nat}

/-! ## States -/

/-- What holds in every state. -/
structure Inv (c : BlobCache) : Prop where
  sorted : Sorted c.entries
  admitted : Admitted c c.entries
  drift : ∃ d, Drift d c

section Inv

variable {c c' : BlobCache} {buffer : Region} {d : Nat} {l : List (Region × Region)}

/-- What `set` does to the entries: it puts one, and may remove others before. -/
theorem setLoop_entries (h : Drift d c) (hsize : key.size + value.size < 2 ^ 63)
    (hset : setLoop 2 c key value = .ok c') {P : List (Region × Region) → Prop} (hP : P c.entries)
    (hput : ∀ l, P l → P (put key value l)) (hsub : ∀ l l', l'.Sublist l → P l → P l') :
    P c'.entries := by
  obtain ⟨c1, hc1, hc'⟩ := set_returns h.total (h.le.trans_lt h.lt) hsize hset
  have hP1 : P c1.entries := by
    obtain rfl | hclean := hc1
    · exact hP
    · exact hsub _ _ hclean.sublist hP
  obtain rfl | ⟨-, rfl⟩ := hc'
  · exact hP1
  · exact hput _ hP1

theorem Inv.setLoop (h : Inv c) (hadmits : c.admits key.size value.size = true)
    (hset : setLoop 2 c key value = .ok c') : Inv c' := by
  obtain ⟨d, hdrift⟩ := h.drift
  have hsize := size_lt hdrift.lt (e := (key, value)) hadmits
  have hentries := fun {P} => setLoop_entries (P := P) hdrift hsize hset
  refine ⟨?_, ?_, d, hdrift.set hsize hset⟩
  · exact hentries h.sorted (fun l hl => put_sorted hl key value)
      (fun l l' hsub hl => hl.sublist hsub)
  · unfold Admitted
    rw [(setLoop_limits hset).admits]
    refine hentries h.admitted (fun l hl e he => ?_)
      (fun l l' hsub hl e he => hl e (hsub.subset he))
    obtain rfl | he := mem_put he
    · exact hadmits
    · exact hl e he

theorem Inv.loadAll (h : Inv c) (hl : Admitted c l) (hload : loadAll c l = .ok c') : Inv c' := by
  have hkeeps := loadAll_keeps (P := fun c1 => Inv c1 ∧ SameLimits c c1)
    (fun c1 c2 e he hc1 hset => ?_) ⟨h, .refl c⟩ hload
  · exact hkeeps.1
  · exact ⟨hc1.1.setLoop (hc1.2.admits ▸ hl e he) hset, hc1.2.trans (setLoop_limits hset)⟩

/-- `unflatten` begins with an empty cache, and its old total. -/
theorem Inv.emptied (h : Inv c) :
    Inv { c with entries := [] } ∧ Drift c.totalSize { c with entries := [] } := by
  obtain ⟨d, hdrift⟩ := h.drift
  have hdrift' : Drift c.totalSize { c with entries := [] } := ⟨rfl, hdrift.le, hdrift.lt⟩
  refine ⟨⟨List.Pairwise.nil, ?_, _, hdrift'⟩, hdrift'⟩
  intro e he
  cases he

theorem Inv.unflatten (h : Inv c) {status : Status}
    (hrun : c.unflatten buildId buffer = .ok (status, c')) : Inv c' := by
  obtain ⟨hempty, -⟩ := h.emptied
  obtain rfl | ⟨n, c1, -, hload, hc'⟩ := unflatten_cases hrun
  · exact hempty
  · have hinv := hempty.loadAll (scan_admitted c buffer n _) hload
    obtain rfl | ⟨-, rfl⟩ := hc'
    · exact hinv
    · exact hinv.emptied.1

theorem Reach.inv {ok : BlobCache → Region → Prop} (h : Reach buildId ok c)
    (hmax : c.maxTotalSize < 2 ^ 63) : Inv c := by
  induction h with
  | new maxKeySize maxValueSize maxTotalSize rand =>
    refine ⟨List.Pairwise.nil, ?_, 0, rfl, Nat.zero_le _, hmax⟩
    intro e he
    cases he
  | set key value _ hset ih =>
    have hinv := ih ((set_limits hset).total ▸ hmax)
    unfold BlobCache.set setSized at hset
    split_ifs at hset with hadmits
    · exact hinv.setLoop hadmits hset
    · cases hset
      exact hinv
  | unflatten buffer _ _ hrun ih => exact (ih ((unflatten_limits hrun).total ▸ hmax)).unflatten hrun

end Inv

/-! ## The sizes of serialized entries -/

/-- The size of all serialized entries. -/
def flatTotal (entries : List (Region × Region)) : Nat :=
  (entries.map fun e => flatSize e.1.size e.2.size).sum

section Sizes

variable {e : Region × Region} {entries : List (Region × Region)}

theorem flatSize_bounds {keySize valueSize : Nat} (h : 16 + keySize + valueSize + 3 < 2 ^ 64) :
    sizeofEntryHeader + keySize + valueSize ≤ flatSize keySize valueSize ∧
      flatSize keySize valueSize ≤ sizeofEntryHeader + keySize + valueSize + 3 := by
  have hsum : u64 (16 + keySize + valueSize) = 16 + keySize + valueSize := u64_of_lt (by omega)
  unfold flatSize align4 sizeofEntryHeader
  rw [u64_of_lt (by omega)]
  omega

theorem length_flatEntry (h : e.1.size + e.2.size < 2 ^ 63) :
    (flatEntry e).length = flatSize e.1.size e.2.size := by
  have hbounds := flatSize_bounds (by omega : 16 + e.1.size + e.2.size + 3 < _)
  unfold flatEntry
  rw [u64_of_lt (by unfold sizeofEntryHeader; omega)]
  simp
  unfold size at hbounds ⊢
  unfold sizeofEntryHeader at hbounds ⊢
  omega

theorem flatTotal_cons (e : Region × Region) (entries : List (Region × Region)) :
    flatTotal (e :: entries) = flatSize e.1.size e.2.size + flatTotal entries := by
  simp [flatTotal]

theorem length_le_flatTotal (hmax : c.maxTotalSize < 2 ^ 63) (h : Admitted c entries) :
    entries.length ≤ flatTotal entries := by
  induction entries with
  | nil => exact le_rfl
  | cons e entries ih =>
    have hsize := size_lt hmax (h e (by simp))
    have hbounds := flatSize_bounds (by omega : 16 + e.1.size + e.2.size + 3 < _)
    have := ih fun e' he' => h e' (by simp [he'])
    rw [flatTotal_cons, length_cons]
    unfold sizeofEntryHeader at hbounds
    omega

theorem foldl_flatSize (size : Nat) (h : size + flatTotal entries < 2 ^ 64) :
    entries.foldl (fun size e => u64 (size + flatSize e.1.size e.2.size)) size
      = size + flatTotal entries := by
  induction entries generalizing size with
  | nil => rfl
  | cons e entries ih =>
    rw [flatTotal_cons] at h
    rw [foldl_cons, u64_of_lt (by omega), ih _ (by omega), flatTotal_cons]
    omega

theorem getFlattenedSize_eq (hsmall : 124 + flatTotal c.entries < 2 ^ 63) :
    c.getFlattenedSize = 124 + flatTotal c.entries := by
  unfold getFlattenedSize
  rw [foldl_flatSize _ (by
    show 124 + flatTotal c.entries < 2 ^ 64
    omega)]
  rfl

end Sizes

/-! ## Writing and reading -/

/-- What `flatten` leaves in a buffer. -/
structure Flat (buildId : BuildId) (entries : List (Region × Region)) (buffer : Region) : Prop where
  room : firstEntry buildId + flatTotal entries ≤ buffer.size
  versions : buffer.Holds 0
    (le 4 blobCacheMagic ++ le 4 blobCacheVersion ++ le 4 blobCacheDeviceVersion)
  build : buffer.Holds 16 (le 8 entries.length ++ le 4 buildId.bytes.length ++ buildId.bytes)
  entries : buffer.Holds (firstEntry buildId) (entries.flatMap flatEntry)

section Flat

variable {c : BlobCache} {entries : List (Region × Region)} {buffer : Region}

theorem firstEntry_bounds (buildId : BuildId) :
    32 + buildId.bytes.length ≤ firstEntry buildId ∧ firstEntry buildId ≤ 124 := by
  have hshort := buildId.short
  unfold propertyValueMax at hshort
  unfold firstEntry align4 sizeofHeader
  rw [u64_of_lt (by omega)]
  omega

theorem flattenLoop_ok (hmax : c.maxTotalSize < 2 ^ 63) (hadmitted : Admitted c entries)
    (hroom : byteOffset + flatTotal entries ≤ buffer.size) :
    ∃ buffer', flattenLoop entries byteOffset buffer = .ok (.ok, buffer') ∧
      buffer'.size = buffer.size ∧
      buffer'.bytes.take byteOffset = buffer.bytes.take byteOffset ∧
      buffer'.Holds byteOffset (entries.flatMap flatEntry) := by
  induction entries generalizing byteOffset buffer with
  | nil => exact ⟨buffer, rfl, rfl, rfl, nil_prefix⟩
  | cons e entries ih =>
    have hlen := length_flatEntry (size_lt hmax (hadmitted e (by simp)))
    have hsmall := buffer.size_lt
    rw [flatTotal_cons] at hroom
    obtain ⟨b1, hwrite, hsize1, hholds1, htake1, -⟩ :=
      write_ok buffer byteOffset (flatEntry e) (by omega)
    obtain ⟨b', hrun, hsize', htake', hholds'⟩ := ih
      (fun e' he' => hadmitted e' (by simp [he']))
      (show byteOffset + flatSize e.1.size e.2.size + flatTotal entries ≤ b1.size by omega)
    refine ⟨b', ?_, hsize'.trans hsize1, ?_, ?_⟩
    · unfold flattenLoop
      dsimp only
      rw [u64_of_lt (by omega), if_neg (by omega), hwrite]
      exact hrun
    · have := congrArg (take byteOffset) htake'
      rw [take_take, take_take, min_eq_left (by omega)] at this
      exact this.trans htake1
    · apply Holds.append
      · exact hholds1.of_take (by omega) htake'
      · rw [hlen]
        exact hholds'

theorem flatten_ok (h : Inv c) (hsmall : 124 + flatTotal c.entries < 2 ^ 63) (buildId : BuildId)
    {init : Region} (hsize : init.size = c.getFlattenedSize) :
    ∃ buffer, c.flatten buildId init = .ok (.ok, buffer) ∧ Flat buildId c.entries buffer := by
  obtain ⟨d, hdrift⟩ := h.drift
  have hflat := getFlattenedSize_eq hsmall
  obtain ⟨hlow, hhigh⟩ := firstEntry_bounds buildId
  obtain ⟨b1, hwrite1, hsize1, hholds1, -, -⟩ := write_ok init 0
    (le 4 blobCacheMagic ++ le 4 blobCacheVersion ++ le 4 blobCacheDeviceVersion)
    (by simp; omega)
  obtain ⟨b2, hwrite2, hsize2, hholds2, htake2, -⟩ := write_ok b1 16
    (le 8 c.entries.length ++ le 4 buildId.bytes.length ++ buildId.bytes) (by simp; omega)
  obtain ⟨b3, hrun, hsize3, htake3, hholds3⟩ := flattenLoop_ok hdrift.lt h.admitted
    (show firstEntry buildId + flatTotal c.entries ≤ b2.size by omega)
  refine ⟨b3, ?_, by omega, ?_, ?_, hholds3⟩
  · unfold flatten
    rw [if_neg (by unfold sizeofHeader; omega), hwrite1]
    show (need (b1.write 16 _) >>= _) = _
    rw [hwrite2]
    exact hrun
  · apply Holds.of_take _ _ htake3
    · exact hholds1.of_take (by simp) htake2
    · simp
      omega
  · apply hholds2.of_take _ htake3
    simp
    omega

theorem Flat.readHeader (h : Flat buildId entries buffer) (hmax : c.maxTotalSize < 2 ^ 63)
    (hadmitted : Admitted c entries) :
    readHeader buildId buffer = .ok (.accept entries.length) := by
  obtain ⟨hlow, -⟩ := firstEntry_bounds buildId
  have hroom := h.room
  have hshort := buildId.short
  unfold propertyValueMax at hshort
  have hcount : entries.length < 2 ^ 64 := by
    have := length_le_flatTotal hmax hadmitted
    have := buffer.size_lt
    omega
  have hnamed : Named buildId buffer := by
    refine ⟨by unfold sizeofHeader; omega, ?_, ?_, ?_, ?_⟩
    · exact Holds.readWord (p := []) (by decide)
        (by simpa [append_assoc] using h.versions) (by decide)
    · exact Holds.readWord (by decide) h.versions (by decide)
    · exact Holds.readWord (p := le 4 blobCacheMagic ++ le 4 blobCacheVersion) (q := [])
        (by decide) (by simpa using h.versions) (by decide)
    · exact Holds.readWord (by decide) h.build (by omega)
  obtain ⟨n, hn, hheader⟩ := readHeader_named hnamed
  have hn' : buffer.readWord 16 8 = some entries.length :=
    Holds.readWord (p := []) (by decide)
      (by simpa [append_assoc] using h.build) (by omega)
  have hbuild : buildId.bytes <+: buffer.bytes.drop 28 := by
    have := h.build.right
    simpa [Holds] using this
  rw [hn', some_inj] at hn
  obtain ⟨-, hcmp⟩ | ⟨hnot, -⟩ | ⟨hnot, -⟩ :=
    strncmpEq_cases buildId.noNul (show 28 ≤ buffer.size by omega)
  · rw [hheader, hcmp, ← hn]
    rfl
  · exact absurd hbuild hnot
  · exact absurd hbuild hnot

theorem scan_flat (hmax : c.maxTotalSize < 2 ^ 63) (hadmitted : Admitted c entries)
    (hroom : byteOffset + flatTotal entries ≤ buffer.size)
    (hholds : buffer.Holds byteOffset (entries.flatMap flatEntry)) :
    scan c.admits buffer entries.length byteOffset = (entries, .complete) := by
  induction entries generalizing byteOffset with
  | nil => rfl
  | cons e entries ih =>
    have hadmits := hadmitted e (by simp)
    have hsize := size_lt hmax hadmits
    have hpos := (admits_iff (by omega)).1 hadmits
    have hbounds := flatSize_bounds (by omega : 16 + e.1.size + e.2.size + 3 < _)
    have hlen := length_flatEntry hsize
    have hsmall := buffer.size_lt
    rw [flatTotal_cons] at hroom
    rw [flatMap_cons] at hholds
    have hnext := ih (fun e' he' => hadmitted e' (by simp [he'])) (by omega) (hlen ▸ hholds.right)
    -- the parts of the entry
    obtain ⟨tail, htail⟩ : ∃ tail, flatEntry e ++ entries.flatMap flatEntry =
        le 8 e.1.size ++ (le 8 e.2.size ++ (e.1.bytes ++ (e.2.bytes ++ tail))) :=
      ⟨_, by simp only [flatEntry, append_assoc]; rfl⟩
    rw [htail] at hholds
    have hkeySize : buffer.readWord byteOffset 8 = some e.1.size :=
      Holds.readWord (p := []) (by decide) hholds (by omega)
    have hvalueSize : buffer.readWord (byteOffset + 8) 8 = some e.2.size :=
      Holds.readWord (p := le 8 e.1.size) (by decide)
        (by rw [append_assoc]; exact hholds) (by omega)
    have hkey : buffer.read (byteOffset + 16) e.1.size = some e.1 :=
      Holds.read_bytes (p := le 8 e.1.size ++ le 8 e.2.size) (by simpa using hholds) hpos.2.2.2.1
    have hvalue := Holds.read_bytes (p := le 8 e.1.size ++ le 8 e.2.size ++ e.1.bytes)
      (by simpa using hholds) hpos.2.2.2.2
    rw [length_append, ← add_assoc] at hvalue
    change buffer.read (byteOffset + 16 + e.1.size) e.2.size = _ at hvalue
    unfold sizeofEntryHeader at hbounds
    rw [length_cons, scan, if_neg (by rw [u64_of_lt] <;> unfold sizeofEntryHeader <;> omega),
      hkeySize, hvalueSize]
    dsimp only
    rw [u64_of_lt (by omega), if_neg (by omega), if_pos hadmits, sizeofEntryHeader, hkey, hvalue,
      hnext]

theorem insertEntry_last {e : Region × Region} (h : ∀ x ∈ entries, blobLt x.1 e.1 = true) :
    insertEntry e entries = entries ++ [e] := by
  induction entries with
  | nil => rfl
  | cons x entries ih =>
    unfold insertEntry
    rw [if_neg (by rw [blobLt_asymm (h x (by simp))]; simp),
      ih fun y hy => h y (by simp [hy])]
    rfl

theorem replay_sorted {l : List (Region × Region)} (h : Sorted (entries ++ l)) :
    replay entries l = entries ++ l := by
  induction l generalizing entries with
  | nil => exact (append_nil _).symm
  | cons e l ih =>
    have hless : ∀ x ∈ entries, blobLt x.1 e.1 = true := by
      intro x hx
      exact (pairwise_append.1 h).2.2 x hx e (by simp)
    have hput : put e.1 e.2 entries = entries ++ [e] := by
      have hnone : (entries.findIdx? fun x => x.1 = e.1) = none := by
        simp only [findIdx?_eq_none_iff, decide_eq_false_iff_not]
        intro x hx
        exact ne_of_blobLt (hless x hx)
      unfold put
      rw [hnone]
      exact insertEntry_last hless
    show replay (put e.1 e.2 entries) l = _
    rw [hput, ih (by simpa using h), append_assoc]
    rfl

end Flat

/-! ## The round trip -/

/-- The entry headers that pass the checks of `unflatten`: their offsets and the two sizes. -/
def headers (buffer : Region) : Nat → Nat → List (Nat × Nat × Nat)
  | 0, _ => []
  | n + 1, byteOffset =>
    if u64 (byteOffset + sizeofEntryHeader) > buffer.size then []
    else match buffer.readWord byteOffset 8, buffer.readWord (byteOffset + 8) 8 with
      | some keySize, some valueSize =>
        let next := u64 (byteOffset + flatSize keySize valueSize)
        if next > buffer.size then [] else (byteOffset, keySize, valueSize) :: headers buffer n next
      | _, _ => []

/-- No entry that passes the checks is so large that its end overflows. -/
def NoOverflow (c : BlobCache) (buffer : Region) (n byteOffset : Nat) : Prop :=
  ∀ h ∈ headers buffer n byteOffset, c.admits h.2.1 h.2.2 = true →
    h.1 + sizeofEntryHeader + h.2.1 + h.2.2 + 3 < 2 ^ 64

/-- A key or a value is outside the buffer exactly if the end of its entry overflows. -/
theorem scan_outside_iff (c : BlobCache) (buffer : Region) {n : Nat} (hoffset : byteOffset < 2 ^ 63) :
    (scan c.admits buffer n byteOffset).2 ≠ .outside ↔ NoOverflow c buffer n byteOffset := by
  have hsmall := buffer.size_lt
  unfold NoOverflow
  induction n generalizing byteOffset with
  | zero => simp [scan, headers]
  | succ n ih =>
    unfold scan headers
    by_cases hshort : u64 (byteOffset + sizeofEntryHeader) > buffer.size
    · simp [hshort]
    rw [if_neg hshort, if_neg hshort]
    unfold sizeofEntryHeader at hshort ih ⊢
    rw [u64_of_lt (by omega)] at hshort
    obtain ⟨keySize, hkey⟩ := isSome_iff_exists.1
      (readWord_isSome.2 (show byteOffset + 8 ≤ buffer.size by omega))
    obtain ⟨valueSize, hvalue⟩ := isSome_iff_exists.1
      (readWord_isSome.2 (show byteOffset + 8 + 8 ≤ buffer.size by omega))
    rw [hkey, hvalue]
    dsimp only
    by_cases hshort' : u64 (byteOffset + flatSize keySize valueSize) > buffer.size
    · simp [hshort']
    have hnext := ih (show u64 (byteOffset + flatSize keySize valueSize) < 2 ^ 63 by omega)
    rw [if_neg hshort', if_neg hshort', forall_mem_cons]
    by_cases hadmits : c.admits keySize valueSize = true
    · rw [if_pos hadmits]
      by_cases hend : byteOffset + 16 + keySize + valueSize + 3 < 2 ^ 64
      · -- both are in the buffer
        have hflat := flatSize_bounds (by omega : 16 + keySize + valueSize + 3 < _)
        unfold sizeofEntryHeader at hflat
        rw [u64_of_lt (by omega)] at hshort'
        obtain ⟨key, hread⟩ := isSome_iff_exists.1
          (read_isSome.2 (show byteOffset + 16 + keySize ≤ buffer.size by omega))
        obtain ⟨value, hread'⟩ := isSome_iff_exists.1
          (read_isSome.2 (show byteOffset + 16 + keySize + valueSize ≤ buffer.size by omega))
        rw [hread, hread']
        exact hnext.trans ⟨fun h => ⟨fun _ => hend, h⟩, And.right⟩
      · -- the value does not end in any buffer
        refine iff_of_false (fun h => h ?_) (fun h => hend (h.1 hadmits))
        have hread : buffer.read (byteOffset + 16 + keySize) valueSize = none := by
          rw [← not_isSome_iff_eq_none, read_isSome]
          omega
        rw [hread]
        cases buffer.read (byteOffset + 16) keySize <;> rfl
    · rw [if_neg hadmits]
      exact hnext.trans ⟨fun h => ⟨fun h' => absurd h' hadmits, h⟩, And.right⟩

/-- A buffer that `unflatten` can read, for a cache with what is left of its total size: the build id
does not run out of the buffer, no entry overflows, and what is read fits, or at most half of the
limit is left over. -/
def Loadable (buildId : BuildId) (c : BlobCache) (buffer : Region) : Prop :=
  Named buildId buffer →
    (buildId.bytes <+: buffer.bytes.drop 28 ∨ ¬buffer.bytes.drop 28 <+: buildId.bytes) ∧
    ∀ n, buildId.bytes <+: buffer.bytes.drop 28 → buffer.readWord 16 8 = some n →
      NoOverflow c buffer n (firstEntry buildId) ∧
      (c.totalSize ≤ c.maxTotalSize / 2 ∨ ∀ p, p <+: (scan c.admits buffer n (firstEntry buildId)).1 →
        c.totalSize + stored (replay [] p) ≤ c.maxTotalSize)

section RoundTrip

variable {c d : BlobCache} {buffer : Region}

theorem unflatten_flat (hc : Inv c) (hlimits : SameLimits c d)
    (hflat : Flat buildId c.entries buffer) : d.unflatten buildId buffer =
      (loadAll { d with entries := [] } c.entries >>= fun d' => .ok (.ok, d')) := by
  obtain ⟨_, hdrift⟩ := hc.drift
  rw [unflatten_accept d (hflat.readHeader hdrift.lt hc.admitted), hlimits.admits,
    scan_flat hdrift.lt hc.admitted hflat.room hflat.entries]
  rfl

/-- The entries of a flattened cache fit above the old total, or do not arrive. -/
theorem unflatten_flat_iff (hc : Inv c) (hd : Inv d) (hlimits : SameLimits c d)
    (hflat : Flat buildId c.entries buffer) :
    (∃ d', d.unflatten buildId buffer = .ok (.ok, d') ∧ d'.entries = c.entries) ↔
      d.totalSize + stored c.entries ≤ c.maxTotalSize := by
  obtain ⟨-, hdrift⟩ := hd.emptied
  have hadmitted : Admitted { d with entries := [] } c.entries := by
    intro e he
    show d.admits _ _ = true
    rw [hlimits.admits]
    exact hc.admitted e he
  rw [unflatten_flat hc hlimits hflat]
  constructor
  · rintro ⟨d', hload, hentries⟩
    cases hd' : loadAll { d with entries := [] } c.entries with
    | error fault =>
      rw [hd'] at hload
      cases hload
    | ok d1 =>
      have hdrift' := hdrift.of_loadAll hadmitted hd'
      rw [hd'] at hload
      cases hload
      have htotal := hdrift'.total
      have hle := hdrift'.le
      rw [hentries] at htotal
      rw [(loadAll_limits hd').total] at hle
      rw [hlimits.total] at hle
      omega
  · intro hfits
    have hload := loadAll_fits hdrift hadmitted (by
      intro p hp
      have hsorted : Sorted p := hc.sorted.sublist hp.sublist
      have := stored_sublist hp.sublist
      rw [show replay [] p = p from replay_sorted hsorted, hlimits.total]
      omega)
    rw [hload]
    exact ⟨_, rfl, replay_sorted hc.sorted⟩

theorem finish_iff (l : Except BlobFault BlobCache) (outcome : Outcome) :
    (∃ status c', (l >>= fun c => c.finish outcome) = .ok (status, c') ∧
      (status = .ok ∨ c'.entries = [])) ↔ outcome ≠ .outside ∧ ∃ c, l = .ok c := by
  cases l with
  | error fault =>
    constructor
    · rintro ⟨status, c', hrun, -⟩
      cases hrun
    · rintro ⟨-, c, hc⟩
      cases hc
  | ok c =>
    cases outcome with
    | complete => exact ⟨fun _ => ⟨by decide, c, rfl⟩, fun _ => ⟨_, _, rfl, .inl rfl⟩⟩
    | tooShort => exact ⟨fun _ => ⟨by decide, c, rfl⟩, fun _ => ⟨_, _, rfl, .inr rfl⟩⟩
    | outside =>
      constructor
      · rintro ⟨status, c', hrun, -⟩
        cases hrun
      · exact fun h => absurd rfl h.1

/-- `unflatten` returns exactly for the buffers it can read. -/
theorem unflatten_iff (hd : Inv d) (buffer : Region) :
    (∃ status d', d.unflatten buildId buffer = .ok (status, d') ∧
      (status = .ok ∨ d'.entries = [])) ↔ Loadable buildId d buffer := by
  obtain ⟨-, hdrift⟩ := hd.emptied
  by_cases hnamed : Named buildId buffer
  · obtain ⟨n, hn, hheader⟩ := readHeader_named hnamed
    have hsize := hnamed.size
    unfold sizeofHeader at hsize
    obtain ⟨hbuild, hcmp⟩ | ⟨hbuild, hother, hcmp⟩ | ⟨hbuild, hother, hcmp⟩ :=
      strncmpEq_cases buildId.noNul (show 28 ≤ buffer.size by omega)
    · -- the entries are read
      have haccept : readHeader buildId buffer = .ok (.accept n) := by
        rw [hheader, hcmp]
        rfl
      have hadmitted := scan_admitted d buffer n (firstEntry buildId)
      have hloadable : Loadable buildId d buffer ↔
          NoOverflow d buffer n (firstEntry buildId) ∧
          (d.totalSize ≤ d.maxTotalSize / 2 ∨
            ∀ p, p <+: (scan d.admits buffer n (firstEntry buildId)).1 →
              d.totalSize + stored (replay [] p) ≤ d.maxTotalSize) := by
        refine ⟨fun h => (h hnamed).2 n hbuild hn, fun h _ => ⟨.inl hbuild, fun m _ hm => ?_⟩⟩
        rw [hn, some_inj] at hm
        subst hm
        exact h
      have hfirst := (firstEntry_bounds buildId).2
      rw [hloadable, unflatten_accept d haccept]
      exact (finish_iff _ _).trans
        (and_congr (scan_outside_iff d buffer (by omega)) (loadAll_iff hdrift hadmitted))
    · -- another build
      have hstop : readHeader buildId buffer = .ok (.stop .ok) := by
        rw [hheader, hcmp]
        rfl
      refine ⟨fun _ _ => ⟨.inr hother, fun m hm => absurd hm hbuild⟩, fun _ => ?_⟩
      exact ⟨_, _, unflatten_stop d hstop, .inl rfl⟩
    · -- the build id runs out of the buffer
      have herror : readHeader buildId buffer = .error .outside := by
        rw [hheader, hcmp]
        rfl
      constructor
      · rintro ⟨status, d', hrun, -⟩
        unfold unflatten at hrun
        rw [herror] at hrun
        cases hrun
      · intro h
        obtain hbuild' | hother' := (h hnamed).1
        · exact absurd hbuild' hbuild
        · exact absurd hother hother'
  · obtain ⟨status, hstop⟩ := readHeader_unnamed hnamed
    refine ⟨fun _ h => absurd h hnamed, fun _ => ?_⟩
    exact ⟨_, _, unflatten_stop d hstop, .inr rfl⟩

/-- A flattened cache arrives if its entries fit above the old total of the receiver; and `unflatten`
returns for the buffers that can be read. -/
theorem blobCache_roundTrip (hc : Reach buildId (fun _ _ => True) c)
    (hd : Reach buildId (fun _ _ => True) d) (hlimits : SameLimits c d)
    (hmax : c.maxTotalSize < 2 ^ 63) (hsmall : 124 + flatTotal c.entries < 2 ^ 63) :
    (∀ init : Region, init.size = c.getFlattenedSize →
      ∃ buffer, c.flatten buildId init = .ok (.ok, buffer) ∧
        ((∃ d', d.unflatten buildId buffer = .ok (.ok, d') ∧ d'.entries = c.entries) ↔
          d.totalSize + stored c.entries ≤ c.maxTotalSize)) ∧
    ∀ buffer, (∃ status d', d.unflatten buildId buffer = .ok (status, d') ∧
      (status = .ok ∨ d'.entries = [])) ↔ Loadable buildId d buffer := by
  have hc := hc.inv hmax
  have hd := hd.inv (hlimits.total.symm ▸ hmax)
  refine ⟨fun init hinit => ?_, unflatten_iff hd⟩
  obtain ⟨buffer, hflatten, hflat⟩ := flatten_ok hc hsmall buildId hinit
  exact ⟨buffer, hflatten, unflatten_flat_iff hc hd hlimits hflat⟩

end RoundTrip

/-! ### Two entries -/

/-- A full cache. -/
def fullCache : BlobCache :=
  { new 4 4 8 (fun _ => 0) with
    totalSize := 8, entries := [(blob 1 2, blob 3 4), (blob 5 6, blob 7 8)] }

theorem fullCache_reach : Reach noBuildId (fun _ _ => True) fullCache :=
  .set (blob 1 2) (blob 3 4) (.set (blob 5 6) (blob 7 8) (.new 4 4 8 fun _ => 0) rfl) rfl

theorem fullCache_flat : 124 + flatTotal fullCache.entries = 164 := rfl

def zeros : Region := ⟨List.replicate 164 0, by rw [length_replicate]; decide⟩

theorem zeros_size : zeros.size = fullCache.getFlattenedSize := by
  exact length_replicate

/-- A new cache gets the entries. -/
theorem fullCache_into_new : fullCache.totalSize = 8 ∧ ∃ buffer d,
    fullCache.flatten noBuildId zeros = .ok (.ok, buffer) ∧
    (new 4 4 8 fun _ => 0).unflatten noBuildId buffer = .ok (.ok, d) ∧
    d.entries = [(blob 1 2, blob 3 4), (blob 5 6, blob 7 8)] := by
  obtain ⟨hflatten, -⟩ := blobCache_roundTrip fullCache_reach (.new 4 4 8 fun _ => 0)
    ⟨rfl, rfl, rfl⟩ (by decide) (by rw [fullCache_flat]; norm_num)
  obtain ⟨buffer, hbuffer, hiff⟩ := hflatten zeros zeros_size
  obtain ⟨d, hd, hentries⟩ := hiff.2 (by decide)
  exact ⟨rfl, buffer, d, hbuffer, hd, hentries⟩

/-- The cache itself does not: there is no room above its total, and nothing to remove. -/
theorem fullCache_into_itself : Reach noBuildId (fun _ _ => True) fullCache ∧
    zeros.size = fullCache.getFlattenedSize ∧ ∃ buffer,
      fullCache.flatten noBuildId zeros = .ok (.ok, buffer) ∧
      fullCache.unflatten noBuildId buffer = .error .divByZero := by
  have hinv := fullCache_reach.inv (by decide)
  obtain ⟨buffer, hflatten, hflat⟩ :=
    flatten_ok hinv (by rw [fullCache_flat]; norm_num) noBuildId zeros_size
  refine ⟨fullCache_reach, zeros_size, buffer, hflatten, ?_⟩
  rw [unflatten_flat hinv (.refl _) hflat]
  rfl

/-! ## What `get` finds -/

section Get

variable {c : BlobCache} {sets l : List (Region × Region)} {e : Region × Region}

theorem Drift.set_subset (h : Drift 0 c) (he : e ∈ sets) (hc : c.entries ⊆ sets) :
    ∃ c', c.set e.1 e.2 = .ok c' ∧ Drift 0 c' ∧ c'.entries ⊆ sets := by
  obtain ⟨c', hset, hdrift⟩ := h.set_returns e.1 e.2
  refine ⟨c', hset, hdrift, ?_⟩
  unfold BlobCache.set setSized at hset
  split_ifs at hset with hadmits
  · refine setLoop_entries (P := (· ⊆ sets)) h (size_lt h.lt (e := e) hadmits) hset hc ?_ ?_
    · intro l hl e' he'
      obtain rfl | he' := mem_put he'
      · exact he
      · exact hl he'
    · exact fun l l' hsub hl e he => hl (hsub.subset he)
  · cases hset
    exact hc

theorem Drift.sets_subset (h : Drift 0 c) (hl : l ⊆ sets) (hc : c.entries ⊆ sets) :
    ∃ c', l.foldlM (fun c e => c.set e.1 e.2) c = .ok c' ∧ c'.entries ⊆ sets := by
  induction l generalizing c with
  | nil => exact ⟨c, rfl, hc⟩
  | cons e l ih =>
    obtain ⟨he, hl⟩ := cons_subset.1 hl
    obtain ⟨c1, hset, hdrift, hc1⟩ := h.set_subset he hc
    rw [foldlM_cons, hset]
    exact ih hdrift hl hc1

/-- Every sequence of calls of `set` returns, and what `get` then finds for a key is a value that
was set for this key. -/
theorem get_after_sets (maxKeySize maxValueSize : Nat) {maxTotalSize : Nat} (rand : Nat → Nat)
    (hmax : maxTotalSize < 2 ^ 63) (sets : List (Region × Region)) :
    ∃ c, sets.foldlM (fun c e => c.set e.1 e.2) (new maxKeySize maxValueSize maxTotalSize rand) =
        .ok c ∧ ∀ key valueSize, c.get key valueSize = (0, none) ∨ ∃ value, (key, value) ∈ sets ∧
          c.get key valueSize =
            (value.size, if value.size ≤ valueSize then some value else none) := by
  have hnew : Drift 0 (new maxKeySize maxValueSize maxTotalSize rand) := ⟨rfl, Nat.zero_le _, hmax⟩
  obtain ⟨c, hc, hentries⟩ := hnew.sets_subset (Subset.refl sets) (nil_subset sets)
  refine ⟨c, hc, ?_⟩
  intro key valueSize
  unfold get indexOf
  split_ifs
  · exact .inl rfl
  · cases hidx : c.entries.findIdx? fun e => e.1 = key with
    | none => exact .inl rfl
    | some i =>
      obtain ⟨value, hvalue⟩ := getElem?_of_findIdx? hidx
      rw [Option.bind_some, hvalue]
      exact .inr ⟨value, hentries (mem_of_getElem? hvalue), rfl⟩

/-- A blob of `n` equal bytes. -/
def bytes (n : Fin 10) (b : UInt8) : Region := ⟨replicate n b, by simp; omega⟩

/-- Not always the last one: the third call finds no room, and the value of the first stays. -/
theorem get_after_sets_stale : ∃ c : BlobCache,
    [(bytes 1 7, bytes 1 0), (bytes 1 8, bytes 2 0), (bytes 1 7, bytes 9 0)].foldlM
      (fun c e => c.set e.1 e.2) (new 1 9 10 fun _ => 0) = .ok c ∧
    c.get (bytes 1 7) 9 = (1, some (bytes 1 0)) := by
  obtain ⟨c, hc, -⟩ := get_after_sets 1 9 (fun _ => 0) (show 10 < 2 ^ 63 by decide)
    [(bytes 1 7, bytes 1 0), (bytes 1 8, bytes 2 0), (bytes 1 7, bytes 9 0)]
  refine ⟨c, hc, ?_⟩
  cases hc
  decide

end Get

end AndroidSystem.Utils.BlobCache
