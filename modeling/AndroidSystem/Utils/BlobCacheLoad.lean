import AndroidSystem.Lib.Except
import AndroidSystem.Utils.BlobCacheSet

/-!
# `BlobCache::unflatten`

`unflatten` reads entries from a buffer and calls `set` for each. Here the two are taken apart:
`scan` is what is read from the buffer, with the entries that pass the checks of `set`, and `loadAll`
puts a list of entries into a cache (`unflattenLoop_eq`).

If nothing exceeds the limit, a cache that has been emptied gets what `replay` says, on top of the
drift (`loadAll_fits`). Otherwise it depends on the drift whether `clean` comes to its end
(`loadAll_ok`, `loadAll_fault`).
-/

namespace AndroidSystem.Utils.BlobCache

open List

variable {n : Nat} {key value : Region}

/-! ## Reading the entries -/

/-- How the reading of entries ends. -/
inductive Outcome where
  | complete
  /-- The buffer is not large enough. -/
  | tooShort
  /-- A key or a value is not in the buffer. -/
  | outside
  deriving DecidableEq

/-- The entries in a buffer that pass the checks of `set`. -/
def scan (admits : Nat → Nat → Bool) (buffer : Region) : Nat → Nat →
    List (Region × Region) × Outcome
  | 0, _ => ([], .complete)
  | n + 1, byteOffset =>
    if u64 (byteOffset + sizeofEntryHeader) > buffer.size then ([], .tooShort)
    else match buffer.readWord byteOffset 8, buffer.readWord (byteOffset + 8) 8 with
      | some keySize, some valueSize =>
        let next := u64 (byteOffset + flatSize keySize valueSize)
        let data := byteOffset + sizeofEntryHeader
        if next > buffer.size then ([], .tooShort)
        else if admits keySize valueSize then
          match buffer.read data keySize, buffer.read (data + keySize) valueSize with
          | some key, some value =>
            ((key, value) :: (scan admits buffer n next).1, (scan admits buffer n next).2)
          | _, _ => ([], .outside)
        else scan admits buffer n next
      | _, _ => ([], .outside)

def loadAll (c : BlobCache) (l : List (Region × Region)) : Except BlobFault BlobCache :=
  l.foldlM (fun c e => setLoop 2 c e.1 e.2) c

/-- What `unflatten` does at the end. -/
def finish (c : BlobCache) : Outcome → Except BlobFault (Status × BlobCache)
  | .complete => .ok (.ok, c)
  | .tooShort => .ok (.badValue, { c with entries := [] })
  | .outside => .error .outside

section Limits

variable {c c' : BlobCache}

theorem SameLimits.admits (h : SameLimits c c') : c'.admits = c.admits := by
  unfold BlobCache.admits
  rw [h.key, h.value, h.total]

theorem cleanLoop_limits (h : cleanLoop n c = .ok c') : SameLimits c c' := by
  induction n generalizing c with
  | zero => cases h
  | succ n ih =>
    unfold cleanLoop at h
    split_ifs at h
    · exact (show SameLimits c c.removeRandom from ⟨rfl, rfl, rfl⟩).trans (ih h)
    · cases h
      exact .refl _

theorem setLoop_limits (h : setLoop n c key value = .ok c') : SameLimits c c' := by
  induction n generalizing c with
  | zero => cases h
  | succ n ih =>
    unfold setLoop at h
    dsimp only at h
    split_ifs at h
    · obtain ⟨c1, hclean, h⟩ := bind_eq_ok.1 h
      exact (cleanLoop_limits hclean).trans (ih h)
    · cases h
      exact .refl _
    · cases h
      exact ⟨rfl, rfl, rfl⟩

theorem loadAll_keeps {l : List (Region × Region)} {P : BlobCache → Prop}
    (hset : ∀ c c', ∀ e ∈ l, P c → setLoop 2 c e.1 e.2 = .ok c' → P c') (hP : P c)
    (h : loadAll c l = .ok c') : P c' := by
  induction l generalizing c with
  | nil =>
    cases h
    exact hP
  | cons e l ih =>
    obtain ⟨c1, hset1, h⟩ := bind_eq_ok.1 h
    exact ih (fun c c' e he => hset c c' e (by simp [he])) (hset c c1 e (by simp) hP hset1) h

theorem loadAll_limits {l : List (Region × Region)} (h : loadAll c l = .ok c') :
    SameLimits c c' :=
  loadAll_keeps (fun _ _ _ _ hP hset => hP.trans (setLoop_limits hset)) (.refl c) h

end Limits

/-- The loop of `unflatten` puts the entries it reads into the cache. -/
theorem unflattenLoop_eq (buffer : Region) (n byteOffset : Nat) (c : BlobCache) :
    unflattenLoop buffer n byteOffset c =
      loadAll c (scan c.admits buffer n byteOffset).1 >>= fun c' =>
        c'.finish (scan c.admits buffer n byteOffset).2 := by
  induction n generalizing byteOffset c with
  | zero => rfl
  | succ n ih =>
    unfold unflattenLoop scan
    by_cases hshort : u64 (byteOffset + sizeofEntryHeader) > buffer.size
    · rw [if_pos hshort, if_pos hshort]
      rfl
    rw [if_neg hshort, if_neg hshort]
    cases hkey : buffer.readWord byteOffset 8 with
    | none => rfl
    | some keySize =>
      cases hvalue : buffer.readWord (byteOffset + 8) 8 with
      | none => rfl
      | some valueSize =>
        simp only [need, ok_bind]
        by_cases hshort' : u64 (byteOffset + flatSize keySize valueSize) > buffer.size
        · rw [if_pos hshort', if_pos hshort']
          rfl
        rw [if_neg hshort', if_neg hshort']
        unfold setSized
        by_cases hadmits : c.admits keySize valueSize = true
        · rw [if_pos hadmits, if_pos hadmits]
          cases hk : buffer.read (byteOffset + sizeofEntryHeader) keySize with
          | none => rfl
          | some key =>
            cases hv : buffer.read (byteOffset + sizeofEntryHeader + keySize) valueSize with
            | none => rfl
            | some value =>
              show (setLoop 2 c key value >>= _) = (loadAll c (_ :: _) >>= _)
              unfold loadAll
              rw [foldlM_cons]
              cases hset : setLoop 2 c key value with
              | error e => rfl
              | ok c1 =>
                rw [ok_bind, ih, (setLoop_limits hset).admits]
                rfl
        · rw [if_neg hadmits, if_neg hadmits, ok_bind, ih]

/-! ## Filling a cache -/

/-- The entries after all of a list have been put, whatever their sizes. -/
def replay (entries l : List (Region × Region)) : List (Region × Region) :=
  l.foldl (fun entries e => put e.1 e.2 entries) entries

section Load

variable {c : BlobCache} {d : Nat} {l : List (Region × Region)}

/-- The sizes in a list of entries that pass the checks. -/
def Admitted (c : BlobCache) (l : List (Region × Region)) : Prop :=
  ∀ e ∈ l, c.admits e.1.size e.2.size = true

/-- The total is within the limit, and a drift above the entries. -/
structure Drift (d : Nat) (c : BlobCache) : Prop where
  total : c.totalSize = d + stored c.entries
  le : c.totalSize ≤ c.maxTotalSize
  lt : c.maxTotalSize < 2 ^ 63

theorem size_lt (h : c.maxTotalSize < 2 ^ 63) {e : Region × Region}
    (hadmits : c.admits e.1.size e.2.size = true) : e.1.size + e.2.size < 2 ^ 63 := by
  have h1 := e.1.size_lt
  have h2 := e.2.size_lt
  have := (admits_iff (by omega)).1 hadmits
  omega

section

variable (h : Drift d c)
include h

theorem loadAll_fits (hadmitted : Admitted c l)
    (hfits : ∀ p, p <+: l → d + stored (replay c.entries p) ≤ c.maxTotalSize) :
    loadAll c l = .ok (c.refill d (replay c.entries l)) := by
  induction l generalizing c with
  | nil =>
    show Except.ok c = .ok (c.refill d c.entries)
    rw [refill, ← h.total]
  | cons e l ih =>
    have hsize := size_lt h.lt (hadmitted e (by simp))
    have hfits1 := hfits [e] ⟨l, rfl⟩
    obtain ⟨-, hset⟩ | ⟨hexceeds, -⟩ :=
      set_cases h.total (h.le.trans_lt h.lt) hsize
    · unfold loadAll
      rw [foldlM_cons, hset]
      exact ih ⟨rfl, hfits1, h.lt⟩
        (fun e' he' => hadmitted e' (by simp [he']))
        (fun p hp => hfits (e :: p) (cons_prefix_cons.2 ⟨rfl, hp⟩))
    · exact absurd hfits1 (not_le.2 hexceeds)

theorem Cleaned.drift {c1 : BlobCache} (hclean : Cleaned d c c1) : Drift d c1 := by
  have hhalf := hclean.half
  refine ⟨hclean.total, ?_, ?_⟩
  · rw [hclean.limits.total]
    omega
  · rw [hclean.limits.total]
    exact h.lt

theorem Drift.set {c' : BlobCache} (hsize : key.size + value.size < 2 ^ 63)
    (hset : setLoop 2 c key value = .ok c') : Drift d c' := by
  obtain ⟨c1, hc1, hc'⟩ := set_returns h.total (h.le.trans_lt h.lt) hsize hset
  have hdrift : Drift d c1 := by
    obtain rfl | hclean := hc1
    · exact h
    · exact hclean.drift h
  obtain rfl | ⟨hfits, rfl⟩ := hc'
  · exact hdrift
  · exact ⟨rfl, hfits, hdrift.lt⟩

theorem Drift.set_ok (hd : d ≤ c.maxTotalSize / 2) (hsize : key.size + value.size < 2 ^ 63) :
    ∃ c', setLoop 2 c key value = .ok c' := by
  obtain ⟨-, hrun⟩ | ⟨-, ⟨-, hrun⟩ | ⟨-, hd', -⟩ | ⟨-, c1, c2, -, hrun, -⟩⟩ :=
    set_cases h.total (h.le.trans_lt h.lt) hsize
  · exact ⟨_, hrun⟩
  · exact ⟨_, hrun⟩
  · omega
  · exact ⟨_, hrun⟩

section

variable (hadmitted : Admitted c l)
include hadmitted

theorem loadAll_ok (hd : d ≤ c.maxTotalSize / 2) : ∃ c', loadAll c l = .ok c' := by
  induction l generalizing c with
  | nil => exact ⟨c, rfl⟩
  | cons e l ih =>
    have hsize := size_lt h.lt (hadmitted e (by simp))
    obtain ⟨c1, hset⟩ := h.set_ok hd hsize
    have hlimits := setLoop_limits hset
    unfold loadAll
    rw [foldlM_cons, hset]
    apply ih (h.set hsize hset)
    · intro e' he'
      rw [hlimits.admits]
      exact hadmitted e' (by simp [he'])
    · rw [hlimits.total]
      exact hd

theorem Drift.of_loadAll {c' : BlobCache} (hload : loadAll c l = .ok c') : Drift d c' := by
  refine loadAll_keeps (fun c1 c2 e he hdrift hset => ?_) h hload
  exact hdrift.set (size_lt h.lt (hadmitted e he)) hset

/-- With much drift, the first entry that does not fit is fatal. -/
theorem loadAll_fault (hd : c.maxTotalSize / 2 < d) {p : List (Region × Region)} (hp : p <+: l)
    (hexceeds : c.maxTotalSize < d + stored (replay c.entries p)) :
    loadAll c l = .error .divByZero := by
  induction p generalizing c l with
  | nil =>
    have htotal := h.total
    have hle := h.le
    change c.maxTotalSize < d + stored c.entries at hexceeds
    omega
  | cons e p ih =>
    obtain ⟨l, rfl⟩ : ∃ l', l = e :: l' := by
      obtain ⟨r, rfl⟩ := hp
      exact ⟨p ++ r, rfl⟩
    have hsize := size_lt h.lt (hadmitted e (by simp))
    have htotal := h.total
    unfold loadAll
    rw [foldlM_cons]
    obtain ⟨hfits, hset⟩ | ⟨-, ⟨hhalf, -⟩ | ⟨-, -, hset⟩ | ⟨-, c1, c2, hclean, -⟩⟩ :=
      set_cases h.total (h.le.trans_lt h.lt) hsize
    · rw [hset]
      exact ih ⟨rfl, hfits, h.lt⟩
        (fun e' he' => hadmitted e' (by simp [he'])) hd
        (cons_prefix_cons.1 hp).2 hexceeds
    · omega
    · rw [hset]
      rfl
    · have := hclean.half
      have := hclean.total
      omega

/-- Which lists can be put into a cache. -/
theorem loadAll_iff :
    (∃ c', loadAll c l = .ok c') ↔ d ≤ c.maxTotalSize / 2 ∨
      ∀ p, p <+: l → d + stored (replay c.entries p) ≤ c.maxTotalSize := by
  constructor
  · rintro ⟨c', hload⟩
    by_contra hnot
    simp only [not_or, not_forall] at hnot
    obtain ⟨hd, p, hp, hexceeds⟩ := hnot
    rw [loadAll_fault h hadmitted (not_le.1 hd) hp (not_le.1 hexceeds)] at hload
    cases hload
  · rintro (hd | hfits)
    · exact loadAll_ok h hadmitted hd
    · exact ⟨_, loadAll_fits h hadmitted hfits⟩

end

end

end Load

/-! ## The header -/

section Header

variable {buildId : BuildId} {buffer : Region}

/-- Where the first entry is. -/
def firstEntry (buildId : BuildId) : Nat := align4 (sizeofHeader + buildId.bytes.length)

/-- The sizes of what is read are those in the buffer. -/
theorem scan_admitted (c : BlobCache) (buffer : Region) (n byteOffset : Nat) :
    Admitted c (scan c.admits buffer n byteOffset).1 := by
  induction n generalizing byteOffset with
  | zero =>
    intro e he
    cases he
  | succ n ih =>
    intro e he
    unfold scan at he
    split at he
    · cases he
    · split at he
      · rename_i keySize valueSize _ _
        dsimp only at he
        split at he
        · cases he
        · split at he
          · rename_i hadmits
            split at he
            · rename_i key value hkey hvalue
              obtain rfl | he := mem_cons.1 he
              · rw [(Region.read_size hkey).2.1, (Region.read_size hvalue).2.1]
                exact hadmits
              · exact ih _ e he
            · cases he
          · exact ih _ e he
      · cases he

theorem strncmpEq_cons {a b : UInt8} {l rest : List UInt8} {offset : Nat} (ha : a ≠ 0)
    (h : buffer.bytes.drop offset = b :: rest) : strncmpEq buffer (a :: l) offset =
      if a = b then strncmpEq buffer l (offset + 1) else .ok false := by
  rw [strncmpEq, Region.readWord_one h]
  show (if b.toNat ≠ a.toNat then _ else _) = _
  by_cases hab : a = b
  · subst hab
    rw [if_neg (by simp), if_neg ha, if_pos rfl]
  · rw [if_pos (fun h => hab (UInt8.toNat_inj.1 h).symm), if_neg hab]
    rfl

/-- The comparison of a string with the buffer: it is there, or it is not, or the buffer ends before
that is known. -/
theorem strncmpEq_cases {l : List UInt8} (hnul : ∀ b ∈ l, b ≠ 0) {offset : Nat}
    (hoffset : offset ≤ buffer.size) :
    (l <+: buffer.bytes.drop offset ∧ strncmpEq buffer l offset = .ok true) ∨
    (¬l <+: buffer.bytes.drop offset ∧ ¬buffer.bytes.drop offset <+: l ∧
      strncmpEq buffer l offset = .ok false) ∨
    (¬l <+: buffer.bytes.drop offset ∧ buffer.bytes.drop offset <+: l ∧
      strncmpEq buffer l offset = .error .outside) := by
  induction l generalizing offset with
  | nil => exact .inl ⟨ nil_prefix, rfl⟩
  | cons a l ih =>
    cases hdrop : buffer.bytes.drop offset with
    | nil =>
      rw [strncmpEq]
      have hread : buffer.readWord offset 1 = none := by
        rw [← Option.not_isSome_iff_eq_none, Region.readWord_isSome]
        have := drop_eq_nil_iff.1 hdrop
        unfold Region.size
        omega
      rw [hread]
      exact .inr (.inr ⟨by simp, nil_prefix, rfl⟩)
    | cons b rest =>
      have hrest : buffer.bytes.drop (offset + 1) = rest := by
        rw [← drop_drop, hdrop]
        rfl
      have hlen := congrArg length hdrop
      rw [length_drop, length_cons] at hlen
      rw [strncmpEq_cons (hnul a (by simp)) hdrop, cons_prefix_cons, cons_prefix_cons]
      by_cases hab : a = b
      · subst hab
        have hle : offset + 1 ≤ buffer.size := by
          unfold Region.size
          omega
        have hnext := ih (fun c hc => hnul c (by simp [hc])) hle
        rw [hrest] at hnext
        simpa using hnext
      · rw [if_neg hab]
        exact .inr (.inl ⟨fun h => hab h.1, fun h => hab h.1.symm, rfl⟩)

/-- The header is one of this build and version, as far as the length of the build id. -/
structure Named (buildId : BuildId) (buffer : Region) : Prop where
  size : sizeofHeader ≤ buffer.size
  magic : buffer.readWord 0 4 = some blobCacheMagic
  version : buffer.readWord 4 4 = some blobCacheVersion
  deviceVersion : buffer.readWord 8 4 = some blobCacheDeviceVersion
  length : buffer.readWord 24 4 = some buildId.bytes.length

theorem readHeader_named (h : Named buildId buffer) :
    ∃ n, buffer.readWord 16 8 = some n ∧ readHeader buildId buffer =
      (strncmpEq buffer buildId.bytes 28 >>= fun same =>
        .ok (if same then .accept n else .stop .ok)) := by
  have hsize := h.size
  unfold sizeofHeader at hsize
  obtain ⟨n, hn⟩ := Option.isSome_iff_exists.1 (Region.readWord_isSome.2 (show 16 + 8 ≤ buffer.size by omega))
  refine ⟨n, hn, ?_⟩
  unfold readHeader
  rw [if_neg (by unfold sizeofHeader; omega), h.magic, h.version, h.deviceVersion, h.length, hn]
  simp only [need, ok_bind, ne_eq, not_true_eq_false, if_false, or_self]
  congr 1
  funext same
  cases same <;> rfl

theorem readHeader_unnamed (h : ¬Named buildId buffer) :
    ∃ status, readHeader buildId buffer = .ok (.stop status) := by
  unfold readHeader
  by_cases hsize : buffer.size < sizeofHeader
  · exact ⟨_, if_pos hsize⟩
  have hread : ∀ offset n, offset + n ≤ 32 → ∃ w, buffer.readWord offset n = some w := by
    intro offset n hle
    apply Option.isSome_iff_exists.1
    rw [Region.readWord_isSome]
    unfold sizeofHeader at hsize
    omega
  obtain ⟨magic, hmagic⟩ := hread 0 4 (by decide)
  obtain ⟨version, hversion⟩ := hread 4 4 (by decide)
  obtain ⟨device, hdevice⟩ := hread 8 4 (by decide)
  obtain ⟨length, hlength⟩ := hread 24 4 (by decide)
  rw [if_neg hsize, hmagic, hversion, hdevice, hlength]
  simp only [need, ok_bind]
  by_cases hm : magic = blobCacheMagic
  · rw [if_neg (by simp [hm]), if_pos]
    · exact ⟨_, rfl⟩
    · by_contra hsame
      simp only [not_or, not_not] at hsame
      obtain ⟨rfl, rfl, rfl⟩ := hsame
      subst hm
      exact h ⟨not_lt.1 hsize, hmagic, hversion, hdevice, hlength⟩
  · rw [if_pos hm]
    exact ⟨_, rfl⟩

theorem readHeader_error {fault : BlobFault} (h : readHeader buildId buffer = .error fault) :
    fault = .outside := by
  by_cases hnamed : Named buildId buffer
  · have hsize := hnamed.size
    unfold sizeofHeader at hsize
    obtain ⟨n, -, heq⟩ := readHeader_named hnamed
    rw [heq] at h
    obtain ⟨-, hcmp⟩ | ⟨-, -, hcmp⟩ | ⟨-, -, hcmp⟩ :=
      strncmpEq_cases buildId.noNul (show 28 ≤ buffer.size by omega)
    · rw [hcmp] at h
      cases h
    · rw [hcmp] at h
      cases h
    · rw [hcmp] at h
      cases h
      rfl
  · obtain ⟨status, heq⟩ := readHeader_unnamed hnamed
    rw [heq] at h
    cases h

theorem unflatten_stop (c : BlobCache) {status : Status}
    (h : readHeader buildId buffer = .ok (.stop status)) :
    c.unflatten buildId buffer = .ok (status, { c with entries := [] }) := by
  unfold unflatten
  rw [h]
  rfl

theorem unflatten_accept (c : BlobCache) (h : readHeader buildId buffer = .ok (.accept n)) :
    c.unflatten buildId buffer =
      loadAll { c with entries := [] } (scan c.admits buffer n (firstEntry buildId)).1 >>= fun c' =>
        c'.finish (scan c.admits buffer n (firstEntry buildId)).2 := by
  unfold unflatten
  rw [h]
  exact unflattenLoop_eq buffer n _ { c with entries := [] }

theorem unflatten_cases {c c' : BlobCache} {status : Status}
    (h : c.unflatten buildId buffer = .ok (status, c')) :
    c' = { c with entries := [] } ∨ ∃ n c1, readHeader buildId buffer = .ok (.accept n) ∧
      loadAll { c with entries := [] } (scan c.admits buffer n (firstEntry buildId)).1 = .ok c1 ∧
      (c' = c1 ∨ (scan c.admits buffer n (firstEntry buildId)).2 = .tooShort ∧
        c' = { c1 with entries := [] }) := by
  obtain ⟨check, hheader, -⟩ := bind_eq_ok.1 h
  cases check with
  | stop status =>
    rw [unflatten_stop c hheader] at h
    cases h
    exact .inl rfl
  | accept n =>
    rw [unflatten_accept c hheader] at h
    obtain ⟨c1, hload, h⟩ := bind_eq_ok.1 h
    refine .inr ⟨n, c1, hheader, hload, ?_⟩
    cases houtcome : (scan c.admits buffer n (firstEntry buildId)).2 with
    | complete =>
      rw [houtcome] at h
      cases h
      exact .inl rfl
    | tooShort =>
      rw [houtcome] at h
      cases h
      exact .inr ⟨rfl, rfl⟩
    | outside =>
      rw [houtcome] at h
      cases h

end Header

end AndroidSystem.Utils.BlobCache
