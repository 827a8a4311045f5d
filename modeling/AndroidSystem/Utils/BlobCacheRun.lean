import AndroidSystem.Utils.BlobCacheLoad

/-!
# The total size of a `BlobCache`

`mTotalSize` is the sum of the sizes of all entries as long as `unflatten` is called for an empty
cache and does not fail after an entry has been read (`Keeps`): then `clean` never runs out of
entries and `set` always returns (`blobCache_accounts`). In other calls of `unflatten` the entries
are removed and their sizes stay in the total. `unflatten_drifts` is such a run, and the next call of
`set` takes a remainder by zero.
-/

namespace AndroidSystem.Utils.BlobCache

variable {buildId : BuildId}

/-- The states a cache comes to. `get` and `flatten` do not change it. `ok` is a condition on the
calls of `unflatten`. -/
inductive Reach (buildId : BuildId) (ok : BlobCache → Region → Prop) : BlobCache → Prop
  | new (maxKeySize maxValueSize maxTotalSize rand) :
      Reach buildId ok (new maxKeySize maxValueSize maxTotalSize rand)
  | set {c c'} (key value : Region) (hc : Reach buildId ok c) (h : c.set key value = .ok c') :
      Reach buildId ok c'
  | unflatten {c c' status} (buffer : Region) (hc : Reach buildId ok c) (hok : ok c buffer)
      (h : c.unflatten buildId buffer = .ok (status, c')) : Reach buildId ok c'

/-- The cache is empty, and the buffer is not too short after an entry that passes the checks. -/
def Keeps (buildId : BuildId) (c : BlobCache) (buffer : Region) : Prop :=
  c.entries = [] ∧ ∀ n, readHeader buildId buffer = .ok (.accept n) →
    (scan c.admits buffer n (firstEntry buildId)).2 = .tooShort →
      (scan c.admits buffer n (firstEntry buildId)).1 = []

/-- `mTotalSize` is right, `set` returns and `unflatten` does not run out of entries. -/
structure Accounts (buildId : BuildId) (c : BlobCache) : Prop where
  total : c.totalSize = stored c.entries
  le : c.totalSize ≤ c.maxTotalSize
  set_returns : ∀ key value, ∃ c', c.set key value = .ok c'
  unflatten_ends : ∀ buffer, Keeps buildId c buffer →
    c.unflatten buildId buffer ≠ .error .divByZero ∧ c.unflatten buildId buffer ≠ .error .endless

section Accounting

variable {c c' : BlobCache} {buffer : Region}

theorem Drift.emptied (h : Drift 0 c) (hempty : c.entries = []) :
    Drift 0 { c with entries := [] } :=
  ⟨hempty ▸ h.total, h.le, h.lt⟩

theorem Drift.set_returns (h : Drift 0 c) (key value : Region) :
    ∃ c', c.set key value = .ok c' ∧ Drift 0 c' := by
  unfold BlobCache.set setSized
  split_ifs with hadmits
  · have hsize := size_lt h.lt (e := (key, value)) hadmits
    obtain ⟨c', hset⟩ := h.set_ok (Nat.zero_le _) hsize
    exact ⟨c', hset, h.set hsize hset⟩
  · exact ⟨c, rfl, h⟩

theorem Drift.accounts (h : Drift 0 c) : Accounts buildId c where
  total := by
    rw [h.total]
    omega
  le := h.le
  set_returns := by
    intro key value
    obtain ⟨c', hset, -⟩ := h.set_returns key value
    exact ⟨c', hset⟩
  unflatten_ends := by
    rintro buffer ⟨hempty, -⟩
    cases hheader : readHeader buildId buffer with
    | error fault =>
      obtain rfl := readHeader_error hheader
      unfold unflatten
      rw [hheader]
      constructor <;> rintro ⟨⟩
    | ok check =>
      cases check with
      | stop status =>
        rw [unflatten_stop c hheader]
        constructor <;> rintro ⟨⟩
      | accept n =>
        obtain ⟨c', hload⟩ :=
          loadAll_ok (h.emptied hempty) (scan_admitted c buffer n (firstEntry buildId))
            (Nat.zero_le _)
        rw [unflatten_accept c hheader, hload]
        cases (scan c.admits buffer n (firstEntry buildId)).2 <;> constructor <;> rintro ⟨⟩

theorem Drift.unflatten (h : Drift 0 c) (hkeeps : Keeps buildId c buffer) {status : Status}
    (hrun : c.unflatten buildId buffer = .ok (status, c')) : Drift 0 c' := by
  obtain ⟨hempty, hshort⟩ := hkeeps
  have hempty' := h.emptied hempty
  obtain rfl | ⟨n, c1, hheader, hload, hc'⟩ := unflatten_cases hrun
  · exact hempty'
  · obtain rfl | ⟨houtcome, rfl⟩ := hc'
    · exact hempty'.of_loadAll (scan_admitted c buffer n _) hload
    · -- nothing has been put into the cache
      rw [hshort n hheader houtcome] at hload
      cases hload
      exact hempty'

theorem set_limits {key value : Region} (h : c.set key value = .ok c') : SameLimits c c' := by
  unfold BlobCache.set setSized at h
  split_ifs at h
  · exact setLoop_limits h
  · cases h
    exact .refl c

theorem unflatten_limits {status : Status} (h : c.unflatten buildId buffer = .ok (status, c')) :
    SameLimits c c' := by
  obtain rfl | ⟨n, c1, -, hload, rfl | ⟨-, rfl⟩⟩ := unflatten_cases h
  · exact ⟨rfl, rfl, rfl⟩
  · exact ⟨(loadAll_limits hload).key, (loadAll_limits hload).value, (loadAll_limits hload).total⟩
  · exact ⟨(loadAll_limits hload).key, (loadAll_limits hload).value, (loadAll_limits hload).total⟩

theorem Reach.drift (h : Reach buildId (Keeps buildId) c) (hmax : c.maxTotalSize < 2 ^ 63) :
    Drift 0 c := by
  induction h with
  | new maxKeySize maxValueSize maxTotalSize rand => exact ⟨rfl, Nat.zero_le _, hmax⟩
  | set key value _ hset ih =>
    obtain ⟨c'', hset', hdrift⟩ := (ih ((set_limits hset).total ▸ hmax)).set_returns key value
    rw [hset] at hset'
    cases hset'
    exact hdrift
  | unflatten buffer _ hkeeps hrun ih =>
    exact (ih ((unflatten_limits hrun).total ▸ hmax)).unflatten hkeeps hrun

/-- The total size is right in every state of a run whose calls of `unflatten` meet the condition. -/
theorem blobCache_accounts (h : Reach buildId (Keeps buildId) c) (hmax : c.maxTotalSize < 2 ^ 63) :
    Accounts buildId c :=
  (h.drift hmax).accounts

end Accounting

/-! ### Two runs -/

/-- A blob of two bytes. -/
def blob (a b : UInt8) : Region := ⟨[a, b], by simp⟩

def emptyBuffer : Region := ⟨[], by decide⟩

def noBuildId : BuildId := ⟨[], by decide, by simp⟩

/-- A buffer that is rejected at once, and then an entry. -/
theorem set_after_unflatten : ∃ c, Reach noBuildId (Keeps noBuildId) c ∧ c.maxTotalSize < 2 ^ 63 ∧
    c.entries = [(blob 1 2, blob 3 4)] ∧ Accounts noBuildId c := by
  have hkeeps : Keeps noBuildId (new 4 4 4 fun _ => 0) emptyBuffer := by
    refine ⟨rfl, fun n hn => ?_⟩
    cases hn
  have hreach : Reach noBuildId (Keeps noBuildId) { new 4 4 4 (fun _ => 0) with
      totalSize := 4, entries := [(blob 1 2, blob 3 4)] } :=
    .set (blob 1 2) (blob 3 4) (.unflatten emptyBuffer (.new 4 4 4 fun _ => 0) hkeeps rfl) rfl
  exact ⟨_, hreach, by decide, rfl, blobCache_accounts hreach (by decide)⟩

/-- An entry, and then a buffer that is rejected: the size of the entry stays in the total, and the
next call of `set` takes a remainder by zero. -/
theorem unflatten_drifts : ∃ c, Reach noBuildId (fun _ _ => True) c ∧ c.totalSize = 4 ∧
    stored c.entries = 0 ∧ c.set (blob 1 2) (blob 3 4) = .error .divByZero := by
  have hreach : Reach noBuildId (fun _ _ => True) { new 4 4 4 (fun _ => 0) with
      totalSize := 4, entries := [] } :=
    .unflatten emptyBuffer (.set (blob 1 2) (blob 3 4) (.new 4 4 4 fun _ => 0) rfl) trivial rfl
  exact ⟨_, hreach, rfl, rfl, rfl⟩

end AndroidSystem.Utils.BlobCache
