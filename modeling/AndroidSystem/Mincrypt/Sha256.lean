import AndroidSystem.Lib.Fips180
import AndroidSystem.Lib.Words

/-!
# Incremental SHA-256

The context of libmincrypt's SHA-256 takes a message in pieces: bytes are put into a buffer of 64, and
a full buffer is transformed into the state. `SHA256_final` feeds the padding through the same
routine. `Absorbed` says what a context has to do with the bytes given so far; every call of
`SHA256_update` extends them, so the digest is the standard's digest of all pieces together.
-/

namespace AndroidSystem.Mincrypt

open List Fips180

/-! ## The context -/

def ror (value bits : UInt32) : UInt32 := value >>> bits ||| value <<< (32 - bits)

def shr (value bits : UInt32) : UInt32 := value >>> bits

def sha256K : List UInt32 :=
  [0x428a2f98, 0x71374491, 0xb5c0fbcf, 0xe9b5dba5,
   0x3956c25b, 0x59f111f1, 0x923f82a4, 0xab1c5ed5,
   0xd807aa98, 0x12835b01, 0x243185be, 0x550c7dc3,
   0x72be5d74, 0x80deb1fe, 0x9bdc06a7, 0xc19bf174,
   0xe49b69c1, 0xefbe4786, 0x0fc19dc6, 0x240ca1cc,
   0x2de92c6f, 0x4a7484aa, 0x5cb0a9dc, 0x76f988da,
   0x983e5152, 0xa831c66d, 0xb00327c8, 0xbf597fc7,
   0xc6e00bf3, 0xd5a79147, 0x06ca6351, 0x14292967,
   0x27b70a85, 0x2e1b2138, 0x4d2c6dfc, 0x53380d13,
   0x650a7354, 0x766a0abb, 0x81c2c92e, 0x92722c85,
   0xa2bfe8a1, 0xa81a664b, 0xc24b8b70, 0xc76c51a3,
   0xd192e819, 0xd6990624, 0xf40e3585, 0x106aa070,
   0x19a4c116, 0x1e376c08, 0x2748774c, 0x34b0bcb5,
   0x391c0cb3, 0x4ed8aa4a, 0x5b9cca4f, 0x682e6ff3,
   0x748f82ee, 0x78a5636f, 0x84c87814, 0x8cc70208,
   0x90befffa, 0xa4506ceb, 0xbef9a3f7, 0xc67178f2]

/-- The eight words of the state, and the variables `A` to `H` of the transformation. -/
structure Sha256State where
  A : UInt32
  B : UInt32
  C : UInt32
  D : UInt32
  E : UInt32
  F : UInt32
  G : UInt32
  H : UInt32
  deriving DecidableEq, Repr

structure Sha256Ctx where
  count : UInt64
  buf : List UInt8
  state : Sha256State
  length_buf : buf.length = 64

variable {ctx : Sha256Ctx} {msg : List UInt8} {i : Nat}

/-- The first sixteen words of `W`. -/
def loadWords (buf : List UInt8) : List UInt32 :=
  (List.range 16).map fun t => Words.beWord buf (4 * t)

/-- The other words of `W`, `n` of them. -/
def scheduleLoop : Nat → List UInt32 → List UInt32
  | 0, W => W
  | n + 1, W =>
    let t := W.length
    let w15 := W.getD (t - 15) 0
    let w2 := W.getD (t - 2) 0
    let s0 := ror w15 7 ^^^ ror w15 18 ^^^ shr w15 3
    let s1 := ror w2 17 ^^^ ror w2 19 ^^^ shr w2 10
    scheduleLoop n (W ++ [W.getD (t - 16) 0 + s0 + W.getD (t - 7) 0 + s1])

def transformStep (s : Sha256State) (k w : UInt32) : Sha256State :=
  let s0 := ror s.A 2 ^^^ ror s.A 13 ^^^ ror s.A 22
  let maj := (s.A &&& s.B) ^^^ (s.A &&& s.C) ^^^ (s.B &&& s.C)
  let t2 := s0 + maj
  let s1 := ror s.E 6 ^^^ ror s.E 11 ^^^ ror s.E 25
  let ch := (s.E &&& s.F) ^^^ (~~~s.E &&& s.G)
  let t1 := s.H + s1 + ch + k + w
  ⟨t1 + t2, s.A, s.B, s.C, s.D + t1, s.E, s.F, s.G⟩

def sha256Transform (state : Sha256State) (buf : List UInt8) : Sha256State :=
  let W := scheduleLoop 48 (loadWords buf)
  let r := (List.range 64).foldl (fun s t => transformStep s (sha256K.getD t 0) (W.getD t 0)) state
  ⟨state.A + r.A, state.B + r.B, state.C + r.C, state.D + r.D,
    state.E + r.E, state.F + r.F, state.G + r.G, state.H + r.H⟩

/-- A new context. The buffer is left as it was. -/
def sha256Init (buf : List UInt8) (h : buf.length = 64) : Sha256Ctx where
  count := 0
  buf := buf
  state := ⟨0x6a09e667, 0xbb67ae85, 0x3c6ef372, 0xa54ff53a,
    0x510e527f, 0x9b05688c, 0x1f83d9ab, 0x5be0cd19⟩
  length_buf := h

/-- Data whose length is an `int`. -/
structure Chunk where
  bytes : List UInt8
  small : bytes.length < 2 ^ 31

/-- One byte more, at index `i` of the buffer; the new index is returned too. -/
def updateByte (ctx : Sha256Ctx) (i : Nat) (b : UInt8) : Sha256Ctx × Nat :=
  let buf := ctx.buf.set i b
  let h : buf.length = 64 := by simp [buf, ctx.length_buf]
  if i + 1 = 64 then
    ({ ctx with buf := buf, state := sha256Transform ctx.state buf, length_buf := h }, 0)
  else ({ ctx with buf := buf, length_buf := h }, i + 1)

def updateLoop : List UInt8 → Nat → Sha256Ctx → Sha256Ctx
  | [], _, ctx => ctx
  | b :: data, i, ctx =>
    let r := updateByte ctx i b
    updateLoop data r.2 r.1

def sha256Update (ctx : Sha256Ctx) (data : Chunk) : Sha256Ctx :=
  updateLoop data.bytes (ctx.count &&& 63).toNat
    { ctx with count := ctx.count + UInt64.ofNat data.bytes.length }

def oneByte (b : UInt8) : Chunk := ⟨[b], by simp⟩

/-- Zero bytes until 56 bytes are in the buffer, at most `fuel` of them. -/
def padLoop : Nat → Sha256Ctx → Option Sha256Ctx
  | 0, ctx => if ctx.count &&& 63 = 56 then some ctx else none
  | fuel + 1, ctx =>
    if ctx.count &&& 63 = 56 then some ctx else padLoop fuel (sha256Update ctx (oneByte 0))

/-- The digest, which is written to the start of the buffer. -/
def sha256Final (fuel : Nat) (ctx : Sha256Ctx) : Option (List UInt8) := do
  let cnt := ctx.count * 8
  let ctx ← padLoop fuel (sha256Update ctx (oneByte 0x80))
  let ctx := (List.range 8).foldl (fun ctx i =>
    sha256Update ctx (oneByte (cnt >>> UInt64.ofNat ((7 - i) * 8)).toUInt8)) ctx
  let s := ctx.state
  some ([s.A, s.B, s.C, s.D, s.E, s.F, s.G, s.H].flatMap Words.beBytes)

/-- The digest of data in one piece; `buf` is what the stack holds. -/
def sha256Hash (fuel : Nat) (buf : List UInt8) (h : buf.length = 64) (data : Chunk) :
    Option (List UInt8) :=
  sha256Final fuel (sha256Update (sha256Init buf h) data)

/-! ## The transformation -/

/-- The state as the standard's hash value. -/
def Sha256State.vars (s : Sha256State) : Vars := ⟨s.A, s.B, s.C, s.D, s.E, s.F, s.G, s.H⟩

theorem sha256K_eq : sha256K = primes.map (rootFraction 3) := by decide +kernel

theorem loadWords_eq (buf : List UInt8) : loadWords buf = (range 16).map (W buf) := by
  apply map_congr_left
  intro t ht
  rw [mem_range] at ht
  rw [W, if_pos ht, word, ← Words.toNat_bytes, UInt32.ofNat_toNat]
  rfl

theorem scheduleLoop_eq (block : List UInt8) (n : Nat) {t : Nat} (ht : 16 ≤ t) :
    scheduleLoop n ((range t).map (W block)) = (range (t + n)).map (W block) := by
  induction n generalizing t with
  | zero => rfl
  | succ n ih =>
    have hget : ∀ k, 0 < k → k ≤ 16 → ((range t).map (W block)).getD (t - k) 0 =
        W block (t - k) := by
      intro k hk hk'
      rw [getD_eq_getElem _ _ (by simp; omega), getElem_map, getElem_range]
    have hnext : W block t = W block (t - 16) + sigma0 (W block (t - 15)) + W block (t - 7) +
        sigma1 (W block (t - 2)) := by
      rw [W, if_neg (by omega)]
      ac_rfl
    rw [show t + (n + 1) = t + 1 + n by omega, ← ih (by omega), range_succ, map_append,
      map_singleton, hnext, scheduleLoop]
    simp only [length_map, length_range]
    rw [hget 15 (by omega) (by omega), hget 2 (by omega) (by omega), hget 16 (by omega) (by omega),
      hget 7 (by omega) (by omega)]
    rfl

theorem foldl_transformStep (block : List UInt8) {l : List Nat} (hl : ∀ t ∈ l, t < 64)
    (s : Sha256State) :
    (l.foldl (fun s t => transformStep s (sha256K.getD t 0)
      (((range 64).map (W block)).getD t 0)) s).vars =
      l.foldl (fun v t => round (K t) (W block t) v) s.vars := by
  induction l generalizing s with
  | nil => rfl
  | cons t l ih =>
    have ht := hl t mem_cons_self
    have hword : ((range 64).map (W block)).getD t 0 = W block t := by
      rw [getD_eq_getElem _ _ (by simpa using ht), getElem_map, getElem_range]
    rw [foldl_cons, ih fun u hu => hl u (mem_cons_of_mem t hu), hword, sha256K_eq]
    rfl

theorem sha256Transform_eq (s : Sha256State) (buf : List UInt8) :
    (sha256Transform s buf).vars = compress s.vars buf := by
  have hW : scheduleLoop 48 (loadWords buf) = (range 64).map (W buf) := by
    rw [loadWords_eq, scheduleLoop_eq buf 48 (le_refl 16)]
  unfold sha256Transform compress
  rw [hW, ← foldl_transformStep buf (fun t ht => mem_range.1 ht)]
  simp only [Sha256State.vars, Vars.add, UInt32.add_comm]

/-! ## Absorbing bytes -/

/-- The context has taken the bytes `msg`: the whole blocks are in the state, the other bytes at the
start of the buffer, and the next one goes to index `i`. -/
structure Absorbed (ctx : Sha256Ctx) (i : Nat) (msg : List UInt8) : Prop where
  index : i = msg.length % 64
  state : ctx.state.vars = chain msg
  buffer : ctx.buf.take i = msg.drop (64 * (msg.length / 64))

theorem Absorbed.byte (h : Absorbed ctx i msg) (b : UInt8) :
    Absorbed (updateByte ctx i b).1 (updateByte ctx i b).2 (msg ++ [b]) := by
  have hi : i < 64 := by
    rw [h.index]
    omega
  have hlen : (msg ++ [b]).length = msg.length + 1 := by simp
  have hbuf := ctx.length_buf
  have hset : (ctx.buf.set i b).take (i + 1) = ctx.buf.take i ++ [b] := by
    rw [take_succ_eq_append_getElem (by simp; omega), getElem_set_self,
      take_set_of_le le_rfl]
  unfold updateByte
  dsimp only
  split_ifs with hfull
  · -- the buffer is full and goes into the state
    have hlast : (msg.length + 1) % 64 = 0 := by
      have := h.index
      omega
    have hblock : ctx.buf.set i b = msg.drop (64 * (msg.length / 64)) ++ [b] := by
      rw [← h.buffer, ← hset, take_of_length_le (by simp; omega)]
    refine ⟨by omega, ?_, ?_⟩
    · rw [sha256Transform_eq, h.state, hblock, chain_append_last hlast]
    · rw [take_zero, drop_of_length_le (by omega)]
  · have hinner : (msg.length + 1) % 64 ≠ 0 := by
      have := h.index
      omega
    refine ⟨by have := h.index; omega, ?_, ?_⟩
    · rw [chain_append_inner hinner]
      exact h.state
    · rw [hset, h.buffer, hlen, show (msg.length + 1) / 64 = msg.length / 64 by omega,
        drop_append_of_le_length (by omega)]

@[simp] theorem count_updateByte (ctx : Sha256Ctx) (i : Nat) (b : UInt8) :
    (updateByte ctx i b).1.count = ctx.count := by
  unfold updateByte
  dsimp only
  split_ifs <;> rfl

@[simp] theorem count_updateLoop (data : List UInt8) (i : Nat) (ctx : Sha256Ctx) :
    (updateLoop data i ctx).count = ctx.count := by
  induction data generalizing i ctx with
  | nil => rfl
  | cons b data ih => rw [updateLoop, ih, count_updateByte]

theorem Absorbed.loop (h : Absorbed ctx i msg) (data : List UInt8) :
    Absorbed (updateLoop data i ctx) ((msg ++ data).length % 64) (msg ++ data) := by
  induction data generalizing i ctx msg with
  | nil =>
    rw [append_nil, ← h.index]
    exact h
  | cons b data ih =>
    have hnext := ih (h.byte b)
    rwa [append_assoc, singleton_append] at hnext

/-- Between calls the number of bytes is in `count`. -/
structure Hashing (ctx : Sha256Ctx) (msg : List UInt8) : Prop where
  count : ctx.count = UInt64.ofNat msg.length
  absorbed : Absorbed ctx (msg.length % 64) msg

theorem toNat_count_and (n : Nat) : (UInt64.ofNat n &&& 63).toNat = n % 64 := by
  show n % 2 ^ 64 &&& (2 ^ 6 - 1) = _
  rw [Nat.and_two_pow_sub_one_eq_mod]
  omega

theorem Hashing.init (buf : List UInt8) (h : buf.length = 64) : Hashing (sha256Init buf h) [] := by
  refine ⟨rfl, rfl, ?_, ?_⟩
  · show (⟨0x6a09e667, 0xbb67ae85, 0x3c6ef372, 0xa54ff53a,
      0x510e527f, 0x9b05688c, 0x1f83d9ab, 0x5be0cd19⟩ : Vars) = H0
    decide +kernel
  · simp

section

variable (h : Hashing ctx msg)
include h

theorem Hashing.update (data : Chunk) : Hashing (sha256Update ctx data) (msg ++ data.bytes) := by
  have hindex : (ctx.count &&& 63).toNat = msg.length % 64 := by
    rw [h.count, toNat_count_and]
  constructor
  · rw [sha256Update, count_updateLoop, h.count, length_append, UInt64.ofNat_add]
  · have hctx : Absorbed { ctx with count := ctx.count + UInt64.ofNat data.bytes.length }
        (msg.length % 64) msg := ⟨rfl, h.absorbed.state, h.absorbed.buffer⟩
    rw [sha256Update, hindex]
    exact hctx.loop data.bytes

theorem Hashing.updates (chunks : List Chunk) :
    Hashing (chunks.foldl sha256Update ctx) (msg ++ chunks.flatMap Chunk.bytes) := by
  induction chunks generalizing ctx msg with
  | nil => simpa using h
  | cons data chunks ih =>
    rw [flatMap_cons, ← append_assoc]
    exact ih (h.update data)

/-! ## The padding -/

theorem count_eq_iff : ctx.count &&& 63 = 56 ↔ msg.length % 64 = 56 := by
  rw [h.count, ← UInt64.toNat_inj, toNat_count_and]
  rfl

theorem padLoop_spec {k fuel : Nat} (hk : k < 64) (hfuel : k ≤ fuel)
    (hlen : (msg.length + k) % 64 = 56) :
    ∃ ctx', padLoop fuel ctx = some ctx' ∧ Hashing ctx' (msg ++ replicate k 0) := by
  induction k generalizing ctx msg fuel with
  | zero =>
    refine ⟨ctx, ?_, by simpa using h⟩
    have hcount := (count_eq_iff h).2 hlen
    cases fuel with
    | zero => rw [padLoop, if_pos hcount]
    | succ fuel => rw [padLoop, if_pos hcount]
  | succ k ih =>
    obtain ⟨fuel, rfl⟩ : ∃ m, fuel = m + 1 := ⟨fuel - 1, by omega⟩
    have hnext : Hashing (sha256Update ctx (oneByte 0)) (msg ++ [0]) := h.update (oneByte 0)
    obtain ⟨ctx', hrun, hctx'⟩ := ih hnext (by omega) (show k ≤ fuel by omega) (by
      rw [length_append, length_singleton]
      omega)
    refine ⟨ctx', ?_, ?_⟩
    · rw [padLoop, if_neg (by rw [count_eq_iff h]; omega), hrun]
    · rwa [append_assoc, singleton_append, ← replicate_succ] at hctx'

theorem Hashing.bytes (f : Nat → UInt8) (l : List Nat) :
    Hashing (l.foldl (fun ctx i => sha256Update ctx (oneByte (f i))) ctx) (msg ++ l.map f) := by
  induction l generalizing ctx msg with
  | nil => simpa using h
  | cons i l ih =>
    have hnext : Hashing (sha256Update ctx (oneByte (f i))) (msg ++ [f i]) := h.update (oneByte (f i))
    have hrest := ih hnext
    rwa [append_assoc, singleton_append, ← map_cons] at hrest

end

/-- The bytes of the length in bits, which fits into 64 bits. -/
theorem lengthByte_eq {len : Nat} (hlen : len < 2 ^ 61) :
    ((UInt64.ofNat len * 8) >>> UInt64.ofNat ((7 - i) * 8)).toUInt8 =
      UInt8.ofNat (8 * len / 256 ^ (8 - 1 - i)) := by
  have hpow : 2 ^ ((7 - i) * 8) = 256 ^ (7 - i) := by
    rw [mul_comm, Nat.pow_mul]
  have hshift : (UInt64.ofNat ((7 - i) * 8)).toNat = (7 - i) * 8 := by
    rw [UInt64.toNat_ofNat', Nat.mod_eq_of_lt (by omega)]
  have hmul : (UInt64.ofNat len * 8).toNat = 8 * len := by
    show len % 2 ^ 64 * 8 % 2 ^ 64 = _
    omega
  apply UInt8.toNat_inj.1
  rw [UInt64.toNat_toUInt8, UInt64.toNat_shiftRight, hmul, hshift,
    Nat.mod_eq_of_lt (show (7 - i) * 8 < 64 by omega),
    Nat.shiftRight_eq_div_pow, hpow, UInt8.toNat_ofNat']

theorem beBytes_eq (w : UInt32) : Words.beBytes w = bigEndian 4 w.toNat := by
  have hbyte : ∀ (k : UInt32) (n : Nat), k.toNat = 8 * n → n ≤ 3 →
      (w >>> k).toUInt8 = UInt8.ofNat (w.toNat / 256 ^ n) := by
    intro k n hk hn
    apply UInt8.toNat_inj.1
    rw [Words.toNat_shiftRight_toUInt8 w hk (by omega), Nat.pow_mul, UInt8.toNat_ofNat']
  rw [Words.beBytes, hbyte 24 3 rfl (by omega), hbyte 16 2 rfl (by omega), hbyte 8 1 rfl (by omega),
    hbyte 0 0 rfl (by omega)]
  rfl

theorem Hashing.final (h : Hashing ctx msg) {fuel : Nat} (hfuel : 63 ≤ fuel)
    (hlen : msg.length < 2 ^ 61) : sha256Final fuel ctx = some (sha256 msg) := by
  have hone : Hashing (sha256Update ctx (oneByte 0x80)) (msg ++ [0x80]) := h.update (oneByte 0x80)
  obtain ⟨ctx1, hpad, hctx1⟩ := padLoop_spec hone
    (by unfold zeros; omega) (show zeros msg.length ≤ fuel by unfold zeros; omega) (by
      rw [length_append, length_singleton, zeros]
      omega)
  have hbytes := hctx1.bytes
    (fun i => ((UInt64.ofNat msg.length * 8) >>> UInt64.ofNat ((7 - i) * 8)).toUInt8) (range 8)
  have hall : msg ++ [(0x80 : UInt8)] ++ replicate (zeros msg.length) 0 ++ (range 8).map
      (fun i => ((UInt64.ofNat msg.length * 8) >>> UInt64.ofNat ((7 - i) * 8)).toUInt8) = pad msg := by
    rw [pad, bigEndian, map_congr_left fun i _ => lengthByte_eq hlen]
    simp
  rw [hall] at hbytes
  have hstate := hbytes.absorbed.state
  unfold sha256Final
  simp only [h.count, hpad]
  rw [sha256, ← hstate]
  rw [show (fun w : UInt32 => bigEndian 4 w.toNat) = Words.beBytes from
    funext fun w => (beBytes_eq w).symm]
  rfl

/-! ## The digest -/

/-- However a message is cut into pieces, the digest is that of the standard, and the same as the
digest of the whole message in one piece. -/
theorem sha256_incremental (buf : List UInt8) (hbuf : buf.length = 64) (chunks : List Chunk)
    (hlen : (chunks.flatMap Chunk.bytes).length < 2 ^ 61) {fuel : Nat} (hfuel : 63 ≤ fuel) :
    sha256Final fuel (chunks.foldl sha256Update (sha256Init buf hbuf)) =
        some (sha256 (chunks.flatMap Chunk.bytes)) ∧
      ∀ whole : Chunk, whole.bytes = chunks.flatMap Chunk.bytes →
        ∀ (buf' : List UInt8) (hbuf' : buf'.length = 64),
          sha256Hash fuel buf' hbuf' whole =
            sha256Final fuel (chunks.foldl sha256Update (sha256Init buf hbuf)) := by
  have hchunks := (Hashing.init buf hbuf).updates chunks
  rw [nil_append] at hchunks
  refine ⟨hchunks.final hfuel hlen, ?_⟩
  intro whole hwhole buf' hbuf'
  have hone := (Hashing.init buf' hbuf').update whole
  rw [nil_append, hwhole] at hone
  rw [sha256Hash, hone.final hfuel hlen, hchunks.final hfuel hlen]

/-- The message `abc`, cut into nothing, `a` and `bc`. -/
theorem sha256_incremental_abc :
    sha256Final 63 ([⟨[], by decide⟩, oneByte 97, ⟨[98, 99], by decide⟩].foldl sha256Update
        (sha256Init (replicate 64 0) rfl)) = some (sha256 [97, 98, 99]) :=
  (sha256_incremental (replicate 64 0) rfl [⟨[], by decide⟩, oneByte 97, ⟨[98, 99], by decide⟩]
    (by decide) (le_refl 63)).1

example : sha256Hash 63 (List.replicate 64 0) rfl ⟨[97, 98, 99], by decide⟩ =
    some [0xba, 0x78, 0x16, 0xbf, 0x8f, 0x01, 0xcf, 0xea, 0x41, 0x41, 0x40, 0xde, 0x5d, 0xae, 0x22, 0x23,
        0xb0, 0x03, 0x61, 0xa3, 0x96, 0x17, 0x7a, 0x9c, 0xb4, 0x10, 0xff, 0x61, 0xf2, 0x00, 0x15, 0xad] := by
  decide +kernel

end AndroidSystem.Mincrypt
