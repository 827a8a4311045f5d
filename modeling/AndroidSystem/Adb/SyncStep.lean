import AndroidSystem.Adb.FileSync
import Mathlib.Data.List.Basic

/-!
# Client and file sync service stay in step

The service answers an `ID_SEND` with one status if and only if, on the way to it, `mkdirs` did not
fail and neither did `fchown` (`InStep`). After a failure of `mkdirs` the client is told, and then
told again that there is no file; after a failure of `fchown` the client is told, and the file is
received nevertheless and acknowledged at the end. From then on the client takes every status for
the answer to its next request.

Reading is right in any case: whenever the service goes on to another request, it has consumed
one whole request of the client, and all of it.
-/

namespace AndroidSystem.Adb

open List Option Relation Sync SyncId

/-! ## The client's side -/

/-- A message header. -/
def syncHeader (id : SyncId) (n : Nat) : List UInt8 := id.bytes ++ le 4 n

/-- `ID_DATA` -/
def dataMessage (data : List UInt8) : List UInt8 := syncHeader .data data.length ++ data

/-- What follows an `ID_SEND` -/
def sendBody (chunks : List (List UInt8)) (time : Nat) : List UInt8 :=
  chunks.flatMap dataMessage ++ syncHeader .done time

/-- A whole request of a client. -/
inductive SyncRequest where
  | stat (name : List UInt8)
  | list (name : List UInt8)
  | recv (name : List UInt8)
  | send (name : List UInt8) (chunks : List (List UInt8)) (time : Nat)

namespace SyncRequest

def id : SyncRequest → SyncId
  | stat _ => .stat
  | list _ => .list
  | recv _ => .recv
  | send _ _ _ => .send

def name : SyncRequest → List UInt8
  | stat name | list name | recv name | send name _ _ => name

def body : SyncRequest → List UInt8
  | send _ chunks time => sendBody chunks time
  | _ => []

/-- What the client writes. -/
def encode (r : SyncRequest) : List UInt8 :=
  syncHeader r.id r.name.length ++ r.name ++ r.body

/-- The lengths and the time are those the service takes. -/
def Valid (r : SyncRequest) : Prop :=
  r.name.length ≤ 1024 ∧ match r with
    | send _ chunks time => (∀ c ∈ chunks, c.length ≤ syncDataMax) ∧ time < 2 ^ 32
    | _ => True

def isSend : SyncRequest → Bool
  | send _ _ _ => true
  | _ => false

end SyncRequest

variable {n i fuel : Nat} {env : SyncEnv} {w w' : Sync} {r : SyncRequest}
variable {rest : List UInt8} {time : Nat} {chunks : List (List UInt8)}

/-! ## Reading -/

theorem SyncId.bytes_ofBytes (b : List UInt8) : (ofBytes b).bytes = b := by
  unfold ofBytes
  cases h : known.find? (·.bytes = b) with
  | none => rfl
  | some id => simpa using find?_some h

theorem SyncId.ofBytes_bytes {id : SyncId} (h : id ∈ known) :
    ofBytes id.bytes = id ∧ id.bytes.length = 4 := by
  revert id
  decide

namespace Sync

variable {w w' : Sync} {env : SyncEnv}

theorem readFdExactly_append {data : List UInt8} (h : w.input = data ++ rest) :
    w.readFdExactly data.length = (some data, { w with input := rest }) := by
  simp [readFdExactly, h]

theorem readFdExactly_some {data : List UInt8} (h : w.readFdExactly n = (some data, w')) :
    w.input = data ++ w'.input ∧ data.length = n ∧ w' = { w with input := w'.input } := by
  unfold readFdExactly at h
  split_ifs at h with hn
  · obtain ⟨hd, rfl⟩ := Prod.mk.inj h
    obtain rfl := some.inj hd
    exact ⟨by simp, by simpa using hn, rfl⟩
  · cases (Prod.mk.inj h).1

theorem readHeader_append {id : SyncId} (hid : id ∈ known) (hn : n < 2 ^ 32)
    (h : w.input = syncHeader id n ++ rest) :
    w.readHeader = (some (id, n), { w with input := rest }) := by
  obtain ⟨hof, hlen⟩ := ofBytes_bytes hid
  have hlen8 : (syncHeader id n).length = 8 := by simp [syncHeader, hlen]
  have hread := readFdExactly_append h
  rw [hlen8] at hread
  have hun : unle (le 4 n) = n := by
    rw [unle_le]
    exact Nat.mod_eq_of_lt (by simpa using hn)
  have htake : (syncHeader id n).take 4 = id.bytes := by simp [syncHeader, ← hlen]
  have hdrop : (syncHeader id n).drop 4 = le 4 n := by simp [syncHeader, ← hlen]
  simp [readHeader, hread, htake, hdrop, hof, hun]

theorem readHeader_some {id : SyncId} (h : w.readHeader = (some (id, n), w')) :
    w.input = syncHeader id n ++ w'.input ∧ n < 2 ^ 32 ∧ w' = { w with input := w'.input } := by
  unfold readHeader at h
  cases hread : w.readFdExactly 8 with
  | mk o w1 =>
    rw [hread] at h
    cases o with
    | none => cases h
    | some b =>
      obtain ⟨hin, hlen, hw⟩ := readFdExactly_some hread
      obtain ⟨⟨rfl, rfl⟩, rfl⟩ := h
      have hdrop : (b.drop 4).length = 4 := by simp [hlen]
      refine ⟨?_, ?_, hw⟩
      · have hle := le_unle (b.drop 4)
        rw [hdrop] at hle
        rw [syncHeader, bytes_ofBytes, hle, take_append_drop]
        exact hin
      · have := unle_lt (b.drop 4)
        simpa [hdrop] using this

end Sync

/-- The body of a request is there, and `rest` follows. -/
structure Body (chunks : List (List UInt8)) (time : Nat) (rest : List UInt8) (w : Sync) : Prop where
  lengths : ∀ c ∈ chunks, c.length ≤ syncDataMax
  time_lt : time < 2 ^ 32
  input : w.input = sendBody chunks time ++ rest

theorem Body.congr (h : Body chunks time rest w) (hin : w'.input = w.input) :
    Body chunks time rest w' := ⟨h.lengths, h.time_lt, hin.trans h.input⟩

theorem Body.done (h : Body [] time rest w) :
    w.readHeader = (some (.done, time), { w with input := rest }) :=
  readHeader_append (by decide) h.time_lt h.input

section

variable {c : List UInt8} (h : Body (c :: chunks) time rest w)
include h

theorem Body.length_le : c.length ≤ syncDataMax := h.lengths c mem_cons_self

theorem Body.data : w.readHeader =
    (some (.data, c.length), { w with input := c ++ (sendBody chunks time ++ rest) }) :=
  readHeader_append (by decide) (lt_of_le_of_lt h.length_le (by decide))
    (by simp [h.input, sendBody, dataMessage])

theorem Body.tail (hin : w'.input = sendBody chunks time ++ rest) : Body chunks time rest w' :=
  ⟨fun d hd => h.lengths d (mem_cons_of_mem _ hd), h.time_lt, hin⟩

end

/-! ## Writing -/

/-- The number of statuses among replies. -/
def statuses (rs : List Reply) : Nat := rs.countP Reply.isStatus

/-- The client reads what the service writes. -/
def SyncEnv.Connected (env : SyncEnv) : Prop := ∀ n, env.socket n = true

/-- From `w` to `w'` nothing is read and `n` statuses are written. -/
structure Says (n : Nat) (w w' : Sync) : Prop where
  input : w'.input = w.input
  output : ∃ rs, w'.output = w.output ++ rs ∧ statuses rs = n

namespace Says

variable {w w' w'' : Sync} {m n : Nat}

/-- What is neither read nor written does not matter. -/
theorem silent (hi : w'.input = w.input) (ho : w'.output = w.output) : Says 0 w w' :=
  ⟨hi, [], by simp [ho], rfl⟩

theorem trans (h : Says m w w') (h' : Says n w' w'') : Says (m + n) w w'' := by
  obtain ⟨rs, hrs, hm⟩ := h.output
  obtain ⟨rs', hrs', hn⟩ := h'.output
  refine ⟨h'.input.trans h.input, rs ++ rs', by simp [hrs', hrs], ?_⟩
  simp only [statuses, countP_append] at hm hn ⊢
  rw [hm, hn]

theorem after (h : Says n w' w'') (hi : w'.input = w.input) (ho : w'.output = w.output) :
    Says n w w'' := by
  simpa using (silent hi ho).trans h

theorem andThen (h : Says n w w') (hi : w''.input = w'.input) (ho : w''.output = w'.output) :
    Says n w w'' :=
  h.trans (silent hi ho)

theorem fails {s : String} (h : Says 0 w w') (hi : w''.input = w'.input)
    (ho : w''.output = w'.output ++ [.fail s]) : Says 1 w w'' :=
  h.trans ⟨hi, _, ho, rfl⟩

end Says

theorem reply_eq (hc : env.Connected) (w : Sync) (r : Reply) :
    w.reply env r = (true, { w with output := w.output ++ [r] }) :=
  if_pos (hc _)

theorem failErrno_eq (hc : env.Connected) (w : Sync) :
    w.failErrno env = (true, { w with output := w.output ++ [.fail (env.strerror w.errno)] }) :=
  reply_eq hc w _

/-! ## Directories -/

/-- The directories from number `i` on can be made: each is made and gets its owner, or exists. -/
def Makes (env : SyncEnv) (i n : Nat) : Prop :=
  ∀ j, i ≤ j → j < i + n →
    env.mkdir j = none ∧ env.chown j = none ∨ env.mkdir j = some eexist

/-- The path is absolute and its directories can be made. -/
def Creatable (env : SyncEnv) (path : List UInt8) : Prop :=
  path.head? = some 47 ∧ Makes env 0 (parents path).length

theorem makes_succ : Makes env i (n + 1) ↔
    (env.mkdir i = none ∧ env.chown i = none ∨ env.mkdir i = some eexist) ∧ Makes env (i + 1) n := by
  constructor
  · intro h
    exact ⟨h i (le_refl i) (by omega), fun j h1 h2 => h j (by omega) (by omega)⟩
  · rintro ⟨h0, h⟩ j h1 h2
    rcases eq_or_lt_of_le h1 with rfl | hlt
    · exact h0
    · exact h j hlt (by omega)

theorem mkdirsLoop_spec (env : SyncEnv) (i : Nat) (dirs : List (List UInt8))
    (owner : Nat × Nat × Nat) (w : Sync) :
    Says 0 w (mkdirsLoop env i dirs owner w).2
      ∧ ((mkdirsLoop env i dirs owner w).1 = true ↔ Makes env i dirs.length) := by
  induction dirs generalizing i owner w with
  | nil => exact ⟨.silent rfl rfl, by simp [mkdirsLoop, Makes]; omega⟩
  | cons dir dirs ih =>
    rw [length_cons, makes_succ, mkdirsLoop]
    simp only [call]
    cases hmk : env.mkdir i with
    | none =>
      cases hch : env.chown i with
      | none =>
        exact ⟨(ih _ _ _).1.after rfl rfl, by simp [ih]⟩
      | some e => exact ⟨.silent rfl rfl, by simp⟩
    | some e =>
      by_cases he : e = eexist
      · simp only [he]
        exact ⟨(ih _ _ _).1.after rfl rfl, by simp [ih]⟩
      · simp only [getD_some, ne_eq, he]
        exact ⟨.silent rfl rfl, by simp [he]⟩

theorem mkdirs_spec (env : SyncEnv) (path : List UInt8) (w : Sync) :
    Says 0 w (mkdirs env path w).2 ∧ ((mkdirs env path w).1 = true ↔ Creatable env path) := by
  unfold mkdirs Creatable
  split_ifs with h
  · exact ⟨.silent rfl rfl, by simp [h]⟩
  · obtain ⟨hquiet, hiff⟩ := mkdirsLoop_spec env 0 (parents path)
      (2 ^ 32 - 1, 2 ^ 32 - 1, 0o775) w
    exact ⟨hquiet, by rw [hiff]; simp [not_not.1 h]⟩

/-! ## Opening the file -/

/-- One of the `open`s succeeds, provided that the directories can be made. -/
def Opens (env : SyncEnv) : Prop :=
  env.create = none ∨ env.create = some eexist ∧ env.reopen = none
    ∨ env.create = some enoent
      ∧ (env.recreate = none ∨ env.recreate = some eexist ∧ env.reopen = none)

/-- **The condition.** Directories that have to be made can be made, and a file that can be opened
gets its owner. -/
def InStep (env : SyncEnv) (path : List UInt8) : Prop :=
  (env.create = some enoent → Creatable env path) ∧ (Opens env → env.fchown = none)

section

variable {env : SyncEnv} {path : List UInt8} {mode : Nat} {w : Sync}

theorem createFile_spec (hc : env.Connected) (path : List UInt8) (mode : Nat) (w : Sync) :
    ∃ fd w' n, createFile env path mode w = (some fd, w') ∧ Says n w w'
      ∧ (n = 0 ↔ (env.create = some enoent → Creatable env path))
      ∧ (n = 0 → ((openExisting env path mode fd w').1 = true ↔ Opens env)) := by
  simp only [createFile, call, failErrno_eq hc]
  cases hcr : env.create with
  | none =>
    refine ⟨true, _, 0, if_neg (by simp), .silent rfl rfl, by simp, ?_⟩
    simp [openExisting, Opens, hcr]
  | some e =>
    by_cases he : e = enoent
    · subst he
      obtain ⟨hquiet, hmade⟩ := mkdirs_spec env path
        { w with calls := w.calls ++ [.open_ path true mode], errno := enoent }
      simp only [getD_some]
      generalize mkdirs env path _ = r at hquiet hmade ⊢
      obtain ⟨made, w2⟩ := r
      have hquiet2 : Says 0 w w2 := hquiet.after rfl rfl
      cases made with
      | true =>
        refine ⟨env.recreate.isNone, _, 0, rfl, hquiet2.andThen rfl rfl,
          by simp [hmade.1 rfl], fun _ => ?_⟩
        cases hre : env.recreate with
        | none => simp [openExisting, Opens, hcr, hre]
        | some e =>
          have hne : enoent ≠ eexist := by decide
          by_cases he : e = eexist <;> simp [openExisting, Opens, hcr, hre, he, hne, call]
      | false =>
        have hcreat : ¬Creatable env path := fun h => by simpa using hmade.2 h
        exact ⟨false, _, 1, rfl, hquiet2.fails rfl rfl, by simp [hcreat], by simp⟩
    · refine ⟨false, _, 0, if_neg (by simp [he]), .silent rfl rfl, by simp [he], fun _ => ?_⟩
      by_cases he' : e = eexist
      · simp [openExisting, Opens, hcr, he', call, enoent, eexist]
      · simp [openExisting, Opens, hcr, he, he']

theorem openExisting_says (env : SyncEnv) (path : List UInt8) (mode : Nat) (w : Sync) (fd : Bool) :
    Says 0 w (openExisting env path mode fd w).2 := by
  unfold openExisting
  split_ifs <;> exact .silent rfl rfl

theorem setOwner_spec (hc : env.Connected) (mode : Nat) (w : Sync) (uid gid : Nat) (fd : Bool) :
    ∃ w', setOwner env uid gid mode fd w = (some fd, w')
      ∧ Says (if fd ∧ env.fchown = none then 0 else 1) w w' := by
  simp only [setOwner, failErrno_eq hc]
  cases fd with
  | false => exact ⟨_, rfl, rfl, _, rfl, rfl⟩
  | true =>
    cases env.fchown with
    | none => exact ⟨_, rfl, .silent rfl rfl⟩
    | some e => exact ⟨_, rfl, rfl, _, rfl, rfl⟩

/-- The file is opened, or there is none. One status for the file or its absence will make one
status in all if and only if the condition holds. -/
theorem openFile_spec (hc : env.Connected) (path : List UInt8) (mode : Nat) (w : Sync)
    (uid gid : Nat) :
    ∃ fd1 w1 fd w2 w3 n, createFile env path mode w = (some fd1, w1)
      ∧ openExisting env path mode fd1 w1 = (fd, w2) ∧ setOwner env uid gid mode fd w2 = (some fd, w3)
      ∧ Says n w w3 ∧ (n + fd.toNat = 1 ↔ InStep env path) := by
  obtain ⟨fd1, w1, n1, hcreate, hquiet1, hn1, hopens⟩ := createFile_spec hc path mode w
  have hquiet2 := openExisting_says env path mode w1 fd1
  obtain ⟨⟨fd, w2⟩, hop⟩ : ∃ r, openExisting env path mode fd1 w1 = r := ⟨_, rfl⟩
  rw [hop] at hopens hquiet2
  obtain ⟨w3, hown, hquiet3⟩ := setOwner_spec hc mode w2 uid gid fd
  refine ⟨fd1, w1, fd, w2, w3, _, hcreate, hop, hown, (hquiet1.trans hquiet2).trans hquiet3, ?_⟩
  rw [InStep, ← hn1]
  by_cases hn : n1 = 0
  · rw [← hopens hn]
    cases fd <;> by_cases hf : env.fchown = none <;> simp [hn, hf]
  · cases fd <;> by_cases hf : env.fchown = none <;> simp [hn, hf]

/-! ## Receiving the data -/

variable {doUnlink : Bool}

/-- The client is told when the file is given up, and only then. -/
theorem writeChunk_spec (path : List UInt8) (doUnlink : Bool) (w : Sync) (hc : env.Connected)
    (i : Nat) (fd : Bool) (data : List UInt8) :
    ∃ fd' w' n, writeChunk env path doUnlink i fd data w = (some fd', w') ∧ Says n w w'
      ∧ n + fd'.toNat = fd.toNat := by
  simp only [writeChunk, failErrno_eq hc]
  cases fd with
  | false => exact ⟨false, w, 0, rfl, .silent rfl rfl, rfl⟩
  | true =>
    by_cases hd : data = []
    · rw [if_pos hd]
      exact ⟨true, w, 0, rfl, .silent rfl rfl, rfl⟩
    · rw [if_neg hd]
      cases env.write i with
      | none => exact ⟨true, _, 0, rfl, .silent rfl rfl, rfl⟩
      | some e => exact ⟨false, _, 1, rfl, ⟨rfl, _, rfl, rfl⟩, rfl⟩

theorem receiveData_body (path : List UInt8) (doUnlink : Bool) (hc : env.Connected)
    (hbody : Body chunks time rest w) (hfuel : chunks.length < fuel) (i : Nat) (fd : Bool) :
    ∃ fd' w' rs, receiveData env path doUnlink fuel i fd w = (some (fd', time), w')
      ∧ w'.input = rest ∧ w'.output = w.output ++ rs ∧ statuses rs + fd'.toNat = fd.toNat := by
  induction chunks generalizing fuel i fd w with
  | nil =>
    obtain ⟨fuel, rfl⟩ : ∃ f, fuel = f + 1 := ⟨fuel - 1, by omega⟩
    refine ⟨fd, { w with input := rest }, [], ?_, rfl, by simp, by simp [statuses]⟩
    rw [receiveData, hbody.done]
  | cons c cs ih =>
    obtain ⟨fuel, rfl⟩ : ∃ f, fuel = f + 1 := ⟨fuel - 1, by omega⟩
    have hdata := readFdExactly_append
      (w := { w with input := c ++ (sendBody cs time ++ rest) }) rfl
    obtain ⟨fd1, w3, n, hwrite, hquiet, hn⟩ := writeChunk_spec path doUnlink { w with
      input := sendBody cs time ++ rest, buffer := c ++ w.buffer.drop c.length } hc i fd c
    obtain ⟨rs1, hout1, hst1⟩ := hquiet.output
    obtain ⟨fd', w', rs, hrun, hrest, hout, hst⟩ :=
      ih (hbody.tail hquiet.input) (by simpa using hfuel) (i + 1) fd1
    refine ⟨fd', w', rs1 ++ rs, ?_, hrest, by rw [hout, hout1, append_assoc], ?_⟩
    · rw [receiveData, hbody.data]
      simp only [not_lt.2 hbody.length_le, if_false]
      rw [hdata]
      simp only [hwrite, hrun]
    · simp only [statuses, countP_append] at hst hst1 ⊢
      omega

section

variable (hc : env.Connected)
include hc

theorem receiveData_some {fd fd' : Bool}
    (h : receiveData env path doUnlink fuel i fd w = (some (fd', time), w')) :
    ∃ chunks, Body chunks time w'.input w := by
  induction fuel generalizing i fd w with
  | zero => cases h
  | succ fuel ih =>
    rw [receiveData] at h
    split at h
    · cases h
    · rename_i size w1 hread
      obtain ⟨hin, hlt, -⟩ := readHeader_some hread
      obtain ⟨⟨rfl, rfl⟩, rfl⟩ := h
      exact ⟨[], by simp, hlt, by simpa [sendBody] using hin⟩
    · rename_i len w1 hread
      obtain ⟨hin, hlt, hw1⟩ := readHeader_some hread
      split_ifs at h with hlen
      · cases h
      · split at h
        · cases h
        · rename_i data w2 hdata
          obtain ⟨hin2, hdlen, hw2⟩ := readFdExactly_some hdata
          dsimp only at h
          split at h
          · cases h
          · rename_i fd1 w3 hwrite
            obtain ⟨cs, hbody⟩ := ih h
            have hw3 : w3.input = w2.input := by
              obtain ⟨fd2, w4, n, hwrite', hquiet, -⟩ := writeChunk_spec path doUnlink
                { w2 with buffer := data ++ w2.buffer.drop len } hc i fd data
              rw [hwrite] at hwrite'
              exact (Prod.mk.inj hwrite').2 ▸ hquiet.input
            refine ⟨data :: cs, forall_mem_cons.2 ⟨by omega, hbody.lengths⟩, hbody.time_lt, ?_⟩
            rw [hin, hin2, ← hw3, hbody.input]
            simp [sendBody, dataMessage, hdlen]
    · cases h

omit hc in
theorem length_lt_sendBody (chunks : List (List UInt8)) (time : Nat) (rest : List UInt8) :
    chunks.length < (sendBody chunks time ++ rest).length + 1 := by
  have : chunks.length ≤ (chunks.flatMap dataMessage).length := by
    induction chunks with
    | nil => simp
    | cons c cs ih =>
      simp only [flatMap_cons, length_append, length_cons, dataMessage, syncHeader,
        length_le] at ih ⊢
      omega
  simp only [sendBody, length_append]
  omega

theorem finishFile_spec (path : List UInt8) (fd : Bool) (time : Nat) (w : Sync) :
    ∃ w', finishFile env path fd time w = (true, w') ∧ Says fd.toNat w w' := by
  cases fd with
  | false => exact ⟨w, rfl, .silent rfl rfl⟩
  | true => exact ⟨_, reply_eq hc _ _, rfl, _, rfl, rfl⟩

/-- Receiving a file whose contents are there takes all of them, and the number of statuses is one
if and only if the condition holds. -/
theorem handleSendFile_spec {uid gid : Nat} (hbody : Body chunks time rest w) :
    ∃ w' rs, handleSendFile env path uid gid mode doUnlink w = (true, w') ∧ w'.input = rest
      ∧ w'.output = w.output ++ rs ∧ (statuses rs = 1 ↔ InStep env path) := by
  obtain ⟨fd1, w1, fd, w2, w3, n, hcreate, hop, hown, hquiet, hiff⟩ :=
    openFile_spec hc path mode w uid gid
  have hbody3 := hbody.congr hquiet.input
  obtain ⟨fd4, w4, rs4, hrecv, hin4, hout4, hst4⟩ := receiveData_body path doUnlink hc hbody3
    (hbody3.input ▸ length_lt_sendBody chunks time rest) 0 fd
  obtain ⟨w5, hfin, hquiet5⟩ := finishFile_spec hc path fd4 time w4
  obtain ⟨rs3, hout3, hst3⟩ := hquiet.output
  obtain ⟨rs5, hout5, hst5⟩ := hquiet5.output
  refine ⟨w5, rs3 ++ rs4 ++ rs5, ?_, hquiet5.input.trans hin4, by simp [hout5, hout4, hout3], ?_⟩
  · simp only [handleSendFile, hcreate, hop, hown, hrecv, hfin]
  · rw [← hiff]
    simp only [statuses, countP_append] at hst3 hst4 hst5 ⊢
    omega

theorem handleSendFile_true {uid gid : Nat}
    (h : handleSendFile env path uid gid mode doUnlink w = (true, w')) :
    ∃ chunks time, Body chunks time w'.input w := by
  obtain ⟨fd1, w1, fd, w2, w3, n, hcreate, hop, hown, hquiet, -⟩ :=
    openFile_spec hc path mode w uid gid
  simp only [handleSendFile, hcreate, hop, hown] at h
  split at h
  · cases h
  · rename_i fd4 time w4 hrecv
    obtain ⟨chunks, hbody⟩ := receiveData_some hc hrecv
    obtain ⟨w5, hfin, hquiet5⟩ := finishFile_spec hc path fd4 time w4
    obtain rfl : w5 = w' := (Prod.mk.inj (hfin.symm.trans h)).2
    rw [hquiet5.input]
    exact ⟨chunks, time, hbody.congr hquiet.input.symm⟩

/-! ## Receiving a link -/

theorem retryLink_spec :
    Says (if (retryLink env path w).1 then 0 else 1) w (retryLink env path w).2 := by
  have hquiet := (mkdirs_spec env path w).1
  simp only [retryLink, failErrno_eq hc]
  generalize mkdirs env path w = r at hquiet ⊢
  obtain ⟨made, w1⟩ := r
  cases made with
  | false => exact hquiet.fails rfl rfl
  | true =>
    cases env.resymlink with
    | none => exact hquiet.andThen rfl rfl
    | some e => exact hquiet.fails rfl rfl

/-- Making a link tells the client if and only if it fails. -/
theorem makeLink_spec (path : List UInt8) (w : Sync) :
    Says (if (makeLink env path w).1 then 0 else 1) w (makeLink env path w).2 := by
  simp only [makeLink, call, failErrno_eq hc]
  cases env.symlink with
  | none => exact .silent rfl rfl
  | some e =>
    by_cases he : e = enoent
    · simp only [he]
      exact (retryLink_spec hc).after rfl rfl
    · simp only [he, getD_some]
      exact ⟨rfl, _, rfl, rfl⟩

section

variable (hbody : Body chunks time rest w)
include hbody

theorem finishLink_spec :
    ∃ go w' rs, finishLink env w = (go, w') ∧ (go = true → w'.input = rest)
      ∧ w'.output = w.output ++ rs ∧ statuses rs = 1 := by
  unfold finishLink
  cases chunks with
  | nil =>
    rw [hbody.done]
    exact ⟨true, _, _, reply_eq hc _ _, fun _ => rfl, rfl, rfl⟩
  | cons c cs =>
    rw [hbody.data]
    simp only [failMessage, reply_eq hc]
    exact ⟨false, _, _, rfl, by simp, rfl, rfl⟩

/-- A link whose body is there gets one status in any case. -/
theorem handleSendLink_spec :
    ∃ go w' rs, handleSendLink env path w = (go, w') ∧ (go = true → w'.input = rest)
      ∧ w'.output = w.output ++ rs ∧ statuses rs = 1 := by
  cases chunks with
  | nil =>
    simp only [handleSendLink, hbody.done, failMessage, reply_eq hc]
    exact ⟨false, _, _, rfl, by simp, rfl, rfl⟩
  | cons c cs =>
    have hdata := readFdExactly_append
      (w := { w with input := c ++ (sendBody cs time ++ rest) }) rfl
    have hquiet := makeLink_spec hc path { w with
      input := sendBody cs time ++ rest, buffer := c ++ w.buffer.drop c.length }
    simp only [handleSendLink, hbody.data, not_lt.2 hbody.length_le, hdata]
    generalize makeLink env path _ = r at hquiet ⊢
    obtain ⟨linked, w3⟩ := r
    obtain ⟨rs3, hout3, hst3⟩ := hquiet.output
    cases linked with
    | false => exact ⟨false, w3, rs3, rfl, by simp, hout3, hst3⟩
    | true =>
      obtain ⟨go, w', rs, hrun, hrest, hout, hst⟩ :=
        finishLink_spec hc (hbody.tail hquiet.input)
      refine ⟨go, w', rs3 ++ rs, hrun, hrest, by rw [hout, hout3, append_assoc], ?_⟩
      simp only [statuses, countP_append] at hst3 hst ⊢
      rw [hst3, hst]
      rfl

end

theorem handleSendLink_true (h : handleSendLink env path w = (true, w')) :
    ∃ chunks time, Body chunks time w'.input w := by
  unfold handleSendLink at h
  split at h
  · cases h
  · rename_i len w1 hread
    obtain ⟨hin, -, -⟩ := readHeader_some hread
    split_ifs at h with hlen
    · cases h
    · split at h
      · cases h
      · rename_i data w2 hdata
        obtain ⟨hin2, hdlen, -⟩ := readFdExactly_some hdata
        have hquiet := makeLink_spec hc path
          { w2 with buffer := data ++ w2.buffer.drop len }
        split at h
        · cases h
        · rename_i w3 hmk
          rw [hmk] at hquiet
          have hin3 : w3.input = w2.input := hquiet.input
          unfold finishLink at h
          split at h
          · cases h
          · rename_i time w4 hread3
            obtain ⟨hin4, htime, -⟩ := readHeader_some hread3
            rw [reply_eq hc] at h
            obtain rfl := (Prod.mk.inj h).2
            refine ⟨[data], time, ?_, htime, ?_⟩
            · simpa [hdlen] using hlen
            · rw [hin, hin2, ← hin3, hin4]
              simp [sendBody, dataMessage, hdlen]
          · cases h
  · cases h

end

end

/-! ## Requests -/

/-- The condition for the request with this name: a link is always in step. -/
def SendInStep (env : SyncEnv) (name : List UInt8) : Prop :=
  (sendTarget env (cString name)).link = false → InStep env (sendTarget env (cString name)).path

section

variable {env : SyncEnv} {w w' : Sync}

section

variable (hc : env.Connected)
include hc

theorem doSend_spec {name : List UInt8} (hbody : Body chunks time rest w) :
    ∃ go w' rs, doSend env (cString name) w = (go, w') ∧ (go = true → w'.input = rest)
      ∧ w'.output = w.output ++ rs ∧ (statuses rs = 1 ↔ SendInStep env name) := by
  unfold doSend SendInStep
  generalize sendTarget env (cString name) = x
  have hbody' : Body chunks time rest (w.calls_ (if x.unlinkNow then [.unlink x.path] else [])) :=
    hbody.congr rfl
  dsimp only
  unfold receiveTarget
  cases hlink : x.link with
  | true =>
    obtain ⟨go, w', rs, hrun, hrest, hout, hst⟩ := handleSendLink_spec hc hbody'
    exact ⟨go, w', rs, by simpa using hrun, hrest, hout, by simp [hst]⟩
  | false =>
    obtain ⟨w', rs, hrun, hrest, hout, hst⟩ := handleSendFile_spec hc hbody'
    exact ⟨true, w', rs, by simpa using hrun, fun _ => hrest, hout, by simpa using hst⟩

theorem doSend_true {name : List UInt8} (h : doSend env name w = (true, w')) :
    ∃ chunks time, Body chunks time w'.input w := by
  unfold doSend at h
  dsimp only at h
  generalize hw1 : w.calls_ _ = w1 at h
  have hin : w.input = w1.input := hw1 ▸ rfl
  unfold receiveTarget at h
  obtain ⟨chunks, time, hbody⟩ : ∃ chunks time, Body chunks time w'.input w1 := by
    split_ifs at h
    · exact handleSendLink_true hc h
    · exact handleSendFile_true hc h
  exact ⟨chunks, time, hbody.congr hin⟩

theorem listLoop_says (entries : List (List UInt8 × Option FileStat)) :
    ∃ w', listLoop env entries w = (true, w') ∧ Says 0 w w' := by
  induction entries generalizing w with
  | nil => exact ⟨_, reply_eq hc w _, rfl, _, rfl, rfl⟩
  | cons x entries ih =>
    obtain ⟨name, stat⟩ := x
    by_cases hlen : name.length > 256
    · simpa only [listLoop, hlen, if_true] using ih
    · cases stat with
      | none => simpa only [listLoop, hlen, if_false] using ih
      | some st =>
        obtain ⟨w2, hrun, hquiet⟩ := ih
        have hsays : Says 0 w { w with output := w.output ++ [.dent st name] } := ⟨rfl, _, rfl, rfl⟩
        exact ⟨w2, by simp only [listLoop, hlen, if_false, reply_eq hc, hrun], hsays.trans hquiet⟩

theorem recvLoop_says (reads : List FileRead) : ∃ n, Says n w (recvLoop env reads w).2 := by
  induction reads generalizing w with
  | nil =>
    rw [recvLoop, reply_eq hc]
    exact ⟨0, rfl, _, rfl, rfl⟩
  | cons r reads ih =>
    cases r with
    | interrupted => exact ih
    | failed e =>
      simp only [recvLoop, failErrno_eq hc]
      exact ⟨1, rfl, _, rfl, rfl⟩
    | bytes data =>
      obtain ⟨n, hquiet⟩ := ih
      have hsays : Says 0 w { w with output := w.output ++ [.data data] } := ⟨rfl, _, rfl, rfl⟩
      rw [recvLoop, reply_eq hc]
      exact ⟨0 + n, hsays.trans hquiet⟩

theorem doRecv_says (path : List UInt8) : ∃ n, Says n w (doRecv env path w).2 := by
  simp only [doRecv, failErrno_eq hc]
  cases env.openRead with
  | none =>
    obtain ⟨n, hquiet⟩ := recvLoop_says hc env.reads
    exact ⟨n, hquiet.after rfl rfl⟩
  | some e => exact ⟨1, rfl, _, rfl, rfl⟩

/-! ## Rounds -/

omit hc in
theorem serve_encode (hr : r.Valid) (hin : w.input = r.encode ++ rest) :
    serve env w = serveRequest env r.id (cString r.name) { w with input := r.body ++ rest } := by
  have hid : r.id ∈ known := by cases r <;> simp [SyncRequest.id, known]
  have hin' : w.input = syncHeader r.id r.name.length ++ (r.name ++ (r.body ++ rest)) := by
    simp [hin, SyncRequest.encode]
  have hread := readHeader_append hid (lt_of_le_of_lt hr.1 (by decide)) hin'
  have hname := readFdExactly_append
    (w := { w with input := r.name ++ (r.body ++ rest) }) rfl
  simp only [serve, hread, gt_iff_lt, Nat.not_lt.2 hr.1, if_false, hname]

omit hc in
theorem serve_header (h : serve env w = (true, w')) :
    ∃ id name w1, name.length ≤ 1024 ∧ w.input = syncHeader id name.length ++ name ++ w1.input
      ∧ w1.output = w.output ∧ serveRequest env id (cString name) w1 = (true, w') := by
  unfold serve at h
  split at h
  · cases h
  · rename_i id namelen w1 hread
    obtain ⟨hin, -, hw1⟩ := readHeader_some hread
    split_ifs at h with hlen
    · cases h
    · split at h
      · cases h
      · rename_i name w2 hname
        obtain ⟨hin2, hnlen, hw2⟩ := readFdExactly_some hname
        refine ⟨id, name, w2, by omega, ?_, ?_, h⟩
        · rw [hin, hin2, hnlen, append_assoc]
        · rw [hw2, hw1]

theorem serve_true (h : serve env w = (true, w')) :
    ∃ (r : SyncRequest) (rs : List Reply), r.Valid ∧ w.input = r.encode ++ w'.input
      ∧ w'.output = w.output ++ rs := by
  obtain ⟨id, name, w1, hlen, hin, hout, hreq⟩ := serve_header h
  have hserved (r : SyncRequest) (rs : List Reply) (hid : r.id = id) (hname : r.name = name)
      (hr : r.Valid) (hbody : w1.input = r.body ++ w'.input) (hrs : w'.output = w1.output ++ rs) :
      ∃ (r : SyncRequest) (rs : List Reply), r.Valid ∧ w.input = r.encode ++ w'.input
        ∧ w'.output = w.output ++ rs :=
    ⟨r, rs, hr, by rw [hin, hbody, SyncRequest.encode, hid, hname]; simp, by rw [hrs, hout]⟩
  unfold serveRequest at hreq
  split at hreq
  · obtain rfl := (Prod.mk.inj ((reply_eq hc w1 _).symm.trans hreq)).2
    exact hserved (.stat name) _ rfl rfl ⟨hlen, trivial⟩ rfl rfl
  · obtain ⟨w2, hrun, hquiet⟩ := listLoop_says hc (env.entries.getD [])
    obtain rfl : w2 = w' := (Prod.mk.inj (hrun.symm.trans hreq)).2
    obtain ⟨rs, hrs, -⟩ := hquiet.output
    exact hserved (.list name) rs rfl rfl ⟨hlen, trivial⟩ hquiet.input.symm hrs
  · obtain ⟨chunks, time, hbody⟩ := doSend_true hc hreq
    obtain ⟨go, w2, rs, hrun, -, hrs, -⟩ := doSend_spec hc hbody
    obtain rfl : w2 = w' := (Prod.mk.inj (hrun.symm.trans hreq)).2
    exact hserved (.send name chunks time) rs rfl rfl ⟨hlen, hbody.lengths, hbody.time_lt⟩ hbody.input hrs
  · obtain ⟨n, hquiet⟩ := doRecv_says hc (cString name)
    rw [hreq] at hquiet
    obtain ⟨rs, hrs, -⟩ := hquiet.output
    exact hserved (.recv name) rs rfl rfl ⟨hlen, trivial⟩ hquiet.input.symm hrs
  · cases hreq
  · cases hreq

/-- **A request to receive a file or a link.** If the request is there to its `ID_DONE`, then the
service writes one status for it if and only if the condition holds, and goes on, if it does, right
after it. -/
theorem serve_send (hr : r.Valid) (hsend : r.isSend = true) (hin : w.input = r.encode ++ rest) :
    ∃ go w' rs, serve env w = (go, w') ∧ (go = true → w'.input = rest)
      ∧ w'.output = w.output ++ rs ∧ (statuses rs = 1 ↔ SendInStep env r.name) := by
  rw [serve_encode hr hin]
  cases r with
  | send name chunks time =>
    exact doSend_spec hc ⟨hr.2.1, hr.2.2, rfl⟩
  | _ => cases hsend

end

end

/-! ## The dialogue -/

/-- A round: the client's request, what the service wrote while it served it, and another round
follows. -/
def SyncRound (w : Sync) (r : SyncRequest) (rs : List Reply) (w' : Sync) : Prop :=
  (∃ env : SyncEnv, env.Connected ∧ serve env w = (true, w')) ∧ r.Valid
    ∧ w.input = r.encode ++ w'.input ∧ w'.output = w.output ++ rs

/-- Round after round, with the requests and the answers to each. -/
inductive Dialogue (w₀ : Sync) : List (SyncRequest × List Reply) → Sync → Prop
  | start : Dialogue w₀ [] w₀
  | round {ds : List (SyncRequest × List Reply)} {w w' : Sync} {r : SyncRequest}
      {rs : List Reply} : Dialogue w₀ ds w → SyncRound w r rs w' → Dialogue w₀ (ds ++ [(r, rs)]) w'

/-- A round in which the condition holds if the request is an `ID_SEND`. -/
def InStepRound (w w' : Sync) : Prop :=
  ∃ env : SyncEnv, env.Connected ∧ serve env w = (true, w')
    ∧ ∀ (r : SyncRequest) (rest : List UInt8), r.Valid → r.isSend = true →
      w.input = r.encode ++ rest → SendInStep env r.name

/-- **Step.** A round in step answers its request, with one status if it is an `ID_SEND`. -/
theorem inStepRound_answers (h : InStepRound w w') :
    ∃ r rs, SyncRound w r rs w' ∧ (r.isSend = true → statuses rs = 1) := by
  obtain ⟨env, hc, hserve, hstep⟩ := h
  obtain ⟨r, rs, hr, hin, hout⟩ := serve_true hc hserve
  refine ⟨r, rs, ⟨⟨env, hc, hserve⟩, hr, hin, hout⟩, fun hsend => ?_⟩
  obtain ⟨go, w2, rs', hserve', -, hout', hst⟩ := serve_send hc hr hsend hin
  obtain rfl : w' = w2 := (Prod.mk.inj (hserve.symm.trans hserve')).2
  obtain rfl : rs = rs' := append_cancel_left (hout.symm.trans hout')
  exact hst.2 (hstep r w'.input hr hsend hin)

/-- **Client and service stay in step as long as the condition holds.** Whatever the client
sends: the rounds are a dialogue, in which every `ID_SEND` has been consumed with all of its data
messages and its `ID_DONE` and was answered by one status. And whenever the next request is an
`ID_SEND` that is there to its `ID_DONE`, it gets one status if and only if the condition
holds. -/
theorem sync_in_step {w₀ w : Sync} (hrun : ReflTransGen InStepRound w₀ w) :
    (∃ ds, Dialogue w₀ ds w ∧ ∀ d ∈ ds, d.1.isSend = true → statuses d.2 = 1)
      ∧ ∀ (env : SyncEnv) (r : SyncRequest) (rest : List UInt8), env.Connected → r.Valid →
        r.isSend = true → w.input = r.encode ++ rest →
        ∃ go w' rs, serve env w = (go, w') ∧ (go = true → w'.input = rest)
          ∧ w'.output = w.output ++ rs ∧ (statuses rs = 1 ↔ SendInStep env r.name) := by
  refine ⟨?_, fun env r rest hc hr hsend hin => serve_send hc hr hsend hin⟩
  induction hrun with
  | refl => exact ⟨[], .start, by simp⟩
  | tail _ hstep ih =>
    obtain ⟨ds, hdia, hds⟩ := ih
    obtain ⟨r, rs, hround, hone⟩ := inStepRound_answers hstep
    refine ⟨ds ++ [(r, rs)], hdia.round hround, ?_⟩
    intro d hd
    rcases mem_append.1 hd with hd | hd
    · exact hds d hd
    · rw [mem_singleton.1 hd]
      exact hone

/-- The file `/d/f` with one byte. -/
def sampleSend : SyncRequest := .send [47, 100, 47, 102] [[65]] 0

/-- A client that sends it. -/
def sampleClient : Sync := { input := sampleSend.encode }

/-- If every call succeeds the client gets one status. -/
theorem sync_in_step_sample :
    ∃ w ds, ReflTransGen InStepRound sampleClient w ∧ Dialogue sampleClient ds w
      ∧ w.output = [.okay] ∧ ∀ d ∈ ds, d.1.isSend = true → statuses d.2 = 1 := by
  have hrun : ReflTransGen InStepRound sampleClient (serve {} sampleClient).2 := by
    refine .single ⟨{}, fun _ => rfl, by decide, fun r rest _ _ _ _ => ?_⟩
    exact ⟨by simp, fun _ => rfl⟩
  obtain ⟨⟨ds, hdia, hds⟩, -⟩ := sync_in_step hrun
  exact ⟨_, ds, hrun, hdia, by decide, hds⟩

/-- **Two statuses for one request**: when `fchown` fails, the file is received and acknowledged
after the failure was reported; when `mkdirs` fails, the failure is reported twice. The client has
sent one request, and the service has read it to its end. -/
theorem two_statuses :
    statuses (serve { fchown := some 1 } sampleClient).2.output = 2
      ∧ (serve { fchown := some 1 } sampleClient).2.input = []
      ∧ statuses (serve { create := some enoent, mkdir := fun _ => some 13 } sampleClient).2.output = 2
      ∧ (serve { create := some enoent, mkdir := fun _ => some 13 } sampleClient).2.input = [] := by
  decide

end AndroidSystem.Adb
