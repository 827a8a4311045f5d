import AndroidSystem.Lib.LittleEndian

/-!
# The file sync service

`file_sync_service.cpp`: the loop that reads requests from a client, and the functions that
serve them. A request is a header with an id and the length of a name, and the name. `ID_SEND`
is followed by `ID_DATA` messages with the contents of a file, or with the target of a link, and
by `ID_DONE`; the service answers with a status, `ID_OKAY` or `ID_FAIL`.

The client's bytes are the input and the messages to it the output. What the system calls answer
while one request is served is in `SyncEnv`; the calls with their arguments are logged.
-/

namespace AndroidSystem.Adb

/-! ## Messages -/

/-- The ids a client sends. -/
inductive SyncId where
  | stat
  | list
  | send
  | recv
  | done
  | data
  | quit
  | other (bytes : List UInt8)
  deriving Repr, DecidableEq

namespace SyncId

/-- `MKID` in memory order -/
def bytes : SyncId → List UInt8
  | .stat => [83, 84, 65, 84]
  | .list => [76, 73, 83, 84]
  | .send => [83, 69, 78, 68]
  | .recv => [82, 69, 67, 86]
  | .done => [68, 79, 78, 69]
  | .data => [68, 65, 84, 65]
  | .quit => [81, 85, 73, 84]
  | .other b => b

/-- The ids the service knows. -/
def known : List SyncId := [.stat, .list, .send, .recv, .done, .data, .quit]

/-- The id that four bytes stand for. -/
def ofBytes (b : List UInt8) : SyncId := (known.find? (·.bytes = b)).getD (.other b)

end SyncId

/-- A file's `mode`, `size` and `time`, as `lstat` gives them. -/
structure FileStat where
  mode : Nat
  size : Nat
  time : Nat
  deriving Repr, DecidableEq

/-- What the service writes to the client. -/
inductive Reply where
  | stat (s : FileStat)
  | dent (s : FileStat) (name : List UInt8)
  | dentDone
  | data (bytes : List UInt8)
  | dataDone
  | okay
  | fail (reason : String)
  deriving Repr, DecidableEq

/-- `ID_OKAY` and `ID_FAIL` -/
def Reply.isStatus : Reply → Bool
  | .okay | .fail _ => true
  | _ => false

/-- A system call on the file system. -/
inductive SysCall where
  | open_ (path : List UInt8) (exclusive : Bool) (mode : Nat)
  | openRead (path : List UInt8)
  | mkdir (path : List UInt8) (mode : Nat)
  | chown (path : List UInt8) (uid gid : Nat)
  | fchown (uid gid : Nat)
  | fchmod (mode : Nat)
  | write (data : List UInt8)
  | close
  | unlink (path : List UInt8)
  | symlink (target path : List UInt8)
  | restorecon (path : List UInt8)
  | utime (path : List UInt8) (time : Nat)
  deriving Repr, DecidableEq

/-- One `adb_read` of a file that is sent to the client. -/
inductive FileRead where
  | bytes (data : List UInt8)
  | interrupted
  | failed (errno : Nat)
  deriving Repr, DecidableEq

/-- What the system answers while one request is served. A call gives `none` if it succeeds and
otherwise its `errno`. `create` is the first `open`, `recreate` the one after `mkdirs` and `reopen`
the one without `O_EXCL`; `mkdir` and `chown` are numbered by directory and `write` by data message.
`reads` ends where the file ends. `socket n` tells whether the client gets the next message when
it has `n`. -/
structure SyncEnv where
  create : Option Nat := none
  recreate : Option Nat := none
  reopen : Option Nat := none
  mkdir : Nat → Option Nat := fun _ => none
  chown : Nat → Option Nat := fun _ => none
  fchown : Option Nat := none
  write : Nat → Option Nat := fun _ => none
  symlink : Option Nat := none
  resymlink : Option Nat := none
  lstat : Option FileStat := none
  entries : Option (List (List UInt8 × Option FileStat)) := none
  openRead : Option Nat := none
  reads : List FileRead := []
  strtoul : List UInt8 → Nat × Nat := fun _ => (0, 0)
  fsConfig : List UInt8 → Bool → Nat × Nat × Nat := fun _ _ => (0, 0, 0)
  strerror : Nat → String := fun _ => ""
  socket : Nat → Bool := fun _ => true

/-- The service. `buffer` is what `malloc(SYNC_DATA_MAX)` returned, with what was read into it
since. -/
structure Sync where
  input : List UInt8
  output : List Reply := []
  calls : List SysCall := []
  errno : Nat := 0
  buffer : List UInt8 := []
  deriving DecidableEq

def syncDataMax : Nat := 65536

def enoent : Nat := 2

def eexist : Nat := 17

namespace Sync

variable (w : Sync)

def readFdExactly (n : Nat) : Option (List UInt8) × Sync :=
  if n ≤ w.input.length then (some (w.input.take n), { w with input := w.input.drop n })
  else (none, { w with input := [], errno := 0 })

/-- A message header: an id and a length. -/
def readHeader : Option (SyncId × Nat) × Sync :=
  let (h, w) := w.readFdExactly 8
  (h.map fun h => (SyncId.ofBytes (h.take 4), unle (h.drop 4)), w)

/-- Writes a message to the client, if the socket takes it. -/
def reply (env : SyncEnv) (r : Reply) : Bool × Sync :=
  if env.socket w.output.length then (true, { w with output := w.output ++ [r] }) else (false, w)

def failMessage (env : SyncEnv) (reason : String) : Bool × Sync :=
  w.reply env (.fail reason)

def failErrno (env : SyncEnv) : Bool × Sync := w.failMessage env (env.strerror w.errno)

/-- Makes a system call. -/
def call (c : SysCall) (result : Option Nat) : Bool × Sync :=
  (result.isNone, { w with calls := w.calls ++ [c], errno := result.getD w.errno })

/-- Makes system calls whose results are ignored. -/
def calls_ (cs : List SysCall) : Sync := { w with calls := w.calls ++ cs }

end Sync

/-! ## Directories -/

/-- The path starts with one of the texts `/system/`, `/vendor/` and `/oem/`. -/
def shouldUseFsConfig (path : List UInt8) : Bool :=
  [47, 115, 121, 115, 116, 101, 109, 47].isPrefixOf path
    || [47, 118, 101, 110, 100, 111, 114, 47].isPrefixOf path
    || [47, 111, 101, 109, 47].isPrefixOf path

/-- The directories on the way to `path`, in order: what stands before each slash but the first. -/
def parents (path : List UInt8) : List (List UInt8) :=
  ((List.range path.length).filter fun i => 1 ≤ i ∧ path[i]? = some 47).map path.take

/-- The loop of `mkdirs`. The owner and the mode are those of the last directory that `fs_config`
knew. -/
def mkdirsLoop (env : SyncEnv) : Nat → List (List UInt8) → Nat × Nat × Nat → Sync → Bool × Sync
  | _, [], _, w => (true, w)
  | i, dir :: dirs, owner, w =>
    let owner := if shouldUseFsConfig dir then env.fsConfig dir true else owner
    let (made, w) := w.call (.mkdir dir owner.2.2) (env.mkdir i)
    if ¬made ∧ w.errno ≠ eexist then (false, w)
    else if made then
      let (owned, w) := w.call (.chown dir owner.1 owner.2.1) (env.chown i)
      if owned then mkdirsLoop env (i + 1) dirs owner (w.calls_ [.restorecon dir]) else (false, w)
    else mkdirsLoop env (i + 1) dirs owner w

def mkdirs (env : SyncEnv) (path : List UInt8) (w : Sync) : Bool × Sync :=
  if path.head? ≠ some 47 then (false, w)
  else mkdirsLoop env 0 (parents path) (2 ^ 32 - 1, 2 ^ 32 - 1, 0o775) w

/-! ## Receiving a file -/

section

variable (env : SyncEnv)

/-- `handle_send_file` up to the first two `open`s; `none` if the function returns. -/
def createFile (path : List UInt8) (mode : Nat) (w : Sync) : Option Bool × Sync :=
  let (fd, w) := w.call (.open_ path true mode) env.create
  if ¬fd ∧ w.errno = enoent then
    let (made, w) := mkdirs env path w
    if made then
      let (fd, w) := w.call (.open_ path true mode) env.recreate
      (some fd, w)
    else
      let (sent, w) := w.failErrno env
      (if sent then some false else none, w)
  else (some fd, w)

/-- An existing file is opened without `O_EXCL`. -/
def openExisting (path : List UInt8) (mode : Nat) (fd : Bool) (w : Sync) : Bool × Sync :=
  if ¬fd ∧ w.errno = eexist then w.call (.open_ path false mode) env.reopen else (fd, w)

/-- The file gets its owner, or the client learns that there is no file. -/
def setOwner (uid gid mode : Nat) (fd : Bool) (w : Sync) : Option Bool × Sync :=
  if fd then
    let (owned, w) := w.call (.fchown uid gid) env.fchown
    let w := if owned then w else { (w.failErrno env).2 with errno := 0 }
    (some true, w.calls_ [.fchmod mode])
  else
    let (sent, w) := w.failErrno env
    (if sent then some false else none, w)

/-- The label `fail` -/
def abandon (path : List UInt8) (doUnlink fd : Bool) (w : Sync) : Sync :=
  w.calls_ ((if fd then [.close] else []) ++ if doUnlink then [.unlink path] else [])

/-- A data message is written to the file. A file that cannot be written is closed and the client
told. -/
def writeChunk (path : List UInt8) (doUnlink : Bool) (i : Nat) (fd : Bool)
    (data : List UInt8) (w : Sync) : Option Bool × Sync :=
  if ¬fd then (some false, w)
  else
    -- nothing is written for an empty message
    let (written, w) := if data = [] then (true, w) else w.call (.write data) (env.write i)
    if written then (some true, w)
    else
      let (sent, w) := (abandon path doUnlink true w).failErrno env
      (if sent then some false else none, w)

/-- The loop of `handle_send_file`. It ends with `ID_DONE`, and gives whether the file is still open
and the time, or the function returns. -/
def receiveData (path : List UInt8) (doUnlink : Bool) :
    Nat → Nat → Bool → Sync → Option (Bool × Nat) × Sync
  | 0, _, _, w => (none, w)
  | fuel + 1, i, fd, w =>
    match w.readHeader with
    | (none, w) => (none, abandon path doUnlink fd w)
    | (some (.done, size), w) => (some (fd, size), w)
    | (some (.data, len), w) =>
      if len > syncDataMax then
        (none, abandon path doUnlink fd (w.failMessage env "oversize data message").2)
      else
        match w.readFdExactly len with
        | (none, w) => (none, abandon path doUnlink fd w)
        | (some data, w) =>
          let w := { w with buffer := data ++ w.buffer.drop len }
          match writeChunk env path doUnlink i fd data w with
          | (none, w) => (none, w)
          | (some fd, w) => receiveData path doUnlink fuel (i + 1) fd w
    | (some _, w) =>
      (none, abandon path doUnlink fd (w.failMessage env "invalid data message").2)

/-- The end of `handle_send_file` -/
def finishFile (path : List UInt8) (fd : Bool) (time : Nat) (w : Sync) : Bool × Sync :=
  if fd then (w.calls_ [.close, .restorecon path, .utime path time]).reply env .okay
  else (true, w)

/-- `handle_send_file`; `true` stands for the result 0. -/
def handleSendFile (path : List UInt8) (uid gid mode : Nat) (doUnlink : Bool)
    (w : Sync) : Bool × Sync :=
  match createFile env path mode w with
  | (none, w) => (false, w)
  | (some fd, w) =>
    let (fd, w) := openExisting env path mode fd w
    match setOwner env uid gid mode fd w with
    | (none, w) => (false, w)
    | (some fd, w) =>
      match receiveData env path doUnlink (w.input.length + 1) 0 fd w with
      | (none, w) => (false, w)
      | (some (fd, time), w) => finishFile env path fd time w

end

/-! ## Receiving a link -/

/-- The C string in a buffer. -/
def cString (buffer : List UInt8) : List UInt8 := buffer.takeWhile (· ≠ 0)

/-- The second `symlink` of `handle_send_link`, after the directories are made -/
def retryLink (env : SyncEnv) (path : List UInt8) (w : Sync) : Bool × Sync :=
  let (made, w) := mkdirs env path w
  if ¬made then (false, (w.failErrno env).2)
  else
    let (linked, w) := w.call (.symlink (cString w.buffer) path) env.resymlink
    if linked then (true, w) else (false, (w.failErrno env).2)

/-- The calls of `handle_send_link`; the link is made or the client told. -/
def makeLink (env : SyncEnv) (path : List UInt8) (w : Sync) : Bool × Sync :=
  let (linked, w) := w.call (.symlink (cString w.buffer) path) env.symlink
  if linked then (true, w)
  else if w.errno = enoent then retryLink env path w
  else (false, (w.failErrno env).2)

/-- The end of `handle_send_link`: `ID_DONE` must follow. -/
def finishLink (env : SyncEnv) (w : Sync) : Bool × Sync :=
  match w.readHeader with
  | (none, w) => (false, w)
  | (some (.done, _), w) => w.reply env .okay
  | (some _, w) => (false, (w.failMessage env "invalid data message: expected ID_DONE").2)

def handleSendLink (env : SyncEnv) (path : List UInt8) (w : Sync) : Bool × Sync :=
  match w.readHeader with
  | (none, w) => (false, w)
  | (some (.data, len), w) =>
    if len > syncDataMax then (false, (w.failMessage env "oversize data message").2)
    else
      match w.readFdExactly len with
      | (none, w) => (false, w)
      | (some data, w) =>
        match makeLink env path { w with buffer := data ++ w.buffer.drop len } with
        | (false, w) => (false, w)
        | (true, w) => finishLink env w
  | (some _, w) => (false, (w.failMessage env "invalid data message: expected ID_DATA").2)

/-! ## Requests -/

/-- `strrchr(path, ',')`: the text before and after the last comma. -/
def splitAtLastComma (s : List UInt8) : Option (List UInt8 × List UInt8) :=
  let after := (s.reverse.takeWhile (· ≠ 44)).reverse
  if after.length = s.length then none else some (s.take (s.length - after.length - 1), after)

/-- `S_IFMT` of a mode -/
def fileFormat (mode : Nat) : Nat := mode &&& 0o170000

/-- `S_ISLNK` -/
def isLink (mode : Nat) : Bool := fileFormat mode = 0o120000

/-- `S_ISREG` -/
def isRegular (mode : Nat) : Bool := fileFormat mode = 0o100000

/-- What `do_send` takes from the name of a request: the path, the mode, and whether it is a link
and whether to unlink an old file. -/
structure SendTarget where
  path : List UInt8
  mode : Nat
  link : Bool
  doUnlink : Bool
  /-- an old file is unlinked now -/
  unlinkNow : Bool

section

variable (env : SyncEnv)

/-- The first part of `do_send` -/
def sendTarget (name : List UInt8) : SendTarget :=
  match splitAtLastComma name with
  | none => ⟨name, 0o644, false, true, false⟩
  | some (path, text) =>
    let (mode, errno) := env.strtoul text
    if errno ≠ 0 then ⟨path, 0o644, false, true, false⟩
    else
      -- files that are not regular are not deleted before copying
      let doUnlink := env.lstat.all fun s => isRegular s.mode || isLink s.mode
      ⟨path, mode &&& 0o777, isLink (mode % 2 ^ 32), doUnlink, doUnlink⟩

/-- User permission bits are copied to the group and to the others. -/
def spreadMode (mode : Nat) : Nat :=
  let mode := mode ||| ((mode >>> 3) &&& 0o070)
  mode ||| ((mode >>> 3) &&& 0o007)

/-- The owner and the mode of a file that is sent. -/
def sendOwner (x : SendTarget) : Nat × Nat × Nat :=
  if shouldUseFsConfig x.path then
    env.fsConfig (if x.path.head? = some 47 then x.path.tail else x.path) false
  else (2 ^ 32 - 1, 2 ^ 32 - 1, spreadMode x.mode)

/-- `do_send` after the name is taken apart -/
def receiveTarget (x : SendTarget) (w : Sync) : Bool × Sync :=
  if x.link then handleSendLink env x.path w
  else
    handleSendFile env x.path (sendOwner env x).1 (sendOwner env x).2.1 (sendOwner env x).2.2
      x.doUnlink w

def doSend (name : List UInt8) (w : Sync) : Bool × Sync :=
  let x := sendTarget env name
  receiveTarget env x (w.calls_ (if x.unlinkNow then [.unlink x.path] else []))

def doStat (w : Sync) : Bool × Sync :=
  w.reply env (.stat (env.lstat.getD ⟨0, 0, 0⟩))

end

section

variable (env : SyncEnv)

/-- The loop of `do_list`: entries that `lstat` cannot find and names too long are passed over. -/
def listLoop : List (List UInt8 × Option FileStat) → Sync → Bool × Sync
  | [], w => w.reply env .dentDone
  | (name, stat) :: entries, w =>
    if name.length > 256 then listLoop entries w
    else
      match stat with
      | none => listLoop entries w
      | some s =>
        match w.reply env (.dent s name) with
        | (false, w) => (false, w)
        | (true, w) => listLoop entries w

def doList (w : Sync) : Bool × Sync := listLoop env (env.entries.getD []) w

/-- The loop of `do_recv` -/
def recvLoop : List FileRead → Sync → Bool × Sync
  | [], w => (w.calls_ [.close]).reply env .dataDone
  | .interrupted :: reads, w => recvLoop reads w
  | .failed e :: _, w =>
    let (sent, w) := { w with errno := e }.failErrno env
    (sent, w.calls_ [.close])
  | .bytes data :: reads, w =>
    match w.reply env (.data data) with
    | (false, w) => (false, w.calls_ [.close])
    | (true, w) => recvLoop reads w

def doRecv (path : List UInt8) (w : Sync) : Bool × Sync :=
  let (fd, w) := w.call (.openRead path) env.openRead
  if fd then recvLoop env env.reads w else w.failErrno env

/-- The `switch` of `file_sync_service` -/
def serveRequest (id : SyncId) (name : List UInt8) (w : Sync) : Bool × Sync :=
  match id with
  | .stat => doStat env w
  | .list => doList env w
  | .send => doSend env name w
  | .recv => doRecv env name w
  | .quit => (false, w)
  | _ => (false, (w.failMessage env "unknown command").2)

/-- One round of the loop of `file_sync_service`; `true` if another follows. -/
def serve (w : Sync) : Bool × Sync :=
  match w.readHeader with
  | (none, w) => (false, (w.failMessage env "command read failure").2)
  | (some (id, namelen), w) =>
    if namelen > 1024 then (false, (w.failMessage env "invalid namelen").2)
    else
      match w.readFdExactly namelen with
      | (none, w) => (false, (w.failMessage env "filename read failure").2)
      | (some name, w) => serveRequest env id (cString name) w

end

end AndroidSystem.Adb
