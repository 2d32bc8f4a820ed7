import TxFS.Wire.Text

/-!
# The Handler Loop

`handler` of `Reader.c`: the loop that reads a system call and its arguments from the
connection, acknowledges every message, performs the operation and writes the reply. What
the operation returns is a parameter; the handler only sends it on.

The messages of one connection share the array `incall`, the argument count `no_of_arg`
and the reply buffer `str`, and all three survive from request to request.
-/

namespace TxFS

/-! ## System calls -/

/-- The names that `handler` and `call_execute` compare with. -/
inductive Command where
  | txnBeg
  | open
  | txnCommit
  | txnAbort
  | quit
  | write
  | lseek
  | read
  | rename
  | creat
  | unlink
  | stat
  | bckBeg
  | inodeStat
deriving DecidableEq, Repr

namespace Command

def name : Command → String
  | .txnBeg => "txn_beg"
  | .open => "open"
  | .txnCommit => "txn_commit"
  | .txnAbort => "txn_abort"
  | .quit => "quit"
  | .write => "write"
  | .lseek => "lseek"
  | .read => "read"
  | .rename => "rename"
  | .creat => "creat"
  | .unlink => "unlink"
  | .stat => "stat"
  | .bckBeg => "bck_beg"
  | .inodeStat => "inode_stat"

def all : List Command :=
  [.txnBeg, .open, .txnCommit, .txnAbort, .quit, .write, .lseek, .read, .rename, .creat,
    .unlink, .stat, .bckBeg, .inodeStat]

/-- The tests `strcmp(incall[0], ...) == 0`. -/
def ofName (s : Msg) : Option Command := all.find? fun c => c.name.toList = s

/-- `no_of_arg` in `handler`, with the name of the call. -/
def noOfArg : Command → Nat
  | .txnBeg | .txnCommit | .txnAbort | .quit => 1
  | .unlink | .stat | .inodeStat => 2
  | .open | .rename | .creat | .bckBeg => 3
  | .write | .lseek | .read => 4

/-- The elements of `incall` that the branch of a call and its operation use. -/
def uses : Command → List Nat
  | .txnBeg | .unlink | .stat | .inodeStat => [1]
  | .open | .rename | .creat | .bckBeg => [1, 2]
  | .write | .lseek => [1, 2, 3]
  | .read => [1, 3]
  | .txnCommit | .txnAbort | .quit => []

/-- Every name is recognized as itself. -/
@[simp] theorem ofName_name (c : Command) : ofName c.name.toList = some c := by
  cases c <;> decide

theorem ofName_eq_some {s : Msg} {c : Command} (h : ofName s = some c) : s = c.name.toList := by
  have hname := List.find?_some h
  exact (of_decide_eq_true hname).symm

theorem name_ne_nil (c : Command) : c.name.toList ≠ [] := by
  cases c <;> decide

theorem no_nul_name (c : Command) : '\x00' ∉ c.name.toList := by
  cases c <;> decide

end Command

/-! ## The handler -/

/-- `MAX_BUFFER_SIZE` of both sides. -/
def maxBufferSize : Nat := 10250

/-- `SIZE_STR`. -/
def sizeStr : Nat := 12

/-- What an operation gives to the handler. -/
structure OpResult where
  /-- The value of `on_open`, `on_read` and so on. -/
  ret : Int
  /-- What `on_read` has put into `read_buf`. -/
  data : Msg
  /-- What an element of `incall` points to that no message of this call was read into. -/
  stale : Msg
deriving DecidableEq, Repr

/-- Where the handler waits in `read`. -/
inductive HandlerPhase where
  /-- For the name of the next call. -/
  | command
  /-- For an argument. -/
  | argument
  /-- For the acknowledgement of the data of a `read`. -/
  | ack (bytesRead : Int) (data : Msg)
  /-- After `quit`. -/
  | closed
deriving DecidableEq, Repr

/-- A reply as it was sent: the call, what its operation returned and the bytes of `str`. -/
structure Reply where
  incall : List Msg
  ret : Int
  data : Msg
  str : Msg
deriving DecidableEq, Repr

structure Handler where
  phase : HandlerPhase
  noOfArg : Nat
  /-- The elements of `incall` that were received for the present call. -/
  incall : List Msg
  str : Msg
  txnid : Int
  /-- The calls whose branch was executed, oldest first. -/
  requests : List (List Msg)
  /-- The replies to them. -/
  replies : List Reply
deriving DecidableEq, Repr

namespace Handler

/-- A new connection; `str` is not initialized. -/
def start (str : Msg) : Handler where
  phase := .command
  noOfArg := 0
  incall := []
  str := str
  txnid := 0
  requests := []
  replies := []

/-- `snprintf(str, sizeof(str), "%d", v)`. -/
def format (h : Handler) (v : Int) : Handler :=
  { h with str := Msg.snprintf sizeStr h.str (Msg.ofInt v) }

/-- `write(client_sockfd, str, sizeof(str))`. -/
def reply (h : Handler) (ret : Int) (data : Msg) : Handler × List Msg :=
  ({ h with replies := h.replies ++ [⟨h.incall, ret, data, h.str⟩] }, [h.str])

/-- The first message of a `read`: the data. A read that is not allowed sends the empty
    string. -/
def sendData (h : Handler) (res : OpResult) : Handler × List Msg :=
  if res.ret = -1 then ({ h with phase := .ack (-1) [] }, [])
  else ({ h with phase := .ack res.ret res.data }, [res.data])

/-- The branch of a call: the next state and the messages written. -/
def branch (h : Handler) (cmd : Command) (res : OpResult) : Handler × List Msg :=
  match cmd with
  | .txnBeg =>
    -- the name is the only message that was received for this call
    let arg := (h.incall[1]?).getD res.stale
    { h with str := Msg.strcpy h.str arg, txnid := Msg.atoi arg }.reply res.ret []
  | .open | .rename | .creat | .unlink | .stat | .inodeStat | .lseek =>
    (h.format res.ret).reply res.ret []
  | .txnCommit | .txnAbort => (h.format h.txnid).reply res.ret []
  | .quit => ({ h with phase := .closed }.format h.txnid).reply res.ret []
  | .write => h.reply res.ret []
  | .read => h.sendData res
  | .bckBeg => { h with str := Msg.strcpy h.str "Backup done".toList }.reply res.ret []

/-- The tests of `incall[0]` behind the last argument; no branch is for another name. -/
def serve (h : Handler) (res : OpResult) : Handler × List Msg :=
  let h := { h with phase := .command, requests := h.requests ++ [h.incall] }
  match h.incall.head?.bind Command.ofName with
  | none => (h, [])
  | some cmd => h.branch cmd res

/-- The acknowledgement of a message; the last one is followed by the operation. -/
def received (h : Handler) (res : OpResult) : Handler × List Msg :=
  if h.incall.length < h.noOfArg then ({ h with phase := .argument }, ["Received".toList])
  else ((h.serve res).1, "Received".toList :: (h.serve res).2)

/-- One `read` of the handler, up to the next one. -/
def read (h : Handler) (buffer : Msg) (res : OpResult) : Handler × List Msg :=
  match h.phase with
  | .command =>
    let name := Msg.text buffer
    -- an unknown name leaves `no_of_arg` as the last call set it
    let noOfArg := ((Command.ofName name).map Command.noOfArg).getD h.noOfArg
    { h with incall := [name], noOfArg := noOfArg }.received res
  | .argument => { h with incall := h.incall ++ [Msg.text buffer] }.received res
  | .ack bytesRead data => ({ h with phase := .command }.format bytesRead).reply bytesRead data
  | .closed => (h, [])

/-- The handler after the messages of `inputs`, each read on its own. -/
def readAll (h : Handler) (inputs : List (Msg × OpResult)) : Handler :=
  inputs.foldl (fun h x => (h.read x.1 x.2).1) h

end Handler

end TxFS
