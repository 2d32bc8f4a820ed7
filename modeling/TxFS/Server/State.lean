import TxFS.Server.LockTable

/-!
# State of the Server

The global variables of the server together with what the pthread library keeps for it:
where each transaction's handler thread stands. A transaction runs on one thread, so the
threads are named by transaction ids; the thread of the backup is thread 0.

The YAFFS handle table is the array `yaffsfs_handle`: an entry is free or names the
transaction whose `on_open` obtained the handle.
-/

namespace TxFS

open LinkedPath

/-! ## Calls, log and file system actions -/

/-- The namespace calls that are logged and replayed at commit, with the strings the log
    record keeps in `data` and `data1`. -/
inductive NsCall where
  | rename (oldpath newpath : String)
  | creat (path mode : String)
  | unlink (path : String)
deriving DecidableEq, Repr

namespace NsCall

/-- Field `data` of the log record. -/
def data : NsCall → String
  | rename oldpath _ => oldpath
  | creat path _ => path
  | unlink path => path

/-- Field `data1` of the log record. -/
def data1 : NsCall → String
  | rename _ newpath => newpath
  | creat _ mode => mode
  | unlink _ => "NA\n"

/-- Bytes of the log record: nine fixed fields and two strings with their final NUL. -/
def recordLength (c : NsCall) : Int :=
  60 + (c.data.utf8ByteSize + 1) + (c.data1.utf8ByteSize + 1)

end NsCall

/-- A namespace record of the event log. -/
structure LoggedCall where
  LRN : Int
  txnId : Int
  call : NsCall
deriving DecidableEq, Repr

/-- What a release does to the two file systems, in order. -/
inductive Act where
  /-- `rename` of `delayed_rename`. -/
  | rename (LRN : Int) (oldpath newpath : String)
  /-- `tr_sync_file_to_disk` of `delayed_creat`. -/
  | sync (LRN : Int) (path : String)
  /-- `unlink` of `delayed_unlink`. -/
  | unlink (LRN : Int) (path : String)
  /-- `write` of `delayed_write`. -/
  | write (LRN : Int)
  /-- `tr_yaffs_close`. -/
  | close (fd : Int)
  /-- `tr_yaffs_close_abort`. -/
  | closeAbort (fd : Int)
deriving DecidableEq, Repr

/-! ## Lock requests and threads -/

/-- What the caller of `insert_file_list` does with the record it gets. -/
inductive LockUse where
  /-- `on_open`: open the file through YAFFS (`found`: the file can be opened) and keep the handle. -/
  | open (found : Bool)
  /-- `on_stat`, `on_creat`, `on_unlink`, `lock_subtree` and the moved file of `on_rename`. -/
  | placeholder
  /-- The parent directories of `on_rename`. -/
  | renameParent
  /-- `on_stat` when the second `stat` fails. -/
  | keep
  /-- `online_bck`: the descriptor of the host file, none for a directory. -/
  | host (fd : Option Int)
deriving DecidableEq, Repr

/-- The arguments of a lock request. -/
structure LockRequest where
  inode : Int
  flags : Int
  use : LockUse
deriving DecidableEq, Repr

/-- A request that has to be repeated, with the location its first search found. -/
structure Pending where
  req : LockRequest
  loc : Option Addr
deriving DecidableEq, Repr

/-- Where the thread of a transaction stands between two critical sections. -/
inductive ThreadState where
  /-- Not inside a lock request. -/
  | running
  /-- In `pthread_cond_wait` on `f_lock` of a node; `woken` after a broadcast. -/
  | parked (p : Pending) (node : Nat) (woken : Bool)
  /-- About to call `resume`. -/
  | resuming (p : Pending)
  /-- The deadlock victim between its two critical sections. -/
  | victim (node : Nat)
  /-- Inside `on_txn_abort`. -/
  | aborting
deriving DecidableEq, Repr

/-! ## The state -/

structure Server where
  table : LockTable
  headTxnList : List TxnNode
  headWaitList : List WaitNode
  /-- The next address for a wait node. -/
  nodeBrk : Nat
  thread : Int → ThreadState
  backup : BckState
  pauseArray : Nat → PauseNode
  indexPauseArray : Nat
  handles : List (Option Int)
  eventLog : List LoggedCall
  /-- Length of the log file, the next LRN. -/
  logEnd : Int

namespace Server

/-- The state after `global_init` with `handles` free YAFFS handles. -/
def globalInit (handles : Nat) : Server where
  table :=
    { cells := fun _ => getFileNode 0 0 0 0, allocated := [], brk := 0, headLockList := none }
  headTxnList := []
  headWaitList := []
  nodeBrk := 0
  thread := fun _ => .running
  backup := .inactive
  pauseArray := fun _ => ⟨0, 0⟩
  indexPauseArray := 0
  handles := List.replicate handles none
  eventLog := []
  logEnd := 0

def cell (s : Server) (a : Addr) : FileLock := s.table.cells a

def modifyCell (s : Server) (a : Addr) (f : FileLock → FileLock) : Server :=
  { s with table := s.table.modify a f }

def modifyTxn (s : Server) (txnid : Int) (f : TxnNode → TxnNode) : Server :=
  { s with headTxnList := updateTxn txnid f s.headTxnList }

def setFileRecNo (s : Server) (txnid : Int) (start : Option Addr) : Server :=
  { s with headTxnList := TxFS.setFileRecNo txnid start s.headTxnList }

def setThread (s : Server) (txnid : Int) (st : ThreadState) : Server :=
  { s with thread := Function.update s.thread txnid st }

end Server

end TxFS
