import TxFS.Lib.LockOrder

/-!
# The Mutexes of the Server

What each function of the server does with the mutexes, in order, with the functions it calls
written out. What decides between the branches is a parameter: where a lock request ends
(`InsertPath`), and whether the `fwrite` of the link in the previous log record succeeds. When
it fails, the log functions return with `log_mutex` locked.

`error` only prints its message, so a function goes on behind it. The functions of YAFFS
lock none of these mutexes, and `on_read`, `on_lseek` and `on_inode_stat` lock none at all.
-/

namespace TxFS

open LockOrder

inductive Mutex where
  /-- `file_mutex`. -/
  | file
  /-- `txn_mutex`. -/
  | txn
  /-- `log_mutex`. -/
  | log
  /-- `pause_mutex`. -/
  | pause
  /-- `wake_mutex` of a wait node. -/
  | wake (node : Nat)
deriving DecidableEq, Repr

namespace Locking

abbrev Ops := List (MutexOp Mutex)

/-- A critical section in which no other mutex is locked. -/
def briefly (m : Mutex) : Ops := [.lock m, .unlock m]

/-! ## Transactions and the log -/

/-- `new_txn_insert`. -/
def newTxnInsert : Ops := briefly .txn

/-- `txn_delete`. -/
def txnDelete : Ops := briefly .txn

/-- `get_prev_log_LRN`. -/
def getPrevLogLRN : Ops := briefly .txn

/-- `update_txn`. -/
def updateTxn : Ops := briefly .txn

/-- `log_txn_beg`: there is no previous record. -/
def logTxnBeg : Ops := briefly .log

/-- The first record of the end of a transaction. -/
def logOutcome (written : Bool) : Ops :=
  .lock .log :: getPrevLogLRN ++ if written then updateTxn ++ [.unlock .log] else []

/-- `log_txn_commit`. -/
def logTxnCommit : Bool → Ops := logOutcome

/-- `log_txn_abort`. -/
def logTxnAbort : Bool → Ops := logOutcome

/-- `log_txn_end`: the node of the transaction is gone. -/
def logTxnEnd (written : Bool) : Ops := .lock .log :: if written then [.unlock .log] else []

/-- The record of a namespace call. -/
def logCall (written : Bool) : Ops :=
  getPrevLogLRN ++ .lock .log :: if written then updateTxn ++ [.unlock .log] else []

/-- `log_rename`. -/
def logRename : Bool → Ops := logCall

/-- `log_creat`. -/
def logCreat : Bool → Ops := logCall

/-- `log_unlink`. -/
def logUnlink : Bool → Ops := logCall

/-! ## Releases -/

/-- The node of the transaction is looked up, then its records are released. -/
def releaseLocks : Ops := briefly .txn ++ briefly .file

/-- `release_locks_on_success`. -/
def releaseLocksOnSuccess : Ops := releaseLocks

/-- `release_locks_on_abort`. -/
def releaseLocksOnAbort : Ops := releaseLocks

/-- `release_locks_by_backup`. -/
def releaseLocksByBackup : Ops := releaseLocks

/-- Whether the links to the two records of the end of a transaction are written. -/
structure Writes where
  outcome : Bool
  last : Bool
deriving DecidableEq, Repr

def Writes.written (w : Writes) : Bool := w.outcome && w.last

/-- `on_txn_commit`. -/
def onTxnCommit (w : Writes) : Ops :=
  logTxnCommit w.outcome ++ releaseLocksOnSuccess ++ getPrevLogLRN ++ txnDelete ++ logTxnEnd w.last

/-- `on_txn_abort`. -/
def onTxnAbort (w : Writes) : Ops :=
  logTxnAbort w.outcome ++ releaseLocksOnAbort ++ getPrevLogLRN ++ txnDelete ++ logTxnEnd w.last

/-! ## Lock requests -/

/-- `mutually_serializable` up to the search for the node. -/
def mutuallySerializable : Ops := briefly .txn

/-- `insert_same_txn_list`. -/
def insertSameTxnList : Ops := briefly .txn

/-- What a deadlock victim does between its wait and `on_txn_abort`. -/
inductive VictimPath where
  /-- It is the last one that has woken up. -/
  | last
  /-- It waits for the others, if they have not all woken up meanwhile. -/
  | waits (sleeps : Bool)
deriving DecidableEq, Repr

/-- The ways through `insert_file_list`, which is called with `file_mutex`. -/
inductive InsertPath where
  /-- The transaction has locked the file before. -/
  | held
  /-- The file is locked, with or without a serializability check. -/
  | granted (checked : Bool)
  /-- The transaction is not serializable with the backup and is aborted. -/
  | refused (w : Writes)
  /-- It is aborted after too many pauses. -/
  | pausedOut (w : Writes)
  /-- It pauses and comes to `resume`. -/
  | paused (next : InsertPath)
  /-- It waits, is woken for other victims some times, and comes to `resume`. -/
  | waited (node : Nat) (others : Nat) (next : InsertPath)
  /-- It waits, is woken for other victims some times, and is a victim itself. -/
  | victim (node : Nat) (others : Nat) (path : VictimPath) (w : Writes)
deriving DecidableEq, Repr

namespace InsertPath

/-- A record is returned, and `file_mutex` is locked; otherwise it is `NULL`, and it is not. -/
def locked : InsertPath → Bool
  | held | granted _ => true
  | refused _ | pausedOut _ | victim .. => false
  | paused next | waited _ _ next => next.locked

/-- The links to the log records on the way are written. -/
def written : InsertPath → Bool
  | held | granted _ => true
  | refused w | pausedOut w | victim _ _ _ w => w.written
  | paused next | waited _ _ next => next.written

end InsertPath

/-- `insert_wait_list` and `update_wait_list` up to the end of the loop in which the thread
    goes back to sleep for other victims. -/
def waitOnNode (node others : Nat) : Ops :=
  condWait .file ++ (List.replicate others (briefly (.wake node) ++ condWait .file)).flatten

/-- The rest of `insert_wait_list` and `update_wait_list` in a victim. -/
def leaveAsVictim (node : Nat) : VictimPath → Ops
  | .last => [.unlock .file]
  | .waits sleeps =>
    .unlock .file :: .lock (.wake node) :: (if sleeps then condWait (.wake node) else []) ++
      [.unlock (.wake node), .lock .file, .unlock .file]

/-- `insert_file_list`. -/
def insertFileList : InsertPath → Ops
  | .held => briefly .txn
  | .granted checked =>
    briefly .txn ++ (if checked then mutuallySerializable else []) ++ insertSameTxnList
  | .refused w => briefly .txn ++ mutuallySerializable ++ [.unlock .file] ++ onTxnAbort w
  | .pausedOut w =>
    briefly .txn ++ mutuallySerializable ++ [.unlock .file] ++ briefly .pause ++ onTxnAbort w
  | .paused next =>
    briefly .txn ++ mutuallySerializable ++ [.unlock .file] ++ briefly .pause ++
      .lock .file :: insertFileList next
  | .waited node others next =>
    briefly .txn ++ waitOnNode node others ++ [.unlock .file] ++ .lock .file :: insertFileList next
  | .victim node others path w =>
    briefly .txn ++ waitOnNode node others ++ leaveAsVictim node path ++ onTxnAbort w

/-- Lock requests one after the other, up to the first one that returns `NULL`. -/
def insertAll : List InsertPath → Ops
  | [] => []
  | p :: ps => insertFileList p ++ if p.locked then insertAll ps else []

/-- The calls of the clients lock their files in one critical section; `rest` is what they do
    behind it when they have got all locks. -/
def lockFiles (ps : List InsertPath) (rest : Ops) : Ops :=
  .lock .file :: insertAll ps ++ if ps.all InsertPath.locked then .unlock .file :: rest else []

/-! ## Calls -/

inductive Call where
  /-- `on_txn_beg`. -/
  | txnBeg
  /-- `on_open`; the transaction is aborted if the file cannot be opened. -/
  | open (p : InsertPath) (failed : Option Writes)
  /-- `on_stat`. -/
  | stat (p : InsertPath)
  /-- `on_rename` with the locks of the parents, the file and, for a directory, its subtree. -/
  | rename (old : InsertPath) (new : Option InsertPath) (mov : InsertPath)
      (subtree : List InsertPath) (written : Bool)
  /-- `on_stat` and `on_rename` of a path that does not exist. -/
  | missing (w : Writes)
  /-- `on_creat`. -/
  | creat (p : InsertPath) (written : Bool)
  /-- `on_unlink`. -/
  | unlink (parent child : InsertPath) (written : Bool)
  /-- `on_write`. -/
  | write
  /-- `on_txn_commit`. -/
  | txnCommit (w : Writes)
  /-- `on_txn_abort`. -/
  | txnAbort (w : Writes)
  /-- `on_bck_beg` with the locks of `online_bck`. -/
  | bckBeg (ps : List InsertPath) (written : Bool)
  /-- One round of `deadlock_detection`. -/
  | detection (victim : Bool)
deriving DecidableEq, Repr

/-- `write_possible`. -/
def writePossible : Ops := briefly .file

/-- `lock_file` and `lock_directory`: the mutex is unlocked in any case. -/
def lockFile (p : InsertPath) : Ops := .lock .file :: insertFileList p ++ [.unlock .file]

/-- `online_bck`: every file is locked and released before the next one. -/
def onlineBck (ps : List InsertPath) : Ops :=
  (ps.map fun p => lockFile p ++ releaseLocksByBackup).flatten

/-- `construct_wait_for_graph`. -/
def constructWaitForGraph : Ops := briefly .file

/-- `deadlock_detection`. -/
def deadlockDetection (victim : Bool) : Ops :=
  .lock .txn :: constructWaitForGraph ++ .unlock .txn :: if victim then briefly .file else []

def Call.ops : Call → Ops
  | txnBeg => logTxnBeg ++ newTxnInsert
  | .open p failed => lockFiles [p] (failed.elim [] onTxnAbort)
  | stat p => lockFiles [p] []
  | rename old new mov subtree written =>
    lockFiles (old :: new.toList ++ mov :: subtree) (logRename written)
  | missing w => onTxnAbort w
  | creat p written => lockFiles [p] (logCreat written)
  | unlink parent child written => lockFiles [parent, child] (logUnlink written)
  | write => writePossible
  | txnCommit w => onTxnCommit w
  | txnAbort w => onTxnAbort w
  | bckBeg ps written =>
    logTxnBeg ++ newTxnInsert ++ onlineBck ps ++ getPrevLogLRN ++ txnDelete ++ logTxnEnd written
  | detection victim => deadlockDetection victim

/-- The links to all log records of the call are written. -/
def Call.written : Call → Bool
  | txnBeg | write | detection _ => true
  | .open p failed => p.written && failed.all Writes.written
  | stat p => p.written
  | rename old new mov subtree written =>
    (old :: new.toList ++ mov :: subtree).all InsertPath.written && written
  | missing w | txnCommit w | txnAbort w => w.written
  | creat p written => p.written && written
  | unlink parent child written => parent.written && child.written && written
  | bckBeg ps written => ps.all InsertPath.written && written

/-! ## Threads -/

inductive Thread where
  /-- `handler` of a connection. -/
  | handler (connection : Nat)
  /-- `deadlock_detection`. -/
  | detector
deriving DecidableEq, Repr

/-- The clients' calls, the backup among them, run in handlers. -/
def callOps : Thread → Call → Option Ops
  | .detector, .detection victim => some (Call.detection victim).ops
  | .handler _, .detection _ => none
  | .handler _, c => some c.ops
  | .detector, _ => none

abbrev ServerThreads := Threads Thread Mutex

end Locking

end TxFS
