import TxFS.Lib.GuardedRun
import TxFS.Server.Header

/-!
# Sessions

Every connection has a handler thread that serves one request after the other under the id
of its last `txn_beg`. The machine of this file follows the transaction list through these
sessions: a request is the sequence of the functions that go through `head_txn_list`, each
of which holds `txn_mutex` meanwhile, and the handlers take turns in any order.

Whether a lock request is granted, waits, pauses or ends its transaction depends on the lock
table; here every outcome is possible (`LockPath`). The functions also read and assign the
other fields of the node they find, which no search looks at.
-/

namespace TxFS

namespace Sessions

/-! ## Functions on the transaction list -/

/-- The functions that go through `head_txn_list`. -/
inductive ListFn where
  | newTxnInsert (logRecNo : Int)
  | insertFileList
  | insertSameTxnList
  | mutuallySerializable
  | releaseLocksOnSuccess
  | releaseLocksOnAbort
  | releaseLocksByBackup
  | getPrevLogLRN
  | updateTxn
  | txnDelete
  /-- `online_bck` assigns to a field of the record `NULL`. -/
  | nullRecord
deriving DecidableEq, Repr

namespace ListFn

/-- `ptr = head_txn_list; while (ptr->txn_id != txnid) ptr = ptr->next;`. -/
def searches : ListFn → Bool
  | newTxnInsert _ => false
  | nullRecord => false
  | _ => true

end ListFn

/-- A call of one of them. -/
structure ListOp where
  fn : ListFn
  txnid : Int
deriving DecidableEq, Repr

namespace ListOp

/-- The list after the call; `none` is a crash. -/
def run (op : ListOp) (ns : List TxnNode) : Option (List TxnNode) :=
  match op.fn with
  | .newTxnInsert logRecNo => some (newTxnInsert op.txnid logRecNo ns)
  | .txnDelete => TxFS.txnDelete op.txnid ns
  | .nullRecord => none
  -- the search is all that the other functions do with the list
  | _ => (searchTxn op.txnid ns).map fun _ => ns

end ListOp

/-! ## Requests -/

/-- `on_txn_commit`. -/
def onTxnCommit (txnid : Int) : List ListOp :=
  -- log_txn_commit
  [⟨.getPrevLogLRN, txnid⟩, ⟨.updateTxn, txnid⟩,
   ⟨.releaseLocksOnSuccess, txnid⟩, ⟨.getPrevLogLRN, txnid⟩, ⟨.txnDelete, txnid⟩]

/-- `on_txn_abort`. -/
def onTxnAbort (txnid : Int) : List ListOp :=
  -- log_txn_abort
  [⟨.getPrevLogLRN, txnid⟩, ⟨.updateTxn, txnid⟩,
   ⟨.releaseLocksOnAbort, txnid⟩, ⟨.getPrevLogLRN, txnid⟩, ⟨.txnDelete, txnid⟩]

/-- How a call of `insert_file_list` goes on. -/
inductive LockPath where
  /-- The transaction has the record already. -/
  | held
  /-- Granted without a look at the backup. -/
  | granted
  /-- Granted after `mutually_serializable`. -/
  | checked
  /-- Aborted as a deadlock victim. -/
  | victim
  /-- Aborted by `mutually_serializable`. -/
  | conflict
  /-- Waits, is woken up and calls `resume`. -/
  | woken (next : LockPath)
  /-- Paused by `mutually_serializable`, then `resume`. -/
  | paused (next : LockPath)
deriving DecidableEq, Repr

namespace LockPath

/-- `insert_file_list` returns `NULL`: the transaction has been aborted. -/
def returnsNull : LockPath → Bool
  | held => false
  | granted => false
  | checked => false
  | victim => true
  | conflict => true
  | woken next => next.returnsNull
  | paused next => next.returnsNull

/-- The serializability check is made for ids other than that of the backup. -/
def possible (txnid : Int) : LockPath → Bool
  | held => true
  | granted => true
  | checked => txnid ≠ 0
  | victim => true
  | conflict => txnid ≠ 0
  | woken next => next.possible txnid
  | paused next => txnid ≠ 0 && next.possible txnid

end LockPath

/-- `insert_file_list`. -/
def insertFileList (txnid : Int) : LockPath → List ListOp
  | .held => [⟨.insertFileList, txnid⟩]
  | .granted => [⟨.insertFileList, txnid⟩, ⟨.insertSameTxnList, txnid⟩]
  | .checked =>
    [⟨.insertFileList, txnid⟩, ⟨.mutuallySerializable, txnid⟩, ⟨.insertSameTxnList, txnid⟩]
  | .victim => ⟨.insertFileList, txnid⟩ :: onTxnAbort txnid
  | .conflict => ⟨.insertFileList, txnid⟩ :: ⟨.mutuallySerializable, txnid⟩ :: onTxnAbort txnid
  | .woken next => ⟨.insertFileList, txnid⟩ :: insertFileList txnid next
  | .paused next =>
    ⟨.insertFileList, txnid⟩ :: ⟨.mutuallySerializable, txnid⟩ :: insertFileList txnid next

/-- Lock requests one after the other; the caller returns at the first `NULL`. -/
def insertAll (txnid : Int) (rest : List ListOp) : List LockPath → List ListOp
  | [] => rest
  | p :: ps => insertFileList txnid p ++ if p.returnsNull then [] else insertAll txnid rest ps

/-- `log_rename`, `log_creat` and `log_unlink`. -/
def logCall (txnid : Int) : List ListOp :=
  [⟨.getPrevLogLRN, txnid⟩, ⟨.updateTxn, txnid⟩]

/-- `on_txn_beg`. -/
def onTxnBeg (txnid logRecNo : Int) : List ListOp :=
  [⟨.newTxnInsert logRecNo, txnid⟩]

/-- `on_open`; `opened`: the file can be opened. -/
def onOpen (txnid : Int) (lock : LockPath) (opened : Bool) : List ListOp :=
  insertAll txnid (if opened then [] else onTxnAbort txnid) [lock]

/-- `on_stat`; `found`: `access` finds the file. -/
def onStat (txnid : Int) (found : Bool) (lock : LockPath) : List ListOp :=
  if found then insertAll txnid [] [lock] else onTxnAbort txnid

/-- `on_rename`: the parents, the file and, below a directory, the tree. -/
def onRename (txnid : Int) (found newParentFound : Bool) (locks : List LockPath) : List ListOp :=
  if found && newParentFound then insertAll txnid (logCall txnid) locks else onTxnAbort txnid

/-- `on_creat`. -/
def onCreat (txnid : Int) (parent : LockPath) : List ListOp :=
  insertAll txnid (logCall txnid) [parent]

/-- `on_unlink`. -/
def onUnlink (txnid : Int) (parent child : LockPath) : List ListOp :=
  insertAll txnid (logCall txnid) [parent, child]

/-- `online_bck` over the paths it locks, then the rest of `on_bck_beg`. Where the lock is
    not granted it goes on with the record `NULL`. -/
def onlineBck : List LockPath → List ListOp
  | [] => [⟨.getPrevLogLRN, 0⟩, ⟨.txnDelete, 0⟩]
  | p :: ps =>
    insertFileList 0 p ++
      if p.returnsNull then [⟨.nullRecord, 0⟩] else ⟨.releaseLocksByBackup, 0⟩ :: onlineBck ps

/-- `on_bck_beg`. -/
def onBckBeg (logRecNo : Int) (paths : List LockPath) : List ListOp :=
  ⟨.newTxnInsert logRecNo, 0⟩ :: onlineBck paths

/-- A request with what it meets. -/
inductive Request where
  | txnBeg (id logRecNo : Int)
  | open (lock : LockPath) (opened : Bool)
  | txnCommit
  | txnAbort
  | quit
  | write
  | lseek
  | read
  | rename (found newParentFound : Bool) (locks : List LockPath)
  | creat (parent : LockPath)
  | unlink (parent child : LockPath)
  | stat (found : Bool) (lock : LockPath)
  | bckBeg (logRecNo : Int) (paths : List LockPath)
  | inodeStat
deriving DecidableEq, Repr

namespace Request

/-- The branches of `handler`. -/
def ops (txnid : Int) : Request → List ListOp
  | txnBeg id logRecNo => onTxnBeg id logRecNo
  | .open lock opened => onOpen txnid lock opened
  | txnCommit => onTxnCommit txnid
  | txnAbort => onTxnAbort txnid
  | rename found newParentFound locks => onRename txnid found newParentFound locks
  | creat parent => onCreat txnid parent
  | unlink parent child => onUnlink txnid parent child
  | stat found lock => onStat txnid found lock
  | bckBeg logRecNo paths => onBckBeg logRecNo paths
  -- on_inode_stat returns in front of its lock request
  | quit | write | lseek | read | inodeStat => []

/-- The lock requests of a request. -/
def locks : Request → List LockPath
  | .open lock _ => [lock]
  | rename _ _ locks => locks
  | creat parent => [parent]
  | unlink parent child => [parent, child]
  | stat _ lock => [lock]
  | _ => []

/-- The outcomes that `insert_file_list` has for the id. -/
def possible (txnid : Int) (r : Request) : Bool :=
  match r with
  | bckBeg _ paths => paths.all (LockPath.possible 0)
  | r => r.locks.all (LockPath.possible txnid)

/-- The request looks the handler's transaction up. -/
def looksUp : Request → Bool
  | .open _ _ => true
  | txnCommit => true
  | txnAbort => true
  | rename _ _ _ => true
  | creat _ => true
  | unlink _ _ => true
  | stat _ _ => true
  | txnBeg _ _ | quit | write | lseek | read | bckBeg _ _ | inodeStat => false

/-- `txnid = atoi(incall[1])`. -/
def newId (txnid : Int) : Request → Int
  | txnBeg id _ => id
  | _ => txnid

end Request

/-! ## The machine -/

/-- The handler of one connection. -/
structure Conn where
  /-- The variable `txnid`. -/
  txnid : Int
  /-- The request being served, or the last one. -/
  current : Option Request
  /-- What is left of it. -/
  work : List ListOp
deriving DecidableEq, Repr

/-- A new handler. -/
def Conn.new : Conn := ⟨0, none, []⟩

end Sessions

structure Sessions where
  headTxnList : List TxnNode
  conns : List Sessions.Conn
deriving DecidableEq, Repr

namespace Sessions

/-- The state after `global_init`. -/
def globalInit : Sessions := ⟨[], []⟩

inductive Event where
  /-- `main` accepts a connection. -/
  | accept
  /-- A handler reads a request. -/
  | request (i : Nat) (r : Request)
  /-- A handler goes on with its request. -/
  | operate (i : Nat)
deriving DecidableEq, Repr

/-- One event. -/
def step (s : Sessions) : Event → Option Sessions
  | .accept => some { s with conns := s.conns ++ [Conn.new] }
  | .request i r => do
    let c ← s.conns[i]?
    if c.work = [] ∧ c.current ≠ some .quit ∧ r.possible c.txnid then
      some { s with conns := s.conns.set i ⟨r.newId c.txnid, some r, r.ops c.txnid⟩ }
    else none
  | .operate i => do
    let c ← s.conns[i]?
    match c.work with
    | [] => none
    | op :: ops =>
      let ns ← op.run s.headTxnList
      some { s with headTxnList := ns, conns := s.conns.set i { c with work := ops } }

end Sessions

end TxFS
