import TxFS.Lib.GuardedRun
import TxFS.Server.Release

/-!
# The Server as a Transition System

One event is one critical section of `file_mutex`: a lock request up to the point where
the thread blocks or returns, a waiter that runs after its `pthread_cond_wait`, a release
loop, a mark of the deadlock detector. Every order of events is a schedule of the threads.

A waiter may run without a broadcast, as `pthread_cond_wait` allows. A transaction runs on
one thread, so it takes no other step while it waits or aborts, and the ids of the live
transactions are distinct.
-/

namespace TxFS

open GuardedRun

/-! ## Events -/

inductive Event where
  /-- `on_txn_beg`, or the start of `on_bck_beg` for id 0. -/
  | begin (txnid : Int)
  /-- A lock request; `readBit` is the value `insert_file_list` passes on. -/
  | lock (txnid : Int) (req : LockRequest) (readBit : Int)
  /-- `resume` after a wait or a pause. -/
  | resume (txnid : Int) (readBit : Int)
  /-- A waiter returns from `pthread_cond_wait` on `f_lock`. -/
  | wake (txnid : Int)
  /-- The deadlock victim comes back from `wake_cond`. -/
  | leaveAsVictim (txnid : Int)
  /-- `rename_log`, `creat_log` or `unlink_log` with the records of the parent directories. -/
  | call (txnid : Int) (c : NsCall) (pos : Addr) (newPos : Option Addr)
  /-- `on_txn_commit`. -/
  | commit (txnid : Int)
  /-- `on_txn_abort`. -/
  | abort (txnid : Int)
  /-- `release_locks_by_backup` with the transaction id 0. -/
  | releaseByBackup (fInode : Int)
  /-- The end of `on_bck_beg`: the node of the backup is deleted. -/
  | endBackup
  /-- `deadlock_detection` marks a victim on the wait node of an inode. -/
  | markVictim (fInode : Int) (txnid : Int)
  /-- `on_bck_beg` sets `BACKUP`. -/
  | setBackup (b : BckState)
deriving DecidableEq, Repr

namespace Server

/-! ## Lock requests -/

/-- `tr_file_open_without_mode`: the lowest free handle, or -1. -/
def trFileOpen (s : Server) (txnid : Int) (found : Bool) : Server × Int :=
  match found, s.handles.findIdx? Option.isNone with
  | true, some i => ({ s with handles := s.handles.set i (some txnid) }, i)
  | _, _ => (s, -1)

/-- What the caller does with the record `a`, still under `file_mutex`; `loc` is the
    location its own search found. -/
def afterLock (s : Server) (txnid : Int) (use : LockUse) (loc : Option Addr) (a : Addr) : Server :=
  match use with
  | .open found =>
    let (s, fd) := s.trFileOpen txnid found
    if fd = -1 then s.setThread txnid .aborting
    else (s.modifyCell a fun c => { c with fd := fd, fileOffset := 0 }).setThread txnid .running
  | .placeholder =>
    (s.modifyCell a fun c => { c with fd := 0, fileOffset := 0 }).setThread txnid .running
  | .renameParent =>
    if some a ≠ loc then
      (s.modifyCell a fun c => { c with fd := 0, fileOffset := 0 }).setThread txnid .running
    else s.setThread txnid .running
  | .keep => s.setThread txnid .running
  | .host fd =>
    (s.modifyCell a fun c => { c with fd := fd.getD c.fd, fileOffset := 0 }).setThread txnid .running

/-- `search_file_list` and `insert_file_list` in one critical section. `first` is the
    location of the first search when this is a `resume`. -/
def requestLock (s : Server) (txnid : Int) (req : LockRequest) (first : Option (Option Addr))
    (readBit : Int) : Option Server := do
  let (found, loc) ← s.table.searchFileList req.inode
  let (s, out) ← s.insertFileList req.inode req.flags txnid readBit found loc
  let loc := first.getD loc
  match out with
  | .granted a => some (s.afterLock txnid req.use loc a)
  | .held a => some (s.afterLock txnid req.use loc a)
  | .blocked node => some (s.setThread txnid (.parked ⟨req, loc⟩ node false))
  | .paused => some (s.setThread txnid (.resuming ⟨req, loc⟩))
  | .aborted => some (s.setThread txnid .aborting)

/-! ## Waiters -/

/-- The transaction's fields after its wait. -/
def setRunning (s : Server) (txnid : Int) : Server :=
  s.modifyTxn txnid fun n =>
    { n with curState := .running, waitingForInode := 0, waitMode := -1 }

/-- The part of `insert_wait_list` and of `update_wait_list` behind `pthread_cond_wait`. -/
def afterCondWait (s : Server) (txnid : Int) (p : Pending) (node : Nat) : Option Server := do
  let w ← s.headWaitList.find? fun w => w.node = node
  let countWoken := fun w : WaitNode => { w with wokeUp := w.wokeUp + 1 }
  if w.txnidAbort ≠ -1 ∧ w.txnidAbort ≠ txnid then
    -- there is a deadlock victim but it is not me: back to sleep
    some ((s.modifyNode node countWoken).setThread txnid (.parked p node false))
  else if w.txnidAbort = -1 then
    some (((s.updateWaitListOnWake node).setRunning txnid).setThread txnid (.resuming p))
  else
    let s := s.modifyNode node countWoken
    if w.wokeUp + 1 = w.inWait then
      let s := s.modifyNode node fun w => { w with txnidAbort := -1 }
      some ((s.updateWaitListOnWake node).setThread txnid .aborting)
    else some (s.setThread txnid (.victim node))

/-- The victim resets the mark and leaves the node. -/
def afterWakeCond (s : Server) (txnid : Int) (node : Nat) : Option Server := do
  let _ ← s.headWaitList.find? fun w => w.node = node
  let s := s.modifyNode node fun w => { w with txnidAbort := -1 }
  some ((s.updateWaitListOnWake node).setThread txnid .aborting)

theorem afterWakeCond_spec {s s' : Server} {txnid : Int} {node : Nat}
    (h : s.afterWakeCond txnid node = some s') :
    ∃ w, s.headWaitList.find? (fun w => w.node = node) = some w ∧
      s' = ((s.modifyNode node fun w => { w with txnidAbort := -1 }).updateWaitListOnWake
        node).setThread txnid .aborting := by
  simp only [afterWakeCond, Option.bind_eq_bind, Option.bind_eq_some_iff, Option.some.injEq] at h
  obtain ⟨w, hw, rfl⟩ := h
  exact ⟨w, hw, rfl⟩

/-- The second critical section of `deadlock_detection`. -/
def markVictim (s : Server) (fInode txnid : Int) : Option Server := do
  let w ← s.searchWaitList fInode
  some ((s.modifyNode w.node fun w => { w with txnidAbort := txnid, wokeUp := 0 }).wakeUp w.node)

theorem markVictim_spec {s s' : Server} {fInode txnid : Int}
    (h : s.markVictim fInode txnid = some s') :
    ∃ w, s.searchWaitList fInode = some w ∧
      s' = (s.modifyNode w.node fun w =>
        { w with txnidAbort := txnid, wokeUp := 0 }).wakeUp w.node := by
  simp only [markVictim, Option.bind_eq_bind, Option.bind_eq_some_iff, Option.some.injEq] at h
  obtain ⟨w, hw, rfl⟩ := h
  exact ⟨w, hw, rfl⟩

/-! ## Transactions -/

/-- Bytes of a log record without paths. -/
def plainRecordLength : Int := 66

/-- `on_txn_beg`: the begin record and the node of the transaction. -/
def onTxnBeg (s : Server) (txnid : Int) : Option Server :=
  if searchTxn txnid s.headTxnList = none then
    some { s with
      headTxnList := newTxnInsert txnid (intOfLong s.logEnd) s.headTxnList
      logEnd := s.logEnd + plainRecordLength
      thread := Function.update s.thread txnid .running }
  else none

/-- What follows the release in `on_txn_commit` and `on_txn_abort`: the node is deleted and
    the log has some more records. -/
def endTxn (s : Server) (txnid records : Int) : Option Server := do
  let ns ← txnDelete txnid s.headTxnList
  some { s with
    headTxnList := ns
    logEnd := s.logEnd + records * plainRecordLength
    thread := Function.update s.thread txnid .running }

theorem endTxn_spec {s s' : Server} {txnid records : Int}
    (h : s.endTxn txnid records = some s') :
    ∃ ns, txnDelete txnid s.headTxnList = some ns ∧
      s' = { s with
        headTxnList := ns
        logEnd := s.logEnd + records * plainRecordLength
        thread := Function.update s.thread txnid .running } := by
  simp only [endTxn, Option.bind_eq_bind, Option.bind_eq_some_iff, Option.some.injEq] at h
  obtain ⟨ns, hns, rfl⟩ := h
  exact ⟨ns, hns, rfl⟩

/-- `on_txn_commit`, with the actions of its release. -/
def onTxnCommit (s : Server) (txnid : Int) : Option (Server × List Act) := do
  let (s, acts) ← s.releaseLocksOnSuccess txnid
  some (← s.endTxn txnid 2, acts)

/-- `on_txn_abort`, with the actions of its release. -/
def onTxnAbort (s : Server) (txnid : Int) : Option (Server × List Act) := do
  let (s, acts) ← s.releaseLocksOnAbort txnid
  some (← s.endTxn txnid 2, acts)

/-- The end of `on_bck_beg`. `online_bck` has released the lock of every path by then. -/
def onBckEnd (s : Server) : Option Server := do
  let n ← searchTxn 0 s.headTxnList
  if n.fileRecNo = none then s.endTxn 0 1 else none

/-- A log call names records its transaction owns. -/
def ownsRecord (s : Server) (txnid : Int) (a : Addr) : Prop :=
  a ∈ s.table.allocated ∧ (s.cell a).parentTxn = txnid

instance (s : Server) (txnid : Int) (a : Addr) : Decidable (s.ownsRecord txnid a) :=
  inferInstanceAs (Decidable (_ ∧ _))

/-- The log call of a namespace operation. -/
def logEvent (s : Server) (txnid : Int) (c : NsCall) (pos : Addr) (newPos : Option Addr) :
    Option Server :=
  if s.thread txnid = .running ∧ s.ownsRecord txnid pos ∧ ∀ p ∈ newPos, s.ownsRecord txnid p then
    match c with
    | .rename oldpath newpath => some (s.renameLog oldpath newpath pos newPos txnid)
    | .creat path mode => some (s.creatLog path mode pos txnid)
    | .unlink path => some (s.unlinkLog path pos txnid)
  else none

/-! ## The step function -/

/-- One critical section. -/
def step (s : Server) : Event → Option Server
  | .begin t => s.onTxnBeg t
  | .lock t req readBit =>
    if s.thread t = .running then s.requestLock t req none readBit else none
  | .resume t readBit =>
    match s.thread t with
    | .resuming p => s.requestLock t p.req (some p.loc) readBit
    | _ => none
  | .wake t =>
    match s.thread t with
    | .parked p node _ => s.afterCondWait t p node
    | _ => none
  | .leaveAsVictim t =>
    match s.thread t with
    | .victim node => s.afterWakeCond t node
    | _ => none
  | .call t c pos newPos => s.logEvent t c pos newPos
  | .commit t => if s.thread t = .running then (s.onTxnCommit t).map Prod.fst else none
  | .abort t =>
    if s.thread t = .running ∨ s.thread t = .aborting then (s.onTxnAbort t).map Prod.fst else none
  | .releaseByBackup i =>
    if s.thread 0 = .running then (s.releaseLocksByBackup 0 i).map Prod.fst else none
  | .endBackup => if s.thread 0 = .running then s.onBckEnd else none
  | .markVictim i t => s.markVictim i t
  | .setBackup b => some { s with backup := b }

end Server

end TxFS
