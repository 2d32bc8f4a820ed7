import TxFS.Server.State

/-!
# Lock Requests

`insert_file_list` with what it calls: the serializability check against the backup
(`MS_manager.c`) and the wait list (`Wait_list_manager.c`). All of it runs under
`file_mutex`, up to the point where the calling thread blocks, pauses, aborts or has the
record.
-/

namespace TxFS

open LinkedPath

namespace Server

/-! ## Serializability check -/

/-- `pause_times` of the transaction is nullified. -/
def nullifyPause (s : Server) (txnid : Int) : Server :=
  { s with pauseArray := fun i =>
      if i ≤ s.indexPauseArray ∧ (s.pauseArray i).txnid = txnid then ⟨-1, 0⟩
      else s.pauseArray i }

/-- The pause of `mutually_serializable`: 0 after the pause, -1 when the transaction has
    already paused too often. -/
def pause (s : Server) (txnid : Int) : Server × Int :=
  let i := ((List.range (s.indexPauseArray + 1)).find? fun i =>
    (s.pauseArray i).txnid = txnid).getD (s.indexPauseArray + 1)
  let running := fun n : TxnNode => { n with curState := .running }
  if (s.pauseArray i).txnid = txnid then
    if (s.pauseArray i).pauseTimes > 5 then (s, -1)
    else
      let p : PauseNode := ⟨txnid, (s.pauseArray i).pauseTimes + 1⟩
      (modifyTxn { s with pauseArray := Function.update s.pauseArray i p } txnid running, 0)
  else
    let j := s.indexPauseArray + 1
    (modifyTxn { s with indexPauseArray := j,
                        pauseArray := Function.update s.pauseArray j ⟨txnid, 1⟩ } txnid running, 0)

/-- `mutually_serializable`: 1 = lock the file, 0 = was paused, -1 = has been aborted. -/
def mutuallySerializable (s : Server) (txnid filesReadBit : Int) : Option (Server × Int) := do
  let n ← searchTxn txnid s.headTxnList
  if n.fileRecNo = none then some (s, 1)
  else if filesReadBit = n.beforeAfter then some (s.nullifyPause txnid, 1)
  else if filesReadBit = 0 ∧ n.beforeAfter = 1 then some (s.pause txnid)
  else some (s, -1)

/-! ## Wait list -/

/-- `search_wait_list`. -/
def searchWaitList (s : Server) (fInode : Int) : Option WaitNode :=
  s.headWaitList.find? fun w => w.fileInode = fInode

/-- Behind the nodes with inodes that are not larger. -/
def insertWaitNode (w : WaitNode) : List WaitNode → List WaitNode
  | [] => [w]
  | v :: vs => if v.fileInode > w.fileInode then w :: v :: vs else v :: insertWaitNode w vs

/-- `insert_wait_list` up to its `pthread_cond_wait`: the node of `get_wait_node`. -/
def insertWaitList (s : Server) (fInode : Int) : Server × Nat :=
  ({ s with
      headWaitList := insertWaitNode ⟨s.nodeBrk, fInode, 1, -1, 0⟩ s.headWaitList
      nodeBrk := s.nodeBrk + 1 }, s.nodeBrk)

/-- Assignment to fields of a wait node. -/
def modifyNode (s : Server) (node : Nat) (f : WaitNode → WaitNode) : Server :=
  { s with headWaitList := s.headWaitList.map fun w => if w.node = node then f w else w }

/-- `update_wait_list` up to its `pthread_cond_wait`. -/
def updateWaitList (s : Server) (node : Nat) : Server × Nat :=
  (s.modifyNode node fun w => { w with inWait := w.inWait + 1 }, node)

/-- `update_wait_list_on_wake`: the last one to leave frees the node. -/
def updateWaitListOnWake (s : Server) (node : Nat) : Server :=
  let s := s.modifyNode node fun w => { w with inWait := w.inWait - 1 }
  { s with headWaitList := s.headWaitList.filter fun w => ¬ (w.node = node ∧ w.inWait = 0) }

/-- `wake_up`: a broadcast on `f_lock`. -/
def wakeUp (s : Server) (node : Nat) : Server :=
  { s with thread := fun t =>
      match s.thread t with
      | .parked p n w => .parked p n (w || n = node)
      | st => st }

/-! ## Insertion -/

/-- `insert_same_txn_list`. -/
def insertSameTxnList (s : Server) (txnid readBit : Int) (a : Addr) : Option Server := do
  let n ← searchTxn txnid s.headTxnList
  match n.fileRecNo with
  | none => some (s.modifyTxn txnid fun n => { n with fileRecNo := some a, beforeAfter := readBit })
  | some first =>
    let last ← walkToEnd (fun b => (s.cell b).nextTxn) (s.table.brk + 1) first
    some (s.modifyCell last fun c => { c with nextTxn := some a })

/-- How `insert_file_list` ends its critical section. -/
inductive Outcome where
  /-- A new record is returned. -/
  | granted (a : Addr)
  /-- The record of the same transaction is returned. -/
  | held (a : Addr)
  /-- The thread is in the wait list. -/
  | blocked (node : Nat)
  /-- `mutually_serializable` returned 0. -/
  | paused
  /-- `mutually_serializable` returned -1. -/
  | aborted
deriving DecidableEq, Repr

/-- The transaction's fields while it waits. -/
def setWaiting (s : Server) (txnid fInode fFlags : Int) : Server :=
  s.modifyTxn txnid fun n =>
    { n with curState := .waiting, waitingForInode := fInode,
             waitMode := if fFlags = 0 then 0 else 1 }

/-- `ret_MS` for a file that is not locked: with an inactive backup there is no check. -/
def checkUnlocked (s : Server) (txnid readBit : Int) : Option (Server × Int) :=
  if txnid ≠ 0 then
    if s.backup = .inactive then some (s, 1) else s.mutuallySerializable txnid readBit
  else some (s, -2)

/-- `ret_MS` for a file locked in shared mode. -/
def checkShared (s : Server) (txnid readBit : Int) : Option (Server × Int) :=
  if txnid ≠ 0 then s.mutuallySerializable txnid readBit else some (s, -2)

/-- The grant in shared mode behind the check, in both shared branches. -/
def grantShared (s : Server) (fInode fFlags txnid readBit : Int) (loc : Addr) :
    Option (Server × Outcome) := do
  let (s, retMS) ← s.checkShared txnid readBit
  if retMS = 1 ∨ txnid = 0 then
    let a := s.table.brk
    let table ← s.table.insertShared loc (getFileNode fInode 0 fFlags txnid)
    let s ← insertSameTxnList { s with table := table } txnid readBit a
    some (s, .granted a)
  else if retMS = 0 then some (s, .paused)
  else some (s, .aborted)

/-- `insert_file_list`, given the result of `search_file_list`. -/
def insertFileList (s : Server) (fInode fFlags txnid readBit : Int) (searchRet : Bool)
    (loc : Option Addr) : Option (Server × Outcome) := do
  let _ ← searchTxn txnid s.headTxnList
  if searchRet = false then
    let (s, retMS) ← s.checkUnlocked txnid readBit
    if retMS = 1 ∨ retMS = -2 then
      let a := s.table.brk
      let table := s.table.insertUnlocked loc (getFileNode fInode 0 fFlags txnid)
      let s ← insertSameTxnList { s with table := table } txnid readBit a
      some (s, .granted a)
    else if retMS = 0 then some (s, .paused)
    else some (s, .aborted)
  else
    let loc ← loc
    let c := s.cell loc
    if c.parentTxn = txnid then some (s, .held loc)
    else if c.fileMode = 1 then
      let s := s.setWaiting txnid fInode fFlags
      match s.searchWaitList fInode with
      | none => let (s, node) := s.insertWaitList fInode; some (s, .blocked node)
      | some w => let (s, node) := s.updateWaitList w.node; some (s, .blocked node)
    else
      match s.searchWaitList fInode with
      | none =>
        if fFlags = 0 then s.grantShared fInode fFlags txnid readBit loc
        else
          let (s, node) := (s.setWaiting txnid fInode fFlags).insertWaitList fInode
          some (s, .blocked node)
      | some w =>
        -- behind a wait list only the backup's own shared lock lets a reader in
        let filePtr ← findFrom (fun b => (s.cell b).nextSharedRec)
          (fun b => (s.cell b).parentTxn = 0) (s.table.brk + 1) (some loc)
        if filePtr ≠ none ∧ fFlags = 0 then s.grantShared fInode fFlags txnid readBit loc
        else
          let (s, node) := (s.setWaiting txnid fInode fFlags).updateWaitList w.node
          some (s, .blocked node)

end Server

end TxFS
