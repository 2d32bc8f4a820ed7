import TxFS.Server.LockManager

/-!
# Releasing Locks

The in-place updates of a committing transaction (`delayed_update` and what it calls, from
`Log_manager.c`) and the three release functions. The three differ only in which
descriptors they close, so one record is released by one definition with the closing rule
as its parameter.

The functions return the actions on the file systems, in the order in which they happen.
-/

namespace TxFS

open LinkedPath

namespace Server

/-! ## Log calls -/

/-- Appending to the list `writes_at` of a record. -/
def addWriteRecord (s : Server) (a : Addr) (w : WriteRecord) : Server :=
  s.modifyCell a fun c => { c with writesAt := c.writesAt ++ [w] }

/-- `log_rename`, `log_creat` and `log_unlink`: the record is appended at the end of the
    log and its offset is its LRN. -/
def logCall (s : Server) (txnid : Int) (call : NsCall) : Server × Int :=
  ({ s.modifyTxn txnid fun n => { n with lastLRN := s.logEnd } with
      eventLog := s.eventLog ++ [⟨s.logEnd, txnid, call⟩]
      logEnd := s.logEnd + call.recordLength }, s.logEnd)

/-- `rename_log`; `newPos` is `NULL` when both parents are the same directory. -/
def renameLog (s : Server) (oldpath newpath : String) (oldPos : Addr) (newPos : Option Addr)
    (txnid : Int) : Server :=
  let (s, lrn) := s.logCall txnid (.rename oldpath newpath)
  match newPos with
  | none => s.addWriteRecord oldPos ⟨0, -3, lrn⟩
  | some p => (s.addWriteRecord oldPos ⟨0, -1, lrn⟩).addWriteRecord p ⟨0, -2, lrn⟩

/-- `creat_log`. -/
def creatLog (s : Server) (path mode : String) (pos : Addr) (txnid : Int) : Server :=
  let (s, lrn) := s.logCall txnid (.creat path mode)
  s.addWriteRecord pos ⟨0, -4, lrn⟩

/-- `unlink_log`. -/
def unlinkLog (s : Server) (path : String) (parentPos : Addr) (txnid : Int) : Server :=
  let (s, lrn) := s.logCall txnid (.unlink path)
  s.addWriteRecord parentPos ⟨0, -5, lrn⟩

/-! ## Delayed updates

`free` of a write record leaves its fields readable: `delayed_update` still reads the
length and the link of the record that `delayed_rename` has freed. -/

/-- The log record a replay reads at an LRN. -/
def readLog (s : Server) (lrn : Int) : Option NsCall :=
  (s.eventLog.find? fun r => r.LRN = lrn).map LoggedCall.call

/-- `delayed_rename`: rename in place, then remove the other record of the same rename
    from the later directory it is in. Not finding it ends in a `NULL` dereference. -/
def delayedRename (s : Server) (a : Addr) (w : WriteRecord) : Option (Server × List Act) := do
  let call ← s.readLog w.LRN
  let act := Act.rename w.LRN call.data call.data1
  if w.writeLength ≠ -3 then
    let pos ← findFrom (fun b => (s.cell b).nextTxn)
      (fun b => (s.cell b).writesAt.any fun v => v.LRN = w.LRN) (s.table.brk + 1) (s.cell a).nextTxn
    let b ← pos
    some (s.modifyCell b fun c =>
      { c with writesAt := c.writesAt.eraseP fun v => v.LRN = w.LRN }, [act])
  else some (s, [act])

/-- `delayed_creat`: only mode 256 is created in place. -/
def delayedCreat (s : Server) (w : WriteRecord) : Option (List Act) := do
  let call ← s.readLog w.LRN
  some (if call.data1 = "256" then [.sync w.LRN call.data] else [])

/-- `delayed_unlink`. -/
def delayedUnlink (s : Server) (w : WriteRecord) : Option (List Act) := do
  let call ← s.readLog w.LRN
  some [.unlink w.LRN call.data]

/-- The body of the loop of `delayed_update`. -/
def delayedUpdateOne (s : Server) (a : Addr) (w : WriteRecord) : Option (Server × List Act) :=
  if w.writeLength = -1 ∨ w.writeLength = -2 ∨ w.writeLength = -3 then s.delayedRename a w
  else if w.writeLength = -4 then (s.delayedCreat w).map (s, ·)
  else if w.writeLength = -5 then (s.delayedUnlink w).map (s, ·)
  else some (s, [])

/-- The loop of `delayed_update` over `writes_at`; the fuel is the length of the list. -/
def delayedUpdateLoop : Nat → Server → Addr → Option (Server × List Act)
  | 0, s, a => if (s.cell a).writesAt = [] then some (s, []) else none
  | n + 1, s, a =>
    match (s.cell a).writesAt with
    | [] => some (s, [])
    | w :: _ => do
      let (s, acts) ← s.delayedUpdateOne a w
      let s := s.modifyCell a fun c => { c with writesAt := c.writesAt.tail }
      let (s, rest) ← delayedUpdateLoop n s a
      some (s, acts ++ rest)

/-- `delayed_update`. -/
def delayedUpdate (s : Server) (a : Addr) : Option (Server × List Act) :=
  delayedUpdateLoop (s.cell a).writesAt.length s a

/-- `delayed_write`: the logged writes are performed in place, oldest first. -/
def delayedWrite (s : Server) (a : Addr) : List Act :=
  (s.cell a).writesAt.map fun w => .write w.LRN

/-- What a commit does with the record before it is released. -/
def performWrites (s : Server) (a : Addr) : Option (Server × List Act) :=
  match (s.cell a).writesAt with
  | [] => some (s, [])
  | w :: _ =>
    if (s.cell a).flags ≠ 0 then
      if w.writeLength < 0 then s.delayedUpdate a else some (s, s.delayedWrite a)
    else some (s, [])

/-- What an abort does with the record before it is released: `free_write_at`. -/
def discardWrites (s : Server) (_ : Addr) : Option (Server × List Act) := some (s, [])

/-! ## One record -/

/-- A handle is free after it was closed; closing a free handle fails and does nothing. -/
def closeHandle (s : Server) (fd : Int) : Server :=
  if fd < 0 then s else { s with handles := s.handles.set fd.toNat none }

/-- Closing the descriptor of a record, under the rule `close` of the release function:
    its first argument says whether a wait list is present. -/
def closeFd (close : Bool → Int → Option Act) (s : Server) (waited : Bool) (fd : Int) :
    Server × List Act :=
  match close waited fd with
  | none => (s, [])
  | some act => (s.closeHandle fd, [act])

/-- `delete_file_list` on the table of the server. -/
def deleteRecord (s : Server) (a : Addr) : Option Server :=
  (s.table.deleteFileList a).map fun t => { s with table := t }

/-- One record of a release loop: close the file, unlink and free the record, and wake the
    waiters when no lock on the inode is left (the code's tests for that). -/
def releaseRecord (close : Bool → Int → Option Act) (s : Server) (a : Addr) :
    Option (Server × List Act) :=
  let c := s.cell a
  match s.searchWaitList c.fileInode with
  | none => do
    -- no transaction is waiting: the links to other shared records are left as they are
    let (s, acts) := closeFd close s false c.fd
    some (← s.deleteRecord a, acts)
  | some w =>
    if c.fileMode = 0 then
      if c.nextSharedRec = none ∧ c.prevSharedRec = none then do
        let (s, acts) := closeFd close s true c.fd
        some ((← s.deleteRecord a).wakeUp w.node, acts)
      else do
        let (s, acts) := closeFd close { s with table := s.table.unlinkShared a } true c.fd
        some (← s.deleteRecord a, acts)
    else do
      let (s, acts) := closeFd close s true c.fd
      some ((← s.deleteRecord a).wakeUp w.node, acts)

/-- `while (txn_id_file_list != NULL)`: each record is prepared, the link to the next one
    is read, and the record is released. -/
def releaseLoop (prepare : Server → Addr → Option (Server × List Act))
    (close : Bool → Int → Option Act) : Nat → Server → Option Addr → Option (Server × List Act)
  | 0, _, _ => none
  | _ + 1, s, none => some (s, [])
  | n + 1, s, some a => do
    let (s, prepared) ← prepare s a
    let nextTxn := (s.cell a).nextTxn
    let (s, released) ← releaseRecord close s a
    let (s, rest) ← releaseLoop prepare close n s nextTxn
    some (s, prepared ++ released ++ rest)

/-- The common part of the two release functions of a transaction. -/
def releaseLocks (prepare : Server → Addr → Option (Server × List Act))
    (close : Bool → Int → Option Act) (s : Server) (txnid : Int) : Option (Server × List Act) := do
  let n ← searchTxn txnid s.headTxnList
  let s := s.setFileRecNo txnid none
  releaseLoop prepare close (s.table.brk + 1) s n.fileRecNo

/-- Closing rule of `release_locks_on_success`. -/
def closeOnSuccess (waited : Bool) (fd : Int) : Option Act :=
  if (if waited then fd ≠ 0 else fd > 0) then some (.close fd) else none

/-- Closing rule of `release_locks_on_abort`. -/
def closeOnAbort (_ : Bool) (fd : Int) : Option Act :=
  if fd ≥ 0 then some (.closeAbort fd) else none

/-- `release_locks_by_backup` leaves closing to `online_bck`. -/
def closeByBackup (_ : Bool) (_ : Int) : Option Act := none

/-- `release_locks_on_success`. -/
def releaseLocksOnSuccess : Server → Int → Option (Server × List Act) :=
  releaseLocks performWrites closeOnSuccess

/-- `release_locks_on_abort`. -/
def releaseLocksOnAbort : Server → Int → Option (Server × List Act) :=
  releaseLocks discardWrites closeOnAbort

/-- The unlinking from the transaction's list in `release_locks_by_backup`:
    `foll` is the record in front, or `NULL`. -/
def unlinkTxnList (s : Server) (txnid : Int) (foll : Option Addr) (a : Addr) : Server :=
  match foll with
  | none => s.setFileRecNo txnid (s.cell a).nextTxn
  | some p => s.modifyCell p fun c => { c with nextTxn := (s.cell a).nextTxn }

/-- The search loop of `release_locks_by_backup`; it does not test for `NULL`. -/
def findOwnRecord (s : Server) (fInode : Int) : Nat → Option Addr → Option Addr →
    Option (Option Addr × Addr)
  | 0, _, _ => none
  | _ + 1, _, none => none
  | n + 1, foll, some a =>
    if (s.cell a).fileInode = fInode then some (foll, a)
    else findOwnRecord s fInode n (some a) (s.cell a).nextTxn

/-- `release_locks_by_backup`. -/
def releaseLocksByBackup (s : Server) (txnid fInode : Int) : Option (Server × List Act) := do
  let n ← searchTxn txnid s.headTxnList
  let (foll, a) ← s.findOwnRecord fInode (s.table.brk + 1) none n.fileRecNo
  releaseRecord closeByBackup (s.unlinkTxnList txnid foll a) a

end Server

end TxFS
