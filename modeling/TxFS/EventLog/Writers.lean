import TxFS.EventLog.Records
import TxFS.Lib.GuardedRun
import TxFS.Server.Header

/-!
# The Log Functions

The functions of `Log_manager.c` that append to the event log, on the file and on the list of
live transactions, and the machine in which the transactions take turns in calling them. A log
function is one event: it holds `log_mutex`, and what some of them do in front of it concerns
only the node of their own transaction.
-/

namespace TxFS

open BinaryFile GuardedRun

namespace EventLog

/-! ## Parts of the log functions -/

/-- `extract_record_no`. -/
def extractRecordNo (f : File) : Int × File := (f.seekEnd.tell, f.seekEnd)

/-- `get_prev_log_LRN`. -/
def getPrevLogLRN (ntid : Int) (ns : List TxnNode) : Option Int :=
  (searchTxn ntid ns).map TxnNode.lastLRN

/-- `update_txn`. -/
def updateTxn (ntid lastLRN : Int) (ns : List TxnNode) : List TxnNode :=
  TxFS.updateTxn ntid (fun n => { n with lastLRN := lastLRN }) ns

/-- The assignment to `next_LRN` of the previous record of the transaction. -/
def patchNext (f : File) (prevLRN logLRN : Int) : File :=
  ((f.seekSet prevLRN).seekCur (8 + 4 + 8)).write (intBytes 8 logLRN)

/-- What the log functions that find the previous record have in common. -/
def logLinked (e : Entry) (prevLRN : Int) (f : File) : Int × File :=
  let (logLRN, f) := extractRecordNo f
  let f := patchNext f prevLRN logLRN
  (logLRN, appendRecord f ⟨e, logLRN, prevLRN, -1⟩)

/-- A record without a file: `fd` and `offset` are -1. -/
def plainEntry (ntid : Int) (type : LogType) (data data1 : List UInt8) : Entry :=
  ⟨ntid, type.code, -1, -1, data, data1⟩

/-! ## The log functions -/

/-- `log_txn_beg`. -/
def logTxnBeg (ntid : Int) (f : File) : Int × File :=
  let (logLRN, f) := extractRecordNo f
  (logLRN, appendRecord f ⟨plainEntry ntid .txnBeg na na, logLRN, -1, -1⟩)

/-- `log_txn_end`; the node of the transaction is deleted already. -/
def logTxnEnd (ntid prevLRN : Int) (f : File) : Int × File :=
  logLinked (plainEntry ntid .txnEnd na na) prevLRN f

/-- A log function that looks its transaction up and updates its node. -/
def logRecord (e : Entry) (ns : List TxnNode) (f : File) : Option (List TxnNode × File) := do
  let prevLRN ← getPrevLogLRN e.txnId ns
  let (logLRN, f) := logLinked e prevLRN f
  some (updateTxn e.txnId logLRN ns, f)

/-- `log_txn_commit`. -/
def logTxnCommit (ntid : Int) : List TxnNode → File → Option (List TxnNode × File) :=
  logRecord (plainEntry ntid .txnCommit na na)

/-- `log_txn_abort`. -/
def logTxnAbort (ntid : Int) : List TxnNode → File → Option (List TxnNode × File) :=
  logRecord (plainEntry ntid .txnAbort na na)

/-- `log_rename`. -/
def logRename (txnid : Int) (oldpath newpath : List UInt8) :
    List TxnNode → File → Option (List TxnNode × File) :=
  logRecord (plainEntry txnid .rename (cString oldpath) (cString newpath))

/-- `log_creat`. -/
def logCreat (txnid : Int) (path mode : List UInt8) :
    List TxnNode → File → Option (List TxnNode × File) :=
  logRecord (plainEntry txnid .creat (cString path) (cString mode))

/-- `log_unlink`. -/
def logUnlink (txnid : Int) (path : List UInt8) :
    List TxnNode → File → Option (List TxnNode × File) :=
  logRecord (plainEntry txnid .unlink (cString path) (cString na))

/-- The entry of `log_write`: `write_length` bytes of the copy of the data. -/
def writeEntry (txnid fd offset : Int) (writeLength : Nat) (data : List UInt8) : Entry :=
  ⟨txnid, LogType.update.code, fd, offset, (cString data).take writeLength, na⟩

/-- `log_write`. -/
def logWrite (txnid fd offset : Int) (writeLength : Nat) (data : List UInt8) :
    List TxnNode → File → Option (List TxnNode × File) :=
  logRecord (writeEntry txnid fd offset writeLength data)

end EventLog

/-! ## The machine -/

/-- How far a transaction has come with its log calls. -/
inductive LogPhase where
  /-- `on_txn_beg` is not called yet. -/
  | fresh
  /-- Between `log_txn_beg` and `new_txn_insert`. -/
  | begun (logRecNo : Int)
  | active
  /-- The commit or abort record is written. -/
  | closed
  /-- Behind `get_prev_log_LRN`. -/
  | leaving (prevLRN : Int)
  /-- Behind `txn_delete`. -/
  | left (prevLRN : Int)
  | ended
deriving DecidableEq, Repr

/-- The event log, the live transactions, and what has been appended so far. -/
structure EventLog where
  file : File
  headTxnList : List TxnNode
  phase : Int → LogPhase
  history : List EventLog.Entry

namespace EventLog

/-- The state after `global_init` with an empty log. -/
def globalInit : EventLog := ⟨⟨[], 0⟩, [], fun _ => .fresh, []⟩

/-- A namespace or data call, or the decision of a user transaction. -/
inductive Call where
  | rename (oldpath newpath : List UInt8)
  | creat (path mode : List UInt8)
  | unlink (path : List UInt8)
  | write (fd offset : Int) (writeLength : Nat) (data : List UInt8)
  | commit
  | abort
deriving DecidableEq, Repr

namespace Call

/-- The record of the call. -/
def entry (txnid : Int) : Call → Entry
  | rename oldpath newpath => plainEntry txnid .rename (cString oldpath) (cString newpath)
  | creat path mode => plainEntry txnid .creat (cString path) (cString mode)
  | unlink path => plainEntry txnid .unlink (cString path) (cString na)
  | write fd offset writeLength data => writeEntry txnid fd offset writeLength data
  | commit => plainEntry txnid .txnCommit na na
  | abort => plainEntry txnid .txnAbort na na

/-- The log function of the call. -/
def log (txnid : Int) : Call → List TxnNode → File → Option (List TxnNode × File)
  | rename oldpath newpath => logRename txnid oldpath newpath
  | creat path mode => logCreat txnid path mode
  | unlink path => logUnlink txnid path
  | write fd offset writeLength data => logWrite txnid fd offset writeLength data
  | commit => logTxnCommit txnid
  | abort => logTxnAbort txnid

/-- The arguments are of their types, and the data buffer holds the stated length. -/
def Valid : Call → Prop
  | write fd offset writeLength data =>
    IsInt fd ∧ IsLong offset ∧ writeLength ≤ (cString data).length
  | _ => True

instance : ∀ c : Call, Decidable c.Valid
  | write _ _ _ _ => inferInstanceAs (Decidable (_ ∧ _ ∧ _))
  | rename _ _ | creat _ _ | unlink _ | commit | abort => inferInstanceAs (Decidable True)

/-- Only a user transaction commits or aborts, once. -/
def after (txnid : Int) : Call → Option LogPhase
  | commit | abort => if txnid ≠ 0 then some .closed else none
  | _ => some .active

theorem log_eq (txnid : Int) (c : Call) : c.log txnid = logRecord (c.entry txnid) := by
  cases c <;> rfl

theorem entry_txnId (txnid : Int) (c : Call) : (c.entry txnid).txnId = txnid := by
  cases c <;> rfl

end Call

inductive Event where
  | logTxnBeg (txnid : Int)
  | newTxnInsert (txnid : Int)
  | call (txnid : Int) (c : Call)
  | getPrevLogLRN (txnid : Int)
  | txnDelete (txnid : Int)
  | logTxnEnd (txnid : Int)
deriving DecidableEq, Repr

def setPhase (s : EventLog) (txnid : Int) (p : LogPhase) : EventLog :=
  { s with phase := Function.update s.phase txnid p }

/-- One event. -/
def step (s : EventLog) : Event → Option EventLog
  | .logTxnBeg t =>
    if s.phase t = .fresh ∧ IsInt t then
      let (logLRN, f) := logTxnBeg t s.file
      some { s.setPhase t (.begun logLRN) with
        file := f, history := s.history ++ [plainEntry t .txnBeg na na] }
    else none
  | .newTxnInsert t =>
    match s.phase t with
    | .begun logRecNo =>
      -- `log_rec_no` is a parameter of type `int`
      some { s.setPhase t .active with
        headTxnList := newTxnInsert t (intOfLong logRecNo) s.headTxnList }
    | _ => none
  | .call t c => do
    let p ← c.after t
    if s.phase t = .active ∧ c.Valid then
      let (ns, f) ← c.log t s.headTxnList s.file
      some { s.setPhase t p with
        file := f, headTxnList := ns, history := s.history ++ [c.entry t] }
    else none
  | .getPrevLogLRN t =>
    if s.phase t = .closed ∨ (s.phase t = .active ∧ t = 0) then do
      let prevLRN ← getPrevLogLRN t s.headTxnList
      some (s.setPhase t (.leaving prevLRN))
    else none
  | .txnDelete t =>
    match s.phase t with
    | .leaving prevLRN => do
      let ns ← txnDelete t s.headTxnList
      some { s.setPhase t (.left prevLRN) with headTxnList := ns }
    | _ => none
  | .logTxnEnd t =>
    match s.phase t with
    | .left prevLRN =>
      some { s.setPhase t .ended with
        file := (logTxnEnd t prevLRN s.file).2
        history := s.history ++ [plainEntry t .txnEnd na na] }
    | _ => none

end EventLog

end TxFS
