import TxFS.EventLog.Chains

/-!
# The Event Log, One Call at a Time

All threads share the one `FILE` of the event log and its position. A log function holds
`log_mutex` while it seeks and writes; the replay of a commit holds `file_mutex` only while it
seeks and reads. The machine of this module takes one call of the stdio library at a time, so
that the calls of a log function and of a replay interleave in every order.

The position and the bytes of every write, and the bytes of every read, are recorded with the
log function and with the replay.
-/

namespace TxFS

open BinaryFile GuardedRun

namespace EventLog

/-! ## Calls of the library -/

inductive StdioCall where
  | seekSet (off : Int)
  | seekCur (off : Int)
  | seekEnd
  | tell
  | write (bs : List UInt8)
  | read (n : Nat)
deriving DecidableEq, Repr

namespace StdioCall

/-- The file behind the call. -/
def run (f : File) : StdioCall → File
  | seekSet off => f.seekSet off
  | seekCur off => f.seekCur off
  | seekEnd => f.seekEnd
  | tell => f
  | write bs => f.write bs
  | read n => (f.read n).2

/-- Where the call writes, and what. -/
def written (f : File) : StdioCall → List (Int × List UInt8)
  | write bs => [(f.tell, bs)]
  | _ => []

/-- What the call reads. -/
def obtained (f : File) : StdioCall → List (List UInt8)
  | read n => [(f.read n).1]
  | _ => []

/-- The call relies on the position that it finds. -/
def Relative : StdioCall → Prop
  | seekSet _ | seekEnd => False
  | _ => True

instance : DecidablePred Relative
  | seekSet _ | seekEnd => inferInstanceAs (Decidable False)
  | seekCur _ | tell | write _ | read _ => inferInstanceAs (Decidable True)

end StdioCall

/-! ## The log functions -/

/-- A log function and its arguments. `data` and `data1` are the bytes that `fwrite` takes
    from the buffers. -/
inductive LogFn where
  | logTxnBeg (txnid : Int)
  /-- A function that looks its transaction up: `log_txn_commit`, `log_txn_abort`,
      `log_write`, `log_rename`, `log_creat`, `log_unlink`. -/
  | logRecord (type : LogType) (txnid fd offset : Int) (data data1 : List UInt8)
  | logTxnEnd (txnid : Int)
deriving DecidableEq, Repr

namespace LogFn

/-- The record of the function. -/
def entry : LogFn → Entry
  | logTxnBeg t => plainEntry t .txnBeg na na
  | logRecord type t fd offset data data1 => ⟨t, type.code, fd, offset, data, data1⟩
  | logTxnEnd t => plainEntry t .txnEnd na na

def txnid (fn : LogFn) : Int := fn.entry.txnId

/-- The record `t`. -/
def record (fn : LogFn) (prevLRN : Option Int) (logLRN : Int) : LogRecord :=
  ⟨fn.entry, logLRN, prevLRN.getD (-1), -1⟩

end LogFn

/-- How far a log function has come. -/
inductive AppendStage where
  /-- `log_mutex` is taken. -/
  | locked
  /-- Behind the `fseek` of `extract_record_no`. -/
  | atEnd
  /-- Behind its `ftell`. -/
  | told (logLRN : Int)
  /-- Behind the `fseek` to the previous record. -/
  | atPrev (logLRN : Int)
  /-- Behind the `fseek` to its `next_LRN`. -/
  | atNext (logLRN : Int)
  /-- `next_LRN` is assigned. -/
  | patched (logLRN : Int)
  /-- Behind the `fseek` to the end; `todo` is still to be written. -/
  | writing (logLRN : Int) (todo : List (List UInt8))
deriving DecidableEq, Repr

/-- A log function that holds `log_mutex`. -/
structure Append where
  fn : LogFn
  /-- `log_txn_beg` has no previous record. -/
  prevLRN : Option Int
  stage : AppendStage
  writes : List (Int × List UInt8)
deriving DecidableEq, Repr

namespace Append

/-- The next call and the stage behind it. -/
def next (a : Append) (f : File) : Option (StdioCall × AppendStage) :=
  match a.stage, a.prevLRN with
  | .locked, _ => some (.seekEnd, .atEnd)
  | .atEnd, _ => some (.tell, .told f.tell)
  | .told logLRN, none => some (.seekEnd, .writing logLRN (a.fn.record a.prevLRN logLRN).fields)
  | .told logLRN, some prevLRN => some (.seekSet prevLRN, .atPrev logLRN)
  | .atPrev logLRN, _ => some (.seekCur (8 + 4 + 8), .atNext logLRN)
  | .atNext logLRN, _ => some (.write (intBytes 8 logLRN), .patched logLRN)
  | .patched logLRN, _ => some (.seekEnd, .writing logLRN (a.fn.record a.prevLRN logLRN).fields)
  | .writing logLRN (bs :: todo), _ => some (.write bs, .writing logLRN todo)
  | .writing _ [], _ => none

/-- The call, made on the file. -/
def take (a : Append) (f : File) (c : StdioCall) (stage : AppendStage) : Append :=
  { a with stage := stage, writes := a.writes ++ c.written f }

end Append

/-! ## The replay of a record -/

/-- The size of a read: a constant, or the value that was read last. -/
inductive ReadSize where
  | fixed (n : Nat)
  | counted
deriving DecidableEq, Repr

def ReadSize.of (reads : List (List UInt8)) : ReadSize → Nat
  | fixed n => n
  | counted => bytesNat (reads.getLastD [])

/-- Two buffers, each with its length in front. -/
def delayedRename : Nat × List ReadSize :=
  (8 + 4 + 8 + 8 + 4 + 4 + 8, [.fixed 8, .counted, .fixed 8, .counted])

def delayedCreat : Nat × List ReadSize :=
  (8 + 4 + 8 + 8 + 4 + 4 + 8, [.fixed 8, .counted, .fixed 8, .counted])

/-- The second buffer is not read. -/
def delayedUnlink : Nat × List ReadSize := (8 + 4 + 8 + 8 + 4 + 4 + 8, [.fixed 8, .counted])

/-- `fd`, `offset`, `write_length` and the data. -/
def delayedWrite : Nat × List ReadSize :=
  (8 + 4 + 8 + 8 + 4, [.fixed 4, .fixed 8, .fixed 8, .counted])

/-- The function that replays a record of the type: the offset that it seeks to behind the
    LRN, and the reads. -/
def delayed : LogType → Option (Nat × List ReadSize)
  | .rename => some delayedRename
  | .creat => some delayedCreat
  | .unlink => some delayedUnlink
  | .update => some delayedWrite
  | _ => none

inductive ReplayStage where
  | start
  /-- Behind the `fseek` to the record. -/
  | atRecord
  /-- Behind the second `fseek`. -/
  | reading (todo : List ReadSize)
deriving DecidableEq, Repr

/-- The replay of the record of `fn`, which returned `LRN`. -/
structure Replay where
  fn : LogFn
  LRN : Int
  offset : Nat
  sizes : List ReadSize
  stage : ReplayStage
  reads : List (List UInt8)
deriving DecidableEq, Repr

namespace Replay

/-- The next call and the stage behind it. -/
def next (r : Replay) : Option (StdioCall × ReplayStage) :=
  match r.stage with
  | .start => some (.seekSet r.LRN, .atRecord)
  | .atRecord => some (.seekCur r.offset, .reading r.sizes)
  | .reading (size :: todo) => some (.read (size.of r.reads), .reading todo)
  | .reading [] => none

/-- The call, made on the file. -/
def take (r : Replay) (f : File) (c : StdioCall) (stage : ReplayStage) : Replay :=
  { r with stage := stage, reads := r.reads ++ c.obtained f }

end Replay

end EventLog

/-! ## The machine -/

inductive EventLog.Party where
  | append
  | replay
deriving DecidableEq, Repr

/-- The event log between two calls. -/
structure StdioLog extends EventLog where
  /-- The records of the `writes_at` lists: the functions and the LRNs that they returned. -/
  writesAt : List (EventLog.LogFn × Int)
  /-- The owner of `log_mutex`. -/
  append : Option EventLog.Append
  /-- The owner of `file_mutex` in `release_locks_on_success`. -/
  replay : Option EventLog.Replay
  /-- Who has made the last call. -/
  last : Option EventLog.Party

namespace StdioLog

open EventLog

/-- The state after `global_init`, with what the log has from before. -/
def globalInit (prior : List UInt8) : StdioLog where
  toEventLog := { EventLog.globalInit with file := ⟨prior, 0⟩ }
  writesAt := []
  append := none
  replay := none
  last := none

/-- The thread of the transaction is in a log function or in its replay. -/
def busy (s : StdioLog) (t : Int) : Bool :=
  s.append.any (fun a => a.fn.txnid = t) || s.replay.any (fun r => r.fn.txnid = t)

/-- Whether a thread can call the function now, and `prev_log_LRN`. -/
def enter (s : StdioLog) : LogFn → Option (Option Int)
  | .logTxnBeg t => if s.phase t = .fresh then some none else none
  | .logRecord type t _ _ data data1 =>
    -- the lengths are of type `size_t`
    if s.phase t = .active ∧ type ≠ .txnBeg ∧ type ≠ .txnEnd ∧
        data.length < 2 ^ 64 ∧ data1.length < 2 ^ 64 then
      (getPrevLogLRN t s.headTxnList).map some
    else none
  | .logTxnEnd t =>
    match s.phase t with
    | .left prevLRN => some (some prevLRN)
    | _ => none

/-- The function has written its record: its node, where it goes on from, and, for a change
    that waits for the commit, the new element of `writes_at`. -/
def leave (s : StdioLog) (logLRN : Int) (fn : LogFn) : StdioLog :=
  let s := { s with append := none, history := s.history ++ [fn.entry] }
  match fn with
  | .logTxnBeg t => { s with phase := Function.update s.phase t (.begun logLRN) }
  | .logRecord type t _ _ _ _ =>
    let s := { s with headTxnList := EventLog.updateTxn t logLRN s.headTxnList }
    if type = .txnCommit ∨ type = .txnAbort then
      { s with phase := Function.update s.phase t .closed }
    else { s with writesAt := s.writesAt ++ [(fn, logLRN)] }
  | .logTxnEnd t => { s with phase := Function.update s.phase t .ended }

/-- What happens off the file: `new_txn_insert`, `get_prev_log_LRN`, `txn_delete`. -/
inductive NodeEvent where
  | newTxnInsert (txnid : Int)
  | getPrevLogLRN (txnid : Int)
  | txnDelete (txnid : Int)
deriving DecidableEq, Repr

namespace NodeEvent

def txnid : NodeEvent → Int
  | newTxnInsert t | getPrevLogLRN t | txnDelete t => t

/-- The event of the machine without interleaving. -/
def event : NodeEvent → EventLog.Event
  | newTxnInsert t => .newTxnInsert t
  | getPrevLogLRN t => .getPrevLogLRN t
  | txnDelete t => .txnDelete t

end NodeEvent

inductive Event where
  | node (ev : NodeEvent)
  /-- `pthread_mutex_lock(&log_mutex)`. -/
  | lock (fn : LogFn)
  | appendCall
  /-- `pthread_mutex_unlock(&log_mutex)`. -/
  | unlock
  /-- The call of a `delayed_` function. -/
  | delayed (fn : LogFn) (LRN : Int)
  | replayCall
  | replayed
deriving DecidableEq, Repr

/-- One event. -/
def step (s : StdioLog) : Event → Option StdioLog
  | .node ev =>
    if s.busy ev.txnid then none
    else (EventLog.step s.toEventLog ev.event).map fun l => { s with toEventLog := l }
  | .lock fn => do
    let prevLRN ← s.enter fn
    if s.append.isNone ∧ s.busy fn.txnid = false then
      some { s with append := some ⟨fn, prevLRN, .locked, []⟩ }
    else none
  | .appendCall => do
    let a ← s.append
    let (c, stage) ← a.next s.file
    some { s with
      file := c.run s.file, append := some (a.take s.file c stage), last := some .append }
  | .unlock => do
    let a ← s.append
    match a.stage with
    | .writing logLRN [] => some (s.leave logLRN a.fn)
    | _ => none
  | .delayed fn lrn =>
    match fn with
    | .logRecord type t _ _ _ _ => do
      let (offset, sizes) ← EventLog.delayed type
      if s.replay.isNone ∧ s.busy t = false ∧ (fn, lrn) ∈ s.writesAt ∧ s.phase t = .closed ∧
          plainEntry t .txnCommit na na ∈ s.history then
        some { s with replay := some ⟨fn, lrn, offset, sizes, .start, []⟩ }
      else none
    | _ => none
  | .replayCall => do
    let r ← s.replay
    let (c, stage) ← r.next
    some { s with
      file := c.run s.file, replay := some (r.take s.file c stage), last := some .replay }
  | .replayed => do
    let r ← s.replay
    if r.stage = .reading [] then some { s with replay := none } else none

end StdioLog

end TxFS
