import TxFS.EventLog.Writers
import TxFS.Lib.OpenFile
import TxFS.Server.LockTable

/-!
# Deferred Writes

`write_log` and `update_on_lseek` of `Update_manager.c` keep the position and the size of an open
file in its record of the lock list and leave the file alone. `delayed_write` of `Log_manager.c`
performs the writes at commit, with the data from the event log.

`Session` runs these functions beside an identical file to which the same calls are made directly.
Log functions may be called for other transactions and files at any time.
-/

namespace TxFS

open BinaryFile GuardedRun

namespace Deferred

/-- An open file, in both ways. -/
structure Session where
  lock : FileLock
  log : EventLog
  /-- The file that the descriptor of the record belongs to. -/
  file : OpenFile
  /-- The file with the direct calls. -/
  direct : OpenFile

/-- `open` with the flags of the record: 0 for reading only, 3 and 4 for appending. -/
def openFile (bytes : List UInt8) (flags : Int) : OpenFile where
  bytes := bytes
  pos := 0
  writable := flags ≠ 0
  append := flags = 3 ∨ flags = 4

/-- Behind `on_open`: `insert_file_list` leaves the length of the file 0. -/
def onOpen (bytes : List UInt8) (inode flags txnid fd : Int) (log : EventLog) : Session where
  lock := { getFileNode inode 0 flags txnid with fd := fd, fileOffset := 0 }
  log := log
  file := openFile bytes flags
  direct := openFile bytes flags

/-- The offset of a write: in append mode the end of the file, or of the last write. -/
def writeOffset (c : FileLock) (file : OpenFile) : Int × OpenFile :=
  if c.flags = 3 ∨ c.flags = 4 then
    match c.writesAt.getLast? with
    | none => file.lseek 0 2
    | some w => (w.initialOff + w.writeLength, file)
  else (c.fileOffset, file)

/-- `write_log`; `log_write` returns the offset at which it has put its record. -/
def writeLog (writeLength : Nat) (data : List UInt8) (s : Session) : Option Session := do
  let (offset, file) := writeOffset s.lock s.file
  let fileOffset := offset + writeLength
  let logRecNo := (EventLog.extractRecordNo s.log.file).1
  let log ← s.log.step (.call s.lock.parentTxn (.write s.lock.fd offset writeLength data))
  some { s with
    lock := { s.lock with
      fileOffset := fileOffset
      fileSize := if fileOffset > s.lock.fileSize then fileOffset else s.lock.fileSize
      writesAt := s.lock.writesAt ++ [⟨offset, writeLength, logRecNo⟩] }
    log := log
    file := file }

/-- `update_on_lseek`. -/
def updateOnLseek (offset whence : Int) (c : FileLock) : FileLock :=
  { c with fileOffset :=
      if whence = 0 then offset
      else if whence = 1 then c.fileOffset + offset
      else if whence = 2 then offset + c.fileSize
      else c.fileOffset }

inductive Event where
  | write (writeLength : Nat) (data : List UInt8)
  | seek (offset whence : Int)
  /-- A log function is called for another file or another transaction. -/
  | log (ev : EventLog.Event)

/-- One event, with the same call to the other file. -/
def step (s : Session) : Event → Option Session
  | .write writeLength data =>
    (writeLog writeLength data s).map fun s => { s with direct := s.direct.write data }
  | .seek offset whence =>
    some { s with
      lock := updateOnLseek offset whence s.lock
      direct := (s.direct.lseek offset whence).2 }
  | .log ev => (s.log.step ev).map fun log => { s with log := log }

/-! ## At commit -/

/-- The part of a log record that `delayed_write` reads. -/
def readWrite (log : File) (lrn : Int) : (Int × Int × List UInt8) × File :=
  let f := (log.seekSet lrn).seekCur (8 + 4 + 8 + 8 + 4)
  let (fd, f) := EventLog.readInt 4 f
  let (offset, f) := EventLog.readInt 8 f
  let (data, f) := EventLog.readData f
  ((fd, offset, data), f)

/-- `delayed_write` on the open files of the process. -/
def delayedWrite : List WriteRecord → File → (Int → OpenFile) → Int → OpenFile
  | [], _, files => files
  | w :: ws, log, files =>
    let ((fd, offset, data), log) := readWrite log w.LRN
    let files := Function.update files fd ((files fd).lseek offset 0).2
    let files := Function.update files fd ((files fd).write data)
    delayedWrite ws log files

end Deferred

end TxFS
