import TxFS.Lib.BinaryFile

/-!
# Log Records

The format of a record of the event log: what the eleven `fwrite` calls of a log function put
behind the end of the file, and how the sequential reader `test_log` takes it apart again.
The sizes are those of the x86-64 ABI: 8 bytes for `long`, `off_t` and `size_t`, 4 for `int`
and for an enumeration.
-/

namespace TxFS

open BinaryFile

namespace EventLog

/-! ## Values -/

/-- A value of type `int`. -/
def IsInt (x : Int) : Prop := -(2 ^ 31) ≤ x ∧ x < 2 ^ 31

/-- A value of type `long`. -/
def IsLong (x : Int) : Prop := -(2 ^ 63) ≤ x ∧ x < 2 ^ 63

instance (x : Int) : Decidable (IsInt x) := inferInstanceAs (Decidable (_ ∧ _))

instance (x : Int) : Decidable (IsLong x) := inferInstanceAs (Decidable (_ ∧ _))

theorem bytesInt_int {x : Int} (h : IsInt x) : bytesInt (intBytes 4 x) = x := by
  unfold IsInt at h
  apply bytesInt_intBytes
  · norm_num
    omega
  · norm_num
    omega

theorem bytesInt_long {x : Int} (h : IsLong x) : bytesInt (intBytes 8 x) = x := by
  unfold IsLong at h
  apply bytesInt_intBytes
  · norm_num
    omega
  · norm_num
    omega

theorem bytesNat_size {n : Nat} (h : n < 2 ^ 64) : bytesNat (natBytes 8 n) = n := by
  rw [bytesNat_natBytes]
  exact Nat.mod_eq_of_lt h

/-- What `strcpy` copies of a buffer: the string and its NUL. -/
def cString (bs : List UInt8) : List UInt8 := bs.takeWhile (· ≠ 0) ++ [0]

/-- `"NA\n"` without its NUL. -/
def na : List UInt8 := [78, 65, 10]

/-! ## Records -/

/-- `enum log_type`. -/
inductive LogType where
  | txnBeg
  | update
  | rename
  | creat
  | unlink
  | txnCommit
  | txnAbort
  | txnEnd
deriving DecidableEq, Repr

/-- The values of the enumeration start with 1. -/
def LogType.code : LogType → Int
  | txnBeg => 1
  | update => 2
  | rename => 3
  | creat => 4
  | unlink => 5
  | txnCommit => 6
  | txnAbort => 7
  | txnEnd => 8

theorem LogType.isInt_code (k : LogType) : IsInt k.code := by cases k <;> decide

/-- What a record says, apart from its links. -/
structure Entry where
  txnId : Int
  recordType : Int
  fd : Int
  offset : Int
  data : List UInt8
  data1 : List UInt8
deriving DecidableEq, Repr

/-- `struct log_record`. The lengths `write_length` and `write_length1` are those of `data`
    and `data1`. -/
structure LogRecord extends Entry where
  LRN : Int
  prevLRN : Int
  nextLRN : Int
deriving DecidableEq, Repr

namespace LogRecord

/-- The arguments of the `fwrite` calls, in order. -/
def fields (t : LogRecord) : List (List UInt8) :=
  [intBytes 8 t.LRN, intBytes 4 t.txnId, intBytes 8 t.prevLRN, intBytes 8 t.nextLRN,
   intBytes 4 t.recordType, intBytes 4 t.fd, intBytes 8 t.offset,
   natBytes 8 t.data.length, t.data, natBytes 8 t.data1.length, t.data1]

def bytes (t : LogRecord) : List UInt8 := t.fields.flatten

/-- The values are of the types of their fields. -/
structure InRange (t : LogRecord) : Prop where
  LRN : IsLong t.LRN
  txnId : IsInt t.txnId
  prevLRN : IsLong t.prevLRN
  nextLRN : IsLong t.nextLRN
  recordType : IsInt t.recordType
  fd : IsInt t.fd
  offset : IsLong t.offset
  data : t.data.length < 2 ^ 64
  data1 : t.data1.length < 2 ^ 64

theorem length_bytes (t : LogRecord) : t.bytes.length = 60 + t.data.length + t.data1.length := by
  simp [bytes, fields]
  omega

/-- `next_LRN` is at offset 20 of a record, and a change of it changes nothing else. -/
theorem bytes_nextLRN (t : LogRecord) (next : Int) :
    ∃ before after, before.length = 20 ∧ t.bytes = before ++ intBytes 8 t.nextLRN ++ after ∧
      bytes { t with nextLRN := next } = before ++ intBytes 8 next ++ after := by
  refine ⟨intBytes 8 t.LRN ++ intBytes 4 t.txnId ++ intBytes 8 t.prevLRN,
    intBytes 4 t.recordType ++ intBytes 4 t.fd ++ intBytes 8 t.offset ++
      natBytes 8 t.data.length ++ t.data ++ natBytes 8 t.data1.length ++ t.data1, ?_, ?_, ?_⟩
  · simp
  · simp [bytes, fields]
  · simp [bytes, fields]

end LogRecord

/-- A sequence of records in the file. -/
def encode (rs : List LogRecord) : List UInt8 := rs.flatMap LogRecord.bytes

@[simp] theorem encode_nil : encode [] = [] := rfl

@[simp] theorem encode_cons (r : LogRecord) (rs : List LogRecord) :
    encode (r :: rs) = r.bytes ++ encode rs := rfl

@[simp] theorem encode_append (rs rs' : List LogRecord) :
    encode (rs ++ rs') = encode rs ++ encode rs' := List.flatMap_append

/-! ## Writing a record -/

/-- `fseek(event_log, 0, SEEK_END)` and the `fwrite` calls. -/
def appendRecord (f : File) (t : LogRecord) : File := t.fields.foldl File.write f.seekEnd

/-- The writes go one behind the other. -/
theorem foldl_write (bss : List (List UInt8)) (xs : List UInt8) :
    bss.foldl File.write ⟨xs, xs.length⟩ = ⟨xs ++ bss.flatten, (xs ++ bss.flatten).length⟩ := by
  induction bss generalizing xs with
  | nil => simp
  | cons bs bss ih => rw [List.foldl_cons, File.write_end, ih, List.flatten_cons, List.append_assoc]

theorem appendRecord_bytes (f : File) (t : LogRecord) :
    (appendRecord f t).bytes = f.bytes ++ t.bytes :=
  congrArg File.bytes (foldl_write t.fields f.bytes)

/-! ## The sequential reader -/

/-- `fread` of an integer of `n` bytes. -/
def readInt (n : Nat) (f : File) : Int × File := (bytesInt (f.read n).1, (f.read n).2)

/-- `fread` of a `size_t` and of as many bytes. -/
def readData (f : File) : List UInt8 × File := (f.read 8).2.read (bytesNat (f.read 8).1)

/-- The body of the loop of `test_log`, behind the `fread` of `t.LRN`. -/
def readRecord (lrn : Int) (f : File) : LogRecord × File :=
  let (txnId, f) := readInt 4 f
  let (prevLRN, f) := readInt 8 f
  let (nextLRN, f) := readInt 8 f
  let (recordType, f) := readInt 4 f
  let (fd, f) := readInt 4 f
  let (offset, f) := readInt 8 f
  let (data, f) := readData f
  let (data1, f) := readData f
  (⟨⟨txnId, recordType, fd, offset, data, data1⟩, lrn, prevLRN, nextLRN⟩, f)

/-- The reader goes forward. -/
structure Forward (f f' : File) : Prop where
  bytes : f'.bytes = f.bytes
  pos : f.pos ≤ f'.pos

theorem Forward.trans {f f' f'' : File} (h : Forward f f') (h' : Forward f' f'') :
    Forward f f'' := ⟨h'.bytes.trans h.bytes, Nat.le_trans h.pos h'.pos⟩

theorem forward_read (f : File) (n : Nat) : Forward f (f.read n).2 := ⟨rfl, Nat.le_add_right ..⟩

theorem forward_readData (f : File) : Forward f (readData f).2 :=
  (forward_read f 8).trans (forward_read _ _)

theorem forward_readRecord (lrn : Int) (f : File) : Forward f (readRecord lrn f).2 := by
  apply (forward_read f 4).trans
  apply (forward_read _ 8).trans
  apply (forward_read _ 8).trans
  apply (forward_read _ 4).trans
  apply (forward_read _ 4).trans
  apply (forward_read _ 8).trans
  apply (forward_readData _).trans
  exact forward_readData _

/-- `while (fread(&t.LRN, sizeof(long), 1, file_logging) != 0)`. -/
def readLog (f : File) : List LogRecord :=
  if (f.read 8).1.length < 8 then []
  else
    let out := readRecord (bytesInt (f.read 8).1) (f.read 8).2
    out.1 :: readLog out.2
termination_by f.bytes.length - f.pos
decreasing_by
  have hforward := (forward_readRecord (bytesInt (f.read 8).1) (f.read 8).2)
  have hle : (f.read 8).1.length ≤ f.bytes.length - f.pos := File.length_read_le
  have hpos : (f.read 8).2.pos = f.pos + (f.read 8).1.length := rfl
  have hmono := hforward.pos
  rw [hforward.bytes]
  show f.bytes.length - _ < f.bytes.length - f.pos
  omega

/-! ## What the reader finds -/

variable {f : File} {n : Nat} {x : Int} {zs data : List UInt8}

theorem readInt_rest (h : f.rest = intBytes n x ++ zs) (hx : bytesInt (intBytes n x) = x) :
    readInt n f = (x, f.advance n) ∧ (f.advance n).rest = zs := by
  refine ⟨?_, File.rest_advance h length_intBytes⟩
  rw [readInt, File.read_rest h length_intBytes, hx]

theorem readData_rest (h : f.rest = natBytes 8 data.length ++ (data ++ zs))
    (hlen : data.length < 2 ^ 64) :
    ∃ f', readData f = (data, f') ∧ f'.rest = zs := by
  have hlength := bytesNat_size hlen
  have hrest := File.rest_advance h length_natBytes
  refine ⟨(f.advance 8).advance data.length, ?_, File.rest_advance hrest rfl⟩
  rw [readData, File.read_rest h length_natBytes, hlength, File.read_rest hrest rfl]

/-- A record in the file, behind its LRN, `txn_id`, links and type. -/
theorem rest_record (pre post : List LogRecord) (r : LogRecord) :
    File.rest ⟨encode (pre ++ r :: post), (encode pre).length + 32⟩ =
      intBytes 4 r.fd ++ (intBytes 8 r.offset ++ (natBytes 8 r.data.length ++ (r.data ++
        (natBytes 8 r.data1.length ++ (r.data1 ++ encode post))))) := by
  let front := encode pre ++ (intBytes 8 r.LRN ++ intBytes 4 r.txnId ++ intBytes 8 r.prevLRN ++
    intBytes 8 r.nextLRN ++ intBytes 4 r.recordType)
  have hfront : front.length = (encode pre).length + 32 := by
    simp [front]
  have hsplit : encode (pre ++ r :: post) = front ++ (intBytes 4 r.fd ++ (intBytes 8 r.offset ++
      (natBytes 8 r.data.length ++ (r.data ++ (natBytes 8 r.data1.length ++
        (r.data1 ++ encode post)))))) := by
    simp [front, encode_append, LogRecord.bytes, LogRecord.fields]
  rw [hsplit]
  exact File.rest_mk hfront

/-- The reader takes a record apart as it was put together. -/
theorem readRecord_rest {t : LogRecord} (ht : t.InRange)
    (h : f.rest = t.fields.tail.flatten ++ zs) :
    ∃ f', readRecord t.LRN f = (t, f') ∧ f'.rest = zs := by
  simp only [LogRecord.fields, List.tail_cons, List.flatten_cons, List.flatten_nil,
    List.append_nil, List.append_assoc] at h
  obtain ⟨htxn, h⟩ := readInt_rest h (bytesInt_int ht.txnId)
  obtain ⟨hprev, h⟩ := readInt_rest h (bytesInt_long ht.prevLRN)
  obtain ⟨hnext, h⟩ := readInt_rest h (bytesInt_long ht.nextLRN)
  obtain ⟨htype, h⟩ := readInt_rest h (bytesInt_int ht.recordType)
  obtain ⟨hfd, h⟩ := readInt_rest h (bytesInt_int ht.fd)
  obtain ⟨hoffset, h⟩ := readInt_rest h (bytesInt_long ht.offset)
  obtain ⟨f₁, hdata, h⟩ := readData_rest h ht.data
  obtain ⟨f₂, hdata1, h⟩ := readData_rest h ht.data1
  refine ⟨f₂, ?_, h⟩
  simp only [readRecord, htxn, hprev, hnext, htype, hfd, hoffset, hdata, hdata1]

/-- **The sequential reader** finds exactly the records of the file. -/
theorem readLog_encode {rs : List LogRecord} (hrs : ∀ r ∈ rs, r.InRange)
    (h : f.rest = encode rs) : readLog f = rs := by
  induction rs generalizing f with
  | nil =>
    -- the loop ends with the first `fread` that finds nothing
    have hread : f.read 8 = ([], f.advance 0) := by
      simp only [File.read, show f.bytes.drop f.pos = [] from h, List.take_nil]
      rfl
    rw [readLog, hread]
    rfl
  | cons r rs ih =>
    have hr := hrs r (List.mem_cons_self ..)
    have hsplit : f.rest = intBytes 8 r.LRN ++ (r.fields.tail.flatten ++ encode rs) := by
      rw [h, encode_cons, LogRecord.bytes]
      simp [LogRecord.fields]
    have hread := File.read_rest hsplit length_intBytes
    obtain ⟨f', hrecord, hrest⟩ := readRecord_rest hr (File.rest_advance hsplit length_intBytes)
    rw [readLog, hread, if_neg (by simp), bytesInt_long hr.LRN, hrecord]
    exact congrArg (r :: ·) (ih (fun r hr => hrs r (List.mem_cons_of_mem _ hr)) hrest)

end EventLog

end TxFS
