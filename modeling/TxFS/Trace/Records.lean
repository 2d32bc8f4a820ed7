import TxFS.Lib.BinaryFile
import TxFS.Wire.Text

/-!
# The Trace of the Replay Client

`transaction.c` replays a trace of system calls. Its main loop reads a record as two lines of
text, the transaction id and the call. The loop that skips the rest of an aborted transaction
reads a record as two binary integers, the id and the length of the call, with the call behind
them.
-/

namespace TxFS

open BinaryFile

/-! ## Lines -/

/-- `FILE_BUFFER_SIZE`. -/
def fileBufferSize : Nat := 100

/-- The next line with its newline, at most `n` bytes of it. -/
def lineOf : Nat → List UInt8 → List UInt8
  | 0, _ => []
  | _ + 1, [] => []
  | n + 1, b :: bs => if b = 10 then [b] else b :: lineOf n bs

/-- `fgets(f_buffer, size, fd_trace)`. -/
def fgets (size : Nat) (f : File) : Option (List UInt8 × File) :=
  let line := lineOf (size - 1) f.rest
  if line = [] then none else some (line, f.advance line.length)

/-- The C string in the buffer. -/
def bufferText (line : List UInt8) : Msg := Msg.text (line.map fun b => Char.ofNat b.toNat)

/-- The text without the newline at its end. -/
def stripNewline (s : Msg) : Msg := if s.getLast? = some '\n' then s.dropLast else s

/-! ## Records -/

/-- `struct trace_rec`, without `syscall_length`, which is the length of `syscall`. -/
structure TraceRec where
  txnid : Int
  syscall : Msg
deriving DecidableEq, Repr

/-- The reader of the main loop. At the end of the file the second `fgets` leaves the buffer
    empty. -/
def readRecord (f : File) : Option (TraceRec × File) := do
  let (idLine, f) ← fgets fileBufferSize f
  let (callLine, f) := (fgets fileBufferSize f).getD ([], f)
  some (⟨Msg.intOfText (bufferText idLine), stripNewline (bufferText callLine)⟩, f)

/-- `fread` of an `int` variable: if the file ends before, the variable keeps its other bytes. -/
def readInt (old : Int) (f : File) : Int × File :=
  let (bs, f) := f.read 4
  (bytesInt (bs ++ (intBytes 4 old).drop bs.length), f)

/-- The loop that skips the records of an aborted transaction, with the current value of
    `t.syscall_length`: `some none` at the end of the file, else the place it has found. The
    fuel is used up if the loop does not end. -/
def skipLoop : Nat → Int → Int → File → Option (Option File)
  | 0, _, _, _ => none
  | n + 1, curTxnid, syscallLength, f =>
    if (f.read 4).1.length < 4 then some none
    else
      let f' := (f.read 4).2
      -- the next transaction: go back in front of its id
      if bytesInt (f.read 4).1 ≠ curTxnid then some (some (f'.seekCur (-4)))
      else
        let (syscallLength, f'') := readInt syscallLength f'
        skipLoop n curTxnid syscallLength (f''.seekCur syscallLength)

/-- One turn of the main loop, at whose end the trace is at the next record to be read, or the
    loop is left. `terminate` says whether the operation of the record has failed. -/
def turn (fuel : Nat) (terminate : Bool) (f : File) : Option (Option File) :=
  match readRecord f with
  | none => some none
  | some (t, f) =>
    if terminate then skipLoop fuel t.txnid t.syscall.length f else some (some f)

/-! ## What a reader leaves -/

variable {f f' : File} {t : TraceRec} {n size : Nat} {bs line : List UInt8}

theorem lineOf_eq_nil : lineOf n bs = [] ↔ n = 0 ∨ bs = [] := by
  cases n with
  | zero => simp [lineOf]
  | succ n =>
    cases bs with
    | nil => simp [lineOf]
    | cons b bs =>
      simp only [lineOf, Nat.add_one_ne_zero, reduceCtorEq, or_self, iff_false]
      split <;> exact List.cons_ne_nil _ _

theorem fgets_eq_none : fgets fileBufferSize f = none ↔ f.rest = [] := by
  unfold fgets
  dsimp only
  split
  · rename_i hnil
    simpa [lineOf_eq_nil, fileBufferSize] using hnil
  · rename_i hne
    have hrest : f.rest ≠ [] := fun hrest => hne (by rw [hrest]; rfl)
    simp [hrest]

theorem pos_fgets (h : fgets size f = some (line, f')) :
    f'.bytes = f.bytes ∧ f.pos < f'.pos := by
  unfold fgets at h
  dsimp only at h
  split at h
  · cases h
  · rename_i hne
    cases h
    refine ⟨rfl, ?_⟩
    show f.pos < f.pos + _
    have hlen := List.length_pos_iff.mpr hne
    omega

/-- The main loop ends where nothing is left. -/
theorem readRecord_eq_none : readRecord f = none ↔ f.rest = [] := by
  rw [← fgets_eq_none]
  unfold readRecord
  cases fgets fileBufferSize f with
  | none => exact iff_of_true rfl rfl
  | some x => exact iff_of_false nofun nofun

/-- A record takes at least one byte. -/
theorem pos_readRecord (h : readRecord f = some (t, f')) :
    f'.bytes = f.bytes ∧ f.pos < f'.pos := by
  simp only [readRecord, Option.bind_eq_bind, Option.bind_eq_some_iff, Option.some.injEq,
    Prod.mk.injEq] at h
  obtain ⟨⟨idLine, f₁⟩, hid, -, rfl⟩ := h
  obtain ⟨hbytes, hpos⟩ := pos_fgets hid
  cases hcall : fgets fileBufferSize f₁ with
  | none => exact ⟨hbytes, hpos⟩
  | some x =>
    obtain ⟨callLine, f₂⟩ := x
    obtain ⟨hbytes', hpos'⟩ := pos_fgets hcall
    exact ⟨hbytes'.trans hbytes, hpos.trans hpos'⟩

/-! ## Text traces -/

/-- A line that fits the buffer of the reader, without its newline. -/
structure TraceLine where
  bytes : List UInt8
  no_newline : (10 : UInt8) ∉ bytes
  fits : bytes.length + 1 < fileBufferSize

/-- The line as it stands in the trace. -/
def TraceLine.text (l : TraceLine) : List UInt8 := l.bytes ++ [10]

end TxFS
