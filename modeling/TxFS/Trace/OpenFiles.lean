import TxFS.Wire.Handler
import TxFS.Wire.Text

/-!
# The Open Files of the Replay Client

`transaction.c` remembers which descriptor an `open` has returned for which inode, in the table
`open_fd` with the index `open_fd_index`, and looks a file up by its inode for each `read`,
`write` and `lseek`. The index is set to 0 at `txn_beg` and never moved, so the table holds one
file.
-/

namespace TxFS

/-! ## The calls of a trace -/

/-- The call of a record with the texts of its arguments. -/
inductive TraceOp where
  | txnBeg
  | open (path flags : Msg)
  | read (path count : Msg)
  | write (path count : Msg)
  | lseek (path offset : Msg)
  /-- A call that does not look at the open files. -/
  | other
deriving DecidableEq, Repr

/-- The text in front of the first `c` and the text behind it. The loops of `main` look for `c`
    also behind the end of the string. -/
def splitAtChar (c : Char) (s : Msg) : Option (Msg × Msg) :=
  if c ∈ s then some (s.takeWhile (· ≠ c), (s.dropWhile (· ≠ c)).drop 1) else none

/-- `arg1` and `arg2`. -/
def twoArgs (s : Msg) : Option (Msg × Msg) := do
  let (arg1, s) ← splitAtChar ',' s
  let (arg2, _) ← splitAtChar ')' s
  some (arg1, arg2)

/-- The branches of `main` on the name of the call. -/
def opOf (syscall : Msg) : Option TraceOp := do
  let (call, args) ← splitAtChar '(' syscall
  if call = "txn_beg".toList then some .txnBeg
  else if call = "open".toList then return .open (← twoArgs args).1 (← twoArgs args).2
  else if call = "read".toList then return .read (← twoArgs args).1 (← twoArgs args).2
  else if call = "write".toList then return .write (← twoArgs args).1 (← twoArgs args).2
  else if call = "lseek".toList then return .lseek (← twoArgs args).1 (← twoArgs args).2
  else some .other

/-- The modes that `main` opens with. -/
inductive OpenMode where
  | rdonly
  | wronly
  | rdwr
  | wronlyAppend
deriving DecidableEq, Repr

/-- The tests on the second argument of `open`; with other flags `main` does not call it. -/
def openMode (flags : Msg) : Option OpenMode :=
  if flags = "O_RDONLY".toList then some .rdonly
  else if flags = "O_WRONLY".toList then some .wronly
  else if flags = "O_RDWR".toList then some .rdwr
  else if flags = "O_WRONLY|O_APPEND".toList ∨ flags = "O_APPEND".toList then some .wronlyAppend
  else none

/-! ## The main loop -/

/-- `struct open_files`. -/
structure OpenFile where
  inode : Int
  fd : Int
deriving DecidableEq, Repr

/-- The variables of `main` about open files. -/
structure OpenFiles where
  openFd : Nat → OpenFile
  openFdIndex : Nat
  fd : Int

/-- What the calls return that `main` makes for one record, as far as it decides about the
    descriptors. -/
structure Answers where
  /-- `inode_stat(arg1)`. -/
  inodeStat : Int
  /-- `open(arg1, ..)`. -/
  opened : Int
  /-- `read_from_file` for each buffer of a `write`. -/
  supplied : Nat → Bool

/-- A call on a descriptor. -/
inductive Request where
  | read (n : Nat)
  | write (n : Nat)
  | lseek (offset : Int)
deriving DecidableEq, Repr

/-- The sizes of the buffers that `n` bytes are read or written with. Each takes at least one
    byte, so as many turns are enough. -/
def bufferSizes : Nat → Nat → List Nat
  | 0, _ => []
  | fuel + 1, n =>
    if n = 0 then []
    else
      let size := if n ≥ maxBufferSize then maxBufferSize - 1 else n
      size :: bufferSizes fuel (n - size)

/-- The calls of a record on the descriptor of its file, each with the number of its buffer. -/
def requests (op : TraceOp) (a : Answers) : List (Request × Nat) :=
  match op with
  | .read _ count =>
    -- `read_bytes` is a `size_t`
    let readBytes := (Msg.intOfText count % 2 ^ 64).toNat
    (bufferSizes readBytes readBytes).zipIdx.map fun x => (.read x.1, x.2)
  | .write _ count =>
    -- `write_bytes` is an `int`, and a buffer that the data file does not fill is not written
    let writeBytes := (Msg.intOfText count).toNat
    ((bufferSizes writeBytes writeBytes).zipIdx.filter fun x => a.supplied x.2).map
      fun x => (.write x.1, x.2)
  | .lseek _ offset => [(.lseek (Msg.intOfText offset), 0)]
  | .txnBeg | .open _ _ | .other => []

namespace OpenFiles

/-- `for(i=0;i<=open_fd_index;i++) if(open_fd[i].inode == inode_num) break;` -/
def find (s : OpenFiles) (inode : Int) : Nat :=
  ((List.range (s.openFdIndex + 1)).find? fun i => (s.openFd i).inode = inode).getD
    (s.openFdIndex + 1)

/-- `open_fd[i].fd`. -/
def fileHandle (s : OpenFiles) (inode : Int) : Int := (s.openFd (s.find inode)).fd

/-- `txn_beg`: the table is reset. -/
def txnBeg (s : OpenFiles) : OpenFiles :=
  { s with openFd := fun _ => ⟨0, 0⟩, openFdIndex := 0 }

/-- `open`. -/
def opening (s : OpenFiles) (flags : Msg) (a : Answers) : OpenFiles :=
  let fd := if (openMode flags).isSome then a.opened else s.fd
  if fd ≠ -1 then
    { s with openFd := Function.update s.openFd s.openFdIndex ⟨a.inodeStat, fd⟩, fd := fd }
  else { s with fd := fd }

/-- The body of the main loop: the variables after it. -/
def exec (s : OpenFiles) (op : TraceOp) (a : Answers) : OpenFiles :=
  match op with
  | .txnBeg => s.txnBeg
  | .open _ flags => s.opening flags a
  | .read _ _ | .write _ _ | .lseek _ _ | .other => s

/-- The calls it makes, each with its descriptor. -/
def issued (s : OpenFiles) (op : TraceOp) (a : Answers) : List (Int × Request) :=
  (requests op a).map fun x => (s.fileHandle a.inodeStat, x.1)

end OpenFiles

/-! ## The right descriptor -/

/-- A record that the main loop executes, and what the calls return meanwhile. -/
structure Turn where
  syscall : Msg
  op : TraceOp
  parsed : opOf syscall = some op
  answers : Answers

namespace Turn

/-- The file of the call: files are told apart by the number that `inode_stat` returns. -/
def file (t : Turn) : Int := t.answers.inodeStat

/-- The record opens a file. -/
def Opens (t : Turn) : Prop :=
  match t.op with
  | .open _ flags => (openMode flags).isSome ∧ t.answers.opened ≠ -1
  | _ => False

instance (t : Turn) : Decidable t.Opens := by
  unfold Opens
  split <;> infer_instance

/-- The opens of the transaction that have succeeded, the most recent one first. -/
def opened (t : Turn) (opens : List OpenFile) : List OpenFile :=
  if t.op = .txnBeg then []
  else if t.Opens then ⟨t.file, t.answers.opened⟩ :: opens
  else opens

end Turn

/-- What the most recent open of the file has returned. -/
def mostRecent (opens : List OpenFile) (inode : Int) : Option Int :=
  (opens.find? fun o => o.inode = inode).map OpenFile.fd

/-- Along the records, each call on a descriptor uses what the most recent open of the file has
    returned. -/
def UsesMostRecent : OpenFiles → List OpenFile → List Turn → Prop
  | _, _, [] => True
  | s, opens, t :: ts =>
    (∀ call ∈ s.issued t.op t.answers, mostRecent opens t.file = some call.1) ∧
      UsesMostRecent (s.exec t.op t.answers) (t.opened opens) ts

/-- The file was opened last of all, or its most recent open has returned 0. -/
def LastOrZero (opens : List OpenFile) (inode : Int) : Prop :=
  (∃ o ∈ opens.head?, o.inode = inode) ∨ mostRecent opens inode = some 0

/-- Along the records, each record that makes a call on a descriptor makes it on such a file. -/
def AccessesLastOrZero : List OpenFile → List Turn → Prop
  | _, [] => True
  | opens, t :: ts =>
    (requests t.op t.answers ≠ [] → LastOrZero opens t.file) ∧
      AccessesLastOrZero (t.opened opens) ts

/-! ## The table -/

variable {s : OpenFiles} {opens : List OpenFile} {t : Turn} {ts : List Turn} {inode : Int}

theorem Turn.opened_of_other (hbeg : t.op ≠ .txnBeg) (hopen : ¬t.Opens) :
    t.opened opens = opens := by
  rw [Turn.opened, if_neg hbeg, if_neg hopen]

theorem Turn.opened_of_opens (hopen : t.Opens) :
    t.opened opens = ⟨t.file, t.answers.opened⟩ :: opens := by
  have hbeg : t.op ≠ .txnBeg := by
    intro hbeg
    unfold Turn.Opens at hopen
    rw [hbeg] at hopen
    exact hopen
  rw [Turn.opened, if_neg hbeg, if_pos hopen]

/-- The table holds the last open alone. -/
structure OpenFiles.HoldsLast (s : OpenFiles) (opens : List OpenFile) : Prop where
  index : s.openFdIndex = 0
  first : s.openFd 0 = opens.head?.getD ⟨0, 0⟩
  second : s.openFd 1 = ⟨0, 0⟩

theorem OpenFiles.holdsLast_txnBeg : s.txnBeg.HoldsLast [] := ⟨rfl, rfl, rfl⟩

/-- An open goes to the first entry, whatever is there: the index is never moved. -/
theorem OpenFiles.HoldsLast.opening {flags : Msg} {a : Answers} (h : s.HoldsLast opens)
    (hmode : (openMode flags).isSome) (hopen : a.opened ≠ -1) :
    (s.opening flags a).HoldsLast (⟨a.inodeStat, a.opened⟩ :: opens) := by
  have hself : Function.update s.openFd 0 ⟨a.inodeStat, a.opened⟩ 0 = ⟨a.inodeStat, a.opened⟩ :=
    Function.update_self ..
  have hsecond : Function.update s.openFd 0 ⟨a.inodeStat, a.opened⟩ 1 = s.openFd 1 :=
    Function.update_of_ne Nat.one_ne_zero ..
  rw [OpenFiles.opening, if_pos hmode, if_pos hopen, h.index]
  exact ⟨rfl, hself, hsecond.trans h.second⟩

theorem OpenFiles.HoldsLast.opening_failed {flags : Msg} {a : Answers} (h : s.HoldsLast opens)
    (hmode : (openMode flags).isSome) (hfail : a.opened = -1) :
    (s.opening flags a).HoldsLast opens := by
  rw [OpenFiles.opening, if_pos hmode, hfail, if_neg (not_not.mpr rfl)]
  exact ⟨h.index, h.first, h.second⟩

/-- A record keeps it so, as long as `main` knows the flags of its opens. -/
theorem OpenFiles.HoldsLast.exec (h : s.HoldsLast opens)
    (hflags : ∀ path flags, t.op = .open path flags → (openMode flags).isSome) :
    (s.exec t.op t.answers).HoldsLast (t.opened opens) := by
  -- only `txn_beg` and `open` touch the table
  have hother : t.op ≠ .txnBeg → (∀ path flags, t.op ≠ .open path flags) →
      t.opened opens = opens := by
    intro hbeg hopen
    refine Turn.opened_of_other hbeg fun hopens => ?_
    unfold Turn.Opens at hopens
    split at hopens
    · rename_i heq
      exact hopen _ _ heq
    · exact hopens
  cases hop : t.op with
  | txnBeg =>
    rw [Turn.opened, if_pos hop]
    exact holdsLast_txnBeg
  | «open» path flags =>
    have hmode := hflags path flags hop
    have hopens : t.Opens ↔ t.answers.opened ≠ -1 := by
      simp only [Turn.Opens, hop, hmode, true_and]
    by_cases hfail : t.answers.opened = -1
    · rw [Turn.opened_of_other (by rw [hop]; nofun) (fun ho => hopens.mp ho hfail)]
      exact h.opening_failed hmode hfail
    · rw [Turn.opened_of_opens (hopens.mpr hfail)]
      exact h.opening hmode hfail
  | read | write | lseek | other =>
    rw [hother (by rw [hop]; nofun) (by rw [hop]; nofun)]
    exact h

/-- What the search finds. -/
theorem OpenFiles.HoldsLast.fileHandle (h : s.HoldsLast opens) :
    s.fileHandle inode = if (s.openFd 0).inode = inode then (s.openFd 0).fd else 0 := by
  have hfind : s.find inode = if (s.openFd 0).inode = inode then 0 else 1 := by
    simp only [find, h.index]
    by_cases heq : (s.openFd 0).inode = inode <;> simp [List.range_succ, heq]
  rw [OpenFiles.fileHandle, hfind]
  split
  · rfl
  · rw [h.second]

/-- **One lookup is right** for the last file and for descriptor 0. -/
theorem OpenFiles.HoldsLast.mostRecent_iff (h : s.HoldsLast opens) :
    mostRecent opens inode = some (s.fileHandle inode) ↔ LastOrZero opens inode := by
  rw [h.fileHandle, h.first]
  cases opens with
  | nil => simp [mostRecent, LastOrZero]
  | cons o os =>
    by_cases heq : o.inode = inode
    · simp [mostRecent, LastOrZero, heq]
    · simp [mostRecent, LastOrZero, heq]

theorem OpenFiles.HoldsLast.issued_iff (h : s.HoldsLast opens) :
    (∀ call ∈ s.issued t.op t.answers, mostRecent opens t.file = some call.1) ↔
      (requests t.op t.answers ≠ [] → LastOrZero opens t.file) := by
  rw [← h.mostRecent_iff]
  constructor
  · intro hall hne
    obtain ⟨x, hx⟩ := List.exists_mem_of_ne_nil _ hne
    exact hall _ (List.mem_map_of_mem hx)
  · intro hright call hcall
    obtain ⟨x, hx, rfl⟩ := List.mem_map.mp hcall
    exact hright (List.ne_nil_of_mem hx)

theorem OpenFiles.HoldsLast.run_iff (h : s.HoldsLast opens)
    (hflags : ∀ t ∈ ts, ∀ path flags, t.op = .open path flags → (openMode flags).isSome) :
    UsesMostRecent s opens ts ↔ AccessesLastOrZero opens ts := by
  induction ts generalizing s opens with
  | nil => exact Iff.rfl
  | cons t ts ih =>
    have hstep := h.exec (hflags t (List.mem_cons_self ..))
    have hrest := ih hstep fun t' ht' => hflags t' (List.mem_cons_of_mem t ht')
    exact and_congr h.issued_iff hrest

/-- **The right descriptors are used just when a transaction comes back to no earlier file**. -/
theorem usesMostRecent_iff
    (hflags : ∀ t ∈ ts, ∀ path flags, t.op = .open path flags → (openMode flags).isSome) :
    UsesMostRecent s.txnBeg [] ts ↔ AccessesLastOrZero [] ts :=
  OpenFiles.holdsLast_txnBeg.run_iff hflags

/-! ### Two files -/

/-- `/a` is inode 10, `/b` inode 11; the opens return 3 and 4. -/
def openA : Turn :=
  ⟨"open(/a,O_RDWR)".toList, .open "/a".toList "O_RDWR".toList, by decide,
    ⟨10, 3, fun _ => true⟩⟩

def openB : Turn :=
  ⟨"open(/b,O_RDWR)".toList, .open "/b".toList "O_RDWR".toList, by decide,
    ⟨11, 4, fun _ => true⟩⟩

def lseekA : Turn :=
  ⟨"lseek(/a,7)".toList, .lseek "/a".toList "7".toList, by decide,
    ⟨10, 0, fun _ => true⟩⟩

/-- The variables before the transaction. -/
def noOpenFiles : OpenFiles := ⟨fun _ => ⟨0, 0⟩, 0, 0⟩

/-- The seek on `/a` behind an open of `/b` goes to descriptor 0. -/
theorem seek_on_descriptor_zero :
    ((noOpenFiles.txnBeg.exec openA.op openA.answers).exec openB.op openB.answers).issued
        lseekA.op lseekA.answers = [(0, .lseek 7)] ∧
      mostRecent (openB.opened (openA.opened [])) lseekA.file = some 3 ∧
      ¬UsesMostRecent noOpenFiles.txnBeg [] [openA, openB, lseekA] := by
  have hissued : ((noOpenFiles.txnBeg.exec openA.op openA.answers).exec openB.op
      openB.answers).issued lseekA.op lseekA.answers = [(0, .lseek 7)] := by decide
  refine ⟨hissued, by decide, ?_⟩
  rintro ⟨-, -, hseek, -⟩
  have hzero := hseek (0, .lseek 7) (hissued ▸ List.mem_cons_self ..)
  exact absurd hzero (by decide)

/-- One file alone is sought with its own descriptor. -/
theorem seek_on_own_descriptor :
    UsesMostRecent noOpenFiles.txnBeg [] [openA, lseekA] := by
  refine (usesMostRecent_iff ?_).mpr ⟨?_, ?_, trivial⟩
  · intro t ht path flags hop
    rcases List.mem_pair.mp ht with rfl | rfl
    · cases hop
      decide
    · cases hop
  · intro hne
    exact absurd rfl hne
  · intro _
    exact .inl ⟨⟨10, 3⟩, rfl, rfl⟩

end TxFS
