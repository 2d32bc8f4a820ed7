import TxFS.Yaffs.Seek

/-!
# Open Files of YAFFS

The three tables of `yaffsfs.c` with their reference counts. A handle is a number of a client,
and `yaffs_dup` makes a second handle of the same descriptor; a descriptor has the position and
the access mode of one `yaffs_open`; an open inode is an object that some descriptor refers to.

What the path of a request leads to is an input: `yaffsfs_FindObject`, `yaffsfs_FollowLink` and
`yaffs_create_file` work on objects that are not in the repository. An outer `none` is a `NULL`
pointer that the code follows.

A call, or a part of a read or a write between two pauses, is one event. This takes `yaffsfs_Lock`
for a lock that keeps other threads out. The one in `yaffcfg.c` is empty: with it the events are
the calls of one thread, or of threads whose calls do not overlap inside of these parts.

`fdId` and `useCount` are `short int` in the source, and integers here: a handle has fewer than
`2 ^ 15` uses at a time. The type of `handleCount` is in a header that is not in the repository.
-/

namespace TxFS

/-! ## Types -/

/-- The codes of `yaffsfs_SetError`. -/
inductive YaffsErrno where
  | EFAULT | ENAMETOOLONG | ENFILE | EISDIR | EEXIST | EROFS | EACCES | EBUSY | ENOTDIR | ELOOP
  | ENOENT | ENOSPC | EBADF | ENOMEM
deriving DecidableEq, Repr

/-- Calls of the functions of YAFFS that work on an open object. -/
inductive GutsCall (Obj : Type) where
  /-- `yaffs_flush_file`. -/
  | flushFile (obj : Obj)
  /-- `yaffs_flush_file_abort`. -/
  | flushFileAbort (obj : Obj)
  /-- `yaffs_del_obj`. -/
  | delObj (obj : Obj)
  /-- `yaffs_resize_file` to length 0. -/
  | truncate (obj : Obj)
deriving DecidableEq, Repr

/-- The fields of `yaffsfs_FileDes` that seeks do not touch. -/
structure FileDesMode where
  reading : Bool := false
  writing : Bool := false
  append : Bool := false
  shareRead : Bool := false
  shareWrite : Bool := false
deriving DecidableEq, Repr

/-- The tables with their counts, and what the code reads and writes of the objects. -/
structure YaffsTables (Obj : Type) extends YaffsFiles Obj where
  mode : Nat → FileDesMode
  /-- The field `count` of `yaffsfs_inode`. -/
  count : Nat → Int
  /-- `my_inode`, as an index of `yaffsfs_inode`. -/
  myInode : Obj → Option Int
  unlinked : Obj → Bool
  myDev : Obj → Int
  /-- `yaffs_get_equivalent_obj`: the object that a hard link stands for. -/
  getEquivalentObj : Obj → Obj
  getEquivalentObj_idem : ∀ obj, getEquivalentObj (getEquivalentObj obj) = getEquivalentObj obj
  /-- The argument of the last `yaffsfs_SetError`. -/
  error : Option YaffsErrno
  calls : List (GutsCall Obj)

/-- `oflag & (O_RDWR | O_RDONLY | O_WRONLY)`. -/
inductive RwFlags where
  | rdonly
  | wronly
  | rdwr
  /-- `O_WRONLY | O_RDWR`. -/
  | neither
deriving DecidableEq, Repr

/-- `oflag`. -/
structure OpenFlags where
  rwflags : RwFlags
  creat : Bool := false
  excl : Bool := false
  trunc : Bool := false
  append : Bool := false
deriving DecidableEq, Repr

/-- The types of an object that an open tells apart. -/
inductive ObjType where
  | file
  | directory
  | other
deriving DecidableEq, Repr

/-- What an open reads of the object that its path leads to. -/
structure FoundObj (Obj : Type) where
  obj : Obj
  variantType : ObjType
  /-- `yst_mode & S_IREAD`. -/
  mayRead : Bool
  /-- `yst_mode & S_IWRITE`. -/
  mayWrite : Bool
  /-- `my_dev->read_only`. -/
  readOnly : Bool

/-- What the lookups of an open return. -/
structure Lookup (Obj : Type) where
  /-- `yaffsfs_FindObject`, and `yaffsfs_FollowLink` behind it. -/
  obj : Option (FoundObj Obj)
  /-- `yaffsfs_FindDirectory`, with `my_dev->read_only` of the directory. -/
  dir : Option Bool
  notDir : Bool
  loop : Bool
  /-- `yaffs_create_file`, where it is called. -/
  created : Option Obj

/-- The argument `path`. -/
inductive OpenPath (Obj : Type) where
  | null
  /-- `yaffsfs_CheckPath` refuses it. -/
  | tooLong
  | path (l : Lookup Obj)

namespace YaffsTables

variable {Obj : Type} [DecidableEq Obj]

def setError (y : YaffsTables Obj) (e : YaffsErrno) : YaffsTables Obj := { y with error := some e }

def call (y : YaffsTables Obj) (c : GutsCall Obj) : YaffsTables Obj :=
  { y with calls := y.calls ++ [c] }

def setHandle (y : YaffsTables Obj) (h : Nat) (p : YaffsHandle) : YaffsTables Obj :=
  { y with handle := Function.update y.handle h p }

def setFd (y : YaffsTables Obj) (f : Nat) (handleCount inodeId : Int) : YaffsTables Obj :=
  { y with fd := Function.update y.fd f { y.fd f with handleCount, inodeId } }

def setCount (y : YaffsTables Obj) (i : Nat) (count : Int) : YaffsTables Obj :=
  { y with count := Function.update y.count i count }

/-! ## Inodes -/

/-- `yaffsfs_InitHandles`. The flag `yaffsfs_handlesInitialised` is never set, so every call
    empties the tables. -/
def initHandles (y : YaffsTables Obj) : YaffsTables Obj :=
  { y with
    inode := fun i => if i < y.nHandles then none else y.inode i
    count := fun i => if i < y.nHandles then 0 else y.count i
    fd := fun f => if f < y.nHandles then ⟨0, -1, 0, by decide⟩ else y.fd f
    mode := fun f => if f < y.nHandles then {} else y.mode f
    handle := fun h => if h < y.nHandles then ⟨-1, 0⟩ else y.handle h }

/-- `yaffsfs_FindInodeIdForObject`; `none` is -1. -/
def findInodeIdForObject (y : YaffsTables Obj) (obj : Obj) : Option Nat :=
  (List.range y.nHandles).find? fun i => y.inode i = some (y.getEquivalentObj obj)

/-- `yaffsfs_GetInodeIdForObject`; `none` is -1. -/
def getInodeIdForObject (y : YaffsTables Obj) (obj : Obj) : Option Nat × YaffsTables Obj :=
  let obj := y.getEquivalentObj obj
  let ret := y.findInodeIdForObject obj <|> (List.range y.nHandles).find? fun i => y.inode i = none
  match ret with
  | none => (none, y)
  | some i =>
    let count := if y.inode i = none then 0 else y.count i
    (some i, { y with inode := Function.update y.inode i (some obj) }.setCount i (count + 1))

/-- `yaffsfs_CountHandles`. -/
def countHandles (y : YaffsTables Obj) (obj : Obj) : Int :=
  match y.findInodeIdForObject obj with
  | some i => y.count i
  | none => 0

/-- `yaffsfs_ReleaseInode`. -/
def releaseInode (y : YaffsTables Obj) (i : Nat) : Option (YaffsTables Obj) := do
  let obj ← y.inode i
  let y := if y.unlinked obj then y.call (.delObj obj) else y
  some { y with
    myInode := Function.update y.myInode obj none
    inode := Function.update y.inode i none }

/-- `yaffsfs_PutInode`. -/
def putInode (y : YaffsTables Obj) (inodeId : Int) : Option (YaffsTables Obj) :=
  if 0 ≤ inodeId ∧ inodeId < y.nHandles then
    let i := inodeId.toNat
    let y := y.setCount i (y.count i - 1)
    if y.count i ≤ 0 then (y.releaseInode i).map fun y => y.setCount i 0 else some y
  else some y

/-! ## Handles -/

/-- `yaffsfs_NewHandle`; `none` is -1. -/
def newHandle (y : YaffsTables Obj) : Option (Nat × YaffsTables Obj) :=
  ((List.range y.nHandles).find? fun h => (y.handle h).useCount < 1).map fun h =>
    (h, y.setHandle h ⟨-1, 1⟩)

/-- `yaffsfs_NewHandleAndFileDes`; `none` is -1. -/
def newHandleAndFileDes (y : YaffsTables Obj) : Option Nat × YaffsTables Obj :=
  match y.newHandle with
  | none => (none, y)
  | some (h, y) =>
    match (List.range y.nHandles).find? fun f => (y.fd f).handleCount < 1 with
    | some f =>
      (some h, { y with
        fd := Function.update y.fd f ⟨1, -1, 0, by decide⟩
        mode := Function.update y.mode f {} }.setHandle h ⟨f, 1⟩)
    -- "Dump the handle because we could not get a fd"
    | none => (none, y.setHandle h { y.handle h with useCount := 0 })

/-- `yaffsfs_GetHandle`. -/
def getHandle (y : YaffsTables Obj) (h : Int) : YaffsTables Obj :=
  match y.handleToPointer h with
  | some p =>
    if p.useCount > 0 then y.setHandle h.toNat { p with useCount := p.useCount + 1 } else y
  | none => y

/-- `yaffsfs_PutFileDes`. -/
def putFileDes (y : YaffsTables Obj) (fdId : Int) : Option (YaffsTables Obj) :=
  if 0 ≤ fdId ∧ fdId < y.nHandles then
    let f := fdId.toNat
    let inodeId := (y.fd f).inodeId
    let y := y.setFd f ((y.fd f).handleCount - 1) inodeId
    if (y.fd f).handleCount < 1 ∧ inodeId ≥ 0 then
      (y.putInode inodeId).map fun y => y.setFd f (y.fd f).handleCount (-1)
    else some y
  else some y

/-- `yaffsfs_PutHandle`. -/
def putHandle (y : YaffsTables Obj) (h : Int) : Option (YaffsTables Obj) :=
  match y.handleToPointer h with
  | some p =>
    if p.useCount > 0 then
      let y := y.setHandle h.toNat { p with useCount := p.useCount - 1 }
      if p.useCount - 1 < 1 then
        (y.putFileDes p.fdId).map fun y => y.setHandle h.toNat { y.handle h.toNat with fdId := -1 }
      else some y
    else some y
  | none => some y

/-- One round of the loop of `yaffsfs_BreakDeviceHandles`. -/
def breakHandle (dev : Int) (y : YaffsTables Obj) (i : Nat) : Option (YaffsTables Obj) :=
  let fd := y.handleToFileDes i
  let obj := y.handleToObject i
  let y := if (y.handle i).useCount > 0 then y.setHandle i ⟨0, 0⟩ else y
  match fd, obj with
  | some f, some obj =>
    if (y.fd f).handleCount > 0 ∧ y.myDev obj = dev then
      let inodeId := (y.fd f).inodeId
      ((y.setFd f 0 inodeId).putInode inodeId).map fun y => y.setFd f (y.fd f).handleCount (-1)
    else some y
  | _, _ => some y

/-- `yaffsfs_BreakDeviceHandles`. -/
def breakDeviceHandles (y : YaffsTables Obj) (dev : Int) : Option (YaffsTables Obj) :=
  (List.range y.nHandles).foldlM (breakHandle dev) y

/-- `yaffsfs_IsDevBusy`. -/
def isDevBusy (y : YaffsTables Obj) (dev : Int) : Bool :=
  (List.range y.nHandles).any fun i => (y.handleToObject i).any fun obj => y.myDev obj = dev

/-! ## The calls of the clients -/

/-- `yaffs_dup`. -/
def yaffsDup (y : YaffsTables Obj) (h : Int) : Int × YaffsTables Obj :=
  match y.handleToFileDes h with
  | none => (-1, y.setError .EBADF)
  | some f =>
    match y.newHandle with
    | none => (-1, y.setError .ENOMEM)
    | some (h', y') =>
      (h', (y'.setHandle h' ⟨(y.handle h.toNat).fdId, 1⟩).setFd f ((y.fd f).handleCount + 1)
        (y.fd f).inodeId)

/-- The descriptors that the loop of `yaffs_open_sharing` looks at. -/
def sharers (y : YaffsTables Obj) (obj : Obj) : List Nat :=
  (List.range y.nHandles).filter fun f => (y.fd f).handleCount > 0 ∧ (y.fd f).inodeId ≥ 0 ∧
    y.inode (y.fd f).inodeId.toNat = some obj

/-- The mode that an open asks for. -/
def requestedMode (flags : OpenFlags) (shareRead shareWrite : Bool) : FileDesMode where
  reading := flags.rwflags = .rdwr ∨ flags.rwflags = .rdonly
  writing := flags.rwflags = .rdwr ∨ flags.rwflags = .wronly
  append := flags.append
  shareRead := shareRead
  shareWrite := shareWrite

/-- A descriptor of the object does not allow the mode, or the other way round. -/
def sharingConflict (y : YaffsTables Obj) (obj : Obj) (m : FileDesMode) : Bool :=
  (y.sharers obj).any fun f => (!(y.mode f).shareRead && m.reading) ||
    (!m.shareRead && (y.mode f).reading) || (!(y.mode f).shareWrite && m.writing) ||
    (!m.shareWrite && (y.mode f).writing)

/-- Why an existing object is not opened: the error that is reported first. -/
def openDenied (y : YaffsTables Obj) (o : FoundObj Obj) (flags : OpenFlags) (m : FileDesMode) :
    Option YaffsErrno :=
  if o.variantType = .directory then some .EISDIR
  -- `O_EXCL` only has meaning with `O_CREAT`
  else if flags.excl && flags.creat then some .EEXIST
  else if m.writing && o.readOnly then some .EROFS
  else if m.reading && !o.mayRead || m.writing && !o.mayWrite then some .EACCES
  else if y.sharingConflict o.obj m then some .EBUSY
  else none

/-- The object that is opened, or the error that is reported. -/
def objectToOpen (y : YaffsTables Obj) (l : Lookup Obj) (flags : OpenFlags) (m : FileDesMode) :
    Except YaffsErrno Obj :=
  match l.obj.filter fun o => o.variantType ≠ .other with
  | some o =>
    match y.openDenied o flags m with
    | some e => .error e
    | none => .ok o.obj
  | none =>
    if l.dir.isNone && l.notDir then .error .ENOTDIR
    else if l.loop then .error .ELOOP
    else
      match l.dir with
      | none => .error .ENOENT
      | some readOnly =>
        if flags.creat then
          if readOnly then .error .EROFS
          else
            match l.created with
            | some obj => .ok obj
            | none => .error .ENOSPC
        else .error .ENOENT

/-- The end of an open: the descriptor gets its inode and its mode. The tests behind the
    clearing of `O_TRUNC` have no common bit, so the flag stays. -/
def attach (y : YaffsTables Obj) (f : Nat) (obj : Obj) (flags : OpenFlags) (m : FileDesMode) :
    YaffsTables Obj :=
  let (inodeId, y) := y.getInodeIdForObject obj
  let inodeId : Int := inodeId.elim (-1) Int.ofNat
  let y := { y with
    fd := Function.update y.fd f ⟨(y.fd f).handleCount, inodeId, 0, by decide⟩
    mode := Function.update y.mode f m
    myInode := Function.update y.myInode obj (some inodeId) }
  if flags.trunc && m.writing then y.call (.truncate obj) else y

/-- `yaffs_open_sharing`. -/
def yaffsOpenSharing (y : YaffsTables Obj) (path : OpenPath Obj) (flags : OpenFlags)
    (shareRead shareWrite : Bool) : Option (Int × YaffsTables Obj) :=
  match path with
  | .null => some (-1, y.setError .EFAULT)
  | .tooLong => some (-1, y.setError .ENAMETOOLONG)
  | .path l =>
    let m := requestedMode flags shareRead shareWrite
    match y.newHandleAndFileDes with
    | (none, y) => some (-1, y.setError .ENFILE)
    | (some h, y) =>
      match y.objectToOpen l flags m with
      | .ok obj => do
        let f ← y.handleToFileDes h
        some (h, y.attach f obj flags m)
      | .error e => do
        let y ← y.putHandle h
        some (-1, y.setError e)

/-- `yaffs_open`, behind `tr_file_open_with_mode`. -/
def yaffsOpen (y : YaffsTables Obj) (path : OpenPath Obj) (flags : OpenFlags) :
    Option (Int × YaffsTables Obj) :=
  y.yaffsOpenSharing path flags true true

/-- A close that flushes by `flush`. -/
def closeBy (flush : Obj → GutsCall Obj) (y : YaffsTables Obj) (h : Int) :
    Option (Int × YaffsTables Obj) :=
  match y.handleToPointer h, y.handleToObject h with
  | some _, some obj => ((y.call (flush obj)).putHandle h).map fun y => (0, y)
  | _, _ => some (-1, y.setError .EBADF)

/-- `yaffs_close`. -/
def yaffsClose : YaffsTables Obj → Int → Option (Int × YaffsTables Obj) := closeBy .flushFile

/-- `yaffs_abort_close`. -/
def yaffsAbortClose : YaffsTables Obj → Int → Option (Int × YaffsTables Obj) :=
  closeBy .flushFileAbort

/-- `yaffs_unmount2` for a device that is mounted. -/
def yaffsUnmount2 (y : YaffsTables Obj) (dev : Int) (force : Bool) : Option (Int × YaffsTables Obj) :=
  if y.isDevBusy dev then
    if force then (y.breakDeviceHandles dev).map fun y => (0, y)
    else some (-1, y.setError .EBUSY)
  else some (0, y)

/-! ## What an open leaves -/

/-- The tables with the new handle `h` of the new descriptor `f`. -/
def reserved (y : YaffsTables Obj) (h f : Nat) : YaffsTables Obj :=
  { y with
    fd := Function.update y.fd f ⟨1, -1, 0, by decide⟩
    mode := Function.update y.mode f {}
    handle := Function.update y.handle h ⟨f, 1⟩ }

/-- What a refused open leaves of them. -/
def dropped (y : YaffsTables Obj) (h f : Nat) : YaffsTables Obj :=
  { y with
    fd := Function.update y.fd f ⟨0, -1, 0, by decide⟩
    mode := Function.update y.mode f {}
    handle := Function.update y.handle h ⟨-1, 0⟩ }

/-- The tables behind an open: handle `h`, descriptor `f`, inode `i`. -/
def opened (y : YaffsTables Obj) (h f i : Nat) (obj : Obj) (flags : OpenFlags) (m : FileDesMode) :
    YaffsTables Obj :=
  { y with
    handle := Function.update y.handle h ⟨f, 1⟩
    fd := Function.update y.fd f ⟨1, i, 0, by decide⟩
    mode := Function.update y.mode f m
    inode := Function.update y.inode i (some (y.getEquivalentObj obj))
    count := Function.update y.count i ((if y.inode i = none then 0 else y.count i) + 1)
    myInode := Function.update y.myInode obj (some i)
    calls := if flags.trunc && m.writing then y.calls ++ [.truncate obj] else y.calls }

end YaffsTables

/-! ## Runs -/

/-- The tables, and the threads inside the loop of `yaffsfs_do_read` or `yaffsfs_do_write`, which
    leave the lock between two chunks. -/
structure YaffsState (Obj : Type) where
  tables : YaffsTables Obj
  /-- The argument `handle` of each of these threads. -/
  inIo : List Int

inductive FileEvent (Obj : Type) where
  | openSharing (path : OpenPath Obj) (flags : OpenFlags) (shareRead shareWrite : Bool)
  | dup (h : Int)
  | close (h : Int)
  | abortClose (h : Int)
  /-- A read or a write that passes its tests, up to `yaffsfs_GetHandle`. -/
  | enterIo (h : Int)
  /-- The end of a read or a write, from `yaffsfs_PutHandle` on. -/
  | leaveIo (h : Int)
  /-- YAFFS marks an object as unlinked. -/
  | unlink (obj : Obj)
  /-- `yaffs_mount2`, of whatever path. -/
  | mount
  | unmount (dev : Int) (force : Bool)

namespace YaffsState

variable {Obj : Type} [DecidableEq Obj]

def withTables (s : YaffsState Obj) (y : YaffsTables Obj) : YaffsState Obj := { s with tables := y }

/-- One request, or one of the locked parts of a read or a write. That no other thread is inside
    meanwhile is left to `yaffsfs_Lock`. -/
def step (s : YaffsState Obj) : FileEvent Obj → Option (YaffsState Obj)
  | .openSharing path flags shareRead shareWrite =>
    (s.tables.yaffsOpenSharing path flags shareRead shareWrite).map fun r => s.withTables r.2
  | .dup h => some (s.withTables (s.tables.yaffsDup h).2)
  | .close h => (s.tables.yaffsClose h).map fun r => s.withTables r.2
  | .abortClose h => (s.tables.yaffsAbortClose h).map fun r => s.withTables r.2
  | .enterIo h =>
    if (s.tables.handleToObject h).isSome then some ⟨s.tables.getHandle h, h :: s.inIo⟩ else none
  | .leaveIo h =>
    if h ∈ s.inIo then (s.tables.putHandle h).map fun y => ⟨y, s.inIo.erase h⟩ else none
  | .unlink obj =>
    some (s.withTables { s.tables with unlinked := Function.update s.tables.unlinked obj true })
  | .mount => some (s.withTables s.tables.initHandles)
  | .unmount dev force => (s.tables.yaffsUnmount2 dev force).map fun r => s.withTables r.2

end YaffsState

end TxFS
