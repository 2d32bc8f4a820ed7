import Mathlib.Logic.Function.Basic
import TxFS.Lib.LinkedPath
import TxFS.Server.Header

/-!
# The Lock Table

The list functions of `Lock_manager1.c`: every record is threaded on the lock list
(`next`/`prev`, from `head_lock_list`), on the list of the records of its inode
(`next_shared_rec`/`prev_shared_rec`) and on the list of its transaction (`next_txn`).

`free` leaves the nullified pointers of `free_file_node` in the record and its memory is
not handed out again: a dangling pointer reads a record without links. Following a `NULL`
pointer and a list walk that never ends are both `none`.
-/

namespace TxFS

open LinkedPath

/-- The heap of `struct file_lock` records with `head_lock_list`. -/
structure LockTable where
  cells : Addr → FileLock
  /-- Records linked into the lists and not yet freed. -/
  allocated : List Addr
  /-- The next address the allocator hands out. -/
  brk : Addr
  headLockList : Option Addr

/-- `get_file_node`. -/
def getFileNode (fInode fLength fFlags txnid : Int) : FileLock where
  fileInode := fInode
  fileMode := if fFlags = 0 then 0 else 1
  fd := -1
  fileOffset := -1
  fileSize := fLength
  flags := fFlags
  parentTxn := txnid
  nextTxn := none
  prevSharedRec := none
  nextSharedRec := none
  next := none
  prev := none
  writesAt := []

namespace LockTable

/-- Assignment to fields of the record at `a`. -/
def modify (t : LockTable) (a : Addr) (f : FileLock → FileLock) : LockTable :=
  { t with cells := Function.update t.cells a (f (t.cells a)) }

/-- `malloc` of a record with the given contents. -/
def alloc (t : LockTable) (c : FileLock) : LockTable :=
  { t with
    cells := Function.update t.cells t.brk c
    allocated := t.brk :: t.allocated
    brk := t.brk + 1 }

/-- `free_file_node`. -/
def freeFileNode (t : LockTable) (a : Addr) : LockTable :=
  { t.modify a fun c =>
      { c with nextTxn := none, prevSharedRec := none, nextSharedRec := none,
               next := none, prev := none } with
    allocated := t.allocated.erase a }

/-! ## Search -/

/-- The loop of `search_file_list`:
    `while (ptr != NULL) { if (ptr->file_inode >= f_inode) break; foll = ptr; ptr = ptr->next; }`. -/
def searchLoop (t : LockTable) (fInode : Int) : Nat → Addr → Option Addr →
    Option (Addr × Option Addr)
  | 0, _, _ => none
  | _ + 1, foll, none => some (foll, none)
  | n + 1, foll, some ptr =>
    if (t.cells ptr).fileInode ≥ fInode then some (foll, some ptr)
    else searchLoop t fInode n ptr (t.cells ptr).next

/-- `search_file_list`: the return value and `*add_loc`. -/
def searchFileList (t : LockTable) (fInode : Int) : Option (Bool × Option Addr) :=
  match t.headLockList with
  | none => some (false, none)
  | some head => do
    let (foll, ptr) ← t.searchLoop fInode (t.brk + 1) head (t.cells head).next
    match ptr with
    | some p =>
      if (t.cells p).fileInode = fInode then some (true, some p)
      else if (t.cells foll).fileInode = fInode then some (true, some foll)
      else some (false, some foll)
    | none =>
      if (t.cells foll).fileInode = fInode then some (true, some foll)
      else some (false, some foll)

/-! ## Insertion -/

/-- The new record `c` behind `p`: `c->next = p->next; if (p->next != NULL)
    (p->next)->prev = c; p->next = c; c->prev = p`. -/
def insertAfter (t : LockTable) (p : Addr) (c : FileLock) : LockTable :=
  let a := t.brk
  let n := (t.cells p).next
  let t := t.alloc { c with next := n, prev := some p }
  let t := match n with
    | some b => t.modify b fun d => { d with prev := some a }
    | none => t
  t.modify p fun d => { d with next := some a }

/-- The grant of `insert_file_list` for a file that is not locked: `loc` is the place
    `search_file_list` found. -/
def insertUnlocked (t : LockTable) (loc : Option Addr) (c : FileLock) : LockTable :=
  let a := t.brk
  match loc with
  | none => { t.alloc { c with prev := some a } with headLockList := some a }
  | some l =>
    if t.headLockList = some l ∧ (t.cells l).fileInode > c.fileInode then
      let t := t.alloc { c with next := some l, prev := some a }
      { t.modify l fun d => { d with prev := some a } with headLockList := some a }
    else t.insertAfter l c

/-- The grant of `insert_file_list` for a file locked in shared mode: behind the last
    record that `next_shared_rec` leads to from `loc`. -/
def insertShared (t : LockTable) (loc : Addr) (c : FileLock) : Option LockTable := do
  let a := t.brk
  let ptr ← walkToEnd (fun b => (t.cells b).nextSharedRec) (t.brk + 1) loc
  let t := t.insertAfter ptr { c with prevSharedRec := some ptr }
  some (t.modify ptr fun d => { d with nextSharedRec := some a })

/-! ## Deletion -/

/-- `delete_file_list`. -/
def deleteFileList (t : LockTable) (a : Addr) : Option LockTable :=
  let c := t.cells a
  if t.headLockList = some a then
    let t := { t with headLockList := c.next }
    let t := match c.next with
      | some n => t.modify n fun d => { d with prev := c.next }
      | none => t
    some (t.freeFileNode a)
  else
    match c.prev with
    | none => none
    | some p =>
      match c.next with
      | none => some ((t.modify p fun d => { d with next := none }).freeFileNode a)
      | some n =>
        let t := t.modify p fun d => { d with next := some n }
        let t := t.modify n fun d => { d with prev := some p }
        some (t.freeFileNode a)

/-- The pointer updates of the release functions for a shared record that is not the only
    one of its inode. -/
def unlinkShared (t : LockTable) (a : Addr) : LockTable :=
  let c := t.cells a
  match c.prevSharedRec, c.nextSharedRec with
  | none, none => t
  | some p, none => t.modify p fun d => { d with nextSharedRec := none }
  | none, some n => t.modify n fun d => { d with prevSharedRec := none }
  | some p, some n =>
    let t := t.modify p fun d => { d with nextSharedRec := some n }
    t.modify n fun d => { d with prevSharedRec := some p }

end LockTable

end TxFS
