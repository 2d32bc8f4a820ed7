import TxFS.Lib.CircularList
import TxFS.Yaffs.OpenFiles

/-!
# Directory Searches of YAFFS

`yaffs_opendir`, `yaffs_readdir`, `yaffs_rewinddir` and `yaffs_closedir`. A search keeps a
pointer to the object that the next `yaffs_readdir` returns. When an object leaves its directory,
YAFFS calls `yaffsfs_RemoveObjectCallback` first, which moves the searches that point to it.

The objects of a directory are linked through their fields `siblings`; the links are kept as
they lie in memory. An outer `none` is an access to memory that was freed, or to an object
where there is none.
-/

namespace TxFS

open CircularList

/-! ## Types -/

/-- The nodes of the lists of objects. -/
inductive DirLink (Obj : Type) where
  /-- `variant.dir_variant.children`, the head of the list of a directory. -/
  | children (dir : Obj)
  /-- `siblings` of an object. -/
  | siblings (obj : Obj)
deriving DecidableEq, Repr

/-- `yaffsfs_DirectorySearchContext`. -/
structure DirectorySearchContext (Obj : Type) where
  dirObj : Obj
  nextReturn : Option Obj
  offset : Nat
deriving DecidableEq, Repr

/-- `yaffs_dirent`. -/
structure Dirent (Obj : Type) where
  dIno : Int
  dDontUse : Obj
  dOff : Nat
  dName : List Char
deriving DecidableEq, Repr

/-- The searches, and the directories with their objects. -/
structure DirSearches (Obj : Type) where
  links : Links (DirLink Obj)
  /-- `variant_type` is `YAFFS_OBJECT_TYPE_DIRECTORY`. -/
  isDir : Obj → Bool
  /-- The memory of the object is free. -/
  freed : Obj → Bool
  objId : Obj → Int
  getEquivalentObj : Obj → Obj
  /-- `yaffs_get_obj_name`, cut to `NAME_MAX`. -/
  objName : Obj → List Char
  dsc : Nat → DirectorySearchContext Obj
  /-- The list `search_contexts`. -/
  searchContexts : List Nat
  error : Option YaffsErrno

namespace DirSearches

variable {Obj : Type} [DecidableEq Obj]

def setDsc (s : DirSearches Obj) (p : Nat) (d : DirectorySearchContext Obj) : DirSearches Obj :=
  { s with dsc := Function.update s.dsc p d }

/-- `list_entry` of a node of a directory's list. -/
def listEntry : DirLink Obj → Option Obj
  | .children _ => none
  | .siblings obj => some obj

/-! ## The functions -/

/-- `yaffsfs_SetDirRewound`. -/
def setDirRewound (s : DirSearches Obj) (p : Nat) : Option (DirSearches Obj) :=
  let d := s.dsc p
  if s.freed d.dirObj then none
  else if s.isDir d.dirObj then
    if s.links.next (.children d.dirObj) = .children d.dirObj then
      some (s.setDsc p { d with offset := 0, nextReturn := none })
    else do
      let obj ← listEntry (s.links.next (.children d.dirObj))
      some (s.setDsc p { d with offset := 0, nextReturn := some obj })
  else some s

/-- `yaffsfs_DirAdvance`. -/
def dirAdvance (s : DirSearches Obj) (p : Nat) : Option (DirSearches Obj) :=
  let d := s.dsc p
  if s.freed d.dirObj then none
  else if s.isDir d.dirObj then
    match d.nextReturn with
    | none => some (s.setDsc p { d with nextReturn := none })
    | some obj =>
      if s.links.next (.children d.dirObj) = .children d.dirObj then
        some (s.setDsc p { d with nextReturn := none })
      else if s.freed obj then none
      else if s.links.next (.siblings obj) = .children d.dirObj then
        -- end of list
        some (s.setDsc p { d with nextReturn := none })
      else do
        let next ← listEntry (s.links.next (.siblings obj))
        some (s.setDsc p { d with nextReturn := some next })
  else some s

/-- The body of the loop of `yaffsfs_RemoveObjectCallback`. -/
def callbackBody (obj : Obj) (s : DirSearches Obj) (p : Nat) : Option (DirSearches Obj) :=
  if (s.dsc p).nextReturn = some obj then s.dirAdvance p else some s

/-- `yaffsfs_RemoveObjectCallback`. -/
def removeObjectCallback (s : DirSearches Obj) (obj : Obj) : Option (DirSearches Obj) :=
  s.searchContexts.foldlM (callbackBody obj) s

/-- `yaffs_opendir` of a path that `yaffsfs_CheckPath` accepts: `found` is the object that the
    path leads to, and `dsc` the new context, if there is memory for it. -/
def opendir (s : DirSearches Obj) (found : Option Obj) (notDir loop : Bool) (dsc : Option Nat) :
    Option (Option Nat × DirSearches Obj) :=
  if found.isNone && notDir then some (none, { s with error := some .ENOTDIR })
  else if loop then some (none, { s with error := some .ELOOP })
  else
    match found with
    | none => some (none, { s with error := some .ENOENT })
    | some obj =>
      if s.freed obj then none
      else if s.isDir obj then
        match dsc with
        | none => some (none, s)
        | some p =>
          ({ s.setDsc p ⟨obj, none, 0⟩ with
              searchContexts := p :: s.searchContexts }.setDirRewound p).map fun s' => (some p, s')
      else some (none, { s with error := some .ENOTDIR })

/-- What `yaffs_readdir` writes for an object. -/
def dirent (s : DirSearches Obj) (p : Nat) (obj : Obj) : Dirent Obj where
  dIno := s.objId (s.getEquivalentObj obj)
  dDontUse := obj
  dOff := (s.dsc p).offset
  -- "this should not happen!"
  dName := if s.objName obj = [] then ['z', 'z'] else s.objName obj

/-- `yaffs_readdir`. -/
def readdir (s : DirSearches Obj) (p : Nat) : Option (Option (Dirent Obj) × DirSearches Obj) :=
  if p ∈ s.searchContexts then
    match (s.dsc p).nextReturn with
    | none => some (none, { s with error := none })
    | some obj =>
      if s.freed obj then none
      else
        let c := { s.dsc p with offset := (s.dsc p).offset + 1 }
        (({ s with error := none }.setDsc p c).dirAdvance p).map fun s' => (some (s.dirent p obj), s')
  else none

/-- `yaffs_rewinddir`. -/
def rewinddir (s : DirSearches Obj) (p : Nat) : Option (DirSearches Obj) :=
  if p ∈ s.searchContexts then s.setDirRewound p else none

/-- `yaffs_closedir`. -/
def closedir (s : DirSearches Obj) (p : Nat) : Option (DirSearches Obj) :=
  if p ∈ s.searchContexts then some { s with searchContexts := s.searchContexts.erase p } else none

/-! ## Changes of directories -/

/-- YAFFS puts an object into a directory, behind the node `node` of its list. -/
def addObj (s : DirSearches Obj) (obj : Obj) (node : DirLink Obj) : DirSearches Obj :=
  { s with links := insertAfter s.links (.siblings obj) node }

/-- YAFFS takes an object out of its directory: the callback, and then `list_del_init`. -/
def removeObj (s : DirSearches Obj) (obj : Obj) : Option (DirSearches Obj) :=
  (s.removeObjectCallback obj).map fun s => { s with links := deleteInit s.links (.siblings obj) }

/-- YAFFS frees the memory of an object. -/
def freeObj (s : DirSearches Obj) (obj : Obj) : DirSearches Obj :=
  { s with freed := Function.update s.freed obj true }

/-- YAFFS creates an object. -/
def newObj (s : DirSearches Obj) (obj : Obj) (isDir : Bool) : DirSearches Obj :=
  { s with
    freed := Function.update s.freed obj false
    isDir := Function.update s.isDir obj isDir
    links :=
      { next := Function.update (Function.update s.links.next (.siblings obj) (.siblings obj))
          (.children obj) (.children obj)
        prev := Function.update (Function.update s.links.prev (.siblings obj) (.siblings obj))
          (.children obj) (.children obj) } }

end DirSearches

/-! ## Runs -/

inductive DirEvent (Obj : Type) where
  | opendir (found : Option Obj) (notDir loop : Bool) (dsc : Option Nat)
  | readdir (p : Nat)
  | rewinddir (p : Nat)
  | closedir (p : Nat)
  /-- The object goes into the directory, at the front or behind the object `node`. -/
  | addObj (dir obj : Obj) (node : Option Obj)
  /-- The object leaves its directory. -/
  | removeObj (dir obj : Obj)
  | freeObj (obj : Obj)
  | newObj (obj : Obj) (isDir : Bool)

namespace DirSearches

variable {Obj : Type} [DecidableEq Obj]

def step (s : DirSearches Obj) : DirEvent Obj → Option (DirSearches Obj)
  | .opendir found notDir loop dsc => (s.opendir found notDir loop dsc).map Prod.snd
  | .readdir p => (s.readdir p).map Prod.snd
  | .rewinddir p => s.rewinddir p
  | .closedir p => s.closedir p
  | .addObj dir obj node => some (s.addObj obj (node.elim (.children dir) .siblings))
  | .removeObj _ obj => s.removeObj obj
  | .freeObj obj => some (s.freeObj obj)
  | .newObj obj isDir => some (s.newObj obj isDir)

end DirSearches

end TxFS
