import TxFS.Lib.PathNames
import TxFS.Server.State

/-!
# Paths in YAFFS

How `yaffsfs.c` turns a path into a directory and a name. The objects and what `yaffs_guts.c`
does with them are parameters: the repository has only the calls.

A pointer to an object that may be `NULL` is an `Option`. The search can call itself through
symbolic links without an end, so it has fuel, and an outer `none` means that the fuel is used
up; the search of the server then overflows its stack.
-/

namespace TxFS

open PathNames

/-! ## Objects and mounts -/

/-- What a path search reads of `variant_type` and `variant`. -/
inductive Variant where
  /-- `YAFFS_OBJECT_TYPE_DIRECTORY`. -/
  | directory
  /-- `YAFFS_OBJECT_TYPE_SYMLINK`. -/
  | symlink (aliasPath : Path)
  /-- Files, hard links and special files. -/
  | other
deriving DecidableEq, Repr

/-- `struct yaffs_dev` with its mount name. -/
structure Device (Obj : Type) where
  name : Path
  isMounted : Bool
  rootDir : Obj

/-- The file system: the devices and the objects with their links. -/
structure Yaffs (Obj : Type) where
  /-- `yaffsfs_deviceList`. -/
  devices : List (Device Obj)
  objId : Obj → Int
  parent : Obj → Option Obj
  variant : Obj → Variant
  /-- `yaffs_find_by_name`. -/
  findByName : Obj → Path → Option Obj
  /-- `yaffs_get_equivalent_obj`: the object that a hard link stands for. -/
  getEquivalentObj : Obj → Option Obj
  /-- `YAFFS_MAX_NAME_LENGTH`. -/
  maxNameLength : Nat

/-- `YAFFSFS_MAX_SYMLINK_DEREFERENCES`. -/
def maxSymlinkDereferences : Nat := 5

/-! ## Mount points -/

/-- The comparison of `yaffsfs_FindDevice` of a mount name with a path: what is left of the
    path and the length of the match. Slashes are skipped on both sides. -/
def matchName : Path → Path → Option (Path × Nat)
  | [], leftOver => some (leftOver.dropWhile (· = '/'), 0)
  | c :: p, leftOver =>
    if c = '/' then matchName p leftOver
    else
      match leftOver.dropWhile (· = '/') with
      | [] => none
      | d :: leftOver =>
        if c = d then (matchName p leftOver).map fun m => (m.1, m.2 + 1) else none

namespace Yaffs

variable {Obj : Type}

/-- The loop of `yaffsfs_FindDevice`: the device with the longest match so far, the rest of the
    path behind its mount name, and the length of the match. -/
def findDeviceLoop (path : Path) : List (Device Obj) → Option (Device Obj × Path × Nat) →
    Option (Device Obj × Path × Nat)
  | [], best => best
  | dev :: devs, best =>
    match matchName dev.name path with
    | none => findDeviceLoop path devs best
    | some (leftOver, thisMatchLength) =>
      if best.all fun b => b.2.2 < thisMatchLength then
        findDeviceLoop path devs (some (dev, leftOver, thisMatchLength))
      else findDeviceLoop path devs best

/-- `yaffsfs_FindDevice`: the device and the rest of the path. -/
def findDevice (y : Yaffs Obj) (path : Path) : Option (Device Obj × Path) :=
  (findDeviceLoop path y.devices none).map fun b => (b.1, b.2.1)

/-- `yaffsfs_FindRoot`. -/
def findRoot (y : Yaffs Obj) (path : Path) : Option (Obj × Path) := do
  let (dev, restOfPath) ← y.findDevice path
  if dev.isMounted then some (dev.rootDir, restOfPath) else none

/-! ## The search -/

/-- What the search does at a name with a slash behind it. `follow` is `yaffsfs_FollowLink`. -/
def enter (y : Yaffs Obj) (follow : Option Obj → Option (Option Obj)) (dir : Obj) (name : Path) :
    Option (Option Obj) :=
  let str := name.take y.maxNameLength
  if str = ['.'] then some (some dir)
  else if str = ['.', '.'] then some (y.parent dir)
  else do
    let obj ← follow (y.findByName dir str)
    -- "directory did not exist", or it is not one
    some (obj.filter fun o => y.variant o = .directory)

/-- The loop of `yaffsfs_DoFindDirectory`: `name` is what has been read of a name, and the
    result is the directory with the name that the path ends with. -/
def findLoop (enter : Obj → Path → Option (Option Obj)) :
    Obj → Path → Path → Option (Option (Obj × Path))
  | dir, name, [] => some (some (dir, name))
  | dir, name, c :: restOfPath =>
    if c = '/' then
      -- get rid of '/', or a directory is entered
      if name = [] then findLoop enter dir [] restOfPath
      else
        match enter dir name with
        | none => none
        | some none => some none
        | some (some dir) => findLoop enter dir [] restOfPath
    else findLoop enter dir (name ++ [c]) restOfPath

/-- `yaffsfs_DoFindDirectory`, given `yaffsfs_FollowLink`. -/
def doFindDirectory (y : Yaffs Obj) (follow : Option Obj → Nat → Option (Option Obj))
    (startDir : Option Obj) (path : Path) (symDepth : Nat) : Option (Option (Obj × Path)) :=
  if symDepth > maxSymlinkDereferences then some none
  else
    match startDir.elim (y.findRoot path) fun dir => some (dir, path) with
    | none => some none
    | some (dir, restOfPath) =>
      findLoop (y.enter fun obj => follow obj symDepth) dir [] restOfPath

/-- `yaffsfs_FindObject` with `getEquiv`. -/
def findObject (y : Yaffs Obj) (follow : Option Obj → Nat → Option (Option Obj))
    (relDir : Option Obj) (path : Path) (symDepth : Nat) : Option (Option Obj) := do
  match ← y.doFindDirectory follow relDir path symDepth with
  | none => some none
  | some (dir, name) =>
    let obj := if name = [] then some dir else y.findByName dir name
    some (obj.bind y.getEquivalentObj)

/-- The loop of `yaffsfs_FollowLink`. An alias that starts with a slash is searched from the
    root, another one from the parent of the link. -/
def followLoop (y : Yaffs Obj) : Nat → Option Obj → Nat → Option (Option Obj)
  | 0, _, _ => none
  | _ + 1, none, _ => some none
  | n + 1, some obj, symDepth =>
    match y.variant obj with
    | .symlink aliasPath => do
      let relDir := if aliasPath.head? = some '/' then none else y.parent obj
      let obj ← y.findObject (fun obj symDepth =>
        y.followLoop n (obj.bind y.getEquivalentObj) symDepth) relDir aliasPath symDepth
      y.followLoop n obj (symDepth + 1)
    | _ => some (some obj)

/-- `yaffsfs_FollowLink`. -/
def followLink (y : Yaffs Obj) (n : Nat) (obj : Option Obj) (symDepth : Nat) :
    Option (Option Obj) :=
  y.followLoop n (obj.bind y.getEquivalentObj) symDepth

/-- `yaffsfs_FindDirectory` from the root, with fuel `n` for the links. -/
def findDirectory (y : Yaffs Obj) (n : Nat) (path : Path) : Option (Option (Obj × Path)) :=
  y.doFindDirectory (y.followLink n) none path 0

/-! ## The functions of the server's interface -/

/-- `tr_object_id_parent_from_path`. -/
def trObjectIdParentFromPath (y : Yaffs Obj) (n : Nat) (path : Path) : Option Int := do
  let found ← y.findDirectory n path
  some (found.elim (-1) fun d => y.objId d.1)

/-- `tr_ext_creat_yaffs_creat` up to its call of `yaffs_create_file_default`: the directory in
    which the file is created, and the name. -/
def trExtCreat (y : Yaffs Obj) (n : Nat) (pathname : Path) : Option (Option (Obj × Path)) :=
  y.findDirectory n pathname

/-- The lock request of `on_creat`: `dirname` has cut `newpath` in place, and the parent of
    what is left of it is locked exclusively. -/
def onCreatRequest (y : Yaffs Obj) (n : Nat) (incall1 : Path) : Option LockRequest := do
  let newpath := dirname incall1
  let inodeParent ← y.trObjectIdParentFromPath n newpath
  some ⟨inodeParent, 2, .placeholder⟩

end Yaffs

end TxFS
