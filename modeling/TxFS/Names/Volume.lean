import TxFS.Names.Origins

/-!
# The Names of the File Systems

`on_creat` logs its call and then creates the file in the memory of YAFFS at once; `rename`,
`unlink` and the write to the flash follow at commit. A `Volume` is the server together with
the names in the file systems.

The library that makes the files is not part of the repository, nor are the calls of the host:
they are the functions of `FileSystems`. A close, also one for an abort, changes file data only.
-/

namespace TxFS

/-! ## The file systems -/

/-- The file systems under the server; `ν` is what they know about names. -/
structure FileSystems (ν : Type) where
  pathExists : ν → String → Bool
  /-- `yaffsfs_FindDirectory` finds the directory of the path. -/
  directoryFound : ν → String → Bool
  rename : ν → String → String → ν
  unlink : ν → String → ν
  /-- `yaffs_sync_file_to_disk`. -/
  syncFile : ν → String → ν
  /-- `yaffs_create_file_default`. -/
  createFile : ν → String → String → ν
  /-- A name is not created twice. -/
  createFile_old (names : ν) (path mode : String) :
    pathExists names path = true → createFile names path mode = names
  /-- The object is in its directory, in memory, at once. -/
  createFile_new (names : ν) (path mode : String) : directoryFound names path = true →
    pathExists (createFile names path mode) path = true

namespace FileSystems

variable {ν : Type} (fs : FileSystems ν) (names : ν) (path mode : String)

/-- The set of existing path names. -/
def existing : Set String := {path | fs.pathExists names path = true}

/-- `tr_ext_creat_yaffs_creat`. -/
def trExtCreat : ν := if fs.directoryFound names path then fs.createFile names path mode else names

/-- The creation makes a new name. -/
def TakesEffect : Prop := fs.directoryFound names path = true ∧ fs.pathExists names path = false

instance : Decidable (fs.TakesEffect names path) := inferInstanceAs (Decidable (_ ∧ _))

/-- The in-place operations of a release, `tr_sync_file_to_disk` among them. -/
def perform (names : ν) : Act → ν
  | .rename _ oldpath newpath => fs.rename names oldpath newpath
  | .sync _ path => fs.syncFile names path
  | .unlink _ path => fs.unlink names path
  | .write _ | .close _ | .closeAbort _ => names

variable {fs names path mode}

theorem trExtCreat_eq (h : ¬ fs.TakesEffect names path) :
    fs.trExtCreat names path mode = names := by
  unfold trExtCreat
  split
  · rename_i hdirectory
    apply fs.createFile_old
    rw [TakesEffect, not_and, Bool.not_eq_false] at h
    exact h hdirectory
  · rfl

theorem TakesEffect.existing_ne (h : fs.TakesEffect names path) :
    fs.existing (fs.trExtCreat names path mode) ≠ fs.existing names := by
  intro heq
  have hnew : path ∈ fs.existing (fs.trExtCreat names path mode) := by
    rw [trExtCreat, if_pos h.1]
    exact fs.createFile_new names path mode h.1
  rw [heq] at hnew
  exact Bool.false_ne_true (h.2.symm.trans hnew)

/-- Only logged operations change names. -/
theorem foldl_perform_eq {acts : List Act} (h : ∀ act ∈ acts, act.callLRN = none) :
    acts.foldl fs.perform names = names := by
  induction acts with
  | nil => rfl
  | cons act acts ih =>
    have hact : fs.perform names act = names := by
      have hnone := h act (List.mem_cons_self ..)
      cases act with
      | write | close | closeAbort => rfl
      | rename | sync | unlink => cases hnone
    rw [List.foldl_cons, hact]
    exact ih fun act hact => h act (List.mem_cons_of_mem _ hact)

end FileSystems

/-! ## The volume -/

structure Volume (ν : Type) where
  server : Server
  names : ν
  /-- The threads in `on_creat` behind `creat_log`, with their path and mode. -/
  creating : Int → Option (String × String)

inductive VolumeEvent where
  | server (e : Event)
  /-- `tr_ext_creat_yaffs_creat` of `on_creat`. -/
  | create (txnid : Int)
deriving DecidableEq, Repr

namespace Volume

variable {ν : Type}

def start (handles : Nat) (names : ν) : Volume ν := ⟨.globalInit handles, names, fun _ => none⟩

/-- The thread of the event is not in the middle of `on_creat`. -/
def Idle (v : Volume ν) (e : Event) : Prop := ∀ x ∈ e.actor, v.creating x = none

instance (v : Volume ν) (e : Event) : Decidable (v.Idle e) :=
  inferInstanceAs (Decidable (∀ x ∈ e.actor, _))

def step (fs : FileSystems ν) (v : Volume ν) : VolumeEvent → Option (Volume ν)
  | .server e =>
    if v.Idle e then do
      let server ← v.server.step e
      some {
        server
        names := (v.server.actsOf e).foldl fs.perform v.names
        creating := match e with
          | .call x (.creat path mode) _ _ => Function.update v.creating x (some (path, mode))
          | _ => v.creating }
    else none
  | .create x => do
    let (path, mode) ← v.creating x
    some { v with
      names := fs.trExtCreat v.names path mode
      creating := Function.update v.creating x none }

end Volume

/-! ## One transaction watched -/

/-- A volume, and what it would be without one transaction. -/
structure Watched (ν : Type) extends Volume ν where
  /-- The names, had the transaction not run since it began; a commit settles its run. -/
  without : ν
  /-- A creation of the transaction has taken effect since then. -/
  created : Bool

namespace Watched

variable {ν : Type}

def start (handles : Nat) (names : ν) : Watched ν := ⟨.start handles names, names, false⟩

/-- Without the transaction its creations are not made, and what it has logged is not
    performed by anybody; the others do what they do. -/
def step (fs : FileSystems ν) (t : Int) (w : Watched ν) (e : VolumeEvent) : Option (Watched ν) := do
  let v ← w.toVolume.step fs e
  match e with
  | .server e =>
    if e = .begin t ∨ e = .commit t then some ⟨v, v.names, false⟩
    else
      let acts := (w.server.actsOf e).filter fun act => ¬ w.server.Replays t act
      some { w with toVolume := v, without := acts.foldl fs.perform w.without }
  | .create x => do
    let (path, mode) ← w.creating x
    if x = t then
      some { w with toVolume := v, created := w.created || fs.TakesEffect w.names path }
    else some { w with toVolume := v, without := fs.trExtCreat w.without path mode }

end Watched

end TxFS
