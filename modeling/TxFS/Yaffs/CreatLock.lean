import TxFS.Yaffs.Resolver

/-!
# The Directory that `creat` Locks

`on_creat` cuts its path with `dirname` to get the parent directory, and then asks YAFFS for
the parent of what is left: the directory above the one in which the file is created. The two
are the same only for files in the root directory of a mount, and where the last directory
name of the path leads back.
-/

namespace TxFS

open PathNames

section

variable {p u v r : Path} {k : Nat}

/-! ## Mount names -/

/-- The rest of a path behind a mount name is a part of the path. -/
theorem matchName_suffix (h : matchName p u = some (r, k)) : r <:+ u := by
  induction p generalizing u r k with
  | nil =>
    cases h
    exact List.dropWhile_suffix _
  | cons c p ih =>
    rw [matchName] at h
    split at h
    · exact ih h
    · split at h
      · cases h
      · rename_i d left hleft
        split at h
        · obtain ⟨⟨r', k'⟩, hm, heq⟩ := Option.map_eq_some_iff.mp h
          cases heq
          have hsuf : d :: left <:+ u := hleft ▸ List.dropWhile_suffix _
          exact ((ih hm).trans (List.suffix_cons d left)).trans hsuf
        · cases h

/-- Only slashes match a single slash, and nothing is left. -/
theorem matchName_root (h : matchName p ['/'] = some (r, k)) : r = [] := by
  induction p generalizing r k with
  | nil =>
    cases h
    rfl
  | cons c p ih =>
    rw [matchName] at h
    split at h
    · exact ih h
    · simp at h

/-- A mount name that matches the beginning of a path matches the path. -/
theorem matchName_append (h : matchName p u = some (r, k)) :
    matchName p (u ++ v) = some ((r ++ v).dropWhile (· = '/'), k) := by
  have hdrop : ∀ u : Path, (u ++ v).dropWhile (· = '/') =
      (u.dropWhile (· = '/') ++ v).dropWhile (· = '/') := by
    intro u
    induction u with
    | nil => rfl
    | cons c u ih =>
      by_cases hc : c = '/'
      · simpa [hc] using ih
      · simp [hc]
  induction p generalizing u r k with
  | nil =>
    cases h
    rw [matchName, hdrop u]
  | cons c p ih =>
    rw [matchName] at h ⊢
    split at h
    · rename_i hc
      rw [if_pos hc]
      exact ih h
    · rename_i hc
      rw [if_neg hc]
      split at h
      · cases h
      · rename_i d left hleft
        rw [hdrop, hleft]
        split at h
        · rename_i hd
          obtain ⟨⟨r', k'⟩, hm, heq⟩ := Option.map_eq_some_iff.mp h
          cases heq
          have hd' : d ≠ '/' := fun hslash => hc (hd.trans hslash)
          simp [hd', hd, ih hm]
        · cases h

end

namespace Yaffs

variable {Obj : Type} {y : Yaffs Obj} {dev : Device Obj} {path r : Path} {k : Nat}

/-! ## The device of a path -/

theorem findDeviceLoop_some {devs : List (Device Obj)} {best : Option (Device Obj × Path × Nat)}
    {b : Device Obj × Path × Nat} (h : findDeviceLoop path devs best = some b) :
    best = some b ∨ (b.1 ∈ devs ∧ matchName b.1.name path = some b.2) := by
  induction devs generalizing best with
  | nil => exact .inl h
  | cons d devs ih =>
    rw [findDeviceLoop] at h
    split at h
    · rcases ih h with hb | ⟨hmem, hm⟩
      · exact .inl hb
      · exact .inr ⟨List.mem_cons_of_mem _ hmem, hm⟩
    · rename_i left len hleft
      split at h
      · rcases ih h with hb | ⟨hmem, hm⟩
        · cases hb
          exact .inr ⟨List.mem_cons_self .., hleft⟩
        · exact .inr ⟨List.mem_cons_of_mem _ hmem, hm⟩
      · rcases ih h with hb | ⟨hmem, hm⟩
        · exact .inl hb
        · exact .inr ⟨List.mem_cons_of_mem _ hmem, hm⟩

theorem findDeviceLoop_none {devs : List (Device Obj)} {best : Option (Device Obj × Path × Nat)}
    (h : findDeviceLoop path devs best = none) :
    best = none ∧ ∀ d ∈ devs, matchName d.name path = none := by
  induction devs generalizing best with
  | nil => exact ⟨h, nofun⟩
  | cons d devs ih =>
    rw [findDeviceLoop] at h
    split at h
    · rename_i hd
      obtain ⟨hbest, hdevs⟩ := ih h
      refine ⟨hbest, ?_⟩
      intro e he
      rcases List.mem_cons.mp he with rfl | he
      · exact hd
      · exact hdevs e he
    · split at h
      · cases (ih h).1
      · rename_i hlong
        rw [(ih h).1] at hlong
        exact absurd rfl hlong

/-- The device that is found matches the path. -/
theorem findDevice_some (h : y.findDevice path = some (dev, r)) :
    dev ∈ y.devices ∧ ∃ k, matchName dev.name path = some (r, k) := by
  obtain ⟨b, hb, heq⟩ := Option.map_eq_some_iff.mp h
  cases heq
  rcases findDeviceLoop_some hb with hnone | ⟨hmem, hm⟩
  · cases hnone
  · exact ⟨hmem, b.2.2, hm⟩

/-- A device is found for every path that one matches. -/
theorem findDevice_isSome (hdev : dev ∈ y.devices) (hm : matchName dev.name path ≠ none) :
    ∃ d r, y.findDevice path = some (d, r) := by
  cases hfind : y.findDevice path with
  | none =>
    have hloop : findDeviceLoop path y.devices none = none := Option.map_eq_none_iff.mp hfind
    exact absurd ((findDeviceLoop_none hloop).2 dev hdev) hm
  | some b => exact ⟨b.1, b.2, rfl⟩

/-- If only one device can match, it is the device of the path. -/
theorem findDevice_of_only (hdev : dev ∈ y.devices)
    (honly : ∀ d ∈ y.devices, matchName d.name path ≠ none → d = dev) :
    y.findDevice path = (matchName dev.name path).map fun m => (dev, m.1) := by
  cases hfind : y.findDevice path with
  | none =>
    cases hm : matchName dev.name path with
    | none => rfl
    | some m =>
      have hne : matchName dev.name path ≠ none := by simp [hm]
      obtain ⟨d, r, hsome⟩ := findDevice_isSome hdev hne
      cases hfind.symm.trans hsome
  | some b =>
    obtain ⟨d, r⟩ := b
    obtain ⟨hmem, k, hm⟩ := findDevice_some hfind
    cases honly d hmem (by simp [hm])
    rw [hm]
    rfl

/-! ## Directories below the root of a mount -/

/-- The directories are entered one after the other. -/
def enterAll (enter : Obj → Path → Option (Option Obj)) : Obj → List Path → Option (Option Obj)
  | dir, [] => some (some dir)
  | dir, name :: names =>
    match enter dir name with
    | none => none
    | some none => some none
    | some (some dir) => enterAll enter dir names

theorem enterAll_append {enter : Obj → Path → Option (Option Obj)} {dir dir' : Obj}
    {names names' : List Path} : enterAll enter dir (names ++ names') = some (some dir') ↔
      ∃ d, enterAll enter dir names = some (some d) ∧ enterAll enter d names' = some (some dir') := by
  induction names generalizing dir with
  | nil => simp [enterAll]
  | cons name names ih =>
    simp only [List.cons_append, enterAll]
    cases enter dir name with
    | none => simp
    | some obj =>
      cases obj with
      | none => simp
      | some d => exact ih

/-- The loop of the search enters the directories of the path. -/
theorem findLoop_some {enter : Obj → Path → Option (Option Obj)} {dir dir' : Obj}
    {cur s name : Path} : findLoop enter dir cur s = some (some (dir', name)) ↔
      enterAll enter dir (scan cur s).1 = some (some dir') ∧ name = (scan cur s).2 := by
  induction s generalizing dir cur with
  | nil =>
    simp only [findLoop, scan, enterAll, Option.some.injEq, Prod.mk.injEq]
    exact and_congr_right fun _ => eq_comm
  | cons c s ih =>
    rw [findLoop, scan]
    by_cases hc : c = '/'
    · simp only [if_pos hc]
      by_cases hcur : cur = []
      · simp only [if_pos hcur]
        exact ih
      · simp only [if_neg hcur, enterAll]
        cases enter dir cur with
        | none => simp
        | some obj =>
          cases obj with
          | none => simp
          | some d => exact ih
    · simp only [if_neg hc]
      exact ih

/-- What a search from the root finds. -/
theorem findDirectory_some {n : Nat} {dir : Obj} {name : Path} :
    y.findDirectory n path = some (some (dir, name)) ↔
      ∃ d r, y.findDevice path = some (d, r) ∧ d.isMounted = true ∧
        enterAll (y.enter fun obj => y.followLink n obj 0) d.rootDir (dirNames r) =
          some (some dir) ∧ name = lastName r := by
  rw [findDirectory, doFindDirectory, if_neg (Nat.not_lt_zero _), Option.elim_none, findRoot]
  cases hfind : y.findDevice path with
  | none => simp
  | some b =>
    obtain ⟨d, r⟩ := b
    by_cases hmounted : d.isMounted = true
    · simp only [Option.bind_eq_bind, Option.bind_some, hmounted, if_true, findLoop_some]
      constructor
      · rintro ⟨henter, hname⟩
        exact ⟨d, r, rfl, hmounted, henter, hname⟩
      · rintro ⟨_, _, heq, -, henter, hname⟩
        cases heq
        exact ⟨henter, hname⟩
    · simp only [Option.bind_eq_bind, Option.bind_some, hmounted]
      constructor
      · rintro ⟨⟩
      · rintro ⟨_, _, heq, hm, -⟩
        cases heq
        exact absurd hm hmounted

/-! ## The lock of `on_creat` -/

/-- The directories on the way of a path, behind the mount name of the device. -/
def dirsBelow (dev : Device Obj) (path : Path) : List Path :=
  ((matchName dev.name path).map fun m => dirNames m.1).getD []

/-- **The last directory name of the path leads back** to a directory with the id of the one
    that it is looked up in (with a slash at the end of the path: the last two names). There
    is none for a file in the root directory of the mount. -/
def LeadsBack (y : Yaffs Obj) (n : Nat) (dev : Device Obj) (path : Path) : Prop :=
  let enter := y.enter fun obj => y.followLink n obj 0
  let dirs := dirsBelow dev path
  let above := dirs.length - namesAbove path
  ∃ d d', enterAll enter dev.rootDir (dirs.take above) = some (some d) ∧
    enterAll enter d (dirs.drop above) = some (some d') ∧ y.objId d' = y.objId d

/-- `on_creat` asks for an exclusive lock on the directory of the new file. -/
def LocksCreatDirectory (y : Yaffs Obj) (n : Nat) (path : Path) (dir : Obj) : Prop :=
  ∃ req, y.onCreatRequest n path = some req ∧ req.flags ≠ 0 ∧ req.inode = y.objId dir

/-! ### The path and its `dirname` -/

/-- A name that matches the `dirname` matches the path, with the rest of the path behind it. -/
theorem matchName_of_dirname {name : Path} (habs : path.head? = some '/')
    (hm : matchName name (dirname path) = some (r, k)) :
    matchName name path =
      some ((r ++ path.drop (dirname path).length).dropWhile (· = '/'), k) := by
  have happend := matchName_append (v := path.drop (dirname path).length) hm
  rwa [dirname_append_drop habs] at happend

/-- The directories of the `dirname` are the first ones of the path. -/
theorem dirNames_of_dirname (habs : path.head? = some '/')
    (hm : matchName dev.name (dirname path) = some (r, k)) :
    dirNames r = (dirsBelow dev path).take ((dirsBelow dev path).length - namesAbove path) := by
  have hdirs : dirsBelow dev path = dirNames (r ++ path.drop (dirname path).length) := by
    rw [dirsBelow, matchName_of_dirname habs hm]
    exact congrArg Prod.fst scan_dropWhile
  rw [hdirs]
  apply dirNames_dirname habs (matchName_suffix hm)
  intro hroot
  rw [hroot] at hm
  exact matchName_root hm

/-! ### The request -/

/-- The request is for the parent that the search finds for the `dirname`. -/
theorem onCreatRequest_of_found {n : Nat} {dir : Obj} {name : Path}
    (h : y.findDirectory n (dirname path) = some (some (dir, name))) :
    y.onCreatRequest n path = some ⟨y.objId dir, 2, .placeholder⟩ := by
  simp [onCreatRequest, trObjectIdParentFromPath, h]

/-- A `dirname` that is on no device has the inode -1. -/
theorem onCreatRequest_of_missing {n : Nat} (h : y.findDevice (dirname path) = none) :
    y.onCreatRequest n path = some ⟨-1, 2, .placeholder⟩ := by
  simp [onCreatRequest, trObjectIdParentFromPath, findDirectory, doFindDirectory, findRoot, h,
    maxSymlinkDereferences]

/-- A tree with the directory `a` in the root of `/yaffs2`. -/
def twoDirectories : Yaffs Nat where
  devices := [⟨['/', 'y', 'a', 'f', 'f', 's', '2'], true, 0⟩]
  objId := fun obj => obj + 1
  parent := fun obj => if obj = 1 then some 0 else none
  variant := fun _ => .directory
  findByName := fun dir name => if dir = 0 ∧ name = ['a'] then some 1 else none
  getEquivalentObj := some
  maxNameLength := 255

end Yaffs

end TxFS
