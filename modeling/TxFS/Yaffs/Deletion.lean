import TxFS.Yaffs.OpenRuns

/-!
# Deletion of Open Files

A file can be unlinked while it is open. `yaffsfs_ReleaseInode` deletes such an object when its
last descriptor goes, whether that is the last close, the end of a read that the close did not
wait for, or a forced unmount. `my_inode` tells the rest of YAFFS whether an object is open.

`Closes` says what a call may do to the open objects; the loops and the calls compose by
`Closes.trans`.
-/

namespace TxFS

open RefTable GuardedRun

namespace YaffsTables

variable {Obj : Type} [DecidableEq Obj] {y y' y'' : YaffsTables Obj} {f h i j k : Nat} {c : Int}
  {o obj : Obj} {dev : Int}

/-- Some entry of `yaffsfs_inode` has the object. -/
def IsOpen (y : YaffsTables Obj) (obj : Obj) : Prop := ∃ i < y.nHandles, y.inode i = some obj

instance : Decidable (y.IsOpen obj) :=
  inferInstanceAs (Decidable (∃ i < y.nHandles, y.inode i = some obj))

/-- How often `yaffs_del_obj` was called for the object. -/
def deletions (y : YaffsTables Obj) (obj : Obj) : Nat := y.calls.count (.delObj obj)

/-- Objects may be closed, and those that are unlinked are deleted then. -/
structure Closes (y y' : YaffsTables Obj) : Prop where
  nHandles : y'.nHandles = y.nHandles
  unlinked : y'.unlinked = y.unlinked
  inode : ∀ i < y.nHandles, ∀ obj, y'.inode i = some obj → y.inode i = some obj
  myInode : ∀ obj, y'.myInode obj = if y.IsOpen obj ∧ ¬ y'.IsOpen obj then none else y.myInode obj
  deletions : ∀ obj, y'.deletions obj =
    y.deletions obj + if y.unlinked obj ∧ y.IsOpen obj ∧ ¬ y'.IsOpen obj then 1 else 0

theorem Closes.isOpen (h : Closes y y') (hopen : y'.IsOpen obj) : y.IsOpen obj := by
  obtain ⟨i, hi, hobj⟩ := hopen
  rw [h.nHandles] at hi
  exact ⟨i, hi, h.inode i hi obj hobj⟩

theorem Closes.trans (h₁ : Closes y y') (h₂ : Closes y' y'') : Closes y y'' := by
  -- an object that is closed does not come back
  have hback : ∀ obj, ¬ y'.IsOpen obj → ¬ y''.IsOpen obj := fun obj hmid hend => hmid (h₂.isOpen hend)
  refine ⟨h₂.nHandles.trans h₁.nHandles, h₂.unlinked.trans h₁.unlinked, fun i hi obj h => ?_,
    fun obj => ?_, fun obj => ?_⟩
  · exact h₁.inode i hi obj (h₂.inode i (h₁.nHandles ▸ hi) obj h)
  · rw [h₂.myInode, h₁.myInode]
    by_cases hmid : y'.IsOpen obj
    · simp only [hmid, h₁.isOpen hmid, not_true_eq_false, and_false, if_false, true_and]
    · simp only [hmid, hback obj hmid, not_false_eq_true, and_true, if_false]
  · rw [h₂.deletions, h₁.deletions, h₁.unlinked, Nat.add_assoc]
    congr 1
    by_cases hmid : y'.IsOpen obj
    · simp only [hmid, h₁.isOpen hmid, not_true_eq_false, and_false, if_false, true_and, Nat.zero_add]
    · simp only [hmid, hback obj hmid, not_false_eq_true, and_true, and_false, if_false,
        Nat.add_zero]

/-- Only these fields matter. -/
theorem Closes.of_eq (hn : y'.nHandles = y.nHandles) (hinode : y'.inode = y.inode)
    (hunlinked : y'.unlinked = y.unlinked) (hmyInode : y'.myInode = y.myInode)
    (hcalls : ∀ obj, y'.deletions obj = y.deletions obj) : Closes y y' := by
  have hopen : ∀ obj, y'.IsOpen obj ↔ y.IsOpen obj := by
    intro obj
    rw [IsOpen, IsOpen, hn, hinode]
  refine ⟨hn, hunlinked, fun i hi obj h => ?_, fun obj => ?_, fun obj => ?_⟩
  · rwa [hinode] at h
  · simp only [hopen, and_not_self, if_false, hmyInode]
  · simp only [hopen, and_not_self, and_false, if_false, hcalls, Nat.add_zero]

theorem Closes.refl : Closes y y := .of_eq rfl rfl rfl rfl fun _ => rfl

/-- The last descriptor takes the object with it. -/
theorem freed_isOpen (hy : FdsCounted y) (hi : i < y.nHandles) (hobj : y.inode i = some obj) :
    (y.freed f c i obj).IsOpen o ↔ y.IsOpen o ∧ ¬ (y.count i ≤ 1 ∧ o = obj) := by
  constructor
  · rintro ⟨j, hj, hjo⟩
    refine ⟨⟨j, hj, inode_of_freed hjo⟩, ?_⟩
    rintro ⟨hlast, rfl⟩
    obtain rfl := hy.distinct j hj i hi o (inode_of_freed hjo) hobj
    simp [freed, hlast] at hjo
  · rintro ⟨⟨j, hj, hjo⟩, hnot⟩
    refine ⟨j, hj, ?_⟩
    by_cases hlast : y.count i ≤ 1
    · have hji : j ≠ i := by
        rintro rfl
        rw [hobj, Option.some.injEq] at hjo
        exact hnot ⟨hlast, hjo.symm⟩
      simp only [freed, if_pos hlast, Function.update_of_ne hji]
      exact hjo
    · simp only [freed, if_neg hlast]
      exact hjo

/-- **A freed descriptor deletes what is unlinked and not open any more**. -/
theorem freed_closes (hy : FdsCounted y) (hi : i < y.nHandles) (hobj : y.inode i = some obj) :
    Closes y (y.freed f c i obj) := by
  have hopen := fun o => freed_isOpen (f := f) (c := c) (o := o) hy hi hobj
  have hwas : y.IsOpen obj := ⟨i, hi, hobj⟩
  have hclosed : ∀ o, (y.IsOpen o ∧ ¬ (y.freed f c i obj).IsOpen o) ↔ y.count i ≤ 1 ∧ o = obj := by
    intro o
    rw [hopen]
    constructor
    · rintro ⟨ho, hnot⟩
      by_contra hkeep
      exact hnot ⟨ho, hkeep⟩
    · rintro ⟨hlast, rfl⟩
      exact ⟨hwas, fun hstill => hstill.2 ⟨hlast, rfl⟩⟩
  refine ⟨rfl, rfl, fun j _ o h => inode_of_freed h, fun o => ?_, fun o => ?_⟩
  · simp only [hclosed]
    by_cases hlast : y.count i ≤ 1
    · by_cases ho : o = obj
      · simp [freed, hlast, ho]
      · simp [freed, hlast, ho]
    · simp [freed, hlast]
  simp only [hclosed]
  by_cases hdel : y.count i ≤ 1 ∧ y.unlinked obj = true
  · have hcalls : (y.freed f c i obj).calls = y.calls ++ [.delObj obj] := if_pos hdel
    have hsame : (GutsCall.delObj obj == GutsCall.delObj o) = decide (o = obj) := by
      rw [Bool.eq_iff_iff, beq_iff_eq, GutsCall.delObj.injEq, decide_eq_true_eq]
      exact eq_comm
    rw [YaffsTables.deletions, hcalls, List.count_append, List.count_singleton]
    by_cases ho : o = obj
    · simp [ho, hdel, YaffsTables.deletions]
    · simp [hsame, ho, YaffsTables.deletions]
  · have hcalls : (y.freed f c i obj).calls = y.calls := if_neg hdel
    have hnone : ¬ (y.unlinked o = true ∧ y.count i ≤ 1 ∧ o = obj) := by
      rintro ⟨hunlinked, hlast, rfl⟩
      exact hdel ⟨hlast, hunlinked⟩
    rw [YaffsTables.deletions, hcalls, if_neg hnone, Nat.add_zero, YaffsTables.deletions]

theorem PutSpec.closes {h : Int} (hy : FdsCounted y) (hput : PutSpec y h y') : Closes y y' := by
  cases hput with
  | same => exact .refl
  | pinned => exact .of_eq rfl rfl rfl rfl fun _ => rfl
  | shared => exact .of_eq rfl rfl rfl rfl fun _ => rfl
  | @last k f i obj hk hh huse hf hfd hlast hid hobj =>
    have hfreed : Closes y (y.freed f 0 i obj) :=
      freed_closes hy (hy.inodeId_lt hf (by omega) hid) hobj
    exact hfreed.trans (.of_eq rfl rfl rfl rfl fun _ => rfl)

theorem BreakSpec.closes (hy : FdsCounted y) (hbreak : BreakSpec dev y i y') : Closes y y' := by
  cases hbreak with
  | free => exact .refl
  | kept => exact .of_eq rfl rfl rfl rfl fun _ => rfl
  | @broken f j obj huse hf hfd hused hid hobj hdev =>
    have hfreed : Closes y (y.freed f 0 j obj) := freed_closes hy (hy.inodeId_lt hf hused hid) hobj
    exact hfreed.trans (.of_eq rfl rfl rfl rfl fun _ => rfl)

/-- The whole loop of a forced unmount. -/
theorem breakDeviceHandles_closes (hy : FdsCounted y) (hbreak : y.breakDeviceHandles dev = some y') :
    Closes y y' := by
  let Inv (_ : Nat) (z : YaffsTables Obj) : Prop := z.nHandles = y.nHandles ∧ FdsCounted z ∧ Closes y z
  have hinit : Inv 0 y := ⟨rfl, hy, .refl⟩
  obtain ⟨z, hfold, -, -, hcloses⟩ :=
    WhileLoop.foldlM_range (n := y.nHandles) (f := breakHandle dev) hinit fun k hk z hz => by
      obtain ⟨hn, hfds, hcloses⟩ := hz
      obtain ⟨z', hz', hbreak⟩ := breakHandle_spec dev (y := z) (hn ▸ hk)
      exact ⟨z', hz', hbreak.nHandles.trans hn, hbreak.fdsCounted hfds,
        hcloses.trans (hbreak.closes hfds)⟩
  rw [breakDeviceHandles, hfold, Option.some.injEq] at hbreak
  exact hbreak ▸ hcloses

/-- An open adds its object and deletes nothing. -/
theorem opened_isOpen {flags : OpenFlags} {m : FileDesMode} (hslot : InodeSlot y obj i) :
    (y.opened h f i obj flags m).IsOpen o ↔ y.IsOpen o ∨ o = y.getEquivalentObj obj := by
  constructor
  · rintro ⟨j, hj, hjo⟩
    by_cases hji : j = i
    · subst hji
      simp only [opened, Function.update_self, Option.some.injEq] at hjo
      exact .inr hjo.symm
    · simp only [opened, Function.update_of_ne hji] at hjo
      exact .inl ⟨j, hj, hjo⟩
  · rintro (⟨j, hj, hjo⟩ | rfl)
    · refine ⟨j, hj, ?_⟩
      by_cases hji : j = i
      · subst hji
        cases hslot with
        | old hi hobj => simpa [opened, hobj] using hjo
        | new hi hfree hnot => simp [hfree] at hjo
      · simp only [opened, Function.update_of_ne hji]
        exact hjo
    · exact ⟨i, hslot.lt, Function.update_self ..⟩

theorem opened_deletions {flags : OpenFlags} {m : FileDesMode} :
    (y.opened h f i obj flags m).deletions o = y.deletions o := by
  unfold YaffsTables.deletions opened
  cases flags.trunc && m.writing with
  | true => simp
  | false => rfl

theorem openDenied_none {o : FoundObj Obj} {flags : OpenFlags} {m : FileDesMode}
    (hopen : y.openDenied o flags m = none) :
    o.variantType ≠ .directory ∧ y.sharingConflict o.obj m = false := by
  unfold openDenied at hopen
  split at hopen
  · cases hopen
  rename_i hdir
  split at hopen
  · cases hopen
  split at hopen
  · cases hopen
  split at hopen
  · cases hopen
  split at hopen
  · cases hopen
  rename_i hconflict
  exact ⟨hdir, Bool.eq_false_of_not_eq_true hconflict⟩

/-- The object that an open opens is a file that it found, or one that it created. -/
theorem objectToOpen_ok {l : Lookup Obj} {flags : OpenFlags} {m : FileDesMode}
    (hopen : y.objectToOpen l flags m = .ok obj) :
    (∃ o ∈ l.obj, o.obj = obj ∧ o.variantType = .file ∧ y.sharingConflict obj m = false) ∨
      obj ∈ l.created := by
  unfold objectToOpen at hopen
  cases hfilter : l.obj.filter fun o => o.variantType ≠ .other with
  | some o =>
    obtain ⟨hfound, hother⟩ := Option.filter_eq_some_iff.mp hfilter
    simp only [hfilter] at hopen
    split at hopen
    · cases hopen
    rename_i hdenied
    cases hopen
    obtain ⟨hdir, hconflict⟩ := openDenied_none hdenied
    refine .inl ⟨o, hfound, rfl, ?_, hconflict⟩
    cases htype : o.variantType with
    | file => rfl
    | directory => exact absurd htype hdir
    | other => simp [htype] at hother
  | none =>
    simp only [hfilter] at hopen
    right
    split at hopen
    · cases hopen
    split at hopen
    · cases hopen
    split at hopen
    · cases hopen
    split at hopen
    swap
    · cases hopen
    split at hopen
    · cases hopen
    split at hopen
    · rename_i hcreated
      cases hopen
      exact hcreated
    · cases hopen

/-! ## The hook of an object -/

/-- `my_inode` leads to the entry of the object, if there is one. -/
def Hooked (y : YaffsTables Obj) : Prop :=
  ∀ obj (i : Int), y.myInode obj = some i ↔ ∃ j < y.nHandles, i = j ∧ y.inode j = some obj

omit [DecidableEq Obj] in
theorem Hooked.isOpen (hy : Hooked y) (h : (y.myInode obj).isSome) : y.IsOpen obj := by
  obtain ⟨i, hi⟩ := Option.isSome_iff_exists.mp h
  obtain ⟨j, hj, -, hobj⟩ := (hy obj i).mp hi
  exact ⟨j, hj, hobj⟩

theorem Closes.hooked (hy : Hooked y) (hfds : FdsCounted y) (hcloses : Closes y y') :
    Hooked y' := by
  intro obj i
  rw [hcloses.myInode]
  by_cases hopen : y'.IsOpen obj
  · obtain ⟨k, hk, hkobj⟩ := hopen
    rw [hcloses.nHandles] at hk
    have hkwas := hcloses.inode k hk obj hkobj
    rw [if_neg fun h => h.2 ⟨k, hcloses.nHandles ▸ hk, hkobj⟩, hy, hcloses.nHandles]
    constructor
    · rintro ⟨j, hj, rfl, hjobj⟩
      -- an object has one entry
      obtain rfl := hfds.distinct j hj k hk obj hjobj hkwas
      exact ⟨j, hj, rfl, hkobj⟩
    · rintro ⟨j, hj, rfl, hjobj⟩
      exact ⟨j, hj, rfl, hcloses.inode j hj obj hjobj⟩
  · have hnone : (if y.IsOpen obj ∧ ¬ y'.IsOpen obj then none else y.myInode obj) = none := by
      split
      · rfl
      · rename_i hstill
        by_contra hsome
        exact hstill ⟨hy.isOpen (Option.isSome_iff_ne_none.mpr hsome), hopen⟩
    rw [hnone]
    constructor
    · intro h
      cases h
    · rintro ⟨j, hj, -, hjobj⟩
      exact absurd ⟨j, hj, hjobj⟩ hopen

/-- A found file stands for itself, and a created one is not open. -/
def Lookup.Direct (y : YaffsTables Obj) (l : Lookup Obj) : Prop :=
  (∀ o ∈ l.obj, o.variantType = .file → y.getEquivalentObj o.obj = o.obj) ∧
    ∀ obj ∈ l.created, y.getEquivalentObj obj = obj ∧ ¬ y.IsOpen obj

theorem Lookup.Direct.equivalent {l : Lookup Obj} {flags : OpenFlags} {m : FileDesMode}
    (hl : Lookup.Direct y l) (hopen : y.objectToOpen l flags m = .ok obj) :
    y.getEquivalentObj obj = obj := by
  rcases objectToOpen_ok hopen with ⟨o, ho, rfl, hfile, -⟩ | hcreated
  · exact hl.1 o ho hfile
  · exact (hl.2 obj hcreated).1

theorem opened_hooked {flags : OpenFlags} {m : FileDesMode} (hy : Hooked y) (hfds : FdsCounted y)
    (hslot : InodeSlot y obj i) (hequiv : y.getEquivalentObj obj = obj) :
    Hooked (y.opened h f i obj flags m) := by
  intro o n
  show Function.update y.myInode obj (some (i : Int)) o = some n ↔
    ∃ j < y.nHandles, n = j ∧ Function.update y.inode i (some (y.getEquivalentObj obj)) j = some o
  rw [hequiv]
  by_cases ho : o = obj
  · subst ho
    rw [Function.update_self, Option.some.injEq]
    constructor
    · rintro rfl
      exact ⟨i, hslot.lt, rfl, Function.update_self ..⟩
    · rintro ⟨j, hj, rfl, hjo⟩
      by_cases hji : j = i
      · rw [hji]
      · rw [Function.update_of_ne hji] at hjo
        cases hslot with
        | old hi hobj =>
          rw [hequiv] at hobj
          exact absurd (hfds.distinct j hj i hi o hjo hobj) hji
        | new hi hfree hnot =>
          rw [hequiv] at hnot
          exact absurd hjo (hnot j hj)
  · rw [Function.update_of_ne ho, hy]
    refine exists_congr fun j => and_congr_right fun hj => and_congr_right fun _ => ?_
    by_cases hji : j = i
    · subst hji
      rw [Function.update_self, Option.some.injEq]
      constructor
      · intro hjo
        cases hslot with
        | old hi hobj =>
          rw [hobj, hequiv, Option.some.injEq] at hjo
          exact hjo
        | new hi hfree hnot =>
          rw [hfree] at hjo
          cases hjo
      · intro hobj
        exact absurd hobj.symm ho
    · rw [Function.update_of_ne hji]

theorem OpenSpec.hooked {path : OpenPath Obj} {flags : OpenFlags} {m : FileDesMode}
    {r : Int × YaffsTables Obj} (hy : Hooked y) (hfds : FdsCounted y)
    (hdirect : ∀ l, path = .path l → Lookup.Direct y l) (hopen : OpenSpec y path flags m r) :
    Hooked r.2 := by
  cases hopen with
  | invalid => exact hy
  | noHandle => exact hy
  | noFd => exact hy
  | denied => exact hy
  | @opened l h f i obj hpath hh hf hfree hobj hslot =>
    exact opened_hooked hy hfds hslot ((hdirect l hpath).equivalent hobj)

/-! ## One deletion -/

/-- One deletion for each unlinked object that is not open. -/
def DeletedOnce (y : YaffsTables Obj) : Prop :=
  ∀ obj, y.deletions obj = if y.unlinked obj ∧ ¬ y.IsOpen obj then 1 else 0

theorem Closes.deletedOnce (hy : DeletedOnce y) (hcloses : Closes y y') :
    DeletedOnce y' := by
  intro obj
  rw [hcloses.deletions, hy obj, hcloses.unlinked]
  have hsub : y'.IsOpen obj → y.IsOpen obj := hcloses.isOpen
  by_cases hopen : y.IsOpen obj
  · simp only [hopen, not_true_eq_false, and_false, if_false, true_and, Nat.zero_add]
  · have hopen' : ¬ y'.IsOpen obj := fun h => hopen (hsub h)
    simp only [hopen, hopen', not_false_eq_true, and_true, and_false, if_false, Nat.add_zero]

theorem OpenSpec.deletedOnce {path : OpenPath Obj} {flags : OpenFlags}
    {m : FileDesMode} {r : Int × YaffsTables Obj} (hy : DeletedOnce y)
    (hlinked : ∀ l, path = .path l → (∀ o ∈ l.obj, y.unlinked (y.getEquivalentObj o.obj) = false) ∧
      ∀ obj ∈ l.created, y.unlinked (y.getEquivalentObj obj) = false)
    (hopen : OpenSpec y path flags m r) : DeletedOnce r.2 := by
  cases hopen with
  | invalid => exact hy
  | noHandle => exact hy
  | noFd => exact hy
  | denied => exact hy
  | @opened l h f i obj hpath hh hf hfree hobj hslot =>
    have hunlinked : y.unlinked (y.getEquivalentObj obj) = false := by
      rcases objectToOpen_ok hobj with ⟨o, ho, rfl, -⟩ | hcreated
      · exact (hlinked l hpath).1 o ho
      · exact (hlinked l hpath).2 obj hcreated
    intro o
    show (y.opened h f i obj flags m).deletions o =
      if y.unlinked o = true ∧ ¬ (y.opened h f i obj flags m).IsOpen o then 1 else 0
    rw [opened_deletions, hy o]
    simp only [opened_isOpen hslot]
    by_cases ho : o = y.getEquivalentObj obj
    · simp [ho, hunlinked]
    · simp [ho]

theorem DupSpec.closes {h : Int} {r : Int × YaffsTables Obj} (hdup : DupSpec y h r) :
    Closes y r.2 := by
  cases hdup with
  | refused => exact .of_eq rfl rfl rfl rfl fun _ => rfl
  | dup => exact .of_eq rfl rfl rfl rfl fun _ => rfl

/-- A flush deletes nothing. -/
theorem CloseSpec.closes {flush : Obj → GutsCall Obj} (hflush : ∀ o o', flush o ≠ .delObj o')
    {h : Int} {r : Int × YaffsTables Obj} (hy : FdsCounted y) (hclose : CloseSpec flush y h r) :
    Closes y r.2 := by
  cases hclose with
  | refused => exact .of_eq rfl rfl rfl rfl fun _ => rfl
  | @closed obj y' hobj hput =>
    have hcall : FdsCounted (y.call (flush obj)) :=
      hy.congr rfl rfl rfl rfl fun f hf => ⟨rfl, fun _ => rfl⟩
    have hcalls : Closes y (y.call (flush obj)) := .of_eq rfl rfl rfl rfl fun o => by
      unfold YaffsTables.deletions call
      rw [List.count_append, List.count_singleton, if_neg]
      · rfl
      · simpa using hflush obj o
    exact hcalls.trans (hput.closes hcall)

theorem getHandle_closes {h : Int} : Closes y (y.getHandle h) := by
  unfold getHandle
  split
  · split
    · exact .of_eq rfl rfl rfl rfl fun _ => rfl
    · exact .refl
  · exact .refl

theorem yaffsUnmount2_closes {force : Bool} {r : Int × YaffsTables Obj} (hy : FdsCounted y)
    (hunmount : y.yaffsUnmount2 dev force = some r) : Closes y r.2 := by
  unfold yaffsUnmount2 at hunmount
  split at hunmount
  · split at hunmount
    · obtain ⟨y', hbreak, rfl⟩ := Option.map_eq_some_iff.mp hunmount
      exact breakDeviceHandles_closes hy hbreak
    · cases hunmount
      exact .of_eq rfl rfl rfl rfl fun _ => rfl
  · cases hunmount
    exact .refl

/-- YAFFS is mounted while nothing is open. -/
theorem initHandles_closes (hnone : ∀ i < y.nHandles, y.inode i = none) : Closes y y.initHandles := by
  have hopen : ∀ obj, ¬ y.IsOpen obj := by
    rintro obj ⟨i, hi, hobj⟩
    rw [hnone i hi] at hobj
    cases hobj
  refine ⟨rfl, rfl, fun i hi obj hobj => ?_, fun obj => ?_, fun obj => ?_⟩
  · have hentry : y.initHandles.inode i = none := if_pos hi
    rw [hentry] at hobj
    cases hobj
  · rw [if_neg fun h => hopen obj h.1]
    rfl
  · rw [if_neg fun h => hopen obj h.2.1]
    rfl

end YaffsTables

/-! ## Runs -/

namespace YaffsState

open YaffsTables

variable {Obj : Type} [DecidableEq Obj] {s s' s₀ : YaffsState Obj} {e : FileEvent Obj}

/-- Opens find files, not links, and create new objects. -/
def Resolved (s : YaffsState Obj) : FileEvent Obj → Prop
  | .openSharing (.path l) _ _ _ => Lookup.Direct s.tables l
  | _ => True

instance (l : Lookup Obj) : Decidable (Lookup.Direct y l) :=
  inferInstanceAs (Decidable (_ ∧ _))

instance (s : YaffsState Obj) (e : FileEvent Obj) : Decidable (s.Resolved e) :=
  match e with
  | .openSharing (.path l) _ _ _ => inferInstanceAs (Decidable (Lookup.Direct s.tables l))
  | .openSharing .null _ _ _ | .openSharing .tooLong _ _ _ | .dup _ | .close _ | .abortClose _
  | .enterIo _ | .leaveIo _ | .unlink _ | .mount | .unmount .. => inferInstanceAs (Decidable True)

/-- Paths do not lead to unlinked objects, only an object with `my_inode` is marked as unlinked
    (any other is deleted at once), and YAFFS is mounted while nothing is open. -/
def Linked (s : YaffsState Obj) : FileEvent Obj → Prop
  | .openSharing (.path l) _ _ _ =>
    (∀ o ∈ l.obj, s.tables.unlinked (s.tables.getEquivalentObj o.obj) = false) ∧
      ∀ obj ∈ l.created, s.tables.unlinked (s.tables.getEquivalentObj obj) = false
  | .unlink obj => (s.tables.myInode obj).isSome
  | .mount => ∀ i < s.tables.nHandles, s.tables.inode i = none
  | _ => True

instance (s : YaffsState Obj) (e : FileEvent Obj) : Decidable (s.Linked e) :=
  match e with
  | .openSharing (.path l) _ _ _ => inferInstanceAs (Decidable
      ((∀ o ∈ l.obj, s.tables.unlinked (s.tables.getEquivalentObj o.obj) = false) ∧
        ∀ obj ∈ l.created, s.tables.unlinked (s.tables.getEquivalentObj obj) = false))
  | .unlink obj => inferInstanceAs (Decidable (s.tables.myInode obj).isSome)
  | .mount => inferInstanceAs (Decidable (∀ i < s.tables.nHandles, s.tables.inode i = none))
  | .openSharing .null _ _ _ | .openSharing .tooLong _ _ _ | .dup _ | .close _ | .abortClose _
  | .enterIo _ | .leaveIo _ | .unmount .. => inferInstanceAs (Decidable True)

/-- Hooks and deletions follow the open objects. -/
structure Follows (s : YaffsState Obj) : Prop where
  hooked : Hooked s.tables
  deleted : DeletedOnce s.tables

theorem Follows.closes (hs : s.Follows) (hfds : FdsCounted s.tables)
    (hcloses : Closes s.tables s'.tables) : s'.Follows :=
  ⟨hcloses.hooked hs.hooked hfds, hcloses.deletedOnce hs.deleted⟩

theorem StepSpec.follows (hs : s.Counted) (hfollows : s.Follows) (hlinked : s.Linked e)
    (hres : s.Resolved e) (hspec : s.StepSpec e s') : s'.Follows := by
  have hfds := hs.1
  cases hspec with
  | @openSharing path flags shareRead shareWrite r hopen =>
    constructor
    · refine hopen.hooked hfollows.hooked hfds fun l hpath => ?_
      subst hpath
      exact hres
    · refine hopen.deletedOnce hfollows.deleted fun l hpath => ?_
      subst hpath
      exact hlinked
  | dup hdup => exact hfollows.closes hfds hdup.closes
  | close hclose => exact hfollows.closes hfds (hclose.closes (by simp) hfds)
  | abortClose hclose => exact hfollows.closes hfds (hclose.closes (by simp) hfds)
  | enterIo hobj => exact hfollows.closes hfds getHandle_closes
  | leaveIo hmem hput => exact hfollows.closes hfds (hput.closes hfds)
  | @unlink obj =>
    refine ⟨hfollows.hooked, fun o => ?_⟩
    have hopen : s.tables.IsOpen obj := hfollows.hooked.isOpen hlinked
    show s.tables.deletions o =
      if Function.update s.tables.unlinked obj true o = true ∧ ¬ s.tables.IsOpen o then 1 else 0
    rw [hfollows.deleted o]
    by_cases ho : o = obj
    · subst ho
      simp [hopen]
    · simp [ho]
  | mount => exact hfollows.closes hfds (initHandles_closes hlinked)
  | unmount hunmount => exact hfollows.closes hfds (yaffsUnmount2_closes hfds hunmount)

/-- **Deletion of unlinked files**. In every run `my_inode` leads to the entry of an object while
    it is open; YAFFS deletes an unlinked object once, with the last descriptor, and it deletes no
    object that is open and none that is not unlinked. -/
theorem deletions_of_run (hs₀ : AllClosed s₀.tables) (hhooks : ∀ obj, s₀.tables.myInode obj = none)
    (hunlinked : ∀ obj, s₀.tables.unlinked obj = false) (hcalls : s₀.tables.calls = [])
    (hs : ReachableUnder s₀ step (fun s e => s.InTable e ∧ s.Linked e ∧ s.Resolved e) s) (obj : Obj) :
    (∀ i : Int, s.tables.myInode obj = some i ↔
      ∃ j < s.tables.nHandles, i = j ∧ s.tables.inode j = some obj) ∧
    s.tables.deletions obj = if s.tables.unlinked obj ∧ ¬ s.tables.IsOpen obj then 1 else 0 := by
  have hinit : s₀.Follows := by
    refine ⟨fun o i => ?_, fun o => ?_⟩
    · rw [hhooks]
      constructor
      · intro h
        cases h
      · rintro ⟨j, hj, -, hobj⟩
        rw [hs₀.inode j hj] at hobj
        cases hobj
    · rw [deletions, hcalls, hunlinked]
      simp
  obtain ⟨-, hfollows⟩ := invariant_of_run (P := Follows) hs₀ hinit
    (fun s e s' hcounted hfollows _ hok hspec => hspec.follows hcounted hfollows hok.1 hok.2) hs
  exact ⟨hfollows.hooked obj, hfollows.deleted obj⟩

/-- Object 7 is unlinked while two descriptors and a read use it. -/
theorem deletions_of_run_unlinked : ∃ s : YaffsState Nat,
    (ReachableUnder (noFiles 4) step (fun s e => s.InTable e ∧ s.Linked e ∧ s.Resolved e) s ∧
      s.tables.unlinked 7 = true ∧ s.tables.calls.getLast? = some (.delObj 7)) ∧
    ∀ obj, (∀ i : Int, s.tables.myInode obj = some i ↔
        ∃ j < s.tables.nHandles, i = j ∧ s.tables.inode j = some obj) ∧
      s.tables.deletions obj = if s.tables.unlinked obj ∧ ¬ s.tables.IsOpen obj then 1 else 0 := by
  obtain ⟨s, hs, hfinal⟩ := exists_of_runUnder (noFiles 4) step
    (fun s e => s.InTable e ∧ s.Linked e ∧ s.Resolved e)
    (fun s => s.tables.unlinked 7 = true ∧ s.tables.calls.getLast? = some (.delObj 7))
    [openFile 7 ⟨.rdwr, false, false, false, false⟩ true true,
      openFile 7 ⟨.rdonly, false, false, false, false⟩ true true, .unlink 7, .enterIo 1, .close 1,
      .close 0, .leaveIo 1] (by decide)
  exact ⟨s, ⟨hs, hfinal⟩,
    deletions_of_run (noFiles_allClosed 4) (fun _ => rfl) (fun _ => rfl) rfl hs⟩

end YaffsState

end TxFS
