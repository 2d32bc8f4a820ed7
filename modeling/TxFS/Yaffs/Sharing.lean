import TxFS.Yaffs.Deletion

/-!
# Sharing Modes

`yaffs_open_sharing` says with each open what it does with the file and what it lets others do.
The scan in the open compares the request with the descriptors there are at that moment;
`sharing_of_run` is what the scans together guarantee at every later moment.
-/

namespace TxFS

/-- Each of two descriptors lets the other do what it does. -/
def FileDesMode.Compatible (m m' : FileDesMode) : Prop :=
  (m.reading → m'.shareRead) ∧ (m.writing → m'.shareWrite) ∧
    (m'.reading → m.shareRead) ∧ (m'.writing → m.shareWrite)

theorem FileDesMode.Compatible.symm {m m' : FileDesMode} (h : m.Compatible m') : m'.Compatible m :=
  ⟨h.2.2.1, h.2.2.2, h.1, h.2.1⟩

open RefTable GuardedRun

namespace YaffsTables

variable {Obj : Type} {y y' y'' : YaffsTables Obj} {f g h i : Nat} {obj : Obj} {dev : Int}

/-- The descriptors of an inode agree. -/
def ModesCompatible (y : YaffsTables Obj) : Prop :=
  ∀ f < y.nHandles, ∀ g < y.nHandles, f ≠ g → 0 < (y.fd f).handleCount → 0 < (y.fd g).handleCount →
    (y.fd f).inodeId = (y.fd g).inodeId → (y.mode f).Compatible (y.mode g)

/-- The descriptors in use were in use, with the same inode and the same mode. -/
structure NoNewFds (y y' : YaffsTables Obj) : Prop where
  nHandles : y'.nHandles = y.nHandles
  fd : ∀ f < y.nHandles, 0 < (y'.fd f).handleCount →
    0 < (y.fd f).handleCount ∧ (y'.fd f).inodeId = (y.fd f).inodeId ∧ y'.mode f = y.mode f

theorem NoNewFds.of_eq (hn : y'.nHandles = y.nHandles) (hfd : y'.fd = y.fd)
    (hmode : y'.mode = y.mode) : NoNewFds y y' := by
  refine ⟨hn, fun f _ hused => ?_⟩
  rw [hfd] at hused ⊢
  rw [hmode]
  exact ⟨hused, rfl, rfl⟩

theorem NoNewFds.trans (h₁ : NoNewFds y y') (h₂ : NoNewFds y' y'') : NoNewFds y y'' := by
  refine ⟨h₂.nHandles.trans h₁.nHandles, fun f hf hused => ?_⟩
  obtain ⟨hused', hid, hmode⟩ := h₂.fd f (h₁.nHandles ▸ hf) hused
  obtain ⟨hused'', hid', hmode'⟩ := h₁.fd f hf hused'
  exact ⟨hused'', hid.trans hid', hmode.trans hmode'⟩

theorem NoNewFds.modesCompatible (hy : ModesCompatible y) (h : NoNewFds y y') :
    ModesCompatible y' := by
  intro f hf g hg hne hfused hgused hid
  rw [h.nHandles] at hf hg
  obtain ⟨hfused', hfid, hfmode⟩ := h.fd f hf hfused
  obtain ⟨hgused', hgid, hgmode⟩ := h.fd g hg hgused
  rw [hfmode, hgmode]
  exact hy f hf g hg hne hfused' hgused' (hfid ▸ hgid ▸ hid)

theorem AllClosed.modesCompatible (hy : AllClosed y) : ModesCompatible y := by
  intro f hf g hg hne hused
  have hclosed := hy.fd f hf
  omega

/-- One descriptor gets another count. -/
theorem setFd_noNewFds {c d : Int} (hused : 0 < c → 0 < (y.fd f).handleCount ∧ d = (y.fd f).inodeId) :
    NoNewFds y (y.setFd f c d) := by
  refine ⟨rfl, fun g _ hgused => ?_⟩
  by_cases hgf : g = f
  · subst hgf
    simp only [setFd, Function.update_self] at hgused ⊢
    obtain ⟨hused', hid⟩ := hused hgused
    exact ⟨hused', hid, trivial⟩
  · simp only [setFd, Function.update_of_ne hgf] at hgused ⊢
    exact ⟨hgused, trivial, trivial⟩

variable [DecidableEq Obj]

theorem PutSpec.noNewFds {h : Int} (hput : PutSpec y h y') : NoNewFds y y' := by
  cases hput with
  | same => exact .of_eq rfl rfl rfl
  | pinned => exact .of_eq rfl rfl rfl
  | @shared k f hk hh huse hf hfd hmore =>
    have hset : NoNewFds y (y.setFd f ((y.fd f).handleCount - 1) (y.fd f).inodeId) :=
      setFd_noNewFds fun _ => ⟨by omega, rfl⟩
    exact hset.trans (.of_eq rfl rfl rfl)
  | @last k f i obj hk hh huse hf hfd hlast hid hobj =>
    have hset : NoNewFds y (y.setFd f 0 (-1)) := setFd_noNewFds fun h => absurd h (by decide)
    exact hset.trans (.of_eq rfl rfl rfl)

theorem BreakSpec.noNewFds (hbreak : BreakSpec dev y i y') : NoNewFds y y' := by
  cases hbreak with
  | free => exact .of_eq rfl rfl rfl
  | kept => exact .of_eq rfl rfl rfl
  | @broken f j obj huse hf hfd hused hid hobj hdev =>
    have hset : NoNewFds y (y.setFd f 0 (-1)) := setFd_noNewFds fun h => absurd h (by decide)
    exact hset.trans (.of_eq rfl rfl rfl)

theorem breakDeviceHandles_noNewFds (hbreak : y.breakDeviceHandles dev = some y') :
    NoNewFds y y' := by
  obtain ⟨z, hfold, hz⟩ := WhileLoop.foldlM_range (n := y.nHandles) (f := breakHandle dev)
    (P := fun _ z => NoNewFds y z) (.of_eq rfl rfl rfl) fun k hk z hz => by
      obtain ⟨z', hz', hbreak⟩ := breakHandle_spec dev (y := z) (hz.nHandles ▸ hk)
      exact ⟨z', hz', hz.trans hbreak.noNewFds⟩
  rw [breakDeviceHandles, hfold, Option.some.injEq] at hbreak
  exact hbreak ▸ hz

omit [DecidableEq Obj] in
theorem DupSpec.noNewFds {h : Int} {r : Int × YaffsTables Obj} (hhy : HandlesCounted y)
    (hdup : DupSpec y h r) : NoNewFds y r.2 := by
  cases hdup with
  | refused => exact .of_eq rfl rfl rfl
  | @dup k h' f hk hh huse hfd hf hh' =>
    obtain ⟨f', -, hfd', hused⟩ := hhy.fd hk huse
    obtain rfl : f = f' := Int.ofNat_inj.mp (hfd.symm.trans hfd')
    have hset : NoNewFds (y.setHandle h' ⟨f, 1⟩)
        ((y.setHandle h' ⟨f, 1⟩).setFd f ((y.fd f).handleCount + 1) (y.fd f).inodeId) :=
      setFd_noNewFds fun _ => ⟨hused, rfl⟩
    have hhandle : NoNewFds y (y.setHandle h' ⟨f, 1⟩) := .of_eq rfl rfl rfl
    exact hhandle.trans hset

theorem CloseSpec.noNewFds {flush : Obj → GutsCall Obj} {h : Int} {r : Int × YaffsTables Obj}
    (hclose : CloseSpec flush y h r) : NoNewFds y r.2 := by
  cases hclose with
  | refused => exact .of_eq rfl rfl rfl
  | @closed obj y' hobj hput =>
    have hcall : NoNewFds y (y.call (flush obj)) := .of_eq rfl rfl rfl
    exact hcall.trans hput.noNewFds

omit [DecidableEq Obj] in
theorem getHandle_noNewFds {h : Int} : NoNewFds y (y.getHandle h) := by
  unfold getHandle
  split
  · split
    · exact .of_eq rfl rfl rfl
    · exact .of_eq rfl rfl rfl
  · exact .of_eq rfl rfl rfl

theorem yaffsUnmount2_noNewFds {force : Bool} {r : Int × YaffsTables Obj}
    (hunmount : y.yaffsUnmount2 dev force = some r) : NoNewFds y r.2 := by
  unfold yaffsUnmount2 at hunmount
  split at hunmount
  · split at hunmount
    · obtain ⟨y', hbreak, rfl⟩ := Option.map_eq_some_iff.mp hunmount
      exact breakDeviceHandles_noNewFds hbreak
    · cases hunmount
      exact .of_eq rfl rfl rfl
  · cases hunmount
    exact .of_eq rfl rfl rfl

/-! ## The scan of an open -/

/-- A scan without a conflict. -/
theorem compatible_of_sharer {m : FileDesMode} (hscan : y.sharingConflict obj m = false)
    (hg : g ∈ y.sharers obj) : (y.mode g).Compatible m := by
  have hno := List.any_eq_false.mp hscan g hg
  simp only [Bool.or_eq_true, Bool.and_eq_true, Bool.not_eq_true', not_or, not_and,
    Bool.not_eq_true] at hno
  obtain ⟨⟨⟨hread, hreading⟩, hwrite⟩, hwriting⟩ := hno
  refine ⟨fun h => ?_, fun h => ?_, fun h => ?_, fun h => ?_⟩
  · by_contra hshare
    exact absurd h (Bool.eq_false_iff.mp (hreading (Bool.eq_false_of_not_eq_true hshare)))
  · by_contra hshare
    exact absurd h (Bool.eq_false_iff.mp (hwriting (Bool.eq_false_of_not_eq_true hshare)))
  · by_contra hshare
    exact absurd h (Bool.eq_false_iff.mp (hread (Bool.eq_false_of_not_eq_true hshare)))
  · by_contra hshare
    exact absurd h (Bool.eq_false_iff.mp (hwrite (Bool.eq_false_of_not_eq_true hshare)))

/-- **The new descriptor agrees with the old ones**. -/
theorem opened_modesCompatible {flags : OpenFlags} {m : FileDesMode} (hy : FdsCounted y)
    (hmodes : ModesCompatible y) (hf : f < y.nHandles) (hslot : InodeSlot y obj i)
    (hscan : ∀ g ∈ y.sharers (y.getEquivalentObj obj), (y.mode g).Compatible m) :
    ModesCompatible (y.opened h f i obj flags m) := by
  -- another descriptor of the inode was seen by the scan
  have hnew : ∀ g < y.nHandles, g ≠ f → 0 < (y.fd g).handleCount → (y.fd g).inodeId = i →
      (y.mode g).Compatible m := by
    intro g hg _ hused hid
    apply hscan
    cases hslot with
    | old hi hobj =>
      refine List.mem_filter.mpr ⟨List.mem_range.mpr hg, ?_⟩
      simp [hused, hid, hobj]
    | new hi hfree hnot =>
      obtain ⟨j, -, hid', o, ho⟩ := hy.inode hg hused
      obtain rfl : i = j := Int.ofNat_inj.mp (hid.symm.trans hid')
      rw [hfree] at ho
      cases ho
  have hfd : ∀ g, g ≠ f → (y.opened h f i obj flags m).fd g = y.fd g := fun g hg =>
    Function.update_of_ne hg ..
  have hmode : ∀ g, g ≠ f → (y.opened h f i obj flags m).mode g = y.mode g := fun g hg =>
    Function.update_of_ne hg ..
  have hfdf : ((y.opened h f i obj flags m).fd f).inodeId = i := by
    simp [opened]
  have hmodef : (y.opened h f i obj flags m).mode f = m := Function.update_self ..
  intro g hg k hk hne hgused hkused hid
  by_cases hgf : g = f
  · subst hgf
    have hkg := Ne.symm hne
    rw [hfd k hkg] at hkused hid
    rw [hfdf] at hid
    rw [hmodef, hmode k hkg]
    exact (hnew k hk hkg hkused hid.symm).symm
  · rw [hfd g hgf] at hgused hid
    rw [hmode g hgf]
    by_cases hkf : k = f
    · subst hkf
      rw [hfdf] at hid
      rw [hmodef]
      exact hnew g hg hgf hgused hid
    · rw [hfd k hkf] at hkused hid
      rw [hmode k hkf]
      exact hmodes g hg k hk hne hgused hkused hid

theorem OpenSpec.modesCompatible {path : OpenPath Obj} {flags : OpenFlags} {m : FileDesMode}
    {r : Int × YaffsTables Obj} (hy : FdsCounted y) (hmodes : ModesCompatible y)
    (hdirect : ∀ l, path = .path l → Lookup.Direct y l) (hopen : OpenSpec y path flags m r) :
    ModesCompatible r.2 := by
  cases hopen with
  | invalid => exact hmodes
  | noHandle => exact hmodes
  | noFd => exact hmodes
  | @denied l h f e hpath hh hf hfree hdenied =>
    -- the descriptor is free again
    have hdropped : NoNewFds y (y.dropped h f) := by
      refine ⟨rfl, fun g _ hgused => ?_⟩
      by_cases hgf : g = f
      · subst hgf
        simp [dropped] at hgused
      · simp only [dropped, Function.update_of_ne hgf] at hgused ⊢
        exact ⟨hgused, trivial, trivial⟩
    have hset : NoNewFds y ((y.dropped h f).setError e) := hdropped.trans (.of_eq rfl rfl rfl)
    exact hset.modesCompatible hmodes
  | @opened l h f i obj hpath hh hf hfree hobj hslot =>
    apply opened_modesCompatible hy hmodes hf hslot
    intro g hg
    rw [(hdirect l hpath).equivalent hobj] at hg
    rcases objectToOpen_ok hobj with ⟨o, ho, rfl, -, hscan⟩ | hnew
    · exact compatible_of_sharer hscan hg
    · -- a new object has no descriptors
      obtain ⟨hmem, hsharer⟩ := List.mem_filter.mp hg
      obtain ⟨hused, -, hinode⟩ := of_decide_eq_true hsharer
      have hvalid := hy.valid g (List.mem_range.mp hmem) hused
      exact absurd ⟨_, by omega, hinode⟩ ((hdirect l hpath).2 obj hnew).2

end YaffsTables

/-! ## Runs -/

namespace YaffsState

open YaffsTables

variable {Obj : Type} [DecidableEq Obj] {s s' s₀ : YaffsState Obj} {e : FileEvent Obj}

theorem StepSpec.modesCompatible (hs : s.Counted) (hmodes : ModesCompatible s.tables)
    (hres : s.Resolved e) (hspec : s.StepSpec e s') : ModesCompatible s'.tables := by
  cases hspec with
  | @openSharing path flags shareRead shareWrite r hopen =>
    refine hopen.modesCompatible hs.1 hmodes fun l hpath => ?_
    subst hpath
    exact hres
  | dup hdup => exact (hdup.noNewFds hs.2).modesCompatible hmodes
  | close hclose => exact hclose.noNewFds.modesCompatible hmodes
  | abortClose hclose => exact hclose.noNewFds.modesCompatible hmodes
  | enterIo hobj => exact getHandle_noNewFds.modesCompatible hmodes
  | leaveIo hmem hput => exact hput.noNewFds.modesCompatible hmodes
  | unlink => exact hmodes
  | mount => exact initHandles_allClosed.modesCompatible
  | unmount hunmount => exact (yaffsUnmount2_noNewFds hunmount).modesCompatible hmodes

/-- **Sharing modes**. At every moment of a run, two descriptors of an object let each other read
    and write what their opens asked for. -/
theorem sharing_of_run (hs₀ : AllClosed s₀.tables)
    (hs : ReachableUnder s₀ step (fun s e => s.InTable e ∧ s.Resolved e) s) (obj : Obj) :
    ∀ f ∈ s.tables.sharers obj, ∀ g ∈ s.tables.sharers obj, f ≠ g →
      (s.tables.mode f).Compatible (s.tables.mode g) := by
  obtain ⟨hcounted, hmodes⟩ := invariant_of_run (P := fun s => ModesCompatible s.tables) hs₀
    hs₀.modesCompatible
    (fun s e s' hcounted hmodes _ hres hspec => hspec.modesCompatible hcounted hmodes hres) hs
  intro f hf g hg hne
  obtain ⟨hfmem, hf⟩ := List.mem_filter.mp hf
  obtain ⟨hgmem, hg⟩ := List.mem_filter.mp hg
  obtain ⟨hfused, hfid, hfobj⟩ := of_decide_eq_true hf
  obtain ⟨hgused, hgid, hgobj⟩ := of_decide_eq_true hg
  have hflt := List.mem_range.mp hfmem
  have hglt := List.mem_range.mp hgmem
  refine hmodes f hflt g hglt hne hfused hgused ?_
  -- an object has one inode
  have hfvalid := hcounted.1.valid f hflt hfused
  have hgvalid := hcounted.1.valid g hglt hgused
  have hsame := hcounted.1.distinct _ (by omega) _ (by omega) obj hfobj hgobj
  omega

/-- A reader that lets nobody write, another reader behind it; a writer is refused. -/
theorem sharing_of_run_readers : ∃ s : YaffsState Nat,
    (ReachableUnder (noFiles 4) step (fun s e => s.InTable e ∧ s.Resolved e) s ∧
      s.tables.sharers 7 = [0, 1] ∧ s.tables.error = some .EBUSY) ∧
    ∀ f ∈ s.tables.sharers 7, ∀ g ∈ s.tables.sharers 7, f ≠ g →
      (s.tables.mode f).Compatible (s.tables.mode g) := by
  obtain ⟨s, hs, hfinal⟩ := exists_of_runUnder (noFiles 4) step
    (fun s e => s.InTable e ∧ s.Resolved e)
    (fun s => s.tables.sharers 7 = [0, 1] ∧ s.tables.error = some .EBUSY)
    [openFile 7 ⟨.rdonly, false, false, false, false⟩ true false,
      openFile 7 ⟨.rdonly, false, false, false, false⟩ true true,
      openFile 7 ⟨.rdwr, false, false, false, false⟩ true true] (by decide)
  exact ⟨s, ⟨hs, hfinal⟩, sharing_of_run (noFiles_allClosed 4) hs 7⟩

end YaffsState

end TxFS
