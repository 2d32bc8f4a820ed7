import TxFS.Lib.WhileLoop
import TxFS.Yaffs.References

/-!
# Runs of the Open Files

Every event of `YaffsState.step` keeps the reference counts, so they hold in every run; that the
events of a run do not overlap is what `yaffsfs_Lock` is for. The loop of
`yaffsfs_BreakDeviceHandles` is the exception in the middle: it clears the handles one by one and
drops the descriptors of the device, and the handles count again when it ends.
-/

namespace TxFS

open RefTable GuardedRun

namespace YaffsTables

variable {Obj : Type} [DecidableEq Obj] {y y' : YaffsTables Obj} {f h i j k : Nat} {obj : Obj}
  {dev : Int}

/-! ## Breaking the handles of a device -/

omit [DecidableEq Obj] in
/-- A handle that leads to an object. -/
theorem handleToObject_cases {h : Int} (hne : h ≠ y.nHandles) (hobj : y.handleToObject h = some obj) :
    ∃ k < y.nHandles, h = (k : Int) ∧ 0 < (y.handle k).useCount ∧
      ∃ f < y.nHandles, (y.handle k).fdId = f ∧ y.handleToFileDes h = some f ∧
        0 < (y.fd f).handleCount ∧
          ∃ i < y.nHandles, (y.fd f).inodeId = i ∧ y.inode i = some obj := by
  simp only [YaffsFiles.handleToObject, Option.bind_eq_bind, Option.bind_eq_some_iff] at hobj
  obtain ⟨f, hfd, hobj⟩ := hobj
  obtain ⟨k, hk, hh, huse, hfdId, hf⟩ := handleToFileDes_cases hne hfd
  split at hobj
  · rename_i hcond
    refine ⟨k, hk, hh, huse, f, hf, hfdId, hfd, hcond.1, _, ?_, ?_, hobj⟩
    · omega
    · omega
  · cases hobj

/-- **What one round does**: the handle is cleared, and a descriptor of the device goes. -/
inductive BreakSpec (dev : Int) (y : YaffsTables Obj) (i : Nat) : YaffsTables Obj → Prop where
  | free (hfree : ¬ 0 < (y.handle i).useCount) : BreakSpec dev y i y
  /-- The descriptor is of another device, or it is gone already. -/
  | kept (huse : 0 < (y.handle i).useCount)
      (hother : ∀ obj, y.handleToObject i = some obj → y.myDev obj ≠ dev) :
      BreakSpec dev y i (y.setHandle i ⟨0, 0⟩)
  | broken {f j : Nat} {obj : Obj} (huse : 0 < (y.handle i).useCount) (hf : f < y.nHandles)
      (hfd : (y.handle i).fdId = f) (hused : 0 < (y.fd f).handleCount) (hid : (y.fd f).inodeId = j)
      (hobj : y.inode j = some obj) (hdev : y.myDev obj = dev) :
      BreakSpec dev y i ((y.freed f 0 j obj).setHandle i ⟨0, 0⟩)

theorem breakHandle_spec (dev : Int) (hi : i < y.nHandles) :
    ∃ y', breakHandle dev y i = some y' ∧ BreakSpec dev y i y' := by
  have hne : (i : Int) ≠ y.nHandles := by omega
  by_cases huse : 0 < (y.handle i).useCount
  swap
  · -- a free handle leads nowhere
    refine ⟨y, ?_, .free huse⟩
    have hfd : y.handleToFileDes i = none := by
      cases hfd : y.handleToFileDes i with
      | none => rfl
      | some f =>
        obtain ⟨k, -, hk, huse', -⟩ := handleToFileDes_cases hne hfd
        exact absurd (Int.ofNat_inj.mp hk ▸ huse') huse
    simp only [breakHandle, hfd, gt_iff_lt, if_neg huse]
  cases hobj : y.handleToObject i with
  | none =>
    refine ⟨_, ?_, .kept huse fun obj hobj' => ?_⟩
    · simp only [breakHandle, hobj, gt_iff_lt, if_pos huse]
      cases y.handleToFileDes i with
      | none => rfl
      | some f => rfl
    · rw [hobj] at hobj'
      cases hobj'
  | some obj =>
    obtain ⟨k, hk, hik, -, f, hf, hfdId, hfd, hused, j, hj, hid, hinode⟩ := handleToObject_cases hne hobj
    obtain rfl := Int.ofNat_inj.mp hik
    by_cases hdev : y.myDev obj = dev
    swap
    · refine ⟨_, ?_, .kept huse fun obj' hobj' => ?_⟩
      · simp [breakHandle, hobj, hfd, huse, setHandle, hdev]
      · rw [hobj, Option.some.injEq] at hobj'
        exact hobj' ▸ hdev
    refine ⟨_, ?_, .broken huse hf hfdId hused hid hinode hdev⟩
    have hput : ((((y.setHandle i ⟨0, 0⟩).setFd f 0 j).putInode j).map fun y =>
        y.setFd f (y.fd f).handleCount (-1)) = some ((y.setHandle i ⟨0, 0⟩).freed f 0 j obj) :=
      putInode_freed (y := y.setHandle i ⟨0, 0⟩) hj hinode
    have hcond : 0 < ((y.setHandle i ⟨0, 0⟩).fd f).handleCount ∧
        (y.setHandle i ⟨0, 0⟩).myDev obj = dev := ⟨hused, hdev⟩
    have hid' : ((y.setHandle i ⟨0, 0⟩).fd f).inodeId = j := hid
    rw [freed_setHandle] at hput
    simp only [breakHandle, hfd, hobj, gt_iff_lt, if_pos huse, if_pos hcond, hid']
    exact hput

theorem BreakSpec.nHandles (hbreak : BreakSpec dev y i y') : y'.nHandles = y.nHandles := by
  cases hbreak with
  | free => rfl
  | kept => rfl
  | broken => rfl

theorem BreakSpec.handle_of_ne (hbreak : BreakSpec dev y i y') (hki : k ≠ i) :
    y'.handle k = y.handle k := by
  cases hbreak with
  | free => rfl
  | kept => exact Function.update_of_ne hki ..
  | broken => exact Function.update_of_ne hki ..

theorem BreakSpec.cleared (hbreak : BreakSpec dev y i y') : ¬ 0 < (y'.handle i).useCount := by
  cases hbreak with
  | free hfree => exact hfree
  | kept => simp [setHandle]
  | broken => simp [setHandle]

theorem BreakSpec.fdsCounted (hy : FdsCounted y) (hbreak : BreakSpec dev y i y') :
    FdsCounted y' := by
  cases hbreak with
  | free => exact hy
  | kept => exact hy.congr rfl rfl rfl rfl fun f hf => ⟨rfl, fun _ => rfl⟩
  | broken huse hf hfd hused hid hobj hdev =>
    have hfree := hy.freed hf hused hid hobj (c := 0) (by omega)
    exact hfree.congr rfl rfl rfl rfl fun f hf => ⟨rfl, fun _ => rfl⟩

theorem BreakSpec.handleCount_nonneg (hy : ∀ f < y.nHandles, 0 ≤ (y.fd f).handleCount)
    (hbreak : BreakSpec dev y i y') : ∀ f < y.nHandles, 0 ≤ (y'.fd f).handleCount := by
  intro g hg
  cases hbreak with
  | free => exact hy g hg
  | kept => exact hy g hg
  | @broken f j obj huse hf hfd hused hid hobj hdev =>
    by_cases hgf : g = f
    · subst hgf
      simp [setHandle, freed, setFd]
    · simp only [setHandle, freed, setFd, Function.update_of_ne hgf]
      exact hy g hg

/-- **The tables behind a forced unmount**: no handle is left. -/
theorem breakDeviceHandles_spec (hy : FdsCounted y) (hhy : HandlesCounted y) (dev : Int) :
    ∃ y', y.breakDeviceHandles dev = some y' ∧ y'.nHandles = y.nHandles ∧ FdsCounted y' ∧
      HandlesCounted y' ∧ ∀ h < y.nHandles, ¬ 0 < (y'.handle h).useCount := by
  -- the descriptors are counted all the time, the handles only at the end
  let Inv (k : Nat) (z : YaffsTables Obj) : Prop := z.nHandles = y.nHandles ∧ FdsCounted z ∧
    (∀ f < y.nHandles, 0 ≤ (z.fd f).handleCount) ∧ ∀ h < k, ¬ 0 < (z.handle h).useCount
  have hnonneg : ∀ f < y.nHandles, 0 ≤ (y.fd f).handleCount := by
    intro f hf
    have hcovered := hhy.covered f hf
    omega
  have hinit : Inv 0 y := ⟨rfl, hy, hnonneg, fun h hh => absurd hh (Nat.not_lt_zero h)⟩
  obtain ⟨y', hfold, hn, hfds, hnonneg', hcleared⟩ :=
    WhileLoop.foldlM_range (n := y.nHandles) (f := breakHandle dev) hinit fun k hk z hz => by
      obtain ⟨hn, hfds, hnonneg, hcleared⟩ := hz
      obtain ⟨z', hz', hbreak⟩ := breakHandle_spec dev (y := z) (hn ▸ hk)
      refine ⟨z', hz', hbreak.nHandles.trans hn, hbreak.fdsCounted hfds, ?_, fun h hh => ?_⟩
      · rw [← hn] at hnonneg ⊢
        exact hbreak.handleCount_nonneg hnonneg
      · rcases Nat.lt_succ_iff_lt_or_eq.mp hh with hlt | rfl
        · rw [hbreak.handle_of_ne (Nat.ne_of_lt hlt)]
          exact hcleared h hlt
        · exact hbreak.cleared
  refine ⟨y', hfold, hn, hfds, ⟨fun h hh hused => ?_, fun f hf => ?_⟩, hcleared⟩
  · exact absurd hused (hcleared h (hn ▸ hh))
  · have hnone : ¬ 0 < refs y'.nHandles y'.handleRef f := by
      rintro hpos
      obtain ⟨h, hh, href⟩ := refs_pos_iff.mp hpos
      rw [handleRef, if_neg (hcleared h (hn ▸ hh))] at href
      cases href
    have hcount := hnonneg' f (hn ▸ hf)
    omega

/-! ## The tables at start -/

/-- Nothing is open. -/
structure AllClosed (y : YaffsTables Obj) : Prop where
  inode : ∀ i < y.nHandles, y.inode i = none
  count : ∀ i < y.nHandles, y.count i = 0
  fd : ∀ f < y.nHandles, (y.fd f).handleCount = 0
  handle : ∀ h < y.nHandles, (y.handle h).useCount = 0

omit [DecidableEq Obj] in
theorem AllClosed.counted (hy : AllClosed y) : FdsCounted y ∧ HandlesCounted y := by
  have hfd : ∀ f < y.nHandles, y.fdRef f = none := by
    intro f hf
    rw [fdRef, hy.fd f hf]
    rfl
  have hhandle : ∀ h < y.nHandles, y.handleRef h = none := by
    intro h hh
    rw [handleRef, hy.handle h hh]
    rfl
  have hfdRefs : ∀ i, refs y.nHandles y.fdRef i = 0 := by
    intro i
    by_contra hpos
    obtain ⟨f, hf, href⟩ := refs_pos_iff.mp (Nat.pos_of_ne_zero hpos)
    rw [hfd f hf] at href
    cases href
  have hhandleRefs : ∀ f, refs y.nHandles y.handleRef f = 0 := by
    intro f
    by_contra hpos
    obtain ⟨h, hh, href⟩ := refs_pos_iff.mp (Nat.pos_of_ne_zero hpos)
    rw [hhandle h hh] at href
    cases href
  constructor
  · refine ⟨fun f hf hused => ?_, fun i hi => ?_, fun i hi => ?_, fun i hi j hj obj hio => ?_,
      fun i hi obj hio => ?_⟩
    · rw [hy.fd f hf] at hused
      cases hused
    · rw [hy.count i hi, hfdRefs]
      rfl
    · rw [hy.inode i hi, hfdRefs]
      simp
    · rw [hy.inode i hi] at hio
      cases hio
    · rw [hy.inode i hi] at hio
      cases hio
  · refine ⟨fun h hh hused => ?_, fun f hf => ?_⟩
    · rw [hy.handle h hh] at hused
      cases hused
    · rw [hy.fd f hf, hhandleRefs]
      exact Int.le_refl _

omit [DecidableEq Obj] in
theorem initHandles_allClosed : AllClosed y.initHandles := by
  constructor
  · intro i hi
    exact if_pos hi
  · intro i hi
    exact if_pos hi
  · intro f hf
    have hfd : y.initHandles.fd f = ⟨0, -1, 0, by decide⟩ := if_pos hf
    rw [hfd]
  · intro h hh
    have hhandle : y.initHandles.handle h = ⟨-1, 0⟩ := if_pos hh
    rw [hhandle]

end YaffsTables

/-! ## Every event keeps the counts -/

namespace YaffsState

open YaffsTables

variable {Obj : Type} [DecidableEq Obj] {s s' s₀ : YaffsState Obj} {e : FileEvent Obj}

/-- The event names no handle that the bound of `yaffsfs_HandleToPointer` lets through by one. -/
def InTable (s : YaffsState Obj) : FileEvent Obj → Prop
  | .dup h | .close h | .abortClose h | .enterIo h | .leaveIo h => h ≠ s.tables.nHandles
  | _ => True

instance (s : YaffsState Obj) (e : FileEvent Obj) : Decidable (s.InTable e) :=
  match e with
  | .dup h | .close h | .abortClose h | .enterIo h | .leaveIo h =>
    inferInstanceAs (Decidable (h ≠ s.tables.nHandles))
  | .openSharing .. | .unlink _ | .mount | .unmount .. => inferInstanceAs (Decidable True)

/-- The event can come: a read or a write goes on with a handle that passed its tests, and ends
    once. -/
def Enabled (s : YaffsState Obj) : FileEvent Obj → Prop
  | .enterIo h => (s.tables.handleToObject h).isSome
  | .leaveIo h => h ∈ s.inIo
  | _ => True

/-- The counts of the tables. -/
def Counted (s : YaffsState Obj) : Prop := FdsCounted s.tables ∧ HandlesCounted s.tables

theorem yaffsUnmount2_counted (hs : s.Counted) (dev : Int) (force : Bool) :
    ∃ r, s.tables.yaffsUnmount2 dev force = some r ∧ FdsCounted r.2 ∧ HandlesCounted r.2 := by
  unfold yaffsUnmount2
  cases hbusy : s.tables.isDevBusy dev with
  | false => exact ⟨_, rfl, hs⟩
  | true =>
    cases force with
    | false =>
      exact ⟨_, rfl, hs.1.congr rfl rfl rfl rfl fun f hf => ⟨rfl, fun _ => rfl⟩, hs.2.valid,
        hs.2.covered⟩
    | true =>
      obtain ⟨y', hbreak, hn, hfds, hhandles, -⟩ := breakDeviceHandles_spec hs.1 hs.2 dev
      simp only [hbreak, if_true, Option.map_some]
      exact ⟨_, rfl, hfds, hhandles⟩

/-- **What an event does**. -/
inductive StepSpec (s : YaffsState Obj) : FileEvent Obj → YaffsState Obj → Prop where
  | openSharing {path : OpenPath Obj} {flags : OpenFlags} {shareRead shareWrite : Bool}
      {r : Int × YaffsTables Obj}
      (hopen : OpenSpec s.tables path flags (requestedMode flags shareRead shareWrite) r) :
      StepSpec s (.openSharing path flags shareRead shareWrite) (s.withTables r.2)
  | dup {h : Int} {r : Int × YaffsTables Obj} (hdup : DupSpec s.tables h r) :
      StepSpec s (.dup h) (s.withTables r.2)
  | close {h : Int} {r : Int × YaffsTables Obj} (hclose : CloseSpec .flushFile s.tables h r) :
      StepSpec s (.close h) (s.withTables r.2)
  | abortClose {h : Int} {r : Int × YaffsTables Obj}
      (hclose : CloseSpec .flushFileAbort s.tables h r) :
      StepSpec s (.abortClose h) (s.withTables r.2)
  | enterIo {h : Int} (hobj : (s.tables.handleToObject h).isSome) :
      StepSpec s (.enterIo h) ⟨s.tables.getHandle h, h :: s.inIo⟩
  | leaveIo {h : Int} {y' : YaffsTables Obj} (hmem : h ∈ s.inIo) (hput : PutSpec s.tables h y') :
      StepSpec s (.leaveIo h) ⟨y', s.inIo.erase h⟩
  | unlink {obj : Obj} : StepSpec s (.unlink obj)
      (s.withTables { s.tables with unlinked := Function.update s.tables.unlinked obj true })
  | mount : StepSpec s .mount (s.withTables s.tables.initHandles)
  | unmount {dev : Int} {force : Bool} {r : Int × YaffsTables Obj}
      (hunmount : s.tables.yaffsUnmount2 dev force = some r) :
      StepSpec s (.unmount dev force) (s.withTables r.2)

/-- **No `NULL` pointer**: every event that can come has an effect. -/
theorem exists_stepSpec (hs : s.Counted) (hin : s.InTable e) (hen : s.Enabled e) :
    ∃ s', s.step e = some s' ∧ s.StepSpec e s' := by
  obtain ⟨hfds, hhandles⟩ := hs
  cases e with
  | openSharing path flags shareRead shareWrite =>
    obtain ⟨r, hr, hspec⟩ := yaffsOpenSharing_spec hfds path flags shareRead shareWrite
    refine ⟨s.withTables r.2, ?_, .openSharing hspec⟩
    rw [step, hr, Option.map_some]
  | dup h => exact ⟨_, rfl, .dup (yaffsDup_spec hin)⟩
  | close h =>
    obtain ⟨r, hr, hspec⟩ := closeBy_spec .flushFile hfds hhandles hin
    refine ⟨s.withTables r.2, ?_, .close hspec⟩
    rw [step, yaffsClose, hr, Option.map_some]
  | abortClose h =>
    obtain ⟨r, hr, hspec⟩ := closeBy_spec .flushFileAbort hfds hhandles hin
    refine ⟨s.withTables r.2, ?_, .abortClose hspec⟩
    rw [step, yaffsAbortClose, hr, Option.map_some]
  | enterIo h =>
    have hobj : (s.tables.handleToObject h).isSome = true := hen
    refine ⟨_, ?_, .enterIo hobj⟩
    rw [step, if_pos hobj]
  | leaveIo h =>
    obtain ⟨y', hput, hspec⟩ := putHandle_spec hfds hhandles hin
    have hmem : h ∈ s.inIo := hen
    refine ⟨_, ?_, .leaveIo hmem hspec⟩
    rw [step, if_pos hmem, hput, Option.map_some]
  | unlink obj => exact ⟨_, rfl, .unlink⟩
  | mount => exact ⟨_, rfl, .mount⟩
  | unmount dev force =>
    obtain ⟨r, hr, -⟩ := yaffsUnmount2_counted ⟨hfds, hhandles⟩ dev force
    refine ⟨s.withTables r.2, ?_, .unmount hr⟩
    rw [step, hr, Option.map_some]

theorem enabled_of_step (hstep : s.step e = some s') : s.Enabled e := by
  cases e with
  | enterIo h =>
    simp only [step] at hstep
    split at hstep
    · assumption
    · cases hstep
  | leaveIo h =>
    simp only [step] at hstep
    split at hstep
    · assumption
    · cases hstep
  | _ => trivial

/-- **Inversion of a step**. -/
theorem stepSpec_of_step (hs : s.Counted) (hin : s.InTable e) (hstep : s.step e = some s') :
    s.StepSpec e s' := by
  obtain ⟨s'', hstep', hspec⟩ := exists_stepSpec hs hin (enabled_of_step hstep)
  rw [hstep, Option.some.injEq] at hstep'
  exact hstep' ▸ hspec

/-- **Step lemma**. -/
theorem StepSpec.counted (hs : s.Counted) (hin : s.InTable e) (hspec : s.StepSpec e s') :
    s'.Counted := by
  obtain ⟨hfds, hhandles⟩ := hs
  cases hspec with
  | openSharing hopen => exact hopen.counted hfds hhandles
  | dup hdup => exact hdup.counted hfds hhandles
  | close hclose => exact hclose.counted hfds hhandles
  | abortClose hclose => exact hclose.counted hfds hhandles
  | enterIo hobj => exact getHandle_counted hfds hhandles hin
  | leaveIo hmem hput => exact ⟨hput.fdsCounted hfds, hput.handlesCounted hhandles⟩
  | unlink =>
    exact ⟨hfds.congr rfl rfl rfl rfl fun f hf => ⟨rfl, fun _ => rfl⟩, hhandles.valid,
      hhandles.covered⟩
  | mount => exact initHandles_allClosed.counted
  | @unmount dev force r hunmount =>
    obtain ⟨r', hr', hcounted⟩ := yaffsUnmount2_counted ⟨hfds, hhandles⟩ dev force
    rw [hunmount, Option.some.injEq] at hr'
    exact hr' ▸ hcounted

/-- **Run lemma**: an invariant that the events keep holds in every run, beside the counts. -/
theorem invariant_of_run {ok : YaffsState Obj → FileEvent Obj → Prop} {P : YaffsState Obj → Prop}
    (hs₀ : AllClosed s₀.tables) (hP₀ : P s₀)
    (hpres : ∀ s e s', s.Counted → P s → s.InTable e → ok s e → s.StepSpec e s' → P s')
    (hs : ReachableUnder s₀ step (fun s e => s.InTable e ∧ ok s e) s) : s.Counted ∧ P s := by
  refine hs.invariant (P := fun s => s.Counted ∧ P s) ⟨hs₀.counted, hP₀⟩
    fun s e s' _ hinv hok hstep => ?_
  obtain ⟨hcounted, hPs⟩ := hinv
  have hspec := stepSpec_of_step hcounted hok.1 hstep
  exact ⟨hspec.counted hcounted hok.1, hpres s e s' hcounted hPs hok.1 hok.2 hspec⟩

theorem counted_of_reachable (hs₀ : AllClosed s₀.tables)
    (hs : ReachableUnder s₀ step InTable s) : s.Counted := by
  refine hs.invariant (P := Counted) hs₀.counted fun s e s' _ hcounted hin hstep => ?_
  exact (stepSpec_of_step hcounted hin hstep).counted hcounted hin

/-- `yaffsfs_CountHandles` is the number of descriptors. -/
theorem countHandles_eq {y : YaffsTables Obj} (hy : FdsCounted y) (obj : Obj) :
    y.countHandles obj = (y.sharers (y.getEquivalentObj obj)).length := by
  have hsharer : ∀ i < y.nHandles, y.inode i = some (y.getEquivalentObj obj) →
      (y.sharers (y.getEquivalentObj obj)).length = refs y.nHandles y.fdRef i := by
    intro i hi hobj
    rw [sharers, ← List.countP_eq_length_filter, refs]
    apply List.countP_congr
    intro f hf
    simp only [decide_eq_true_eq]
    constructor
    · rintro ⟨hused, hnonneg, hinode⟩
      obtain ⟨-, hlt⟩ := hy.valid f (List.mem_range.mp hf) hused
      rw [fdRef_of_used hused]
      have hsame := hy.distinct _ (by omega) i hi _ hinode hobj
      rw [hsame]
    · intro href
      by_cases hused : 0 < (y.fd f).handleCount
      · rw [fdRef_of_used hused, Option.some.injEq] at href
        rw [href]
        exact ⟨hused, (hy.valid f (List.mem_range.mp hf) hused).1, hobj⟩
      · rw [fdRef, if_neg hused] at href
        cases href
  unfold countHandles findInodeIdForObject
  cases hfind : (List.range y.nHandles).find? fun i => y.inode i = some (y.getEquivalentObj obj) with
  | some i =>
    obtain ⟨hobj, hmem, -⟩ := List.find?_range_eq_some.mp hfind
    have hi := List.mem_range.mp hmem
    rw [hsharer i hi (of_decide_eq_true hobj)]
    exact hy.count i hi
  | none =>
    have hempty : y.sharers (y.getEquivalentObj obj) = [] := by
      apply List.filter_eq_nil_iff.mpr
      intro f hf hsharer
      obtain ⟨hused, hnonneg, hinode⟩ := of_decide_eq_true hsharer
      obtain ⟨-, hlt⟩ := hy.valid f (List.mem_range.mp hf) hused
      have hnone := List.find?_range_eq_none.mp hfind (y.fd f).inodeId.toNat (by omega)
      simp [hinode] at hnone
    rw [hempty]
    rfl

omit [DecidableEq Obj] in
/-- A used handle leads to an object. -/
theorem Counted.handleToObject (hs : s.Counted) {h : Nat} (hh : h < s.tables.nHandles)
    (hused : 0 < (s.tables.handle h).useCount) : (s.tables.handleToObject h).isSome := by
  obtain ⟨f, hf, hfd, hfused⟩ := hs.2.fd hh hused
  obtain ⟨i, hi, hid, obj, hobj⟩ := hs.1.inode hf hfused
  have hrange : (h : Int) ≥ 0 ∧ (h : Int) ≤ (s.tables.nHandles : Int) := by omega
  simp [YaffsFiles.handleToObject, YaffsFiles.handleToFileDes, YaffsFiles.handleToPointer, hrange,
    hused, hfd, hf, hfused, hid, hi, hobj]

/-- **The counts of the open files**. In every run the count of an inode is the number of its
    descriptors, a used handle leads to an object, and no event follows a `NULL` pointer. -/
theorem counts_of_run (hs₀ : AllClosed s₀.tables) (hs : ReachableUnder s₀ step InTable s) :
    (∀ i < s.tables.nHandles, s.tables.count i = refs s.tables.nHandles s.tables.fdRef i) ∧
    (∀ obj, s.tables.countHandles obj =
      (s.tables.sharers (s.tables.getEquivalentObj obj)).length) ∧
    (∀ f < s.tables.nHandles,
      (refs s.tables.nHandles s.tables.handleRef f : Int) ≤ (s.tables.fd f).handleCount) ∧
    (∀ h < s.tables.nHandles, 0 < (s.tables.handle h).useCount →
      (s.tables.handleToObject h).isSome) ∧
    ∀ e, s.InTable e → s.Enabled e → (s.step e).isSome := by
  have hcounted := counted_of_reachable hs₀ hs
  refine ⟨hcounted.1.count, countHandles_eq hcounted.1, hcounted.2.covered,
    fun h hh hused => hcounted.handleToObject hh hused, fun e hin hen => ?_⟩
  obtain ⟨s', hstep, -⟩ := exists_stepSpec hcounted hin hen
  rw [hstep]
  rfl

theorem start_position : 0 ≤ (0 : Int) ∧ (0 : Int) < 2 ^ 31 := by
  decide

theorem empty_length : ∀ _ : Nat, (0 : Int) < 2 ^ 31 := fun _ => by
  decide

theorem id_idem : ∀ obj : Nat, id (id obj) = id obj := fun _ => rfl

/-- `n` handles and no file open; objects are numbers, all of device 1. -/
def noFiles (n : Nat) : YaffsState Nat where
  tables :=
    { nHandles := n, maxFileSize := 100, objLength := fun _ => 0, objLength_int := empty_length
      handle := fun _ => ⟨-1, 0⟩, fd := fun _ => ⟨0, -1, 0, start_position⟩, inode := fun _ => none
      mode := fun _ => {}, count := fun _ => 0, myInode := fun _ => none, unlinked := fun _ => false
      myDev := fun _ => 1, getEquivalentObj := id, getEquivalentObj_idem := id_idem
      error := none, calls := [] }
  inIo := []

theorem noFiles_allClosed (n : Nat) : AllClosed (noFiles n).tables :=
  ⟨fun _ _ => rfl, fun _ _ => rfl, fun _ _ => rfl, fun _ _ => rfl⟩

/-- An open of the file `obj` in a directory. -/
def openFile (obj : Nat) (flags : OpenFlags) (shareRead shareWrite : Bool) : FileEvent Nat :=
  .openSharing (.path ⟨some ⟨obj, .file, true, true, false⟩, some false, false, false, none⟩) flags
    shareRead shareWrite

/-- Two descriptors of object 7, one of them with two handles; a close waits for a read. -/
theorem counts_of_run_three_handles : ∃ s : YaffsState Nat,
    (ReachableUnder (noFiles 4) step InTable s ∧ s.tables.countHandles 7 = 2 ∧
      (s.tables.fd 0).handleCount = 2 ∧ s.Enabled (.leaveIo 1)) ∧
    (∀ i < s.tables.nHandles, s.tables.count i = refs s.tables.nHandles s.tables.fdRef i) ∧
    (∀ obj, s.tables.countHandles obj =
      (s.tables.sharers (s.tables.getEquivalentObj obj)).length) ∧
    (∀ f < s.tables.nHandles,
      (refs s.tables.nHandles s.tables.handleRef f : Int) ≤ (s.tables.fd f).handleCount) ∧
    (∀ h < s.tables.nHandles, 0 < (s.tables.handle h).useCount →
      (s.tables.handleToObject h).isSome) ∧
    ∀ e, s.InTable e → s.Enabled e → (s.step e).isSome := by
  obtain ⟨s, hs, hcount, hfd, hio⟩ := exists_of_runUnder (noFiles 4) step InTable
    (fun s => s.tables.countHandles 7 = 2 ∧ (s.tables.fd 0).handleCount = 2 ∧ 1 ∈ s.inIo)
    [openFile 7 ⟨.rdwr, false, false, false, false⟩ true true, .dup 0,
      openFile 7 ⟨.rdonly, false, false, false, false⟩ true true, .enterIo 1, .close 1]
    (by decide)
  exact ⟨s, ⟨hs, hcount, hfd, hio⟩, counts_of_run (noFiles_allClosed 4) hs⟩

end YaffsState

end TxFS
