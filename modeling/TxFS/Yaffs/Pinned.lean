import TxFS.Lib.LockedSections
import TxFS.Yaffs.Sharing

/-!
# Handles in Use

A read or a write leaves the lock between two chunks. It has raised the use count of its handle
before, so that another thread does not close the handle under it. The code looks for the object
again after each pause, but goes on with its pointer to the descriptor.

A handle that stays in use keeps its descriptor and its object through every event
(`StepSpec.keeps`). With closes that come once for each open, a read or a write keeps its handle in
use, up to its end (`pinned_of_sections`).

This needs a `yaffsfs_Lock` that excludes. `pinned_of_run` is about threads whose statements are
interleaved, under such a lock. The functions in `yaffcfg.c` are empty, and with them
`useCount++` of two threads can count once: a read goes on with a handle that is free.
-/

namespace TxFS

open RefTable GuardedRun

namespace YaffsTables

variable {Obj : Type} {y y' : YaffsTables Obj} {f h i k : Nat} {obj : Obj} {dev : Int}

/-! ## What a used handle leads to -/

/-- The handle `k` with its descriptor, inode and object. -/
structure Leads (y : YaffsTables Obj) (k f i : Nat) (obj : Obj) : Prop where
  lt : k < y.nHandles
  used : 0 < (y.handle k).useCount
  fdId : (y.handle k).fdId = f
  fd_lt : f < y.nHandles
  fdUsed : 0 < (y.fd f).handleCount
  inodeId : (y.fd f).inodeId = i
  inode_lt : i < y.nHandles
  inode : y.inode i = some obj

theorem exists_leads (hy : FdsCounted y) (hhy : HandlesCounted y) (hk : k < y.nHandles)
    (hused : 0 < (y.handle k).useCount) : ∃ f i obj, y.Leads k f i obj := by
  obtain ⟨f, hf, hfd, hfused⟩ := hhy.fd hk hused
  obtain ⟨i, hi, hid, obj, hobj⟩ := hy.inode hf hfused
  exact ⟨f, i, obj, hk, hused, hfd, hf, hfused, hid, hi, hobj⟩

theorem Leads.handleToFileDes (h : y.Leads k f i obj) : y.handleToFileDes k = some f := by
  have hrange : (k : Int) ≥ 0 ∧ (k : Int) ≤ (y.nHandles : Int) :=
    ⟨Int.natCast_nonneg k, Int.ofNat_le.mpr (Nat.le_of_lt h.lt)⟩
  simp [YaffsFiles.handleToFileDes, YaffsFiles.handleToPointer, hrange, h.used, h.fdId, h.fd_lt]

theorem Leads.handleToObject (h : y.Leads k f i obj) : y.handleToObject k = some obj := by
  simp [YaffsFiles.handleToObject, h.handleToFileDes, h.fdUsed, h.inodeId, h.inode_lt, h.inode]

/-- What is in use before and after keeps what it refers to. -/
structure Keeps (y y' : YaffsTables Obj) : Prop where
  nHandles : y'.nHandles = y.nHandles
  handle : ∀ k < y.nHandles, 0 < (y.handle k).useCount → 0 < (y'.handle k).useCount →
    (y'.handle k).fdId = (y.handle k).fdId
  fd : ∀ f < y.nHandles, 0 < (y.fd f).handleCount → 0 < (y'.fd f).handleCount →
    (y'.fd f).inodeId = (y.fd f).inodeId ∧ y'.mode f = y.mode f
  inode : ∀ i < y.nHandles, ∀ o o', y.inode i = some o → y'.inode i = some o' → o' = o

theorem Keeps.of_eq (hn : y'.nHandles = y.nHandles) (hhandle : y'.handle = y.handle)
    (hfd : y'.fd = y.fd) (hmode : y'.mode = y.mode) (hinode : y'.inode = y.inode) : Keeps y y' := by
  refine ⟨hn, fun k _ _ _ => ?_, fun f _ _ _ => ?_, fun i _ o o' ho ho' => ?_⟩
  · rw [hhandle]
  · rw [hfd, hmode]
    exact ⟨rfl, rfl⟩
  · rw [hinode, ho, Option.some.injEq] at ho'
    exact ho'.symm

/-- One handle and one descriptor change. -/
theorem Keeps.of_update (hn : y'.nHandles = y.nHandles)
    (hhandle : ∀ j, j ≠ k → y'.handle j = y.handle j)
    (hk : 0 < (y.handle k).useCount → 0 < (y'.handle k).useCount →
      (y'.handle k).fdId = (y.handle k).fdId)
    (hfd : ∀ g, g ≠ f → y'.fd g = y.fd g ∧ y'.mode g = y.mode g)
    (hf : 0 < (y.fd f).handleCount → 0 < (y'.fd f).handleCount →
      (y'.fd f).inodeId = (y.fd f).inodeId ∧ y'.mode f = y.mode f)
    (hinode : ∀ i o o', y.inode i = some o → y'.inode i = some o' → o' = o) : Keeps y y' := by
  refine ⟨hn, fun j _ hused hused' => ?_, fun g _ hused hused' => ?_, fun i _ => hinode i⟩
  · by_cases hjk : j = k
    · subst hjk
      exact hk hused hused'
    · rw [hhandle j hjk]
  · by_cases hgf : g = f
    · subst hgf
      exact hf hused hused'
    · obtain ⟨hfdg, hmodeg⟩ := hfd g hgf
      rw [hfdg, hmodeg]
      exact ⟨rfl, rfl⟩

theorem same_inode (hinode : y'.inode = y.inode) :
    ∀ i o o', y.inode i = some o → y'.inode i = some o' → o' = o := by
  intro i o o' ho ho'
  rw [hinode, ho, Option.some.injEq] at ho'
  exact ho'.symm

/-- **A handle that stays in use**. -/
theorem Keeps.leads (hkeeps : Keeps y y') (hy' : FdsCounted y') (hhy' : HandlesCounted y')
    (hleads : y.Leads k f i obj) (hused : 0 < (y'.handle k).useCount) :
    y'.Leads k f i obj ∧ y'.mode f = y.mode f := by
  obtain ⟨f', i', obj', h⟩ := exists_leads hy' hhy' (hkeeps.nHandles ▸ hleads.lt) hused
  have hfd := hkeeps.handle k hleads.lt hleads.used hused
  rw [h.fdId, hleads.fdId] at hfd
  obtain rfl := Int.ofNat_inj.mp hfd
  obtain ⟨hid, hmode⟩ := hkeeps.fd f' hleads.fd_lt hleads.fdUsed h.fdUsed
  rw [h.inodeId, hleads.inodeId] at hid
  obtain rfl := Int.ofNat_inj.mp hid
  obtain rfl := hkeeps.inode i' hleads.inode_lt obj obj' hleads.inode h.inode
  exact ⟨h, hmode⟩

/-! ## Every call keeps what stays in use -/

variable [DecidableEq Obj]

theorem PutSpec.keeps {h : Int} (hput : PutSpec y h y') : Keeps y y' := by
  cases hput with
  | same => exact .of_eq rfl rfl rfl rfl rfl
  | @pinned k hk hh huse =>
    refine .of_update (k := k) (f := 0) rfl (fun j hj => Function.update_of_ne hj ..) (fun _ _ => ?_)
      (fun g _ => ⟨rfl, rfl⟩) (fun _ _ => ⟨rfl, rfl⟩) (same_inode rfl)
    simp [setHandle]
  | @shared k f hk hh huse hf hfd hmore =>
    refine .of_update (k := k) (f := f) rfl (fun j hj => Function.update_of_ne hj ..)
      (fun _ hused => ?_) (fun g hg => ⟨Function.update_of_ne hg .., rfl⟩) (fun _ _ => ⟨?_, rfl⟩)
      (same_inode rfl)
    · simp [setHandle] at hused
    · simp [setHandle, setFd]
  | @last k f i obj hk hh huse hf hfd hlast hid hobj =>
    refine .of_update (k := k) (f := f) rfl (fun j hj => Function.update_of_ne hj ..)
      (fun _ hused => ?_) (fun g hg => ⟨Function.update_of_ne hg .., rfl⟩) (fun _ hused => ?_)
      fun j o o' ho ho' => ?_
    · simp [setHandle] at hused
    · simp [setHandle, freed, setFd] at hused
    · have hleft : (y.freed f 0 i obj).inode j = some o' := ho'
      exact Option.some.inj ((inode_of_freed hleft).symm.trans ho)

theorem CloseSpec.keeps {flush : Obj → GutsCall Obj} {h : Int} {r : Int × YaffsTables Obj}
    (hclose : CloseSpec flush y h r) : Keeps y r.2 := by
  cases hclose with
  | refused => exact .of_eq rfl rfl rfl rfl rfl
  | closed hobj hput =>
    -- the flush touches none of the tables
    exact ⟨hput.keeps.nHandles, hput.keeps.handle, hput.keeps.fd, hput.keeps.inode⟩

omit [DecidableEq Obj] in
theorem DupSpec.keeps {h : Int} {r : Int × YaffsTables Obj} (hdup : DupSpec y h r) :
    Keeps y r.2 := by
  cases hdup with
  | refused => exact .of_eq rfl rfl rfl rfl rfl
  | @dup k h' f hk hh huse hfd hf hh' =>
    refine .of_update (k := h') (f := f) rfl (fun j hj => Function.update_of_ne hj ..)
      (fun hused => absurd hused hh'.free) (fun g hg => ⟨Function.update_of_ne hg .., rfl⟩)
      (fun _ _ => ⟨?_, rfl⟩) (same_inode rfl)
    simp [setHandle, setFd]

/-- An open uses a free handle and a free descriptor. -/
theorem OpenSpec.keeps {path : OpenPath Obj} {flags : OpenFlags} {m : FileDesMode}
    {r : Int × YaffsTables Obj} (hopen : OpenSpec y path flags m r) : Keeps y r.2 := by
  cases hopen with
  | invalid => exact .of_eq rfl rfl rfl rfl rfl
  | noHandle => exact .of_eq rfl rfl rfl rfl rfl
  | @noFd h hh hall =>
    exact .of_update (k := h) (f := 0) rfl (fun j hj => Function.update_of_ne hj ..)
      (fun hused => absurd hused hh.free) (fun g _ => ⟨rfl, rfl⟩) (fun _ _ => ⟨rfl, rfl⟩)
      (same_inode rfl)
  | @denied l h f e hpath hh hf hfree hdenied =>
    exact .of_update (k := h) (f := f) rfl (fun j hj => Function.update_of_ne hj ..)
      (fun hused => absurd hused hh.free)
      (fun g hg => ⟨Function.update_of_ne hg .., Function.update_of_ne hg ..⟩)
      (fun hused => absurd hused hfree) (same_inode rfl)
  | @opened l h f i obj hpath hh hf hfree hobj hslot =>
    refine .of_update (k := h) (f := f) rfl (fun j hj => Function.update_of_ne hj ..)
      (fun hused => absurd hused hh.free)
      (fun g hg => ⟨Function.update_of_ne hg .., Function.update_of_ne hg ..⟩)
      (fun hused => absurd hused hfree) fun j o o' ho ho' => ?_
    by_cases hji : j = i
    · subst hji
      simp only [YaffsTables.opened, Function.update_self, Option.some.injEq] at ho'
      cases hslot with
      | old hi hold => exact ho'.symm.trans (Option.some.inj (hold.symm.trans ho))
      | new hi hfree hnot =>
        rw [hfree] at ho
        cases ho
    · simp only [YaffsTables.opened, Function.update_of_ne hji] at ho'
      exact Option.some.inj (ho'.symm.trans ho)

omit [DecidableEq Obj] in
theorem getHandle_keeps {h : Int} : Keeps y (y.getHandle h) := by
  unfold getHandle
  cases hpointer : y.handleToPointer h with
  | none => exact .of_eq rfl rfl rfl rfl rfl
  | some p =>
    dsimp only
    split
    swap
    · exact .of_eq rfl rfl rfl rfl rfl
    simp only [YaffsFiles.handleToPointer] at hpointer
    split at hpointer
    swap
    · cases hpointer
    cases hpointer
    refine .of_update (k := h.toNat) (f := 0) rfl (fun j hj => Function.update_of_ne hj ..)
      (fun _ _ => ?_) (fun g _ => ⟨rfl, rfl⟩) (fun _ _ => ⟨rfl, rfl⟩) (same_inode rfl)
    simp [setHandle]

/-! ## Use counts -/

/-- The other handles stay. -/
theorem PutSpec.handle_of_ne {j : Nat} (hput : PutSpec y k y') (hj : j ≠ k) :
    y'.handle j = y.handle j := by
  cases hput with
  | same => rfl
  | pinned hk hh =>
    rw [← Int.ofNat_inj.mp hh]
    exact Function.update_of_ne hj ..
  | shared hk hh =>
    rw [← Int.ofNat_inj.mp hh]
    exact Function.update_of_ne hj ..
  | last hk hh =>
    rw [← Int.ofNat_inj.mp hh]
    exact Function.update_of_ne hj ..

theorem PutSpec.useCount {h : Int} (hput : PutSpec y h y') (hk : k < y.nHandles) :
    (y'.handle k).useCount =
      (y.handle k).useCount - if h = k ∧ 0 < (y.handle k).useCount then 1 else 0 := by
  cases hput with
  | same hfree =>
    rw [if_neg, Int.sub_zero]
    rintro ⟨hh, hused⟩
    exact hfree k hh hk hused
  | @pinned j hj hh huse =>
    by_cases hkj : k = j
    · subst hkj
      have hused : 0 < (y.handle k).useCount := by omega
      simp [setHandle, hh, hused]
    · have hne : ¬ h = k := by omega
      simp [setHandle, hkj, hne]
  | @shared j f hj hh huse =>
    by_cases hkj : k = j
    · subst hkj
      simp [setHandle, hh, huse]
    · have hne : ¬ h = k := by omega
      simp [setHandle, setFd, hkj, hne]
  | @last j f i obj hj hh huse =>
    by_cases hkj : k = j
    · subst hkj
      simp [setHandle, hh, huse]
    · have hne : ¬ h = k := by omega
      simp [setHandle, freed, setFd, hkj, hne]

omit [DecidableEq Obj] in
theorem DupSpec.useCount {h : Int} {r : Int × YaffsTables Obj} (hdup : DupSpec y h r)
    (hused : 0 < (y.handle k).useCount) : (r.2.handle k).useCount = (y.handle k).useCount := by
  cases hdup with
  | refused => rfl
  | @dup _ h' f hk hh huse hfd hf hh' =>
    have hkh : k ≠ h' := by
      rintro rfl
      exact hh'.free hused
    simp [setHandle, setFd, hkh]

theorem OpenSpec.useCount {path : OpenPath Obj} {flags : OpenFlags} {m : FileDesMode}
    {r : Int × YaffsTables Obj} (hopen : OpenSpec y path flags m r)
    (hused : 0 < (y.handle k).useCount) : (r.2.handle k).useCount = (y.handle k).useCount := by
  have hne : ∀ h, y.FirstFree h → k ≠ h := by
    rintro h hh rfl
    exact hh.free hused
  cases hopen with
  | invalid => rfl
  | noHandle => rfl
  | noFd hh => simp [setHandle, setError, hne _ hh]
  | denied hpath hh => simp [dropped, setError, hne _ hh]
  | opened hpath hh => simp [YaffsTables.opened, hne _ hh]

theorem CloseSpec.useCount {flush : Obj → GutsCall Obj} {h : Int} {r : Int × YaffsTables Obj}
    (hclose : CloseSpec flush y h r) (hk : k < y.nHandles) :
    (r.2.handle k).useCount = (y.handle k).useCount ∨
      h = k ∧ (r.2.handle k).useCount = (y.handle k).useCount - 1 := by
  cases hclose with
  | refused => exact .inl rfl
  | @closed obj y' hobj hput =>
    have hcount := hput.useCount (k := k) hk
    by_cases hh : h = k ∧ 0 < (y.handle k).useCount
    · have hh' : h = k ∧ 0 < ((y.call (flush obj)).handle k).useCount := hh
      rw [if_pos hh'] at hcount
      exact .inr ⟨hh.1, hcount⟩
    · have hh' : ¬ (h = k ∧ 0 < ((y.call (flush obj)).handle k).useCount) := hh
      rw [if_neg hh', Int.sub_zero] at hcount
      exact .inl hcount

omit [DecidableEq Obj] in
theorem getHandle_useCount {h : Int} (hk : k < y.nHandles) (hused : 0 < (y.handle k).useCount) :
    ((y.getHandle h).handle k).useCount = (y.handle k).useCount + if h = k then 1 else 0 := by
  by_cases hh : h = k
  · subst hh
    have hrange : (k : Int) ≥ 0 ∧ (k : Int) ≤ (y.nHandles : Int) := by omega
    simp [getHandle, YaffsFiles.handleToPointer, hrange, hused, setHandle]
  · unfold getHandle
    rw [if_neg hh, Int.add_zero]
    cases hpointer : y.handleToPointer h with
    | none => rfl
    | some p =>
      have hkh : k ≠ h.toNat := by
        rintro rfl
        simp only [YaffsFiles.handleToPointer] at hpointer
        split at hpointer
        · omega
        · cases hpointer
      dsimp only
      split
      · simp [setHandle, hkh]
      · rfl

end YaffsTables

/-! ## Runs -/

namespace YaffsState

open YaffsTables

variable {Obj : Type} [DecidableEq Obj] {s s' s₀ : YaffsState Obj} {e : FileEvent Obj}
  {f i k : Nat} {obj : Obj} {h : Int}

/-- **A handle that stays in use leads to the same object**, whatever happens. -/
theorem StepSpec.leads (hs : s.Counted) (hin : s.InTable e) (hspec : s.StepSpec e s')
    (hleads : s.tables.Leads k f i obj) (hused : 0 < (s'.tables.handle k).useCount) :
    s'.tables.Leads k f i obj ∧ s'.tables.mode f = s.tables.mode f := by
  obtain ⟨hfds', hhandles'⟩ := hspec.counted hs hin
  cases hspec with
  | openSharing hopen => exact hopen.keeps.leads hfds' hhandles' hleads hused
  | dup hdup => exact hdup.keeps.leads hfds' hhandles' hleads hused
  | close hclose => exact hclose.keeps.leads hfds' hhandles' hleads hused
  | abortClose hclose => exact hclose.keeps.leads hfds' hhandles' hleads hused
  | enterIo hobj => exact getHandle_keeps.leads hfds' hhandles' hleads hused
  | leaveIo hmem hput => exact hput.keeps.leads hfds' hhandles' hleads hused
  | unlink => exact ⟨⟨hleads.lt, hleads.used, hleads.fdId, hleads.fd_lt, hleads.fdUsed,
      hleads.inodeId, hleads.inode_lt, hleads.inode⟩, rfl⟩
  | mount =>
    -- no handle is left
    have hfree : ((s.withTables s.tables.initHandles).tables.handle k).useCount = 0 :=
      initHandles_allClosed.handle k hleads.lt
    omega
  | @unmount dev force r hunmount =>
    unfold yaffsUnmount2 at hunmount
    split at hunmount
    · split at hunmount
      · obtain ⟨y', hbreak, rfl⟩ := Option.map_eq_some_iff.mp hunmount
        obtain ⟨y'', hbreak', -, -, -, hfree⟩ := breakDeviceHandles_spec hs.1 hs.2 dev
        rw [hbreak, Option.some.injEq] at hbreak'
        exact absurd hused (hbreak' ▸ hfree k hleads.lt)
      · cases hunmount
        have herror : Keeps s.tables (s.tables.setError .EBUSY) := .of_eq rfl rfl rfl rfl rfl
        exact herror.leads hfds' hhandles' hleads hused
    · cases hunmount
      exact ⟨hleads, rfl⟩

/-- While reads and writes use a handle, it is closed only as long as it has another use, and
    nothing is mounted or forced off while one of them is under way. -/
def ClosedOnce (s : YaffsState Obj) : FileEvent Obj → Prop
  | .close h | .abortClose h =>
    0 < s.inIo.count h → (s.inIo.count h : Int) < (s.tables.handle h.toNat).useCount
  | .mount => s.inIo = []
  | .unmount _ force => force = true → s.inIo = []
  | _ => True

instance (s : YaffsState Obj) (e : FileEvent Obj) : Decidable (s.ClosedOnce e) :=
  match e with
  | .close h | .abortClose h => inferInstanceAs (Decidable
      (0 < s.inIo.count h → (s.inIo.count h : Int) < (s.tables.handle h.toNat).useCount))
  | .mount => inferInstanceAs (Decidable (s.inIo = []))
  | .unmount _ force => inferInstanceAs (Decidable (force = true → s.inIo = []))
  | .openSharing .. | .dup _ | .enterIo _ | .leaveIo _ | .unlink _ => inferInstanceAs (Decidable True)

/-- A handle has at least the uses of the reads and writes. -/
def Pinned (s : YaffsState Obj) : Prop :=
  ∀ h ∈ s.inIo, ∃ k < s.tables.nHandles, h = (k : Int) ∧
    (s.inIo.count h : Int) ≤ (s.tables.handle k).useCount

omit [DecidableEq Obj] in
/-- Nobody reads or writes. -/
theorem pinned_of_nil (hnil : s.inIo = []) : s.Pinned := by
  intro h hh
  rw [hnil] at hh
  cases hh

omit [DecidableEq Obj] in
/-- The use counts of the handles in `inIo` decide. -/
theorem Pinned.of_useCount (hs : s.Pinned) (hn : s'.tables.nHandles = s.tables.nHandles)
    (hio : s'.inIo = s.inIo)
    (huse : ∀ k < s.tables.nHandles, (k : Int) ∈ s.inIo →
      (s.inIo.count (k : Int) : Int) ≤ (s.tables.handle k).useCount →
      (s.inIo.count (k : Int) : Int) ≤ (s'.tables.handle k).useCount) : s'.Pinned := by
  intro h hh
  rw [hio] at hh
  obtain ⟨k, hk, rfl, hcount⟩ := hs h hh
  rw [hn, hio]
  exact ⟨k, hk, rfl, huse k hk hh hcount⟩

omit [DecidableEq Obj] in
theorem Pinned.used (hs : s.Pinned) (hh : h ∈ s.inIo) :
    ∃ k < s.tables.nHandles, h = (k : Int) ∧ 0 < (s.tables.handle k).useCount := by
  obtain ⟨k, hk, hkh, hcount⟩ := hs h hh
  have hpos := List.count_pos_iff.mpr hh
  exact ⟨k, hk, hkh, by omega⟩

/-- A close takes a use that no read or write needs. -/
theorem Pinned.close {flush : Obj → GutsCall Obj} {r : Int × YaffsTables Obj} (hs : s.Pinned)
    (hclose : CloseSpec flush s.tables h r)
    (hown : 0 < s.inIo.count h → (s.inIo.count h : Int) < (s.tables.handle h.toNat).useCount) :
    (s.withTables r.2).Pinned := by
  refine hs.of_useCount hclose.keeps.nHandles rfl fun k hk hmem hcount => ?_
  show _ ≤ (r.2.handle k).useCount
  rcases hclose.useCount hk with hsame | ⟨rfl, hless⟩
  · omega
  · have hlt := hown (List.count_pos_iff.mpr hmem)
    rw [Int.toNat_natCast] at hlt
    omega

theorem StepSpec.pinned (hpin : s.Pinned) (hin : s.InTable e) (hown : s.ClosedOnce e)
    (hspec : s.StepSpec e s') : s'.Pinned := by
  cases hspec with
  | @openSharing path flags shareRead shareWrite r hopen =>
    refine hpin.of_useCount hopen.keeps.nHandles rfl fun k hk hmem hcount => ?_
    show _ ≤ (r.2.handle k).useCount
    have hpos := List.count_pos_iff.mpr hmem
    -- a handle in use is not the one that is given out
    rw [hopen.useCount (by omega)]
    exact hcount
  | @dup h r hdup =>
    refine hpin.of_useCount hdup.keeps.nHandles rfl fun k hk hmem hcount => ?_
    show _ ≤ (r.2.handle k).useCount
    have hpos := List.count_pos_iff.mpr hmem
    rw [hdup.useCount (by omega)]
    exact hcount
  | close hclose => exact hpin.close hclose hown
  | abortClose hclose => exact hpin.close hclose hown
  | @enterIo h hobj =>
    -- the count goes up with the list of the reads and writes
    obtain ⟨obj, hobj⟩ := Option.isSome_iff_exists.mp hobj
    obtain ⟨k, hk, rfl, hused, -⟩ := handleToObject_cases hin hobj
    intro h' hh'
    have hn : (s.tables.getHandle k).nHandles = s.tables.nHandles := getHandle_keeps.nHandles
    show ∃ j < (s.tables.getHandle k).nHandles, _
    rw [hn]
    by_cases hmem : h' ∈ s.inIo
    · -- another read or write is on the handle already
      obtain ⟨j, hj, rfl, hcount⟩ := hpin h' hmem
      have hpos := List.count_pos_iff.mpr hmem
      refine ⟨j, hj, rfl, ?_⟩
      show (((k : Int) :: s.inIo).count (j : Int) : Int) ≤ ((s.tables.getHandle k).handle j).useCount
      rw [getHandle_useCount hj (by omega), List.count_cons]
      simp only [beq_iff_eq]
      split <;> omega
    · -- it is the first one on the handle, which is open
      obtain rfl : h' = (k : Int) := by
        rcases List.mem_cons.mp hh' with hk' | hmem'
        · exact hk'
        · exact absurd hmem' hmem
      refine ⟨k, hk, rfl, ?_⟩
      show (((k : Int) :: s.inIo).count (k : Int) : Int) ≤ ((s.tables.getHandle k).handle k).useCount
      rw [getHandle_useCount hk hused, List.count_cons, List.count_eq_zero_of_not_mem hmem]
      simp
      omega
  | @leaveIo h y' hmem hput =>
    intro h' hh'
    have hmem' : h' ∈ s.inIo := List.mem_of_mem_erase hh'
    obtain ⟨j, hj, rfl, hcount⟩ := hpin h' hmem'
    have hn : y'.nHandles = s.tables.nHandles := hput.keeps.nHandles
    refine ⟨j, hn ▸ hj, rfl, ?_⟩
    have hpos := List.count_pos_iff.mpr hmem'
    -- the count goes down with the list, on this handle only
    have hused : 0 < (s.tables.handle j).useCount := by omega
    show ((s.inIo.erase h).count (j : Int) : Int) ≤ (y'.handle j).useCount
    rw [hput.useCount hj, List.count_erase]
    simp only [hused, and_true, beq_iff_eq]
    by_cases hjh : h = (j : Int)
    · simp only [hjh, if_true]
      omega
    · have hhj : ¬ (j : Int) = h := fun heq => hjh heq.symm
      simp only [hjh, if_false]
      omega
  | unlink => exact hpin
  | mount =>
    have hempty : s.inIo = [] := hown
    exact pinned_of_nil hempty
  | @unmount dev force r hunmount =>
    cases force with
    | true =>
      have hempty : s.inIo = [] := hown rfl
      exact pinned_of_nil hempty
    | false =>
      -- a busy device stays
      have hhandle : r.2.handle = s.tables.handle ∧ r.2.nHandles = s.tables.nHandles := by
        unfold yaffsUnmount2 at hunmount
        split at hunmount
        · cases hunmount
          exact ⟨rfl, rfl⟩
        · cases hunmount
          exact ⟨rfl, rfl⟩
      refine hpin.of_useCount hhandle.2 rfl fun k hk hmem hcount => ?_
      show _ ≤ (r.2.handle k).useCount
      rw [hhandle.1]
      exact hcount

/-- How many reads and writes on the handle end. -/
def endsIo (h : Int) (es : List (FileEvent Obj)) : Nat :=
  es.countP fun
    | .leaveIo h' => h' = h
    | _ => false

/-- Reads and writes end one by one. -/
theorem StepSpec.count_inIo (hspec : s.StepSpec e s') :
    s.inIo.count h ≤ s'.inIo.count h + endsIo h [e] := by
  cases hspec with
  | enterIo hobj =>
    show s.inIo.count h ≤ (_ :: s.inIo).count h + _
    rw [List.count_cons]
    omega
  | @leaveIo h' y' hmem hput =>
    show s.inIo.count h ≤ (s.inIo.erase h').count h + endsIo h [.leaveIo h']
    have hends : endsIo h [(.leaveIo h' : FileEvent Obj)] = if h' = h then 1 else 0 := by
      simp [endsIo]
    rw [hends, List.count_erase]
    simp only [beq_iff_eq]
    omega
  | openSharing => exact Nat.le_add_right _ _
  | dup => exact Nat.le_add_right _ _
  | close => exact Nat.le_add_right _ _
  | abortClose => exact Nat.le_add_right _ _
  | unlink => exact Nat.le_add_right _ _
  | mount => exact Nat.le_add_right _ _
  | unmount => exact Nat.le_add_right _ _

/-- The run from a state in which more reads and writes are under way than end. -/
theorem leads_of_run (hs : s.Counted) (hpin : s.Pinned) (hleads : s.tables.Leads k f i obj)
    {es : List (FileEvent Obj)} (hends : endsIo k es < s.inIo.count (k : Int))
    (hrun : runUnder step (fun s e => s.InTable e ∧ s.ClosedOnce e) s es = some s') :
    s'.tables.Leads k f i obj ∧ s'.tables.mode f = s.tables.mode f := by
  induction es generalizing s with
  | nil =>
    simp only [runUnder, Option.some.injEq] at hrun
    subst hrun
    exact ⟨hleads, rfl⟩
  | cons e es ih =>
    rw [runUnder] at hrun
    split at hrun
    swap
    · cases hrun
    rename_i hok
    obtain ⟨s₁, hstep, hrest⟩ := Option.bind_eq_some_iff.mp hrun
    have hspec := stepSpec_of_step hs hok.1 hstep
    have hpin₁ := hspec.pinned hpin hok.1 hok.2
    have hcount := hspec.count_inIo (h := k)
    have hsplit : endsIo k (e :: es) = endsIo k es + endsIo k [e] := by
      simp only [endsIo, List.countP_cons, List.countP_nil, Nat.zero_add]
    have hmore : endsIo k es < s₁.inIo.count (k : Int) := by omega
    -- one of them is still under way
    obtain ⟨j, -, hjk, hused⟩ := hpin₁.used (List.count_pos_iff.mp (Nat.zero_lt_of_lt hmore))
    obtain rfl := Int.ofNat_inj.mp hjk
    obtain ⟨hleads₁, hmode₁⟩ := hspec.leads hs hok.1 hleads hused
    obtain ⟨hleads', hmode'⟩ := ih (hspec.counted hs hok.1) hpin₁ hleads₁ hmore hrest
    exact ⟨hleads', hmode'.trans hmode₁⟩

/-- The run from a state with a read or a write under way, in whole sections of the lock. -/
theorem pinned_of_sections (hs₀ : AllClosed s₀.tables) (hio₀ : s₀.inIo = [])
    (hs : ReachableUnder s₀ step (fun s e => s.InTable e ∧ s.ClosedOnce e) s) (hh : h ∈ s.inIo) :
    ∃ f obj, s.tables.handleToFileDes h = some f ∧ s.tables.handleToObject h = some obj ∧
      ∀ es s', endsIo h es < s.inIo.count h →
        runUnder step (fun s e => s.InTable e ∧ s.ClosedOnce e) s es = some s' →
        s'.tables.handleToFileDes h = some f ∧ s'.tables.handleToObject h = some obj ∧
          s'.tables.mode f = s.tables.mode f := by
  obtain ⟨hcounted, hpin⟩ := invariant_of_run (P := Pinned) hs₀ (pinned_of_nil hio₀)
    (fun s e s' _ hpin hin hown hspec => hspec.pinned hpin hin hown) hs
  obtain ⟨k, hk, rfl, hused⟩ := hpin.used hh
  obtain ⟨f, i, obj, hleads⟩ := exists_leads hcounted.1 hcounted.2 hk hused
  refine ⟨f, obj, hleads.handleToFileDes, hleads.handleToObject, fun es s' hends hrun => ?_⟩
  obtain ⟨hleads', hmode⟩ := leads_of_run hcounted hpin hleads hends hrun
  exact ⟨hleads'.handleToFileDes, hleads'.handleToObject, hmode⟩

/-! ## Threads -/

section

open LockedSections

variable {α τ : Type} [DecidableEq τ] {p : Sections (YaffsState Obj) (FileEvent Obj) α}
  {c : Config (YaffsState Obj) τ α}

/-- **A read or a write keeps its file**, if the lock excludes. The threads take their small steps
    in any order. As long as one of the reads and writes that are under way on a handle goes on,
    the handle leads to the same descriptor, with the same mode, and to the same object, whenever
    the lock is free. -/
theorem pinned_of_run (hlock : p.excludes = true) (hcode : p.Implements step)
    (hs₀ : AllClosed s₀.tables) (hio₀ : s₀.inIo = [])
    (hc : ReachableUnder ⟨s₀, []⟩ (Config.step p)
      (Entering fun s e => s.InTable e ∧ s.ClosedOnce e) c)
    (hfree : c.inside = []) (hh : h ∈ c.shared.inIo) :
    ∃ f obj, c.shared.tables.handleToFileDes h = some f ∧
      c.shared.tables.handleToObject h = some obj ∧
      ∀ es c', endsIo h (sections es) < c.shared.inIo.count h →
        runUnder (Config.step p) (Entering fun s e => s.InTable e ∧ s.ClosedOnce e) c es = some c' →
        c'.inside = [] →
        c'.shared.tables.handleToFileDes h = some f ∧ c'.shared.tables.handleToObject h = some obj ∧
          c'.shared.tables.mode f = c.shared.tables.mode f := by
  have hs := reachable_of_interleaved hlock hcode hc hfree
  obtain ⟨f, obj, hfd, hobj, hkeeps⟩ := pinned_of_sections hs₀ hio₀ hs hh
  refine ⟨f, obj, hfd, hobj, fun es c' hends hrun hfree' => ?_⟩
  exact hkeeps (sections es) c'.shared hends (runUnder_of_interleaved hlock hcode hfree hrun hfree')

/-- `useCount++` of `yaffsfs_GetHandle` in two steps, with the value that was read as the local of
    the thread. The other sections are one step. -/
def handleCode : FileEvent Obj → List (SmallStep (YaffsState Obj) Int)
  | .enterIo h =>
    [fun x => if (x.2.tables.handleToObject h).isSome then
        some ((x.2.tables.handle h.toNat).useCount, x.2) else none,
      fun x => some (x.1,
        { tables := x.2.tables.setHandle h.toNat
            { x.2.tables.handle h.toNat with useCount := x.1 + 1 }
          inIo := h :: x.2.inIo })]
  | e => [fun x => (x.2.step e).map fun s => (x.1, s)]

/-- The sections with this code. -/
def handleSections (Obj : Type) [DecidableEq Obj] (excludes : Bool) :
    Sections (YaffsState Obj) (FileEvent Obj) Int := ⟨excludes, 0, handleCode⟩

theorem handleSections_implements (excludes : Bool) :
    (handleSections Obj excludes).Implements step := by
  intro s e x hx
  have hwhole : ∀ e, perform [fun x : Int × YaffsState Obj => (x.2.step e).map fun s => (x.1, s)]
      ((0 : Int), s) = some x → s.step e = some x.2 := by
    intro e he
    simp only [perform, Option.bind_eq_some_iff, Option.map_eq_some_iff, Option.some.injEq] at he
    obtain ⟨_, ⟨s', hs', rfl⟩, rfl⟩ := he
    exact hs'
  cases e with
  | enterIo h =>
    simp only [handleSections, handleCode, perform] at hx
    split at hx
    swap
    · cases hx
    rename_i hobj
    simp only [Option.bind_some, Option.some.injEq] at hx
    subst hx
    -- the handle passes the test of `yaffsfs_GetHandle`
    obtain ⟨obj, hobj'⟩ := Option.isSome_iff_exists.mp hobj
    simp only [YaffsFiles.handleToObject, Option.bind_eq_bind, Option.bind_eq_some_iff] at hobj'
    obtain ⟨f, hfd, -⟩ := hobj'
    simp only [YaffsFiles.handleToFileDes, Option.bind_eq_bind, Option.bind_eq_some_iff] at hfd
    obtain ⟨q, hq, hfd⟩ := hfd
    have hused : q.useCount > 0 := by
      by_contra hunused
      simp [hunused] at hfd
    have hentry : q = s.tables.handle h.toNat := by
      simp only [YaffsFiles.handleToPointer] at hq
      split at hq
      · exact (Option.some.inj hq).symm
      · cases hq
    have hget : s.tables.getHandle h =
        s.tables.setHandle h.toNat { q with useCount := q.useCount + 1 } := by
      rw [YaffsTables.getHandle, hq]
      exact if_pos hused
    rw [step, if_pos hobj, hget, hentry]
  | _ => exact hwhole _ hx

/-- A section of a thread, from its lock to its unlock. -/
def wholeSection (p : Sections (YaffsState Obj) (FileEvent Obj) α) (t : τ) (e : FileEvent Obj) :
    List (ThreadEvent (FileEvent Obj) τ) :=
  .lock t e :: (p.code e).map (fun _ => .go t) ++ [.unlock t]

/-- Object 7 is unlinked and closed under a read, and its handle is not given to the next open. -/
theorem pinned_of_run_closed : ∃ c : Config (YaffsState Nat) Nat Int,
    (ReachableUnder ⟨noFiles 4, []⟩ (Config.step (handleSections Nat true))
        (Entering fun s e => s.InTable e ∧ s.ClosedOnce e) c ∧
      c.inside.isEmpty ∧ 0 ∈ c.shared.inIo ∧ c.shared.tables.unlinked 7 = true) ∧
    ∃ f obj, c.shared.tables.handleToFileDes 0 = some f ∧
      c.shared.tables.handleToObject 0 = some obj ∧
      ∀ es c', endsIo 0 (sections es) < c.shared.inIo.count 0 →
        runUnder (Config.step (handleSections Nat true))
          (Entering fun s e => s.InTable e ∧ s.ClosedOnce e) c es = some c' →
        c'.inside = [] →
        c'.shared.tables.handleToFileDes 0 = some f ∧ c'.shared.tables.handleToObject 0 = some obj ∧
          c'.shared.tables.mode f = c.shared.tables.mode f := by
  obtain ⟨c, hc, hfree, hio, hunlinked⟩ := exists_of_runUnder
    (⟨noFiles 4, []⟩ : Config (YaffsState Nat) Nat Int) (Config.step (handleSections Nat true))
    (Entering fun s e => s.InTable e ∧ s.ClosedOnce e)
    (fun c => c.inside.isEmpty ∧ 0 ∈ c.shared.inIo ∧ c.shared.tables.unlinked 7 = true)
    ([(1, openFile 7 ⟨.rdwr, false, false, false, false⟩ true true), (1, .enterIo 0),
      (2, .unlink 7), (2, .close 0),
      (2, openFile 8 ⟨.rdwr, false, false, false, false⟩ true true)].flatMap fun e =>
        wholeSection (handleSections Nat true) e.1 e.2) (by decide)
  exact ⟨c, ⟨hc, hfree, hio, hunlinked⟩, pinned_of_run rfl (handleSections_implements true)
    (noFiles_allClosed 4) rfl hc (List.isEmpty_iff.mp hfree) hio⟩

/-- With the `yaffsfs_Lock` of `yaffcfg.c` three reads of one handle can find the same
    `useCount`. Two of them end, and the third goes on with a handle that is free. -/
example : ((runUnder (Config.step (handleSections Nat false))
      (Entering fun s e => s.InTable e ∧ s.ClosedOnce e) (⟨noFiles 4, []⟩ : Config _ Nat Int)
      (wholeSection (handleSections Nat false) 1
          (openFile 7 ⟨.rdwr, false, false, false, false⟩ true true) ++
        [.lock 1 (.enterIo 0), .lock 2 (.enterIo 0), .lock 3 (.enterIo 0), .go 1, .go 2, .go 3,
          .go 1, .unlock 1, .go 2, .unlock 2, .go 3, .unlock 3] ++
        wholeSection (handleSections Nat false) 1 (.leaveIo 0) ++
        wholeSection (handleSections Nat false) 2 (.leaveIo 0))).any fun c =>
      c.inside.isEmpty ∧ c.shared.inIo = [0] ∧ c.shared.tables.handleToFileDes 0 = none) = true := by
  decide

end

end YaffsState

end TxFS
