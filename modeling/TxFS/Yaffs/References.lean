import TxFS.Lib.GuardedRun
import TxFS.Lib.RefTable
import TxFS.Yaffs.OpenFiles

/-!
# Reference Counts of the Open Files

A used handle refers to a descriptor, and a used descriptor to an inode. `FdsCounted` says that
the count of an inode is the number of its descriptors, and `HandlesCounted` that the count of a
descriptor covers its handles. Both hold in every run, whatever handles the clients close,
so no close follows a `NULL` pointer and an inode is found for every descriptor.
-/

namespace TxFS

open RefTable GuardedRun

namespace YaffsTables

variable {Obj : Type} {y y' : YaffsTables Obj} {f h i j : Nat} {c : Int} {obj : Obj}

/-! ## The invariant -/

/-- The inode of a used descriptor. -/
def fdRef (y : YaffsTables Obj) (f : Nat) : Option Nat :=
  if 0 < (y.fd f).handleCount then some (y.fd f).inodeId.toNat else none

/-- The descriptor of a used handle. -/
def handleRef (y : YaffsTables Obj) (h : Nat) : Option Nat :=
  if 0 < (y.handle h).useCount then some (y.handle h).fdId.toNat else none

/-- The descriptors and the inodes. -/
structure FdsCounted (y : YaffsTables Obj) : Prop where
  valid : ∀ f < y.nHandles, 0 < (y.fd f).handleCount →
    0 ≤ (y.fd f).inodeId ∧ (y.fd f).inodeId < y.nHandles
  count : ∀ i < y.nHandles, y.count i = refs y.nHandles y.fdRef i
  used : ∀ i < y.nHandles, y.inode i ≠ none ↔ 0 < refs y.nHandles y.fdRef i
  distinct : ∀ i < y.nHandles, ∀ j < y.nHandles, ∀ obj,
    y.inode i = some obj → y.inode j = some obj → i = j
  equivalent : ∀ i < y.nHandles, ∀ obj, y.inode i = some obj → y.getEquivalentObj obj = obj

/-- The handles and the descriptors. -/
structure HandlesCounted (y : YaffsTables Obj) : Prop where
  valid : ∀ h < y.nHandles, 0 < (y.handle h).useCount →
    0 ≤ (y.handle h).fdId ∧ (y.handle h).fdId < y.nHandles
  covered : ∀ f < y.nHandles, (refs y.nHandles y.handleRef f : Int) ≤ (y.fd f).handleCount

theorem fdRef_of_used (hused : 0 < (y.fd f).handleCount) :
    y.fdRef f = some (y.fd f).inodeId.toNat := if_pos hused

theorem handleRef_of_used (hused : 0 < (y.handle h).useCount) :
    y.handleRef h = some (y.handle h).fdId.toNat := if_pos hused

/-- A used descriptor has an object. -/
theorem FdsCounted.inode (hy : FdsCounted y) (hf : f < y.nHandles)
    (hused : 0 < (y.fd f).handleCount) :
    ∃ i < y.nHandles, (y.fd f).inodeId = i ∧ ∃ obj, y.inode i = some obj := by
  obtain ⟨hnonneg, hlt⟩ := hy.valid f hf hused
  have hi : (y.fd f).inodeId.toNat < y.nHandles := by omega
  refine ⟨_, hi, (Int.toNat_of_nonneg hnonneg).symm, ?_⟩
  exact Option.ne_none_iff_exists'.mp
    ((hy.used _ hi).mpr (refs_pos_iff.mpr ⟨f, hf, fdRef_of_used hused⟩))

theorem FdsCounted.inodeId_lt (hy : FdsCounted y) (hf : f < y.nHandles)
    (hused : 0 < (y.fd f).handleCount) (hid : (y.fd f).inodeId = i) : i < y.nHandles := by
  have hvalid := hy.valid f hf hused
  omega

/-- A used handle has a used descriptor. -/
theorem HandlesCounted.fd (hy : HandlesCounted y) (hh : h < y.nHandles)
    (hused : 0 < (y.handle h).useCount) :
    ∃ f < y.nHandles, (y.handle h).fdId = f ∧ 0 < (y.fd f).handleCount := by
  obtain ⟨hnonneg, hlt⟩ := hy.valid h hh hused
  have hf : (y.handle h).fdId.toNat < y.nHandles := by omega
  refine ⟨_, hf, (Int.toNat_of_nonneg hnonneg).symm, ?_⟩
  have hcovered := hy.covered _ hf
  have hpos : 0 < refs y.nHandles y.handleRef (y.handle h).fdId.toNat :=
    refs_pos_iff.mpr ⟨h, hh, handleRef_of_used hused⟩
  omega

/-- Only the used part of the tables counts. -/
theorem FdsCounted.congr (hy : FdsCounted y) (hn : y'.nHandles = y.nHandles)
    (hinode : y'.inode = y.inode) (hcount : y'.count = y.count)
    (hequiv : y'.getEquivalentObj = y.getEquivalentObj)
    (hfd : ∀ f < y.nHandles, y'.fdRef f = y.fdRef f ∧
      (0 < (y'.fd f).handleCount → (y'.fd f).inodeId = (y.fd f).inodeId)) : FdsCounted y' := by
  have hrefs : ∀ i, refs y'.nHandles y'.fdRef i = refs y.nHandles y.fdRef i := by
    intro i
    rw [hn]
    exact refs_congr fun f hf => (hfd f hf).1
  refine ⟨?_, ?_, ?_, ?_, ?_⟩
  · intro f hf hused
    rw [hn] at hf ⊢
    obtain ⟨href, hinodeId⟩ := hfd f hf
    rw [hinodeId hused]
    apply hy.valid f hf
    by_contra hfree
    rw [fdRef_of_used hused, fdRef, if_neg hfree] at href
    cases href
  · intro i hi
    rw [hcount, hrefs]
    exact hy.count i (hn ▸ hi)
  · intro i hi
    rw [hinode, hrefs]
    exact hy.used i (hn ▸ hi)
  · rw [hinode, hn]
    exact hy.distinct
  · rw [hinode, hn, hequiv]
    exact hy.equivalent

/-- A change of the count of a descriptor that stays in use. -/
theorem FdsCounted.setCount (hy : FdsCounted y) (hused : 0 < (y.fd f).handleCount) (hc : 0 < c) :
    FdsCounted (y.setFd f c (y.fd f).inodeId) := by
  refine hy.congr rfl rfl rfl rfl fun g hg => ?_
  by_cases hgf : g = f
  · subst hgf
    have hfd : (y.setFd g c (y.fd g).inodeId).fd g =
        { y.fd g with handleCount := c, inodeId := (y.fd g).inodeId } := Function.update_self ..
    constructor
    · rw [fdRef, hfd, if_pos hc, fdRef_of_used hused]
    · intro _
      rw [hfd]
  · have hfd : (y.setFd f c (y.fd f).inodeId).fd g = y.fd g := Function.update_of_ne hgf ..
    constructor
    · rw [fdRef, hfd, fdRef]
    · intro _
      rw [hfd]

/-! ## Setting a handle -/

theorem setHandle_setHandle {k : Nat} {p q : YaffsHandle} :
    (y.setHandle k p).setHandle k q = y.setHandle k q := by
  simp [setHandle]

theorem handleRef_set {k : Nat} {p : YaffsHandle} (hhandle : y'.handle = Function.update y.handle k p) :
    y'.handleRef =
      Function.update y.handleRef k (if 0 < p.useCount then some p.fdId.toNat else none) := by
  funext h
  by_cases hh : h = k
  · subst hh
    simp only [handleRef, hhandle, Function.update_self]
  · simp only [handleRef, hhandle, Function.update_of_ne hh]

/-- The handles of a descriptor behind the change of one handle. -/
theorem refs_handleRef_set {k : Nat} {p : YaffsHandle} (hk : k < y.nHandles)
    (hhandle : y'.handle = Function.update y.handle k p) :
    refs y.nHandles y'.handleRef f + (if y.handleRef k = some f then 1 else 0) =
      refs y.nHandles y.handleRef f + if 0 < p.useCount ∧ p.fdId.toNat = f then 1 else 0 := by
  rw [handleRef_set hhandle]
  have hset := refs_set (p := y.handleRef) (j := f) hk
    (if 0 < p.useCount then some p.fdId.toNat else none)
  have hnew : (if 0 < p.useCount then some p.fdId.toNat else none) = some f ↔
      0 < p.useCount ∧ p.fdId.toNat = f := by
    by_cases hu : 0 < p.useCount
    · simp [hu]
    · simp [hu]
  simp only [hnew] at hset
  exact hset

/-- One handle changes, and the counts of the descriptors with it. -/
theorem HandlesCounted.set {k : Nat} {p : YaffsHandle} (hy : HandlesCounted y)
    (hn : y'.nHandles = y.nHandles) (hk : k < y.nHandles)
    (hhandle : y'.handle = Function.update y.handle k p)
    (hvalid : 0 < p.useCount → 0 ≤ p.fdId ∧ p.fdId < y.nHandles)
    (hcover : ∀ f < y.nHandles,
      (y.fd f).handleCount + (if 0 < p.useCount ∧ p.fdId.toNat = f then 1 else 0 : Nat) ≤
        (y'.fd f).handleCount + (if y.handleRef k = some f then 1 else 0 : Nat)) :
    HandlesCounted y' := by
  constructor
  · intro h hh hused
    rw [hhandle] at hused ⊢
    rw [hn] at hh ⊢
    by_cases hhk : h = k
    · subst hhk
      rw [Function.update_self] at hused ⊢
      exact hvalid hused
    · rw [Function.update_of_ne hhk] at hused ⊢
      exact hy.valid h hh hused
  · intro f hf
    rw [hn] at hf ⊢
    have hset := refs_handleRef_set (f := f) hk hhandle
    have hcovered := hy.covered f hf
    have hcoverf := hcover f hf
    omega

/-! ## New handles -/

/-- `h` is the first free handle. -/
structure FirstFree (y : YaffsTables Obj) (h : Nat) : Prop where
  lt : h < y.nHandles
  free : ¬ 0 < (y.handle h).useCount
  first : ∀ k < h, 0 < (y.handle k).useCount

theorem newHandle_cases : (y.newHandle = none ∧ ∀ h < y.nHandles, 0 < (y.handle h).useCount) ∨
    ∃ h, y.FirstFree h ∧ y.newHandle = some (h, y.setHandle h ⟨-1, 1⟩) := by
  unfold newHandle
  cases hfind : (List.range y.nHandles).find? fun h => (y.handle h).useCount < 1 with
  | none =>
    left
    refine ⟨rfl, fun h hh => ?_⟩
    have hnone := List.find?_range_eq_none.mp hfind h hh
    simp only [Bool.not_eq_eq_eq_not, Bool.not_true, decide_eq_false_iff_not] at hnone
    omega
  | some h =>
    right
    obtain ⟨hfree, hmem, hfirst⟩ := List.find?_range_eq_some.mp hfind
    refine ⟨h, ⟨List.mem_range.mp hmem, ?_, fun k hk => ?_⟩, rfl⟩
    · have := of_decide_eq_true hfree
      omega
    · have := hfirst k hk
      simp only [Bool.not_eq_eq_eq_not, Bool.not_true, decide_eq_false_iff_not] at this
      omega

theorem newHandleAndFileDes_cases :
    (y.newHandleAndFileDes = (none, y) ∧ ∀ h < y.nHandles, 0 < (y.handle h).useCount) ∨
      ∃ h, y.FirstFree h ∧
        ((y.newHandleAndFileDes = (none, y.setHandle h ⟨-1, 0⟩) ∧
            ∀ f < y.nHandles, 0 < (y.fd f).handleCount) ∨
          ∃ f < y.nHandles, ¬ 0 < (y.fd f).handleCount ∧
            y.newHandleAndFileDes = (some h, y.reserved h f)) := by
  unfold newHandleAndFileDes
  rcases y.newHandle_cases with ⟨hnone, hall⟩ | ⟨h, hfree, hnew⟩
  · left
    rw [hnone]
    exact ⟨rfl, hall⟩
  · right
    refine ⟨h, hfree, ?_⟩
    rw [hnew]
    dsimp only
    cases hfind : (List.range (y.setHandle h ⟨-1, 1⟩).nHandles).find? fun f =>
        ((y.setHandle h ⟨-1, 1⟩).fd f).handleCount < 1 with
    | none =>
      left
      refine ⟨?_, fun f hf => ?_⟩
      · have hentry : (y.setHandle h ⟨-1, 1⟩).handle h = ⟨-1, 1⟩ := Function.update_self ..
        rw [hentry, setHandle_setHandle]
      · have hnone := List.find?_range_eq_none.mp hfind f hf
        simp only [Bool.not_eq_eq_eq_not, Bool.not_true, decide_eq_false_iff_not] at hnone
        have hused : ¬ (y.fd f).handleCount < 1 := hnone
        omega
    | some f =>
      right
      obtain ⟨hunused, hmem, -⟩ := List.find?_range_eq_some.mp hfind
      have hcount : (y.fd f).handleCount < 1 := of_decide_eq_true hunused
      refine ⟨f, List.mem_range.mp hmem, by omega, ?_⟩
      simp [setHandle, reserved]

/-- The entry of `yaffsfs_inode` that an open uses. -/
inductive InodeSlot (y : YaffsTables Obj) (obj : Obj) (i : Nat) : Prop where
  | old (hi : i < y.nHandles) (hobj : y.inode i = some (y.getEquivalentObj obj))
  | new (hi : i < y.nHandles) (hfree : y.inode i = none)
      (hnot : ∀ j < y.nHandles, y.inode j ≠ some (y.getEquivalentObj obj))

theorem InodeSlot.lt (h : InodeSlot y obj i) : i < y.nHandles := by
  cases h with
  | old hi => exact hi
  | new hi => exact hi

/-- **An inode for every descriptor**: there are as many entries as descriptors. -/
theorem FdsCounted.exists_inode (hy : FdsCounted y) (hf : f < y.nHandles)
    (hfree : ¬ 0 < (y.fd f).handleCount) : ∃ i < y.nHandles, y.inode i = none := by
  obtain ⟨i, hi, hunused⟩ := exists_unused (fun i => y.inode i ≠ none) hf
    (show y.fdRef f = none from if_neg hfree)
    fun i hi hused => refs_pos_iff.mp ((hy.used i hi).mp hused)
  exact ⟨i, hi, not_not.mp hunused⟩

/-- A handle that leads to a descriptor. -/
theorem handleToFileDes_cases {h : Int} (hne : h ≠ y.nHandles)
    (hfd : y.handleToFileDes h = some f) :
    ∃ k < y.nHandles, h = (k : Int) ∧ 0 < (y.handle k).useCount ∧ (y.handle k).fdId = f ∧
      f < y.nHandles := by
  simp only [YaffsFiles.handleToFileDes, YaffsFiles.handleToPointer, Option.bind_eq_bind,
    Option.bind_eq_some_iff] at hfd
  obtain ⟨p, hp, hfd⟩ := hfd
  split at hp
  · rename_i hrange
    cases hp
    split at hfd
    · rename_i hused
      have hf := Option.some.inj hfd
      refine ⟨h.toNat, by omega, by omega, hused.1, by omega, by omega⟩
    · cases hfd
  · cases hp

/-! ## Freeing a descriptor -/

variable [DecidableEq Obj]

/-- What is left behind the last handle of the descriptor `f`, with the inode `i` of `obj`. -/
def freed (y : YaffsTables Obj) (f : Nat) (c : Int) (i : Nat) (obj : Obj) : YaffsTables Obj :=
  { y.setFd f c (-1) with
    count := Function.update y.count i (if y.count i ≤ 1 then 0 else y.count i - 1)
    inode := if y.count i ≤ 1 then Function.update y.inode i none else y.inode
    myInode := if y.count i ≤ 1 then Function.update y.myInode obj none else y.myInode
    calls := if y.count i ≤ 1 ∧ y.unlinked obj then y.calls ++ [.delObj obj] else y.calls }

theorem freed_setHandle {k : Nat} {p : YaffsHandle} :
    (y.setHandle k p).freed f c i obj = (y.freed f c i obj).setHandle k p := rfl

/-- `yaffsfs_PutInode` and the line behind it. -/
theorem putInode_freed (hi : i < y.nHandles) (hobj : y.inode i = some obj) {d : Int} :
    ((y.setFd f c d).putInode i).map (fun y => y.setFd f (y.fd f).handleCount (-1)) =
      some (y.freed f c i obj) := by
  have hrange : 0 ≤ (i : Int) ∧ (i : Int) < ((y.setFd f c d).nHandles : Int) :=
    ⟨Int.natCast_nonneg i, Int.ofNat_lt.mpr hi⟩
  unfold putInode
  rw [if_pos hrange]
  by_cases hlast : y.count i ≤ 1
  · -- the last descriptor of the inode
    have hzero : y.count i - 1 ≤ 0 := by omega
    by_cases hunlinked : y.unlinked obj = true
    · simp [freed, releaseInode, setCount, setFd, call, hobj, hlast, hzero, hunlinked]
    · simp [freed, releaseInode, setCount, setFd, hobj, hlast, hzero, hunlinked]
  · have hmore : ¬ y.count i - 1 ≤ 0 := by omega
    simp [freed, setCount, setFd, hlast, hmore]

theorem freed_fdRef (hc : c < 1) : (y.freed f c i obj).fdRef = Function.update y.fdRef f none := by
  funext g
  by_cases hg : g = f
  · subst hg
    rw [Function.update_self]
    apply if_neg
    simp only [freed, setFd, Function.update_self]
    omega
  · simp only [fdRef, freed, setFd, Function.update_of_ne hg]

/-- The inodes that are left were there. -/
theorem inode_of_freed {obj' : Obj} (h : (y.freed f c i obj).inode j = some obj') : y.inode j = some obj' := by
  simp only [freed] at h
  split at h
  · by_cases hji : j = i
    · rw [hji, Function.update_self] at h
      cases h
    · rwa [Function.update_of_ne hji] at h
  · exact h

/-- **The counts behind a freed descriptor**. -/
theorem FdsCounted.freed (hy : FdsCounted y) (hf : f < y.nHandles)
    (hused : 0 < (y.fd f).handleCount) (hid : (y.fd f).inodeId = i) (hobj : y.inode i = some obj)
    (hc : c < 1) : FdsCounted (y.freed f c i obj) := by
  have hvalid := hy.valid f hf hused
  have hi : i < y.nHandles := by omega
  have href : y.fdRef f = some i := by
    rw [fdRef_of_used hused, hid]
    rfl
  -- one reference to the inode is gone
  have hrefs : ∀ j, refs y.nHandles y.fdRef j =
      refs y.nHandles (y.freed f c i obj).fdRef j + if i = j then 1 else 0 := by
    intro j
    rw [freed_fdRef hc]
    exact refs_empty hf href
  have hcounti := hy.count i hi
  have hrefsi := hrefs i
  rw [if_pos rfl] at hrefsi
  exact {
    valid := by
      intro g hg hgused
      have hgf : g ≠ f := by
        rintro rfl
        simp only [YaffsTables.freed, setFd, Function.update_self] at hgused
        omega
      simp only [YaffsTables.freed, setFd, Function.update_of_ne hgf] at hgused ⊢
      exact hy.valid g hg hgused
    count := by
      intro j hj
      have hrefsj := hrefs j
      show Function.update y.count i _ j = (refs y.nHandles _ j : Int)
      by_cases hij : i = j
      · subst hij
        rw [Function.update_self]
        split <;> omega
      · rw [if_neg hij] at hrefsj
        rw [Function.update_of_ne (Ne.symm hij), hy.count j hj]
        omega
    used := by
      intro j hj
      have hrefsj := hrefs j
      show (if y.count i ≤ 1 then Function.update y.inode i none else y.inode) j ≠ none ↔
        0 < refs y.nHandles _ j
      by_cases hij : i = j
      · subst hij
        split
        · rw [Function.update_self]
          constructor
          · intro hne
            exact absurd rfl hne
          · omega
        · rw [hobj]
          constructor
          · omega
          · simp
      · rw [if_neg hij, Nat.add_zero] at hrefsj
        rw [← hrefsj, ← hy.used j hj]
        split
        · rw [Function.update_of_ne (Ne.symm hij)]
        · rfl
    distinct := fun j hj k hk obj' hjo hko =>
      hy.distinct j hj k hk obj' (inode_of_freed hjo) (inode_of_freed hko)
    equivalent := fun j hj obj' hjo => hy.equivalent j hj obj' (inode_of_freed hjo) }

/-! ## Letting a handle go -/

/-- **What `yaffsfs_PutHandle` does**: it takes a use of the handle, and with the last use the
    descriptor loses the handle. -/
inductive PutSpec (y : YaffsTables Obj) (h : Int) : YaffsTables Obj → Prop where
  /-- The handle is not in use. -/
  | same (hfree : ∀ k : Nat, h = k → k < y.nHandles → ¬ 0 < (y.handle k).useCount) : PutSpec y h y
  /-- Other uses remain. -/
  | pinned {k : Nat} (hk : k < y.nHandles) (hh : h = k) (huse : 1 < (y.handle k).useCount) :
      PutSpec y h (y.setHandle k { y.handle k with useCount := (y.handle k).useCount - 1 })
  /-- Other handles of the descriptor remain. -/
  | shared {k f : Nat} (hk : k < y.nHandles) (hh : h = k) (huse : (y.handle k).useCount = 1)
      (hf : f < y.nHandles) (hfd : (y.handle k).fdId = f) (hmore : 1 < (y.fd f).handleCount) :
      PutSpec y h ((y.setFd f ((y.fd f).handleCount - 1) (y.fd f).inodeId).setHandle k ⟨-1, 0⟩)
  /-- The last handle of the descriptor. -/
  | last {k f i : Nat} {obj : Obj} (hk : k < y.nHandles) (hh : h = k)
      (huse : (y.handle k).useCount = 1) (hf : f < y.nHandles) (hfd : (y.handle k).fdId = f)
      (hlast : (y.fd f).handleCount = 1) (hid : (y.fd f).inodeId = i)
      (hobj : y.inode i = some obj) : PutSpec y h ((y.freed f 0 i obj).setHandle k ⟨-1, 0⟩)

/-- **No `NULL` pointer behind a close**. -/
theorem putHandle_spec (hy : FdsCounted y) (hh : HandlesCounted y) {h : Int}
    (hne : h ≠ y.nHandles) : ∃ y', y.putHandle h = some y' ∧ PutSpec y h y' := by
  by_cases hrange : h ≥ 0 ∧ h ≤ y.nHandles
  swap
  · refine ⟨y, ?_, .same fun k hk hlt => absurd ⟨by omega, by omega⟩ hrange⟩
    simp only [putHandle, YaffsFiles.handleToPointer, if_neg hrange]
  obtain ⟨k, rfl⟩ := Int.eq_ofNat_of_zero_le hrange.1
  have hk : k < y.nHandles := by omega
  have hpointer : y.handleToPointer k = some (y.handle k) := by
    simp only [YaffsFiles.handleToPointer, if_pos hrange, Int.toNat_natCast]
  by_cases huse : 0 < (y.handle k).useCount
  swap
  · refine ⟨y, ?_, .same fun k' hk' _ => ?_⟩
    · simp only [putHandle, hpointer, gt_iff_lt, if_neg huse]
    · rwa [← Int.ofNat_inj.mp hk']
  by_cases hone : 1 < (y.handle k).useCount
  · refine ⟨_, ?_, .pinned hk rfl hone⟩
    have hmore : ¬ (y.handle k).useCount - 1 < 1 := by omega
    simp only [putHandle, hpointer, gt_iff_lt, if_pos huse, if_neg hmore, Int.toNat_natCast]
  have huse₁ : (y.handle k).useCount = 1 := by omega
  obtain ⟨f, hf, hfd, hused⟩ := hh.fd hk huse
  obtain ⟨i, hi, hid, obj, hobj⟩ := hy.inode hf hused
  have hfrange : 0 ≤ (f : Int) ∧ (f : Int) < y.nHandles := by omega
  by_cases hmore : 1 < (y.fd f).handleCount
  · refine ⟨_, ?_, .shared hk rfl huse₁ hf hfd hmore⟩
    have hlast : ¬ (y.fd f).handleCount - 1 < 1 := by omega
    simp [putHandle, hpointer, huse₁, putFileDes, hfd, setHandle, setFd, hf, hlast]
  · have hlast : (y.fd f).handleCount = 1 := by omega
    refine ⟨_, ?_, .last hk rfl huse₁ hf hfd hlast hid hobj⟩
    -- the descriptor goes with the handle
    have hput : ((((y.setHandle k ⟨f, 0⟩).setFd f 0 i).putInode i).map fun y =>
        y.setFd f (y.fd f).handleCount (-1)) = some ((y.setHandle k ⟨f, 0⟩).freed f 0 i obj) :=
      putInode_freed (y := y.setHandle k ⟨f, 0⟩) hi hobj
    have hput' : ((y.setHandle k ⟨f, 0⟩).putFileDes f) =
        some ((y.setHandle k ⟨f, 0⟩).freed f 0 i obj) := by
      rw [← hput]
      simp [putFileDes, setHandle, setFd, hf, hlast, hid]
    have hend : (1 : Int) - 1 < 1 := by decide
    have huse' : (0 : Int) < 1 := by decide
    simp only [putHandle, hpointer, gt_iff_lt, huse₁, if_pos huse', if_pos hend,
      Int.toNat_natCast, hfd]
    have huse₀ : ((y.freed f 0 i obj).setHandle k ⟨f, 0⟩).handle k = ⟨f, 0⟩ :=
      Function.update_self ..
    rw [show (1 : Int) - 1 = 0 from rfl, hput', freed_setHandle, Option.map_some, huse₀,
      setHandle_setHandle]

theorem PutSpec.fdsCounted {h : Int} (hy : FdsCounted y) (hput : PutSpec y h y') :
    FdsCounted y' := by
  cases hput with
  | same => exact hy
  | pinned => exact hy.congr rfl rfl rfl rfl fun f hf => ⟨rfl, fun _ => rfl⟩
  | @shared k f hk hh huse hf hfd hmore =>
    have hset : FdsCounted (y.setFd f ((y.fd f).handleCount - 1) (y.fd f).inodeId) :=
      hy.setCount (by omega) (by omega)
    exact hset.congr rfl rfl rfl rfl fun f hf => ⟨rfl, fun _ => rfl⟩
  | last hk hh huse hf hfd hlast hid hobj =>
    have hfree := hy.freed hf (by omega) hid hobj (c := 0) (by omega)
    exact hfree.congr rfl rfl rfl rfl fun f hf => ⟨rfl, fun _ => rfl⟩

theorem PutSpec.handlesCounted {h : Int} (hy : HandlesCounted y) (hput : PutSpec y h y') :
    HandlesCounted y' := by
  cases hput with
  | same => exact hy
  | @pinned k hk hh huse =>
    have hused : 0 < (y.handle k).useCount := by omega
    refine hy.set rfl hk rfl (fun _ => hy.valid k hk hused) fun f hf => ?_
    rw [handleRef_of_used hused]
    have hstays : 0 < (y.handle k).useCount - 1 := by omega
    simp only [hstays, true_and, Option.some.injEq]
    exact Int.le_refl _
  | @shared k f hk hh huse hf hfd hmore =>
    have hused : 0 < (y.handle k).useCount := by omega
    refine hy.set rfl hk rfl (fun hpos => absurd hpos (by decide)) fun g hg => ?_
    rw [handleRef_of_used hused, hfd]
    by_cases hgf : g = f
    · subst hgf
      simp [setHandle, setFd]
    · simp [setHandle, setFd, hgf, Ne.symm hgf]
  | @last k f i obj hk hh huse hf hfd hlast hid hobj =>
    have hused : 0 < (y.handle k).useCount := by omega
    refine hy.set rfl hk rfl (fun hpos => absurd hpos (by decide)) fun g hg => ?_
    rw [handleRef_of_used hused, hfd]
    by_cases hgf : g = f
    · subst hgf
      simp [setHandle, YaffsTables.freed, setFd, hlast]
    · simp [setHandle, YaffsTables.freed, setFd, hgf, Ne.symm hgf]

/-! ## Opening a file -/

theorem putHandle_reserved (hh : h < y.nHandles) (hf : f < y.nHandles) :
    (y.reserved h f).putHandle h = some (y.dropped h f) := by
  have hrange : (h : Int) ≥ 0 ∧ (h : Int) ≤ ((y.reserved h f).nHandles : Int) :=
    ⟨Int.natCast_nonneg h, Int.ofNat_le.mpr (Nat.le_of_lt hh)⟩
  have hpointer : (y.reserved h f).handleToPointer h = some ⟨f, 1⟩ := by
    rw [YaffsFiles.handleToPointer, if_pos hrange]
    simp [reserved]
  simp only [putHandle, hpointer]
  simp [reserved, dropped, putFileDes, setHandle, setFd, hf]

/-- A free entry is enough for every object. -/
theorem getInodeIdForObject_spec (hfree : ∃ i < y.nHandles, y.inode i = none) (obj : Obj) :
    ∃ i, InodeSlot y obj i ∧ y.getInodeIdForObject obj =
      (some i, { y with inode := Function.update y.inode i (some (y.getEquivalentObj obj)) }.setCount
        i ((if y.inode i = none then 0 else y.count i) + 1)) := by
  simp only [getInodeIdForObject, findInodeIdForObject, y.getEquivalentObj_idem]
  cases hfind : (List.range y.nHandles).find? fun i => y.inode i = some (y.getEquivalentObj obj) with
  | some i =>
    obtain ⟨hobj, hmem, -⟩ := List.find?_range_eq_some.mp hfind
    refine ⟨i, .old (List.mem_range.mp hmem) (of_decide_eq_true hobj), ?_⟩
    simp
  | none =>
    have hnot : ∀ j < y.nHandles, y.inode j ≠ some (y.getEquivalentObj obj) := by
      intro j hj
      simpa using List.find?_range_eq_none.mp hfind j hj
    cases hempty : (List.range y.nHandles).find? fun i => y.inode i = none with
    | some i =>
      obtain ⟨hi, hmem, -⟩ := List.find?_range_eq_some.mp hempty
      refine ⟨i, .new (List.mem_range.mp hmem) (of_decide_eq_true hi) hnot, ?_⟩
      simp
    | none =>
      obtain ⟨i, hi, hfree⟩ := hfree
      have hused := List.find?_range_eq_none.mp hempty i hi
      simp [hfree] at hused

theorem attach_reserved {flags : OpenFlags} {m : FileDesMode}
    (hfree : ∃ i < y.nHandles, y.inode i = none) :
    ∃ i, InodeSlot y obj i ∧
      (y.reserved h f).attach f obj flags m = y.opened h f i obj flags m := by
  obtain ⟨i, hslot, hget⟩ := getInodeIdForObject_spec (y := y.reserved h f) hfree obj
  refine ⟨i, ?_, ?_⟩
  · cases hslot with
    | old hi hobj => exact .old hi hobj
    | new hi hfree hnot => exact .new hi hfree hnot
  · unfold attach
    rw [hget]
    cases htrunc : flags.trunc && m.writing with
    | true =>
      simp only [reserved, opened, setCount, call, htrunc, if_true, Function.update_idem,
        Function.update_self, Option.elim_some]
      rfl
    | false =>
      simp only [reserved, opened, setCount, htrunc, Bool.false_eq_true, if_false,
        Function.update_idem, Function.update_self, Option.elim_some]
      rfl

/-- The new descriptor has no inode yet, so it does not count for the sharing. -/
theorem objectToOpen_reserved {l : Lookup Obj} {flags : OpenFlags} {m : FileDesMode}
    (hfree : ¬ 0 < (y.fd f).handleCount) :
    (y.reserved h f).objectToOpen l flags m = y.objectToOpen l flags m := by
  have hsharers : ∀ obj, (y.reserved h f).sharers obj = y.sharers obj := by
    intro obj
    apply List.filter_congr
    intro g _
    by_cases hg : g = f
    · subst hg
      simp [reserved, hfree]
    · simp only [reserved, Function.update_of_ne hg]
  have hconflict : ∀ obj, (y.reserved h f).sharingConflict obj m = y.sharingConflict obj m := by
    intro obj
    unfold sharingConflict
    rw [hsharers, Bool.eq_iff_iff, List.any_eq_true, List.any_eq_true]
    refine exists_congr fun g => and_congr_right fun hg => ?_
    -- a sharer is in use
    have hgf : g ≠ f := by
      rintro rfl
      have hmem := (List.mem_filter.mp hg).2
      simp [hfree] at hmem
    simp only [reserved, Function.update_of_ne hgf]
  simp only [objectToOpen, openDenied, hconflict]

/-- **What an open does**. -/
inductive OpenSpec (y : YaffsTables Obj) (path : OpenPath Obj) (flags : OpenFlags)
    (m : FileDesMode) : Int × YaffsTables Obj → Prop where
  /-- The path is not valid. -/
  | invalid {e : YaffsErrno} (hpath : ∀ l, path ≠ .path l) :
      OpenSpec y path flags m (-1, y.setError e)
  /-- All handles are in use. -/
  | noHandle (hall : ∀ h < y.nHandles, 0 < (y.handle h).useCount) :
      OpenSpec y path flags m (-1, y.setError .ENFILE)
  /-- All descriptors are in use. -/
  | noFd {h : Nat} (hh : y.FirstFree h) (hall : ∀ f < y.nHandles, 0 < (y.fd f).handleCount) :
      OpenSpec y path flags m (-1, (y.setHandle h ⟨-1, 0⟩).setError .ENFILE)
  | denied {l : Lookup Obj} {h f : Nat} {e : YaffsErrno} (hpath : path = .path l)
      (hh : y.FirstFree h) (hf : f < y.nHandles) (hfree : ¬ 0 < (y.fd f).handleCount)
      (hdenied : y.objectToOpen l flags m = .error e) :
      OpenSpec y path flags m (-1, (y.dropped h f).setError e)
  | opened {l : Lookup Obj} {h f i : Nat} {obj : Obj} (hpath : path = .path l)
      (hh : y.FirstFree h) (hf : f < y.nHandles) (hfree : ¬ 0 < (y.fd f).handleCount)
      (hobj : y.objectToOpen l flags m = .ok obj) (hslot : InodeSlot y obj i) :
      OpenSpec y path flags m (h, y.opened h f i obj flags m)

theorem yaffsOpenSharing_spec (hy : FdsCounted y) (path : OpenPath Obj) (flags : OpenFlags)
    (shareRead shareWrite : Bool) : ∃ r, y.yaffsOpenSharing path flags shareRead shareWrite = some r ∧
      OpenSpec y path flags (requestedMode flags shareRead shareWrite) r := by
  unfold yaffsOpenSharing
  cases path with
  | null => exact ⟨_, rfl, .invalid (by simp)⟩
  | tooLong => exact ⟨_, rfl, .invalid (by simp)⟩
  | path l =>
    rcases y.newHandleAndFileDes_cases with ⟨hnew, hall⟩ | ⟨h, hh, ⟨hnew, hall⟩ | ⟨f, hf, hfree, hnew⟩⟩
    · simp only [hnew]
      exact ⟨_, rfl, .noHandle hall⟩
    · simp only [hnew]
      exact ⟨_, rfl, .noFd hh hall⟩
    · simp only [hnew]
      rw [objectToOpen_reserved hfree]
      cases hobj : y.objectToOpen l flags (requestedMode flags shareRead shareWrite) with
      | error e =>
        simp only [putHandle_reserved hh.lt hf, Option.bind_eq_bind, Option.bind_some]
        exact ⟨_, rfl, .denied rfl hh hf hfree hobj⟩
      | ok obj =>
        have hrange : (h : Int) ≥ 0 ∧ (h : Int) ≤ ((y.reserved h f).nHandles : Int) :=
          ⟨Int.natCast_nonneg h, Int.ofNat_le.mpr (Nat.le_of_lt hh.lt)⟩
        have hfd : (y.reserved h f).handleToFileDes h = some f := by
          simp only [YaffsFiles.handleToFileDes, YaffsFiles.handleToPointer, if_pos hrange]
          simp [reserved, hf]
        have hattach : ∃ i, InodeSlot y obj i ∧
            (y.reserved h f).attach f obj flags (requestedMode flags shareRead shareWrite) =
              y.opened h f i obj flags (requestedMode flags shareRead shareWrite) :=
          attach_reserved (hy.exists_inode hf hfree)
        obtain ⟨i, hslot, hattach⟩ := hattach
        simp only [hfd, Option.bind_eq_bind, Option.bind_some]
        refine ⟨_, rfl, ?_⟩
        rw [hattach]
        exact .opened rfl hh hf hfree hobj hslot

/-! ## Opens keep the counts -/

/-- **The counts behind an open**. -/
theorem FdsCounted.opened {flags : OpenFlags} {m : FileDesMode} (hy : FdsCounted y)
    (hf : f < y.nHandles) (hfree : ¬ 0 < (y.fd f).handleCount) (hslot : InodeSlot y obj i) :
    FdsCounted (y.opened h f i obj flags m) := by
  have hi := hslot.lt
  have hnone : y.fdRef f = none := if_neg hfree
  -- the descriptor `f` was free and now refers to the inode `i`
  have href : (y.opened h f i obj flags m).fdRef = Function.update y.fdRef f (some i) := by
    funext g
    by_cases hg : g = f
    · subst hg
      simp [fdRef, YaffsTables.opened]
    · simp only [fdRef, YaffsTables.opened, Function.update_of_ne hg]
  -- one more reference to the inode
  have hrefs : ∀ j, refs y.nHandles (y.opened h f i obj flags m).fdRef j =
      refs y.nHandles y.fdRef j + if i = j then 1 else 0 := by
    intro j
    rw [href]
    exact refs_fill hf hnone i
  -- the other slots of inodes are as they were
  have hinode : ∀ j, j ≠ i → (y.opened h f i obj flags m).inode j = y.inode j := fun j hj =>
    Function.update_of_ne hj _ _
  have hself : (y.opened h f i obj flags m).inode i = some (y.getEquivalentObj obj) :=
    Function.update_self ..
  exact {
    valid := by
      intro g hg hused
      by_cases hgf : g = f
      · subst hgf
        have hfd : ((y.opened h g i obj flags m).fd g).inodeId = i := by
          simp [YaffsTables.opened]
        rw [hfd]
        exact ⟨Int.natCast_nonneg i, Int.ofNat_lt.mpr hi⟩
      · simp only [YaffsTables.opened, Function.update_of_ne hgf] at hused ⊢
        exact hy.valid g hg hused
    count := by
      intro j hj
      show Function.update y.count i _ j = (refs y.nHandles _ j : Int)
      rw [hrefs]
      by_cases hji : j = i
      · subst hji
        rw [Function.update_self, if_pos rfl, hy.count j hj]
        split
        · -- a slot that was empty had no reference
          rename_i hempty
          have hzero : ¬ 0 < refs y.nHandles y.fdRef j := fun hpos => (hy.used j hj).mpr hpos hempty
          omega
        · omega
      · rw [Function.update_of_ne hji, if_neg (Ne.symm hji), hy.count j hj]
        rfl
    used := by
      intro j hj
      show (y.opened h f i obj flags m).inode j ≠ none ↔ 0 < refs y.nHandles _ j
      rw [hrefs]
      by_cases hji : j = i
      · subst hji
        rw [hself, if_pos rfl]
        simp
      · rw [hinode j hji, if_neg (Ne.symm hji), hy.used j hj]
        rfl
    distinct := by
      -- the object is in no other slot
      have hother : ∀ j < y.nHandles, j ≠ i → y.inode j ≠ some (y.getEquivalentObj obj) := by
        intro j hj hji hjo
        cases hslot with
        | old hi hobj => exact hji (hy.distinct j hj i hi _ hjo hobj)
        | new hi hfree hnot => exact hnot j hj hjo
      intro j hj k hk obj' hjo hko
      by_cases hji : j = i
      · subst hji
        by_cases hkj : k = j
        · exact hkj.symm
        · rw [hself] at hjo
          rw [hinode k hkj, ← hjo] at hko
          exact absurd hko (hother k hk hkj)
      · rw [hinode j hji] at hjo
        by_cases hki : k = i
        · subst hki
          rw [hself] at hko
          rw [← hko] at hjo
          exact absurd hjo (hother j hj hji)
        · rw [hinode k hki] at hko
          exact hy.distinct j hj k hk obj' hjo hko
    equivalent := by
      intro j hj obj' hjo
      by_cases hji : j = i
      · subst hji
        rw [hself] at hjo
        cases hjo
        exact y.getEquivalentObj_idem obj
      · rw [hinode j hji] at hjo
        exact hy.equivalent j hj obj' hjo }

theorem HandlesCounted.opened {flags : OpenFlags} {m : FileDesMode} (hy : HandlesCounted y)
    (hh : y.FirstFree h) (hf : f < y.nHandles) (hfree : ¬ 0 < (y.fd f).handleCount) :
    HandlesCounted (y.opened h f i obj flags m) := by
  have hnone : y.handleRef h = none := if_neg hh.free
  refine hy.set rfl hh.lt rfl
    (fun _ => ⟨Int.natCast_nonneg f, Int.ofNat_lt.mpr hf⟩) fun g hg => ?_
  rw [hnone]
  by_cases hgf : g = f
  · subst hgf
    simp [YaffsTables.opened]
    omega
  · simp [YaffsTables.opened, hgf, Ne.symm hgf]

theorem OpenSpec.counted {path : OpenPath Obj} {flags : OpenFlags} {m : FileDesMode}
    {r : Int × YaffsTables Obj} (hy : FdsCounted y) (hhy : HandlesCounted y)
    (hopen : OpenSpec y path flags m r) : FdsCounted r.2 ∧ HandlesCounted r.2 := by
  cases hopen with
  | invalid =>
    exact ⟨hy.congr rfl rfl rfl rfl fun f hf => ⟨rfl, fun _ => rfl⟩, hhy.valid, hhy.covered⟩
  | noHandle =>
    exact ⟨hy.congr rfl rfl rfl rfl fun f hf => ⟨rfl, fun _ => rfl⟩, hhy.valid, hhy.covered⟩
  | @noFd h hh hall =>
    refine ⟨hy.congr rfl rfl rfl rfl fun f hf => ⟨rfl, fun _ => rfl⟩, ?_⟩
    have hset : HandlesCounted (y.setHandle h ⟨-1, 0⟩) :=
      hhy.set rfl hh.lt rfl (fun hpos => absurd hpos (by decide)) fun g hg => by
        simp [setHandle, handleRef, hh.free]
    exact ⟨hset.valid, hset.covered⟩
  | @denied l h f e hpath hh hf hfree =>
    constructor
    · refine hy.congr rfl rfl rfl rfl fun g hg => ?_
      by_cases hgf : g = f
      · subst hgf
        simp [fdRef, dropped, setError, hfree]
      · simp [fdRef, dropped, setError, hgf]
    · have hset : HandlesCounted (y.dropped h f) :=
        hhy.set rfl hh.lt rfl (fun hpos => absurd hpos (by decide)) fun g hg => by
          by_cases hgf : g = f
          · subst hgf
            simp [dropped, handleRef, hh.free]
            omega
          · simp [dropped, handleRef, hh.free, hgf]
      exact ⟨hset.valid, hset.covered⟩
  | opened hpath hh hf hfree hobj hslot => exact ⟨hy.opened hf hfree hslot, hhy.opened hh hf hfree⟩

/-! ## Lookups, duplicates and closes -/

/-- **What `yaffs_dup` does**. -/
inductive DupSpec (y : YaffsTables Obj) (h : Int) : Int × YaffsTables Obj → Prop where
  | refused {e : YaffsErrno} : DupSpec y h (-1, y.setError e)
  | dup {k h' f : Nat} (hk : k < y.nHandles) (hh : h = k) (huse : 0 < (y.handle k).useCount)
      (hfd : (y.handle k).fdId = f) (hf : f < y.nHandles) (hh' : y.FirstFree h') :
      DupSpec y h (h', (y.setHandle h' ⟨f, 1⟩).setFd f ((y.fd f).handleCount + 1) (y.fd f).inodeId)

omit [DecidableEq Obj] in
theorem yaffsDup_spec {h : Int} (hne : h ≠ y.nHandles) : DupSpec y h (y.yaffsDup h) := by
  unfold yaffsDup
  cases hfd : y.handleToFileDes h with
  | none => exact .refused
  | some f =>
    obtain ⟨k, hk, rfl, huse, hfd, hf⟩ := handleToFileDes_cases hne hfd
    rcases y.newHandle_cases with ⟨hnone, -⟩ | ⟨h', hh', hnew⟩
    · simp only [hnone]
      exact .refused
    · simp only [hnew, Int.toNat_natCast, hfd, setHandle_setHandle]
      exact .dup hk rfl huse hfd hf hh'

omit [DecidableEq Obj] in
theorem DupSpec.counted {h : Int} {r : Int × YaffsTables Obj} (hy : FdsCounted y)
    (hhy : HandlesCounted y) (hdup : DupSpec y h r) : FdsCounted r.2 ∧ HandlesCounted r.2 := by
  cases hdup with
  | refused =>
    exact ⟨hy.congr rfl rfl rfl rfl fun f hf => ⟨rfl, fun _ => rfl⟩, hhy.valid, hhy.covered⟩
  | @dup k h' f hk hh huse hfd hf hh' =>
    obtain ⟨f', -, hfd', hused⟩ := hhy.fd hk huse
    obtain rfl : f = f' := Int.ofNat_inj.mp (hfd.symm.trans hfd')
    constructor
    · have hset : FdsCounted (y.setFd f ((y.fd f).handleCount + 1) (y.fd f).inodeId) :=
        hy.setCount hused (by omega)
      exact hset.congr rfl rfl rfl rfl fun g hg => ⟨rfl, fun _ => rfl⟩
    · refine hhy.set rfl hh'.lt rfl
        (fun _ => ⟨Int.natCast_nonneg f, Int.ofNat_lt.mpr hf⟩) fun g hg => ?_
      by_cases hgf : g = f
      · subst hgf
        simp [setHandle, setFd, handleRef, hh'.free]
      · simp [setHandle, setFd, handleRef, hh'.free, hgf, Ne.symm hgf]

/-- **What a close does**. -/
inductive CloseSpec (flush : Obj → GutsCall Obj) (y : YaffsTables Obj) (h : Int) :
    Int × YaffsTables Obj → Prop where
  | refused (hnone : y.handleToObject h = none) : CloseSpec flush y h (-1, y.setError .EBADF)
  | closed {obj : Obj} {y' : YaffsTables Obj} (hobj : y.handleToObject h = some obj)
      (hput : PutSpec (y.call (flush obj)) h y') : CloseSpec flush y h (0, y')

theorem closeBy_spec (flush : Obj → GutsCall Obj) {h : Int} (hy : FdsCounted y)
    (hhy : HandlesCounted y) (hne : h ≠ y.nHandles) :
    ∃ r, closeBy flush y h = some r ∧ CloseSpec flush y h r := by
  unfold closeBy
  cases hpointer : y.handleToPointer h with
  | none =>
    refine ⟨_, rfl, .refused ?_⟩
    simp [YaffsFiles.handleToObject, YaffsFiles.handleToFileDes, hpointer]
  | some p =>
    cases hobj : y.handleToObject h with
    | none => exact ⟨_, rfl, .refused hobj⟩
    | some obj =>
      have hcall : FdsCounted (y.call (flush obj)) :=
        hy.congr rfl rfl rfl rfl fun f hf => ⟨rfl, fun _ => rfl⟩
      obtain ⟨y', hput, hspec⟩ := putHandle_spec hcall ⟨hhy.valid, hhy.covered⟩ hne
      simp only [hput, Option.map_some]
      exact ⟨_, rfl, .closed hobj hspec⟩

theorem CloseSpec.counted {flush : Obj → GutsCall Obj} {h : Int} {r : Int × YaffsTables Obj}
    (hy : FdsCounted y) (hhy : HandlesCounted y) (hclose : CloseSpec flush y h r) :
    FdsCounted r.2 ∧ HandlesCounted r.2 := by
  cases hclose with
  | refused =>
    exact ⟨hy.congr rfl rfl rfl rfl fun f hf => ⟨rfl, fun _ => rfl⟩, hhy.valid, hhy.covered⟩
  | @closed obj y' hobj hput =>
    have hcall : FdsCounted (y.call (flush obj)) :=
      hy.congr rfl rfl rfl rfl fun f hf => ⟨rfl, fun _ => rfl⟩
    have hcall' : HandlesCounted (y.call (flush obj)) := ⟨hhy.valid, hhy.covered⟩
    exact ⟨hput.fdsCounted hcall, hput.handlesCounted hcall'⟩

omit [DecidableEq Obj] in
/-- A pinned handle. -/
theorem getHandle_counted {h : Int} (hy : FdsCounted y) (hhy : HandlesCounted y)
    (hne : h ≠ y.nHandles) : FdsCounted (y.getHandle h) ∧ HandlesCounted (y.getHandle h) := by
  unfold getHandle
  cases hpointer : y.handleToPointer h with
  | none => exact ⟨hy, hhy⟩
  | some p =>
    dsimp only
    split
    swap
    · exact ⟨hy, hhy⟩
    rename_i huse
    refine ⟨hy.congr rfl rfl rfl rfl fun f hf => ⟨rfl, fun _ => rfl⟩, ?_⟩
    simp only [YaffsFiles.handleToPointer] at hpointer
    split at hpointer
    swap
    · cases hpointer
    rename_i hrange
    cases hpointer
    have hk : h.toNat < y.nHandles := by omega
    refine hhy.set rfl hk rfl (fun _ => hhy.valid _ hk huse) fun f hf => ?_
    have hstays : 0 < (y.handle h.toNat).useCount + 1 := by omega
    rw [handleRef_of_used huse]
    simp only [hstays, true_and, Option.some.injEq]
    exact Int.le_refl _

end YaffsTables

end TxFS
