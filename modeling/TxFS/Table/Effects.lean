import Mathlib.Tactic.SplitIfs
import TxFS.Server.LockTable

/-!
# Effects of the List Functions, Cell by Cell

What `unlinkShared`, `deleteFileList`, `insertAfter`, `insertUnlocked` and `insertShared`
leave in each record. All later proofs about the lock table use these equations and never
unfold the functions.
-/

namespace TxFS

open LinkedPath

/-! ## The content of a record -/

/-- A record without its links on the lock list and on the list of its inode. -/
def FileLock.content (c : FileLock) : FileLock :=
  { c with prevSharedRec := none, nextSharedRec := none, next := none, prev := none }

theorem FileLock.content_fields {c d : FileLock} (h : c.content = d.content) :
    c.fileInode = d.fileInode ∧ c.fileMode = d.fileMode ∧ c.fd = d.fd ∧ c.flags = d.flags ∧
      c.parentTxn = d.parentTxn ∧ c.nextTxn = d.nextTxn ∧ c.writesAt = d.writesAt := by
  simp only [content, FileLock.mk.injEq] at h
  obtain ⟨h1, h2, h3, -, -, h6, h7, h8, -, -, -, -, h13⟩ := h
  exact ⟨h1, h2, h3, h6, h7, h8, h13⟩

theorem FileLock.content_inode {c d : FileLock} (h : c.content = d.content) :
    c.fileInode = d.fileInode := (content_fields h).1

theorem FileLock.content_mode {c d : FileLock} (h : c.content = d.content) :
    c.fileMode = d.fileMode := (content_fields h).2.1

namespace LockTable

variable {t t' : LockTable} {a b p : Addr}

/-! ## Small functions -/

theorem modify_cells_self {f : FileLock → FileLock} :
    (t.modify a f).cells a = f (t.cells a) := by
  simp [modify]

theorem modify_cells_of_ne {f : FileLock → FileLock} (h : b ≠ a) :
    (t.modify a f).cells b = t.cells b := by
  simp [modify, h]

/-- An assignment to links leaves every content. -/
theorem modify_content {f : FileLock → FileLock} (hf : ∀ c, (f c).content = c.content) :
    ((t.modify a f).cells b).content = (t.cells b).content := by
  by_cases hb : b = a
  · subst hb
    rw [modify_cells_self, hf]
  · rw [modify_cells_of_ne hb]

theorem alloc_cells_self {c : FileLock} : (t.alloc c).cells t.brk = c := by
  simp [alloc]

theorem alloc_cells_of_ne {c : FileLock} (h : b ≠ t.brk) :
    (t.alloc c).cells b = t.cells b := by
  simp [alloc, h]

theorem alloc_content_new {c d : FileLock} (h : d.content = c.content) :
    ((t.alloc d).cells t.brk).content = c.content := by
  rw [alloc_cells_self, h]

theorem freeFileNode_cells_of_ne (h : b ≠ a) : (t.freeFileNode a).cells b = t.cells b := by
  simp [freeFileNode, modify, h]

/-! ## Deletion -/

/-- `unlinkShared` makes the shared neighbours of `a` point past it. -/
theorem unlinkShared_cells : (t.unlinkShared a).cells b =
    { t.cells b with
      nextSharedRec := if (t.cells a).prevSharedRec = some b then (t.cells a).nextSharedRec
        else (t.cells b).nextSharedRec
      prevSharedRec := if (t.cells a).nextSharedRec = some b then (t.cells a).prevSharedRec
        else (t.cells b).prevSharedRec } := by
  cases hp : (t.cells a).prevSharedRec with
  | none =>
    cases hn : (t.cells a).nextSharedRec with
    | none => simp [unlinkShared, hp, hn]
    | some n =>
      by_cases hbn : b = n
      · simp [unlinkShared, hp, hn, modify, hbn]
      · simp [unlinkShared, hp, hn, modify, hbn, Ne.symm hbn]
  | some p =>
    cases hn : (t.cells a).nextSharedRec with
    | none =>
      by_cases hbp : b = p
      · simp [unlinkShared, hp, hn, modify, hbp]
      · simp [unlinkShared, hp, hn, modify, hbp, Ne.symm hbp]
    | some n =>
      by_cases hbn : b = n
      · by_cases hnp : n = p
        · simp [unlinkShared, hp, hn, modify, hbn, hnp]
        · simp [unlinkShared, hp, hn, modify, hbn, hnp, Ne.symm hnp]
      · by_cases hbp : b = p
        · subst hbp
          simp [unlinkShared, hp, hn, modify, hbn, Ne.symm hbn]
        · simp [unlinkShared, hp, hn, modify, hbn, Ne.symm hbn, hbp, Ne.symm hbp]

/-- The rest of the table is not touched by `unlinkShared`. -/
theorem unlinkShared_rest :
    (t.unlinkShared a).allocated = t.allocated ∧ (t.unlinkShared a).brk = t.brk ∧
      (t.unlinkShared a).headLockList = t.headLockList := by
  cases hp : (t.cells a).prevSharedRec <;> cases hn : (t.cells a).nextSharedRec <;>
    simp [unlinkShared, hp, hn, modify]

/-- A record without shared links has nothing to unlink. -/
theorem unlinkShared_of_alone (hn : (t.cells a).nextSharedRec = none)
    (hp : (t.cells a).prevSharedRec = none) : t.unlinkShared a = t := by
  simp [unlinkShared, hn, hp]

/-- `deleteFileList` makes the neighbours of `a` on the lock list point past it. -/
theorem deleteFileList_cells (h : t.deleteFileList a = some t') (hb : b ≠ a) : t'.cells b =
    { t.cells b with
      next := if t.headLockList ≠ some a ∧ (t.cells a).prev = some b then (t.cells a).next
        else (t.cells b).next
      prev := if (t.cells a).next = some b then
          (if t.headLockList = some a then (t.cells a).next else (t.cells a).prev)
        else (t.cells b).prev } := by
  unfold deleteFileList at h
  by_cases hhead : t.headLockList = some a
  · simp only [hhead, if_true, Option.some.injEq] at h
    subst h
    rw [freeFileNode_cells_of_ne hb]
    cases hn : (t.cells a).next with
    | none => simp [hhead]
    | some n =>
      by_cases hbn : b = n
      · subst hbn
        simp [modify, hhead]
      · simp [modify, hhead, hbn, Ne.symm hbn]
  · simp only [hhead, if_false] at h
    cases hp : (t.cells a).prev with
    | none => simp [hp] at h
    | some p =>
      cases hn : (t.cells a).next with
      | none =>
        simp only [hp, hn, Option.some.injEq] at h
        subst h
        rw [freeFileNode_cells_of_ne hb]
        by_cases hbp : b = p
        · subst hbp
          simp [modify, hhead]
        · simp [modify, hhead, hbp, Ne.symm hbp]
      | some n =>
        simp only [hp, hn, Option.some.injEq] at h
        subst h
        rw [freeFileNode_cells_of_ne hb]
        by_cases hbn : b = n
        · by_cases hnp : n = p
          · simp [modify, hhead, hbn, hnp]
          · simp [modify, hhead, hbn, hnp, Ne.symm hnp]
        · by_cases hbp : b = p
          · subst hbp
            simp [modify, hhead, hbn, Ne.symm hbn]
          · simp [modify, hhead, hbn, Ne.symm hbn, hbp, Ne.symm hbp]

/-- The rest of the table after a deletion. -/
theorem deleteFileList_rest (h : t.deleteFileList a = some t') :
    t'.allocated = t.allocated.erase a ∧ t'.brk = t.brk ∧
      t'.headLockList = if t.headLockList = some a then (t.cells a).next else t.headLockList := by
  unfold deleteFileList at h
  by_cases hhead : t.headLockList = some a
  · simp only [hhead, if_true, Option.some.injEq] at h
    subst h
    cases hn : (t.cells a).next <;> simp [freeFileNode, modify, hhead]
  · simp only [hhead, if_false] at h
    cases hp : (t.cells a).prev with
    | none => simp [hp] at h
    | some p =>
      cases hn : (t.cells a).next <;>
        · simp only [hp, hn, Option.some.injEq] at h
          subst h
          simp [freeFileNode, modify, hhead]

/-- Deleting fails only on a record without `prev`. -/
theorem deleteFileList_isSome (hp : (t.cells a).prev ≠ none) :
    ∃ t', t.deleteFileList a = some t' := by
  by_cases hhead : t.headLockList = some a
  · simp [deleteFileList, hhead]
  · obtain ⟨p, hp⟩ := Option.ne_none_iff_exists'.mp hp
    cases hn : (t.cells a).next <;> simp [deleteFileList, hhead, hp, hn]

/-! ## Insertion -/

variable {c : FileLock}

theorem insertAfter_cells (hb : b ≠ t.brk) : (t.insertAfter p c).cells b =
    { t.cells b with
      next := if b = p then some t.brk else (t.cells b).next
      prev := if (t.cells p).next = some b then some t.brk else (t.cells b).prev } := by
  unfold insertAfter
  cases hn : (t.cells p).next with
  | none =>
    by_cases hbp : b = p
    · subst hbp
      simp [modify, alloc, hb]
    · simp [modify, alloc, hb, hbp]
  | some n =>
    by_cases hbn : b = n
    · by_cases hnp : n = p
      · subst hbn hnp
        simp [modify, alloc, hb]
      · subst hbn
        simp [modify, alloc, hb, hnp]
    · by_cases hbp : b = p
      · subst hbp
        simp [modify, alloc, hb, hbn, Ne.symm hbn]
      · simp [modify, alloc, hb, hbn, Ne.symm hbn, hbp]

theorem insertAfter_cells_new (hp : p ≠ t.brk) (hn : (t.cells p).next ≠ some t.brk) :
    (t.insertAfter p c).cells t.brk = { c with next := (t.cells p).next, prev := some p } := by
  unfold insertAfter
  cases hn' : (t.cells p).next with
  | none => simp [modify, alloc, Ne.symm hp]
  | some n =>
    have hne : t.brk ≠ n := fun h => hn (by rw [hn', h])
    simp [modify, alloc, Ne.symm hp, hne]

theorem insertAfter_content_new : ((t.insertAfter p c).cells t.brk).content = c.content := by
  unfold insertAfter
  cases (t.cells p).next with
  | none =>
    refine (modify_content (by intro _; rfl)).trans ?_
    exact alloc_content_new rfl
  | some n =>
    refine (modify_content (by intro _; rfl)).trans ((modify_content (by intro _; rfl)).trans ?_)
    exact alloc_content_new rfl

theorem insertAfter_rest :
    (t.insertAfter p c).allocated = t.brk :: t.allocated ∧
      (t.insertAfter p c).brk = t.brk + 1 ∧
      (t.insertAfter p c).headLockList = t.headLockList := by
  unfold insertAfter
  cases (t.cells p).next <;> simp [modify, alloc]

end LockTable

end TxFS
