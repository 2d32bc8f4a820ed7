import TxFS.Backup.Check
import TxFS.Locks.LockList

/-!
# The Pause Array

`pause_array` has 100 entries, and `index_pause_array` starts at 0 and is only incremented: a
transaction that pauses and has no entry takes the next one, and an entry that is nullified is
not used again. The search for an entry that is not there ends behind the last one in use and
looks at it once more.

`step_pauses` says when a step calls `mutually_serializable` and that nothing else touches the
array; `PauseEntries` is the invariant of the array in runs in which it is not exceeded.
-/

namespace TxFS

open GuardedRun LinkedPath

namespace Server

variable {s s' s₁ : Server} {t readBit r : Int} {req : LockRequest} {out : Outcome}
  {loc : Option Addr} {e : Event} {i j : Nat}

/-! ## Calls of the check -/

/-- `insert_file_list` gets to one of its three calls of `mutually_serializable`. -/
def callsCheck (s : Server) (t : Int) (req : LockRequest) : Bool :=
  decide (t ≠ 0) &&
    match s.table.searchFileList req.inode with
    | some (false, _) => decide (s.backup ≠ .inactive)
    | some (true, some loc) =>
      decide ((s.cell loc).parentTxn ≠ t ∧ (s.cell loc).fileMode ≠ 1 ∧ req.flags = 0) &&
        match s.searchWaitList req.inode with
        | none => true
        | some _ => (findFrom (fun b => (s.cell b).nextSharedRec)
            (fun b => (s.cell b).parentTxn = 0) (s.table.brk + 1) (some loc)).any Option.isSome
    | _ => false

/-- What becomes of the pause array where the check is called. -/
def CheckedPauses (s : Server) (t readBit : Int) (s' : Server) : Prop :=
  ∃ s₁ r, s.mutuallySerializable t readBit = some (s₁, r) ∧ SamePauses s₁ s'

theorem grantShared_pauses {fInode fFlags : Int} {l : Addr}
    (h : s.grantShared fInode fFlags t readBit l = some (s', out)) :
    (t ≠ 0 → CheckedPauses s t readBit s') ∧ (t = 0 → SamePauses s s') := by
  simp only [grantShared, Option.bind_eq_bind, Option.bind_eq_some_iff] at h
  obtain ⟨⟨s₁, r⟩, hcheck, h⟩ := h
  -- behind the check the array stays
  have hrest : SamePauses s₁ s' := by
    split at h
    · simp only [Option.bind_eq_some_iff, Option.some.injEq, Prod.mk.injEq] at h
      obtain ⟨_, -, _, hinsert, rfl, -⟩ := h
      exact grant_samePauses hinsert
    · split at h <;> cases h <;> exact .refl _
  unfold checkShared at hcheck
  constructor
  · intro ht
    rw [if_pos ht] at hcheck
    exact ⟨s₁, r, hcheck, hrest⟩
  · intro ht
    rw [if_neg (not_not.mpr ht)] at hcheck
    cases hcheck
    exact hrest

/-- **When `insert_file_list` calls the check**: nothing else changes the pause array. -/
theorem insertFileList_pauses {found : Bool}
    (hsearch : s.table.searchFileList req.inode = some (found, loc))
    (h : s.insertFileList req.inode req.flags t readBit found loc = some (s', out)) :
    (s.callsCheck t req = true → CheckedPauses s t readBit s') ∧
      (s.callsCheck t req = false → SamePauses s s') := by
  simp only [insertFileList, Option.bind_eq_bind, Option.bind_eq_some_iff] at h
  obtain ⟨_, -, h⟩ := h
  cases found with
  | false =>
    simp only [if_true, Option.bind_eq_some_iff] at h
    obtain ⟨⟨s₁, r⟩, hcheck, h⟩ := h
    -- behind the check the pauses stay
    have hrest : SamePauses s₁ s' := by
      split at h
      · simp only [Option.bind_eq_some_iff, Option.some.injEq, Prod.mk.injEq] at h
        obtain ⟨_, hinsert, rfl, -⟩ := h
        exact grant_samePauses hinsert
      · split at h <;> cases h <;> exact .refl _
    have hcalls : s.callsCheck t req = (decide (t ≠ 0) && decide (s.backup ≠ .inactive)) := by
      simp only [callsCheck, hsearch]
    rw [hcalls]
    unfold checkUnlocked at hcheck
    split at hcheck
    · rename_i ht
      split at hcheck
      · rename_i hb
        cases hcheck
        simp [hb, hrest]
      · rename_i hb
        simp only [ht, hb, ne_eq, not_false_eq_true, decide_true, Bool.and_self, forall_const,
          Bool.true_eq_false, false_implies, and_true]
        exact ⟨s₁, r, hcheck, hrest⟩
    · rename_i ht
      cases hcheck
      -- the backup is not checked
      simp [not_not.mp ht, hrest]
  | true =>
    simp only [Bool.true_eq_false, if_false, Option.bind_eq_some_iff] at h
    obtain ⟨l, rfl, h⟩ := h
    by_cases hshort : (s.cell l).parentTxn ≠ t ∧ (s.cell l).fileMode ≠ 1 ∧ req.flags = 0
    · obtain ⟨hown, hmode, hflags⟩ := hshort
      rw [if_neg hown, if_neg hmode] at h
      have hcalls : s.callsCheck t req = (decide (t ≠ 0) &&
          match s.searchWaitList req.inode with
          | none => true
          | some _ => (findFrom (fun b => (s.cell b).nextSharedRec)
              (fun b => (s.cell b).parentTxn = 0) (s.table.brk + 1) (some l)).any Option.isSome) := by
        simp only [callsCheck, hsearch, hown, hmode, hflags, ne_eq, not_false_eq_true, and_self,
          decide_true, Bool.true_and]
      -- a grant in shared mode is checked for every user
      have hgrant : s.grantShared req.inode req.flags t readBit l = some (s', out) →
          (decide (t ≠ 0) = true → CheckedPauses s t readBit s') ∧
            (decide (t ≠ 0) = false → SamePauses s s') := by
        intro hgrant
        obtain ⟨huser, hbackup⟩ := grantShared_pauses hgrant
        exact ⟨fun ht => huser (of_decide_eq_true ht),
          fun ht => hbackup (not_not.mp (of_decide_eq_false ht))⟩
      rw [hcalls]
      cases hwait : s.searchWaitList req.inode with
      | none =>
        simp only [hwait, if_pos hflags] at h
        simp only [Bool.and_true]
        exact hgrant h
      | some w =>
        simp only [hwait, Option.bind_eq_some_iff] at h
        obtain ⟨filePtr, hfind, h⟩ := h
        rw [hfind]
        cases filePtr with
        | none =>
          -- no record of the backup: the request waits
          simp only [ne_eq, not_true_eq_false, false_and, if_false] at h
          cases h
          simp only [Option.any_some, Option.isSome_none, Bool.and_false, Bool.false_eq_true,
            false_implies, true_and, forall_const]
          exact ⟨rfl, rfl⟩
        | some a =>
          simp only [ne_eq, reduceCtorEq, not_false_eq_true, hflags, and_self, if_true] at h
          simp only [Option.any_some, Option.isSome_some, Bool.and_true]
          rw [← hflags] at h
          exact hgrant h
    · -- the branches that end in front of the check
      have hcalls : s.callsCheck t req = false := by
        simp only [callsCheck, hsearch, decide_eq_false hshort, Bool.false_and, Bool.and_false]
      rw [hcalls]
      simp only [Bool.false_eq_true, false_implies, true_and, forall_const]
      split at h
      · cases h
        exact .refl _
      · rename_i hown
        split at h
        · split at h <;> cases h <;> exact ⟨rfl, rfl⟩
        · rename_i hmode
          have hflags : req.flags ≠ 0 := fun hflags => hshort ⟨hown, hmode, hflags⟩
          split at h
          · rw [if_neg hflags] at h
            cases h
            exact ⟨rfl, rfl⟩
          · simp only [Option.bind_eq_some_iff, hflags, and_false, if_false] at h
            obtain ⟨_, -, h⟩ := h
            cases h
            exact ⟨rfl, rfl⟩

/-- **The pause array in a step**: it changes only where the check is called. -/
theorem step_pauses (hs : Owned s.table s.headTxnList) (h : s.step e = some s') :
    SamePauses s s' ∨ ∃ t req readBit, s.requestOf e = some (t, req, readBit) ∧
      s.callsCheck t req = true ∧ CheckedPauses s t readBit s' := by
  rcases hreq : s.requestOf e with _ | ⟨t, req, readBit⟩
  · exact .inl (step_samePauses hs hreq h)
  · have hlock : ∀ {first}, s.requestLock t req first readBit = some s' →
        SamePauses s s' ∨ ∃ t' req' readBit', some (t, req, readBit) = some (t', req', readBit') ∧
          s.callsCheck t' req' = true ∧ CheckedPauses s t' readBit' s' := by
      intro first hlock
      simp only [requestLock, Option.bind_eq_bind, Option.bind_eq_some_iff] at hlock
      obtain ⟨⟨found, loc⟩, hsearch, ⟨s₁, out⟩, hinsert, hlock⟩ := hlock
      have hrest : SamePauses s₁ s' := by
        have hafter : ∀ loc a, SamePauses s₁ (s₁.afterLock t req.use loc a) := by
          intro loc a
          obtain ⟨table, handles, st, heq, -⟩ := s₁.afterLock_spec t req.use loc a
          rw [heq]
          exact ⟨rfl, rfl⟩
        cases out <;> cases hlock <;> first | exact hafter _ _ | exact ⟨rfl, rfl⟩
      obtain ⟨hchecked, hsame⟩ := insertFileList_pauses hsearch hinsert
      rcases hcalls : s.callsCheck t req with _ | _
      · exact .inl ((hsame hcalls).trans hrest)
      · obtain ⟨s₂, r, hcheck, hpauses⟩ := hchecked hcalls
        exact .inr ⟨t, req, readBit, rfl, hcalls, s₂, r, hcheck, hpauses.trans hrest⟩
    cases step_spec h with
    | lock hthread hreqLock =>
      cases hreq
      exact hlock hreqLock
    | resume hthread hreqLock =>
      simp only [requestOf, hthread, Option.some.injEq, Prod.mk.injEq] at hreq
      obtain ⟨rfl, rfl, rfl⟩ := hreq
      exact hlock hreqLock
    | _ => cases hreq

/-! ## Accesses -/

/-- Where the search of a pause ends: at the first entry of the transaction, or behind the last
    entry in use. -/
def pauseIndex (s : Server) (t : Int) : Nat :=
  ((List.range (s.indexPauseArray + 1)).find? fun i =>
    (s.pauseArray i).txnid = t).getD (s.indexPauseArray + 1)

/-- The indices at which `mutually_serializable` accesses `pause_array`. -/
def checkAccesses (s : Server) (t readBit : Int) : List Nat :=
  match searchTxn t s.headTxnList with
  | none => []
  | some n =>
    if n.fileRecNo = none then []
    -- the loop that nullifies the entries of the transaction
    else if readBit = n.beforeAfter then List.range (s.indexPauseArray + 1)
    -- the search, and the entry it ends at, which is new where there was none
    else if readBit = 0 ∧ n.beforeAfter = 1 then List.range (s.pauseIndex t + 1)
    else []

/-- The accesses in an event. -/
def pauseAccesses (s : Server) (e : Event) : List Nat :=
  match s.requestOf e with
  | some (t, req, readBit) => if s.callsCheck t req then s.checkAccesses t readBit else []
  | none => []

/-- The check pauses a transaction that has no entry. -/
def FreshPause (s : Server) (t readBit : Int) : Prop :=
  (∃ n ∈ searchTxn t s.headTxnList, n.fileRecNo ≠ none ∧ readBit = 0 ∧ n.beforeAfter = 1) ∧
    ∀ i ≤ s.indexPauseArray, (s.pauseArray i).txnid ≠ t

instance (s : Server) (t readBit : Int) : Decidable (s.FreshPause t readBit) :=
  inferInstanceAs (Decidable ((∃ n ∈ searchTxn t s.headTxnList, _) ∧ _))

/-- A transaction without an entry pauses only while less than 99 entries are in use. -/
def PauseFits (s : Server) (e : Event) : Prop :=
  ∀ q ∈ s.requestOf e, s.callsCheck q.1 q.2.1 = true → s.FreshPause q.1 q.2.2 →
    s.indexPauseArray < 99

instance (s : Server) (e : Event) : Decidable (s.PauseFits e) :=
  inferInstanceAs (Decidable (∀ q ∈ s.requestOf e, _))

theorem pauseIndex_cases :
    (s.pauseIndex t ≤ s.indexPauseArray ∧ (s.pauseArray (s.pauseIndex t)).txnid = t) ∨
      ((∀ i ≤ s.indexPauseArray, (s.pauseArray i).txnid ≠ t) ∧
        s.pauseIndex t = s.indexPauseArray + 1) := by
  unfold pauseIndex
  rcases hfind : (List.range (s.indexPauseArray + 1)).find? (fun i => (s.pauseArray i).txnid = t)
    with _ | i
  · right
    refine ⟨fun i hi hit => ?_, rfl⟩
    have hnot := List.find?_eq_none.mp hfind i (List.mem_range.mpr (Nat.lt_succ_of_le hi))
    exact hnot (decide_eq_true hit)
  · left
    have hmem := List.mem_range.mp (List.mem_of_find?_eq_some hfind)
    have hid := List.find?_some hfind
    exact ⟨Nat.le_of_lt_succ hmem, of_decide_eq_true hid⟩

/-- A fresh pause looks at the entry behind those in use. -/
theorem FreshPause.accesses (h : s.FreshPause t readBit) :
    s.checkAccesses t readBit = List.range (s.indexPauseArray + 2) := by
  obtain ⟨⟨n, hn, hfiles, hread, hbit⟩, hnone⟩ := h
  have hlast : s.pauseIndex t = s.indexPauseArray + 1 := by
    rcases s.pauseIndex_cases (t := t) with ⟨hle, hfound⟩ | ⟨-, hlast⟩
    · exact absurd hfound (hnone _ hle)
    · exact hlast
  rw [Option.mem_def] at hn
  simp [checkAccesses, hn, hfiles, hread, hbit, hlast]

/-- Any other check looks at the entries in use only. -/
theorem checkAccesses_le (h : ¬ s.FreshPause t readBit) :
    ∀ i ∈ s.checkAccesses t readBit, i ≤ s.indexPauseArray := by
  intro i hi
  unfold checkAccesses at hi
  split at hi
  · cases hi
  · rename_i n hn
    split at hi
    · cases hi
    · rename_i hfiles
      split at hi
      · exact Nat.le_of_lt_succ (List.mem_range.mp hi)
      · split at hi
        · rename_i hpause
          have hle : i ≤ s.pauseIndex t := Nat.le_of_lt_succ (List.mem_range.mp hi)
          rcases s.pauseIndex_cases (t := t) with ⟨hused, -⟩ | ⟨hnone, -⟩
          · exact Nat.le_trans hle hused
          · -- no entry of the transaction: that is a fresh pause
            exact absurd ⟨⟨n, hn, hfiles, hpause⟩, hnone⟩ h
        · cases hi

/-- What the check does where it pauses the transaction. -/
theorem pause_txnids (ht : t ≠ 0) (hunused : ∀ i, s.indexPauseArray < i → (s.pauseArray i).txnid = 0) :
    ((∃ i ≤ s.indexPauseArray, (s.pauseArray i).txnid = t) ∧
      (s.pause t).1.indexPauseArray = s.indexPauseArray ∧
      ∀ j, ((s.pause t).1.pauseArray j).txnid = (s.pauseArray j).txnid) ∨
    ((∀ i ≤ s.indexPauseArray, (s.pauseArray i).txnid ≠ t) ∧ (s.pause t).2 = 0 ∧
      (s.pause t).1.indexPauseArray = s.indexPauseArray + 1 ∧
      (s.pause t).1.pauseArray =
        Function.update s.pauseArray (s.indexPauseArray + 1) ⟨t, 1⟩) := by
  have hindex : ((List.range (s.indexPauseArray + 1)).find? fun i =>
      (s.pauseArray i).txnid = t).getD (s.indexPauseArray + 1) = s.pauseIndex t := rfl
  simp only [pause, hindex]
  rcases s.pauseIndex_cases (t := t) with ⟨hle, hfound⟩ | ⟨hnone, hlast⟩
  · left
    refine ⟨⟨_, hle, hfound⟩, ?_⟩
    rw [if_pos hfound]
    split
    · exact ⟨rfl, fun _ => rfl⟩
    · -- the entry counts one more
      refine ⟨rfl, fun j => ?_⟩
      by_cases hj : j = s.pauseIndex t
      · simp only [modifyTxn, hj, Function.update_self, hfound]
      · simp only [modifyTxn, Function.update_of_ne hj]
  · right
    have hnot : (s.pauseArray (s.pauseIndex t)).txnid ≠ t := by
      rw [hlast, hunused _ (Nat.lt_succ_self _)]
      exact ht.symm
    rw [if_neg hnot]
    exact ⟨hnone, rfl, rfl, rfl⟩

/-! ## The invariant -/

/-- The entries in use are in the array, and no two of them carry one id; -1 is the mark of an
    entry that was nullified. -/
structure PauseEntries (s : Server) : Prop where
  bound : s.indexPauseArray < 100
  unused : ∀ i, s.indexPauseArray < i → (s.pauseArray i).txnid = 0
  unique : ∀ i ≤ s.indexPauseArray, ∀ j ≤ s.indexPauseArray,
    (s.pauseArray i).txnid = (s.pauseArray j).txnid → (s.pauseArray i).txnid ≠ -1 → i = j

theorem pauseEntries_globalInit {handles : Nat} : PauseEntries (globalInit handles) where
  bound := (by decide : 0 < 100)
  unused _ _ := rfl
  unique i hi j hj _ _ := (Nat.le_zero.mp hi).trans (Nat.le_zero.mp hj).symm

theorem PauseEntries.congr (h : PauseEntries s)
    (hindex : s'.indexPauseArray = s.indexPauseArray)
    (hids : ∀ j, (s'.pauseArray j).txnid = (s.pauseArray j).txnid) : PauseEntries s' := by
  constructor
  case bound =>
    rw [hindex]
    exact h.bound
  case unused =>
    intro i hi
    rw [hids]
    exact h.unused i (hindex ▸ hi)
  case unique =>
    intro i hi j hj hij hi'
    rw [hids] at hij hi'
    rw [hids] at hij
    exact h.unique i (hindex ▸ hi) j (hindex ▸ hj) hij hi'

theorem PauseEntries.nullify (h : PauseEntries s) : PauseEntries (s.nullifyPause t) := by
  have hid : ∀ i, ((s.nullifyPause t).pauseArray i).txnid = -1 ∨
      ((s.nullifyPause t).pauseArray i).txnid = (s.pauseArray i).txnid := by
    intro i
    simp only [nullifyPause]
    split
    · exact .inl rfl
    · exact .inr rfl
  constructor
  case bound => exact h.bound
  case unused =>
    intro i hi
    have hnot : ¬ (i ≤ s.indexPauseArray ∧ (s.pauseArray i).txnid = t) := fun hle =>
      Nat.not_le_of_lt hi hle.1
    simp only [nullifyPause, if_neg hnot]
    exact h.unused i hi
  case unique =>
    intro i hi j hj hij hi'
    -- an entry that is not -1 behind the loop is as it was in front of it
    have hiold := (hid i).resolve_left hi'
    have hjold := (hid j).resolve_left (hij ▸ hi')
    rw [hiold] at hi'
    rw [hiold, hjold] at hij
    exact h.unique i hi j hj hij hi'

theorem PauseEntries.pause (h : PauseEntries s) (ht : t ≠ 0)
    (hfits : (∀ i ≤ s.indexPauseArray, (s.pauseArray i).txnid ≠ t) → s.indexPauseArray < 99) :
    PauseEntries (s.pause t).1 := by
  rcases pause_txnids ht h.unused with ⟨-, hindex, hids⟩ | ⟨hnone, -, hindex, harray⟩
  · exact h.congr hindex hids
  · have hlast : ((s.pause t).1.pauseArray (s.indexPauseArray + 1)).txnid = t := by
      rw [harray, Function.update_self]
    have hother : ∀ i, i ≠ s.indexPauseArray + 1 →
        (s.pause t).1.pauseArray i = s.pauseArray i := by
      intro i hi
      rw [harray, Function.update_of_ne hi]
    constructor
    case bound =>
      rw [hindex]
      exact Nat.succ_lt_succ (hfits hnone)
    case unused =>
      intro i hi
      rw [hindex] at hi
      rw [hother i (Nat.ne_of_gt hi)]
      exact h.unused i (Nat.lt_of_succ_lt hi)
    case unique =>
      intro i hi j hj hij hi'
      rw [hindex] at hi hj
      -- no old entry carries the id of the new one
      rcases Nat.le_succ_iff.mp hi with hi | rfl <;> rcases Nat.le_succ_iff.mp hj with hj | rfl
      · rw [hother i (by omega)] at hij hi'
        rw [hother j (by omega)] at hij
        exact h.unique i hi j hj hij hi'
      · rw [hother i (by omega), hlast] at hij
        exact absurd hij (hnone i hi)
      · rw [hother j (by omega), hlast] at hij
        exact absurd hij.symm (hnone j hj)
      · rfl

/-- **A step keeps the entries in the array**, if a fresh pause finds room. -/
theorem PauseEntries.step (h : PauseEntries s) (hs : Owned s.table s.headTxnList)
    (hfits : s.PauseFits e) (hstep : s.step e = some s') : PauseEntries s' := by
  rcases step_pauses hs hstep with ⟨harray, hindex⟩ | ⟨t, req, readBit, hreq, hcalls, hchecked⟩
  · exact h.congr hindex fun j => by rw [harray]
  · obtain ⟨s₁, r, hcheck, harray, hindex⟩ := hchecked
    have ht : t ≠ 0 := by
      rw [callsCheck, Bool.and_eq_true] at hcalls
      exact of_decide_eq_true hcalls.1
    have hs₁ : PauseEntries s₁ := by
      obtain ⟨n, hn, hspec⟩ := mutuallySerializable_spec hcheck
      cases hspec with
      | first => exact h
      | same => exact h.nullify
      | pause hfiles hbit hfirst =>
        exact h.pause ht fun hnone =>
          hfits (t, req, readBit) hreq hcalls ⟨⟨n, hn, hfiles, hbit, hfirst⟩, hnone⟩
      | conflict => exact h
    exact hs₁.congr hindex fun j => by rw [harray]

/-- The accesses of the check are in the array if and only if a fresh pause finds room. -/
theorem PauseEntries.accesses_iff (h : PauseEntries s) :
    (∀ i ∈ s.pauseAccesses e, i < 100) ↔ s.PauseFits e := by
  have hcheck : ∀ t readBit, (∀ i ∈ s.checkAccesses t readBit, i < 100) ↔
      (s.FreshPause t readBit → s.indexPauseArray < 99) := by
    intro t readBit
    by_cases hfresh : s.FreshPause t readBit
    · rw [hfresh.accesses]
      constructor
      · intro hall _
        have hlast := hall (s.indexPauseArray + 1) (List.mem_range.mpr (Nat.lt_succ_self _))
        omega
      · intro hfits i hi
        have hlt := List.mem_range.mp hi
        have hroom := hfits hfresh
        omega
    · refine iff_of_true (fun i hi => ?_) fun hfresh' => absurd hfresh' hfresh
      exact Nat.lt_of_le_of_lt (checkAccesses_le hfresh i hi) h.bound
  unfold pauseAccesses PauseFits
  rcases hreq : s.requestOf e with _ | ⟨t, req, readBit⟩
  · simp
  · simp only [Option.mem_some_iff, forall_eq']
    rcases hcalls : s.callsCheck t req with _ | _
    · simp
    · simp only [if_true, forall_const]
      exact hcheck t readBit

/-- **The pause array stays in bounds** in a run in which a transaction without an entry pauses
    only while less than 99 entries are in use: at most one entry carries the id of a given
    transaction, and the next event accesses the array within its bounds if and only if it
    meets the condition, too. -/
theorem pauseArray_in_bounds {handles : Nat}
    (hs : ReachableUnder (globalInit handles) step PauseFits s) :
    (∀ t ≠ -1, ∀ i ≤ s.indexPauseArray, ∀ j ≤ s.indexPauseArray,
      (s.pauseArray i).txnid = t → (s.pauseArray j).txnid = t → i = j) ∧
    (∀ i, s.indexPauseArray < i → (s.pauseArray i).txnid = 0) ∧
    ∀ e, (∀ i ∈ s.pauseAccesses e, i < 100) ↔ s.PauseFits e := by
  have h := (hs.invariant (P := fun s => Owned s.table s.headTxnList ∧ PauseEntries s)
    ⟨owned_globalInit, pauseEntries_globalInit⟩
    fun s e s' _ ⟨hown, hs⟩ hfits hstep => ⟨owned_step hown hstep, hs.step hown hfits hstep⟩).2
  refine ⟨?_, h.unused, fun e => h.accesses_iff⟩
  intro t ht i hi j hj hit hjt
  exact h.unique i hi j hj (hit.trans hjt.symm) (hit.trans_ne ht)

/-- A transaction pauses, comes through, and pauses again at its next file. -/
theorem pauseArray_in_bounds_twice :
    ∃ s : Server, s.indexPauseArray = 2 ∧
      (∀ t ≠ -1, ∀ i ≤ s.indexPauseArray, ∀ j ≤ s.indexPauseArray,
        (s.pauseArray i).txnid = t → (s.pauseArray j).txnid = t → i = j) ∧
      (∀ i, s.indexPauseArray < i → (s.pauseArray i).txnid = 0) ∧
      ∀ e, (∀ i ∈ s.pauseAccesses e, i < 100) ↔ s.PauseFits e := by
  obtain ⟨s, hs, hindex⟩ := exists_of_runUnder (globalInit 0) step PauseFits
    (fun s => s.indexPauseArray = 2)
    [.setBackup .active, .begin 1, .lock 1 ⟨1, 0, .placeholder⟩ 1, .lock 1 ⟨2, 0, .placeholder⟩ 0,
      .resume 1 1, .lock 1 ⟨3, 0, .placeholder⟩ 0]
    (by decide +kernel)
  exact ⟨s, hindex, pauseArray_in_bounds hs⟩

/-! ## Running out of entries

Every transaction of this run locks a file that the backup has copied and pauses at one that it
has not. The files are locked in descending order, so that the search ends at the head. -/

/-- The search for an inode below all those in the list. -/
theorem search_below (fInode : Int) (h : HasLockList s)
    (hbelow : ∀ a ∈ s.table.allocated, fInode < (s.cell a).fileInode) :
    ∃ loc, s.table.searchFileList fInode = some (false, loc) := by
  obtain ⟨On, hlist⟩ := h
  rcases hhead : s.table.headLockList with _ | x
  · exact ⟨none, by rw [LockTable.searchFileList, hhead]⟩
  · have hx : On x := hlist.head x hhead
    have hne : ∀ a, On a → (s.table.cells a).fileInode ≠ fInode := fun a ha =>
      Int.ne_of_gt (hbelow a (hlist.mem a ha))
    refine ⟨some x, ?_⟩
    rcases hnext : (s.table.cells x).next with _ | p
    · simp [LockTable.searchFileList, hhead, hnext, LockTable.searchLoop, hne x hx]
    · have hp : On p := (hlist.next x p hx hnext).1
      have hge : fInode ≤ (s.table.cells p).fileInode := Int.le_of_lt (hbelow p (hlist.mem p hp))
      simp [LockTable.searchFileList, hhead, hnext, LockTable.searchLoop, hne x hx, hne p hp, hge]

/-- What the run has come to when transactions 1 to `n` have paused. -/
structure PausedUpTo (n : Nat) (s : Server) : Prop where
  reachable : Reachable (globalInit 0) step s
  active : s.backup = .active
  index : s.indexPauseArray = n
  ids : ∀ i, (s.pauseArray i).txnid ≤ n
  unused : ∀ i, n < i → (s.pauseArray i).txnid = 0
  live : ∀ x ∈ s.headTxnList.map TxnNode.txnId, x ≤ n
  inodes : ∀ a ∈ s.table.allocated, 2 * (100 - (n : Int)) < (s.cell a).fileInode

/-- The request at which transaction `n + 1` pauses. -/
def pausingRequest (n : Nat) : LockRequest := ⟨2 * (100 - n) - 1, 0, .placeholder⟩

/-- Transaction `n + 1` has begun and has locked a file that is copied. -/
structure AboutToPause (n : Nat) (s : Server) : Prop where
  reachable : Reachable (globalInit 0) step s
  active : s.backup = .active
  index : s.indexPauseArray = n
  ids : ∀ i, (s.pauseArray i).txnid ≤ n
  unused : ∀ i, n < i → (s.pauseArray i).txnid = 0
  live : ∀ x ∈ s.headTxnList.map TxnNode.txnId, x ≤ n + 1
  inodes : ∀ a ∈ s.table.allocated, 2 * (100 - (n : Int)) - 1 < (s.cell a).fileInode
  running : s.thread (n + 1) = .running
  node : ∃ m, searchTxn (n + 1) s.headTxnList = some m ∧ m.fileRecNo ≠ none ∧ m.beforeAfter = 1

/-- The first file of a transaction, which nobody has locked: the check lets it through. -/
theorem lock_first_file {fInode : Int} {m : TxnNode} (hs : HasLockList s)
    (hbelow : ∀ a ∈ s.table.allocated, fInode < (s.cell a).fileInode) (hactive : s.backup = .active)
    (hthread : s.thread t = .running) (hm : searchTxn t s.headTxnList = some m)
    (hnone : m.fileRecNo = none) (ht : t ≠ 0) (hlt : ∀ a ∈ s.table.allocated, a ≠ s.table.brk) :
    ∃ s', s.step (.lock t ⟨fInode, 0, .placeholder⟩ 1) = some s' ∧ s'.backup = .active ∧
      SamePauses s s' ∧ s'.headTxnList.map TxnNode.txnId = s.headTxnList.map TxnNode.txnId ∧
      s'.thread t = .running ∧
      (∃ m, searchTxn t s'.headTxnList = some m ∧ m.fileRecNo ≠ none ∧ m.beforeAfter = 1) ∧
      ∀ a ∈ s'.table.allocated, fInode ≤ (s'.cell a).fileInode := by
  obtain ⟨loc, hsearch⟩ := search_below fInode hs hbelow
  have hcheck : s.checkUnlocked t 1 = some (s, 1) := by
    simp [checkUnlocked, ht, hactive, mutuallySerializable, hm, hnone]
  have htable : LockTable.Inserted s.table
      (s.table.insertUnlocked loc (getFileNode fInode 0 0 t)) (getFileNode fInode 0 0 t) :=
    LockTable.insertUnlocked_inserted
  have hstep : s.step (.lock t ⟨fInode, 0, .placeholder⟩ 1) =
      some (({ s with table := s.table.insertUnlocked loc (getFileNode fInode 0 0 t) }.modifyTxn t
        fun m => { m with fileRecNo := some s.table.brk, beforeAfter := 1 }).afterLock t
        .placeholder loc s.table.brk) := by
    simp [step, hthread, requestLock, hsearch, insertFileList, hm, hcheck, insertSameTxnList, hnone]
  refine ⟨_, hstep, hactive, ⟨rfl, rfl⟩, map_txnId_updateTxn fun _ => rfl,
    Function.update_self .., ?_, ?_⟩
  · refine ⟨{ m with fileRecNo := some s.table.brk, beforeAfter := 1 }, ?_, by simp, rfl⟩
    have hupdate : searchTxn t (updateTxn t _ s.headTxnList) = _ :=
      searchTxn_updateTxn (f := fun m => { m with fileRecNo := some s.table.brk, beforeAfter := 1 })
        fun _ => rfl
    rw [if_pos rfl, hm] at hupdate
    exact hupdate
  · intro a ha
    have ha' : a ∈ s.table.brk :: s.table.allocated := htable.allocated ▸ ha
    show fInode ≤ (((s.table.insertUnlocked loc (getFileNode fInode 0 0 t)).modify s.table.brk
      fun c => { c with fd := 0, fileOffset := 0 }).cells a).fileInode
    -- the caller changes no inode
    have hinode : ∀ b, (((s.table.insertUnlocked loc (getFileNode fInode 0 0 t)).modify s.table.brk
        fun c => { c with fd := 0, fileOffset := 0 }).cells b).fileInode =
          ((s.table.insertUnlocked loc (getFileNode fInode 0 0 t)).cells b).fileInode := by
      intro b
      by_cases hb : b = s.table.brk
      · rw [hb, LockTable.modify_cells_self]
      · rw [LockTable.modify_cells_of_ne hb]
    rw [hinode]
    rcases List.mem_cons.mp ha' with rfl | ha'
    · rw [FileLock.content_inode htable.new]
      exact Int.le_refl fInode
    · rw [FileLock.content_inode (htable.content a (hlt a ha'))]
      exact Int.le_of_lt (hbelow a ha')

theorem PausedUpTo.begin {n : Nat} (h : PausedUpTo n s) : ∃ s', AboutToPause n s' := by
  have hnew : searchTxn (n + 1) s.headTxnList = none := by
    rcases hm : searchTxn (n + 1) s.headTxnList with _ | m
    · rfl
    · have hle := h.live m.txnId (List.mem_map_of_mem (searchTxn_mem hm))
      have hid := searchTxn_id hm
      omega
  obtain ⟨s₁, hbegin, hs₁⟩ : ∃ s₁, s.step (.begin (n + 1)) = some s₁ ∧ s₁ = { s with
      headTxnList := newTxnInsert (n + 1) (intOfLong s.logEnd) s.headTxnList
      logEnd := s.logEnd + plainRecordLength
      thread := Function.update s.thread (n + 1) .running } :=
    ⟨_, by simp [step, onTxnBeg, hnew], rfl⟩
  have hreach : Reachable (globalInit 0) step s₁ := .step h.reachable trivial hbegin
  have hnode : searchTxn (n + 1) s₁.headTxnList =
      some (getTxnNode (n + 1) (intOfLong s.logEnd)) := by
    rw [hs₁]
    exact searchTxn_newTxnInsert_self hnew
  have hthread : s₁.thread (n + 1) = .running := by
    rw [hs₁]
    exact Function.update_self ..
  have hlive : ∀ x ∈ s₁.headTxnList.map TxnNode.txnId, x ≤ n + 1 := by
    intro x hx
    rw [hs₁] at hx
    rcases List.mem_cons.mp ((newTxnInsert_perm.map TxnNode.txnId).mem_iff.mp hx) with rfl | hx
    · exact Int.le_refl _
    · have hle := h.live x hx
      omega
  have hsame : s₁.table = s.table ∧ s₁.backup = s.backup ∧ SamePauses s s₁ := by
    rw [hs₁]
    exact ⟨rfl, rfl, rfl, rfl⟩
  obtain ⟨htable, hbackup, hpauses⟩ := hsame
  have hinodes : ∀ a ∈ s₁.table.allocated, 2 * (100 - (n : Int)) < (s₁.cell a).fileInode := by
    unfold cell
    rw [htable]
    exact h.inodes
  have hbrk : ∀ a ∈ s₁.table.allocated, a ≠ s₁.table.brk := fun a ha =>
    Nat.ne_of_lt ((owned_of_reachable hreach).lt_brk a ha)
  obtain ⟨s', hlock, hactive, hpauses', hids, hrunning, hm, hinodes'⟩ :=
    lock_first_file (hasLockList_of_reachable hreach) hinodes (hbackup.trans h.active) hthread hnode
      rfl (by omega) hbrk
  refine ⟨s', .step hreach trivial hlock, hactive, ?_, ?_, ?_, ?_, ?_, hrunning, hm⟩
  · rw [hpauses'.2, hpauses.2]
    exact h.index
  · rw [hpauses'.1, hpauses.1]
    exact h.ids
  · rw [hpauses'.1, hpauses.1]
    exact h.unused
  · rw [hids]
    exact hlive
  · intro a ha
    have hle := hinodes' a ha
    omega

/-- The check pauses the transaction. -/
theorem AboutToPause.fresh {n : Nat} (h : AboutToPause n s) :
    s.callsCheck (n + 1) (pausingRequest n) = true ∧ s.FreshPause (n + 1) 0 := by
  obtain ⟨m, hm, hfiles, hbit⟩ := h.node
  obtain ⟨loc, hsearch⟩ := search_below (2 * (100 - (n : Int)) - 1)
    (hasLockList_of_reachable h.reachable) h.inodes
  constructor
  · have hne : (n : Int) + 1 ≠ 0 := by omega
    simp [callsCheck, pausingRequest, hsearch, h.active, hne]
  · refine ⟨⟨m, hm, hfiles, rfl, hbit⟩, fun i _ hi => ?_⟩
    have hle := h.ids i
    omega

theorem AboutToPause.pause {n : Nat} (h : AboutToPause n s) :
    ∃ s', s.step (.lock (n + 1) (pausingRequest n) 0) = some s' ∧ PausedUpTo (n + 1) s' ∧
      (s'.pauseArray (n + 1)).txnid = n + 1 := by
  have hne : (n : Int) + 1 ≠ 0 := by omega
  obtain ⟨m, hm, hfiles, hbit⟩ := h.node
  obtain ⟨loc, hsearch⟩ := search_below (2 * (100 - (n : Int)) - 1)
    (hasLockList_of_reachable h.reachable) h.inodes
  obtain ⟨-, -, hnone⟩ := h.fresh
  rcases pause_txnids hne (h.index ▸ h.unused) with
    ⟨⟨i, hi, hit⟩, -⟩ | ⟨-, hret, hindex, harray⟩
  · exact absurd hit (hnone i hi)
  · have hcheck : s.checkUnlocked (n + 1) 0 = some (s.pause (n + 1)) := by
      simp [checkUnlocked, hne, h.active, mutuallySerializable, hm, hfiles, hbit]
    have hstep : s.step (.lock (n + 1) (pausingRequest n) 0) = some
        ((s.pause (n + 1)).1.setThread (n + 1) (.resuming ⟨pausingRequest n, loc⟩)) := by
      simp [step, h.running, requestLock, pausingRequest, hsearch, insertFileList, hm, hcheck, hret]
    have hentry : ∀ i, ((s.pause (n + 1)).1.pauseArray i).txnid =
        if i = n + 1 then (n : Int) + 1 else (s.pauseArray i).txnid := by
      intro i
      rw [harray, h.index, Function.update_apply]
      split <;> rfl
    -- the pause changes the array and the state of the transaction only
    have hrest : (s.pause (n + 1)).1.backup = s.backup ∧ (s.pause (n + 1)).1.table = s.table ∧
        (s.pause (n + 1)).1.headTxnList.map TxnNode.txnId = s.headTxnList.map TxnNode.txnId := by
      obtain ⟨pauses, index, ns, heq, hns⟩ := pause_sameButPause (s := s) (t := (n : Int) + 1)
      rw [heq]
      exact ⟨rfl, rfl, hns.ids⟩
    obtain ⟨hbackup, htable, hids⟩ := hrest
    have hlast : ((s.pause (n + 1)).1.pauseArray (n + 1)).txnid = n + 1 := by
      rw [hentry, if_pos rfl]
    refine ⟨_, hstep, ⟨.step h.reachable trivial hstep, ?_, ?_, ?_, ?_, ?_, ?_⟩, hlast⟩
    · exact hbackup.trans h.active
    · show (s.pause (n + 1)).1.indexPauseArray = n + 1
      rw [hindex, h.index]
    · intro i
      show ((s.pause (n + 1)).1.pauseArray i).txnid ≤ _
      rw [hentry]
      have hle := h.ids i
      split <;> omega
    · intro i hi
      show ((s.pause (n + 1)).1.pauseArray i).txnid = 0
      rw [hentry, if_neg (Nat.ne_of_gt hi)]
      exact h.unused i (Nat.lt_of_succ_lt hi)
    · intro x hx
      have hle := h.live x (hids ▸ hx)
      omega
    · intro a ha
      show _ < ((s.pause (n + 1)).1.table.cells a).fileInode
      have ha' : a ∈ (s.pause (n + 1)).1.table.allocated := ha
      rw [htable] at ha' ⊢
      have hlt := h.inodes a ha'
      show _ < (s.cell a).fileInode
      omega

/-- Any number of transactions can pause. -/
theorem exists_aboutToPause (n : Nat) : ∃ s, AboutToPause n s := by
  suffices hpaused : ∃ s, PausedUpTo n s by
    obtain ⟨s, hs⟩ := hpaused
    exact hs.begin
  induction n with
  | zero =>
    have hstep : (globalInit 0).step (.setBackup .active) = some _ := rfl
    refine ⟨_, .step .init trivial hstep, rfl, rfl, fun _ => Int.le_refl 0, fun _ _ => rfl, ?_, ?_⟩
    · intro x hx
      cases hx
    · intro a ha
      cases ha
  | succ n ih =>
    obtain ⟨s, hs⟩ := ih
    obtain ⟨s₁, hs₁⟩ := hs.begin
    obtain ⟨s₂, -, hs₂, -⟩ := hs₁.pause
    exact ⟨s₂, hs₂⟩

/-- The pause of transaction 100, behind 99 others, looks at `pause_array[100]` and takes it. -/
theorem pauseArray_exceeded :
    ∃ s s' : Server, Reachable (globalInit 0) step s ∧
      s.step (.lock 100 ⟨1, 0, .placeholder⟩ 0) = some s' ∧
      100 ∈ s.pauseAccesses (.lock 100 ⟨1, 0, .placeholder⟩ 0) ∧
      s'.indexPauseArray = 100 ∧ (s'.pauseArray 100).txnid = 100 := by
  obtain ⟨s, hs⟩ := exists_aboutToPause 99
  obtain ⟨s', hstep, hs', hlast⟩ := hs.pause
  obtain ⟨hcalls, hfresh⟩ := hs.fresh
  refine ⟨s, s', hs.reachable, hstep, ?_, hs'.index, hlast⟩
  have haccesses : s.pauseAccesses (.lock 100 ⟨1, 0, .placeholder⟩ 0) = s.checkAccesses 100 0 := by
    show (if s.callsCheck 100 ⟨1, 0, .placeholder⟩ then _ else _) = _
    exact if_pos hcalls
  have hrange : s.checkAccesses 100 0 = List.range (s.indexPauseArray + 2) := hfresh.accesses
  rw [haccesses, hrange, hs.index]
  exact List.mem_range.mpr (by omega)

end Server

end TxFS
