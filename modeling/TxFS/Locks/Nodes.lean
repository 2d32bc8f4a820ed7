import TxFS.Locks.Steps

/-!
# The Nodes of Other Transactions

The server finds the node of a transaction by its id and assigns to its fields. An event
assigns only to the node of the transaction on whose thread it happens (`step_txn`).
-/

namespace TxFS

namespace Server

variable {s s' s₁ : Server} {t x : Int} {e : Event}

/-! ## Lock requests -/

theorem searchTxn_modifyTxn {f : TxnNode → TxnNode} (hf : ∀ n, (f n).txnId = n.txnId)
    (hx : x ≠ t) : searchTxn x (s.modifyTxn t f).headTxnList = searchTxn x s.headTxnList := by
  rw [modifyTxn, searchTxn_updateTxn hf, if_neg hx]

theorem mutuallySerializable_txn {readBit r : Int} (hx : x ≠ t)
    (h : s.mutuallySerializable t readBit = some (s', r)) :
    searchTxn x s'.headTxnList = searchTxn x s.headTxnList := by
  have hpause : searchTxn x (s.pause t).1.headTxnList = searchTxn x s.headTxnList := by
    unfold pause
    dsimp only
    split
    · split
      · rfl
      · exact searchTxn_modifyTxn (by intro _; rfl) hx
    · exact searchTxn_modifyTxn (by intro _; rfl) hx
  simp only [mutuallySerializable, Option.bind_eq_bind, Option.bind_eq_some_iff] at h
  obtain ⟨n, -, h⟩ := h
  split at h
  · cases h
    rfl
  split at h
  · cases h
    rfl
  split at h
  · rw [← hpause, Option.some.inj h]
  · cases h
    rfl

theorem insertSameTxnList_txn {readBit : Int} {a : Addr} (hx : x ≠ t)
    (h : s.insertSameTxnList t readBit a = some s') :
    searchTxn x s'.headTxnList = searchTxn x s.headTxnList := by
  obtain ⟨n, -, ⟨-, rfl⟩ | ⟨first, last, -, -, rfl⟩⟩ := insertSameTxnList_cases h
  · exact searchTxn_modifyTxn (fun _ => rfl) hx
  · rfl

theorem grantShared_txn {i fl readBit : Int} {l : Addr} {out : Outcome} (hx : x ≠ t)
    (h : s.grantShared i fl t readBit l = some (s', out)) :
    searchTxn x s'.headTxnList = searchTxn x s.headTxnList := by
  simp only [grantShared, Option.bind_eq_bind, Option.bind_eq_some_iff] at h
  obtain ⟨⟨s₁, r⟩, hcheck, h⟩ := h
  have hs₁ : searchTxn x s₁.headTxnList = searchTxn x s.headTxnList := by
    unfold checkShared at hcheck
    split at hcheck
    · exact mutuallySerializable_txn hx hcheck
    · cases hcheck
      rfl
  split at h
  · simp only [Option.bind_eq_some_iff, Option.some.injEq, Prod.mk.injEq] at h
    obtain ⟨table, -, s₂, hs₂, rfl, -⟩ := h
    exact (insertSameTxnList_txn hx hs₂).trans hs₁
  split at h
  · cases h
    exact hs₁
  · cases h
    exact hs₁

/-- A request changes no node but that of its transaction. -/
theorem insertFileList_txn {i fl readBit : Int} {found : Bool} {loc : Option Addr} {out : Outcome}
    (hx : x ≠ t) (h : s.insertFileList i fl t readBit found loc = some (s', out)) :
    searchTxn x s'.headTxnList = searchTxn x s.headTxnList := by
  have hwaiting : searchTxn x (s.setWaiting t i fl).headTxnList = searchTxn x s.headTxnList :=
    searchTxn_modifyTxn (fun _ => rfl) hx
  simp only [insertFileList, Option.bind_eq_bind, Option.bind_eq_some_iff] at h
  obtain ⟨_, -, h⟩ := h
  split at h
  · -- not locked
    simp only [Option.bind_eq_some_iff] at h
    obtain ⟨⟨s₁, r⟩, hcheck, h⟩ := h
    have hs₁ : searchTxn x s₁.headTxnList = searchTxn x s.headTxnList := by
      unfold checkUnlocked at hcheck
      split at hcheck
      · split at hcheck
        · cases hcheck
          rfl
        · exact mutuallySerializable_txn hx hcheck
      · cases hcheck
        rfl
    split at h
    · simp only [Option.bind_eq_some_iff, Option.some.injEq, Prod.mk.injEq] at h
      obtain ⟨s₂, hs₂, rfl, -⟩ := h
      exact (insertSameTxnList_txn hx hs₂).trans hs₁
    split at h
    · cases h
      exact hs₁
    · cases h
      exact hs₁
  · -- locked
    simp only [Option.bind_eq_some_iff] at h
    obtain ⟨l, -, h⟩ := h
    split at h
    · cases h
      rfl
    split at h
    · split at h
      · cases h
        exact hwaiting
      · cases h
        exact hwaiting
    · split at h
      · split at h
        · exact grantShared_txn hx h
        · cases h
          exact hwaiting
      · simp only [Option.bind_eq_some_iff] at h
        obtain ⟨filePtr, -, h⟩ := h
        split at h
        · exact grantShared_txn hx h
        · cases h
          exact hwaiting

theorem requestLock_txn {req : LockRequest} {first : Option (Option Addr)} {readBit : Int}
    (hx : x ≠ t) (h : s.requestLock t req first readBit = some s') :
    searchTxn x s'.headTxnList = searchTxn x s.headTxnList := by
  simp only [requestLock, Option.bind_eq_bind, Option.bind_eq_some_iff] at h
  obtain ⟨⟨found, loc⟩, -, ⟨s₁, out⟩, hinsert, h⟩ := h
  have hs₁ := insertFileList_txn hx hinsert
  have hafter : ∀ a, searchTxn x (s₁.afterLock t req.use (first.getD loc) a).headTxnList =
      searchTxn x s.headTxnList := by
    intro a
    obtain ⟨_, _, _, heq, -⟩ := s₁.afterLock_spec t req.use (first.getD loc) a
    rw [heq]
    exact hs₁
  cases out with
  | granted a => exact Option.some.inj h ▸ hafter a
  | held a => exact Option.some.inj h ▸ hafter a
  | blocked node => exact Option.some.inj h ▸ hs₁
  | paused => exact Option.some.inj h ▸ hs₁
  | aborted => exact Option.some.inj h ▸ hs₁

/-! ## Releases -/

/-- The release functions touch neither another transaction nor the wait list. -/
theorem releaseLocks_rest {prepare : Server → Addr → Option (Server × List Act)}
    {close : Bool → Int → Option Act} {acts : List Act}
    (hprep : ∀ s a s₁ pre, prepare s a = some (s₁, pre) → SameButData s s₁)
    (h : releaseLocks prepare close s t = some (s', acts)) :
    (∀ x ≠ t, searchTxn x s'.headTxnList = searchTxn x s.headTxnList) ∧
      s'.headWaitList = s.headWaitList ∧ s'.nodeBrk = s.nodeBrk := by
  simp only [releaseLocks, Option.bind_eq_bind, Option.bind_eq_some_iff] at h
  obtain ⟨n, -, h⟩ := h
  have hloop : s'.headTxnList = (s.setFileRecNo t none).headTxnList ∧
      s'.headWaitList = s.headWaitList ∧ s'.nodeBrk = s.nodeBrk := by
    refine releaseLoop_steps (I := fun _ s₁ _ =>
      s₁.headTxnList = (s.setFileRecNo t none).headTxnList ∧
        s₁.headWaitList = s.headWaitList ∧ s₁.nodeBrk = s.nodeBrk) [] ?_ h ⟨rfl, rfl, rfl⟩
    intro a s₁ s₂ s₃ pre rel done hI hpre hrel
    obtain ⟨table, rfl, -⟩ := hprep _ _ _ _ hpre
    obtain ⟨-, _, _, _, rfl⟩ := (releaseRecord_spec hrel).frame
    exact hI
  refine ⟨?_, hloop.2⟩
  intro x hx
  rw [hloop.1, Server.setFileRecNo, searchTxn_setFileRecNo, if_neg hx]

theorem releaseLocksByBackup_rest {i : Int} {acts : List Act}
    (h : s.releaseLocksByBackup t i = some (s', acts)) :
    (∀ x ≠ t, searchTxn x s'.headTxnList = searchTxn x s.headTxnList) ∧
      s'.headWaitList = s.headWaitList ∧ s'.nodeBrk = s.nodeBrk := by
  simp only [releaseLocksByBackup, Option.bind_eq_bind, Option.bind_eq_some_iff] at h
  obtain ⟨n, -, ⟨foll, a⟩, -, h⟩ := h
  obtain ⟨-, _, _, _, rfl⟩ := (releaseRecord_spec h).frame
  obtain ⟨table, ns, hunlink, -, -, -, -, hns⟩ := s.unlinkTxnList_frame t foll a
  rw [hunlink]
  refine ⟨?_, rfl, rfl⟩
  intro x hx
  show searchTxn x ns = _
  rw [hns]
  split
  · rw [searchTxn_setFileRecNo, if_neg hx]
  · rfl

/-! ## The other critical sections -/

theorem afterCondWait_txn {p : Pending} {node : Nat} (hx : x ≠ t)
    (h : s.afterCondWait t p node = some s') :
    searchTxn x s'.headTxnList = searchTxn x s.headTxnList := by
  simp only [afterCondWait, Option.bind_eq_bind, Option.bind_eq_some_iff] at h
  obtain ⟨w, -, h⟩ := h
  split at h
  · cases h
    rfl
  split at h
  · cases h
    exact searchTxn_modifyTxn (by intro _; rfl) hx
  split at h
  · cases h
    rfl
  · cases h
    rfl

theorem logEvent_txn {c : NsCall} {pos : Addr} {newPos : Option Addr} (hx : x ≠ t)
    (h : s.logEvent t c pos newPos = some s') :
    searchTxn x s'.headTxnList = searchTxn x s.headTxnList := by
  have hlog : searchTxn x (s.logCall t c).1.headTxnList = searchTxn x s.headTxnList :=
    searchTxn_modifyTxn (by intro _; rfl) hx
  unfold logEvent at h
  split at h
  · cases c with
    | rename oldpath newpath =>
      cases h
      cases newPos with
      | none => exact hlog
      | some p => exact hlog
    | creat path mode =>
      cases h
      exact hlog
    | unlink path =>
      cases h
      exact hlog
  · cases h

theorem endTxn_txn {records : Int} (hx : x ≠ t) (h : s.endTxn t records = some s') :
    searchTxn x s'.headTxnList = searchTxn x s.headTxnList := by
  obtain ⟨ns, hns, rfl⟩ := endTxn_spec h
  exact searchTxn_txnDelete hx hns

/-- **A step changes no node but that of the acting transaction**. -/
theorem step_txn (h : s.step e = some s') (hx : e.actor ≠ some x) :
    searchTxn x s'.headTxnList = searchTxn x s.headTxnList := by
  have hne : ∀ {t : Int}, some t ≠ some x → x ≠ t := fun htx hxt => htx (congrArg some hxt.symm)
  cases step_spec h with
  | begin hfresh => exact searchTxn_newTxnInsert (hne hx)
  | lock hthread hreq => exact requestLock_txn (hne hx) hreq
  | resume hthread hreq => exact requestLock_txn (hne hx) hreq
  | wake hthread hwake => exact afterCondWait_txn (hne hx) hwake
  | leaveAsVictim hthread hwake =>
    obtain ⟨_, -, rfl⟩ := afterWakeCond_spec hwake
    rfl
  | call hcall => exact logEvent_txn (hne hx) hcall
  | commit hthread hrel hend =>
    rw [endTxn_txn (hne hx) hend,
      (releaseLocks_rest (fun _ _ _ _ => performWrites_sameButData) hrel).1 x (hne hx)]
  | abort hthread hrel hend =>
    rw [endTxn_txn (hne hx) hend,
      (releaseLocks_rest (fun _ _ _ _ => discardWrites_sameButData) hrel).1 x (hne hx)]
  | releaseByBackup hthread hrel => exact (releaseLocksByBackup_rest hrel).1 x (hne hx)
  | endBackup hthread hnone hend => exact endTxn_txn (hne hx) hend
  | markVictim hmark =>
    obtain ⟨w, -, rfl⟩ := markVictim_spec hmark
    rfl
  | setBackup => rfl

end Server

end TxFS
