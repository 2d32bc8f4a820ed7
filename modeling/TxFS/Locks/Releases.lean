import TxFS.Locks.Ownership

/-!
# What a Release Can Do

`ReleaseSpec` lists the three branches of the release functions for one record, and `Frees`
is one such record together with its place in the chain of its transaction. A whole release
is a sequence of `Frees` steps: `releaseLocks_rule` is the induction over it, which every
invariant about releases uses.
-/

namespace TxFS

open LinkedPath GuardedRun

namespace Server

variable {s s' s₁ : Server} {a : Addr} {t : Int} {acts : List Act}
  {close : Bool → Int → Option Act} {prepare : Server → Addr → Option (Server × List Act)}

/-! ## One record -/

/-- The handle table after a descriptor was closed under the rule `close`. -/
def closedHandles (close : Bool → Int → Option Act) (waited : Bool) (fd : Int)
    (handles : List (Option Int)) : List (Option Int) :=
  match close waited fd with
  | none => handles
  | some _ => if fd < 0 then handles else handles.set fd.toNat none

theorem closeFd_eq {waited : Bool} {fd : Int} : closeFd close s waited fd =
    ({ s with handles := closedHandles close waited fd s.handles }, (close waited fd).toList) := by
  unfold closeFd closedHandles closeHandle
  cases close waited fd with
  | none => rfl
  | some act =>
    dsimp only
    split <;> rfl

/-- **The branches of a release for one record**. -/
inductive ReleaseSpec (close : Bool → Int → Option Act) (s : Server) (a : Addr) :
    Server → List Act → Prop where
  /-- No transaction is waiting: the shared links of the neighbours stay. -/
  | quiet {table : LockTable} (hwait : s.searchWaitList (s.cell a).fileInode = none)
      (htable : s.table.deleteFileList a = some table) :
      ReleaseSpec close s a
        { s with table := table, handles := closedHandles close false (s.cell a).fd s.handles }
        (close false (s.cell a).fd).toList
  /-- A wait list is present and other shared records remain. -/
  | unlinked {table : LockTable} {w : WaitNode}
      (hwait : s.searchWaitList (s.cell a).fileInode = some w) (hmode : (s.cell a).fileMode = 0)
      (hlinks : ¬ ((s.cell a).nextSharedRec = none ∧ (s.cell a).prevSharedRec = none))
      (htable : (s.table.unlinkShared a).deleteFileList a = some table) :
      ReleaseSpec close s a
        { s with table := table, handles := closedHandles close true (s.cell a).fd s.handles }
        (close true (s.cell a).fd).toList
  /-- A wait list is present and this was the last record. -/
  | woken {table : LockTable} {w : WaitNode}
      (hwait : s.searchWaitList (s.cell a).fileInode = some w)
      (hlast : (s.cell a).fileMode = 0 →
        (s.cell a).nextSharedRec = none ∧ (s.cell a).prevSharedRec = none)
      (htable : s.table.deleteFileList a = some table) :
      ReleaseSpec close s a
        (wakeUp { s with
          table := table, handles := closedHandles close true (s.cell a).fd s.handles } w.node)
        (close true (s.cell a).fd).toList

/-- **Inversion of a release for one record**. -/
theorem releaseRecord_spec (h : releaseRecord close s a = some (s', acts)) :
    ReleaseSpec close s a s' acts := by
  unfold releaseRecord at h
  dsimp only at h
  split at h
  · rename_i hwait
    simp only [closeFd_eq, deleteRecord, Option.bind_eq_bind, Option.bind_eq_some_iff,
      Option.map_eq_some_iff, Option.some.injEq, Prod.mk.injEq] at h
    obtain ⟨_, ⟨table, htable, rfl⟩, rfl, rfl⟩ := h
    exact .quiet hwait htable
  · rename_i w hwait
    split at h
    · rename_i hmode
      split at h
      · rename_i hlinks
        simp only [closeFd_eq, deleteRecord, Option.bind_eq_bind, Option.bind_eq_some_iff,
          Option.map_eq_some_iff, Option.some.injEq, Prod.mk.injEq] at h
        obtain ⟨_, ⟨table, htable, rfl⟩, rfl, rfl⟩ := h
        exact .woken hwait (fun _ => hlinks) htable
      · rename_i hlinks
        simp only [closeFd_eq, deleteRecord, Option.bind_eq_bind, Option.bind_eq_some_iff,
          Option.map_eq_some_iff, Option.some.injEq, Prod.mk.injEq] at h
        obtain ⟨_, ⟨table, htable, rfl⟩, rfl, rfl⟩ := h
        exact .unlinked hwait hmode hlinks htable
    · rename_i hmode
      simp only [closeFd_eq, deleteRecord, Option.bind_eq_bind, Option.bind_eq_some_iff,
        Option.map_eq_some_iff, Option.some.injEq, Prod.mk.injEq] at h
      obtain ⟨_, ⟨table, htable, rfl⟩, rfl, rfl⟩ := h
      exact .woken hwait (fun hm => absurd hm hmode) htable

/-- What every branch leaves alone, and what it does to the records. -/
theorem ReleaseSpec.frame (h : ReleaseSpec close s a s' acts) :
    s.table.Deleted s'.table a ∧
      ∃ table handles thread,
        s' = { s with table := table, handles := handles, thread := thread } := by
  cases h with
  | quiet hwait htable => exact ⟨LockTable.deleteFileList_deleted htable, _, _, s.thread, rfl⟩
  | unlinked hwait hmode hlinks htable =>
    exact ⟨LockTable.unlinkShared_deleted htable, _, _, s.thread, rfl⟩
  | woken hwait hlast htable => exact ⟨LockTable.deleteFileList_deleted htable, _, _, _, rfl⟩

/-- A release of one record neither reads nor changes the list of transactions. -/
theorem ReleaseSpec.setFileRecNo (h : ReleaseSpec close s a s' acts) (t : Int)
    (start : Option Addr) :
    ReleaseSpec close (s.setFileRecNo t start) a (s'.setFileRecNo t start) acts := by
  cases h with
  | quiet hwait htable => exact .quiet hwait htable
  | unlinked hwait hmode hlinks htable => exact .unlinked hwait hmode hlinks htable
  | woken hwait hlast htable => exact .woken hwait hlast htable

/-! ## One record in the chain of its transaction -/

/-- The record `a`, behind the records `l` of its transaction `t`, is taken out of the chain
    and released. -/
def Frees (close : Bool → Int → Option Act) (s : Server) (t : Int) (l : List Addr) (a : Addr)
    (s' : Server) (acts : List Act) : Prop :=
  ∃ n r, searchTxn t s.headTxnList = some n ∧ s.table.Chain n.fileRecNo t (l ++ a :: r) ∧
    ReleaseSpec close (s.unlinkTxnList t l.getLast? a) a s' acts

/-- Taking a record out of the chain leaves everything but `next_txn` and `file_rec_no`. -/
theorem unlinkTxnList_frame (s : Server) (t : Int) (foll : Option Addr) (a : Addr) :
    ∃ table ns, s.unlinkTxnList t foll a = { s with table := table, headTxnList := ns } ∧
      table.allocated = s.table.allocated ∧ table.brk = s.table.brk ∧
      table.headLockList = s.table.headLockList ∧
      (∀ b, table.cells b =
        { s.table.cells b with
          nextTxn := if foll = some b then (s.table.cells a).nextTxn
            else (s.table.cells b).nextTxn }) ∧
      ns = if foll = none then TxFS.setFileRecNo t (s.table.cells a).nextTxn s.headTxnList
        else s.headTxnList := by
  cases foll with
  | none => exact ⟨s.table, _, rfl, rfl, rfl, rfl, fun b => by simp, by simp [cell]⟩
  | some p =>
    refine ⟨_, s.headTxnList, rfl, rfl, rfl, rfl, fun b => ?_, by simp⟩
    by_cases hb : b = p
    · subst hb
      simp [LockTable.modify, cell]
    · simp [LockTable.modify, hb, Ne.symm hb]

/-- What freeing the record `a` leaves of the others. -/
structure FreedFrame (s s' : Server) (a : Addr) : Prop where
  mem : ∀ b, b ∈ s'.table.allocated ↔ b ≠ a ∧ b ∈ s.table.allocated
  fields : ∀ b ≠ a, (s'.cell b).fileInode = (s.cell b).fileInode ∧
    (s'.cell b).fileMode = (s.cell b).fileMode ∧ (s'.cell b).fd = (s.cell b).fd ∧
    (s'.cell b).flags = (s.cell b).flags ∧ (s'.cell b).parentTxn = (s.cell b).parentTxn ∧
    (s'.cell b).writesAt = (s.cell b).writesAt
  rest : s'.headWaitList = s.headWaitList ∧ s'.nodeBrk = s.nodeBrk ∧ s'.backup = s.backup ∧
    s'.eventLog = s.eventLog ∧ s'.logEnd = s.logEnd
  ids : s'.headTxnList.map TxnNode.txnId = s.headTxnList.map TxnNode.txnId

theorem Frees.frame {l : List Addr} (hs : Owned s.table s.headTxnList)
    (h : Frees close s t l a s' acts) : FreedFrame s s' a := by
  obtain ⟨n, r, -, -, hrel⟩ := h
  obtain ⟨hdel, table, handles, thread, hs'⟩ := hrel.frame
  obtain ⟨table₁, ns, hunlink, halloc, -, -, hcells, hns⟩ :=
    s.unlinkTxnList_frame t l.getLast? a
  rw [hunlink] at hdel hs'
  exact {
    mem := fun b => by
      rw [hdel.allocated]
      change b ∈ table₁.allocated.erase a ↔ _
      rw [halloc, hs.nodup.mem_erase_iff]
    fields := fun b hb => by
      obtain ⟨h1, h2, h3, h4, h5, -, h7⟩ := FileLock.content_fields (hdel.content b hb)
      simp only [hcells b] at h1 h2 h3 h4 h5 h7
      exact ⟨h1, h2, h3, h4, h5, h7⟩
    rest := by rw [hs']; exact ⟨rfl, rfl, rfl, rfl, rfl⟩
    ids := by
      rw [hs']
      change ns.map TxnNode.txnId = _
      rw [hns]
      split
      · exact map_txnId_setFileRecNo
      · rfl }

/-- **Freeing a record keeps ownership**. -/
theorem Frees.owned {l : List Addr} (h : Owned s.table s.headTxnList)
    (hfree : Frees close s t l a s' acts) : Owned s'.table s'.headTxnList := by
  obtain ⟨n, r, hn, hchain, hrel⟩ := hfree
  obtain ⟨hdel, table, handles, thread, hs'⟩ := hrel.frame
  obtain ⟨table₁, ns, hunlink, halloc, hbrk, -, hcells, hns⟩ :=
    s.unlinkTxnList_frame t l.getLast? a
  rw [hunlink] at hdel hs'
  have hid : n.txnId = t := searchTxn_id hn
  rw [← hid] at hchain
  have hkept : ∀ b ≠ a, (s'.table.cells b).parentTxn = (s.table.cells b).parentTxn ∧
      (s'.table.cells b).nextTxn = if l.getLast? = some b then (s.table.cells a).nextTxn
        else (s.table.cells b).nextTxn := fun b hb => by
    have hfields := FileLock.content_fields (hdel.content b hb)
    simp only [hcells b] at hfields
    exact ⟨hfields.2.2.2.2.1, hfields.2.2.2.2.2.1⟩
  have hremove : Owned s'.table _ := h.remove (searchTxn_mem hn) hchain
    (hdel.allocated.trans (congrArg (List.erase · a) halloc)) (hdel.brk.trans hbrk)
    (fun b hb => (hkept b hb).1) (fun b hb => (hkept b hb).2)
  have hlist : s'.headTxnList = TxFS.setFileRecNo n.txnId
      (if l = [] then (s.table.cells a).nextTxn else n.fileRecNo) s.headTxnList := by
    rw [hs']
    change ns = _
    rw [hns, hid]
    by_cases hl : l = []
    · simp [hl]
    · rw [if_neg hl, setFileRecNo_self hn, if_neg (by simpa using hl)]
  rw [hlist]
  exact hremove

/-! ## A whole release -/

/-- The loop, seen from the state in which the records still to be released are the chain
    of the transaction. -/
theorem releaseLoop_rule {I : Server → List Act → Prop} {Q : List Act → Prop}
    (hown : ∀ s done, I s done → Owned s.table s.headTxnList)
    (hprep : ∀ s a s₁ pre, prepare s a = some (s₁, pre) → SameButData s s₁ ∧ Q pre)
    (hdata : ∀ s s₁ pre done, I s done → SameButData s s₁ → Q pre → I s₁ (done ++ pre))
    (hfree : ∀ s a s₁ acts done, I s done → Frees close s t [] a s₁ acts → I s₁ (done ++ acts))
    {fuel : Nat} {start : Option Addr} {done : List Act}
    (h : releaseLoop prepare close fuel s start = some (s', acts))
    (hlive : searchTxn t s.headTxnList ≠ none) (hI : I (s.setFileRecNo t start) done) :
    I (s'.setFileRecNo t none) (done ++ acts) ∧ s'.headTxnList = s.headTxnList := by
  induction fuel generalizing s start done acts with
  | zero => cases h
  | succ fuel ih =>
    cases start with
    | none =>
      simp only [releaseLoop, Option.some.injEq, Prod.mk.injEq] at h
      obtain ⟨rfl, rfl⟩ := h
      exact ⟨by simpa using hI, rfl⟩
    | some a =>
      simp only [releaseLoop, Option.bind_eq_bind, Option.bind_eq_some_iff, Option.some.injEq,
        Prod.mk.injEq] at h
      obtain ⟨⟨s₁, pre⟩, h₁, ⟨s₂, rel⟩, h₂, ⟨s₃, rest⟩, h₃, rfl, rfl⟩ := h
      obtain ⟨hsame, hQ⟩ := hprep _ _ _ _ h₁
      obtain ⟨table₁, rfl, hlinks⟩ := hsame
      -- the writes of the record
      have hI₁ := hdata _ ({ s with table := table₁ }.setFileRecNo t (some a)) pre done hI
        ⟨table₁, rfl, hlinks⟩ hQ
      -- the record itself
      have hspec := releaseRecord_spec h₂
      obtain ⟨n, hn⟩ := Option.ne_none_iff_exists'.mp hlive
      have hn₁ : searchTxn t (TxFS.setFileRecNo t (some a) s.headTxnList) =
          some { n with fileRecNo := some a } := by
        rw [searchTxn_setFileRecNo, if_pos rfl, hn]
        rfl
      obtain ⟨ys, hys⟩ := (hown _ _ hI₁).chain _ (searchTxn_mem hn₁)
      obtain ⟨r, rfl⟩ : ∃ r, ys = a :: r := by
        cases ys with
        | nil => exact absurd hys.1 (by simp [isPath_nil])
        | cons b r => exact ⟨r, by rw [Option.some.inj hys.1.1]⟩
      have hid : n.txnId = t := searchTxn_id hn
      have hfrees : Frees close ({ s with table := table₁ }.setFileRecNo t (some a)) t [] a
          (s₂.setFileRecNo t (table₁.cells a).nextTxn) rel := by
        refine ⟨_, r, hn₁, hid ▸ hys, ?_⟩
        have hset := hspec.setFileRecNo t (table₁.cells a).nextTxn
        have heq : ({ s with table := table₁ }.setFileRecNo t (some a)).unlinkTxnList t none a =
            { s with table := table₁ }.setFileRecNo t (table₁.cells a).nextTxn := by
          simp only [unlinkTxnList, Server.setFileRecNo, setFileRecNo_setFileRecNo, cell]
        exact heq ▸ hset
      have hI₂ := hfree _ _ _ _ _ hI₁ hfrees
      obtain ⟨-, _, _, _, hs₂⟩ := hspec.frame
      have hns₂ : s₂.headTxnList = s.headTxnList := by rw [hs₂]
      obtain ⟨hI₃, hns₃⟩ := ih h₃ (by rw [hns₂]; exact hlive) hI₂
      exact ⟨by simpa [List.append_assoc] using hI₃, hns₃.trans hns₂⟩

/-- **Release rule**: an invariant that survives the delayed updates and the freeing of the
    first record of the transaction survives the whole release, and then the transaction
    owns nothing. -/
theorem releaseLocks_rule {I : Server → List Act → Prop} {Q : List Act → Prop}
    (hown : ∀ s done, I s done → Owned s.table s.headTxnList)
    (hprep : ∀ s a s₁ pre, prepare s a = some (s₁, pre) → SameButData s s₁ ∧ Q pre)
    (hdata : ∀ s s₁ pre done, I s done → SameButData s s₁ → Q pre → I s₁ (done ++ pre))
    (hfree : ∀ s a s₁ acts done, I s done → Frees close s t [] a s₁ acts → I s₁ (done ++ acts))
    (h : releaseLocks prepare close s t = some (s', acts)) (hI : I s []) :
    I s' acts ∧ ∃ n, searchTxn t s'.headTxnList = some n ∧ n.fileRecNo = none := by
  simp only [releaseLocks, Option.bind_eq_bind, Option.bind_eq_some_iff] at h
  obtain ⟨n, hn, h⟩ := h
  have hlive : searchTxn t (s.setFileRecNo t none).headTxnList =
      some { n with fileRecNo := none } := by
    rw [Server.setFileRecNo, searchTxn_setFileRecNo, if_pos rfl, hn]
    rfl
  have hstart : (s.setFileRecNo t none).setFileRecNo t n.fileRecNo = s := by
    simp only [Server.setFileRecNo, setFileRecNo_setFileRecNo, setFileRecNo_self hn]
  obtain ⟨hI', hns⟩ := releaseLoop_rule hown hprep hdata hfree h (by simp [hlive])
    (by rw [hstart]; exact hI)
  have hend : s'.setFileRecNo t none = s' := by
    have : TxFS.setFileRecNo t none s'.headTxnList = s'.headTxnList := by
      rw [hns, Server.setFileRecNo, setFileRecNo_setFileRecNo]
    rw [Server.setFileRecNo, this]
  rw [hend] at hI'
  exact ⟨hI', _, by rw [hns]; exact hlive, rfl⟩

/-- The loop record by record: `I` speaks about the next record to release. -/
theorem releaseLoop_steps {I : Option Addr → Server → List Act → Prop} (done : List Act)
    (hstep : ∀ a s s₁ s₂ pre rel done, I (some a) s done → prepare s a = some (s₁, pre) →
      releaseRecord close s₁ a = some (s₂, rel) → I (s₁.cell a).nextTxn s₂ (done ++ (pre ++ rel)))
    {fuel : Nat} {start : Option Addr}
    (h : releaseLoop prepare close fuel s start = some (s', acts)) (hI : I start s done) :
    I none s' (done ++ acts) := by
  induction fuel generalizing s start done acts with
  | zero => cases h
  | succ fuel ih =>
    cases start with
    | none =>
      simp only [releaseLoop, Option.some.injEq, Prod.mk.injEq] at h
      obtain ⟨rfl, rfl⟩ := h
      rw [List.append_nil]
      exact hI
    | some a =>
      simp only [releaseLoop, Option.bind_eq_bind, Option.bind_eq_some_iff, Option.some.injEq,
        Prod.mk.injEq] at h
      obtain ⟨⟨s₁, pre⟩, h₁, ⟨s₂, rel⟩, h₂, ⟨s₃, rest⟩, h₃, rfl, rfl⟩ := h
      have hnext := ih _ h₃ (hstep a s s₁ s₂ pre rel done hI h₁ h₂)
      rwa [List.append_assoc] at hnext

/-! ## The release by the backup -/

theorem findOwnRecord_spec {i : Int} {fuel : Nat} {foll foll' start : Option Addr}
    {ys : List Addr} (hpath : IsPath (fun b => (s.cell b).nextTxn) start ys)
    (h : s.findOwnRecord i fuel foll start = some (foll', a)) :
    ∃ l r, ys = l ++ a :: r ∧ (s.cell a).fileInode = i ∧ foll' = l.getLast?.or foll := by
  induction fuel generalizing foll start ys with
  | zero => cases h
  | succ fuel ih =>
    cases ys with
    | nil =>
      have hs : start = none := hpath
      subst hs
      cases h
    | cons b ys =>
      have hs : start = some b := hpath.1
      subst hs
      rw [findOwnRecord] at h
      split at h
      · rename_i hi
        simp only [Option.some.injEq, Prod.mk.injEq] at h
        obtain ⟨rfl, rfl⟩ := h
        exact ⟨[], ys, rfl, hi, rfl⟩
      · obtain ⟨l, r, rfl, hi, rfl⟩ := ih hpath.2 h
        refine ⟨b :: l, r, rfl, hi, ?_⟩
        rw [List.getLast?_cons]
        cases l.getLast? <;> rfl

/-- **Inversion of the release by the backup**: one record of the inode is freed. -/
theorem releaseLocksByBackup_spec {i : Int} (hown : Owned s.table s.headTxnList)
    (h : s.releaseLocksByBackup t i = some (s', acts)) :
    ∃ l a, (s.cell a).fileInode = i ∧ Frees closeByBackup s t l a s' acts := by
  simp only [releaseLocksByBackup, Option.bind_eq_bind, Option.bind_eq_some_iff] at h
  obtain ⟨n, hn, ⟨foll, a⟩, hfind, h⟩ := h
  obtain ⟨ys, hys⟩ := hown.chain n (searchTxn_mem hn)
  obtain ⟨l, r, rfl, hi, hfoll⟩ := findOwnRecord_spec hys.1 hfind
  have hid : n.txnId = t := searchTxn_id hn
  refine ⟨l, a, hi, n, r, hn, hid ▸ hys, ?_⟩
  have hfoll' : foll = l.getLast? := by rw [hfoll]; simp
  exact hfoll' ▸ releaseRecord_spec h

/-- The freed record belonged to the transaction. -/
theorem Frees.mem {l : List Addr} (h : Frees close s t l a s' acts) :
    a ∈ s.table.allocated ∧ (s.cell a).parentTxn = t := by
  obtain ⟨n, r, -, hchain, -⟩ := h
  exact (hchain.2 a).mp (by simp)

/-! ## Ownership in every run -/

theorem RequestSpec.owned {i fl readBit : Int} {found : Bool} {loc : Option Addr} {out : Outcome}
    (h : RequestSpec s i fl t readBit loc found s' out) (hs : Owned s.table s.headTxnList) :
    Owned s'.table s'.headTxnList := by
  cases h with
  | held => exact hs
  | unlocked hadm hgrant => exact hgrant.owned hs LockTable.insertUnlocked_inserted rfl rfl
  | shared hloc hown hmode hfl hadm htable hgrant =>
    exact hgrant.owned hs (LockTable.insertShared_inserted htable) rfl rfl
  | newNode => exact hs.sameLinks (.refl _) (sameHeads_updateTxn fun _ => rfl)
  | oldNode => exact hs.sameLinks (.refl _) (sameHeads_updateTxn fun _ => rfl)
  | refused hs' hout =>
    obtain ⟨_, _, _, rfl, hns⟩ := hs'
    exact hs.sameLinks (.refl _) hns

/-- A request behind its outcome: only descriptors, handles and the thread still change. -/
theorem requestLock_frame {req : LockRequest} {first : Option (Option Addr)} {readBit : Int}
    (h : s.requestLock t req first readBit = some s') :
    ∃ found loc s₁ out, s.table.searchFileList req.inode = some (found, loc) ∧
      RequestSpec s req.inode req.flags t readBit loc found s₁ out ∧
      s₁.table.SameLinks s'.table ∧ s'.headTxnList = s₁.headTxnList := by
  obtain ⟨found, loc, s₁, out, hsearch, hspec, hend⟩ := requestLock_cases h
  refine ⟨found, loc, s₁, out, hsearch, hspec, ?_⟩
  rcases hend with ⟨a, -, rfl⟩ | ⟨node, -, rfl⟩ | ⟨-, rfl⟩ | ⟨-, rfl⟩
  · obtain ⟨table, handles, st, heq, hlinks, -⟩ := s₁.afterLock_spec t req.use (first.getD loc) a
    rw [heq]
    exact ⟨hlinks, rfl⟩
  · exact ⟨.refl _, rfl⟩
  · exact ⟨.refl _, rfl⟩
  · exact ⟨.refl _, rfl⟩

theorem requestLock_owned {req : LockRequest} {first : Option (Option Addr)} {readBit : Int}
    (hs : Owned s.table s.headTxnList) (h : s.requestLock t req first readBit = some s') :
    Owned s'.table s'.headTxnList := by
  obtain ⟨_, _, s₁, _, -, hspec, hlinks, hns⟩ := requestLock_frame h
  exact (hspec.owned hs).sameLinks hlinks (hns ▸ .refl _)

theorem releaseLocks_owned
    (hprep : ∀ s a s₁ pre, prepare s a = some (s₁, pre) → SameButData s s₁)
    (hs : Owned s.table s.headTxnList) (h : releaseLocks prepare close s t = some (s', acts)) :
    Owned s'.table s'.headTxnList ∧
      ∃ n, searchTxn t s'.headTxnList = some n ∧ n.fileRecNo = none := by
  refine releaseLocks_rule (I := fun s _ => Owned s.table s.headTxnList) (Q := fun _ => True)
    (fun s done hI => hI) (fun s a s₁ pre hpre => ⟨hprep s a s₁ pre hpre, trivial⟩) ?_ ?_ h hs
  · rintro s s₁ pre done hs ⟨table, rfl, hlinks⟩ -
    exact hs.sameLinks hlinks (.refl _)
  · exact fun s a s₁ rel done hs hfree => hfree.owned hs

theorem endTxn_owned {records : Int} (hs : Owned s.table s.headTxnList)
    (hnone : ∃ n, searchTxn t s.headTxnList = some n ∧ n.fileRecNo = none)
    (h : s.endTxn t records = some s') : Owned s'.table s'.headTxnList := by
  obtain ⟨ns, hns, rfl⟩ := endTxn_spec h
  obtain ⟨n, hn, hfirst⟩ := hnone
  refine hs.delete hns fun m hm hmt => ?_
  have := hs.search_eq hm
  rw [hmt, hn, Option.some.injEq] at this
  exact this ▸ hfirst

/-- **Every step keeps ownership**. -/
theorem owned_step {e : Event} (hs : Owned s.table s.headTxnList) (h : s.step e = some s') :
    Owned s'.table s'.headTxnList := by
  have hquiet := step_quiet h
  cases step_spec h with
  | begin hfresh => exact hs.begin hfresh
  | lock hthread h => exact requestLock_owned hs h
  | resume hthread h => exact requestLock_owned hs h
  | commit hthread hrel hend =>
    obtain ⟨h₁, hnone⟩ := releaseLocks_owned (fun _ _ _ _ => performWrites_sameButData) hs hrel
    exact endTxn_owned h₁ hnone hend
  | abort hthread hrel hend =>
    obtain ⟨h₁, hnone⟩ := releaseLocks_owned (fun _ _ _ _ => discardWrites_sameButData) hs hrel
    exact endTxn_owned h₁ hnone hend
  | releaseByBackup hthread hrel =>
    obtain ⟨l, a, -, hfree⟩ := releaseLocksByBackup_spec hs hrel
    exact hfree.owned hs
  | endBackup hthread hnone hend => exact endTxn_owned hs hnone hend
  | wake => exact hs.sameLinks hquiet.1 hquiet.2
  | leaveAsVictim => exact hs.sameLinks hquiet.1 hquiet.2
  | call => exact hs.sameLinks hquiet.1 hquiet.2
  | markVictim => exact hs.sameLinks hquiet.1 hquiet.2
  | setBackup => exact hs

theorem owned_globalInit {handles : Nat} :
    Owned (globalInit handles).table (globalInit handles).headTxnList where
  ids := List.nodup_nil
  nodup := List.nodup_nil
  lt_brk := fun a ha => absurd ha (by simp [globalInit])
  chain := fun n hn => absurd hn (by simp [globalInit])
  live := fun a ha => absurd ha (by simp [globalInit])

/-- **Ownership holds in every reachable state**. -/
theorem owned_of_reachable {handles : Nat} {ok : Server → Event → Prop}
    (h : ReachableUnder (globalInit handles) step ok s) : Owned s.table s.headTxnList :=
  h.invariant (P := fun s => Owned s.table s.headTxnList) owned_globalInit
    fun _ _ _ _ hs _ hstep => owned_step hs hstep

end Server

end TxFS
