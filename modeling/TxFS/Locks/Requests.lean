import TxFS.Locks.Frames

/-!
# What a Lock Request Can Do

`RequestSpec` lists the ways in which `insert_file_list` ends its critical section, with
everything it has changed. The invariants of the lock manager are derived from this list;
no later proof unfolds `insertFileList`.
-/

namespace TxFS

open LinkedPath

namespace Server

variable {s s' s₁ : Server} {i fl t readBit : Int} {loc : Option Addr} {out : Outcome}

/-! ## The check before a grant -/

/-- What a transaction had to satisfy for a grant: `unlocked` says that the file was not
    locked, so that an inactive backup is not asked. -/
def Admitted (s : Server) (t readBit : Int) (unlocked : Bool) : Prop :=
  t = 0 ∨ (unlocked = true ∧ s.backup = .inactive) ∨
    ∃ n, searchTxn t s.headTxnList = some n ∧ (n.fileRecNo = none ∨ readBit = n.beforeAfter)

theorem checkUnlocked_cases {r : Int} (h : s.checkUnlocked t readBit = some (s₁, r)) :
    SameButPause s s₁ ∧ (r = 1 ∨ r = -2 → Admitted s t readBit true) := by
  unfold checkUnlocked at h
  split at h
  · split at h
    · rename_i hb
      simp only [Option.some.injEq, Prod.mk.injEq] at h
      exact ⟨h.1 ▸ SameButPause.refl s, fun _ => .inr (.inl ⟨rfl, hb⟩)⟩
    · obtain ⟨hs₁, hr⟩ := mutuallySerializable_cases h
      refine ⟨hs₁, fun hret => ?_⟩
      rcases hr with hr | ⟨-, hn⟩
      · omega
      · exact .inr (.inr hn)
  · rename_i ht
    simp only [ne_eq, not_not] at ht
    simp only [Option.some.injEq, Prod.mk.injEq] at h
    exact ⟨h.1 ▸ SameButPause.refl s, fun _ => .inl ht⟩

theorem checkShared_cases {r : Int} (h : s.checkShared t readBit = some (s₁, r)) :
    SameButPause s s₁ ∧ (r = 1 ∨ t = 0 → Admitted s t readBit false) := by
  unfold checkShared at h
  split at h
  · rename_i ht
    obtain ⟨hs₁, hr⟩ := mutuallySerializable_cases h
    refine ⟨hs₁, fun hret => ?_⟩
    rcases hr with hr | ⟨-, hn⟩
    · omega
    · exact .inr (.inr hn)
  · rename_i ht
    simp only [ne_eq, not_not] at ht
    simp only [Option.some.injEq, Prod.mk.injEq] at h
    exact ⟨h.1 ▸ SameButPause.refl s, fun _ => .inl ht⟩

/-! ## The outcomes -/

/-- The state behind the insertion of the new record into `table` and into the
    transaction's own list. -/
def GrantedIn (s : Server) (t readBit : Int) (table : LockTable) (s' : Server) : Prop :=
  ∃ s₁, SameButPause s s₁ ∧
    insertSameTxnList { s₁ with table := table } t readBit s.table.brk = some s'

/-- `insert_same_txn_list` makes the record the first one of the transaction, which also
    sets its serialization, or hangs it behind the last one. -/
theorem insertSameTxnList_cases {a : Addr} (h : s.insertSameTxnList t readBit a = some s') :
    ∃ n, searchTxn t s.headTxnList = some n ∧
      ((n.fileRecNo = none ∧ s' = s.modifyTxn t fun n =>
          { n with fileRecNo := some a, beforeAfter := readBit }) ∨
        ∃ first last, n.fileRecNo = some first ∧
          walkToEnd (fun b => (s.cell b).nextTxn) (s.table.brk + 1) first = some last ∧
          s' = s.modifyCell last fun c => { c with nextTxn := some a }) := by
  simp only [insertSameTxnList, Option.bind_eq_bind, Option.bind_eq_some_iff] at h
  obtain ⟨n, hn, h⟩ := h
  refine ⟨n, hn, ?_⟩
  split at h
  · rename_i hnone
    exact .inl ⟨hnone, (Option.some.inj h).symm⟩
  · rename_i first hfirst
    simp only [Option.bind_eq_some_iff, Option.some.injEq] at h
    obtain ⟨last, hlast, rfl⟩ := h
    exact .inr ⟨first, last, hfirst, hlast, rfl⟩

/-- What a grant leaves alone. -/
theorem GrantedIn.frame {table : LockTable} (h : GrantedIn s t readBit table s') :
    ∃ table' ns pauses index,
      s' = { s with
        table := table', headTxnList := ns, pauseArray := pauses, indexPauseArray := index } ∧
      ns.map TxnNode.txnId = s.headTxnList.map TxnNode.txnId ∧
      table'.allocated = table.allocated ∧ table'.brk = table.brk ∧
      table'.headLockList = table.headLockList ∧
      ∀ b, ∃ nx, table'.cells b = { table.cells b with nextTxn := nx } := by
  obtain ⟨s₁, ⟨pauses, index, ns, rfl, hns⟩, hinsert⟩ := h
  obtain ⟨n, -, ⟨-, rfl⟩ | ⟨first, last, -, -, rfl⟩⟩ := insertSameTxnList_cases hinsert
  · refine ⟨table, _, pauses, index, rfl, ?_, rfl, rfl, rfl, fun b => ⟨_, rfl⟩⟩
    exact (map_txnId_updateTxn (by intro _; rfl)).trans hns.ids
  · refine ⟨_, ns, pauses, index, rfl, hns.ids, rfl, rfl, rfl, fun b => ?_⟩
    by_cases hb : b = last
    · subst hb
      exact ⟨_, LockTable.modify_cells_self⟩
    · exact ⟨_, LockTable.modify_cells_of_ne hb⟩

/-- **The outcomes of `insert_file_list`** for the search result `found`, `loc`. -/
inductive RequestSpec (s : Server) (i fl t readBit : Int) (loc : Option Addr) :
    Bool → Server → Outcome → Prop where
  /-- The transaction owns the record that was found. -/
  | held {l : Addr} (hloc : loc = some l) (hown : (s.cell l).parentTxn = t) :
      RequestSpec s i fl t readBit loc true s (.held l)
  /-- No record was found. -/
  | unlocked {s' : Server} (hadm : Admitted s t readBit true)
      (hgrant : GrantedIn s t readBit (s.table.insertUnlocked loc (getFileNode i 0 fl t)) s') :
      RequestSpec s i fl t readBit loc false s' (.granted s.table.brk)
  /-- A shared record of another transaction was found, and the request is shared. -/
  | shared {l : Addr} {table : LockTable} {s' : Server} (hloc : loc = some l)
      (hown : (s.cell l).parentTxn ≠ t) (hmode : (s.cell l).fileMode ≠ 1) (hfl : fl = 0)
      (hadm : Admitted s t readBit false)
      (htable : s.table.insertShared l (getFileNode i 0 fl t) = some table)
      (hgrant : GrantedIn s t readBit table s') :
      RequestSpec s i fl t readBit loc true s' (.granted s.table.brk)
  /-- The first one to wait on the file. -/
  | newNode {l : Addr} (hloc : loc = some l) (hown : (s.cell l).parentTxn ≠ t)
      (hconflict : (s.cell l).fileMode = 1 ∨ fl ≠ 0) (hwait : s.searchWaitList i = none) :
      RequestSpec s i fl t readBit loc true ((s.setWaiting t i fl).insertWaitList i).1
        (.blocked s.nodeBrk)
  /-- Another one waits on the file already. -/
  | oldNode {l : Addr} {w : WaitNode} (hloc : loc = some l) (hown : (s.cell l).parentTxn ≠ t)
      (hconflict : (s.cell l).fileMode = 1 ∨ fl ≠ 0 ∨ findFrom (fun b => (s.cell b).nextSharedRec)
        (fun b => (s.cell b).parentTxn = 0) (s.table.brk + 1) (some l) = some none)
      (hwait : s.searchWaitList i = some w) :
      RequestSpec s i fl t readBit loc true ((s.setWaiting t i fl).updateWaitList w.node).1
        (.blocked w.node)
  /-- Paused or aborted by the check. -/
  | refused {found : Bool} {s' : Server} {out : Outcome} (hs' : SameButPause s s')
      (hout : out = .paused ∨ out = .aborted) : RequestSpec s i fl t readBit loc found s' out

theorem grantShared_spec {l : Addr} (hown : (s.cell l).parentTxn ≠ t)
    (hmode : (s.cell l).fileMode ≠ 1) (hfl : fl = 0)
    (h : s.grantShared i fl t readBit l = some (s', out)) :
    RequestSpec s i fl t readBit (some l) true s' out := by
  simp only [grantShared, Option.bind_eq_bind, Option.bind_eq_some_iff] at h
  obtain ⟨⟨s₁, r⟩, hcheck, h⟩ := h
  obtain ⟨hs₁, hadm⟩ := checkShared_cases hcheck
  split at h
  · rename_i hr
    obtain ⟨_, _, _, rfl, -⟩ := id hs₁
    simp only [Option.bind_eq_some_iff, Option.some.injEq, Prod.mk.injEq] at h
    obtain ⟨table, htable, s₂, hs₂, rfl, rfl⟩ := h
    exact .shared rfl hown hmode hfl (hadm hr) htable ⟨_, hs₁, hs₂⟩
  split at h
  · simp only [Option.some.injEq, Prod.mk.injEq] at h
    obtain ⟨rfl, rfl⟩ := h
    exact .refused hs₁ (.inl rfl)
  · simp only [Option.some.injEq, Prod.mk.injEq] at h
    obtain ⟨rfl, rfl⟩ := h
    exact .refused hs₁ (.inr rfl)

/-- **Inversion of `insert_file_list`**. -/
theorem insertFileList_spec {found : Bool}
    (h : s.insertFileList i fl t readBit found loc = some (s', out)) :
    RequestSpec s i fl t readBit loc found s' out := by
  simp only [insertFileList, Option.bind_eq_bind, Option.bind_eq_some_iff] at h
  obtain ⟨_, -, h⟩ := h
  split at h
  · -- not locked
    rename_i hfound
    subst hfound
    simp only [Option.bind_eq_some_iff] at h
    obtain ⟨⟨s₁, r⟩, hcheck, h⟩ := h
    obtain ⟨hs₁, hadm⟩ := checkUnlocked_cases hcheck
    split at h
    · rename_i hr
      obtain ⟨_, _, _, rfl, -⟩ := id hs₁
      simp only [Option.bind_eq_some_iff, Option.some.injEq, Prod.mk.injEq] at h
      obtain ⟨s₂, hs₂, rfl, rfl⟩ := h
      exact .unlocked (hadm hr) ⟨_, hs₁, hs₂⟩
    split at h
    · simp only [Option.some.injEq, Prod.mk.injEq] at h
      obtain ⟨rfl, rfl⟩ := h
      exact .refused hs₁ (.inl rfl)
    · simp only [Option.some.injEq, Prod.mk.injEq] at h
      obtain ⟨rfl, rfl⟩ := h
      exact .refused hs₁ (.inr rfl)
  · -- locked
    rename_i hfound
    have hfound : found = true := by simpa using hfound
    subst hfound
    simp only [Option.bind_eq_some_iff] at h
    obtain ⟨l, rfl, h⟩ := h
    split at h
    · rename_i hown
      simp only [Option.some.injEq, Prod.mk.injEq] at h
      obtain ⟨rfl, rfl⟩ := h
      -- the caller has the record already
      exact .held rfl hown
    rename_i hown
    split at h
    · -- in exclusive mode
      rename_i hmode
      split at h
      · rename_i hwait
        simp only [Option.some.injEq, Prod.mk.injEq] at h
        obtain ⟨rfl, rfl⟩ := h
        exact .newNode rfl hown (.inl hmode) hwait
      · rename_i w hwait
        simp only [Option.some.injEq, Prod.mk.injEq] at h
        obtain ⟨rfl, rfl⟩ := h
        exact .oldNode rfl hown (.inl hmode) hwait
    · -- in shared mode
      rename_i hmode
      split at h
      · rename_i hwait
        split at h
        · rename_i hfl
          exact grantShared_spec hown hmode hfl h
        · rename_i hfl
          simp only [Option.some.injEq, Prod.mk.injEq] at h
          obtain ⟨rfl, rfl⟩ := h
          -- an exclusive request waits for a shared record
          exact .newNode rfl hown (.inr hfl) hwait
      · rename_i w hwait
        simp only [Option.bind_eq_some_iff] at h
        -- somebody waits already: only a record of the backup lets a reader in
        obtain ⟨filePtr, hfind, h⟩ := h
        split at h
        · rename_i hfl
          exact grantShared_spec hown hmode hfl.2 h
        · rename_i hnot
          simp only [Option.some.injEq, Prod.mk.injEq] at h
          obtain ⟨rfl, rfl⟩ := h
          refine .oldNode rfl hown (.inr ?_) hwait
          by_cases hfl : fl = 0
          · right
            have hnone : filePtr = none := by
              by_contra hne
              exact hnot ⟨hne, hfl⟩
            exact hnone ▸ hfind
          · exact .inl hfl

/-! ## The caller -/

/-- What the caller of `insert_file_list` does with its record touches descriptors and
    handles only, and its thread goes on. -/
theorem afterLock_spec (s : Server) (t : Int) (use : LockUse) (loc : Option Addr) (a : Addr) :
    ∃ table handles st, s.afterLock t use loc a =
        { s with table := table, handles := handles, thread := Function.update s.thread t st } ∧
      s.table.SameLinks table ∧ (st = .running ∨ st = .aborting) := by
  unfold afterLock
  cases use with
  | «open» found =>
    have hopen : ∃ handles fd, s.trFileOpen t found = ({ s with handles := handles }, fd) := by
      unfold trFileOpen
      split
      · exact ⟨_, _, rfl⟩
      · exact ⟨_, _, rfl⟩
    obtain ⟨handles, fd, hopen⟩ := hopen
    simp only [hopen]
    split
    · exact ⟨_, handles, .aborting, rfl, .refl _, .inr rfl⟩
    · exact ⟨_, handles, .running, rfl, LockTable.sameLinks_modify fun c => ⟨_, _, _, rfl⟩,
        .inl rfl⟩
  | placeholder =>
    exact ⟨_, s.handles, .running, rfl, LockTable.sameLinks_modify fun c => ⟨_, _, _, rfl⟩,
      .inl rfl⟩
  | renameParent =>
    dsimp only
    split
    · exact ⟨_, s.handles, .running, rfl, LockTable.sameLinks_modify fun c => ⟨_, _, _, rfl⟩,
        .inl rfl⟩
    · exact ⟨_, s.handles, .running, rfl, .refl _, .inl rfl⟩
  | keep => exact ⟨_, s.handles, .running, rfl, .refl _, .inl rfl⟩
  | host fd =>
    exact ⟨_, s.handles, .running, rfl, LockTable.sameLinks_modify fun c => ⟨_, _, _, rfl⟩,
      .inl rfl⟩

/-- **Inversion of a request**: the search, the outcome, and what the thread does next. -/
theorem requestLock_cases {req : LockRequest} {first : Option (Option Addr)}
    (h : s.requestLock t req first readBit = some s') :
    ∃ found loc s₁ out, s.table.searchFileList req.inode = some (found, loc) ∧
      RequestSpec s req.inode req.flags t readBit loc found s₁ out ∧
      ((∃ a, (out = .granted a ∨ out = .held a) ∧
          s' = s₁.afterLock t req.use (first.getD loc) a) ∨
        (∃ node, out = .blocked node ∧
          s' = s₁.setThread t (.parked ⟨req, first.getD loc⟩ node false)) ∨
        (out = .paused ∧ s' = s₁.setThread t (.resuming ⟨req, first.getD loc⟩)) ∨
        (out = .aborted ∧ s' = s₁.setThread t .aborting)) := by
  simp only [requestLock, Option.bind_eq_bind, Option.bind_eq_some_iff] at h
  obtain ⟨⟨found, loc⟩, hsearch, ⟨s₁, out⟩, hinsert, h⟩ := h
  refine ⟨found, loc, s₁, out, hsearch, insertFileList_spec hinsert, ?_⟩
  cases out with
  | granted a => exact .inl ⟨a, .inl rfl, (Option.some.inj h).symm⟩
  | held a => exact .inl ⟨a, .inr rfl, (Option.some.inj h).symm⟩
  | blocked node => exact .inr (.inl ⟨node, rfl, (Option.some.inj h).symm⟩)
  | paused => exact .inr (.inr (.inl ⟨rfl, (Option.some.inj h).symm⟩))
  | aborted => exact .inr (.inr (.inr ⟨rfl, (Option.some.inj h).symm⟩))

/-- Only a live transaction gets an answer. -/
theorem requestLock_live {req : LockRequest} {first : Option (Option Addr)}
    (h : s.requestLock t req first readBit = some s') :
    t ∈ s.headTxnList.map TxnNode.txnId := by
  simp only [requestLock, insertFileList, Option.bind_eq_bind, Option.bind_eq_some_iff] at h
  obtain ⟨_, -, _, ⟨n, hn, -⟩, -⟩ := h
  exact List.mem_map.mpr ⟨n, searchTxn_mem hn, searchTxn_id hn⟩

end Server

end TxFS
