import TxFS.Server.Machine
import TxFS.Table.Search

/-!
# What the Critical Sections Leave Alone

Most assignments of the server do not concern the lists of the lock manager: descriptors,
offsets and write lists (`SameLinks`), and the fields of a transaction other than its first
record and its serialization (`SameHeads`). This module names the two relations and says
which functions stay inside them.
-/

namespace TxFS

open LinkedPath

/-! ## Tables with the same links -/

/-- `t'` differs from `t` only in descriptors, offsets and write lists. -/
structure LockTable.SameLinks (t t' : LockTable) : Prop where
  allocated : t'.allocated = t.allocated
  brk : t'.brk = t.brk
  head : t'.headLockList = t.headLockList
  cells : ∀ b, ∃ fd off ws,
    t'.cells b = { t.cells b with fd := fd, fileOffset := off, writesAt := ws }

namespace LockTable

variable {t t' t'' : LockTable}

theorem SameLinks.refl (t : LockTable) : SameLinks t t := ⟨rfl, rfl, rfl, fun _ => ⟨_, _, _, rfl⟩⟩

theorem SameLinks.trans (h : SameLinks t t') (h' : SameLinks t' t'') : SameLinks t t'' where
  allocated := h'.allocated.trans h.allocated
  brk := h'.brk.trans h.brk
  head := h'.head.trans h.head
  cells := fun b => by
    obtain ⟨fd, off, ws, hb⟩ := h.cells b
    obtain ⟨fd', off', ws', hb'⟩ := h'.cells b
    exact ⟨fd', off', ws', by rw [hb', hb]⟩

/-- An assignment to a descriptor, an offset or a write list. -/
theorem sameLinks_modify {a : Addr} {f : FileLock → FileLock}
    (hf : ∀ c, ∃ fd off ws, f c = { c with fd := fd, fileOffset := off, writesAt := ws }) :
    SameLinks t (t.modify a f) where
  allocated := rfl
  brk := rfl
  head := rfl
  cells := fun b => by
    by_cases hb : b = a
    · subst hb
      rw [modify_cells_self]
      exact hf _
    · rw [modify_cells_of_ne hb]
      exact ⟨_, _, _, rfl⟩

theorem SameLinks.inode (h : SameLinks t t') (b : Addr) : t'.inode b = t.inode b := by
  obtain ⟨_, _, _, hb⟩ := h.cells b
  rw [LockTable.inode, hb]
  rfl

theorem SameLinks.parentTxn (h : SameLinks t t') (b : Addr) :
    (t'.cells b).parentTxn = (t.cells b).parentTxn := by
  obtain ⟨_, _, _, hb⟩ := h.cells b
  rw [hb]

theorem SameLinks.nextTxn (h : SameLinks t t') (b : Addr) :
    (t'.cells b).nextTxn = (t.cells b).nextTxn := by
  obtain ⟨_, _, _, hb⟩ := h.cells b
  rw [hb]

theorem WellLinked.sameLinks {xs : List Addr} (h : WellLinked t xs) (hs : SameLinks t t') :
    WellLinked t' xs := by
  refine h.congr hs.allocated hs.brk hs.head (fun b => ?_) fun b => ?_
  · obtain ⟨_, _, _, hb⟩ := hs.cells b
    simp [hb]
  · obtain ⟨_, _, _, hb⟩ := hs.cells b
    simp [hb]

end LockTable

/-! ## Transactions with the same records -/

/-- What the lock lists and the serializability check keep in a transaction. -/
def TxnNode.key (n : TxnNode) : Int × Option Addr × Int := (n.txnId, n.fileRecNo, n.beforeAfter)

/-- The two lists differ only in states, waits and log positions. -/
def SameHeads (ns ns' : List TxnNode) : Prop := ns'.map TxnNode.key = ns.map TxnNode.key

section

variable {ns ns' ns'' : List TxnNode} {t : Int}

theorem SameHeads.refl (ns : List TxnNode) : SameHeads ns ns := rfl

theorem sameHeads_updateTxn {f : TxnNode → TxnNode} (hf : ∀ n, (f n).key = n.key) :
    SameHeads ns (updateTxn t f ns) := by
  induction ns with
  | nil => rfl
  | cons n ns ih =>
    by_cases hn : n.txnId = t
    · simp [SameHeads, updateTxn, hn, hf]
    · simpa [SameHeads, updateTxn, hn] using ih

theorem SameHeads.ids (h : SameHeads ns ns') :
    ns'.map TxnNode.txnId = ns.map TxnNode.txnId := by
  have := congrArg (List.map Prod.fst) h
  simpa [List.map_map, Function.comp_def, TxnNode.key] using this

theorem SameHeads.search (h : SameHeads ns ns') :
    (searchTxn t ns').map TxnNode.key = (searchTxn t ns).map TxnNode.key := by
  unfold SameHeads at h
  induction ns generalizing ns' with
  | nil =>
    have hnil : ns' = [] := by simpa using h
    simp [hnil]
  | cons n ns ih =>
    cases ns' with
    | nil => simp at h
    | cons n' ns' =>
      simp only [List.map_cons, List.cons.injEq] at h
      have hid : n'.txnId = n.txnId := congrArg Prod.fst h.1
      have ih' := ih h.2
      by_cases hn : n.txnId = t
      · simp [searchTxn, hid, hn, h.1]
      · simpa [searchTxn, hid, hn] using ih'

/-- What the search finds in a list with the same records. -/
theorem SameHeads.search_some (h : SameHeads ns ns') {n' : TxnNode}
    (hn' : searchTxn t ns' = some n') : ∃ n, searchTxn t ns = some n ∧ n.key = n'.key := by
  have hs := h.search (t := t)
  rw [hn'] at hs
  simpa using hs.symm

end

/-! ## The serializability check -/

namespace Server

variable {s s' s₁ : Server} {t readBit r : Int}

/-- The check only moves the pause array and the state of the transaction. -/
def SameButPause (s s' : Server) : Prop :=
  ∃ pauses index ns, s' = { s with pauseArray := pauses, indexPauseArray := index,
                                   headTxnList := ns } ∧ SameHeads s.headTxnList ns

theorem SameButPause.refl (s : Server) : SameButPause s s := ⟨_, _, _, rfl, rfl⟩

theorem pause_sameButPause : SameButPause s (s.pause t).1 := by
  unfold pause
  dsimp only
  split
  · split
    · exact SameButPause.refl s
    · exact ⟨_, _, _, rfl, sameHeads_updateTxn fun _ => rfl⟩
  · exact ⟨_, _, _, rfl, sameHeads_updateTxn fun _ => rfl⟩

theorem pause_ret : (s.pause t).2 = 0 ∨ (s.pause t).2 = -1 := by
  unfold pause
  dsimp only
  split
  · split
    · exact .inr rfl
    · exact .inl rfl
  · exact .inl rfl

/-- **The check**: it lets the transaction lock the file only when it owns no file yet or
    the read bit agrees with its serialization. -/
theorem mutuallySerializable_cases (h : s.mutuallySerializable t readBit = some (s', r)) :
    SameButPause s s' ∧ ((r = 0 ∨ r = -1) ∨ r = 1 ∧ ∃ n, searchTxn t s.headTxnList = some n ∧
      (n.fileRecNo = none ∨ readBit = n.beforeAfter)) := by
  simp only [mutuallySerializable, Option.bind_eq_bind, Option.bind_eq_some_iff] at h
  obtain ⟨n, hn, h⟩ := h
  split at h
  · rename_i hnone
    simp only [Option.some.injEq, Prod.mk.injEq] at h
    obtain ⟨rfl, rfl⟩ := h
    exact ⟨SameButPause.refl s, .inr ⟨rfl, n, hn, .inl hnone⟩⟩
  split at h
  · rename_i hbit
    simp only [Option.some.injEq, Prod.mk.injEq] at h
    obtain ⟨rfl, rfl⟩ := h
    exact ⟨⟨_, _, _, rfl, rfl⟩, .inr ⟨rfl, n, hn, .inr hbit⟩⟩
  split at h
  · simp only [Option.some.injEq] at h
    have hr : r = (s.pause t).2 := by rw [h]
    have hs' : s' = (s.pause t).1 := by rw [h]
    subst hr hs'
    exact ⟨pause_sameButPause, .inl pause_ret⟩
  · simp only [Option.some.injEq, Prod.mk.injEq] at h
    obtain ⟨rfl, rfl⟩ := h
    exact ⟨SameButPause.refl s, .inl (.inr rfl)⟩

/-! ## Delayed updates -/

/-- Only the table is replaced, by one with the same links. -/
def SameButData (s s' : Server) : Prop :=
  ∃ table, s' = { s with table := table } ∧ s.table.SameLinks table

theorem SameButData.refl (s : Server) : SameButData s s := ⟨_, rfl, .refl _⟩

theorem SameButData.trans {s'' : Server} (h : SameButData s s') (h' : SameButData s' s'') :
    SameButData s s'' := by
  obtain ⟨table, rfl, hl⟩ := h
  obtain ⟨table', rfl, hl'⟩ := h'
  exact ⟨table', rfl, hl.trans hl'⟩

theorem modifyCell_sameButData {a : Addr} {f : FileLock → FileLock}
    (hf : ∀ c, ∃ fd off ws, f c = { c with fd := fd, fileOffset := off, writesAt := ws }) :
    SameButData s (s.modifyCell a f) := ⟨_, rfl, LockTable.sameLinks_modify hf⟩

theorem delayedRename_sameButData {a : Addr} {w : WriteRecord} {acts : List Act}
    (h : s.delayedRename a w = some (s', acts)) : SameButData s s' := by
  simp only [delayedRename, Option.bind_eq_bind, Option.bind_eq_some_iff] at h
  obtain ⟨call, -, h⟩ := h
  split at h
  · simp only [Option.bind_eq_some_iff, Option.some.injEq, Prod.mk.injEq] at h
    obtain ⟨_, -, b, -, rfl, -⟩ := h
    exact modifyCell_sameButData fun c => ⟨_, _, _, rfl⟩
  · simp only [Option.some.injEq, Prod.mk.injEq] at h
    exact h.1 ▸ SameButData.refl s

theorem delayedUpdateOne_sameButData {a : Addr} {w : WriteRecord} {acts : List Act}
    (h : s.delayedUpdateOne a w = some (s', acts)) : SameButData s s' := by
  unfold delayedUpdateOne at h
  split at h
  · exact delayedRename_sameButData h
  split at h
  · simp only [Option.map_eq_some_iff, Prod.mk.injEq] at h
    obtain ⟨_, -, rfl, -⟩ := h
    exact SameButData.refl s
  split at h
  · simp only [Option.map_eq_some_iff, Prod.mk.injEq] at h
    obtain ⟨_, -, rfl, -⟩ := h
    exact SameButData.refl s
  · simp only [Option.some.injEq, Prod.mk.injEq] at h
    exact h.1 ▸ SameButData.refl s

theorem delayedUpdateLoop_sameButData {n : Nat} {a : Addr} {acts : List Act}
    (h : delayedUpdateLoop n s a = some (s', acts)) : SameButData s s' := by
  induction n generalizing s acts with
  | zero =>
    rw [delayedUpdateLoop] at h
    split at h
    · simp only [Option.some.injEq, Prod.mk.injEq] at h
      exact h.1 ▸ SameButData.refl s
    · cases h
  | succ n ih =>
    rw [delayedUpdateLoop] at h
    split at h
    · simp only [Option.some.injEq, Prod.mk.injEq] at h
      exact h.1 ▸ SameButData.refl s
    · rename_i w ws hws
      simp only [Option.bind_eq_bind, Option.bind_eq_some_iff, Option.some.injEq,
        Prod.mk.injEq] at h
      obtain ⟨⟨s₁, acts₁⟩, h₁, ⟨s₂, acts₂⟩, h₂, rfl, -⟩ := h
      have hone := delayedUpdateOne_sameButData h₁
      exact (hone.trans (modifyCell_sameButData fun c => ⟨_, _, _, rfl⟩)).trans (ih h₂)

/-- What a commit does with a record before releasing it touches write lists only. -/
theorem performWrites_sameButData {a : Addr} {acts : List Act}
    (h : s.performWrites a = some (s', acts)) : SameButData s s' := by
  unfold performWrites at h
  split at h
  · simp only [Option.some.injEq, Prod.mk.injEq] at h
    exact h.1 ▸ SameButData.refl s
  · split at h
    · split at h
      · exact delayedUpdateLoop_sameButData h
      · simp only [Option.some.injEq, Prod.mk.injEq] at h
        exact h.1 ▸ SameButData.refl s
    · simp only [Option.some.injEq, Prod.mk.injEq] at h
      exact h.1 ▸ SameButData.refl s

theorem discardWrites_sameButData {a : Addr} {acts : List Act}
    (h : s.discardWrites a = some (s', acts)) : SameButData s s' := by
  simp only [discardWrites, Option.some.injEq, Prod.mk.injEq] at h
  exact h.1 ▸ SameButData.refl s

/-! ## Critical sections without lock lists -/

theorem afterCondWait_frame {p : Pending} {node : Nat} (h : s.afterCondWait t p node = some s') :
    s'.table = s.table ∧ SameHeads s.headTxnList s'.headTxnList := by
  simp only [afterCondWait, Option.bind_eq_bind, Option.bind_eq_some_iff] at h
  obtain ⟨w, -, h⟩ := h
  split at h
  · cases h
    exact ⟨rfl, rfl⟩
  split at h
  · cases h
    exact ⟨rfl, sameHeads_updateTxn fun _ => rfl⟩
  split at h
  · cases h
    exact ⟨rfl, rfl⟩
  · cases h
    exact ⟨rfl, rfl⟩

theorem logEvent_frame {c : NsCall} {pos : Addr} {newPos : Option Addr}
    (h : s.logEvent t c pos newPos = some s') :
    s.table.SameLinks s'.table ∧ SameHeads s.headTxnList s'.headTxnList := by
  unfold logEvent at h
  split at h
  · have hkey : SameHeads s.headTxnList (s.logCall t c).1.headTxnList :=
      sameHeads_updateTxn fun _ => rfl
    have hone : ∀ (s₁ : Server) (b : Addr) (w : WriteRecord), s₁.table = s.table →
        s.table.SameLinks (s₁.addWriteRecord b w).table := fun s₁ b w hs₁ => by
      rw [addWriteRecord, modifyCell, hs₁]
      exact LockTable.sameLinks_modify fun _ => ⟨_, _, _, rfl⟩
    cases c with
    | rename oldpath newpath =>
      cases h
      cases newPos with
      | none => exact ⟨hone _ _ _ rfl, hkey⟩
      | some p =>
        exact ⟨(hone (s.logCall t (.rename oldpath newpath)).1 _ _ rfl).trans
          (LockTable.sameLinks_modify fun _ => ⟨_, _, _, rfl⟩), hkey⟩
    | creat path mode =>
      cases h
      exact ⟨hone _ _ _ rfl, hkey⟩
    | unlink path =>
      cases h
      exact ⟨hone _ _ _ rfl, hkey⟩
  · cases h

/-- The log calls touch neither threads nor the wait list. -/
theorem logEvent_threads {c : NsCall} {pos : Addr} {newPos : Option Addr}
    (h : s.logEvent t c pos newPos = some s') :
    s'.thread = s.thread ∧ s'.headWaitList = s.headWaitList ∧ s'.nodeBrk = s.nodeBrk := by
  unfold logEvent at h
  split at h
  · cases c with
    | rename oldpath newpath => cases h; cases newPos <;> exact ⟨rfl, rfl, rfl⟩
    | creat path mode => cases h; exact ⟨rfl, rfl, rfl⟩
    | unlink path => cases h; exact ⟨rfl, rfl, rfl⟩
  · cases h

/-- The events that neither lock nor release anything keep the links and the records of
    every transaction. -/
theorem step_quiet {e : Event} (h : s.step e = some s') :
    match e with
    | .wake _ | .leaveAsVictim _ | .call .. | .markVictim .. | .setBackup _ =>
      s.table.SameLinks s'.table ∧ SameHeads s.headTxnList s'.headTxnList
    | _ => True := by
  cases e with
  | wake t =>
    simp only [step] at h
    split at h
    · obtain ⟨htable, hns⟩ := afterCondWait_frame h
      exact ⟨htable ▸ .refl _, hns⟩
    · cases h
  | leaveAsVictim t =>
    simp only [step] at h
    split at h
    · obtain ⟨_, -, rfl⟩ := afterWakeCond_spec h
      exact ⟨.refl _, rfl⟩
    · cases h
  | call t c pos newPos => exact logEvent_frame h
  | markVictim i t =>
    obtain ⟨_, -, rfl⟩ := markVictim_spec h
    exact ⟨.refl _, rfl⟩
  | setBackup b =>
    cases h
    exact ⟨.refl _, rfl⟩
  | _ => trivial

/-! ## Inversion of a step -/

variable {acts : List Act}

/-- Commit and abort are a release followed by the end of the transaction. -/
theorem onTxnCommit_cases (h : s.onTxnCommit t = some (s', acts)) :
    ∃ s₁, s.releaseLocksOnSuccess t = some (s₁, acts) ∧ s₁.endTxn t 2 = some s' := by
  simp only [onTxnCommit, Option.bind_eq_bind, Option.bind_eq_some_iff, Option.some.injEq,
    Prod.mk.injEq] at h
  obtain ⟨⟨s₁, acts₁⟩, h₁, s₂, h₂, rfl, rfl⟩ := h
  exact ⟨s₁, h₁, h₂⟩

theorem onTxnAbort_cases (h : s.onTxnAbort t = some (s', acts)) :
    ∃ s₁, s.releaseLocksOnAbort t = some (s₁, acts) ∧ s₁.endTxn t 2 = some s' := by
  simp only [onTxnAbort, Option.bind_eq_bind, Option.bind_eq_some_iff, Option.some.injEq,
    Prod.mk.injEq] at h
  obtain ⟨⟨s₁, acts₁⟩, h₁, s₂, h₂, rfl, rfl⟩ := h
  exact ⟨s₁, h₁, h₂⟩

/-- The inversion of the step function, event by event. -/
inductive StepSpec (s : Server) : Event → Server → Prop where
  | begin {t : Int} (hfresh : searchTxn t s.headTxnList = none) : StepSpec s (.begin t)
      { s with
        headTxnList := newTxnInsert t (intOfLong s.logEnd) s.headTxnList
        logEnd := s.logEnd + plainRecordLength
        thread := Function.update s.thread t .running }
  | lock {t readBit : Int} {req : LockRequest} {s' : Server} (hthread : s.thread t = .running)
      (h : s.requestLock t req none readBit = some s') : StepSpec s (.lock t req readBit) s'
  | resume {t readBit : Int} {p : Pending} {s' : Server} (hthread : s.thread t = .resuming p)
      (h : s.requestLock t p.req (some p.loc) readBit = some s') : StepSpec s (.resume t readBit) s'
  | wake {t : Int} {p : Pending} {node : Nat} {woken : Bool} {s' : Server}
      (hthread : s.thread t = .parked p node woken) (h : s.afterCondWait t p node = some s') :
      StepSpec s (.wake t) s'
  | leaveAsVictim {t : Int} {node : Nat} {s' : Server} (hthread : s.thread t = .victim node)
      (h : s.afterWakeCond t node = some s') : StepSpec s (.leaveAsVictim t) s'
  | call {t : Int} {c : NsCall} {pos : Addr} {newPos : Option Addr} {s' : Server}
      (h : s.logEvent t c pos newPos = some s') : StepSpec s (.call t c pos newPos) s'
  | commit {t : Int} {s₁ s' : Server} {acts : List Act} (hthread : s.thread t = .running)
      (hrel : s.releaseLocksOnSuccess t = some (s₁, acts)) (hend : s₁.endTxn t 2 = some s') :
      StepSpec s (.commit t) s'
  | abort {t : Int} {s₁ s' : Server} {acts : List Act}
      (hthread : s.thread t = .running ∨ s.thread t = .aborting)
      (hrel : s.releaseLocksOnAbort t = some (s₁, acts)) (hend : s₁.endTxn t 2 = some s') :
      StepSpec s (.abort t) s'
  | releaseByBackup {i : Int} {s' : Server} {acts : List Act} (hthread : s.thread 0 = .running)
      (hrel : s.releaseLocksByBackup 0 i = some (s', acts)) : StepSpec s (.releaseByBackup i) s'
  | endBackup {s' : Server} (hthread : s.thread 0 = .running)
      (hnone : ∃ n, searchTxn 0 s.headTxnList = some n ∧ n.fileRecNo = none)
      (hend : s.endTxn 0 1 = some s') : StepSpec s .endBackup s'
  | markVictim {i t : Int} {s' : Server} (h : s.markVictim i t = some s') :
      StepSpec s (.markVictim i t) s'
  | setBackup {b : BckState} : StepSpec s (.setBackup b) { s with backup := b }

/-- **Inversion of a step**. -/
theorem step_spec {e : Event} (h : s.step e = some s') : StepSpec s e s' := by
  cases e with
  | begin t =>
    simp only [step, onTxnBeg] at h
    split at h
    · rename_i hfresh
      cases h
      exact .begin hfresh
    · cases h
  | lock t req readBit =>
    simp only [step] at h
    split at h
    · rename_i hthread
      exact .lock hthread h
    · cases h
  | resume t readBit =>
    simp only [step] at h
    split at h
    · rename_i p hthread
      exact .resume hthread h
    · cases h
  | wake t =>
    simp only [step] at h
    split at h
    · rename_i p node woken hthread
      exact .wake hthread h
    · cases h
  | leaveAsVictim t =>
    simp only [step] at h
    split at h
    · rename_i node hthread
      exact .leaveAsVictim hthread h
    · cases h
  | call t c pos newPos => exact .call h
  | commit t =>
    simp only [step] at h
    split at h
    · rename_i hthread
      obtain ⟨⟨s₂, acts⟩, hrun, rfl⟩ := Option.map_eq_some_iff.mp h
      obtain ⟨s₁, hrel, hend⟩ := onTxnCommit_cases hrun
      exact .commit hthread hrel hend
    · cases h
  | abort t =>
    simp only [step] at h
    split at h
    · rename_i hthread
      obtain ⟨⟨s₂, acts⟩, hrun, rfl⟩ := Option.map_eq_some_iff.mp h
      obtain ⟨s₁, hrel, hend⟩ := onTxnAbort_cases hrun
      exact .abort hthread hrel hend
    · cases h
  | releaseByBackup i =>
    simp only [step] at h
    split at h
    · rename_i hthread
      obtain ⟨⟨s₂, acts⟩, hrun, rfl⟩ := Option.map_eq_some_iff.mp h
      exact .releaseByBackup hthread hrun
    · cases h
  | endBackup =>
    simp only [step] at h
    split at h
    · rename_i hthread
      simp only [onBckEnd, Option.bind_eq_bind, Option.bind_eq_some_iff] at h
      obtain ⟨n, hn, h⟩ := h
      split at h
      · rename_i hnone
        exact .endBackup hthread ⟨n, hn, hnone⟩ h
      · cases h
    · cases h
  | markVictim i t => exact .markVictim h
  | setBackup b =>
    cases h
    exact .setBackup

end Server

end TxFS
