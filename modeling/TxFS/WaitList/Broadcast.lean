import TxFS.WaitList.Invariant

/-!
# Release Broadcasts and Deadlock Victims

One condition variable carries two messages, "the file is free" and "look for the deadlock
victim", and a waiter tells them apart by `txnid_abort` when it finally runs. A release
broadcast is heard when no mark stands on the node of a file that has no lock record. A mark
stands there when the last record goes while its node is marked, or when the detector marks
the node of a file without records: it decides on the victim in an earlier critical section.
-/

namespace TxFS

open GuardedRun

/-- The event releases the record `c`. -/
def Event.FreesRecord (c : FileLock) : Event → Prop
  | .commit t | .abort t => c.parentTxn = t
  | .releaseByBackup i => c.parentTxn = 0 ∧ c.fileInode = i
  | _ => False

instance (c : FileLock) (e : Event) : Decidable (e.FreesRecord c) :=
  match e with
  | .commit _ | .abort _ => inferInstanceAs (Decidable (_ = _))
  | .releaseByBackup _ => inferInstanceAs (Decidable (_ ∧ _))
  | .begin _ | .lock .. | .resume .. | .wake _ | .leaveAsVictim _ | .call .. | .endBackup
  | .markVictim .. | .setBackup _ => isFalse id

namespace WaitQueue

variable {q q' : WaitQueue}

/-- **Only the detector marks**: a marked node was marked before, or it is the one that the
    detector has found by its inode. -/
theorem step_marked {op : WaitOp} (h : Counted q) (hstep : q.step op = some q') {w' : WaitNode}
    (hw' : w' ∈ q'.nodes) (hmark : w'.txnidAbort ≠ -1) :
    (∃ w ∈ q.nodes, w.fileInode = w'.fileInode ∧ w.txnidAbort ≠ -1) ∨
      ∃ t, op = .mark w'.fileInode t := by
  -- assignments that set no mark, followed by a filter
  have hkeep : ∀ {f : WaitNode → WaitNode} {node : Nat} {v' : WaitNode} {q₁ : WaitQueue},
      (∀ w, (f w).fileInode = w.fileInode ∧ ((f w).txnidAbort ≠ -1 → w.txnidAbort ≠ -1)) →
      v' ∈ (q₁.setNode node f).nodes → v'.txnidAbort ≠ -1 →
      ∃ v ∈ q₁.nodes, v.fileInode = v'.fileInode ∧ v.txnidAbort ≠ -1 := by
    intro f node v' q₁ hf hv' hm
    obtain ⟨v, hv, rfl⟩ := List.mem_map.mp hv'
    split at hm
    · rename_i hn
      rw [if_pos hn]
      exact ⟨v, hv, (hf v).1.symm, (hf v).2 hm⟩
    · rename_i hn
      rw [if_neg hn]
      exact ⟨v, hv, rfl, hm⟩
  have hdepart : ∀ {node : Nat} {t : Int} {v' : WaitNode} {q₁ : WaitQueue},
      v' ∈ (q₁.depart node t).nodes → v'.txnidAbort ≠ -1 →
      ∃ v ∈ q₁.nodes, v.fileInode = v'.fileInode ∧ v.txnidAbort ≠ -1 := by
    intro node t v' q₁ hv' hm
    exact hkeep (by intro w; exact ⟨rfl, id⟩) (List.mem_filter.mp hv').1 hm
  have hcount : ∀ w, (countWoken w).fileInode = w.fileInode ∧
      ((countWoken w).txnidAbort ≠ -1 → w.txnidAbort ≠ -1) := fun w => ⟨rfl, id⟩
  have hunmark : ∀ w, (unmark w).fileInode = w.fileInode ∧
      ((unmark w).txnidAbort ≠ -1 → w.txnidAbort ≠ -1) := fun w => ⟨rfl, fun h => absurd rfl h⟩
  cases op with
  | enter t i m =>
    left
    simp only [step] at hstep
    split at hstep
    · split at hstep
      · cases hstep
        -- a new node carries no mark
        rcases List.mem_cons.mp ((Server.insertWaitNode_perm _ _).mem_iff.mp hw') with rfl | hw'
        · exact absurd rfl hmark
        · exact ⟨w', hw', rfl, hmark⟩
      · -- an old node is joined, its mark stays
        cases hstep
        exact hkeep (by intro w; exact ⟨rfl, id⟩) hw' hmark
    · cases hstep
  | wake t =>
    left
    simp only [step, Option.bind_eq_bind, Option.bind_eq_some_iff] at hstep
    obtain ⟨p, -, w, -, hstep⟩ := hstep
    split at hstep
    · cases hstep
    split at hstep
    · cases hstep
      exact hkeep hcount hw' hmark
    split at hstep
    · cases hstep
      exact hdepart hw' hmark
    split at hstep
    · cases hstep
      -- the mark is taken off, then the node may go
      obtain ⟨v, hv, hvi, hvm⟩ := hdepart hw' hmark
      obtain ⟨v₁, hv₁, hvi₁, hvm₁⟩ := hkeep hunmark hv hvm
      obtain ⟨v₂, hv₂, hvi₂, hvm₂⟩ := hkeep hcount hv₁ hvm₁
      exact ⟨v₂, hv₂, hvi₂.trans (hvi₁.trans hvi), hvm₂⟩
    · cases hstep
      exact hkeep hcount hw' hmark
  | leave t =>
    left
    simp only [step, Option.bind_eq_bind, Option.bind_eq_some_iff] at hstep
    obtain ⟨p, -, w, -, hstep⟩ := hstep
    split at hstep
    · cases hstep
      obtain ⟨v, hv, hvi, hvm⟩ := hdepart hw' hmark
      obtain ⟨v₁, hv₁, hvi₁, hvm₁⟩ := hkeep hunmark hv hvm
      exact ⟨v₁, hv₁, hvi₁.trans hvi, hvm₁⟩
    · cases hstep
  | mark i t =>
    simp only [step, Option.bind_eq_bind, Option.bind_eq_some_iff] at hstep
    obtain ⟨w, hw, hstep⟩ := hstep
    cases hstep
    obtain ⟨hmem, hwi⟩ := find_inode_some hw
    obtain ⟨v, hv, rfl⟩ := List.mem_map.mp hw'
    by_cases hvw : v.node = w.node
    · -- the node of the inode
      right
      have heq : v = w := List.inj_on_of_nodup_map h.nodes hv hmem hvw
      rw [if_pos hvw, heq]
      exact ⟨t, by rw [hwi]⟩
    · left
      rw [if_neg hvw] at hmark ⊢
      exact ⟨v, hv, rfl, hmark⟩

end WaitQueue

namespace Server

variable {s s' : Server} {t i : Int} {e : Event}

/-! ## The condition -/

/-- The file has a lock record. -/
def HasRecord (s : Server) (i : Int) : Prop := ∃ a ∈ s.table.allocated, (s.cell a).fileInode = i

instance (s : Server) (i : Int) : Decidable (s.HasRecord i) :=
  inferInstanceAs (Decidable (∃ a ∈ s.table.allocated, _))

/-- The event releases the last records of the file. -/
def FreesLast (s : Server) (e : Event) (i : Int) : Prop :=
  s.HasRecord i ∧ ∀ a ∈ s.table.allocated, (s.cell a).fileInode = i → e.FreesRecord (s.cell a)

instance (s : Server) (e : Event) (i : Int) : Decidable (s.FreesLast e i) :=
  inferInstanceAs (Decidable (_ ∧ ∀ a ∈ s.table.allocated, _))

/-- The file of a mark has a record. -/
def MarksLocked (s : Server) : Event → Prop
  | .markVictim i _ => s.HasRecord i
  | _ => True

instance (s : Server) (e : Event) : Decidable (s.MarksLocked e) :=
  match e with
  | .markVictim i _ => inferInstanceAs (Decidable (s.HasRecord i))
  | .begin _ | .lock .. | .resume .. | .wake _ | .leaveAsVictim _ | .call .. | .commit _
  | .abort _ | .releaseByBackup _ | .endBackup | .setBackup _ => isTrue trivial

/-- **The condition**: the last records of a file are released only while its wait node is
    not marked, and the detector marks the nodes of locked files only. -/
def BroadcastHeard (s : Server) (e : Event) : Prop :=
  (∀ w ∈ s.headWaitList, s.FreesLast e w.fileInode → w.txnidAbort = -1) ∧ s.MarksLocked e

instance (s : Server) (e : Event) : Decidable (s.BroadcastHeard e) :=
  inferInstanceAs (Decidable ((∀ w ∈ s.headWaitList, _) ∧ _))

/-! ## Records that are not released -/

/-- A step keeps the records it does not release. -/
theorem step_keeps (hs : Owned s.table s.headTxnList) (h : s.step e = some s') {a : Addr}
    (ha : a ∈ s.table.allocated) (hnot : ¬ e.FreesRecord (s.cell a)) :
    a ∈ s'.table.allocated ∧ (s'.cell a).fileInode = (s.cell a).fileInode := by
  have hframe := step_frame hs h
  have hkept : ¬ e.Releases (s.cell a).parentTxn →
      a ∈ s'.table.allocated ∧ (s'.cell a).fileInode = (s.cell a).fileInode := by
    intro hrel
    have ha' := hframe.kept a ha hrel
    exact ⟨ha', (hframe.fields a ha ha').1⟩
  cases step_spec h with
  | commit => exact hkept fun hrel => hnot hrel.symm
  | abort => exact hkept fun hrel => hnot hrel.symm
  | releaseByBackup hthread hrel =>
    -- the backup frees one record, and that is a record of the file
    obtain ⟨l, b, hi, hfree⟩ := releaseLocksByBackup_spec hs hrel
    have hba : a ≠ b := by
      intro hab
      subst hab
      exact hnot ⟨hfree.mem.2, hi⟩
    have hfreed := hfree.frame hs
    exact ⟨(hfreed.mem a).mpr ⟨hba, ha⟩, (hfreed.fields a hba).1⟩
  | _ => exact hkept id

/-! ## The invariant -/

/-- A marked node belongs to a locked file. -/
def MarkedLocked (s : Server) : Prop :=
  ∀ w ∈ s.headWaitList, w.txnidAbort ≠ -1 → s.HasRecord w.fileInode

theorem markedLocked_step (hs : Owned s.table s.headTxnList) (hreg : Registered s)
    (hcount : s.queue.Counted) (h : MarkedLocked s) (hok : s.BroadcastHeard e)
    (hstep : s.step e = some s') : MarkedLocked s' := by
  -- a file whose node was marked keeps a record
  have hrecord : ∀ w ∈ s.headWaitList, w.txnidAbort ≠ -1 → s'.HasRecord w.fileInode := by
    intro w hw hmark
    by_contra hnone
    apply hmark
    apply hok.1 w hw
    refine ⟨h w hw hmark, ?_⟩
    intro a ha hi
    by_contra hnot
    obtain ⟨ha', hi'⟩ := step_keeps hs hstep ha hnot
    exact hnone ⟨a, ha', hi'.trans hi⟩
  intro w' hw' hmark
  rcases step_queue hs hreg hstep with hq | ⟨op, hop, hq⟩
  · have hlist : s'.headWaitList = s.headWaitList := congrArg WaitQueue.nodes hq
    exact hrecord w' (hlist ▸ hw') hmark
  · rcases WaitQueue.step_marked hcount hq hw' hmark with ⟨w, hw, hwi, hwm⟩ | ⟨t, rfl⟩
    · exact hwi ▸ hrecord w hw hwm
    · -- the mark of the detector
      have he : e = .markVictim w'.fileInode t := by
        cases e with
        | markVictim i u =>
          cases hop
          rfl
        | wake u => cases hop
        | leaveAsVictim u => cases hop
        | lock u req b => cases hop
        | resume u b =>
          obtain ⟨r, -, hr⟩ := Option.map_eq_some_iff.mp hop
          cases hr
        | _ => cases hop
      subst he
      obtain ⟨a, ha, hi⟩ := hok.2
      obtain ⟨ha', hi'⟩ := step_keeps hs hstep ha id
      exact ⟨a, ha', hi'.trans hi⟩

theorem markedLocked_of_reachable {handles : Nat}
    (h : ReachableUnder (globalInit handles) step BroadcastHeard s) : MarkedLocked s := by
  refine h.invariant (P := MarkedLocked) ?_ ?_
  · intro w hw
    cases hw
  · intro s e s' hs hm hok hstep
    exact markedLocked_step (owned_of_reachable hs) (registered_of_reachable hs)
      (counted_of_reachable hs) hm hok hstep

/-! ## Waking up -/

/-- **A release broadcast is heard**: a thread that is parked for a file without lock records
    can wake up, and it leaves the wait list to retry its request. -/
theorem broadcast_heard {handles : Nat}
    (h : ReachableUnder (globalInit handles) step BroadcastHeard s) {p : Pending} {node : Nat}
    {woken : Bool} (ht : s.thread t = .parked p node woken) (hfree : ¬ s.HasRecord p.req.inode) :
    ∃ s', s.step (.wake t) = some s' ∧ s'.thread t = .resuming p ∧ s'.queue.place t = none := by
  have hcount := counted_of_reachable h
  have hreg := registered_of_reachable h t
  unfold RegisteredThread at hreg
  rw [ht] at hreg
  obtain ⟨w, hw, hwn, hwi⟩ := hcount.referred t _ (congrArg (TxFS.ThreadState.place _) ht)
  have hinode : w.fileInode = p.req.inode := hwi.trans (congrArg Prod.fst hreg.2)
  -- so the node carries no mark
  have hunmarked : w.txnidAbort = -1 := by
    by_contra hmark
    exact hfree (hinode ▸ markedLocked_of_reachable h w hw hmark)
  have hfind : (s.headWaitList.find? fun v => v.node = node) = some w := by
    have hfind := hcount.find_node hw
    rw [hwn] at hfind
    exact hfind
  have hwake : s.step (.wake t) =
      some (((s.updateWaitListOnWake node).setRunning t).setThread t (.resuming p)) := by
    simp only [step, ht, afterCondWait, hfind, Option.bind_eq_bind, Option.bind_some]
    simp [hunmarked]
  refine ⟨_, hwake, Function.update_self .., ?_⟩
  have hthread : (((s.updateWaitListOnWake node).setRunning t).setThread t (.resuming p)).thread t
      = .resuming p := Function.update_self ..
  exact congrArg (TxFS.ThreadState.place _) hthread

/-- A victim is marked, leaves, and the release of the file is heard by the other waiter. -/
theorem broadcast_heard_after_victim :
    ∃ s, ReachableUnder (globalInit 1) step BroadcastHeard s ∧
      s.thread 3 = .parked ⟨⟨7, 2, .placeholder⟩, some 0⟩ 0 true ∧
      ∃ s', s.step (.wake 3) = some s' ∧ s'.thread 3 = .resuming ⟨⟨7, 2, .placeholder⟩, some 0⟩ ∧
        s'.queue.place 3 = none := by
  obtain ⟨s, hs, ht, hfree⟩ := exists_of_runUnder (globalInit 1) step BroadcastHeard
    (fun s => s.thread 3 = .parked ⟨⟨7, 2, .placeholder⟩, some 0⟩ 0 true ∧ ¬ s.HasRecord 7)
    [.begin 1, .begin 2, .begin 3, .lock 1 ⟨7, 2, .placeholder⟩ 0, .lock 2 ⟨7, 2, .placeholder⟩ 0,
      .lock 3 ⟨7, 2, .placeholder⟩ 0, .markVictim 7 2, .wake 2, .wake 3, .leaveAsVictim 2, .abort 2,
      .commit 1] (by decide)
  exact ⟨s, hs, ht, broadcast_heard hs ht hfree⟩

/-- Transactions 1 and 2 wait for each other, and 3 waits for inode 7 of transaction 2, too.
    Transaction 1 is the victim; before it leaves, the detector has looked again, and it marks
    the node a second time. The release of inode 7 then sends 3 back to sleep. -/
theorem broadcast_swallowed :
    ∃ s s' p, Reachable (globalInit 1) step s ∧ s.thread 3 = .parked p 1 true ∧
      ¬ s.HasRecord p.req.inode ∧ s.step (.wake 3) = some s' ∧ s'.thread 3 = .parked p 1 false := by
  obtain ⟨s, hs, ht, hfree, hwake⟩ := exists_of_run (globalInit 1) step
    (fun s => s.thread 3 = .parked ⟨⟨7, 2, .placeholder⟩, some 1⟩ 1 true ∧ ¬ s.HasRecord 7 ∧
      ((s.step (.wake 3)).any fun s' =>
        s'.thread 3 = .parked ⟨⟨7, 2, .placeholder⟩, some 1⟩ 1 false) = true)
    [.begin 1, .begin 2, .begin 3, .lock 1 ⟨8, 2, .placeholder⟩ 0, .lock 2 ⟨7, 2, .placeholder⟩ 0,
      .lock 2 ⟨8, 2, .placeholder⟩ 0, .lock 1 ⟨7, 2, .placeholder⟩ 0,
      .lock 3 ⟨7, 2, .placeholder⟩ 0, .markVictim 7 1, .wake 1, .wake 3, .leaveAsVictim 1,
      .markVictim 7 1, .wake 3, .abort 1, .wake 2, .resume 2 0, .commit 2] (by decide)
  obtain ⟨s', hstep, hs'⟩ := (Option.any_eq_true ..).mp hwake
  exact ⟨s, s', _, hs, ht, hfree, hstep, of_decide_eq_true hs'⟩

end Server

end TxFS
