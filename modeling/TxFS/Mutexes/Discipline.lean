import TxFS.Mutexes.Calls

/-!
# The Mutex of the Lock Table

A lock request is made with `file_mutex` locked. On its way it is unlocked and locked again in
four files: by the waits and the wake-up in `Wait_list_manager.c`, before a pause or an abort
in `MS_manager.c`, and by `resume`. The callers look at the returned pointer only: with a
record they unlock the mutex, with `NULL` they do not.

Here each of these functions is written with its own branches and its own return value, and
`insert_file_list` reads these values. A list of invocations stands for everything that
happens while a request is under way; a request for which the list is too short has not
returned.
-/

namespace TxFS

open LockOrder

namespace Locking

/-! ## The functions below `insert_file_list` -/

/-- How a call of `mutually_serializable` ends. -/
inductive SerialPath where
  /-- No file has been locked yet, or the read bit agrees: lock the file. -/
  | fits
  /-- The transaction has paused. -/
  | paused
  /-- It has paused too often and is aborted. -/
  | pausedOut (w : Writes)
  /-- It is aborted at once. -/
  | refused (w : Writes)
deriving DecidableEq, Repr

namespace SerialPath

/-- The return value of `mutually_serializable`. -/
def ret : SerialPath → Int
  | fits => 1
  | paused => 0
  | pausedOut _ | refused _ => -1

/-- `mutually_serializable`. The pauses and the aborts give `file_mutex` back first. -/
def ops : SerialPath → Ops
  | fits => mutuallySerializable
  | paused => mutuallySerializable ++ .unlock .file :: briefly .pause
  | pausedOut w => mutuallySerializable ++ .unlock .file :: briefly .pause ++ onTxnAbort w
  | refused w => mutuallySerializable ++ .unlock .file :: onTxnAbort w

end SerialPath

/-- How a call of `insert_wait_list` or `update_wait_list` ends, after the thread has gone back
    to sleep for `others` victims. -/
inductive WaitPath where
  /-- Woken up to resume. -/
  | resumes (others : Nat)
  /-- Woken up as a deadlock victim. -/
  | aborts (others : Nat) (path : VictimPath) (w : Writes)
deriving DecidableEq, Repr

namespace WaitPath

/-- The return value of `insert_wait_list` and `update_wait_list`. -/
def ret : WaitPath → Int
  | resumes _ => 1
  | aborts .. => 0

/-- `insert_wait_list` and `update_wait_list` on the node. -/
def ops (node : Nat) : WaitPath → Ops
  | resumes others => waitOnNode node others ++ [.unlock .file]
  | aborts others path w => waitOnNode node others ++ leaveAsVictim node path ++ onTxnAbort w

end WaitPath

/-! ## Invocations of `insert_file_list` -/

/-- The branch that one invocation of `insert_file_list` takes, with what the functions it
    calls return. -/
inductive Invocation where
  /-- The record found is one of the same transaction. -/
  | held
  /-- The file is not locked and the backup is inactive. -/
  | unchecked
  /-- The file is not locked, or it is locked in shared mode and the request is shared. -/
  | checked (serial : SerialPath)
  /-- The request conflicts with a lock or with the wait list of the file. -/
  | conflict (node : Nat) (wait : WaitPath)
deriving DecidableEq, Repr

/-- What an invocation comes to. -/
inductive Ending where
  /-- `return`, with a record or with `NULL`. -/
  | returns (record : Bool)
  /-- It calls `resume`. -/
  | resumes
deriving DecidableEq, Repr

namespace Invocation

/-- The operations of one invocation: the node of the transaction is looked up first. -/
def ops : Invocation → Ops
  | held => briefly .txn
  | unchecked => briefly .txn ++ insertSameTxnList
  | checked serial =>
    briefly .txn ++ serial.ops ++ if serial.ret = 1 then insertSameTxnList else []
  | conflict node wait => briefly .txn ++ wait.ops node

/-- `ret_MS == 1`: lock the file, `ret_MS == 0`: was paused; `ret_on_wake == 1`: woken up. -/
def ending : Invocation → Ending
  | held | unchecked => .returns true
  | checked serial =>
    if serial.ret = 1 then .returns true
    else if serial.ret = 0 then .resumes
    else .returns false
  | conflict _ wait => if wait.ret = 1 then .resumes else .returns false

end Invocation

/-- A request with the invocations it takes: the operations on the mutexes and whether a
    record is returned. `resume` locks `file_mutex` and calls `insert_file_list` again. -/
def insertFileListRun : List Invocation → Ops × Option Bool
  | [] => ([], none)
  | b :: bs =>
    match b.ending with
    | .returns record => (b.ops, some record)
    | .resumes => (b.ops ++ .lock .file :: (insertFileListRun bs).1, (insertFileListRun bs).2)

/-! ## One function -/

variable {held : Bool} {ops : Ops}

/-- The log functions do not touch `file_mutex`, whatever `fwrite` says. -/
theorem heldAfter_logOutcome (written : Bool) :
    heldAfter .file held (logOutcome written) = some held := by
  cases written <;> cases held <;> rfl

theorem heldAfter_logTxnEnd (written : Bool) :
    heldAfter .file held (logTxnEnd written) = some held := by
  cases written <;> cases held <;> rfl

/-- `on_txn_abort` is called without `file_mutex`, and locks it for the release. -/
theorem heldAfter_onTxnAbort (w : Writes) :
    heldAfter .file false (onTxnAbort w) = some false := by
  have hlog : heldAfter .file false (logTxnAbort w.outcome) = some false :=
    heldAfter_logOutcome w.outcome
  simp only [onTxnAbort, List.append_assoc]
  rw [heldAfter_seq hlog]
  exact heldAfter_logTxnEnd w.last

/-- `mutually_serializable` returns with `file_mutex` exactly when the file may be locked. -/
theorem heldAfter_serial (p : SerialPath) :
    heldAfter .file true p.ops = some (decide (p.ret = 1)) := by
  cases p with
  | fits => rfl
  | paused => rfl
  | pausedOut w => exact heldAfter_onTxnAbort w
  | refused w => exact heldAfter_onTxnAbort w

/-- The loop of the waits gives `file_mutex` back to the thread each time. -/
theorem heldAfter_waitOnNode (node others : Nat) :
    heldAfter .file true (waitOnNode node others) = some true := by
  apply heldAfter_flatten
  intro round hround
  obtain ⟨-, rfl⟩ := List.mem_replicate.mp hround
  rfl

/-- `insert_wait_list` and `update_wait_list` return without `file_mutex`, with 1 or with 0. -/
theorem heldAfter_wait (node : Nat) (p : WaitPath) :
    heldAfter .file true (p.ops node) = some false := by
  cases p with
  | resumes others =>
    rw [WaitPath.ops, heldAfter_seq (heldAfter_waitOnNode node others)]
    rfl
  | aborts others path w =>
    have hleave : heldAfter .file true (leaveAsVictim node path) = some false := by
      cases path with
      | last => rfl
      | waits sleeps => cases sleeps <;> rfl
    rw [WaitPath.ops, List.append_assoc, heldAfter_seq (heldAfter_waitOnNode node others),
      heldAfter_seq hleave]
    exact heldAfter_onTxnAbort w

/-! ## The request -/

/-- An invocation keeps the mutex exactly when it returns a record. -/
theorem heldAfter_invocation (b : Invocation) :
    heldAfter .file true b.ops = some (decide (b.ending = .returns true)) := by
  -- the search for the node of the transaction touches `txn_mutex` only
  have hnode : ∀ ops, heldAfter .file true (briefly .txn ++ ops) = heldAfter .file true ops :=
    fun ops => heldAfter_seq rfl
  cases b with
  | held => rfl
  | unchecked => rfl
  | checked p =>
    rw [Invocation.ops, List.append_assoc, hnode]
    cases p with
    | fits => rfl
    | paused => rfl
    | pausedOut w =>
      simpa [Invocation.ending, SerialPath.ret] using heldAfter_serial (.pausedOut w)
    | refused w => simpa [Invocation.ending, SerialPath.ret] using heldAfter_serial (.refused w)
  | conflict node p =>
    rw [Invocation.ops, hnode]
    cases p with
    | resumes others =>
      simpa [Invocation.ending, WaitPath.ret] using heldAfter_wait node (.resumes others)
    | aborts others path w =>
      simpa [Invocation.ending, WaitPath.ret] using heldAfter_wait node (.aborts others path w)

/-- Behind a request the thread has the mutex exactly if a record was returned; inside of it,
    at the next invocation, it has. -/
theorem heldAfter_run (bs : List Invocation) :
    heldAfter .file true (insertFileListRun bs).1 =
      some ((insertFileListRun bs).2.getD true) := by
  -- induction on the invocations: every further one starts behind the lock of `resume`
  induction bs with
  | nil => rfl
  | cons b bs ih =>
    have hinv := heldAfter_invocation b
    rw [insertFileListRun]
    cases hending : b.ending with
    | returns record =>
      rw [hinv, hending]
      cases record <;> rfl
    | resumes =>
      rw [hending] at hinv
      simp only [heldAfter_seq hinv]
      exact ih

/-- **Mutex discipline.** A lock request that starts with `file_mutex` never unlocks it without
    holding it and never locks it while it holds it, and when it returns it returns a record
    exactly if it holds the mutex. -/
theorem insertFileList_disciplined (bs : List Invocation) :
    (∀ pre op post, (insertFileListRun bs).1 = pre ++ op :: post → op.mutex = .file →
      ∃ held, heldAfter .file true pre = some held ∧ (held = true ↔ op = .unlock .file)) ∧
    ∀ record, (insertFileListRun bs).2 = some record →
      ∃ held, heldAfter .file true (insertFileListRun bs).1 = some held ∧
        (record = true ↔ held = true) := by
  have hrun := heldAfter_run bs
  constructor
  · intro pre op post hops hop
    rw [hops] at hrun
    exact heldAfter_op hrun hop
  · intro record hrecord
    rw [hrecord] at hrun
    exact ⟨record, hrun, Iff.rfl⟩

/-- A request that pauses, waits twice on a node and is resumed returns with the mutex. -/
theorem insertFileList_disciplined_resumed :
    ∃ held, heldAfter .file true (insertFileListRun
      [.checked .paused, .conflict 3 (.resumes 1), .checked .fits]).1 = some held ∧
        (true = true ↔ held = true) :=
  (insertFileList_disciplined [.checked .paused, .conflict 3 (.resumes 1), .checked .fits]).2
    true rfl

end Locking

end TxFS
