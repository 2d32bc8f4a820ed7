import TxFS.Locks.Steps

/-!
# The Online Backup

One run of `on_bck_beg` with `online_bck` (`backup_manager.c`), interleaved with the steps of
user transactions. The backup walks a tree: for each path it calls `stat`, locks the file
exclusively, copies it, marks it as read and releases the lock. Every system call resolves
the path anew, so each of these steps carries the inode the path leads to at that moment.

The order in which the stack of paths is popped does not matter for the locks, and neither
does `read_indicate`, which only `is_read` reads and nobody calls.
-/

namespace TxFS

open GuardedRun

/-! ## State -/

/-- `path_buf`: the inode and the sticky bit (1 if it is set) of the last `stat`. -/
structure PathBuf where
  stIno : Int
  sticky : Int
deriving DecidableEq, Repr

/-- Where `on_bck_beg` and the loop of `online_bck` stand. -/
inductive BackupPhase where
  | notStarted
  /-- `BACKUP = ACTIVE`. -/
  | active
  /-- At the head of the loop. -/
  | atLoop
  /-- Behind `stat`. -/
  | statted
  /-- Inside or just behind `lock_directory` or `lock_file`. -/
  | locking
  /-- Behind `copy_directory` or `copy_file`. -/
  | copied
  /-- Behind `mark_as_read`. -/
  | marked
  /-- A deadlock victim: there is no record and the loop stops. -/
  | stopped
  /-- Behind `txn_delete`. -/
  | ended
  /-- `BACKUP = INACTIVE` again. -/
  | finished
deriving DecidableEq, Repr

/-- A lock that a user transaction was granted, and whether the backup had copied the file
    by then. -/
structure LockFact where
  txnId : Int
  inode : Int
  wasCopied : Bool
deriving DecidableEq, Repr

/-- The server during a run of the backup. `copied` and `locks` are the history: the files
    copied so far and the locks granted to the live user transactions. -/
structure BackupRun where
  server : Server
  /-- The sticky bit of every file. -/
  mark : Int → Int
  pathBuf : PathBuf
  phase : BackupPhase
  copied : List Int
  locks : List LockFact

namespace BackupRun

/-- Every file of the tree is unmarked. -/
def init (handles : Nat) : BackupRun where
  server := Server.globalInit handles
  mark := fun _ => 0
  pathBuf := ⟨0, 0⟩
  phase := .notStarted
  copied := []
  locks := []

end BackupRun

/-! ## Events -/

inductive BackupEvent where
  /-- A step of a user transaction or of the deadlock detector. -/
  | user (e : Event)
  /-- `BACKUP = ACTIVE`. -/
  | activate
  /-- `log_txn_beg` and `new_txn_insert` of `on_bck_beg`. -/
  | begin
  /-- `stat` on the popped path. -/
  | stat (inode : Int)
  /-- The path is neither a directory nor a regular file. -/
  | skip
  /-- `lock_directory` or `lock_file`, up to the point where the thread blocks or returns. -/
  | lock (inode : Int) (fd : Option Int) (readBit : Int)
  /-- The backup returns from `pthread_cond_wait`. -/
  | wake
  | resume (readBit : Int)
  | leaveAsVictim
  /-- `on_txn_abort` on the backup as a deadlock victim. -/
  | giveUp
  /-- `copy_directory` or `copy_file`. -/
  | copy (inode : Int)
  /-- `mark_as_read`. -/
  | markAsRead (inode : Int)
  /-- `release_locks_by_backup`. -/
  | release
  /-- `txn_delete` of `on_bck_beg`. -/
  | finish
  /-- `BACKUP = INACTIVE`. -/
  | deactivate
deriving DecidableEq, Repr

/-- The event is a step of a user transaction or of the deadlock detector. -/
def Event.IsUser : Event → Prop
  | .setBackup _ => False
  | e => e.actor ≠ some 0

instance (e : Event) : Decidable e.IsUser :=
  match e with
  | .setBackup _ => isFalse id
  | .begin _ | .lock .. | .resume .. | .wake _ | .leaveAsVictim _ | .call .. | .commit _
  | .abort _ | .releaseByBackup _ | .endBackup | .markVictim .. =>
    inferInstanceAs (Decidable (_ ≠ _))

namespace BackupRun

/-! ## Steps -/

/-- The history of lock grants behind the user event `e`, which led to the server state
    `s'`: a new record is a grant, and the locks of a transaction end with it. -/
def grants (r : BackupRun) (e : Event) (s' : Server) : List LockFact :=
  match e with
  | .commit t | .abort t => r.locks.filter fun f => f.txnId ≠ t
  | _ =>
    if r.server.table.brk ∈ s'.table.allocated then
      let c := s'.cell r.server.table.brk
      ⟨c.parentTxn, c.fileInode, c.fileInode ∈ r.copied⟩ :: r.locks
    else r.locks

/-- A step of the backup's thread in the lock manager, from one phase to another. -/
def serve (r : BackupRun) (e : Event) (phase phase' : BackupPhase) : Option BackupRun :=
  if r.phase = phase then (r.server.step e).map fun s' => { r with server := s', phase := phase' }
  else none

/-- `mark_as_read` on the file `inode`: the sticky bit that `stat` saw is flipped. -/
def markAsRead (r : BackupRun) (inode : Int) : BackupRun :=
  let newMode := if r.pathBuf.sticky = 1 then 0 else 1
  { r with mark := Function.update r.mark inode newMode, phase := .marked }

/-- One step of the whole system. -/
def step (r : BackupRun) : BackupEvent → Option BackupRun
  | .user e =>
    if e.IsUser then
      (r.server.step e).map fun s' => { r with server := s', locks := r.grants e s' }
    else none
  | .activate => r.serve (.setBackup .active) .notStarted .active
  | .begin => r.serve (.begin 0) .active .atLoop
  | .stat inode =>
    if r.phase = .atLoop then
      some { r with pathBuf := ⟨inode, r.mark inode⟩, phase := .statted }
    else none
  | .skip => if r.phase = .statted then some { r with phase := .atLoop } else none
  | .lock inode fd readBit => r.serve (.lock 0 ⟨inode, 1, .host fd⟩ readBit) .statted .locking
  | .wake => r.serve (.wake 0) .locking .locking
  | .resume readBit => r.serve (.resume 0 readBit) .locking .locking
  | .leaveAsVictim => r.serve (.leaveAsVictim 0) .locking .locking
  | .giveUp =>
    if r.server.thread 0 = .aborting then r.serve (.abort 0) .locking .stopped else none
  | .copy inode =>
    if r.phase = .locking ∧ r.server.thread 0 = .running then
      some { r with copied := inode :: r.copied, phase := .copied }
    else none
  | .markAsRead inode => if r.phase = .copied then some (r.markAsRead inode) else none
  | .release => r.serve (.releaseByBackup r.pathBuf.stIno) .marked .atLoop
  | .finish => r.serve .endBackup .atLoop .ended
  | .deactivate => r.serve (.setBackup .inactive) .ended .finished

/-- **What a step does**: the guards and the new state, for each event. -/
inductive StepSpec (r : BackupRun) : BackupEvent → BackupRun → Prop where
  | user {e : Event} {s' : Server} (huser : e.IsUser) (hs' : r.server.step e = some s') :
      StepSpec r (.user e) { r with server := s', locks := r.grants e s' }
  | activate {s' : Server} (hphase : r.phase = .notStarted)
      (hs' : r.server.step (.setBackup .active) = some s') :
      StepSpec r .activate { r with server := s', phase := .active }
  | begin {s' : Server} (hphase : r.phase = .active) (hs' : r.server.step (.begin 0) = some s') :
      StepSpec r .begin { r with server := s', phase := .atLoop }
  | stat {inode : Int} (hphase : r.phase = .atLoop) :
      StepSpec r (.stat inode) { r with pathBuf := ⟨inode, r.mark inode⟩, phase := .statted }
  | skip (hphase : r.phase = .statted) : StepSpec r .skip { r with phase := .atLoop }
  | lock {inode readBit : Int} {fd : Option Int} {s' : Server} (hphase : r.phase = .statted)
      (hs' : r.server.step (.lock 0 ⟨inode, 1, .host fd⟩ readBit) = some s') :
      StepSpec r (.lock inode fd readBit) { r with server := s', phase := .locking }
  | wake {s' : Server} (hphase : r.phase = .locking) (hs' : r.server.step (.wake 0) = some s') :
      StepSpec r .wake { r with server := s', phase := .locking }
  | resume {readBit : Int} {s' : Server} (hphase : r.phase = .locking)
      (hs' : r.server.step (.resume 0 readBit) = some s') :
      StepSpec r (.resume readBit) { r with server := s', phase := .locking }
  | leaveAsVictim {s' : Server} (hphase : r.phase = .locking)
      (hs' : r.server.step (.leaveAsVictim 0) = some s') :
      StepSpec r .leaveAsVictim { r with server := s', phase := .locking }
  | giveUp {s' : Server} (hthread : r.server.thread 0 = .aborting) (hphase : r.phase = .locking)
      (hs' : r.server.step (.abort 0) = some s') :
      StepSpec r .giveUp { r with server := s', phase := .stopped }
  | copy {inode : Int} (hphase : r.phase = .locking) (hthread : r.server.thread 0 = .running) :
      StepSpec r (.copy inode) { r with copied := inode :: r.copied, phase := .copied }
  | markAsRead {inode : Int} (hphase : r.phase = .copied) :
      StepSpec r (.markAsRead inode) (r.markAsRead inode)
  | release {s' : Server} (hphase : r.phase = .marked)
      (hs' : r.server.step (.releaseByBackup r.pathBuf.stIno) = some s') :
      StepSpec r .release { r with server := s', phase := .atLoop }
  | finish {s' : Server} (hphase : r.phase = .atLoop) (hs' : r.server.step .endBackup = some s') :
      StepSpec r .finish { r with server := s', phase := .ended }
  | deactivate {s' : Server} (hphase : r.phase = .ended)
      (hs' : r.server.step (.setBackup .inactive) = some s') :
      StepSpec r .deactivate { r with server := s', phase := .finished }

theorem serve_spec {r r' : BackupRun} {e : Event} {phase phase' : BackupPhase}
    (h : r.serve e phase phase' = some r') : r.phase = phase ∧
      ∃ s', r.server.step e = some s' ∧ r' = { r with server := s', phase := phase' } := by
  unfold serve at h
  split at h
  · rename_i hphase
    obtain ⟨s', hs', rfl⟩ := Option.map_eq_some_iff.mp h
    exact ⟨hphase, s', hs', rfl⟩
  · cases h

theorem step_spec {r r' : BackupRun} {ev : BackupEvent} (h : r.step ev = some r') :
    StepSpec r ev r' := by
  cases ev with
  | user e =>
    simp only [step] at h
    split at h
    · rename_i huser
      obtain ⟨s', hs', rfl⟩ := Option.map_eq_some_iff.mp h
      exact .user huser hs'
    · cases h
  | stat inode =>
    simp only [step] at h
    split at h
    · rename_i hphase
      cases h
      exact .stat hphase
    · cases h
  | skip =>
    simp only [step] at h
    split at h
    · rename_i hphase
      cases h
      exact .skip hphase
    · cases h
  | giveUp =>
    simp only [step] at h
    split at h
    · rename_i hthread
      obtain ⟨hphase, s', hs', rfl⟩ := serve_spec h
      exact .giveUp hthread hphase hs'
    · cases h
  | copy inode =>
    simp only [step] at h
    split at h
    · rename_i hcopy
      cases h
      exact .copy hcopy.1 hcopy.2
    · cases h
  | markAsRead inode =>
    simp only [step] at h
    split at h
    · rename_i hphase
      cases h
      exact .markAsRead hphase
    · cases h
  -- the steps in the lock manager
  | activate =>
    obtain ⟨hphase, s', hs', rfl⟩ := serve_spec h
    exact .activate hphase hs'
  | begin =>
    obtain ⟨hphase, s', hs', rfl⟩ := serve_spec h
    exact .begin hphase hs'
  | lock inode fd readBit =>
    obtain ⟨hphase, s', hs', rfl⟩ := serve_spec h
    exact .lock hphase hs'
  | wake =>
    obtain ⟨hphase, s', hs', rfl⟩ := serve_spec h
    exact .wake hphase hs'
  | resume readBit =>
    obtain ⟨hphase, s', hs', rfl⟩ := serve_spec h
    exact .resume hphase hs'
  | leaveAsVictim =>
    obtain ⟨hphase, s', hs', rfl⟩ := serve_spec h
    exact .leaveAsVictim hphase hs'
  | release =>
    obtain ⟨hphase, s', hs', rfl⟩ := serve_spec h
    exact .release hphase hs'
  | finish =>
    obtain ⟨hphase, s', hs', rfl⟩ := serve_spec h
    exact .finish hphase hs'
  | deactivate =>
    obtain ⟨hphase, s', hs', rfl⟩ := serve_spec h
    exact .deactivate hphase hs'

/-! ## Serializability -/

/-- **Mutual serializability** of a transaction with the backup: every file it locked had been
    copied by then, or none of them has been copied. -/
def MutuallySerializable (r : BackupRun) (t : Int) : Prop :=
  (∀ f ∈ r.locks, f.txnId = t → f.wasCopied = true) ∨
    ∀ f ∈ r.locks, f.txnId = t → f.inode ∉ r.copied

instance (r : BackupRun) (t : Int) : Decidable (r.MutuallySerializable t) :=
  inferInstanceAs (Decidable (_ ∨ _))

/-- The request reads the mark of the file it names, and one that is not checked names a file
    on the transaction's own side of the backup. -/
def ReadsMark (r : BackupRun) (e : Event) : Prop :=
  match r.server.requestOf e with
  | some (t, req, readBit) =>
    readBit = r.mark req.inode ∧ (r.server.Unchecked t req →
      (searchTxn t r.server.headTxnList).all (fun n => n.beforeAfter = r.mark req.inode) = true)
  | none => True

instance (r : BackupRun) (e : Event) : Decidable (r.ReadsMark e) :=
  match h : r.server.requestOf e with
  | some (t, req, readBit) => decidable_of_iff
      (readBit = r.mark req.inode ∧ (r.server.Unchecked t req →
        (searchTxn t r.server.headTxnList).all (fun n => n.beforeAfter = r.mark req.inode) = true))
      (by simp [ReadsMark, h])
  | none => isTrue (by simp [ReadsMark, h])

/-- **The condition on a step**: user requests read marks and releases are clean; the backup
    comes to each file once, and its path leads to the same file in one round of the loop. -/
def Synchronized (r : BackupRun) : BackupEvent → Prop
  | .user e => r.server.CleanRelease e ∧ r.ReadsMark e
  | .stat inode => inode ∉ r.copied
  | .lock inode _ _ | .copy inode | .markAsRead inode => inode = r.pathBuf.stIno
  | _ => True

instance (r : BackupRun) (e : BackupEvent) : Decidable (r.Synchronized e) :=
  match e with
  | .user e => inferInstanceAs (Decidable (r.server.CleanRelease e ∧ r.ReadsMark e))
  | .stat inode => inferInstanceAs (Decidable (inode ∉ r.copied))
  | .lock inode _ _ | .copy inode | .markAsRead inode =>
    inferInstanceAs (Decidable (inode = r.pathBuf.stIno))
  | .activate | .begin | .skip | .wake | .resume _ | .leaveAsVictim | .giveUp | .release | .finish
  | .deactivate => inferInstanceAs (Decidable True)

end BackupRun

end TxFS
