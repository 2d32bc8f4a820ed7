import TxFS.Backup.Check
import TxFS.Backup.Online

/-!
# Exactness of the Serializability Decision

A run of the backup together with the history its decisions are measured against: the mark
of every file when it was locked, the mark of the first file of every transaction, and how
often a transaction has paused since the check last let it through.

The read bits are the current marks, the backup marks a file while it holds it, and the
backup and the users do not hold one file at the same time; all of this is given here. An
inactive backup lets unlocked files through without a look at the marks, so the locks that
are granted in this way are kept apart.
-/

namespace TxFS

open GuardedRun

/-! ## History -/

/-- The history of the decisions. The pause array has 100 slots in the source; it is not
    exceeded in runs in which fewer than 100 pauses start. -/
structure Decisions where
  /-- The mark of the file when the record was granted. -/
  grantMark : Addr → Int
  /-- The records granted without a check to a transaction that had locked files. -/
  unchecked : List Addr
  /-- The mark of the first file of the transaction when it was granted. -/
  firstMark : Int → Int
  /-- How often the transaction has paused since its last granted check. -/
  pauses : Int → Nat
  /-- The transactions that have committed or aborted. -/
  ended : List Int

namespace Decisions

/-- The transaction `t` is granted the record `a` of the request. -/
def grant (h : Decisions) (r : BackupRun) (t : Int) (req : LockRequest) (a : Addr) : Decisions where
  grantMark := Function.update h.grantMark a (r.mark req.inode)
  unchecked := if r.server.Unchecked t req then a :: h.unchecked else h.unchecked
  firstMark :=
    if (searchTxn t r.server.headTxnList).any (fun n => n.fileRecNo = none) = true then
      Function.update h.firstMark t (r.mark req.inode)
    else h.firstMark
  pauses := if r.server.Unchecked t req then h.pauses else Function.update h.pauses t 0
  ended := h.ended

/-- The request of the transaction `t` is answered. -/
def answered (h : Decisions) (r : BackupRun) (t : Int) (req : LockRequest) :
    Server.Outcome → Decisions
  | .granted a => h.grant r t req a
  | .paused => { h with pauses := Function.update h.pauses t (h.pauses t + 1) }
  | .held _ | .blocked _ | .aborted => h

/-- The history behind a step of the server. -/
def record (h : Decisions) (r : BackupRun) (e : Event) : Decisions :=
  match r.server.requestOf e with
  | some (t, req, readBit) =>
    match r.server.answer t req readBit with
    | some out => h.answered r t req out
    | none => h
  | none =>
    match e with
    | .commit t | .abort t => { h with ended := t :: h.ended }
    | _ => h

end Decisions

/-- What an event does on the server. -/
def BackupRun.onServer (r : BackupRun) : BackupEvent → Option Event
  | .user e => some e
  | .activate => some (.setBackup .active)
  | .begin => some (.begin 0)
  | .lock inode fd readBit => some (.lock 0 ⟨inode, 1, .host fd⟩ readBit)
  | .wake => some (.wake 0)
  | .resume readBit => some (.resume 0 readBit)
  | .leaveAsVictim => some (.leaveAsVictim 0)
  | .giveUp => some (.abort 0)
  | .release => some (.releaseByBackup r.pathBuf.stIno)
  | .finish => some .endBackup
  | .deactivate => some (.setBackup .inactive)
  | .stat _ | .skip | .copy _ | .markAsRead _ => none

/-- A run of the backup with its history. -/
structure DecisionRun where
  run : BackupRun
  history : Decisions

namespace DecisionRun

/-- Nothing has been granted yet. -/
def init (handles : Nat) : DecisionRun where
  run := BackupRun.init handles
  history :=
    { grantMark := fun _ => 0, unchecked := [], firstMark := fun _ => 0, pauses := fun _ => 0,
      ended := [] }

def step (d : DecisionRun) (ev : BackupEvent) : Option DecisionRun :=
  (d.run.step ev).map fun r' =>
    { run := r'
      history := match d.run.onServer ev with
        | some e => d.history.record d.run e
        | none => d.history }

/-! ## What is given -/

/-- The backup and a user do not hold one file. -/
def Excluded (s : Server) : Prop :=
  ∀ a ∈ s.table.allocated, ∀ b ∈ s.table.allocated, (s.cell a).parentTxn = 0 →
    (s.cell b).parentTxn ≠ 0 → (s.cell a).fileInode ≠ (s.cell b).fileInode

instance (s : Server) : Decidable (Excluded s) :=
  inferInstanceAs (Decidable (∀ a ∈ s.table.allocated, ∀ b ∈ s.table.allocated, _))

/-- The ids of the transactions are distinct. -/
def NewId (d : DecisionRun) : BackupEvent → Prop
  | .user (.begin t) => t ∉ d.history.ended
  | _ => True

instance (d : DecisionRun) (ev : BackupEvent) : Decidable (d.NewId ev) :=
  match ev with
  | .user (.begin t) => inferInstanceAs (Decidable (t ∉ d.history.ended))
  | .user (.lock ..) | .user (.resume ..) | .user (.wake _) | .user (.leaveAsVictim _)
  | .user (.call ..) | .user (.commit _) | .user (.abort _) | .user (.releaseByBackup _)
  | .user .endBackup | .user (.markVictim ..) | .user (.setBackup _) | .activate | .begin
  | .stat _ | .skip | .lock .. | .wake | .resume _ | .leaveAsVictim | .giveUp | .copy _
  | .markAsRead _ | .release | .finish | .deactivate => inferInstanceAs (Decidable True)

/-- The backup marks a file while it holds it. -/
def MarksHeldFile (d : DecisionRun) : BackupEvent → Prop
  | .markAsRead inode => ∃ a ∈ d.run.server.table.allocated,
      (d.run.server.cell a).parentTxn = 0 ∧ (d.run.server.cell a).fileInode = inode
  | _ => True

instance (d : DecisionRun) (ev : BackupEvent) : Decidable (d.MarksHeldFile ev) :=
  match ev with
  | .markAsRead _ => inferInstanceAs (Decidable (∃ a ∈ d.run.server.table.allocated, _))
  | .user _ | .activate | .begin | .stat _ | .skip | .lock .. | .wake | .resume _
  | .leaveAsVictim | .giveUp | .copy _ | .release | .finish | .deactivate =>
    inferInstanceAs (Decidable True)

/-- **The assumptions on a step**: mutual exclusion with the backup, requests with the mark of
    their file, distinct ids, and marks that are set under the lock of the backup. -/
def Given (d : DecisionRun) (ev : BackupEvent) : Prop :=
  Excluded d.run.server ∧
    (∀ e ∈ d.run.onServer ev, ∀ q ∈ d.run.server.requestOf e, q.2.2 = d.run.mark q.2.1.inode) ∧
    d.NewId ev ∧ d.MarksHeldFile ev

instance (d : DecisionRun) (ev : BackupEvent) : Decidable (d.Given ev) :=
  inferInstanceAs (Decidable (_ ∧ (∀ e ∈ d.run.onServer ev, _) ∧ _ ∧ _))

end DecisionRun

/-! ## One step of the server -/

section

variable {r r' : BackupRun} {ev : BackupEvent} {e : Event}

/-- An event of the run is at most one event of the server, and only `mark_as_read` changes
    a mark. -/
theorem BackupRun.step_onServer (h : r.step ev = some r') :
    (match r.onServer ev with
      | some e => r.server.step e = some r'.server
      | none => r'.server = r.server) ∧
    ((∀ inode, ev ≠ .markAsRead inode) → r'.mark = r.mark) := by
  cases BackupRun.step_spec h with
  | user _ hs' => exact ⟨hs', fun _ => rfl⟩
  | stat | skip | copy => exact ⟨rfl, fun _ => rfl⟩
  | markAsRead => exact ⟨rfl, fun hne => absurd rfl (hne _)⟩
  | giveUp _ _ hs' => exact ⟨hs', fun _ => rfl⟩
  | activate _ hs' | begin _ hs' | lock _ hs' | wake _ hs' | resume _ hs' | leaveAsVictim _ hs'
  | release _ hs' | finish _ hs' | deactivate _ hs' => exact ⟨hs', fun _ => rfl⟩

end

end TxFS
