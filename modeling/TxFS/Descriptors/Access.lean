import TxFS.Descriptors.Closing

/-!
# Reads and Writes by Descriptor

A client names the file of a read or a write by a descriptor. `on_read` hands every request
to YAFFS, since its check is commented out, and `on_write` asks `write_possible`, which looks
at the first record with that descriptor, whoever owns it. So a request goes through a lock
of its own transaction exactly when the client sends a descriptor that it got from an open of
this transaction (`through_own_lock_iff`).

The machine of this file adds to the server what the clients have been told: for each record
the transaction and the descriptor of the open that assigned to it last.
-/

namespace TxFS

open LinkedPath GuardedRun

/-! ## Data requests -/

/-- A data request of a client. -/
inductive DataRequest where
  | read (fd nbytes : Int)
  | write (fd : Int) (buf : String) (nbytes : Int)
deriving DecidableEq, Repr

namespace DataRequest

def fd : DataRequest → Int
  | read fd _ => fd
  | write fd _ _ => fd

def isWrite : DataRequest → Bool
  | read _ _ => false
  | write _ _ _ => true

end DataRequest

/-- A call of the YAFFS library for the data of a file. -/
inductive YaffsCall where
  | trFileRead (handle bytes : Int)
  | trFileWrite (handle : Int) (buf : String) (count tId : Int)
deriving DecidableEq, Repr

/-- `on_open`, as opposed to the other callers of `insert_file_list`. -/
def LockUse.isOpen : LockUse → Bool
  | .open _ => true
  | .placeholder | .renameParent | .keep | .host _ => false

namespace Server

variable {s s' s₁ : Server} {t readBit : Int} {a b : Addr}

/-- `write_possible`; `none` when the search does not end. -/
def writePossible (s : Server) (fd : Int) : Option Int :=
  (findFrom (fun a => (s.cell a).next) (fun a => (s.cell a).fd = fd) (s.table.brk + 1)
    s.table.headLockList).map fun found =>
      match found with
      | none => -1
      | some a => if (s.cell a).flags = 0 then -1 else 1

/-- `on_read`: the test of `read_possible` is commented out. -/
def onRead (fd nbytes : Int) : Option YaffsCall := some (.trFileRead fd nbytes)

/-- `on_write`. -/
def onWrite (s : Server) (fd : Int) (buf : String) (nbytes txnid : Int) : Option YaffsCall := do
  let possible ← s.writePossible fd
  if possible = -1 then none else some (.trFileWrite fd buf nbytes txnid)

/-- The call that a request of the transaction leads to. -/
def serveData (s : Server) (txnid : Int) : DataRequest → Option YaffsCall
  | .read fd nbytes => onRead fd nbytes
  | .write fd buf nbytes => s.onWrite fd buf nbytes txnid

/-! ## The record of a lock request -/

/-- The record that `insert_file_list` returns, with the location of the first search. -/
def given (s : Server) (t : Int) (req : LockRequest) (first : Option (Option Addr))
    (readBit : Int) : Option (Addr × Option Addr) := do
  let (found, loc) ← s.table.searchFileList req.inode
  let (_, out) ← s.insertFileList req.inode req.flags t readBit found loc
  match out with
  | .granted a => some (a, first.getD loc)
  | .held a => some (a, first.getD loc)
  | .blocked _ => none
  | .paused => none
  | .aborted => none

end Server

/-! ## What the clients have been told -/

/-- The server, and for each record the transaction and the descriptor of the `on_open` that
    assigned to its field `fd` last. -/
structure Access where
  server : Server
  opened : Addr → Option (Int × Int)

namespace Access

def init (handles : Nat) : Access := ⟨Server.globalInit handles, fun _ => none⟩

/-- A lock request that assigns to the descriptor of its record. -/
def told (r : Access) (s' : Server) (t : Int) (req : LockRequest) (first : Option (Option Addr))
    (readBit : Int) : Addr → Option (Int × Int) :=
  match r.server.given t req first readBit with
  | some (a, loc) =>
    if r.server.SetsFd req.use loc a then
      Function.update r.opened a (if req.use.isOpen then some (t, (s'.cell a).fd) else none)
    else r.opened
  | none => r.opened

/-- One event: the end of a transaction and a release by the backup take the records away. -/
def step (r : Access) (e : Event) : Option Access := do
  let s' ← r.server.step e
  match e with
  | .lock t req readBit => some ⟨s', r.told s' t req none readBit⟩
  | .resume t readBit =>
    match r.server.thread t with
    | .resuming p => some ⟨s', r.told s' t p.req (some p.loc) readBit⟩
    | _ => some ⟨s', r.opened⟩
  | .commit t => some ⟨s', fun a => (r.opened a).filter fun o => o.1 ≠ t⟩
  | .abort t => some ⟨s', fun a => (r.opened a).filter fun o => o.1 ≠ t⟩
  | .releaseByBackup _ =>
    some ⟨s', fun a => if a ∈ s'.table.allocated then r.opened a else none⟩
  | _ => some ⟨s', r.opened⟩

end Access

namespace Server

variable {s s' s₁ : Server} {t readBit : Int} {a b : Addr}

/-! ## Descriptors across an event -/

/-- The records of before are there, with the same owners and descriptors. -/
def KeepsFds (s s' : Server) : Prop :=
  ∀ b ∈ s.table.allocated, b ∈ s'.table.allocated ∧
    (s'.cell b).parentTxn = (s.cell b).parentTxn ∧ (s'.cell b).fd = (s.cell b).fd

theorem KeepsFds.of_table (h : s'.table = s.table) : KeepsFds s s' := by
  intro b hb
  rw [cell, h]
  exact ⟨hb, rfl, rfl⟩

/-- What `insert_file_list` does to descriptors, and what it returns. -/
theorem insertFileList_fds {i fl : Int} {found : Bool} {loc : Option Addr} {out : Outcome}
    (hown : Owned s.table s.headTxnList) (hlist : HasLockList s)
    (hsearch : s.table.searchFileList i = some (found, loc))
    (h : s.insertFileList i fl t readBit found loc = some (s', out)) :
    KeepsFds s s' ∧ s'.handles = s.handles ∧ ∀ a, (out = .granted a ∨ out = .held a) →
      a ∈ s'.table.allocated ∧ (s'.cell a).parentTxn = t := by
  have hnew : ∀ table, s.table.Inserted table (getFileNode i 0 fl t) →
      GrantedIn s t readBit table s' → out = .granted s.table.brk → KeepsFds s s' ∧
        s'.handles = s.handles ∧ ∀ a, (out = .granted a ∨ out = .held a) →
          a ∈ s'.table.allocated ∧ (s'.cell a).parentTxn = t := by
    intro table hins hgrant hout
    obtain ⟨halloc, hother, hparent, -, hhandles⟩ := hgrant.fds hins
    refine ⟨?_, hhandles, ?_⟩
    · intro b hb
      have hne : b ≠ s.table.brk := fun heq => hown.brk_notMem (heq ▸ hb)
      exact ⟨halloc ▸ List.mem_cons_of_mem _ hb, hother b hne⟩
    · intro a ha
      rw [hout] at ha
      rcases ha with ha | ha
      · cases ha
        exact ⟨halloc ▸ List.mem_cons_self .., hparent⟩
      · cases ha
  cases insertFileList_spec h with
  | @held l hloc hparent =>
    refine ⟨.of_table rfl, rfl, ?_⟩
    intro a ha
    rcases ha with ha | ha
    · cases ha
    · cases ha
      subst hloc
      exact ⟨hlist.search_mem hsearch, hparent⟩
  | unlocked hadm hgrant => exact hnew _ LockTable.insertUnlocked_inserted hgrant rfl
  | shared hloc howner hmode hfl hadm htable hgrant =>
    exact hnew _ (LockTable.insertShared_inserted htable) hgrant rfl
  | newNode =>
    refine ⟨.of_table rfl, rfl, ?_⟩
    intro a ha
    rcases ha with ha | ha <;> cases ha
  | oldNode =>
    refine ⟨.of_table rfl, rfl, ?_⟩
    intro a ha
    rcases ha with ha | ha <;> cases ha
  | refused hs' hout =>
    obtain ⟨_, _, _, rfl, -⟩ := hs'
    refine ⟨.of_table rfl, rfl, ?_⟩
    intro a ha
    rcases hout with rfl | rfl <;> rcases ha with ha | ha <;> cases ha

/-- The caller of a lock request assigns at most to the descriptor of the record it is given. -/
theorem requestLock_fds {req : LockRequest} {first : Option (Option Addr)}
    (hown : Owned s.table s.headTxnList) (hlist : HasLockList s)
    (h : s.requestLock t req first readBit = some s') :
    (s.given t req first readBit = none ∧ KeepsFds s s') ∨
    ∃ a loc, s.given t req first readBit = some (a, loc) ∧ a ∈ s'.table.allocated ∧
      (s'.cell a).parentTxn = t ∧ ∀ b ∈ s.table.allocated, b ∈ s'.table.allocated ∧
        (s'.cell b).parentTxn = (s.cell b).parentTxn ∧
          (b ≠ a ∨ ¬ s.SetsFd req.use loc a → (s'.cell b).fd = (s.cell b).fd) := by
  simp only [requestLock, Option.bind_eq_bind, Option.bind_eq_some_iff] at h
  obtain ⟨⟨found, loc⟩, hsearch, ⟨s₁, out⟩, hinsert, h⟩ := h
  obtain ⟨hkeep, hhandles, hrecord⟩ := insertFileList_fds hown hlist hsearch hinsert
  have hgiven : ∀ a, (out = .granted a ∨ out = .held a) →
      s.given t req first readBit = some (a, first.getD loc) := by
    intro a hout
    rcases hout with rfl | rfl <;> simp [given, hsearch, hinsert]
  have hafter : ∀ a, (out = .granted a ∨ out = .held a) →
      s' = s₁.afterLock t req.use (first.getD loc) a →
      ∃ a loc, s.given t req first readBit = some (a, loc) ∧ a ∈ s'.table.allocated ∧
        (s'.cell a).parentTxn = t ∧ ∀ b ∈ s.table.allocated, b ∈ s'.table.allocated ∧
          (s'.cell b).parentTxn = (s.cell b).parentTxn ∧
            (b ≠ a ∨ ¬ s.SetsFd req.use loc a → (s'.cell b).fd = (s.cell b).fd) := by
    rintro a hout rfl
    obtain ⟨ha, hat⟩ := hrecord a hout
    obtain ⟨halloc, hcells⟩ := s₁.afterLock_cells t req.use (first.getD loc) a
    have hparent : ∀ b, ((s₁.afterLock t req.use (first.getD loc) a).cell b).parentTxn =
        (s₁.cell b).parentTxn := by
      intro b
      obtain ⟨_, _, hcell⟩ := hcells b
      rw [hcell]
    -- whether it assigns depends on the handles alone
    have hsets : s₁.SetsFd req.use (first.getD loc) a → s.SetsFd req.use (first.getD loc) a := by
      intro hsets
      unfold SetsFd at hsets ⊢
      rw [hhandles] at hsets
      exact hsets
    refine ⟨a, _, hgiven a hout, halloc.symm ▸ ha, (hparent a).trans hat, ?_⟩
    intro b hb
    obtain ⟨hb₁, hbt, hbfd⟩ := hkeep b hb
    refine ⟨halloc.symm ▸ hb₁, (hparent b).trans hbt, ?_⟩
    intro hother
    have hfd : ((s₁.afterLock t req.use (first.getD loc) a).cell b).fd = (s₁.cell b).fd := by
      cases s₁.afterLock_fd t req.use (first.getD loc) a with
      | same _ hfd => exact hfd b
      | set hset _ hfd _ => exact hfd b (hother.resolve_right fun hnot => hnot (hsets hset))
      | opened hset _ _ hfd _ => exact hfd b (hother.resolve_right fun hnot => hnot (hsets hset))
    exact hfd.trans hbfd
  have hnone : (∀ a, out ≠ .granted a ∧ out ≠ .held a) → s.given t req first readBit = none := by
    intro hout
    cases out with
    | granted a => exact absurd rfl (hout a).1
    | held a => exact absurd rfl (hout a).2
    | _ => simp [given, hsearch, hinsert]
  cases out with
  | granted a => exact .inr (hafter a (.inl rfl) (Option.some.inj h).symm)
  | held a => exact .inr (hafter a (.inr rfl) (Option.some.inj h).symm)
  | blocked node => exact .inl ⟨hnone fun a => ⟨nofun, nofun⟩, Option.some.inj h ▸ hkeep⟩
  | paused => exact .inl ⟨hnone fun a => ⟨nofun, nofun⟩, Option.some.inj h ▸ hkeep⟩
  | aborted => exact .inl ⟨hnone fun a => ⟨nofun, nofun⟩, Option.some.inj h ▸ hkeep⟩

/-- A release keeps the records of the others. -/
theorem releaseLocks_fds {prepare : Server → Addr → Option (Server × List Act)}
    {close : Bool → Int → Option Act} {acts : List Act}
    (hprep : ∀ s a r s₁ pre, IsPath (fun b => (s.cell b).nextTxn) (s.cell a).nextTxn r →
      prepare s a = some (s₁, pre) → SameButQueues (a :: r) s s₁)
    (hown : Owned s.table s.headTxnList) (hrel : releaseLocks prepare close s t = some (s', acts))
    (hb : b ∈ s.table.allocated) (hbt : (s.cell b).parentTxn ≠ t) :
    b ∈ s'.table.allocated ∧ (s'.cell b).parentTxn = (s.cell b).parentTxn ∧
      (s'.cell b).fd = (s.cell b).fd := by
  refine (releaseLocks_each (I := fun s₁ _ => b ∈ s₁.table.allocated ∧
      (s₁.cell b).parentTxn = (s.cell b).parentTxn ∧ (s₁.cell b).fd = (s.cell b).fd)
    (Q := fun _ _ _ _ => True)
    (fun s a r s₁ pre hr hpre => ⟨hprep s a r s₁ pre hr hpre, trivial⟩)
    ?_ ?_ hown hrel ⟨hb, rfl, rfl⟩).1
  · rintro s₁ a r s₂ pre done _ hsame - ⟨hmem, hparent, hfd⟩
    exact ⟨hsame.allocated ▸ hmem, (hsame.parentTxn b).trans hparent, (hsame.fd b).trans hfd⟩
  · rintro s₁ a s₂ rel done hnd ha hspec ⟨hmem, hparent, hfd⟩
    obtain ⟨hmem', hcells⟩ := hspec.others hnd
    -- a freed record is one of `t`
    have hba : b ≠ a := by
      intro hba
      subst hba
      exact hbt (hparent.symm.trans (mem_ownRecords.mp ha).2)
    obtain ⟨hparent', hfd'⟩ := hcells b hba
    exact ⟨(hmem' b).mpr ⟨hba, hmem⟩, hparent'.trans hparent, hfd'.trans hfd⟩

end Server

/-! ## The invariant -/

namespace Access

open Server

variable {r r' : Access} {e : Event} {t : Int} {q : DataRequest} {a : Addr} {handles : Nat}

/-- What the clients have been told is in the lock table. -/
def Recorded (r : Access) : Prop :=
  ∀ a t fd, r.opened a = some (t, fd) → a ∈ r.server.table.allocated ∧
    (r.server.cell a).parentTxn = t ∧ (r.server.cell a).fd = fd

/-- Nothing is told about descriptors. -/
theorem Recorded.quiet {s' : Server} (hr : r.Recorded) (h : KeepsFds r.server s') :
    Recorded ⟨s', r.opened⟩ := by
  intro a t fd ha
  obtain ⟨hmem, hparent, hfd⟩ := hr a t fd ha
  obtain ⟨hmem', hparent', hfd'⟩ := h a hmem
  exact ⟨hmem', hparent'.trans hparent, hfd'.trans hfd⟩

/-- A lock request. -/
theorem Recorded.request {s' : Server} {req : LockRequest} {first : Option (Option Addr)}
    {readBit : Int} (hr : r.Recorded) (hown : Owned r.server.table r.server.headTxnList)
    (hlist : HasLockList r.server)
    (h : r.server.requestLock t req first readBit = some s') :
    Recorded ⟨s', r.told s' t req first readBit⟩ := by
  rcases requestLock_fds hown hlist h with ⟨hnone, hkeep⟩ | ⟨a, loc, hgiven, ha, hat, hothers⟩
  · have htold : r.told s' t req first readBit = r.opened := by
      rw [told, hnone]
    rw [htold]
    exact hr.quiet hkeep
  by_cases hsets : r.server.SetsFd req.use loc a
  · -- the record `a` gets a descriptor
    have htold : r.told s' t req first readBit = Function.update r.opened a
        (if req.use.isOpen then some (t, (s'.cell a).fd) else none) := by
      rw [told, hgiven]
      exact if_pos hsets
    rw [htold]
    intro b u fd hb
    have hb : Function.update r.opened a
      (if req.use.isOpen then some (t, (s'.cell a).fd) else none) b = some (u, fd) := hb
    by_cases hba : b = a
    · subst hba
      rw [Function.update_self] at hb
      split at hb
      · cases hb
        exact ⟨ha, hat, rfl⟩
      · cases hb
    · rw [Function.update_of_ne hba] at hb
      obtain ⟨hmem, hparent, hfd⟩ := hr b u fd hb
      obtain ⟨hmem', hparent', hfd'⟩ := hothers b hmem
      exact ⟨hmem', hparent'.trans hparent, (hfd' (.inl hba)).trans hfd⟩
  · have htold : r.told s' t req first readBit = r.opened := by
      rw [told, hgiven]
      exact if_neg hsets
    rw [htold]
    apply hr.quiet
    intro b hb
    obtain ⟨hmem', hparent', hfd'⟩ := hothers b hb
    exact ⟨hmem', hparent', hfd' (.inr hsets)⟩

/-- The end of a transaction leaves the descriptors of the others. -/
theorem Recorded.ended {s' : Server} (hr : r.Recorded)
    (h : ∀ b ∈ r.server.table.allocated, (r.server.cell b).parentTxn ≠ t →
      b ∈ s'.table.allocated ∧ (s'.cell b).parentTxn = (r.server.cell b).parentTxn ∧
        (s'.cell b).fd = (r.server.cell b).fd) :
    Recorded ⟨s', fun a => (r.opened a).filter fun o => o.1 ≠ t⟩ := by
  intro a u fd ha
  obtain ⟨hopened, hu⟩ := Option.filter_eq_some_iff.mp ha
  obtain ⟨hmem, hparent, hfd⟩ := hr a u fd hopened
  have hut : u ≠ t := of_decide_eq_true hu
  obtain ⟨hmem', hparent', hfd'⟩ := h a hmem (hparent.symm ▸ hut)
  exact ⟨hmem', hparent'.trans hparent, hfd'.trans hfd⟩

theorem step_server (h : r.step e = some r') : r.server.step e = some r'.server := by
  simp only [step, Option.bind_eq_bind, Option.bind_eq_some_iff] at h
  obtain ⟨s', hs', h⟩ := h
  rw [hs']
  split at h
  case h_2 =>
    split at h
    · exact congrArg (fun r => some r.server) (Option.some.inj h)
    · exact congrArg (fun r => some r.server) (Option.some.inj h)
  all_goals exact congrArg (fun r => some r.server) (Option.some.inj h)

/-- **Every event keeps the record of what the clients have been told**. -/
theorem recorded_step (hr : r.Recorded) (hown : Owned r.server.table r.server.headTxnList)
    (hlist : HasLockList r.server) (h : r.step e = some r') : r'.Recorded := by
  obtain ⟨s', opened⟩ := r'
  have hstep : r.server.step e = some s' := step_server h
  simp only [step, hstep, Option.bind_eq_bind, Option.bind_some] at h
  have hquiet : (⟨s', r.opened⟩ : Access) = ⟨s', opened⟩ → KeepsFds r.server s' →
      Recorded ⟨s', opened⟩ := by
    intro heq hkeep
    rw [← heq]
    exact hr.quiet hkeep
  cases step_spec hstep with
  | begin => exact hquiet (Option.some.inj h) (.of_table rfl)
  | lock hthread hreq =>
    rw [← Option.some.inj h]
    exact hr.request hown hlist hreq
  | resume hthread hreq =>
    simp only [hthread] at h
    rw [← Option.some.inj h]
    exact hr.request hown hlist hreq
  | wake hthread hwake =>
    exact hquiet (Option.some.inj h) (.of_table (afterCondWait_frame hwake).1)
  | leaveAsVictim hthread hwake =>
    apply hquiet (Option.some.inj h)
    obtain ⟨_, -, rfl⟩ := afterWakeCond_spec hwake
    exact .of_table rfl
  | call hcall =>
    apply hquiet (Option.some.inj h)
    obtain ⟨-, -, -, halloc, hcells⟩ := logEvent_spec hcall
    intro b hb
    rw [halloc, hcells]
    exact ⟨hb, rfl, rfl⟩
  | commit hthread hrel hend =>
    rw [← Option.some.inj h]
    apply hr.ended
    intro b hb hbt
    have htable := endTxn_table hend
    rw [cell, htable]
    exact releaseLocks_fds (fun s a r s₁ pre hr h => (performWrites_prepares s a r s₁ pre hr h).1)
      hown hrel hb hbt
  | abort hthread hrel hend =>
    rw [← Option.some.inj h]
    apply hr.ended
    intro b hb hbt
    have htable := endTxn_table hend
    rw [cell, htable]
    exact releaseLocks_fds (fun s a r s₁ pre hr h => (discardWrites_prepares s a r s₁ pre hr h).1)
      hown hrel hb hbt
  | releaseByBackup hthread hrel =>
    rw [← Option.some.inj h]
    obtain ⟨l, a, -, hfree⟩ := releaseLocksByBackup_spec hown hrel
    have hframe := hfree.frame hown
    intro b u fd hb
    -- what the backup has freed is forgotten
    have hb : (if b ∈ LockTable.allocated _ then r.opened b else none) = some (u, fd) := hb
    split at hb
    · rename_i hmem
      obtain ⟨hmem₀, hparent, hfd⟩ := hr b u fd hb
      obtain ⟨-, -, hfd', -, hparent', -⟩ := hframe.fields b ((hframe.mem b).mp hmem).1
      exact ⟨hmem, hparent'.trans hparent, hfd'.trans hfd⟩
    · cases hb
  | endBackup hthread hnone hend =>
    exact hquiet (Option.some.inj h) (.of_table (endTxn_table hend))
  | markVictim hmark =>
    apply hquiet (Option.some.inj h)
    obtain ⟨_, -, rfl⟩ := markVictim_spec hmark
    exact .of_table rfl
  | setBackup => exact hquiet (Option.some.inj h) (.of_table rfl)

theorem server_reachable (h : Reachable (init handles) step r) :
    Reachable (Server.globalInit handles) Server.step r.server := by
  refine h.invariant (P := fun r => Reachable (Server.globalInit handles) Server.step r.server)
    .init ?_
  intro r e r' _ hs _ hstep
  exact .step hs trivial (step_server hstep)

theorem recorded_of_reachable (h : Reachable (init handles) step r) : r.Recorded := by
  refine h.invariant (P := Recorded) ?_ ?_
  · intro a t fd ha
    cases ha
  · intro r e r' hreach hr _ hstep
    have hs := server_reachable hreach
    exact recorded_step hr (owned_of_reachable hs) (hasLockList_of_reachable hs) hstep

/-! ## Requests through own locks -/

/-- A lock record of the transaction, with the descriptor of its own open of the file. -/
def OwnsOpened (r : Access) (t fd : Int) (a : Addr) : Prop :=
  a ∈ r.server.table.allocated ∧ (r.server.cell a).parentTxn = t ∧ (r.server.cell a).fd = fd ∧
    r.opened a = some (t, fd)

instance (r : Access) (t fd : Int) (a : Addr) : Decidable (r.OwnsOpened t fd a) :=
  inferInstanceAs (Decidable (_ ∧ _ ∧ _ ∧ _))

/-- What the server hands to YAFFS goes through a record of the transaction, a write through
    one in exclusive mode. -/
def ThroughOwnLock (r : Access) (t : Int) (q : DataRequest) : Prop :=
  r.server.serveData t q ≠ none → ∃ a ∈ r.server.table.allocated, r.OwnsOpened t q.fd a ∧
    (q.isWrite = true → (r.server.cell a).fileMode = 1)

instance (r : Access) (t : Int) (q : DataRequest) : Decidable (r.ThroughOwnLock t q) :=
  inferInstanceAs (Decidable (_ → _))

/-- The descriptor is what an open of the transaction has returned, and no later call of it
    has assigned to the descriptor of the same record. -/
def HasBeenTold (r : Access) (t fd : Int) (a : Addr) : Prop := r.opened a = some (t, fd)

/-- **The condition**: the client has been told the descriptor, and for a write the record is
    in exclusive mode; or `write_possible` refuses the descriptor. -/
def OwnDescriptor (r : Access) (t : Int) : DataRequest → Prop
  | .read fd _ => ∃ a, r.HasBeenTold t fd a
  | .write fd _ _ => (∀ p ∈ r.server.writePossible fd, p = -1) ∨
      ∃ a, r.HasBeenTold t fd a ∧ (r.server.cell a).fileMode = 1

theorem serveData_write {s : Server} {fd nbytes : Int} {buf : String} :
    s.serveData t (.write fd buf nbytes) ≠ none ↔ ¬ ∀ p ∈ s.writePossible fd, p = -1 := by
  cases hp : s.writePossible fd with
  | none => simp [Server.serveData, onWrite, hp]
  | some p => simp [Server.serveData, onWrite, hp]

/-- **Data access through own locks**: a request in a reachable state goes through a lock of
    its transaction if and only if the condition holds. -/
theorem through_own_lock_iff (h : Reachable (init handles) step r) :
    r.ThroughOwnLock t q ↔ r.OwnDescriptor t q := by
  have hrec := recorded_of_reachable h
  -- what the client has been told is in the table
  have howns : ∀ fd a, r.HasBeenTold t fd a → r.OwnsOpened t fd a := by
    intro fd a ha
    obtain ⟨hmem, hparent, hfd⟩ := hrec a t fd ha
    exact ⟨hmem, hparent, hfd, ha⟩
  cases q with
  | read fd nbytes =>
    constructor
    · intro hown
      obtain ⟨a, -, hopened, -⟩ := hown nofun
      exact ⟨a, hopened.2.2.2⟩
    · rintro ⟨a, ha⟩ -
      have hopened := howns fd a ha
      exact ⟨a, hopened.1, hopened, nofun⟩
  | write fd buf nbytes =>
    constructor
    · intro hown
      by_cases hrefused : ∀ p ∈ r.server.writePossible fd, p = -1
      · exact .inl hrefused
      · obtain ⟨a, -, hopened, hmode⟩ := hown (serveData_write.mpr hrefused)
        exact .inr ⟨a, hopened.2.2.2, hmode rfl⟩
    · rintro (hrefused | ⟨a, ha, hmode⟩) hhanded
      · exact absurd hrefused (serveData_write.mp hhanded)
      · have hopened := howns fd a ha
        exact ⟨a, hopened.1, hopened, fun _ => hmode⟩

/-- 1 has opened a file for reading and writing and got handle 0, 2 has opened another one
    for reading and got handle 1. -/
theorem through_own_lock_two_clients :
    ∃ r, (Reachable (init 2) step r ∧ r.opened 0 = some (1, 0)) ∧
      (r.ThroughOwnLock 1 (.write 0 "x" 1) ↔ r.OwnDescriptor 1 (.write 0 "x" 1)) := by
  obtain ⟨r, hr, htold⟩ := exists_of_run (init 2) step (fun r => r.opened 0 = some (1, 0))
    [.begin 1, .begin 2, .lock 1 ⟨7, 2, .open true⟩ 0, .lock 2 ⟨8, 0, .open true⟩ 0] (by decide)
  exact ⟨r, ⟨hr, htold⟩, through_own_lock_iff hr⟩

/-- 2 reads and writes with the handle of 1. -/
theorem reads_and_writes_of_others :
    ¬ ∀ r, Reachable (init 1) step r → ∀ t q, r.ThroughOwnLock t q := by
  intro h
  obtain ⟨r, hr, hboth⟩ := exists_of_run (init 1) step
    (fun r => ¬ (r.ThroughOwnLock 2 (.read 0 1) ∨ r.ThroughOwnLock 2 (.write 0 "x" 1)))
    [.begin 1, .begin 2, .lock 1 ⟨7, 2, .open true⟩ 0] (by decide)
  exact hboth (.inl (h r hr 2 (.read 0 1)))

end Access

end TxFS
