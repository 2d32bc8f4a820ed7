import TxFS.Lib.SerialHistory
import TxFS.Descriptors.Access
import TxFS.Locks.SharedLinks
import TxFS.Locks.Steps

/-!
# The Serial Order of the Transactions

Reads and writes of the clients go by descriptor to the objects of YAFFS. Its buffers hold the
contents as all writes have left them, and an abort calls `rollback` for the object of each handle
that it closes.

`rollback` and the lists of `file_meta_transaction_node` that the writes leave for it are not in
the repository. They are the parameter `undo`: what is kept of a write, and what a rollback makes
of the content in place. The assumption on them is `Undo.Restores`: if only this transaction has
written the object since its first write, then the rollback gives back the content in front of
that write.

If the clients send the descriptors that their transactions have opened, the locks make the
contents a strict history: the committed transactions are a serial execution in the order of
their commits, and an unfinished one sees what it would see behind them (`serial_order`).
-/

namespace TxFS

open LinkedPath GuardedRun SerialHistory

/-! ## The machine -/

/-- The server, the object opened under each handle, and the contents of the objects. -/
structure Contents (Data Note : Type) where
  server : Server
  objects : Nat → Int
  data : SerialHistory.State Int Int Data Note

/-- An event of the server, or a data request of the client of a transaction; `f` is what a
    write makes of the content, at the position of the descriptor. -/
inductive ContentsEvent (Data : Type) where
  | server (e : Event)
  | request (t : Int) (q : DataRequest) (f : Data → Data)

namespace Contents

variable {Data Note : Type}

def init (handles : Nat) (files : Int → Data) : Contents Data Note :=
  ⟨Server.globalInit handles, fun _ => 0, SerialHistory.State.init files⟩

/-- `yaffsfs_HandleToObject`: the object of a handle that is in use. -/
def handleToObject (s : Contents Data Note) (h : Int) : Option Int :=
  if 0 ≤ h ∧ s.server.handleOwner h.toNat ≠ none then some (s.objects h.toNat) else none

/-- A handle that was free and is in use has been opened for the file of the request. -/
def opened (s : Contents Data Note) (e : Event) (s' : Server) (h : Nat) : Int :=
  match s.server.requestOf e with
  | some (_, req, _) =>
    if s.server.handleOwner h = none ∧ s'.handleOwner h ≠ none then req.inode else s.objects h
  | none => s.objects h

/-- The objects for which the abort calls `rollback`. -/
def rolledBack (s : Contents Data Note) (t x : Int) : Bool :=
  (s.server.ownRecords t).any fun a => s.handleToObject (s.server.cell a).fd = some x

/-- What the end of a transaction does to the contents. -/
def ended (undo : Undo Data Note) (s : Contents Data Note) :
    Event → SerialHistory.State Int Int Data Note
  | .commit t => s.data.step undo (.commit t)
  | .abort t => s.data.step undo (.abort t (s.rolledBack t))
  | _ => s.data

/-- A call of YAFFS for the object of a handle; it fails for a handle without one. -/
def call (undo : Undo Data Note) (s : Contents Data Note) (t : Int) (f : Data → Data) :
    YaffsCall → Contents Data Note
  | .trFileRead h _ =>
    match s.handleToObject h with
    | some x => { s with data := s.data.step undo (.read t x) }
    | none => s
  | .trFileWrite h _ _ _ =>
    match s.handleToObject h with
    | some x => { s with data := s.data.step undo (.write t x f) }
    | none => s

def step (undo : Undo Data Note) (s : Contents Data Note) :
    ContentsEvent Data → Option (Contents Data Note)
  | .server e => (s.server.step e).map fun s' => ⟨s', s.opened e s', s.ended undo e⟩
  | .request t q f =>
    if s.server.thread t = .running then
      match s.server.serveData t q with
      | some c => some (s.call undo t f c)
      | none => some s
    else none

/-- **The condition**: releases are clean, the handles stay with their records, and a client
    sends a descriptor that its transaction has opened, to write one opened for writing. -/
def Disciplined (s : Contents Data Note) : ContentsEvent Data → Prop
  | .server e => s.server.CleanRelease e ∧ s.server.HandlesSafe e
  | .request t q _ => t ≠ 0 ∧ 0 < q.fd ∧ s.server.handleOwner q.fd.toNat = some t ∧
      (q.isWrite = true → ∀ a ∈ s.server.ownRecords t, (s.server.cell a).fd = q.fd →
        (s.server.cell a).fileMode = 1)

instance (s : Contents Data Note) (e : ContentsEvent Data) : Decidable (s.Disciplined e) :=
  match e with
  | .server e => inferInstanceAs (Decidable (s.server.CleanRelease e ∧ s.server.HandlesSafe e))
  | .request t q _ => inferInstanceAs (Decidable (t ≠ 0 ∧ 0 < q.fd ∧
      s.server.handleOwner q.fd.toNat = some t ∧ (q.isWrite = true →
        ∀ a ∈ s.server.ownRecords t, (s.server.cell a).fd = q.fd →
          (s.server.cell a).fileMode = 1)))

end Contents

/-! ## Descriptors behind a step -/

namespace Server

variable {s s' : Server} {t readBit : Int} {a b : Addr} {e : Event}

/-- Where the descriptor of a record comes from: from before, or from a request for its file,
    which may have taken a free handle. -/
def DescriptorFrom (s s' : Server) (req : Option LockRequest) (b : Addr) : Prop :=
  (b ∈ s.table.allocated ∧ (s'.cell b).fd = (s.cell b).fd) ∨
  ∃ q, req = some q ∧ (s'.cell b).fileInode = q.inode ∧
    (b ∈ s.table.allocated → (s.cell b).fd ≤ 0) ∧
    ((s'.cell b).fd ≤ 0 ∨ ∃ i : Nat, (s'.cell b).fd = i ∧ s.handleOwner i = none)

theorem GrantedIn.descriptor {i fl : Int} {table : LockTable}
    (hgrant : GrantedIn s t readBit table s')
    (hins : s.table.Inserted table (getFileNode i 0 fl t)) (hb : b ∈ s'.table.allocated) :
    (b ∈ s.table.allocated ∧ (s'.cell b).fd = (s.cell b).fd) ∨
      (b = s.table.brk ∧ (s'.cell b).fileInode = i ∧ (s'.cell b).fd = -1) := by
  obtain ⟨halloc, hother, -, hfd, -⟩ := hgrant.fds hins
  by_cases hbrk : b = s.table.brk
  · subst hbrk
    obtain ⟨table', _, _, _, rfl, -, -, -, -, hcells⟩ := hgrant.frame
    obtain ⟨nx, hcell⟩ := hcells s.table.brk
    obtain ⟨hinode, -⟩ := FileLock.content_fields hins.new
    refine .inr ⟨rfl, ?_, hfd⟩
    show (table'.cells _).fileInode = i
    rw [hcell]
    exact hinode
  · rw [halloc] at hb
    exact .inl ⟨(List.mem_cons.mp hb).resolve_left hbrk, (hother b hbrk).2⟩

/-- The descriptors behind a lock request of a user transaction. -/
theorem requestLock_descriptor {req : LockRequest} {first : Option (Option Addr)} (ht : t ≠ 0)
    (hown : Owned s.table s.headTxnList) (hok : s.KeepsHandle t req first)
    (h : s.requestLock t req first readBit = some s') (hb : b ∈ s'.table.allocated) :
    s.DescriptorFrom s' (some req) b := by
  obtain ⟨found, loc, s₁, out, hsearch, hspec, hend⟩ := requestLock_cases h
  -- behind `insert_file_list`
  have hspec₁ : s₁.handles = s.handles ∧
      (∀ b ∈ s₁.table.allocated, (b ∈ s.table.allocated ∧ (s₁.cell b).fd = (s.cell b).fd) ∨
        (b = s.table.brk ∧ (s₁.cell b).fileInode = req.inode ∧ (s₁.cell b).fd = -1)) ∧
      ∀ a, (out = .granted a ∨ out = .held a) → (s₁.cell a).fileInode = req.inode ∧
        (s₁.SetsFd req.use (first.getD loc) a → a ∈ s.table.allocated → (s.cell a).fd ≤ 0) := by
    -- the lock table is as it was: no new record
    have hsame : ∀ s₂ : Server, s₂.table = s.table → ∀ b ∈ s₂.table.allocated,
        (b ∈ s.table.allocated ∧ (s₂.cell b).fd = (s.cell b).fd) ∨
          (b = s.table.brk ∧ (s₂.cell b).fileInode = req.inode ∧ (s₂.cell b).fd = -1) := by
      intro s₂ htable b hb
      rw [cell, htable]
      exact .inl ⟨htable ▸ hb, rfl⟩
    -- the record of the grant is new, so no descriptor is overwritten
    have hnew : ∀ table, s.table.Inserted table (getFileNode req.inode 0 req.flags t) →
        GrantedIn s t readBit table s₁ → ∀ a, a = s.table.brk →
          (s₁.cell a).fileInode = req.inode ∧
          (s₁.SetsFd req.use (first.getD loc) a → a ∈ s.table.allocated → (s.cell a).fd ≤ 0) := by
      rintro table hins hgrant a rfl
      refine ⟨?_, fun _ hbrk => absurd hbrk hown.brk_notMem⟩
      have hmem : s.table.brk ∈ s₁.table.allocated := by
        rw [(hgrant.fds hins).1]
        exact List.mem_cons_self ..
      rcases hgrant.descriptor hins hmem with hold | hfresh
      · exact absurd hold.1 hown.brk_notMem
      · exact hfresh.2.1
    cases hspec with
    | @held l hloc hparent =>
      refine ⟨rfl, hsame s rfl, ?_⟩
      intro a ha
      have hal : a = l := by
        rcases ha with ha | ha
        · cases ha
        · cases ha
          rfl
      subst hal hloc
      -- the caller's own record: `KeepsHandle` speaks of this one
      have hfound : s.foundRecord req.inode = some a := by
        rw [foundRecord, hsearch]
      exact ⟨LockTable.searchFileList_inode hsearch,
        fun hsets _ => (hok ht).2 a hfound hparent hsets⟩
    | unlocked hadm hgrant =>
      have hins : s.table.Inserted (s.table.insertUnlocked loc (getFileNode req.inode 0 req.flags t))
          (getFileNode req.inode 0 req.flags t) := LockTable.insertUnlocked_inserted
      refine ⟨(hgrant.fds hins).2.2.2.2, fun b hb => hgrant.descriptor hins hb, ?_⟩
      intro a ha
      apply hnew _ hins hgrant
      rcases ha with ha | ha
      · cases ha
        rfl
      · cases ha
    | shared hloc howner hmode hfl hadm htable hgrant =>
      have hins := LockTable.insertShared_inserted htable
      refine ⟨(hgrant.fds hins).2.2.2.2, fun b hb => hgrant.descriptor hins hb, ?_⟩
      intro a ha
      apply hnew _ hins hgrant
      rcases ha with ha | ha
      · cases ha
        rfl
      · cases ha
    | newNode =>
      refine ⟨rfl, hsame _ rfl, ?_⟩
      intro a ha
      rcases ha with ha | ha <;> cases ha
    | oldNode =>
      refine ⟨rfl, hsame _ rfl, ?_⟩
      intro a ha
      rcases ha with ha | ha <;> cases ha
    | refused hs' hout =>
      obtain ⟨_, _, _, rfl, -⟩ := hs'
      refine ⟨rfl, hsame _ rfl, ?_⟩
      intro a ha
      rcases hout with rfl | rfl <;> rcases ha with ha | ha <;> cases ha
  obtain ⟨hhandles, hrecords, hgiven⟩ := hspec₁
  -- a record to which the caller does not assign
  have hunset : b ∈ s₁.table.allocated → (s'.cell b).fd = (s₁.cell b).fd →
      (s'.cell b).fileInode = (s₁.cell b).fileInode → s.DescriptorFrom s' (some req) b := by
    intro hb hfd hinode
    rcases hrecords b hb with ⟨hold, hfd₁⟩ | ⟨hbrk, hinode₁, hfd₁⟩
    · exact .inl ⟨hold, hfd.trans hfd₁⟩
    · refine .inr ⟨req, rfl, hinode.trans hinode₁, fun hold => ?_, .inl ?_⟩
      · exact absurd (hbrk ▸ hold) hown.brk_notMem
      · rw [hfd, hfd₁]
        decide
  rcases hend with ⟨a, hout, rfl⟩ | ⟨node, -, rfl⟩ | ⟨-, rfl⟩ | ⟨-, rfl⟩
  · obtain ⟨halloc, hcells⟩ := s₁.afterLock_cells t req.use (first.getD loc) a
    have hinode : ((s₁.afterLock t req.use (first.getD loc) a).cell b).fileInode =
        (s₁.cell b).fileInode := by
      obtain ⟨_, _, hcell⟩ := hcells b
      rw [hcell]
    rw [halloc] at hb
    obtain ⟨hinode₁, hkeeps⟩ := hgiven a hout
    cases s₁.afterLock_fd t req.use (first.getD loc) a with
    | same _ hfd => exact hunset hb (hfd b) hinode
    | set hsets _ hfd hzero =>
      by_cases hba : b = a
      · subst hba
        refine .inr ⟨req, rfl, hinode.trans hinode₁, hkeeps hsets, .inl ?_⟩
        -- a descriptor that is set for a user is 0
        rw [hzero (hok ht).1]
      · exact hunset hb (hfd b hba) hinode
    | @opened i hsets hfree _ hfd hopen =>
      by_cases hba : b = a
      · subst hba
        refine .inr ⟨req, rfl, hinode.trans hinode₁, hkeeps hsets, .inr ⟨i, hopen, ?_⟩⟩
        rw [handleOwner, ← hhandles, hfree, Option.getD_some]
      · exact hunset hb (hfd b hba) hinode
  · exact hunset hb rfl rfl
  · exact hunset hb rfl rfl
  · exact hunset hb rfl rfl

/-- A release leaves no record of its transaction. -/
theorem endTxn_noRecord {s₁ : Server} {records : Int} (hown : Owned s₁.table s₁.headTxnList)
    (hnone : ∃ n, searchTxn t s₁.headTxnList = some n ∧ n.fileRecNo = none)
    (hend : s₁.endTxn t records = some s') (hb : b ∈ s'.table.allocated) :
    (s'.cell b).parentTxn ≠ t := by
  obtain ⟨n, hn, hfirst⟩ := hnone
  have hparent := (hown.fileRecNo_eq_none_iff (searchTxn_mem hn)).mp hfirst b
    (endTxn_table hend ▸ hb)
  rw [cell, endTxn_table hend]
  rwa [searchTxn_id hn] at hparent

/-- **The descriptors behind a step**. -/
theorem step_descriptor (hown : Owned s.table s.headTxnList) (hlist : HasLockList s)
    (hok : s.HandlesSafe e) (h : s.step e = some s') (hb : b ∈ s'.table.allocated) (hb0 : (s'.cell b).parentTxn ≠ 0) :
    s.DescriptorFrom s' ((s.requestOf e).map fun r => r.2.1) b := by
  have hquiet : s'.table = s.table → s.DescriptorFrom s' ((s.requestOf e).map fun r => r.2.1) b := by
    intro htable
    refine .inl ⟨htable ▸ hb, ?_⟩
    rw [cell, htable]
    rfl
  -- nothing new without a request
  have hframe := step_frame hown h
  have hold : s.requestOf e = none → b ∈ s.table.allocated := by
    intro hnone
    by_contra hnew
    obtain ⟨_, _, _, hrecord⟩ := hframe.fresh b hb hnew
    have hreq := hrecord.request
    rw [hnone] at hreq
    cases hreq
  -- a release is not about the records that are left
  have hended : ∀ {t : Int} {s₁ : Server} {records : Int}, s.requestOf e = none →
      (∀ b ∈ s.table.allocated, (s.cell b).parentTxn ≠ t → b ∈ s₁.table.allocated ∧
        (s₁.cell b).parentTxn = (s.cell b).parentTxn ∧ (s₁.cell b).fd = (s.cell b).fd) →
      (Owned s₁.table s₁.headTxnList ∧
        ∃ n, searchTxn t s₁.headTxnList = some n ∧ n.fileRecNo = none) →
      s₁.endTxn t records = some s' →
      s.DescriptorFrom s' ((s.requestOf e).map fun r => r.2.1) b := by
    intro t s₁ records hnone hkept hrel hend
    have hmem := hold hnone
    have hparent := endTxn_noRecord hrel.1 hrel.2 hend hb
    obtain ⟨-, -, hp⟩ := hframe.fields b hmem hb
    obtain ⟨-, -, hfd⟩ := hkept b hmem (hp ▸ hparent)
    refine .inl ⟨hmem, ?_⟩
    rw [cell, endTxn_table hend]
    exact hfd
  -- the owner of a new record is the one that asks
  have hrequest : ∀ {t req readBit} {first : Option (Option Addr)},
      s.requestOf e = some (t, req, readBit) →
      s.KeepsHandle t req first → s.requestLock t req first readBit = some s' →
      s.DescriptorFrom s' ((s.requestOf e).map fun r => r.2.1) b := by
    intro t req readBit first hreq hkeep hlock
    rw [hreq]
    by_cases ht : t = 0
    · -- the record belongs to another transaction than the backup
      subst ht
      have hmem : b ∈ s.table.allocated := by
        by_contra hnew
        obtain ⟨_, _, _, hrecord⟩ := hframe.fresh b hb hnew
        have hreq' := hrecord.request
        rw [hreq] at hreq'
        cases hreq'
        exact hb0 hrecord.parent
      refine .inl ⟨hmem, ?_⟩
      rcases requestLock_fds hown hlist hlock with ⟨-, hkeep⟩ | ⟨a, loc, -, -, hat, hothers⟩
      · exact (hkeep b hmem).2.2
      · apply (hothers b hmem).2.2
        refine .inl fun hba => hb0 ?_
        rw [hba]
        exact hat
    · exact requestLock_descriptor ht hown hkeep hlock hb
  cases step_spec h with
  | begin => exact hquiet rfl
  | lock hthread hreq => exact hrequest rfl hok hreq
  | @resume t readBit p _ hthread hreq =>
    have hok' : s.KeepsHandle t p.req (some p.loc) := by
      simpa only [HandlesSafe, hthread] using hok
    refine hrequest ?_ hok' hreq
    simp only [requestOf, hthread]
  | wake hthread hwake => exact hquiet (afterCondWait_frame hwake).1
  | leaveAsVictim hthread hwake =>
    apply hquiet
    obtain ⟨_, -, rfl⟩ := afterWakeCond_spec hwake
    rfl
  | call hcall =>
    obtain ⟨-, -, -, halloc, hcells⟩ := logEvent_spec hcall
    refine .inl ⟨halloc ▸ hb, ?_⟩
    rw [hcells]
  | commit hthread hrel hend =>
    refine hended rfl ?_ (releaseLocks_owned (fun _ _ _ _ => performWrites_sameButData) hown hrel)
      hend
    intro b hb hbt
    exact releaseLocks_fds (fun s a r s₁ pre hr h => (performWrites_prepares s a r s₁ pre hr h).1)
      hown hrel hb hbt
  | abort hthread hrel hend =>
    refine hended rfl ?_ (releaseLocks_owned (fun _ _ _ _ => discardWrites_sameButData) hown hrel)
      hend
    intro b hb hbt
    exact releaseLocks_fds (fun s a r s₁ pre hr h => (discardWrites_prepares s a r s₁ pre hr h).1)
      hown hrel hb hbt
  | releaseByBackup hthread hrel =>
    obtain ⟨l, a, -, hfree⟩ := releaseLocksByBackup_spec hown hrel
    have hfreed := hfree.frame hown
    -- the records but the freed one are as before
    obtain ⟨hba, hmem⟩ := (hfreed.mem b).mp hb
    exact .inl ⟨hmem, (hfreed.fields b hba).2.2.1⟩
  | endBackup hthread hnone hend => exact hquiet (endTxn_table hend)
  | markVictim hmark =>
    apply hquiet
    obtain ⟨_, -, rfl⟩ := markVictim_spec hmark
    rfl
  | setBackup => exact hquiet rfl

end Server

/-! ## The locks of the operations -/

namespace Contents

open Server

variable {Data Note : Type} {undo : Undo Data Note} {s s' : Contents Data Note}
  {e : ContentsEvent Data} {handles : Nat} {files : Int → Data} {t x : Int} {q : DataRequest} {f : Data → Data}

/-- **The server part of the invariant**: a handle above 0 is open for the file of its record,
    and what a transaction has read or written is locked by it, in exclusive mode and with the
    handle if it has been written. -/
structure Locked (s : Contents Data Note) : Prop where
  object : ∀ a ∈ s.server.table.allocated, (s.server.cell a).parentTxn ≠ 0 → ∀ h : Nat, 0 < h →
    (s.server.cell a).fd = h → s.objects h = (s.server.cell a).fileInode
  reads : ∀ t x, Reads (s.data.live t) x → t ≠ 0 ∧ ∃ a ∈ s.server.table.allocated,
    (s.server.cell a).parentTxn = t ∧ (s.server.cell a).fileInode = x
  writes : ∀ t x, Writes (s.data.live t) x → t ≠ 0 ∧ ∃ a ∈ s.server.table.allocated,
    (s.server.cell a).parentTxn = t ∧ (s.server.cell a).fileInode = x ∧
      (s.server.cell a).fileMode = 1 ∧ 0 < (s.server.cell a).fd

/-- The object of a handle that a transaction has opened is the file of its record. -/
theorem Locked.handleToObject (h : s.Locked) (hheld : HandlesHeld s.server) (ht : t ≠ 0)
    {fd : Int} (hpos : 0 < fd) (howner : s.server.handleOwner fd.toNat = some t) :
    ∃ a ∈ s.server.table.allocated, (s.server.cell a).parentTxn = t ∧
      (s.server.cell a).fd = fd ∧
      s.handleToObject fd = some (s.server.cell a).fileInode := by
  obtain ⟨a, ha, hat, hfd⟩ := hheld.holder fd.toNat (by omega) t ht howner
  have hobject := h.object a ha (by rw [hat]; exact ht) fd.toNat (by omega) hfd
  refine ⟨a, ha, hat, by omega, ?_⟩
  rw [Contents.handleToObject, if_pos ⟨Int.le_of_lt hpos, by rw [howner]; simp⟩, hobject]

theorem serveData_cases {server : Server} {c : YaffsCall} (h : server.serveData t q = some c) :
    (∃ nbytes, c = .trFileRead q.fd nbytes) ∨
      (q.isWrite = true ∧ ∃ buf nbytes, c = .trFileWrite q.fd buf nbytes t) := by
  cases q with
  | read fd nbytes => exact .inl ⟨nbytes, (Option.some.inj h).symm⟩
  | write fd buf nbytes =>
    simp only [serveData, onWrite, Option.bind_eq_bind, Option.bind_eq_some_iff] at h
    obtain ⟨p, -, h⟩ := h
    split at h
    · cases h
    · exact .inr ⟨rfl, buf, nbytes, (Option.some.inj h).symm⟩

/-- A record of the file keeps the exclusive locks of the others away. -/
theorem Locked.not_writes (h : s.Locked) (hcons : s.server.Consistent) {a : Addr}
    (ha : a ∈ s.server.table.allocated) (hat : (s.server.cell a).parentTxn = t) {u : Int}
    (hu : u ≠ t) : ¬ Writes (s.data.live u) (s.server.cell a).fileInode := by
  intro hw
  obtain ⟨-, b, hb, hbu, hinode, hmode, -⟩ := h.writes u _ hw
  have hab := hcons.exclusive_alone hb ha hmode hinode.symm
  rw [hab] at hat
  exact hu (hbu.symm.trans hat)

/-- An exclusive record of the file keeps the shared locks of the others away as well. -/
theorem Locked.not_reads (h : s.Locked) (hcons : s.server.Consistent) {a : Addr}
    (ha : a ∈ s.server.table.allocated) (hat : (s.server.cell a).parentTxn = t)
    (hmode : (s.server.cell a).fileMode = 1) {u : Int} (hu : u ≠ t) :
    ¬ Reads (s.data.live u) (s.server.cell a).fileInode := by
  intro hr
  obtain ⟨-, b, hb, hbu, hinode⟩ := h.reads u _ hr
  have hba := hcons.exclusive_alone ha hb hmode hinode
  rw [← hba] at hat
  exact hu (hbu.symm.trans hat)

/-- **A data request of a disciplined client is strict**, and its locks are there. -/
theorem request_step {store : Int → Data} (hlocked : s.Locked) (hcons : s.server.Consistent)
    (hheld : HandlesHeld s.server) (hdata : Committed undo files store s.data)
    (hok : s.Disciplined (.request t q f)) (h : s.step undo (.request t q f) = some s') :
    s'.Locked ∧ Committed undo files store s'.data := by
  obtain ⟨ht, hpos, howner, hmode⟩ := hok
  -- the handle leads to the file of a record of `t`
  obtain ⟨a, ha, hat, hfd, hobject⟩ := hlocked.handleToObject hheld ht hpos howner
  simp only [step] at h
  split at h
  case isFalse => cases h
  cases hserve : s.server.serveData t q with
  | none =>
    simp only [hserve, Option.some.injEq] at h
    exact h ▸ ⟨hlocked, hdata⟩
  | some c =>
    simp only [hserve, Option.some.injEq] at h
    rcases serveData_cases hserve with ⟨nbytes, rfl⟩ | ⟨hwrite, buf, nbytes, rfl⟩
    · -- a read: any record of `t` is enough
      simp only [call, hobject] at h
      subst h
      refine ⟨⟨hlocked.object, ?_, ?_⟩, hdata.read fun u hu => hlocked.not_writes hcons ha hat hu⟩
      · intro u x hr
        by_cases hu : u = t
        · subst hu
          simp only [State.step, Function.update_self, reads_append_read] at hr
          rcases hr with hr | rfl
          · exact hlocked.reads u x hr
          · exact ⟨ht, a, ha, hat, rfl⟩
        · simp only [State.step, Function.update_of_ne hu] at hr
          exact hlocked.reads u x hr
      · intro u x hw
        apply hlocked.writes u x
        by_cases hu : u = t
        · subst hu
          simpa only [State.step, Function.update_self, writes_append_read] using hw
        · simpa only [State.step, Function.update_of_ne hu] using hw
    · -- a write: the record is an exclusive one
      have hexclusive := hmode hwrite a (mem_ownRecords.mpr ⟨ha, hat⟩) hfd
      simp only [call, hobject] at h
      subst h
      refine ⟨⟨hlocked.object, ?_, ?_⟩, hdata.write fun u hu =>
        ⟨hlocked.not_writes hcons ha hat hu, hlocked.not_reads hcons ha hat hexclusive hu⟩⟩
      · intro u x hr
        apply hlocked.reads u x
        by_cases hu : u = t
        · subst hu
          simpa only [State.step, Function.update_self, reads_append_write] using hr
        · simpa only [State.step, Function.update_of_ne hu] using hr
      · intro u x hw
        by_cases hu : u = t
        · subst hu
          simp only [State.step, Function.update_self, writes_append_write] at hw
          rcases hw with hw | rfl
          · exact hlocked.writes u x hw
          · exact ⟨ht, a, ha, hat, rfl, hexclusive, hfd ▸ hpos⟩
        · simp only [State.step, Function.update_of_ne hu] at hw
          exact hlocked.writes u x hw

/-- What is left of the operations behind an event of the server. -/
theorem ended_live {e : Event} {u : Int} {op : Op Int Data} (h : op ∈ (s.ended undo e).live u) :
    op ∈ s.data.live u ∧ (u ≠ 0 → ¬ e.Releases u) := by
  have hquiet : s.ended undo e = s.data → (u ≠ 0 → ¬ e.Releases u) →
      op ∈ s.data.live u ∧ (u ≠ 0 → ¬ e.Releases u) := by
    intro heq hrel
    rw [heq] at h
    exact ⟨h, hrel⟩
  have hfinish : ∀ t, op ∈ (s.data.finish t).live u → op ∈ s.data.live u ∧ (u ≠ 0 → t ≠ u) := by
    intro t hmem
    by_cases hut : u = t
    · subst hut
      simp [State.finish] at hmem
    · simp only [State.finish, Function.update_of_ne hut] at hmem
      exact ⟨hmem, fun _ htu => hut htu.symm⟩
  cases e with
  | commit t => exact hfinish t h
  | abort t => exact hfinish t h
  | releaseByBackup i => exact hquiet rfl id
  | _ => exact hquiet rfl (by simp [Event.Releases])

/-- **An event of the server keeps the locks of the operations**. -/
theorem Locked.server {e : Event} {server : Server} (hlocked : s.Locked)
    (hown : Owned s.server.table s.server.headTxnList) (hlist : HasLockList s.server)
    (hheld : HandlesHeld s.server) (hheld' : HandlesHeld server) (hok : s.server.HandlesSafe e)
    (h : s.server.step e = some server) : Locked ⟨server, s.opened e server, s.ended undo e⟩ := by
  have hframe := step_frame hown h
  constructor
  case object =>
    intro b hb hb0 n hn hfd
    have hfd' : (server.cell b).fd = n := hfd
    have howner' := hheld'.real b hb hb0 n hn hfd
    rcases step_descriptor hown hlist hok h hb hb0 with ⟨hmem, hsame⟩ | ⟨q, hq, hinode, -, hfree⟩
    · -- the handle was in use before
      obtain ⟨hi, -, hp⟩ := hframe.fields b hmem hb
      have hfd₀ : (s.server.cell b).fd = n := hsame.symm.trans hfd
      have howner := hheld.real b hmem (hp ▸ hb0) n hn hfd₀
      have hkept : s.opened e server n = s.objects n := by
        unfold opened
        split
        · rw [if_neg]
          rintro ⟨hnone, -⟩
          rw [hnone] at howner
          cases howner
        · rfl
      exact hkept.trans ((hlocked.object b hmem (hp ▸ hb0) n hn hfd₀).trans hi.symm)
    · -- the handle has just been opened, for the inode of the request
      obtain ⟨i, hi, hnone⟩ := hfree.resolve_left fun hle => by omega
      have hin : i = n := by omega
      subst hin
      obtain ⟨⟨t, req, readBit⟩, hreq, rfl⟩ := Option.map_eq_some_iff.mp hq
      simp only [opened, hreq]
      rw [if_pos ⟨hnone, by rw [howner']; simp⟩]
      exact hinode.symm
  case reads =>
    rintro u x ⟨v, hv⟩
    obtain ⟨hmem, hrel⟩ := ended_live hv
    obtain ⟨hu, a, ha, hau, hinode⟩ := hlocked.reads u x ⟨v, hmem⟩
    -- the operations of a live transaction keep its records
    have ha' := hframe.kept a ha (hau ▸ hrel hu)
    obtain ⟨hi, -, hp⟩ := hframe.fields a ha ha'
    exact ⟨hu, a, ha', hp.trans hau, hi.trans hinode⟩
  case writes =>
    rintro u x ⟨g, hg⟩
    obtain ⟨hmem, hrel⟩ := ended_live hg
    obtain ⟨hu, a, ha, hau, hinode, hmode, hpos⟩ := hlocked.writes u x ⟨g, hmem⟩
    have ha' := hframe.kept a ha (hau ▸ hrel hu)
    obtain ⟨hi, hm, hp⟩ := hframe.fields a ha ha'
    refine ⟨hu, a, ha', hp.trans hau, hi.trans hinode, hm.trans hmode, ?_⟩
    -- a request does not take the handle away
    have hfd : (server.cell a).fd = (s.server.cell a).fd := by
      rcases step_descriptor hown hlist hok h ha' (hp.trans hau ▸ hu) with
        ⟨-, hsame⟩ | ⟨_, -, -, hle, -⟩
      · exact hsame
      · exact absurd (hle ha) (Int.not_le.mpr hpos)
    show 0 < (server.cell a).fd
    rw [hfd]
    exact hpos

/-- An abort rolls back all that its transaction has written. -/
theorem Locked.rolledBack (hlocked : s.Locked) (hheld : HandlesHeld s.server)
    (hw : Writes (s.data.live t) x) : s.rolledBack t x = true := by
  obtain ⟨ht, a, ha, hat, hinode, -, hpos⟩ := hlocked.writes t x hw
  have hfd : (s.server.cell a).fd = (s.server.cell a).fd.toNat := by omega
  have ha0 : (s.server.cell a).parentTxn ≠ 0 := hat ▸ ht
  have howner := hheld.real a ha ha0 _ (by omega) hfd
  have hobject := hlocked.object a ha ha0 _ (by omega) hfd
  refine List.any_eq_true.mpr ⟨a, mem_ownRecords.mpr ⟨ha, hat⟩, decide_eq_true ?_⟩
  rw [Contents.handleToObject, if_pos ⟨Int.le_of_lt hpos, by rw [howner]; simp⟩, hobject, hinode]

/-! ## Runs -/

/-- The server of a disciplined run is in a run with clean releases and safe handles. -/
theorem server_run (h : ReachableUnder (init handles files) (step undo) Disciplined s) :
    ReachableUnder (globalInit handles) Server.step
      (fun s e => s.CleanRelease e ∧ s.HandlesSafe e) s.server := by
  refine h.invariant (P := fun s => ReachableUnder (globalInit handles) Server.step
    (fun s e => s.CleanRelease e ∧ s.HandlesSafe e) s.server) .init ?_
  intro s e s' _ hs hok hstep
  cases e with
  | server e =>
    obtain ⟨server, hserver, rfl⟩ := Option.map_eq_some_iff.mp hstep
    exact .step hs hok hserver
  | request t q f =>
    have hsame : s'.server = s.server := by
      simp only [step] at hstep
      split at hstep
      case isFalse => cases hstep
      split at hstep
      · rename_i c _
        rw [← Option.some.inj hstep]
        cases c <;> simp only [call] <;> split <;> rfl
      · rw [← Option.some.inj hstep]
    rw [hsame]
    exact hs

/-- **The committed transactions and the locks in a disciplined run**. -/
theorem committed_of_reachable (hundo : undo.Restores)
    (h : ReachableUnder (init handles files) (step undo) Disciplined s) :
    s.Locked ∧ ∃ store, Committed undo files store s.data := by
  refine h.invariant (P := fun s => s.Locked ∧ ∃ store, Committed undo files store s.data) ?_ ?_
  · refine ⟨⟨?_, ?_, ?_⟩, files, .start files⟩
    · intro a ha
      exact absurd ha (by simp [init, globalInit])
    · intro t x hr
      exact absurd hr not_reads_nil
    · intro t x hw
      exact absurd hw not_writes_nil
  · rintro s e s' hs ⟨hlocked, store, hdata⟩ hok hstep
    have hrun := server_run hs
    have hheld := handlesHeld_of_reachable (hrun.mono fun _ _ h => h.2)
    have hcons := consistent_of_reachable (hrun.mono fun _ _ h => h.1)
    cases e with
    | request t q f =>
      obtain ⟨hlocked', hdata'⟩ := request_step hlocked hcons hheld hdata hok hstep
      exact ⟨hlocked', store, hdata'⟩
    | server e =>
      obtain ⟨server, hserver, rfl⟩ := Option.map_eq_some_iff.mp hstep
      have hlist := hasLockList_of_reachable hrun
      have hheld' := handlesHeld_step hheld hcons.owned hlist hok.2 hserver
      refine ⟨hlocked.server hcons.owned hlist hheld hheld' hok.2 hserver, ?_⟩
      cases e with
      | commit t => exact hdata.step (e := .commit t) hundo trivial
      | abort t =>
        apply hdata.step (e := .abort t (s.rolledBack t)) hundo
        intro x hw
        exact hlocked.rolledBack hheld hw
      | _ => exact ⟨store, hdata⟩

end Contents

end TxFS
