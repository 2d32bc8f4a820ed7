import TxFS.Locks.Rerequest
import TxFS.Locks.Steps

/-!
# The Mode of a Granted Lock

The caller of `insert_file_list` takes a record for the lock it has asked for. A request for
writing has to get a record in exclusive mode, with no other record of the file beside it.

A new record is made in the mode of its request, and a request that waits, pauses or resumes
keeps its inode and its flags. The record of the same transaction is returned in the mode it
has: `insert_file_list` assumes that it is exclusive ("assuming if file is locked by same
transaction then it is done so in only exclusive mode"), and does not look.
-/

namespace TxFS

open LinkedPath GuardedRun

namespace Server

variable {s s' s₁ : Server} {t readBit : Int} {req : LockRequest} {a : Addr} {e : Event}

/-! ## The record that is returned -/

/-- `search_file_list` and `insert_file_list` return the record `a`, in the state `s₁`. -/
def Returns (s : Server) (t : Int) (req : LockRequest) (readBit : Int) (s₁ : Server) (a : Addr) :
    Prop :=
  ∃ found loc out, s.table.searchFileList req.inode = some (found, loc) ∧
    s.insertFileList req.inode req.flags t readBit found loc = some (s₁, out) ∧
    (out = .granted a ∨ out = .held a)

/-- **A record that is enough for a request**. -/
structure Suffices (s₁ : Server) (t : Int) (req : LockRequest) (a : Addr) : Prop where
  allocated : a ∈ s₁.table.allocated
  parent : (s₁.cell a).parentTxn = t
  inode : (s₁.cell a).fileInode = req.inode
  /-- A request for writing has the file in exclusive mode. -/
  mode : req.flags ≠ 0 → (s₁.cell a).fileMode = 1
  /-- And nobody else has it. -/
  alone : req.flags ≠ 0 → ∀ b ∈ s₁.table.allocated, (s₁.cell b).fileInode = req.inode → b = a

/-- The transaction asks for writing, and what the search finds is the shared record it has
    taken for reading. -/
def Upgrades (s : Server) (t : Int) (req : LockRequest) : Prop :=
  req.flags ≠ 0 ∧ ∃ a, s.table.searchFileList req.inode = some (true, some a) ∧
    (s.cell a).parentTxn = t ∧ (s.cell a).fileMode = 0

/-! ## A request through its waits -/

/-- The request waits in the wait list, or is about to be repeated. -/
def Waits (s : Server) (t : Int) (req : LockRequest) : Prop :=
  ∃ p, p.req = req ∧ ((∃ node woken, s.thread t = .parked p node woken) ∨ s.thread t = .resuming p)

theorem Waits.req_of_parked {p : Pending} {node : Nat} {woken : Bool} (h : s.Waits t req)
    (hthread : s.thread t = .parked p node woken) : p.req = req := by
  obtain ⟨q, hq, ⟨n, w, hq'⟩ | hq'⟩ := h
  · cases hq'.symm.trans hthread
    exact hq
  · cases hq'.symm.trans hthread

theorem Waits.req_of_resuming {p : Pending} (h : s.Waits t req)
    (hthread : s.thread t = .resuming p) : p.req = req := by
  obtain ⟨q, hq, ⟨n, w, hq'⟩ | hq'⟩ := h
  · cases hq'.symm.trans hthread
  · cases hq'.symm.trans hthread
    exact hq

/-- A thread that waits does nothing else. -/
theorem Waits.thread_ne (h : s.Waits t req) :
    s.thread t ≠ .running ∧ s.thread t ≠ .aborting ∧ ∀ node, s.thread t ≠ .victim node := by
  obtain ⟨p, -, ⟨node, woken, hp⟩ | hp⟩ := h
  · rw [hp]
    exact ⟨nofun, nofun, nofun⟩
  · rw [hp]
    exact ⟨nofun, nofun, nofun⟩

/-- **A request keeps its inode and its flags** until it is repeated or given up. -/
theorem Waits.step (hs : Owned s.table s.headTxnList) (hlive : searchTxn t s.headTxnList ≠ none)
    (hwait : s.Waits t req) (h : s.step e = some s') :
    s'.Waits t req ∨ (∃ node, s'.thread t = .victim node) ∨ s'.thread t = .aborting ∨
      ∃ readBit, s.requestOf e = some (t, req, readBit) := by
  by_cases hactor : e.actor = some t
  · -- of its own events the thread can take only the wake-up and the repetition
    obtain ⟨hrunning, haborting, hvictim⟩ := hwait.thread_ne
    cases step_spec h with
    | begin hfresh => cases hactor; exact absurd hfresh hlive
    | lock hrun => cases hactor; exact absurd hrun hrunning
    | @resume u readBit p _ hrun =>
      cases hactor
      refine .inr (.inr (.inr ⟨readBit, ?_⟩))
      simp [requestOf, hrun, hwait.req_of_resuming hrun]
    | @wake u p node woken _ hparked hwake =>
      cases hactor
      have hp := hwait.req_of_parked hparked
      obtain ⟨st, hst, hcases⟩ := afterCondWait_thread hwake
      have hself : s'.thread t = st := hst ▸ Function.update_self ..
      rcases hcases with rfl | rfl | rfl | rfl
      · exact .inl ⟨p, hp, .inl ⟨_, _, hself⟩⟩
      · exact .inl ⟨p, hp, .inr hself⟩
      · exact .inr (.inl ⟨_, hself⟩)
      · exact .inr (.inr (.inl hself))
    | leaveAsVictim hrun => cases hactor; exact absurd hrun (hvictim _)
    | call hcall =>
      cases hactor
      simp only [logEvent] at hcall
      split at hcall
      · rename_i hrun
        exact absurd hrun.1 hrunning
      · cases hcall
    | commit hrun => cases hactor; exact absurd hrun hrunning
    | abort hrun =>
      cases hactor
      rcases hrun with hrun | habort
      · exact absurd hrun hrunning
      · exact absurd habort haborting
    | releaseByBackup hrun => cases hactor; exact absurd hrun hrunning
    | endBackup hrun => cases hactor; exact absurd hrun hrunning
    | markVictim => cases hactor
    | setBackup => cases hactor
  · left
    have hasleep := step_thread hs h hactor
    obtain ⟨p, hp, ⟨node, woken, hthread⟩ | hthread⟩ := hwait
    · rw [hthread] at hasleep
      cases hst : s'.thread t <;> rw [hst] at hasleep <;> cases hasleep
      exact ⟨p, hp, .inl ⟨_, _, hst⟩⟩
    · rw [hthread] at hasleep
      cases hst : s'.thread t <;> rw [hst] at hasleep <;> cases hasleep
      exact ⟨p, hp, .inr hst⟩

/-! ## The mode of the record -/

/-- A new record is enough for its request. -/
theorem RequestSpec.suffices_of_granted {found : Bool} {loc : Option Addr} (hs : Consistent s)
    (hspec : RequestSpec s req.inode req.flags t readBit loc found s₁ (.granted a))
    (hsearch : s.table.searchFileList req.inode = some (found, loc)) : s₁.Suffices t req a := by
  have hframe := hspec.stepFrame (e := .lock t req readBit) hsearch hs.owned rfl
  have hnew : a = s.table.brk ∧ a ∈ s₁.table.allocated := by
    cases hspec with
    | unlocked hadm hgrant =>
      obtain ⟨_, _, _, _, rfl, -, halloc, -⟩ := hgrant.frame
      refine ⟨rfl, ?_⟩
      show _ ∈ LockTable.allocated _
      rw [halloc, LockTable.insertUnlocked_inserted.allocated]
      exact List.mem_cons_self ..
    | shared hloc hown hmode hfl hadm htable hgrant =>
      obtain ⟨_, _, _, _, rfl, -, halloc, -⟩ := hgrant.frame
      refine ⟨rfl, ?_⟩
      show _ ∈ LockTable.allocated _
      rw [halloc, (LockTable.insertShared_inserted htable).allocated]
      exact List.mem_cons_self ..
    | refused _ hout => rcases hout with hout | hout <;> cases hout
  obtain ⟨rfl, hmem⟩ := hnew
  obtain ⟨_, _, _, hrec⟩ := hframe.fresh _ hmem hs.owned.brk_notMem
  have hreq := hrec.request
  simp only [requestOf, Option.some.injEq, Prod.mk.injEq] at hreq
  obtain ⟨rfl, rfl, rfl⟩ := hreq
  have hmode : req.flags ≠ 0 → (s₁.cell s.table.brk).fileMode = 1 := by
    intro hfl
    rw [hrec.mode, if_neg hfl]
  refine ⟨hmem, hrec.parent, hrec.inode, hmode, ?_⟩
  -- the table stays consistent, so an exclusive record is alone
  intro hfl b hb hbi
  exact (hspec.consistent hs hsearch).exclusive_alone hmem hb (hmode hfl)
    (hbi.trans hrec.inode.symm)

/-- A record is new only for a transaction whose own record was not found. -/
theorem RequestSpec.not_upgrades {found : Bool} {loc : Option Addr}
    (hspec : RequestSpec s req.inode req.flags t readBit loc found s₁ (.granted a))
    (hsearch : s.table.searchFileList req.inode = some (found, loc)) : ¬ s.Upgrades t req := by
  rintro ⟨hfl, b, hb, hbt, -⟩
  rw [hsearch] at hb
  cases hspec with
  | unlocked => cases hb
  | shared hloc hown =>
    cases hb
    cases hloc
    exact hown hbt
  | refused _ hout => rcases hout with hout | hout <;> cases hout

/-- **Granted mode.** In a run with clean releases a record that is returned is enough for its
    request exactly when the request is not an upgrade. -/
theorem suffices_iff {handles : Nat}
    (h : ReachableUnder (globalInit handles) step CleanRelease s)
    (hreturns : s.Returns t req readBit s₁ a) : s₁.Suffices t req a ↔ ¬ s.Upgrades t req := by
  have hs := consistent_of_reachable h
  obtain ⟨found, loc, out, hsearch, hinsert, rfl | rfl⟩ := hreturns
  · have hspec := insertFileList_spec hinsert
    exact iff_of_true (hspec.suffices_of_granted hs hsearch) (hspec.not_upgrades hsearch)
  · -- the transaction's own record, in the mode it has
    obtain ⟨rfl, rfl, hown, rfl⟩ := (insertFileList_spec hinsert).held_inv rfl
    obtain ⟨xs, hxs⟩ := hs.linked
    have hmem : a ∈ s₁.table.allocated := (hasLockList_of_reachable h).search_mem hsearch
    have hinode := LockTable.searchFileList_inode hsearch
    constructor
    · rintro hsuff ⟨hfl, b, hb, -, hshared⟩
      rw [hsearch] at hb
      cases hb
      rw [hsuff.mode hfl] at hshared
      cases hshared
    · intro hnot
      have hmode : req.flags ≠ 0 → (s₁.cell a).fileMode = 1 := by
        intro hfl
        apply (hxs.mode a (hxs.mem_iff.mpr hmem)).resolve_left
        exact fun hshared => hnot ⟨hfl, a, hsearch, hown, hshared⟩
      refine ⟨hmem, hown, hinode, hmode, ?_⟩
      intro hfl b hb hbi
      exact hs.exclusive_alone hmem hb (hmode hfl) (hbi.trans hinode.symm)

/-- A writer that has waited for a reader is woken by its commit and gets a record that is
    enough. -/
theorem suffices_after_wait : ∃ s s₁ a,
    ReachableUnder (globalInit 1) step CleanRelease s ∧
      s.thread 2 = .resuming ⟨⟨7, 2, .placeholder⟩, some 0⟩ ∧
      s.Returns 2 ⟨7, 2, .placeholder⟩ 0 s₁ a ∧ s₁.Suffices 2 ⟨7, 2, .placeholder⟩ a := by
  obtain ⟨s, hs, hthread, hsearch, hinsert⟩ := exists_of_runUnder (globalInit 1) step CleanRelease
    (fun s => s.thread 2 = .resuming ⟨⟨7, 2, .placeholder⟩, some 0⟩ ∧
      s.table.searchFileList 7 = some (false, none) ∧
      (s.insertFileList 7 2 2 0 false none).any (fun r => decide (r.2 = .granted 1)) = true)
    [.begin 1, .begin 2, .lock 1 ⟨7, 0, .placeholder⟩ 0, .lock 2 ⟨7, 2, .placeholder⟩ 0,
      .commit 1, .wake 2] (by decide)
  obtain ⟨⟨s₁, out⟩, hinsert, hout⟩ := (Option.any_eq_true ..).mp hinsert
  have hreturns : s.Returns 2 ⟨7, 2, .placeholder⟩ 0 s₁ 1 :=
    ⟨false, none, out, hsearch, hinsert, .inl (of_decide_eq_true hout)⟩
  refine ⟨s, s₁, 1, hs, hthread, hreturns, (suffices_iff hs hreturns).mpr ?_⟩
  rintro ⟨-, a, ha, -⟩
  rw [hsearch] at ha
  cases ha

/-- A transaction that has read a file asks to write it: its shared record is returned. -/
theorem reader_gets_shared_record_for_writing : ∃ s s₁ a,
    ReachableUnder (globalInit 1) step CleanRelease s ∧
      s.Returns 1 ⟨7, 2, .placeholder⟩ 0 s₁ a ∧ ¬ s₁.Suffices 1 ⟨7, 2, .placeholder⟩ a := by
  obtain ⟨s, hs, hsearch, hinsert⟩ := exists_of_runUnder (globalInit 1) step CleanRelease
    (fun s => s.table.searchFileList 7 = some (true, some 0) ∧
      (s.insertFileList 7 2 1 0 true (some 0)).any (fun r =>
        decide (r.2 = .held 0 ∧ (r.1.cell 0).fileMode = 0)) = true)
    [.begin 1, .lock 1 ⟨7, 0, .placeholder⟩ 0] (by decide)
  obtain ⟨⟨s₁, out⟩, hinsert, hout⟩ := (Option.any_eq_true ..).mp hinsert
  obtain ⟨hout, hmode⟩ := of_decide_eq_true hout
  refine ⟨s, s₁, 0, hs, ⟨true, some 0, out, hsearch, hinsert, .inr hout⟩, ?_⟩
  intro hsuff
  have hexclusive := hsuff.mode (by decide)
  rw [hmode] at hexclusive
  cases hexclusive

end Server

end TxFS
