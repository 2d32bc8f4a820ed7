import TxFS.Locks.SharedLinks
import TxFS.WaitList.Invariant

/-!
# Readers Behind Waiting Writers

Once a writer waits on an inode, a shared request waits behind it, unless the backup has the
inode in shared mode. `insert_file_list` looks at the wait list only when it finds the inode
in the lock table: between the release broadcast and the writer running again the inode has
no record, and a reader gets the lock at once. The other way past a writer is a shared list
that still leads to a freed record of the backup.
-/

namespace TxFS

open LinkedPath GuardedRun

namespace Server

variable {s s' s₁ : Server} {t readBit : Int} {e : Event} {a : Addr}

/-! ## The condition -/

/-- An exclusive request of `u` is registered in the wait node of the inode. -/
def WriterWaits (s : Server) (u i : Int) : Prop :=
  (s.queue.place u).any (fun p => p.inode = i ∧ p.mode = 1) = true

instance (s : Server) (u i : Int) : Decidable (s.WriterWaits u i) :=
  inferInstanceAs (Decidable (_ = true))

/-- The branches of `insert_file_list` that let a shared request past the wait list: the
    inode has no record, or the shared list leads to a freed record of the backup. -/
def PassesWaitList (s : Server) (t : Int) (req : LockRequest) : Prop :=
  match s.table.searchFileList req.inode with
  | some (false, _) => True
  | some (true, some loc) =>
    (s.cell loc).parentTxn ≠ t ∧ (s.cell loc).fileMode ≠ 1 ∧
      ((findFrom (fun b => (s.cell b).nextSharedRec) (fun b => (s.cell b).parentTxn = 0)
        (s.table.brk + 1) (some loc)).join.any fun b => b ∉ s.table.allocated) = true
  | _ => False

instance (s : Server) (t : Int) (req : LockRequest) : Decidable (s.PassesWaitList t req) :=
  match h : s.table.searchFileList req.inode with
  | some (false, _) => isTrue (by simp [PassesWaitList, h])
  | some (true, some loc) => decidable_of_iff
      ((s.cell loc).parentTxn ≠ t ∧ (s.cell loc).fileMode ≠ 1 ∧
        ((findFrom (fun b => (s.cell b).nextSharedRec) (fun b => (s.cell b).parentTxn = 0)
          (s.table.brk + 1) (some loc)).join.any fun b => b ∉ s.table.allocated) = true)
      (by simp [PassesWaitList, h])
  | some (true, none) => isFalse (by simp [PassesWaitList, h])
  | none => isFalse (by simp [PassesWaitList, h])

/-- **The condition**: a shared request does not come to one of these branches while an
    exclusive request of another transaction is registered. -/
def BehindWriters (s : Server) (e : Event) : Prop :=
  ∀ r ∈ s.requestOf e, r.2.1.flags = 0 →
    (∃ n ∈ s.headTxnList, n.txnId ≠ r.1 ∧ s.WriterWaits n.txnId r.2.1.inode) →
      ¬ s.PassesWaitList r.1 r.2.1

instance (s : Server) (e : Event) : Decidable (s.BehindWriters e) :=
  inferInstanceAs (Decidable (∀ r ∈ s.requestOf e, _))

/-! ## What a shared grant has seen -/

/-- A grant for a locked inode has seen no wait node, or a record of the backup. -/
theorem insertFileList_granted {i fl : Int} {loc : Option Addr}
    (h : s.insertFileList i fl t readBit true loc = some (s', .granted a)) :
    ∃ l, loc = some l ∧ (s.cell l).parentTxn ≠ t ∧ (s.cell l).fileMode ≠ 1 ∧
      (s.searchWaitList i = none ∨ ∃ b, findFrom (fun b => (s.cell b).nextSharedRec)
        (fun b => (s.cell b).parentTxn = 0) (s.table.brk + 1) (some l) = some (some b)) := by
  simp only [insertFileList, Option.bind_eq_bind, Option.bind_eq_some_iff, Bool.true_eq_false,
    if_false] at h
  obtain ⟨_, -, l, rfl, h⟩ := h
  refine ⟨l, rfl, ?_⟩
  split at h
  · cases h
  rename_i hown
  split at h
  · -- locked in exclusive mode: the request waits
    split at h <;> cases h
  rename_i hmode
  refine ⟨hown, hmode, ?_⟩
  split at h
  · rename_i hwait
    exact .inl hwait
  · simp only [Option.bind_eq_some_iff] at h
    obtain ⟨filePtr, hfind, h⟩ := h
    split at h
    · -- the walk has met a record of the backup
      rename_i hfl
      obtain ⟨b, hb⟩ := Option.ne_none_iff_exists'.mp hfl.1
      exact .inr ⟨b, hb ▸ hfind⟩
    · cases h

/-- A request that makes a record is a grant. -/
theorem requestLock_granted {req : LockRequest} {first : Option (Option Addr)}
    (h : s.requestLock t req first readBit = some s') (ha : a ∈ s'.table.allocated)
    (hnew : a ∉ s.table.allocated) :
    ∃ found loc s₁ b, s.table.searchFileList req.inode = some (found, loc) ∧
      s.insertFileList req.inode req.flags t readBit found loc = some (s₁, .granted b) := by
  simp only [requestLock, Option.bind_eq_bind, Option.bind_eq_some_iff] at h
  obtain ⟨⟨found, loc⟩, hsearch, ⟨s₁, out⟩, hinsert, h⟩ := h
  have hspec := insertFileList_spec hinsert
  have hafter : ∀ b, (s₁.afterLock t req.use (first.getD loc) b).table.allocated =
      s₁.table.allocated := by
    intro b
    obtain ⟨_, _, _, heq, hlinks, -⟩ := s₁.afterLock_spec t req.use (first.getD loc) b
    rw [heq]
    exact hlinks.allocated
  cases out with
  | granted b => exact ⟨found, loc, s₁, b, hsearch, hinsert⟩
  | held b =>
    -- the record that was found is returned
    cases h
    rw [hafter] at ha
    cases hspec with
    | held => exact absurd ha hnew
    | refused hs' hout => rcases hout with hout | hout <;> cases hout
  | blocked node =>
    cases h
    cases hspec with
    | newNode => exact absurd ha hnew
    | oldNode => exact absurd ha hnew
    | refused hs' hout => rcases hout with hout | hout <;> cases hout
  | paused =>
    cases h
    cases hspec with
    | refused hs' hout =>
      obtain ⟨_, _, _, rfl, -⟩ := hs'
      exact absurd ha hnew
  | aborted =>
    cases h
    cases hspec with
    | refused hs' hout =>
      obtain ⟨_, _, _, rfl, -⟩ := hs'
      exact absurd ha hnew

/-- A registered writer has a wait node for its inode. -/
theorem WriterWaits.searchWaitList {u i : Int} (hcount : s.queue.Counted)
    (h : s.WriterWaits u i) : s.searchWaitList i ≠ none := by
  obtain ⟨p, hp, hpi⟩ := (Option.any_eq_true ..).mp h
  obtain ⟨w, hw, -, hwi⟩ := hcount.referred u p hp
  have hinode : p.inode = i := (of_decide_eq_true hpi).1
  exact fun hnone => searchWaitList_none hnone w hw (hwi.trans hinode)

/-- A registered writer is live. -/
theorem WriterWaits.live {u i : Int} (hreg : Registered s) (h : s.WriterWaits u i) :
    ∃ n ∈ s.headTxnList, n.txnId = u := by
  obtain ⟨p, hp, -⟩ := (Option.any_eq_true ..).mp h
  obtain ⟨n, hn⟩ := Option.ne_none_iff_exists'.mp (hreg.live (by rw [hp]; simp))
  exact ⟨n, searchTxn_mem hn, searchTxn_id hn⟩

/-! ## The rule -/

/-- **Writers are not overtaken**: while an exclusive request is registered, no shared record
    of the inode is made for another transaction, unless the backup has a shared record. -/
theorem writers_not_overtaken {handles : Nat}
    (h : ReachableUnder (globalInit handles) step BehindWriters s) (hok : s.BehindWriters e)
    (hstep : s.step e = some s') (ha : a ∈ s'.table.allocated) (hnew : a ∉ s.table.allocated)
    (hmode : (s'.cell a).fileMode = 0) {u : Int} (hu : u ≠ (s'.cell a).parentTxn)
    (hwait : s.WriterWaits u (s'.cell a).fileInode) :
    ∃ b ∈ s.table.allocated, (s.cell b).parentTxn = 0 ∧ (s.cell b).fileMode = 0 ∧
      (s.cell b).fileInode = (s'.cell a).fileInode := by
  have hown := owned_of_reachable h
  have hagree := sharedAgree_of_reachable h
  obtain ⟨t, req, readBit, hrec⟩ := (step_frame hown hstep).fresh a ha hnew
  rw [hrec.inode] at hwait ⊢
  rw [hrec.parent] at hu
  have hfl : req.flags = 0 := by
    by_contra hfl
    rw [hrec.mode, if_neg hfl] at hmode
    cases hmode
  -- the request did not come past the wait list
  obtain ⟨n, hn, hnu⟩ := hwait.live (registered_of_reachable h)
  have hpass : ¬ s.PassesWaitList t req :=
    hok (t, req, readBit) hrec.request hfl ⟨n, hn, hnu ▸ hu, hnu ▸ hwait⟩
  obtain ⟨first, hreq⟩ : ∃ first, s.requestLock t req first readBit = some s' := by
    have hrequest := hrec.request
    cases step_spec hstep with
    | lock hthread hreq =>
      cases hrequest
      exact ⟨_, hreq⟩
    | @resume _ _ p _ hthread hreq =>
      simp only [requestOf, hthread, Option.some.injEq, Prod.mk.injEq] at hrequest
      obtain ⟨rfl, rfl, rfl⟩ := hrequest
      exact ⟨_, hreq⟩
    | _ => cases hrequest
  obtain ⟨found, loc, s₁, b, hsearch, hinsert⟩ := requestLock_granted hreq ha hnew
  unfold PassesWaitList at hpass
  rw [hsearch] at hpass
  cases found with
  | false => exact absurd trivial hpass
  | true =>
    obtain ⟨l, rfl, howner, hshared, hseen⟩ := insertFileList_granted hinsert
    obtain ⟨b, hfind⟩ := hseen.resolve_left (hwait.searchWaitList (counted_of_reachable h))
    -- so the record of the backup that the walk has met is not freed
    have hb : b ∈ s.table.allocated := by
      by_contra hfreed
      refine hpass ⟨howner, hshared, ?_⟩
      rw [hfind]
      simpa using hfreed
    have hwalk := findFrom_induct (P := fun b => (s.table.cells b).fileInode = req.inode ∧
      (s.table.cells b).fileMode = 0) ?_ ?_ hfind
    · exact ⟨b, hb, of_decide_eq_true hwalk.2, hwalk.1.2, hwalk.1.1⟩
    · intro x y hx hxy
      obtain ⟨-, hi, -, hmy⟩ := hagree.next x y hxy
      exact ⟨hi.trans hx.1, hmy⟩
    · intro x hx
      cases hx
      exact ⟨LockTable.searchFileList_inode hsearch, (hagree.mode _).resolve_right hshared⟩

/-- The backup reads inode 7, a writer waits, and another reader is let in. -/
theorem writers_not_overtaken_with_backup :
    ∃ s s', ReachableUnder (globalInit 1) step BehindWriters s ∧
      s.step (.lock 3 ⟨7, 0, .placeholder⟩ 0) = some s' ∧ 1 ∈ s'.table.allocated ∧
      s.WriterWaits 2 7 ∧ ∃ b ∈ s.table.allocated, (s.cell b).parentTxn = 0 ∧
        (s.cell b).fileMode = 0 ∧ (s.cell b).fileInode = (s'.cell 1).fileInode := by
  obtain ⟨s, hs, hok, hwait, hnew, hgrant⟩ := exists_of_runUnder (globalInit 1) step BehindWriters
    (fun s => s.BehindWriters (.lock 3 ⟨7, 0, .placeholder⟩ 0) ∧ s.WriterWaits 2 7 ∧
      1 ∉ s.table.allocated ∧ ((s.step (.lock 3 ⟨7, 0, .placeholder⟩ 0)).any fun s' =>
        1 ∈ s'.table.allocated ∧ (s'.cell 1).fileMode = 0 ∧ (s'.cell 1).parentTxn = 3 ∧
          (s'.cell 1).fileInode = 7) = true)
    [.begin 0, .begin 2, .begin 3, .lock 0 ⟨7, 0, .host none⟩ 0, .lock 2 ⟨7, 2, .placeholder⟩ 0]
    (by decide)
  obtain ⟨s', hstep, hs'⟩ := (Option.any_eq_true ..).mp hgrant
  obtain ⟨ha, hmode, hparent, hinode⟩ := of_decide_eq_true hs'
  refine ⟨s, s', hs, hstep, ha, hwait, ?_⟩
  exact writers_not_overtaken hs hok hstep ha hnew hmode (u := 2)
    (by rw [hparent]; decide) (by rw [hinode]; exact hwait)

/-- Between the release of transaction 1 and the writer running again, a reader gets the lock. -/
theorem writers_overtaken :
    ∃ s s', Reachable (globalInit 1) step s ∧ (∃ e, s.step e = some s') ∧
      ∃ a ∈ s'.table.allocated, a ∉ s.table.allocated ∧ (s'.cell a).fileMode = 0 ∧
        ∃ u, u ≠ (s'.cell a).parentTxn ∧ s.WriterWaits u (s'.cell a).fileInode ∧
          ¬ ∃ b ∈ s.table.allocated, (s.cell b).parentTxn = 0 ∧ (s.cell b).fileMode = 0 ∧
            (s.cell b).fileInode = (s'.cell a).fileInode := by
  obtain ⟨s, hs, hwait, hempty, hgrant⟩ := exists_of_run (globalInit 1) step
    (fun s => s.WriterWaits 2 7 ∧ s.table.allocated = [] ∧
      ((s.step (.lock 3 ⟨7, 0, .placeholder⟩ 0)).any fun s' =>
        1 ∈ s'.table.allocated ∧ (s'.cell 1).fileMode = 0 ∧ (s'.cell 1).parentTxn = 3 ∧
          (s'.cell 1).fileInode = 7) = true)
    [.begin 1, .begin 2, .begin 3, .lock 1 ⟨7, 2, .placeholder⟩ 0,
      .lock 2 ⟨7, 2, .placeholder⟩ 0, .commit 1] (by decide)
  obtain ⟨s', hstep, hs'⟩ := (Option.any_eq_true ..).mp hgrant
  obtain ⟨ha, hmode, hparent, hinode⟩ := of_decide_eq_true hs'
  refine ⟨s, s', hs, ⟨_, hstep⟩, 1, ha, by simp [hempty], hmode, 2, ?_, hinode ▸ hwait, ?_⟩
  · rw [hparent]
    decide
  · rintro ⟨b, hb, -⟩
    rw [hempty] at hb
    cases hb

end Server

end TxFS
