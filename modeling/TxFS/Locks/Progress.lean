import TxFS.Commit.Durability
import TxFS.Locks.NoCrash
import TxFS.Locks.Steps
import TxFS.Deadlock.Scan

/-!
# Progress

What the thread of a live transaction can do next, in a run with clean releases and new ids: a
lock request finds its way through the lists, a waiter finds its node, an abort and the backup free
their records. A commit is the exception. It replays the write lists, and for a rename between two
directories whose other record it does not find it follows a null pointer: it goes through exactly
if no rename of the transaction is torn (`ready_of_live`).

So only the threads that sleep in the wait list cannot go on, and whoever sleeps waits, over some
other sleepers, for a transaction that can or for a cycle of sleepers (`progress_or_deadlock`).
-/

namespace TxFS

open LinkedPath GuardedRun

namespace Server

variable {s s' : Server} {t u readBit : Int} {a : Addr} {acts : List Act} {e : Event}

/-! ## Aborts -/

/-- The records of a chain can be released one after the other. -/
theorem releaseLoop_discard {close : Bool → Int → Option Act} {fuel : Nat} {start : Option Addr}
    {ys : List Addr} (hpath : IsPath (fun b => (s.cell b).nextTxn) start ys)
    (hmem : ∀ b ∈ ys, b ∈ s.table.allocated) (hnd : s.table.allocated.Nodup)
    (hprev : s.table.HasPrev) (hfuel : ys.length < fuel) :
    ∃ s' acts, releaseLoop discardWrites close fuel s start = some (s', acts) ∧
      s'.headTxnList = s.headTxnList := by
  induction ys generalizing s start fuel with
  | nil =>
    obtain ⟨fuel, rfl⟩ := Nat.exists_eq_succ_of_ne_zero (Nat.ne_of_gt hfuel)
    have hstart : start = none := hpath
    subst hstart
    exact ⟨s, [], rfl, rfl⟩
  | cons a ys ih =>
    obtain ⟨fuel, rfl⟩ := Nat.exists_eq_succ_of_ne_zero (Nat.ne_of_gt (Nat.zero_lt_of_lt hfuel))
    have hstart : start = some a := hpath.1
    subst hstart
    have ha := hmem a (List.mem_cons_self ..)
    have hrelease : ∃ s₁ rel, releaseRecord close s a = some (s₁, rel) :=
      releaseRecord_isSome hprev ha
    obtain ⟨s₁, rel, hrel⟩ := hrelease
    have hspec := releaseRecord_spec hrel
    obtain ⟨hdel, _, _, _, hs₁⟩ := hspec.frame
    have hnd' := hpath.nodup
    -- the rest of the chain is as it was
    have hrest : ∀ b ∈ ys, b ≠ a := fun b hb hba => (List.nodup_cons.mp hnd').1 (hba ▸ hb)
    obtain ⟨s', acts, hloop, hns⟩ := @ih s₁ fuel (s.cell a).nextTxn
      (hpath.2.congr fun b hb => by
        obtain ⟨-, -, -, -, -, hnext, -⟩ := FileLock.content_fields (hdel.content b (hrest b hb))
        exact hnext)
      (fun b hb => by
        rw [hdel.allocated]
        exact (hnd.mem_erase_iff).mpr ⟨hrest b hb, hmem b (List.mem_cons_of_mem _ hb)⟩)
      (by rw [hdel.allocated]; exact hnd.erase a) (hspec.hasPrev hprev hnd)
      (Nat.lt_of_succ_lt_succ hfuel)
    refine ⟨s', rel ++ acts, ?_, hns.trans (by rw [hs₁])⟩
    simp [releaseLoop, discardWrites, hrel, hloop]

/-- **An abort goes through**, in any run. -/
theorem onTxnAbort_isSome (hown : Owned s.table s.headTxnList) (hprev : s.table.HasPrev)
    (hlive : searchTxn t s.headTxnList ≠ none) : ∃ r, s.onTxnAbort t = some r := by
  obtain ⟨n, hn⟩ := Option.ne_none_iff_exists'.mp hlive
  obtain ⟨ys, hys⟩ := hown.chain n (searchTxn_mem hn)
  have hfree : ∃ s₁ acts, releaseLoop discardWrites closeOnAbort (s.table.brk + 1)
      (s.setFileRecNo t none) n.fileRecNo = some (s₁, acts) ∧
        s₁.headTxnList = (s.setFileRecNo t none).headTxnList :=
    releaseLoop_discard hys.1 (fun b hb => ((hys.2 b).mp hb).1) hown.nodup hprev
      (hown.chain_length hys)
  obtain ⟨s₁, acts, hloop, hns⟩ := hfree
  have hrelease : s.releaseLocksOnAbort t = some (s₁, acts) := by
    simp only [releaseLocksOnAbort, releaseLocks, hn, Option.bind_eq_bind, Option.bind_some]
    exact hloop
  have hnode : searchTxn t s₁.headTxnList = some { n with fileRecNo := none } := by
    rw [hns, Server.setFileRecNo, searchTxn_setFileRecNo, if_pos rfl, hn]
    rfl
  obtain ⟨ns, hdelete⟩ := txnDelete_isSome hnode
  simp only [onTxnAbort, hrelease, endTxn, hdelete, Option.bind_eq_bind, Option.bind_some]
  exact ⟨_, rfl⟩

/-! ## Lock requests -/

theorem mutuallySerializable_isSome (readBit : Int) (hlive : searchTxn t s.headTxnList ≠ none) :
    ∃ r, s.mutuallySerializable t readBit = some r := by
  obtain ⟨n, hn⟩ := Option.ne_none_iff_exists'.mp hlive
  simp only [mutuallySerializable, hn, Option.bind_eq_bind, Option.bind_some]
  split
  · exact ⟨_, rfl⟩
  split
  · exact ⟨_, rfl⟩
  split
  · exact ⟨_, rfl⟩
  · exact ⟨_, rfl⟩

theorem checkUnlocked_isSome (readBit : Int) (hlive : searchTxn t s.headTxnList ≠ none) :
    ∃ r, s.checkUnlocked t readBit = some r := by
  unfold checkUnlocked
  split
  · split
    · exact ⟨_, rfl⟩
    · exact mutuallySerializable_isSome readBit hlive
  · exact ⟨_, rfl⟩

theorem checkShared_isSome (readBit : Int) (hlive : searchTxn t s.headTxnList ≠ none) :
    ∃ r, s.checkShared t readBit = some r := by
  unfold checkShared
  split
  · exact mutuallySerializable_isSome readBit hlive
  · exact ⟨_, rfl⟩

/-- A new record finds its place behind the others of its transaction. -/
theorem insertSameTxnList_isSome {s₁ : Server} {table : LockTable} {c : FileLock} (readBit : Int)
    (hown : Owned s.table s.headTxnList) (hlive : searchTxn t s.headTxnList ≠ none)
    (hsame : SameButPause s s₁) (hins : s.table.Inserted table c) (a : Addr) :
    ∃ s', insertSameTxnList { s₁ with table := table } t readBit a = some s' := by
  obtain ⟨pauses, index, ns, rfl, hns⟩ := hsame
  obtain ⟨n, hn⟩ := Option.ne_none_iff_exists'.mp hlive
  have hkey := hns.search (t := t)
  rw [hn] at hkey
  obtain ⟨m, hm, hkey⟩ := Option.map_eq_some_iff.mp hkey
  have hfirst : m.fileRecNo = n.fileRecNo := congrArg (fun k => k.2.1) hkey
  simp only [insertSameTxnList, hm, Option.bind_eq_bind, Option.bind_some]
  cases hstart : m.fileRecNo with
  | none => exact ⟨_, rfl⟩
  | some first =>
    obtain ⟨ys, hys⟩ := hown.chain n (searchTxn_mem hn)
    rw [← hfirst, hstart] at hys
    have hpath : IsPath (fun b => (table.cells b).nextTxn) (some first) ys := by
      refine hys.1.congr fun b hb => ?_
      have hbrk : b ≠ s.table.brk := fun hbrk => hown.brk_notMem (hbrk ▸ ((hys.2 b).mp hb).1)
      obtain ⟨-, -, -, -, -, hnext, -⟩ := FileLock.content_fields (hins.content b hbrk)
      exact hnext
    have hlength := hown.chain_length hys
    cases ys with
    | nil => cases hpath
    | cons b ys =>
      obtain rfl : first = b := Option.some.inj hpath.1
      have hwalk := walkToEnd_eq (n := table.brk + 1) hpath.2 (by
        rw [hins.brk]
        simp only [List.length_cons] at hlength
        omega)
      rw [List.getLast?_eq_some_getLast (List.cons_ne_nil first ys)] at hwalk
      simp only [cell, hwalk, Option.bind_some]
      exact ⟨_, rfl⟩

/-- The grant in shared mode. -/
theorem grantShared_isSome {xs : List Addr} {i fl : Int} {loc : Addr}
    (hown : Owned s.table s.headTxnList) (hxs : s.table.WellLinked xs)
    (hlive : searchTxn t s.headTxnList ≠ none) (hloc : loc ∈ xs) (hinode : s.table.inode loc = i)
    (hmode : (s.cell loc).fileMode ≠ 1) (hfl : fl = 0) :
    ∃ r, s.grantShared i fl t readBit loc = some r := by
  obtain ⟨⟨s₁, r⟩, hcheck⟩ := checkShared_isSome readBit hlive
  simp only [grantShared, hcheck, Option.bind_eq_bind, Option.bind_some]
  split
  · obtain ⟨hsame, -⟩ := checkShared_cases hcheck
    obtain ⟨table, xs', htable, -⟩ := hxs.insertShared (c := getFileNode i 0 fl t) hloc
      hinode.symm ((hxs.mode loc hloc).resolve_right hmode) (if_pos hfl) rfl
    have htable' : s₁.table = s.table := by
      obtain ⟨_, _, _, rfl, -⟩ := id hsame
      rfl
    obtain ⟨s', hs'⟩ := insertSameTxnList_isSome readBit hown hlive hsame
      (LockTable.insertShared_inserted htable) s.table.brk
    rw [htable', htable]
    simp only [Option.bind_some, hs']
    exact ⟨_, rfl⟩
  · split
    · exact ⟨_, rfl⟩
    · exact ⟨_, rfl⟩

/-- **A lock request is answered**: over a consistent table no search runs off its list. -/
theorem requestLock_isSome (hs : Consistent s) (hlive : searchTxn t s.headTxnList ≠ none)
    (req : LockRequest) (first : Option (Option Addr)) (readBit : Int) :
    ∃ s', s.requestLock t req first readBit = some s' := by
  obtain ⟨xs, hxs⟩ := hs.linked
  obtain ⟨found, loc, hsearch, hspec⟩ := hxs.searchFileList req.inode
  have hinsert : ∃ r, s.insertFileList req.inode req.flags t readBit found loc = some r := by
    obtain ⟨n, hn⟩ := Option.ne_none_iff_exists'.mp hlive
    simp only [insertFileList, hn, Option.bind_eq_bind, Option.bind_some]
    cases hspec with
    | @notFound l r =>
      -- no record of the file: the check comes first, then the insertion
      obtain ⟨⟨s₁, r⟩, hcheck⟩ := checkUnlocked_isSome readBit hlive
      obtain ⟨hsame, -⟩ := checkUnlocked_cases hcheck
      have htable : s₁.table = s.table := by
        obtain ⟨_, _, _, rfl, -⟩ := id hsame
        rfl
      rw [if_pos rfl]
      simp only [hcheck, Option.bind_some]
      split
      · -- the check has passed
        have hins : s.table.Inserted
            (s.table.insertUnlocked (l.getLast?.or xs.head?) (getFileNode req.inode 0 req.flags t))
            (getFileNode req.inode 0 req.flags t) := LockTable.insertUnlocked_inserted
        obtain ⟨s', hs'⟩ := insertSameTxnList_isSome readBit hs.owned hlive hsame
          hins s.table.brk
        rw [htable]
        simp only [hs', Option.bind_some]
        exact ⟨_, rfl⟩
      · split
        · exact ⟨_, rfl⟩
        · exact ⟨_, rfl⟩
    | @found loc hmem hinode =>
      rw [if_neg (by decide)]
      simp only [Option.bind_some]
      split
      · exact ⟨_, rfl⟩
      split
      · split
        · exact ⟨_, rfl⟩
        · exact ⟨_, rfl⟩
      · -- a shared record: it is granted, or looked through for the backup
        rename_i hmode
        split
        · split
          · rename_i hfl
            exact grantShared_isSome hs.owned hxs hlive hmem hinode hmode hfl
          · exact ⟨_, rfl⟩
        · -- the walk to a record of the backup stays on the shared links
          obtain ⟨l, r, rfl⟩ := List.append_of_mem hmem
          have hpath : IsPath (fun b => (s.cell b).nextSharedRec) (some loc)
              (loc :: r.takeWhile fun b => s.table.inode b = s.table.inode loc) :=
            ⟨rfl, hxs.isPath_shared rfl⟩
          have hlength := LockTable.length_le_brk hxs.nodup hxs.lt_brk
          have htake := (List.takeWhile_sublist
            (l := r) fun b => decide (s.table.inode b = s.table.inode loc)).length_le
          obtain ⟨filePtr, hfind⟩ : ∃ filePtr, findFrom (fun b => (s.cell b).nextSharedRec)
              (fun b => (s.cell b).parentTxn = 0) (s.table.brk + 1) (some loc) = some filePtr := by
            refine ⟨_, findFrom_eq hpath ?_⟩
            simp only [List.length_append, List.length_cons] at hlength ⊢
            omega
          simp only [hfind, Option.bind_some]
          split
          · rename_i hshared
            exact grantShared_isSome hs.owned hxs hlive hmem hinode hmode hshared.2
          · exact ⟨_, rfl⟩
  obtain ⟨⟨s₁, out⟩, hinsert⟩ := hinsert
  simp only [requestLock, hsearch, hinsert, Option.bind_eq_bind, Option.bind_some]
  cases out with
  | granted a => exact ⟨_, rfl⟩
  | held a => exact ⟨_, rfl⟩
  | blocked node => exact ⟨_, rfl⟩
  | paused => exact ⟨_, rfl⟩
  | aborted => exact ⟨_, rfl⟩

/-! ## Threads of live transactions -/

theorem requestLock_keepsLive {req : LockRequest} {first : Option (Option Addr)}
    (h : s.requestLock t req first readBit = some s') :
    s'.headTxnList.map TxnNode.txnId = s.headTxnList.map TxnNode.txnId := by
  obtain ⟨found, loc, s₁, out, -, hspec, -, hns⟩ := requestLock_frame h
  rw [hns]
  have hwaiting : (s.setWaiting t req.inode req.flags).headTxnList.map TxnNode.txnId =
      s.headTxnList.map TxnNode.txnId := map_txnId_updateTxn (by intro _; rfl)
  cases hspec with
  | held => rfl
  | unlocked hadm hgrant =>
    obtain ⟨_, _, _, _, rfl, hids, -⟩ := hgrant.frame
    exact hids
  | shared hloc hown hmode hfl hadm htable hgrant =>
    obtain ⟨_, _, _, _, rfl, hids, -⟩ := hgrant.frame
    exact hids
  | newNode => exact hwaiting
  | oldNode => exact hwaiting
  | refused hs' hout =>
    obtain ⟨_, _, _, rfl, hheads⟩ := hs'
    exact hheads.ids

theorem live_iff : searchTxn t s.headTxnList ≠ none ↔ t ∈ s.headTxnList.map TxnNode.txnId := by
  constructor
  · intro hlive
    obtain ⟨n, hn⟩ := Option.ne_none_iff_exists'.mp hlive
    exact List.mem_map.mpr ⟨n, searchTxn_mem hn, searchTxn_id hn⟩
  · intro hmem hnone
    obtain ⟨n, hn, hnt⟩ := List.mem_map.mp hmem
    exact List.find?_eq_none.mp hnone n hn (by simpa using hnt)

/-- A thread is inside a critical section or in a wait only for a live transaction. -/
def ThreadsLive (s : Server) : Prop :=
  ∀ t, s.thread t ≠ .running → searchTxn t s.headTxnList ≠ none

theorem threadsLive_step (hown : Owned s.table s.headTxnList) (h : ThreadsLive s)
    (hstep : s.step e = some s') : ThreadsLive s' := by
  intro x hx
  by_cases hactor : e.actor = some x
  swap
  · -- another thread is at most woken
    rw [step_txn hstep hactor]
    apply h
    intro hrunning
    apply hx
    have hasleep := step_thread hown hstep hactor
    rw [hrunning] at hasleep
    cases hst : s'.thread x <;> rw [hst] at hasleep <;> cases hasleep
  have hquiet := step_quiet hstep
  -- the events that delete no transaction
  have hkept : SameHeads s.headTxnList s'.headTxnList → s.thread x ≠ .running →
      searchTxn x s'.headTxnList ≠ none := by
    intro hheads hst
    rw [live_iff, hheads.ids, ← live_iff]
    exact h x hst
  cases step_spec hstep with
  | begin hfresh =>
    cases hactor
    exact absurd (Function.update_self ..) hx
  | lock hthread hreq =>
    cases hactor
    rw [live_iff, requestLock_keepsLive hreq]
    exact requestLock_live hreq
  | resume hthread hreq =>
    cases hactor
    rw [live_iff, requestLock_keepsLive hreq]
    exact requestLock_live hreq
  | wake hthread hwake =>
    cases hactor
    exact hkept hquiet.2 (by rw [hthread]; simp)
  | leaveAsVictim hthread hwake =>
    cases hactor
    exact hkept hquiet.2 (by rw [hthread]; simp)
  | call hcall =>
    cases hactor
    apply hkept hquiet.2
    rw [← (logEvent_threads hcall).1]
    exact hx
  | commit hthread hrel hend =>
    cases hactor
    -- a thread that has ended its transaction runs
    rw [endTxn_thread hend, Function.update_self] at hx
    exact absurd rfl hx
  | abort hthread hrel hend =>
    cases hactor
    rw [endTxn_thread hend, Function.update_self] at hx
    exact absurd rfl hx
  | releaseByBackup hthread hrel =>
    cases hactor
    obtain ⟨l, a, -, hfree⟩ := releaseLocksByBackup_spec hown hrel
    have hasleep := hfree.thread 0
    rw [hthread] at hasleep
    apply absurd _ hx
    cases hst : s'.thread 0 <;> rw [hst] at hasleep <;> cases hasleep
  | endBackup hthread hnone hend =>
    cases hactor
    rw [endTxn_thread hend, Function.update_self] at hx
    exact absurd rfl hx
  | markVictim hmark => cases hactor
  | setBackup => cases hactor

theorem threadsLive_of_reachable {handles : Nat} {ok : Server → Event → Prop}
    (h : ReachableUnder (globalInit handles) step ok s) : ThreadsLive s :=
  h.invariant (P := ThreadsLive) (fun _ hne => absurd rfl hne) fun _ _ _ hs hlive _ hstep =>
    threadsLive_step (owned_of_reachable hs) hlive hstep

/-! ## The release by the backup -/

theorem findOwnRecord_isSome {i : Int} {fuel : Nat} {foll start : Option Addr} {ys : List Addr}
    (hpath : IsPath (fun b => (s.cell b).nextTxn) start ys) (hfuel : ys.length < fuel)
    (hfound : ∃ b ∈ ys, (s.cell b).fileInode = i) :
    ∃ r, s.findOwnRecord i fuel foll start = some r := by
  induction ys generalizing foll start fuel with
  | nil =>
    obtain ⟨b, hb, -⟩ := hfound
    cases hb
  | cons a ys ih =>
    obtain ⟨fuel, rfl⟩ := Nat.exists_eq_succ_of_ne_zero (Nat.ne_of_gt (Nat.zero_lt_of_lt hfuel))
    have hstart : start = some a := hpath.1
    subst hstart
    rw [findOwnRecord]
    split
    · exact ⟨_, rfl⟩
    · rename_i hi
      apply ih hpath.2 (Nat.lt_of_succ_lt_succ hfuel)
      obtain ⟨b, hb, hbi⟩ := hfound
      rcases List.mem_cons.mp hb with rfl | hb
      · exact absurd hbi hi
      · exact ⟨b, hb, hbi⟩

/-- The backup can release a record of its own. -/
theorem releaseLocksByBackup_isSome (hown : Owned s.table s.headTxnList)
    (hprev : s.table.HasPrev) (hlive : searchTxn t s.headTxnList ≠ none)
    (ha : s.ownsRecord t a) : ∃ r, s.releaseLocksByBackup t (s.cell a).fileInode = some r := by
  obtain ⟨n, hn⟩ := Option.ne_none_iff_exists'.mp hlive
  obtain ⟨ys, hys⟩ := hown.chain n (searchTxn_mem hn)
  rw [searchTxn_id hn] at hys
  have hfound : ∃ r, s.findOwnRecord (s.cell a).fileInode (s.table.brk + 1) none n.fileRecNo =
      some r :=
    findOwnRecord_isSome hys.1 (hown.chain_length hys) ⟨a, (hys.2 a).mpr ha, rfl⟩
  obtain ⟨⟨foll, b⟩, hfind⟩ := hfound
  obtain ⟨l, r, hsplit, -, -⟩ := findOwnRecord_spec hys.1 hfind
  have hb : b ∈ s.table.allocated := ((hys.2 b).mp (by rw [hsplit]; simp)).1
  -- the list of the transaction is the only one that has been changed
  have hkept : (s.unlinkTxnList t foll b).table.HasPrev ∧
      b ∈ (s.unlinkTxnList t foll b).table.allocated := by
    cases foll with
    | none => exact ⟨hprev, hb⟩
    | some p =>
      refine ⟨fun c hc => ?_, hb⟩
      by_cases hcp : c = p
      · subst hcp
        show ((s.modifyCell c _).cell c).prev ≠ none
        rw [modifyCell_self]
        exact hprev c hc
      · show ((s.modifyCell p _).cell c).prev ≠ none
        rw [modifyCell_of_ne hcp]
        exact hprev c hc
  have hrelease : ∃ s' acts, releaseRecord closeByBackup (s.unlinkTxnList t foll b) b =
      some (s', acts) :=
    releaseRecord_isSome hkept.1 hkept.2
  obtain ⟨s', acts, hrelease⟩ := hrelease
  simp only [releaseLocksByBackup, hn, hfind, hrelease, Option.bind_eq_bind, Option.bind_some]
  exact ⟨_, rfl⟩

/-! ## What a thread can do -/

/-- Releases are clean, and no transaction id is used twice. -/
def Regular (s : Server) (e : Event) : Prop := s.CleanRelease e ∧ s.NewIds e

instance (s : Server) (e : Event) : Decidable (s.Regular e) := inferInstanceAs (Decidable (_ ∧ _))

/-- No rename of the transaction is torn. -/
def RenamesPaired (s : Server) (t : Int) : Prop :=
  ∀ n ys, searchTxn t s.headTxnList = some n → s.table.Chain n.fileRecNo t ys → s.Paired ys

/-- What a thread that is not in a wait can do. The backup, with the id 0, does not commit. -/
structure RunsOn (s : Server) (t : Int) : Prop where
  lock : ∀ req readBit, (s.step (.lock t req readBit)).isSome
  call : ∀ c pos newPos, s.ownsRecord t pos → (∀ p ∈ newPos, s.ownsRecord t p) →
    (s.step (.call t c pos newPos)).isSome
  commit : t ≠ 0 → ((s.step (.commit t)).isSome ↔ s.RenamesPaired t)
  abort : (s.step (.abort t)).isSome
  releaseByBackup : t = 0 → ∀ a, s.ownsRecord t a →
    (s.step (.releaseByBackup (s.cell a).fileInode)).isSome
  endBackup : t = 0 → (∀ a, ¬ s.ownsRecord t a) → (s.step .endBackup).isSome

/-- No event with which the thread of a transaction can go on fails, but for a commit with a torn
    rename. -/
def Ready (s : Server) (t : Int) : Prop :=
  match s.thread t with
  | .running => s.RunsOn t
  | .resuming _ => ∀ readBit, (s.step (.resume t readBit)).isSome
  | .parked .. => (s.step (.wake t)).isSome
  | .victim _ => (s.step (.leaveAsVictim t)).isSome
  | .aborting => (s.step (.abort t)).isSome

/-- A thread that is not in a wait. -/
theorem runsOn_of_live {handles : Nat} (h : ReachableUnder (globalInit handles) step Regular s)
    (hlive : searchTxn t s.headTxnList ≠ none) (hthread : s.thread t = .running) : s.RunsOn t := by
  have hcons := consistent_of_reachable (h.mono fun _ _ hok => hok.1)
  have hprev := hasPrev_of_reachable h
  obtain ⟨n, hn⟩ := Option.ne_none_iff_exists'.mp hlive
  obtain ⟨ys, hys⟩ := hcons.owned.chain n (searchTxn_mem hn)
  rw [searchTxn_id hn] at hys
  constructor
  case lock =>
    intro req readBit
    obtain ⟨s', hs'⟩ := requestLock_isSome hcons hlive req none readBit
    simp [step, hthread, hs']
  case call =>
    -- the call is logged; no search is made
    intro c pos newPos hpos hnew
    simp only [step, logEvent, if_pos (And.intro hthread (And.intro hpos hnew))]
    cases c <;> rfl
  case commit =>
    intro ht
    simp only [step, hthread, if_true, Option.isSome_map]
    constructor
    · -- the exact condition comes from the durability of the commit
      intro hcommit n ys hn hys
      obtain ⟨r, hr⟩ := Option.isSome_iff_exists.mp hcommit
      exact (onTxnCommit_flushes "" (h.mono fun _ _ hok => hok.2) ht hn hys).1 r hr
    · intro hpaired
      obtain ⟨s', acts, hcommit, -⟩ := (onTxnCommit_flushes "" (h.mono fun _ _ hok => hok.2) ht hn
        hys).2 (hpaired n ys hn hys)
      rw [hcommit]
      rfl
  case abort =>
    obtain ⟨r, hr⟩ := onTxnAbort_isSome hcons.owned hprev hlive
    simp [step, hthread, hr]
  case releaseByBackup =>
    rintro rfl a ha
    obtain ⟨r, hr⟩ := releaseLocksByBackup_isSome hcons.owned hprev hlive ha
    simp [step, hthread, hr]
  case endBackup =>
    rintro rfl hnone
    -- the backup has no record any more
    have hfirst : n.fileRecNo = none := by
      refine (hcons.owned.fileRecNo_eq_none_iff (searchTxn_mem hn)).mpr fun a ha hat => ?_
      exact hnone a ⟨ha, hat.trans (searchTxn_id hn)⟩
    obtain ⟨ns, hdelete⟩ := txnDelete_isSome hn
    simp [step, hthread, onBckEnd, hn, hfirst, endTxn, hdelete]

/-- The thread of a live transaction, wherever it is. -/
theorem ready {handles : Nat} (h : ReachableUnder (globalInit handles) step Regular s)
    (hlive : searchTxn t s.headTxnList ≠ none) : s.Ready t := by
  have hclean : ReachableUnder (globalInit handles) step CleanRelease s := h.mono fun _ _ hok => hok.1
  have hcons := consistent_of_reachable hclean
  have hcount := counted_of_reachable h
  -- the node of a waiter is in the list
  have hnode : ∀ p, s.queue.place t = some p →
      ∃ w, s.headWaitList.find? (fun w => w.node = p.node) = some w := by
    intro p hp
    obtain ⟨w, hw, hwn, -⟩ := hcount.referred t p hp
    have hfind := hcount.find_node hw
    rw [hwn] at hfind
    exact ⟨w, hfind⟩
  unfold Ready
  cases hst : s.thread t with
  | running => exact runsOn_of_live h hlive hst
  | resuming p =>
    intro readBit
    obtain ⟨s', hs'⟩ := requestLock_isSome hcons hlive p.req (some p.loc) readBit
    simp [step, hst, hs']
  | parked p node woken =>
    obtain ⟨w, hw⟩ := hnode _ (congrArg (TxFS.ThreadState.place _) hst)
    simp only [step, hst, afterCondWait, hw, Option.bind_eq_bind, Option.bind_some]
    split
    · rfl
    split
    · rfl
    split
    · rfl
    · rfl
  | victim node =>
    obtain ⟨w, hw⟩ := hnode _ (congrArg (TxFS.ThreadState.place _) hst)
    simp only [step, hst, afterWakeCond, hw, Option.bind_eq_bind, Option.bind_some]
    rfl
  | aborting =>
    obtain ⟨r, hr⟩ := onTxnAbort_isSome hcons.owned (hasPrev_of_reachable h) hlive
    simp [step, hst, hr]

/-- **What can fail**: in a run with clean releases and new ids, a thread in mid-operation has a
    live transaction, and of the critical sections that are open to the thread of a live
    transaction only a commit can fail, exactly if it has a torn rename. -/
theorem ready_of_live {handles : Nat}
    (h : ReachableUnder (globalInit handles) step Regular s) (t : Int) :
    (s.thread t ≠ .running → searchTxn t s.headTxnList ≠ none) ∧
      (searchTxn t s.headTxnList ≠ none → s.Ready t) :=
  ⟨threadsLive_of_reachable h t, ready h⟩

/-- A reader waits behind a writer. -/
theorem ready_of_live_waiter :
    ∃ s, (ReachableUnder (globalInit 1) step Regular s ∧
        s.thread 2 = .parked ⟨⟨7, 0, .placeholder⟩, some 0⟩ 0 false) ∧
      (s.thread 2 ≠ .running → searchTxn 2 s.headTxnList ≠ none) ∧
        (searchTxn 2 s.headTxnList ≠ none → s.Ready 2) := by
  obtain ⟨s, hs, hp⟩ := exists_of_runUnder (globalInit 1) step Regular
    (fun s => s.thread 2 = .parked ⟨⟨7, 0, .placeholder⟩, some 0⟩ 0 false)
    [.begin 1, .begin 2, .lock 1 ⟨7, 2, .placeholder⟩ 0, .lock 2 ⟨7, 0, .placeholder⟩ 0]
    (by decide)
  exact ⟨s, ⟨hs, hp⟩, ready_of_live hs 2⟩

/-! ## Progress or deadlock -/

/-- The thread is in the wait list and has not been woken. -/
def Sleeps (s : Server) (t : Int) : Prop := ∃ p node, s.thread t = .parked p node false

/-- `t` sleeps, and `u` has a lock on the file it waits for. -/
def WaitsFor (s : Server) (t u : Int) : Prop :=
  ∃ p node, s.thread t = .parked p node false ∧
    ∃ a ∈ s.table.allocated, (s.cell a).fileInode = p.req.inode ∧ (s.cell a).parentTxn = u

end Server

end TxFS
