import TxFS.Deadlock.Construction
import TxFS.WaitList.Broadcast

/-!
# The Scan of the Lock Table

`construct_wait_for_graph` looks for the inode of every transaction in state WAITING along
`head_lock_list`, without a test for the end of the list. A transaction is in this state for
longer than it has a record to wait for: its own thread resets the state, after a release
has woken it and it has left its critical section, and a deadlock victim keeps it until its
node is deleted.

So the search is safe for the transactions that sleep, and for those that the detector has
woken. `Sleeping` is the invariant behind this, and `Scanned` adds to the server what happens
without `file_mutex`: these assignments, and the list of the waiting transactions, which the
detector makes before it locks the mutex.
-/

namespace TxFS

open LinkedPath GuardedRun

namespace Server

variable {s s' : Server} {t x : Int} {e : Event} {p : Pending} {node : Nat}

/-! ## Sleeping threads -/

/-- Whoever sleeps in the wait list has a record to wait for. -/
def Sleeping (s : Server) : Prop :=
  ∀ t p node, s.thread t = .parked p node false → s.HasRecord p.req.inode

theorem sleeping_globalInit {handles : Nat} : Sleeping (globalInit handles) :=
  fun _ _ _ h => by cases h

/-- A request is queued behind a record of its file. -/
theorem requestLock_hasRecord {req : LockRequest} {first : Option (Option Addr)} {readBit : Int}
    {woken : Bool} (hs : Consistent s) (h : s.requestLock t req first readBit = some s')
    (hp : s'.thread t = .parked p node woken) : s.HasRecord p.req.inode := by
  obtain ⟨found, loc, s₁, out, hsearch, hspec, hend⟩ := requestLock_cases h
  rcases hend with ⟨a, -, rfl⟩ | ⟨n, rfl, rfl⟩ | ⟨-, rfl⟩ | ⟨-, rfl⟩
  · obtain ⟨table, handles, st, heq, -, hst⟩ := s₁.afterLock_spec t req.use (first.getD loc) a
    rw [heq] at hp
    have hself : st = .parked p node woken := (Function.update_self ..).symm.trans hp
    rcases hst with rfl | rfl <;> cases hself
  · have hself : ThreadState.parked ⟨req, first.getD loc⟩ n false = .parked p node woken :=
      (Function.update_self ..).symm.trans hp
    cases hself
    cases hspec with
    | newNode hloc =>
      subst hloc
      exact ⟨_, hs.found_record hsearch⟩
    | oldNode hloc =>
      subst hloc
      exact ⟨_, hs.found_record hsearch⟩
    | refused hs' hout => rcases hout with hout | hout <;> cases hout
  · cases (Function.update_self ..).symm.trans hp
  · cases (Function.update_self ..).symm.trans hp

/-- Whoever sleeps behind the release of a transaction still has a record to wait for. -/
theorem releaseLocks_hasRecord {prepare : Server → Addr → Option (Server × List Act)}
    {close : Bool → Int → Option Act} {acts : List Act}
    (hprep : ∀ s a s₁ pre, prepare s a = some (s₁, pre) → SameButData s s₁)
    (hs : Consistent s) (hinodes : (s.headWaitList.map WaitNode.fileInode).Nodup)
    (hclean : ∀ a ∈ s.table.allocated, (s.cell a).parentTxn = t → s.UnlinksNothing a)
    (h : releaseLocks prepare close s t = some (s', acts))
    (hx : s'.thread x = .parked p node false)
    (hnode : ∃ w ∈ s.headWaitList, w.node = node ∧ w.fileInode = p.req.inode)
    (hrec : s.HasRecord p.req.inode) : s'.HasRecord p.req.inode := by
  -- one released record at a time; the thread that sleeps at the end has slept all the time
  refine (releaseLocks_clean (J := fun s₁ => s₁.headWaitList = s.headWaitList ∧
    (s₁.thread x = .parked p node false → s₁.HasRecord p.req.inode))
    hprep ?_ ?_ hs ⟨rfl, fun _ => hrec⟩ hclean h).2.1.2 hx
  · rintro s₁ s₂ ⟨hlist, hrec⟩ ⟨table, rfl, hlinks⟩
    refine ⟨hlist, fun hsleeps => ?_⟩
    obtain ⟨a, ha, hi⟩ := hrec hsleeps
    exact ⟨a, hlinks.allocated.symm ▸ ha, (hlinks.inode a).trans hi⟩
  · rintro s₁ a s₂ rel hs₁ ⟨hlist, hrec⟩ hfree
    refine ⟨(hfree.frame hs₁.owned).rest.1.trans hlist, fun hsleeps => ?_⟩
    have hslept := (hfree.wokenFrom x).slept hsleeps
    exact hfree.sleeping hs₁ (hlist ▸ hinodes) hsleeps (hlist ▸ hnode) (hrec hslept)

/-- The wait node of a parked thread. -/
theorem Registered.waitNode (hreg : Registered s) (hcount : s.queue.Counted) {woken : Bool}
    (ht : s.thread t = .parked p node woken) :
    ∃ w ∈ s.headWaitList, w.node = node ∧ w.fileInode = p.req.inode := by
  have hrequest := hreg t
  unfold RegisteredThread at hrequest
  rw [ht] at hrequest
  obtain ⟨w, hw, hwn, hwi⟩ := hcount.referred t _ (congrArg (TxFS.ThreadState.place _) ht)
  exact ⟨w, hw, hwn, hwi.trans (congrArg Prod.fst hrequest.2)⟩

/-- **Every step keeps the sleeping threads behind a record**. -/
theorem sleeping_step (hs : Consistent s) (hreg : Registered s) (hcount : s.queue.Counted)
    (hmark : MarkedLocked s) (h : Sleeping s) (hclean : s.CleanRelease e)
    (hstep : s.step e = some s') : Sleeping s' := by
  intro x p node hx
  -- events that free no record
  have hkeep : (∀ c, ¬ e.FreesRecord c) → ∀ {i : Int}, s.HasRecord i → s'.HasRecord i := by
    rintro hnot i ⟨a, ha, hi⟩
    obtain ⟨ha', hi'⟩ := step_keeps hs.owned hstep ha (hnot _)
    exact ⟨a, ha', hi'.trans hi⟩
  by_cases hactor : e.actor = some x
  · -- the thread has gone to sleep in this step
    have haway : ∀ {st : TxFS.ThreadState} {P : Prop}, s'.thread x = st →
        (∀ p node woken, st ≠ .parked p node woken) → P := fun hst hne =>
      absurd (hst.symm.trans hx) (hne _ _ _)
    cases step_spec hstep with
    | begin =>
      cases hactor
      exact haway (Function.update_self ..) (by simp)
    | lock hthread hreq =>
      cases hactor
      exact hkeep (fun _ => id) (requestLock_hasRecord hs hreq hx)
    | resume hthread hreq =>
      cases hactor
      exact hkeep (fun _ => id) (requestLock_hasRecord hs hreq hx)
    | @wake t p' node' woken _ hthread hwake =>
      cases hactor
      simp only [afterCondWait, Option.bind_eq_bind, Option.bind_eq_some_iff] at hwake
      obtain ⟨w, hfind, hwake⟩ := hwake
      split at hwake
      · -- back to sleep: the node is marked for another transaction
        rename_i hmarked
        cases hwake
        cases (Function.update_self ..).symm.trans hx
        obtain ⟨v, hv, hvn, hvi⟩ := hreg.waitNode hcount hthread
        have hfind' := hcount.find_node hv
        rw [hvn] at hfind'
        have hvw : v = w := Option.some.inj (hfind'.symm.trans hfind)
        exact hkeep (fun _ => id) (hvi ▸ hmark v hv (hvw ▸ hmarked.1))
      split at hwake
      · cases hwake
        exact haway (Function.update_self ..) (by simp)
      split at hwake
      · cases hwake
        exact haway (Function.update_self ..) (by simp)
      · cases hwake
        exact haway (Function.update_self ..) (by simp)
    | leaveAsVictim hthread hwake =>
      cases hactor
      obtain ⟨_, -, rfl⟩ := afterWakeCond_spec hwake
      exact haway (Function.update_self ..) (by simp)
    | call hcall =>
      cases hactor
      exact hkeep (fun _ => id) (h _ _ _ ((logEvent_threads hcall).1 ▸ hx))
    | commit hthread hrel hend =>
      cases hactor
      exact haway ((congrFun (endTxn_thread hend) _).trans (Function.update_self ..)) (by simp)
    | abort hthread hrel hend =>
      cases hactor
      exact haway ((congrFun (endTxn_thread hend) _).trans (Function.update_self ..)) (by simp)
    | releaseByBackup hthread hrel =>
      cases hactor
      obtain ⟨l, a, -, hfree⟩ := releaseLocksByBackup_spec hs.owned hrel
      -- the thread of the backup runs, it does not sleep
      have hslept := (hfree.wokenFrom _).slept hx
      rw [hthread] at hslept
      cases hslept
    | endBackup hthread hnone hend =>
      cases hactor
      exact haway ((congrFun (endTxn_thread hend) _).trans (Function.update_self ..)) (by simp)
    | markVictim => cases hactor
    | setBackup => cases hactor
  · -- the thread slept before
    have hslept := (step_wokenFrom hs.owned hstep hactor).slept hx
    have hrec := h _ _ _ hslept
    have hnode := hreg.waitNode hcount hslept
    have hinodes : (s.headWaitList.map WaitNode.fileInode).Nodup :=
      hcount.sorted.imp fun hlt => ne_of_lt hlt
    -- the end of the transaction comes behind the release, and frees nothing
    have hended : ∀ {s₁ : Server} {t records : Int}, e.actor = some t →
        s₁.endTxn t records = some s' →
        (s₁.thread x = .parked p node false → s₁.HasRecord p.req.inode) →
        s'.HasRecord p.req.inode := by
      intro s₁ t records htactor hend hrel
      have hxt : x ≠ t := fun hxt => hactor (hxt ▸ htactor)
      have hthread := congrFun (endTxn_thread hend) x
      rw [Function.update_of_ne hxt] at hthread
      obtain ⟨ns, -, rfl⟩ := endTxn_spec hend
      exact hrel (hthread.symm.trans hx)
    cases step_spec hstep with
    | commit hthread hrel hend =>
      exact hended rfl hend fun hx₁ => releaseLocks_hasRecord
        (fun _ _ _ _ => performWrites_sameButData) hs hinodes hclean hrel hx₁ hnode hrec
    | abort hthread hrel hend =>
      exact hended rfl hend fun hx₁ => releaseLocks_hasRecord
        (fun _ _ _ _ => discardWrites_sameButData) hs hinodes hclean hrel hx₁ hnode hrec
    | releaseByBackup hthread hrel =>
      obtain ⟨l, a, -, hfree⟩ := releaseLocksByBackup_spec hs.owned hrel
      exact hfree.sleeping hs hinodes hx hnode hrec
    | _ => exact hkeep (fun _ => id) hrec

/-! ## Transactions that still wait -/

/-- The node carries a mark of the detector. -/
def MarkedNode (s : Server) (node : Nat) : Prop :=
  ∃ w ∈ s.headWaitList, w.node = node ∧ w.txnidAbort ≠ -1

instance (s : Server) (node : Nat) : Decidable (s.MarkedNode node) :=
  inferInstanceAs (Decidable (∃ w ∈ s.headWaitList, _))

/-- The transaction is in the wait list, and no release has woken it: it sleeps, or its node
    is marked. -/
def StillWaits (s : Server) (t : Int) : Prop :=
  match s.thread t with
  | .parked _ node woken => woken = false ∨ s.MarkedNode node
  | .victim node => s.MarkedNode node
  | .running | .resuming _ | .aborting => False

instance (s : Server) (t : Int) : Decidable (s.StillWaits t) :=
  match h : s.thread t with
  | .parked _ node woken =>
    decidable_of_iff (woken = false ∨ s.MarkedNode node) (by simp [StillWaits, h])
  | .victim node => decidable_of_iff (s.MarkedNode node) (by simp [StillWaits, h])
  | .running | .resuming _ | .aborting => isFalse (by simp [StillWaits, h])

/-- **Who still waits has a record to wait for**. -/
theorem StillWaits.hasRecord (hreg : Registered s) (hcount : s.queue.Counted)
    (hmark : MarkedLocked s) (hsleep : Sleeping s) (h : s.StillWaits t) :
    s.HasRecord (s.waitsFor t).1 := by
  -- a marked node belongs to a locked file
  have hmarked : ∀ {node victim}, s.queue.place t =
      some ⟨node, (s.waitsFor t).1, (s.waitsFor t).2, victim⟩ → s.MarkedNode node →
      s.HasRecord (s.waitsFor t).1 := by
    rintro node victim hplace ⟨w, hw, hwn, hm⟩
    obtain ⟨v, hv, hvn, hvi⟩ := hcount.referred t _ hplace
    have hvw : v = w := List.inj_on_of_nodup_map hcount.nodes hv hw (hvn.trans hwn.symm)
    have hinode : v.fileInode = (s.waitsFor t).1 := hvi
    exact hinode ▸ hmark v hv (hvw ▸ hm)
  unfold StillWaits at h
  cases hst : s.thread t with
  | parked p node woken =>
    rw [hst] at h
    rcases h with rfl | h
    · have hrequest := hreg t
      unfold RegisteredThread at hrequest
      rw [hst] at hrequest
      rw [hrequest.2]
      exact hsleep t p node hst
    · exact hmarked (congrArg (TxFS.ThreadState.place _) hst) h
  | victim node =>
    rw [hst] at h
    exact hmarked (congrArg (TxFS.ThreadState.place _) hst) h
  | running => rw [hst] at h; exact h.elim
  | resuming p => rw [hst] at h; exact h.elim
  | aborting => rw [hst] at h; exact h.elim

end Server

namespace WaitForGraph

variable {g : WaitForGraph} {t : LockTable} {xs : List Addr}

/-- The loop of `construct_wait_for_graph` over `head_wait_graph`, under `file_mutex`. -/
def addWaitForEdges (g : WaitForGraph) (t : LockTable) : Option WaitForGraph :=
  g.zipIdx.mapM fun (w, i) => (g.edgesOf t i w).map fun edges => { w with edge := edges }

/-- The loop ends if all inodes are in the lock list. -/
theorem isSome_addWaitForEdges (htable : Chained t xs)
    (hids : (g.map WaitGraphNode.txnId).Nodup) (hedge : ∀ w ∈ g, w.edge = [])
    (hpresent : ∀ w ∈ g, ∃ a ∈ xs, t.inode a = w.inode) : (addWaitForEdges g t).isSome := by
  have hall : addWaitForEdges g t = some (g.zipIdx.map fun (w, i) =>
      { w with edge := (matched g t i (recordsOf t xs w.inode)).map fun o =>
        (g.map WaitGraphNode.txnId).idxOf o }) := by
    refine mapM_eq_some fun (w, i) hmem => ?_
    have hw : w ∈ g := List.mem_of_getElem? (List.mem_zipIdx_iff_getElem?.mp hmem)
    show (g.edgesOf t i w).map _ = _
    rw [edgesOf_eq htable hids (hedge w hw) (hpresent w hw)]
    rfl
  rw [hall]
  rfl

end WaitForGraph

/-! ## Statements outside the critical sections -/

/-- The server and the detector. A transaction is late while it has left the wait list, but
    has not yet come to `cur_state = RUNNING` behind the call of `insert_wait_list` or
    `update_wait_list`: its node still has the inode and the mode it waited for. -/
structure Scanned where
  server : Server
  late : Int → Option (Int × Int)
  /-- The nodes that the detector has listed. -/
  headWaitGraph : WaitForGraph

inductive ScanEvent where
  /-- A critical section of `file_mutex`. -/
  | server (e : Event)
  /-- The assignments to the node behind the wait. -/
  | setRunning (txnid : Int)
  /-- The loop of `construct_wait_for_graph` over `head_txn_list`. -/
  | list
  /-- The loop of `construct_wait_for_graph` over `head_wait_graph`. -/
  | scan
deriving DecidableEq, Repr

namespace Scanned

open WaitForGraph

/-- `global_init`. -/
def start (handles : Nat) : Scanned := ⟨Server.globalInit handles, fun _ => none, []⟩

/-- `head_txn_list` as the detector reads it. -/
def headTxnList (s : Scanned) : List TxnNode :=
  s.server.headTxnList.map fun n =>
    match s.late n.txnId with
    | some (inode, mode) =>
      { n with curState := .waiting, waitingForInode := inode, waitMode := mode }
    | none => n

/-- A waiter that leaves to `resume` is late at first. -/
def lateAfter (s : Scanned) (e : Event) (server : Server) : Int → Option (Int × Int) :=
  match e with
  | .wake t =>
    match server.thread t with
    | .resuming _ => Function.update s.late t (some (s.server.waitsFor t))
    | _ => s.late
  | _ => s.late

/-- A late thread takes no other step. The scan follows a `NULL` pointer if it does not find
    an inode; otherwise `destroy_wait_for_graph` ends the round. -/
def step (s : Scanned) : ScanEvent → Option Scanned
  | .server e =>
    if ∀ t ∈ e.actor, s.late t = none then
      (s.server.step e).map fun server => { s with server, late := s.lateAfter e server }
    else none
  | .setRunning t =>
    if s.late t = none then none else some { s with late := Function.update s.late t none }
  | .list => some { s with headWaitGraph := waitingNodes s.headTxnList }
  | .scan => (addWaitForEdges s.headWaitGraph s.server.table).map fun _ =>
    { s with headWaitGraph := [] }

/-- **Safety of the scan**: for every transaction in state WAITING the search along
    `head_lock_list` stops at a record of its inode. -/
def FindsRecords (s : Scanned) : Prop :=
  ∀ n ∈ s.headTxnList, n.curState = .waiting →
    ∃ a ∈ s.server.table.allocated, (s.server.cell a).fileInode = n.waitingForInode ∧
      findFrom (fun b => (s.server.cell b).next)
        (fun b => (s.server.cell b).fileInode = n.waitingForInode) (s.server.table.brk + 1)
        s.server.table.headLockList = some (some a)

/-- At a scan, all transactions in state WAITING still wait, and the listed nodes are still
    those of waiting transactions. -/
structure ScansWaiting (s : Scanned) : Prop where
  waits : ∀ n ∈ s.headTxnList, n.curState = .waiting → s.server.StillWaits n.txnId
  listed : ∀ w ∈ s.headWaitGraph, ∃ n ∈ s.headTxnList, n.txnId = w.txnId ∧
    n.curState = .waiting ∧ n.waitingForInode = w.inode

instance (s : Scanned) : Decidable s.ScansWaiting :=
  decidable_of_iff ((∀ n ∈ s.headTxnList, n.curState = .waiting → s.server.StillWaits n.txnId) ∧
    ∀ w ∈ s.headWaitGraph, ∃ n ∈ s.headTxnList, n.txnId = w.txnId ∧ n.curState = .waiting ∧
      n.waitingForInode = w.inode)
    ⟨fun h => ⟨h.1, h.2⟩, fun h => ⟨h.1, h.2⟩⟩

/-- **The condition**: clean releases; the last records of a file are released only while its
    wait node is not marked, and only nodes of locked files are marked; and the scans. -/
def ScanAllowed (s : Scanned) : ScanEvent → Prop
  | .server e => s.server.CleanRelease e ∧ s.server.BroadcastHeard e
  | .setRunning _ | .list => True
  | .scan => s.ScansWaiting

instance (s : Scanned) (e : ScanEvent) : Decidable (s.ScanAllowed e) :=
  match e with
  | .server e => inferInstanceAs (Decidable (s.server.CleanRelease e ∧ s.server.BroadcastHeard e))
  | .setRunning _ | .list => isTrue trivial
  | .scan => inferInstanceAs (Decidable s.ScansWaiting)

/-! ## Runs -/

variable {s s' : Scanned} {handles : Nat}

/-- Clean releases that are heard. -/
def Allowed (s : Server) (e : Event) : Prop := s.CleanRelease e ∧ s.BroadcastHeard e

/-- **A run of the scanned server is a run of the server**. -/
theorem server_reachable (h : ReachableUnder (start handles) step ScanAllowed s) :
    ReachableUnder (Server.globalInit handles) Server.step Allowed s.server := by
  refine h.invariant (P := fun s => ReachableUnder (Server.globalInit handles) Server.step Allowed
    s.server) .init ?_
  intro s e s' _ hserver hok hstep
  cases e with
  | server e =>
    simp only [step] at hstep
    split at hstep
    · obtain ⟨server, hs', rfl⟩ := Option.map_eq_some_iff.mp hstep
      exact hserver.step hok hs'
    · cases hstep
  | setRunning t =>
    simp only [step] at hstep
    split at hstep
    · cases hstep
    · cases hstep
      exact hserver
  | list =>
    cases hstep
    exact hserver
  | scan =>
    obtain ⟨_, -, rfl⟩ := Option.map_eq_some_iff.mp hstep
    exact hserver

/-- A late thread has left the wait list. -/
theorem late_resuming (h : ReachableUnder (start handles) step ScanAllowed s) (t : Int)
    (hlate : s.late t ≠ none) : ∃ p, s.server.thread t = .resuming p := by
  refine h.invariant (P := fun s => ∀ t, s.late t ≠ none → ∃ p, s.server.thread t = .resuming p)
    (fun t hlate => absurd rfl hlate) ?_ t hlate
  intro s e s' hs hresuming hok hstep t hlate
  cases e with
  | server e =>
    simp only [step] at hstep
    split at hstep
    swap
    · cases hstep
    rename_i hactor
    obtain ⟨server, hserver, rfl⟩ := Option.map_eq_some_iff.mp hstep
    -- late before, so not the acting thread
    have hold : s.late t ≠ none → ∃ p, server.thread t = .resuming p := by
      intro hlate
      obtain ⟨p, hp⟩ := hresuming t hlate
      have hne : e.actor ≠ some t := fun htactor => hlate (hactor t htactor)
      have hwoken := Server.step_wokenFrom (Server.owned_of_reachable (server_reachable hs)) hserver hne
      rw [hp] at hwoken
      generalize hst : server.thread t = st at hwoken
      cases hwoken with
      | same => exact ⟨p, rfl⟩
      | woken h => cases h
    cases e with
    | wake u =>
      simp only [lateAfter] at hlate
      cases hst : server.thread u with
      | resuming p =>
        rw [hst] at hlate
        by_cases htu : t = u
        · exact ⟨p, htu ▸ hst⟩
        · dsimp only at hlate
          rw [Function.update_of_ne htu] at hlate
          exact hold hlate
      | running => rw [hst] at hlate; exact hold hlate
      | parked p node woken => rw [hst] at hlate; exact hold hlate
      | victim node => rw [hst] at hlate; exact hold hlate
      | aborting => rw [hst] at hlate; exact hold hlate
    | _ => exact hold hlate
  | setRunning u =>
    simp only [step] at hstep
    split at hstep
    · cases hstep
    · cases hstep
      by_cases htu : t = u
      · subst htu
        exact absurd (Function.update_self ..) hlate
      · dsimp only at hlate
        rw [Function.update_of_ne htu] at hlate
        exact hresuming t hlate
  | list =>
    cases hstep
    exact hresuming t hlate
  | scan =>
    obtain ⟨_, -, rfl⟩ := Option.map_eq_some_iff.mp hstep
    exact hresuming t hlate

theorem nodup_headTxnList (h : ReachableUnder (start handles) step ScanAllowed s) :
    (s.headTxnList.map TxnNode.txnId).Nodup := by
  have hids : s.headTxnList.map TxnNode.txnId = s.server.headTxnList.map TxnNode.txnId := by
    rw [headTxnList, List.map_map]
    refine List.map_congr_left fun n _ => ?_
    simp only [Function.comp_apply]
    split <;> rfl
  exact hids ▸ (Server.owned_of_reachable (server_reachable h)).ids

/-- The listed nodes have distinct ids, and no edges yet. -/
theorem listed_nodes (h : ReachableUnder (start handles) step ScanAllowed s) :
    (s.headWaitGraph.map WaitGraphNode.txnId).Nodup ∧ ∀ w ∈ s.headWaitGraph, w.edge = [] := by
  refine h.invariant (P := fun s => (s.headWaitGraph.map WaitGraphNode.txnId).Nodup ∧
    ∀ w ∈ s.headWaitGraph, w.edge = []) ⟨List.nodup_nil, by simp [start]⟩ ?_
  intro s e s' hs hnodes _ hstep
  cases e with
  | server e =>
    simp only [step] at hstep
    split at hstep
    · obtain ⟨server, -, rfl⟩ := Option.map_eq_some_iff.mp hstep
      exact hnodes
    · cases hstep
  | setRunning t =>
    simp only [step] at hstep
    split at hstep
    · cases hstep
    · cases hstep
      exact hnodes
  | list =>
    cases hstep
    refine ⟨?_, fun w hw => (mem_waitingNodes hw).1⟩
    rw [waitingNodes, List.map_map]
    have hsub := (List.filter_sublist (p := fun n : TxnNode => n.curState = .waiting)
      (l := s.headTxnList)).map TxnNode.txnId
    exact hsub.nodup (nodup_headTxnList hs)
  | scan =>
    obtain ⟨_, -, rfl⟩ := Option.map_eq_some_iff.mp hstep
    exact ⟨List.nodup_nil, by simp⟩

/-- The server's invariants in the runs under the condition. -/
theorem invariants (h : ReachableUnder (Server.globalInit handles) Server.step Allowed s.server) :
    s.server.Consistent ∧ s.server.Sleeping := by
  refine h.invariant (P := fun s => s.Consistent ∧ s.Sleeping)
    ⟨Server.consistent_globalInit, Server.sleeping_globalInit⟩ ?_
  rintro s e s' hs ⟨hcons, hsleep⟩ hok hstep
  refine ⟨Server.consistent_step hcons hok.1 hstep, ?_⟩
  exact Server.sleeping_step hcons (Server.registered_of_reachable hs)
    (Server.counted_of_reachable hs)
    (Server.markedLocked_of_reachable (hs.mono fun _ _ hok => hok.2)) hsleep hok.1 hstep

/-- **The scan is safe**: in every run whose steps all meet the condition, at every scan the
    search for the inode of a transaction in state WAITING finds a record, and the loop over
    the listed nodes ends. -/
theorem scan_safe (h : ReachableUnder (start handles) step ScanAllowed s)
    (hscan : s.ScanAllowed .scan) : s.FindsRecords ∧ (s.step .scan).isSome := by
  have hserver := server_reachable h
  obtain ⟨hcons, hsleep⟩ := invariants hserver
  have hreg := Server.registered_of_reachable hserver
  have hcount := Server.counted_of_reachable hserver
  have hmark := Server.markedLocked_of_reachable (hserver.mono fun _ _ hok => hok.2)
  obtain ⟨xs, hxs⟩ := hcons.linked
  have hrecord : ∀ n ∈ s.headTxnList, n.curState = .waiting →
      ∃ a ∈ xs, s.server.table.inode a = n.waitingForInode := by
    intro n hn hwaiting
    have hstill := hscan.waits n hn hwaiting
    obtain ⟨a, ha, hi⟩ := hstill.hasRecord hreg hcount hmark hsleep
    refine ⟨a, hxs.mem_iff.mpr ha, Eq.trans hi ?_⟩
    obtain ⟨m, hm, rfl⟩ := List.mem_map.mp hn
    -- a late transaction does not wait any more
    cases hlate : s.late m.txnId with
    | some i =>
      obtain ⟨p, hp⟩ := late_resuming h m.txnId (by simp [hlate])
      simp only [hlate] at hstill
      unfold Server.StillWaits at hstill
      rw [hp] at hstill
      exact hstill.elim
    | none =>
      simp only [Server.waitsFor, hcons.owned.search_eq hm]
      rfl
  constructor
  · intro n hn hwaiting
    obtain ⟨f, rs, hrecords, hfind, -⟩ :=
      (Chained.of_wellLinked hxs).find_record (hrecord n hn hwaiting)
    have hf : f ∈ recordsOf s.server.table xs n.waitingForInode := hrecords ▸ List.mem_cons_self ..
    obtain ⟨hfxs, hinode⟩ := List.mem_filter.mp hf
    exact ⟨f, hxs.mem_iff.mp hfxs, of_decide_eq_true hinode, hfind⟩
  · obtain ⟨hids, hedge⟩ := listed_nodes h
    simp only [step, Option.isSome_map]
    refine isSome_addWaitForEdges (.of_wellLinked hxs) hids hedge fun w hw => ?_
    -- the transaction of a listed node still waits for the inode
    obtain ⟨n, hn, -, hwaiting, hinode⟩ := hscan.listed w hw
    exact hinode ▸ hrecord n hn hwaiting

/-- One writer sleeps, another one is marked as a victim and has not woken yet. -/
theorem scan_safe_markedWaiter :
    ∃ s, ReachableUnder (start 1) step ScanAllowed s ∧
      s.server.thread 2 = .parked ⟨⟨7, 2, .placeholder⟩, some 0⟩ 0 true ∧
      s.headWaitGraph.map WaitGraphNode.txnId = [2, 3] ∧
      s.FindsRecords ∧ (s.step .scan).isSome := by
  obtain ⟨s, hs, hthread, hlist, hscan⟩ := exists_of_runUnder (start 1) step ScanAllowed
    (fun s => s.server.thread 2 = .parked ⟨⟨7, 2, .placeholder⟩, some 0⟩ 0 true ∧
      s.headWaitGraph.map WaitGraphNode.txnId = [2, 3] ∧ s.ScanAllowed .scan)
    [.server (.begin 1), .server (.begin 2), .server (.begin 3),
      .server (.lock 1 ⟨7, 2, .placeholder⟩ 0), .server (.lock 2 ⟨7, 2, .placeholder⟩ 0),
      .list, .scan, .server (.lock 3 ⟨7, 2, .placeholder⟩ 0), .list,
      .server (.markVictim 7 2)] (by decide)
  exact ⟨s, hs, hthread, hlist, scan_safe hs hscan⟩

/-- The writer that transaction 2 waits for commits. Until 2 runs again it is in state
    WAITING for a file without records, and the scan follows a `NULL` pointer. -/
theorem scan_unsafe :
    ∃ s, Reachable (start 1) step s ∧ ¬ s.FindsRecords ∧ s.step .scan = none := by
  obtain ⟨s, hs, halloc, ⟨n, hn, hwaiting⟩, hscan⟩ := exists_of_run (start 1) step
    (fun s => s.server.table.allocated = [] ∧ (∃ n ∈ s.headTxnList, n.curState = .waiting) ∧
      (s.step .scan).isNone = true)
    [.server (.begin 1), .server (.begin 2), .server (.lock 1 ⟨7, 2, .placeholder⟩ 0),
      .server (.lock 2 ⟨7, 2, .placeholder⟩ 0), .server (.commit 1), .list] (by decide)
  refine ⟨s, hs, fun hfinds => ?_, Option.isNone_iff_eq_none.mp hscan⟩
  obtain ⟨a, ha, -⟩ := hfinds n hn hwaiting
  rw [halloc] at ha
  cases ha

end Scanned

end TxFS
