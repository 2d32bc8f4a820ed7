import TxFS.Deadlock.Victim
import TxFS.Locks.Progress

/-!
# Deadlocks

Transactions are in a deadlock if they sleep and each of them waits for a lock of the next one.
Nothing but the detector ends a deadlock (`deadlocked_of_run`): the records that keep its
members asleep belong to threads that cannot go on.

While every waiting transaction sleeps, the victims of the detector are members of a deadlock,
and the detector finds a deadlock if there is one and the owners of the locks come in the order
in which the construction of the graph looks for them (`detects_iff`).
-/

namespace TxFS

open LinkedPath GuardedRun

namespace Server

variable {s s' : Server} {t u x : Int} {e : Event} {p : Pending} {node : Nat} {a : Addr}

/-! ## The state of being deadlocked -/

/-- `t` sleeps, and another transaction has a lock on the file it waits for. -/
def WaitsForAnother (s : Server) (t u : Int) : Prop := t ≠ u ∧ s.WaitsFor t u

/-- `t` waits, over other sleepers, for itself. -/
def Deadlocked (s : Server) (t : Int) : Prop := Relation.TransGen s.WaitsForAnother t t

/-- What leaves a deadlock to itself: the detector marks nobody, and no thread wakes up
    without a broadcast. -/
def Undisturbed (s : Server) : Event → Prop
  | .wake t => ¬ s.Sleeps t
  | .markVictim .. => False
  | _ => True

instance (s : Server) (t : Int) : Decidable (s.Sleeps t) :=
  match h : s.thread t with
  | .parked _ _ woken => decidable_of_iff (woken = false) (by simp [Sleeps, h])
  | .running | .resuming _ | .victim _ | .aborting => isFalse (by simp [Sleeps, h])

instance (s : Server) (e : Event) : Decidable (s.Undisturbed e) :=
  match e with
  | .wake t => inferInstanceAs (Decidable (¬ s.Sleeps t))
  | .markVictim .. => inferInstanceAs (Decidable False)
  | .begin _ | .lock .. | .resume .. | .leaveAsVictim _ | .call .. | .commit _ | .abort _
  | .releaseByBackup _ | .endBackup | .setBackup _ => inferInstanceAs (Decidable True)

theorem WaitsForAnother.sleeps (h : s.WaitsForAnother t u) : s.Sleeps t := by
  obtain ⟨-, p, node, hp, -⟩ := h
  exact ⟨p, node, hp⟩

/-! ## Sleepers behind a release -/

/-- A broadcast on another node does not wake the thread. -/
theorem wakeUp_asleep {n : Nat} (h : s.thread x = .parked p n false) (hne : n ≠ node) :
    (s.wakeUp node).thread x = .parked p n false := by
  simp only [wakeUp, h, Bool.false_or, decide_eq_false hne]

/-- **Only the last record wakes the file's waiters**: whoever sleeps in front of a release
    sleeps behind it while the file has another record. -/
theorem Frees.asleep {close : Bool → Int → Option Act} {l : List Addr} {b : Addr}
    {acts : List Act} (hfree : Frees close s t l a s' acts) (hs : Consistent s)
    (hnodes : (s.headWaitList.map WaitNode.node).Nodup)
    (hx : s.thread x = .parked p node false)
    (hnode : ∃ w ∈ s.headWaitList, w.node = node ∧ w.fileInode = p.req.inode)
    (hb : b ∈ s.table.allocated) (hba : b ≠ a) (hi : (s.cell b).fileInode = p.req.inode) :
    s'.thread x = .parked p node false := by
  obtain ⟨xs, hxs⟩ := hs.linked
  have ha := hxs.mem_iff.mpr hfree.mem.1
  have hbxs := hxs.mem_iff.mpr hb
  obtain ⟨n, r, -, -, hrel⟩ := hfree
  obtain ⟨table₁, ns, hunlink, -, -, -, hcells, -⟩ := s.unlinkTxnList_frame t l.getLast? a
  rw [hunlink] at hrel
  cases hrel with
  | quiet => exact hx
  | unlinked => exact hx
  | @woken table v hwait hlast htable =>
    apply wakeUp_asleep hx
    rintro rfl
    obtain ⟨hv, hvi⟩ := searchWaitList_some hwait
    obtain ⟨w, hw, hwn, hwi⟩ := hnode
    -- the node is that of the freed record, so the file has two records
    have hwv : w = v := List.inj_on_of_nodup_map hnodes hw hv hwn
    have hcell : table₁.cells a = { s.table.cells a with
        nextTxn := (table₁.cells a).nextTxn } := by
      rw [hcells a]
    have hinode : (s.cell a).fileInode = p.req.inode := by
      have hkey : (table₁.cells a).fileInode = (s.table.cells a).fileInode := by rw [hcell]
      exact hkey.symm.trans (hvi.symm.trans (hwv ▸ hwi))
    have hsame : s.table.inode b = s.table.inode a := hi.trans hinode.symm
    by_cases hmode : (s.table.cells a).fileMode = 0
    · have hlast' := hlast (by
        have hkey : (table₁.cells a).fileMode = (s.table.cells a).fileMode := by rw [hcell]
        exact hkey.trans hmode)
      have hlinks : (s.table.cells a).nextSharedRec = none ∧
          (s.table.cells a).prevSharedRec = none := by
        change (table₁.cells a).nextSharedRec = none ∧ (table₁.cells a).prevSharedRec = none
          at hlast'
        rw [hcell] at hlast'
        exact hlast'
      exact hba ((hxs.alone_iff ha).mp hlinks b hbxs hsame)
    · exact hba (hxs.exclusive a ha b hbxs hmode hsame.symm).symm

/-- The same for the release of a transaction, which has not this record. -/
theorem releaseLocks_asleep {prepare : Server → Addr → Option (Server × List Act)}
    {close : Bool → Int → Option Act} {acts : List Act} {b : Addr}
    (hprep : ∀ s a s₁ pre, prepare s a = some (s₁, pre) → SameButData s s₁)
    (hs : Consistent s) (hnodes : (s.headWaitList.map WaitNode.node).Nodup)
    (hclean : ∀ a ∈ s.table.allocated, (s.cell a).parentTxn = t → s.UnlinksNothing a)
    (h : releaseLocks prepare close s t = some (s', acts))
    (hx : s.thread x = .parked p node false)
    (hnode : ∃ w ∈ s.headWaitList, w.node = node ∧ w.fileInode = p.req.inode)
    (hb : b ∈ s.table.allocated) (hbt : (s.cell b).parentTxn ≠ t)
    (hi : (s.cell b).fileInode = p.req.inode) : s'.thread x = .parked p node false := by
  -- one record after the other is freed, and `b` stays
  refine (releaseLocks_clean (J := fun s₁ => s₁.headWaitList = s.headWaitList ∧
    s₁.thread x = .parked p node false ∧ b ∈ s₁.table.allocated ∧ (s₁.cell b).parentTxn ≠ t ∧
      (s₁.cell b).fileInode = p.req.inode)
    hprep ?_ ?_ hs ⟨rfl, hx, hb, hbt, hi⟩ hclean h).2.1.2.1
  · rintro s₁ s₂ ⟨hlist, hx, hb, hbt, hi⟩ ⟨table, rfl, hlinks⟩
    refine ⟨hlist, hx, hlinks.allocated.symm ▸ hb, ?_, (hlinks.inode b).trans hi⟩
    exact fun hparent => hbt ((hlinks.parentTxn b).symm.trans hparent)
  · rintro s₁ a s₂ rel hs₁ ⟨hlist, hx, hb, hbt, hi⟩ hfree
    have hframe := hfree.frame hs₁.owned
    have hba : b ≠ a := fun hba => hbt (hba ▸ hfree.mem.2)
    obtain ⟨hinode, -, -, -, hparent, -⟩ := hframe.fields b hba
    refine ⟨hframe.rest.1.trans hlist, ?_, (hframe.mem b).mpr ⟨hba, hb⟩, ?_, hinode.trans hi⟩
    · exact hfree.asleep hs₁ (hlist ▸ hnodes) hx (hlist ▸ hnode) hb hba hi
    · rw [hparent]
      exact hbt

/-! ## A deadlock stays -/

/-- A sleeper sleeps on behind a step of another thread that leaves it a record. -/
theorem asleep_step (hs : Consistent s) (hreg : Registered s) (hcount : s.queue.Counted)
    (hclean : s.CleanRelease e) (hund : s.Undisturbed e) (hstep : s.step e = some s')
    (hx : s.thread x = .parked p node false) (hactor : e.actor ≠ some x)
    (ha : a ∈ s.table.allocated) (hnot : ¬ e.Releases (s.cell a).parentTxn)
    (hi : (s.cell a).fileInode = p.req.inode) : s'.thread x = .parked p node false := by
  have hnode := hreg.waitNode hcount hx
  have hother : ∀ {t : Int} {st : TxFS.ThreadState}, some t ≠ some x →
      s'.thread = Function.update s.thread t st → s'.thread x = .parked p node false := by
    intro t st htx hthread
    have hxt : x ≠ t := fun hxt => htx (congrArg some hxt.symm)
    rw [hthread, Function.update_of_ne hxt]
    exact hx
  cases step_spec hstep with
  | begin => exact hother hactor rfl
  | lock hthread hreq =>
    obtain ⟨st, hst⟩ := requestLock_thread hreq
    exact hother hactor hst
  | resume hthread hreq =>
    obtain ⟨st, hst⟩ := requestLock_thread hreq
    exact hother hactor hst
  | wake hthread hwake =>
    obtain ⟨st, hst, -⟩ := afterCondWait_thread hwake
    exact hother hactor hst
  | leaveAsVictim hthread hwake =>
    obtain ⟨_, -, rfl⟩ := afterWakeCond_spec hwake
    exact hother hactor rfl
  | call hcall =>
    rw [(logEvent_threads hcall).1]
    exact hx
  | @commit t s₁ _ acts hthread hrel hend =>
    have hxt : x ≠ t := fun hxt => hactor (congrArg some hxt.symm)
    rw [endTxn_thread hend, Function.update_of_ne hxt]
    exact releaseLocks_asleep (fun _ _ _ _ => performWrites_sameButData) hs hcount.nodes hclean
      hrel hx hnode ha (fun hat => hnot hat.symm) hi
  | @abort t s₁ _ acts hthread hrel hend =>
    have hxt : x ≠ t := fun hxt => hactor (congrArg some hxt.symm)
    rw [endTxn_thread hend, Function.update_of_ne hxt]
    exact releaseLocks_asleep (fun _ _ _ _ => discardWrites_sameButData) hs hcount.nodes hclean
      hrel hx hnode ha (fun hat => hnot hat.symm) hi
  | releaseByBackup hthread hrel =>
    obtain ⟨l, b, -, hfree⟩ := releaseLocksByBackup_spec hs.owned hrel
    exact hfree.asleep hs hcount.nodes hx hnode ha (fun hab => hnot (hab ▸ hfree.mem.2)) hi
  | endBackup hthread hnone hend => exact hother hactor (endTxn_thread hend)
  | markVictim => exact hund.elim
  | setBackup => exact hx

/-- A sleeper takes no step of its own. -/
theorem Sleeps.not_actor (hlive : ThreadsLive s) (hund : s.Undisturbed e)
    (hstep : s.step e = some s') (hx : s.Sleeps x) : e.actor ≠ some x := by
  obtain ⟨p, node, hp⟩ := hx
  intro hactor
  cases step_spec hstep with
  | begin hfresh =>
    cases hactor
    exact hlive x (by rw [hp]; simp) hfresh
  | lock hthread => cases hactor; rw [hp] at hthread; cases hthread
  | resume hthread => cases hactor; rw [hp] at hthread; cases hthread
  | wake => cases hactor; exact hund ⟨p, node, hp⟩
  | leaveAsVictim hthread => cases hactor; rw [hp] at hthread; cases hthread
  | call hcall => cases hactor; simp [logEvent, hp] at hcall
  | commit hthread => cases hactor; rw [hp] at hthread; cases hthread
  | abort hthread => cases hactor; rw [hp] at hthread; simp at hthread
  | releaseByBackup hthread => cases hactor; rw [hp] at hthread; cases hthread
  | endBackup hthread => cases hactor; rw [hp] at hthread; cases hthread
  | markVictim => cases hactor
  | setBackup => cases hactor

/-- **A wait for a sleeper stays**: the sleeper keeps its record, which keeps `t` asleep. -/
theorem WaitsForAnother.step (hs : Consistent s) (hreg : Registered s) (hcount : s.queue.Counted)
    (hlive : ThreadsLive s) (hclean : s.CleanRelease e) (hund : s.Undisturbed e)
    (hstep : s.step e = some s') (h : s.WaitsForAnother t u) (hu : s.Sleeps u) :
    s'.WaitsForAnother t u := by
  have ht := h.sleeps
  obtain ⟨hne, p, node, hp, a, ha, hi, hparent⟩ := h
  have hnot : ¬ e.Releases (s.cell a).parentTxn := fun hrel =>
    hu.not_actor hlive hund hstep (hparent ▸ hrel.actor)
  have hp' := asleep_step hs hreg hcount hclean hund hstep hp (ht.not_actor hlive hund hstep) ha
    hnot hi
  have hframe := step_frame hs.owned hstep
  have ha' := hframe.kept a ha hnot
  obtain ⟨hinode, -, hparent'⟩ := hframe.fields a ha ha'
  exact ⟨hne, p, node, hp', a, ha', hinode.trans hi, hparent'.trans hparent⟩

theorem Deadlocked.step (hs : Consistent s) (hreg : Registered s) (hcount : s.queue.Counted)
    (hlive : ThreadsLive s) (hclean : s.CleanRelease e) (hund : s.Undisturbed e)
    (hstep : s.step e = some s') (h : s.Deadlocked t) : s'.Deadlocked t := by
  apply Successors.cycle_of_followed _ h
  intro u v huv hv
  obtain ⟨w, hvw⟩ := hv
  exact huv.step hs hreg hcount hlive hclean hund hstep hvw.sleeps

/-- **A deadlock does not end by itself**: it lasts through every run of the other threads. -/
theorem deadlocked_of_run {handles : Nat}
    (h : ReachableUnder (globalInit handles) step CleanRelease s) (hdead : s.Deadlocked t)
    (hrun : ReachableUnder s step (fun s e => s.CleanRelease e ∧ s.Undisturbed e) s') :
    s'.Deadlocked t := by
  -- the states of the run are reachable from the start
  have hall : ReachableUnder (globalInit handles) step CleanRelease s' ∧ s'.Deadlocked t := by
    induction hrun with
    | init => exact ⟨h, hdead⟩
    | step hs hok hstep ih =>
      obtain ⟨hreach, hdead⟩ := ih
      refine ⟨.step hreach hok.1 hstep, ?_⟩
      exact hdead.step (consistent_of_reachable hreach) (registered_of_reachable hreach)
        (counted_of_reachable hreach) (threadsLive_of_reachable hreach) hok.1 hok.2 hstep
  exact hall.2

/-- Two writers that wait for each other. -/
theorem deadlocked_pair {p q : Pending} {k l : Nat} (hne : t ≠ u)
    (ht : s.thread t = .parked p k false) (hu : s.thread u = .parked q l false)
    (htu : ∃ a ∈ s.table.allocated, (s.cell a).fileInode = p.req.inode ∧ (s.cell a).parentTxn = u)
    (hut : ∃ a ∈ s.table.allocated, (s.cell a).fileInode = q.req.inode ∧ (s.cell a).parentTxn = t) :
    s.Deadlocked t :=
  .head ⟨hne, p, k, ht, htu⟩ (.single ⟨hne.symm, q, l, hu, hut⟩)

/-- 1 and 2 have locked the files 5 and 6 and wait for each other; 3 locks a file and commits. -/
theorem deadlocked_of_run_two_writers :
    ∃ s s', (ReachableUnder (globalInit 1) step CleanRelease s ∧ s.Deadlocked 1 ∧
        ReachableUnder s step (fun s e => s.CleanRelease e ∧ s.Undisturbed e) s' ∧
        searchTxn 3 s.headTxnList ≠ none ∧ searchTxn 3 s'.headTxnList = none) ∧
      s'.Deadlocked 1 := by
  obtain ⟨s, hs, h₁, h₂, h₁₂, h₂₁, h₃, hrun⟩ := exists_of_runUnder (globalInit 1) step CleanRelease
    (fun s => s.thread 1 = .parked ⟨⟨6, 2, .placeholder⟩, some 1⟩ 0 false ∧
      s.thread 2 = .parked ⟨⟨5, 2, .placeholder⟩, some 0⟩ 1 false ∧
      (∃ a ∈ s.table.allocated, (s.cell a).fileInode = 6 ∧ (s.cell a).parentTxn = 2) ∧
      (∃ a ∈ s.table.allocated, (s.cell a).fileInode = 5 ∧ (s.cell a).parentTxn = 1) ∧
      searchTxn 3 s.headTxnList ≠ none ∧
      (runUnder step (fun s e => s.CleanRelease e ∧ s.Undisturbed e) s
        [.lock 3 ⟨7, 2, .placeholder⟩ 0, .commit 3]).any
          (fun s' => searchTxn 3 s'.headTxnList = none) = true)
    [.begin 1, .begin 2, .begin 3, .lock 1 ⟨5, 2, .placeholder⟩ 0, .lock 2 ⟨6, 2, .placeholder⟩ 0,
      .lock 1 ⟨6, 2, .placeholder⟩ 0, .lock 2 ⟨5, 2, .placeholder⟩ 0] (by decide)
  have hdead : s.Deadlocked 1 := deadlocked_pair (by decide) h₁ h₂ h₁₂ h₂₁
  obtain ⟨s', hs', h₃'⟩ := exists_of_runUnder s step
    (fun s e => s.CleanRelease e ∧ s.Undisturbed e) _ _ hrun
  exact ⟨s, s', ⟨hs, hdead, hs', h₃, h₃'⟩, deadlocked_of_run hs hdead hs'⟩

/-! ## The state of a sleeper -/

/-- A transaction in the wait list has `cur_state == WAITING`. -/
def InStateWaiting (s : Server) : Prop :=
  ∀ t p node woken, s.thread t = .parked p node woken →
    ∀ n, searchTxn t s.headTxnList = some n → n.curState = .waiting

/-- A request that is queued sets the state. -/
theorem requestLock_inStateWaiting {req : LockRequest} {first : Option (Option Addr)}
    {readBit : Int} {woken : Bool} {n : TxnNode} (h : s.requestLock t req first readBit = some s')
    (hp : s'.thread t = .parked p node woken) (hn : searchTxn t s'.headTxnList = some n) :
    n.curState = .waiting := by
  obtain ⟨found, loc, s₁, out, -, hspec, hend⟩ := requestLock_cases h
  rcases hend with ⟨a, -, rfl⟩ | ⟨k, rfl, rfl⟩ | ⟨-, rfl⟩ | ⟨-, rfl⟩
  · obtain ⟨table, handles, st, heq, -, hst⟩ := s₁.afterLock_spec t req.use (first.getD loc) a
    rw [heq] at hp
    have hself : st = .parked p node woken := (Function.update_self ..).symm.trans hp
    rcases hst with rfl | rfl <;> cases hself
  · have hns : s₁.headTxnList = (s.setWaiting t req.inode req.flags).headTxnList := by
      cases hspec with
      | newNode => rfl
      | oldNode => rfl
      | refused hs' hout => rcases hout with hout | hout <;> cases hout
    have hn' : searchTxn t s₁.headTxnList = some n := hn
    rw [hns, setWaiting, modifyTxn, searchTxn_updateTxn (by intro _; rfl), if_pos rfl] at hn'
    obtain ⟨m, -, rfl⟩ := Option.map_eq_some_iff.mp hn'
    rfl
  · cases (Function.update_self ..).symm.trans hp
  · cases (Function.update_self ..).symm.trans hp

theorem inStateWaiting_step (hs : Owned s.table s.headTxnList) (h : InStateWaiting s)
    (hstep : s.step e = some s') : InStateWaiting s' := by
  intro x p node woken hp n hn
  by_cases hactor : e.actor = some x
  swap
  · obtain ⟨woken', hp'⟩ := ThreadState.parked_of_asleep (step_thread hs hstep hactor) hp
    exact h x p node woken' hp' n (step_txn hstep hactor ▸ hn)
  have haway : ∀ {st : TxFS.ThreadState} {P : Prop}, s'.thread x = st →
      (∀ p node woken, st ≠ .parked p node woken) → P := fun hst hne =>
    absurd (hst.symm.trans hp) (hne _ _ _)
  have hended : ∀ {s₁ : Server} {records : Int} {P : Prop}, s₁.endTxn x records = some s' → P := by
    intro s₁ records P hend
    exact haway ((congrFun (endTxn_thread hend) x).trans (Function.update_self ..)) (by simp)
  cases step_spec hstep with
  | begin =>
    cases hactor
    exact haway (Function.update_self ..) (by simp)
  | lock hthread hreq =>
    cases hactor
    exact requestLock_inStateWaiting hreq hp hn
  | resume hthread hreq =>
    cases hactor
    exact requestLock_inStateWaiting hreq hp hn
  | @wake t q k w _ hthread hwake =>
    cases hactor
    simp only [afterCondWait, Option.bind_eq_bind, Option.bind_eq_some_iff] at hwake
    obtain ⟨v, -, hwake⟩ := hwake
    split at hwake
    · -- back to sleep
      cases hwake
      exact h x q k w hthread n hn
    split at hwake
    · cases hwake
      exact haway (Function.update_self ..) (by simp)
    split at hwake
    · cases hwake
      exact haway (Function.update_self ..) (by simp)
    · cases hwake
      exact haway (Function.update_self ..) (by simp)
  | leaveAsVictim hthread hwake =>
    cases hactor
    obtain ⟨_, -, rfl⟩ := afterWakeCond_spec hwake
    exact haway (Function.update_self ..) (by simp)
  | call hcall =>
    cases hactor
    rw [(logEvent_threads hcall).1] at hp
    simp [logEvent, hp] at hcall
  | commit hthread hrel hend =>
    cases hactor
    exact hended hend
  | abort hthread hrel hend =>
    cases hactor
    exact hended hend
  | releaseByBackup hthread hrel =>
    cases hactor
    obtain ⟨l, a, -, hfree⟩ := releaseLocksByBackup_spec hs hrel
    obtain ⟨woken', hp'⟩ := ThreadState.parked_of_asleep (hfree.thread 0) hp
    rw [hthread] at hp'
    cases hp'
  | endBackup hthread hnone hend =>
    cases hactor
    exact hended hend
  | markVictim => cases hactor
  | setBackup => cases hactor

theorem inStateWaiting_of_reachable {handles : Nat} {ok : Server → Event → Prop}
    (h : ReachableUnder (globalInit handles) step ok s) : InStateWaiting s :=
  h.invariant (P := InStateWaiting) (fun _ _ _ _ hp => by cases hp) fun _ _ _ hs hwait _ hstep =>
    inStateWaiting_step (owned_of_reachable hs) hwait hstep

end Server

/-! ## The edges of the graph -/

namespace WaitForGraph

open Successors

variable {txns : List TxnNode} {t : LockTable} {xs : List Addr} {i j : Nat} {w : WaitGraphNode}

theorem mem_waitingNodes_iff : w ∈ waitingNodes txns ↔
    ∃ n ∈ txns, n.curState = .waiting ∧ w = ⟨n.txnId, n.waitingForInode, []⟩ := by
  simp only [waitingNodes, List.mem_map, List.mem_filter, decide_eq_true_eq, and_assoc]
  constructor
  · rintro ⟨n, hn, hwaiting, rfl⟩
    exact ⟨n, hn, hwaiting, rfl⟩
  · rintro ⟨n, hn, hwaiting, rfl⟩
    exact ⟨n, hn, hwaiting, rfl⟩

/-- An edge leads to another waiting transaction that owns a record of the inode, in whatever
    order the records are. -/
theorem exists_of_edge_built (hids : ((waitingNodes txns).map WaitGraphNode.txnId).Nodup)
    (h : Edge (built txns t xs).succs i j) :
    ∃ w v, (waitingNodes txns)[i]? = some w ∧ (waitingNodes txns)[j]? = some v ∧
      w.txnId ≠ v.txnId ∧ ∃ a ∈ xs, t.inode a = w.inode ∧ owner t a = v.txnId := by
  rw [Edge, succs, getElem?_built] at h
  cases hi : (waitingNodes txns)[i]? with
  | none => simp [hi] at h
  | some w =>
    rw [hi] at h
    obtain ⟨o, ho, hoj⟩ := List.mem_map.mp (show j ∈ builtEdges txns t xs i w.inode from h)
    obtain ⟨hwaits, a, ha, hao⟩ := mem_matched ho
    obtain ⟨k, hki, hk⟩ : ∃ k, k ≠ i ∧ (waitingNodes txns)[k]?.map WaitGraphNode.txnId = some o := by
      rcases hwaits with hwaits | hwaits
      · obtain ⟨k, hmem, hk⟩ := mem_idsBehind.mp hwaits
        have hik : i < k := by simpa using (List.mem_filter.mp hmem).2
        exact ⟨k, Nat.ne_of_gt hik, hk⟩
      · obtain ⟨k, hmem, hk⟩ := mem_idsFront.mp hwaits
        have hki : k < i := by simpa using (List.mem_filter.mp hmem).2
        exact ⟨k, Nat.ne_of_lt hki, hk⟩
    have hkj : k = j := (idxOf_txnId hids hk).symm.trans hoj
    subst hkj
    obtain ⟨v, hv, hvo⟩ := Option.map_eq_some_iff.mp hk
    obtain ⟨haxs, hinode⟩ := List.mem_filter.mp ha
    refine ⟨w, v, rfl, hv, fun hsame => hki ?_, a, haxs, of_decide_eq_true hinode, hao.trans hvo.symm⟩
    -- two nodes with one id
    have hw : (waitingNodes txns)[i]?.map WaitGraphNode.txnId = some o := by
      rw [hi, Option.map_some, hsame, hvo]
    exact (idxOf_txnId hids hk).symm.trans (idxOf_txnId hids hw)

end WaitForGraph

/-! ## The detector -/

namespace Server

open WaitForGraph Successors

variable {s : Server} {t u : Int} {xs : List Addr} {n : TxnNode}

/-- Every waiting transaction sleeps: no broadcast is on its way to it. -/
def AllAsleep (s : Server) : Prop :=
  ∀ n ∈ s.headTxnList, n.curState = .waiting → s.Sleeps n.txnId

/-- A sleeper waits for the inode in its `txn_node`. -/
theorem Registered.inode {p : Pending} {node : Nat} {woken : Bool} (hreg : Registered s)
    (hown : Owned s.table s.headTxnList) (hn : n ∈ s.headTxnList)
    (hp : s.thread n.txnId = .parked p node woken) : p.req.inode = n.waitingForInode := by
  have hrequest := hreg n.txnId
  unfold RegisteredThread at hrequest
  rw [hp, waitsFor, hown.search_eq hn] at hrequest
  exact (congrArg Prod.fst hrequest.2).symm

/-- An edge of the graph is a wait. -/
theorem waitsForAnother_of_edge {i j : Nat} (hreg : Registered s)
    (hown : Owned s.table s.headTxnList) (hxs : s.table.WellLinked xs) (hall : s.AllAsleep)
    (hids : ((waitingNodes s.headTxnList).map WaitGraphNode.txnId).Nodup)
    (h : Edge (built s.headTxnList s.table xs).succs i j) :
    ∃ w v, (waitingNodes s.headTxnList)[i]? = some w ∧
      (waitingNodes s.headTxnList)[j]? = some v ∧ s.WaitsForAnother w.txnId v.txnId := by
  obtain ⟨w, v, hw, hv, hne, a, ha, hi, hao⟩ := exists_of_edge_built hids h
  refine ⟨w, v, hw, hv, hne, ?_⟩
  obtain ⟨n, hn, hwaiting, rfl⟩ := mem_waitingNodes_iff.mp (List.mem_of_getElem? hw)
  obtain ⟨p, node, hp⟩ := hall n hn hwaiting
  exact ⟨p, node, hp, a, hxs.mem_iff.mp ha, Eq.trans hi (hreg.inode hown hn hp).symm, hao⟩

/-- The node of a sleeper. -/
theorem Sleeps.waitingNode (hwait : InStateWaiting s) (hlive : ThreadsLive s)
    (h : s.Sleeps t) : ∃ n ∈ s.headTxnList, n.txnId = t ∧ n.curState = .waiting ∧
      ∃ i : Nat, (waitingNodes s.headTxnList)[i]? = some ⟨t, n.waitingForInode, []⟩ := by
  obtain ⟨p, node, hp⟩ := h
  obtain ⟨n, hn⟩ := Option.ne_none_iff_exists'.mp (hlive t (by rw [hp]; simp))
  have hwaiting := hwait t p node false hp n hn
  have hid := searchTxn_id hn
  subst hid
  have hmem : ⟨n.txnId, n.waitingForInode, []⟩ ∈ waitingNodes s.headTxnList :=
    mem_waitingNodes_iff.mpr ⟨n, searchTxn_mem hn, hwaiting, rfl⟩
  exact ⟨n, searchTxn_mem hn, rfl, hwaiting, List.mem_iff_getElem?.mp hmem⟩

/-- In an exact graph a wait between two sleepers is an edge. -/
theorem edge_of_waitsForAnother {g : WaitForGraph} (hreg : Registered s)
    (hown : Owned s.table s.headTxnList) (hxs : s.table.WellLinked xs) (hwait : InStateWaiting s)
    (hlive : ThreadsLive s) (hids : ((waitingNodes s.headTxnList).map WaitGraphNode.txnId).Nodup)
    (hexact : Exact s.headTxnList s.table xs g) (h : s.WaitsForAnother t u) (hu : s.Sleeps u) :
    Edge g.succs (((waitingNodes s.headTxnList).map WaitGraphNode.txnId).idxOf t)
      (((waitingNodes s.headTxnList).map WaitGraphNode.txnId).idxOf u) := by
  obtain ⟨n, hn, hid, -, i, hi⟩ := h.sleeps.waitingNode hwait hlive
  obtain ⟨m, hm, -, -, j, hj⟩ := hu.waitingNode hwait hlive
  subst hid
  obtain ⟨hne, p, node, hp, a, ha, hinode, hparent⟩ := h
  rw [idxOf_txnId hids (by rw [hi]; rfl), idxOf_txnId hids (by rw [hj]; rfl)]
  -- the nodes of the graph are the waiting transactions
  have hnode : ∀ {k : Nat} {w : WaitGraphNode}, (waitingNodes s.headTxnList)[k]? = some w →
      ∃ w', g[k]? = some w' ∧ w'.txnId = w.txnId ∧ w'.inode = w.inode := by
    intro k w hk
    have hnodes := congrArg (fun l => l[k]?) hexact.nodes
    rw [waitingNodes, List.getElem?_map] at hk
    obtain ⟨y, hy, rfl⟩ := Option.map_eq_some_iff.mp hk
    simp only [List.getElem?_map, hy, Option.map_some, Option.map_eq_some_iff, Prod.mk.injEq]
      at hnodes
    exact hnodes
  obtain ⟨w, hw, -, hwi⟩ := hnode hi
  obtain ⟨v, hv, hvid, -⟩ := hnode hj
  rw [Edge, succs, hw]
  refine (hexact.edges i w hw j).mpr ⟨?_, v, hv, a, hxs.mem_iff.mpr ha, ?_, ?_⟩
  · rintro rfl
    rw [hi] at hj
    exact hne (congrArg WaitGraphNode.txnId (Option.some.inj hj))
  · exact Eq.trans hinode ((hreg.inode hown hn hp).trans hwi.symm)
  · exact hparent.trans hvid.symm

/-- **The detector and the deadlocks**: while every waiting transaction sleeps, every victim is
    deadlocked, and if the owners of the locks come in order, the detector records something
    exactly if there is a deadlock. -/
theorem detects_iff {handles : Nat}
    (h : ReachableUnder (globalInit handles) step Scanned.Allowed s) (hall : s.AllAsleep) :
    ∃ xs g, s.table.WellLinked xs ∧ constructWaitForGraph s.headTxnList s.table = some g ∧
      (∀ t, Search.Marks g t → s.Deadlocked t) ∧
      ((∀ (i : Nat) (w : WaitGraphNode), (waitingNodes s.headTxnList)[i]? = some w →
          InOrder (waitingNodes s.headTxnList) s.table i (recordsOf s.table xs w.inode)) →
        ((∃ r, Search.Reached g r ∧ r.inDeadlock ≠ []) ↔ ∃ t, s.Deadlocked t)) := by
  have hclean : ReachableUnder (globalInit handles) step CleanRelease s := h.mono fun _ _ h => h.1
  have hown := owned_of_reachable h
  have hreg := registered_of_reachable h
  have hwait := inStateWaiting_of_reachable h
  have hlive := threadsLive_of_reachable h
  obtain ⟨xs, hxs⟩ := (consistent_of_reachable hclean).linked
  have hids : ((waitingNodes s.headTxnList).map WaitGraphNode.txnId).Nodup := by
    have hsub := (List.filter_sublist (p := fun n : TxnNode => n.curState = .waiting)
      (l := s.headTxnList)).map TxnNode.txnId
    simpa [waitingNodes, Function.comp_def] using hsub.nodup hown.ids
  have htable := Chained.of_wellLinked hxs
  have hsleep := (Scanned.invariants (s := ⟨s, fun _ => none, []⟩) h).2
  have hpresent : ∀ n ∈ s.headTxnList, n.curState = .waiting →
      ∃ a ∈ xs, s.table.inode a = n.waitingForInode := by
    intro n hn hwaiting
    obtain ⟨p, node, hp⟩ := hall n hn hwaiting
    obtain ⟨a, ha, hi⟩ := hsleep n.txnId p node hp
    exact ⟨a, hxs.mem_iff.mpr ha, Eq.trans hi (hreg.inode hown hn hp)⟩
  have hg := constructWaitForGraph_eq htable hids hpresent
  -- a cycle of nodes is a deadlock
  have hsound : ∀ {i : Nat} {w : WaitGraphNode}, (waitingNodes s.headTxnList)[i]? = some w →
      OnCycle (built s.headTxnList s.table xs).succs i → s.Deadlocked w.txnId := by
    intro i w hw hcycle
    let idAt : Nat → Int := fun k =>
      (((waitingNodes s.headTxnList)[k]?).map WaitGraphNode.txnId).getD 0
    have hid : idAt i = w.txnId := by simp only [idAt, hw, Option.map_some, Option.getD_some]
    have hedges : ∀ k l, Edge (built s.headTxnList s.table xs).succs k l →
        s.WaitsForAnother (idAt k) (idAt l) := by
      intro k l hkl
      obtain ⟨v, v', hv, hv', hwaits⟩ := waitsForAnother_of_edge hreg hown hxs hall hids hkl
      simpa only [idAt, hv, hv', Option.map_some, Option.getD_some] using hwaits
    rw [← hid]
    exact Relation.TransGen.lift idAt hedges i i hcycle
  refine ⟨xs, _, hxs, hg, fun t hmarks => ?_, fun horder => ⟨?_, ?_⟩⟩
  · obtain ⟨i, w, hcycle, hw, rfl⟩ := Search.onCycle_of_marks hmarks
    rw [getElem?_built] at hw
    obtain ⟨v, hv, rfl⟩ := Option.map_eq_some_iff.mp hw
    have hdead : s.Deadlocked v.txnId := hsound hv hcycle
    exact hdead
  · rintro ⟨r, hr, hrecorded⟩
    obtain ⟨i, hi⟩ : ∃ i, r.inDeadlock.head? = some i := by
      obtain ⟨i, is, his⟩ := List.exists_cons_of_ne_nil hrecorded
      exact ⟨i, by rw [his]; rfl⟩
    have hcycle := Search.onCycle_of_head hr i hi
    obtain ⟨j, hedge, -⟩ := Relation.TransGen.head'_iff.mp hcycle
    obtain ⟨w, -, hw, -⟩ := waitsForAnother_of_edge hreg hown hxs hall hids hedge
    exact ⟨_, hsound hw hcycle⟩
  · rintro ⟨t, hdead⟩
    have hexact : Exact s.headTxnList s.table xs (built s.headTxnList s.table xs) :=
      exact_built hids horder
    let position : Int → Nat := ((waitingNodes s.headTxnList).map WaitGraphNode.txnId).idxOf
    have hfollowed : Relation.TransGen (fun t u => s.WaitsForAnother t u ∧ s.Sleeps u) t t :=
      cycle_of_followed (fun u v huv hv => ⟨huv, hv.choose_spec.sleeps⟩) hdead
    have hedges : ∀ u v, s.WaitsForAnother u v ∧ s.Sleeps v →
        Edge (built s.headTxnList s.table xs).succs (position u) (position v) := fun u v huv =>
      edge_of_waitsForAnother hreg hown hxs hwait hlive hids hexact huv.1 huv.2
    have hcycle := Relation.TransGen.lift position hedges t t hfollowed
    exact Search.exists_recorded hcycle

/-- Two writers that wait for each other are found. -/
theorem detects_iff_two_writers :
    ∃ s, (ReachableUnder (globalInit 1) step Scanned.Allowed s ∧ s.AllAsleep ∧ s.Deadlocked 1) ∧
      ∃ g, constructWaitForGraph s.headTxnList s.table = some g ∧
        (∀ t, Search.Marks g t → s.Deadlocked t) ∧ ∃ r, Search.Reached g r ∧ r.inDeadlock ≠ [] := by
  obtain ⟨s, hs, h₁, h₂, h₁₂, h₂₁, hall, hnodes, hhead, hnext₀, hnext₁, hmatch₁, hmatch₂⟩ :=
    exists_of_runUnder (globalInit 1) step (fun s e => s.CleanRelease e ∧ s.BroadcastHeard e)
    (fun s => s.thread 1 = .parked ⟨⟨6, 2, .placeholder⟩, some 1⟩ 0 false ∧
      s.thread 2 = .parked ⟨⟨5, 2, .placeholder⟩, some 0⟩ 1 false ∧
      (∃ a ∈ s.table.allocated, (s.cell a).fileInode = 6 ∧ (s.cell a).parentTxn = 2) ∧
      (∃ a ∈ s.table.allocated, (s.cell a).fileInode = 5 ∧ (s.cell a).parentTxn = 1) ∧
      (∀ n ∈ s.headTxnList, n.curState = .waiting → s.Sleeps n.txnId) ∧
      waitingNodes s.headTxnList = [⟨1, 6, []⟩, ⟨2, 5, []⟩] ∧
      s.table.headLockList = some 0 ∧ (s.table.cells 0).next = some 1 ∧
      (s.table.cells 1).next = none ∧
      (∀ a ∈ recordsOf s.table [0, 1] 6, owner s.table a ∈
        matched [⟨1, 6, []⟩, ⟨2, 5, []⟩] s.table 0 (recordsOf s.table [0, 1] 6)) ∧
      ∀ a ∈ recordsOf s.table [0, 1] 5, owner s.table a ∈
        matched [⟨1, 6, []⟩, ⟨2, 5, []⟩] s.table 1 (recordsOf s.table [0, 1] 5))
    [.begin 1, .begin 2, .begin 3, .lock 1 ⟨5, 2, .placeholder⟩ 0, .lock 2 ⟨6, 2, .placeholder⟩ 0,
      .lock 1 ⟨6, 2, .placeholder⟩ 0, .lock 2 ⟨5, 2, .placeholder⟩ 0] (by decide)
  have hdead : s.Deadlocked 1 := deadlocked_pair (by decide) h₁ h₂ h₁₂ h₂₁
  obtain ⟨xs, g, hxs, hg, hsound, hdetects⟩ := detects_iff hs hall
  -- the lock list has the two records
  have hlist : xs = [0, 1] :=
    hxs.isPath.unique ⟨hhead, hnext₀, hnext₁⟩
  refine ⟨s, ⟨hs, hall, hdead⟩, g, hg, hsound, (hdetects ?_).mpr ⟨1, hdead⟩⟩
  rw [hlist, hnodes]
  intro i w hw
  rcases i with _ | _ | i
  · cases hw
    exact (inOrder_iff (by decide)).mpr fun a ha _ => hmatch₁ a ha
  · cases hw
    exact (inOrder_iff (by decide)).mpr fun a ha _ => hmatch₂ a ha
  · cases hw

end Server

end TxFS
