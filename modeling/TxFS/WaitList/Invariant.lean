import TxFS.Locks.Nodes
import TxFS.Locks.Wakeup

/-!
# The Wait List of the Server

The server's wait list is a `WaitQueue`: the wait nodes, and for every parked or marked
transaction the node its thread refers to, with the inode and the mode its `txn_node`
records. Every step of the server is one operation of the queue or leaves the queue alone
(`step_queue`), so the counters of the queue are right in every reachable state.
-/

namespace TxFS

open GuardedRun

/-- The place of a thread in the wait list. -/
def ThreadState.place (wait : Int × Int) : ThreadState → Option Place
  | .parked _ node _ => some ⟨node, wait.1, wait.2, false⟩
  | .victim node => some ⟨node, wait.1, wait.2, true⟩
  | .running | .resuming _ | .aborting => none

namespace Server

variable {s s' s₁ : Server} {t x : Int} {e : Event}

/-! ## The queue of a server -/

/-- The inode and the mode a transaction waits for, as its node has them. -/
def waitsFor (s : Server) (t : Int) : Int × Int :=
  ((searchTxn t s.headTxnList).map fun n => (n.waitingForInode, n.waitMode)).getD (0, -1)

theorem place_asleep {wait : Int × Int} {st : TxFS.ThreadState} :
    (ThreadState.asleep st).place wait = st.place wait := by cases st <;> rfl

def queue (s : Server) : WaitQueue where
  nodes := s.headWaitList
  brk := s.nodeBrk
  place := fun t => (s.thread t).place (s.waitsFor t)

/-- The transaction has entered `insert_wait_list` or `update_wait_list` for the inode and
    has not left. -/
def InWaitList (s : Server) (t i : Int) : Prop :=
  ((∃ p node woken, s.thread t = .parked p node woken) ∨ ∃ node, s.thread t = .victim node) ∧
    ∃ n, searchTxn t s.headTxnList = some n ∧ n.waitingForInode = i

/-- What `txn_node` keeps for a waiting transaction: it is live, and a parked thread has the
    inode and the mode of its request there. -/
def RegisteredThread (s : Server) (t : Int) : Prop :=
  match s.thread t with
  | .parked p _ _ => searchTxn t s.headTxnList ≠ none ∧
      s.waitsFor t = (p.req.inode, if p.req.flags = 0 then 0 else 1)
  | .victim _ => searchTxn t s.headTxnList ≠ none
  | .running | .resuming _ | .aborting => True

def Registered (s : Server) : Prop := ∀ t, s.RegisteredThread t

theorem Registered.live (h : Registered s) (ht : s.queue.place t ≠ none) :
    searchTxn t s.headTxnList ≠ none := by
  have hthread := h t
  unfold RegisteredThread at hthread
  cases hst : s.thread t with
  | parked p node woken =>
    rw [hst] at hthread
    exact hthread.1
  | victim node =>
    rw [hst] at hthread
    exact hthread
  | running => exact absurd (congrArg (TxFS.ThreadState.place (s.waitsFor t)) hst) ht
  | resuming p => exact absurd (congrArg (TxFS.ThreadState.place (s.waitsFor t)) hst) ht
  | aborting => exact absurd (congrArg (TxFS.ThreadState.place (s.waitsFor t)) hst) ht

/-! ## Every step is an operation of the queue -/

/-- The operation an event is, when it touches the wait list. -/
def queueOp (s : Server) : Event → Option WaitOp
  | .wake t => some (.wake t)
  | .leaveAsVictim t => some (.leave t)
  | .markVictim i t => some (.mark i t)
  | e => (s.requestOf e).map fun r => .enter r.1 r.2.1.inode (if r.2.1.flags = 0 then 0 else 1)

theorem queue_eq {q : WaitQueue} (hnodes : s.headWaitList = q.nodes) (hbrk : s.nodeBrk = q.brk)
    (hplace : s.queue.place = q.place) : s.queue = q := by
  obtain ⟨nodes, brk, place⟩ := q
  simp only [queue] at hplace ⊢
  rw [hnodes, hbrk, hplace]

/-- The places after a step of the thread `t`. -/
theorem place_update {st : TxFS.ThreadState} (hthread : s'.thread = Function.update s.thread t st)
    (htxn : ∀ x ≠ t, searchTxn x s'.headTxnList = searchTxn x s.headTxnList) :
    s'.queue.place = Function.update s.queue.place t (st.place (s'.waitsFor t)) := by
  funext x
  by_cases hx : x = t
  · subst hx
    simp [queue, hthread]
  · simp [queue, hthread, hx, waitsFor, htxn x hx]

/-- The thread `t` was and stays away from the wait list. -/
theorem queue_away {st : TxFS.ThreadState} (hlist : s'.headWaitList = s.headWaitList)
    (hbrk : s'.nodeBrk = s.nodeBrk) (hthread : s'.thread = Function.update s.thread t st)
    (htxn : ∀ x ≠ t, searchTxn x s'.headTxnList = searchTxn x s.headTxnList)
    (hfree : s.queue.place t = none) (hst : ∀ wait, st.place wait = none) :
    s'.queue = s.queue := by
  apply queue_eq hlist hbrk
  rw [place_update hthread htxn, hst, ← hfree, Function.update_eq_self]

/-- Threads may be woken, and nodes of transactions that do not wait may change. -/
theorem queue_same (hlist : s'.headWaitList = s.headWaitList) (hbrk : s'.nodeBrk = s.nodeBrk)
    (hthread : ∀ x, ThreadState.asleep (s'.thread x) = ThreadState.asleep (s.thread x))
    (htxn : ∀ x, s.queue.place x ≠ none →
      searchTxn x s'.headTxnList = searchTxn x s.headTxnList) : s'.queue = s.queue := by
  apply queue_eq hlist hbrk
  funext x
  show (s'.thread x).place (s'.waitsFor x) = (s.thread x).place (s.waitsFor x)
  rw [← place_asleep, hthread, place_asleep]
  by_cases hx : s.queue.place x = none
  · -- a thread is away for every wait
    have haway : ∀ wait, (s.thread x).place wait = none := by
      intro wait
      have hx' : (s.thread x).place (s.waitsFor x) = none := hx
      cases hst : s.thread x <;> rw [hst] at hx' <;> first | rfl | cases hx'
    rw [haway, haway]
  · rw [waitsFor, htxn x hx, ← waitsFor]

theorem waitsFor_modifyTxn {f : TxnNode → TxnNode} (hf : ∀ n, (f n).txnId = n.txnId)
    (hlive : t ∈ s.headTxnList.map TxnNode.txnId) {wait : Int × Int}
    (hwait : ∀ n, ((f n).waitingForInode, (f n).waitMode) = wait) :
    (s.modifyTxn t f).waitsFor t = wait := by
  obtain ⟨n, hn, hnt⟩ := List.mem_map.mp hlive
  obtain ⟨m, hm⟩ : ∃ m, searchTxn t s.headTxnList = some m := by
    apply Option.ne_none_iff_exists'.mp
    intro hnone
    exact List.find?_eq_none.mp hnone n hn (by simpa using hnt)
  rw [waitsFor, modifyTxn, searchTxn_updateTxn hf, if_pos rfl, hm]
  exact hwait m

/-- **A lock request** is queued or leaves the queue alone. -/
theorem requestLock_queue {req : LockRequest} {first : Option (Option Addr)} {readBit : Int}
    (hs : Owned s.table s.headTxnList) (hfree : s.queue.place t = none)
    (h : s.requestLock t req first readBit = some s') :
    s'.queue = s.queue ∨
      s.queue.step (.enter t req.inode (if req.flags = 0 then 0 else 1)) = some s'.queue := by
  have hlive := requestLock_live h
  have htxn : ∀ x ≠ t, searchTxn x s'.headTxnList = searchTxn x s.headTxnList :=
    fun x hx => requestLock_txn hx h
  obtain ⟨found, loc, s₁, out, -, hspec, hend⟩ := requestLock_cases h
  have hthread₁ := hspec.thread
  rcases hend with ⟨a, hout, rfl⟩ | ⟨node, rfl, rfl⟩ | ⟨rfl, rfl⟩ | ⟨rfl, rfl⟩
  · left
    obtain ⟨table, handles, st, heq, -, hst⟩ := s₁.afterLock_spec t req.use (first.getD loc) a
    rw [heq] at htxn ⊢
    obtain ⟨⟨-, hlist, hbrk, -⟩, -⟩ := hspec.records hs (by rcases hout with rfl | rfl <;> simp)
    have hthread : Function.update s₁.thread t st = Function.update s.thread t st := by
      rw [hthread₁]
    refine queue_away hlist hbrk hthread htxn hfree ?_
    intro wait
    rcases hst with rfl | rfl <;> rfl
  · right
    -- the thread parks with the inode and the mode of the request
    have hplace : ∀ s₁ : Server, s₁.thread = s.thread →
        s₁.headTxnList = (s.setWaiting t req.inode req.flags).headTxnList →
        (s₁.setThread t (.parked ⟨req, first.getD loc⟩ node false)).queue.place =
          Function.update s.queue.place t
            (some ⟨node, req.inode, if req.flags = 0 then 0 else 1, false⟩) := by
      intro s₁ hthread hns
      have htxn₁ : ∀ x ≠ t, searchTxn x s₁.headTxnList = searchTxn x s.headTxnList := by
        intro x hx
        rw [hns]
        exact searchTxn_modifyTxn (by intro _; rfl) hx
      have hwait : s₁.waitsFor t = (req.inode, if req.flags = 0 then 0 else 1) := by
        rw [waitsFor, hns]
        exact waitsFor_modifyTxn (by intro _; rfl) hlive (by intro _; rfl)
      have hpark : (s₁.setThread t (.parked ⟨req, first.getD loc⟩ node false)).thread =
          Function.update s.thread t (.parked ⟨req, first.getD loc⟩ node false) := by
        rw [← hthread]
        rfl
      rw [place_update hpark htxn₁]
      have hwait' : (s₁.setThread t (.parked ⟨req, first.getD loc⟩ node false)).waitsFor t =
          (req.inode, if req.flags = 0 then 0 else 1) := hwait
      rw [hwait']
      rfl
    simp only [WaitQueue.step, if_pos hfree]
    cases hspec with
    | newNode hloc hown hconflict hwait =>
      have hfind : s.queue.nodes.find? (fun w => w.fileInode = req.inode) = none := hwait
      rw [hfind]
      have heq := hplace ((s.setWaiting t req.inode req.flags).insertWaitList req.inode).1 rfl rfl
      exact congrArg some (queue_eq rfl rfl heq).symm
    | @oldNode l w hloc hown hconflict hwait =>
      have hfind : s.queue.nodes.find? (fun w => w.fileInode = req.inode) = some w := hwait
      rw [hfind]
      have heq := hplace ((s.setWaiting t req.inode req.flags).updateWaitList w.node).1 rfl rfl
      exact congrArg some (queue_eq rfl rfl heq).symm
    | refused hs' hout => rcases hout with hout | hout <;> cases hout
  · left
    obtain ⟨⟨-, hlist, hbrk, -⟩, -⟩ := hspec.records hs (by simp)
    exact queue_away hlist hbrk (congrArg (Function.update · t _) hthread₁) htxn hfree fun _ => rfl
  · left
    obtain ⟨⟨-, hlist, hbrk, -⟩, -⟩ := hspec.records hs (by simp)
    exact queue_away hlist hbrk (congrArg (Function.update · t _) hthread₁) htxn hfree fun _ => rfl

/-- **A waiter that wakes up**. -/
theorem afterCondWait_queue {p : Pending} {node : Nat} {woken : Bool}
    (hthread : s.thread t = .parked p node woken) (h : s.afterCondWait t p node = some s') :
    s.queue.step (.wake t) = some s'.queue := by
  have htxn : ∀ x ≠ t, searchTxn x s'.headTxnList = searchTxn x s.headTxnList :=
    fun x hx => afterCondWait_txn hx h
  have hplace : s.queue.place t = some ⟨node, (s.waitsFor t).1, (s.waitsFor t).2, false⟩ := by
    show (s.thread t).place _ = _
    rw [hthread]
    rfl
  simp only [afterCondWait, Option.bind_eq_bind, Option.bind_eq_some_iff] at h
  obtain ⟨w, hw, h⟩ := h
  have hfind : s.queue.nodes.find? (fun w => w.node = node) = some w := hw
  simp only [WaitQueue.step, hplace, hfind, Option.bind_eq_bind, Option.bind_some,
    Bool.false_eq_true, if_false]
  split at h
  · -- back to sleep
    rename_i hother
    rw [if_pos hother]
    cases h
    apply congrArg some
    refine (queue_eq rfl rfl ?_).symm
    rw [place_update rfl htxn]
    exact (congrArg (Function.update s.queue.place t) hplace.symm).trans
      (Function.update_eq_self t s.queue.place)
  rename_i hnot
  rw [if_neg hnot]
  split at h
  · -- resume
    rename_i hnone
    rw [if_pos hnone]
    cases h
    exact congrArg some (queue_eq rfl rfl (place_update rfl htxn)).symm
  rename_i hmarked
  rw [if_neg hmarked]
  split at h
  · -- the victim, after everybody else
    rename_i hlast
    rw [if_pos hlast]
    cases h
    exact congrArg some (queue_eq rfl rfl (place_update rfl htxn)).symm
  · rename_i hlast
    rw [if_neg hlast]
    cases h
    exact congrArg some (queue_eq rfl rfl (place_update rfl htxn)).symm

/-- **The wait list of the server is a queue**: a step is one operation or none. -/
theorem step_queue (hs : Owned s.table s.headTxnList) (hreg : Registered s)
    (h : s.step e = some s') :
    s'.queue = s.queue ∨ ∃ op, s.queueOp e = some op ∧ s.queue.step op = some s'.queue := by
  have htxn : ∀ x, e.actor ≠ some x → searchTxn x s'.headTxnList = searchTxn x s.headTxnList :=
    fun x hx => step_txn h hx
  have hasleep : ∀ x, e.actor ≠ some x →
      ThreadState.asleep (s'.thread x) = ThreadState.asleep (s.thread x) :=
    fun x hx => step_thread hs h hx
  -- a thread that runs, resumes or aborts is away
  have haway : ∀ {t : Int} {st : TxFS.ThreadState}, s.thread t = st →
      (∀ wait, st.place wait = none) → s.queue.place t = none := by
    intro t st hst hnone
    show (s.thread t).place _ = none
    rw [hst]
    exact hnone _
  -- the end of a transaction that does not wait
  have hend : ∀ {s₁ : Server} {t records : Int}, s.queue.place t = none →
      s₁.headWaitList = s.headWaitList → s₁.nodeBrk = s.nodeBrk →
      s₁.endTxn t records = some s' → e.actor = some t → s'.queue = s.queue := by
    intro s₁ t records hfree hlist hbrk hend hactor
    have hthread := endTxn_thread hend
    obtain ⟨ns, -, rfl⟩ := endTxn_spec hend
    apply queue_eq hlist hbrk
    funext x
    by_cases hx : x = t
    · subst hx
      -- the thread that ends is away before and after
      show (Function.update s₁.thread x .running x).place _ = _
      rw [Function.update_self, hfree]
      rfl
    · -- every other thread sleeps where it slept
      have hne : e.actor ≠ some x := by
        rw [hactor]
        exact fun h' => hx (Option.some.inj h').symm
      show TxFS.ThreadState.place _ _ = TxFS.ThreadState.place _ _
      rw [← place_asleep, hasleep x hne, place_asleep, waitsFor, htxn x hne, ← waitsFor]
  cases step_spec h with
  | @begin t hfresh =>
    left
    refine queue_away rfl rfl rfl (fun x hx => htxn x ?_) ?_ fun _ => rfl
    · exact fun h' => hx (Option.some.inj h').symm
    · -- the id is new, so no thread of that id waits
      by_contra hp
      exact hreg.live hp hfresh
  | lock hthread hreq =>
    exact (requestLock_queue hs (haway hthread fun _ => rfl) hreq).imp_right
      fun hstep => ⟨_, rfl, hstep⟩
  | @resume t readBit p _ hthread hreq =>
    refine (requestLock_queue hs (haway hthread fun _ => rfl) hreq).imp_right
      fun hstep => ⟨_, ?_, hstep⟩
    simp only [queueOp, requestOf, hthread]
    rfl
  | wake hthread hwake => exact .inr ⟨_, rfl, afterCondWait_queue hthread hwake⟩
  | @leaveAsVictim t node _ hthread hwake =>
    right
    refine ⟨_, rfl, ?_⟩
    -- the victim waits on its node until it leaves
    have hplace : s.queue.place t = some ⟨node, (s.waitsFor t).1, (s.waitsFor t).2, true⟩ := by
      show (s.thread t).place _ = _
      rw [hthread]
      rfl
    obtain ⟨w, hw, hs'⟩ := afterWakeCond_spec hwake
    have hthread' : s'.thread = Function.update s.thread t .aborting := by
      rw [hs']
      rfl
    have hleft := place_update hthread' fun x hx => htxn x fun h' => hx (Option.some.inj h').symm
    have hfind : s.queue.nodes.find? (fun w => w.node = node) = some w := hw
    simp only [WaitQueue.step, hplace, hfind, Option.bind_eq_bind, Option.bind_some, if_true]
    subst hs'
    exact congrArg some (queue_eq rfl rfl hleft).symm
  | @call t c pos newPos _ hcall =>
    left
    obtain ⟨hthread, hlist, hbrk⟩ := logEvent_threads hcall
    refine queue_same hlist hbrk (fun x => by rw [hthread]) fun x hx => htxn x ?_
    intro h'
    cases h'
    -- only a running thread logs
    unfold logEvent at hcall
    split at hcall
    · rename_i hrun
      exact hx (haway hrun.1 fun _ => rfl)
    · cases hcall
  | commit hthread hrel hend' =>
    obtain ⟨-, hlist, hbrk⟩ := releaseLocks_rest (fun _ _ _ _ => performWrites_sameButData) hrel
    exact .inl (hend (haway hthread fun _ => rfl) hlist hbrk hend' rfl)
  | @abort t _ _ _ hthread hrel hend' =>
    obtain ⟨-, hlist, hbrk⟩ := releaseLocks_rest (fun _ _ _ _ => discardWrites_sameButData) hrel
    have hfree : s.queue.place t = none := by
      rcases hthread with hthread | hthread
      · exact haway hthread fun _ => rfl
      · exact haway hthread fun _ => rfl
    exact .inl (hend hfree hlist hbrk hend' rfl)
  | releaseByBackup hthread hrel =>
    left
    obtain ⟨-, hlist, hbrk⟩ := releaseLocksByBackup_rest hrel
    obtain ⟨l, a, -, hfree⟩ := releaseLocksByBackup_spec hs hrel
    refine queue_same hlist hbrk hfree.thread fun x hx => htxn x ?_
    intro h'
    cases h'
    exact hx (haway hthread fun _ => rfl)
  | endBackup hthread hnone hend' => exact .inl (hend (haway hthread fun _ => rfl) rfl rfl hend' rfl)
  | @markVictim i t _ hmark =>
    right
    refine ⟨_, rfl, ?_⟩
    -- the mark moves no thread
    have hplace : s'.queue.place = s.queue.place := by
      funext x
      have hx : (Event.markVictim i t).actor ≠ some x := by simp [Event.actor]
      show TxFS.ThreadState.place _ _ = TxFS.ThreadState.place _ _
      rw [← place_asleep, hasleep x hx, place_asleep, waitsFor, htxn x hx, ← waitsFor]
    obtain ⟨w, hw, rfl⟩ := markVictim_spec hmark
    have hfind : s.queue.nodes.find? (fun w => w.fileInode = i) = some w := hw
    simp only [WaitQueue.step, hfind, Option.bind_eq_bind, Option.bind_some]
    have hq : ((s.modifyNode w.node fun w => { w with txnidAbort := t, wokeUp := 0 }).wakeUp
        w.node).queue = s.queue.setNode w.node fun w => { w with txnidAbort := t, wokeUp := 0 } :=
      queue_eq rfl rfl hplace
    exact congrArg some hq.symm
  | setBackup => exact .inl rfl

/-! ## The nodes of waiting transactions -/

/-- A thread outside the wait list needs no node. -/
theorem registeredThread_away {st : TxFS.ThreadState} (hst : s.thread t = st)
    (hnone : ∀ wait, st.place wait = none) : s.RegisteredThread t := by
  unfold RegisteredThread
  rw [hst]
  cases st with
  | parked p node woken => cases hnone (0, 0)
  | victim node => cases hnone (0, 0)
  | running => trivial
  | resuming p => trivial
  | aborting => trivial

/-- The thread is at most woken, and its node stays. -/
theorem RegisteredThread.frame (h : s.RegisteredThread t)
    (hthread : ThreadState.asleep (s'.thread t) = ThreadState.asleep (s.thread t))
    (htxn : searchTxn t s'.headTxnList = searchTxn t s.headTxnList) : s'.RegisteredThread t := by
  unfold RegisteredThread at h ⊢
  rw [waitsFor, htxn, ← waitsFor]
  cases hst : s.thread t <;> cases hst' : s'.thread t <;> rw [hst, hst'] at hthread <;>
    cases hthread <;> rw [hst] at h <;> exact h

/-- A thread that parks has its request in its `txn_node`. -/
theorem requestLock_registered {req : LockRequest} {first : Option (Option Addr)} {readBit : Int}
    (h : s.requestLock t req first readBit = some s') : s'.RegisteredThread t := by
  have hlive := requestLock_live h
  obtain ⟨found, loc, s₁, out, -, hspec, hend⟩ := requestLock_cases h
  rcases hend with ⟨a, -, rfl⟩ | ⟨node, rfl, rfl⟩ | ⟨-, rfl⟩ | ⟨-, rfl⟩
  · obtain ⟨table, handles, st, heq, -, hst⟩ := s₁.afterLock_spec t req.use (first.getD loc) a
    rw [heq]
    apply registeredThread_away (Function.update_self ..)
    intro wait
    rcases hst with rfl | rfl <;> rfl
  · have hns : s₁.headTxnList = (s.setWaiting t req.inode req.flags).headTxnList := by
      cases hspec with
      | newNode => rfl
      | oldNode => rfl
      | refused hs' hout => rcases hout with hout | hout <;> cases hout
    unfold RegisteredThread
    have hst : (s₁.setThread t (.parked ⟨req, first.getD loc⟩ node false)).thread t =
        .parked ⟨req, first.getD loc⟩ node false := Function.update_self ..
    rw [hst]
    constructor
    · show searchTxn t s₁.headTxnList ≠ none
      rw [hns, setWaiting, modifyTxn, searchTxn_updateTxn (by intro _; rfl), if_pos rfl]
      obtain ⟨n, hn, hnt⟩ := List.mem_map.mp hlive
      intro hnone
      rw [Option.map_eq_none_iff] at hnone
      exact List.find?_eq_none.mp hnone n hn (by simpa using hnt)
    · show s₁.waitsFor t = _
      rw [waitsFor, hns]
      exact waitsFor_modifyTxn (by intro _; rfl) hlive (by intro _; rfl)
  · exact registeredThread_away (Function.update_self ..) fun _ => rfl
  · exact registeredThread_away (Function.update_self ..) fun _ => rfl

/-- Waking up keeps the node until the thread leaves. -/
theorem afterCondWait_registered {p : Pending} {node : Nat} {woken : Bool}
    (hthread : s.thread t = .parked p node woken) (h : s.afterCondWait t p node = some s')
    (hreg : s.RegisteredThread t) : s'.RegisteredThread t := by
  have hold := hreg
  unfold RegisteredThread at hold
  rw [hthread] at hold
  simp only [afterCondWait, Option.bind_eq_bind, Option.bind_eq_some_iff] at h
  obtain ⟨w, -, h⟩ := h
  split at h
  · -- back to sleep
    cases h
    refine hreg.frame ?_ rfl
    rw [hthread]
    show ThreadState.asleep (Function.update s.thread t (.parked p node false) t) = _
    rw [Function.update_self]
    rfl
  split at h
  · cases h
    exact registeredThread_away (Function.update_self ..) fun _ => rfl
  split at h
  · cases h
    exact registeredThread_away (Function.update_self ..) fun _ => rfl
  · -- the victim is still live
    cases h
    unfold RegisteredThread
    have hst : ((s.modifyNode node fun w => { w with wokeUp := w.wokeUp + 1 }).setThread t
        (.victim node)).thread t = .victim node := Function.update_self ..
    rw [hst]
    exact hold.1

/-- **Every step keeps the waiting transactions registered**. -/
theorem registered_step (hs : Owned s.table s.headTxnList) (hreg : Registered s)
    (h : s.step e = some s') : Registered s' := by
  intro x
  by_cases hx : e.actor = some x
  swap
  · exact (hreg x).frame (step_thread hs h hx) (step_txn h hx)
  -- the acting thread
  have hended : ∀ {s₁ : Server} {records : Int}, s₁.endTxn x records = some s' →
      s'.RegisteredThread x := by
    intro s₁ records hend
    have hrun : s'.thread x = .running := by rw [endTxn_thread hend, Function.update_self]
    exact registeredThread_away hrun fun _ => rfl
  cases step_spec h with
  | begin hfresh =>
    cases hx
    exact registeredThread_away (Function.update_self ..) fun _ => rfl
  | lock hthread hreq =>
    cases hx
    exact requestLock_registered hreq
  | resume hthread hreq =>
    cases hx
    exact requestLock_registered hreq
  | wake hthread hwake =>
    cases hx
    exact afterCondWait_registered hthread hwake (hreg _)
  | leaveAsVictim hthread hwake =>
    cases hx
    obtain ⟨_, -, rfl⟩ := afterWakeCond_spec hwake
    exact registeredThread_away (Function.update_self ..) fun _ => rfl
  | call hcall =>
    cases hx
    have hthread' := (logEvent_threads hcall).1
    unfold logEvent at hcall
    split at hcall
    · rename_i hrun
      exact registeredThread_away (hthread' ▸ hrun.1) fun _ => rfl
    · cases hcall
  | commit hthread hrel hend =>
    cases hx
    exact hended hend
  | abort hthread hrel hend =>
    cases hx
    exact hended hend
  | releaseByBackup hthread hrel =>
    cases hx
    obtain ⟨l, a, -, hfree⟩ := releaseLocksByBackup_spec hs hrel
    apply registeredThread_away rfl
    intro wait
    rw [← place_asleep, hfree.thread, place_asleep, hthread]
    rfl
  | endBackup hthread hnone hend =>
    cases hx
    exact hended hend
  | markVictim hmark => cases hx
  | setBackup => cases hx

/-! ## Runs -/

theorem registered_globalInit {handles : Nat} : Registered (globalInit handles) :=
  fun _ => registeredThread_away rfl fun _ => rfl

theorem counted_globalInit {handles : Nat} : (globalInit handles).queue.Counted where
  nodes := List.nodup_nil
  fresh := nofun
  sorted := List.Pairwise.nil
  finite := nofun
  count := nofun
  waited := nofun
  referred := nofun

theorem registered_of_reachable {handles : Nat} {ok : Server → Event → Prop}
    (h : ReachableUnder (globalInit handles) step ok s) : Registered s :=
  h.invariant registered_globalInit fun _ _ _ hs hreg _ hstep =>
    registered_step (owned_of_reachable hs) hreg hstep

/-- **The counters are right in every reachable state**. -/
theorem counted_of_reachable {handles : Nat} {ok : Server → Event → Prop}
    (h : ReachableUnder (globalInit handles) step ok s) : s.queue.Counted := by
  refine h.invariant (P := fun s => s.queue.Counted) counted_globalInit ?_
  intro s e s' hs hcount _ hstep
  rcases step_queue (owned_of_reachable hs) (registered_of_reachable hs) hstep with hq | ⟨op, -, hop⟩
  · exact hq ▸ hcount
  · exact WaitQueue.counted_step hcount hop

/-- A place of the queue is a transaction inside the wait list. -/
theorem inWaitList_iff (hreg : Registered s) {i : Int} :
    s.InWaitList t i ↔ ∃ p, s.queue.place t = some p ∧ p.inode = i := by
  have hwait : ∀ n, searchTxn t s.headTxnList = some n → (s.waitsFor t).1 = n.waitingForInode := by
    intro n hn
    rw [waitsFor, hn]
    rfl
  constructor
  · rintro ⟨hthread, n, hn, hi⟩
    rcases hthread with ⟨p, node, woken, hp⟩ | ⟨node, hp⟩
    · refine ⟨⟨node, (s.waitsFor t).1, (s.waitsFor t).2, false⟩, ?_, (hwait n hn).trans hi⟩
      exact congrArg (TxFS.ThreadState.place (s.waitsFor t)) hp
    · refine ⟨⟨node, (s.waitsFor t).1, (s.waitsFor t).2, true⟩, ?_, (hwait n hn).trans hi⟩
      exact congrArg (TxFS.ThreadState.place (s.waitsFor t)) hp
  · rintro ⟨p, hp, hi⟩
    obtain ⟨n, hn⟩ := Option.ne_none_iff_exists'.mp (hreg.live (by rw [hp]; simp))
    have hp' : (s.thread t).place (s.waitsFor t) = some p := hp
    cases hst : s.thread t with
    | parked q node woken =>
      rw [hst] at hp'
      cases hp'
      exact ⟨.inl ⟨q, node, woken, hst⟩, n, hn, (hwait n hn).symm.trans hi⟩
    | victim node =>
      rw [hst] at hp'
      cases hp'
      exact ⟨.inr ⟨node, hst⟩, n, hn, (hwait n hn).symm.trans hi⟩
    | running => rw [hst] at hp'; cases hp'
    | resuming q => rw [hst] at hp'; cases hp'
    | aborting => rw [hst] at hp'; cases hp'

/-- **The wait-list invariant**: the list is strictly sorted by inode, it has exactly one node
    for each inode somebody waits for, the node counts them, and the node a waiting thread
    refers to is in the list. -/
theorem waitList_invariant {handles : Nat} (h : Reachable (globalInit handles) step s) :
    (s.headWaitList.map WaitNode.fileInode).Pairwise (· < ·) ∧
      (∀ i, (∃ t, s.InWaitList t i) ↔ ∃! w, w ∈ s.headWaitList ∧ w.fileInode = i) ∧
      (∀ w ∈ s.headWaitList, {t | s.InWaitList t w.fileInode}.Finite ∧
        ({t | s.InWaitList t w.fileInode}.ncard : Int) = w.inWait) ∧
      (∀ t p node woken, s.thread t = .parked p node woken →
        ∃ w ∈ s.headWaitList, w.node = node ∧ w.fileInode = p.req.inode ∧
          s.InWaitList t w.fileInode) ∧
      ∀ t node, s.thread t = .victim node →
        ∃ w ∈ s.headWaitList, w.node = node ∧ s.InWaitList t w.fileInode := by
  have hreg := registered_of_reachable h
  have hcount := counted_of_reachable h
  -- the waiters of a node are the transactions that wait for its inode
  have hwaiters : ∀ w ∈ s.headWaitList,
      {t | s.InWaitList t w.fileInode} = s.queue.waiters w.node := by
    intro w hw
    ext t
    show s.InWaitList t w.fileInode ↔ _
    rw [inWaitList_iff hreg, WaitQueue.mem_waiters]
    constructor
    · rintro ⟨p, hp, hpi⟩
      obtain ⟨v, hv, hvn, hvi⟩ := hcount.referred t p hp
      have hvw : v = w := hcount.inode_inj hv hw (hvi.trans hpi)
      exact ⟨p, hp, by rw [← hvn, hvw]⟩
    · rintro ⟨p, hp, hpn⟩
      obtain ⟨v, hv, hvn, hvi⟩ := hcount.referred t p hp
      have hvw : v = w := List.inj_on_of_nodup_map hcount.nodes hv hw (hvn.trans hpn)
      exact ⟨p, hp, by rw [← hvi, hvw]⟩
  -- a place is referred to by its transaction
  have hrefers : ∀ t p, s.queue.place t = some p →
      ∃ w ∈ s.headWaitList, w.node = p.node ∧ w.fileInode = p.inode ∧
        s.InWaitList t w.fileInode := by
    intro t p hp
    obtain ⟨w, hw, hwn, hwi⟩ := hcount.referred t p hp
    exact ⟨w, hw, hwn, hwi, (inWaitList_iff hreg).mpr ⟨p, hp, hwi.symm⟩⟩
  refine ⟨hcount.sorted, ?_, ?_, ?_, ?_⟩
  · intro i
    constructor
    · rintro ⟨t, ht⟩
      obtain ⟨p, hp, hpi⟩ := (inWaitList_iff hreg).mp ht
      obtain ⟨w, hw, -, hwi, -⟩ := hrefers t p hp
      refine ⟨w, ⟨hw, hwi.trans hpi⟩, ?_⟩
      rintro v ⟨hv, hvi⟩
      exact hcount.inode_inj hv hw (hvi.trans (hwi.trans hpi).symm)
    · rintro ⟨w, ⟨hw, hwi⟩, -⟩
      obtain ⟨t, ht⟩ := hcount.waited w hw
      have hmem : t ∈ {t | s.InWaitList t w.fileInode} := (hwaiters w hw).symm ▸ ht
      exact ⟨t, hwi ▸ hmem⟩
  · intro w hw
    rw [hwaiters w hw]
    exact ⟨hcount.finite w hw, hcount.count w hw⟩
  · intro t p node woken hp
    obtain ⟨w, hw, hwn, hwi, hin⟩ := hrefers t _ (congrArg (TxFS.ThreadState.place _) hp)
    have hrequest := hreg t
    unfold RegisteredThread at hrequest
    rw [hp] at hrequest
    exact ⟨w, hw, hwn, hwi.trans (congrArg Prod.fst hrequest.2), hin⟩
  · intro t node hp
    obtain ⟨w, hw, hwn, -, hin⟩ := hrefers t _ (congrArg (TxFS.ThreadState.place _) hp)
    exact ⟨w, hw, hwn, hin⟩

/-- Two transactions wait for inode 7; one has found itself marked, the other one slept on. -/
theorem waitList_invariant_victim :
    ∃ s, Reachable (globalInit 1) step s ∧ s.thread 2 = .victim 0 ∧
      s.headWaitList = [⟨0, 7, 2, 2, 2⟩] ∧
      ∀ w ∈ s.headWaitList, ({t | s.InWaitList t w.fileInode}.ncard : Int) = w.inWait := by
  obtain ⟨s, hs, hp, hlist⟩ := exists_of_run (globalInit 1) step
    (fun s => s.thread 2 = .victim 0 ∧ s.headWaitList = [⟨0, 7, 2, 2, 2⟩])
    [.begin 1, .begin 2, .begin 3, .lock 1 ⟨7, 2, .placeholder⟩ 0,
      .lock 2 ⟨7, 2, .placeholder⟩ 0, .lock 3 ⟨7, 2, .placeholder⟩ 0, .markVictim 7 2,
      .wake 2, .wake 3] (by decide)
  exact ⟨s, hs, hp, hlist, fun w hw => ((waitList_invariant hs).2.2.1 w hw).2⟩

end Server

end TxFS
