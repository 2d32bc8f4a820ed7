import TxFS.WaitList.Invariant

/-!
# Marked Nodes

While a wait node is marked, its `woke_up` counts the waiters that have seen the mark: those
that went back to sleep and the victim itself. The count is a lower bound only as long as
nobody joins a marked node and the detector does not mark it again.
-/

namespace TxFS

open GuardedRun

namespace Server

variable {s s' s₁ : Server} {t : Int} {node : Nat} {e : Event}

/-! ## The condition -/

/-- The wait node of the inode, if there is one, carries no mark. -/
def NodeUnmarked (s : Server) (i : Int) : Prop :=
  ∀ w ∈ s.headWaitList, w.fileInode = i → w.txnidAbort = -1

instance (s : Server) (i : Int) : Decidable (s.NodeUnmarked i) :=
  inferInstanceAs (Decidable (∀ w ∈ s.headWaitList, _))

/-- The detector marks unmarked nodes only. -/
def MarksUnmarked (s : Server) : Event → Prop
  | .markVictim i _ => s.NodeUnmarked i
  | _ => True

instance (s : Server) (e : Event) : Decidable (s.MarksUnmarked e) :=
  match e with
  | .markVictim i _ => inferInstanceAs (Decidable (s.NodeUnmarked i))
  | .begin _ | .lock .. | .resume .. | .wake _ | .leaveAsVictim _ | .call .. | .commit _
  | .abort _ | .releaseByBackup _ | .endBackup | .setBackup _ => isTrue trivial

/-- **The condition**: a marked node is left to its waiters. Nobody joins it, and it is not
    marked again. -/
def MarkUndisturbed (s : Server) (e : Event) : Prop :=
  (∀ r ∈ s.requestOf e, s.MustWait r.1 r.2.1 → s.NodeUnmarked r.2.1.inode) ∧ s.MarksUnmarked e

instance (s : Server) (e : Event) : Decidable (s.MarkUndisturbed e) :=
  inferInstanceAs (Decidable ((∀ r ∈ s.requestOf e, _) ∧ _))

/-! ## Who has seen the mark -/

/-- The waiters of the node that are not about to wake up: asleep on `f_lock` without a
    broadcast, or the victim. -/
def seen (s : Server) (node : Nat) : Set Int :=
  {u | s.thread u = .victim node ∨ ∃ p, s.thread u = .parked p node false}

/-- **The tally of a marked node**: a victim is the one that the node names, and `woke_up`
    counts at least those that have seen the mark. -/
structure Tallied (s : Server) : Prop where
  victim : ∀ t node, s.thread t = .victim node →
    t ≠ -1 ∧ ∃ w ∈ s.headWaitList, w.node = node ∧ w.txnidAbort = t
  tally : ∀ w ∈ s.headWaitList, w.txnidAbort ≠ -1 → ((s.seen w.node).ncard : Int) ≤ w.wokeUp

theorem seen_subset_waiters : s.seen node ⊆ s.queue.waiters node := by
  rintro u (hu | ⟨p, hu⟩)
  · exact ⟨_, congrArg (TxFS.ThreadState.place _) hu, rfl⟩
  · exact ⟨_, congrArg (TxFS.ThreadState.place _) hu, rfl⟩

theorem finite_seen (hcount : s.queue.Counted) {w : WaitNode} (hw : w ∈ s.headWaitList) :
    (s.seen w.node).Finite :=
  (hcount.finite w hw).subset seen_subset_waiters

/-! ## Steps that only wake -/

/-- Nobody goes to sleep or becomes a victim. -/
def OnlyWakes (s s' : Server) : Prop :=
  ∀ u, (∀ node, s'.thread u = .victim node → s.thread u = .victim node) ∧
    ∀ p node, s'.thread u = .parked p node false → s.thread u = .parked p node false

theorem OnlyWakes.refl (s : Server) : OnlyWakes s s := fun _ => ⟨fun _ => id, fun _ _ => id⟩

theorem OnlyWakes.of_thread (h : s'.thread = s.thread) : OnlyWakes s s' := by
  intro u
  rw [h]
  exact ⟨fun _ => id, fun _ _ => id⟩

theorem OnlyWakes.trans (h : OnlyWakes s s₁) (h' : OnlyWakes s₁ s') : OnlyWakes s s' :=
  fun u => ⟨fun node hu => (h u).1 node ((h' u).1 node hu),
    fun p node hu => (h u).2 p node ((h' u).2 p node hu)⟩

theorem OnlyWakes.seen (h : OnlyWakes s s') (node : Nat) : s'.seen node ⊆ s.seen node := by
  rintro u (hu | ⟨p, hu⟩)
  · exact .inl ((h u).1 node hu)
  · exact .inr ⟨p, (h u).2 p node hu⟩

theorem onlyWakes_wakeUp (s : Server) (node : Nat) : OnlyWakes s (s.wakeUp node) := by
  intro u
  constructor
  · intro n hu
    simp only [wakeUp] at hu
    split at hu
    · cases hu
    · exact hu
  · intro p n hu
    simp only [wakeUp] at hu
    split at hu
    · rename_i q m k hthread
      simp only [TxFS.ThreadState.parked.injEq, Bool.or_eq_false_iff] at hu
      obtain ⟨rfl, rfl, rfl, -⟩ := hu
      exact hthread
    · rename_i hnot
      exact absurd hu (hnot p n false)

/-- A thread that goes on is awake. -/
theorem onlyWakes_update {st : TxFS.ThreadState}
    (hthread : s'.thread = Function.update s.thread t st)
    (hst : ∀ wait, st.place wait = none) : OnlyWakes s s' := by
  intro u
  rw [hthread]
  by_cases hu : u = t
  · subst hu
    rw [Function.update_self]
    constructor
    · rintro node rfl
      cases hst (0, 0)
    · rintro p node rfl
      cases hst (0, 0)
  · rw [Function.update_of_ne hu]
    exact ⟨fun _ => id, fun _ _ => id⟩

theorem ReleaseSpec.onlyWakes {close : Bool → Int → Option Act} {a : Addr} {acts : List Act}
    (h : ReleaseSpec close s a s' acts) : OnlyWakes s s' := by
  cases h with
  | quiet => exact .of_thread rfl
  | unlinked => exact .of_thread rfl
  | woken => exact onlyWakes_wakeUp _ _

theorem releaseLocks_onlyWakes {prepare : Server → Addr → Option (Server × List Act)}
    {close : Bool → Int → Option Act} {acts : List Act}
    (hprep : ∀ s a s₁ pre, prepare s a = some (s₁, pre) → SameButData s s₁)
    (h : releaseLocks prepare close s t = some (s', acts)) : OnlyWakes s s' := by
  simp only [releaseLocks, Option.bind_eq_bind, Option.bind_eq_some_iff] at h
  obtain ⟨n, -, h⟩ := h
  refine releaseLoop_steps (I := fun _ s₁ _ => OnlyWakes s s₁) [] ?_ h (.refl _)
  intro a s₁ s₂ s₃ pre rel done hI hpre hrel
  obtain ⟨table, rfl, -⟩ := hprep _ _ _ _ hpre
  have hsame : OnlyWakes s { s₁ with table := table } := hI
  exact hsame.trans (releaseRecord_spec hrel).onlyWakes

theorem releaseLocksByBackup_onlyWakes {i : Int} {acts : List Act}
    (h : s.releaseLocksByBackup t i = some (s', acts)) : OnlyWakes s s' := by
  simp only [releaseLocksByBackup, Option.bind_eq_bind, Option.bind_eq_some_iff] at h
  obtain ⟨n, -, ⟨foll, a⟩, -, h⟩ := h
  obtain ⟨table, ns, hunlink, -⟩ := s.unlinkTxnList_frame t foll a
  rw [hunlink] at h
  have hsame : OnlyWakes s { s with table := table, headTxnList := ns } := .refl s
  exact hsame.trans (releaseRecord_spec h).onlyWakes

/-! ## Nodes -/

/-- The tally, when nodes keep their marks or lose them. -/
theorem Tallied.update (h : Tallied s) (hcount : s.queue.Counted)
    (hwakes : ∀ u, (∀ n, s'.thread u = .victim n → s.thread u = .victim n))
    (hvictims : ∀ u n, s'.thread u = .victim n → ∀ w ∈ s.headWaitList, w.node = n →
      w.txnidAbort = u → ∃ w' ∈ s'.headWaitList, w'.node = n ∧ w'.txnidAbort = u)
    (hnodes : ∀ w' ∈ s'.headWaitList, w'.txnidAbort ≠ -1 →
      ∃ w ∈ s.headWaitList, w.node = w'.node ∧ w.txnidAbort ≠ -1 ∧
        (w'.wokeUp = w.wokeUp ∧ s'.seen w.node ⊆ s.seen w.node ∨
          w'.wokeUp = w.wokeUp + 1 ∧ ∃ u, s'.seen w.node ⊆ insert u (s.seen w.node))) :
    Tallied s' where
  victim := by
    intro u n hu
    obtain ⟨hne, w, hw, hwn, hmark⟩ := h.victim u n (hwakes u n hu)
    exact ⟨hne, hvictims u n hu w hw hwn hmark⟩
  tally := by
    intro w' hw' hmark
    obtain ⟨w, hw, hwn, hmark', hcase⟩ := hnodes w' hw' hmark
    have htally := h.tally w hw hmark'
    have hfin := finite_seen hcount hw
    rw [← hwn]
    rcases hcase with ⟨hwoke, hsub⟩ | ⟨hwoke, u, hsub⟩
    · have hle := Set.ncard_le_ncard hsub hfin
      omega
    · have hle := Set.ncard_le_ncard hsub (hfin.insert u)
      have hins := Set.ncard_insert_le u (s.seen w.node)
      omega

/-- The wait list stays, and threads are at most woken. -/
theorem Tallied.quiet (h : Tallied s) (hcount : s.queue.Counted)
    (hlist : s'.headWaitList = s.headWaitList) (hwakes : OnlyWakes s s') : Tallied s' := by
  apply h.update hcount (fun u => (hwakes u).1)
  · intro u n _ w hw hwn hmark
    exact ⟨w, hlist ▸ hw, hwn, hmark⟩
  · intro w hw hmark
    exact ⟨w, hlist ▸ hw, rfl, hmark, .inl ⟨rfl, hwakes.seen _⟩⟩

/-- Assignments to the fields of a node leave the other nodes. -/
theorem mem_modifyNode {f : WaitNode → WaitNode} {w' : WaitNode}
    (h : w' ∈ (s.modifyNode node f).headWaitList) :
    ∃ w ∈ s.headWaitList, (w.node ≠ node ∧ w' = w) ∨ (w.node = node ∧ w' = f w) := by
  obtain ⟨w, hw, rfl⟩ := List.mem_map.mp h
  refine ⟨w, hw, ?_⟩
  by_cases hn : w.node = node
  · exact .inr ⟨hn, if_pos hn⟩
  · exact .inl ⟨hn, if_neg hn⟩

theorem mem_modifyNode_of_ne {f : WaitNode → WaitNode} {w : WaitNode} (hw : w ∈ s.headWaitList)
    (hn : w.node ≠ node) : w ∈ (s.modifyNode node f).headWaitList :=
  List.mem_map.mpr ⟨w, hw, if_neg hn⟩

/-- The departure of a waiter leaves the marks. -/
theorem mem_updateWaitListOnWake {w' : WaitNode}
    (h : w' ∈ (s.updateWaitListOnWake node).headWaitList) :
    ∃ w ∈ s.headWaitList, w.node = w'.node ∧ w.txnidAbort = w'.txnidAbort ∧
      w.wokeUp = w'.wokeUp := by
  obtain ⟨w, hw, ⟨-, rfl⟩ | ⟨-, rfl⟩⟩ := mem_modifyNode (List.mem_filter.mp h).1
  · exact ⟨_, hw, rfl, rfl, rfl⟩
  · exact ⟨w, hw, rfl, rfl, rfl⟩

theorem mem_updateWaitListOnWake_of_ne {w : WaitNode} (hw : w ∈ s.headWaitList)
    (hn : w.node ≠ node) : w ∈ (s.updateWaitListOnWake node).headWaitList :=
  List.mem_filter.mpr ⟨mem_modifyNode_of_ne hw hn, by simp [hn]⟩

/-- Where the transactions stand after the thread `t` went to sleep or became a victim on a
    node. -/
theorem seen_update {st : TxFS.ThreadState} (hthread : s'.thread = Function.update s.thread t st)
    (n : Nat) : s'.seen n ⊆ insert t (s.seen n) := by
  intro u hu
  by_cases hut : u = t
  · exact .inl hut
  · right
    simpa only [seen, Set.mem_ofPred_eq, hthread, Function.update_of_ne hut] using hu

/-- Seen from another node nothing has changed. -/
theorem seen_update_of_ne {st : TxFS.ThreadState} {n : Nat}
    (hthread : s'.thread = Function.update s.thread t st)
    (hst : st ≠ .victim n ∧ ∀ p, st ≠ .parked p n false) : s'.seen n ⊆ s.seen n := by
  intro u hu
  by_cases hut : u = t
  · subst hut
    rcases hu with hu | ⟨p, hu⟩
    · rw [hthread, Function.update_self] at hu
      exact absurd hu hst.1
    · rw [hthread, Function.update_self] at hu
      exact absurd hu (hst.2 p)
  · simpa only [seen, Set.mem_ofPred_eq, hthread, Function.update_of_ne hut] using hu

/-! ## Steps -/

/-- **A request** joins unmarked nodes only. -/
theorem requestLock_tallied {req : LockRequest} {first : Option (Option Addr)} {readBit : Int}
    (hs : Owned s.table s.headTxnList) (hcount : s.queue.Counted) (h : Tallied s)
    (hfree : s.queue.place t = none) (hok : s.MustWait t req → s.NodeUnmarked req.inode)
    (hreq : s.requestLock t req first readBit = some s') : Tallied s' := by
  obtain ⟨found, loc, s₁, out, hsearch, hspec, hend⟩ := requestLock_cases hreq
  have hthread₁ := hspec.thread
  rcases hend with ⟨a, hout, rfl⟩ | ⟨node, rfl, rfl⟩ | ⟨rfl, rfl⟩ | ⟨rfl, rfl⟩
  · obtain ⟨table, handles, st, heq, -, hst⟩ := s₁.afterLock_spec t req.use (first.getD loc) a
    rw [heq]
    obtain ⟨⟨-, hlist, -, -⟩, -⟩ := hspec.records hs (by rcases hout with rfl | rfl <;> simp)
    have hthread : Function.update s₁.thread t st = Function.update s.thread t st := by
      rw [hthread₁]
    refine h.quiet hcount hlist (onlyWakes_update hthread ?_)
    intro wait
    rcases hst with rfl | rfl <;> rfl
  · -- the thread parks; a victim on another thread stays
    have hpark : (s₁.setThread t (.parked ⟨req, first.getD loc⟩ node false)).thread =
        Function.update s.thread t (.parked ⟨req, first.getD loc⟩ node false) := by
      rw [← hthread₁]
      rfl
    have hwakes : ∀ u n, (s₁.setThread t (.parked ⟨req, first.getD loc⟩ node false)).thread u =
        .victim n → s.thread u = .victim n := by
      intro u n hu
      rw [hpark] at hu
      by_cases hut : u = t
      · subst hut
        rw [Function.update_self] at hu
        cases hu
      · rwa [Function.update_of_ne hut] at hu
    have hother : ∀ n, n ≠ node →
        (s₁.setThread t (.parked ⟨req, first.getD loc⟩ node false)).seen n ⊆ s.seen n := by
      intro n hn
      refine seen_update_of_ne hpark ⟨nofun, ?_⟩
      intro p hp
      cases hp
      exact hn rfl
    cases hspec with
    | newNode hloc hown hconflict hwait =>
      have hperm := insertWaitNode_perm ⟨s.nodeBrk, req.inode, 1, -1, 0⟩ s.headWaitList
      apply h.update hcount hwakes
      · intro u n _ w hw hwn hmark
        exact ⟨w, hperm.mem_iff.mpr (List.mem_cons_of_mem _ hw), hwn, hmark⟩
      · intro w hw hmark
        rcases List.mem_cons.mp (hperm.mem_iff.mp hw) with rfl | hw
        · exact absurd rfl hmark
        · exact ⟨w, hw, rfl, hmark, .inl ⟨rfl, hother _ (Nat.ne_of_lt (hcount.fresh w hw))⟩⟩
    | @oldNode l w hloc hown hconflict hwait =>
      subst hloc
      obtain ⟨hw, hwi⟩ := searchWaitList_some hwait
      have hmust := mustWait_of_conflict hsearch hown
        (hconflict.imp_right (Or.imp_right fun hfind => ⟨by simp [hwait], hfind⟩))
      have hunmarked := hok hmust w hw hwi
      apply h.update hcount hwakes
      · intro u n hu v hv hvn hmark
        have hne : v.node ≠ w.node := by
          intro hvw
          have heq : v = w := List.inj_on_of_nodup_map hcount.nodes hv hw hvw
          subst heq
          exact (h.victim u n (hwakes u n hu)).1 (hmark.symm.trans hunmarked)
        exact ⟨v, mem_modifyNode_of_ne hv hne, hvn, hmark⟩
      · intro v' hv' hmark
        obtain ⟨v, hv, ⟨hvw, rfl⟩ | ⟨hvw, rfl⟩⟩ := mem_modifyNode hv'
        · exact ⟨_, hv, rfl, hmark, .inl ⟨rfl, hother _ hvw⟩⟩
        · have heq : v = w := List.inj_on_of_nodup_map hcount.nodes hv hw hvw
          subst heq
          exact absurd hunmarked hmark
    | refused hs' hout => rcases hout with hout | hout <;> cases hout
  · obtain ⟨⟨-, hlist, -, -⟩, -⟩ := hspec.records hs (by simp)
    exact h.quiet hcount hlist
      (onlyWakes_update (congrArg (Function.update · t _) hthread₁) fun _ => rfl)
  · obtain ⟨⟨-, hlist, -, -⟩, -⟩ := hspec.records hs (by simp)
    exact h.quiet hcount hlist
      (onlyWakes_update (congrArg (Function.update · t _) hthread₁) fun _ => rfl)

/-- The mark of a node is taken off by its victim. -/
theorem Tallied.unmark (h : Tallied s) (hcount : s.queue.Counted) {w : WaitNode}
    (hw : w ∈ s.headWaitList) (hwn : w.node = node) (hmark : w.txnidAbort = t)
    {st : TxFS.ThreadState} (hst : ∀ wait, st.place wait = none)
    (hthread : s'.thread = Function.update s.thread t st)
    (hkeep : ∀ v ∈ s.headWaitList, v.node ≠ node → v ∈ s'.headWaitList)
    (hnodes : ∀ v' ∈ s'.headWaitList, v'.txnidAbort ≠ -1 → ∃ v ∈ s.headWaitList,
      v.node = v'.node ∧ v.txnidAbort ≠ -1 ∧ v'.wokeUp = v.wokeUp) : Tallied s' := by
  have hwakes := onlyWakes_update hthread hst
  apply h.update hcount (fun u => (hwakes u).1)
  · intro u n hu v hv hvn hvmark
    refine ⟨v, hkeep v hv ?_, hvn, hvmark⟩
    -- the victim of the node is `t`, and it is no victim any more
    intro hvnode
    have heq : v = w := List.inj_on_of_nodup_map hcount.nodes hv hw (hvnode.trans hwn.symm)
    rw [heq, hmark] at hvmark
    rw [hthread, ← hvmark, Function.update_self] at hu
    have hnone := hst (0, 0)
    rw [hu] at hnone
    cases hnone
  · intro v' hv' hmark'
    obtain ⟨v, hv, hvn, hvm, hwoke⟩ := hnodes v' hv' hmark'
    exact ⟨v, hv, hvn, hvm, .inl ⟨hwoke, hwakes.seen _⟩⟩

/-- **A waiter that wakes up** is counted when it goes back to sleep or is the victim. -/
theorem afterCondWait_tallied {p : Pending} {woken : Bool} (hcount : s.queue.Counted)
    (h : Tallied s) (ht : s.thread t = .parked p node woken)
    (hwake : s.afterCondWait t p node = some s') : Tallied s' := by
  simp only [afterCondWait, Option.bind_eq_bind, Option.bind_eq_some_iff] at hwake
  obtain ⟨w, hfind, hwake⟩ := hwake
  have hw : w ∈ s.headWaitList := List.mem_of_find?_eq_some hfind
  have hwn : w.node = node := by simpa using List.find?_some hfind
  -- counting `t`, which stays on the node
  have hcounted : ∀ {st : TxFS.ThreadState}, (∀ n, n ≠ node → st ≠ .victim n ∧
      ∀ p, st ≠ .parked p n false) →
      (∀ n, st = .victim n → t ≠ -1 ∧ w.txnidAbort = t ∧ n = node) →
      Tallied ((s.modifyNode node fun w => { w with wokeUp := w.wokeUp + 1 }).setThread t st) := by
    intro st hother hvictim
    have hthread : ((s.modifyNode node fun w => { w with wokeUp := w.wokeUp + 1 }).setThread
        t st).thread = Function.update s.thread t st := rfl
    -- no node goes, and no mark changes
    have hstays : ∀ v ∈ s.headWaitList, ∃ v' ∈ (s.modifyNode node fun w =>
        { w with wokeUp := w.wokeUp + 1 }).headWaitList,
        v'.node = v.node ∧ v'.txnidAbort = v.txnidAbort := by
      intro v hv
      refine ⟨_, List.mem_map_of_mem hv, ?_⟩
      split
      · exact ⟨rfl, rfl⟩
      · exact ⟨rfl, rfl⟩
    constructor
    · intro u n hu
      by_cases hut : u = t
      · subst hut
        rw [hthread, Function.update_self] at hu
        obtain ⟨hne, hmark, rfl⟩ := hvictim n hu
        obtain ⟨v', hv', hvn, hvm⟩ := hstays w hw
        exact ⟨hne, v', hv', hvn.trans hwn, hvm.trans hmark⟩
      · rw [hthread, Function.update_of_ne hut] at hu
        obtain ⟨hne, v, hv, hvn, hmark⟩ := h.victim u n hu
        obtain ⟨v', hv', hvn', hvm⟩ := hstays v hv
        exact ⟨hne, v', hv', hvn'.trans hvn, hvm.trans hmark⟩
    · intro v' hv' hmark
      obtain ⟨v, hv, ⟨hvn, rfl⟩ | ⟨hvn, rfl⟩⟩ := mem_modifyNode hv'
      · -- another node has seen nobody new
        have hle := Set.ncard_le_ncard (seen_update_of_ne hthread (hother _ hvn))
          (finite_seen hcount hv)
        have htally := h.tally _ hv hmark
        omega
      · -- this node has seen at most `t` besides, and counts it
        have hle := Set.ncard_le_ncard (seen_update hthread v.node)
          ((finite_seen hcount hv).insert t)
        have hins := Set.ncard_insert_le t (s.seen v.node)
        have htally := h.tally v hv hmark
        show ((((s.modifyNode node fun w => { w with wokeUp := w.wokeUp + 1 }).setThread t st).seen
          v.node).ncard : Int) ≤ v.wokeUp + 1
        omega
  split at hwake
  · -- back to sleep
    cases hwake
    apply hcounted
    · intro n hn
      refine ⟨by simp, ?_⟩
      intro q hq
      cases hq
      exact hn rfl
    · simp
  split at hwake
  · -- resume
    cases hwake
    have hwakes : OnlyWakes s (((s.updateWaitListOnWake node).setRunning t).setThread t
      (.resuming p)) := onlyWakes_update rfl fun _ => rfl
    rename_i hunmarked
    apply h.update hcount (fun u => (hwakes u).1)
    · intro u n hu v hv hvn hmark
      refine ⟨v, mem_updateWaitListOnWake_of_ne hv ?_, hvn, hmark⟩
      -- a victim sits on a marked node, and this one is not marked
      intro hvnode
      have heq : v = w := List.inj_on_of_nodup_map hcount.nodes hv hw (hvnode.trans hwn.symm)
      subst heq
      exact (h.victim u n ((hwakes u).1 n hu)).1 (hmark.symm.trans hunmarked)
    · intro v' hv' hmark
      obtain ⟨v, hv, hvn, hvm, hwoke⟩ := mem_updateWaitListOnWake hv'
      exact ⟨v, hv, hvn, hvm ▸ hmark, .inl ⟨hwoke.symm, hwakes.seen _⟩⟩
  rename_i hnot hmarked
  -- a thread that neither sleeps nor resumes is the one that is marked
  have hmark : w.txnidAbort = t := by
    by_contra hne
    exact hnot ⟨hmarked, hne⟩
  split at hwake
  · -- the victim, after everybody else
    cases hwake
    refine h.unmark hcount hw hwn hmark (fun _ => rfl) rfl ?_ ?_
    · intro v hv hvn
      apply mem_updateWaitListOnWake_of_ne _ hvn
      exact mem_modifyNode_of_ne (mem_modifyNode_of_ne hv hvn) hvn
    · intro v' hv' hmark'
      obtain ⟨v₁, hv₁, hvn₁, hvm₁, hwoke₁⟩ := mem_updateWaitListOnWake hv'
      rw [← hvm₁] at hmark'
      obtain ⟨v₂, hv₂, ⟨hvn₂, rfl⟩ | ⟨hvn₂, rfl⟩⟩ := mem_modifyNode hv₁
      · obtain ⟨v₃, hv₃, ⟨hvn₃, rfl⟩ | ⟨hvn₃, rfl⟩⟩ := mem_modifyNode hv₂
        · exact ⟨_, hv₃, hvn₁, hmark', hwoke₁.symm⟩
        · exact absurd hvn₃ hvn₂
      · exact absurd rfl hmark'
  · cases hwake
    apply hcounted
    · intro n hn
      refine ⟨?_, by simp⟩
      intro hv
      cases hv
      exact hn rfl
    · intro n hn
      cases hn
      exact ⟨hmark ▸ hmarked, hmark, rfl⟩

/-- **Every step under the condition keeps the tally**. -/
theorem tallied_step (hs : Owned s.table s.headTxnList) (hcount : s.queue.Counted)
    (h : Tallied s) (hok : s.MarkUndisturbed e) (hstep : s.step e = some s') : Tallied s' := by
  have haway : ∀ {t : Int} {st : TxFS.ThreadState}, s.thread t = st →
      (∀ wait, st.place wait = none) → s.queue.place t = none := by
    intro t st hst hnone
    show (s.thread t).place _ = none
    rw [hst]
    exact hnone _
  -- an event that wakes at most, and then ends a transaction
  have hended : ∀ {s₁ : Server} {t records : Int}, OnlyWakes s s₁ →
      s₁.headWaitList = s.headWaitList → s₁.endTxn t records = some s' → Tallied s' := by
    intro s₁ t records hwakes hlist hend
    have hthread := endTxn_thread hend
    obtain ⟨ns, -, rfl⟩ := endTxn_spec hend
    exact h.quiet hcount hlist (hwakes.trans (onlyWakes_update hthread fun _ => rfl))
  cases step_spec hstep with
  | begin hfresh => exact h.quiet hcount rfl (onlyWakes_update rfl fun _ => rfl)
  | lock hthread hreq =>
    exact requestLock_tallied hs hcount h (haway hthread fun _ => rfl) (hok.1 _ rfl) hreq
  | @resume t readBit p _ hthread hreq =>
    have hrequest : s.requestOf (.resume t readBit) = some (t, p.req, readBit) := by
      rw [requestOf, hthread]
    exact requestLock_tallied hs hcount h (haway hthread fun _ => rfl) (hok.1 _ hrequest) hreq
  | wake hthread hwake => exact afterCondWait_tallied hcount h hthread hwake
  | @leaveAsVictim t node _ hthread hwake =>
    -- the node of the victim loses its mark, the others are as they were
    obtain ⟨hne, w, hw, hwn, hmark⟩ := h.victim t node hthread
    obtain ⟨_, -, rfl⟩ := afterWakeCond_spec hwake
    refine h.unmark hcount hw hwn hmark (fun _ => rfl) rfl ?_ ?_
    · intro v hv hvn
      exact mem_updateWaitListOnWake_of_ne (mem_modifyNode_of_ne hv hvn) hvn
    · intro v' hv' hmark'
      obtain ⟨v₁, hv₁, hvn₁, hvm₁, hwoke₁⟩ := mem_updateWaitListOnWake hv'
      rw [← hvm₁] at hmark'
      obtain ⟨v₂, hv₂, ⟨hvn₂, rfl⟩ | ⟨hvn₂, rfl⟩⟩ := mem_modifyNode hv₁
      · exact ⟨_, hv₂, hvn₁, hmark', hwoke₁.symm⟩
      · exact absurd rfl hmark'
  | call hcall =>
    obtain ⟨hthread, hlist, -⟩ := logEvent_threads hcall
    exact h.quiet hcount hlist (.of_thread hthread)
  | commit hthread hrel hend =>
    exact hended (releaseLocks_onlyWakes (fun _ _ _ _ => performWrites_sameButData) hrel)
      (releaseLocks_rest (fun _ _ _ _ => performWrites_sameButData) hrel).2.1 hend
  | abort hthread hrel hend =>
    exact hended (releaseLocks_onlyWakes (fun _ _ _ _ => discardWrites_sameButData) hrel)
      (releaseLocks_rest (fun _ _ _ _ => discardWrites_sameButData) hrel).2.1 hend
  | releaseByBackup hthread hrel =>
    exact h.quiet hcount (releaseLocksByBackup_rest hrel).2.1 (releaseLocksByBackup_onlyWakes hrel)
  | endBackup hthread hnone hend => exact hended (.refl s) rfl hend
  | @markVictim i t _ hmark =>
    obtain ⟨w, hfind, rfl⟩ := markVictim_spec hmark
    obtain ⟨hw, hwi⟩ := searchWaitList_some hfind
    have hunmarked := hok.2 w hw hwi
    have hwakes := onlyWakes_wakeUp
      (s.modifyNode w.node fun w => { w with txnidAbort := t, wokeUp := 0 }) w.node
    -- nobody is left asleep on the node, and it has no victim yet
    have hnobody : ((s.modifyNode w.node fun w =>
        { w with txnidAbort := t, wokeUp := 0 }).wakeUp w.node).seen w.node = ∅ := by
      apply Set.eq_empty_of_forall_notMem
      rintro u (hu | ⟨p, hu⟩)
      · obtain ⟨hne, v, hv, hvn, hvm⟩ := h.victim u _ ((hwakes u).1 _ hu)
        have heq : v = w := List.inj_on_of_nodup_map hcount.nodes hv hw hvn
        rw [heq, hunmarked] at hvm
        exact hne hvm.symm
      · simp only [wakeUp] at hu
        split at hu
        · simp only [TxFS.ThreadState.parked.injEq, Bool.or_eq_false_iff] at hu
          obtain ⟨-, rfl, -, hn⟩ := hu
          simp at hn
        · rename_i hnot
          exact hnot _ _ _ hu
    constructor
    · intro u n hu
      obtain ⟨hne, v, hv, hvn, hvm⟩ := h.victim u n ((hwakes u).1 n hu)
      refine ⟨hne, v, mem_modifyNode_of_ne hv ?_, hvn, hvm⟩
      intro hvw
      have heq : v = w := List.inj_on_of_nodup_map hcount.nodes hv hw hvw
      rw [heq, hunmarked] at hvm
      exact hne hvm.symm
    · intro v' hv' hmark
      obtain ⟨v, hv, ⟨hvn, rfl⟩ | ⟨hvn, rfl⟩⟩ := mem_modifyNode hv'
      · -- another node: a wake-up only makes fewer threads seen there
        have hle := Set.ncard_le_ncard (t := s.seen v'.node) (hwakes.seen v'.node)
          (finite_seen hcount hv)
        exact le_trans (Int.ofNat_le.mpr hle) (h.tally _ hv hmark)
      · show ((Server.seen _ v.node).ncard : Int) ≤ 0
        rw [hvn, hnobody, Set.ncard_empty]
        exact le_refl _
  | setBackup => exact h.quiet hcount rfl (.of_thread rfl)

theorem tallied_globalInit {handles : Nat} : Tallied (globalInit handles) where
  victim := nofun
  tally := nofun

theorem tallied_of_reachable {handles : Nat}
    (h : ReachableUnder (globalInit handles) step MarkUndisturbed s) : Tallied s :=
  h.invariant tallied_globalInit fun _ _ _ hs htally hok hstep =>
    tallied_step (owned_of_reachable hs) (counted_of_reachable hs) htally hok hstep

end Server

end TxFS
