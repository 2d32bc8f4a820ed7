import TxFS.Locks.Steps
import TxFS.WaitList.Queue

/-!
# No Lost Wake-up

A thread that is parked in the wait node of a file, and has not been woken, waits for a lock
that another transaction still holds. Besides clean releases this needs that nobody queues
up for a file on which it owns a record itself: such a transaction would be waiting for its
own release. The deadlock detector takes no part.
-/

namespace TxFS

open LinkedPath GuardedRun

namespace Server

variable {s s' s₁ : Server} {t : Int} {a : Addr} {p : Pending} {node : Nat} {woken : Bool}

/-! ## Conditions on the events -/

/-- The request will be queued: the branches of `insert_file_list` that wait. -/
def MustWait (s : Server) (t : Int) (req : LockRequest) : Prop :=
  match s.table.searchFileList req.inode with
  | some (true, some loc) =>
    (s.cell loc).parentTxn ≠ t ∧ ((s.cell loc).fileMode = 1 ∨ req.flags ≠ 0 ∨
      (s.searchWaitList req.inode ≠ none ∧ findFrom (fun b => (s.cell b).nextSharedRec)
        (fun b => (s.cell b).parentTxn = 0) (s.table.brk + 1) (some loc) = some none))
  | _ => False

instance (s : Server) (t : Int) (req : LockRequest) : Decidable (s.MustWait t req) :=
  match h : s.table.searchFileList req.inode with
  | some (true, some loc) => decidable_of_iff
      ((s.cell loc).parentTxn ≠ t ∧ ((s.cell loc).fileMode = 1 ∨ req.flags ≠ 0 ∨
        (s.searchWaitList req.inode ≠ none ∧ findFrom (fun b => (s.cell b).nextSharedRec)
          (fun b => (s.cell b).parentTxn = 0) (s.table.brk + 1) (some loc) = some none)))
      (by simp [MustWait, h])
  | some (true, none) => isFalse (by simp [MustWait, h])
  | some (false, _) => isFalse (by simp [MustWait, h])
  | none => isFalse (by simp [MustWait, h])

/-- A request that will be queued is not for a file the transaction has locked itself. -/
def NoSelfWait (s : Server) (t : Int) (req : LockRequest) : Prop :=
  s.MustWait t req → ∀ a ∈ s.table.allocated, (s.cell a).fileInode = req.inode →
    (s.cell a).parentTxn ≠ t

instance (s : Server) (t : Int) (req : LockRequest) : Decidable (s.NoSelfWait t req) :=
  inferInstanceAs (Decidable (_ → _))

/-- The deadlock detector is idle. -/
def DetectorIdle : Event → Prop
  | .markVictim .. => False
  | _ => True

instance (e : Event) : Decidable (DetectorIdle e) :=
  match e with
  | .markVictim .. => isFalse id
  | .begin _ | .lock .. | .resume .. | .wake _ | .leaveAsVictim _ | .call .. | .commit _
  | .abort _ | .releaseByBackup _ | .endBackup | .setBackup _ => isTrue trivial

/-- **The condition for no lost wake-up**: clean releases, and nobody waits for itself. -/
def NoLostWakeup (s : Server) (e : Event) : Prop :=
  DetectorIdle e ∧ s.CleanRelease e ∧
    match e with
    | .lock t req _ => s.NoSelfWait t req
    | .resume t _ =>
      match s.thread t with
      | .resuming p => s.NoSelfWait t p.req
      | _ => True
    | _ => True

/-! ## The invariant -/

/-- Thread `t` is parked in some wait node. -/
def Parked (s : Server) (t : Int) : Prop := ∃ p node woken, s.thread t = .parked p node woken

/-- **The wait list and the parked threads** agree, and every thread waits for another
    transaction. -/
structure Waiting (s : Server) : Prop where
  nodes : (s.headWaitList.map WaitNode.node).Nodup
  fresh : ∀ w ∈ s.headWaitList, w.node < s.nodeBrk
  inodes : (s.headWaitList.map WaitNode.fileInode).Nodup
  unmarked : ∀ w ∈ s.headWaitList, w.txnidAbort = -1
  count : ∀ w ∈ s.headWaitList, ∃ ts : List Int, ts.Nodup ∧ (ts.length : Int) = w.inWait ∧
    ∀ t, t ∈ ts ↔ ∃ p woken, s.thread t = .parked p w.node woken
  noVictim : ∀ t node, s.thread t ≠ .victim node
  parked : ∀ t p node woken, s.thread t = .parked p node woken →
    ∃ w ∈ s.headWaitList, w.node = node ∧ w.fileInode = p.req.inode
  live : ∀ t, s.Parked t → t ∈ s.headTxnList.map TxnNode.txnId
  foreign : ∀ t p node woken, s.thread t = .parked p node woken →
    ∀ a ∈ s.table.allocated, (s.cell a).fileInode = p.req.inode → (s.cell a).parentTxn ≠ t
  holder : ∀ t p node, s.thread t = .parked p node false →
    ∃ a ∈ s.table.allocated, (s.cell a).fileInode = p.req.inode

theorem waiting_globalInit {handles : Nat} : Waiting (globalInit handles) where
  nodes := List.nodup_nil
  fresh := fun w hw => absurd hw (by simp [globalInit])
  inodes := List.nodup_nil
  unmarked := fun w hw => absurd hw (by simp [globalInit])
  count := fun w hw => absurd hw (by simp [globalInit])
  noVictim := fun t node h => by cases h
  parked := fun t p node woken h => by cases h
  live := fun t h => by obtain ⟨_, _, _, h⟩ := h; cases h
  foreign := fun t p node woken h => by cases h
  holder := fun t p node h => by cases h

/-! ## Wait nodes -/

theorem searchWaitList_some {i : Int} {w : WaitNode} (h : s.searchWaitList i = some w) :
    w ∈ s.headWaitList ∧ w.fileInode = i :=
  ⟨List.mem_of_find?_eq_some h, by simpa using List.find?_some h⟩

theorem searchWaitList_none {i : Int} (h : s.searchWaitList i = none) :
    ∀ w ∈ s.headWaitList, w.fileInode ≠ i := fun w hw => by
  simpa using List.find?_eq_none.mp h w hw

/-! ## Steps without parking -/

/-- **Update rule**: the wait list stays, nobody parks or leaves, threads are at most woken,
    and whoever has not been woken still has a foreign record to wait for. -/
theorem Waiting.update (h : Waiting s) (hlist : s'.headWaitList = s.headWaitList)
    (hbrk : s'.nodeBrk = s.nodeBrk)
    (hback : ∀ t p node woken, s'.thread t = .parked p node woken →
      ∃ woken', s.thread t = .parked p node woken' ∧ (woken = false → woken' = false))
    (hforth : ∀ t p node woken, s.thread t = .parked p node woken →
      ∃ woken', s'.thread t = .parked p node woken')
    (hvictim : ∀ t node, s'.thread t ≠ .victim node)
    (hlive : ∀ t, s.Parked t → t ∈ s'.headTxnList.map TxnNode.txnId)
    (hforeign : ∀ t p node woken, s'.thread t = .parked p node woken →
      ∀ a ∈ s'.table.allocated, (s'.cell a).fileInode = p.req.inode → (s'.cell a).parentTxn ≠ t)
    (hholder : ∀ t p node, s'.thread t = .parked p node false →
      ∃ a ∈ s'.table.allocated, (s'.cell a).fileInode = p.req.inode) : Waiting s' where
  nodes := hlist ▸ h.nodes
  fresh := by rw [hlist, hbrk]; exact h.fresh
  inodes := hlist ▸ h.inodes
  unmarked := hlist ▸ h.unmarked
  count := fun w hw => by
    rw [hlist] at hw
    obtain ⟨ts, hnd, hlen, hts⟩ := h.count w hw
    refine ⟨ts, hnd, hlen, fun t => (hts t).trans ⟨?_, ?_⟩⟩
    · rintro ⟨p, woken, ht⟩
      obtain ⟨woken', ht'⟩ := hforth _ _ _ _ ht
      exact ⟨p, woken', ht'⟩
    · rintro ⟨p, woken, ht⟩
      obtain ⟨woken', ht', -⟩ := hback _ _ _ _ ht
      exact ⟨p, woken', ht'⟩
  noVictim := hvictim
  parked := fun t p node woken ht => by
    obtain ⟨woken', ht', -⟩ := hback _ _ _ _ ht
    rw [hlist]
    exact h.parked _ _ _ _ ht'
  live := fun t ⟨p, node, woken, ht⟩ => by
    obtain ⟨woken', ht', -⟩ := hback _ _ _ _ ht
    exact hlive t ⟨p, node, woken', ht'⟩
  foreign := hforeign
  holder := hholder

/-- The thread of `t` goes to a state outside the wait list; other transactions may see new
    records of `t`. -/
theorem Waiting.updateThread {st : ThreadState} (h : Waiting s) (ht : ¬ s.Parked t)
    (hst : st = .running ∨ (∃ p, st = .resuming p) ∨ st = .aborting)
    (hthread : s'.thread = Function.update s.thread t st)
    (hlist : s'.headWaitList = s.headWaitList) (hbrk : s'.nodeBrk = s.nodeBrk)
    (hlive : ∀ u, s.Parked u → u ∈ s'.headTxnList.map TxnNode.txnId)
    (hnew : ∀ a ∈ s'.table.allocated, (s'.cell a).parentTxn = t ∨
      (a ∈ s.table.allocated ∧ (s'.cell a).fileInode = (s.cell a).fileInode ∧
        (s'.cell a).parentTxn = (s.cell a).parentTxn))
    (hold : ∀ a ∈ s.table.allocated, a ∈ s'.table.allocated ∧
      (s'.cell a).fileInode = (s.cell a).fileInode) : Waiting s' := by
  have hstate : ∀ u p node woken, s'.thread u = .parked p node woken →
      u ≠ t ∧ s.thread u = .parked p node woken := fun u p node woken hu => by
    rw [hthread] at hu
    by_cases hut : u = t
    · subst hut
      rw [Function.update_self] at hu
      rcases hst with rfl | ⟨_, rfl⟩ | rfl <;> cases hu
    · rw [Function.update_of_ne hut] at hu
      exact ⟨hut, hu⟩
  refine h.update hlist hbrk (fun u p node woken hu => ⟨woken, (hstate _ _ _ _ hu).2, id⟩)
    (fun u p node woken hu => ⟨woken, ?_⟩) (fun u node hu => ?_) hlive ?_ ?_
  · have hut : u ≠ t := fun hut => ht (hut ▸ ⟨p, node, woken, hu⟩)
    rw [hthread, Function.update_of_ne hut]
    exact hu
  · rw [hthread] at hu
    by_cases hut : u = t
    · subst hut
      rw [Function.update_self] at hu
      rcases hst with rfl | ⟨_, rfl⟩ | rfl <;> cases hu
    · rw [Function.update_of_ne hut] at hu
      exact h.noVictim _ _ hu
  · intro u p node woken hu a ha hinode
    obtain ⟨hut, hu⟩ := hstate _ _ _ _ hu
    rcases hnew a ha with hat | ⟨ha', hi, hpar⟩
    · rw [hat]
      exact Ne.symm hut
    · rw [hpar]
      exact h.foreign _ _ _ _ hu a ha' (hi ▸ hinode)
  · intro u p node hu
    obtain ⟨a, ha, hinode⟩ := h.holder _ _ _ (hstate _ _ _ _ hu).2
    exact ⟨a, (hold a ha).1, (hold a ha).2.trans hinode⟩

/-! ## Parking -/

/-- **A thread parks** on the node `n`: the wait list is in order without it, and the counter
    of the node is one higher. -/
theorem Waiting.park {n : Nat} (h : Waiting s) (ht : ¬ s.Parked t)
    (hthread : s'.thread = Function.update s.thread t (.parked p n false))
    (hnodes : (s'.headWaitList.map WaitNode.node).Nodup)
    (hfresh : ∀ w ∈ s'.headWaitList, w.node < s'.nodeBrk)
    (hinodes : (s'.headWaitList.map WaitNode.fileInode).Nodup)
    (hunmarked : ∀ w ∈ s'.headWaitList, w.txnidAbort = -1)
    (hcount : ∀ w ∈ s'.headWaitList, ∃ ts : List Int, ts.Nodup ∧
      (ts.length : Int) = (if w.node = n then w.inWait - 1 else w.inWait) ∧
      ∀ u, u ∈ ts ↔ ∃ q k, s.thread u = .parked q w.node k)
    (hkeep : ∀ w ∈ s.headWaitList, ∃ w' ∈ s'.headWaitList, w'.node = w.node ∧
      w'.fileInode = w.fileInode)
    (hnode : ∃ w ∈ s'.headWaitList, w.node = n ∧ w.fileInode = p.req.inode)
    (htable : s'.table = s.table)
    (hids : s'.headTxnList.map TxnNode.txnId = s.headTxnList.map TxnNode.txnId)
    (hlive : t ∈ s.headTxnList.map TxnNode.txnId)
    (hown : ∀ a ∈ s.table.allocated, (s.cell a).fileInode = p.req.inode → (s.cell a).parentTxn ≠ t)
    (hloc : ∃ a ∈ s.table.allocated, (s.cell a).fileInode = p.req.inode) : Waiting s' := by
  have hother : ∀ u, u ≠ t → s'.thread u = s.thread u := fun u hu => by
    rw [hthread, Function.update_of_ne hu]
  have hself : s'.thread t = .parked p n false := by rw [hthread, Function.update_self]
  exact {
    nodes := hnodes
    fresh := hfresh
    inodes := hinodes
    unmarked := hunmarked
    count := fun w hw => by
      obtain ⟨ts, hnd, hlen, hts⟩ := hcount w hw
      -- `t` was parked nowhere, so it is not among the threads counted before
      have htnot : t ∉ ts := fun hmem => by
        obtain ⟨q, k, hq⟩ := (hts t).mp hmem
        exact ht ⟨q, w.node, k, hq⟩
      by_cases hwn : w.node = n
      · -- the node on which `t` parks
        refine ⟨t :: ts, List.nodup_cons.mpr ⟨htnot, hnd⟩, ?_, fun u => ?_⟩
        · rw [if_pos hwn] at hlen
          rw [List.length_cons]
          omega
        · rw [List.mem_cons]
          by_cases hut : u = t
          · subst hut
            exact ⟨fun _ => ⟨p, false, hwn ▸ hself⟩, fun _ => .inl rfl⟩
          · rw [hother u hut, ← hts u]
            simp [hut]
      · -- the threads of another node are the ones it had
        rw [if_neg hwn] at hlen
        refine ⟨ts, hnd, hlen, fun u => ?_⟩
        by_cases hut : u = t
        · subst hut
          rw [hself]
          constructor
          · exact fun hmem => absurd hmem htnot
          · rintro ⟨q, k, hu⟩
            simp only [ThreadState.parked.injEq] at hu
            exact absurd hu.2.1.symm hwn
        · rw [hother u hut]
          exact hts u
    -- a parked thread is no victim; the others are as they were
    noVictim := fun u node hu => by
      by_cases hut : u = t
      · subst hut
        rw [hself] at hu
        cases hu
      · rw [hother u hut] at hu
        exact h.noVictim _ _ hu
    -- the node of `t` is given, the other nodes are kept
    parked := fun u q node woken hu => by
      by_cases hut : u = t
      · subst hut
        rw [hself] at hu
        cases hu
        exact hnode
      · rw [hother u hut] at hu
        obtain ⟨w, hw, hwn, hwi⟩ := h.parked _ _ _ _ hu
        obtain ⟨w', hw', hwn', hwi'⟩ := hkeep w hw
        exact ⟨w', hw', hwn'.trans hwn, hwi'.trans hwi⟩
    live := fun u ⟨q, node, woken, hu⟩ => by
      rw [hids]
      by_cases hut : u = t
      · exact hut ▸ hlive
      · rw [hother u hut] at hu
        exact h.live u ⟨q, node, woken, hu⟩
    foreign := fun u q node woken hu a => by
      rw [Server.cell, htable]
      by_cases hut : u = t
      · subst hut
        rw [hself] at hu
        cases hu
        exact hown a
      · rw [hother u hut] at hu
        exact h.foreign _ _ _ _ hu a
    holder := fun u q node hu => by
      simp only [Server.cell, htable]
      by_cases hut : u = t
      · subst hut
        rw [hself] at hu
        cases hu
        exact hloc
      · rw [hother u hut] at hu
        exact h.holder _ _ _ hu }

/-- The first one to wait on a file makes the node. -/
theorem Waiting.parkNew (h : Waiting s) (ht : ¬ s.Parked t)
    (hwait : s.searchWaitList p.req.inode = none) {w : WaitNode}
    (hw : w = ⟨s.nodeBrk, p.req.inode, 1, -1, 0⟩)
    (hlist : s'.headWaitList = insertWaitNode w s.headWaitList) (hbrk : s'.nodeBrk = s.nodeBrk + 1)
    (hthread : s'.thread = Function.update s.thread t (.parked p s.nodeBrk false))
    (htable : s'.table = s.table)
    (hids : s'.headTxnList.map TxnNode.txnId = s.headTxnList.map TxnNode.txnId)
    (hlive : t ∈ s.headTxnList.map TxnNode.txnId)
    (hown : ∀ a ∈ s.table.allocated, (s.cell a).fileInode = p.req.inode → (s.cell a).parentTxn ≠ t)
    (hloc : ∃ a ∈ s.table.allocated, (s.cell a).fileInode = p.req.inode) : Waiting s' := by
  have hperm := insertWaitNode_perm w s.headWaitList
  rw [← hlist] at hperm
  have hmem : ∀ v, v ∈ s'.headWaitList ↔ v = w ∨ v ∈ s.headWaitList := fun v => by
    rw [hperm.mem_iff, List.mem_cons]
  have hnode : w.node = s.nodeBrk := by rw [hw]
  refine h.park ht hthread ?_ ?_ ?_ ?_ ?_ (fun v hv => ⟨v, (hmem v).mpr (.inr hv), rfl, rfl⟩)
    ⟨w, (hmem w).mpr (.inl rfl), hnode, by rw [hw]⟩ htable hids hlive hown hloc
  · refine (hperm.map WaitNode.node).nodup_iff.mpr (List.nodup_cons.mpr ⟨fun hmem => ?_, h.nodes⟩)
    obtain ⟨v, hv, hvn⟩ := List.mem_map.mp hmem
    exact absurd (hvn.trans hnode) (Nat.ne_of_lt (h.fresh v hv))
  · intro v hv
    rw [hbrk]
    rcases (hmem v).mp hv with rfl | hv
    · exact hnode ▸ Nat.lt_succ_self _
    · exact Nat.lt_succ_of_lt (h.fresh v hv)
  · refine (hperm.map WaitNode.fileInode).nodup_iff.mpr
      (List.nodup_cons.mpr ⟨fun hmem => ?_, h.inodes⟩)
    obtain ⟨v, hv, hvi⟩ := List.mem_map.mp hmem
    exact searchWaitList_none hwait v hv (hvi.trans (by rw [hw]))
  · intro v hv
    rcases (hmem v).mp hv with rfl | hv
    · rw [hw]
    · exact h.unmarked v hv
  · intro v hv
    rcases (hmem v).mp hv with rfl | hv
    · -- nobody is parked on a node that did not exist
      refine ⟨[], List.nodup_nil, by rw [if_pos hnode, hw]; rfl, fun u => ?_⟩
      refine iff_of_false List.not_mem_nil ?_
      rintro ⟨q, k, hu⟩
      obtain ⟨x, hx, hxn, -⟩ := h.parked _ _ _ _ hu
      exact absurd (hxn.trans hnode) (Nat.ne_of_lt (h.fresh x hx))
    · rw [if_neg (Nat.ne_of_lt (h.fresh v hv))]
      exact h.count v hv

/-- A change of the counters leaves the keys of the nodes. -/
theorem map_counters {ws : List WaitNode} {k : WaitNode → Int} :
    (ws.map fun w => if w.node = node then { w with inWait := k w } else w).map WaitNode.node =
        ws.map WaitNode.node ∧
      (ws.map fun w => if w.node = node then { w with inWait := k w } else w).map
        WaitNode.fileInode = ws.map WaitNode.fileInode := by
  simp only [List.map_map]
  constructor
  · refine List.map_congr_left fun w _ => ?_
    simp only [Function.comp_apply]
    split <;> rfl
  · refine List.map_congr_left fun w _ => ?_
    simp only [Function.comp_apply]
    split <;> rfl

/-- One more waits on an existing node. -/
theorem Waiting.parkOld (h : Waiting s) (ht : ¬ s.Parked t) {w : WaitNode}
    (hwait : s.searchWaitList p.req.inode = some w)
    (hlist : s'.headWaitList = s.headWaitList.map fun v =>
      if v.node = w.node then { v with inWait := v.inWait + 1 } else v)
    (hbrk : s'.nodeBrk = s.nodeBrk)
    (hthread : s'.thread = Function.update s.thread t (.parked p w.node false))
    (htable : s'.table = s.table)
    (hids : s'.headTxnList.map TxnNode.txnId = s.headTxnList.map TxnNode.txnId)
    (hlive : t ∈ s.headTxnList.map TxnNode.txnId)
    (hown : ∀ a ∈ s.table.allocated, (s.cell a).fileInode = p.req.inode → (s.cell a).parentTxn ≠ t)
    (hloc : ∃ a ∈ s.table.allocated, (s.cell a).fileInode = p.req.inode) : Waiting s' := by
  obtain ⟨hw, hwi⟩ := searchWaitList_some hwait
  have hmem : ∀ v', v' ∈ s'.headWaitList → ∃ v ∈ s.headWaitList, v'.node = v.node ∧
      v'.txnidAbort = v.txnidAbort ∧
      v'.inWait = if v.node = w.node then v.inWait + 1 else v.inWait := fun v' hv' => by
    rw [hlist] at hv'
    obtain ⟨v, hv, rfl⟩ := List.mem_map.mp hv'
    refine ⟨v, hv, ?_⟩
    split <;> exact ⟨rfl, rfl, rfl⟩
  have hkeep : ∀ v ∈ s.headWaitList, ∃ v' ∈ s'.headWaitList, v'.node = v.node ∧
      v'.fileInode = v.fileInode := fun v hv => by
    rw [hlist]
    refine ⟨_, List.mem_map_of_mem hv, ?_⟩
    split <;> exact ⟨rfl, rfl⟩
  have hnode : ∃ v ∈ s'.headWaitList, v.node = w.node ∧ v.fileInode = p.req.inode := by
    obtain ⟨v, hv, hvn, hvi⟩ := hkeep w hw
    exact ⟨v, hv, hvn, hvi.trans hwi⟩
  refine h.park ht hthread ?_ ?_ ?_ ?_ ?_ hkeep hnode htable hids hlive hown hloc
  · rw [hlist, map_counters.1]
    exact h.nodes
  · intro v' hv'
    obtain ⟨v, hv, hvn, -⟩ := hmem v' hv'
    rw [hbrk, hvn]
    exact h.fresh v hv
  · rw [hlist, map_counters.2]
    exact h.inodes
  · intro v' hv'
    obtain ⟨v, hv, -, hva, -⟩ := hmem v' hv'
    exact hva.trans (h.unmarked v hv)
  · intro v' hv'
    obtain ⟨v, hv, hvn, -, hcount⟩ := hmem v' hv'
    obtain ⟨ts, hnd, hlen, hts⟩ := h.count v hv
    refine ⟨ts, hnd, ?_, hvn ▸ hts⟩
    rw [hvn, hcount]
    split <;> omega

/-! ## Leaving -/

/-- **A waiter leaves**: with no deadlock victim it goes back to `resume`, and the last one
    frees the node. -/
theorem Waiting.leave (h : Waiting s) (ht : s.thread t = .parked p node woken)
    (hwake : s.afterCondWait t p node = some s') : Waiting s' := by
  simp only [afterCondWait, Option.bind_eq_bind, Option.bind_eq_some_iff] at hwake
  obtain ⟨w, hfind, hwake⟩ := hwake
  have hw : w ∈ s.headWaitList := List.mem_of_find?_eq_some hfind
  have hwn : w.node = node := by simpa using List.find?_some hfind
  have hunmarked := h.unmarked w hw
  -- the node is unmarked, so the thread resumes
  rw [if_neg (by simp [hunmarked]), if_pos hunmarked, Option.some.injEq] at hwake
  have hlist : s'.headWaitList = (s.headWaitList.map fun v =>
      if v.node = node then { v with inWait := v.inWait - 1 } else v).filter
        fun v => ¬ (v.node = node ∧ v.inWait = 0) := by rw [← hwake]; rfl
  have hthread : s'.thread = Function.update s.thread t (.resuming p) := by rw [← hwake]; rfl
  have hids : s'.headTxnList.map TxnNode.txnId = s.headTxnList.map TxnNode.txnId := by
    rw [← hwake]
    exact map_txnId_updateTxn fun _ => rfl
  have htable : s'.table = s.table := by rw [← hwake]; rfl
  have hbrk : s'.nodeBrk = s.nodeBrk := by rw [← hwake]; rfl
  clear hwake
  -- a thread that is parked now was parked before, and it is not `t`
  have hother : ∀ u q n k, s'.thread u = .parked q n k → u ≠ t ∧ s.thread u = .parked q n k :=
    fun u q n k hu => by
      rw [hthread] at hu
      by_cases hut : u = t
      · subst hut
        rw [Function.update_self] at hu
        cases hu
      · rw [Function.update_of_ne hut] at hu
        exact ⟨hut, hu⟩
  -- a node that is left is an old one, its counter one less if `t` slept on it
  have hmem : ∀ v', v' ∈ s'.headWaitList → ∃ v ∈ s.headWaitList, v'.node = v.node ∧
      v'.fileInode = v.fileInode ∧ v'.txnidAbort = v.txnidAbort ∧
      v'.inWait = if v.node = node then v.inWait - 1 else v.inWait := fun v' hv' => by
    rw [hlist] at hv'
    obtain ⟨v, hv, rfl⟩ := List.mem_map.mp (List.mem_filter.mp hv').1
    refine ⟨v, hv, ?_⟩
    split <;> exact ⟨rfl, rfl, rfl, rfl⟩
  -- a node with another parked thread stays
  have hkeep : ∀ u q n k, s'.thread u = .parked q n k → ∀ v ∈ s.headWaitList, v.node = n →
      ∃ v' ∈ s'.headWaitList, v'.node = v.node ∧ v'.fileInode = v.fileInode := by
    intro u q n k hu v hv hvn
    obtain ⟨hut, hu⟩ := hother _ _ _ _ hu
    rw [hlist]
    by_cases hnode : v.node = node
    · refine ⟨{ v with inWait := v.inWait - 1 }, List.mem_filter.mpr ⟨?_, ?_⟩, rfl, rfl⟩
      · exact List.mem_map.mpr ⟨v, hv, if_pos hnode⟩
      · obtain ⟨ts, hnd, hlen, hts⟩ := h.count v hv
        have htu : [t, u].Subperm ts := by
          refine List.Nodup.subperm (by simpa using Ne.symm hut) fun x hx => ?_
          rcases List.mem_pair.mp hx with rfl | rfl
          · exact (hts x).mpr ⟨p, woken, hnode ▸ ht⟩
          · exact (hts x).mpr ⟨q, k, hvn ▸ hu⟩
        -- `t` and `u` are two threads, so the counter does not reach 0
        have htwo : 2 ≤ ts.length := htu.length_le
        have hpos : ¬ v.inWait - 1 = 0 := by omega
        simp [hpos]
    · refine ⟨v, List.mem_filter.mpr ⟨List.mem_map.mpr ⟨v, hv, if_neg hnode⟩, ?_⟩, rfl, rfl⟩
      simp [hnode]
  exact {
    nodes := by
      rw [hlist]
      refine List.Nodup.sublist ((List.filter_sublist).map _) ?_
      rw [map_counters.1]
      exact h.nodes
    fresh := fun v' hv' => by
      obtain ⟨v, hv, hvn, -⟩ := hmem v' hv'
      rw [hbrk, hvn]
      exact h.fresh v hv
    inodes := by
      rw [hlist]
      refine List.Nodup.sublist ((List.filter_sublist).map _) ?_
      rw [map_counters.2]
      exact h.inodes
    unmarked := fun v' hv' => by
      obtain ⟨v, hv, -, -, hva, -⟩ := hmem v' hv'
      exact hva.trans (h.unmarked v hv)
    count := fun v' hv' => by
      obtain ⟨v, hv, hvn, -, -, hcount⟩ := hmem v' hv'
      obtain ⟨ts, hnd, hlen, hts⟩ := h.count v hv
      rw [hvn, hcount]
      have hiff : ∀ u, u ≠ t → ((∃ q k, s'.thread u = .parked q v.node k) ↔ u ∈ ts) := fun u hu => by
        rw [hthread, Function.update_of_ne hu]
        exact (hts u).symm
      have hgone : ¬ ∃ q k, s'.thread t = .parked q v.node k := by
        rintro ⟨q, k, hq⟩
        exact (hother _ _ _ _ hq).1 rfl
      by_cases hnode : v.node = node
      · -- the node of `t`: its threads are the old ones without `t`
        have htin : t ∈ ts := (hts t).mpr ⟨p, woken, hnode ▸ ht⟩
        refine ⟨ts.erase t, hnd.erase t, ?_, fun u => ?_⟩
        · have hpos := List.length_pos_of_mem htin
          rw [if_pos hnode, List.length_erase_of_mem htin]
          omega
        · rw [hnd.mem_erase_iff]
          by_cases hut : u = t
          · subst hut
            exact ⟨fun hmem => absurd rfl hmem.1, fun hq => absurd hq hgone⟩
          · rw [hiff u hut]
            simp [hut]
      · -- another node: `t` was not among its threads
        refine ⟨ts, hnd, by rw [if_neg hnode, hlen], fun u => ?_⟩
        by_cases hut : u = t
        · subst hut
          refine ⟨fun hmem => ?_, fun hq => absurd hq hgone⟩
          obtain ⟨q, k, hq⟩ := (hts u).mp hmem
          rw [ht] at hq
          simp only [ThreadState.parked.injEq] at hq
          exact absurd hq.2.1.symm hnode
        · exact (hiff u hut).symm
    noVictim := fun u n hu => by
      rw [hthread] at hu
      by_cases hut : u = t
      · subst hut
        rw [Function.update_self] at hu
        cases hu
      · rw [Function.update_of_ne hut] at hu
        exact h.noVictim _ _ hu
    parked := fun u q n k hu => by
      obtain ⟨v, hv, hvn, hvi⟩ := h.parked _ _ _ _ (hother _ _ _ _ hu).2
      obtain ⟨v', hv', hvn', hvi'⟩ := hkeep _ _ _ _ hu v hv hvn
      exact ⟨v', hv', hvn'.trans hvn, hvi'.trans hvi⟩
    live := fun u hparked => by
      obtain ⟨q, n, k, hu⟩ := hparked
      rw [hids]
      exact h.live u ⟨q, n, k, (hother _ _ _ _ hu).2⟩
    foreign := fun u q n k hu a => by
      rw [Server.cell, htable]
      exact h.foreign _ _ _ _ (hother _ _ _ _ hu).2 a
    holder := fun u q n hu => by
      simp only [Server.cell, htable]
      exact h.holder _ _ _ (hother _ _ _ _ hu).2 }

/-! ## Requests -/

/-- A grant: the new record is `t`'s own, the others are as before. -/
theorem GrantedIn.records {readBit : Int} {table : LockTable} {c : FileLock}
    (hgrant : GrantedIn s t readBit table s₁) (hins : s.table.Inserted table c)
    (hparent : c.parentTxn = t) (hs : Owned s.table s.headTxnList) :
    (∀ a ∈ s₁.table.allocated, (s₁.cell a).parentTxn = t ∨
      (a ∈ s.table.allocated ∧ (s₁.cell a).fileInode = (s.cell a).fileInode ∧
        (s₁.cell a).parentTxn = (s.cell a).parentTxn)) ∧
      ∀ a ∈ s.table.allocated, a ∈ s₁.table.allocated ∧
        (s₁.cell a).fileInode = (s.cell a).fileInode := by
  obtain ⟨table', _, _, _, rfl, -, halloc, -, -, hcells⟩ := hgrant.frame
  have hfields : ∀ a, (table'.cells a).fileInode = (table.cells a).fileInode ∧
      (table'.cells a).parentTxn = (table.cells a).parentTxn := fun a => by
    obtain ⟨_, ha⟩ := hcells a
    simp [ha]
  have hold : ∀ a ∈ s.table.allocated, (table'.cells a).fileInode = (s.cell a).fileInode ∧
      (table'.cells a).parentTxn = (s.cell a).parentTxn := fun a ha => by
    have hne : a ≠ s.table.brk := fun h => hs.brk_notMem (h ▸ ha)
    have hcontent := FileLock.content_fields (hins.content a hne)
    rw [(hfields a).1, (hfields a).2]
    exact ⟨hcontent.1, hcontent.2.2.2.2.1⟩
  have hmem : ∀ a, a ∈ table'.allocated ↔ a = s.table.brk ∨ a ∈ s.table.allocated := fun a => by
    rw [halloc, hins.allocated, List.mem_cons]
  refine ⟨fun a ha => ?_, fun a ha => ⟨(hmem a).mpr (.inr ha), (hold a ha).1⟩⟩
  rcases (hmem a).mp ha with rfl | ha
  · left
    exact (hfields _).2.trans ((FileLock.content_fields hins.new).2.2.2.2.1.trans hparent)
  · exact .inr ⟨ha, hold a ha⟩

/-- The file a request has to wait for is locked by somebody else. -/
theorem mustWait_of_conflict {req : LockRequest} {l : Addr}
    (hsearch : s.table.searchFileList req.inode = some (true, some l))
    (hown : (s.cell l).parentTxn ≠ t)
    (hconflict : (s.cell l).fileMode = 1 ∨ req.flags ≠ 0 ∨
      (s.searchWaitList req.inode ≠ none ∧ findFrom (fun b => (s.cell b).nextSharedRec)
        (fun b => (s.cell b).parentTxn = 0) (s.table.brk + 1) (some l) = some none)) :
    s.MustWait t req := by
  rw [MustWait, hsearch]
  exact ⟨hown, hconflict⟩

/-- A request that is not queued leaves the wait list and the threads, and adds at most a
    record of its own. -/
theorem RequestSpec.records {i fl readBit : Int} {found : Bool} {loc : Option Addr} {out : Outcome}
    (hspec : RequestSpec s i fl t readBit loc found s₁ out) (hs : Owned s.table s.headTxnList)
    (hout : ∀ node, out ≠ .blocked node) :
    (s₁.thread = s.thread ∧ s₁.headWaitList = s.headWaitList ∧ s₁.nodeBrk = s.nodeBrk ∧
      s₁.headTxnList.map TxnNode.txnId = s.headTxnList.map TxnNode.txnId) ∧
    (∀ a ∈ s₁.table.allocated, (s₁.cell a).parentTxn = t ∨
      (a ∈ s.table.allocated ∧ (s₁.cell a).fileInode = (s.cell a).fileInode ∧
        (s₁.cell a).parentTxn = (s.cell a).parentTxn)) ∧
    ∀ a ∈ s.table.allocated, a ∈ s₁.table.allocated ∧
      (s₁.cell a).fileInode = (s.cell a).fileInode := by
  cases hspec with
  | held hloc hown =>
    exact ⟨⟨rfl, rfl, rfl, rfl⟩, fun a ha => .inr ⟨ha, rfl, rfl⟩, fun a ha => ⟨ha, rfl⟩⟩
  | unlocked hadm hgrant =>
    refine ⟨?_, hgrant.records LockTable.insertUnlocked_inserted rfl hs⟩
    obtain ⟨_, ns, _, _, rfl, hids, -⟩ := hgrant.frame
    exact ⟨rfl, rfl, rfl, hids⟩
  | shared hloc hown hmode hfl hadm htable hgrant =>
    refine ⟨?_, hgrant.records (LockTable.insertShared_inserted htable) rfl hs⟩
    obtain ⟨_, ns, _, _, rfl, hids, -⟩ := hgrant.frame
    exact ⟨rfl, rfl, rfl, hids⟩
  | newNode => exact absurd rfl (hout _)
  | oldNode => exact absurd rfl (hout _)
  | refused hs' hout =>
    obtain ⟨_, _, _, rfl, hns⟩ := hs'
    exact ⟨⟨rfl, rfl, rfl, hns.ids⟩, fun a ha => .inr ⟨ha, rfl, rfl⟩, fun a ha => ⟨ha, rfl⟩⟩

/-- The search of a request finds a record of its file. -/
theorem Consistent.found_record {i : Int} {l : Addr} (hs : Consistent s)
    (hsearch : s.table.searchFileList i = some (true, some l)) :
    l ∈ s.table.allocated ∧ (s.cell l).fileInode = i := by
  obtain ⟨xs, hxs⟩ := hs.linked
  obtain ⟨found, loc, hsearch', hsp⟩ := hxs.searchFileList i
  rw [hsearch, Option.some.injEq, Prod.mk.injEq] at hsearch'
  obtain ⟨rfl, rfl⟩ := hsearch'
  cases hsp with
  | found hmem hinode => exact ⟨hxs.mem_iff.mp hmem, hinode⟩

/-- **A request keeps the wait list in order**, whatever its outcome. -/
theorem requestLock_waiting {req : LockRequest} {first : Option (Option Addr)} {readBit : Int}
    (hs : Consistent s) (h : Waiting s) (ht : ¬ s.Parked t) (hself : s.NoSelfWait t req)
    (hreq : s.requestLock t req first readBit = some s') : Waiting s' := by
  have hlive := requestLock_live hreq
  obtain ⟨found, loc, s₁, out, hsearch, hspec, hend⟩ := requestLock_cases hreq
  have hfound : ∀ l, found = true → loc = some l →
      ∃ a ∈ s.table.allocated, (s.cell a).fileInode = req.inode := by
    rintro l rfl rfl
    exact ⟨l, hs.found_record hsearch⟩
  -- a request that is not queued
  have hrest : (∀ node, out ≠ .blocked node) → ∀ s' : Server, s₁.table.SameLinks s'.table →
      s'.headWaitList = s₁.headWaitList → s'.nodeBrk = s₁.nodeBrk →
      s'.headTxnList = s₁.headTxnList → ∀ st, s'.thread = Function.update s₁.thread t st →
      (st = .running ∨ (∃ p, st = .resuming p) ∨ st = .aborting) → Waiting s' := by
    intro hout s' hlinks hlist hbrk hns st hthread hst
    obtain ⟨⟨hthread₁, hlist₁, hbrk₁, hids₁⟩, hnew, hold⟩ := hspec.records hs.owned hout
    refine h.updateThread ht hst (hthread₁ ▸ hthread) (hlist.trans hlist₁) (hbrk.trans hbrk₁)
      (fun u hu => ?_) (fun a ha => ?_) fun a ha => ?_
    · rw [hns, hids₁]
      exact h.live u hu
    · rw [hlinks.allocated] at ha
      have hi : (s'.cell a).fileInode = (s₁.cell a).fileInode := hlinks.inode a
      have hp : (s'.cell a).parentTxn = (s₁.cell a).parentTxn := hlinks.parentTxn a
      rw [hi, hp]
      exact hnew a ha
    · have hi : (s'.cell a).fileInode = (s₁.cell a).fileInode := hlinks.inode a
      rw [hlinks.allocated, hi]
      exact hold a ha
  rcases hend with ⟨a, hout, rfl⟩ | ⟨node, hout, rfl⟩ | ⟨hout, rfl⟩ | ⟨hout, rfl⟩
  · obtain ⟨table, handles, st, heq, hlinks, hst⟩ := s₁.afterLock_spec t req.use (first.getD loc) a
    rw [heq]
    refine hrest (fun node hblocked => ?_) _ hlinks rfl rfl rfl st rfl (hst.imp_right .inr)
    rcases hout with hout | hout <;> exact absurd (hout.symm.trans hblocked) (by simp)
  · subst hout
    cases hspec with
    | @newNode l hloc hown hconflict hwait =>
      subst hloc
      have hmust := mustWait_of_conflict hsearch hown
        (hconflict.imp_right .inl)
      exact h.parkNew (p := ⟨req, first.getD (some l)⟩) ht hwait rfl rfl rfl rfl rfl
        (map_txnId_updateTxn fun _ => rfl) hlive (hself hmust) (hfound l rfl rfl)
    | @oldNode l w hloc hown hconflict hwait =>
      subst hloc
      have hmust := mustWait_of_conflict hsearch hown
        (hconflict.imp_right (Or.imp_right fun hfind => ⟨by simp [hwait], hfind⟩))
      exact h.parkOld (p := ⟨req, first.getD (some l)⟩) ht hwait rfl rfl rfl rfl
        (map_txnId_updateTxn fun _ => rfl) hlive (hself hmust) (hfound l rfl rfl)
    | refused hs' hout => rcases hout with hout | hout <;> cases hout
  · exact hrest (by simp [hout]) _ (.refl _) rfl rfl rfl _ rfl (.inr (.inl ⟨_, rfl⟩))
  · exact hrest (by simp [hout]) _ (.refl _) rfl rfl rfl _ rfl (.inr (.inr rfl))

/-! ## Releases -/

/-- **The last record wakes the file's waiters**: whoever still sleeps behind a release has a
    record to wait for, if there was one. -/
theorem Frees.sleeping {close : Bool → Int → Option Act} {l : List Addr} {acts : List Act}
    (hfree : Frees close s t l a s' acts) (hs : Consistent s)
    (hinodes : (s.headWaitList.map WaitNode.fileInode).Nodup) {u : Int} {q : Pending}
    (hu : s'.thread u = .parked q node false)
    (hnode : ∃ w ∈ s.headWaitList, w.node = node ∧ w.fileInode = q.req.inode)
    (hrec : ∃ b ∈ s.table.allocated, (s.cell b).fileInode = q.req.inode) :
    ∃ b ∈ s'.table.allocated, (s'.cell b).fileInode = q.req.inode := by
  have hframe := hfree.frame hs.owned
  obtain ⟨xs, hxs⟩ := hs.linked
  have ha := hxs.mem_iff.mpr hfree.mem.1
  obtain ⟨w, hw, hwn, hwi⟩ := hnode
  -- a record that is not freed stays
  have hkept : ∀ b ∈ s.table.allocated, b ≠ a → (s.cell b).fileInode = q.req.inode →
      ∃ b ∈ s'.table.allocated, (s'.cell b).fileInode = q.req.inode := fun b hb hba hinode =>
    ⟨b, (hframe.mem b).mpr ⟨hba, hb⟩, (hframe.fields b hba).1.trans hinode⟩
  obtain ⟨b, hb, hinode⟩ := hrec
  by_cases hba : b = a
  swap
  · exact hkept b hb hba hinode
  subst hba
  obtain ⟨n, r, -, -, hrel⟩ := hfree
  obtain ⟨table₁, ns, hunlink, halloc, hbrk, hhead, hcells, -⟩ :=
    s.unlinkTxnList_frame t l.getLast? b
  rw [hunlink] at hrel
  have hcell : (table₁.cells b).fileInode = (s.cell b).fileInode ∧
      (table₁.cells b).nextSharedRec = (s.table.cells b).nextSharedRec ∧
      (table₁.cells b).prevSharedRec = (s.table.cells b).prevSharedRec := by
    simp [hcells b, cell]
  cases hrel with
  | quiet hwait htable =>
    -- nobody waits for this inode
    exact absurd (hwi.trans (hinode.symm.trans hcell.1.symm)) (searchWaitList_none hwait w hw)
  | unlinked hwait hmode hlinks htable =>
    -- the file has another record
    by_contra hnone
    refine hlinks ?_
    change (table₁.cells b).nextSharedRec = none ∧ (table₁.cells b).prevSharedRec = none
    rw [hcell.2.1, hcell.2.2]
    refine (hxs.alone_iff ha).mpr fun c hc hsame => ?_
    by_contra hcb
    exact hnone (hkept c (hxs.mem_iff.mp hc) hcb (Eq.trans hsame hinode))
  | @woken table v hwait hlast htable =>
    -- the last record: everyone on the node is woken
    exfalso
    obtain ⟨hv, hvi⟩ := searchWaitList_some hwait
    have hwv : w = v := List.inj_on_of_nodup_map hinodes hw hv
      (hwi.trans (hinode.symm.trans (hcell.1.symm.trans hvi.symm)))
    exact ne_of_wakeUp hu (by rw [← hwn, hwv])

/-- What a release does to the threads: nobody parks or leaves, and when the last record of
    a file goes, everyone who waits for it is woken. -/
theorem Frees.waiting {close : Bool → Int → Option Act} {l : List Addr} {acts : List Act}
    (hfree : Frees close s t l a s' acts) (hs : Consistent s) (h : Waiting s) : Waiting s' := by
  have hframe := hfree.frame hs.owned
  refine h.update hframe.rest.1 hframe.rest.2.1 (fun u q node woken hu => ?_)
    (fun u q node woken hu => ThreadState.parked_of_asleep (hfree.thread u).symm hu)
    (fun u node hu => ?_) (fun u hu => by rw [hframe.ids]; exact h.live u hu)
    (fun u q node woken hu b hb hinode => ?_) fun u q node hu => ?_
  · obtain ⟨woken', hu'⟩ := ThreadState.parked_of_asleep (hfree.thread u) hu
    refine ⟨woken', hu', ?_⟩
    rintro rfl
    have hslept := (hfree.wokenFrom u).slept hu
    rw [hu'] at hslept
    cases hslept
    rfl
  · have hasleep := hfree.thread u
    rw [hu] at hasleep
    cases hst : s.thread u <;> rw [hst] at hasleep <;> cases hasleep
    exact h.noVictim u _ hst
  · obtain ⟨woken', hu'⟩ := ThreadState.parked_of_asleep (hfree.thread u) hu
    obtain ⟨hba, hb'⟩ := (hframe.mem b).mp hb
    obtain ⟨hi, -, -, -, hp, -⟩ := hframe.fields b hba
    rw [hp]
    exact h.foreign _ _ _ _ hu' b hb' (hi ▸ hinode)
  · have hslept := (hfree.wokenFrom u).slept hu
    exact hfree.sleeping hs h.inodes hu (h.parked _ _ _ _ hslept) (h.holder _ _ _ hslept)

/-- The end of a transaction that is not parked. -/
theorem Waiting.endTxn {records : Int} (h : Waiting s) (ht : ¬ s.Parked t)
    (hend : s.endTxn t records = some s') : Waiting s' := by
  obtain ⟨ns, hns, rfl⟩ := Server.endTxn_spec hend
  refine h.updateThread ht (.inl rfl) rfl rfl rfl (fun u hu => ?_)
    (fun a ha => .inr ⟨ha, rfl, rfl⟩) fun a ha => ⟨ha, rfl⟩
  obtain ⟨n, hn, hperm⟩ := txnDelete_perm hns
  have hlive := (hperm.map TxnNode.txnId).mem_iff.mp (h.live u hu)
  rcases List.mem_cons.mp hlive with hun | hmem
  · exact absurd (hun.trans hn ▸ hu) ht
  · exact hmem

/-- A release parks nobody. -/
theorem Frees.parked {close : Bool → Int → Option Act} {l : List Addr} {acts : List Act}
    (hfree : Frees close s t l a s' acts) {u : Int} (hu : s'.Parked u) : s.Parked u := by
  obtain ⟨n, r, -, -, hrel⟩ := hfree
  obtain ⟨table₁, ns, hunlink, -⟩ :=
    s.unlinkTxnList_frame t l.getLast? a
  rw [hunlink] at hrel
  obtain ⟨q, node, woken, hu⟩ := hu
  cases hrel with
  | quiet => exact ⟨q, node, woken, hu⟩
  | unlinked => exact ⟨q, node, woken, hu⟩
  | woken =>
    simp only [wakeUp] at hu
    split at hu
    · rename_i p n k hthread
      exact ⟨p, n, k, hthread⟩
    · exact ⟨q, node, woken, hu⟩

/-- **The release of a transaction** keeps the wait list in order. -/
theorem releaseLocks_waiting {prepare : Server → Addr → Option (Server × List Act)}
    {close : Bool → Int → Option Act} {acts : List Act}
    (hprep : ∀ s a s₁ pre, prepare s a = some (s₁, pre) → SameButData s s₁)
    (hs : Consistent s) (h : Waiting s) (ht : ¬ s.Parked t)
    (hclean : ∀ a ∈ s.table.allocated, (s.cell a).parentTxn = t → s.UnlinksNothing a)
    (hrel : releaseLocks prepare close s t = some (s', acts)) : Waiting s' ∧ ¬ s'.Parked t := by
  refine (releaseLocks_clean (J := fun s => Waiting s ∧ ¬ s.Parked t) hprep ?_ ?_ hs ⟨h, ht⟩
    hclean hrel).2.1
  · rintro s s₁ ⟨h, ht⟩ ⟨table, rfl, hlinks⟩
    refine ⟨h.update rfl rfl (fun u q node woken hu => ⟨woken, hu, id⟩)
      (fun u q node woken hu => ⟨woken, hu⟩) h.noVictim h.live (fun u q node woken hu b hb => ?_)
      fun u q node hu => ?_, ht⟩
    · have hi : (table.cells b).fileInode = (s.cell b).fileInode := hlinks.inode b
      have hp : (table.cells b).parentTxn = (s.cell b).parentTxn := hlinks.parentTxn b
      change (table.cells b).fileInode = _ → (table.cells b).parentTxn ≠ _
      rw [hi, hp]
      exact h.foreign _ _ _ _ hu b (hlinks.allocated ▸ hb)
    · obtain ⟨b, hb, hinode⟩ := h.holder _ _ _ hu
      exact ⟨b, hlinks.allocated.symm ▸ hb, (hlinks.inode b).trans hinode⟩
  · rintro s a s₁ rel hs ⟨h, ht⟩ hfree
    exact ⟨hfree.waiting hs h, fun hp => ht (hfree.parked hp)⟩

/-! ## Runs -/

/-- **Every step under the condition keeps the wait list in order**. -/
theorem waiting_step {e : Event} (hs : Consistent s) (h : Waiting s) (hok : s.NoLostWakeup e)
    (hstep : s.step e = some s') : Waiting s' := by
  obtain ⟨hidle, hclean, hself⟩ := hok
  have hquiet := step_quiet hstep
  -- a thread that runs, resumes or aborts is not parked
  have hnot : ∀ t st, s.thread t = st → (∀ p node woken, st ≠ .parked p node woken) →
      ¬ s.Parked t := by
    rintro t st hst hne ⟨p, node, woken, hp⟩
    exact hne p node woken (hst.symm.trans hp)
  cases step_spec hstep with
  | @begin t hfresh =>
    have ht : ¬ s.Parked t := fun hp => by
      obtain ⟨n, hn, hid⟩ := List.mem_map.mp (h.live t hp)
      have hsearch := hs.owned.search_eq hn
      rw [hid, hfresh] at hsearch
      cases hsearch
    refine h.updateThread ht (.inl rfl) rfl rfl rfl (fun u hu => ?_)
      (fun a ha => .inr ⟨ha, rfl, rfl⟩) fun a ha => ⟨ha, rfl⟩
    exact (newTxnInsert_perm.map TxnNode.txnId).mem_iff.mpr (List.mem_cons_of_mem _ (h.live u hu))
  | lock hthread hreq =>
    exact requestLock_waiting hs h (hnot _ _ hthread (by simp)) hself hreq
  | resume hthread hreq =>
    refine requestLock_waiting hs h (hnot _ _ hthread (by simp)) ?_ hreq
    simpa only [hthread] using hself
  | wake hthread hwake => exact h.leave hthread hwake
  | leaveAsVictim hthread hwake => exact absurd hthread (h.noVictim _ _)
  | call hcall =>
    obtain ⟨hthread, hlist, hbrk⟩ := logEvent_threads hcall
    refine h.update hlist hbrk (fun u q node woken hu => ⟨woken, hthread ▸ hu, id⟩)
      (fun u q node woken hu => ⟨woken, hthread.symm ▸ hu⟩) (by rw [hthread]; exact h.noVictim)
      (fun u hu => by rw [hquiet.2.ids]; exact h.live u hu) (fun u q node woken hu a ha => ?_)
      fun u q node hu => ?_
    · have hi : (s'.cell a).fileInode = (s.cell a).fileInode := hquiet.1.inode a
      have hp : (s'.cell a).parentTxn = (s.cell a).parentTxn := hquiet.1.parentTxn a
      rw [hi, hp]
      exact h.foreign _ _ _ _ (hthread ▸ hu) a (hquiet.1.allocated ▸ ha)
    · obtain ⟨a, ha, hinode⟩ := h.holder _ _ _ (hthread ▸ hu)
      exact ⟨a, hquiet.1.allocated.symm ▸ ha, (hquiet.1.inode a).trans hinode⟩
  | commit hthread hrel hend =>
    obtain ⟨h₁, ht₁⟩ := releaseLocks_waiting (fun _ _ _ _ => performWrites_sameButData) hs h
      (hnot _ _ hthread (by simp)) hclean hrel
    exact h₁.endTxn ht₁ hend
  | @abort t s₁ _ acts hthread hrel hend =>
    have ht : ¬ s.Parked t := by
      rcases hthread with hthread | hthread <;> exact hnot _ _ hthread (by simp)
    obtain ⟨h₁, ht₁⟩ := releaseLocks_waiting (fun _ _ _ _ => discardWrites_sameButData) hs h ht
      hclean hrel
    exact h₁.endTxn ht₁ hend
  | releaseByBackup hthread hrel =>
    obtain ⟨l, a, hi, hfree⟩ := releaseLocksByBackup_spec hs.owned hrel
    exact hfree.waiting hs h
  | endBackup hthread hnone hend => exact h.endTxn (hnot _ _ hthread (by simp)) hend
  | markVictim => exact hidle.elim
  | setBackup =>
    exact h.update rfl rfl (fun u q node woken hu => ⟨woken, hu, id⟩)
      (fun u q node woken hu => ⟨woken, hu⟩) h.noVictim h.live h.foreign h.holder

/-- **No lost wake-up**: whoever is parked and has not been woken waits for a record that
    another transaction still has. -/
theorem no_lost_wakeup {handles : Nat}
    (h : ReachableUnder (globalInit handles) step NoLostWakeup s) {t : Int} {p : Pending}
    {node : Nat} (ht : s.thread t = .parked p node false) :
    ∃ w ∈ s.headWaitList, w.node = node ∧
      ∃ a ∈ s.table.allocated, (s.cell a).fileInode = w.fileInode ∧ (s.cell a).parentTxn ≠ t := by
  obtain ⟨-, hwait⟩ := h.invariant (P := fun s => Consistent s ∧ Waiting s)
    ⟨consistent_globalInit, waiting_globalInit⟩ fun s e s' _ ⟨hs, hw⟩ hok hstep =>
      ⟨consistent_step hs hok.2.1 hstep, waiting_step hs hw hok hstep⟩
  obtain ⟨w, hw, hwn, hwi⟩ := hwait.parked _ _ _ _ ht
  obtain ⟨a, ha, hinode⟩ := hwait.holder _ _ _ ht
  exact ⟨w, hw, hwn, a, ha, hinode.trans hwi.symm, hwait.foreign _ _ _ _ ht a ha hinode⟩

instance (s : Server) (e : Event) : Decidable (s.NoLostWakeup e) :=
  match e with
  | .lock t req _ =>
    inferInstanceAs (Decidable (DetectorIdle _ ∧ s.CleanRelease _ ∧ s.NoSelfWait t req))
  | .begin _ | .wake _ | .leaveAsVictim _ | .call .. | .commit _ | .abort _ | .releaseByBackup _
  | .endBackup | .markVictim .. | .setBackup _ =>
    inferInstanceAs (Decidable (DetectorIdle _ ∧ s.CleanRelease _ ∧ True))
  | .resume t _ =>
    match hthread : s.thread t with
    | .resuming p => decidable_of_iff (s.NoSelfWait t p.req) (by
        simp [NoLostWakeup, DetectorIdle, CleanRelease, hthread])
    | .running | .parked .. | .victim _ | .aborting => isTrue (by
        simp [NoLostWakeup, DetectorIdle, CleanRelease, hthread])

/-- Of two readers that a writer waits for, one has committed. -/
theorem no_lost_wakeup_second_reader :
    ∃ s, ReachableUnder (globalInit 1) step NoLostWakeup s ∧ ∃ p node,
      s.thread 3 = .parked p node false ∧ ∃ w ∈ s.headWaitList, w.node = node ∧
        ∃ a ∈ s.table.allocated, (s.cell a).fileInode = w.fileInode ∧ (s.cell a).parentTxn ≠ 3 := by
  obtain ⟨s, hs, hp⟩ := exists_of_runUnder (globalInit 1) step NoLostWakeup
    (fun s => s.thread 3 = .parked ⟨⟨7, 2, .placeholder⟩, some 1⟩ 0 false)
    [.begin 1, .begin 2, .begin 3, .lock 1 ⟨7, 0, .placeholder⟩ 0,
      .lock 2 ⟨7, 0, .placeholder⟩ 0, .lock 3 ⟨7, 2, .placeholder⟩ 0, .commit 1] (by decide)
  exact ⟨s, hs, _, _, hp, no_lost_wakeup hs hp⟩

/-- The second of two readers commits before anybody waits, so the first one keeps a link to
    the freed record; its own release then wakes nobody. -/
theorem lost_wakeup :
    ∃ s, ReachableUnder (globalInit 1) step (fun _ e => DetectorIdle e) s ∧ ∃ t p node,
      s.thread t = .parked p node false ∧ ¬ ∃ w ∈ s.headWaitList, w.node = node ∧
        ∃ a ∈ s.table.allocated, (s.cell a).fileInode = w.fileInode ∧ (s.cell a).parentTxn ≠ t := by
  obtain ⟨s, hs, hp, halloc⟩ := exists_of_runUnder (globalInit 1) step
    (fun _ e => DetectorIdle e) (fun s =>
      s.thread 3 = .parked ⟨⟨7, 2, .placeholder⟩, some 0⟩ 0 false ∧ s.table.allocated = [])
    [.begin 1, .begin 2, .begin 3, .lock 1 ⟨7, 0, .placeholder⟩ 0,
      .lock 2 ⟨7, 0, .placeholder⟩ 0, .commit 2, .lock 3 ⟨7, 2, .placeholder⟩ 0, .commit 1]
    (by decide)
  refine ⟨s, hs, 3, _, _, hp, ?_⟩
  rintro ⟨w, -, -, a, ha, -⟩
  rw [halloc] at ha
  cases ha

end Server

end TxFS
