import Mathlib.Data.Set.Card
import TxFS.Server.LockManager

/-!
# The Wait List on its Own

The wait list and the transactions that wait in it, without the lock records: a transaction
enters the node of an inode, wakes up, goes back to sleep, and leaves, or it is the deadlock
victim and leaves in two steps. The detector marks a node.

`WaitQueue.Counted` says that the counter of every node is the number of the transactions
that refer to it. Every operation keeps it.
-/

namespace TxFS

/-! ## The queue -/

/-- What a transaction inside `insert_wait_list` or `update_wait_list` waits for. -/
structure Place where
  node : Nat
  inode : Int
  /-- 0 = for a shared lock, 1 = for an exclusive lock. -/
  mode : Int
  /-- It has found itself marked and has to wait on `wake_cond`. -/
  isVictim : Bool
deriving DecidableEq, Repr

/-- The wait list with the transactions that refer to its nodes. -/
structure WaitQueue where
  nodes : List WaitNode
  brk : Nat
  place : Int → Option Place

inductive WaitOp where
  /-- Up to the first `pthread_cond_wait`. -/
  | enter (txnid inode mode : Int)
  /-- From `pthread_cond_wait` on `f_lock` to the next wait, or out. -/
  | wake (txnid : Int)
  /-- From `wake_cond` out. -/
  | leave (txnid : Int)
  /-- The mark of the detector. -/
  | mark (inode txnid : Int)
deriving DecidableEq, Repr

/-- The fields of a node that the marks do not concern. -/
def WaitNode.key (w : WaitNode) : Nat × Int × Int := (w.node, w.fileInode, w.inWait)

namespace Server

theorem insertWaitNode_perm (w : WaitNode) (ws : List WaitNode) :
    (insertWaitNode w ws).Perm (w :: ws) := by
  induction ws with
  | nil => exact List.Perm.refl _
  | cons v ws ih =>
    rw [insertWaitNode]
    split
    · exact List.Perm.refl _
    · exact (ih.cons v).trans (List.Perm.swap ..)

end Server

namespace WaitQueue

/-- Assignment to fields of a node. -/
def setNode (q : WaitQueue) (node : Nat) (f : WaitNode → WaitNode) : WaitQueue :=
  { q with nodes := q.nodes.map fun w => if w.node = node then f w else w }

def setPlace (q : WaitQueue) (txnid : Int) (p : Option Place) : WaitQueue :=
  { q with place := Function.update q.place txnid p }

/-- One transaction less on a node; the last one frees it. -/
def depart (q : WaitQueue) (node : Nat) (txnid : Int) : WaitQueue :=
  let q := q.setNode node fun w => { w with inWait := w.inWait - 1 }
  { q with nodes := q.nodes.filter fun w => ¬ (w.node = node ∧ w.inWait = 0) }.setPlace txnid none

/-- One more thread has seen the mark. -/
def countWoken (w : WaitNode) : WaitNode := { w with wokeUp := w.wokeUp + 1 }

def unmark (w : WaitNode) : WaitNode := { w with txnidAbort := -1 }

/-- One operation on the queue. -/
def step (q : WaitQueue) : WaitOp → Option WaitQueue
  | .enter t i m =>
    if q.place t = none then
      match q.nodes.find? fun w => w.fileInode = i with
      | none => some <|
        { q with nodes := Server.insertWaitNode ⟨q.brk, i, 1, -1, 0⟩ q.nodes
                 brk := q.brk + 1 }.setPlace t (some ⟨q.brk, i, m, false⟩)
      | some w => some <|
        (q.setNode w.node fun w => { w with inWait := w.inWait + 1 }).setPlace t
          (some ⟨w.node, i, m, false⟩)
    else none
  | .wake t => do
    let p ← q.place t
    let w ← q.nodes.find? fun w => w.node = p.node
    if p.isVictim then none
    else if w.txnidAbort ≠ -1 ∧ w.txnidAbort ≠ t then some (q.setNode p.node countWoken)
    else if w.txnidAbort = -1 then some (q.depart p.node t)
    else if w.wokeUp + 1 = w.inWait then
      some (((q.setNode p.node countWoken).setNode p.node unmark).depart p.node t)
    else some ((q.setNode p.node countWoken).setPlace t (some { p with isVictim := true }))
  | .leave t => do
    let p ← q.place t
    let _ ← q.nodes.find? fun w => w.node = p.node
    if p.isVictim then some ((q.setNode p.node unmark).depart p.node t) else none
  | .mark i t => do
    let w ← q.nodes.find? fun w => w.fileInode = i
    some (q.setNode w.node fun w => { w with txnidAbort := t, wokeUp := 0 })

/-- The transactions that refer to a node. -/
def waiters (q : WaitQueue) (node : Nat) : Set Int := {t | ∃ p, q.place t = some p ∧ p.node = node}

/-- **The counters are right**: the list is sorted, a node counts the transactions that
    refer to it, and a transaction refers to a node of its inode that is not freed. -/
structure Counted (q : WaitQueue) : Prop where
  nodes : (q.nodes.map WaitNode.node).Nodup
  fresh : ∀ w ∈ q.nodes, w.node < q.brk
  sorted : (q.nodes.map WaitNode.fileInode).Pairwise (· < ·)
  finite : ∀ w ∈ q.nodes, (q.waiters w.node).Finite
  count : ∀ w ∈ q.nodes, ((q.waiters w.node).ncard : Int) = w.inWait
  waited : ∀ w ∈ q.nodes, (q.waiters w.node).Nonempty
  referred : ∀ t p, q.place t = some p → ∃ w ∈ q.nodes, w.node = p.node ∧ w.fileInode = p.inode

variable {q q' : WaitQueue} {t i m : Int} {node : Nat} {p : Place} {w : WaitNode}

/-! ## Places -/

theorem mem_waiters : t ∈ q.waiters node ↔ ∃ p, q.place t = some p ∧ p.node = node := Iff.rfl

/-- Entering a node adds the transaction to its waiters. -/
theorem waiters_setPlace_some (hfree : q.place t = none) :
    (q.setPlace t (some p)).waiters node =
      if p.node = node then insert t (q.waiters node) else q.waiters node := by
  ext u
  by_cases hu : u = t
  · subst hu
    split <;> simp [mem_waiters, setPlace, *]
  · split <;> simp [mem_waiters, setPlace, hu]

/-- Leaving removes it from the waiters of every node. -/
theorem waiters_setPlace_none : (q.setPlace t none).waiters node = q.waiters node \ {t} := by
  ext u
  by_cases hu : u = t
  · subst hu
    simp [mem_waiters, setPlace]
  · simp [mem_waiters, setPlace, hu]

/-! ## Nodes -/

/-- An assignment that keeps the keys of the nodes. -/
theorem map_key_setNode {f : WaitNode → WaitNode} (hf : ∀ w, (f w).key = w.key) :
    (q.setNode node f).nodes.map WaitNode.key = q.nodes.map WaitNode.key := by
  simp only [setNode, List.map_map]
  apply List.map_congr_left
  intro w _
  simp only [Function.comp_apply]
  split
  · exact hf w
  · rfl

/-- With distinct addresses the search by address finds every node. -/
theorem Counted.find_node (h : Counted q) (hw : w ∈ q.nodes) :
    (q.nodes.find? fun v => v.node = w.node) = some w := by
  obtain ⟨v, hv⟩ : ∃ v, (q.nodes.find? fun v => v.node = w.node) = some v := by
    apply Option.ne_none_iff_exists'.mp
    intro hnone
    exact List.find?_eq_none.mp hnone w hw (by simp)
  have hvn : v.node = w.node := by simpa using List.find?_some hv
  have hvw : v = w := List.inj_on_of_nodup_map h.nodes (List.mem_of_find?_eq_some hv) hw hvn
  rw [hv, hvw]

/-- Distinct nodes are for distinct inodes. -/
theorem Counted.inode_inj (h : Counted q) {v : WaitNode} (hv : v ∈ q.nodes) (hw : w ∈ q.nodes)
    (hvw : v.fileInode = w.fileInode) : v = w :=
  List.inj_on_of_nodup_map (h.sorted.imp fun hlt => ne_of_lt hlt) hv hw hvw

/-! ## What the operations keep -/

/-- **Marks and the state of a victim do not count**. -/
theorem Counted.relabel (h : Counted q)
    (hnodes : q'.nodes.map WaitNode.key = q.nodes.map WaitNode.key) (hbrk : q'.brk = q.brk)
    (hplace : ∀ t, (q'.place t).map (fun p => (p.node, p.inode)) =
      (q.place t).map fun p => (p.node, p.inode)) : Counted q' := by
  have hkey : ∀ w' ∈ q'.nodes, ∃ w ∈ q.nodes, w.key = w'.key := by
    intro w' hw'
    have hmem := List.mem_map_of_mem (f := WaitNode.key) hw'
    rw [hnodes] at hmem
    exact List.mem_map.mp hmem
  have hmap : ∀ {α : Type} (f : Nat × Int × Int → α),
      q'.nodes.map (fun w => f w.key) = q.nodes.map fun w => f w.key := by
    intro α f
    have := congrArg (List.map f) hnodes
    simpa [List.map_map, Function.comp_def] using this
  have hwaiters : ∀ node, q'.waiters node = q.waiters node := by
    intro node
    ext u
    have hu := hplace u
    rw [mem_waiters, mem_waiters]
    cases hq : q.place u <;> cases hq' : q'.place u <;> simp_all
  constructor
  case nodes =>
    exact (hmap fun k => k.1) ▸ h.nodes
  case fresh =>
    intro w' hw'
    obtain ⟨w, hw, hk⟩ := hkey w' hw'
    have hnode : w.node = w'.node := congrArg Prod.fst hk
    rw [hbrk, ← hnode]
    exact h.fresh w hw
  case sorted =>
    exact (hmap fun k => k.2.1) ▸ h.sorted
  case finite =>
    intro w' hw'
    obtain ⟨w, hw, hk⟩ := hkey w' hw'
    have hnode : w.node = w'.node := congrArg Prod.fst hk
    rw [hwaiters, ← hnode]
    exact h.finite w hw
  case count =>
    intro w' hw'
    obtain ⟨w, hw, hk⟩ := hkey w' hw'
    have hnode : w.node = w'.node := congrArg Prod.fst hk
    have hin : w.inWait = w'.inWait := congrArg (fun k => k.2.2) hk
    rw [hwaiters, ← hnode, ← hin]
    exact h.count w hw
  case waited =>
    intro w' hw'
    obtain ⟨w, hw, hk⟩ := hkey w' hw'
    have hnode : w.node = w'.node := congrArg Prod.fst hk
    rw [hwaiters, ← hnode]
    exact h.waited w hw
  case referred =>
    intro u p' hp'
    have hu := hplace u
    rw [hp'] at hu
    obtain ⟨p, hp, hk⟩ := Option.map_eq_some_iff.mp hu.symm
    obtain ⟨w, hw, hwn, hwi⟩ := h.referred u p hp
    have hmem := List.mem_map_of_mem (f := WaitNode.key) hw
    rw [← hnodes] at hmem
    obtain ⟨w', hw', hwk⟩ := List.mem_map.mp hmem
    simp only [Prod.mk.injEq] at hk
    simp only [WaitNode.key, Prod.mk.injEq] at hwk
    exact ⟨w', hw', by rw [hwk.1, hwn, hk.1], by rw [hwk.2.1, hwi, hk.2]⟩

/-- Into the sorted list in front of the first larger inode. -/
theorem insertWaitNode_sorted {v : WaitNode} {ws : List WaitNode}
    (hs : (ws.map WaitNode.fileInode).Pairwise (· < ·)) (hnew : ∀ w ∈ ws, w.fileInode ≠ v.fileInode) :
    ((Server.insertWaitNode v ws).map WaitNode.fileInode).Pairwise (· < ·) := by
  induction ws with
  | nil => simp [Server.insertWaitNode]
  | cons w ws ih =>
    simp only [List.map_cons, List.pairwise_cons, List.mem_map, forall_exists_index, and_imp,
      forall_apply_eq_imp_iff₂] at hs
    obtain ⟨hfirst, hrest⟩ := hs
    rw [Server.insertWaitNode]
    split
    · -- in front of `w`, and so of everything behind `w`
      rename_i hlt
      simp only [List.map_cons, List.pairwise_cons, List.mem_cons, List.mem_map,
        forall_eq_or_imp, forall_exists_index, and_imp, forall_apply_eq_imp_iff₂]
      exact ⟨⟨hlt, fun u hu => lt_trans hlt (hfirst u hu)⟩, hfirst, hrest⟩
    · rename_i hnot
      have hwv : w.fileInode < v.fileInode :=
        lt_of_le_of_ne (not_lt.mp hnot) (hnew w (List.mem_cons_self ..))
      simp only [List.map_cons, List.pairwise_cons, List.mem_map, forall_exists_index, and_imp,
        forall_apply_eq_imp_iff₂]
      refine ⟨?_, ih hrest fun u hu => hnew u (List.mem_cons_of_mem _ hu)⟩
      intro u hu
      rcases List.mem_cons.mp ((Server.insertWaitNode_perm v ws).mem_iff.mp hu) with rfl | hu
      · exact hwv
      · exact hfirst u hu

/-- **The first one to wait on an inode** makes the node. -/
theorem Counted.enterNew (h : Counted q) (hfree : q.place t = none)
    (hnone : ∀ w ∈ q.nodes, w.fileInode ≠ i) :
    Counted ({ q with nodes := Server.insertWaitNode ⟨q.brk, i, 1, -1, 0⟩ q.nodes
                      brk := q.brk + 1 }.setPlace t (some ⟨q.brk, i, m, false⟩)) := by
  have hperm := Server.insertWaitNode_perm ⟨q.brk, i, 1, -1, 0⟩ q.nodes
  have hmem : ∀ w, w ∈ Server.insertWaitNode ⟨q.brk, i, 1, -1, 0⟩ q.nodes ↔
      w = ⟨q.brk, i, 1, -1, 0⟩ ∨ w ∈ q.nodes := by
    intro w
    rw [hperm.mem_iff, List.mem_cons]
  -- nobody refers to a node that does not exist yet
  have hnobody : q.waiters q.brk = ∅ := by
    apply Set.eq_empty_of_forall_notMem
    rintro u ⟨p, hp, hpn⟩
    obtain ⟨w, hw, hwn, -⟩ := h.referred u p hp
    exact absurd (hwn.trans hpn) (Nat.ne_of_lt (h.fresh w hw))
  have hwaiters : ∀ node, ({ q with
      nodes := Server.insertWaitNode ⟨q.brk, i, 1, -1, 0⟩ q.nodes
      brk := q.brk + 1 }.setPlace t (some ⟨q.brk, i, m, false⟩)).waiters node =
        if q.brk = node then insert t (q.waiters node) else q.waiters node :=
    fun node => waiters_setPlace_some (q := { q with nodes := _, brk := _ }) hfree
  have hold : ∀ w ∈ q.nodes, q.brk ≠ w.node := fun w hw => Nat.ne_of_gt (h.fresh w hw)
  constructor
  case nodes =>
    apply (hperm.map WaitNode.node).nodup_iff.mpr
    refine List.nodup_cons.mpr ⟨?_, h.nodes⟩
    intro hin
    obtain ⟨w, hw, hwn⟩ := List.mem_map.mp hin
    exact hold w hw hwn.symm
  case fresh =>
    intro w hw
    rcases (hmem w).mp hw with rfl | hw
    · exact Nat.lt_succ_self _
    · exact Nat.lt_succ_of_lt (h.fresh w hw)
  case sorted =>
    exact insertWaitNode_sorted h.sorted hnone
  case finite =>
    intro w hw
    rw [hwaiters]
    rcases (hmem w).mp hw with rfl | hw
    · rw [if_pos rfl, hnobody]
      exact (Set.finite_empty).insert t
    · rw [if_neg (hold w hw)]
      exact h.finite w hw
  case count =>
    intro w hw
    rw [hwaiters]
    rcases (hmem w).mp hw with rfl | hw
    · rw [if_pos rfl, hnobody]
      simp
    · rw [if_neg (hold w hw)]
      exact h.count w hw
  case waited =>
    intro w hw
    rw [hwaiters]
    rcases (hmem w).mp hw with rfl | hw
    · rw [if_pos rfl]
      exact Set.insert_nonempty ..
    · rw [if_neg (hold w hw)]
      exact h.waited w hw
  case referred =>
    intro u p hp
    by_cases hu : u = t
    · subst hu
      simp only [setPlace, Function.update_self, Option.some.injEq] at hp
      subst hp
      exact ⟨_, (hmem _).mpr (.inl rfl), rfl, rfl⟩
    · simp only [setPlace, Function.update_of_ne hu] at hp
      obtain ⟨w, hw, hwk⟩ := h.referred u p hp
      exact ⟨w, (hmem w).mpr (.inr hw), hwk⟩

/-- **One more joins a node**. -/
theorem Counted.enterOld (h : Counted q) (hfree : q.place t = none) (hw : w ∈ q.nodes) :
    Counted ((q.setNode w.node fun w => { w with inWait := w.inWait + 1 }).setPlace t
      (some ⟨w.node, w.fileInode, m, false⟩)) := by
  have hmem : ∀ v', v' ∈ (q.setNode w.node fun w => { w with inWait := w.inWait + 1 }).nodes →
      ∃ v ∈ q.nodes, v'.node = v.node ∧ v'.fileInode = v.fileInode ∧
        v'.inWait = if v.node = w.node then v.inWait + 1 else v.inWait := by
    intro v' hv'
    obtain ⟨v, hv, rfl⟩ := List.mem_map.mp hv'
    refine ⟨v, hv, ?_⟩
    split
    · exact ⟨rfl, rfl, rfl⟩
    · exact ⟨rfl, rfl, rfl⟩
  have hwaiters : ∀ node, ((q.setNode w.node fun w => { w with inWait := w.inWait + 1 }).setPlace t
      (some ⟨w.node, w.fileInode, m, false⟩)).waiters node =
        if w.node = node then insert t (q.waiters node) else q.waiters node :=
    fun node => waiters_setPlace_some (q := q.setNode _ _) hfree
  -- only the counters change
  have hkeep : ∀ {α : Type} (f : WaitNode → α), (∀ v k, f { v with inWait := k } = f v) →
      (q.setNode w.node fun w => { w with inWait := w.inWait + 1 }).nodes.map f = q.nodes.map f := by
    intro α f hf
    simp only [setNode, List.map_map]
    apply List.map_congr_left
    intro v _
    simp only [Function.comp_apply]
    split
    · exact hf v _
    · rfl
  have hnot : t ∉ q.waiters w.node := by
    rintro ⟨p, hp, -⟩
    rw [hfree] at hp
    cases hp
  constructor
  case nodes =>
    exact (hkeep WaitNode.node fun _ _ => rfl) ▸ h.nodes
  case fresh =>
    intro v' hv'
    obtain ⟨v, hv, hvn, -⟩ := hmem v' hv'
    exact hvn ▸ h.fresh v hv
  case sorted =>
    exact (hkeep WaitNode.fileInode fun _ _ => rfl) ▸ h.sorted
  case finite =>
    intro v' hv'
    obtain ⟨v, hv, hvn, -⟩ := hmem v' hv'
    rw [hwaiters, hvn]
    split
    · exact (h.finite v hv).insert t
    · exact h.finite v hv
  case count =>
    intro v' hv'
    obtain ⟨v, hv, hvn, -, hcount⟩ := hmem v' hv'
    rw [hwaiters, hvn, hcount]
    by_cases hvw : v.node = w.node
    · -- the node that `t` joins
      rw [if_pos hvw.symm, if_pos hvw, hvw, Set.ncard_insert_of_notMem hnot (h.finite w hw)]
      have := h.count v hv
      rw [hvw] at this
      push_cast
      omega
    · -- the other nodes have the waiters they had
      rw [if_neg (Ne.symm hvw), if_neg hvw]
      exact h.count v hv
  case waited =>
    intro v' hv'
    obtain ⟨v, hv, hvn, -⟩ := hmem v' hv'
    rw [hwaiters, hvn]
    split
    · exact Set.insert_nonempty ..
    · exact h.waited v hv
  case referred =>
    intro u p hp
    -- no node goes
    have hstays : ∀ v ∈ q.nodes, ∃ v' ∈ (q.setNode w.node fun w =>
        { w with inWait := w.inWait + 1 }).nodes, v'.node = v.node ∧ v'.fileInode = v.fileInode := by
      intro v hv
      refine ⟨_, List.mem_map_of_mem hv, ?_⟩
      split
      · exact ⟨rfl, rfl⟩
      · exact ⟨rfl, rfl⟩
    by_cases hu : u = t
    · subst hu
      simp only [setPlace, Function.update_self, Option.some.injEq] at hp
      subst hp
      exact hstays w hw
    · simp only [setPlace, Function.update_of_ne hu] at hp
      obtain ⟨v, hv, hvn, hvi⟩ := h.referred u p hp
      obtain ⟨v', hv', hvn', hvi'⟩ := hstays v hv
      exact ⟨v', hv', hvn'.trans hvn, hvi'.trans hvi⟩

/-- **One leaves**; the node is freed exactly when nobody refers to it any more. -/
theorem Counted.depart (h : Counted q) (hp : q.place t = some p) : Counted (q.depart p.node t) := by
  have hmem : ∀ v', v' ∈ (q.depart p.node t).nodes → ∃ v ∈ q.nodes, v'.node = v.node ∧
      v'.fileInode = v.fileInode ∧
      v'.inWait = (if v.node = p.node then v.inWait - 1 else v.inWait) ∧
      (v.node = p.node → v'.inWait ≠ 0) := by
    intro v' hv'
    obtain ⟨hv', hpos⟩ := List.mem_filter.mp hv'
    obtain ⟨v, hv, rfl⟩ := List.mem_map.mp hv'
    refine ⟨v, hv, ?_⟩
    by_cases hvn : v.node = p.node
    · simp only [hvn, if_true] at hpos ⊢
      simp only [true_and, decide_not, Bool.not_eq_true', decide_eq_false_iff_not] at hpos
      exact ⟨trivial, trivial, trivial, fun _ => hpos⟩
    · simp [hvn]
  -- `t` refers to one node only
  have hwaiters : ∀ node, (q.depart p.node t).waiters node = q.waiters node \ {t} :=
    fun node => waiters_setPlace_none (q := { q with nodes := _ })
  have hin : t ∈ q.waiters p.node := ⟨p, hp, rfl⟩
  have hnot : ∀ v : WaitNode, v.node ≠ p.node → t ∉ q.waiters v.node := by
    rintro v hv ⟨p', hp', hpn⟩
    rw [hp, Option.some.injEq] at hp'
    subst hp'
    exact hv hpn.symm
  -- the counter of the node, with one waiter less
  have hcount : ∀ v ∈ q.nodes, (((q.waiters v.node) \ {t}).ncard : Int) =
      if v.node = p.node then v.inWait - 1 else v.inWait := by
    intro v hv
    have hv' := h.count v hv
    by_cases hvn : v.node = p.node
    · have hone := Set.ncard_sdiff_singleton_add_one (hvn ▸ hin) (h.finite v hv)
      rw [if_pos hvn]
      omega
    · rw [if_neg hvn, Set.sdiff_singleton_eq_self (hnot v hvn)]
      exact hv'
  -- only the counters change, and the node may go
  have hsub : ∀ {α : Type} (f : WaitNode → α), (∀ v k, f { v with inWait := k } = f v) →
      ((q.depart p.node t).nodes.map f).Sublist (q.nodes.map f) := by
    intro α f hf
    have hmap : (q.setNode p.node fun w => { w with inWait := w.inWait - 1 }).nodes.map f =
        q.nodes.map f := by
      simp only [setNode, List.map_map]
      apply List.map_congr_left
      intro v _
      simp only [Function.comp_apply]
      split
      · exact hf v _
      · rfl
    rw [← hmap]
    exact (List.filter_sublist).map f
  constructor
  case nodes =>
    exact h.nodes.sublist (hsub WaitNode.node fun _ _ => rfl)
  case fresh =>
    intro v' hv'
    obtain ⟨v, hv, hvn, -⟩ := hmem v' hv'
    exact hvn ▸ h.fresh v hv
  case sorted =>
    exact h.sorted.sublist (hsub WaitNode.fileInode fun _ _ => rfl)
  case finite =>
    intro v' hv'
    obtain ⟨v, hv, hvn, -⟩ := hmem v' hv'
    rw [hwaiters, hvn]
    exact (h.finite v hv).sdiff
  case count =>
    intro v' hv'
    obtain ⟨v, hv, hvn, -, hin, -⟩ := hmem v' hv'
    rw [hwaiters, hvn, hin]
    exact hcount v hv
  case waited =>
    intro v' hv'
    obtain ⟨v, hv, hvn, -, hwait, hpos⟩ := hmem v' hv'
    rw [hwaiters, hvn]
    by_cases hvp : v.node = p.node
    · -- the counter is not zero, so somebody is left
      apply Set.nonempty_of_ncard_ne_zero
      have := hcount v hv
      have := hpos hvp
      rw [hwait] at this
      omega
    · rw [Set.sdiff_singleton_eq_self (hnot v hvp)]
      exact h.waited v hv
  case referred =>
    intro u p' hp'
    by_cases hu : u = t
    · subst hu
      simp [WaitQueue.depart, setPlace] at hp'
    · simp only [WaitQueue.depart, setPlace, setNode, Function.update_of_ne hu] at hp'
      obtain ⟨v, hv, hvn, hvi⟩ := h.referred u p' hp'
      by_cases hvp : v.node = p.node
      · refine ⟨{ v with inWait := v.inWait - 1 }, List.mem_filter.mpr ⟨?_, ?_⟩, hvn, hvi⟩
        · exact List.mem_map.mpr ⟨v, hv, if_pos hvp⟩
        · -- `u` still refers to the node, so the counter is not zero
          have hmem' : u ∈ q.waiters v.node \ {t} := ⟨⟨p', hp', hvn.symm⟩, hu⟩
          have hcard := hcount v hv
          have hpos := (Set.ncard_pos ((h.finite v hv).sdiff)).mpr ⟨u, hmem'⟩
          rw [if_pos hvp] at hcard
          have hne : v.inWait - 1 ≠ 0 := by omega
          simp [hne]
      · refine ⟨v, List.mem_filter.mpr ⟨List.mem_map.mpr ⟨v, hv, if_neg hvp⟩, ?_⟩, hvn, hvi⟩
        simp [hvp]

/-! ## Runs of the queue -/

/-- The search for an inode. -/
theorem find_inode_some (h : (q.nodes.find? fun w => w.fileInode = i) = some w) :
    w ∈ q.nodes ∧ w.fileInode = i :=
  ⟨List.mem_of_find?_eq_some h, by simpa using List.find?_some h⟩

/-- **Every operation keeps the counters right**. -/
theorem counted_step {op : WaitOp} (h : Counted q) (hstep : q.step op = some q') : Counted q' := by
  have hmark : ∀ {f : WaitNode → WaitNode} {node : Nat}, (∀ w, (f w).key = w.key) →
      Counted (q.setNode node f) := by
    intro f node hf
    exact h.relabel (map_key_setNode hf) rfl fun _ => rfl
  cases op with
  | enter t i m =>
    simp only [step] at hstep
    split at hstep
    · rename_i hfree
      split at hstep
      · rename_i hnone
        cases hstep
        apply h.enterNew hfree
        intro w hw
        simpa using List.find?_eq_none.mp hnone w hw
      · rename_i w hw
        cases hstep
        obtain ⟨hmem, rfl⟩ := find_inode_some hw
        exact h.enterOld hfree hmem
    · cases hstep
  | wake t =>
    simp only [step, Option.bind_eq_bind, Option.bind_eq_some_iff] at hstep
    obtain ⟨p, hp, w, hw, hstep⟩ := hstep
    split at hstep
    · cases hstep
    split at hstep
    · -- another one is the victim
      cases hstep
      exact hmark fun _ => rfl
    split at hstep
    · -- no victim
      cases hstep
      exact h.depart hp
    split at hstep
    · -- the victim, after everybody else
      cases hstep
      have hboth : Counted ((q.setNode p.node countWoken).setNode p.node unmark) := by
        have hone : Counted (q.setNode p.node countWoken) := hmark fun _ => rfl
        exact hone.relabel (map_key_setNode fun _ => rfl) rfl fun _ => rfl
      exact hboth.depart hp
    · cases hstep
      refine h.relabel (map_key_setNode (f := countWoken) fun _ => rfl) rfl ?_
      intro u
      by_cases hu : u = t
      · subst hu
        simp [setPlace, setNode, hp]
      · simp [setPlace, setNode, Function.update_of_ne hu]
  | leave t =>
    simp only [step, Option.bind_eq_bind, Option.bind_eq_some_iff] at hstep
    obtain ⟨p, hp, w, hw, hstep⟩ := hstep
    split at hstep
    · cases hstep
      exact Counted.depart (hmark fun _ => rfl) hp
    · cases hstep
  | mark i t =>
    simp only [step, Option.bind_eq_bind, Option.bind_eq_some_iff] at hstep
    obtain ⟨w, -, hstep⟩ := hstep
    cases hstep
    exact hmark fun _ => rfl

end WaitQueue

end TxFS
