import TxFS.Deadlock.Construction
import TxFS.Deadlock.Detection

/-!
# The Deadlock Victim

`deadlock_detection` aborts the transaction of the first entry of `in_deadlock`. This is the
node that a walk through the graph comes to twice first: it starts at the first node of the
list from which a cycle can be reached and goes on, from each node, to the first successor
from which a cycle can be reached. Nothing in the walk depends on the ids, so the backup is
chosen like any other transaction.

What keeps the backup from being chosen is that it has no lock while it waits for one: no
edge leads to it.
-/

namespace TxFS

open Successors WaitForGraph

namespace Search

variable {g : WaitForGraph} {s s' : Search} {u v : Nat} {f : Frame} {fs above : List Frame}

/-! ## The walk to the victim -/

/-- The first successor from which a cycle can be reached. -/
def FirstNext (g : WaitForGraph) (u v : Nat) : Prop :=
  FirstWith (LeadsToCycle g.succs) (g.succs u) v

/-- The node that the walk comes to twice first. -/
def FirstRevisited (g : WaitForGraph) (u : Nat) : Prop :=
  ∃ r, FirstWith (LeadsToCycle g.succs) (List.range g.length) r ∧ Revisits (FirstNext g) [] r u

theorem FirstRevisited.unique (hu : FirstRevisited g u) (hv : FirstRevisited g v) : u = v := by
  obtain ⟨r, hr, hru⟩ := hu
  obtain ⟨r', hr', hrv⟩ := hv
  cases hr.unique hr'
  have hnext : ∀ a b c, FirstNext g a b → FirstNext g a c → b = c :=
    fun _ _ _ hb hc => FirstWith.unique hb hc
  exact hru.unique hnext hrv

/-- `deadlock_detection` marks the transaction: `detect_cycles` has returned, and this is
    `in_deadlock[0][0]`. -/
def Marks (g : WaitForGraph) (txnid : Int) : Prop :=
  ∃ s u w, Reached g s ∧ step g s = none ∧ s.hung = false ∧ s.inDeadlock.head? = some u ∧
    g[u]? = some w ∧ w.txnId = txnid

/-- `detect_cycles` returns. -/
def Returns (g : WaitForGraph) : Prop :=
  ∃ s, Reached g s ∧ step g s = none ∧ s.hung = false

/-! ## The recursion stack follows the walk -/

/-- At the first call of `cycle` each call of `dfs_visit` is at the first successor from which
    a cycle can be reached. -/
theorem Quiet.firstNext (hq : Quiet g s) (hframes : s.frames = above ++ f :: fs)
    (hv : f.2.head? = some v) (hleads : LeadsToCycle g.succs v) : FirstNext g f.1 v := by
  have hdone := hq.done
  rw [hframes] at hdone
  obtain ⟨done, hsuccs, hblack⟩ := hdone.edges
  cases hf : f.2 with
  | nil => simp [hf] at hv
  | cons x rest =>
    rw [hf, List.head?_cons, Option.some.injEq] at hv
    rw [hf, hv] at hsuccs
    exact ⟨done, rest, hsuccs, fun d hd => hq.dead d (hblack d hd), hleads⟩

/-- Down the stack the walk is the one from the bottom. -/
theorem Quiet.revisits_from_bottom (hinv : Inv g s) (hq : Quiet g s)
    (hframes : s.frames = above ++ f :: fs) (hleads : ∀ w ∈ stack s.frames, LeadsToCycle g.succs w)
    (h : Revisits (FirstNext g) (stack fs) f.1 v) :
    ∃ r, (stack s.frames).getLast? = some r ∧ Revisits (FirstNext g) [] r v := by
  induction fs generalizing above f with
  | nil =>
    refine ⟨f.1, ?_, h⟩
    rw [hframes, stack_append]
    simp [stack]
  | cons f' fs ih =>
    have hframes' : s.frames = (above ++ [f]) ++ f' :: fs := by simp [hframes]
    have hstacked := hinv.stacked
    have hnodup := hinv.nodup
    rw [hframes] at hstacked
    rw [hframes, stack_append] at hnodup
    have hf : f.1 ∈ stack s.frames := by
      rw [hframes]
      simp [stack]
    have hnext := hq.firstNext hframes' hstacked.link (hleads _ hf)
    have hnot : f.1 ∉ f'.1 :: stack fs :=
      (List.nodup_cons.mp (List.nodup_append.mp hnodup).2.1).1
    exact ih hframes' (.step hnext hnot h)

/-- **The first call of `cycle` is made with the node that the walk comes to twice first.** -/
theorem Calls.firstRevisited (hinv : Inv g s) (hq : Quiet g s) (h : Calls s v) :
    FirstRevisited g v := by
  have hcycle := h.onCycle hinv
  obtain ⟨-, hgrey, u, es, fs, hframes⟩ := h
  have hmem : v ∈ u :: stack fs := by
    have hv := (hinv.grey v).mp hgrey
    rw [hframes] at hv
    exact hv
  have hstacked := hinv.stacked
  rw [hframes] at hstacked
  -- every node of the stack leads to the top and from there to `v`
  have hleads : ∀ w ∈ stack s.frames, LeadsToCycle g.succs w := by
    intro w hw
    rw [hframes] at hw
    obtain ⟨done, hdone, -⟩ := hstacked.top_edges
    have hedge : Edge g.succs u v := by
      rw [Edge, hdone]
      simp
    exact ⟨v, (hstacked.reaches_top hw).tail hedge, hcycle⟩
  have hframes' : s.frames = [] ++ (u, v :: es) :: fs := hframes
  have hnext : FirstNext g u v := hq.firstNext hframes' rfl hcycle.leadsToCycle
  obtain ⟨r, hr, hrevisits⟩ := hq.revisits_from_bottom hinv hframes' hleads (.back hnext hmem)
  obtain ⟨front, hrange, hfront⟩ := hq.roots
  rw [hr, Option.toList_some, List.append_assoc, List.singleton_append] at hrange
  exact ⟨r, ⟨front, s.nodes, hrange, fun d hd => hq.dead d (hfront d hd),
    hleads r (List.mem_of_getLast? hr)⟩, hrevisits⟩

/-! ## The first entry of `in_deadlock` -/

/-- As long as nothing is recorded, `cycle` has not been called. -/
theorem quiet_of_empty (hs : Reached g s) : s.inDeadlock = [] → Quiet g s := by
  refine hs.invariant (P := fun s => s.inDeadlock = [] → Quiet g s) (fun _ => quiet_start)
    fun s _ s' hs hq _ hstep hempty => ?_
  have hinv := inv_of_reached hs
  by_cases hcalls : ∃ v, Calls s v
  · obtain ⟨v, hcalls⟩ := hcalls
    obtain ⟨s'', hstep', hrecorded⟩ := hcalls.exists_step (g := g)
    cases Option.some.inj (hstep.symm.trans hstep')
    rw [hempty] at hrecorded
    obtain ⟨hbefore, hnone⟩ := List.nil_eq_append_iff.mp hrecorded
    have hhead := hcalls.head_recorded hinv hbefore
    rw [hnone] at hhead
    cases hhead
  · have hbefore : s.inDeadlock = [] := by
      cases (step_cases hstep).2 with
      | root => exact hempty
      | skip => exact hempty
      | leave => exact hempty
      | back => exact (List.append_eq_nil_iff.mp hempty).1
      | enter => exact hempty
      | pass => exact hempty
    exact (hq hbefore).step hinv (fun v hv => hcalls ⟨v, hv⟩) (step_cases hstep).2

theorem firstRevisited_of_head (hs : Reached g s) :
    ∀ u, s.inDeadlock.head? = some u → FirstRevisited g u := by
  refine hs.invariant (P := fun s => ∀ u, s.inDeadlock.head? = some u → FirstRevisited g u)
    (fun u hu => by cases hu) fun s _ s' hs hhead _ hstep u hu => ?_
  rcases head_of_step hs hstep hu with hold | ⟨hempty, hcalls⟩
  · exact hhead u hold
  · exact hcalls.firstRevisited (inv_of_reached hs) (quiet_of_empty hs hempty)

/-- A transaction is marked if and only if `detect_cycles` returns and the walk comes to its
    node twice first. -/
theorem marks_iff {txnid : Int} : Marks g txnid ↔
    Returns g ∧ ∃ u w, FirstRevisited g u ∧ g[u]? = some w ∧ w.txnId = txnid := by
  constructor
  · rintro ⟨s, u, w, hs, hend, hawake, hhead, hw, hid⟩
    exact ⟨⟨s, hs, hend, hawake⟩, u, w, firstRevisited_of_head hs u hhead, hw, hid⟩
  · rintro ⟨⟨s, hs, hend, hawake⟩, u, w, hu, hw, hid⟩
    cases hrecorded : s.inDeadlock with
    | nil =>
      -- a search that is through without a record has found no cycle
      obtain ⟨r, ⟨front, rest, hrange, -, hr⟩, -⟩ := hu
      have hlt : r < g.length := by
        rw [← List.mem_range, hrange]
        simp
      rcases step_eq_none hend with hhung | ⟨hframes, hnodes⟩
      · rw [hawake] at hhung
        cases hhung
      · exact absurd hr ((quiet_of_empty hs hrecorded).not_leadsToCycle hframes hnodes hlt)
    | cons x xs =>
      have hhead : s.inDeadlock.head? = some x := by rw [hrecorded]; rfl
      have hxu : x = u := (firstRevisited_of_head hs x hhead).unique hu
      exact ⟨s, u, w, hs, hend, hawake, hxu ▸ hhead, hw, hid⟩

/-! ## The backup -/

theorem onCycle_of_marks {txnid : Int} (h : Marks g txnid) :
    ∃ u w, OnCycle g.succs u ∧ g[u]? = some w ∧ w.txnId = txnid := by
  obtain ⟨s, u, w, hs, -, -, hhead, hw, hid⟩ := h
  exact ⟨u, w, onCycle_of_head hs u hhead, hw, hid⟩

/-- A transaction that owns no record is not on a cycle of a graph that was constructed. -/
theorem not_onCycle_of_noRecord {txns : List TxnNode} {t : LockTable} {xs : List Addr}
    {w : WaitGraphNode} (htable : Chained t xs)
    (hids : ((waitingNodes txns).map WaitGraphNode.txnId).Nodup)
    (hpresent : ∀ n ∈ txns, n.curState = .waiting → ∃ a ∈ xs, t.inode a = n.waitingForInode)
    (hg : constructWaitForGraph txns t = some g) (hw : g[u]? = some w)
    (hnone : ∀ a ∈ xs, owner t a ≠ w.txnId) : ¬ OnCycle g.succs u := by
  intro hcycle
  -- the node in front of it on the cycle has an edge to it
  obtain ⟨v, -, hedge⟩ := Relation.TransGen.tail'_iff.mp hcycle
  rw [constructWaitForGraph_eq htable hids hpresent] at hg
  cases hg
  rw [Edge, WaitForGraph.succs, getElem?_built] at hedge
  rw [getElem?_built] at hw
  obtain ⟨w', hw', rfl⟩ := Option.map_eq_some_iff.mp hw
  cases hv : (waitingNodes txns)[v]? with
  | none => simp [hv] at hedge
  | some v' =>
    rw [hv] at hedge
    obtain ⟨o, ho, hou⟩ := List.mem_map.mp (show u ∈ builtEdges txns t xs v v'.inode from hedge)
    obtain ⟨hwaits, a, ha, hao⟩ := mem_matched ho
    have hid : (waitingNodes txns)[u]?.map WaitGraphNode.txnId = some o := by
      rcases hwaits with hwaits | hwaits
      · obtain ⟨j, -, hj⟩ := mem_idsBehind.mp hwaits
        rw [← hou, idxOf_txnId hids hj]
        exact hj
      · obtain ⟨j, -, hj⟩ := mem_idsFront.mp hwaits
        rw [← hou, idxOf_txnId hids hj]
        exact hj
    rw [hw', Option.map_some, Option.some.injEq] at hid
    exact hnone a (List.mem_filter.mp ha).1 (hao.trans hid.symm)

/-- The backup waits for a file that one of the two writers has locked. -/
def backupWaiting : WaitForGraph := [⟨0, 6, [2]⟩, ⟨2, 6, [2]⟩, ⟨3, 5, [1]⟩]

end Search

end TxFS
