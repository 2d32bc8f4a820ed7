import Mathlib.Algebra.Order.Ring.Int
import Mathlib.Algebra.BigOperators.Group.Finset.Basic
import Mathlib.Data.Finset.Basic
import TxFS.Deadlock.Stack

/-!
# Detection of Deadlocks

The search calls `cycle` if and only if the graph has a cycle, and the first node that is
recorded in `in_deadlock` is on a cycle.

Up to the first call of `cycle` the search is *quiet*: an edge that a call of `dfs_visit` has
done leads to a black node, and no black node leads to a cycle. A quiet search that is
through has painted every node black.
-/

namespace TxFS

open Successors

namespace Search

variable {g : WaitForGraph} {s s' : Search} {u v : Nat} {fs : List Frame}

/-! ## The search ends -/

/-- The nodes and everything the edges lead to. -/
def region (g : WaitForGraph) : Finset Nat :=
  (List.range g.length ++ g.flatMap WaitGraphNode.edge).toFinset

theorem mem_region_of_edge (h : v ∈ g.succs u) : v ∈ region g := by
  unfold WaitForGraph.succs at h
  cases hu : g[u]? with
  | none => simp [hu] at h
  | some n =>
    rw [hu] at h
    have hn : n ∈ g := List.mem_of_getElem? hu
    have hv : v ∈ g.flatMap WaitGraphNode.edge := List.mem_flatMap.mpr ⟨n, hn, by simpa using h⟩
    simp [region, hv]

/-- What is left to do for a node that has not been visited: its edges, the call of
    `dfs_visit` and its return. -/
def weight (g : WaitForGraph) (u : Nat) : Nat := (g.succs u).length + 2

def unvisited (g : WaitForGraph) (visited : Nat → Color) : Nat :=
  ∑ u ∈ (region g).filter (fun u => visited u = .white), weight g u

/-- The number of steps that are left, at most. -/
def remaining (g : WaitForGraph) (s : Search) : Nat :=
  unvisited g s.visited + (s.frames.map fun f => f.2.length + 1).sum + s.nodes.length

theorem unvisited_grey {visited : Nat → Color} (hv : v ∈ region g) (hwhite : visited v = .white) :
    weight g v + unvisited g (paint visited v .grey) = unvisited g visited := by
  have herase : (region g).filter (fun u => paint visited v .grey u = .white) =
      ((region g).filter fun u => visited u = .white).erase v := by
    ext u
    rw [Finset.mem_filter, Finset.mem_erase, Finset.mem_filter]
    by_cases huv : u = v
    · simp [huv, paint]
    · simp [huv, paint]
  rw [unvisited, herase, unvisited]
  exact Finset.add_sum_erase _ _ (Finset.mem_filter.mpr ⟨hv, hwhite⟩)

theorem unvisited_black {visited : Nat → Color} (hu : visited u ≠ .white) :
    unvisited g (paint visited u .black) = unvisited g visited := by
  have hsame : (region g).filter (fun w => paint visited u .black w = .white) =
      (region g).filter fun w => visited w = .white := by
    ext w
    rw [Finset.mem_filter, Finset.mem_filter]
    by_cases hwu : w = u
    · simp [hwu, paint, hu]
    · simp [paint, hwu]
  rw [unvisited, hsame, unvisited]

/-- `detect_cycles` goes through its list. -/
theorem nodes_suffix (h : Reached g s) : s.nodes <:+ List.range g.length := by
  refine h.invariant (P := fun s => s.nodes <:+ List.range g.length) (List.suffix_refl _)
    fun s _ s' _ hsuffix _ hstep => ?_
  cases (step_cases hstep).2 with
  | root _ hnodes => exact (hnodes ▸ List.suffix_cons ..).trans hsuffix
  | skip _ hnodes => exact (hnodes ▸ List.suffix_cons ..).trans hsuffix
  | leave => exact hsuffix
  | back => exact hsuffix
  | enter => exact hsuffix
  | pass => exact hsuffix

theorem sum_nextEdge_le :
    ((nextEdge fs).map fun f => f.2.length + 1).sum ≤ (fs.map fun f => f.2.length + 1).sum := by
  cases fs with
  | nil => exact Nat.le_refl _
  | cons f fs =>
    simp only [nextEdge, List.map_cons, List.sum_cons, List.length_tail]
    omega

/-- Every step does some of the work. -/
theorem remaining_lt (hs : Reached g s) (hstep : Step g s s') : remaining g s' < remaining g s := by
  have hinv := inv_of_reached hs
  cases hstep with
  | @root u us hframes hnodes hwhite =>
    have hmem : u ∈ region g := by
      have hrange := (nodes_suffix hs).subset (hnodes ▸ List.mem_cons_self ..)
      rw [region, List.mem_toFinset]
      exact List.mem_append_left _ hrange
    have hsum := unvisited_grey hmem hwhite
    simp only [remaining, hframes, hnodes, List.map_cons, List.map_nil, List.sum_cons, List.sum_nil,
      List.length_cons, weight] at hsum ⊢
    omega
  | skip hframes hnodes =>
    simp only [remaining, hnodes, List.length_cons]
    omega
  | @leave u fs hframes =>
    have hgrey : s.visited u = .grey := (hinv.grey u).mpr (by simp [hframes])
    have hsum : unvisited g (paint s.visited u .black) = unvisited g s.visited :=
      unvisited_black (by simp [hgrey])
    have hle : ((nextEdge fs).map fun f => f.2.length + 1).sum ≤
      (fs.map fun f => f.2.length + 1).sum := sum_nextEdge_le
    simp only [remaining, hframes, hsum, List.map_cons, List.sum_cons, List.length_nil]
    omega
  | back hframes =>
    simp only [remaining, hframes, List.map_cons, List.sum_cons, List.length_cons]
    omega
  | @enter u v es fs hframes hwhite =>
    have hedge : v ∈ g.succs u := by
      have hstacked := hinv.stacked
      rw [hframes] at hstacked
      obtain ⟨done, hdone, -⟩ := hstacked.top_edges
      rw [hdone]
      simp
    have hsum := unvisited_grey (mem_region_of_edge hedge) hwhite
    simp only [remaining, hframes, List.map_cons, List.sum_cons, List.length_cons, weight] at hsum ⊢
    omega
  | pass hframes =>
    simp only [remaining, hframes, List.map_cons, List.sum_cons, List.length_cons]
    omega

/-- **The search ends**: it hangs or is through. -/
theorem search_ends (hs : Reached g s) : ∃ n, step g (run g n s) = none := by
  induction hleft : remaining g s using Nat.strong_induction_on generalizing s with
  | _ m ih =>
    cases hstep : step g s with
    | none => exact ⟨0, hstep⟩
    | some s' =>
      have hlt := remaining_lt hs (step_cases hstep).2
      obtain ⟨n, hn⟩ := ih _ (hleft ▸ hlt) (.step (e := ()) hs trivial hstep) rfl
      refine ⟨n + 1, ?_⟩
      rw [run, hstep]
      exact hn

/-! ## The quiet part of the search -/

/-- The search before the first call of `cycle` returns. -/
structure Quiet (g : WaitForGraph) (s : Search) : Prop where
  /-- No black node leads to a cycle. -/
  dead : ∀ u, s.visited u = .black → ¬ LeadsToCycle g.succs u
  done : Stacked g (fun _ d => s.visited d = .black) s.frames
  /-- The nodes in front of the one that `detect_cycles` is at are black. -/
  roots : ∃ front, List.range g.length = front ++ (stack s.frames).getLast?.toList ++ s.nodes ∧
    ∀ d ∈ front, s.visited d = .black
  empty : s.inDeadlock = []
  awake : s.hung = false

theorem quiet_start : Quiet g (start g) where
  dead u hu := by cases hu
  done := trivial
  roots := ⟨[], rfl, by simp⟩
  empty := rfl
  awake := rfl

theorem black_of_paint {visited : Nat → Color} {w : Nat} (h : paint visited v .grey w = .black) :
    visited w = .black := by
  by_cases hwv : w = v
  · simp [hwv, paint] at h
  · simpa [paint, hwv] using h

theorem paint_of_black {visited : Nat → Color} {w : Nat} (hv : visited v = .white)
    (hw : visited w = .black) : paint visited v .grey w = .black := by
  have hwv : w ≠ v := by
    rintro rfl
    rw [hv] at hw
    cases hw
  simpa [paint, hwv] using hw

/-- A step that calls `cycle` is the only one that ends the quiet part. -/
theorem Quiet.step (hinv : Inv g s) (h : Quiet g s) (hnot : ∀ v, ¬ Calls s v)
    (hstep : Step g s s') : Quiet g s' := by
  obtain ⟨hdead, hdone, ⟨front, hrange, hfront⟩, hempty, hawake⟩ := h
  cases hstep with
  | @root u us hframes hnodes hwhite =>
    rw [hframes] at hdone hrange
    refine ⟨fun w hw => hdead w (black_of_paint hw),
      (hdone.mono fun _ d hd => paint_of_black hwhite hd).push (by simp), ⟨front, ?_, fun d hd => ?_⟩,
      hempty, hawake⟩
    · rw [hrange, hnodes]
      simp [stack]
    · exact paint_of_black hwhite (hfront d hd)
  | @skip u us hframes hnodes hnotwhite =>
    have hblack : s.visited u = .black := by
      have hnotgrey : s.visited u ≠ .grey := fun hgrey => by
        have hmem := (hinv.grey u).mp hgrey
        simp [hframes, stack] at hmem
      cases hu : s.visited u with
      | white => exact absurd hu hnotwhite
      | grey => exact absurd hu hnotgrey
      | black => rfl
    refine ⟨hdead, hdone, ⟨front ++ [u], ?_, fun d hd => ?_⟩, hempty, hawake⟩
    · rw [hrange, hnodes, hframes]
      simp [stack]
    · rcases List.mem_append.mp hd with hd | hd
      · exact hfront d hd
      · exact List.mem_singleton.mp hd ▸ hblack
  | @leave u fs hframes =>
    rw [hframes] at hdone hrange
    have hkeep : ∀ w, s.visited w = .black → paint s.visited u .black w = .black := by
      intro w hw
      by_cases hwu : w = u
      · simp [paint, hwu]
      · simpa [paint, hwu] using hw
    have hu : paint s.visited u .black u = .black := Function.update_self ..
    refine ⟨fun w hw => ?_, (hdone.mono fun _ d hd => hkeep d hd).leave fun _ => hu, ?_, hempty,
      hawake⟩
    · by_cases hwu : w = u
      · -- all edges of the node are done
        subst hwu
        obtain ⟨done, hsuccs, hblack⟩ := hdone.top_edges
        rw [leadsToCycle_iff]
        rintro ⟨x, hx, hcycle⟩
        rw [hsuccs, List.append_nil] at hx
        exact hdead x (hblack x hx) hcycle
      · exact hdead w (by simpa [paint, hwu] using hw)
    · rcases hfs : stack fs with _ | ⟨w, ws⟩
      · refine ⟨front ++ [u], ?_, fun d hd => ?_⟩
        · rw [hrange, stack_cons, hfs, stack_nextEdge, hfs]
          simp
        · rcases List.mem_append.mp hd with hd | hd
          · exact hkeep d (hfront d hd)
          · exact List.mem_singleton.mp hd ▸ hu
      · refine ⟨front, ?_, fun d hd => hkeep d (hfront d hd)⟩
        rw [hrange, stack_cons, stack_nextEdge, hfs, List.getLast?_cons_cons]
  | @back u v es fs hframes hgrey => exact absurd ⟨hawake, hgrey, u, es, fs, hframes⟩ (hnot v)
  | @enter u v es fs hframes hwhite =>
    rw [hframes] at hdone hrange
    refine ⟨fun w hw => hdead w (black_of_paint hw),
      (hdone.mono fun _ d hd => paint_of_black hwhite hd).push (by simp), ⟨front, ?_, fun d hd => ?_⟩,
      hempty, hawake⟩
    · rw [hrange, stack_cons, stack_cons, stack_cons, List.getLast?_cons_cons]
    · exact paint_of_black hwhite (hfront d hd)
  | @pass u v es fs hframes hblack =>
    rw [hframes] at hdone hrange
    exact ⟨hdead, hdone.turn hblack, ⟨front, hrange, hfront⟩, hempty, hawake⟩

/-- A node with an edge is in the list. -/
theorem lt_length_of_onCycle (h : OnCycle g.succs u) : u < g.length := by
  obtain ⟨v, huv, -⟩ := Relation.TransGen.head'_iff.mp h
  by_contra hge
  have hnone : g[u]? = none := List.getElem?_eq_none (Nat.not_lt.mp hge)
  simp [Edge, WaitForGraph.succs, hnone] at huv

/-- A quiet search that is through has painted all nodes black. -/
theorem Quiet.not_leadsToCycle (h : Quiet g s) (hframes : s.frames = []) (hnodes : s.nodes = [])
    (hu : u < g.length) : ¬ LeadsToCycle g.succs u := by
  obtain ⟨front, hrange, hfront⟩ := h.roots
  rw [hframes, hnodes] at hrange
  have hmem : u ∈ front := by
    have hu := List.mem_range.mpr hu
    rw [hrange] at hu
    simpa [stack] using hu
  exact h.dead u (hfront u hmem)

/-- **The first call**: the search of a graph with a cycle comes to a call of `cycle`, and it
    is quiet up to there. -/
theorem exists_first_call (h : OnCycle g.succs u) :
    ∃ s v, Reached g s ∧ Quiet g s ∧ Calls s v := by
  by_contra hnone
  have hquiet : ∀ s, Reached g s → Quiet g s := by
    intro s hs
    refine hs.invariant quiet_start fun s _ s' hs hq _ hstep => ?_
    exact hq.step (inv_of_reached hs) (fun v hcalls => hnone ⟨s, v, hs, hq, hcalls⟩)
      (step_cases hstep).2
  obtain ⟨n, hn⟩ := search_ends (g := g) (s := start g) .init
  have hq := hquiet _ (run_reached (n := n) .init)
  rcases step_eq_none hn with hhung | ⟨hframes, hnodes⟩
  · rw [hq.awake] at hhung
    cases hhung
  · exact hq.not_leadsToCycle hframes hnodes (lt_length_of_onCycle h) h.leadsToCycle

/-! ## Records of the first call -/

/-- A call of `cycle` finds a grey node from its start. -/
theorem Calls.greyEdge_isSome (hinv : Inv g s) (h : Calls s v) :
    ∃ x, g.greyEdge s.visited v = some x := by
  have hmem := (hinv.grey v).mp h.2.1
  obtain ⟨f, hf, rfl⟩ := List.mem_map.mp hmem
  obtain ⟨above, fs, hframes⟩ := List.append_of_mem hf
  have hstacked := hinv.stacked
  rw [hframes] at hstacked
  obtain ⟨done, hdone, -⟩ := hstacked.edges
  obtain ⟨x, hx, -⟩ := h.head_grey hinv hframes
  rw [h.greyEdge_eq hinv hframes hdone, hx]
  cases done.find? fun x => s.visited x = .grey with
  | none => exact ⟨x, rfl⟩
  | some y => exact ⟨y, rfl⟩

/-- The first call of `cycle` finds a free row, and records its start in it. -/
theorem Calls.head_recorded (hinv : Inv g s) (h : Calls s v) (hempty : s.inDeadlock = []) :
    (g.cycle s.visited s.freeRows v).1.head? = some v := by
  obtain ⟨x, hx⟩ := h.greyEdge_isSome hinv
  have hrows : s.freeRows ≠ 0 := by
    simp [freeRows, hempty, WaitForGraph.inDeadlockSize]
  rw [WaitForGraph.cycle, WaitForGraph.inCycleSize, WaitForGraph.cycleLoop]
  simp only [hx, if_neg hrows]
  split <;> rfl

/-- Only the first call of `cycle` decides what the first entry of `in_deadlock` is. -/
theorem head_of_step (hs : Reached g s) (hstep : step g s = some s')
    (hu : s'.inDeadlock.head? = some u) :
    s.inDeadlock.head? = some u ∨ s.inDeadlock = [] ∧ Calls s u := by
  obtain ⟨hawake, hcases⟩ := step_cases hstep
  cases hcases with
  | root => exact .inl hu
  | skip => exact .inl hu
  | leave => exact .inl hu
  | @back x v es fs hframes hgrey =>
    have hcalls : Calls s v := ⟨hawake, hgrey, x, es, fs, hframes⟩
    have hsplit : (s.inDeadlock.head?).or (g.cycle s.visited s.freeRows v).1.head? = some u := by
      rw [← List.head?_append]
      exact hu
    cases hrecorded : s.inDeadlock with
    | nil =>
      rw [hcalls.head_recorded (inv_of_reached hs) hrecorded, hrecorded] at hsplit
      cases hsplit
      exact .inr ⟨rfl, hcalls⟩
    | cons y ys =>
      rw [hrecorded] at hsplit
      cases hsplit
      exact .inl rfl
  | enter => exact .inl hu
  | pass => exact .inl hu

/-- The first entry of `in_deadlock` is on a cycle. -/
theorem onCycle_of_head (hs : Reached g s) :
    ∀ u, s.inDeadlock.head? = some u → OnCycle g.succs u := by
  refine hs.invariant (P := fun s => ∀ u, s.inDeadlock.head? = some u → OnCycle g.succs u)
    (fun u hu => by cases hu) fun s _ s' hs hhead _ hstep u hu => ?_
  rcases head_of_step hs hstep hu with hold | ⟨-, hcalls⟩
  · exact hhead u hold
  · exact hcalls.onCycle (inv_of_reached hs)

/-- The state behind a call of `cycle`. -/
theorem Calls.exists_step (h : Calls s v) : ∃ s', step g s = some s' ∧
    s'.inDeadlock = s.inDeadlock ++ (g.cycle s.visited s.freeRows v).1 := by
  obtain ⟨hawake, hgrey, u, es, fs, hframes⟩ := h
  refine ⟨_, by simp only [step, hawake, hframes, hgrey]; rfl, rfl⟩

/-- The search of a graph with a cycle records an entry. -/
theorem exists_recorded (h : OnCycle g.succs u) : ∃ s, Reached g s ∧ s.inDeadlock ≠ [] := by
  obtain ⟨s, v, hs, hquiet, hcalls⟩ := exists_first_call h
  obtain ⟨s', hstep, hrecorded⟩ := hcalls.exists_step (g := g)
  refine ⟨s', .step (e := ()) hs trivial hstep, fun hnil => ?_⟩
  have hhead := hcalls.head_recorded (inv_of_reached hs) hquiet.empty
  rw [hnil] at hrecorded
  rw [(List.nil_eq_append_iff.mp hrecorded).2] at hhead
  cases hhead

/-- **Detection is sound and complete**: `cycle` is called if and only if the graph has a
    cycle, then an entry is recorded in `in_deadlock`, and the first entry is on a cycle. -/
theorem detectCycles_iff (g : WaitForGraph) :
    ((∃ s v, Reached g s ∧ Calls s v) ↔ ∃ u, OnCycle g.succs u) ∧
      ((∃ u, OnCycle g.succs u) → ∃ s, Reached g s ∧ s.inDeadlock ≠ []) ∧
      ∀ s u, Reached g s → s.inDeadlock.head? = some u → OnCycle g.succs u := by
  refine ⟨⟨?_, ?_⟩, fun ⟨u, hu⟩ => exists_recorded hu, fun s u hs => onCycle_of_head hs u⟩
  · rintro ⟨s, v, hs, hcalls⟩
    exact ⟨v, hcalls.onCycle (inv_of_reached hs)⟩
  · rintro ⟨u, hu⟩
    obtain ⟨s, v, hs, -, hcalls⟩ := exists_first_call hu
    exact ⟨s, v, hs, hcalls⟩

end Search

end TxFS
