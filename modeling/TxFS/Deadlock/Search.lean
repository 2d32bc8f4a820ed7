import TxFS.Lib.GuardedRun
import TxFS.Lib.Successors

/-!
# The Search for Cycles

`detect_cycles`, `dfs_visit` and `cycle` of `deadlock.c` on a wait-for graph. A node is named
by its position in the list `head_wait_graph`.

`dfs_visit` calls itself, so its calls in progress are kept as frames: one step is one turn
of its loop, a return, or one turn of the loop of `detect_cycles`. A call of `cycle` is part
of a step. Where it does not return, the search stops.

`in_deadlock` is the list of the nodes in its rows. `cycle` fills them over all of its calls and
never asks how many are left: where one is written behind the last row, the search stops too.
-/

namespace TxFS

open Successors

/-- `struct wait_graph_node`. -/
structure WaitGraphNode where
  txnId : Int
  /-- The transaction waits for this inode. -/
  inode : Int
  /-- `edge_to` of the edges, in their order. -/
  edge : List Nat
deriving DecidableEq, Repr

/-- The list from `head_wait_graph`. -/
abbrev WaitForGraph := List WaitGraphNode

/-- `visited`: 0 = white, 1 = grey, 2 = black. -/
inductive Color where
  | white
  | grey
  | black
deriving DecidableEq, Repr

/-- `ptr_wait->visited = c`. -/
def paint (visited : Nat → Color) (u : Nat) (c : Color) : Nat → Color :=
  Function.update visited u c

/-- How a call of `cycle` ends. -/
inductive CycleEnd where
  | returned
  /-- `in_cycle` is written behind its last entry. -/
  | outOfBounds
  /-- `in_deadlock` is written behind its last row. -/
  | rowsOutOfBounds
  /-- No edge leads to a grey node. -/
  | stuck
deriving DecidableEq, Repr

namespace WaitForGraph

/-- The edges of the node at a position. -/
def succs (g : WaitForGraph) (u : Nat) : List Nat := (g[u]?.map WaitGraphNode.edge).getD []

/-- `while (1) { if ((edge->edge_to)->visited == 1) ... }`. -/
def greyEdge (g : WaitForGraph) (visited : Nat → Color) (u : Nat) : Option Nat :=
  (g.succs u).find? fun v => visited v = .grey

/-- `struct wait_graph_node *in_cycle[50]`. -/
def inCycleSize : Nat := 50

/-- `int in_deadlock[50][2]`. -/
def inDeadlockSize : Nat := 50

/-- `while (ptr_cycle != in_cycle[0])` with `w` in `in_cycle[i]`, `free` entries behind it and
    `rows` rows of `in_deadlock` from `in_deadlock_index` on: the nodes that are recorded in
    `in_deadlock`, and the end. -/
def cycleLoop (g : WaitForGraph) (visited : Nat → Color) (start : Nat) :
    Nat → Nat → Nat → List Nat × CycleEnd
  | 0, rows, w =>
    match g.greyEdge visited w with
    | none => ([], .stuck)
    | some _ => if rows = 0 then ([], .rowsOutOfBounds) else ([w], .outOfBounds)
  | free + 1, rows, w =>
    match g.greyEdge visited w with
    | none => ([], .stuck)
    | some x =>
      if rows = 0 then ([], .rowsOutOfBounds)
      else if x = start then ([w], .returned)
      else
        let (recorded, e) := cycleLoop g visited start free (rows - 1) x
        (w :: recorded, e)

/-- `cycle`. -/
def cycle (g : WaitForGraph) (visited : Nat → Color) (rows v : Nat) : List Nat × CycleEnd :=
  g.cycleLoop visited v (inCycleSize - 1) rows v

end WaitForGraph

/-! ## The search as a machine -/

/-- A call of `dfs_visit`: `ptr_wait`, and the edges from `ptr_edge` on. -/
abbrev Frame := Nat × List Nat

/-- The state of `detect_cycles`. -/
structure Search where
  visited : Nat → Color
  /-- The calls of `dfs_visit`, the innermost one first. -/
  frames : List Frame
  /-- The nodes from `ptr_wait` on. -/
  nodes : List Nat
  /-- The nodes in the first `in_deadlock_index` rows. -/
  inDeadlock : List Nat
  /-- A call of `cycle` has not returned, or has written behind one of the arrays. -/
  hung : Bool

namespace Search

/-- The rows from `in_deadlock_index` on. -/
def freeRows (s : Search) : Nat := WaitForGraph.inDeadlockSize - s.inDeadlock.length

/-- The call of `detect_cycles`, all nodes unvisited. -/
def start (g : WaitForGraph) : Search where
  visited := fun _ => .white
  frames := []
  nodes := List.range g.length
  inDeadlock := []
  hung := false

/-- `ptr_edge = ptr_edge->next_edge` in the innermost call. -/
def nextEdge : List Frame → List Frame
  | [] => []
  | (u, es) :: fs => (u, es.tail) :: fs

/-- One step. -/
def step (g : WaitForGraph) (s : Search) : Option Search :=
  if s.hung then none
  else
    match s.frames with
    | [] =>
      match s.nodes with
      | [] => none
      | u :: us =>
        -- `if (ptr_wait->visited == 0) dfs_visit(ptr_wait);`
        if s.visited u = .white then
          some { s with visited := paint s.visited u .grey, frames := [(u, g.succs u)], nodes := us }
        else some { s with nodes := us }
    | (u, []) :: fs => some { s with visited := paint s.visited u .black, frames := nextEdge fs }
    | (u, v :: es) :: fs =>
      match s.visited v with
      | .grey =>
        let (recorded, e) := g.cycle s.visited s.freeRows v
        some { s with
          frames := (u, es) :: fs
          inDeadlock := s.inDeadlock ++ recorded
          hung := e ≠ .returned }
      | .white =>
        some { s with
          visited := paint s.visited v .grey
          frames := (v, g.succs v) :: (u, v :: es) :: fs }
      | .black => some { s with frames := (u, es) :: fs }

/-- At most `n` steps. -/
def run (g : WaitForGraph) : Nat → Search → Search
  | 0, s => s
  | n + 1, s =>
    match step g s with
    | some s' => run g n s'
    | none => s

/-- The states of a call of `detect_cycles`. -/
abbrev Reached (g : WaitForGraph) : Search → Prop :=
  GuardedRun.Reachable (start g) fun s (_ : Unit) => step g s

/-- The next step calls `cycle` with `v`: the innermost `dfs_visit` looks at an edge to the
    grey node `v`. -/
def Calls (s : Search) (v : Nat) : Prop :=
  s.hung = false ∧ s.visited v = .grey ∧ ∃ u es fs, s.frames = (u, v :: es) :: fs

/-! ## What a step does -/

variable {g : WaitForGraph} {s s' : Search} {u v : Nat} {f : Frame} {fs : List Frame}

/-- The steps by what they do. -/
inductive Step (g : WaitForGraph) (s : Search) : Search → Prop where
  /-- `detect_cycles` calls `dfs_visit`. -/
  | root {u : Nat} {us : List Nat} :
      s.frames = [] → s.nodes = u :: us → s.visited u = .white →
      Step g s { s with
        visited := paint s.visited u .grey, frames := [(u, g.succs u)], nodes := us }
  /-- `detect_cycles` skips a node. -/
  | skip {u : Nat} {us : List Nat} :
      s.frames = [] → s.nodes = u :: us → s.visited u ≠ .white → Step g s { s with nodes := us }
  /-- `dfs_visit` returns. -/
  | leave {u : Nat} {fs : List Frame} :
      s.frames = (u, []) :: fs →
      Step g s { s with visited := paint s.visited u .black, frames := nextEdge fs }
  /-- A back edge. -/
  | back {u v : Nat} {es : List Nat} {fs : List Frame} :
      s.frames = (u, v :: es) :: fs → s.visited v = .grey →
      Step g s { s with
        frames := (u, es) :: fs
        inDeadlock := s.inDeadlock ++ (g.cycle s.visited s.freeRows v).1
        hung := (g.cycle s.visited s.freeRows v).2 ≠ .returned }
  /-- `dfs_visit` calls itself. -/
  | enter {u v : Nat} {es : List Nat} {fs : List Frame} :
      s.frames = (u, v :: es) :: fs → s.visited v = .white →
      Step g s { s with
        visited := paint s.visited v .grey, frames := (v, g.succs v) :: (u, v :: es) :: fs }
  /-- An edge to a black node. -/
  | pass {u v : Nat} {es : List Nat} {fs : List Frame} :
      s.frames = (u, v :: es) :: fs → s.visited v = .black →
      Step g s { s with frames := (u, es) :: fs }

theorem step_cases (h : step g s = some s') : s.hung = false ∧ Step g s s' := by
  unfold step at h
  split at h
  · cases h
  · rename_i hhung
    refine ⟨by simpa using hhung, ?_⟩
    split at h
    · rename_i hframes
      split at h
      · cases h
      · rename_i u us hnodes
        split at h
        · rename_i hwhite
          cases h
          exact .root hframes hnodes hwhite
        · rename_i hnot
          cases h
          exact .skip hframes hnodes hnot
    · rename_i u fs hframes
      cases h
      exact .leave hframes
    · rename_i u v es fs hframes
      split at h
      · rename_i hgrey
        cases h
        exact .back hframes hgrey
      · rename_i hwhite
        cases h
        exact .enter hframes hwhite
      · rename_i hblack
        cases h
        exact .pass hframes hblack

/-- A step is possible until the search hangs or is through. -/
theorem step_eq_none (h : step g s = none) : s.hung = true ∨ s.frames = [] ∧ s.nodes = [] := by
  unfold step at h
  split at h
  · rename_i hhung
    exact .inl hhung
  · split at h
    · rename_i hframes
      split at h
      · rename_i hnodes
        exact .inr ⟨hframes, hnodes⟩
      · split at h <;> cases h
    · cases h
    · split at h <;> cases h

theorem run_reached {n : Nat} (hs : Reached g s) : Reached g (run g n s) := by
  induction n generalizing s with
  | zero => exact hs
  | succ n ih =>
    rw [run]
    cases hstep : step g s with
    | none => exact hs
    | some s' => exact ih (.step (e := ()) hs trivial hstep)

end Search

end TxFS
