import TxFS.Deadlock.Search

/-!
# The Recursion Stack

What the calls of `dfs_visit` in progress know: the grey nodes are the nodes of these calls,
each call waits at its edge to the node of the next one, and behind it are edges to black
nodes and to nodes further down the stack.

`Stacked g P` carries any property `P` of the edges that a call has done.
-/

namespace TxFS

open Successors

namespace Search

variable {g : WaitForGraph} {s s' : Search} {u v : Nat} {es : List Nat} {f : Frame}
  {fs : List Frame} {P Q : List Nat → Nat → Prop}

/-! ## Frames -/

/-- The nodes of the frames. -/
def stack (fs : List Frame) : List Nat := fs.map Prod.fst

@[simp] theorem stack_cons : stack (f :: fs) = f.1 :: stack fs := rfl

theorem stack_append {fs' : List Frame} : stack (fs ++ fs') = stack fs ++ stack fs' :=
  List.map_append

@[simp] theorem stack_nextEdge : stack (nextEdge fs) = stack fs := by
  cases fs <;> rfl

/-- Each frame has done the edges in front of `ptr_edge`, of which `P` holds together with the
    stack up to the frame, and its `ptr_edge` leads to the node of the frame above it. -/
def Stacked (g : WaitForGraph) (P : List Nat → Nat → Prop) : List Frame → Prop
  | [] => True
  | f :: fs =>
    (∃ done, g.succs f.1 = done ++ f.2 ∧ ∀ d ∈ done, P (f.1 :: stack fs) d) ∧
      (∀ below ∈ fs.head?, below.2.head? = some f.1) ∧ Stacked g P fs

namespace Stacked

theorem mono (h : Stacked g P fs) (hPQ : ∀ us d, P us d → Q us d) : Stacked g Q fs := by
  induction fs with
  | nil => trivial
  | cons f fs ih =>
    obtain ⟨⟨done, hdone, hP⟩, hlink, hfs⟩ := h
    exact ⟨⟨done, hdone, fun d hd => hPQ _ d (hP d hd)⟩, hlink, ih hfs⟩

/-- `dfs_visit` begins. -/
theorem push (h : Stacked g P fs) (hlink : ∀ below ∈ fs.head?, below.2.head? = some u) :
    Stacked g P ((u, g.succs u) :: fs) :=
  ⟨⟨[], rfl, by simp⟩, hlink, h⟩

/-- One edge is done. -/
theorem turn (h : Stacked g P ((u, v :: es) :: fs)) (hv : P (u :: stack fs) v) :
    Stacked g P ((u, es) :: fs) := by
  obtain ⟨⟨done, hdone, hP⟩, hlink, hfs⟩ := h
  refine ⟨⟨done ++ [v], by simpa using hdone, fun d hd => ?_⟩, hlink, hfs⟩
  rcases List.mem_append.mp hd with hd | hd
  · exact hP d hd
  · exact List.mem_singleton.mp hd ▸ hv

/-- `dfs_visit` returns: the edge of the caller is done. -/
theorem leave (h : Stacked g P ((u, es) :: fs)) (hu : ∀ us, P us u) :
    Stacked g P (nextEdge fs) := by
  obtain ⟨-, hlink, hfs⟩ := h
  cases fs with
  | nil => trivial
  | cons w fs =>
    obtain ⟨w, ws⟩ := w
    have hhead : ws.head? = some u := hlink (w, ws) rfl
    cases ws with
    | nil => cases hhead
    | cons x ws =>
      cases Option.some.inj hhead
      exact hfs.turn (hu _)

/-- The edges of the innermost call. -/
theorem top_edges (h : Stacked g P (f :: fs)) :
    ∃ done, g.succs f.1 = done ++ f.2 ∧ ∀ d ∈ done, P (f.1 :: stack fs) d := h.1

/-- The part of the stack from a frame down. -/
theorem below {above : List Frame} (h : Stacked g P (above ++ fs)) : Stacked g P fs := by
  induction above with
  | nil => exact h
  | cons f above ih => exact ih h.2.2

/-- The edges of a frame. -/
theorem edges {above : List Frame} (h : Stacked g P (above ++ f :: fs)) :
    ∃ done, g.succs f.1 = done ++ f.2 ∧ ∀ d ∈ done, P (f.1 :: stack fs) d := h.below.1

/-- A frame waits at its edge to the frame above it. -/
theorem link {above : List Frame} {f' : Frame} (h : Stacked g P (above ++ f' :: f :: fs)) :
    f.2.head? = some f'.1 := h.below.2.1 f rfl

/-- There is a way up the stack. -/
theorem reaches_top (h : Stacked g P (f :: fs)) {w : Nat} (hw : w ∈ stack (f :: fs)) :
    Relation.ReflTransGen (Edge g.succs) w f.1 := by
  induction fs generalizing f with
  | nil =>
    rw [stack_cons, List.mem_cons] at hw
    rcases hw with rfl | hw
    · exact .refl
    · cases hw
  | cons f' fs ih =>
    rw [stack_cons, List.mem_cons] at hw
    rcases hw with rfl | hw
    · exact .refl
    · have hhead : f'.2.head? = some f.1 := h.2.1 f' rfl
      obtain ⟨done, hdone, -⟩ := h.2.2.top_edges
      have hedge : Edge g.succs f'.1 f.1 := by
        rw [Edge, hdone]
        exact List.mem_append_right _ (List.mem_of_head? hhead)
      exact (ih h.2.2 hw).tail hedge

end Stacked

/-! ## The invariant -/

/-- What holds of a node behind an edge that a call has done: it has been visited, and if it
    is still in progress, then it is on the stack `us` up to this call. -/
def Seen (visited : Nat → Color) (us : List Nat) (d : Nat) : Prop :=
  visited d ≠ .white ∧ (visited d = .grey → d ∈ us)

/-- The grey nodes are the nodes of the calls in progress. -/
structure Inv (g : WaitForGraph) (s : Search) : Prop where
  grey : ∀ u, s.visited u = .grey ↔ u ∈ stack s.frames
  nodup : (stack s.frames).Nodup
  stacked : Stacked g (Seen s.visited) s.frames

theorem inv_start : Inv g (start g) where
  grey u := by simp [start, stack]
  nodup := List.nodup_nil
  stacked := trivial

/-- A white node is painted grey and pushed. -/
theorem Inv.enter (h : Inv g s) (hv : s.visited v = .white)
    (hlink : ∀ below ∈ s.frames.head?, below.2.head? = some v) (nodes : List Nat) :
    Inv g { s with
      visited := paint s.visited v .grey, frames := (v, g.succs v) :: s.frames, nodes := nodes } where
  grey u := by
    by_cases huv : u = v
    · subst huv
      simp [paint]
    · simp [paint, huv, h.grey u]
  nodup := by
    refine List.nodup_cons.mpr ⟨fun hmem => ?_, h.nodup⟩
    rw [(h.grey v).mpr hmem] at hv
    cases hv
  stacked := by
    refine (h.stacked.mono fun us d hd => ?_).push hlink
    have hdv : d ≠ v := fun hdv => hd.1 (hdv ▸ hv)
    have hsame : paint s.visited v .grey d = s.visited d := Function.update_of_ne hdv ..
    show paint s.visited v .grey d ≠ .white ∧ (paint s.visited v .grey d = .grey → d ∈ us)
    rw [hsame]
    exact hd

theorem Inv.step (h : Inv g s) (hstep : Step g s s') : Inv g s' := by
  cases hstep with
  | @root u us hframes hnodes hwhite =>
    have henter := h.enter hwhite (by simp [hframes]) us
    rw [hframes] at henter
    exact henter
  | skip => exact ⟨h.grey, h.nodup, h.stacked⟩
  | @leave u fs hframes =>
    obtain ⟨hgrey, hnodup, hstacked⟩ := h
    rw [hframes] at hgrey hnodup hstacked
    rw [stack_cons, List.nodup_cons] at hnodup
    refine ⟨fun w => ?_, by simpa using hnodup.2, ?_⟩
    · by_cases hwu : w = u
      · subst hwu
        simpa [paint] using hnodup.1
      · simp [paint, hwu, hgrey w]
    · refine (hstacked.mono fun us d hd => ?_).leave fun us => ?_
      · by_cases hdu : d = u
        · subst hdu
          simp [Seen, paint]
        · simpa [Seen, paint, hdu] using hd
      · simp [Seen, paint]
  | @back u v es fs hframes hgrey =>
    obtain ⟨hg, hnodup, hstacked⟩ := h
    rw [hframes] at hg hnodup hstacked
    have hseen : Seen s.visited (u :: stack fs) v := by
      refine ⟨by simp [hgrey], fun _ => ?_⟩
      simpa using (hg v).mp hgrey
    exact ⟨hg, hnodup, hstacked.turn hseen⟩
  | @enter u v es fs hframes hwhite =>
    have henter := h.enter hwhite (by simp [hframes]) s.nodes
    rw [hframes] at henter
    exact henter
  | @pass u v es fs hframes hblack =>
    obtain ⟨hg, hnodup, hstacked⟩ := h
    rw [hframes] at hg hnodup hstacked
    have hseen : Seen s.visited (u :: stack fs) v := ⟨by simp [hblack], by simp [hblack]⟩
    exact ⟨hg, hnodup, hstacked.turn hseen⟩

theorem inv_of_reached (h : Reached g s) : Inv g s :=
  h.invariant inv_start fun _ _ _ _ hinv _ hstep => hinv.step (step_cases hstep).2

/-! ## Calls of `cycle` -/

/-- **The node of a back edge is on a cycle**: up the stack and back over the edge. -/
theorem Calls.onCycle (hinv : Inv g s) (h : Calls s v) : OnCycle g.succs v := by
  obtain ⟨-, hgrey, u, es, fs, hframes⟩ := h
  have hmem := (hinv.grey v).mp hgrey
  have hstacked := hinv.stacked
  rw [hframes] at hmem hstacked
  have hup := hstacked.reaches_top hmem
  obtain ⟨done, hdone, -⟩ := hstacked.top_edges
  have hedge : Edge g.succs u v := by
    rw [Edge, hdone]
    simp
  exact Relation.TransGen.tail' hup hedge

/-- While `cycle` is called, every frame waits at an edge to a grey node. -/
theorem Calls.head_grey (hinv : Inv g s) (h : Calls s v) {above : List Frame}
    (hframes : s.frames = above ++ f :: fs) :
    ∃ x, f.2.head? = some x ∧ s.visited x = .grey := by
  obtain ⟨-, hgrey, u, es, fs', hframes'⟩ := h
  rcases List.eq_nil_or_concat above with rfl | ⟨above, f', rfl⟩
  · rw [hframes', List.nil_append, List.cons.injEq] at hframes
    rw [← hframes.1]
    exact ⟨v, rfl, hgrey⟩
  · have hstacked := hinv.stacked
    rw [hframes, List.concat_eq_append, List.append_assoc, List.singleton_append] at hstacked
    refine ⟨f'.1, hstacked.link, (hinv.grey _).mpr ?_⟩
    rw [hframes]
    simp [stack]

/-- Where `cycle` goes on from a node of the stack: to the first grey node in front of
    `ptr_edge`, or else to the node of the next frame. -/
theorem Calls.greyEdge_eq (hinv : Inv g s) (h : Calls s v) {above : List Frame}
    (hframes : s.frames = above ++ f :: fs) {done : List Nat} (hdone : g.succs f.1 = done ++ f.2) :
    g.greyEdge s.visited f.1 = (done.find? fun x => s.visited x = .grey).or f.2.head? := by
  obtain ⟨x, hx, hgrey⟩ := h.head_grey hinv hframes
  have hrest : (f.2.find? fun y => s.visited y = .grey) = f.2.head? := by
    cases hf : f.2 with
    | nil => simp [hf] at hx
    | cons y ys =>
      rw [hf, List.head?_cons, Option.some.injEq] at hx
      subst hx
      simp [hgrey]
  rw [WaitForGraph.greyEdge, hdone, List.find?_append, hrest]

end Search

end TxFS
