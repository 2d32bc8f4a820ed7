import Mathlib.Data.List.Perm.Subperm
import TxFS.Deadlock.Stack

/-!
# Extraction of a Cycle

`cycle` goes from its start to the first grey node, and so on, until it is back at the start.
On the recursion stack this is a walk up, as each node has an edge to the next one, but for
the nodes that have an earlier edge to a grey node: from these the walk goes down again.

The walk comes back exactly if its start is between such a node and the node that it leads
down to, with no other such node in between. It takes one row of `in_deadlock` for each node
from the one to the other.
-/

namespace TxFS

open Successors

namespace WaitForGraph

variable {g : WaitForGraph} {visited : Nat → Color} {start w free rows : Nat} {l : List Nat}

/-- `cycle` returns if the walk does, and if `in_cycle` and `in_deadlock` have the entries for
    it. -/
theorem cycleLoop_returned :
    g.cycleLoop visited start free rows w = (l, .returned) ↔
      ReturnsAlong (g.greyEdge visited) start w l ∧ l.length ≤ free ∧ l.length ≤ rows := by
  -- the induction is on the entries of `in_cycle` that are free
  induction free generalizing w l rows with
  | zero =>
    have hnot : g.cycleLoop visited start 0 rows w ≠ (l, .returned) := by
      rw [cycleLoop]
      split
      · simp
      · split <;> simp
    refine ⟨fun h => absurd h hnot, fun ⟨hret, hlen, _⟩ => ?_⟩
    cases hret <;> simp at hlen
  | succ free ih =>
    rw [cycleLoop]
    cases hw : g.greyEdge visited w with
    | none =>
      refine ⟨fun h => by simp at h, fun ⟨hret, _⟩ => ?_⟩
      cases hret with
      | last hlast => cases hw.symm.trans hlast
      | step hstep => cases hw.symm.trans hstep
    | some x =>
      rcases Nat.eq_zero_or_pos rows with rfl | hrows
      · -- no row is left for the first node
        refine ⟨fun h => by simp at h, fun ⟨hret, _, hlen⟩ => ?_⟩
        cases hret <;> simp at hlen
      simp only [if_neg (Nat.pos_iff_ne_zero.mp hrows)]
      by_cases hx : x = start
      · -- back at the start
        subst hx
        have hone : ReturnsAlong (g.greyEdge visited) x w [w] := .last hw
        simp only [if_true, Prod.mk.injEq, and_true]
        constructor
        · rintro rfl
          exact ⟨hone, by simp, hrows⟩
        · rintro ⟨hret, -⟩
          exact hone.unique hret
      · simp only [if_neg hx, Prod.mk.injEq]
        constructor
        · rintro ⟨rfl, hend⟩
          obtain ⟨hret, hlen, hlen'⟩ := ih.mp (Prod.ext rfl hend)
          exact ⟨.step hw hx hret, Nat.succ_le_succ hlen,
            (Nat.succ_le_succ hlen').trans_eq (Nat.sub_one_add_one_eq_of_pos hrows)⟩
        · rintro ⟨hret, hlen, hlen'⟩
          cases hret with
          | last hlast => exact absurd (Option.some.inj (hw.symm.trans hlast)) hx
          | step hstep _ hret =>
            cases Option.some.inj (hw.symm.trans hstep)
            have hloop := ih.mpr ⟨hret, Nat.le_of_succ_le_succ hlen, Nat.le_sub_one_of_lt hlen'⟩
            rw [hloop]
            exact ⟨rfl, rfl⟩

end WaitForGraph

namespace Search

variable {g : WaitForGraph} {s : Search} {v a b : Nat} {f f' top : Frame}
  {fs above below : List Frame}

/-! ## Straight frames -/

/-- The edges of a call in front of `ptr_edge`. -/
def doneEdges (g : WaitForGraph) (f : Frame) : List Nat :=
  (g.succs f.1).take ((g.succs f.1).length - f.2.length)

/-- No edge in front of `ptr_edge` leads to a grey node. -/
def Straight (g : WaitForGraph) (visited : Nat → Color) (f : Frame) : Prop :=
  ∀ d ∈ doneEdges g f, visited d ≠ .grey

theorem doneEdges_eq {done : List Nat} (h : g.succs f.1 = done ++ f.2) : doneEdges g f = done := by
  rw [doneEdges, h, List.length_append, Nat.add_sub_cancel, List.take_left]

/-- A stretch of the recursion stack, of `n` nodes with `v` among them, goes up from some node
    by straight frames, and from its highest node the first edge to a grey node leads back to
    the lowest. -/
def OnLoop (g : WaitForGraph) (s : Search) (v n : Nat) : Prop :=
  ∃ above top stretch below bottom,
    s.frames = above ++ top :: stretch ++ below ∧ v ∈ stack (top :: stretch) ∧
      (top :: stretch).length = n ∧ (∀ f ∈ stretch, Straight g s.visited f) ∧
      (stack (top :: stretch)).getLast? = some bottom ∧ g.greyEdge s.visited top.1 = some bottom

/-! ## Where the walk leads -/

/-- The walk stays on the stack. -/
theorem Inv.mem_stack_of_greyEdge (hinv : Inv g s) (h : g.greyEdge s.visited a = some b) :
    b ∈ stack s.frames := by
  rw [← hinv.grey]
  simpa using List.find?_some h

/-- A straight frame leads up. -/
theorem Calls.greyEdge_of_straight (hinv : Inv g s) (hcalls : Calls s v)
    (hframes : s.frames = above ++ f' :: f :: fs) (hf : Straight g s.visited f) :
    g.greyEdge s.visited f.1 = some f'.1 := by
  have hframes' : s.frames = (above ++ [f']) ++ f :: fs := by simp [hframes]
  have hstacked := hinv.stacked
  have hstacked' := hinv.stacked
  rw [hframes] at hstacked
  rw [hframes'] at hstacked'
  obtain ⟨done, hdone, -⟩ := hstacked'.edges
  have hnone : (done.find? fun x => s.visited x = .grey) = none := by
    rw [List.find?_eq_none]
    intro d hd
    rw [← doneEdges_eq hdone] at hd
    simpa using hf d hd
  rw [hcalls.greyEdge_eq hinv hframes' hdone, hnone, Option.none_or, hstacked.link]

/-- Any frame leads up or down. -/
theorem Calls.greyEdge_cases (hinv : Inv g s) (hcalls : Calls s v)
    (hframes : s.frames = above ++ f' :: f :: fs) (h : g.greyEdge s.visited f.1 = some b) :
    b = f'.1 ∨ b ∈ stack (f :: fs) := by
  have hframes' : s.frames = (above ++ [f']) ++ f :: fs := by simp [hframes]
  have hstacked := hinv.stacked
  have hstacked' := hinv.stacked
  rw [hframes] at hstacked
  rw [hframes'] at hstacked'
  obtain ⟨done, hdone, hseen⟩ := hstacked'.edges
  rw [hcalls.greyEdge_eq hinv hframes' hdone, hstacked.link, Option.or_eq_some_iff] at h
  rcases h with hfind | ⟨-, hup⟩
  · have hgrey : s.visited b = .grey := by simpa using List.find?_some hfind
    exact .inr ((hseen b (List.mem_of_find?_eq_some hfind)).2 hgrey)
  · exact .inl (Option.some.inj hup).symm

/-- A frame that is not straight leads down. -/
theorem Calls.greyEdge_of_not_straight (hinv : Inv g s) (hcalls : Calls s v)
    (hframes : s.frames = above ++ f :: fs) (hf : ¬ Straight g s.visited f)
    (h : g.greyEdge s.visited f.1 = some b) : b ∈ stack (f :: fs) := by
  have hstacked := hinv.stacked
  rw [hframes] at hstacked
  obtain ⟨done, hdone, hseen⟩ := hstacked.edges
  rw [hcalls.greyEdge_eq hinv hframes hdone] at h
  cases hfind : done.find? fun x => s.visited x = .grey with
  | none =>
    refine absurd (fun d hd => ?_) hf
    rw [doneEdges_eq hdone] at hd
    simpa using List.find?_eq_none.mp hfind d hd
  | some x =>
    rw [hfind, Option.some_or, Option.some.injEq] at h
    subst h
    have hgrey : s.visited x = .grey := by simpa using List.find?_some hfind
    exact (hseen x (List.mem_of_find?_eq_some hfind)).2 hgrey

/-- **The walk does not get past a frame that is not straight.** -/
theorem Calls.closed_of_not_straight (hinv : Inv g s) (hcalls : Calls s v)
    (hframes : s.frames = above ++ f :: fs) (hf : ¬ Straight g s.visited f)
    (ha : a ∈ stack (f :: fs)) (h : g.greyEdge s.visited a = some b) : b ∈ stack (f :: fs) := by
  obtain ⟨x, hx, rfl⟩ := List.mem_map.mp ha
  obtain ⟨front, rest, hsplit⟩ := List.append_of_mem hx
  rcases List.eq_nil_or_concat front with rfl | ⟨front, y, rfl⟩
  · cases hsplit
    exact hcalls.greyEdge_of_not_straight hinv hframes hf h
  · -- below the frame a step leads up by one or down
    rw [List.concat_eq_append, List.append_assoc, List.singleton_append] at hsplit
    have hframes' : s.frames = (above ++ front) ++ y :: x :: rest := by
      rw [hframes, hsplit, List.append_assoc]
    rw [hsplit]
    rcases hcalls.greyEdge_cases hinv hframes' h with rfl | hdown
    · simp [stack]
    · rw [stack_append, stack_cons]
      exact List.mem_append_right _ (List.mem_cons_of_mem _ hdown)

/-! ## From a loop the walk returns -/

/-- The walk goes up straight frames from `d` to `c`, and from there back to `v`. -/
theorem Calls.returns_from_below (hinv : Inv g s) (hcalls : Calls s v) {c d : Frame}
    {between : List Frame} {l : List Nat} (hframes : s.frames = above ++ c :: between ++ d :: below)
    (hstraight : ∀ f ∈ between ++ [d], Straight g s.visited f) (hv : v ∉ stack (c :: between))
    (hret : ReturnsAlong (g.greyEdge s.visited) v c.1 l) :
    ∃ l', ReturnsAlong (g.greyEdge s.visited) v d.1 l' ∧
      l'.length = l.length + between.length + 1 := by
  induction between generalizing above c l with
  | nil =>
    have hframes' : s.frames = above ++ c :: d :: below := by simpa using hframes
    have hup := hcalls.greyEdge_of_straight hinv hframes' (hstraight d (by simp))
    exact ⟨_, .step hup (fun heq => hv (by simp [heq])) hret, rfl⟩
  | cons e between ih =>
    have hframes' : s.frames = above ++ c :: e :: (between ++ d :: below) := by
      simpa using hframes
    have hframes'' : s.frames = (above ++ [c]) ++ e :: between ++ d :: below := by
      simpa using hframes
    have hup := hcalls.greyEdge_of_straight hinv hframes' (hstraight e (by simp))
    obtain ⟨l', hret', hlen⟩ := ih hframes'' (fun f hf => hstraight f (List.mem_cons_of_mem _ hf))
      (fun hmem => hv (List.mem_cons_of_mem _ hmem)) (.step hup (fun heq => hv (by simp [heq])) hret)
    refine ⟨l', hret', ?_⟩
    rw [hlen, List.length_cons, List.length_cons]
    omega

/-- **From a loop the walk returns**: it goes up to the highest node, back to the lowest one and
    up to its start, once round the loop. -/
theorem Calls.returns_of_onLoop (hinv : Inv g s) (hcalls : Calls s v) {n : Nat}
    (h : OnLoop g s v n) : ∃ l, ReturnsAlong (g.greyEdge s.visited) v v l ∧ l.length = n := by
  obtain ⟨above, top, stretch, below, bottom, hframes, hv, rfl, hstraight, hlast, hback⟩ := h
  have hnodup := hinv.nodup
  rw [hframes, stack_append, stack_append] at hnodup
  have hnd : (stack (top :: stretch)).Nodup :=
    (List.nodup_append.mp (List.nodup_append.mp hnodup).1).2.1
  obtain ⟨x, hx, rfl⟩ := List.mem_map.mp hv
  obtain ⟨higher, lower, hsplit⟩ := List.append_of_mem hx
  -- every frame below the highest one is straight
  have htail : ∀ p q, top :: stretch = p ++ q → p ≠ [] → ∀ f ∈ q, Straight g s.visited f := by
    intro p q hpq hne f hf
    cases p with
    | nil => exact absurd rfl hne
    | cons t p =>
      rw [List.cons_append, List.cons.injEq] at hpq
      exact hstraight f (hpq.2 ▸ List.mem_append_right _ hf)
  have htotal : (top :: stretch).length = higher.length + 1 + lower.length := by
    rw [hsplit, List.length_append, List.length_cons]
    omega
  rw [hsplit] at hframes hlast hnd
  -- from the lowest node the walk goes up to `v`
  have hbottom : bottom ≠ x.1 → ∃ l, ReturnsAlong (g.greyEdge s.visited) x.1 bottom l ∧
      l.length = lower.length := by
    intro hne
    cases lower with
    | nil =>
      rw [stack_append, stack_cons, List.getLast?_append] at hlast
      exact absurd (Option.some.inj hlast).symm hne
    | cons y lower =>
      have hup : g.greyEdge s.visited y.1 = some x.1 := by
        have hframes' : s.frames = (above ++ higher) ++ x :: y :: (lower ++ below) := by
          simp [hframes]
        exact hcalls.greyEdge_of_straight hinv hframes'
          (htail (higher ++ [x]) (y :: lower) (by simp [hsplit]) (by simp) y (List.mem_cons_self ..))
      rcases List.eq_nil_or_concat lower with rfl | ⟨between, z, rfl⟩
      · -- one frame below `v`: its node leads to `v`
        rw [stack_append, stack_cons, stack_cons, List.getLast?_append] at hlast
        cases Option.some.inj hlast
        exact ⟨_, .last hup, rfl⟩
      · have hz : z.1 = bottom := by
          have hend : stack (higher ++ x :: y :: between.concat z) =
              stack (higher ++ x :: y :: between) ++ [z.1] := by simp [stack]
          rw [hend, List.getLast?_append] at hlast
          exact Option.some.inj hlast
        have hframes' : s.frames = (above ++ higher ++ [x]) ++ y :: between ++ z :: below := by
          simp [hframes]
        -- the walk must not come to its start before its end
        have hx : x.1 ∉ stack (y :: between) := by
          have hnd' : (stack higher ++ x.1 :: (stack (y :: between) ++ [z.1])).Nodup := by
            simpa [stack] using hnd
          exact fun hmem => (List.nodup_cons.mp (List.nodup_append.mp hnd').2.1).1
            (List.mem_append_left _ hmem)
        rw [← hz]
        obtain ⟨l, hl, hlen⟩ := hcalls.returns_from_below hinv hframes'
          (fun f hf => htail (higher ++ [x, y]) (between ++ [z]) (by simp [hsplit]) (by simp) f hf)
          hx (.last hup)
        refine ⟨l, hl, ?_⟩
        simp only [hlen, List.length_cons, List.length_nil, List.concat_eq_append,
          List.length_append]
        omega
  -- from the highest node it goes back to the lowest one
  have htop : ∃ l, ReturnsAlong (g.greyEdge s.visited) x.1 top.1 l ∧
      l.length = lower.length + 1 := by
    by_cases hbx : bottom = x.1
    · refine ⟨_, .last (hbx ▸ hback), ?_⟩
      -- the start is the lowest node itself
      rcases List.eq_nil_or_concat lower with rfl | ⟨between, z, rfl⟩
      · rfl
      · have hz : z.1 = x.1 := by
          have hend : stack (higher ++ x :: between.concat z) =
              stack (higher ++ x :: between) ++ [z.1] := by simp [stack]
          rw [hend, List.getLast?_append] at hlast
          exact (Option.some.inj hlast).trans hbx
        have hnd' : (stack higher ++ x.1 :: (stack between ++ [z.1])).Nodup := by
          simpa [stack] using hnd
        have hnot := (List.nodup_cons.mp (List.nodup_append.mp hnd').2.1).1
        exact absurd (List.mem_append_right _ (hz ▸ List.mem_cons_self ..)) hnot
    · obtain ⟨l, hl, hlen⟩ := hbottom hbx
      exact ⟨_, .step hback hbx hl, congrArg (· + 1) hlen⟩
  cases higher with
  | nil =>
    -- `v` is the highest node itself
    rw [List.nil_append, List.cons.injEq] at hsplit
    obtain ⟨l, hl, hlen⟩ := htop
    refine ⟨l, hsplit.1 ▸ hl, ?_⟩
    rw [hlen, htotal, List.length_nil]
    omega
  | cons t higher =>
    -- from `v` up to the highest node, and on from there
    obtain ⟨l, hl, hlen⟩ := htop
    rw [List.cons_append, List.cons.injEq] at hsplit
    obtain ⟨rfl, hsplit⟩ := hsplit
    have hframes' : s.frames = above ++ top :: higher ++ x :: (lower ++ below) := by
      simp [hframes]
    have hx : x.1 ∉ stack (top :: higher) := by
      intro hmem
      rw [stack_append, stack_cons] at hnd
      exact (List.nodup_append.mp hnd).2.2 x.1 hmem x.1 (List.mem_cons_self ..) rfl
    obtain ⟨l', hl', hlen'⟩ := hcalls.returns_from_below hinv hframes'
      (fun f hf => hstraight f (by
        rw [hsplit]
        rcases List.mem_append.mp hf with hf | hf
        · exact List.mem_append_left _ hf
        · exact List.mem_append_right _ (List.mem_singleton.mp hf ▸ List.mem_cons_self ..)))
      hx hl
    refine ⟨l', hl', ?_⟩
    rw [hlen', hlen, htotal, List.length_cons]
    omega

/-! ## A walk that returns is on a loop -/

/-- A stretch that goes up by straight frames and back from its top is closed. -/
theorem Calls.closed_of_straight (hinv : Inv g s) (hcalls : Calls s v) {stretch : List Frame}
    {bottom : Nat} (hframes : s.frames = above ++ top :: stretch ++ below)
    (hstraight : ∀ f ∈ stretch, Straight g s.visited f)
    (hback : g.greyEdge s.visited top.1 = some bottom) (hbottom : bottom ∈ stack (top :: stretch))
    (ha : a ∈ stack (top :: stretch)) (h : g.greyEdge s.visited a = some b) :
    b ∈ stack (top :: stretch) := by
  obtain ⟨x, hx, rfl⟩ := List.mem_map.mp ha
  obtain ⟨front, rest, hsplit⟩ := List.append_of_mem hx
  rcases List.eq_nil_or_concat front with rfl | ⟨front, y, rfl⟩
  · cases hsplit
    cases Option.some.inj (hback.symm.trans h)
    exact hbottom
  · rw [List.concat_eq_append, List.append_assoc, List.singleton_append] at hsplit
    have hframes' : s.frames = (above ++ front) ++ y :: x :: (rest ++ below) := by
      rw [hframes, hsplit]
      simp
    have hxs : x ∈ stretch := by
      cases front with
      | nil =>
        rw [List.nil_append, List.cons.injEq] at hsplit
        rw [hsplit.2]
        exact List.mem_cons_self ..
      | cons t front =>
        rw [List.cons_append, List.cons.injEq] at hsplit
        rw [hsplit.2]
        simp
    cases Option.some.inj ((hcalls.greyEdge_of_straight hinv hframes' (hstraight x hxs)).symm.trans h)
    rw [hsplit]
    simp [stack]

theorem Calls.onLoop_of_returns (hinv : Inv g s) (hcalls : Calls s v) {l : List Nat}
    (h : ReturnsAlong (g.greyEdge s.visited) v v l) : ∃ n, OnLoop g s v n := by
  have hvl : v ∈ l := List.mem_of_head? h.head?_eq
  have hvstack : v ∈ stack s.frames := (hinv.grey v).mp hcalls.2.1
  have hmem : ∀ a ∈ l, a ∈ stack s.frames :=
    (h.mem_of_closed hvstack fun _ _ _ hab => hinv.mem_stack_of_greyEdge hab).1
  -- the highest node of the walk, and where it leads
  obtain ⟨top, above, rest, hframes, habove, htop⟩ :
      ∃ top, FirstWith (fun f : Frame => f.1 ∈ l) s.frames top := by
    obtain ⟨f, hf, hfv⟩ := List.mem_map.mp hvstack
    exact exists_firstWith ⟨f, hf, show f.1 ∈ l from hfv ▸ hvl⟩
  obtain ⟨bottom, hbl, hback⟩ : ∃ x ∈ l, g.greyEdge s.visited top.1 = some x := by
    rcases h.next_of_mem htop with hv | ⟨x, hx, hnext⟩
    · exact ⟨v, hvl, hv⟩
    · exact ⟨x, hx, hnext⟩
  -- no node above the highest one is on the walk, so it leads down
  have hbstack : bottom ∈ stack (top :: rest) := by
    have hb := hmem bottom hbl
    rw [hframes, stack_append] at hb
    refine (List.mem_append.mp hb).resolve_left fun hb => ?_
    obtain ⟨f, hf, rfl⟩ := List.mem_map.mp hb
    exact habove f hf hbl
  obtain ⟨stretch, below, hrest, hlast⟩ : ∃ stretch below, rest = stretch ++ below ∧
      (stack (top :: stretch)).getLast? = some bottom := by
    rcases List.mem_cons.mp hbstack with rfl | hb
    · exact ⟨[], rest, rfl, rfl⟩
    · obtain ⟨f, hf, rfl⟩ := List.mem_map.mp hb
      obtain ⟨front, below, rfl⟩ := List.append_of_mem hf
      exact ⟨front ++ [f], below, by simp, by simp [stack, List.getLast?_cons]⟩
  have hbottom : bottom ∈ stack (top :: stretch) := List.mem_of_getLast? hlast
  have hframes' : s.frames = above ++ top :: stretch ++ below := by
    rw [hframes, hrest]
    simp
  obtain ⟨_, back, -, hreturn⟩ := h.from_mem hbl
  have hstraight : ∀ f ∈ stretch, Straight g s.visited f := by
    intro f hf
    by_contra hnot
    -- below a frame that is not straight the walk would stay below it
    obtain ⟨front, tail, rfl⟩ := List.append_of_mem hf
    have hframes'' : s.frames = (above ++ top :: front) ++ f :: (tail ++ below) := by
      rw [hframes']
      simp
    have hb : bottom ∈ stack (f :: (tail ++ below)) := by
      have hsplit : stack (top :: (front ++ f :: tail)) = stack (top :: front) ++ stack (f :: tail) := by
        simp [stack]
      rw [hsplit, List.getLast?_append_of_ne_nil _ (by simp)] at hlast
      have hb := List.mem_of_getLast? hlast
      rw [← List.cons_append, stack_append]
      exact List.mem_append_left _ hb
    have hclosed := fun a b (ha : a ∈ stack (f :: (tail ++ below)))
      (hab : g.greyEdge s.visited a = some b) =>
        hcalls.closed_of_not_straight hinv hframes'' hnot ha hab
    have hv := (hreturn.mem_of_closed hb hclosed).2
    have htop' := (h.mem_of_closed hv hclosed).1 top.1 htop
    have hnd := hinv.nodup
    rw [hframes'', stack_append] at hnd
    exact (List.nodup_append.mp hnd).2.2 top.1 (by simp [stack]) top.1 htop' rfl
  -- the stretch is closed, so the walk never leaves it
  have hv : v ∈ stack (top :: stretch) :=
    (hreturn.mem_of_closed hbottom fun a b ha hab =>
      hcalls.closed_of_straight hinv hframes' hstraight hback hbottom ha hab).2
  exact ⟨_, above, top, stretch, below, bottom, hframes', hv, rfl, hstraight, hlast, hback⟩

/-! ## The calls of `cycle` -/

/-- The nodes of a walk back are in the list of the graph. -/
theorem length_le_of_returns {l : List Nat} {w : Nat}
    (h : ReturnsAlong (g.greyEdge s.visited) v w l) : l.length ≤ g.length := by
  have hlt : ∀ a ∈ l, a ∈ List.range g.length := by
    intro a ha
    rw [List.mem_range]
    by_contra hge
    have hnone : g[a]? = none := List.getElem?_eq_none (Nat.not_lt.mp hge)
    rcases h.next_of_mem ha with hs | ⟨b, -, hb⟩
    · simp [WaitForGraph.greyEdge, WaitForGraph.succs, hnone] at hs
    · simp [WaitForGraph.greyEdge, WaitForGraph.succs, hnone] at hb
  have hsub : l.Subperm (List.range g.length) := h.nodup.subperm hlt
  simpa using hsub.length_le

/-- **Extraction of a cycle**: in a graph of at most 49 nodes a call of `cycle` returns, with
    no node visited twice, if and only if its start is on a loop of the recursion stack and
    `in_deadlock` has a free row for each node of the loop. -/
theorem cycle_returns_iff (hsize : g.length ≤ 49) (hs : Reached g s) (hcalls : Calls s v) :
    (∃ l, g.cycle s.visited s.freeRows v = (l, .returned) ∧ l.Nodup) ↔
      ∃ n, OnLoop g s v n ∧ s.inDeadlock.length + n ≤ WaitForGraph.inDeadlockSize := by
  have hinv := inv_of_reached hs
  constructor
  · rintro ⟨l, hl, -⟩
    obtain ⟨hret, -, hrows⟩ := WaitForGraph.cycleLoop_returned.mp hl
    obtain ⟨n, hloop⟩ := hcalls.onLoop_of_returns hinv hret
    refine ⟨n, hloop, ?_⟩
    -- the walk goes once round the loop
    obtain ⟨l', hret', hlen⟩ := hcalls.returns_of_onLoop hinv hloop
    rw [← hret.unique hret'] at hlen
    have hpos : 0 < l.length := List.length_pos_of_mem (List.mem_of_head? hret.head?_eq)
    rw [freeRows] at hrows
    omega
  · rintro ⟨n, hloop, hrows⟩
    obtain ⟨l, hl, hlen⟩ := hcalls.returns_of_onLoop hinv hloop
    have hsize : l.length ≤ WaitForGraph.inCycleSize - 1 :=
      Nat.le_trans (length_le_of_returns hl) hsize
    have hfree : l.length ≤ s.freeRows := by
      rw [freeRows]
      omega
    exact ⟨l, WaitForGraph.cycleLoop_returned.mpr ⟨hl, hsize, hfree⟩, hl.nodup⟩

/-- Two transactions that wait for each other, at the edge back to the first one. -/
theorem cycle_returns_pair :
    (∃ l, WaitForGraph.cycle [⟨1, 7, [1]⟩, ⟨2, 8, [0]⟩]
        (run [⟨1, 7, [1]⟩, ⟨2, 8, [0]⟩] 2 (start [⟨1, 7, [1]⟩, ⟨2, 8, [0]⟩])).visited
        (run [⟨1, 7, [1]⟩, ⟨2, 8, [0]⟩] 2 (start [⟨1, 7, [1]⟩, ⟨2, 8, [0]⟩])).freeRows 0 =
          (l, .returned) ∧ l.Nodup) ↔
      ∃ n, OnLoop [⟨1, 7, [1]⟩, ⟨2, 8, [0]⟩]
        (run [⟨1, 7, [1]⟩, ⟨2, 8, [0]⟩] 2 (start [⟨1, 7, [1]⟩, ⟨2, 8, [0]⟩])) 0 n ∧
          (run [⟨1, 7, [1]⟩, ⟨2, 8, [0]⟩] 2
            (start [⟨1, 7, [1]⟩, ⟨2, 8, [0]⟩])).inDeadlock.length + n ≤
              WaitForGraph.inDeadlockSize :=
  cycle_returns_iff (by decide) (run_reached .init) ⟨rfl, rfl, 1, [], _, rfl⟩

/-- Transaction 1 waits for 2, 2 for 3, and 3 for 2 and 1. -/
def threeWaiting : WaitForGraph := [⟨1, 7, [1]⟩, ⟨2, 8, [2]⟩, ⟨3, 9, [1, 0]⟩]

/-- The edge from 3 to 2 comes first, so a walk from 1 goes round the other two. It would not
    return with any number of rows. -/
theorem cycle_leaves_start :
    (∀ u < 3, u ∉ threeWaiting.succs u) ∧
      ∃ s, Reached threeWaiting s ∧ Calls s 0 ∧
        ∀ rows, (threeWaiting.cycle s.visited rows 0).2 ≠ .returned := by
  refine ⟨by decide, run threeWaiting 4 (start threeWaiting), run_reached .init,
    ⟨rfl, rfl, 2, [], _, rfl⟩, fun rows hend => ?_⟩
  obtain ⟨l, hret⟩ : ∃ l, ReturnsAlong (threeWaiting.greyEdge
      (run threeWaiting 4 (start threeWaiting)).visited) 0 0 l :=
    ⟨_, (WaitForGraph.cycleLoop_returned.mp (Prod.ext rfl hend)).1⟩
  have hzero : threeWaiting.greyEdge (run threeWaiting 4 (start threeWaiting)).visited 0 = some 1 := by
    decide
  have hone : threeWaiting.greyEdge (run threeWaiting 4 (start threeWaiting)).visited 1 = some 2 := by
    decide
  have htwo : threeWaiting.greyEdge (run threeWaiting 4 (start threeWaiting)).visited 2 = some 1 := by
    decide
  cases hret with
  | last hlast => cases hzero.symm.trans hlast
  | step hstep _ hrest =>
    cases hzero.symm.trans hstep
    -- from 1 the walk stays at 1 and 2
    have hback := (hrest.mem_of_closed (P := fun u => u = 1 ∨ u = 2) (.inl rfl) (by
      rintro a b (rfl | rfl) hab
      · exact .inr (Option.some.inj (hone.symm.trans hab)).symm
      · exact .inl (Option.some.inj (htwo.symm.trans hab)).symm)).2
    rcases hback with h | h <;> cases h

end Search

end TxFS
