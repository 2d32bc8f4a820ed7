import Mathlib.Data.List.Basic
import Mathlib.Data.List.Nodup
import Mathlib.Logic.Relation
import Mathlib.Order.Preorder.Finite

/-!
# Graphs of Successor Lists

A directed graph is given by the list of the successors of each node. `LeadsToCycle` are the
nodes from which a cycle can be reached.

Two kinds of walks go through such a graph with one choice at every node. `ReturnsAlong` is
a walk that ends when it is back at a fixed node; `Revisits` is a walk that ends at the
first node it comes to twice. Neither has two outcomes.
-/

namespace Successors

universe u

variable {ν : Type u}

/-! ## Cycles -/

section

variable (succs : ν → List ν)

/-- An edge. -/
def Edge (u v : ν) : Prop := v ∈ succs u

/-- A way along at least one edge back to the node. -/
def OnCycle (u : ν) : Prop := Relation.TransGen (Edge succs) u u

/-- A way to a node on a cycle. -/
def LeadsToCycle (u : ν) : Prop :=
  ∃ c, Relation.ReflTransGen (Edge succs) u c ∧ OnCycle succs c

variable {succs} {u v : ν}

theorem OnCycle.leadsToCycle (h : OnCycle succs u) : LeadsToCycle succs u := ⟨u, .refl, h⟩

/-- A node leads to a cycle if and only if one of its successors does. -/
theorem leadsToCycle_iff : LeadsToCycle succs u ↔ ∃ v ∈ succs u, LeadsToCycle succs v := by
  constructor
  · rintro ⟨c, huc, hc⟩
    rcases Relation.ReflTransGen.cases_head huc with rfl | ⟨v, huv, hvc⟩
    · -- the node is on the cycle itself, and so is the next one
      obtain ⟨v, huv, hvu⟩ := Relation.TransGen.head'_iff.mp hc
      exact ⟨v, huv, u, hvu, hc⟩
    · exact ⟨v, huv, c, hvc, hc⟩
  · rintro ⟨v, huv, c, hvc, hc⟩
    exact ⟨c, hvc.head huv, hc⟩

end

/-! ## Relations on finite sets -/

/-- Whoever is in a finite set in which everybody is followed by someone is connected with
    someone outside of the set or on a cycle. -/
theorem exists_exit_or_cycle {R : ν → ν → Prop} {S : Set ν} (hfin : S.Finite)
    (hnext : ∀ u ∈ S, ∃ v, R u v) (u : ν) :
    ∃ v, Relation.ReflTransGen R u v ∧ (v ∉ S ∨ Relation.TransGen R v v) := by
  by_contra hnone
  have hstay : ∀ v, Relation.ReflTransGen R u v → v ∈ S ∧ ¬ Relation.TransGen R v v := by
    intro v hv
    by_contra hnot
    apply hnone
    refine ⟨v, hv, ?_⟩
    by_cases hvS : v ∈ S
    · exact .inr (by_contra fun hcycle => hnot ⟨hvS, hcycle⟩)
    · exact .inl hvS
  -- follow someone for ever
  obtain ⟨f, hf⟩ : ∃ f : ν → ν, ∀ v ∈ S, R v (f v) := by
    classical
    refine ⟨fun v => if hv : v ∈ S then (hnext v hv).choose else v, fun v hv => ?_⟩
    simp only [dif_pos hv]
    exact (hnext v hv).choose_spec
  have hreach : ∀ m n, m ≤ n → Relation.ReflTransGen R u (f^[m] u) ∧
      Relation.ReflTransGen R (f^[m] u) (f^[n] u) := by
    have hstep : ∀ n, Relation.ReflTransGen R u (f^[n] u) := by
      intro n
      induction n with
      | zero => exact .refl
      | succ n ih =>
        rw [Function.iterate_succ_apply']
        exact ih.tail (hf _ (hstay _ ih).1)
    intro m n hmn
    refine ⟨hstep m, ?_⟩
    induction hmn with
    | refl => exact .refl
    | step _ ih =>
      rw [Function.iterate_succ_apply']
      exact ih.tail (hf _ (hstay _ (hstep _)).1)
  -- so somebody comes twice
  obtain ⟨m, n, hmn, heq⟩ := Set.Finite.exists_lt_map_eq_of_forall_mem
    (f := fun n : ℕ => f^[n] u) (fun n => (hstay _ (hreach n n (Nat.le_refl n)).1).1) hfin
  have hm := hreach m m (Nat.le_refl m)
  apply (hstay _ hm.1).2
  have hfirst : R (f^[m] u) (f^[m + 1] u) := by
    rw [Function.iterate_succ_apply']
    exact hf _ (hstay _ hm.1).1
  have hback := (hreach (m + 1) n hmn).2
  rw [← show f^[m] u = f^[n] u from heq] at hback
  exact .head' hfirst hback

/-- Every node of a cycle is followed by another one, so a relation that holds on the edges
    between such nodes has the cycle as well. -/
theorem cycle_of_followed {R R' : ν → ν → Prop} (h : ∀ u v, R u v → (∃ w, R v w) → R' u v) {u : ν}
    (hu : Relation.TransGen R u u) : Relation.TransGen R' u u := by
  have hfollowed : ∀ v, Relation.TransGen R v u → ∃ w, R v w := by
    intro v hv
    obtain ⟨w, hvw, -⟩ := Relation.TransGen.head'_iff.mp hv
    exact ⟨w, hvw⟩
  have hway : ∀ v, Relation.TransGen R v u → Relation.TransGen R' v u := by
    intro v hv
    induction hv using Relation.TransGen.head_induction_on with
    | single hvu => exact .single (h _ _ hvu (hfollowed u hu))
    | head hvx hxu ih => exact .head (h _ _ hvx (hfollowed _ hxu)) ih
  exact hway u hu

/-! ## The first element with a property -/

/-- `x` is the first element of the list with the property. -/
def FirstWith (P : ν → Prop) (l : List ν) (x : ν) : Prop :=
  ∃ front rest, l = front ++ x :: rest ∧ (∀ d ∈ front, ¬ P d) ∧ P x

theorem exists_firstWith {P : ν → Prop} {l : List ν} (h : ∃ x ∈ l, P x) : ∃ x, FirstWith P l x := by
  induction l with
  | nil =>
    obtain ⟨x, hx, -⟩ := h
    cases hx
  | cons y ys ih =>
    by_cases hy : P y
    · exact ⟨y, [], ys, rfl, by simp, hy⟩
    · obtain ⟨x, hx, hPx⟩ := h
      have hmem : x ∈ ys := (List.mem_cons.mp hx).resolve_left fun hxy => hy (hxy ▸ hPx)
      obtain ⟨z, front, rest, rfl, hfront, hz⟩ := ih ⟨x, hmem, hPx⟩
      refine ⟨z, y :: front, rest, rfl, fun d hd => ?_, hz⟩
      rcases List.mem_cons.mp hd with rfl | hd
      · exact hy
      · exact hfront d hd

theorem FirstWith.unique {P : ν → Prop} {l : List ν} {x y : ν} (hx : FirstWith P l x)
    (hy : FirstWith P l y) : x = y := by
  obtain ⟨front, rest, rfl, hfront, hPx⟩ := hx
  obtain ⟨front', rest', heq, hfront', hPy⟩ := hy
  induction front generalizing front' with
  | nil =>
    cases front' with
    | nil =>
      simp only [List.nil_append, List.cons.injEq] at heq
      exact heq.1
    | cons d ds =>
      simp only [List.nil_append, List.cons_append, List.cons.injEq] at heq
      exact absurd (heq.1 ▸ hPx) (hfront' d (List.mem_cons_self ..))
  | cons d ds ih =>
    cases front' with
    | nil =>
      simp only [List.nil_append, List.cons_append, List.cons.injEq] at heq
      exact absurd (heq.1 ▸ hPy) (hfront d (List.mem_cons_self ..))
    | cons d' ds' =>
      simp only [List.cons_append, List.cons.injEq] at heq
      exact ih (fun a ha => hfront a (List.mem_cons_of_mem _ ha)) ds' heq.2
        fun a ha => hfront' a (List.mem_cons_of_mem _ ha)

/-! ## Walks back to a node -/

/-- The nodes from `w` on, in the order of the walk, until `f` leads to `s`. -/
inductive ReturnsAlong (f : ν → Option ν) (s : ν) : ν → List ν → Prop where
  | last {w : ν} : f w = some s → ReturnsAlong f s w [w]
  | step {w x : ν} {l : List ν} :
      f w = some x → x ≠ s → ReturnsAlong f s x l → ReturnsAlong f s w (w :: l)

namespace ReturnsAlong

variable {f : ν → Option ν} {s w : ν} {l l' : List ν}

theorem unique (h : ReturnsAlong f s w l) (h' : ReturnsAlong f s w l') : l = l' := by
  induction h generalizing l' with
  | last hw =>
    cases h' with
    | last => rfl
    | step hw' hne => exact absurd (Option.some.inj (hw'.symm.trans hw)) hne
  | step hw hne _ ih =>
    cases h' with
    | last hw' => exact absurd (Option.some.inj (hw.symm.trans hw')) hne
    | step hw' _ h' =>
      cases Option.some.inj (hw.symm.trans hw')
      rw [ih h']

theorem head?_eq (h : ReturnsAlong f s w l) : l.head? = some w := by
  cases h <;> rfl

/-- The walk from a node in the middle. -/
theorem from_mem (h : ReturnsAlong f s w l) {a : ν} (ha : a ∈ l) :
    ∃ front back, l = front ++ back ∧ ReturnsAlong f s a back := by
  induction h with
  | @last w hw =>
    rw [List.mem_singleton] at ha
    subst ha
    exact ⟨[], _, rfl, .last hw⟩
  | @step w x l hw hne hl ih =>
    rcases List.mem_cons.mp ha with rfl | ha
    · exact ⟨[], _, rfl, .step hw hne hl⟩
    · obtain ⟨front, back, rfl, hback⟩ := ih ha
      exact ⟨w :: front, back, rfl, hback⟩

/-- **No node is visited twice**: the way back from both visits would be the same. -/
theorem nodup (h : ReturnsAlong f s w l) : l.Nodup := by
  induction h with
  | last => exact List.nodup_singleton _
  | @step w x l hw hne hl ih =>
    refine List.nodup_cons.mpr ⟨fun hmem => ?_, ih⟩
    obtain ⟨front, back, rfl, hback⟩ := hl.from_mem hmem
    have hsame := hback.unique (.step hw hne hl)
    have hlen := congrArg List.length hsame
    simp only [List.length_cons, List.length_append] at hlen
    omega

/-- Where the walk leads from one of its nodes. -/
theorem next_of_mem (h : ReturnsAlong f s w l) {a : ν} (ha : a ∈ l) :
    f a = some s ∨ ∃ b ∈ l, f a = some b := by
  induction h with
  | last hw =>
    rw [List.mem_singleton] at ha
    exact .inl (ha ▸ hw)
  | @step w x l hw hne hl ih =>
    rcases List.mem_cons.mp ha with rfl | ha
    · exact .inr ⟨x, List.mem_cons_of_mem _ (List.mem_of_head? hl.head?_eq), hw⟩
    · rcases ih ha with hs | ⟨b, hb, hab⟩
      · exact .inl hs
      · exact .inr ⟨b, List.mem_cons_of_mem _ hb, hab⟩

/-- A set that the walk does not leave holds all of it. -/
theorem mem_of_closed (h : ReturnsAlong f s w l) {P : ν → Prop} (hw : P w)
    (hclosed : ∀ a b, P a → f a = some b → P b) : (∀ a ∈ l, P a) ∧ P s := by
  induction h with
  | last hws =>
    refine ⟨fun a ha => ?_, hclosed _ _ hw hws⟩
    rw [List.mem_singleton] at ha
    exact ha ▸ hw
  | step hwx _ _ ih =>
    obtain ⟨hl, hs⟩ := ih (hclosed _ _ hw hwx)
    refine ⟨fun a ha => ?_, hs⟩
    rcases List.mem_cons.mp ha with rfl | ha
    · exact hw
    · exact hl a ha

end ReturnsAlong

/-! ## Walks to the first repetition -/

/-- The walk from `w` on, behind the nodes in `seen`, comes back to `b` first. -/
inductive Revisits (next : ν → ν → Prop) : List ν → ν → ν → Prop where
  | back {seen : List ν} {w b : ν} : next w b → b ∈ w :: seen → Revisits next seen w b
  | step {seen : List ν} {w x b : ν} :
      next w x → x ∉ w :: seen → Revisits next (w :: seen) x b → Revisits next seen w b

theorem Revisits.unique {next : ν → ν → Prop} (hnext : ∀ a b c, next a b → next a c → b = c)
    {seen : List ν} {w b c : ν} (hb : Revisits next seen w b) (hc : Revisits next seen w c) :
    b = c := by
  induction hb with
  | back hwb hmem =>
    cases hc with
    | back hwc => exact hnext _ _ _ hwb hwc
    | step hwx hnot => exact absurd (hnext _ _ _ hwb hwx ▸ hmem) hnot
  | step hwx hnot _ ih =>
    cases hc with
    | back hwc hmem => exact absurd (hnext _ _ _ hwc hwx ▸ hmem) hnot
    | step hwy _ hc =>
      cases hnext _ _ _ hwx hwy
      exact ih hc

end Successors
