import Mathlib.Data.List.Nodup

/-!
# First Occurrences

`firsts key xs` keeps of each key the first element. It describes a consumer that works
through several queues one after the other and, for each item, drops the copies of it in the
queues still to come. `firsts_flatMap_pairwise` says in which order the items are consumed.
-/

namespace FirstOccurrence

universe u v w

variable {α : Type u} {κ : Type v} {β : Type w} [DecidableEq κ]

/-- The elements whose key has not occurred before. -/
def firsts (key : α → κ) : List α → List α
  | [] => []
  | x :: xs => x :: (firsts key xs).filter fun y => key y ≠ key x

section

variable {key : α → κ} {xs ys : List α}

/-- Nothing is added. -/
theorem mem_of_mem_firsts {x : α} (h : x ∈ firsts key xs) : x ∈ xs := by
  induction xs with
  | nil => exact h
  | cons y ys ih =>
    rcases List.mem_cons.mp h with rfl | h
    · exact List.mem_cons_self ..
    · exact List.mem_cons_of_mem _ (ih (List.mem_of_mem_filter h))

/-- No key is lost. -/
theorem mem_map_firsts {k : κ} : k ∈ (firsts key xs).map key ↔ k ∈ xs.map key := by
  induction xs with
  | nil => rfl
  | cons y ys ih =>
    rw [firsts, List.map_cons, List.map_cons, List.mem_cons, List.mem_cons, ← ih]
    by_cases hk : k = key y
    · simp [hk]
    · -- the filter drops only the key of `y`
      apply or_congr_right
      simp only [List.mem_map, List.mem_filter]
      constructor
      · rintro ⟨x, ⟨hx, -⟩, hxk⟩
        exact ⟨x, hx, hxk⟩
      · rintro ⟨x, hx, hxk⟩
        exact ⟨x, ⟨hx, decide_eq_true (by rw [hxk]; exact hk)⟩, hxk⟩

/-- Each key occurs once. -/
theorem nodup_map_firsts : ((firsts key xs).map key).Nodup := by
  induction xs with
  | nil => exact List.nodup_nil
  | cons y ys ih =>
    rw [firsts, List.map_cons, List.nodup_cons]
    constructor
    · intro hmem
      obtain ⟨x, hx, hxy⟩ := List.mem_map.mp hmem
      exact absurd hxy (of_decide_eq_true (List.mem_filter.mp hx).2)
    · exact ih.sublist ((List.filter_sublist (l := firsts key ys)).map key)

/-- Dropping a set of keys commutes with `firsts`. -/
theorem firsts_filter (p : κ → Bool) :
    firsts key (xs.filter fun x => p (key x)) = (firsts key xs).filter fun x => p (key x) := by
  induction xs with
  | nil => rfl
  | cons y ys ih =>
    by_cases hy : p (key y) = true
    · simp only [List.filter_cons, firsts, hy, if_true, ih, List.filter_filter, Bool.and_comm]
    · simp only [List.filter_cons, firsts, hy, if_false, ih, List.filter_filter, Bool.false_eq_true]
      -- where `p` holds, the key is not that of `y`
      apply List.filter_congr
      intro x _
      by_cases hx : p (key x) = true
      · have hne : key x ≠ key y := fun h => hy (h ▸ hx)
        simp [hx, hne]
      · simp [hx]

/-- A queue without repetitions is consumed whole, and its keys are dropped behind it. -/
theorem firsts_append (h : (xs.map key).Nodup) :
    firsts key (xs ++ ys) = xs ++ firsts key (ys.filter fun y => key y ∉ xs.map key) := by
  induction xs with
  | nil => simp
  | cons x xs ih =>
    rw [List.map_cons, List.nodup_cons] at h
    obtain ⟨hx, hxs⟩ := h
    rw [List.cons_append, firsts, ih hxs, List.filter_append, List.cons_append]
    congr 1
    congr 1
    · apply List.filter_eq_self.mpr
      intro z hz
      apply decide_eq_true
      intro hzx
      exact hx (hzx ▸ List.mem_map_of_mem hz)
    · let p : κ → Bool := fun k => decide (k ≠ key x)
      have hfilter : firsts key ((ys.filter fun y => key y ∉ xs.map key).filter fun y => p (key y)) =
          (firsts key (ys.filter fun y => key y ∉ xs.map key)).filter fun y => p (key y) :=
        firsts_filter p
      rw [← hfilter, List.filter_filter]
      congr 1
      apply List.filter_congr
      intro y _
      simp [p, not_or, eq_comm]

end

/-! ## Queues one after the other -/

/-- The number of the first queue that holds the key. -/
def queueIndex (key : α → κ) (f : β → List α) (qs : List β) (k : κ) : Nat :=
  qs.findIdx fun q => (f q).any fun x => key x = k

section

variable {key : α → κ} {f : β → List α} {qs : List β} {q : β}

theorem queueIndex_head {x : α} (hx : x ∈ f q) : queueIndex key f (q :: qs) (key x) = 0 := by
  rw [queueIndex, List.findIdx_cons]
  have hany : (f q).any (fun y => key y = key x) = true :=
    List.any_eq_true.mpr ⟨x, hx, decide_eq_true rfl⟩
  rw [hany]
  rfl

theorem queueIndex_tail {k : κ} (hk : k ∉ (f q).map key) :
    queueIndex key f (q :: qs) k = queueIndex key f qs k + 1 := by
  rw [queueIndex, List.findIdx_cons]
  have hany : (f q).any (fun y => key y = k) = false := by
    rw [List.any_eq_false]
    intro y hy hyk
    exact hk (List.mem_map.mpr ⟨y, hy, of_decide_eq_true hyk⟩)
  rw [hany]
  rfl

/-- Dropping other keys does not move a key. -/
theorem queueIndex_filter {p : κ → Bool} {k : κ} (hk : p k = true) :
    queueIndex key (fun q => (f q).filter fun x => p (key x)) qs k = queueIndex key f qs k := by
  rw [queueIndex, queueIndex]
  congr 1
  funext q
  rw [List.any_filter]
  congr 1
  funext x
  by_cases hx : key x = k
  · simp [hx, hk]
  · simp [hx]

/-- **The order of consumption**: first by queue, then by key within a queue. -/
theorem firsts_flatMap_pairwise [LT κ] [Std.Irrefl (fun a b : κ => a < b)]
    (hsorted : ∀ q ∈ qs, (f q).Pairwise fun x y => key x < key y) :
    (firsts key (qs.flatMap f)).Pairwise fun x y =>
      queueIndex key f qs (key x) < queueIndex key f qs (key y) ∨
        queueIndex key f qs (key x) = queueIndex key f qs (key y) ∧ key x < key y := by
  induction qs generalizing f with
  | nil => exact List.Pairwise.nil
  | cons q qs ih =>
    have hq := hsorted q (List.mem_cons_self ..)
    have hnodup : ((f q).map key).Nodup := by
      apply List.Pairwise.map key (R := fun x y => key x < key y) _ hq
      intro x y hxy heq
      rw [heq] at hxy
      exact Std.Irrefl.irrefl (r := fun a b : κ => a < b) _ hxy
    rw [List.flatMap_cons, firsts_append hnodup]
    -- the later queues without the keys of the first one
    let f' : β → List α := fun q' => (f q').filter fun x => key x ∉ (f q).map key
    have hflat : ((qs.flatMap f).filter fun y => key y ∉ (f q).map key) = qs.flatMap f' := by
      rw [List.filter_flatMap]
    have htail : ∀ k, k ∉ (f q).map key →
        queueIndex key f (q :: qs) k = queueIndex key f' qs k + 1 := by
      intro k hk
      rw [queueIndex_tail hk]
      let p : κ → Bool := fun k => decide (k ∉ (f q).map key)
      have hp : p k = true := decide_eq_true hk
      have hfilter : queueIndex key (fun q' => (f q').filter fun x => p (key x)) qs k =
          queueIndex key f qs k := queueIndex_filter hp
      rw [← hfilter]
    have hrest : ∀ y ∈ firsts key (qs.flatMap f'), key y ∉ (f q).map key := by
      intro y hy
      rw [← hflat] at hy
      exact of_decide_eq_true (List.mem_filter.mp (mem_of_mem_firsts hy)).2
    rw [hflat, List.pairwise_append]
    refine ⟨?_, ?_, ?_⟩
    · -- both in the first queue
      apply hq.imp_of_mem
      intro x y hx hy hxy
      rw [queueIndex_head hx, queueIndex_head hy]
      exact .inr ⟨rfl, hxy⟩
    · -- both in later queues
      have hsorted' : ∀ q' ∈ qs, (f' q').Pairwise fun x y => key x < key y := by
        intro q' hq'
        exact (hsorted q' (List.mem_cons_of_mem _ hq')).filter _
      apply (ih hsorted').imp_of_mem
      intro x y hx hy hxy
      rw [htail _ (hrest x hx), htail _ (hrest y hy)]
      rcases hxy with hlt | ⟨heq, hlt⟩
      · exact .inl (Nat.succ_lt_succ hlt)
      · exact .inr ⟨congrArg (· + 1) heq, hlt⟩
    · intro x hx y hy
      rw [queueIndex_head hx, htail _ (hrest y hy)]
      exact .inl (Nat.succ_pos _)

end

end FirstOccurrence
