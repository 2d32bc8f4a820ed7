import Mathlib.Logic.Basic

/-!
# While Loops

A `while` loop over a state: the condition is a predicate that can be decided, and the body may
go wrong. `unroll n` takes at most `n` iterations. A loop is left in a state, goes wrong, or
runs forever; `leaves_step`, `faults_step` and `runsForever_step` follow one iteration.
A loop that counts up to `n` is a fold over `List.range n`; `foldlM_range` is its invariant rule.
-/

namespace WhileLoop

universe u

variable {σ : Type u}

/-- How far a number of iterations has come. -/
inductive Progress (σ : Type u) where
  | running (s : σ)
  /-- The condition does not hold any more. -/
  | left (s : σ)
  /-- The body has gone wrong. -/
  | fault
deriving DecidableEq, Repr

variable (cond : σ → Prop) [DecidablePred cond] (body : σ → Option σ)

/-- At most `n` iterations. -/
def unroll : Nat → σ → Progress σ
  | 0, s => .running s
  | n + 1, s =>
    if cond s then
      match body s with
      | none => .fault
      | some s' => unroll n s'
    else .left s

/-- The loop is left in the state `s'`. -/
def Leaves (s s' : σ) : Prop := ∃ n, unroll cond body n s = .left s'

/-- The body goes wrong in some iteration. -/
def Faults (s : σ) : Prop := ∃ n, unroll cond body n s = .fault

/-- The loop is never left. -/
def RunsForever (s : σ) : Prop := ∀ n, ∃ s', unroll cond body n s = .running s'

section

variable {cond : σ → Prop} [DecidablePred cond] {body : σ → Option σ} {s s' s₁ : σ} {n : Nat}

theorem unroll_step (hcond : cond s) (hbody : body s = some s₁) :
    unroll cond body (n + 1) s = unroll cond body n s₁ := by
  rw [unroll, if_pos hcond, hbody]

theorem unroll_left (hcond : ¬ cond s) : unroll cond body (n + 1) s = .left s := by
  rw [unroll, if_neg hcond]

theorem unroll_fault (hcond : cond s) (hbody : body s = none) :
    unroll cond body (n + 1) s = .fault := by
  rw [unroll, if_pos hcond, hbody]

/-! ## One iteration -/

theorem leaves_of_not_cond (hcond : ¬ cond s) : Leaves cond body s s' ↔ s' = s := by
  constructor
  · rintro ⟨n, hn⟩
    cases n with
    | zero => cases hn
    | succ n =>
      rw [unroll_left hcond] at hn
      cases hn
      rfl
  · rintro rfl
    exact ⟨1, unroll_left hcond⟩

theorem leaves_step (hcond : cond s) (hbody : body s = some s₁) :
    Leaves cond body s s' ↔ Leaves cond body s₁ s' := by
  constructor
  · rintro ⟨n, hn⟩
    cases n with
    | zero => cases hn
    | succ n => exact ⟨n, (unroll_step hcond hbody).symm.trans hn⟩
  · rintro ⟨n, hn⟩
    exact ⟨n + 1, (unroll_step hcond hbody).trans hn⟩

theorem runsForever_step (hcond : cond s) (hbody : body s = some s₁) :
    RunsForever cond body s ↔ RunsForever cond body s₁ := by
  constructor
  · intro h n
    rw [← unroll_step hcond hbody]
    exact h (n + 1)
  · intro h n
    cases n with
    | zero => exact ⟨s, rfl⟩
    | succ n =>
      rw [unroll_step hcond hbody]
      exact h n

/-- A body that changes nothing is repeated forever. -/
theorem runsForever_of_fixed (hcond : cond s) (hbody : body s = some s) :
    RunsForever cond body s := by
  intro n
  induction n with
  | zero => exact ⟨s, rfl⟩
  | succ n ih => rwa [unroll_step hcond hbody]

theorem not_leaves_of_fault (hcond : cond s) (hbody : body s = none) :
    ¬ Leaves cond body s s' := by
  rintro ⟨n, hn⟩
  cases n with
  | zero => cases hn
  | succ n =>
    rw [unroll_fault hcond hbody] at hn
    cases hn

theorem faults_of_body (hcond : cond s) (hbody : body s = none) : Faults cond body s :=
  ⟨1, unroll_fault hcond hbody⟩

/-! ## The three courses of a loop -/

/-- A loop is left in one state only. -/
theorem unroll_unique {m : Nat} (h : unroll cond body n s = .left s')
    (h' : unroll cond body m s = .left s₁) : s' = s₁ := by
  induction n generalizing s m with
  | zero => cases h
  | succ n ih =>
    cases m with
    | zero => cases h'
    | succ m =>
      rw [unroll] at h h'
      split at h
      · rename_i hcond
        rw [if_pos hcond] at h'
        cases hbody : body s with
        | none =>
          rw [hbody] at h
          cases h
        | some s₂ =>
          rw [hbody] at h h'
          exact ih h h'
      · rename_i hcond
        rw [if_neg hcond] at h'
        exact Progress.left.inj (h.symm.trans h')

theorem RunsForever.not_leaves (h : RunsForever cond body s) : ¬ Leaves cond body s s' := by
  rintro ⟨n, hn⟩
  obtain ⟨s₁, hs₁⟩ := h n
  rw [hn] at hs₁
  cases hs₁

theorem RunsForever.not_faults (h : RunsForever cond body s) : ¬ Faults cond body s := by
  rintro ⟨n, hn⟩
  obtain ⟨s₁, hs₁⟩ := h n
  rw [hn] at hs₁
  cases hs₁

end

/-! ## Counting loops -/

/-- **Loop rule**: an iteration that keeps the invariant does not go wrong, and the invariant
    holds behind the last one. -/
theorem foldlM_range {f : σ → Nat → Option σ} {P : Nat → σ → Prop} {n : Nat} {s : σ} (h₀ : P 0 s)
    (hbody : ∀ k < n, ∀ s, P k s → ∃ s', f s k = some s' ∧ P (k + 1) s') :
    ∃ s', (List.range n).foldlM f s = some s' ∧ P n s' := by
  induction n with
  | zero => exact ⟨s, rfl, h₀⟩
  | succ n ih =>
    obtain ⟨s₁, hfold, hP⟩ := ih fun k hk => hbody k (Nat.lt_succ_of_lt hk)
    obtain ⟨s', hlast, hP'⟩ := hbody n (Nat.lt_succ_self n) s₁ hP
    refine ⟨s', ?_, hP'⟩
    rw [List.range_succ, List.foldlM_append, hfold]
    simp only [List.foldlM_cons, List.foldlM_nil, Option.bind_eq_bind, Option.bind_some, hlast]
    rfl

end WhileLoop
