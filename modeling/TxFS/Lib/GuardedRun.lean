import Mathlib.Logic.Relation

/-!
# Guarded Runs of a Deterministic Step Function

A system is a step function `step : σ → ε → Option σ`: the event `ε` carries every
choice of the scheduler and of the environment, and `none` means that the event is
not enabled (or that the program crashes on it).

`ReachableUnder init step ok` are the states reached by steps that all satisfy the
side condition `ok` in the state before the step. `Reachable` is the special case
without a condition. The induction over runs is done once, in `ReachableUnder.invariant`.
-/

namespace GuardedRun

universe u v

variable {σ : Type u} {ε : Type v}

/-! ## Reachability -/

/-- States reached from `init` by events that are all allowed by `ok`. -/
inductive ReachableUnder (init : σ) (step : σ → ε → Option σ) (ok : σ → ε → Prop) : σ → Prop where
  /-- The initial state. -/
  | init : ReachableUnder init step ok init
  /-- One allowed and enabled event. -/
  | step {s s' : σ} {e : ε} (hs : ReachableUnder init step ok s) (hok : ok s e)
      (hstep : step s e = some s') : ReachableUnder init step ok s'

/-- States reached from `init` by any events. -/
abbrev Reachable (init : σ) (step : σ → ε → Option σ) : σ → Prop :=
  ReachableUnder init step fun _ _ => True

section

variable {init : σ} {step : σ → ε → Option σ} {ok : σ → ε → Prop}

/-- **Invariant rule**: what holds initially and is preserved by every allowed step
    from a reachable state holds in every reachable state. -/
theorem ReachableUnder.invariant {P : σ → Prop} (hinit : P init)
    (hpres : ∀ s e s', ReachableUnder init step ok s → P s → ok s e → step s e = some s' → P s')
    {s : σ} (hs : ReachableUnder init step ok s) : P s := by
  induction hs with
  | init => exact hinit
  | step hs hok hstep ih => exact hpres _ _ _ hs ih hok hstep

/-- A weaker side condition allows more runs. -/
theorem ReachableUnder.mono {ok' : σ → ε → Prop} (h : ∀ s e, ok s e → ok' s e) {s : σ}
    (hs : ReachableUnder init step ok s) : ReachableUnder init step ok' s := by
  induction hs with
  | init => exact .init
  | step _ hok hstep ih => exact .step ih (h _ _ hok) hstep

end

/-! ## Running a list of events -/

/-- Take the events in order; `none` as soon as one is not allowed or not enabled. -/
def runUnder (step : σ → ε → Option σ) (ok : σ → ε → Prop) [∀ s e, Decidable (ok s e)] :
    σ → List ε → Option σ
  | s, [] => some s
  | s, e :: es => if ok s e then (step s e).bind fun s' => runUnder step ok s' es else none

/-- Take the events in order; `none` as soon as one is not enabled. -/
def run (step : σ → ε → Option σ) : σ → List ε → Option σ := runUnder step fun _ _ => True

/-- The state at the end of an allowed run is reachable. -/
theorem reachableUnder_of_run {init : σ} {step : σ → ε → Option σ} {ok : σ → ε → Prop}
    [∀ s e, Decidable (ok s e)] {s s' : σ} {es : List ε} (hs : ReachableUnder init step ok s)
    (h : runUnder step ok s es = some s') : ReachableUnder init step ok s' := by
  induction es generalizing s with
  | nil =>
    simp only [runUnder, Option.some.injEq] at h
    exact h ▸ hs
  | cons e es ih =>
    rw [runUnder] at h
    split at h
    · rename_i hok
      obtain ⟨s₁, h₁, h₂⟩ := Option.bind_eq_some_iff.mp h
      exact ih (.step hs hok h₁) h₂
    · cases h

/-- A property seen at the end of an allowed run holds in some reachable state. -/
theorem exists_of_runUnder (init : σ) (step : σ → ε → Option σ) (ok : σ → ε → Prop)
    [∀ s e, Decidable (ok s e)] (p : σ → Prop) [DecidablePred p] (es : List ε)
    (h : (runUnder step ok init es).any (fun s => p s) = true) :
    ∃ s, ReachableUnder init step ok s ∧ p s := by
  obtain ⟨s, hs, hp⟩ := (Option.any_eq_true ..).mp h
  exact ⟨s, reachableUnder_of_run .init hs, of_decide_eq_true hp⟩

/-- The same for a run without a condition. -/
theorem exists_of_run (init : σ) (step : σ → ε → Option σ) (p : σ → Prop) [DecidablePred p]
    (es : List ε) (h : (run step init es).any (fun s => p s) = true) :
    ∃ s, Reachable init step s ∧ p s :=
  exists_of_runUnder init step (fun _ _ => True) p es h

end GuardedRun
