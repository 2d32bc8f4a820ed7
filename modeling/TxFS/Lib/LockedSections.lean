import Mathlib.Data.List.Basic
import TxFS.Lib.GuardedRun

/-!
# Sections of a Lock

Threads change a common state in sections, for each of which they take a lock. A section is a list
of small steps on the common state and on the locals of its thread, and the small steps of the
threads are interleaved in any order. `excludes` says whether the lock keeps a second thread out.

A system of whole sections is easier to reason about: there a section is one event. With a lock
that excludes, the two agree whenever no thread is inside (`reachable_of_interleaved` and
`runUnder_of_interleaved`). With a lock that does not, nothing of this holds.
-/

namespace LockedSections

open GuardedRun

universe u v w x

variable {σ : Type u} {ε : Type v} {τ : Type w} {α : Type x}

/-! ## Small steps -/

/-- A small step, with the locals of the thread. -/
abbrev SmallStep (σ : Type u) (α : Type x) : Type (max u x) := α × σ → Option (α × σ)

/-- One small step after the other. -/
def perform : List (SmallStep σ α) → α × σ → Option (α × σ)
  | [], x => some x
  | op :: ops, x => (op x).bind (perform ops)

theorem perform_append (ops ops' : List (SmallStep σ α)) (x : α × σ) :
    perform (ops ++ ops') x = (perform ops x).bind (perform ops') := by
  induction ops generalizing x with
  | nil => rfl
  | cons op ops ih =>
    rw [List.cons_append, perform, perform, Option.bind_assoc]
    congr 1
    funext y
    exact ih y

/-! ## Interleaved sections -/

/-- The lock and the sections. -/
structure Sections (σ : Type u) (ε : Type v) (α : Type x) where
  excludes : Bool
  /-- The locals at the start of a section. -/
  locals : α
  code : ε → List (SmallStep σ α)

/-- A thread in a section, with the small steps that are left. -/
structure Inside (σ : Type u) (τ : Type w) (α : Type x) where
  thread : τ
  locals : α
  rest : List (SmallStep σ α)

structure Config (σ : Type u) (τ : Type w) (α : Type x) where
  shared : σ
  inside : List (Inside σ τ α)

inductive ThreadEvent (ε : Type v) (τ : Type w) where
  /-- The thread takes the lock for a section. -/
  | lock (t : τ) (e : ε)
  /-- Its next small step. -/
  | go (t : τ)
  | unlock (t : τ)

namespace Config

variable [DecidableEq τ]

def find (c : Config σ τ α) (t : τ) : Option (Inside σ τ α) := c.inside.find? fun i => i.thread = t

/-- One event. -/
def step (p : Sections σ ε α) (c : Config σ τ α) : ThreadEvent ε τ → Option (Config σ τ α)
  | .lock t e =>
    if (c.find t).isNone ∧ (p.excludes → c.inside.isEmpty) then
      some { c with inside := ⟨t, p.locals, p.code e⟩ :: c.inside }
    else none
  | .go t =>
    match c.find t with
    | some ⟨_, l, op :: ops⟩ =>
      (op (l, c.shared)).map fun r =>
        ⟨r.2, c.inside.map fun i => if i.thread = t then ⟨t, r.1, ops⟩ else i⟩
    | _ => none
  | .unlock t =>
    match c.find t with
    | some ⟨_, _, []⟩ => some { c with inside := c.inside.filter fun i => i.thread ≠ t }
    | _ => none

end Config

/-- The condition on the sections, when their thread has the lock. -/
def Entering (ok : σ → ε → Prop) (c : Config σ τ α) : ThreadEvent ε τ → Prop
  | .lock _ e => ok c.shared e
  | _ => True

instance (ok : σ → ε → Prop) [∀ s e, Decidable (ok s e)] (c : Config σ τ α) (e : ThreadEvent ε τ) :
    Decidable (Entering ok c e) :=
  match e with
  | .lock _ e => inferInstanceAs (Decidable (ok c.shared e))
  | .go _ => inferInstanceAs (Decidable True)
  | .unlock _ => inferInstanceAs (Decidable True)

/-- The sections of a run, in the order in which they get the lock. -/
def sections (es : List (ThreadEvent ε τ)) : List ε :=
  es.filterMap fun
    | .lock _ e => some e
    | _ => none

/-- The small steps of a section, one after the other, are the step of the section. -/
def Sections.Implements (p : Sections σ ε α) (step : σ → ε → Option σ) : Prop :=
  ∀ s e x, perform (p.code e) (p.locals, s) = some x → step s e = some x.2

/-! ## Reduction -/

section

variable {p : Sections σ ε α} {step : σ → ε → Option σ} {ok : σ → ε → Prop} {init s : σ}
  {c c' : Config σ τ α} {pending : Option ε} {ev : ThreadEvent ε τ}

/-- The whole sections have come to `s`. They stand behind the interleaved ones, by the section
    that a thread is in the middle of. -/
inductive Behind (p : Sections σ ε α) : Config σ τ α → σ → Option ε → Prop where
  | free {s : σ} : Behind p ⟨s, []⟩ s none
  | busy {s s' : σ} {e : ε} {t : τ} {l : α} {done rest : List (SmallStep σ α)}
      (hcode : p.code e = done ++ rest) (hdone : perform done (p.locals, s) = some (l, s')) :
      Behind p ⟨s', [⟨t, l, rest⟩]⟩ s (some e)

theorem Behind.eq_of_free (hc : Behind p c s pending) (hfree : c.inside = []) :
    s = c.shared ∧ pending = none := by
  cases hc with
  | free => exact ⟨rfl, rfl⟩
  | busy => cases hfree

/-- What an event does to the whole sections: they take their step at the `unlock`. -/
inductive Follows (p : Sections σ ε α) (step : σ → ε → Option σ) (s : σ) :
    Option ε → ThreadEvent ε τ → Config σ τ α → Prop where
  | lock {t : τ} {e : ε} {c' : Config σ τ α} (hc' : Behind p c' s (some e)) :
      Follows p step s none (.lock t e) c'
  | go {t : τ} {e : ε} {c' : Config σ τ α} (hc' : Behind p c' s (some e)) :
      Follows p step s (some e) (.go t) c'
  | unlock {t : τ} {e : ε} {s' : σ} (hstep : step s e = some s') :
      Follows p step s (some e) (.unlock t) ⟨s', []⟩

variable [DecidableEq τ]

/-- **Step lemma**. -/
theorem Behind.follows (hexcludes : p.excludes = true) (hcode : p.Implements step)
    (hc : Behind p c s pending) (hstep : c.step p ev = some c') :
    Follows p step s pending ev c' := by
  cases hc with
  | free =>
    cases ev with
    | lock t e =>
      simp only [Config.step, Config.find, List.find?_nil, Option.isNone_none, List.isEmpty_nil,
        implies_true, and_self, if_true, Option.some.injEq] at hstep
      subst hstep
      -- no small step of the section is done
      have hwhole : p.code e = [] ++ p.code e := rfl
      exact .lock (.busy hwhole rfl)
    | go t => cases hstep
    | unlock t => cases hstep
  | @busy s s' e t l done rest hsplit hdone =>
    cases ev with
    -- the lock is taken
    | lock t' e' => simp [Config.step, hexcludes] at hstep
    | go t' =>
      by_cases ht : t = t'
      · subst ht
        cases rest with
        | nil => simp [Config.step, Config.find] at hstep
        | cons op ops =>
          simp only [Config.step, Config.find, List.find?_cons, decide_true, List.map_cons,
            if_true, List.map_nil, Option.map_eq_some_iff] at hstep
          obtain ⟨⟨l', s₁⟩, hop, rfl⟩ := hstep
          -- one more small step is done
          have hcut : p.code e = (done ++ [op]) ++ ops := by
            rw [hsplit, List.append_assoc, List.singleton_append]
          refine .go (.busy hcut ?_)
          rw [perform_append, hdone, Option.bind_some, perform, hop]
          rfl
      · simp [Config.step, Config.find, ht] at hstep
    | unlock t' =>
      by_cases ht : t = t'
      · subst ht
        cases rest with
        | cons op ops => simp [Config.step, Config.find] at hstep
        | nil =>
          simp only [Config.step, Config.find, List.find?_cons, decide_true, ne_eq, not_true,
            decide_false, List.filter_cons, List.filter_nil, Option.some.injEq] at hstep
          subst hstep
          -- all of them are done, so the section is the whole step
          rw [List.append_nil] at hsplit
          exact .unlock (hcode s e (l, s') (hsplit ▸ hdone))
      · simp [Config.step, Config.find, ht] at hstep

/-- **Run lemma**: the whole sections behind an interleaved run are a run. -/
theorem behind_of_interleaved (hexcludes : p.excludes = true) (hcode : p.Implements step)
    (hc : ReachableUnder ⟨init, []⟩ (Config.step p) (Entering ok) c) :
    ∃ s pending, Behind p c s pending ∧ ReachableUnder init step ok s ∧
      ∀ e ∈ pending, ok s e := by
  refine hc.invariant (P := fun c => ∃ s pending, Behind p c s pending ∧
    ReachableUnder init step ok s ∧ ∀ e ∈ pending, ok s e) ?_ fun c ev c' _ hinv hok hstep => ?_
  · exact ⟨init, none, .free, .init, by simp⟩
  · obtain ⟨s, pending, hbehind, hs, hpending⟩ := hinv
    have hfollows := hbehind.follows hexcludes hcode hstep
    cases hfollows with
    | lock hc' =>
      have hs' : s = c.shared := by
        cases hbehind
        rfl
      refine ⟨s, _, hc', hs, fun e he => ?_⟩
      obtain rfl := Option.mem_some_iff.mp he
      exact hs' ▸ hok
    | go hc' => exact ⟨s, _, hc', hs, hpending⟩
    | @unlock t e s' hsection =>
      exact ⟨s', none, .free, .step hs (hpending e rfl) hsection, by simp⟩

/-- **Reduction**: whenever no thread is inside, the common state is one of whole sections. -/
theorem reachable_of_interleaved (hexcludes : p.excludes = true) (hcode : p.Implements step)
    (hc : ReachableUnder ⟨init, []⟩ (Config.step p) (Entering ok) c) (hfree : c.inside = []) :
    ReachableUnder init step ok c.shared := by
  obtain ⟨s, pending, hbehind, hs, -⟩ := behind_of_interleaved hexcludes hcode hc
  obtain ⟨rfl, -⟩ := hbehind.eq_of_free hfree
  exact hs

variable [∀ s e, Decidable (ok s e)]

/-- The run from the middle of a section. -/
theorem runUnder_of_behind (hexcludes : p.excludes = true) (hcode : p.Implements step)
    {es : List (ThreadEvent ε τ)} (hc : Behind p c s pending) (hpending : ∀ e ∈ pending, ok s e)
    (hrun : runUnder (Config.step p) (Entering ok) c es = some c') (hfree : c'.inside = []) :
    runUnder step ok s (pending.toList ++ sections es) = some c'.shared := by
  induction es generalizing c s pending with
  | nil =>
    simp only [runUnder, Option.some.injEq] at hrun
    subst hrun
    obtain ⟨rfl, rfl⟩ := hc.eq_of_free hfree
    rfl
  | cons ev es ih =>
    rw [runUnder] at hrun
    split at hrun
    swap
    · cases hrun
    rename_i hok
    obtain ⟨c₁, hstep, hrest⟩ := Option.bind_eq_some_iff.mp hrun
    have hfollows := hc.follows hexcludes hcode hstep
    cases hfollows with
    | lock hc₁ =>
      have hs : s = c.shared := by
        cases hc
        rfl
      refine ih hc₁ (fun e he => ?_) hrest
      obtain rfl := Option.mem_some_iff.mp he
      exact hs ▸ hok
    | go hc₁ => exact ih hc₁ hpending hrest
    | @unlock t e s' hsection =>
      have htail := ih (c := ⟨s', []⟩) .free (by simp) hrest
      rw [Option.toList_some, List.singleton_append, runUnder, if_pos (hpending e rfl), hsection]
      exact htail

/-- **Reduction of a run** from one such moment to another. -/
theorem runUnder_of_interleaved (hexcludes : p.excludes = true) (hcode : p.Implements step)
    {es : List (ThreadEvent ε τ)} (hstart : c.inside = [])
    (hrun : runUnder (Config.step p) (Entering ok) c es = some c') (hfree : c'.inside = []) :
    runUnder step ok c.shared (sections es) = some c'.shared := by
  obtain ⟨s, inside⟩ := c
  obtain rfl : inside = [] := hstart
  exact runUnder_of_behind hexcludes hcode .free (by simp) hrun hfree

end

end LockedSections
