import Mathlib.Data.List.Basic
import Mathlib.Logic.Function.Basic
import Mathlib.Logic.Relation

/-!
# Lock Order

Threads make calls, and a call is a list of operations that lock and unlock mutexes. A thread
waits for another one when its next operation locks a mutex that the other one owns.

`ascend` checks one thread by itself: every mutex it locks ranks above those it holds. When
all threads keep to one rank no threads wait in a circle; when some of them do not, every
circle goes through one of these (`exists_mem_cycle`). `heldAfter` checks one thread and one
mutex: it is locked only when it is free, and unlocked only when it is held.
-/

namespace LockOrder

universe u v w

variable {ι : Type u} {μ : Type v} {κ : Type w}

inductive MutexOp (μ : Type v) where
  | lock (m : μ)
  | unlock (m : μ)
deriving DecidableEq, Repr

def MutexOp.mutex : MutexOp μ → μ
  | lock m | unlock m => m

/-- A wait on a condition variable gives the mutex back and takes it again. -/
def condWait (m : μ) : List (MutexOp μ) := [.unlock m, .lock m]

/-! ## One thread -/

/-- The mutexes that are held behind the operations, the last one first, if each mutex ranks
    above all that are held when it is locked. -/
def ascend [DecidableEq μ] (rank : μ → Nat) : List μ → List (MutexOp μ) → Option (List μ)
  | held, [] => some held
  | held, .lock m :: ops =>
    if ∀ h ∈ held, rank h < rank m then ascend rank (m :: held) ops else none
  | held, .unlock m :: ops => ascend rank (held.filter fun h => h ≠ m) ops

section

variable [DecidableEq μ] {rank : μ → Nat} {held held' : List μ}

theorem ascend_append {ops ops' : List (MutexOp μ)} :
    ascend rank held (ops ++ ops') = (ascend rank held ops).bind fun h => ascend rank h ops' := by
  induction ops generalizing held with
  | nil => rfl
  | cons op ops ih =>
    cases op with
    | lock m =>
      simp only [List.cons_append, ascend]
      split
      · exact ih
      · rfl
    | unlock m => exact ih

/-- **Rule for sequences**. -/
theorem ascend_seq {ops ops' : List (MutexOp μ)} (h : ascend rank held ops = some held') :
    ascend rank held (ops ++ ops') = ascend rank held' ops' := by
  rw [ascend_append, h]
  rfl

/-- **Rule for loops**: what every round gives back, the loop gives back. -/
theorem ascend_flatten {rounds : List (List (MutexOp μ))}
    (h : ∀ ops ∈ rounds, ascend rank held ops = some held) :
    ascend rank held rounds.flatten = some held := by
  induction rounds with
  | nil => rfl
  | cons ops rounds ih =>
    rw [List.flatten_cons, ascend_seq (h ops (List.mem_cons_self ..))]
    exact ih fun ops hops => h ops (List.mem_cons_of_mem _ hops)

end

/-! ## One mutex -/

/-- Whether the thread holds `m` behind the operations. There is no answer when one of them
    locks `m` while the thread holds it, or unlocks it while it does not. -/
def heldAfter [DecidableEq μ] (m : μ) : Bool → List (MutexOp μ) → Option Bool
  | held, [] => some held
  | held, .lock m' :: ops =>
    if m' = m then if held then none else heldAfter m true ops else heldAfter m held ops
  | held, .unlock m' :: ops =>
    if m' = m then if held then heldAfter m false ops else none else heldAfter m held ops

section

variable [DecidableEq μ] {m : μ} {held held' : Bool}

theorem heldAfter_append {ops ops' : List (MutexOp μ)} :
    heldAfter m held (ops ++ ops') = (heldAfter m held ops).bind fun h => heldAfter m h ops' := by
  induction ops generalizing held with
  | nil => rfl
  | cons op ops ih =>
    cases op with
    | lock m' =>
      simp only [List.cons_append, heldAfter]
      split
      · split
        · rfl
        · exact ih
      · exact ih
    | unlock m' =>
      simp only [List.cons_append, heldAfter]
      split
      · split
        · exact ih
        · rfl
      · exact ih

/-- **Rule for sequences**. -/
theorem heldAfter_seq {ops ops' : List (MutexOp μ)} (h : heldAfter m held ops = some held') :
    heldAfter m held (ops ++ ops') = heldAfter m held' ops' := by
  rw [heldAfter_append, h]
  rfl

/-- **Rule for loops**: what every round gives back, the loop gives back. -/
theorem heldAfter_flatten {rounds : List (List (MutexOp μ))}
    (h : ∀ ops ∈ rounds, heldAfter m held ops = some held) :
    heldAfter m held rounds.flatten = some held := by
  induction rounds with
  | nil => rfl
  | cons ops rounds ih =>
    rw [List.flatten_cons, heldAfter_seq (h ops (List.mem_cons_self ..))]
    exact ih fun ops hops => h ops (List.mem_cons_of_mem _ hops)

/-- An operation on `m` in the middle is the one that the thread is allowed to do there. -/
theorem heldAfter_op {pre post : List (MutexOp μ)} {op : MutexOp μ}
    (h : heldAfter m held (pre ++ op :: post) = some held') (hop : op.mutex = m) :
    ∃ now, heldAfter m held pre = some now ∧ (now = true ↔ op = .unlock m) := by
  rw [heldAfter_append] at h
  obtain ⟨now, hnow, hrest⟩ := Option.bind_eq_some_iff.mp h
  refine ⟨now, hnow, ?_⟩
  cases op with
  | lock m' =>
    have hm : m' = m := hop
    subst hm
    cases now with
    | true => simp [heldAfter] at hrest
    | false => simp
  | unlock m' =>
    have hm : m' = m := hop
    subst hm
    cases now with
    | true => simp
    | false => simp [heldAfter] at hrest

end

/-! ## Many threads -/

/-- What each thread has still to do of its call, and who owns each mutex. -/
structure Threads (ι : Type u) (μ : Type v) where
  pending : ι → List (MutexOp μ)
  owner : μ → Option ι

inductive ThreadEvent (ι : Type u) (κ : Type w) where
  /-- The thread makes its next call. -/
  | call (t : ι) (c : κ)
  /-- The thread performs its next operation. -/
  | advance (t : ι)
deriving DecidableEq, Repr

namespace Threads

variable {s s' : Threads ι μ} {t : ι} {m m' : μ}

/-- No thread is in a call, and no mutex is locked. -/
def idle : Threads ι μ := ⟨fun _ => [], fun _ => none⟩

/-- The next operation of the thread locks the mutex. -/
def Wants (s : Threads ι μ) (t : ι) (m : μ) : Prop := (s.pending t).head? = some (.lock m)

instance [DecidableEq μ] (s : Threads ι μ) (t : ι) (m : μ) : Decidable (s.Wants t m) :=
  inferInstanceAs (Decidable (_ = _))

/-- The thread is blocked on a mutex that the other one holds. -/
def WaitsFor (s : Threads ι μ) (t u : ι) : Prop := ∃ m, s.Wants t m ∧ s.owner m = some u

theorem Wants.unique (h : s.Wants t m) (h' : s.Wants t m') : m = m' := by
  have heq : MutexOp.lock m = .lock m' := Option.some.inj (h.symm.trans h')
  cases heq
  rfl

/-! ## Order -/

section

variable [DecidableEq μ] {rank : ι → μ → Nat}

/-- Every thread keeps to its own rank, and gives back what it owns. -/
def Ordered (rank : ι → μ → Nat) (s : Threads ι μ) : Prop :=
  ∀ t, ∃ held, (∀ m, s.owner m = some t → m ∈ held) ∧
    ascend (rank t) held (s.pending t) = some []

theorem ordered_idle : Ordered rank (idle : Threads ι μ) := fun _ => ⟨[], nofun, rfl⟩

/-- A thread between two calls owns nothing. -/
theorem Ordered.owner_ne (h : Ordered rank s) (ht : s.pending t = []) : s.owner m ≠ some t := by
  obtain ⟨held, howns, hascend⟩ := h t
  rw [ht, ascend, Option.some.injEq] at hascend
  intro howner
  have hmem := howns m howner
  rw [hascend] at hmem
  cases hmem

/-- What a thread wants ranks above what it owns. -/
theorem Ordered.lt (h : Ordered rank s) (howner : s.owner m = some t) (hwants : s.Wants t m') :
    rank t m < rank t m' := by
  obtain ⟨held, howns, hascend⟩ := h t
  obtain ⟨os, hos⟩ := List.head?_eq_some_iff.mp hwants
  rw [hos, ascend] at hascend
  split at hascend
  · rename_i habove
    exact habove m (howns m howner)
  · cases hascend

/-- An unlocked mutex has no owner, the others keep theirs. -/
theorem owner_of_unlock {f : μ → Option ι} (h : Function.update f m none m' = some t) :
    m' ≠ m ∧ f m' = some t := by
  by_cases hm : m' = m
  · subst hm
    rw [Function.update_self] at h
    cases h
  · rw [Function.update_of_ne hm] at h
    exact ⟨hm, h⟩

/-- A locked mutex has a new owner, the others keep theirs. -/
theorem owner_of_lock {f : μ → Option ι} {u : ι} (h : Function.update f m (some t) m' = some u) :
    m' = m ∧ u = t ∨ f m' = some u := by
  by_cases hm : m' = m
  · subst hm
    rw [Function.update_self] at h
    exact .inl ⟨rfl, (Option.some.inj h).symm⟩
  · rw [Function.update_of_ne hm] at h
    exact .inr h

end

/-! ## Steps -/

section

variable [DecidableEq ι] [DecidableEq μ] {ops : ι → κ → Option (List (MutexOp μ))}

/-- The mutexes do not check who unlocks them. -/
def step (ops : ι → κ → Option (List (MutexOp μ))) (s : Threads ι μ) :
    ThreadEvent ι κ → Option (Threads ι μ)
  | .call t c =>
    if s.pending t = [] then
      (ops t c).map fun os => { s with pending := Function.update s.pending t os }
    else none
  | .advance t =>
    match s.pending t with
    | [] => none
    | .lock m :: os =>
      if s.owner m = none then
        some ⟨Function.update s.pending t os, Function.update s.owner m (some t)⟩
      else none
    | .unlock m :: os => some ⟨Function.update s.pending t os, Function.update s.owner m none⟩

/-- A call starts behind the end of the one before. -/
theorem step_call {c : κ} (h : s.step ops (.call t c) = some s') :
    s.pending t = [] ∧ ∃ os, ops t c = some os ∧
      s' = { s with pending := Function.update s.pending t os } := by
  simp only [step] at h
  split at h
  · rename_i ht
    obtain ⟨os, hos, rfl⟩ := Option.map_eq_some_iff.mp h
    exact ⟨ht, os, hos, rfl⟩
  · cases h

/-- A thread that advances locks a free mutex or unlocks one. -/
theorem step_advance (h : s.step ops (.advance t) = some s') : ∃ os,
    (∃ m, s.pending t = .lock m :: os ∧ s.owner m = none ∧
      s' = ⟨Function.update s.pending t os, Function.update s.owner m (some t)⟩) ∨
    ∃ m, s.pending t = .unlock m :: os ∧
      s' = ⟨Function.update s.pending t os, Function.update s.owner m none⟩ := by
  simp only [step] at h
  split at h
  · cases h
  · rename_i m os hpending
    split at h
    · rename_i hfree
      exact ⟨os, .inl ⟨m, hpending, hfree, (Option.some.inj h).symm⟩⟩
    · cases h
  · rename_i m os hpending
    exact ⟨os, .inr ⟨m, hpending, (Option.some.inj h).symm⟩⟩

/-- **Calls in order keep the threads in order**. -/
theorem Ordered.step {rank : ι → μ → Nat} {e : ThreadEvent ι κ} (h : Ordered rank s)
    (hcall : ∀ t c os, e = .call t c → ops t c = some os → ascend (rank t) [] os = some [])
    (hstep : s.step ops e = some s') : Ordered rank s' := by
  intro u
  obtain ⟨held, howns, hascend⟩ := h u
  cases e with
  | call t c =>
    obtain ⟨ht, os, hos, rfl⟩ := step_call hstep
    by_cases hut : u = t
    · subst hut
      refine ⟨[], fun m howner => absurd howner (h.owner_ne ht), ?_⟩
      simpa only [Function.update_self] using hcall u c os rfl hos
    · exact ⟨held, howns, by simpa only [Function.update_of_ne hut] using hascend⟩
  | advance t =>
    obtain ⟨os, ⟨m, hpending, hfree, rfl⟩ | ⟨m, hpending, rfl⟩⟩ := step_advance hstep
    · by_cases hut : u = t
      · subst hut
        rw [hpending, ascend] at hascend
        split at hascend
        swap
        · cases hascend
        refine ⟨m :: held, fun m' howner => ?_, by simpa only [Function.update_self] using hascend⟩
        rcases owner_of_lock howner with ⟨rfl, -⟩ | howner
        · exact List.mem_cons_self ..
        · exact List.mem_cons_of_mem _ (howns m' howner)
      · refine ⟨held, fun m' howner => ?_, by simpa only [Function.update_of_ne hut] using hascend⟩
        rcases owner_of_lock howner with ⟨-, rfl⟩ | howner
        · exact absurd rfl hut
        · exact howns m' howner
    · by_cases hut : u = t
      · subst hut
        rw [hpending, ascend] at hascend
        refine ⟨held.filter fun h => h ≠ m, fun m' howner => ?_,
          by simpa only [Function.update_self] using hascend⟩
        obtain ⟨hm, howner⟩ := owner_of_unlock howner
        exact List.mem_filter.mpr ⟨howns m' howner, by simpa using hm⟩
      · exact ⟨held, fun m' howner => howns m' (owner_of_unlock howner).2,
          by simpa only [Function.update_of_ne hut] using hascend⟩

end

/-! ## Circles -/

open Relation

/-- **Where a circle goes through**: when all threads but those of `X` keep to one rank, then
    every circle of waiting threads goes through a thread of `X`. -/
theorem exists_mem_cycle {rank : μ → Nat} {X : ι → Prop}
    (h : ∀ u, ¬ X u → ∀ m m', s.owner m = some u → s.Wants u m' → rank m < rank m')
    (hcycle : TransGen s.WaitsFor t t) : ∃ d, X d ∧ TransGen s.WaitsFor d d := by
  -- along a path that avoids `X` the ranks go up
  have hpath : ∀ {a b}, TransGen s.WaitsFor a b →
      (∃ d, X d ∧ ReflTransGen s.WaitsFor a d ∧ ReflTransGen s.WaitsFor d b) ∨
        ∀ m m', s.Wants a m → s.Wants b m' → rank m < rank m' := by
    intro a b hab
    -- one edge, when its end is not in `X`
    have hedge : ∀ {c d m₀}, s.Wants c m₀ → s.WaitsFor c d → ¬ X d → ∀ m', s.Wants d m' →
        rank m₀ < rank m' := by
      rintro c d m₀ hwants ⟨m, hm, howner⟩ hd m' hm'
      rw [hwants.unique hm]
      exact h d hd m m' howner hm'
    induction hab with
    | @single b hab =>
      by_cases hb : X b
      · exact .inl ⟨b, hb, ReflTransGen.single hab, .refl⟩
      · exact .inr fun m m' hm hm' => hedge hm hab hb m' hm'
    | @tail b c hab hbc ih =>
      rcases ih with ⟨d, hd, had, hdb⟩ | hlt
      · exact .inl ⟨d, hd, had, hdb.tail hbc⟩
      · by_cases hc : X c
        · exact .inl ⟨c, hc, (hab.tail hbc).to_reflTransGen, .refl⟩
        · right
          intro m m'' hm hm''
          obtain ⟨m', hm', howner⟩ := hbc
          exact Nat.lt_trans (hlt m m' hm hm') (hedge hm' ⟨m', hm', howner⟩ hc m'' hm'')
  rcases hpath hcycle with ⟨d, hd, htd, hdt⟩ | hlt
  · exact ⟨d, hd, (hcycle.trans_right hdt).trans_left htd⟩
  · obtain ⟨u, ⟨m, hm, -⟩, -⟩ := TransGen.head'_iff.mp hcycle
    exact absurd (hlt m m hm hm) (Nat.lt_irrefl _)

end Threads

end LockOrder
