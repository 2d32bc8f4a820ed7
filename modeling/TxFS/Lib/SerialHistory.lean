import Mathlib.Data.List.Induction
import Mathlib.Logic.Function.Basic

/-!
# Serial Histories

Transactions read and update the entries of a store. An update is made in place, and something is
kept of it, so that an abort can roll back the entries that it knows of. What is kept and how it
is rolled back is a parameter (`Undo`); all that is asked of it is that a rollback behind updates
of one transaction alone gives back the content in front of them (`Undo.Restores`).

`Strict` is the discipline of strict two-phase locking: nobody touches an entry that an
unfinished transaction has updated, nobody updates one that it has read, and an abort rolls back
all that has been updated. In a strict run the transactions that have committed form a serial
history, in the order of their commits, and what an unfinished transaction has seen is what it
would see behind that history (`Committed.step`).
-/

namespace SerialHistory

universe u v w z

/-! ## Operations -/

/-- An operation of a transaction on the entry `x`; a read with the content it has returned. -/
inductive Op (κ : Type v) (δ : Type w) where
  | read (x : κ) (seen : δ)
  | write (x : κ) (f : δ → δ)

variable {τ : Type u} {κ : Type v} {δ : Type w} {ν : Type z}

/-- The entry `x` has been read. -/
def Reads (ops : List (Op κ δ)) (x : κ) : Prop := ∃ v, .read x v ∈ ops

/-- The entry `x` has been updated. -/
def Writes (ops : List (Op κ δ)) (x : κ) : Prop := ∃ f, .write x f ∈ ops

section

variable {ops : List (Op κ δ)} {x y : κ} {v : δ} {f : δ → δ}

@[simp] theorem not_reads_nil : ¬ Reads ([] : List (Op κ δ)) x := by
  simp [Reads]

@[simp] theorem not_writes_nil : ¬ Writes ([] : List (Op κ δ)) x := by
  simp [Writes]

@[simp] theorem reads_append_read : Reads (ops ++ [.read y v]) x ↔ Reads ops x ∨ x = y := by
  simp [Reads, exists_or]

@[simp] theorem reads_append_write : Reads (ops ++ [.write y f]) x ↔ Reads ops x := by
  simp [Reads]

@[simp] theorem writes_append_read : Writes (ops ++ [.read y v]) x ↔ Writes ops x := by
  simp [Writes]

@[simp] theorem writes_append_write : Writes (ops ++ [.write y f]) x ↔ Writes ops x ∨ x = y := by
  simp [Writes, exists_or]

end

/-! ## Undoing updates -/

/-- How updates are undone: `note kept v f` is what is kept of the update `f` of the content `v`,
    behind what has been kept of earlier ones; `rollback kept v` is the content that a rollback
    makes of `v`. -/
structure Undo (δ : Type w) (ν : Type z) where
  note : Option ν → δ → (δ → δ) → ν
  rollback : Option ν → δ → δ

namespace Undo

/-- What is kept of some updates of the content `v`, and the content behind them. -/
def run (undo : Undo δ ν) (v : δ) (fs : List (δ → δ)) : Option ν × δ :=
  fs.foldl (fun p f => (some (undo.note p.1 p.2 f), f p.2)) (none, v)

/-- **The assumption on a rollback**: behind any updates it gives back the content in front of
    them. -/
def Restores (undo : Undo δ ν) : Prop :=
  ∀ v fs, undo.rollback (undo.run v fs).1 (undo.run v fs).2 = v

theorem run_append {undo : Undo δ ν} {v : δ} {fs : List (δ → δ)} {f : δ → δ} :
    undo.run v (fs ++ [f]) =
      (some (undo.note (undo.run v fs).1 (undo.run v fs).2 f), f (undo.run v fs).2) := by
  simp [run]

/-- The content in front of the first update is kept. -/
def beforeImage : Undo δ δ where
  note kept v _ := kept.getD v
  rollback kept v := kept.getD v

theorem beforeImage_restores : (beforeImage : Undo δ δ).Restores := by
  intro v fs
  induction fs using List.reverseRecOn with
  | nil => rfl
  | append_singleton fs f ih =>
    rw [run_append]
    exact ih

end Undo

variable [DecidableEq κ]

/-- The updates of an entry, from the oldest on. -/
def updates (ops : List (Op κ δ)) (x : κ) : List (δ → δ) :=
  ops.filterMap fun
    | .read _ _ => none
    | .write y f => if y = x then some f else none

section

variable {ops : List (Op κ δ)} {x y : κ} {v : δ} {f : δ → δ}

theorem updates_append_read : updates (ops ++ [.read y v]) x = updates ops x := by
  simp [updates]

theorem updates_append_write : updates (ops ++ [.write x f]) x = updates ops x ++ [f] := by
  simp [updates]

theorem updates_append_write_of_ne (h : y ≠ x) :
    updates (ops ++ [.write y f]) x = updates ops x := by
  simp [updates, h]

theorem updates_of_not_writes (h : ¬ Writes ops x) : updates ops x = [] := by
  rw [updates, List.filterMap_eq_nil_iff]
  intro op hop
  cases op with
  | read y v => rfl
  | write y f =>
    apply if_neg
    intro hyx
    subst hyx
    exact h ⟨f, hop⟩

end

/-! ## Running operations alone -/

/-- The store behind one operation. -/
def Op.apply (store : κ → δ) : Op κ δ → κ → δ
  | .read _ _ => store
  | .write x f => Function.update store x (f (store x))

/-- The store behind the operations, from the oldest on. -/
def perform (store : κ → δ) (ops : List (Op κ δ)) : κ → δ := ops.foldl Op.apply store

/-- Run alone on this store, the operations return what they have returned. -/
def Explains : (κ → δ) → List (Op κ δ) → Prop
  | _, [] => True
  | store, .read x v :: ops => store x = v ∧ Explains store ops
  | store, .write x f :: ops => Explains (Function.update store x (f (store x))) ops

/-- The transactions, one after the other, lead from one store to the other, and each of them
    returns what it has returned. -/
def Serial : (κ → δ) → List (τ × List (Op κ δ)) → (κ → δ) → Prop
  | store, [], store' => store' = store
  | store, h :: hs, store' => Explains store h.2 ∧ Serial (perform store h.2) hs store'

section

variable {store store' : κ → δ} {ops : List (Op κ δ)} {x : κ} {v : δ} {f : δ → δ}

theorem perform_append_read : perform store (ops ++ [.read x v]) = perform store ops := by
  simp [perform, Op.apply]

theorem perform_append_write : perform store (ops ++ [.write x f]) =
    Function.update (perform store ops) x (f (perform store ops x)) := by
  simp [perform, Op.apply]

/-- An entry is what its updates have made of it. -/
theorem perform_eq_run (undo : Undo δ ν) :
    perform store ops x = (undo.run (store x) (updates ops x)).2 := by
  induction ops using List.reverseRecOn with
  | nil => rfl
  | append_singleton ops op ih =>
    cases op with
    | read y v => rw [perform_append_read, updates_append_read, ih]
    | write y f =>
      rw [perform_append_write]
      by_cases hyx : y = x
      · subst hyx
        rw [Function.update_self, updates_append_write, Undo.run_append, ih]
      · rw [Function.update_of_ne (Ne.symm hyx), updates_append_write_of_ne hyx, ih]

/-- What becomes of an entry depends on this entry alone. -/
theorem perform_congr (h : store x = store' x) : perform store ops x = perform store' ops x := by
  induction ops generalizing store store' with
  | nil => exact h
  | cons op ops ih =>
    apply ih
    cases op with
    | read y v => exact h
    | write y f =>
      by_cases hxy : x = y
      · subst hxy
        simp [Op.apply, h]
      · simp [Op.apply, Function.update_of_ne hxy, h]

/-- An entry that is not updated keeps its content. -/
theorem perform_of_not_writes (h : ¬ Writes ops x) : perform store ops x = store x := by
  induction ops generalizing store with
  | nil => rfl
  | cons op ops ih =>
    have htail : ¬ Writes ops x := fun ⟨f, hf⟩ => h ⟨f, List.mem_cons_of_mem _ hf⟩
    rw [perform, List.foldl_cons]
    apply (ih htail).trans
    cases op with
    | read y v => rfl
    | write y f =>
      have hxy : x ≠ y := by
        intro hxy
        subst hxy
        exact h ⟨f, List.mem_cons_self ..⟩
      exact Function.update_of_ne hxy _ _

/-- Only the entries that are read matter. -/
theorem explains_congr (h : ∀ x, Reads ops x → store x = store' x) :
    Explains store ops ↔ Explains store' ops := by
  induction ops generalizing store store' with
  | nil => rfl
  | cons op ops ih =>
    cases op with
    | read y v =>
      have htail : ∀ x, Reads ops x → store x = store' x := by
        rintro x ⟨w, hw⟩
        exact h x ⟨w, List.mem_cons_of_mem _ hw⟩
      rw [Explains, Explains, h y ⟨v, List.mem_cons_self ..⟩, ih htail]
    | write y f =>
      apply ih
      rintro x ⟨w, hw⟩
      have hx := h x ⟨w, List.mem_cons_of_mem _ hw⟩
      by_cases hxy : x = y
      · subst hxy
        simp [hx]
      · simp [Function.update_of_ne hxy, hx]

theorem explains_append_read : Explains store (ops ++ [.read x v]) ↔
    Explains store ops ∧ perform store ops x = v := by
  induction ops generalizing store with
  | nil => simp [Explains, perform]
  | cons op ops ih => cases op <;> simp [Explains, perform, Op.apply, ih, and_assoc]

theorem explains_append_write : Explains store (ops ++ [.write x f]) ↔ Explains store ops := by
  induction ops generalizing store with
  | nil => simp [Explains]
  | cons op ops ih => cases op <;> simp [Explains, ih]

/-- One more transaction at the end of a serial history. -/
theorem serial_append {hs : List (τ × List (Op κ δ))} {t : τ} {store'' : κ → δ}
    (h : Serial store hs store') (hops : Explains store' ops)
    (hstore : store'' = perform store' ops) : Serial store (hs ++ [(t, ops)]) store'' := by
  induction hs generalizing store with
  | nil =>
    subst h
    exact ⟨hops, hstore⟩
  | cons p hs ih => exact ⟨h.1, ih h.2⟩

end

/-! ## Updating in place -/

/-- The store with the updates of all transactions, the operations of the unfinished ones and
    what is kept of their updates, and the committed ones in the order of their commits. -/
structure State (τ : Type u) (κ : Type v) (δ : Type w) (ν : Type z) where
  store : κ → δ
  live : τ → List (Op κ δ)
  saved : τ → κ → Option ν
  history : List (τ × List (Op κ δ))

/-- A step of a transaction; an abort with the entries that it rolls back. -/
inductive Event (τ : Type u) (κ : Type v) (δ : Type w) where
  | read (t : τ) (x : κ)
  | write (t : τ) (x : κ) (f : δ → δ)
  | commit (t : τ)
  | abort (t : τ) (undone : κ → Bool)

/-- Nothing has happened yet. -/
def State.init (store : κ → δ) : State τ κ δ ν := ⟨store, fun _ => [], fun _ _ => none, []⟩

namespace State

variable [DecidableEq τ]

/-- The end of a transaction. -/
def finish (s : State τ κ δ ν) (t : τ) : State τ κ δ ν :=
  { s with live := Function.update s.live t [], saved := Function.update s.saved t fun _ => none }

/-- One step, whatever the other transactions have done. -/
def step (undo : Undo δ ν) (s : State τ κ δ ν) : Event τ κ δ → State τ κ δ ν
  | .read t x => { s with live := Function.update s.live t (s.live t ++ [.read x (s.store x)]) }
  | .write t x f =>
    { s with
      store := Function.update s.store x (f (s.store x))
      live := Function.update s.live t (s.live t ++ [.write x f])
      saved := Function.update s.saved t
        (Function.update (s.saved t) x (some (undo.note (s.saved t x) (s.store x) f))) }
  | .commit t => { s.finish t with history := s.history ++ [(t, s.live t)] }
  | .abort t undone =>
    { s.finish t with
      store := fun x => if undone x then undo.rollback (s.saved t x) (s.store x) else s.store x }

/-- **Strictness**: the entry has not been updated by another unfinished transaction, one that
    is to be updated has not been read by one either, and no update survives its abort. -/
def Strict (s : State τ κ δ ν) : Event τ κ δ → Prop
  | .read t x => ∀ u ≠ t, ¬ Writes (s.live u) x
  | .write t x _ => ∀ u ≠ t, ¬ Writes (s.live u) x ∧ ¬ Reads (s.live u) x
  | .commit _ => True
  | .abort t undone => ∀ x, Writes (s.live t) x → undone x = true

end State

/-! ## The committed store -/

/-- **The invariant**: `store` is what the committed transactions have left. It explains every
    unfinished transaction, and the updates of these are the only differences to the contents
    in place. -/
structure Committed (undo : Undo δ ν) (init store : κ → δ) (s : State τ κ δ ν) : Prop where
  serial : Serial init s.history store
  explains : ∀ t, Explains store (s.live t)
  clean : ∀ x, (∀ t, ¬ Writes (s.live t) x) → s.store x = store x
  dirty : ∀ t x, Writes (s.live t) x → s.store x = perform store (s.live t) x
  saved : ∀ t x, s.saved t x = (undo.run (store x) (updates (s.live t) x)).1
  apart : ∀ t u, u ≠ t → ∀ x, Writes (s.live t) x →
    ¬ Writes (s.live u) x ∧ ¬ Reads (s.live u) x

namespace Committed

variable {undo : Undo δ ν} {init store : κ → δ} {s : State τ κ δ ν} {t u : τ} {x : κ} {f : δ → δ}

theorem start (init : κ → δ) : Committed undo init init (State.init init : State τ κ δ ν) where
  serial := rfl
  explains := fun _ => trivial
  clean := fun _ _ => rfl
  dirty := fun _ _ h => absurd h not_writes_nil
  saved := fun _ _ => rfl
  apart := fun _ _ _ _ h => absurd h not_writes_nil

variable [DecidableEq τ]

/-- A transaction finds its own view where no other one has made an update. -/
theorem view (h : Committed undo init store s) (hother : ∀ u ≠ t, ¬ Writes (s.live u) x) :
    s.store x = perform store (s.live t) x := by
  by_cases hown : Writes (s.live t) x
  · exact h.dirty t x hown
  · rw [perform_of_not_writes hown]
    apply h.clean
    intro u
    by_cases hu : u = t
    · exact hu ▸ hown
    · exact hother u hu

theorem read (h : Committed undo init store s) (hok : s.Strict (.read t x)) :
    Committed undo init store (s.step undo (.read t x)) := by
  -- what is read in place is what the transaction would read alone
  have hview := h.view hok
  -- the updates are the same as before
  have hwrites : ∀ u y, Writes ((s.step undo (.read t x)).live u) y ↔ Writes (s.live u) y := by
    intro u y
    by_cases hu : u = t
    · subst hu
      simp [State.step]
    · simp [State.step, Function.update_of_ne hu]
  have hperform : ∀ u, perform store ((s.step undo (.read t x)).live u) = perform store (s.live u) := by
    intro u
    by_cases hu : u = t
    · subst hu
      simp [State.step, perform_append_read]
    · simp [State.step, Function.update_of_ne hu]
  constructor
  case serial => exact h.serial
  case explains =>
    intro u
    by_cases hu : u = t
    · subst hu
      simp only [State.step, Function.update_self]
      exact explains_append_read.mpr ⟨h.explains u, hview.symm⟩
    · simp only [State.step, Function.update_of_ne hu]
      exact h.explains u
  case clean => exact fun y hy => h.clean y fun u hu => hy u ((hwrites u y).mpr hu)
  case dirty =>
    intro u y hy
    rw [hperform]
    exact h.dirty u y ((hwrites u y).mp hy)
  case saved =>
    intro u y
    by_cases hu : u = t
    · subst hu
      simp only [State.step, Function.update_self, updates_append_read]
      exact h.saved u y
    · simp only [State.step, Function.update_of_ne hu]
      exact h.saved u y
  case apart =>
    intro u v hv y hy
    have hy' := (hwrites u y).mp hy
    obtain ⟨hnw, hnr⟩ := h.apart u v hv y hy'
    refine ⟨fun hw => hnw ((hwrites v y).mp hw), ?_⟩
    by_cases hvt : v = t
    · subst hvt
      simp only [State.step, Function.update_self, reads_append_read]
      rintro (hr | rfl)
      · exact hnr hr
      · exact hok u hv.symm hy'
    · simp only [State.step, Function.update_of_ne hvt]
      exact hnr

theorem write (h : Committed undo init store s) (hok : s.Strict (.write t x f)) :
    Committed undo init store (s.step undo (.write t x f)) := by
  have hview := h.view fun u hu => (hok u hu).1
  -- `x` is the only entry with a new update, and `t` has made it
  have hwrites : ∀ u y, Writes ((s.step undo (.write t x f)).live u) y ↔
      Writes (s.live u) y ∨ (u = t ∧ y = x) := by
    intro u y
    by_cases hu : u = t
    · subst hu
      simp [State.step]
    · simp [State.step, hu]
  constructor
  case serial => exact h.serial
  case explains =>
    intro u
    by_cases hu : u = t
    · subst hu
      simp only [State.step, Function.update_self]
      exact explains_append_write.mpr (h.explains u)
    · simp only [State.step, Function.update_of_ne hu]
      exact h.explains u
  case clean =>
    intro y hy
    have hyx : y ≠ x := fun hyx => hy t ((hwrites t y).mpr (.inr ⟨rfl, hyx⟩))
    simp only [State.step, Function.update_of_ne hyx]
    exact h.clean y fun u hu => hy u ((hwrites u y).mpr (.inl hu))
  case dirty =>
    intro u y hy
    by_cases hu : u = t
    · subst hu
      simp only [State.step, Function.update_self, perform_append_write]
      by_cases hyx : y = x
      · subst hyx
        simp [hview]
      · simp only [Function.update_of_ne hyx]
        exact h.dirty u y (((hwrites u y).mp hy).resolve_right fun hux => hyx hux.2)
    · have hy' := ((hwrites u y).mp hy).resolve_right fun hux => hu hux.1
      -- the others have not updated `x`
      have hyx : y ≠ x := fun hyx => (hok u hu).1 (hyx ▸ hy')
      simp only [State.step, Function.update_of_ne hu, Function.update_of_ne hyx]
      exact h.dirty u y hy'
  case saved =>
    intro u y
    by_cases hu : u = t
    · subst hu
      simp only [State.step, Function.update_self]
      by_cases hyx : y = x
      · -- in place is what the earlier updates of the transaction have made of the entry
        subst hyx
        rw [Function.update_self, updates_append_write, Undo.run_append, h.saved u y, hview,
          perform_eq_run undo]
      · rw [Function.update_of_ne hyx, updates_append_write_of_ne (Ne.symm hyx)]
        exact h.saved u y
    · simp only [State.step, Function.update_of_ne hu]
      exact h.saved u y
  case apart =>
    intro u v hv y hy
    have hreads : Reads ((s.step undo (.write t x f)).live v) y ↔ Reads (s.live v) y := by
      by_cases hvt : v = t
      · subst hvt
        simp [State.step]
      · simp [State.step, Function.update_of_ne hvt]
    rw [hreads, hwrites]
    rcases (hwrites u y).mp hy with hy' | ⟨rfl, rfl⟩
    · obtain ⟨hnw, hnr⟩ := h.apart u v hv y hy'
      refine ⟨?_, hnr⟩
      rintro (hw | ⟨rfl, rfl⟩)
      · exact hnw hw
      · exact (hok u hv.symm).1 hy'
    · -- the new update: nobody else has touched `x`
      obtain ⟨hnw, hnr⟩ := hok v hv
      refine ⟨?_, hnr⟩
      rintro (hw | ⟨hvt, -⟩)
      · exact hnw hw
      · exact hv hvt

/-- The end of a transaction, whether its updates stay or go. -/
theorem finish {store' inPlace : κ → δ} {history : List (τ × List (Op κ δ))}
    (h : Committed undo init store s) (hserial : Serial init history store')
    (hothers : ∀ x, ¬ Writes (s.live t) x → store' x = store x ∧ inPlace x = s.store x)
    (hown : ∀ x, Writes (s.live t) x → inPlace x = store' x) :
    Committed undo init store' { s.finish t with store := inPlace, history := history } := by
  -- what the others have touched is not updated by `t`
  have hapart : ∀ u ≠ t, ∀ x, Writes (s.live u) x ∨ Reads (s.live u) x → ¬ Writes (s.live t) x := by
    rintro u hu x (hw | hr) hown
    · exact (h.apart t u hu x hown).1 hw
    · exact (h.apart t u hu x hown).2 hr
  -- an entry with a live update is one of another transaction
  have hfinished : ∀ u x, Writes ((s.finish t).live u) x → u ≠ t ∧ Writes (s.live u) x := by
    intro u x hw
    by_cases hu : u = t
    · subst hu
      simp [State.finish] at hw
    · simp only [State.finish, Function.update_of_ne hu] at hw
      exact ⟨hu, hw⟩
  constructor
  case serial => exact hserial
  case explains =>
    intro u
    by_cases hu : u = t
    · subst hu
      simp [State.finish, Explains]
    · simp only [State.finish, Function.update_of_ne hu]
      refine (explains_congr fun x hr => ?_).mpr (h.explains u)
      exact (hothers x (hapart u hu x (.inr hr))).1
  case clean =>
    intro x hx
    by_cases hw : Writes (s.live t) x
    · -- an entry `t` has updated is in place as it is committed, the others are as they were
      exact hown x hw
    · obtain ⟨hstore, hplace⟩ := hothers x hw
      refine hplace.trans (Eq.trans (h.clean x fun u => ?_) hstore.symm)
      by_cases hu : u = t
      · exact hu ▸ hw
      · intro hwu
        apply hx u
        simpa only [State.finish, Function.update_of_ne hu] using hwu
  case dirty =>
    intro u x hw
    obtain ⟨hu, hw'⟩ := hfinished u x hw
    obtain ⟨hstore, hplace⟩ := hothers x (hapart u hu x (.inl hw'))
    simp only [State.finish, Function.update_of_ne hu]
    rw [hplace, h.dirty u x hw', perform_congr hstore]
  case saved =>
    intro u x
    by_cases hu : u = t
    · subst hu
      simp [State.finish, updates, Undo.run]
    · simp only [State.finish, Function.update_of_ne hu]
      rw [h.saved u x]
      by_cases hw : Writes (s.live u) x
      · rw [(hothers x (hapart u hu x (.inl hw))).1]
      · rw [updates_of_not_writes hw]
        rfl
  case apart =>
    intro u v hv x hw
    obtain ⟨hu, hw'⟩ := hfinished u x hw
    by_cases hvt : v = t
    · subst hvt
      simp [State.finish]
    · simp only [State.finish, Function.update_of_ne hvt]
      exact h.apart u v hv x hw'

/-- The updates of a committing transaction become part of the committed store. -/
theorem commit (h : Committed undo init store s) :
    Committed undo init (perform store (s.live t)) (s.step undo (.commit t)) := by
  refine h.finish (serial_append h.serial (h.explains t) rfl) ?_ ?_
  · intro x hx
    exact ⟨perform_of_not_writes hx, rfl⟩
  · intro x hx
    exact h.dirty t x hx

/-- The rollback of an aborted transaction gives back the committed contents. -/
theorem abort {undone : κ → Bool} (hundo : undo.Restores) (h : Committed undo init store s)
    (hok : s.Strict (.abort t undone)) :
    Committed undo init store (s.step undo (.abort t undone)) := by
  refine h.finish h.serial ?_ ?_
  · -- an entry without updates of the transaction is not changed
    intro x hx
    have hsame := hundo (s.store x) []
    refine ⟨rfl, ?_⟩
    rw [h.saved t x, updates_of_not_writes hx]
    split
    · exact hsame
    · rfl
  · intro x hx
    rw [hok x hx, if_pos rfl, h.saved t x, h.dirty t x hx, perform_eq_run undo]
    exact hundo _ _

/-- **Every strict step keeps the committed transactions serial**. -/
theorem step {e : Event τ κ δ} (hundo : undo.Restores) (h : Committed undo init store s)
    (hok : s.Strict e) : ∃ store', Committed undo init store' (s.step undo e) := by
  cases e with
  | read t x => exact ⟨store, h.read hok⟩
  | write t x f => exact ⟨store, h.write hok⟩
  | commit t => exact ⟨_, h.commit⟩
  | abort t undone => exact ⟨store, h.abort hundo hok⟩

end Committed

end SerialHistory
