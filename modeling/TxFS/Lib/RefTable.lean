import Mathlib.Data.List.Basic
import Mathlib.Data.List.Count
import Mathlib.Data.Fintype.EquivFin
import Mathlib.Logic.Function.Basic

/-!
# Tables with References

A table has `n` slots, and each slot is empty or refers to something: an entry of another table,
or an object. `refs n p j` counts the slots that refer to `j`; a reference count in the other
table is right if it is this number.

A slot that is set changes the count by the reference it had and the one it gets (`refs_set`).
When every used entry of a second table of `n` slots has a reference, a free slot in the first
table leaves a free one in the second (`exists_unused`).
-/

namespace RefTable

universe u

variable {ν : Type u} [DecidableEq ν] {n k : Nat} {p q : Nat → Option ν} {j : ν}

/-- How many of the first `n` slots refer to `j`. -/
def refs (n : Nat) (p : Nat → Option ν) (j : ν) : Nat := (List.range n).countP fun i => p i = some j

theorem refs_succ : refs (n + 1) p j = refs n p j + if p n = some j then 1 else 0 := by
  rw [refs, List.range_succ, List.countP_append, List.countP_singleton, refs]
  simp only [decide_eq_true_eq]

theorem refs_congr (h : ∀ i < n, p i = q i) : refs n p j = refs n q j := by
  apply List.countP_congr
  intro i hi
  rw [h i (List.mem_range.mp hi)]

/-- A slot behind the end of the table does not count. -/
theorem refs_set_of_le (h : n ≤ k) (v : Option ν) :
    refs n (Function.update p k v) j = refs n p j := by
  apply refs_congr
  intro i hi
  exact Function.update_of_ne (Nat.ne_of_lt (Nat.lt_of_lt_of_le hi h)) _ _

/-- **Setting a slot**. -/
theorem refs_set (h : k < n) (v : Option ν) :
    refs n (Function.update p k v) j + (if p k = some j then 1 else 0) =
      refs n p j + if v = some j then 1 else 0 := by
  induction n with
  | zero => cases h
  | succ n ih =>
    rw [refs_succ, refs_succ]
    rcases Nat.lt_succ_iff_lt_or_eq.mp h with hk | rfl
    · have hn : Function.update p k v n = p n := Function.update_of_ne (Nat.ne_of_gt hk) _ _
      have ih' := ih hk
      rw [hn]
      omega
    · rw [refs_set_of_le (Nat.le_refl _), Function.update_self]
      omega

theorem refs_pos_iff : 0 < refs n p j ↔ ∃ i < n, p i = some j := by
  rw [refs, List.countP_pos_iff]
  constructor
  · rintro ⟨i, hi, hp⟩
    exact ⟨i, List.mem_range.mp hi, of_decide_eq_true hp⟩
  · rintro ⟨i, hi, hp⟩
    exact ⟨i, List.mem_range.mpr hi, decide_eq_true hp⟩

/-- Filling an empty slot. -/
theorem refs_fill (h : k < n) (hempty : p k = none) (i : ν) :
    refs n (Function.update p k (some i)) j = refs n p j + if i = j then 1 else 0 := by
  have hset := refs_set (p := p) (j := j) h (some i)
  rw [hempty, if_neg (by simp), Nat.add_zero] at hset
  rw [hset]
  simp only [Option.some.injEq]

/-- Emptying a slot. -/
theorem refs_empty (h : k < n) {i : ν} (hp : p k = some i) :
    refs n p j = refs n (Function.update p k none) j + if i = j then 1 else 0 := by
  have hset := refs_set (p := p) (j := j) h none
  rw [hp, if_neg (c := none = some j) (by simp), Nat.add_zero] at hset
  rw [← hset]
  simp only [Option.some.injEq]

/-- **No entry runs out first**: if every used entry has a reference and a slot is free, some
    entry is not used. -/
theorem exists_unused {p : Nat → Option Nat} (used : Nat → Prop) (hk : k < n) (hfree : p k = none)
    (hused : ∀ j < n, used j → ∃ i < n, p i = some j) : ∃ j < n, ¬ used j := by
  by_contra hall
  have hslot : ∀ j : Fin n, ∃ i : Fin n, p i = some j.1 := by
    intro j
    have hj : used j.1 := by
      by_contra hj
      exact hall ⟨j.1, j.2, hj⟩
    obtain ⟨i, hi, hp⟩ := hused j.1 j.2 hj
    exact ⟨⟨i, hi⟩, hp⟩
  choose f hf using hslot
  -- different entries have different slots, so the free slot belongs to some entry
  have hinj : Function.Injective f := by
    intro i j hij
    have hi := hf i
    rw [hij, hf j] at hi
    exact Fin.ext (Option.some.inj hi).symm
  obtain ⟨j, hj⟩ := Finite.surjective_of_injective hinj ⟨k, hk⟩
  have hkj := hf j
  rw [hj, hfree] at hkj
  cases hkj

end RefTable
