import Mathlib.Data.List.Nodup
import Mathlib.Logic.Function.Basic

/-!
# Circular Lists

Lists with a head node and links in both directions, as the `list_head` of a C program: the head
is a node without an element, and the last node leads back to it. Many lists live in one memory
of links.

`Ring l h xs` says that the links of the list with head `h` visit exactly `xs`. A ring can be
read from each of its nodes (`Ring.rotate`), so an insertion behind a node and a deletion are
proved at the front only. Other rings are not touched (`Ring.frame`).
-/

namespace CircularList

universe u

variable {ν : Type u}

/-- The links of all nodes. -/
structure Links (ν : Type u) where
  next : ν → ν
  prev : ν → ν

/-- The links lead from `a` over `xs` to `z`, and back. -/
def Segment (l : Links ν) : ν → List ν → ν → Prop
  | a, [], z => l.next a = z ∧ l.prev z = a
  | a, x :: xs, z => (l.next a = x ∧ l.prev x = a) ∧ Segment l x xs z

/-- The list with head `h` has the nodes `xs`. -/
structure Ring (l : Links ν) (h : ν) (xs : List ν) : Prop where
  nodup : (h :: xs).Nodup
  segment : Segment l h xs h

variable {l l' : Links ν} {a h k x y z : ν} {xs ys as bs : List ν}

/-! ## Segments -/

theorem segment_append :
    Segment l a (xs ++ y :: ys) z ↔ Segment l a xs y ∧ Segment l y ys z := by
  induction xs generalizing a with
  | nil => exact Iff.rfl
  | cons x xs ih =>
    show (_ ∧ Segment l x (xs ++ y :: ys) z) ↔ (_ ∧ Segment l x xs y) ∧ _
    rw [ih, ← and_assoc]

/-- A segment depends on the links of its own nodes. -/
theorem Segment.congr (hseg : Segment l a xs z) (hnext : ∀ n ∈ a :: xs, l'.next n = l.next n)
    (hprev : ∀ n ∈ xs ++ [z], l'.prev n = l.prev n) : Segment l' a xs z := by
  induction xs generalizing a with
  | nil =>
    obtain ⟨hn, hp⟩ := hseg
    exact ⟨(hnext a (List.mem_cons_self ..)).trans hn, (hprev z (List.mem_singleton_self z)).trans hp⟩
  | cons x xs ih =>
    obtain ⟨⟨hn, hp⟩, hrest⟩ := hseg
    refine ⟨⟨?_, ?_⟩, ih hrest (fun n hn => hnext n (List.mem_cons_of_mem _ hn))
      fun n hn => hprev n (List.mem_cons_of_mem _ hn)⟩
    · exact (hnext a (List.mem_cons_self ..)).trans hn
    · exact (hprev x (List.mem_cons_self ..)).trans hp

/-! ## Rings -/

/-- **A ring read from another node**. -/
theorem Ring.rotate (hring : Ring l h (as ++ a :: bs)) : Ring l a (bs ++ h :: as) := by
  obtain ⟨hnodup, hseg⟩ := hring
  obtain ⟨hfront, hback⟩ := segment_append.mp hseg
  refine ⟨?_, segment_append.mpr ⟨hback, hfront⟩⟩
  have hperm : List.Perm (h :: (as ++ a :: bs)) (a :: (bs ++ h :: as)) := by
    have hcomm : List.Perm ((h :: as) ++ (a :: bs)) ((a :: bs) ++ (h :: as)) := List.perm_append_comm
    exact hcomm
  exact hperm.nodup_iff.mp hnodup

theorem Ring.next (hring : Ring l h (as ++ a :: bs)) : l.next a = (bs ++ [h]).headD h := by
  have hback := (segment_append.mp hring.segment).2
  cases bs with
  | nil => exact hback.1
  | cons b bs => exact hback.1.1

theorem Ring.next_head (hring : Ring l h xs) : l.next h = (xs ++ [h]).headD h := by
  have hseg := hring.segment
  cases xs with
  | nil => exact hseg.1
  | cons x xs => exact hseg.1.1

/-- `list_empty`. -/
theorem Ring.next_eq_head_iff (hring : Ring l h xs) : l.next h = h ↔ xs = [] := by
  rw [hring.next_head]
  cases xs with
  | nil => simp
  | cons x xs =>
    have hne : h ≠ x := by
      rintro rfl
      exact (List.nodup_cons.mp hring.nodup).1 (List.mem_cons_self ..)
    simp [Ne.symm hne]

theorem Ring.prev_head (hring : Ring l h xs) : l.prev h = (h :: xs).getLast (List.cons_ne_nil _ _) := by
  rcases xs.eq_nil_or_concat with rfl | ⟨xs, x, rfl⟩
  · exact hring.segment.2
  · rw [List.concat_eq_append, List.getLast_cons (by simp), List.getLast_append_singleton]
    have hback := (segment_append.mp (List.concat_eq_append ▸ hring.segment)).2
    exact hback.2

/-- The neighbours of a node are nodes. -/
theorem Ring.neighbours_mem (hring : Ring l h xs) (ha : a ∈ h :: xs) :
    l.next a ∈ h :: xs ∧ l.prev a ∈ h :: xs := by
  -- at the head
  have hhead : ∀ {h : ν} {xs : List ν}, Ring l h xs → l.next h ∈ h :: xs ∧ l.prev h ∈ h :: xs := by
    intro h xs hring
    constructor
    · rw [hring.next_head]
      cases xs with
      | nil => simp
      | cons x xs => simp
    · rw [hring.prev_head]
      exact List.getLast_mem _
  rcases List.mem_cons.mp ha with rfl | hmem
  · exact hhead hring
  · obtain ⟨as, bs, rfl⟩ := List.append_of_mem hmem
    obtain ⟨hnext, hprev⟩ := hhead hring.rotate
    simp only [List.mem_cons, List.mem_append] at hnext hprev ⊢
    constructor
    · tauto
    · tauto

/-- **Other links do not matter**. -/
theorem Ring.frame (hring : Ring l k ys) (hnext : ∀ n ∈ k :: ys, l'.next n = l.next n)
    (hprev : ∀ n ∈ k :: ys, l'.prev n = l.prev n) : Ring l' k ys := by
  refine ⟨hring.nodup, hring.segment.congr hnext fun n hn => hprev n ?_⟩
  rcases List.mem_append.mp hn with hys | hk
  · exact List.mem_cons_of_mem _ hys
  · exact List.mem_singleton.mp hk ▸ List.mem_cons_self ..

/-! ## Insertion -/

variable [DecidableEq ν]

/-- `__list_add (x, a, a->next)`, the links in the order in which they are set. -/
def insertAfter (l : Links ν) (x a : ν) : Links ν :=
  let n := l.next a
  { next := Function.update (Function.update l.next x n) a x
    prev := Function.update (Function.update l.prev n x) x a }

theorem Ring.insert_front (hring : Ring l h xs) (hx : x ∉ h :: xs) :
    Ring (insertAfter l x h) h (x :: xs) := by
  obtain ⟨hnodup, hseg⟩ := hring
  simp only [List.mem_cons, not_or] at hx
  obtain ⟨hxh, hxs⟩ := hx
  refine ⟨?_, ?_⟩
  · rw [List.nodup_cons, List.nodup_cons]
    obtain ⟨hh, hxs'⟩ := List.nodup_cons.mp hnodup
    refine ⟨?_, hxs, hxs'⟩
    simp only [List.mem_cons, not_or]
    exact ⟨Ne.symm hxh, hh⟩
  · show ((insertAfter l x h).next h = x ∧ (insertAfter l x h).prev x = h) ∧ Segment _ x xs h
    refine ⟨⟨Function.update_self .., Function.update_self ..⟩, ?_⟩
    have hnextx : (insertAfter l x h).next x = l.next h := by
      simp [insertAfter, hxh]
    cases xs with
    | nil =>
      -- the first node
      have hn : l.next h = h := hseg.1
      refine ⟨hnextx.trans hn, ?_⟩
      simp [insertAfter, hn, Ne.symm hxh]
    | cons y ys =>
      obtain ⟨⟨hn, hp⟩, hrest⟩ := hseg
      obtain ⟨hh, hy⟩ := List.nodup_cons.mp hnodup
      have hyh : y ∉ ys ++ [h] := by
        rw [List.mem_append, List.mem_singleton, not_or]
        exact ⟨(List.nodup_cons.mp hy).1, fun heq => hh (heq ▸ List.mem_cons_self ..)⟩
      have hxh' : x ∉ ys ++ [h] := by
        rw [List.mem_append, List.mem_singleton, not_or]
        exact ⟨fun hmem => hxs (List.mem_cons_of_mem _ hmem), hxh⟩
      have hyx : y ≠ x := fun heq => hxs (heq ▸ List.mem_cons_self ..)
      refine ⟨⟨hnextx.trans hn, ?_⟩, hrest.congr (fun n hmem => ?_) fun n hmem => ?_⟩
      · simp [insertAfter, hn, hyx]
      · simp [insertAfter, ne_of_mem_of_not_mem hmem hh, ne_of_mem_of_not_mem hmem hxs]
      · simp [insertAfter, hn, ne_of_mem_of_not_mem hmem hyh, ne_of_mem_of_not_mem hmem hxh']

/-- **Insertion behind a node**. -/
theorem Ring.insert (hring : Ring l h (as ++ a :: bs)) (hx : x ∉ h :: (as ++ a :: bs)) :
    Ring (insertAfter l x a) h (as ++ a :: x :: bs) := by
  have hx' : x ∉ a :: (bs ++ h :: as) := by
    simp only [List.mem_cons, List.mem_append, not_or] at hx ⊢
    tauto
  have hfront : Ring (insertAfter l x a) a ((x :: bs) ++ h :: as) := hring.rotate.insert_front hx'
  exact hfront.rotate

/-! ## Deletion -/

/-- `list_del_init`. -/
def deleteInit (l : Links ν) (x : ν) : Links ν where
  next := Function.update (Function.update l.next (l.prev x) (l.next x)) x x
  prev := Function.update (Function.update l.prev (l.next x) (l.prev x)) x x

theorem Ring.delete_front (hring : Ring l h (x :: xs)) : Ring (deleteInit l x) h xs := by
  obtain ⟨hnodup, ⟨hn, hp⟩, hseg⟩ := hring
  obtain ⟨hh, hxs⟩ := List.nodup_cons.mp hnodup
  obtain ⟨hx, hxs⟩ := List.nodup_cons.mp hxs
  have hhx : h ≠ x := fun heq => hh (heq ▸ List.mem_cons_self ..)
  have hhxs : h ∉ xs := fun hmem => hh (List.mem_cons_of_mem _ hmem)
  refine ⟨List.nodup_cons.mpr ⟨hhxs, hxs⟩, ?_⟩
  cases xs with
  | nil =>
    obtain ⟨hnx, hph⟩ := hseg
    constructor
    · simp [deleteInit, hp, hnx, hhx]
    · simp [deleteInit, hp, hnx, hhx]
  | cons y ys =>
    obtain ⟨⟨hnx, hpy⟩, hrest⟩ := hseg
    have hyx : y ≠ x := fun heq => hx (heq ▸ List.mem_cons_self ..)
    have hyh : y ∉ ys ++ [h] := by
      rw [List.mem_append, List.mem_singleton, not_or]
      exact ⟨(List.nodup_cons.mp hxs).1, fun heq => hhxs (heq ▸ List.mem_cons_self ..)⟩
    have hxh : x ∉ ys ++ [h] := by
      rw [List.mem_append, List.mem_singleton, not_or]
      exact ⟨fun hmem => hx (List.mem_cons_of_mem _ hmem), Ne.symm hhx⟩
    refine ⟨⟨?_, ?_⟩, hrest.congr (fun n hmem => ?_) fun n hmem => ?_⟩
    · simp [deleteInit, hp, hnx, hhx]
    · simp [deleteInit, hp, hnx, hyx]
    · simp [deleteInit, hp, ne_of_mem_of_not_mem hmem hhxs, ne_of_mem_of_not_mem hmem hx]
    · simp [deleteInit, hnx, ne_of_mem_of_not_mem hmem hyh, ne_of_mem_of_not_mem hmem hxh]

/-- **Deletion of a node**. -/
theorem Ring.delete (hring : Ring l h (as ++ x :: bs)) : Ring (deleteInit l x) h (as ++ bs) := by
  rcases as.eq_nil_or_concat with rfl | ⟨as, a, rfl⟩
  · exact hring.delete_front
  · -- read from the node before it
    have hring' : Ring l h (as ++ a :: (x :: bs)) := by
      simpa using hring
    have hfront : Ring (deleteInit l x) a (bs ++ h :: as) := hring'.rotate.delete_front
    have hback := hfront.rotate
    simpa using hback

/-! ## The other rings -/

theorem Ring.insert_other (hring : Ring l h xs) (ha : a ∈ h :: xs) (hother : Ring l k ys)
    (hdisjoint : ∀ n ∈ k :: ys, n ∉ h :: xs) (hx : x ∉ k :: ys) : Ring (insertAfter l x a) k ys := by
  have hnext := (hring.neighbours_mem ha).1
  refine hother.frame (fun n hn => ?_) fun n hn => ?_
  · simp [insertAfter, ne_of_mem_of_not_mem hn hx, (ne_of_mem_of_not_mem ha (hdisjoint n hn)).symm]
  · simp [insertAfter, ne_of_mem_of_not_mem hn hx,
      (ne_of_mem_of_not_mem hnext (hdisjoint n hn)).symm]

theorem Ring.delete_other (hring : Ring l h xs) (hx : x ∈ h :: xs) (hother : Ring l k ys)
    (hdisjoint : ∀ n ∈ k :: ys, n ∉ h :: xs) : Ring (deleteInit l x) k ys := by
  obtain ⟨hnext, hprev⟩ := hring.neighbours_mem hx
  refine hother.frame (fun n hn => ?_) fun n hn => ?_
  · simp [deleteInit, (ne_of_mem_of_not_mem hx (hdisjoint n hn)).symm,
      (ne_of_mem_of_not_mem hprev (hdisjoint n hn)).symm]
  · simp [deleteInit, (ne_of_mem_of_not_mem hx (hdisjoint n hn)).symm,
      (ne_of_mem_of_not_mem hnext (hdisjoint n hn)).symm]

end CircularList
