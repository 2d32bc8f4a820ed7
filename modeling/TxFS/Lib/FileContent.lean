import Mathlib.Data.List.Basic
import Mathlib.Data.List.Perm.Basic
import Mathlib.Data.List.Nodup

/-!
# Contents of Files

The content of a file as a list of bytes: the segment between two offsets, and what a write at
an offset makes of the content. A write behind the end leaves a hole of zeros, a write of no
bytes changes nothing.

`eq_of_flatMap_marks` recovers the order of the blocks that a content was put together from.
-/

namespace FileContent

universe u

/-! ## Segments -/

section

variable {α : Type u} {xs ys : List α} {a b c p : Nat}

/-- The part of the content from the offset `a` up to the offset `b`. -/
def segment (xs : List α) (a b : Nat) : List α := (xs.drop a).take (b - a)

theorem segment_self : segment xs a a = [] := by
  simp [segment]

theorem segment_append (hab : a ≤ b) (hbc : b ≤ c) :
    segment xs a b ++ segment xs b c = segment xs a c := by
  have hsum : c - a = (b - a) + (c - b) := by omega
  have hdrop : xs.drop b = (xs.drop a).drop (b - a) := by
    rw [List.drop_drop]
    congr 1
    omega
  rw [segment, segment, segment, hsum, hdrop, List.take_add]

theorem getElem?_segment (hp : a + p < b) : (segment xs a b)[p]? = xs[a + p]? := by
  rw [segment, List.getElem?_take_of_lt (by omega), List.getElem?_drop]

theorem length_segment (hb : b ≤ xs.length) : (segment xs a b).length = b - a := by
  rw [segment, List.length_take, List.length_drop]
  omega

theorem mem_of_mem_segment {x : α} (hx : x ∈ segment xs a b) : x ∈ xs :=
  List.mem_of_mem_drop (List.mem_of_mem_take hx)

theorem length_segment_le : (segment xs a b).length ≤ b - a := List.length_take_le ..

/-- A list of the right length that agrees with the content is the segment. -/
theorem eq_segment (hlength : ys.length = b - a)
    (h : ∀ p, p < b - a → ys[p]? = xs[a + p]?) : ys = segment xs a b := by
  apply List.ext_getElem?
  intro p
  by_cases hp : p < b - a
  · rw [h p hp, getElem?_segment (by omega)]
  · have hlong : (segment xs a b).length ≤ p := Nat.le_trans length_segment_le (Nat.le_of_not_lt hp)
    rw [List.getElem?_eq_none (by omega), List.getElem?_eq_none hlong]

end

/-! ## Writes -/

section

variable {xs bs : List UInt8} {off p : Nat}

/-- The content behind a write of `bs` at the offset `off`. -/
def patch (xs : List UInt8) (off : Nat) (bs : List UInt8) : List UInt8 :=
  if bs = [] then xs
  else xs.take off ++ List.replicate (off - xs.length) 0 ++ bs ++ xs.drop (off + bs.length)

@[simp] theorem patch_nil : patch xs off [] = xs := if_pos rfl

theorem length_patch (h : bs ≠ []) :
    (patch xs off bs).length = max xs.length (off + bs.length) := by
  simp only [patch, if_neg h, List.length_append, List.length_take, List.length_replicate,
    List.length_drop]
  omega

/-- The bytes that are written. -/
theorem getElem?_patch_inside (hle : off ≤ p) (hlt : p < off + bs.length) :
    (patch xs off bs)[p]? = bs[p - off]? := by
  have hne : bs ≠ [] := by
    rintro rfl
    simp at hlt
    omega
  have hfront : (xs.take off ++ List.replicate (off - xs.length) 0).length = off := by
    simp only [List.length_append, List.length_take, List.length_replicate]
    omega
  rw [patch, if_neg hne, List.append_assoc, List.getElem?_append_right (by omega), hfront,
    List.getElem?_append_left (by omega)]

/-- Two writes, the second behind the first. -/
theorem patch_patch {as : List UInt8} : patch (patch xs off as) (off + as.length) bs = patch xs off (as ++ bs) := by
  by_cases has : as = []
  · rw [has, patch_nil, List.length_nil, Nat.add_zero, List.nil_append]
  by_cases hbs : bs = []
  · rw [hbs, patch_nil, List.append_nil]
  have hfront : (xs.take off ++ List.replicate (off - xs.length) 0).length = off := by
    simp only [List.length_append, List.length_take, List.length_replicate]
    omega
  have hlong : off + as.length - (patch xs off as).length = 0 := by
    rw [length_patch has]
    omega
  have hne : as ++ bs ≠ [] := fun h => has (List.append_eq_nil_iff.mp h).1
  have hsplit : patch xs off as =
      (xs.take off ++ List.replicate (off - xs.length) 0 ++ as) ++ xs.drop (off + as.length) :=
    if_neg has
  have hlength : (xs.take off ++ List.replicate (off - xs.length) 0 ++ as).length =
      off + as.length := by
    rw [List.length_append, hfront]
  have htake : (patch xs off as).take (off + as.length) =
      xs.take off ++ List.replicate (off - xs.length) 0 ++ as := by
    rw [hsplit, ← hlength, List.take_left]
  have hdrop : (patch xs off as).drop (off + as.length + bs.length) =
      xs.drop (off + (as ++ bs).length) := by
    rw [hsplit, ← List.drop_drop, ← hlength, List.drop_left, hlength, List.drop_drop,
      List.length_append, Nat.add_assoc]
  rw [patch, if_neg hbs, hlong, htake, hdrop, patch, if_neg hne, List.replicate_zero]
  simp only [List.append_assoc, List.nil_append]

/-- The other bytes of the content. -/
theorem getElem?_patch_outside (hp : p < xs.length) (hout : p < off ∨ off + bs.length ≤ p) :
    (patch xs off bs)[p]? = xs[p]? := by
  by_cases hne : bs = []
  · rw [hne, patch_nil]
  have hfront : (xs.take off ++ List.replicate (off - xs.length) 0).length = off := by
    simp only [List.length_append, List.length_take, List.length_replicate]
    omega
  rw [patch, if_neg hne, List.append_assoc]
  rcases hout with hlt | hge
  · rw [List.getElem?_append_left (by omega), List.getElem?_append_left (by
      rw [List.length_take]
      omega), List.getElem?_take_of_lt hlt]
  · rw [List.getElem?_append_right (by omega), hfront, List.getElem?_append_right (by omega),
      List.getElem?_drop]
    congr 1
    omega

/-! ### Segments of a content that was written to -/

variable {a b : Nat}

/-- The bytes that are written are there. -/
theorem segment_patch_inside (ha : off ≤ a) (hb : b ≤ off + bs.length) :
    segment (patch xs off bs) a b = segment bs (a - off) (b - off) := by
  symm
  apply eq_segment
  · rw [length_segment (by omega)]
    omega
  · intro p hp
    rw [getElem?_segment (by omega), getElem?_patch_inside (by omega) (by omega)]
    congr 1
    omega

/-- The other bytes stay, where the content had them. -/
theorem segment_patch_outside (hfull : (segment xs a b).length = b - a)
    (hout : b ≤ off ∨ off + bs.length ≤ a) :
    segment (patch xs off bs) a b = segment xs a b := by
  symm
  apply eq_segment hfull
  intro p hp
  have hlength : (segment xs a b).length = min (b - a) (xs.length - a) := by
    rw [segment, List.length_take, List.length_drop]
  rw [getElem?_segment (by omega), getElem?_patch_outside (by omega) (by omega)]

end

/-! ## Blocks -/

section

variable {α : Type u} [DecidableEq α] {A B : List α} (len : α → Nat)

/-- The block `b` is marked with ones, every other block with twos. -/
def mark (b a : α) : List UInt8 := List.replicate (len a) (if a = b then 1 else 2)

/-- Two orders of the same blocks give the same content, whichever block is marked, only if they
    are the same. -/
theorem eq_of_flatMap_marks (hpos : ∀ a ∈ A, 0 < len a) (hnodup : A.Nodup) (hperm : A.Perm B)
    (h : ∀ b ∈ A, A.flatMap (mark len b) = B.flatMap (mark len b)) : A = B := by
  induction A generalizing B with
  | nil => exact hperm.nil_eq.symm ▸ rfl
  | cons a A ih =>
    cases B with
    | nil => exact absurd hperm.length_eq (by simp)
    | cons b B =>
      have hab : a = b := by
        by_contra hne
        -- with `a` marked, the contents differ in their first byte
        have hmarked := h a (List.mem_cons_self ..)
        have hb : b ∈ a :: A := hperm.mem_iff.mpr (List.mem_cons_self ..)
        obtain ⟨m, hm⟩ := Nat.exists_eq_succ_of_ne_zero (Nat.ne_of_gt (hpos a (List.mem_cons_self ..)))
        obtain ⟨k, hk⟩ := Nat.exists_eq_succ_of_ne_zero (Nat.ne_of_gt (hpos b hb))
        have hhead := congrArg List.head? hmarked
        simp [mark, hm, hk, List.replicate_succ, Ne.symm hne] at hhead
      subst hab
      obtain ⟨hnot, hnodup⟩ := List.nodup_cons.mp hnodup
      refine congrArg (a :: ·) (ih (fun c hc => hpos c (List.mem_cons_of_mem _ hc)) hnodup
        hperm.cons_inv fun c hc => ?_)
      have hc' := h c (List.mem_cons_of_mem _ hc)
      rw [List.flatMap_cons, List.flatMap_cons] at hc'
      exact List.append_cancel_left hc'

end

end FileContent
