import Mathlib.Data.List.Nodup

/-!
# Cursors

A cursor goes through a list whose elements come and go meanwhile: `next` is the element that the
next read returns. A read moves the cursor to the element behind, and so does the erasure of the
element at the cursor; insertions happen anywhere.

A cursor that goes from the front to the end reads every element at most once, and it reads those
that stay, whatever happens to the others (`Valid.count_reads`).
-/

namespace Cursor

universe u

variable {α : Type u} [DecidableEq α]

/-- A list with a position; `none` is the end. -/
structure State (α : Type u) where
  items : List α
  next : Option α

inductive Op (α : Type u) where
  | read
  | erase (y : α)
  /-- The element goes to the front, or behind `b`. -/
  | insert (z : α) (b : Option α)

/-- The elements from `o` on. -/
def from' (xs : List α) (o : α) : List α := xs.dropWhile (· ≠ o)

/-- The element behind `o`. -/
def succ (xs : List α) (o : α) : Option α := (from' xs o).tail.head?

/-- `z` behind `b`. -/
def insertBehind (z b : α) : List α → List α
  | [] => [z]
  | a :: as => if a = b then a :: z :: as else a :: insertBehind z b as

def insertAt (z : α) (b : Option α) (xs : List α) : List α :=
  match b with
  | none => z :: xs
  | some b => insertBehind z b xs

def apply (c : State α) : Op α → State α
  | .read => { c with next := c.next.bind (succ c.items) }
  | .erase y => ⟨c.items.erase y, if c.next = some y then succ c.items y else c.next⟩
  | .insert z b => { c with items := insertAt z b c.items }

/-- What the operation reads. -/
def output (c : State α) : Op α → List α
  | .read => c.next.toList
  | _ => []

/-- What is still to be read. -/
def ahead (c : State α) : List α := c.next.elim [] (from' c.items)

/-- The cursor is at an element of the list. -/
structure Valid (c : State α) : Prop where
  nodup : c.items.Nodup
  next : ∀ o, c.next = some o → o ∈ c.items

/-- New elements are new, and `b` is in the list. -/
def Ok (c : State α) : Op α → Prop
  | .insert z b => z ∉ c.items ∧ ∀ a ∈ b, a ∈ c.items
  | _ => True

variable {c : State α} {op : Op α} {xs as bs : List α} {o x y z b : α}

/-! ## Positions in a list -/

theorem from'_append (ho : o ∉ as) : from' (as ++ o :: bs) o = o :: bs := by
  induction as with
  | nil => simp [from']
  | cons a as ih =>
    simp only [List.mem_cons, not_or] at ho
    have hne : a ≠ o := Ne.symm ho.1
    rw [List.cons_append, from', List.dropWhile_cons_of_pos (by simpa using hne)]
    exact ih ho.2

/-- A list without repetitions, split at an element. -/
theorem exists_split (hxs : xs.Nodup) (ho : o ∈ xs) :
    ∃ as bs, xs = as ++ o :: bs ∧ o ∉ as ∧ o ∉ bs ∧ from' xs o = o :: bs ∧ succ xs o = bs.head? := by
  obtain ⟨as, bs, rfl⟩ := List.append_of_mem ho
  obtain ⟨-, hbs, hdisjoint⟩ := List.nodup_append.mp hxs
  have has : o ∉ as := fun hmem => hdisjoint o hmem o (List.mem_cons_self ..) rfl
  refine ⟨as, bs, rfl, has, (List.nodup_cons.mp hbs).1, from'_append has, ?_⟩
  rw [succ, from'_append has]
  rfl

theorem mem_insertBehind : x ∈ insertBehind z b xs ↔ x = z ∨ x ∈ xs := by
  induction xs with
  | nil => simp [insertBehind]
  | cons a as ih =>
    rw [insertBehind]
    split
    · simp only [List.mem_cons]
      tauto
    · simp only [List.mem_cons, ih]
      tauto

theorem mem_insertAt {b : Option α} : x ∈ insertAt z b xs ↔ x = z ∨ x ∈ xs := by
  cases b with
  | none => exact List.mem_cons
  | some b => exact mem_insertBehind

theorem insertBehind_append (hb : b ∉ as) : insertBehind z b (as ++ b :: bs) = as ++ b :: z :: bs := by
  induction as with
  | nil => simp [insertBehind]
  | cons a as ih =>
    simp only [List.mem_cons, not_or] at hb
    rw [List.cons_append, insertBehind, if_neg (Ne.symm hb.1), ih hb.2]
    rfl

theorem nodup_insertAt {b : Option α} (hxs : xs.Nodup) (hz : z ∉ xs) : (insertAt z b xs).Nodup := by
  cases b with
  | none => exact List.nodup_cons.mpr ⟨hz, hxs⟩
  | some b =>
    show (insertBehind z b xs).Nodup
    induction xs with
    | nil => exact List.nodup_singleton z
    | cons a as ih =>
      obtain ⟨ha, has⟩ := List.nodup_cons.mp hxs
      simp only [List.mem_cons, not_or] at hz
      rw [insertBehind]
      split
      · refine List.nodup_cons.mpr ⟨?_, List.nodup_cons.mpr ⟨hz.2, has⟩⟩
        simp only [List.mem_cons, not_or]
        exact ⟨Ne.symm hz.1, ha⟩
      · refine List.nodup_cons.mpr ⟨?_, ih has hz.2⟩
        rw [mem_insertBehind, not_or]
        exact ⟨Ne.symm hz.1, ha⟩

/-- The others stay on their side of `o`. -/
theorem mem_from'_insertAt {b : Option α} (hxz : x ≠ z) (hoz : o ≠ z) :
    x ∈ from' (insertAt z b xs) o ↔ x ∈ from' xs o := by
  have hskip : ∀ ys : List α, x ∈ from' (z :: ys) o ↔ x ∈ from' ys o := by
    intro ys
    rw [from', List.dropWhile_cons_of_pos (by simpa using Ne.symm hoz)]
    rfl
  cases b with
  | none => exact hskip xs
  | some b =>
    show x ∈ from' (insertBehind z b xs) o ↔ _
    induction xs with
    | nil => exact hskip []
    | cons a as ih =>
      rw [insertBehind]
      by_cases hao : a = o
      · subst hao
        have hhere : ∀ ys : List α, from' (a :: ys) a = a :: ys := by
          intro ys
          rw [from', List.dropWhile_cons_of_neg (by simp)]
        split
        · rw [hhere, hhere]
          simp only [List.mem_cons, hxz, false_or]
        · rw [hhere, hhere]
          simp only [List.mem_cons, mem_insertBehind, hxz, false_or]
      · have hbehind : ∀ ys : List α, from' (a :: ys) o = from' ys o := by
          intro ys
          rw [from', List.dropWhile_cons_of_pos (by simpa using hao)]
          rfl
        split
        · rw [hbehind, hskip, hbehind]
        · rw [hbehind, hbehind]
          exact ih

/-! ## Operations -/

theorem Valid.after (hc : Valid c) (hok : Ok c op) : Valid (apply c op) := by
  cases op with
  | read =>
    refine ⟨hc.nodup, fun o ho => ?_⟩
    obtain ⟨o', ho', hsucc⟩ := Option.bind_eq_some_iff.mp ho
    obtain ⟨as, bs, hxs, -, -, -, hhead⟩ := exists_split hc.nodup (hc.next o' ho')
    rw [hhead] at hsucc
    show o ∈ c.items
    rw [hxs]
    exact List.mem_append_right _ (List.mem_cons_of_mem _ (List.mem_of_mem_head? hsucc))
  | erase y =>
    refine ⟨hc.nodup.erase y, fun o ho => ?_⟩
    show o ∈ c.items.erase y
    rw [hc.nodup.mem_erase_iff]
    simp only [Cursor.apply] at ho
    split at ho
    · rename_i hnext
      obtain ⟨as, bs, hxs, -, hbs, -, hhead⟩ := exists_split hc.nodup (hc.next y hnext)
      rw [hhead] at ho
      have hmem := List.mem_of_mem_head? ho
      refine ⟨ne_of_mem_of_not_mem hmem hbs, ?_⟩
      rw [hxs]
      exact List.mem_append_right _ (List.mem_cons_of_mem _ hmem)
    · rename_i hnext
      refine ⟨?_, hc.next o ho⟩
      rintro rfl
      exact hnext ho
  | insert z b =>
    refine ⟨nodup_insertAt hc.nodup hok.1, fun o ho => ?_⟩
    exact mem_insertAt.mpr (.inr (hc.next o ho))

/-- A cursor at the middle of the list has the rest ahead. -/
theorem ahead_eq (as : List α) (hitems : c.items = as ++ bs) (hnext : c.next = bs.head?)
    (has : ∀ o ∈ bs.head?, o ∉ as) : ahead c = bs := by
  cases bs with
  | nil =>
    rw [ahead, hnext]
    rfl
  | cons b bs =>
    rw [ahead, hnext, List.head?_cons, Option.elim_some, hitems]
    exact from'_append (has b rfl)

/-- The elements ahead are the end of the list. -/
theorem Valid.exists_split (hc : Valid c) :
    ∃ as, c.items = as ++ ahead c ∧ c.next = (ahead c).head? ∧ (as ++ ahead c).Nodup := by
  cases hnext : c.next with
  | none =>
    have hahead : ahead c = [] := by
      rw [ahead, hnext]
      rfl
    refine ⟨c.items, ?_, ?_, ?_⟩
    · rw [hahead, List.append_nil]
    · rw [hahead]
      rfl
    · rw [hahead, List.append_nil]
      exact hc.nodup
  | some o =>
    obtain ⟨as, bs, hxs, -, -, hfrom, -⟩ := Cursor.exists_split hc.nodup (hc.next o hnext)
    have hahead : ahead c = o :: bs := by
      rw [ahead, hnext]
      exact hfrom
    refine ⟨as, ?_, ?_, ?_⟩
    · rw [hahead, hxs]
    · rw [hahead]
      rfl
    · rw [hahead, ← hxs]
      exact hc.nodup

theorem Valid.ahead_read (hc : Valid c) : ahead (apply c .read) = (ahead c).tail := by
  obtain ⟨as, hitems, hnext, hnodup⟩ := hc.exists_split
  cases hahead : ahead c with
  | nil =>
    rw [hahead] at hnext
    simp [ahead, Cursor.apply, hnext]
  | cons o bs =>
    rw [hahead] at hitems hnext hnodup
    have hsplit : as ++ o :: bs = (as ++ [o]) ++ bs := by
      simp
    rw [hsplit] at hitems hnodup
    obtain ⟨-, -, hdisjoint⟩ := List.nodup_append.mp hnodup
    have hsucc : succ c.items o = bs.head? := by
      have has : o ∉ as := fun hmem => by
        have hfront := (List.nodup_append.mp hnodup).1
        exact (List.nodup_append.mp hfront).2.2 o hmem o (List.mem_singleton_self o) rfl
      rw [hitems, ← hsplit, succ, from'_append has]
      rfl
    refine ahead_eq (as ++ [o]) hitems ?_ fun b hb hmem =>
      hdisjoint b hmem b (List.mem_of_mem_head? hb) rfl
    simp only [Cursor.apply, hnext, List.head?_cons, Option.bind_some, hsucc, List.tail_cons]

theorem Valid.ahead_erase (hc : Valid c) : ahead (apply c (.erase y)) = (ahead c).erase y := by
  obtain ⟨as, hitems, hnext, hnodup⟩ := hc.exists_split
  obtain ⟨-, hbs, hdisjoint⟩ := List.nodup_append.mp hnodup
  by_cases hy : y ∈ ahead c
  · have has : y ∉ as := fun hmem => hdisjoint y hmem y hy rfl
    refine ahead_eq as ?_ ?_ fun o ho hmem => ?_
    · show c.items.erase y = _
      rw [hitems, List.erase_append_right _ has]
    · show (if c.next = some y then succ c.items y else c.next) = _
      cases hahead : ahead c with
      | nil => rw [hahead] at hy; exact absurd hy List.not_mem_nil
      | cons o bs =>
        rw [hahead] at hnext hitems
        rw [List.head?_cons] at hnext
        by_cases hoy : o = y
        · subst hoy
          rw [if_pos hnext, List.erase_cons_head, hitems, succ, from'_append has]
          rfl
        · have hne : c.next ≠ some y := fun heq => hoy (Option.some.inj (hnext.symm.trans heq))
          rw [if_neg hne, List.erase_cons_tail (by simpa using hoy), hnext]
          rfl
    · exact hdisjoint o hmem o (List.mem_of_mem_erase (List.mem_of_mem_head? ho)) rfl
  · rw [List.erase_of_not_mem hy]
    have hne : c.next ≠ some y := fun heq => hy (List.mem_of_mem_head? (hnext.symm.trans heq))
    refine ahead_eq (as.erase y) ?_ ?_ fun o ho hmem => ?_
    · show c.items.erase y = _
      rw [hitems]
      by_cases hmem : y ∈ as
      · exact List.erase_append_left _ hmem
      · rw [List.erase_append_right _ hmem, List.erase_of_not_mem hy, List.erase_of_not_mem hmem]
    · show (if c.next = some y then succ c.items y else c.next) = _
      rw [if_neg hne, hnext]
    · exact hdisjoint o (List.mem_of_mem_erase hmem) o (List.mem_of_mem_head? ho) rfl

theorem Valid.mem_ahead_insert {b : Option α} (hc : Valid c) (hok : Ok c (.insert z b)) (hxz : x ≠ z) :
    x ∈ ahead (apply c (.insert z b)) ↔ x ∈ ahead c := by
  cases hnext : c.next with
  | none => simp [ahead, Cursor.apply, hnext]
  | some o =>
    have hoz : o ≠ z := ne_of_mem_of_not_mem (hc.next o hnext) hok.1
    simp only [ahead, Cursor.apply, hnext, Option.elim_some, mem_from'_insertAt hxz hoz]

theorem Valid.nodup_ahead (hc : Valid c) : (ahead c).Nodup := by
  obtain ⟨as, -, -, hnodup⟩ := hc.exists_split
  exact (List.nodup_append.mp hnodup).2.1

/-- **One operation**: what is read is not ahead any more. -/
theorem Valid.count_output (hc : Valid c) (hok : Ok c op) (hinsert : ∀ b, op ≠ .insert x b)
    (herase : op ≠ .erase x) :
    (output c op).count x + (ahead (apply c op)).count x = (ahead c).count x := by
  cases op with
  | read =>
    obtain ⟨as, -, hnext, -⟩ := hc.exists_split
    have hout : output c .read = (ahead c).head?.toList := by
      rw [← hnext]
      rfl
    rw [hout, hc.ahead_read, ← List.count_append]
    cases ahead c with
    | nil => rfl
    | cons o bs => rfl
  | erase y =>
    have hne : x ≠ y := by
      rintro rfl
      exact herase rfl
    have hnone : output c (.erase y) = [] := rfl
    rw [hnone, List.count_nil, Nat.zero_add, hc.ahead_erase, List.count_erase_of_ne hne]
  | insert z b =>
    have hxz : x ≠ z := by
      rintro rfl
      exact hinsert b rfl
    have hnone : output c (.insert z b) = [] := rfl
    rw [hnone, List.count_nil, Nat.zero_add]
    have hmem := hc.mem_ahead_insert hok hxz
    rw [(hc.after hok).nodup_ahead.count, hc.nodup_ahead.count]
    simp only [hmem]

/-- Only an insertion brings an element in front of the cursor. -/
theorem Valid.count_output_le (hc : Valid c) (hok : Ok c op) (hinsert : ∀ b, op ≠ .insert x b) :
    (output c op).count x + (ahead (apply c op)).count x ≤ (ahead c).count x := by
  by_cases herase : op = .erase x
  · subst herase
    have hnone : output c (.erase x) = [] := rfl
    rw [hnone, List.count_nil, Nat.zero_add, hc.ahead_erase]
    exact List.erase_sublist.count_le x
  · exact Nat.le_of_eq (hc.count_output hok hinsert herase)

theorem mem_apply (hc : Valid c) (hx : x ∈ c.items) (herase : op ≠ .erase x) :
    x ∈ (apply c op).items := by
  cases op with
  | read => exact hx
  | erase y =>
    refine hc.nodup.mem_erase_iff.mpr ⟨?_, hx⟩
    rintro rfl
    exact herase rfl
  | insert z b => exact mem_insertAt.mpr (.inr hx)

/-! ## Runs -/

/-- What the operations read. -/
def outputs (c : State α) : List (Op α) → List α
  | [] => []
  | op :: ops => output c op ++ outputs (apply c op) ops

/-- The operations are fine where they happen. -/
def AllOk (c : State α) : List (Op α) → Prop
  | [] => True
  | op :: ops => Ok c op ∧ AllOk (apply c op) ops

variable {ops ops' : List (Op α)}

theorem outputs_append : outputs c (ops ++ ops') = outputs c ops ++ outputs (ops.foldl apply c) ops' := by
  induction ops generalizing c with
  | nil => rfl
  | cons op ops ih => rw [List.cons_append, outputs, ih, outputs, List.append_assoc, List.foldl_cons]

theorem allOk_append : AllOk c (ops ++ ops') ↔ AllOk c ops ∧ AllOk (ops.foldl apply c) ops' := by
  induction ops generalizing c with
  | nil => simp [AllOk]
  | cons op ops ih => rw [List.cons_append, AllOk, ih, AllOk, and_assoc, List.foldl_cons]

theorem Valid.foldl (hc : Valid c) (hok : AllOk c ops) : Valid (ops.foldl apply c) := by
  induction ops generalizing c with
  | nil => exact hc
  | cons op ops ih => exact ih (hc.after hok.1) hok.2

/-- **Runs**: an element that stays is read, or else it is ahead. -/
theorem Valid.count_outputs (hc : Valid c) (hok : AllOk c ops) (hx : x ∈ c.items)
    (herase : .erase x ∉ ops) :
    (outputs c ops).count x + (ahead (ops.foldl apply c)).count x = (ahead c).count x := by
  induction ops generalizing c with
  | nil => exact Nat.zero_add _
  | cons op ops ih =>
    obtain ⟨hfirst, hrest⟩ := hok
    simp only [List.mem_cons, not_or] at herase
    have hinsert : ∀ b, op ≠ .insert x b := by
      rintro b rfl
      exact hfirst.1 hx
    have hrest := ih (hc.after hfirst) hrest (mem_apply hc hx (Ne.symm herase.1)) herase.2
    rw [outputs, List.count_append, List.foldl_cons,
      ← hc.count_output hfirst hinsert (Ne.symm herase.1), ← hrest, Nat.add_assoc]

theorem Valid.count_outputs_le (hc : Valid c) (hok : AllOk c ops) (hinsert : ∀ b, .insert x b ∉ ops) :
    (outputs c ops).count x + (ahead (ops.foldl apply c)).count x ≤ (ahead c).count x := by
  induction ops generalizing c with
  | nil => exact Nat.le_of_eq (Nat.zero_add _)
  | cons op ops ih =>
    obtain ⟨hfirst, hrest⟩ := hok
    have hrest := ih (hc.after hfirst) hrest fun b hmem => hinsert b (List.mem_cons_of_mem _ hmem)
    have hfirst := hc.count_output_le (x := x) hfirst fun b heq =>
      hinsert b (heq ▸ List.mem_cons_self ..)
    rw [outputs, List.count_append, List.foldl_cons]
    omega

/-- **From the front to the end**: every element is read at most once, and those that stay are
    read. -/
theorem Valid.count_reads (hc : Valid c) (hfront : c.next = c.items.head?) (hok : AllOk c ops) :
    ((∀ b, .insert x b ∉ ops) → (outputs c ops).count x ≤ 1) ∧
      (x ∈ c.items → .erase x ∉ ops → (ops.foldl apply c).next = none →
        (outputs c ops).count x = 1) := by
  have hahead : ahead c = c.items := ahead_eq [] rfl hfront fun o _ => List.not_mem_nil
  constructor
  · intro hinsert
    have hcount := hc.count_outputs_le hok hinsert
    have hone := List.nodup_iff_count_le_one.mp hc.nodup x
    rw [hahead] at hcount
    omega
  · intro hx herase hend
    have hcount := hc.count_outputs hok hx herase
    have hnil : ahead (ops.foldl apply c) = [] := by
      rw [ahead, hend]
      rfl
    rw [hnil, hahead, List.count_eq_one_of_mem hc.nodup hx] at hcount
    exact hcount

end Cursor
