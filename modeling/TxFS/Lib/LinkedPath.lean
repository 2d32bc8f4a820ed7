import Mathlib.Data.List.Nodup

/-!
# Following Links

A linked list is read off a link function `nx : α → Option α` (one pointer field of
the cells). `IsPath nx start as` says that following `nx` from `start` visits exactly
`as` and then ends. The loops of a program that walk such a list are `findFrom` (walk
until a test holds) and `walkToEnd` (walk to the last cell); both take fuel, and
`none` is a walk that does not end within it.

`after xs a` and `before xs a` are the neighbours of `a` in the list `xs`; the lemmas
on them say what an insertion or a deletion in the middle changes.
-/

namespace LinkedPath

universe u

variable {α : Type u}

/-! ## Paths -/

/-- Following `nx` from `start` visits exactly `as`, in this order, and then ends. -/
def IsPath (nx : α → Option α) : Option α → List α → Prop
  | start, [] => start = none
  | start, a :: as => start = some a ∧ IsPath nx (nx a) as

theorem isPath_nil {nx : α → Option α} {start : Option α} :
    IsPath nx start [] ↔ start = none := Iff.rfl

/-- A path depends only on the links of its own cells. -/
theorem IsPath.congr {nx nx' : α → Option α} {start : Option α} {as : List α}
    (h : IsPath nx start as) (heq : ∀ a ∈ as, nx' a = nx a) : IsPath nx' start as := by
  induction as generalizing start with
  | nil => exact h
  | cons a as ih =>
    refine ⟨h.1, ?_⟩
    rw [heq a (List.mem_cons_self ..)]
    exact ih h.2 fun b hb => heq b (List.mem_cons_of_mem _ hb)

/-- The path from a given start is unique. -/
theorem IsPath.unique {nx : α → Option α} {start : Option α} {as bs : List α}
    (ha : IsPath nx start as) (hb : IsPath nx start bs) : as = bs := by
  induction as generalizing start bs with
  | nil =>
    cases bs with
    | nil => rfl
    | cons b bs =>
      have h1 : start = none := ha
      have h2 := hb.1
      rw [h1] at h2
      cases h2
  | cons a as ih =>
    cases bs with
    | nil =>
      have h1 : start = none := hb
      have h2 := ha.1
      rw [h1] at h2
      cases h2
    | cons b bs =>
      have hab : a = b := Option.some.inj (ha.1.symm.trans hb.1)
      subst hab
      rw [ih ha.2 hb.2]

/-- The part of a path behind a cell is the path that starts at the cell's link. -/
theorem IsPath.suffix {nx : α → Option α} {start : Option α} {l r : List α} {a : α}
    (h : IsPath nx start (l ++ a :: r)) : IsPath nx (nx a) r := by
  induction l generalizing start with
  | nil => exact h.2
  | cons b l ih => exact ih h.2

/-- A path that ends visits no cell twice: from a repeated cell on, the two suffixes
    would have to be equal. -/
theorem IsPath.nodup {nx : α → Option α} {start : Option α} {as : List α}
    (h : IsPath nx start as) : as.Nodup := by
  induction as generalizing start with
  | nil => exact List.nodup_nil
  | cons a as ih =>
    refine List.nodup_cons.mpr ⟨fun hmem => ?_, ih h.2⟩
    obtain ⟨l, r, hlr⟩ := List.append_of_mem hmem
    have htail : IsPath nx (nx a) r := by
      have := h.2
      rw [hlr] at this
      exact this.suffix
    have hlen := congrArg List.length (IsPath.unique h.2 htail)
    rw [hlr] at hlen
    simp only [List.length_append, List.length_cons] at hlen
    omega

/-- Appending a last cell: the old last link now points at it. -/
theorem IsPath.snoc {nx nx' : α → Option α} {start : Option α} {as : List α} {a : α}
    (h : IsPath nx start as) (hne : as ≠ [])
    (hlast : ∀ b, as.getLast? = some b → nx' b = some a)
    (hrest : ∀ b ∈ as, as.getLast? ≠ some b → nx' b = nx b) (ha : nx' a = none) :
    IsPath nx' start (as ++ [a]) := by
  have hnd := h.nodup
  induction as generalizing start with
  | nil => exact absurd rfl hne
  | cons b as ih =>
    refine ⟨h.1, ?_⟩
    rcases List.eq_nil_or_concat as with rfl | ⟨as', c, rfl⟩
    · rw [hlast b rfl]
      exact ⟨rfl, ha⟩
    · have hb : nx' b = nx b := by
        refine hrest b (List.mem_cons_self ..) ?_
        intro hbc
        have hbc' : c = b := by simpa [List.getLast?_cons, List.getLast?_append] using hbc
        simp [hbc'] at hnd
      rw [hb]
      refine ih h.2 (by simp) (fun d hd => hlast d ?_) (fun d hd hne' => ?_)
        (List.nodup_cons.mp hnd).2
      · simpa [List.getLast?_cons, List.getLast?_append] using hd
      · refine hrest d (List.mem_cons_of_mem _ hd) ?_
        simpa [List.getLast?_cons, List.getLast?_append] using hne'

/-- Removing a cell: the link of its predecessor (or the start) is redirected past it. -/
theorem IsPath.remove {nx nx' : α → Option α} {start start' : Option α} {l r : List α} {a : α}
    (h : IsPath nx start (l ++ a :: r))
    (hstart : start' = if l = [] then nx a else start)
    (hlast : ∀ b, l.getLast? = some b → nx' b = nx a)
    (hrest : ∀ b ∈ l ++ r, l.getLast? ≠ some b → nx' b = nx b) :
    IsPath nx' start' (l ++ r) := by
  induction l generalizing start start' with
  | nil =>
    simp only [if_true] at hstart
    subst hstart
    exact h.2.congr fun b hb => hrest b (by simpa using hb) (by simp)
  | cons b l ih =>
    have hnd := h.nodup
    rw [if_neg (by simp)] at hstart
    subst hstart
    refine ⟨h.1, ih h.2 ?_ (fun c hc => ?_) fun c hc hne => ?_⟩
    · rcases l with _ | ⟨c, l⟩
      · simp [hlast b rfl]
      · simp only [reduceCtorEq, if_false]
        refine hrest b (by simp) ?_
        intro hlast'
        have : b ∈ c :: l := List.mem_of_getLast? (by simpa [List.getLast?_cons] using hlast')
        simp only [List.cons_append, List.nodup_cons] at hnd
        exact hnd.1 (List.mem_append_left _ this)
    · refine hlast c ?_
      rcases l with _ | ⟨d, l⟩
      · simp at hc
      · simpa [List.getLast?_cons] using hc
    · refine hrest c (List.mem_cons_of_mem _ hc) ?_
      rcases l with _ | ⟨d, l⟩
      · simp only [List.nil_append] at hc
        simp only [List.getLast?_singleton, ne_eq, Option.some.injEq]
        rintro rfl
        simp only [List.cons_append, List.nil_append, List.nodup_cons, List.mem_cons] at hnd
        exact hnd.1 (Or.inr hc)
      · simpa [List.getLast?_cons] using hne

/-- A path exists from every start that nothing leads back to: among finitely many cells
    whose links do not meet, the walk runs out of cells. -/
theorem exists_isPath [DecidableEq α] {nx : α → Option α} {start : Option α} {S : List α}
    (hstart : ∀ a, start = some a → a ∈ S) (hclosed : ∀ a ∈ S, ∀ b, nx a = some b → b ∈ S)
    (hinj : ∀ a ∈ S, ∀ b ∈ S, ∀ c, nx a = some c → nx b = some c → a = b)
    (hback : ∀ a ∈ S, ∀ b, start = some b → nx a ≠ some b) :
    ∃ as, IsPath nx start as ∧ ∀ a ∈ as, a ∈ S := by
  -- induction on the number of cells: each step takes the start out of `S`
  induction hn : S.length using Nat.strongRecOn generalizing start S with
  | ind n ih =>
    cases start with
    | none => exact ⟨[], rfl, nofun⟩
    | some a =>
      have ha := hstart a rfl
      let S' := S.filter (· ≠ a)
      have hsub : ∀ {b}, b ∈ S' ↔ b ∈ S ∧ b ≠ a := by simp [S']
      have hlen : S'.length < n := by
        rw [← hn]
        exact List.length_filter_lt_length_iff_exists.mpr ⟨a, ha, by simp⟩
      obtain ⟨as, has, hmem⟩ := @ih S'.length hlen (nx a) S'
        (fun b hb => hsub.mpr ⟨hclosed a ha b hb, fun hba => hback a ha a rfl (hba ▸ hb)⟩)
        (fun b hb c hc => hsub.mpr ⟨hclosed b (hsub.mp hb).1 c hc,
          fun hca => hback b (hsub.mp hb).1 a rfl (hca ▸ hc)⟩)
        (fun b hb c hc => hinj b (hsub.mp hb).1 c (hsub.mp hc).1)
        (fun b hb c hc hbc => (hsub.mp hb).2 (hinj b (hsub.mp hb).1 a ha c hbc hc))
        rfl
      refine ⟨a :: as, ⟨rfl, has⟩, ?_⟩
      intro b hb
      rcases List.mem_cons.mp hb with rfl | hb
      · exact ha
      · exact (hsub.mp (hmem b hb)).1

/-! ## Walks -/

/-- Walk along `nx` until `p` holds: `some (some a)` is the first such cell,
    `some none` the end of the list, `none` a walk longer than the fuel. -/
def findFrom (nx : α → Option α) (p : α → Bool) : Nat → Option α → Option (Option α)
  | 0, _ => none
  | _ + 1, none => some none
  | n + 1, some a => if p a then some (some a) else findFrom nx p n (nx a)

/-- `while (ptr->next != NULL) ptr = ptr->next`. -/
def walkToEnd (nx : α → Option α) : Nat → α → Option α
  | 0, _ => none
  | n + 1, a =>
    match nx a with
    | none => some a
    | some b => walkToEnd nx n b

/-- On a path the walk finds what `List.find?` finds. -/
theorem findFrom_eq {nx : α → Option α} {p : α → Bool} {n : Nat} {start : Option α}
    {as : List α} (h : IsPath nx start as) (hn : as.length < n) :
    findFrom nx p n start = some (as.find? p) := by
  induction as generalizing start n with
  | nil =>
    obtain ⟨n, rfl⟩ := Nat.exists_eq_succ_of_ne_zero (Nat.ne_of_gt hn)
    have hs : start = none := h
    subst hs
    rfl
  | cons a as ih =>
    obtain ⟨n, rfl⟩ := Nat.exists_eq_succ_of_ne_zero (Nat.ne_of_gt (Nat.zero_lt_of_lt hn))
    have hs : start = some a := h.1
    subst hs
    simp only [findFrom, List.find?_cons]
    by_cases hp : p a = true
    · simp [hp]
    · have hlen : as.length < n := by simpa using hn
      simp [hp, ih h.2 hlen]

/-- Whatever the walk finds is on the path. -/
theorem mem_of_findFrom {nx : α → Option α} {p : α → Bool} {n : Nat} {start : Option α}
    {as : List α} {b : α} (h : IsPath nx start as) (hfind : findFrom nx p n start = some (some b)) :
    b ∈ as := by
  induction as generalizing start n with
  | nil =>
    have hs : start = none := h
    subst hs
    cases n <;> cases hfind
  | cons a as ih =>
    have hs : start = some a := h.1
    subst hs
    cases n with
    | zero => cases hfind
    | succ n =>
      rw [findFrom] at hfind
      split at hfind
      · cases hfind
        exact List.mem_cons_self ..
      · exact List.mem_cons_of_mem _ (ih h.2 hfind)

/-- What the links keep holds of the cell that is found. -/
theorem findFrom_induct {nx : α → Option α} {p : α → Bool} {P : α → Prop}
    (hnx : ∀ a b, P a → nx a = some b → P b) {n : Nat} {start : Option α} {b : α}
    (hstart : ∀ a, start = some a → P a) (h : findFrom nx p n start = some (some b)) :
    P b ∧ p b = true := by
  induction n generalizing start with
  | zero => cases h
  | succ n ih =>
    cases start with
    | none => cases h
    | some a =>
      rw [findFrom] at h
      split at h
      · rename_i hp
        cases h
        exact ⟨hstart _ rfl, hp⟩
      · exact ih (fun c hc => hnx a c (hstart a rfl) hc) h

/-- What the links keep holds of the end of the walk. -/
theorem walkToEnd_induct {nx : α → Option α} {P : α → Prop}
    (hnx : ∀ a b, P a → nx a = some b → P b) {n : Nat} {a b : α} (ha : P a)
    (h : walkToEnd nx n a = some b) : P b ∧ nx b = none := by
  induction n generalizing a with
  | zero => cases h
  | succ n ih =>
    rw [walkToEnd] at h
    cases hs : nx a with
    | none =>
      simp only [hs, Option.some.injEq] at h
      subst h
      exact ⟨ha, hs⟩
    | some c =>
      simp only [hs] at h
      exact ih (hnx a c ha hs) h

/-- On a path the walk to the end reaches the last cell. -/
theorem walkToEnd_eq {nx : α → Option α} {n : Nat} {a : α} {as : List α}
    (h : IsPath nx (nx a) as) (hn : as.length < n) :
    walkToEnd nx n a = (a :: as).getLast? := by
  induction as generalizing a n with
  | nil =>
    obtain ⟨n, rfl⟩ := Nat.exists_eq_succ_of_ne_zero (Nat.ne_of_gt hn)
    have hs : nx a = none := h
    simp [walkToEnd, hs]
  | cons b bs ih =>
    obtain ⟨n, rfl⟩ := Nat.exists_eq_succ_of_ne_zero (Nat.ne_of_gt (Nat.zero_lt_of_lt hn))
    have hs : nx a = some b := h.1
    have hlen : bs.length < n := by simpa using hn
    simp [walkToEnd, hs, ih h.2 hlen]

/-! ## Neighbours in a list -/

section

variable [DecidableEq α]

/-- The element behind the first occurrence of `a`. -/
def after : List α → α → Option α
  | [], _ => none
  | x :: xs, a => if x = a then xs.head? else after xs a

/-- The element in front of `a`. -/
def before (xs : List α) (a : α) : Option α := after xs.reverse a

theorem after_split {l r : List α} {a : α} (ha : a ∉ l) : after (l ++ a :: r) a = r.head? := by
  induction l with
  | nil => simp [after]
  | cons b l ih =>
    simp only [List.mem_cons, not_or] at ha
    simp [after, Ne.symm ha.1, ih ha.2]

theorem before_split {l r : List α} {a : α} (ha : a ∉ r) :
    before (l ++ a :: r) a = l.getLast? := by
  have hrev : (l ++ a :: r).reverse = r.reverse ++ a :: l.reverse := by simp
  rw [before, hrev, after_split (by simpa using ha), List.head?_reverse]

/-- What an element in the middle changes: only the neighbour in front of it sees it. -/
theorem after_insert {l r : List α} {a b : α} (hnd : (l ++ r).Nodup) (hb : b ∈ l ++ r)
    (hba : b ≠ a) :
    after (l ++ a :: r) b = if l.getLast? = some b then some a else after (l ++ r) b := by
  induction l with
  | nil => simp [after, Ne.symm hba]
  | cons c l ih =>
    simp only [List.cons_append, List.nodup_cons] at hnd
    rcases l with _ | ⟨d, l⟩
    · by_cases hcb : c = b
      · simp [after, hcb]
      · simp [after, hcb, Ne.symm hba]
    · by_cases hcb : c = b
      · subst hcb
        have hne : (d :: l).getLast? ≠ some c := fun h =>
          hnd.1 (List.mem_append_left _ (List.mem_of_getLast? h))
        simp [after, List.getLast?_cons_cons, hne]
      · have hmem : b ∈ d :: l ++ r := by
          simpa [Ne.symm hcb] using hb
        have hskip : ∀ ys, after (c :: ys) b = after ys b := fun ys => by simp [after, hcb]
        rw [List.cons_append, hskip, ih hnd.2 hmem, List.getLast?_cons_cons, List.cons_append (a := c),
          hskip]

theorem before_insert {l r : List α} {a b : α} (hnd : (l ++ r).Nodup) (hb : b ∈ l ++ r)
    (hba : b ≠ a) :
    before (l ++ a :: r) b = if r.head? = some b then some a else before (l ++ r) b := by
  have hrev : (l ++ a :: r).reverse = r.reverse ++ a :: l.reverse := by simp
  have hnd' : (r.reverse ++ l.reverse).Nodup := by
    rw [← List.reverse_append]
    exact List.nodup_reverse.mpr hnd
  have hb' : b ∈ r.reverse ++ l.reverse := by
    rw [← List.reverse_append]
    exact List.mem_reverse.mpr hb
  rw [before, before, hrev, List.reverse_append, after_insert hnd' hb' hba, List.getLast?_reverse]

/-- The split at a neighbour. -/
theorem split_of_after {xs : List α} {a b : α} (h : after xs a = some b) :
    ∃ l r, xs = l ++ a :: b :: r ∧ a ∉ l := by
  induction xs with
  | nil => simp [after] at h
  | cons x xs ih =>
    rw [after] at h
    split at h
    · rename_i hxa
      subst hxa
      rcases xs with _ | ⟨y, ys⟩
      · simp at h
      · simp only [List.head?_cons, Option.some.injEq] at h
        exact ⟨[], ys, by simp [h], by simp⟩
    · rename_i hxa
      obtain ⟨l, r, rfl, hl⟩ := ih h
      exact ⟨x :: l, r, rfl, by simp [Ne.symm hxa, hl]⟩

theorem mem_of_after {xs : List α} {a b : α} (h : after xs a = some b) : b ∈ xs := by
  obtain ⟨l, r, rfl, -⟩ := split_of_after h
  simp

/-- Links to the next element of a duplicate-free list make the list a path. -/
theorem isPath_of_after {nx : α → Option α} {xs : List α} (hnd : xs.Nodup)
    (h : ∀ a ∈ xs, nx a = after xs a) : IsPath nx xs.head? xs := by
  induction xs with
  | nil => rfl
  | cons a xs ih =>
    have hnd' := List.nodup_cons.mp hnd
    refine ⟨rfl, ?_⟩
    have hhead : nx a = xs.head? := (h a (List.mem_cons_self ..)).trans (by simp [after])
    rw [hhead]
    refine ih hnd'.2 fun b hb => ?_
    have hab : a ≠ b := fun hab => hnd'.1 (hab ▸ hb)
    rw [h b (List.mem_cons_of_mem _ hb), after, if_neg hab]

theorem mem_of_before {xs : List α} {a b : α} (h : before xs a = some b) : b ∈ xs := by
  simpa using mem_of_after h

theorem before_of_after {xs : List α} (hnd : xs.Nodup) {a b : α} (h : after xs a = some b) :
    before xs b = some a := by
  obtain ⟨l, r, rfl, -⟩ := split_of_after h
  have hsplit : l ++ a :: b :: r = (l ++ [a]) ++ b :: r := by simp
  have hbr : b ∉ r := by
    have h2 := (List.nodup_append.mp hnd).2.1
    exact (List.nodup_cons.mp (List.nodup_cons.mp h2).2).1
  rw [hsplit, before_split hbr]
  simp

/-- `after` and `before` are inverse to each other. -/
theorem before_eq_some_iff {xs : List α} (hnd : xs.Nodup) {a b : α} :
    before xs b = some a ↔ after xs a = some b := by
  refine ⟨fun h => ?_, before_of_after hnd⟩
  have h' := before_of_after (List.nodup_reverse.mpr hnd) (a := b) (b := a) h
  simpa [before] using h'

end

end LinkedPath
