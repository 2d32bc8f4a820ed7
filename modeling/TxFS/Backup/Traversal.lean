import TxFS.Lib.NamedTree
import Mathlib.Data.List.Induction
import Mathlib.Logic.Function.Basic
import Mathlib.Tactic.Tauto

/-!
# The Traversal of the Backup

`online_bck` walks the tree below `argv[1]` with a work stack of paths: 200 slots, of which
slot 0 is not used, and 300 bytes for each path. Neither `push` nor the functions that build
a text around a path check these sizes. A traversal that leaves one of the arrays is out of
bounds and has no further behaviour here.

A path is the list of its names below the root. The entries `.` and `..` of a directory
start with a dot and are not part of the tree. Locks are the subject of `Backup/Online`; a
tree that does not change is not used by anyone else, and every lock is granted.
-/

namespace TxFS

/-- `d_name`. -/
abbrev FileName := List Char

/-- Regular files are leaves, directories hold their entries in the order of `readdir`. -/
abbrev FileTree := NamedTree FileName

/-- The names from the root on. -/
abbrev FilePath := List FileName

/-- `'.' == s_dirent->d_name[0]` does not hold. -/
def isPushed (n : FileName) : Bool := n.head? ≠ some '.'

/-! ## The arrays -/

/-- `struct stack_type stack[200]`. -/
def stackSlots : Nat := 200

/-- `char path[300]`, also the size of the texts of `copy_directory` and `copy_file`. -/
def pathSize : Nat := 300

/-- The characters of "copied contents of directory" or "Copying file". -/
def textLength : Option FileTree → Nat
  | some (.node _) => 28
  | _ => 12

/-- `strlen` of the path: `argv[1]`, and a slash in front of every name. -/
def strlen (root : List Char) (p : FilePath) : Nat :=
  root.length + (p.flatMap fun n => '/' :: n).length

/-- The variables of a run; `stack[top]` is the head of the list, and `copied` is what has
    been written to the backup file. -/
structure OnlineBck where
  stack : List FilePath
  /-- Whether a file is sticky. -/
  marks : FilePath → Bool
  copied : List FilePath

namespace OnlineBck

/-- `push`. -/
def push (root : List Char) (stack : List FilePath) (p : FilePath) : Option (List FilePath) :=
  if stack.length + 1 < stackSlots ∧ strlen root p < pathSize then some (p :: stack) else none

/-- `pop`: it writes to `curr.path[path_len + 1]`. -/
def pop (root : List Char) : List FilePath → Option (FilePath × List FilePath)
  | [] => none
  | p :: stack => if strlen root p + 1 < pathSize then some (p, stack) else none

/-- `mark_as_read`: the sticky bit is flipped. -/
def markAsRead (marks : FilePath → Bool) (p : FilePath) : FilePath → Bool :=
  Function.update marks p (!marks p)

/-- `while ((s_dirent = readdir(fd_dir)) != NULL)`. -/
def pushEntries (root : List Char) (p : FilePath) :
    List (FileName × FileTree) → List FilePath → Option (List FilePath)
  | [], stack => some stack
  | e :: es, stack =>
    if isPushed e.1 then (push root stack (p ++ [e.1])).bind (pushEntries root p es)
    else pushEntries root p es stack

/-- The body of `while (top != 0)`. -/
def visit (root : List Char) (t : FileTree) (b : OnlineBck) : Option OnlineBck := do
  let (p, stack) ← pop root b.stack
  match t.lookup p with
  | none => some { b with stack := stack }
  | some u =>
    if textLength (some u) + strlen root p < pathSize then
      let stack ← match u with
        | .node es => pushEntries root p es stack
        | .leaf => some stack
      some { stack := stack, marks := markAsRead b.marks p, copied := b.copied ++ [p] }
    else none

/-- How a run ends. -/
inductive Ending where
  | finished (b : OnlineBck)
  | outOfBounds

/-- At most `n` rounds of the loop. -/
def loop (root : List Char) (t : FileTree) : Nat → OnlineBck → Option Ending
  | 0, _ => none
  | n + 1, b =>
    if b.stack = [] then some (.finished b)
    else
      match visit root t b with
      | some b' => loop root t n b'
      | none => some .outOfBounds

/-- `online_bck`. -/
def onlineBck (root : List Char) (t : FileTree) (marks : FilePath → Bool) (n : Nat) :
    Option Ending :=
  match push root [] [] with
  | some stack => loop root t n { stack := stack, marks := marks, copied := [] }
  | none => some .outOfBounds

/-! ## What a run reaches -/

section

variable {root : List Char} {t u : FileTree} {b b' b'' : OnlineBck} {p q : FilePath}
  {es : List (FileName × FileTree)} {stack stack' rest : List FilePath} {h : Nat}

/-- The run comes from `b` to `b'`. -/
def Reaches (root : List Char) (t : FileTree) (b b' : OnlineBck) : Prop :=
  ∃ k, ∀ n, loop root t (k + n) b = loop root t n b'

/-- The run goes out of bounds. -/
def Fails (root : List Char) (t : FileTree) (b : OnlineBck) : Prop :=
  ∃ k, ∀ n, loop root t (k + n) b = some .outOfBounds

theorem Reaches.refl : Reaches root t b b := ⟨0, fun n => by rw [Nat.zero_add]⟩

theorem Reaches.trans (h : Reaches root t b b') (h' : Reaches root t b' b'') :
    Reaches root t b b'' := by
  obtain ⟨k, hk⟩ := h
  obtain ⟨k', hk'⟩ := h'
  exact ⟨k + k', fun n => by rw [Nat.add_assoc, hk, hk']⟩

theorem Reaches.fails (h : Reaches root t b b') (h' : Fails root t b') : Fails root t b := by
  obtain ⟨k, hk⟩ := h
  obtain ⟨k', hk'⟩ := h'
  exact ⟨k + k', fun n => by rw [Nat.add_assoc, hk, hk']⟩

theorem reaches_of_visit (hne : b.stack ≠ []) (h : visit root t b = some b') :
    Reaches root t b b' :=
  ⟨1, fun n => by rw [Nat.add_comm, loop, if_neg hne, h]⟩

theorem fails_of_visit (hne : b.stack ≠ []) (h : visit root t b = none) : Fails root t b :=
  ⟨1, fun n => by rw [Nat.add_comm, loop, if_neg hne, h]⟩

/-- The state behind copying and marking the files `ps`. -/
def after (b : OnlineBck) (stack ps : List FilePath) : OnlineBck where
  stack := stack
  marks := ps.foldl markAsRead b.marks
  copied := b.copied ++ ps

theorem after_after {ps qs : List FilePath} :
    after (after b stack ps) stack' qs = after b stack' (ps ++ qs) := by
  simp [after, List.foldl_append]

/-! ## Pushing the children -/

/-- The paths of the children on the stack. -/
def childStack (p : FilePath) (es : List (FileName × FileTree)) : List FilePath :=
  ((es.filter fun e => isPushed e.1).map fun e => p ++ [e.1]).reverse

theorem length_childStack : (childStack p es).length = es.countP fun e => isPushed e.1 := by
  simp [childStack, List.countP_eq_length_filter]

theorem childStack_append_singleton {e : FileName × FileTree} : childStack p (es ++ [e]) =
    if isPushed e.1 then (p ++ [e.1]) :: childStack p es else childStack p es := by
  by_cases he : isPushed e.1 = true
  · simp [childStack, List.filter_append, he]
  · simp [childStack, List.filter_append, he]

/-- The children that could be pushed. -/
theorem pushEntries_some (h : pushEntries root p es stack = some stack')
    (hlen : stack.length < stackSlots) :
    stack' = childStack p es ++ stack ∧ stack'.length < stackSlots := by
  induction es generalizing stack with
  | nil =>
    cases h
    exact ⟨rfl, hlen⟩
  | cons e es ih =>
    rw [pushEntries] at h
    by_cases he : isPushed e.1 = true
    · rw [if_pos he] at h
      obtain ⟨stack₁, hpush, h⟩ := Option.bind_eq_some_iff.mp h
      unfold push at hpush
      split at hpush
      · rename_i hfits
        cases hpush
        obtain ⟨rfl, hlen'⟩ := ih h hfits.1
        refine ⟨?_, hlen'⟩
        simp [childStack, he]
      · cases hpush
    · rw [if_neg he] at h
      obtain ⟨rfl, hlen'⟩ := ih h hlen
      refine ⟨?_, hlen'⟩
      simp [childStack, he]

/-- Pushing fails only on a full stack or a long path. -/
theorem pushEntries_none (h : pushEntries root p es stack = none)
    (hlen : stack.length + (es.countP fun e => isPushed e.1) < stackSlots) :
    ∃ e ∈ es, isPushed e.1 = true ∧ pathSize ≤ strlen root (p ++ [e.1]) := by
  induction es generalizing stack with
  | nil => cases h
  | cons e es ih =>
    rw [pushEntries] at h
    by_cases he : isPushed e.1 = true
    · have hcount : (e :: es).countP (fun e => isPushed e.1) =
          es.countP (fun e => isPushed e.1) + 1 := List.countP_cons_of_pos he
      rw [if_pos he] at h
      unfold push at h
      by_cases hlong : strlen root (p ++ [e.1]) < pathSize
      · rw [if_pos ⟨by omega, hlong⟩] at h
        obtain ⟨d, hd, hdlong⟩ := ih h (by rw [List.length_cons]; omega)
        exact ⟨d, List.mem_cons_of_mem _ hd, hdlong⟩
      · exact ⟨e, List.mem_cons_self .., he, Nat.not_lt.mp hlong⟩
    · have hcount : (e :: es).countP (fun e => isPushed e.1) =
          es.countP fun e => isPushed e.1 := List.countP_cons_of_neg he
      rw [if_neg he] at h
      obtain ⟨d, hd, hdlong⟩ := ih h (by omega)
      exact ⟨d, List.mem_cons_of_mem _ hd, hdlong⟩

/-! ## Subtrees -/

/-- The text around the path fits its array. -/
def TextFits (root : List Char) (t : FileTree) (p : FilePath) : Prop :=
  textLength (t.lookup p) + strlen root p < pathSize

instance (root : List Char) (t : FileTree) (p : FilePath) : Decidable (TextFits root t p) :=
  inferInstanceAs (Decidable (_ < _))

/-- The subtree at `p` fits above `h` occupied slots. -/
def FitsAt (root : List Char) (t u : FileTree) (p : FilePath) (h : Nat) : Prop :=
  u.topSlot isPushed h < stackSlots ∧ ∀ q ∈ u.walk isPushed p, TextFits root t q

/-- The children of the directory at `p` fit above `h` occupied slots. -/
def EntriesFit (root : List Char) (t : FileTree) (es : List (FileName × FileTree)) (p : FilePath)
    (h : Nat) : Prop :=
  NamedTree.topSlotEntries isPushed es h < stackSlots ∧
    ∀ q ∈ NamedTree.walkEntries isPushed es p, TextFits root t q

theorem fitsAt_node : FitsAt root t (.node es) p h ↔
    h + 1 < stackSlots ∧ TextFits root t p ∧ EntriesFit root t es p h := by
  simp only [FitsAt, EntriesFit, NamedTree.topSlot, NamedTree.walk, List.forall_mem_cons,
    Nat.max_lt]
  tauto

theorem entriesFit_append_singleton {e : FileName × FileTree} (he : isPushed e.1 = true) :
    EntriesFit root t (es ++ [e]) p h ↔ EntriesFit root t es p h ∧
      FitsAt root t e.2 (p ++ [e.1]) (h + es.countP fun d => isPushed d.1) := by
  simp only [EntriesFit, FitsAt, NamedTree.topSlotEntries_append_singleton, he, if_true,
    Nat.max_lt, NamedTree.walkEntries_append, NamedTree.walkEntries_singleton, List.mem_append]
  constructor
  · rintro ⟨⟨h1, h2⟩, h3⟩
    exact ⟨⟨h1, fun q hq => h3 q (.inr hq)⟩, h2, fun q hq => h3 q (.inl hq)⟩
  · rintro ⟨⟨h1, h3⟩, h2, h4⟩
    exact ⟨⟨h1, h2⟩, fun q hq => hq.elim (h4 q) (h3 q)⟩

/-- A long child keeps its directory from fitting. -/
theorem not_textFits_of_long (hlong : pathSize ≤ strlen root p) : ¬ TextFits root t p :=
  fun hfits => absurd (Nat.lt_of_le_of_lt (Nat.le_add_left ..) hfits) (Nat.not_lt.mpr hlong)

/-- A shown child is on the walk. -/
theorem mem_walkEntries_child {e : FileName × FileTree} (he : e ∈ es)
    (hpushed : isPushed e.1 = true) : p ++ [e.1] ∈ NamedTree.walkEntries isPushed es p := by
  obtain ⟨qs, hqs, -⟩ : ∃ qs, e.2.walk isPushed (p ++ [e.1]) = (p ++ [e.1]) :: qs ∧ _ :=
    NamedTree.walk_eq_cons
  exact NamedTree.mem_walkEntries.mpr ⟨e, he, hpushed, by rw [hqs]; exact List.mem_cons_self ..⟩

/-- What a subtree on top of the stack owes the rest of the run: it is copied and marked down
    to the rest of the stack if it fits, and otherwise the run goes out of bounds. -/
def Processed (root : List Char) (t u : FileTree) : Prop :=
  ∀ p, t.lookup p = some u → ∀ (b : OnlineBck) (rest : List FilePath),
    b.stack = p :: rest → rest.length + 1 < stackSlots →
    (FitsAt root t u p rest.length → Reaches root t b (after b rest (u.walk isPushed p))) ∧
    (¬ FitsAt root t u p rest.length → Fails root t b)

theorem processed_leaf : Processed root t .leaf := by
  intro p hp b rest hb hlen
  have hne : b.stack ≠ [] := by simp [hb]
  have hfits : FitsAt root t .leaf p rest.length ↔ TextFits root t p := by
    simp [FitsAt, NamedTree.topSlot, NamedTree.walk, hlen]
  have htext : TextFits root t p ↔ 12 + strlen root p < pathSize := by
    rw [TextFits, hp]
    rfl
  rw [hfits, htext]
  constructor
  · intro hlong
    refine reaches_of_visit hne ?_
    have hpop : strlen root p + 1 < pathSize := by omega
    simp [visit, hb, pop, hpop, hp, textLength, hlong, after, NamedTree.walk]
  · intro hlong
    refine fails_of_visit hne ?_
    by_cases hpop : strlen root p + 1 < pathSize
    · simp [visit, hb, pop, hpop, hp, textLength, hlong]
    · simp [visit, hb, pop, hpop]

/-- The children on the stack are processed from the last one to the first one. -/
theorem processed_entries (hes : ∀ e ∈ es, t.lookup (p ++ [e.1]) = some e.2)
    (ih : ∀ e ∈ es, Processed root t e.2) (b : OnlineBck) (rest : List FilePath)
    (hb : b.stack = childStack p es ++ rest) (hlen : b.stack.length < stackSlots) :
    (EntriesFit root t es p rest.length →
      Reaches root t b (after b rest (NamedTree.walkEntries isPushed es p))) ∧
    (¬ EntriesFit root t es p rest.length → Fails root t b) := by
  induction es using List.reverseRecOn generalizing b with
  | nil =>
    have hstack : b.stack = rest := hb
    have hfits : EntriesFit root t [] p rest.length :=
      ⟨by rw [← hstack]; exact hlen, by simp [NamedTree.walkEntries]⟩
    refine ⟨fun _ => ?_, fun hnot => absurd hfits hnot⟩
    have hsame : after b rest (NamedTree.walkEntries isPushed [] p) = b := by
      cases b
      simp_all [after, NamedTree.walkEntries]
    rw [hsame]
    exact .refl
  | append_singleton es e ihes =>
    have hrest := fun b' => ihes (fun d hd => hes d (List.mem_append_left _ hd))
      (fun d hd => ih d (List.mem_append_left _ hd)) b'
    rw [childStack_append_singleton] at hb
    by_cases he : isPushed e.1 = true
    · rw [if_pos he, List.cons_append] at hb
      have hslots : (childStack p es ++ rest).length = rest.length + es.countP fun d => isPushed d.1 := by
        rw [List.length_append, length_childStack, Nat.add_comm]
      have hmem : e ∈ es ++ [e] := by simp
      have hlen' : (childStack p es ++ rest).length + 1 < stackSlots := by
        rw [hb, List.length_cons] at hlen
        exact hlen
      obtain ⟨hgood, hbad⟩ := ih e hmem _ (hes e hmem) b _ hb hlen'
      rw [hslots] at hgood hbad
      rw [entriesFit_append_singleton he, NamedTree.walkEntries_append,
        NamedTree.walkEntries_singleton, if_pos he]
      by_cases hfits : FitsAt root t e.2 (p ++ [e.1]) (rest.length + es.countP fun d => isPushed d.1)
      · -- the last child is done, the others are left
        obtain ⟨hgood', hbad'⟩ := hrest (after b (childStack p es ++ rest)
          (e.2.walk isPushed (p ++ [e.1]))) rfl (Nat.lt_of_succ_lt hlen')
        constructor
        · rintro ⟨hothers, -⟩
          rw [← after_after]
          exact (hgood hfits).trans (hgood' hothers)
        · intro hnot
          exact (hgood hfits).fails (hbad' fun hothers => hnot ⟨hothers, hfits⟩)
      · exact ⟨fun h => absurd h.2 hfits, fun _ => hbad hfits⟩
    · -- an entry that starts with a dot
      rw [if_neg he] at hb
      have hwalk : NamedTree.walkEntries isPushed (es ++ [e]) p =
          NamedTree.walkEntries isPushed es p := by
        rw [NamedTree.walkEntries_append, NamedTree.walkEntries_singleton, if_neg he,
          List.nil_append]
      have hfits : EntriesFit root t (es ++ [e]) p rest.length ↔ EntriesFit root t es p rest.length := by
        rw [EntriesFit, EntriesFit, hwalk, NamedTree.topSlotEntries_append_singleton, if_neg he]
      rw [hwalk, hfits]
      exact hrest b hb hlen

theorem processed_node (hd : t.Distinct) (ih : ∀ e ∈ es, Processed root t e.2) :
    Processed root t (.node es) := by
  intro p hp b rest hb hlen
  have hne : b.stack ≠ [] := by simp [hb]
  have htext : TextFits root t p ↔ 28 + strlen root p < pathSize := by
    rw [TextFits, hp]
    rfl
  rw [fitsAt_node]
  by_cases hlong : 28 + strlen root p < pathSize
  · have hpop : strlen root p + 1 < pathSize := by omega
    have hvisit : visit root t b = (pushEntries root p es rest).map fun stack =>
        { stack := stack, marks := markAsRead b.marks p, copied := b.copied ++ [p] } := by
      cases hpush : pushEntries root p es rest <;>
        simp [visit, hb, pop, hpop, hp, textLength, hlong, hpush]
    have hes : ∀ e ∈ es, t.lookup (p ++ [e.1]) = some e.2 := by
      intro e he
      rw [NamedTree.lookup_append, hp, Option.bind_some,
        (hd.subtree hp).lookup_entry he]
      cases e.2 <;> rfl
    cases hpush : pushEntries root p es rest with
    | none =>
      -- too many children, or one with a long path
      rw [hpush] at hvisit
      refine ⟨fun ⟨_, _, hfits⟩ => ?_, fun _ => fails_of_visit hne hvisit⟩
      obtain ⟨e, he, hpushed, hlong'⟩ := pushEntries_none hpush
        (Nat.lt_of_le_of_lt NamedTree.le_topSlotEntries hfits.1)
      exact absurd (hfits.2 _ (mem_walkEntries_child he hpushed)) (not_textFits_of_long hlong')
    | some stack =>
      rw [hpush] at hvisit
      obtain ⟨rfl, hlen'⟩ := pushEntries_some hpush (Nat.lt_of_succ_lt hlen)
      have hstep := reaches_of_visit hne hvisit
      let b' : OnlineBck :=
        { stack := childStack p es ++ rest, marks := markAsRead b.marks p, copied := b.copied ++ [p] }
      obtain ⟨hgood, hbad⟩ := processed_entries hes ih b' rest rfl hlen'
      constructor
      · rintro ⟨-, -, hfits⟩
        have hdone := hstep.trans (hgood hfits)
        have hsame : after b rest ((NamedTree.node es).walk isPushed p) =
            after b' rest (NamedTree.walkEntries isPushed es p) := by
          simp [b', after, NamedTree.walk]
        rw [hsame]
        exact hdone
      · intro hnot
        exact hstep.fails (hbad fun hfits => hnot ⟨hlen, htext.mpr hlong, hfits⟩)
  · refine ⟨fun h => absurd (htext.mp h.2.1) hlong, fun _ => fails_of_visit hne ?_⟩
    by_cases hpop : strlen root p + 1 < pathSize
    · simp [visit, hb, pop, hpop, hp, textLength, hlong]
    · simp [visit, hb, pop, hpop]

/-- **Every subtree is processed**. -/
theorem processed (hd : t.Distinct) (u : FileTree) : Processed root t u := by
  induction u using NamedTree.induction with
  | leaf => exact processed_leaf
  | node es ih => exact processed_node hd ih

/-! ## Runs -/

/-- More rounds do not change how a run has ended. -/
theorem loop_mono {n k : Nat} {r : Ending} (h : loop root t n b = some r) :
    loop root t (n + k) b = some r := by
  induction n generalizing b with
  | zero => cases h
  | succ n ih =>
    rw [Nat.succ_add, loop]
    rw [loop] at h
    split
    · rename_i hempty
      rw [if_pos hempty] at h
      exact h
    · rename_i hne
      rw [if_neg hne] at h
      cases hvisit : visit root t b with
      | none =>
        rw [hvisit] at h
        exact h
      | some b' =>
        rw [hvisit] at h
        exact ih h

/-- **The tree fits**: no slot behind the last one is used, and the text around the path of
    every file that is not hidden fits its array. -/
def Fits (root : List Char) (t : FileTree) : Prop :=
  t.topSlot isPushed 0 < stackSlots ∧ ∀ p, t.Shown isPushed p → TextFits root t p

theorem fits_iff (hd : t.Distinct) : Fits root t ↔ FitsAt root t t [] 0 := by
  have hwalk : ∀ q, q ∈ t.walk isPushed [] ↔ t.Shown isPushed q := by
    intro q
    rw [NamedTree.mem_walk hd]
    simp
  simp only [Fits, FitsAt, hwalk]

variable {marks : FilePath → Bool}

/-- **The end of a run**: the tree is copied and marked along the walk if it fits, and
    otherwise the run goes out of bounds. -/
theorem onlineBck_ending (hd : t.Distinct) :
    (Fits root t → ∃ n, onlineBck root t marks n = some (.finished
      { stack := [], marks := (t.walk isPushed []).foldl markAsRead marks,
        copied := t.walk isPushed [] })) ∧
    (¬ Fits root t → ∀ n b, onlineBck root t marks n ≠ some (.finished b)) := by
  by_cases hroot : strlen root [] < pathSize
  · have hpush : push root [] [] = some [[]] := if_pos ⟨by decide, hroot⟩
    have hrun : ∀ n, onlineBck root t marks n =
        loop root t n { stack := [[]], marks := marks, copied := [] } := by
      intro n
      rw [onlineBck, hpush]
    have hlookup : t.lookup [] = some t := by cases t <;> rfl
    obtain ⟨hgood, hbad⟩ := processed hd t [] hlookup
      { stack := [[]], marks := marks, copied := [] } [] rfl (by decide)
    rw [List.length_nil, ← fits_iff hd] at hgood hbad
    constructor
    · intro hfits
      obtain ⟨k, hk⟩ := hgood hfits
      refine ⟨k + 1, ?_⟩
      rw [hrun, hk]
      rfl
    · intro hnot n b hn
      obtain ⟨k, hk⟩ := hbad hnot
      rw [hrun] at hn
      have hn' := loop_mono (k := k) hn
      rw [Nat.add_comm, hk] at hn'
      cases hn'
  · have hpush : push root [] [] = none := if_neg fun h => hroot h.2
    constructor
    · intro hfits
      have hlookup : t.lookup [] = some t := by cases t <;> rfl
      have htext := hfits.2 [] ⟨by rw [hlookup]; rfl, by simp⟩
      exact absurd htext (not_textFits_of_long (Nat.not_lt.mp hroot))
    · intro _ n b hn
      rw [onlineBck, hpush] at hn
      cases hn

/-- **What the traversal is for**: the root and every entry without a dot at the front of a
    name is copied once, a directory before its children. -/
structure CopiesTree (t : FileTree) (copied : List FilePath) : Prop where
  once : copied.Nodup
  mem : ∀ p, p ∈ copied ↔ t.Shown isPushed p
  order : ∀ p n, t.Shown isPushed (p ++ [n]) → [p, p ++ [n]].Sublist copied

theorem copiesTree_walk (hd : t.Distinct) : CopiesTree t (t.walk isPushed []) := by
  have hmem : ∀ p, p ∈ t.walk isPushed [] ↔ t.Shown isPushed p := by
    intro p
    rw [NamedTree.mem_walk hd]
    simp
  refine ⟨NamedTree.nodup_walk hd, hmem, fun p n hshown => ?_⟩
  exact NamedTree.pair_sublist_walk hd ((hmem _).mpr hshown) List.nil_prefix

/-- **The traversal** of a tree that does not change ends with a copy of the tree, within its
    arrays, exactly when the tree fits them. -/
theorem onlineBck_copies_iff (hd : t.Distinct) :
    (∃ n b, onlineBck root t marks n = some (.finished b) ∧ CopiesTree t b.copied) ↔
      Fits root t := by
  constructor
  · rintro ⟨n, b, hn, -⟩
    by_contra hnot
    exact (onlineBck_ending hd).2 hnot n b hn
  · intro hfits
    obtain ⟨n, hn⟩ := (onlineBck_ending hd).1 hfits
    exact ⟨n, _, hn, copiesTree_walk hd⟩

/-- All the children of a directory are on the stack at once. -/
theorem not_fits_of_wide (hwide : stackSlots ≤ es.countP fun e => isPushed e.1) :
    ¬ Fits root (.node es) := by
  intro hfits
  have hle : 0 + es.countP (fun e => isPushed e.1) ≤ NamedTree.topSlotEntries isPushed es 0 :=
    NamedTree.le_topSlotEntries
  have htop : NamedTree.topSlotEntries isPushed es 0 < stackSlots :=
    Nat.lt_of_le_of_lt (Nat.le_max_right ..) hfits.1
  omega

end

/-- A directory, a hidden file and a file below the root. -/
theorem onlineBck_copies_small :
    ∃ n b, onlineBck ['/', 'r']
        (.node [(['d'], .node [(['x'], .leaf)]), (['.', 'h'], .leaf), (['f'], .leaf)])
        (fun _ => false) n = some (.finished b) ∧
      CopiesTree (.node [(['d'], .node [(['x'], .leaf)]), (['.', 'h'], .leaf), (['f'], .leaf)])
        b.copied := by
  have hd : NamedTree.Distinct
      (.node [(['d'], .node [(['x'], .leaf)]), (['.', 'h'], .leaf), (['f'], .leaf)] : FileTree) := by
    refine NamedTree.distinct_node (by decide) ?_
    simp only [List.forall_mem_cons, List.not_mem_nil, false_imp_iff, implies_true, and_true]
    refine ⟨NamedTree.distinct_node (by decide) ?_, NamedTree.distinct_leaf, NamedTree.distinct_leaf⟩
    simp only [List.forall_mem_cons, List.not_mem_nil, false_imp_iff, implies_true, and_true]
    exact NamedTree.distinct_leaf
  refine (onlineBck_copies_iff hd).mpr ((fits_iff hd).mpr ⟨by decide, by decide⟩)

/-- 200 files with the names `a`, `aa`, `aaa`, ... -/
def wideEntries : List (FileName × FileTree) :=
  (List.range 200).map fun i => (List.replicate (i + 1) 'a', .leaf)

/-- The 200 children are all pushed at once, beyond the last slot of the stack. -/
theorem onlineBck_overflows :
    NamedTree.Distinct (.node wideEntries) ∧ ∀ n b,
      onlineBck ['/', 'r'] (.node wideEntries) (fun _ => false) n ≠ some (.finished b) := by
  have hd : NamedTree.Distinct (.node wideEntries) := by
    refine NamedTree.distinct_node ?_ ?_
    · rw [wideEntries, List.map_map]
      refine List.Nodup.map ?_ List.nodup_range
      intro i j hij
      have hlen := congrArg List.length hij
      simpa using hlen
    · intro e he
      obtain ⟨i, -, rfl⟩ := List.mem_map.mp he
      exact NamedTree.distinct_leaf
  have hcount : wideEntries.countP (fun e => isPushed e.1) = 200 := by
    rw [List.countP_eq_length.mpr]
    · simp [wideEntries]
    · intro e he
      obtain ⟨i, -, rfl⟩ := List.mem_map.mp he
      simp [isPushed, List.replicate_succ]
  have hwide : ¬ Fits ['/', 'r'] (.node wideEntries) :=
    not_fits_of_wide (Nat.le_of_eq hcount.symm)
  exact ⟨hd, (onlineBck_ending hd).2 hwide⟩

end OnlineBck

end TxFS
