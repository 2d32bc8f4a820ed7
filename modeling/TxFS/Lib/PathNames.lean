import Mathlib.Data.List.Basic
import Mathlib.Data.List.TakeWhile

/-!
# Names in a Path

A path is a string of names with slashes between them. `scan` reads it from left to right: it
collects the names that a slash follows, the directories on the way, and the last name, behind
which the string ends. Repeated slashes count as one, and a path that ends in a slash has the
empty last name.

`dirname` is the function of the C library, which cuts its argument.
-/

namespace PathNames

abbrev Path := List Char

/-- The names with a slash behind them, and the last name; `cur` is the part of a name that
    has been read. -/
def scan : Path → Path → List Path × Path
  | cur, [] => ([], cur)
  | cur, c :: s =>
    if c = '/' then
      if cur = [] then scan [] s else (cur :: (scan [] s).1, (scan [] s).2)
    else scan (cur ++ [c]) s

/-- The directories on the way to the last name. -/
def dirNames (s : Path) : List Path := (scan [] s).1

/-- The last name. -/
def lastName (s : Path) : Path := (scan [] s).2

variable {s u v cur : Path}

/-- A path in two parts is read part by part. -/
theorem scan_append : scan cur (u ++ v) =
    ((scan cur u).1 ++ (scan (scan cur u).2 v).1, (scan (scan cur u).2 v).2) := by
  induction u generalizing cur with
  | nil => rfl
  | cons c u ih =>
    simp only [List.cons_append, scan]
    split
    · split
      · exact ih
      · simp [ih]
    · exact ih

/-- The slashes in front of a path do not count. -/
theorem scan_dropWhile : scan [] (s.dropWhile (· = '/')) = scan [] s := by
  induction s with
  | nil => rfl
  | cons c s ih =>
    by_cases hc : c = '/'
    · simp [hc, scan, ih]
    · simp [hc]

/-- A text without slashes continues the name. -/
theorem scan_text (h : '/' ∉ s) : scan cur s = ([], cur ++ s) := by
  induction s generalizing cur with
  | nil => simp [scan]
  | cons c s ih =>
    simp only [List.mem_cons, not_or] at h
    rw [scan, if_neg (Ne.symm h.1), ih h.2]
    simp

/-- Slashes end the name, if there is one. -/
theorem scan_slashes (h : ∀ c ∈ s, c = '/') (hs : s ≠ []) :
    scan cur s = ((if cur = [] then [] else [cur]), []) := by
  have hskip : ∀ {s : Path}, (∀ c ∈ s, c = '/') → scan [] s = ([], []) := by
    intro s h
    induction s with
    | nil => rfl
    | cons c s ih =>
      rw [scan, if_pos (h c (List.mem_cons_self ..)), if_pos rfl]
      exact ih fun d hd => h d (List.mem_cons_of_mem _ hd)
  cases s with
  | nil => exact absurd rfl hs
  | cons c s =>
    have hrest := hskip fun d hd => h d (List.mem_cons_of_mem _ hd)
    rw [scan, if_pos (h c (List.mem_cons_self ..)), hrest]
    split
    · rfl
    · rfl

/-! ## `dirname` -/

/-- What `dirname` leaves of its argument: the path without its last name and without the
    slashes around that name, and one slash if nothing else is left. -/
def dirname (path : Path) : Path :=
  let dir := (((path.reverse.dropWhile (· = '/')).dropWhile (· ≠ '/')).dropWhile (· = '/')).reverse
  if dir = [] ∧ '/' ∈ path then ['/'] else if dir = [] then path else dir

/-- A path without slashes is not cut. -/
theorem dirname_eq_self {path : Path} (h : '/' ∉ path) : dirname path = path := by
  have hnil : (path.reverse.dropWhile (· = '/')).dropWhile (· ≠ '/') = [] := by
    rw [List.dropWhile_eq_nil_iff]
    intro c hc
    have hmem : c ∈ path := List.mem_reverse.mp ((List.dropWhile_suffix _).subset hc)
    have hne : c ≠ '/' := fun heq => h (heq ▸ hmem)
    simpa using hne
  unfold dirname
  rw [hnil]
  simp [h]

/-- A path cut up around its last name: what `dirname` leaves, slashes, the name and more
    slashes. -/
structure Cut (path sep name trail : Path) : Prop where
  eq : path = dirname path ++ (sep ++ name ++ trail)
  slashes : ∀ c ∈ sep, c = '/'
  text : '/' ∉ name
  trailing : ∀ c ∈ trail, c = '/'
  /-- Only the root has no slash behind it that is left out, and no name. -/
  root : dirname path ≠ ['/'] → sep ≠ [] ∧ name ≠ [] ∧ (dirname path).getLast? ≠ some '/'

/-- A list with its longest tail of elements that satisfy `p` split off. -/
theorem eq_dropWhile_append (p : Char → Bool) (s : Path) :
    s = (s.reverse.dropWhile p).reverse ++ (s.reverse.takeWhile p).reverse := by
  rw [← List.reverse_append, List.takeWhile_append_dropWhile, List.reverse_reverse]

/-- What stands in front of that tail ends differently. -/
theorem getLast?_dropWhile (p : Char → Bool) (s : Path) {c : Char}
    (h : (s.reverse.dropWhile p).reverse.getLast? = some c) : p c = false := by
  rw [List.getLast?_reverse] at h
  have hnot := List.head?_dropWhile_not p s.reverse
  rw [h] at hnot
  simpa using hnot

/-- The parts that `dirname` reads off a path from the right. -/
structure Parts (path dir sep name trail : Path) : Prop where
  eq : path = dir ++ (sep ++ name ++ trail)
  dirname : dirname path = if dir = [] ∧ '/' ∈ path then ['/'] else if dir = [] then path else dir
  slashes : ∀ c ∈ sep, c = '/'
  text : '/' ∉ name
  trailing : ∀ c ∈ trail, c = '/'
  /-- None of them is longer than it has to be. -/
  ends : dir ≠ [] → sep ≠ [] ∧ name ≠ [] ∧ dir.getLast? ≠ some '/'

theorem exists_parts (path : Path) : ∃ dir sep name trail, Parts path dir sep name trail := by
  -- the slashes behind the name, the name, the slashes in front of it
  let front := (path.reverse.dropWhile (· = '/')).reverse
  let trail := (path.reverse.takeWhile (· = '/')).reverse
  let above := (front.reverse.dropWhile (· ≠ '/')).reverse
  let name := (front.reverse.takeWhile (· ≠ '/')).reverse
  let dir := (above.reverse.dropWhile (· = '/')).reverse
  let sep := (above.reverse.takeWhile (· = '/')).reverse
  have hpath : path = front ++ trail := eq_dropWhile_append _ path
  have hfront : front = above ++ name := eq_dropWhile_append _ front
  have habove : above = dir ++ sep := eq_dropWhile_append _ above
  refine ⟨dir, sep, name, trail, ⟨?_, ?_, ?_, ?_, ?_, ?_⟩⟩
  · nth_rewrite 1 [hpath]
    rw [hfront, habove]
    simp
  · simp [PathNames.dirname, dir, above, front]
  · exact fun c hc => by simpa using List.mem_takeWhile_imp (List.mem_reverse.mp hc)
  · exact fun hc => by simpa using List.mem_takeWhile_imp (List.mem_reverse.mp hc)
  · exact fun c hc => by simpa using List.mem_takeWhile_imp (List.mem_reverse.mp hc)
  · intro hdir
    have hdirLast : dir.getLast? ≠ some '/' := fun hlast => by
      simpa using getLast?_dropWhile (· = '/') above hlast
    have hfrontLast : front.getLast? ≠ some '/' := fun hlast => by
      simpa using getLast?_dropWhile (· = '/') path hlast
    have habove' : above ≠ [] := fun hnil => hdir (by
      rw [hnil] at habove
      exact (List.append_eq_nil_iff.mp habove.symm).1)
    have haboveLast : above.getLast? = some '/' := by
      have hsome := List.getLast?_eq_some_getLast habove'
      have hslash := getLast?_dropWhile (· ≠ '/') front hsome
      rw [hsome]
      simpa using hslash
    refine ⟨fun hnil => ?_, fun hnil => ?_, hdirLast⟩
    · rw [habove, hnil, List.append_nil] at haboveLast
      exact hdirLast haboveLast
    · rw [hfront, hnil, List.append_nil] at hfrontLast
      exact hfrontLast haboveLast

/-- If something is left in front of the slashes, it is the `dirname`. -/
theorem Parts.cut {path dir sep name trail : Path} (h : Parts path dir sep name trail)
    (hdir : dir ≠ []) : Cut path sep name trail := by
  have hdirname : PathNames.dirname path = dir := by
    rw [h.dirname, if_neg (fun hnil => hdir hnil.1), if_neg hdir]
  refine ⟨?_, h.slashes, h.text, h.trailing, ?_⟩
  · rw [hdirname]
    exact h.eq
  · intro _
    rw [hdirname]
    exact h.ends hdir

/-- If nothing is left, the first slash of the path stays. -/
theorem Parts.cut_root {path sep name trail : Path} (h : Parts path [] sep name trail)
    (habs : path.head? = some '/') : ∃ sep' trail', Cut path sep' name trail' := by
  have hroot : PathNames.dirname path = ['/'] := by
    rw [h.dirname, if_pos ⟨rfl, List.mem_of_head? habs⟩]
  have hsplit : path = sep ++ name ++ trail := h.eq
  cases sep with
  | cons c sep =>
    have hc := h.slashes c (List.mem_cons_self ..)
    refine ⟨sep, trail, ⟨?_, ?_, h.text, h.trailing, fun hne => absurd hroot hne⟩⟩
    · rw [hroot]
      nth_rewrite 1 [hsplit]
      simp [hc]
    · intro d hd
      exact h.slashes d (List.mem_cons_of_mem _ hd)
  | nil =>
    -- the path has slashes only
    cases name with
    | cons c name =>
      rw [hsplit] at habs
      simp only [List.nil_append, List.cons_append, List.head?_cons, Option.some.injEq] at habs
      exact absurd (habs ▸ List.mem_cons_self ..) h.text
    | nil =>
      cases trail with
      | nil =>
        rw [hsplit] at habs
        cases habs
      | cons c trail =>
        have hc := h.trailing c (List.mem_cons_self ..)
        refine ⟨[], trail, ⟨?_, nofun, nofun, ?_, fun hne => absurd hroot hne⟩⟩
        · rw [hroot]
          nth_rewrite 1 [hsplit]
          simp [hc]
        · intro d hd
          exact h.trailing d (List.mem_cons_of_mem _ hd)

/-- **Every absolute path is cut** by `dirname`. -/
theorem exists_cut {path : Path} (habs : path.head? = some '/') :
    ∃ sep name trail, Cut path sep name trail := by
  obtain ⟨dir, sep, name, trail, hparts⟩ := exists_parts path
  by_cases hdir : dir = []
  · subst hdir
    obtain ⟨sep', trail', hcut⟩ := hparts.cut_root habs
    exact ⟨sep', name, trail', hcut⟩
  · exact ⟨sep, name, trail, hparts.cut hdir⟩

theorem Cut.drop_dirname {path sep name trail : Path} (h : Cut path sep name trail) :
    path.drop (dirname path).length = sep ++ name ++ trail := by
  have hdrop := congrArg (List.drop (dirname path).length) h.eq
  rwa [List.drop_left] at hdrop

/-- The `dirname` is the beginning of an absolute path. -/
theorem dirname_append_drop {path : Path} (habs : path.head? = some '/') :
    dirname path ++ path.drop (dirname path).length = path := by
  obtain ⟨sep, name, trail, hcut⟩ := exists_cut habs
  rw [hcut.drop_dirname]
  exact hcut.eq.symm

/-- The last name is empty only behind a slash. -/
theorem scan_last_nil (h : (scan cur s).2 = []) :
    (s = [] ∧ cur = []) ∨ s.getLast? = some '/' := by
  induction s generalizing cur with
  | nil => exact .inl ⟨rfl, h⟩
  | cons c s ih =>
    right
    rw [scan] at h
    by_cases hc : c = '/'
    · have hs : (scan [] s).2 = [] := by
        rw [if_pos hc] at h
        split at h
        · exact h
        · exact h
      rcases ih hs with ⟨rfl, -⟩ | hlast
      · simp [hc]
      · simp [List.getLast?_cons, hlast]
    · rw [if_neg hc] at h
      rcases ih h with ⟨-, hcur⟩ | hlast
      · simp at hcur
      · simp [List.getLast?_cons, hlast]

/-- What is read behind the `dirname`: the slashes end the name that was read before. -/
theorem Cut.scan {path sep name trail : Path} (h : Cut path sep name trail)
    (hcur : sep = [] → cur = []) : (scan cur (sep ++ name ++ trail)).1 =
      (if cur = [] then [] else [cur]) ++ if trail = [] ∨ name = [] then [] else [name] := by
  have hsep : PathNames.scan cur sep = ((if cur = [] then [] else [cur]), []) := by
    by_cases hs : sep = []
    · rw [hs, hcur hs]
      rfl
    · exact scan_slashes h.slashes hs
  have htrail : (PathNames.scan name trail).1 = if trail = [] ∨ name = [] then [] else [name] := by
    by_cases ht : trail = []
    · simp [ht, PathNames.scan]
    · simp [scan_slashes h.trailing ht, ht]
  rw [List.append_assoc, scan_append, hsep, scan_append, scan_text h.text]
  simp [htrail]

/-- How many names of directories a path has more than its `dirname`, if it has so many. -/
def namesAbove (path : Path) : Nat := if path.getLast? = some '/' then 2 else 1

theorem Cut.namesAbove {path sep name trail : Path} (h : Cut path sep name trail)
    (hname : name ≠ []) : namesAbove path = if trail = [] then 1 else 2 := by
  have hlast : path.getLast? = (name ++ trail).getLast? := by
    rw [h.eq, List.append_assoc, List.getLast?_append_of_ne_nil _ (by simp [hname]),
      List.getLast?_append_of_ne_nil _ (by simp [hname])]
  rw [PathNames.namesAbove, hlast]
  by_cases ht : trail = []
  · have hne : name.getLast? ≠ some '/' := fun hl => h.text (List.mem_of_getLast? hl)
    simp [ht, hne]
  · have hslash : (name ++ trail).getLast? = some '/' := by
      rw [List.getLast?_append_of_ne_nil _ ht, List.getLast?_eq_some_getLast ht]
      exact congrArg some (h.trailing _ (List.getLast_mem ht))
    simp [ht, hslash]

/-- A last part of the `dirname` that ends in a slash is empty. -/
theorem Cut.eq_nil_of_suffix {path sep name trail r : Path} (h : Cut path sep name trail)
    (hr : r <:+ dirname path) (hroot : dirname path = ['/'] → r = [])
    (hlast : lastName r = []) : r = [] := by
  rcases scan_last_nil hlast with ⟨hnil, -⟩ | hslash
  · exact hnil
  · by_cases hd : dirname path = ['/']
    · exact hroot hd
    · obtain ⟨front, hfront⟩ := hr
      have hne : r ≠ [] := fun hnil => by
        rw [hnil] at hslash
        cases hslash
      refine absurd ?_ (h.root hd).2.2
      rw [← hfront, List.getLast?_append_of_ne_nil _ hne]
      exact hslash

/-- The directories behind some point in the `dirname`: those up to its end, its last name, and
    the last name of the path if a slash follows it. -/
theorem Cut.dirNames_append {path sep name trail r : Path} (h : Cut path sep name trail)
    (hroot : dirname path = ['/'] → r = []) :
    dirNames (r ++ path.drop (dirname path).length) = dirNames r ++
      ((if lastName r = [] then [] else [lastName r]) ++
        if trail = [] ∨ name = [] then [] else [name]) := by
  have hcur : sep = [] → lastName r = [] := by
    intro hs
    by_cases hd : dirname path = ['/']
    · rw [hroot hd]
      rfl
    · exact absurd hs (h.root hd).1
  rw [h.drop_dirname, dirNames, scan_append]
  exact congrArg (dirNames r ++ ·) (h.scan hcur)

/-- **The directories of `dirname`** are those of the path without the last one, and without
    the last two of a path that ends in a slash. `r` is a part of the `dirname` behind some
    point of the path, which may be its end. -/
theorem dirNames_dirname {path r : Path} (habs : path.head? = some '/')
    (hr : r <:+ dirname path) (hroot : dirname path = ['/'] → r = []) :
    dirNames r = (dirNames (r ++ path.drop (dirname path).length)).take
      ((dirNames (r ++ path.drop (dirname path).length)).length - namesAbove path) := by
  obtain ⟨sep, name, trail, hcut⟩ := exists_cut habs
  rw [hcut.dirNames_append hroot]
  by_cases hl : lastName r = []
  · -- at most the name itself is a directory
    cases hcut.eq_nil_of_suffix hr hroot hl
    by_cases hname : name = []
    · simp [hname, dirNames, lastName, PathNames.scan]
    · rw [hcut.namesAbove hname]
      by_cases ht : trail = []
      · simp [ht, hname, dirNames, lastName, PathNames.scan]
      · simp [ht, hname, dirNames, lastName, PathNames.scan]
  · have hname : name ≠ [] := by
      intro hname
      have hd : dirname path = ['/'] := by
        by_contra hd
        exact (hcut.root hd).2.1 hname
      rw [hroot hd] at hl
      exact hl rfl
    rw [hcut.namesAbove hname]
    by_cases ht : trail = []
    · simp [ht, hl]
    · simp [ht, hl, hname]

end PathNames
