import TxFS.Lib.Cursor
import TxFS.Lib.GuardedRun
import TxFS.Yaffs.DirSearch

/-!
# Listings of Directories

A run carries what each directory holds, as a list, beside the links. The links represent the
lists, and the searches are cursors in them: `yaffsfs_DirAdvance` finds the element behind, and
`yaffsfs_RemoveObjectCallback` moves the searches as the erasure of an element does.

So `nextReturn` never dangles, whatever is removed and freed between two calls (`live_of_run`),
and a search that goes to the end returns every object that stays in the directory, and none
twice (`listing_of_run`).

The callback does not move `dirObj`. A directory may be removed and freed under an open search, and
a `yaffs_rewinddir` then reads the freed memory (`Hangs`).

The runs are those in which YAFFS frees an object only when it is in no directory (`Allowed`). An
unmount frees the objects in their directories and does not close the searches, so it is not part
of a run, and the object that a hard link stands for is taken to be there as long as the link is.
-/

namespace TxFS

open CircularList GuardedRun

/-! ## Directories as lists -/

/-- The searches, and what the directories hold. -/
structure DirRun (Obj : Type) where
  searches : DirSearches Obj
  entries : Obj → List Obj

namespace DirRun

variable {Obj : Type} [DecidableEq Obj]

/-- What the event does to the lists. -/
def entriesAfter (entries : Obj → List Obj) : DirEvent Obj → Obj → List Obj
  | .addObj dir obj node =>
    Function.update entries dir (Cursor.insertAt obj node (entries dir))
  | .removeObj dir obj => Function.update entries dir ((entries dir).erase obj)
  | _ => entries

def step (r : DirRun Obj) (e : DirEvent Obj) : Option (DirRun Obj) :=
  (r.searches.step e).map fun s => ⟨s, entriesAfter r.entries e⟩

/-- **The conditions on a run**: searches are open where they are used, and the rest of YAFFS keeps
    objects in memory while a directory holds them (there is no unmount), frees directories when
    they are empty, and uses memory again when it was freed. -/
def Allowed (r : DirRun Obj) : DirEvent Obj → Prop
  | .opendir found _ _ dsc =>
    (∀ obj ∈ found, r.searches.freed obj = false) ∧ ∀ p ∈ dsc, p ∉ r.searches.searchContexts
  | .readdir p | .rewinddir p | .closedir p => p ∈ r.searches.searchContexts
  | .addObj dir obj node =>
    (r.searches.isDir dir = true ∧ r.searches.freed dir = false ∧ r.searches.freed obj = false) ∧
      (∀ d, obj ∉ r.entries d) ∧ ∀ b ∈ node, b ∈ r.entries dir
  | .removeObj dir obj => obj ∈ r.entries dir
  | .freeObj obj => r.entries obj = [] ∧ ∀ d, obj ∉ r.entries d
  | .newObj obj _ => r.searches.freed obj = true

/-- The call follows a hanging pointer: it goes back to the front of a directory that was freed. -/
def Hangs (r : DirRun Obj) : DirEvent Obj → Prop
  | .rewinddir p => r.searches.freed (r.searches.dsc p).dirObj = true
  | _ => False

/-! ## The invariant -/

/-- The links represent the lists, and the searches are in them. -/
structure Represents (r : DirRun Obj) : Prop where
  ring : ∀ d, Ring r.searches.links (.children d) ((r.entries d).map .siblings)
  /-- An object is in one directory. -/
  parent : ∀ d d' obj, obj ∈ r.entries d → obj ∈ r.entries d' → d = d'
  live : ∀ d, ∀ obj ∈ r.entries d,
    r.searches.isDir d = true ∧ r.searches.freed d = false ∧ r.searches.freed obj = false
  next : ∀ p ∈ r.searches.searchContexts, ∀ obj,
    (r.searches.dsc p).nextReturn = some obj → obj ∈ r.entries (r.searches.dsc p).dirObj
  nodup : r.searches.searchContexts.Nodup

/-- The search as a cursor. -/
def cursor (r : DirRun Obj) (p : Nat) : Cursor.State Obj where
  items := r.entries (r.searches.dsc p).dirObj
  next := (r.searches.dsc p).nextReturn

/-- The search is open, and the next object is the first of its directory. -/
structure AtFront (r : DirRun Obj) (p : Nat) : Prop where
  mem : p ∈ r.searches.searchContexts
  next : (r.cursor p).next = (r.cursor p).items.head?

variable {r r' : DirRun Obj} {s : DirSearches Obj} {e : DirEvent Obj} {p q : Nat}
  {dir d obj : Obj}

omit [DecidableEq Obj] in
theorem Represents.nodup_entries (hr : r.Represents) (d : Obj) : (r.entries d).Nodup :=
  List.Nodup.of_map _ (List.nodup_cons.mp (hr.ring d).nodup).2

omit [DecidableEq Obj] in
theorem Represents.valid (hr : r.Represents) (hp : p ∈ r.searches.searchContexts) :
    Cursor.Valid (r.cursor p) where
  nodup := hr.nodup_entries _
  next := hr.next p hp

/-! ## The links and the lists -/

/-- `siblings.next` leads to the object behind, or back to the directory. -/
theorem next_siblings {links : Links (DirLink Obj)} {xs : List Obj}
    (hring : Ring links (.children d) (xs.map .siblings)) (hxs : xs.Nodup) (hobj : obj ∈ xs) :
    links.next (.siblings obj) = (Cursor.succ xs obj).elim (.children d) .siblings := by
  obtain ⟨as, bs, rfl, -, -, -, hsucc⟩ := Cursor.exists_split hxs hobj
  rw [List.map_append, List.map_cons] at hring
  rw [hring.next, hsucc]
  cases bs with
  | nil => rfl
  | cons b bs => rfl

omit [DecidableEq Obj] in
theorem next_children {links : Links (DirLink Obj)} {xs : List Obj}
    (hring : Ring links (.children d) (xs.map .siblings)) :
    links.next (.children d) = xs.head?.elim (.children d) .siblings := by
  rw [hring.next_head]
  cases xs with
  | nil => rfl
  | cons x xs => rfl

/-! ## The functions -/

section

variable {xs : List Obj} {c : DirectorySearchContext Obj}

/-- `yaffsfs_DirAdvance` moves a search to the object behind. -/
theorem dirAdvance_eq (hc : s.dsc p = c) (hring : Ring s.links (.children c.dirObj) (xs.map .siblings))
    (hxs : xs.Nodup) (hdir : s.isDir c.dirObj = true) (hlive : s.freed c.dirObj = false)
    (hobj : obj ∈ xs) (hfreed : s.freed obj = false) (hnext : c.nextReturn = some obj) :
    s.dirAdvance p = some (s.setDsc p { c with nextReturn := Cursor.succ xs obj }) := by
  have hnonempty : ¬ s.links.next (.children c.dirObj) = .children c.dirObj := by
    rw [hring.next_eq_head_iff, List.map_eq_nil_iff]
    exact List.ne_nil_of_mem hobj
  unfold DirSearches.dirAdvance
  simp only [hc, hlive, hdir, hnext, if_true, if_neg hnonempty, hfreed,
    next_siblings hring hxs hobj, Bool.false_eq_true, if_false]
  cases Cursor.succ xs obj with
  | none => exact if_pos rfl
  | some b => rfl

/-- `yaffsfs_SetDirRewound` moves a search to the front. -/
theorem setDirRewound_eq (hc : s.dsc p = c)
    (hring : Ring s.links (.children c.dirObj) (xs.map .siblings))
    (hdir : s.isDir c.dirObj = true) (hlive : s.freed c.dirObj = false) :
    s.setDirRewound p = some (s.setDsc p { c with offset := 0, nextReturn := xs.head? }) := by
  unfold DirSearches.setDirRewound
  simp only [hc, hlive, hdir, if_true, Bool.false_eq_true, if_false, next_children hring]
  cases xs with
  | nil => exact if_pos rfl
  | cons x xs => rfl

/-- The context of a search when the object leaves the list `xs`. -/
def moved (xs : List Obj) (obj : Obj) (c : DirectorySearchContext Obj) :
    DirectorySearchContext Obj :=
  if c.nextReturn = some obj then { c with nextReturn := Cursor.succ xs obj } else c

/-- The loop of `yaffsfs_RemoveObjectCallback`. -/
theorem foldlM_callbackBody (hring : Ring s.links (.children dir) (xs.map .siblings))
    (hxs : xs.Nodup) (hdir : s.isDir dir = true) (hlive : s.freed dir = false) (hobj : obj ∈ xs)
    (hfreed : s.freed obj = false) {ps : List Nat} (hps : ps.Nodup)
    (hin : ∀ p ∈ ps, (s.dsc p).nextReturn = some obj → (s.dsc p).dirObj = dir) :
    ps.foldlM (DirSearches.callbackBody obj) s =
      some { s with dsc := fun p => if p ∈ ps then moved xs obj (s.dsc p) else s.dsc p } := by
  induction ps generalizing s with
  | nil => simp
  | cons p ps ih =>
    obtain ⟨hp, hps⟩ := List.nodup_cons.mp hps
    -- the round for `p`
    have hbody : DirSearches.callbackBody obj s p = some (s.setDsc p (moved xs obj (s.dsc p))) := by
      unfold DirSearches.callbackBody moved
      split
      · rename_i hnext
        obtain rfl := hin p (List.mem_cons_self ..) hnext
        exact dirAdvance_eq rfl hring hxs hdir hlive hobj hfreed hnext
      · rw [DirSearches.setDsc, Function.update_eq_self]
    rw [List.foldlM_cons, hbody, Option.bind_eq_bind, Option.bind_some]
    -- the searches behind it are as they were, so the other rounds go the same way
    have hother : ∀ q ∈ ps, (s.setDsc p (moved xs obj (s.dsc p))).dsc q = s.dsc q := fun q hq =>
      Function.update_of_ne (ne_of_mem_of_not_mem hq hp) ..
    rw [ih (s := s.setDsc p (moved xs obj (s.dsc p))) hring hdir hlive hfreed hps]
    · congr 2
      funext q
      -- `p` is done, and it is none of the others
      by_cases hqp : q = p
      · subst hqp
        simp [hp, DirSearches.setDsc]
      · by_cases hq : q ∈ ps
        · simp only [hq, if_true, hother q hq, List.mem_cons, or_true]
        · simp [hq, hqp, DirSearches.setDsc]
    · intro q hq hnext
      rw [hother q hq] at hnext ⊢
      exact hin q (List.mem_cons_of_mem _ hq) hnext

end

/-! ## Events -/

/-- The search of `yaffs_readdir`, one further. -/
def advanced (r : DirRun Obj) (p n : Nat) : DirectorySearchContext Obj :=
  { r.searches.dsc p with
    offset := n
    nextReturn := (r.searches.dsc p).nextReturn.bind
      (Cursor.succ (r.entries (r.searches.dsc p).dirObj)) }

/-- **What an event does**. -/
inductive StepSpec (r : DirRun Obj) : DirEvent Obj → DirRun Obj → Prop where
  | refused {found : Option Obj} {notDir loop : Bool} {dsc : Option Nat} {e : Option YaffsErrno} :
      StepSpec r (.opendir found notDir loop dsc) ⟨{ r.searches with error := e }, r.entries⟩
  | opened {dir : Obj} {notDir : Bool} {p : Nat} (hp : p ∉ r.searches.searchContexts) :
      StepSpec r (.opendir (some dir) notDir false (some p))
        ⟨{ r.searches.setDsc p ⟨dir, (r.entries dir).head?, 0⟩ with
            searchContexts := p :: r.searches.searchContexts }, r.entries⟩
  | readdir {p n : Nat} (hp : p ∈ r.searches.searchContexts) :
      StepSpec r (.readdir p)
        ⟨{ r.searches.setDsc p (r.advanced p n) with error := none }, r.entries⟩
  | rewound {p : Nat} (hp : p ∈ r.searches.searchContexts)
      (hdir : r.searches.isDir (r.searches.dsc p).dirObj = true) :
      StepSpec r (.rewinddir p)
        ⟨r.searches.setDsc p { r.searches.dsc p with
            offset := 0, nextReturn := (r.entries (r.searches.dsc p).dirObj).head? }, r.entries⟩
  | notRewound {p : Nat} (hp : p ∈ r.searches.searchContexts) : StepSpec r (.rewinddir p) r
  | closedir {p : Nat} (hp : p ∈ r.searches.searchContexts) :
      StepSpec r (.closedir p)
        ⟨{ r.searches with searchContexts := r.searches.searchContexts.erase p }, r.entries⟩
  | addObj {dir obj : Obj} {node : Option Obj}
      (hlive : r.searches.isDir dir = true ∧ r.searches.freed dir = false ∧
        r.searches.freed obj = false)
      (hobj : ∀ d, obj ∉ r.entries d) (hnode : ∀ b ∈ node, b ∈ r.entries dir) :
      StepSpec r (.addObj dir obj node)
        ⟨r.searches.addObj obj (node.elim (.children dir) .siblings),
          Function.update r.entries dir (Cursor.insertAt obj node (r.entries dir))⟩
  | removeObj {dir obj : Obj} (hobj : obj ∈ r.entries dir) :
      StepSpec r (.removeObj dir obj)
        ⟨{ r.searches with
            dsc := fun p =>
              if p ∈ r.searches.searchContexts then moved (r.entries dir) obj (r.searches.dsc p)
              else r.searches.dsc p
            links := deleteInit r.searches.links (.siblings obj) },
          Function.update r.entries dir ((r.entries dir).erase obj)⟩
  | freeObj {obj : Obj} (hempty : r.entries obj = []) (hobj : ∀ d, obj ∉ r.entries d) :
      StepSpec r (.freeObj obj) ⟨r.searches.freeObj obj, r.entries⟩
  | newObj {obj : Obj} {isDir : Bool} (hfreed : r.searches.freed obj = true) :
      StepSpec r (.newObj obj isDir) ⟨r.searches.newObj obj isDir, r.entries⟩

/-- What `yaffs_readdir` returns. -/
theorem readdir_eq (hr : r.Represents) (hp : p ∈ r.searches.searchContexts) :
    ∃ n, r.searches.readdir p =
      some ((r.searches.dsc p).nextReturn.map (r.searches.dirent p),
        { r.searches.setDsc p (r.advanced p n) with error := none }) := by
  unfold DirSearches.readdir advanced
  rw [if_pos hp]
  cases hnext : (r.searches.dsc p).nextReturn with
  | none =>
    refine ⟨(r.searches.dsc p).offset, ?_⟩
    -- at the end nothing moves
    have hsame : (⟨(r.searches.dsc p).dirObj, none, (r.searches.dsc p).offset⟩ :
        DirectorySearchContext Obj) = r.searches.dsc p := by
      rw [← hnext]
    simp only [Option.bind_none, Option.map_none, hsame, DirSearches.setDsc,
      Function.update_eq_self]
  | some obj =>
    have hobj := hr.next p hp obj hnext
    obtain ⟨hdir, hlive, hfreed⟩ := hr.live _ obj hobj
    -- the search with the next offset
    have hadvance := dirAdvance_eq (p := p)
      (c := { r.searches.dsc p with offset := (r.searches.dsc p).offset + 1 })
      (s := { r.searches with error := none }.setDsc p _)
      (Function.update_self ..) (hr.ring _) (hr.nodup_entries _) hdir hlive hobj hfreed hnext
    refine ⟨(r.searches.dsc p).offset + 1, ?_⟩
    simp only [DirSearches.setDsc, Function.update_idem] at hadvance
    simp only [hfreed, Bool.false_eq_true, if_false, DirSearches.setDsc, hadvance, Option.map_some,
      Option.bind_some]

/-- `yaffs_opendir`. -/
theorem opendir_spec (hr : r.Represents) {found : Option Obj} {dsc : Option Nat}
    (hfound : ∀ obj ∈ found, r.searches.freed obj = false)
    (hdsc : ∀ p ∈ dsc, p ∉ r.searches.searchContexts) (notDir loop : Bool) :
    ∃ res s', r.searches.opendir found notDir loop dsc = some (res, s') ∧
      r.StepSpec (.opendir found notDir loop dsc) ⟨s', r.entries⟩ ∧
      ∀ p, res = some p → AtFront ⟨s', r.entries⟩ p := by
  have hnone : ∀ {s' : DirSearches Obj} (p : Nat), none = some p → AtFront ⟨s', r.entries⟩ p := by
    intro s' p hp
    cases hp
  unfold DirSearches.opendir
  -- what is not found, and no memory, end in an error
  split
  · exact ⟨_, _, rfl, .refused, hnone⟩
  cases loop with
  | true => exact ⟨_, _, rfl, .refused, hnone⟩
  | false =>
    cases found with
    | none => exact ⟨_, _, rfl, .refused, hnone⟩
    | some dir =>
      have hlive := hfound dir rfl
      simp only [hlive, Bool.false_eq_true, if_false]
      split
      · rename_i hdir
        cases dsc with
        | none => exact ⟨_, _, rfl, .refused (e := r.searches.error), hnone⟩
        | some q =>
          -- the new context is put to the front of the directory
          have hrewound := setDirRewound_eq (p := q) (c := ⟨dir, none, 0⟩)
            (s := { r.searches.setDsc q _ with searchContexts := q :: r.searches.searchContexts })
            (Function.update_self ..) (hr.ring dir) hdir hlive
          refine ⟨some q, _, ?_, .opened (hdsc q rfl), ?_⟩
          · simp only [DirSearches.setDsc, Function.update_idem] at hrewound
            simp only [DirSearches.setDsc, hrewound, Option.map_some]
          · rintro p hp
            cases hp
            refine ⟨List.mem_cons_self .., ?_⟩
            simp only [cursor, DirSearches.setDsc, Function.update_self]
      · exact ⟨_, _, rfl, .refused, hnone⟩

/-- A call that follows a hanging pointer ends the run. -/
theorem not_hangs_of_step (he : r.Allowed e) (hstep : r.step e = some r') : ¬ r.Hangs e := by
  intro hhangs
  cases e with
  | rewinddir p =>
    have hp : p ∈ r.searches.searchContexts := he
    have hfreed : r.searches.freed (r.searches.dsc p).dirObj = true := hhangs
    simp [step, DirSearches.step, DirSearches.rewinddir, hp, DirSearches.setDirRewound,
      hfreed] at hstep
  | _ => exact hhangs

/-- Every other event that is allowed takes place. -/
theorem Represents.exists_stepSpec (hr : r.Represents) (he : r.Allowed e) (hlive : ¬ r.Hangs e) :
    ∃ r', r.step e = some r' ∧ r.StepSpec e r' := by
  cases e with
  | opendir found notDir loop dsc =>
    obtain ⟨res, s', hopen, hspec, -⟩ := opendir_spec hr he.1 he.2 notDir loop
    refine ⟨_, ?_, hspec⟩
    rw [step, DirSearches.step, hopen]
    rfl
  | readdir p =>
    obtain ⟨n, hres⟩ := readdir_eq hr he
    refine ⟨_, ?_, .readdir he (n := n)⟩
    rw [step, DirSearches.step, hres]
    rfl
  | rewinddir p =>
    have hp : p ∈ r.searches.searchContexts := he
    have hlive : r.searches.freed (r.searches.dsc p).dirObj = false :=
      Bool.eq_false_of_not_eq_true hlive
    -- a search on what is no directory is left alone
    cases hdir : r.searches.isDir (r.searches.dsc p).dirObj with
    | true =>
      refine ⟨_, ?_, .rewound hp hdir⟩
      rw [step, DirSearches.step, DirSearches.rewinddir, if_pos hp,
        setDirRewound_eq rfl (hr.ring _) hdir hlive]
      rfl
    | false =>
      refine ⟨_, ?_, .notRewound hp⟩
      rw [step, DirSearches.step, DirSearches.rewinddir, if_pos hp, DirSearches.setDirRewound]
      simp [hlive, hdir, entriesAfter]
  | closedir p =>
    have hp : p ∈ r.searches.searchContexts := he
    refine ⟨_, ?_, .closedir hp⟩
    rw [step, DirSearches.step, DirSearches.closedir, if_pos hp]
    rfl
  | addObj dir obj node => exact ⟨_, rfl, .addObj he.1 he.2.1 he.2.2⟩
  | removeObj dir obj =>
    obtain ⟨hdir, hlive, hfreed⟩ := hr.live dir obj he
    refine ⟨_, ?_, .removeObj he⟩
    -- the callback runs over all open searches, and those at the object are in its directory
    rw [step, DirSearches.step, DirSearches.removeObj, DirSearches.removeObjectCallback,
      foldlM_callbackBody (hr.ring dir) (hr.nodup_entries dir) hdir hlive he hfreed hr.nodup]
    · rfl
    · intro p hp hnext
      exact hr.parent _ _ obj (hr.next p hp obj hnext) he
  | freeObj obj => exact ⟨_, rfl, .freeObj he.1 he.2⟩
  | newObj obj isDir => exact ⟨_, rfl, .newObj he⟩

/-- **Inversion of a step**. -/
theorem Represents.stepSpec (hr : r.Represents) (he : r.Allowed e) (hstep : r.step e = some r') :
    r.StepSpec e r' := by
  obtain ⟨r'', hstep', hspec⟩ := hr.exists_stepSpec he (not_hangs_of_step he hstep)
  rw [hstep, Option.some.injEq] at hstep'
  exact hstep' ▸ hspec

/-! ## The searches are cursors -/

/-- The search stays open, and where it is. -/
def Continues (p : Nat) : DirEvent Obj → Prop
  | .rewinddir q | .closedir q => q ≠ p
  | _ => True

/-- What an event is for a search of the directory `d`. -/
def opsOf (d : Obj) (p : Nat) : DirEvent Obj → List (Cursor.Op Obj)
  | .readdir q => if q = p then [.read] else []
  | .addObj dir obj node => if dir = d then [.insert obj node] else []
  | .removeObj dir obj => if dir = d then [.erase obj] else []
  | _ => []

theorem moved_dirObj (xs : List Obj) (obj : Obj) (c : DirectorySearchContext Obj) :
    (moved xs obj c).dirObj = c.dirObj := by
  unfold moved
  split
  · rfl
  · rfl

theorem moved_nextReturn (xs : List Obj) (obj : Obj) (c : DirectorySearchContext Obj) :
    (moved xs obj c).nextReturn =
      if c.nextReturn = some obj then Cursor.succ xs obj else c.nextReturn := by
  unfold moved
  split
  · rfl
  · rfl

/-- **One event**, seen from an open search. -/
theorem StepSpec.cursor (hr : r.Represents) (hstep : r.StepSpec e r')
    (hp : p ∈ r.searches.searchContexts) (he : Continues p e)
    (hd : (r.searches.dsc p).dirObj = d) :
    (p ∈ r'.searches.searchContexts ∧ (r'.searches.dsc p).dirObj = d) ∧
      Cursor.AllOk (r.cursor p) (opsOf d p e) ∧
      r'.cursor p = (opsOf d p e).foldl Cursor.apply (r.cursor p) := by
  cases hstep with
  | refused => exact ⟨⟨hp, hd⟩, trivial, rfl⟩
  | @opened dir notDir q hq =>
    -- a new search is another one
    have hne : p ≠ q := ne_of_mem_of_not_mem hp hq
    have hdsc := Function.update_of_ne hne ⟨dir, (r.entries dir).head?, 0⟩ r.searches.dsc
    refine ⟨⟨List.mem_cons_of_mem _ hp, ?_⟩, trivial, ?_⟩
    · exact (congrArg _ hdsc).trans hd
    · simp only [DirRun.cursor, DirSearches.setDsc, hdsc, opsOf, List.foldl_nil]
  | @readdir q n hq =>
    by_cases hqp : q = p
    · subst hqp
      have hdsc := Function.update_self q (r.advanced q n) r.searches.dsc
      -- a read of this search moves it to the object behind
      have hops : opsOf d q (.readdir q) = [.read] := if_pos rfl
      rw [hops]
      refine ⟨⟨hp, ?_⟩, ⟨trivial, trivial⟩, ?_⟩
      · exact (congrArg _ hdsc).trans hd
      · simp only [DirRun.cursor, DirSearches.setDsc, hdsc, List.foldl_cons, List.foldl_nil,
          Cursor.apply]
        rfl
    · have hdsc := Function.update_of_ne (Ne.symm hqp) (r.advanced q n) r.searches.dsc
      -- a read of another search
      have hops : opsOf d p (.readdir q) = [] := if_neg hqp
      rw [hops]
      refine ⟨⟨hp, ?_⟩, trivial, ?_⟩
      · exact (congrArg _ hdsc).trans hd
      · simp only [DirRun.cursor, DirSearches.setDsc, hdsc, List.foldl_nil]
  | @rewound q hq hdir =>
    have hdsc := Function.update_of_ne (Ne.symm he) { r.searches.dsc q with
      offset := 0, nextReturn := (r.entries (r.searches.dsc q).dirObj).head? } r.searches.dsc
    refine ⟨⟨hp, ?_⟩, trivial, ?_⟩
    · exact (congrArg _ hdsc).trans hd
    · simp only [DirRun.cursor, DirSearches.setDsc, hdsc, opsOf, List.foldl_nil]
  | notRewound => exact ⟨⟨hp, hd⟩, trivial, rfl⟩
  | @closedir q hq =>
    exact ⟨⟨(List.mem_erase_of_ne (Ne.symm he)).mpr hp, hd⟩, trivial, rfl⟩
  | @addObj dir obj node hlive hobj hnode =>
    refine ⟨⟨hp, hd⟩, ?_⟩
    by_cases hdir : dir = d
    · -- into the directory of the search
      subst hdir hd
      have hops : opsOf (r.searches.dsc p).dirObj p
          (.addObj (r.searches.dsc p).dirObj obj node) = [.insert obj node] := if_pos rfl
      rw [hops]
      refine ⟨⟨⟨hobj _, hnode⟩, trivial⟩, ?_⟩
      simp only [DirRun.cursor, DirSearches.addObj, Function.update_self, List.foldl_cons,
        List.foldl_nil, Cursor.apply]
    · -- into another directory
      have hops : opsOf d p (.addObj dir obj node) = [] := if_neg hdir
      rw [hops]
      refine ⟨trivial, ?_⟩
      simp only [DirRun.cursor, DirSearches.addObj, hd, Function.update_of_ne (Ne.symm hdir),
        List.foldl_nil]
  | @removeObj dir obj hobj =>
    -- the callback has moved the search, if it was at the object
    simp only [DirRun.cursor, if_pos hp, moved_dirObj, moved_nextReturn, hd, and_true]
    refine ⟨hp, ?_⟩
    by_cases hdir : dir = d
    · subst hdir
      have hops : opsOf dir p (.removeObj dir obj) = [.erase obj] := if_pos rfl
      rw [hops]
      refine ⟨⟨trivial, trivial⟩, ?_⟩
      simp only [Function.update_self, List.foldl_cons, List.foldl_nil, Cursor.apply]
    · have hops : opsOf d p (.removeObj dir obj) = [] := if_neg hdir
      -- the search is at an object of its own directory
      have hne : (r.searches.dsc p).nextReturn ≠ some obj := by
        intro hnext
        have hmem := hr.next p hp obj hnext
        rw [hd] at hmem
        exact hdir (hr.parent _ _ obj hobj hmem)
      rw [hops]
      refine ⟨trivial, ?_⟩
      simp only [if_neg hne, Function.update_of_ne (Ne.symm hdir), List.foldl_nil]
  | freeObj => exact ⟨⟨hp, hd⟩, trivial, rfl⟩
  | newObj => exact ⟨⟨hp, hd⟩, trivial, rfl⟩

/-- A search that goes on stays at an object of its directory. -/
theorem StepSpec.valid (hr : r.Represents) (hspec : r.StepSpec e r')
    (hp : p ∈ r.searches.searchContexts) (he : Continues p e) : Cursor.Valid (r'.cursor p) := by
  obtain ⟨-, hok, hcursor⟩ := hspec.cursor hr hp he rfl
  rw [hcursor]
  exact (hr.valid hp).foldl hok

/-! ## The step lemma -/

omit [DecidableEq Obj] in
/-- Two directories have no node in common. -/
theorem Represents.disjoint (hr : r.Represents) {d' : Obj} (hne : d ≠ d') :
    ∀ n ∈ DirLink.children d :: (r.entries d).map .siblings,
      n ∉ DirLink.children d' :: (r.entries d').map .siblings := by
  intro n hn hn'
  rcases List.mem_cons.mp hn with rfl | hn
  · simp [hne] at hn'
  · obtain ⟨obj, hobj, rfl⟩ := List.mem_map.mp hn
    have hobj' : obj ∈ r.entries d' := by
      simpa using hn'
    exact hne (hr.parent d d' obj hobj hobj')

omit [DecidableEq Obj] in
theorem siblings_notMem {xs : List Obj} (hobj : obj ∉ xs) :
    DirLink.siblings obj ∉ DirLink.children d :: xs.map .siblings := by
  simpa using hobj

omit [DecidableEq Obj] in
/-- A search that is at an object of its directory. -/
theorem Represents.next_update (hr : r.Represents) {c : DirectorySearchContext Obj}
    (hc : ∀ obj, c.nextReturn = some obj → obj ∈ r.entries c.dirObj) {ps : List Nat}
    (hps : ∀ q ∈ ps, q ≠ p → q ∈ r.searches.searchContexts) :
    ∀ q ∈ ps, ∀ obj, (Function.update r.searches.dsc p c q).nextReturn = some obj →
      obj ∈ r.entries (Function.update r.searches.dsc p c q).dirObj := by
  intro q hq obj hobj
  by_cases hqp : q = p
  · subst hqp
    rw [Function.update_self] at hobj ⊢
    exact hc obj hobj
  · rw [Function.update_of_ne hqp] at hobj ⊢
    exact hr.next q (hps q hq hqp) obj hobj

omit [DecidableEq Obj] in
/-- Free memory is in no directory. -/
theorem Represents.of_freed (hr : r.Represents) (hfreed : r.searches.freed obj = true) :
    r.entries obj = [] ∧ ∀ d, obj ∉ r.entries d := by
  constructor
  · refine List.eq_nil_iff_forall_not_mem.mpr fun o ho => ?_
    obtain ⟨-, hlive, -⟩ := hr.live obj o ho
    rw [hfreed] at hlive
    cases hlive
  · intro d hobj
    obtain ⟨-, -, hlive⟩ := hr.live d obj hobj
    rw [hfreed] at hlive
    cases hlive

/-- An object goes into a directory. -/
theorem Represents.addObj (hr : r.Represents) {node : Option Obj}
    (hlive : r.searches.isDir dir = true ∧ r.searches.freed dir = false ∧
      r.searches.freed obj = false)
    (hobj : ∀ d, obj ∉ r.entries d) (hnode : ∀ b ∈ node, b ∈ r.entries dir)
    (hspec : r.StepSpec (.addObj dir obj node) r') : r'.Represents := by
  have hvalid := fun q hq => hspec.valid hr (p := q) hq trivial
  cases hspec
  have hmem : ∀ d o, o ∈ Function.update r.entries dir
      (Cursor.insertAt obj node (r.entries dir)) d ↔ (d = dir ∧ o = obj) ∨ o ∈ r.entries d := by
    intro d o
    by_cases hd : d = dir
    · subst hd
      rw [Function.update_self, Cursor.mem_insertAt]
      simp
    · rw [Function.update_of_ne hd]
      simp [hd]
  refine ⟨fun d => ?_, fun d d' o ho ho' => ?_, fun d o ho => ?_, fun q hq => ?_, hr.nodup⟩
  · -- the list of the directory gets a node, the other lists keep theirs
    by_cases hd : d = dir
    · subst hd
      simp only [Function.update_self, DirSearches.addObj]
      cases node with
      | none => exact (hr.ring d).insert_front (siblings_notMem (hobj d))
      | some b =>
        -- behind the node `b`: the list is cut there
        obtain ⟨as, bs, hxs, has, -⟩ := Cursor.exists_split (hr.nodup_entries d) (hnode b rfl)
        have hring := hr.ring d
        have hx := siblings_notMem (d := d) (hobj d)
        rw [hxs, List.map_append, List.map_cons] at hring hx
        rw [hxs, Cursor.insertAt, Cursor.insertBehind_append has, List.map_append, List.map_cons,
          List.map_cons]
        exact hring.insert hx
    · simp only [Function.update_of_ne hd, DirSearches.addObj]
      refine (hr.ring dir).insert_other ?_ (hr.ring d) (hr.disjoint hd) (siblings_notMem (hobj d))
      cases node with
      | none => exact List.mem_cons_self ..
      | some b => exact List.mem_cons_of_mem _ (List.mem_map_of_mem (hnode b rfl))
  · -- an object is in one directory
    rcases (hmem d o).mp ho with ⟨rfl, rfl⟩ | hin
    · rcases (hmem d' o).mp ho' with ⟨rfl, -⟩ | hin'
      · rfl
      · exact absurd hin' (hobj d')
    · rcases (hmem d' o).mp ho' with ⟨-, rfl⟩ | hin'
      · exact absurd hin (hobj d)
      · exact hr.parent d d' o hin hin'
  · rcases (hmem d o).mp ho with ⟨rfl, rfl⟩ | hin
    · -- the new object and its directory are live
      exact hlive
    · exact hr.live d o hin
  · -- a search is at an object of its directory, as a cursor
    exact (hvalid q hq).next

/-- An object leaves its directory. -/
theorem Represents.removeObj (hr : r.Represents) (hobj : obj ∈ r.entries dir)
    (hspec : r.StepSpec (.removeObj dir obj) r') : r'.Represents := by
  have hvalid := fun q hq => hspec.valid hr (p := q) hq trivial
  cases hspec
  -- the lists get no new objects
  have hmem : ∀ d o, o ∈ Function.update r.entries dir ((r.entries dir).erase obj) d →
      o ∈ r.entries d := by
    intro d o ho
    by_cases hd : d = dir
    · subst hd
      rw [Function.update_self] at ho
      exact List.mem_of_mem_erase ho
    · rwa [Function.update_of_ne hd] at ho
  refine ⟨fun d => ?_, fun d d' o ho ho' => hr.parent d d' o (hmem d o ho) (hmem d' o ho'),
    fun d o ho => hr.live d o (hmem d o ho), fun q hq => (hvalid q hq).next, hr.nodup⟩
  by_cases hd : d = dir
  · subst hd
    -- the node is cut out of the list of its directory
    obtain ⟨as, bs, hxs, has, -⟩ := Cursor.exists_split (hr.nodup_entries d) hobj
    have hring := hr.ring d
    rw [hxs, List.map_append, List.map_cons] at hring
    simp only [Function.update_self]
    rw [hxs, List.erase_append_right _ has, List.erase_cons_head, List.map_append]
    exact hring.delete
  · simp only [Function.update_of_ne hd]
    -- the other lists have none of its nodes
    refine (hr.ring dir).delete_other ?_ (hr.ring d) (hr.disjoint hd)
    exact List.mem_cons_of_mem _ (List.mem_map_of_mem hobj)

/-- **Step lemma**. -/
theorem StepSpec.represents (hr : r.Represents) (hspec : r.StepSpec e r') : r'.Represents := by
  cases hspec with
  | refused => exact ⟨hr.ring, hr.parent, hr.live, hr.next, hr.nodup⟩
  | @opened dir notDir p hp =>
    refine ⟨hr.ring, hr.parent, hr.live, ?_, List.nodup_cons.mpr ⟨hp, hr.nodup⟩⟩
    -- the new search is at the front
    refine hr.next_update (fun obj hobj => List.mem_of_mem_head? hobj) fun q hq hne => ?_
    exact (List.mem_cons.mp hq).resolve_left hne
  | @readdir p n hp =>
    refine ⟨hr.ring, hr.parent, hr.live, ?_, hr.nodup⟩
    -- a read leaves the search at an object of its directory
    refine hr.next_update (fun obj hobj => ?_) fun q hq _ => hq
    exact ((hr.valid hp).after (show Cursor.Ok (r.cursor p) .read from trivial)).next obj hobj
  | @rewound p hp hdir =>
    refine ⟨hr.ring, hr.parent, hr.live, ?_, hr.nodup⟩
    exact hr.next_update (fun obj hobj => List.mem_of_mem_head? hobj) fun q hq _ => hq
  | notRewound => exact hr
  | closedir hp =>
    exact ⟨hr.ring, hr.parent, hr.live, fun q hq => hr.next q (List.mem_of_mem_erase hq),
      hr.nodup.erase _⟩
  | addObj hlive hobj hnode => exact hr.addObj hlive hobj hnode (.addObj hlive hobj hnode)
  | removeObj hobj => exact hr.removeObj hobj (.removeObj hobj)
  | @freeObj obj hempty hobj =>
    refine ⟨hr.ring, hr.parent, fun d o ho => ?_, hr.next, hr.nodup⟩
    -- what is in a directory is not what is freed
    obtain ⟨hdir, hlive, hfreed⟩ := hr.live d o ho
    have hd : d ≠ obj := by
      rintro rfl
      rw [hempty] at ho
      cases ho
    have hne : o ≠ obj := ne_of_mem_of_not_mem ho (hobj d)
    exact ⟨hdir, (Function.update_of_ne hd ..).trans hlive, (Function.update_of_ne hne ..).trans hfreed⟩
  | @newObj obj isDir hfreed =>
    obtain ⟨hempty, hobj⟩ := hr.of_freed hfreed
    refine ⟨fun d => ?_, hr.parent, fun d o ho => ?_, hr.next, hr.nodup⟩
    · by_cases hd : d = obj
      · subst hd
        simp only [hempty, List.map_nil, DirSearches.newObj]
        -- the directory itself is new and empty
        exact ⟨List.nodup_singleton _, Function.update_self .., Function.update_self ..⟩
      · -- the nodes of the other directories are other nodes
        have hne : ∀ n ∈ DirLink.children d :: (r.entries d).map .siblings,
            n ≠ .children obj ∧ n ≠ .siblings obj := by
          intro n hn
          refine ⟨?_, ne_of_mem_of_not_mem hn (siblings_notMem (hobj d))⟩
          rintro rfl
          simp [Ne.symm hd] at hn
        refine (hr.ring d).frame (fun n hn => ?_) fun n hn => ?_
        · simp [DirSearches.newObj, hne n hn]
        · simp [DirSearches.newObj, hne n hn]
    · have hd : d ≠ obj := by
        rintro rfl
        rw [hempty] at ho
        cases ho
      have hne : o ≠ obj := ne_of_mem_of_not_mem ho (hobj d)
      obtain ⟨hdir, hlive, hfreed⟩ := hr.live d o ho
      exact ⟨(Function.update_of_ne hd ..).trans hdir, (Function.update_of_ne hd ..).trans hlive,
        (Function.update_of_ne hne ..).trans hfreed⟩

/-! ## Runs -/

/-- Nothing is there yet. -/
structure Start (r : DirRun Obj) : Prop where
  searchContexts : r.searches.searchContexts = []
  entries : ∀ d, r.entries d = []
  links : ∀ d, r.searches.links.next (.children d) = .children d ∧
    r.searches.links.prev (.children d) = .children d

variable {r₀ : DirRun Obj}

omit [DecidableEq Obj] in
theorem Start.represents (hr : r.Start) : r.Represents := by
  have hempty : ∀ d obj, obj ∉ r.entries d := by
    intro d obj
    rw [hr.entries]
    exact List.not_mem_nil
  refine ⟨fun d => ?_, fun d d' obj hobj => absurd hobj (hempty d obj),
    fun d obj hobj => absurd hobj (hempty d obj), fun p hp => ?_, ?_⟩
  · rw [hr.entries]
    exact ⟨List.nodup_singleton _, hr.links d⟩
  · rw [hr.searchContexts] at hp
    cases hp
  · rw [hr.searchContexts]
    exact List.nodup_nil

theorem represents_of_reachable (hr₀ : r₀.Start) (hr : ReachableUnder r₀ step Allowed r) :
    r.Represents := by
  refine hr.invariant (P := Represents) hr₀.represents fun r e r' _ hrep hok hstep => ?_
  exact (hrep.stepSpec hok hstep).represents hrep

/-- **`nextReturn` never dangles**. In every run, whatever objects leave their directories and are
    freed while searches are open, an allowed call reads freed memory only if it is a
    `yaffs_rewinddir` of a search whose directory was freed, and what `yaffs_readdir` returns is
    an object that the directory of the search holds. -/
theorem live_of_run (hr₀ : r₀.Start) (hr : ReachableUnder r₀ step Allowed r) :
    (∀ e, r.Allowed e → ((∃ r', r.step e = some r') ↔ ¬ r.Hangs e)) ∧
      ∀ p ∈ r.searches.searchContexts, ∃ res s, r.searches.readdir p = some (res, s) ∧
        ∀ de ∈ res, de.dDontUse ∈ r.entries (r.searches.dsc p).dirObj ∧
          r.searches.freed de.dDontUse = false := by
  have hrep := represents_of_reachable hr₀ hr
  constructor
  · intro e he
    constructor
    · rintro ⟨r', hstep⟩
      exact not_hangs_of_step he hstep
    · intro hlive
      obtain ⟨r', hstep, -⟩ := hrep.exists_stepSpec he hlive
      exact ⟨r', hstep⟩
  · intro p hp
    obtain ⟨n, hres⟩ := readdir_eq hrep hp
    refine ⟨_, _, hres, fun de hde => ?_⟩
    obtain ⟨obj, hnext, rfl⟩ := Option.map_eq_some_iff.mp hde
    -- the object that the search is at has not left its directory
    have hobj := hrep.next p hp obj hnext
    exact ⟨hobj, (hrep.live _ obj hobj).2.2⟩

/-- The directory 0, and two files that are in no directory yet. -/
def oneDirectory : DirRun Nat where
  searches :=
    { links := ⟨id, id⟩
      isDir := fun obj => obj == 0
      freed := fun _ => false
      objId := fun obj => obj
      getEquivalentObj := id
      objName := fun _ => ['f']
      dsc := fun _ => ⟨0, none, 0⟩
      searchContexts := []
      error := none }
  entries := fun _ => []

theorem oneDirectory_start : oneDirectory.Start := by
  refine ⟨rfl, fun d => rfl, fun d => ⟨rfl, rfl⟩⟩

/-- The two files are in the directory. -/
def twoFiles : DirRun Nat where
  searches := (oneDirectory.searches.addObj 2 (.children 0)).addObj 1 (.children 0)
  entries := Function.update (Function.update (fun _ => []) 0 [2]) 0 [1, 2]

theorem twoFiles_reachable : ReachableUnder oneDirectory step Allowed twoFiles := by
  have hone : ReachableUnder oneDirectory step Allowed
      ⟨oneDirectory.searches.addObj 2 (.children 0), Function.update (fun _ => []) 0 [2]⟩ := by
    refine .step (e := .addObj 0 2 none) .init ⟨⟨rfl, rfl, rfl⟩, fun d => List.not_mem_nil, ?_⟩ rfl
    intro b hb
    cases hb
  refine .step (e := .addObj 0 1 none) hone ⟨⟨rfl, rfl, rfl⟩, fun d => ?_, fun b hb => ?_⟩ rfl
  · by_cases hd : d = 0
    · subst hd
      decide
    · simp [Function.update_of_ne hd]
  · cases hb

/-- A search of the directory was opened. -/
def searching : DirRun Nat :=
  (twoFiles.step (.opendir (some 0) false false (some 7))).getD twoFiles

theorem opendir_allowed : twoFiles.Allowed (.opendir (some 0) false false (some 7)) := by
  refine ⟨fun obj hobj => rfl, fun p hp => List.not_mem_nil⟩

theorem notMem_erase (obj : Nat) : ∀ d, obj ∉
    Function.update searching.entries 0 ((searching.entries 0).erase obj) d := by
  intro d
  by_cases hd : d = 0
  · subst hd
    rw [Function.update_self, List.Nodup.mem_erase_iff (by decide)]
    simp
  · have hempty : searching.entries d = [] := by
      show Function.update (Function.update (fun _ => []) 0 [2]) 0 [1, 2] d = []
      simp [Function.update_of_ne hd]
    rw [Function.update_of_ne hd, hempty]
    exact List.not_mem_nil

/-- The file that a search is at leaves its directory and is freed; the search goes on. -/
theorem live_of_run_removed : ∃ r : DirRun Nat,
    (ReachableUnder oneDirectory step Allowed r ∧ 7 ∈ r.searches.searchContexts ∧
      r.searches.freed 1 = true) ∧
    ((∀ e, r.Allowed e → ((∃ r', r.step e = some r') ↔ ¬ r.Hangs e)) ∧
      ∀ p ∈ r.searches.searchContexts, ∃ res s, r.searches.readdir p = some (res, s) ∧
        ∀ de ∈ res, de.dDontUse ∈ r.entries (r.searches.dsc p).dirObj ∧
          r.searches.freed de.dDontUse = false) := by
  have hopen : ReachableUnder oneDirectory step Allowed searching :=
    .step twoFiles_reachable opendir_allowed rfl
  have hfile : searching.Allowed (.removeObj 0 1) := List.mem_cons_self ..
  obtain ⟨r, hremove, hentries, hcontexts⟩ : ∃ r, ReachableUnder oneDirectory step Allowed r ∧
      r.entries = Function.update searching.entries 0 ((searching.entries 0).erase 1) ∧
      r.searches.searchContexts = [7] := ⟨_, .step hopen hfile rfl, rfl, rfl⟩
  -- the file is in no directory any more, so it may be freed
  have halone : r.Allowed (.freeObj 1) := by
    refine ⟨?_, ?_⟩
    · rw [hentries]
      rfl
    · rw [hentries]
      exact notMem_erase 1
  have hfree := ReachableUnder.step hremove halone rfl
  refine ⟨_, ⟨hfree, ?_, rfl⟩, live_of_run oneDirectory_start hfree⟩
  show 7 ∈ r.searches.searchContexts
  rw [hcontexts]
  exact List.mem_singleton_self 7

/-! ## Listings -/

/-- The event puts the search to the front: `yaffs_opendir` returned it, or `yaffs_rewinddir` was
    called with it. -/
def Rewinds (r : DirRun Obj) (p : Nat) : DirEvent Obj → Prop
  | .opendir found notDir loop dsc =>
    (r.searches.opendir found notDir loop dsc).bind Prod.fst = some p
  | .rewinddir q => q = p ∧ r.searches.isDir (r.searches.dsc p).dirObj = true
  | _ => False

/-- What the event lists for the search. -/
def listed (r : DirRun Obj) (p : Nat) : DirEvent Obj → List Obj
  | .readdir q =>
    if q = p then (((r.searches.readdir p).bind Prod.fst).map Dirent.dDontUse).toList else []
  | _ => []

/-- A run in which the search goes on, with what it lists. -/
inductive Reading (p : Nat) : DirRun Obj → List (DirEvent Obj) → List Obj → DirRun Obj → Prop where
  | nil {r : DirRun Obj} : Reading p r [] [] r
  | cons {r r' r'' : DirRun Obj} {e : DirEvent Obj} {es : List (DirEvent Obj)} {out : List Obj}
      (hok : r.Allowed e) (he : Continues p e) (hstep : r.step e = some r')
      (hrest : Reading p r' es out r'') : Reading p r (e :: es) (r.listed p e ++ out) r''

theorem atFront_of_rewinds (hr : r.Represents) (he : r.Allowed e) (hrewinds : r.Rewinds p e)
    (hstep : r.step e = some r') : r'.AtFront p := by
  cases e with
  | opendir found notDir loop dsc =>
    obtain ⟨res, s', hopen, -, hfront⟩ := opendir_spec hr he.1 he.2 notDir loop
    have hres : res = some p := by
      simpa [Rewinds, hopen] using hrewinds
    rw [step, DirSearches.step, hopen] at hstep
    cases hstep
    exact hfront p hres
  | rewinddir q =>
    obtain ⟨rfl, hdir⟩ := hrewinds
    have hq : q ∈ r.searches.searchContexts := he
    have hlive := Bool.eq_false_of_not_eq_true (not_hangs_of_step he hstep)
    -- the directory is live, or the call would have ended the run
    rw [step, DirSearches.step, DirSearches.rewinddir, if_pos hq,
      setDirRewound_eq rfl (hr.ring _) hdir hlive] at hstep
    cases hstep
    refine ⟨hq, ?_⟩
    simp only [cursor, DirSearches.setDsc, Function.update_self]
    rfl
  | _ => exact hrewinds.elim

/-- What an event lists is what the cursor reads. -/
theorem listed_eq (hr : r.Represents) (hp : p ∈ r.searches.searchContexts) (d : Obj) :
    r.listed p e = Cursor.outputs (r.cursor p) (opsOf d p e) := by
  cases e with
  | readdir q =>
    by_cases hqp : q = p
    · subst hqp
      obtain ⟨n, hres⟩ := readdir_eq hr hp
      simp only [listed, opsOf, if_true, hres, Option.bind_some, Option.map_map, Cursor.outputs,
        List.append_nil]
      have hid : Dirent.dDontUse ∘ r.searches.dirent q = id := rfl
      rw [hid, Option.map_id]
      rfl
    · simp only [listed, opsOf, if_neg hqp, Cursor.outputs]
  | addObj dir obj node =>
    simp only [listed, opsOf]
    split
    · rfl
    · rfl
  | removeObj dir obj =>
    simp only [listed, opsOf]
    split
    · rfl
    · rfl
  | _ => rfl

variable {es : List (DirEvent Obj)} {out : List Obj}

/-- **Run lemma**: a search in a run is a cursor in the list of its directory. -/
theorem Reading.cursor (hread : Reading p r es out r') (hr : r.Represents)
    (hp : p ∈ r.searches.searchContexts) (hd : (r.searches.dsc p).dirObj = d) :
    Cursor.AllOk (r.cursor p) (es.flatMap (opsOf d p)) ∧
      out = Cursor.outputs (r.cursor p) (es.flatMap (opsOf d p)) ∧
      r'.cursor p = (es.flatMap (opsOf d p)).foldl Cursor.apply (r.cursor p) ∧
      r'.Represents ∧ p ∈ r'.searches.searchContexts := by
  induction hread with
  | nil => exact ⟨trivial, rfl, rfl, hr, hp⟩
  | cons hok he hstep hrest ih =>
    have hspec := hr.stepSpec hok hstep
    obtain ⟨⟨hp', hd'⟩, hallOk, hcursor⟩ := hspec.cursor hr hp he hd
    obtain ⟨hallOk', hout', hcursor', hr'', hp''⟩ := ih (hspec.represents hr) hp' hd'
    rw [hcursor] at hallOk' hout' hcursor'
    refine ⟨?_, ?_, ?_, hr'', hp''⟩
    · rw [List.flatMap_cons, Cursor.allOk_append]
      exact ⟨hallOk, hallOk'⟩
    · rw [List.flatMap_cons, Cursor.outputs_append, ← hout', listed_eq hr hp d]
    · rw [List.flatMap_cons, List.foldl_append]
      exact hcursor'

/-- The event behind an operation of the cursor. -/
theorem mem_opsOf {op : Cursor.Op Obj} (hmem : op ∈ opsOf d p e) :
    (op = .read ∧ e = .readdir p) ∨ (∃ obj b, op = .insert obj b ∧ e = .addObj d obj b) ∨
      ∃ obj, op = .erase obj ∧ e = .removeObj d obj := by
  cases e with
  | readdir q =>
    simp only [opsOf, List.mem_ite_nil_right, List.mem_singleton] at hmem
    obtain ⟨rfl, rfl⟩ := hmem
    exact .inl ⟨rfl, rfl⟩
  | addObj dir obj node =>
    simp only [opsOf, List.mem_ite_nil_right, List.mem_singleton] at hmem
    obtain ⟨rfl, rfl⟩ := hmem
    exact .inr (.inl ⟨obj, node, rfl, rfl⟩)
  | removeObj dir obj =>
    simp only [opsOf, List.mem_ite_nil_right, List.mem_singleton] at hmem
    obtain ⟨rfl, rfl⟩ := hmem
    exact .inr (.inr ⟨obj, rfl, rfl⟩)
  | _ => cases hmem

theorem insert_mem_opsOf {b : Option Obj} (hmem : .insert obj b ∈ opsOf d p e) :
    e = .addObj d obj b := by
  rcases mem_opsOf hmem with ⟨hop, -⟩ | ⟨obj', b', hop, he⟩ | ⟨obj', hop, -⟩
  · cases hop
  · cases hop
    exact he
  · cases hop

theorem erase_mem_opsOf (hmem : .erase obj ∈ opsOf d p e) : e = .removeObj d obj := by
  rcases mem_opsOf hmem with ⟨hop, -⟩ | ⟨obj', b', hop, -⟩ | ⟨obj', hop, he⟩
  · cases hop
  · cases hop
  · cases hop
    exact he

/-- **A listing is complete, and lists nothing twice**. The directory may change while a search
    goes from its front to its end, under the conditions of `Allowed`: an object is listed at most
    once, unless it goes into the directory meanwhile, and an object that stays in the directory is
    listed once by the time `yaffs_readdir` returns `NULL`. -/
theorem listing_of_run (hr₀ : r₀.Start) (hr : ReachableUnder r₀ step Allowed r)
    (he : r.Allowed e) (hrewinds : r.Rewinds p e) (hstep : r.step e = some r')
    {r'' : DirRun Obj} (hread : Reading p r' es out r'') (obj : Obj) :
    ((∀ b, .addObj (r'.searches.dsc p).dirObj obj b ∉ es) → out.count obj ≤ 1) ∧
      (obj ∈ r'.entries (r'.searches.dsc p).dirObj →
        .removeObj (r'.searches.dsc p).dirObj obj ∉ es →
        (r''.searches.readdir p).bind Prod.fst = none → out.count obj = 1) := by
  have hrep := represents_of_reachable hr₀ hr
  have hrep' := (hrep.stepSpec he hstep).represents hrep
  obtain ⟨hp, hfront⟩ := atFront_of_rewinds hrep he hrewinds hstep
  obtain ⟨hallOk, rfl, hcursor, hrep'', hp''⟩ := hread.cursor hrep' hp rfl
  -- what a cursor reads from the front on
  obtain ⟨honce, hall⟩ := (hrep'.valid hp).count_reads (x := obj) hfront hallOk
  constructor
  · intro hinsert
    -- an object that is read twice was inserted meanwhile
    refine honce fun b hmem => ?_
    obtain ⟨e', he', hop⟩ := List.mem_flatMap.mp hmem
    exact hinsert b (insert_mem_opsOf hop ▸ he')
  · intro hobj hremove hend
    refine hall hobj (fun hmem => ?_) ?_
    · obtain ⟨e', he', hop⟩ := List.mem_flatMap.mp hmem
      exact hremove (erase_mem_opsOf hop ▸ he')
    · -- at `NULL` the cursor is at the end
      obtain ⟨n, hres⟩ := readdir_eq hrep'' hp''
      rw [hres, Option.bind_some, Option.map_eq_none_iff] at hend
      rw [← hcursor]
      exact hend

/-- The second file leaves the directory when the search is at it. -/
theorem listing_of_run_removed : ∃ r out,
    (Reading 7 searching [.readdir 7, .removeObj 0 2] out r ∧
      (r.searches.readdir 7).bind Prod.fst = none) ∧ out.count 1 = 1 ∧ out.count 2 ≤ 1 := by
  have hfirst : searching.Allowed (.readdir 7) := List.mem_singleton_self 7
  obtain ⟨r, hread, hfile, r', hremove, hend⟩ : ∃ r, searching.step (.readdir 7) = some r ∧
      r.Allowed (.removeObj 0 2) ∧ ∃ r', r.step (.removeObj 0 2) = some r' ∧
        (r'.searches.readdir 7).bind Prod.fst = none :=
    ⟨_, rfl, List.mem_cons_of_mem _ (List.mem_singleton_self 2), _, rfl, rfl⟩
  have hrun := Reading.cons (p := 7) hfirst trivial hread (.cons hfile trivial hremove .nil)
  have hlisting := listing_of_run oneDirectory_start twoFiles_reachable opendir_allowed
    (show twoFiles.Rewinds 7 _ from rfl) rfl hrun
  refine ⟨r', _, ⟨hrun, hend⟩, (hlisting 1).2 (List.mem_cons_self ..) ?_ hend, (hlisting 2).1 ?_⟩
  · simp
  · simp

end DirRun

end TxFS
