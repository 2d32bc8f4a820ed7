import TxFS.Server.Machine
import TxFS.Yaffs.Pinned

/-!
# The Pool of Handles

A forced unmount clears the handles of all devices and leaves the descriptors of the other ones in
use. Without it a descriptor has exactly its handles, so an open fails with `ENFILE` only when all
handles are in use.

The server keeps the handles as a list of their owners, out of which an open takes the lowest one
that is free. `Pooled` connects this list with the tables: `yaffs_open` returns the handle that
`trFileOpen` takes, and `yaffs_close` gives back the one that `closeHandle` gives back.
-/

namespace TxFS

open RefTable GuardedRun

namespace YaffsTables

variable {Obj : Type} {y y' : YaffsTables Obj} {f h i k : Nat} {obj : Obj} {dev : Int}

/-! ## Exact counts -/

/-- The count of a descriptor is the number of its handles. -/
def Exact (y : YaffsTables Obj) : Prop :=
  ∀ f < y.nHandles, (y.fd f).handleCount = refs y.nHandles y.handleRef f

theorem Exact.set {p : YaffsHandle} (hy : Exact y) (hn : y'.nHandles = y.nHandles)
    (hk : k < y.nHandles) (hhandle : y'.handle = Function.update y.handle k p)
    (hcount : ∀ f < y.nHandles,
      (y.fd f).handleCount + (if 0 < p.useCount ∧ p.fdId.toNat = f then 1 else 0 : Nat) =
        (y'.fd f).handleCount + (if y.handleRef k = some f then 1 else 0 : Nat)) : Exact y' := by
  intro f hf
  rw [hn] at hf ⊢
  have hset := refs_handleRef_set (f := f) hk hhandle
  have hcountf := hcount f hf
  have hexact := hy f hf
  omega

/-- Nothing of the handles and their descriptors changes. -/
theorem Exact.of_eq (hy : Exact y) (hn : y'.nHandles = y.nHandles) (hhandle : y'.handle = y.handle)
    (hfd : ∀ f < y.nHandles, (y'.fd f).handleCount = (y.fd f).handleCount) : Exact y' := by
  intro f hf
  rw [hn] at hf ⊢
  have href : y'.handleRef = y.handleRef := by
    funext j
    rw [handleRef, handleRef, hhandle]
  rw [hfd f hf, href]
  exact hy f hf

/-- A free descriptor has no handle. -/
theorem Exact.free (hy : Exact y) (hf : f < y.nHandles) (hfree : ¬ 0 < (y.fd f).handleCount) :
    (y.fd f).handleCount = 0 := by
  have hexact := hy f hf
  omega

/-- **A descriptor for every handle**: where a handle is free, a descriptor is. -/
theorem Exact.exists_fd (hy : Exact y) (hk : k < y.nHandles) (hfree : ¬ 0 < (y.handle k).useCount) :
    ∃ f < y.nHandles, ¬ 0 < (y.fd f).handleCount := by
  apply exists_unused (fun f => 0 < (y.fd f).handleCount) hk
    (show y.handleRef k = none from if_neg hfree)
  intro f hf hused
  have hexact := hy f hf
  exact refs_pos_iff.mp (by omega)

theorem AllClosed.exact (hy : AllClosed y) : Exact y := by
  intro f hf
  have hnone : refs y.nHandles y.handleRef f = 0 := by
    by_contra hpos
    obtain ⟨h, hh, href⟩ := refs_pos_iff.mp (Nat.pos_of_ne_zero hpos)
    rw [handleRef, hy.handle h hh] at href
    cases href
  rw [hy.fd f hf, hnone]
  rfl

variable [DecidableEq Obj]

theorem PutSpec.exact {h : Int} (hy : Exact y) (hput : PutSpec y h y') : Exact y' := by
  cases hput with
  | same => exact hy
  | @pinned k hk hh huse =>
    have hused : 0 < (y.handle k).useCount := by omega
    refine hy.set rfl hk rfl fun f hf => ?_
    have hstays : 0 < (y.handle k).useCount - 1 := by omega
    rw [handleRef_of_used hused]
    simp only [hstays, true_and, Option.some.injEq]
    rfl
  | @shared k f hk hh huse hf hfd hmore =>
    have hused : 0 < (y.handle k).useCount := by omega
    refine hy.set rfl hk rfl fun g hg => ?_
    rw [handleRef_of_used hused, hfd]
    by_cases hgf : g = f
    · subst hgf
      simp [setHandle, setFd]
    · simp [setHandle, setFd, hgf, Ne.symm hgf]
  | @last k f i obj hk hh huse hf hfd hlast hid hobj =>
    have hused : 0 < (y.handle k).useCount := by omega
    refine hy.set rfl hk rfl fun g hg => ?_
    rw [handleRef_of_used hused, hfd]
    by_cases hgf : g = f
    · subst hgf
      simp [setHandle, freed, setFd, hlast]
    · simp [setHandle, freed, setFd, hgf, Ne.symm hgf]

omit [DecidableEq Obj] in
theorem DupSpec.exact {h : Int} {r : Int × YaffsTables Obj} (hy : Exact y) (hdup : DupSpec y h r) :
    Exact r.2 := by
  cases hdup with
  | refused => exact hy.of_eq rfl rfl fun _ _ => rfl
  | @dup k h' f hk hh huse hfd hf hh' =>
    have hnone : y.handleRef h' = none := if_neg hh'.free
    refine hy.set rfl hh'.lt rfl fun g hg => ?_
    rw [hnone]
    by_cases hgf : g = f
    · subst hgf
      simp [setHandle, setFd]
    · simp [setHandle, setFd, hgf, Ne.symm hgf]

theorem OpenSpec.exact {path : OpenPath Obj} {flags : OpenFlags} {m : FileDesMode}
    {r : Int × YaffsTables Obj} (hy : Exact y) (hopen : OpenSpec y path flags m r) : Exact r.2 := by
  cases hopen with
  | invalid => exact hy.of_eq rfl rfl fun _ _ => rfl
  | noHandle => exact hy.of_eq rfl rfl fun _ _ => rfl
  | @noFd h hh hall =>
    have hnone : y.handleRef h = none := if_neg hh.free
    refine hy.set rfl hh.lt rfl fun g hg => ?_
    rw [hnone]
    simp [setHandle, setError]
  | @denied l h f e hpath hh hf hfree hdenied =>
    have hnone : y.handleRef h = none := if_neg hh.free
    refine hy.set rfl hh.lt rfl fun g hg => ?_
    rw [hnone]
    by_cases hgf : g = f
    · subst hgf
      simp [dropped, setError, hy.free hf hfree]
    · simp [dropped, setError, hgf]
  | @opened l h f i obj hpath hh hf hfree hobj hslot =>
    have hnone : y.handleRef h = none := if_neg hh.free
    refine hy.set rfl hh.lt rfl fun g hg => ?_
    rw [hnone]
    by_cases hgf : g = f
    · subst hgf
      simp [YaffsTables.opened, hy.free hf hfree]
    · simp [YaffsTables.opened, hgf, Ne.symm hgf]

theorem CloseSpec.exact {flush : Obj → GutsCall Obj} {h : Int} {r : Int × YaffsTables Obj}
    (hy : Exact y) (hclose : CloseSpec flush y h r) : Exact r.2 := by
  cases hclose with
  | refused => exact hy.of_eq rfl rfl fun _ _ => rfl
  | @closed obj y' hobj hput =>
    have hcall : Exact (y.call (flush obj)) := hy.of_eq rfl rfl fun _ _ => rfl
    exact hput.exact hcall

omit [DecidableEq Obj] in
theorem getHandle_exact {h : Int} (hy : Exact y) (hne : h ≠ y.nHandles) : Exact (y.getHandle h) := by
  unfold getHandle
  cases hpointer : y.handleToPointer h with
  | none => exact hy
  | some p =>
    dsimp only
    split
    swap
    · exact hy
    rename_i huse
    simp only [YaffsFiles.handleToPointer] at hpointer
    split at hpointer
    swap
    · cases hpointer
    rename_i hrange
    cases hpointer
    have hk : h.toNat < y.nHandles := by omega
    refine hy.set rfl hk rfl fun f hf => ?_
    have hstays : 0 < (y.handle h.toNat).useCount + 1 := by omega
    rw [handleRef_of_used huse]
    simp only [hstays, true_and, Option.some.injEq]
    rfl

/-- No error of an open that has its handle is `ENFILE`. -/
theorem objectToOpen_ne_ENFILE {l : Lookup Obj} {flags : OpenFlags} {m : FileDesMode} :
    y.objectToOpen l flags m ≠ .error .ENFILE := by
  have hdenied : ∀ o, y.openDenied o flags m ≠ some .ENFILE := by
    intro o
    unfold openDenied
    repeat' split
    all_goals simp
  unfold objectToOpen
  split
  · split
    · rename_i e he
      intro h
      rw [Except.error.injEq] at h
      exact hdenied _ (h ▸ he)
    · simp
  · repeat' split
    all_goals simp

/-- `ENFILE` comes out of an open when it finds no handle or no descriptor. -/
theorem OpenSpec.enfile_iff {l : Lookup Obj} {flags : OpenFlags} {m : FileDesMode}
    {r : Int × YaffsTables Obj} (hy : Exact y) (hopen : OpenSpec y (.path l) flags m r) :
    (r.1 = -1 ∧ r.2.error = some .ENFILE) ↔ ∀ h < y.nHandles, 0 < (y.handle h).useCount := by
  cases hopen with
  | invalid hpath => exact absurd rfl (hpath l)
  | noHandle hall => exact ⟨fun _ => hall, fun _ => ⟨rfl, rfl⟩⟩
  | noFd hh hall =>
    -- a free handle has a free descriptor
    obtain ⟨f, hf, hfree⟩ := hy.exists_fd hh.lt hh.free
    exact absurd (hall f hf) hfree
  | @denied l' h f e hpath hh hf hfree hdenied =>
    have hne : e ≠ .ENFILE := by
      rintro rfl
      exact objectToOpen_ne_ENFILE hdenied
    constructor
    · rintro ⟨-, herror⟩
      exact absurd (Option.some.inj herror) hne
    · intro hall
      exact absurd (hall h hh.lt) hh.free
  | @opened l' h f i obj hpath hh hf hfree hobj hslot =>
    constructor
    · rintro ⟨hr, -⟩
      have hnonneg := Int.natCast_nonneg h
      change (h : Int) = -1 at hr
      omega
    · intro hall
      exact absurd (hall h hh.lt) hh.free

end YaffsTables

namespace YaffsState

open YaffsTables

variable {Obj : Type} [DecidableEq Obj] {s s' s₀ : YaffsState Obj} {e : FileEvent Obj}

/-- A forced unmount finds nothing open on its device. -/
def NotForced (s : YaffsState Obj) : FileEvent Obj → Prop
  | .unmount dev force => force = true → s.tables.isDevBusy dev = false
  | _ => True

instance (s : YaffsState Obj) (e : FileEvent Obj) : Decidable (s.NotForced e) :=
  match e with
  | .unmount dev force =>
    inferInstanceAs (Decidable (force = true → s.tables.isDevBusy dev = false))
  | .openSharing .. | .dup _ | .close _ | .abortClose _ | .enterIo _ | .leaveIo _ | .unlink _
  | .mount => inferInstanceAs (Decidable True)

theorem StepSpec.exact (hs : Exact s.tables) (hin : s.InTable e) (hforce : s.NotForced e)
    (hspec : s.StepSpec e s') : Exact s'.tables := by
  cases hspec with
  | openSharing hopen => exact hopen.exact hs
  | dup hdup => exact hdup.exact hs
  | close hclose => exact hclose.exact hs
  | abortClose hclose => exact hclose.exact hs
  | enterIo hobj => exact getHandle_exact hs hin
  | leaveIo hmem hput => exact hput.exact hs
  | unlink => exact hs.of_eq rfl rfl fun _ _ => rfl
  | mount => exact initHandles_allClosed.exact
  | @unmount dev force r hunmount =>
    unfold yaffsUnmount2 at hunmount
    split at hunmount
    · rename_i hbusy
      split at hunmount
      · rename_i hforced
        have hidle : s.tables.isDevBusy dev = false := hforce hforced
        rw [hidle] at hbusy
        cases hbusy
      · cases hunmount
        exact hs.of_eq rfl rfl fun _ _ => rfl
    · cases hunmount
      exact hs

/-- **When there are too many open files**. In every run without a forced unmount of a busy device,
    an open of a valid path fails with `ENFILE` exactly when all handles are in use. -/
theorem enfile_iff_of_run (hs₀ : AllClosed s₀.tables)
    (hs : ReachableUnder s₀ step (fun s e => s.InTable e ∧ s.NotForced e) s) (l : Lookup Obj)
    (flags : OpenFlags) (shareRead shareWrite : Bool) :
    ∃ r, s.tables.yaffsOpenSharing (.path l) flags shareRead shareWrite = some r ∧
      ((r.1 = -1 ∧ r.2.error = some .ENFILE) ↔
        ∀ h < s.tables.nHandles, 0 < (s.tables.handle h).useCount) := by
  obtain ⟨hcounted, hexact⟩ := invariant_of_run (P := fun s => Exact s.tables) hs₀ hs₀.exact
    (fun s e s' _ hexact hin hforce hspec => hspec.exact hexact hin hforce) hs
  obtain ⟨r, hr, hspec⟩ := yaffsOpenSharing_spec hcounted.1 (.path l) flags shareRead shareWrite
  exact ⟨r, hr, hspec.enfile_iff hexact⟩

/-- Two handles of one descriptor are all there are. -/
theorem enfile_iff_of_run_dup : ∃ s : YaffsState Nat,
    (ReachableUnder (noFiles 2) step (fun s e => s.InTable e ∧ s.NotForced e) s ∧
      (∀ h < s.tables.nHandles, 0 < (s.tables.handle h).useCount)) ∧
    ∃ r, s.tables.yaffsOpenSharing
        (.path ⟨some ⟨8, .file, true, true, false⟩, some false, false, false, none⟩)
        ⟨.rdonly, false, false, false, false⟩ true true = some r ∧
      ((r.1 = -1 ∧ r.2.error = some .ENFILE) ↔
        ∀ h < s.tables.nHandles, 0 < (s.tables.handle h).useCount) := by
  obtain ⟨s, hs, hall⟩ := exists_of_runUnder (noFiles 2) step
    (fun s e => s.InTable e ∧ s.NotForced e)
    (fun s => ∀ h < s.tables.nHandles, 0 < (s.tables.handle h).useCount)
    [openFile 7 ⟨.rdwr, false, false, false, false⟩ true true, .dup 0] (by decide)
  exact ⟨s, ⟨hs, hall⟩, enfile_iff_of_run (noFiles_allClosed 2) hs _ _ _ _⟩

end YaffsState

/-! ## The handles of the server -/

/-- What the server calls: `tr_file_open_without_mode`, `tr_yaffs_close`, `tr_yaffs_close_abort`. -/
inductive HandleCall (Obj : Type) where
  | openFile (txnid : Int) (path : OpenPath Obj) (flags : OpenFlags)
  | close (h : Int)
  | abortClose (h : Int)

/-- The server beside the tables. -/
structure HandlePool (Obj : Type) where
  server : Server
  tables : YaffsTables Obj

namespace HandlePool

open YaffsTables

variable {Obj : Type} [DecidableEq Obj] {p p' p₀ : HandlePool Obj} {c : HandleCall Obj}
  {y y' : YaffsTables Obj} {s : Server} {h k : Nat}

/-- The call on the tables. -/
def callTables (y : YaffsTables Obj) : HandleCall Obj → Option (Int × YaffsTables Obj)
  | .openFile _ path flags => y.yaffsOpen path flags
  | .close h => y.yaffsClose h
  | .abortClose h => y.yaffsAbortClose h

/-- The path leads to a file that may be opened. -/
def opensFile (y : YaffsTables Obj) : OpenPath Obj → OpenFlags → Bool
  | .path l, flags => (y.objectToOpen l flags (requestedMode flags true true)).isOk
  | _, _ => false

/-- The call on the server's list of handles. -/
def callServer (s : Server) (y : YaffsTables Obj) : HandleCall Obj → Int × Server
  | .openFile txnid path flags =>
    let (s, fd) := s.trFileOpen txnid (opensFile y path flags)
    (fd, s)
  | .close h | .abortClose h =>
    (if 0 ≤ h ∧ (s.handles[h.toNat]?.join).isSome then 0 else -1, s.closeHandle h)

/-- Both in lockstep. -/
def step (p : HandlePool Obj) (c : HandleCall Obj) : Option (HandlePool Obj) :=
  (callTables p.tables c).map fun r => ⟨(callServer p.server p.tables c).2, r.2⟩

/-- The call names no handle that the bound of `yaffsfs_HandleToPointer` lets through by one. -/
def InTable (p : HandlePool Obj) : HandleCall Obj → Prop
  | .close h | .abortClose h => h ≠ p.tables.nHandles
  | _ => True

instance (p : HandlePool Obj) (c : HandleCall Obj) : Decidable (p.InTable c) :=
  match c with
  | .close h | .abortClose h => inferInstanceAs (Decidable (h ≠ p.tables.nHandles))
  | .openFile .. => inferInstanceAs (Decidable True)

/-- The list has an owner for each handle in use. -/
structure Pooled (handles : List (Option Int)) (y : YaffsTables Obj) : Prop where
  length : handles.length = y.nHandles
  free : ∀ k < y.nHandles, handles[k]? = some none ↔ ¬ 0 < (y.handle k).useCount
  once : ∀ k < y.nHandles, 0 < (y.handle k).useCount → (y.handle k).useCount = 1
  exact : Exact y

omit [DecidableEq Obj] in
theorem Pooled.isNone {handles : List (Option Int)} (hp : Pooled handles y)
    (hk : k < handles.length) : handles[k].isNone ↔ ¬ 0 < (y.handle k).useCount := by
  rw [← hp.free k (hp.length ▸ hk), List.getElem?_eq_getElem hk, Option.some.injEq,
    Option.isNone_iff_eq_none]

omit [DecidableEq Obj] in
/-- The first free handle is the first entry without an owner. -/
theorem Pooled.findIdx?_of_firstFree {handles : List (Option Int)} (hp : Pooled handles y)
    (hh : y.FirstFree h) : handles.findIdx? Option.isNone = some h := by
  have hlt : h < handles.length := hp.length ▸ hh.lt
  rw [List.findIdx?_eq_some_iff_getElem]
  refine ⟨hlt, (hp.isNone hlt).mpr hh.free, fun j hj => ?_⟩
  rw [hp.isNone (Nat.lt_trans hj hlt)]
  exact not_not.mpr (hh.first j hj)

omit [DecidableEq Obj] in
theorem Pooled.findIdx?_of_all {handles : List (Option Int)} (hp : Pooled handles y)
    (hall : ∀ h < y.nHandles, 0 < (y.handle h).useCount) : handles.findIdx? Option.isNone = none := by
  rw [List.findIdx?_eq_none_iff]
  intro o ho
  obtain ⟨k, hk, rfl⟩ := List.getElem_of_mem ho
  rw [Bool.eq_false_iff]
  intro hnone
  exact (hp.isNone hk).mp hnone (hall k (hp.length ▸ hk))

omit [DecidableEq Obj] in
/-- One handle and its entry change. -/
theorem Pooled.set {handles : List (Option Int)} (hp : Pooled handles y) {o : Option Int}
    (hn : y'.nHandles = y.nHandles) (hk : k < y.nHandles)
    (hhandle : ∀ j, j ≠ k → y'.handle j = y.handle j)
    (hfree : o = none ↔ ¬ 0 < (y'.handle k).useCount)
    (honce : 0 < (y'.handle k).useCount → (y'.handle k).useCount = 1) (hexact : Exact y') :
    Pooled (handles.set k o) y' := by
  refine ⟨?_, fun j hj => ?_, fun j hj hused => ?_, hexact⟩
  · rw [List.length_set, hn, hp.length]
  · by_cases hjk : j = k
    · subst hjk
      rw [List.getElem?_set_self (hp.length ▸ hk), Option.some.injEq]
      exact hfree
    · rw [List.getElem?_set_ne (Ne.symm hjk), hhandle j hjk]
      exact hp.free j (hn ▸ hj)
  · by_cases hjk : j = k
    · subst hjk
      exact honce hused
    · rw [hhandle j hjk] at hused ⊢
      exact hp.once j (hn ▸ hj) hused

omit [DecidableEq Obj] in
/-- A handle that was free is free again. -/
theorem Pooled.refused {handles : List (Option Int)} (hp : Pooled handles y)
    (hn : y'.nHandles = y.nHandles)
    (hhandle : ∀ j < y.nHandles, y'.handle j = y.handle j ∨
      ¬ 0 < (y.handle j).useCount ∧ ¬ 0 < (y'.handle j).useCount)
    (hexact : Exact y') : Pooled handles y' := by
  refine ⟨hp.length.trans hn.symm, fun j hj => ?_, fun j hj hused => ?_, hexact⟩
  · rw [hn] at hj
    rw [hp.free j hj]
    rcases hhandle j hj with hsame | ⟨hfree, hfree'⟩
    · rw [hsame]
    · exact ⟨fun _ => hfree', fun _ => hfree⟩
  · rw [hn] at hj
    rcases hhandle j hj with hsame | ⟨-, hfree'⟩
    · rw [hsame] at hused ⊢
      exact hp.once j hj hused
    · exact absurd hused hfree'

/-- **An open takes the same handle on both sides**. -/
theorem Pooled.openFile (txnid : Int) {path : OpenPath Obj} {flags : OpenFlags}
    {r : Int × YaffsTables Obj} (hp : Pooled s.handles y)
    (hopen : OpenSpec y path flags (requestedMode flags true true) r) :
    (s.trFileOpen txnid (opensFile y path flags)).2 = r.1 ∧
      Pooled (s.trFileOpen txnid (opensFile y path flags)).1.handles r.2 := by
  have hexact := hopen.exact hp.exact
  have hnot : ∀ found, found = false → s.trFileOpen txnid found = (s, -1) := by
    rintro found rfl
    rfl
  cases hopen with
  | invalid hpath =>
    have hfound : opensFile y path flags = false := by
      cases path with
      | path l => exact absurd rfl (hpath l)
      | null => rfl
      | tooLong => rfl
    rw [hnot _ hfound]
    exact ⟨rfl, hp.refused rfl (fun j _ => .inl rfl) hexact⟩
  | noHandle hall =>
    have hnone := hp.findIdx?_of_all hall
    have hopen : s.trFileOpen txnid (opensFile y path flags) = (s, -1) := by
      unfold Server.trFileOpen
      rw [hnone]
      cases opensFile y path flags with
      | true => rfl
      | false => rfl
    rw [hopen]
    exact ⟨rfl, hp.refused rfl (fun j _ => .inl rfl) hexact⟩
  | noFd hh hall =>
    obtain ⟨f, hf, hfree⟩ := hp.exact.exists_fd hh.lt hh.free
    exact absurd (hall f hf) hfree
  | @denied l h f e hpath hh hf hfree hdenied =>
    subst hpath
    have hfound : opensFile y (.path l) flags = false := by
      simp only [opensFile, hdenied]
      rfl
    rw [hnot _ hfound]
    refine ⟨rfl, hp.refused rfl (fun j _ => ?_) hexact⟩
    by_cases hjh : j = h
    · subst hjh
      refine .inr ⟨hh.free, ?_⟩
      simp [dropped, setError]
    · exact .inl (Function.update_of_ne hjh ..)
  | @opened l h f i obj hpath hh hf hfree hobj hslot =>
    subst hpath
    have hfound : opensFile y (.path l) flags = true := by
      simp only [opensFile, hobj]
      rfl
    have hopen : s.trFileOpen txnid (opensFile y (.path l) flags) =
        ({ s with handles := s.handles.set h (some txnid) }, (h : Int)) := by
      unfold Server.trFileOpen
      rw [hfound, hp.findIdx?_of_firstFree hh]
    rw [hopen]
    refine ⟨rfl, ?_⟩
    have hentry : (y.opened h f i obj flags (requestedMode flags true true)).handle h = ⟨f, 1⟩ :=
      Function.update_self ..
    refine hp.set rfl hh.lt (fun j hj => Function.update_of_ne hj ..) ?_ (fun _ => ?_) hexact
    · rw [hentry]
      simp
    · rw [hentry]

/-- **A close gives back the same handle on both sides**. -/
theorem Pooled.close {flush : Obj → GutsCall Obj} {h : Int} {r : Int × YaffsTables Obj}
    (hp : Pooled s.handles y) (hfds : FdsCounted y) (hhandles : HandlesCounted y)
    (hne : h ≠ y.nHandles) (hclose : CloseSpec flush y h r) :
    (if 0 ≤ h ∧ (s.handles[h.toNat]?.join).isSome then 0 else -1) = r.1 ∧
      Pooled (s.closeHandle h).handles r.2 := by
  have hexact := hclose.exact hp.exact
  cases hclose with
  | refused hnone =>
    -- no handle in use has the number `h`
    have hfree : ∀ k < y.nHandles, h = (k : Int) → ¬ 0 < (y.handle k).useCount := by
      rintro k hk rfl hused
      obtain ⟨f, i, obj, hleads⟩ := exists_leads hfds hhandles hk hused
      rw [hleads.handleToObject] at hnone
      cases hnone
    have hentry : ∀ k : Nat, h = (k : Int) → s.handles[k]?.join = none := by
      intro k hk
      by_cases hlt : k < y.nHandles
      · rw [(hp.free k hlt).mpr (hfree k hlt hk)]
        rfl
      · rw [List.getElem?_eq_none (by rw [hp.length]; omega)]
        rfl
    have hresult : ¬ (0 ≤ h ∧ (s.handles[h.toNat]?.join).isSome) := by
      rintro ⟨hnonneg, hsome⟩
      rw [hentry h.toNat (Int.toNat_of_nonneg hnonneg).symm] at hsome
      cases hsome
    refine ⟨if_neg hresult, ?_⟩
    have hpooled : Pooled s.handles (y.setError .EBADF) := hp.refused rfl (fun j _ => .inl rfl) hexact
    by_cases hnegative : h < 0
    · rw [Server.closeHandle, if_pos hnegative]
      exact hpooled
    rw [Server.closeHandle, if_neg hnegative]
    by_cases hlt : h.toNat < y.nHandles
    · refine hp.set rfl hlt (fun j _ => rfl) ?_ (fun hused => ?_) hexact
      · simp only [true_iff]
        exact hfree _ hlt (by omega)
      · exact absurd hused (hfree _ hlt (by omega))
    · have hlength : s.handles.length ≤ h.toNat := by
        rw [hp.length]
        omega
      show Pooled (s.handles.set h.toNat none) _
      rw [List.set_eq_of_length_le hlength]
      exact hpooled
  | @closed obj y' hobj hput =>
    obtain ⟨k, hk, rfl, hused, -⟩ := handleToObject_cases hne hobj
    have hone := hp.once k hk hused
    have howner : (s.handles[k]?.join).isSome := by
      have hlt : k < s.handles.length := hp.length ▸ hk
      rw [List.getElem?_eq_getElem hlt, Option.join_some]
      rw [Option.isSome_iff_ne_none]
      intro hnone
      have hentry : s.handles[k]? = some none := by
        rw [List.getElem?_eq_getElem hlt, hnone]
      exact (hp.free k hk).mp hentry hused
    have hresult : 0 ≤ (k : Int) ∧ (s.handles[(k : Int).toNat]?.join).isSome :=
      ⟨Int.natCast_nonneg k, howner⟩
    refine ⟨if_pos hresult, ?_⟩
    have hnegative : ¬ (k : Int) < 0 := by omega
    rw [Server.closeHandle, if_neg hnegative]
    have hcount := hput.useCount (k := k) hk
    have hused' : (k : Int) = k ∧ 0 < ((y.call (flush obj)).handle k).useCount := ⟨rfl, hused⟩
    rw [if_pos hused'] at hcount
    have hfree : ¬ 0 < (y'.handle k).useCount := by
      change _ = (y.handle k).useCount - 1 at hcount
      omega
    refine hp.set hput.keeps.nHandles hk (fun j hj => ?_) ?_ (fun hused'' => absurd hused'' hfree) hexact
    · exact hput.handle_of_ne hj
    · simp only [true_iff]
      exact hfree

/-- Both sides know the same handles. -/
def Agrees (p : HandlePool Obj) : Prop :=
  FdsCounted p.tables ∧ HandlesCounted p.tables ∧ Pooled p.server.handles p.tables

theorem call_agrees (hp : p.Agrees) (hin : p.InTable c) :
    ∃ r, callTables p.tables c = some r ∧ (callServer p.server p.tables c).1 = r.1 ∧
      Agrees ⟨(callServer p.server p.tables c).2, r.2⟩ := by
  obtain ⟨hfds, hhandles, hpooled⟩ := hp
  cases c with
  | openFile txnid path flags =>
    obtain ⟨r, hr, hspec⟩ := yaffsOpenSharing_spec hfds path flags true true
    obtain ⟨hresult, hpooled'⟩ := hpooled.openFile txnid hspec
    obtain ⟨hfds', hhandles'⟩ := hspec.counted hfds hhandles
    exact ⟨r, hr, hresult, hfds', hhandles', hpooled'⟩
  | close h =>
    obtain ⟨r, hr, hspec⟩ := closeBy_spec .flushFile hfds hhandles hin
    obtain ⟨hresult, hpooled'⟩ := hpooled.close hfds hhandles hin hspec
    obtain ⟨hfds', hhandles'⟩ := hspec.counted hfds hhandles
    exact ⟨r, hr, hresult, hfds', hhandles', hpooled'⟩
  | abortClose h =>
    obtain ⟨r, hr, hspec⟩ := closeBy_spec .flushFileAbort hfds hhandles hin
    obtain ⟨hresult, hpooled'⟩ := hpooled.close hfds hhandles hin hspec
    obtain ⟨hfds', hhandles'⟩ := hspec.counted hfds hhandles
    exact ⟨r, hr, hresult, hfds', hhandles', hpooled'⟩

omit [DecidableEq Obj] in
theorem agrees_of_closed {handles : List (Option Int)}
    (hy : AllClosed y) (hhandles : handles = List.replicate y.nHandles none) : Pooled handles y := by
  subst hhandles
  refine ⟨List.length_replicate, fun k hk => ?_, fun k hk hused => ?_, hy.exact⟩
  · rw [List.getElem?_replicate, if_pos hk, hy.handle k hk]
    simp
  · rw [hy.handle k hk] at hused
    cases hused

/-- **The server's handles are those of YAFFS**. In every sequence of opens and closes, with
    whatever paths and handles, YAFFS returns what the server's list of handles says, and the
    list has an owner exactly for the handles in use. -/
theorem pool_of_run (hs₀ : AllClosed p₀.tables)
    (hhandles₀ : p₀.server.handles = List.replicate p₀.tables.nHandles none)
    (hp : ReachableUnder p₀ step InTable p) :
    (∀ k < p.tables.nHandles,
      p.server.handles[k]? = some none ↔ ¬ 0 < (p.tables.handle k).useCount) ∧
    ∀ c, p.InTable c → ∃ r, callTables p.tables c = some r ∧
      r.1 = (callServer p.server p.tables c).1 := by
  have hinit : p₀.Agrees := ⟨hs₀.counted.1, hs₀.counted.2, agrees_of_closed hs₀ hhandles₀⟩
  have hagrees : p.Agrees := by
    refine hp.invariant (P := Agrees) hinit fun p c p' _ hp hin hstep => ?_
    obtain ⟨r, hr, -, hagrees⟩ := call_agrees hp hin
    rw [step, hr, Option.map_some, Option.some.injEq] at hstep
    exact hstep ▸ hagrees
  refine ⟨hagrees.2.2.free, fun c hin => ?_⟩
  obtain ⟨r, hr, hresult, -⟩ := call_agrees hagrees hin
  exact ⟨r, hr, hresult.symm⟩

/-- A handle is closed and used again, and a third open finds none. -/
theorem pool_of_run_two_handles : ∃ p : HandlePool Nat,
    (ReachableUnder ⟨Server.globalInit 2, (YaffsState.noFiles 2).tables⟩ step InTable p ∧
      p.server.handles = [some 2, some 1] ∧ p.tables.error = some .ENFILE) ∧
    (∀ k < p.tables.nHandles,
      p.server.handles[k]? = some none ↔ ¬ 0 < (p.tables.handle k).useCount) ∧
    ∀ c, p.InTable c → ∃ r, callTables p.tables c = some r ∧
      r.1 = (callServer p.server p.tables c).1 := by
  obtain ⟨p, hp, hfinal⟩ := exists_of_runUnder
    (⟨Server.globalInit 2, (YaffsState.noFiles 2).tables⟩ : HandlePool Nat) step InTable
    (fun p => p.server.handles = [some 2, some 1] ∧ p.tables.error = some .ENFILE)
    [.openFile 1 (.path ⟨some ⟨7, .file, true, true, false⟩, some false, false, false, none⟩)
        ⟨.rdwr, false, false, false, false⟩,
      .openFile 1 (.path ⟨some ⟨8, .file, true, true, false⟩, some false, false, false, none⟩)
        ⟨.rdonly, false, false, false, false⟩,
      .close 0,
      .openFile 2 (.path ⟨some ⟨8, .file, true, true, false⟩, some false, false, false, none⟩)
        ⟨.rdonly, false, false, false, false⟩,
      .openFile 3 (.path ⟨some ⟨7, .file, true, true, false⟩, some false, false, false, none⟩)
        ⟨.rdwr, false, false, false, false⟩] (by decide)
  exact ⟨p, ⟨hp, hfinal⟩, pool_of_run (YaffsState.noFiles_allClosed 2) rfl hp⟩

end HandlePool

end TxFS
