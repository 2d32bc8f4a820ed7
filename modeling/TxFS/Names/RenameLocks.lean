import TxFS.Backup.Traversal
import TxFS.Lib.PathNames
import TxFS.Locks.Rerequest
import TxFS.Locks.Steps

/-!
# The Locks of a Rename

`on_rename` locks the parent directories and the moved file in exclusive mode, and for a
directory "recursively lock its children in read mode". By then `dirname` has cut the buffer
`oldpath`, so the traversal starts at the parent, and `lock_subtree` calls `stat` on the path
it was given, not on the entry it visits. It asks for the lock of the parent once for every
entry and for nothing else.

The requests are made in the server's step relation: between two of them, and while one of
them waits, the other threads go on.
-/

namespace TxFS

open PathNames GuardedRun

/-! ## The file system of the host -/

/-- The tree that `stat`, `access` and `fts_read` see, from the current directory on. -/
structure HostFs where
  tree : FileTree
  /-- `st_ino`. -/
  inode : FilePath → Int

namespace HostFs

/-- The names that a path follows. -/
def names (path : Path) : FilePath :=
  (dirNames path ++ [lastName path]).filter fun n => n ≠ [] ∧ n ≠ ['.']

/-- `st_ino` of `stat`. -/
def stat (fs : HostFs) (path : Path) : Int := fs.inode (names path)

/-- `access(path, F_OK) != -1`. -/
def access (fs : HostFs) (path : Path) : Bool := (fs.tree.lookup (names path)).isSome

/-- `S_ISDIR`: the entries of the directory, if it is one. -/
def entries (fs : HostFs) (path : Path) : Option (List (FileName × FileTree)) :=
  match fs.tree.lookup (names path) with
  | some (.node es) => some es
  | _ => none

/-- The text that `dirname` returns: without a slash it is `.`, and the buffer is not cut. -/
def parentOf (path : Path) : Path := if '/' ∈ path then dirname path else ['.']

/-! ## `lock_subtree` -/

mutual

/-- What `fts_read` returns for an entry: a directory comes before and behind its entries. -/
def ftsRead : FileTree → FilePath → List FilePath
  | .leaf, p => [p]
  | .node es, p => p :: ftsEntries es p ++ [p]

/-- The entries with `FTS_SKIP` on the names that start with a dot. -/
def ftsEntries : List (FileName × FileTree) → FilePath → List FilePath
  | [], _ => []
  | (n, t) :: es, p => (if isPushed n then ftsRead t (p ++ [n]) else []) ++ ftsEntries es p

end

/-- The lock requests of `lock_subtree`: one for every visited entry, on the inode of `path`. -/
def lockSubtree (fs : HostFs) (path : Path) : List LockRequest :=
  match fs.entries path with
  | some es => (ftsEntries es (names path)).map fun _ => ⟨fs.stat path, 0, .placeholder⟩
  | none => []

/-! ## `on_rename` -/

/-- The lock requests of `on_rename` in their order; none if it aborts because the file or the
    directory to move it to does not exist. -/
def onRename (fs : HostFs) (incall1 incall2 : Path) : Option (List LockRequest) :=
  -- `dirname` has cut the buffer
  let oldpath := dirname incall1
  let oldpathParent := parentOf incall1
  let newpathParent := parentOf incall2
  if fs.access incall1 ∧ fs.access newpathParent then
    some (⟨fs.stat oldpathParent, 2, .renameParent⟩ ::
      ((if oldpathParent ≠ newpathParent then [⟨fs.stat newpathParent, 2, .renameParent⟩] else []) ++
        ⟨fs.stat incall1, 2, .placeholder⟩ ::
          if (fs.entries incall1).isSome then fs.lockSubtree oldpath else []))
  else none

/-- The three directories that are locked exclusively. -/
def Moved (fs : HostFs) (incall1 incall2 : Path) (i : Int) : Prop :=
  i = fs.stat (parentOf incall1) ∨ i = fs.stat (parentOf incall2) ∨ i = fs.stat incall1

/-- The path of an entry below the moved directory with no dot in front of a name. -/
def Below (fs : HostFs) (incall1 : Path) (p : FilePath) : Prop :=
  p ≠ [] ∧ ∃ es, fs.entries incall1 = some es ∧ NamedTree.Shown isPushed (.node es) p

variable {fs : HostFs} {incall1 incall2 : Path} {reqs : List LockRequest} {req : LockRequest}

/-- `lock_subtree` asks for one inode only. -/
theorem inode_of_mem_lockSubtree {path : Path} (h : req ∈ fs.lockSubtree path) :
    req.inode = fs.stat path := by
  unfold lockSubtree at h
  split at h
  · obtain ⟨_, -, rfl⟩ := List.mem_map.mp h
    rfl
  · cases h

/-- **The requests of `on_rename`** are for the three directories. -/
theorem moved_of_mem_onRename (h : fs.onRename incall1 incall2 = some reqs) (hreq : req ∈ reqs) :
    fs.Moved incall1 incall2 req.inode := by
  have hsubtree : ∀ r, r ∈ fs.lockSubtree (dirname incall1) →
      fs.Moved incall1 incall2 r.inode := by
    intro r hr
    have hinode := inode_of_mem_lockSubtree hr
    by_cases hslash : '/' ∈ incall1
    · exact .inl (by rw [hinode, parentOf, if_pos hslash])
    · -- without a slash the buffer is left as it is
      refine .inr (.inr ?_)
      rw [hinode, dirname_eq_self hslash]
  unfold onRename at h
  dsimp only at h
  split at h
  · cases h
    rcases List.mem_cons.mp hreq with rfl | hreq
    · exact .inl rfl
    rcases List.mem_append.mp hreq with hreq | hreq
    · split at hreq
      · rw [List.mem_singleton.mp hreq]
        exact .inr (.inl rfl)
      · cases hreq
    rcases List.mem_cons.mp hreq with rfl | hreq
    · exact .inr (.inr rfl)
    · split at hreq
      · exact hsubtree req hreq
      · cases hreq
  · cases h

/-- The exclusive requests come first, and there is one for each of the three directories. -/
theorem exists_front_onRename (h : fs.onRename incall1 incall2 = some reqs) :
    ∃ front back, reqs = front ++ back ∧ (∀ req ∈ front, req.flags = 2) ∧
      ∀ i, fs.Moved incall1 incall2 i → ∃ req ∈ front, req.inode = i := by
  unfold onRename at h
  dsimp only at h
  split at h
  · cases h
    refine ⟨⟨fs.stat (parentOf incall1), 2, .renameParent⟩ ::
      ((if parentOf incall1 ≠ parentOf incall2 then
        [⟨fs.stat (parentOf incall2), 2, .renameParent⟩] else []) ++
          [⟨fs.stat incall1, 2, .placeholder⟩]),
      if (fs.entries incall1).isSome then fs.lockSubtree (dirname incall1) else [],
      by simp, ?_, ?_⟩
    · intro req hreq
      split at hreq
      · simp only [List.cons_append, List.nil_append, List.mem_cons, List.not_mem_nil,
          or_false] at hreq
        rcases hreq with rfl | rfl | rfl <;> rfl
      · simp only [List.nil_append, List.mem_cons, List.not_mem_nil, or_false] at hreq
        rcases hreq with rfl | rfl <;> rfl
    · rintro i (rfl | rfl | rfl)
      · exact ⟨_, List.mem_cons_self .., rfl⟩
      · by_cases hsame : parentOf incall1 = parentOf incall2
        · exact ⟨_, List.mem_cons_self .., congrArg fs.stat hsame⟩
        · exact ⟨⟨fs.stat (parentOf incall2), 2, .renameParent⟩, by simp [hsame], rfl⟩
      · exact ⟨⟨fs.stat incall1, 2, .placeholder⟩, by simp, rfl⟩
  · cases h

end HostFs

/-- `file_mode` of a record that the request makes. -/
def LockRequest.mode (req : LockRequest) : Int := if req.flags = 0 then 0 else 1

namespace Server

variable {s s' s₁ : Server} {t i m readBit : Int} {req cur : LockRequest} {reqs : List LockRequest}
  {e : Event}

/-! ## Locks of a transaction -/

/-- The transaction has a record of the inode in the mode. -/
def OwnsMode (s : Server) (t i m : Int) : Prop :=
  ∃ a ∈ s.table.allocated, (s.cell a).parentTxn = t ∧ (s.cell a).fileInode = i ∧
    (s.cell a).fileMode = m

/-- A step that does not release the records of the transaction keeps them. -/
theorem OwnsMode.step (h : s.OwnsMode t i m) (hs : Owned s.table s.headTxnList)
    (hrel : ¬ e.Releases t) (hstep : s.step e = some s') : s'.OwnsMode t i m := by
  obtain ⟨a, ha, hat, hai, ham⟩ := h
  have hframe := step_frame hs hstep
  have ha' := hframe.kept a ha (hat ▸ hrel)
  obtain ⟨hinode, hmode, hparent⟩ := hframe.fields a ha ha'
  exact ⟨a, ha', hparent.trans hat, hinode.trans hai, hmode.trans ham⟩

/-- **A new record** is one that the transaction has asked for. -/
theorem ownsMode_of_step (h : s'.OwnsMode t i m) (hs : Owned s.table s.headTxnList)
    (hstep : s.step e = some s') : s.OwnsMode t i m ∨
      ∃ req readBit, s.requestOf e = some (t, req, readBit) ∧ i = req.inode ∧ m = req.mode := by
  obtain ⟨a, ha, hat, hai, ham⟩ := h
  have hframe := step_frame hs hstep
  by_cases hold : a ∈ s.table.allocated
  · obtain ⟨hinode, hmode, hparent⟩ := hframe.fields a hold ha
    exact .inl ⟨a, hold, hparent.symm.trans hat, hinode.symm.trans hai, hmode.symm.trans ham⟩
  · obtain ⟨u, req, readBit, hnew⟩ := hframe.fresh a ha hold
    have hu : u = t := hnew.parent.symm.trans hat
    subst hu
    exact .inr ⟨req, readBit, hnew.request, hai.symm.trans hnew.inode, ham.symm.trans hnew.mode⟩

/-- A lock is a record in one of the two modes. -/
theorem Consistent.ownsLock_iff (h : Consistent s) :
    s.OwnsLock t i ↔ s.OwnsMode t i 0 ∨ s.OwnsMode t i 1 := by
  obtain ⟨xs, hxs⟩ := h.linked
  constructor
  · rintro ⟨a, ha, hat, hai⟩
    rcases hxs.mode a (hxs.mem_iff.mpr ha) with hmode | hmode
    · exact .inl ⟨a, ha, hat, hai, hmode⟩
    · exact .inr ⟨a, ha, hat, hai, hmode⟩
  · rintro (⟨a, ha, hat, hai, -⟩ | ⟨a, ha, hat, hai, -⟩)
    · exact ⟨a, ha, hat, hai⟩
    · exact ⟨a, ha, hat, hai⟩

/-- Nobody has a file in both modes. -/
theorem Consistent.not_ownsMode_both (h : Consistent s) (hshared : s.OwnsMode t i 0)
    (hexclusive : s.OwnsMode t i 1) : False := by
  obtain ⟨a, ha, -, hai, ham⟩ := hshared
  obtain ⟨b, hb, -, hbi, hbm⟩ := hexclusive
  cases h.exclusive_alone hb ha hbm (hai.trans hbi.symm)
  rw [ham] at hbm
  cases hbm

/-! ## Requests in a row -/

/-- The transaction makes the requests one after the other. In between the other threads go
    on, and the transaction itself waits and repeats its request. -/
inductive Requests (t : Int) : Server → List LockRequest → Server → Prop where
  | nil {s : Server} : Requests t s [] s
  /-- The next request. -/
  | lock {s s₁ s' : Server} {req : LockRequest} {reqs : List LockRequest} {readBit : Int}
      (hstep : s.step (.lock t req readBit) = some s₁) (h : Requests t s₁ reqs s') :
      Requests t s (req :: reqs) s'
  /-- Another thread, or the transaction in `insert_file_list`. -/
  | other {s s₁ s' : Server} {reqs : List LockRequest} {e : Event}
      (he : e.actor ≠ some t ∨ e = .wake t ∨ ∃ readBit, e = .resume t readBit)
      (hok : s.CleanRelease e) (hstep : s.step e = some s₁) (h : Requests t s₁ reqs s') :
      Requests t s reqs s'

theorem cleanRelease_lock : s.CleanRelease (.lock t req readBit) := trivial

theorem not_releases_lock {x : Int} : ¬ (Event.lock t req readBit).Releases x := fun h => h

/-- The events of such a run release nothing of the transaction. -/
theorem not_releases_of_other
    (he : e.actor ≠ some t ∨ e = .wake t ∨ ∃ readBit, e = .resume t readBit) : ¬ e.Releases t := by
  intro hrel
  rcases he with he | rfl | ⟨_, rfl⟩
  · exact he hrel.actor
  · exact hrel
  · exact hrel

theorem Requests.consistent (h : Requests t s reqs s') (hs : Consistent s) : Consistent s' := by
  induction h with
  | nil => exact hs
  | lock hstep h ih => exact ih (consistent_step hs cleanRelease_lock hstep)
  | other he hok hstep h ih => exact ih (consistent_step hs hok hstep)

/-- The locks of the transaction stay. -/
theorem Requests.keeps (h : Requests t s reqs s') (hs : Consistent s) (hown : s.OwnsMode t i m) :
    s'.OwnsMode t i m := by
  induction h with
  | nil => exact hown
  | lock hstep h ih =>
    exact ih (consistent_step hs cleanRelease_lock hstep) (hown.step hs.owned not_releases_lock hstep)
  | other he hok hstep h ih =>
    exact ih (consistent_step hs hok hstep)
      (hown.step hs.owned (not_releases_of_other he) hstep)

/-- Where the transaction stands in its row of requests: at the beginning it runs, and behind
    its first one it has the record or waits. -/
def Serves (s : Server) (t : Int) (cur : Option LockRequest) : Prop :=
  cur.elim (s.thread t = .running) (s.Answered t)

theorem Serves.other {cur : Option LockRequest} (h : s.Serves t cur) (hs : Consistent s)
    (he : e.actor ≠ some t ∨ e = .wake t ∨ ∃ readBit, e = .resume t readBit)
    (hstep : s.step e = some s₁) : s₁.Serves t cur := by
  have hframe := step_frame hs.owned hstep
  rcases he with he | rfl | ⟨readBit, rfl⟩
  · -- another thread
    have hthread := step_thread hs.owned hstep he
    cases cur with
    | none =>
      have hrun : s.thread t = .running := h
      rw [hrun] at hthread
      show s₁.thread t = .running
      cases hst : s₁.thread t <;> rw [hst] at hthread <;> first | rfl | cases hthread
    | some req =>
      refine Answered.frame h hthread ?_
      intro a ha hat
      have ha' := hframe.kept a ha fun hrel => he (hat ▸ hrel.actor)
      obtain ⟨hinode, -, hparent⟩ := hframe.fields a ha ha'
      exact ⟨ha', hparent.trans hat, hinode⟩
  · cases step_spec hstep with
    | wake hthread hwake =>
      cases cur with
      | none =>
        have hrun : s.thread t = .running := h
        rw [hrun] at hthread
        cases hthread
      | some req => exact afterCondWait_answered hthread hwake h
  · cases step_spec hstep with
    | @resume _ _ p _ hthread hlock =>
      cases cur with
      | none =>
        have hrun : s.thread t = .running := h
        rw [hrun] at hthread
        cases hthread
      | some req =>
        have hreq : p.req = req := by
          have hans : s.Answered t req := h
          unfold Answered at hans
          rwa [hthread] at hans
        exact hreq ▸ requestLock_answered hs hlock

theorem Serves.lock (hs : Consistent s) (hstep : s.step (.lock t req readBit) = some s₁) :
    s₁.Serves t (some req) := by
  cases step_spec hstep with
  | lock hthread hlock => exact requestLock_answered hs hlock

/-- The transaction has the record that its last request was for. -/
theorem Serves.ownsLock (h : s.Serves t (some req)) (hrun : s.thread t = .running) :
    s.OwnsLock t req.inode := by
  have hans : s.Answered t req := h
  unfold Answered at hans
  rwa [hrun] at hans

/-- **Every request gets a lock**, if the transaction goes on behind the last one. -/
theorem Requests.ownsLock {cur : Option LockRequest} (h : Requests t s reqs s')
    (hs : Consistent s) (hcur : s.Serves t cur) (hrun : s'.thread t = .running) :
    ∀ req ∈ cur.toList ++ reqs, s'.OwnsLock t req.inode := by
  induction h generalizing cur with
  | nil =>
    intro req hreq
    cases cur with
    | none => cases hreq
    | some req' =>
      simp only [Option.toList_some, List.append_nil, List.mem_singleton] at hreq
      subst hreq
      exact hcur.ownsLock hrun
  | @lock s s₁ s' next reqs readBit hstep h ih =>
    have hrun₁ : s.thread t = .running := by
      cases step_spec hstep with
      | lock hthread _ => exact hthread
    have hs₁ := consistent_step hs cleanRelease_lock hstep
    intro req hreq
    rcases List.mem_append.mp hreq with hreq | hreq
    · -- the request before has its lock, and keeps it
      cases cur with
      | none => cases hreq
      | some req' =>
        simp only [Option.toList_some, List.mem_singleton] at hreq
        subst hreq
        have hall := Requests.lock hstep h
        rw [(hall.consistent hs).ownsLock_iff]
        exact (hs.ownsLock_iff.mp (hcur.ownsLock hrun₁)).imp (hall.keeps hs) (hall.keeps hs)
    · exact ih hs₁ (Serves.lock hs hstep) hrun req (by simpa using hreq)
  | other he hok hstep h ih =>
    exact ih (consistent_step hs hok hstep) (hcur.other hs he hstep) hrun

/-- **Only the requests add locks**. -/
theorem Requests.ownsMode {cur : Option LockRequest} (h : Requests t s reqs s')
    (hs : Consistent s) (hcur : s.Serves t cur) (hown : s'.OwnsMode t i m) :
    s.OwnsMode t i m ∨ ∃ req ∈ cur.toList ++ reqs, i = req.inode ∧ m = req.mode := by
  induction h generalizing cur with
  | nil => exact .inl hown
  | @lock s s₁ s' next reqs readBit hstep h ih =>
    rcases ih (consistent_step hs cleanRelease_lock hstep) (Serves.lock hs hstep) hown with
      hown₁ | ⟨req, hreq, hfields⟩
    · rcases ownsMode_of_step hown₁ hs.owned hstep with hown₀ | ⟨req, b, hreq, hfields⟩
      · exact .inl hown₀
      · simp only [requestOf, Option.some.injEq, Prod.mk.injEq] at hreq
        obtain ⟨-, rfl, -⟩ := hreq
        exact .inr ⟨next, by simp, hfields⟩
    · exact .inr ⟨req, List.mem_append_right _ (by simpa using hreq), hfields⟩
  | @other s s₁ s' reqs e he hok hstep h ih =>
    rcases ih (consistent_step hs hok hstep) (hcur.other hs he hstep) hown with
      hown₁ | hnew
    · rcases ownsMode_of_step hown₁ hs.owned hstep with hown₀ | ⟨req, b, hreq, hfields⟩
      · exact .inl hown₀
      · -- of the other steps only the repetition of the last request adds a record
        rcases he with he | rfl | ⟨readBit, rfl⟩
        · exact absurd (requestOf_actor hreq) he
        · cases hreq
        · simp only [requestOf] at hreq
          split at hreq
          · rename_i p hthread
            simp only [Option.some.injEq, Prod.mk.injEq] at hreq
            obtain ⟨-, rfl, -⟩ := hreq
            cases cur with
            | none =>
              have hrun : s.thread t = .running := hcur
              rw [hrun] at hthread
              cases hthread
            | some req =>
              have hans : s.Answered t req := hcur
              unfold Answered at hans
              rw [hthread] at hans
              exact .inr ⟨req, by simp, hans ▸ hfields⟩
          · cases hreq
    · exact .inr hnew

/-- A row of requests in two parts: between them the transaction runs. -/
theorem Requests.split {front back : List LockRequest} (h : Requests t s (front ++ back) s')
    (hrun : s'.thread t = .running) :
    ∃ s₁, Requests t s front s₁ ∧ s₁.thread t = .running ∧ Requests t s₁ back s' := by
  generalize hreqs : front ++ back = reqs at h
  induction h generalizing front with
  | nil =>
    obtain ⟨rfl, rfl⟩ := List.append_eq_nil_iff.mp hreqs
    exact ⟨_, .nil, hrun, .nil⟩
  | @lock s s₁ s' next reqs readBit hstep h ih =>
    cases front with
    | nil =>
      have hrun₁ : s.thread t = .running := by
        cases step_spec hstep with
        | lock hthread _ => exact hthread
      rw [List.nil_append] at hreqs
      exact ⟨s, .nil, hrun₁, hreqs ▸ .lock hstep h⟩
    | cons req front =>
      obtain ⟨rfl, hrest⟩ := List.cons.inj hreqs
      obtain ⟨s₂, hfront, hrun₂, hback⟩ := ih hrun hrest
      exact ⟨s₂, .lock hstep hfront, hrun₂, hback⟩
  | other he hok hstep h ih =>
    obtain ⟨s₂, hfront, hrun₂, hback⟩ := ih hrun hreqs
    exact ⟨s₂, .other he hok hstep hfront, hrun₂, hback⟩

/-! ## The locks behind `on_rename` -/

/-- What a rename has to lock: the moved file and both parents exclusively, and everything
    below a moved directory. -/
structure LocksRenamed (s : Server) (fs : HostFs) (t : Int) (incall1 incall2 : Path) : Prop where
  moved : ∀ i, fs.Moved incall1 incall2 i → s.OwnsMode t i 1
  below : ∀ p, fs.Below incall1 p → s.OwnsLock t (fs.inode (HostFs.names incall1 ++ p))

/-- Requests that are all answered at once. -/
theorem requests_of_run
    (h : runUnder step CleanRelease s (reqs.map fun req => .lock t req 0) = some s') :
    Requests t s reqs s' := by
  induction reqs generalizing s with
  | nil =>
    cases h
    exact .nil
  | cons req reqs ih =>
    rw [List.map_cons, runUnder, if_pos cleanRelease_lock] at h
    obtain ⟨s₁, hstep, hrest⟩ := Option.bind_eq_some_iff.mp h
    exact .lock hstep (ih hrest)

instance (s : Server) (t i : Int) : Decidable (s.OwnsLock t i) :=
  inferInstanceAs (Decidable (∃ a ∈ s.table.allocated, _ ∧ _))

instance (s : Server) (t i m : Int) : Decidable (s.OwnsMode t i m) :=
  inferInstanceAs (Decidable (∃ a ∈ s.table.allocated, _ ∧ _ ∧ _))

/-- The directory `/d` with the directory `a`, in which there is the file `f`. -/
def oneFileBelow : HostFs where
  tree := .node [(['d'], .node [(['a'], .node [(['f'], .leaf)])])]
  inode := fun p => 2 + p.length

/-- The requests of `rename("/d/a", "/d/b")`: three times the directory `/d` for the traversal
    of its subtree. -/
theorem onRename_oneFileBelow : oneFileBelow.onRename ['/', 'd', '/', 'a'] ['/', 'd', '/', 'b'] =
    some [⟨3, 2, .renameParent⟩, ⟨4, 2, .placeholder⟩, ⟨3, 0, .placeholder⟩,
      ⟨3, 0, .placeholder⟩, ⟨3, 0, .placeholder⟩] := by decide

end Server

end TxFS
