import TxFS.Locks.Releases

/-!
# Isolation

The lock table stays well linked, and with it the exclusive locks stay exclusive, in every
run whose releases satisfy `CleanRelease`: a record that is freed while nobody waits for its
file has no shared links. The release functions do not look at these links in that case, so
a neighbour is left with a pointer to the freed record; the counterexample at the end shows
what this leads to.
-/

namespace TxFS

open LinkedPath GuardedRun

namespace Server

variable {s s' s₁ : Server} {t i : Int} {a : Addr} {acts : List Act}

/-! ## The invariant -/

/-- The lock table is well linked and every record has its owner. -/
structure Consistent (s : Server) : Prop where
  linked : ∃ xs, s.table.WellLinked xs
  owned : Owned s.table s.headTxnList

/-- Freeing the record when no transaction waits for its file leaves no link to it. -/
def UnlinksNothing (s : Server) (a : Addr) : Prop :=
  s.searchWaitList (s.cell a).fileInode = none →
    (s.cell a).nextSharedRec = none ∧ (s.cell a).prevSharedRec = none

/-- **The condition on releases**: every record that is freed while nobody waits for its
    file has no shared links. -/
def CleanRelease (s : Server) : Event → Prop
  | .commit t | .abort t =>
    ∀ a ∈ s.table.allocated, (s.cell a).parentTxn = t → s.UnlinksNothing a
  | .releaseByBackup i =>
    ∀ a ∈ s.table.allocated, (s.cell a).parentTxn = 0 → (s.cell a).fileInode = i →
      s.UnlinksNothing a
  | _ => True

instance (s : Server) (a : Addr) : Decidable (s.UnlinksNothing a) :=
  inferInstanceAs (Decidable (_ → _))

instance (s : Server) (e : Event) : Decidable (s.CleanRelease e) :=
  match e with
  | .commit t | .abort t => inferInstanceAs
    (Decidable (∀ a ∈ s.table.allocated, (s.cell a).parentTxn = t → s.UnlinksNothing a))
  | .releaseByBackup i => inferInstanceAs (Decidable (∀ a ∈ s.table.allocated,
      (s.cell a).parentTxn = 0 → (s.cell a).fileInode = i → s.UnlinksNothing a))
  | .begin _ | .lock .. | .resume .. | .wake _ | .leaveAsVictim _ | .call .. | .endBackup
  | .markVictim .. | .setBackup _ => inferInstanceAs (Decidable True)

/-- Nobody waits for the file of a record that shares it: what `UnlinksNothing` says about a
    well-linked table, in a form that deletions keep. -/
def AloneOrWaited (s : Server) (a : Addr) : Prop :=
  s.searchWaitList (s.cell a).fileInode = none →
    ∀ b ∈ s.table.allocated, s.table.inode b = s.table.inode a → b = a

theorem Consistent.aloneOrWaited (h : Consistent s) (ha : a ∈ s.table.allocated)
    (hclean : s.UnlinksNothing a) : s.AloneOrWaited a := by
  obtain ⟨xs, hxs⟩ := h.linked
  intro hwait b hb hsame
  exact (hxs.alone_iff (hxs.mem_iff.mpr ha)).mp (hclean hwait) b (hxs.mem_iff.mpr hb) hsame

/-! ## Requests -/

/-- The grant keeps what the insertion has established. -/
theorem GrantedIn.linked {readBit : Int} {table : LockTable} {xs : List Addr}
    (h : GrantedIn s t readBit table s') (hxs : table.WellLinked xs) : s'.table.WellLinked xs := by
  obtain ⟨table', _, _, _, rfl, -, halloc, hbrk, hhead, hcells⟩ := h.frame
  refine hxs.congr halloc hbrk hhead (fun b => ?_) fun b => ?_
  · obtain ⟨_, hb⟩ := hcells b
    simp [hb]
  · obtain ⟨_, hb⟩ := hcells b
    simp [hb]

theorem getFileNode_mode {f : Int} : (getFileNode i 0 f t).fileMode = 0 ∨
    (getFileNode i 0 f t).fileMode = 1 := by
  by_cases hf : f = 0
  · exact .inl (if_pos hf)
  · exact .inr (if_neg hf)

/-- **A request keeps the table consistent**, whatever its outcome. -/
theorem RequestSpec.consistent {fl readBit : Int} {found : Bool} {loc : Option Addr}
    {out : Outcome} (h : RequestSpec s i fl t readBit loc found s' out) (hs : Consistent s)
    (hsearch : s.table.searchFileList i = some (found, loc)) : Consistent s' := by
  obtain ⟨xs, hxs⟩ := hs.linked
  obtain ⟨found', loc', hsearch', hspec⟩ := hxs.searchFileList i
  rw [hsearch, Option.some.injEq, Prod.mk.injEq] at hsearch'
  obtain ⟨rfl, rfl⟩ := hsearch'
  have howned := h.owned hs.owned
  cases h with
  | held => exact hs
  | unlocked hadm hgrant =>
    refine ⟨?_, howned⟩
    cases hspec with
    | notFound hsplit hl hr =>
      subst hsplit
      exact ⟨_, hgrant.linked (hxs.insertUnlocked hl hr getFileNode_mode rfl rfl rfl)⟩
  | @shared l table _ hloc hown hmode hfl hadm htable hgrant =>
    refine ⟨?_, howned⟩
    cases hspec with
    | found hmem hinode =>
      simp only [Option.some.injEq] at hloc
      subst hloc
      have hshared := (hxs.mode _ hmem).resolve_right hmode
      obtain ⟨table', xs', htable', hxs'⟩ := hxs.insertShared (c := getFileNode i 0 fl t) hmem
        hinode.symm hshared (if_pos hfl) rfl
      rw [htable, Option.some.injEq] at htable'
      exact ⟨xs', hgrant.linked (htable' ▸ hxs')⟩
  | newNode => exact ⟨⟨xs, hxs⟩, howned⟩
  | oldNode => exact ⟨⟨xs, hxs⟩, howned⟩
  | refused hs' hout =>
    obtain ⟨_, _, _, rfl, -⟩ := hs'
    exact ⟨⟨xs, hxs⟩, howned⟩

/-- Changes of descriptors and of threads keep the table consistent. -/
theorem Consistent.sameLinks (h : Consistent s) (hlinks : s.table.SameLinks s'.table)
    (hns : SameHeads s.headTxnList s'.headTxnList) : Consistent s' := by
  obtain ⟨xs, hxs⟩ := h.linked
  exact ⟨⟨xs, hxs.sameLinks hlinks⟩, h.owned.sameLinks hlinks hns⟩

theorem requestLock_consistent {req : LockRequest} {first : Option (Option Addr)} {readBit : Int}
    (hs : Consistent s) (h : s.requestLock t req first readBit = some s') : Consistent s' := by
  obtain ⟨_, _, s₁, _, hsearch, hspec, hlinks, hns⟩ := requestLock_frame h
  exact (hspec.consistent hs hsearch).sameLinks hlinks (hns ▸ .refl _)

/-! ## Releases -/

/-- **Freeing a record keeps the table consistent** when it is alone on its file or somebody
    waits for the file. -/
theorem Frees.consistent {close : Bool → Int → Option Act} {l : List Addr}
    (hfree : Frees close s t l a s' acts) (h : Consistent s) (hclean : s.AloneOrWaited a) :
    Consistent s' := by
  refine ⟨?_, hfree.owned h.owned⟩
  obtain ⟨xs, hxs⟩ := h.linked
  have ha := hxs.mem_iff.mpr hfree.mem.1
  obtain ⟨n, r, -, -, hrel⟩ := hfree
  obtain ⟨table₁, ns, hunlink, halloc, hbrk, hhead, hcells, -⟩ :=
    s.unlinkTxnList_frame t l.getLast? a
  rw [hunlink] at hrel
  -- the table behind the unlinking from the transaction
  have hxs₁ : table₁.WellLinked xs := by
    refine hxs.congr halloc hbrk hhead (fun b => ?_) fun b => ?_ <;> simp [hcells b]
  have hinode : ∀ b, table₁.inode b = s.table.inode b := fun b => by
    simp [LockTable.inode, hcells b]
  obtain ⟨p, q, rfl⟩ := List.append_of_mem ha
  have hdeleteAlone : ∀ table', table₁.deleteFileList a = some table' →
      ((table₁.cells a).nextSharedRec = none ∧ (table₁.cells a).prevSharedRec = none) →
      ∃ ys, table'.WellLinked ys := fun table' htable' halone => by
    obtain ⟨table'', hdel, hys⟩ := hxs₁.delete_alone halone
    rw [htable', Option.some.injEq] at hdel
    exact ⟨_, hdel ▸ hys⟩
  cases hrel with
  | quiet hwait htable =>
    refine hdeleteAlone _ htable ((hxs₁.alone_iff ha).mpr fun b hb hsame => ?_)
    have hwait' : s.searchWaitList (s.cell a).fileInode = none := by
      have hkey : (table₁.cells a).fileInode = (s.cell a).fileInode := hinode a
      rw [← hkey]
      exact hwait
    exact hclean hwait' b (hxs.mem_iff.mp hb) (by rw [← hinode, ← hinode, hsame])
  | unlinked hwait hmode hlinks htable =>
    obtain ⟨table'', hdel, hys⟩ := hxs₁.delete
    have htable' : (table₁.unlinkShared a).deleteFileList a = some _ := htable
    rw [htable', Option.some.injEq] at hdel
    exact ⟨_, hdel ▸ hys⟩
  | woken hwait hlast htable =>
    refine hdeleteAlone _ htable ?_
    by_cases hmode : (table₁.cells a).fileMode = 0
    · exact hlast hmode
    · exact hxs₁.alone_of_exclusive ha hmode

/-- What is alone or waited for stays so while other records are freed. -/
theorem AloneOrWaited.frees {b : Addr} (h : s.AloneOrWaited b) (hframe : FreedFrame s s' a)
    (hb : b ≠ a) : s'.AloneOrWaited b := by
  intro hwait c hc hsame
  have hc' := (hframe.mem c).mp hc
  have hcell := (hframe.fields b hb).1
  have hcell' := (hframe.fields c hc'.1).1
  refine h ?_ c hc'.2 (hcell'.symm.trans (Eq.trans hsame hcell))
  rwa [searchWaitList, ← hframe.rest.1, ← hcell]

/-- **Rule for clean releases**: the table stays consistent, and so does every `J` that
    survives delayed updates and the freeing of a record of a consistent table. -/
theorem releaseLocks_clean {prepare : Server → Addr → Option (Server × List Act)}
    {close : Bool → Int → Option Act} {J : Server → Prop}
    (hprep : ∀ s a s₁ pre, prepare s a = some (s₁, pre) → SameButData s s₁)
    (hdata : ∀ s s₁, J s → SameButData s s₁ → J s₁)
    (hfree : ∀ s a s₁ rel, Consistent s → J s → Frees close s t [] a s₁ rel → J s₁)
    (hs : Consistent s) (hJ : J s)
    (hclean : ∀ a ∈ s.table.allocated, (s.cell a).parentTxn = t → s.UnlinksNothing a)
    (h : releaseLocks prepare close s t = some (s', acts)) :
    Consistent s' ∧ J s' ∧ ∃ n, searchTxn t s'.headTxnList = some n ∧ n.fileRecNo = none := by
  let I : Server → List Act → Prop := fun s _ => (Consistent s ∧ J s) ∧
    ∀ a ∈ s.table.allocated, (s.cell a).parentTxn = t → s.AloneOrWaited a
  have hrule := releaseLocks_rule (I := I) (Q := fun _ => True) (fun s done hI => hI.1.1.owned)
    (fun s a s₁ pre hpre => ⟨hprep s a s₁ pre hpre, trivial⟩) ?_ ?_ h
    ⟨⟨hs, hJ⟩, fun a ha hat => hs.aloneOrWaited ha (hclean a ha hat)⟩
  · exact ⟨hrule.1.1.1, hrule.1.1.2, hrule.2⟩
  · -- the delayed updates
    rintro s s₁ pre done ⟨⟨hs, hJ⟩, hall⟩ hsame -
    have hJ₁ := hdata _ _ hJ hsame
    obtain ⟨table, rfl, hlinks⟩ := hsame
    refine ⟨⟨hs.sameLinks hlinks (.refl _), hJ₁⟩, fun b hb hbt hwait c hc hsame => ?_⟩
    change b ∈ table.allocated at hb
    change c ∈ table.allocated at hc
    change table.inode c = table.inode b at hsame
    rw [hlinks.allocated] at hb hc
    rw [hlinks.inode, hlinks.inode] at hsame
    refine hall b hb (by rw [← hbt]; exact (hlinks.parentTxn b).symm) ?_ c hc hsame
    have hkey : (table.cells b).fileInode = (s.cell b).fileInode := hlinks.inode b
    rw [← hkey]
    exact hwait
  · -- a record is freed
    rintro s a s₁ rel done ⟨⟨hs, hJ⟩, hall⟩ hfrees
    refine ⟨⟨hfrees.consistent hs (hall a hfrees.mem.1 hfrees.mem.2), hfree _ _ _ _ hs hJ hfrees⟩,
      fun b hb hbt => ?_⟩
    have hframe := hfrees.frame hs.owned
    obtain ⟨hba, hb'⟩ := (hframe.mem b).mp hb
    exact (hall b hb' ((hframe.fields b hba).2.2.2.2.1.symm.trans hbt)).frees hframe hba

theorem releaseLocks_consistent {prepare : Server → Addr → Option (Server × List Act)}
    {close : Bool → Int → Option Act}
    (hprep : ∀ s a s₁ pre, prepare s a = some (s₁, pre) → SameButData s s₁) (hs : Consistent s)
    (hclean : ∀ a ∈ s.table.allocated, (s.cell a).parentTxn = t → s.UnlinksNothing a)
    (h : releaseLocks prepare close s t = some (s', acts)) :
    Consistent s' ∧ ∃ n, searchTxn t s'.headTxnList = some n ∧ n.fileRecNo = none := by
  obtain ⟨hs', -, hnone⟩ := releaseLocks_clean (J := fun _ => True) hprep (fun _ _ _ _ => trivial)
    (fun _ _ _ _ _ _ _ => trivial) hs trivial hclean h
  exact ⟨hs', hnone⟩

/-! ## Runs -/

theorem endTxn_consistent {records : Int} (hs : Consistent s)
    (hnone : ∃ n, searchTxn t s.headTxnList = some n ∧ n.fileRecNo = none)
    (h : s.endTxn t records = some s') : Consistent s' := by
  refine ⟨?_, endTxn_owned hs.owned hnone h⟩
  obtain ⟨ns, hns, rfl⟩ := endTxn_spec h
  exact hs.linked

/-- **Every step with a clean release keeps the table consistent**. -/
theorem consistent_step {e : Event} (hs : Consistent s) (hok : s.CleanRelease e)
    (h : s.step e = some s') : Consistent s' := by
  have hquiet := step_quiet h
  cases step_spec h with
  | begin hfresh => exact ⟨hs.linked, hs.owned.begin hfresh⟩
  | lock hthread h => exact requestLock_consistent hs h
  | resume hthread h => exact requestLock_consistent hs h
  | commit hthread hrel hend =>
    obtain ⟨h₁, hnone⟩ :=
      releaseLocks_consistent (fun _ _ _ _ => performWrites_sameButData) hs hok hrel
    exact endTxn_consistent h₁ hnone hend
  | abort hthread hrel hend =>
    obtain ⟨h₁, hnone⟩ :=
      releaseLocks_consistent (fun _ _ _ _ => discardWrites_sameButData) hs hok hrel
    exact endTxn_consistent h₁ hnone hend
  | releaseByBackup hthread hrel =>
    obtain ⟨l, a, hi, hfree⟩ := releaseLocksByBackup_spec hs.owned hrel
    exact hfree.consistent hs
      (hs.aloneOrWaited hfree.mem.1 (hok a hfree.mem.1 hfree.mem.2 hi))
  | endBackup hthread hnone hend => exact endTxn_consistent hs hnone hend
  | wake => exact hs.sameLinks hquiet.1 hquiet.2
  | leaveAsVictim => exact hs.sameLinks hquiet.1 hquiet.2
  | call => exact hs.sameLinks hquiet.1 hquiet.2
  | markVictim => exact hs.sameLinks hquiet.1 hquiet.2
  | setBackup => exact ⟨hs.linked, hs.owned⟩

theorem consistent_globalInit {handles : Nat} : Consistent (globalInit handles) :=
  ⟨⟨[], LockTable.wellLinked_nil rfl rfl⟩, owned_globalInit⟩

/-- **The table is consistent in every run with clean releases**. -/
theorem consistent_of_reachable {handles : Nat}
    (h : ReachableUnder (globalInit handles) step CleanRelease s) : Consistent s :=
  h.invariant consistent_globalInit fun _ _ _ _ hs hok hstep => consistent_step hs hok hstep

/-! ## Isolation -/

/-- A record in exclusive mode is the only one of its file. -/
theorem Consistent.exclusive_alone (h : Consistent s) {a b : Addr} (ha : a ∈ s.table.allocated)
    (hb : b ∈ s.table.allocated) (hmode : (s.cell a).fileMode = 1)
    (hinode : (s.cell b).fileInode = (s.cell a).fileInode) : b = a := by
  obtain ⟨xs, hxs⟩ := h.linked
  have hexclusive : (s.table.cells a).fileMode ≠ 0 := by
    rw [show (s.table.cells a).fileMode = 1 from hmode]
    decide
  exact (hxs.exclusive a (hxs.mem_iff.mpr ha) b (hxs.mem_iff.mpr hb) hexclusive hinode.symm).symm

/-- **Isolation**: while a transaction holds an exclusive lock, no other transaction holds a
    lock on the same file. -/
theorem exclusive_lock_isolated {handles : Nat}
    (h : ReachableUnder (globalInit handles) step CleanRelease s) {a b : Addr}
    (ha : a ∈ s.table.allocated) (hb : b ∈ s.table.allocated) (hmode : (s.cell a).fileMode = 1)
    (hinode : (s.cell b).fileInode = (s.cell a).fileInode) :
    (s.cell b).parentTxn = (s.cell a).parentTxn := by
  rw [(consistent_of_reachable h).exclusive_alone ha hb hmode hinode]

/-- Two readers release while a writer waits; the writer is woken and has the file alone. -/
theorem exclusive_lock_isolated_after_wait :
    ∃ s, ReachableUnder (globalInit 1) step CleanRelease s ∧ ∃ a ∈ s.table.allocated,
      (s.cell a).fileMode = 1 ∧ ∀ b ∈ s.table.allocated,
        (s.cell b).fileInode = (s.cell a).fileInode → (s.cell b).parentTxn = (s.cell a).parentTxn := by
  obtain ⟨s, hs, a, ha, hmode⟩ := exists_of_runUnder (globalInit 1) step CleanRelease
    (fun s => ∃ a ∈ s.table.allocated, (s.cell a).fileMode = 1)
    [.begin 1, .begin 2, .begin 3, .lock 1 ⟨7, 0, .placeholder⟩ 0,
      .lock 2 ⟨7, 0, .placeholder⟩ 0, .lock 3 ⟨7, 2, .placeholder⟩ 0, .commit 1, .commit 2,
      .wake 3, .resume 3 0] (by decide)
  exact ⟨s, hs, a, ha, hmode, fun b hb hinode =>
    exclusive_lock_isolated hs ha hb hmode hinode⟩

/-- A reader's release leaves a pointer to the freed record, a later reader is hung behind
    that record, and a writer finds the file unlocked. -/
theorem exclusive_lock_not_isolated :
    ∃ s, Reachable (globalInit 1) step s ∧ ∃ a ∈ s.table.allocated, ∃ b ∈ s.table.allocated,
      (s.cell a).fileMode = 1 ∧ (s.cell b).fileInode = (s.cell a).fileInode ∧
        (s.cell b).parentTxn ≠ (s.cell a).parentTxn :=
  exists_of_run _ _ _ [.begin 1, .begin 2, .begin 3, .begin 4, .lock 1 ⟨7, 0, .placeholder⟩ 0,
    .lock 2 ⟨7, 0, .placeholder⟩ 0, .commit 2, .lock 3 ⟨7, 0, .placeholder⟩ 0, .commit 1,
    .lock 4 ⟨7, 2, .placeholder⟩ 0] (by decide)

end Server

end TxFS
