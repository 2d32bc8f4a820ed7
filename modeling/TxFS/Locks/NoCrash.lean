import TxFS.Locks.Releases

/-!
# Releases Never Follow NULL

`delete_file_list` follows `prev` without a test. It never meets `NULL` there: every record
of the table has a `prev`, the first one points at itself. This holds in every run, also
when shared links dangle, so each record of a release can be released.
-/

namespace TxFS

open GuardedRun

namespace LockTable

variable {t t' : LockTable} {a b l : Addr} {c : FileLock} {loc : Option Addr}

/-- Every record has a `prev`. -/
def HasPrev (t : LockTable) : Prop := ∀ a ∈ t.allocated, (t.cells a).prev ≠ none

theorem HasPrev.of_cells (h : HasPrev t) (halloc : ∀ a ∈ t'.allocated, a ∈ t.allocated)
    (hprev : ∀ a ∈ t'.allocated, (t.cells a).prev ≠ none → (t'.cells a).prev ≠ none) :
    HasPrev t' :=
  fun a ha => hprev a ha (h a (halloc a ha))

/-- An assignment to `prev` of some record. -/
theorem prev_modify {p : Option Addr} (hp : p ≠ none) (hb : (t.cells b).prev ≠ none) :
    ((t.modify a fun d => { d with prev := p }).cells b).prev ≠ none := by
  by_cases hba : b = a
  · subst hba
    rw [modify_cells_self]
    exact hp
  · rw [modify_cells_of_ne hba]
    exact hb

/-- A new record gets its own `prev`. -/
theorem prev_alloc {d : FileLock} (hd : d.prev ≠ none) (hb : b = t.brk ∨ (t.cells b).prev ≠ none) :
    ((t.alloc d).cells b).prev ≠ none := by
  by_cases hbb : b = t.brk
  · subst hbb
    rw [alloc_cells_self]
    exact hd
  · rw [alloc_cells_of_ne hbb]
    exact hb.resolve_left hbb

theorem prev_insertAfter (hb : b = t.brk ∨ (t.cells b).prev ≠ none) :
    ((t.insertAfter l c).cells b).prev ≠ none := by
  have halloc : ∀ d : FileLock, d.prev ≠ none → ((t.alloc d).cells b).prev ≠ none :=
    fun d hd => prev_alloc hd hb
  have hnext : ∀ t₁ : LockTable, (t₁.cells b).prev ≠ none →
      ((t₁.modify l fun d => { d with next := some t.brk }).cells b).prev ≠ none := by
    intro t₁ ht₁
    by_cases hbl : b = l
    · subst hbl
      rw [modify_cells_self]
      exact ht₁
    · rw [modify_cells_of_ne hbl]
      exact ht₁
  unfold insertAfter
  apply hnext
  cases (t.cells l).next with
  | none => exact halloc _ nofun
  | some n => exact prev_modify nofun (halloc _ nofun)

theorem HasPrev.insertUnlocked (h : HasPrev t) : HasPrev (t.insertUnlocked loc c) := by
  have hmem : ∀ b ∈ t.brk :: t.allocated, b = t.brk ∨ (t.cells b).prev ≠ none := by
    intro b hb
    rcases List.mem_cons.mp hb with rfl | hb
    · exact .inl rfl
    · exact .inr (h b hb)
  unfold LockTable.insertUnlocked
  cases loc with
  | none => exact fun b hb => prev_alloc nofun (hmem b hb)
  | some l =>
    dsimp only
    split
    · exact fun b hb => prev_modify nofun (prev_alloc nofun (hmem b hb))
    · intro b hb
      rw [insertAfter_rest.1] at hb
      exact prev_insertAfter (hmem b hb)

theorem HasPrev.insertShared (h : HasPrev t) (hins : t.insertShared l c = some t') :
    HasPrev t' := by
  simp only [LockTable.insertShared, Option.bind_eq_bind, Option.bind_eq_some_iff,
    Option.some.injEq] at hins
  obtain ⟨p, -, rfl⟩ := hins
  intro b hb
  have hb' : b = t.brk ∨ (t.cells b).prev ≠ none := by
    have hb₁ : b ∈ (t.insertAfter p { c with prevSharedRec := some p }).allocated := hb
    rw [insertAfter_rest.1] at hb₁
    exact (List.mem_cons.mp hb₁).imp_right (h b)
  have hprev := prev_insertAfter (l := p) (c := { c with prevSharedRec := some p }) hb'
  by_cases hbp : b = p
  · subst hbp
    rw [modify_cells_self]
    exact hprev
  · rw [modify_cells_of_ne hbp]
    exact hprev

theorem HasPrev.unlinkShared (h : HasPrev t) : HasPrev (t.unlinkShared a) := by
  intro b hb
  rw [unlinkShared_cells]
  rw [unlinkShared_rest.1] at hb
  exact h b hb

/-- A deletion leaves every other record a `prev`. -/
theorem HasPrev.deleteFileList (h : HasPrev t) (hnd : t.allocated.Nodup)
    (hdel : t.deleteFileList a = some t') : HasPrev t' := by
  intro b hb
  rw [(deleteFileList_rest hdel).1, hnd.mem_erase_iff] at hb
  rw [deleteFileList_cells hdel hb.1]
  show (if _ then _ else _) ≠ none
  split
  · rename_i hnext
    split
    · rw [hnext]
      exact nofun
    · -- deleting behind the head has followed `prev`
      rename_i hhead
      intro hnone
      simp [LockTable.deleteFileList, hhead, hnone] at hdel
  · exact h b hb.2

end LockTable

namespace Server

variable {s s' : Server} {t : Int} {a : Addr} {acts : List Act}
  {close : Bool → Int → Option Act} {e : Event}

/-- **One record of a release**: releasing it never fails. -/
theorem releaseRecord_isSome (h : s.table.HasPrev) (ha : a ∈ s.table.allocated) :
    ∃ s' acts, releaseRecord close s a = some (s', acts) := by
  obtain ⟨table, hdel⟩ := LockTable.deleteFileList_isSome (h a ha)
  obtain ⟨table', hdel'⟩ := LockTable.deleteFileList_isSome
    ((h.unlinkShared (a := a)) a (by rw [LockTable.unlinkShared_rest.1]; exact ha))
  simp only [releaseRecord, closeFd_eq, deleteRecord, Option.bind_eq_bind]
  cases s.searchWaitList (s.cell a).fileInode with
  | none => simp [hdel]
  | some w =>
    dsimp only
    split
    · split
      · simp [hdel]
      · simp [hdel']
    · simp [hdel]

theorem ReleaseSpec.hasPrev (h : ReleaseSpec close s a s' acts) (hs : s.table.HasPrev)
    (hnd : s.table.allocated.Nodup) : s'.table.HasPrev := by
  cases h with
  | quiet hwait htable => exact hs.deleteFileList hnd htable
  | unlinked hwait hmode hlinks htable =>
    apply hs.unlinkShared.deleteFileList _ htable
    rw [LockTable.unlinkShared_rest.1]
    exact hnd
  | woken hwait hlast htable => exact hs.deleteFileList hnd htable

theorem Frees.hasPrev {l : List Addr} (hfree : Frees close s t l a s' acts)
    (hs : s.table.HasPrev) (hnd : s.table.allocated.Nodup) : s'.table.HasPrev := by
  obtain ⟨n, r, -, -, hrel⟩ := hfree
  obtain ⟨table, ns, hunlink, halloc, -, -, hcells, -⟩ := s.unlinkTxnList_frame t l.getLast? a
  rw [hunlink] at hrel
  apply hrel.hasPrev
  · apply hs.of_cells
    · intro b hb
      exact halloc ▸ hb
    · intro b _ hb
      show (table.cells b).prev ≠ none
      rw [hcells]
      exact hb
  · exact halloc ▸ hnd

theorem hasPrev_of_sameLinks (hs : s.table.HasPrev) (hlinks : s.table.SameLinks s'.table) :
    s'.table.HasPrev := by
  apply hs.of_cells
  · intro b hb
    exact hlinks.allocated ▸ hb
  · intro b _ hb
    obtain ⟨_, _, _, hcell⟩ := hlinks.cells b
    rw [hcell]
    exact hb

theorem releaseLocks_hasPrev {prepare : Server → Addr → Option (Server × List Act)}
    (hprep : ∀ s a s₁ pre, prepare s a = some (s₁, pre) → SameButData s s₁)
    (hown : Owned s.table s.headTxnList) (hs : s.table.HasPrev)
    (h : releaseLocks prepare close s t = some (s', acts)) : s'.table.HasPrev := by
  refine (releaseLocks_rule (I := fun s₁ _ => Owned s₁.table s₁.headTxnList ∧ s₁.table.HasPrev)
    (Q := fun _ => True) (fun s₁ done hI => hI.1)
    (fun s a s₁ pre hpre => ⟨hprep s a s₁ pre hpre, trivial⟩) ?_ ?_ h ⟨hown, hs⟩).1.2
  · rintro s₁ s₂ pre done ⟨hown, hs⟩ ⟨table, rfl, hlinks⟩ -
    exact ⟨hown.sameLinks hlinks (.refl _), hasPrev_of_sameLinks hs hlinks⟩
  · rintro s₁ b s₂ acts done ⟨hown, hs⟩ hfree
    exact ⟨hfree.owned hown, hfree.hasPrev hs hown.nodup⟩

theorem GrantedIn.hasPrev {readBit : Int} {table : LockTable}
    (hgrant : GrantedIn s t readBit table s') (htable : table.HasPrev) : s'.table.HasPrev := by
  obtain ⟨table', _, _, _, rfl, -, halloc, -, -, hcells⟩ := hgrant.frame
  apply htable.of_cells
  · intro b hb
    exact halloc ▸ hb
  · intro b _ hb
    obtain ⟨nx, hcell⟩ := hcells b
    show (table'.cells b).prev ≠ none
    rw [hcell]
    exact hb

theorem requestLock_hasPrev {req : LockRequest} {first : Option (Option Addr)} {readBit : Int}
    (h : s.requestLock t req first readBit = some s') (hs : s.table.HasPrev) :
    s'.table.HasPrev := by
  obtain ⟨_, _, s₁, _, -, hspec, hlinks, -⟩ := requestLock_frame h
  apply hasPrev_of_sameLinks _ hlinks
  cases hspec with
  | held => exact hs
  | unlocked hadm hgrant => exact hgrant.hasPrev hs.insertUnlocked
  | shared hloc hown hmode hfl hadm htable hgrant => exact hgrant.hasPrev (hs.insertShared htable)
  | newNode => exact hs
  | oldNode => exact hs
  | refused hs' hout =>
    obtain ⟨_, _, _, rfl, -⟩ := hs'
    exact hs

theorem hasPrev_step (hown : Owned s.table s.headTxnList) (hs : s.table.HasPrev)
    (h : s.step e = some s') : s'.table.HasPrev := by
  have hquiet := step_quiet h
  cases step_spec h with
  | begin => exact hs
  | lock hthread hreq => exact requestLock_hasPrev hreq hs
  | resume hthread hreq => exact requestLock_hasPrev hreq hs
  | commit hthread hrel hend =>
    have hs₁ := releaseLocks_hasPrev (fun _ _ _ _ => performWrites_sameButData) hown hs hrel
    obtain ⟨ns, -, rfl⟩ := endTxn_spec hend
    exact hs₁
  | abort hthread hrel hend =>
    have hs₁ := releaseLocks_hasPrev (fun _ _ _ _ => discardWrites_sameButData) hown hs hrel
    obtain ⟨ns, -, rfl⟩ := endTxn_spec hend
    exact hs₁
  | releaseByBackup hthread hrel =>
    obtain ⟨l, a, -, hfree⟩ := releaseLocksByBackup_spec hown hrel
    exact hfree.hasPrev hs hown.nodup
  | endBackup hthread hnone hend =>
    obtain ⟨ns, -, rfl⟩ := endTxn_spec hend
    exact hs
  | wake => exact hasPrev_of_sameLinks hs hquiet.1
  | leaveAsVictim => exact hasPrev_of_sameLinks hs hquiet.1
  | call => exact hasPrev_of_sameLinks hs hquiet.1
  | markVictim => exact hasPrev_of_sameLinks hs hquiet.1
  | setBackup => exact hs

/-- **Every record has a `prev` in every run**. -/
theorem hasPrev_of_reachable {handles : Nat} {ok : Server → Event → Prop}
    (h : ReachableUnder (globalInit handles) step ok s) : s.table.HasPrev := by
  have hboth : Owned s.table s.headTxnList ∧ s.table.HasPrev :=
    h.invariant (P := fun s => Owned s.table s.headTxnList ∧ s.table.HasPrev)
      ⟨owned_globalInit, fun a ha => absurd ha (by simp [globalInit])⟩
      fun s e s' _ ⟨hown, hs⟩ _ hstep => ⟨owned_step hown hstep, hasPrev_step hown hs hstep⟩
  exact hboth.2

end Server

end TxFS
