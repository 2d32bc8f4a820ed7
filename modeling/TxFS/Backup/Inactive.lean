import TxFS.Backup.Check

/-!
# Requests without a Backup

With `BACKUP` equal to `INACTIVE` the grant of a file that is not locked skips the
serializability check ("no need to serialize with backup"). The two grants of
`insert_file_list` for files locked in shared mode ask `mutually_serializable` all the same,
so there a transaction is paused or aborted although no backup runs.
-/

namespace TxFS

open LinkedPath GuardedRun

namespace Server

variable {s s' : Server} {t readBit : Int} {req : LockRequest} {out : Outcome} {e : Event}

/-- A file that is not locked is granted without a check. -/
theorem answer_unlocked {loc : Option Addr} (hb : s.backup = .inactive) (ht : t ≠ 0)
    (hsearch : s.table.searchFileList req.inode = some (false, loc))
    (h : s.answer t req readBit = some out) : ¬ out.TurnedDown := by
  simp only [answer, hsearch, Option.bind_eq_bind, Option.bind_some, Option.bind_eq_some_iff,
    Option.some.injEq] at h
  obtain ⟨⟨s', out'⟩, hinsert, rfl⟩ := h
  -- `ret_MS = 1`
  have hcheck : s.checkUnlocked t readBit = some (s, 1) := by
    rw [checkUnlocked, if_pos ht, if_pos hb]
  simp only [insertFileList, hcheck, Option.bind_eq_bind, Option.bind_some,
    Option.bind_eq_some_iff, if_true, true_or, Option.some.injEq, Prod.mk.injEq] at hinsert
  obtain ⟨_, -, _, -, -, rfl⟩ := hinsert
  rintro (h | h) <;> cases h

/-- A locked file is either granted behind the check of the shared branches, or the record of
    the transaction itself is returned, or the thread waits. -/
theorem answer_locked {loc : Option Addr} (ht : t ≠ 0)
    (hsearch : s.table.searchFileList req.inode = some (true, loc))
    (h : s.answer t req readBit = some out) :
    out.TurnedDown ↔ s.AsksShared t req ∧ s.Conflicts t readBit := by
  simp only [answer, hsearch, Option.bind_eq_bind, Option.bind_some, Option.bind_eq_some_iff,
    Option.some.injEq] at h
  obtain ⟨⟨s', out'⟩, hinsert, rfl⟩ := h
  simp only [insertFileList, Option.bind_eq_bind, Option.bind_eq_some_iff, Bool.true_eq_false,
    if_false] at hinsert
  obtain ⟨_, -, loc', rfl, hinsert⟩ := hinsert
  have hasks : s.AsksShared t req ↔ (s.cell loc').parentTxn ≠ t ∧ (s.cell loc').fileMode ≠ 1 ∧
      req.flags = 0 ∧ (s.searchWaitList req.inode = none ∨
        ∃ a, findFrom (fun b => (s.cell b).nextSharedRec) (fun b => (s.cell b).parentTxn = 0)
          (s.table.brk + 1) (some loc') = some (some a)) := by
    constructor
    · rintro ⟨loc, hloc, hasks⟩
      rw [hsearch] at hloc
      cases hloc
      exact hasks
    · intro hasks
      exact ⟨loc', hsearch, hasks⟩
  have hwaits : ∀ node, ¬ (Outcome.blocked node).TurnedDown := by
    rintro node (h | h) <;> cases h
  split at hinsert
  · -- the record of the same transaction
    rename_i hown
    cases hinsert
    refine iff_of_false (by rintro (h | h) <;> cases h) ?_
    intro h
    exact (hasks.mp h.1).1 hown
  · rename_i hown
    split at hinsert
    · -- locked in exclusive mode
      rename_i hmode
      have hnot : ¬ (s.AsksShared t req ∧ s.Conflicts t readBit) := fun h =>
        (hasks.mp h.1).2.1 hmode
      split at hinsert <;> cases hinsert <;> exact iff_of_false (hwaits _) hnot
    · rename_i hmode
      split at hinsert
      · -- no wait list
        rename_i hnone
        split at hinsert
        · rename_i hflags
          rw [grantShared_turnedDown_iff ht hinsert]
          exact (and_iff_right (hasks.mpr ⟨hown, hmode, hflags, .inl hnone⟩)).symm
        · rename_i hflags
          cases hinsert
          exact iff_of_false (hwaits _) fun h => hflags (hasks.mp h.1).2.2.1
      · -- a wait list: the backup's own shared lock lets a reader in
        rename_i w hw
        simp only [Option.bind_eq_some_iff] at hinsert
        obtain ⟨filePtr, hfind, hinsert⟩ := hinsert
        split at hinsert
        · rename_i hptr
          obtain ⟨a, rfl⟩ := Option.ne_none_iff_exists'.mp hptr.1
          rw [grantShared_turnedDown_iff ht hinsert]
          exact (and_iff_right (hasks.mpr ⟨hown, hmode, hptr.2, .inr ⟨a, hfind⟩⟩)).symm
        · rename_i hptr
          cases hinsert
          refine iff_of_false (hwaits _) fun h => ?_
          obtain ⟨-, -, hflags, hnone | ⟨a, ha⟩⟩ := hasks.mp h.1
          · rw [hw] at hnone
            cases hnone
          · rw [hfind] at ha
            cases ha
            exact hptr ⟨by simp, hflags⟩

/-- An enabled request has an answer. -/
theorem answer_of_step (hreq : s.requestOf e = some (t, req, readBit)) (h : s.step e = some s') :
    ∃ out, s.answer t req readBit = some out := by
  have hanswer : ∀ first, s.requestLock t req first readBit = some s' →
      ∃ out, s.answer t req readBit = some out := by
    intro first hlock
    simp only [requestLock, Option.bind_eq_bind, Option.bind_eq_some_iff] at hlock
    obtain ⟨⟨found, loc⟩, hsearch, ⟨s₁, out⟩, hinsert, -⟩ := hlock
    exact ⟨out, by simp only [answer, hsearch, hinsert, Option.bind_eq_bind, Option.bind_some]⟩
  cases step_spec h with
  | lock hthread hlock =>
    cases hreq
    exact hanswer _ hlock
  | resume hthread hlock =>
    simp only [requestOf, hthread, Option.some.injEq, Prod.mk.injEq] at hreq
    obtain ⟨rfl, rfl, rfl⟩ := hreq
    exact hanswer _ hlock
  | _ => cases hreq

/-- **Requests while no backup runs**: a first or repeated lock request of a user transaction
    gets through the serializability check exactly when it does not reach the check of a
    shared branch with a conflict. -/
theorem inactive_request_passes_iff (hb : s.backup = .inactive)
    (hreq : s.requestOf e = some (t, req, readBit)) (ht : t ≠ 0) (h : s.step e = some s') :
    (∃ out, s.answer t req readBit = some out ∧ ¬ out.TurnedDown) ↔
      ¬ (s.AsksShared t req ∧ s.Conflicts t readBit) := by
  obtain ⟨out, hout⟩ := answer_of_step hreq h
  have hiff : ¬ out.TurnedDown ↔ ¬ (s.AsksShared t req ∧ s.Conflicts t readBit) := by
    rcases hsearch : s.table.searchFileList req.inode with _ | ⟨_ | _, loc⟩
    · rw [answer, hsearch] at hout
      cases hout
    · refine iff_of_true (answer_unlocked hb ht hsearch hout) ?_
      rintro ⟨⟨loc', hloc, -⟩, -⟩
      rw [hsearch] at hloc
      cases hloc
    · exact not_congr (answer_locked ht hsearch hout)
  rw [← hiff]
  constructor
  · rintro ⟨out', hout', hpass⟩
    rw [hout] at hout'
    cases hout'
    exact hpass
  · intro hpass
    exact ⟨out, hout, hpass⟩

/-- Two readers of a file with the same read bits. -/
theorem inactive_request_passes_shared :
    ∃ s, Reachable (globalInit 1) step s ∧ s.backup = .inactive ∧
      ∃ out, s.answer 2 ⟨7, 0, .placeholder⟩ 1 = some out ∧ ¬ out.TurnedDown := by
  obtain ⟨s, hs, hb, hstep, hnode⟩ := exists_of_run (globalInit 1) step
    (fun s => s.backup = .inactive ∧ (s.step (.lock 2 ⟨7, 0, .placeholder⟩ 1)).isSome = true ∧
      ¬ s.Conflicts 2 1)
    [.begin 1, .begin 2, .lock 1 ⟨7, 0, .placeholder⟩ 0, .lock 2 ⟨5, 0, .placeholder⟩ 1]
    (by decide)
  obtain ⟨s', hs'⟩ := Option.isSome_iff_exists.mp hstep
  exact ⟨s, hs, hb, (inactive_request_passes_iff hb rfl (by decide) hs').mpr fun h => hnode h.2⟩

/-- Without a backup a reader is aborted because its first file has another read bit. -/
theorem inactive_request_aborted :
    ∃ s, Reachable (globalInit 1) step s ∧ s.backup = .inactive ∧
      s.answer 2 ⟨7, 0, .placeholder⟩ 1 = some .aborted :=
  exists_of_run _ _ _ [.begin 1, .begin 2, .lock 1 ⟨7, 0, .placeholder⟩ 1,
    .lock 2 ⟨5, 0, .placeholder⟩ 0] (by decide)

end Server

end TxFS
