import TxFS.Locks.Steps

/-!
# The Serializability Check

What `mutually_serializable` answers and how `insert_file_list` answers a lock request behind
it. A request is turned down (paused or aborted) when it reaches the check and the read bit
of the file differs from the `before_after` bit of a transaction that has locked files.
-/

namespace TxFS

open LinkedPath

namespace Server

variable {s s' s₁ : Server} {t readBit r : Int} {req : LockRequest} {out : Outcome} {loc : Addr}

/-! ## The check -/

/-- The transaction has locked files, on the other side of the backup than the read bit. -/
def Conflicts (s : Server) (t readBit : Int) : Prop :=
  ∃ n ∈ searchTxn t s.headTxnList, n.fileRecNo ≠ none ∧ readBit ≠ n.beforeAfter

instance (s : Server) (t readBit : Int) : Decidable (s.Conflicts t readBit) :=
  inferInstanceAs (Decidable (∃ n ∈ searchTxn t s.headTxnList, _))

/-- **The answers of `mutually_serializable`** for the node `n` of the transaction. -/
inductive CheckSpec (s : Server) (t readBit : Int) (n : TxnNode) : Server → Int → Prop where
  /-- The first file. -/
  | first (hnone : n.fileRecNo = none) : CheckSpec s t readBit n s 1
  /-- On the same side of the backup as the first file. -/
  | same (hfiles : n.fileRecNo ≠ none) (hbit : readBit = n.beforeAfter) :
      CheckSpec s t readBit n (s.nullifyPause t) 1
  /-- The first file was copied and this one is not. -/
  | pause (hfiles : n.fileRecNo ≠ none) (hbit : readBit = 0) (hfirst : n.beforeAfter = 1) :
      CheckSpec s t readBit n (s.pause t).1 (s.pause t).2
  /-- Any other conflict. -/
  | conflict (hfiles : n.fileRecNo ≠ none) (hne : readBit ≠ n.beforeAfter)
      (hnot : ¬ (readBit = 0 ∧ n.beforeAfter = 1)) : CheckSpec s t readBit n s (-1)

theorem mutuallySerializable_spec (h : s.mutuallySerializable t readBit = some (s₁, r)) :
    ∃ n, searchTxn t s.headTxnList = some n ∧ CheckSpec s t readBit n s₁ r := by
  simp only [mutuallySerializable, Option.bind_eq_bind, Option.bind_eq_some_iff] at h
  obtain ⟨n, hn, h⟩ := h
  refine ⟨n, hn, ?_⟩
  split at h
  · rename_i hnone
    cases h
    exact .first hnone
  · rename_i hfiles
    split at h
    · rename_i hbit
      cases h
      exact .same hfiles hbit
    · rename_i hne
      split at h
      · rename_i hpause
        have hpair : (s.pause t) = (s₁, r) := Option.some.inj h
        have hspec := CheckSpec.pause (s := s) (t := t) hfiles hpause.1 hpause.2
        rw [hpair] at hspec
        exact hspec
      · rename_i hnot
        cases h
        exact .conflict hfiles hne hnot

/-- The check answers something else than 1 exactly when there is a conflict. -/
theorem mutuallySerializable_ne_one_iff (h : s.mutuallySerializable t readBit = some (s₁, r)) :
    r ≠ 1 ↔ s.Conflicts t readBit := by
  obtain ⟨n, hn, hspec⟩ := mutuallySerializable_spec h
  have hconf : s.Conflicts t readBit ↔ n.fileRecNo ≠ none ∧ readBit ≠ n.beforeAfter := by
    simp [Conflicts, hn]
  rw [hconf]
  cases hspec with
  | first hnone => simp [hnone]
  | same hfiles hbit => simp [hbit]
  | pause hfiles hbit hfirst =>
    refine iff_of_true ?_ ⟨hfiles, ?_⟩
    · rcases pause_ret (s := s) (t := t) with h | h <;> rw [h] <;> decide
    · rw [hbit, hfirst]
      decide
  | conflict hfiles hne hnot => exact iff_of_true (by decide) ⟨hfiles, hne⟩

/-! ## The answer to a request -/

/-- How `insert_file_list` answers the request of the transaction, behind its search. -/
def answer (s : Server) (t : Int) (req : LockRequest) (readBit : Int) : Option Outcome := do
  let (found, loc) ← s.table.searchFileList req.inode
  let (_, out) ← s.insertFileList req.inode req.flags t readBit found loc
  some out

/-- The answers behind a failed check: the transaction is paused or has been aborted. -/
def Outcome.TurnedDown (out : Outcome) : Prop := out = .paused ∨ out = .aborted

/-- The request takes one of the two grants for files locked in shared mode: no wait list, or
    a lock of the backup among those that the shared links lead to. -/
def AsksShared (s : Server) (t : Int) (req : LockRequest) : Prop :=
  ∃ loc, s.table.searchFileList req.inode = some (true, some loc) ∧
    (s.cell loc).parentTxn ≠ t ∧ (s.cell loc).fileMode ≠ 1 ∧ req.flags = 0 ∧
    (s.searchWaitList req.inode = none ∨
      ∃ a, findFrom (fun b => (s.cell b).nextSharedRec) (fun b => (s.cell b).parentTxn = 0)
        (s.table.brk + 1) (some loc) = some (some a))

/-- The grant in shared mode is turned down exactly when there is a conflict. -/
theorem grantShared_turnedDown_iff {fInode fFlags : Int} (ht : t ≠ 0)
    (h : s.grantShared fInode fFlags t readBit loc = some (s', out)) :
    out.TurnedDown ↔ s.Conflicts t readBit := by
  simp only [grantShared, Option.bind_eq_bind, Option.bind_eq_some_iff] at h
  obtain ⟨⟨s₁, r⟩, hcheck, h⟩ := h
  rw [checkShared, if_pos ht] at hcheck
  rw [← mutuallySerializable_ne_one_iff hcheck]
  simp only [ht, or_false] at h
  split at h
  · -- the check succeeded
    rename_i hone
    simp only [Option.bind_eq_some_iff, Option.some.injEq, Prod.mk.injEq] at h
    obtain ⟨_, -, _, -, -, rfl⟩ := h
    exact iff_of_false (by rintro (h | h) <;> cases h) (not_not_intro hone)
  · rename_i hone
    refine iff_of_true ?_ hone
    split at h
    · cases h
      exact .inl rfl
    · cases h
      exact .inr rfl

/-! ## The retry counters -/

/-- The pause array is the same. -/
def SamePauses (s s' : Server) : Prop :=
  s'.pauseArray = s.pauseArray ∧ s'.indexPauseArray = s.indexPauseArray

theorem SamePauses.refl (s : Server) : SamePauses s s := ⟨rfl, rfl⟩

theorem SamePauses.trans {s₂ : Server} (h : SamePauses s s₁) (h' : SamePauses s₁ s₂) :
    SamePauses s s₂ :=
  ⟨h'.1.trans h.1, h'.2.trans h.2⟩

theorem grant_samePauses {table : LockTable} {a : Addr}
    (h : insertSameTxnList { s with table := table } t readBit a = some s') : SamePauses s s' := by
  obtain ⟨n, -, ⟨-, rfl⟩ | ⟨_, _, -, -, rfl⟩⟩ := insertSameTxnList_cases h
  · exact ⟨rfl, rfl⟩
  · exact ⟨rfl, rfl⟩

/-- **The answers of `insert_file_list`** and what becomes of the pause array. -/
inductive AnswerSpec (s : Server) (t : Int) (req : LockRequest) (readBit : Int) :
    Server → Outcome → Prop where
  /-- The thread waits or owns the record already. -/
  | noGrant {s' : Server} {out : Outcome} (hpauses : SamePauses s s')
      (hout : ∀ a, out ≠ .granted a) (hpass : ¬ out.TurnedDown) : AnswerSpec s t req readBit s' out
  /-- Granted without a comparison of the bits. -/
  | uncompared {s' : Server} {a : Addr} (hpauses : SamePauses s s')
      (hwhy : t = 0 ∨ s.Unchecked t req ∨ ∃ n ∈ searchTxn t s.headTxnList, n.fileRecNo = none) :
      AnswerSpec s t req readBit s' (.granted a)
  /-- Granted because the bits are equal. -/
  | compared {s' : Server} {a : Addr} (hpauses : SamePauses (s.nullifyPause t) s')
      (hchecked : ¬ s.Unchecked t req) : AnswerSpec s t req readBit s' (.granted a)
  | paused {s' : Server} {n : TxnNode} (ht : t ≠ 0) (hn : searchTxn t s.headTxnList = some n)
      (hfiles : n.fileRecNo ≠ none) (hret : (s.pause t).2 = 0)
      (hpauses : SamePauses (s.pause t).1 s') : AnswerSpec s t req readBit s' .paused
  | aborted {s' : Server} {n : TxnNode} (ht : t ≠ 0) (hn : searchTxn t s.headTxnList = some n)
      (hfiles : n.fileRecNo ≠ none) (hne : readBit ≠ n.beforeAfter)
      (hlimit : readBit = 0 → n.beforeAfter = 1 → (s.pause t).2 = -1)
      (hpauses : SamePauses s s') : AnswerSpec s t req readBit s' .aborted

/-- A pause that is refused leaves everything as it was. -/
theorem pause_refused (h : (s.pause t).2 = -1) : (s.pause t).1 = s := by
  unfold pause at h ⊢
  simp only at h ⊢
  split
  · split
    · rfl
    · simp_all
  · simp_all

/-- From the answer of the check to the answer of `insert_file_list`. -/
theorem CheckSpec.answer {n : TxnNode} (h : CheckSpec s t readBit n s₁ r) (ht : t ≠ 0)
    (hn : searchTxn t s.headTxnList = some n) (hchecked : ¬ s.Unchecked t req)
    (hcases : (r = 1 ∧ SamePauses s₁ s' ∧ ∃ a, out = .granted a) ∨
      (r = 0 ∧ s' = s₁ ∧ out = .paused) ∨ (r ≠ 1 ∧ r ≠ 0 ∧ s' = s₁ ∧ out = .aborted)) :
    AnswerSpec s t req readBit s' out := by
  cases h with
  | first hnone =>
    obtain ⟨-, hpauses, a, rfl⟩ | ⟨h0, -⟩ | ⟨h1, -⟩ := hcases
    · exact .uncompared hpauses (.inr (.inr ⟨n, hn, hnone⟩))
    · cases h0
    · exact absurd rfl h1
  | same hfiles hbit =>
    obtain ⟨-, hpauses, a, rfl⟩ | ⟨h0, -⟩ | ⟨h1, -⟩ := hcases
    · exact .compared hpauses hchecked
    · cases h0
    · exact absurd rfl h1
  | pause hfiles hbit hfirst =>
    rcases pause_ret (s := s) (t := t) with hret | hret
    · rw [hret] at hcases
      obtain ⟨h1, -⟩ | ⟨-, rfl, rfl⟩ | ⟨-, h0, -⟩ := hcases
      · cases h1
      · exact .paused ht hn hfiles hret (.refl _)
      · exact absurd rfl h0
    · -- the seventh conflict in a row
      rw [hret, pause_refused hret] at hcases
      obtain ⟨h1, -⟩ | ⟨h0, -⟩ | ⟨-, -, rfl, rfl⟩ := hcases
      · cases h1
      · cases h0
      · refine .aborted ht hn hfiles ?_ (fun _ _ => hret) (.refl _)
        rw [hbit, hfirst]
        decide
  | conflict hfiles hne hnot =>
    obtain ⟨h1, -⟩ | ⟨h0, -⟩ | ⟨-, -, rfl, rfl⟩ := hcases
    · cases h1
    · cases h0
    · exact .aborted ht hn hfiles hne (fun h0 h1 => absurd ⟨h0, h1⟩ hnot) (.refl _)

theorem grantShared_answer {fInode fFlags : Int}
    (hfound : (s.table.searchFileList req.inode).map Prod.fst = some true)
    (h : s.grantShared fInode fFlags t readBit loc = some (s', out)) :
    AnswerSpec s t req readBit s' out := by
  have hchecked : ¬ s.Unchecked t req := fun hun => by
    rw [hun.2.1] at hfound
    cases hfound
  simp only [grantShared, Option.bind_eq_bind, Option.bind_eq_some_iff] at h
  obtain ⟨⟨s₁, r⟩, hcheck, h⟩ := h
  unfold checkShared at hcheck
  split at hcheck
  · rename_i ht
    simp only [ht, or_false] at h
    obtain ⟨n, hn, hspec⟩ := mutuallySerializable_spec hcheck
    apply hspec.answer ht hn hchecked
    split at h
    · rename_i hone
      simp only [Option.bind_eq_some_iff, Option.some.injEq, Prod.mk.injEq] at h
      obtain ⟨_, -, _, hinsert, rfl, rfl⟩ := h
      exact .inl ⟨hone, grant_samePauses hinsert, _, rfl⟩
    · rename_i hone
      split at h
      · rename_i hzero
        cases h
        exact .inr (.inl ⟨hzero, rfl, rfl⟩)
      · rename_i hzero
        cases h
        exact .inr (.inr ⟨hone, hzero, rfl, rfl⟩)
  · -- the backup
    rename_i ht
    have ht0 : t = 0 := not_not.mp ht
    cases hcheck
    rw [if_pos (.inr ht0)] at h
    simp only [Option.bind_eq_some_iff, Option.some.injEq, Prod.mk.injEq] at h
    obtain ⟨_, -, _, hinsert, rfl, rfl⟩ := h
    exact .uncompared (grant_samePauses hinsert) (.inl ht0)

theorem insertFileList_answer {found : Bool} {loc : Option Addr}
    (hsearch : s.table.searchFileList req.inode = some (found, loc))
    (h : s.insertFileList req.inode req.flags t readBit found loc = some (s', out)) :
    AnswerSpec s t req readBit s' out := by
  simp only [insertFileList, Option.bind_eq_bind, Option.bind_eq_some_iff] at h
  obtain ⟨_, -, h⟩ := h
  -- a request that waits is not checked
  have hblocked : ∀ {s' : Server} {node : Nat}, SamePauses s s' →
      AnswerSpec s t req readBit s' (.blocked node) := fun hpauses =>
    .noGrant hpauses (by simp) (by rintro (h | h) <;> cases h)
  split at h
  · -- the file is not locked
    rename_i hfalse
    subst hfalse
    simp only [Option.bind_eq_some_iff] at h
    obtain ⟨⟨s₁, r⟩, hcheck, h⟩ := h
    unfold checkUnlocked at hcheck
    split at hcheck
    · rename_i ht
      split at hcheck
      · rename_i hb
        cases hcheck
        simp only [true_or, if_true, Option.bind_eq_some_iff, Option.some.injEq,
          Prod.mk.injEq] at h
        obtain ⟨_, hinsert, rfl, rfl⟩ := h
        -- no backup runs, so nothing is compared
        refine .uncompared (grant_samePauses hinsert) (.inr ?_)
        obtain ⟨n, hn, -⟩ := insertSameTxnList_cases hinsert
        by_cases hnone : n.fileRecNo = none
        · exact .inr ⟨n, hn, hnone⟩
        · refine .inl ⟨hb, by rw [hsearch]; rfl, ?_⟩
          change searchTxn t s.headTxnList = some n at hn
          simp [hn, hnone]
      · rename_i hb
        -- the check decides: granted, aborted or paused
        obtain ⟨n, hn, hspec⟩ := mutuallySerializable_spec hcheck
        apply hspec.answer ht hn fun hun => hb hun.1
        split at h
        · rename_i hone
          simp only [Option.bind_eq_some_iff, Option.some.injEq, Prod.mk.injEq] at h
          obtain ⟨_, hinsert, rfl, rfl⟩ := h
          refine .inl ⟨hone.resolve_right ?_, grant_samePauses hinsert, _, rfl⟩
          obtain ⟨-, h | h⟩ := mutuallySerializable_cases hcheck <;> omega
        · rename_i hone
          split at h
          · rename_i hzero
            cases h
            exact .inr (.inl ⟨hzero, rfl, rfl⟩)
          · rename_i hzero
            cases h
            exact .inr (.inr ⟨fun h1 => hone (.inl h1), hzero, rfl, rfl⟩)
    · rename_i ht
      cases hcheck
      simp only [or_true, if_true, Option.bind_eq_some_iff, Option.some.injEq,
        Prod.mk.injEq] at h
      obtain ⟨_, hinsert, rfl, rfl⟩ := h
      -- the backup itself is not compared
      exact .uncompared (grant_samePauses hinsert) (.inl (not_not.mp ht))
  · rename_i hfound
    have htrue : found = true := by simpa using hfound
    have hfound' : (s.table.searchFileList req.inode).map Prod.fst = some true := by
      rw [hsearch, htrue]
      rfl
    simp only [Option.bind_eq_some_iff] at h
    -- the file is locked
    obtain ⟨loc', rfl, h⟩ := h
    split at h
    · cases h
      exact .noGrant (.refl _) (by simp) (by rintro (h | h) <;> cases h)
    split at h
    · split at h <;> cases h <;> exact hblocked ⟨rfl, rfl⟩
    split at h
    · split at h
      · exact grantShared_answer hfound' h
      · cases h
        exact hblocked ⟨rfl, rfl⟩
    · simp only [Option.bind_eq_some_iff] at h
      obtain ⟨_, -, h⟩ := h
      split at h
      · exact grantShared_answer hfound' h
      · cases h
        exact hblocked ⟨rfl, rfl⟩

/-! ## Steps -/

variable {e : Event}

/-- **An enabled request is answered** by `insert_file_list`; a new record is what it was
    granted. -/
theorem step_answer (hreq : s.requestOf e = some (t, req, readBit)) (h : s.step e = some s') :
    ∃ out, s.answer t req readBit = some out ∧ AnswerSpec s t req readBit s' out ∧
      (∀ a, out = .granted a → a = s.table.brk) ∧
      ∀ a ∈ s'.table.allocated, a ∉ s.table.allocated → out = .granted a := by
  have hlock : ∀ {first}, s.requestLock t req first readBit = some s' →
      ∃ out, s.answer t req readBit = some out ∧ AnswerSpec s t req readBit s' out ∧
        (∀ a, out = .granted a → a = s.table.brk) ∧
        ∀ a ∈ s'.table.allocated, a ∉ s.table.allocated → out = .granted a := by
    intro first hlock
    simp only [requestLock, Option.bind_eq_bind, Option.bind_eq_some_iff] at hlock
    obtain ⟨⟨found, loc⟩, hsearch, ⟨s₁, out⟩, hinsert, hlock⟩ := hlock
    have hanswer : s.answer t req readBit = some out := by
      simp only [answer, hsearch, hinsert, Option.bind_eq_bind, Option.bind_some]
    have hspec := insertFileList_answer hsearch hinsert
    have hrest : SamePauses s₁ s' ∧ s'.table.allocated = s₁.table.allocated := by
      have hafter : ∀ loc a, SamePauses s₁ (s₁.afterLock t req.use loc a) ∧
          (s₁.afterLock t req.use loc a).table.allocated = s₁.table.allocated := by
        intro loc a
        obtain ⟨table, handles, st, heq, hlinks⟩ := s₁.afterLock_spec t req.use loc a
        rw [heq]
        exact ⟨⟨rfl, rfl⟩, hlinks.1.allocated⟩
      cases out <;> cases hlock <;> first | exact hafter _ _ | exact ⟨⟨rfl, rfl⟩, rfl⟩
    refine ⟨out, hanswer, ?_, ?_, ?_⟩
    · cases hspec with
      | noGrant hpauses hout hpass => exact .noGrant (hpauses.trans hrest.1) hout hpass
      | uncompared hpauses hwhy => exact .uncompared (hpauses.trans hrest.1) hwhy
      | compared hpauses hchecked => exact .compared (hpauses.trans hrest.1) hchecked
      | paused ht hn hfiles hret hpauses => exact .paused ht hn hfiles hret (hpauses.trans hrest.1)
      | aborted ht hn hfiles hne hlimit hpauses =>
        exact .aborted ht hn hfiles hne hlimit (hpauses.trans hrest.1)
    · intro a hout
      subst hout
      cases insertFileList_spec hinsert with
      | unlocked => rfl
      | shared => rfl
      | refused hs' hout => rcases hout with hout | hout <;> cases hout
    · intro a ha hnew
      rw [hrest.2] at ha
      cases insertFileList_spec hinsert with
      | held => exact absurd ha hnew
      | unlocked hadm hgrant =>
        obtain ⟨_, _, _, _, rfl, -, halloc, -⟩ := hgrant.frame
        have ha' : a ∈ (s.table.insertUnlocked loc (getFileNode req.inode 0 req.flags t)).allocated :=
          halloc ▸ ha
        rw [LockTable.insertUnlocked_inserted.allocated] at ha'
        rw [(List.mem_cons.mp ha').resolve_right hnew]
      | shared hloc hown hmode hfl hadm htable hgrant =>
        obtain ⟨_, _, _, _, rfl, -, halloc, -⟩ := hgrant.frame
        have ha' := halloc ▸ ha
        rw [(LockTable.insertShared_inserted htable).allocated] at ha'
        rw [(List.mem_cons.mp ha').resolve_right hnew]
      | newNode => exact absurd ha hnew
      | oldNode => exact absurd ha hnew
      | refused hs' hout =>
        obtain ⟨_, _, _, rfl, -⟩ := hs'
        exact absurd ha hnew
  cases step_spec h with
  | lock hthread hreqLock =>
    cases hreq
    exact hlock hreqLock
  | resume hthread hreqLock =>
    simp only [requestOf, hthread, Option.some.injEq, Prod.mk.injEq] at hreq
    obtain ⟨rfl, rfl, rfl⟩ := hreq
    exact hlock hreqLock
  | _ => cases hreq

/-- Ids and retry counters of the live transactions behind a release. -/
def SameTxns (s s' : Server) : Prop :=
  s'.headTxnList.map TxnNode.txnId = s.headTxnList.map TxnNode.txnId ∧ SamePauses s s'

theorem releaseLocks_sameTxns {prepare : Server → Addr → Option (Server × List Act)}
    {close : Bool → Int → Option Act} {acts : List Act}
    (hprep : ∀ s a s₁ pre, prepare s a = some (s₁, pre) → SameButData s s₁)
    (hs : Owned s.table s.headTxnList) (h : releaseLocks prepare close s t = some (s', acts)) :
    SameTxns s s' := by
  refine (releaseLocks_rule (I := fun s₁ _ => Owned s₁.table s₁.headTxnList ∧ SameTxns s s₁)
    (Q := fun _ => True) (fun s₁ done hI => hI.1)
    (fun s a s₁ pre hpre => ⟨hprep s a s₁ pre hpre, trivial⟩) ?_ ?_ h
    ⟨hs, rfl, .refl s⟩).1.2
  · rintro s₁ s₂ pre done ⟨hown, hsame⟩ ⟨table, rfl, hlinks⟩ -
    exact ⟨hown.sameLinks hlinks (.refl _), hsame⟩
  · rintro s₁ b s₂ acts done ⟨hown, hids, hpauses⟩ hfree
    refine ⟨hfree.owned hown, (hfree.frame hown).ids.trans hids, hpauses.trans ?_⟩
    obtain ⟨n, r, -, -, hrel⟩ := hfree
    obtain ⟨-, table, handles, thread, rfl⟩ := hrel.frame
    obtain ⟨_, _, hunlink, -⟩ := s₁.unlinkTxnList_frame t ([] : List Addr).getLast? b
    rw [hunlink]
    exact ⟨rfl, rfl⟩

theorem endTxn_samePauses {records : Int} (h : s.endTxn t records = some s') : SamePauses s s' := by
  obtain ⟨_, -, rfl⟩ := endTxn_spec h
  exact ⟨rfl, rfl⟩

/-- **Only a request touches the pause array**. -/
theorem step_samePauses (hs : Owned s.table s.headTxnList) (hreq : s.requestOf e = none)
    (h : s.step e = some s') : SamePauses s s' := by
  cases step_spec h with
  | begin hfresh => exact ⟨rfl, rfl⟩
  | lock hthread hlock => cases hreq
  | resume hthread hlock => simp [requestOf, hthread] at hreq
  | wake hthread hwake =>
    simp only [afterCondWait, Option.bind_eq_bind, Option.bind_eq_some_iff] at hwake
    obtain ⟨w, -, hwake⟩ := hwake
    split at hwake
    · cases hwake
      exact ⟨rfl, rfl⟩
    split at hwake
    · cases hwake
      exact ⟨rfl, rfl⟩
    split at hwake <;> cases hwake <;> exact ⟨rfl, rfl⟩
  | leaveAsVictim hthread hwake =>
    obtain ⟨_, -, rfl⟩ := afterWakeCond_spec hwake
    exact ⟨rfl, rfl⟩
  | call hcall =>
    unfold logEvent at hcall
    split at hcall
    · rename_i c pos newPos _
      cases c with
      | rename oldpath newpath =>
        cases hcall
        cases newPos <;> exact ⟨rfl, rfl⟩
      | creat path mode =>
        cases hcall
        exact ⟨rfl, rfl⟩
      | unlink path =>
        cases hcall
        exact ⟨rfl, rfl⟩
    · cases hcall
  | commit hthread hrel hend =>
    exact (releaseLocks_sameTxns (fun _ _ _ _ => performWrites_sameButData) hs hrel).2.trans
      (endTxn_samePauses hend)
  | abort hthread hrel hend =>
    exact (releaseLocks_sameTxns (fun _ _ _ _ => discardWrites_sameButData) hs hrel).2.trans
      (endTxn_samePauses hend)
  | releaseByBackup hthread hrel =>
    obtain ⟨l, a, -, n, r, -, -, hrel⟩ := releaseLocksByBackup_spec hs hrel
    obtain ⟨-, table, handles, thread, rfl⟩ := hrel.frame
    obtain ⟨_, _, hunlink, -⟩ := s.unlinkTxnList_frame 0 l.getLast? a
    rw [hunlink]
    exact ⟨rfl, rfl⟩
  | endBackup hthread hnone hend => exact endTxn_samePauses hend
  | markVictim hmark =>
    obtain ⟨w, -, rfl⟩ := markVictim_spec hmark
    exact ⟨rfl, rfl⟩
  | setBackup => exact ⟨rfl, rfl⟩

end Server

/-! ## The live transactions -/

/-- The transaction ends with the event. -/
def Event.Ends (x : Int) : Event → Prop
  | .commit t | .abort t => t = x
  | _ => False

instance (x : Int) (e : Event) : Decidable (e.Ends x) :=
  match e with
  | .commit _ | .abort _ => inferInstanceAs (Decidable (_ = _))
  | .begin _ | .lock .. | .resume .. | .wake _ | .leaveAsVictim _ | .call .. | .releaseByBackup _
  | .endBackup | .markVictim .. | .setBackup _ => isFalse id

namespace Server

variable {s s' s₁ : Server} {t x : Int} {e : Event}

theorem endTxn_live {records : Int} (hnd : (s.headTxnList.map TxnNode.txnId).Nodup)
    (h : s.endTxn t records = some s') (hx : x ∈ s'.headTxnList.map TxnNode.txnId) :
    x ∈ s.headTxnList.map TxnNode.txnId ∧ x ≠ t := by
  obtain ⟨ns, hns, rfl⟩ := endTxn_spec h
  obtain ⟨n, hn, hperm⟩ := txnDelete_perm hns
  have hperm' := hperm.map TxnNode.txnId
  rw [List.map_cons, hn] at hperm'
  refine ⟨hperm'.mem_iff.mpr (List.mem_cons_of_mem _ hx), ?_⟩
  rintro rfl
  exact (List.nodup_cons.mp (hperm'.nodup_iff.mp hnd)).1 hx

/-- A request neither inserts nor deletes a transaction. -/
theorem requestLock_ids {req : LockRequest} {first : Option (Option Addr)} {readBit : Int}
    (h : s.requestLock t req first readBit = some s') :
    s'.headTxnList.map TxnNode.txnId = s.headTxnList.map TxnNode.txnId := by
  obtain ⟨_, _, s₁, _, -, hspec, -, hns⟩ := requestLock_frame h
  rw [hns]
  cases hspec with
  | held => rfl
  | unlocked hadm hgrant =>
    obtain ⟨_, _, _, _, rfl, hids, -⟩ := hgrant.frame
    exact hids
  | shared hloc hown hmode hfl hadm htable hgrant =>
    obtain ⟨_, _, _, _, rfl, hids, -⟩ := hgrant.frame
    exact hids
  | newNode => exact map_txnId_updateTxn (by intro _; rfl)
  | oldNode => exact map_txnId_updateTxn (by intro _; rfl)
  | refused hsame hout =>
    obtain ⟨_, _, _, rfl, hheads⟩ := hsame
    exact hheads.ids

/-- **Who lives after a step** has begun with it or lived before and did not end. -/
theorem step_live (hs : Owned s.table s.headTxnList) (h : s.step e = some s')
    (hx : x ∈ s'.headTxnList.map TxnNode.txnId) :
    e = .begin x ∨ (x ∈ s.headTxnList.map TxnNode.txnId ∧ ¬ e.Ends x) := by
  have hquiet := step_quiet h
  -- a release keeps the list, and the end of `t` takes `t` out of it
  have hended : ∀ {prepare : Server → Addr → Option (Server × List Act)}
      {close : Bool → Int → Option Act} {acts : List Act} {s₁ : Server} {t : Int},
      (∀ s a s₁ pre, prepare s a = some (s₁, pre) → SameButData s s₁) →
      releaseLocks prepare close s t = some (s₁, acts) → s₁.endTxn t 2 = some s' →
      x ∈ s.headTxnList.map TxnNode.txnId ∧ t ≠ x := by
    intro prepare close acts s₁ t hprep hrel hend
    have hids := (releaseLocks_sameTxns hprep hs hrel).1
    obtain ⟨hx', hxt⟩ := endTxn_live (hids ▸ hs.ids) hend hx
    exact ⟨hids ▸ hx', hxt.symm⟩
  cases step_spec h with
  | @begin t hfresh =>
    have hperm : (newTxnInsert t (intOfLong s.logEnd) s.headTxnList).Perm _ := newTxnInsert_perm
    rcases List.mem_cons.mp ((hperm.map TxnNode.txnId).mem_iff.mp hx) with hxt | hx
    · exact .inl (congrArg Event.begin hxt.symm)
    · exact .inr ⟨hx, id⟩
  | lock hthread hlock => exact .inr ⟨requestLock_ids hlock ▸ hx, id⟩
  | resume hthread hlock => exact .inr ⟨requestLock_ids hlock ▸ hx, id⟩
  | commit hthread hrel hend =>
    exact .inr (hended (fun _ _ _ _ => performWrites_sameButData) hrel hend)
  | abort hthread hrel hend =>
    exact .inr (hended (fun _ _ _ _ => discardWrites_sameButData) hrel hend)
  | releaseByBackup hthread hrel =>
    obtain ⟨l, a, -, hfree⟩ := releaseLocksByBackup_spec hs hrel
    exact .inr ⟨(hfree.frame hs).ids ▸ hx, id⟩
  | endBackup hthread hnone hend => exact .inr ⟨(endTxn_live hs.ids hend hx).1, id⟩
  | wake => exact .inr ⟨hquiet.2.ids ▸ hx, id⟩
  | leaveAsVictim => exact .inr ⟨hquiet.2.ids ▸ hx, id⟩
  | call => exact .inr ⟨hquiet.2.ids ▸ hx, id⟩
  | markVictim => exact .inr ⟨hquiet.2.ids ▸ hx, id⟩
  | setBackup => exact .inr ⟨hx, id⟩

end Server

end TxFS
