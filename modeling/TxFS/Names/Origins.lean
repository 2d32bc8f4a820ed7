import TxFS.Commit.Replay

/-!
# Whose Calls are Performed

Every write record belongs to a log record of the transaction that owns its lock record. A
commit takes the operations it performs from the write records of its own transaction, and an
abort performs none. So no step but the commit of a transaction performs an operation that the
transaction has logged (`Logged.not_replays`), also where ids are used again.
-/

namespace TxFS

open LinkedPath GuardedRun

/-- The LRN of the logged call that the action performs. -/
def Act.callLRN : Act → Option Int
  | .rename lrn _ _ | .sync lrn _ | .unlink lrn _ => some lrn
  -- file data and descriptors
  | .write _ | .close _ | .closeAbort _ => none

theorem LoggedCall.callLRN_of_mem {r : LoggedCall} {act : Act} (h : act ∈ r.acts) :
    act.callLRN = some r.LRN := by
  unfold LoggedCall.acts at h
  split at h
  · rw [List.mem_singleton.mp h]
    rfl
  · split at h
    · rw [List.mem_singleton.mp h]
      rfl
    · cases h
  · rw [List.mem_singleton.mp h]
    rfl

namespace Server

variable {s s' s₁ s₂ : Server} {t x : Int} {a : Addr} {w : WriteRecord} {acts : List Act} {e : Event}

/-! ## Delayed updates -/

/-- The write lists get no new records, and the operations performed are those of the record
    `a`. -/
def Performs (s : Server) (a : Addr) (s' : Server) (acts : List Act) : Prop :=
  (∀ b, (s'.cell b).writesAt ⊆ (s.cell b).writesAt) ∧
    ∀ act ∈ acts, ∀ l ∈ act.callLRN, ∃ w ∈ (s.cell a).writesAt, w.LRN = l

theorem Performs.refl (h : ∀ act ∈ acts, act.callLRN = none) : Performs s a s acts := by
  refine ⟨fun b => List.Subset.refl _, fun act hact l hl => ?_⟩
  rw [h act hact] at hl
  cases hl

/-- The rest of the list is performed behind its first record. -/
theorem Performs.trans {acts' : List Act} (h : Performs s a s₁ acts)
    (h' : Performs s₁ a s₂ acts') : Performs s a s₂ (acts ++ acts') := by
  refine ⟨fun b v hv => h.1 b (h'.1 b hv), fun act hact l hl => ?_⟩
  rcases List.mem_append.mp hact with hact | hact
  · exact h.2 act hact l hl
  · obtain ⟨w, hw, hlrn⟩ := h'.2 act hact l hl
    exact ⟨w, h.1 a hw, hlrn⟩

/-- A record of the list of `b` is taken out. -/
theorem writesAt_modifyCell {b : Addr} {f : List WriteRecord → List WriteRecord}
    (hf : ∀ ws, f ws ⊆ ws) (d : Addr) :
    ((s.modifyCell b fun c => { c with writesAt := f c.writesAt }).cell d).writesAt ⊆
      (s.cell d).writesAt := by
  by_cases hd : d = b
  · subst hd
    simpa [modifyCell, cell, LockTable.modify] using hf (s.table.cells d).writesAt
  · simp [modifyCell, cell, LockTable.modify, hd]

/-- One call is performed, the one of the write record. -/
theorem delayedUpdateOne_performs (hw : w ∈ (s.cell a).writesAt)
    (h : s.delayedUpdateOne a w = some (s', acts)) : Performs s a s' acts := by
  have hown : ∀ act : Act, act.callLRN = some w.LRN →
      ∀ l ∈ act.callLRN, ∃ v ∈ (s.cell a).writesAt, v.LRN = l := by
    intro act hact l hl
    rw [hact] at hl
    exact ⟨w, hw, Option.some.inj hl⟩
  unfold delayedUpdateOne at h
  split at h
  · simp only [delayedRename, Option.bind_eq_bind, Option.bind_eq_some_iff] at h
    obtain ⟨call, -, h⟩ := h
    split at h
    · -- the other record of the rename goes
      simp only [Option.bind_eq_some_iff, Option.some.injEq, Prod.mk.injEq] at h
      obtain ⟨pos, -, b, rfl, rfl, rfl⟩ := h
      refine ⟨writesAt_modifyCell fun ws => List.eraseP_subset, fun act hact => ?_⟩
      rw [List.mem_singleton.mp hact]
      exact hown _ rfl
    · simp only [Option.some.injEq, Prod.mk.injEq] at h
      obtain ⟨rfl, rfl⟩ := h
      refine ⟨fun b => List.Subset.refl _, fun act hact => ?_⟩
      rw [List.mem_singleton.mp hact]
      exact hown _ rfl
  split at h
  · simp only [delayedCreat, Option.bind_eq_bind, Option.map_eq_some_iff,
      Option.bind_eq_some_iff, Option.some.injEq, Prod.mk.injEq] at h
    obtain ⟨_, ⟨call, -, rfl⟩, rfl, rfl⟩ := h
    refine ⟨fun b => List.Subset.refl _, fun act hact => ?_⟩
    split at hact
    · rw [List.mem_singleton.mp hact]
      exact hown _ rfl
    · cases hact
  split at h
  · simp only [delayedUnlink, Option.bind_eq_bind, Option.map_eq_some_iff,
      Option.bind_eq_some_iff, Option.some.injEq, Prod.mk.injEq] at h
    obtain ⟨_, ⟨call, -, rfl⟩, rfl, rfl⟩ := h
    refine ⟨fun b => List.Subset.refl _, fun act hact => ?_⟩
    rw [List.mem_singleton.mp hact]
    exact hown _ rfl
  · simp only [Option.some.injEq, Prod.mk.injEq] at h
    obtain ⟨rfl, rfl⟩ := h
    exact .refl (by simp)

theorem delayedUpdateLoop_performs {n : Nat} (h : delayedUpdateLoop n s a = some (s', acts)) :
    Performs s a s' acts := by
  induction n generalizing s acts with
  | zero =>
    rw [delayedUpdateLoop] at h
    split at h
    · cases h
      exact .refl (by simp)
    · cases h
  | succ n ih =>
    rw [delayedUpdateLoop] at h
    split at h
    · cases h
      exact .refl (by simp)
    · rename_i w ws hws
      simp only [Option.bind_eq_bind, Option.bind_eq_some_iff, Option.some.injEq,
        Prod.mk.injEq] at h
      obtain ⟨⟨s₁, acts₁⟩, h₁, ⟨s₂, acts₂⟩, h₂, rfl, rfl⟩ := h
      have hone : Performs s a s₁ acts₁ :=
        delayedUpdateOne_performs (hws ▸ List.mem_cons_self ..) h₁
      have htail : Performs s₁ a
          (s₁.modifyCell a fun c => { c with writesAt := c.writesAt.tail }) [] :=
        ⟨writesAt_modifyCell fun ws => (List.tail_sublist ws).subset, by simp⟩
      have hrest := (hone.trans htail).trans (ih h₂)
      rw [List.append_nil] at hrest
      exact hrest

/-- **What a commit does with a record**. -/
theorem performWrites_performs (h : s.performWrites a = some (s', acts)) :
    Performs s a s' acts := by
  unfold performWrites at h
  split at h
  · cases h
    exact .refl (by simp)
  · split at h
    · split at h
      · exact delayedUpdateLoop_performs h
      · cases h
        refine .refl fun act hact => ?_
        obtain ⟨w, -, rfl⟩ := List.mem_map.mp hact
        rfl
    · cases h
      exact .refl (by simp)

/-! ## Releases -/

theorem closeOnSuccess_callLRN (waited : Bool) (fd : Int) :
    ∀ act ∈ (closeOnSuccess waited fd).toList, act.callLRN = none := by
  intro act hact
  rw [Option.mem_toList, closeOnSuccess, Option.ite_none_right_eq_some] at hact
  obtain ⟨-, hact⟩ := hact
  cases hact
  rfl

theorem closeOnAbort_callLRN (waited : Bool) (fd : Int) :
    ∀ act ∈ (closeOnAbort waited fd).toList, act.callLRN = none := by
  intro act hact
  rw [Option.mem_toList, closeOnAbort, Option.ite_none_right_eq_some] at hact
  obtain ⟨-, hact⟩ := hact
  cases hact
  rfl

theorem ReleaseSpec.callLRN {close : Bool → Int → Option Act}
    (hclose : ∀ waited fd, ∀ act ∈ (close waited fd).toList, act.callLRN = none)
    (h : ReleaseSpec close s a s' acts) : ∀ act ∈ acts, act.callLRN = none := by
  cases h with
  | quiet | unlinked | woken => exact hclose _ _

theorem mem_ownWrites : w ∈ s.ownWrites x ↔ ∃ a ∈ s.ownRecords x, w ∈ (s.cell a).writesAt := by
  rw [ownWrites, List.mem_flatMap]

/-- **A commit performs operations of its own transaction**. -/
theorem releaseLocksOnSuccess_performs (hs : Owned s.table s.headTxnList)
    (h : s.releaseLocksOnSuccess t = some (s', acts)) :
    (∀ act ∈ acts, ∀ l ∈ act.callLRN, ∃ w ∈ s.ownWrites t, w.LRN = l) ∧
      s'.ownRecords t = [] := by
  -- the write records not yet performed, and the operations so far
  let I : Server → List Act → Prop := fun s₁ done => (∀ w ∈ s₁.ownWrites t, w ∈ s.ownWrites t) ∧
    ∀ act ∈ done, ∀ l ∈ act.callLRN, ∃ w ∈ s.ownWrites t, w.LRN = l
  have hI : I s' acts ∧ s'.ownRecords t = [] := by
    refine releaseLocks_each (Q := Performs)
      (fun s a r s₁ pre hr hpre => ⟨performWrites_queues hr hpre, performWrites_performs hpre⟩)
      ?_ ?_ hs h ⟨fun w hw => hw, nofun⟩
    · intro s₁ a r s₂ pre done hown hsame hpre ⟨hold, hdone⟩
      constructor
      · intro w hw
        obtain ⟨b, hb, hw⟩ := mem_ownWrites.mp hw
        rw [mem_ownRecords, hsame.allocated, hsame.parentTxn] at hb
        exact hold w (mem_ownWrites.mpr ⟨b, mem_ownRecords.mpr hb, hpre.1 b hw⟩)
      · intro act hact l hl
        rcases List.mem_append.mp hact with hact | hact
        · exact hdone act hact l hl
        · obtain ⟨w, hw, hlrn⟩ := hpre.2 act hact l hl
          have ha := hown a (List.mem_cons_self ..)
          exact ⟨w, hold w (mem_ownWrites.mpr ⟨a, ha, hw⟩), hlrn⟩
    · intro s₁ a s₂ rel done hnd ha hspec ⟨hold, hdone⟩
      have hdel := hspec.frame.1
      constructor
      · intro w hw
        obtain ⟨b, hb, hw⟩ := mem_ownWrites.mp hw
        rw [mem_ownRecords, hdel.allocated, hnd.mem_erase_iff] at hb
        obtain ⟨⟨hba, hmem⟩, hparent⟩ := hb
        obtain ⟨-, -, -, -, hp, -, hwrites⟩ := FileLock.content_fields (hdel.content b hba)
        have hb₁ : b ∈ s₁.ownRecords t := mem_ownRecords.mpr ⟨hmem, hp.symm.trans hparent⟩
        exact hold w (mem_ownWrites.mpr ⟨b, hb₁, hwrites ▸ hw⟩)
      · intro act hact l hl
        rcases List.mem_append.mp hact with hact | hact
        · exact hdone act hact l hl
        · rw [hspec.callLRN closeOnSuccess_callLRN act hact] at hl
          cases hl
  exact ⟨hI.1.2, hI.2⟩

/-- **An abort performs nothing**: it frees the write records and closes descriptors. -/
theorem releaseLocksOnAbort_performs (hs : Owned s.table s.headTxnList)
    (h : s.releaseLocksOnAbort t = some (s', acts)) :
    (∀ act ∈ acts, act.callLRN = none) ∧ s'.ownRecords t = [] := by
  refine releaseLocks_each (I := fun _ done => ∀ act ∈ done, act.callLRN = none)
    (Q := fun _ _ _ pre => pre = []) ?_ ?_ ?_ hs h nofun
  · intro s a r s₁ pre hr hpre
    refine ⟨discardWrites_queues hpre, ?_⟩
    cases hpre
    rfl
  · rintro s a r s₁ pre done - - rfl hdone
    rw [List.append_nil]
    exact hdone
  · intro s a s₁ rel done hnd ha hspec hdone act hact
    rcases List.mem_append.mp hact with hact | hact
    · exact hdone act hact
    · exact hspec.callLRN closeOnAbort_callLRN act hact

/-! ## The invariant -/

/-- A log in LRN order, and a log record for every write record. -/
structure Logged (s : Server) : Prop where
  owned : Owned s.table s.headTxnList
  sorted : s.eventLog.Pairwise fun r r' => r.LRN < r'.LRN
  below : ∀ r ∈ s.eventLog, r.LRN < s.logEnd
  known : ∀ x, ∀ w ∈ s.ownWrites x, ∃ r ∈ s.eventLog, r.txnId = x ∧ r.LRN = w.LRN

theorem logged_globalInit {handles : Nat} : Logged (globalInit handles) where
  owned := owned_globalInit
  sorted := List.Pairwise.nil
  below := nofun
  known := nofun

theorem ownWrites_eq_nil (h : s.ownRecords x = []) (htable : s'.table = s.table) :
    s'.ownWrites x = [] := by
  have hsame : SameWrites s s' x := .of_table htable
  rw [hsame.own, ownWrites, h]
  rfl

/-- Only log calls add write records. -/
theorem ownWrites_subset (hs : Owned s.table s.headTxnList) (h : s.step e = some s')
    (hcall : ∀ c pos newPos, e ≠ .call x c pos newPos) : s'.ownWrites x ⊆ s.ownWrites x := by
  by_cases hrel : e.Releases x
  swap
  · rw [(step_sameWrites hs h hrel hcall).own]
    exact List.Subset.refl _
  -- the records of the transaction go, or one of the backup
  have hend : ∀ {s₁ : Server} {records : Int}, s₁.ownRecords x = [] →
      s₁.endTxn x records = some s' → s'.ownWrites x = [] := by
    intro s₁ records hnil hend
    obtain ⟨ns, -, rfl⟩ := endTxn_spec hend
    exact ownWrites_eq_nil hnil rfl
  cases step_spec h with
  | commit hthread hrun hdelete =>
    cases hrel
    rw [hend (releaseLocksOnSuccess_performs hs hrun).2 hdelete]
    exact List.nil_subset _
  | abort hthread hrun hdelete =>
    cases hrel
    rw [hend (releaseLocksOnAbort_performs hs hrun).2 hdelete]
    exact List.nil_subset _
  | releaseByBackup hthread hrun =>
    cases hrel
    obtain ⟨l, a, -, hfree⟩ := releaseLocksByBackup_spec hs hrun
    have hframe := hfree.frame hs
    intro w hw
    obtain ⟨b, hb, hw⟩ := mem_ownWrites.mp hw
    obtain ⟨hb, hbx⟩ := mem_ownRecords.mp hb
    obtain ⟨hba, hb⟩ := (hframe.mem b).mp hb
    obtain ⟨-, -, -, -, hparent, hwrites⟩ := hframe.fields b hba
    exact mem_ownWrites.mpr ⟨b, mem_ownRecords.mpr ⟨hb, hparent.symm.trans hbx⟩, hwrites ▸ hw⟩
  | _ => exact hrel.elim

theorem logged_step (h : Logged s) (hstep : s.step e = some s') : Logged s' := by
  have hown := owned_step h.owned hstep
  by_cases hcall : ∃ x c pos newPos, e = .call x c pos newPos
  · obtain ⟨x, c, pos, newPos, rfl⟩ := hcall
    have hlog : s.logEvent x c pos newPos = some s' := hstep
    obtain ⟨-, hevents, hend, -⟩ := logEvent_spec hlog
    have hpos := recordLength_pos c
    refine ⟨hown, ?_, ?_, ?_⟩
    · rw [hevents, List.pairwise_append]
      refine ⟨h.sorted, List.pairwise_singleton _ _, fun r hr r' hr' => ?_⟩
      rw [List.mem_singleton.mp hr']
      exact h.below r hr
    · intro r hr
      rw [hend]
      rw [hevents] at hr
      rcases List.mem_append.mp hr with hr | hr
      · have := h.below r hr
        omega
      · rw [List.mem_singleton.mp hr]
        show s.logEnd < s.logEnd + c.recordLength
        omega
    · intro y w hw
      rw [hevents]
      have hold : w ∈ s.ownWrites y →
          ∃ r ∈ s.eventLog ++ [⟨s.logEnd, x, c⟩], r.txnId = y ∧ r.LRN = w.LRN := by
        intro hw
        obtain ⟨r, hr, hry⟩ := h.known y w hw
        exact ⟨r, List.mem_append_left _ hr, hry⟩
      by_cases hyx : y = x
      · subst hyx
        rcases List.mem_append.mp ((ownWrites_call h.owned hlog).mem_iff.mp hw) with hw | hw
        · exact hold hw
        · exact ⟨_, List.mem_append_right _ (List.mem_singleton_self _), rfl,
            (newWrites_spec hw).1.symm⟩
      · rw [(logEvent_sameWrites hlog hyx).own] at hw
        exact hold hw
  · have hnot : ∀ x c pos newPos, e ≠ .call x c pos newPos := fun x c pos newPos he =>
      hcall ⟨x, c, pos, newPos, he⟩
    obtain ⟨hevents, hend, -⟩ := step_log h.owned hstep hnot
    refine ⟨hown, hevents ▸ h.sorted, fun r hr => ?_, fun x w hw => ?_⟩
    · rw [hevents] at hr
      exact Int.lt_of_lt_of_le (h.below r hr) hend
    · rw [hevents]
      exact h.known x w (ownWrites_subset h.owned hstep (hnot x) hw)

/-! ## Steps -/

/-- What a step does to the file systems. -/
def actsOf (s : Server) : Event → List Act
  | .commit t => ((s.onTxnCommit t).map Prod.snd).getD []
  | .abort t => ((s.onTxnAbort t).map Prod.snd).getD []
  | .releaseByBackup i => ((s.releaseLocksByBackup 0 i).map Prod.snd).getD []
  | _ => []

/-- The action performs an operation that the transaction has logged. -/
def Replays (s : Server) (t : Int) (act : Act) : Prop :=
  ∃ r ∈ s.eventLog, r.txnId = t ∧ act ∈ r.acts

instance (s : Server) (t : Int) (act : Act) : Decidable (s.Replays t act) :=
  inferInstanceAs (Decidable (∃ r ∈ s.eventLog, _))

theorem not_replays_of_callLRN {act : Act} (h : act.callLRN = none) : ¬ s.Replays t act := by
  rintro ⟨r, -, -, hr⟩
  rw [LoggedCall.callLRN_of_mem hr] at h
  cases h

/-- Log records with one LRN are one record. -/
theorem Logged.eq_of_lrn (h : Logged s) {r r' : LoggedCall} (hr : r ∈ s.eventLog)
    (hr' : r' ∈ s.eventLog) (hlrn : r.LRN = r'.LRN) : r = r' := by
  have heq := recordAt_eq h.sorted hr
  rw [hlrn, recordAt_eq h.sorted hr'] at heq
  exact (Option.some.inj heq).symm

theorem mem_acts {o : Option (Server × List Act)} {act : Act}
    (h : act ∈ (o.map Prod.snd).getD []) : ∃ s' acts, o = some (s', acts) ∧ act ∈ acts := by
  cases o with
  | none => cases h
  | some res => exact ⟨res.1, res.2, rfl, h⟩

/-- An abort performs no logged operation at all. -/
theorem Logged.abort_callLRN (h : Logged s) : ∀ act ∈ s.actsOf (.abort t), act.callLRN = none := by
  intro act hact
  obtain ⟨s', acts, habort, hact⟩ := mem_acts hact
  simp only [onTxnAbort, Option.bind_eq_bind, Option.bind_eq_some_iff, Option.some.injEq,
    Prod.mk.injEq] at habort
  obtain ⟨⟨s₁, _⟩, hrun, _, -, -, rfl⟩ := habort
  exact (releaseLocksOnAbort_performs h.owned hrun).1 act hact

/-- **Nobody else performs an operation of the transaction**. -/
theorem Logged.not_replays (h : Logged s) (he : e ≠ .commit t) :
    ∀ act ∈ s.actsOf e, ¬ s.Replays t act := by
  intro act hact
  cases e with
  | commit x =>
    obtain ⟨s', acts, hcommit, hact⟩ := mem_acts hact
    simp only [onTxnCommit, Option.bind_eq_bind, Option.bind_eq_some_iff, Option.some.injEq,
      Prod.mk.injEq] at hcommit
    obtain ⟨⟨s₁, _⟩, hrun, _, -, -, rfl⟩ := hcommit
    rintro ⟨r, hr, hrt, hact'⟩
    -- the operation comes from a write record of the transaction that commits
    obtain ⟨w, hw, hlrn⟩ := (releaseLocksOnSuccess_performs h.owned hrun).1 act hact r.LRN
      (LoggedCall.callLRN_of_mem hact')
    obtain ⟨r', hr', hrx, hlrn'⟩ := h.known x w hw
    have hrr : r' = r := h.eq_of_lrn hr' hr (hlrn'.trans hlrn)
    have hxt : x = t := hrx.symm.trans ((congrArg LoggedCall.txnId hrr).trans hrt)
    exact he (congrArg Event.commit hxt)
  | abort x => exact not_replays_of_callLRN (h.abort_callLRN act hact)
  | releaseByBackup i =>
    obtain ⟨s', acts, hrun, hact⟩ := mem_acts hact
    obtain ⟨l, a, -, n, r, -, -, hspec⟩ := releaseLocksByBackup_spec h.owned hrun
    have hclose : ∀ waited fd, ∀ act ∈ (closeByBackup waited fd).toList, act.callLRN = none := by
      intro waited fd act hact
      cases hact
    exact not_replays_of_callLRN (hspec.callLRN hclose act hact)
  | _ => cases hact

end Server

end TxFS
