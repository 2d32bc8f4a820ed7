import TxFS.Commit.Queues

/-!
# The Log and the Write Lists

In every run in which no transaction id is used twice, the write lists of a live transaction
hold exactly its log records: each log record has one write record, or two if it is a rename
between two directories, and the write records of a directory stand in log order.
-/

namespace TxFS

open GuardedRun

/-- The kinds of write records that a call leaves. -/
def NsCall.Fits : NsCall → Int → Prop
  | .rename .., k => k = -1 ∨ k = -2 ∨ k = -3
  | .creat .., k => k = -4
  | .unlink _, k => k = -5

/-- Namespace records are told from data writes by a negative length. -/
theorem NsCall.Fits.neg {c : NsCall} {k : Int} (h : c.Fits k) : k < 0 := by
  unfold NsCall.Fits at h
  split at h <;> omega

namespace Server

variable {s s' s₁ : Server} {t x : Int} {a : Addr} {e : Event} {c : NsCall} {pos : Addr}
  {newPos : Option Addr}

/-! ## The invariant -/

/-- No transaction id is used twice. -/
def NewIds (s : Server) : Event → Prop
  | .begin t => ∀ r ∈ s.eventLog, r.txnId ≠ t
  | _ => True

instance (s : Server) (e : Event) : Decidable (s.NewIds e) :=
  match e with
  | .begin t => inferInstanceAs (Decidable (∀ r ∈ s.eventLog, r.txnId ≠ t))
  | .lock .. | .resume .. | .wake _ | .leaveAsVictim _ | .call .. | .commit _ | .abort _
  | .releaseByBackup _ | .endBackup | .markVictim .. | .setBackup _ =>
    inferInstanceAs (Decidable True)

/-- A rename between two directories has a write record in each. -/
def copies (w : WriteRecord) : Nat :=
  if w.writeLength = -1 ∨ w.writeLength = -2 then 2 else 1

/-- The write lists of the transaction `x` and its log records. -/
structure LedgerOf (s : Server) (x : Int) : Prop where
  queue : ∀ a ∈ s.ownRecords x, (s.cell a).writesAt.Pairwise fun w w' => w.LRN ≤ w'.LRN
  known : ∀ w ∈ s.ownWrites x,
    ∃ r ∈ s.eventLog, r.txnId = x ∧ r.LRN = w.LRN ∧ r.call.Fits w.writeLength
  complete : ∀ r ∈ s.eventLog, r.txnId = x → ∃ w ∈ s.ownWrites x, w.LRN = r.LRN
  count : ∀ w ∈ s.ownWrites x, (s.ownWrites x).countP (fun v => v.LRN = w.LRN) = copies w

/-- **The ledger**: a log in LRN order, and the write lists of every live user transaction. -/
structure Ledger (s : Server) : Prop where
  owned : Owned s.table s.headTxnList
  sorted : s.eventLog.Pairwise fun r r' => r.LRN < r'.LRN
  below : ∀ r ∈ s.eventLog, r.LRN < s.logEnd
  each : ∀ x ≠ 0, x ∈ s.headTxnList.map TxnNode.txnId → s.LedgerOf x

theorem ledger_globalInit {handles : Nat} : Ledger (globalInit handles) where
  owned := owned_globalInit
  sorted := List.Pairwise.nil
  below := fun r hr => absurd hr (by simp [globalInit])
  each := fun x _ hx => absurd hx (by simp [globalInit])

/-- Write lists and log records of `x` stay. -/
theorem LedgerOf.congr (h : LedgerOf s x) (hsame : SameWrites s s' x)
    (hsub : ∀ r ∈ s.eventLog, r ∈ s'.eventLog)
    (hlog : ∀ r ∈ s'.eventLog, r.txnId = x → r ∈ s.eventLog) : LedgerOf s' x := by
  constructor
  case queue =>
    intro a ha
    rcases hsame.each a ha with hnil | ⟨ha', heq⟩
    · rw [hnil]
      exact List.Pairwise.nil
    · rw [heq]
      exact h.queue a ha'
  case known =>
    intro w hw
    rw [hsame.own] at hw
    obtain ⟨r, hr, hrx⟩ := h.known w hw
    exact ⟨r, hsub r hr, hrx⟩
  case complete =>
    intro r hr hrx
    rw [hsame.own]
    exact h.complete r (hlog r hr hrx) hrx
  case count =>
    intro w hw
    rw [hsame.own] at hw ⊢
    exact h.count w hw

/-! ## Log calls -/

/-- The write records that a call leaves. -/
def newWrites (c : NsCall) (newPos : Option Addr) (lrn : Int) : List WriteRecord :=
  ⟨0, kindOf c newPos, lrn⟩ :: (secondDir c newPos).toList.map fun _ => ⟨0, -2, lrn⟩

theorem flatMap_single {bs : List Addr} (hnd : bs.Nodup) (ha : a ∈ bs) (w : WriteRecord) :
    bs.flatMap (fun b => if b = a then [w] else []) = [w] := by
  induction bs with
  | nil => cases ha
  | cons b bs ih =>
    obtain ⟨hb, hnd⟩ := List.nodup_cons.mp hnd
    rw [List.flatMap_cons]
    by_cases hba : b = a
    · -- no other record is `a`
      subst hba
      have hrest : bs.flatMap (fun d => if d = b then [w] else []) = [] := by
        rw [List.flatMap_eq_nil_iff]
        intro d hd
        have hdb : d ≠ b := fun hdb => hb (hdb ▸ hd)
        exact if_neg hdb
      rw [if_pos rfl, hrest]
      rfl
    · rw [if_neg hba, List.nil_append]
      exact ih hnd ((List.mem_cons.mp ha).resolve_left (Ne.symm hba))

/-- A call adds its write records to those of its transaction. -/
theorem ownWrites_call (hs : Owned s.table s.headTxnList)
    (h : s.logEvent x c pos newPos = some s') :
    (s'.ownWrites x).Perm (s.ownWrites x ++ newWrites c newPos s.logEnd) := by
  obtain ⟨⟨hpos, hnew⟩, -, -, halloc, hcells⟩ := logEvent_spec h
  have hrecords : s'.ownRecords x = s.ownRecords x := by
    rw [ownRecords, ownRecords, halloc]
    simp only [hcells]
  have hnd : (s.ownRecords x).Nodup := hs.nodup.filter _
  have hwrites : s'.ownWrites x = (s.ownRecords x).flatMap fun b =>
      (s.cell b).writesAt ++ addedWrites c pos newPos s.logEnd b := by
    rw [ownWrites, hrecords]
    apply List.flatMap_congr
    intro b _
    rw [hcells]
  rw [hwrites]
  apply (List.flatMap_append_perm _ _ _).symm.trans
  apply List.Perm.append_left
  -- one write record for each directory
  have hfirst := flatMap_single hnd (mem_ownRecords.mpr hpos) ⟨0, kindOf c newPos, s.logEnd⟩
  unfold addedWrites
  apply (List.flatMap_append_perm _ _ _).symm.trans
  rw [hfirst, newWrites, List.singleton_append]
  apply List.Perm.cons
  cases hsecond : secondDir c newPos with
  | none => simp
  | some p =>
    have hp : p ∈ newPos := by
      cases c with
      | rename => exact hsecond
      | creat => cases hsecond
      | unlink => cases hsecond
    have hlast := flatMap_single hnd (mem_ownRecords.mpr (hnew p hp)) ⟨0, -2, s.logEnd⟩
    simp only [Option.some.injEq, Option.toList_some, List.map_cons, List.map_nil]
    simp only [eq_comm (a := p), hlast]
    exact List.Perm.refl _

theorem newWrites_spec {lrn : Int} {w : WriteRecord} (hw : w ∈ newWrites c newPos lrn) :
    w.LRN = lrn ∧ c.Fits w.writeLength ∧ (newWrites c newPos lrn).length = copies w := by
  cases c with
  | rename oldpath newpath =>
    cases newPos with
    | none =>
      obtain rfl := List.mem_singleton.mp hw
      exact ⟨rfl, .inr (.inr rfl), rfl⟩
    | some p =>
      rcases List.mem_cons.mp hw with rfl | hw
      · exact ⟨rfl, .inl rfl, rfl⟩
      · obtain rfl := List.mem_singleton.mp hw
        exact ⟨rfl, .inr (.inl rfl), rfl⟩
  | creat path mode =>
    obtain rfl := List.mem_singleton.mp hw
    exact ⟨rfl, rfl, rfl⟩
  | unlink path =>
    obtain rfl := List.mem_singleton.mp hw
    exact ⟨rfl, rfl, rfl⟩

theorem addedWrites_lrn {b : Addr} {lrn : Int} {w : WriteRecord}
    (hw : w ∈ addedWrites c pos newPos lrn b) : w.LRN = lrn := by
  unfold addedWrites at hw
  rcases List.mem_append.mp hw with hw | hw
  · split at hw
    · rw [List.mem_singleton.mp hw]
    · cases hw
  · split at hw
    · rw [List.mem_singleton.mp hw]
    · cases hw

/-- **A call keeps the ledger of its transaction**: its LRN is new. -/
theorem LedgerOf.call (h : LedgerOf s x) (hs : Owned s.table s.headTxnList)
    (hbelow : ∀ r ∈ s.eventLog, r.LRN < s.logEnd) (hcall : s.logEvent x c pos newPos = some s') :
    LedgerOf s' x := by
  have hperm := ownWrites_call hs hcall
  obtain ⟨-, hlog, -, halloc, hcells⟩ := logEvent_spec hcall
  -- the write records so far have smaller LRNs than the new ones
  have hold : ∀ w ∈ s.ownWrites x, w.LRN < s.logEnd := by
    intro w hw
    obtain ⟨r, hr, -, hlrn, -⟩ := h.known w hw
    rw [← hlrn]
    exact hbelow r hr
  have hcountOld : ∀ l, l < s.logEnd →
      (newWrites c newPos s.logEnd).countP (fun v => v.LRN = l) = 0 := by
    intro l hl
    rw [List.countP_eq_zero]
    intro v hv
    have hlrn := (newWrites_spec hv).1
    simp only [decide_eq_true_eq]
    omega
  have hcountNew : (s.ownWrites x).countP (fun v => v.LRN = s.logEnd) = 0 := by
    rw [List.countP_eq_zero]
    intro v hv
    have hlrn := hold v hv
    simp only [decide_eq_true_eq]
    omega
  constructor
  case queue =>
    intro b hb
    obtain ⟨hb, hbx⟩ := mem_ownRecords.mp hb
    rw [hcells] at hbx ⊢
    rw [halloc] at hb
    have hb' : b ∈ s.ownRecords x := mem_ownRecords.mpr ⟨hb, hbx⟩
    -- the new write records come last and have the largest LRN
    rw [List.pairwise_append]
    refine ⟨h.queue b hb', ?_, ?_⟩
    · apply List.pairwise_of_forall_mem_list
      intro w hw w' hw'
      exact Int.le_of_eq ((addedWrites_lrn hw).trans (addedWrites_lrn hw').symm)
    · intro w hw w' hw'
      rw [addedWrites_lrn hw']
      exact Int.le_of_lt (hold w (List.mem_flatMap.mpr ⟨b, hb', hw⟩))
  case known =>
    intro w hw
    rw [hlog]
    rcases List.mem_append.mp (hperm.mem_iff.mp hw) with hw | hw
    · obtain ⟨r, hr, hrx⟩ := h.known w hw
      exact ⟨r, List.mem_append_left _ hr, hrx⟩
    · obtain ⟨hlrn, hfits, -⟩ := newWrites_spec hw
      exact ⟨⟨s.logEnd, x, c⟩, List.mem_append_right _ (List.mem_singleton_self _), rfl,
        hlrn.symm, hfits⟩
  case complete =>
    intro r hr hrx
    rw [hlog] at hr
    rcases List.mem_append.mp hr with hr | hr
    · obtain ⟨w, hw, hlrn⟩ := h.complete r hr hrx
      exact ⟨w, hperm.mem_iff.mpr (List.mem_append_left _ hw), hlrn⟩
    · -- the first of the new write records is there for every call
      obtain rfl := List.mem_singleton.mp hr
      refine ⟨⟨0, kindOf c newPos, s.logEnd⟩, hperm.mem_iff.mpr (List.mem_append_right _ ?_), rfl⟩
      exact List.mem_cons_self ..
  case count =>
    intro w hw
    rw [hperm.countP_eq, List.countP_append]
    rcases List.mem_append.mp (hperm.mem_iff.mp hw) with hw | hw
    · rw [h.count w hw, hcountOld w.LRN (hold w hw)]
      rfl
    · obtain ⟨hlrn, -, hcopies⟩ := newWrites_spec hw
      -- all copies of the new write record have its LRN
      have hall : (newWrites c newPos s.logEnd).countP (fun v => v.LRN = s.logEnd) =
          (newWrites c newPos s.logEnd).length := by
        rw [List.countP_eq_length]
        intro v hv
        exact decide_eq_true (newWrites_spec hv).1
      rw [hlrn, hcountNew, hall, hcopies]
      exact Nat.zero_add _

/-! ## Steps -/

theorem releaseLocks_log {prepare : Server → Addr → Option (Server × List Act)}
    {close : Bool → Int → Option Act} {acts : List Act}
    (hprep : ∀ s a s₁ pre, prepare s a = some (s₁, pre) → SameButData s s₁)
    (hs : Owned s.table s.headTxnList) (h : releaseLocks prepare close s t = some (s', acts)) :
    s'.eventLog = s.eventLog ∧ s'.logEnd = s.logEnd ∧
      s'.headTxnList.map TxnNode.txnId = s.headTxnList.map TxnNode.txnId := by
  refine (releaseLocks_rule (I := fun s₁ _ => Owned s₁.table s₁.headTxnList ∧
      s₁.eventLog = s.eventLog ∧ s₁.logEnd = s.logEnd ∧
      s₁.headTxnList.map TxnNode.txnId = s.headTxnList.map TxnNode.txnId)
    (Q := fun _ => True) (fun s₁ done hI => hI.1)
    (fun s a s₁ pre hpre => ⟨hprep s a s₁ pre hpre, trivial⟩) ?_ ?_ h ⟨hs, rfl, rfl, rfl⟩).1.2
  · rintro s₁ s₂ pre done ⟨hown, hrest⟩ ⟨table, rfl, hlinks⟩ -
    exact ⟨hown.sameLinks hlinks (.refl _), hrest⟩
  · rintro s₁ b s₂ acts done ⟨hown, hlog, hend, hids⟩ hfree
    have hframe := hfree.frame hown
    obtain ⟨-, -, -, hlog', hend'⟩ := hframe.rest
    exact ⟨hfree.owned hown, hlog'.trans hlog, hend'.trans hend, hframe.ids.trans hids⟩

theorem endTxn_log {records : Int} (h : s.endTxn t records = some s') :
    s'.eventLog = s.eventLog ∧ s'.logEnd = s.logEnd + records * plainRecordLength ∧
      ∃ n, n.txnId = t ∧ s.headTxnList.Perm (n :: s'.headTxnList) := by
  obtain ⟨ns, hns, rfl⟩ := endTxn_spec h
  exact ⟨rfl, rfl, txnDelete_perm hns⟩

theorem requestLock_log {req : LockRequest} {first : Option (Option Addr)} {readBit : Int}
    (h : s.requestLock t req first readBit = some s') :
    s'.eventLog = s.eventLog ∧ s'.logEnd = s.logEnd ∧
      s'.headTxnList.map TxnNode.txnId = s.headTxnList.map TxnNode.txnId := by
  obtain ⟨found, loc, s₁, out, -, hspec, hend⟩ := requestLock_cases h
  have hs₁ : s₁.eventLog = s.eventLog ∧ s₁.logEnd = s.logEnd ∧
      s₁.headTxnList.map TxnNode.txnId = s.headTxnList.map TxnNode.txnId := by
    cases hspec with
    | held => exact ⟨rfl, rfl, rfl⟩
    | unlocked hadm hgrant =>
      obtain ⟨_, _, _, _, rfl, hids, -⟩ := hgrant.frame
      exact ⟨rfl, rfl, hids⟩
    | shared hloc hown hmode hfl hadm htable hgrant =>
      obtain ⟨_, _, _, _, rfl, hids, -⟩ := hgrant.frame
      exact ⟨rfl, rfl, hids⟩
    | newNode => exact ⟨rfl, rfl, map_txnId_updateTxn fun _ => rfl⟩
    | oldNode => exact ⟨rfl, rfl, map_txnId_updateTxn fun _ => rfl⟩
    | refused hs' hout =>
      obtain ⟨_, _, _, rfl, hns⟩ := hs'
      exact ⟨rfl, rfl, hns.ids⟩
  rcases hend with ⟨a, -, rfl⟩ | ⟨node, -, rfl⟩ | ⟨-, rfl⟩ | ⟨-, rfl⟩
  · obtain ⟨table, handles, st, heq, -⟩ := s₁.afterLock_spec t req.use (first.getD loc) a
    rw [heq]
    exact hs₁
  · exact hs₁
  · exact hs₁
  · exact hs₁

/-- A step that is no log call: the log records stay, and whoever is live afterwards was live
    before and released nothing, or has just begun. -/
theorem step_log (hs : Owned s.table s.headTxnList) (h : s.step e = some s')
    (hcall : ∀ t c pos newPos, e ≠ .call t c pos newPos) :
    s'.eventLog = s.eventLog ∧ s.logEnd ≤ s'.logEnd ∧
      ∀ x ≠ 0, x ∈ s'.headTxnList.map TxnNode.txnId → e = .begin x ∨
        (x ∈ s.headTxnList.map TxnNode.txnId ∧ ¬ e.Releases x) := by
  -- a step that keeps the ids of the live transactions
  have hkeep : s'.headTxnList.map TxnNode.txnId = s.headTxnList.map TxnNode.txnId →
      (∀ x ≠ 0, ¬ e.Releases x) → ∀ x ≠ 0, x ∈ s'.headTxnList.map TxnNode.txnId →
      e = .begin x ∨ (x ∈ s.headTxnList.map TxnNode.txnId ∧ ¬ e.Releases x) := by
    intro hids hrel x hx hmem
    rw [hids] at hmem
    exact .inr ⟨hmem, hrel x hx⟩
  -- the transaction `t` is deleted
  have hdelete : ∀ {s₁ : Server} {t : Int},
      s₁.headTxnList.map TxnNode.txnId = s.headTxnList.map TxnNode.txnId →
      (∃ n, n.txnId = t ∧ s₁.headTxnList.Perm (n :: s'.headTxnList)) →
      (∀ x, e.Releases x → t = x) → ∀ x ≠ 0, x ∈ s'.headTxnList.map TxnNode.txnId →
      e = .begin x ∨ (x ∈ s.headTxnList.map TxnNode.txnId ∧ ¬ e.Releases x) := by
    intro s₁ t hids hperm hrel x hx hmem
    obtain ⟨n, hn, hperm⟩ := hperm
    have hperm' := hperm.map TxnNode.txnId
    rw [hids, List.map_cons] at hperm'
    refine .inr ⟨hperm'.mem_iff.mpr (List.mem_cons_of_mem _ hmem), ?_⟩
    intro hrelx
    have hnd := hperm'.nodup_iff.mp hs.ids
    rw [List.nodup_cons, hn, hrel x hrelx] at hnd
    exact hnd.1 hmem
  have hquiet := step_quiet h
  cases step_spec h with
  | @begin t hfresh =>
    refine ⟨rfl, ?_, ?_⟩
    · show s.logEnd ≤ s.logEnd + plainRecordLength
      have : plainRecordLength = 66 := rfl
      omega
    · intro x _ hmem
      have hperm : (newTxnInsert t (intOfLong s.logEnd) s.headTxnList).Perm _ := newTxnInsert_perm
      rcases List.mem_cons.mp ((hperm.map TxnNode.txnId).mem_iff.mp hmem) with hxt | hmem
      · left
        rw [hxt]
        rfl
      · exact .inr ⟨hmem, fun hrel => hrel⟩
  | lock hthread hreq =>
    obtain ⟨hlog, hend, hids⟩ := requestLock_log hreq
    exact ⟨hlog, Int.le_of_eq hend.symm, hkeep hids fun _ _ hrel => hrel⟩
  | resume hthread hreq =>
    obtain ⟨hlog, hend, hids⟩ := requestLock_log hreq
    exact ⟨hlog, Int.le_of_eq hend.symm, hkeep hids fun _ _ hrel => hrel⟩
  | wake hthread hwake =>
    -- whichever branch the thread takes, nothing is logged
    have hlog : s'.eventLog = s.eventLog ∧ s'.logEnd = s.logEnd := by
      simp only [afterCondWait, Option.bind_eq_bind, Option.bind_eq_some_iff] at hwake
      obtain ⟨w, -, hwake⟩ := hwake
      split at hwake
      · cases hwake
        exact ⟨rfl, rfl⟩
      split at hwake
      · cases hwake
        exact ⟨rfl, rfl⟩
      split at hwake <;> cases hwake <;> exact ⟨rfl, rfl⟩
    exact ⟨hlog.1, Int.le_of_eq hlog.2.symm, hkeep hquiet.2.ids fun _ _ hrel => hrel⟩
  | leaveAsVictim hthread hwake =>
    obtain ⟨_, -, rfl⟩ := afterWakeCond_spec hwake
    exact ⟨rfl, Int.le_refl _, hkeep rfl fun _ _ hrel => hrel⟩
  | @call t c pos newPos => exact absurd rfl (hcall t c pos newPos)
  | commit hthread hrun hend =>
    obtain ⟨hlog, hlen, hids⟩ := releaseLocks_log (fun _ _ _ _ => performWrites_sameButData) hs hrun
    obtain ⟨hlog', hlen', hperm⟩ := endTxn_log hend
    refine ⟨hlog'.trans hlog, ?_, hdelete hids hperm fun _ hrel => hrel⟩
    have : plainRecordLength = 66 := rfl
    omega
  | abort hthread hrun hend =>
    obtain ⟨hlog, hlen, hids⟩ := releaseLocks_log (fun _ _ _ _ => discardWrites_sameButData) hs hrun
    obtain ⟨hlog', hlen', hperm⟩ := endTxn_log hend
    refine ⟨hlog'.trans hlog, ?_, hdelete hids hperm fun _ hrel => hrel⟩
    have : plainRecordLength = 66 := rfl
    omega
  | releaseByBackup hthread hrun =>
    obtain ⟨l, a, -, hfree⟩ := releaseLocksByBackup_spec hs hrun
    have hframe := hfree.frame hs
    obtain ⟨-, -, -, hlog, hlen⟩ := hframe.rest
    exact ⟨hlog, Int.le_of_eq hlen.symm, hkeep hframe.ids fun x hx hrel => hx hrel⟩
  | endBackup hthread hnone hend =>
    obtain ⟨hlog', hlen', hperm⟩ := endTxn_log hend
    refine ⟨hlog', ?_, hdelete rfl hperm fun _ hrel => hrel.elim⟩
    have : plainRecordLength = 66 := rfl
    omega
  | markVictim hmark =>
    obtain ⟨w, -, rfl⟩ := markVictim_spec hmark
    exact ⟨rfl, Int.le_refl _, hkeep rfl fun _ _ hrel => hrel⟩
  | setBackup => exact ⟨rfl, Int.le_refl _, hkeep rfl fun _ _ hrel => hrel⟩

theorem recordLength_pos (c : NsCall) : 0 < c.recordLength := by
  unfold NsCall.recordLength
  omega

/-- **Every step keeps the ledger**. -/
theorem ledger_step (h : Ledger s) (hok : s.NewIds e) (hstep : s.step e = some s') :
    Ledger s' := by
  have hown := owned_step h.owned hstep
  by_cases hcall : ∃ t c pos newPos, e = .call t c pos newPos
  · -- a call: one record is added at the end of the log
    obtain ⟨t, c, pos, newPos, rfl⟩ := hcall
    have hlog : s.logEvent t c pos newPos = some s' := hstep
    obtain ⟨-, hevents, hend, -⟩ := logEvent_spec hlog
    have hpos := recordLength_pos c
    constructor
    case owned =>
      exact hown
    case sorted =>
      rw [hevents, List.pairwise_append]
      refine ⟨h.sorted, List.pairwise_singleton _ _, ?_⟩
      intro r hr r' hr'
      rw [List.mem_singleton.mp hr']
      exact h.below r hr
    case below =>
      intro r hr
      rw [hend]
      rw [hevents] at hr
      rcases List.mem_append.mp hr with hr | hr
      · have := h.below r hr
        omega
      · rw [List.mem_singleton.mp hr]
        show s.logEnd < s.logEnd + c.recordLength
        omega
    case each =>
      intro x hx hmem
      have hids := (logEvent_frame hlog).2.ids
      rw [hids] at hmem
      have hx' := h.each x hx hmem
      by_cases hxt : x = t
      · subst hxt
        exact hx'.call h.owned h.below hlog
      · -- another transaction: the new record is not its own
        apply hx'.congr (logEvent_sameWrites hlog hxt)
        · intro r hr
          rw [hevents]
          exact List.mem_append_left _ hr
        · intro r hr hrx
          rw [hevents] at hr
          rcases List.mem_append.mp hr with hr | hr
          · exact hr
          · rw [List.mem_singleton.mp hr] at hrx
            exact absurd hrx.symm hxt
  · -- any other step: the log and the write records stay, transactions may end
    have hnot : ∀ t c pos newPos, e ≠ .call t c pos newPos := fun t c pos newPos he =>
      hcall ⟨t, c, pos, newPos, he⟩
    obtain ⟨hevents, hend, hlive⟩ := step_log h.owned hstep hnot
    constructor
    case owned =>
      exact hown
    case sorted =>
      rw [hevents]
      exact h.sorted
    case below =>
      intro r hr
      rw [hevents] at hr
      exact Int.lt_of_lt_of_le (h.below r hr) hend
    case each =>
      intro x hx hmem
      rcases hlive x hx hmem with rfl | ⟨hmem, hrel⟩
      · -- a new transaction has no records, and its id is in no log record
        have hnone : s.ownWrites x = [] := by
          have hrecords : s.ownRecords x = [] := by
            rw [List.eq_nil_iff_forall_not_mem]
            intro a ha
            obtain ⟨ha, hax⟩ := mem_ownRecords.mp ha
            obtain ⟨n, hn, hid⟩ := h.owned.live a ha
            have hsearch := h.owned.search_eq hn
            cases step_spec hstep with
            | begin hfresh =>
              rw [hid, show (s.table.cells a).parentTxn = x from hax, hfresh] at hsearch
              cases hsearch
          rw [ownWrites, hrecords]
          rfl
        have hsame := step_sameWrites (x := x) h.owned hstep (fun hrel => hrel) (hnot x)
        have hempty := hsame.own.trans hnone
        constructor
        case queue =>
          intro a ha
          rcases hsame.each a ha with hnil | ⟨ha', heq⟩
          · rw [hnil]
            exact List.Pairwise.nil
          · have hwrites := List.flatMap_eq_nil_iff.mp hnone a ha'
            rw [heq, hwrites]
            exact List.Pairwise.nil
        case known =>
          intro w hw
          rw [hempty] at hw
          cases hw
        case complete =>
          intro r hr hrx
          rw [hevents] at hr
          exact absurd hrx (hok r hr)
        case count =>
          intro w hw
          rw [hempty] at hw
          cases hw
      · apply (h.each x hx hmem).congr (step_sameWrites h.owned hstep hrel (hnot x))
        · intro r hr
          rw [hevents]
          exact hr
        · intro r hr _
          rw [hevents] at hr
          exact hr

/-- **The ledger holds in every run** in which ids are new. -/
theorem ledger_of_reachable {handles : Nat}
    (h : ReachableUnder (globalInit handles) step NewIds s) : Ledger s :=
  h.invariant ledger_globalInit fun _ _ _ _ hs hok hstep => ledger_step hs hok hstep

end Server

end TxFS
