import TxFS.EventLog.Chains

/-!
# The LRN of the Begin Record

`log_txn_beg` returns a `long`, and `new_txn_insert` takes it as an `int`. The node of the
transaction therefore keeps the converted LRN, which the next log record of the transaction
uses as its previous LRN: it patches `next_LRN` at an offset that it computes from it.

`prevLogLRN_of_begun` says which value that is, whatever the other transactions log in between.
-/

namespace TxFS

open BinaryFile GuardedRun

namespace EventLog

/-- The state after `global_init`: `fopen` with "r+b" keeps what the log holds. -/
def globalInitWith (prior : List UInt8) : EventLog := { globalInit with file := ⟨prior, 0⟩ }

namespace Event

/-- The transaction that the event belongs to. -/
def txnId : Event → Int
  | logTxnBeg t | newTxnInsert t | call t _ | getPrevLogLRN t | txnDelete t | logTxnEnd t => t

/-- The event appends a record of the transaction behind its begin record. -/
def Logs (txnid : Int) : Event → Prop
  | call t _ | logTxnEnd t => t = txnid
  | _ => False

instance (txnid : Int) : DecidablePred (Logs txnid)
  | call _ _ | logTxnEnd _ => inferInstanceAs (Decidable (_ = _))
  | logTxnBeg _ | newTxnInsert _ | getPrevLogLRN _ | txnDelete _ => inferInstanceAs (Decidable False)

end Event

/-- `prev_log_LRN` of the log function that the event calls: `log_txn_end` has it as a
    parameter, the others ask the node of the transaction. -/
def prevLogLRN (s : EventLog) : Event → Option Int
  | .call t _ => getPrevLogLRN t s.headTxnList
  | .logTxnEnd t =>
    match s.phase t with
    | .left prevLRN => some prevLRN
    | _ => none
  | _ => none

/-- Where the log function writes `next_LRN` of the previous record. -/
def patchPos (f : File) (prevLRN : Int) : Int :=
  (((extractRecordNo f).2.seekSet prevLRN).seekCur (8 + 4 + 8)).tell

/-- The bytes of a begin record. -/
def beginRecord (t lrn : Int) : LogRecord := ⟨plainEntry t .txnBeg na na, lrn, -1, -1⟩

/-- The LRN of the begin record comes back as the previous LRN, and the patch of its `next_LRN`
    lies inside the record. -/
structure Survives (t lrn : Int) (f : File) (prevLRN : Int) : Prop where
  unchanged : prevLRN = lrn
  behind : lrn ≤ patchPos f prevLRN
  before : patchPos f prevLRN + 8 ≤ lrn + (beginRecord t lrn).bytes.length

variable {prior : List UInt8} {s s' s₀ s₁ s₂ : EventLog} {t t' l p : Int} {ev : Event}
  {es : List Event}

/-! ## Transactions that have not begun -/

/-- An event leaves the phase and the node of another transaction alone. -/
theorem step_other (h : step s ev = some s') (ht : t ≠ ev.txnId) :
    s'.phase t = s.phase t ∧
      getPrevLogLRN t s'.headTxnList = getPrevLogLRN t s.headTxnList := by
  cases ev with
  | logTxnBeg t' =>
    obtain ⟨-, -, rfl⟩ := step_logTxnBeg h
    exact ⟨Function.update_of_ne ht .., rfl⟩
  | newTxnInsert t' =>
    obtain ⟨_, -, rfl⟩ := step_newTxnInsert h
    exact ⟨Function.update_of_ne ht .., getPrevLogLRN_newTxnInsert ht⟩
  | call t' c =>
    obtain ⟨_, -, -, -, _, -, rfl⟩ := step_call h
    refine ⟨Function.update_of_ne ht .., ?_⟩
    exact getPrevLogLRN_updateTxn.trans (if_neg ht)
  | getPrevLogLRN t' =>
    obtain ⟨_, -, -, rfl⟩ := step_getPrevLogLRN h
    exact ⟨Function.update_of_ne ht .., rfl⟩
  | txnDelete t' =>
    obtain ⟨_, _, -, hdelete, rfl⟩ := step_txnDelete h
    exact ⟨Function.update_of_ne ht .., getPrevLogLRN_txnDelete ht hdelete⟩
  | logTxnEnd t' =>
    obtain ⟨_, -, rfl⟩ := step_logTxnEnd h
    exact ⟨Function.update_of_ne ht .., rfl⟩

/-- No event makes a transaction fresh again. -/
theorem phase_ne_fresh (h : step s ev = some s') : s'.phase ev.txnId ≠ .fresh := by
  cases ev with
  | logTxnBeg t =>
    obtain ⟨-, -, rfl⟩ := step_logTxnBeg h
    simp [setPhase, Event.txnId]
  | newTxnInsert t =>
    obtain ⟨_, -, rfl⟩ := step_newTxnInsert h
    simp [setPhase, Event.txnId]
  | call t c =>
    obtain ⟨_, -, -, -, p, hp, rfl⟩ := step_call h
    rcases hp with rfl | rfl
    · simp [setPhase, Event.txnId]
    · simp [setPhase, Event.txnId]
  | getPrevLogLRN t =>
    obtain ⟨_, -, -, rfl⟩ := step_getPrevLogLRN h
    simp [setPhase, Event.txnId]
  | txnDelete t =>
    obtain ⟨_, _, -, -, rfl⟩ := step_txnDelete h
    simp [setPhase, Event.txnId]
  | logTxnEnd t =>
    obtain ⟨_, -, rfl⟩ := step_logTxnEnd h
    simp [setPhase, Event.txnId]

/-- A transaction has no node before its begin record. -/
theorem no_node_of_fresh (hs : Reachable (globalInitWith prior) step s)
    (hfresh : s.phase t = .fresh) : getPrevLogLRN t s.headTxnList = none := by
  induction hs with
  | init => rfl
  | step _ _ hstep ih =>
    -- the event is one of another transaction
    have ht : t ≠ Event.txnId _ := fun ht => phase_ne_fresh hstep (ht ▸ hfresh)
    obtain ⟨hphase, hnode⟩ := step_other hstep ht
    rw [hnode]
    exact ih (hphase.symm.trans hfresh)

/-! ## Between the begin record and the next one -/

/-- What a transaction has made of the LRN `l` of its begin record. -/
def CarriedBy (l : Int) : LogPhase → Option Int → Prop
  | .begun logRecNo, node => logRecNo = l ∧ node = none
  | .active, node => node = some (intOfLong l)
  | .leaving prevLRN, _ | .left prevLRN, _ => prevLRN = intOfLong l
  | .fresh, _ | .closed, _ | .ended, _ => False

/-- The transaction has begun at `l` and has logged nothing since. -/
def Carries (t l : Int) (s : EventLog) : Prop :=
  CarriedBy l (s.phase t) (getPrevLogLRN t s.headTxnList)

theorem carries_of_begin (hs : Reachable (globalInitWith prior) step s)
    (h : step s (.logTxnBeg t) = some s') : Carries t (logTxnBeg t s.file).1 s' := by
  obtain ⟨hfresh, -, hs'⟩ := step_logTxnBeg h
  have hphase : s'.phase t = .begun (logTxnBeg t s.file).1 := by
    rw [hs']
    exact Function.update_self t _ s.phase
  have hnone := no_node_of_fresh hs hfresh
  have hnode : getPrevLogLRN t s'.headTxnList = none := by
    rw [hs']
    exact hnone
  rw [Carries, hphase, hnode]
  exact ⟨rfl, rfl⟩

/-- The LRN is carried on until the transaction logs its next record. -/
theorem carries_step (hc : Carries t l s) (h : step s ev = some s') (hlogs : ¬ ev.Logs t) :
    Carries t l s' := by
  by_cases ht : t = ev.txnId
  · rw [Carries, ht] at hc ⊢
    cases ev with
    | logTxnBeg t =>
      -- the transaction has begun already
      obtain ⟨hfresh, -, -⟩ := step_logTxnBeg h
      rw [Event.txnId, hfresh] at hc
      exact hc.elim
    | newTxnInsert t =>
      obtain ⟨logRecNo, hbegun, rfl⟩ := step_newTxnInsert h
      rw [Event.txnId, hbegun] at hc
      have hnode := getPrevLogLRN_newTxnInsert_self (l := intOfLong logRecNo) hc.2
      simp only [Event.txnId, setPhase, Function.update_self, hnode]
      rw [hc.1]
      rfl
    | call t c => exact absurd ht.symm hlogs
    | getPrevLogLRN t =>
      obtain ⟨prevLRN, hphase, hprev, rfl⟩ := step_getPrevLogLRN h
      simp only [Event.txnId, setPhase, Function.update_self] at hc ⊢
      rcases hphase with hphase | hphase
      · rw [hphase] at hc
        exact hc.elim
      · rw [hphase, hprev] at hc
        exact Option.some.inj hc
    | txnDelete t =>
      obtain ⟨prevLRN, ns, hleaving, -, rfl⟩ := step_txnDelete h
      rw [Event.txnId, hleaving] at hc
      simp only [Event.txnId, setPhase, Function.update_self]
      exact hc
    | logTxnEnd t => exact absurd ht.symm hlogs
  · obtain ⟨hphase, hnode⟩ := step_other h ht
    rwa [Carries, hphase, hnode]

theorem carries_run (hc : Carries t l s) (h : run step s es = some s')
    (hes : ∀ e ∈ es, ¬ e.Logs t) : Carries t l s' := by
  induction es generalizing s with
  | nil =>
    cases h
    exact hc
  | cons e es ih =>
    rw [run, runUnder, if_pos trivial] at h
    obtain ⟨s₁, hstep, hrun⟩ := Option.bind_eq_some_iff.mp h
    apply ih _ hrun fun e he => hes e (List.mem_cons_of_mem _ he)
    exact carries_step hc hstep (hes e (List.mem_cons_self ..))

/-- The next log record takes the converted LRN. -/
theorem prevLogLRN_of_carries (hc : Carries t l s) (h : step s ev = some s')
    (hlogs : ev.Logs t) : prevLogLRN s ev = some (intOfLong l) := by
  cases ev with
  | call t' c =>
    obtain rfl : t' = t := hlogs
    obtain ⟨_, hactive, -⟩ := step_call h
    rw [Carries, hactive] at hc
    exact hc
  | logTxnEnd t' =>
    obtain rfl : t' = t := hlogs
    obtain ⟨prevLRN, hleft, -⟩ := step_logTxnEnd h
    rw [Carries, hleft] at hc
    rw [prevLogLRN, hleft]
    exact congrArg some hc
  | logTxnBeg _ => exact hlogs.elim
  | newTxnInsert _ => exact hlogs.elim
  | getPrevLogLRN _ => exact hlogs.elim
  | txnDelete _ => exact hlogs.elim

/-! ## When the LRN survives -/

theorem patchPos_nat {f : File} {n : Nat} : patchPos f n = n + 20 := by
  rw [patchPos, File.seekSet_nat]
  exact congrArg File.tell (File.seekCur_nat (n := 20))

/-- The conversion keeps an offset just where it is an `int`. -/
theorem intOfLong_eq_iff {n : Nat} : intOfLong n = n ↔ n < 2 ^ 31 := by
  constructor
  · intro h
    have hlt : intOfLong n < 2 ^ 31 := by
      unfold intOfLong
      exact Int.bmod_lt (by decide)
    omega
  · intro h
    exact intOfLong_of_fits (by omega) (by omega)

theorem survives_iff {f : File} {n : Nat} : Survives t n f (intOfLong n) ↔ n < 2 ^ 31 := by
  constructor
  · intro h
    exact intOfLong_eq_iff.mp h.unchanged
  · intro h
    have hlength : (beginRecord t n).bytes.length = 66 := LogRecord.length_bytes _
    rw [intOfLong_eq_iff.mpr h]
    constructor
    case unchanged => rfl
    case behind =>
      rw [patchPos_nat]
      omega
    case before =>
      rw [patchPos_nat, hlength]
      omega

/-- **The LRN that `log_txn_beg` returns** is the previous LRN of the next record of the
    transaction, and the patch of `next_LRN` lies inside the begin record, if and only if the
    log was shorter than 2^31 bytes at the begin. -/
theorem beginLRN_survives_iff (hs : Reachable (globalInitWith prior) step s₀)
    (hbegin : step s₀ (.logTxnBeg t) = some s) (hes : ∀ e ∈ es, ¬ e.Logs t)
    (hrun : run step s es = some s₁) (hlogs : ev.Logs t) (hnext : step s₁ ev = some s₂) :
    (∃ prevLRN, prevLogLRN s₁ ev = some prevLRN ∧
      Survives t (logTxnBeg t s₀.file).1 s₁.file prevLRN) ↔ s₀.file.bytes.length < 2 ^ 31 := by
  have hcarries := carries_run (carries_of_begin hs hbegin) hrun hes
  have hprev := prevLogLRN_of_carries hcarries hnext hlogs
  -- the LRN is the length of the log
  have hlrn : (logTxnBeg t s₀.file).1 = (s₀.file.bytes.length : Int) := rfl
  rw [hprev, hlrn]
  constructor
  · rintro ⟨prevLRN, hsome, hsurvives⟩
    rw [← Option.some.inj hsome] at hsurvives
    exact survives_iff.mp hsurvives
  · intro h
    exact ⟨_, rfl, survives_iff.mpr h⟩

/-- Transaction 1 begins; before it commits, transaction 2 begins and creates a file. -/
theorem begin_and_commit (prior : List UInt8) :
    ∃ s s₁ s₂, step (globalInitWith prior) (.logTxnBeg 1) = some s ∧
      run step s [.newTxnInsert 1, .logTxnBeg 2, .newTxnInsert 2, .call 2 (.creat [97] [54])] =
        some s₁ ∧ step s₁ (.call 1 .commit) = some s₂ :=
  ⟨_, _, _, rfl, rfl, rfl⟩

theorem beginLRN_survives_iff_commit :
    ∃ s s₁ s₂, step (globalInitWith [1, 2, 3]) (.logTxnBeg 1) = some s ∧
      step s₁ (.call 1 .commit) = some s₂ ∧
      ((∃ prevLRN, prevLogLRN s₁ (.call 1 .commit) = some prevLRN ∧
        Survives 1 (logTxnBeg 1 ⟨[1, 2, 3], 0⟩).1 s₁.file prevLRN) ↔ [1, 2, 3].length < 2 ^ 31) := by
  obtain ⟨s, s₁, s₂, hbegin, hrun, hnext⟩ := begin_and_commit [1, 2, 3]
  exact ⟨s, s₁, s₂, hbegin, hnext,
    beginLRN_survives_iff .init hbegin (by decide) hrun rfl hnext⟩

/-- The log of 2^31 bytes: the node has the LRN -2^31, `fseek` fails, and the patch is written
    behind the end of the log. -/
theorem beginLRN_lost :
    ∃ prior : List UInt8, (prior.length : Int) < 2 ^ 63 ∧
      ∃ s s₁ s₂, step (globalInitWith prior) (.logTxnBeg 1) = some s ∧
        run step s [.newTxnInsert 1, .logTxnBeg 2, .newTxnInsert 2, .call 2 (.creat [97] [54])] =
          some s₁ ∧
        step s₁ (.call 1 .commit) = some s₂ ∧ (logTxnBeg 1 ⟨prior, 0⟩).1 = 2 ^ 31 ∧
        prevLogLRN s₁ (.call 1 .commit) = some (-2 ^ 31) ∧
        ¬ Survives 1 (logTxnBeg 1 ⟨prior, 0⟩).1 s₁.file (-2 ^ 31) := by
  obtain ⟨s, s₁, s₂, hbegin, hrun, hnext⟩ := begin_and_commit (List.replicate (2 ^ 31) 0)
  have hlrn : (logTxnBeg 1 ⟨List.replicate (2 ^ 31) 0, 0⟩).1 = 2 ^ 31 := by
    show ((List.replicate (2 ^ 31) (0 : UInt8)).length : Int) = 2 ^ 31
    rw [List.length_replicate]
    rfl
  have hcarries := carries_run (carries_of_begin .init hbegin) hrun (by decide)
  have hprev := prevLogLRN_of_carries hcarries hnext rfl
  refine ⟨_, ?_, s, s₁, s₂, hbegin, hrun, hnext, hlrn, ?_, ?_⟩
  · rw [List.length_replicate]
    decide
  · rw [hprev]
    exact congrArg (fun l => some (intOfLong l)) hlrn
  · intro h
    have hunchanged := h.unchanged
    rw [hlrn] at hunchanged
    omega

end EventLog

end TxFS
