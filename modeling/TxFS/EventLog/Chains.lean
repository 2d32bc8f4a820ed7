import TxFS.EventLog.Writers

/-!
# Chains of Log Records

The event log is a sequence of well-formed records: the LRN of a record is its offset, and the
records of a transaction are doubly linked. Every log function appends one record and relinks
the last record of its transaction, and leaves the chains of the others alone.

`wellFormed_of_reachable` is the invariant of the machine, `readLog_reachable` what the
sequential reader therefore finds.
-/

namespace TxFS

open BinaryFile GuardedRun

namespace EventLog

/-! ## Well-formed sequences of records -/

/-- The records of a transaction, in order. -/
def chain (t : Int) (rs : List LogRecord) : List LogRecord := rs.filter fun r => r.txnId = t

/-- `prev_LRN` and `next_LRN` link the records, the first one back to `p`. -/
def Linked : Int → List LogRecord → Prop
  | _, [] => True
  | p, [r] => r.prevLRN = p ∧ r.nextLRN = -1
  | p, r :: r' :: rs => r.prevLRN = p ∧ r.nextLRN = r'.LRN ∧ Linked r.LRN (r' :: rs)

/-- The LRN of every record is its offset; the first record is at `n`. -/
def Offsets : Nat → List LogRecord → Prop
  | _, [] => True
  | n, r :: rs => r.LRN = n ∧ Offsets (n + r.bytes.length) rs

structure WellFormed (rs : List LogRecord) : Prop where
  inRange : ∀ r ∈ rs, r.InRange
  offsets : Offsets 0 rs
  linked : ∀ t, Linked (-1) (chain t rs)

/-- `last_LRN` of a transaction, as the log has it. -/
def lastLRN (t : Int) (rs : List LogRecord) : Option Int :=
  (chain t rs).getLast?.map LogRecord.LRN

section

variable {t : Int} {rs pre post : List LogRecord} {r r' new : LogRecord}
  {l : Int} {n : Nat}

theorem chain_append : chain t (pre ++ post) = chain t pre ++ chain t post := List.filter_append ..

theorem chain_cons_self (hr : r.txnId = t) : chain t (r :: rs) = r :: chain t rs := by
  simp [chain, hr]

theorem chain_cons_ne (hr : r.txnId ≠ t) : chain t (r :: rs) = chain t rs := by
  simp [chain, hr]

theorem offsets_append :
    Offsets n (pre ++ post) ↔ Offsets n pre ∧ Offsets (n + (encode pre).length) post := by
  induction pre generalizing n with
  | nil => simp [Offsets]
  | cons r pre ih =>
    rw [List.cons_append, Offsets, Offsets, ih, encode_cons, List.length_append, Nat.add_assoc,
      and_assoc]

/-- The LRN of a record is the number of bytes in front of it. -/
theorem Offsets.LRN_eq (h : Offsets n (pre ++ r :: post)) :
    r.LRN = (n + (encode pre).length : Nat) := (offsets_append.mp h).2.1

/-- No record lies in front of the first one. -/
theorem Offsets.le_LRN (h : Offsets n rs) (hr : r ∈ rs) : n ≤ r.LRN := by
  obtain ⟨pre, post, rfl⟩ := List.append_of_mem hr
  rw [h.LRN_eq]
  omega

/-- No two records have one LRN. -/
theorem Offsets.eq_of_LRN (h : Offsets n rs) (hr : r ∈ rs) (hr' : r' ∈ rs) (heq : r.LRN = r'.LRN) :
    r = r' := by
  induction rs generalizing n with
  | nil => cases hr
  | cons a rs ih =>
    obtain ⟨ha, hrs⟩ := h
    have hlength := a.length_bytes
    -- a record behind `a` has a larger LRN
    rcases List.mem_cons.mp hr with hra | hmem <;> rcases List.mem_cons.mp hr' with hra' | hmem'
    · exact hra.trans hra'.symm
    · have hle := hrs.le_LRN hmem'
      subst hra
      omega
    · have hle := hrs.le_LRN hmem
      subst hra'
      omega
    · exact ih hrs hmem hmem'

theorem WellFormed.LRN_eq (h : WellFormed (pre ++ r :: post)) : r.LRN = (encode pre).length := by
  have hr := h.offsets.LRN_eq
  rwa [Nat.zero_add] at hr

/-- The last record of a transaction, with no record of the transaction behind it. -/
theorem lastLRN_split (h : lastLRN t rs = some l) :
    ∃ pre r post, rs = pre ++ r :: post ∧ r.txnId = t ∧ r.LRN = l ∧ chain t post = [] := by
  induction rs with
  | nil => simp [lastLRN, chain] at h
  | cons r rs ih =>
    by_cases hrs : chain t rs = []
    · -- the record is the first one, or there is none
      by_cases hr : r.txnId = t
      · rw [lastLRN, chain_cons_self hr, hrs] at h
        exact ⟨[], r, rs, rfl, hr, Option.some.inj h, hrs⟩
      · rw [lastLRN, chain_cons_ne hr, hrs] at h
        cases h
    · have hlast : lastLRN t rs = some l := by
        by_cases hr : r.txnId = t
        · rw [lastLRN, chain_cons_self hr, List.getLast?_cons_of_ne_nil hrs] at h
          exact h
        · rwa [lastLRN, chain_cons_ne hr] at h
      obtain ⟨pre, r', post, rfl, htxn, hlrn, hpost⟩ := ih hlast
      exact ⟨r :: pre, r', post, rfl, htxn, hlrn, hpost⟩

theorem lastLRN_eq_none : lastLRN t rs = none ↔ chain t rs = [] := by
  simp [lastLRN]

/-- A last record lies in the file. -/
theorem WellFormed.lastLRN_bound (h : WellFormed rs) (hl : lastLRN t rs = some l) :
    0 ≤ l ∧ l < (encode rs).length := by
  obtain ⟨pre, r, post, rfl, -, rfl, -⟩ := lastLRN_split hl
  have hlength := r.length_bytes
  rw [h.LRN_eq, encode_append, encode_cons]
  simp only [List.length_append]
  omega

/-- A transaction with a record has an id of its type. -/
theorem WellFormed.isInt_of_lastLRN (h : WellFormed rs) (hl : lastLRN t rs = some l) :
    IsInt t := by
  obtain ⟨pre, r, post, rfl, rfl, -, -⟩ := lastLRN_split hl
  exact (h.inRange r (by simp)).txnId

/-! ## Appending -/

/-- The last record of a chain is linked to a new one. -/
theorem linked_snoc {p : Int} {cs : List LogRecord} (h : Linked p (cs ++ [r]))
    (hprev : new.prevLRN = r.LRN) (hnext : new.nextLRN = -1) :
    Linked p (cs ++ [{ r with nextLRN := new.LRN }, new]) := by
  induction cs generalizing p with
  | nil => exact ⟨h.1, rfl, hprev, hnext⟩
  | cons c cs ih =>
    cases cs with
    | nil =>
      -- the change of `next_LRN` keeps the LRN that `c` points to
      obtain ⟨hc, hcnext, hr⟩ := h
      exact ⟨hc, hcnext, ih hr⟩
    | cons c' cs =>
      obtain ⟨hc, hcnext, hrest⟩ := h
      exact ⟨hc, hcnext, ih hrest⟩

/-- What the append of a record for `e` at the LRN `l` makes of the records. -/
structure Appended (e : Entry) (l : Int) (rs rs' : List LogRecord) : Prop where
  wellFormed : WellFormed rs'
  entries : rs'.map LogRecord.toEntry = rs.map LogRecord.toEntry ++ [e]
  last : lastLRN e.txnId rs' = some l
  others : ∀ t, t ≠ e.txnId → chain t rs' = chain t rs

/-- The values of an entry are of the types of their fields. -/
structure Entry.InRange (e : Entry) : Prop where
  txnId : IsInt e.txnId
  recordType : IsInt e.recordType
  fd : IsInt e.fd
  offset : IsLong e.offset

/-- The new record is in range where it lies in a file of less than 2^31 bytes. -/
theorem inRange_new {e : Entry} {prev : Int} {k : Nat} (he : e.InRange) (hprev : IsLong prev)
    (hsize : k + (LogRecord.bytes ⟨e, k, prev, -1⟩).length < 2 ^ 31) :
    LogRecord.InRange ⟨e, k, prev, -1⟩ := by
  rw [LogRecord.length_bytes] at hsize
  exact {
    LRN := by
      show IsLong k
      unfold IsLong
      omega
    txnId := he.txnId
    prevLRN := hprev
    nextLRN := (by decide : IsLong (-1))
    recordType := he.recordType
    fd := he.fd
    offset := he.offset
    data := by
      simp only at hsize ⊢
      omega
    data1 := by
      simp only at hsize ⊢
      omega }

/-- The first record of a transaction. -/
theorem appended_first {e : Entry} (hrs : WellFormed rs) (he : e.InRange)
    (hfirst : lastLRN e.txnId rs = none) (hnew : new = ⟨e, (encode rs).length, -1, -1⟩)
    (hsize : (encode (rs ++ [new])).length < 2 ^ 31) :
    Appended e (encode rs).length rs (rs ++ [new]) := by
  have hnone := lastLRN_eq_none.mp hfirst
  have htxn : new.txnId = e.txnId := by rw [hnew]
  have hchain : chain e.txnId (rs ++ [new]) = [new] := by
    rw [chain_append, hnone, chain_cons_self htxn]
    rfl
  have hother : ∀ t, t ≠ e.txnId → chain t (rs ++ [new]) = chain t rs := by
    intro t ht
    rw [chain_append, chain_cons_ne (by rw [htxn]; exact ht.symm)]
    exact List.append_nil _
  rw [encode_append, encode_cons, encode_nil, List.append_nil, List.length_append] at hsize
  constructor
  case wellFormed =>
    constructor
    · intro r hr
      rcases List.mem_append.mp hr with hr | hr
      · exact hrs.inRange r hr
      · rw [List.mem_singleton.mp hr, hnew]
        exact inRange_new he (by decide) (by rwa [hnew] at hsize)
    · refine offsets_append.mpr ⟨hrs.offsets, ?_, trivial⟩
      rw [hnew, Nat.zero_add]
    · intro t
      by_cases ht : t = e.txnId
      · rw [ht, hchain, hnew]
        exact ⟨rfl, rfl⟩
      · rw [hother t ht]
        exact hrs.linked t
  case entries =>
    rw [List.map_append, hnew]
    rfl
  case last =>
    rw [lastLRN, hchain, hnew]
    rfl
  case others =>
    exact hother

/-- A write at the `next_LRN` of a record changes this record only. -/
theorem write_nextLRN {f : File} {xs ys : List UInt8} (hf : f.bytes = xs ++ r.bytes ++ ys)
    (hpos : f.pos = xs.length + 20) :
    (f.write (intBytes 8 l)).bytes = xs ++ LogRecord.bytes { r with nextLRN := l } ++ ys := by
  obtain ⟨before, after, hlength, hold, hnew⟩ := r.bytes_nextLRN l
  have hfile : f =
      ⟨(xs ++ before) ++ intBytes 8 r.nextLRN ++ (after ++ ys), (xs ++ before).length⟩ := by
    show File.mk f.bytes f.pos = _
    rw [hf, hpos, hold, List.length_append, hlength]
    simp
  rw [hfile, File.write_patch (by simp), hnew]
  simp

/-- The assignment to `next_LRN` of the previous record. -/
theorem patchNext_bytes {f : File} (hf : f.bytes = encode (pre ++ r :: post))
    (hr : r.LRN = (encode pre).length) :
    (patchNext f r.LRN l).bytes = encode (pre ++ { r with nextLRN := l } :: post) := by
  have hseek : (f.seekSet r.LRN).seekCur (8 + 4 + 8) = ⟨f.bytes, (encode pre).length + 20⟩ := by
    rw [hr, File.seekSet_nat]
    exact File.seekCur_nat (n := 20)
  have hbytes : File.bytes ⟨f.bytes, (encode pre).length + 20⟩ =
      encode pre ++ r.bytes ++ encode post := by
    show f.bytes = _
    rw [hf]
    simp
  rw [patchNext, hseek, write_nextLRN hbytes rfl]
  simp

/-! ### Relinking

`r'` is the record `r` with another `next_LRN`, `new` the record it then points to. -/

theorem chain_relink_self (hr : r'.txnId = t) (hnew : new.txnId = t) (hpost : chain t post = []) :
    chain t ((pre ++ r' :: post) ++ [new]) = chain t pre ++ [r', new] := by
  rw [chain_append, chain_append, chain_cons_self hr, hpost, chain_cons_self hnew]
  simp [chain]

theorem chain_relink_other (hr : r.txnId ≠ t) (hr' : r'.txnId ≠ t) (hnew : new.txnId ≠ t) :
    chain t ((pre ++ r' :: post) ++ [new]) = chain t (pre ++ r :: post) := by
  rw [chain_append, chain_append, chain_append, chain_cons_ne hr, chain_cons_ne hr',
    chain_cons_ne hnew]
  exact List.append_nil _

/-- Another record of the same length and with the same LRN. -/
theorem offsets_replace (h : Offsets n (pre ++ r :: post)) (hlrn : r'.LRN = r.LRN)
    (hlength : r'.bytes.length = r.bytes.length) : Offsets n (pre ++ r' :: post) := by
  obtain ⟨hpre, hoff, hrest⟩ := offsets_append.mp h
  refine offsets_append.mpr ⟨hpre, hlrn.trans hoff, ?_⟩
  rwa [hlength]

theorem offsets_snoc (h : Offsets n rs) (hnew : new.LRN = (n + (encode rs).length : Nat)) :
    Offsets n (rs ++ [new]) := offsets_append.mpr ⟨h, hnew, trivial⟩

theorem offsets_relink (h : Offsets n (pre ++ r :: post)) (hlrn : r'.LRN = r.LRN)
    (hlength : r'.bytes.length = r.bytes.length)
    (hnew : new.LRN = (n + (encode (pre ++ r :: post)).length : Nat)) :
    Offsets n ((pre ++ r' :: post) ++ [new]) := by
  apply offsets_snoc (offsets_replace h hlrn hlength)
  rw [hnew]
  simp [hlength]

/-- A further record of a transaction, behind its last record `r`. -/
theorem appended_linked {e : Entry} (hrs : WellFormed (pre ++ r :: post)) (he : e.InRange)
    (hr : r.txnId = e.txnId) (hpost : chain e.txnId post = [])
    (hnew : new = ⟨e, (encode (pre ++ r :: post)).length, r.LRN, -1⟩)
    (hr' : r' = { r with nextLRN := new.LRN })
    (hsize : (encode (pre ++ r :: post) ++ new.bytes).length < 2 ^ 31) :
    Appended e (encode (pre ++ r :: post)).length (pre ++ r :: post)
      ((pre ++ r' :: post) ++ [new]) := by
  have hnewTxn : new.txnId = e.txnId := by rw [hnew]
  have hrTxn : r'.txnId = r.txnId := by rw [hr']
  have hrange := hrs.inRange r (by simp)
  have hnewRange : new.InRange := by
    rw [List.length_append, hnew] at hsize
    rw [hnew]
    exact inRange_new he hrange.LRN hsize
  have hself : chain e.txnId ((pre ++ r' :: post) ++ [new]) = chain e.txnId pre ++ [r', new] :=
    chain_relink_self (hrTxn.trans hr) hnewTxn hpost
  have hother : ∀ t, t ≠ e.txnId →
      chain t ((pre ++ r' :: post) ++ [new]) = chain t (pre ++ r :: post) := by
    intro t ht
    apply chain_relink_other
    · rw [hr]
      exact ht.symm
    · rw [hrTxn, hr]
      exact ht.symm
    · rw [hnewTxn]
      exact ht.symm
  constructor
  case wellFormed =>
    constructor
    · intro r'' hr''
      simp only [List.mem_append, List.mem_cons, List.not_mem_nil, or_false] at hr''
      rcases hr'' with (hmem | rfl | hmem) | rfl
      · exact hrs.inRange r'' (by simp [hmem])
      · rw [hr']
        exact { hrange with nextLRN := hnewRange.LRN }
      · exact hrs.inRange r'' (by simp [hmem])
      · exact hnewRange
    · apply offsets_relink hrs.offsets
      · rw [hr']
      · -- the changed record has the length of the old one
        rw [hr', LogRecord.length_bytes, LogRecord.length_bytes]
      · rw [hnew, Nat.zero_add]
    · intro t
      by_cases ht : t = e.txnId
      · have hlinked := hrs.linked e.txnId
        rw [chain_append, chain_cons_self hr, hpost] at hlinked
        rw [ht, hself, hr']
        exact linked_snoc hlinked (by rw [hnew]) (by rw [hnew])
      · rw [hother t ht]
        exact hrs.linked t
  case entries =>
    rw [hnew, hr']
    simp
  case last =>
    rw [lastLRN, hself, hnew]
    simp
  case others =>
    exact hother

/-! ## The log functions -/

variable {f : File} {e : Entry} {p : Int}

theorem logTxnBeg_appended (hf : f.bytes = encode rs) (hrs : WellFormed rs) (ht : IsInt t)
    (hfirst : lastLRN t rs = none) (hsize : (logTxnBeg t f).2.bytes.length < 2 ^ 31) :
    ∃ rs', (logTxnBeg t f).2.bytes = encode rs' ∧
      Appended (plainEntry t .txnBeg na na) (logTxnBeg t f).1 rs rs' := by
  have hlrn : (logTxnBeg t f).1 = (encode rs).length := by
    rw [← hf]
    rfl
  have hbytes : (logTxnBeg t f).2.bytes =
      encode (rs ++ [⟨plainEntry t .txnBeg na na, (encode rs).length, -1, -1⟩]) := by
    show (appendRecord f.seekEnd ⟨plainEntry t .txnBeg na na, (logTxnBeg t f).1, -1, -1⟩).bytes = _
    rw [hlrn, appendRecord_bytes, File.bytes_seekEnd, hf, encode_append, encode_cons, encode_nil,
      List.append_nil]
  have he : (plainEntry t .txnBeg na na).InRange :=
    ⟨ht, LogType.isInt_code .txnBeg, (by decide : IsInt (-1)), (by decide : IsLong (-1))⟩
  refine ⟨_, hbytes, ?_⟩
  rw [hlrn]
  rw [hbytes] at hsize
  exact appended_first hrs he hfirst rfl hsize

theorem logLinked_appended (hf : f.bytes = encode rs) (hrs : WellFormed rs) (he : e.InRange)
    (hlast : lastLRN e.txnId rs = some p) (hsize : (logLinked e p f).2.bytes.length < 2 ^ 31) :
    ∃ rs', (logLinked e p f).2.bytes = encode rs' ∧ Appended e (logLinked e p f).1 rs rs' := by
  obtain ⟨pre, r, post, rfl, htxn, rfl, hpost⟩ := lastLRN_split hlast
  have hlrn : (logLinked e r.LRN f).1 = (encode (pre ++ r :: post)).length := by
    rw [← hf]
    rfl
  have hseek : f.seekEnd.bytes = encode (pre ++ r :: post) := hf
  have hbytes : (logLinked e r.LRN f).2.bytes =
      encode (pre ++ { r with nextLRN := (logLinked e r.LRN f).1 } :: post) ++
        LogRecord.bytes ⟨e, (logLinked e r.LRN f).1, r.LRN, -1⟩ := by
    show (appendRecord (patchNext f.seekEnd r.LRN f.seekEnd.tell) _).bytes = _
    rw [appendRecord_bytes, patchNext_bytes hseek hrs.LRN_eq]
    rfl
  have hlength : (encode (pre ++ { r with nextLRN := (logLinked e r.LRN f).1 } :: post)).length =
      (encode (pre ++ r :: post)).length := by
    simp [LogRecord.length_bytes]
  rw [hbytes, List.length_append, hlength, ← List.length_append] at hsize
  refine ⟨(pre ++ { r with nextLRN := (logLinked e r.LRN f).1 } :: post) ++
    [⟨e, (logLinked e r.LRN f).1, r.LRN, -1⟩], ?_, ?_⟩
  · rw [hbytes]
    simp
  · rw [hlrn] at hsize ⊢
    exact appended_linked hrs he htxn hpost rfl rfl hsize

/-! ## The list of live transactions -/

section

variable {ns ns' : List TxnNode} {t' : Int}

theorem getPrevLogLRN_updateTxn :
    getPrevLogLRN t' (updateTxn t l ns) =
      if t' = t then (getPrevLogLRN t ns).map (fun _ => l) else getPrevLogLRN t' ns := by
  have h : searchTxn t' (TxFS.updateTxn t (fun n => { n with lastLRN := l }) ns) = _ :=
    searchTxn_updateTxn fun _ => rfl
  rw [getPrevLogLRN, updateTxn, h]
  split
  · simp [getPrevLogLRN, Function.comp_def]
  · rfl

/-- A new node is found where there was none with its id. -/
theorem getPrevLogLRN_newTxnInsert_self (h : getPrevLogLRN t ns = none) :
    getPrevLogLRN t (newTxnInsert t l ns) = some l := by
  have hsearch : searchTxn t ns = none := Option.map_eq_none_iff.mp h
  rw [getPrevLogLRN, searchTxn_newTxnInsert_self hsearch]
  rfl

theorem getPrevLogLRN_newTxnInsert (ht : t' ≠ t) :
    getPrevLogLRN t' (newTxnInsert t l ns) = getPrevLogLRN t' ns :=
  congrArg (Option.map TxnNode.lastLRN) (searchTxn_newTxnInsert ht)

theorem getPrevLogLRN_txnDelete (ht : t' ≠ t) (h : txnDelete t ns = some ns') :
    getPrevLogLRN t' ns' = getPrevLogLRN t' ns :=
  congrArg (Option.map TxnNode.lastLRN) (searchTxn_txnDelete ht h)

end

/-! ## The invariant -/

/-- What a phase says about the last record of its transaction and about its node. -/
def PhaseOk : LogPhase → Option Int → Option Int → Prop
  | .fresh, last, node => last = none ∧ node = none
  | .begun logRecNo, last, node => last = some logRecNo ∧ node = none
  | .active, last, node | .closed, last, node => last.isSome ∧ node = last
  | .leaving prevLRN, last, _ | .left prevLRN, last, _ => last = some prevLRN
  | .ended, _, _ => True

/-- The log consists of the records `rs`. -/
structure Inv (s : EventLog) (rs : List LogRecord) : Prop where
  bytes : s.file.bytes = encode rs
  wellFormed : WellFormed rs
  history : rs.map LogRecord.toEntry = s.history
  phase : ∀ t, PhaseOk (s.phase t) (lastLRN t rs) (getPrevLogLRN t s.headTxnList)

theorem inv_globalInit : Inv globalInit [] where
  bytes := rfl
  wellFormed := ⟨by simp, trivial, fun _ => trivial⟩
  history := rfl
  phase _ := ⟨rfl, rfl⟩

end

/-! ## What a step does -/

section

variable {s s' : EventLog} {c : Call}

theorem step_logTxnBeg (h : step s (.logTxnBeg t) = some s') :
    s.phase t = .fresh ∧ IsInt t ∧
      s' = { s.setPhase t (.begun (logTxnBeg t s.file).1) with
        file := (logTxnBeg t s.file).2
        history := s.history ++ [plainEntry t .txnBeg na na] } := by
  simp only [step] at h
  split at h
  · rename_i hguard
    exact ⟨hguard.1, hguard.2, (Option.some.inj h).symm⟩
  · cases h

theorem step_newTxnInsert (h : step s (.newTxnInsert t) = some s') :
    ∃ logRecNo, s.phase t = .begun logRecNo ∧
      s' = { s.setPhase t .active with
        headTxnList := newTxnInsert t (intOfLong logRecNo) s.headTxnList } := by
  simp only [step] at h
  split at h
  · rename_i logRecNo hphase
    exact ⟨logRecNo, hphase, (Option.some.inj h).symm⟩
  · cases h

/-- A call appends its record behind the one that the node of its transaction knows. -/
theorem step_call (h : step s (.call t c) = some s') :
    ∃ prevLRN, s.phase t = .active ∧ c.Valid ∧ getPrevLogLRN t s.headTxnList = some prevLRN ∧
      ∃ p, (p = .active ∨ p = .closed) ∧
        s' = { s.setPhase t p with
          file := (logLinked (c.entry t) prevLRN s.file).2
          headTxnList := updateTxn t (logLinked (c.entry t) prevLRN s.file).1 s.headTxnList
          history := s.history ++ [c.entry t] } := by
  obtain ⟨p, hafter, h⟩ := Option.bind_eq_some_iff.mp h
  have hp : p = .active ∨ p = .closed := by
    cases c <;> simp only [Call.after, Option.ite_none_right_eq_some, Option.some.injEq] at hafter
    case commit => exact .inr hafter.2.symm
    case abort => exact .inr hafter.2.symm
    all_goals exact .inl hafter.symm
  split at h
  · rename_i hguard
    rw [Call.log_eq, logRecord, Call.entry_txnId] at h
    obtain ⟨⟨ns, f⟩, hlog, h⟩ := Option.bind_eq_some_iff.mp h
    obtain ⟨prevLRN, hprev, hlog⟩ := Option.bind_eq_some_iff.mp hlog
    cases hlog
    exact ⟨prevLRN, hguard.1, hguard.2, hprev, p, hp, (Option.some.inj h).symm⟩
  · cases h

theorem step_getPrevLogLRN (h : step s (.getPrevLogLRN t) = some s') :
    ∃ prevLRN, (s.phase t = .closed ∨ s.phase t = .active) ∧
      getPrevLogLRN t s.headTxnList = some prevLRN ∧ s' = s.setPhase t (.leaving prevLRN) := by
  simp only [step] at h
  split at h
  · rename_i hguard
    obtain ⟨prevLRN, hprev, h⟩ := Option.bind_eq_some_iff.mp h
    exact ⟨prevLRN, hguard.imp_right And.left, hprev, (Option.some.inj h).symm⟩
  · cases h

theorem step_txnDelete (h : step s (.txnDelete t) = some s') :
    ∃ prevLRN ns, s.phase t = .leaving prevLRN ∧ txnDelete t s.headTxnList = some ns ∧
      s' = { s.setPhase t (.left prevLRN) with headTxnList := ns } := by
  simp only [step] at h
  split at h
  · rename_i prevLRN hphase
    obtain ⟨ns, hdelete, h⟩ := Option.bind_eq_some_iff.mp h
    exact ⟨prevLRN, ns, hphase, hdelete, (Option.some.inj h).symm⟩
  · cases h

theorem step_logTxnEnd (h : step s (.logTxnEnd t) = some s') :
    ∃ prevLRN, s.phase t = .left prevLRN ∧
      s' = { s.setPhase t .ended with
        file := (logTxnEnd t prevLRN s.file).2
        history := s.history ++ [plainEntry t .txnEnd na na] } := by
  simp only [step] at h
  split at h
  · rename_i prevLRN hphase
    exact ⟨prevLRN, hphase, (Option.some.inj h).symm⟩
  · cases h

/-! ### The size of the log -/

theorem length_le_appendRecord (r : LogRecord) :
    f.bytes.length ≤ (appendRecord f r).bytes.length := by
  rw [appendRecord_bytes, List.length_append]
  exact Nat.le_add_right ..

theorem length_le_logLinked : f.bytes.length ≤ (logLinked e p f).2.bytes.length := by
  have hpatch : f.bytes.length ≤ (patchNext f.seekEnd p f.seekEnd.tell).bytes.length := by
    have hwrite : ((f.seekEnd.seekSet p).seekCur (8 + 4 + 8)).bytes.length ≤
        (patchNext f.seekEnd p f.seekEnd.tell).bytes.length := File.length_le_write
    rwa [File.bytes_seekCur, File.bytes_seekSet, File.bytes_seekEnd] at hwrite
  exact Nat.le_trans hpatch (length_le_appendRecord _)

/-- The log never shrinks. -/
theorem length_le_step {ev : Event} (h : step s ev = some s') :
    s.file.bytes.length ≤ s'.file.bytes.length := by
  cases ev with
  | logTxnBeg t =>
    obtain ⟨-, -, rfl⟩ := step_logTxnBeg h
    exact length_le_appendRecord (f := s.file.seekEnd) _
  | newTxnInsert t =>
    obtain ⟨_, -, rfl⟩ := step_newTxnInsert h
    exact Nat.le_refl _
  | call t c =>
    obtain ⟨_, -, -, -, _, -, rfl⟩ := step_call h
    exact length_le_logLinked
  | getPrevLogLRN t =>
    obtain ⟨_, -, -, rfl⟩ := step_getPrevLogLRN h
    exact Nat.le_refl _
  | txnDelete t =>
    obtain ⟨_, _, -, -, rfl⟩ := step_txnDelete h
    exact Nat.le_refl _
  | logTxnEnd t =>
    obtain ⟨_, -, rfl⟩ := step_logTxnEnd h
    exact length_le_logLinked

end

/-! ## The invariant of the machine -/

section

variable {s s' : EventLog} {rs' : List LogRecord}

/-- An event changes the phase of one transaction; the log has no news for the others, and
    neither has the list of live transactions. -/
theorem Inv.phase_update {q : LogPhase} (h : Inv s rs)
    (hphase : s'.phase = Function.update s.phase t q)
    (hlast : ∀ t', t' ≠ t → chain t' rs' = chain t' rs)
    (hnode : ∀ t', t' ≠ t → getPrevLogLRN t' s'.headTxnList = getPrevLogLRN t' s.headTxnList)
    (ht : PhaseOk q (lastLRN t rs') (getPrevLogLRN t s'.headTxnList)) (t' : Int) :
    PhaseOk (s'.phase t') (lastLRN t' rs') (getPrevLogLRN t' s'.headTxnList) := by
  by_cases htt : t' = t
  · rw [htt, hphase, Function.update_self]
    exact ht
  · rw [hphase, Function.update_of_ne htt, lastLRN, hlast t' htt, hnode t' htt]
    exact h.phase t'

theorem Call.inRange_entry {c : Call} (ht : IsInt t) (hc : c.Valid) : (c.entry t).InRange := by
  have hminus : IsInt (-1) ∧ IsLong (-1) := by decide
  cases c with
  | write fd offset writeLength data =>
    exact ⟨ht, LogType.isInt_code .update, hc.1, hc.2.1⟩
  | rename _ _ => exact ⟨ht, LogType.isInt_code .rename, hminus.1, hminus.2⟩
  | creat _ _ => exact ⟨ht, LogType.isInt_code .creat, hminus.1, hminus.2⟩
  | unlink _ => exact ⟨ht, LogType.isInt_code .unlink, hminus.1, hminus.2⟩
  | commit => exact ⟨ht, LogType.isInt_code .txnCommit, hminus.1, hminus.2⟩
  | abort => exact ⟨ht, LogType.isInt_code .txnAbort, hminus.1, hminus.2⟩

theorem Inv.step {ev : Event} (h : Inv s rs) (hstep : step s ev = some s')
    (hsize : s'.file.bytes.length < 2 ^ 31) : ∃ rs', Inv s' rs' := by
  cases ev with
  | logTxnBeg t =>
    obtain ⟨hfresh, ht, rfl⟩ := step_logTxnBeg hstep
    have hphase := h.phase t
    rw [hfresh] at hphase
    obtain ⟨rs', hbytes, happ⟩ := logTxnBeg_appended h.bytes h.wellFormed ht hphase.1 hsize
    refine ⟨rs', hbytes, happ.wellFormed, ?_, ?_⟩
    · rw [happ.entries, h.history]
    · exact h.phase_update rfl happ.others (fun _ _ => rfl) ⟨happ.last, hphase.2⟩
  | newTxnInsert t =>
    obtain ⟨logRecNo, hbegun, rfl⟩ := step_newTxnInsert hstep
    have hphase := h.phase t
    rw [hbegun] at hphase
    -- the LRN fits into the `int` parameter
    have hbound := h.wellFormed.lastLRN_bound hphase.1
    rw [← h.bytes] at hbound
    have hlow : -2 ^ 31 ≤ logRecNo := by
      have hnonneg := hbound.1
      omega
    have hint : intOfLong logRecNo = logRecNo :=
      intOfLong_of_fits hlow (hbound.2.trans (by exact_mod_cast hsize))
    have hnode := getPrevLogLRN_newTxnInsert_self (l := intOfLong logRecNo) hphase.2
    refine ⟨rs, h.bytes, h.wellFormed, h.history, ?_⟩
    refine h.phase_update rfl (fun _ _ => rfl) (fun _ ht' => getPrevLogLRN_newTxnInsert ht') ?_
    rw [hnode, hint, hphase.1]
    exact ⟨rfl, rfl⟩
  | call t c =>
    obtain ⟨prevLRN, hactive, hc, hprev, q, hq, rfl⟩ := step_call hstep
    have hphase := h.phase t
    rw [hactive] at hphase
    have hlast : lastLRN t rs = some prevLRN := hphase.2.symm.trans hprev
    have he := Call.inRange_entry (h.wellFormed.isInt_of_lastLRN hlast) hc
    rw [← c.entry_txnId t] at hlast
    obtain ⟨rs', hbytes, happ⟩ := logLinked_appended h.bytes h.wellFormed he hlast hsize
    have hlast' := happ.last
    have hothers := happ.others
    rw [c.entry_txnId] at hlast' hothers
    refine ⟨rs', hbytes, happ.wellFormed, ?_, ?_⟩
    · rw [happ.entries, h.history]
    · refine h.phase_update rfl hothers ?_ ?_
      · intro t' ht'
        rw [getPrevLogLRN_updateTxn, if_neg ht']
      · rw [getPrevLogLRN_updateTxn, if_pos rfl, hprev, hlast']
        rcases hq with rfl | rfl
        · exact ⟨rfl, rfl⟩
        · exact ⟨rfl, rfl⟩
  | getPrevLogLRN t =>
    obtain ⟨prevLRN, hclosed, hprev, rfl⟩ := step_getPrevLogLRN hstep
    have hlast : lastLRN t rs = some prevLRN := by
      have hphase := h.phase t
      rcases hclosed with hclosed | hclosed <;> rw [hclosed] at hphase
      · exact hphase.2.symm.trans hprev
      · exact hphase.2.symm.trans hprev
    refine ⟨rs, h.bytes, h.wellFormed, h.history, ?_⟩
    exact h.phase_update rfl (fun _ _ => rfl) (fun _ _ => rfl) hlast
  | txnDelete t =>
    obtain ⟨prevLRN, ns, hleaving, hdelete, rfl⟩ := step_txnDelete hstep
    have hphase := h.phase t
    rw [hleaving] at hphase
    refine ⟨rs, h.bytes, h.wellFormed, h.history, ?_⟩
    exact h.phase_update rfl (fun _ _ => rfl)
      (fun _ ht' => getPrevLogLRN_txnDelete ht' hdelete) hphase
  | logTxnEnd t =>
    obtain ⟨prevLRN, hleft, rfl⟩ := step_logTxnEnd hstep
    have hlast := h.phase t
    rw [hleft] at hlast
    have he : (plainEntry t .txnEnd na na).InRange :=
      ⟨h.wellFormed.isInt_of_lastLRN hlast, LogType.isInt_code .txnEnd,
        (by decide : IsInt (-1)), (by decide : IsLong (-1))⟩
    obtain ⟨rs', hbytes, happ⟩ := logLinked_appended h.bytes h.wellFormed he hlast hsize
    refine ⟨rs', hbytes, happ.wellFormed, ?_, ?_⟩
    · rw [happ.entries, h.history]
    · exact h.phase_update rfl happ.others (fun _ _ => rfl) trivial

/-- **The event log is well formed** in every reachable state. -/
theorem inv_of_reachable (hs : Reachable globalInit EventLog.step s)
    (hsize : s.file.bytes.length < 2 ^ 31) : ∃ rs, Inv s rs := by
  induction hs with
  | init => exact ⟨[], inv_globalInit⟩
  | step _ _ hstep ih =>
    -- the log was not longer before the step
    obtain ⟨rs, hinv⟩ := ih (Nat.lt_of_le_of_lt (length_le_step hstep) hsize)
    exact hinv.step hstep hsize

end

/-! ## What the sequential reader finds -/

/-- **The sequential reader** decodes the whole log into the records that were appended, in
    the order of the appends; the LRN of a record is the number of bytes in front of it, and
    the records of every transaction form a doubly linked chain. -/
theorem readLog_reachable {s : EventLog} (hs : Reachable globalInit step s)
    (hsize : s.file.bytes.length < 2 ^ 31) :
    encode (readLog ⟨s.file.bytes, 0⟩) = s.file.bytes ∧
    (readLog ⟨s.file.bytes, 0⟩).map LogRecord.toEntry = s.history ∧
    (∀ (pre : List LogRecord) (r : LogRecord) (post : List LogRecord),
      readLog ⟨s.file.bytes, 0⟩ = pre ++ r :: post → r.LRN = (encode pre).length) ∧
    ∀ t, Linked (-1) ((readLog ⟨s.file.bytes, 0⟩).filter fun r => r.txnId = t) := by
  obtain ⟨rs, hinv⟩ := inv_of_reachable hs hsize
  have hread : readLog ⟨s.file.bytes, 0⟩ = rs := by
    apply readLog_encode hinv.wellFormed.inRange
    exact hinv.bytes
  rw [hread]
  refine ⟨hinv.bytes.symm, hinv.history, ?_, hinv.wellFormed.linked⟩
  rintro pre r post rfl
  exact hinv.wellFormed.LRN_eq

/-- Two transactions, interleaved. -/
theorem readLog_reachable_interleaved :
    ∃ s : EventLog, s.history.map (fun e => (e.txnId, e.recordType)) =
        [(1, 1), (2, 1), (1, 4), (2, 2), (1, 6)] ∧
      encode (readLog ⟨s.file.bytes, 0⟩) = s.file.bytes ∧
      (readLog ⟨s.file.bytes, 0⟩).map LogRecord.toEntry = s.history ∧
      (∀ (pre : List LogRecord) (r : LogRecord) (post : List LogRecord),
        readLog ⟨s.file.bytes, 0⟩ = pre ++ r :: post → r.LRN = (encode pre).length) ∧
      ∀ t, Linked (-1) ((readLog ⟨s.file.bytes, 0⟩).filter fun r => r.txnId = t) := by
  obtain ⟨s, hs, hsize, hhistory⟩ := exists_of_run globalInit step
    (fun s => s.file.bytes.length < 2 ^ 31 ∧ s.history.map (fun e => (e.txnId, e.recordType)) =
      [(1, 1), (2, 1), (1, 4), (2, 2), (1, 6)])
    [.logTxnBeg 1, .newTxnInsert 1, .logTxnBeg 2, .newTxnInsert 2, .call 1 (.creat [97] [54]),
      .call 2 (.write 3 0 2 [65, 66]), .call 1 .commit]
    (by decide +kernel)
  exact ⟨s, hhistory, readLog_reachable hs hsize⟩

end EventLog

end TxFS
