import TxFS.EventLog.Undisturbed

/-!
# Interference on the Event Log

A log function and a replay move the one position of the `FILE` under each other. In runs in
which every call that relies on the position is made by the thread that has made the last call,
and in which no LRN is cut off by the `int` parameter of `new_txn_insert`, nothing is displaced.
-/

namespace TxFS

open BinaryFile GuardedRun EventLog

namespace StdioLog

/-! ## The condition -/

/-- A call that relies on the position is made when its own thread has made the last call, and
    the LRN that is passed to `new_txn_insert` is an `int`. -/
def Undisturbed (s : StdioLog) : Event → Prop
  | .appendCall => ∀ a ∈ s.append, ∀ p ∈ a.next s.file, p.1.Relative → s.last = some .append
  | .replayCall => ∀ r ∈ s.replay, ∀ p ∈ r.next, p.1.Relative → s.last = some .replay
  | .node (.newTxnInsert t) =>
    match s.phase t with
    | .begun logRecNo => logRecNo < 2 ^ 31
    | _ => True
  | _ => True

instance (s : StdioLog) : ∀ ev, Decidable (s.Undisturbed ev)
  | .appendCall => inferInstanceAs (Decidable (∀ a ∈ s.append, ∀ p ∈ a.next s.file, _ → _))
  | .replayCall => inferInstanceAs (Decidable (∀ r ∈ s.replay, ∀ p ∈ r.next, _ → _))
  | .node (.newTxnInsert t) => by
    show Decidable (match s.phase t with | .begun logRecNo => logRecNo < 2 ^ 31 | _ => True)
    split <;> infer_instance
  | .node (.getPrevLogLRN _) | .node (.txnDelete _) | .lock _ | .unlock | .delayed _ _
  | .replayed => inferInstanceAs (Decidable True)

/-! ## The invariant -/

/-- The LRNs that the threads know are those of records in the log. -/
structure Known (s : StdioLog) (rs : List LogRecord) : Prop where
  nodes : ∀ n ∈ s.headTxnList, HasLRN rs n.lastLRN
  phase : ∀ t l, (s.phase t = .begun l ∨ s.phase t = .leaving l ∨ s.phase t = .left l) →
    HasLRN rs l
  writesAt : ∀ p ∈ s.writesAt, ∃ t ∈ rs, t.LRN = p.2 ∧ t.toEntry = p.1.entry

/-- The log consists of the records `rs` and of `part`, the beginning of the next one. -/
structure Inv (prior : List UInt8) (s : StdioLog) (rs : List LogRecord) (part : List UInt8) :
    Prop where
  bytes : s.file.bytes = prior ++ encode rs ++ part
  records : Records prior rs
  known : Known s rs
  idle : s.append = none → part = []
  append : ∀ a, s.append = some a → AppendInv rs (prior ++ encode rs).length part a
  appendPos : ∀ a, s.append = some a → s.last = some .append →
    AppendPos (prior ++ encode rs).length part a s.file.pos
  replay : ∀ r, s.replay = some r → ReplayInv rs r
  replayPos : ∀ r, s.replay = some r → s.last = some .replay → ReplayPos r s.file.pos

section

variable {prior part : List UInt8} {rs rs' : List LogRecord} {s s' : StdioLog} {fn : LogFn}
  {t l : Int} {ns ns' : List TxnNode}

theorem inv_globalInit : Inv prior (globalInit prior) [] [] where
  bytes := by simp [globalInit]
  records := ⟨trivial, by simp⟩
  known := ⟨by simp [globalInit, EventLog.globalInit], by simp [globalInit, EventLog.globalInit],
    by simp [globalInit]⟩
  idle _ := rfl
  append := by simp [globalInit]
  appendPos := by simp [globalInit]
  replay := by simp [globalInit]
  replayPos := by simp [globalInit]

theorem Known.extend (h : Known s rs) (hrs : Extends rs rs') : Known s rs' where
  nodes n hn := (h.nodes n hn).extend hrs
  phase t l hl := (h.phase t l hl).extend hrs
  writesAt p hp := by
    obtain ⟨r, hr, hlrn, hentry⟩ := h.writesAt p hp
    obtain ⟨r', hr', hlrn', hentry'⟩ := hrs r hr
    exact ⟨r', hr', hlrn'.trans hlrn, hentry'.trans hentry⟩

/-- An event off the file that tells the threads nothing wrong. -/
theorem Inv.of_known (h : Inv prior s rs part) (hknown : Known s' rs) (hfile : s'.file = s.file)
    (happend : s'.append = s.append) (hreplay : s'.replay = s.replay) (hlast : s'.last = s.last) :
    Inv prior s' rs part where
  bytes := by rw [hfile]; exact h.bytes
  records := h.records
  known := hknown
  idle := by rw [happend]; exact h.idle
  append := by rw [happend]; exact h.append
  appendPos := by rw [happend, hlast, hfile]; exact h.appendPos
  replay := by rw [hreplay]; exact h.replay
  replayPos := by rw [hreplay, hlast, hfile]; exact h.replayPos

/-! ### The list of live transactions -/

theorem mem_newTxnInsert {n : TxnNode} (h : n ∈ newTxnInsert t l ns) :
    n = getTxnNode t l ∨ n ∈ ns :=
  List.mem_cons.mp (newTxnInsert_perm.mem_iff.mp h)

theorem mem_txnDelete {n : TxnNode} (hdelete : txnDelete t ns = some ns') (h : n ∈ ns') :
    n ∈ ns := by
  obtain ⟨_, -, hperm⟩ := txnDelete_perm hdelete
  exact hperm.mem_iff.mpr (List.mem_cons_of_mem _ h)

theorem lastLRN_updateTxn {n : TxnNode} (h : n ∈ EventLog.updateTxn t l ns) :
    n ∈ ns ∨ n.lastLRN = l := by
  induction ns with
  | nil => exact .inl h
  | cons m ns ih =>
    rw [EventLog.updateTxn, TxFS.updateTxn] at h
    split at h
    · rcases List.mem_cons.mp h with rfl | h
      · exact .inr rfl
      · exact .inl (List.mem_cons_of_mem _ h)
    · rcases List.mem_cons.mp h with rfl | h
      · exact .inl (List.mem_cons_self ..)
      · exact (ih h).imp_left (List.mem_cons_of_mem _)

/-- The phase of one thread changes. -/
theorem Known.phase_update {q : LogPhase} (h : Known s rs)
    (hphase : s'.phase = Function.update s.phase t q)
    (hq : ∀ l, (q = .begun l ∨ q = .leaving l ∨ q = .left l) → HasLRN rs l) (t' l : Int)
    (hl : s'.phase t' = .begun l ∨ s'.phase t' = .leaving l ∨ s'.phase t' = .left l) :
    HasLRN rs l := by
  rw [hphase] at hl
  by_cases ht : t' = t
  · rw [ht, Function.update_self] at hl
    exact hq l hl
  · rw [Function.update_of_ne ht] at hl
    exact h.phase t' l hl

/-! ### One event -/

theorem Inv.node {ev : NodeEvent} (h : Inv prior s rs part) (hok : s.Undisturbed (.node ev))
    (hstep : step s (.node ev) = some s') : Inv prior s' rs part := by
  simp only [step] at hstep
  split at hstep
  · cases hstep
  obtain ⟨log, hlog, rfl⟩ := Option.map_eq_some_iff.mp hstep
  cases ev with
  | newTxnInsert t =>
    obtain ⟨logRecNo, hbegun, rfl⟩ := step_newTxnInsert hlog
    have hlrn := h.known.phase t logRecNo (.inl hbegun)
    -- the parameter keeps the LRN
    have hnonneg := h.records.nonneg hlrn
    have hint : intOfLong logRecNo = logRecNo := by
      apply intOfLong_of_fits (by omega)
      simpa only [Undisturbed, hbegun] using hok
    refine h.of_known ⟨?_, ?_, h.known.writesAt⟩ rfl rfl rfl rfl
    · intro n hn
      rcases mem_newTxnInsert hn with rfl | hn
      · exact hint.symm ▸ hlrn
      · exact h.known.nodes n hn
    · exact h.known.phase_update rfl (by simp)
  | getPrevLogLRN t =>
    obtain ⟨prevLRN, -, hprev, rfl⟩ := step_getPrevLogLRN hlog
    obtain ⟨n, hn, rfl⟩ := Option.map_eq_some_iff.mp hprev
    refine h.of_known ⟨h.known.nodes, ?_, h.known.writesAt⟩ rfl rfl rfl rfl
    apply h.known.phase_update rfl
    intro l hl
    simp only [reduceCtorEq, LogPhase.leaving.injEq, false_or, or_false] at hl
    exact hl ▸ h.known.nodes n (searchTxn_mem hn)
  | txnDelete t =>
    obtain ⟨prevLRN, ns, hleaving, hdelete, rfl⟩ := step_txnDelete hlog
    refine h.of_known ⟨?_, ?_, h.known.writesAt⟩ rfl rfl rfl rfl
    · intro n hn
      exact h.known.nodes n (mem_txnDelete hdelete hn)
    · apply h.known.phase_update rfl
      intro l hl
      simp only [reduceCtorEq, LogPhase.left.injEq, false_or] at hl
      exact hl ▸ h.known.phase t prevLRN (.inr (.inl hleaving))

/-- A function that starts has an LRN of the log, if it has one. -/
theorem enter_spec {prevLRN : Option Int} (h : Known s rs) (henter : s.enter fn = some prevLRN) :
    (∀ p, prevLRN = some p → HasLRN rs p) ∧
      fn.entry.data.length < 2 ^ 64 ∧ fn.entry.data1.length < 2 ^ 64 := by
  have hna : na.length < 2 ^ 64 := by decide
  cases fn with
  | logTxnBeg t =>
    simp only [enter, Option.ite_none_right_eq_some] at henter
    cases henter.2
    exact ⟨by simp, hna, hna⟩
  | logRecord type t fd offset data data1 =>
    simp only [enter, Option.ite_none_right_eq_some] at henter
    obtain ⟨⟨-, -, -, hdata, hdata1⟩, hprev⟩ := henter
    refine ⟨?_, hdata, hdata1⟩
    intro p hp
    obtain ⟨q, hq, rfl⟩ := Option.map_eq_some_iff.mp hprev
    obtain ⟨n, hn, rfl⟩ := Option.map_eq_some_iff.mp hq
    cases hp
    exact h.nodes n (searchTxn_mem hn)
  | logTxnEnd t =>
    simp only [enter] at henter
    split at henter
    · rename_i prevLRN hleft
      cases henter
      refine ⟨?_, hna, hna⟩
      intro p hp
      cases hp
      exact h.phase t prevLRN (.inr (.inr hleft))
    · cases henter

theorem Inv.lock (h : Inv prior s rs part) (hstep : step s (.lock fn) = some s') :
    Inv prior s' rs part := by
  obtain ⟨prevLRN, henter, hstep⟩ := Option.bind_eq_some_iff.mp hstep
  split at hstep
  · rename_i hfree
    cases hstep
    obtain ⟨hprev, hdata, hdata1⟩ := enter_spec h.known henter
    have hpart := h.idle (Option.isNone_iff_eq_none.mp hfree.1)
    exact {
      h with
      known := ⟨h.known.nodes, h.known.phase, h.known.writesAt⟩
      idle := fun hnone => nomatch hnone
      append := by
        rintro a ⟨⟩
        exact ⟨hdata, hdata1, hprev, hpart, rfl⟩
      appendPos := by
        rintro a ⟨⟩ -
        trivial }
  · cases hstep

theorem Inv.appendCall (h : Inv prior s rs part) (hok : s.Undisturbed .appendCall)
    (hstep : step s .appendCall = some s') : ∃ rs' part', Inv prior s' rs' part' := by
  obtain ⟨a, ha, hstep⟩ := Option.bind_eq_some_iff.mp hstep
  obtain ⟨⟨c, stage⟩, hnext, hstep⟩ := Option.bind_eq_some_iff.mp hstep
  cases hstep
  have hpos : c.Relative → AppendPos (prior ++ encode rs).length part a s.file.pos :=
    fun hc => h.appendPos a ha (hok a ha (c, stage) hnext hc)
  obtain ⟨rs', part', hrecords, hextends, hbytes, happend, hat⟩ :=
    append_call h.records h.bytes (h.append a ha) hnext hpos
  have hknown := h.known.extend hextends
  refine ⟨rs', part', hbytes, hrecords, ⟨hknown.nodes, hknown.phase, hknown.writesAt⟩,
    (fun hnone => nomatch hnone), ?_, ?_, ?_, (fun _ _ hlast => nomatch hlast)⟩
  · rintro a' ⟨⟩
    exact happend
  · rintro a' ⟨⟩ -
    exact hat
  · intro r hr
    exact (h.replay r hr).extend hextends

/-- What the threads know behind a log function. -/
theorem Known.leave (h : Known s rs) (hl : ∃ r ∈ rs, r.LRN = l ∧ r.toEntry = fn.entry) :
    Known (s.leave l fn) rs := by
  have hlrn : HasLRN rs l := by
    obtain ⟨r, hr, hrl, -⟩ := hl
    exact ⟨r, hr, hrl⟩
  cases fn with
  | logTxnBeg t =>
    refine ⟨h.nodes, ?_, h.writesAt⟩
    apply h.phase_update rfl
    intro l' hl'
    simp only [reduceCtorEq, LogPhase.begun.injEq, or_false] at hl'
    exact hl' ▸ hlrn
  | logRecord type t fd offset data data1 =>
    have hnodes : ∀ n ∈ EventLog.updateTxn t l s.headTxnList, HasLRN rs n.lastLRN := by
      intro n hn
      rcases lastLRN_updateTxn hn with hn | hn
      · exact h.nodes n hn
      · exact hn ▸ hlrn
    simp only [StdioLog.leave]
    split
    · exact ⟨hnodes, h.phase_update rfl (by simp), h.writesAt⟩
    · refine ⟨hnodes, h.phase, ?_⟩
      intro p hp
      rcases List.mem_append.mp hp with hp | hp
      · exact h.writesAt p hp
      · rw [List.mem_singleton.mp hp]
        exact hl
  | logTxnEnd t => exact ⟨h.nodes, h.phase_update rfl (by simp), h.writesAt⟩

@[simp] theorem leave_file : (s.leave l fn).file = s.file := by
  cases fn with
  | logTxnBeg t => rfl
  | logRecord type t fd offset data data1 => simp only [leave]; split <;> rfl
  | logTxnEnd t => rfl

@[simp] theorem leave_append : (s.leave l fn).append = none := by
  cases fn with
  | logTxnBeg t => rfl
  | logRecord type t fd offset data data1 => simp only [leave]; split <;> rfl
  | logTxnEnd t => rfl

@[simp] theorem leave_replay : (s.leave l fn).replay = s.replay := by
  cases fn with
  | logTxnBeg t => rfl
  | logRecord type t fd offset data data1 => simp only [leave]; split <;> rfl
  | logTxnEnd t => rfl

@[simp] theorem leave_last : (s.leave l fn).last = s.last := by
  cases fn with
  | logTxnBeg t => rfl
  | logRecord type t fd offset data data1 => simp only [leave]; split <;> rfl
  | logTxnEnd t => rfl

/-- The record is complete. -/
theorem Inv.unlock (h : Inv prior s rs part) (hstep : step s .unlock = some s') :
    ∃ rs', Inv prior s' rs' [] := by
  obtain ⟨a, ha, hstep⟩ := Option.bind_eq_some_iff.mp hstep
  split at hstep
  · rename_i logLRN hstage
    cases hstep
    obtain ⟨hdata, hdata1, -, hdone⟩ := h.append a ha
    rw [AppendDone, hstage] at hdone
    obtain ⟨hl, done, hfields, hpart, -⟩ := hdone
    rw [List.append_nil] at hfields
    have hbytes : s.file.bytes =
        prior ++ encode (rs ++ [a.fn.record a.prevLRN logLRN]) ++ [] := by
      rw [h.bytes, hpart, ← hfields, encode_append, encode_cons, encode_nil]
      simp [LogRecord.bytes]
    have hextends : Extends rs (rs ++ [a.fn.record a.prevLRN logLRN]) := extends_snoc
    refine ⟨rs ++ [a.fn.record a.prevLRN logLRN], ?_, h.records.snoc hl hdata hdata1, ?_,
      fun _ => rfl, ?_, ?_, ?_, ?_⟩
    · rw [leave_file]
      exact hbytes
    · exact (h.known.extend hextends).leave
        ⟨a.fn.record a.prevLRN logLRN, by simp, rfl, rfl⟩
    · rw [leave_append]
      exact fun _ hnone => nomatch hnone
    · rw [leave_append]
      exact fun _ hnone => nomatch hnone
    · rw [leave_replay]
      intro r hr
      exact (h.replay r hr).extend hextends
    · rw [leave_replay, leave_last, leave_file]
      exact h.replayPos
  · cases hstep

theorem Inv.delayed (h : Inv prior s rs part) (hstep : step s (.delayed fn l) = some s') :
    Inv prior s' rs part := by
  simp only [step] at hstep
  split at hstep
  · rename_i type t fd offset data data1
    obtain ⟨⟨off, sizes⟩, hdelayed, hstep⟩ := Option.bind_eq_some_iff.mp hstep
    split at hstep
    · rename_i hguard
      cases hstep
      obtain ⟨r, hr, hlrn, hentry⟩ := h.known.writesAt _ hguard.2.2.1
      have hlengths := h.records.lengths r hr
      rw [hentry] at hlengths
      obtain ⟨hwithin, hfits⟩ := delayed_fits hdelayed hlengths.1 hlengths.2
      exact {
        h with
        known := ⟨h.known.nodes, h.known.phase, h.known.writesAt⟩
        replay := by
          rintro r' ⟨⟩
          exact ⟨⟨r, hr, hlrn, hentry⟩, hwithin, rfl, hfits⟩
        replayPos := by
          rintro r' ⟨⟩ -
          trivial }
    · cases hstep
  · cases hstep

theorem Inv.replayCall (h : Inv prior s rs part) (hok : s.Undisturbed .replayCall)
    (hstep : step s .replayCall = some s') : Inv prior s' rs part := by
  obtain ⟨r, hr, hstep⟩ := Option.bind_eq_some_iff.mp hstep
  obtain ⟨⟨c, stage⟩, hnext, hstep⟩ := Option.bind_eq_some_iff.mp hstep
  cases hstep
  have hpos : c.Relative → ReplayPos r s.file.pos :=
    fun hc => h.replayPos r hr (hok r hr (c, stage) hnext hc)
  obtain ⟨hbytes, hreplay, hat⟩ := replay_call h.records h.bytes (h.replay r hr) hnext hpos
  refine ⟨hbytes.trans h.bytes, h.records, ⟨h.known.nodes, h.known.phase, h.known.writesAt⟩,
    h.idle, h.append, (fun _ _ hlast => nomatch hlast), ?_, ?_⟩
  · rintro r' ⟨⟩
    exact hreplay
  · rintro r' ⟨⟩ -
    exact hat

theorem Inv.replayed (h : Inv prior s rs part) (hstep : step s .replayed = some s') :
    Inv prior s' rs part := by
  obtain ⟨r, -, hstep⟩ := Option.bind_eq_some_iff.mp hstep
  split at hstep
  · cases hstep
    exact {
      h with
      known := ⟨h.known.nodes, h.known.phase, h.known.writesAt⟩
      replay := fun _ hnone => nomatch hnone
      replayPos := fun _ hnone => nomatch hnone }
  · cases hstep

/-- The invariant holds in every run whose calls find the positions they rely on. -/
theorem inv_of_reachable
    (hs : ReachableUnder (globalInit prior) step Undisturbed s) :
    ∃ rs part, Inv prior s rs part := by
  induction hs with
  | init => exact ⟨[], [], inv_globalInit⟩
  | @step s s' ev _ hok hstep ih =>
    obtain ⟨rs, part, h⟩ := ih
    cases ev with
    | node ev => exact ⟨rs, part, h.node hok hstep⟩
    | lock fn => exact ⟨rs, part, h.lock hstep⟩
    | appendCall => exact h.appendCall hok hstep
    | unlock =>
      obtain ⟨rs', h'⟩ := h.unlock hstep
      exact ⟨rs', [], h'⟩
    | delayed fn l => exact ⟨rs, part, h.delayed hstep⟩
    | replayCall => exact ⟨rs, part, h.replayCall hok hstep⟩
    | replayed => exact ⟨rs, part, h.replayed hstep⟩

/-- **Undisturbed calls**: in a run in which no call of another thread comes between a call that
    leaves a position and the call of the same thread that relies on it, and in which
    `new_txn_insert` gets LRNs that are `int`s, the log functions write at the offsets that they
    have computed, and the replays read the records of their LRNs. -/
theorem reads_and_writes_in_place
    (hs : ReachableUnder (globalInit prior) step Undisturbed s) :
    (∀ a ∈ s.append, a.InPlace) ∧ ∀ r ∈ s.replay, r.OwnRecord := by
  obtain ⟨rs, part, h⟩ := inv_of_reachable hs
  constructor
  · intro a ha
    exact (h.append a ha).inPlace
  · intro r hr
    exact (h.replay r hr).ownRecord

end

/-- The calls of a log function up to the last `fwrite`, when it has no previous record, and when
    it has one. -/
def firstCalls : List Event := List.replicate 14 .appendCall

def linkedCalls : List Event := List.replicate 17 .appendCall

/-- Transaction 1 creates a file and commits. -/
def creatAndCommit : List Event :=
  [.lock (.logTxnBeg 1)] ++ firstCalls ++ [.unlock, .node (.newTxnInsert 1),
    .lock (.logRecord .creat 1 (-1) (-1) [97, 0] [54, 0])] ++ linkedCalls ++
  [.unlock, .lock (.logRecord .txnCommit 1 (-1) (-1) na na)] ++ linkedCalls ++ [.unlock]

/-- Transaction 2 begins while the creation is replayed. -/
theorem reads_and_writes_in_place_two_threads :
    ∃ s : StdioLog, (∃ r ∈ s.replay, r.reads.length = 4) ∧ (∃ a ∈ s.append, a.Finished) ∧
      (∀ a ∈ s.append, a.InPlace) ∧ ∀ r ∈ s.replay, r.OwnRecord := by
  obtain ⟨s, hs, hreplay, happend⟩ := exists_of_runUnder (globalInit []) step Undisturbed
    (fun s => (∃ r ∈ s.replay, r.reads.length = 4) ∧ ∃ a ∈ s.append, a.Finished)
    (creatAndCommit ++ [.delayed (.logRecord .creat 1 (-1) (-1) [97, 0] [54, 0]) 66,
      .lock (.logTxnBeg 2), .appendCall, .appendCall] ++ List.replicate 6 .replayCall ++
      List.replicate 12 .appendCall)
    (by decide +kernel)
  exact ⟨s, hreplay, happend, reads_and_writes_in_place hs⟩

/-- The begin of transaction 2 and the replay move the position under each other. -/
theorem reads_and_writes_displaced :
    ∃ s, Reachable (globalInit []) step s ∧
      (∃ r ∈ s.replay, ¬ r.OwnRecord) ∧ ∃ a ∈ s.append, ¬ a.InPlace :=
  exists_of_run (globalInit []) step
    (fun s => (∃ r ∈ s.replay, ¬ r.OwnRecord) ∧ ∃ a ∈ s.append, ¬ a.InPlace)
    (creatAndCommit ++ [.delayed (.logRecord .creat 1 (-1) (-1) [97, 0] [54, 0]) 66,
      .lock (.logTxnBeg 2), .appendCall, .appendCall, .appendCall, .replayCall, .replayCall,
      .appendCall, .replayCall])
    (by decide +kernel)

end StdioLog

end TxFS
