import TxFS.Commit.Replay

/-!
# What a Commit Performs

The release loop of a commit works through the records of the transaction in the order in
which they were locked. Each logged operation is performed exactly once, with the first of
its directories, and within a directory the operations are performed in LRN order. LRN order
over all directories is not kept.
-/

namespace TxFS

open LinkedPath FirstOccurrence GuardedRun

namespace Server

variable {s s' s₁ s₂ : Server} {t : Int} {a : Addr} {start : Option Addr} {rest as : List Addr}
  {acts : List Act}

/-! ## The release loop -/

/-- The write lists of the records `as`, one after the other. -/
def writesOf (s : Server) (as : List Addr) : List WriteRecord :=
  as.flatMap fun a => (s.cell a).writesAt

theorem writesOf_cons (s : Server) (a : Addr) (as : List Addr) :
    s.writesOf (a :: as) = (s.cell a).writesAt ++ s.writesOf as :=
  List.flatMap_cons ..

/-- What the release loop of a commit relies on for the records `as` still to be released. -/
structure ReplayReady (s : Server) (start : Option Addr) (as : List Addr) : Prop where
  path : IsPath (fun b => (s.cell b).nextTxn) start as
  mem : ∀ a ∈ as, a ∈ s.table.allocated
  nodup : s.table.allocated.Nodup
  prev : s.table.HasPrev
  fuel : as.length < s.table.brk + 1
  sorted : ∀ a ∈ as, (s.cell a).writesAt.Pairwise fun w w' => w.LRN < w'.LRN
  flags : ∀ a ∈ as, (s.cell a).writesAt ≠ [] → (s.cell a).flags ≠ 0
  record : ∀ w ∈ s.writesOf as,
    ∃ r, s.recordAt w.LRN = some r ∧ r.LRN = w.LRN ∧ r.call.Fits w.writeLength
  count : ∀ w ∈ s.writesOf as, (s.writesOf as).countP (fun v => v.LRN = w.LRN) = copies w

theorem nodup_lrn {ws : List WriteRecord} (h : ws.Pairwise fun w w' => w.LRN < w'.LRN) :
    (ws.map WriteRecord.LRN).Nodup := by
  apply List.Pairwise.map WriteRecord.LRN _ h
  intro w w' hlt heq
  omega

/-- The LRN of a write record occurs once in its own list. -/
theorem countP_own {ws : List WriteRecord} {w : WriteRecord} (h : (ws.map WriteRecord.LRN).Nodup)
    (hw : w ∈ ws) : ws.countP (fun v => v.LRN = w.LRN) = 1 := by
  have hcount : (ws.map WriteRecord.LRN).count w.LRN = 1 :=
    List.count_eq_one_of_mem h (List.mem_map_of_mem hw)
  rw [← hcount, List.count, List.countP_map]
  apply List.countP_congr
  intro v _
  simp

/-- The first record can be replayed. -/
theorem ReplayReady.directory (h : ReplayReady s start (a :: rest)) :
    DirectoryReady s a rest (s.cell a).writesAt := by
  have honce := nodup_lrn (h.sorted a (List.mem_cons_self ..))
  constructor
  · exact h.path.2
  · have hfuel := h.fuel
    rw [List.length_cons] at hfuel
    omega
  · exact (List.nodup_cons.mp h.path.nodup).1
  · exact honce
  · intro w hw
    exact h.record w (List.mem_append_left _ hw)
  · intro w hw
    have hcount := h.count w (List.mem_append_left _ hw)
    rw [writesOf_cons, List.countP_append, countP_own honce hw, Nat.add_comm] at hcount
    exact hcount

/-- A release only closes descriptors. -/
theorem closeOnSuccess_namespace (waited : Bool) (fd : Int) :
    (closeOnSuccess waited fd).toList.filter Act.isNamespace = [] := by
  by_cases hclose : if waited then fd ≠ 0 else fd > 0
  · rw [closeOnSuccess, if_pos hclose]
    rfl
  · rw [closeOnSuccess, if_neg hclose]
    rfl

/-- What the release of `a` leaves of the records `rest` behind it, after the write records with
    the LRNs `ls` have been dropped from their lists. -/
structure ReleasedHead (s : Server) (a : Addr) (rest : List Addr) (ls : List Int) (s' : Server) :
    Prop where
  nextTxn : ∀ b ∈ rest, (s'.cell b).nextTxn = (s.cell b).nextTxn
  flags : ∀ b ∈ rest, (s'.cell b).flags = (s.cell b).flags
  writes : ∀ b ∈ rest, (s'.cell b).writesAt = (s.cell b).writesAt.filter fun v => v.LRN ∉ ls
  allocated : s'.table.allocated = s.table.allocated.erase a
  prev : s'.table.HasPrev
  brk : s'.table.brk = s.table.brk
  eventLog : s'.eventLog = s.eventLog
  headTxnList : s'.headTxnList = s.headTxnList

/-- **The release of one record** of a commit goes through and only closes descriptors. -/
theorem releaseRecord_head {cells : Addr → FileLock} {ls : List Int} {ws : List WriteRecord}
    (hprev : s.table.HasPrev) (hnd : s.table.allocated.Nodup) (hmem : a ∈ s.table.allocated)
    (hrest : a ∉ rest) (ha : cells a = { s.cell a with writesAt := ws })
    (hcells : ∀ b ≠ a, cells b = { s.cell b with
      writesAt := if b ∈ rest then (s.cell b).writesAt.filter fun v => v.LRN ∉ ls
        else (s.cell b).writesAt }) :
    ∃ s₂ rel, releaseRecord closeOnSuccess
        { s with table := { s.table with cells := cells } } a = some (s₂, rel) ∧
      rel.filter Act.isNamespace = [] ∧ ReleasedHead s a rest ls s₂ := by
  let s₁ : Server := { s with table := { s.table with cells := cells } }
  have hprev₁ : s₁.table.HasPrev := by
    apply hprev.of_cells
    · intro b hb
      exact hb
    · intro b _ hb
      show (cells b).prev ≠ none
      by_cases hba : b = a
      · subst hba
        rw [ha]
        exact hb
      · rw [hcells b hba]
        exact hb
  have hsome : ∃ s₂ rel, releaseRecord closeOnSuccess s₁ a = some (s₂, rel) :=
    releaseRecord_isSome hprev₁ hmem
  obtain ⟨s₂, rel, hrel⟩ := hsome
  have hspec := releaseRecord_spec hrel
  obtain ⟨hdel, table, handles, thread, rfl⟩ := hspec.frame
  -- the later records keep everything but the dropped write records
  have hne : ∀ b ∈ rest, b ≠ a := fun b hb hba => hrest (hba ▸ hb)
  have hkept : ∀ b ∈ rest, (table.cells b).nextTxn = (s.cell b).nextTxn ∧
      (table.cells b).flags = (s.cell b).flags ∧
      (table.cells b).writesAt = (s.cell b).writesAt.filter fun v => v.LRN ∉ ls := by
    intro b hb
    obtain ⟨-, -, -, hflags, -, hnext, hwrites⟩ :=
      FileLock.content_fields (hdel.content b (hne b hb))
    have hcell := hcells b (hne b hb)
    rw [if_pos hb] at hcell
    refine ⟨hnext.trans ?_, hflags.trans ?_, hwrites.trans ?_⟩
    · show (cells b).nextTxn = _
      rw [hcell]
    · show (cells b).flags = _
      rw [hcell]
    · show (cells b).writesAt = _
      rw [hcell]
  refine ⟨_, rel, hrel, ?_, ?_⟩
  · cases hspec with
    | quiet => exact closeOnSuccess_namespace ..
    | unlinked => exact closeOnSuccess_namespace ..
    | woken => exact closeOnSuccess_namespace ..
  · exact {
      nextTxn := fun b hb => (hkept b hb).1
      flags := fun b hb => (hkept b hb).2.1
      writes := fun b hb => (hkept b hb).2.2
      allocated := hdel.allocated
      prev := hspec.hasPrev hprev₁ hnd
      brk := hdel.brk
      eventLog := rfl
      headTxnList := rfl }

/-- The lists behind the released record, one after the other. -/
theorem ReleasedHead.writesOf {ls : List Int} (h : ReleasedHead s a rest ls s') :
    s'.writesOf rest = (s.writesOf rest).filter fun v => v.LRN ∉ ls :=
  flatMap_filter_writes h.writes

/-- **One record of a commit**: its operations are performed and the record is released. -/
theorem ReplayReady.step (h : ReplayReady s start (a :: rest)) :
    ∃ s₁ s₂ rel, s.performWrites a = some (s₁, s.actsAt (s.cell a).writesAt) ∧
      releaseRecord closeOnSuccess s₁ a = some (s₂, rel) ∧ rel.filter Act.isNamespace = [] ∧
      ReplayReady s₂ (s₁.cell a).nextTxn rest ∧ s₂.eventLog = s.eventLog ∧
      s₂.headTxnList = s.headTxnList ∧
      s₂.writesOf rest =
        (s.writesOf rest).filter fun v => v.LRN ∉ (s.cell a).writesAt.map WriteRecord.LRN := by
  have hdir := h.directory
  obtain ⟨_, hperform, cells, rfl, ha, hcells⟩ :=
    performWrites_spec hdir (h.flags a (List.mem_cons_self ..))
  let ls := (s.cell a).writesAt.map WriteRecord.LRN
  let s₁ : Server := { s with table := { s.table with cells := cells } }
  obtain ⟨s₂, rel, hrel, hclose, hhead⟩ := releaseRecord_head h.prev h.nodup
    (h.mem a (List.mem_cons_self ..)) hdir.notMem ha hcells
  have hne : ∀ b ∈ rest, b ≠ a := fun b hb hba => hdir.notMem (hba ▸ hb)
  have hwrites : s₂.writesOf rest = (s.writesOf rest).filter fun v => v.LRN ∉ ls :=
    hhead.writesOf
  have hnext : (s₁.cell a).nextTxn = (s.cell a).nextTxn := by
    show (cells a).nextTxn = _
    rw [ha]
  refine ⟨s₁, s₂, rel, hperform, hrel, hclose, ?_, hhead.eventLog, hhead.headTxnList, hwrites⟩
  constructor
  case path =>
    rw [hnext]
    exact h.path.2.congr hhead.nextTxn
  case mem =>
    intro b hb
    rw [hhead.allocated]
    exact (List.mem_erase_of_ne (hne b hb)).mpr (h.mem b (List.mem_cons_of_mem _ hb))
  case nodup =>
    rw [hhead.allocated]
    exact h.nodup.erase a
  case prev =>
    exact hhead.prev
  case fuel =>
    rw [hhead.brk]
    exact Nat.lt_of_succ_lt h.fuel
  case sorted =>
    intro b hb
    rw [hhead.writes b hb]
    exact (h.sorted b (List.mem_cons_of_mem _ hb)).filter _
  case flags =>
    intro b hb hnil
    rw [hhead.flags b hb]
    apply h.flags b (List.mem_cons_of_mem _ hb)
    intro hempty
    apply hnil
    rw [hhead.writes b hb, hempty]
    rfl
  case record =>
    intro w hw
    rw [hwrites] at hw
    obtain ⟨r, hr, hrest⟩ := h.record w (List.mem_append_right _ (List.mem_of_mem_filter hw))
    exact ⟨r, (recordAt_congr hhead.eventLog).trans hr, hrest⟩
  case count =>
    intro w hw
    rw [hwrites] at hw ⊢
    obtain ⟨hmem, hls⟩ := List.mem_filter.mp hw
    have hls' : w.LRN ∉ ls := of_decide_eq_true hls
    rw [countP_filter_writes hls', ← h.count w (List.mem_append_right _ hmem), writesOf_cons,
      List.countP_append]
    -- the released list has no copy of `w`
    have hzero : (s.cell a).writesAt.countP (fun v => v.LRN = w.LRN) = 0 := by
      rw [List.countP_eq_zero]
      intro v hv hvw
      exact hls' (of_decide_eq_true hvw ▸ List.mem_map_of_mem hv)
    rw [hzero, Nat.zero_add]

/-- The operations of a list depend on the log only. -/
theorem actsAt_congr (h : s'.eventLog = s.eventLog) (ws : List WriteRecord) :
    s'.actsAt ws = s.actsAt ws := by
  unfold actsAt
  simp only [recordAt_congr h]

theorem actsAt_namespace (s : Server) (ws : List WriteRecord) :
    (s.actsAt ws).filter Act.isNamespace = s.actsAt ws := by
  rw [List.filter_eq_self]
  intro act hact
  obtain ⟨w, -, hact⟩ := List.mem_flatMap.mp hact
  cases hr : s.recordAt w.LRN with
  | none =>
    rw [hr] at hact
    cases hact
  | some r =>
    rw [hr] at hact
    exact acts_namespace r act hact

/-- **The release loop of a commit**: it performs the first occurrences in the write lists. -/
theorem releaseLoop_replay {fuel : Nat} (hfuel : as.length < fuel) (h : ReplayReady s start as) :
    ∃ s' acts, releaseLoop performWrites closeOnSuccess fuel s start = some (s', acts) ∧
      acts.filter Act.isNamespace = s.actsAt (firsts WriteRecord.LRN (s.writesOf as)) ∧
      s'.headTxnList = s.headTxnList := by
  induction as generalizing s start fuel with
  | nil =>
    obtain ⟨fuel, rfl⟩ := Nat.exists_eq_succ_of_ne_zero (Nat.ne_of_gt hfuel)
    have hstart : start = none := h.path
    subst hstart
    exact ⟨s, [], rfl, rfl, rfl⟩
  | cons a rest ih =>
    obtain ⟨fuel, rfl⟩ := Nat.exists_eq_succ_of_ne_zero (Nat.ne_of_gt (Nat.zero_lt_of_lt hfuel))
    have hstart : start = some a := h.path.1
    subst hstart
    obtain ⟨s₁, s₂, rel, hperform, hrel, hclose, hready, hlog, hns, hwrites⟩ := h.step
    obtain ⟨s', acts, hloop, hacts, hns'⟩ := ih (Nat.lt_of_succ_lt_succ hfuel) hready
    refine ⟨s', s.actsAt (s.cell a).writesAt ++ rel ++ acts, ?_, ?_, hns'.trans hns⟩
    · simp only [releaseLoop, hperform, hrel, hloop, Option.bind_eq_bind, Option.bind_some]
    · have hnodup := nodup_lrn (h.sorted a (List.mem_cons_self ..))
      rw [List.filter_append, List.filter_append, actsAt_namespace, hclose, List.append_nil, hacts,
        actsAt_congr hlog, hwrites, writesOf_cons, firsts_append hnodup]
      exact (List.flatMap_append ..).symm

/-! ## The operations of a transaction -/

/-- The log records of the write records `ws`. -/
def loggedBy (s : Server) (ws : List WriteRecord) : List LoggedCall :=
  ws.filterMap fun w => s.recordAt w.LRN

theorem actsAt_eq (s : Server) (ws : List WriteRecord) :
    s.actsAt ws = (s.loggedBy ws).flatMap LoggedCall.acts := by
  unfold actsAt loggedBy
  induction ws with
  | nil => rfl
  | cons w ws ih =>
    rw [List.flatMap_cons, ih]
    cases hr : s.recordAt w.LRN with
    | none =>
      have hnil : (w :: ws).filterMap (fun w => s.recordAt w.LRN) =
          ws.filterMap fun w => s.recordAt w.LRN := List.filterMap_cons_none hr
      rw [hnil]
      rfl
    | some r =>
      have hcons : (w :: ws).filterMap (fun w => s.recordAt w.LRN) =
          r :: ws.filterMap fun w => s.recordAt w.LRN := List.filterMap_cons_some hr
      rw [hcons, List.flatMap_cons]
      rfl

theorem recordAt_lrn {l : Int} {r : LoggedCall} (h : s.recordAt l = some r) : r.LRN = l := by
  simpa using List.find?_some h

/-- The number of the first of the records `ys` that holds a write record of the LRN. -/
def directoryIndex (s : Server) (ys : List Addr) (lrn : Int) : Nat :=
  queueIndex WriteRecord.LRN (fun a => (s.cell a).writesAt) ys lrn

/-- The order of a replay: by directory, then by LRN. -/
def ReplayOrder (s : Server) (ys : List Addr) (l l' : Int) : Prop :=
  s.directoryIndex ys l < s.directoryIndex ys l' ∨
    s.directoryIndex ys l = s.directoryIndex ys l' ∧ l < l'

/-- Log records come in the order of their write records. -/
theorem loggedBy_pairwise {R : Int → Int → Prop} {ws : List WriteRecord}
    (h : ws.Pairwise fun w w' => R w.LRN w'.LRN) :
    (s.loggedBy ws).Pairwise fun r r' => R r.LRN r'.LRN := by
  apply List.Pairwise.filterMap _ _ h
  intro w w' hR r hr r' hr'
  rw [recordAt_lrn hr, recordAt_lrn hr']
  exact hR

/-- The records of a transaction, in the order of its list, hold all it has logged. -/
theorem writesOf_perm (hs : Owned s.table s.headTxnList) {ys : List Addr}
    (hys : s.table.Chain start t ys) : (s.writesOf ys).Perm (s.ownWrites t) := by
  have hperm : ys.Perm (s.ownRecords t) := by
    apply (List.perm_ext_iff_of_nodup hys.1.nodup (hs.nodup.filter _)).mpr
    intro b
    rw [hys.2 b]
    exact mem_ownRecords.symm
  exact hperm.flatMap_right _

/-- A list in LRN order without repetitions. -/
theorem sorted_lrn {ws : List WriteRecord} (hle : ws.Pairwise fun w w' => w.LRN ≤ w'.LRN)
    (hnd : (ws.map WriteRecord.LRN).Nodup) : ws.Pairwise fun w w' => w.LRN < w'.LRN := by
  apply (hle.and (List.pairwise_map.mp hnd)).imp
  intro w w' h
  obtain ⟨hle, hne⟩ := h
  omega

/-- The record of a write record stands in the log, under its LRN. -/
theorem Ledger.recordAt {w : WriteRecord} (h : Ledger s) (hledger : LedgerOf s t)
    (hw : w ∈ s.ownWrites t) : ∃ r ∈ s.eventLog, r.txnId = t ∧ s.recordAt w.LRN = some r ∧
      r.LRN = w.LRN ∧ r.call.Fits w.writeLength := by
  obtain ⟨r, hr, hrt, hlrn, hfits⟩ := hledger.known w hw
  refine ⟨r, hr, hrt, ?_, hlrn, hfits⟩
  rw [← hlrn]
  exact recordAt_eq h.sorted hr

/-- What the ledger says about a transaction is what its commit relies on. -/
theorem Ledger.replayReady {n : TxnNode} {ys : List Addr} (h : Ledger s) (ht : t ≠ 0)
    (hprev : s.table.HasPrev) (hn : searchTxn t s.headTxnList = some n)
    (hys : s.table.Chain n.fileRecNo t ys)
    (hflags : ∀ a ∈ s.ownRecords t, (s.cell a).writesAt ≠ [] → (s.cell a).flags ≠ 0)
    (hnames : ∀ a ∈ s.ownRecords t, ((s.cell a).writesAt.map WriteRecord.LRN).Nodup) :
    ReplayReady s n.fileRecNo ys := by
  have hledger := h.each t ht (List.mem_map.mpr ⟨n, searchTxn_mem hn, searchTxn_id hn⟩)
  have hperm := writesOf_perm h.owned hys
  have hmem : ∀ a ∈ ys, a ∈ s.ownRecords t := fun a ha => mem_ownRecords.mpr ((hys.2 a).mp ha)
  constructor
  case path =>
    exact hys.1
  case mem =>
    intro a ha
    exact ((hys.2 a).mp ha).1
  case nodup =>
    exact h.owned.nodup
  case prev =>
    exact hprev
  case fuel =>
    exact h.owned.chain_length hys
  case sorted =>
    intro a ha
    exact sorted_lrn (hledger.queue a (hmem a ha)) (hnames a (hmem a ha))
  case flags =>
    intro a ha
    exact hflags a (hmem a ha)
  case record =>
    intro w hw
    obtain ⟨r, -, -, hr, hlrn, hfits⟩ := h.recordAt hledger (hperm.mem_iff.mp hw)
    exact ⟨r, hr, hlrn, hfits⟩
  case count =>
    intro w hw
    rw [hperm.countP_eq]
    exact hledger.count w (hperm.mem_iff.mp hw)

/-- The first occurrences in the write lists name each logged operation once. -/
theorem Ledger.loggedBy_perm {ws : List WriteRecord} (h : Ledger s) (hledger : LedgerOf s t)
    (hperm : ws.Perm (s.ownWrites t)) :
    (s.loggedBy (firsts WriteRecord.LRN ws)).Perm (s.eventLog.filter fun r => r.txnId = t) := by
  have hfound : ∀ w ∈ ws, ∃ r ∈ s.eventLog, r.txnId = t ∧ s.recordAt w.LRN = some r := by
    intro w hw
    obtain ⟨r, hr, hrt, hat, -⟩ := h.recordAt hledger (hperm.mem_iff.mp hw)
    exact ⟨r, hr, hrt, hat⟩
  apply (List.perm_ext_iff_of_nodup _ _).mpr
  · intro r
    rw [loggedBy, List.mem_filterMap, List.mem_filter, decide_eq_true_eq]
    constructor
    · intro hmem
      obtain ⟨w, hw, hwr⟩ := hmem
      obtain ⟨r', hr', hrt, heq⟩ := hfound w (mem_of_mem_firsts hw)
      rw [hwr] at heq
      cases heq
      exact ⟨hr', hrt⟩
    · intro hmem
      obtain ⟨hr, hrt⟩ := hmem
      -- some write record has its LRN, so a first one has
      obtain ⟨w, hw, hlrn⟩ := hledger.complete r hr hrt
      have hkey : r.LRN ∈ ws.map WriteRecord.LRN :=
        List.mem_map.mpr ⟨w, hperm.mem_iff.mpr hw, hlrn⟩
      obtain ⟨v, hv, hvr⟩ := List.mem_map.mp (mem_map_firsts.mpr hkey)
      refine ⟨v, hv, ?_⟩
      rw [hvr]
      exact recordAt_eq h.sorted hr
  · -- equal log records have equal LRNs
    have hnodup : (firsts WriteRecord.LRN ws).Pairwise fun w w' => w.LRN ≠ w'.LRN :=
      List.pairwise_map.mp nodup_map_firsts
    apply (loggedBy_pairwise (s := s) hnodup).imp
    intro r r' hne heq
    exact hne (congrArg LoggedCall.LRN heq)
  · apply List.Pairwise.filter
    apply h.sorted.imp
    intro r r' hlt heq
    rw [heq] at hlt
    exact Int.lt_irrefl _ hlt

theorem txnDelete_isSome {ns : List TxnNode} {n : TxnNode} (h : searchTxn t ns = some n) :
    ∃ ns', txnDelete t ns = some ns' := by
  induction ns with
  | nil => cases h
  | cons m ns ih =>
    rw [txnDelete]
    split
    · exact ⟨ns, rfl⟩
    · rename_i hm
      have h' : searchTxn t ns = some n := by simpa [searchTxn, hm] using h
      obtain ⟨ns', hns'⟩ := ih h'
      exact ⟨m :: ns', by rw [hns']; rfl⟩

/-! ## Commits -/

/-- A commit whose release loop comes to its end goes through. -/
theorem onTxnCommit_of_loop {n : TxnNode} (hn : searchTxn t s.headTxnList = some n)
    (hloop : releaseLoop performWrites closeOnSuccess (s.table.brk + 1) (s.setFileRecNo t none)
      n.fileRecNo = some (s₁, acts))
    (hns : s₁.headTxnList = (s.setFileRecNo t none).headTxnList) :
    ∃ s', s.onTxnCommit t = some (s', acts) := by
  have hrelease : s.releaseLocksOnSuccess t = some (s₁, acts) := by
    simp only [releaseLocksOnSuccess, releaseLocks, hn, Option.bind_eq_bind, Option.bind_some]
    exact hloop
  have hlive : searchTxn t s₁.headTxnList = some { n with fileRecNo := none } := by
    rw [hns, Server.setFileRecNo, searchTxn_setFileRecNo, if_pos rfl, hn]
    rfl
  obtain ⟨ns, hdelete⟩ := txnDelete_isSome hlive
  simp only [onTxnCommit, hrelease, endTxn, hdelete, Option.bind_eq_bind, Option.bind_some]
  exact ⟨_, rfl⟩

/-- **A commit performs what was logged**: each operation once, directory by directory in the
    order in which the transaction locked them, and in LRN order within a directory. -/
theorem commit_performs_logged {handles : Nat} {n : TxnNode}
    (h : ReachableUnder (globalInit handles) step NewIds s) (ht : t ≠ 0)
    (hn : searchTxn t s.headTxnList = some n)
    (hflags : ∀ a ∈ s.ownRecords t, (s.cell a).writesAt ≠ [] → (s.cell a).flags ≠ 0)
    (hnames : ∀ a ∈ s.ownRecords t, ((s.cell a).writesAt.map WriteRecord.LRN).Nodup) :
    ∃ ys s' acts, ∃ performed : List LoggedCall, s.table.Chain n.fileRecNo t ys ∧
      s.onTxnCommit t = some (s', acts) ∧
      acts.filter Act.isNamespace = performed.flatMap LoggedCall.acts ∧
      performed.Perm (s.eventLog.filter fun r => r.txnId = t) ∧
      performed.Pairwise fun r r' => s.ReplayOrder ys r.LRN r'.LRN := by
  have hledger := ledger_of_reachable h
  have hlive : t ∈ s.headTxnList.map TxnNode.txnId :=
    List.mem_map.mpr ⟨n, searchTxn_mem hn, searchTxn_id hn⟩
  obtain ⟨ys, hchain⟩ := hledger.owned.chain n (searchTxn_mem hn)
  rw [searchTxn_id hn] at hchain
  have hready := hledger.replayReady ht (hasPrev_of_reachable h) hn hchain hflags hnames
  have hperm := writesOf_perm hledger.owned hchain
  -- the loop runs with `file_rec_no` already taken out of the node
  have hready' : ReplayReady (s.setFileRecNo t none) n.fileRecNo ys :=
    ⟨hready.path, hready.mem, hready.nodup, hready.prev, hready.fuel, hready.sorted, hready.flags,
      hready.record, hready.count⟩
  obtain ⟨s₁, acts, hloop, hacts, hns⟩ := releaseLoop_replay hready.fuel hready'
  obtain ⟨s', hcommit⟩ := onTxnCommit_of_loop hn hloop hns
  refine ⟨ys, s', acts, s.loggedBy (firsts WriteRecord.LRN (s.writesOf ys)), hchain, hcommit,
    ?_, ?_, ?_⟩
  · rw [hacts]
    exact actsAt_eq s _
  · exact hledger.loggedBy_perm (hledger.each t ht hlive) hperm
  · apply loggedBy_pairwise
    exact firsts_flatMap_pairwise hready.sorted

/-- A file is made in one directory and moved to another: its rename is in both lists. -/
theorem commit_performs_logged_rename :
    ∃ s, ReachableUnder (globalInit 1) step NewIds s ∧ ∃ n, searchTxn 1 s.headTxnList = some n ∧
      ∃ ys s' acts, ∃ performed : List LoggedCall, s.table.Chain n.fileRecNo 1 ys ∧
        s.onTxnCommit 1 = some (s', acts) ∧
        acts.filter Act.isNamespace = performed.flatMap LoggedCall.acts ∧
        performed.Perm (s.eventLog.filter fun r => r.txnId = 1) ∧
        performed.Pairwise fun r r' => s.ReplayOrder ys r.LRN r'.LRN := by
  obtain ⟨s, hs, hlive, hflags, hnames⟩ := exists_of_runUnder (globalInit 1) step NewIds
    (fun s => searchTxn 1 s.headTxnList ≠ none ∧
      (∀ a ∈ s.ownRecords 1, (s.cell a).writesAt ≠ [] → (s.cell a).flags ≠ 0) ∧
      ∀ a ∈ s.ownRecords 1, ((s.cell a).writesAt.map WriteRecord.LRN).Nodup)
    [.begin 1, .lock 1 ⟨5, 2, .placeholder⟩ 0, .lock 1 ⟨6, 2, .placeholder⟩ 0,
      .call 1 (.creat "/a/x" "256") 0 none, .call 1 (.rename "/a/x" "/b/x") 0 (some 1),
      .call 1 (.unlink "/a/y") 0 none] (by decide +kernel)
  obtain ⟨n, hn⟩ := Option.ne_none_iff_exists'.mp hlive
  exact ⟨s, hs, n, hn, commit_performs_logged hs (by decide) hn hflags hnames⟩

/-- Calls that alternate between two directories are not replayed in LRN order. -/
theorem commit_not_in_lrn_order :
    ∃ s, ReachableUnder (globalInit 1) step NewIds s ∧ ∃ r, s.onTxnCommit 1 = some r ∧
      r.2.filter Act.isNamespace ≠
        (s.eventLog.filter fun r => r.txnId = 1).flatMap LoggedCall.acts := by
  obtain ⟨s, hs, hcommit⟩ := exists_of_runUnder (globalInit 1) step NewIds
    (fun s => (s.onTxnCommit 1).any (fun r => r.2.filter Act.isNamespace ≠
      (s.eventLog.filter fun r => r.txnId = 1).flatMap LoggedCall.acts) = true)
    [.begin 1, .lock 1 ⟨5, 2, .placeholder⟩ 0, .lock 1 ⟨6, 2, .placeholder⟩ 0,
      .call 1 (.creat "/a/x" "256") 0 none, .call 1 (.creat "/b/y" "256") 1 none,
      .call 1 (.unlink "/a/x") 0 none] (by decide +kernel)
  obtain ⟨r, hr, hne⟩ := (Option.any_eq_true ..).mp hcommit
  exact ⟨s, hs, r, hr, of_decide_eq_true hne⟩

end Server

end TxFS
