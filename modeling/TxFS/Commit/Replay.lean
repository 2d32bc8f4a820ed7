import TxFS.Commit.Ledger
import TxFS.Lib.FirstOccurrence
import TxFS.Locks.NoCrash

/-!
# The Order of the Replay

A commit goes through the directories of the transaction in the order in which they were
locked, and performs the operations recorded in each. A rename between two directories is
performed with the directory that comes first, and taken out of the list of the other one.
So the operations performed are the first occurrences in the write lists one after the
other: each logged operation once, but in LRN order only within a directory.
-/

namespace TxFS

open LinkedPath FirstOccurrence GuardedRun

/-! ## What is performed in place -/

/-- The in-place operation of a logged call. A `creat` is performed for mode 256 only. -/
def LoggedCall.acts (r : LoggedCall) : List Act :=
  match r.call with
  | .rename oldpath newpath => [.rename r.LRN oldpath newpath]
  | .creat path mode => if mode = "256" then [.sync r.LRN path] else []
  | .unlink path => [.unlink r.LRN path]

/-- A change of the name space, as opposed to file data and descriptors. -/
def Act.isNamespace : Act → Bool
  | .rename .. | .sync .. | .unlink .. => true
  | .write _ | .close _ | .closeAbort _ => false

namespace Server

variable {s s' s₁ : Server} {t : Int} {a : Addr} {w : WriteRecord} {rest : List Addr}

/-- The log record at an LRN. -/
def recordAt (s : Server) (lrn : Int) : Option LoggedCall := s.eventLog.find? fun r => r.LRN = lrn

theorem recordAt_congr {lrn : Int} (h : s'.eventLog = s.eventLog) :
    s'.recordAt lrn = s.recordAt lrn := by
  rw [recordAt, h]
  rfl

/-- In a log in LRN order each record is found. -/
theorem recordAt_eq {r : LoggedCall} (hsorted : s.eventLog.Pairwise fun r r' => r.LRN < r'.LRN)
    (hr : r ∈ s.eventLog) : s.recordAt r.LRN = some r := by
  unfold recordAt
  induction hlog : s.eventLog generalizing s with
  | nil => simp [hlog] at hr
  | cons r' log ih =>
    rw [hlog] at hr hsorted
    rcases List.mem_cons.mp hr with rfl | hr
    · simp
    · have hlt := (List.pairwise_cons.mp hsorted).1 r hr
      rw [List.find?_cons_of_neg (by simp only [decide_eq_true_eq]; omega)]
      exact ih (s := { s with eventLog := log }) (List.pairwise_cons.mp hsorted).2 hr rfl

theorem acts_namespace (r : LoggedCall) : ∀ act ∈ r.acts, act.isNamespace = true := by
  intro act hact
  unfold LoggedCall.acts at hact
  split at hact
  · rw [List.mem_singleton.mp hact]
    rfl
  · split at hact
    · rw [List.mem_singleton.mp hact]
      rfl
    · cases hact
  · rw [List.mem_singleton.mp hact]
    rfl

/-! ## One write record -/

/-- In `s'` the write records with the LRNs `ls` are gone from the lists of `rest`. -/
def Dropped (rest : List Addr) (ls : List Int) (s s' : Server) : Prop :=
  ∃ cells, s' = { s with table := { s.table with cells := cells } } ∧
    ∀ b, cells b = { s.cell b with
      writesAt := if b ∈ rest then (s.cell b).writesAt.filter fun v => v.LRN ∉ ls
        else (s.cell b).writesAt }

/-- Nothing is dropped when no list of `rest` has the LRN. -/
theorem dropped_self {l : Int} (h : ∀ b ∈ rest, ∀ v ∈ (s.cell b).writesAt, v.LRN ≠ l) :
    Dropped rest [l] s s := by
  refine ⟨s.table.cells, rfl, ?_⟩
  intro b
  split
  · rename_i hb
    have hself : ((s.cell b).writesAt.filter fun v => v.LRN ∉ [l]) = (s.cell b).writesAt := by
      rw [List.filter_eq_self]
      intro v hv
      simpa using h b hb v hv
    rw [hself]
    rfl
  · rfl

theorem eraseP_eq_filter {l : Int} {ws : List WriteRecord}
    (h : ws.countP (fun v => v.LRN = l) ≤ 1) :
    (ws.eraseP fun v => v.LRN = l) = ws.filter fun v => v.LRN ∉ [l] := by
  induction ws with
  | nil => rfl
  | cons v ws ih =>
    by_cases hv : v.LRN = l
    · -- the first one goes, and there is no second one
      have hnone : ws.countP (fun v => v.LRN = l) = 0 := by
        rw [List.countP_cons_of_pos (by simpa using hv)] at h
        omega
      have hself : (ws.filter fun v => v.LRN ∉ [l]) = ws := by
        rw [List.filter_eq_self]
        intro u hu
        simpa using List.countP_eq_zero.mp hnone u hu
      rw [List.eraseP_cons_of_pos (by simpa using hv), List.filter_cons_of_neg (by simpa using hv),
        hself]
    · rw [List.countP_cons_of_neg (by simpa using hv)] at h
      rw [List.eraseP_cons_of_neg (by simpa using hv), List.filter_cons_of_pos (by simpa using hv),
        ih h]

/-- A rename between two directories takes the other record out of the one list that has it. -/
theorem dropped_erase {l : Int} {b : Addr} (hnd : rest.Nodup)
    (hfind : rest.find? (fun b => (s.cell b).writesAt.any fun v => v.LRN = l) = some b)
    (hone : (rest.flatMap fun b => (s.cell b).writesAt).countP (fun v => v.LRN = l) = 1) :
    Dropped rest [l] s
      (s.modifyCell b fun c => { c with writesAt := c.writesAt.eraseP fun v => v.LRN = l }) := by
  obtain ⟨hb, front, back, rfl, hfront⟩ := List.find?_eq_some_iff_append.mp hfind
  simp only [List.flatMap_append, List.flatMap_cons, List.countP_append] at hone
  have hpos : 0 < (s.cell b).writesAt.countP fun v => v.LRN = l := by
    rw [List.countP_pos_iff]
    obtain ⟨v, hv, hvl⟩ := List.any_eq_true.mp hb
    exact ⟨v, hv, hvl⟩
  -- the count is used up by `b`
  have hnone : ∀ d ∈ front ++ b :: back, d ≠ b → ∀ v ∈ (s.cell d).writesAt, v.LRN ≠ l := by
    intro d hd hdb v hv hvl
    rcases List.mem_append.mp hd with hd | hd
    · have hzero : (front.flatMap fun b => (s.cell b).writesAt).countP (fun v => v.LRN = l) = 0 := by
        omega
      exact List.countP_eq_zero.mp hzero v (List.mem_flatMap.mpr ⟨d, hd, hv⟩) (by simpa using hvl)
    · have hzero : (back.flatMap fun b => (s.cell b).writesAt).countP (fun v => v.LRN = l) = 0 := by
        omega
      have hd' := (List.mem_cons.mp hd).resolve_left hdb
      exact List.countP_eq_zero.mp hzero v (List.mem_flatMap.mpr ⟨d, hd', hv⟩) (by simpa using hvl)
  refine ⟨_, rfl, ?_⟩
  intro d
  by_cases hdb : d = b
  · subst hdb
    rw [if_pos (by simp), ← eraseP_eq_filter (by omega)]
    exact Function.update_self ..
  · refine (Function.update_of_ne hdb ..).trans ?_
    split
    · rename_i hd
      have hself : ((s.cell d).writesAt.filter fun v => v.LRN ∉ [l]) = (s.cell d).writesAt := by
        rw [List.filter_eq_self]
        intro v hv
        simpa using hnone d hd hdb v hv
      rw [hself]
      rfl
    · rfl

/-- What the replay relies on for the write record `w` in the list of `a`: its log record, and
    as many copies in the later directories as its kind says. -/
structure Replayable (s : Server) (a : Addr) (rest : List Addr) (w : WriteRecord)
    (r : LoggedCall) : Prop where
  path : IsPath (fun b => (s.cell b).nextTxn) (s.cell a).nextTxn rest
  fuel : rest.length < s.table.brk + 1
  record : s.recordAt w.LRN = some r
  lrn : r.LRN = w.LRN
  fits : r.call.Fits w.writeLength
  later : (rest.flatMap fun b => (s.cell b).writesAt).countP (fun v => v.LRN = w.LRN) + 1 = copies w

/-- **One write record**: its operation is performed, and the other record of a rename goes. -/
theorem delayedUpdateOne_spec {r : LoggedCall} (h : Replayable s a rest w r) :
    ∃ s', s.delayedUpdateOne a w = some (s', r.acts) ∧ Dropped rest [w.LRN] s s' := by
  have hread : s.readLog w.LRN = some r.call := by
    show (s.recordAt w.LRN).map LoggedCall.call = some r.call
    rw [h.record]
    rfl
  have hfits := h.fits
  have hlater := h.later
  have hlrn := h.lrn
  -- a record without a second one has no copy in the later directories
  have hsingle : copies w = 1 → Dropped rest [w.LRN] s s := by
    intro hcopies
    rw [hcopies] at hlater
    have hzero : (rest.flatMap fun b => (s.cell b).writesAt).countP (fun v => v.LRN = w.LRN) = 0 := by
      omega
    apply dropped_self
    intro b hb v hv hvl
    exact List.countP_eq_zero.mp hzero v (List.mem_flatMap.mpr ⟨b, hb, hv⟩) (by simpa using hvl)
  unfold delayedUpdateOne
  cases hcall : r.call with
  | rename oldpath newpath =>
    rw [hcall] at hfits hread
    have hkind : w.writeLength = -1 ∨ w.writeLength = -2 ∨ w.writeLength = -3 := hfits
    have hacts : r.acts = [.rename w.LRN oldpath newpath] := by
      rw [LoggedCall.acts, hcall, hlrn]
    rw [if_pos hkind]
    by_cases hthree : w.writeLength = -3
    · refine ⟨s, ?_, hsingle ?_⟩
      · simp [delayedRename, hread, hthree, hacts, NsCall.data, NsCall.data1]
      · simp [copies, hthree]
    · have hcopies : copies w = 2 := if_pos (by omega)
      rw [hcopies] at hlater
      have hone : (rest.flatMap fun b => (s.cell b).writesAt).countP
          (fun v => v.LRN = w.LRN) = 1 := by
        omega
      -- the other record is on the rest of the path
      have hfound : ∃ b, rest.find? (fun b => (s.cell b).writesAt.any fun v => v.LRN = w.LRN) =
          some b := by
        rw [← Option.isSome_iff_exists, List.find?_isSome]
        have hpos : 0 < (rest.flatMap fun b => (s.cell b).writesAt).countP
            (fun v => v.LRN = w.LRN) := by
          omega
        obtain ⟨v, hv, hvl⟩ := List.countP_pos_iff.mp hpos
        obtain ⟨b, hb, hv⟩ := List.mem_flatMap.mp hv
        exact ⟨b, hb, List.any_eq_true.mpr ⟨v, hv, hvl⟩⟩
      obtain ⟨b, hb⟩ := hfound
      refine ⟨_, ?_, dropped_erase h.path.nodup hb hone⟩
      have hwalk := findFrom_eq (p := fun b => (s.cell b).writesAt.any fun v => v.LRN = w.LRN)
        h.path h.fuel
      rw [hb] at hwalk
      simp [delayedRename, hread, hthree, hwalk, hacts, NsCall.data, NsCall.data1]
  | creat path mode =>
    rw [hcall] at hfits hread
    have hkind : w.writeLength = -4 := hfits
    refine ⟨s, ?_, hsingle ?_⟩
    · rw [if_neg (by omega), if_pos hkind, LoggedCall.acts, hcall]
      simp only [delayedCreat, hread, hlrn, NsCall.data, NsCall.data1, Option.bind_eq_bind,
        Option.bind_some, Option.map_some]
      rfl
    · exact if_neg (by omega)
  | unlink path =>
    rw [hcall] at hfits hread
    have hkind : w.writeLength = -5 := hfits
    refine ⟨s, ?_, hsingle ?_⟩
    · rw [if_neg (by omega), if_neg (by omega), if_pos hkind, LoggedCall.acts, hcall]
      simp [delayedUnlink, hread, hlrn, NsCall.data]
    · exact if_neg (by omega)

/-! ## One directory -/

/-- The operations of the write records `ws`. -/
def actsAt (s : Server) (ws : List WriteRecord) : List Act :=
  ws.flatMap fun w => (s.recordAt w.LRN).elim [] LoggedCall.acts

/-- What the replay relies on from the directory `a` on, where `ws` is the list of `a`. -/
structure DirectoryReady (s : Server) (a : Addr) (rest : List Addr) (ws : List WriteRecord) :
    Prop where
  path : IsPath (fun b => (s.cell b).nextTxn) (s.cell a).nextTxn rest
  fuel : rest.length < s.table.brk + 1
  notMem : a ∉ rest
  once : (ws.map WriteRecord.LRN).Nodup
  record : ∀ w ∈ ws, ∃ r, s.recordAt w.LRN = some r ∧ r.LRN = w.LRN ∧ r.call.Fits w.writeLength
  later : ∀ w ∈ ws,
    (rest.flatMap fun b => (s.cell b).writesAt).countP (fun v => v.LRN = w.LRN) + 1 = copies w

/-- Behind a directory: its own list is empty, and its operations are gone from the others. -/
def Emptied (a : Addr) (rest : List Addr) (ls : List Int) (s s' : Server) : Prop :=
  ∃ cells, s' = { s with table := { s.table with cells := cells } } ∧
    cells a = { s.cell a with writesAt := [] } ∧
    ∀ b ≠ a, cells b = { s.cell b with
      writesAt := if b ∈ rest then (s.cell b).writesAt.filter fun v => v.LRN ∉ ls
        else (s.cell b).writesAt }

theorem flatMap_filter_writes {ls : List Int} {cells : Addr → FileLock}
    (h : ∀ b ∈ rest, (cells b).writesAt = (s.cell b).writesAt.filter fun v => v.LRN ∉ ls) :
    (rest.flatMap fun b => (cells b).writesAt) =
      (rest.flatMap fun b => (s.cell b).writesAt).filter fun v => v.LRN ∉ ls := by
  rw [List.filter_flatMap]
  exact List.flatMap_congr h

/-- A count of one LRN does not see that others are dropped. -/
theorem countP_filter_writes {ls : List Int} {l : Int} {ws : List WriteRecord} (hl : l ∉ ls) :
    (ws.filter fun v => v.LRN ∉ ls).countP (fun v => v.LRN = l) =
      ws.countP fun v => v.LRN = l := by
  rw [List.countP_filter]
  apply List.countP_congr
  intro v _
  by_cases hv : v.LRN = l
  · simp [hv, hl]
  · simp [hv]

/-- **One directory**: its operations are performed in the order of its list. -/
theorem delayedUpdateLoop_spec {ws : List WriteRecord} (hws : (s.cell a).writesAt = ws)
    (h : DirectoryReady s a rest ws) :
    ∃ s', delayedUpdateLoop ws.length s a = some (s', s.actsAt ws) ∧
      Emptied a rest (ws.map WriteRecord.LRN) s s' := by
  induction ws generalizing s with
  | nil =>
    refine ⟨s, ?_, s.table.cells, rfl, ?_, ?_⟩
    · simp [delayedUpdateLoop, hws, actsAt]
    · rw [← hws]
      rfl
    · intro b _
      -- no LRN is taken out
      have hself : (s.cell b).writesAt.filter (fun v => v.LRN ∉ List.map WriteRecord.LRN []) =
          (s.cell b).writesAt := by
        rw [List.filter_eq_self]
        intro v _
        simp
      split
      · rw [hself]
        rfl
      · rfl
  | cons w ws ih =>
    obtain ⟨r, hrec, hlrn, hfits⟩ := h.record w (List.mem_cons_self ..)
    -- the first write record is performed, and its copies are taken out
    obtain ⟨s₁, hone, cells, rfl, hcells⟩ := delayedUpdateOne_spec
      ⟨h.path, h.fuel, hrec, hlrn, hfits, h.later w (List.mem_cons_self ..)⟩
    have hnodup := List.nodup_cons.mp h.once
    -- the state with the first write record taken out of the list of `a`
    let s₁ : Server := { s with table := { s.table with cells := cells } }
    let s₂ : Server := s₁.modifyCell a fun c => { c with writesAt := c.writesAt.tail }
    have ha : s₂.cell a = { s.cell a with writesAt := ws } := by
      refine (Function.update_self ..).trans ?_
      rw [show s₁.table.cells a = cells a from rfl, hcells a, if_neg h.notMem, hws]
      rfl
    -- the other records have lost the copies of it
    have hb : ∀ b ≠ a, s₂.cell b = { s.cell b with
        writesAt := if b ∈ rest then (s.cell b).writesAt.filter fun v => v.LRN ∉ [w.LRN]
          else (s.cell b).writesAt } := by
      intro b hba
      refine (Function.update_of_ne hba ..).trans ?_
      exact hcells b
    have hne : ∀ b ∈ rest, b ≠ a := fun b hb hba => h.notMem (hba ▸ hb)
    have hflat : (rest.flatMap fun b => (s₂.cell b).writesAt) =
        (rest.flatMap fun b => (s.cell b).writesAt).filter fun v => v.LRN ∉ [w.LRN] := by
      apply flatMap_filter_writes
      intro b hbr
      show (s₂.cell b).writesAt = _
      rw [hb b (hne b hbr)]
      exact if_pos hbr
    -- so the rest of the list is ready
    have hready : DirectoryReady s₂ a rest ws := by
      refine ⟨?_, h.fuel, h.notMem, hnodup.2, ?_, ?_⟩
      · rw [ha]
        apply h.path.congr
        intro b hbr
        rw [hb b (hne b hbr)]
      · intro v hv
        exact h.record v (List.mem_cons_of_mem _ hv)
      · intro v hv
        have hvw : v.LRN ∉ [w.LRN] := by
          rw [List.mem_singleton]
          intro hvw
          exact hnodup.1 (hvw ▸ List.mem_map_of_mem hv)
        rw [hflat, countP_filter_writes hvw]
        exact h.later v (List.mem_cons_of_mem _ hv)
    obtain ⟨s', hloop, cells', hs', ha', hb'⟩ := ih (by rw [ha]) hready
    refine ⟨s', ?_, cells', hs', ?_, ?_⟩
    · rw [List.length_cons, delayedUpdateLoop]
      have hacts : s.actsAt (w :: ws) = r.acts ++ s₂.actsAt ws := by
        rw [actsAt, List.flatMap_cons, hrec]
        rfl
      simp only [hws, hone, hacts, Option.bind_eq_bind, Option.bind_some]
      rw [show delayedUpdateLoop ws.length _ a = some (s', s₂.actsAt ws) from hloop]
      rfl
    · rw [ha', ha]
    · intro b hba
      rw [hb' b hba, hb b hba]
      by_cases hbr : b ∈ rest
      · -- what is taken out first and later is taken out together
        simp only [if_pos hbr, List.filter_filter]
        congr 1
        apply List.filter_congr
        intro v _
        by_cases hv : v.LRN = w.LRN
        · simp [hv]
        · simp [hv]
      · simp only [if_neg hbr]

/-- The part of a commit for one record. -/
theorem performWrites_spec (h : DirectoryReady s a rest (s.cell a).writesAt)
    (hflags : (s.cell a).writesAt ≠ [] → (s.cell a).flags ≠ 0) :
    ∃ s', s.performWrites a = some (s', s.actsAt (s.cell a).writesAt) ∧
      Emptied a rest ((s.cell a).writesAt.map WriteRecord.LRN) s s' := by
  obtain ⟨s', hloop, hempty⟩ := delayedUpdateLoop_spec rfl h
  refine ⟨s', ?_, hempty⟩
  unfold performWrites
  cases hws : (s.cell a).writesAt with
  | nil =>
    rw [hws] at hloop
    simp only [List.length_nil, delayedUpdateLoop, hws, if_true] at hloop
    exact hloop
  | cons w ws =>
    have hneg : w.writeLength < 0 := by
      obtain ⟨r, -, -, hfits⟩ := h.record w (by rw [hws]; exact List.mem_cons_self ..)
      exact hfits.neg
    dsimp only
    rw [if_pos (hflags (by simp [hws])), if_pos hneg, delayedUpdate, hloop, hws]

end Server

end TxFS
