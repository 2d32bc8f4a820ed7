import Mathlib.Data.List.Flatten
import TxFS.Commit.Order

/-!
# Durability of Creations

`on_creat` logs the creation with the text of its mode, in the list of the directory it has
locked. A commit flushes the file when it comes to that write record, but only if the
directory record has flags other than 0 (`release_locks_on_success`) and the mode is the text
`"256"` (`delayed_creat`). A rename between two directories whose other record is not further
down the list of the transaction ends in a `NULL` dereference.

So the flushes of a commit are counted without the assumptions of the replay order: some
lists may not be replayed at all, and the commit may crash.
-/

namespace TxFS

open LinkedPath GuardedRun

/-- A call of `tr_sync_file_to_disk` with the path. -/
def Act.syncs (path : String) : Act → Bool
  | .sync _ p => p = path
  | .rename .. | .unlink .. | .write _ | .close _ | .closeAbort _ => false

namespace Server

variable {s s' s₁ s₂ : Server} {t : Int} {a : Addr} {start : Option Addr} {rest as : List Addr}
  {acts : List Act} {path : String} {ls : List Int}

/-! ## The condition of a commit -/

/-- A write record with the LRN is in the list of the record. -/
def Holds (s : Server) (a : Addr) (lrn : Int) : Prop :=
  lrn ∈ (s.cell a).writesAt.map WriteRecord.LRN

instance (s : Server) (a : Addr) (lrn : Int) : Decidable (s.Holds a lrn) :=
  inferInstanceAs (Decidable (_ ∈ _))

/-- The list of the record is replayed by a commit. -/
def Replayed (s : Server) (a : Addr) : Prop := (s.cell a).flags ≠ 0

instance (s : Server) (a : Addr) : Decidable (s.Replayed a) := inferInstanceAs (Decidable (¬ _))

/-- **No rename is torn**: for each write record of a rename between two directories that is
    replayed, the other one is further down the list of the transaction, or it is further up
    and is replayed too. -/
def Paired (s : Server) (as : List Addr) : Prop :=
  ∀ front a rest, as = front ++ a :: rest → s.Replayed a → ∀ w ∈ (s.cell a).writesAt,
    copies w = 2 → (∃ b ∈ rest, s.Holds b w.LRN) ∨ ∃ b ∈ front, s.Replayed b ∧ s.Holds b w.LRN

/-- The LRNs that the replay of the record drops from the lists behind it. -/
def droppedBy (s : Server) (a : Addr) : List Int :=
  if s.Replayed a then (s.cell a).writesAt.map WriteRecord.LRN else []

theorem mem_droppedBy {l : Int} : l ∈ s.droppedBy a ↔ s.Replayed a ∧ s.Holds a l := by
  unfold droppedBy Holds
  split <;> simp_all

/-- The head of the list finds the other records of its renames. -/
def PairedHead (s : Server) (a : Addr) (rest : List Addr) : Prop :=
  s.Replayed a → ∀ w ∈ (s.cell a).writesAt, copies w = 2 → ∃ b ∈ rest, s.Holds b w.LRN

/-- What the rest of the list holds after the head has been released. -/
theorem ReleasedHead.holds (h : ReleasedHead s a rest ls s') {b : Addr} (hb : b ∈ rest) {l : Int} :
    s'.Holds b l ↔ s.Holds b l ∧ l ∉ ls := by
  unfold Holds
  rw [h.writes b hb]
  constructor
  · intro hl
    obtain ⟨w, hw, rfl⟩ := List.mem_map.mp hl
    obtain ⟨hw, hls⟩ := List.mem_filter.mp hw
    exact ⟨List.mem_map_of_mem hw, of_decide_eq_true hls⟩
  · intro hl
    obtain ⟨hl, hls⟩ := hl
    obtain ⟨w, hw, rfl⟩ := List.mem_map.mp hl
    exact List.mem_map_of_mem (List.mem_filter.mpr ⟨hw, decide_eq_true hls⟩)

theorem ReleasedHead.replayed (h : ReleasedHead s a rest ls s') {b : Addr} (hb : b ∈ rest) :
    s'.Replayed b ↔ s.Replayed b := by
  unfold Replayed
  rw [h.flags b hb]

/-- Nobody stands in front of the head, so the other records of its renames are behind it. -/
theorem Paired.head (h : s.Paired (a :: rest)) : s.PairedHead a rest := by
  intro ha w hw hcopies
  rcases h [] a rest rfl ha w hw hcopies with hlater | ⟨b, hb, -⟩
  · exact hlater
  · cases hb

/-- **The condition along the list**: the head meets it, and the rest after its release. -/
theorem paired_cons (h : ReleasedHead s a rest (s.droppedBy a) s') :
    s.Paired (a :: rest) ↔ s.PairedHead a rest ∧ s'.Paired rest := by
  constructor
  · -- the head has nobody in front of it, the others have it in front
    intro hpaired
    constructor
    · exact hpaired.head
    · intro front b rest' hrest hb w hw hcopies
      have hmem : b ∈ rest := hrest ▸ List.mem_append_right _ (List.mem_cons_self ..)
      rw [h.writes b hmem] at hw
      obtain ⟨hw, hls⟩ := List.mem_filter.mp hw
      have hls : w.LRN ∉ s.droppedBy a := of_decide_eq_true hls
      -- where is the other record of the rename?
      rcases hpaired (a :: front) b rest' (hrest ▸ rfl) ((h.replayed hmem).mp hb) w hw hcopies with
        ⟨c, hc, hcw⟩ | ⟨c, hc, hcr, hcw⟩
      · -- behind `b`, and there it was not dropped
        have hcmem : c ∈ rest :=
          hrest ▸ List.mem_append_right _ (List.mem_cons_of_mem _ hc)
        exact .inl ⟨c, hc, (h.holds hcmem).mpr ⟨hcw, hls⟩⟩
      · rcases List.mem_cons.mp hc with rfl | hc
        · -- the head is replayed and has a copy, so the copy of `b` was dropped
          exact absurd (mem_droppedBy.mpr ⟨hcr, hcw⟩) hls
        · -- in front of `b` and behind the head
          have hcmem : c ∈ rest := hrest ▸ List.mem_append_left _ hc
          exact .inr ⟨c, hc, (h.replayed hcmem).mpr hcr, (h.holds hcmem).mpr ⟨hcw, hls⟩⟩
  · intro hpaired
    -- a write record that is not dropped is still there behind the head
    obtain ⟨hhead, hpaired⟩ := hpaired
    intro front b rest' hrest hb w hw hcopies
    cases front with
    | nil =>
      obtain ⟨rfl, rfl⟩ := List.cons.inj hrest
      exact .inl (hhead hb w hw hcopies)
    | cons d front =>
      obtain ⟨rfl, rfl⟩ := List.cons.inj hrest
      have hmem : b ∈ front ++ b :: rest' := List.mem_append_right _ (List.mem_cons_self ..)
      by_cases hls : w.LRN ∈ s.droppedBy a
      · -- dropped: the head has the other record and is replayed
        obtain ⟨ha, hhold⟩ := mem_droppedBy.mp hls
        exact .inr ⟨a, List.mem_cons_self .., ha, hhold⟩
      · -- kept: the condition on the rest applies
        have hw' : w ∈ (s'.cell b).writesAt := by
          rw [h.writes b hmem]
          exact List.mem_filter.mpr ⟨hw, decide_eq_true hls⟩
        rcases hpaired front b rest' rfl ((h.replayed hmem).mpr hb) w hw' hcopies with
          ⟨c, hc, hcw⟩ | ⟨c, hc, hcr, hcw⟩
        · have hcmem := List.mem_append_right front (List.mem_cons_of_mem b hc)
          exact .inl ⟨c, hc, ((h.holds hcmem).mp hcw).1⟩
        · have hcmem := List.mem_append_left (b :: rest') hc
          exact .inr ⟨c, List.mem_cons_of_mem _ hc, (h.replayed hcmem).mp hcr,
            ((h.holds hcmem).mp hcw).1⟩

/-! ## The write lists in a commit -/

/-- What every commit can rely on for the records `as` still to be released. -/
structure CommitReady (s : Server) (start : Option Addr) (as : List Addr) : Prop where
  path : IsPath (fun b => (s.cell b).nextTxn) start as
  mem : ∀ a ∈ as, a ∈ s.table.allocated
  nodup : s.table.allocated.Nodup
  prev : s.table.HasPrev
  fuel : as.length < s.table.brk + 1
  record : ∀ w ∈ s.writesOf as,
    ∃ r, s.recordAt w.LRN = some r ∧ r.LRN = w.LRN ∧ r.call.Fits w.writeLength
  count : ∀ w ∈ s.writesOf as, (s.writesOf as).countP (fun v => v.LRN = w.LRN) ≤ copies w

/-- Each LRN occurs once. -/
theorem nodup_of_countP {ws : List WriteRecord}
    (h : ∀ w ∈ ws, ws.countP (fun v => v.LRN = w.LRN) ≤ 1) :
    (ws.map WriteRecord.LRN).Nodup := by
  rw [List.nodup_iff_count_le_one]
  intro l
  by_cases hl : l ∈ ws.map WriteRecord.LRN
  · obtain ⟨w, hw, rfl⟩ := List.mem_map.mp hl
    have hcount : (ws.map WriteRecord.LRN).count w.LRN = ws.countP fun v => v.LRN = w.LRN := by
      rw [List.count, List.countP_map]
      apply List.countP_congr
      intro v _
      simp
    rw [hcount]
    exact h w hw
  · rw [List.count_eq_zero_of_not_mem hl]
    exact Nat.zero_le 1

theorem copies_cases (w : WriteRecord) : copies w = 1 ∨ copies w = 2 := by
  unfold copies
  split
  · exact .inr rfl
  · exact .inl rfl

/-- The copies in the lists `rest` of a write record of `a`. -/
theorem CommitReady.count_rest (h : CommitReady s start (a :: rest)) {w : WriteRecord}
    (hw : w ∈ (s.cell a).writesAt) :
    0 < (s.cell a).writesAt.countP (fun v => v.LRN = w.LRN) ∧
      (s.cell a).writesAt.countP (fun v => v.LRN = w.LRN) +
        (s.writesOf rest).countP (fun v => v.LRN = w.LRN) ≤ copies w := by
  have hcount := h.count w (List.mem_append_left _ hw)
  rw [writesOf_cons, List.countP_append] at hcount
  refine ⟨?_, hcount⟩
  exact List.countP_pos_iff.mpr ⟨w, hw, decide_eq_true rfl⟩

theorem count_pos_iff {l : Int} :
    0 < (s.writesOf rest).countP (fun v => v.LRN = l) ↔ ∃ b ∈ rest, s.Holds b l := by
  rw [List.countP_pos_iff]
  constructor
  · intro hpos
    obtain ⟨v, hv, hvl⟩ := hpos
    obtain ⟨b, hb, hv⟩ := List.mem_flatMap.mp hv
    exact ⟨b, hb, of_decide_eq_true hvl ▸ List.mem_map_of_mem hv⟩
  · intro hb
    obtain ⟨b, hb, hl⟩ := hb
    obtain ⟨v, hv, rfl⟩ := List.mem_map.mp hl
    exact ⟨v, List.mem_flatMap.mpr ⟨b, hb, hv⟩, decide_eq_true rfl⟩

/-- A head that finds the other records of its renames can be replayed. -/
theorem CommitReady.directory (h : CommitReady s start (a :: rest)) (ha : s.Replayed a)
    (hhead : s.PairedHead a rest) : DirectoryReady s a rest (s.cell a).writesAt := by
  have hcounts : ∀ w ∈ (s.cell a).writesAt,
      (s.cell a).writesAt.countP (fun v => v.LRN = w.LRN) = 1 ∧
        (s.writesOf rest).countP (fun v => v.LRN = w.LRN) + 1 = copies w := by
    intro w hw
    obtain ⟨hpos, hle⟩ := h.count_rest hw
    rcases copies_cases w with hone | htwo
    · omega
    · have hrest := count_pos_iff.mpr (hhead ha w hw htwo)
      omega
  constructor
  · exact h.path.2
  · have hfuel := h.fuel
    rw [List.length_cons] at hfuel
    omega
  · exact (List.nodup_cons.mp h.path.nodup).1
  · apply nodup_of_countP
    intro w hw
    exact Nat.le_of_eq (hcounts w hw).1
  · intro w hw
    exact h.record w (List.mem_append_left _ hw)
  · intro w hw
    exact (hcounts w hw).2

/-! ## A torn rename ends in a crash -/

theorem modifyCell_self {f : FileLock → FileLock} : (s.modifyCell a f).cell a = f (s.cell a) :=
  Function.update_self ..

theorem modifyCell_of_ne {f : FileLock → FileLock} {b : Addr} (hb : b ≠ a) :
    (s.modifyCell a f).cell b = s.cell b :=
  Function.update_of_ne hb ..

/-- A replayed operation only takes from the lists behind it. -/
theorem delayedUpdateOne_sublist {w : WriteRecord} (h : s.delayedUpdateOne a w = some (s', acts))
    (b : Addr) : (s'.cell b).writesAt.Sublist (s.cell b).writesAt := by
  unfold delayedUpdateOne at h
  split at h
  · -- a rename erases the other record in the list where it finds it
    simp only [delayedRename, Option.bind_eq_bind, Option.bind_eq_some_iff] at h
    obtain ⟨call, -, h⟩ := h
    split at h
    · simp only [Option.bind_eq_some_iff, Option.some.injEq, Prod.mk.injEq] at h
      obtain ⟨pos, -, c, rfl, rfl, -⟩ := h
      by_cases hb : b = c
      · subst hb
        rw [modifyCell_self]
        exact List.eraseP_sublist
      · rw [modifyCell_of_ne hb]
    · simp only [Option.some.injEq, Prod.mk.injEq] at h
      rw [h.1]
  split at h
  · -- a `creat`, and then an `unlink`, leave the lists alone
    simp only [Option.map_eq_some_iff, Prod.mk.injEq] at h
    obtain ⟨_, -, rfl, -⟩ := h
    exact List.Sublist.refl _
  split at h
  · simp only [Option.map_eq_some_iff, Prod.mk.injEq] at h
    obtain ⟨_, -, rfl, -⟩ := h
    exact List.Sublist.refl _
  · simp only [Option.some.injEq, Prod.mk.injEq] at h
    rw [h.1]

/-- A rename between two directories goes through only if the other record is found. -/
theorem delayedUpdateOne_finds {w : WriteRecord}
    (hpath : IsPath (fun b => (s.cell b).nextTxn) (s.cell a).nextTxn rest)
    (hfuel : rest.length < s.table.brk + 1) (hcopies : copies w = 2)
    (h : s.delayedUpdateOne a w = some (s', acts)) : ∃ b ∈ rest, s.Holds b w.LRN := by
  have hkind : w.writeLength = -1 ∨ w.writeLength = -2 := by
    unfold copies at hcopies
    split at hcopies
    · assumption
    · cases hcopies
  have hthree : w.writeLength ≠ -3 := by omega
  rw [delayedUpdateOne, if_pos (by omega)] at h
  simp only [delayedRename, Option.bind_eq_bind, Option.bind_eq_some_iff] at h
  obtain ⟨call, -, h⟩ := h
  rw [if_pos hthree] at h
  simp only [Option.bind_eq_some_iff, Option.some.injEq] at h
  obtain ⟨pos, hfind, b, rfl, -⟩ := h
  -- the walk is `find?` on the list of the records behind the head
  rw [findFrom_eq hpath hfuel, Option.some.injEq] at hfind
  refine ⟨b, List.mem_of_find?_eq_some hfind, ?_⟩
  have hany : ((s.cell b).writesAt.any fun v => v.LRN = w.LRN) = true := by
    simpa using List.find?_some hfind
  obtain ⟨v, hv, hvl⟩ := List.any_eq_true.mp hany
  exact List.mem_map.mpr ⟨v, hv, of_decide_eq_true hvl⟩

theorem delayedUpdateLoop_finds {n : Nat}
    (hpath : IsPath (fun b => (s.cell b).nextTxn) (s.cell a).nextTxn rest)
    (hfuel : rest.length < s.table.brk + 1) (ha : a ∉ rest)
    (h : delayedUpdateLoop n s a = some (s', acts)) :
    ∀ w ∈ (s.cell a).writesAt, copies w = 2 → ∃ b ∈ rest, s.Holds b w.LRN := by
  induction n generalizing s acts with
  | zero =>
    intro w hw
    -- with no turns left the list has to be empty
    rw [delayedUpdateLoop] at h
    split at h
    · rename_i hnil
      rw [hnil] at hw
      cases hw
    · cases h
  | succ n ih =>
    intro w hw hcopies
    rw [delayedUpdateLoop] at h
    split at h
    · rename_i hnil
      rw [hnil] at hw
      cases hw
    · rename_i w₀ ws hws
      simp only [Option.bind_eq_bind, Option.bind_eq_some_iff, Option.some.injEq,
        Prod.mk.injEq] at h
      obtain ⟨⟨s₁, acts₁⟩, h₁, ⟨s₂, acts₂⟩, h₂, rfl, -⟩ := h
      rw [hws] at hw
      -- the first write record, and those behind it
      rcases List.mem_cons.mp hw with rfl | hw
      · exact delayedUpdateOne_finds hpath hfuel hcopies h₁
      · -- the later write records are replayed in a state whose lists are shorter
        let s₃ : Server := s₁.modifyCell a fun c => { c with writesAt := c.writesAt.tail }
        have hone := delayedUpdateOne_queues hpath h₁
        have hself : s₃.cell a = { s₁.cell a with writesAt := (s₁.cell a).writesAt.tail } :=
          modifyCell_self
        have hother : ∀ b ≠ a, s₃.cell b = s₁.cell b := fun b hb => modifyCell_of_ne hb
        have hne : ∀ b ∈ rest, b ≠ a := fun b hb hba => ha (hba ▸ hb)
        -- the turn takes the first record off, and nothing else of the own list
        have hlist : (s₃.cell a).writesAt = ws := by
          obtain ⟨cells, rfl, hcells⟩ := hone
          obtain ⟨ws', hcell, hsame⟩ := hcells a
          have hwrites : (cells a).writesAt = w₀ :: ws := by
            rw [hcell, ← hws]
            exact hsame ha
          rw [hself]
          show (cells a).writesAt.tail = ws
          rw [hwrites]
          rfl
        -- the list of the records is as it was
        have hpath₃ : IsPath (fun b => (s₃.cell b).nextTxn) (s₃.cell a).nextTxn rest := by
          rw [hself]
          show IsPath _ (s₁.cell a).nextTxn rest
          rw [hone.nextTxn]
          apply (hone.isPath hpath).congr
          intro b hb
          rw [hother b (hne b hb)]
        have hbrk : s₃.table.brk = s.table.brk := by
          obtain ⟨cells, rfl, -⟩ := hone
          rfl
        -- what a shorter list holds, the list before the turn has held
        obtain ⟨b, hb, hhold⟩ := ih hpath₃ (hbrk ▸ hfuel) h₂ w (hlist ▸ hw) hcopies
        refine ⟨b, hb, ?_⟩
        unfold Holds at hhold ⊢
        rw [hother b (hne b hb)] at hhold
        exact ((delayedUpdateOne_sublist h₁ b).map _).subset hhold

/-- A head that is replayed without a crash has found the other records of its renames. -/
theorem CommitReady.finds (h : CommitReady s start (a :: rest))
    (hperform : s.performWrites a = some (s₁, acts)) : s.PairedHead a rest := by
  intro ha w hw
  have hfuel := h.fuel
  rw [List.length_cons] at hfuel
  unfold performWrites at hperform
  split at hperform
  · rename_i hnil
    rw [hnil] at hw
    cases hw
  · rename_i w₀ ws hws
    -- the first write record is one of a namespace call, so the whole list is taken as such
    have hneg : w₀.writeLength < 0 := by
      have hw₀ : w₀ ∈ (s.cell a).writesAt := by
        rw [hws]
        exact List.mem_cons_self ..
      obtain ⟨r, -, -, hfits⟩ := h.record w₀ (List.mem_append_left _ hw₀)
      exact hfits.neg
    have hflags : (s.cell a).flags ≠ 0 := ha
    rw [if_pos hflags, if_pos hneg] at hperform
    exact delayedUpdateLoop_finds h.path.2 (by omega) (List.nodup_cons.mp h.path.nodup).1
      hperform w hw

/-! ## The release loop -/

/-- A record with flags 0 is released without a look at its list. -/
theorem performWrites_skip (ha : ¬ s.Replayed a) : s.performWrites a = some (s, []) := by
  unfold performWrites
  split
  · rfl
  · exact if_neg ha

/-- **One record of a commit**, whether or not its list is replayed. -/
theorem CommitReady.step (h : CommitReady s start (a :: rest)) (hhead : s.PairedHead a rest) :
    ∃ s₁ s₂ rel,
      s.performWrites a =
        some (s₁, if s.Replayed a then s.actsAt (s.cell a).writesAt else []) ∧
      releaseRecord closeOnSuccess s₁ a = some (s₂, rel) ∧ rel.filter Act.isNamespace = [] ∧
      (s₁.cell a).nextTxn = (s.cell a).nextTxn ∧ ReleasedHead s a rest (s.droppedBy a) s₂ := by
  have hmem := h.mem a (List.mem_cons_self ..)
  have hnot := (List.nodup_cons.mp h.path.nodup).1
  by_cases ha : s.Replayed a
  · -- the whole list is replayed, then the record goes
    obtain ⟨_, hperform, cells, rfl, hself, hcells⟩ :=
      performWrites_spec (h.directory ha hhead) fun _ => ha
    obtain ⟨s₂, rel, hrel, hclose, hreleased⟩ :=
      releaseRecord_head h.prev h.nodup hmem hnot hself hcells
    refine ⟨_, s₂, rel, ?_, hrel, hclose, ?_, ?_⟩
    · rw [if_pos ha]
      exact hperform
    · show (cells a).nextTxn = _
      rw [hself]
    · rw [droppedBy, if_pos ha]
      exact hreleased
  · -- nothing is dropped
    have hself : s.table.cells a = { s.cell a with writesAt := (s.cell a).writesAt } := rfl
    have hcells : ∀ b ≠ a, s.table.cells b = { s.cell b with
        writesAt := if b ∈ rest then
            (s.cell b).writesAt.filter fun v => v.LRN ∉ ([] : List Int)
          else (s.cell b).writesAt } := by
      intro b _
      have hkeep : ((s.cell b).writesAt.filter fun v => v.LRN ∉ ([] : List Int)) =
          (s.cell b).writesAt := by
        rw [List.filter_eq_self]
        intro v _
        simp
      rw [hkeep, ite_self]
      rfl
    obtain ⟨s₂, rel, hrel, hclose, hreleased⟩ :=
      releaseRecord_head h.prev h.nodup hmem hnot hself hcells
    refine ⟨s, s₂, rel, ?_, hrel, hclose, rfl, ?_⟩
    · rw [if_neg ha]
      exact performWrites_skip ha
    · rw [droppedBy, if_neg ha]
      exact hreleased

/-- The rest can be released in the same way. -/
theorem ReleasedHead.commitReady (hreleased : ReleasedHead s a rest ls s')
    (h : CommitReady s start (a :: rest)) : CommitReady s' (s.cell a).nextTxn rest := by
  have hne : ∀ b ∈ rest, b ≠ a := fun b hb hba => (List.nodup_cons.mp h.path.nodup).1 (hba ▸ hb)
  constructor
  case path =>
    exact h.path.2.congr hreleased.nextTxn
  case mem =>
    intro b hb
    rw [hreleased.allocated]
    exact (List.mem_erase_of_ne (hne b hb)).mpr (h.mem b (List.mem_cons_of_mem _ hb))
  case nodup =>
    rw [hreleased.allocated]
    exact h.nodup.erase a
  case prev =>
    exact hreleased.prev
  case fuel =>
    rw [hreleased.brk]
    exact Nat.lt_of_succ_lt h.fuel
  case record =>
    intro w hw
    rw [hreleased.writesOf] at hw
    obtain ⟨r, hr, hfits⟩ := h.record w (List.mem_append_right _ (List.mem_of_mem_filter hw))
    exact ⟨r, (recordAt_congr hreleased.eventLog).trans hr, hfits⟩
  case count =>
    intro w hw
    rw [hreleased.writesOf] at hw ⊢
    -- a write record that is kept has all its copies kept
    obtain ⟨hmem, hls⟩ := List.mem_filter.mp hw
    have hcount := h.count w (List.mem_append_right _ hmem)
    rw [writesOf_cons, List.countP_append] at hcount
    rw [countP_filter_writes (of_decide_eq_true hls)]
    exact (Nat.le_add_left _ _).trans hcount

/-! ## Counting the flushes -/

/-- The write records that a commit comes to. -/
def replayedWrites (s : Server) (as : List Addr) : List WriteRecord :=
  s.writesOf (as.filter fun a => s.Replayed a)

/-- The write record is that of a creation of the path with mode 256. -/
def createsAt (s : Server) (path : String) (w : WriteRecord) : Bool :=
  (s.recordAt w.LRN).any fun r => r.call = .creat path "256"

theorem countP_acts (r : LoggedCall) :
    r.acts.countP (Act.syncs path) = if r.call = .creat path "256" then 1 else 0 := by
  unfold LoggedCall.acts
  cases r.call with
  | rename oldpath newpath => rfl
  | creat p mode =>
    simp only [NsCall.creat.injEq]
    by_cases hmode : mode = "256"
    · simp [hmode, Act.syncs, List.countP_cons]
    · simp [hmode]
  | unlink p => rfl

/-- The flushes of a list are its creations with mode 256. -/
theorem countP_actsAt (ws : List WriteRecord) :
    (s.actsAt ws).countP (Act.syncs path) = ws.countP (s.createsAt path) := by
  induction ws with
  | nil => rfl
  | cons w ws ih =>
    have hcons : s.actsAt (w :: ws) =
        (s.recordAt w.LRN).elim [] LoggedCall.acts ++ s.actsAt ws := List.flatMap_cons ..
    rw [hcons, List.countP_append, ih, List.countP_cons, Nat.add_comm]
    congr 1
    unfold createsAt
    cases s.recordAt w.LRN with
    | none => rfl
    | some r => simp [countP_acts]

/-- Closing descriptors flushes nothing by path. -/
theorem countP_syncs_zero (h : acts.filter Act.isNamespace = []) :
    acts.countP (Act.syncs path) = 0 := by
  rw [List.countP_eq_zero]
  intro act hact hsync
  have hns : act.isNamespace = true := by
    cases act with
    | sync => rfl
    | rename | unlink | write | close | closeAbort => cases hsync
  have hmem : act ∈ acts.filter Act.isNamespace := List.mem_filter.mpr ⟨hact, hns⟩
  rw [h] at hmem
  cases hmem

/-- A creation has one write record only, so no replay of another list drops it. -/
theorem CommitReady.creates_kept (h : CommitReady s start (a :: rest)) {w : WriteRecord}
    (hw : w ∈ s.writesOf rest) (hcreates : s.createsAt path w = true) : w.LRN ∉ s.droppedBy a := by
  intro hdropped
  obtain ⟨-, hhold⟩ := mem_droppedBy.mp hdropped
  obtain ⟨v, hv, hvw⟩ := List.mem_map.mp hhold
  have hone : copies v = 1 := by
    obtain ⟨r, hr, -, hfits⟩ := h.record v (List.mem_append_left _ hv)
    obtain ⟨r', hr', hcall⟩ := (Option.any_eq_true ..).mp hcreates
    rw [hvw] at hr
    cases hr.symm.trans hr'
    rw [of_decide_eq_true hcall] at hfits
    have hkind : v.writeLength = -4 := hfits
    exact if_neg (by omega)
  obtain ⟨hpos, hle⟩ := h.count_rest hv
  have hrest : 0 < (s.writesOf rest).countP fun u => u.LRN = v.LRN :=
    List.countP_pos_iff.mpr ⟨w, hw, decide_eq_true hvw.symm⟩
  omega

/-- The flushes still to come are not changed by the release of a record. -/
theorem ReleasedHead.countP_creates (hreleased : ReleasedHead s a rest (s.droppedBy a) s')
    (h : CommitReady s start (a :: rest)) :
    (s'.replayedWrites rest).countP (s'.createsAt path) =
      (s.replayedWrites rest).countP (s.createsAt path) := by
  have hsame : s'.createsAt path = s.createsAt path := by
    funext w
    rw [createsAt, recordAt_congr hreleased.eventLog]
    rfl
  have hfilter : (rest.filter fun b => s'.Replayed b) = rest.filter fun b => s.Replayed b := by
    apply List.filter_congr
    intro b hb
    simp only [hreleased.replayed hb]
  have hsub : ∀ b ∈ rest.filter fun b => s.Replayed b, b ∈ rest := fun b hb =>
    List.mem_of_mem_filter hb
  -- the release filters the lists, and no creation is filtered out
  have hwrites : s'.replayedWrites rest =
      (s.replayedWrites rest).filter fun v => v.LRN ∉ s.droppedBy a := by
    unfold replayedWrites
    rw [hfilter]
    exact flatMap_filter_writes fun b hb => hreleased.writes b (hsub b hb)
  rw [hwrites, hsame, List.countP_filter]
  apply List.countP_congr
  intro w hw
  obtain ⟨b, hb, hw⟩ := List.mem_flatMap.mp hw
  have hmem : w ∈ s.writesOf rest := List.mem_flatMap.mpr ⟨b, hsub b hb, hw⟩
  simp only [Bool.and_eq_true, decide_eq_true_eq, and_iff_left_iff_imp]
  exact fun hcreates => h.creates_kept hmem hcreates

/-- **The release loop of a commit**: it comes to its end exactly if no rename is torn, and
    then it has flushed the path once for each of its creations with mode 256 in a list that
    is replayed. -/
theorem releaseLoop_flushes (path : String) {fuel : Nat} (hfuel : as.length < fuel)
    (h : CommitReady s start as) :
    (∀ r, releaseLoop performWrites closeOnSuccess fuel s start = some r → s.Paired as) ∧
      (s.Paired as → ∃ s' acts,
        releaseLoop performWrites closeOnSuccess fuel s start = some (s', acts) ∧
        s'.headTxnList = s.headTxnList ∧
        acts.countP (Act.syncs path) = (s.replayedWrites as).countP (s.createsAt path)) := by
  induction as generalizing s start fuel with
  | nil =>
    obtain ⟨fuel, rfl⟩ := Nat.exists_eq_succ_of_ne_zero (Nat.ne_of_gt hfuel)
    have hstart : start = none := h.path
    subst hstart
    refine ⟨?_, fun _ => ⟨s, [], rfl, rfl, rfl⟩⟩
    intro r _ front a rest hrest
    cases front <;> cases hrest
  | cons a rest ih =>
    obtain ⟨fuel, rfl⟩ := Nat.exists_eq_succ_of_ne_zero (Nat.ne_of_gt (Nat.zero_lt_of_lt hfuel))
    have hstart : start = some a := h.path.1
    subst hstart
    have hfuel' := Nat.lt_of_succ_lt_succ hfuel
    constructor
    · -- a loop that ends has replayed the head, so the head is paired
      intro r hloop
      simp only [releaseLoop, Option.bind_eq_bind, Option.bind_eq_some_iff] at hloop
      obtain ⟨⟨s₁, prepared⟩, hperform, ⟨s₂, rel⟩, hrel, ⟨s₃, acts⟩, hloop, -⟩ := hloop
      have hhead := h.finds hperform
      obtain ⟨s₁', s₂', rel', hperform', hrel', -, hnext, hreleased⟩ := h.step hhead
      -- the run that `step` describes is this one
      cases hperform.symm.trans hperform'
      cases hrel.symm.trans hrel'
      rw [hnext] at hloop
      exact (paired_cons hreleased).mpr
        ⟨hhead, (ih hfuel' (hreleased.commitReady h)).1 _ hloop⟩
    · intro hpaired
      have hhead : s.PairedHead a rest := hpaired.head
      -- the head is released, and the rest by the induction hypothesis
      obtain ⟨s₁, s₂, rel, hperform, hrel, hclose, hnext, hreleased⟩ := h.step hhead
      obtain ⟨s', acts, hloop, hns, hcount⟩ := (ih hfuel' (hreleased.commitReady h)).2
        ((paired_cons hreleased).mp hpaired).2
      refine ⟨s', (if s.Replayed a then s.actsAt (s.cell a).writesAt else []) ++ rel ++ acts, ?_,
        hns.trans hreleased.headTxnList, ?_⟩
      · rw [← hnext] at hloop
        simp only [releaseLoop, hperform, hrel, hloop, Option.bind_eq_bind, Option.bind_some]
      · -- the flushes of the head and those of the rest
        have hcons : s.replayedWrites (a :: rest) =
            (if s.Replayed a then (s.cell a).writesAt else []) ++ s.replayedWrites rest := by
          unfold replayedWrites
          by_cases ha : s.Replayed a
          · rw [List.filter_cons_of_pos (by simpa using ha), writesOf_cons, if_pos ha]
          · rw [List.filter_cons_of_neg (by simpa using ha), if_neg ha, List.nil_append]
        have hown : (if s.Replayed a then s.actsAt (s.cell a).writesAt else []).countP
            (Act.syncs path) =
              (if s.Replayed a then (s.cell a).writesAt else []).countP (s.createsAt path) := by
          split
          · exact countP_actsAt _
          · rfl
        rw [List.countP_append, List.countP_append, countP_syncs_zero hclose, hcount,
          hreleased.countP_creates h, hcons, List.countP_append, hown, Nat.add_zero]

/-! ## Creations -/

/-- A creation of the path by `t` that a commit comes to: it was sent with mode 256 and logged
    for a directory record whose list is replayed. -/
def Flushes (s : Server) (t : Int) (as : List Addr) (path : String) (r : LoggedCall) : Prop :=
  r.txnId = t ∧ r.call = .creat path "256" ∧ ∃ a ∈ as, s.Replayed a ∧ s.Holds a r.LRN

instance (s : Server) (t : Int) (as : List Addr) (path : String) (r : LoggedCall) :
    Decidable (s.Flushes t as path r) :=
  inferInstanceAs (Decidable (_ ∧ _))

/-- The commit of `t` goes through and calls `tr_sync_file_to_disk` once on the path. -/
def SyncedOnce (s : Server) (t : Int) (path : String) : Prop :=
  ∃ r, s.onTxnCommit t = some r ∧ r.2.countP (Act.syncs path) = 1

instance (s : Server) (t : Int) (path : String) : Decidable (s.SyncedOnce t path) :=
  decidable_of_iff ((s.onTxnCommit t).any fun r => r.2.countP (Act.syncs path) = 1) <| by
    simp only [SyncedOnce, Option.any_eq_true, decide_eq_true_eq]

theorem Ledger.commitReady {n : TxnNode} {ys : List Addr} (h : Ledger s) (ht : t ≠ 0)
    (hprev : s.table.HasPrev) (hn : searchTxn t s.headTxnList = some n)
    (hys : s.table.Chain n.fileRecNo t ys) : CommitReady s n.fileRecNo ys := by
  have hledger := h.each t ht (List.mem_map.mpr ⟨n, searchTxn_mem hn, searchTxn_id hn⟩)
  have hperm := writesOf_perm h.owned hys
  constructor
  case path =>
    exact hys.1
  case mem =>
    intro a ha
    exact ((hys.2 a).mp ha).1
  case nodup =>
    exact h.owned.nodup
  case prev =>
    exact hprev
  case fuel =>
    exact h.owned.chain_length hys
  case record =>
    intro w hw
    obtain ⟨r, -, -, hr, hlrn, hfits⟩ := h.recordAt hledger (hperm.mem_iff.mp hw)
    exact ⟨r, hr, hlrn, hfits⟩
  case count =>
    intro w hw
    rw [hperm.countP_eq]
    exact Nat.le_of_eq (hledger.count w (hperm.mem_iff.mp hw))

/-- The creations that a commit comes to, counted in the log and in the write lists. -/
theorem Ledger.countP_flushes {ys : List Addr} (h : Ledger s) (hledger : LedgerOf s t)
    (hys : s.table.Chain start t ys) :
    s.eventLog.countP (fun r => s.Flushes t ys path r) =
      (s.replayedWrites ys).countP (s.createsAt path) := by
  have hperm := writesOf_perm h.owned hys
  have hsub : (s.replayedWrites ys).Sublist (s.writesOf ys) :=
    List.filter_sublist.flatMap _
  have hmem : ∀ w, w ∈ s.replayedWrites ys ↔
      ∃ a ∈ ys, s.Replayed a ∧ w ∈ (s.cell a).writesAt := by
    intro w
    simp only [replayedWrites, writesOf, List.mem_flatMap, List.mem_filter, decide_eq_true_eq,
      and_assoc]
  -- both sides count different LRNs, so it is enough that they are the same ones
  rw [List.countP_eq_length_filter, List.countP_eq_length_filter,
    ← List.length_map LoggedCall.LRN, ← List.length_map WriteRecord.LRN]
  apply List.Perm.length_eq
  apply (List.perm_ext_iff_of_nodup _ _).mpr
  · intro l
    simp only [List.mem_map, List.mem_filter, decide_eq_true_eq, hmem]
    constructor
    · intro hl
      -- from the log to the list that holds the LRN
      obtain ⟨r, ⟨hr, hrt, hcall, a, ha, hreplayed, hhold⟩, rfl⟩ := hl
      obtain ⟨w, hw, hlrn⟩ := List.mem_map.mp hhold
      refine ⟨w, ⟨⟨a, ha, hreplayed, hw⟩, ?_⟩, hlrn⟩
      rw [createsAt, hlrn, recordAt_eq h.sorted hr]
      exact decide_eq_true hcall
    · intro hl
      -- and back: the ledger has a record in the log for each write record
      obtain ⟨w, ⟨⟨a, ha, hreplayed, hw⟩, hcreates⟩, rfl⟩ := hl
      have hwys : w ∈ s.writesOf ys := List.mem_flatMap.mpr ⟨a, ha, hw⟩
      obtain ⟨r, hr, hrt, hat, hlrn, -⟩ := h.recordAt hledger (hperm.mem_iff.mp hwys)
      rw [createsAt, hat] at hcreates
      refine ⟨r, ⟨hr, hrt, of_decide_eq_true hcreates, a, ha, hreplayed, ?_⟩, hlrn⟩
      rw [hlrn]
      exact List.mem_map_of_mem hw
  · -- the log is in LRN order
    have hsorted : s.eventLog.Pairwise fun r r' => r.LRN ≠ r'.LRN :=
      h.sorted.imp fun hlt => Int.ne_of_lt hlt
    exact List.pairwise_map.mpr (hsorted.filter _)
  · -- a creation has one write record
    apply nodup_of_countP
    intro w hw
    obtain ⟨hw, hcreates⟩ := List.mem_filter.mp hw
    have hown := hperm.mem_iff.mp (hsub.subset hw)
    have hone : copies w = 1 := by
      obtain ⟨r, -, -, hat, -, hfits⟩ := h.recordAt hledger hown
      rw [createsAt, hat] at hcreates
      rw [of_decide_eq_true hcreates] at hfits
      have hkind : w.writeLength = -4 := hfits
      exact if_neg (by omega)
    have hcount := hledger.count w hown
    rw [hone, ← hperm.countP_eq] at hcount
    rw [← hcount]
    exact (List.filter_sublist.trans hsub).countP_le

/-- **The commit of a transaction**: it goes through exactly if no rename is torn, and then it
    calls `tr_sync_file_to_disk` once on the path for each creation that it comes to. -/
theorem onTxnCommit_flushes {handles : Nat} {n : TxnNode} {ys : List Addr} (path : String)
    (h : ReachableUnder (globalInit handles) step NewIds s) (ht : t ≠ 0)
    (hn : searchTxn t s.headTxnList = some n) (hys : s.table.Chain n.fileRecNo t ys) :
    (∀ r, s.onTxnCommit t = some r → s.Paired ys) ∧
      (s.Paired ys → ∃ s' acts, s.onTxnCommit t = some (s', acts) ∧
        acts.countP (Act.syncs path) = s.eventLog.countP fun r => s.Flushes t ys path r) := by
  have hledger := ledger_of_reachable h
  have hlive : t ∈ s.headTxnList.map TxnNode.txnId :=
    List.mem_map.mpr ⟨n, searchTxn_mem hn, searchTxn_id hn⟩
  have hready := hledger.commitReady ht (hasPrev_of_reachable h) hn hys
  -- the loop runs with `file_rec_no` already taken out of the node
  have hready' : CommitReady (s.setFileRecNo t none) n.fileRecNo ys :=
    ⟨hready.path, hready.mem, hready.nodup, hready.prev, hready.fuel, hready.record,
      hready.count⟩
  obtain ⟨hpaired, hflushes⟩ := releaseLoop_flushes path hready.fuel hready'
  rw [hledger.countP_flushes (hledger.each t ht hlive) hys]
  constructor
  · rintro ⟨s', acts⟩ hcommit
    simp only [onTxnCommit, releaseLocksOnSuccess, releaseLocks, hn, Option.bind_eq_bind,
      Option.bind_some, Option.bind_eq_some_iff] at hcommit
    -- a commit that goes through has gone through the loop
    obtain ⟨⟨s₁, acts₁⟩, hloop, -⟩ := hcommit
    exact hpaired _ hloop
  · intro hcond
    obtain ⟨s₁, acts, hloop, hns, hcount⟩ := hflushes hcond
    obtain ⟨s', hcommit⟩ := onTxnCommit_of_loop hn hloop hns
    exact ⟨s', acts, hcommit, hcount⟩

/-- **When the creations of a path are durable**: the commit calls `tr_sync_file_to_disk` once
    on the path exactly if no rename of the transaction is torn and one creation of the path
    was sent with mode 256 and logged for a directory record with flags other than 0. -/
theorem syncedOnce_iff {handles : Nat} {n : TxnNode} {ys : List Addr}
    (h : ReachableUnder (globalInit handles) step NewIds s) (ht : t ≠ 0)
    (hn : searchTxn t s.headTxnList = some n) (hys : s.table.Chain n.fileRecNo t ys) :
    s.SyncedOnce t path ↔
      s.Paired ys ∧ s.eventLog.countP (fun r => s.Flushes t ys path r) = 1 := by
  obtain ⟨hpaired, hflushes⟩ := onTxnCommit_flushes path h ht hn hys
  constructor
  · rintro ⟨⟨s', acts⟩, hcommit, hcount⟩
    obtain ⟨s'', acts', hcommit', hcount'⟩ := hflushes (hpaired _ hcommit)
    cases hcommit.symm.trans hcommit'
    exact ⟨hpaired _ hcommit, hcount'.symm.trans hcount⟩
  · rintro ⟨hcond, hone⟩
    obtain ⟨s', acts, hcommit, hcount⟩ := hflushes hcond
    exact ⟨(s', acts), hcommit, hcount.trans hone⟩

/-- A file is created with mode 256 and another one moved to a second directory. -/
theorem syncedOnce_next_to_rename :
    ∃ s, ReachableUnder (globalInit 1) step NewIds s ∧ ∃ n ys,
      searchTxn 1 s.headTxnList = some n ∧ s.table.Chain n.fileRecNo 1 ys ∧
      (s.SyncedOnce 1 "/a/x" ↔
        s.Paired ys ∧ s.eventLog.countP (fun r => s.Flushes 1 ys "/a/x" r) = 1) := by
  obtain ⟨s, hs, hlive⟩ := exists_of_runUnder (globalInit 1) step NewIds
    (fun s => searchTxn 1 s.headTxnList ≠ none ∧ s.SyncedOnce 1 "/a/x")
    [.begin 1, .lock 1 ⟨5, 2, .placeholder⟩ 0, .lock 1 ⟨6, 2, .placeholder⟩ 0,
      .call 1 (.creat "/a/x" "256") 0 none, .call 1 (.rename "/a/y" "/b/y") 0 (some 1)]
    (by decide +kernel)
  obtain ⟨n, hn⟩ := Option.ne_none_iff_exists'.mp hlive.1
  obtain ⟨ys, hys⟩ := (ledger_of_reachable hs).owned.chain n (searchTxn_mem hn)
  rw [searchTxn_id hn] at hys
  exact ⟨s, hs, n, ys, hn, hys, syncedOnce_iff hs (by decide) hn hys⟩

/-- A file created with mode 0644 is not flushed. -/
theorem created_not_synced :
    ∃ s, ReachableUnder (globalInit 1) step NewIds s ∧ s.thread 1 = .running ∧
      (∃ r ∈ s.eventLog, r.txnId = 1 ∧ r.call = .creat "/a/x" "420") ∧
      ¬ s.SyncedOnce 1 "/a/x" := by
  obtain ⟨s, hs, hthread, hlogged, hnot⟩ := exists_of_runUnder (globalInit 1) step NewIds
    (fun s => s.thread 1 = .running ∧
      (∃ r ∈ s.eventLog, r.txnId = 1 ∧ r.call = .creat "/a/x" "420") ∧ ¬ s.SyncedOnce 1 "/a/x")
    [.begin 1, .lock 1 ⟨5, 2, .placeholder⟩ 0, .call 1 (.creat "/a/x" "420") 0 none]
    (by decide +kernel)
  exact ⟨s, hs, hthread, hlogged, hnot⟩

end Server

end TxFS
