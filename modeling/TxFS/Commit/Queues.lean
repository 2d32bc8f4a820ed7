import TxFS.Locks.Steps

/-!
# The Write Lists over a Step

Every lock record carries the list `writes_at` of the operations logged for it. Only the
log calls of a transaction add to its lists, and only its own release takes from them: a
step of anybody else leaves them alone (`SameWrites`).
-/

namespace TxFS

open LinkedPath

namespace Server

variable {s s' s₁ s₂ : Server} {t x : Int} {a : Addr} {acts : List Act} {bs : List Addr}

/-! ## The write lists of a transaction -/

/-- The records of a transaction. -/
def ownRecords (s : Server) (x : Int) : List Addr :=
  s.table.allocated.filter fun a => (s.cell a).parentTxn = x

/-- All that a transaction has logged for the records it holds. -/
def ownWrites (s : Server) (x : Int) : List WriteRecord :=
  (s.ownRecords x).flatMap fun a => (s.cell a).writesAt

theorem mem_ownRecords : a ∈ s.ownRecords x ↔ a ∈ s.table.allocated ∧ (s.cell a).parentTxn = x := by
  simp [ownRecords]

/-- The lists of `x` are as before; a new record has an empty one. -/
structure SameWrites (s s' : Server) (x : Int) : Prop where
  own : s'.ownWrites x = s.ownWrites x
  each : ∀ a ∈ s'.ownRecords x, (s'.cell a).writesAt = [] ∨
    (a ∈ s.ownRecords x ∧ (s'.cell a).writesAt = (s.cell a).writesAt)

theorem SameWrites.refl (s : Server) (x : Int) : SameWrites s s x :=
  ⟨rfl, fun _ ha => .inr ⟨ha, rfl⟩⟩

theorem SameWrites.trans (h : SameWrites s s₁ x) (h' : SameWrites s₁ s₂ x) : SameWrites s s₂ x := by
  refine ⟨h'.own.trans h.own, ?_⟩
  intro a ha
  rcases h'.each a ha with hnil | ⟨ha₁, heq⟩
  · exact .inl hnil
  · rcases h.each a ha₁ with hnil | ⟨ha₀, heq₀⟩
    · exact .inl (heq.trans hnil)
    · exact .inr ⟨ha₀, heq.trans heq₀⟩

/-- The lists depend on the records, their owners and their write lists only. -/
theorem SameWrites.of_cells (halloc : s'.table.allocated = s.table.allocated)
    (hparent : ∀ b, (s'.cell b).parentTxn = (s.cell b).parentTxn)
    (hwrites : ∀ b ∈ s.ownRecords x, (s'.cell b).writesAt = (s.cell b).writesAt) :
    SameWrites s s' x := by
  have hrecords : s'.ownRecords x = s.ownRecords x := by
    rw [ownRecords, ownRecords, halloc]
    simp only [hparent]
  constructor
  · rw [ownWrites, hrecords]
    exact List.flatMap_congr fun b hb => hwrites b hb
  · intro b hb
    rw [hrecords] at hb
    exact .inr ⟨hb, hwrites b hb⟩

theorem SameWrites.of_table (htable : s'.table = s.table) : SameWrites s s' x := by
  apply SameWrites.of_cells
  · rw [htable]
  · intro b
    rw [cell, htable]
    rfl
  · intro b _
    rw [cell, htable]
    rfl

/-- A new record without writes. -/
theorem SameWrites.grow (hs : Owned s.table s.headTxnList)
    (halloc : s'.table.allocated = s.table.brk :: s.table.allocated)
    (hparent : ∀ b ≠ s.table.brk, (s'.cell b).parentTxn = (s.cell b).parentTxn)
    (hwrites : ∀ b ≠ s.table.brk, (s'.cell b).writesAt = (s.cell b).writesAt)
    (hnew : (s'.cell s.table.brk).writesAt = []) : SameWrites s s' x := by
  have hne : ∀ b ∈ s.table.allocated, b ≠ s.table.brk := fun b hb heq => hs.brk_notMem (heq ▸ hb)
  have hold : (s.table.allocated.filter fun b => (s'.cell b).parentTxn = x) = s.ownRecords x := by
    apply List.filter_congr
    intro b hb
    rw [hparent b (hne b hb)]
  have hflat : (s.ownRecords x).flatMap (fun b => (s'.cell b).writesAt) = s.ownWrites x := by
    apply List.flatMap_congr
    intro b hb
    exact hwrites b (hne b (mem_ownRecords.mp hb).1)
  constructor
  · rw [ownWrites, ownRecords, halloc, List.filter_cons]
    split
    · rw [List.flatMap_cons, hnew, List.nil_append, hold, hflat]
    · rw [hold, hflat]
  · intro b hb
    obtain ⟨hb, hbx⟩ := mem_ownRecords.mp hb
    rw [halloc] at hb
    rcases List.mem_cons.mp hb with rfl | hb
    · exact .inl hnew
    · refine .inr ⟨mem_ownRecords.mpr ⟨hb, ?_⟩, hwrites b (hne b hb)⟩
      rw [← hparent b (hne b hb)]
      exact hbx

/-- The record of another transaction goes. -/
theorem SameWrites.erase (hnd : s.table.allocated.Nodup) (hdel : s.table.Deleted s'.table a)
    (ha : (s.cell a).parentTxn ≠ x) : SameWrites s s' x := by
  have hcell : ∀ b ≠ a, (s'.cell b).parentTxn = (s.cell b).parentTxn ∧
      (s'.cell b).writesAt = (s.cell b).writesAt := by
    intro b hb
    obtain ⟨-, -, -, -, hp, -, hw⟩ := FileLock.content_fields (hdel.content b hb)
    exact ⟨hp, hw⟩
  have hrecords : s'.ownRecords x = s.ownRecords x := by
    rw [ownRecords, ownRecords, hdel.allocated, hnd.erase_eq_filter, List.filter_filter]
    apply List.filter_congr
    intro b _
    by_cases hb : b = a
    · subst hb
      simp [ha]
    · simp [hb, (hcell b hb).1]
  have hne : ∀ b ∈ s.ownRecords x, b ≠ a := by
    intro b hb hba
    exact ha (hba ▸ (mem_ownRecords.mp hb).2)
  constructor
  · rw [ownWrites, hrecords]
    exact List.flatMap_congr fun b hb => (hcell b (hne b hb)).2
  · intro b hb
    rw [hrecords] at hb
    exact .inr ⟨hb, (hcell b (hne b hb)).2⟩

/-! ## Delayed updates -/

/-- `s'` differs from `s` only in the write lists of the records `bs`. -/
def SameButQueues (bs : List Addr) (s s' : Server) : Prop :=
  ∃ cells, s' = { s with table := { s.table with cells := cells } } ∧
    ∀ b, ∃ ws, cells b = { s.cell b with writesAt := ws } ∧
      (b ∉ bs → ws = (s.cell b).writesAt)

theorem SameButQueues.refl (bs : List Addr) (s : Server) : SameButQueues bs s s :=
  ⟨s.table.cells, rfl, fun _ => ⟨_, rfl, fun _ => rfl⟩⟩

theorem SameButQueues.trans (h : SameButQueues bs s s₁) (h' : SameButQueues bs s₁ s₂) :
    SameButQueues bs s s₂ := by
  obtain ⟨cells, rfl, hcells⟩ := h
  obtain ⟨cells', rfl, hcells'⟩ := h'
  refine ⟨cells', rfl, ?_⟩
  intro b
  obtain ⟨ws, hb, hws⟩ := hcells b
  obtain ⟨ws', hb', hws'⟩ := hcells' b
  refine ⟨ws', ?_, ?_⟩
  · rw [hb']
    show { cells b with writesAt := ws' } = _
    rw [hb]
  · intro hnot
    rw [hws' hnot]
    show (cells b).writesAt = _
    rw [hb]
    exact hws hnot

theorem SameButQueues.mono {cs : List Addr} (h : SameButQueues bs s s')
    (hsub : ∀ b ∈ bs, b ∈ cs) : SameButQueues cs s s' := by
  obtain ⟨cells, rfl, hcells⟩ := h
  refine ⟨cells, rfl, ?_⟩
  intro b
  obtain ⟨ws, hb, hws⟩ := hcells b
  exact ⟨ws, hb, fun hnot => hws fun hmem => hnot (hsub b hmem)⟩

/-- An assignment to the write list of one record. -/
theorem sameButQueues_modifyCell {f : FileLock → List WriteRecord} (ha : a ∈ bs) :
    SameButQueues bs s (s.modifyCell a fun c => { c with writesAt := f c }) := by
  refine ⟨_, rfl, ?_⟩
  intro b
  by_cases hb : b = a
  · subst hb
    refine ⟨f (s.cell b), ?_, fun hnot => absurd ha hnot⟩
    exact Function.update_self ..
  · refine ⟨(s.cell b).writesAt, ?_, fun _ => rfl⟩
    exact Function.update_of_ne hb ..

theorem SameButQueues.nextTxn (h : SameButQueues bs s s') (b : Addr) :
    (s'.cell b).nextTxn = (s.cell b).nextTxn := by
  obtain ⟨cells, rfl, hcells⟩ := h
  obtain ⟨ws, hb, -⟩ := hcells b
  show (cells b).nextTxn = _
  rw [hb]

theorem SameButQueues.parentTxn (h : SameButQueues bs s s') (b : Addr) :
    (s'.cell b).parentTxn = (s.cell b).parentTxn := by
  obtain ⟨cells, rfl, hcells⟩ := h
  obtain ⟨ws, hb, -⟩ := hcells b
  show (cells b).parentTxn = _
  rw [hb]

theorem SameButQueues.allocated (h : SameButQueues bs s s') :
    s'.table.allocated = s.table.allocated := by
  obtain ⟨cells, rfl, -⟩ := h
  rfl

/-- A path of `next_txn` is not touched. -/
theorem SameButQueues.isPath {start : Option Addr} {ys : List Addr} (h : SameButQueues bs s s')
    (hpath : IsPath (fun b => (s.cell b).nextTxn) start ys) :
    IsPath (fun b => (s'.cell b).nextTxn) start ys :=
  hpath.congr fun b _ => h.nextTxn b

theorem delayedRename_queues {w : WriteRecord} {r : List Addr}
    (hpath : IsPath (fun b => (s.cell b).nextTxn) (s.cell a).nextTxn r)
    (h : s.delayedRename a w = some (s', acts)) : SameButQueues r s s' := by
  simp only [delayedRename, Option.bind_eq_bind, Option.bind_eq_some_iff] at h
  obtain ⟨call, -, h⟩ := h
  split at h
  · simp only [Option.bind_eq_some_iff, Option.some.injEq, Prod.mk.injEq] at h
    obtain ⟨pos, hfind, b, rfl, rfl, -⟩ := h
    exact sameButQueues_modifyCell (mem_of_findFrom hpath hfind)
  · simp only [Option.some.injEq, Prod.mk.injEq] at h
    exact h.1 ▸ SameButQueues.refl r s

theorem delayedUpdateOne_queues {w : WriteRecord} {r : List Addr}
    (hpath : IsPath (fun b => (s.cell b).nextTxn) (s.cell a).nextTxn r)
    (h : s.delayedUpdateOne a w = some (s', acts)) : SameButQueues r s s' := by
  unfold delayedUpdateOne at h
  split at h
  · exact delayedRename_queues hpath h
  split at h
  · simp only [Option.map_eq_some_iff, Prod.mk.injEq] at h
    obtain ⟨_, -, rfl, -⟩ := h
    exact SameButQueues.refl r s
  split at h
  · simp only [Option.map_eq_some_iff, Prod.mk.injEq] at h
    obtain ⟨_, -, rfl, -⟩ := h
    exact SameButQueues.refl r s
  · simp only [Option.some.injEq, Prod.mk.injEq] at h
    exact h.1 ▸ SameButQueues.refl r s

theorem delayedUpdateLoop_queues {n : Nat} {r : List Addr}
    (hpath : IsPath (fun b => (s.cell b).nextTxn) (s.cell a).nextTxn r)
    (h : delayedUpdateLoop n s a = some (s', acts)) : SameButQueues (a :: r) s s' := by
  induction n generalizing s acts with
  | zero =>
    rw [delayedUpdateLoop] at h
    split at h
    · simp only [Option.some.injEq, Prod.mk.injEq] at h
      exact h.1 ▸ SameButQueues.refl _ s
    · cases h
  | succ n ih =>
    rw [delayedUpdateLoop] at h
    split at h
    · simp only [Option.some.injEq, Prod.mk.injEq] at h
      exact h.1 ▸ SameButQueues.refl _ s
    · rename_i w ws hws
      simp only [Option.bind_eq_bind, Option.bind_eq_some_iff, Option.some.injEq,
        Prod.mk.injEq] at h
      obtain ⟨⟨s₁, acts₁⟩, h₁, ⟨s₂, acts₂⟩, h₂, rfl, -⟩ := h
      have hone : SameButQueues (a :: r) s s₁ :=
        (delayedUpdateOne_queues hpath h₁).mono fun b hb => List.mem_cons_of_mem _ hb
      have htail : SameButQueues (a :: r) s₁
          (s₁.modifyCell a fun c => { c with writesAt := c.writesAt.tail }) :=
        sameButQueues_modifyCell (List.mem_cons_self ..)
      have hboth := hone.trans htail
      refine hboth.trans (ih ?_ h₂)
      rw [hboth.nextTxn]
      exact hboth.isPath hpath

/-- The delayed updates touch the records from `a` on. -/
theorem performWrites_queues {r : List Addr}
    (hpath : IsPath (fun b => (s.cell b).nextTxn) (s.cell a).nextTxn r)
    (h : s.performWrites a = some (s', acts)) : SameButQueues (a :: r) s s' := by
  unfold performWrites at h
  split at h
  · simp only [Option.some.injEq, Prod.mk.injEq] at h
    exact h.1 ▸ SameButQueues.refl _ s
  · split at h
    · split at h
      · exact delayedUpdateLoop_queues hpath h
      · simp only [Option.some.injEq, Prod.mk.injEq] at h
        exact h.1 ▸ SameButQueues.refl _ s
    · simp only [Option.some.injEq, Prod.mk.injEq] at h
      exact h.1 ▸ SameButQueues.refl _ s

theorem discardWrites_queues {r : List Addr} (h : s.discardWrites a = some (s', acts)) :
    SameButQueues (a :: r) s s' := by
  simp only [discardWrites, Option.some.injEq, Prod.mk.injEq] at h
  exact h.1 ▸ SameButQueues.refl _ s

/-! ## Releases -/

/-- **Release record by record**: what the preparation of a record and its release keep, the
    whole release keeps, and then the transaction owns no record. -/
theorem releaseLocks_each {prepare : Server → Addr → Option (Server × List Act)}
    {close : Bool → Int → Option Act} {I : Server → List Act → Prop}
    {Q : Server → Addr → Server → List Act → Prop}
    (hprep : ∀ s a r s₁ pre, IsPath (fun b => (s.cell b).nextTxn) (s.cell a).nextTxn r →
      prepare s a = some (s₁, pre) → SameButQueues (a :: r) s s₁ ∧ Q s a s₁ pre)
    (hqueues : ∀ s a r s₁ pre done, (∀ b ∈ a :: r, b ∈ s.ownRecords t) →
      SameButQueues (a :: r) s s₁ → Q s a s₁ pre → I s done → I s₁ (done ++ pre))
    (hrecord : ∀ s a s₁ rel done, s.table.allocated.Nodup → a ∈ s.ownRecords t →
      ReleaseSpec close s a s₁ rel → I s done → I s₁ (done ++ rel))
    (hs : Owned s.table s.headTxnList) (h : releaseLocks prepare close s t = some (s', acts))
    (hI : I (s.setFileRecNo t none) []) : I s' acts ∧ s'.ownRecords t = [] := by
  simp only [releaseLocks, Option.bind_eq_bind, Option.bind_eq_some_iff] at h
  obtain ⟨n, hn, h⟩ := h
  obtain ⟨ys, hys⟩ := hs.chain n (searchTxn_mem hn)
  rw [searchTxn_id hn] at hys
  -- the records still to be released are the chain of `t`
  let J : Option Addr → Server → List Act → Prop := fun start s₁ done =>
    (∃ ys, s₁.table.Chain start t ys) ∧ s₁.table.allocated.Nodup ∧ I s₁ done
  have hloop : J none s' ([] ++ acts) := by
    refine releaseLoop_steps [] ?_ h ⟨⟨ys, hys⟩, hs.nodup, hI⟩
    intro a s₁ s₂ s₃ pre rel done hJ hpre hrel
    obtain ⟨⟨ys, hys⟩, hnd, hI₁⟩ := hJ
    cases ys with
    | nil => cases hys.1
    | cons b r =>
      obtain ⟨hb, hr⟩ := hys.1
      cases hb
      obtain ⟨hsame, hQ⟩ := hprep _ _ _ _ _ hr hpre
      have hspec := releaseRecord_spec hrel
      obtain ⟨hdel, -⟩ := hspec.frame
      have hanot : a ∉ r := (List.nodup_cons.mp hys.1.nodup).1
      have hne : ∀ b ∈ r, b ≠ a := fun b hb hba => hanot (hba ▸ hb)
      have hnd₂ : s₂.table.allocated.Nodup := hsame.allocated ▸ hnd
      have hown : ∀ b ∈ a :: r, b ∈ s₁.ownRecords t := fun b hb =>
        mem_ownRecords.mpr ((hys.2 b).mp hb)
      have ha₂ : a ∈ s₂.ownRecords t := by
        have ha := mem_ownRecords.mp (hown a (List.mem_cons_self ..))
        rw [mem_ownRecords, hsame.allocated, hsame.parentTxn]
        exact ha
      refine ⟨⟨r, ?_, ?_⟩, ?_, ?_⟩
      · -- the rest of the path is not touched
        rw [hsame.nextTxn]
        apply (hsame.isPath hr).congr
        intro b hb
        exact (FileLock.content_fields (hdel.content b (hne b hb))).2.2.2.2.2.1
      · intro b
        rw [hdel.allocated, hnd₂.mem_erase_iff, hsame.allocated]
        constructor
        · intro hb
          have hmem := (hys.2 b).mp (List.mem_cons_of_mem _ hb)
          have hcontent := (FileLock.content_fields (hdel.content b (hne b hb))).2.2.2.2.1
          exact ⟨⟨hne b hb, hmem.1⟩, hcontent.trans ((hsame.parentTxn b).trans hmem.2)⟩
        · intro hb
          obtain ⟨⟨hba, hmem⟩, hparent⟩ := hb
          have hcontent := (FileLock.content_fields (hdel.content b hba)).2.2.2.2.1
          have hparent₁ : (s₁.cell b).parentTxn = t :=
            (hsame.parentTxn b).symm.trans (hcontent.symm.trans hparent)
          exact (List.mem_cons.mp ((hys.2 b).mpr ⟨hmem, hparent₁⟩)).resolve_left hba
      · rw [hdel.allocated]
        exact hnd₂.erase a
      · rw [← List.append_assoc]
        exact hrecord _ _ _ _ _ hnd₂ ha₂ hspec (hqueues _ _ _ _ _ _ hown hsame hQ hI₁)
  obtain ⟨⟨ys', hys'⟩, -, hI'⟩ := hloop
  refine ⟨hI', ?_⟩
  rw [List.eq_nil_iff_forall_not_mem]
  intro b hb
  have hb' := (hys'.2 b).mpr (mem_ownRecords.mp hb)
  cases ys' with
  | nil => cases hb'
  | cons c r => cases hys'.1.1

/-- **The release of `t`** leaves the lists of the others alone. -/
theorem releaseLocks_sameWrites {prepare : Server → Addr → Option (Server × List Act)}
    {close : Bool → Int → Option Act}
    (hprep : ∀ s a r s₁ pre, IsPath (fun b => (s.cell b).nextTxn) (s.cell a).nextTxn r →
      prepare s a = some (s₁, pre) → SameButQueues (a :: r) s s₁)
    (hs : Owned s.table s.headTxnList) (h : releaseLocks prepare close s t = some (s', acts))
    (hx : x ≠ t) : SameWrites s s' x := by
  refine (releaseLocks_each (I := fun s₁ _ => SameWrites s s₁ x) (Q := fun _ _ _ _ => True)
    (fun s a r s₁ pre hr hpre => ⟨hprep s a r s₁ pre hr hpre, trivial⟩) ?_ ?_ hs h
    (.of_table rfl)).1
  · intro s₁ a r s₂ pre done hown hqueues _ hsame
    apply hsame.trans
    apply SameWrites.of_cells hqueues.allocated hqueues.parentTxn
    intro b hb
    -- a record of `x` is none of the records `bs` of `t`
    have hnot : b ∉ a :: r := fun hmem =>
      hx ((mem_ownRecords.mp hb).2.symm.trans (mem_ownRecords.mp (hown b hmem)).2)
    obtain ⟨cells, rfl, hcells⟩ := hqueues
    obtain ⟨ws, hcell, hws⟩ := hcells b
    show (cells b).writesAt = _
    rw [hcell]
    exact hws hnot
  · intro s₁ a s₂ rel done hnd ha hspec hsame
    have ha' : (s₁.cell a).parentTxn ≠ x := fun hax =>
      hx (hax.symm.trans (mem_ownRecords.mp ha).2)
    exact hsame.trans (SameWrites.erase hnd hspec.frame.1 ha')

/-! ## Requests -/

theorem GrantedIn.sameWrites {readBit : Int} {table : LockTable} {c : FileLock}
    (hgrant : GrantedIn s t readBit table s') (hins : s.table.Inserted table c)
    (hwrites : c.writesAt = []) (hs : Owned s.table s.headTxnList) : SameWrites s s' x := by
  obtain ⟨table', _, _, _, rfl, -, halloc, -, -, hcells⟩ := hgrant.frame
  apply SameWrites.grow hs
  · exact halloc.trans hins.allocated
  · intro b hb
    obtain ⟨nx, hcell⟩ := hcells b
    show (table'.cells b).parentTxn = _
    rw [hcell]
    exact (FileLock.content_fields (hins.content b hb)).2.2.2.2.1
  · intro b hb
    obtain ⟨nx, hcell⟩ := hcells b
    show (table'.cells b).writesAt = _
    rw [hcell]
    exact (FileLock.content_fields (hins.content b hb)).2.2.2.2.2.2
  · obtain ⟨nx, hcell⟩ := hcells s.table.brk
    show (table'.cells s.table.brk).writesAt = []
    rw [hcell]
    exact (FileLock.content_fields hins.new).2.2.2.2.2.2.trans hwrites

theorem RequestSpec.sameWrites {i fl readBit : Int} {found : Bool} {loc : Option Addr}
    {out : Outcome} (h : RequestSpec s i fl t readBit loc found s' out)
    (hs : Owned s.table s.headTxnList) : SameWrites s s' x := by
  cases h with
  | held => exact SameWrites.refl s x
  | unlocked hadm hgrant => exact hgrant.sameWrites LockTable.insertUnlocked_inserted rfl hs
  | shared hloc hown hmode hfl hadm htable hgrant =>
    exact hgrant.sameWrites (LockTable.insertShared_inserted htable) rfl hs
  | newNode => exact .of_cells rfl (fun _ => rfl) fun _ _ => rfl
  | oldNode => exact .of_cells rfl (fun _ => rfl) fun _ _ => rfl
  | refused hs' hout =>
    obtain ⟨_, _, _, rfl, -⟩ := hs'
    exact .of_cells rfl (fun _ => rfl) fun _ _ => rfl

/-- The caller of `insert_file_list` writes descriptors only. -/
theorem afterLock_cells (s : Server) (t : Int) (use : LockUse) (loc : Option Addr) (a : Addr) :
    (s.afterLock t use loc a).table.allocated = s.table.allocated ∧
      ∀ b, ∃ fd off, (s.afterLock t use loc a).cell b =
        { s.cell b with fd := fd, fileOffset := off } := by
  have hmodify : ∀ (s₁ : Server) (fd : FileLock → Int),
      s₁.table = s.table.modify a (fun c => { c with fd := fd c, fileOffset := 0 }) →
      s₁.table.allocated = s.table.allocated ∧ ∀ b, ∃ fd off, s₁.cell b =
        { s.cell b with fd := fd, fileOffset := off } := by
    intro s₁ fd htable
    refine ⟨by rw [htable]; rfl, ?_⟩
    intro b
    rw [cell, htable]
    by_cases hb : b = a
    · subst hb
      exact ⟨_, _, LockTable.modify_cells_self⟩
    · exact ⟨_, _, LockTable.modify_cells_of_ne hb⟩
  have hsame : ∀ s₁ : Server, s₁.table = s.table → s₁.table.allocated = s.table.allocated ∧
      ∀ b, ∃ fd off, s₁.cell b = { s.cell b with fd := fd, fileOffset := off } := by
    intro s₁ htable
    rw [htable]
    refine ⟨rfl, fun b => ⟨(s.cell b).fd, (s.cell b).fileOffset, ?_⟩⟩
    rw [cell, htable]
    rfl
  cases use with
  | «open» found =>
    have htable : (s.trFileOpen t found).1.table = s.table := by
      unfold trFileOpen
      split <;> rfl
    simp only [afterLock]
    split
    · exact hsame _ htable
    · apply hmodify _ fun _ => (s.trFileOpen t found).2
      exact congrArg (fun table => table.modify a fun c =>
        { c with fd := (s.trFileOpen t found).2, fileOffset := 0 }) htable
  | placeholder => exact hmodify _ (fun _ => 0) rfl
  | renameParent =>
    simp only [afterLock]
    split
    · exact hmodify _ (fun _ => 0) rfl
    · exact hsame _ rfl
  | keep => exact hsame _ rfl
  | host fd => exact hmodify _ (fun c => fd.getD c.fd) rfl

theorem requestLock_sameWrites {req : LockRequest} {first : Option (Option Addr)} {readBit : Int}
    (h : s.requestLock t req first readBit = some s') (hs : Owned s.table s.headTxnList) :
    SameWrites s s' x := by
  obtain ⟨found, loc, s₁, out, -, hspec, hend⟩ := requestLock_cases h
  have hsame := hspec.sameWrites (x := x) hs
  rcases hend with ⟨a, -, rfl⟩ | ⟨node, -, rfl⟩ | ⟨-, rfl⟩ | ⟨-, rfl⟩
  · obtain ⟨halloc, hcells⟩ := s₁.afterLock_cells t req.use (first.getD loc) a
    apply hsame.trans
    apply SameWrites.of_cells halloc
    · intro b
      obtain ⟨_, _, hcell⟩ := hcells b
      rw [hcell]
    · intro b _
      obtain ⟨_, _, hcell⟩ := hcells b
      rw [hcell]
  · exact hsame.trans (.of_table rfl)
  · exact hsame.trans (.of_table rfl)
  · exact hsame.trans (.of_table rfl)

/-! ## Log calls -/

/-- The kind of the write record in the first directory of a call. -/
def kindOf (c : NsCall) (newPos : Option Addr) : Int :=
  match c, newPos with
  | .rename .., none => -3
  | .rename .., some _ => -1
  | .creat .., _ => -4
  | .unlink _, _ => -5

/-- The second directory of a call. -/
def secondDir (c : NsCall) (newPos : Option Addr) : Option Addr :=
  match c with
  | .rename .. => newPos
  | .creat .. | .unlink _ => none

/-- What a call adds to the write list of the record `b`. -/
def addedWrites (c : NsCall) (pos : Addr) (newPos : Option Addr) (lrn : Int) (b : Addr) :
    List WriteRecord :=
  (if b = pos then [⟨0, kindOf c newPos, lrn⟩] else []) ++
    if secondDir c newPos = some b then [⟨0, -2, lrn⟩] else []

theorem addWriteRecord_cells (s : Server) (a : Addr) (w : WriteRecord) (b : Addr) :
    (s.addWriteRecord a w).cell b =
      { s.cell b with writesAt := (s.cell b).writesAt ++ if b = a then [w] else [] } := by
  by_cases hb : b = a
  · subst hb
    rw [if_pos rfl]
    exact Function.update_self ..
  · rw [if_neg hb, List.append_nil]
    exact Function.update_of_ne hb ..

/-- **The effect of a log call**: a log record at the end of the log, and write records with
    its LRN in the directories of the call. -/
theorem logEvent_spec {c : NsCall} {pos : Addr} {newPos : Option Addr}
    (h : s.logEvent t c pos newPos = some s') :
    (s.ownsRecord t pos ∧ ∀ p ∈ newPos, s.ownsRecord t p) ∧
      s'.eventLog = s.eventLog ++ [⟨s.logEnd, t, c⟩] ∧ s'.logEnd = s.logEnd + c.recordLength ∧
      s'.table.allocated = s.table.allocated ∧
      ∀ b, s'.cell b = { s.cell b with
        writesAt := (s.cell b).writesAt ++ addedWrites c pos newPos s.logEnd b } := by
  unfold logEvent at h
  split at h
  · rename_i hown
    refine ⟨hown.2, ?_⟩
    cases c with
    | rename oldpath newpath =>
      cases h
      cases newPos with
      | none =>
        refine ⟨rfl, rfl, rfl, ?_⟩
        intro b
        refine (addWriteRecord_cells _ pos _ b).trans ?_
        simp only [addedWrites, secondDir, reduceCtorEq, if_false, List.append_nil]
        rfl
      | some p =>
        refine ⟨rfl, rfl, rfl, ?_⟩
        intro b
        refine (addWriteRecord_cells _ p _ b).trans ?_
        rw [addWriteRecord_cells _ pos _ b, addedWrites]
        simp only [List.append_assoc, secondDir, Option.some.injEq, eq_comm]
        rfl
    | creat path mode =>
      cases h
      refine ⟨rfl, rfl, rfl, ?_⟩
      intro b
      refine (addWriteRecord_cells _ pos _ b).trans ?_
      simp only [addedWrites, secondDir, reduceCtorEq, if_false, List.append_nil]
      rfl
    | unlink path =>
      cases h
      refine ⟨rfl, rfl, rfl, ?_⟩
      intro b
      refine (addWriteRecord_cells _ pos _ b).trans ?_
      simp only [addedWrites, secondDir, reduceCtorEq, if_false, List.append_nil]
      rfl
  · cases h

/-- A call adds nothing to the records of the others. -/
theorem addedWrites_of_ne {c : NsCall} {pos b : Addr} {newPos : Option Addr} {lrn : Int}
    (hpos : b ≠ pos) (hnew : newPos ≠ some b) : addedWrites c pos newPos lrn b = [] := by
  have hsecond : secondDir c newPos ≠ some b := by
    cases c with
    | rename => exact hnew
    | creat => exact nofun
    | unlink => exact nofun
  rw [addedWrites, if_neg hpos, if_neg hsecond, List.append_nil]

theorem logEvent_sameWrites {c : NsCall} {pos : Addr} {newPos : Option Addr}
    (h : s.logEvent t c pos newPos = some s') (hx : x ≠ t) : SameWrites s s' x := by
  obtain ⟨⟨hpos, hnew⟩, -, -, halloc, hcells⟩ := logEvent_spec h
  apply SameWrites.of_cells halloc
  · intro b
    rw [hcells]
  · intro b hb
    have hbx := (mem_ownRecords.mp hb).2
    rw [hcells, addedWrites_of_ne, List.append_nil]
    · intro hbp
      rw [hbp, hpos.2] at hbx
      exact hx hbx.symm
    · intro hbp
      rw [(hnew b hbp).2] at hbx
      exact hx hbx.symm

/-! ## Steps -/

theorem Frees.sameWrites {close : Bool → Int → Option Act} {l : List Addr}
    (h : Frees close s t l a s' acts) (hs : Owned s.table s.headTxnList) (hx : x ≠ t) :
    SameWrites s s' x := by
  have ha := h.mem
  obtain ⟨n, r, -, -, hrel⟩ := h
  obtain ⟨hdel, -⟩ := hrel.frame
  obtain ⟨table, ns, hunlink, halloc, -, -, hcells, -⟩ := s.unlinkTxnList_frame t l.getLast? a
  rw [hunlink] at hdel
  have hunlinked : SameWrites s { s with table := table, headTxnList := ns } x := by
    apply SameWrites.of_cells halloc
    · intro b
      show (table.cells b).parentTxn = _
      rw [hcells]
      rfl
    · intro b _
      show (table.cells b).writesAt = _
      rw [hcells]
      rfl
  apply hunlinked.trans
  apply SameWrites.erase _ hdel
  · show (table.cells a).parentTxn ≠ x
    rw [hcells]
    exact fun hax => hx (hax.symm.trans ha.2)
  · exact halloc ▸ hs.nodup


/-- **A step of the others**, and a step that is no log call, leaves the write lists. -/
theorem step_sameWrites {e : Event} (hs : Owned s.table s.headTxnList) (h : s.step e = some s')
    (hrel : ¬ e.Releases x) (hcall : ∀ c pos newPos, e ≠ .call x c pos newPos) :
    SameWrites s s' x := by
  cases step_spec h with
  | begin hfresh => exact .of_table rfl
  | lock hthread hreq => exact requestLock_sameWrites hreq hs
  | resume hthread hreq => exact requestLock_sameWrites hreq hs
  | wake hthread hwake => exact .of_table (afterCondWait_frame hwake).1
  | leaveAsVictim hthread hwake =>
    obtain ⟨_, -, rfl⟩ := afterWakeCond_spec hwake
    exact .of_table rfl
  | @call t c pos newPos _ hlog =>
    have htx : x ≠ t := fun htx => hcall c pos newPos (htx ▸ rfl)
    exact logEvent_sameWrites hlog htx
  | @commit t s₁ _ acts hthread hrun hend =>
    have hx : x ≠ t := fun hxt => hrel hxt.symm
    have hsame := releaseLocks_sameWrites (fun _ _ _ _ _ => performWrites_queues) hs hrun hx
    obtain ⟨ns, -, rfl⟩ := endTxn_spec hend
    exact hsame.trans (.of_table rfl)
  | @abort t s₁ _ acts hthread hrun hend =>
    have hx : x ≠ t := fun hxt => hrel hxt.symm
    have hsame := releaseLocks_sameWrites (fun _ _ _ _ _ _ => discardWrites_queues) hs hrun hx
    obtain ⟨ns, -, rfl⟩ := endTxn_spec hend
    exact hsame.trans (.of_table rfl)
  | releaseByBackup hthread hrun =>
    obtain ⟨l, a, -, hfree⟩ := releaseLocksByBackup_spec hs hrun
    exact hfree.sameWrites hs hrel
  | endBackup hthread hnone hend =>
    obtain ⟨ns, -, rfl⟩ := endTxn_spec hend
    exact .of_table rfl
  | markVictim hmark =>
    obtain ⟨w, -, rfl⟩ := markVictim_spec hmark
    exact .of_table rfl
  | setBackup => exact .of_table rfl

end Server

end TxFS
