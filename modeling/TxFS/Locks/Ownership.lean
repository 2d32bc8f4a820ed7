import TxFS.Locks.Requests

/-!
# Ownership

Every record of the lock table belongs to a live transaction, and following `next_txn` from
the transaction's `file_rec_no` visits exactly its records, each once. Nothing in the server
breaks this, so it holds without any condition on the run.
-/

namespace TxFS

open LinkedPath

/-! ## The invariant -/

/-- Following `next_txn` from `start` visits exactly the records of the transaction `x`. -/
def LockTable.Chain (t : LockTable) (start : Option Addr) (x : Int) (ys : List Addr) : Prop :=
  IsPath (fun b => (t.cells b).nextTxn) start ys ∧
    ∀ a, a ∈ ys ↔ a ∈ t.allocated ∧ (t.cells a).parentTxn = x

/-- **Ownership** of the records in `t` by the transactions `ns`. -/
structure Owned (t : LockTable) (ns : List TxnNode) : Prop where
  ids : (ns.map TxnNode.txnId).Nodup
  nodup : t.allocated.Nodup
  lt_brk : ∀ a ∈ t.allocated, a < t.brk
  chain : ∀ n ∈ ns, ∃ ys, t.Chain n.fileRecNo n.txnId ys
  live : ∀ a ∈ t.allocated, ∃ n ∈ ns, n.txnId = (t.cells a).parentTxn

namespace Owned

variable {t t' : LockTable} {ns ns' : List TxnNode} {n : TxnNode} {x : Int} {a : Addr}

theorem brk_notMem (h : Owned t ns) : t.brk ∉ t.allocated :=
  fun hmem => Nat.lt_irrefl _ (h.lt_brk _ hmem)

/-- The fuel `brk + 1` suffices to walk the records of a transaction. -/
theorem chain_length (h : Owned t ns) {start : Option Addr} {ys : List Addr}
    (hys : t.Chain start x ys) : ys.length < t.brk + 1 :=
  Nat.lt_succ_of_le (LockTable.length_le_brk hys.1.nodup fun b hb => h.lt_brk b ((hys.2 b).mp hb).1)

theorem search_eq (h : Owned t ns) (hn : n ∈ ns) : searchTxn n.txnId ns = some n :=
  searchTxn_of_mem h.ids hn

/-- A transaction has a first record exactly if it owns one. -/
theorem fileRecNo_eq_none_iff (h : Owned t ns) (hn : n ∈ ns) :
    n.fileRecNo = none ↔ ∀ a ∈ t.allocated, (t.cells a).parentTxn ≠ n.txnId := by
  obtain ⟨ys, hpath, hmem⟩ := h.chain n hn
  cases ys with
  | nil =>
    refine ⟨fun _ a ha hat => ?_, fun _ => hpath⟩
    exact absurd ((hmem a).mpr ⟨ha, hat⟩) (by simp)
  | cons b ys =>
    have hb := (hmem b).mp (List.mem_cons_self ..)
    refine ⟨fun hnone => absurd (hnone.symm.trans hpath.1) (by simp), fun hno => ?_⟩
    exact absurd hb.2 (hno b hb.1)

/-- The invariant depends on the parents, the `next_txn` links and the first records. -/
theorem congr (h : Owned t ns) (halloc : t'.allocated = t.allocated) (hbrk : t'.brk = t.brk)
    (hcells : ∀ b, (t'.cells b).parentTxn = (t.cells b).parentTxn ∧
      (t'.cells b).nextTxn = (t.cells b).nextTxn) (hns : SameHeads ns ns') : Owned t' ns' where
  ids := by rw [hns.ids]; exact h.ids
  nodup := by rw [halloc]; exact h.nodup
  lt_brk := by rw [halloc, hbrk]; exact h.lt_brk
  chain := fun n' hn' => by
    have hkey : n'.key ∈ ns.map TxnNode.key := hns ▸ List.mem_map_of_mem hn'
    obtain ⟨n, hn, hkey⟩ := List.mem_map.mp hkey
    obtain ⟨ys, hpath, hmem⟩ := h.chain n hn
    simp only [TxnNode.key, Prod.mk.injEq] at hkey
    refine ⟨ys, ?_, fun a => ?_⟩
    · rw [← hkey.2.1]
      exact hpath.congr fun b _ => (hcells b).2
    · rw [hmem, halloc, (hcells a).1, hkey.1]
  live := fun a ha => by
    rw [halloc] at ha
    obtain ⟨n, hn, hid⟩ := h.live a ha
    have hid' : n.txnId ∈ ns'.map TxnNode.txnId := hns.ids ▸ List.mem_map_of_mem hn
    obtain ⟨n', hn', hid'⟩ := List.mem_map.mp hid'
    exact ⟨n', hn', by rw [hid', hid, (hcells a).1]⟩

theorem sameLinks (h : Owned t ns) (hs : t.SameLinks t') (hns : SameHeads ns ns') :
    Owned t' ns' :=
  h.congr hs.allocated hs.brk (fun b => ⟨hs.parentTxn b, hs.nextTxn b⟩) hns

/-! ## Begin and end of a transaction -/

/-- A new transaction owns nothing. -/
theorem begin (h : Owned t ns) {lrn : Int} (hfresh : searchTxn x ns = none) :
    Owned t (newTxnInsert x lrn ns) := by
  have hperm : (newTxnInsert x lrn ns).Perm (getTxnNode x lrn :: ns) := newTxnInsert_perm
  have hnot : ∀ n ∈ ns, n.txnId ≠ x := fun n hn hx => by
    have := h.search_eq hn
    rw [hx, hfresh] at this
    cases this
  exact {
    ids := by
      refine (hperm.map TxnNode.txnId).nodup_iff.mpr (List.nodup_cons.mpr ⟨?_, h.ids⟩)
      rintro hmem
      obtain ⟨n, hn, hx⟩ := List.mem_map.mp hmem
      exact hnot n hn hx
    nodup := h.nodup
    lt_brk := h.lt_brk
    chain := fun n hn => by
      rcases List.mem_cons.mp (hperm.mem_iff.mp hn) with rfl | hn
      · refine ⟨[], rfl, fun a => ⟨fun ha => absurd ha (by simp), fun ⟨ha, hax⟩ => ?_⟩⟩
        obtain ⟨n, hn, hid⟩ := h.live a ha
        exact absurd (hid.trans hax) (hnot n hn)
      · exact h.chain n hn
    live := fun a ha => by
      obtain ⟨n, hn, hid⟩ := h.live a ha
      exact ⟨n, hperm.mem_iff.mpr (List.mem_cons_of_mem _ hn), hid⟩ }

/-- A transaction without records can be deleted. -/
theorem delete (h : Owned t ns) (hdel : txnDelete x ns = some ns')
    (hnone : ∀ n ∈ ns, n.txnId = x → n.fileRecNo = none) : Owned t ns' := by
  obtain ⟨m, hm, hperm⟩ := txnDelete_perm hdel
  have hids := (hperm.map TxnNode.txnId).nodup_iff.mp h.ids
  rw [List.map_cons, List.nodup_cons] at hids
  exact {
    ids := hids.2
    nodup := h.nodup
    lt_brk := h.lt_brk
    chain := fun n hn => h.chain n (hperm.mem_iff.mpr (List.mem_cons_of_mem _ hn))
    live := fun a ha => by
      obtain ⟨n, hn, hid⟩ := h.live a ha
      rcases List.mem_cons.mp (hperm.mem_iff.mp hn) with rfl | hn'
      · -- the deleted transaction owns no record
        exact absurd hid.symm ((h.fileRecNo_eq_none_iff hn).mp (hnone n hn hm) a ha)
      · exact ⟨n, hn', hid⟩ }

/-! ## Removing a record -/

/-- **Removal** of the record `a` from the middle of the chain of its transaction. -/
theorem remove (h : Owned t ns) (hn : n ∈ ns) {l r : List Addr}
    (hchain : t.Chain n.fileRecNo n.txnId (l ++ a :: r))
    (halloc : t'.allocated = t.allocated.erase a) (hbrk : t'.brk = t.brk)
    (hparent : ∀ b ≠ a, (t'.cells b).parentTxn = (t.cells b).parentTxn)
    (hnext : ∀ b ≠ a, (t'.cells b).nextTxn =
      if l.getLast? = some b then (t.cells a).nextTxn else (t.cells b).nextTxn) :
    Owned t' (setFileRecNo n.txnId (if l = [] then (t.cells a).nextTxn else n.fileRecNo) ns) := by
  obtain ⟨hpath, hmem⟩ := hchain
  have hsplit := LockTable.notMem_split hpath.nodup
  have ha := (hmem a).mp (by simp)
  have herase : ∀ b, b ∈ t'.allocated ↔ b ≠ a ∧ b ∈ t.allocated := fun b => by
    rw [halloc, h.nodup.mem_erase_iff]
  exact {
    ids := by
      rw [map_txnId_setFileRecNo]
      exact h.ids
    nodup := by rw [halloc]; exact h.nodup.erase a
    lt_brk := fun b hb => by rw [hbrk]; exact h.lt_brk b ((herase b).mp hb).2
    chain := fun m hm => by
      rcases (mem_updateTxn h.ids).mp hm with ⟨hm, hne⟩ | ⟨k, hk, hkn, rfl⟩
      · -- another transaction: no record of its chain has changed
        obtain ⟨ys, hpath', hmem'⟩ := h.chain m hm
        have hother : ∀ b ∈ ys, b ≠ a ∧ l.getLast? ≠ some b := fun b hb => by
          have hbm := ((hmem' b).mp hb).2
          refine ⟨fun hba => hne (hbm.symm.trans (hba ▸ ha.2)), fun hlast => ?_⟩
          have hbl := (hmem b).mp (List.mem_append_left _ (List.mem_of_getLast? hlast))
          exact hne (hbm.symm.trans hbl.2)
        refine ⟨ys, hpath'.congr fun b hb => ?_, fun b => ?_⟩
        · rw [hnext b (hother b hb).1, if_neg (hother b hb).2]
        · rw [herase, hmem']
          constructor
          · rintro ⟨hb, hbm⟩
            have hba := (hother b ((hmem' b).mpr ⟨hb, hbm⟩)).1
            exact ⟨⟨hba, hb⟩, by rw [hparent b hba, hbm]⟩
          · rintro ⟨⟨hba, hb⟩, hbm⟩
            exact ⟨hb, by rw [← hparent b hba, hbm]⟩
      · -- the transaction itself
        have hkn' : k = n := by
          have h1 := h.search_eq hk
          rw [hkn, h.search_eq hn] at h1
          exact (Option.some.inj h1).symm
        subst hkn'
        refine ⟨l ++ r, hpath.remove rfl (fun b hb => ?_) (fun b hb hne => ?_), fun b => ?_⟩
        · -- the last record in front of `a` leads to the one behind it
          have hba : b ≠ a := fun hba => hsplit.1 (hba ▸ List.mem_of_getLast? hb)
          rw [hnext b hba, if_pos hb]
        · have hba : b ≠ a := fun hba => by
            rcases List.mem_append.mp hb with hb | hb
            · exact hsplit.1 (hba ▸ hb)
            · exact hsplit.2.1 (hba ▸ hb)
          rw [hnext b hba, if_neg hne]
        · rw [herase]
          have hiff := hmem b
          simp only [List.mem_append, List.mem_cons] at hiff ⊢
          constructor
          · intro hb
            have hba : b ≠ a := fun hba => hb.elim (fun hb => hsplit.1 (hba ▸ hb))
              fun hb => hsplit.2.1 (hba ▸ hb)
            have := hiff.mp (hb.imp_right .inr)
            exact ⟨⟨hba, this.1⟩, by rw [hparent b hba, this.2]⟩
          · rintro ⟨⟨hba, hb⟩, hbk⟩
            rw [hparent b hba] at hbk
            rcases hiff.mpr ⟨hb, hbk⟩ with hb | hb | hb
            · exact .inl hb
            · exact absurd hb hba
            · exact .inr hb
    live := fun b hb => by
      obtain ⟨hba, hb⟩ := (herase b).mp hb
      obtain ⟨m, hm, hid⟩ := h.live b hb
      -- the transactions keep their ids
      have hids : m.txnId ∈ (setFileRecNo n.txnId
          (if l = [] then (t.cells a).nextTxn else n.fileRecNo) ns).map TxnNode.txnId := by
        rw [map_txnId_setFileRecNo]
        exact List.mem_map_of_mem hm
      obtain ⟨m', hm', hid'⟩ := List.mem_map.mp hids
      exact ⟨m', hm', by rw [hid', hid, hparent b hba]⟩ }

/-! ## Inserting a record -/

/-- A record of another transaction sees neither the new record nor its new link. -/
theorem chain_of_other (h : Owned t ns) {start : Option Addr} {y : Int} {ys : List Addr}
    (hys : t.Chain start y ys) (hne : y ≠ x)
    (halloc : t'.allocated = t.brk :: t.allocated) (hnewParent : (t'.cells t.brk).parentTxn = x)
    (hparent : ∀ b ≠ t.brk, (t'.cells b).parentTxn = (t.cells b).parentTxn)
    (hnext : ∀ b ∈ t.allocated, (t.cells b).parentTxn ≠ x →
      (t'.cells b).nextTxn = (t.cells b).nextTxn) : t'.Chain start y ys := by
  have hfresh := h.brk_notMem
  obtain ⟨hpath, hmem⟩ := hys
  refine ⟨hpath.congr fun b hb => ?_, fun b => ?_⟩
  · obtain ⟨hb, hby⟩ := (hmem b).mp hb
    exact hnext b hb (hby ▸ hne)
  · rw [hmem, halloc, List.mem_cons]
    by_cases hb : b = t.brk
    · subst hb
      simp [hfresh, hnewParent, Ne.symm hne]
    · simp [hb, hparent b hb]

/-- **Insertion** of the record `t.brk` at the end of the chain of `n`. -/
theorem insert (h : Owned t ns) (hn : n ∈ ns) (ys : List Addr)
    (halloc : t'.allocated = t.brk :: t.allocated) (hbrk : t'.brk = t.brk + 1)
    (hnewParent : (t'.cells t.brk).parentTxn = n.txnId)
    (hparent : ∀ b ≠ t.brk, (t'.cells b).parentTxn = (t.cells b).parentTxn)
    (hnext : ∀ b ∈ t.allocated, (t.cells b).parentTxn ≠ n.txnId →
      (t'.cells b).nextTxn = (t.cells b).nextTxn)
    (hns : ns'.map TxnNode.txnId = ns.map TxnNode.txnId)
    (hnodes : ∀ m' ∈ ns', m'.txnId ≠ n.txnId → ∃ m ∈ ns, m.key = m'.key)
    (hown : ∀ m' ∈ ns', m'.txnId = n.txnId →
      IsPath (fun b => (t'.cells b).nextTxn) m'.fileRecNo (ys ++ [t.brk]))
    (hys : ∀ b, b ∈ ys ↔ b ∈ t.allocated ∧ (t.cells b).parentTxn = n.txnId) : Owned t' ns' where
  ids := hns ▸ h.ids
  nodup := by rw [halloc]; exact List.nodup_cons.mpr ⟨h.brk_notMem, h.nodup⟩
  lt_brk := fun b hb => by
    rw [hbrk]
    rw [halloc] at hb
    rcases List.mem_cons.mp hb with rfl | hb
    · exact Nat.lt_succ_self _
    · exact Nat.lt_succ_of_lt (h.lt_brk b hb)
  chain := fun m' hm' => by
    by_cases hid : m'.txnId = n.txnId
    · refine ⟨ys ++ [t.brk], hown m' hm' hid, fun b => ?_⟩
      rw [List.mem_append, List.mem_singleton, hys, halloc, List.mem_cons, hid]
      by_cases hb : b = t.brk
      · subst hb
        simp [hnewParent]
      · simp [hb, hparent b hb]
    · obtain ⟨m, hm, hkey⟩ := hnodes m' hm' hid
      simp only [TxnNode.key, Prod.mk.injEq] at hkey
      obtain ⟨zs, hzs⟩ := h.chain m hm
      rw [hkey.1, hkey.2.1] at hzs
      exact ⟨zs, h.chain_of_other hzs hid halloc hnewParent hparent hnext⟩
  live := fun b hb => by
    have hmem : ∀ m ∈ ns, ∃ m' ∈ ns', m'.txnId = m.txnId := fun m hm => by
      have := List.mem_map_of_mem (f := TxnNode.txnId) hm
      rw [← hns] at this
      exact List.mem_map.mp this
    rw [halloc] at hb
    rcases List.mem_cons.mp hb with rfl | hb
    · obtain ⟨m', hm', hid⟩ := hmem n hn
      exact ⟨m', hm', hid.trans hnewParent.symm⟩
    · obtain ⟨m, hm, hid⟩ := h.live b hb
      obtain ⟨m', hm', hid'⟩ := hmem m hm
      have hbne : b ≠ t.brk := fun hbb => h.brk_notMem (hbb ▸ hb)
      exact ⟨m', hm', by rw [hid', hid, hparent b hbne]⟩

end Owned

/-! ## Grants -/

namespace Server

variable {s s' : Server} {table : LockTable} {c : FileLock} {t readBit : Int}

/-- **A grant keeps ownership**: the new record is the last one of its transaction. -/
theorem GrantedIn.owned (h : Owned s.table s.headTxnList) (hins : s.table.Inserted table c)
    (hparent : c.parentTxn = t) (hnext : c.nextTxn = none) (hgrant : GrantedIn s t readBit table s') :
    Owned s'.table s'.headTxnList := by
  obtain ⟨s₁, ⟨pauses, index, ns, rfl, hns⟩, hinsert⟩ := hgrant
  have h₁ : Owned s.table ns := h.sameLinks (.refl _) hns
  -- the old records keep their owner and their link in the chain
  have hold : ∀ b ≠ s.table.brk, (table.cells b).parentTxn = (s.table.cells b).parentTxn ∧
      (table.cells b).nextTxn = (s.table.cells b).nextTxn := fun b hb =>
    ⟨(FileLock.content_fields (hins.content b hb)).2.2.2.2.1,
      (FileLock.content_fields (hins.content b hb)).2.2.2.2.2.1⟩
  have hnew : (table.cells s.table.brk).parentTxn = t ∧ (table.cells s.table.brk).nextTxn = none :=
    ⟨(FileLock.content_fields hins.new).2.2.2.2.1.trans hparent,
      (FileLock.content_fields hins.new).2.2.2.2.2.1.trans hnext⟩
  have hne : ∀ b ∈ s.table.allocated, b ≠ s.table.brk := fun b hb hbb =>
    h.brk_notMem (hbb ▸ hb)
  obtain ⟨n, hn, hcases⟩ := insertSameTxnList_cases hinsert
  have hn' : n ∈ ns := searchTxn_mem hn
  have hid : n.txnId = t := searchTxn_id hn
  obtain ⟨ys, hpath, hmem⟩ := h₁.chain n hn'
  rw [hid] at hmem
  rcases hcases with ⟨hnone, rfl⟩ | ⟨first, last, hfirst, hlast, rfl⟩
  · -- the first record of the transaction
    have hys : ys = [] := by
      cases ys with
      | nil => rfl
      | cons b ys => exact absurd (hnone.symm.trans hpath.1) (by simp)
    subst hys
    refine h₁.insert hn' [] hins.allocated hins.brk (hnew.1.trans hid.symm)
      (fun b hb => (hold b hb).1) (fun b hb _ => (hold b (hne b hb)).2)
      (map_txnId_updateTxn (by intro _; rfl)) (fun m' hm' hm => ?_) (fun m' hm' hm => ?_)
      (by rw [hid]; exact hmem)
    · rcases (mem_updateTxn h₁.ids).mp hm' with ⟨hm', -⟩ | ⟨k, hk, hkt, rfl⟩
      · exact ⟨m', hm', rfl⟩
      · exact absurd (hkt.trans hid.symm) hm
    · rcases (mem_updateTxn h₁.ids).mp hm' with ⟨-, hm'⟩ | ⟨k, hk, hkt, rfl⟩
      · exact absurd (hm.trans hid) hm'
      · exact ⟨rfl, hnew.2⟩
  · -- behind its last record
    have hpath' : IsPath (fun b => (table.cells b).nextTxn) (some first) ys :=
      hfirst ▸ hpath.congr fun b hb => (hold b (hne b ((hmem b).mp hb).1)).2
    obtain ⟨zs, rfl⟩ : ∃ zs, ys = first :: zs := by
      cases ys with
      | nil => exact absurd hpath' (by simp [isPath_nil])
      | cons b zs => exact ⟨zs, by rw [Option.some.inj hpath'.1]⟩
    -- the walk to the last record has enough fuel
    have hlen : zs.length < table.brk + 1 := by
      have := h₁.chain_length ⟨hpath, hid ▸ hmem⟩
      rw [hins.brk]
      simp only [List.length_cons] at this
      exact Nat.lt_succ_of_lt (Nat.lt_of_succ_lt this)
    have hend := (walkToEnd_eq hpath'.2 hlen).symm.trans hlast
    have hlastMem := (hmem last).mp (List.mem_of_getLast? hend)
    have hlastBrk : s.table.brk ≠ last := fun hb => hne last hlastMem.1 hb.symm
    refine h₁.insert hn' (first :: zs) hins.allocated hins.brk ?_ (fun b hb => ?_)
      (fun b hb hbt => ?_) rfl (fun m' hm' _ => ⟨m', hm', rfl⟩) (fun m' hm' hm => ?_)
      (by rw [hid]; exact hmem)
    · rw [modifyCell, LockTable.modify_cells_of_ne hlastBrk]
      exact hnew.1.trans hid.symm
    · by_cases hbl : b = last
      · subst hbl
        rw [modifyCell, LockTable.modify_cells_self]
        exact (hold b hb).1
      · rw [modifyCell, LockTable.modify_cells_of_ne hbl]
        exact (hold b hb).1
    · have hbl : b ≠ last := fun hbl => hbt (hbl ▸ hid ▸ hlastMem.2)
      rw [modifyCell, LockTable.modify_cells_of_ne hbl]
      exact (hold b (hne b hb)).2
    · -- the chain of `t` is longer by the new record
      have hmn : m' = n := by
        have h1 := h₁.search_eq hm'
        rw [hm, hid, hn] at h1
        exact (Option.some.inj h1).symm
      subst hmn
      rw [hfirst]
      refine hpath'.snoc (by simp) (fun b hb => ?_) (fun b hb hbl => ?_) ?_
      · have hbl : b = last := Option.some.inj (hb.symm.trans hend)
        subst hbl
        simp [modifyCell, LockTable.modify]
      · have hbl : b ≠ last := fun h => hbl (h ▸ hend)
        rw [modifyCell, LockTable.modify_cells_of_ne hbl]
      · rw [modifyCell, LockTable.modify_cells_of_ne hlastBrk]
        exact hnew.2

end Server

end TxFS
