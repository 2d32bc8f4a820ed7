import TxFS.Table.DoublyLinked

/-!
# Well-Linked Lock Tables

`WellLinked t xs` says that the lock list of `t` is `xs`: the list order, both directions
of both kinds of links, the order of the inodes and the exclusive locks. The record at the
head has itself as `prev`, as `insert_file_list` and `delete_file_list` leave it.

Deleting a record and inserting one at its place keep a table well linked.
-/

namespace TxFS

open LinkedPath

namespace LockTable

/-! ## The invariant -/

/-- **The lock list of `t` is `xs`.** -/
structure WellLinked (t : LockTable) (xs : List Addr) : Prop where
  perm : xs.Perm t.allocated
  nodup : xs.Nodup
  lt_brk : ∀ a ∈ xs, a < t.brk
  head : t.headLockList = xs.head?
  sorted : xs.Pairwise fun a b => t.inode a ≤ t.inode b
  next : ∀ a ∈ xs, (t.cells a).next = after xs a
  prev : ∀ a ∈ xs, (t.cells a).prev = some ((before xs a).getD a)
  nextShared : ∀ a ∈ xs, (t.cells a).nextSharedRec =
    (after xs a).filter fun b => t.inode b = t.inode a
  prevShared : ∀ a ∈ xs, (t.cells a).prevSharedRec =
    (before xs a).filter fun b => t.inode b = t.inode a
  mode : ∀ a ∈ xs, (t.cells a).fileMode = 0 ∨ (t.cells a).fileMode = 1
  exclusive : ∀ a ∈ xs, ∀ b ∈ xs, (t.cells a).fileMode ≠ 0 → t.inode a = t.inode b → a = b

variable {t t' : LockTable} {xs l r : List Addr} {a b : Addr}

/-- What every deletion of `a` leaves alone, in any table. -/
structure Deleted (t t' : LockTable) (a : Addr) : Prop where
  allocated : t'.allocated = t.allocated.erase a
  brk : t'.brk = t.brk
  content : ∀ b ≠ a, (t'.cells b).content = (t.cells b).content

/-- What every insertion of a record `c` leaves alone, in any table. -/
structure Inserted (t t' : LockTable) (c : FileLock) : Prop where
  allocated : t'.allocated = t.brk :: t.allocated
  brk : t'.brk = t.brk + 1
  content : ∀ b ≠ t.brk, (t'.cells b).content = (t.cells b).content
  new : (t'.cells t.brk).content = c.content

theorem deleteFileList_deleted (h : t.deleteFileList a = some t') : Deleted t t' a where
  allocated := (deleteFileList_rest h).1
  brk := (deleteFileList_rest h).2.1
  content := fun b hb => by rw [deleteFileList_cells h hb]; rfl

theorem unlinkShared_deleted (h : (t.unlinkShared a).deleteFileList a = some t') :
    Deleted t t' a where
  allocated := by rw [(deleteFileList_rest h).1, unlinkShared_rest.1]
  brk := by rw [(deleteFileList_rest h).2.1, unlinkShared_rest.2.1]
  content := fun b hb => by rw [deleteFileList_cells h hb, unlinkShared_cells]; rfl

theorem insertAfter_inserted {c : FileLock} : Inserted t (t.insertAfter b c) c where
  allocated := insertAfter_rest.1
  brk := insertAfter_rest.2.1
  content := fun d hd => by rw [insertAfter_cells hd]; rfl
  new := insertAfter_content_new

theorem WellLinked.mem_iff (h : WellLinked t xs) : a ∈ xs ↔ a ∈ t.allocated := h.perm.mem_iff

theorem wellLinked_nil (hhead : t.headLockList = none) (halloc : t.allocated = []) :
    WellLinked t [] where
  perm := by simp [halloc]
  nodup := List.nodup_nil
  lt_brk := by simp
  head := by simp [hhead]
  sorted := List.Pairwise.nil
  next := by simp
  prev := by simp
  nextShared := by simp
  prevShared := by simp
  mode := by simp
  exclusive := by simp

/-- The invariant does not see the other fields of the records. -/
theorem WellLinked.congr (h : WellLinked t xs) (halloc : t'.allocated = t.allocated)
    (hbrk : t'.brk = t.brk) (hhead : t'.headLockList = t.headLockList)
    (hlinks : ∀ b, (t'.cells b).next = (t.cells b).next ∧ (t'.cells b).prev = (t.cells b).prev ∧
      (t'.cells b).nextSharedRec = (t.cells b).nextSharedRec ∧
      (t'.cells b).prevSharedRec = (t.cells b).prevSharedRec)
    (hkey : ∀ b, (t'.cells b).fileInode = (t.cells b).fileInode ∧
      (t'.cells b).fileMode = (t.cells b).fileMode) : WellLinked t' xs := by
  have hinode : t'.inode = t.inode := funext fun b => (hkey b).1
  exact {
    perm := by rw [halloc]; exact h.perm
    nodup := h.nodup
    lt_brk := by rw [hbrk]; exact h.lt_brk
    head := by rw [hhead]; exact h.head
    sorted := by rw [hinode]; exact h.sorted
    next := fun a ha => by rw [(hlinks a).1]; exact h.next a ha
    prev := fun a ha => by rw [(hlinks a).2.1]; exact h.prev a ha
    nextShared := fun a ha => by rw [(hlinks a).2.2.1, hinode]; exact h.nextShared a ha
    prevShared := fun a ha => by rw [(hlinks a).2.2.2, hinode]; exact h.prevShared a ha
    mode := fun a ha => by rw [(hkey a).2]; exact h.mode a ha
    exclusive := fun a ha b hb => by rw [(hkey a).2, hinode]; exact h.exclusive a ha b hb }

/-- The part of the invariant that is about `next` and `prev`. -/
theorem WellLinked.doublyLinked (h : WellLinked t xs) : DoublyLinked t xs where
  nodup := h.nodup
  lt_brk := h.lt_brk
  head := h.head
  sorted := h.sorted
  next := h.next
  prev := h.prev

theorem WellLinked.brk_notMem (h : WellLinked t xs) : t.brk ∉ xs := h.doublyLinked.brk_notMem

/-! ## Records of one inode -/

/-- A record without shared links is the only one of its inode: the records of an inode are
    neighbours. -/
theorem WellLinked.alone_iff (h : WellLinked t xs) (ha : a ∈ xs) :
    ((t.cells a).nextSharedRec = none ∧ (t.cells a).prevSharedRec = none) ↔
      ∀ b ∈ xs, t.inode b = t.inode a → b = a := by
  obtain ⟨l, r, rfl⟩ := List.append_of_mem ha
  obtain ⟨hal, har, hnd⟩ := notMem_split h.nodup
  have hsorted := List.pairwise_append.mp h.sorted
  obtain ⟨hle, hge, -⟩ := sorted_split h.sorted
  rw [h.nextShared a ha, h.prevShared a ha, after_split hal, before_split har]
  constructor
  · rintro ⟨hn, hp⟩ b hb hsame
    rcases List.mem_append.mp hb with hbl | hbr
    · -- the last element of `l` would be of the same inode
      obtain ⟨l', c, rfl⟩ := (List.eq_nil_or_concat' l).resolve_left (List.ne_nil_of_mem hbl)
      have hca : ¬ t.inode c = t.inode a := by
        simpa [Option.filter] using hp
      have hbc : t.inode b ≤ t.inode c := by
        rcases List.mem_append.mp hbl with hb' | hb'
        · exact (List.pairwise_append.mp hsorted.1).2.2 b hb' c (by simp)
        · exact List.mem_singleton.mp hb' ▸ Int.le_refl _
      have := hle c (by simp)
      omega
    · rcases List.mem_cons.mp hbr with rfl | hbr
      · rfl
      · obtain ⟨c, r', rfl⟩ := List.exists_cons_of_ne_nil (List.ne_nil_of_mem hbr)
        have hca : ¬ t.inode c = t.inode a := by
          simpa [Option.filter] using hn
        have hcb : t.inode c ≤ t.inode b := by
          rcases List.mem_cons.mp hbr with rfl | hb'
          · exact Int.le_refl _
          · exact (List.pairwise_cons.mp (List.pairwise_cons.mp hsorted.2.1).2).1 b hb'
        have := hge c (by simp)
        omega
  · intro halone
    constructor
    · cases hr : r.head? with
      | none => rfl
      | some c =>
        have hc := List.mem_of_head? hr
        have hca : ¬ t.inode c = t.inode a := fun hsame =>
          har (halone c (by simp [hc]) hsame ▸ hc)
        simp [Option.filter, hca]
    · cases hl : l.getLast? with
      | none => rfl
      | some c =>
        have hc := List.mem_of_getLast? hl
        have hca : ¬ t.inode c = t.inode a := fun hsame =>
          hal (halone c (by simp [hc]) hsame ▸ hc)
        simp [Option.filter, hca]

/-- A record in exclusive mode has no shared links. -/
theorem WellLinked.alone_of_exclusive (h : WellLinked t xs) (ha : a ∈ xs)
    (hex : (t.cells a).fileMode ≠ 0) :
    (t.cells a).nextSharedRec = none ∧ (t.cells a).prevSharedRec = none :=
  (h.alone_iff ha).mpr fun b hb hsame => (h.exclusive a ha b hb hex hsame.symm).symm

/-- The neighbour of an inode, when no inode has changed. -/
theorem filter_inode_congr {i : Int} {o : Option Addr}
    (hinode : ∀ c ∈ xs, t'.inode c = t.inode c) (ho : ∀ c, o = some c → c ∈ xs) :
    (o.filter fun c => decide (t'.inode c = i)) = o.filter fun c => decide (t.inode c = i) := by
  cases o with
  | none => rfl
  | some c => simp [Option.filter, hinode c (ho c rfl)]

/-! ## Deletion -/

/-- **Deletion** with the shared links unlinked first: the record is gone and the rest of
    the list is well linked. -/
theorem WellLinked.delete (h : WellLinked t (l ++ a :: r)) :
    ∃ t', (t.unlinkShared a).deleteFileList a = some t' ∧ WellLinked t' (l ++ r) := by
  obtain ⟨hal, har, hnd⟩ := notMem_split h.nodup
  obtain ⟨hle, hge, -⟩ := sorted_split h.sorted
  have ha : a ∈ l ++ a :: r := by simp
  have hmem : ∀ b ∈ l ++ r, b ∈ l ++ a :: r ∧ b ≠ a := fun _ => mem_both_sides h.nodup
  -- the shared links of the deleted record
  have hnextS : (t.cells a).nextSharedRec = r.head?.filter fun b => t.inode b = t.inode a := by
    rw [h.nextShared a ha, after_split hal]
  have hprevS : (t.cells a).prevSharedRec =
      l.getLast?.filter fun b => t.inode b = t.inode a := by
    rw [h.prevShared a ha, before_split har]
  -- unlinking them leaves the list as it is
  obtain ⟨halloc₁, hbrk₁, hhead₁⟩ := unlinkShared_rest (t := t) (a := a)
  have hlist : DoublyLinked (t.unlinkShared a) (l ++ a :: r) :=
    h.doublyLinked.congr hbrk₁ hhead₁ (fun b => by simp [unlinkShared_cells])
      fun b => by simp [unlinkShared_cells]
  obtain ⟨t', ht', hlist'⟩ := hlist.delete
  obtain ⟨halloc, -, -⟩ := deleteFileList_rest ht'
  have hcells := fun b (hb : b ≠ a) => deleteFileList_cells ht' hb
  simp only [unlinkShared_cells, halloc₁] at halloc hcells
  have hinode : ∀ b ∈ l ++ r, t'.inode b = t.inode b := fun b hb => by
    simp [inode, hcells b (hmem b hb).2]
  have hmode : ∀ b ∈ l ++ r, (t'.cells b).fileMode = (t.cells b).fileMode := fun b hb => by
    rw [hcells b (hmem b hb).2]
  refine ⟨t', ht', ?_⟩
  exact {
    perm := by
      rw [halloc]
      have herase := (h.perm.erase a)
      rwa [List.erase_append_right _ hal, List.erase_cons_head] at herase
    nodup := hlist'.nodup
    lt_brk := hlist'.lt_brk
    head := hlist'.head
    sorted := hlist'.sorted
    next := hlist'.next
    prev := hlist'.prev
    nextShared := fun b hb => by
      obtain ⟨hb', hba⟩ := hmem b hb
      have hold := h.nextShared b hb'
      rw [after_insert hnd hb hba] at hold
      rw [hinode b hb, filter_inode_congr hinode fun c => mem_of_after, hcells b hba]
      simp only [hprevS, hnextS, hold]
      -- only the last record of `l` was linked to `a`
      by_cases hl : l.getLast? = some b
      · rw [after_last hnd hl]
        simp only [hl, if_true]
        have hba' := hle b (List.mem_of_getLast? hl)
        by_cases hsame : t.inode b = t.inode a
        · simp [Option.filter, hsame]
        · cases hr : r.head? with
          | none => simp [Option.filter, hsame, Ne.symm hsame]
          | some c =>
            have hac := hge c (List.mem_of_head? hr)
            have hcb : ¬ t.inode c = t.inode b := by omega
            simp [Option.filter, hsame, Ne.symm hsame, hcb]
      · have hnot : ¬ (l.getLast?.filter fun c => decide (t.inode c = t.inode a)) = some b :=
          fun hf => hl (Option.filter_eq_some_iff.mp hf).1
        rw [if_neg hnot, if_neg hl]
    prevShared := fun b hb => by
      obtain ⟨hb', hba⟩ := hmem b hb
      have hold := h.prevShared b hb'
      rw [before_insert hnd hb hba] at hold
      rw [hinode b hb, filter_inode_congr hinode fun c => mem_of_before, hcells b hba]
      simp only [hprevS, hnextS, hold]
      -- only the first record of `r` was linked back to `a`
      by_cases hr : r.head? = some b
      · rw [before_head hnd hr]
        simp only [hr, if_true]
        have hab' := hge b (List.mem_of_head? hr)
        by_cases hsame : t.inode b = t.inode a
        · simp [Option.filter, hsame]
        · cases hl : l.getLast? with
          | none => simp [Option.filter, hsame, Ne.symm hsame]
          | some c =>
            have hca := hle c (List.mem_of_getLast? hl)
            have hcb : ¬ t.inode c = t.inode b := by omega
            simp [Option.filter, hsame, Ne.symm hsame, hcb]
      · have hnot : ¬ (r.head?.filter fun c => decide (t.inode c = t.inode a)) = some b :=
          fun hf => hr (Option.filter_eq_some_iff.mp hf).1
        rw [if_neg hnot, if_neg hr]
    mode := fun b hb => by rw [hmode b hb]; exact h.mode b (hmem b hb).1
    exclusive := fun b hb c hc => by
      rw [hmode b hb, hinode b hb, hinode c hc]
      exact h.exclusive b (hmem b hb).1 c (hmem c hc).1 }

/-- Deletion of a record that has no shared links. -/
theorem WellLinked.delete_alone (h : WellLinked t (l ++ a :: r))
    (halone : (t.cells a).nextSharedRec = none ∧ (t.cells a).prevSharedRec = none) :
    ∃ t', t.deleteFileList a = some t' ∧ WellLinked t' (l ++ r) := by
  obtain ⟨t', hdel, hlinked⟩ := h.delete
  rw [unlinkShared_of_alone halone.1 halone.2] at hdel
  exact ⟨t', hdel, hlinked⟩

/-! ## Insertion -/

variable {c : FileLock}

/-- **Insertion** of the record `a` between `l` and `r`. The hypotheses are the links that
    the two insertion functions set; `a` is the last record of its inode. -/
theorem WellLinked.insert (h : WellLinked t (l ++ r)) (ha : a = t.brk)
    (halloc : t'.allocated = a :: t.allocated) (hbrk : t'.brk = t.brk + 1)
    (hhead : t'.headLockList = (l ++ a :: r).head?)
    (hcontent : ∀ b ≠ a, (t'.cells b).content = (t.cells b).content)
    (hle : ∀ b ∈ l, t.inode b ≤ t'.inode a) (hlt : ∀ b ∈ r, t'.inode a < t.inode b)
    (hmode : (t'.cells a).fileMode = 0 ∨ (t'.cells a).fileMode = 1)
    (hcompat : ∀ b ∈ l, t.inode b = t'.inode a →
      (t.cells b).fileMode = 0 ∧ (t'.cells a).fileMode = 0)
    (hnext : (t'.cells a).next = r.head?)
    (hprev : (t'.cells a).prev = some (l.getLast?.getD a))
    (hnextS : (t'.cells a).nextSharedRec = none)
    (hprevS : (t'.cells a).prevSharedRec =
      l.getLast?.filter fun b => t.inode b = t'.inode a)
    (hnexts : ∀ b ∈ l ++ r, (t'.cells b).next =
      if l.getLast? = some b then some a else (t.cells b).next)
    (hprevs : ∀ b ∈ l ++ r, (t'.cells b).prev =
      if r.head? = some b then some a else (t.cells b).prev)
    (hnextSs : ∀ b ∈ l ++ r, (t'.cells b).nextSharedRec =
      if l.getLast? = some b ∧ t.inode b = t'.inode a then some a else (t.cells b).nextSharedRec)
    (hprevSs : ∀ b ∈ l ++ r, (t'.cells b).prevSharedRec = (t.cells b).prevSharedRec) :
    WellLinked t' (l ++ a :: r) := by
  have hfresh : a ∉ l ++ r := ha ▸ h.brk_notMem
  have hal : a ∉ l := fun hmem => hfresh (List.mem_append_left _ hmem)
  have har : a ∉ r := fun hmem => hfresh (List.mem_append_right _ hmem)
  have hne : ∀ b ∈ l ++ r, b ≠ a := fun b hb hba => hfresh (hba ▸ hb)
  have hmem : ∀ b, b ∈ l ++ a :: r ↔ b = a ∨ b ∈ l ++ r := fun b => by
    simp only [List.mem_append, List.mem_cons]
    exact or_left_comm
  -- the old records keep their inodes and modes
  have hinode : ∀ b ∈ l ++ r, t'.inode b = t.inode b := fun b hb =>
    FileLock.content_inode (hcontent b (hne b hb))
  have hmodes : ∀ b ∈ l ++ r, (t'.cells b).fileMode = (t.cells b).fileMode := fun b hb =>
    FileLock.content_mode (hcontent b (hne b hb))
  have hlist := h.doublyLinked.insert ha hbrk hhead hinode hle hlt hnext hprev hnexts hprevs
  -- a record of the same inode stands in front of the new one
  have hsameL : ∀ b ∈ l ++ r, t.inode b = t'.inode a → b ∈ l := fun b hb hsame => by
    rcases List.mem_append.mp hb with hb | hb
    · exact hb
    · have := hlt b hb
      omega
  exact {
    perm := by
      rw [halloc]
      exact List.perm_middle.trans (h.perm.cons a)
    nodup := hlist.nodup
    lt_brk := hlist.lt_brk
    head := hlist.head
    sorted := hlist.sorted
    next := hlist.next
    prev := hlist.prev
    -- shared links lead to the neighbour if it has the same inode
    nextShared := fun b hb => by
      rcases (hmem b).mp hb with rfl | hb
      · rw [hnextS, after_split hal]
        cases hr : r.head? with
        | none => rfl
        | some d =>
          -- the record behind the new one has a larger inode
          have hd := hlt d (List.mem_of_head? hr)
          have hdb : ¬ t'.inode d = t'.inode b := by
            rw [hinode d (List.mem_append_right _ (List.mem_of_head? hr))]
            omega
          simp [Option.filter, hdb]
      · rw [hnextSs b hb, after_insert h.nodup hb (hne b hb), h.nextShared b hb, hinode b hb]
        by_cases hl : l.getLast? = some b
        · have hb' := hle b (List.mem_of_getLast? hl)
          by_cases hsame : t.inode b = t'.inode a
          · simp [Option.filter, hl, hsame]
          · -- the record behind `b` has a larger inode than `a`
            have hnew : ¬ t'.inode a = t.inode b := fun h => hsame h.symm
            rw [after_last h.nodup hl]
            cases hr : r.head? with
            | none => simp [Option.filter, hl, hsame, hnew]
            | some d =>
              have hd := hlt d (List.mem_of_head? hr)
              have hdb : ¬ t.inode d = t.inode b := by omega
              simp [Option.filter, hl, hsame, hnew, hdb]
        · rw [if_neg fun h => hl h.1, if_neg hl]
          exact (filter_inode_congr hinode fun d => mem_of_after).symm
    prevShared := fun b hb => by
      rcases (hmem b).mp hb with rfl | hb
      · rw [hprevS, before_split har]
        cases hl : l.getLast? with
        | none => rfl
        | some d =>
          simp [Option.filter, hinode d (List.mem_append_left _ (List.mem_of_getLast? hl))]
      · rw [hprevSs b hb, before_insert h.nodup hb (hne b hb), h.prevShared b hb, hinode b hb]
        by_cases hr : r.head? = some b
        · have hb' := hlt b (List.mem_of_head? hr)
          -- the record behind the new one has a larger inode, so no shared link leads back to it
          have hab : ¬ t'.inode a = t.inode b := by omega
          rw [before_head h.nodup hr]
          cases hl : l.getLast? with
          | none => simp [Option.filter, hr, hab]
          | some d =>
            have hd := hle d (List.mem_of_getLast? hl)
            have hdb : ¬ t.inode d = t.inode b := by omega
            simp [Option.filter, hr, hab, hdb]
        · rw [if_neg hr]
          exact (filter_inode_congr hinode fun d => mem_of_before).symm
    mode := fun b hb => by
      rcases (hmem b).mp hb with rfl | hb
      · exact hmode
      · rw [hmodes b hb]
        exact h.mode b hb
    -- an exclusive record is alone: the new one by `hcompat`, the old ones as before
    exclusive := fun b hb d hd => by
      rcases (hmem b).mp hb with hba | hbm <;> rcases (hmem d).mp hd with hda | hdm
      · exact fun _ _ => hba.trans hda.symm
      · rw [hba, hinode d hdm]
        intro hex hsame
        exact absurd (hcompat d (hsameL d hdm hsame.symm) hsame.symm).2 hex
      · rw [hda, hmodes b hbm, hinode b hbm]
        intro hex hsame
        exact absurd (hcompat b (hsameL b hbm hsame) hsame).1 hex
      · rw [hmodes b hbm, hinode b hbm, hinode d hdm]
        exact h.exclusive b hbm d hdm }

end LockTable

end TxFS
