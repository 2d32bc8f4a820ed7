import TxFS.Locks.Isolation

/-!
# The Representation of the Lock Table

What the three intrusive lists say about the granted and unreleased records, without the
auxiliary notions of the proof: the lock list is ordered by inode and doubly linked, the
shared links thread the records of one inode, and `next_txn` the records of one transaction.
-/

namespace TxFS

open LinkedPath GuardedRun

/-! ## The three lists -/

/-- **The representation invariant** of the lock table. -/
structure Representation (s : Server) (xs : List Addr) : Prop where
  /-- Following `next` from `head_lock_list` visits exactly the granted and unreleased records. -/
  lockList : IsPath (fun a => (s.cell a).next) s.table.headLockList xs
  exact_records : xs.Perm s.table.allocated
  ordered : xs.Pairwise fun a b => (s.cell a).fileInode ≤ (s.cell b).fileInode
  /-- `prev` is the inverse of `next`; the first record has itself as `prev`. -/
  prev_inverse : ∀ a ∈ xs, ∀ b ∈ xs, (s.cell a).next = some b ↔ (s.cell b).prev = some a ∧ a ≠ b
  prev_head : ∀ a, s.table.headLockList = some a → (s.cell a).prev = some a
  /-- Between two records of an inode there are only records of that inode. -/
  contiguous : ∀ l m r a b, xs = l ++ a :: (m ++ b :: r) →
    (s.cell a).fileInode = (s.cell b).fileInode →
      ∀ c ∈ m, (s.cell c).fileInode = (s.cell a).fileInode
  /-- The shared links thread exactly the records of an inode, in list order. -/
  sharedList : ∀ i, let ys := xs.filter fun a => (s.cell a).fileInode = i
    IsPath (fun a => (s.cell a).nextSharedRec) ys.head? ys ∧
      IsPath (fun a => (s.cell a).prevSharedRec) ys.getLast? ys.reverse
  /-- Following `next_txn` from `file_rec_no` visits exactly the transaction's records. -/
  txnList : ∀ n ∈ s.headTxnList, ∃ ys, IsPath (fun a => (s.cell a).nextTxn) n.fileRecNo ys ∧
    ys.Nodup ∧ ∀ a, a ∈ ys ↔ a ∈ s.table.allocated ∧ (s.cell a).parentTxn = n.txnId

namespace LockTable

variable {t : LockTable} {xs : List Addr} {a b : Addr} {i : Int}

/-! ## From the neighbours to the lists -/

/-- `next` and `prev` are inverse to each other. -/
theorem WellLinked.prev_inverse (h : WellLinked t xs) (ha : a ∈ xs) (hb : b ∈ xs) :
    (t.cells a).next = some b ↔ (t.cells b).prev = some a ∧ a ≠ b := by
  rw [h.next a ha, h.prev b hb, Option.some.injEq, ← before_eq_some_iff h.nodup]
  constructor
  · intro hbefore
    refine ⟨by simp [hbefore], fun hab => ?_⟩
    subst hab
    have hafter := (before_eq_some_iff h.nodup).mp hbefore
    obtain ⟨l, r, rfl, hal⟩ := split_of_after hafter
    exact (notMem_split h.nodup).2.1 (by simp)
  · rintro ⟨hprev, hab⟩
    cases hbefore : before xs b with
    | none =>
      rw [hbefore, Option.getD_none] at hprev
      exact absurd hprev.symm hab
    | some c =>
      rw [hbefore, Option.getD_some] at hprev
      rw [hprev]

/-- In a sorted list the records of an inode are consecutive. -/
theorem WellLinked.contiguous (h : WellLinked t xs) {l m r : List Addr}
    (hxs : xs = l ++ a :: (m ++ b :: r)) (hab : t.inode a = t.inode b) {c : Addr} (hc : c ∈ m) :
    t.inode c = t.inode a := by
  have hs := h.sorted
  rw [hxs] at hs
  obtain ⟨-, hs, -⟩ := List.pairwise_append.mp hs
  obtain ⟨ha, hs⟩ := List.pairwise_cons.mp hs
  have hac := ha c (List.mem_append_left _ hc)
  have hcb := (List.pairwise_append.mp hs).2.2 c hc b (List.mem_cons_self ..)
  omega

/-- The next record of the inode is the next record, if it is of the inode at all. -/
theorem WellLinked.nextShared_eq (h : WellLinked t xs) (ha : a ∈ xs) (hi : t.inode a = i) :
    (t.cells a).nextSharedRec = after (xs.filter fun b => t.inode b = i) a := by
  rw [h.nextShared a ha]
  obtain ⟨l, r, rfl⟩ := List.append_of_mem ha
  obtain ⟨hal, har, -⟩ := notMem_split h.nodup
  have hsorted := (List.pairwise_append.mp h.sorted).2.1
  have hfilter : (l ++ a :: r).filter (fun b => decide (t.inode b = i)) =
      l.filter (fun b => decide (t.inode b = i)) ++
        a :: r.filter fun b => decide (t.inode b = i) := by
    simp [hi]
  rw [hfilter, after_split hal, after_split fun hmem => hal (List.mem_of_mem_filter hmem)]
  cases r with
  | nil => rfl
  | cons c r =>
    obtain ⟨hac, hcr⟩ := List.pairwise_cons.mp hsorted
    by_cases hc : t.inode c = i
    · simp [Option.filter, hi, hc]
    · -- all later records have larger inodes
      have hnone : r.filter (fun b => decide (t.inode b = i)) = [] := by
        refine List.filter_eq_nil_iff.mpr fun b hb => ?_
        have h1 := hac c (List.mem_cons_self ..)
        have h2 := (List.pairwise_cons.mp hcr).1 b hb
        have hb' : ¬ t.inode b = i := by omega
        simpa using hb'
      simp [Option.filter, hi, hc, hnone]

theorem WellLinked.prevShared_eq (h : WellLinked t xs) (ha : a ∈ xs) (hi : t.inode a = i) :
    (t.cells a).prevSharedRec = after (xs.filter fun b => t.inode b = i).reverse a := by
  rw [h.prevShared a ha]
  obtain ⟨l, r, rfl⟩ := List.append_of_mem ha
  obtain ⟨hal, har, -⟩ := notMem_split h.nodup
  have hfilter : ((l ++ a :: r).filter fun b => decide (t.inode b = i)).reverse =
      (r.filter fun b => decide (t.inode b = i)).reverse ++
        a :: (l.filter fun b => decide (t.inode b = i)).reverse := by
    simp [hi]
  rw [hfilter, before_split har,
    after_split fun hmem => har (List.mem_of_mem_filter (List.mem_reverse.mp hmem)),
    List.head?_reverse]
  rcases List.eq_nil_or_concat' l with rfl | ⟨l, c, rfl⟩
  · rfl
  · have hca := (sorted_split h.sorted).1 c (by simp)
    have hlc := (List.pairwise_append.mp (List.pairwise_append.mp h.sorted).1).2.2
    by_cases hc : t.inode c = i
    · simp [Option.filter, hi, hc]
    · -- all earlier records have smaller inodes
      have hnone : l.filter (fun b => decide (t.inode b = i)) = [] := by
        refine List.filter_eq_nil_iff.mpr fun b hb => ?_
        have h1 := hlc b hb c (List.mem_cons_self ..)
        have hb' : ¬ t.inode b = i := by omega
        simpa using hb'
      simp [Option.filter, hi, hc, hnone]

/-- **The shared links** lead through the records of an inode in both directions. -/
theorem WellLinked.sharedList (h : WellLinked t xs) (i : Int) :
    IsPath (fun a => (t.cells a).nextSharedRec) (xs.filter fun a => t.inode a = i).head?
        (xs.filter fun a => t.inode a = i) ∧
      IsPath (fun a => (t.cells a).prevSharedRec) (xs.filter fun a => t.inode a = i).getLast?
        (xs.filter fun a => t.inode a = i).reverse := by
  have hnd := h.nodup.filter fun a => decide (t.inode a = i)
  have hmem : ∀ a ∈ xs.filter (fun a => decide (t.inode a = i)), a ∈ xs ∧ t.inode a = i :=
    fun a ha => by simpa using List.mem_filter.mp ha
  refine ⟨isPath_of_after hnd fun a ha => h.nextShared_eq (hmem a ha).1 (hmem a ha).2, ?_⟩
  rw [← List.head?_reverse]
  exact isPath_of_after (List.nodup_reverse.mpr hnd) fun a ha =>
    h.prevShared_eq (hmem a (List.mem_reverse.mp ha)).1 (hmem a (List.mem_reverse.mp ha)).2

end LockTable

namespace Server

variable {s : Server}

/-! ## Runs -/

/-- **The representation invariant holds in every run with clean releases**. -/
theorem representation_of_reachable {handles : Nat}
    (h : ReachableUnder (globalInit handles) step CleanRelease s) : ∃ xs, Representation s xs := by
  obtain ⟨⟨xs, hxs⟩, howned⟩ := consistent_of_reachable h
  exact ⟨xs, {
    lockList := hxs.isPath
    exact_records := hxs.perm
    ordered := hxs.sorted
    prev_inverse := fun a ha b hb => hxs.prev_inverse ha hb
    prev_head := fun a ha => by
      rw [hxs.head] at ha
      obtain ⟨r, rfl⟩ := List.head?_eq_some_iff.mp ha
      have hbefore : before (a :: r) a = none :=
        before_split (l := []) (LockTable.notMem_split (l := []) hxs.nodup).2.1
      exact (hxs.prev a (List.mem_cons_self ..)).trans (by rw [hbefore]; rfl)
    contiguous := fun l m r a b hsplit hab c hc => hxs.contiguous hsplit hab hc
    sharedList := fun i => hxs.sharedList i
    txnList := fun n hn => by
      obtain ⟨ys, hys⟩ := howned.chain n hn
      exact ⟨ys, hys.1, hys.1.nodup, hys.2⟩ }⟩

/-- The two readers of a file and the writer that waits for it. -/
theorem representation_two_readers :
    ∃ s, ReachableUnder (globalInit 1) step CleanRelease s ∧ s.table.allocated.length = 1 ∧
      ∃ xs, Representation s xs := by
  obtain ⟨s, hs, hlen⟩ := exists_of_runUnder (globalInit 1) step CleanRelease
    (fun s => s.table.allocated.length = 1)
    [.begin 1, .begin 2, .begin 3, .lock 1 ⟨7, 0, .placeholder⟩ 0,
      .lock 2 ⟨7, 0, .placeholder⟩ 0, .lock 3 ⟨7, 2, .placeholder⟩ 0, .commit 1] (by decide)
  exact ⟨s, hs, hlen, representation_of_reachable hs⟩

/-- One of two readers commits while nobody waits: the other one keeps a shared link to the
    freed record, so the shared links are not the list of the inode. -/
theorem not_representation :
    ∃ s, Reachable (globalInit 1) step s ∧ ¬ ∃ xs, Representation s xs := by
  obtain ⟨s, hs, halloc, hinode, hprev⟩ := exists_of_run (globalInit 1) step
    (fun s => s.table.allocated = [1] ∧ (s.cell 1).fileInode = 7 ∧
      (s.cell 1).prevSharedRec = some 0)
    [.begin 1, .begin 2, .lock 1 ⟨7, 0, .placeholder⟩ 0, .lock 2 ⟨7, 0, .placeholder⟩ 0,
      .commit 1] (by decide)
  refine ⟨s, hs, ?_⟩
  rintro ⟨xs, hxs⟩
  have hxs₁ : xs = [1] := List.perm_singleton.mp (halloc ▸ hxs.exact_records)
  have hpath := (hxs.sharedList 7).2
  simp only [hxs₁, hinode, List.filter_cons, List.filter_nil, decide_true, if_true,
    List.reverse_singleton] at hpath
  have hnone : (s.cell 1).prevSharedRec = none := hpath.2
  rw [hprev] at hnone
  cases hnone

end Server

end TxFS
