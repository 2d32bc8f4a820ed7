import TxFS.Table.Search

/-!
# The Search Contract

What `search_file_list` owes its callers, over any lock list that is sorted by inode: the
first record of the inode, or the place of a new one. The comments of `insert_file_list`
rely on the first record ("loc points to first occurence of the file locked in shared
mode"), from which the shared links lead to all the others.

The loop of `search_file_list` starts at the second record and looks at the record behind
it afterwards. The head is found last, so it is missed exactly when the second record is of
the inode as well.
-/

namespace TxFS

open LinkedPath

namespace LockTable

variable {t : LockTable} {xs : List Addr} {x : Addr} {i : Int}

/-! ## Sorted lock lists -/

/-- The lock list of `t` is `xs`, sorted by inode, of records the allocator handed out. -/
structure SortedList (t : LockTable) (xs : List Addr) : Prop where
  isPath : IsPath (fun b => (t.cells b).next) t.headLockList xs
  sorted : xs.Pairwise fun a b => t.inode a ≤ t.inode b
  lt_brk : ∀ a ∈ xs, a < t.brk

/-- Every well-linked table has a sorted lock list. -/
theorem WellLinked.sortedList (h : WellLinked t xs) : SortedList t xs where
  isPath := h.isPath
  sorted := h.sorted
  lt_brk := h.lt_brk

/-- The answer the callers of `search_file_list` rely on. -/
def searchContract (t : LockTable) (xs : List Addr) (fInode : Int) : Bool × Option Addr :=
  match xs.find? fun a => t.inode a = fInode with
  | some loc => (true, some loc)
  | none => (false, (xs.filter fun a => t.inode a < fInode).getLast?.or xs.head?)

/-- The first two records are both of the inode. -/
def StartsTwice (t : LockTable) (xs : List Addr) (fInode : Int) : Prop :=
  ∃ a b rest, xs = a :: b :: rest ∧ t.inode a = fInode ∧ t.inode b = fInode

/-! ## The search behind the head -/

/-- `search_file_list` on a list with the head `x`: the loop leaves the smaller records `lo`
    behind and stops in front of `hi`. -/
theorem SortedList.searchFileList_cons {zs : List Addr} (h : SortedList t (x :: zs)) (i : Int) :
    ∃ lo hi, zs = lo ++ hi ∧ (∀ b ∈ lo, t.inode b < i) ∧ (∀ b, hi.head? = some b → i ≤ t.inode b) ∧
      t.searchFileList i = some (match hi.head? with
        | some p =>
          if t.inode p = i then (true, some p)
          else if t.inode (lo.getLastD x) = i then (true, some (lo.getLastD x))
          else (false, some (lo.getLastD x))
        | none =>
          if t.inode (lo.getLastD x) = i then (true, some (lo.getLastD x))
          else (false, some (lo.getLastD x))) :=
  LockTable.searchFileList_cons h.isPath h.lt_brk i

/-- Nothing is smaller than a head of the inode, so the loop has left nothing behind. -/
theorem SortedList.lo_eq_nil {lo hi : List Addr} (h : SortedList t (x :: (lo ++ hi)))
    (hlo : ∀ b ∈ lo, t.inode b < i) (hx : i ≤ t.inode x) : lo = [] := by
  cases lo with
  | nil => rfl
  | cons b lo =>
    have hxb := (List.pairwise_cons.mp h.sorted).1 b (by simp)
    have hbi := hlo b (by simp)
    omega

/-- Without a record of the inode at the front of `hi` there is none in `hi`. -/
theorem SortedList.lt_of_mem_hi {lo hi : List Addr} (h : SortedList t (x :: (lo ++ hi)))
    (hhi : ∀ b, hi.head? = some b → i < t.inode b) : ∀ b ∈ hi, i < t.inode b := by
  intro b hb
  cases hi with
  | nil => cases hb
  | cons p hi =>
    have hp := hhi p rfl
    have hsorted := (List.pairwise_append.mp (List.pairwise_cons.mp h.sorted).2).2.1
    rcases List.mem_cons.mp hb with rfl | hb
    · exact hp
    · have hpb := (List.pairwise_cons.mp hsorted).1 b hb
      omega

/-! ## Where the contract holds -/

/-- A head of the inode is found unless the second record is of the inode too. -/
theorem SortedList.search_head {zs : List Addr} (h : SortedList t (x :: zs)) (hx : t.inode x = i) :
    t.searchFileList i = some (searchContract t (x :: zs) i) ↔ ¬ StartsTwice t (x :: zs) i := by
  have hcontract : searchContract t (x :: zs) i = (true, some x) := by
    simp [searchContract, hx]
  obtain ⟨lo, hi, hzs, hlo, hhi, hsearch⟩ := h.searchFileList_cons i
  subst hzs
  have hnil : lo = [] := h.lo_eq_nil hlo (Int.le_of_eq hx.symm)
  subst hnil
  rw [hcontract, hsearch]
  cases hi with
  | nil =>
    have hnot : ¬ StartsTwice t [x] i := by
      rintro ⟨a, b, rest, heq, -⟩
      cases heq
    simpa [hx] using hnot
  | cons p hi =>
    -- the second record is compared first
    by_cases hp : t.inode p = i
    · have hne : p ≠ x := by
        rintro rfl
        have hnd := h.isPath.nodup
        simp at hnd
      have htwice : StartsTwice t (x :: p :: hi) i := ⟨x, p, hi, rfl, hx, hp⟩
      simpa [hp, hne] using htwice
    · have hnot : ¬ StartsTwice t (x :: p :: hi) i := by
        rintro ⟨a, b, rest, heq, -, hb⟩
        cases heq
        exact hp hb
      simpa [hp, hx] using hnot

/-- With another head the search meets its contract. -/
theorem SortedList.search_behind_head {zs : List Addr} (h : SortedList t (x :: zs))
    (hx : t.inode x ≠ i) : t.searchFileList i = some (searchContract t (x :: zs) i) := by
  obtain ⟨lo, hi, hzs, hlo, hhi, hsearch⟩ := h.searchFileList_cons i
  subst hzs
  have hfind : (x :: (lo ++ hi)).find? (fun a => t.inode a = i) =
      hi.find? fun a => t.inode a = i := by
    have hlo' : lo.find? (fun a => decide (t.inode a = i)) = none :=
      List.find?_eq_none.mpr fun b hb hbi => by
        have hlt := hlo b hb
        simp only [decide_eq_true_eq] at hbi
        omega
    simp [List.find?_append, hx, hlo']
  have hfoll : t.inode (lo.getLastD x) ≠ i := by
    rcases foll_cases x lo with ⟨heq, -⟩ | hlast
    · rwa [heq]
    · exact Int.ne_of_lt (hlo _ (List.mem_of_getLast? hlast))
  by_cases hp : ∃ p, hi.head? = some p ∧ t.inode p = i
  · obtain ⟨p, hhead, hpi⟩ := hp
    obtain ⟨rest, rfl⟩ := List.head?_eq_some_iff.mp hhead
    rw [hsearch, searchContract, hfind]
    simp [hpi]
  · -- no record is of the inode: what is left is the place for a new one
    have hgt := h.lt_of_mem_hi (i := i) fun b hb =>
      Int.lt_iff_le_and_ne.mpr ⟨hhi b hb, fun hne => hp ⟨b, hb, hne.symm⟩⟩
    have hnone : hi.find? (fun a => decide (t.inode a = i)) = none :=
      List.find?_eq_none.mpr fun b hb hbi => by
        have hlt := hgt b hb
        simp only [decide_eq_true_eq] at hbi
        omega
    have hplace : ((x :: (lo ++ hi)).filter fun a => t.inode a < i).getLast?.or (some x) =
        some (lo.getLastD x) := by
      have hfhi : hi.filter (fun a => decide (t.inode a < i)) = [] :=
        List.filter_eq_nil_iff.mpr fun b hb => by
          have hlt := hgt b hb
          simp only [decide_eq_true_eq]
          omega
      have hflo : lo.filter (fun a => decide (t.inode a < i)) = lo :=
        List.filter_eq_self.mpr fun b hb => by simpa using hlo b hb
      by_cases hxi : t.inode x < i
      · simp [hxi, List.filter_append, hfhi, hflo, List.getLast?_cons,
          List.getLastD_eq_getLast?]
      · have hnil : lo = [] := h.lo_eq_nil hlo (Int.not_lt.mp hxi)
        subst hnil
        simp [hxi, hfhi]
    have hcontract : searchContract t (x :: (lo ++ hi)) i = (false, some (lo.getLastD x)) := by
      rw [searchContract, hfind, hnone]
      exact congrArg (Prod.mk false) hplace
    rw [hsearch, hcontract]
    cases hi with
    | nil =>
      show some (if t.inode (lo.getLastD x) = i then _ else _) = _
      rw [if_neg hfoll]
    | cons p hi =>
      have hpi : t.inode p ≠ i := fun hpi => hp ⟨p, rfl, hpi⟩
      show some (if t.inode p = i then _ else if t.inode (lo.getLastD x) = i then _ else _) = _
      rw [if_neg hpi, if_neg hfoll]

/-- **Search contract.** On a lock list sorted by inode `search_file_list` answers as its
    callers expect exactly when the first two records are not both of the inode. -/
theorem searchFileList_contract_iff (h : SortedList t xs) (fInode : Int) :
    t.searchFileList fInode = some (searchContract t xs fInode) ↔ ¬ StartsTwice t xs fInode := by
  cases xs with
  | nil =>
    have hhead : t.headLockList = none := h.isPath
    have hnot : ¬ StartsTwice t [] fInode := by
      rintro ⟨a, b, rest, heq, -⟩
      cases heq
    simpa [searchFileList, hhead, searchContract] using hnot
  | cons x zs =>
    by_cases hx : t.inode x = fInode
    · exact h.search_head hx
    · refine iff_of_true (h.search_behind_head hx) ?_
      rintro ⟨a, b, rest, heq, ha, -⟩
      cases heq
      exact hx ha

/-- The records of the inodes in `inodes` behind each other, the shared ones linked. -/
def tableOf (inodes : List Int) : LockTable where
  cells := fun a => { getFileNode (inodes.getD a 0) 0 0 (a + 1) with
    next := if a + 1 < inodes.length then some (a + 1) else none
    nextSharedRec := if inodes[a + 1]? = some (inodes.getD a 0) then some (a + 1) else none
    prevSharedRec := if a ≠ 0 ∧ inodes[a - 1]? = inodes[a]? then some (a - 1) else none
    prev := some (a - 1) }
  allocated := List.range inodes.length
  brk := inodes.length
  headLockList := if inodes = [] then none else some 0

/-- Behind another record the first one of a shared group is found. -/
theorem searchFileList_contract_shared :
    (tableOf [5, 7, 7]).searchFileList 7 = some (true, some 1) := by
  have hlist : SortedList (tableOf [5, 7, 7]) [0, 1, 2] := by
    refine ⟨⟨rfl, rfl, rfl, rfl⟩, ?_, ?_⟩ <;> decide
  refine ((searchFileList_contract_iff hlist 7).mpr ?_).trans rfl
  rintro ⟨a, b, rest, heq, ha, -⟩
  cases heq
  cases ha

/-- A shared group at the head of the list: its second record is found. -/
theorem searchFileList_second_of_group :
    SortedList (tableOf [7, 7]) [0, 1] ∧
      searchContract (tableOf [7, 7]) [0, 1] 7 = (true, some 0) ∧
      (tableOf [7, 7]).searchFileList 7 = some (true, some 1) := by
  refine ⟨⟨⟨rfl, rfl, rfl⟩, ?_, ?_⟩, rfl, rfl⟩ <;> decide

end LockTable

end TxFS
