import Mathlib.Data.List.Perm.Subperm
import Mathlib.Tactic.SplitIfs
import TxFS.Table.Effects

/-!
# Doubly Linked Lock Lists

`DoublyLinked t xs` says that `next` and `prev` link the records `xs` in both directions, from
`head_lock_list` on and in the order of their inodes. The record at the head has itself as `prev`,
as `insert_file_list` and `delete_file_list` leave it.

`delete_file_list` takes a record out of such a list. `insert_file_list` puts a new one between the
records with smaller and those with larger inodes.
-/

namespace TxFS

open LinkedPath

namespace LockTable

/-- The inode of the record at an address. -/
def inode (t : LockTable) (a : Addr) : Int := (t.cells a).fileInode

/-- The lock list of `t` is `xs`, linked in both directions and sorted by inode. -/
structure DoublyLinked (t : LockTable) (xs : List Addr) : Prop where
  nodup : xs.Nodup
  lt_brk : ∀ a ∈ xs, a < t.brk
  head : t.headLockList = xs.head?
  sorted : xs.Pairwise fun a b => t.inode a ≤ t.inode b
  next : ∀ a ∈ xs, (t.cells a).next = after xs a
  prev : ∀ a ∈ xs, (t.cells a).prev = some ((before xs a).getD a)

variable {t t' : LockTable} {xs l r : List Addr} {a b p : Addr}

/-! ## Neighbours around a split -/

/-- In a duplicate-free list the element in the middle is in neither part. -/
theorem notMem_split (hnd : (l ++ a :: r).Nodup) : a ∉ l ∧ a ∉ r ∧ (l ++ r).Nodup := by
  have h := List.nodup_middle.mp hnd
  rw [List.nodup_cons, List.mem_append, not_or] at h
  exact ⟨h.1.1, h.1.2, h.2⟩

theorem sorted_split (hs : (l ++ a :: r).Pairwise fun a b => t.inode a ≤ t.inode b) :
    (∀ b ∈ l, t.inode b ≤ t.inode a) ∧ (∀ b ∈ r, t.inode a ≤ t.inode b) ∧
      (l ++ r).Pairwise fun a b => t.inode a ≤ t.inode b := by
  rw [List.pairwise_append, List.pairwise_cons] at hs
  obtain ⟨hl, ⟨har, hr⟩, hlr⟩ := hs
  refine ⟨fun b hb => hlr b hb a (List.mem_cons_self ..), har, ?_⟩
  exact List.pairwise_append.mpr
    ⟨hl, hr, fun b hb c hc => hlr b hb c (List.mem_cons_of_mem _ hc)⟩

/-- Behind the last element of the front part comes the head of the back part. -/
theorem after_last (hnd : (l ++ r).Nodup) (hb : l.getLast? = some b) :
    after (l ++ r) b = r.head? := by
  obtain ⟨l', rfl⟩ := List.getLast?_eq_some_iff.mp hb
  rw [List.append_assoc, List.singleton_append] at hnd ⊢
  exact after_split (notMem_split hnd).1

/-- In front of the head of the back part stands the last element of the front part. -/
theorem before_head (hnd : (l ++ r).Nodup) (hb : r.head? = some b) :
    before (l ++ r) b = l.getLast? := by
  obtain ⟨r', rfl⟩ := List.head?_eq_some_iff.mp hb
  exact before_split (notMem_split hnd).2.1

/-- The other elements of a list are those on both sides. -/
theorem mem_both_sides (hnd : (l ++ a :: r).Nodup) (hb : b ∈ l ++ r) :
    b ∈ l ++ a :: r ∧ b ≠ a := by
  obtain ⟨hal, har, -⟩ := notMem_split hnd
  refine ⟨?_, fun hba => ?_⟩
  · rcases List.mem_append.mp hb with hb | hb <;> simp [hb]
  · subst hba
    exact (List.mem_append.mp hb).elim hal har

/-- Distinct addresses below `brk`: the fuel `brk + 1` suffices for every walk. -/
theorem length_le_brk {brk : Nat} {ys : List Addr} (hnd : ys.Nodup) (hlt : ∀ a ∈ ys, a < brk) :
    ys.length ≤ brk := by
  have hsub : ys.Subperm (List.range brk) :=
    hnd.subperm fun a ha => List.mem_range.mpr (hlt a ha)
  simpa using hsub.length_le

/-! ## The list -/

theorem DoublyLinked.brk_notMem (h : DoublyLinked t xs) : t.brk ∉ xs :=
  fun hmem => Nat.lt_irrefl _ (h.lt_brk _ hmem)

/-- The list does not see the other fields of the records. -/
theorem DoublyLinked.congr (h : DoublyLinked t xs) (hbrk : t'.brk = t.brk)
    (hhead : t'.headLockList = t.headLockList)
    (hlinks : ∀ b, (t'.cells b).next = (t.cells b).next ∧ (t'.cells b).prev = (t.cells b).prev)
    (hkey : ∀ b, (t'.cells b).fileInode = (t.cells b).fileInode) : DoublyLinked t' xs := by
  have hinode : t'.inode = t.inode := funext hkey
  exact {
    nodup := h.nodup
    lt_brk := by rw [hbrk]; exact h.lt_brk
    head := by rw [hhead]; exact h.head
    sorted := by rw [hinode]; exact h.sorted
    next := fun a ha => by rw [(hlinks a).1]; exact h.next a ha
    prev := fun a ha => by rw [(hlinks a).2]; exact h.prev a ha }

/-- The links behind a record. -/
theorem DoublyLinked.isPath_next (h : DoublyLinked t xs) {p q : List Addr} (hxs : xs = p ++ q) :
    IsPath (fun b => (t.cells b).next) q.head? q := by
  induction q generalizing p with
  | nil => rfl
  | cons a q ih =>
    refine ⟨rfl, ?_⟩
    have hnd := h.nodup
    rw [hxs] at hnd
    have hnext : (t.cells a).next = q.head? := by
      rw [h.next a (by simp [hxs]), hxs, after_split (notMem_split hnd).1]
    simp only [hnext]
    exact ih (p := p ++ [a]) (by simp [hxs])

/-- The lock list is the path from `head_lock_list`. -/
theorem DoublyLinked.isPath (h : DoublyLinked t xs) :
    IsPath (fun b => (t.cells b).next) t.headLockList xs := by
  rw [h.head]
  exact h.isPath_next (p := []) rfl

/-! ## Deletion -/

/-- **Deletion** of the record `a`: its neighbours are linked to each other. -/
theorem DoublyLinked.delete (h : DoublyLinked t (l ++ a :: r)) :
    ∃ t', t.deleteFileList a = some t' ∧ DoublyLinked t' (l ++ r) := by
  obtain ⟨hal, har, hnd⟩ := notMem_split h.nodup
  obtain ⟨-, -, hsorted⟩ := sorted_split h.sorted
  have ha : a ∈ l ++ a :: r := by simp
  -- the links of the deleted record
  have hnext : (t.cells a).next = r.head? := by rw [h.next a ha, after_split hal]
  have hprev : (t.cells a).prev = some (l.getLast?.getD a) := by
    rw [h.prev a ha, before_split har]
  have hheadA : t.headLockList = some a ↔ l = [] := by
    rw [h.head]
    cases l with
    | nil => simp
    | cons c l =>
      have hca : c ≠ a := fun hca => hal (by simp [hca])
      simp [hca]
  obtain ⟨t', ht'⟩ := deleteFileList_isSome (t := t) (a := a) (by simp [hprev])
  obtain ⟨-, hbrk, hhead⟩ := deleteFileList_rest ht'
  have hcells := fun b (hb : b ≠ a) => deleteFileList_cells ht' hb
  have hinode : ∀ b ∈ l ++ r, t'.inode b = t.inode b := fun b hb => by
    simp [inode, hcells b (mem_both_sides h.nodup hb).2]
  refine ⟨t', ht', ?_⟩
  exact {
    nodup := hnd
    lt_brk := fun b hb => by
      rw [hbrk]
      exact h.lt_brk b (mem_both_sides h.nodup hb).1
    head := by
      rw [hhead]
      cases l with
      | nil => simp [hheadA.mpr rfl, hnext]
      | cons c l => rw [if_neg (by simp [hheadA]), h.head]; rfl
    sorted := hsorted.imp_of_mem fun ha hb hab => by rwa [hinode _ ha, hinode _ hb]
    next := fun b hb => by
      obtain ⟨hb', hba⟩ := mem_both_sides h.nodup hb
      have hold := h.next b hb'
      rw [after_insert hnd hb hba] at hold
      rw [hcells b hba]
      simp only [hprev, hnext, hold, ne_eq, hheadA]
      -- only the last record of `l` pointed to `a`
      cases hl : l.getLast? with
      | none => simp [List.getLast?_eq_none_iff.mp hl]
      | some c =>
        have hne : l ≠ [] := fun hl' => by simp [hl'] at hl
        by_cases hcb : c = b
        · subst hcb
          simp [hne, after_last hnd hl]
        · simp [hcb]
    prev := fun b hb => by
      obtain ⟨hb', hba⟩ := mem_both_sides h.nodup hb
      have hold := h.prev b hb'
      rw [before_insert hnd hb hba] at hold
      rw [hcells b hba]
      simp only [hprev, hnext, hold, hheadA]
      -- only the first record of `r` pointed back to `a`; it may be the new head
      by_cases hr : r.head? = some b
      · simp only [hr, if_true, before_head hnd hr]
        cases l with
        | nil => simp
        | cons c l => simp [List.getLast?_cons]
      · simp [hr] }

/-! ## Insertion -/

variable {c : FileLock}

/-- **Insertion** of the record `a` between `l` and `r`. The hypotheses are the links that the
    insertion functions set. -/
theorem DoublyLinked.insert (h : DoublyLinked t (l ++ r)) (ha : a = t.brk)
    (hbrk : t'.brk = t.brk + 1) (hhead : t'.headLockList = (l ++ a :: r).head?)
    (hinode : ∀ b ∈ l ++ r, t'.inode b = t.inode b)
    (hle : ∀ b ∈ l, t.inode b ≤ t'.inode a) (hlt : ∀ b ∈ r, t'.inode a < t.inode b)
    (hnext : (t'.cells a).next = r.head?)
    (hprev : (t'.cells a).prev = some (l.getLast?.getD a))
    (hnexts : ∀ b ∈ l ++ r, (t'.cells b).next =
      if l.getLast? = some b then some a else (t.cells b).next)
    (hprevs : ∀ b ∈ l ++ r, (t'.cells b).prev =
      if r.head? = some b then some a else (t.cells b).prev) :
    DoublyLinked t' (l ++ a :: r) := by
  have hfresh : a ∉ l ++ r := ha ▸ h.brk_notMem
  have hal : a ∉ l := fun hmem => hfresh (List.mem_append_left _ hmem)
  have har : a ∉ r := fun hmem => hfresh (List.mem_append_right _ hmem)
  have hne : ∀ b ∈ l ++ r, b ≠ a := fun b hb hba => hfresh (hba ▸ hb)
  have hmem : ∀ b, b ∈ l ++ a :: r ↔ b = a ∨ b ∈ l ++ r := fun b => by
    simp only [List.mem_append, List.mem_cons]
    exact or_left_comm
  obtain ⟨hsl, hsr, -⟩ := List.pairwise_append.mp h.sorted
  have hltl : ∀ b ∈ l, t'.inode b ≤ t'.inode a := fun b hb => by
    rw [hinode b (List.mem_append_left _ hb)]
    exact hle b hb
  have hltr : ∀ b ∈ r, t'.inode a < t'.inode b := fun b hb => by
    rw [hinode b (List.mem_append_right _ hb)]
    exact hlt b hb
  exact {
    nodup := List.nodup_middle.mpr (List.nodup_cons.mpr ⟨hfresh, h.nodup⟩)
    lt_brk := fun b hb => by
      rw [hbrk]
      rcases (hmem b).mp hb with rfl | hb
      · exact ha ▸ Nat.lt_succ_self _
      · exact Nat.lt_succ_of_lt (h.lt_brk b hb)
    head := hhead
    sorted := by
      refine List.pairwise_append.mpr ⟨?_, List.pairwise_cons.mpr ⟨fun b hb => ?_, ?_⟩, ?_⟩
      · refine hsl.imp_of_mem fun hb hc hbc => ?_
        rwa [hinode _ (List.mem_append_left _ hb), hinode _ (List.mem_append_left _ hc)]
      · exact Int.le_of_lt (hltr b hb)
      · refine hsr.imp_of_mem fun hb hc hbc => ?_
        rwa [hinode _ (List.mem_append_right _ hb), hinode _ (List.mem_append_right _ hc)]
      · intro b hb c hc
        rcases List.mem_cons.mp hc with rfl | hc
        · exact hltl b hb
        · exact Int.le_trans (hltl b hb) (Int.le_of_lt (hltr c hc))
    next := fun b hb => by
      rcases (hmem b).mp hb with rfl | hb
      · rw [hnext, after_split hal]
      · rw [hnexts b hb, after_insert h.nodup hb (hne b hb), h.next b hb]
    prev := fun b hb => by
      rcases (hmem b).mp hb with rfl | hb
      · rw [hprev, before_split har]
      · rw [hprevs b hb, before_insert h.nodup hb (hne b hb), h.prev b hb]
        split <;> simp }

/-- `insertAfter` at the end of `l` sets the links that an insertion between `l` and `r`
    needs; the shared links of the new record are those of `c`. -/
theorem DoublyLinked.insertAfter_links (h : DoublyLinked t (l ++ p :: r)) :
    (∀ b ∈ l ++ p :: r, (t.insertAfter p c).cells b =
      { t.cells b with
        next := if p = b then some t.brk else (t.cells b).next
        prev := if r.head? = some b then some t.brk else (t.cells b).prev }) ∧
      (t.insertAfter p c).cells t.brk = { c with next := r.head?, prev := some p } := by
  have hp : p ∈ l ++ p :: r := by simp
  have hnext : (t.cells p).next = r.head? := by
    rw [h.next p hp, after_split (notMem_split h.nodup).1]
  have hbrk := h.brk_notMem
  refine ⟨fun b hb => ?_, ?_⟩
  · rw [insertAfter_cells fun hbb => hbrk (hbb ▸ hb), hnext]
    simp only [eq_comm]
  · rw [insertAfter_cells_new (fun hpb => hbrk (hpb ▸ hp)), hnext]
    intro hn
    rw [hnext] at hn
    exact hbrk (List.mem_append_right _ (List.mem_cons_of_mem _ (List.mem_of_head? hn)))

/-- The links after the grant of a file that is not locked, in each of the three cases of
    the code. -/
theorem DoublyLinked.insertUnlocked_links (h : DoublyLinked t (l ++ r))
    (hl : ∀ b ∈ l, t.inode b < c.fileInode) (hr : ∀ b ∈ r, c.fileInode < t.inode b)
    (hnext : c.next = none) :
    (t.insertUnlocked (l.getLast?.or (l ++ r).head?) c).headLockList = (l ++ t.brk :: r).head? ∧
      (t.insertUnlocked (l.getLast?.or (l ++ r).head?) c).cells t.brk =
        { c with next := r.head?, prev := some (l.getLast?.getD t.brk) } ∧
      ∀ b ∈ l ++ r, (t.insertUnlocked (l.getLast?.or (l ++ r).head?) c).cells b =
        { t.cells b with
          next := if l.getLast? = some b then some t.brk else (t.cells b).next
          prev := if r.head? = some b then some t.brk else (t.cells b).prev } := by
  have hne : ∀ b ∈ l ++ r, b ≠ t.brk := fun b hb hbb => h.brk_notMem (hbb ▸ hb)
  rcases List.eq_nil_or_concat' l with rfl | ⟨l', p, rfl⟩
  · cases r with
    | nil => exact ⟨rfl, by simp [LockTable.insertUnlocked, alloc, hnext], by simp⟩
    | cons x r =>
      -- in front of the head
      have hhead : t.headLockList = some x := h.head
      have hx : c.fileInode < (t.cells x).fileInode := hr x (by simp)
      have hxb : x ≠ t.brk := hne x (by simp)
      refine ⟨by simp [LockTable.insertUnlocked, hhead, hx], ?_, fun b hb => ?_⟩
      · simp [LockTable.insertUnlocked, hhead, hx, modify, alloc, Ne.symm hxb]
      · by_cases hbx : b = x
        · subst hbx
          simp [LockTable.insertUnlocked, hhead, hx, modify, alloc, hxb]
        · simp [LockTable.insertUnlocked, hhead, hx, modify, alloc, hne b hb, hbx, Ne.symm hbx]
  · have hp : ¬ (t.cells p).fileInode > c.fileInode :=
      Int.not_lt.mpr (Int.le_of_lt (hl p (by simp)))
    have hunfold : t.insertUnlocked ((l' ++ [p]).getLast?.or (l' ++ [p] ++ r).head?) c =
        t.insertAfter p c := by
      simp [LockTable.insertUnlocked, hp]
    have h' : DoublyLinked t (l' ++ p :: r) := by simpa using h
    obtain ⟨hold, hnew⟩ := h'.insertAfter_links (c := c)
    rw [hunfold]
    refine ⟨?_, by simpa using hnew, fun b hb => by simpa using hold b (by simpa using hb)⟩
    rw [insertAfter_rest.2.2, h.head]
    cases l' <;> simp

end LockTable

end TxFS
