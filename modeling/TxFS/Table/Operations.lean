import TxFS.Table.Contract

/-!
# Insertion and Deletion in the Lock List

`insert_file_list` takes the place of a new record from `search_file_list`, and
`delete_file_list` repairs the links around a record. Both rely on one convention: the list
is sorted by inode, linked in both directions, and the `prev` of its head is the head itself.

The convention is enough for both of them, and both of them keep it.
-/

namespace TxFS

open LinkedPath

namespace LockTable

variable {t : LockTable} {xs : List Addr} {a : Addr} {i : Int}

/-- A doubly linked list is what the search contract asks for. -/
theorem DoublyLinked.sortedList (h : DoublyLinked t xs) : SortedList t xs where
  isPath := h.isPath
  sorted := h.sorted
  lt_brk := h.lt_brk

/-- The search for an absent inode splits the list at the place of the inode. -/
theorem DoublyLinked.search_absent (h : DoublyLinked t xs) (habsent : ∀ b ∈ xs, t.inode b ≠ i) :
    ∃ l r, xs = l ++ r ∧ (∀ b ∈ l, t.inode b < i) ∧ (∀ b ∈ r, i < t.inode b) ∧
      t.searchFileList i = some (false, l.getLast?.or xs.head?) := by
  obtain ⟨found, loc, hsearch, hspec⟩ := h.searchFileList i
  cases hspec with
  | found hmem hinode => exact absurd hinode (habsent _ hmem)
  | notFound hxs hl hr => exact ⟨_, _, hxs, hl, hr, hsearch⟩

/-- The new record stands where the search has split the list. -/
theorem DoublyLinked.insertUnlocked {l r : List Addr} {c : FileLock} (h : DoublyLinked t (l ++ r))
    (hl : ∀ b ∈ l, t.inode b < c.fileInode) (hr : ∀ b ∈ r, c.fileInode < t.inode b)
    (hnext : c.next = none) :
    DoublyLinked (t.insertUnlocked (l.getLast?.or (l ++ r).head?) c) (l ++ t.brk :: r) := by
  have hins : Inserted t (t.insertUnlocked (l.getLast?.or (l ++ r).head?) c) c :=
    insertUnlocked_inserted
  obtain ⟨hhead, hnew, hold⟩ := h.insertUnlocked_links hl hr hnext
  generalize t.insertUnlocked (l.getLast?.or (l ++ r).head?) c = t' at hins hhead hnew hold ⊢
  have hinode : t'.inode t.brk = c.fileInode := by simp [inode, hnew]
  apply h.insert rfl hins.brk hhead
  case hinode => exact fun b hb => by simp [inode, hold b hb]
  case hle => exact fun b hb => hinode ▸ Int.le_of_lt (hl b hb)
  case hlt => exact fun b hb => hinode ▸ hr b hb
  case hnext => rw [hnew]
  case hprev => rw [hnew]
  case hnexts => exact fun b hb => by rw [hold b hb]
  case hprevs => exact fun b hb => by rw [hold b hb]

/-- **Insertion and deletion.** On every lock list in the convention, a new record of an absent
    inode goes to the place the search reports, and `delete_file_list` takes any member out.
    Both leave a list in the convention, with the other records as they were. -/
theorem DoublyLinked.operations (h : DoublyLinked t xs) :
    (∀ fInode fLength fFlags txnid, (∀ b ∈ xs, t.inode b ≠ fInode) →
      ∃ loc l r, t.searchFileList fInode = some (false, loc) ∧ xs = l ++ r ∧
        DoublyLinked (t.insertUnlocked loc (getFileNode fInode fLength fFlags txnid))
          (l ++ t.brk :: r) ∧
        Inserted t (t.insertUnlocked loc (getFileNode fInode fLength fFlags txnid))
          (getFileNode fInode fLength fFlags txnid)) ∧
    ∀ a ∈ xs, ∃ t', t.deleteFileList a = some t' ∧ DoublyLinked t' (xs.erase a) ∧
      Deleted t t' a := by
  constructor
  · intro fInode fLength fFlags txnid habsent
    obtain ⟨l, r, rfl, hl, hr, hsearch⟩ := h.search_absent habsent
    exact ⟨_, l, r, hsearch, rfl, h.insertUnlocked hl hr rfl, insertUnlocked_inserted⟩
  · intro a ha
    obtain ⟨l, r, rfl⟩ := List.append_of_mem ha
    have hal : a ∉ l := (notMem_split h.nodup).1
    obtain ⟨t', hdel, hlinked⟩ := h.delete
    refine ⟨t', hdel, ?_, deleteFileList_deleted hdel⟩
    rwa [List.erase_append_right _ hal, List.erase_cons_head]

/-- Three records, two of them of one inode: a new record in front of the shared group, and the
    head taken out. -/
theorem operations_shared :
    (∃ loc l r, (tableOf [5, 7, 7]).searchFileList 6 = some (false, loc) ∧ [0, 1, 2] = l ++ r ∧
      DoublyLinked ((tableOf [5, 7, 7]).insertUnlocked loc (getFileNode 6 0 1 4)) (l ++ 3 :: r)) ∧
    ∃ t', (tableOf [5, 7, 7]).deleteFileList 0 = some t' ∧ DoublyLinked t' [1, 2] := by
  have hlist : DoublyLinked (tableOf [5, 7, 7]) [0, 1, 2] := by
    constructor <;> decide
  obtain ⟨hinsert, hdelete⟩ := hlist.operations
  obtain ⟨loc, l, r, hsearch, hxs, hlinked, -⟩ := hinsert 6 0 1 4 (by decide)
  obtain ⟨t', hdel, hlinked', -⟩ := hdelete 0 (by simp)
  exact ⟨⟨loc, l, r, hsearch, hxs, hlinked⟩, t', hdel, hlinked'⟩

end LockTable

end TxFS
