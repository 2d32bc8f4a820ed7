import Mathlib.Algebra.Order.Ring.Int
import Mathlib.Data.List.Basic

/-!
# Shared Structures of the Server

The structures of `my_header.h`. A pointer is an `Option` of an address, `NULL` being
`none`. The lock manager compares and stores inode numbers, modes and ids but does no
arithmetic on them, so `int` and `long` fields are integers.

Fields that no function of the lock manager reads (`fd_dir`, `delayed_write`) and the
counters of the section "Performance Measurement" are left out.
-/

namespace TxFS

/-- Address of a heap record. -/
abbrev Addr := Nat

/-! ## Lock records -/

/-- `struct write_records`. `writeLength` doubles as the kind of a namespace operation:
    -1, -2 and -3 for the old parent, the new parent and the only parent of a rename,
    -4 for a creat, -5 for an unlink. -/
structure WriteRecord where
  initialOff : Int
  writeLength : Int
  LRN : Int
deriving DecidableEq, Repr

/-- `struct file_lock`. The list `writes_at` is kept as a list, oldest record first. -/
structure FileLock where
  fileInode : Int
  /-- 0 = shared, 1 = exclusive. -/
  fileMode : Int
  fd : Int
  fileOffset : Int
  fileSize : Int
  flags : Int
  parentTxn : Int
  /-- Next locked file of the same transaction. -/
  nextTxn : Option Addr
  prevSharedRec : Option Addr
  nextSharedRec : Option Addr
  next : Option Addr
  prev : Option Addr
  writesAt : List WriteRecord
deriving DecidableEq, Repr

/-! ## Live transactions -/

/-- `enum state`. -/
inductive TxnState where
  | running
  | waiting
  | aborting
  | commit
deriving DecidableEq, Repr

/-- `struct txn_node`. -/
structure TxnNode where
  txnId : Int
  curState : TxnState
  firstLRN : Int
  lastLRN : Int
  /-- First file the transaction owns. -/
  fileRecNo : Option Addr
  /-- 0 = waiting for a shared lock, 1 = for an exclusive lock, -1 = not waiting. -/
  waitMode : Int
  waitingForInode : Int
  blockedTid : Int
  /-- Serializes the transaction before (0) or after (1) the backup. -/
  beforeAfter : Int
deriving DecidableEq, Repr

/-- `get_txn_node`. -/
def getTxnNode (newTxnId : Int) (logRecNo : Int) : TxnNode where
  txnId := newTxnId
  curState := .running
  firstLRN := logRecNo
  lastLRN := logRecNo
  fileRecNo := none
  waitMode := -1
  waitingForInode := 0
  blockedTid := 0
  beforeAfter := 0

/-- Conversion of a `long` to the `int` parameter `log_rec_no` of `new_txn_insert`. -/
def intOfLong (x : Int) : Int := Int.bmod x (2 ^ 32)

theorem intOfLong_of_fits {x : Int} (hlow : -2 ^ 31 ≤ x) (hhigh : x < 2 ^ 31) :
    intOfLong x = x := by
  unfold intOfLong
  exact Int.bmod_eq_of_le (by omega) (by omega)

/-- `new_txn_insert`: in front of the first node with a larger id. -/
def newTxnInsert (newTxnId : Int) (logRecNo : Int) : List TxnNode → List TxnNode
  | [] => [getTxnNode newTxnId logRecNo]
  | n :: ns =>
    if n.txnId > newTxnId then getTxnNode newTxnId logRecNo :: n :: ns
    else n :: newTxnInsert newTxnId logRecNo ns

/-- `while (ptr->txn_id != txnid) ptr = ptr->next`; running off the list is `none`. -/
def searchTxn (txnid : Int) (ns : List TxnNode) : Option TxnNode :=
  ns.find? fun n => n.txnId = txnid

/-- Assignment to a field of the node that `searchTxn` finds. -/
def updateTxn (txnid : Int) (f : TxnNode → TxnNode) : List TxnNode → List TxnNode
  | [] => []
  | n :: ns => if n.txnId = txnid then f n :: ns else n :: updateTxn txnid f ns

/-- `ptr_txn_node->file_rec_no = start`. -/
def setFileRecNo (txnid : Int) (start : Option Addr) (ns : List TxnNode) : List TxnNode :=
  updateTxn txnid (fun n => { n with fileRecNo := start }) ns

/-- `txn_delete`; `none` runs off the list. -/
def txnDelete (txnid : Int) : List TxnNode → Option (List TxnNode)
  | [] => none
  | n :: ns => if n.txnId = txnid then some ns else (txnDelete txnid ns).map (n :: ·)

/-! ## Wait nodes and the pause array -/

/-- `struct wait_node`. Threads in `insert_wait_list` and `update_wait_list` keep a pointer
    to the node, `node` is its address. -/
structure WaitNode where
  node : Nat
  fileInode : Int
  /-- Number of transactions waiting on this file. -/
  inWait : Int
  /-- The deadlock victim, or -1. -/
  txnidAbort : Int
  wokeUp : Int
deriving DecidableEq, Repr

/-- `struct pause_node`. -/
structure PauseNode where
  txnid : Int
  pauseTimes : Int
deriving DecidableEq, Repr

/-- `enum bck_state`. -/
inductive BckState where
  | inactive
  | active
deriving DecidableEq, Repr

/-! ## Lemmas on the transaction list -/

section

variable {ns : List TxnNode} {t t' : Int} {f : TxnNode → TxnNode}

theorem searchTxn_id {n : TxnNode} (h : searchTxn t ns = some n) : n.txnId = t := by
  simpa using List.find?_some h

theorem searchTxn_mem {n : TxnNode} (h : searchTxn t ns = some n) : n ∈ ns :=
  List.mem_of_find?_eq_some h

/-- With distinct ids the search finds every node. -/
theorem searchTxn_of_mem (hnd : (ns.map TxnNode.txnId).Nodup) {n : TxnNode} (hn : n ∈ ns) :
    searchTxn n.txnId ns = some n := by
  induction ns with
  | nil => simp at hn
  | cons m ns ih =>
    simp only [List.map_cons, List.nodup_cons, List.mem_map, not_exists, not_and] at hnd
    rcases List.mem_cons.mp hn with rfl | hn'
    · simp [searchTxn]
    · have hne : m.txnId ≠ n.txnId := fun h => hnd.1 n hn' h.symm
      simpa [searchTxn, hne] using ih hnd.2 hn'

/-- An update that keeps the id is seen exactly by the search for that id. -/
theorem searchTxn_updateTxn (hf : ∀ n, (f n).txnId = n.txnId) :
    searchTxn t' (updateTxn t f ns) =
      if t' = t then (searchTxn t ns).map f else searchTxn t' ns := by
  induction ns with
  | nil => simp [searchTxn, updateTxn]
  | cons n ns ih =>
    simp only [searchTxn] at ih ⊢
    by_cases hnt : n.txnId = t
    · by_cases ht : t' = t
      · simp [updateTxn, hnt, ht, hf]
      · simp [updateTxn, hnt, ht, hf, Ne.symm ht]
    · by_cases hnt' : n.txnId = t'
      · have ht : t' ≠ t := fun h => hnt (hnt'.trans h)
        simp [updateTxn, hnt', ht]
      · simp [updateTxn, hnt, hnt', ih]

/-- With distinct ids an update touches exactly the node with the id. -/
theorem mem_updateTxn (hnd : (ns.map TxnNode.txnId).Nodup) {m : TxnNode} :
    m ∈ updateTxn t f ns ↔ (m ∈ ns ∧ m.txnId ≠ t) ∨ ∃ n ∈ ns, n.txnId = t ∧ m = f n := by
  induction ns with
  | nil => simp [updateTxn]
  | cons n ns ih =>
    simp only [List.map_cons, List.nodup_cons, List.mem_map, not_exists, not_and] at hnd
    by_cases hnt : n.txnId = t
    · have hother : ∀ k ∈ ns, k.txnId ≠ t := fun k hk hkt => hnd.1 k hk (hkt.trans hnt.symm)
      rw [updateTxn, if_pos hnt, List.mem_cons]
      constructor
      · rintro (rfl | hm)
        · exact .inr ⟨n, List.mem_cons_self .., hnt, rfl⟩
        · exact .inl ⟨List.mem_cons_of_mem _ hm, hother m hm⟩
      · rintro (⟨hm, hmt⟩ | ⟨k, hk, hkt, rfl⟩)
        · rcases List.mem_cons.mp hm with rfl | hm
          · exact absurd hnt hmt
          · exact .inr hm
        · rcases List.mem_cons.mp hk with rfl | hk
          · exact .inl rfl
          · exact absurd hkt (hother k hk)
    · rw [updateTxn, if_neg hnt, List.mem_cons, ih hnd.2]
      constructor
      · rintro (rfl | ⟨hm, hmt⟩ | ⟨k, hk, hkt, rfl⟩)
        · exact .inl ⟨List.mem_cons_self .., hnt⟩
        · exact .inl ⟨List.mem_cons_of_mem _ hm, hmt⟩
        · exact .inr ⟨k, List.mem_cons_of_mem _ hk, hkt, rfl⟩
      · rintro (⟨hm, hmt⟩ | ⟨k, hk, hkt, rfl⟩)
        · rcases List.mem_cons.mp hm with rfl | hm
          · exact .inl rfl
          · exact .inr (.inl ⟨hm, hmt⟩)
        · rcases List.mem_cons.mp hk with rfl | hk
          · exact absurd hkt hnt
          · exact .inr (.inr ⟨k, hk, hkt, rfl⟩)

theorem updateTxn_updateTxn {g : TxnNode → TxnNode} (hf : ∀ n, (f n).txnId = n.txnId) :
    updateTxn t g (updateTxn t f ns) = updateTxn t (fun n => g (f n)) ns := by
  induction ns with
  | nil => rfl
  | cons n ns ih =>
    by_cases hnt : n.txnId = t
    · simp [updateTxn, hnt, hf]
    · simp [updateTxn, hnt, ih]

theorem map_txnId_updateTxn (hf : ∀ n, (f n).txnId = n.txnId) :
    (updateTxn t f ns).map TxnNode.txnId = ns.map TxnNode.txnId := by
  induction ns with
  | nil => rfl
  | cons n ns ih =>
    by_cases hnt : n.txnId = t
    · simp [updateTxn, hnt, hf]
    · simp [updateTxn, hnt, ih]

theorem map_txnId_setFileRecNo {start : Option Addr} :
    (setFileRecNo t start ns).map TxnNode.txnId = ns.map TxnNode.txnId :=
  map_txnId_updateTxn fun _ => rfl

theorem setFileRecNo_setFileRecNo {start start' : Option Addr} :
    setFileRecNo t start' (setFileRecNo t start ns) = setFileRecNo t start' ns :=
  updateTxn_updateTxn fun _ => rfl

/-- Assigning the value a transaction has changes nothing. -/
theorem setFileRecNo_self {n : TxnNode} (h : searchTxn t ns = some n) :
    setFileRecNo t n.fileRecNo ns = ns := by
  induction ns with
  | nil => rfl
  | cons m ns ih =>
    by_cases hm : m.txnId = t
    · have hmn : m = n := by simpa [searchTxn, hm] using h
      subst hmn
      exact if_pos hm
    · have h' : searchTxn t ns = some n := by simpa [searchTxn, hm] using h
      exact (if_neg hm).trans (congrArg (m :: ·) (ih h'))

theorem searchTxn_setFileRecNo {start : Option Addr} :
    searchTxn t' (setFileRecNo t start ns) =
      if t' = t then (searchTxn t ns).map (fun n => { n with fileRecNo := start })
      else searchTxn t' ns :=
  searchTxn_updateTxn fun _ => rfl

/-- A new node is found where there was none with its id. -/
theorem searchTxn_newTxnInsert_self {lrn : Int} (h : searchTxn t ns = none) :
    searchTxn t (newTxnInsert t lrn ns) = some (getTxnNode t lrn) := by
  induction ns with
  | nil => simp [newTxnInsert, searchTxn, getTxnNode]
  | cons n ns ih =>
    have hne : n.txnId ≠ t := by
      intro hn
      simp [searchTxn, hn] at h
    rw [newTxnInsert]
    split
    · simp [searchTxn, getTxnNode]
    · simp only [searchTxn, List.find?_cons, hne, decide_false] at h ih ⊢
      exact ih h

/-- A new node is not seen by the search for another id. -/
theorem searchTxn_newTxnInsert {lrn : Int} (ht : t' ≠ t) :
    searchTxn t' (newTxnInsert t lrn ns) = searchTxn t' ns := by
  induction ns with
  | nil => simp [newTxnInsert, searchTxn, getTxnNode, Ne.symm ht]
  | cons n ns ih =>
    rw [newTxnInsert]
    split
    · simp [searchTxn, getTxnNode, Ne.symm ht]
    · by_cases hn : n.txnId = t'
      · simp [searchTxn, hn]
      · simpa [searchTxn, hn] using ih

/-- Neither is the deletion of a node with another id. -/
theorem searchTxn_txnDelete {ns' : List TxnNode} (ht : t' ≠ t) (h : txnDelete t ns = some ns') :
    searchTxn t' ns' = searchTxn t' ns := by
  induction ns generalizing ns' with
  | nil => simp [txnDelete] at h
  | cons n ns ih =>
    rw [txnDelete] at h
    split at h
    · rename_i hn
      have hnt : n.txnId ≠ t' := fun h' => ht (h'.symm.trans hn)
      cases h
      simp [searchTxn, hnt]
    · obtain ⟨ns'', hdel, rfl⟩ := Option.map_eq_some_iff.mp h
      by_cases hn : n.txnId = t'
      · simp [searchTxn, hn]
      · simpa [searchTxn, hn] using ih hdel

theorem newTxnInsert_perm {lrn : Int} :
    (newTxnInsert t lrn ns).Perm (getTxnNode t lrn :: ns) := by
  induction ns with
  | nil => exact List.Perm.refl _
  | cons n ns ih =>
    rw [newTxnInsert]
    split
    · exact List.Perm.refl _
    · exact (ih.cons n).trans (List.Perm.swap ..)

theorem txnDelete_perm {ns' : List TxnNode} (h : txnDelete t ns = some ns') :
    ∃ n, n.txnId = t ∧ ns.Perm (n :: ns') := by
  induction ns generalizing ns' with
  | nil => simp [txnDelete] at h
  | cons m ns ih =>
    rw [txnDelete] at h
    split at h
    · rename_i hm
      simp only [Option.some.injEq] at h
      exact ⟨m, hm, h ▸ List.Perm.refl _⟩
    · simp only [Option.map_eq_some_iff] at h
      obtain ⟨ns'', hdel, rfl⟩ := h
      obtain ⟨n, hn, hperm⟩ := ih hdel
      exact ⟨n, hn, (hperm.cons m).trans (List.Perm.swap ..)⟩

end

end TxFS
