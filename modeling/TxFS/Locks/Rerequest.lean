import TxFS.Locks.Isolation
import TxFS.Locks.SharedLinks

/-!
# Requests for a File that Is Locked Already

`insert_file_list` says "if locked by same transaction no need to lock again", and compares
the requesting transaction with the owner of one record: the one `search_file_list` has
found. The search starts behind the head of the lock list and looks back at most once, so of
the records of an inode it finds the first one behind the head, or the head.

A transaction whose own record is another one of the group is treated like a stranger. Its
shared request adds a second record for it, and its exclusive request waits for itself.
-/

namespace TxFS

open LinkedPath GuardedRun

namespace LockTable

variable {t : LockTable} {xs : List Addr} {On : Addr → Prop} {a x : Addr} {i : Int}

/-! ## The record that a search finds -/

/-- Where the record of a group stands that the search for the group finds: in front of it
    and behind the head only smaller inodes come, or it is the head and a larger inode comes
    next. -/
def LeadsGroup (t : LockTable) (xs : List Addr) (i : Int) (a : Addr) : Prop :=
  (∃ lo hi, xs.tail = lo ++ a :: hi ∧ ∀ b ∈ lo, t.inode b < i) ∨
    (xs.head? = some a ∧ ∀ b, xs.tail.head? = some b → i < t.inode b)

/-- The last record that the search has left behind leads its group if it is the head. -/
theorem LeadsGroup.of_last {lo hi : List Addr} (hlo : ∀ b ∈ lo, t.inode b < i)
    (hhi : ∀ b, hi.head? = some b → i ≤ t.inode b) (hlast : t.inode (lo.getLastD x) = i)
    (hne : ∀ b, hi.head? = some b → t.inode b ≠ i) :
    LeadsGroup t (x :: (lo ++ hi)) i (lo.getLastD x) := by
  rcases foll_cases x lo with ⟨hx, rfl⟩ | hmem
  · refine .inr ⟨congrArg some hx.symm, ?_⟩
    intro b hb
    have hge := hhi b hb
    have hbi := hne b hb
    omega
  · have hlt := hlo _ (List.mem_of_getLast? hmem)
    omega

/-- What stands behind the smaller records. -/
theorem dropWhile_smaller {l r : List Addr} (hl : ∀ b ∈ l, t.inode b < i)
    (hr : ∀ b, r.head? = some b → i ≤ t.inode b) :
    (l ++ r).dropWhile (fun b => t.inode b < i) = r := by
  rw [List.dropWhile_append_of_pos fun b hb => by simpa using hl b hb]
  cases r with
  | nil => rfl
  | cons c r => exact List.dropWhile_cons_of_neg (by simpa using hr c rfl)

/-- The leader is where the loop of the search stops, or the head, which nothing of the group
    follows. -/
theorem LeadsGroup.cases_split {lo hi : List Addr} (h : LeadsGroup t (x :: (lo ++ hi)) i a)
    (ha : t.inode a = i) (hlo : ∀ b ∈ lo, t.inode b < i)
    (hhi : ∀ b, hi.head? = some b → i ≤ t.inode b) :
    hi.head? = some a ∨ (x = a ∧ lo = [] ∧ ∀ b, hi.head? = some b → t.inode b ≠ i) := by
  rcases h with ⟨lo', hi', htail, hlo'⟩ | ⟨hhead, hnext⟩
  · -- both splits stop at the first record that is not smaller
    left
    have hsplit : lo ++ hi = lo' ++ a :: hi' := htail
    have heq := dropWhile_smaller hlo hhi
    rw [hsplit, dropWhile_smaller hlo' fun b hb => by cases hb; omega] at heq
    rw [← heq]
    rfl
  · right
    have hnil : lo = [] := by
      cases lo with
      | nil => rfl
      | cons b lo =>
        have hlt := hlo b (List.mem_cons_self ..)
        have hgt := hnext b rfl
        omega
    subst hnil
    refine ⟨Option.some.inj hhead, rfl, ?_⟩
    intro b hb
    have hgt := hnext b hb
    omega

/-- **The search finds the leader of the group**, on a lock list in any order. -/
theorem searchFileList_found_iff (h : IsPath (fun b => (t.cells b).next) t.headLockList xs)
    (hlt : ∀ b ∈ xs, b < t.brk) :
    t.searchFileList i = some (true, some a) ↔ t.inode a = i ∧ LeadsGroup t xs i a := by
  cases xs with
  | nil =>
    have hhead : t.headLockList = none := h
    have hnot : ¬ LeadsGroup t [] i a := by
      rintro (⟨lo, hi, htail, -⟩ | ⟨hnil, -⟩)
      · simp at htail
      · cases hnil
    simpa [searchFileList, hhead] using fun _ => hnot
  | cons x zs =>
    obtain ⟨lo, hi, rfl, hlo, hhi, hsearch⟩ := searchFileList_cons h hlt i
    rw [hsearch]
    constructor
    · -- the record in front of `hi`, or the last one the loop has left behind
      intro hfound
      cases hi with
      | nil =>
        simp only [List.head?_nil] at hfound
        split at hfound
        · rename_i hlast
          cases hfound
          exact ⟨hlast, .of_last hlo hhi hlast (by simp)⟩
        · cases hfound
      | cons p hi =>
        simp only [List.head?_cons] at hfound
        split at hfound
        · rename_i hp
          cases hfound
          exact ⟨hp, .inl ⟨lo, hi, rfl, hlo⟩⟩
        split at hfound
        · rename_i hp hlast
          cases hfound
          exact ⟨hlast, .of_last hlo hhi hlast fun b hb => by cases hb; exact hp⟩
        · cases hfound
    · rintro ⟨ha, hleads⟩
      rcases hleads.cases_split ha hlo hhi with hfirst | ⟨rfl, rfl, hne⟩
      · simp [hfirst, ha]
      · cases hi with
        | nil => simp [ha]
        | cons p hi => simp [ha, hne p rfl]

/-- The lock list is a path that ends, whatever the releases have left in the links. -/
theorem ListIntact.exists_isPath (h : ListIntact t On) :
    ∃ xs, IsPath (fun b => (t.cells b).next) t.headLockList xs ∧ ∀ b ∈ xs, b ∈ t.allocated := by
  classical
  have hon : ∀ {b}, b ∈ t.allocated.filter (fun b => On b) ↔ On b := by
    intro b
    simpa using h.mem b
  obtain ⟨xs, hxs, hmem⟩ : ∃ xs, IsPath (fun b => (t.cells b).next) t.headLockList xs ∧
      ∀ b ∈ xs, b ∈ t.allocated.filter fun b => On b := LinkedPath.exists_isPath
    (fun b hb => hon.mpr (h.head b hb))
    (fun b hb c hc => hon.mpr (h.next b c (hon.mp hb) hc).1)
    (fun b hb c hc d hbd hcd => by
      -- `prev` leads back to one record only
      have hdb := (h.next b d (hon.mp hb) hbd).2.1
      have hdc := (h.next c d (hon.mp hc) hcd).2.1
      exact Option.some.inj (hdb.symm.trans hdc))
    (fun b hb c hc hbc => (h.next b c (hon.mp hb) hbc).2.2 hc)
  exact ⟨xs, hxs, fun b hb => h.mem b (hon.mp (hmem b hb))⟩

end LockTable

namespace Server

variable {s : Server} {t i fl readBit : Int} {a : Addr}

/-! ## Requests of an owner -/

/-- The transaction has a record of the inode, at any place of the lock list. -/
def OwnsLock (s : Server) (t i : Int) : Prop :=
  ∃ a ∈ s.table.allocated, (s.cell a).parentTxn = t ∧ (s.cell a).fileInode = i

/-- The search and `insert_file_list` return a record of the transaction and of the inode at
    once, and leave the whole state as it is: no new record, no wait. -/
def AnsweredAtOnce (s : Server) (t i fl readBit : Int) : Prop :=
  ∃ found loc a, s.table.searchFileList i = some (found, loc) ∧
    s.insertFileList i fl t readBit found loc = some (s, .held a) ∧
    a ∈ s.table.allocated ∧ (s.cell a).parentTxn = t ∧ (s.cell a).fileInode = i

/-- The owner of the record that is found gets it back. -/
theorem insertFileList_own {n : TxnNode} (hn : searchTxn t s.headTxnList = some n)
    (hown : (s.cell a).parentTxn = t) :
    s.insertFileList i fl t readBit true (some a) = some (s, .held a) := by
  simp [insertFileList, hn, hown]

/-- `insert_file_list` ends with `held` only for the record that was found. -/
theorem RequestSpec.held_inv {loc : Option Addr} {found : Bool} {s' : Server} {out : Outcome}
    (h : RequestSpec s i fl t readBit loc found s' out) (hout : out = .held a) :
    found = true ∧ loc = some a ∧ (s.cell a).parentTxn = t ∧ s' = s := by
  cases h with
  | held hloc hown =>
    cases hout
    exact ⟨rfl, hloc, hown, rfl⟩
  | unlocked => cases hout
  | shared => cases hout
  | newNode => cases hout
  | oldNode => cases hout
  | refused _ hrefused =>
    rw [hout] at hrefused
    rcases hrefused with hrefused | hrefused <;> cases hrefused

/-- Only the record that the search has found counts. -/
theorem answeredAtOnce_iff_search (hlist : HasLockList s) (hown : Owned s.table s.headTxnList)
    (howns : s.OwnsLock t i) : s.AnsweredAtOnce t i fl readBit ↔
      ∃ a, s.table.searchFileList i = some (true, some a) ∧ (s.cell a).parentTxn = t := by
  constructor
  · rintro ⟨found, loc, a, hsearch, hinsert, -, hparent, -⟩
    obtain ⟨rfl, rfl, -, -⟩ := (insertFileList_spec hinsert).held_inv rfl
    exact ⟨a, hsearch, hparent⟩
  · rintro ⟨a, hsearch, hparent⟩
    obtain ⟨b, hb, hbt, -⟩ := howns
    obtain ⟨n, hn, hnb⟩ := hown.live b hb
    have hn' : searchTxn t s.headTxnList = some n := by
      rw [← hbt]
      exact hnb ▸ hown.search_eq hn
    exact ⟨true, some a, a, hsearch, insertFileList_own hn' hparent,
      hlist.search_mem hsearch, hparent, LockTable.searchFileList_inode hsearch⟩

/-- **Re-requests.** In every reachable state a transaction that has locked a file gets its
    record back at once exactly when this record leads the group of the inode on the lock
    list. -/
theorem answeredAtOnce_iff {handles : Nat} (h : Reachable (globalInit handles) step s) :
    ∃ xs, IsPath (fun b => (s.cell b).next) s.table.headLockList xs ∧
      ∀ t i fl readBit, s.OwnsLock t i → (s.AnsweredAtOnce t i fl readBit ↔
        ∃ a, (s.cell a).parentTxn = t ∧ (s.cell a).fileInode = i ∧
          s.table.LeadsGroup xs i a) := by
  have hlist := hasLockList_of_reachable h
  have hown := owned_of_reachable h
  obtain ⟨On, hon⟩ := id hlist
  obtain ⟨xs, hxs, hmem⟩ := hon.exists_isPath
  refine ⟨xs, hxs, ?_⟩
  intro t i fl readBit howns
  rw [answeredAtOnce_iff_search hlist hown howns]
  have hfound : ∀ a, s.table.searchFileList i = some (true, some a) ↔
      (s.cell a).fileInode = i ∧ s.table.LeadsGroup xs i a := fun a =>
    LockTable.searchFileList_found_iff hxs fun b hb => hown.lt_brk b (hmem b hb)
  constructor
  · rintro ⟨a, hsearch, hparent⟩
    exact ⟨a, hparent, (hfound a).mp hsearch⟩
  · rintro ⟨a, hparent, hplace⟩
    exact ⟨a, (hfound a).mpr hplace, hparent⟩

/-- The second reader of a file gets its record back. -/
theorem answeredAtOnce_second_reader :
    ∃ s, Reachable (globalInit 1) step s ∧ s.OwnsLock 2 7 ∧ s.AnsweredAtOnce 2 7 0 0 := by
  obtain ⟨s, hs, hown, hlinks⟩ := exists_of_run (globalInit 1) step
    (fun s => (1 ∈ s.table.allocated ∧ (s.cell 1).parentTxn = 2 ∧ (s.cell 1).fileInode = 7) ∧
      s.table.headLockList = some 0 ∧ (s.cell 0).next = some 1 ∧ (s.cell 1).next = none)
    [.begin 1, .begin 2, .lock 1 ⟨7, 0, .placeholder⟩ 0, .lock 2 ⟨7, 0, .placeholder⟩ 0]
    (by decide)
  have howns : s.OwnsLock 2 7 := ⟨1, hown⟩
  obtain ⟨xs, hxs, hiff⟩ := answeredAtOnce_iff hs
  have hlist : xs = [0, 1] := hxs.unique ⟨hlinks.1, hlinks.2.1, hlinks.2.2⟩
  refine ⟨s, hs, howns, (hiff 2 7 0 0 howns).mpr ⟨1, hown.2.1, hown.2.2, .inl ⟨[], [], ?_, nofun⟩⟩⟩
  rw [hlist]
  rfl

/-- The first of two readers wants to write: it is parked behind its own record. -/
theorem first_reader_waits_for_itself :
    ∃ s, Reachable (globalInit 1) step s ∧ s.OwnsLock 1 7 ∧ ¬ s.AnsweredAtOnce 1 7 2 0 ∧
      ∃ s', step s (.lock 1 ⟨7, 2, .placeholder⟩ 0) = some s' ∧
        s'.thread 1 = .parked ⟨⟨7, 2, .placeholder⟩, some 1⟩ 0 false := by
  obtain ⟨s, hs, hown, hsearch, hparent, hparked⟩ := exists_of_run (globalInit 1) step
    (fun s => (0 ∈ s.table.allocated ∧ (s.cell 0).parentTxn = 1 ∧ (s.cell 0).fileInode = 7) ∧
      s.table.searchFileList 7 = some (true, some 1) ∧ (s.cell 1).parentTxn ≠ 1 ∧
      (step s (.lock 1 ⟨7, 2, .placeholder⟩ 0)).any (fun s' => decide
        (s'.thread 1 = .parked ⟨⟨7, 2, .placeholder⟩, some 1⟩ 0 false)) = true)
    [.begin 1, .begin 2, .lock 1 ⟨7, 0, .placeholder⟩ 0, .lock 2 ⟨7, 0, .placeholder⟩ 0]
    (by decide)
  have howns : s.OwnsLock 1 7 := ⟨0, hown⟩
  obtain ⟨s', hs', hthread⟩ := (Option.any_eq_true ..).mp hparked
  refine ⟨s, hs, howns, ?_, s', hs', of_decide_eq_true hthread⟩
  rw [answeredAtOnce_iff_search (hasLockList_of_reachable hs) (owned_of_reachable hs) howns]
  rintro ⟨a, ha, hat⟩
  rw [hsearch] at ha
  cases ha
  exact hparent hat

end Server

end TxFS
