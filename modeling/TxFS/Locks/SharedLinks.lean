import TxFS.Locks.LockList

/-!
# The Shared Links Agree on the Inode

The release functions may leave links to freed records, and records may be hung behind freed
ones. Still `next_shared_rec` and `prev_shared_rec` only ever connect records, freed or not,
of one inode in shared mode.
-/

namespace TxFS

open LinkedPath GuardedRun

namespace LockTable

variable {t t' : LockTable} {a b l p : Addr} {c : FileLock}

/-- Both records are shared records of one inode. -/
def SameShared (t : LockTable) (a b : Addr) : Prop :=
  b < t.brk ∧ (t.cells b).fileInode = (t.cells a).fileInode ∧
    (t.cells a).fileMode = 0 ∧ (t.cells b).fileMode = 0

/-- **The shared links agree**. -/
structure SharedAgree (t : LockTable) : Prop where
  mode : ∀ a, (t.cells a).fileMode = 0 ∨ (t.cells a).fileMode = 1
  next : ∀ a b, (t.cells a).nextSharedRec = some b → t.SameShared a b
  prev : ∀ a b, (t.cells a).prevSharedRec = some b → t.SameShared a b

/-! ## Links that stay or go -/

/-- Inodes and modes stay, and every link is an old one. -/
theorem SharedAgree.congr (h : SharedAgree t) (hbrk : t'.brk = t.brk)
    (hkey : ∀ b, (t'.cells b).fileInode = (t.cells b).fileInode ∧
      (t'.cells b).fileMode = (t.cells b).fileMode)
    (hnext : ∀ a b, (t'.cells a).nextSharedRec = some b → t.SameShared a b)
    (hprev : ∀ a b, (t'.cells a).prevSharedRec = some b → t.SameShared a b) :
    SharedAgree t' := by
  have hsame : ∀ a b, t.SameShared a b → t'.SameShared a b := by
    intro a b hab
    unfold SameShared at hab ⊢
    rw [hbrk, (hkey a).1, (hkey a).2, (hkey b).1, (hkey b).2]
    exact hab
  constructor
  case mode =>
    intro a
    rw [(hkey a).2]
    exact h.mode a
  case next =>
    exact fun a b hab => hsame a b (hnext a b hab)
  case prev =>
    exact fun a b hab => hsame a b (hprev a b hab)

/-- A deletion keeps inodes and modes, also of the freed record, and makes no shared link. -/
theorem deleteFileList_shared (h : t.deleteFileList a = some t') (b : Addr) :
    (t'.cells b).fileInode = (t.cells b).fileInode ∧
      (t'.cells b).fileMode = (t.cells b).fileMode ∧
      (∀ c, (t'.cells b).nextSharedRec = some c → (t.cells b).nextSharedRec = some c) ∧
      ∀ c, (t'.cells b).prevSharedRec = some c → (t.cells b).prevSharedRec = some c := by
  by_cases hb : b = a
  · subst hb
    -- the freed record has lost its links
    have hfreed : ∀ t₁ : LockTable, (t₁.cells b).content = (t.cells b).content →
        ((t₁.freeFileNode b).cells b).fileInode = (t.cells b).fileInode ∧
          ((t₁.freeFileNode b).cells b).fileMode = (t.cells b).fileMode ∧
          (∀ c, ((t₁.freeFileNode b).cells b).nextSharedRec = some c →
            (t.cells b).nextSharedRec = some c) ∧
          ∀ c, ((t₁.freeFileNode b).cells b).prevSharedRec = some c →
            (t.cells b).prevSharedRec = some c := by
      intro t₁ hcontent
      have hi := FileLock.content_inode hcontent
      have hm := FileLock.content_mode hcontent
      simp [freeFileNode, modify, hi, hm]
    unfold deleteFileList at h
    dsimp only at h
    split at h
    · cases h
      apply hfreed
      cases (t.cells b).next with
      | none => rfl
      | some n => exact modify_content (by intro _; rfl)
    · split at h
      · cases h
      · split at h
        · cases h
          exact hfreed _ (modify_content (by intro _; rfl))
        · cases h
          exact hfreed _ ((modify_content (by intro _; rfl)).trans
            (modify_content (by intro _; rfl)))
  · rw [deleteFileList_cells h hb]
    exact ⟨rfl, rfl, fun _ => id, fun _ => id⟩

theorem SharedAgree.delete (h : SharedAgree t) (hdel : t.deleteFileList a = some t') :
    SharedAgree t' := by
  refine h.congr (deleteFileList_rest hdel).2.1 (fun b => ?_) (fun b c hbc => ?_) fun b c hbc => ?_
  · obtain ⟨hi, hm, -⟩ := deleteFileList_shared hdel b
    exact ⟨hi, hm⟩
  · exact h.next b c ((deleteFileList_shared hdel b).2.2.1 c hbc)
  · exact h.prev b c ((deleteFileList_shared hdel b).2.2.2 c hbc)

/-- The neighbours of a record in the shared list are records of one inode. -/
theorem SharedAgree.unlinkShared (h : SharedAgree t) : SharedAgree (t.unlinkShared a) := by
  refine h.congr unlinkShared_rest.2.1 (fun b => ?_) (fun b c hbc => ?_) fun b c hbc => ?_
  · rw [unlinkShared_cells]
    exact ⟨rfl, rfl⟩
  · rw [unlinkShared_cells] at hbc
    dsimp only at hbc
    split at hbc
    · -- from the record in front of `a` to the one behind it
      rename_i hprev
      obtain ⟨-, hi, hma, hmb⟩ := h.prev a b hprev
      obtain ⟨hlt, hi', -, hmc⟩ := h.next a c hbc
      exact ⟨hlt, hi'.trans hi.symm, hmb, hmc⟩
    · exact h.next b c hbc
  · rw [unlinkShared_cells] at hbc
    dsimp only at hbc
    split at hbc
    · rename_i hnext
      obtain ⟨-, hi, hma, hmb⟩ := h.next a b hnext
      obtain ⟨hlt, hi', -, hmc⟩ := h.prev a c hbc
      exact ⟨hlt, hi'.trans hi.symm, hmb, hmc⟩
    · exact h.prev b c hbc

/-! ## A new record -/

/-- **A new record** at the allocation address. Links to it start at records of its inode,
    and its own link goes to one. -/
theorem SharedAgree.grow (h : SharedAgree t) (hbrk : t'.brk = t.brk + 1)
    (hmode : (t'.cells t.brk).fileMode = 0 ∨ (t'.cells t.brk).fileMode = 1)
    (hkey : ∀ b ≠ t.brk, (t'.cells b).fileInode = (t.cells b).fileInode ∧
      (t'.cells b).fileMode = (t.cells b).fileMode)
    (hnext : ∀ b ≠ t.brk, ∀ c, (t'.cells b).nextSharedRec = some c →
      (t.cells b).nextSharedRec = some c ∨ (c = t.brk ∧ t'.SameShared b t.brk))
    (hprev : ∀ b ≠ t.brk, (t'.cells b).prevSharedRec = (t.cells b).prevSharedRec)
    (hnewNext : (t'.cells t.brk).nextSharedRec = none)
    (hnewPrev : ∀ p, (t'.cells t.brk).prevSharedRec = some p → t'.SameShared t.brk p) :
    SharedAgree t' := by
  -- links between old records
  have hold : ∀ b ≠ t.brk, ∀ c, t.SameShared b c → t'.SameShared b c := by
    intro b hb c hbc
    obtain ⟨hlt, hi, hmb, hmc⟩ := hbc
    have hc : c ≠ t.brk := Nat.ne_of_lt hlt
    refine ⟨?_, ?_, ?_, ?_⟩
    · rw [hbrk]
      exact Nat.lt_succ_of_lt hlt
    · rw [(hkey c hc).1, (hkey b hb).1, hi]
    · rw [(hkey b hb).2, hmb]
    · rw [(hkey c hc).2, hmc]
  constructor
  case mode =>
    intro b
    by_cases hb : b = t.brk
    · exact hb ▸ hmode
    · rw [(hkey b hb).2]
      exact h.mode b
  case next =>
    intro b c hbc
    by_cases hb : b = t.brk
    · rw [hb, hnewNext] at hbc
      cases hbc
    · rcases hnext b hb c hbc with hbc | ⟨rfl, hsame⟩
      · exact hold b hb c (h.next b c hbc)
      · exact hsame
  case prev =>
    intro b c hbc
    by_cases hb : b = t.brk
    · subst hb
      exact hnewPrev c hbc
    · rw [hprev b hb] at hbc
      exact hold b hb c (h.prev b c hbc)

/-- Behind a record of the lock list, or in front of it. -/
theorem SharedAgree.insertUnlocked {loc : Option Addr} (h : SharedAgree t)
    (hc : c.fileMode = 0 ∨ c.fileMode = 1) (hl : ∀ l, loc = some l → l < t.brk)
    (hnext : ∀ l, (t.cells l).next ≠ some t.brk) (hcn : c.nextSharedRec = none)
    (hcp : c.prevSharedRec = none) : SharedAgree (t.insertUnlocked loc c) := by
  -- the new record may be allocated with any links on the lock list
  have halloc : ∀ (t' : LockTable), t'.brk = t.brk + 1 →
      (t'.cells t.brk).fileMode = c.fileMode → (t'.cells t.brk).nextSharedRec = none →
      (t'.cells t.brk).prevSharedRec = none →
      (∀ b ≠ t.brk, (t'.cells b).fileInode = (t.cells b).fileInode ∧
        (t'.cells b).fileMode = (t.cells b).fileMode ∧
        (t'.cells b).nextSharedRec = (t.cells b).nextSharedRec ∧
        (t'.cells b).prevSharedRec = (t.cells b).prevSharedRec) → SharedAgree t' := by
    intro t' hbrk hmode hnone hnone' hkeep
    refine h.grow hbrk (hmode.symm ▸ hc) (fun b hb => ?_) (fun b hb d hbd => ?_) (fun b hb => ?_)
      hnone ?_
    · exact ⟨(hkeep b hb).1, (hkeep b hb).2.1⟩
    · rw [(hkeep b hb).2.2.1] at hbd
      exact .inl hbd
    · exact (hkeep b hb).2.2.2
    · intro q hq
      rw [hnone'] at hq
      cases hq
  unfold LockTable.insertUnlocked
  cases loc with
  | none =>
    apply halloc
    · rfl
    · simp [alloc]
    · simp [alloc, hcn]
    · simp [alloc, hcp]
    · intro b hb
      simp [alloc, hb]
  | some l =>
    have hlt := hl l rfl
    dsimp only
    split
    · have hne : t.brk ≠ l := Nat.ne_of_gt hlt
      apply halloc
      · rfl
      · simp [modify, alloc, hne]
      · simp [modify, alloc, hne, hcn]
      · simp [modify, alloc, hne, hcp]
      · intro b hb
        by_cases hbl : b = l
        · subst hbl
          simp [modify, alloc, hb]
        · simp [modify, alloc, hb, hbl]
    · have hnew := insertAfter_cells_new (c := c) (Nat.ne_of_lt hlt) (hnext l)
      apply halloc
      · exact insertAfter_rest.2.1
      · rw [hnew]
      · rw [hnew]
        exact hcn
      · rw [hnew]
        exact hcp
      · intro b hb
        rw [insertAfter_cells hb]
        exact ⟨rfl, rfl, rfl, rfl⟩

/-- Behind the last record that `next_shared_rec` leads to. -/
theorem SharedAgree.insertShared (h : SharedAgree t) (hl : l < t.brk)
    (hi : (t.cells l).fileInode = c.fileInode) (hm : (t.cells l).fileMode = 0)
    (hc : c.fileMode = 0) (hnext : ∀ b, (t.cells b).next ≠ some t.brk)
    (hcn : c.nextSharedRec = none) (hins : t.insertShared l c = some t') : SharedAgree t' := by
  simp only [LockTable.insertShared, Option.bind_eq_bind, Option.bind_eq_some_iff,
    Option.some.injEq] at hins
  obtain ⟨p, hwalk, rfl⟩ := hins
  -- the walk stays among the shared records of the inode
  have hp : (p < t.brk ∧ (t.cells p).fileInode = c.fileInode ∧ (t.cells p).fileMode = 0) ∧
      (t.cells p).nextSharedRec = none := by
    refine walkToEnd_induct (P := fun a => a < t.brk ∧ (t.cells a).fileInode = c.fileInode ∧
      (t.cells a).fileMode = 0) ?_ ⟨hl, hi, hm⟩ hwalk
    intro a b ha hab
    obtain ⟨hlt, hib, -, hmb⟩ := h.next a b hab
    exact ⟨hlt, hib.trans ha.2.1, hmb⟩
  obtain ⟨⟨hlt, hpi, hpm⟩, -⟩ := hp
  have hne : t.brk ≠ p := Nat.ne_of_gt hlt
  have hnew := insertAfter_cells_new (c := { c with prevSharedRec := some p })
    (Nat.ne_of_lt hlt) (hnext p)
  have hold := fun {b : Addr} (hb : b ≠ t.brk) =>
    insertAfter_cells (t := t) (p := p) (c := { c with prevSharedRec := some p }) hb
  have hrest := insertAfter_rest (t := t) (p := p) (c := { c with prevSharedRec := some p })
  generalize t.insertAfter p { c with prevSharedRec := some p } = t₁ at hnew hold hrest
  have hcell : ∀ b, (t₁.modify p fun d => { d with nextSharedRec := some t.brk }).cells b =
      { t₁.cells b with
        nextSharedRec := if b = p then some t.brk else (t₁.cells b).nextSharedRec } := by
    intro b
    by_cases hbp : b = p
    · subst hbp
      rw [modify_cells_self, if_pos rfl]
    · rw [modify_cells_of_ne hbp, if_neg hbp]
  have hbrk : (t₁.modify p fun d => { d with nextSharedRec := some t.brk }).brk = t.brk + 1 :=
    hrest.2.1
  -- the record in front and the new one agree
  have hpair : SameShared (t₁.modify p fun d => { d with nextSharedRec := some t.brk }) p t.brk ∧
      SameShared (t₁.modify p fun d => { d with nextSharedRec := some t.brk }) t.brk p := by
    unfold SameShared
    rw [hbrk, hcell p, hcell t.brk, hold (Ne.symm hne), hnew]
    exact ⟨⟨Nat.lt_succ_self _, hpi.symm, hpm, hc⟩, Nat.lt_succ_of_lt hlt, hpi, hc, hpm⟩
  refine h.grow hbrk ?_ (fun b hb => ?_) (fun b hb d hbd => ?_) (fun b hb => ?_) ?_ ?_
  · rw [hcell, hnew]
    exact .inl hc
  · rw [hcell, hold hb]
    exact ⟨rfl, rfl⟩
  · rw [hcell, hold hb] at hbd
    dsimp only at hbd
    split at hbd
    · rename_i hbp
      subst hbp
      cases hbd
      exact .inr ⟨rfl, hpair.1⟩
    · exact .inl hbd
  · rw [hcell, hold hb]
  · rw [hcell, hnew]
    exact (if_neg hne).trans hcn
  · intro q hq
    rw [hcell, hnew] at hq
    cases hq
    exact hpair.2

/-- A search that succeeds returns a record of the inode. -/
theorem searchFileList_inode {i : Int} (h : t.searchFileList i = some (true, some l)) :
    (t.cells l).fileInode = i := by
  unfold searchFileList at h
  split at h
  · cases h
  · simp only [Option.bind_eq_bind, Option.bind_eq_some_iff] at h
    obtain ⟨⟨foll, ptr⟩, -, h⟩ := h
    cases ptr with
    | none =>
      dsimp only at h
      split at h
      · rename_i hf
        cases h
        exact hf
      · cases h
    | some p =>
      dsimp only at h
      split at h
      · rename_i hp
        cases h
        exact hp
      split at h
      · rename_i hf
        cases h
        exact hf
      · cases h

end LockTable

namespace Server

variable {s s' : Server} {t : Int} {a : Addr} {acts : List Act} {close : Bool → Int → Option Act}
  {e : Event}

/-! ## The server -/

theorem SharedAgree.sameLinks (h : s.table.SharedAgree) (hlinks : s.table.SameLinks s'.table) :
    s'.table.SharedAgree := by
  have hcell := hlinks.cells
  refine h.congr hlinks.brk (fun b => ?_) (fun b c hbc => ?_) fun b c hbc => ?_
  · obtain ⟨_, _, _, hb⟩ := hcell b
    rw [hb]
    exact ⟨rfl, rfl⟩
  · obtain ⟨_, _, _, hb⟩ := hcell b
    rw [hb] at hbc
    exact h.next b c hbc
  · obtain ⟨_, _, _, hb⟩ := hcell b
    rw [hb] at hbc
    exact h.prev b c hbc

/-- The links of the transactions' own lists do not count. -/
theorem SharedAgree.nextTxn {table table' : LockTable} (h : table.SharedAgree)
    (hbrk : table'.brk = table.brk)
    (hcells : ∀ b, ∃ nx, table'.cells b = { table.cells b with nextTxn := nx }) :
    table'.SharedAgree := by
  refine h.congr hbrk (fun b => ?_) (fun b c hbc => ?_) fun b c hbc => ?_
  · obtain ⟨_, hb⟩ := hcells b
    rw [hb]
    exact ⟨rfl, rfl⟩
  · obtain ⟨_, hb⟩ := hcells b
    rw [hb] at hbc
    exact h.next b c hbc
  · obtain ⟨_, hb⟩ := hcells b
    rw [hb] at hbc
    exact h.prev b c hbc

theorem ReleaseSpec.sharedAgree (hspec : ReleaseSpec close s a s' acts)
    (h : s.table.SharedAgree) : s'.table.SharedAgree := by
  cases hspec with
  | quiet hwait htable => exact h.delete htable
  | unlinked hwait hmode hlinks htable => exact h.unlinkShared.delete htable
  | woken hwait hlast htable => exact h.delete htable

theorem Frees.sharedAgree {l : List Addr} (hfree : Frees close s t l a s' acts)
    (h : s.table.SharedAgree) : s'.table.SharedAgree := by
  obtain ⟨n, r, -, -, hspec⟩ := hfree
  obtain ⟨table, ns, hunlink, -, hbrk, -, hcells, -⟩ := s.unlinkTxnList_frame t l.getLast? a
  rw [hunlink] at hspec
  exact hspec.sharedAgree (SharedAgree.nextTxn h hbrk fun b => ⟨_, hcells b⟩)

theorem releaseLocks_sharedAgree {prepare : Server → Addr → Option (Server × List Act)}
    (hprep : ∀ s a s₁ pre, prepare s a = some (s₁, pre) → SameButData s s₁)
    (h : s.table.SharedAgree) (hrel : releaseLocks prepare close s t = some (s', acts)) :
    s'.table.SharedAgree := by
  simp only [releaseLocks, Option.bind_eq_bind, Option.bind_eq_some_iff] at hrel
  obtain ⟨n, -, hrel⟩ := hrel
  refine releaseLoop_steps (I := fun _ s₁ _ => s₁.table.SharedAgree) [] ?_ hrel h
  intro a s₁ s₂ s₃ pre rel done hI hpre hrec
  obtain ⟨table, rfl, hlinks⟩ := hprep _ _ _ _ hpre
  have hagree : ({ s₁ with table := table } : Server).table.SharedAgree :=
    SharedAgree.sameLinks hI hlinks
  exact (releaseRecord_spec hrec).sharedAgree hagree

theorem requestLock_sharedAgree {req : LockRequest} {first : Option (Option Addr)}
    {readBit : Int} (hown : Owned s.table s.headTxnList) (hlist : HasLockList s)
    (h : s.table.SharedAgree) (hreq : s.requestLock t req first readBit = some s') :
    s'.table.SharedAgree := by
  obtain ⟨found, loc, s₁, out, hsearch, hspec, hlinks, -⟩ := requestLock_frame hreq
  apply SharedAgree.sameLinks _ hlinks
  obtain ⟨On, hon⟩ := id hlist
  have hbelow : ∀ b, (s.table.cells b).next ≠ some s.table.brk := fun b hb =>
    Nat.lt_irrefl _ (hon.below b _ (.inl hb))
  have hlt : ∀ l, loc = some l → l < s.table.brk := fun l hl =>
    hown.lt_brk l (hlist.search_mem (hl ▸ hsearch))
  have hgranted : ∀ {table : LockTable}, table.SharedAgree → GrantedIn s t readBit table s₁ →
      s₁.table.SharedAgree := by
    intro table htable hgrant
    obtain ⟨table', _, _, _, rfl, -, -, hbrk, -, hcells⟩ := hgrant.frame
    exact SharedAgree.nextTxn htable hbrk hcells
  cases hspec with
  | held => exact h
  | unlocked hadm hgrant =>
    refine hgranted (h.insertUnlocked ?_ hlt hbelow rfl rfl) hgrant
    by_cases hfl : req.flags = 0
    · exact .inl (if_pos hfl)
    · exact .inr (if_neg hfl)
  | @shared l table s₁ hloc howner hmode hfl hadm htable hgrant =>
    have hm : (s.cell l).fileMode = 0 := (h.mode l).resolve_right hmode
    exact hgranted (h.insertShared (hlt l hloc) (LockTable.searchFileList_inode (hloc ▸ hsearch)) hm
      (if_pos hfl) hbelow rfl htable) hgrant
  | newNode => exact h
  | oldNode => exact h
  | refused hs' hout =>
    obtain ⟨_, _, _, rfl, -⟩ := hs'
    exact h

/-- **Every step keeps the shared links in agreement**. -/
theorem sharedAgree_step (hown : Owned s.table s.headTxnList) (hlist : HasLockList s)
    (h : s.table.SharedAgree) (hstep : s.step e = some s') : s'.table.SharedAgree := by
  have hquiet := step_quiet hstep
  cases step_spec hstep with
  | begin => exact h
  | lock hthread hreq => exact requestLock_sharedAgree hown hlist h hreq
  | resume hthread hreq => exact requestLock_sharedAgree hown hlist h hreq
  | commit hthread hrel hend =>
    rw [endTxn_table hend]
    exact releaseLocks_sharedAgree (fun _ _ _ _ => performWrites_sameButData) h hrel
  | abort hthread hrel hend =>
    rw [endTxn_table hend]
    exact releaseLocks_sharedAgree (fun _ _ _ _ => discardWrites_sameButData) h hrel
  | releaseByBackup hthread hrel =>
    obtain ⟨l, a, -, hfree⟩ := releaseLocksByBackup_spec hown hrel
    exact hfree.sharedAgree h
  | endBackup hthread hnone hend =>
    rw [endTxn_table hend]
    exact h
  | wake => exact SharedAgree.sameLinks h hquiet.1
  | leaveAsVictim => exact SharedAgree.sameLinks h hquiet.1
  | call => exact SharedAgree.sameLinks h hquiet.1
  | markVictim => exact SharedAgree.sameLinks h hquiet.1
  | setBackup => exact h

theorem sharedAgree_globalInit {handles : Nat} : (globalInit handles).table.SharedAgree where
  mode := fun _ => .inl rfl
  next := nofun
  prev := nofun

/-- **The shared links agree in every run**. -/
theorem sharedAgree_of_reachable {handles : Nat} {ok : Server → Event → Prop}
    (h : ReachableUnder (globalInit handles) step ok s) : s.table.SharedAgree :=
  h.invariant (P := fun s => s.table.SharedAgree) sharedAgree_globalInit
    fun _ _ _ hs hagree _ hstep =>
      sharedAgree_step (owned_of_reachable hs) (hasLockList_of_reachable hs) hagree hstep

end Server

end TxFS
