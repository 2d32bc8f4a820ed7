import TxFS.Commit.Queues

/-!
# Descriptors and Handles

A lock record keeps in `fd` the YAFFS handle of its `on_open`, 0 as a placeholder for a
directory or a file that was only examined, or -1. Handle 0 is a legal handle. This file says
what a release closes: one call for each record whose descriptor passes the test of the
release function.
-/

namespace TxFS

open LinkedPath

/-- The handle that an action closes. -/
def Act.handle : Act → Option Int
  | .close fd | .closeAbort fd => some fd
  | .rename .. | .sync .. | .unlink .. | .write _ => none

/-- The number of calls that close the handle `h`. -/
def closings (h : Nat) (acts : List Act) : Nat := acts.countP fun act => act.handle = some (h : Int)

theorem closings_append {h : Nat} {acts acts' : List Act} :
    closings h (acts ++ acts') = closings h acts + closings h acts' := List.countP_append

namespace Server

variable {s s' s₁ s₂ : Server} {t x : Int} {a : Addr} {acts rel : List Act} {h : Nat}
  {close : Bool → Int → Option Act} {lo : Nat}

/-- The transaction whose `on_open` obtained the open handle `h`. -/
def handleOwner (s : Server) (h : Nat) : Option Int := s.handles[h]?.getD none

/-- How many records of a transaction have the descriptor `h`. -/
def countFd (s : Server) (x : Int) (h : Nat) : Nat :=
  (s.ownRecords x).countP fun a => (s.cell a).fd = h

/-! ## What a release closes -/

/-- A closing rule that calls the close function for exactly the descriptors from `lo` on,
    as far as handles are concerned. -/
structure ClosesFrom (close : Bool → Int → Option Act) (lo : Nat) : Prop where
  handle : ∀ waited fd act, close waited fd = some act → act.handle = some fd
  closes : ∀ waited (fd : Int), lo ≤ fd → close waited fd ≠ none
  spares : ∀ waited (fd : Int), 0 ≤ fd → fd < lo → close waited fd = none

/-- A commit tests `fd > 0` or `fd != 0`, depending on the wait list. -/
theorem closesFrom_success : ClosesFrom closeOnSuccess 1 := by
  constructor
  · intro waited fd act hact
    by_cases hclose : if waited then fd ≠ 0 else fd > 0
    · rw [closeOnSuccess, if_pos hclose] at hact
      cases hact
      rfl
    · rw [closeOnSuccess, if_neg hclose] at hact
      cases hact
  · intro waited fd hfd
    have hclose : if waited then fd ≠ 0 else fd > 0 := by
      cases waited with
      | false =>
        show fd > 0
        omega
      | true =>
        show fd ≠ 0
        omega
    rw [closeOnSuccess, if_pos hclose]
    exact nofun
  · intro waited fd hfd hlo
    have hzero : fd = 0 := by omega
    subst hzero
    cases waited with
    | false => rfl
    | true => rfl

/-- An abort tests `fd >= 0`. -/
theorem closesFrom_abort : ClosesFrom closeOnAbort 0 := by
  constructor
  · intro waited fd act hact
    unfold closeOnAbort at hact
    split at hact
    · cases hact
      rfl
    · cases hact
  · intro waited fd hfd
    have hclose : fd ≥ 0 := by omega
    rw [closeOnAbort, if_pos hclose]
    exact nofun
  · intro waited fd hfd hlo
    omega

/-- The calls for one record. -/
theorem ClosesFrom.closings (hc : ClosesFrom close lo) (waited : Bool) (fd : Int) (h : Nat) :
    closings h (close waited fd).toList = if fd = h ∧ lo ≤ h then 1 else 0 := by
  cases hact : close waited fd with
  | none =>
    -- only a descriptor below `lo` is spared
    rw [if_neg]
    · rfl
    · intro hfd
      exact hc.closes waited fd (by omega) hact
  | some act =>
    have hhandle := hc.handle waited fd act hact
    by_cases hfd : fd = h
    · have hlo : lo ≤ h := by
        by_contra hlt
        have hnone := hc.spares waited fd (by omega) (by omega)
        rw [hnone] at hact
        cases hact
      rw [if_pos ⟨hfd, hlo⟩]
      simp [TxFS.closings, hhandle, hfd]
    · rw [if_neg fun hand => hfd hand.1]
      simp [TxFS.closings, hhandle, hfd]

/-- Closing a descriptor frees its handle and no other one. -/
theorem ClosesFrom.handles (hc : ClosesFrom close lo) (waited : Bool) (fd : Int)
    (handles : List (Option Int)) (h : Nat) :
    (closedHandles close waited fd handles)[h]?.getD none =
      if TxFS.closings h (close waited fd).toList = 0 then handles[h]?.getD none else none := by
  unfold closedHandles
  cases hact : close waited fd with
  | none => rfl
  | some act =>
    have hhandle := hc.handle waited fd act hact
    dsimp only
    split
    · -- a negative descriptor is no handle
      have hne : fd ≠ h := by omega
      simp [TxFS.closings, hhandle, hne]
    · by_cases hfd : fd = h
      · subst hfd
        simp [TxFS.closings, hhandle, List.getElem?_set]
        split <;> rfl
      · have hne : fd.toNat ≠ h := by omega
        simp [TxFS.closings, hhandle, hfd, hne]

/-! ## One record -/

/-- What one record of a release does to descriptors. -/
theorem ReleaseSpec.closed (hspec : ReleaseSpec close s a s' rel) :
    ∃ waited, rel = (close waited (s.cell a).fd).toList ∧
      s'.handles = closedHandles close waited (s.cell a).fd s.handles := by
  cases hspec with
  | quiet => exact ⟨false, rfl, rfl⟩
  | unlinked => exact ⟨true, rfl, rfl⟩
  | woken => exact ⟨true, rfl, rfl⟩

theorem ReleaseSpec.handleOwner (hc : ClosesFrom close lo) (hspec : ReleaseSpec close s a s' rel)
    (h : Nat) : s'.handleOwner h = if closings h rel = 0 then s.handleOwner h else none := by
  obtain ⟨waited, rfl, hhandles⟩ := hspec.closed
  unfold Server.handleOwner
  rw [hhandles]
  exact hc.handles waited _ _ h

/-- The other records keep owner and descriptor. -/
theorem ReleaseSpec.others (hspec : ReleaseSpec close s a s' rel) (hnd : s.table.allocated.Nodup) :
    (∀ b, b ∈ s'.table.allocated ↔ b ≠ a ∧ b ∈ s.table.allocated) ∧
      ∀ b ≠ a, (s'.cell b).parentTxn = (s.cell b).parentTxn ∧ (s'.cell b).fd = (s.cell b).fd := by
  obtain ⟨hdel, -⟩ := hspec.frame
  constructor
  · intro b
    rw [hdel.allocated]
    exact hnd.mem_erase_iff
  · intro b hb
    obtain ⟨-, -, hfd, -, hparent, -⟩ := FileLock.content_fields (hdel.content b hb)
    exact ⟨hparent, hfd⟩

/-- The record goes from the count of its descriptor. -/
theorem ReleaseSpec.countFd (hspec : ReleaseSpec close s a s' rel)
    (hnd : s.table.allocated.Nodup) (ha : a ∈ s.ownRecords t) (h : Nat) :
    s.countFd t h = (if (s.cell a).fd = h then 1 else 0) + s'.countFd t h := by
  obtain ⟨hmem, hcells⟩ := hspec.others hnd
  have hnd' : s'.table.allocated.Nodup := by
    obtain ⟨hdel, -⟩ := hspec.frame
    rw [hdel.allocated]
    exact hnd.erase a
  have hgone : a ∉ s'.ownRecords t := by
    intro ha'
    exact ((hmem a).mp (mem_ownRecords.mp ha').1).1 rfl
  have hperm : (s.ownRecords t).Perm (a :: s'.ownRecords t) := by
    apply (List.perm_ext_iff_of_nodup (hnd.filter _) (List.nodup_cons.mpr
      ⟨hgone, hnd'.filter _⟩)).mpr
    intro b
    show b ∈ s.ownRecords t ↔ b ∈ a :: s'.ownRecords t
    rw [List.mem_cons, mem_ownRecords]
    constructor
    · intro hb
      by_cases hba : b = a
      · exact .inl hba
      · right
        rw [mem_ownRecords, hmem, (hcells b hba).1]
        exact ⟨⟨hba, hb.1⟩, hb.2⟩
    · intro hb
      rcases hb with rfl | hb
      · exact mem_ownRecords.mp ha
      · obtain ⟨hb, hbt⟩ := mem_ownRecords.mp hb
        obtain ⟨hba, hb⟩ := (hmem b).mp hb
        rw [(hcells b hba).1] at hbt
        exact ⟨hb, hbt⟩
  have hrest : (s'.ownRecords t).countP (fun b => (s.cell b).fd = h) = s'.countFd t h := by
    apply List.countP_congr
    intro b hb
    have hba : b ≠ a := fun hba => hgone (hba ▸ hb)
    rw [(hcells b hba).2]
  rw [Server.countFd, hperm.countP_eq, List.countP_cons, hrest, Nat.add_comm]
  simp

/-! ## A whole release -/

theorem SameButQueues.fd {bs : List Addr} (hsame : SameButQueues bs s s') (b : Addr) :
    (s'.cell b).fd = (s.cell b).fd := by
  obtain ⟨cells, rfl, hcells⟩ := hsame
  obtain ⟨ws, hb, -⟩ := hcells b
  show (cells b).fd = _
  rw [hb]

theorem SameButQueues.handles {bs : List Addr} (hsame : SameButQueues bs s s') :
    s'.handles = s.handles := by
  obtain ⟨cells, rfl, -⟩ := hsame
  rfl

/-- The count of a descriptor depends on the records, their owners and descriptors. -/
theorem countFd_congr (halloc : s'.table.allocated = s.table.allocated)
    (hcells : ∀ b, (s'.cell b).parentTxn = (s.cell b).parentTxn ∧ (s'.cell b).fd = (s.cell b).fd) :
    s'.countFd x h = s.countFd x h := by
  unfold countFd ownRecords
  rw [halloc]
  simp only [hcells]

/-- Delayed updates close nothing. -/
theorem performWrites_closings (hperform : s.performWrites a = some (s', acts)) (h : Nat) :
    closings h acts = 0 := by
  have hrename : ∀ (s : Server) w s' acts, s.delayedRename a w = some (s', acts) →
      closings h acts = 0 := by
    intro s w s' acts hw
    simp only [delayedRename, Option.bind_eq_bind, Option.bind_eq_some_iff] at hw
    obtain ⟨call, -, hw⟩ := hw
    split at hw
    · simp only [Option.bind_eq_some_iff, Option.some.injEq, Prod.mk.injEq] at hw
      obtain ⟨_, -, _, -, -, rfl⟩ := hw
      rfl
    · simp only [Option.some.injEq, Prod.mk.injEq] at hw
      obtain ⟨-, rfl⟩ := hw
      rfl
  have hone : ∀ (s : Server) w s' acts, s.delayedUpdateOne a w = some (s', acts) →
      closings h acts = 0 := by
    intro s w s' acts hw
    unfold delayedUpdateOne at hw
    split at hw
    · exact hrename s w s' acts hw
    split at hw
    · simp only [delayedCreat, Option.bind_eq_bind, Option.map_eq_some_iff,
        Option.bind_eq_some_iff, Option.some.injEq, Prod.mk.injEq] at hw
      obtain ⟨_, ⟨_, -, rfl⟩, -, rfl⟩ := hw
      split <;> rfl
    split at hw
    · simp only [delayedUnlink, Option.bind_eq_bind, Option.map_eq_some_iff,
        Option.bind_eq_some_iff, Option.some.injEq, Prod.mk.injEq] at hw
      obtain ⟨_, ⟨_, -, rfl⟩, -, rfl⟩ := hw
      rfl
    · simp only [Option.some.injEq, Prod.mk.injEq] at hw
      obtain ⟨-, rfl⟩ := hw
      rfl
  have hloop : ∀ n (s : Server) s' acts, delayedUpdateLoop n s a = some (s', acts) →
      closings h acts = 0 := by
    intro n
    induction n with
    | zero =>
      intro s s' acts hl
      rw [delayedUpdateLoop] at hl
      split at hl
      · cases hl
        rfl
      · cases hl
    | succ n ih =>
      intro s s' acts hl
      rw [delayedUpdateLoop] at hl
      split at hl
      · cases hl
        rfl
      · simp only [Option.bind_eq_bind, Option.bind_eq_some_iff, Option.some.injEq,
          Prod.mk.injEq] at hl
        obtain ⟨⟨s₁, acts₁⟩, h₁, ⟨s₂, acts₂⟩, h₂, -, rfl⟩ := hl
        rw [closings_append, hone _ _ _ _ h₁, ih _ _ _ h₂]
  unfold performWrites at hperform
  split at hperform
  · cases hperform
    rfl
  split at hperform
  · split at hperform
    · exact hloop _ _ _ _ hperform
    · cases hperform
      rw [delayedWrite, closings, List.countP_map, List.countP_eq_zero]
      intro w _
      simp [Act.handle]
  · cases hperform
    rfl

/-- **What a release closes**: one call for each record whose descriptor passes the test. -/
theorem releaseLocks_closings {prepare : Server → Addr → Option (Server × List Act)}
    (hc : ClosesFrom close lo)
    (hprep : ∀ s a r s₁ pre, IsPath (fun b => (s.cell b).nextTxn) (s.cell a).nextTxn r →
      prepare s a = some (s₁, pre) → SameButQueues (a :: r) s s₁ ∧ ∀ h, closings h pre = 0)
    (hs : Owned s.table s.headTxnList) (hrel : releaseLocks prepare close s t = some (s', acts))
    (h : Nat) : closings h acts = (if lo ≤ h then s.countFd t h else 0) ∧
      s'.handleOwner h = if closings h acts = 0 then s.handleOwner h else none := by
  -- calls made so far and records still to come
  let I : Server → List Act → Prop := fun s₁ done =>
    closings h done + (if lo ≤ h then s₁.countFd t h else 0) =
        (if lo ≤ h then s.countFd t h else 0) ∧
      s₁.handleOwner h = if closings h done = 0 then s.handleOwner h else none
  have hI : I s' acts ∧ s'.ownRecords t = [] := by
    refine releaseLocks_each (Q := fun _ _ _ pre => ∀ h, closings h pre = 0) hprep ?_ ?_ hs hrel ?_
    · intro s₁ a r s₂ pre done _ hsame hpre hI
      have hcount : s₂.countFd t h = s₁.countFd t h :=
        countFd_congr hsame.allocated fun b => ⟨hsame.parentTxn b, hsame.fd b⟩
      have howner : s₂.handleOwner h = s₁.handleOwner h := by
        unfold handleOwner
        rw [hsame.handles]
      show closings h (done ++ pre) + _ = _ ∧ _
      rw [closings_append, hpre h, hcount, howner]
      exact hI
    · intro s₁ a s₂ rel done hnd ha hspec hI
      obtain ⟨hcount, howner⟩ := hI
      have hone := hspec.countFd hnd ha h
      have hrelease := hspec.handleOwner hc h
      obtain ⟨waited, hacts, -⟩ := hspec.closed
      have hcalls := hc.closings waited (s₁.cell a).fd h
      rw [← hacts] at hcalls
      show closings h (done ++ rel) + _ = _ ∧ _
      rw [closings_append]
      constructor
      · rw [hone] at hcount
        rw [← hcount, hcalls]
        by_cases hlo : lo ≤ h
        · simp only [hlo, and_true, if_true]
          omega
        · simp only [hlo, and_false, if_false]
      · rw [hrelease, howner]
        by_cases hdone : closings h done = 0
        · simp [hdone]
        · simp [hdone]
    · show 0 + _ = _ ∧ _
      rw [Nat.zero_add]
      exact ⟨rfl, rfl⟩
  obtain ⟨⟨hcount, howner⟩, hempty⟩ := hI
  have hzero : s'.countFd t h = 0 := by
    rw [countFd, hempty]
    rfl
  refine ⟨?_, howner⟩
  rw [hzero, ite_self, Nat.add_zero] at hcount
  exact hcount

end Server

end TxFS
