import TxFS.Descriptors.Handles
import TxFS.Locks.LockList

/-!
# Who Closes Which Handle

A descriptor above 0 is the handle of exactly one record, as long as no request overwrites
it. Then a release closes the handles of its own transaction and no others. Handle 0 is not
told apart from the placeholder 0: a commit never closes it, an abort closes it once for each
placeholder, whoever has opened it.
-/

namespace TxFS

open LinkedPath GuardedRun

/-- `online_bck` keeps descriptors of the host file system in its records. -/
def LockUse.isHost : LockUse → Bool
  | .host _ => true
  | .open _ | .placeholder | .renameParent | .keep => false

namespace Server

variable {s s' s₁ : Server} {t : Int} {a : Addr} {acts : List Act} {h : Nat} {use : LockUse}
  {loc : Option Addr}

/-! ## What a request does to descriptors -/

/-- The caller of `insert_file_list` assigns to `fd` of the record `a`. -/
def SetsFd (s : Server) (use : LockUse) (loc : Option Addr) (a : Addr) : Prop :=
  match use with
  | .open found => found = true ∧ none ∈ s.handles
  | .placeholder | .host _ => True
  | .renameParent => some a ≠ loc
  | .keep => False

instance (s : Server) (use : LockUse) (loc : Option Addr) (a : Addr) :
    Decidable (s.SetsFd use loc a) :=
  match use with
  | .open found => inferInstanceAs (Decidable (found = true ∧ none ∈ s.handles))
  | .placeholder | .host _ => inferInstanceAs (Decidable True)
  | .renameParent => inferInstanceAs (Decidable (some a ≠ loc))
  | .keep => inferInstanceAs (Decidable False)

/-- The effect of the caller on descriptors and handles. -/
inductive FdSpec (s : Server) (t : Int) (use : LockUse) (loc : Option Addr) (a : Addr)
    (s' : Server) : Prop where
  /-- Descriptors stay. -/
  | same (hhandles : s'.handles = s.handles) (hfd : ∀ b, (s'.cell b).fd = (s.cell b).fd)
  /-- The placeholder 0, or a descriptor of the host. -/
  | set (hsets : s.SetsFd use loc a) (hhandles : s'.handles = s.handles)
      (hfd : ∀ b ≠ a, (s'.cell b).fd = (s.cell b).fd)
      (hzero : use.isHost = false → (s'.cell a).fd = 0)
  /-- A free handle. -/
  | opened {i : Nat} (hsets : s.SetsFd use loc a) (hfree : s.handles[i]? = some none)
      (hhandles : s'.handles = s.handles.set i (some t))
      (hfd : ∀ b ≠ a, (s'.cell b).fd = (s.cell b).fd) (hopen : (s'.cell a).fd = i)

/-- The lowest free handle is free. -/
theorem trFileOpen_cases (s : Server) (t : Int) (found : Bool) :
    s.trFileOpen t found = (s, -1) ∨ ∃ i : Nat, found = true ∧ s.handles[i]? = some none ∧
      s.trFileOpen t found = ({ s with handles := s.handles.set i (some t) }, (i : Int)) := by
  unfold trFileOpen
  cases found with
  | false => exact .inl rfl
  | true =>
    cases hidx : s.handles.findIdx? Option.isNone with
    | none => exact .inl rfl
    | some i =>
      refine .inr ⟨i, rfl, ?_, rfl⟩
      obtain ⟨hi, hnone, -⟩ := List.findIdx?_eq_some_iff_getElem.mp hidx
      rw [List.getElem?_eq_getElem hi, Option.isNone_iff_eq_none.mp hnone]

/-- An assignment to the descriptor of the record `a` and of no other one. -/
theorem fd_modify (s s' : Server) (fd : FileLock → Int)
    (htable : s'.table = s.table.modify a fun c => { c with fd := fd c, fileOffset := 0 }) :
    (∀ b ≠ a, (s'.cell b).fd = (s.cell b).fd) ∧ (s'.cell a).fd = fd (s.cell a) := by
  constructor
  · intro b hb
    rw [cell, htable, LockTable.modify_cells_of_ne hb]
    rfl
  · rw [cell, htable, LockTable.modify_cells_self]
    rfl

theorem afterLock_fd (s : Server) (t : Int) (use : LockUse) (loc : Option Addr) (a : Addr) :
    FdSpec s t use loc a (s.afterLock t use loc a) := by
  cases use with
  | «open» found =>
    rcases s.trFileOpen_cases t found with hfail | ⟨i, hfound, hfree, hopen⟩
    · -- `open` failed: the transaction goes to its abort
      simp only [afterLock, hfail]
      exact .same rfl fun b => rfl
    · have hne : (i : Int) ≠ -1 := by omega
      simp only [afterLock, hopen]
      rw [if_neg hne]
      refine .opened ⟨hfound, List.mem_of_getElem? hfree⟩ hfree rfl ?_ ?_
      · exact (fd_modify s _ (fun _ => i) rfl).1
      · exact (fd_modify s _ (fun _ => i) rfl).2
  | placeholder =>
    have hfd := fd_modify s (s.afterLock t .placeholder loc a) (fun _ => 0) rfl
    exact .set trivial rfl hfd.1 fun _ => hfd.2
  | renameParent =>
    simp only [afterLock]
    split
    · rename_i hne
      refine .set hne rfl ?_ fun _ => ?_
      · exact (fd_modify s _ (fun _ => 0) rfl).1
      · exact (fd_modify s _ (fun _ => 0) rfl).2
    · exact .same rfl fun b => rfl
  | keep => exact .same rfl fun b => rfl
  | host fd =>
    have hfd := fd_modify s (s.afterLock t (.host fd) loc a) (fun c => fd.getD c.fd) rfl
    refine .set trivial rfl hfd.1 ?_
    intro h
    cases h

/-! ## The invariant -/

/-- **Every handle above 0 of a user transaction is in exactly one record**, its owner's. -/
structure HandlesHeld (s : Server) : Prop where
  real : ∀ a ∈ s.table.allocated, (s.cell a).parentTxn ≠ 0 → ∀ h : Nat, 0 < h →
    (s.cell a).fd = h → s.handleOwner h = some (s.cell a).parentTxn
  holder : ∀ h : Nat, 0 < h → ∀ u ≠ 0, s.handleOwner h = some u →
    ∃ a ∈ s.table.allocated, (s.cell a).parentTxn = u ∧ (s.cell a).fd = h
  unique : ∀ a ∈ s.table.allocated, ∀ b ∈ s.table.allocated, (s.cell a).parentTxn ≠ 0 →
    (s.cell b).parentTxn ≠ 0 → 0 < (s.cell a).fd → (s.cell a).fd = (s.cell b).fd → a = b

theorem handlesHeld_globalInit {handles : Nat} : HandlesHeld (globalInit handles) := by
  constructor
  · intro a ha
    exact absurd ha (by simp [globalInit])
  · intro h _ u _ howner
    -- all handles are free
    have hfree : ((List.replicate handles (none : Option Int))[h]?).getD none = none := by
      rw [List.getElem?_replicate]
      split <;> rfl
    cases hfree.symm.trans howner
  · intro a ha
    exact absurd ha (by simp [globalInit])

/-- Records, owners, descriptors and handles stay. -/
theorem HandlesHeld.congr (hs : HandlesHeld s) (halloc : s'.table.allocated = s.table.allocated)
    (hparent : ∀ b, (s'.cell b).parentTxn = (s.cell b).parentTxn)
    (hfd : ∀ b, (s'.cell b).fd = (s.cell b).fd) (hhandles : s'.handles = s.handles) :
    HandlesHeld s' := by
  have howner : ∀ h, s'.handleOwner h = s.handleOwner h := by
    intro h
    unfold handleOwner
    rw [hhandles]
  constructor
  case real =>
    intro a ha hp h hh hfda
    rw [halloc] at ha
    rw [hparent] at hp ⊢
    rw [hfd] at hfda
    rw [howner]
    exact hs.real a ha hp h hh hfda
  case holder =>
    intro h hh u hu hown
    rw [howner] at hown
    obtain ⟨a, ha, hp, hfda⟩ := hs.holder h hh u hu hown
    exact ⟨a, halloc ▸ ha, (hparent a).trans hp, (hfd a).trans hfda⟩
  case unique =>
    intro a ha b hb hpa hpb hpos heq
    rw [halloc] at ha hb
    rw [hparent] at hpa hpb
    rw [hfd] at hpos
    rw [hfd, hfd] at heq
    exact hs.unique a ha b hb hpa hpb hpos heq

/-- A new record starts with the descriptor -1. -/
theorem HandlesHeld.grow (hs : HandlesHeld s) (hown : Owned s.table s.headTxnList)
    (halloc : s'.table.allocated = s.table.brk :: s.table.allocated)
    (hparent : ∀ b ≠ s.table.brk, (s'.cell b).parentTxn = (s.cell b).parentTxn)
    (hfd : ∀ b ≠ s.table.brk, (s'.cell b).fd = (s.cell b).fd)
    (hnew : (s'.cell s.table.brk).fd = -1) (hhandles : s'.handles = s.handles) :
    HandlesHeld s' := by
  have howner : ∀ h, s'.handleOwner h = s.handleOwner h := by
    intro h
    unfold handleOwner
    rw [hhandles]
  have hne : ∀ b ∈ s.table.allocated, b ≠ s.table.brk := fun b hb heq => hown.brk_notMem (heq ▸ hb)
  -- a record with a descriptor above 0 is an old one
  have hold : ∀ b ∈ s'.table.allocated, 0 < (s'.cell b).fd → b ∈ s.table.allocated := by
    intro b hb hpos
    rw [halloc] at hb
    rcases List.mem_cons.mp hb with rfl | hb
    · omega
    · exact hb
  constructor
  case real =>
    intro a ha hp h hh hfda
    have ha' := hold a ha (by omega)
    rw [hparent a (hne a ha')] at hp ⊢
    rw [hfd a (hne a ha')] at hfda
    rw [howner]
    exact hs.real a ha' hp h hh hfda
  case holder =>
    intro h hh u hu hu'
    rw [howner] at hu'
    obtain ⟨a, ha, hp, hfda⟩ := hs.holder h hh u hu hu'
    have hane := hne a ha
    exact ⟨a, halloc ▸ List.mem_cons_of_mem _ ha, (hparent a hane).trans hp, (hfd a hane).trans hfda⟩
  case unique =>
    intro a ha b hb hpa hpb hpos heq
    have ha' := hold a ha hpos
    have hb' := hold b hb (heq ▸ hpos)
    rw [hparent a (hne a ha')] at hpa
    rw [hparent b (hne b hb')] at hpb
    rw [hfd a (hne a ha')] at hpos heq
    rw [hfd b (hne b hb')] at heq
    exact hs.unique a ha' b hb' hpa hpb hpos heq

/-- A record whose descriptor is no handle may get another one. -/
theorem HandlesHeld.assign (hs : HandlesHeld s) (hspec : FdSpec s t use loc a s')
    (halloc : s'.table.allocated = s.table.allocated) (ha : a ∈ s.table.allocated)
    (hparent : ∀ b, (s'.cell b).parentTxn = (s.cell b).parentTxn) (hat : (s.cell a).parentTxn = t)
    (huse : t ≠ 0 → use.isHost = false)
    (hkeep : t ≠ 0 → s.SetsFd use loc a → (s.cell a).fd ≤ 0) : HandlesHeld s' := by
  cases hspec with
  | same hhandles hfd => exact hs.congr halloc hparent hfd hhandles
  | set hsets hhandles hfd hzero =>
    -- no handle is opened, so every handle keeps its owner
    have howner : ∀ h, s'.handleOwner h = s.handleOwner h := by
      intro h
      unfold handleOwner
      rw [hhandles]
    -- a user's record with a descriptor above 0 is not `a`
    have hne : ∀ b, (s.cell b).parentTxn ≠ 0 → 0 < (s'.cell b).fd → b ≠ a := by
      intro b hb hpos hba
      subst hba
      rw [hat] at hb
      rw [hzero (huse hb)] at hpos
      omega
    constructor
    case real =>
      intro b hb hp h hh hfdb
      rw [halloc] at hb
      rw [hparent] at hp ⊢
      rw [hfd b (hne b hp (by omega))] at hfdb
      rw [howner]
      exact hs.real b hb hp h hh hfdb
    case holder =>
      intro h hh u hu hown
      rw [howner] at hown
      obtain ⟨b, hb, hp, hfdb⟩ := hs.holder h hh u hu hown
      -- `a` had no descriptor above 0 when its descriptor was set
      have hba : b ≠ a := by
        intro hba
        subst hba
        have hle := hkeep (by rw [← hat, hp]; exact hu) hsets
        omega
      exact ⟨b, halloc ▸ hb, (hparent b).trans hp, (hfd b hba).trans hfdb⟩
    case unique =>
      intro b hb c hc hpb hpc hpos heq
      rw [halloc] at hb hc
      rw [hparent] at hpb hpc
      have hba := hne b hpb hpos
      have hca := hne c hpc (heq ▸ hpos)
      rw [hfd b hba] at hpos heq
      rw [hfd c hca] at heq
      exact hs.unique b hb c hc hpb hpc hpos heq
  | @opened i hsets hfree hhandles hfd hopen =>
    have hi : i < s.handles.length := (List.getElem?_eq_some_iff.mp hfree).1
    -- `i` is the handle that is opened for `t`; the others keep their owners
    have howner_i : s'.handleOwner i = some t := by
      unfold handleOwner
      rw [hhandles, List.getElem?_set_self hi]
      rfl
    have howner : ∀ h, h ≠ i → s'.handleOwner h = s.handleOwner h := by
      intro h hhi
      unfold handleOwner
      rw [hhandles, List.getElem?_set_ne (Ne.symm hhi)]
    have hfree' : s.handleOwner i = none := by
      unfold handleOwner
      rw [hfree]
      rfl
    -- nobody has the free handle in a record
    have hnobody : ∀ b ∈ s.table.allocated, (s.cell b).parentTxn ≠ 0 → 0 < i →
        (s.cell b).fd ≠ i := by
      intro b hb hp hpos hfdb
      have hreal := hs.real b hb hp i hpos hfdb
      rw [hfree'] at hreal
      cases hreal
    constructor
    case real =>
      intro b hb hp h hh hfdb
      rw [halloc] at hb
      rw [hparent] at hp ⊢
      by_cases hba : b = a
      · subst hba
        rw [hopen] at hfdb
        have hhi : h = i := by omega
        rw [hhi, howner_i, hat]
      · rw [hfd b hba] at hfdb
        have hhi : h ≠ i := by
          intro hhi
          subst hhi
          exact hnobody b hb hp hh hfdb
        rw [howner h hhi]
        exact hs.real b hb hp h hh hfdb
    case holder =>
      intro h hh u hu hown
      by_cases hhi : h = i
      · subst hhi
        rw [howner_i] at hown
        cases hown
        -- the new handle is in the record `a`
        exact ⟨a, halloc ▸ ha, (hparent a).trans hat, hopen⟩
      · rw [howner h hhi] at hown
        obtain ⟨b, hb, hp, hfdb⟩ := hs.holder h hh u hu hown
        have hba : b ≠ a := by
          intro hba
          subst hba
          have hle := hkeep (by rw [← hat, hp]; exact hu) hsets
          omega
        exact ⟨b, halloc ▸ hb, (hparent b).trans hp, (hfd b hba).trans hfdb⟩
    case unique =>
      intro b hb c hc hpb hpc hpos heq
      rw [halloc] at hb hc
      rw [hparent] at hpb hpc
      by_cases hba : b = a
      · by_cases hca : c = a
        · rw [hba, hca]
        · -- `c` would have the free handle
          rw [hba, hopen] at hpos
          rw [hba, hopen, hfd c hca] at heq
          exact absurd heq.symm (hnobody c hc hpc (by omega))
      · rw [hfd b hba] at hpos heq
        by_cases hca : c = a
        · rw [hca, hopen] at heq
          rw [heq] at hpos
          -- and here `b` would
          exact absurd heq (hnobody b hb hpb (by omega))
        · rw [hfd c hca] at heq
          exact hs.unique b hb c hc hpb hpc hpos heq

/-- The record `a` is freed; its handle is freed with it if a user transaction had it. -/
theorem HandlesHeld.shrink (hs : HandlesHeld s)
    (hmem : ∀ b, b ∈ s'.table.allocated ↔ b ≠ a ∧ b ∈ s.table.allocated)
    (hcells : ∀ b ≠ a, (s'.cell b).parentTxn = (s.cell b).parentTxn ∧
      (s'.cell b).fd = (s.cell b).fd) (ha : a ∈ s.table.allocated)
    (howner : ∀ h : Nat, 0 < h → (s'.handleOwner h = s.handleOwner h ∧
        ((s.cell a).parentTxn = 0 ∨ (s.cell a).fd ≠ h)) ∨
      (s'.handleOwner h = none ∧ (s.cell a).parentTxn ≠ 0 ∧ (s.cell a).fd = h)) :
    HandlesHeld s' := by
  constructor
  case real =>
    intro b hb hp h hh hfdb
    obtain ⟨hba, hb⟩ := (hmem b).mp hb
    obtain ⟨hparent, hfd⟩ := hcells b hba
    rw [hparent] at hp ⊢
    rw [hfd] at hfdb
    rcases howner h hh with ⟨hsame, -⟩ | ⟨-, hpa, hfda⟩
    · rw [hsame]
      exact hs.real b hb hp h hh hfdb
    · exact absurd (hs.unique b hb a ha hp hpa (by omega) (hfdb.trans hfda.symm)) hba
  case holder =>
    intro h hh u hu hown
    rcases howner h hh with ⟨hsame, hnot⟩ | ⟨hnone, -⟩
    · rw [hsame] at hown
      obtain ⟨b, hb, hp, hfdb⟩ := hs.holder h hh u hu hown
      have hba : b ≠ a := by
        intro hba
        subst hba
        rcases hnot with hzero | hne
        · exact hu (hp.symm.trans hzero)
        · exact hne hfdb
      obtain ⟨hparent, hfd⟩ := hcells b hba
      exact ⟨b, (hmem b).mpr ⟨hba, hb⟩, hparent.trans hp, hfd.trans hfdb⟩
    · rw [hnone] at hown
      cases hown
  case unique =>
    intro b hb c hc hpb hpc hpos heq
    obtain ⟨hba, hb⟩ := (hmem b).mp hb
    obtain ⟨hca, hc⟩ := (hmem c).mp hc
    rw [(hcells b hba).1] at hpb
    rw [(hcells c hca).1] at hpc
    rw [(hcells b hba).2] at hpos heq
    rw [(hcells c hca).2] at heq
    exact hs.unique b hb c hc hpb hpc hpos heq

/-! ## Steps -/

/-- The record that `search_file_list` finds. -/
def foundRecord (s : Server) (fInode : Int) : Option Addr :=
  match s.table.searchFileList fInode with
  | some (true, loc) => loc
  | _ => none

/-- A request of a user transaction for a record it holds leaves a descriptor above 0. -/
def KeepsHandle (s : Server) (t : Int) (req : LockRequest) (first : Option (Option Addr)) : Prop :=
  t ≠ 0 → req.use.isHost = false ∧ ∀ l ∈ s.foundRecord req.inode,
    (s.cell l).parentTxn = t → s.SetsFd req.use (first.getD (some l)) l → (s.cell l).fd ≤ 0

instance (s : Server) (t : Int) (req : LockRequest) (first : Option (Option Addr)) :
    Decidable (s.KeepsHandle t req first) :=
  inferInstanceAs (Decidable (_ → _))

/-- The steps that keep handles and descriptors together. -/
def HandlesSafe (s : Server) : Event → Prop
  | .lock t req _ => s.KeepsHandle t req none
  | .resume t _ =>
    match s.thread t with
    | .resuming p => s.KeepsHandle t p.req (some p.loc)
    | _ => True
  | .commit t => t ≠ 0 ∧ s.handleOwner 0 ≠ some t
  | .abort t => t ≠ 0 ∧ ∀ u ∈ s.handleOwner 0, s.countFd t 0 = if u = t then 1 else 0
  | _ => True

instance (s : Server) (e : Event) : Decidable (s.HandlesSafe e) :=
  match e with
  | .lock t req _ => inferInstanceAs (Decidable (s.KeepsHandle t req none))
  | .resume t _ =>
    match h : s.thread t with
    | .resuming p => decidable_of_iff (s.KeepsHandle t p.req (some p.loc)) (by simp [HandlesSafe, h])
    | .running | .parked .. | .victim _ | .aborting => isTrue (by simp [HandlesSafe, h])
  | .commit t => inferInstanceAs (Decidable (t ≠ 0 ∧ s.handleOwner 0 ≠ some t))
  | .abort t => inferInstanceAs (Decidable (t ≠ 0 ∧
      ∀ u ∈ s.handleOwner 0, s.countFd t 0 = if u = t then 1 else 0))
  | .begin _ | .wake _ | .leaveAsVictim _ | .call .. | .releaseByBackup _ | .endBackup
  | .markVictim .. | .setBackup _ => inferInstanceAs (Decidable True)

/-- The new record of a granted request starts with the descriptor -1, the others keep
    theirs. -/
theorem GrantedIn.fds {readBit i fl : Int} {table : LockTable}
    (hgrant : GrantedIn s t readBit table s')
    (hins : s.table.Inserted table (getFileNode i 0 fl t)) :
    s'.table.allocated = s.table.brk :: s.table.allocated ∧
      (∀ b ≠ s.table.brk, (s'.cell b).parentTxn = (s.cell b).parentTxn ∧
        (s'.cell b).fd = (s.cell b).fd) ∧
      (s'.cell s.table.brk).parentTxn = t ∧ (s'.cell s.table.brk).fd = -1 ∧
      s'.handles = s.handles := by
  obtain ⟨table', _, _, _, rfl, -, halloc, -, -, hcells⟩ := hgrant.frame
  refine ⟨halloc.trans hins.allocated, ?_, ?_, ?_, rfl⟩
  · intro b hb
    obtain ⟨nx, hcell⟩ := hcells b
    obtain ⟨-, -, hfd, -, hparent, -⟩ := FileLock.content_fields (hins.content b hb)
    show (table'.cells b).parentTxn = _ ∧ (table'.cells b).fd = _
    rw [hcell]
    exact ⟨hparent, hfd⟩
  · obtain ⟨nx, hcell⟩ := hcells s.table.brk
    obtain ⟨-, -, -, -, hparent, -⟩ := FileLock.content_fields hins.new
    show (table'.cells _).parentTxn = t
    rw [hcell]
    exact hparent
  · obtain ⟨nx, hcell⟩ := hcells s.table.brk
    obtain ⟨-, -, hfd, -⟩ := FileLock.content_fields hins.new
    show (table'.cells _).fd = -1
    rw [hcell]
    exact hfd

theorem GrantedIn.handlesHeld {readBit i fl : Int} {table : LockTable}
    (hgrant : GrantedIn s t readBit table s')
    (hins : s.table.Inserted table (getFileNode i 0 fl t)) (hs : HandlesHeld s)
    (hown : Owned s.table s.headTxnList) : HandlesHeld s' ∧ s.table.brk ∈ s'.table.allocated ∧
      (s'.cell s.table.brk).parentTxn = t ∧ (s'.cell s.table.brk).fd = -1 := by
  obtain ⟨halloc, hother, hparent, hfd, hhandles⟩ := hgrant.fds hins
  refine ⟨?_, halloc ▸ List.mem_cons_self .., hparent, hfd⟩
  apply hs.grow hown halloc
  · intro b hb
    exact (hother b hb).1
  · intro b hb
    exact (hother b hb).2
  · exact hfd
  · exact hhandles

/-- **A lock request keeps handles and descriptors together**. -/
theorem requestLock_handlesHeld {req : LockRequest} {first : Option (Option Addr)} {readBit : Int}
    (hs : HandlesHeld s) (hown : Owned s.table s.headTxnList) (hlist : HasLockList s)
    (hok : s.KeepsHandle t req first) (hreq : s.requestLock t req first readBit = some s') : HandlesHeld s' := by
  obtain ⟨found, loc, s₁, out, hsearch, hspec, hend⟩ := requestLock_cases hreq
  -- the record that the request returns
  have hs₁ : HandlesHeld s₁ ∧ ∀ a, (out = .granted a ∨ out = .held a) →
      a ∈ s₁.table.allocated ∧ (s₁.cell a).parentTxn = t ∧
        (t ≠ 0 → s₁.SetsFd req.use (first.getD loc) a → (s₁.cell a).fd ≤ 0) := by
    have hnew : ∀ table, s.table.Inserted table (getFileNode req.inode 0 req.flags t) →
        GrantedIn s t readBit table s₁ → out = .granted s.table.brk → HandlesHeld s₁ ∧
        ∀ a, (out = .granted a ∨ out = .held a) → a ∈ s₁.table.allocated ∧
          (s₁.cell a).parentTxn = t ∧
            (t ≠ 0 → s₁.SetsFd req.use (first.getD loc) a → (s₁.cell a).fd ≤ 0) := by
      intro table hins hgrant hout
      obtain ⟨hs₁, hmem, hparent, hfd⟩ := hgrant.handlesHeld hins hs hown
      refine ⟨hs₁, ?_⟩
      intro a ha
      have hbrk : a = s.table.brk := by
        rw [hout] at ha
        rcases ha with ha | ha
        · cases ha
          rfl
        · cases ha
      subst hbrk
      refine ⟨hmem, hparent, fun _ _ => ?_⟩
      rw [hfd]
      omega
    cases hspec with
    | @held l hloc hparent =>
      refine ⟨hs, ?_⟩
      intro a ha
      have hal : a = l := by
        rcases ha with ha | ha
        · cases ha
        · cases ha
          rfl
      subst hal hloc
      have hfound : s.foundRecord req.inode = some a := by
        rw [foundRecord, hsearch]
      exact ⟨hlist.search_mem hsearch, hparent, fun ht hsets => (hok ht).2 a hfound hparent hsets⟩
    | unlocked hadm hgrant => exact hnew _ LockTable.insertUnlocked_inserted hgrant rfl
    | shared hloc howner hmode hfl hadm htable hgrant =>
      exact hnew _ (LockTable.insertShared_inserted htable) hgrant rfl
    | newNode =>
      refine ⟨hs.congr rfl (fun _ => rfl) (fun _ => rfl) rfl, ?_⟩
      intro a ha
      rcases ha with ha | ha <;> cases ha
    | oldNode =>
      refine ⟨hs.congr rfl (fun _ => rfl) (fun _ => rfl) rfl, ?_⟩
      intro a ha
      rcases ha with ha | ha <;> cases ha
    | refused hs' hout =>
      obtain ⟨_, _, _, rfl, -⟩ := hs'
      refine ⟨hs.congr rfl (fun _ => rfl) (fun _ => rfl) rfl, ?_⟩
      intro a ha
      rcases hout with rfl | rfl <;> rcases ha with ha | ha <;> cases ha
  obtain ⟨hheld, hrecord⟩ := hs₁
  rcases hend with ⟨a, hout, rfl⟩ | ⟨node, -, rfl⟩ | ⟨-, rfl⟩ | ⟨-, rfl⟩
  · obtain ⟨hmem, hparent, hkeep⟩ := hrecord a hout
    obtain ⟨halloc, hcells⟩ := s₁.afterLock_cells t req.use (first.getD loc) a
    apply hheld.assign (s₁.afterLock_fd t req.use (first.getD loc) a) halloc hmem _ hparent
      (fun ht => (hok ht).1) hkeep
    intro b
    obtain ⟨_, _, hcell⟩ := hcells b
    rw [hcell]
  · exact hheld.congr rfl (fun _ => rfl) (fun _ => rfl) rfl
  · exact hheld.congr rfl (fun _ => rfl) (fun _ => rfl) rfl
  · exact hheld.congr rfl (fun _ => rfl) (fun _ => rfl) rfl

/-- **A release keeps handles and descriptors together**: it closes the handles of `t`. -/
theorem releaseLocks_handlesHeld {prepare : Server → Addr → Option (Server × List Act)}
    {close : Bool → Int → Option Act} {lo : Nat} (hc : ClosesFrom close lo) (hlo : lo ≤ 1)
    (hprep : ∀ s a r s₁ pre, IsPath (fun b => (s.cell b).nextTxn) (s.cell a).nextTxn r →
      prepare s a = some (s₁, pre) → SameButQueues (a :: r) s s₁)
    (hs : HandlesHeld s) (hown : Owned s.table s.headTxnList) (ht : t ≠ 0)
    (hrel : releaseLocks prepare close s t = some (s', acts)) : HandlesHeld s' := by
  refine (releaseLocks_each (I := fun s₁ _ => HandlesHeld s₁) (Q := fun _ _ _ _ => True)
    (fun s a r s₁ pre hr hpre => ⟨hprep s a r s₁ pre hr hpre, trivial⟩) ?_ ?_ hown hrel
    (hs.congr rfl (fun _ => rfl) (fun _ => rfl) rfl)).1
  · intro s₁ a r s₂ pre done _ hsame _ hs₁
    exact hs₁.congr hsame.allocated hsame.parentTxn hsame.fd hsame.handles
  · intro s₁ a s₂ rel done hnd ha hspec hs₁
    obtain ⟨hmem, hcells⟩ := hspec.others hnd
    obtain ⟨ha, hat⟩ := mem_ownRecords.mp ha
    have hparent : (s₁.cell a).parentTxn ≠ 0 := by
      rw [hat]
      exact ht
    apply hs₁.shrink hmem hcells ha
    intro h hh
    have howner := hspec.handleOwner hc h
    obtain ⟨waited, hacts, -⟩ := hspec.closed
    have hcalls := hc.closings waited (s₁.cell a).fd h
    rw [← hacts] at hcalls
    by_cases hfd : (s₁.cell a).fd = h
    · right
      have hone : closings h rel = 1 := hcalls.trans (if_pos ⟨hfd, by omega⟩)
      rw [hone] at howner
      exact ⟨howner, hparent, hfd⟩
    · left
      have hnone : closings h rel = 0 := hcalls.trans (if_neg fun hand => hfd hand.1)
      rw [hnone] at howner
      exact ⟨howner, .inr hfd⟩

/-- The backup closes nothing. -/
theorem Frees.handlesHeld {l : List Addr} (hfree : Frees closeByBackup s 0 l a s' acts)
    (hs : HandlesHeld s) (hown : Owned s.table s.headTxnList) : HandlesHeld s' := by
  have ha := hfree.mem
  obtain ⟨n, r, -, -, hspec⟩ := hfree
  obtain ⟨table, ns, hunlink, halloc, -, -, hcells, -⟩ := s.unlinkTxnList_frame 0 l.getLast? a
  rw [hunlink] at hspec
  have hs₁ : HandlesHeld { s with table := table, headTxnList := ns } := by
    apply hs.congr halloc
    · intro b
      show (table.cells b).parentTxn = _
      rw [hcells]
      rfl
    · intro b
      show (table.cells b).fd = _
      rw [hcells]
      rfl
    · rfl
  obtain ⟨hmem, hkept⟩ := hspec.others (halloc ▸ hown.nodup)
  obtain ⟨waited, -, hhandles⟩ := hspec.closed
  apply hs₁.shrink hmem hkept (halloc ▸ ha.1)
  intro h _
  refine .inl ⟨?_, .inl ?_⟩
  · unfold handleOwner
    rw [hhandles]
    rfl
  · show (table.cells a).parentTxn = 0
    rw [hcells]
    exact ha.2

/-- Descriptors and handles are not touched outside of requests and releases. -/
theorem afterCondWait_handles {p : Pending} {node : Nat}
    (h : s.afterCondWait t p node = some s') : s'.handles = s.handles := by
  simp only [afterCondWait, Option.bind_eq_bind, Option.bind_eq_some_iff] at h
  obtain ⟨w, -, h⟩ := h
  split at h
  · cases h
    rfl
  split at h
  · cases h
    rfl
  split at h <;> cases h <;> rfl

theorem logEvent_handles {c : NsCall} {pos : Addr} {newPos : Option Addr}
    (h : s.logEvent t c pos newPos = some s') : s'.handles = s.handles := by
  unfold logEvent at h
  split at h
  · cases c with
    | rename oldpath newpath =>
      cases h
      cases newPos <;> rfl
    | creat path mode =>
      cases h
      rfl
    | unlink path =>
      cases h
      rfl
  · cases h

theorem endTxn_handles {records : Int} (h : s.endTxn t records = some s') :
    s'.handles = s.handles := by
  obtain ⟨ns, -, rfl⟩ := endTxn_spec h
  rfl

theorem HandlesHeld.of_table (hs : HandlesHeld s) (htable : s'.table = s.table)
    (hhandles : s'.handles = s.handles) : HandlesHeld s' := by
  apply hs.congr
  · rw [htable]
  · intro b
    rw [cell, htable]
    rfl
  · intro b
    rw [cell, htable]
    rfl
  · exact hhandles

/-- What the delayed updates keep, with the fact that they close nothing. -/
theorem performWrites_prepares (s : Server) (a : Addr) (r : List Addr) (s₁ : Server)
    (pre : List Act) (hr : IsPath (fun b => (s.cell b).nextTxn) (s.cell a).nextTxn r)
    (h : s.performWrites a = some (s₁, pre)) :
    SameButQueues (a :: r) s s₁ ∧ ∀ h, closings h pre = 0 :=
  ⟨performWrites_queues hr h, performWrites_closings h⟩

theorem discardWrites_prepares (s : Server) (a : Addr) (r : List Addr) (s₁ : Server)
    (pre : List Act) (_ : IsPath (fun b => (s.cell b).nextTxn) (s.cell a).nextTxn r)
    (h : s.discardWrites a = some (s₁, pre)) :
    SameButQueues (a :: r) s s₁ ∧ ∀ h, closings h pre = 0 := by
  refine ⟨discardWrites_queues h, ?_⟩
  cases h
  intro h
  rfl

/-- **Every safe step keeps handles and descriptors together**. -/
theorem handlesHeld_step {e : Event} (hs : HandlesHeld s) (hown : Owned s.table s.headTxnList)
    (hlist : HasLockList s) (hok : s.HandlesSafe e) (hstep : s.step e = some s') :
    HandlesHeld s' := by
  cases step_spec hstep with
  | begin => exact hs.of_table rfl rfl
  | lock hthread hreq => exact requestLock_handlesHeld hs hown hlist hok hreq
  | @resume t readBit p _ hthread hreq =>
    have hok' : s.KeepsHandle t p.req (some p.loc) := by
      simpa only [HandlesSafe, hthread] using hok
    exact requestLock_handlesHeld hs hown hlist hok' hreq
  | wake hthread hwake =>
    exact hs.of_table (afterCondWait_frame hwake).1 (afterCondWait_handles hwake)
  | leaveAsVictim hthread hwake =>
    obtain ⟨_, -, rfl⟩ := afterWakeCond_spec hwake
    exact hs.of_table rfl rfl
  | call hcall =>
    obtain ⟨-, -, -, halloc, hcells⟩ := logEvent_spec hcall
    apply hs.congr halloc
    · intro b
      rw [hcells]
    · intro b
      rw [hcells]
    · exact logEvent_handles hcall
  | commit hthread hrel hend =>
    have hs₁ := releaseLocks_handlesHeld closesFrom_success (Nat.le_refl 1)
      (fun s a r s₁ pre hr h => (performWrites_prepares s a r s₁ pre hr h).1) hs hown hok.1 hrel
    exact hs₁.of_table (endTxn_table hend) (endTxn_handles hend)
  | abort hthread hrel hend =>
    have hs₁ := releaseLocks_handlesHeld closesFrom_abort (Nat.zero_le 1)
      (fun s a r s₁ pre hr h => (discardWrites_prepares s a r s₁ pre hr h).1) hs hown hok.1 hrel
    exact hs₁.of_table (endTxn_table hend) (endTxn_handles hend)
  | releaseByBackup hthread hrel =>
    obtain ⟨l, a, -, hfree⟩ := releaseLocksByBackup_spec hown hrel
    exact hfree.handlesHeld hs hown
  | endBackup hthread hnone hend =>
    exact hs.of_table (endTxn_table hend) (endTxn_handles hend)
  | markVictim hmark =>
    obtain ⟨w, -, rfl⟩ := markVictim_spec hmark
    exact hs.of_table rfl rfl
  | setBackup => exact hs.of_table rfl rfl

/-- **Handles and descriptors belong together in every safe run**. -/
theorem handlesHeld_of_reachable {handles : Nat}
    (h : ReachableUnder (globalInit handles) step HandlesSafe s) : HandlesHeld s :=
  h.invariant handlesHeld_globalInit fun _ _ _ hr hs hok hstep =>
    handlesHeld_step hs (owned_of_reachable hr) (hasLockList_of_reachable hr) hok hstep

/-! ## Commits and aborts -/

/-- The release of `t` closes the handles that `t` has opened, each with one call, and makes
    no call for a handle of another transaction. -/
def ClosesOwn (s s' : Server) (t : Int) (acts : List Act) : Prop :=
  ∀ h u, s.handleOwner h = some u → closings h acts = (if u = t then 1 else 0) ∧
    s'.handleOwner h = if u = t then none else some u

/-- Exactly one record has the descriptor of an open handle of `t`. -/
theorem HandlesHeld.countFd (hs : HandlesHeld s) (hown : Owned s.table s.headTxnList)
    (ht : t ≠ 0) (hh : 0 < h) {u : Int} (howner : s.handleOwner h = some u) :
    s.countFd t h = if u = t then 1 else 0 := by
  -- a record of `t` with this descriptor makes `t` the owner
  have hreal : ∀ a ∈ s.ownRecords t, (s.cell a).fd = h → u = t := by
    intro a ha hfd
    obtain ⟨ha, hat⟩ := mem_ownRecords.mp ha
    have howner' := hs.real a ha (by rw [hat]; exact ht) h hh hfd
    rw [howner, hat] at howner'
    exact Option.some.inj howner'
  split
  · rename_i hut
    subst hut
    obtain ⟨a, ha, hat, hfd⟩ := hs.holder h hh u ht howner
    have hmem : a ∈ s.ownRecords u := mem_ownRecords.mpr ⟨ha, hat⟩
    have hnd : (s.ownRecords u).Nodup := hown.nodup.filter _
    have hcount : s.countFd u h = (s.ownRecords u).countP fun b => b == a := by
      apply List.countP_congr
      intro b hb
      obtain ⟨hb, hbt⟩ := mem_ownRecords.mp hb
      rw [decide_eq_true_eq, beq_iff_eq]
      constructor
      · intro hfdb
        exact hs.unique b hb a ha (by rw [hbt]; exact ht) (by rw [hat]; exact ht) (by omega)
          (hfdb.trans hfd.symm)
      · intro hba
        rw [hba]
        exact hfd
    rw [hcount]
    exact List.count_eq_one_of_mem hnd hmem
  · rename_i hut
    rw [Server.countFd, List.countP_eq_zero]
    intro a ha hfd
    exact hut (hreal a ha (of_decide_eq_true hfd))

theorem closesOwn_of_release {prepare : Server → Addr → Option (Server × List Act)}
    {close : Bool → Int → Option Act} {lo : Nat} {records : Int} {s₁ : Server}
    (hc : ClosesFrom close lo) (hlo : lo ≤ 1)
    (hprep : ∀ s a r s₁ pre, IsPath (fun b => (s.cell b).nextTxn) (s.cell a).nextTxn r →
      prepare s a = some (s₁, pre) → SameButQueues (a :: r) s s₁ ∧ ∀ h, closings h pre = 0)
    (hs : HandlesHeld s) (hown : Owned s.table s.headTxnList) (ht : t ≠ 0)
    (hzero : ∀ u ∈ s.handleOwner 0, (if lo = 0 then s.countFd t 0 else 0) = if u = t then 1 else 0)
    (hrel : releaseLocks prepare close s t = some (s₁, acts))
    (hend : s₁.endTxn t records = some s') : ClosesOwn s s' t acts := by
  intro h u howner
  obtain ⟨hcalls, hafter⟩ := releaseLocks_closings hc hprep hown hrel h
  have hcount : closings h acts = if u = t then 1 else 0 := by
    rw [hcalls]
    by_cases hh : h = 0
    · subst hh
      simpa only [Nat.le_zero] using hzero u howner
    · rw [if_pos (by omega)]
      exact hs.countFd hown ht (by omega) howner
  refine ⟨hcount, ?_⟩
  have hhandles : s'.handleOwner h = s₁.handleOwner h := by
    unfold handleOwner
    rw [endTxn_handles hend]
  rw [hhandles, hafter, hcount, howner]
  split <;> rfl

/-- **Descriptor ownership**: in a safe run a commit and an abort close exactly the handles
    of their own transaction. -/
theorem release_closes_own {handles : Nat}
    (h : ReachableUnder (globalInit handles) step HandlesSafe s) :
    (∀ s' acts, s.HandlesSafe (.commit t) → s.onTxnCommit t = some (s', acts) →
      ClosesOwn s s' t acts) ∧
    ∀ s' acts, s.HandlesSafe (.abort t) → s.onTxnAbort t = some (s', acts) →
      ClosesOwn s s' t acts := by
  have hheld := handlesHeld_of_reachable h
  have hown := owned_of_reachable h
  constructor
  · intro s' acts hok hcommit
    obtain ⟨ht, hzero⟩ := hok
    simp only [onTxnCommit, Option.bind_eq_bind, Option.bind_eq_some_iff, Option.some.injEq,
      Prod.mk.injEq] at hcommit
    obtain ⟨⟨s₁, _⟩, hrel, s₂, hend, rfl, rfl⟩ := hcommit
    refine closesOwn_of_release closesFrom_success (Nat.le_refl 1) performWrites_prepares hheld
      hown ht ?_ hrel hend
    intro u hu
    -- a commit closes handle 0 for nobody
    have hut : u ≠ t := fun hut => hzero (hut ▸ hu)
    rw [if_neg hut]
    rfl
  · intro s' acts hok habort
    obtain ⟨ht, hzero⟩ := hok
    simp only [onTxnAbort, Option.bind_eq_bind, Option.bind_eq_some_iff, Option.some.injEq,
      Prod.mk.injEq] at habort
    obtain ⟨⟨s₁, _⟩, hrel, s₂, hend, rfl, rfl⟩ := habort
    exact closesOwn_of_release closesFrom_abort (Nat.zero_le 1) discardWrites_prepares hheld
      hown ht hzero hrel hend

/-- Handle 0 belongs to 1 and handle 1 to 2, which has a placeholder as well. -/
theorem release_closes_own_two_handles :
    ∃ s, ReachableUnder (globalInit 3) step HandlesSafe s ∧ s.handleOwner 0 = some 1 ∧
      s.handleOwner 1 = some 2 ∧
      (∃ s' acts, s.onTxnCommit 2 = some (s', acts) ∧ ClosesOwn s s' 2 acts) ∧
      ∃ s' acts, s.onTxnAbort 1 = some (s', acts) ∧ ClosesOwn s s' 1 acts := by
  obtain ⟨s, hs, h0, h1, hcommit, habort, hok, hok'⟩ :=
    exists_of_runUnder (globalInit 3) step HandlesSafe
      (fun s => s.handleOwner 0 = some 1 ∧ s.handleOwner 1 = some 2 ∧
        (s.onTxnCommit 2).isSome ∧ (s.onTxnAbort 1).isSome ∧ s.HandlesSafe (.commit 2) ∧
        s.HandlesSafe (.abort 1))
      [.begin 1, .begin 2, .lock 1 ⟨7, 2, .open true⟩ 0, .lock 2 ⟨8, 2, .open true⟩ 0,
        .lock 2 ⟨9, 0, .placeholder⟩ 0] (by decide)
  obtain ⟨⟨s₁, acts₁⟩, hcommit⟩ := Option.isSome_iff_exists.mp hcommit
  obtain ⟨⟨s₂, acts₂⟩, habort⟩ := Option.isSome_iff_exists.mp habort
  exact ⟨s, hs, h0, h1, ⟨s₁, acts₁, hcommit, (release_closes_own hs).1 s₁ acts₁ hok hcommit⟩,
    s₂, acts₂, habort, (release_closes_own hs).2 s₂ acts₂ hok' habort⟩

/-- A commit leaves handle 0 open, an abort closes the handle 0 of another transaction, and
    a record that is locked again loses its handle. -/
theorem release_closes_others :
    (∃ s, Reachable (globalInit 2) step s ∧ ∃ r, s.onTxnCommit 1 = some r ∧
      s.handleOwner 0 = some 1 ∧ closings 0 r.2 = 0) ∧
    (∃ s, Reachable (globalInit 2) step s ∧ ∃ r, s.onTxnAbort 2 = some r ∧
      s.handleOwner 0 = some 1 ∧ closings 0 r.2 = 1) ∧
    ∃ s, Reachable (globalInit 2) step s ∧ ∃ r, s.onTxnCommit 2 = some r ∧
      s.handleOwner 1 = some 2 ∧ closings 1 r.2 = 0 := by
  have hrun : ∀ (p : Server → Server × List Act → Prop) [∀ s r, Decidable (p s r)] (t : Int)
      (release : Server → Int → Option (Server × List Act)) (es : List Event),
      (run step (globalInit 2) es).any (fun s => (release s t).any fun r => p s r) = true →
      ∃ s, Reachable (globalInit 2) step s ∧ ∃ r, release s t = some r ∧ p s r := by
    intro p _ t release es h
    obtain ⟨s, hs, hr⟩ := (Option.any_eq_true ..).mp h
    obtain ⟨r, hr, hp⟩ := (Option.any_eq_true ..).mp hr
    exact ⟨s, reachableUnder_of_run .init hs, r, hr, of_decide_eq_true hp⟩
  refine ⟨?_, ?_, ?_⟩
  · exact hrun (fun s r => s.handleOwner 0 = some 1 ∧ closings 0 r.2 = 0) 1 onTxnCommit
      [.begin 1, .lock 1 ⟨7, 2, .open true⟩ 0] (by decide)
  · exact hrun (fun s r => s.handleOwner 0 = some 1 ∧ closings 0 r.2 = 1) 2 onTxnAbort
      [.begin 1, .begin 2, .lock 1 ⟨7, 2, .open true⟩ 0, .lock 2 ⟨8, 0, .placeholder⟩ 0] (by decide)
  · exact hrun (fun s r => s.handleOwner 1 = some 2 ∧ closings 1 r.2 = 0) 2 onTxnCommit
      [.begin 1, .begin 2, .lock 1 ⟨7, 2, .open true⟩ 0, .lock 2 ⟨8, 2, .open true⟩ 0,
        .lock 2 ⟨8, 2, .placeholder⟩ 0] (by decide)

end Server

end TxFS
