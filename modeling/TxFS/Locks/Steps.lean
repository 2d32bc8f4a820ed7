import TxFS.Locks.Isolation

/-!
# What a Step Leaves of the Records

`StepFrame` says for every event which lock records survive, which fields they keep, what
becomes of the serialization of their transactions, and where a new record comes from.
Invariants that speak about locks held over many steps use this instead of the branches of
the step function.
-/

namespace TxFS

open LinkedPath

/-! ## Who acts -/

/-- The transaction on whose thread the event happens; the detector has none. -/
def Event.actor : Event → Option Int
  | .begin t | .lock t _ _ | .resume t _ | .wake t | .leaveAsVictim t | .call t _ _ _
  | .commit t | .abort t => some t
  | .releaseByBackup _ | .endBackup => some 0
  | .markVictim .. | .setBackup _ => none

/-- The event releases records of the transaction `x`. -/
def Event.Releases (x : Int) : Event → Prop
  | .commit t | .abort t => t = x
  | .releaseByBackup _ => x = 0
  | _ => False

theorem Event.Releases.actor {x : Int} {e : Event} (h : e.Releases x) : e.actor = some x := by
  cases e with
  | commit t => exact congrArg some h
  | abort t => exact congrArg some h
  | releaseByBackup i =>
    have hx : x = 0 := h
    rw [hx, Event.actor]
  | _ => exact h.elim

namespace Server

variable {s s' s₁ s₂ : Server} {t x readBit : Int} {req : LockRequest} {a : Addr} {e : Event}

/-- The lock request an event makes, with its read bit. -/
def requestOf (s : Server) : Event → Option (Int × LockRequest × Int)
  | .lock t req readBit => some (t, req, readBit)
  | .resume t readBit =>
    match s.thread t with
    | .resuming p => some (t, p.req, readBit)
    | _ => none
  | _ => none

theorem requestOf_actor (h : s.requestOf e = some (t, req, readBit)) : e.actor = some t := by
  cases e with
  | lock u q b =>
    simp only [requestOf, Option.some.injEq, Prod.mk.injEq] at h
    exact congrArg some h.1
  | resume u b =>
    simp only [requestOf] at h
    split at h
    · simp only [Option.some.injEq, Prod.mk.injEq] at h
      exact congrArg some h.1
    · cases h
  | _ => cases h

/-- The branch of `insert_file_list` that does not ask `mutually_serializable`: the file is
    not locked and the backup is inactive. Here the transaction has locked files before. -/
def Unchecked (s : Server) (t : Int) (req : LockRequest) : Prop :=
  s.backup = .inactive ∧ (s.table.searchFileList req.inode).map Prod.fst = some false ∧
    (searchTxn t s.headTxnList).any (fun n => n.fileRecNo ≠ none) = true

instance (s : Server) (t : Int) (req : LockRequest) : Decidable (s.Unchecked t req) :=
  inferInstanceAs (Decidable (_ ∧ _ ∧ _))

/-! ## Records that stay -/

/-- The records of `s'` that `s` had are as they were. -/
def SameRecords (s s' : Server) : Prop :=
  ∀ a ∈ s.table.allocated, a ∈ s'.table.allocated →
    (s'.cell a).fileInode = (s.cell a).fileInode ∧ (s'.cell a).fileMode = (s.cell a).fileMode ∧
      (s'.cell a).parentTxn = (s.cell a).parentTxn

/-- A transaction keeps its place before or after the backup. -/
def SameSerialization (s s' : Server) (x : Int) : Prop :=
  ∀ n, searchTxn x s.headTxnList = some n →
    ∃ n', searchTxn x s'.headTxnList = some n' ∧ n'.beforeAfter = n.beforeAfter

theorem SameSerialization.refl (s : Server) (x : Int) : SameSerialization s s x :=
  fun n hn => ⟨n, hn, rfl⟩

theorem SameSerialization.trans (h : SameSerialization s s₁ x) (h' : SameSerialization s₁ s₂ x) :
    SameSerialization s s₂ x := by
  intro n hn
  obtain ⟨n₁, hn₁, hbit⟩ := h n hn
  obtain ⟨n₂, hn₂, hbit'⟩ := h' n₁ hn₁
  exact ⟨n₂, hn₂, hbit'.trans hbit⟩

theorem SameHeads.serialization (h : SameHeads s.headTxnList s'.headTxnList) (x : Int) :
    SameSerialization s s' x := by
  intro n hn
  have hkey := h.search (t := x)
  rw [hn] at hkey
  obtain ⟨n', hn', hkey⟩ := Option.map_eq_some_iff.mp hkey
  exact ⟨n', hn', congrArg (fun k => k.2.2) hkey⟩

/-- An update of another transaction, or one that keeps the serialization. -/
theorem sameSerialization_updateTxn {f : TxnNode → TxnNode} (hf : ∀ n, (f n).txnId = n.txnId)
    (h : x = t → ∀ n, (f n).beforeAfter = n.beforeAfter)
    (hs' : s'.headTxnList = updateTxn t f s.headTxnList) : SameSerialization s s' x := by
  intro n hn
  rw [hs', searchTxn_updateTxn hf]
  by_cases hx : x = t
  · rw [if_pos hx, ← hx, hn]
    exact ⟨f n, rfl, h hx n⟩
  · rw [if_neg hx]
    exact ⟨n, hn, rfl⟩

/-- Where a new record comes from. Its transaction is serialized by the read bit, unless it
    is the backup or was not checked. -/
structure NewRecord (s : Server) (e : Event) (s' : Server) (a : Addr) (t : Int)
    (req : LockRequest) (readBit : Int) : Prop where
  request : s.requestOf e = some (t, req, readBit)
  eq_brk : a = s.table.brk
  inode : (s'.cell a).fileInode = req.inode
  mode : (s'.cell a).fileMode = if req.flags = 0 then 0 else 1
  parent : (s'.cell a).parentTxn = t
  serialized : (∃ n, searchTxn t s'.headTxnList = some n ∧ n.beforeAfter = readBit) ∨ t = 0 ∨
    s.Unchecked t req

/-- **What a step leaves of the records**. -/
structure StepFrame (s : Server) (e : Event) (s' : Server) : Prop where
  kept : ∀ a ∈ s.table.allocated, ¬ e.Releases (s.cell a).parentTxn → a ∈ s'.table.allocated
  fields : SameRecords s s'
  node : ∀ a ∈ s.table.allocated, ¬ e.Releases (s.cell a).parentTxn →
    SameSerialization s s' (s.cell a).parentTxn
  fresh : ∀ a ∈ s'.table.allocated, a ∉ s.table.allocated →
    ∃ t req readBit, NewRecord s e s' a t req readBit

/-- A step that neither locks nor releases. -/
theorem StepFrame.of_sameLinks (hlinks : s.table.SameLinks s'.table)
    (hnode : ∀ a ∈ s.table.allocated, SameSerialization s s' (s.cell a).parentTxn) :
    StepFrame s e s' where
  kept := fun a ha _ => by rw [hlinks.allocated]; exact ha
  fields := fun a _ _ => by
    obtain ⟨_, _, _, hcell⟩ := hlinks.cells a
    simp only [cell]
    rw [hcell]
    exact ⟨rfl, rfl, rfl⟩
  node := fun a ha _ => hnode a ha
  fresh := fun a ha hnot => absurd (hlinks.allocated ▸ ha) hnot

/-! ## Requests -/

/-- What the insertion of a new record leaves of the others. -/
theorem GrantedIn.stepFrame {table : LockTable} {unlocked : Bool} {loc : Option Addr}
    (hgrant : GrantedIn s t readBit table s')
    (hins : s.table.Inserted table (getFileNode req.inode 0 req.flags t))
    (hadm : Admitted s t readBit unlocked)
    (hsearch : s.table.searchFileList req.inode = some (!unlocked, loc))
    (hs : Owned s.table s.headTxnList) (hreq : s.requestOf e = some (t, req, readBit)) :
    StepFrame s e s' := by
  have hbrk : ∀ a ∈ s.table.allocated, a ≠ s.table.brk := fun a ha heq => hs.brk_notMem (heq ▸ ha)
  obtain ⟨s₁, ⟨pauses, index, ns, rfl, hns⟩, hinsert⟩ := id hgrant
  obtain ⟨n, hn, hcases⟩ := insertSameTxnList_cases hinsert
  obtain ⟨n₀, hn₀, hkey⟩ := hns.search_some hn
  simp only [TxnNode.key, Prod.mk.injEq] at hkey
  -- the serialization of every transaction that owned a record stays
  have hnode : ∀ y, (y = t → n.fileRecNo ≠ none) → SameSerialization s s' y := by
    intro y hy
    have hpause : SameSerialization s { s with headTxnList := ns } y := by
      apply SameHeads.serialization
      exact hns
    apply hpause.trans
    rcases hcases with ⟨hnone, rfl⟩ | ⟨first, last, -, -, rfl⟩
    · apply sameSerialization_updateTxn (t := t) (f := fun n =>
        { n with fileRecNo := some s.table.brk, beforeAfter := readBit }) (fun _ => rfl) _ rfl
      intro hyt
      exact absurd hnone (hy hyt)
    · exact SameSerialization.refl _ y
  obtain ⟨table', ns', _, _, rfl, -, halloc, -, -, hcells⟩ := hgrant.frame
  -- the old records keep their inode, mode and owner
  have hold : ∀ a ≠ s.table.brk, (table'.cells a).fileInode = (s.cell a).fileInode ∧
      (table'.cells a).fileMode = (s.cell a).fileMode ∧
      (table'.cells a).parentTxn = (s.cell a).parentTxn := by
    intro a ha
    obtain ⟨nx, hcell⟩ := hcells a
    obtain ⟨hi, hm, -, -, hp, -⟩ := FileLock.content_fields (hins.content a ha)
    rw [hcell]
    exact ⟨hi, hm, hp⟩
  constructor
  case kept =>
    intro a ha _
    show a ∈ table'.allocated
    rw [halloc, hins.allocated]
    exact List.mem_cons_of_mem _ ha
  case fields =>
    intro a ha _
    exact hold a (hbrk a ha)
  case node =>
    intro a ha _
    apply hnode
    intro hat hnone
    -- a transaction with a record has a first record
    have hnone₀ := (hs.fileRecNo_eq_none_iff (searchTxn_mem hn₀)).mp (hkey.2.1.trans hnone)
    exact hnone₀ a ha (hat.trans (searchTxn_id hn₀).symm)
  case fresh =>
    intro a ha hnot
    -- the only new record is the one of the grant
    have hab : a = s.table.brk := by
      have ha' : a ∈ table'.allocated := ha
      rw [halloc, hins.allocated] at ha'
      exact (List.mem_cons.mp ha').resolve_right hnot
    subst hab
    obtain ⟨nx, hcell⟩ := hcells s.table.brk
    obtain ⟨hi, hm, -, -, hp, -⟩ := FileLock.content_fields hins.new
    refine ⟨t, req, readBit, hreq, rfl, ?_, ?_, ?_, ?_⟩
    · show (table'.cells s.table.brk).fileInode = req.inode
      rw [hcell]
      exact hi
    · show (table'.cells s.table.brk).fileMode = _
      rw [hcell]
      exact hm
    · show (table'.cells s.table.brk).parentTxn = t
      rw [hcell]
      exact hp
    · rcases hcases with ⟨hnone, hs'⟩ | ⟨first, last, hfirst, hlast, hs'⟩
      · -- the first record of the transaction sets its serialization
        left
        refine ⟨{ n with fileRecNo := some s.table.brk, beforeAfter := readBit }, ?_, rfl⟩
        have hlist := congrArg Server.headTxnList hs'
        rw [hlist]
        show searchTxn t (updateTxn t _ ns) = _
        rw [searchTxn_updateTxn (by intro _; rfl), if_pos rfl]
        rw [show searchTxn t ns = some n from hn]
        rfl
      · -- a further record: the serialization is the one that was checked
        have hlist : ns' = ns := congrArg Server.headTxnList hs'
        rcases hadm with ht | ⟨hunlocked, hinactive⟩ | ⟨m, hm, hbit⟩
        · exact .inr (.inl ht)
        · right; right
          refine ⟨hinactive, ?_, ?_⟩
          · rw [hsearch]
            simpa using hunlocked
          · rw [hn₀]
            simp [hkey.2.1, hfirst]
        · left
          refine ⟨n, ?_, ?_⟩
          · show searchTxn t ns' = some n
            rw [hlist]
            exact hn
          · rw [hn₀, Option.some.injEq] at hm
            subst hm
            rcases hbit with hbit | hbit
            · rw [hkey.2.1, hfirst] at hbit
              cases hbit
            · rw [hbit, hkey.2.2]

theorem RequestSpec.stepFrame {found : Bool} {loc : Option Addr} {out : Outcome}
    (h : RequestSpec s req.inode req.flags t readBit loc found s' out)
    (hsearch : s.table.searchFileList req.inode = some (found, loc))
    (hs : Owned s.table s.headTxnList) (hreq : s.requestOf e = some (t, req, readBit)) :
    StepFrame s e s' := by
  have hwaiting : ∀ s' : Server, s'.table = s.table → SameHeads s.headTxnList s'.headTxnList →
      StepFrame s e s' := by
    intro s' htable hns
    apply StepFrame.of_sameLinks
    · rw [htable]
      exact .refl _
    · intro a _
      exact SameHeads.serialization hns _
  cases h with
  | held => exact hwaiting s rfl rfl
  | unlocked hadm hgrant =>
    exact hgrant.stepFrame LockTable.insertUnlocked_inserted hadm hsearch hs hreq
  | shared hloc hown hmode hfl hadm htable hgrant =>
    exact hgrant.stepFrame (LockTable.insertShared_inserted htable) hadm hsearch hs hreq
  | newNode => exact hwaiting _ rfl (sameHeads_updateTxn fun _ => rfl)
  | oldNode => exact hwaiting _ rfl (sameHeads_updateTxn fun _ => rfl)
  | refused hs' hout =>
    obtain ⟨_, _, _, rfl, hns⟩ := hs'
    exact hwaiting _ rfl hns

/-- Changes of descriptors and threads behind a step do not matter. -/
theorem StepFrame.sameLinks (h : StepFrame s e s₁) (hlinks : s₁.table.SameLinks s'.table)
    (hns : s'.headTxnList = s₁.headTxnList) : StepFrame s e s' := by
  have hcell : ∀ a, (s'.cell a).fileInode = (s₁.cell a).fileInode ∧
      (s'.cell a).fileMode = (s₁.cell a).fileMode ∧
      (s'.cell a).parentTxn = (s₁.cell a).parentTxn := by
    intro a
    obtain ⟨_, _, _, hcell⟩ := hlinks.cells a
    simp only [cell]
    rw [hcell]
    exact ⟨rfl, rfl, rfl⟩
  constructor
  case kept =>
    intro a ha hrel
    rw [hlinks.allocated]
    exact h.kept a ha hrel
  case fields =>
    intro a ha ha'
    obtain ⟨hi, hm, hp⟩ := h.fields a ha (hlinks.allocated ▸ ha')
    obtain ⟨hi', hm', hp'⟩ := hcell a
    exact ⟨hi'.trans hi, hm'.trans hm, hp'.trans hp⟩
  case node =>
    intro a ha hrel n hn
    rw [hns]
    exact h.node a ha hrel n hn
  case fresh =>
    intro a ha hnot
    obtain ⟨t, req, readBit, hnew⟩ := h.fresh a (hlinks.allocated ▸ ha) hnot
    obtain ⟨hi', hm', hp'⟩ := hcell a
    exact ⟨t, req, readBit, hnew.request, hnew.eq_brk, hi'.trans hnew.inode, hm'.trans hnew.mode,
      hp'.trans hnew.parent, by rw [hns]; exact hnew.serialized⟩

theorem requestLock_stepFrame {first : Option (Option Addr)}
    (h : s.requestLock t req first readBit = some s') (hs : Owned s.table s.headTxnList)
    (hreq : s.requestOf e = some (t, req, readBit)) : StepFrame s e s' := by
  obtain ⟨_, _, s₁, _, hsearch, hspec, hlinks, hns⟩ := requestLock_frame h
  exact (hspec.stepFrame hsearch hs hreq).sameLinks hlinks hns

/-! ## Releases -/

/-- What a release of records of `t` leaves of those of the others. -/
structure ReleaseFrame (s s' : Server) (t : Int) : Prop where
  kept : ∀ a ∈ s.table.allocated, (s.cell a).parentTxn ≠ t → a ∈ s'.table.allocated
  back : ∀ a ∈ s'.table.allocated, a ∈ s.table.allocated
  fields : SameRecords s s'
  node : ∀ y ≠ t, SameSerialization s s' y

theorem ReleaseFrame.refl (s : Server) (t : Int) : ReleaseFrame s s t where
  kept := fun _ ha _ => ha
  back := fun _ ha => ha
  fields := fun _ _ _ => ⟨rfl, rfl, rfl⟩
  node := fun y _ => SameSerialization.refl s y

/-- One more record is freed. -/
theorem ReleaseFrame.frees {close : Bool → Int → Option Act} {l : List Addr} {acts : List Act}
    (h : ReleaseFrame s s₁ t) (hs : Owned s₁.table s₁.headTxnList)
    (hfree : Frees close s₁ t l a s' acts) : ReleaseFrame s s' t := by
  have hframe := hfree.frame hs
  constructor
  case kept =>
    intro b hb hbt
    have hb₁ := h.kept b hb hbt
    apply (hframe.mem b).mpr
    refine ⟨fun hba => hbt ?_, hb₁⟩
    rw [← (h.fields b hb hb₁).2.2, hba]
    exact hfree.mem.2
  case back =>
    intro b hb
    exact h.back b ((hframe.mem b).mp hb).2
  case fields =>
    intro b hb hb'
    obtain ⟨hba, hb₁⟩ := (hframe.mem b).mp hb'
    obtain ⟨hi, hm, hp⟩ := h.fields b hb hb₁
    obtain ⟨hi', hm', -, -, hp', -⟩ := hframe.fields b hba
    exact ⟨hi'.trans hi, hm'.trans hm, hp'.trans hp⟩
  case node =>
    intro y hy
    apply (h.node y hy).trans
    obtain ⟨n, r, -, -, hrel⟩ := hfree
    obtain ⟨-, table, handles, thread, rfl⟩ := hrel.frame
    obtain ⟨table₁, ns, hunlink, -, -, -, -, rfl⟩ := s₁.unlinkTxnList_frame t l.getLast? a
    rw [hunlink]
    dsimp only
    split
    · exact sameSerialization_updateTxn (t := t)
        (f := fun n => { n with fileRecNo := (s₁.table.cells a).nextTxn }) (fun _ => rfl)
        (fun hyt => absurd hyt hy) rfl
    · exact SameSerialization.refl _ y

theorem releaseLocks_frame {prepare : Server → Addr → Option (Server × List Act)}
    {close : Bool → Int → Option Act} {acts : List Act}
    (hprep : ∀ s a s₁ pre, prepare s a = some (s₁, pre) → SameButData s s₁)
    (hs : Owned s.table s.headTxnList) (h : releaseLocks prepare close s t = some (s', acts)) :
    ReleaseFrame s s' t := by
  refine (releaseLocks_rule (I := fun s₁ _ => Owned s₁.table s₁.headTxnList ∧ ReleaseFrame s s₁ t)
    (Q := fun _ => True) (fun s₁ done hI => hI.1)
    (fun s a s₁ pre hpre => ⟨hprep s a s₁ pre hpre, trivial⟩) ?_ ?_ h
    ⟨hs, ReleaseFrame.refl s t⟩).1.2
  · rintro s₁ s₂ pre done ⟨hown, hframe⟩ ⟨table, rfl, hlinks⟩ -
    refine ⟨hown.sameLinks hlinks (.refl _), ?_, ?_, ?_, hframe.node⟩
    · intro b hb hbt
      show b ∈ table.allocated
      rw [hlinks.allocated]
      exact hframe.kept b hb hbt
    · intro b hb
      exact hframe.back b (hlinks.allocated ▸ hb)
    · intro b hb hb'
      obtain ⟨hi, hm, hp⟩ := hframe.fields b hb (hlinks.allocated ▸ hb')
      obtain ⟨_, _, _, hcell⟩ := hlinks.cells b
      show (table.cells b).fileInode = _ ∧ (table.cells b).fileMode = _ ∧
        (table.cells b).parentTxn = _
      rw [hcell]
      exact ⟨hi, hm, hp⟩
  · rintro s₁ b s₂ acts done ⟨hown, hframe⟩ hfree
    exact ⟨hfree.owned hown, hframe.frees hown hfree⟩

/-- The end of `t` does not concern the others. -/
theorem ReleaseFrame.endTxn {records : Int} (h : ReleaseFrame s s₁ t)
    (hs : Owned s₁.table s₁.headTxnList) (hend : s₁.endTxn t records = some s') :
    ReleaseFrame s s' t := by
  obtain ⟨ns, hns, rfl⟩ := Server.endTxn_spec hend
  refine ⟨h.kept, h.back, h.fields, ?_⟩
  intro y hy
  apply (h.node y hy).trans
  intro n hn
  obtain ⟨m, hm, hperm⟩ := txnDelete_perm hns
  have hmem : n ∈ ns := by
    rcases List.mem_cons.mp (hperm.mem_iff.mp (searchTxn_mem hn)) with rfl | hmem
    · exact absurd ((searchTxn_id hn).symm.trans hm) hy
    · exact hmem
  refine ⟨n, ?_, rfl⟩
  have hnd : (ns.map TxnNode.txnId).Nodup :=
    (List.nodup_cons.mp ((hperm.map TxnNode.txnId).nodup_iff.mp hs.ids)).2
  have hsearch := searchTxn_of_mem hnd hmem
  rwa [searchTxn_id hn] at hsearch

theorem ReleaseFrame.stepFrame (h : ReleaseFrame s s' t)
    (ht : ∀ y, ¬ e.Releases y → y ≠ t) : StepFrame s e s' where
  kept := fun a ha hrel => h.kept a ha (ht _ hrel)
  fields := h.fields
  node := fun _ _ hrel => h.node _ (ht _ hrel)
  fresh := fun a ha hnot => absurd (h.back a ha) hnot

/-! ## Steps -/

/-- **Every step keeps the records it does not release**. -/
theorem step_frame (hs : Owned s.table s.headTxnList) (h : s.step e = some s') :
    StepFrame s e s' := by
  have hquiet := step_quiet h
  cases step_spec h with
  | @begin t hfresh =>
    refine StepFrame.of_sameLinks (.refl _) ?_
    intro a _ n hn
    -- the new transaction has another id than the owner of a record
    have hperm : (newTxnInsert t (intOfLong s.logEnd) s.headTxnList).Perm _ := newTxnInsert_perm
    have hsearch := searchTxn_of_mem (hs.begin hfresh).ids
      (hperm.mem_iff.mpr (List.mem_cons_of_mem _ (searchTxn_mem hn)))
    rw [searchTxn_id hn] at hsearch
    exact ⟨n, hsearch, rfl⟩
  | lock hthread hreq => exact requestLock_stepFrame hreq hs rfl
  | resume hthread hreq =>
    apply requestLock_stepFrame hreq hs
    rw [requestOf, hthread]
  | @commit t s₁ _ acts hthread hrel hend =>
    have hframe := releaseLocks_frame (fun _ _ _ _ => performWrites_sameButData) hs hrel
    have hown := (releaseLocks_owned (fun _ _ _ _ => performWrites_sameButData) hs hrel).1
    apply (hframe.endTxn hown hend).stepFrame
    intro y hy hyt
    exact hy hyt.symm
  | @abort t s₁ _ acts hthread hrel hend =>
    have hframe := releaseLocks_frame (fun _ _ _ _ => discardWrites_sameButData) hs hrel
    have hown := (releaseLocks_owned (fun _ _ _ _ => discardWrites_sameButData) hs hrel).1
    apply (hframe.endTxn hown hend).stepFrame
    intro y hy hyt
    exact hy hyt.symm
  | releaseByBackup hthread hrel =>
    obtain ⟨l, a, hi, hfree⟩ := releaseLocksByBackup_spec hs hrel
    exact ((ReleaseFrame.refl s 0).frees hs hfree).stepFrame fun y hy => hy
  | endBackup hthread hnone hend =>
    have hframe := (ReleaseFrame.refl s 0).endTxn hs hend
    obtain ⟨n, hn, hfirst⟩ := hnone
    obtain ⟨ns, hns, rfl⟩ := Server.endTxn_spec hend
    refine StepFrame.of_sameLinks (.refl _) ?_
    intro a ha
    apply hframe.node
    intro ha0
    -- the backup owns no record any more
    have hnone := (hs.fileRecNo_eq_none_iff (searchTxn_mem hn)).mp hfirst
    exact hnone a ha (ha0.trans (searchTxn_id hn).symm)
  | wake => exact .of_sameLinks hquiet.1 fun a _ => SameHeads.serialization hquiet.2 _
  | leaveAsVictim => exact .of_sameLinks hquiet.1 fun a _ => SameHeads.serialization hquiet.2 _
  | call => exact .of_sameLinks hquiet.1 fun a _ => SameHeads.serialization hquiet.2 _
  | markVictim => exact .of_sameLinks hquiet.1 fun a _ => SameHeads.serialization hquiet.2 _
  | setBackup => exact .of_sameLinks (.refl _) fun a _ => SameSerialization.refl s _

/-! ## Threads -/

/-- The state of a thread without the broadcasts it may have missed. -/
def ThreadState.asleep : ThreadState → ThreadState
  | .parked p node _ => .parked p node false
  | st => st

/-- Threads that differ in missed broadcasts only are parked on the same node. -/
theorem ThreadState.parked_of_asleep {st st' : ThreadState} {p : Pending} {node : Nat} {woken : Bool}
    (h : ThreadState.asleep st' = ThreadState.asleep st) (hst : st' = .parked p node woken) :
    ∃ woken', st = .parked p node woken' := by
  subst hst
  cases st <;> cases h
  exact ⟨_, rfl⟩

/-- The thread stands where it stood, or it was parked and has been woken. -/
inductive ThreadState.WokenFrom (st : ThreadState) : ThreadState → Prop where
  | same : WokenFrom st st
  | woken {p : Pending} {node : Nat} {w : Bool} (h : st = .parked p node w) :
      WokenFrom st (.parked p node true)

namespace ThreadState.WokenFrom

variable {st st' st'' : ThreadState}

theorem trans (h : WokenFrom st st') (h' : WokenFrom st' st'') : WokenFrom st st'' := by
  cases h' with
  | same => exact h
  | woken hst =>
    subst hst
    cases h with
    | same => exact .woken rfl
    | woken hst => exact .woken hst

theorem asleep (h : WokenFrom st st') : ThreadState.asleep st' = ThreadState.asleep st := by
  cases h with
  | same => rfl
  | woken hst =>
    subst hst
    rfl

/-- Whoever still sleeps slept before. -/
theorem slept {p : Pending} {node : Nat} (h : WokenFrom st st') (hst : st' = .parked p node false) :
    st = .parked p node false := by
  cases h with
  | same => exact hst
  | woken => cases hst

end ThreadState.WokenFrom

/-- `wake_up` does not move a thread. -/
theorem wakeUp_wokenFrom (s : Server) (node : Nat) (x : Int) :
    ThreadState.WokenFrom (s.thread x) ((s.wakeUp node).thread x) := by
  simp only [wakeUp]
  cases hst : s.thread x with
  | parked p n w =>
    dsimp only
    cases w with
    | true => exact .same
    | false =>
      rw [Bool.false_or]
      cases decide (n = node) with
      | true => exact .woken rfl
      | false => exact .same
  | running => exact .same
  | resuming p => exact .same
  | victim n => exact .same
  | aborting => exact .same

/-- Whoever sleeps behind a broadcast sleeps on another node. -/
theorem ne_of_wakeUp {node n : Nat} {x : Int} {p : Pending}
    (h : (s.wakeUp node).thread x = .parked p n false) : n ≠ node := by
  simp only [wakeUp] at h
  split at h
  · simp only [ThreadState.parked.injEq, Bool.or_eq_false_iff, decide_eq_false_iff_not] at h
    exact h.2.1 ▸ h.2.2.2
  · rename_i hnot
    exact absurd h (hnot _ _ _)

theorem RequestSpec.thread {i fl : Int} {found : Bool} {loc : Option Addr} {out : Outcome}
    (h : RequestSpec s i fl t readBit loc found s' out) : s'.thread = s.thread := by
  cases h with
  | held => rfl
  | unlocked hadm hgrant =>
    obtain ⟨_, _, _, _, rfl, -⟩ := hgrant.frame
    rfl
  | shared hloc hown hmode hfl hadm htable hgrant =>
    obtain ⟨_, _, _, _, rfl, -⟩ := hgrant.frame
    rfl
  | newNode => rfl
  | oldNode => rfl
  | refused hs' hout =>
    obtain ⟨_, _, _, rfl, -⟩ := hs'
    rfl

theorem requestLock_thread {first : Option (Option Addr)}
    (h : s.requestLock t req first readBit = some s') :
    ∃ st, s'.thread = Function.update s.thread t st := by
  obtain ⟨found, loc, s₁, out, -, hspec, hend⟩ := requestLock_cases h
  rw [← hspec.thread]
  rcases hend with ⟨a, -, rfl⟩ | ⟨node, -, rfl⟩ | ⟨-, rfl⟩ | ⟨-, rfl⟩
  · obtain ⟨table, handles, st, heq, -⟩ := s₁.afterLock_spec t req.use (first.getD loc) a
    rw [heq]
    exact ⟨st, rfl⟩
  · exact ⟨_, rfl⟩
  · exact ⟨_, rfl⟩
  · exact ⟨_, rfl⟩

theorem afterCondWait_thread {p : Pending} {node : Nat} (h : s.afterCondWait t p node = some s') :
    ∃ st, s'.thread = Function.update s.thread t st ∧
      (st = .parked p node false ∨ st = .resuming p ∨ st = .victim node ∨ st = .aborting) := by
  simp only [afterCondWait, Option.bind_eq_bind, Option.bind_eq_some_iff] at h
  obtain ⟨w, -, h⟩ := h
  split at h
  · cases h
    exact ⟨_, rfl, .inl rfl⟩
  split at h
  · cases h
    exact ⟨_, rfl, .inr (.inl rfl)⟩
  split at h
  · cases h
    exact ⟨_, rfl, .inr (.inr (.inr rfl))⟩
  · cases h
    exact ⟨_, rfl, .inr (.inr (.inl rfl))⟩

theorem Frees.wokenFrom {close : Bool → Int → Option Act} {l : List Addr} {acts : List Act}
    (h : Frees close s t l a s' acts) (x : Int) :
    ThreadState.WokenFrom (s.thread x) (s'.thread x) := by
  obtain ⟨n, r, -, -, hrel⟩ := h
  obtain ⟨table, ns, hunlink, -⟩ := s.unlinkTxnList_frame t l.getLast? a
  rw [hunlink] at hrel
  cases hrel with
  | quiet => exact .same
  | unlinked => exact .same
  | woken => exact wakeUp_wokenFrom _ _ x

theorem Frees.thread {close : Bool → Int → Option Act} {l : List Addr} {acts : List Act}
    (h : Frees close s t l a s' acts) (x : Int) :
    ThreadState.asleep (s'.thread x) = ThreadState.asleep (s.thread x) :=
  (h.wokenFrom x).asleep

theorem releaseLocks_wokenFrom {prepare : Server → Addr → Option (Server × List Act)}
    {close : Bool → Int → Option Act} {acts : List Act}
    (hprep : ∀ s a s₁ pre, prepare s a = some (s₁, pre) → SameButData s s₁)
    (hs : Owned s.table s.headTxnList) (h : releaseLocks prepare close s t = some (s', acts))
    (x : Int) : ThreadState.WokenFrom (s.thread x) (s'.thread x) := by
  refine (releaseLocks_rule (I := fun s₁ _ => Owned s₁.table s₁.headTxnList ∧
      ThreadState.WokenFrom (s.thread x) (s₁.thread x))
    (Q := fun _ => True) (fun s₁ done hI => hI.1)
    (fun s a s₁ pre hpre => ⟨hprep s a s₁ pre hpre, trivial⟩) ?_ ?_ h ⟨hs, .same⟩).1.2
  · rintro s₁ s₂ pre done ⟨hown, hthread⟩ ⟨table, rfl, hlinks⟩ -
    exact ⟨hown.sameLinks hlinks (.refl _), hthread⟩
  · rintro s₁ b s₂ acts done ⟨hown, hthread⟩ hfree
    exact ⟨hfree.owned hown, hthread.trans (hfree.wokenFrom x)⟩

theorem endTxn_thread {records : Int} (h : s.endTxn t records = some s') :
    s'.thread = Function.update s.thread t .running := by
  obtain ⟨ns, -, rfl⟩ := endTxn_spec h
  rfl

/-- **A step at most wakes another thread**. -/
theorem step_wokenFrom (hs : Owned s.table s.headTxnList) (h : s.step e = some s')
    (hx : e.actor ≠ some x) : ThreadState.WokenFrom (s.thread x) (s'.thread x) := by
  have hother : ∀ {t : Int} {st : ThreadState} {f : Int → ThreadState}, some t ≠ some x →
      Function.update f t st x = f x := by
    intro t st f htx
    exact Function.update_of_ne (fun hxt => htx (congrArg some hxt.symm)) _ _
  -- the threads are those of `s` but for the acting one
  have hsame : ∀ {t : Int} {st : ThreadState}, some t ≠ some x →
      s'.thread = Function.update s.thread t st →
      ThreadState.WokenFrom (s.thread x) (s'.thread x) := by
    intro t st htx hthread
    rw [hthread, hother htx]
    exact .same
  cases step_spec h with
  | begin hfresh => exact hsame hx rfl
  | lock hthread hreq =>
    obtain ⟨st, hst⟩ := requestLock_thread hreq
    exact hsame hx hst
  | resume hthread hreq =>
    obtain ⟨st, hst⟩ := requestLock_thread hreq
    exact hsame hx hst
  | wake hthread hwake =>
    obtain ⟨st, hst, -⟩ := afterCondWait_thread hwake
    exact hsame hx hst
  | leaveAsVictim hthread hwake =>
    obtain ⟨_, -, rfl⟩ := afterWakeCond_spec hwake
    exact hsame hx rfl
  | call hcall =>
    rw [(logEvent_threads hcall).1]
    exact .same
  | @commit t s₁ _ acts hthread hrel hend =>
    rw [endTxn_thread hend, hother hx]
    exact releaseLocks_wokenFrom (fun _ _ _ _ => performWrites_sameButData) hs hrel x
  | @abort t s₁ _ acts hthread hrel hend =>
    rw [endTxn_thread hend, hother hx]
    exact releaseLocks_wokenFrom (fun _ _ _ _ => discardWrites_sameButData) hs hrel x
  | releaseByBackup hthread hrel =>
    obtain ⟨l, a, -, hfree⟩ := releaseLocksByBackup_spec hs hrel
    exact hfree.wokenFrom x
  | endBackup hthread hnone hend => exact hsame hx (endTxn_thread hend)
  | markVictim hmark =>
    obtain ⟨w, -, rfl⟩ := markVictim_spec hmark
    exact wakeUp_wokenFrom _ _ x
  | setBackup => exact .same

/-- **A step moves no other thread**. -/
theorem step_thread (hs : Owned s.table s.headTxnList) (h : s.step e = some s')
    (hx : e.actor ≠ some x) :
    ThreadState.asleep (s'.thread x) = ThreadState.asleep (s.thread x) :=
  (step_wokenFrom hs h hx).asleep

/-! ## The answer to a request -/

/-- Where the thread of `t` stands after its request `req`: with a record of the file, or
    still with the request. -/
def Answered (s : Server) (t : Int) (req : LockRequest) : Prop :=
  match s.thread t with
  | .running => ∃ a ∈ s.table.allocated, (s.cell a).parentTxn = t ∧ (s.cell a).fileInode = req.inode
  | .parked p _ _ | .resuming p => p.req = req
  | .victim _ | .aborting => True

theorem answered_update {st : ThreadState} (hthread : s'.thread t = st)
    (hst : st = .running → ∃ a ∈ s'.table.allocated,
      (s'.cell a).parentTxn = t ∧ (s'.cell a).fileInode = req.inode)
    (hpending : ∀ p, st = .resuming p ∨ (∃ node woken, st = .parked p node woken) → p.req = req) :
    s'.Answered t req := by
  unfold Answered
  rw [hthread]
  cases st with
  | running => exact hst rfl
  | parked p node woken => exact hpending p (.inr ⟨node, woken, rfl⟩)
  | resuming p => exact hpending p (.inl rfl)
  | victim => trivial
  | aborting => trivial

/-- A thread goes on only with a record of the file it asked for. -/
theorem requestLock_answered {first : Option (Option Addr)} (hs : Consistent s)
    (h : s.requestLock t req first readBit = some s') : s'.Answered t req := by
  obtain ⟨found, loc, s₁, out, hsearch, hspec, hend⟩ := requestLock_cases h
  rcases hend with ⟨a, hout, rfl⟩ | ⟨node, -, rfl⟩ | ⟨-, rfl⟩ | ⟨-, rfl⟩
  · -- the record is in the table behind the request
    have hrecord : ∃ a ∈ s₁.table.allocated,
        (s₁.cell a).parentTxn = t ∧ (s₁.cell a).fileInode = req.inode := by
      have hframe := hspec.stepFrame (e := .lock t req readBit) hsearch hs.owned rfl
      have hnew : s.table.brk ∈ s₁.table.allocated → ∃ a ∈ s₁.table.allocated,
          (s₁.cell a).parentTxn = t ∧ (s₁.cell a).fileInode = req.inode := by
        intro hmem
        obtain ⟨_, _, _, hrec⟩ := hframe.fresh _ hmem hs.owned.brk_notMem
        have hreq := hrec.request
        simp only [requestOf, Option.some.injEq, Prod.mk.injEq] at hreq
        obtain ⟨rfl, rfl, rfl⟩ := hreq
        exact ⟨_, hmem, hrec.parent, hrec.inode⟩
      cases hspec with
      | @held l hloc hown =>
        obtain ⟨xs, hxs⟩ := hs.linked
        obtain ⟨found', loc', hsearch', hsp⟩ := hxs.searchFileList req.inode
        rw [hsearch, Option.some.injEq, Prod.mk.injEq] at hsearch'
        obtain ⟨rfl, rfl⟩ := hsearch'
        cases hsp with
        | found hmem hinode =>
          cases hloc
          exact ⟨l, hxs.mem_iff.mp hmem, hown, hinode⟩
      | unlocked hadm hgrant =>
        apply hnew
        obtain ⟨_, _, _, _, rfl, -, halloc, -⟩ := hgrant.frame
        show _ ∈ LockTable.allocated _
        rw [halloc, LockTable.insertUnlocked_inserted.allocated]
        exact List.mem_cons_self ..
      | shared hloc hown hmode hfl hadm htable hgrant =>
        apply hnew
        obtain ⟨_, _, _, _, rfl, -, halloc, -⟩ := hgrant.frame
        show _ ∈ LockTable.allocated _
        rw [halloc, (LockTable.insertShared_inserted htable).allocated]
        exact List.mem_cons_self ..
      | newNode => rcases hout with hout | hout <;> cases hout
      | oldNode => rcases hout with hout | hout <;> cases hout
      | refused hs' hout' => rcases hout with rfl | rfl <;> rcases hout' with h' | h' <;> cases h'
    obtain ⟨table, handles, st, heq, hlinks, hst⟩ := s₁.afterLock_spec t req.use (first.getD loc) a
    rw [heq]
    apply answered_update (Function.update_self ..)
    · intro _
      obtain ⟨b, hb, hbt, hbi⟩ := hrecord
      exact ⟨b, hlinks.allocated.symm ▸ hb, (hlinks.parentTxn b).trans hbt,
        Eq.trans (hlinks.inode b) hbi⟩
    · rcases hst with rfl | rfl
      · rintro p (hp | ⟨_, _, hp⟩) <;> cases hp
      · rintro p (hp | ⟨_, _, hp⟩) <;> cases hp
  · apply answered_update (Function.update_self ..) (fun hst => by cases hst)
    rintro p (hp | ⟨_, _, hp⟩)
    · cases hp
    · cases hp
      rfl
  · apply answered_update (Function.update_self ..) (fun hst => by cases hst)
    rintro p (hp | ⟨_, _, hp⟩)
    · cases hp
      rfl
    · cases hp
  · apply answered_update (Function.update_self ..) (fun hst => by cases hst)
    rintro p (hp | ⟨_, _, hp⟩) <;> cases hp

/-- Waking up keeps the request. -/
theorem afterCondWait_answered {p : Pending} {node : Nat} {woken : Bool}
    (hthread : s.thread t = .parked p node woken) (h : s.afterCondWait t p node = some s')
    (hs : s.Answered t req) : s'.Answered t req := by
  have hp : p.req = req := by
    unfold Answered at hs
    rw [hthread] at hs
    exact hs
  obtain ⟨st, hst, hcases⟩ := afterCondWait_thread h
  apply answered_update (hst ▸ Function.update_self ..)
  · intro hrun
    rw [hrun] at hcases
    rcases hcases with h' | h' | h' | h' <;> cases h'
  · intro q hq
    rcases hcases with rfl | rfl | rfl | rfl <;> rcases hq with hq | ⟨_, _, hq⟩ <;> cases hq <;>
      exact hp

/-- A step of the others keeps the answer. -/
theorem Answered.frame (h : s.Answered t req)
    (hthread : ThreadState.asleep (s'.thread t) = ThreadState.asleep (s.thread t))
    (hframe : ∀ a ∈ s.table.allocated, (s.cell a).parentTxn = t → a ∈ s'.table.allocated ∧
      (s'.cell a).parentTxn = t ∧ (s'.cell a).fileInode = (s.cell a).fileInode) :
    s'.Answered t req := by
  apply answered_update rfl
  · intro hrun
    rw [hrun] at hthread
    have hrun' : s.thread t = .running := by
      cases hst : s.thread t <;> rw [hst] at hthread <;> first | rfl | cases hthread
    unfold Answered at h
    rw [hrun'] at h
    obtain ⟨a, ha, hat, hinode⟩ := h
    obtain ⟨ha', hat', hinode'⟩ := hframe a ha hat
    exact ⟨a, ha', hat', hinode'.trans hinode⟩
  · intro p hp
    unfold Answered at h
    rcases hp with hp | ⟨node, woken, hp⟩
    · rw [hp] at hthread
      cases hst : s.thread t <;> rw [hst] at hthread h <;> cases hthread
      exact h
    · rw [hp] at hthread
      cases hst : s.thread t <;> rw [hst] at hthread h <;> cases hthread
      exact h

end Server

end TxFS
