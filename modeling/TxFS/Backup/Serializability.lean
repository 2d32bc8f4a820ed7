import TxFS.Backup.Online

/-!
# Serializability with the Backup

The serialization bit of a transaction is the read bit of its first file. If every request
reads the mark of its file, then a transaction with bit 1 locks copied files only, and one
with bit 0 locks files that stay uncopied as long as it holds them, because the backup needs
an exclusive lock to copy a file. In the source the statements that compute the read bit are
commented out, and then nothing connects the bit with the marks.
-/

namespace TxFS

open GuardedRun

/-! ## What the history says about the server -/

/-- The lock of `f` is still held, and it is on the side of the backup on which its
    transaction is serialized. -/
def LockFact.HoldsIn (f : LockFact) (s : Server) (copied : List Int) : Prop :=
  f.txnId ≠ 0 ∧
    (∃ a ∈ s.table.allocated, (s.cell a).parentTxn = f.txnId ∧ (s.cell a).fileInode = f.inode) ∧
    ∃ n, searchTxn f.txnId s.headTxnList = some n ∧
      ((f.wasCopied = true ∧ n.beforeAfter = 1) ∨
        (f.wasCopied = false ∧ n.beforeAfter = 0 ∧ f.inode ∉ copied))

/-- **The server part of the invariant**: a consistent table, the history of locks, and
    exclusive locks for the backup. -/
structure Guarded (s : Server) (copied : List Int) (locks : List LockFact) : Prop where
  consistent : s.Consistent
  locks : ∀ f ∈ locks, f.HoldsIn s copied
  exclusive : ∀ a ∈ s.table.allocated, (s.cell a).parentTxn = 0 → (s.cell a).fileMode = 1

section

variable {s s' : Server} {e : Event} {copied : List Int} {locks : List LockFact} {f : LockFact}
  {a : Addr} {inode : Int}

/-- Only the end of its transaction ends a lock. -/
theorem LockFact.HoldsIn.step (h : f.HoldsIn s copied) (hframe : s.StepFrame e s')
    (hrel : ¬ e.Releases f.txnId) : f.HoldsIn s' copied := by
  obtain ⟨htxn, ⟨a, ha, hat, hinode⟩, n, hn, hside⟩ := h
  rw [← hat] at hrel
  have ha' := hframe.kept a ha hrel
  obtain ⟨hi, -, hp⟩ := hframe.fields a ha ha'
  obtain ⟨n', hn', hbit⟩ := hframe.node a ha hrel n (by rw [hat]; exact hn)
  refine ⟨htxn, ⟨a, ha', hp.trans hat, hi.trans hinode⟩, n', by rw [← hat]; exact hn', ?_⟩
  rw [hbit]
  exact hside

/-- The backup stays exclusive as long as it asks for exclusive locks. -/
theorem exclusive_step
    (h : ∀ a ∈ s.table.allocated, (s.cell a).parentTxn = 0 → (s.cell a).fileMode = 1)
    (hframe : s.StepFrame e s')
    (hreq : ∀ req readBit, s.requestOf e = some (0, req, readBit) → req.flags ≠ 0) :
    ∀ a ∈ s'.table.allocated, (s'.cell a).parentTxn = 0 → (s'.cell a).fileMode = 1 := by
  intro a ha ha0
  by_cases hold : a ∈ s.table.allocated
  · obtain ⟨-, hm, hp⟩ := hframe.fields a hold ha
    exact hm.trans (h a hold (hp.symm.trans ha0))
  · obtain ⟨t, req, readBit, hnew⟩ := hframe.fresh a ha hold
    have ht : t = 0 := hnew.parent.symm.trans ha0
    subst ht
    rw [hnew.mode, if_neg (hreq req readBit hnew.request)]

/-- The file of an exclusive record has no other record. -/
theorem Guarded.record_unique (h : Guarded s copied locks) {b : Addr}
    (ha : a ∈ s.table.allocated) (hb : b ∈ s.table.allocated) (ha0 : (s.cell a).parentTxn = 0)
    (hinode : (s.cell b).fileInode = (s.cell a).fileInode) : b = a := by
  exact h.consistent.exclusive_alone ha hb (h.exclusive a ha ha0) hinode

/-- The releases of the backup are always clean. -/
theorem Guarded.unlinksNothing (h : Guarded s copied locks) (ha : a ∈ s.table.allocated)
    (ha0 : (s.cell a).parentTxn = 0) : s.UnlinksNothing a := by
  intro _
  obtain ⟨xs, hxs⟩ := h.consistent.linked
  apply hxs.alone_of_exclusive (hxs.mem_iff.mpr ha)
  have hmode := h.exclusive a ha ha0
  intro hzero
  exact absurd (hmode.symm.trans hzero) (by decide)

/-- **A step of the backup in the lock manager** keeps the server part. -/
theorem Guarded.backupStep (h : Guarded s copied locks) (hstep : s.step e = some s')
    (hactor : ∀ t ≠ 0, e.actor ≠ some t)
    (hreq : ∀ req readBit, s.requestOf e = some (0, req, readBit) → req.flags ≠ 0) :
    Guarded s' copied locks := by
  have hframe := Server.step_frame h.consistent.owned hstep
  have hclean : s.CleanRelease e := by
    cases e with
    | commit t =>
      intro a ha hat
      apply h.unlinksNothing ha
      by_contra h0
      exact hactor _ h0 (congrArg some hat.symm)
    | abort t =>
      intro a ha hat
      apply h.unlinksNothing ha
      by_contra h0
      exact hactor _ h0 (congrArg some hat.symm)
    | releaseByBackup i =>
      intro a ha ha0 _
      exact h.unlinksNothing ha ha0
    | _ => trivial
  constructor
  · exact Server.consistent_step h.consistent hclean hstep
  · intro f hf
    have hold := h.locks f hf
    apply hold.step hframe
    intro hrel
    exact hactor _ hold.1 hrel.actor
  · exact exclusive_step h.exclusive hframe hreq

/-- The backup copies a file it has locked: the locks of the others are on other files. -/
theorem Guarded.copy (h : Guarded s copied locks) (ha : a ∈ s.table.allocated)
    (ha0 : (s.cell a).parentTxn = 0) (hinode : (s.cell a).fileInode = inode) :
    Guarded s (inode :: copied) locks := by
  refine ⟨h.consistent, ?_, h.exclusive⟩
  intro f hf
  obtain ⟨htxn, ⟨b, hb, hbt, hbi⟩, n, hn, hside⟩ := h.locks f hf
  refine ⟨htxn, ⟨b, hb, hbt, hbi⟩, n, hn, ?_⟩
  rcases hside with hside | ⟨hwas, hbit, hnot⟩
  · exact .inl hside
  · refine .inr ⟨hwas, hbit, ?_⟩
    rw [List.mem_cons, not_or]
    refine ⟨fun heq => htxn ?_, hnot⟩
    have hba := h.record_unique ha hb ha0 (by rw [hbi, hinode, heq])
    rw [← hbt, hba, ha0]

end

/-! ## The invariant -/

namespace BackupRun

variable {r r' : BackupRun} {e : Event} {s' : Server} {inode : Int}

/-- The mark of the file says whether it has been copied. -/
def Marked (r : BackupRun) (inode : Int) : Prop :=
  (r.mark inode = 1 ∧ inode ∈ r.copied) ∨ (r.mark inode = 0 ∧ inode ∉ r.copied)

/-- **The invariant**: the marks agree with the copied files, except for the file between
    `copy_file` and `mark_as_read`, which the backup has locked. -/
structure InStep (r : BackupRun) : Prop where
  guarded : Guarded r.server r.copied r.locks
  marks : ∀ i, (r.phase = .copied → i ≠ r.pathBuf.stIno) → r.Marked i
  fresh : r.phase = .statted ∨ r.phase = .locking → r.pathBuf.stIno ∉ r.copied
  sticky : r.phase = .statted ∨ r.phase = .locking ∨ r.phase = .copied → r.pathBuf.sticky = 0
  answered : r.phase = .locking →
    ∃ req, req.inode = r.pathBuf.stIno ∧ req.flags = 1 ∧ r.server.Answered 0 req
  holds : r.phase = .copied → r.pathBuf.stIno ∈ r.copied ∧
    ∃ a ∈ r.server.table.allocated,
      (r.server.cell a).parentTxn = 0 ∧ (r.server.cell a).fileInode = r.pathBuf.stIno

theorem inStep_init {handles : Nat} : InStep (init handles) where
  guarded :=
    { consistent := Server.consistent_globalInit
      locks := fun f hf => absurd hf (by simp [init])
      exclusive := fun a ha => absurd ha (by simp [init, Server.globalInit]) }
  marks := fun i _ => .inr ⟨rfl, by simp [init]⟩
  fresh := fun h => by rcases h with h | h <;> cases h
  sticky := fun h => by rcases h with h | h | h <;> cases h
  answered := fun h => by cases h
  holds := fun h => by cases h

/-! ## Steps of the users -/

/-- A user event is not one of the backup's thread. -/
theorem actor_ne_of_isUser (h : e.IsUser) : e.actor ≠ some 0 := by
  cases e with
  | setBackup b => exact h.elim
  | _ => exact h

/-- Where a lock of the new history comes from. -/
theorem mem_grants (huser : e.IsUser) {f : LockFact} (hf : f ∈ r.grants e s') :
    (f ∈ r.locks ∧ ¬ e.Releases f.txnId) ∨
      (r.server.table.brk ∈ s'.table.allocated ∧
        f = ⟨(s'.cell r.server.table.brk).parentTxn, (s'.cell r.server.table.brk).fileInode,
          (s'.cell r.server.table.brk).fileInode ∈ r.copied⟩) := by
  have hgrant : ¬ (∃ x, e.Releases x) → (f ∈ r.grants e s' → f ∈ if r.server.table.brk ∈
      s'.table.allocated then ⟨(s'.cell r.server.table.brk).parentTxn,
        (s'.cell r.server.table.brk).fileInode,
        (s'.cell r.server.table.brk).fileInode ∈ r.copied⟩ :: r.locks else r.locks) →
      (f ∈ r.locks ∧ ¬ e.Releases f.txnId) ∨ (r.server.table.brk ∈ s'.table.allocated ∧
        f = ⟨(s'.cell r.server.table.brk).parentTxn, (s'.cell r.server.table.brk).fileInode,
          (s'.cell r.server.table.brk).fileInode ∈ r.copied⟩) := by
    intro hrel hmem
    have hmem := hmem hf
    split at hmem
    · rename_i hnew
      rcases List.mem_cons.mp hmem with heq | hold
      · exact .inr ⟨hnew, heq⟩
      · exact .inl ⟨hold, fun hx => hrel ⟨_, hx⟩⟩
    · exact .inl ⟨hmem, fun hx => hrel ⟨_, hx⟩⟩
  cases e with
  | commit t =>
    obtain ⟨hold, hne⟩ := List.mem_filter.mp hf
    exact .inl ⟨hold, fun hx => (of_decide_eq_true hne) (Eq.symm hx)⟩
  | abort t =>
    obtain ⟨hold, hne⟩ := List.mem_filter.mp hf
    exact .inl ⟨hold, fun hx => (of_decide_eq_true hne) (Eq.symm hx)⟩
  | releaseByBackup i => exact absurd rfl (actor_ne_of_isUser huser)
  | _ => exact hgrant (fun ⟨_, hx⟩ => hx) id

/-- **A new lock is on the right side**: its transaction is serialized by the mark of the
    file, and the mark says whether the file has been copied. -/
theorem InStep.newLock (h : InStep r) (huser : e.IsUser) (hclean : r.server.CleanRelease e)
    (hread : r.ReadsMark e) (hstep : r.server.step e = some s')
    (hnew : r.server.table.brk ∈ s'.table.allocated) :
    LockFact.HoldsIn ⟨(s'.cell r.server.table.brk).parentTxn,
      (s'.cell r.server.table.brk).fileInode,
      (s'.cell r.server.table.brk).fileInode ∈ r.copied⟩ s' r.copied := by
  have hown := h.guarded.consistent.owned
  have hframe := Server.step_frame hown hstep
  have hs' := Server.consistent_step h.guarded.consistent hclean hstep
  obtain ⟨t, req, readBit, hrec⟩ := hframe.fresh _ hnew hown.brk_notMem
  have ht : t ≠ 0 := by
    intro ht
    exact actor_ne_of_isUser huser (ht ▸ Server.requestOf_actor hrec.request)
  rw [hrec.parent, hrec.inode]
  simp only [ReadsMark, hrec.request] at hread
  -- the file is not the one the backup is copying
  have hmarked : r.Marked req.inode := by
    apply h.marks
    intro hphase heq
    obtain ⟨-, b, hb, hb0, hbi⟩ := h.holds hphase
    have hb' : b ∈ s'.table.allocated := by
      apply hframe.kept b hb
      intro hrel
      rw [hb0] at hrel
      exact actor_ne_of_isUser huser hrel.actor
    obtain ⟨hi, hm, hp⟩ := hframe.fields b hb hb'
    have hone := hm.trans (h.guarded.exclusive b hb hb0)
    have hinode : (s'.cell r.server.table.brk).fileInode = (s'.cell b).fileInode := by
      rw [hi, hbi, hrec.inode, heq]
    have hsame := hs'.exclusive_alone hb' hnew hone hinode
    exact hown.brk_notMem (hsame ▸ hb)
  -- the transaction is serialized by the mark
  have hserialized : ∃ n, searchTxn t s'.headTxnList = some n ∧
      n.beforeAfter = r.mark req.inode := by
    rcases hrec.serialized with ⟨n, hn, hbit⟩ | h0 | hunchecked
    · exact ⟨n, hn, hbit.trans hread.1⟩
    · exact absurd h0 ht
    · have hbit := hread.2 hunchecked
      obtain ⟨-, -, hfiles⟩ := hunchecked
      obtain ⟨n, hn, hfirst⟩ := (Option.any_eq_true ..).mp hfiles
      rw [hn] at hbit
      have hbit' : n.beforeAfter = r.mark req.inode := of_decide_eq_true hbit
      -- it has locked a file before, so the step keeps its serialization
      have hsome := (hown.fileRecNo_eq_none_iff (searchTxn_mem hn)).not.mp
        (of_decide_eq_true hfirst)
      push Not at hsome
      obtain ⟨b, hb, hbt⟩ := hsome
      have hbt' : (r.server.cell b).parentTxn = t := hbt.trans (searchTxn_id hn)
      have hrel : ¬ e.Releases (r.server.cell b).parentTxn := by
        intro hrel
        have hreq := hrec.request
        cases e <;> first | exact hrel | cases hreq
      obtain ⟨n', hn', hsame⟩ := hframe.node b hb hrel n (by rw [hbt']; exact hn)
      exact ⟨n', hbt' ▸ hn', hsame.trans hbit'⟩
  obtain ⟨n, hn, hbit⟩ := hserialized
  refine ⟨ht, ⟨_, hnew, hrec.parent, hrec.inode⟩, n, hn, ?_⟩
  rcases hmarked with ⟨hone, hcopied⟩ | ⟨hzero, hnot⟩
  · exact .inl ⟨decide_eq_true hcopied, hbit.trans hone⟩
  · exact .inr ⟨decide_eq_false hnot, hbit.trans hzero, hnot⟩

/-- **A step of a user** keeps the invariant. -/
theorem InStep.user (h : InStep r) (huser : e.IsUser) (hclean : r.server.CleanRelease e)
    (hread : r.ReadsMark e) (hstep : r.server.step e = some s') :
    InStep { r with server := s', locks := r.grants e s' } := by
  have hown := h.guarded.consistent.owned
  have hframe := Server.step_frame hown hstep
  have hactor := actor_ne_of_isUser huser
  -- the records of the backup stay
  have hbackup : ∀ a ∈ r.server.table.allocated, (r.server.cell a).parentTxn = 0 →
      a ∈ s'.table.allocated ∧ (s'.cell a).parentTxn = 0 ∧
        (s'.cell a).fileInode = (r.server.cell a).fileInode := by
    intro a ha ha0
    have ha' := hframe.kept a ha fun hrel => hactor (ha0 ▸ hrel.actor)
    obtain ⟨hi, -, hp⟩ := hframe.fields a ha ha'
    exact ⟨ha', hp.trans ha0, hi⟩
  constructor
  case guarded =>
    constructor
    · exact Server.consistent_step h.guarded.consistent hclean hstep
    · intro f hf
      rcases mem_grants huser hf with ⟨hold, hrel⟩ | ⟨hnew, rfl⟩
      · exact (h.guarded.locks f hold).step hframe hrel
      · exact h.newLock huser hclean hread hstep hnew
    · apply exclusive_step h.guarded.exclusive hframe
      intro req readBit hreq
      exact absurd (Server.requestOf_actor hreq) hactor
  case marks =>
    exact h.marks
  case fresh =>
    exact h.fresh
  case sticky =>
    exact h.sticky
  case answered =>
    intro hphase
    obtain ⟨req, hinode, hflags, hans⟩ := h.answered hphase
    exact ⟨req, hinode, hflags, hans.frame (Server.step_thread hown hstep hactor) hbackup⟩
  case holds =>
    intro hphase
    obtain ⟨hcopied, a, ha, ha0, hinode⟩ := h.holds hphase
    obtain ⟨ha', ha0', hinode'⟩ := hbackup a ha ha0
    exact ⟨hcopied, a, ha', ha0', hinode'.trans hinode⟩

/-! ## Steps of the backup -/

/-- The steps of the backup are not those of a user. -/
theorem actor_ne_of_backup (h : e.actor = some 0 ∨ e.actor = none) : ∀ t ≠ 0, e.actor ≠ some t := by
  rintro t ht hact
  rcases h with h | h
  · exact ht (Option.some.inj (hact.symm.trans h))
  · exact absurd (hact.symm.trans h) (by simp)

/-- **A step of the backup in the lock manager** keeps the invariant. If it stays in front of
    `copy_file`, the backup still waits for the lock or has it. -/
theorem InStep.serve (h : InStep r) {phase phase' : BackupPhase} (hphase : r.phase = phase)
    (hs' : r.server.step e = some s') (hactor : ∀ t ≠ 0, e.actor ≠ some t)
    (hreq : ∀ req readBit, r.server.requestOf e = some (0, req, readBit) → req.flags ≠ 0)
    (hfrom : phase ≠ .copied) (hto : phase' = .locking → phase = .statted ∨ phase = .locking)
    (hstat : phase' ≠ .statted) (hcopied : phase' ≠ .copied)
    (hans : phase' = .locking → ∃ req, req.inode = r.pathBuf.stIno ∧ req.flags = 1 ∧
      s'.Answered 0 req) : InStep { r with server := s', phase := phase' } := by
  constructor
  case guarded =>
    exact h.guarded.backupStep hs' hactor hreq
  case marks =>
    intro i _
    apply h.marks
    intro hc
    exact absurd (hphase.symm.trans hc) hfrom
  case fresh =>
    intro hp
    apply h.fresh
    rw [hphase]
    exact hp.elim (fun hp => absurd hp hstat) hto
  case sticky =>
    intro hp
    apply h.sticky
    rw [hphase]
    rcases hp with hp | hp | hp
    · exact absurd hp hstat
    · exact (hto hp).imp_right .inl
    · exact absurd hp hcopied
  case answered =>
    exact hans
  case holds =>
    intro hp
    exact absurd hp hcopied

/-- No `pthread_cond_wait` is left without its request. -/
theorem answered_of_step (h : InStep r) (hphase : r.phase = .locking)
    (hs' : r.server.step e = some s')
    (he : e = .wake 0 ∨ e = .leaveAsVictim 0 ∨ ∃ readBit, e = .resume 0 readBit) :
    ∃ req, req.inode = r.pathBuf.stIno ∧ req.flags = 1 ∧ s'.Answered 0 req := by
  obtain ⟨req, hinode, hflags, hans⟩ := h.answered hphase
  refine ⟨req, hinode, hflags, ?_⟩
  rcases he with rfl | rfl | ⟨readBit, rfl⟩
  · cases Server.step_spec hs' with
    | wake hthread hwake => exact Server.afterCondWait_answered hthread hwake hans
  · cases Server.step_spec hs' with
    | leaveAsVictim hthread hwake =>
      obtain ⟨_, -, rfl⟩ := Server.afterWakeCond_spec hwake
      unfold Server.Answered Server.setThread
      simp only [Function.update_self]
  · cases Server.step_spec hs' with
    | resume hthread hreq =>
      have hans' := Server.requestLock_answered h.guarded.consistent hreq
      unfold Server.Answered at hans
      rw [hthread] at hans
      exact hans ▸ hans'

/-- The repeated request of the backup is for an exclusive lock. -/
theorem flags_of_resume (h : InStep r) (hphase : r.phase = .locking) {readBit : Int} :
    ∀ req b, r.server.requestOf (.resume 0 readBit) = some (0, req, b) → req.flags ≠ 0 := by
  intro req b hreq
  obtain ⟨req', -, hflags, hans⟩ := h.answered hphase
  simp only [Server.requestOf] at hreq
  split at hreq
  · rename_i p hthread
    simp only [Option.some.injEq, Prod.mk.injEq] at hreq
    unfold Server.Answered at hans
    rw [hthread] at hans
    obtain ⟨-, rfl, -⟩ := hreq
    have hans' : p.req = req' := hans
    rw [hans', hflags]
    decide
  · cases hreq

/-- A step that leaves the loop body, or does not enter it, and asks for no lock. -/
theorem InStep.serve_plain (h : InStep r) {phase phase' : BackupPhase}
    (hactor : e.actor = some 0 ∨ e.actor = none) (hreq : r.server.requestOf e = none)
    (hphases : phase ≠ .copied ∧ phase' ≠ .locking ∧ phase' ≠ .statted ∧ phase' ≠ .copied)
    (hphase : r.phase = phase) (hs' : r.server.step e = some s') :
    InStep { r with server := s', phase := phase' } := by
  obtain ⟨hfrom, hto, hstat, hcopied⟩ := hphases
  refine h.serve hphase hs' (actor_ne_of_backup hactor) ?_ hfrom (fun hp => absurd hp hto) hstat hcopied
    (fun hp => absurd hp hto)
  intro req b hr
  rw [hreq] at hr
  cases hr

/-- **`stat`** of a file that has not been copied: its mark is 0. -/
theorem InStep.stat (h : InStep r) (hphase : r.phase = .atLoop) (hnot : inode ∉ r.copied) :
    InStep { r with pathBuf := ⟨inode, r.mark inode⟩, phase := .statted } := by
  have hmarks : ∀ i, r.Marked i := fun i => h.marks i fun hc => absurd (hphase.symm.trans hc) nofun
  refine ⟨h.guarded, fun i _ => hmarks i, fun _ => hnot, ?_, nofun, nofun⟩
  intro _
  rcases hmarks inode with ⟨-, hin⟩ | ⟨hzero, -⟩
  · exact absurd hin hnot
  · exact hzero

theorem InStep.skip (h : InStep r) (hphase : r.phase = .statted) :
    InStep { r with phase := .atLoop } := by
  refine ⟨h.guarded, fun i _ => h.marks i fun hc => absurd (hphase.symm.trans hc) nofun, ?_, ?_,
    nofun, nofun⟩
  · rintro (hp | hp) <;> cases hp
  · rintro (hp | hp | hp) <;> cases hp

/-- **`copy_file`** of the file that the backup has locked. -/
theorem InStep.copy (h : InStep r) (hphase : r.phase = .locking)
    (hthread : r.server.thread 0 = .running) :
    InStep { r with copied := r.pathBuf.stIno :: r.copied, phase := .copied } := by
  -- the lock was granted, so there is a record
  obtain ⟨req, hinode, -, hans⟩ := h.answered hphase
  unfold Server.Answered at hans
  rw [hthread] at hans
  obtain ⟨a, ha, ha0, hai⟩ := hans
  constructor
  case guarded =>
    exact h.guarded.copy ha ha0 (hai.trans hinode)
  case marks =>
    intro i hi
    have hne := hi rfl
    rcases h.marks i fun hc => absurd (hphase.symm.trans hc) nofun with hm | hm
    · exact .inl ⟨hm.1, List.mem_cons_of_mem _ hm.2⟩
    · refine .inr ⟨hm.1, ?_⟩
      rw [List.mem_cons, not_or]
      exact ⟨hne, hm.2⟩
  case fresh =>
    rintro (hp | hp) <;> cases hp
  case sticky =>
    intro _
    exact h.sticky (.inr (.inl hphase))
  case answered =>
    intro hp
    cases hp
  case holds =>
    intro _
    exact ⟨List.mem_cons_self .., a, ha, ha0, hai.trans hinode⟩

/-- **`mark_as_read`** of the file that has just been copied. -/
theorem InStep.markAsRead (h : InStep r) (hphase : r.phase = .copied) :
    InStep (r.markAsRead r.pathBuf.stIno) := by
  constructor
  case guarded =>
    exact h.guarded
  case marks =>
    intro i _
    by_cases hi : i = r.pathBuf.stIno
    · -- the bit was 0 at `stat`, so it is set now
      subst hi
      refine .inl ⟨?_, (h.holds hphase).1⟩
      show Function.update r.mark r.pathBuf.stIno _ r.pathBuf.stIno = 1
      rw [Function.update_self, h.sticky (.inr (.inr hphase))]
      rfl
    · have hmark : (r.markAsRead r.pathBuf.stIno).mark i = r.mark i := Function.update_of_ne hi _ _
      have hold := h.marks i fun _ => hi
      unfold Marked at hold ⊢
      rw [hmark]
      exact hold
  case fresh =>
    rintro (hp | hp) <;> cases hp
  case sticky =>
    rintro (hp | hp | hp) <;> cases hp
  case answered =>
    intro hp
    cases hp
  case holds =>
    intro hp
    cases hp

/-- **Every step under the condition keeps the invariant**. -/
theorem inStep_step {ev : BackupEvent} (h : InStep r) (hok : r.Synchronized ev)
    (hstep : r.step ev = some r') : InStep r' := by
  cases step_spec hstep with
  | user huser hs' => exact h.user huser hok.1 hok.2 hs'
  | activate hphase hs' => exact h.serve_plain (.inr rfl) rfl (by decide) hphase hs'
  | begin hphase hs' => exact h.serve_plain (.inl rfl) rfl (by decide) hphase hs'
  | stat hphase => exact h.stat hphase hok
  | skip hphase => exact h.skip hphase
  | @lock inode readBit fd s' hphase hs' =>
    have hinode : inode = r.pathBuf.stIno := hok
    refine h.serve hphase hs' (actor_ne_of_backup (.inl rfl)) ?_ nofun (fun _ => .inl rfl) nofun
      nofun fun _ => ?_
    · intro req b hreq
      simp only [Server.requestOf, Option.some.injEq, Prod.mk.injEq] at hreq
      obtain ⟨-, rfl, -⟩ := hreq
      show (1 : Int) ≠ 0
      decide
    · refine ⟨⟨inode, 1, .host fd⟩, hinode, rfl, ?_⟩
      cases Server.step_spec hs' with
      | lock hthread hreq => exact Server.requestLock_answered h.guarded.consistent hreq
  -- the backup waits for its lock
  | wake hphase hs' =>
    exact h.serve hphase hs' (actor_ne_of_backup (.inl rfl)) (fun req b hr => by cases hr) nofun
      (fun _ => .inr rfl) nofun nofun fun _ => answered_of_step h hphase hs' (.inl rfl)
  | resume hphase hs' =>
    exact h.serve hphase hs' (actor_ne_of_backup (.inl rfl)) (flags_of_resume h hphase) nofun
      (fun _ => .inr rfl) nofun nofun fun _ =>
        answered_of_step h hphase hs' (.inr (.inr ⟨_, rfl⟩))
  | leaveAsVictim hphase hs' =>
    exact h.serve hphase hs' (actor_ne_of_backup (.inl rfl)) (fun req b hr => by cases hr) nofun
      (fun _ => .inr rfl) nofun nofun fun _ => answered_of_step h hphase hs' (.inr (.inl rfl))
  | giveUp hthread hphase hs' => exact h.serve_plain (.inl rfl) rfl (by decide) hphase hs'
  | copy hphase hthread =>
    cases hok
    exact h.copy hphase hthread
  | markAsRead hphase =>
    cases hok
    exact h.markAsRead hphase
  | release hphase hs' => exact h.serve_plain (.inl rfl) rfl (by decide) hphase hs'
  | finish hphase hs' => exact h.serve_plain (.inl rfl) rfl (by decide) hphase hs'
  | deactivate hphase hs' => exact h.serve_plain (.inr rfl) rfl (by decide) hphase hs'

theorem inStep_of_reachable {handles : Nat}
    (h : ReachableUnder (init handles) step Synchronized r) : InStep r :=
  h.invariant inStep_init fun _ _ _ _ hr hok hstep => inStep_step hr hok hstep

/-! ## Mutual serializability -/

/-- **Consistency of the online backup**: every live transaction, in particular one that is
    about to commit, is mutually serializable with the backup. -/
theorem committed_mutually_serializable {handles : Nat}
    (h : ReachableUnder (init handles) step Synchronized r) (t : Int) :
    r.MutuallySerializable t := by
  have hr := inStep_of_reachable h
  by_cases hside : ∃ n, searchTxn t r.server.headTxnList = some n ∧ n.beforeAfter = 1
  · left
    intro f hf hft
    obtain ⟨-, -, n, hn, hcases⟩ := hr.guarded.locks f hf
    obtain ⟨m, hm, hone⟩ := hside
    rw [hft, hm, Option.some.injEq] at hn
    subst hn
    rcases hcases with ⟨hwas, -⟩ | ⟨-, hzero, -⟩
    · exact hwas
    · exact absurd (hone.symm.trans hzero) (by decide)
  · right
    intro f hf hft
    obtain ⟨-, -, n, hn, hcases⟩ := hr.guarded.locks f hf
    rcases hcases with ⟨-, hone⟩ | ⟨-, -, hnot⟩
    · exact absurd ⟨n, hft ▸ hn, hone⟩ hside
    · exact hnot

/-- The backup has copied file 5; a transaction locks it and, behind a broadcast, a file that
    was copied while it waited. -/
theorem committed_mutually_serializable_after_wait :
    ∃ r, ReachableUnder (init 1) step Synchronized r ∧
      (r.step (.user (.commit 1))).isSome = true ∧ r.locks.length = 2 ∧
      r.MutuallySerializable 1 := by
  obtain ⟨r, hr, hcommit, hlocks⟩ := exists_of_runUnder (init 1) step Synchronized
    (fun r => (r.step (.user (.commit 1))).isSome = true ∧ r.locks.length = 2)
    [.activate, .begin, .user (.begin 1), .stat 5, .lock 5 none 0, .copy 5, .markAsRead 5,
      .release, .user (.lock 1 ⟨5, 0, .placeholder⟩ 1), .stat 6, .lock 6 none 0,
      .user (.lock 1 ⟨6, 2, .placeholder⟩ 0), .copy 6, .markAsRead 6, .release,
      .user (.wake 1), .user (.resume 1 1)] (by decide)
  exact ⟨r, hr, hcommit, hlocks, committed_mutually_serializable hr 1⟩

/-- With a read bit that stays 0 a transaction commits with a copied and an uncopied file. -/
theorem committed_not_mutually_serializable :
    ∃ r, Reachable (init 1) step r ∧ ∃ t, (r.step (.user (.commit t))).isSome = true ∧
      ¬ r.MutuallySerializable t := by
  obtain ⟨r, hr, hcommit⟩ := exists_of_run (init 1) step
    (fun r => (r.step (.user (.commit 1))).isSome = true ∧ ¬ r.MutuallySerializable 1)
    [.activate, .begin, .user (.begin 1), .stat 5, .lock 5 none 0, .copy 5, .markAsRead 5,
      .release, .user (.lock 1 ⟨5, 0, .placeholder⟩ 0), .user (.lock 1 ⟨6, 2, .placeholder⟩ 0)]
    (by decide)
  exact ⟨r, hr, 1, hcommit⟩

end BackupRun

end TxFS
