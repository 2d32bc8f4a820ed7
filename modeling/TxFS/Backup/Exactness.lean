import TxFS.Backup.Retries

/-!
# The Marks behind the Decisions

The serialization bit of a transaction is the mark of its first file and of every file that
was checked, the backup holds one file at a time, and an aborted request is one that
conflicts with the first file of its transaction.
-/

namespace TxFS

open GuardedRun

/-! ## The marks -/

/-- **The history of the marks**: the checked locks of a transaction have its serialization bit,
    which is the mark of its first file, and a file that was not copied stays so. -/
structure Sided (s : Server) (mark : Int → Int) (h : Decisions) : Prop where
  bit : ∀ a ∈ s.table.allocated, (s.cell a).parentTxn ≠ 0 → a ∉ h.unchecked →
    ∃ n, searchTxn (s.cell a).parentTxn s.headTxnList = some n ∧ n.beforeAfter = h.grantMark a
  first : ∀ a ∈ s.table.allocated, (s.cell a).parentTxn ≠ 0 →
    ∃ n, searchTxn (s.cell a).parentTxn s.headTxnList = some n ∧
      n.beforeAfter = h.firstMark (s.cell a).parentTxn
  stays : ∀ a ∈ s.table.allocated, (s.cell a).parentTxn ≠ 0 → h.grantMark a = 0 →
    mark (s.cell a).fileInode = 0
  bits : ∀ t, h.firstMark t = 0 ∨ h.firstMark t = 1

section

variable {r : BackupRun} {s' : Server} {h : Decisions} {e : Event} {t readBit : Int}
  {req : LockRequest} {out : Server.Outcome} {a : Addr}

/-- An answer leaves the history of the records that it does not grant, and the first file of
    a transaction that has one. -/
theorem Decisions.answered_old (ha : out ≠ .granted a) {x : Int}
    (hx : x = t → ∃ n, searchTxn t r.server.headTxnList = some n ∧ n.fileRecNo ≠ none) :
    (h.answered r t req out).grantMark a = h.grantMark a ∧
      (a ∉ (h.answered r t req out).unchecked → a ∉ h.unchecked) ∧
      (h.answered r t req out).firstMark x = h.firstMark x := by
  cases out with
  | granted b =>
    have hab : a ≠ b := fun hab => ha (congrArg Server.Outcome.granted hab.symm)
    refine ⟨Function.update_of_ne hab _ _, ?_, ?_⟩
    · simp only [answered, grant]
      split
      · exact fun hnot hmem => hnot (List.mem_cons_of_mem _ hmem)
      · exact id
    · simp only [answered, grant]
      split
      · rename_i hnone
        apply Function.update_of_ne
        intro hxt
        obtain ⟨n, hn, hfiles⟩ := hx hxt
        rw [hn] at hnone
        simp [hfiles] at hnone
      · rfl
  | _ => exact ⟨rfl, id, rfl⟩

/-- The first marks are marks. -/
theorem Decisions.answered_bits (hmarks : ∀ i, r.mark i = 0 ∨ r.mark i = 1)
    (hbits : ∀ t, h.firstMark t = 0 ∨ h.firstMark t = 1) (x : Int) :
    (h.answered r t req out).firstMark x = 0 ∨ (h.answered r t req out).firstMark x = 1 := by
  cases out with
  | granted b =>
    simp only [answered, grant]
    split
    · by_cases hxt : x = t
      · rw [hxt, Function.update_self]
        exact hmarks _
      · rw [Function.update_of_ne hxt]
        exact hbits x
    · exact hbits x
  | _ => exact hbits x

/-- A step leaves the history of the records that were there before. -/
theorem Decisions.record_old (hs : Owned r.server.table r.server.headTxnList)
    (hstep : r.server.step e = some s') (ha : a ∈ r.server.table.allocated) :
    (h.record r e).grantMark a = h.grantMark a ∧
      (a ∉ (h.record r e).unchecked → a ∉ h.unchecked) ∧
      (h.record r e).firstMark (r.server.cell a).parentTxn =
        h.firstMark (r.server.cell a).parentTxn := by
  rcases hreq : r.server.requestOf e with _ | ⟨t, req, readBit⟩
  · obtain ⟨hgrant, hunchecked, hfirst, -⟩ := Decisions.record_none (h := h) hreq
    rw [hgrant, hunchecked, hfirst]
    exact ⟨rfl, id, rfl⟩
  · obtain ⟨out, hout, -, hbrk, -⟩ := Server.step_answer hreq hstep
    rw [Decisions.record_some hreq hout]
    apply Decisions.answered_old
    · intro hgranted
      exact hs.brk_notMem (hbrk a hgranted ▸ ha)
    · intro hat
      obtain ⟨n, hn, hid⟩ := hs.live a ha
      have hsearch := hs.search_eq hn
      have hnt : n.txnId = t := hid.trans hat
      rw [hnt] at hsearch
      exact ⟨n, hsearch, fun hnone => (hs.fileRecNo_eq_none_iff hn).mp hnone a ha hid.symm⟩

/-- **A new record** has the mark of its file, and a checked one is on the side of its
    transaction. -/
theorem Sided.newRecord (hsided : Sided r.server r.mark h)
    (hs : Owned r.server.table r.server.headTxnList)
    (hread : ∀ q ∈ r.server.requestOf e, q.2.2 = r.mark q.2.1.inode)
    (hstep : r.server.step e = some s') (ha : a ∈ s'.table.allocated)
    (hnew : a ∉ r.server.table.allocated) (hat : (s'.cell a).parentTxn ≠ 0) :
    (h.record r e).grantMark a = r.mark (s'.cell a).fileInode ∧
      (a ∉ (h.record r e).unchecked → ∃ n, searchTxn (s'.cell a).parentTxn s'.headTxnList = some n ∧
        n.beforeAfter = (h.record r e).grantMark a) ∧
      ∃ n, searchTxn (s'.cell a).parentTxn s'.headTxnList = some n ∧
        n.beforeAfter = (h.record r e).firstMark (s'.cell a).parentTxn := by
  have hframe := Server.step_frame hs hstep
  obtain ⟨t, req, readBit, hrec⟩ := hframe.fresh a ha hnew
  obtain ⟨out, hout, -, -, hgranted⟩ := Server.step_answer hrec.request hstep
  have hbit : readBit = r.mark req.inode := hread _ hrec.request
  have hout' := hgranted a ha hnew
  subst hout'
  rw [Decisions.record_some hrec.request hout, hrec.parent, hrec.inode]
  rw [hrec.parent] at hat
  have hmark : (h.answered r t req (.granted a)).grantMark a = r.mark req.inode :=
    Function.update_self ..
  refine ⟨hmark, ?_, ?_⟩
  · intro hchecked
    rw [hmark, ← hbit]
    rcases hrec.serialized with hserialized | h0 | hun
    · exact hserialized
    · exact absurd h0 hat
    · refine absurd ?_ hchecked
      simp only [Decisions.answered, Decisions.grant, if_pos hun]
      exact List.mem_cons_self ..
  · by_cases hfirst : (searchTxn t r.server.headTxnList).any (fun n => n.fileRecNo = none) = true
    · -- the first file of the transaction
      have hmark' : (h.answered r t req (.granted a)).firstMark t = r.mark req.inode := by
        simp only [Decisions.answered, Decisions.grant, if_pos hfirst]
        exact Function.update_self ..
      rw [hmark', ← hbit]
      rcases hrec.serialized with hserialized | h0 | hun
      · exact hserialized
      · exact absurd h0 hat
      · have hfiles := hun.2.2
        obtain ⟨n, hn, hnone⟩ := (Option.any_eq_true ..).mp hfirst
        rw [hn] at hfiles
        simp [of_decide_eq_true hnone] at hfiles
    · -- the transaction owns an older record
      have hmark' : (h.answered r t req (.granted a)).firstMark t = h.firstMark t := by
        simp only [Decisions.answered, Decisions.grant, if_neg hfirst]
      rw [hmark']
      obtain ⟨n, hn, hid⟩ := (Server.owned_step hs hstep).live a ha
      have hlive : t ∈ s'.headTxnList.map TxnNode.txnId := by
        have hid' : n.txnId = (s'.cell a).parentTxn := hid
        rw [← hrec.parent, ← hid']
        exact List.mem_map_of_mem hn
      have hreqev := hrec.request
      obtain ⟨m, hm⟩ : ∃ m, searchTxn t r.server.headTxnList = some m := by
        rcases Server.step_live hs hstep hlive with rfl | ⟨hlive', -⟩
        · cases hreqev
        · obtain ⟨m, hm, hmt⟩ := List.mem_map.mp hlive'
          exact ⟨m, hmt ▸ hs.search_eq hm⟩
      rw [hm] at hfirst
      have hfiles : m.fileRecNo ≠ none := by simpa using hfirst
      obtain ⟨b, hb, hbt⟩ : ∃ b ∈ r.server.table.allocated, (r.server.cell b).parentTxn = t := by
        by_contra hno
        push Not at hno
        exact hfiles ((hs.fileRecNo_eq_none_iff (searchTxn_mem hm)).mpr fun b hb hbt =>
          hno b hb (hbt.trans (searchTxn_id hm)))
      obtain ⟨n₀, hn₀, hbit₀⟩ := hsided.first b hb (hbt ▸ hat)
      have hrel : ¬ e.Releases (r.server.cell b).parentTxn := by
        intro hrel
        cases e <;> first | exact hrel | cases hreqev
      obtain ⟨n', hn', hsame⟩ := hframe.node b hb hrel n₀ hn₀
      rw [hbt] at hn' hbit₀
      exact ⟨n', hn', hsame.trans hbit₀⟩

/-- **A step of the server keeps the history of the marks right**. -/
theorem Sided.step (hsided : Sided r.server r.mark h)
    (hs : Owned r.server.table r.server.headTxnList) (hmarks : ∀ i, r.mark i = 0 ∨ r.mark i = 1)
    (hread : ∀ q ∈ r.server.requestOf e, q.2.2 = r.mark q.2.1.inode)
    (hstep : r.server.step e = some s') : Sided s' r.mark (h.record r e) := by
  have hframe := Server.step_frame hs hstep
  -- the transaction of a record that was there before keeps its side
  have hold : ∀ a ∈ s'.table.allocated, a ∈ r.server.table.allocated →
      (s'.cell a).parentTxn ≠ 0 → (s'.cell a).parentTxn = (r.server.cell a).parentTxn ∧
        (s'.cell a).fileInode = (r.server.cell a).fileInode ∧
        Server.SameSerialization r.server s' (r.server.cell a).parentTxn := by
    intro a ha' ha hat
    obtain ⟨hi, -, hp⟩ := hframe.fields a ha ha'
    have hrel := Server.not_releases_of_kept hs hstep ha ha' (hp ▸ hat)
    exact ⟨hp, hi, hframe.node a ha hrel⟩
  constructor
  case bit =>
    intro a ha hat hchecked
    by_cases hwas : a ∈ r.server.table.allocated
    · obtain ⟨hp, -, hsame⟩ := hold a ha hwas hat
      obtain ⟨hmark, hchecked', -⟩ := Decisions.record_old (h := h) hs hstep hwas
      obtain ⟨n, hn, hbit⟩ := hsided.bit a hwas (hp ▸ hat) (hchecked' hchecked)
      obtain ⟨n', hn', hbit'⟩ := hsame n hn
      rw [hp, hmark]
      exact ⟨n', hn', hbit'.trans hbit⟩
    · exact (hsided.newRecord hs hread hstep ha hwas hat).2.1 hchecked
  case first =>
    intro a ha hat
    by_cases hwas : a ∈ r.server.table.allocated
    · obtain ⟨hp, -, hsame⟩ := hold a ha hwas hat
      obtain ⟨-, -, hmark⟩ := Decisions.record_old (h := h) hs hstep hwas
      obtain ⟨n, hn, hbit⟩ := hsided.first a hwas (hp ▸ hat)
      obtain ⟨n', hn', hbit'⟩ := hsame n hn
      rw [hp, hmark]
      exact ⟨n', hn', hbit'.trans hbit⟩
    · exact (hsided.newRecord hs hread hstep ha hwas hat).2.2
  case stays =>
    intro a ha hat hzero
    by_cases hwas : a ∈ r.server.table.allocated
    · obtain ⟨hp, hi, -⟩ := hold a ha hwas hat
      obtain ⟨hmark, -, -⟩ := Decisions.record_old (h := h) hs hstep hwas
      rw [hi]
      exact hsided.stays a hwas (hp ▸ hat) (hmark ▸ hzero)
    · rw [← (hsided.newRecord hs hread hstep ha hwas hat).1]
      exact hzero
  case bits =>
    intro t
    rcases hreq : r.server.requestOf e with _ | ⟨u, req, readBit⟩
    · rw [(Decisions.record_none (h := h) hreq).2.2.1]
      exact hsided.bits t
    · obtain ⟨out, hout, -⟩ := Server.step_answer hreq hstep
      rw [Decisions.record_some hreq hout]
      exact Decisions.answered_bits hmarks hsided.bits t

end

/-! ## The records of the backup -/

/-- The thread sleeps or is about to repeat a request. -/
def ThreadState.Waits : ThreadState → Prop
  | .parked .. | .resuming _ => True
  | .running | .victim _ | .aborting => False

/-- **The backup holds one file at a time**, and none outside the body of its loop. -/
structure OneFile (r : BackupRun) : Prop where
  single : ∀ a ∈ r.server.table.allocated, ∀ b ∈ r.server.table.allocated,
    (r.server.cell a).parentTxn = 0 → (r.server.cell b).parentTxn = 0 → a = b
  free : (r.phase = .locking → (r.server.thread 0).Waits) → r.phase ≠ .copied → r.phase ≠ .marked →
    r.phase ≠ .stopped → ∀ a ∈ r.server.table.allocated, (r.server.cell a).parentTxn ≠ 0

section

variable {r r' : BackupRun} {s s' : Server} {e : Event} {ev : BackupEvent} {t readBit : Int}
  {req : LockRequest} {a : Addr}

/-- A thread that was granted a record does not wait. -/
theorem Server.requestLock_fresh_thread {first : Option (Option Addr)}
    (h : s.requestLock t req first readBit = some s') (ha : a ∈ s'.table.allocated)
    (hnew : a ∉ s.table.allocated) : ¬ (s'.thread t).Waits := by
  obtain ⟨found, loc, s₁, out, -, hspec, hend⟩ := Server.requestLock_cases h
  rcases hend with ⟨b, -, rfl⟩ | ⟨node, rfl, rfl⟩ | ⟨rfl, rfl⟩ | ⟨rfl, rfl⟩
  · obtain ⟨table, handles, st, heq, -, hst⟩ := s₁.afterLock_spec t req.use (first.getD loc) b
    rw [heq]
    simp only [Function.update_self]
    rcases hst with rfl | rfl <;> exact id
  · cases hspec with
    | newNode => exact absurd ha hnew
    | oldNode => exact absurd ha hnew
    | refused _ hout => rcases hout with hout | hout <;> cases hout
  · cases hspec with
    | refused hsame _ =>
      obtain ⟨_, _, _, rfl, -⟩ := hsame
      exact absurd ha hnew
  · cases hspec with
    | refused hsame _ =>
      obtain ⟨_, _, _, rfl, -⟩ := hsame
      exact absurd ha hnew

/-- A step without a request of the backup gives it no record. -/
theorem backup_records_kept (hs : Owned s.table s.headTxnList) (h : s.step e = some s')
    (hreq : ∀ q, s.requestOf e = some q → q.1 ≠ 0) (ha : a ∈ s'.table.allocated)
    (ha0 : (s'.cell a).parentTxn = 0) : a ∈ s.table.allocated ∧ (s.cell a).parentTxn = 0 := by
  have hframe := Server.step_frame hs h
  by_cases hwas : a ∈ s.table.allocated
  · exact ⟨hwas, (hframe.fields a hwas ha).2.2 ▸ ha0⟩
  · obtain ⟨t, req, readBit, hrec⟩ := hframe.fresh a ha hwas
    exact absurd (hrec.parent.symm.trans ha0) (hreq _ hrec.request)

/-- A step of the server that gives the backup no record keeps the invariant, if the new phase
    promises no more than the old one. -/
theorem OneFile.kept (h : OneFile r) (hs : Owned r.server.table r.server.headTxnList)
    (hstep : r.server.step e = some r'.server)
    (hreq : ∀ q, r.server.requestOf e = some q → q.1 ≠ 0)
    (hfree : (r'.phase = .locking → (r'.server.thread 0).Waits) → r'.phase ≠ .copied →
      r'.phase ≠ .marked → r'.phase ≠ .stopped →
      ∀ a ∈ r.server.table.allocated, (r.server.cell a).parentTxn ≠ 0) : OneFile r' := by
  constructor
  · intro a ha b hb ha0 hb0
    obtain ⟨ha', ha0'⟩ := backup_records_kept hs hstep hreq ha ha0
    obtain ⟨hb', hb0'⟩ := backup_records_kept hs hstep hreq hb hb0
    exact h.single a ha' b hb' ha0' hb0'
  · intro h1 h2 h3 h4 a ha ha0
    obtain ⟨ha', ha0'⟩ := backup_records_kept hs hstep hreq ha ha0
    exact hfree h1 h2 h3 h4 a ha' ha0'

/-- A request of the backup gives it at most one record. -/
theorem OneFile.requested (hs : Owned r.server.table r.server.headTxnList)
    (hnone : ∀ a ∈ r.server.table.allocated, (r.server.cell a).parentTxn ≠ 0)
    (hstep : r.server.step e = some r'.server) (hphase : r'.phase = .locking)
    (hlock : ∃ first, r.server.requestLock 0 req first readBit = some r'.server) : OneFile r' := by
  have hframe := Server.step_frame hs hstep
  have hfresh : ∀ a ∈ r'.server.table.allocated, (r'.server.cell a).parentTxn = 0 →
      a ∉ r.server.table.allocated ∧ a = r.server.table.brk := by
    intro a ha ha0
    have hnew : a ∉ r.server.table.allocated := fun hwas =>
      hnone a hwas ((hframe.fields a hwas ha).2.2 ▸ ha0)
    obtain ⟨_, _, _, hrec⟩ := hframe.fresh a ha hnew
    exact ⟨hnew, hrec.eq_brk⟩
  constructor
  · intro a ha b hb ha0 hb0
    exact (hfresh a ha ha0).2.trans (hfresh b hb hb0).2.symm
  · intro hwaits _ _ _ a ha ha0
    obtain ⟨first, hlock⟩ := hlock
    exact Server.requestLock_fresh_thread hlock ha (hfresh a ha ha0).1 (hwaits hphase)

theorem oneFile_init {handles : Nat} : OneFile (BackupRun.init handles) where
  single := by simp [BackupRun.init, Server.globalInit]
  free := by simp [BackupRun.init, Server.globalInit]

theorem asleep_waits {st st' : ThreadState}
    (h : Server.ThreadState.asleep st' = Server.ThreadState.asleep st) : st'.Waits → st.Waits := by
  cases st <;> cases st' <;> first | exact id | (intro _; trivial)

/-- A step in the lock manager without a request, if the new phase promises no more than the
    old one. -/
theorem OneFile.serve (h : OneFile r) (hs : Owned r.server.table r.server.headTxnList)
    {phase' : BackupPhase} (hs' : r.server.step e = some s') (hreq : r.server.requestOf e = none)
    (hto : phase' = .stopped ∨ (r.phase ≠ .copied ∧ r.phase ≠ .marked ∧ r.phase ≠ .stopped ∧
      (r.phase = .locking → (phase' = .locking → (s'.thread 0).Waits) →
        (r.server.thread 0).Waits))) : OneFile { r with server := s', phase := phase' } := by
  refine h.kept hs hs' (fun q hq => by rw [hreq] at hq; cases hq) ?_
  intro h1 h2 h3 h4
  rcases hto with rfl | ⟨hc, hm, hst, hwaits⟩
  · exact absurd rfl h4
  · exact h.free (fun hl => hwaits hl h1) hc hm hst

/-- A step in the lock manager from a phase in which the backup holds nothing. -/
theorem OneFile.serve_free (h : OneFile r) (hs : Owned r.server.table r.server.headTxnList)
    {phase phase' : BackupPhase} (hphase : r.phase = phase) (hs' : r.server.step e = some s')
    (hreq : r.server.requestOf e = none)
    (hfree : phase ≠ .copied ∧ phase ≠ .marked ∧ phase ≠ .stopped ∧ phase ≠ .locking) :
    OneFile { r with server := s', phase := phase' } := by
  subst hphase
  exact h.serve hs hs' hreq
    (.inr ⟨hfree.1, hfree.2.1, hfree.2.2.1, fun hl => absurd hl hfree.2.2.2⟩)

/-- In these phases the backup holds nothing. -/
theorem OneFile.nothing (h : OneFile r) {phase : BackupPhase} (hphase : r.phase = phase)
    (hfree : phase ≠ .copied ∧ phase ≠ .marked ∧ phase ≠ .stopped ∧ phase ≠ .locking) :
    ∀ a ∈ r.server.table.allocated, (r.server.cell a).parentTxn ≠ 0 := by
  subst hphase
  exact h.free (fun hl => absurd hl hfree.2.2.2) hfree.1 hfree.2.1 hfree.2.2.1

/-- **Every step keeps the backup at one file**. -/
theorem OneFile.step (h : OneFile r) (hs : Owned r.server.table r.server.headTxnList)
    (hstep : r.step ev = some r') : OneFile r' := by
  cases BackupRun.step_spec hstep with
  | @user e s' huser hs' =>
    have hactor : e.actor ≠ some 0 := by
      cases e with
      | setBackup b => exact huser.elim
      | _ => exact huser
    refine h.kept hs hs' (fun q hq hq0 => hactor (hq0 ▸ Server.requestOf_actor hq)) ?_
    intro h1
    apply h.free
    intro hl
    exact asleep_waits (Server.step_thread hs hs' hactor) (h1 hl)
  | activate hphase hs' => exact h.serve_free hs hphase hs' rfl (by decide)
  | begin hphase hs' => exact h.serve_free hs hphase hs' rfl (by decide)
  | stat hphase => exact ⟨h.single, fun _ _ _ _ => h.nothing hphase (by decide)⟩
  | skip hphase => exact ⟨h.single, fun _ _ _ _ => h.nothing hphase (by decide)⟩
  | lock hphase hs' =>
    cases Server.step_spec hs' with
    | lock hthread hlock =>
      exact OneFile.requested hs (h.nothing hphase (by decide)) hs' rfl ⟨none, hlock⟩
  -- the backup waits, and holds nothing
  | wake hphase hs' =>
    refine h.serve hs hs' rfl (.inr ?_)
    rw [hphase]
    refine ⟨nofun, nofun, nofun, fun _ _ => ?_⟩
    cases Server.step_spec hs' with
    | wake hthread hwake =>
      rw [hthread]
      trivial
  | resume hphase hs' =>
    cases Server.step_spec hs' with
    | resume hthread hlock =>
      have hnone := h.free (fun _ => by rw [hthread]; trivial) (by rw [hphase]; nofun)
        (by rw [hphase]; nofun) (by rw [hphase]; nofun)
      exact OneFile.requested hs hnone hs' rfl ⟨_, hlock⟩
  | leaveAsVictim hphase hs' =>
    refine h.serve hs hs' rfl (.inr ?_)
    rw [hphase]
    refine ⟨nofun, nofun, nofun, fun _ hwaits => ?_⟩
    cases Server.step_spec hs' with
    | leaveAsVictim hthread hwake =>
      -- the victim goes on to its abort
      obtain ⟨_, -, rfl⟩ := Server.afterWakeCond_spec hwake
      have hst := hwaits rfl
      simp only [Server.setThread, Function.update_self] at hst
      exact hst.elim
  | giveUp _ _ hs' => exact h.serve hs hs' rfl (.inl rfl)
  | copy => exact ⟨h.single, fun _ hne => absurd rfl hne⟩
  | markAsRead => exact ⟨h.single, fun _ _ hne => absurd rfl hne⟩
  | @release s' _ hs' =>
    cases Server.step_spec hs' with
    | releaseByBackup hthread hrel =>
      -- the only record is freed
      obtain ⟨l, b, -, hfree⟩ := Server.releaseLocksByBackup_spec hs hrel
      have hframe := hfree.frame hs
      have hnone : ∀ a ∈ s'.table.allocated, (s'.cell a).parentTxn ≠ 0 := by
        intro a ha ha0
        obtain ⟨hab, ha'⟩ := (hframe.mem a).mp ha
        have hp := (hframe.fields a hab).2.2.2.2.1
        exact hab (h.single a ha' b hfree.mem.1 (hp ▸ ha0) hfree.mem.2)
      exact ⟨fun a ha b _ ha0 => absurd ha0 (hnone a ha), fun _ _ _ _ => hnone⟩
  | finish hphase hs' => exact h.serve_free hs hphase hs' rfl (by decide)
  | deactivate hphase hs' => exact h.serve_free hs hphase hs' rfl (by decide)

end

/-! ## Runs -/

namespace DecisionRun

variable {d d' : DecisionRun} {ev : BackupEvent}

/-- **The invariant of a run**. -/
structure Exact (d : DecisionRun) : Prop where
  owned : Owned d.run.server.table d.run.server.headTxnList
  marks : ∀ i, d.run.mark i = 0 ∨ d.run.mark i = 1
  counted : Counted d.run.server d.history
  sided : Sided d.run.server d.run.mark d.history
  oneFile : OneFile d.run

theorem exact_init {handles : Nat} : Exact (init handles) where
  owned := Server.owned_globalInit
  marks := fun _ => .inl rfl
  counted :=
    { counted := fun _ _ => Int.le_refl 0
      unused := fun _ _ => rfl
      idle := fun _ _ _ _ => rfl
      live := by simp [init, BackupRun.init, Server.globalInit] }
  sided :=
    { bit := by simp [init, BackupRun.init, Server.globalInit]
      first := by simp [init, BackupRun.init, Server.globalInit]
      stays := by simp [init, BackupRun.init, Server.globalInit]
      bits := fun _ => .inl rfl }
  oneFile := oneFile_init

/-- The mark of a file that a user holds does not change. -/
theorem mark_of_held (hgiven : d.Given ev) {r' : BackupRun} (hstep : d.run.step ev = some r')
    {a : Addr} (ha : a ∈ d.run.server.table.allocated)
    (hat : (d.run.server.cell a).parentTxn ≠ 0) :
    r'.mark (d.run.server.cell a).fileInode = d.run.mark (d.run.server.cell a).fileInode := by
  by_cases hmark : ∃ inode, ev = .markAsRead inode
  · obtain ⟨inode, rfl⟩ := hmark
    cases BackupRun.step_spec hstep
    obtain ⟨b, hb, hb0, hbi⟩ := hgiven.2.2.2
    have hne : (d.run.server.cell a).fileInode ≠ inode := fun heq =>
      hgiven.1 b hb a ha hb0 hat (hbi.trans heq.symm)
    exact Function.update_of_ne hne _ _
  · push Not at hmark
    rw [(BackupRun.step_onServer hstep).2 hmark]

/-- Every mark is a mark. -/
theorem marks_step (hmarks : ∀ i, d.run.mark i = 0 ∨ d.run.mark i = 1) {r' : BackupRun}
    (hstep : d.run.step ev = some r') (i : Int) : r'.mark i = 0 ∨ r'.mark i = 1 := by
  by_cases hmark : ∃ inode, ev = .markAsRead inode
  · obtain ⟨inode, rfl⟩ := hmark
    cases BackupRun.step_spec hstep
    simp only [BackupRun.markAsRead]
    by_cases hi : i = inode
    · rw [hi, Function.update_self]
      split
      · exact .inl rfl
      · exact .inr rfl
    · rw [Function.update_of_ne hi]
      exact hmarks i
  · push Not at hmark
    rw [(BackupRun.step_onServer hstep).2 hmark]
    exact hmarks i

/-- **Every step under the assumptions keeps the invariant**. -/
theorem exact_step (h : Exact d) (hgiven : d.Given ev) (hstep : d.step ev = some d') : Exact d' := by
  obtain ⟨r', hr', rfl⟩ := Option.map_eq_some_iff.mp hstep
  obtain ⟨hserver, hmark⟩ := BackupRun.step_onServer hr'
  have hmarks' := marks_step h.marks hr'
  have hone := h.oneFile.step h.owned hr'
  have hread := hgiven.2.1
  rcases hev : d.run.onServer ev with _ | e
  · -- only the backup's own variables change
    rw [hev] at hserver
    dsimp only at hserver
    simp only
    refine ⟨hserver ▸ h.owned, hmarks', hserver ▸ h.counted, ?_, hone⟩
    refine ⟨hserver ▸ h.sided.bit, hserver ▸ h.sided.first, ?_, h.sided.bits⟩
    rw [hserver]
    intro a ha hat hzero
    rw [mark_of_held hgiven hr' ha hat]
    exact h.sided.stays a ha hat hzero
  · rw [hev] at hserver
    dsimp only at hserver
    have hsame : r'.mark = d.run.mark := by
      apply hmark
      rintro inode rfl
      cases hev
    refine ⟨Server.owned_step h.owned hserver, hmarks', ?_, ?_, hone⟩
    · apply h.counted.step h.owned _ hserver
      rintro t rfl ht0
      have hnew := hgiven.2.2.1
      cases ev with
      | user e' =>
        cases hev
        exact hnew
      | begin =>
        cases hev
        exact absurd rfl ht0
      | _ => cases hev
    · show Sided r'.server r'.mark _
      rw [hsame]
      exact h.sided.step h.owned h.marks (hread e hev) hserver

theorem exact_of_reachable {handles : Nat} (h : ReachableUnder (init handles) step Given d) :
    Exact d :=
  h.invariant exact_init fun _ _ _ _ hd hgiven hstep => exact_step hd hgiven hstep

/-- An aborted request conflicts with the first file of its transaction, and an uncopied file
    is refused only behind six pauses in a row. -/
theorem Exact.aborted (h : Exact d) {e : Event} {s' : Server} {t readBit : Int} {req : LockRequest}
    (hreq : d.run.server.requestOf e = some (t, req, readBit))
    (hstep : d.run.server.step e = some s') (hread : readBit = d.run.mark req.inode)
    (hout : d.run.server.answer t req readBit = some .aborted) :
    (d.history.firstMark t = 0 ∧ d.run.mark req.inode = 1) ∨
      (d.history.firstMark t = 1 ∧ d.run.mark req.inode = 0 ∧ 6 ≤ d.history.pauses t) := by
  obtain ⟨out, hout', hspec, -⟩ := Server.step_answer hreq hstep
  rw [hout] at hout'
  cases hout'
  cases hspec with
  | noGrant _ _ hpass => exact absurd (.inr rfl) hpass
  | aborted ht0 hn hfiles hne hlimit _ =>
    -- the bit is the mark of the first file
    obtain ⟨a, ha, hat⟩ : ∃ a ∈ d.run.server.table.allocated,
        (d.run.server.cell a).parentTxn = t := by
      by_contra hno
      push Not at hno
      exact hfiles ((h.owned.fileRecNo_eq_none_iff (searchTxn_mem hn)).mpr fun a ha hat =>
        hno a ha (hat.trans (searchTxn_id hn)))
    obtain ⟨m, hm, hbit⟩ := h.sided.first a ha (hat ▸ ht0)
    rw [hat, hn, Option.some.injEq] at hm
    subst hm
    rw [hat] at hbit
    rw [← hbit, ← hread]
    rcases h.sided.bits t with hfirst | hfirst
    · left
      rw [hbit, hfirst] at hne ⊢
      exact ⟨rfl, ((hread ▸ h.marks req.inode).resolve_left hne)⟩
    · right
      rw [hbit, hfirst] at hne hlimit ⊢
      have hzero : readBit = 0 := ((hread ▸ h.marks req.inode).resolve_right hne)
      refine ⟨rfl, hzero, ?_⟩
      obtain ⟨i, hi, htimes⟩ := Server.pause_refused_times (hlimit hzero rfl)
      have hcount := h.counted.counted i (hi ▸ ht0)
      rw [hi] at hcount
      omega

end DecisionRun

end TxFS
