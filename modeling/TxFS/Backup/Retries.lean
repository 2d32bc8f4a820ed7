import TxFS.Backup.Decision

/-!
# The Retry Counters

The pause array of the server against the history: it counts at most the pauses of a
transaction since the check last let it through, so the seventh conflict in a row is the
first one that aborts.
-/

namespace TxFS

open GuardedRun

/-! ## The pause array -/

namespace Server

variable {s s' : Server} {e : Event} {t : Int} {a : Addr}

/-- What a pause that is not refused leaves of the pause array: one entry of the transaction
    counts one more. -/
theorem pause_entries (hret : (s.pause t).2 = 0) {k : Int} (hk : 0 ≤ k)
    (hcount : ∀ i, (s.pauseArray i).txnid = t → (s.pauseArray i).pauseTimes ≤ k)
    (hunused : ∀ i, s.indexPauseArray < i → (s.pauseArray i).txnid ≠ t) :
    (∀ i, (s.pause t).1.pauseArray i = s.pauseArray i ∨
      (((s.pause t).1.pauseArray i).txnid = t ∧
        ((s.pause t).1.pauseArray i).pauseTimes ≤ k + 1 ∧ i ≤ (s.pause t).1.indexPauseArray)) ∧
    s.indexPauseArray ≤ (s.pause t).1.indexPauseArray := by
  unfold pause at hret ⊢
  simp only at hret ⊢
  generalize ((List.range (s.indexPauseArray + 1)).find? fun i =>
    (s.pauseArray i).txnid = t).getD (s.indexPauseArray + 1) = i₀ at hret ⊢
  split at hret
  · rename_i hfound
    split at hret
    · cases hret
    · -- an entry of the transaction counts one more
      rename_i htimes
      rw [if_pos hfound, if_neg htimes]
      refine ⟨fun i => ?_, Nat.le_refl _⟩
      by_cases hi : i = i₀
      · subst hi
        right
        simp only [modifyTxn, Function.update_self, true_and]
        refine ⟨Int.add_le_add_right (hcount i hfound) 1, ?_⟩
        by_contra hlt
        exact hunused i (Nat.lt_of_not_le hlt) hfound
      · left
        simp only [modifyTxn, Function.update_of_ne hi]
  · -- a new entry
    rename_i hfound
    rw [if_neg hfound]
    refine ⟨fun i => ?_, Nat.le_succ _⟩
    by_cases hi : i = s.indexPauseArray + 1
    · subst hi
      right
      simp only [modifyTxn, Function.update_self, true_and]
      omega
    · left
      simp only [modifyTxn, Function.update_of_ne hi]

/-- A pause is refused only behind six others. -/
theorem pause_refused_times (hret : (s.pause t).2 = -1) :
    ∃ i, (s.pauseArray i).txnid = t ∧ 6 ≤ (s.pauseArray i).pauseTimes := by
  unfold pause at hret
  simp only at hret
  split at hret
  · rename_i hfound
    split at hret
    · rename_i htimes
      exact ⟨_, hfound, by omega⟩
    · cases hret
  · cases hret

/-- A record of a user that survives a step was not released. -/
theorem not_releases_of_kept (hs : Owned s.table s.headTxnList) (h : s.step e = some s')
    (ha : a ∈ s.table.allocated) (ha' : a ∈ s'.table.allocated) (hat : (s.cell a).parentTxn ≠ 0) :
    ¬ e.Releases (s.cell a).parentTxn := by
  intro hrel
  obtain ⟨n, hn, hid⟩ := (owned_step hs h).live a ha'
  change n.txnId = (s'.cell a).parentTxn at hid
  rw [((step_frame hs h).fields a ha ha').2.2] at hid
  have hends : e.Ends (s.cell a).parentTxn := by
    cases e with
    | releaseByBackup i => exact absurd hrel hat
    | _ => exact hrel
  have hlive : (s.cell a).parentTxn ∈ s'.headTxnList.map TxnNode.txnId := by
    rw [← hid]
    exact List.mem_map_of_mem hn
  rcases step_live hs h hlive with hbegin | ⟨-, hnot⟩
  · rw [hbegin] at hrel
    exact hrel
  · exact hnot hends

end Server

/-! ## The retry counters -/

/-- **The pause array counts at most the pauses in a row** of every transaction. -/
structure Counted (s : Server) (h : Decisions) : Prop where
  counted : ∀ i, (s.pauseArray i).txnid ≠ 0 →
    (s.pauseArray i).pauseTimes ≤ h.pauses (s.pauseArray i).txnid
  unused : ∀ i, s.indexPauseArray < i → (s.pauseArray i).txnid = 0
  /-- Who has locked nothing has not paused. -/
  idle : ∀ t ≠ 0, t ∉ h.ended → (∀ a ∈ s.table.allocated, (s.cell a).parentTxn ≠ t) →
    h.pauses t = 0
  live : ∀ t ∈ s.headTxnList.map TxnNode.txnId, t ≠ 0 → t ∉ h.ended

section

variable {r : BackupRun} {s' : Server} {h : Decisions} {e : Event} {t readBit : Int}
  {req : LockRequest} {out : Server.Outcome}

/-- An answer ends no transaction. -/
theorem Decisions.answered_ended : (h.answered r t req out).ended = h.ended := by
  cases out <;> rfl

/-- The end of a transaction as the history has it. -/
theorem Decisions.record_ended : (h.record r e).ended =
    match e with
    | .commit t | .abort t => t :: h.ended
    | _ => h.ended := by
  unfold record
  rcases hreq : r.server.requestOf e with _ | ⟨t, req, readBit⟩
  · cases e <;> rfl
  · -- the end of a transaction is no request
    cases e with
    | commit => cases hreq
    | abort => cases hreq
    | _ =>
      cases hanswer : r.server.answer t req readBit with
      | none => simp only [hanswer]
      | some out => simp only [hanswer, answered_ended]

/-- Without a request the history of the pauses stays. -/
theorem Decisions.record_none (hreq : r.server.requestOf e = none) :
    (h.record r e).grantMark = h.grantMark ∧ (h.record r e).unchecked = h.unchecked ∧
      (h.record r e).firstMark = h.firstMark ∧ (h.record r e).pauses = h.pauses := by
  unfold record
  rw [hreq]
  dsimp only
  split <;> exact ⟨rfl, rfl, rfl, rfl⟩

theorem Decisions.record_some (hreq : r.server.requestOf e = some (t, req, readBit))
    (hout : r.server.answer t req readBit = some out) : h.record r e = h.answered r t req out := by
  unfold record
  rw [hreq]
  dsimp only
  rw [hout]

/-- A grant behind a check starts the count of the pauses again. -/
theorem Decisions.grant_pauses {a : Addr} (x : Int) : (h.grant r t req a).pauses x =
    if r.server.Unchecked t req ∨ x ≠ t then h.pauses x else 0 := by
  unfold grant
  by_cases hun : r.server.Unchecked t req
  · simp [hun]
  · by_cases hxt : x = t
    · simp [hun, hxt]
    · simp [hun, hxt]

/-- Nobody who had ended lives. -/
theorem Counted.step_ended (hc : Counted r.server h)
    (hs : Owned r.server.table r.server.headTxnList)
    (hnew : ∀ t, e = .begin t → t ≠ 0 → t ∉ h.ended) (hstep : r.server.step e = some s') :
    ∀ x ∈ s'.headTxnList.map TxnNode.txnId, x ≠ 0 → x ∉ (h.record r e).ended := by
  intro x hx hx0
  rw [Decisions.record_ended]
  rcases Server.step_live hs hstep hx with rfl | ⟨hx', hnot⟩
  · exact hnew x rfl hx0
  · have hold := hc.live x hx' hx0
    cases e with
    | commit t => exact List.not_mem_cons_of_ne_of_not_mem (fun h => hnot h.symm) hold
    | abort t => exact List.not_mem_cons_of_ne_of_not_mem (fun h => hnot h.symm) hold
    | _ => exact hold

/-- Who owns nothing after a step and has not ended owned nothing before. -/
theorem owned_nothing (hs : Owned r.server.table r.server.headTxnList)
    (hstep : r.server.step e = some s') {x : Int} (hx0 : x ≠ 0) (hx : x ∉ (h.record r e).ended)
    (hnone : ∀ a ∈ s'.table.allocated, (s'.cell a).parentTxn ≠ x) :
    x ∉ h.ended ∧ ∀ a ∈ r.server.table.allocated, (r.server.cell a).parentTxn ≠ x := by
  rw [Decisions.record_ended] at hx
  have hframe := Server.step_frame hs hstep
  have hends : x ∉ h.ended ∧ ¬ e.Releases x := by
    cases e with
    | commit t =>
      rw [List.mem_cons, not_or] at hx
      exact ⟨hx.2, fun hrel => hx.1 (Eq.symm hrel)⟩
    | abort t =>
      rw [List.mem_cons, not_or] at hx
      exact ⟨hx.2, fun hrel => hx.1 (Eq.symm hrel)⟩
    | releaseByBackup i => exact ⟨hx, hx0⟩
    | _ => exact ⟨hx, id⟩
  refine ⟨hends.1, fun a ha hax => ?_⟩
  have ha' := hframe.kept a ha (by rw [hax]; exact hends.2)
  exact hnone a ha' ((hframe.fields a ha ha').2.2.trans hax)

/-- **A step of the server keeps the counters right**. -/
theorem Counted.step (hc : Counted r.server h)
    (hs : Owned r.server.table r.server.headTxnList)
    (hnew : ∀ t, e = .begin t → t ≠ 0 → t ∉ h.ended) (hstep : r.server.step e = some s') :
    Counted s' (h.record r e) := by
  have hlive := hc.step_ended hs hnew hstep
  rcases hreq : r.server.requestOf e with _ | ⟨t, req, readBit⟩
  · -- a step that answers no request touches neither the array nor the counters
    obtain ⟨harray, hindex⟩ := Server.step_samePauses hs hreq hstep
    obtain ⟨-, -, -, hpauses⟩ := Decisions.record_none (h := h) hreq
    refine ⟨?_, ?_, ?_, hlive⟩
    · rw [harray, hpauses]
      exact hc.counted
    · rw [harray, hindex]
      exact hc.unused
    · intro x hx0 hx hnone
      obtain ⟨hx', hnone'⟩ := owned_nothing hs hstep hx0 hx hnone
      rw [hpauses]
      exact hc.idle x hx0 hx' hnone'
  · obtain ⟨out, hout, hspec, hbrk, hgranted⟩ := Server.step_answer hreq hstep
    have hrecord := Decisions.record_some (h := h) hreq hout
    -- what is left to show for the counters
    suffices hsuff : (∀ i, (s'.pauseArray i).txnid ≠ 0 →
          (s'.pauseArray i).pauseTimes ≤ (h.record r e).pauses (s'.pauseArray i).txnid) ∧
        (∀ i, s'.indexPauseArray < i → (s'.pauseArray i).txnid = 0) ∧
        ∀ x, h.pauses x = 0 → (∀ a ∈ r.server.table.allocated, (r.server.cell a).parentTxn ≠ x) →
          (h.record r e).pauses x = 0 by
      refine ⟨hsuff.1, hsuff.2.1, ?_, hlive⟩
      intro x hx0 hx hnone
      obtain ⟨hx', hnone'⟩ := owned_nothing hs hstep hx0 hx hnone
      exact hsuff.2.2 x (hc.idle x hx0 hx' hnone') hnone'
    -- a transaction with files owns a record
    have howns : ∀ n, searchTxn t r.server.headTxnList = some n → n.fileRecNo ≠ none →
        ∃ a ∈ r.server.table.allocated, (r.server.cell a).parentTxn = t := by
      intro n hn hfiles
      by_contra hno
      push Not at hno
      exact hfiles ((hs.fileRecNo_eq_none_iff (searchTxn_mem hn)).mpr fun a ha hat =>
        hno a ha (hat.trans (searchTxn_id hn)))
    cases hspec with
    | noGrant hpauses hnot hpass =>
      -- no pause and no grant, so nothing is recorded
      have hsame : h.record r e = h := by
        rw [hrecord]
        cases out with
        | granted a => exact absurd rfl (hnot a)
        | paused => exact absurd (.inl rfl) hpass
        | _ => rfl
      rw [hpauses.1, hpauses.2, hsame]
      exact ⟨hc.counted, hc.unused, fun _ hx _ => hx⟩
    | aborted ht0 hn hfiles hne hlimit hpauses =>
      rw [hpauses.1, hpauses.2, hrecord]
      exact ⟨hc.counted, hc.unused, fun _ hx _ => hx⟩
    | paused ht0 hn hfiles hret hpauses =>
      rw [hpauses.1, hpauses.2, hrecord]
      -- one entry at most changes, and it becomes the entry of `t`
      obtain ⟨hentries, hindex⟩ := Server.pause_entries (k := h.pauses t) hret (Int.natCast_nonneg _)
        (fun i hi => hi ▸ hc.counted i (hi ▸ ht0)) (fun i hi => (hc.unused i hi).trans_ne ht0.symm)
      refine ⟨fun i hi => ?_, fun i hi => ?_, fun x hx hnone => ?_⟩
      · rcases hentries i with hsame | ⟨hid, htimes, -⟩
        · rw [hsame] at hi ⊢
          have hold := hc.counted i hi
          show _ ≤ ((Function.update h.pauses t (h.pauses t + 1)) _ : Int)
          by_cases hit : (r.server.pauseArray i).txnid = t
          · -- a second entry of `t` was counted before this pause
            rw [hit, Function.update_self]
            rw [hit] at hold
            push_cast
            omega
          · rw [Function.update_of_ne hit]
            exact hold
        · show _ ≤ ((Function.update h.pauses t (h.pauses t + 1)) _ : Int)
          rw [hid, Function.update_self]
          push_cast
          exact htimes
      · rcases hentries i with hsame | ⟨-, -, hle⟩
        · rw [hsame]
          exact hc.unused i (Nat.lt_of_le_of_lt hindex hi)
        · omega
      · -- `t` owns a record, so it is not the transaction without one
        obtain ⟨a, ha, hat⟩ := howns _ hn hfiles
        have hxt : x ≠ t := fun hxt => hnone a ha (hat.trans hxt.symm)
        show Function.update h.pauses t (h.pauses t + 1) x = 0
        rw [Function.update_of_ne hxt]
        exact hx
    | @uncompared a hpauses hwhy =>
      -- the grant leaves the array alone, but it may start the count of `t` again
      have hreset : ∀ x, (h.answered r t req (.granted a)).pauses x = _ :=
        Decisions.grant_pauses (h := h)
      rw [hpauses.1, hpauses.2, hrecord]
      refine ⟨fun i hi => ?_, hc.unused, fun x hx _ => ?_⟩
      · have hold := hc.counted i hi
        rw [hreset]
        split
        · exact hold
        · -- the first file of the transaction
          rename_i hnot
          rw [not_or, not_not] at hnot
          obtain ⟨hun, hit⟩ := hnot
          obtain ⟨n, hn, hnone⟩ := (hwhy.resolve_left (hit ▸ hi)).resolve_left hun
          have hlive : t ∈ r.server.headTxnList.map TxnNode.txnId := by
            rw [← searchTxn_id hn]
            exact List.mem_map_of_mem (searchTxn_mem hn)
          have hidle := hc.idle t (hit ▸ hi) (hc.live t hlive (hit ▸ hi)) fun b hb hbt =>
            (hs.fileRecNo_eq_none_iff (searchTxn_mem hn)).mp hnone b hb
              (hbt.trans (searchTxn_id hn).symm)
          rw [hit, hidle] at hold
          exact hold
      · rw [hreset]
        split
        · exact hx
        · rfl
    | @compared a hpauses hchecked =>
      -- the compared grant nullifies the entries of `t` and starts its count again
      have hreset : ∀ x, (h.answered r t req (.granted a)).pauses x = _ :=
        Decisions.grant_pauses (h := h)
      rw [hpauses.1, hpauses.2, hrecord]
      refine ⟨fun i hi => ?_, fun i hi => ?_, fun x hx _ => ?_⟩
      · simp only [Server.nullifyPause] at hi ⊢
        split
        · exact Int.natCast_nonneg _
        · rename_i hnot
          rw [if_neg hnot] at hi
          rw [hreset, if_pos]
          · exact hc.counted i hi
          · -- an entry of the transaction is nullified
            refine .inr fun hit => hnot ⟨?_, hit⟩
            by_contra hlt
            exact hi (hc.unused i (Nat.lt_of_not_le hlt))
      · -- behind the index all entries are unused, before and after
        simp only [Server.nullifyPause] at hi ⊢
        rw [if_neg fun hle => Nat.not_le_of_lt hi hle.1]
        exact hc.unused i hi
      · rw [hreset]
        split
        · exact hx
        · rfl

end

end TxFS
