import Mathlib.Data.List.Nodup
import TxFS.Sessions.Lookups

/-!
# Transaction Ids

The id of a transaction is whatever the client sends with `txn_beg`: `assign_new_txnid` is
not called, and `new_txn_insert` puts a node with an id that is already in the list behind
the first. Handlers start with id 0, which is reserved for the backup. Where the clients keep
their ids apart and look nothing up before `txn_beg`, the ids are distinct and id 0 is the
backup's (`ids_distinct`).
-/

namespace TxFS

open GuardedRun

namespace Sessions

variable {s s' : Sessions} {e : Event} {k : Int} {ns ns' : List TxnNode}

/-! ## The property -/

/-- The handler is inside `on_bck_beg`. -/
def Conn.isBackup (c : Conn) : Bool :=
  match c.current with
  | some (.bckBeg _ _) => true
  | _ => false

/-- The ids are distinct, what runs under id 0 is a backup, and the node with id 0 is there
    only during a backup. -/
structure Identified (s : Sessions) : Prop where
  distinct : (s.headTxnList.map TxnNode.txnId).Nodup
  onlyBackup : ∀ c ∈ s.conns, ∀ op ∈ c.work, op.txnid = 0 → c.isBackup = true
  backupLives : 0 ∈ s.headTxnList.map TxnNode.txnId → ∃ c ∈ s.conns, c.isBackup ∧ c.work ≠ []

instance (s : Sessions) : Decidable s.Identified :=
  decidable_of_iff
    ((s.headTxnList.map TxnNode.txnId).Nodup ∧
      (∀ c ∈ s.conns, ∀ op ∈ c.work, op.txnid = 0 → c.isBackup = true) ∧
      (0 ∈ s.headTxnList.map TxnNode.txnId → ∃ c ∈ s.conns, c.isBackup ∧ c.work ≠ []))
    ⟨fun ⟨h₁, h₂, h₃⟩ => ⟨h₁, h₂, h₃⟩, fun ⟨h₁, h₂, h₃⟩ => ⟨h₁, h₂, h₃⟩⟩

/-! ## The condition -/

/-- The handler is about to insert a node with the id. -/
def Conn.inserts (k : Int) (c : Conn) : Bool :=
  match c.work with
  | ⟨.newTxnInsert _, t⟩ :: _ => t = k
  | _ => false

/-- The number of handlers about to insert a node with the id. -/
def pending (s : Sessions) (k : Int) : Nat := s.conns.countP (Conn.inserts k)

/-- The id is in the list, or is going to be. -/
def Taken (s : Sessions) (k : Int) : Prop := 0 < s.live k + s.pending k

instance (s : Sessions) (k : Int) : Decidable (s.Taken k) :=
  inferInstanceAs (Decidable (0 < _))

/-- The id of the node a request inserts. -/
def Request.inserted : Request → Option Int
  | .txnBeg id _ => some id
  | .bckBeg _ _ => some 0
  | _ => none

/-- The request is a `txn_beg`. -/
def Request.begins : Request → Bool
  | .txnBeg _ _ => true
  | _ => false

/-- **The condition**: the id of a `txn_beg` is not 0 and not taken, a `bck_beg` comes when
    no backup runs, and a request that looks the transaction up comes to a handler that has
    an id. -/
def OwnId (s : Sessions) : Event → Prop
  | .request i r => ∀ c ∈ s.conns[i]?,
    (∀ id ∈ r.inserted, ¬ s.Taken id) ∧ (r.begins || r.looksUp → r.newId c.txnid ≠ 0)
  | _ => True

instance (s : Sessions) : ∀ e, Decidable (s.OwnId e)
  | .accept => isTrue trivial
  | .request i r => inferInstanceAs (Decidable (∀ c ∈ s.conns[i]?,
      (∀ id ∈ r.inserted, ¬ s.Taken id) ∧ (_ → r.newId c.txnid ≠ 0)))
  | .operate _ => isTrue trivial

/-! ## The invariant -/

/-- A backup that has its node, or is about to insert it. -/
def Conn.hasNode (c : Conn) : Bool := c.isBackup && c.work.contains ⟨.txnDelete, 0⟩

/-- One node for an id at most, counting those about to be inserted, id 0 for the backup
    alone, and a backup for each node with id 0. -/
structure Separate (s : Sessions) : Prop where
  atMostOne : ∀ k, s.live k + s.pending k ≤ 1
  onlyBackup : ∀ c ∈ s.conns, ∀ op ∈ c.work, op.txnid = 0 → c.isBackup = true
  backups : s.live 0 + s.pending 0 ≤ s.conns.countP Conn.hasNode

/-! ## The requests -/

/-- Everything in a request is under its id. -/
theorem Shape.id {ops : List ListOp} (h : Shape k ops) : ∀ op ∈ ops, op.txnid = k := by
  induction h with
  | done => simp
  | null => simp
  | delete => simp
  | deleteNull => simp
  | search _ _ _ ih =>
    intro op hop
    rcases List.mem_cons.mp hop with rfl | hop
    · rfl
    · exact ih op hop

/-- Only the first thing a handler does is an insertion. -/
theorem Shape.inserts {ops : List ListOp} (h : Shape k ops) {c : Conn} (hc : c.work = ops)
    (k' : Int) : c.inserts k' = false := by
  unfold Conn.inserts
  cases h with
  | done => rw [hc]
  | null => rw [hc]
  | delete => rw [hc]
  | deleteNull => rw [hc]
  | search hfn _ _ =>
    rw [hc]
    split
    · rename_i heq
      simp only [List.cons.injEq, ListOp.mk.injEq] at heq
      rw [heq.1.1] at hfn
      cases hfn
    · rfl

/-- A lock request that returns `NULL` has deleted the node. -/
theorem delete_mem_insertFileList (p : LockPath) (h : p.returnsNull = true) :
    ⟨.txnDelete, k⟩ ∈ insertFileList k p := by
  induction p with
  | held => cases h
  | granted => cases h
  | checked => cases h
  | victim => simp [insertFileList, onTxnAbort]
  | conflict => simp [insertFileList, onTxnAbort]
  | woken next ih => exact List.mem_cons_of_mem _ (ih h)
  | paused next ih => exact List.mem_cons_of_mem _ (List.mem_cons_of_mem _ (ih h))

/-- A backup ends with its node, whatever its lock requests meet. -/
theorem delete_mem_onlineBck (ps : List LockPath) : ⟨.txnDelete, 0⟩ ∈ onlineBck ps := by
  induction ps with
  | nil => simp [onlineBck]
  | cons p ps ih =>
    rw [onlineBck, List.mem_append]
    cases hnull : p.returnsNull with
    | true => exact .inl (delete_mem_insertFileList p hnull)
    | false => exact .inr (List.mem_cons_of_mem _ ih)

/-- A new request is about to insert at most the id that `Request.inserted` names. -/
theorem inserted_of_inserts {r : Request} {txnid : Int} {c : Conn}
    (hc : c.work = r.ops txnid) (hk : c.inserts k = true) : r.inserted = some k := by
  cases hlook : r.looksUp with
  | true =>
    rw [(shape_ops hlook).inserts hc k] at hk
    cases hk
  | false =>
    unfold Conn.inserts at hk
    rw [hc] at hk
    cases r with
    | txnBeg id lrn => exact congrArg some (of_decide_eq_true hk)
    | bckBeg lrn ps => exact congrArg some (of_decide_eq_true hk)
    | quit => cases hk
    | write => cases hk
    | lseek => cases hk
    | read => cases hk
    | inodeStat => cases hk
    | _ => cases hlook

/-! ## The steps -/

theorem separate_accept (hs : s.Separate) :
    Separate { s with conns := s.conns ++ [Conn.new] } where
  atMostOne := by
    intro k
    show s.live k + (s.conns ++ [Conn.new]).countP (Conn.inserts k) ≤ 1
    rw [List.countP_append]
    exact hs.atMostOne k
  onlyBackup := by
    intro c hc op hop
    rcases List.mem_append.mp hc with hc | hc
    · exact hs.onlyBackup c hc op hop
    · rw [List.mem_singleton.mp hc] at hop
      cases hop
  backups := by
    show s.live 0 + (s.conns ++ [Conn.new]).countP (Conn.inserts 0) ≤
      (s.conns ++ [Conn.new]).countP Conn.hasNode
    rw [List.countP_append, List.countP_append]
    exact hs.backups

/-- A new request inserts an id that is not taken, and a backup will delete its node. -/
theorem separate_request {i : Nat} {r : Request} {c : Conn} (hs : s.Separate)
    (hc : s.conns[i]? = some c) (hwork : c.work = []) (hok : s.OwnId (.request i r)) :
    Separate { s with conns := s.conns.set i ⟨r.newId c.txnid, some r, r.ops c.txnid⟩ } := by
  obtain ⟨hfresh, hid⟩ := hok c hc
  generalize hc' : (⟨r.newId c.txnid, some r, r.ops c.txnid⟩ : Conn) = c'
  have hidle : ∀ k, c.inserts k = false := Shape.done.inserts (k := 0) hwork
  have hnone : c.hasNode = false := by simp [Conn.hasNode, hwork]
  have hins : ∀ k, c'.inserts k = true → r.inserted = some k := fun k =>
    inserted_of_inserts (congrArg Conn.work hc'.symm)
  have hpend : ∀ k, (s.conns.set i c').countP (Conn.inserts k) =
      s.pending k + if c'.inserts k then 1 else 0 := by
    intro k
    have hcount := countP_set_add c' (Conn.inserts k) hc
    rw [hidle k] at hcount
    exact hcount
  have hback := countP_set_add c' Conn.hasNode hc
  simp only [hnone, Bool.false_eq_true, if_false, Nat.add_zero] at hback
  refine ⟨?_, ?_, ?_⟩
  · intro k
    show s.live k + (s.conns.set i c').countP (Conn.inserts k) ≤ 1
    rw [hpend k]
    have hone := hs.atMostOne k
    by_cases hk : c'.inserts k = true
    · have hfree : ¬ 0 < s.live k + s.pending k := hfresh k (hins k hk)
      rw [if_pos hk]
      omega
    · rw [if_neg hk]
      exact hone
  · intro d hd op hop hzero
    rcases List.mem_or_eq_of_mem_set hd with hd | rfl
    · exact hs.onlyBackup d hd op hop hzero
    subst hc'
    cases hlook : r.looksUp with
    | true =>
      -- under the handler's id, which is not 0
      have hop_id : op.txnid = c.txnid := (shape_ops hlook).id op hop
      have hne : r.newId c.txnid ≠ 0 := hid (by simp [hlook])
      have hnew : r.newId c.txnid = c.txnid := by
        cases r with
        | txnBeg id lrn => cases hlook
        | _ => rfl
      exact absurd (hop_id.symm.trans hzero) (hnew ▸ hne)
    | false =>
      cases r with
      | txnBeg id lrn =>
        have hop_id : op.txnid = id := by
          rw [List.mem_singleton.mp hop]
        exact absurd (hop_id.symm.trans hzero) (hid rfl)
      | bckBeg lrn ps => rfl
      | quit => cases hop
      | write => cases hop
      | lseek => cases hop
      | read => cases hop
      | inodeStat => cases hop
      | _ => cases hlook
  · show s.live 0 + (s.conns.set i c').countP (Conn.inserts 0) ≤
      (s.conns.set i c').countP Conn.hasNode
    rw [hpend 0]
    have hle := hs.backups
    by_cases hk : c'.inserts 0 = true
    · -- only `bck_beg` inserts the id 0
      have hnode : c'.hasNode = true := by
        have hzero := hins 0 hk
        subst hc'
        cases r with
        | txnBeg id lrn => exact absurd (Option.some.inj hzero) (hid rfl)
        | bckBeg lrn ps =>
          have hmem : ⟨.txnDelete, 0⟩ ∈ onBckBeg lrn ps :=
            List.mem_cons_of_mem _ (delete_mem_onlineBck ps)
          simp [Conn.hasNode, Conn.isBackup, Request.ops, hmem]
        | _ => cases hzero
      rw [if_pos hk]
      rw [if_pos hnode] at hback
      omega
    · rw [if_neg hk]
      omega

/-- **What going on with a request means for the counts**: nodes and pending insertions stay
    the same together, or the handler deletes a node and is done. -/
theorem operate_cases {c : Conn} {op : ListOp} {ops : List ListOp} (hshaped : c.Shaped)
    (hwork : c.work = op :: ops) (hns : op.run s.headTxnList = some ns) :
    ((∀ k, ns.countP (fun n => n.txnId = k) +
        (if Conn.inserts k { c with work := ops } then 1 else 0) =
          s.live k + if c.inserts k then 1 else 0) ∧
      Conn.hasNode { c with work := ops } = c.hasNode) ∨
    ((∀ k, ns.countP (fun n => n.txnId = k) +
        (if Conn.inserts k { c with work := ops } then 1 else 0) + (if op.txnid = k then 1 else 0) =
          s.live k + if c.inserts k then 1 else 0) ∧
      Conn.hasNode { c with work := ops } = false ∧
      c.hasNode = (c.isBackup && decide (op.txnid = 0))) := by
  have hnode : c.hasNode = (c.isBackup && (op :: ops).contains ⟨.txnDelete, 0⟩) := by
    rw [Conn.hasNode, hwork]
  cases hshaped with
  | running k₀ hshape =>
    have hnot : ∀ k, c.inserts k = false := hshape.inserts rfl
    rw [hwork] at hshape
    cases hshape with
    | null => cases hns
    | delete =>
      right
      refine ⟨?_, by simp [Conn.hasNode], by simpa [eq_comm] using hnode⟩
      intro k
      have hdel : s.live k = _ := countP_txnDelete (k := k) (t := k₀) hns
      rw [hnot k, hdel]
      rfl
    | deleteNull =>
      right
      refine ⟨?_, by simp [Conn.hasNode], by simpa [eq_comm] using hnode⟩
      intro k
      have hdel : s.live k = _ := countP_txnDelete (k := k) (t := k₀) hns
      rw [hnot k, hdel]
      rfl
    | search hfn hne hops =>
      left
      have hsame := run_search hfn hne hns
      subst hsame
      refine ⟨?_, ?_⟩
      · intro k
        rw [hnot k, hops.inserts rfl k]
        rfl
      · rw [hnode]
        simp [Conn.hasNode, Conn.isBackup, hne.symm]
  | inserting k₀ lrn ops' hins hshape =>
    left
    rw [hwork, List.cons.injEq] at hins
    obtain ⟨rfl, rfl⟩ := hins
    refine ⟨?_, ?_⟩
    · intro k
      have hcount : ns.countP (fun n => n.txnId = k) = s.live k + if k₀ = k then 1 else 0 := by
        rw [← Option.some.inj hns]
        exact countP_newTxnInsert
      have hc : c.inserts k = decide (k₀ = k) := by
        rw [Conn.inserts, hwork]
      rw [hcount, hc, hshape.inserts rfl k]
      simp
    · rw [hnode]
      simp [Conn.hasNode, Conn.isBackup]

theorem separate_operate {i : Nat} {c : Conn} {op : ListOp} {ops : List ListOp}
    (hs : s.Separate) (hshaped : c.Shaped) (hc : s.conns[i]? = some c) (hwork : c.work = op :: ops)
    (hns : op.run s.headTxnList = some ns) :
    Separate { s with headTxnList := ns, conns := s.conns.set i { c with work := ops } } := by
  have hmem : c ∈ s.conns := List.mem_of_getElem? hc
  have hpend : ∀ k, (s.conns.set i { c with work := ops }).countP (Conn.inserts k) +
      (if c.inserts k then 1 else 0) =
        s.pending k + if Conn.inserts k { c with work := ops } then 1 else 0 :=
    fun k => countP_set_add _ (Conn.inserts k) hc
  have hback := countP_set_add { c with work := ops } Conn.hasNode hc
  have hone := hs.atMostOne
  have hle := hs.backups
  -- the counts of nodes and of pending insertions together, and those of the backups
  have hcounts : (∀ k, ns.countP (fun n => n.txnId = k) +
      (s.conns.set i { c with work := ops }).countP (Conn.inserts k) ≤ 1) ∧
      ns.countP (fun n => n.txnId = 0) +
        (s.conns.set i { c with work := ops }).countP (Conn.inserts 0) ≤
          (s.conns.set i { c with work := ops }).countP Conn.hasNode := by
    rcases operate_cases hshaped hwork hns with ⟨hsum, hsame⟩ | ⟨hsum, hdone, hnode⟩
    · constructor
      · intro k
        have := hpend k
        have := hsum k
        have := hone k
        omega
      · have := hpend 0
        have := hsum 0
        rw [hsame] at hback
        omega
    · constructor
      · intro k
        have := hpend k
        have := hsum k
        have := hone k
        omega
      · have := hpend 0
        have hsum := hsum 0
        simp only [hdone, Bool.false_eq_true, if_false, Nat.add_zero] at hback
        by_cases hzero : op.txnid = 0
        · -- what runs under id 0 is a backup
          have hbck : c.isBackup = true :=
            hs.onlyBackup c hmem op (hwork ▸ List.mem_cons_self ..) hzero
          simp only [hnode, hbck, hzero, decide_true, Bool.and_self, if_true] at hback
          rw [if_pos hzero] at hsum
          omega
        · simp only [hnode, hzero, decide_false, Bool.and_false, Bool.false_eq_true, if_false,
            Nat.add_zero] at hback
          rw [if_neg hzero] at hsum
          omega
  refine ⟨hcounts.1, ?_, hcounts.2⟩
  intro d hd op' hop' hzero
  rcases List.mem_or_eq_of_mem_set hd with hd | rfl
  · exact hs.onlyBackup d hd op' hop' hzero
  · exact hs.onlyBackup c hmem op' (hwork ▸ List.mem_cons_of_mem _ hop') hzero

theorem separate_step (hshaped : s.AllShaped) (hs : s.Separate) (hok : s.OwnId e)
    (h : s.step e = some s') : s'.Separate := by
  obtain ⟨-, rfl⟩ | ⟨i, r, c, rfl, hc, hwork, rfl⟩ | ⟨i, c, op, ops, ns, -, hc, hwork, hns, rfl⟩ :=
    step_cases h
  · exact separate_accept hs
  · exact separate_request hs hc hwork hok
  · exact separate_operate hs (hshaped c (List.mem_of_getElem? hc)) hc hwork hns

/-! ## Runs -/

/-- **The invariant in every run under the condition**. -/
theorem separate_of_reachable (h : ReachableUnder globalInit step OwnId s) : s.Separate := by
  refine h.invariant (P := Separate) ?_ ?_
  · refine ⟨fun k => Nat.zero_le 1, ?_, Nat.le_refl _⟩
    intro c hc
    cases hc
  · intro s e s' hreach hs hok hstep
    exact separate_step (shaped_of_reachable hreach) hs hok hstep

theorem identified_of_separate (hs : s.Separate) : s.Identified where
  distinct := by
    rw [List.nodup_iff_count_le_one]
    intro k
    have hone := hs.atMostOne k
    have hcount : (s.headTxnList.map TxnNode.txnId).count k = s.live k := by
      rw [List.count_eq_countP, List.countP_map]
      exact List.countP_congr fun n _ => by simp
    omega
  onlyBackup := hs.onlyBackup
  backupLives := by
    intro hzero
    obtain ⟨n, hn, hn0⟩ := List.mem_map.mp hzero
    have hlive : 0 < s.live 0 := List.countP_pos_iff.mpr ⟨n, hn, decide_eq_true hn0⟩
    have hle := hs.backups
    obtain ⟨c, hc, hnode⟩ := List.countP_pos_iff.mp (show 0 < s.conns.countP Conn.hasNode by omega)
    rw [Conn.hasNode, Bool.and_eq_true] at hnode
    refine ⟨c, hc, hnode.1, ?_⟩
    intro hnil
    rw [hnil] at hnode
    cases hnode.2

/-- **The ids are distinct and id 0 is the backup's** in a run whose requests all meet the
    condition. -/
theorem ids_distinct (h : ReachableUnder globalInit step OwnId s) : s.Identified :=
  identified_of_separate (separate_of_reachable h)

/-- A backup next to two transactions. -/
theorem ids_distinct_during_backup :
    ∃ s, (ReachableUnder globalInit step OwnId s ∧
      s.headTxnList.map TxnNode.txnId = [0, 3, 7]) ∧ s.Identified := by
  obtain ⟨s, hs, hids⟩ := exists_of_runUnder globalInit step OwnId
    (fun s => s.headTxnList.map TxnNode.txnId = [0, 3, 7])
    [.accept, .accept, .accept, .request 0 (.txnBeg 7 0), .request 1 (.txnBeg 3 66), .operate 1,
     .operate 0, .request 2 (.bckBeg 132 [.granted, .woken .granted]), .operate 2, .operate 2]
    (by decide)
  exact ⟨s, ⟨hs, hids⟩, ids_distinct hs⟩

/-- Two clients begin with the same id. -/
theorem same_id_twice : ¬ ∀ s, Reachable globalInit step s → s.Identified := by
  intro h
  obtain ⟨s, hs, htwice⟩ := exists_of_run globalInit step (fun s => ¬ s.Identified)
    [.accept, .accept, .request 0 (.txnBeg 5 0), .operate 0, .request 1 (.txnBeg 5 66),
     .operate 1] (by decide)
  exact htwice (h s hs)

end Sessions

end TxFS
