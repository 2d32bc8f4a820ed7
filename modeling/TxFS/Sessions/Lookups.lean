import TxFS.Sessions.Requests

/-!
# Searches for Dead Transactions

The searches of the transaction list have no test for its end. They rely on the list holding
a node for every request that is being served, and a request may delete the node it began
with: it may be a commit, or the server may abort the transaction on its own initiative. A
search is safe when the list has at least as many nodes with an id as there are handlers
inside requests under it (`no_search_off_the_list`).
-/

namespace TxFS

open GuardedRun

namespace Sessions

variable {s s' : Sessions} {e : Event} {k : Int} {ns ns' : List TxnNode}

/-! ## The shape of a request -/

/-- A request under one id: searches up to a deletion of the node, if there is one. -/
inductive Shape (k : Int) : List ListOp → Prop where
  | done : Shape k []
  | null : Shape k [⟨.nullRecord, k⟩]
  | delete : Shape k [⟨.txnDelete, k⟩]
  | deleteNull : Shape k [⟨.txnDelete, k⟩, ⟨.nullRecord, k⟩]
  | search {fn : ListFn} {ops : List ListOp} (hfn : fn.searches = true) (hne : fn ≠ .txnDelete)
      (hops : Shape k ops) : Shape k (⟨fn, k⟩ :: ops)

/-- What is left of the request of a handler. -/
inductive Conn.Shaped (c : Conn) : Prop where
  | running (k : Int) (h : Shape k c.work)
  | inserting (k logRecNo : Int) (ops : List ListOp)
      (hwork : c.work = ⟨.newTxnInsert logRecNo, k⟩ :: ops) (h : Shape k ops)

/-- `on_txn_abort` in front of the end of a request. -/
theorem shape_onTxnAbort {ops : List ListOp} (h : Shape k (⟨.txnDelete, k⟩ :: ops)) :
    Shape k (onTxnAbort k ++ ops) := by
  -- four searches and the deletion
  apply Shape.search rfl (by simp)
  apply Shape.search rfl (by simp)
  apply Shape.search rfl (by simp)
  exact Shape.search rfl (by simp) h

theorem shape_logCall : Shape k (logCall k) :=
  .search rfl (by simp) (.search rfl (by simp) .done)

theorem shape_onTxnCommit : Shape k (onTxnCommit k) := by
  apply Shape.search rfl (by simp)
  apply Shape.search rfl (by simp)
  apply Shape.search rfl (by simp)
  exact Shape.search rfl (by simp) .delete

/-- **`insert_file_list` in front of what its caller does**. -/
theorem shape_insertFileList {null rest : List ListOp} (p : LockPath)
    (hnull : Shape k (⟨.txnDelete, k⟩ :: null)) (hrest : Shape k rest) :
    Shape k (insertFileList k p ++ if p.returnsNull then null else rest) := by
  -- along the calls of `resume`
  induction p with
  | held => exact .search rfl (by simp) hrest
  | granted => exact .search rfl (by simp) (.search rfl (by simp) hrest)
  | checked =>
    exact .search rfl (by simp) (.search rfl (by simp) (.search rfl (by simp) hrest))
  | victim => exact .search rfl (by simp) (shape_onTxnAbort hnull)
  | conflict =>
    exact .search rfl (by simp) (.search rfl (by simp) (shape_onTxnAbort hnull))
  | woken next ih => exact .search rfl (by simp) ih
  | paused next ih => exact .search rfl (by simp) (.search rfl (by simp) ih)

theorem shape_insertAll {rest : List ListOp} (ps : List LockPath) (hrest : Shape k rest) :
    Shape k (insertAll k rest ps) := by
  induction ps with
  | nil => exact hrest
  | cons p ps ih => exact shape_insertFileList p .delete ih

theorem shape_onlineBck (ps : List LockPath) : Shape 0 (onlineBck ps) := by
  induction ps with
  | nil => exact .search rfl (by simp) .delete
  | cons p ps ih =>
    exact shape_insertFileList p .deleteNull (.search rfl (by simp) ih)

theorem shape_onTxnAbort_end : Shape k (onTxnAbort k) := by
  have h : Shape k (onTxnAbort k ++ []) := shape_onTxnAbort .delete
  exact h

/-- A request that looks the transaction up works under the handler's id. -/
theorem shape_ops {r : Request} {txnid : Int} (h : r.looksUp = true) :
    Shape txnid (r.ops txnid) := by
  cases r with
  | «open» lock opened =>
    apply shape_insertAll
    cases opened with
    | true => exact .done
    | false => exact shape_onTxnAbort_end
  | txnCommit => exact shape_onTxnCommit
  | txnAbort => exact shape_onTxnAbort_end
  | rename found newParentFound locks =>
    show Shape txnid (if found && newParentFound then _ else _)
    split
    · exact shape_insertAll locks shape_logCall
    · exact shape_onTxnAbort_end
  | creat parent => exact shape_insertAll _ shape_logCall
  | unlink parent child => exact shape_insertAll _ shape_logCall
  | stat found lock =>
    cases found with
    | true => exact shape_insertAll _ .done
    | false => exact shape_onTxnAbort_end
  | _ => cases h

/-- The other requests do nothing with the list or begin with an insertion. -/
theorem ops_of_not_looksUp {r : Request} (txnid : Int) (h : r.looksUp = false) :
    r.ops txnid = [] ∨
      ∃ k logRecNo ops, r.ops txnid = ⟨.newTxnInsert logRecNo, k⟩ :: ops ∧ Shape k ops := by
  cases r with
  | txnBeg id logRecNo => exact .inr ⟨id, logRecNo, [], rfl, .done⟩
  | bckBeg logRecNo paths => exact .inr ⟨0, logRecNo, onlineBck paths, rfl, shape_onlineBck paths⟩
  | quit => exact .inl rfl
  | write => exact .inl rfl
  | lseek => exact .inl rfl
  | read => exact .inl rfl
  | inodeStat => exact .inl rfl
  | _ => cases h

/-! ## One event -/

/-- What an event does. -/
theorem step_cases (h : s.step e = some s') :
    (e = .accept ∧ s' = { s with conns := s.conns ++ [Conn.new] }) ∨
    (∃ i r c, e = .request i r ∧ s.conns[i]? = some c ∧ c.work = [] ∧
      s' = { s with conns := s.conns.set i ⟨r.newId c.txnid, some r, r.ops c.txnid⟩ }) ∨
    (∃ i c op ops ns, e = .operate i ∧ s.conns[i]? = some c ∧ c.work = op :: ops ∧
      op.run s.headTxnList = some ns ∧
      s' = { s with headTxnList := ns, conns := s.conns.set i { c with work := ops } }) := by
  cases e with
  | accept => exact .inl ⟨rfl, (Option.some.inj h).symm⟩
  | request i r =>
    simp only [step, Option.bind_eq_bind, Option.bind_eq_some_iff] at h
    obtain ⟨c, hc, h⟩ := h
    split at h
    · rename_i hready
      exact .inr (.inl ⟨i, r, c, rfl, hc, hready.1, (Option.some.inj h).symm⟩)
    · cases h
  | operate i =>
    simp only [step, Option.bind_eq_bind, Option.bind_eq_some_iff] at h
    obtain ⟨c, hc, h⟩ := h
    split at h
    · cases h
    · rename_i op ops hwork
      simp only [Option.bind_eq_some_iff, Option.some.injEq] at h
      obtain ⟨ns, hns, rfl⟩ := h
      exact .inr (.inr ⟨i, c, op, ops, ns, rfl, hc, hwork, hns, rfl⟩)

/-- Replacing one connection changes a count by that connection. -/
theorem countP_set_add {conns : List Conn} {i : Nat} {c : Conn} (c' : Conn) (p : Conn → Bool)
    (hc : conns[i]? = some c) :
    (conns.set i c').countP p + (if p c then 1 else 0) =
      conns.countP p + (if p c' then 1 else 0) := by
  obtain ⟨hi, rfl⟩ := List.getElem?_eq_some_iff.mp hc
  have hle : (if p conns[i] then 1 else 0) ≤ conns.countP p := List.boole_getElem_le_countP hi
  rw [List.countP_set hi]
  omega

/-- Every handler is inside a request of the shape above. -/
def AllShaped (s : Sessions) : Prop := ∀ c ∈ s.conns, c.Shaped

theorem shaped_step (hs : s.AllShaped) (h : s.step e = some s') : s'.AllShaped := by
  obtain ⟨-, rfl⟩ | ⟨i, r, c, -, hc, -, rfl⟩ | ⟨i, c, op, ops, ns, -, hc, hwork, -, rfl⟩ :=
    step_cases h
  · intro c hmem
    rcases List.mem_append.mp hmem with hmem | hmem
    · exact hs c hmem
    · rw [List.mem_singleton.mp hmem]
      exact .running 0 .done
  · intro c' hmem
    rcases List.mem_or_eq_of_mem_set hmem with hmem | rfl
    · exact hs c' hmem
    cases hlook : r.looksUp with
    | true => exact .running c.txnid (shape_ops hlook)
    | false =>
      rcases ops_of_not_looksUp c.txnid hlook with hnil | ⟨k, lrn, ops, hops, hshape⟩
      · exact .running 0 (hnil.symm ▸ .done)
      · exact .inserting k lrn ops hops hshape
  · intro c' hmem
    rcases List.mem_or_eq_of_mem_set hmem with hmem | rfl
    · exact hs c' hmem
    cases hs c (List.mem_of_getElem? hc) with
    | running k hshape =>
      rw [hwork] at hshape
      cases hshape with
      | null => exact .running k .done
      | delete => exact .running k .done
      | deleteNull => exact .running k .null
      | search hfn hne hops => exact .running k hops
    | inserting k lrn ops' hins hshape =>
      rw [hwork, List.cons.injEq] at hins
      exact .running k (hins.2.symm ▸ hshape)

/-! ## Nodes and requests under an id -/

/-- The number of nodes with the id. -/
def live (s : Sessions) (k : Int) : Nat := s.headTxnList.countP fun n => n.txnId = k

/-- The next thing the handler does is a search for the id. -/
def Conn.inside (k : Int) (c : Conn) : Bool :=
  c.work.head?.any fun op => op.fn.searches && op.txnid = k

/-- The number of handlers inside a request under the id. -/
def running (s : Sessions) (k : Int) : Nat := s.conns.countP (Conn.inside k)

theorem searchTxn_isSome_iff : (searchTxn k ns).isSome ↔ 0 < ns.countP fun n => n.txnId = k := by
  rw [searchTxn, List.find?_isSome, List.countP_pos_iff]

theorem countP_newTxnInsert {t lrn : Int} :
    (newTxnInsert t lrn ns).countP (fun n => n.txnId = k) =
      ns.countP (fun n => n.txnId = k) + if t = k then 1 else 0 := by
  rw [newTxnInsert_perm.countP_eq, List.countP_cons]
  by_cases ht : t = k
  · simp [getTxnNode, ht]
  · simp [getTxnNode, ht]

theorem countP_txnDelete {t : Int} (h : txnDelete t ns = some ns') :
    ns.countP (fun n => n.txnId = k) =
      ns'.countP (fun n => n.txnId = k) + if t = k then 1 else 0 := by
  obtain ⟨n, rfl, hperm⟩ := txnDelete_perm h
  rw [hperm.countP_eq, List.countP_cons]
  simp

/-- A search leaves the list as it is, unless it is for a deletion. -/
theorem run_search {op : ListOp} (hfn : op.fn.searches = true) (hne : op.fn ≠ .txnDelete)
    (h : op.run ns = some ns') : ns' = ns := by
  obtain ⟨fn, t⟩ := op
  have hmap : (searchTxn t ns).map (fun _ => ns) = some ns' := by
    cases fn with
    | newTxnInsert lrn => cases hfn
    | nullRecord => cases hfn
    | txnDelete => exact absurd rfl hne
    | _ => exact h
  obtain ⟨-, -, rfl⟩ := Option.map_eq_some_iff.mp hmap
  rfl

/-- The request goes on under its own id. -/
theorem id_of_head {ops : List ListOp} (hshape : Shape k ops) {k' : Int}
    (h : (ops.head?.any fun op => op.fn.searches && op.txnid = k') = true) : k = k' := by
  cases hshape with
  | done => cases h
  | null => cases h
  | delete => simpa [ListFn.searches] using h
  | deleteNull => simpa [ListFn.searches] using h
  | search hfn hne hops => simpa [hfn] using h

/-! ## The condition -/

/-- **The condition**: a handler takes a request that looks its transaction up only while
    there are more nodes with its id than handlers inside requests under that id. -/
def HasNode (s : Sessions) : Event → Prop
  | .request i r => ∀ c ∈ s.conns[i]?, r.looksUp = true → s.running c.txnid < s.live c.txnid
  | _ => True

instance (s : Sessions) : ∀ e, Decidable (s.HasNode e)
  | .accept => isTrue trivial
  | .request i r => inferInstanceAs (Decidable (∀ c ∈ s.conns[i]?, r.looksUp = true → _))
  | .operate _ => isTrue trivial

/-- A node for every handler inside a request. -/
def Covered (s : Sessions) : Prop := ∀ k, s.running k ≤ s.live k

theorem covered_accept (hs : s.Covered) :
    Covered { s with conns := s.conns ++ [Conn.new] } := by
  intro k
  show (s.conns ++ [Conn.new]).countP (Conn.inside k) ≤ s.live k
  rw [List.countP_append]
  exact hs k

/-- A new request: one more handler under its id, for which the condition has a node. -/
theorem covered_request {i : Nat} {r : Request} {c : Conn} (hs : s.Covered)
    (hc : s.conns[i]? = some c) (hok : s.HasNode (.request i r)) :
    Covered { s with conns := s.conns.set i ⟨r.newId c.txnid, some r, r.ops c.txnid⟩ } := by
  intro k
  have hcount := countP_set_add ⟨r.newId c.txnid, some r, r.ops c.txnid⟩
    (Conn.inside k) hc
  show (s.conns.set i _).countP (Conn.inside k) ≤ s.live k
  have hsk : s.conns.countP (Conn.inside k) ≤ s.live k := hs k
  by_cases hin : Conn.inside k ⟨r.newId c.txnid, some r, r.ops c.txnid⟩ = true
  · cases hlook : r.looksUp with
    | true =>
      -- the request is under the handler's id
      have hid : c.txnid = k := id_of_head (shape_ops hlook) hin
      have hroom : s.running c.txnid < s.live c.txnid := hok c hc hlook
      rw [hid] at hroom
      have hroom' : s.conns.countP (Conn.inside k) < s.live k := hroom
      rw [if_pos hin] at hcount
      omega
    | false =>
      rcases ops_of_not_looksUp c.txnid hlook with hnil | ⟨_, _, _, hops, -⟩
      · simp [Conn.inside, hnil] at hin
      · simp [Conn.inside, hops, ListFn.searches] at hin
  · rw [if_neg hin] at hcount
    omega

/-- The request goes on: the handler stays under its id until it deletes the node. -/
theorem covered_operate {i : Nat} {c : Conn} {op : ListOp} {ops : List ListOp}
    (hs : s.Covered) (hshaped : c.Shaped) (hc : s.conns[i]? = some c) (hwork : c.work = op :: ops)
    (hns : op.run s.headTxnList = some ns) :
    Covered { s with headTxnList := ns, conns := s.conns.set i { c with work := ops } } := by
  intro k
  have hcount := countP_set_add { c with work := ops } (Conn.inside k) hc
  have hsk : s.conns.countP (Conn.inside k) ≤ s.headTxnList.countP (fun n => n.txnId = k) := hs k
  show (s.conns.set i _).countP (Conn.inside k) ≤ ns.countP fun n => n.txnId = k
  have hbefore : Conn.inside k c = (op.fn.searches && op.txnid = k) := by
    simp [Conn.inside, hwork]
  have hdelete : ∀ k₀, txnDelete k₀ s.headTxnList = some ns →
      s.headTxnList.countP (fun n => n.txnId = k) =
        ns.countP (fun n => n.txnId = k) + if k₀ = k then 1 else 0 := fun k₀ h => countP_txnDelete h
  rw [hbefore] at hcount
  cases hshaped with
  | running k₀ hshape =>
    rw [hwork] at hshape
    cases hshape with
    | null => cases hns
    | delete =>
      -- one node and one handler less under the id
      have hdel := hdelete k₀ hns
      simp [ListFn.searches, Conn.inside] at hcount
      omega
    | deleteNull =>
      have hdel := hdelete k₀ hns
      simp [ListFn.searches, Conn.inside] at hcount
      omega
    | search hfn hne hops =>
      have hsame := run_search hfn hne hns
      subst hsame
      by_cases hin : Conn.inside k { c with work := ops } = true
      · have hid : k₀ = k := id_of_head hops hin
        simp [hfn, hid, hin] at hcount
        omega
      · rw [if_neg hin] at hcount
        omega
  | inserting k₀ lrn ops' hins hshape =>
    rw [hwork, List.cons.injEq] at hins
    obtain ⟨rfl, rfl⟩ := hins
    have hins : ns.countP (fun n => n.txnId = k) =
        s.headTxnList.countP (fun n => n.txnId = k) + if k₀ = k then 1 else 0 := by
      rw [← Option.some.inj hns]
      exact countP_newTxnInsert
    by_cases hin : Conn.inside k { c with work := ops } = true
    · -- the backup begins to search for the node it has inserted
      have hid : k₀ = k := id_of_head hshape hin
      simp [ListFn.searches, hin] at hcount
      rw [if_pos hid] at hins
      omega
    · rw [if_neg hin] at hcount
      omega

theorem covered_step (hshaped : s.AllShaped) (hs : s.Covered) (hok : s.HasNode e)
    (h : s.step e = some s') : s'.Covered := by
  obtain ⟨-, rfl⟩ | ⟨i, r, c, rfl, hc, -, rfl⟩ | ⟨i, c, op, ops, ns, -, hc, hwork, hns, rfl⟩ :=
    step_cases h
  · exact covered_accept hs
  · exact covered_request hs hc hok
  · exact covered_operate hs (hshaped c (List.mem_of_getElem? hc)) hc hwork hns

/-! ## Runs -/

theorem shaped_of_reachable {ok : Sessions → Event → Prop}
    (h : ReachableUnder globalInit step ok s) : s.AllShaped := by
  refine h.invariant (P := AllShaped) ?_ ?_
  · intro c hc
    cases hc
  · intro s e s' _ hs _ hstep
    exact shaped_step hs hstep

/-- **The invariant in every run under the condition**. -/
theorem covered_of_reachable (h : ReachableUnder globalInit step HasNode s) : s.Covered := by
  refine h.invariant (P := Covered) ?_ ?_
  · intro k
    exact Nat.le_refl _
  · intro s e s' hreach hs hok hstep
    exact covered_step (shaped_of_reachable hreach) hs hok hstep

/-- Every search that a handler is about to make ends at a node. -/
def SearchesEnd (s : Sessions) : Prop :=
  ∀ c ∈ s.conns, ∀ op ∈ c.work.head?, op.fn.searches = true →
    (searchTxn op.txnid s.headTxnList).isSome = true

instance (s : Sessions) : Decidable s.SearchesEnd :=
  inferInstanceAs (Decidable (∀ c ∈ s.conns, ∀ op ∈ c.work.head?, _))

/-- **No search runs off the list** in a run whose requests all meet the condition. -/
theorem no_search_off_the_list (h : ReachableUnder globalInit step HasNode s) :
    s.SearchesEnd := by
  intro c hc op hop hsearch
  rw [searchTxn_isSome_iff]
  have hinside : Conn.inside op.txnid c = true := by
    simp [Conn.inside, Option.mem_def.mp hop, hsearch]
  have hpos : 0 < s.running op.txnid := List.countP_pos_iff.mpr ⟨c, hc, hinside⟩
  exact Nat.lt_of_lt_of_le hpos (covered_of_reachable h op.txnid)

/-- Two clients: the first is inside its commit, the second has met a conflict with the
    backup and is inside its abort. -/
theorem no_search_off_the_list_two_clients :
    ∃ s, (ReachableUnder globalInit step HasNode s ∧ s.running 1 = 1 ∧ s.running 2 = 1) ∧
      s.SearchesEnd := by
  obtain ⟨s, hs, hrunning⟩ := exists_of_runUnder globalInit step HasNode
    (fun s => s.running 1 = 1 ∧ s.running 2 = 1)
    [.accept, .accept, .request 0 (.txnBeg 1 0), .request 1 (.txnBeg 2 66), .operate 1,
     .operate 0, .request 0 (.open (.woken .granted) true), .operate 0, .operate 0, .operate 0,
     .request 1 (.open .conflict true), .operate 1, .request 0 .txnCommit, .operate 1,
     .operate 0, .operate 1] (by decide)
  exact ⟨s, ⟨hs, hrunning⟩, no_search_off_the_list hs⟩

/-- A client commits twice: the second commit searches an empty list. -/
theorem commit_twice_searches_off_the_list :
    ¬ ∀ s, Reachable globalInit step s → s.SearchesEnd := by
  intro h
  obtain ⟨s, hs, hoff⟩ := exists_of_run globalInit step (fun s => ¬ s.SearchesEnd)
    [.accept, .request 0 (.txnBeg 1 0), .operate 0, .request 0 .txnCommit, .operate 0,
     .operate 0, .operate 0, .operate 0, .operate 0, .request 0 .txnCommit] (by decide)
  exact hoff (h s hs)

end Sessions

end TxFS
