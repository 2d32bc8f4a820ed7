import TxFS.Deadlock.Search
import TxFS.Table.Contract

/-!
# Construction of the Wait-For Graph

`construct_wait_for_graph`: one node for every waiting transaction, and edges to the waiting
owners of the inode it waits for.

For the edges of a node the code walks along the records of the inode and, for each record,
through the nodes behind the waiting one, and then it goes on with the nodes in front of it.
It moves to the next record only where a node is the owner of the record. So the first record
without such a node ends the first part, and the first one after it ends the second part.
-/

namespace TxFS

open LinkedPath

namespace WaitForGraph

/-! ## The code -/

/-- `while (ptr_txn != NULL) { if (ptr_txn->cur_state == WAITING) ... }`. -/
def waitingNodes (txns : List TxnNode) : WaitForGraph :=
  (txns.filter fun n => n.curState = .waiting).map fun n => ⟨n.txnId, n.waitingForInode, []⟩

/-- The loop over `foll_wait`, which starts again with the nodes `others` for each record.
    It returns `ptr_file` and the edges. -/
def addEdges (g : WaitForGraph) (t : LockTable) (others : List Nat) :
    Nat → Addr → List Nat → List Nat → Option (Addr × List Nat)
  | 0, _, _, _ => none
  | _ + 1, ptrFile, [], edges => some (ptrFile, edges)
  | n + 1, ptrFile, j :: foll, edges =>
    let c := t.cells ptrFile
    if g[j]?.map WaitGraphNode.txnId = some c.parentTxn then
      if c.fileMode ≠ 0 then
        -- `foll_wait == NULL;` is a comparison, the loop goes on
        addEdges g t others n ptrFile foll (edges ++ [j])
      else
        match c.nextSharedRec with
        | none => some (ptrFile, edges ++ [j])
        | some next => addEdges g t others n next others (edges ++ [j])
    else addEdges g t others n ptrFile foll edges

/-- The edges of the node `w` at position `i`. -/
def edgesOf (g : WaitForGraph) (t : LockTable) (i : Nat) (w : WaitGraphNode) :
    Option (List Nat) := do
  let found ← findFrom (fun a => (t.cells a).next) (fun a => (t.cells a).fileInode = w.inode)
    (t.brk + 1) t.headLockList
  -- the search has no test for `NULL`
  let ptrFile ← found
  let behind := (List.range g.length).filter fun j => i < j
  let fuel := (t.brk + 1) * (g.length + 1)
  let (ptrFile, edges) ← g.addEdges t behind fuel ptrFile behind w.edge
  let front := (List.range g.length).filter fun j => j < i
  let (_, edges) ← g.addEdges t front fuel ptrFile front edges
  some edges

/-- `construct_wait_for_graph`. -/
def constructWaitForGraph (txns : List TxnNode) (t : LockTable) : Option WaitForGraph :=
  let g := waitingNodes txns
  g.zipIdx.mapM fun (w, i) => (g.edgesOf t i w).map fun edges => { w with edge := edges }

/-! ## The records of an inode -/

/-- The lock list is sorted, and `next_shared_rec` leads to the next record of the inode. -/
structure Chained (t : LockTable) (xs : List Addr) : Prop where
  list : LockTable.SortedList t xs
  shared : ∀ a ∈ xs, (t.cells a).nextSharedRec =
    (after xs a).filter fun b => t.inode b = t.inode a

theorem Chained.of_wellLinked {t : LockTable} {xs : List Addr} (h : LockTable.WellLinked t xs) :
    Chained t xs := ⟨h.sortedList, h.nextShared⟩

/-- The records of the inode. -/
def recordsOf (t : LockTable) (xs : List Addr) (inode : Int) : List Addr :=
  xs.filter fun a => t.inode a = inode

/-- `parent_txn`. -/
def owner (t : LockTable) (a : Addr) : Int := (t.cells a).parentTxn

/-- The owners of the records up to the first one in exclusive mode. -/
def ownersUpTo (t : LockTable) : List Addr → List Int
  | [] => []
  | a :: as => if (t.cells a).fileMode ≠ 0 then [owner t a] else owner t a :: ownersUpTo t as

variable {g : WaitForGraph} {t : LockTable} {xs rs : List Addr} {a f : Addr} {i j n : Nat}
  {others foll edges : List Nat} {w : WaitGraphNode} {o : Int}

theorem mem_of_mem_ownersUpTo (h : o ∈ ownersUpTo t rs) : ∃ a ∈ rs, owner t a = o := by
  induction rs with
  | nil => cases h
  | cons a as ih =>
    rw [ownersUpTo] at h
    split at h
    · exact ⟨a, List.mem_cons_self .., (List.mem_singleton.mp h).symm⟩
    · rcases List.mem_cons.mp h with rfl | h
      · exact ⟨a, List.mem_cons_self .., rfl⟩
      · obtain ⟨b, hb, rfl⟩ := ih h
        exact ⟨b, List.mem_cons_of_mem _ hb, rfl⟩

/-- The search of the code finds the first record of the inode, and from there
    `next_shared_rec` leads through the others. -/
theorem Chained.find_record (h : Chained t xs) {inode : Int} (hpresent : ∃ a ∈ xs, t.inode a = inode) :
    ∃ f rs, recordsOf t xs inode = f :: rs ∧
      findFrom (fun a => (t.cells a).next) (fun a => (t.cells a).fileInode = inode) (t.brk + 1)
        t.headLockList = some (some f) ∧
      IsPath (fun b => (t.cells b).nextSharedRec) (t.cells f).nextSharedRec rs ∧
      rs.length < t.brk := by
  have hlen := LockTable.length_le_brk h.list.isPath.nodup h.list.lt_brk
  obtain ⟨f, hfind⟩ : ∃ f, xs.find? (fun a => t.inode a = inode) = some f := by
    rw [← Option.isSome_iff_exists, List.find?_isSome]
    obtain ⟨a, ha, hinode⟩ := hpresent
    exact ⟨a, ha, by simpa using hinode⟩
  obtain ⟨hf, p, q, hxs, hp⟩ := List.find?_eq_some_iff_append.mp hfind
  have hinode : t.inode f = inode := by simpa using hf
  have hrest : q.filter (fun a => t.inode a = inode) = q.takeWhile fun b => t.inode b = t.inode f := by
    have hdrop : (q.dropWhile fun b => t.inode b = t.inode f).filter (fun a => t.inode a = inode) =
        [] := by
      rw [List.filter_eq_nil_iff]
      intro b hb
      have hlt := LockTable.lt_of_mem_dropWhile h.list.sorted hxs hb
      simp only [decide_eq_true_eq]
      omega
    have htake : (q.takeWhile fun b => t.inode b = t.inode f).filter (fun a => t.inode a = inode) =
        q.takeWhile fun b => t.inode b = t.inode f := by
      rw [List.filter_eq_self]
      intro b hb
      have hsame : decide (t.inode b = t.inode f) = true := by
        simpa using List.mem_takeWhile_imp hb
      rw [← hinode]
      exact hsame
    conv_lhs => rw [← List.takeWhile_append_dropWhile (p := fun b => decide (t.inode b = t.inode f)) (l := q)]
    rw [List.filter_append, hdrop, htake, List.append_nil]
  refine ⟨f, q.takeWhile fun b => t.inode b = t.inode f, ?_, ?_, ?_, ?_⟩
  · have hfront : p.filter (fun a => t.inode a = inode) = [] := by
      rw [List.filter_eq_nil_iff]
      intro b hb
      simpa using hp b hb
    rw [recordsOf, hxs, List.filter_append, hfront, List.nil_append,
      List.filter_cons_of_pos (by simpa using hinode), hrest]
  · rw [findFrom_eq h.list.isPath (Nat.lt_succ_of_le hlen)]
    exact congrArg some hfind
  · exact LockTable.isPath_sharedLinks h.list.isPath.nodup h.shared hxs
  · have hsub := (List.takeWhile_sublist (fun b => decide (t.inode b = t.inode f)) (l := q)).length_le
    rw [hxs, List.length_append, List.length_cons] at hlen
    omega

/-! ## One loop over the nodes -/

/-- With distinct ids a node is found by its id. -/
theorem idxOf_txnId (hids : (g.map WaitGraphNode.txnId).Nodup)
    (h : g[j]?.map WaitGraphNode.txnId = some o) : (g.map WaitGraphNode.txnId).idxOf o = j := by
  rw [← List.getElem?_map] at h
  obtain ⟨hlt, hget⟩ := List.getElem?_eq_some_iff.mp h
  rw [← hget]
  exact hids.idxOf_getElem j hlt

/-- A record whose owner is not among the nodes that are left. -/
theorem addEdges_noMatch (hno : ∀ j ∈ foll, g[j]?.map WaitGraphNode.txnId ≠ some (owner t f))
    (hfuel : foll.length < n) : g.addEdges t others n f foll edges = some (f, edges) := by
  induction foll generalizing n with
  | nil =>
    obtain ⟨n, rfl⟩ := Nat.exists_eq_succ_of_ne_zero (Nat.ne_of_gt hfuel)
    rfl
  | cons j foll ih =>
    obtain ⟨n, rfl⟩ := Nat.exists_eq_succ_of_ne_zero (Nat.ne_of_gt (Nat.zero_lt_of_lt hfuel))
    have hj : g[j]?.map WaitGraphNode.txnId ≠ some (t.cells f).parentTxn :=
      hno j (List.mem_cons_self ..)
    rw [addEdges]
    simp only [if_neg hj]
    exact ih (fun k hk => hno k (List.mem_cons_of_mem _ hk)) (by simpa using hfuel)

/-- What one loop does for the records `f :: rs`, where `p` holds of the ids of its nodes:
    edges to the leading owners with `p`. It ends at a record from which the owners go on as
    they do behind these. -/
structure AddsEdges (g : WaitForGraph) (t : LockTable) (p : Int → Bool) (f : Addr) (rs : List Addr)
    (edges : List Nat) (out : Option (Addr × List Nat)) : Prop where
  result : ∃ f' rs', out = some (f', edges ++ ((ownersUpTo t (f :: rs)).takeWhile p).map
      fun o => (g.map WaitGraphNode.txnId).idxOf o) ∧
    IsPath (fun b => (t.cells b).nextSharedRec) (t.cells f').nextSharedRec rs' ∧
    rs'.length ≤ rs.length ∧
    ∀ q : Int → Bool, (∀ o, p o = true → q o = false) →
      (ownersUpTo t (f' :: rs')).takeWhile q = ((ownersUpTo t (f :: rs)).dropWhile p).takeWhile q

/-- The loop ends at the record `f` without a match. -/
theorem AddsEdges.stop {p : Int → Bool} (hp : p (owner t f) = false)
    (hpath : IsPath (fun b => (t.cells b).nextSharedRec) (t.cells f).nextSharedRec rs) :
    AddsEdges g t p f rs edges (some (f, edges)) := by
  have hcons : ∃ os, ownersUpTo t (f :: rs) = owner t f :: os := by
    rw [ownersUpTo]
    split
    · exact ⟨[], rfl⟩
    · exact ⟨_, rfl⟩
  obtain ⟨os, hos⟩ := hcons
  refine ⟨f, rs, ?_, hpath, Nat.le_refl _, fun q _ => ?_⟩
  · rw [hos, List.takeWhile_cons_of_neg (by simp [hp])]
    simp
  · rw [hos, List.dropWhile_cons_of_neg (by simp [hp])]

/-- The loop ends at the record `f` because its owner is the last one. -/
theorem AddsEdges.last {p : Int → Bool} (hp : p (owner t f) = true)
    (hpath : IsPath (fun b => (t.cells b).nextSharedRec) (t.cells f).nextSharedRec rs)
    (hlast : ownersUpTo t (f :: rs) = [owner t f])
    (hj : (g.map WaitGraphNode.txnId).idxOf (owner t f) = j) :
    AddsEdges g t p f rs edges (some (f, edges ++ [j])) := by
  refine ⟨f, rs, ?_, hpath, Nat.le_refl _, fun q hq => ?_⟩
  · rw [hlast, List.takeWhile_cons_of_pos hp, List.takeWhile_nil, List.map_singleton, hj]
  · rw [hlast, List.dropWhile_cons_of_pos hp, List.dropWhile_nil,
      List.takeWhile_cons_of_neg (by simp [hq _ hp])]
    rfl

theorem addEdges_eq {p : Int → Bool} {skipped : List Nat}
    (hids : (g.map WaitGraphNode.txnId).Nodup) (hothers : others.Nodup)
    (hp : ∀ o, p o = true ↔ ∃ j ∈ others, g[j]?.map WaitGraphNode.txnId = some o)
    (hpath : IsPath (fun b => (t.cells b).nextSharedRec) (t.cells f).nextSharedRec rs)
    (hsplit : others = skipped ++ foll)
    (hskipped : ∀ j ∈ skipped, g[j]?.map WaitGraphNode.txnId ≠ some (owner t f))
    (hfuel : foll.length + rs.length * (others.length + 1) < n) :
    AddsEdges g t p f rs edges (g.addEdges t others n f foll edges) := by
  induction n generalizing f rs skipped foll edges with
  | zero => omega
  | succ n ih =>
    cases foll with
    | nil =>
      -- no node is the owner
      rw [List.append_nil] at hsplit
      have hno : p (owner t f) = false := by
        rw [Bool.eq_false_iff, Ne, hp]
        rintro ⟨j, hj, hid⟩
        exact hskipped j (hsplit ▸ hj) hid
      exact .stop hno hpath
    | cons j foll =>
      rw [addEdges]
      by_cases hmatch : g[j]?.map WaitGraphNode.txnId = some (t.cells f).parentTxn
      · have hj : j ∈ others := by simp [hsplit]
        have hyes : p (owner t f) = true := (hp _).mpr ⟨j, hj, hmatch⟩
        have hidx : (g.map WaitGraphNode.txnId).idxOf (owner t f) = j := idxOf_txnId hids hmatch
        simp only [if_pos hmatch]
        by_cases hmode : (t.cells f).fileMode ≠ 0
        · -- an exclusive record: no other node has the id
          rw [if_pos hmode]
          have hno : ∀ k ∈ foll, g[k]?.map WaitGraphNode.txnId ≠ some (owner t f) := by
            intro k hk hid
            have hkj : k = j := (idxOf_txnId hids hid).symm.trans hidx
            rw [hsplit] at hothers
            exact (List.nodup_cons.mp (List.nodup_append.mp hothers).2.1).1 (hkj ▸ hk)
          rw [addEdges_noMatch hno (by simp only [List.length_cons] at hfuel; omega)]
          exact .last hyes hpath (by rw [ownersUpTo, if_pos hmode]) hidx
        · rw [if_neg hmode]
          cases rs with
          | nil =>
            rw [isPath_nil.mp hpath]
            exact .last hyes hpath (by rw [ownersUpTo, if_neg hmode]; rfl) hidx
          | cons r rs =>
            -- the next record, again from the first of the nodes
            rw [hpath.1]
            have hlen : others.length + rs.length * (others.length + 1) < n := by
              rw [List.length_cons, List.length_cons, Nat.succ_mul] at hfuel
              omega
            have hnext : AddsEdges g t p r rs (edges ++ [j])
                (g.addEdges t others n r others (edges ++ [j])) :=
              ih hpath.2 (List.nil_append others).symm (by simp) hlen
            obtain ⟨f', rs', hout, hpath', hle, hgo⟩ := hnext
            have hcons : ownersUpTo t (f :: r :: rs) = owner t f :: ownersUpTo t (r :: rs) := by
              rw [ownersUpTo, if_neg hmode]
            refine ⟨f', rs', ?_, hpath', Nat.le_succ_of_le hle, fun q hq => ?_⟩
            · refine hout.trans ?_
              rw [hcons, List.takeWhile_cons_of_pos hyes, List.map_cons, hidx, List.append_assoc,
                List.singleton_append]
            · rw [hgo q hq, hcons, List.dropWhile_cons_of_pos hyes]
      · simp only [if_neg hmatch]
        have hsplit' : others = (skipped ++ [j]) ++ foll := by simp [hsplit]
        refine ih hpath hsplit' (fun k hk => ?_) (by simp only [List.length_cons] at hfuel; omega)
        rcases List.mem_append.mp hk with hk | hk
        · exact hskipped k hk
        · exact List.mem_singleton.mp hk ▸ hmatch

/-! ## The edges of a node -/

/-- The ids of the nodes behind position `i`. -/
def idsBehind (g : WaitForGraph) (i : Nat) : List Int := (g.map WaitGraphNode.txnId).drop (i + 1)

/-- The ids of the nodes in front of position `i`. -/
def idsFront (g : WaitForGraph) (i : Nat) : List Int := (g.map WaitGraphNode.txnId).take i

theorem mem_idsBehind : o ∈ idsBehind g i ↔
    ∃ j ∈ (List.range g.length).filter (fun j => i < j), g[j]?.map WaitGraphNode.txnId = some o := by
  rw [idsBehind, List.mem_iff_getElem?]
  simp only [List.getElem?_drop, List.getElem?_map, List.mem_filter, List.mem_range,
    decide_eq_true_eq]
  constructor
  · rintro ⟨m, hm⟩
    obtain ⟨w, hw, -⟩ := Option.map_eq_some_iff.mp hm
    obtain ⟨hlt, -⟩ := List.getElem?_eq_some_iff.mp hw
    exact ⟨i + 1 + m, ⟨hlt, by omega⟩, hm⟩
  · rintro ⟨j, ⟨-, hij⟩, hj⟩
    refine ⟨j - (i + 1), ?_⟩
    rw [show i + 1 + (j - (i + 1)) = j by omega]
    exact hj

theorem mem_idsFront : o ∈ idsFront g i ↔
    ∃ j ∈ (List.range g.length).filter (fun j => j < i), g[j]?.map WaitGraphNode.txnId = some o := by
  rw [idsFront, List.mem_iff_getElem?]
  simp only [List.getElem?_take, List.getElem?_map, List.mem_filter, List.mem_range,
    decide_eq_true_eq]
  constructor
  · rintro ⟨m, hm⟩
    split at hm
    · rename_i hmi
      obtain ⟨w, hw, -⟩ := Option.map_eq_some_iff.mp hm
      obtain ⟨hlt, -⟩ := List.getElem?_eq_some_iff.mp hw
      exact ⟨m, ⟨hlt, hmi⟩, hm⟩
    · cases hm
  · rintro ⟨j, ⟨-, hji⟩, hj⟩
    exact ⟨j, by rw [if_pos hji]; exact hj⟩

/-- With distinct ids no node is on both sides. -/
theorem notMem_idsFront (hids : (g.map WaitGraphNode.txnId).Nodup) (h : o ∈ idsBehind g i) :
    o ∉ idsFront g i :=
  fun hfront => List.disjoint_take_drop hids (Nat.le_succ i) hfront h

/-- The owners that the two loops match: those behind the node from the first record on, and
    then those in front of it. -/
def matched (g : WaitForGraph) (t : LockTable) (i : Nat) (rs : List Addr) : List Int :=
  (ownersUpTo t rs).takeWhile (fun o => o ∈ idsBehind g i) ++
    ((ownersUpTo t rs).dropWhile fun o => o ∈ idsBehind g i).takeWhile fun o => o ∈ idsFront g i

theorem edgesOf_eq (htable : Chained t xs) (hids : (g.map WaitGraphNode.txnId).Nodup)
    (hedge : w.edge = []) (hpresent : ∃ a ∈ xs, t.inode a = w.inode) :
    g.edgesOf t i w = some ((matched g t i (recordsOf t xs w.inode)).map fun o =>
      (g.map WaitGraphNode.txnId).idxOf o) := by
  obtain ⟨f, rs, hrecords, hfind, hpath, hlen⟩ := htable.find_record hpresent
  let behind := (List.range g.length).filter fun j => i < j
  let front := (List.range g.length).filter fun j => j < i
  have hsize : ∀ others : List Nat, others.Sublist (List.range g.length) → ∀ m < t.brk,
      others.length + m * (others.length + 1) < (t.brk + 1) * (g.length + 1) := by
    intro others hsub m hm
    have hle := hsub.length_le
    rw [List.length_range] at hle
    calc others.length + m * (others.length + 1)
        < (m + 1) * (others.length + 1) := by rw [Nat.succ_mul]; omega
      _ ≤ (t.brk + 1) * (g.length + 1) := Nat.mul_le_mul (Nat.succ_le_succ (Nat.le_of_lt hm)) (Nat.succ_le_succ hle)
  have hbehind : AddsEdges g t (fun o => o ∈ idsBehind g i) f rs []
      (g.addEdges t behind ((t.brk + 1) * (g.length + 1)) f behind []) :=
    addEdges_eq hids (List.nodup_range.filter _) (fun o => by rw [decide_eq_true_eq, mem_idsBehind])
      hpath (List.nil_append behind).symm (by simp) (hsize _ List.filter_sublist _ hlen)
  obtain ⟨f', rs', hout, hpath', hle, hgo⟩ := hbehind
  have hfront : ∀ edges, AddsEdges g t (fun o => o ∈ idsFront g i) f' rs' edges
      (g.addEdges t front ((t.brk + 1) * (g.length + 1)) f' front edges) := fun edges =>
    addEdges_eq hids (List.nodup_range.filter _) (fun o => by rw [decide_eq_true_eq, mem_idsFront])
      hpath' (List.nil_append front).symm (by simp)
      (hsize _ List.filter_sublist _ (Nat.lt_of_le_of_lt hle hlen))
  obtain ⟨f'', rs'', hout', -⟩ := hfront
    (((ownersUpTo t (f :: rs)).takeWhile fun o => o ∈ idsBehind g i).map fun o =>
      (g.map WaitGraphNode.txnId).idxOf o)
  have hgo' := hgo (fun o => o ∈ idsFront g i) fun o ho => by
    rw [decide_eq_true_eq] at ho
    exact decide_eq_false (notMem_idsFront hids ho)
  rw [List.nil_append] at hout
  rw [hgo', ← List.map_append] at hout'
  simp only [edgesOf, hfind, hedge, Option.bind_eq_bind, Option.bind_some]
  have hbind : (g.addEdges t behind ((t.brk + 1) * (g.length + 1)) f behind []).bind (fun p =>
      (g.addEdges t front ((t.brk + 1) * (g.length + 1)) p.1 front p.2).bind fun p => some p.2) =
      some ((matched g t i (recordsOf t xs w.inode)).map fun o =>
        (g.map WaitGraphNode.txnId).idxOf o) := by
    rw [hout, Option.bind_some, hout', Option.bind_some, hrecords, matched]
  exact hbind

/-! ## The graph -/

theorem mem_matched (h : o ∈ matched g t i rs) :
    (o ∈ idsBehind g i ∨ o ∈ idsFront g i) ∧ ∃ a ∈ rs, owner t a = o := by
  rcases List.mem_append.mp h with h | h
  · exact ⟨.inl (by simpa using List.mem_takeWhile_imp h),
      mem_of_mem_ownersUpTo ((List.takeWhile_sublist _).subset h)⟩
  · exact ⟨.inr (by simpa using List.mem_takeWhile_imp h),
      mem_of_mem_ownersUpTo ((List.dropWhile_sublist _).subset ((List.takeWhile_sublist _).subset h))⟩

/-- The owners in front of a split are matched, if those of its first part wait behind the
    node and those of its second part in front of it. -/
theorem mem_takeWhile_of_split {p q : Int → Bool} (hpq : ∀ o, p o = true → q o = false)
    {os os' rest : List Int} (hp : ∀ o ∈ os, p o = true) (hq : ∀ o ∈ os', q o = true)
    (ho : o ∈ os ++ os') :
    o ∈ (os ++ os' ++ rest).takeWhile p ++ ((os ++ os' ++ rest).dropWhile p).takeWhile q := by
  induction os with
  | nil =>
    rw [List.nil_append] at ho ⊢
    cases os' with
    | nil => cases ho
    | cons b bs =>
      -- the first owner of the second part ends the first loop
      have hb : p b = false := by
        by_contra hne
        have hyes : p b = true := by simpa using hne
        have hno := hpq b hyes
        rw [hq b (List.mem_cons_self ..)] at hno
        cases hno
      rw [List.cons_append, List.dropWhile_cons_of_neg (by simp [hb]), ← List.cons_append,
        List.takeWhile_append_of_pos hq]
      exact List.mem_append_right _ (List.mem_append_left _ ho)
  | cons a os ih =>
    have ha := hp a (List.mem_cons_self ..)
    rw [List.cons_append, List.cons_append, List.takeWhile_cons_of_pos ha,
      List.dropWhile_cons_of_pos ha, List.cons_append]
    rcases List.mem_cons.mp ho with rfl | ho
    · exact List.mem_cons_self ..
    · exact List.mem_cons_of_mem _ (ih (fun o ho => hp o (List.mem_cons_of_mem _ ho)) ho)

/-- The order in which the code can find all owners that wait: the records of the inode start
    with owners that wait behind the node, go on with owners that wait in front of it, and
    every owner that waits owns one of these. A record in exclusive mode is the last one that
    is looked at. -/
def InOrder (g : WaitForGraph) (t : LockTable) (i : Nat) (rs : List Addr) : Prop :=
  ∃ os os' rest, ownersUpTo t rs = os ++ os' ++ rest ∧ (∀ o ∈ os, o ∈ idsBehind g i) ∧
    (∀ o ∈ os', o ∈ idsFront g i) ∧
    ∀ a ∈ rs, owner t a ∈ idsBehind g i ∨ owner t a ∈ idsFront g i → owner t a ∈ os ++ os'

/-- All owners that wait are matched exactly if they come in this order. -/
theorem inOrder_iff (hids : (g.map WaitGraphNode.txnId).Nodup) :
    InOrder g t i rs ↔
      ∀ a ∈ rs, owner t a ∈ idsBehind g i ∨ owner t a ∈ idsFront g i → owner t a ∈ matched g t i rs := by
  constructor
  · rintro ⟨os, os', rest, hsplit, hbehind, hfront, hall⟩ a ha hwaits
    rw [matched, hsplit]
    exact mem_takeWhile_of_split
      (fun o ho => decide_eq_false (notMem_idsFront hids (of_decide_eq_true ho)))
      (fun o ho => decide_eq_true (hbehind o ho)) (fun o ho => decide_eq_true (hfront o ho))
      (hall a ha hwaits)
  · intro hall
    refine ⟨_, _, ((ownersUpTo t rs).dropWhile fun o => o ∈ idsBehind g i).dropWhile
      fun o => o ∈ idsFront g i, ?_, fun o ho => ?_, fun o ho => ?_, hall⟩
    · rw [List.append_assoc, List.takeWhile_append_dropWhile, List.takeWhile_append_dropWhile]
    · simpa using List.mem_takeWhile_imp ho
    · simpa using List.mem_takeWhile_imp ho

/-- What the graph is for: one node for each waiting transaction, in the order of the
    transaction list, with edges to the other ones that own a record of its inode. -/
structure Exact (txns : List TxnNode) (t : LockTable) (xs : List Addr) (g : WaitForGraph) : Prop where
  nodes : g.map (fun w => (w.txnId, w.inode)) =
    (txns.filter fun n => n.curState = .waiting).map fun n => (n.txnId, n.waitingForInode)
  edges : ∀ (i : Nat) (w : WaitGraphNode), g[i]? = some w → ∀ j, j ∈ w.edge ↔
    j ≠ i ∧ ∃ h : WaitGraphNode, g[j]? = some h ∧
      ∃ a ∈ xs, t.inode a = w.inode ∧ owner t a = h.txnId

/-- A loop in which every round ends with a value. -/
theorem mapM_eq_some {α β : Type} {f : α → Option β} {h : α → β} {l : List α}
    (hl : ∀ a ∈ l, f a = some (h a)) : l.mapM f = some (l.map h) := by
  induction l with
  | nil => rfl
  | cons a l ih =>
    rw [List.mapM_cons, hl a (List.mem_cons_self ..),
      ih fun b hb => hl b (List.mem_cons_of_mem _ hb)]
    rfl

variable {txns : List TxnNode}

/-- The edges that the code builds at position `i`. -/
def builtEdges (txns : List TxnNode) (t : LockTable) (xs : List Addr) (i : Nat) (inode : Int) :
    List Nat :=
  (matched (waitingNodes txns) t i (recordsOf t xs inode)).map fun o =>
    ((waitingNodes txns).map WaitGraphNode.txnId).idxOf o

/-- The nodes with these edges. -/
def built (txns : List TxnNode) (t : LockTable) (xs : List Addr) : WaitForGraph :=
  (waitingNodes txns).zipIdx.map fun (w, i) => { w with edge := builtEdges txns t xs i w.inode }

theorem getElem?_built : (built txns t xs)[i]? =
    (waitingNodes txns)[i]?.map fun w => { w with edge := builtEdges txns t xs i w.inode } := by
  rw [built, List.getElem?_map, List.getElem?_zipIdx, Option.map_map]
  simp [Function.comp_def]

theorem mem_waitingNodes (h : w ∈ waitingNodes txns) :
    w.edge = [] ∧ ∃ n ∈ txns, n.curState = .waiting ∧ n.waitingForInode = w.inode := by
  obtain ⟨n, hn, rfl⟩ := List.mem_map.mp h
  obtain ⟨hn, hwaiting⟩ := List.mem_filter.mp hn
  exact ⟨rfl, n, hn, by simpa using hwaiting, rfl⟩

/-- **The graph that is built**. -/
theorem constructWaitForGraph_eq (htable : Chained t xs)
    (hids : ((waitingNodes txns).map WaitGraphNode.txnId).Nodup)
    (hpresent : ∀ n ∈ txns, n.curState = .waiting → ∃ a ∈ xs, t.inode a = n.waitingForInode) :
    constructWaitForGraph txns t = some (built txns t xs) := by
  refine mapM_eq_some fun (w, i) hmem => ?_
  have hw : w ∈ waitingNodes txns := List.mem_of_getElem? (List.mem_zipIdx_iff_getElem?.mp hmem)
  obtain ⟨hedge, n, hn, hwaiting, hinode⟩ := mem_waitingNodes hw
  have hrecord := hpresent n hn hwaiting
  rw [hinode] at hrecord
  show ((waitingNodes txns).edgesOf t i w).map _ = _
  rw [edgesOf_eq htable hids hedge hrecord]
  rfl

/-- The edges of one node are the right ones exactly if the owners come in order. -/
theorem builtEdges_iff (hids : ((waitingNodes txns).map WaitGraphNode.txnId).Nodup) {inode : Int} :
    (∀ j, j ∈ builtEdges txns t xs i inode ↔ j ≠ i ∧ ∃ h : WaitGraphNode,
      (waitingNodes txns)[j]? = some h ∧ ∃ a ∈ xs, t.inode a = inode ∧ owner t a = h.txnId) ↔
      InOrder (waitingNodes txns) t i (recordsOf t xs inode) := by
  have hposition : ∀ o, o ∈ idsBehind (waitingNodes txns) i ∨ o ∈ idsFront (waitingNodes txns) i ↔
      ∃ j ≠ i, (waitingNodes txns)[j]?.map WaitGraphNode.txnId = some o := by
    intro o
    rw [mem_idsBehind, mem_idsFront]
    simp only [List.mem_filter, List.mem_range, decide_eq_true_eq]
    constructor
    · rintro (⟨j, ⟨-, hij⟩, hj⟩ | ⟨j, ⟨-, hji⟩, hj⟩)
      · exact ⟨j, by omega, hj⟩
      · exact ⟨j, by omega, hj⟩
    · rintro ⟨j, hne, hj⟩
      obtain ⟨h, hh, -⟩ := Option.map_eq_some_iff.mp hj
      obtain ⟨hlt, -⟩ := List.getElem?_eq_some_iff.mp hh
      rcases Nat.lt_or_gt_of_ne hne with hji | hij
      · exact .inr ⟨j, ⟨hlt, hji⟩, hj⟩
      · exact .inl ⟨j, ⟨hlt, hij⟩, hj⟩
  have hmem : ∀ a, a ∈ recordsOf t xs inode ↔ a ∈ xs ∧ t.inode a = inode := by
    intro a
    simp [recordsOf]
  rw [inOrder_iff hids]
  constructor
  · intro hedges a ha hwaits
    obtain ⟨j, hne, hj⟩ := (hposition _).mp hwaits
    obtain ⟨h, hh, hid⟩ := Option.map_eq_some_iff.mp hj
    obtain ⟨haxs, hinode⟩ := (hmem a).mp ha
    obtain ⟨o, ho, hoj⟩ := List.mem_map.mp ((hedges j).mpr ⟨hne, h, hh, a, haxs, hinode, hid.symm⟩)
    -- the matched owner at this position is the owner of the record
    obtain ⟨k, -, hk⟩ := (hposition o).mp (mem_matched ho).1
    have hkj : k = j := (idxOf_txnId hids hk).symm.trans hoj
    rw [hkj, hj] at hk
    exact Option.some.inj hk ▸ ho
  · intro hall j
    constructor
    · intro hj
      obtain ⟨o, ho, rfl⟩ := List.mem_map.mp hj
      obtain ⟨hwaits, a, ha, hao⟩ := mem_matched ho
      obtain ⟨k, hne, hk⟩ := (hposition o).mp hwaits
      obtain ⟨haxs, hinode⟩ := (hmem a).mp ha
      rw [idxOf_txnId hids hk]
      obtain ⟨h, hh, hid⟩ := Option.map_eq_some_iff.mp hk
      exact ⟨hne, h, hh, a, haxs, hinode, hao.trans hid.symm⟩
    · rintro ⟨hne, h, hh, a, haxs, hinode, hid⟩
      have hj : (waitingNodes txns)[j]?.map WaitGraphNode.txnId = some (owner t a) := by
        rw [hh, hid]
        rfl
      have hwaits := (hposition _).mpr ⟨j, hne, hj⟩
      exact List.mem_map.mpr ⟨_, hall a ((hmem a).mpr ⟨haxs, hinode⟩) hwaits, idxOf_txnId hids hj⟩

/-- The loop over the nodes keeps their ids and inodes. -/
theorem exists_built_iff {j : Nat} {P : Int → Prop} :
    (∃ h : WaitGraphNode, (built txns t xs)[j]? = some h ∧ P h.txnId) ↔
      ∃ h : WaitGraphNode, (waitingNodes txns)[j]? = some h ∧ P h.txnId := by
  rw [getElem?_built]
  cases (waitingNodes txns)[j]? <;> simp

/-- If the owners come in order, the graph is exact. -/
theorem exact_built (hids : ((waitingNodes txns).map WaitGraphNode.txnId).Nodup)
    (hall : ∀ (i : Nat) (w : WaitGraphNode), (waitingNodes txns)[i]? = some w →
      InOrder (waitingNodes txns) t i (recordsOf t xs w.inode)) :
    Exact txns t xs (built txns t xs) := by
  refine ⟨?_, fun i w hw j => ?_⟩
  · rw [built, List.map_map]
    have hnodes : (waitingNodes txns).zipIdx.map (fun p => (p.1.txnId, p.1.inode)) =
        (waitingNodes txns).map fun w => (w.txnId, w.inode) := by
      have hfst := List.zipIdx_map_fst 0 (waitingNodes txns)
      conv_rhs => rw [← hfst, List.map_map]
      rfl
    have hsame : (waitingNodes txns).map (fun w => (w.txnId, w.inode)) =
        (txns.filter fun n => n.curState = .waiting).map fun n => (n.txnId, n.waitingForInode) := by
      rw [waitingNodes, List.map_map]
      rfl
    exact hnodes.trans hsame
  · rw [getElem?_built] at hw
    obtain ⟨v, hv, rfl⟩ := Option.map_eq_some_iff.mp hw
    rw [exists_built_iff (P := fun o => ∃ a ∈ xs, t.inode a = v.inode ∧ owner t a = o)]
    exact (builtEdges_iff hids).mpr (hall i v hv) j

/-- **Construction of the graph**: over a well-formed lock table with a record for every
    inode that is waited for, the graph is exact if and only if, for every waiting
    transaction, the owners of its inode come in order. -/
theorem constructWaitForGraph_exact_iff (htable : Chained t xs)
    (hids : ((waitingNodes txns).map WaitGraphNode.txnId).Nodup)
    (hpresent : ∀ n ∈ txns, n.curState = .waiting → ∃ a ∈ xs, t.inode a = n.waitingForInode) :
    (∃ g, constructWaitForGraph txns t = some g ∧ Exact txns t xs g) ↔
      ∀ (i : Nat) (w : WaitGraphNode), (waitingNodes txns)[i]? = some w →
        InOrder (waitingNodes txns) t i (recordsOf t xs w.inode) := by
  rw [constructWaitForGraph_eq htable hids hpresent]
  constructor
  · rintro ⟨g, hg, hexact⟩ i w hw
    cases hg
    refine (builtEdges_iff hids).mp fun j => ?_
    have hedges := hexact.edges i _ (by rw [getElem?_built, hw]; rfl) j
    rw [exists_built_iff (P := fun o => ∃ a ∈ xs, t.inode a = w.inode ∧ owner t a = o)] at hedges
    exact hedges
  · intro hall
    exact ⟨built txns t xs, rfl, exact_built hids hall⟩

/-! ## Examples -/

/-- A lock table with the records `cs` at the addresses from 0 on, from `head_lock_list`. -/
def tableOf (cs : List FileLock) : LockTable where
  cells a := cs.getD a (getFileNode 0 0 0 0)
  allocated := List.range cs.length
  brk := cs.length
  headLockList := (List.range cs.length).head?

/-- The node of a transaction that waits. -/
def waitingTxn (txnId inode : Int) : TxnNode :=
  { getTxnNode txnId 0 with curState := .waiting, waitingForInode := inode }

/-- Transaction 2 has locked inode 5 and transaction 3 inode 6. -/
def twoWriters : LockTable :=
  tableOf [{ getFileNode 5 0 1 2 with next := some 1 }, getFileNode 6 0 1 3]

theorem chained_twoWriters : Chained twoWriters [0, 1] where
  list := ⟨⟨rfl, rfl, rfl⟩, by decide, by decide⟩
  shared := by decide

/-- They wait for each other. -/
theorem constructWaitForGraph_twoWriters :
    (∃ g, constructWaitForGraph [waitingTxn 2 6, waitingTxn 3 5] twoWriters = some g ∧
      Exact [waitingTxn 2 6, waitingTxn 3 5] twoWriters [0, 1] g) ↔
      ∀ (i : Nat) (w : WaitGraphNode), (waitingNodes [waitingTxn 2 6, waitingTxn 3 5])[i]? = some w →
        InOrder (waitingNodes [waitingTxn 2 6, waitingTxn 3 5]) twoWriters i
          (recordsOf twoWriters [0, 1] w.inode) :=
  constructWaitForGraph_exact_iff chained_twoWriters (by decide) (by decide)

/-- Transactions 1 and 2 have locked inode 5 in shared mode and transaction 3 inode 6. -/
def twoReaders : LockTable :=
  tableOf [{ getFileNode 5 0 0 1 with next := some 1, nextSharedRec := some 1 },
    { getFileNode 5 0 0 2 with next := some 2, prevSharedRec := some 0 }, getFileNode 6 0 1 3]

theorem chained_twoReaders : Chained twoReaders [0, 1, 2] where
  list := ⟨⟨rfl, rfl, rfl, rfl⟩, by decide, by decide⟩
  shared := by decide

/-- Transaction 1 does not wait, and its record is in front of the one of transaction 2. So
    the edge from transaction 3 to transaction 2 is missing, and their deadlock is not seen. -/
theorem constructWaitForGraph_missesEdge :
    Chained twoReaders [0, 1, 2] ∧
      constructWaitForGraph [getTxnNode 1 0, waitingTxn 2 6, waitingTxn 3 5] twoReaders =
        some [⟨2, 6, [1]⟩, ⟨3, 5, []⟩] ∧
      ¬ Exact [getTxnNode 1 0, waitingTxn 2 6, waitingTxn 3 5] twoReaders [0, 1, 2]
        [⟨2, 6, [1]⟩, ⟨3, 5, []⟩] := by
  refine ⟨chained_twoReaders, by decide, fun hexact => ?_⟩
  have hedge := (hexact.edges 1 ⟨3, 5, []⟩ rfl 0).mpr
    ⟨by decide, ⟨2, 6, [1]⟩, rfl, 1, by decide, by decide, by decide⟩
  cases hedge

end WaitForGraph

end TxFS
