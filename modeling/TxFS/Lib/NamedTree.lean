import Mathlib.Data.List.Nodup

/-!
# Trees of Names

Finite trees whose inner nodes hold their children under names, in a fixed order, with the
subtree that a path of names leads to.

A work stack visits such a tree in the order `walk`: a node before its children, and the
child that was pushed last first. `shown` selects the children that are pushed at all, and
`topSlot` is the highest slot of the stack that is used on the way.
-/

universe u

/-- A leaf, or a node with its children under names. -/
inductive NamedTree (ν : Type u) where
  | leaf
  | node (entries : List (ν × NamedTree ν))

namespace NamedTree

variable {ν : Type u}

/-- Induction over the children of a node. -/
theorem induction {motive : NamedTree ν → Prop} (leaf : motive .leaf)
    (node : ∀ es, (∀ e ∈ es, motive e.2) → motive (.node es)) : ∀ t, motive t
  | .leaf => leaf
  | .node es => node es (entries es)
where
  entries : ∀ es : List (ν × NamedTree ν), ∀ e ∈ es, motive e.2
    | [], e, he => by cases he
    | (n, t) :: es, e, he => by
      rcases List.mem_cons.mp he with rfl | he
      · exact induction leaf node t
      · exact entries es e he

/-! ## Paths -/

section

variable [DecidableEq ν]

/-- The subtree at the end of a path. -/
def lookup : NamedTree ν → List ν → Option (NamedTree ν)
  | t, [] => some t
  | .leaf, _ :: _ => none
  | .node es, n :: p => (es.find? fun e => e.1 = n).bind fun e => lookup e.2 p

/-- The children of every node have distinct names. -/
def Distinct (t : NamedTree ν) : Prop :=
  ∀ p es, t.lookup p = some (.node es) → (es.map Prod.fst).Nodup

theorem lookup_append {t : NamedTree ν} {p q : List ν} :
    t.lookup (p ++ q) = (t.lookup p).bind fun u => u.lookup q := by
  induction p generalizing t with
  | nil => cases t <;> rfl
  | cons n p ih =>
    cases t with
    | leaf => rfl
    | node es =>
      simp only [List.cons_append, lookup]
      cases es.find? fun e => e.1 = n with
      | none => rfl
      | some e => exact ih

/-- Under distinct names a child is found by its name. -/
theorem find?_entry {es : List (ν × NamedTree ν)} (hnd : (es.map Prod.fst).Nodup)
    {e : ν × NamedTree ν} (he : e ∈ es) : es.find? (fun d => d.1 = e.1) = some e := by
  induction es with
  | nil => cases he
  | cons d es ih =>
    rw [List.map_cons, List.nodup_cons] at hnd
    rcases List.mem_cons.mp he with rfl | he
    · simp
    · have hne : d.1 ≠ e.1 := fun heq => hnd.1 (heq ▸ List.mem_map_of_mem he)
      rw [List.find?_cons_of_neg (by simpa using hne)]
      exact ih hnd.2 he

theorem Distinct.nodup {es : List (ν × NamedTree ν)} (h : Distinct (.node es)) :
    (es.map Prod.fst).Nodup := h [] es rfl

theorem Distinct.lookup_entry {es : List (ν × NamedTree ν)} (h : Distinct (.node es))
    {e : ν × NamedTree ν} (he : e ∈ es) (p : List ν) :
    (node es).lookup (e.1 :: p) = e.2.lookup p := by
  rw [lookup, find?_entry h.nodup he]
  rfl

theorem Distinct.entry {es : List (ν × NamedTree ν)} (h : Distinct (.node es))
    {e : ν × NamedTree ν} (he : e ∈ es) : Distinct e.2 := by
  intro p es' hp
  apply h (e.1 :: p)
  rw [h.lookup_entry he, hp]

theorem Distinct.subtree {t u : NamedTree ν} (h : Distinct t) {p : List ν}
    (hp : t.lookup p = some u) : Distinct u := by
  intro q es hq
  apply h (p ++ q)
  rw [lookup_append, hp]
  exact hq

theorem distinct_leaf : Distinct (.leaf : NamedTree ν) := by
  intro p es hp
  cases p <;> cases hp

theorem distinct_node {es : List (ν × NamedTree ν)} (hnd : (es.map Prod.fst).Nodup)
    (hes : ∀ e ∈ es, Distinct e.2) : Distinct (.node es) := by
  intro p es' hp
  cases p with
  | nil =>
    cases hp
    exact hnd
  | cons n p =>
    obtain ⟨e, hfind, hp⟩ := Option.bind_eq_some_iff.mp hp
    exact hes e (List.mem_of_find?_eq_some hfind) p es' hp

/-- The path exists and all its names are shown. -/
def Shown (shown : ν → Bool) (t : NamedTree ν) (p : List ν) : Prop :=
  (t.lookup p).isSome = true ∧ ∀ n ∈ p, shown n = true

/-! ## New leaves -/

/-- A new leaf under the name `n` in the node at the end of the path, behind its first `i`
    children. -/
def insertLeaf : NamedTree ν → List ν → Nat → ν → NamedTree ν
  | .leaf, _, _, _ => .leaf
  | .node es, [], i, n => .node (es.take i ++ (n, .leaf) :: es.drop i)
  | .node es, m :: p, i, n =>
    .node (es.map fun e => (e.1, if e.1 = m then insertLeaf e.2 p i n else e.2))

section

variable {t : NamedTree ν} {es : List (ν × NamedTree ν)} {p q : List ν} {i : Nat} {m n : ν}

theorem find?_eq_none (hnew : n ∉ es.map Prod.fst) : es.find? (fun e => e.1 = n) = none := by
  rw [List.find?_eq_none]
  intro e he heq
  have hname : e.1 = n := by simpa using heq
  exact hnew (hname ▸ List.mem_map_of_mem he)

theorem find?_inserted (hnew : n ∉ es.map Prod.fst) :
    (es.take i ++ (n, leaf) :: es.drop i).find? (fun e => e.1 = m) =
      if n = m then some (n, leaf) else es.find? fun e => e.1 = m := by
  rw [List.find?_append]
  by_cases hnm : n = m
  · subst hnm
    have hnone : (es.take i).find? (fun e => e.1 = n) = none :=
      find?_eq_none fun hmem => hnew (List.map_subset _ (List.take_subset i es) hmem)
    rw [hnone, if_pos rfl]
    simp
  · rw [if_neg hnm, List.find?_cons_of_neg (by simpa using hnm), ← List.find?_append,
      List.take_append_drop]

/-- **The new leaf is the only new path**. -/
theorem isSome_lookup_insertLeaf (hp : t.lookup p = some (.node es)) (hnew : n ∉ es.map Prod.fst) :
    ((t.insertLeaf p i n).lookup q).isSome = true ↔
      (t.lookup q).isSome = true ∨ q = p ++ [n] := by
  induction p generalizing t q with
  | nil =>
    have ht : t = .node es := by
      cases t <;> exact Option.some.inj hp
    subst ht
    cases q with
    | nil => simp [insertLeaf, lookup]
    | cons m q =>
      rw [insertLeaf, lookup, lookup, find?_inserted hnew]
      by_cases hnm : n = m
      · subst hnm
        rw [if_pos rfl, find?_eq_none hnew]
        cases q <;> simp [lookup]
      · rw [if_neg hnm]
        simp [Ne.symm hnm]
  | cons k p ih =>
    cases t with
    | leaf => cases hp
    | node es' =>
      rw [lookup] at hp
      cases q with
      | nil => simp [insertLeaf, lookup]
      | cons m q =>
        rw [insertLeaf, lookup, lookup, List.find?_map]
        simp only [Function.comp_def, Option.bind_map]
        by_cases hmk : m = k
        · -- the path goes on in the child that changes
          subst hmk
          obtain ⟨e, he, hp⟩ := Option.bind_eq_some_iff.mp hp
          have hname : e.1 = m := by simpa using List.find?_some he
          rw [he, Option.bind_some, Option.bind_some, if_pos hname, ih hp]
          simp
        · have hother : ((es'.find? fun e => e.1 = m).bind fun e =>
              lookup (if e.1 = k then insertLeaf e.2 p i n else e.2) q) =
              (es'.find? fun e => e.1 = m).bind fun e => lookup e.2 q := by
            cases hfind : es'.find? fun e => e.1 = m with
            | none => rfl
            | some e =>
              have hname : e.1 = m := by simpa using List.find?_some hfind
              rw [Option.bind_some, Option.bind_some, if_neg (hname ▸ hmk)]
          rw [hother]
          simp [hmk]

theorem Distinct.insertLeaf (h : t.Distinct) (hp : t.lookup p = some (.node es))
    (hnew : n ∉ es.map Prod.fst) : (t.insertLeaf p i n).Distinct := by
  induction p generalizing t with
  | nil =>
    have ht : t = .node es := by
      cases t <;> exact Option.some.inj hp
    subst ht
    refine distinct_node ?_ ?_
    · have hperm : ((es.take i ++ (n, leaf) :: es.drop i).map Prod.fst).Perm
          (n :: es.map Prod.fst) := by
        have hmiddle : (es.take i ++ (n, leaf) :: es.drop i).Perm ((n, leaf) :: es) := by
          refine List.perm_middle.trans (List.Perm.cons _ ?_)
          rw [List.take_append_drop]
        exact hmiddle.map _
      exact hperm.nodup_iff.mpr (List.nodup_cons.mpr ⟨hnew, h.nodup⟩)
    · intro e he
      rcases List.mem_append.mp he with he | he
      · exact h.entry (List.mem_of_mem_take he)
      · rcases List.mem_cons.mp he with rfl | he
        · exact distinct_leaf
        · exact h.entry (List.mem_of_mem_drop he)
  | cons k p ih =>
    cases t with
    | leaf => cases hp
    | node es' =>
      obtain ⟨d, hd, hp⟩ := Option.bind_eq_some_iff.mp hp
      refine distinct_node ?_ ?_
      · rw [List.map_map]
        exact h.nodup
      · intro e' he'
        obtain ⟨e, he, rfl⟩ := List.mem_map.mp he'
        by_cases hname : e.1 = k
        · -- the child with this name is the one that the path leads into
          have hsame := find?_entry h.nodup he
          rw [hname, hd] at hsame
          cases hsame
          simpa [hname] using ih (h.entry he) hp
        · simpa [hname] using h.entry he

theorem shown_insertLeaf {shown : ν → Bool} (hp : t.lookup p = some (.node es))
    (hnew : n ∉ es.map Prod.fst) (hq : (t.insertLeaf p i n).Shown shown q) :
    t.Shown shown q ∨ q = p ++ [n] := by
  rcases (isSome_lookup_insertLeaf hp hnew).mp hq.1 with hold | hnew
  · exact .inl ⟨hold, hq.2⟩
  · exact .inr hnew

end

end

/-! ## The order of a work stack -/

section

variable (shown : ν → Bool)

mutual

/-- The paths of the shown nodes of a tree at `p`, a node before its children, the last child
    first. -/
def walk : NamedTree ν → List ν → List (List ν)
  | .leaf, p => [p]
  | .node es, p => p :: walkEntries es p

/-- The same for the children of the node at `p`. -/
def walkEntries : List (ν × NamedTree ν) → List ν → List (List ν)
  | [], _ => []
  | (n, t) :: es, p => walkEntries es p ++ if shown n then walk t (p ++ [n]) else []

end

mutual

/-- The highest slot that is used when the tree is pushed above `h` occupied slots. -/
def topSlot : NamedTree ν → Nat → Nat
  | .leaf, h => h + 1
  | .node es, h => max (h + 1) (topSlotEntries es h)

/-- The same for the children, which are pushed above each other. -/
def topSlotEntries : List (ν × NamedTree ν) → Nat → Nat
  | [], h => h
  | (n, t) :: es, h =>
    if shown n then max (topSlot t h) (topSlotEntries es (h + 1)) else topSlotEntries es h

end

variable {shown} {t : NamedTree ν} {es : List (ν × NamedTree ν)} {e : ν × NamedTree ν}
  {p q : List ν} {h : Nat}

theorem walkEntries_append {es' : List (ν × NamedTree ν)} :
    walkEntries shown (es ++ es') p = walkEntries shown es' p ++ walkEntries shown es p := by
  induction es with
  | nil => simp [walkEntries]
  | cons e es ih =>
    rw [List.cons_append, walkEntries, walkEntries, ih, List.append_assoc]

theorem walkEntries_singleton : walkEntries shown [e] p =
    if shown e.1 then walk shown e.2 (p ++ [e.1]) else [] := by
  simp [walkEntries]

theorem mem_walkEntries : q ∈ walkEntries shown es p ↔
    ∃ e ∈ es, shown e.1 = true ∧ q ∈ walk shown e.2 (p ++ [e.1]) := by
  induction es with
  | nil => simp [walkEntries]
  | cons e es ih =>
    rw [walkEntries, List.mem_append, ih]
    cases hshown : shown e.1 <;> simp [hshown, or_comm]

/-- Slots are used from below. -/
theorem lt_topSlot : h < topSlot shown t h := by
  cases t with
  | leaf => exact Nat.lt_succ_self h
  | node es => exact Nat.lt_of_lt_of_le (Nat.lt_succ_self h) (Nat.le_max_left ..)

/-- The last child is pushed above all the others. -/
theorem topSlotEntries_append_singleton : topSlotEntries shown (es ++ [e]) h =
    if shown e.1 then
      max (topSlotEntries shown es h) (topSlot shown e.2 (h + es.countP fun d => shown d.1))
    else topSlotEntries shown es h := by
  induction es generalizing h with
  | nil =>
    by_cases hshown : shown e.1 = true
    · have hlt : h < topSlot shown e.2 h := lt_topSlot
      simp only [List.nil_append, topSlotEntries, hshown, if_true, List.countP_nil, Nat.add_zero]
      omega
    · simp [topSlotEntries, hshown]
  | cons d es ih =>
    by_cases hd : shown d.1 = true
    · have hcount : (d :: es).countP (fun d => shown d.1) = es.countP (fun d => shown d.1) + 1 :=
        List.countP_cons_of_pos hd
      rw [List.cons_append, topSlotEntries, topSlotEntries, if_pos hd, if_pos hd, ih, hcount]
      have hslot : h + 1 + es.countP (fun d => shown d.1) =
          h + (es.countP (fun d => shown d.1) + 1) := by omega
      rw [hslot]
      split
      · exact (Nat.max_assoc ..).symm
      · rfl
    · have hcount : (d :: es).countP (fun d => shown d.1) = es.countP fun d => shown d.1 :=
        List.countP_cons_of_neg hd
      rw [List.cons_append, topSlotEntries, topSlotEntries, if_neg hd, if_neg hd, ih, hcount]

/-- All shown children are on the stack at the same time. -/
theorem le_topSlotEntries : h + es.countP (fun d => shown d.1) ≤ topSlotEntries shown es h := by
  induction es generalizing h with
  | nil => exact Nat.le_refl h
  | cons d es ih =>
    rw [topSlotEntries]
    by_cases hd : shown d.1 = true
    · have hcount : (d :: es).countP (fun d => shown d.1) = es.countP (fun d => shown d.1) + 1 :=
        List.countP_cons_of_pos hd
      have hle := ih (h := h + 1)
      rw [if_pos hd, hcount]
      omega
    · have hcount : (d :: es).countP (fun d => shown d.1) = es.countP fun d => shown d.1 :=
        List.countP_cons_of_neg hd
      rw [if_neg hd, hcount]
      exact ih

/-! ## The walk is the set of the shown paths -/

/-- The walk of a tree stays below its path. -/
theorem prefix_of_mem_walk : q ∈ walk shown t p → p <+: q := by
  induction t using NamedTree.induction generalizing p with
  | leaf =>
    intro hq
    rw [walk, List.mem_singleton] at hq
    exact hq ▸ List.prefix_refl p
  | node es ih =>
    intro hq
    rw [walk] at hq
    rcases List.mem_cons.mp hq with rfl | hq
    · exact List.prefix_refl q
    · obtain ⟨e, he, -, hq⟩ := mem_walkEntries.mp hq
      exact (List.prefix_append p [e.1]).trans (ih e he hq)

/-- A tree is visited before everything below it. -/
theorem walk_eq_cons : ∃ qs, walk shown t p = p :: qs ∧ p ∉ qs := by
  cases t with
  | leaf => exact ⟨[], rfl, by simp⟩
  | node es =>
    refine ⟨walkEntries shown es p, rfl, fun hp => ?_⟩
    obtain ⟨e, -, -, hp⟩ := mem_walkEntries.mp hp
    have hlen := (prefix_of_mem_walk hp).length_le
    rw [List.length_append, List.length_singleton] at hlen
    omega

variable [DecidableEq ν]

/-- **The walk visits exactly the shown paths**. -/
theorem mem_walk (hd : t.Distinct) :
    q ∈ walk shown t p ↔ ∃ r, q = p ++ r ∧ t.Shown (fun n => shown n) r := by
  induction t using NamedTree.induction generalizing p with
  | leaf =>
    rw [walk, List.mem_singleton]
    constructor
    · intro hq
      exact ⟨[], by simp [hq], rfl, by simp⟩
    · rintro ⟨r, rfl, hr, -⟩
      cases r with
      | nil => simp
      | cons n r => cases hr
  | node es ih =>
    rw [walk, List.mem_cons, mem_walkEntries]
    constructor
    · rintro (rfl | ⟨e, he, hshown, hq⟩)
      · exact ⟨[], by simp, rfl, by simp⟩
      · obtain ⟨r, rfl, hr, hnames⟩ := (ih e he (hd.entry he)).mp hq
        refine ⟨e.1 :: r, by simp, by rw [hd.lookup_entry he]; exact hr, ?_⟩
        rw [List.forall_mem_cons]
        exact ⟨hshown, hnames⟩
    · rintro ⟨r, rfl, hr, hnames⟩
      cases r with
      | nil => exact .inl (by simp)
      | cons n r =>
        rw [List.forall_mem_cons] at hnames
        rw [lookup] at hr
        cases hfind : es.find? (fun e => e.1 = n) with
        | none =>
          rw [hfind] at hr
          cases hr
        | some e =>
          rw [hfind] at hr
          have he := List.mem_of_find?_eq_some hfind
          have hn : e.1 = n := by simpa using List.find?_some hfind
          refine .inr ⟨e, he, hn ▸ hnames.1, ?_⟩
          exact (ih e he (hd.entry he)).mpr ⟨r, by simp [hn], hr, hnames.2⟩

/-- **The walk visits no path twice**. -/
theorem nodup_walk (hd : t.Distinct) : (walk shown t p).Nodup := by
  induction t using NamedTree.induction generalizing p with
  | leaf => exact List.nodup_singleton p
  | node es ih =>
    have hnot : p ∉ walkEntries shown es p := by
      obtain ⟨qs, hqs, hnot⟩ : ∃ qs, walk shown (.node es) p = p :: qs ∧ p ∉ qs := walk_eq_cons
      rw [walk, List.cons.injEq] at hqs
      rw [hqs.2]
      exact hnot
    rw [walk, List.nodup_cons]
    refine ⟨hnot, ?_⟩
    -- the children are below paths that differ in the last name
    have hentries : ∀ es' : List (ν × NamedTree ν), (es'.map Prod.fst).Nodup →
        (∀ e ∈ es', e ∈ es) → (walkEntries shown es' p).Nodup := by
      intro es' hnames hsub
      induction es' with
      | nil => exact List.nodup_nil
      | cons e es' ih' =>
        rw [List.map_cons, List.nodup_cons] at hnames
        have hmem := hsub e (List.mem_cons_self ..)
        rw [walkEntries]
        refine List.Nodup.append (ih' hnames.2 fun d hd' => hsub d (List.mem_cons_of_mem _ hd'))
          ?_ ?_
        · split
          · exact ih e hmem (hd.entry hmem)
          · exact List.nodup_nil
        · intro q hq hq'
          split at hq'
          · obtain ⟨d, hd', -, hqd⟩ := mem_walkEntries.mp hq
            have h1 := prefix_of_mem_walk hqd
            have h2 := prefix_of_mem_walk hq'
            have hsame : p ++ [d.1] = p ++ [e.1] :=
              (List.prefix_of_prefix_length_le h1 h2 (by simp)).eq_of_length (by simp)
            have hde : d.1 = e.1 := by simpa using hsame
            exact hnames.1 (hde ▸ List.mem_map_of_mem hd')
          · cases hq'
    exact hentries es hd.nodup fun _ he => he

/-- **A node comes before its children**. -/
theorem pair_sublist_walk (hd : t.Distinct) {n : ν} (hq : q ++ [n] ∈ walk shown t p)
    (hp : p <+: q) : [q, q ++ [n]].Sublist (walk shown t p) := by
  induction t using NamedTree.induction generalizing p with
  | leaf =>
    rw [walk, List.mem_singleton] at hq
    have hlen := hp.length_le
    rw [← hq, List.length_append, List.length_singleton] at hlen
    omega
  | node es ih =>
    rw [walk] at hq ⊢
    by_cases hqp : q = p
    · subst hqp
      refine List.Sublist.cons_cons q ?_
      rw [List.singleton_sublist]
      refine (List.mem_cons.mp hq).resolve_left fun heq => ?_
      have hlen := congrArg List.length heq
      simp at hlen
    · refine List.Sublist.cons p ?_
      have hq' : q ++ [n] ∈ walkEntries shown es p := by
        refine (List.mem_cons.mp hq).resolve_left fun heq => ?_
        have hlen := hp.length_le
        rw [← heq, List.length_append, List.length_singleton] at hlen
        omega
      obtain ⟨e, he, hshown, hmem⟩ := mem_walkEntries.mp hq'
      -- the parent is in the subtree of the same child
      have hpre : p ++ [e.1] <+: q := by
        obtain ⟨r, rfl⟩ := hp
        have hpre := prefix_of_mem_walk hmem
        cases r with
        | nil => exact absurd (List.append_nil p) hqp
        | cons m r =>
          rw [List.append_assoc, List.prefix_append_right_inj] at hpre
          obtain ⟨k, hk⟩ := hpre
          simp only [List.cons_append, List.nil_append, List.cons.injEq] at hk
          refine ⟨r, ?_⟩
          rw [hk.1]
          simp
      obtain ⟨l, r, rfl⟩ := List.append_of_mem he
      have hsub := ih e he (hd.entry he) hmem hpre
      rw [walkEntries_append, walkEntries, if_pos hshown]
      exact hsub.trans ((List.sublist_append_right ..).trans (List.sublist_append_left ..))

end

end NamedTree
