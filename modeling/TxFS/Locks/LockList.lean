import TxFS.Locks.NoCrash

/-!
# The Lock List without Clean Releases

A release can leave shared links to a freed record, and later records are then hung behind
the freed one. The lock list itself stays intact: what `head_lock_list` and `next` lead to
are records that are not freed, so a search never returns a freed record.
-/

namespace TxFS

open LinkedPath GuardedRun

namespace LockTable

variable {t t' : LockTable} {On : Addr → Prop} {a l : Addr} {c : FileLock}

/-- The records in `On` are linked by `next` and `prev` among themselves, and nothing outside
    of `On` is linked to them. -/
structure ListIntact (t : LockTable) (On : Addr → Prop) : Prop where
  head : ∀ a, t.headLockList = some a → On a
  mem : ∀ a, On a → a ∈ t.allocated
  next : ∀ a b, On a → (t.cells a).next = some b →
    On b ∧ (t.cells b).prev = some a ∧ t.headLockList ≠ some b
  prev : ∀ a p, On a → t.headLockList ≠ some a → (t.cells a).prev = some p →
    On p ∧ (t.cells p).next = some a
  offNext : ∀ a b, ¬ On a → (t.cells a).next = some b → ¬ On b
  offPrev : ∀ a p, ¬ On a → (t.cells a).prev = some p → ¬ On p
  below : ∀ a b, (t.cells a).next = some b ∨ (t.cells a).prev = some b ∨
    (t.cells a).nextSharedRec = some b → b < t.brk

/-- The lock list does not see the other fields. -/
theorem ListIntact.congr (h : ListIntact t On) (halloc : t'.allocated = t.allocated)
    (hbrk : t'.brk = t.brk) (hhead : t'.headLockList = t.headLockList)
    (hlinks : ∀ b, (t'.cells b).next = (t.cells b).next ∧ (t'.cells b).prev = (t.cells b).prev ∧
      (t'.cells b).nextSharedRec = (t.cells b).nextSharedRec) : ListIntact t' On := by
  constructor
  case head =>
    rw [hhead]
    exact h.head
  case mem =>
    rw [halloc]
    exact h.mem
  case next =>
    intro a b
    rw [hhead, (hlinks a).1, (hlinks b).2.1]
    exact h.next a b
  case prev =>
    intro a p
    rw [hhead, (hlinks a).2.1, (hlinks p).1]
    exact h.prev a p
  case offNext =>
    intro a b
    rw [(hlinks a).1]
    exact h.offNext a b
  case offPrev =>
    intro a p
    rw [(hlinks a).2.1]
    exact h.offPrev a p
  case below =>
    intro a b
    rw [(hlinks a).1, (hlinks a).2.1, (hlinks a).2.2, hbrk]
    exact h.below a b

/-- Freed records keep no links. -/
theorem deleteFileList_freed (h : t.deleteFileList a = some t') :
    (t'.cells a).next = none ∧ (t'.cells a).prev = none ∧ (t'.cells a).nextSharedRec = none := by
  have hfreed : ∀ t₁ : LockTable, ((t₁.freeFileNode a).cells a).next = none ∧
      ((t₁.freeFileNode a).cells a).prev = none ∧
      ((t₁.freeFileNode a).cells a).nextSharedRec = none := by
    intro t₁
    simp [freeFileNode, modify]
  unfold deleteFileList at h
  dsimp only at h
  split at h
  · cases h
    exact hfreed _
  · split at h
    · cases h
    · split at h
      · cases h
        exact hfreed _
      · cases h
        exact hfreed _

/-- **Deletion** keeps the list intact, also for a record that is not on it. -/
theorem ListIntact.delete (h : ListIntact t On) (hnd : t.allocated.Nodup)
    (hdel : t.deleteFileList a = some t') : ListIntact t' fun b => On b ∧ b ≠ a := by
  obtain ⟨halloc, hbrk, hhead⟩ := deleteFileList_rest hdel
  obtain ⟨hnextA, hprevA, hsharedA⟩ := deleteFileList_freed hdel
  -- the links of the other records
  have hnext : ∀ b ≠ a, (t'.cells b).next =
      if t.headLockList ≠ some a ∧ (t.cells a).prev = some b then (t.cells a).next
        else (t.cells b).next := by
    intro b hb
    rw [deleteFileList_cells hdel hb]
  have hprev : ∀ b ≠ a, (t'.cells b).prev =
      if (t.cells a).next = some b then
        (if t.headLockList = some a then (t.cells a).next else (t.cells a).prev)
      else (t.cells b).prev := by
    intro b hb
    rw [deleteFileList_cells hdel hb]
  have hshared : ∀ b ≠ a, (t'.cells b).nextSharedRec = (t.cells b).nextSharedRec := by
    intro b hb
    rw [deleteFileList_cells hdel hb]
  -- a record in front of `a` on the list, or behind it, is on the list only if `a` is
  have hfront : ∀ b, On b → (t.cells a).prev = some b → On a := by
    intro b hb hpa
    by_contra ha
    exact h.offPrev a b ha hpa hb
  have hbehind : ∀ b, On b → (t.cells a).next = some b → On a := by
    intro b hb hna
    by_contra ha
    exact h.offNext a b ha hna hb
  constructor
  case head =>
    intro b hb
    rw [hhead] at hb
    split at hb
    · rename_i hheadA
      -- the head goes, so the record behind it is the new one
      obtain ⟨hon, hpb, hne⟩ := h.next a b (h.head a hheadA) hb
      exact ⟨hon, fun hba => hne (hba ▸ hheadA)⟩
    · rename_i hheadA
      exact ⟨h.head b hb, fun hba => hheadA (hba ▸ hb)⟩
  case mem =>
    intro b hb
    rw [halloc, hnd.mem_erase_iff]
    exact ⟨hb.2, h.mem b hb.1⟩
  case next =>
    intro b c hb hbc
    obtain ⟨hb, hba⟩ := hb
    rw [hnext b hba] at hbc
    split at hbc
    · -- `b` is in front of `a`: its link now leads past `a`
      rename_i hpa
      have ha := hfront b hb hpa.2
      obtain ⟨hc, hpc, hne⟩ := h.next a c ha hbc
      have hca : c ≠ a := by
        intro hca
        subst hca
        rw [hpa.2] at hpc
        exact hba (Option.some.inj hpc)
      refine ⟨⟨hc, hca⟩, ?_, ?_⟩
      · rw [hprev c hca, if_pos hbc, if_neg hpa.1]
        exact hpa.2
      · rw [hhead, if_neg hpa.1]
        exact hne
    · rename_i hpa
      -- another link: it does not lead to `a`
      obtain ⟨hc, hpc, hne⟩ := h.next b c hb hbc
      have hca : c ≠ a := by
        intro hca
        subst hca
        exact hpa ⟨hne, hpc⟩
      -- two records have no common next one
      have hna : (t.cells a).next ≠ some c := by
        intro hna
        have hpc' := (h.next a c (hbehind c hc hna) hna).2.1
        rw [hpc] at hpc'
        exact hba (Option.some.inj hpc')
      refine ⟨⟨hc, hca⟩, ?_, ?_⟩
      · rw [hprev c hca, if_neg hna]
        exact hpc
      · rw [hhead]
        split
        · exact hna
        · exact hne
  case prev =>
    intro b p hb hheadB hbp
    obtain ⟨hb, hba⟩ := hb
    rw [hhead] at hheadB
    rw [hprev b hba] at hbp
    split at hbp
    · -- `b` is behind `a`
      rename_i hna
      have ha := hbehind b hb hna
      -- if `a` were the head, `b` would be the new one
      have hheadA : t.headLockList ≠ some a := by
        intro hheadA
        rw [if_pos hheadA] at hheadB
        exact hheadB hna
      rw [if_neg hheadA] at hbp
      obtain ⟨hp, hnp⟩ := h.prev a p ha hheadA hbp
      have hpa : p ≠ a := by
        intro hpa
        subst hpa
        rw [hna] at hnp
        exact hba (Option.some.inj hnp)
      refine ⟨⟨hp, hpa⟩, ?_⟩
      rw [hnext p hpa, if_pos ⟨hheadA, hbp⟩]
      exact hna
    · rename_i hna
      -- not behind `a`: `b` keeps the record in front of it
      have hheadB' : t.headLockList ≠ some b := by
        intro hb'
        have hheadA : t.headLockList ≠ some a := fun hheadA =>
          hba (Option.some.inj (hb'.symm.trans hheadA))
        rw [if_neg hheadA] at hheadB
        exact hheadB hb'
      obtain ⟨hp, hnp⟩ := h.prev b p hb hheadB' hbp
      have hpa : p ≠ a := by
        intro hpa
        subst hpa
        exact hna hnp
      refine ⟨⟨hp, hpa⟩, ?_⟩
      rw [hnext p hpa, if_neg]
      · exact hnp
      · -- two records have no common one in front
        intro hpred
        have hnp' := (h.prev a p (hfront p hp hpred.2) hpred.1 hpred.2).2
        rw [hnp] at hnp'
        exact hba (Option.some.inj hnp')
  case offNext =>
    intro b c hb hbc hc
    by_cases hba : b = a
    · -- `a` itself has no links any more
      subst hba
      rw [hnextA] at hbc
      cases hbc
    · -- a record off the list that was in front of `a`, or one whose link is as it was
      have hb' : ¬ On b := fun hon => hb ⟨hon, hba⟩
      rw [hnext b hba] at hbc
      split at hbc
      · rename_i hpa
        -- `a` is not on the list either
        have ha : ¬ On a := fun ha => hb' (h.prev a b ha hpa.1 hpa.2).1
        exact h.offNext a c ha hbc hc.1
      · exact h.offNext b c hb' hbc hc.1
  case offPrev =>
    intro b p hb hbp hp
    by_cases hba : b = a
    · subst hba
      rw [hprevA] at hbp
      cases hbp
    · have hb' : ¬ On b := fun hon => hb ⟨hon, hba⟩
      rw [hprev b hba] at hbp
      split at hbp
      · rename_i hna
        have ha : ¬ On a := fun ha => hb' (h.next a b ha hna).1
        rw [if_neg fun hheadA => ha (h.head a hheadA)] at hbp
        exact h.offPrev a p ha hbp hp.1
      · exact h.offPrev b p hb' hbp hp.1
  case below =>
    intro b p hbp
    rw [hbrk]
    by_cases hba : b = a
    · subst hba
      rw [hnextA, hprevA, hsharedA] at hbp
      rcases hbp with hbp | hbp | hbp <;> cases hbp
    · rw [hnext b hba, hprev b hba, hshared b hba] at hbp
      have hb := h.below b p
      have ha := h.below a p
      grind

/-- Unlinking shared records keeps the list intact. -/
theorem ListIntact.unlinkShared (h : ListIntact t On) : ListIntact (t.unlinkShared a) On := by
  obtain ⟨halloc, hbrk, hhead⟩ := unlinkShared_rest (t := t) (a := a)
  constructor
  case head =>
    rw [hhead]
    exact h.head
  case mem =>
    rw [halloc]
    exact h.mem
  case next =>
    intro b d
    rw [hhead, unlinkShared_cells, unlinkShared_cells]
    exact h.next b d
  case prev =>
    intro b p
    rw [hhead, unlinkShared_cells, unlinkShared_cells]
    exact h.prev b p
  case offNext =>
    intro b d
    rw [unlinkShared_cells]
    exact h.offNext b d
  case offPrev =>
    intro b p
    rw [unlinkShared_cells]
    exact h.offPrev b p
  case below =>
    intro b p hbp
    rw [hbrk]
    rw [unlinkShared_cells] at hbp
    have hb := h.below b p
    have ha := h.below a p
    grind

/-! ## Insertion -/

/-- Nothing leads to the next free address. -/
theorem ListIntact.fresh (h : ListIntact t On) (b : Addr) :
    (t.cells b).next ≠ some t.brk ∧ (t.cells b).prev ≠ some t.brk := by
  constructor
  · intro hb
    exact Nat.lt_irrefl _ (h.below b t.brk (.inl hb))
  · intro hb
    exact Nat.lt_irrefl _ (h.below b t.brk (.inr (.inl hb)))

/-- **Insertion** behind `l`: the new record is on the list if `l` is. The record `c` has the
    links of `get_file_node`, and maybe a `prev_shared_rec`. -/
theorem ListIntact.insertAfter (h : ListIntact t On) (hlt : ∀ b ∈ t.allocated, b < t.brk)
    (hl : l < t.brk) (hc : c.nextSharedRec = none) :
    ListIntact (t.insertAfter l c) fun b => On b ∨ (b = t.brk ∧ On l) := by
  obtain ⟨halloc, hbrk, hhead⟩ := insertAfter_rest (t := t) (p := l) (c := c)
  have hlb : l ≠ t.brk := Nat.ne_of_lt hl
  have hnew := insertAfter_cells_new (c := c) hlb (h.fresh l).1
  have hold := fun b (hb : b ≠ t.brk) => insertAfter_cells (p := l) (c := c) hb
  generalize t.insertAfter l c = t' at halloc hbrk hhead hnew hold ⊢
  have hnewOff : ¬ On t.brk := fun hon => Nat.lt_irrefl _ (hlt _ (h.mem _ hon))
  have hne : ∀ b, On b → b ≠ t.brk := fun b hb hbb => hnewOff (hbb ▸ hb)
  have hnext : ∀ b ≠ t.brk, (t'.cells b).next = if b = l then some t.brk else (t.cells b).next :=
    fun b hb => by rw [hold b hb]
  have hprev : ∀ b ≠ t.brk, (t'.cells b).prev =
      if (t.cells l).next = some b then some t.brk else (t.cells b).prev :=
    fun b hb => by rw [hold b hb]
  have hnextNew : (t'.cells t.brk).next = (t.cells l).next := by rw [hnew]
  have hprevNew : (t'.cells t.brk).prev = some l := by rw [hnew]
  constructor
  case head =>
    intro b hb
    rw [hhead] at hb
    exact .inl (h.head b hb)
  case mem =>
    intro b hb
    rw [halloc]
    rcases hb with hb | ⟨rfl, -⟩
    · exact List.mem_cons_of_mem _ (h.mem b hb)
    · exact List.mem_cons_self ..
  case next =>
    intro b d hb hbd
    rw [hhead]
    rcases hb with hb | ⟨rfl, hon⟩
    · rw [hnext b (hne b hb)] at hbd
      split at hbd
      · -- behind `l` stands the new record
        rename_i hbl
        subst hbl
        cases hbd
        refine ⟨.inr ⟨rfl, hb⟩, hprevNew, ?_⟩
        intro hheadNew
        exact hnewOff (h.head _ hheadNew)
      · rename_i hbl
        -- a link that is as it was: `d` is not the record behind `l`
        obtain ⟨hd, hpd, hheadD⟩ := h.next b d hb hbd
        refine ⟨.inl hd, ?_, hheadD⟩
        rw [hprev d (hne d hd), if_neg]
        · exact hpd
        · intro hnl
          have hlOn : On l := by
            by_contra hoff
            exact h.offNext l d hoff hnl hd
          have hpd' := (h.next l d hlOn hnl).2.1
          rw [hpd] at hpd'
          exact hbl (Option.some.inj hpd')
    · -- the new record leads to the one that was behind `l`
      rw [hnextNew] at hbd
      obtain ⟨hd, -, hheadD⟩ := h.next l d hon hbd
      refine ⟨.inl hd, ?_, hheadD⟩
      rw [hprev d (hne d hd), if_pos hbd]
  case prev =>
    intro b p hb hheadB hbp
    rw [hhead] at hheadB
    rcases hb with hb | ⟨rfl, hon⟩
    · rw [hprev b (hne b hb)] at hbp
      split at hbp
      · -- the record that was behind `l`
        rename_i hnl
        cases hbp
        have hlOn : On l := by
          by_contra hoff
          exact h.offNext l b hoff hnl hb
        exact ⟨.inr ⟨rfl, hlOn⟩, hnextNew.trans hnl⟩
      · rename_i hnl
        -- the record in front is not `l`
        obtain ⟨hp, hnp⟩ := h.prev b p hb hheadB hbp
        refine ⟨.inl hp, ?_⟩
        rw [hnext p (hne p hp), if_neg]
        · exact hnp
        · intro hpl
          subst hpl
          exact hnl hnp
    · -- the new record stands behind `l`
      rw [hprevNew] at hbp
      cases hbp
      refine ⟨.inl hon, ?_⟩
      rw [hnext l hlb, if_pos rfl]
  case offNext =>
    intro b d hb hbd hd
    have hbOff : ¬ On b := fun hon => hb (.inl hon)
    by_cases hbb : b = t.brk
    · subst hbb
      -- the new record is off the list, so `l` is too
      have hlOff : ¬ On l := fun hon => hb (.inr ⟨rfl, hon⟩)
      rw [hnextNew] at hbd
      rcases hd with hd | ⟨-, hon⟩
      · exact h.offNext l d hlOff hbd hd
      · exact hlOff hon
    · rw [hnext b hbb] at hbd
      split at hbd
      · rename_i hbl
        subst hbl
        cases hbd
        rcases hd with hd | ⟨-, hon⟩
        · exact hnewOff hd
        · exact hbOff hon
      · rcases hd with hd | ⟨rfl, -⟩
        · exact h.offNext b d hbOff hbd hd
        · -- no old record leads to the new one
          exact (h.fresh b).1 hbd
  case offPrev =>
    intro b p hb hbp hp
    have hbOff : ¬ On b := fun hon => hb (.inl hon)
    by_cases hbb : b = t.brk
    · subst hbb
      have hlOff : ¬ On l := fun hon => hb (.inr ⟨rfl, hon⟩)
      rw [hprevNew] at hbp
      cases hbp
      rcases hp with hp | ⟨-, hon⟩
      · exact hlOff hp
      · exact hlOff hon
    · rw [hprev b hbb] at hbp
      split at hbp
      · rename_i hnl
        cases hbp
        rcases hp with hp | ⟨-, hon⟩
        · exact hnewOff hp
        · exact hbOff (h.next l b hon hnl).1
      · rcases hp with hp | ⟨rfl, -⟩
        · exact h.offPrev b p hbOff hbp hp
        · exact (h.fresh b).2 hbp
  case below =>
    intro b p hbp
    rw [hbrk]
    have hlBelow := h.below l p
    have hbBelow := h.below b p
    by_cases hbb : b = t.brk
    · subst hbb
      -- the new record has the links of `l` and of its own cell
      rw [hnew] at hbp
      simp only [hc] at hbp
      grind
    · rw [hold b hbb] at hbp
      grind

/-- The shared links of a record do not count. -/
theorem ListIntact.insertShared (h : ListIntact t On) (hlt : ∀ b ∈ t.allocated, b < t.brk)
    (hl : l < t.brk) (hc : c.nextSharedRec = none) (hins : t.insertShared l c = some t') :
    ∃ On', ListIntact t' On' := by
  simp only [LockTable.insertShared, Option.bind_eq_bind, Option.bind_eq_some_iff,
    Option.some.injEq] at hins
  obtain ⟨p, hwalk, rfl⟩ := hins
  -- the walk along `next_shared_rec` ends at some record, freed or not
  have hp : p < t.brk := (walkToEnd_induct (P := fun a => a < t.brk)
    (fun a b _ hab => h.below a b (.inr (.inr hab))) hl hwalk).1
  have hafter := h.insertAfter hlt hp (c := { c with prevSharedRec := some p }) hc
  have hbrk := (insertAfter_rest (t := t) (p := p) (c := { c with prevSharedRec := some p })).2.1
  generalize t.insertAfter p { c with prevSharedRec := some p } = t₁ at hafter hbrk
  -- apart from the insertion behind `p` only a shared link changes
  have hcell : ∀ b, (t₁.modify p fun d => { d with nextSharedRec := some t.brk }).cells b =
      { t₁.cells b with
        nextSharedRec := if b = p then some t.brk else (t₁.cells b).nextSharedRec } := by
    intro b
    by_cases hbp : b = p
    · subst hbp
      rw [modify_cells_self, if_pos rfl]
    · rw [modify_cells_of_ne hbp, if_neg hbp]
  refine ⟨_, hafter.head, hafter.mem, ?_, ?_, ?_, ?_, ?_⟩
  · intro b d
    rw [hcell, hcell]
    exact hafter.next b d
  · intro b q
    rw [hcell, hcell]
    exact hafter.prev b q
  · intro b d
    rw [hcell]
    exact hafter.offNext b d
  · intro b q
    rw [hcell]
    exact hafter.offPrev b q
  · intro b q hbq
    show q < t₁.brk
    rw [hcell] at hbq
    have hb := hafter.below b q
    grind

/-- **A new head** keeps the list intact, with the old one, if there is one, behind it. -/
theorem ListIntact.newHead (h : ListIntact t On) (hlt : ∀ b ∈ t.allocated, b < t.brk)
    (halloc : t'.allocated = t.brk :: t.allocated) (hbrk : t'.brk = t.brk + 1)
    (hhead : t'.headLockList = some t.brk)
    (hnew : (t'.cells t.brk).next = t.headLockList ∧ (t'.cells t.brk).prev = some t.brk ∧
      (t'.cells t.brk).nextSharedRec = none)
    (hnext : ∀ b ≠ t.brk, (t'.cells b).next = (t.cells b).next)
    (hprev : ∀ b ≠ t.brk, (t'.cells b).prev =
      if t.headLockList = some b then some t.brk else (t.cells b).prev)
    (hshared : ∀ b ≠ t.brk, (t'.cells b).nextSharedRec = (t.cells b).nextSharedRec) :
    ListIntact t' fun b => On b ∨ b = t.brk := by
  obtain ⟨hnewNext, hnewPrev, hnewShared⟩ := hnew
  have hne : ∀ b, On b → b ≠ t.brk := fun b hb hbb =>
    Nat.lt_irrefl _ (hlt _ (hbb ▸ h.mem b hb))
  have hnot : ∀ {b}, b ≠ t.brk → t'.headLockList ≠ some b := by
    intro b hb heq
    exact hb (Option.some.inj (heq.symm.trans hhead))
  constructor
  case head =>
    intro b hb
    exact .inr (Option.some.inj (hb.symm.trans hhead))
  case mem =>
    intro b hb
    rw [halloc]
    rcases hb with hb | rfl
    · exact List.mem_cons_of_mem _ (h.mem b hb)
    · exact List.mem_cons_self ..
  case next =>
    intro b d hb hbd
    rcases hb with hb | rfl
    · -- the old records keep their order
      rw [hnext b (hne b hb)] at hbd
      obtain ⟨hd, hpd, hheadD⟩ := h.next b d hb hbd
      refine ⟨.inl hd, ?_, hnot (hne d hd)⟩
      rw [hprev d (hne d hd), if_neg hheadD]
      exact hpd
    · -- the old head
      rw [hnewNext] at hbd
      have hd := h.head d hbd
      refine ⟨.inl hd, ?_, hnot (hne d hd)⟩
      rw [hprev d (hne d hd), if_pos hbd]
  case prev =>
    intro b p hb hheadB hbp
    have hbb : b ≠ t.brk := fun hbb => hheadB (hbb ▸ hhead)
    have hb := hb.resolve_right hbb
    rw [hprev b hbb] at hbp
    split at hbp
    · rename_i hold
      -- the old head is now behind the new one
      cases hbp
      exact ⟨.inr rfl, hnewNext.trans hold⟩
    · rename_i hold
      obtain ⟨hp, hnp⟩ := h.prev b p hb hold hbp
      exact ⟨.inl hp, (hnext p (hne p hp)).trans hnp⟩
  case offNext =>
    intro b d hb hbd hd
    rw [hnext b fun hbb => hb (.inr hbb)] at hbd
    rcases hd with hd | rfl
    · exact h.offNext b d (fun hon => hb (.inl hon)) hbd hd
    · exact (h.fresh b).1 hbd
  case offPrev =>
    intro b p hb hbp hp
    -- a record off the list is not the old head
    have hold : t.headLockList ≠ some b := fun hold => hb (.inl (h.head b hold))
    rw [hprev b fun hbb => hb (.inr hbb), if_neg hold] at hbp
    rcases hp with hp | rfl
    · exact h.offPrev b p (fun hon => hb (.inl hon)) hbp hp
    · exact (h.fresh b).2 hbp
  case below =>
    intro b p hbp
    rw [hbrk]
    by_cases hbb : b = t.brk
    · subst hbb
      rw [hnewNext, hnewPrev, hnewShared] at hbp
      rcases hbp with hold | hself | hnil
      · exact Nat.lt_succ_of_lt (hlt p (h.mem p (h.head p hold)))
      · cases hself
        exact Nat.lt_succ_self _
      · cases hnil
    · rw [hnext b hbb, hprev b hbb, hshared b hbb] at hbp
      have hb := h.below b p
      split at hbp
      · rcases hbp with hn | hself | hs
        · exact Nat.lt_succ_of_lt (hb (.inl hn))
        · cases hself
          exact Nat.lt_succ_self _
        · exact Nat.lt_succ_of_lt (hb (.inr (.inr hs)))
      · exact Nat.lt_succ_of_lt (hb hbp)

/-- A new record in front of the list. -/
theorem ListIntact.insertUnlocked {loc : Option Addr} (h : ListIntact t On)
    (hlt : ∀ b ∈ t.allocated, b < t.brk) (hnone : loc = none → t.headLockList = none)
    (hsome : ∀ l, loc = some l → On l) (hc : c.nextSharedRec = none) (hcn : c.next = none) :
    ∃ On', ListIntact (t.insertUnlocked loc c) On' := by
  unfold LockTable.insertUnlocked
  cases loc with
  | none =>
    -- an empty list: the new record is the only one
    have hhead := hnone rfl
    refine ⟨_, h.newHead hlt rfl rfl rfl ⟨?_, ?_, ?_⟩ ?_ ?_ ?_⟩
    · rw [hhead]
      show ((t.alloc { c with prev := some t.brk }).cells t.brk).next = none
      rw [alloc_cells_self]
      exact hcn
    · show ((t.alloc { c with prev := some t.brk }).cells t.brk).prev = some t.brk
      rw [alloc_cells_self]
    · show ((t.alloc { c with prev := some t.brk }).cells t.brk).nextSharedRec = none
      rw [alloc_cells_self]
      exact hc
    · intro b hb
      show ((t.alloc { c with prev := some t.brk }).cells b).next = _
      rw [alloc_cells_of_ne hb]
    · intro b hb
      show ((t.alloc { c with prev := some t.brk }).cells b).prev = _
      rw [alloc_cells_of_ne hb, hhead, if_neg nofun]
    · intro b hb
      show ((t.alloc { c with prev := some t.brk }).cells b).nextSharedRec = _
      rw [alloc_cells_of_ne hb]
  | some l =>
    have hl : On l := hsome l rfl
    dsimp only
    split
    · -- `l` was the head and is now behind the new record
      rename_i hfront
      obtain ⟨hhead, -⟩ := hfront
      have hlb : t.brk ≠ l := fun hlb => Nat.lt_irrefl _ (hlt _ (hlb ▸ h.mem l hl))
      have hnew : ((t.alloc { c with next := some l, prev := some t.brk }).modify l
          fun d => { d with prev := some t.brk }).cells t.brk =
          { c with next := some l, prev := some t.brk } := by
        rw [modify_cells_of_ne hlb, alloc_cells_self]
      -- the other records change only where `l` gets the new one in front
      have hold : ∀ b ≠ t.brk, ((t.alloc { c with next := some l, prev := some t.brk }).modify l
          fun d => { d with prev := some t.brk }).cells b =
          if b = l then { t.cells b with prev := some t.brk } else t.cells b := by
        intro b hb
        split
        · rename_i hbl
          subst hbl
          rw [modify_cells_self, alloc_cells_of_ne hb]
        · rename_i hbl
          rw [modify_cells_of_ne hbl, alloc_cells_of_ne hb]
      refine ⟨_, h.newHead hlt rfl rfl rfl ⟨?_, ?_, ?_⟩ ?_ ?_ ?_⟩
      · exact (congrArg FileLock.next hnew).trans hhead.symm
      · exact congrArg FileLock.prev hnew
      · exact (congrArg FileLock.nextSharedRec hnew).trans hc
      · intro b hb
        refine (congrArg FileLock.next (hold b hb)).trans ?_
        split <;> rfl
      · intro b hb
        refine (congrArg FileLock.prev (hold b hb)).trans ?_
        rw [hhead]
        by_cases hbl : b = l
        · rw [if_pos hbl, if_pos (congrArg some hbl.symm)]
        · rw [if_neg hbl, if_neg fun hlb => hbl (Option.some.inj hlb).symm]
      · intro b hb
        refine (congrArg FileLock.nextSharedRec (hold b hb)).trans ?_
        split <;> rfl
    · -- else the new record goes behind `l`
      exact ⟨_, h.insertAfter hlt (hlt l (h.mem l hl)) hc⟩

/-- **A search returns a record of the list**. -/
theorem ListIntact.search {i : Int} {found : Bool} {loc : Option Addr} (h : ListIntact t On)
    (hsearch : t.searchFileList i = some (found, loc)) :
    (loc = none → t.headLockList = none) ∧ ∀ l, loc = some l → On l := by
  -- the loop stays on the list
  have hloop : ∀ n foll ptr foll' ptr', On foll → (∀ p, ptr = some p → On p) →
      t.searchLoop i n foll ptr = some (foll', ptr') → On foll' ∧ ∀ p, ptr' = some p → On p := by
    intro n
    induction n with
    | zero =>
      intro foll ptr foll' ptr' _ _ hl
      cases hl
    | succ n ih =>
      intro foll ptr foll' ptr' hfoll hptr hl
      cases ptr with
      | none =>
        cases hl
        exact ⟨hfoll, by simp⟩
      | some p =>
        rw [searchLoop] at hl
        split at hl
        · cases hl
          exact ⟨hfoll, hptr⟩
        · have hp := hptr p rfl
          exact ih p _ foll' ptr' hp (fun q hq => (h.next p q hp hq).1) hl
  unfold searchFileList at hsearch
  cases hhead : t.headLockList with
  | none =>
    rw [hhead] at hsearch
    cases hsearch
    exact ⟨fun _ => rfl, by simp⟩
  | some x =>
    rw [hhead] at hsearch
    simp only [Option.bind_eq_bind, Option.bind_eq_some_iff] at hsearch
    obtain ⟨⟨foll, ptr⟩, hl, hsearch⟩ := hsearch
    have hx := h.head x hhead
    obtain ⟨hfoll, hptr⟩ := hloop _ _ _ _ _ hx (fun p hp => (h.next x p hx hp).1) hl
    -- every result is where the loop stopped, or the record in front of it
    have hresult : ∃ l, loc = some l ∧ On l := by
      cases ptr with
      | none =>
        dsimp only at hsearch
        split at hsearch
        · cases hsearch
          exact ⟨foll, rfl, hfoll⟩
        · cases hsearch
          exact ⟨foll, rfl, hfoll⟩
      | some p =>
        dsimp only at hsearch
        split at hsearch
        · cases hsearch
          exact ⟨p, rfl, hptr p rfl⟩
        split at hsearch
        · cases hsearch
          exact ⟨foll, rfl, hfoll⟩
        · cases hsearch
          exact ⟨foll, rfl, hfoll⟩
    obtain ⟨l, rfl, hl⟩ := hresult
    refine ⟨by simp, ?_⟩
    intro l' hl'
    cases hl'
    exact hl

end LockTable

namespace Server

variable {s s' : Server} {t : Int} {a : Addr} {acts : List Act} {close : Bool → Int → Option Act}
  {e : Event}

/-- The lock list of the server is intact. -/
def HasLockList (s : Server) : Prop := ∃ On, s.table.ListIntact On

theorem HasLockList.sameLinks (h : HasLockList s) (hlinks : s.table.SameLinks s'.table) :
    HasLockList s' := by
  obtain ⟨On, h⟩ := h
  refine ⟨On, h.congr hlinks.allocated hlinks.brk hlinks.head ?_⟩
  intro b
  obtain ⟨_, _, _, hcell⟩ := hlinks.cells b
  rw [hcell]
  exact ⟨rfl, rfl, rfl⟩

theorem ReleaseSpec.hasLockList (hspec : ReleaseSpec close s a s' acts) (h : HasLockList s)
    (hnd : s.table.allocated.Nodup) : HasLockList s' := by
  obtain ⟨On, h⟩ := h
  cases hspec with
  | quiet hwait htable => exact ⟨_, h.delete hnd htable⟩
  | unlinked hwait hmode hlinks htable =>
    refine ⟨_, h.unlinkShared.delete ?_ htable⟩
    rw [LockTable.unlinkShared_rest.1]
    exact hnd
  | woken hwait hlast htable => exact ⟨_, h.delete hnd htable⟩

theorem Frees.hasLockList {l : List Addr} (hfree : Frees close s t l a s' acts)
    (h : HasLockList s) (hnd : s.table.allocated.Nodup) : HasLockList s' := by
  obtain ⟨n, r, -, -, hspec⟩ := hfree
  obtain ⟨table, ns, hunlink, halloc, hbrk, hhead, hcells, -⟩ :=
    s.unlinkTxnList_frame t l.getLast? a
  rw [hunlink] at hspec
  obtain ⟨On, h⟩ := h
  refine hspec.hasLockList ⟨On, h.congr halloc hbrk hhead ?_⟩ (halloc ▸ hnd)
  intro b
  rw [hcells]
  exact ⟨rfl, rfl, rfl⟩

theorem releaseLocks_hasLockList {prepare : Server → Addr → Option (Server × List Act)}
    (hprep : ∀ s a s₁ pre, prepare s a = some (s₁, pre) → SameButData s s₁)
    (hown : Owned s.table s.headTxnList) (h : HasLockList s)
    (hrel : releaseLocks prepare close s t = some (s', acts)) : HasLockList s' := by
  refine (releaseLocks_rule (I := fun s₁ _ => Owned s₁.table s₁.headTxnList ∧ HasLockList s₁)
    (Q := fun _ => True) (fun s₁ done hI => hI.1)
    (fun s a s₁ pre hpre => ⟨hprep s a s₁ pre hpre, trivial⟩) ?_ ?_ hrel ⟨hown, h⟩).1.2
  · intro s₁ s₂ pre done hI hdata _
    obtain ⟨table, rfl, hlinks⟩ := hdata
    exact ⟨hI.1.sameLinks hlinks (.refl _), hI.2.sameLinks hlinks⟩
  · intro s₁ b s₂ acts done hI hfree
    exact ⟨hfree.owned hI.1, hfree.hasLockList hI.2 hI.1.nodup⟩

theorem GrantedIn.hasLockList {readBit : Int} {table : LockTable}
    (hgrant : GrantedIn s t readBit table s') (h : ∃ On, table.ListIntact On) :
    HasLockList s' := by
  obtain ⟨table', _, _, _, rfl, -, halloc, hbrk, hhead, hcells⟩ := hgrant.frame
  obtain ⟨On, h⟩ := h
  refine ⟨On, h.congr halloc hbrk hhead ?_⟩
  intro b
  obtain ⟨nx, hcell⟩ := hcells b
  show (table'.cells b).next = _ ∧ (table'.cells b).prev = _ ∧ (table'.cells b).nextSharedRec = _
  rw [hcell]
  exact ⟨rfl, rfl, rfl⟩

theorem requestLock_hasLockList {req : LockRequest} {first : Option (Option Addr)}
    {readBit : Int} (hown : Owned s.table s.headTxnList) (h : HasLockList s)
    (hreq : s.requestLock t req first readBit = some s') : HasLockList s' := by
  obtain ⟨found, loc, s₁, out, hsearch, hspec, hlinks, -⟩ := requestLock_frame hreq
  apply HasLockList.sameLinks _ hlinks
  obtain ⟨On, hon⟩ := id h
  obtain ⟨hnone, hsome⟩ := hon.search hsearch
  cases hspec with
  | held => exact h
  | unlocked hadm hgrant =>
    exact hgrant.hasLockList (hon.insertUnlocked hown.lt_brk hnone hsome rfl rfl)
  | @shared l table s₁ hloc howner hmode hfl hadm htable hgrant =>
    have hl : l < s.table.brk := hown.lt_brk l (hon.mem l (hsome l hloc))
    exact hgrant.hasLockList (hon.insertShared hown.lt_brk hl rfl htable)
  | newNode => exact h
  | oldNode => exact h
  | refused hs' hout =>
    obtain ⟨_, _, _, rfl, -⟩ := hs'
    exact h

theorem endTxn_table {records : Int} (h : s.endTxn t records = some s') : s'.table = s.table := by
  obtain ⟨ns, -, rfl⟩ := endTxn_spec h
  rfl

theorem hasLockList_step (hown : Owned s.table s.headTxnList) (h : HasLockList s)
    (hstep : s.step e = some s') : HasLockList s' := by
  have hquiet := step_quiet hstep
  have htable : ∀ {s₁ s₂ : Server}, s₂.table = s₁.table → HasLockList s₁ → HasLockList s₂ := by
    intro s₁ s₂ heq hs₁
    unfold HasLockList
    rw [heq]
    exact hs₁
  cases step_spec hstep with
  | begin => exact h
  | lock hthread hreq => exact requestLock_hasLockList hown h hreq
  | resume hthread hreq => exact requestLock_hasLockList hown h hreq
  | commit hthread hrel hend =>
    exact htable (endTxn_table hend)
      (releaseLocks_hasLockList (fun _ _ _ _ => performWrites_sameButData) hown h hrel)
  | abort hthread hrel hend =>
    exact htable (endTxn_table hend)
      (releaseLocks_hasLockList (fun _ _ _ _ => discardWrites_sameButData) hown h hrel)
  | releaseByBackup hthread hrel =>
    obtain ⟨l, a, -, hfree⟩ := releaseLocksByBackup_spec hown hrel
    exact hfree.hasLockList h hown.nodup
  | endBackup hthread hnone hend => exact htable (endTxn_table hend) h
  | wake => exact h.sameLinks hquiet.1
  | leaveAsVictim => exact h.sameLinks hquiet.1
  | call => exact h.sameLinks hquiet.1
  | markVictim => exact h.sameLinks hquiet.1
  | setBackup => exact h

theorem hasLockList_globalInit {handles : Nat} : HasLockList (globalInit handles) := by
  refine ⟨fun _ => False, ?_⟩
  constructor
  case head =>
    intro a ha
    cases ha
  case mem =>
    intro a ha
    cases ha
  case next =>
    intro a b ha
    cases ha
  case prev =>
    intro a b ha
    cases ha
  case offNext =>
    intro a b _ _ hb
    exact hb
  case offPrev =>
    intro a b _ _ hb
    exact hb
  case below =>
    intro a b hab
    rcases hab with hab | hab | hab <;> cases hab

/-- **The lock list is intact in every run**. -/
theorem hasLockList_of_reachable {handles : Nat} {ok : Server → Event → Prop}
    (h : ReachableUnder (globalInit handles) step ok s) : HasLockList s := by
  have hboth : Owned s.table s.headTxnList ∧ HasLockList s :=
    h.invariant (P := fun s => Owned s.table s.headTxnList ∧ HasLockList s)
      ⟨owned_globalInit, hasLockList_globalInit⟩
      fun s e s' _ hs _ hstep => ⟨owned_step hs.1 hstep, hasLockList_step hs.1 hs.2 hstep⟩
  exact hboth.2

/-- A search never returns a freed record. -/
theorem HasLockList.search_mem {i : Int} {found : Bool} {l : Addr} (h : HasLockList s)
    (hsearch : s.table.searchFileList i = some (found, some l)) : l ∈ s.table.allocated := by
  obtain ⟨On, h⟩ := h
  exact h.mem l ((h.search hsearch).2 l rfl)

end Server

end TxFS
