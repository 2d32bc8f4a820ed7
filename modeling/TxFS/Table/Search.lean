import Mathlib.Data.List.TakeWhile
import TxFS.Table.Linked

/-!
# Search and Insertion in a Well-Linked Table

What `searchFileList` finds in a table whose lock list is `xs`, where the walk along
`next_shared_rec` ends, and that the two insertions behind them keep the table well linked.
-/

namespace TxFS

open LinkedPath

namespace LockTable

variable {t : LockTable} {xs l r : List Addr} {a b loc : Addr} {i : Int}

/-! ## The lock list as a path -/

/-- The lock list is the path from `head_lock_list`. -/
theorem WellLinked.isPath (h : WellLinked t xs) :
    IsPath (fun b => (t.cells b).next) t.headLockList xs :=
  h.doublyLinked.isPath

/-- Shared links to the next record of the inode lead through the records of the inode. -/
theorem isPath_sharedLinks (hnd : xs.Nodup)
    (hshared : ∀ b ∈ xs, (t.cells b).nextSharedRec =
      (after xs b).filter fun c => t.inode c = t.inode b) {p q : List Addr} (hxs : xs = p ++ a :: q) :
    IsPath (fun b => (t.cells b).nextSharedRec) (t.cells a).nextSharedRec
      (q.takeWhile fun b => t.inode b = t.inode a) := by
  have hlink := hshared a (by simp [hxs])
  have hnd' := hnd
  rw [hxs] at hnd'
  rw [hxs, after_split (notMem_split hnd').1] at hlink
  induction q generalizing p a with
  | nil => simpa [isPath_nil] using hlink
  | cons b q ih =>
    have hxs' : xs = (p ++ [a]) ++ b :: q := by simp [hxs]
    by_cases hsame : t.inode b = t.inode a
    · have hb : (t.cells a).nextSharedRec = some b := by
        simpa [Option.filter, hsame] using hlink
      rw [List.takeWhile_cons_of_pos (by simp [hsame])]
      refine ⟨hb, ?_⟩
      have hnd'' : (p ++ [a] ++ b :: q).Nodup := by simpa using hnd'
      have hlink' := hshared b (by simp [hxs])
      rw [hxs', after_split (notMem_split hnd'').1] at hlink'
      have hpath := ih hxs' hlink' hnd''
      simpa only [hsame] using hpath
    · rw [List.takeWhile_cons_of_neg (by simp [hsame])]
      simpa [isPath_nil, Option.filter, hsame] using hlink

/-- The shared links behind a record of a well-linked table. -/
theorem WellLinked.isPath_shared (h : WellLinked t xs) {p q : List Addr} (hxs : xs = p ++ a :: q) :
    IsPath (fun b => (t.cells b).nextSharedRec) (t.cells a).nextSharedRec
      (q.takeWhile fun b => t.inode b = t.inode a) :=
  isPath_sharedLinks h.nodup h.nextShared hxs

/-- In a sorted list only larger inodes come behind the records of the inode. -/
theorem lt_of_mem_dropWhile (hsorted : xs.Pairwise fun a b => t.inode a ≤ t.inode b)
    {p q : List Addr} (hxs : xs = p ++ a :: q)
    (hb : b ∈ q.dropWhile fun b => t.inode b = t.inode a) : t.inode a < t.inode b := by
  have hs := hsorted
  rw [hxs] at hs
  have hsq := (List.pairwise_cons.mp (List.pairwise_append.mp hs).2.1)
  have hsub := List.dropWhile_suffix (l := q) fun b => decide (t.inode b = t.inode a)
  rcases hdrop : q.dropWhile fun b => decide (t.inode b = t.inode a) with _ | ⟨d, ds⟩
  · simp [hdrop] at hb
  · have hd : ¬ t.inode d = t.inode a := by
      have := List.head?_dropWhile_not (fun b => decide (t.inode b = t.inode a)) q
      simpa [hdrop] using this
    rw [hdrop] at hb hsub
    have had := hsq.1 d (hsub.subset (List.mem_cons_self ..))
    have hdb : t.inode d ≤ t.inode b := by
      rcases List.mem_cons.mp hb with rfl | hb
      · exact Int.le_refl _
      · exact (List.pairwise_cons.mp (hsq.2.sublist hsub.sublist)).1 b hb
    omega

/-- `while (ptr->next_shared_rec != NULL)` from a record ends at the last record of its
    inode. -/
theorem WellLinked.walkToEnd_shared (h : WellLinked t xs) (hloc : loc ∈ xs) :
    ∃ l p r, xs = l ++ p :: r ∧ t.inode p = t.inode loc ∧ (∀ b ∈ r, t.inode p < t.inode b) ∧
      walkToEnd (fun b => (t.cells b).nextSharedRec) (t.brk + 1) loc = some p := by
  obtain ⟨l₀, q, hxs⟩ := List.append_of_mem hloc
  have hpath := h.isPath_shared hxs
  let same := q.takeWhile fun b => decide (t.inode b = t.inode loc)
  have hq : q = same ++ q.dropWhile fun b => decide (t.inode b = t.inode loc) :=
    List.takeWhile_append_dropWhile.symm
  have hlen : same.length < t.brk + 1 := by
    have hsub : same.Sublist xs := by
      rw [hxs]
      exact ((List.takeWhile_sublist _).trans (List.sublist_cons_self ..)).trans
        (List.sublist_append_right ..)
    exact Nat.lt_succ_of_le
      (length_le_brk (h.nodup.sublist hsub) fun a ha => h.lt_brk a (hsub.subset ha))
  have hwalk := walkToEnd_eq hpath hlen
  obtain ⟨front, p, hfront⟩ : ∃ front p, loc :: same = front ++ [p] :=
    ⟨_, _, (List.dropLast_append_getLast (List.cons_ne_nil loc same)).symm⟩
  have hp : t.inode p = t.inode loc := by
    have hmem : p ∈ loc :: same := by simp [hfront]
    rcases List.mem_cons.mp hmem with rfl | hmem
    · rfl
    · simpa using List.mem_takeWhile_imp hmem
  refine ⟨l₀ ++ front, p, q.dropWhile fun b => decide (t.inode b = t.inode loc), ?_, hp,
    fun b hb => ?_, ?_⟩
  · have hcons : loc :: q = (front ++ [p]) ++ q.dropWhile fun b => decide (t.inode b = t.inode loc) := by
      rw [← hfront, List.cons_append, ← hq]
    rw [hxs, hcons]
    simp
  · rw [hp]
    exact lt_of_mem_dropWhile h.sorted hxs hb
  · rw [hwalk]
    change (loc :: same).getLast? = some p
    rw [hfront]
    simp

/-! ## Search -/

/-- The loop stops at the first record with an inode that is not smaller. -/
theorem searchLoop_eq (i : Int) {fuel : Nat} (foll : Addr) {ptr : Option Addr} {zs : List Addr}
    (h : IsPath (fun b => (t.cells b).next) ptr zs) (hfuel : zs.length < fuel) :
    ∃ lo hi, zs = lo ++ hi ∧ (∀ b ∈ lo, t.inode b < i) ∧ (∀ b, hi.head? = some b → i ≤ t.inode b) ∧
      t.searchLoop i fuel foll ptr = some (lo.getLastD foll, hi.head?) := by
  induction zs generalizing fuel foll ptr with
  | nil =>
    obtain ⟨n, rfl⟩ := Nat.exists_eq_succ_of_ne_zero (Nat.ne_of_gt hfuel)
    have hs : ptr = none := h
    exact ⟨[], [], rfl, by simp, by simp, by simp [hs, searchLoop]⟩
  | cons b zs ih =>
    obtain ⟨n, rfl⟩ := Nat.exists_eq_succ_of_ne_zero (Nat.ne_of_gt (Nat.zero_lt_of_lt hfuel))
    have hs : ptr = some b := h.1
    subst hs
    have hlen : zs.length < n := by simpa using hfuel
    by_cases hb : t.inode b < i
    · have hb' : ¬ (t.cells b).fileInode ≥ i := by simpa [inode] using hb
      obtain ⟨lo, hi, hzs, hlo, hhi, hloop⟩ := @ih n b _ h.2 hlen
      refine ⟨b :: lo, hi, by simp [hzs], by simpa using ⟨hb, hlo⟩, hhi, ?_⟩
      simp only [searchLoop, hb', if_false, hloop, List.getLastD_cons]
    · have hb' : (t.cells b).fileInode ≥ i := by simpa [inode] using hb
      refine ⟨[], b :: zs, rfl, by simp, fun c hc => ?_, by simp [searchLoop, hb']⟩
      simp only [List.head?_cons, Option.some.injEq] at hc
      exact hc ▸ Int.not_lt.mp hb

/-- What a search tells: either `loc` is a record of the inode, or there is none and the
    place of a new record between `l` and `r` is given. -/
inductive SearchSpec (t : LockTable) (xs : List Addr) (i : Int) : Bool → Option Addr → Prop where
  | found {loc : Addr} (hmem : loc ∈ xs) (hinode : t.inode loc = i) :
      SearchSpec t xs i true (some loc)
  | notFound {l r : List Addr} (hxs : xs = l ++ r) (hl : ∀ b ∈ l, t.inode b < i)
      (hr : ∀ b ∈ r, i < t.inode b) :
      SearchSpec t xs i false (l.getLast?.or xs.head?)

/-- The last record the loop has left behind is the head itself or a smaller one. -/
theorem foll_cases (x : Addr) (lo : List Addr) :
    (lo.getLastD x = x ∧ lo = []) ∨ lo.getLast? = some (lo.getLastD x) := by
  rcases List.eq_nil_or_concat lo with hnil | ⟨lo', d, hconcat⟩
  · exact .inl ⟨by simp [hnil], hnil⟩
  · exact .inr (by simp [hconcat])

/-- `search_file_list` on a lock list with the head `x`: the loop leaves the smaller records
    `lo` behind and stops in front of `hi`. -/
theorem searchFileList_cons {x : Addr} {zs : List Addr}
    (h : IsPath (fun b => (t.cells b).next) t.headLockList (x :: zs))
    (hlt : ∀ b ∈ x :: zs, b < t.brk) (i : Int) :
    ∃ lo hi, zs = lo ++ hi ∧ (∀ b ∈ lo, t.inode b < i) ∧ (∀ b, hi.head? = some b → i ≤ t.inode b) ∧
      t.searchFileList i = some (match hi.head? with
        | some p =>
          if t.inode p = i then (true, some p)
          else if t.inode (lo.getLastD x) = i then (true, some (lo.getLastD x))
          else (false, some (lo.getLastD x))
        | none =>
          if t.inode (lo.getLastD x) = i then (true, some (lo.getLastD x))
          else (false, some (lo.getLastD x))) := by
  have hhead : t.headLockList = some x := h.1
  have hlen : zs.length < t.brk + 1 := by
    have hle := length_le_brk h.nodup hlt
    simp only [List.length_cons] at hle
    omega
  obtain ⟨lo, hi, hzs, hlo, hhi, hloop⟩ := searchLoop_eq i x h.2 hlen
  refine ⟨lo, hi, hzs, hlo, hhi, ?_⟩
  rw [searchFileList, hhead]
  simp only [hloop, Option.bind_eq_bind, Option.bind_some]
  cases hi with
  | nil =>
    show (if t.inode (lo.getLastD x) = i then _ else _) = _
    split <;> rfl
  | cons p hi =>
    show (if t.inode p = i then _ else if t.inode (lo.getLastD x) = i then _ else _) = _
    simp only [List.head?_cons]
    split
    · rfl
    · split <;> rfl

/-- When neither `foll` nor a later record is of the inode, `foll` is the place for a new
    one. -/
theorem DoublyLinked.searchSpec_place {x foll : Addr} {lo hi : List Addr}
    (h : DoublyLinked t (x :: (lo ++ hi))) (hlo : ∀ b ∈ lo, t.inode b < i)
    (hhi : ∀ b ∈ hi, i < t.inode b) (hfoll : (foll = x ∧ lo = []) ∨ lo.getLast? = some foll)
    (hne : t.inode foll ≠ i) : SearchSpec t (x :: (lo ++ hi)) i false (some foll) := by
  have hsorted := List.pairwise_cons.mp h.sorted
  rcases hfoll with ⟨rfl, rfl⟩ | hlast
  · by_cases hxi : t.inode foll < i
    · exact .notFound (l := [foll]) (r := hi) rfl (by simpa using hxi) hhi
    · refine .notFound (l := []) (r := foll :: ([] ++ hi)) rfl (by simp) fun b hb => ?_
      rcases List.mem_cons.mp hb with rfl | hb
      · omega
      · have := hsorted.1 b hb
        omega
  · have hxi : t.inode x < i := by
      have hmem := List.mem_of_getLast? hlast
      have h1 := hsorted.1 _ (List.mem_append_left hi hmem)
      have h2 := hlo _ hmem
      omega
    have hspec : SearchSpec t (x :: (lo ++ hi)) i false
        ((x :: lo).getLast?.or (x :: (lo ++ hi)).head?) :=
      .notFound (r := hi) rfl (by simpa using ⟨hxi, hlo⟩) hhi
    rw [List.getLast?_cons, hlast] at hspec
    exact hspec

/-- **Search**: on a sorted list the search succeeds and tells the truth. -/
theorem DoublyLinked.searchFileList (h : DoublyLinked t xs) (i : Int) :
    ∃ found loc, t.searchFileList i = some (found, loc) ∧ SearchSpec t xs i found loc := by
  cases xs with
  | nil =>
    refine ⟨false, none, by simp [LockTable.searchFileList, h.head], ?_⟩
    exact .notFound (l := []) (r := []) rfl (by simp) (by simp)
  | cons x zs =>
    obtain ⟨lo, hi, rfl, hlo, hhi, hsearch⟩ := searchFileList_cons h.isPath h.lt_brk i
    have hfoll := foll_cases x lo
    generalize lo.getLastD x = foll at hfoll hsearch
    have hmem : foll ∈ x :: (lo ++ hi) := by
      rcases hfoll with ⟨rfl, -⟩ | hlast
      · simp
      · simp [List.mem_of_getLast? hlast]
    rw [hsearch]
    cases hp : hi.head? with
    | none =>
      have hempty : hi = [] := List.head?_eq_none_iff.mp hp
      by_cases heq : t.inode foll = i
      · exact ⟨true, some foll, congrArg some (if_pos heq), .found hmem heq⟩
      · exact ⟨false, some foll, congrArg some (if_neg heq),
          h.searchSpec_place hlo (by simp [hempty]) hfoll heq⟩
    | some p =>
      obtain ⟨hi', rfl⟩ := List.head?_eq_some_iff.mp hp
      by_cases hpi : t.inode p = i
      · exact ⟨true, some p, congrArg some (if_pos hpi), .found (by simp) hpi⟩
      by_cases heq : t.inode foll = i
      · exact ⟨true, some foll, by simp only [if_neg hpi, if_pos heq], .found hmem heq⟩
      · refine ⟨false, some foll, by simp only [if_neg hpi, if_neg heq],
          h.searchSpec_place hlo (fun b hb => ?_) hfoll heq⟩
        -- `p` is the first record that is not smaller, and it is not of the inode
        have hge := hhi p rfl
        have hs := (List.pairwise_append.mp (List.pairwise_cons.mp h.sorted).2).2.1
        rcases List.mem_cons.mp hb with rfl | hb
        · omega
        · have := (List.pairwise_cons.mp hs).1 b hb
          omega

theorem WellLinked.searchFileList (h : WellLinked t xs) (i : Int) :
    ∃ found loc, t.searchFileList i = some (found, loc) ∧ SearchSpec t xs i found loc :=
  h.doublyLinked.searchFileList i

/-! ## Insertion -/

variable {t' : LockTable} {c : FileLock}

theorem insertUnlocked_inserted {loc : Option Addr} : Inserted t (t.insertUnlocked loc c) c := by
  unfold insertUnlocked
  cases loc with
  | none =>
    exact {
      allocated := rfl
      brk := rfl
      content := fun b hb => congrArg FileLock.content (alloc_cells_of_ne hb)
      new := alloc_content_new rfl }
  | some l =>
    dsimp only
    split
    · let t₁ := (t.alloc { c with next := some l, prev := some t.brk }).modify l fun d =>
        { d with prev := some t.brk }
      have hcontent : ∀ b, (t₁.cells b).content =
          ((t.alloc { c with next := some l, prev := some t.brk }).cells b).content :=
        fun b => modify_content (by intro _; rfl)
      exact {
        allocated := rfl
        brk := rfl
        content := fun b hb => (hcontent b).trans (congrArg FileLock.content (alloc_cells_of_ne hb))
        new := (hcontent t.brk).trans (alloc_content_new rfl) }
    · exact insertAfter_inserted

theorem insertShared_inserted {loc : Addr} (h : t.insertShared loc c = some t') :
    Inserted t t' c := by
  simp only [insertShared, Option.bind_eq_bind, Option.bind_eq_some_iff, Option.some.injEq] at h
  obtain ⟨p, -, rfl⟩ := h
  have hins := insertAfter_inserted (t := t) (b := p) (c := { c with prevSharedRec := some p })
  exact {
    allocated := hins.allocated
    brk := hins.brk
    content := fun b hb => (modify_content (by intro _; rfl)).trans (hins.content b hb)
    new := (modify_content (by intro _; rfl)).trans hins.new }

/-- **Grant of a file that is not locked**: the new record stands alone on its inode. -/
theorem WellLinked.insertUnlocked (h : WellLinked t (l ++ r))
    (hl : ∀ b ∈ l, t.inode b < c.fileInode) (hr : ∀ b ∈ r, c.fileInode < t.inode b)
    (hmode : c.fileMode = 0 ∨ c.fileMode = 1) (hnextS : c.nextSharedRec = none)
    (hprevS : c.prevSharedRec = none) (hnext : c.next = none) :
    WellLinked (t.insertUnlocked (l.getLast?.or (l ++ r).head?) c) (l ++ t.brk :: r) := by
  have hins : Inserted t (t.insertUnlocked (l.getLast?.or (l ++ r).head?) c) c :=
    insertUnlocked_inserted
  obtain ⟨hhead, hnew, hold⟩ := h.doublyLinked.insertUnlocked_links hl hr hnext
  generalize t.insertUnlocked (l.getLast?.or (l ++ r).head?) c = t' at hins hhead hnew hold ⊢
  have hinode : t'.inode t.brk = c.fileInode := by simp [inode, hnew]
  have hother : ∀ b ∈ l, ¬ t.inode b = t'.inode t.brk := fun b hb => by
    rw [hinode]
    exact Int.ne_of_lt (hl b hb)
  refine h.insert rfl hins.allocated hins.brk hhead hins.content (fun b hb => ?_) (fun b hb => ?_)
    (by rwa [hnew]) (fun b hb hsame => absurd hsame (hother b hb)) (by rw [hnew]) (by rw [hnew])
    (by rw [hnew]; exact hnextS) ?_ (fun b hb => by rw [hold b hb]) (fun b hb => by rw [hold b hb])
    (fun b hb => ?_) (fun b hb => by rw [hold b hb])
  · rw [hinode]
    exact Int.le_of_lt (hl b hb)
  · rw [hinode]
    exact hr b hb
  · rw [hnew]
    cases hlast : l.getLast? with
    | none => exact hprevS
    | some d => simp [Option.filter, hother d (List.mem_of_getLast? hlast), hprevS]
  · rw [hold b hb]
    refine (if_neg ?_).symm
    rintro ⟨hlast, hsame⟩
    exact hother b (List.mem_of_getLast? hlast) hsame

/-- **Grant of a file locked in shared mode**: the new record is appended to the records of
    its inode. -/
theorem WellLinked.insertShared {loc : Addr} (h : WellLinked t xs) (hloc : loc ∈ xs)
    (hinode : c.fileInode = t.inode loc) (hshared : (t.cells loc).fileMode = 0)
    (hmode : c.fileMode = 0) (hnextS : c.nextSharedRec = none) :
    ∃ t' xs', t.insertShared loc c = some t' ∧ WellLinked t' xs' := by
  obtain ⟨l, p, r, rfl, hp, hr, hwalk⟩ := h.walkToEnd_shared hloc
  obtain ⟨hold, hnew⟩ := h.doublyLinked.insertAfter_links (c := { c with prevSharedRec := some p })
  have hpb : p ≠ t.brk := fun hpb => h.brk_notMem (by simp [← hpb])
  obtain ⟨t', ht'⟩ : ∃ t', t' = (t.insertAfter p { c with prevSharedRec := some p }).modify p
      fun d => { d with nextSharedRec := some t.brk } := ⟨_, rfl⟩
  have hresult : t.insertShared loc c = some t' := by
    simp only [LockTable.insertShared, hwalk, Option.bind_eq_bind, Option.bind_some, ht']
  have hins := insertShared_inserted hresult
  -- the links of the old records and of the new one
  have hcells : ∀ b ∈ l ++ p :: r, t'.cells b =
      { t.cells b with
        next := if p = b then some t.brk else (t.cells b).next
        prev := if r.head? = some b then some t.brk else (t.cells b).prev
        nextSharedRec := if p = b then some t.brk else (t.cells b).nextSharedRec } := by
    intro b hb
    by_cases hbp : b = p
    · subst hbp
      rw [ht', modify_cells_self, hold b hb]
      simp
    · rw [ht', modify_cells_of_ne hbp, hold b hb]
      simp [Ne.symm hbp]
  have hcell : t'.cells t.brk =
      { c with prevSharedRec := some p, next := r.head?, prev := some p } := by
    rw [ht', modify_cells_of_ne (Ne.symm hpb), hnew]
  have hhead : t'.headLockList = (l ++ p :: r).head? := by
    rw [ht', ← h.head]
    exact insertAfter_rest.2.2
  -- all records of the inode are shared
  have hinode' : t'.inode t.brk = t.inode p := by
    rw [hp, ← hinode, inode, hcell]
  have hmodes : ∀ b ∈ l ++ p :: r, t.inode b = t.inode p → (t.cells b).fileMode = 0 := by
    intro b hb hsame
    by_contra hex
    exact hex (h.exclusive b hb loc hloc hex (hsame.trans hp) ▸ hshared)
  have hle := (sorted_split h.sorted).1
  have hxs : l ++ p :: r = (l ++ [p]) ++ r := by simp
  rw [hxs] at h hcells hmodes hhead
  refine ⟨t', (l ++ [p]) ++ t.brk :: r, hresult,
    h.insert rfl hins.allocated hins.brk ?_ hins.content (fun b hb => ?_) (fun b hb => ?_)
      (by rw [hcell]; exact .inl hmode) (fun b hb hsame => ?_) (by rw [hcell]) (by rw [hcell]; simp)
      (by rw [hcell]; exact hnextS) ?_ (fun b hb => ?_) (fun b hb => by rw [hcells b hb])
      (fun b hb => ?_) (fun b hb => by rw [hcells b hb])⟩
  · rw [hhead]
    cases l <;> simp
  · rw [hinode']
    rcases List.mem_append.mp hb with hb | hb
    · exact hle b hb
    · exact List.mem_singleton.mp hb ▸ Int.le_refl _
  · rw [hinode']
    exact hr b hb
  · refine ⟨hmodes b (List.mem_append_left _ hb) (hsame.trans hinode'), ?_⟩
    rw [hcell]
    exact hmode
  · rw [hcell]
    simp [Option.filter, hinode']
  · rw [hcells b hb]
    simp
  · rw [hcells b hb, hinode']
    by_cases hbp : p = b
    · simp [hbp]
    · simp [hbp]

end LockTable

end TxFS
