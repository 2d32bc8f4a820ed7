import Mathlib.Algebra.Order.BigOperators.Group.List
import TxFS.Updates.PieceTexts

/-!
# Reading Your Own Writes

The text and the number of bytes that `do_read_old` returns, against the content that the logged
writes of the transaction make of the file. The data of the writes and of the file decide nothing
here: `readsOwnWrites_iff` says for which extents a read returns the bytes of the content,
whatever they are.
-/

namespace TxFS

open BinaryFile FileContent EventLog WhileLoop

namespace ReadOld

/-- A read of `n` bytes of a file of `length` bytes, with the descriptor at `pos`, returns the
    bytes of its range in the content that the writes make of the file, and their number. -/
def ReadsOwnWrites (c : FileLock) (n length pos : Nat) : Prop :=
  ∀ (rs : List LogRecord) (logPos : Nat) (bytes : List UInt8), Logged rs c.writesAt →
    bytes.length = length → 0 ∉ bytes →
      let expected := segment (written rs bytes c.writesAt) c.fileOffset.toNat
        (c.fileOffset.toNat + n)
      ∃ fuel offset, doReadOld fuel c ⟨bytes, pos⟩ ⟨encode rs, logPos⟩ n =
        some (expected, (expected.length : Int), offset)

/-- The condition on the extents. Without a write the descriptor has to be at the offset. With
    writes, what they leave of the range has to lie inside the file, and those that cover the
    beginning of what is left have to start in order. -/
def InPlace (c : FileLock) (n length pos : Nat) : Prop :=
  if c.writesAt = [] then
    (pos : Int) = c.fileOffset ∨ n = 0 ∨ length ≤ pos ∧ (length : Int) ≤ c.fileOffset
  else
    (∀ p ∈ uncovered (Set.Ico c.fileOffset (c.fileOffset + n)) c.writesAt.reverse, p < length) ∧
      StartsInOrder (Set.Ico c.fileOffset (c.fileOffset + n)) c.writesAt.reverse

section

variable {rs : List LogRecord} {c : FileLock} {bytes : List UInt8} {ps : List Piece} {p b : Piece}
  {ws : List WriteRecord} {w : WriteRecord} {f t : Int}
  {n length pos logPos : Nat}

/-! ## The result -/

theorem Logged.reverse (h : Logged rs ws) : Logged rs ws.reverse where
  offsets := h.offsets
  fits w hw := h.fits w (List.mem_reverse.mp hw)
  holds w hw := h.holds w (List.mem_reverse.mp hw)
  nonneg w hw := h.nonneg w (List.mem_reverse.mp hw)
  nodup := by
    rw [List.map_reverse]
    exact List.nodup_reverse.mpr h.nodup

/-- The result does not depend on the number of iterations that are allowed. -/
theorem doReadOld_unique {fuel fuel' : Nat} {file log : File} {r r' : List UInt8 × Int × Int}
    (h : doReadOld fuel c file log n = some r) (h' : doReadOld fuel' c file log n = some r') :
    r = r' := by
  rw [doReadOld] at h h'
  split at h
  · rename_i hdirect
    rw [if_pos hdirect] at h'
    exact Option.some.inj (h.symm.trans h')
  · rename_i hloop
    rw [if_neg hloop] at h'
    cases hrun : unroll Overlay.More Overlay.iterate fuel (startOverlay c log n) with
    | running s =>
      rw [hrun] at h
      cases h
    | fault =>
      rw [hrun] at h
      cases h
    | left s =>
      cases hrun' : unroll Overlay.More Overlay.iterate fuel' (startOverlay c log n) with
      | running s' =>
        rw [hrun'] at h'
        cases h'
      | fault =>
        rw [hrun'] at h'
        cases h'
      | left s' =>
        rw [hrun] at h
        rw [hrun', ← unroll_unique hrun hrun'] at h'
        exact Option.some.inj (h.symm.trans h')

/-- What a read over writes returns: the texts of the sorted pieces, and the length of the range. -/
theorem doReadOld_of_cuts (pos logPos : Nat) (hflags : c.flags ≠ 0) (hne : c.writesAt ≠ []) (hoff : 0 ≤ c.fileOffset)
    (hlogged : Logged rs c.writesAt) (hnul : 0 ∉ bytes)
    (h : Cuts c.fileOffset (c.fileOffset + n) c.writesAt.reverse ps) :
    ∃ fuel offset, doReadOld fuel c ⟨bytes, pos⟩ ⟨encode rs, logPos⟩ n =
      some ((sortPieces [] ps).flatMap (Piece.text rs bytes), (n : Int), offset) := by
  have hstart : Overlay.Holds rs bytes c.fileOffset (c.fileOffset + n) c.writesAt.reverse [] 0
      (startOverlay c ⟨encode rs, logPos⟩ n) := by
    refine ⟨rfl, rfl, ?_, rfl, rfl, rfl, rfl⟩
    show (n : Int) = c.fileOffset + n - c.fileOffset
    omega
  obtain ⟨s', s'', file', ⟨fuel, hrun⟩, htake, hhead, htotal⟩ :=
    h.leaves ⟨bytes, pos⟩ hstart hlogged.reverse hoff hnul
  have hloop : ¬ (c.flags = 0 ∨ c.writesAt = []) := fun h => h.elim hflags hne
  have hn : s''.totalBytesRead = n := by omega
  refine ⟨fuel, if c.fileOffset + s''.totalBytesRead > c.fileSize then c.fileSize
    else c.fileOffset + s''.totalBytesRead, ?_⟩
  rw [doReadOld, if_neg hloop, hrun, ← hn, ← assemble_map, ← hhead]
  simp only [htake]
  rfl

/-- Without a write, the bytes at the position of the descriptor are returned. -/
theorem doReadOld_direct {fuel : Nat} {log : File} (h : c.flags = 0 ∨ c.writesAt = []) :
    doReadOld fuel c ⟨bytes, pos⟩ log n =
      some ((bytes.drop pos).take n, (((bytes.drop pos).take n).length : Int),
        c.fileOffset + ((bytes.drop pos).take n).length) := by
  rw [doReadOld, if_pos h]
  rfl

/-! ## Marked data -/

/-- The data of the record consists of one byte, by its LRN. -/
def markData (g : Int → UInt8) (r : LogRecord) : LogRecord :=
  { r with data := List.replicate r.data.length (g r.LRN) }

theorem length_markData (g : Int → UInt8) (r : LogRecord) :
    (markData g r).bytes.length = r.bytes.length := by
  rw [LogRecord.length_bytes, LogRecord.length_bytes]
  show 60 + (List.replicate _ _).length + r.data1.length = _
  rw [List.length_replicate]

theorem offsets_mark (g : Int → UInt8) (h : Offsets n rs) : Offsets n (rs.map (markData g)) := by
  induction rs generalizing n with
  | nil => exact trivial
  | cons r rs ih =>
    obtain ⟨hr, hrs⟩ := h
    refine ⟨hr, ?_⟩
    rw [length_markData]
    exact ih hrs

/-- The extents of the writes stay as they are. -/
theorem Logged.mark {g : Int → UInt8} (h : Logged rs ws) (hg : ∀ l, g l ≠ 0) :
    Logged (rs.map (markData g)) ws where
  offsets := offsets_mark g h.offsets
  fits := h.fits
  holds w hw := by
    obtain ⟨r, hr, hlrn, hlength, -⟩ := h.holds w hw
    refine ⟨markData g r, List.mem_map_of_mem hr, hlrn, ?_, ?_⟩
    · show ((List.replicate _ _).length : Int) = _
      rw [List.length_replicate, hlength]
    · intro hzero
      exact hg r.LRN (List.eq_of_mem_replicate hzero).symm
  nonneg := h.nonneg
  nodup := h.nodup

theorem mem_dataAt_mark {g : Int → UInt8} {x : UInt8} (h : Logged rs ws) (hw : w ∈ ws)
    (hx : x ∈ dataAt (rs.map (markData g)) w.LRN) : x = g w.LRN := by
  obtain ⟨r, hr, hlrn, -⟩ := h.holds w hw
  rw [dataAt_of_mem (r := markData g r) (offsets_mark g h.offsets) (List.mem_map_of_mem hr) hlrn] at hx
  rw [← hlrn]
  exact List.eq_of_mem_replicate hx

/-! ## The pieces apart -/

theorem Cuts.nodup (h : Cuts f t ws ps) (hws : (ws.map WriteRecord.LRN).Nodup) :
    (ps.map Piece.source).Nodup := by
  refine h.sources.nodup (List.nodup_append.mpr ⟨?_, List.nodup_singleton _, ?_⟩)
  · exact hws.of_map.map (Option.some_injective _)
  · simp

/-- Where the write of a piece, or the file, is marked, the others are not. -/
def markOf (b : Piece) (l : Int) : UInt8 := if b.source.map WriteRecord.LRN = some l then 1 else 2

/-- The mark of the file. -/
def markOfFile (b : Piece) : UInt8 := if b.source = none then 1 else 2

theorem text_mark {xs : List UInt8} (h : Cuts f t ws ps) (hlogged : Logged rs ws) (hb : b ∈ ps)
    (hp : p ∈ ps) (hcomplete : p.Complete (rs.map (markData (markOf b)))
      (List.replicate length (markOfFile b)) xs) :
    p.text (rs.map (markData (markOf b))) (List.replicate length (markOfFile b)) =
      mark Piece.length b p := by
  rw [mark, List.eq_replicate_iff]
  refine ⟨hcomplete.2, ?_⟩
  intro x hx
  -- different pieces have different sources
  have hinj : p.source = b.source → p = b :=
    fun heq => List.inj_on_of_nodup_map (h.nodup hlogged.nodup) hp hb heq
  have hsource : ∀ {q : Piece} {w : WriteRecord}, q ∈ ps → q.source = some w → w ∈ ws := by
    intro q w hq heq
    have hmem := h.sources.subset (List.mem_map_of_mem hq)
    simpa [heq] using hmem
  unfold Piece.text at hx
  split at hx
  · rename_i w hw
    rw [mem_dataAt_mark hlogged (hsource hp hw) (mem_of_mem_segment hx), markOf]
    congr 1
    apply propext
    constructor
    · intro hlrn
      cases hv : b.source with
      | none => simp [hv] at hlrn
      | some v =>
        rw [hv] at hlrn
        have hvw : v = w := List.inj_on_of_nodup_map hlogged.nodup (hsource hb hv) (hsource hp hw)
          (Option.some.inj hlrn)
        exact hinj (hw.trans (hvw ▸ hv.symm))
    · rintro rfl
      rw [hw]
      rfl
  · rename_i hnone
    rw [List.eq_of_mem_replicate (mem_of_mem_segment hx), markOfFile]
    congr 1
    apply propext
    constructor
    · intro hb
      exact hinj (hnone.trans hb.symm)
    · rintro rfl
      exact hnone

/-! ## When the text is right -/

/-- What the property says about the sorted pieces. -/
theorem readsOwnWrites_iff_pieces (hflags : c.flags ≠ 0) (hne : c.writesAt ≠ [])
    (hoff : 0 ≤ c.fileOffset) (h : Cuts c.fileOffset (c.fileOffset + n) c.writesAt.reverse ps) :
    ReadsOwnWrites c n length pos ↔ ∀ (rs : List LogRecord) (bytes : List UInt8),
      Logged rs c.writesAt → bytes.length = length → 0 ∉ bytes →
        (sortPieces [] ps).flatMap (Piece.text rs bytes) = segment (written rs bytes c.writesAt)
            c.fileOffset.toNat (c.fileOffset + n).toNat ∧
          ((sortPieces [] ps).flatMap (Piece.text rs bytes)).length = n := by
  have hadd : (c.fileOffset + n).toNat = c.fileOffset.toNat + n := by omega
  rw [hadd]
  constructor
  · intro hreads rs bytes hlogged hlength hnul
    obtain ⟨fuel, offset, hresult⟩ := hreads rs 0 bytes hlogged hlength hnul
    obtain ⟨fuel', offset', hresult'⟩ := doReadOld_of_cuts pos 0 hflags hne hoff
      hlogged hnul h
    have heq := doReadOld_unique hresult' hresult
    simp only [Prod.mk.injEq] at heq
    refine ⟨heq.1, ?_⟩
    rw [heq.1]
    exact Int.ofNat.inj heq.2.1.symm
  · intro htext rs logPos bytes hlogged hlength hnul
    obtain ⟨heq, hn⟩ := htext rs bytes hlogged hlength hnul
    obtain ⟨fuel, offset, hresult⟩ := doReadOld_of_cuts pos logPos hflags hne
      hoff hlogged hnul h
    refine ⟨fuel, offset, ?_⟩
    rw [hresult, ← heq, hn]

/-- Complete pieces, in order, are the bytes of the range. -/
theorem readsOwnWrites_of_order (hflags : c.flags ≠ 0) (hne : c.writesAt ≠ [])
    (hoff : 0 ≤ c.fileOffset) (h : Cuts c.fileOffset (c.fileOffset + n) c.writesAt.reverse ps)
    (hfile : ∀ p ∈ ps, p.source = none → p.stop ≤ length) (hord : FrontsInOrder ps) :
    ReadsOwnWrites c n length pos := by
  rw [readsOwnWrites_iff_pieces hflags hne hoff h]
  rintro rs bytes hlogged rfl -
  have hcomplete := h.complete hoff hlogged.reverse hfile
  rw [List.reverse_reverse] at hcomplete
  rw [h.flatMap_sortPieces hord]
  refine ⟨h.flatMap_text hoff hcomplete, ?_⟩
  rw [h.length_text hcomplete]
  omega

/-- A piece behind the end of the file is too short. -/
theorem stop_le_of_readsOwnWrites (hflags : c.flags ≠ 0) (hne : c.writesAt ≠ [])
    (hoff : 0 ≤ c.fileOffset) (hlogged : Logged rs c.writesAt)
    (h : Cuts c.fileOffset (c.fileOffset + n) c.writesAt.reverse ps)
    (hreads : ReadsOwnWrites c n length pos) (hp : p ∈ ps) (hsource : p.source = none) :
    p.stop ≤ length := by
  rw [readsOwnWrites_iff_pieces hflags hne hoff h] at hreads
  obtain ⟨-, hn⟩ := hreads rs (List.replicate length 1) hlogged List.length_replicate (by simp)
  by_contra hlong
  -- the text of this piece ends with the file
  have hbounds := h.bounds hp
  have hlt : p.first < p.stop := h.nonempty_of_file hp hsource
  have htext : p.text rs (List.replicate length 1) =
      segment (List.replicate length 1) p.first.toNat p.stop.toNat := by
    unfold Piece.text
    rw [hsource]
  have hshort : (p.text rs (List.replicate length 1)).length < p.length := by
    rw [htext, FileContent.segment, List.length_take, List.length_drop, List.length_replicate,
      Piece.length]
    omega
  have hsum := List.sum_lt_sum (fun p => (p.text rs (List.replicate length 1)).length) Piece.length
    (fun q _ => length_text_le) ⟨p, hp, hshort⟩
  have hperm : (sortPieces [] ps).Perm ps := sortPieces_perm
  rw [List.length_flatMap, (hperm.map _).sum_nat] at hn
  rw [hn, h.sum_length] at hsum
  omega

/-- With every piece marked in turn, the sorted pieces are found to be in place. -/
theorem order_of_readsOwnWrites (hflags : c.flags ≠ 0) (hne : c.writesAt ≠ [])
    (hoff : 0 ≤ c.fileOffset) (hlogged : Logged rs c.writesAt)
    (h : Cuts c.fileOffset (c.fileOffset + n) c.writesAt.reverse ps)
    (hreads : ReadsOwnWrites c n length pos)
    (hfile : ∀ p ∈ ps, p.source = none → p.stop ≤ length) : FrontsInOrder ps := by
  rw [readsOwnWrites_iff_pieces hflags hne hoff h] at hreads
  rw [← h.nonempty_sortPieces_iff]
  have hsort : (sortPieces [] ps).Perm ps := sortPieces_perm
  have hperm : (place ps).Perm (sortPieces [] ps) := place_perm.trans hsort.symm
  have hnodup : ps.Nodup := (h.nodup hlogged.reverse.nodup).of_map
  have hmem : ∀ {p : Piece}, p ∈ nonempty (place ps) → p ∈ ps := by
    intro p hp
    exact place_perm.mem_iff.mp (List.mem_filter.mp hp).1
  apply eq_of_flatMap_marks Piece.length
  · intro p hp
    have hlt : p.first < p.stop := of_decide_eq_true (List.mem_filter.mp hp).2
    rw [Piece.length]
    omega
  · exact (place_perm.nodup_iff.mpr hnodup).filter _
  · exact hperm.filter _
  · intro b hb
    have hlogged' := hlogged.mark (g := markOf b) fun l => by
      unfold markOf
      split <;> decide
    have hnul : 0 ∉ List.replicate length (markOfFile b) := by
      intro hzero
      have heq := List.eq_of_mem_replicate hzero
      unfold markOfFile at heq
      split at heq <;> cases heq
    -- the text of every piece is its mark
    have hlength : ∀ p ∈ ps, p.source = none →
        p.stop ≤ (List.replicate length (markOfFile b)).length := by
      rwa [List.length_replicate]
    have hcomplete := h.complete hoff hlogged'.reverse hlength
    rw [List.reverse_reverse] at hcomplete
    have htext : ∀ p ∈ ps, p.text _ _ = mark Piece.length b p :=
      fun p hp => text_mark h hlogged.reverse (hmem hb) hp (hcomplete p hp)
    have hempty : ∀ p : Piece, ¬ p.Nonempty → mark Piece.length b p = [] := by
      intro p hp
      have hzero : p.length = 0 := by
        rw [Piece.Nonempty] at hp
        rw [Piece.length]
        omega
      rw [mark, hzero, List.replicate_zero]
    obtain ⟨heq, -⟩ := hreads _ _ hlogged' List.length_replicate hnul
    rw [flatMap_nonempty _ fun p _ => hempty p, flatMap_nonempty _ fun p _ => hempty p,
      ← List.flatMap_congr fun p hp => htext p (place_perm.mem_iff.mp hp),
      ← List.flatMap_congr fun p hp => htext p (hsort.mem_iff.mp hp),
      heq, h.flatMap_text hoff hcomplete]

/-- Without a write, two positions give the same bytes of every file of one length only if they
    are equal, nothing is read, or both are behind the end. -/
theorem take_drop_iff (n length pos off : Nat) :
    (∀ bytes : List UInt8, bytes.length = length → 0 ∉ bytes →
      (bytes.drop pos).take n = (bytes.drop off).take n) ↔
      pos = off ∨ n = 0 ∨ length ≤ pos ∧ length ≤ off := by
  constructor
  · intro h
    by_contra hnot
    -- a file whose byte at `x` differs from the others
    have hdiff : ∀ {x y : Nat}, x ≠ y → x < length → 0 < n →
        (((List.replicate length (1 : UInt8)).set x 2).drop x).take n ≠
          (((List.replicate length (1 : UInt8)).set x 2).drop y).take n := by
      intro x y hxy hx hn heq
      have hfirst := congrArg (·[0]?) heq
      simp only [List.getElem?_take_of_lt hn, List.getElem?_drop, Nat.add_zero] at hfirst
      rw [List.getElem?_set_self (by simpa using hx), List.getElem?_set_ne hxy] at hfirst
      have hmem := List.mem_of_getElem? hfirst.symm
      exact absurd (List.eq_of_mem_replicate hmem) (by decide)
    have hnul : ∀ x : Nat, 0 ∉ (List.replicate length (1 : UInt8)).set x 2 := by
      intro x hzero
      rcases List.mem_or_eq_of_mem_set hzero with hmem | heq
      · exact absurd (List.eq_of_mem_replicate hmem) (by decide)
      · exact absurd heq (by decide)
    by_cases hpos : pos < length
    · exact hdiff (by omega) hpos (by omega) (h _ (by simp) (hnul pos))
    · exact hdiff (x := off) (y := pos) (by omega) (by omega) (by omega)
        (h _ (by simp) (hnul off)).symm
  · rintro (rfl | rfl | ⟨hpos, hoff⟩) bytes rfl -
    · rfl
    · simp
    · rw [List.drop_eq_nil_of_le hpos, List.drop_eq_nil_of_le hoff]

theorem readsOwnWrites_iff_direct (hlogged : Logged rs c.writesAt) (hoff : 0 ≤ c.fileOffset)
    (hempty : c.writesAt = []) : ReadsOwnWrites c n length pos ↔
      (pos : Int) = c.fileOffset ∨ n = 0 ∨ length ≤ pos ∧ (length : Int) ≤ c.fileOffset := by
  obtain ⟨off, hoffset⟩ := Int.eq_ofNat_of_zero_le hoff
  have hexpected : ∀ (rs : List LogRecord) (bytes : List UInt8),
      segment (written rs bytes c.writesAt) c.fileOffset.toNat (c.fileOffset.toNat + n) =
        (bytes.drop off).take n := by
    intro rs bytes
    rw [hempty, hoffset, Int.toNat_natCast, FileContent.segment, Nat.add_sub_cancel_left]
    rfl
  have hcond := take_drop_iff n length pos off
  rw [hoffset, Int.ofNat_inj, Int.ofNat_le, ← hcond]
  constructor
  · intro hreads bytes hlength hnul
    obtain ⟨fuel, offset, hresult⟩ := hreads rs 0 bytes hlogged hlength hnul
    rw [doReadOld_direct (.inr hempty), hexpected] at hresult
    exact congrArg Prod.fst (Option.some.inj hresult)
  · intro h rs logPos bytes hlogged hlength hnul
    refine ⟨0, c.fileOffset + ((bytes.drop pos).take n).length, ?_⟩
    rw [doReadOld_direct (.inr hempty), hexpected, h bytes hlength hnul]

end

open Overlay in
/-- **Reading your own writes.** A read for which the overlay loop ends returns exactly the bytes
    that the logged writes make of its range, whatever the writes and the file consist of, if and
    only if the pieces are in place and the rest of the range lies inside the file. -/
theorem readsOwnWrites_iff (c : FileLock) (rs : List LogRecord) (n length pos logPos : Nat)
    (hflags : c.flags = 0 → c.writesAt = []) (hoff : 0 ≤ c.fileOffset)
    (hlogged : Logged rs c.writesAt)
    (hends : ∃ s', Leaves More iterate (startOverlay c ⟨encode rs, logPos⟩ n) s') :
    ReadsOwnWrites c n length pos ↔ InPlace c n length pos := by
  by_cases hempty : c.writesAt = []
  · -- the bytes come from the file alone
    rw [InPlace, if_pos hempty]
    exact readsOwnWrites_iff_direct hlogged hoff hempty
  · have hne : c.flags ≠ 0 := fun hzero => hempty (hflags hzero)
    obtain ⟨s', hleaves⟩ := hends
    obtain ⟨ps, hps⟩ := exists_cuts sized_startOverlay hleaves
    have hcuts : Cuts c.fileOffset (c.fileOffset + n) c.writesAt.reverse ps := hps
    rw [InPlace, if_neg hempty, hcuts.uncovered_lt_iff, hcuts.startsInOrder_iff]
    constructor
    · intro hreads
      have hfile : ∀ p ∈ ps, p.source = none → p.stop ≤ length := fun p hp hsource =>
        stop_le_of_readsOwnWrites hne hempty hoff hlogged hcuts hreads hp hsource
      exact ⟨hfile, order_of_readsOwnWrites hne hempty hoff hlogged hcuts hreads hfile⟩
    · rintro ⟨hfile, hord⟩
      exact readsOwnWrites_of_order hne hempty hoff hcuts hfile hord

/-- The log behind a write of four bytes at offset 0 and one of two bytes at offset 1. -/
def twoWrites : List LogRecord :=
  [⟨⟨1, 2, 3, 0, [87, 88, 89, 90], na⟩, 0, -1, 67⟩, ⟨⟨1, 2, 3, 1, [112, 113], na⟩, 67, 0, -1⟩]

/-- The record of the file behind these writes and a seek to offset 2. -/
def behindTwoWrites : FileLock :=
  { openedFor [⟨0, 4, 0⟩, ⟨1, 2, 67⟩] with fileOffset := 2, fileSize := 4 }

theorem logged_twoWrites : Logged twoWrites behindTwoWrites.writesAt where
  offsets := ⟨rfl, rfl, trivial⟩
  fits := by decide
  holds := by decide
  nonneg := by decide
  nodup := by decide

open Overlay in
theorem readsOwnWrites_iff_two : ReadsOwnWrites behindTwoWrites 4 8 0 ↔
    InPlace behindTwoWrites 4 8 0 :=
  readsOwnWrites_iff behindTwoWrites twoWrites 4 8 0 0 (by decide) (by decide) logged_twoWrites
    ⟨_, 3, rfl⟩

/-- Both writes cover the beginning of what is left, and the newer one starts behind the older. -/
theorem readsOwnWrites_misplaced :
    Logged twoWrites behindTwoWrites.writesAt ∧
    doReadOld 3 behindTwoWrites ⟨[97, 98, 99, 100, 101, 102, 103, 104], 0⟩ ⟨encode twoWrites, 0⟩ 4 =
      some ([90, 113, 101, 102], 4, 4) ∧
    segment (written twoWrites [97, 98, 99, 100, 101, 102, 103, 104] behindTwoWrites.writesAt) 2 6 =
      [113, 90, 101, 102] :=
  ⟨logged_twoWrites, by decide, by decide⟩

end ReadOld

end TxFS
