import TxFS.Lib.FileContent
import TxFS.Updates.Overlay

/-!
# The Pieces of a Read

Which pieces the overlay loop cuts out of a range does not depend on the data: `Cuts` follows the
extents of the writes from the newest to the oldest. The pieces fill the range without overlap,
those of writes that cover its end from the right and the others from the left.

The list of pieces is sorted by the offset under which a piece is stored. For a write that covers
the beginning of the rest this is the beginning of the write, not of the piece.
`sortPieces_nonempty` says when the sorted list nevertheless has the pieces in place.
-/

namespace TxFS

open FileContent WhileLoop

namespace ReadOld

/-- A piece: the offset it is stored under, its place in the file, and the write it is from;
    none for the original file. -/
structure Piece where
  beg : Int
  first : Int
  stop : Int
  source : Option WriteRecord
deriving DecidableEq, Repr

/-- The pieces of the range from `f` to `t`, in the order in which the loop takes them. -/
inductive Cuts : Int → Int → List WriteRecord → List Piece → Prop where
  | done {f : Int} {ws : List WriteRecord} : Cuts f f ws []
  /-- What is left comes from the original file. -/
  | file {f t : Int} (hlt : f < t) : Cuts f t [] [⟨f, f, t, none⟩]
  /-- The write covers the rest. -/
  | all {f t : Int} {w : WriteRecord} {ws : List WriteRecord} (hlt : f < t)
      (hx : w.initialOff ≤ f) (hy : t ≤ w.initialOff + w.writeLength) :
      Cuts f t (w :: ws) [⟨f, f, t, some w⟩]
  /-- The write covers the end of the rest. -/
  | back {f t : Int} {w : WriteRecord} {ws : List WriteRecord} {ps : List Piece}
      (hx : f < w.initialOff) (hle : w.initialOff ≤ t) (hy : t < w.initialOff + w.writeLength)
      (hrest : Cuts f w.initialOff ws ps) :
      Cuts f t (w :: ws) (⟨w.initialOff, w.initialOff, t, some w⟩ :: ps)
  /-- The write covers the beginning of the rest. -/
  | front {f t : Int} {w : WriteRecord} {ws : List WriteRecord} {ps : List Piece}
      (hx : w.initialOff < f) (hle : f ≤ w.initialOff + w.writeLength)
      (hy : w.initialOff + w.writeLength < t)
      (hrest : Cuts (w.initialOff + w.writeLength) t ws ps) :
      Cuts f t (w :: ws) (⟨w.initialOff, f, w.initialOff + w.writeLength, some w⟩ :: ps)

namespace Piece

/-- The piece is stored under an offset in front of its place. -/
def Front (p : Piece) : Prop := p.beg < p.first

instance : DecidablePred Front := fun _ => inferInstanceAs (Decidable (_ < _))

/-- Some bytes belong to the piece. -/
def Nonempty (p : Piece) : Prop := p.first < p.stop

instance : DecidablePred Nonempty := fun _ => inferInstanceAs (Decidable (_ < _))

def length (p : Piece) : Nat := (p.stop - p.first).toNat

end Piece

/-- The pieces in the order of their places. -/
def place : List Piece → List Piece
  | [] => []
  | p :: ps => if p.Front then p :: place ps else place ps ++ [p]

/-- `insert_read_list`, on pieces. -/
def insertPiece (p : Piece) : List Piece → List Piece
  | [] => [p]
  | q :: qs => if q.beg > p.beg then p :: q :: qs else q :: insertPiece p qs

/-- The insertion of one piece after the other. -/
def sortPieces (acc ps : List Piece) : List Piece := ps.foldl (fun acc p => insertPiece p acc) acc

/-- The nonempty pieces of a list. -/
def nonempty (ps : List Piece) : List Piece := ps.filter fun p => p.Nonempty

section

variable {f t : Int} {w v : WriteRecord} {ws : List WriteRecord} {ps qs L R : List Piece} {p q : Piece}

/-! ## Places -/

theorem place_front (h : p.Front) : place (p :: ps) = p :: place ps := if_pos h

theorem place_back (h : ¬ p.Front) : place (p :: ps) = place ps ++ [p] := if_neg h

theorem place_perm : (place ps).Perm ps := by
  induction ps with
  | nil => exact .refl _
  | cons p ps ih =>
    rw [place]
    split
    · exact ih.cons p
    · exact List.perm_append_comm.trans (ih.cons p)

/-- **The pieces fill the range**: in the order of their places, they are the segment of a
    content. -/
theorem Cuts.flatMap_place {xs : List UInt8} (h : Cuts f t ws ps) (hf : 0 ≤ f) :
    (place ps).flatMap (fun p => segment xs p.first.toNat p.stop.toNat) =
      segment xs f.toNat t.toNat := by
  induction h with
  | done => exact segment_self.symm
  | file hlt => simp [place, Piece.Front]
  | all hlt hx hy => simp [place, Piece.Front]
  | back hx hle hy hrest ih =>
    rw [place_back (Int.lt_irrefl _), List.flatMap_append, ih hf, List.flatMap_singleton]
    exact segment_append (Int.toNat_le_toNat (Int.le_of_lt hx)) (Int.toNat_le_toNat hle)
  | @front f t w ws ps hx hle hy hrest ih =>
    have hfront : Piece.Front ⟨w.initialOff, f, w.initialOff + w.writeLength, some w⟩ := hx
    rw [place_front hfront, List.flatMap_cons, ih (Int.le_trans hf hle)]
    exact segment_append (Int.toNat_le_toNat hle) (Int.toNat_le_toNat (Int.le_of_lt hy))

/-! ## Insertion -/

theorem insertPiece_perm : (insertPiece p qs).Perm (p :: qs) := by
  induction qs with
  | nil => exact .refl _
  | cons q qs ih =>
    rw [insertPiece]
    split
    · exact .refl _
    · exact (ih.cons q).trans (.swap p q qs)

theorem sortPieces_perm : (sortPieces qs ps).Perm (qs ++ ps) := by
  induction ps generalizing qs with
  | nil => simp [sortPieces]
  | cons p ps ih =>
    have hrec : (sortPieces (insertPiece p qs) ps).Perm (insertPiece p qs ++ ps) := ih
    exact hrec.trans ((insertPiece_perm.append_right ps).trans List.perm_middle.symm)

/-- The pieces are sorted by the offsets they are stored under. -/
def Sorted (ps : List Piece) : Prop := ps.Pairwise fun p q => p.beg ≤ q.beg

theorem Sorted.insertPiece (h : Sorted qs) : Sorted (insertPiece p qs) := by
  induction qs with
  | nil => exact List.pairwise_singleton ..
  | cons q qs ih =>
    obtain ⟨hq, hqs⟩ := List.pairwise_cons.mp h
    rw [ReadOld.insertPiece]
    split
    · rename_i hlt
      refine List.pairwise_cons.mpr ⟨?_, h⟩
      intro r hr
      rcases List.mem_cons.mp hr with rfl | hr
      · exact Int.le_of_lt hlt
      · exact Int.le_trans (Int.le_of_lt hlt) (hq r hr)
    · rename_i hle
      refine List.pairwise_cons.mpr ⟨?_, ih hqs⟩
      intro r hr
      rcases List.mem_cons.mp (insertPiece_perm.mem_iff.mp hr) with rfl | hr
      · exact Int.not_lt.mp hle
      · exact hq r hr

theorem Sorted.sortPieces (h : Sorted qs) : Sorted (sortPieces qs ps) := by
  induction ps generalizing qs with
  | nil => exact h
  | cons p ps ih => exact ih h.insertPiece

/-- A piece goes behind all those that are not stored under a larger offset. -/
theorem insertPiece_append (h : ∀ q ∈ L, q.beg ≤ p.beg) :
    insertPiece p (L ++ R) = L ++ insertPiece p R := by
  induction L with
  | nil => rfl
  | cons q L ih =>
    have hq : ¬ q.beg > p.beg := Int.not_lt.mpr (h q (List.mem_cons_self ..))
    rw [List.cons_append, insertPiece, if_neg hq, ih fun r hr => h r (List.mem_cons_of_mem _ hr),
      List.cons_append]

/-- It goes in front of those that are. -/
theorem insertPiece_of_lt (h : ∀ q ∈ R, p.beg < q.beg) :
    insertPiece p (L ++ R) = insertPiece p L ++ R := by
  induction L with
  | nil =>
    cases R with
    | nil => rfl
    | cons q R => exact if_pos (h q (List.mem_cons_self ..))
  | cons q L ih =>
    rw [List.cons_append, insertPiece, insertPiece]
    split
    · rfl
    · rw [ih, List.cons_append]

theorem nonempty_append : nonempty (L ++ R) = nonempty L ++ nonempty R := List.filter_append ..

theorem nonempty_cons : nonempty (q :: L) = nonempty [q] ++ nonempty L :=
  nonempty_append (L := [q])

theorem nonempty_cons_of_pos (hp : p.Nonempty) : nonempty (p :: qs) = p :: nonempty qs :=
  List.filter_cons_of_pos (decide_eq_true hp)

theorem nonempty_cons_of_neg (hp : ¬ p.Nonempty) : nonempty (p :: qs) = nonempty qs :=
  List.filter_cons_of_neg (by simpa using hp)

theorem nonempty_cons_congr (h : nonempty L = nonempty R) : nonempty (q :: L) = nonempty (q :: R) := by
  by_cases hq : q.Nonempty
  · rw [nonempty_cons_of_pos hq, nonempty_cons_of_pos hq, h]
  · rw [nonempty_cons_of_neg hq, nonempty_cons_of_neg hq, h]

theorem nonempty_insertPiece_of_empty (hp : ¬ p.Nonempty) :
    nonempty (insertPiece p qs) = nonempty qs := by
  induction qs with
  | nil => exact nonempty_cons_of_neg hp
  | cons q qs ih =>
    rw [insertPiece]
    split
    · exact nonempty_cons_of_neg hp
    · exact nonempty_cons_congr ih

/-- A nonempty piece comes last among those in front of it, if they are not stored under larger
    offsets. -/
theorem nonempty_insertPiece_of_le (hL : Sorted L) (hp : p.Nonempty)
    (h : ∀ q ∈ nonempty L, q.beg ≤ p.beg) : nonempty (insertPiece p L) = nonempty L ++ [p] := by
  induction L with
  | nil => exact nonempty_cons_of_pos hp
  | cons q L ih =>
    obtain ⟨hq, hL⟩ := List.pairwise_cons.mp hL
    rw [insertPiece]
    split
    · -- all the others are empty
      rename_i hlt
      have hempty : nonempty (q :: L) = [] := by
        rw [List.eq_nil_iff_forall_not_mem]
        intro r hr
        have hle := h r hr
        rcases List.mem_cons.mp (List.mem_filter.mp hr).1 with rfl | hmem
        · omega
        · have hqr := hq r hmem
          omega
      rw [nonempty_cons_of_pos hp, hempty]
      rfl
    · by_cases hne : q.Nonempty
      · rw [nonempty_cons_of_pos hne] at h ⊢
        rw [nonempty_cons_of_pos hne, ih hL fun r hr => h r (List.mem_cons_of_mem _ hr),
          List.cons_append]
      · rw [nonempty_cons_of_neg hne] at h ⊢
        rw [nonempty_cons_of_neg hne, ih hL h]

/-! ## When the sorted pieces are in place -/

/-- The pieces of the writes that cover the beginning of the rest. -/
def fronts (ps : List Piece) : List Piece := ps.filter fun p => p.Front

/-- These writes start at offsets that do not decrease, where some bytes are taken from them. -/
def FrontsInOrder (ps : List Piece) : Prop := Sorted (nonempty (fronts ps))

theorem fronts_cons_of_pos (hp : p.Front) : fronts (p :: ps) = p :: fronts ps :=
  List.filter_cons_of_pos (decide_eq_true hp)

theorem fronts_cons_of_neg (hp : ¬ p.Front) : fronts (p :: ps) = fronts ps :=
  List.filter_cons_of_neg (by simpa using hp)

theorem fronts_append : fronts (L ++ R) = fronts L ++ fronts R := List.filter_append ..

theorem fronts_place : fronts (place ps) = fronts ps := by
  induction ps with
  | nil => rfl
  | cons p ps ih =>
    by_cases hp : p.Front
    · rw [place_front hp, fronts_cons_of_pos hp, fronts_cons_of_pos hp, ih]
    · rw [place_back hp, fronts_append, ih, fronts_cons_of_neg hp, fronts_cons_of_neg hp]
      exact List.append_nil _

/-- A piece from the middle of the range. -/
theorem nonempty_insertPiece_middle (p : Piece) (hL : ∀ q ∈ L, q.beg < p.beg)
    (hR : ∀ q ∈ R, p.beg < q.beg) :
    nonempty (insertPiece p (L ++ R)) = nonempty L ++ nonempty [p] ++ nonempty R := by
  have hinsert : insertPiece p ([] ++ R) = [p] ++ R := insertPiece_of_lt hR
  rw [insertPiece_append fun q hq => Int.le_of_lt (hL q hq),
    show insertPiece p R = [p] ++ R from hinsert, nonempty_append, nonempty_append,
    List.append_assoc]

/-- A piece from the end of the range, in front of those that are there already. -/
theorem nonempty_insertPiece_back (hR : ∀ q ∈ R, p.stop ≤ q.beg) (hp : p.first = p.beg) :
    nonempty (insertPiece p R) = nonempty (p :: R) := by
  by_cases hne : p.Nonempty
  · have hlt : ∀ q ∈ R, p.beg < q.beg := by
      intro q hq
      have hle := hR q hq
      rw [Piece.Nonempty] at hne
      omega
    have hinsert : insertPiece p ([] ++ R) = [p] ++ R := insertPiece_of_lt hlt
    exact congrArg nonempty hinsert
  · rw [nonempty_insertPiece_of_empty hne, nonempty_cons_of_neg hne]

/-- A piece from the beginning of the range, behind those that are there already. -/
theorem nonempty_insertPiece_front (hsorted : Sorted L)
    (h : p.Nonempty → ∀ q ∈ nonempty L, q.beg ≤ p.beg) :
    nonempty (insertPiece p L) = nonempty (L ++ [p]) := by
  rw [nonempty_append]
  by_cases hne : p.Nonempty
  · rw [nonempty_insertPiece_of_le hsorted hne (h hne), nonempty_cons_of_pos hne]
    rfl
  · rw [nonempty_insertPiece_of_empty hne, nonempty_cons_of_neg hne]
    exact (List.append_nil _).symm

/-- **The sorted list of pieces**: with the fronts in order, the nonempty pieces are in place
    between those of a list `L` in front of the range and of a list `R` behind it. -/
theorem Cuts.nonempty_sortPieces (h : Cuts f t ws ps) (hord : FrontsInOrder ps)
    (hsorted : Sorted L) (hL : ∀ q ∈ L, q.beg < f) (hR : ∀ q ∈ R, t ≤ q.beg)
    (hfronts : ∀ q ∈ nonempty L, ∀ p ∈ nonempty (fronts ps), q.beg ≤ p.beg) :
    nonempty (sortPieces (L ++ R) ps) = nonempty L ++ nonempty (place ps) ++ nonempty R := by
  induction h generalizing L R with
  | done =>
    rw [sortPieces, List.foldl_nil, nonempty_append]
    simp [place, nonempty]
  | @file f t hlt =>
    rw [place_back (Int.lt_irrefl _)]
    exact nonempty_insertPiece_middle ⟨f, f, t, none⟩ hL fun q hq => Int.lt_of_lt_of_le hlt (hR q hq)
  | @all f t w ws hlt hx hy =>
    rw [place_back (Int.lt_irrefl _)]
    exact nonempty_insertPiece_middle ⟨f, f, t, some w⟩ hL
      fun q hq => Int.lt_of_lt_of_le hlt (hR q hq)
  | @back f t w ws ps hx hle hy hrest ih =>
    let p : Piece := ⟨w.initialOff, w.initialOff, t, some w⟩
    have hback : ¬ p.Front := Int.lt_irrefl _
    rw [FrontsInOrder, fronts_cons_of_neg hback] at hord
    rw [fronts_cons_of_neg hback] at hfronts
    -- the piece goes behind those in front of the range
    have hinsert : insertPiece p (L ++ R) = L ++ insertPiece p R :=
      insertPiece_append fun q hq => Int.le_of_lt (Int.lt_trans (hL q hq) hx)
    have hR' : ∀ q ∈ insertPiece p R, w.initialOff ≤ q.beg := by
      intro q hq
      rcases List.mem_cons.mp (insertPiece_perm.mem_iff.mp hq) with rfl | hq
      · exact Int.le_refl _
      · exact Int.le_trans hle (hR q hq)
    have hrec := ih hord hsorted hL hR' hfronts
    rw [nonempty_insertPiece_back (p := p) hR rfl] at hrec
    show nonempty (sortPieces (insertPiece p (L ++ R)) ps) = _
    rw [hinsert, hrec, place_back hback, nonempty_append (R := [p]), nonempty_cons (q := p)]
    simp only [List.append_assoc]
  | @front f t w ws ps hx hle hy hrest ih =>
    let p : Piece := ⟨w.initialOff, f, w.initialOff + w.writeLength, some w⟩
    have hfront : p.Front := hx
    rw [FrontsInOrder, fronts_cons_of_pos hfront] at hord
    rw [fronts_cons_of_pos hfront] at hfronts
    have hft : f < t := Int.lt_of_le_of_lt hle hy
    -- the piece goes in front of those behind the range
    have hinsert : insertPiece p (L ++ R) = insertPiece p L ++ R := by
      apply insertPiece_of_lt
      intro q hq
      exact Int.lt_of_lt_of_le (Int.lt_trans hx hft) (hR q hq)
    have hL' : ∀ q ∈ insertPiece p L, q.beg < w.initialOff + w.writeLength := by
      intro q hq
      rcases List.mem_cons.mp (insertPiece_perm.mem_iff.mp hq) with rfl | hq
      · exact Int.lt_of_lt_of_le hx hle
      · exact Int.lt_of_lt_of_le (hL q hq) hle
    have hnew : nonempty (insertPiece p L) = nonempty (L ++ [p]) := by
      apply nonempty_insertPiece_front hsorted
      intro hne q hq
      exact hfronts q hq p (by rw [nonempty_cons_of_pos hne]; exact List.mem_cons_self ..)
    have hord' : FrontsInOrder ps := by
      by_cases hne : p.Nonempty
      · rw [nonempty_cons_of_pos hne] at hord
        exact (List.pairwise_cons.mp hord).2
      · rwa [nonempty_cons_of_neg hne] at hord
    have hfronts' : ∀ q ∈ nonempty (insertPiece p L), ∀ r ∈ nonempty (fronts ps), q.beg ≤ r.beg := by
      intro q hq r hr
      rw [hnew, nonempty_append] at hq
      by_cases hne : p.Nonempty
      · rw [nonempty_cons_of_pos hne] at hord hfronts hq
        rcases List.mem_append.mp hq with hq | hq
        · exact hfronts q hq r (List.mem_cons_of_mem _ hr)
        · rw [List.mem_singleton.mp hq]
          exact (List.pairwise_cons.mp hord).1 r hr
      · rw [nonempty_cons_of_neg hne] at hfronts hq
        rcases List.mem_append.mp hq with hq | hq
        · exact hfronts q hq r hr
        · cases hq
    have hrec := ih hord' hsorted.insertPiece hL' hR hfronts'
    show nonempty (sortPieces (insertPiece p (L ++ R)) ps) = _
    rw [hinsert, hrec, hnew, place_front hfront, nonempty_append, nonempty_cons (L := place ps)]
    simp only [List.append_assoc]

/-- The nonempty pieces are in place if and only if the fronts are in order. -/
theorem Cuts.nonempty_sortPieces_iff (h : Cuts f t ws ps) :
    nonempty (place ps) = nonempty (sortPieces [] ps) ↔ FrontsInOrder ps := by
  constructor
  · intro hplace
    have hnil : Sorted [] := .nil
    have hsorted : Sorted (nonempty (place ps)) := by
      rw [hplace]
      exact List.Pairwise.filter _ (Sorted.sortPieces hnil)
    have hcomm : nonempty (fronts (place ps)) = fronts (nonempty (place ps)) := List.filter_comm ..
    rw [FrontsInOrder, ← fronts_place, hcomm]
    exact hsorted.filter _
  · intro hord
    have hrec := h.nonempty_sortPieces (L := []) (R := []) hord .nil (by simp) (by simp)
      (by simp [nonempty])
    simpa [nonempty] using hrec.symm

end

/-! ## The condition on the writes -/

/-- The write starts in front of the rest, and covers some bytes of it, but not all. -/
def CutsFront (w : WriteRecord) (rest : Set Int) : Prop :=
  (∃ p ∈ w.range, ∀ q ∈ rest, p < q) ∧ (∃ p ∈ rest, p ∈ w.range) ∧ ∃ p ∈ rest, p ∉ w.range

/-- From the newest write to the oldest, `v` is one that covers the beginning of what the newer
    ones have left. -/
def FrontCut (v : WriteRecord) : Set Int → List WriteRecord → Prop
  | _, [] => False
  | R, w :: ws => w = v ∧ CutsFront w R ∨ FrontCut v (R \ w.range) ws

/-- No write that covers the beginning of the rest starts behind an older one that does. -/
def StartsInOrder : Set Int → List WriteRecord → Prop
  | _, [] => True
  | R, w :: ws =>
    (CutsFront w R → ∀ v, FrontCut v (R \ w.range) ws → w.initialOff ≤ v.initialOff) ∧
      StartsInOrder (R \ w.range) ws

section

variable {f t : Int} {w v : WriteRecord} {ws : List WriteRecord} {ps : List Piece} {p : Piece}
  {R : Set Int}

theorem not_cutsFront_empty : ¬ CutsFront w ∅ := by
  rintro ⟨-, ⟨p, hp, -⟩, -⟩
  exact Set.notMem_empty p hp

theorem not_frontCut_empty : ¬ FrontCut v ∅ ws := by
  induction ws with
  | nil => exact id
  | cons w ws ih =>
    rintro (⟨-, hcuts⟩ | hcut)
    · exact not_cutsFront_empty hcuts
    · rw [Set.empty_sdiff] at hcut
      exact ih hcut

theorem startsInOrder_empty : StartsInOrder ∅ ws := by
  induction ws with
  | nil => exact trivial
  | cons w ws ih =>
    refine ⟨fun hcuts => absurd hcuts not_cutsFront_empty, ?_⟩
    rwa [Set.empty_sdiff]

/-! ### Writes at the ends of an interval -/

theorem not_cutsFront_of_subset (h : R ⊆ w.range) : ¬ CutsFront w R := by
  rintro ⟨-, -, p, hp, hnot⟩
  exact hnot (h hp)

theorem not_cutsFront_of_mem (hf : f ∈ R) (hx : f ≤ w.initialOff) : ¬ CutsFront w R := by
  rintro ⟨⟨p, hp, hlt⟩, -⟩
  have hle := hp.1
  have hpf := hlt f hf
  omega

/-- A write that starts in front of the interval takes some bytes, or none. -/
theorem cutsFront_Ico (hx : w.initialOff < f) (hy : w.initialOff + w.writeLength < t) :
    CutsFront w (Set.Ico f t) ↔ f < w.initialOff + w.writeLength := by
  constructor
  · rintro ⟨-, ⟨p, hp, hmem⟩, -⟩
    exact Int.lt_of_le_of_lt hp.1 hmem.2
  · intro hlt
    refine ⟨⟨w.initialOff, ⟨Int.le_refl _, Int.lt_trans hx hlt⟩, ?_⟩, ?_, ?_⟩
    · intro q hq
      exact Int.lt_of_lt_of_le hx hq.1
    · exact ⟨f, ⟨Int.le_refl f, Int.lt_trans hlt hy⟩, Int.le_of_lt hx, hlt⟩
    · exact ⟨_, ⟨Int.le_of_lt hlt, hy⟩, fun hmem => Int.lt_irrefl _ hmem.2⟩

theorem Ico_sdiff_back (hle : w.initialOff ≤ t) (hy : t < w.initialOff + w.writeLength) :
    Set.Ico f t \ w.range = Set.Ico f w.initialOff := by
  ext p
  simp only [WriteRecord.range, Set.mem_Ico, Set.mem_sdiff]
  omega

theorem Ico_sdiff_front (hx : w.initialOff < f) (hle : f ≤ w.initialOff + w.writeLength) :
    Set.Ico f t \ w.range = Set.Ico (w.initialOff + w.writeLength) t := by
  ext p
  simp only [WriteRecord.range, Set.mem_Ico, Set.mem_sdiff]
  omega

theorem Ico_sdiff_all (hx : w.initialOff ≤ f) (hy : t ≤ w.initialOff + w.writeLength) :
    Set.Ico f t \ w.range = ∅ :=
  Set.sdiff_eq_empty.mpr (Set.Ico_subset_Ico hx hy)

/-! ### The pieces and the condition -/

/-- The pieces from the fronts are those of the writes that cover the beginning of the rest. -/
theorem Cuts.forall_frontCut (h : Cuts f t ws ps) (x : Int) :
    (∀ v, FrontCut v (Set.Ico f t) ws → x ≤ v.initialOff) ↔
      ∀ p ∈ nonempty (fronts ps), x ≤ p.beg := by
  induction h with
  | done =>
    rw [Set.Ico_self]
    exact iff_of_true (fun v hv => absurd hv not_frontCut_empty) (by simp [fronts, nonempty])
  | file hlt => exact iff_of_true (fun v hv => hv.elim) (by simp [fronts, nonempty, Piece.Front])
  | @all f t w ws hlt hx hy =>
    have hnone : ∀ v, ¬ FrontCut v (Set.Ico f t) (w :: ws) := by
      rintro v (⟨-, hcuts⟩ | hcut)
      · exact not_cutsFront_of_subset (Set.Ico_subset_Ico hx hy) hcuts
      · rw [Ico_sdiff_all hx hy] at hcut
        exact not_frontCut_empty hcut
    exact iff_of_true (fun v hv => absurd hv (hnone v)) (by simp [fronts, nonempty, Piece.Front])
  | @back f t w ws ps hx hle hy hrest ih =>
    have hmem : f ∈ Set.Ico f t := ⟨Int.le_refl f, Int.lt_of_lt_of_le hx hle⟩
    have hnot := not_cutsFront_of_mem hmem (Int.le_of_lt hx)
    have hback : ¬ Piece.Front ⟨w.initialOff, w.initialOff, t, some w⟩ := Int.lt_irrefl _
    rw [fronts_cons_of_neg hback, ← ih]
    simp only [FrontCut, hnot, and_false, false_or, Ico_sdiff_back hle hy]
  | @front f t w ws ps hx hle hy hrest ih =>
    let p : Piece := ⟨w.initialOff, f, w.initialOff + w.writeLength, some w⟩
    have hfront : p.Front := hx
    have hcuts : CutsFront w (Set.Ico f t) ↔ p.Nonempty := cutsFront_Ico hx hy
    rw [fronts_cons_of_pos hfront]
    simp only [FrontCut, hcuts, Ico_sdiff_front hx hle]
    by_cases hne : p.Nonempty
    · -- the write itself comes in front of the older ones
      rw [nonempty_cons_of_pos hne, List.forall_mem_cons, ← ih]
      simp only [hne, and_true]
      exact ⟨fun h => ⟨h w (.inl rfl), fun v hv => h v (.inr hv)⟩,
        fun h v hv => hv.elim (fun heq => heq ▸ h.1) (h.2 v)⟩
    · rw [nonempty_cons_of_neg hne, ← ih]
      simp only [hne, and_false, false_or]

/-- The fronts are in order if and only if the writes start in order. -/
theorem Cuts.startsInOrder_iff (h : Cuts f t ws ps) :
    StartsInOrder (Set.Ico f t) ws ↔ FrontsInOrder ps := by
  induction h with
  | done =>
    rw [Set.Ico_self]
    exact iff_of_true startsInOrder_empty .nil
  | file hlt => exact iff_of_true trivial (by simp [FrontsInOrder, fronts, nonempty, Piece.Front, Sorted])
  | @all f t w ws hlt hx hy =>
    refine iff_of_true ⟨?_, ?_⟩ (by simp [FrontsInOrder, fronts, nonempty, Piece.Front, Sorted])
    · intro hcuts
      exact absurd hcuts (not_cutsFront_of_subset (Set.Ico_subset_Ico hx hy))
    · rw [Ico_sdiff_all hx hy]
      exact startsInOrder_empty
  | @back f t w ws ps hx hle hy hrest ih =>
    have hmem : f ∈ Set.Ico f t := ⟨Int.le_refl f, Int.lt_of_lt_of_le hx hle⟩
    have hnot := not_cutsFront_of_mem hmem (Int.le_of_lt hx)
    have hback : ¬ Piece.Front ⟨w.initialOff, w.initialOff, t, some w⟩ := Int.lt_irrefl _
    rw [FrontsInOrder, fronts_cons_of_neg hback, StartsInOrder, Ico_sdiff_back hle hy, ih]
    exact and_iff_right fun hcuts => absurd hcuts hnot
  | @front f t w ws ps hx hle hy hrest ih =>
    let p : Piece := ⟨w.initialOff, f, w.initialOff + w.writeLength, some w⟩
    have hfront : p.Front := hx
    have hcuts : CutsFront w (Set.Ico f t) ↔ p.Nonempty := cutsFront_Ico hx hy
    rw [FrontsInOrder, fronts_cons_of_pos hfront, StartsInOrder, hcuts, Ico_sdiff_front hx hle,
      hrest.forall_frontCut, ih]
    by_cases hne : p.Nonempty
    · rw [nonempty_cons_of_pos hne, Sorted, List.pairwise_cons]
      exact and_congr_left' (forall_prop_of_true hne)
    · rw [nonempty_cons_of_neg hne]
      exact and_iff_right fun hpos => absurd hpos hne

/-- What no write covers is what comes from the original file. -/
theorem Cuts.uncovered_eq (h : Cuts f t ws ps) :
    uncovered (Set.Ico f t) ws = {b | ∃ p ∈ ps, p.source = none ∧ p.first ≤ b ∧ b < p.stop} := by
  have hempty : ∀ vs : List WriteRecord, uncovered ∅ vs = ∅ := by
    intro vs
    simp [uncovered]
  induction h with
  | done => simp [hempty]
  | file hlt =>
    rw [uncovered_nil]
    ext b
    simp
  | all hlt hx hy =>
    rw [uncovered_cons, Ico_sdiff_all hx hy, hempty]
    ext b
    simp
  | back hx hle hy hrest ih =>
    rw [uncovered_cons, Ico_sdiff_back hle hy, ih]
    ext b
    simp
  | front hx hle hy hrest ih =>
    rw [uncovered_cons, Ico_sdiff_front hx hle, ih]
    ext b
    simp

/-- The pieces from the original file are not empty. -/
theorem Cuts.nonempty_of_file (h : Cuts f t ws ps) (hp : p ∈ ps) (hsource : p.source = none) :
    p.Nonempty := by
  induction h with
  | done => cases hp
  | file hlt =>
    rw [List.mem_singleton.mp hp]
    exact hlt
  | all hlt hx hy =>
    rw [List.mem_singleton.mp hp] at hsource
    cases hsource
  | back hx hle hy hrest ih =>
    rcases List.mem_cons.mp hp with rfl | hp
    · cases hsource
    · exact ih hp
  | front hx hle hy hrest ih =>
    rcases List.mem_cons.mp hp with rfl | hp
    · cases hsource
    · exact ih hp

/-- The writes leave only bytes of the original file that are in front of its end. -/
theorem Cuts.uncovered_lt_iff (h : Cuts f t ws ps) {l : Int} :
    (∀ b ∈ uncovered (Set.Ico f t) ws, b < l) ↔ ∀ p ∈ ps, p.source = none → p.stop ≤ l := by
  rw [h.uncovered_eq]
  constructor
  · intro hlt p hp hsource
    have hne : p.first < p.stop := h.nonempty_of_file hp hsource
    have hlast := hlt (p.stop - 1) ⟨p, hp, hsource, by omega, by omega⟩
    omega
  · rintro hle b ⟨p, hp, hsource, -, hb⟩
    exact Int.lt_of_lt_of_le hb (hle p hp hsource)

/-- The lengths of the pieces add up to that of the range. -/
theorem Cuts.sum_length (h : Cuts f t ws ps) : (ps.map Piece.length).sum = (t - f).toNat := by
  induction h with
  | done => simp
  | file hlt => simp [Piece.length]
  | all hlt hx hy => simp [Piece.length]
  | @back f t w ws ps hx hle hy hrest ih =>
    have hsum : (t - w.initialOff).toNat + (w.initialOff - f).toNat = (t - f).toNat := by omega
    rw [List.map_cons, List.sum_cons, ih]
    exact hsum
  | @front f t w ws ps hx hle hy hrest ih =>
    have hsum : (w.initialOff + w.writeLength - f).toNat +
        (t - (w.initialOff + w.writeLength)).toNat = (t - f).toNat := by omega
    rw [List.map_cons, List.sum_cons, ih]
    exact hsum

/-- Every write gives at most one piece, and so does the file. -/
theorem Cuts.sources (h : Cuts f t ws ps) :
    (ps.map Piece.source).Sublist (ws.map some ++ [none]) := by
  induction h with
  | done => exact List.nil_sublist _
  | file hlt => exact .refl _
  | all hlt hx hy => exact (List.nil_sublist _).cons_cons _
  | back hx hle hy hrest ih => exact ih.cons_cons _
  | front hx hle hy hrest ih => exact ih.cons_cons _

end

end ReadOld

end TxFS
