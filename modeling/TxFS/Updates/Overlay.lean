import Mathlib
import TxFS.Updates.ReadOld

/-!
# Termination of the Overlay Loop

The loop of `do_read_old` goes to the next older write only in the three branches that take a
piece. A write that lies inside the rest of the range, but is not all of it, meets none of them,
and the body is repeated without an effect. A write that does not touch the rest makes the number
of bytes negative.

`overlay_course` says for which lists of writes the loop is left and for which it runs forever.
-/

namespace TxFS

open WhileLoop

/-- The bytes that a write covers. -/
def WriteRecord.range (w : WriteRecord) : Set Int :=
  Set.Ico w.initialOff (w.initialOff + w.writeLength)

namespace ReadOld

/-! ## Writes and the rest of the range -/

/-- The part of the range that no write covers. -/
def uncovered (R : Set Int) (ws : List WriteRecord) : Set Int := {p ∈ R | ∀ w ∈ ws, p ∉ w.range}

/-- The write lies inside the rest, and leaves something of it. -/
def LiesInside (w : WriteRecord) (rest : Set Int) : Prop := w.range ⊂ rest

/-- There are bytes between the rest and the write. -/
def BeyondGap (w : WriteRecord) (rest : Set Int) : Prop :=
  (∀ p ∈ rest, p + 1 < w.initialOff) ∨ ∀ p ∈ rest, w.initialOff + w.writeLength < p

/-- The write covers the rest or one of its ends, or is next to it; where nothing is left, the
    loop does not get to the write. -/
def Meets (w : WriteRecord) (rest : Set Int) : Prop :=
  rest.Nonempty → ¬ LiesInside w rest ∧ ¬ BeyondGap w rest

/-- From the newest write to the oldest, each of them meets what the newer ones have left. -/
def Clear (R : Set Int) (ws : List WriteRecord) : Prop :=
  ∀ newer w older, ws = newer ++ w :: older → Meets w (uncovered R newer)

/-- Behind writes that meet the rest, there is one that lies inside it. -/
def RunsInto (R : Set Int) (ws : List WriteRecord) : Prop :=
  ∃ newer w older, ws = newer ++ w :: older ∧ Clear R newer ∧ LiesInside w (uncovered R newer)

section

variable {R : Set Int} {w : WriteRecord} {ws : List WriteRecord} {f t x y : Int}

theorem uncovered_nil : uncovered R [] = R := by
  simp [uncovered]

theorem uncovered_cons : uncovered R (w :: ws) = uncovered (R \ w.range) ws := by
  ext p
  simp [uncovered, and_assoc]

theorem clear_nil : Clear R [] := by
  rintro (_ | ⟨v, newer⟩) w older h
  · cases h
  · cases h

theorem clear_cons : Clear R (w :: ws) ↔ Meets w R ∧ Clear (R \ w.range) ws := by
  constructor
  · intro h
    constructor
    · have hw := h [] w ws rfl
      rwa [uncovered_nil] at hw
    · rintro newer v older rfl
      have hv := h (w :: newer) v older rfl
      rwa [uncovered_cons] at hv
  · rintro ⟨hw, hws⟩ (_ | ⟨u, newer⟩) v older heq
    · cases heq
      rwa [uncovered_nil]
    · cases heq
      rw [uncovered_cons]
      exact hws newer v older rfl

/-- Nothing is left, and the loop gets to no other write. -/
theorem clear_empty : Clear ∅ ws := by
  rintro newer w older - ⟨p, hp, -⟩
  exact absurd hp (Set.notMem_empty p)

theorem not_runsInto_nil : ¬ RunsInto R [] := by
  rintro ⟨_ | ⟨v, newer⟩, w, older, h, -⟩
  · cases h
  · cases h

theorem runsInto_cons :
    RunsInto R (w :: ws) ↔ LiesInside w R ∨ Meets w R ∧ RunsInto (R \ w.range) ws := by
  constructor
  · rintro ⟨_ | ⟨u, newer⟩, v, older, heq, hclear, hinside⟩
    · cases heq
      rw [uncovered_nil] at hinside
      exact .inl hinside
    · cases heq
      rw [uncovered_cons] at hinside
      obtain ⟨hw, hnewer⟩ := clear_cons.mp hclear
      exact .inr ⟨hw, newer, v, older, rfl, hnewer, hinside⟩
  · rintro (hinside | ⟨hw, newer, v, older, rfl, hclear, hinside⟩)
    · refine ⟨[], w, ws, rfl, clear_nil, ?_⟩
      rwa [uncovered_nil]
    · refine ⟨w :: newer, v, older, rfl, clear_cons.mpr ⟨hw, hclear⟩, ?_⟩
      rwa [uncovered_cons]

theorem not_runsInto_empty : ¬ RunsInto ∅ ws := by
  rintro ⟨newer, w, older, -, -, hinside⟩
  obtain ⟨p, ⟨hp, -⟩, -⟩ := Set.exists_of_ssubset hinside
  exact Set.notMem_empty p hp

/-! ### Intervals -/

theorem Ico_subset_Ico (hxy : x < y) : Set.Ico x y ⊆ Set.Ico f t ↔ f ≤ x ∧ y ≤ t := by
  constructor
  · intro h
    have hfirst : x ∈ Set.Ico f t := h ⟨Int.le_refl x, hxy⟩
    have hlast : y - 1 ∈ Set.Ico f t := h ⟨by omega, by omega⟩
    have hlt := hlast.2
    exact ⟨hfirst.1, by omega⟩
  · rintro ⟨hx, hy⟩
    exact Set.Ico_subset_Ico hx hy

theorem liesInside_Ico (hw : 0 < w.writeLength) (hft : f < t) :
    LiesInside w (Set.Ico f t) ↔ f ≤ w.initialOff ∧ w.initialOff + w.writeLength ≤ t ∧
      ¬ (w.initialOff ≤ f ∧ t ≤ w.initialOff + w.writeLength) := by
  have hne : w.initialOff < w.initialOff + w.writeLength := by omega
  rw [LiesInside, ssubset_iff_subset_not_subset, WriteRecord.range, Ico_subset_Ico hne,
    Ico_subset_Ico hft, and_assoc]

theorem beyondGap_Ico (hft : f < t) :
    BeyondGap w (Set.Ico f t) ↔ t < w.initialOff ∨ w.initialOff + w.writeLength < f := by
  constructor
  · rintro (h | h)
    · have hlast := h (t - 1) ⟨by omega, by omega⟩
      exact .inl (by omega)
    · exact .inr (h f ⟨Int.le_refl f, hft⟩)
  · rintro (h | h)
    · exact .inl fun p hp => by
        have hlt := hp.2
        omega
    · exact .inr fun p hp => Int.lt_of_lt_of_le h hp.1

end

/-! ## One iteration -/

namespace Overlay

variable {s s' : Overlay} {w : WriteRecord} {ws : List WriteRecord}

/-- The rest of the range, as the local variables have it. -/
def rest (s : Overlay) : Set Int := Set.Ico s.readFrom s.readTo

/-- `bytes_to_read` is the length of the rest. -/
def Sized (s : Overlay) : Prop := s.readFrom ≤ s.readTo ∧ s.bytesToRead = s.readTo - s.readFrom

/-- **An iteration that takes a piece of the write `w`**, by the position of the write. -/
inductive Takes (s : Overlay) (w : WriteRecord) (ws : List WriteRecord) : Overlay → Prop where
  /-- The write covers the rest. -/
  | all (hx : w.initialOff ≤ s.readFrom) (hy : s.readTo ≤ w.initialOff + w.writeLength) :
      Takes s w ws { s with
        head := insertReadList ⟨s.readFrom, copyString (extractDataLog s.log w.LRN).1
          (s.readFrom - w.initialOff) (s.readTo - s.readFrom)⟩ s.head
        totalBytesRead := s.totalBytesRead + (s.readTo - s.readFrom)
        bytesToRead := s.bytesToRead - (s.readTo - s.readFrom)
        writesAt := ws
        log := (extractDataLog s.log w.LRN).2 }
  /-- The write covers the end of the rest. -/
  | back (hx : s.readFrom < w.initialOff) (hle : w.initialOff ≤ s.readTo)
      (hy : s.readTo < w.initialOff + w.writeLength) :
      Takes s w ws { s with
        head := insertReadList ⟨w.initialOff, copyString (extractDataLog s.log w.LRN).1
          0 (s.readTo - w.initialOff)⟩ s.head
        totalBytesRead := s.totalBytesRead + (s.readTo - w.initialOff)
        bytesToRead := s.bytesToRead - (s.readTo - w.initialOff)
        writesAt := ws
        log := (extractDataLog s.log w.LRN).2
        readTo := w.initialOff }
  /-- The write covers the beginning of the rest. -/
  | front (hx : w.initialOff < s.readFrom) (hle : s.readFrom ≤ w.initialOff + w.writeLength)
      (hy : w.initialOff + w.writeLength < s.readTo) :
      Takes s w ws { s with
        head := insertReadList ⟨w.initialOff, copyString (extractDataLog s.log w.LRN).1
          (s.readFrom - w.initialOff) (w.initialOff + w.writeLength - s.readFrom)⟩ s.head
        totalBytesRead := s.totalBytesRead + (w.initialOff + w.writeLength - s.readFrom)
        bytesToRead := s.bytesToRead - (w.initialOff + w.writeLength - s.readFrom)
        writesAt := ws
        log := (extractDataLog s.log w.LRN).2
        readFrom := w.initialOff + w.writeLength }

/-- The positions of a write exclude each other. -/
theorem Takes.iterate (h : Takes s w ws s') (hs : s.writesAt = w :: ws)
    (hlt : s.readFrom < s.readTo) : s.iterate = some s' := by
  simp only [Overlay.iterate, hs]
  cases h with
  | all hx hy =>
    rw [if_pos ⟨hx, hy⟩, takePiece_of_nonneg (by omega)]
  | back hx hle hy =>
    rw [if_neg (by omega), if_pos ⟨hx, hy⟩, takePiece_of_nonneg (by omega)]
    rfl
  | front hx hle hy =>
    rw [if_neg (by omega), if_neg (by omega), if_pos ⟨hx, hy⟩, takePiece_of_nonneg (by omega)]
    rfl

/-- The three ways the body of the loop ends: without an effect, in a fault or with a piece. -/
theorem iterate_cases (hs : s.writesAt = w :: ws) (hlt : s.readFrom < s.readTo) :
    (s.iterate = some s ∧ ¬ (w.initialOff ≤ s.readFrom ∧ s.readTo ≤ w.initialOff + w.writeLength) ∧
        ¬ (s.readFrom < w.initialOff ∧ s.readTo < w.initialOff + w.writeLength) ∧
        ¬ (w.initialOff < s.readFrom ∧ w.initialOff + w.writeLength < s.readTo)) ∨
      (s.iterate = none ∧ (s.readFrom < w.initialOff ∧ s.readTo < w.initialOff ∨
        w.initialOff + w.writeLength < s.readFrom ∧ w.initialOff + w.writeLength < s.readTo)) ∨
      ∃ s', s.iterate = some s' ∧ Takes s w ws s' := by
  simp only [iterate, hs]
  split
  · rename_i hall
    obtain ⟨hx, hy⟩ := hall
    right; right
    rw [takePiece_of_nonneg (by omega)]
    exact ⟨_, rfl, .all hx hy⟩
  · rename_i hall
    split
    · rename_i hback
      obtain ⟨hx, hy⟩ := hback
      by_cases hle : w.initialOff ≤ s.readTo
      · right; right
        rw [takePiece_of_nonneg (by omega)]
        exact ⟨_, rfl, .back hx hle hy⟩
      · right; left
        rw [takePiece_of_neg (by omega)]
        exact ⟨rfl, .inl ⟨hx, Int.not_le.mp hle⟩⟩
    · rename_i hback
      split
      · rename_i hfront
        obtain ⟨hx, hy⟩ := hfront
        by_cases hle : s.readFrom ≤ w.initialOff + w.writeLength
        · right; right
          rw [takePiece_of_nonneg (by omega)]
          exact ⟨_, rfl, .front hx hle hy⟩
        · right; left
          rw [takePiece_of_neg (by omega)]
          exact ⟨rfl, .inr ⟨Int.not_le.mp hle, hy⟩⟩
      · rename_i hfront
        left
        exact ⟨rfl, hall, hback, hfront⟩

/-- **The body of the loop**: what it does for a write in every position. -/
theorem iterate_spec (hs : s.writesAt = w :: ws) (hlt : s.readFrom < s.readTo)
    (hw : 0 < w.writeLength) :
    (LiesInside w s.rest ∧ s.iterate = some s) ∨
      (¬ LiesInside w s.rest ∧ BeyondGap w s.rest ∧ s.iterate = none) ∨
      Meets w s.rest ∧ ∃ s', s.iterate = some s' ∧ Takes s w ws s' := by
  have hinside := liesInside_Ico hw hlt
  have hgap := beyondGap_Ico (w := w) hlt
  have hmeets : ¬ LiesInside w s.rest → ¬ BeyondGap w s.rest → Meets w s.rest :=
    fun hi hg _ => ⟨hi, hg⟩
  rw [rest] at hmeets ⊢
  rw [hinside, hgap] at *
  rcases iterate_cases hs hlt with ⟨hbody, hall, hback, hfront⟩ | ⟨hbody, hbeyond⟩ | ⟨s', hbody, htakes⟩
  · exact .inl ⟨by omega, hbody⟩
  · exact .inr (.inl ⟨by omega, by omega, hbody⟩)
  · refine .inr (.inr ⟨?_, s', hbody, htakes⟩)
    cases htakes with
    | all hx hy => exact hmeets (by omega) (by omega)
    | back hx hle hy => exact hmeets (by omega) (by omega)
    | front hx hle hy => exact hmeets (by omega) (by omega)

/-- Behind a piece, the rest is what the write has left of it. -/
theorem Takes.rest (h : Takes s w ws s') (hs : s.Sized) :
    s'.writesAt = ws ∧ ((s'.bytesToRead = 0 ∧ s.rest \ w.range = ∅) ∨
      (s'.Sized ∧ s'.rest = s.rest \ w.range)) := by
  have hsize := hs.2
  cases h with
  | all hx hy =>
    refine ⟨rfl, .inl ⟨?_, ?_⟩⟩
    · show s.bytesToRead - (s.readTo - s.readFrom) = 0
      omega
    · exact Set.sdiff_eq_empty.mpr (Set.Ico_subset_Ico hx hy)
  | back hx hle hy =>
    refine ⟨rfl, .inr ⟨⟨Int.le_of_lt hx, ?_⟩, ?_⟩⟩
    · show s.bytesToRead - (s.readTo - w.initialOff) = w.initialOff - s.readFrom
      omega
    · ext p
      simp only [Overlay.rest, WriteRecord.range, Set.mem_Ico, Set.mem_sdiff]
      omega
  | front hx hle hy =>
    refine ⟨rfl, .inr ⟨⟨Int.le_of_lt hy, ?_⟩, ?_⟩⟩
    · show s.bytesToRead - (w.initialOff + w.writeLength - s.readFrom) =
        s.readTo - (w.initialOff + w.writeLength)
      omega
    · ext p
      simp only [Overlay.rest, WriteRecord.range, Set.mem_Ico, Set.mem_sdiff]
      omega

/-! ## The course of the loop -/

theorem rest_eq_empty (hs : s.Sized) (hzero : s.bytesToRead = 0) : s.rest = ∅ := by
  have hsize := hs.2
  apply Set.Ico_eq_empty
  omega

/-- **The course of the loop**: by induction on the writes that are left. -/
theorem course (hs : s.Sized) (hpos : ∀ w ∈ s.writesAt, 0 < w.writeLength) :
    ((∃ s', Leaves More iterate s s') ↔ Clear s.rest s.writesAt) ∧
      (RunsForever More iterate s ↔ RunsInto s.rest s.writesAt) := by
  -- a loop that is left at once
  have hleft : ∀ {s : Overlay}, ¬ s.More →
      (∃ s', Leaves More iterate s s') ∧ ¬ RunsForever More iterate s := by
    intro s hmore
    have hleaves : Leaves More iterate s s := (leaves_of_not_cond hmore).mpr rfl
    exact ⟨⟨s, hleaves⟩, fun hforever => hforever.not_leaves hleaves⟩
  induction hws : s.writesAt generalizing s with
  | nil =>
    obtain ⟨hleaves, hforever⟩ := hleft (s := s) fun hmore => hmore.2 hws
    exact ⟨iff_of_true hleaves clear_nil, iff_of_false hforever not_runsInto_nil⟩
  | cons w ws ih =>
    by_cases hzero : s.bytesToRead = 0
    · -- nothing of the range is left
      obtain ⟨hleaves, hforever⟩ := hleft (s := s) fun hmore => hmore.1 hzero
      rw [rest_eq_empty hs hzero]
      exact ⟨iff_of_true hleaves clear_empty, iff_of_false hforever not_runsInto_empty⟩
    have hmore : s.More := ⟨hzero, by simp [hws]⟩
    obtain ⟨hle, hsize⟩ := id hs
    have hlt : s.readFrom < s.readTo := by omega
    have hnonempty : s.rest.Nonempty := ⟨s.readFrom, Int.le_refl _, hlt⟩
    rw [hws] at hpos
    rcases iterate_spec hws hlt (hpos w (List.mem_cons_self ..)) with
      ⟨hinside, hbody⟩ | ⟨hinside, hgap, hbody⟩ | ⟨hmeets, s₁, hbody, htakes⟩
    · -- the body changes nothing
      have hforever := runsForever_of_fixed hmore hbody
      refine ⟨iff_of_false ?_ ?_, iff_of_true hforever (runsInto_cons.mpr (.inl hinside))⟩
      · rintro ⟨s', hleaves⟩
        exact hforever.not_leaves hleaves
      · intro hclear
        exact ((clear_cons.mp hclear).1 hnonempty).1 hinside
    · -- the number of bytes is negative
      refine ⟨iff_of_false ?_ ?_, iff_of_false ?_ ?_⟩
      · rintro ⟨s', hleaves⟩
        exact not_leaves_of_fault hmore hbody hleaves
      · intro hclear
        exact ((clear_cons.mp hclear).1 hnonempty).2 hgap
      · intro hforever
        exact hforever.not_faults (faults_of_body hmore hbody)
      · intro hruns
        rcases runsInto_cons.mp hruns with hlies | ⟨hmeets, -⟩
        · exact hinside hlies
        · exact (hmeets hnonempty).2 hgap
    · -- the loop goes on with the next write
      obtain ⟨hws₁, hrest⟩ := htakes.rest hs
      have hinside : ¬ LiesInside w s.rest := (hmeets hnonempty).1
      have hleaves : (∃ s', Leaves More iterate s s') ↔ ∃ s', Leaves More iterate s₁ s' :=
        exists_congr fun _ => leaves_step hmore hbody
      rw [hleaves, runsForever_step hmore hbody, clear_cons, runsInto_cons]
      simp only [hmeets, hinside, true_and, false_or]
      rcases hrest with ⟨hzero₁, hempty⟩ | ⟨hs₁, hrest⟩
      · obtain ⟨hleaves₁, hforever₁⟩ := hleft (s := s₁) fun hmore => hmore.1 hzero₁
        rw [hempty]
        exact ⟨iff_of_true hleaves₁ clear_empty, iff_of_false hforever₁ not_runsInto_empty⟩
      · rw [← hrest]
        apply ih hs₁ _ hws₁
        intro v hv
        exact hpos v (List.mem_cons_of_mem _ (hws₁ ▸ hv))

theorem sized_startOverlay {c : FileLock} {log : BinaryFile.File} {nbytes : Nat} :
    (startOverlay c log nbytes).Sized := by
  constructor
  · show c.fileOffset ≤ c.fileOffset + (nbytes : Int)
    omega
  · show (nbytes : Int) = c.fileOffset + nbytes - c.fileOffset
    omega

end Overlay

open Overlay in
/-- **The overlay loop** is left if and only if every write, from the newest to the oldest, meets
    what the newer ones have left of the range, and it runs forever if and only if it comes to a
    write that lies inside the rest. -/
theorem overlay_course (c : FileLock) (log : BinaryFile.File) (nbytes : Nat)
    (hpos : ∀ w ∈ c.writesAt, 0 < w.writeLength) :
    ((∃ s', Leaves More iterate (startOverlay c log nbytes) s') ↔
      Clear (Set.Ico c.fileOffset (c.fileOffset + nbytes)) c.writesAt.reverse) ∧
    (RunsForever More iterate (startOverlay c log nbytes) ↔
      RunsInto (Set.Ico c.fileOffset (c.fileOffset + nbytes)) c.writesAt.reverse) := by
  apply course sized_startOverlay
  intro w hw
  exact hpos w (List.mem_reverse.mp hw)

/-- The record of a file opened for reading and writing, at its beginning. -/
def openedFor (writesAt : List WriteRecord) : FileLock :=
  { getFileNode 7 0 2 1 with fd := 3, fileOffset := 0, writesAt := writesAt }

open Overlay in
/-- Two writes that overlap each other and the range. -/
theorem overlay_course_overlapping :
    (∀ w ∈ (openedFor [⟨2, 9, 66⟩, ⟨0, 4, 200⟩]).writesAt, 0 < w.writeLength) ∧
    ((∃ s', Leaves More iterate (startOverlay (openedFor [⟨2, 9, 66⟩, ⟨0, 4, 200⟩]) ⟨[], 0⟩ 8) s') ↔
      Clear (Set.Ico 0 8) [⟨0, 4, 200⟩, ⟨2, 9, 66⟩]) ∧
    (RunsForever More iterate (startOverlay (openedFor [⟨2, 9, 66⟩, ⟨0, 4, 200⟩]) ⟨[], 0⟩ 8) ↔
      RunsInto (Set.Ico 0 8) [⟨0, 4, 200⟩, ⟨2, 9, 66⟩]) :=
  ⟨by decide, overlay_course (openedFor [⟨2, 9, 66⟩, ⟨0, 4, 200⟩]) ⟨[], 0⟩ 8 (by decide)⟩

open Overlay in
/-- A write of two bytes inside a range of ten bytes, and one behind the range. -/
theorem overlay_not_left :
    RunsForever More iterate (startOverlay (openedFor [⟨3, 2, 66⟩]) ⟨[], 0⟩ 10) ∧
      Faults More iterate (startOverlay (openedFor [⟨20, 2, 66⟩]) ⟨[], 0⟩ 10) :=
  ⟨runsForever_of_fixed (by decide) rfl, faults_of_body (by decide) rfl⟩

end ReadOld

end TxFS
