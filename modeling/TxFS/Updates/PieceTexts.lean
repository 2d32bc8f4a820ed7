import Mathlib.Data.List.TakeWhile
import TxFS.EventLog.Chains
import TxFS.Updates.Pieces

/-!
# The Texts of the Pieces

Where the overlay loop is left, it has cut the range into pieces and put a node for each of them
into the list: `Cuts.leaves` follows its run. A piece takes its text from the log record of its
write, or from the file.

`Cuts.complete` compares the texts with the content that the writes, in order, make of the file.
-/

namespace TxFS

open BinaryFile FileContent EventLog WhileLoop

namespace ReadOld

/-! ## The logged writes -/

/-- The data of the record at an LRN. -/
def dataAt (rs : List LogRecord) (l : Int) : List UInt8 :=
  match rs.find? fun r => r.LRN = l with
  | some r => r.data
  | none => []

/-- The records of the log hold the data of the writes. -/
structure Logged (rs : List LogRecord) (ws : List WriteRecord) : Prop where
  offsets : Offsets 0 rs
  /-- The LRN and the index into the data fit into variables of type `int`. -/
  fits : ∀ w ∈ ws, w.LRN < 2 ^ 31 ∧ w.writeLength < 2 ^ 31
  holds : ∀ w ∈ ws, ∃ r ∈ rs, r.LRN = w.LRN ∧ r.data.length = w.writeLength ∧ 0 ∉ r.data
  nonneg : ∀ w ∈ ws, 0 ≤ w.initialOff
  nodup : (ws.map WriteRecord.LRN).Nodup

/-- The content that the writes, in order, make of the bytes of the file. -/
def written (rs : List LogRecord) (bytes : List UInt8) (ws : List WriteRecord) : List UInt8 :=
  ws.foldl (fun xs w => patch xs w.initialOff.toNat (dataAt rs w.LRN)) bytes

section

variable {rs : List LogRecord} {r : LogRecord} {w : WriteRecord} {ws : List WriteRecord}
  {log : File} {bytes xs : List UInt8} {n : Nat} {l : Int}

theorem dataAt_of_mem (h : Offsets n rs) (hr : r ∈ rs) (hl : r.LRN = l) : dataAt rs l = r.data := by
  cases hfind : rs.find? fun r => r.LRN = l with
  | none =>
    have hnot := List.find?_eq_none.mp hfind r hr
    simp [hl] at hnot
  | some r' =>
    have hr' : r'.LRN = l := by simpa using List.find?_some hfind
    have heq := h.eq_of_LRN (List.mem_of_find?_eq_some hfind) hr (hr'.trans hl.symm)
    simp only [dataAt, hfind, heq]

/-- `extract_data_log` finds the data of a record. -/
theorem extractDataLog_of_mem (h : Offsets 0 rs) (hr : r ∈ rs) (hlrn : r.LRN < 2 ^ 31)
    (hdata : r.data.length < 2 ^ 64) (hlog : log.bytes = encode rs) :
    (extractDataLog log r.LRN).1 = r.data ∧ (extractDataLog log r.LRN).2.bytes = encode rs := by
  obtain ⟨pre, post, rfl⟩ := List.append_of_mem hr
  have hpos := h.LRN_eq
  rw [Nat.zero_add] at hpos
  have hint : intOfLong r.LRN = r.LRN := intOfLong_of_fits (by omega) (by omega)
  -- the position is behind the first 44 bytes of the record
  have hseek : log.seekSet (intOfLong r.LRN + (8 + 4 + 8 + 8 + 4 + 4 + 8)) =
      ⟨encode (pre ++ r :: post), (encode pre).length + 44⟩ := by
    rw [hint, hpos, ← hlog]
    exact File.seekSet_nat (n := (encode pre).length + 44)
  have hrest : File.rest ⟨encode (pre ++ r :: post), (encode pre).length + 44⟩ = _ :=
    File.rest_advance (File.rest_advance (rest_record pre post r) length_intBytes) length_intBytes
  obtain ⟨f', hread, -⟩ := readData_rest hrest hdata
  have hbytes := (forward_readData ⟨encode (pre ++ r :: post), (encode pre).length + 44⟩).bytes
  rw [extractDataLog, hseek]
  exact ⟨congrArg Prod.fst hread, hbytes⟩

/-- A part of a string without NUL bytes is copied as it is. -/
theorem copyString_eq_segment {index n : Int} (hnul : 0 ∉ xs) (hindex : 0 ≤ index)
    (hlt : index < 2 ^ 31) (hn : 0 ≤ n) :
    copyString xs index n = segment xs index.toNat (index + n).toNat := by
  have hsub : (index + n).toNat - index.toNat = n.toNat := by omega
  rw [copyString, intOfLong_of_fits (by omega) hlt, FileContent.segment, hsub,
    List.takeWhile_eq_self_iff]
  intro b hb
  have hmem : b ∈ xs := List.mem_of_mem_drop (List.mem_of_mem_take hb)
  exact decide_eq_true fun heq => hnul (heq ▸ hmem)

/-- What a read beyond the end leaves of the zeros in the buffer. -/
theorem copyString_padded (xs : List UInt8) (n : Int) (hnul : 0 ∉ xs) (hn : xs.length ≤ n.toNat) :
    copyString (xs ++ List.replicate (n.toNat - xs.length) 0) 0 n = xs := by
  have hall : ∀ b ∈ xs, decide (b ≠ 0) = true := by
    intro b hb
    exact decide_eq_true fun heq => hnul (heq ▸ hb)
  have hzero : (intOfLong 0).toNat = 0 := rfl
  have htake : (xs ++ List.replicate (n.toNat - xs.length) 0).take n.toNat =
      xs ++ List.replicate (n.toNat - xs.length) 0 := by
    apply List.take_of_length_le
    simp
    omega
  rw [copyString, hzero, List.drop_zero, htake, List.takeWhile_append_of_pos hall]
  simp

end

/-! ## The text of a piece -/

/-- The bytes that a piece takes of its write or of the file. -/
def Piece.text (rs : List LogRecord) (bytes : List UInt8) (p : Piece) : List UInt8 :=
  match p.source with
  | some w => segment (dataAt rs w.LRN) (p.first - w.initialOff).toNat (p.stop - w.initialOff).toNat
  | none => segment bytes p.first.toNat p.stop.toNat

/-- The node that is made for a piece. -/
def Piece.node (rs : List LogRecord) (bytes : List UInt8) (p : Piece) : DataRead :=
  ⟨p.beg, p.text rs bytes⟩

section

variable {rs : List LogRecord} {bytes : List UInt8} {p : Piece} {ps qs : List Piece}

theorem insertReadList_map :
    insertReadList (p.node rs bytes) (qs.map (Piece.node rs bytes)) =
      (insertPiece p qs).map (Piece.node rs bytes) := by
  induction qs with
  | nil => rfl
  | cons q qs ih =>
    rw [List.map_cons, insertReadList, ih, insertPiece]
    show (if q.beg > p.beg then _ else _) = _
    split
    · rfl
    · rfl

theorem assemble_map :
    assemble (ps.map (Piece.node rs bytes)) = ps.flatMap (Piece.text rs bytes) :=
  List.flatMap_map ..

end

/-! ## The loop and the pieces -/

namespace Overlay

variable {rs : List LogRecord} {s s' : Overlay} {file : File} {f t total : Int} {ws : List WriteRecord}
  {ps qs : List Piece}

/-- A loop that is left has cut the rest into pieces. -/
theorem exists_cuts (hs : s.Sized) (h : Leaves More iterate s s') :
    ∃ ps, Cuts s.readFrom s.readTo s.writesAt ps := by
  induction hws : s.writesAt generalizing s with
  | nil =>
    obtain ⟨hle, hsize⟩ := hs
    by_cases hlt : s.readFrom < s.readTo
    · exact ⟨_, .file hlt⟩
    · have heq : s.readFrom = s.readTo := by omega
      rw [heq]
      exact ⟨[], .done⟩
  | cons w ws ih =>
    obtain ⟨hle, hsize⟩ := id hs
    by_cases hlt : s.readFrom < s.readTo
    · have hmore : s.More := ⟨by omega, by simp [hws]⟩
      rcases iterate_cases hws hlt with ⟨hbody, -⟩ | ⟨hbody, -⟩ | ⟨s₁, hbody, htakes⟩
      · exact absurd h (runsForever_of_fixed hmore hbody).not_leaves
      · exact absurd h (not_leaves_of_fault hmore hbody)
      · rw [leaves_step hmore hbody] at h
        obtain ⟨hws₁, hrest⟩ := htakes.rest hs
        cases htakes with
        | all hx hy => exact ⟨_, .all hlt hx hy⟩
        | back hx hle hy =>
          obtain ⟨ps, hps⟩ := ih ⟨Int.le_of_lt hx, by simp only []; omega⟩ h hws₁
          exact ⟨_, .back hx hle hy hps⟩
        | front hx hle hy =>
          obtain ⟨ps, hps⟩ := ih ⟨Int.le_of_lt hy, by simp only []; omega⟩ h hws₁
          exact ⟨_, .front hx hle hy hps⟩
    · have heq : s.readFrom = s.readTo := by omega
      rw [heq]
      exact ⟨[], .done⟩

/-- What the local variables of the loop hold while the pieces `qs` have been taken. -/
structure Holds (rs : List LogRecord) (bytes : List UInt8) (f t : Int) (ws : List WriteRecord)
    (qs : List Piece) (total : Int) (s : Overlay) : Prop where
  readFrom : s.readFrom = f
  readTo : s.readTo = t
  bytesToRead : s.bytesToRead = t - f
  writesAt : s.writesAt = ws
  head : s.head = qs.map (Piece.node rs bytes)
  log : s.log.bytes = encode rs
  total : s.totalBytesRead = total

/-- What a piece of a write holds. -/
theorem node_of_write {w : WriteRecord} (bytes : List UInt8) (beg : Int) {first stop : Int}
    (hlogged : Logged rs (w :: ws)) (hlog : s.log.bytes = encode rs)
    (hfirst : w.initialOff ≤ first) (hle : first ≤ stop) (hstop : first ≤ w.initialOff + w.writeLength) :
    (⟨beg, copyString (extractDataLog s.log w.LRN).1 (first - w.initialOff) (stop - first)⟩ : DataRead) =
        Piece.node rs bytes ⟨beg, first, stop, some w⟩ ∧
      (extractDataLog s.log w.LRN).2.bytes = encode rs := by
  obtain ⟨r, hr, hlrn, hlength, hnul⟩ := hlogged.holds w (List.mem_cons_self ..)
  have hdata := dataAt_of_mem hlogged.offsets hr hlrn
  obtain ⟨hfits, hindex⟩ := hlogged.fits w (List.mem_cons_self ..)
  obtain ⟨hread, hbytes⟩ := extractDataLog_of_mem hlogged.offsets hr (hlrn ▸ hfits) (by omega) hlog
  rw [hlrn] at hread hbytes
  have hsum : first - w.initialOff + (stop - first) = stop - w.initialOff := by omega
  refine ⟨?_, hbytes⟩
  rw [hread, copyString_eq_segment hnul (by omega) (by omega) (by omega), hsum, ← hdata]
  rfl

section

variable {w : WriteRecord} {bytes : List UInt8}

/-- A write that covers the rest. -/
theorem Holds.all (hs : Holds rs bytes f t (w :: ws) qs total s) (hlogged : Logged rs (w :: ws))
    (hlt : f < t) (hx : w.initialOff ≤ f) (hy : t ≤ w.initialOff + w.writeLength) :
    ∃ s₁, s.More ∧ s.iterate = some s₁ ∧ s₁.bytesToRead = 0 ∧
      s₁.head = (insertPiece ⟨f, f, t, some w⟩ qs).map (Piece.node rs bytes) ∧
      s₁.totalBytesRead = total + (t - f) := by
  obtain ⟨hfrom, hto, hbytes, hws, hhead, hlog, htotal⟩ := hs
  subst hfrom hto htotal
  have hmore : s.More := ⟨by omega, by simp [hws]⟩
  obtain ⟨hnode, -⟩ := node_of_write bytes s.readFrom hlogged hlog hx
    (Int.le_of_lt hlt) (Int.le_trans (Int.le_of_lt hlt) hy)
  refine ⟨_, hmore, (Takes.all hx hy).iterate hws hlt, ?_, ?_, rfl⟩
  · show s.bytesToRead - (s.readTo - s.readFrom) = 0
    omega
  · show insertReadList _ s.head = _
    rw [hnode, hhead, insertReadList_map]

/-- A write that covers the end of the rest. -/
theorem Holds.back (hs : Holds rs bytes f t (w :: ws) qs total s) (hlogged : Logged rs (w :: ws))
    (hx : f < w.initialOff) (hle : w.initialOff ≤ t) (hy : t < w.initialOff + w.writeLength) :
    ∃ s₁, s.More ∧ s.iterate = some s₁ ∧ Holds rs bytes f w.initialOff ws
      (insertPiece ⟨w.initialOff, w.initialOff, t, some w⟩ qs) (total + (t - w.initialOff)) s₁ := by
  obtain ⟨hfrom, hto, hbytes, hws, hhead, hlog, htotal⟩ := hs
  subst hfrom hto htotal
  have hmore : s.More := ⟨by omega, by simp [hws]⟩
  obtain ⟨hnode, hlog'⟩ := node_of_write bytes w.initialOff hlogged hlog
    (Int.le_refl _) hle (by omega)
  rw [Int.sub_self] at hnode
  refine ⟨_, hmore, (Takes.back hx hle hy).iterate hws (by omega), ⟨rfl, rfl, ?_, rfl, ?_, hlog', rfl⟩⟩
  · show s.bytesToRead - (s.readTo - w.initialOff) = w.initialOff - s.readFrom
    omega
  · show insertReadList _ s.head = _
    rw [hnode, hhead, insertReadList_map]

/-- A write that covers the beginning of the rest. -/
theorem Holds.front (hs : Holds rs bytes f t (w :: ws) qs total s) (hlogged : Logged rs (w :: ws))
    (hx : w.initialOff < f) (hle : f ≤ w.initialOff + w.writeLength)
    (hy : w.initialOff + w.writeLength < t) :
    ∃ s₁, s.More ∧ s.iterate = some s₁ ∧ Holds rs bytes (w.initialOff + w.writeLength) t ws
      (insertPiece ⟨w.initialOff, f, w.initialOff + w.writeLength, some w⟩ qs)
      (total + (w.initialOff + w.writeLength - f)) s₁ := by
  obtain ⟨hfrom, hto, hbytes, hws, hhead, hlog, htotal⟩ := hs
  subst hfrom hto htotal
  have hmore : s.More := ⟨by omega, by simp [hws]⟩
  obtain ⟨hnode, hlog'⟩ := node_of_write bytes w.initialOff hlogged hlog
    (Int.le_of_lt hx) hle hle
  refine ⟨_, hmore, (Takes.front hx hle hy).iterate hws (by omega), ⟨rfl, rfl, ?_, rfl, ?_, hlog', rfl⟩⟩
  · show s.bytesToRead - (w.initialOff + w.writeLength - s.readFrom) =
      s.readTo - (w.initialOff + w.writeLength)
    omega
  · show insertReadList _ s.head = _
    rw [hnode, hhead, insertReadList_map]

end

theorem takeRest_of_zero (hzero : s.bytesToRead = 0) : takeRest s file = some (s, file) :=
  if_neg (not_not.mpr hzero)

/-- The rest of the range is taken from the file. -/
theorem takeRest_file (hs : Holds rs file.bytes f t ws qs total s) (hlt : f < t) (hf : 0 ≤ f)
    (hnul : 0 ∉ file.bytes) :
    ∃ s' file', takeRest s file = some (s', file') ∧
      s'.head = (insertPiece ⟨f, f, t, none⟩ qs).map (Piece.node rs file.bytes) ∧
      s'.totalBytesRead = total + (t - f) := by
  have hne : s.bytesToRead ≠ 0 := by
    rw [hs.bytesToRead]
    omega
  have hnonneg : ¬ s.bytesToRead < 0 := by
    rw [hs.bytesToRead]
    omega
  have hseek : file.seekSet s.readFrom = ⟨file.bytes, f.toNat⟩ := by
    rw [hs.readFrom]
    exact if_pos hf
  have hsub : (t - f).toNat = t.toNat - f.toNat := by omega
  have hread : ((file.seekSet s.readFrom).read s.bytesToRead.toNat).1 =
      segment file.bytes f.toNat t.toNat := by
    rw [hseek, hs.bytesToRead, hsub]
    rfl
  -- the zeros of the buffer behind the end of the file are no part of the string
  have hcopy := copyString_padded (segment file.bytes f.toNat t.toNat) s.bytesToRead
    (fun h => hnul (mem_of_mem_segment h)) (by
      rw [hs.bytesToRead, hsub]
      exact length_segment_le)
  have hnode : (⟨s.readFrom, segment file.bytes f.toNat t.toNat⟩ : DataRead) =
      Piece.node rs file.bytes ⟨f, f, t, none⟩ := by
    rw [hs.readFrom]
    rfl
  refine ⟨{ s with
    head := insertReadList ⟨s.readFrom, segment file.bytes f.toNat t.toNat⟩ s.head
    totalBytesRead := s.totalBytesRead + s.bytesToRead },
    ((file.seekSet s.readFrom).read s.bytesToRead.toNat).2, ?_, ?_, ?_⟩
  · rw [takeRest, if_pos hne, ← hcopy, ← hread]
    simp only [getNewNode, if_neg hnonneg]
    rfl
  · show insertReadList _ s.head = _
    rw [hnode, hs.head, insertReadList_map]
  · show s.totalBytesRead + s.bytesToRead = _
    rw [hs.total, hs.bytesToRead]

end Overlay

theorem Logged.tail {rs : List LogRecord} {w : WriteRecord} {ws : List WriteRecord}
    (h : Logged rs (w :: ws)) : Logged rs ws where
  offsets := h.offsets
  fits v hv := h.fits v (List.mem_cons_of_mem _ hv)
  holds v hv := h.holds v (List.mem_cons_of_mem _ hv)
  nonneg v hv := h.nonneg v (List.mem_cons_of_mem _ hv)
  nodup := (List.nodup_cons.mp h.nodup).2

open Overlay in
/-- **The run of the loop**: the pieces of the range are put into the list one after the other.
    By induction on the pieces. -/
theorem Cuts.leaves {rs : List LogRecord} {s : Overlay} (file : File) {f t total : Int}
    {ws : List WriteRecord} {ps qs : List Piece} (h : Cuts f t ws ps)
    (hs : Holds rs file.bytes f t ws qs total s) (hlogged : Logged rs ws) (hf : 0 ≤ f)
    (hnul : 0 ∉ file.bytes) :
    ∃ s' s'' file', Leaves More iterate s s' ∧ takeRest s' file = some (s'', file') ∧
      s''.head = (sortPieces qs ps).map (Piece.node rs file.bytes) ∧
      s''.totalBytesRead = total + (t - f) := by
  induction h generalizing s qs total with
  | @done f ws =>
    have hzero : s.bytesToRead = 0 := by
      rw [hs.bytesToRead]
      omega
    have hleaves : Leaves More iterate s s := (leaves_of_not_cond fun hmore => hmore.1 hzero).mpr rfl
    refine ⟨s, s, file, hleaves, takeRest_of_zero hzero, hs.head, ?_⟩
    rw [hs.total]
    omega
  | file hlt =>
    have hleaves : Leaves More iterate s s :=
      (leaves_of_not_cond fun hmore => hmore.2 hs.writesAt).mpr rfl
    obtain ⟨s'', file', htake, hhead, htotal⟩ := takeRest_file hs hlt hf hnul
    exact ⟨s, s'', file', hleaves, htake, hhead, htotal⟩
  | @all f t w ws hlt hx hy =>
    obtain ⟨s₁, hmore, hbody, hzero, hhead, htotal⟩ := hs.all hlogged hlt hx hy
    have hleaves : Leaves More iterate s s₁ :=
      (leaves_step hmore hbody).mpr ((leaves_of_not_cond fun hmore => hmore.1 hzero).mpr rfl)
    exact ⟨s₁, s₁, file, hleaves, takeRest_of_zero hzero, hhead, htotal⟩
  | @back f t w ws ps hx hle hy hrest ih =>
    obtain ⟨s₁, hmore, hbody, hs₁⟩ := hs.back hlogged hx hle hy
    obtain ⟨s', s'', file', hleaves, htake, hhead, htotal⟩ := ih hs₁ hlogged.tail hf
    exact ⟨s', s'', file', (leaves_step hmore hbody).mpr hleaves, htake, hhead, by omega⟩
  | @front f t w ws ps hx hle hy hrest ih =>
    obtain ⟨s₁, hmore, hbody, hs₁⟩ := hs.front hlogged hx hle hy
    obtain ⟨s', s'', file', hleaves, htake, hhead, htotal⟩ := ih hs₁ hlogged.tail (by omega)
    exact ⟨s', s'', file', (leaves_step hmore hbody).mpr hleaves, htake, hhead, by omega⟩

/-! ## The pieces and the content -/

section

variable {rs : List LogRecord} {bytes : List UInt8} {f t : Int} {w : WriteRecord}
  {ws : List WriteRecord} {ps : List Piece} {p : Piece}

theorem written_reverse_cons : written rs bytes (w :: ws).reverse =
    patch (written rs bytes ws.reverse) w.initialOff.toNat (dataAt rs w.LRN) := by
  rw [List.reverse_cons, written, List.foldl_append]
  rfl

theorem Cuts.bounds (h : Cuts f t ws ps) (hp : p ∈ ps) :
    f ≤ p.first ∧ p.first ≤ p.stop ∧ p.stop ≤ t := by
  induction h with
  | done => cases hp
  | file hlt =>
    rw [List.mem_singleton.mp hp]
    exact ⟨Int.le_refl _, Int.le_of_lt hlt, Int.le_refl _⟩
  | all hlt hx hy =>
    rw [List.mem_singleton.mp hp]
    exact ⟨Int.le_refl _, Int.le_of_lt hlt, Int.le_refl _⟩
  | back hx hle hy hrest ih =>
    rcases List.mem_cons.mp hp with rfl | hp
    · exact ⟨Int.le_of_lt hx, hle, Int.le_refl _⟩
    · obtain ⟨hfirst, hpiece, hstop⟩ := ih hp
      exact ⟨hfirst, hpiece, Int.le_trans hstop hle⟩
  | front hx hle hy hrest ih =>
    rcases List.mem_cons.mp hp with rfl | hp
    · exact ⟨Int.le_refl _, hle, Int.le_of_lt hy⟩
    · obtain ⟨hfirst, hpiece, hstop⟩ := ih hp
      exact ⟨Int.le_trans hle hfirst, hpiece, hstop⟩

theorem Logged.length_dataAt (h : Logged rs ws) (hw : w ∈ ws) :
    ((dataAt rs w.LRN).length : Int) = w.writeLength := by
  obtain ⟨r, hr, hlrn, hlength, -⟩ := h.holds w hw
  rw [dataAt_of_mem h.offsets hr hlrn, hlength]

/-- A piece is complete, and holds the bytes that the content has at its place. -/
def Piece.Complete (rs : List LogRecord) (bytes xs : List UInt8) (p : Piece) : Prop :=
  p.text rs bytes = segment xs p.first.toNat p.stop.toNat ∧ (p.text rs bytes).length = p.length

/-- A piece of a write, in the content behind the write. -/
theorem complete_of_write {xs : List UInt8} {first stop beg : Int} (hlogged : Logged rs (w :: ws))
    (hx : w.initialOff ≤ first) (hle : first ≤ stop) (hy : stop ≤ w.initialOff + w.writeLength) :
    Piece.Complete rs bytes (patch xs w.initialOff.toNat (dataAt rs w.LRN))
      ⟨beg, first, stop, some w⟩ := by
  have hlength := hlogged.length_dataAt (List.mem_cons_self ..)
  have hnonneg := hlogged.nonneg w (List.mem_cons_self ..)
  have hfirst : (first - w.initialOff).toNat = first.toNat - w.initialOff.toNat := by omega
  have hstop : (stop - w.initialOff).toNat = stop.toNat - w.initialOff.toNat := by omega
  have htext : Piece.text rs bytes ⟨beg, first, stop, some w⟩ = segment (dataAt rs w.LRN)
      (first - w.initialOff).toNat (stop - w.initialOff).toNat := rfl
  constructor
  · rw [htext, hfirst, hstop]
    exact (segment_patch_inside (by omega) (by omega)).symm
  · rw [htext, length_segment (by omega), Piece.length]
    show _ = (stop - first).toNat
    omega

/-- A newer write beside the piece leaves it complete. -/
theorem Piece.Complete.patch {xs : List UInt8} (h : p.Complete rs bytes xs)
    (hlogged : Logged rs (w :: ws)) (hfirst : 0 ≤ p.first) (hle : p.first ≤ p.stop)
    (hout : p.stop ≤ w.initialOff ∨ w.initialOff + w.writeLength ≤ p.first) :
    p.Complete rs bytes (patch xs w.initialOff.toNat (dataAt rs w.LRN)) := by
  obtain ⟨htext, hlength⟩ := h
  have hdata := hlogged.length_dataAt (List.mem_cons_self ..)
  have hnonneg := hlogged.nonneg w (List.mem_cons_self ..)
  have hsub : p.length = p.stop.toNat - p.first.toNat := by
    rw [Piece.length]
    omega
  refine ⟨htext.trans (segment_patch_outside ?_ (by omega)).symm, hlength⟩
  rw [← htext, hlength, hsub]

/-- **The pieces hold the bytes of the content**, where those from the file lie inside it. By
    induction on the writes from the newest to the oldest. -/
theorem Cuts.complete (h : Cuts f t ws ps) (hf : 0 ≤ f) (hlogged : Logged rs ws)
    (hfile : ∀ p ∈ ps, p.source = none → p.stop ≤ bytes.length) :
    ∀ p ∈ ps, p.Complete rs bytes (written rs bytes ws.reverse) := by
  induction h with
  | done => simp
  | @file f t hlt =>
    have hstop : t ≤ bytes.length := hfile _ (List.mem_singleton_self _) rfl
    intro p hp
    rw [List.mem_singleton.mp hp]
    refine ⟨rfl, ?_⟩
    show (segment bytes f.toNat t.toNat).length = (t - f).toNat
    rw [length_segment (Int.toNat_le.mpr hstop)]
    omega
  | all hlt hx hy =>
    intro p hp
    rw [List.mem_singleton.mp hp, written_reverse_cons]
    exact complete_of_write hlogged hx (Int.le_of_lt hlt) hy
  | back hx hle hy hrest ih =>
    intro p hp
    rw [written_reverse_cons]
    rcases List.mem_cons.mp hp with rfl | hp
    · exact complete_of_write hlogged (Int.le_refl _) hle (Int.le_of_lt hy)
    · -- the other pieces lie in front of the write
      obtain ⟨hfirst, hpiece, hstop⟩ := hrest.bounds hp
      have hcomplete := ih hf hlogged.tail (fun q hq => hfile q (List.mem_cons_of_mem _ hq)) p hp
      exact hcomplete.patch hlogged (Int.le_trans hf hfirst) hpiece (.inl hstop)
  | front hx hle hy hrest ih =>
    intro p hp
    rw [written_reverse_cons]
    rcases List.mem_cons.mp hp with rfl | hp
    · exact complete_of_write hlogged (Int.le_of_lt hx) hle (Int.le_refl _)
    · -- the other pieces lie behind the write
      obtain ⟨hfirst, hpiece, hstop⟩ := hrest.bounds hp
      have hnonneg := Int.le_trans hf hle
      have hcomplete := ih hnonneg hlogged.tail (fun q hq => hfile q (List.mem_cons_of_mem _ hq)) p hp
      exact hcomplete.patch hlogged (Int.le_trans hnonneg hfirst) hpiece (.inr hfirst)

/-- Complete pieces in their places are the bytes of the range. -/
theorem Cuts.flatMap_text {xs : List UInt8} (h : Cuts f t ws ps) (hf : 0 ≤ f)
    (hcomplete : ∀ p ∈ ps, p.Complete rs bytes xs) :
    (place ps).flatMap (Piece.text rs bytes) = segment xs f.toNat t.toNat := by
  rw [← h.flatMap_place hf]
  apply List.flatMap_congr
  intro p hp
  exact (hcomplete p (place_perm.mem_iff.mp hp)).1

theorem flatMap_nonempty (ps : List Piece) {g : Piece → List UInt8} (hg : ∀ p ∈ ps, ¬ p.Nonempty → g p = []) :
    (nonempty ps).flatMap g = ps.flatMap g := by
  induction ps with
  | nil => rfl
  | cons p ps ih =>
    have hrec := ih fun q hq => hg q (List.mem_cons_of_mem _ hq)
    by_cases hne : p.Nonempty
    · rw [nonempty_cons_of_pos hne, List.flatMap_cons, List.flatMap_cons, hrec]
    · rw [nonempty_cons_of_neg hne, List.flatMap_cons, hg p (List.mem_cons_self ..) hne, hrec]
      rfl

/-- No text is longer than its place. -/
theorem length_text_le : (p.text rs bytes).length ≤ p.length := by
  rw [Piece.length]
  unfold Piece.text
  split
  · refine Nat.le_trans length_segment_le ?_
    omega
  · refine Nat.le_trans length_segment_le ?_
    omega

theorem text_of_empty (hp : ¬ p.Nonempty) : p.text rs bytes = [] := by
  have hle : (p.text rs bytes).length ≤ p.length := length_text_le
  rw [Piece.Nonempty] at hp
  rw [Piece.length] at hle
  apply List.eq_nil_of_length_eq_zero
  omega

/-- The text does not change where the sorted pieces are in place. -/
theorem Cuts.flatMap_sortPieces (h : Cuts f t ws ps) (hord : FrontsInOrder ps) :
    (sortPieces [] ps).flatMap (Piece.text rs bytes) = (place ps).flatMap (Piece.text rs bytes) := by
  rw [← flatMap_nonempty (sortPieces [] ps) fun p _ hp => text_of_empty hp,
    ← flatMap_nonempty (place ps) fun p _ hp => text_of_empty hp,
    h.nonempty_sortPieces_iff.mpr hord]

/-- The length of complete pieces together. -/
theorem Cuts.length_text {xs : List UInt8} (h : Cuts f t ws ps)
    (hcomplete : ∀ p ∈ ps, p.Complete rs bytes xs) :
    ((place ps).flatMap (Piece.text rs bytes)).length = (t - f).toNat := by
  have hlengths : (place ps).map (fun p => (p.text rs bytes).length) = (place ps).map Piece.length := by
    apply List.map_congr_left
    intro p hp
    exact (hcomplete p (place_perm.mem_iff.mp hp)).2
  rw [List.length_flatMap, hlengths, ← h.sum_length]
  exact (place_perm.map _).sum_nat

end

end ReadOld

end TxFS
