import TxFS.Lib.FileContent
import TxFS.Yaffs.OpenFiles

/-!
# Reads and Writes in Pieces

`yaffsfs_do_read` and `yaffsfs_do_write` move the data in pieces that do not cross a multiple of
`YAFFSFS_RW_SIZE`, and give up the lock between two pieces. Meanwhile the device can be unmounted
or the file can be changed, so each piece is an own call of the layer below, and its answer can be
anything: `yaffs_file_rd` and `yaffs_wr_file` are not in the repository, and are parameters. A
missing object, or a device that is read-only, is an answer of no bytes.

The tests in front of a transfer (a buffer of `NULL`, a bad handle, a descriptor that is not open
for it, for a write a device that is read-only) are left out of `yaffsWrite` and `yaffsRead`: both
are the calls whose tests pass.
-/

namespace TxFS

open FileContent

/-- `YAFFSFS_RW_SIZE`. -/
def yaffsfsRwSize : Nat := 1 <<< 13

/-- `YAFFSFS_RW_SIZE - (pos & (YAFFSFS_RW_SIZE - 1))`, cut to `nbyte`. -/
def pieceLength (pos nbyte : Nat) : Nat :=
  min (yaffsfsRwSize - pos % yaffsfsRwSize) nbyte

/-- The test of the position and the length in front of the loops, with `maxFileSize` for
    `YAFFS_MAX_FILE_SIZE`. The sum is stored in an `int`. -/
def InFileRange (maxFileSize pos : Int) (nbyte : Nat) : Prop :=
  ¬ (pos < 0 ∨ pos > maxFileSize ∨ nbyte > maxFileSize ∨ intOfLong (pos + nbyte) < 0 ∨
    intOfLong (pos + nbyte) > maxFileSize)

instance (maxFileSize pos : Int) (nbyte : Nat) : Decidable (InFileRange maxFileSize pos nbyte) :=
  inferInstanceAs (Decidable (¬ _))

/-! ## Writes -/

/-- A call of `yaffs_wr_file`, with what it returned. -/
structure WriteCall where
  pos : Nat
  data : List UInt8
  nWritten : Int
deriving DecidableEq, Repr

namespace WriteCall

/-- The bytes that were written. -/
def accepted (c : WriteCall) : List UInt8 := c.data.take c.nWritten.toNat

end WriteCall

/-- The variables of the loop of `yaffsfs_do_write`. -/
structure WriteLoop where
  pos : Nat
  buf : List UInt8
  nbyte : Nat
  totalWritten : Int
deriving DecidableEq, Repr

namespace WriteLoop

/-- The call of a turn. No two turns write at the same position, so `wrFile` can answer each turn
    in its own way. -/
def call (wrFile : Nat → List UInt8 → Int) (s : WriteLoop) : WriteCall :=
  let data := s.buf.take (pieceLength s.pos s.nbyte)
  ⟨s.pos, data, wrFile s.pos data⟩

/-- The body of the loop, behind the call. -/
def turn (s : WriteLoop) (nWritten : Int) : WriteLoop :=
  let nToWrite := pieceLength s.pos s.nbyte
  let totalWritten := if nWritten > 0 then s.totalWritten + nWritten else s.totalWritten
  { pos := if nWritten > 0 then s.pos + nWritten.toNat else s.pos
    buf := if nWritten > 0 then s.buf.drop nWritten.toNat else s.buf
    nbyte := if nWritten = nToWrite then s.nbyte - nToWrite else 0
    totalWritten := if nWritten < 1 ∧ totalWritten < 1 then -1 else totalWritten }

/-- `while (nbyte > 0)`, at most as often as the first argument says. -/
def run (wrFile : Nat → List UInt8 → Int) : Nat → WriteLoop → WriteLoop × List WriteCall
  | 0, s => (s, [])
  | n + 1, s =>
    if s.nbyte = 0 then (s, [])
    else
      let c := s.call wrFile
      let rest := run wrFile n (s.turn c.nWritten)
      (rest.1, c :: rest.2)

end WriteLoop

/-- `yaffsfs_do_write` from `startPos` on, behind the tests of the handle: the value, and the calls
    of `yaffs_wr_file`. -/
def yaffsfsDoWrite (maxFileSize : Int) (wrFile : Nat → List UInt8 → Int) (startPos : Int)
    (vbuf : List UInt8) : Int × List WriteCall :=
  if InFileRange maxFileSize startPos vbuf.length then
    let s := WriteLoop.run wrFile vbuf.length ⟨startPos.toNat, vbuf, vbuf.length, 0⟩
    (if s.1.totalWritten ≥ 0 then s.1.totalWritten else -1, s.2)
  else (-1, [])

/-- `yaffs_write` with a descriptor that is open for writing: the value, the position of the
    descriptor behind it, and the calls. -/
def yaffsWrite (maxFileSize : Int) (wrFile : Nat → List UInt8 → Int) (append : Bool)
    (objLength position : Int) (vbuf : List UInt8) : Int × Int × List WriteCall :=
  let startPos := if append then objLength else position
  let r := yaffsfsDoWrite maxFileSize wrFile startPos vbuf
  (r.1, if r.1 > 0 then startPos + r.1 else position, r.2)

/-! ## Reads -/

/-- The variables of the loop of `yaffsfs_do_read`; `buf` is what was read. -/
structure ReadLoop where
  pos : Nat
  buf : List UInt8
  nbyte : Nat
deriving DecidableEq, Repr

namespace ReadLoop

/-- The body of the loop; `fileRd` gives the bytes that `yaffs_file_rd` puts into the buffer. -/
def turn (fileRd : Nat → Nat → List UInt8) (s : ReadLoop) : ReadLoop :=
  let nToRead := pieceLength s.pos s.nbyte
  let data := fileRd s.pos nToRead
  { pos := s.pos + data.length
    buf := s.buf ++ data
    nbyte := if data.length = nToRead then s.nbyte - nToRead else 0 }

/-- `while (nbyte > 0)`, at most as often as the first argument says. -/
def run (fileRd : Nat → Nat → List UInt8) : Nat → ReadLoop → ReadLoop
  | 0, s => s
  | n + 1, s => if s.nbyte = 0 then s else run fileRd n (s.turn fileRd)

end ReadLoop

/-- `yaffsfs_do_read` from `startPos` on, behind the tests of the handle: the value, and the bytes
    in the buffer. -/
def yaffsfsDoRead (maxFileSize : Int) (fileRd : Nat → Nat → List UInt8) (objLength startPos : Int)
    (nbyte : Nat) : Int × List UInt8 :=
  if nbyte > maxFileSize then (-1, [])
  else
    let maxRead := if objLength > startPos then objLength - startPos else 0
    let nbyte := if nbyte > maxRead then maxRead.toNat else nbyte
    if InFileRange maxFileSize startPos nbyte then
      let s := ReadLoop.run fileRd nbyte ⟨startPos.toNat, [], nbyte⟩
      (s.buf.length, s.buf)
    else (-1, [])

/-- `yaffs_read` with a descriptor that is open for reading: the value, the position of the
    descriptor behind it, and the bytes in the buffer. -/
def yaffsRead (maxFileSize : Int) (fileRd : Nat → Nat → List UInt8) (objLength position : Int)
    (nbyte : Nat) : Int × Int × List UInt8 :=
  let r := yaffsfsDoRead maxFileSize fileRd objLength position nbyte
  (r.1, if r.1 ≥ 0 then position + r.1 else position, r.2)

/-! ## Pieces -/

variable {pos nbyte : Nat}

theorem pieceLength_pos (pos : Nat) (h : 0 < nbyte) : 0 < pieceLength pos nbyte := by
  have hlt : pos % yaffsfsRwSize < yaffsfsRwSize := Nat.mod_lt _ (by decide)
  exact lt_min (Nat.sub_pos_of_lt hlt) h

theorem pieceLength_le (pos nbyte : Nat) : pieceLength pos nbyte ≤ nbyte := Nat.min_le_right ..

/-- A piece does not go over a multiple of `YAFFSFS_RW_SIZE`. -/
theorem div_piece (h : 0 < nbyte) :
    (pos + pieceLength pos nbyte - 1) / yaffsfsRwSize = pos / yaffsfsRwSize := by
  have hpos := pieceLength_pos pos h
  have hle : pieceLength pos nbyte ≤ yaffsfsRwSize - pos % yaffsfsRwSize := Nat.min_le_left ..
  have hsize : yaffsfsRwSize = 8192 := rfl
  rw [hsize] at hle ⊢
  omega

theorem InFileRange.bounds {maxFileSize start : Int} (h : InFileRange maxFileSize start nbyte)
    (hmax : maxFileSize < 2 ^ 31) : 0 ≤ start ∧ start + nbyte ≤ maxFileSize := by
  simp only [InFileRange, not_or, not_lt, gt_iff_lt] at h
  obtain ⟨h0, hstart, hnbyte, hend, hle⟩ := h
  refine ⟨h0, ?_⟩
  unfold intOfLong at hend hle
  -- the sum is below `2 ^ 32`, so an `int` that is not negative is the sum
  have hsum : start + nbyte < 2 ^ 32 := by omega
  by_cases hint : start + nbyte < 2 ^ 31
  · rw [Int.bmod_eq_of_le (by omega) (by omega)] at hle
    exact hle
  · have hwrap : Int.bmod (start + nbyte) (2 ^ 32) = start + nbyte - 2 ^ 32 := by
      rw [Int.bmod_def]
      omega
    rw [hwrap] at hend
    omega

/-! ## The loop of a write -/

/-- The calls go from `p` on, each where the one before it ended; only the last one may be short. -/
def Consecutive : Nat → List WriteCall → Prop
  | _, [] => True
  | p, c :: cs =>
    c.pos = p ∧ (cs ≠ [] → c.nWritten = c.data.length) ∧ Consecutive (p + c.accepted.length) cs

/-- The bytes that the calls wrote. -/
def acceptedBytes (cs : List WriteCall) : List UInt8 := cs.flatMap WriteCall.accepted

variable {wrFile : Nat → List UInt8 → Int} {s : WriteLoop} {n : Nat}

/-- What a turn does, by what was written. -/
theorem turn_spec (hn : 0 < s.nbyte) (hbuf : s.nbyte ≤ s.buf.length)
    (hw : (s.call wrFile).nWritten ≤ (s.call wrFile).data.length) (ht : 0 ≤ s.totalWritten) :
    (s.call wrFile).data.length = pieceLength s.pos s.nbyte ∧
    ∃ k, k = (s.call wrFile).accepted.length ∧ k ≤ pieceLength s.pos s.nbyte ∧
      (s.call wrFile).accepted = s.buf.take k ∧
      s.turn (s.call wrFile).nWritten =
        { pos := s.pos + k
          buf := s.buf.drop k
          nbyte := if k = pieceLength s.pos s.nbyte then s.nbyte - k else 0
          totalWritten := if s.totalWritten + k = 0 then -1 else s.totalWritten + k } := by
  have hpos := pieceLength_pos s.pos hn
  have hle := pieceLength_le s.pos s.nbyte
  -- the whole piece is handed over, and the front of it is accepted
  have hdata : (s.call wrFile).data.length = pieceLength s.pos s.nbyte := by
    show (s.buf.take (pieceLength s.pos s.nbyte)).length = _
    rw [List.length_take]
    omega
  have haccepted : (s.call wrFile).accepted = s.buf.take (s.call wrFile).nWritten.toNat := by
    show (s.buf.take _).take _ = _
    rw [List.take_take]
    congr 1
    omega
  rw [hdata] at hw
  refine ⟨hdata, _, rfl, ?_, ?_, ?_⟩
  · rw [haccepted, List.length_take]
    omega
  · rw [haccepted, List.length_take]
    congr 1
    omega
  · have hk : (s.call wrFile).accepted.length = (s.call wrFile).nWritten.toNat := by
      rw [haccepted, List.length_take]
      omega
    rw [hk]
    generalize (s.call wrFile).nWritten = w at hw
    unfold WriteLoop.turn
    by_cases hw0 : w > 0
    · have htotal : ¬ (w < 1 ∧ s.totalWritten + w < 1) := by omega
      have hzero : ¬ s.totalWritten + w = 0 := by omega
      have hcast : ((w.toNat : Nat) : Int) = w := by omega
      have hshort : w = (pieceLength s.pos s.nbyte : Int) ↔
          w.toNat = pieceLength s.pos s.nbyte := by omega
      simp only [hw0, if_true, htotal, if_false, hzero, hcast, hshort, WriteLoop.mk.injEq, true_and,
        and_true]
      split
      · rename_i heq
        rw [heq]
      · rfl
    · -- no byte was written: the loop ends, with -1 if it is the first turn
      have hnat : w.toNat = 0 := by omega
      have hne : ¬ w = (pieceLength s.pos s.nbyte : Int) := by omega
      have hne' : ¬ 0 = pieceLength s.pos s.nbyte := by omega
      have hlt : w < 1 := by omega
      simp only [hw0, if_false, hnat, hne, hne', hlt, true_and, List.drop_zero,
        Nat.cast_zero, add_zero, WriteLoop.mk.injEq]
      split
      · rw [if_pos (by omega)]
      · rw [if_neg (by omega)]

/-- A loop that has nothing to do. -/
theorem run_of_done (hn : s.nbyte = 0) : s.run wrFile n = (s, []) := by
  cases n with
  | zero => rfl
  | succ n => exact if_pos hn

/-- **What the loop does**, whatever the layer below answers. -/
structure WriteSpec (s : WriteLoop) (r : WriteLoop × List WriteCall) : Prop where
  consecutive : Consecutive s.pos r.2
  /-- A call stays in the rest of the data, and in its part of the file. -/
  piece : ∀ c ∈ r.2, 0 < c.data.length ∧ c.pos + c.data.length ≤ s.pos + s.nbyte ∧
    (c.pos + c.data.length - 1) / yaffsfsRwSize = c.pos / yaffsfsRwSize
  accepted : acceptedBytes r.2 = s.buf.take (acceptedBytes r.2).length
  length_le : (acceptedBytes r.2).length ≤ s.nbyte
  total : r.1.totalWritten =
    if 0 < s.nbyte ∧ s.totalWritten + (acceptedBytes r.2).length = 0 then -1
    else s.totalWritten + (acceptedBytes r.2).length
  /-- The loop is over. -/
  done : r.1.nbyte = 0

theorem writeSpec_run (hw : ∀ pos data, wrFile pos data ≤ (data.length : Int)) (hn : s.nbyte ≤ n)
    (hbuf : s.nbyte ≤ s.buf.length) (ht : 0 ≤ s.totalWritten) : WriteSpec s (s.run wrFile n) := by
  have hdone : ∀ {s : WriteLoop} {n : Nat}, s.nbyte = 0 → WriteSpec s (s.run wrFile n) := by
    intro s n h0
    rw [run_of_done h0]
    refine ⟨trivial, fun c hc => ?_, ?_, Nat.zero_le _, ?_, h0⟩
    · cases hc
    · exact (List.take_zero).symm
    · simp [h0, acceptedBytes]
  -- the induction is on the turns that are left
  induction n generalizing s with
  | zero => exact hdone (Nat.le_zero.mp hn)
  | succ n ih =>
    by_cases h0 : s.nbyte = 0
    · exact hdone h0
    have hpos : 0 < s.nbyte := Nat.pos_of_ne_zero h0
    obtain ⟨hdata, k, hk, hkle, haccepted, hturn⟩ := turn_spec hpos hbuf (hw _ _) ht
    have hpiece := pieceLength_le s.pos s.nbyte
    have hpiece0 := pieceLength_pos s.pos hpos
    -- the first call
    have hcall : 0 < (s.call wrFile).data.length ∧
        (s.call wrFile).pos + (s.call wrFile).data.length ≤ s.pos + s.nbyte ∧
        ((s.call wrFile).pos + (s.call wrFile).data.length - 1) / yaffsfsRwSize =
          (s.call wrFile).pos / yaffsfsRwSize := by
      rw [hdata]
      exact ⟨hpiece0, Nat.add_le_add_left hpiece s.pos, div_piece hpos⟩
    have hrun : s.run wrFile (n + 1) =
        (((s.turn (s.call wrFile).nWritten).run wrFile n).1,
          s.call wrFile :: ((s.turn (s.call wrFile).nWritten).run wrFile n).2) := if_neg h0
    rw [hrun, hturn]
    by_cases hfull : k = pieceLength s.pos s.nbyte
    · -- a whole piece: the rest of the loop starts behind it
      have htotal : ¬ s.totalWritten + (k : Int) = 0 := by omega
      simp only [if_pos hfull, if_neg htotal]
      have hrest := ih (s := ⟨s.pos + k, s.buf.drop k, s.nbyte - k, s.totalWritten + k⟩)
        (show s.nbyte - k ≤ n by omega)
        (show s.nbyte - k ≤ (s.buf.drop k).length by rw [List.length_drop]; omega)
        (show 0 ≤ s.totalWritten + (k : Int) by omega)
      generalize hr : WriteLoop.run wrFile n
        ⟨s.pos + k, s.buf.drop k, s.nbyte - k, s.totalWritten + k⟩ = r at hrest
      have hbytes : acceptedBytes (s.call wrFile :: r.2) = s.buf.take k ++ acceptedBytes r.2 := by
        rw [acceptedBytes, List.flatMap_cons, haccepted]
        rfl
      have hlength : (acceptedBytes (s.call wrFile :: r.2)).length = k + (acceptedBytes r.2).length := by
        rw [hbytes, List.length_append, List.length_take]
        omega
      refine ⟨⟨rfl, fun _ => ?_, ?_⟩, fun c hc => ?_, ?_, ?_, ?_, hrest.done⟩
      · have hmin : (s.call wrFile).accepted.length =
            min (s.call wrFile).nWritten.toNat (s.call wrFile).data.length := List.length_take
        have hle : (s.call wrFile).nWritten ≤ (s.call wrFile).data.length := hw _ _
        omega
      · rw [← hk]
        exact hrest.consecutive
      · rcases List.mem_cons.mp hc with rfl | hc
        · exact hcall
        · obtain ⟨hc0, hcend, hblock⟩ := hrest.piece c hc
          refine ⟨hc0, ?_, hblock⟩
          have hsum : s.pos + k + (s.nbyte - k) = s.pos + s.nbyte := by omega
          exact hsum ▸ hcend
      · -- the first piece and then the bytes of the rest
        rw [hlength, hbytes, List.take_add, ← hrest.accepted]
      · rw [hlength]
        have hle : (acceptedBytes r.2).length ≤ s.nbyte - k := hrest.length_le
        omega
      · have htot : r.1.totalWritten =
            if 0 < s.nbyte - k ∧ s.totalWritten + k + (acceptedBytes r.2).length = 0 then -1
            else s.totalWritten + k + (acceptedBytes r.2).length := hrest.total
        rw [hlength]
        rw [if_neg (by omega)] at htot ⊢
        rw [htot, Nat.cast_add, add_assoc]
    · -- a short write is the last one
      simp only [if_neg hfull]
      rw [run_of_done rfl]
      have hbytes : acceptedBytes [s.call wrFile] = s.buf.take k := by
        simp [acceptedBytes, haccepted]
      have hlength : (acceptedBytes [s.call wrFile]).length = k := by
        rw [hbytes, List.length_take]
        omega
      refine ⟨⟨rfl, fun hne => absurd rfl hne, trivial⟩, fun c hc => ?_, ?_, ?_, ?_, rfl⟩
      · rw [List.mem_singleton.mp hc]
        exact hcall
      · rw [hlength, hbytes]
      · rw [hlength]
        omega
      · rw [hlength]
        simp only [hpos, true_and]

/-! ## Writes -/

/-- **A write in pieces**. Whatever happens between the pieces, the value is the number of bytes
    that went to the file, they are the front of the buffer, and they went to consecutive places
    from the start on; the position of the descriptor is behind them. No piece crosses a multiple
    of `YAFFSFS_RW_SIZE` or the largest size of a file. -/
theorem yaffsWrite_accounts {maxFileSize objLength position : Int} {append : Bool}
    {vbuf : List UInt8} {value position' : Int} {calls : List WriteCall}
    (hmax : maxFileSize < 2 ^ 31) (hw : ∀ pos data, wrFile pos data ≤ (data.length : Int))
    (h : yaffsWrite maxFileSize wrFile append objLength position vbuf = (value, position', calls)) :
    Consecutive (if append then objLength else position).toNat calls ∧
      (∀ c ∈ calls, (c.pos + c.data.length : Int) ≤ maxFileSize ∧
        (c.pos + c.data.length - 1) / yaffsfsRwSize = c.pos / yaffsfsRwSize) ∧
      acceptedBytes calls = vbuf.take value.toNat ∧ value ≤ vbuf.length ∧
      (value > 0 → position' = (if append then objLength else position) + value) ∧
      (value ≤ 0 → position' = position ∧ (value = 0 ↔ vbuf = [] ∧
        InFileRange maxFileSize (if append then objLength else position) 0)) := by
  unfold yaffsWrite yaffsfsDoWrite at h
  generalize (if append then objLength else position) = start at h ⊢
  by_cases hrange : InFileRange maxFileSize start vbuf.length
  · simp only [if_pos hrange, Prod.mk.injEq] at h
    obtain ⟨hstart, hend⟩ := hrange.bounds hmax
    have hspec := writeSpec_run (s := ⟨start.toNat, vbuf, vbuf.length, 0⟩) hw (Nat.le_refl _)
      (Nat.le_refl _) (Int.le_refl 0)
    generalize WriteLoop.run wrFile vbuf.length ⟨start.toNat, vbuf, vbuf.length, 0⟩ = r at h hspec
    obtain ⟨hconsecutive, hpiece, haccepted, hle, htotal, -⟩ := hspec
    simp only [zero_add] at haccepted hle htotal
    obtain ⟨hvalue, hposition, rfl⟩ := h
    refine ⟨hconsecutive, fun c hc => ?_, ?_⟩
    · obtain ⟨-, hcend, hblock⟩ := hpiece c hc
      simp only at hcend
      exact ⟨by omega, hblock⟩
    by_cases hfail : 0 < vbuf.length ∧ ((acceptedBytes r.2).length : Int) = 0
    · -- nothing was written
      rw [if_pos hfail] at htotal
      rw [htotal] at hvalue hposition
      simp only [ge_iff_le, Int.reduceLE, if_false, Int.reduceNeg, gt_iff_lt, Int.reduceLT]
        at hvalue hposition
      subst hvalue hposition
      have hnil : acceptedBytes r.2 = [] := List.length_eq_zero_iff.mp (by omega)
      refine ⟨by simpa using hnil, by omega, fun h0 => by omega, fun _ => ⟨rfl, ?_⟩⟩
      constructor
      · intro h0
        cases h0
      · rintro ⟨rfl, -⟩
        exact absurd hfail.1 (Nat.lt_irrefl 0)
    · -- something was written, or there was nothing to write
      rw [if_neg hfail] at htotal
      have hvalue' : value = (acceptedBytes r.2).length := by
        rw [← hvalue, htotal, if_pos (by omega)]
      rw [hvalue] at hposition
      subst hvalue'
      refine ⟨haccepted, by omega, fun h0 => ?_, fun h0 => ⟨?_, ?_⟩⟩
      · rw [← hposition, if_pos h0]
      · rw [← hposition, if_neg (by omega)]
      · constructor
        · intro hzero
          have hnil : vbuf = [] := by
            by_contra hne
            exact hfail ⟨List.length_pos_of_ne_nil hne, hzero⟩
          rw [hnil] at hrange
          exact ⟨hnil, hrange⟩
        · rintro ⟨rfl, -⟩
          have hlen : (acceptedBytes r.2).length ≤ 0 := hle
          omega
  · -- outside the range no call is made and the value is -1
    simp only [if_neg hrange, Prod.mk.injEq] at h
    obtain ⟨rfl, rfl, rfl⟩ := h
    refine ⟨trivial, fun c hc => ?_, rfl, by omega, fun h0 => ?_, fun _ => ⟨rfl, ?_⟩⟩
    · cases hc
    · omega
    · constructor
      · intro h0
        cases h0
      · rintro ⟨rfl, hin⟩
        exact absurd hin hrange

/-- A device that fills up behind the first block. -/
def wrFileShort (pos : Nat) (data : List UInt8) : Int :=
  (if pos < yaffsfsRwSize then data.length else min 1 data.length : Nat)

theorem wrFileShort_le (pos : Nat) (data : List UInt8) :
    wrFileShort pos data ≤ (data.length : Int) := by
  unfold wrFileShort
  split
  · exact Int.le_refl _
  · exact Int.ofNat_le.mpr (Nat.min_le_right ..)

/-- Four bytes over the end of a block, the last of them is not written. -/
theorem yaffsWrite_accounts_short : ∃ value position' calls,
    yaffsWrite (2 ^ 31 - 1) wrFileShort false 0 8190 [1, 2, 3, 4] = (value, position', calls) ∧
      value = 3 ∧ position' = 8190 + value ∧ acceptedBytes calls = [1, 2, 3] := by
  have h : yaffsWrite (2 ^ 31 - 1) wrFileShort false 0 8190 [1, 2, 3, 4] =
      (3, 8193, [⟨8190, [1, 2], 2⟩, ⟨8192, [3, 4], 1⟩]) := by
    decide
  obtain ⟨-, -, haccepted, -, hposition, -⟩ :=
    yaffsWrite_accounts (by decide) wrFileShort_le h
  exact ⟨_, _, _, h, rfl, hposition (by decide), haccepted⟩

/-! ## Undisturbed transfers -/

/-- What the two transfers rely on, for a file that nobody else uses meanwhile. `content` is the
    content behind the calls of `yaffs_wr_file` so far, and `fileRd` reads behind them. -/
structure Undisturbed (maxFileSize : Int) (wrFile : Nat → List UInt8 → Int)
    (fileRd : List WriteCall → Nat → Nat → List UInt8) (content : List WriteCall → List UInt8) :
    Prop where
  /-- `yaffs_wr_file` writes no more than it is given, -/
  wrFile_le : ∀ pos data, wrFile pos data ≤ (data.length : Int)
  /-- and everything that fits into a file. -/
  wrFile_eq : ∀ pos data, ((pos + data.length : Nat) : Int) ≤ maxFileSize →
    wrFile pos data = data.length
  /-- What it wrote is in the file, at the position of the call. -/
  content_append : ∀ calls c, ((c.pos + c.data.length : Nat) : Int) ≤ maxFileSize →
    content (calls ++ [c]) = patch (content calls) c.pos c.accepted
  /-- `yaffs_file_rd` gives the bytes of the file. -/
  fileRd_eq : ∀ calls pos n, pos + n ≤ (content calls).length →
    fileRd calls pos n = FileContent.segment (content calls) pos (pos + n)

variable {xs : List UInt8} {maxFileSize : Int} {content : List WriteCall → List UInt8}

/-- Consecutive calls write as one. -/
theorem content_append_of_consecutive
    (happend : ∀ calls c, ((c.pos + c.data.length : Nat) : Int) ≤ maxFileSize →
      content (calls ++ [c]) = patch (content calls) c.pos c.accepted)
    (before : List WriteCall) {p : Nat} {calls : List WriteCall} (hcalls : Consecutive p calls)
    (hfits : ∀ c ∈ calls, ((c.pos + c.data.length : Nat) : Int) ≤ maxFileSize) :
    content (before ++ calls) = patch (content before) p (acceptedBytes calls) := by
  induction calls generalizing before p with
  | nil =>
    rw [List.append_nil]
    exact patch_nil.symm
  | cons c cs ih =>
    obtain ⟨rfl, -, hrest⟩ := hcalls
    have hfirst : content (before ++ [c]) = patch (content before) c.pos c.accepted :=
      happend before c (hfits c List.mem_cons_self)
    have htail := ih (before ++ [c]) hrest (fun d hd => hfits d (List.mem_cons_of_mem c hd))
    rw [List.append_assoc, List.singleton_append, hfirst] at htail
    have hbytes : acceptedBytes (c :: cs) = c.accepted ++ acceptedBytes cs := List.flatMap_cons
    rw [htail, hbytes, ← patch_patch]

/-- Nothing is cut short. -/
theorem acceptedBytes_whole
    (hwhole : ∀ pos data, ((pos + data.length : Nat) : Int) ≤ maxFileSize →
      wrFile pos data = data.length)
    (hn : s.nbyte ≤ n) (hbuf : s.nbyte ≤ s.buf.length) (ht : 0 ≤ s.totalWritten)
    (hfits : ((s.pos + s.nbyte : Nat) : Int) ≤ maxFileSize) :
    acceptedBytes (s.run wrFile n).2 = s.buf.take s.nbyte := by
  induction n generalizing s with
  | zero =>
    rw [Nat.le_zero.mp hn, List.take_zero]
    rfl
  | succ n ih =>
    by_cases h0 : s.nbyte = 0
    · rw [run_of_done h0, h0, List.take_zero]
      rfl
    have hpos : 0 < s.nbyte := Nat.pos_of_ne_zero h0
    have hpiece := pieceLength_le s.pos s.nbyte
    have hpiece0 := pieceLength_pos s.pos hpos
    have hcut : (s.buf.take (pieceLength s.pos s.nbyte)).length = pieceLength s.pos s.nbyte := by
      rw [List.length_take]
      omega
    -- the call of this turn fits into the file
    have hwritten : (s.call wrFile).nWritten = (s.call wrFile).data.length := by
      apply hwhole
      rw [hcut]
      omega
    obtain ⟨hdata, k, hk, -, haccepted, hturn⟩ := turn_spec hpos hbuf (le_of_eq hwritten) ht
    have hfull : k = pieceLength s.pos s.nbyte := by
      rw [hk, ← hdata, WriteCall.accepted, hwritten, Int.toNat_natCast, List.take_length]
    have htotal : ¬ s.totalWritten + (k : Int) = 0 := by omega
    rw [if_pos hfull, if_neg htotal] at hturn
    have hrun : (s.run wrFile (n + 1)).2 = s.call wrFile ::
        ((s.turn (s.call wrFile).nWritten).run wrFile n).2 := by
      rw [WriteLoop.run, if_neg h0]
    -- and the rest of the buffer is written by the other turns
    have hrest := ih (s := ⟨s.pos + k, s.buf.drop k, s.nbyte - k, s.totalWritten + k⟩)
      (show s.nbyte - k ≤ n by omega)
      (show s.nbyte - k ≤ (s.buf.drop k).length by rw [List.length_drop]; omega)
      (show 0 ≤ s.totalWritten + (k : Int) by omega)
      (show ((s.pos + k + (s.nbyte - k) : Nat) : Int) ≤ maxFileSize by omega)
    have hsum : k + (s.nbyte - k) = s.nbyte := by omega
    rw [hrun, hturn, acceptedBytes, List.flatMap_cons, haccepted]
    show s.buf.take k ++ acceptedBytes _ = _
    rw [hrest, ← List.take_add, hsum]

/-- The loop of a read. -/
theorem run_fileRd {fileRd : Nat → Nat → List UInt8}
    (hfileRd : ∀ pos n, pos + n ≤ xs.length → fileRd pos n = FileContent.segment xs pos (pos + n))
    {s : ReadLoop} (hn : s.nbyte ≤ n) (hlength : 0 < s.nbyte → s.pos + s.nbyte ≤ xs.length) :
    (s.run fileRd n).buf = s.buf ++ FileContent.segment xs s.pos (s.pos + s.nbyte) := by
  induction n generalizing s with
  | zero =>
    rw [Nat.le_zero.mp hn, Nat.add_zero, segment_self, List.append_nil]
    rfl
  | succ n ih =>
    rw [ReadLoop.run]
    split
    · rename_i h0
      rw [h0, Nat.add_zero, segment_self, List.append_nil]
    · rename_i h0
      have hpos : 0 < s.nbyte := Nat.pos_of_ne_zero h0
      have hpiece := pieceLength_le s.pos s.nbyte
      have hpiece0 := pieceLength_pos s.pos hpos
      have hend := hlength hpos
      -- the piece of this turn is read whole
      have hpieceRd := hfileRd s.pos (pieceLength s.pos s.nbyte) (by omega)
      have hdata : (fileRd s.pos (pieceLength s.pos s.nbyte)).length =
          pieceLength s.pos s.nbyte := by
        rw [hpieceRd, length_segment (by omega)]
        omega
      have hturn : s.turn fileRd =
          ⟨s.pos + pieceLength s.pos s.nbyte,
            s.buf ++ FileContent.segment xs s.pos (s.pos + pieceLength s.pos s.nbyte),
            s.nbyte - pieceLength s.pos s.nbyte⟩ := by
        simp only [ReadLoop.turn, hdata, if_true]
        rw [hpieceRd]
      rw [hturn, ih (show s.nbyte - pieceLength s.pos s.nbyte ≤ n by omega)
        (fun _ => show s.pos + _ + (s.nbyte - _) ≤ _ by omega)]
      simp only [List.append_assoc]
      have hsum : s.pos + pieceLength s.pos s.nbyte + (s.nbyte - pieceLength s.pos s.nbyte) =
          s.pos + s.nbyte := by omega
      rw [hsum, segment_append (by omega) (by omega)]

/-- **A read in pieces** gives what one read of the content gives. -/
theorem yaffsRead_eq {fileRd : Nat → Nat → List UInt8}
    (hfileRd : ∀ pos n, pos + n ≤ xs.length → fileRd pos n = FileContent.segment xs pos (pos + n))
    (nbyte : Nat) {position : Int} (h0 : 0 ≤ position) (hnbyte : (nbyte : Int) ≤ maxFileSize)
    (hrange : InFileRange maxFileSize position (min nbyte (xs.length - position.toNat))) :
    yaffsRead maxFileSize fileRd xs.length position nbyte =
      (((min nbyte (xs.length - position.toNat) : Nat) : Int),
        position + (min nbyte (xs.length - position.toNat) : Nat),
        FileContent.segment xs position.toNat
          (position.toNat + min nbyte (xs.length - position.toNat))) := by
  generalize hm : min nbyte (xs.length - position.toNat) = m at hrange ⊢
  -- `nbyte` behind the comparison with `maxRead`
  have hclip : (if (nbyte : Int) > (if (xs.length : Int) > position then xs.length - position else 0)
      then (if (xs.length : Int) > position then xs.length - position else 0).toNat else nbyte) = m := by
    split
    · split at *
      · omega
      · omega
    · split at *
      · omega
      · omega
  have hlength : 0 < m → position.toNat + m ≤ xs.length := by omega
  have hbuf := run_fileRd hfileRd (s := ⟨position.toNat, [], m⟩) (Nat.le_refl m) hlength
  simp only [List.nil_append] at hbuf
  have hlen : (FileContent.segment xs position.toNat (position.toNat + m)).length = m := by
    by_cases hm0 : 0 < m
    · rw [length_segment (hlength hm0)]
      omega
    · rw [Nat.eq_zero_of_not_pos hm0, Nat.add_zero, segment_self]
      rfl
  have hnonneg : (m : Int) ≥ 0 := by omega
  have hsmall : ¬ (nbyte : Int) > maxFileSize := not_lt.mpr hnbyte
  unfold yaffsRead yaffsfsDoRead
  simp only [if_neg hsmall, hclip, if_pos hrange, hbuf, hlen, if_pos hnonneg]

/-- **What was written is read**. A write in pieces that is not disturbed is one write of the whole
    buffer, at the position or at the end of the file, and a read in pieces at the same place
    gives the buffer back. -/
theorem yaffsRead_yaffsWrite {fileRd : List WriteCall → Nat → Nat → List UInt8}
    {start position : Int} {append : Bool} {vbuf : List UInt8} (hmax : maxFileSize < 2 ^ 31)
    (hlower : Undisturbed maxFileSize wrFile fileRd content)
    (hstart : start = if append then ((content []).length : Int) else position)
    (hrange : InFileRange maxFileSize start vbuf.length) :
    ∃ calls, yaffsWrite maxFileSize wrFile append (content []).length position vbuf =
        ((vbuf.length : Int), if vbuf = [] then position else start + vbuf.length, calls) ∧
      content calls = patch (content []) start.toNat vbuf ∧
      yaffsRead maxFileSize (fileRd calls) (content calls).length start vbuf.length =
        ((vbuf.length : Int), start + vbuf.length, vbuf) := by
  obtain ⟨h0, hend⟩ := hrange.bounds hmax
  have hfits : ((start.toNat + vbuf.length : Nat) : Int) ≤ maxFileSize := by omega
  -- the loop of the write, whose turns are all whole
  have hturns := acceptedBytes_whole hlower.wrFile_eq
    (s := ⟨start.toNat, vbuf, vbuf.length, 0⟩) (Nat.le_refl _) (Nat.le_refl _) (Int.le_refl 0) hfits
  have hspec := writeSpec_run (s := ⟨start.toNat, vbuf, vbuf.length, 0⟩) hlower.wrFile_le
    (Nat.le_refl _) (Nat.le_refl _) (Int.le_refl 0)
  simp only [List.take_length] at hturns
  obtain ⟨hconsecutive, hpiece, -, -, htotal, -⟩ := hspec
  rw [hturns] at htotal
  simp only [zero_add] at htotal
  rw [if_neg (by omega)] at htotal
  -- and what the calls leave behind
  have hcontent := content_append_of_consecutive hlower.content_append [] hconsecutive
    (fun c hc => by
      obtain ⟨-, hcend, -⟩ := hpiece c hc
      simp only at hcend
      omega)
  rw [hturns, List.nil_append] at hcontent
  refine ⟨_, ?_, hcontent, ?_⟩
  · unfold yaffsWrite yaffsfsDoWrite
    have hnonneg : (vbuf.length : Int) ≥ 0 := Int.natCast_nonneg _
    simp only [← hstart, if_pos hrange, htotal, if_pos hnonneg]
    by_cases hnil : vbuf = []
    · subst hnil
      rfl
    · have hlong : (vbuf.length : Int) > 0 :=
        Int.natCast_pos.mpr (List.length_pos_of_ne_nil hnil)
      rw [if_pos hlong, if_neg hnil]
  · -- the file now reaches behind the buffer, so the read is not cut short
    have hmin : min vbuf.length ((patch (content []) start.toNat vbuf).length - start.toNat) =
        vbuf.length := by
      by_cases hnil : vbuf = []
      · rw [hnil]
        exact Nat.zero_min _
      · rw [length_patch hnil]
        omega
    have hlength : (vbuf.length : Int) ≤ maxFileSize := by omega
    have hread := yaffsRead_eq (hlower.fileRd_eq _) vbuf.length h0 hlength
      (by rw [hcontent, hmin]; exact hrange)
    rw [hread, hcontent, hmin, segment_patch_inside (Nat.le_refl _) (Nat.le_refl _), Nat.sub_self,
      Nat.add_sub_cancel_left, FileContent.segment, List.drop_zero, Nat.sub_zero, List.take_length]

/-! ### A file of bytes -/

/-- A `yaffs_wr_file` that writes everything. -/
def wrFileWhole (_ : Nat) (data : List UInt8) : Int := data.length

/-- The content behind the calls. -/
def stored (xs : List UInt8) (calls : List WriteCall) : List UInt8 :=
  calls.foldl (fun xs c => patch xs c.pos c.accepted) xs

/-- A `yaffs_file_rd` of the content behind the calls. -/
def fileRdOf (xs : List UInt8) (calls : List WriteCall) (pos n : Nat) : List UInt8 :=
  FileContent.segment (stored xs calls) pos (pos + n)

theorem undisturbed_stored (maxFileSize : Int) (xs : List UInt8) :
    Undisturbed maxFileSize wrFileWhole (fileRdOf xs) (stored xs) where
  wrFile_le _ _ := Int.le_refl _
  wrFile_eq _ _ _ := rfl
  content_append calls c _ := by
    rw [stored, List.foldl_append]
    rfl
  fileRd_eq _ _ _ _ := rfl

/-- Four bytes over the end of a block, behind a hole. -/
theorem yaffsRead_yaffsWrite_hole : ∃ calls,
    yaffsWrite (2 ^ 31 - 1) wrFileWhole false 1 8190 [1, 2, 3, 4] = (4, 8194, calls) ∧
      stored [7] calls = patch [7] 8190 [1, 2, 3, 4] ∧
      yaffsRead (2 ^ 31 - 1) (fileRdOf [7] calls) (stored [7] calls).length 8190 4 =
        (4, 8194, [1, 2, 3, 4]) :=
  @yaffsRead_yaffsWrite wrFileWhole (2 ^ 31 - 1) (stored [7]) (fileRdOf [7]) 8190 8190 false
    [1, 2, 3, 4] (by decide) (undisturbed_stored (2 ^ 31 - 1) [7]) rfl (by decide)

end TxFS
