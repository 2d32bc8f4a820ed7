import TxFS.Server.Header
import TxFS.Wire.Client
import TxFS.Wire.Replies

/-!
# Seeking

An `lseek` of the client goes as text to `on_lseek`, which decodes it with `atoi` and calls
`tr_lseek`. That function calls `yaffs_lseek`, drops its result and returns the position of the
descriptor, whether or not the offset was accepted.

The three tables of `yaffsfs.c` (handles, descriptors, open inodes) are functions; an index
behind the end of a table finds what lies there in memory.
-/

namespace TxFS

/-! ## Handles -/

/-- `yaffsfs_Handle`. -/
structure YaffsHandle where
  fdId : Int
  useCount : Int
deriving DecidableEq, Repr

/-- `yaffsfs_FileDes`: the position is set from an `int` that was found not to be negative. -/
structure YaffsFileDes where
  handleCount : Int
  inodeId : Int
  position : Int
  position_int : 0 ≤ position ∧ position < 2 ^ 31

/-- The open files of YAFFS; `Obj` stands for `struct yaffs_obj`. -/
structure YaffsFiles (Obj : Type) where
  /-- `YAFFSFS_N_HANDLES`. -/
  nHandles : Nat
  /-- `YAFFS_MAX_FILE_SIZE`. -/
  maxFileSize : Int
  /-- `yaffs_get_obj_length`, an `int`. -/
  objLength : Obj → Int
  objLength_int : ∀ obj, objLength obj < 2 ^ 31
  /-- `yaffsfs_handle`. -/
  handle : Nat → YaffsHandle
  /-- `yaffsfs_fd`. -/
  fd : Nat → YaffsFileDes
  /-- The field `iObj` of `yaffsfs_inode`. -/
  inode : Nat → Option Obj

namespace YaffsFiles

variable {Obj : Type}

/-- `yaffsfs_HandleToPointer`, with its `<=`. -/
def handleToPointer (y : YaffsFiles Obj) (h : Int) : Option YaffsHandle :=
  if h ≥ 0 ∧ h ≤ y.nHandles then some (y.handle h.toNat) else none

/-- `yaffsfs_HandleToFileDes`, an index of `yaffsfs_fd`. -/
def handleToFileDes (y : YaffsFiles Obj) (h : Int) : Option Nat := do
  let p ← y.handleToPointer h
  if p.useCount > 0 ∧ p.fdId ≥ 0 ∧ p.fdId < y.nHandles then some p.fdId.toNat else none

/-- `yaffsfs_HandleToInode` and `yaffsfs_HandleToObject`. -/
def handleToObject (y : YaffsFiles Obj) (h : Int) : Option Obj := do
  let i ← y.handleToFileDes h
  let fd := y.fd i
  if fd.handleCount > 0 ∧ fd.inodeId ≥ 0 ∧ fd.inodeId < y.nHandles then y.inode fd.inodeId.toNat
  else none

/-! ## The functions -/

/-- The `pos` that `yaffs_lseek` computes from the position of the descriptor and the length
    of the file; the sums are made in 64 bits and stored in an `int`. -/
def seekPos (position fSize offset whence : Int) : Int :=
  if whence = 0 then
    -- SEEK_SET
    if offset ≥ 0 then intOfLong offset else -1
  else if whence = 1 then
    -- SEEK_CUR
    if position + offset ≥ 0 then intOfLong (position + offset) else -1
  else if whence = 2 then
    -- SEEK_END
    if fSize ≥ 0 ∧ fSize + offset ≥ 0 then intOfLong (fSize + offset) else -1
  else -1

theorem seekPos_lt {position fSize offset whence : Int} :
    seekPos position fSize offset whence < 2 ^ 31 := by
  have hint : ∀ v, intOfLong v < 2 ^ 31 := by
    intro v
    unfold intOfLong
    have hlt := Int.bmod_lt (x := v) (m := 2 ^ 32) (by decide)
    omega
  have hnegative : (-1 : Int) < 2 ^ 31 := by decide
  unfold seekPos
  split
  · split
    · exact hint _
    · exact hnegative
  split
  · split
    · exact hint _
    · exact hnegative
  split
  · split
    · exact hint _
    · exact hnegative
  · exact hnegative

/-- `yaffs_lseek`: the new position, or -1. -/
def yaffsLseek (y : YaffsFiles Obj) (h offset whence : Int) : Int × YaffsFiles Obj :=
  match y.handleToFileDes h, y.handleToObject h with
  | some i, some obj =>
    if offset > y.maxFileSize then (-1, y)
    else
      let pos := seekPos (y.fd i).position (y.objLength obj) offset whence
      if hpos : pos ≥ 0 ∧ pos ≤ y.maxFileSize then
        let fd := { y.fd i with position := pos, position_int := ⟨hpos.1, seekPos_lt⟩ }
        (pos, { y with fd := Function.update y.fd i fd })
      else (-1, y)
  | _, _ => (-1, y)

/-- `tr_lseek`: the result of `yaffs_lseek` is not used. Without a descriptor the function
    dereferences `NULL`. -/
def trLseek (y : YaffsFiles Obj) (h offset whence : Int) : Option (Int × YaffsFiles Obj) := do
  let y := (y.yaffsLseek h offset whence).2
  let i ← y.handleToFileDes h
  some ((y.fd i).position, y)

/-- `on_lseek`. -/
def onLseek (y : YaffsFiles Obj) (incall : List Msg) : Option (Int × YaffsFiles Obj) :=
  y.trLseek (Msg.intOfText (incall.getD 1 [])) (Msg.intOfText (incall.getD 2 []))
    (Msg.intOfText (incall.getD 3 []))

/-! ## What a seek should do -/

/-- The position that a seek asks for. -/
def target (y : YaffsFiles Obj) (h offset whence : Int) : Option Int := do
  let i ← y.handleToFileDes h
  let obj ← y.handleToObject h
  if whence = 0 then some offset
  else if whence = 1 then some ((y.fd i).position + offset)
  else if whence = 2 ∧ y.objLength obj ≥ 0 then some (y.objLength obj + offset)
  else none

/-- The position of the descriptor behind a handle. -/
def positionOf (y : YaffsFiles Obj) (h : Int) : Option Int :=
  (y.handleToFileDes h).map fun i => (y.fd i).position

/-- `yaffs_lseek` rejects the offset. -/
def Rejects (y : YaffsFiles Obj) (h offset whence : Int) : Prop :=
  (y.yaffsLseek h offset whence).1 = -1

/-- **Seek reports failure**: for a seek of the client `on_lseek` returns -1 and changes nothing
    exactly if `yaffs_lseek` rejects the offset, and otherwise it returns the new position. -/
def ReportsFailure (y : YaffsFiles Obj) (h offset whence : Int) : Prop :=
  (y.onLseek (LibCall.lseek h offset whence).request = some (-1, y) ↔ y.Rejects h offset whence) ∧
    (¬ y.Rejects h offset whence → ∃ pos y',
      y.onLseek (LibCall.lseek h offset whence).request = some (pos, y') ∧
      y.target h offset whence = some pos ∧ y'.positionOf h = some pos)

/-- The seek is one that can be done: the position it asks for is one that a file can have. -/
def CanSeek (y : YaffsFiles Obj) (h offset whence : Int) : Prop :=
  offset ≤ y.maxFileSize ∧
    ∃ pos ∈ y.target h offset whence, 0 ≤ pos ∧ pos ≤ y.maxFileSize ∧ pos < 2 ^ 31

variable {y y' : YaffsFiles Obj} {h offset whence pos ret : Int}

/-! ## What a seek does -/

/-- Both lookups do not look at positions. -/
theorem handleToFileDes_update {f : Nat → YaffsFileDes} :
    ({ y with fd := f } : YaffsFiles Obj).handleToFileDes h = y.handleToFileDes h := rfl

/-- **`on_lseek` never returns -1**: what it returns is a position. -/
theorem trLseek_nonneg (hret : y.trLseek h offset whence = some (ret, y')) :
    0 ≤ ret ∧ ret < 2 ^ 31 := by
  simp only [trLseek, Option.bind_eq_bind, Option.bind_eq_some_iff, Option.some.injEq,
    Prod.mk.injEq] at hret
  obtain ⟨i, -, rfl, -⟩ := hret
  exact YaffsFileDes.position_int _

/-- An offset that is not rejected belongs to an open file, and its position is stored. -/
theorem yaffsLseek_of_not_rejects (hnot : ¬ y.Rejects h offset whence) :
    ∃ i obj, y.handleToFileDes h = some i ∧ y.handleToObject h = some obj ∧
      offset ≤ y.maxFileSize ∧
      0 ≤ seekPos (y.fd i).position (y.objLength obj) offset whence ∧
      seekPos (y.fd i).position (y.objLength obj) offset whence ≤ y.maxFileSize := by
  unfold Rejects yaffsLseek at hnot
  split at hnot
  · rename_i i obj hi hobj
    split at hnot
    · exact absurd rfl hnot
    · rename_i hmax
      dsimp only at hnot
      split at hnot
      · rename_i hpos
        exact ⟨i, obj, hi, hobj, by omega, hpos.1, hpos.2⟩
      · exact absurd rfl hnot
  · exact absurd rfl hnot

/-- Where the position asked for fits an `int`, it is the one that is computed. -/
theorem seekPos_of_target {i : Nat} {obj : Obj} (hi : y.handleToFileDes h = some i)
    (hobj : y.handleToObject h = some obj) (htarget : y.target h offset whence = some pos)
    (hlow : 0 ≤ pos) (hhigh : pos < 2 ^ 31) :
    seekPos (y.fd i).position (y.objLength obj) offset whence = pos := by
  have hint : intOfLong pos = pos := intOfLong_of_fits (by omega) hhigh
  simp only [target, hi, hobj, Option.bind_eq_bind, Option.bind_some] at htarget
  unfold seekPos
  by_cases hset : whence = 0
  · rw [if_pos hset, Option.some.injEq] at htarget
    subst htarget
    rw [if_pos hset, if_pos hlow, hint]
  rw [if_neg hset] at htarget ⊢
  by_cases hcur : whence = 1
  · rw [if_pos hcur, Option.some.injEq] at htarget
    rw [if_pos hcur, htarget, if_pos hlow, hint]
  rw [if_neg hcur] at htarget ⊢
  by_cases hend : whence = 2 ∧ y.objLength obj ≥ 0
  · rw [if_pos hend, Option.some.injEq] at htarget
    rw [if_pos hend.1, htarget, if_pos ⟨hend.2, hlow⟩, hint]
  · rw [if_neg hend] at htarget
    cases htarget

/-- An offset to a position that fits an `int` fits an `int` itself. -/
theorem isInt_offset (htarget : y.target h offset whence = some pos) (hlow : 0 ≤ pos)
    (hhigh : pos < 2 ^ 31) : Handler.IsInt offset := by
  simp only [target, Option.bind_eq_bind, Option.bind_eq_some_iff] at htarget
  obtain ⟨i, -, obj, -, htarget⟩ := htarget
  have hposition := (y.fd i).position_int
  have hlength := y.objLength_int obj
  unfold Handler.IsInt
  split at htarget
  · cases htarget
    omega
  split at htarget
  · cases htarget
    omega
  split at htarget
  · cases htarget
    omega
  · cases htarget

/-- The text of an `int` is decoded to the `int`. -/
theorem intOfText_decimal {size : Nat} {v : Int} (hv : Handler.IsInt v) (hsize : 12 ≤ size) :
    Msg.intOfText (LibCall.decimal size v) = v := by
  have hlen : (Msg.ofInt v).length ≤ 11 := Msg.length_ofInt (by
    unfold Handler.IsInt at hv
    omega)
  rw [Msg.intOfText, LibCall.decimal, List.take_of_length_le (by omega), Msg.atoi_ofInt,
    intOfLong_of_fits hv.1 hv.2]

theorem onLseek_request (hfd : Handler.IsInt h) (hwhence : Handler.IsInt whence)
    (hoffset : Handler.IsInt offset) :
    y.onLseek (LibCall.lseek h offset whence).request = y.trLseek h offset whence := by
  show y.trLseek (Msg.intOfText (LibCall.decimal 12 h)) (Msg.intOfText (LibCall.decimal 20 offset))
    (Msg.intOfText (LibCall.decimal 20 whence)) = _
  rw [intOfText_decimal hfd (by decide), intOfText_decimal hoffset (by decide),
    intOfText_decimal hwhence (by decide)]

/-- **A seek that can be done is done**. -/
theorem yaffsLseek_target (htarget : y.target h offset whence = some pos)
    (hmax : offset ≤ y.maxFileSize) (hlow : 0 ≤ pos) (hpos : pos ≤ y.maxFileSize)
    (hhigh : pos < 2 ^ 31) :
    ∃ y', y.yaffsLseek h offset whence = (pos, y') ∧ y.trLseek h offset whence = some (pos, y') ∧
      y'.positionOf h = some pos := by
  obtain ⟨i, hi, hobject⟩ := Option.bind_eq_some_iff.mp htarget
  obtain ⟨obj, hobj, -⟩ := Option.bind_eq_some_iff.mp hobject
  have hseek := seekPos_of_target hi hobj htarget hlow hhigh
  have hlseek : ∃ fd : YaffsFileDes, fd.position = pos ∧
      y.yaffsLseek h offset whence = (pos, { y with fd := Function.update y.fd i fd }) := by
    unfold yaffsLseek
    simp only [hi, hobj, hseek]
    rw [if_neg (by omega), dif_pos ⟨hlow, hpos⟩]
    exact ⟨_, rfl, rfl⟩
  obtain ⟨fd, hfd, hlseek⟩ := hlseek
  refine ⟨_, hlseek, ?_, ?_⟩
  · simp only [trLseek, hlseek, handleToFileDes_update, hi, Option.bind_eq_bind, Option.bind_some,
      Function.update_self, hfd]
  · simp only [positionOf, handleToFileDes_update, hi, Option.map_some, Function.update_self, hfd]

/-- **When a seek reports failure**: a rejected offset is never reported, so the seek does what
    it should exactly if it can be done. -/
theorem reportsFailure_iff (hfd : Handler.IsInt h) (hwhence : Handler.IsInt whence) :
    y.ReportsFailure h offset whence ↔ y.CanSeek h offset whence := by
  constructor
  · intro hreports
    obtain ⟨hfail, hdone⟩ := hreports
    have hnot : ¬ y.Rejects h offset whence := by
      intro hrejects
      have hnonneg := trLseek_nonneg (hfail.mpr hrejects)
      omega
    obtain ⟨pos, y', hlseek, htarget, -⟩ := hdone hnot
    obtain ⟨hlow, hhigh⟩ := trLseek_nonneg hlseek
    obtain ⟨i, obj, hi, hobj, hmax, -, hpos⟩ := yaffsLseek_of_not_rejects hnot
    rw [seekPos_of_target hi hobj htarget hlow hhigh] at hpos
    exact ⟨hmax, pos, htarget, hlow, hpos, hhigh⟩
  · intro hcan
    obtain ⟨hmax, pos, htarget, hlow, hpos, hhigh⟩ := hcan
    obtain ⟨y', hlseek, htr, hposition⟩ := yaffsLseek_target htarget hmax hlow hpos hhigh
    have hnot : ¬ y.Rejects h offset whence := by
      unfold Rejects
      rw [hlseek]
      show pos ≠ -1
      omega
    unfold ReportsFailure
    rw [onLseek_request hfd hwhence (isInt_offset htarget hlow hhigh), htr]
    refine ⟨⟨?_, fun hrejects => absurd hrejects hnot⟩, ?_⟩
    · intro heq
      have hpair := Option.some.inj heq
      have hminus : pos = -1 := congrArg Prod.fst hpair
      omega
    · exact fun _ => ⟨pos, y', rfl, htarget, hposition⟩

/-- One open file of 100 bytes, under handle 0 at position 5. -/
def oneFile : YaffsFiles Unit where
  nHandles := 1
  maxFileSize := 1000
  objLength _ := 100
  objLength_int _ := by decide
  handle _ := ⟨0, 1⟩
  fd _ := ⟨1, 0, 5, by decide⟩
  inode _ := some ()

theorem reportsFailure_iff_from_the_end :
    oneFile.ReportsFailure 0 (-10) 2 ↔ oneFile.CanSeek 0 (-10) 2 :=
  reportsFailure_iff (by decide) (by decide)

/-- A seek in front of the file is answered with the position, as if it had been done. -/
theorem seek_in_front_of_the_file :
    oneFile.Rejects 0 (-1) 0 ∧ ¬ oneFile.ReportsFailure 0 (-1) 0 ∧
      (oneFile.onLseek (LibCall.lseek 0 (-1) 0).request).map Prod.fst = some 5 := by
  refine ⟨rfl, ?_, by decide⟩
  intro hreports
  have hret := hreports.1.mpr rfl
  have hfive := congrArg (Option.map Prod.fst) hret
  exact absurd hfive (by decide)

end YaffsFiles

end TxFS
