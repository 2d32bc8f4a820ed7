import TxFS.Trace.Records

/-!
# Skipping an Aborted Transaction

When an operation of a transaction fails, the rest of the transaction is to be skipped. The
skipping loop reads the lines of a text trace as binary integers, so it stops at once in front
of the next record, whatever transaction that belongs to.
-/

namespace TxFS

open BinaryFile

/-! ## Where the replay is to go on -/

/-- The first record from here on that is not of the transaction `id`, as the main loop decodes
    the records, or the end of the trace. -/
inductive FollowingTxn (id : Int) : File → Option File → Prop
  | stop {f} : readRecord f = none → FollowingTxn id f none
  | here {f t g} : readRecord f = some (t, g) → t.txnid ≠ id → FollowingTxn id f (some f)
  | there {f t g r} : readRecord f = some (t, g) → t.txnid = id → FollowingTxn id g r →
      FollowingTxn id f r

/-- After the operation of the record at `f` has failed, the replay goes on where the following
    transaction starts. -/
def Resumes (f : File) : Prop :=
  ∃ t g fuel r, readRecord f = some (t, g) ∧ turn fuel true f = some r ∧
    FollowingTxn t.txnid g r

/-- The next record is of another transaction. -/
def OtherTxnNext (id : Int) (f : File) : Prop :=
  ∃ t g, readRecord f = some (t, g) ∧ t.txnid ≠ id

variable {f g : File} {t : TraceRec} {r : Option File} {id len : Int} {n : Nat}

/-- The following transaction is never in front of the place it is looked for from. -/
theorem FollowingTxn.pos_le (h : FollowingTxn id f r) : ∀ g ∈ r, f.pos ≤ g.pos := by
  induction h with
  | stop _ => simp
  | here _ _ => simp
  | there hread _ _ ih =>
    intro g hg
    exact (Nat.le_of_lt (pos_readRecord hread).2).trans (ih g hg)

/-- If the next record is of another transaction, it is the place to go on. -/
theorem FollowingTxn.eq_of_other (h : FollowingTxn id f r) (hother : OtherTxnNext id f) :
    r = some f := by
  obtain ⟨t, g, hread, hne⟩ := hother
  cases h with
  | stop hnone => cases hnone.symm.trans hread
  | here _ _ => rfl
  | there hread' hid _ =>
    cases hread'.symm.trans hread
    exact absurd hid hne

/-- Only then: a record is not found again behind itself. -/
theorem FollowingTxn.other_of_eq (h : FollowingTxn id f (some f)) : OtherTxnNext id f := by
  cases h with
  | here hread hne => exact ⟨_, _, hread, hne⟩
  | there hread _ hbehind =>
    have hle := hbehind.pos_le f rfl
    have hlt := (pos_readRecord hread).2
    omega

/-! ### In a text trace -/

/-- Pairs of lines. -/
def recordsText (ps : List (TraceLine × TraceLine)) : List UInt8 :=
  ps.flatMap fun p => p.1.text ++ p.2.text

/-! ## Where the loop stops -/

/-- The next four bytes as the loop reads them. -/
def binaryId (f : File) : Int := bytesInt (f.read 4).1

theorem length_read_four : (f.read 4).1.length = min 4 f.rest.length := List.length_take ..

/-- The four bytes of the id are given back. -/
theorem seekCur_read (h : 4 ≤ f.rest.length) : (f.read 4).2.seekCur (-4) = f := by
  have hpos : (f.read 4).2.pos = f.pos + 4 := by
    rw [File.pos_read, length_read_four, Nat.min_eq_left h]
  have hback : ((f.read 4).2.pos : Int) + -4 = f.pos := by omega
  rw [File.seekCur, hback, File.seekSet_nat]
  rfl

theorem skipLoop_of_short (h : f.rest.length < 4) : skipLoop (n + 1) id len f = some none := by
  have hlt : (f.read 4).1.length < 4 := by
    rw [length_read_four]
    omega
  unfold skipLoop
  rw [if_pos hlt]

/-- If an `int` is left, the loop looks at it. -/
theorem skipLoop_of_long (h : 4 ≤ f.rest.length) :
    skipLoop (n + 1) id len f =
      if binaryId f ≠ id then some (some f)
      else
        let (len', f') := readInt len (f.read 4).2
        skipLoop n id len' (f'.seekCur len') := by
  have hlt : ¬(f.read 4).1.length < 4 := by
    rw [length_read_four]
    omega
  rw [skipLoop, if_neg hlt]
  dsimp only
  rw [seekCur_read h]
  rfl

/-- **The loop stops in front of an id that it does not know**. -/
theorem skipLoop_of_ne (h : 4 ≤ f.rest.length) (hne : binaryId f ≠ id) :
    skipLoop (n + 1) id len f = some (some f) := by
  rw [skipLoop_of_long h, if_pos hne]

/-- It stops nowhere else in front of the end. -/
theorem binaryId_of_skipLoop (h : skipLoop n id len f = some (some g)) : binaryId g ≠ id := by
  induction n generalizing len f with
  | zero => cases h
  | succ n ih =>
    by_cases hshort : f.rest.length < 4
    · rw [skipLoop_of_short hshort] at h
      cases h
    · rw [skipLoop_of_long (Nat.le_of_not_lt hshort)] at h
      by_cases hne : binaryId f ≠ id
      · rw [if_pos hne] at h
        cases h
        exact hne
      · -- one more binary record is skipped
        rw [if_neg hne] at h
        exact ih h

/-! ## When it is the right place -/

/-- The transaction ends here, also for a reader of binary records: nothing that could be an id
    is left and no record of another transaction, or the next record is of another transaction
    and does not start with four bytes that are the old id in binary. -/
def EndsHere (id : Int) (f : File) : Prop :=
  (f.rest.length < 4 ∧ FollowingTxn id f none) ∨
    (4 ≤ f.rest.length ∧ binaryId f ≠ id ∧ OtherTxnNext id f)

/-- The next record is of the transaction, and the first four bytes of the text of its id are
    also the id in binary. -/
def SelfEncoded (id : Int) (f : File) : Prop :=
  4 ≤ f.rest.length ∧ binaryId f = id ∧ ¬OtherTxnNext id f

theorem turn_of_read {fuel : Nat} (hread : readRecord f = some (t, g)) :
    turn fuel true f = skipLoop fuel t.txnid t.syscall.length g := by
  simp only [turn, hread, if_true]

theorem resumes_of_endsHere (hread : readRecord f = some (t, g)) (h : EndsHere t.txnid g) :
    Resumes f := by
  refine ⟨t, g, 1, ?_⟩
  rw [turn_of_read hread]
  rcases h with ⟨hshort, hfollow⟩ | ⟨hlong, hne, t', g', hread', hother⟩
  · exact ⟨none, hread, skipLoop_of_short hshort, hfollow⟩
  · exact ⟨some g, hread, skipLoop_of_ne hlong hne, .here hread' hother⟩

theorem endsHere_of_resumes (hread : readRecord f = some (t, g)) (h : Resumes f) :
    EndsHere t.txnid g ∨ SelfEncoded t.txnid g := by
  obtain ⟨t', g', fuel, r, hread', hturn, hfollow⟩ := h
  cases hread'.symm.trans hread
  rw [turn_of_read hread] at hturn
  obtain ⟨n, rfl⟩ : ∃ n, fuel = n + 1 := by
    cases fuel with
    | zero => cases hturn
    | succ n => exact ⟨n, rfl⟩
  by_cases hshort : g.rest.length < 4
  · rw [skipLoop_of_short hshort] at hturn
    cases hturn
    exact .inl (.inl ⟨hshort, hfollow⟩)
  · have hlong : 4 ≤ g.rest.length := Nat.le_of_not_lt hshort
    by_cases hne : binaryId g ≠ t.txnid
    · rw [skipLoop_of_ne hlong hne] at hturn
      cases hturn
      exact .inl (.inr ⟨hlong, hne, hfollow.other_of_eq⟩)
    · refine .inr ⟨hlong, not_not.mp hne, ?_⟩
      -- the loop goes past `g`, where the following transaction would start
      intro hother
      cases hfollow.eq_of_other hother
      exact hne (binaryId_of_skipLoop hturn)

/-- **A failed transaction is skipped just when it has ended anyway**, unless the text of its id
    happens to be its own binary encoding. -/
theorem resumes_iff_endsHere (hread : readRecord f = some (t, g)) :
    (EndsHere t.txnid g → Resumes f) ∧
      (Resumes f → EndsHere t.txnid g ∨ SelfEncoded t.txnid g) :=
  ⟨resumes_of_endsHere hread, endsHere_of_resumes hread⟩

/-! ### A failed open -/

/-- The line of a text. -/
def lineBytes (s : Msg) : List UInt8 := s.map fun c => UInt8.ofNat c.toNat

/-- `1`, `open(/f,O_RDWR)`, `1`, `read(/f,5)`, `2`, `txn_beg()`. -/
def abortedTrace : List (TraceLine × TraceLine) :=
  [(⟨lineBytes ['1'], by decide, by decide⟩,
    ⟨lineBytes ['o', 'p', 'e', 'n', '(', '/', 'f', ',', 'O', '_', 'R', 'D', 'W', 'R', ')'],
      by decide, by decide⟩),
   (⟨lineBytes ['1'], by decide, by decide⟩,
    ⟨lineBytes ['r', 'e', 'a', 'd', '(', '/', 'f', ',', '5', ')'], by decide, by decide⟩),
   (⟨lineBytes ['2'], by decide, by decide⟩,
    ⟨lineBytes ['t', 'x', 'n', '_', 'b', 'e', 'g', '(', ')'], by decide, by decide⟩)]

/-- The trace where the record at `pos` is next. -/
def abortedFile (pos : Nat) : File := ⟨recordsText abortedTrace, pos⟩

/-- If the open fails, the next record is the read of the same transaction. -/
theorem aborted_transaction_goes_on :
    turn 1 true (abortedFile 0) = some (some (abortedFile 18)) ∧
      readRecord (abortedFile 18) =
        some (⟨1, ['r', 'e', 'a', 'd', '(', '/', 'f', ',', '5', ')']⟩, abortedFile 31) ∧
      ¬Resumes (abortedFile 0) := by
  have hread : readRecord (abortedFile 0) =
      some (⟨1, ['o', 'p', 'e', 'n', '(', '/', 'f', ',', 'O', '_', 'R', 'D', 'W', 'R', ')']⟩,
        abortedFile 18) := by decide
  have hnext : readRecord (abortedFile 18) =
      some (⟨1, ['r', 'e', 'a', 'd', '(', '/', 'f', ',', '5', ')']⟩, abortedFile 31) := by decide
  refine ⟨by decide, hnext, ?_⟩
  intro h
  rcases endsHere_of_resumes hread h with (⟨hshort, -⟩ | ⟨-, -, t, g, hother, hne⟩) | ⟨-, hid, -⟩
  · exact absurd hshort (by decide)
  · cases hnext.symm.trans hother
    exact hne rfl
  · exact absurd hid (by decide)

/-- If the read fails, transaction 2 is next. -/
theorem resumes_behind_the_read :
    Resumes (abortedFile 18) :=
  (resumes_iff_endsHere (t := ⟨1, ['r', 'e', 'a', 'd', '(', '/', 'f', ',', '5', ')']⟩)
    (g := abortedFile 31) (by decide)).1
    (.inr ⟨by decide, by decide, ⟨2, ['t', 'x', 'n', '_', 'b', 'e', 'g', '(', ')']⟩,
      abortedFile 43, by decide, by decide⟩)

end TxFS
