import Mathlib.Data.Int.Basic
import Mathlib.Data.List.TakeWhile
import TxFS.Server.Header

/-!
# C Strings

The bytes that the server and the client put on their connection are C strings: the text of
a buffer ends at its first NUL. `snprintf` with `%d` writes decimal numbers and `atoi` reads
them back.
-/

namespace TxFS

/-- A string of bytes, without a NUL where it stands for a C string. -/
abbrev Msg := List Char

namespace Msg

/-- The C string in a buffer. -/
def text (buffer : Msg) : Msg := buffer.takeWhile fun c => c ≠ '\x00'

/-- `%d` and `%ld`. -/
def ofInt (v : Int) : Msg :=
  if v < 0 then '-' :: Nat.toDigits 10 v.natAbs else Nat.toDigits 10 v.natAbs

/-- `isspace`. -/
def isSpace (c : Char) : Bool := c = ' ' ∨ ('\t' ≤ c ∧ c ≤ '\r')

/-- The number that the leading digits denote. -/
def digits (s : Msg) : Int := Nat.ofDigitChars 10 (s.takeWhile Char.isDigit) 0

/-- `atoi`; a number that does not fit an `int` has no defined value in C. -/
def atoi (s : Msg) : Int :=
  match s.dropWhile isSpace with
  | '-' :: ds => -digits ds
  | '+' :: ds => digits ds
  | ds => digits ds

/-- `atoi` is `(int) strtol`: a number that fits a `long` is cut to 32 bits. -/
def intOfText (s : Msg) : Int := intOfLong (atoi s)

/-- `strcpy` into a buffer: the bytes behind the NUL stay. -/
def strcpy (buffer s : Msg) : Msg := s ++ '\x00' :: buffer.drop (s.length + 1)

/-- `snprintf` into a buffer of `size` bytes. -/
def snprintf (size : Nat) (buffer s : Msg) : Msg := strcpy buffer (s.take (size - 1))

variable {s buffer : Msg} {v : Int} {size : Nat}

/-! ## Texts -/

theorem text_of_no_nul (h : '\x00' ∉ s) : text s = s := by
  apply List.takeWhile_eq_self_iff.mpr
  intro c hc
  simp only [ne_eq, decide_not, Bool.not_eq_eq_eq_not, Bool.not_true, decide_eq_false_iff_not]
  rintro rfl
  exact h hc

theorem text_strcpy (h : '\x00' ∉ s) : text (strcpy buffer s) = s := by
  rw [text, strcpy, List.takeWhile_append_of_pos]
  · simp
  · intro c hc
    simp only [ne_eq, decide_not, Bool.not_eq_eq_eq_not, Bool.not_true, decide_eq_false_iff_not]
    rintro rfl
    exact h hc

theorem text_snprintf (h : '\x00' ∉ s) (hs : s.length < size) :
    text (snprintf size buffer s) = s := by
  rw [snprintf, List.take_of_length_le (by omega)]
  exact text_strcpy h

theorem strcpy_ne_nil : strcpy buffer s ≠ [] := by
  intro h
  exact absurd (List.append_eq_nil_iff.mp h).2 (List.cons_ne_nil _ _)

/-! ## Numbers -/

theorem isDigit_of_mem_toDigits {n : Nat} {c : Char} (hc : c ∈ Nat.toDigits 10 n) :
    c.isDigit = true :=
  Nat.isDigit_of_mem_toDigits (by decide) (by decide) hc

theorem no_nul_ofInt : '\x00' ∉ ofInt v := by
  have hdigits : ∀ n, '\x00' ∉ Nat.toDigits 10 n := by
    intro n hn
    exact absurd (isDigit_of_mem_toDigits hn) (by decide)
  unfold ofInt
  split
  · intro h
    rcases List.mem_cons.mp h with h | h
    · exact absurd h (by decide)
    · exact hdigits _ h
  · exact hdigits _

/-- An `int` has at most eleven characters. -/
theorem length_ofInt (h : v.natAbs < 10 ^ 10) : (ofInt v).length ≤ 11 := by
  have hlen : (Nat.toDigits 10 v.natAbs).length ≤ 10 :=
    (Nat.length_toDigits_le_iff (by decide) (by decide)).mpr h
  unfold ofInt
  split
  · simp only [List.length_cons]
    omega
  · omega

theorem digits_toDigits_append {n : Nat} (hs : ∀ c ∈ s.head?, c.isDigit = false) :
    digits (Nat.toDigits 10 n ++ s) = n := by
  have hrest : s.takeWhile Char.isDigit = [] := by
    cases s with
    | nil => rfl
    | cons c s => simp [hs c rfl]
  have hall : (Nat.toDigits 10 n ++ s).takeWhile Char.isDigit = Nat.toDigits 10 n := by
    rw [List.takeWhile_append_of_pos fun c hc => isDigit_of_mem_toDigits hc, hrest]
    exact List.append_nil _
  rw [digits, hall, Nat.ofDigitChars_ten_toDigits]

theorem digits_toDigits {n : Nat} : digits (Nat.toDigits 10 n) = n := by
  have h := digits_toDigits_append (s := []) (n := n) nofun
  rwa [List.append_nil] at h

/-- A digit is no space and no sign. -/
theorem not_space_of_isDigit {c : Char} (h : c.isDigit = true) :
    isSpace c = false ∧ c ≠ '-' ∧ c ≠ '+' := by
  refine ⟨?_, ?_, ?_⟩
  · rw [Char.isDigit, Bool.and_eq_true, decide_eq_true_eq, decide_eq_true_eq] at h
    rw [isSpace, decide_eq_false_iff_not]
    rintro (rfl | ⟨-, hle⟩)
    · exact absurd h.1 (by decide)
    · exact absurd (Nat.le_trans h.1 hle) (by decide)
  · rintro rfl
    exact absurd h (by decide)
  · rintro rfl
    exact absurd h (by decide)

/-- A text that starts with a digit has neither spaces nor a sign in front. -/
theorem atoi_of_isDigit {c : Char} {cs : Msg} (hc : c.isDigit = true) :
    atoi (c :: cs) = digits (c :: cs) := by
  obtain ⟨hspace, hminus, hplus⟩ := not_space_of_isDigit hc
  have hdrop : (c :: cs).dropWhile isSpace = c :: cs := by
    rw [List.dropWhile_cons, hspace]
    rfl
  unfold atoi
  rw [hdrop]
  split
  · rename_i heq
    exact absurd (List.cons.inj heq).1 hminus
  · rename_i heq
    exact absurd (List.cons.inj heq).1 hplus
  · rfl

/-- The digits of a number are read up to the first other character. -/
theorem atoi_toDigits_append {n : Nat} (hs : ∀ c ∈ s.head?, c.isDigit = false) :
    atoi (Nat.toDigits 10 n ++ s) = n := by
  obtain ⟨c, cs, hcs⟩ := List.exists_cons_of_ne_nil (Nat.toDigits_ne_nil (b := 10) (n := n))
  have hc : c.isDigit = true := isDigit_of_mem_toDigits (hcs ▸ List.mem_cons_self ..)
  rw [← digits_toDigits_append hs, hcs]
  exact atoi_of_isDigit hc

/-- **Numbers are read back**. -/
theorem atoi_ofInt : atoi (ofInt v) = v := by
  unfold ofInt
  split
  · rename_i hneg
    show -digits (Nat.toDigits 10 v.natAbs) = v
    rw [digits_toDigits]
    omega
  · rename_i hpos
    have h := atoi_toDigits_append (s := []) (n := v.natAbs) nofun
    rw [List.append_nil] at h
    rw [h]
    omega

end Msg

end TxFS
