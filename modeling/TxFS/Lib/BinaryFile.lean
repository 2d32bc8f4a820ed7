import Mathlib.Data.List.Basic
import Mathlib.Data.Nat.ModEq
import Mathlib.Tactic.Ring

/-!
# Binary Files

Two's complement integers of a fixed number of bytes, least significant byte first, and a
file with one position, as the stdio library presents it: seek, tell, write and read.

`write_patch` and `write_end` say what a write leaves of a file that is split where the
position is, `read_split` what a read takes.
-/

namespace BinaryFile

/-! ## Fixed-width integers -/

/-- The `n` low bytes of a number. -/
def natBytes : Nat → Nat → List UInt8
  | 0, _ => []
  | n + 1, v => UInt8.ofNat (v % 256) :: natBytes n (v / 256)

/-- The number with the given bytes. -/
def bytesNat : List UInt8 → Nat
  | [] => 0
  | b :: bs => b.toNat + 256 * bytesNat bs

/-- The two's complement representation in `n` bytes. -/
def intBytes (n : Nat) (x : Int) : List UInt8 := natBytes n (x % (256 ^ n : Nat)).toNat

/-- The integer with the given two's complement representation. -/
def bytesInt (bs : List UInt8) : Int := Int.bmod (bytesNat bs) (256 ^ bs.length)

section

variable {n v : Nat} {x : Int}

@[simp] theorem length_natBytes : (natBytes n v).length = n := by
  induction n generalizing v with
  | zero => rfl
  | succ n ih => rw [natBytes, List.length_cons, ih]

@[simp] theorem length_intBytes : (intBytes n x).length = n := length_natBytes

theorem bytesNat_natBytes : bytesNat (natBytes n v) = v % 256 ^ n := by
  induction n generalizing v with
  | zero => rw [pow_zero, Nat.mod_one]; rfl
  | succ n ih =>
    have hbyte : (UInt8.ofNat (v % 256)).toNat = v % 256 := by
      rw [UInt8.toNat_ofNat']
      exact Nat.mod_eq_of_lt (Nat.mod_lt v (by decide))
    rw [natBytes, bytesNat, ih, hbyte, pow_succ', Nat.mod_mul]

/-- An integer of the width is read back. -/
theorem bytesInt_intBytes (hlow : -(256 ^ n : Nat) ≤ 2 * x) (hhigh : 2 * x < (256 ^ n : Nat)) :
    bytesInt (intBytes n x) = x := by
  have hpos : (0 : Int) < (256 ^ n : Nat) := Int.natCast_pos.mpr (Nat.pow_pos (by decide))
  have hmod : ((x % (256 ^ n : Nat)).toNat : Int) = x % (256 ^ n : Nat) :=
    Int.toNat_of_nonneg (Int.emod_nonneg _ (Int.ne_of_gt hpos))
  have hnat : bytesNat (intBytes n x) = (x % (256 ^ n : Nat)).toNat := by
    rw [intBytes, bytesNat_natBytes, Nat.mod_eq_of_lt]
    have hlt := Int.emod_lt_of_pos x hpos
    omega
  rw [bytesInt, hnat, hmod, length_intBytes, Int.emod_bmod]
  exact Int.bmod_eq_of_le_mul_two (by omega) (by omega)

end

/-! ## Files -/

/-- Contents and position. -/
structure File where
  bytes : List UInt8
  pos : Nat
deriving DecidableEq, Repr

namespace File

/-- `fseek(f, off, SEEK_SET)`. -/
def seekSet (f : File) (off : Int) : File :=
  if 0 ≤ off then { f with pos := off.toNat } else f

/-- `fseek(f, off, SEEK_CUR)`. -/
def seekCur (f : File) (off : Int) : File := f.seekSet (f.pos + off)

/-- `fseek(f, 0, SEEK_END)`. -/
def seekEnd (f : File) : File := { f with pos := f.bytes.length }

/-- `ftell`. -/
def tell (f : File) : Int := f.pos

/-- `fwrite`; a gap behind the end is filled with zeros. -/
def write (f : File) (bs : List UInt8) : File where
  bytes := f.bytes.take f.pos ++ List.replicate (f.pos - f.bytes.length) 0 ++ bs ++
    f.bytes.drop (f.pos + bs.length)
  pos := f.pos + bs.length

/-- `fread` of at most `n` bytes. -/
def read (f : File) (n : Nat) : List UInt8 × File :=
  ((f.bytes.drop f.pos).take n, { f with pos := f.pos + ((f.bytes.drop f.pos).take n).length })

variable {xs ys zs bs : List UInt8} {f : File} {n : Nat}

@[simp] theorem bytes_seekSet {off : Int} : (f.seekSet off).bytes = f.bytes := by
  unfold seekSet
  split <;> rfl

@[simp] theorem bytes_seekCur {off : Int} : (f.seekCur off).bytes = f.bytes := bytes_seekSet

@[simp] theorem bytes_seekEnd : f.seekEnd.bytes = f.bytes := rfl

theorem seekSet_nat : f.seekSet (n : Int) = ⟨f.bytes, n⟩ := if_pos (Int.natCast_nonneg n)

theorem seekCur_nat : f.seekCur (n : Int) = ⟨f.bytes, f.pos + n⟩ := by
  have h := seekSet_nat (f := f) (n := f.pos + n)
  rwa [Int.natCast_add] at h

/-- A write inside the file replaces as many bytes. -/
theorem write_patch (h : bs.length = ys.length) :
    write ⟨xs ++ ys ++ zs, xs.length⟩ bs = ⟨xs ++ bs ++ zs, xs.length + bs.length⟩ := by
  have hgap : xs.length - (xs ++ ys ++ zs).length = 0 := by simp
  have htake : (xs ++ ys ++ zs).take xs.length = xs := by
    rw [List.append_assoc, List.take_left]
  have hdrop : (xs ++ ys ++ zs).drop (xs.length + bs.length) = zs := by
    rw [h, ← List.length_append, List.drop_left]
  simp only [write, hgap, htake, hdrop, List.replicate_zero, List.append_nil]

/-- A write at the end appends. -/
theorem write_end : write ⟨xs, xs.length⟩ bs = ⟨xs ++ bs, (xs ++ bs).length⟩ := by
  simp [write]

/-- A write does not shorten the file. -/
theorem length_le_write : f.bytes.length ≤ (f.write bs).bytes.length := by
  simp only [write, List.length_append, List.length_take, List.length_replicate, List.length_drop]
  omega

/-! ### What is left to read -/

/-- The bytes behind the position. -/
def rest (f : File) : List UInt8 := f.bytes.drop f.pos

theorem rest_mk (h : xs.length = n) : rest ⟨xs ++ ys, n⟩ = ys := by
  rw [rest, ← h, List.drop_left]

/-- The position `n` bytes on. -/
def advance (f : File) (n : Nat) : File := ⟨f.bytes, f.pos + n⟩

/-- A read takes what is in front. -/
theorem read_rest (h : f.rest = ys ++ zs) (hn : ys.length = n) :
    f.read n = (ys, f.advance n) := by
  have htake : (f.bytes.drop f.pos).take n = ys := by
    rw [show f.bytes.drop f.pos = ys ++ zs from h, ← hn, List.take_left]
  simp only [read, htake, hn, advance]

/-- What is left is behind it. -/
theorem rest_advance (h : f.rest = ys ++ zs) (hn : ys.length = n) : (f.advance n).rest = zs := by
  have hdrop : f.bytes.drop f.pos = ys ++ zs := h
  rw [rest, advance, ← List.drop_drop, hdrop, ← hn, List.drop_left]

/-- A read of `n` bytes moves the position by at most `n`. -/
theorem pos_read : (f.read n).2.pos = f.pos + (f.read n).1.length := rfl

theorem length_read_le : (f.read n).1.length ≤ f.bytes.length - f.pos := by
  simp only [read, List.length_take, List.length_drop]
  omega

end File

end BinaryFile
