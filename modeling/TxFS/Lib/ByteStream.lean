import Mathlib.Algebra.Order.Ring.Int
import Mathlib.Data.List.Basic

/-!
# A Reliable Byte Stream

One direction of a connection. The writer's messages are kept apart, oldest first, but the
reader does not see where they end: a read of `n` symbols takes the first `n` of their
concatenation, wherever the boundaries are. Behind the last symbol of a stream that the writer
has closed a read returns nothing; of a stream that is open it waits.

`IsWhole p n` says that a read of `n` symbols takes exactly the oldest message.

`slices` are what a sequence of reads takes from a content, each as many symbols as it asks
for or all that are left.
-/

namespace ByteStream

universe u

/-- The messages that were written and not yet read. -/
abbrev Pipe (α : Type u) := List (List α)

namespace Pipe

variable {α : Type u}

/-- What the reader can still read. -/
def pending (p : Pipe α) : List α := p.flatten

/-- Writing an empty message is not visible on the stream. -/
def write (p : Pipe α) (m : List α) : Pipe α := if m = [] then p else p ++ [m]

/-- The stream behind its first `n` symbols. -/
def drop : Nat → Pipe α → Pipe α
  | _, [] => []
  | 0, m :: ms => m :: ms
  | n + 1, m :: ms =>
    if n + 1 < m.length then m.drop (n + 1) :: ms else drop (n + 1 - m.length) ms

/-- A blocking read with a buffer for `cap` symbols returns `n > 0` of the pending ones. -/
def read (p : Pipe α) (cap n : Nat) : Option (List α × Pipe α) :=
  if 0 < n ∧ n ≤ cap ∧ n ≤ p.pending.length then some (p.pending.take n, p.drop n) else none

/-- The same of a stream that may be closed: at its end the read returns none. -/
def readUntil (closed : Bool) (p : Pipe α) (cap n : Nat) : Option (List α × Pipe α) :=
  if closed ∧ p.pending.length = 0 then
    if n = 0 then some ([], p) else none
  else p.read cap n

/-- The next `n` symbols, at least one, are the oldest message. -/
def IsWhole (p : Pipe α) (n : Nat) : Prop := 0 < n ∧ p.head?.map List.length = some n

instance (p : Pipe α) (n : Nat) : Decidable (p.IsWhole n) :=
  inferInstanceAs (Decidable (_ ∧ _))

variable {p p' : Pipe α} {m b : List α} {ms : List (List α)} {cap n : Nat}

/-! ## Whole messages -/

theorem drop_zero : p.drop 0 = p := by cases p <;> rfl

theorem write_of_ne_nil (hm : m ≠ []) : p.write m = p ++ [m] := if_neg hm

/-- A read waits where nothing is pending. -/
theorem read_eq_none (hpending : p.pending = []) : p.read cap n = none := by
  unfold read
  rw [if_neg]
  rintro ⟨hpos, -, hlen⟩
  rw [hpending, List.length_nil] at hlen
  omega

theorem readUntil_open : p.readUntil false cap n = p.read cap n := by
  simp [readUntil]

/-- A read of a whole message returns it. -/
theorem read_whole (hwhole : p.IsWhole n) (h : p.read cap n = some (b, p')) :
    p = b :: p' ∧ b ≠ [] := by
  cases p with
  | nil => cases hwhole.2
  | cons m ms =>
    have hn : m.length = n := by simpa using hwhole.2
    subst hn
    unfold read at h
    split at h
    · rename_i hcap
      cases h
      have hdrop : drop m.length (m :: ms) = ms := by
        obtain ⟨n, hn⟩ := Nat.exists_eq_succ_of_ne_zero (Nat.pos_iff_ne_zero.mp hcap.1)
        -- the read stops where the message ends
        rw [hn, drop, if_neg (by omega), hn, Nat.sub_self, drop_zero]
      constructor
      · rw [hdrop]
        simp [pending]
      · intro hnil
        have hlen := congrArg List.length hnil
        simp only [List.length_take, List.length_nil] at hlen
        omega
    · cases h

/-- A whole message is never the end of the stream. -/
theorem readUntil_whole {closed : Bool} (hwhole : p.IsWhole n)
    (h : p.readUntil closed cap n = some (b, p')) : p = b :: p' ∧ b ≠ [] := by
  unfold readUntil at h
  split at h
  · rw [if_neg (Nat.pos_iff_ne_zero.mp hwhole.1)] at h
    cases h
  · exact read_whole hwhole h

end Pipe

/-! ## Consecutive reads of a content -/

/-- The slices that reads of the sizes `ns` take from `rest`. -/
def slices {α : Type u} : List α → List Nat → List (List α)
  | _, [] => []
  | rest, n :: ns => rest.take n :: slices (rest.drop n) ns

/-- **The slices in a row are the content**, as far as the reads go. -/
theorem flatten_slices {α : Type u} {rest : List α} {ns : List Nat} :
    (slices rest ns).flatten = rest.take ns.sum := by
  induction ns generalizing rest with
  | nil => simp [slices]
  | cons n ns ih => rw [slices, List.flatten_cons, ih, List.sum_cons, List.take_add]

end ByteStream
