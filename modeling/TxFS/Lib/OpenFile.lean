import Mathlib.Algebra.Order.Ring.Int
import Mathlib.Data.List.Induction
import TxFS.Lib.FileContent

/-!
# Open Files

A descriptor of a regular file, with the content of the file and the position, as `lseek` and
`write` see it: a seek in front of the file is refused, a write through a descriptor that was
opened for appending goes to the end, and one through a descriptor for reading fails.

`replay` places every write with a seek of its own; `bytes_replay` says what content that leaves.
-/

open FileContent

structure OpenFile where
  bytes : List UInt8
  pos : Nat
  writable : Bool
  append : Bool
deriving DecidableEq, Repr

namespace OpenFile

/-- Where a seek goes: `SEEK_SET` is 0, `SEEK_CUR` 1 and `SEEK_END` 2. -/
def target (f : OpenFile) (off whence : Int) : Int :=
  if whence = 0 then off
  else if whence = 1 then f.pos + off
  else if whence = 2 then f.bytes.length + off
  else -1

/-- The seek goes to an offset that can be represented. -/
def Accepts (f : OpenFile) (off whence : Int) : Prop :=
  0 ≤ f.target off whence ∧ f.target off whence < 2 ^ 63

instance (f : OpenFile) (off whence : Int) : Decidable (f.Accepts off whence) :=
  inferInstanceAs (Decidable (_ ∧ _))

def lseek (f : OpenFile) (off whence : Int) : Int × OpenFile :=
  if f.Accepts off whence then
    (f.target off whence, { f with pos := (f.target off whence).toNat })
  else (-1, f)

def write (f : OpenFile) (bs : List UInt8) : OpenFile :=
  if f.writable = false ∨ bs = [] then f
  else
    let off := if f.append then f.bytes.length else f.pos
    { f with bytes := patch f.bytes off bs, pos := off + bs.length }

/-- Writes to the file are placed by the position. -/
def Placing (f : OpenFile) : Prop := f.writable ∧ ¬ f.append

instance (f : OpenFile) : Decidable f.Placing := inferInstanceAs (Decidable (_ ∧ _))

/-- A write at an offset. -/
def perform (f : OpenFile) (off : Int) (bs : List UInt8) : OpenFile := (f.lseek off 0).2.write bs

/-- Writes at their offsets, one after the other. -/
def replay (f : OpenFile) (es : List (Int × List UInt8)) : OpenFile :=
  es.foldl (fun f e => f.perform e.1 e.2) f

/-- The content behind a write to the file at an offset. -/
def written (f : OpenFile) (xs : List UInt8) (e : Int × List UInt8) : List UInt8 :=
  if f.writable then patch xs (if f.append then xs.length else e.1.toNat) e.2 else xs

/-- The content behind writes at their offsets. -/
def content (f : OpenFile) (es : List (Int × List UInt8)) : List UInt8 :=
  es.foldl f.written f.bytes

section

variable {f : OpenFile} {off whence : Int} {bs : List UInt8} {e : Int × List UInt8}
  {es : List (Int × List UInt8)}

@[simp] theorem bytes_lseek : (f.lseek off whence).2.bytes = f.bytes := by
  unfold lseek
  split <;> rfl

@[simp] theorem writable_lseek : (f.lseek off whence).2.writable = f.writable := by
  unfold lseek
  split <;> rfl

@[simp] theorem append_lseek : (f.lseek off whence).2.append = f.append := by
  unfold lseek
  split <;> rfl

theorem pos_lseek (h : f.Accepts off whence) :
    (f.lseek off whence).2.pos = (f.target off whence).toNat := by
  rw [lseek, if_pos h]

@[simp] theorem writable_write : (f.write bs).writable = f.writable := by
  unfold write
  split <;> rfl

@[simp] theorem append_write : (f.write bs).append = f.append := by
  unfold write
  split <;> rfl

theorem bytes_write : (f.write bs).bytes =
    if f.writable then patch f.bytes (if f.append then f.bytes.length else f.pos) bs
    else f.bytes := by
  unfold write
  split
  · rename_i hnone
    rcases hnone with hnot | rfl
    · rw [hnot]
      rfl
    · rw [patch_nil, ite_self]
  · rename_i hsome
    have hwritable : f.writable = true := by
      simpa using fun h => hsome (.inl h)
    rw [if_pos hwritable]

theorem pos_write (h : f.Placing) : (f.write bs).pos = f.pos + bs.length := by
  obtain ⟨hwritable, happend⟩ := h
  unfold write
  split
  · rename_i hnone
    rcases hnone with hnot | rfl
    · exact absurd hwritable (by simp [hnot])
    · rfl
  · rfl

/-! ## Replay -/

theorem replay_snoc : f.replay (es ++ [e]) = (f.replay es).perform e.1 e.2 :=
  List.foldl_append ..

theorem content_snoc : f.content (es ++ [e]) = f.written (f.content es) e := List.foldl_append ..

/-- The content does not depend on the position. -/
theorem content_lseek : (f.lseek off whence).2.content es = f.content es := by
  have hwritten : (f.lseek off whence).2.written = f.written := by
    funext xs e
    simp [written]
  rw [content, content, hwritten, bytes_lseek]

/-- The seeks of a replay are not refused. -/
def Seeks (f : OpenFile) (es : List (Int × List UInt8)) : Prop :=
  f.Placing → ∀ e ∈ es, 0 ≤ e.1 ∧ e.1 < 2 ^ 63

/-- What a replay leaves. -/
theorem bytes_replay (h : f.Seeks es) :
    (f.replay es).bytes = f.content es ∧ (f.replay es).writable = f.writable ∧
      (f.replay es).append = f.append := by
  induction es using List.reverseRecOn with
  | nil => exact ⟨rfl, rfl, rfl⟩
  | append_singleton es e ih =>
    obtain ⟨hbytes, hwritable, happend⟩ := ih fun hf e he => h hf e (List.mem_append_left _ he)
    rw [replay_snoc, content_snoc]
    refine ⟨?_, by simp [perform, hwritable], by simp [perform, happend]⟩
    rw [perform, bytes_write, written, writable_lseek, append_lseek, bytes_lseek, hwritable, happend,
      hbytes]
    -- the position matters only where the write is placed by it
    by_cases hplacing : f.Placing
    · have haccepts : (f.replay es).Accepts e.1 0 := h hplacing e (by simp)
      rw [pos_lseek haccepts]
      rfl
    · by_cases hw : f.writable
      · have ha : f.append = true := by
          by_contra ha
          exact hplacing ⟨hw, ha⟩
        simp [hw, ha]
      · simp [hw]

end

end OpenFile
