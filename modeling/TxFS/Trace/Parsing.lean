import TxFS.Trace.OpenFiles
import TxFS.Trace.Skipping

/-!
# Parsing a Trace

The generator writes a record as two lines: the transaction id in decimal digits, and the call
with its arguments in parentheses. The main loop of `transaction.c` reads both lines into a
buffer of 100 bytes, looks for the delimiters without looking for the end of the text, and cuts
as many arguments as the branch for the name of the call asks for.

`readTrace_iff` says which traces come back as they were written.
-/

namespace TxFS

open BinaryFile

/-! ## The reader -/

/-- What the main loop has from a record: `t.txnid`, `call`, and the arguments it has cut. -/
structure TraceEntry where
  txnid : Int
  call : Msg
  args : List Msg
deriving DecidableEq, Repr

/-- The calls whose branches cut `arg1` and `arg2`. -/
def twoArgCalls : List Msg :=
  ["open".toList, "read".toList, "write".toList, "lseek".toList, "rename".toList, "creat".toList]

/-- The arguments, as the branch for the call cuts them. `none` is a loop that runs past the end
    of the text. -/
def argsOf (call args : Msg) : Option (List Msg) :=
  if call ∈ twoArgCalls then (twoArgs args).map fun x => [x.1, x.2]
  else if call = "unlink".toList then (splitAtChar ')' args).map fun x => [x.1]
  -- the argument of `stat` is cut at a comma
  else if call = "stat".toList then (splitAtChar ',' args).map fun x => [x.1]
  else some []

/-- `call` and the arguments. -/
def parseCall (syscall : Msg) : Option (Msg × List Msg) := do
  let (call, args) ← splitAtChar '(' syscall
  some (call, ← argsOf call args)

/-- `num_transactions`. -/
def numTransactions : Int := 1000000

/-- The main loop, with what is left of `num_transactions`, while no operation fails. Each record
    takes a byte at least, so the fuel is not used up if it is larger than the file. -/
def readLoop : Nat → Int → File → Option (List TraceEntry)
  | 0, _, _ => none
  | n + 1, left, f =>
    match readRecord f with
    | none => some []
    | some (t, f) => do
      let (call, args) ← parseCall t.syscall
      if call = "txn_beg".toList then
        -- `num_transactions--; if(num_transactions<0) break;`
        if left - 1 < 0 then some []
        else some (⟨t.txnid, call, args⟩ :: (← readLoop n (left - 1) f))
      else some (⟨t.txnid, call, args⟩ :: (← readLoop n left f))

/-- All records that the main loop executes. -/
def readTrace (f : File) : Option (List TraceEntry) :=
  readLoop (f.bytes.length + 1) numTransactions f

/-! ## The format -/

/-- A byte of a name or of an argument. -/
def IsPlain (c : Char) : Prop :=
  c ≠ ',' ∧ c ≠ '(' ∧ c ≠ ')' ∧ c ≠ '\n' ∧ c ≠ '\x00' ∧ c.toNat < 256

instance (c : Char) : Decidable (IsPlain c) := inferInstanceAs (Decidable (_ ∧ _))

/-- A name or an argument, of any length. -/
structure TraceWord where
  text : Msg
  plain : ∀ c ∈ text, IsPlain c

/-- `()`, `(arg1)` or `(arg1,arg2)`. -/
inductive TraceArgs where
  | none
  | one (arg1 : TraceWord)
  | two (arg1 arg2 : TraceWord)

namespace TraceArgs

def list : TraceArgs → List Msg
  | none => []
  | one arg1 => [arg1.text]
  | two arg1 arg2 => [arg1.text, arg2.text]

/-- What stands between the parentheses. -/
def inner : TraceArgs → Msg
  | none => []
  | one arg1 => arg1.text
  | two arg1 arg2 => arg1.text ++ ',' :: arg2.text

end TraceArgs

/-- A record of the generator. -/
structure TraceCall where
  id : Nat
  name : TraceWord
  args : TraceArgs

namespace TraceCall

/-- The call line without its newline. -/
def call (r : TraceCall) : Msg := r.name.text ++ '(' :: (r.args.inner ++ [')'])

/-- The two lines. -/
def text (r : TraceCall) : Msg := Msg.ofInt r.id ++ '\n' :: (r.call ++ ['\n'])

/-- What the record lists. -/
def entry (r : TraceCall) : TraceEntry := ⟨r.id, r.name.text, r.args.list⟩

/-- The branch for the name cuts as many arguments as the record has. -/
def ArgsTaken (r : TraceCall) : Prop :=
  match r.args with
  | .two _ _ => r.name.text ∈ twoArgCalls
  | .one _ => r.name.text = "unlink".toList
  | .none => r.name.text ∉ "unlink".toList :: "stat".toList :: twoArgCalls

instance (r : TraceCall) : Decidable r.ArgsTaken := by
  unfold ArgsTaken
  split <;> infer_instance

/-- The id is an `int`, the call line fits the buffer, and its arguments are those of its name. -/
def Readable (r : TraceCall) : Prop :=
  r.id < 2 ^ 31 ∧ r.call.length + 1 < fileBufferSize ∧ r.ArgsTaken

instance (r : TraceCall) : Decidable r.Readable := inferInstanceAs (Decidable (_ ∧ _ ∧ _))

/-- The record begins a transaction. -/
def Begins (r : TraceCall) : Prop := r.name.text = "txn_beg".toList

instance (r : TraceCall) : Decidable r.Begins := inferInstanceAs (Decidable (_ = _))

end TraceCall

/-- The file of the generator. -/
def traceText (rs : List TraceCall) : List UInt8 := lineBytes (rs.flatMap TraceCall.text)

/-! ## Bytes and texts -/

variable {r : TraceCall} {rs : List TraceCall} {e : TraceEntry} {es : List TraceEntry}
  {f f' : File} {t : TraceRec} {n : Nat} {left : Int} {c : Char} {s s' args : Msg}

/-- A character that stands for one byte of a C string. -/
def IsByte (c : Char) : Prop := c ≠ '\x00' ∧ c.toNat < 256

instance (c : Char) : Decidable (IsByte c) := inferInstanceAs (Decidable (_ ∧ _))

theorem lineBytes_append : lineBytes (s ++ s') = lineBytes s ++ lineBytes s' := List.map_append

theorem toNat_byte (hc : c.toNat < 256) : (UInt8.ofNat c.toNat).toNat = c.toNat := by
  rw [UInt8.toNat_ofNat']
  exact Nat.mod_eq_of_lt hc

/-- The buffer holds the text again. -/
theorem bufferText_lineBytes (hs : ∀ c ∈ s, IsByte c) : bufferText (lineBytes s) = s := by
  have hmap : (lineBytes s).map (fun b => Char.ofNat b.toNat) = s := by
    rw [lineBytes, List.map_map]
    refine (List.map_congr_left fun c hc => ?_).trans (List.map_id s)
    show Char.ofNat (UInt8.ofNat c.toNat).toNat = c
    rw [toNat_byte (hs c hc).2, Char.ofNat_toNat]
  rw [bufferText, hmap]
  exact Msg.text_of_no_nul fun hnul => (hs _ hnul).1 rfl

/-- A byte of the text is the byte of a character. -/
theorem mem_lineBytes {d : Char} (hd : d.toNat < 256) (hs : ∀ c ∈ s, IsByte c) :
    UInt8.ofNat d.toNat ∈ lineBytes s ↔ d ∈ s := by
  constructor
  · intro hmem
    obtain ⟨c, hc, hcd⟩ := List.mem_map.mp hmem
    have hval := congrArg UInt8.toNat hcd
    rw [toNat_byte hd, toNat_byte (hs c hc).2] at hval
    have heq : c = d := Char.toNat_inj.mp hval
    exact heq ▸ hc
  · exact List.mem_map_of_mem

theorem IsPlain.isByte (hc : IsPlain c) : IsByte c := hc.2.2.2.2

/-- Digits are plain. -/
theorem isPlain_of_isDigit (hc : c.isDigit = true) : IsPlain c := by
  have hrange : '0'.toNat ≤ c.toNat ∧ c.toNat ≤ '9'.toNat := by
    rw [Char.isDigit, Bool.and_eq_true, decide_eq_true_eq, decide_eq_true_eq] at hc
    exact hc
  have hne : ∀ d : Char, d.toNat < '0'.toNat → c ≠ d := by
    rintro d hd rfl
    exact absurd hrange.1 (Nat.not_le.mpr hd)
  have hhigh : '9'.toNat < 256 := by decide
  exact ⟨hne _ (by decide), hne _ (by decide), hne _ (by decide), hne _ (by decide),
    hne _ (by decide), Nat.lt_of_le_of_lt hrange.2 hhigh⟩

theorem isPlain_of_mem_ofInt {k : Nat} (hc : c ∈ Msg.ofInt k) : IsPlain c := by
  have hnonneg : ¬(k : Int) < 0 := Int.not_lt.mpr (Int.natCast_nonneg k)
  rw [Msg.ofInt, if_neg hnonneg] at hc
  exact isPlain_of_isDigit (Msg.isDigit_of_mem_toDigits hc)

/-! ## Cutting a call -/

theorem splitAtChar_append (hc : c ∉ s) : splitAtChar c (s ++ c :: s') = some (s, s') := by
  have hall : ∀ d ∈ s, decide (d ≠ c) = true := by
    intro d hd
    exact decide_eq_true fun hdc => hc (hdc ▸ hd)
  have htake : (s ++ c :: s').takeWhile (· ≠ c) = s := by
    rw [List.takeWhile_append_of_pos hall]
    simp
  have hdrop : (s ++ c :: s').dropWhile (· ≠ c) = c :: s' := by
    rw [List.dropWhile_append_of_pos hall]
    simp
  have hmem : c ∈ s ++ c :: s' := by simp
  rw [splitAtChar, if_pos hmem, htake, hdrop]
  rfl

theorem splitAtChar_eq_none (hc : c ∉ s) : splitAtChar c s = none := if_neg hc

namespace TraceWord

variable {w w' : TraceWord}

theorem comma_notMem (w : TraceWord) : ',' ∉ w.text := fun h => (w.plain _ h).1 rfl

theorem open_notMem (w : TraceWord) : '(' ∉ w.text := fun h => (w.plain _ h).2.1 rfl

theorem close_notMem (w : TraceWord) : ')' ∉ w.text := fun h => (w.plain _ h).2.2.1 rfl

end TraceWord

/-- A branch for two arguments takes two, and finds no comma otherwise. -/
theorem twoArgs_inner (a : TraceArgs) :
    (twoArgs (a.inner ++ [')'])).map (fun x => [x.1, x.2]) =
      match a with
      | .two arg1 arg2 => some [arg1.text, arg2.text]
      | _ => none := by
  cases a with
  | none => rfl
  | one arg1 =>
    have hcomma : ',' ∉ arg1.text ++ [')'] := by
      simpa using arg1.comma_notMem
    simp only [TraceArgs.inner, twoArgs, splitAtChar_eq_none hcomma]
    rfl
  | two arg1 arg2 =>
    have hsplit : (arg1.text ++ ',' :: arg2.text) ++ [')'] =
        arg1.text ++ ',' :: (arg2.text ++ ')' :: []) := by simp
    simp only [TraceArgs.inner, hsplit, twoArgs, splitAtChar_append arg1.comma_notMem,
      splitAtChar_append arg2.close_notMem, Option.bind_eq_bind, Option.bind_some, Option.map_some]

/-- What the branches make of the arguments of a record. -/
theorem argsOf_inner (a : TraceArgs) (call : Msg) :
    argsOf call (a.inner ++ [')']) = some a.list ↔
      match a with
      | .two _ _ => call ∈ twoArgCalls
      | .one _ => call = "unlink".toList
      | .none => call ∉ "unlink".toList :: "stat".toList :: twoArgCalls := by
  have hunlink : "unlink".toList ∉ twoArgCalls := by decide
  have hstat : "stat".toList ∉ "unlink".toList :: twoArgCalls := by decide
  unfold argsOf
  generalize "unlink".toList = unlink at hunlink hstat ⊢
  generalize "stat".toList = stat at hstat ⊢
  split
  · -- two arguments are cut
    rename_i htwo
    rw [twoArgs_inner]
    cases a with
    | none => simp [htwo]
    | one arg1 =>
      have hne : call ≠ unlink := fun h => hunlink (h ▸ htwo)
      simp [hne]
    | two arg1 arg2 => simp [htwo, TraceArgs.list]
  · rename_i htwo
    split
    · rename_i hcall
      cases a with
      | none => simp [hcall, TraceArgs.inner, TraceArgs.list, splitAtChar]
      | one arg1 =>
        simp [hcall, TraceArgs.inner, TraceArgs.list, splitAtChar_append arg1.close_notMem]
      | two arg1 arg2 =>
        -- they are cut as one
        simp [htwo, TraceArgs.inner, TraceArgs.list]
    · rename_i hnot
      split
      · rename_i hcall
        cases a with
        | none => simp [hcall, TraceArgs.inner, splitAtChar]
        | one arg1 =>
          have hcomma : ',' ∉ arg1.text ++ [')'] := by simpa using arg1.comma_notMem
          simp [hnot, TraceArgs.inner, splitAtChar_eq_none hcomma]
        | two arg1 arg2 =>
          simp [htwo, TraceArgs.inner, TraceArgs.list, splitAtChar_append arg1.comma_notMem]
      · rename_i hcall
        cases a with
        | none => simp [hnot, hcall, htwo, TraceArgs.list]
        | one arg1 => simp [hnot, TraceArgs.list]
        | two arg1 arg2 => simp [htwo, TraceArgs.list]

/-- **The call of a record is taken apart** if its branch takes as many arguments. -/
theorem parseCall_iff : parseCall r.call = some (r.name.text, r.args.list) ↔ r.ArgsTaken := by
  have hsplit : splitAtChar '(' r.call = some (r.name.text, r.args.inner ++ [')']) :=
    splitAtChar_append r.name.open_notMem
  have hparse : parseCall r.call =
      (argsOf r.name.text (r.args.inner ++ [')'])).map fun args => (r.name.text, args) := by
    simp only [parseCall, hsplit, Option.bind_eq_bind, Option.bind_some]
    cases argsOf r.name.text (r.args.inner ++ [')']) <;> rfl
  rw [hparse, TraceCall.ArgsTaken, ← argsOf_inner]
  cases argsOf r.name.text (r.args.inner ++ [')']) <;> simp

/-! ## Reading the lines -/

/-- The next line, as far as the buffer goes. -/
theorem lineOf_line {bs rest : List UInt8} (hbs : (10 : UInt8) ∉ bs) :
    lineOf n (bs ++ 10 :: rest) = (bs ++ [10]).take n := by
  induction bs generalizing n with
  | nil => cases n <;> simp [lineOf]
  | cons b bs ih =>
    have hb : b ≠ 10 := fun hb => hbs (hb ▸ List.mem_cons_self ..)
    cases n with
    | zero => rfl
    | succ n =>
      show (if b = 10 then [b] else b :: lineOf n (bs ++ 10 :: rest)) = _
      rw [if_neg hb, ih fun hmem => hbs (List.mem_cons_of_mem _ hmem)]
      rfl

/-- A line is part of the first line of the file. -/
theorem mem_lineOf {bs : List UInt8} {b : UInt8} (hb : b ∈ lineOf n bs) :
    b = 10 ∨ b ∈ bs.takeWhile (· ≠ 10) := by
  induction bs generalizing n with
  | nil => cases n <;> cases hb
  | cons a bs ih =>
    cases n with
    | zero => cases hb
    | succ n =>
      by_cases ha : a = 10
      · have hline : lineOf (n + 1) (a :: bs) = [a] := if_pos ha
        rw [hline] at hb
        exact .inl ((List.mem_singleton.mp hb).trans ha)
      · have hline : lineOf (n + 1) (a :: bs) = a :: lineOf n bs := if_neg ha
        rw [hline] at hb
        rw [List.takeWhile_cons_of_pos (by simpa using ha)]
        rcases List.mem_cons.mp hb with rfl | hb
        · exact .inr (List.mem_cons_self ..)
        · exact (ih hb).imp_right (List.mem_cons_of_mem _)

/-- `fgets` takes the next line, as far as the buffer goes. -/
theorem fgets_line {bs rest : List UInt8} (hbs : (10 : UInt8) ∉ bs)
    (hrest : f.rest = bs ++ 10 :: rest) :
    ∃ f', fgets fileBufferSize f = some ((bs ++ [10]).take 99, f') ∧
      f'.rest = (bs ++ [10]).drop 99 ++ rest := by
  have hline : lineOf (fileBufferSize - 1) f.rest = (bs ++ [10]).take 99 := by
    rw [hrest, lineOf_line hbs]
    rfl
  have hne : (bs ++ [10]).take 99 ≠ [] := by simp
  have hsplit : f.rest = (bs ++ [10]).take 99 ++ ((bs ++ [10]).drop 99 ++ rest) := by
    rw [← List.append_assoc, List.take_append_drop, hrest, List.append_assoc]
    rfl
  refine ⟨f.advance ((bs ++ [10]).take 99).length, ?_, File.rest_advance hsplit rfl⟩
  unfold fgets
  dsimp only
  rw [hline, if_neg hne]

/-- The text of a line that is longer than the buffer loses its end. -/
theorem stripNewline_of_notMem (hs : '\n' ∉ s) : stripNewline s = s := by
  apply if_neg
  intro hlast
  exact hs (List.mem_of_getLast? hlast)

theorem stripNewline_append (s : Msg) : stripNewline (s ++ ['\n']) = s := by
  simp [stripNewline]

/-- What the reader keeps of a line. -/
theorem stripNewline_take (hs : '\n' ∉ s) : stripNewline ((s ++ ['\n']).take 99) = s.take 99 := by
  by_cases hlen : s.length < 99
  · rw [List.take_of_length_le (by simp; omega), List.take_of_length_le (Nat.le_of_lt hlen)]
    exact stripNewline_append s
  · rw [List.take_append_of_le_length (Nat.le_of_not_lt hlen)]
    exact stripNewline_of_notMem fun hmem => hs (List.mem_of_mem_take hmem)

theorem newline_notMem_lineBytes (hs : ∀ c ∈ s, IsByte c) (hnewline : '\n' ∉ s) :
    (10 : UInt8) ∉ lineBytes s := fun hmem =>
  hnewline ((mem_lineBytes (d := '\n') (by decide) hs).mp hmem)

namespace TraceCall

/-- The characters of a call line. -/
theorem call_chars (r : TraceCall) : ∀ c ∈ r.call, IsByte c ∧ c ≠ '\n' := by
  have hword : ∀ (w : TraceWord), ∀ c ∈ w.text, IsByte c ∧ c ≠ '\n' := by
    intro w c hc
    exact ⟨(w.plain c hc).isByte, (w.plain c hc).2.2.2.1⟩
  have hinner : ∀ c ∈ r.args.inner, IsByte c ∧ c ≠ '\n' := by
    cases r.args with
    | none => nofun
    | one arg1 => exact hword arg1
    | two arg1 arg2 =>
      intro c hc
      rcases List.mem_append.mp hc with hc | hc
      · exact hword arg1 c hc
      · rcases List.mem_cons.mp hc with rfl | hc
        · decide
        · exact hword arg2 c hc
  intro c hc
  rcases List.mem_append.mp hc with hc | hc
  · exact hword r.name c hc
  · rcases List.mem_cons.mp hc with rfl | hc
    · decide
    · rcases List.mem_append.mp hc with hc | hc
      · exact hinner c hc
      · rw [List.mem_singleton.mp hc]
        decide

theorem newline_notMem_call (r : TraceCall) : '\n' ∉ r.call := fun h => (r.call_chars _ h).2 rfl

/-- Behind the name and its parenthesis there is no other one. -/
theorem open_notMem_inner (a : TraceArgs) : '(' ∉ a.inner ++ [')'] := by
  cases a with
  | none => decide
  | one arg1 => simpa [TraceArgs.inner] using arg1.open_notMem
  | two arg1 arg2 => simpa [TraceArgs.inner] using ⟨arg1.open_notMem, arg2.open_notMem⟩

/-- If the first 99 characters have the parenthesis, the others do not. -/
theorem open_notMem_drop (h : '(' ∈ r.call.take 99) : '(' ∉ r.call.drop 99 := by
  have hlen : r.name.text.length < 99 := by
    by_contra hge
    rw [call, List.take_append_of_le_length (Nat.le_of_not_lt hge)] at h
    exact r.name.open_notMem (List.mem_of_mem_take h)
  have hdrop : r.call.drop 99 =
      (r.args.inner ++ [')']).drop (99 - (r.name.text.length + 1)) := by
    have hcall : r.call = (r.name.text ++ ['(']) ++ (r.args.inner ++ [')']) := by simp [call]
    rw [hcall, List.drop_append, List.drop_eq_nil_of_le (by simp; omega)]
    simp
  intro hmem
  rw [hdrop] at hmem
  exact open_notMem_inner r.args (List.mem_of_mem_drop hmem)

end TraceCall

/-- **A record with an `int` for its id** gives the id and the first 99 characters of its call;
    what the buffer has not taken is left for the next line. -/
theorem readRecord_text {rest : List UInt8} (hid : r.id < 2 ^ 31)
    (hrest : f.rest = lineBytes r.text ++ rest) :
    ∃ f', readRecord f = some (⟨r.id, r.call.take 99⟩, f') ∧
      f'.rest = lineBytes ((r.call ++ ['\n']).drop 99) ++ rest := by
  have hdigits : ∀ c ∈ Msg.ofInt r.id, IsByte c := fun c hc => (isPlain_of_mem_ofInt hc).isByte
  have hcall : ∀ c ∈ r.call, IsByte c := fun c hc => (r.call_chars c hc).1
  have hlines : f.rest =
      lineBytes (Msg.ofInt r.id) ++ 10 :: (lineBytes r.call ++ 10 :: rest) := by
    rw [hrest, TraceCall.text, lineBytes_append]
    simp [lineBytes]
  have hidline : (10 : UInt8) ∉ lineBytes (Msg.ofInt r.id) :=
    newline_notMem_lineBytes hdigits fun hmem => (isPlain_of_mem_ofInt hmem).2.2.2.1 rfl
  have hcallline : (10 : UInt8) ∉ lineBytes r.call :=
    newline_notMem_lineBytes hcall r.newline_notMem_call
  obtain ⟨f₁, hfgets₁, hrest₁⟩ := fgets_line hidline hlines
  -- the id line fits
  have hshort : (lineBytes (Msg.ofInt r.id) ++ [10]).length ≤ 99 := by
    have hlen := Msg.length_ofInt (v := r.id) (by simp; omega)
    simp only [lineBytes, List.length_append, List.length_map, List.length_singleton]
    omega
  rw [List.take_of_length_le hshort] at hfgets₁
  rw [List.drop_eq_nil_of_le hshort, List.nil_append] at hrest₁
  obtain ⟨f₂, hfgets₂, hrest₂⟩ := fgets_line hcallline hrest₁
  have hnewline : ∀ s : Msg, lineBytes s ++ [10] = lineBytes (s ++ ['\n']) := by
    intro s
    rw [lineBytes_append]
    rfl
  have htextId : Msg.intOfText (bufferText (lineBytes (Msg.ofInt r.id) ++ [10])) = r.id := by
    have hchars : ∀ c ∈ Msg.ofInt r.id ++ ['\n'], IsByte c := by
      intro c hc
      rcases List.mem_append.mp hc with hc | hc
      · exact hdigits c hc
      · rw [List.mem_singleton.mp hc]
        decide
    have hofInt : Msg.ofInt r.id = Nat.toDigits 10 r.id := by
      rw [Msg.ofInt, if_neg (Int.not_lt.mpr (Int.natCast_nonneg _)), Int.natAbs_natCast]
    rw [hnewline, bufferText_lineBytes hchars, Msg.intOfText, hofInt,
      Msg.atoi_toDigits_append (by simp)]
    exact intOfLong_of_fits (by omega) (by omega)
  have htextCall : stripNewline (bufferText ((lineBytes r.call ++ [10]).take 99)) =
      r.call.take 99 := by
    have hchars : ∀ c ∈ (r.call ++ ['\n']).take 99, IsByte c := by
      intro c hc
      rcases List.mem_append.mp (List.mem_of_mem_take hc) with hc | hc
      · exact hcall c hc
      · rw [List.mem_singleton.mp hc]
        decide
    have htake : (lineBytes (r.call ++ ['\n'])).take 99 = lineBytes ((r.call ++ ['\n']).take 99) :=
      List.map_take.symm
    rw [hnewline, htake, bufferText_lineBytes hchars]
    exact stripNewline_take r.newline_notMem_call
  refine ⟨f₂, ?_, ?_⟩
  · simp only [readRecord, hfgets₁, hfgets₂, Option.bind_eq_bind, Option.bind_some,
      Option.getD_some, htextId, htextCall]
  · rw [hrest₂, hnewline]
    simp [lineBytes]

/-! ## The loop -/

/-- A call without a parenthesis stops the reader. -/
theorem readLoop_of_no_open (hread : readRecord f = some (t, f')) (ht : '(' ∉ t.syscall) :
    readLoop n left f = none := by
  cases n with
  | zero => rfl
  | succ n =>
    simp only [readLoop, hread, parseCall, splitAtChar_eq_none ht, Option.bind_eq_bind,
      Option.bind_none]

/-- What the first entry comes from. -/
theorem readLoop_cons (h : readLoop n left f = some (e :: es)) :
    ∃ t f' m left', readRecord f = some (t, f') ∧ parseCall t.syscall = some (e.call, e.args) ∧
      e.txnid = t.txnid ∧ readLoop m left' f' = some es := by
  cases n with
  | zero => cases h
  | succ n =>
    rw [readLoop] at h
    split at h
    · cases h
    · rename_i t f' hread
      simp only [Option.bind_eq_bind, Option.bind_eq_some_iff] at h
      obtain ⟨⟨call, args⟩, hparse, h⟩ := h
      dsimp only at h
      split at h
      · split at h
        · cases h
        · obtain ⟨es', hes, h⟩ := Option.bind_eq_some_iff.mp h
          cases h
          exact ⟨t, f', n, _, hread, hparse, rfl, hes⟩
      · obtain ⟨es', hes, h⟩ := Option.bind_eq_some_iff.mp h
        cases h
        exact ⟨t, f', n, _, hread, hparse, rfl, hes⟩

/-- The parenthesis comes from its byte. -/
theorem mem_bufferText {bs : List UInt8} (h : '(' ∈ bufferText bs) : (40 : UInt8) ∈ bs := by
  obtain ⟨b, hb, hbc⟩ := List.mem_map.mp ((List.takeWhile_sublist _).subset h)
  have hval := congrArg Char.toNat hbc
  have hlt : b.toNat < 256 := b.toNat_lt
  have hvalid : b.toNat.isValidChar := .inl (by omega)
  have hof : (Char.ofNat b.toNat).toNat = b.toNat := by
    rw [Char.ofNat, dif_pos hvalid]
    rfl
  rw [hof] at hval
  have hforty : b = 40 := UInt8.toNat_inj.mp hval
  exact hforty ▸ hb

/-- Neither the rest of a cut line nor the id line behind it has a parenthesis, so the next
    record is none. -/
theorem readLoop_of_cut {bs rest : List UInt8} (hnewline : (10 : UInt8) ∉ bs)
    (hopen : (40 : UInt8) ∉ bs) (hnext : (40 : UInt8) ∉ rest.takeWhile (· ≠ 10))
    (hrest : f.rest = bs ++ 10 :: rest) : readLoop n left f = none := by
  obtain ⟨f₁, hfgets₁, hrest₁⟩ := fgets_line hnewline hrest
  have hcall : ∀ line f₂, fgets fileBufferSize f₁ = some (line, f₂) → (40 : UInt8) ∉ line := by
    intro line f₂ hfgets hmem
    unfold fgets at hfgets
    dsimp only at hfgets
    split at hfgets
    · cases hfgets
    · cases hfgets
      rcases mem_lineOf hmem with h | h
      · exact absurd h (by decide)
      · rw [hrest₁] at h
        by_cases hlen : bs.length < 99
        · rw [List.drop_eq_nil_of_le (by simp; omega)] at h
          exact hnext h
        · -- the line is longer than the buffer, its end comes first
          rw [List.drop_append_of_le_length (Nat.le_of_not_lt hlen), List.append_assoc] at h
          have hclean : ∀ b ∈ bs.drop 99, decide (b ≠ 10) = true := by
            intro b hb
            exact decide_eq_true fun h10 => hnewline (h10 ▸ List.mem_of_mem_drop hb)
          rw [List.takeWhile_append_of_pos hclean] at h
          have hnone : ([10] ++ rest).takeWhile (· ≠ 10) = [] := by simp
          rw [hnone, List.append_nil] at h
          exact hopen (List.mem_of_mem_drop h)
  have hparse : '(' ∉ stripNewline
      (bufferText ((fgets fileBufferSize f₁).getD ([], f₁)).1) := by
    intro hmem
    have hmem' : '(' ∈ bufferText ((fgets fileBufferSize f₁).getD ([], f₁)).1 := by
      unfold stripNewline at hmem
      split at hmem
      · exact List.dropLast_subset _ hmem
      · exact hmem
    have hbyte := mem_bufferText hmem'
    cases hfgets : fgets fileBufferSize f₁ with
    | none =>
      rw [hfgets] at hbyte
      cases hbyte
    | some x =>
      rw [hfgets] at hbyte
      exact hcall x.1 x.2 hfgets hbyte
  have hread : readRecord f = some
      (⟨Msg.intOfText (bufferText ((bs ++ [10]).take 99)),
        stripNewline (bufferText ((fgets fileBufferSize f₁).getD ([], f₁)).1)⟩,
        ((fgets fileBufferSize f₁).getD ([], f₁)).2) := by
    simp only [readRecord, hfgets₁, Option.bind_eq_bind, Option.bind_some]
  exact readLoop_of_no_open hread hparse

/-- The id line of the next record has no parenthesis. -/
theorem open_notMem_idLine (rs : List TraceCall) :
    (40 : UInt8) ∉ (lineBytes (rs.flatMap TraceCall.text)).takeWhile (· ≠ 10) := by
  cases rs with
  | nil => nofun
  | cons r rs =>
    have hdigits : ∀ c ∈ Msg.ofInt r.id, IsPlain c := fun c hc => isPlain_of_mem_ofInt hc
    have hbyte : ∀ c ∈ Msg.ofInt r.id, IsByte c := fun c hc => (hdigits c hc).isByte
    have hsplit : lineBytes ((r :: rs).flatMap TraceCall.text) =
        lineBytes (Msg.ofInt r.id) ++
          10 :: lineBytes (r.call ++ '\n' :: rs.flatMap TraceCall.text) := by
      simp [TraceCall.text, lineBytes]
    have hclean : ∀ b ∈ lineBytes (Msg.ofInt r.id), decide (b ≠ 10) = true := by
      intro b hb
      refine decide_eq_true fun h10 => ?_
      rw [h10] at hb
      have hmem : '\n' ∈ Msg.ofInt r.id := (mem_lineBytes (d := '\n') (by decide) hbyte).mp hb
      exact (hdigits _ hmem).2.2.2.1 rfl
    rw [hsplit, List.takeWhile_append_of_pos hclean, List.takeWhile_cons_of_neg (by simp),
      List.append_nil]
    intro hmem
    have hopen : '(' ∈ Msg.ofInt r.id :=
      (mem_lineBytes (d := '(') (by decide) hbyte).mp hmem
    exact (hdigits _ hopen).2.1 rfl

/-- An unreadable record is not among the entries. -/
theorem readable_of_readLoop
    (hrest : f.rest = lineBytes r.text ++ lineBytes (rs.flatMap TraceCall.text))
    (h : readLoop n left f = some (r.entry :: es)) : r.Readable := by
  obtain ⟨t, f', m, left', hread, hparse, hid, hes⟩ := readLoop_cons h
  have hidInt : r.id < 2 ^ 31 := by
    -- what `atoi` returns is an `int`
    have hle : t.txnid < 2 ^ 31 := by
      simp only [readRecord, Option.bind_eq_bind, Option.bind_eq_some_iff, Option.some.injEq,
        Prod.mk.injEq] at hread
      obtain ⟨x, -, rfl, -⟩ := hread
      show intOfLong _ < _
      unfold intOfLong
      have := Int.bmod_lt (x := Msg.atoi (bufferText x.1)) (m := 2 ^ 32) (by decide)
      omega
    have heq : (r.id : Int) = t.txnid := hid
    omega
  obtain ⟨g, hread', hg⟩ := readRecord_text hidInt hrest
  cases hread.symm.trans hread'
  have hfits : r.call.length + 1 < fileBufferSize := by
    by_contra hlong
    have hge : 99 ≤ r.call.length := by
      unfold fileBufferSize at hlong
      omega
    have hopen : '(' ∈ r.call.take 99 := by
      by_contra hnone
      rw [parseCall, splitAtChar_eq_none hnone] at hparse
      cases hparse
    have hcut : f'.rest = lineBytes (r.call.drop 99) ++
        10 :: lineBytes (rs.flatMap TraceCall.text) := by
      rw [hg, List.drop_append_of_le_length hge, lineBytes_append, List.append_assoc]
      rfl
    have hchars : ∀ c ∈ r.call.drop 99, IsByte c := fun c hc =>
      (r.call_chars c (List.mem_of_mem_drop hc)).1
    have hnone : readLoop m left' f' = none := readLoop_of_cut
      (newline_notMem_lineBytes hchars fun hmem =>
        r.newline_notMem_call (List.mem_of_mem_drop hmem))
      (fun hmem => TraceCall.open_notMem_drop hopen
        ((mem_lineBytes (d := '(') (by decide) hchars).mp hmem))
      (open_notMem_idLine rs) hcut
    cases hes.symm.trans hnone
  refine ⟨hidInt, hfits, parseCall_iff.mp ?_⟩
  have hwhole : r.call.take 99 = r.call := by
    unfold fileBufferSize at hfits
    exact List.take_of_length_le (by omega)
  have hparse' : parseCall (r.call.take 99) = some (r.name.text, r.args.list) := hparse
  rwa [hwhole] at hparse'

/-- A readable record is read, unless `num_transactions` is used up. -/
theorem readLoop_text (n : Nat) (left : Int) {rest : List UInt8} (hr : r.Readable)
    (hrest : f.rest = lineBytes r.text ++ rest) :
    ∃ f', f'.rest = rest ∧ readLoop (n + 1) left f =
      if r.Begins then
        if left - 1 < 0 then some [] else (readLoop n (left - 1) f').map (r.entry :: ·)
      else (readLoop n left f').map (r.entry :: ·) := by
  obtain ⟨hid, hfits, hargs⟩ := hr
  obtain ⟨f', hread, hf'⟩ := readRecord_text hid hrest
  unfold fileBufferSize at hfits
  rw [List.take_of_length_le (by omega)] at hread
  rw [List.drop_eq_nil_of_le (by simp; omega)] at hf'
  refine ⟨f', hf', ?_⟩
  have hparse := parseCall_iff.mpr hargs
  have hbind : ∀ o : Option (List TraceEntry),
      (o.bind fun es => some (⟨r.id, r.name.text, r.args.list⟩ :: es)) = o.map (r.entry :: ·) := by
    intro o
    cases o <;> rfl
  simp only [readLoop, hread, hparse, Option.bind_eq_bind, Option.bind_some, hbind,
    TraceCall.Begins]
  rfl

/-- **The loop reads what was written**, as long as each record is readable and
    `num_transactions` lasts. -/
theorem readLoop_iff (hn : rs.length < n) (hleft : 0 ≤ left)
    (hrest : f.rest = lineBytes (rs.flatMap TraceCall.text)) :
    readLoop n left f = some (rs.map TraceCall.entry) ↔
      (∀ r ∈ rs, r.Readable) ∧ (rs.countP fun r => r.Begins : Int) ≤ left := by
  induction rs generalizing f n left with
  | nil =>
    obtain ⟨n, rfl⟩ := Nat.exists_eq_succ_of_ne_zero (Nat.ne_of_gt hn)
    have hnone : readRecord f = none := readRecord_eq_none.mpr hrest
    have hread : readLoop (n + 1) left f = some [] := by rw [readLoop, hnone]
    simpa [hread] using hleft
  | cons r rs ih =>
    obtain ⟨n, rfl⟩ := Nat.exists_eq_succ_of_ne_zero (Nat.ne_of_gt (Nat.zero_lt_of_lt hn))
    have hn' : rs.length < n := Nat.lt_of_succ_lt_succ hn
    have hsplit : f.rest = lineBytes r.text ++ lineBytes (rs.flatMap TraceCall.text) := by
      rw [hrest, List.flatMap_cons, lineBytes_append]
    by_cases hr : r.Readable
    · obtain ⟨f', hf', hstep⟩ := readLoop_text n left hr hsplit
      have hmap : ∀ o : Option (List TraceEntry),
          o.map (r.entry :: ·) = some ((r :: rs).map TraceCall.entry) ↔
            o = some (rs.map TraceCall.entry) := by
        intro o
        cases o <;> simp
      have hall : (∀ r' ∈ r :: rs, r'.Readable) ↔ ∀ r' ∈ rs, r'.Readable := by simp [hr]
      rw [hstep, hall, List.countP_cons]
      by_cases hbeg : r.Begins
      · rw [if_pos hbeg, if_pos (decide_eq_true hbeg)]
        by_cases hlast : left - 1 < 0
        · -- the loop is left in front of the record
          rw [if_pos hlast]
          refine iff_of_false (by simp) fun h => ?_
          have := h.2
          push_cast at this
          omega
        · rw [if_neg hlast, hmap, ih hn' (by omega) hf']
          push_cast
          exact and_congr_right fun _ => by omega
      · rw [if_neg hbeg, if_neg (by simpa using hbeg), hmap, ih hn' hleft hf']
        simp
    · refine iff_of_false (fun h => hr (readable_of_readLoop hsplit h)) fun h => hr ?_
      exact h.1 r (List.mem_cons_self ..)

/-- Each record takes a byte at least. -/
theorem length_le_traceText (rs : List TraceCall) : rs.length ≤ (traceText rs).length := by
  rw [traceText, lineBytes, List.length_map]
  induction rs with
  | nil => exact Nat.le_refl _
  | cons r rs ih =>
    rw [List.flatMap_cons, List.length_append, List.length_cons]
    have hpos : 0 < r.text.length := by simp [TraceCall.text]
    omega

/-- **A trace is read as it was written** just when each record is readable and no more than
    `num_transactions` of them begin a transaction. -/
theorem readTrace_iff (rs : List TraceCall) :
    readTrace ⟨traceText rs, 0⟩ = some (rs.map TraceCall.entry) ↔
      (∀ r ∈ rs, r.Readable) ∧ (rs.countP fun r => r.Begins : Int) ≤ numTransactions :=
  readLoop_iff (Nat.lt_succ_of_le (length_le_traceText rs)) (by decide) rfl

/-! ### A path of a hundred bytes -/

theorem isPlain_of_all {l : Msg} (h : (l.all fun c => decide (IsPlain c)) = true) :
    ∀ c ∈ l, IsPlain c :=
  fun c hc => of_decide_eq_true (List.all_eq_true.mp h c hc)

/-- `3`, `open(/aa..a,O_RDWR)` with a path of a hundred bytes. -/
def longOpen : TraceCall where
  id := 3
  name := ⟨"open".toList, isPlain_of_all (by decide)⟩
  args := .two ⟨'/' :: List.replicate 99 'a', isPlain_of_all (by decide)⟩
    ⟨"O_RDWR".toList, isPlain_of_all (by decide)⟩

/-- The comma is looked for behind the end of the text. -/
theorem comma_not_in_the_line :
    readRecord ⟨traceText [longOpen], 0⟩ =
        some (⟨3, "open(/".toList ++ List.replicate 93 'a'⟩, ⟨traceText [longOpen], 101⟩) ∧
      readTrace ⟨traceText [longOpen], 0⟩ = none := by
  decide +kernel

end TxFS
