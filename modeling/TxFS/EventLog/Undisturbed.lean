import TxFS.EventLog.Stdio

/-!
# Undisturbed Positions

What one call of a log function or of a replay does when it finds the position that its own
thread has left: the log function writes where it means to (`append_call`), and the replay reads
the record of the log function whose LRN it has (`replay_call`). A call that sets the position
itself finds nothing that it relies on.
-/

namespace TxFS

open BinaryFile GuardedRun

namespace EventLog

/-! ## What the functions mean to do -/

/-- Byte strings one behind the other, the first one at `off`. -/
def placed : Int → List (List UInt8) → List (Int × List UInt8)
  | _, [] => []
  | off, bs :: bss => (off, bs) :: placed (off + bs.length) bss

/-- The assignment to `next_LRN` of the previous record. -/
def patchAt (logLRN : Int) : Option Int → List (Int × List UInt8)
  | none => []
  | some prevLRN => [(prevLRN + 20, intBytes 8 logLRN)]

/-- The writes of the function, at the offsets that it has computed. -/
def Append.intended (a : Append) : List (Int × List UInt8) :=
  match a.stage with
  | .locked | .atEnd => []
  | .told logLRN | .atPrev logLRN | .atNext logLRN | .patched logLRN | .writing logLRN _ =>
    patchAt logLRN a.prevLRN ++ placed logLRN (a.fn.record a.prevLRN logLRN).fields

/-- Only `log_mutex` is left to be released. -/
def Append.Finished (a : Append) : Prop :=
  match a.stage with
  | .writing _ [] => True
  | _ => False

instance (a : Append) : Decidable a.Finished := by
  unfold Append.Finished
  split <;> infer_instance

/-- The function has written at the offsets that it has computed. -/
def Append.InPlace (a : Append) : Prop :=
  a.writes <+: a.intended ∧ (a.Finished → a.writes = a.intended)

instance (a : Append) : Decidable a.InPlace := inferInstanceAs (Decidable (_ ∧ (_ → _)))

/-- The parts of the record that the replay reads. -/
def LogFn.replayed : LogFn → List (List UInt8)
  | .logRecord type _ fd offset data data1 =>
    match type with
    | .rename | .creat => [natBytes 8 data.length, data, natBytes 8 data1.length, data1]
    | .unlink => [natBytes 8 data.length, data]
    | .update => [intBytes 4 fd, intBytes 8 offset, natBytes 8 data.length, data]
    | _ => []
  | _ => []

/-- What the replay has read is from the record of its function. -/
def Replay.OwnRecord (r : Replay) : Prop :=
  r.reads <+: r.fn.replayed ∧ (r.stage = .reading [] → r.reads = r.fn.replayed)

instance (r : Replay) : Decidable r.OwnRecord := inferInstanceAs (Decidable (_ ∧ (_ → _)))

/-! ## What the log keeps -/

/-- A record has this LRN. -/
def HasLRN (rs : List LogRecord) (l : Int) : Prop := ∃ r ∈ rs, r.LRN = l

/-- The records that were there are still there; their links may have changed. -/
def Extends (rs rs' : List LogRecord) : Prop :=
  ∀ r ∈ rs, ∃ r' ∈ rs', r'.LRN = r.LRN ∧ r'.toEntry = r.toEntry

/-- The records behind the bytes `prior`: their LRNs are their offsets, and their lengths are
    of type `size_t`. -/
structure Records (prior : List UInt8) (rs : List LogRecord) : Prop where
  offsets : Offsets prior.length rs
  lengths : ∀ r ∈ rs, r.data.length < 2 ^ 64 ∧ r.data1.length < 2 ^ 64

section

variable {prior part : List UInt8} {rs rs' pre post : List LogRecord} {r r' : LogRecord} {l : Int}
  {e : Entry}

theorem Extends.refl (rs : List LogRecord) : Extends rs rs := fun r hr => ⟨r, hr, rfl, rfl⟩

theorem extends_snoc : Extends rs (rs ++ [r]) :=
  fun r hr => ⟨r, List.mem_append_left _ hr, rfl, rfl⟩

theorem extends_replace (hlrn : r'.LRN = r.LRN) (hentry : r'.toEntry = r.toEntry) :
    Extends (pre ++ r :: post) (pre ++ r' :: post) := by
  intro r'' hr''
  rcases List.mem_append.mp hr'' with hmem | hmem
  · exact ⟨r'', List.mem_append_left _ hmem, rfl, rfl⟩
  · rcases List.mem_cons.mp hmem with rfl | hmem
    · exact ⟨r', by simp, hlrn, hentry⟩
    · exact ⟨r'', by simp [hmem], rfl, rfl⟩

theorem HasLRN.extend (h : HasLRN rs l) (hrs : Extends rs rs') : HasLRN rs' l := by
  obtain ⟨r, hr, rfl⟩ := h
  obtain ⟨r', hr', hlrn, -⟩ := hrs r hr
  exact ⟨r', hr', hlrn⟩

/-- A record lies at its LRN. -/
theorem Records.split (h : Records prior rs) (hr : r ∈ rs) :
    ∃ pre post, rs = pre ++ r :: post ∧ r.LRN = (prior ++ encode pre).length := by
  obtain ⟨pre, post, rfl⟩ := List.append_of_mem hr
  refine ⟨pre, post, rfl, ?_⟩
  rw [List.length_append]
  exact (offsets_append.mp h.offsets).2.1

theorem Records.nonneg (h : Records prior rs) (hl : HasLRN rs l) : 0 ≤ l := by
  obtain ⟨r, hr, rfl⟩ := hl
  obtain ⟨pre, post, -, hlrn⟩ := h.split hr
  rw [hlrn]
  exact Int.natCast_nonneg _

/-- The records behind the assignment to a `next_LRN`. -/
theorem Records.patch (h : Records prior (pre ++ r :: post)) :
    Records prior (pre ++ { r with nextLRN := l } :: post) where
  offsets := by
    have hlength : (LogRecord.bytes { r with nextLRN := l }).length = r.bytes.length := by
      rw [LogRecord.length_bytes, LogRecord.length_bytes]
    exact offsets_replace h.offsets rfl hlength
  lengths := by
    intro r' hr'
    rcases List.mem_append.mp hr' with hmem | hmem
    · exact h.lengths r' (List.mem_append_left _ hmem)
    · rcases List.mem_cons.mp hmem with rfl | hmem
      · exact h.lengths r (by simp)
      · exact h.lengths r' (by simp [hmem])

theorem Records.snoc (h : Records prior rs) (hlrn : r.LRN = (prior ++ encode rs).length)
    (hdata : r.data.length < 2 ^ 64) (hdata1 : r.data1.length < 2 ^ 64) :
    Records prior (rs ++ [r]) where
  offsets := by
    rw [List.length_append] at hlrn
    exact offsets_snoc h.offsets hlrn
  lengths := by
    intro r' hr'
    rcases List.mem_append.mp hr' with hmem | hmem
    · exact h.lengths r' hmem
    · rw [List.mem_singleton.mp hmem]
      exact ⟨hdata, hdata1⟩

theorem placed_append {off : Int} {bss : List (List UInt8)} {bs : List UInt8} :
    placed off (bss ++ [bs]) = placed off bss ++ [(off + bss.flatten.length, bs)] := by
  induction bss generalizing off with
  | nil => simp [placed]
  | cons bs' bss ih =>
    simp only [List.cons_append, placed, ih, List.flatten_cons, List.length_append, Nat.cast_add,
      Int.add_assoc]

theorem placed_prefix {off : Int} {bss todo : List (List UInt8)} :
    placed off bss <+: placed off (bss ++ todo) := by
  induction bss generalizing off with
  | nil => exact List.nil_prefix
  | cons bs bss ih => exact (List.prefix_cons_inj _).mpr ih

end

/-! ## A log function between two of its calls -/

/-- Where its own last call has left the position. `size` is the size of the file without what
    the function has appended, `part`. -/
def AppendPos (size : Nat) (part : List UInt8) (a : Append) (pos : Nat) : Prop :=
  match a.stage with
  | .locked | .told _ | .patched _ => True
  | .atEnd => pos = size
  | .atPrev _ => a.prevLRN = some (pos : Int)
  | .atNext _ => ∃ prevLRN, a.prevLRN = some prevLRN ∧ (pos : Int) = prevLRN + 20
  | .writing _ _ => pos = size + part.length

/-- What it has written so far. -/
def AppendDone (size : Nat) (part : List UInt8) (a : Append) : Prop :=
  match a.stage with
  | .locked | .atEnd => part = [] ∧ a.writes = []
  | .told l | .atPrev l | .atNext l => part = [] ∧ a.writes = [] ∧ l = size
  | .patched l => part = [] ∧ a.writes = patchAt l a.prevLRN ∧ l = size
  | .writing l todo => l = size ∧ ∃ done, (a.fn.record a.prevLRN l).fields = done ++ todo ∧
      part = done.flatten ∧ a.writes = patchAt l a.prevLRN ++ placed l done

structure AppendInv (rs : List LogRecord) (size : Nat) (part : List UInt8) (a : Append) :
    Prop where
  data : a.fn.entry.data.length < 2 ^ 64
  data1 : a.fn.entry.data1.length < 2 ^ 64
  prev : ∀ prevLRN, a.prevLRN = some prevLRN → HasLRN rs prevLRN
  done : AppendDone size part a

section

variable {prior part : List UInt8} {rs rs' : List LogRecord} {a : Append} {f : File}
  {c : StdioCall} {stage : AppendStage} {size : Nat}

/-- What it has written is where it means to write. -/
theorem AppendInv.inPlace (h : AppendInv rs size part a) : a.InPlace := by
  obtain ⟨fn, prevLRN, stage, writes⟩ := a
  have hdone := h.done
  cases stage with
  | locked | atEnd =>
    obtain ⟨-, rfl⟩ : part = [] ∧ writes = [] := hdone
    exact ⟨List.nil_prefix, False.elim⟩
  | told l | atPrev l | atNext l =>
    obtain ⟨-, rfl, -⟩ : part = [] ∧ writes = [] ∧ l = size := hdone
    exact ⟨List.nil_prefix, False.elim⟩
  | patched l =>
    obtain ⟨-, rfl, -⟩ : part = [] ∧ writes = patchAt l prevLRN ∧ l = size := hdone
    exact ⟨List.prefix_append _ _, False.elim⟩
  | writing l todo =>
    obtain ⟨-, done, hfields, -, hwrites⟩ := hdone
    have hintended : Append.intended ⟨fn, prevLRN, .writing l todo, writes⟩ =
        patchAt l prevLRN ++ placed l (done ++ todo) := by
      rw [← hfields]
      rfl
    constructor
    · rw [hintended]
      show writes <+: _
      rw [show writes = _ from hwrites]
      exact (List.prefix_append_right_inj _).mpr placed_prefix
    · intro hfinished
      cases todo with
      | nil =>
        rw [hintended, List.append_nil]
        exact hwrites
      | cons bs todo => exact hfinished.elim

/-- **A call of a log function**, which has found the position it relies on. -/
theorem append_call (hrs : Records prior rs) (hf : f.bytes = prior ++ encode rs ++ part)
    (h : AppendInv rs (prior ++ encode rs).length part a) (hnext : a.next f = some (c, stage))
    (hpos : c.Relative → AppendPos (prior ++ encode rs).length part a f.pos) :
    ∃ rs' part', Records prior rs' ∧ Extends rs rs' ∧
      (c.run f).bytes = prior ++ encode rs' ++ part' ∧
      AppendInv rs' (prior ++ encode rs').length part' (a.take f c stage) ∧
      AppendPos (prior ++ encode rs').length part' (a.take f c stage) (c.run f).pos := by
  obtain ⟨fn, prevLRN, now, writes⟩ := a
  obtain ⟨hdata, hdata1, hprev, hdone⟩ := h
  cases now with
  | locked =>
    cases hnext
    -- nothing of the record is written yet
    obtain ⟨rfl, rfl⟩ : part = [] ∧ writes = [] := hdone
    have hsize : f.bytes.length = (prior ++ encode rs).length := by rw [hf, List.append_nil]
    exact ⟨rs, [], hrs, .refl rs, hf, ⟨hdata, hdata1, hprev, rfl, rfl⟩, hsize⟩
  | atEnd =>
    cases hnext
    obtain ⟨rfl, rfl⟩ : part = [] ∧ writes = [] := hdone
    -- the file still ends with the last record, and `ftell` tells where
    have hat : f.pos = (prior ++ encode rs).length := hpos trivial
    have htell : f.tell = (prior ++ encode rs).length := congrArg Nat.cast hat
    exact ⟨rs, [], hrs, .refl rs, hf, ⟨hdata, hdata1, hprev, rfl, rfl, htell⟩, trivial⟩
  | told l =>
    obtain ⟨rfl, rfl, hl⟩ : part = [] ∧ writes = [] ∧ l = (prior ++ encode rs).length := hdone
    cases prevLRN with
    | none =>
      -- `log_txn_beg` goes on to its record
      cases hnext
      have hsize : f.bytes.length = (prior ++ encode rs).length := by rw [hf, List.append_nil]
      exact ⟨rs, [], hrs, .refl rs, hf,
        ⟨hdata, hdata1, hprev, hl, [], rfl, rfl, rfl⟩, hsize⟩
    | some prevLRN =>
      cases hnext
      -- the others go to the record before this one
      have hseek : (f.seekSet prevLRN).bytes = prior ++ encode rs ++ [] := by
        rw [File.bytes_seekSet, hf]
      have hnonneg := hrs.nonneg (hprev prevLRN rfl)
      refine ⟨rs, [], hrs, .refl rs, hseek, ⟨hdata, hdata1, hprev, rfl, rfl, hl⟩, ?_⟩
      show some prevLRN = some ((f.seekSet prevLRN).pos : Int)
      rw [File.seekSet, if_pos hnonneg]
      exact congrArg some (Int.toNat_of_nonneg hnonneg).symm
  | atPrev l =>
    cases hnext
    obtain ⟨rfl, rfl, hl⟩ : part = [] ∧ writes = [] ∧ l = (prior ++ encode rs).length := hdone
    have hat : prevLRN = some (f.pos : Int) := hpos trivial
    -- from there to its `nextLRN`
    have hseek : f.seekCur (8 + 4 + 8) = ⟨f.bytes, f.pos + 20⟩ := File.seekCur_nat (n := 20)
    refine ⟨rs, [], hrs, .refl rs, ?_, ⟨hdata, hdata1, hprev, rfl, rfl, hl⟩, f.pos, hat, ?_⟩
    · rw [StdioCall.run, hseek, hf]
    · rw [StdioCall.run, hseek]
      rfl
  | atNext l =>
    cases hnext
    obtain ⟨rfl, rfl, hl⟩ : part = [] ∧ writes = [] ∧ l = (prior ++ encode rs).length := hdone
    obtain ⟨prevLRN, rfl, hat⟩ : ∃ p, prevLRN = some p ∧ (f.pos : Int) = p + 20 := hpos trivial
    -- the function changes a record of its transaction, and nothing else
    obtain ⟨r, hr, rfl⟩ := hprev prevLRN rfl
    obtain ⟨pre, post, rfl, hlrn⟩ := hrs.split hr
    have hpos' : f.pos = (prior ++ encode pre).length + 20 := by
      rw [hlrn] at hat
      exact_mod_cast hat
    have hbytes : f.bytes = (prior ++ encode pre) ++ r.bytes ++ encode post := by
      rw [hf]
      simp
    have hlength : (prior ++ encode (pre ++ { r with nextLRN := l } :: post)).length =
        (prior ++ encode (pre ++ r :: post)).length := by
      simp [LogRecord.length_bytes]
    have hextends : Extends (pre ++ r :: post) (pre ++ { r with nextLRN := l } :: post) :=
      extends_replace rfl rfl
    refine ⟨pre ++ { r with nextLRN := l } :: post, [], hrs.patch, hextends, ?_,
      ⟨hdata, hdata1, fun p hp => (hprev p hp).extend hextends, rfl, ?_, ?_⟩, trivial⟩
    · rw [StdioCall.run, write_nextLRN hbytes hpos']
      simp
    · show [(f.tell, intBytes 8 l)] = [(r.LRN + 20, intBytes 8 l)]
      rw [← hat]
      rfl
    · rw [hlength]
      exact hl
  | patched l =>
    cases hnext
    obtain ⟨rfl, rfl, hl⟩ :
      part = [] ∧ writes = patchAt l prevLRN ∧ l = (prior ++ encode rs).length := hdone
    have hsize : f.bytes.length = (prior ++ encode rs).length := by rw [hf, List.append_nil]
    exact ⟨rs, [], hrs, .refl rs, hf, ⟨hdata, hdata1, hprev, hl, [], rfl, rfl, rfl⟩, hsize⟩
  | writing l todo =>
    cases todo with
    | nil => cases hnext
    | cons bs todo =>
      cases hnext
      -- one field more goes to the end of the file
      obtain ⟨hl, done, hfields, hpart, hwrites⟩ := hdone
      have hat : f.pos = (prior ++ encode rs).length + part.length := hpos trivial
      have hfile : f = ⟨prior ++ encode rs ++ part, (prior ++ encode rs ++ part).length⟩ := by
        rw [← hf, hf, List.length_append, ← hat, ← hf]
      have hwrite : f.write bs = ⟨prior ++ encode rs ++ (part ++ bs),
          (prior ++ encode rs ++ (part ++ bs)).length⟩ := by
        rw [hfile, File.write_end]
        simp only [List.append_assoc]
      refine ⟨rs, part ++ bs, hrs, .refl rs, ?_,
        ⟨hdata, hdata1, hprev, hl, done ++ [bs], ?_, ?_, ?_⟩, ?_⟩
      · rw [StdioCall.run, hwrite]
      · rw [List.append_assoc]
        exact hfields
      · rw [hpart]
        simp
      · show writes ++ [(f.tell, bs)] = _
        have htell : f.tell = l + done.flatten.length := by
          rw [hl, ← hpart]
          exact congrArg Nat.cast hat
        rw [show writes = _ from hwrites, htell, placed_append, List.append_assoc]
        rfl
      · rw [StdioCall.run, hwrite]
        exact List.length_append

end

/-! ## A replay between two of its calls -/

/-- The sizes of the reads are the lengths of the parts. -/
def Fits : List (List UInt8) → List ReadSize → List (List UInt8) → Prop
  | _, [], [] => True
  | reads, size :: sizes, bs :: bss => bs.length = size.of reads ∧ Fits (reads ++ [bs]) sizes bss
  | _, _, _ => False

/-- The parts lie at the offset of every record of the function. -/
def Within (fn : LogFn) (offset : Nat) : Prop :=
  ∀ t : LogRecord, t.toEntry = fn.entry →
    ∃ before after, before.length = offset ∧ t.bytes = before ++ fn.replayed.flatten ++ after

/-- Where its own last call has left the position. -/
def ReplayPos (r : Replay) (pos : Nat) : Prop :=
  match r.stage with
  | .start => True
  | .atRecord => (pos : Int) = r.LRN
  | .reading _ => (pos : Int) = r.LRN + (r.offset + r.reads.flatten.length : Nat)

/-- What it has read so far. -/
def ReplayDone (r : Replay) : Prop :=
  match r.stage with
  | .start | .atRecord => r.reads = [] ∧ Fits [] r.sizes r.fn.replayed
  | .reading todo => ∃ rest, r.fn.replayed = r.reads ++ rest ∧ Fits r.reads todo rest

structure ReplayInv (rs : List LogRecord) (r : Replay) : Prop where
  record : ∃ t ∈ rs, t.LRN = r.LRN ∧ t.toEntry = r.fn.entry
  within : Within r.fn r.offset
  done : ReplayDone r

section

variable {prior part : List UInt8} {rs rs' : List LogRecord} {r : Replay} {f : File}
  {c : StdioCall} {stage : ReplayStage}

/-- Every replay function reads its own kind of record. -/
theorem delayed_fits {type : LogType} {offset : Nat} {sizes : List ReadSize} {t fd off : Int}
    {data data1 : List UInt8} (h : delayed type = some (offset, sizes))
    (hdata : data.length < 2 ^ 64) (hdata1 : data1.length < 2 ^ 64) :
    Within (.logRecord type t fd off data data1) offset ∧
      Fits [] sizes (LogFn.replayed (.logRecord type t fd off data data1)) := by
  have hsize := bytesNat_size hdata
  have hsize1 := bytesNat_size hdata1
  -- five fields, then `fd` and `offset`, then the two buffers
  have hfields : ∀ t' : LogRecord, t'.toEntry = ⟨t, type.code, fd, off, data, data1⟩ →
      ∃ links, links.length = 32 ∧ t'.bytes = links ++ (intBytes 4 fd ++ intBytes 8 off) ++
        (natBytes 8 data.length ++ data) ++ (natBytes 8 data1.length ++ data1) := by
    rintro ⟨_, lrn, prev, next⟩ rfl
    refine ⟨intBytes 8 lrn ++ intBytes 4 t ++ intBytes 8 prev ++ intBytes 8 next ++
      intBytes 4 type.code, ?_, ?_⟩
    · simp
    · simp [LogRecord.bytes, LogRecord.fields]
  cases type with
  | txnBeg | txnCommit | txnAbort | txnEnd => cases h
  | rename | creat =>
    cases h
    constructor
    · intro t' ht'
      obtain ⟨links, hlinks, hbytes⟩ := hfields t' ht'
      refine ⟨links ++ (intBytes 4 fd ++ intBytes 8 off), [], ?_, ?_⟩
      · simp [hlinks]
      · rw [hbytes]
        simp [LogFn.replayed]
    · simp [LogFn.replayed, Fits, ReadSize.of, hsize, hsize1]
  | unlink =>
    cases h
    constructor
    · intro t' ht'
      obtain ⟨links, hlinks, hbytes⟩ := hfields t' ht'
      refine ⟨links ++ (intBytes 4 fd ++ intBytes 8 off),
        natBytes 8 data1.length ++ data1, ?_, ?_⟩
      · simp [hlinks]
      · rw [hbytes]
        simp [LogFn.replayed]
    · simp [LogFn.replayed, Fits, ReadSize.of, hsize]
  | update =>
    cases h
    constructor
    · intro t' ht'
      obtain ⟨links, hlinks, hbytes⟩ := hfields t' ht'
      refine ⟨links, natBytes 8 data1.length ++ data1, ?_, ?_⟩
      · simp [hlinks]
      · rw [hbytes]
        simp [LogFn.replayed]
    · simp [LogFn.replayed, Fits, ReadSize.of, hsize]

theorem ReplayInv.extend (h : ReplayInv rs r) (hrs : Extends rs rs') : ReplayInv rs' r := by
  obtain ⟨⟨t, ht, hlrn, hentry⟩, hwithin, hdone⟩ := h
  obtain ⟨t', ht', hlrn', hentry'⟩ := hrs t ht
  exact ⟨⟨t', ht', hlrn'.trans hlrn, hentry'.trans hentry⟩, hwithin, hdone⟩

/-- What it has read is from the record of its function. -/
theorem ReplayInv.ownRecord (h : ReplayInv rs r) : r.OwnRecord := by
  obtain ⟨fn, lrn, offset, sizes, stage, reads⟩ := r
  have hdone := h.done
  cases stage with
  | start | atRecord =>
    obtain ⟨rfl, -⟩ : reads = [] ∧ Fits [] sizes fn.replayed := hdone
    exact ⟨List.nil_prefix, fun hstage => nomatch hstage⟩
  | reading todo =>
    obtain ⟨rest, hrest, hfits⟩ : ∃ rest, fn.replayed = reads ++ rest ∧ Fits reads todo rest := hdone
    constructor
    · show reads <+: fn.replayed
      rw [hrest]
      exact List.prefix_append _ _
    · intro hstage
      cases hstage
      cases rest with
      | nil => exact (hrest.trans (List.append_nil _)).symm
      | cons bs rest => exact hfits.elim

/-- **A call of a replay**, which has found the position it relies on. -/
theorem replay_call (hrs : Records prior rs) (hf : f.bytes = prior ++ encode rs ++ part)
    (h : ReplayInv rs r) (hnext : r.next = some (c, stage))
    (hpos : c.Relative → ReplayPos r f.pos) :
    (c.run f).bytes = f.bytes ∧ ReplayInv rs (r.take f c stage) ∧
      ReplayPos (r.take f c stage) (c.run f).pos := by
  obtain ⟨fn, lrn, offset, sizes, now, reads⟩ := r
  obtain ⟨⟨t, ht, hlrn, hentry⟩, hwithin, hdone⟩ := h
  change t.LRN = lrn at hlrn
  change Within fn offset at hwithin
  cases now with
  | start =>
    cases hnext
    obtain ⟨rfl, hfits⟩ : reads = [] ∧ Fits [] sizes fn.replayed := hdone
    refine ⟨File.bytes_seekSet, ⟨⟨t, ht, hlrn, hentry⟩, hwithin, rfl, hfits⟩, ?_⟩
    -- the seek goes to the record, which is in the file
    have hnonneg := hrs.nonneg ⟨t, ht, hlrn⟩
    show ((f.seekSet lrn).pos : Int) = lrn
    rw [File.seekSet, if_pos hnonneg]
    exact Int.toNat_of_nonneg hnonneg
  | atRecord =>
    cases hnext
    obtain ⟨rfl, hfits⟩ : reads = [] ∧ Fits [] sizes fn.replayed := hdone
    have hat : (f.pos : Int) = lrn := hpos trivial
    refine ⟨File.bytes_seekCur, ⟨⟨t, ht, hlrn, hentry⟩, hwithin, fn.replayed, rfl, hfits⟩, ?_⟩
    show ((f.seekCur offset).pos : Int) = lrn + (offset + 0 : Nat)
    rw [File.seekCur_nat, ← hat]
    exact Int.natCast_add _ _
  | reading todo =>
    cases todo with
    | nil => cases hnext
    | cons size todo =>
      cases hnext
      obtain ⟨rest, hrest, hfits⟩ :
        ∃ rest, fn.replayed = reads ++ rest ∧ Fits reads (size :: todo) rest := hdone
      cases rest with
      | nil => exact hfits.elim
      | cons bs rest =>
        have hat : (f.pos : Int) = lrn + (offset + reads.flatten.length : Nat) := hpos trivial
        -- the file is split at the position
        obtain ⟨pre, post, rfl, hoff⟩ := hrs.split ht
        obtain ⟨before, after, hlength, hbytes⟩ := hwithin t hentry
        have hfile : f.rest = bs ++ (rest.flatten ++ after ++ encode post ++ part) := by
          have hposNat : (prior ++ encode pre ++ before ++ reads.flatten).length = f.pos := by
            rw [← hlrn, hoff] at hat
            simp only [List.length_append, hlength] at hat ⊢
            omega
          have hsplit : f = ⟨(prior ++ encode pre ++ before ++ reads.flatten) ++
              (bs ++ (rest.flatten ++ after ++ encode post ++ part)), f.pos⟩ := by
            show File.mk f.bytes f.pos = _
            rw [hf, encode_append, encode_cons, hbytes, hrest]
            simp
          rw [hsplit]
          exact File.rest_mk hposNat
        -- so this is the field that was written
        have hread := File.read_rest hfile hfits.1
        have hreads : (f.read (size.of reads)).1 = bs := by rw [hread]
        refine ⟨rfl, ⟨⟨t, ht, hlrn, hentry⟩, hwithin, rest, ?_, ?_⟩, ?_⟩
        · show fn.replayed = (reads ++ [(f.read (size.of reads)).1]) ++ rest
          rw [hreads, hrest]
          simp
        · show Fits (reads ++ [(f.read (size.of reads)).1]) todo rest
          rw [hreads]
          exact hfits.2
        · show ((f.read (size.of reads)).2.pos : Int) =
            lrn + (offset + (reads ++ [(f.read (size.of reads)).1]).flatten.length : Nat)
          have hlen : (reads ++ [bs]).flatten.length = reads.flatten.length + bs.length := by
            rw [List.flatten_append, List.length_append, List.flatten_singleton]
          rw [File.pos_read, hreads, hlen]
          omega

end

end EventLog

end TxFS
