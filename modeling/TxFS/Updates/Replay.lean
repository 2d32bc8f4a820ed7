import Mathlib.Data.List.Forall2
import Mathlib.Data.List.TakeWhile
import TxFS.EventLog.Locations
import TxFS.Updates.Deferred

/-!
# Replaying the Deferred Writes

The position and the size in the record of a file stand for those of the file with the direct
calls. They do as long as every seek goes to an offset that the file accepts, and one to the end
is made where the tracked size is that of the file: the record is created with the size 0.

`delayedWrite_eq_direct` is the simulation: at the end of such a run the replay from the log leaves
the content of the direct calls.
-/

namespace TxFS

open BinaryFile EventLog GuardedRun

namespace Deferred

/-! ## One record of the log -/

section

variable {rs : List LogRecord} {r : LogRecord} {log : File}

/-- `delayed_write` reads what `log_write` has written. -/
theorem readWrite_of_mem (h : Offsets 0 rs) (hr : r ∈ rs) (hrange : r.InRange)
    (hlog : log.bytes = encode rs) :
    (readWrite log r.LRN).1 = (r.fd, r.offset, r.data) ∧ (readWrite log r.LRN).2.bytes = encode rs := by
  obtain ⟨pre, post, rfl⟩ := List.append_of_mem hr
  have hpos := h.LRN_eq
  rw [Nat.zero_add] at hpos
  have hseek : (log.seekSet r.LRN).seekCur (8 + 4 + 8 + 8 + 4) =
      ⟨encode (pre ++ r :: post), (encode pre).length + 32⟩ := by
    rw [hpos, File.seekSet_nat, ← hlog]
    exact File.seekCur_nat (n := 32)
  obtain ⟨hfd, hrest⟩ := readInt_rest (rest_record pre post r) (bytesInt_int hrange.fd)
  obtain ⟨hoffset, hrest⟩ := readInt_rest hrest (bytesInt_long hrange.offset)
  obtain ⟨f', hdata, -⟩ := readData_rest hrest hrange.data
  have hbytes : f'.bytes = encode (pre ++ r :: post) := by
    have hforward := forward_readData ((File.advance ⟨encode (pre ++ r :: post),
      (encode pre).length + 32⟩ 4).advance 8)
    rw [hdata] at hforward
    exact hforward.bytes
  have hread : readWrite log r.LRN = ((r.fd, r.offset, r.data), f') := by
    simp only [readWrite, hseek, hfd, hoffset, hdata]
  rw [hread]
  exact ⟨rfl, hbytes⟩

end

/-! ## The recorded writes -/

/-- The log holds the write `e` to the file `fd` for a record of `writes_at`. -/
def Recorded (history : List Entry) (fd : Int) (w : WriteRecord) (e : Int × List UInt8) : Prop :=
  ∃ entry : Entry, (w.LRN, entry) ∈ locate 0 history ∧ entry.fd = fd ∧ entry.offset = e.1 ∧
    entry.data = e.2

section

variable {rs : List LogRecord} {l : EventLog} {log : File} {fd : Int} {ws : List WriteRecord}
  {es : List (Int × List UInt8)} {files : Int → OpenFile}

/-- **`delayed_write`** replays the recorded writes. -/
theorem delayedWrite_eq_replay (hinv : Inv l rs) (hlog : log.bytes = encode rs)
    (h : List.Forall₂ (Recorded l.history fd) ws es) :
    delayedWrite ws log files fd = (files fd).replay es := by
  induction h generalizing log files with
  | nil => rfl
  | @cons w e ws es hw hws ih =>
    obtain ⟨entry, hmem, hfd, hoffset, hdata⟩ := hw
    obtain ⟨r, hr, hlrn, rfl⟩ := hinv.exists_record hmem
    have hrange := hinv.wellFormed.inRange r hr
    obtain ⟨hread, hbytes⟩ := readWrite_of_mem hinv.wellFormed.offsets hr hrange hlog
    rw [hlrn] at hread hbytes
    have hpair : readWrite log w.LRN = ((fd, e.1, e.2), (readWrite log w.LRN).2) := by
      rw [← hfd, ← hoffset, ← hdata, ← hread]
    rw [delayedWrite, hpair]
    simp only [ih hbytes, Function.update_self]
    rfl

end

/-! ## The simulation -/

/-- The data of a write has the stated length, and a seek goes to an offset that the file
    accepts; to the end of the file, with the size as it is tracked. -/
def Allowed (s : Session) : Event → Prop
  | .write writeLength data => data.length = writeLength ∧ 0 ∉ data
  | .seek offset whence => s.direct.Placing → s.direct.Accepts offset whence ∧
      (whence = 2 → s.lock.fileSize = s.direct.bytes.length)
  | .log _ => True

instance (s : Session) : ∀ ev, Decidable (Allowed s ev)
  | .write _ _ => inferInstanceAs (Decidable (_ ∧ _))
  | .seek _ _ => inferInstanceAs (Decidable (_ → _ ∧ (_ → _)))
  | .log _ => inferInstanceAs (Decidable True)

/-- The writes `es` have been made, and those to the record stand for them. -/
structure Simulates (s : Session) (es : List (Int × List UInt8)) : Prop where
  recorded : List.Forall₂ (Recorded s.log.history s.lock.fd) s.lock.writesAt es
  bytes : s.direct.bytes = s.file.content es
  writable : s.direct.writable = s.file.writable
  append : s.direct.append = s.file.append
  flags : s.file.append = true ↔ s.lock.flags = 3 ∨ s.lock.flags = 4
  seeks : s.file.Seeks es
  pos : s.file.Placing → s.lock.fileOffset = s.direct.pos

section

variable {s s' : Session} {es : List (Int × List UInt8)} {rs : List LogRecord}
  {offset whence : Int} {writeLength : Nat} {data : List UInt8}

theorem Simulates.placing (h : Simulates s es) : s.direct.Placing ↔ s.file.Placing := by
  rw [OpenFile.Placing, OpenFile.Placing, h.writable, h.append]

theorem simulates_onOpen {bytes : List UInt8} {inode flags txnid fd : Int} {log : EventLog} :
    Simulates (onOpen bytes inode flags txnid fd log) [] where
  recorded := .nil
  bytes := rfl
  writable := rfl
  append := rfl
  flags := by simp [onOpen, openFile, getFileNode]
  seeks := by simp [OpenFile.Seeks]
  pos _ := rfl

theorem Simulates.log (h : Simulates s es) {ev : EventLog.Event} {log : EventLog}
    (hstep : s.log.step ev = some log) : Simulates { s with log := log } es where
  recorded := h.recorded.imp fun _ _ ⟨entry, hmem, hentry⟩ => ⟨entry, locate_step hstep hmem, hentry⟩
  bytes := h.bytes
  writable := h.writable
  append := h.append
  flags := h.flags
  seeks := h.seeks
  pos := h.pos

theorem Simulates.seek (h : Simulates s es) (hok : Allowed s (.seek offset whence)) :
    Simulates { s with
      lock := updateOnLseek offset whence s.lock
      direct := (s.direct.lseek offset whence).2 } es where
  recorded := h.recorded
  bytes := OpenFile.bytes_lseek.trans h.bytes
  writable := OpenFile.writable_lseek.trans h.writable
  append := OpenFile.append_lseek.trans h.append
  flags := h.flags
  seeks := h.seeks
  pos hplacing := by
    obtain ⟨haccepts, hsize⟩ := hok (h.placing.mpr hplacing)
    have hpos := h.pos hplacing
    show (updateOnLseek offset whence s.lock).fileOffset = ((s.direct.lseek offset whence).2.pos : Int)
    rw [OpenFile.pos_lseek haccepts, Int.toNat_of_nonneg haccepts.1]
    simp only [updateOnLseek, OpenFile.target]
    split
    · rfl
    · split
      · rw [hpos]
      · split
        · rename_i hend
          rw [hsize hend, Int.add_comm]
        · rename_i hset hcur hend
          have hnonneg := haccepts.1
          simp [OpenFile.target, hset, hcur, hend] at hnonneg

/-! ### A write -/

/-- The offset is the tracked one, or the file is sought to its end. -/
theorem writeOffset_cases (c : FileLock) (file : OpenFile) :
    ((c.flags = 3 ∨ c.flags = 4) ∧ ∃ offset,
      writeOffset c file = (offset, file) ∨ writeOffset c file = (offset, (file.lseek 0 2).2)) ∨
    (¬ (c.flags = 3 ∨ c.flags = 4) ∧ writeOffset c file = (c.fileOffset, file)) := by
  unfold writeOffset
  split
  · rename_i happend
    refine .inl ⟨happend, ?_⟩
    split
    · exact ⟨(file.lseek 0 2).1, .inr Prod.mk.eta.symm⟩
    · exact ⟨_, .inl rfl⟩
  · rename_i hplacing
    exact .inr ⟨hplacing, rfl⟩

/-- What a write does not change of the file. -/
theorem writeOffset_file {c : FileLock} {f file : OpenFile} (h : writeOffset c f = (offset, file)) :
    file.writable = f.writable ∧ file.append = f.append ∧ ∀ es, file.content es = f.content es := by
  have hfile : file = f ∨ file = (f.lseek 0 2).2 := by
    rcases writeOffset_cases c f with ⟨-, o, heq | heq⟩ | ⟨-, heq⟩
    · rw [heq] at h
      exact .inl (Prod.mk.inj h).2.symm
    · rw [heq] at h
      exact .inr (Prod.mk.inj h).2.symm
    · rw [heq] at h
      exact .inl (Prod.mk.inj h).2.symm
  rcases hfile with heq | heq <;> rw [heq]
  · exact ⟨rfl, rfl, fun _ => rfl⟩
  · exact ⟨OpenFile.writable_lseek, OpenFile.append_lseek, fun _ => OpenFile.content_lseek⟩

/-- What `write_log` does. -/
theorem writeLog_eq_some (h : writeLog writeLength data s = some s') :
    ∃ offset file log, writeOffset s.lock s.file = (offset, file) ∧
      s.log.step (.call s.lock.parentTxn (.write s.lock.fd offset writeLength data)) = some log ∧
      s' = { s with
        lock := { s.lock with
          fileOffset := offset + writeLength
          fileSize := if offset + writeLength > s.lock.fileSize then offset + writeLength
            else s.lock.fileSize
          writesAt := s.lock.writesAt ++ [⟨offset, writeLength, s.log.file.bytes.length⟩] }
        log := log
        file := file } := by
  cases hoffset : writeOffset s.lock s.file with
  | mk offset file =>
    rw [writeLog, hoffset] at h
    obtain ⟨log, hlog, hs'⟩ := Option.bind_eq_some_iff.mp h
    exact ⟨offset, file, log, rfl, hlog, (Option.some.inj hs').symm⟩

theorem Simulates.write (h : Simulates s es) (hinv : Inv s.log rs)
    (hok : Allowed s (.write writeLength data)) (hwrite : writeLog writeLength data s = some s') :
    ∃ offset, Simulates { s' with direct := s'.direct.write data } (es ++ [(offset, data)]) := by
  obtain ⟨hlength, hnul⟩ := hok
  obtain ⟨offset, file, log, hoffset, hlog, rfl⟩ := writeLog_eq_some hwrite
  obtain ⟨hwritable, happend, hcontent⟩ := writeOffset_file hoffset
  obtain ⟨_, -, ⟨-, hlong, -⟩, -⟩ := step_call hlog
  -- the file that places its writes takes the tracked offset
  have hplacing : file.Placing ↔ s.file.Placing := by
    rw [OpenFile.Placing, OpenFile.Placing, hwritable, happend]
  have htracked : s.file.Placing → offset = s.direct.pos := by
    intro hp
    rcases writeOffset_cases s.lock s.file with ⟨hflags, -⟩ | ⟨-, heq⟩
    · exact absurd (h.flags.mpr hflags) hp.2
    · rw [hoffset] at heq
      rw [← h.pos hp]
      exact congrArg Prod.fst heq
  have hdata : (cString data).take writeLength = data := by
    have hall : ∀ b ∈ data, decide (b ≠ 0) = true := by
      intro b hb
      exact decide_eq_true fun heq => hnul (heq ▸ hb)
    rw [cString, List.takeWhile_eq_self_iff.mpr hall, ← hlength, List.take_left]
  refine ⟨offset, ?_, ?_, ?_, ?_, ?_, ?_, ?_⟩
  case refine_1 =>
    refine List.rel_append (h.recorded.imp ?_) (.cons ?_ .nil)
    · rintro w e ⟨entry, hmem, hentry⟩
      exact ⟨entry, locate_step hlog hmem, hentry⟩
    · exact ⟨_, locate_call hinv hlog, rfl, rfl, hdata⟩
  case refine_2 =>
    show (s.direct.write data).bytes = file.content (es ++ [(offset, data)])
    rw [hcontent, OpenFile.content_snoc, OpenFile.bytes_write, OpenFile.written, ← h.bytes, h.writable,
      h.append]
    by_cases hp : s.file.Placing
    · rw [htracked hp, Int.toNat_natCast]
    · by_cases hw : s.file.writable
      · have ha : s.file.append = true := by
          by_contra ha
          exact hp ⟨hw, ha⟩
        simp [hw, ha]
      · simp [hw]
  case refine_3 =>
    exact OpenFile.writable_write.trans (h.writable.trans hwritable.symm)
  case refine_4 =>
    exact OpenFile.append_write.trans (h.append.trans happend.symm)
  case refine_5 =>
    rw [happend]
    exact h.flags
  case refine_6 =>
    intro hp e he
    rcases List.mem_append.mp he with he | he
    · exact h.seeks (hplacing.mp hp) e he
    · rw [List.mem_singleton.mp he]
      refine ⟨?_, hlong.2⟩
      show 0 ≤ offset
      rw [htracked (hplacing.mp hp)]
      exact Int.natCast_nonneg _
  case refine_7 =>
    intro hp
    have hp' := hplacing.mp hp
    show offset + (writeLength : Int) = ((s.direct.write data).pos : Int)
    rw [OpenFile.pos_write (h.placing.mpr hp'), htracked hp', hlength]
    exact (Int.natCast_add ..).symm

end

/-! ## Runs -/

section

variable {bytes : List UInt8} {inode flags txnid fd : Int} {log : EventLog} {s s' : Session}

/-- The log never shrinks. -/
theorem length_log_le_step {ev : Event} (h : step s ev = some s') :
    s.log.file.bytes.length ≤ s'.log.file.bytes.length := by
  cases ev with
  | write writeLength data =>
    obtain ⟨s₁, hwrite, rfl⟩ := Option.map_eq_some_iff.mp h
    obtain ⟨_, _, log, -, hlog, rfl⟩ := writeLog_eq_some hwrite
    exact length_le_step hlog
  | seek offset whence =>
    cases h
    exact Nat.le_refl _
  | log ev =>
    obtain ⟨log, hlog, rfl⟩ := Option.map_eq_some_iff.mp h
    exact length_le_step hlog

/-- The events of the log are those of its machine. -/
theorem reachable_log (hlog : Reachable globalInit EventLog.step log)
    (hs : ReachableUnder (onOpen bytes inode flags txnid fd log) step Allowed s) :
    Reachable globalInit EventLog.step s.log := by
  induction hs with
  | init => exact hlog
  | @step s s' ev _ _ hstep ih =>
    cases ev with
    | write writeLength data =>
      obtain ⟨s₁, hwrite, rfl⟩ := Option.map_eq_some_iff.mp hstep
      obtain ⟨_, _, log', -, hlog', rfl⟩ := writeLog_eq_some hwrite
      exact .step ih trivial hlog'
    | seek offset whence =>
      cases hstep
      exact ih
    | log ev =>
      obtain ⟨log', hlog', rfl⟩ := Option.map_eq_some_iff.mp hstep
      exact .step ih trivial hlog'

theorem simulates_of_reachable (hlog : Reachable globalInit EventLog.step log)
    (hs : ReachableUnder (onOpen bytes inode flags txnid fd log) step Allowed s)
    (hsize : s.log.file.bytes.length < 2 ^ 31) : ∃ es, Simulates s es := by
  induction hs with
  | init => exact ⟨[], simulates_onOpen⟩
  | @step s s' ev hs hok hstep ih =>
    -- the log was not longer before the step
    have hbefore := Nat.lt_of_le_of_lt (length_log_le_step hstep) hsize
    obtain ⟨es, hsim⟩ := ih hbefore
    cases ev with
    | write writeLength data =>
      obtain ⟨s₁, hwrite, rfl⟩ := Option.map_eq_some_iff.mp hstep
      obtain ⟨rs, hinv⟩ := inv_of_reachable (reachable_log hlog hs) hbefore
      obtain ⟨offset, hsim'⟩ := hsim.write hinv hok hwrite
      exact ⟨_, hsim'⟩
    | seek offset whence =>
      cases hstep
      exact ⟨es, hsim.seek hok⟩
    | log ev =>
      obtain ⟨log', hlog', rfl⟩ := Option.map_eq_some_iff.mp hstep
      exact ⟨es, hsim.log hlog'⟩

/-- **Deferred writes are direct writes**: `delayed_write` leaves the content that the same calls
    have made of the file directly. -/
theorem delayedWrite_eq_direct {files : Int → OpenFile}
    (hlog : Reachable globalInit EventLog.step log)
    (hs : ReachableUnder (onOpen bytes inode flags txnid fd log) step Allowed s)
    (hsize : s.log.file.bytes.length < 2 ^ 31) (hfile : files s.lock.fd = s.file) :
    (delayedWrite s.lock.writesAt s.log.file files s.lock.fd).bytes = s.direct.bytes := by
  obtain ⟨es, hsim⟩ := simulates_of_reachable hlog hs hsize
  obtain ⟨rs, hinv⟩ := inv_of_reachable (reachable_log hlog hs) hsize
  rw [delayedWrite_eq_replay hinv hinv.bytes hsim.recorded, hfile, hsim.bytes]
  exact (OpenFile.bytes_replay hsim.seeks).1

end

/-- Transaction 1 has begun. -/
def begunLog : EventLog :=
  (run EventLog.step globalInit [.logTxnBeg 1, .newTxnInsert 1]).getD globalInit

theorem reachable_begunLog : Reachable globalInit EventLog.step begunLog := by
  have hrun : run EventLog.step globalInit [.logTxnBeg 1, .newTxnInsert 1] = some begunLog := rfl
  exact reachableUnder_of_run .init hrun

/-- Two writes with a seek behind the end between them. -/
theorem delayedWrite_eq_direct_hole :
    ∃ s, ReachableUnder (onOpen [97, 98, 99] 7 2 1 3 begunLog) step Allowed s ∧
      s.direct.bytes = [88, 89, 99, 0, 90] ∧
      (delayedWrite s.lock.writesAt s.log.file (fun _ => s.file) s.lock.fd).bytes = s.direct.bytes := by
  obtain ⟨s, hs, hsize, hbytes⟩ := exists_of_runUnder (onOpen [97, 98, 99] 7 2 1 3 begunLog) step
    Allowed (fun s => s.log.file.bytes.length < 2 ^ 31 ∧ s.direct.bytes = [88, 89, 99, 0, 90])
    [.write 2 [88, 89], .seek 2 1, .write 1 [90]] (by decide +kernel)
  exact ⟨s, hs, hbytes, delayedWrite_eq_direct reachable_begunLog hs hsize rfl⟩

/-- A seek to the end of a file of three bytes, and a write. -/
theorem delayedWrite_overwrites :
    ∃ s, Reachable (onOpen [97, 98, 99] 7 2 1 3 begunLog) step s ∧
      s.direct.bytes = [97, 98, 99, 88] ∧
      (delayedWrite s.lock.writesAt s.log.file (fun _ => s.file) s.lock.fd).bytes = [88, 98, 99] :=
  exists_of_run (onOpen [97, 98, 99] 7 2 1 3 begunLog) step
    (fun s => s.direct.bytes = [97, 98, 99, 88] ∧
      (delayedWrite s.lock.writesAt s.log.file (fun _ => s.file) s.lock.fd).bytes = [88, 98, 99])
    [.seek 0 2, .write 1 [88]] (by decide +kernel)

end Deferred

end TxFS
