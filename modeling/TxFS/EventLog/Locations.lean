import TxFS.EventLog.Chains

/-!
# Locations of Log Records

The LRN of a record is determined by what was appended before it. A log function that is called
later changes links of the records, but neither their places nor what they say.
-/

namespace TxFS

open BinaryFile GuardedRun

namespace EventLog

/-- The number of bytes of a record for the entry. -/
def entryLength (e : Entry) : Nat := 60 + e.data.length + e.data1.length

/-- The LRNs of entries, the first of which is at `n`. -/
def locate : Nat → List Entry → List (Int × Entry)
  | _, [] => []
  | n, e :: es => (n, e) :: locate (n + entryLength e) es

section

variable {s s' : EventLog} {rs : List LogRecord} {es es' : List Entry} {e : Entry} {n : Nat}
  {l : Int}

theorem locate_append :
    locate n (es ++ es') = locate n es ++ locate (n + (es.map entryLength).sum) es' := by
  induction es generalizing n with
  | nil => simp [locate]
  | cons e es ih =>
    rw [List.cons_append, locate, ih, locate, List.cons_append, List.map_cons, List.sum_cons,
      Nat.add_assoc]

theorem Offsets.locate (h : Offsets n rs) :
    rs.map (fun r => (r.LRN, r.toEntry)) = locate n (rs.map LogRecord.toEntry) := by
  induction rs generalizing n with
  | nil => rfl
  | cons r rs ih =>
    obtain ⟨hr, hrs⟩ := h
    have hlength : r.bytes.length = entryLength r.toEntry := r.length_bytes
    rw [List.map_cons, List.map_cons, EventLog.locate, ← hlength, ih hrs, hr]

theorem length_encode :
    (encode rs).length = ((rs.map LogRecord.toEntry).map entryLength).sum := by
  induction rs with
  | nil => rfl
  | cons r rs ih =>
    have hlength : r.bytes.length = entryLength r.toEntry := r.length_bytes
    rw [encode_cons, List.length_append, ih, hlength]
    rfl

/-- An entry of the history is that of a record at its LRN. -/
theorem Inv.exists_record (h : Inv s rs) (he : (l, e) ∈ EventLog.locate 0 s.history) :
    ∃ r ∈ rs, r.LRN = l ∧ r.toEntry = e := by
  rw [← h.history, ← h.wellFormed.offsets.locate] at he
  obtain ⟨r, hr, heq⟩ := List.mem_map.mp he
  exact ⟨r, hr, congrArg Prod.fst heq, congrArg Prod.snd heq⟩

theorem Inv.length_file (h : Inv s rs) :
    s.file.bytes.length = (s.history.map entryLength).sum := by
  rw [h.bytes, length_encode, h.history]

/-- A step appends to the history. -/
theorem step_history {ev : Event} (h : EventLog.step s ev = some s') :
    ∃ es, s'.history = s.history ++ es := by
  cases ev with
  | logTxnBeg t =>
    obtain ⟨-, -, rfl⟩ := step_logTxnBeg h
    exact ⟨_, rfl⟩
  | newTxnInsert t =>
    obtain ⟨_, -, rfl⟩ := step_newTxnInsert h
    exact ⟨[], (List.append_nil _).symm⟩
  | call t c =>
    obtain ⟨_, -, -, -, _, -, rfl⟩ := step_call h
    exact ⟨_, rfl⟩
  | getPrevLogLRN t =>
    obtain ⟨_, -, -, rfl⟩ := step_getPrevLogLRN h
    exact ⟨[], (List.append_nil _).symm⟩
  | txnDelete t =>
    obtain ⟨_, _, -, -, rfl⟩ := step_txnDelete h
    exact ⟨[], (List.append_nil _).symm⟩
  | logTxnEnd t =>
    obtain ⟨_, -, rfl⟩ := step_logTxnEnd h
    exact ⟨_, rfl⟩

/-- Entries stay where they are. -/
theorem locate_step {ev : Event} (h : EventLog.step s ev = some s')
    (he : (l, e) ∈ EventLog.locate 0 s.history) : (l, e) ∈ EventLog.locate 0 s'.history := by
  obtain ⟨es, hes⟩ := step_history h
  rw [hes, locate_append]
  exact List.mem_append_left _ he

/-- A call puts its entry behind the end of the file. -/
theorem locate_call {t : Int} {c : Call} (hinv : Inv s rs)
    (h : EventLog.step s (.call t c) = some s') :
    ((s.file.bytes.length : Int), c.entry t) ∈ EventLog.locate 0 s'.history := by
  obtain ⟨_, -, -, -, _, -, rfl⟩ := step_call h
  show _ ∈ EventLog.locate 0 (s.history ++ [c.entry t])
  rw [locate_append, Nat.zero_add, ← hinv.length_file]
  exact List.mem_append_right _ (List.mem_singleton_self _)

end

end EventLog

end TxFS
