import TxFS.Lib.GuardedRun
import TxFS.Mutexes.Calls

/-!
# Mutex Order

The handlers lock `log_mutex`, `pause_mutex` and `file_mutex` before `txn_mutex` and the
`wake_mutex` of a node. Only the detector locks `file_mutex` with `txn_mutex` locked, so it
takes part in every circle, and the only other thread of the circle is a handler that holds
`file_mutex` and is about to lock `txn_mutex`.
-/

namespace TxFS

open LockOrder GuardedRun

namespace Locking

/-! ## The order of the handlers -/

/-- The order of the handlers. -/
def rank : Mutex → Nat
  | .log | .pause => 0
  | .file => 1
  | .txn => 2
  | .wake _ => 3

theorem ascend_logTxnEnd {written : Bool} (h : written = true) :
    ascend rank [] (logTxnEnd written) = some [] := by
  subst h
  rfl

theorem ascend_logCall {written : Bool} (h : written = true) :
    ascend rank [] (logCall written) = some [] := by
  subst h
  rfl

/-- `on_txn_commit` and `on_txn_abort`. -/
theorem ascend_onTxnEnd {w : Writes} (h : w.written = true) :
    ascend rank [] (onTxnCommit w) = some [] ∧ ascend rank [] (onTxnAbort w) = some [] := by
  obtain ⟨outcome, last⟩ := w
  obtain ⟨rfl, rfl⟩ : outcome = true ∧ last = true := by simpa [Writes.written] using h
  exact ⟨rfl, rfl⟩

/-- The loop of the waiters starts and ends with `file_mutex`. -/
theorem ascend_waitOnNode {node others : Nat} :
    ascend rank [.file] (waitOnNode node others) = some [.file] := by
  have hsleep : ascend rank [.file] (condWait .file) = some [.file] := rfl
  rw [waitOnNode, ascend_seq hsleep]
  apply ascend_flatten
  intro ops hops
  rw [List.eq_of_mem_replicate hops]
  simp [briefly, condWait, ascend, rank]

theorem ascend_leaveAsVictim {node : Nat} {path : VictimPath} :
    ascend rank [.file] (leaveAsVictim node path) = some [] := by
  cases path with
  | last => rfl
  | waits sleeps => cases sleeps <;> simp [leaveAsVictim, condWait, ascend, rank]

/-- The search for the node of the transaction, and the wait. -/
theorem ascend_searchAndWait {node others : Nat} {ops : Ops} :
    ascend rank [.file] (briefly .txn ++ waitOnNode node others ++ ops) =
      ascend rank [.file] ops := by
  have hsearch : ascend rank [.file] (briefly .txn) = some [.file] := rfl
  rw [List.append_assoc, ascend_seq hsearch, ascend_seq ascend_waitOnNode]

/-- **A lock request** keeps `file_mutex` exactly if it returns a record. -/
theorem ascend_insertFileList {p : InsertPath} (h : p.written = true) :
    ascend rank [.file] (insertFileList p) = some (if p.locked then [.file] else []) := by
  -- the way to a pause, and out of the critical section
  have hrefused : ascend rank [.file] (briefly .txn ++ mutuallySerializable ++ [.unlock .file]) =
      some [] := rfl
  have hpaused : ascend rank [.file] (briefly .txn ++ mutuallySerializable ++ [.unlock .file] ++
      briefly .pause) = some [] := rfl
  induction p with
  | held => rfl
  | granted checked => cases checked <;> rfl
  | refused w =>
    rw [insertFileList, ascend_seq hrefused]
    exact (ascend_onTxnEnd h).2
  | pausedOut w =>
    rw [insertFileList, ascend_seq hpaused]
    exact (ascend_onTxnEnd h).2
  | paused next ih =>
    rw [insertFileList, ascend_seq hpaused]
    exact ih h
  | waited node others next ih =>
    rw [insertFileList, List.append_assoc, ascend_searchAndWait]
    exact ih h
  | victim node others path w =>
    rw [insertFileList, List.append_assoc, ascend_searchAndWait, ascend_seq ascend_leaveAsVictim]
    exact (ascend_onTxnEnd h).2

theorem ascend_insertAll {ps : List InsertPath} (h : ps.all InsertPath.written = true) :
    ascend rank [.file] (insertAll ps) =
      some (if ps.all InsertPath.locked then [.file] else []) := by
  induction ps with
  | nil => rfl
  | cons p ps ih =>
    rw [List.all_cons, Bool.and_eq_true] at h
    rw [insertAll, ascend_seq (ascend_insertFileList h.1), List.all_cons]
    cases p.locked with
    | true => exact ih h.2
    | false => rfl

theorem ascend_lockFiles {ps : List InsertPath} {rest : Ops}
    (h : ps.all InsertPath.written = true) (hrest : ascend rank [] rest = some []) :
    ascend rank [] (lockFiles ps rest) = some [] := by
  have hall : ascend rank [] (.lock .file :: insertAll ps) =
      some (if ps.all InsertPath.locked then [.file] else []) := ascend_insertAll h
  rw [lockFiles, ascend_seq hall]
  cases ps.all InsertPath.locked with
  | true => exact hrest
  | false => rfl

theorem ascend_lockFile {p : InsertPath} (h : p.written = true) :
    ascend rank [] (lockFile p) = some [] := by
  have hrequest : ascend rank [] (.lock .file :: insertFileList p) =
      some (if p.locked then [.file] else []) := ascend_insertFileList h
  rw [lockFile, ascend_seq hrequest]
  cases p.locked <;> rfl

theorem ascend_onlineBck {ps : List InsertPath} (h : ps.all InsertPath.written = true) :
    ascend rank [] (onlineBck ps) = some [] := by
  apply ascend_flatten
  intro ops hops
  obtain ⟨p, hp, rfl⟩ := List.mem_map.mp hops
  rw [ascend_seq (ascend_lockFile (List.all_eq_true.mp h p hp))]
  rfl

/-- **The calls of the clients** lock the mutexes in order and give all of them back. -/
theorem ascend_call {c : Call} (h : c.written = true) (hclient : ∀ victim, c ≠ .detection victim) :
    ascend rank [] c.ops = some [] := by
  cases c with
  | txnBeg => rfl
  | «open» p failed =>
    simp only [Call.written, Bool.and_eq_true] at h
    refine ascend_lockFiles (by simpa using h.1) ?_
    cases failed with
    | none => rfl
    | some w => exact (ascend_onTxnEnd (by simpa using h.2)).2
  | stat p => exact ascend_lockFiles (by simpa [Call.written] using h) rfl
  | rename old new mov subtree written =>
    simp only [Call.written, Bool.and_eq_true] at h
    exact ascend_lockFiles h.1 (ascend_logCall h.2)
  | missing w => exact (ascend_onTxnEnd h).2
  | creat p written =>
    simp only [Call.written, Bool.and_eq_true] at h
    exact ascend_lockFiles (by simpa using h.1) (ascend_logCall h.2)
  | unlink parent child written =>
    simp only [Call.written, Bool.and_eq_true] at h
    exact ascend_lockFiles (by simpa using h.1) (ascend_logCall h.2)
  | write => rfl
  | txnCommit w => exact (ascend_onTxnEnd h).1
  | txnAbort w => exact (ascend_onTxnEnd h).2
  | bckBeg ps written =>
    simp only [Call.written, Bool.and_eq_true] at h
    have hbegin : ascend rank [] (logTxnBeg ++ newTxnInsert) = some [] := rfl
    have hnode : ascend rank [] (getPrevLogLRN ++ txnDelete) = some [] := rfl
    rw [Call.ops, List.append_assoc, List.append_assoc, List.append_assoc, ascend_seq hbegin,
      ascend_seq (ascend_onlineBck h.1), ← List.append_assoc, ascend_seq hnode]
    exact ascend_logTxnEnd h.2
  | detection victim => exact absurd rfl (hclient victim)

/-! ## The detector -/

/-- The order of the detector. -/
def detectorRank : Mutex → Nat
  | .file => 1
  | _ => 0

theorem ascend_deadlockDetection {victim : Bool} :
    ascend detectorRank [] (deadlockDetection victim) = some [] := by
  cases victim <;> rfl

/-- The detector uses no other mutexes. -/
theorem mem_deadlockDetection {victim : Bool} :
    ∀ op ∈ deadlockDetection victim, op.mutex = .txn ∨ op.mutex = .file := by
  cases victim <;> decide

def threadRank : Thread → Mutex → Nat
  | .handler _ => rank
  | .detector => detectorRank

/-! ## The condition -/

variable {s s' : ServerThreads}

/-- The detector holds `txn_mutex` and is about to lock `file_mutex`. -/
def DetectorBetween (s : ServerThreads) : Prop :=
  s.owner .txn = some .detector ∧ s.Wants .detector .file

instance (s : ServerThreads) : Decidable (DetectorBetween s) :=
  inferInstanceAs (Decidable (_ ∧ _))

/-- The next operation of the thread brings it to a lock of `txn_mutex` with `file_mutex`
    locked. -/
def ComesToTxn (s : ServerThreads) (t : Thread) : Prop :=
  match s.pending t with
  | .lock .file :: .lock .txn :: _ => True
  | .unlock .file :: .lock .txn :: _ => False
  | _ :: .lock .txn :: _ => s.owner .file = some t
  | _ => False

instance (s : ServerThreads) (t : Thread) : Decidable (ComesToTxn s t) := by
  unfold ComesToTxn
  split <;> infer_instance

/-- **The condition**: the links of the log records are written; the detector locks
    `txn_mutex` only while no thread with `file_mutex` is about to lock `txn_mutex`, and while
    it is between this and `file_mutex` no thread comes to that point. -/
def KeepsApart (s : ServerThreads) : ThreadEvent Thread Call → Prop
  | .call _ c => c.written = true
  | .advance .detector =>
    s.Wants .detector .txn → ∀ t ∈ s.owner .file, ¬ s.Wants t .txn
  | .advance (.handler n) => DetectorBetween s → ¬ ComesToTxn s (.handler n)

instance (s : ServerThreads) (e : ThreadEvent Thread Call) : Decidable (KeepsApart s e) :=
  match e with
  | .call _ _ => inferInstanceAs (Decidable (_ = _))
  | .advance .detector => inferInstanceAs (Decidable (_ → _))
  | .advance (.handler _) => inferInstanceAs (Decidable (_ → _))

/-! ## Runs -/

/-- The detector and a handler wait for each other. -/
def Facing (s : ServerThreads) : Prop :=
  DetectorBetween s ∧ ∃ t, s.owner .file = some t ∧ s.Wants t .txn

structure Apart (s : ServerThreads) : Prop where
  ordered : s.Ordered threadRank
  uses : ∀ op ∈ s.pending .detector, op.mutex = .txn ∨ op.mutex = .file
  owns : ∀ m, s.owner m = some .detector → m = .txn ∨ m = .file
  apart : ¬ Facing s

theorem apart_idle : Apart .idle where
  ordered := Threads.ordered_idle
  uses := nofun
  owns := nofun
  apart := fun h => by cases h.1.1

/-- Every call keeps to the rank of its thread. -/
theorem ascend_callOps {t : Thread} {c : Call} {os : Ops} (h : c.written = true)
    (hos : callOps t c = some os) : ascend (threadRank t) [] os = some [] := by
  cases t with
  | handler n =>
    cases c with
    | detection victim => cases hos
    | _ =>
      cases hos
      exact ascend_call h nofun
  | detector =>
    cases c with
    | detection victim =>
      cases hos
      exact ascend_deadlockDetection
    | _ => cases hos

theorem apart_call {t : Thread} {c : Call} (h : Apart s) (hok : KeepsApart s (.call t c))
    (hstep : s.step callOps (.call t c) = some s') : Apart s' := by
  have hordered := h.ordered.step (fun _ _ _ he hos => by cases he; exact ascend_callOps hok hos) hstep
  obtain ⟨ht, os, hos, rfl⟩ := Threads.step_call hstep
  refine ⟨hordered, fun m hm => ?_, h.owns, ?_⟩
  · by_cases hd : t = .detector
    · subst hd
      dsimp only at hm
      rw [Function.update_self] at hm
      cases c with
      | detection victim =>
        cases hos
        exact mem_deadlockDetection m hm
      | _ => cases hos
    · dsimp only at hm
      rw [Function.update_of_ne (Ne.symm hd)] at hm
      exact h.uses m hm
  · -- a thread between two calls owns nothing, so it takes no part
    rintro ⟨⟨howner, hwants⟩, u, hfile, htxn⟩
    have hdt : Thread.detector ≠ t := fun hdt => h.ordered.owner_ne ht (hdt ▸ howner)
    have hut : u ≠ t := fun hut => h.ordered.owner_ne ht (hut ▸ hfile)
    simp only [Threads.Wants, Function.update_of_ne hdt, Function.update_of_ne hut] at hwants htxn
    exact h.apart ⟨⟨howner, hwants⟩, u, hfile, htxn⟩

theorem apart_detector (h : Apart s) (hok : KeepsApart s (.advance .detector))
    (hstep : s.step callOps (.advance .detector) = some s') : Apart s' := by
  have hordered := h.ordered.step (fun _ _ _ he => by cases he) hstep
  obtain ⟨os, ⟨m, hpending, hfree, rfl⟩ | ⟨m, hpending, rfl⟩⟩ := Threads.step_advance hstep
  · have hm : m = .txn ∨ m = .file := h.uses (.lock m) (hpending ▸ List.mem_cons_self ..)
    refine ⟨hordered, fun op hop => ?_, fun m' howner => ?_, ?_⟩
    · dsimp only at hop
      rw [Function.update_self] at hop
      exact h.uses op (hpending ▸ List.mem_cons_of_mem _ hop)
    · rcases Threads.owner_of_lock howner with ⟨rfl, -⟩ | howner
      · exact hm
      · exact h.owns m' howner
    · rintro ⟨⟨-, hwants⟩, u, hfile, htxn⟩
      -- the detector does not want both mutexes, so the other one holds `file_mutex`
      have hud : u ≠ .detector := fun hud => by
        rw [hud] at htxn
        cases hwants.unique htxn
      rcases Threads.owner_of_lock hfile with ⟨-, rfl⟩ | howner
      · exact hud rfl
      simp only [Threads.Wants, Function.update_of_ne hud] at htxn
      rcases hm with rfl | rfl
      · exact hok (congrArg List.head? hpending) u howner htxn
      · rw [hfree] at howner
        cases howner
  · have hm : m = .txn ∨ m = .file := h.uses (.unlock m) (hpending ▸ List.mem_cons_self ..)
    refine ⟨hordered, fun op hop => ?_,
      fun m' howner => h.owns m' (Threads.owner_of_unlock howner).2, ?_⟩
    · dsimp only at hop
      rw [Function.update_self] at hop
      exact h.uses op (hpending ▸ List.mem_cons_of_mem _ hop)
    · -- one of the two mutexes has no owner
      rintro ⟨⟨htxn, -⟩, u, hfile, -⟩
      have htxn := (Threads.owner_of_unlock (f := s.owner) htxn).1
      have hfile := (Threads.owner_of_unlock (f := s.owner) hfile).1
      rcases hm with rfl | rfl
      · exact htxn rfl
      · exact hfile rfl

theorem apart_handler {n : Nat} (h : Apart s) (hok : KeepsApart s (.advance (.handler n)))
    (hstep : s.step callOps (.advance (.handler n)) = some s') : Apart s' := by
  have hordered := h.ordered.step (fun _ _ _ he => by cases he) hstep
  have hd : Thread.detector ≠ .handler n := nofun
  obtain ⟨os, ⟨m, hpending, hfree, rfl⟩ | ⟨m, hpending, rfl⟩⟩ := Threads.step_advance hstep
  · refine ⟨hordered, by simpa only [Function.update_of_ne hd] using h.uses,
      fun m' howner => ?_, ?_⟩
    · rcases Threads.owner_of_lock howner with ⟨-, heq⟩ | howner
      · cases heq
      · exact h.owns m' howner
    · rintro ⟨⟨htxn, hwants⟩, u, hfile, hnext⟩
      have hbetween : DetectorBetween s := by
        refine ⟨?_, by simpa only [Threads.Wants, Function.update_of_ne hd] using hwants⟩
        rcases Threads.owner_of_lock htxn with ⟨-, heq⟩ | howner
        · cases heq
        · exact howner
      by_cases hu : u = .handler n
      · -- the step has brought the handler to `txn_mutex`
        subst hu
        simp only [Threads.Wants, Function.update_self] at hnext
        obtain ⟨os', rfl⟩ := List.head?_eq_some_iff.mp hnext
        refine hok hbetween ?_
        rw [ComesToTxn, hpending]
        rcases Threads.owner_of_lock hfile with ⟨rfl, -⟩ | howner
        · trivial
        · cases m with
          | file => trivial
          | _ => exact howner
      · simp only [Threads.Wants, Function.update_of_ne hu] at hnext
        rcases Threads.owner_of_lock hfile with ⟨-, heq⟩ | howner
        · exact hu heq
        · exact h.apart ⟨hbetween, u, howner, hnext⟩
  · refine ⟨hordered, by simpa only [Function.update_of_ne hd] using h.uses,
      fun m' howner => h.owns m' (Threads.owner_of_unlock howner).2, ?_⟩
    rintro ⟨⟨htxn, hwants⟩, u, hfile, hnext⟩
    have hbetween : DetectorBetween s :=
      ⟨(Threads.owner_of_unlock htxn).2,
        by simpa only [Threads.Wants, Function.update_of_ne hd] using hwants⟩
    obtain ⟨hm, howner⟩ := Threads.owner_of_unlock hfile
    by_cases hu : u = .handler n
    · subst hu
      simp only [Threads.Wants, Function.update_self] at hnext
      obtain ⟨os', rfl⟩ := List.head?_eq_some_iff.mp hnext
      refine hok hbetween ?_
      rw [ComesToTxn, hpending]
      cases m with
      | file => exact absurd rfl hm
      | _ => exact howner
    · simp only [Threads.Wants, Function.update_of_ne hu] at hnext
      exact h.apart ⟨hbetween, u, howner, hnext⟩

theorem apart_step {e : ThreadEvent Thread Call} (h : Apart s) (hok : KeepsApart s e)
    (hstep : s.step callOps e = some s') : Apart s' :=
  match e with
  | .call _ _ => apart_call h hok hstep
  | .advance .detector => apart_detector h hok hstep
  | .advance (.handler _) => apart_handler h hok hstep

/-! ## Circles -/

section

variable {u v : Thread} {m m' : Mutex}

/-- The handlers keep to one order. -/
theorem Apart.handler_lt (h : Apart s) (hu : u ≠ .detector) (howner : s.owner m = some u)
    (hwants : s.Wants u m') : rank m < rank m' := by
  cases u with
  | handler n => exact h.ordered.lt howner hwants
  | detector => exact absurd rfl hu

/-- A thread that is waited for and waits itself is between `txn_mutex` and `file_mutex` if it
    is the detector. -/
theorem Apart.detectorBetween (h : Apart s) (howner : s.owner m = some .detector)
    (hwants : s.Wants .detector m') : DetectorBetween s := by
  have hlt : detectorRank m < detectorRank m' := h.ordered.lt howner hwants
  cases m' with
  | file =>
    rcases h.owns m howner with rfl | rfl
    · exact ⟨howner, hwants⟩
    · exact absurd hlt (Nat.lt_irrefl _)
  | _ => cases hlt

/-- A handler that holds `file_mutex` waits for `txn_mutex` or for a `wake_mutex`. -/
theorem Apart.wants_of_file (h : Apart s) (hu : u ≠ .detector) (hfile : s.owner .file = some u)
    (hwants : s.Wants u m) : m = .txn ∨ ∃ k, m = .wake k := by
  have hlt := h.handler_lt hu hfile hwants
  cases m with
  | txn => exact .inl rfl
  | wake k => exact .inr ⟨k, rfl⟩
  | _ => simp [rank] at hlt

/-- The holder of a `wake_mutex` waits for nobody. -/
theorem Apart.not_wants_of_wake (h : Apart s) {k : Nat} (hwake : s.owner (.wake k) = some u) :
    ¬ s.Wants u m := by
  intro hwants
  have hu : u ≠ .detector := by
    rintro rfl
    rcases h.owns _ hwake with hk | hk <;> cases hk
  have hlt := h.handler_lt hu hwake hwants
  cases m <;> simp [rank] at hlt

end

/-- **Mutex order**: in every run under the condition no threads wait in a circle. -/
theorem no_cycle (h : ReachableUnder .idle (Threads.step callOps) KeepsApart s) :
    ¬ ∃ t, Relation.TransGen s.WaitsFor t t := by
  have hapart : Apart s := h.invariant apart_idle fun _ _ _ _ => apart_step
  rintro ⟨t, hcycle⟩
  obtain ⟨_, rfl, hcycle⟩ := Threads.exists_mem_cycle (X := (· = .detector))
    (fun u hu m m' howner hwants => hapart.handler_lt hu howner hwants) hcycle
  -- the detector waits for the holder of `file_mutex`
  obtain ⟨v, ⟨m, hm, hv⟩, hvd⟩ := Relation.TransGen.head'_iff.mp hcycle
  obtain ⟨w, -, m', -, howner⟩ := Relation.TransGen.tail'_iff.mp hcycle
  have hbetween : DetectorBetween s := hapart.detectorBetween howner hm
  cases hm.unique hbetween.2
  have hvd' : v ≠ .detector := by
    rintro rfl
    have hlt : detectorRank .file < detectorRank .file := hapart.ordered.lt hv hm
    exact Nat.lt_irrefl _ hlt
  -- which waits for `txn_mutex`, or for a thread that does not wait
  obtain ⟨x, ⟨m, hm, hx⟩, hxd⟩ := (Relation.reflTransGen_iff_eq_or_transGen.mp hvd).resolve_left
    (Ne.symm hvd') |> Relation.TransGen.head'_iff.mp
  rcases hapart.wants_of_file hvd' hv hm with rfl | ⟨k, rfl⟩
  · exact hapart.apart ⟨hbetween, v, hv, hm⟩
  · rcases Relation.ReflTransGen.cases_head hxd with rfl | ⟨y, ⟨m, hm, -⟩, -⟩
    · exact hapart.not_wants_of_wake hx hbetween.2
    · exact hapart.not_wants_of_wake hx hm

/-- A handler has waited for a lock; later the detector and this handler wait for `write_possible`
    of another one. -/
theorem no_cycle_detectorWaits :
    ∃ s, ReachableUnder .idle (Threads.step callOps) KeepsApart s ∧
      s.WaitsFor .detector (.handler 1) ∧ s.WaitsFor (.handler 0) (.handler 1) ∧
      ¬ ∃ t, Relation.TransGen s.WaitsFor t t := by
  obtain ⟨s, hs, hfile, hdetector, hhandler⟩ := exists_of_runUnder .idle (Threads.step callOps)
    KeepsApart
    (fun s => s.owner .file = some (.handler 1) ∧ s.Wants .detector .file ∧
      s.Wants (.handler 0) .file)
    ([.call (.handler 0) (.open (.waited 0 0 (.granted false)) none)] ++
      List.replicate 12 (.advance (.handler 0)) ++
      [.call .detector (.detection true), .call (.handler 1) .write, .advance (.handler 1),
        .advance .detector, .call (.handler 0) (.stat .held)])
    (by decide)
  exact ⟨s, hs, ⟨.file, hdetector, hfile⟩, ⟨.file, hhandler, hfile⟩, no_cycle hs⟩

/-- **Inversion**: a handler in `insert_file_list` and the detector wait for each other. -/
theorem detector_cycle :
    ¬ ∀ s : ServerThreads, Reachable .idle (Threads.step callOps) s →
      ¬ ∃ t, Relation.TransGen s.WaitsFor t t := by
  obtain ⟨s, hs, hfile, htxn, hhandler, hdetector⟩ := exists_of_run .idle (Threads.step callOps)
    (fun s => s.owner .file = some (.handler 0) ∧ s.owner .txn = some .detector ∧
      s.Wants (.handler 0) .txn ∧ s.Wants .detector .file)
    [.call (.handler 0) (.open (.granted false) none), .call .detector (.detection false),
      .advance (.handler 0), .advance .detector]
    (by decide)
  intro h
  exact h s hs ⟨.detector, .tail (.single ⟨.file, hdetector, hfile⟩) ⟨.txn, hhandler, htxn⟩⟩

end Locking

end TxFS
