import TxFS.WaitList.Marks

/-!
# Handing Over to the Victim

A victim that finds others still to wake up leaves `file_mutex` and waits on `wake_cond`
under `wake_mutex`; a waiter that goes back to sleep and makes `woke_up` equal to `in_wait`
signals `wake_cond`, still holding `file_mutex`. `Handover` adds these steps to the server:
the victim reads the two counters at a moment of its own, and the waiter that counts is for
a while the one thread that holds `file_mutex`.
-/

namespace TxFS

open GuardedRun

/-! ## The machine -/

/-- Where a victim stands between its two critical sections of `file_mutex`. -/
inductive WakeState where
  /-- Before it compares `woke_up` with `in_wait`. -/
  | checking
  /-- In `pthread_cond_wait` on `wake_cond`. -/
  | onWakeCond (signalled : Bool)
  /-- On its way to `file_mutex`. -/
  | through
deriving DecidableEq, Repr

structure Handover where
  server : Server
  wakeState : Int → WakeState
  /-- A waiter that has counted itself on a node and not yet gone back to sleep. -/
  signalling : Option (Int × Nat)

inductive HandoverEvent where
  /-- An event of the server. -/
  | server (e : Event)
  /-- The waiter compares the counters and signals; `chosen` is the thread that
      `pthread_cond_signal` wakes, if one waits. -/
  | testWoken (chosen : Int)
  /-- `if (woke_up < in_wait) pthread_cond_wait(wake_cond)`. -/
  | checkWoken (txnid : Int)
  /-- A return from `wake_cond`, after a signal or without one. -/
  | returnFromWakeCond (txnid : Int)
deriving DecidableEq, Repr

/-- Events outside `file_mutex`. -/
def Event.outsideFileMutex : Event → Bool
  | .begin _ | .call .. | .endBackup | .setBackup _ => true
  | _ => false

namespace Handover

/-- Nobody is in the wait list. -/
def init (handles : Nat) : Handover where
  server := Server.globalInit handles
  wakeState := fun _ => .checking
  signalling := none

/-- The victim `t` waits on `wake_cond` of the node. -/
def WaitsOnWakeCond (h : Handover) (t : Int) (node : Nat) : Prop :=
  h.server.thread t = .victim node ∧ h.wakeState t = .onWakeCond false

instance (h : Handover) (t : Int) (node : Nat) : Decidable (h.WaitsOnWakeCond t node) :=
  inferInstanceAs (Decidable (_ ∧ _))

/-- What a waiter's wake-up is followed by: the test of the counters when it goes back to
    sleep, and `wake_mutex` when it is the victim. -/
def afterWake (h : Handover) (t : Int) (s : Server) : Handover :=
  match s.thread t with
  | .parked _ node _ => { h with server := s, signalling := some (t, node) }
  | .victim _ => { h with server := s, wakeState := Function.update h.wakeState t .checking }
  | .running | .resuming _ | .aborting => { h with server := s }

/-- The rest of the server's events. A victim comes back when it is through. -/
def serverStep (h : Handover) (e : Event) : Option Handover :=
  match e with
  | .wake t => (h.server.step e).map (h.afterWake t)
  | .leaveAsVictim t =>
    if h.wakeState t = .through then (h.server.step e).map fun s => { h with server := s } else none
  | e => (h.server.step e).map fun s => { h with server := s }

def step (h : Handover) : HandoverEvent → Option Handover
  | .server e =>
    if h.signalling = none ∨ e.outsideFileMutex = true then h.serverStep e else none
  | .testWoken chosen => do
    let (_, node) ← h.signalling
    let w ← h.server.headWaitList.find? fun w => w.node = node
    if w.wokeUp = w.inWait then
      if h.WaitsOnWakeCond chosen node then
        some { h with wakeState := Function.update h.wakeState chosen (.onWakeCond true)
                      signalling := none }
      else if ∃ n ∈ h.server.headTxnList, h.WaitsOnWakeCond n.txnId node then none
      else some { h with signalling := none }
    else some { h with signalling := none }
  | .checkWoken t =>
    match h.server.thread t with
    | .victim node =>
      if h.wakeState t = .checking then do
        let w ← h.server.headWaitList.find? fun w => w.node = node
        let st := if w.wokeUp < w.inWait then WakeState.onWakeCond false else .through
        some { h with wakeState := Function.update h.wakeState t st }
      else none
    | _ => none
  | .returnFromWakeCond t =>
    match h.wakeState t with
    | .onWakeCond _ => some { h with wakeState := Function.update h.wakeState t .through }
    | .checking | .through => none

/-- **The condition**: a marked node is left to its waiters. -/
def Undisturbed (h : Handover) : HandoverEvent → Prop
  | .server e => h.server.MarkUndisturbed e
  | _ => True

instance (h : Handover) (e : HandoverEvent) : Decidable (h.Undisturbed e) :=
  match e with
  | .server e => inferInstanceAs (Decidable (h.server.MarkUndisturbed e))
  | .testWoken _ | .checkWoken _ | .returnFromWakeCond _ => isTrue trivial

/-- The transaction sleeps on `f_lock` and no broadcast is pending for it. -/
def Asleep (h : Handover) (u : Int) (node : Nat) : Prop :=
  (∃ p, h.server.thread u = .parked p node false) ∧ ∀ n, h.signalling ≠ some (u, n)

/-- The victim waits on `wake_cond` without a signal, and every other transaction that the
    node counts is asleep. -/
def Stranded (h : Handover) (t : Int) (node : Nat) : Prop :=
  h.WaitsOnWakeCond t node ∧ ∀ u ∈ h.server.queue.waiters node, u ≠ t → h.Asleep u node

end Handover

namespace Server

variable {s s' : Server} {t : Int} {e : Event}

/-! ## Steps of the server beside a victim -/

/-- Only a wake-up makes a victim. -/
theorem step_victim {node : Nat} (hs : Owned s.table s.headTxnList) (h : s.step e = some s')
    (ht : s'.thread t = .victim node) (hne : e ≠ .wake t) : s.thread t = .victim node := by
  by_cases hactor : e.actor = some t
  swap
  · have hasleep := step_thread hs h hactor
    rw [ht] at hasleep
    cases hst : s.thread t <;> rw [hst] at hasleep <;> cases hasleep
    rfl
  -- whatever else the thread does, it is not a victim behind it
  have hrequest : ∀ {req : LockRequest} {first : Option (Option Addr)} {readBit : Int},
      s.requestLock t req first readBit = some s' → s'.thread t ≠ .victim node := by
    intro req first readBit hreq hv
    have hreg := requestLock_thread hreq
    obtain ⟨found, loc, s₁, out, -, -, hend⟩ := requestLock_cases hreq
    rcases hend with ⟨a, -, rfl⟩ | ⟨_, -, rfl⟩ | ⟨-, rfl⟩ | ⟨-, rfl⟩
    · obtain ⟨_, _, st, heq, -, hst⟩ := s₁.afterLock_spec t req.use (first.getD loc) a
      rw [heq] at hv
      have hvictim : st = .victim node := (Function.update_self ..).symm.trans hv
      rcases hst with rfl | rfl <;> cases hvictim
    · cases (Function.update_self ..).symm.trans hv
    · cases (Function.update_self ..).symm.trans hv
    · cases (Function.update_self ..).symm.trans hv
  have hended : ∀ {s₁ : Server} {records : Int}, s₁.endTxn t records = some s' →
      s'.thread t ≠ .victim node := by
    intro s₁ records hend hv
    rw [endTxn_thread hend, Function.update_self] at hv
    cases hv
  cases step_spec h with
  | begin =>
    cases hactor
    cases (Function.update_self ..).symm.trans ht
  | lock hthread hreq =>
    cases hactor
    exact absurd ht (hrequest hreq)
  | resume hthread hreq =>
    cases hactor
    exact absurd ht (hrequest hreq)
  | wake =>
    cases hactor
    exact absurd rfl hne
  | leaveAsVictim hthread hwake =>
    cases hactor
    obtain ⟨_, -, rfl⟩ := afterWakeCond_spec hwake
    cases (Function.update_self ..).symm.trans ht
  | call hcall => exact (logEvent_threads hcall).1 ▸ ht
  | commit hthread hrel hend =>
    cases hactor
    exact absurd ht (hended hend)
  | abort hthread hrel hend =>
    cases hactor
    exact absurd ht (hended hend)
  | releaseByBackup hthread hrel =>
    exact ((releaseLocksByBackup_onlyWakes hrel) t).1 node ht
  | endBackup hthread hnone hend =>
    cases hactor
    exact absurd ht (hended hend)
  | markVictim => cases hactor
  | setBackup => cases hactor

/-- **The node of a victim** stays as it is, but for a waiter that counts itself on it. -/
theorem step_victim_node (hs : Owned s.table s.headTxnList) (hcount : s.queue.Counted)
    (htally : Tallied s) (hok : s.MarkUndisturbed e) (h : s.step e = some s') {w : WaitNode} (hw : w ∈ s.headWaitList)
    (ht : s.thread t = .victim w.node) (ht' : s'.thread t = .victim w.node) :
    w ∈ s'.headWaitList ∨ ∃ u p, e = .wake u ∧ s'.thread u = .parked p w.node false ∧
      { w with wokeUp := w.wokeUp + 1 } ∈ s'.headWaitList := by
  obtain ⟨hne, v, hv, hvn, hmark⟩ := htally.victim t w.node ht
  have hvw : v = w := List.inj_on_of_nodup_map hcount.nodes hv hw hvn
  subst hvw
  have hmarked : v.txnidAbort ≠ -1 := hmark ▸ hne
  -- another node is another place in the list
  have hother : ∀ {u : WaitNode}, u ∈ s.headWaitList → u.txnidAbort = -1 → v.node ≠ u.node := by
    intro u hu hunmarked hvu
    have heq : v = u := List.inj_on_of_nodup_map hcount.nodes hv hu hvu
    exact hmarked (heq ▸ hunmarked)
  -- a request changes an unmarked node or adds one, so the victim's stays
  have hrequest : ∀ {x readBit : Int} {req : LockRequest} {first : Option (Option Addr)},
      s.queue.place x = none → (s.MustWait x req → s.NodeUnmarked req.inode) →
      s.requestLock x req first readBit = some s' → v ∈ s'.headWaitList := by
    intro x readBit req first hfree hunmarked hreq
    obtain ⟨found, loc, s₁, out, hsearch, hspec, hend⟩ := requestLock_cases hreq
    rcases hend with ⟨a, hout, rfl⟩ | ⟨node, rfl, rfl⟩ | ⟨rfl, rfl⟩ | ⟨rfl, rfl⟩
    · obtain ⟨table, handles, st, heq, -⟩ := s₁.afterLock_spec x req.use (first.getD loc) a
      obtain ⟨⟨-, hlist, -, -⟩, -⟩ := hspec.records hs (by rcases hout with rfl | rfl <;> simp)
      rw [heq]
      exact hlist.symm ▸ hv
    · cases hspec with
      | newNode => exact (insertWaitNode_perm _ _).mem_iff.mpr (List.mem_cons_of_mem _ hv)
      | @oldNode l u hloc hown hconflict hwait =>
        subst hloc
        obtain ⟨hu, hui⟩ := searchWaitList_some hwait
        have hmust := mustWait_of_conflict hsearch hown
          (hconflict.imp_right (Or.imp_right fun hfind => ⟨by simp [hwait], hfind⟩))
        exact mem_modifyNode_of_ne hv (hother hu (hunmarked hmust u hu hui))
      | refused hs' hout => rcases hout with hout | hout <;> cases hout
    · obtain ⟨⟨-, hlist, -, -⟩, -⟩ := hspec.records hs (by simp)
      exact hlist.symm ▸ hv
    · obtain ⟨⟨-, hlist, -, -⟩, -⟩ := hspec.records hs (by simp)
      exact hlist.symm ▸ hv
  have haway : ∀ {x : Int} {st : TxFS.ThreadState}, s.thread x = st →
      (∀ wait, st.place wait = none) → s.queue.place x = none := by
    intro x st hst hnone
    show (s.thread x).place _ = none
    rw [hst]
    exact hnone _
  -- the end of a transaction leaves the wait list alone
  have hended : ∀ {s₁ : Server} {x records : Int}, s₁.headWaitList = s.headWaitList →
      s₁.endTxn x records = some s' → v ∈ s'.headWaitList := by
    intro s₁ x records hlist hend
    obtain ⟨ns, -, rfl⟩ := endTxn_spec hend
    exact hlist.symm ▸ hv
  cases step_spec h with
  | begin => exact .inl hv
  | lock hthread hreq => exact .inl (hrequest (haway hthread fun _ => rfl) (hok.1 _ rfl) hreq)
  | @resume x readBit p _ hthread hreq =>
    have hreqOf : s.requestOf (.resume x readBit) = some (x, p.req, readBit) := by
      rw [requestOf, hthread]
    exact .inl (hrequest (haway hthread fun _ => rfl) (hok.1 _ hreqOf) hreq)
  | @wake u p node woken _ hthread hwake =>
    simp only [afterCondWait, Option.bind_eq_bind, Option.bind_eq_some_iff] at hwake
    obtain ⟨w, hfind, hwake⟩ := hwake
    have hw : w ∈ s.headWaitList := List.mem_of_find?_eq_some hfind
    have hwn : w.node = node := by simpa using List.find?_some hfind
    have hut : u ≠ t := by
      rintro rfl
      rw [ht] at hthread
      cases hthread
    split at hwake
    · -- back to sleep, on the node of the victim or on another one
      cases hwake
      by_cases hnode : v.node = node
      · refine .inr ⟨u, p, rfl, hnode ▸ Function.update_self .., ?_⟩
        exact List.mem_map.mpr ⟨v, hv, if_pos hnode⟩
      · exact .inl (mem_modifyNode_of_ne hv hnode)
    rename_i hnot
    split at hwake
    · rename_i hunmarked
      cases hwake
      -- `u` leaves an unmarked node, which is not the victim's
      exact .inl (mem_updateWaitListOnWake_of_ne hv (hwn ▸ hother hw hunmarked))
    rename_i hmarked'
    -- `u` is marked on its node, so this is not the node of `t`
    have hnode : v.node ≠ node := by
      intro hvn
      have heq : v = w := List.inj_on_of_nodup_map hcount.nodes hv hw (hvn.trans hwn.symm)
      subst heq
      exact hnot ⟨hmarked', fun h' => hut (h'.symm.trans hmark)⟩
    split at hwake
    · cases hwake
      left
      apply mem_updateWaitListOnWake_of_ne _ hnode
      exact mem_modifyNode_of_ne (mem_modifyNode_of_ne hv hnode) hnode
    · cases hwake
      exact .inl (mem_modifyNode_of_ne hv hnode)
  | @leaveAsVictim u node _ hthread hwake =>
    obtain ⟨-, w, hw, hwn, hmark'⟩ := htally.victim u node hthread
    obtain ⟨_, -, rfl⟩ := afterWakeCond_spec hwake
    -- a victim that leaves the node of `t` is `t`, but `t` is still a victim
    have hnode : v.node ≠ node := by
      intro hvn
      have heq : v = w := List.inj_on_of_nodup_map hcount.nodes hv hw (hvn.trans hwn.symm)
      subst heq
      have hut : u = t := hmark'.symm.trans hmark
      subst hut
      cases (Function.update_self ..).symm.trans ht'
    exact .inl (mem_updateWaitListOnWake_of_ne (mem_modifyNode_of_ne hv hnode) hnode)
  | call hcall => exact .inl ((logEvent_threads hcall).2.1.symm ▸ hv)
  | commit hthread hrel hend =>
    exact .inl (hended (releaseLocks_rest (fun _ _ _ _ => performWrites_sameButData) hrel).2.1 hend)
  | abort hthread hrel hend =>
    exact .inl (hended (releaseLocks_rest (fun _ _ _ _ => discardWrites_sameButData) hrel).2.1 hend)
  | releaseByBackup hthread hrel => exact .inl ((releaseLocksByBackup_rest hrel).2.1.symm ▸ hv)
  | endBackup hthread hnone hend => exact .inl (hended rfl hend)
  | @markVictim i x _ hmark' =>
    obtain ⟨w, hfind, rfl⟩ := markVictim_spec hmark'
    obtain ⟨hw, hwi⟩ := searchWaitList_some hfind
    exact .inl (mem_modifyNode_of_ne hv (hother hw (hok.2 w hw hwi)))
  | setBackup => exact .inl hv

end Server

namespace Handover

variable {h h' : Handover} {t : Int} {node handles : Nat} {e : HandoverEvent}

/-! ## The invariant -/

/-- The counters of a node that a victim waits for. -/
def StillToWake (h : Handover) (w : WaitNode) : Prop :=
  w.wokeUp < w.inWait ∨ (w.wokeUp = w.inWait ∧ ∃ u, h.signalling = some (u, w.node))

/-- **The hand-over**: the server runs under the condition, the waiter that holds
    `file_mutex` is on its node, and a victim that waits without a signal has somebody to
    wait for. -/
structure Waits (handles : Nat) (h : Handover) : Prop where
  reach : ReachableUnder (Server.globalInit handles) Server.step Server.MarkUndisturbed h.server
  signaller : ∀ u node, h.signalling = some (u, node) →
    ∃ p woken, h.server.thread u = .parked p node woken
  toWake : ∀ t node, h.WaitsOnWakeCond t node →
    ∃ w ∈ h.server.headWaitList, w.node = node ∧ h.StillToWake w

theorem waits_init : Waits handles (init handles) where
  reach := .init
  signaller := nofun
  toWake := by
    rintro t node ⟨ht, -⟩
    cases ht

/-! ## Steps of the server -/

/-- A parked thread takes no step outside `file_mutex`. -/
theorem parked_of_outside {s s' : Server} {e : Event} {u : Int} {p : Pending} {woken : Bool}
    (hs : Owned s.table s.headTxnList) (hreg : s.Registered) (hout : e.outsideFileMutex = true)
    (h : s.step e = some s') (hu : s.thread u = .parked p node woken) :
    s'.headWaitList = s.headWaitList ∧ ∃ woken', s'.thread u = .parked p node woken' := by
  have hactor : e.actor ≠ some u := by
    intro hactor
    have hlive := hreg u
    unfold Server.RegisteredThread at hlive
    rw [hu] at hlive
    cases Server.step_spec h with
    | begin hfresh =>
      cases hactor
      exact hlive.1 hfresh
    | call hcall =>
      cases hactor
      unfold Server.logEvent at hcall
      split at hcall
      · rename_i hrun
        rw [hu] at hrun
        cases hrun.1
      · cases hcall
    | endBackup hthread =>
      cases hactor
      rw [hu] at hthread
      cases hthread
    | setBackup => cases hactor
    | _ => cases hout
  have hasleep := Server.step_thread hs h hactor
  rw [hu] at hasleep
  constructor
  · cases Server.step_spec h with
    | begin => rfl
    | call hcall => exact (Server.logEvent_threads hcall).2.1
    | endBackup hthread hnone hend =>
      obtain ⟨ns, -, rfl⟩ := Server.endTxn_spec hend
      rfl
    | setBackup => rfl
    | _ => cases hout
  · cases hst : s'.thread u <;> rw [hst] at hasleep <;> cases hasleep
    exact ⟨_, rfl⟩

/-- Only a wake-up changes more than the server. -/
theorem serverStep_of_ne {e : Event} (hne : ∀ u, e ≠ .wake u) (hstep : h.serverStep e = some h') :
    ∃ s, h.server.step e = some s ∧ h' = { h with server := s } := by
  cases e with
  | wake t => exact absurd rfl (hne t)
  | leaveAsVictim t =>
    simp only [serverStep] at hstep
    split at hstep
    · obtain ⟨s, hs, rfl⟩ := Option.map_eq_some_iff.mp hstep
      exact ⟨s, hs, rfl⟩
    · cases hstep
  | _ =>
    simp only [serverStep] at hstep
    obtain ⟨s, hs, rfl⟩ := Option.map_eq_some_iff.mp hstep
    exact ⟨s, hs, rfl⟩

/-- What a step of the server does to the machine. -/
theorem serverStep_cases {e : Event} (hstep : h.serverStep e = some h') :
    h.server.step e = some h'.server ∧
      ((∀ t node woken, e = .wake t → ∀ p, h'.server.thread t ≠ .parked p node woken) →
        h'.signalling = h.signalling) ∧
      (∀ t p node woken, e = .wake t → h'.server.thread t = .parked p node woken →
        h'.signalling = some (t, node)) ∧
      ∀ u, h'.wakeState u = .onWakeCond false → h.wakeState u = .onWakeCond false ∧
        (e = .wake u → ∀ node, h'.server.thread u ≠ .victim node) := by
  by_cases hwake : ∃ t, e = .wake t
  · obtain ⟨t, rfl⟩ := hwake
    obtain ⟨s, hs, rfl⟩ := Option.map_eq_some_iff.mp hstep
    unfold afterWake
    cases hst : s.thread t with
    | parked p node woken =>
      refine ⟨hs, fun hnot => absurd hst (hnot t node woken rfl p), ?_, ?_⟩
      · rintro u q n k hu hq
        cases hu
        rw [hst] at hq
        cases hq
        rfl
      · intro u hu
        refine ⟨hu, ?_⟩
        rintro hut n hn
        cases hut
        rw [hst] at hn
        cases hn
    | victim node =>
      refine ⟨hs, fun _ => rfl, ?_, ?_⟩
      · rintro u q n k hu hq
        cases hu
        rw [hst] at hq
        cases hq
      · intro u hu
        by_cases hut : u = t
        · subst hut
          cases (Function.update_self ..).symm.trans hu
        · refine ⟨(Function.update_of_ne hut ..).symm.trans hu, ?_⟩
          intro h'
          cases h'
          exact absurd rfl hut
    | _ =>
      refine ⟨hs, fun _ => rfl, ?_, fun u hu => ⟨hu, ?_⟩⟩
      · rintro u q n k hu hq
        cases hu
        rw [hst] at hq
        cases hq
      · intro hut n hn
        cases hut
        rw [hst] at hn
        cases hn
  · push Not at hwake
    obtain ⟨s, hs, rfl⟩ := serverStep_of_ne hwake hstep
    exact ⟨hs, fun _ => rfl, fun u _ _ _ hu => absurd hu (hwake u),
      fun u hu => ⟨hu, fun hu' => absurd hu' (hwake u)⟩⟩

theorem Waits.serverStep {e : Event} (hw : Waits handles h)
    (hguard : h.signalling = none ∨ e.outsideFileMutex = true)
    (hok : h.server.MarkUndisturbed e) (hstep : h.serverStep e = some h') : Waits handles h' := by
  obtain ⟨hserver, hsame, hparks, hwake⟩ := serverStep_cases hstep
  have hs := Server.owned_of_reachable hw.reach
  have hcount := Server.counted_of_reachable hw.reach
  have hreg := Server.registered_of_reachable hw.reach
  have htally := Server.tallied_of_reachable hw.reach
  -- is this a waiter that goes back to sleep?
  by_cases hresleep : ∃ u p node woken, e = .wake u ∧ h'.server.thread u = .parked p node woken
  · obtain ⟨u, p, node, woken, rfl, hu⟩ := hresleep
    have hsignal := hparks u p node woken rfl hu
    have hnone : h.signalling = none := hguard.resolve_right nofun
    constructor
    · exact .step hw.reach hok hserver
    · intro x n hx
      rw [hsignal] at hx
      cases hx
      exact ⟨p, woken, hu⟩
    · rintro t n ⟨ht', hcond'⟩
      obtain ⟨hcond, hnotVictim⟩ := hwake t hcond'
      have ht : h.server.thread t = .victim n :=
        Server.step_victim hs hserver ht' fun h' => hnotVictim h' n ht'
      obtain ⟨w, hwmem, rfl, hto⟩ := hw.toWake t n ⟨ht, hcond⟩
      have hlt : w.wokeUp < w.inWait := by
        rcases hto with hlt | ⟨-, x, hx⟩
        · exact hlt
        · rw [hnone] at hx
          cases hx
      rcases Server.step_victim_node hs hcount htally hok hserver hwmem ht ht' with
        hmem | ⟨x, q, hx, hq, hmem⟩
      · exact ⟨w, hmem, rfl, .inl hlt⟩
      · -- the waiter has counted itself on the node of the victim
        cases hx
        rw [hu] at hq
        cases hq
        refine ⟨_, hmem, rfl, ?_⟩
        by_cases hlast : w.wokeUp + 1 = w.inWait
        · exact .inr ⟨hlast, u, hsignal⟩
        · left
          show w.wokeUp + 1 < w.inWait
          omega
  · have hsignal : h'.signalling = h.signalling := by
      apply hsame
      intro u node woken he p hu
      exact hresleep ⟨u, p, node, woken, he, hu⟩
    constructor
    · exact .step hw.reach hok hserver
    · intro x n hx
      rw [hsignal] at hx
      obtain ⟨p, woken, hp⟩ := hw.signaller x n hx
      have hout : e.outsideFileMutex = true := by
        rcases hguard with hnone | hout
        · rw [hnone] at hx
          cases hx
        · exact hout
      obtain ⟨-, woken', hp'⟩ := parked_of_outside hs hreg hout hserver hp
      exact ⟨p, woken', hp'⟩
    · rintro t n ⟨ht', hcond'⟩
      obtain ⟨hcond, hnotVictim⟩ := hwake t hcond'
      have ht : h.server.thread t = .victim n :=
        Server.step_victim hs hserver ht' fun h' => hnotVictim h' n ht'
      obtain ⟨w, hwmem, rfl, hto⟩ := hw.toWake t n ⟨ht, hcond⟩
      have hmem : w ∈ h'.server.headWaitList := by
        rcases Server.step_victim_node hs hcount htally hok hserver hwmem ht ht' with
          hmem | ⟨x, q, hx, hq, -⟩
        · exact hmem
        · exact absurd ⟨x, q, w.node, false, hx, hq⟩ hresleep
      refine ⟨w, hmem, rfl, ?_⟩
      unfold StillToWake
      rw [hsignal]
      exact hto

/-! ## Steps of `wake_cond` -/

/-- The victim of a node is unique. -/
theorem Waits.victim_unique (hw : Waits handles h) {u : Int} (ht : h.server.thread t = .victim node)
    (hu : h.server.thread u = .victim node) : u = t := by
  have htally := Server.tallied_of_reachable hw.reach
  have hcount := Server.counted_of_reachable hw.reach
  obtain ⟨-, v, hv, hvn, hvm⟩ := htally.victim t node ht
  obtain ⟨-, w, hw', hwn, hwm⟩ := htally.victim u node hu
  have heq : v = w := List.inj_on_of_nodup_map hcount.nodes hv hw' (hvn.trans hwn.symm)
  rw [← hwm, ← heq, hvm]

/-- **The last waiter signals the victim**. -/
theorem Waits.testWoken {chosen : Int} (hw : Waits handles h)
    (hstep : h.step (.testWoken chosen) = some h') : Waits handles h' := by
  simp only [step, Option.bind_eq_bind, Option.bind_eq_some_iff] at hstep
  obtain ⟨⟨u, node⟩, hsignal, w, hfind, hstep⟩ := hstep
  have hmem : w ∈ h.server.headWaitList := List.mem_of_find?_eq_some hfind
  have hwn : w.node = node := by simpa using List.find?_some hfind
  have hcount := Server.counted_of_reachable hw.reach
  -- a victim of another node, or one whose node is not complete, goes on waiting
  have hstill : ∀ {t : Int} {n : Nat}, h.WaitsOnWakeCond t n → (n = node → w.wokeUp ≠ w.inWait) →
      ∃ v ∈ h.server.headWaitList, v.node = n ∧ v.wokeUp < v.inWait := by
    intro t n ht hne
    obtain ⟨v, hv, hvn, hto⟩ := hw.toWake t n ht
    refine ⟨v, hv, hvn, ?_⟩
    rcases hto with hlt | ⟨heq, x, hx⟩
    · exact hlt
    · rw [hsignal] at hx
      cases hx
      have hvw : v = w := List.inj_on_of_nodup_map hcount.nodes hv hmem hwn.symm
      exact absurd (hvw ▸ heq) (hne hvn.symm)
  split at hstep
  · rename_i hlast
    split at hstep
    · -- the victim of the node is the one that is signalled
      rename_i hchosen
      cases hstep
      refine ⟨hw.reach, nofun, ?_⟩
      rintro t n ⟨ht, hcond⟩
      by_cases htc : t = chosen
      · subst htc
        cases (Function.update_self ..).symm.trans hcond
      · have hcond' : h.wakeState t = .onWakeCond false :=
          (Function.update_of_ne htc ..).symm.trans hcond
        obtain ⟨v, hv, hvn, hlt⟩ := hstill ⟨ht, hcond'⟩ (by
          rintro rfl
          exact absurd (hw.victim_unique hchosen.1 ht) htc)
        exact ⟨v, hv, hvn, .inl hlt⟩
    split at hstep
    · cases hstep
    · -- no victim waits there
      rename_i hnobody
      cases hstep
      refine ⟨hw.reach, nofun, ?_⟩
      rintro t n ⟨ht, hcond⟩
      obtain ⟨v, hv, hvn, hlt⟩ := hstill ⟨ht, hcond⟩ (by
        rintro rfl
        have hlive : searchTxn t h.server.headTxnList ≠ none := by
          apply (Server.registered_of_reachable hw.reach).live
          show (h.server.thread t).place _ ≠ none
          rw [ht]
          exact nofun
        obtain ⟨m, hm⟩ := Option.ne_none_iff_exists'.mp hlive
        refine absurd ⟨m, searchTxn_mem hm, ?_⟩ hnobody
        rw [searchTxn_id hm]
        exact ⟨ht, hcond⟩)
      exact ⟨v, hv, hvn, .inl hlt⟩
  · rename_i hne
    cases hstep
    refine ⟨hw.reach, nofun, ?_⟩
    rintro t n ⟨ht, hcond⟩
    obtain ⟨v, hv, hvn, hlt⟩ := hstill ⟨ht, hcond⟩ fun _ => hne
    exact ⟨v, hv, hvn, .inl hlt⟩

/-- **Every step under the condition keeps the hand-over going**. -/
theorem waits_step (hw : Waits handles h) (hok : h.Undisturbed e) (hstep : h.step e = some h') :
    Waits handles h' := by
  cases e with
  | server e =>
    simp only [step] at hstep
    split at hstep
    · rename_i hguard
      exact hw.serverStep hguard hok hstep
    · cases hstep
  | testWoken chosen => exact hw.testWoken hstep
  | checkWoken t =>
    simp only [step] at hstep
    split at hstep
    · rename_i node ht
      split at hstep
      · simp only [Option.bind_eq_bind, Option.bind_eq_some_iff, Option.some.injEq] at hstep
        obtain ⟨w, hfind, rfl⟩ := hstep
        have hmem : w ∈ h.server.headWaitList := List.mem_of_find?_eq_some hfind
        have hwn : w.node = node := by simpa using List.find?_some hfind
        refine ⟨hw.reach, hw.signaller, ?_⟩
        rintro u n ⟨hu, hcond⟩
        by_cases hut : u = t
        · subst hut
          -- the victim has compared the counters
          have hcond' : (if w.wokeUp < w.inWait then WakeState.onWakeCond false else .through) =
              .onWakeCond false := (Function.update_self ..).symm.trans hcond
          split at hcond'
          · rename_i hlt
            have hn : n = node := by
              have hvictim : TxFS.ThreadState.victim n = .victim node := hu.symm.trans ht
              cases hvictim
              rfl
            exact ⟨w, hmem, hwn.trans hn.symm, .inl hlt⟩
          · cases hcond'
        · exact hw.toWake u n ⟨hu, (Function.update_of_ne hut ..).symm.trans hcond⟩
      · cases hstep
    · cases hstep
  | returnFromWakeCond t =>
    simp only [step] at hstep
    split at hstep
    · cases hstep
      refine ⟨hw.reach, hw.signaller, ?_⟩
      rintro u n ⟨hu, hcond⟩
      by_cases hut : u = t
      · subst hut
        cases (Function.update_self ..).symm.trans hcond
      · exact hw.toWake u n ⟨hu, (Function.update_of_ne hut ..).symm.trans hcond⟩
    · cases hstep
    · cases hstep

/-! ## No stranded victim -/

/-- **No victim is stranded**: when everybody else on its node is asleep, the victim has been
    signalled or is not waiting on `wake_cond`. -/
theorem no_stranded_victim (hreach : ReachableUnder (init handles) step Undisturbed h) :
    ¬ h.Stranded t node := by
  have hw : Waits handles h := hreach.invariant waits_init fun _ _ _ _ hw hok hstep =>
    waits_step hw hok hstep
  have hcount := Server.counted_of_reachable hw.reach
  have htally := Server.tallied_of_reachable hw.reach
  rintro ⟨hwaits, hasleep⟩
  obtain ⟨hne, v, hv, hvn, hmark⟩ := htally.victim t node hwaits.1
  obtain ⟨w, hmem, rfl, hto⟩ := hw.toWake t node hwaits
  have hvw : v = w := List.inj_on_of_nodup_map hcount.nodes hv hmem hvn
  subst hvw
  -- everybody on the node has seen the mark
  have hall : h.server.queue.waiters v.node ⊆ h.server.seen v.node := by
    intro u hu
    by_cases hut : u = t
    · exact .inl (hut ▸ hwaits.1)
    · exact .inr (hasleep u hu hut).1
  have hle := Set.ncard_le_ncard hall (Server.finite_seen hcount hv)
  have hseen := htally.tally v hv (hmark ▸ hne)
  have hwaiters := hcount.count v hv
  rcases hto with hlt | ⟨-, u, hu⟩
  · have hcast : ((h.server.queue.waiters v.node).ncard : Int) ≤ (h.server.seen v.node).ncard :=
      Int.ofNat_le.mpr hle
    have hcnt : ((h.server.queue.waiters v.node).ncard : Int) = v.inWait := hwaiters
    omega
  · -- the waiter that is about to signal is not asleep
    obtain ⟨p, woken, hp⟩ := hw.signaller u v.node hu
    have hut : u ≠ t := by
      rintro rfl
      rw [hwaits.1] at hp
      cases hp
    have huw : u ∈ h.server.queue.waiters v.node :=
      ⟨_, congrArg (TxFS.ThreadState.place _) hp, rfl⟩
    exact (hasleep u huw hut).2 v.node hu

/-- A victim waits on `wake_cond` while two waiters of its node are still to wake up. -/
theorem no_stranded_victim_waiting :
    ∃ h, ReachableUnder (init 1) step Undisturbed h ∧ h.WaitsOnWakeCond 2 0 ∧ ¬ h.Stranded 2 0 := by
  obtain ⟨h, hh, hwaits⟩ := exists_of_runUnder (init 1) step Undisturbed
    (fun h => h.WaitsOnWakeCond 2 0)
    [.server (.begin 1), .server (.begin 2), .server (.begin 3), .server (.begin 4),
      .server (.lock 1 ⟨7, 2, .placeholder⟩ 0), .server (.lock 2 ⟨7, 2, .placeholder⟩ 0),
      .server (.lock 3 ⟨7, 2, .placeholder⟩ 0), .server (.lock 4 ⟨7, 2, .placeholder⟩ 0),
      .server (.markVictim 7 2), .server (.wake 3), .testWoken 2, .server (.wake 2),
      .checkWoken 2] (by decide)
  exact ⟨h, hh, hwaits, no_stranded_victim hh⟩

/-- The server of the machine runs as the server does. -/
theorem server_reachable (hreach : Reachable (init handles) step h) :
    Reachable (Server.globalInit handles) Server.step h.server := by
  refine hreach.invariant (P := fun h => Reachable (Server.globalInit handles) Server.step h.server)
    .init ?_
  intro h e h' _ hserver _ hstep
  cases e with
  | server e =>
    simp only [step] at hstep
    split at hstep
    · exact .step hserver trivial (serverStep_cases hstep).1
    · cases hstep
  | testWoken chosen =>
    simp only [step, Option.bind_eq_bind, Option.bind_eq_some_iff] at hstep
    obtain ⟨_, -, w, -, hstep⟩ := hstep
    split at hstep
    · split at hstep
      · cases hstep
        exact hserver
      · split at hstep <;> cases hstep
        exact hserver
    · cases hstep
      exact hserver
  | checkWoken t =>
    simp only [step] at hstep
    split at hstep
    · split at hstep
      · simp only [Option.bind_eq_bind, Option.bind_eq_some_iff, Option.some.injEq] at hstep
        obtain ⟨_, -, rfl⟩ := hstep
        exact hserver
      · cases hstep
    · cases hstep
  | returnFromWakeCond t =>
    simp only [step] at hstep
    split at hstep <;> cases hstep
    exact hserver

/-- Transactions 1 and 2 wait for each other, and 3 waits for inode 7 of transaction 2, too.
    Transaction 1 is marked, and 4 joins the node before 1 and 3 wake up: `in_wait` is now 3,
    and `woke_up` stays at 2. -/
theorem stranded_victim : ∃ h, Reachable (init 1) step h ∧ h.Stranded 1 1 := by
  obtain ⟨h, hh, hwaits, hnone, hlist, h2, h3, h4⟩ := exists_of_run (init 1) step
    (fun h => h.WaitsOnWakeCond 1 1 ∧ h.signalling = none ∧
      (h.server.headTxnList.map TxnNode.txnId) = [1, 2, 3, 4] ∧
      h.server.thread 2 = .parked ⟨⟨8, 2, .placeholder⟩, some 0⟩ 0 false ∧
      h.server.thread 3 = .parked ⟨⟨7, 2, .placeholder⟩, some 1⟩ 1 false ∧
      h.server.thread 4 = .parked ⟨⟨7, 2, .placeholder⟩, some 1⟩ 1 false)
    [.server (.begin 1), .server (.begin 2), .server (.begin 3), .server (.begin 4),
      .server (.lock 1 ⟨8, 2, .placeholder⟩ 0), .server (.lock 2 ⟨7, 2, .placeholder⟩ 0),
      .server (.lock 2 ⟨8, 2, .placeholder⟩ 0), .server (.lock 1 ⟨7, 2, .placeholder⟩ 0),
      .server (.lock 3 ⟨7, 2, .placeholder⟩ 0), .server (.markVictim 7 1),
      .server (.lock 4 ⟨7, 2, .placeholder⟩ 0), .server (.wake 1), .checkWoken 1,
      .server (.wake 3), .testWoken 1] (by decide)
  refine ⟨h, hh, hwaits, ?_⟩
  intro u hu hut
  have hreg := Server.registered_of_reachable (server_reachable hh)
  obtain ⟨p, hp, hpn⟩ := hu
  -- only live transactions wait
  have hlive : u ∈ h.server.headTxnList.map TxnNode.txnId := by
    have hlive := hreg.live (t := u) (by
      rw [hp]
      exact nofun)
    obtain ⟨m, hm⟩ := Option.ne_none_iff_exists'.mp hlive
    exact List.mem_map.mpr ⟨m, searchTxn_mem hm, searchTxn_id hm⟩
  rw [hlist] at hlive
  have hsignal : ∀ n, h.signalling ≠ some (u, n) := by
    intro n hn
    rw [hnone] at hn
    cases hn
  simp only [List.mem_cons, List.not_mem_nil, or_false] at hlive
  rcases hlive with rfl | rfl | rfl | rfl
  · exact absurd rfl hut
  · -- 2 waits on another node
    have hplace : h.server.queue.place 2 = _ := congrArg (TxFS.ThreadState.place _) h2
    rw [hplace] at hp
    cases hp
    cases hpn
  · exact ⟨⟨_, h3⟩, hsignal⟩
  · exact ⟨⟨_, h4⟩, hsignal⟩

end Handover

end TxFS
