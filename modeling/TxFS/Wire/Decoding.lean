import TxFS.Wire.Client

/-!
# What the Handler Reads

The handler against the messages of the library's calls, each received whole by one read.
Both sides count arguments by tables of their own; `decoded_iff` says on which sequences of
calls the handler finds exactly the calls that were made.
-/

namespace TxFS

namespace Handler

variable {h : Handler} {c : LibCall} {calls : List LibCall} {inputs : List (Msg × OpResult)}

/-! ## One branch -/

theorem branch_requests {cmd : Command} {res : OpResult} :
    (h.branch cmd res).1.requests = h.requests := by
  cases cmd
  case read =>
    show (h.sendData res).1.requests = _
    unfold sendData
    split <;> rfl
  all_goals rfl

theorem serve_requests {res : OpResult} :
    (h.serve res).1.requests = h.requests ++ [h.incall] := by
  unfold serve
  dsimp only
  split
  · rfl
  · exact branch_requests

/-- Where the handler stands behind a branch. -/
theorem branch_phase {cmd : Command} {res : OpResult} :
    (cmd = .quit → (h.branch cmd res).1.phase = .closed) ∧
    (cmd = .read → ∃ n data, (h.branch cmd res).1.phase = .ack n data) ∧
    (cmd ≠ .quit → cmd ≠ .read → (h.branch cmd res).1.phase = h.phase) := by
  cases cmd
  case quit => exact ⟨fun _ => rfl, nofun, fun hne => absurd rfl hne⟩
  case read =>
    refine ⟨nofun, fun _ => ?_, fun _ hne => absurd rfl hne⟩
    show ∃ n data, (h.sendData res).1.phase = .ack n data
    unfold sendData
    split <;> exact ⟨_, _, rfl⟩
  all_goals exact ⟨nofun, nofun, fun _ _ => rfl⟩

theorem serve_eq {cmd : Command} (hcmd : h.incall.head? = some cmd.name.toList) {res : OpResult} :
    h.serve res =
      { h with phase := .command, requests := h.requests ++ [h.incall] }.branch cmd res := by
  unfold serve
  simp only [hcmd, Option.bind_some, Command.ofName_name]

theorem serve_phase {cmd : Command} (hcmd : h.incall.head? = some cmd.name.toList)
    (res : OpResult) :
    (cmd = .quit → (h.serve res).1.phase = .closed) ∧
    (cmd = .read → ∃ n data, (h.serve res).1.phase = .ack n data) ∧
    (cmd ≠ .quit → cmd ≠ .read → (h.serve res).1.phase = .command) := by
  rw [serve_eq hcmd]
  exact branch_phase

/-! ## One call -/

theorem readAll_append {more : List (Msg × OpResult)} :
    h.readAll (inputs ++ more) = (h.readAll inputs).readAll more := List.foldl_append

theorem read_name (hphase : h.phase = .command) (cmd : Command) (res : OpResult) :
    h.read cmd.name.toList res =
      { h with incall := [cmd.name.toList], noOfArg := cmd.noOfArg }.received res := by
  rw [read, hphase]
  simp only [Msg.text_of_no_nul cmd.no_nul_name, Command.ofName_name, Option.map_some,
    Option.getD_some]

theorem read_argument {m : Msg} (hphase : h.phase = .argument) (hnul : '\x00' ∉ m)
    (res : OpResult) :
    h.read m res = { h with incall := h.incall ++ [m] }.received res := by
  rw [read, hphase]
  simp only [Msg.text_of_no_nul hnul]

/-- The arguments of a call, up to its branch. -/
theorem readAll_arguments (m : Msg) (r : OpResult) (inputs : List (Msg × OpResult))
    (hphase : h.phase = .argument)
    (hlen : h.incall.length + (inputs.length + 1) = h.noOfArg)
    (hnul : ∀ x ∈ (m, r) :: inputs, '\x00' ∉ x.1) :
    ∃ res, h.readAll ((m, r) :: inputs) =
      ({ h with incall := h.incall ++ m :: inputs.map Prod.fst }.serve res).1 := by
  induction inputs generalizing h m r with
  | nil =>
    refine ⟨r, ?_⟩
    show (h.read m r).1 = _
    rw [read_argument hphase (hnul _ (List.mem_cons_self ..)), received, if_neg]
    · rfl
    · -- this was the last argument
      simp only [List.length_append, List.length_cons, List.length_nil] at hlen ⊢
      omega
  | cons x inputs ih =>
    have hread : (h.read m r).1 = { h with incall := h.incall ++ [m] } := by
      rw [read_argument hphase (hnul _ (List.mem_cons_self ..)), received, if_pos, hphase]
      simp only [List.length_append, List.length_cons, List.length_nil] at hlen ⊢
      omega
    obtain ⟨res, hres⟩ := ih (h := { h with incall := h.incall ++ [m] }) x.1 x.2 hphase
       (by simp only [List.length_append, List.length_cons, List.length_nil] at hlen ⊢; omega)
      fun y hy => hnul y (List.mem_cons_of_mem _ hy)
    refine ⟨res, ?_⟩
    show Handler.readAll (h.read m r).1 (x :: inputs) = _
    rw [hread]
    simpa using hres

/-- **The messages of a call whose count the handler knows**: its branch is executed on
    them. -/
theorem readAll_request {cmd : Command} {args : List Msg} (hphase : h.phase = .command)
    (hlen : cmd.noOfArg = args.length + 1) (hnul : ∀ m ∈ args, '\x00' ∉ m)
    (hinputs : inputs.map Prod.fst = cmd.name.toList :: args) :
    ∃ res, h.readAll inputs =
      ({ h with incall := cmd.name.toList :: args, noOfArg := cmd.noOfArg }.serve res).1 := by
  obtain ⟨x, inputs, rfl⟩ : ∃ x xs, inputs = x :: xs := by
    cases inputs with
    | nil => cases hinputs
    | cons x xs => exact ⟨x, xs, rfl⟩
  obtain ⟨hname, hargs⟩ := List.cons.inj hinputs
  have hread : h.read x.1 x.2 =
      { h with incall := [cmd.name.toList], noOfArg := cmd.noOfArg }.received x.2 := by
    rw [← read_name hphase, ← hname]
  cases inputs with
  | nil =>
    subst hargs
    refine ⟨x.2, ?_⟩
    show (h.read x.1 x.2).1 = _
    rw [hread, received, if_neg]
    · rfl
    · simp [hlen]
  | cons y inputs =>
    have hlen' : (y :: inputs).length = args.length := by
      rw [← hargs, List.length_map]
    have hread' : (h.read x.1 x.2).1 =
        { h with incall := [cmd.name.toList], noOfArg := cmd.noOfArg, phase := .argument } := by
      rw [hread, received, if_pos]
      simp only [List.length_cons, List.length_nil] at hlen' ⊢
      omega
    obtain ⟨res, hres⟩ := readAll_arguments y.1 y.2 inputs
      (h := { h with incall := [cmd.name.toList], noOfArg := cmd.noOfArg, phase := .argument })
      rfl (by simp only [List.length_cons, List.length_nil] at hlen' ⊢; omega) (by
        intro z hz
        exact hnul _ (hargs ▸ List.mem_map_of_mem hz))
    refine ⟨res, ?_⟩
    show Handler.readAll (h.read x.1 x.2).1 (y :: inputs) = _
    rw [hread', hres, ← hargs]
    rfl

theorem read_ack {n : Int} {data : Msg} (hphase : h.phase = .ack n data) (m : Msg)
    (res : OpResult) :
    (h.read m res).1.requests = h.requests ∧ (h.read m res).1.phase = .command := by
  rw [read, hphase]
  exact ⟨rfl, rfl⟩

/-- A call on which the two tables agree. -/
theorem readAll_sends (hphase : h.phase = .command) (hbeg : c.command ≠ .txnBeg)
    (hstat : c.command ≠ .stat) (hinputs : inputs.map Prod.fst = c.sends) :
    (h.readAll inputs).requests = h.requests ++ [c.request] ∧
      (h.readAll inputs).phase = if c.command = .quit then .closed else .command := by
  rw [LibCall.sends_eq hbeg hstat] at hinputs
  obtain ⟨first, last, rfl, hfirst, hlast⟩ := List.map_eq_append_iff.mp hinputs
  have hlen : c.command.noOfArg = c.args.length + 1 := LibCall.noOfArg_eq hbeg hstat
  obtain ⟨res, hres⟩ := readAll_request hphase hlen (fun m hm => (LibCall.args_text m hm).2) hfirst
  rw [readAll_append, hres]
  have hcmd : ({ h with incall := c.request, noOfArg := c.command.noOfArg } : Handler).incall.head? =
      some c.command.name.toList := rfl
  obtain ⟨hquit, hread, hother⟩ := serve_phase hcmd res
  by_cases hr : c.command = .read
  · -- the acknowledgement is read in the branch
    rw [if_pos hr] at hlast
    obtain ⟨x, hx, -⟩ := List.map_eq_singleton_iff.mp hlast
    subst hx
    obtain ⟨n, data, hphase'⟩ := hread hr
    obtain ⟨hreq, hcommand⟩ := read_ack hphase' x.1 x.2
    refine ⟨hreq.trans serve_requests, hcommand.trans ?_⟩
    rw [if_neg]
    rw [hr]
    exact nofun
  · have hnil : last = [] := by
      rw [if_neg hr] at hlast
      exact List.map_eq_nil_iff.mp hlast
    subst hnil
    refine ⟨serve_requests, ?_⟩
    by_cases hq : c.command = .quit
    · rw [if_pos hq]
      exact hquit hq
    · rw [if_neg hq]
      exact hother hq hr

/-! ## Sequences of calls -/

theorem received_requests {res : OpResult} : h.requests <+: (h.received res).1.requests := by
  unfold received
  split
  · exact List.prefix_refl _
  · show h.requests <+: (h.serve res).1.requests
    rw [serve_requests]
    exact List.prefix_append ..

theorem read_requests {m : Msg} {res : OpResult} : h.requests <+: (h.read m res).1.requests := by
  cases hphase : h.phase with
  | command =>
    rw [read, hphase]
    exact received_requests (h := { h with phase := .command, incall := _, noOfArg := _ })
  | argument =>
    rw [read, hphase]
    exact received_requests (h := { h with phase := .argument, incall := _ })
  | ack n data =>
    have hsame := (read_ack hphase m res).1
    exact hsame.symm ▸ List.prefix_refl _
  | closed =>
    have hsame : (h.read m res).1 = h := by
      unfold read
      simp only [hphase]
    exact hsame.symm ▸ List.prefix_refl _

/-- A branch that was executed stays executed. -/
theorem readAll_requests (h : Handler) (inputs : List (Msg × OpResult)) :
    h.requests <+: (h.readAll inputs).requests := by
  induction inputs generalizing h with
  | nil => exact List.prefix_refl _
  | cons x inputs ih => exact read_requests.trans (ih _)

/-- **The calls are reconstructed**: every branch was executed for a call of the client with
    its arguments, in order, no message is taken for a part of another call, and a branch
    uses only arguments that were received. -/
structure Decoded (h : Handler) (calls : List LibCall) : Prop where
  requests : h.requests = calls.map LibCall.request
  complete : h.phase = .command ∨ h.phase = .closed
  received : ∀ r ∈ h.requests, ∀ cmd, r.head?.bind Command.ofName = some cmd →
    ∀ i ∈ cmd.uses, i < r.length

/-- Where the handler stands after some calls, the first of which found it in the loop. -/
def Follows (g h : Handler) (calls : List LibCall) : Prop :=
  g.requests = h.requests ++ calls.map LibCall.request ∧ (g.phase = .command ∨ g.phase = .closed)

/-- The name of a transaction's begin is a call of its own. -/
theorem not_follows_txnBeg (hphase : h.phase = .command) (hbeg : c.command = .txnBeg)
    (hinputs : inputs.map Prod.fst = (c :: calls).flatMap LibCall.sends) :
    ¬ (h.readAll inputs).Follows h (c :: calls) := by
  rintro ⟨hreq, -⟩
  cases c <;> cases hbeg
  rename_i tId
  have hsplit : inputs.map Prod.fst = [Command.txnBeg.name.toList] ++
      ([Msg.ofInt tId] ++ calls.flatMap LibCall.sends) := hinputs
  obtain ⟨first, rest, rfl, hfirst, -⟩ := List.map_eq_append_iff.mp hsplit
  obtain ⟨res, hres⟩ := readAll_request hphase rfl (fun m hm => by cases hm) hfirst
  -- the branch has been executed without the id
  have hdone := readAll_requests (h.readAll first) rest
  rw [← readAll_append, hres, serve_requests, hreq, List.prefix_append_right_inj] at hdone
  simp [LibCall.request, LibCall.command, LibCall.args] at hdone

/-- A message that is no name of a call is the first of as many messages as the last call
    had. -/
theorem read_stray {m : Msg} (hphase : h.phase = .command) (htwo : h.noOfArg = 2)
    (hname : Command.ofName (Msg.text m) = none) (r : OpResult) (m' : Msg) (r' : OpResult) :
    (h.read m r).1.phase = .argument ∧
      ((h.read m r).1.read m' r').1.requests = h.requests ++ [[Msg.text m, Msg.text m']] := by
  have hread : (h.read m r).1 = { h with incall := [Msg.text m], phase := .argument } := by
    rw [read, hphase]
    simp only [hname, Option.map_none, Option.getD_none]
    rw [received, if_pos]
    simp [htwo]
  refine ⟨by rw [hread], ?_⟩
  rw [hread]
  simp only [read]
  rw [received, if_neg]
  · exact serve_requests
  · simp [htwo]

/-- The last element of a `stat` starts another call. -/
theorem not_follows_stat (hphase : h.phase = .command) (hstat : c.command = .stat)
    (hinputs : inputs.map Prod.fst = (c :: calls).flatMap LibCall.sends) :
    ¬ (h.readAll inputs).Follows h (c :: calls) := by
  rintro ⟨hreq, hcomplete⟩
  cases c <;> cases hstat
  rename_i path
  have hsplit : inputs.map Prod.fst = [Command.stat.name.toList, path.val] ++
      ("sesh".toList :: calls.flatMap LibCall.sends) := hinputs
  obtain ⟨first, rest, rfl, hfirst, hrest⟩ := List.map_eq_append_iff.mp hsplit
  obtain ⟨x, rest, rfl, hx, hrest⟩ := List.map_eq_cons_iff.mp hrest
  obtain ⟨res, hres⟩ := readAll_request hphase rfl
    (fun m hm => (List.mem_singleton.mp hm) ▸ path.no_nul) hfirst
  rw [serve_eq rfl] at hres
  have hcommand : (h.readAll first).phase = .command := by rw [hres]; rfl
  have htwo : (h.readAll first).noOfArg = 2 := by rw [hres]; rfl
  have hdone : (h.readAll first).requests =
      h.requests ++ [[Command.stat.name.toList, path.val]] := by rw [hres]; rfl
  have hsesh : Command.ofName (Msg.text x.1) = none := by
    rw [hx]
    decide
  rw [readAll_append] at hreq hcomplete
  cases rest with
  | nil =>
    -- the handler waits for one more argument
    have hstray := (read_stray hcommand htwo hsesh x.2 [] x.2).1
    have hend : (h.readAll first).readAll [x] = ((h.readAll first).read x.1 x.2).1 := rfl
    rw [hend, hstray] at hcomplete
    rcases hcomplete with hcomplete | hcomplete <;> cases hcomplete
  | cons y rest =>
    -- the first message of the next call is taken for an argument
    have hstray := (read_stray hcommand htwo hsesh x.2 y.1 y.2).2
    have hpre := readAll_requests
      (((h.readAll first).read x.1 x.2).1.read y.1 y.2).1 rest
    have hend : (h.readAll first).readAll (x :: y :: rest) =
        ((((h.readAll first).read x.1 x.2).1.read y.1 y.2).1).readAll rest := rfl
    rw [← hend, hstray, hdone, hreq, List.append_assoc, List.prefix_append_right_inj] at hpre
    cases calls with
    | nil => simp at hrest
    | cons d calls =>
      have hnext : [Msg.text x.1, Msg.text y.1] = d.request :=
        (List.cons_prefix_cons.mp (List.cons_prefix_cons.mp hpre).2).1
      have hname : Msg.text x.1 = d.command.name.toList := (List.cons.inj hnext).1
      rw [hname] at hsesh
      simp at hsesh

/-- The same from any state in which the handler waits for a call. -/
theorem follows_iff (hphase : h.phase = .command) (hquit : ∀ c ∈ calls.dropLast, c.command ≠ .quit)
    (hinputs : inputs.map Prod.fst = calls.flatMap LibCall.sends) :
    (h.readAll inputs).Follows h calls ↔ ∀ c ∈ calls, c.command ≠ .txnBeg ∧ c.command ≠ .stat := by
  induction calls generalizing h inputs with
  | nil =>
    have hnil : inputs = [] := List.map_eq_nil_iff.mp hinputs
    subst hnil
    refine ⟨fun _ => nofun, fun _ => ⟨?_, .inl hphase⟩⟩
    exact (List.append_nil _).symm
  | cons c calls ih =>
    by_cases hbeg : c.command = .txnBeg
    · refine ⟨fun hf => absurd hf (not_follows_txnBeg hphase hbeg hinputs), ?_⟩
      intro hgood
      exact absurd hbeg (hgood c (List.mem_cons_self ..)).1
    by_cases hstat : c.command = .stat
    · refine ⟨fun hf => absurd hf (not_follows_stat hphase hstat hinputs), ?_⟩
      intro hgood
      exact absurd hstat (hgood c (List.mem_cons_self ..)).2
    -- the tables agree on `c`
    obtain ⟨first, rest, rfl, hfirst, hrest⟩ := List.map_eq_append_iff.mp
      (hinputs.trans List.flatMap_cons)
    obtain ⟨hreq, hnext⟩ := readAll_sends hphase hbeg hstat hfirst
    have hgood : (∀ d ∈ c :: calls, d.command ≠ .txnBeg ∧ d.command ≠ .stat) ↔
        ∀ d ∈ calls, d.command ≠ .txnBeg ∧ d.command ≠ .stat := by
      simp [hbeg, hstat]
    have hshift : ((h.readAll first).readAll rest).Follows h (c :: calls) ↔
        ((h.readAll first).readAll rest).Follows (h.readAll first) calls := by
      unfold Follows
      rw [hreq, List.map_cons, List.append_assoc, List.singleton_append]
    rw [readAll_append, hgood, hshift]
    by_cases hq : c.command = .quit
    · -- nothing is sent behind a `quit`
      have hcalls : calls = [] := by
        cases calls with
        | nil => rfl
        | cons d ds => exact absurd hq (hquit c (List.mem_cons_self ..))
      subst hcalls
      have hnil : rest = [] := List.map_eq_nil_iff.mp hrest
      subst hnil
      rw [if_pos hq] at hnext
      refine ⟨fun _ => nofun, fun _ => ⟨?_, .inr hnext⟩⟩
      exact (List.append_nil _).symm
    · rw [if_neg hq] at hnext
      apply ih hnext _ hrest
      intro d hd
      cases calls with
      | nil => cases hd
      | cons e es => exact hquit d (List.mem_cons_of_mem _ hd)

/-- **The handler finds exactly the calls that were made** when the two argument tables agree
    on all of them: without a begin of a transaction and without an `lstat`. -/
theorem decoded_iff {str : Msg} (hquit : ∀ c ∈ calls.dropLast, c.command ≠ .quit)
    (hinputs : inputs.map Prod.fst = calls.flatMap LibCall.sends) :
    Decoded ((start str).readAll inputs) calls ↔
      ∀ c ∈ calls, c.command ≠ .txnBeg ∧ c.command ≠ .stat := by
  have hfollows := follows_iff (h := start str) rfl hquit hinputs
  have hstart : ((start str).readAll inputs).Follows (start str) calls ↔
      ((start str).readAll inputs).requests = calls.map LibCall.request ∧
        (((start str).readAll inputs).phase = .command ∨
          ((start str).readAll inputs).phase = .closed) := by
    unfold Follows
    rfl
  constructor
  · intro hdec
    exact hfollows.mp (hstart.mpr ⟨hdec.requests, hdec.complete⟩)
  · intro hgood
    obtain ⟨hreq, hcomplete⟩ := hstart.mp (hfollows.mpr hgood)
    refine ⟨hreq, hcomplete, ?_⟩
    intro r hr cmd hcmd i hi
    rw [hreq] at hr
    obtain ⟨c, hc, rfl⟩ := List.mem_map.mp hr
    have hcmd' : c.command = cmd := by
      simpa [LibCall.request] using hcmd
    subst hcmd'
    exact LibCall.uses_lt hi

/-- An `open`, a `write` and a `read` of a file, and the end of the connection. -/
theorem decoded_open_write_read :
    let path : Arg := ⟨"/f".toList, by decide, by decide, by decide⟩
    let calls : List LibCall := [.open path 2, .write 3 path 2, .read 3 path 2, .txnCommit, .quit]
    let res : OpResult := ⟨3, "ab".toList, []⟩
    Decoded ((start (List.replicate sizeStr 'x')).readAll
      ((calls.flatMap LibCall.sends).map fun m => (m, res))) calls := by
  intro path calls res
  apply (decoded_iff _ _).mpr
  · decide
  · decide
  · simp [Function.comp_def]

/-- The begin of transaction 5: the handler uses `incall[1]` before it was received. -/
theorem txnBeg_not_decoded :
    let res : OpResult := ⟨0, [], "x".toList⟩
    let h := (start (List.replicate sizeStr 'x')).readAll
      (([LibCall.txnBeg 5].flatMap LibCall.sends).map fun m => (m, res))
    ¬ Decoded h [.txnBeg 5] ∧ h.requests = [["txn_beg".toList], ["5".toList]] := by
  intro res h
  have hreq : h.requests = [["txn_beg".toList], ["5".toList]] := by decide
  refine ⟨fun hdec => ?_, hreq⟩
  exact absurd (hdec.received _ (hreq ▸ List.mem_cons_self ..) .txnBeg (by decide) 1 (by decide))
    (by decide)

end Handler

end TxFS
