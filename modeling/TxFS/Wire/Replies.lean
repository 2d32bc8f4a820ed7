import TxFS.Wire.Decoding

/-!
# What the Handler Answers

Every reply is the buffer `str`. The branches of most calls format the value of their
operation into it; the branch of a `write` sends it as the last call has left it.
-/

namespace TxFS

namespace Handler

variable {h : Handler} {r : List Msg} {rs : List (List Msg)} {res : OpResult}

/-! ## Requests -/

/-- One turn of the loop for the call `r`, and for a `read` the turn of its acknowledgement. -/
def handle (h : Handler) (r : List Msg) (res : OpResult) : Handler :=
  if h.phase = .closed then h
  else
    let h := ({ h with incall := r }.serve res).1
    match h.phase with
    | .ack .. => (h.read "ack".toList res).1
    | _ => h

def handleAll (h : Handler) (xs : List (List Msg × OpResult)) : Handler :=
  xs.foldl (fun h x => h.handle x.1 x.2) h

/-- The call in `incall[0]`. -/
def commandOf (r : List Msg) : Option Command := r.head?.bind Command.ofName

/-- The calls whose reply is the value of an operation. -/
def answersValue : Command → Bool
  | .open | .read | .write | .lseek | .creat | .rename | .unlink | .stat | .inodeStat => true
  | .txnBeg | .txnCommit | .txnAbort | .quit | .bckBeg => false

/-- The text of a reply denotes the value of the operation. -/
def Matches (reply : Reply) : Prop :=
  ∀ cmd, commandOf reply.incall = some cmd → answersValue cmd = true →
    Msg.atoi (Msg.text reply.str) = reply.ret

/-- **Replies match requests**. -/
def RepliesMatch (h : Handler) : Prop := ∀ reply ∈ h.replies, Matches reply

/-- The values of an `int`. -/
def IsInt (v : Int) : Prop := -2 ^ 31 ≤ v ∧ v < 2 ^ 31

instance (v : Int) : Decidable (IsInt v) := inferInstanceAs (Decidable (_ ∧ _))

theorem head_of_commandOf {cmd : Command} (hcmd : commandOf r = some cmd) :
    r.head? = some cmd.name.toList := by
  obtain ⟨m, hm, hname⟩ := Option.bind_eq_some_iff.mp hcmd
  rw [hm, Command.ofName_eq_some hname]

/-- A call other than `read` takes one turn. -/
theorem handle_serve {cmd : Command} (hphase : h.phase = .command) (hcmd : commandOf r = some cmd)
    (hread : cmd ≠ .read) : h.handle r res = ({ h with incall := r }.serve res).1 := by
  have hserve := serve_phase (h := { h with incall := r }) (head_of_commandOf hcmd) res
  rw [handle, if_neg (by rw [hphase]; exact nofun)]
  dsimp only
  split
  · rename_i hack
    by_cases hquit : cmd = .quit
    · rw [hserve.1 hquit] at hack
      cases hack
    · rw [hserve.2.2 hquit hread] at hack
      cases hack
  · rfl

/-- A `read` takes two. -/
theorem handle_serve_read (hphase : h.phase = .command) (hcmd : commandOf r = some .read)
    (m : Msg) (res' : OpResult) :
    h.handle r res = (({ h with incall := r }.serve res).1.read m res').1 := by
  obtain ⟨n, data, hack⟩ :=
    (serve_phase (h := { h with incall := r }) (head_of_commandOf hcmd) res).2.1 rfl
  rw [handle, if_neg (by rw [hphase]; exact nofun)]
  simp only [hack, read]

/-! ## One request -/

/-- A formatted `int` is read back from the reply. -/
theorem atoi_format {v : Int} (hv : IsInt v) : Msg.atoi (Msg.text (h.format v).str) = v := by
  have hlen : (Msg.ofInt v).length < sizeStr := by
    have hle := Msg.length_ofInt (v := v) (by
      unfold IsInt at hv
      omega)
    unfold sizeStr
    omega
  show Msg.atoi (Msg.text (Msg.snprintf sizeStr h.str (Msg.ofInt v))) = v
  rw [Msg.text_snprintf Msg.no_nul_ofInt hlen, Msg.atoi_ofInt]

/-- The reply of a request: a `write` sends the buffer as it is, the other calls that answer
    a value format it. -/
theorem handle_replies {cmd : Command} (hphase : h.phase = .command)
    (hcmd : commandOf r = some cmd) (res : OpResult) :
    ∃ reply : Reply, (h.handle r res).replies = h.replies ++ [reply] ∧
      reply.incall = r ∧ reply.ret = res.ret ∧ (cmd = .write → reply.str = h.str) ∧
      (answersValue cmd = true → cmd ≠ .write → ∃ g : Handler, reply.str = (g.format res.ret).str) := by
  by_cases hread : cmd = .read
  · subst hread
    rw [handle_serve_read hphase hcmd [] res, serve_eq (head_of_commandOf hcmd)]
    show ∃ reply : Reply, ((Handler.sendData _ res).1.read [] res).1.replies = _ ∧ _
    unfold sendData
    split
    · rename_i hret
      rw [hret]
      exact ⟨_, rfl, rfl, rfl, nofun, fun _ _ => ⟨_, rfl⟩⟩
    · exact ⟨_, rfl, rfl, rfl, nofun, fun _ _ => ⟨_, rfl⟩⟩
  · rw [handle_serve hphase hcmd hread, serve_eq (head_of_commandOf hcmd)]
    cases cmd
    case read => exact absurd rfl hread
    case write => exact ⟨_, rfl, rfl, rfl, fun _ => rfl, fun _ hne => absurd rfl hne⟩
    case txnBeg | txnCommit | txnAbort | quit | bckBeg => exact ⟨_, rfl, rfl, rfl, nofun, nofun⟩
    all_goals exact ⟨_, rfl, rfl, rfl, nofun, fun _ _ => ⟨_, rfl⟩⟩

theorem handle_none (hphase : h.phase = .command) (hcmd : commandOf r = none) :
    (h.handle r res).replies = h.replies ∧ (h.handle r res).phase = .command := by
  have hserve : ({ h with incall := r }.serve res).1 =
      { h with phase := .command, incall := r, requests := h.requests ++ [r] } := by
    unfold serve
    simp only [show r.head?.bind Command.ofName = none from hcmd]
  rw [handle, if_neg (by rw [hphase]; exact nofun), hserve]
  exact ⟨rfl, rfl⟩

theorem handle_phase (hphase : h.phase = .command) (r : List Msg) (res : OpResult) :
    (h.handle r res).phase = if commandOf r = some .quit then .closed else .command := by
  cases hcmd : commandOf r with
  | none => exact (handle_none hphase hcmd).2
  | some cmd =>
    have hserve := serve_phase (h := { h with incall := r }) (head_of_commandOf hcmd) res
    by_cases hread : cmd = .read
    · subst hread
      obtain ⟨n, data, hack⟩ := hserve.2.1 rfl
      rw [handle_serve_read hphase hcmd [] res]
      exact (read_ack hack [] res).2
    · rw [handle_serve hphase hcmd hread]
      by_cases hquit : cmd = .quit
      · rw [hserve.1 hquit, hquit, if_pos rfl]
      · rw [hserve.2.2 hquit hread, if_neg]
        intro h'
        exact hquit (Option.some.inj h')

/-- **One request that is not a `write` is answered with its value**. -/
theorem handle_match (hmatch : RepliesMatch h) (hphase : h.phase = .command) (hint : IsInt res.ret)
    (hwrite : commandOf r ≠ some .write) : RepliesMatch (h.handle r res) := by
  cases hcmd : commandOf r with
  | none =>
    intro reply hreply
    rw [(handle_none hphase hcmd).1] at hreply
    exact hmatch reply hreply
  | some cmd =>
    obtain ⟨new, hreplies, hincall, hret, -, hformat⟩ := handle_replies hphase hcmd res
    intro reply hreply
    rw [hreplies] at hreply
    rcases List.mem_append.mp hreply with hold | hnew
    · exact hmatch reply hold
    · intro cmd' hcmd' hanswer
      rw [List.mem_singleton.mp hnew] at hcmd' ⊢
      have hsame : cmd = cmd' := by
        rw [hincall, hcmd] at hcmd'
        exact Option.some.inj hcmd'
      subst hsame
      obtain ⟨g, hg⟩ := hformat hanswer fun h' => hwrite (hcmd.trans (congrArg some h'))
      rw [hg, hret]
      exact atoi_format hint

/-! ## Sequences of requests -/

theorem handleAll_closed (xs : List (List Msg × OpResult)) (hclosed : h.phase = .closed) :
    h.handleAll xs = h := by
  induction xs with
  | nil => rfl
  | cons x xs ih =>
    have hx : h.handle x.1 x.2 = h := if_pos hclosed
    show Handler.handleAll (h.handle x.1 x.2) xs = h
    rw [hx]
    exact ih

/-- A reply that was sent stays sent. -/
theorem handle_keeps (hphase : h.phase = .command) : h.replies <+: (h.handle r res).replies := by
  cases hcmd : commandOf r with
  | none => exact (handle_none hphase hcmd).1 ▸ List.prefix_refl _
  | some cmd =>
    obtain ⟨reply, hreplies, -⟩ := handle_replies hphase hcmd res
    exact hreplies ▸ List.prefix_append ..

/-- The requests that are handled: up to a `quit`. -/
def handled (rs : List (List Msg)) : List (List Msg) :=
  rs.takeWhile fun r => commandOf r ≠ some .quit

theorem handled_cons :
    handled (r :: rs) = if commandOf r = some .quit then [] else r :: handled rs := by
  unfold handled
  rw [List.takeWhile_cons]
  by_cases hquit : commandOf r = some .quit
  · simp [hquit]
  · simp [hquit]

theorem handleAll_keeps {xs : List (List Msg × OpResult)} (hphase : h.phase = .command) :
    h.replies <+: (h.handleAll xs).replies := by
  induction xs generalizing h with
  | nil => exact List.prefix_refl _
  | cons x xs ih =>
    have hx := handle_phase hphase x.1 x.2
    apply (handle_keeps hphase : h.replies <+: (h.handle x.1 x.2).replies).trans
    show (h.handle x.1 x.2).replies <+: ((h.handle x.1 x.2).handleAll xs).replies
    by_cases hquit : commandOf x.1 = some .quit
    · have hsame := handleAll_closed xs (hx.trans (if_pos hquit))
      exact hsame.symm ▸ List.prefix_refl _
    · exact ih (hx.trans (if_neg hquit))

/-- Without a `write` all requests are answered with their values. -/
theorem handleAll_match {xs : List (List Msg × OpResult)} (hmatch : RepliesMatch h)
    (hphase : h.phase = .command) (hint : ∀ x ∈ xs, IsInt x.2.ret)
    (hwrite : ∀ r ∈ handled (xs.map Prod.fst), commandOf r ≠ some .write) :
    RepliesMatch (h.handleAll xs) := by
  induction xs generalizing h with
  | nil => exact hmatch
  | cons x xs ih =>
    have hx := handle_phase hphase x.1 x.2
    rw [List.map_cons, handled_cons] at hwrite
    show RepliesMatch ((h.handle x.1 x.2).handleAll xs)
    by_cases hquit : commandOf x.1 = some .quit
    · rw [handleAll_closed xs (hx.trans (if_pos hquit))]
      apply handle_match hmatch hphase (hint x (List.mem_cons_self ..))
      rw [hquit]
      exact nofun
    · rw [if_neg hquit] at hwrite hx
      apply ih _ hx fun y hy => hint y (List.mem_cons_of_mem _ hy)
      · exact fun r hr => hwrite r (List.mem_cons_of_mem _ hr)
      · exact handle_match hmatch hphase (hint x (List.mem_cons_self ..))
          (hwrite x.1 (List.mem_cons_self ..))

/-- A `write` is answered with whatever the buffer holds. -/
theorem not_handleAll_match (hphase : h.phase = .command) (hr : r ∈ handled rs)
    (hwrite : commandOf r = some .write) :
    ∃ xs : List (List Msg × OpResult), xs.map Prod.fst = rs ∧ (∀ x ∈ xs, IsInt x.2.ret) ∧
      ¬ RepliesMatch (h.handleAll xs) := by
  have hzero : IsInt 0 := by decide
  induction rs generalizing h with
  | nil => cases hr
  | cons x rs ih =>
    rw [handled_cons] at hr
    by_cases hquit : commandOf x = some .quit
    · rw [if_pos hquit] at hr
      cases hr
    rw [if_neg hquit] at hr
    by_cases hx : commandOf x = some .write
    · -- the `write` returns another value than the one in the buffer
      let v : Int := if Msg.atoi (Msg.text h.str) = 0 then 1 else 0
      have hv : Msg.atoi (Msg.text h.str) ≠ v := by
        by_cases hbuf : Msg.atoi (Msg.text h.str) = 0
        · simp [v, hbuf]
        · simp [v, hbuf]
      have hvint : IsInt v := by
        by_cases hbuf : Msg.atoi (Msg.text h.str) = 0
        · simp [v, hbuf, IsInt]
        · simp [v, hbuf, IsInt]
      refine ⟨(x, ⟨v, [], []⟩) :: rs.map fun r => (r, ⟨0, [], []⟩), ?_, ?_, ?_⟩
      · simp [Function.comp_def]
      · intro y hy
        rcases List.mem_cons.mp hy with rfl | hy
        · exact hvint
        · obtain ⟨r', -, rfl⟩ := List.mem_map.mp hy
          exact hzero
      · intro hmatch
        obtain ⟨reply, hreplies, hincall, hret, hstr, -⟩ :=
          handle_replies hphase hx ⟨v, [], []⟩
        have hmem : reply ∈ (h.handle x ⟨v, [], []⟩).replies := by
          rw [hreplies]
          exact List.mem_append_right _ (List.mem_singleton_self _)
        have hphase' := (handle_phase hphase x ⟨v, [], []⟩).trans (if_neg hquit)
        have hvalue := hmatch reply ((handleAll_keeps hphase').subset hmem) .write
          (hincall ▸ hx) rfl
        rw [hstr rfl, hret] at hvalue
        exact hv hvalue
    · have hr' : r ∈ handled rs := by
        rcases List.mem_cons.mp hr with rfl | hr
        · exact absurd hwrite hx
        · exact hr
      obtain ⟨xs, hxs, hint, hnot⟩ := ih (h := h.handle x ⟨0, [], []⟩)
        ((handle_phase hphase x _).trans (if_neg hquit)) hr'
      refine ⟨(x, ⟨0, [], []⟩) :: xs, by rw [List.map_cons, hxs], ?_, hnot⟩
      intro y hy
      rcases List.mem_cons.mp hy with rfl | hy
      · exact hzero
      · exact hint y hy

/-- **Replies match requests** on exactly the sequences without a `write`: they match for all
    values of the operations if and only if no `write` is handled. -/
theorem repliesMatch_iff (str : Msg) (rs : List (List Msg)) :
    (∀ xs : List (List Msg × OpResult), xs.map Prod.fst = rs → (∀ x ∈ xs, IsInt x.2.ret) →
      RepliesMatch ((start str).handleAll xs)) ↔
    ∀ r ∈ handled rs, commandOf r ≠ some .write := by
  constructor
  · intro hall r hr hwrite
    obtain ⟨xs, hxs, hint, hnot⟩ := not_handleAll_match (h := start str) rfl hr hwrite
    exact hnot (hall xs hxs hint)
  · rintro hwrite xs rfl hint
    apply handleAll_match _ rfl hint hwrite
    intro reply hreply
    cases hreply

/-- A file is opened under handle 3, and a `write` of 100 bytes is answered with 3. -/
theorem write_not_matched :
    let h := (start (List.replicate sizeStr 'x')).handleAll
      [(["open".toList, "/f".toList, "2".toList], ⟨3, [], []⟩),
        (["write".toList, "3".toList, "x".toList, "100".toList], ⟨100, [], []⟩)]
    ¬ RepliesMatch h ∧ h.replies.map (fun r => (Msg.atoi (Msg.text r.str), r.ret)) =
      [(3, 3), (3, 100)] := by
  intro h
  refine ⟨fun hmatch => ?_, by decide⟩
  have hmem : (⟨["write".toList, "3".toList, "x".toList, "100".toList], 100, [],
      '3' :: '\x00' :: List.replicate 10 'x'⟩ : Reply) ∈ h.replies := by decide
  exact absurd (hmatch _ hmem .write (by decide) rfl) (by decide)

end Handler

end TxFS
