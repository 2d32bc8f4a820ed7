import TxFS.Lib.ByteStream
import TxFS.Lib.GuardedRun
import TxFS.Wire.Decoding

/-!
# A Connection as a Byte Stream

`handler` and `call_execute` on the two ends of a connection. Neither side marks where a
message ends: a read returns any number of the bytes that have arrived. One event is what a
side does from one blocking read to the next.

Behind `quit` each side closes its end, and a read of the other one returns 0 as soon as the
bytes in front of the close are read. Neither side looks at the 0. What is written after the
peer has closed is read by nobody (the signal that kills such a writer is left out).
-/

namespace TxFS

open GuardedRun ByteStream

/-! ## The client -/

/-- Where `call_execute` waits in `recv`. -/
inductive ClientPhase where
  /-- Outside `call_execute`. -/
  | idle
  /-- For an acknowledgement, with the messages that are not sent yet. -/
  | awaitAck (todo : List Msg)
  /-- For the data of a `read`. -/
  | awaitData
  | awaitReply
  /-- After `quit` and `disconnect`. -/
  | disconnected
deriving DecidableEq, Repr

/-- A call that has returned: what was sent, the data of a `read` and the C string that
    `atoi` gets. -/
structure Return where
  messages : List Msg
  data : Msg
  buffer : Msg
deriving DecidableEq, Repr

structure Client where
  phase : ClientPhase
  command : Command
  /-- The first `no_of_arg` elements of `argcalls`. -/
  messages : List Msg
  /-- What was received for `argcalls[2]` of a `read`. -/
  data : Msg
  returns : List Return
deriving DecidableEq, Repr

/-! ## The connection -/

structure Link where
  client : Client
  server : Handler
  toServer : Pipe Char
  toClient : Pipe Char

inductive LinkEvent where
  /-- `call_execute` is called; `args` follow the name in `argcalls`. -/
  | call (cmd : Command) (args : List Msg)
  /-- `recv` of the client returns `n` bytes. -/
  | recv (n : Nat)
  /-- `read` of the handler returns `n` bytes; `res` is what an operation gives then. -/
  | read (n : Nat) (res : OpResult)
deriving DecidableEq, Repr

/-- What `on_read` gives: -1, or a positive number of bytes. Instead of none it has put
    "Zero\n" into the buffer. -/
def OpResult.IsReadResult (res : OpResult) : Prop :=
  res.ret = -1 ∨ 0 < res.ret ∧ (res.data.length : Int) = res.ret

instance (res : OpResult) : Decidable res.IsReadResult := inferInstanceAs (Decidable (_ ∨ _))

/-- The next message completes a `read`. -/
def Handler.CompletesRead (h : Handler) : Prop :=
  h.phase = .argument ∧ h.incall.head? = some Command.read.name.toList ∧
    h.incall.length + 1 = h.noOfArg

instance (h : Handler) : Decidable h.CompletesRead := inferInstanceAs (Decidable (_ ∧ _ ∧ _))

namespace Link

/-- A connection on which nothing was sent; `str` is not initialized. -/
def init (str : Fin sizeStr → Char) : Link where
  client := { phase := .idle, command := .quit, messages := [], data := [], returns := [] }
  server := Handler.start (List.ofFn str)
  toServer := []
  toClient := []

/-- The beginning of `call_execute`: the name is sent. -/
def call (l : Link) (cmd : Command) (args : List Msg) : Option Link :=
  if l.client.phase = .idle ∧ args.length + 1 = cmd.clientNoOfArg ∧ ∀ a ∈ args, '\x00' ∉ a then
    some { l with
      client := { l.client with phase := .awaitAck args, command := cmd, data := [],
                                messages := cmd.name.toList :: args }
      toServer := l.toServer.write cmd.name.toList }
  else none

/-- The handler has left its loop and closed its socket. -/
def serverClosed (l : Link) : Bool := l.server.phase = .closed

/-- The client has closed its socket in `disconnect`. -/
def clientClosed (l : Link) : Bool := l.client.phase = .disconnected

/-- `recv` in `call_execute`, up to the next one. -/
def recv (l : Link) (n : Nat) : Option Link :=
  match l.client.phase with
  | .awaitAck todo => do
    -- the buffer is not looked at
    let (_, toClient) ← l.toClient.readUntil l.serverClosed (maxBufferSize - 1) n
    match todo with
    | m :: todo => some { l with
        client := { l.client with phase := .awaitAck todo }
        toServer := l.toServer.write m
        toClient := toClient }
    | [] => some { l with
        client := { l.client with phase :=
          if l.client.command = .read then .awaitData else .awaitReply }
        toClient := toClient }
  | .awaitData => do
    let (b, toClient) ← l.toClient.readUntil l.serverClosed (maxBufferSize - 1) n
    some { l with
      client := { l.client with phase := .awaitReply, data := b }
      toServer := l.toServer.write "ack".toList
      toClient := toClient }
  | .awaitReply => do
    let (b, toClient) ← l.toClient.readUntil l.serverClosed 255 n
    some { l with
      client := { l.client with
        phase := if l.client.command = .quit then .disconnected else .idle
        returns := l.client.returns ++ [⟨l.client.messages, l.client.data, Msg.text b⟩] }
      toClient := toClient }
  | .idle | .disconnected => none

/-- The size of the buffer the handler reads into. -/
def readSize (h : Handler) : Nat :=
  match h.phase with
  | .ack .. => 255
  | .command | .argument | .closed => maxBufferSize - 1

/-- `read` in `handler`, up to the next one. -/
def read (l : Link) (n : Nat) (res : OpResult) : Option Link :=
  if l.server.phase ≠ .closed ∧ (l.server.CompletesRead → res.IsReadResult) then do
    let (b, toServer) ← l.toServer.readUntil l.clientClosed (readSize l.server) n
    let (server, written) := l.server.read b res
    some { l with server := server, toServer := toServer,
                  toClient := written.foldl Pipe.write l.toClient }
  else none

def step (l : Link) : LinkEvent → Option Link
  | .call cmd args => l.call cmd args
  | .recv n => l.recv n
  | .read n res => l.read n res

/-! ## Framing -/

/-- **The condition**: the two argument tables agree on the call and no argument is empty,
    every read returns one whole message, and `on_read` does not fail. -/
def Framed (l : Link) : LinkEvent → Prop
  | .call cmd args => cmd ≠ .txnBeg ∧ cmd ≠ .stat ∧ ∀ a ∈ args, a ≠ []
  | .recv n => l.toClient.IsWhole n
  | .read n res => l.toServer.IsWhole n ∧ (l.server.CompletesRead → res.ret ≠ -1)

instance (l : Link) (e : LinkEvent) : Decidable (l.Framed e) :=
  match e with
  | .call cmd args =>
    inferInstanceAs (Decidable (cmd ≠ .txnBeg ∧ cmd ≠ .stat ∧ ∀ a ∈ args, a ≠ []))
  | .recv n => inferInstanceAs (Decidable (l.toClient.IsWhole n))
  | .read n res =>
    inferInstanceAs (Decidable (l.toServer.IsWhole n ∧ (l.server.CompletesRead → res.ret ≠ -1)))

/-- The client is inside `call_execute`. -/
def Calling (l : Link) : Prop := l.client.phase ≠ .idle ∧ l.client.phase ≠ .disconnected

instance (l : Link) : Decidable l.Calling := inferInstanceAs (Decidable (_ ∧ _))

/-- Both sides wait in a read, and everything that was written has been read. -/
def LeftWaiting (l : Link) : Prop :=
  l.Calling ∧ l.server.phase ≠ .closed ∧ l.toServer.pending = [] ∧ l.toClient.pending = []

instance (l : Link) : Decidable l.LeftWaiting := inferInstanceAs (Decidable (_ ∧ _ ∧ _ ∧ _))

/-- A reply of the handler as the client has to return it. -/
def asReturn (r : Reply) : Return := ⟨r.incall, r.data, Msg.text r.str⟩

variable {l l' : Link} {n : Nat} {m : Msg} {todo : List Msg} {res : OpResult}

/-! ## The invariant -/

/-- A call that the handler counts as the client does. -/
structure InCall (l : Link) : Prop where
  name : l.client.messages.head? = some l.client.command.name.toList
  texts : ∀ m ∈ l.client.messages, m ≠ [] ∧ '\x00' ∉ m
  count : l.client.messages.length = l.client.command.noOfArg

/-- The handler has received the messages in front of `rest`. -/
def Expects (l : Link) (rest : List Msg) : Prop :=
  l.server.phase = .command ∧ rest = l.client.messages ∨
  l.server.phase = .argument ∧ l.server.incall ≠ [] ∧
    l.server.incall ++ rest = l.client.messages ∧ l.server.noOfArg = l.client.messages.length

theorem Expects.mem (h : l.Expects (m :: todo)) : m ∈ l.client.messages := by
  rcases h with ⟨-, hrest⟩ | ⟨-, -, hrest, -⟩
  · exact hrest ▸ List.mem_cons_self ..
  · exact hrest ▸ List.mem_append_right _ (List.mem_cons_self ..)

/-- The handler has sent the reply `s` to the call in progress. -/
structure Answered (l : Link) (d s : Msg) : Prop where
  ready : l.server.phase = if l.client.command = .quit then .closed else .command
  reply : ∃ ret, l.server.replies.map asReturn =
    l.client.returns ++ [asReturn ⟨l.client.messages, ret, d, s⟩]
  sent : s ≠ []

/-- The handler has sent the data `d` of a `read`. -/
structure DataSent (l : Link) (d : Msg) : Prop where
  read : l.client.command = .read
  ready : ∃ ret, l.server.phase = .ack ret d
  incall : l.server.incall = l.client.messages
  sent : d ≠ []

/-- **Where the two sides stand**, by what is on its way between them. -/
inductive Exchange (l : Link) : Prop where
  /-- Between two calls. -/
  | idle (hphase : l.client.phase = .idle ∧ l.server.phase = .command ∨
      l.client.phase = .disconnected ∧ l.server.phase = .closed)
      (hpipes : l.toServer = [] ∧ l.toClient = [])
      (hreturns : l.client.returns = l.server.replies.map asReturn)
  /-- A message of the call is on its way. -/
  | sent (m : Msg) (todo : List Msg) (hcall : l.InCall) (hphase : l.client.phase = .awaitAck todo)
      (hpipes : l.toServer = [m] ∧ l.toClient = []) (hexpects : l.Expects (m :: todo))
      (hdata : l.client.data = []) (hreturns : l.client.returns = l.server.replies.map asReturn)
  /-- Its acknowledgement is. -/
  | acked (todo : List Msg) (hcall : l.InCall) (hphase : l.client.phase = .awaitAck todo)
      (hmore : todo ≠ []) (hpipes : l.toServer = [] ∧ l.toClient = ["Received".toList])
      (hargument : l.server.phase = .argument) (hexpects : l.Expects todo)
      (hdata : l.client.data = []) (hreturns : l.client.returns = l.server.replies.map asReturn)
  /-- The last acknowledgement and the reply are. -/
  | answered (s : Msg) (hphase : l.client.phase = .awaitAck []) (hread : l.client.command ≠ .read)
      (hpipes : l.toServer = [] ∧ l.toClient = ["Received".toList, s])
      (hdata : l.client.data = []) (hanswer : l.Answered [] s)
  /-- The last acknowledgement and the data of a `read` are. -/
  | dataAnswered (d : Msg) (hphase : l.client.phase = .awaitAck [])
      (hpipes : l.toServer = [] ∧ l.toClient = ["Received".toList, d]) (hsent : l.DataSent d)
      (hreturns : l.client.returns = l.server.replies.map asReturn)
  /-- The data of a `read` is. -/
  | data (d : Msg) (hphase : l.client.phase = .awaitData)
      (hpipes : l.toServer = [] ∧ l.toClient = [d]) (hsent : l.DataSent d)
      (hreturns : l.client.returns = l.server.replies.map asReturn)
  /-- The acknowledgement of the data is. -/
  | dataAcked (hphase : l.client.phase = .awaitReply)
      (hpipes : l.toServer = ["ack".toList] ∧ l.toClient = []) (hsent : l.DataSent l.client.data)
      (hreturns : l.client.returns = l.server.replies.map asReturn)
  /-- The reply is. -/
  | reply (s : Msg) (hphase : l.client.phase = .awaitReply)
      (hpipes : l.toServer = [] ∧ l.toClient = [s]) (hanswer : l.Answered l.client.data s)

/-- The invariant of a connection: the reply buffer is never empty. -/
structure InStep (l : Link) : Prop where
  buffer : l.server.str ≠ []
  exchange : l.Exchange

theorem inStep_init {str : Fin sizeStr → Char} : InStep (init str) where
  buffer := by
    intro h
    have hlen : (List.ofFn str).length = 0 := congrArg List.length h
    rw [List.length_ofFn] at hlen
    cases hlen
  exchange := .idle (.inl ⟨rfl, rfl⟩) ⟨rfl, rfl⟩ rfl

/-! ## Steps of the client -/

theorem inStep_call {cmd : Command} {args : List Msg} (h : l.InStep)
    (hok : l.Framed (.call cmd args)) (hstep : l.call cmd args = some l') : l'.InStep := by
  unfold call at hstep
  split at hstep
  · rename_i hcall
    obtain ⟨hidle, hlen, hnul⟩ := hcall
    cases hstep
    obtain ⟨hbeg, hstat, hargs⟩ := hok
    refine ⟨h.buffer, ?_⟩
    cases h.exchange with
    | idle hphase hpipes hreturns =>
      have hserver : l.server.phase = .command := by
        rcases hphase with ⟨-, hserver⟩ | ⟨hdis, -⟩
        · exact hserver
        · rw [hidle] at hdis
          cases hdis
      refine .sent cmd.name.toList args ⟨rfl, ?_, ?_⟩ rfl ⟨?_, hpipes.2⟩ (.inl ⟨hserver, rfl⟩) rfl
        hreturns
      · intro m hm
        rcases List.mem_cons.mp hm with rfl | hm
        · exact ⟨cmd.name_ne_nil, cmd.no_nul_name⟩
        · exact ⟨hargs m hm, hnul m hm⟩
      · show args.length + 1 = cmd.noOfArg
        rw [hlen, Command.clientNoOfArg_eq hbeg hstat]
      · show l.toServer.write cmd.name.toList = _
        rw [hpipes.1, Pipe.write_of_ne_nil cmd.name_ne_nil]
        rfl
    | sent _ _ _ hphase => rw [hidle] at hphase; cases hphase
    | acked _ _ hphase => rw [hidle] at hphase; cases hphase
    | answered _ hphase => rw [hidle] at hphase; cases hphase
    | dataAnswered _ hphase => rw [hidle] at hphase; cases hphase
    | data _ hphase => rw [hidle] at hphase; cases hphase
    | dataAcked hphase => rw [hidle] at hphase; cases hphase
    | reply _ hphase => rw [hidle] at hphase; cases hphase
  · cases hstep

/-- What the client reads under the condition is the oldest message of the handler. -/
theorem recv_whole {closed : Bool} {cap : Nat} {b : Msg} {p p' : Pipe Char} (hok : p.IsWhole n)
    (hread : p.readUntil closed cap n = some (b, p')) {m : Msg} {ms : List Msg} (hp : p = m :: ms) :
    b = m ∧ p' = ms := by
  have hwhole := (Pipe.readUntil_whole hok hread).1
  rw [hp] at hwhole
  obtain ⟨hb, hms⟩ := List.cons.inj hwhole
  exact ⟨hb.symm, hms.symm⟩

theorem recv_empty {closed : Bool} {cap : Nat} {b : Msg} {p p' : Pipe Char} (hok : p.IsWhole n)
    (hread : p.readUntil closed cap n = some (b, p')) : p ≠ [] := by
  intro hp
  have hwhole := (Pipe.readUntil_whole hok hread).1
  rw [hp] at hwhole
  cases hwhole

theorem inStep_recv (h : l.InStep) (hok : l.Framed (.recv n)) (hstep : l.recv n = some l') :
    l'.InStep := by
  have hok : l.toClient.IsWhole n := hok
  unfold recv at hstep
  cases h.exchange with
  | idle hphase =>
    rcases hphase with ⟨hidle, -⟩ | ⟨hidle, -⟩ <;> rw [hidle] at hstep <;> cases hstep
  | sent m todo hcall hphase hpipes =>
    rw [hphase] at hstep
    simp only [Option.bind_eq_bind, Option.bind_eq_some_iff] at hstep
    obtain ⟨⟨b, p⟩, hread, -⟩ := hstep
    -- nothing has been sent to the client yet
    exact absurd hpipes.2 (recv_empty hok hread)
  | acked todo hcall hphase hmore hpipes hargument hexpects hdata hreturns =>
    rw [hphase] at hstep
    simp only [Option.bind_eq_bind, Option.bind_eq_some_iff] at hstep
    obtain ⟨⟨b, p⟩, hread, hstep⟩ := hstep
    obtain ⟨-, rfl⟩ := recv_whole hok hread hpipes.2
    -- the next message is sent
    cases todo with
    | nil => exact absurd rfl hmore
    | cons m todo =>
      cases hstep
      have hm : m ≠ [] := (hcall.texts m hexpects.mem).1
      refine ⟨h.buffer, .sent m todo ⟨hcall.name, hcall.texts, hcall.count⟩ rfl ⟨?_, rfl⟩ hexpects
        hdata hreturns⟩
      show l.toServer.write m = [m]
      rw [hpipes.1, Pipe.write_of_ne_nil hm]
      rfl
  | answered s hphase hread hpipes hdata hanswer =>
    rw [hphase] at hstep
    simp only [Option.bind_eq_bind, Option.bind_eq_some_iff] at hstep
    obtain ⟨⟨b, p⟩, hrecv, hstep⟩ := hstep
    -- the acknowledgement of the last message; the answer is behind it
    obtain ⟨-, rfl⟩ := recv_whole hok hrecv hpipes.2
    cases hstep
    rw [if_neg hread]
    refine ⟨h.buffer, .reply s rfl ⟨hpipes.1, rfl⟩ ?_⟩
    exact ⟨hanswer.ready, hdata ▸ hanswer.reply, hanswer.sent⟩
  | dataAnswered d hphase hpipes hsent hreturns =>
    rw [hphase] at hstep
    simp only [Option.bind_eq_bind, Option.bind_eq_some_iff] at hstep
    obtain ⟨⟨b, p⟩, hrecv, hstep⟩ := hstep
    obtain ⟨-, rfl⟩ := recv_whole hok hrecv hpipes.2
    cases hstep
    -- a `read` waits for its data first
    rw [if_pos hsent.read]
    exact ⟨h.buffer, .data d rfl ⟨hpipes.1, rfl⟩ ⟨hsent.read, hsent.ready, hsent.incall, hsent.sent⟩
      hreturns⟩
  | data d hphase hpipes hsent hreturns =>
    rw [hphase] at hstep
    simp only [Option.bind_eq_bind, Option.bind_eq_some_iff] at hstep
    obtain ⟨⟨b, p⟩, hrecv, hstep⟩ := hstep
    obtain ⟨rfl, rfl⟩ := recv_whole hok hrecv hpipes.2
    cases hstep
    refine ⟨h.buffer, .dataAcked rfl ⟨?_, rfl⟩
      ⟨hsent.read, hsent.ready, hsent.incall, hsent.sent⟩ hreturns⟩
    -- the client has the data and acknowledges them
    show l.toServer.write "ack".toList = _
    rw [hpipes.1]
    rfl
  | dataAcked hphase hpipes =>
    rw [hphase] at hstep
    simp only [Option.bind_eq_bind, Option.bind_eq_some_iff] at hstep
    obtain ⟨⟨b, p⟩, hrecv, -⟩ := hstep
    exact absurd hpipes.2 (recv_empty hok hrecv)
  | reply s hphase hpipes hanswer =>
    rw [hphase] at hstep
    simp only [Option.bind_eq_bind, Option.bind_eq_some_iff] at hstep
    obtain ⟨⟨b, p⟩, hrecv, hstep⟩ := hstep
    obtain ⟨rfl, rfl⟩ := recv_whole hok hrecv hpipes.2
    cases hstep
    -- the call returns what the handler has replied
    obtain ⟨ret, hreply⟩ := hanswer.reply
    refine ⟨h.buffer, .idle ?_ ⟨hpipes.1, rfl⟩ hreply.symm⟩
    have hready := hanswer.ready
    by_cases hquit : l.client.command = .quit
    · rw [if_pos hquit] at hready
      exact .inr ⟨if_pos hquit, hready⟩
    · rw [if_neg hquit] at hready
      exact .inl ⟨if_neg hquit, hready⟩

/-! ## Steps of the handler -/

/-- The reply to a call other than `read`. -/
theorem serve_answer {g : Handler} {cmd : Command} (hcmd : g.incall.head? = some cmd.name.toList)
    (hread : cmd ≠ .read) (hbuffer : g.str ≠ []) (res : OpResult) :
    ∃ s, s ≠ [] ∧ (g.serve res).2 = [s] ∧ (g.serve res).1.str = s ∧
      (g.serve res).1.replies = g.replies ++ [⟨g.incall, res.ret, [], s⟩] := by
  rw [Handler.serve_eq hcmd]
  cases cmd
  case read => exact absurd rfl hread
  case write => exact ⟨g.str, hbuffer, rfl, rfl, rfl⟩
  all_goals exact ⟨_, Msg.strcpy_ne_nil, rfl, rfl, rfl⟩

/-- The data of a `read`. -/
theorem serve_data {g : Handler} (hcmd : g.incall.head? = some Command.read.name.toList)
    (hret : res.ret ≠ -1) :
    g.serve res = ({ g with phase := .ack res.ret res.data, requests := g.requests ++ [g.incall] },
      [res.data]) := by
  rw [Handler.serve_eq hcmd]
  exact if_neg hret

/-- The handler `g` has put a message into `incall` and acknowledges it. -/
theorem exchange_received {g : Handler} (hcall : l.InCall) (hphase : l.client.phase = .awaitAck todo)
    (hincall : g.incall ≠ []) (hmessages : g.incall ++ todo = l.client.messages)
    (hcount : g.noOfArg = l.client.messages.length) (hbuffer : g.str ≠ [])
    (hres : l.client.command = .read → todo = [] → res.ret ≠ -1 ∧ res.data ≠ [])
    (hdata : l.client.data = []) (hreturns : l.client.returns = g.replies.map asReturn) :
    InStep { l with server := (g.received res).1, toServer := [],
                    toClient := (g.received res).2.foldl Pipe.write [] } := by
  unfold Handler.received
  by_cases htodo : todo = []
  · -- this was the last message
    subst htodo
    rw [List.append_nil] at hmessages
    have hcmd : g.incall.head? = some l.client.command.name.toList := hmessages ▸ hcall.name
    rw [if_neg (by rw [hcount, hmessages]; omega)]
    by_cases hread : l.client.command = .read
    · -- a `read` that did not fail answers with its data
      obtain ⟨hret, hne⟩ := hres hread rfl
      rw [hread] at hcmd
      rw [serve_data hcmd hret]
      refine ⟨hbuffer, .dataAnswered res.data hphase ⟨rfl, ?_⟩ ⟨hread, ⟨_, rfl⟩, hmessages, hne⟩
        hreturns⟩
      show Pipe.write ["Received".toList] res.data = _
      rw [Pipe.write_of_ne_nil hne]
      rfl
    · -- the other calls answer with their value, and `quit` closes the socket
      obtain ⟨s, hs, hout, hstr, hreplies⟩ := serve_answer hcmd hread hbuffer res
      obtain ⟨hquit, -, hother⟩ := Handler.serve_phase hcmd res
      refine ⟨?_, .answered s hphase hread ⟨rfl, ?_⟩ hdata ⟨?_, ⟨res.ret, ?_⟩, hs⟩⟩
      · show (g.serve res).1.str ≠ []
        rw [hstr]
        exact hs
      · rw [hout]
        show Pipe.write ["Received".toList] s = _
        rw [Pipe.write_of_ne_nil hs]
        rfl
      · show (g.serve res).1.phase = if l.client.command = .quit then .closed else .command
        by_cases hq : l.client.command = .quit
        · rw [if_pos hq]
          exact hquit hq
        · rw [if_neg hq]
          exact hother hq hread
      · show (g.serve res).1.replies.map asReturn = _
        rw [hreplies, List.map_append, ← hreturns, hmessages]
        rfl
  · -- the handler reads on
    have hlen : g.incall.length < g.noOfArg := by
      have hpos := List.length_pos_iff.mpr htodo
      rw [hcount, ← hmessages, List.length_append]
      omega
    rw [if_pos hlen]
    exact ⟨hbuffer, .acked todo ⟨hcall.name, hcall.texts, hcall.count⟩ hphase htodo ⟨rfl, rfl⟩ rfl
      (.inr ⟨rfl, hincall, hmessages, hcount⟩) hdata hreturns⟩

theorem inStep_read (h : l.InStep) (hok : l.Framed (.read n res)) (hstep : l.read n res = some l') :
    l'.InStep := by
  obtain ⟨hwhole, hret⟩ := hok
  unfold read at hstep
  split at hstep
  swap
  · cases hstep
  rename_i hopen
  simp only [Option.bind_eq_bind, Option.bind_eq_some_iff, Option.some.injEq] at hstep
  obtain ⟨⟨b, p⟩, hread, rfl⟩ := hstep
  -- only in two places is a message on its way to the handler
  cases h.exchange with
  | sent m todo hcall hphase hpipes hexpects hdata hreturns =>
    obtain ⟨rfl, rfl⟩ := recv_whole hwhole hread hpipes.1
    have hnul := (hcall.texts b hexpects.mem).2
    rcases hexpects with ⟨hserver, hmessages⟩ | ⟨hserver, hincall, hmessages, hcount⟩
    · have hname : b = l.client.command.name.toList := by
        have hhead := hcall.name
        rw [← hmessages] at hhead
        exact Option.some.inj hhead
      -- the name alone is not yet a `read`
      have hres : l.client.command = .read → todo = [] → res.ret ≠ -1 ∧ res.data ≠ [] := by
        rintro hcmd rfl
        have hcount := hcall.count
        rw [← hmessages, hcmd] at hcount
        cases hcount
      have hg := Handler.read_name hserver l.client.command res
      rw [← hname] at hg
      rw [hg, hpipes.2]
      exact exchange_received hcall hphase (List.cons_ne_nil _ _) hmessages hcall.count.symm
        h.buffer hres hdata hreturns
    · have hres : l.client.command = .read → todo = [] → res.ret ≠ -1 ∧ res.data ≠ [] := by
        rintro hcmd rfl
        have hcompletes : l.server.CompletesRead := by
          refine ⟨hserver, ?_, ?_⟩
          · have hhead := hcall.name
            rw [← hmessages, List.head?_append_of_ne_nil _ hincall, hcmd] at hhead
            exact hhead
          · rw [hcount, ← hmessages, List.length_append]
            rfl
        refine ⟨hret hcompletes, ?_⟩
        -- `on_read` has put something into the buffer
        intro hnil
        rcases hopen.2 hcompletes with hneg | ⟨hpos, hlen⟩
        · exact hret hcompletes hneg
        · rw [← hlen, hnil] at hpos
          cases hpos
      rw [Handler.read_argument hserver hnul, hpipes.2]
      refine exchange_received hcall hphase ?_ ?_ hcount h.buffer hres hdata hreturns
      · exact List.append_ne_nil_of_left_ne_nil hincall _
      · rw [← hmessages, List.append_assoc]
        rfl
  | dataAcked hphase hpipes hsent hreturns =>
    obtain ⟨rfl, rfl⟩ := recv_whole hwhole hread hpipes.1
    obtain ⟨ret, hready⟩ := hsent.ready
    have hg : l.server.read "ack".toList res =
        ({ l.server with phase := .command }.format ret).reply ret l.client.data := by
      rw [Handler.read, hready]
    have hs : (l.server.format ret).str ≠ [] := Msg.strcpy_ne_nil
    rw [hg, hpipes.2]
    refine ⟨hs, .reply (l.server.format ret).str hphase ⟨rfl, ?_⟩ ⟨?_, ⟨ret, ?_⟩, hs⟩⟩
    · exact Pipe.write_of_ne_nil hs
    · have hquit : l.client.command ≠ .quit := by
        simp [hsent.read]
      exact (if_neg hquit).symm
    · show List.map asReturn (l.server.replies ++ [⟨l.server.incall, ret, l.client.data, _⟩]) = _
      rw [List.map_append, ← hreturns, hsent.incall]
      rfl
  | idle _ hpipes => exact absurd hpipes.1 (recv_empty hwhole hread)
  | acked _ _ _ _ hpipes => exact absurd hpipes.1 (recv_empty hwhole hread)
  | answered _ _ _ hpipes => exact absurd hpipes.1 (recv_empty hwhole hread)
  | dataAnswered _ _ hpipes => exact absurd hpipes.1 (recv_empty hwhole hread)
  | data _ _ hpipes => exact absurd hpipes.1 (recv_empty hwhole hread)
  | reply _ _ hpipes => exact absurd hpipes.1 (recv_empty hwhole hread)

/-- **Every step under the condition keeps the two sides in step**. -/
theorem inStep_step {e : LinkEvent} (h : l.InStep) (hok : l.Framed e) (hstep : l.step e = some l') :
    l'.InStep := by
  cases e with
  | call cmd args => exact inStep_call h hok hstep
  | recv n => exact inStep_recv h hok hstep
  | read n res => exact inStep_read h hok hstep

/-! ## Framing -/

/-- What a connection promises to its client: an acknowledgement is what it takes for one,
    every call that has returned has returned the reply of the handler to it, all bytes of
    it were consumed, and nobody waits for bytes that were already read. -/
structure FramedWell (l : Link) : Prop where
  acks : ∀ todo m, l.client.phase = .awaitAck todo → l.toClient.head? = some m →
    m = "Received".toList
  returns : ¬ l.Calling → l.client.returns = l.server.replies.map asReturn ∧
    l.toServer.pending = [] ∧ l.toClient.pending = []
  progress : ¬ l.LeftWaiting

/-- **Framing**: in every run in which each read returns one whole message, no call is
    counted differently by the two sides, no argument is empty and no `on_read` fails. -/
theorem framed_well {str : Fin sizeStr → Char} (h : ReachableUnder (init str) step Framed l) :
    l.FramedWell := by
  have hin : l.InStep := h.invariant inStep_init fun _ _ _ _ hin hok hstep =>
    inStep_step hin hok hstep
  -- a message on its way is never empty
  have hwaiting : (l.Calling → l.toServer.pending ≠ [] ∨ l.toClient.pending ≠ []) → ¬ l.LeftWaiting := by
    rintro hsome ⟨hcalling, -, hserver, hclient⟩
    rcases hsome hcalling with h' | h'
    · exact h' hserver
    · exact h' hclient
  -- a phase other than the two without a call is one of a call
  have hcalling : ∀ {phase : ClientPhase}, l.client.phase = phase → phase ≠ .idle →
      phase ≠ .disconnected → ¬ ¬ l.Calling := by
    intro phase hphase hidle hdis hnot
    exact hnot ⟨hphase ▸ hidle, hphase ▸ hdis⟩
  have hreceived : ∀ {ms : List Msg}, l.toClient = "Received".toList :: ms →
      ∀ todo m, l.client.phase = .awaitAck todo → l.toClient.head? = some m →
        m = "Received".toList := by
    intro ms hpipe todo m _ hhead
    rw [hpipe] at hhead
    exact (Option.some.inj hhead).symm
  cases hin.exchange with
  | idle hphase hpipes hreturns =>
    refine ⟨?_, fun _ => ⟨hreturns, ?_, ?_⟩, hwaiting ?_⟩
    · -- the client is not waiting for an acknowledgement
      intro todo m hack
      rcases hphase with ⟨hidle, -⟩ | ⟨hidle, -⟩ <;> rw [hidle] at hack <;> cases hack
    · rw [hpipes.1]
      rfl
    · rw [hpipes.2]
      rfl
    · rintro ⟨hidle, hdis⟩
      rcases hphase with ⟨h', -⟩ | ⟨h', -⟩
      · exact absurd h' hidle
      · exact absurd h' hdis
  | sent m todo hcall hphase hpipes hexpects =>
    refine ⟨?_, fun hnot => absurd hnot (hcalling hphase (by simp) (by simp)), hwaiting fun _ => .inl ?_⟩
    · intro _ _ _ hhead
      rw [hpipes.2] at hhead
      cases hhead
    · rw [hpipes.1]
      simpa [Pipe.pending] using (hcall.texts m hexpects.mem).1
  | acked todo hcall hphase hmore hpipes =>
    refine ⟨?_, fun hnot => absurd hnot (hcalling hphase (by simp) (by simp)), hwaiting fun _ => .inr ?_⟩
    · exact hreceived hpipes.2
    · rw [hpipes.2]
      decide
  | answered s hphase hread hpipes =>
    refine ⟨?_, fun hnot => absurd hnot (hcalling hphase (by simp) (by simp)), hwaiting fun _ => .inr ?_⟩
    · exact hreceived hpipes.2
    · rw [hpipes.2]
      simp [Pipe.pending]
  | dataAnswered d hphase hpipes =>
    refine ⟨?_, fun hnot => absurd hnot (hcalling hphase (by simp) (by simp)), hwaiting fun _ => .inr ?_⟩
    · exact hreceived hpipes.2
    · rw [hpipes.2]
      simp [Pipe.pending]
  | data d hphase hpipes hsent =>
    refine ⟨?_, fun hnot => absurd hnot (hcalling hphase (by simp) (by simp)), hwaiting fun _ => .inr ?_⟩
    · intro _ _ hack
      rw [hphase] at hack
      cases hack
    · rw [hpipes.2]
      simpa [Pipe.pending] using hsent.sent
  | dataAcked hphase hpipes =>
    refine ⟨?_, fun hnot => absurd hnot (hcalling hphase (by simp) (by simp)), hwaiting fun _ => .inl ?_⟩
    · intro _ _ hack
      rw [hphase] at hack
      cases hack
    · rw [hpipes.1]
      decide
  | reply s hphase hpipes hanswer =>
    refine ⟨?_, fun hnot => absurd hnot (hcalling hphase (by simp) (by simp)), hwaiting fun _ => .inr ?_⟩
    · intro _ _ hack
      rw [hphase] at hack
      cases hack
    · rw [hpipes.2]
      simpa [Pipe.pending] using hanswer.sent

/-- A `read` with its data, and the end of the connection. -/
theorem framed_well_read :
    ∃ l, ReachableUnder (init fun _ => 'x') step Framed l ∧ l.client.phase = .disconnected ∧
      l.client.returns.length = 2 ∧ l.FramedWell := by
  obtain ⟨l, hl, hphase, hlen⟩ := exists_of_runUnder (init fun _ => 'x') step Framed
    (fun l => l.client.phase = .disconnected ∧ l.client.returns.length = 2)
    [.call .read ["3".toList, "b".toList, "2".toList], .read 4 ⟨0, [], []⟩, .recv 8,
      .read 1 ⟨0, [], []⟩, .recv 8, .read 1 ⟨0, [], []⟩, .recv 8, .read 1 ⟨2, "hi".toList, []⟩,
      .recv 8, .recv 2, .read 3 ⟨0, [], []⟩, .recv 12, .call .quit [], .read 4 ⟨0, [], []⟩,
      .recv 8, .recv 12] (by decide)
  exact ⟨l, hl, hphase, hlen, framed_well hl⟩

/-- Whoever is left waiting waits for ever. -/
theorem LeftWaiting.step_eq_none (h : l.LeftWaiting) (e : LinkEvent) : l.step e = none := by
  obtain ⟨⟨hidle, hdis⟩, hopen, hserver, hclient⟩ := h
  have hserverOpen : l.serverClosed = false := decide_eq_false hopen
  have hclientOpen : l.clientClosed = false := decide_eq_false hdis
  cases e with
  | call cmd args =>
    show l.call cmd args = none
    simp [call, hidle]
  | recv n =>
    show l.recv n = none
    -- the handler has not closed, so there is nothing to receive
    have hread : ∀ cap, l.toClient.readUntil l.serverClosed cap n = none := fun cap => by
      rw [hserverOpen, Pipe.readUntil_open, Pipe.read_eq_none hclient]
    unfold recv
    cases hphase : l.client.phase with
    | idle => rfl
    | disconnected => rfl
    | awaitAck todo => simp [hread]
    | awaitData => simp [hread]
    | awaitReply => simp [hread]
  | read n res =>
    show l.read n res = none
    have hread : ∀ cap, l.toServer.readUntil l.clientClosed cap n = none := fun cap => by
      rw [hclientOpen, Pipe.readUntil_open, Pipe.read_eq_none hserver]
    simp [read, hread]

/-- A `txn_commit`: one `recv` returns the acknowledgement and the reply. The client waits for
    the reply, the handler for the next call, and no event is possible any more. -/
theorem joined_left_waiting :
    ∃ l, Reachable (init fun _ => 'x') step l ∧ l.LeftWaiting ∧ l.server.replies.length = 1 ∧
      ∀ e, l.step e = none := by
  obtain ⟨l, hl, hwaiting, hreplies⟩ := exists_of_run (init fun _ => 'x') step
    (fun l => l.LeftWaiting ∧ l.server.replies.length = 1)
    [.call .txnCommit [], .read 10 ⟨0, [], []⟩, .recv 20] (by decide)
  exact ⟨l, hl, hwaiting, hreplies, hwaiting.step_eq_none⟩

end Link

end TxFS
