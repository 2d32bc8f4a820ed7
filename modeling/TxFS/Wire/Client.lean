import TxFS.Wire.Handler

/-!
# The Client Library

The functions of `libclient.c` and `client_invoke.c` put a system call and its arguments
into an array of strings that ends with "sesh"; `call_execute` sends the first `no_of_arg`
of them, by a table of its own.
-/

namespace TxFS

/-- `no_of_arg` in `call_execute`, with the name of the call. -/
def Command.clientNoOfArg : Command → Nat
  | .txnCommit | .txnAbort | .quit => 1
  | .txnBeg | .unlink | .inodeStat => 2
  | .open | .rename | .creat | .stat | .bckBeg => 3
  | .write | .lseek | .read => 4

/-- The two tables agree on all calls but two. -/
theorem Command.clientNoOfArg_eq {cmd : Command} (hbeg : cmd ≠ .txnBeg) (hstat : cmd ≠ .stat) :
    cmd.clientNoOfArg = cmd.noOfArg := by
  cases cmd
  case txnBeg => exact absurd rfl hbeg
  case stat => exact absurd rfl hstat
  all_goals rfl

/-- A string argument that is not empty and fits into the buffer. -/
structure Arg where
  val : Msg
  nonempty : val ≠ []
  no_nul : '\x00' ∉ val
  fits : val.length < maxBufferSize

/-- A call of the library, under the name of its function. -/
inductive LibCall where
  | txnBeg (tId : Int)
  | open (pathname : Arg) (flags : Int)
  | write (fd : Int) (buf : Arg) (nbyte : Int)
  | lseek (fd offset whence : Int)
  | read (fd : Int) (buf : Arg) (nbyte : Int)
  | rename (old new : Arg)
  | creat (pathname : Arg) (mode : Int)
  | lstat (path : Arg)
  | unlink (pathname : Arg)
  | inodeStat (path : Arg)
  | txnCommit
  | txnAbort
  | bckBeg (bckSrcPath bckDestPath : Arg)
  | quit

namespace LibCall

def command : LibCall → Command
  | txnBeg .. => .txnBeg
  | .open .. => .open
  | write .. => .write
  | lseek .. => .lseek
  | read .. => .read
  | rename .. => .rename
  | creat .. => .creat
  | lstat .. => .stat
  | unlink .. => .unlink
  | inodeStat .. => .inodeStat
  | txnCommit => .txnCommit
  | txnAbort => .txnAbort
  | bckBeg .. => .bckBeg
  | quit => .quit

/-- The contents of a buffer of `size` bytes after `snprintf` of a number. -/
def decimal (size : Nat) (v : Int) : Msg := (Msg.ofInt v).take (size - 1)

/-- The arguments in `newargv1`, between the name and "sesh". -/
def args : LibCall → List Msg
  | txnBeg tId => [Msg.ofInt tId]
  | .open pathname flags => [pathname.val, decimal 12 flags]
  | write fd buf nbyte => [decimal 12 fd, buf.val, decimal 12 nbyte]
  | lseek fd offset whence => [decimal 12 fd, decimal 20 offset, decimal 20 whence]
  | read fd buf nbyte => [decimal 12 fd, buf.val, decimal 12 nbyte]
  | rename old new => [old.val, new.val]
  | creat pathname mode => [pathname.val, decimal 12 mode]
  | lstat path => [path.val]
  | unlink pathname => [pathname.val]
  | inodeStat path => [path.val]
  | bckBeg bckSrcPath bckDestPath => [bckSrcPath.val, bckDestPath.val]
  | txnCommit | txnAbort | quit => []

/-- The call with its arguments. -/
def request (c : LibCall) : List Msg := c.command.name.toList :: c.args

/-- `newargv1`. -/
def argcalls (c : LibCall) : List Msg := c.request ++ ["sesh".toList]

/-- The messages that `call_execute` sends, each in one `send`. -/
def sends (c : LibCall) : List Msg :=
  c.argcalls.take c.command.clientNoOfArg ++ if c.command = .read then ["ack".toList] else []

variable {c : LibCall}

theorem ofInt_ne_nil {v : Int} : Msg.ofInt v ≠ [] := by
  unfold Msg.ofInt
  split
  · exact List.cons_ne_nil _ _
  · exact Nat.toDigits_ne_nil

theorem decimal_ne_nil {size : Nat} {v : Int} (hsize : 1 < size) : decimal size v ≠ [] := by
  intro h
  rcases List.take_eq_nil_iff.mp h with h | h
  · omega
  · exact ofInt_ne_nil h

theorem no_nul_decimal {size : Nat} {v : Int} : '\x00' ∉ decimal size v := by
  intro h
  exact Msg.no_nul_ofInt (List.mem_of_mem_take h)

/-- **Every argument is a C string that is not empty**. -/
theorem args_text : ∀ m ∈ c.args, m ≠ [] ∧ '\x00' ∉ m := by
  have hdecimal : ∀ size v, 1 < size → decimal size v ≠ [] ∧ '\x00' ∉ decimal size v := by
    intro size v hsize
    exact ⟨decimal_ne_nil hsize, no_nul_decimal⟩
  have harg : ∀ a : Arg, a.val ≠ [] ∧ '\x00' ∉ a.val := by
    intro a
    exact ⟨a.nonempty, a.no_nul⟩
  intro m hm
  cases c <;> simp only [args, List.mem_cons, List.not_mem_nil, or_false] at hm
  case txnBeg => exact hm ▸ ⟨ofInt_ne_nil, Msg.no_nul_ofInt⟩
  all_goals rcases hm with rfl | rfl | rfl <;> first | exact harg _ | exact hdecimal _ _ (by decide)

theorem noOfArg_eq (hbeg : c.command ≠ .txnBeg) (hstat : c.command ≠ .stat) :
    c.command.noOfArg = c.request.length := by
  cases c
  case txnBeg => exact absurd rfl hbeg
  case lstat => exact absurd rfl hstat
  all_goals rfl

/-- The library passes all the arguments that a branch uses. -/
theorem uses_lt {i : Nat} (hi : i ∈ c.command.uses) : i < c.request.length := by
  cases c <;> simp only [command, Command.uses, List.mem_cons, List.not_mem_nil, or_false] at hi
  all_goals
    simp only [request, args, List.length_cons, List.length_nil]
    omega

/-- What is sent where the tables agree: the call with its arguments. -/
theorem sends_eq (hbeg : c.command ≠ .txnBeg) (hstat : c.command ≠ .stat) :
    c.sends = c.request ++ if c.command = .read then ["ack".toList] else [] := by
  rw [sends, argcalls, Command.clientNoOfArg_eq hbeg hstat, noOfArg_eq hbeg hstat, List.take_left]

end LibCall

end TxFS
