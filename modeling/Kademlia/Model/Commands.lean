import Kademlia.Foundations.Machine
import Mathlib.Data.Int.Notation
import Mathlib.Logic.Function.Basic

/-!
`command.c`, the commands of `client.c` and `handle_pending` of `network.c`.

Frontend threads put commands into the queue and wait for the network thread
to handle them. The queue functions hold the lock of the queue all the time,
and what is done under the lock of a command is one step as well. A command
is known by its address; what lies at a free address is `none`.

The queue functions also return false on a `NULL` argument, which no caller
passes, and `had_commands`, which only decides on a log line, is left out.
-/

namespace Kademlia.Model

open Foundations

def maxCommandsPending : ℤ := 10

/-! ### The queue -/

/-- `struct CommandQueue`; `items` has `MAX_COMMANDS_PENDING` cells. -/
structure CommandQueue (α : Type) where
  items : ℤ → α
  head : ℤ
  tail : ℤ
  count : ℤ

section Queue

variable {α : Type} (q : CommandQueue α)

/-- `mutexInit` is what `pthread_mutex_init` returns. -/
def queueInit (mutexInit : ℤ) : ℤ × CommandQueue α :=
  (mutexInit, { q with head := 0, tail := 0, count := 0 })

def queuePush (cmd : α) : Bool × CommandQueue α :=
  if q.count = maxCommandsPending then (false, q)
  else
    (true,
      { q with
        items := Function.update q.items q.tail cmd
        tail := (q.tail + 1).tmod maxCommandsPending
        count := q.count + 1 })

/-- The result is `some` of `*out_cmd` where the return value is true. -/
def queuePop : Option α × CommandQueue α :=
  if q.count = 0 then (none, q)
  else
    (some (q.items q.head),
      { q with head := (q.head + 1).tmod maxCommandsPending, count := q.count - 1 })

end Queue

inductive QueueCall (Thread α : Type)
  | push (thread : Thread) (cmd : α)
  | pop
  deriving DecidableEq, Repr

inductive QueueReturn (α : Type)
  | pushed (accepted : Bool)
  | popped (cmd : Option α)
  deriving DecidableEq, Repr

def callQueue {Thread α : Type} :
    Machine (CommandQueue α) (QueueCall Thread α) (QueueReturn α)
  | q, .push _ cmd => (.pushed (queuePush q cmd).1, (queuePush q cmd).2)
  | q, .pop => (.popped (queuePop q).1, (queuePop q).2)

/-! ### Commands -/

inductive CommandType
  | cmdNone | cmdShowStatus | cmdUpload | cmdDownload
  deriving DecidableEq, Repr

/-- `struct Command`; a `NULL` file is `none`. -/
structure Command (File : Type) where
  cmdType : CommandType
  file : Option File
  done : Bool
  result : ℤ
  deriving DecidableEq, Repr

/-- The three functions of the frontend, with the argument of the call. -/
inductive FrontendCall (File : Type)
  | downloadFile (file : Option File)
  | uploadFile (file : Option File)
  | showNetworkStatus
  deriving DecidableEq, Repr

section Client

variable {Thread File : Type} [DecidableEq Thread]

/-- `command_init`, with what `pthread_mutex_init` and `pthread_cond_init` return. -/
def commandInit (mutexInit condInit : ℤ) : Option (Command File) :=
  if mutexInit ≠ 0 then none
  else if condInit ≠ 0 then none
  else some ⟨.cmdNone, none, false, 0⟩

/-- The fields each function sets after `command_init`. -/
def FrontendCall.fill (c : Command File) : FrontendCall File → Command File
  | .downloadFile file => { c with cmdType := .cmdDownload, file := file }
  | .uploadFile file => { c with cmdType := .cmdUpload, file := file }
  | .showNetworkStatus => { c with cmdType := .cmdShowStatus }

/-- Where a frontend thread is: outside of the three functions, before
`queue_push`, behind it, or in `pthread_cond_wait`. -/
inductive Frontend
  | outside
  | created (c : ℕ)
  | pushed (c : ℕ)
  | waiting (c : ℕ)
  deriving DecidableEq, Repr

/-- Where the network thread is: outside of `handle_pending`, at the test of its
loop, before `queue_pop`, behind it, or behind the `switch`. It is stuck when
`cmd` points nowhere. -/
inductive NetworkAt
  | outside | testing | popping | handling | signalling | stuck
  deriving DecidableEq, Repr

/-- The commands in memory, the queue of their addresses, the threads, and the
variable `cmd` of `handle_pending`. -/
structure Client (Thread File : Type) where
  heap : ℕ → Option (Command File)
  commands : CommandQueue ℕ
  frontend : Thread → Frontend
  network : NetworkAt
  cmd : Option ℕ

/-- A frontend thread calls one of the functions, or goes on with it, or the
network thread goes on. `malloc`, the two `init` functions and `handle_rpc_upload`
and `handle_rpc_download` return what the move says. -/
inductive Move (Thread File : Type)
  | call (thread : Thread) (call : FrontendCall File) (malloc : Option ℕ)
      (mutexInit condInit : ℤ)
  | frontend (thread : Thread)
  | network (rpcResult : ℤ)

/-- The `switch` of `handle_pending`; `none` where it goes back to the loop. -/
def dispatch (rpcResult : ℤ) (command : Command File) : Option (Command File) :=
  match command.cmdType with
  | .cmdShowStatus => some { command with result := 1 }
  | .cmdUpload | .cmdDownload =>
      if command.file.isNone then none else some { command with result := rpcResult }
  | .cmdNone => some { command with result := -1 }

variable (s : Client Thread File)

def Client.setFrontend (thread : Thread) (place : Frontend) : Client Thread File :=
  { s with frontend := Function.update s.frontend thread place }

def Client.store (c : ℕ) (command : Option (Command File)) : Client Thread File :=
  { s with heap := Function.update s.heap c command }

/-- The start of a call, up to `queue_push`. An address that is in use is never
returned by `malloc`. -/
def submit (thread : Thread) (call : FrontendCall File) (malloc : Option ℕ)
    (mutexInit condInit : ℤ) : Option ℤ × Client Thread File :=
  match malloc, commandInit mutexInit condInit with
  | some c, some command =>
      if (s.heap c).isSome then (none, s)
      else (none, (s.store c (some (call.fill command))).setFrontend thread (.created c))
  | _, _ => (some (-1), s)

/-- The loop around `pthread_cond_wait`, and the end of the call. -/
def awaitDone (thread : Thread) (c : ℕ) : Option ℤ × Client Thread File :=
  match s.heap c with
  | some command =>
      if command.done then (some command.result, (s.store c none).setFrontend thread .outside)
      else (none, s.setFrontend thread (.waiting c))
  | none => (none, s)

def frontendStep (thread : Thread) : Option ℤ × Client Thread File :=
  match s.frontend thread with
  | .outside => (none, s)
  | .created c =>
      -- the return value of `queue_push` is not looked at
      (none, { s with commands := (queuePush s.commands c).2 }.setFrontend thread (.pushed c))
  | .pushed c | .waiting c => awaitDone s thread c

def networkStep (rpcResult : ℤ) : Client Thread File :=
  match s.network with
  | .outside => { s with network := .testing, cmd := none }
  | .testing =>
      if s.commands.count > 0 then { s with network := .popping }
      else { s with network := .outside }
  | .popping =>
      let popped := queuePop s.commands
      -- `queue_pop` leaves `cmd` as it is when it returns false
      { s with commands := popped.2, cmd := popped.1.or s.cmd, network := .handling }
  | .handling =>
      match s.cmd with
      | none => { s with network := .stuck }
      | some c =>
          match s.heap c with
          | none => { s with network := .stuck }
          | some command =>
              match dispatch rpcResult command with
              | none => { s with network := .testing }
              | some command => { s.store c (some command) with network := .signalling }
  | .signalling =>
      match s.cmd with
      | none => { s with network := .stuck }
      | some c =>
          match s.heap c with
          | none => { s with network := .stuck }
          | some command =>
              { s.store c (some { command with done := true }) with network := .testing }
  | .stuck => s

/-- One move. The answer is the return value of a call that ends with it. -/
def clientStep : Machine (Client Thread File) (Move Thread File) (Option ℤ)
  | s, .call thread call malloc mutexInit condInit =>
      if s.frontend thread = .outside then submit s thread call malloc mutexInit condInit
      else (none, s)
  | s, .frontend thread => frontendStep s thread
  | s, .network rpcResult => (none, networkStep s rpcResult)

/-- Before the first call, with whatever the cells of the queue hold. -/
def Client.initial (q : CommandQueue ℕ) (mutexInit : ℤ) : Client Thread File where
  heap := fun _ => none
  commands := (queueInit q mutexInit).2
  frontend := fun _ => .outside
  network := .outside
  cmd := none

end Client

end Kademlia.Model
