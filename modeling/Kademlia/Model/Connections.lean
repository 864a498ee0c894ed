import Kademlia.Foundations.AccessTrace
import Kademlia.Foundations.Machine

/-!
The connection table of `network.c`.

A slot of `sock_array` is free when its descriptor is -1. Slots 0 and 1 hold
the listening and the broadcast socket, the others the accepted connections.
The handlers that are called with a slot neither close its descriptor nor
change the table, so of a message only the result of its peek matters here;
what is done with it is in `handleConnected`.
-/

namespace Kademlia.Model

open Foundations Traced

def maxSock : ℕ := 128

instance : NeZero maxSock := ⟨by decide⟩

def pollIn : UInt16 := 0x001

def pollHup : UInt16 := 0x010

structure PollFd where
  fd : ℤ
  events : UInt16
  revents : UInt16
  deriving DecidableEq, Repr

abbrev SockArray := Fin maxSock → PollFd

/-- The slot as it is left behind a `close`. -/
def freeSlot : PollFd := ⟨-1, 0, 0⟩

/-- The two sockets of `init_network`. `die` ends the program if one of them, or
what is done to it, fails, and no two open descriptors are the same. -/
structure ServerSockets where
  listenFd : ℤ
  broadFd : ℤ
  listenFd_nonneg : 0 ≤ listenFd
  broadFd_nonneg : 0 ≤ broadFd
  distinct : listenFd ≠ broadFd

def initNetwork (server : ServerSockets) : SockArray := fun i =>
  if i = 0 then ⟨server.listenFd, pollIn, 0⟩
  else if i = 1 then ⟨server.broadFd, pollIn, 0⟩
  else freeSlot

/-- What one call of `update_network` meets. -/
structure Round where
  /-- the `revents` that `poll` finds, unless it fails -/
  poll : Option (Fin maxSock → UInt16)
  /-- what `accept` returns -/
  accept : ℤ
  /-- the descriptors that a search reads behind the table, up to the first -1 -/
  behind : List ℤ
  /-- what `recv_all_peek` returns for each slot -/
  peeked : Fin maxSock → ℤ

/-- The array whose accesses are recorded. -/
inductive NetworkArray
  | sockArray
  deriving DecidableEq, Repr

variable (table : SockArray)

/-- `poll` does not look at negative descriptors and clears their `revents`. -/
def SockArray.poll (found : Option (Fin maxSock → UInt16)) : SockArray :=
  match found with
  | none => table
  | some revents => fun i =>
      { table i with revents := if (table i).fd < 0 then 0 else revents i }

/-- A descriptor that is open is not returned by `accept`. -/
def SockArray.accept (newFd : ℤ) : ℤ := if ∃ i, (table i).fd = newFd then -1 else newFd

/-- `while (sock_array[i].fd != -1) i++;` from index `i` on, where `fds` are the
descriptors that are read, up to one that reads as -1 behind all of them. -/
def searchFree : List ℤ → ℕ → Traced NetworkArray ℕ
  | [], i => do
      touch .sockArray i
      pure i
  | fd :: fds, i => do
      touch .sockArray i
      if fd ≠ -1 then searchFree fds (i + 1) else pure i

def SockArray.fds : List ℤ := (List.ofFn table).map PollFd.fd

def SockArray.clear (i : Fin maxSock) : SockArray :=
  Function.update table i { table i with revents := 0 }

/-- A new connection, put into the table or closed again. -/
def SockArray.place (newFd : ℤ) (behind : List ℤ) : Traced NetworkArray (SockArray × List ℤ) := do
  let i ← searchFree (table.fds ++ behind) 0
  if h : i < maxSock then pure (Function.update table ⟨i, h⟩ ⟨newFd, pollIn, 0⟩, [])
  -- "Not enough space in buffer to allocate new connection"
  else pure (table, [newFd])

/-- The part of `handle_incoming` for the listening socket: the table, and the
descriptors that were closed. -/
def SockArray.acceptIncoming (round : Round) : Traced NetworkArray (SockArray × List ℤ) :=
  if (table 0).revents &&& pollIn ≠ 0 then
    if table.accept round.accept ≥ 0 then do
      let placed ← table.place (table.accept round.accept) round.behind
      pure (placed.1.clear 0, placed.2)
    else pure (table.clear 0, [])
  else pure (table, [])

/-- The part for the broadcast socket. What is done with its datagram is in
`handleIncoming`; the test is `revents && POLLIN`, which holds whatever is set. -/
def SockArray.broadcastIncoming : SockArray :=
  if (table 1).revents ≠ 0 then table.clear 1 else table

def SockArray.handleIncoming (round : Round) : Traced NetworkArray (SockArray × List ℤ) := do
  let accepted ← table.acceptIncoming round
  pure (accepted.1.broadcastIncoming, accepted.2)

/-- One iteration of `handle_connected`: the slot, and the descriptors closed. -/
def PollFd.handleConnected (slot : PollFd) (peeked : ℤ) : PollFd × List ℤ :=
  let closed := if slot.revents &&& pollHup ≠ 0 then [slot.fd] else []
  let slot := if slot.revents &&& pollHup ≠ 0 then freeSlot else slot
  if slot.revents &&& pollIn ≠ 0 then
    if peeked ≤ 0 then (freeSlot, closed ++ [slot.fd])
    else ({ slot with revents := 0 }, closed)
  else (slot, closed)

def SockArray.handleConnected (peeked : Fin maxSock → ℤ) : SockArray × List ℤ :=
  (fun i => if i.val < 2 then table i else ((table i).handleConnected (peeked i)).1,
    ((List.finRange maxSock).drop 2).flatMap fun i => ((table i).handleConnected (peeked i)).2)

/-- `update_network`, with the descriptors that it closes. -/
def updateNetwork : Machine SockArray Round (Traced NetworkArray (List ℤ)) := fun table round =>
  let incoming := (table.poll round.poll).handleIncoming round
  let connected := incoming.val.1.handleConnected round.peeked
  (⟨incoming.val.2 ++ connected.2, incoming.log⟩, connected.1)

/-- `stop_network`: the descriptors it closes. -/
def SockArray.stopNetwork : List ℤ := table.fds.takeWhile (· ≠ -1)

end Kademlia.Model
