import Kademlia.Framing.RecvAll
import Kademlia.Model.Slot

/-!
Oversized packets.

`get_rpc_request` leaves a packet whose size is above the maximum after it read
the header, and the connection stays open. The next time the slot is readable,
the body of the packet is taken for a new message.
-/

namespace Kademlia.Framing

open Foundations Foundations.Source Foundations.Traced Model

variable {own : Option HashID}

def slotAfter (own : Option HashID) (slot : Slot) (polls : List Poll) : Slot :=
  polls.foldl (fun slot poll => (slot.serve own poll).val) slot

/-- What is in front of the connection is taken for the start of a message. -/
structure Begins (slot : Slot) (poll : Poll) : Prop where
  isOpen : slot.isOpen = true
  hup : poll.hup = false
  readable : poll.readable = true
  peeked : 0 < (recvAllPeek slot.conn.delivered poll.peeks 4).1

/-- `get_rpc_request` finds a packet of `length` bytes, which is too large. -/
structure Rejects (slot : Slot) (poll : Poll) (length : ℕ) : Prop where
  begins : Begins slot poll
  isRpc : isRpcRequest (recvAllPeek slot.conn.delivered poll.peeks 4) = true
  header : sizeofHeader ≤ toSizeT (recvAll slot.conn sizeofHeader).ret
  length_eq : toSizeT (poll.buf.write 0
    (recvAll slot.conn sizeofHeader).stored).header.packetSize = length
  oversized : maxRpcPacketSize < length

/-- The number of bytes of `conn` that were read before the slot is `slot`. -/
def offset (conn : Conn) (slot : Slot) : ℕ := conn.size - slot.conn.size

theorem offset_congr (conn : Conn) {slot slot' : Slot} (h : slot.conn = slot'.conn) :
    offset conn slot = offset conn slot' := by
  rw [offset, offset, h]

/-- No message begins at a byte that belongs to a packet rejected before. -/
def DiscardsWhole (own : Option HashID) (conn : Conn) (polls : List Poll) : Prop :=
  ∀ before poll between poll' after length,
    polls = before ++ poll :: (between ++ poll' :: after) →
    Rejects (slotAfter own ⟨true, conn⟩ before) poll length →
    Begins (slotAfter own ⟨true, conn⟩ (before ++ poll :: between)) poll' →
    offset conn (slotAfter own ⟨true, conn⟩ (before ++ poll :: between)) ∉
      Set.Ico (offset conn (slotAfter own ⟨true, conn⟩ before))
        (offset conn (slotAfter own ⟨true, conn⟩ before) + length)

def Silent (own : Option HashID) : Slot → List Poll → Prop
  | _, [] => True
  | slot, poll :: polls => ¬ Begins slot poll ∧ Silent own (slot.serve own poll).val polls

/-! ### One call -/

theorem serve_conn_of_not_begins {slot : Slot} {poll : Poll} (h : ¬ Begins slot poll) :
    (slot.serve own poll).val.conn = slot.conn := by
  unfold Slot.serve
  split_ifs with hopen hhup hreadable
  · rfl
  · rfl
  · rfl
  · have hpeeked : (recvAllPeek slot.conn.delivered poll.peeks 4).1 ≤ 0 := by
      refine not_lt.mp fun hpos => h ⟨by simpa using hopen, by simpa using hhup,
        by simpa using hreadable, hpos⟩
    simp [handleConnected, hpeeked]

/-- A rejected packet leaves the connection behind its header. -/
theorem Rejects.serve_conn {slot : Slot} {poll : Poll} {length : ℕ}
    (h : Rejects slot poll length) :
    (slot.serve own poll).val.conn = (recvAll slot.conn sizeofHeader).rest := by
  have hpeeked := not_le.mpr h.begins.peeked
  have hheader := not_lt.mpr h.header
  have hoversized : toSizeT (poll.buf.write 0
      (recvAll slot.conn sizeofHeader).stored).header.packetSize > maxRpcPacketSize := by
    rw [h.length_eq]
    exact h.oversized
  simp [Slot.serve, h.begins.isOpen, h.begins.hup, h.begins.readable, handleConnected, hpeeked,
    h.isRpc, serveRpc, getRpcRequest, getStreamRequest, hheader, hoversized]

/-- The connection then stands inside the packet. -/
theorem Rejects.offset_mem {conn : Conn} {slot : Slot} {poll : Poll} {length : ℕ}
    (h : Rejects slot poll length) :
    offset conn (slot.serve own poll).val ∈
      Set.Ico (offset conn slot) (offset conn slot + length) := by
  have hsize := recvAll_size slot.conn sizeofHeader
  have hlen : (recvAll slot.conn sizeofHeader).stored.length ≤ sizeofHeader := by
    rw [recvAll_stored]
    exact List.length_take_le _ _
  have hlong : sizeofHeader < length := lt_trans (by decide) h.oversized
  rw [Set.mem_Ico, offset, offset, h.serve_conn]
  omega

/-! ### Runs -/

theorem silent_iff {slot : Slot} {polls : List Poll} :
    Silent own slot polls ↔ ∀ between poll after, polls = between ++ poll :: after →
      ¬ Begins (slotAfter own slot between) poll := by
  induction polls generalizing slot with
  | nil => simp [Silent]
  | cons poll polls ih =>
      rw [Silent, ih]
      constructor
      · rintro ⟨hfirst, hrest⟩ between poll' after heq
        cases between with
        | nil =>
            obtain ⟨rfl, -⟩ := List.cons.inj heq
            exact hfirst
        | cons p between =>
            obtain ⟨rfl, htail⟩ := List.cons.inj heq
            exact hrest between poll' after htail
      · intro hall
        refine ⟨hall [] poll polls rfl, fun between poll' after heq => ?_⟩
        exact hall (poll :: between) poll' after (by rw [heq]; rfl)

/-- The first message in `polls`, if there is one, begins where the connection
stands. -/
theorem exists_first_begins {slot : Slot} {polls : List Poll} (h : ¬ Silent own slot polls) :
    ∃ between poll after, polls = between ++ poll :: after ∧
      Begins (slotAfter own slot between) poll ∧ (slotAfter own slot between).conn = slot.conn := by
  induction polls generalizing slot with
  | nil => exact absurd trivial h
  | cons poll polls ih =>
      by_cases hbegins : Begins slot poll
      · exact ⟨[], poll, polls, rfl, hbegins, rfl⟩
      · have hrest : ¬ Silent own (slot.serve own poll).val polls := fun hs => h ⟨hbegins, hs⟩
        obtain ⟨between, poll', after, rfl, hfirst, hconn⟩ := ih hrest
        refine ⟨poll :: between, poll', after, rfl, hfirst, ?_⟩
        exact hconn.trans (serve_conn_of_not_begins hbegins)

@[simp] theorem slotAfter_nil (slot : Slot) : slotAfter own slot [] = slot := rfl

theorem slotAfter_append_cons (slot : Slot) (before between : List Poll) (poll : Poll) :
    slotAfter own slot (before ++ poll :: between) =
      slotAfter own ((slotAfter own slot before).serve own poll).val between := by
  rw [slotAfter, List.foldl_append, List.foldl_cons]
  rfl

/-- Oversized packets are discarded whole exactly when no message at all begins
on a connection after one of them. -/
theorem discardsWhole_iff {conn : Conn} {polls : List Poll} :
    DiscardsWhole own conn polls ↔
      ∀ before poll after length, polls = before ++ poll :: after →
        Rejects (slotAfter own ⟨true, conn⟩ before) poll length →
        Silent own (slotAfter own ⟨true, conn⟩ (before ++ [poll])) after := by
  constructor
  · intro hwhole before poll after length heq hrejects
    rw [slotAfter_append_cons, slotAfter_nil]
    by_contra hsilent
    obtain ⟨between, poll', rest, rfl, hbegins, hconn⟩ := exists_first_begins hsilent
    refine hwhole before poll between poll' rest length heq hrejects ?_ ?_
    · rw [slotAfter_append_cons]
      exact hbegins
    · rw [slotAfter_append_cons, offset_congr conn hconn]
      exact hrejects.offset_mem
  · intro hsilent before poll between poll' after length heq hrejects hbegins
    have hnone := silent_iff.mp (hsilent before poll _ length heq hrejects) between poll' after rfl
    rw [slotAfter_append_cons] at hbegins hnone
    exact absurd hbegins hnone

/-- The header of a packet of 1024 bytes, and a PING in its body. -/
def pingInside : List UInt8 :=
  [75, 68, 77, 84, 0, 4, 0, 0, 2, 0, 0, 0, 75, 68, 77, 84, 12, 0, 0, 0, 1, 0, 0, 0]

/-- The slot is readable, the peek sees four bytes, and the buffer is empty. -/
def plainPoll : Poll where
  hup := false
  readable := true
  peeks := [.ready 3]
  stack := ⟨zeroBytes 32, 0, fun _ => zeroPeer⟩
  node := Node.initial
  buf := fun _ => 0
  disk := .empty
  ops := FileOps.ordinary

theorem pingInside_not_discardsWhole :
    ¬ DiscardsWhole none (unread pingInside []) [plainPoll, plainPoll] := by
  intro hwhole
  have hrejects : Rejects ⟨true, unread pingInside []⟩ plainPoll 1024 :=
    ⟨⟨rfl, rfl, rfl, by decide⟩, by decide, by decide, by decide, by decide⟩
  refine hwhole [] plainPoll [] plainPoll [] 1024 rfl hrejects ?_ hrejects.offset_mem
  have hconn : (slotAfter none ⟨true, unread pingInside []⟩ [plainPoll]).conn =
      unread (pingInside.drop 12) [] := by decide
  exact ⟨by decide, rfl, rfl, by rw [List.nil_append, hconn]; decide⟩

end Kademlia.Framing
