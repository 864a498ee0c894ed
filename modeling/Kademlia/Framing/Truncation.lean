import Kademlia.Framing.Segmentation
import Kademlia.Model.Network

/-!
Connections that stop inside a packet.

There are four ways to stop: at the end of the stream or by a failed read, and
inside the header or inside the body. Two of them are reported. The end of the
stream inside the body looks like a body that was read, and a failed read of
the header, converted to `size_t`, looks like a header that was read; the
handler then runs on what earlier packets left in the buffer.
-/

namespace Kademlia.Framing

open Foundations Foundations.Source Foundations.Traced Model

/-- The connection stops inside the header, or before the `packet_size` bytes
that its header announces. -/
def Truncated (conn : Conn) : Prop :=
  (delivered conn).length < sizeofHeader ∨
    ((delivered conn).length : ℤ) < packetSizeOf (delivered conn)

/-- `get_rpc_request` reports an error, so the packet is not handled. -/
def Discards (own : Option HashID) (stack : KeyValuePair) (node : Node) (buf : Memory)
    (conn : Conn) : Prop :=
  (getRpcRequest (.stream conn) buf 0).val.ret ≠ 0 ∧
    (serveRpc own stack node buf (.stream conn)).val.outcome = .discarded ∧
    (serveRpc own stack node buf (.stream conn)).val.node = node

/-- The stop is inside the header, and it is the end of the stream. After a
failed read the buffer still announces a size, and it only helps if that size
is too large, or if the rest of the packet is found missing by a second failed
read. -/
def HeaderStopReported (conn : Conn) (buf : Memory) : Prop :=
  let packetSize := (buf.write 0 (delivered conn)).header.packetSize
  fails conn = false ∨ maxRpcPacketSize < toSizeT packetSize ∨
    (delivered (afterFailure conn)).length < toSizeT (packetSize - sizeofHeader) ∧
      fails (afterFailure conn) = true

/-- The stop is inside the body, and it is a failed read; or the packet is
discarded for its size or for a header in several chunks. -/
def BodyStopReported (conn : Conn) : Prop :=
  (firstChunk conn).length < sizeofHeader ∨
    maxRpcPacketSize < toSizeT (packetSizeOf (delivered conn)) ∨ fails conn = true

def StopReported (conn : Conn) (buf : Memory) : Prop :=
  if (delivered conn).length < sizeofHeader then HeaderStopReported conn buf
  else BodyStopReported conn

theorem getStreamRequest_ret_ne_zero_iff {conn : Conn} {buf : Memory} (outSize : ℕ)
    {head : RecvAll} (hhead : recvAll conn sizeofHeader = head) {packetSize : ℤ}
    (hsize : (buf.write 0 head.stored).header.packetSize = packetSize) :
    (getStreamRequest conn buf outSize).val.ret ≠ 0 ↔
      toSizeT head.ret < sizeofHeader ∨ maxRpcPacketSize < toSizeT packetSize ∨
        (recvAll head.rest (toSizeT (packetSize - sizeofHeader))).ret < 0 := by
  subst hhead hsize
  unfold getStreamRequest
  dsimp only
  by_cases hheader : toSizeT (recvAll conn sizeofHeader).ret < sizeofHeader
  · simp [hheader]
  · by_cases hmax : toSizeT (buf.write 0 (recvAll conn sizeofHeader).stored).header.packetSize >
        maxRpcPacketSize
    · simp [hheader, hmax]
    · simp only [hheader, hmax, if_false, false_or, val_bind] at hmax ⊢
      split <;> simp_all

/-- A failed read of the header passes its size check. -/
theorem getRpcRequest_headerStop {conn : Conn} (h : (delivered conn).length < sizeofHeader)
    (buf : Memory) :
    (getRpcRequest (.stream conn) buf 0).val.ret ≠ 0 ↔ HeaderStopReported conn buf := by
  have hstored : (recvAll conn sizeofHeader).stored = delivered conn := by
    rw [recvAll_stored, List.take_of_length_le h.le]
  rw [getRpcRequest, getStreamRequest_ret_ne_zero_iff 0 rfl rfl, headerFails_iff_of_short h,
    (recvAll_stopped h).2, hstored, recvAll_ret_neg_iff, HeaderStopReported]

/-- A stream that has a whole header is accepted: the header is in one chunk, the
size is not too large, and no failed read cuts the body off. -/
def Accepted (conn : Conn) : Prop :=
  sizeofHeader ≤ (firstChunk conn).length ∧
    toSizeT (packetSizeOf (delivered conn)) ≤ maxRpcPacketSize ∧
    ((delivered conn).length <
        sizeofHeader + toSizeT (packetSizeOf (delivered conn) - sizeofHeader) →
      fails conn = false)

theorem getRpcRequest_eq_zero_iff {conn : Conn} (h : sizeofHeader ≤ (delivered conn).length)
    (buf : Memory) : (getRpcRequest (.stream conn) buf 0).val.ret = 0 ↔ Accepted conn := by
  obtain ⟨hrest, -⟩ := recvAll_complete conn (by decide) h
  have hsize : (buf.write 0 (recvAll conn sizeofHeader).stored).header.packetSize =
      packetSizeOf (delivered conn) := by
    rw [recvAll_stored, packetSize_header h]
  have hbody : (delivered conn).length - sizeofHeader <
        toSizeT (packetSizeOf (delivered conn) - (sizeofHeader : ℕ)) ↔
      (delivered conn).length <
        sizeofHeader + toSizeT (packetSizeOf (delivered conn) - (sizeofHeader : ℕ)) := by
    omega
  have hchecks := getStreamRequest_ret_ne_zero_iff 0 rfl hsize
  rw [headerFails_iff_of_long h, hrest, recvAll_ret_neg_iff, delivered_skip, fails_skip,
    List.length_drop, hbody] at hchecks
  rw [← not_iff_not, getRpcRequest]
  refine hchecks.trans ?_
  simp only [Accepted, not_and_or, not_le, Classical.not_imp, Bool.not_eq_false]

theorem getRpcRequest_bodyStop {conn : Conn} (h : sizeofHeader ≤ (delivered conn).length)
    (hlt : ((delivered conn).length : ℤ) < packetSizeOf (delivered conn)) (buf : Memory) :
    (getRpcRequest (.stream conn) buf 0).val.ret ≠ 0 ↔ BodyStopReported conn := by
  have hint := packetSizeOf_lt (delivered conn)
  have hbody : (delivered conn).length <
      sizeofHeader + toSizeT (packetSizeOf (delivered conn) - (sizeofHeader : ℕ)) := by
    rw [toSizeT_of_nonneg (by omega) (by omega)]
    omega
  rw [Ne, getRpcRequest_eq_zero_iff h, Accepted, BodyStopReported]
  simp only [hbody, forall_const, not_and_or, not_le, Bool.not_eq_false]

/-- A truncated packet is discarded exactly when its stop is reported. -/
theorem discards_iff {conn : Conn} (h : Truncated conn) (own : Option HashID)
    (stack : KeyValuePair) (node : Node) (buf : Memory) :
    Discards own stack node buf conn ↔ StopReported conn buf := by
  have hret : Discards own stack node buf conn ↔
      (getRpcRequest (.stream conn) buf 0).val.ret ≠ 0 := by
    constructor
    · rintro ⟨hret, -⟩
      exact hret
    · intro hret
      refine ⟨hret, ?_, ?_⟩ <;> simp [serveRpc, hret]
  rw [hret, StopReported]
  split
  · next hheader => exact getRpcRequest_headerStop hheader buf
  · next hheader =>
      exact getRpcRequest_bodyStop (not_lt.mp hheader) (h.resolve_left hheader) buf

def storeHeader : List UInt8 := [75, 68, 77, 84, 116, 1, 0, 0, 2, 0, 0, 0]

/-- A STORE whose body is cut off by a failed read is discarded. -/
theorem discards_iff_failedStore :
    Discards none ⟨zeroBytes 32, 0, fun _ => zeroPeer⟩ Node.initial (fun _ => 0)
        [.chunk 75 storeHeader.tail, .failure] ↔
      StopReported [.chunk 75 storeHeader.tail, .failure] (fun _ => 0) :=
  discards_iff (Or.inr (by decide)) _ _ _ _

/-- A STORE whose body is cut off by the end of the stream is dispatched and
stores what the buffer held. -/
theorem not_discards_cutStore :
    Truncated [.chunk 75 storeHeader.tail] ∧
      ¬ Discards none ⟨zeroBytes 32, 0, fun _ => zeroPeer⟩ Node.initial (fun _ => 0)
          [.chunk 75 storeHeader.tail] ∧
      ((serveRpc none ⟨zeroBytes 32, 0, fun _ => zeroPeer⟩ Node.initial (fun _ => 0)
          (.stream [.chunk 75 storeHeader.tail])).val.node.storage (zeroBytes 32)).isSome =
        true := by
  refine ⟨Or.inr (by decide), ?_, by decide⟩
  rintro ⟨hret, -⟩
  exact hret (by decide)

end Kademlia.Framing
