import Kademlia.Framing.RecvAll

/-!
Packets sent one after the other on a TCP connection.

`get_rpc_request` compares what `recv_all` returned with the size of a header,
but that is the size of the last chunk only. So a packet is accepted exactly
when one chunk of the stream has its whole header; how the body is split makes
no difference.
-/

namespace Kademlia.Framing

open Foundations Foundations.Source Foundations.Traced Model

def packetSizeOf (packet : List UInt8) : ℤ := int32 (littleEndian ((packet.drop 4).take 4))

theorem packetSizeOf_lt (packet : List UInt8) : packetSizeOf packet < 2 ^ 31 := by
  apply int32_lt
  have hlt := littleEndian_lt ((packet.drop 4).take 4)
  have hpow : 256 ^ ((packet.drop 4).take 4).length ≤ 256 ^ 4 :=
    Nat.pow_le_pow_right (by decide) (List.length_take_le _ _)
  exact hlt.trans_le hpow

/-- The true length of a packet is its `packet_size`, and within the limits. -/
structure WellFramed (packet : List UInt8) : Prop where
  size : packetSizeOf packet = packet.length
  header_le : sizeofHeader ≤ packet.length
  le_max : packet.length ≤ maxRpcPacketSize

/-- The first `packet_size` bytes of the receive buffer. -/
def packetIn (buf : Memory) : List UInt8 :=
  (buf.bytes 0 buf.header.packetSize.toNat).toList

/-- `count` successive calls of `get_rpc_request` on one socket: what each
returns, and the packet it leaves in the buffer. -/
def receiveAll : ℕ → Socket → Memory → List (ℤ × List UInt8)
  | 0, _, _ => []
  | count + 1, sock, buf =>
      let request := (getRpcRequest sock buf 0).val
      (request.ret, packetIn request.buf) :: receiveAll count request.sock request.buf

/-- The chunk that has the first byte of a packet has its whole header. -/
def HeadersWhole : Conn → List (List UInt8) → Prop
  | _, [] => True
  | conn, packet :: packets =>
      sizeofHeader ≤ (firstChunk conn).length ∧ HeadersWhole (skip packet.length conn) packets

theorem packetSize_write {packet : List UInt8} (h : 8 ≤ packet.length) (buf : Memory) :
    (buf.write 0 packet).header.packetSize = packetSizeOf packet := by
  have hbytes := buf.toList_bytes_write 0 (show 4 + 4 ≤ packet.length by omega)
  rw [Nat.zero_add] at hbytes
  show int32 (littleEndian ((buf.write 0 packet).bytes 4 4).toList) = _
  rw [hbytes, packetSizeOf]

theorem packetSizeOf_take {packet : List UInt8} {n : ℕ} (h : 8 ≤ n) :
    packetSizeOf (packet.take n) = packetSizeOf packet := by
  rw [packetSizeOf, packetSizeOf, List.drop_take, List.take_take,
    Nat.min_eq_left (by omega)]

theorem packetSize_header {packet : List UInt8} (h : sizeofHeader ≤ packet.length)
    (buf : Memory) :
    (buf.write 0 (packet.take sizeofHeader)).header.packetSize = packetSizeOf packet := by
  have hlong : (packet.take sizeofHeader).length = sizeofHeader := List.length_take_of_le h
  rw [packetSize_write (by rw [hlong]; decide), packetSizeOf_take (by decide)]

theorem write_header {packet : List UInt8} (h : sizeofHeader ≤ packet.length) (buf : Memory)
    (body : List UInt8) :
    (buf.write 0 (packet.take sizeofHeader)).write sizeofHeader body =
      buf.write 0 (packet.take sizeofHeader ++ body) := by
  have hlong : (packet.take sizeofHeader).length = sizeofHeader := List.length_take_of_le h
  have hjoin := buf.write_write 0 (packet.take sizeofHeader) body
  rwa [hlong, Nat.zero_add] at hjoin

theorem packetIn_write {packet : List UInt8} (h : WellFramed packet) (buf : Memory) :
    packetIn (buf.write 0 packet) = packet := by
  have hheader : 12 ≤ packet.length := h.header_le
  have hbytes := buf.toList_bytes_write 0 (show 0 + packet.length ≤ packet.length by omega)
  rw [packetIn, packetSize_write (by omega), h.size, Int.toNat_natCast]
  simpa using hbytes

/-! ### One packet -/

section OnePacket

variable {conn : Conn} {packet : List UInt8} (hframed : WellFramed packet)
  (hstart : packet <+: delivered conn) (buf : Memory) (outSize : ℕ)
include hframed hstart

theorem recvAll_header : (recvAll conn sizeofHeader).stored = packet.take sizeofHeader ∧
    (recvAll conn sizeofHeader).rest = skip sizeofHeader conn := by
  have hlen := hframed.header_le
  have hle := hstart.length_le
  constructor
  · obtain ⟨others, hothers⟩ := hstart
    rw [recvAll_stored, ← hothers, List.take_append_of_le_length hlen]
  · exact (recvAll_complete conn (by decide) (by omega)).1

theorem getStreamRequest_split (h : (firstChunk conn).length < sizeofHeader) :
    (getStreamRequest conn buf outSize).val.ret = -1 := by
  have hlt := (headerFails_iff_of_long (hframed.header_le.trans hstart.length_le)).mpr h
  simp [getStreamRequest, hlt]

/-- What the second `recv_all` does with a packet whose header was read. -/
theorem recvAll_body :
    (recvAll (skip sizeofHeader conn) (packet.length - sizeofHeader)).stored =
        packet.drop sizeofHeader ∧
      (recvAll (skip sizeofHeader conn) (packet.length - sizeofHeader)).rest =
        skip packet.length conn ∧
      0 ≤ (recvAll (skip sizeofHeader conn) (packet.length - sizeofHeader)).ret := by
  have hlen := hframed.header_le
  have hle := hstart.length_le
  have hrest : (delivered (skip sizeofHeader conn)).length =
      (delivered conn).length - sizeofHeader := by
    rw [delivered_skip, List.length_drop]
  refine ⟨?_, ?_⟩
  · obtain ⟨others, hothers⟩ := hstart
    rw [recvAll_stored, delivered_skip, ← hothers, List.drop_append_of_le_length hlen,
      ← List.length_drop, List.take_left]
  · rcases Nat.eq_or_lt_of_le hlen with heq | hlt
    · rw [← heq, Nat.sub_self, recvAll_zero]
      exact ⟨rfl, le_rfl⟩
    · obtain ⟨hskip, hpos, -⟩ := recvAll_complete (skip sizeofHeader conn)
        (show 0 < packet.length - sizeofHeader by omega) (by omega)
      refine ⟨?_, hpos.le⟩
      rw [hskip, skip_skip, Nat.add_sub_cancel' hlen]

/-- A header in one chunk is accepted, and the body behind it is read whole. -/
theorem getStreamRequest_whole (h : sizeofHeader ≤ (firstChunk conn).length) :
    (getStreamRequest conn buf outSize).val.ret = 0 ∧
      (getStreamRequest conn buf outSize).val.buf = buf.write 0 packet ∧
      (getStreamRequest conn buf outSize).val.sock = .stream (skip packet.length conn) := by
  have hlen := hframed.header_le
  have hmax := hframed.le_max
  have hle := hstart.length_le
  obtain ⟨-, -, -, hall⟩ :=
    recvAll_complete conn (show 0 < sizeofHeader by decide) (by omega)
  have hret : (recvAll conn sizeofHeader).ret = sizeofHeader := hall.mpr h
  obtain ⟨hstored, hrest⟩ := recvAll_header hframed hstart
  obtain ⟨hbody, hskip, hnonneg⟩ := recvAll_body hframed hstart
  have hheader : ¬ toSizeT (sizeofHeader : ℤ) < sizeofHeader := by decide
  have hsize : (buf.write 0 (packet.take sizeofHeader)).header.packetSize = packet.length := by
    rw [packetSize_header hlen, hframed.size]
  have hmaxlt : maxRpcPacketSize < 2 ^ 64 := by decide
  have hfits : ¬ toSizeT (packet.length : ℤ) > maxRpcPacketSize := by
    rw [toSizeT_of_nonneg (by omega) (by omega)]
    omega
  have hrem : toSizeT ((packet.length : ℤ) - (sizeofHeader : ℕ)) =
      packet.length - sizeofHeader := by
    rw [toSizeT_of_nonneg (by omega) (by omega)]
    omega
  have hwrite : (buf.write 0 (packet.take sizeofHeader)).write sizeofHeader
      (packet.drop sizeofHeader) = buf.write 0 packet := by
    rw [write_header hlen, List.take_append_drop]
  simp only [getStreamRequest, hret, hheader, if_false, hstored, hrest, val_bind, hsize, hfits,
    hrem, hbody, hwrite, hskip, if_neg (not_lt.mpr hnonneg), val_pure, and_self]

end OnePacket

/-! ### Any number of packets -/

/-- The packets come out one by one and unchanged exactly when each header lies
in one chunk. -/
theorem receiveAll_eq_iff {conn : Conn} (packets : List (List UInt8))
    (hframed : ∀ packet ∈ packets, WellFramed packet)
    (hstream : packets.flatten <+: delivered conn) (buf : Memory) :
    receiveAll packets.length (.stream conn) buf = packets.map (fun packet => (0, packet)) ↔
      HeadersWhole conn packets := by
  induction packets generalizing conn buf with
  | nil => simp [receiveAll, HeadersWhole]
  | cons packet packets ih =>
      have hpacket : WellFramed packet := hframed packet (by simp)
      have hfirst : packet <+: delivered conn :=
        (List.prefix_append packet packets.flatten).trans hstream
      by_cases hwhole : sizeofHeader ≤ (firstChunk conn).length
      · obtain ⟨hret, hbuf, hsock⟩ := getStreamRequest_whole hpacket hfirst buf 0 hwhole
        have hrest : packets.flatten <+: delivered (skip packet.length conn) := by
          obtain ⟨others, hothers⟩ := hstream
          rw [delivered_skip, ← hothers, List.flatten_cons, List.append_assoc, List.drop_left]
          exact List.prefix_append _ _
        have hnext := ih (fun p hp => hframed p (by simp [hp])) hrest (buf.write 0 packet)
        simp only [List.length_cons, receiveAll, getRpcRequest, hret, hbuf, hsock,
          packetIn_write hpacket, List.map_cons, List.cons.injEq, true_and, HeadersWhole,
          hwhole, hnext]
      · have hret := getStreamRequest_split hpacket hfirst buf 0 (by omega)
        simp [receiveAll, getRpcRequest, hret, HeadersWhole, hwhole]

def pingPacket : List UInt8 := [75, 68, 77, 84, 12, 0, 0, 0, 1, 0, 0, 0]

theorem wellFramed_pingPacket : WellFramed pingPacket := ⟨by decide, by decide, by decide⟩

/-- Two PINGs, the second header behind the first in one chunk. -/
theorem receiveAll_eq_iff_twoPings :
    receiveAll 2 (.stream [.chunk 75 (pingPacket.tail ++ pingPacket)]) (fun _ => 0) =
        [(0, pingPacket), (0, pingPacket)] ↔
      HeadersWhole [.chunk 75 (pingPacket.tail ++ pingPacket)] [pingPacket, pingPacket] :=
  receiveAll_eq_iff [pingPacket, pingPacket] (by simp [wellFramed_pingPacket]) (by decide) _

/-- A PING whose first byte arrives alone is discarded. -/
theorem receiveAll_splitPing :
    WellFramed pingPacket ∧
      delivered [.chunk 75 [], .chunk 68 (pingPacket.drop 2)] = [pingPacket].flatten ∧
      receiveAll 1 (.stream [.chunk 75 [], .chunk 68 (pingPacket.drop 2)]) (fun _ => 0) ≠
        [(0, pingPacket)] :=
  ⟨wellFramed_pingPacket, by decide, by decide⟩

end Kademlia.Framing
