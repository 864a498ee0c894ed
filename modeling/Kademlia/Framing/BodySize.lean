import Kademlia.Framing.Segmentation

/-!
How many bytes `get_rpc_request` asks for behind a header.

`packet_size` is an `int` that is compared and subtracted as a `size_t`. A
negative size is a huge `size_t` and is rejected like every size that is too
large. A size below that of the header is not rejected, and the subtraction
wraps around.
-/

namespace Kademlia.Framing

open Foundations Foundations.Source Foundations.Traced Model

/-- The number of bytes that the second `recv_all` of `get_rpc_request` is asked
for, if the call gets there. -/
def bodyCount (conn : Conn) (buf : Memory) : Option ℕ :=
  let head := recvAll conn sizeofHeader
  let packetSize := (buf.write 0 head.stored).header.packetSize
  if toSizeT head.ret < sizeofHeader then none
  else if toSizeT packetSize > maxRpcPacketSize then none
  else some (toSizeT (packetSize - sizeofHeader))

/-- What the call does with its socket and with the buffer behind the header. -/
theorem getStreamRequest_bodyCount (conn : Conn) (buf : Memory) (outSize : ℕ) :
    (getStreamRequest conn buf outSize).val.sock =
        .stream ((bodyCount conn buf).elim (recvAll conn sizeofHeader).rest fun count =>
          (recvAll (recvAll conn sizeofHeader).rest count).rest) ∧
      (getStreamRequest conn buf outSize).val.bodyLen =
        (bodyCount conn buf).elim 0 fun count =>
          (recvAll (recvAll conn sizeofHeader).rest count).stored.length := by
  unfold getStreamRequest bodyCount
  dsimp only
  split_ifs <;> exact ⟨rfl, rfl⟩

theorem packetSizeOf_ge (packet : List UInt8) : -2 ^ 31 ≤ packetSizeOf packet := by
  unfold packetSizeOf int32
  split <;> omega

theorem toSizeT_of_neg {z : ℤ} (h : z < 0) (hge : -2 ^ 64 ≤ z) : (toSizeT z : ℤ) = z + 2 ^ 64 := by
  have hmod : z % 2 ^ 64 = z + 2 ^ 64 := by omega
  rw [toSizeT, hmod, Int.toNat_of_nonneg (by omega)]

theorem toSizeT_le_max_iff {size : ℤ} (hge : -2 ^ 31 ≤ size) (hlt : size < 2 ^ 31) :
    toSizeT size ≤ maxRpcPacketSize ↔ 0 ≤ size ∧ size ≤ maxRpcPacketSize := by
  have hmax : maxRpcPacketSize = 702 := by decide
  rw [hmax]
  by_cases hneg : size < 0
  · have hwrap := toSizeT_of_neg hneg (by omega)
    omega
  · rw [toSizeT_of_nonneg (by omega) (by omega)]
    omega

theorem bodyCount_eq {conn : Conn} (h : sizeofHeader ≤ (delivered conn).length) (buf : Memory) :
    bodyCount conn buf =
      if sizeofHeader ≤ (firstChunk conn).length ∧ 0 ≤ packetSizeOf (delivered conn) ∧
          packetSizeOf (delivered conn) ≤ maxRpcPacketSize then
        some (toSizeT (packetSizeOf (delivered conn) - sizeofHeader))
      else none := by
  have hsize := toSizeT_le_max_iff (packetSizeOf_ge (delivered conn))
    (packetSizeOf_lt (delivered conn))
  rw [bodyCount]
  simp only [headerFails_iff_of_long h, recvAll_stored, packetSize_header h, gt_iff_lt]
  by_cases hheader : (firstChunk conn).length < sizeofHeader
  · rw [if_pos hheader, if_neg fun hall => absurd hall.1 (not_le.mpr hheader)]
  · rw [if_neg hheader]
    by_cases hmax : maxRpcPacketSize < toSizeT (packetSizeOf (delivered conn))
    · rw [if_pos hmax, if_neg fun hall => absurd (hsize.mpr hall.2) (not_le.mpr hmax)]
    · rw [if_neg hmax, if_pos ⟨not_lt.mp hheader, hsize.mp (not_lt.mp hmax)⟩]

def BodyFits (conn : Conn) (buf : Memory) : Prop :=
  ∀ count, bodyCount conn buf = some count → count ≤ maxRpcPacketSize - sizeofHeader

/-- Where a header was received, the body fits unless a size that is too small is
taken for good. -/
theorem bodyFits_iff {conn : Conn} (h : sizeofHeader ≤ (delivered conn).length) (buf : Memory) :
    BodyFits conn buf ↔
      ¬ (sizeofHeader ≤ (firstChunk conn).length ∧ 0 ≤ packetSizeOf (delivered conn) ∧
        packetSizeOf (delivered conn) < sizeofHeader) := by
  have hmax : maxRpcPacketSize = 702 := by decide
  have hheader : sizeofHeader = 12 := rfl
  rw [BodyFits, bodyCount_eq h, hmax, hheader]
  generalize packetSizeOf (delivered conn) = size
  constructor
  · rintro hfits ⟨hchunk, hnonneg, hlt⟩
    have hle := hfits _ (if_pos ⟨hchunk, hnonneg, by omega⟩)
    have hwrap := toSizeT_of_neg (show size - (12 : ℕ) < 0 by omega) (by omega)
    omega
  · intro hnot count hcount
    split_ifs at hcount with hread
    cases hcount
    have hge : (12 : ℕ) ≤ size := not_lt.mp fun hlt => hnot ⟨hread.1, hread.2.1, hlt⟩
    rw [toSizeT_of_nonneg (by omega) (by omega)]
    omega

theorem bodyFits_iff_ping :
    BodyFits [.chunk 75 pingPacket.tail] (fun _ => 0) ↔
      ¬ (sizeofHeader ≤ (firstChunk [.chunk 75 pingPacket.tail]).length ∧
        0 ≤ packetSizeOf (delivered [.chunk 75 pingPacket.tail]) ∧
        packetSizeOf (delivered [.chunk 75 pingPacket.tail]) < sizeofHeader) :=
  bodyFits_iff (by decide) _

def emptyPing : List UInt8 := [75, 68, 77, 84, 0, 0, 0, 0, 1, 0, 0, 0]

/-- The body of a PING that says it has no bytes is asked for with a count of 2^64 - 12. -/
theorem not_bodyFits_emptyPing :
    bodyCount [.chunk 75 emptyPing.tail] (fun _ => 0) = some (2 ^ 64 - 12) ∧
      ¬ BodyFits [.chunk 75 emptyPing.tail] (fun _ => 0) := by
  have hcount : bodyCount [.chunk 75 emptyPing.tail] (fun _ => 0) = some (2 ^ 64 - 12) := by decide
  refine ⟨hcount, fun h => ?_⟩
  exact absurd (h _ hcount) (by decide)

end Kademlia.Framing
