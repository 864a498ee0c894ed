import Kademlia.Model.Packets
import Kademlia.Framing.Segmentation

/-!
Packets are read as they were written.

The bytes of a packet at the start of a buffer, whatever was in it before, read as
each of the structs give back its fields. Integers come back when they fit their
field.
-/

namespace Kademlia.Framing

open Foundations Foundations.Source Foundations.Traced Model

/-! ### Sizes -/

@[simp] theorem length_leBytes (width n : ℕ) : (leBytes width n).length = width := by
  induction width generalizing n with
  | zero => rfl
  | succ width ih => rw [leBytes, List.length_cons, ih]

@[simp] theorem length_sockAddrIn_bytes (addr : SockAddrIn) : addr.bytes.length = 16 := by
  simp [SockAddrIn.bytes]

@[simp] theorem length_peer_bytes (peer : RPCPeer) : peer.bytes.length = sizeofPeer := by
  simp [RPCPeer.bytes, sizeofPeer]

@[simp] theorem length_peersBytes (peers : Fin kValue → RPCPeer) :
    (peersBytes peers).length = sizeofPeer * kValue := by
  rw [peersBytes, length_flatMap_blocks length_peer_bytes, List.length_ofFn]

@[simp] theorem length_keyValue_bytes (value : RPCKeyValue) :
    value.bytes.length = sizeofKeyValue := by
  simp [RPCKeyValue.bytes, sizeofKeyValue, kValue, sizeofPeer]

@[simp] theorem length_header_bytes (header : RPCMessageHeader) :
    header.bytes.length = sizeofHeader := by
  simp [RPCMessageHeader.bytes, sizeofHeader]

/-! ### Fields -/

theorem littleEndian_leBytes (width n : ℕ) : littleEndian (leBytes width n) = n % 256 ^ width := by
  induction width generalizing n with
  | zero => rw [leBytes, littleEndian, Nat.pow_zero, Nat.mod_one]
  | succ width ih =>
      have hbyte : (UInt8.ofNat n).toNat = n % 256 := by simp
      rw [leBytes, littleEndian, ih, hbyte, Nat.pow_succ', Nat.mod_mul]

theorem int32_emod {z : ℤ} (hlow : -2 ^ 31 ≤ z) (hhigh : z < 2 ^ 31) :
    int32 (z % 2 ^ 32).toNat = z := by
  unfold int32
  split <;> omega

section Fields

variable {l : List UInt8} {start : ℕ} (m : Memory)

theorem bytes_write {n : ℕ} {v : Bytes n} (h : LiesAt l start v.toList) :
    (m.write 0 l).bytes start n = v := by
  have hle := h.le
  have htake := h.take_drop
  rw [List.Vector.toList_length] at hle htake
  apply List.Vector.toList_injective
  have hread := m.toList_bytes_write 0 hle
  rwa [Nat.zero_add, htake] at hread

theorem littleEndian_write {width n : ℕ} (h : LiesAt l start (leBytes width n))
    (hn : n < 256 ^ width) : littleEndian ((m.write 0 l).bytes start width).toList = n := by
  have hbytes : (m.write 0 l).bytes start width = ⟨leBytes width n, length_leBytes width n⟩ :=
    bytes_write m (v := ⟨leBytes width n, length_leBytes width n⟩) h
  rw [hbytes]
  exact (littleEndian_leBytes width n).trans (Nat.mod_eq_of_lt hn)

theorem byte_write {x : UInt8} (h : LiesAt l start [x]) : (m.write 0 l) start = x := by
  simp [Memory.write, h.getElem]

theorem sockAddrIn_write {addr : SockAddrIn} (h : LiesAt l start addr.bytes) :
    (m.write 0 l).sockAddrIn start = addr := by
  have hport := h.next (addr.sinFamily.toList_length)
  have haddr := hport.next (addr.sinPort.toList_length)
  have hzero := haddr.next (addr.sinAddr.toList_length)
  simp only [Memory.sockAddrIn, bytes_write m h.left, bytes_write m hport.left,
    bytes_write m haddr.left, bytes_write m hzero]

theorem peer_write {peer : RPCPeer} (h : LiesAt l start peer.bytes) :
    (m.write 0 l).peer start = peer := by
  have haddr := h.next (peer.peerId.toList_length)
  have hkey := haddr.next (length_sockAddrIn_bytes _)
  simp only [Memory.peer, bytes_write m h.left, sockAddrIn_write m haddr.left,
    bytes_write m hkey]

theorem peers_write {peers : Fin kValue → RPCPeer} (h : LiesAt l start (peersBytes peers)) :
    (m.write 0 l).peers start = peers := by
  funext i
  refine peer_write m (h.block length_peer_bytes ?_)
  rw [List.getElem?_ofFn, dif_pos i.isLt]

theorem keyValue_write {value : RPCKeyValue} (h : LiesAt l start value.bytes)
    (hcount : value.numValues < 2 ^ 64) : (m.write 0 l).keyValue start = value := by
  have hnum := h.next (value.key.toList_length)
  have hpeers := hnum.next (length_leBytes 8 _)
  have hsize : (m.write 0 l).sizeT (start + 32) = value.numValues :=
    littleEndian_write m hnum.left hcount
  simp only [Memory.keyValue, bytes_write m h.left, hsize, peers_write m hpeers]

structure HeaderFits (header : RPCMessageHeader) : Prop where
  low : -2 ^ 31 ≤ header.packetSize
  high : header.packetSize < 2 ^ 31
  callType : header.callType < 2 ^ 32

theorem header_write {header : RPCMessageHeader} (h : LiesAt l 0 header.bytes)
    (hfits : HeaderFits header) : (m.write 0 l).header = header := by
  have hsize := h.next (header.magicNumber.toList_length)
  have htype := hsize.next (length_leBytes 4 _)
  have hint : (m.write 0 l).int 4 = header.packetSize := by
    rw [Memory.int, littleEndian_write m hsize.left (by omega)]
    exact int32_emod hfits.low hfits.high
  simp only [Memory.header, bytes_write m h.left, hint,
    littleEndian_write m htype hfits.callType]

end Fields

/-! ### Packets -/

section Packets

variable (m : Memory)

theorem rpcBroadcast_write {packet : RPCBroadcast} (hfits : HeaderFits packet.header) :
    (m.write 0 packet.bytes).rpcBroadcast = packet := by
  have h := liesAt_self packet.bytes
  have hpeer := h.next (length_header_bytes packet.header)
  rw [Memory.rpcBroadcast, header_write m h.left hfits]
  exact congrArg _ (peer_write m hpeer)

theorem rpcStore_write {packet : RPCStore} (hfits : HeaderFits packet.header)
    (hcount : packet.keyValue.numValues < 2 ^ 64) :
    (m.write 0 packet.bytes).rpcStore = packet := by
  have h := liesAt_self packet.bytes
  have hvalue := h.next (length_header_bytes packet.header)
  rw [Memory.rpcStore, header_write m h.left hfits]
  exact congrArg _ (keyValue_write m hvalue hcount)

theorem rpcFind_write {packet : RPCFind} (hfits : HeaderFits packet.header) :
    (m.write 0 packet.bytes).rpcFind = packet := by
  have h := liesAt_self packet.bytes
  have hkey := h.next (length_header_bytes packet.header)
  rw [Memory.rpcFind, header_write m h.left hfits]
  exact congrArg _ (bytes_write m hkey)

theorem rpcFindNodeResponse_write {packet : RPCFindNodeResponse}
    (hfits : HeaderFits packet.header) (hcount : packet.numClosest < 2 ^ 64) :
    (m.write 0 packet.bytes).rpcFindNodeResponse = packet := by
  have h := liesAt_self packet.bytes
  have hsuccess : LiesAt packet.bytes 12 _ := h.next (length_header_bytes packet.header)
  have hfound : LiesAt packet.bytes 13 _ := hsuccess.next List.length_singleton
  have hnum : LiesAt packet.bytes 14 _ := hfound.next List.length_singleton
  have hpeers : LiesAt packet.bytes 22 _ := hnum.next (length_leBytes 8 _)
  have hsize : (m.write 0 packet.bytes).sizeT 14 = packet.numClosest :=
    littleEndian_write m hnum.left hcount
  simp only [Memory.rpcFindNodeResponse, header_write m h.left hfits, hsize,
    byte_write m hsuccess.left, byte_write m hfound.left, peers_write m hpeers]

theorem rpcFindValueResponse_write {packet : RPCFindValueResponse}
    (hfits : HeaderFits packet.header) (hvalues : packet.values.numValues < 2 ^ 64)
    (hcount : packet.numClosest < 2 ^ 64) :
    (m.write 0 packet.bytes).rpcFindValueResponse = packet := by
  have h := liesAt_self packet.bytes
  have hsuccess : LiesAt packet.bytes 12 _ := h.next (length_header_bytes packet.header)
  have hfound : LiesAt packet.bytes 13 _ := hsuccess.next List.length_singleton
  have hkv : LiesAt packet.bytes 14 _ := hfound.next List.length_singleton
  have hnum : LiesAt packet.bytes (14 + sizeofKeyValue) _ := hkv.next (length_keyValue_bytes _)
  have hpeers : LiesAt packet.bytes (14 + sizeofKeyValue + 8) _ := hnum.next (length_leBytes 8 _)
  have hsize : (m.write 0 packet.bytes).sizeT (14 + sizeofKeyValue) = packet.numClosest :=
    littleEndian_write m hnum.left hcount
  simp only [Memory.rpcFindValueResponse, header_write m h.left hfits, hsize,
    byte_write m hsuccess.left, byte_write m hfound.left, keyValue_write m hkv.left hvalues,
    peers_write m hpeers]

end Packets

end Kademlia.Framing
