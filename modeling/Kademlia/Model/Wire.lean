import Kademlia.Foundations.AccessTrace

/-!
The records of `shared.h`, `peer.h` and `rpc.h`, and how a packet in memory is
read as one of them.

The packet structs are packed, so a field of a received packet is a fixed
range of bytes. Integers are stored little endian; `int` has 32 bits and
`size_t` 64. `struct Peer` keeps the id and the address: the key pointer is
always `NULL` and nothing reads `last_seen`.
-/

namespace Kademlia.Model

open Foundations

def kValue : ℕ := 4

abbrev Bytes (n : ℕ) := List.Vector UInt8 n

/-- `HashID`, of `SHA256_DIGEST_LENGTH` bytes. -/
abbrev HashID := Bytes 32

abbrev PubKey := Bytes 32

def zeroBytes (n : ℕ) : Bytes n := List.Vector.replicate n 0

/-- `struct sockaddr_in`; ports and addresses are in network byte order. -/
structure SockAddrIn where
  sinFamily : Bytes 2
  sinPort : Bytes 2
  sinAddr : Bytes 4
  sinZero : Bytes 8
  deriving DecidableEq

structure Peer where
  peerId : HashID
  peerAddr : SockAddrIn
  deriving DecidableEq

def zeroAddr : SockAddrIn := ⟨zeroBytes 2, zeroBytes 2, zeroBytes 4, zeroBytes 8⟩

/-- A `struct Peer` cleared by `memset`. -/
def zeroPeer : Peer := ⟨zeroBytes 32, zeroAddr⟩

/-! ### Packets -/

/-- `RPC_MAGIC`, `"KDMT"` -/
def rpcMagic : Bytes 4 := ⟨[75, 68, 77, 84], rfl⟩

inductive RPCCallType
  | ping | store | findNode | findValue
  | pingResponse | storeResponse | findNodeResponse | findValueResponse
  | broadcast
  deriving DecidableEq, Repr

def RPCCallType.code : RPCCallType → ℕ
  | .ping => 1
  | .store => 2
  | .findNode => 4
  | .findValue => 8
  | .pingResponse => 16
  | .storeResponse => 32
  | .findNodeResponse => 64
  | .findValueResponse => 128
  | .broadcast => 256

/-- The call type a field of a packet stands for; the field may hold anything. -/
def RPCCallType.ofCode (code : ℕ) : Option RPCCallType :=
  [.ping, .store, .findNode, .findValue, .pingResponse, .storeResponse, .findNodeResponse,
    .findValueResponse, .broadcast].find? fun c => c.code = code

@[simp] theorem RPCCallType.ofCode_code (c : RPCCallType) : ofCode c.code = some c := by
  cases c <;> rfl

structure RPCPeer where
  peerId : HashID
  peerAddr : SockAddrIn
  peerKey : PubKey
  deriving DecidableEq

structure RPCKeyValue where
  key : HashID
  numValues : ℕ
  values : Fin kValue → RPCPeer

structure RPCMessageHeader where
  magicNumber : Bytes 4
  packetSize : ℤ
  callType : ℕ
  deriving DecidableEq

structure RPCBroadcast where
  header : RPCMessageHeader
  peer : RPCPeer

structure RPCStore where
  header : RPCMessageHeader
  keyValue : RPCKeyValue

structure RPCFind where
  header : RPCMessageHeader
  key : HashID

structure RPCResponse where
  header : RPCMessageHeader
  success : UInt8

structure RPCFindValueResponse where
  header : RPCMessageHeader
  success : UInt8
  foundKey : UInt8
  values : RPCKeyValue
  numClosest : ℕ
  closest : Fin kValue → RPCPeer

structure RPCFindNodeResponse where
  header : RPCMessageHeader
  success : UInt8
  foundKey : UInt8
  numClosest : ℕ
  closest : Fin kValue → RPCPeer

/-! ### Sizes -/

def sizeofPeer : ℕ := 32 + 16 + 32
def sizeofKeyValue : ℕ := 32 + 8 + kValue * sizeofPeer
def sizeofHeader : ℕ := 4 + 4 + 4
def sizeofPing : ℕ := sizeofHeader
def sizeofBroadcast : ℕ := sizeofHeader + sizeofPeer
def sizeofStore : ℕ := sizeofHeader + sizeofKeyValue
def sizeofFind : ℕ := sizeofHeader + 32
def sizeofResponse : ℕ := sizeofHeader + 1
def sizeofFindValueResponse : ℕ :=
  sizeofHeader + 1 + 1 + sizeofKeyValue + 8 + kValue * sizeofPeer
def sizeofFindNodeResponse : ℕ := sizeofHeader + 1 + 1 + 8 + kValue * sizeofPeer

def maxRpcPacketSize : ℕ :=
  max sizeofPing (max sizeofStore (max sizeofFind (max sizeofResponse
    (max sizeofFindValueResponse sizeofFindNodeResponse))))

theorem sizeofHeader_eq : sizeofHeader = 12 := rfl

/-! ### Memory -/

/-- The contents of a byte buffer, by index. -/
abbrev Memory := ℕ → UInt8

/-- Store `bytes` from `offset` on. -/
def Memory.write (m : Memory) (offset : ℕ) (bytes : List UInt8) : Memory := fun i =>
  if offset ≤ i then (bytes[i - offset]?).getD (m i) else m i

def Memory.bytes (m : Memory) (offset n : ℕ) : Bytes n :=
  List.Vector.ofFn fun i => m (offset + i)

theorem Memory.toList_bytes_write (m : Memory) (offset : ℕ) {start n : ℕ} {l : List UInt8}
    (h : start + n ≤ l.length) :
    ((m.write offset l).bytes (offset + start) n).toList = (l.drop start).take n := by
  rw [Memory.bytes, List.Vector.toList_ofFn]
  apply List.ext_getElem
  · simp only [List.length_ofFn, List.length_take, List.length_drop]
    omega
  · intro i hi _
    rw [List.length_ofFn] at hi
    have hget : start + i < l.length := by omega
    simp only [Memory.write, List.getElem_ofFn, List.getElem_take, List.getElem_drop,
      if_pos (show offset ≤ offset + start + i by omega),
      show offset + start + i - offset = start + i by omega, List.getElem?_eq_getElem hget,
      Option.getD_some]

theorem Memory.write_write (m : Memory) (offset : ℕ) (l l' : List UInt8) :
    (m.write offset l).write (offset + l.length) l' = m.write offset (l ++ l') := by
  ext1 i
  unfold Memory.write
  by_cases h : offset + l.length ≤ i
  · have hle : offset ≤ i := by omega
    have hsub : i - (offset + l.length) = i - offset - l.length := by omega
    have hnone : l[i - offset]? = none := List.getElem?_eq_none (by omega)
    simp only [h, hle, if_true, hnone, Option.getD_none, hsub,
      List.getElem?_append_right (show l.length ≤ i - offset by omega)]
  · by_cases hle : offset ≤ i
    · simp only [h, hle, if_true, if_false,
        List.getElem?_append_left (show i - offset < l.length by omega)]
    · simp only [h, hle, if_false]

def littleEndian : List UInt8 → ℕ
  | [] => 0
  | b :: bs => b.toNat + 256 * littleEndian bs

theorem littleEndian_lt (bytes : List UInt8) : littleEndian bytes < 256 ^ bytes.length := by
  induction bytes with
  | nil => exact Nat.one_pos
  | cons b bs ih =>
      have hb : b.toNat < 256 := b.toNat_lt
      rw [littleEndian, List.length_cons, Nat.pow_succ]
      omega

def Memory.sizeT (m : Memory) (offset : ℕ) : ℕ := littleEndian (m.bytes offset 8).toList

/-- The value of a 32-bit pattern as an `int`. -/
def int32 (n : ℕ) : ℤ := if n < 2 ^ 31 then n else n - 2 ^ 32

theorem int32_lt {n : ℕ} (h : n < 2 ^ 32) : int32 n < 2 ^ 31 := by
  unfold int32
  split <;> omega

def Memory.int (m : Memory) (offset : ℕ) : ℤ := int32 (littleEndian (m.bytes offset 4).toList)

def toSizeT (z : ℤ) : ℕ := (z % 2 ^ 64).toNat

theorem toSizeT_of_nonneg {z : ℤ} (h : 0 ≤ z) (hlt : z < 2 ^ 64) : toSizeT z = z.toNat := by
  rw [toSizeT, Int.emod_eq_of_lt h hlt]

/-! ### Reading a packet

`(struct RPCStore *)contents` and the like: the packet starts at index 0. -/

def Memory.header (m : Memory) : RPCMessageHeader where
  magicNumber := m.bytes 0 4
  packetSize := m.int 4
  callType := littleEndian (m.bytes 8 4).toList

def Memory.sockAddrIn (m : Memory) (offset : ℕ) : SockAddrIn where
  sinFamily := m.bytes offset 2
  sinPort := m.bytes (offset + 2) 2
  sinAddr := m.bytes (offset + 4) 4
  sinZero := m.bytes (offset + 8) 8

def Memory.peer (m : Memory) (offset : ℕ) : RPCPeer where
  peerId := m.bytes offset 32
  peerAddr := m.sockAddrIn (offset + 32)
  peerKey := m.bytes (offset + 48) 32

def Memory.peers (m : Memory) (offset : ℕ) : Fin kValue → RPCPeer :=
  fun i => m.peer (offset + sizeofPeer * i)

/-- `closest[i]` of the response in a buffer, whose array starts at `offset`; an
index behind the array finds what the buffer has there. -/
def Memory.slot (m : Memory) (offset i : ℕ) : RPCPeer := m.peer (offset + sizeofPeer * i)

def Memory.keyValue (m : Memory) (offset : ℕ) : RPCKeyValue where
  key := m.bytes offset 32
  numValues := m.sizeT (offset + 32)
  values := m.peers (offset + 40)

def Memory.rpcBroadcast (m : Memory) : RPCBroadcast := ⟨m.header, m.peer 12⟩

def Memory.rpcStore (m : Memory) : RPCStore := ⟨m.header, m.keyValue 12⟩

def Memory.rpcFind (m : Memory) : RPCFind := ⟨m.header, m.bytes 12 32⟩

def Memory.rpcFindValueResponse (m : Memory) : RPCFindValueResponse where
  header := m.header
  success := m 12
  foundKey := m 13
  values := m.keyValue 14
  numClosest := m.sizeT (14 + sizeofKeyValue)
  closest := m.peers (14 + sizeofKeyValue + 8)

def Memory.rpcFindNodeResponse (m : Memory) : RPCFindNodeResponse where
  header := m.header
  success := m 12
  foundKey := m 13
  numClosest := m.sizeT 14
  closest := m.peers 22

def Memory.Agree (n : ℕ) (m m' : Memory) : Prop := ∀ i < n, m i = m' i

theorem Memory.agree_write (m m' : Memory) (l : List UInt8) :
    Agree l.length (m.write 0 l) (m'.write 0 l) := by
  intro i hi
  simp [write, List.getElem?_eq_getElem hi]

theorem Memory.Agree.bytes {m m' : Memory} {n : ℕ} (h : Agree n m m') {offset k : ℕ}
    (hle : offset + k ≤ n) : m.bytes offset k = m'.bytes offset k := by
  unfold Memory.bytes
  congr 1
  ext1 i
  exact h _ (by omega)

theorem Memory.Agree.header {m m' : Memory} {n : ℕ} (h : Agree n m m') (hle : 12 ≤ n) :
    m.header = m'.header := by
  simp only [Memory.header, Memory.int, h.bytes (show 0 + 4 ≤ n by omega),
    h.bytes (show 4 + 4 ≤ n by omega), h.bytes (show 8 + 4 ≤ n by omega)]

theorem Memory.Agree.peer {m m' : Memory} {n : ℕ} (h : Agree n m m') {offset : ℕ}
    (hle : offset + sizeofPeer ≤ n) : m.peer offset = m'.peer offset := by
  have hsize : sizeofPeer = 80 := rfl
  simp only [Memory.peer, Memory.sockAddrIn, h.bytes (show offset + 32 ≤ n by omega),
    h.bytes (show offset + 32 + 2 ≤ n by omega), h.bytes (show offset + 32 + 2 + 2 ≤ n by omega),
    h.bytes (show offset + 32 + 4 + 4 ≤ n by omega),
    h.bytes (show offset + 32 + 8 + 8 ≤ n by omega), h.bytes (show offset + 48 + 32 ≤ n by omega)]

/-! ### `peer.c`

Both functions also return -1 on a `NULL` argument, which no caller passes. -/

def serializeRpcPeer (peer : Peer) : RPCPeer where
  peerId := peer.peerId
  peerAddr := peer.peerAddr
  peerKey := zeroBytes 32

def deserializeRpcPeer (peer : RPCPeer) : Peer where
  peerId := peer.peerId
  peerAddr := peer.peerAddr

@[simp] theorem deserialize_serializeRpcPeer (peer : Peer) :
    deserializeRpcPeer (serializeRpcPeer peer) = peer := rfl

def zeroRPCPeer : RPCPeer := serializeRpcPeer zeroPeer

/-! ### Accesses worth recording -/

/-- The arrays whose indexes come from outside, and the fields of a response
that a peer may not have sent. -/
inductive Field
  /-- `Buckets` -/
  | buckets
  /-- `values[]` of a `KeyValuePair` or an `RPCKeyValue` -/
  | values
  /-- `closest[]` of a FIND response -/
  | closest
  | packetSize | callType | foundKey | key | numValues | numClosest
  deriving DecidableEq, Repr

/-- Element `i` of a `K_VALUE`-sized array; `default` stands for whatever lies
behind the array. -/
def readSlot {α : Type} (a : Fin kValue → α) (default : α) (i : ℕ) : α :=
  if h : i < kValue then a ⟨i, h⟩ else default

/-- Store to element `i` of a `K_VALUE`-sized array; a store behind the array
leaves the array as it is. -/
def writeSlot {α : Type} (a : Fin kValue → α) (i : ℕ) (x : α) : Fin kValue → α :=
  if h : i < kValue then Function.update a ⟨i, h⟩ x else a

theorem readSlot_writeSlot {α : Type} (a : Fin kValue → α) (default x : α) (i j : ℕ) :
    readSlot (writeSlot a i x) default j =
      if j = i ∧ i < kValue then x else readSlot a default j := by
  unfold readSlot writeSlot
  by_cases hi : i < kValue
  · by_cases hji : j = i
    · subst hji
      simp [hi]
    · by_cases hj : j < kValue
      · simp [hi, hj, hji]
      · simp [hj, hji]
  · simp [hi]

end Kademlia.Model
