import Kademlia.Model.Network

/-!
The broadcast socket.

`handle_incoming` peeks at the first datagram and then leaves through one of
several exits. Each of them takes the datagram out of the queue, but for the
one for a datagram of less than four bytes. Such a datagram stays in front, and
whatever is behind it is never heard.
-/

namespace Kademlia.Framing

open Foundations Foundations.Traced Model

variable {own : Option HashID}

def listen (own : Option HashID) (listener : Listener) (calls : List IncomingCall) : Listener :=
  calls.foldl (fun listener call => (handleIncoming own listener call).val) listener

/-- The packet that a datagram makes in an empty buffer. -/
def packetOf (bytes : List UInt8) : Memory := Memory.write (fun _ => 0) 0 bytes

def IsBroadcast (bytes : List UInt8) : Prop :=
  bytes.length = sizeofBroadcast ∧
    (packetOf bytes).header = rpcHeader .broadcast sizeofBroadcast

/-- Each call takes the first datagram out of the queue, and so a BROADCAST that
is not our own is heard in the call that its position says. -/
structure Consumes (own : Option HashID) (listener : Listener) (calls : List IncomingCall) :
    Prop where
  queue_eq : ∀ n ≤ calls.length,
    (listen own listener (calls.take n)).queue = listener.queue.drop n
  heard : ∀ (p : ℕ) (datagram : Datagram) (call : IncomingCall),
    listener.queue[p]? = some datagram → calls[p]? = some call →
    IsBroadcast datagram.bytes → call.primaryIp ≠ some datagram.sender →
    (listen own listener (calls.take (p + 1))).node =
      (handleBroadcast own (listen own listener (calls.take p)).node
        (packetOf datagram.bytes).rpcBroadcast).val.node

/-- The exits that take the datagram out of the queue. -/
def Taken (call : IncomingCall) (datagram : Datagram) : Prop :=
  4 ≤ datagram.bytes.length ∨ call.primaryIp = some datagram.sender

/-! ### One call -/

theorem serveRpc_dgram (stack : KeyValuePair) (node : Node) (buf : Memory)
    (datagram : List UInt8) (queue : List (List UInt8)) :
    (serveRpc own stack node buf (.dgram (datagram :: queue))).val.sock = .dgram queue := by
  have hsock : (getDatagramRequest (datagram :: queue) buf 0).val.sock = .dgram queue := by
    simp only [getDatagramRequest]
    split
    · rfl
    · simp only [val_bind]
      split <;> rfl
  simp only [serveRpc, getRpcRequest, val_bind]
  split
  · exact hsock
  · exact hsock

theorem handleIncoming_taken {listener : Listener} {call : IncomingCall} {datagram : Datagram}
    {queue : List Datagram} (hqueue : listener.queue = datagram :: queue)
    (h : Taken call datagram) : (handleIncoming own listener call).val.queue = queue := by
  unfold handleIncoming
  rw [hqueue]
  dsimp only
  split
  · rfl
  · next hsender =>
      rw [if_neg (not_lt.mpr (h.resolve_right hsender))]
      split
      · rfl
      · rw [val_bind, val_pure, List.map_cons, serveRpc_dgram]
        simp [stillQueued]

variable (own) in
theorem handleIncoming_left {listener : Listener} {call : IncomingCall} {datagram : Datagram}
    {queue : List Datagram} (hqueue : listener.queue = datagram :: queue)
    (h : ¬ Taken call datagram) : (handleIncoming own listener call).val = listener := by
  obtain ⟨hshort, hsender⟩ := not_or.mp h
  unfold handleIncoming
  rw [hqueue]
  dsimp only
  rw [if_neg hsender, if_pos (not_le.mp hshort), val_pure]

theorem handleIncoming_nil {listener : Listener} (hqueue : listener.queue = [])
    (call : IncomingCall) : (handleIncoming own listener call).val = listener := by
  unfold handleIncoming
  rw [hqueue]
  rfl

theorem IsBroadcast.agree {bytes : List UInt8} (h : IsBroadcast bytes) (buf : Memory) :
    Memory.Agree sizeofBroadcast (buf.write 0 bytes) (packetOf bytes) := by
  rw [← h.1]
  exact Memory.agree_write _ _ _

theorem IsBroadcast.take_four {bytes : List UInt8} (h : IsBroadcast bytes) :
    bytes.take 4 = rpcMagic.toList := by
  have hlen : bytes.length = 92 := h.1
  have hmagic : (packetOf bytes).bytes 0 4 = rpcMagic :=
    congrArg RPCMessageHeader.magicNumber h.2
  rw [← hmagic, ← Nat.zero_add 0, packetOf, Memory.toList_bytes_write _ 0 (by omega),
    List.drop_zero]

theorem IsBroadcast.passesSizeCheck {bytes : List UInt8} (h : IsBroadcast bytes)
    {buf : Memory} (hbuf : buf.header = (packetOf bytes).header) :
    passesSizeCheck buf = some .broadcast := by
  unfold Model.passesSizeCheck
  rw [hbuf, h.2]
  rfl

theorem IsBroadcast.getDatagramRequest {bytes : List UInt8} (h : IsBroadcast bytes)
    (queue : List (List UInt8)) (buf : Memory) :
    (getDatagramRequest (bytes :: queue) buf 0).val.ret = 0 ∧
      (getDatagramRequest (bytes :: queue) buf 0).val.buf = buf.write 0 bytes := by
  have hlen : bytes.length = 92 := h.1
  have htake : bytes.take maxRpcPacketSize = bytes :=
    List.take_of_length_le (hlen.trans_le (by decide))
  have hheader : (buf.write 0 bytes).header = rpcHeader .broadcast sizeofBroadcast :=
    ((h.agree buf).header (by decide)).trans h.2
  have hsize : (rpcHeader .broadcast sizeofBroadcast).packetSize = 92 := rfl
  simp only [Model.getDatagramRequest, htake, hheader, hsize]
  rw [if_neg (by omega), val_bind, if_neg]
  · exact ⟨rfl, rfl⟩
  · rw [hlen]
    decide

theorem handleIncoming_broadcast {listener : Listener} {call : IncomingCall}
    {datagram : Datagram} {queue : List Datagram} (hqueue : listener.queue = datagram :: queue)
    (h : IsBroadcast datagram.bytes) (hsender : call.primaryIp ≠ some datagram.sender) :
    (handleIncoming own listener call).val.node =
      (handleBroadcast own listener.node (packetOf datagram.bytes).rpcBroadcast).val.node := by
  have hlen : datagram.bytes.length = 92 := h.1
  obtain ⟨hret, hbuf⟩ :=
    h.getDatagramRequest (queue.map Datagram.bytes) listener.buf
  have hagree := h.agree listener.buf
  have hheader := hagree.header (by decide)
  have hpacket : (listener.buf.write 0 datagram.bytes).rpcBroadcast =
      (packetOf datagram.bytes).rpcBroadcast := by
    rw [Memory.rpcBroadcast, Memory.rpcBroadcast, hheader, hagree.peer (by decide)]
  unfold handleIncoming
  rw [hqueue]
  dsimp only
  rw [if_neg hsender, if_neg (by omega), if_neg (not_not.mpr h.take_four)]
  simp only [val_bind, val_pure, List.map_cons, serveRpc, getRpcRequest, hret, if_true, hbuf,
    handleRpcRequest, h.passesSizeCheck hheader, hpacket]

/-! ### Runs -/

theorem listen_take_succ (listener : Listener) {calls : List IncomingCall} {p : ℕ}
    {call : IncomingCall} (h : calls[p]? = some call) :
    listen own listener (calls.take (p + 1)) =
      (handleIncoming own (listen own listener (calls.take p)) call).val := by
  rw [List.take_add_one, h, Option.toList_some, listen, List.foldl_append]
  rfl

theorem drop_of_getElem? {α : Type} {l : List α} {p : ℕ} {a : α} (h : l[p]? = some a) :
    l.drop p = a :: l.drop (p + 1) := by
  obtain ⟨hp, rfl⟩ := List.getElem?_eq_some_iff.mp h
  exact List.drop_eq_getElem_cons hp

variable {listener : Listener} {calls : List IncomingCall}

variable (own) in
theorem listen_queue
    (h : ∀ (p : ℕ) (datagram : Datagram) (call : IncomingCall),
      listener.queue[p]? = some datagram → calls[p]? = some call → Taken call datagram)
    (n : ℕ) (hn : n ≤ calls.length) :
    (listen own listener (calls.take n)).queue = listener.queue.drop n := by
  induction n with
  | zero => rfl
  | succ n ih =>
      have hcall : calls[n]? = some calls[n] := List.getElem?_eq_getElem hn
      rw [listen_take_succ listener hcall]
      have hbefore := ih (by omega)
      cases hdatagram : listener.queue[n]? with
      | some datagram =>
          rw [drop_of_getElem? hdatagram] at hbefore
          exact handleIncoming_taken hbefore (h n datagram _ hdatagram hcall)
      | none =>
          have hle : listener.queue.length ≤ n := List.getElem?_eq_none_iff.mp hdatagram
          rw [List.drop_eq_nil_of_le hle] at hbefore
          rw [handleIncoming_nil hbefore, hbefore, List.drop_eq_nil_of_le (by omega)]

theorem listen_blocked {datagram : Datagram} {queue : List Datagram}
    (hqueue : listener.queue = datagram :: queue) (h : ∀ call ∈ calls, ¬ Taken call datagram) :
    listen own listener calls = listener := by
  induction calls with
  | nil => rfl
  | cons call calls ih =>
      have hfirst := handleIncoming_left own hqueue (h call List.mem_cons_self)
      rw [listen, List.foldl_cons, hfirst]
      exact ih fun call' hcall => h call' (List.mem_cons_of_mem call hcall)

/-- Every datagram is consumed exactly when none that is not our own has less
than four bytes. -/
theorem consumes_iff (own : Option HashID) (listener : Listener) (calls : List IncomingCall) :
    Consumes own listener calls ↔
      ∀ (p : ℕ) (datagram : Datagram) (call : IncomingCall),
        listener.queue[p]? = some datagram → calls[p]? = some call →
        4 ≤ datagram.bytes.length ∨ call.primaryIp = some datagram.sender := by
  constructor
  · intro h p datagram call hdatagram hcall
    by_contra hleft
    have hp : p < calls.length := (List.getElem?_eq_some_iff.mp hcall).1
    have hbefore := h.queue_eq p hp.le
    have hafter := h.queue_eq (p + 1) hp
    rw [drop_of_getElem? hdatagram] at hbefore
    rw [listen_take_succ listener hcall, handleIncoming_left own hbefore hleft, hbefore] at hafter
    exact absurd hafter (List.cons_ne_self datagram _)
  · intro h
    refine ⟨listen_queue own h, ?_⟩
    intro p datagram call hdatagram hcall hbroadcast hsender
    have hp : p < calls.length := (List.getElem?_eq_some_iff.mp hcall).1
    have hbefore := listen_queue own h p hp.le
    rw [drop_of_getElem? hdatagram] at hbefore
    rw [listen_take_succ listener hcall]
    exact handleIncoming_broadcast hbefore hbroadcast hsender

def oneByteDatagram : Datagram := ⟨zeroBytes 4, [75]⟩

theorem oneByteDatagram_not_consumes :
    ¬ Consumes none ⟨Node.initial, fun _ => 0, [oneByteDatagram]⟩
      [⟨none, ⟨zeroBytes 32, 0, fun _ => zeroPeer⟩⟩] := by
  intro h
  have hqueue := h.queue_eq 1 le_rfl
  rw [listen_blocked rfl] at hqueue
  · exact List.cons_ne_nil _ _ hqueue
  · simp [Taken, oneByteDatagram]

end Kademlia.Framing
