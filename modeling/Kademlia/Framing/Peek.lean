import Kademlia.Model.Network

/-!
Peeking at the first four bytes of a message.

`MSG_PEEK` consumes nothing, so every `recv` of the loop starts again at the
first byte of the stream, while its result is stored behind the bytes already
counted. The four bytes come out right exactly when each restart happens to
repeat what stands at its offset.
-/

namespace Kademlia.Framing

open Foundations Foundations.Traced Model

/-- A schedule that serves a call for `len` bytes to its end. -/
structure Serves (peeks : List PeekEvent) (len : ℕ) : Prop where
  no_failure : .failure ∉ peeks
  enough : len ≤ (peeks.map PeekEvent.size).sum

/-- Each `recv`, started `offset` bytes late, sees the bytes that stand there. -/
def RestartsAgree (stream : List UInt8) (len : ℕ) : ℕ → List PeekEvent → Prop
  | _, [] => True
  | offset, event :: peeks =>
      offset < len →
        stream.take (min event.size (len - offset)) =
            (stream.drop offset).take (min event.size (len - offset)) ∧
          RestartsAgree stream len (offset + min event.size (len - offset)) peeks

/-- The first four bytes are stored, and both sides dispatch by them. -/
structure PeeksHead (stream : List UInt8) (peeks : List PeekEvent) : Prop where
  stored : (recvAllPeek stream peeks 4).2 = stream.take 4
  connected : ∀ own stack node buf conn, conn.delivered = stream →
    ((handleConnected own stack node buf peeks conn).val.outcome.isRpc ↔
      rpcMagic.toList <+: stream)
  reply : isRpcReply (recvAllPeek stream peeks 4) = true ↔ rpcMagic.toList <+: stream

/-! ### The loop -/

theorem recvAllPeekLoop_done {stream stored : List UInt8} {len : ℕ} (h : len ≤ stored.length)
    (peeks : List PeekEvent) :
    recvAllPeekLoop stream len stored peeks = ((stored.length : ℤ), stored) := by
  have hnot : ¬ stored.length < len := by omega
  cases peeks with
  | nil => rfl
  | cons event peeks => simp [recvAllPeekLoop, hnot]

/-- One `recv` that does not fail, on a stream that has all the bytes wanted. -/
theorem recvAllPeekLoop_cons {stream stored : List UInt8} {len : ℕ} (hlen : len ≤ stream.length)
    (hlt : stored.length < len) {event : PeekEvent} (hevent : event ≠ .failure)
    (peeks : List PeekEvent) :
    recvAllPeekLoop stream len stored (event :: peeks) =
      recvAllPeekLoop stream len
        (stored ++ stream.take (min event.size (len - stored.length))) peeks := by
  cases event with
  | failure => exact absurd rfl hevent
  | interrupt => simp [recvAllPeekLoop, hlt, PeekEvent.size]
  | ready more =>
      have hne : (stream.take (min (more + 1) (len - stored.length))).isEmpty = false := by
        rw [List.isEmpty_eq_false_iff, ← List.length_pos_iff, List.length_take]
        omega
      simp only [recvAllPeekLoop, hlt, if_true, hne]
      rfl

theorem length_append_take {stream : List UInt8} {len : ℕ} (hlen : len ≤ stream.length)
    (stored : List UInt8) (n : ℕ) :
    (stored ++ stream.take (min n (len - stored.length))).length =
      stored.length + min n (len - stored.length) := by
  rw [List.length_append, List.length_take]
  omega

/-- Bytes once stored stay, and a served call stores as many as it was asked for. -/
theorem recvAllPeekLoop_extends {stream : List UInt8} {len : ℕ} (hlen : len ≤ stream.length)
    {peeks : List PeekEvent} (hpeeks : .failure ∉ peeks) (stored : List UInt8)
    (hle : stored.length ≤ len) (henough : len ≤ stored.length + (peeks.map PeekEvent.size).sum) :
    stored <+: (recvAllPeekLoop stream len stored peeks).2 ∧
      (recvAllPeekLoop stream len stored peeks).2.length = len ∧
      (recvAllPeekLoop stream len stored peeks).1 = len := by
  induction peeks generalizing stored with
  | nil =>
      have hdone : stored.length = len := le_antisymm hle (by simpa using henough)
      exact ⟨List.prefix_rfl, hdone, by simp [recvAllPeekLoop, hdone]⟩
  | cons event peeks ih =>
      rcases Nat.lt_or_ge stored.length len with hlt | hge
      · have hevent : event ≠ .failure := fun h => hpeeks (by simp [h])
        have hnext := length_append_take hlen stored event.size
        rw [List.map_cons, List.sum_cons] at henough
        obtain ⟨hstored, hrest⟩ := ih (fun h => hpeeks (by simp [h]))
          (stored ++ stream.take (min event.size (len - stored.length))) (by omega) (by omega)
        rw [recvAllPeekLoop_cons hlen hlt hevent]
        exact ⟨(List.prefix_append _ _).trans hstored, hrest⟩
      · rw [recvAllPeekLoop_done hge]
        have hdone : stored.length = len := by omega
        exact ⟨List.prefix_rfl, hdone, by rw [hdone]⟩

theorem take_add_eq_iff {stored stream : List UInt8} {n : ℕ}
    (hstored : stored = stream.take stored.length) :
    stored ++ stream.take n = stream.take (stored.length + n) ↔
      stream.take n = (stream.drop stored.length).take n := by
  rw [List.take_add, ← hstored, List.append_cancel_left_eq]

/-- The invariant is that the bytes stored so far are the first of the stream. -/
theorem recvAllPeekLoop_eq_take_iff {stream : List UInt8} {len : ℕ} (hlen : len ≤ stream.length)
    {peeks : List PeekEvent} (hpeeks : .failure ∉ peeks) (stored : List UInt8)
    (hle : stored.length ≤ len) (henough : len ≤ stored.length + (peeks.map PeekEvent.size).sum)
    (hstored : stored = stream.take stored.length) :
    (recvAllPeekLoop stream len stored peeks).2 = stream.take len ↔
      RestartsAgree stream len stored.length peeks := by
  induction peeks generalizing stored with
  | nil =>
      have hdone : stored.length = len := le_antisymm hle (by simpa using henough)
      simpa [recvAllPeekLoop, RestartsAgree, ← hdone] using hstored
  | cons event peeks ih =>
      rcases Nat.lt_or_ge stored.length len with hlt | hge
      · have hevent : event ≠ .failure := fun h => hpeeks (by simp [h])
        have hrest : .failure ∉ peeks := fun h => hpeeks (by simp [h])
        have hnext := length_append_take hlen stored event.size
        rw [List.map_cons, List.sum_cons] at henough
        rw [recvAllPeekLoop_cons hlen hlt hevent, RestartsAgree]
        simp only [hlt, forall_const]
        rw [← take_add_eq_iff hstored, ← hnext]
        generalize stored ++ stream.take (min event.size (len - stored.length)) = next at *
        constructor
        · intro hall
          obtain ⟨hkept, -⟩ := recvAllPeekLoop_extends hlen hrest next (by omega) (by omega)
          have hsame : next = stream.take next.length := by
            have htake := List.prefix_iff_eq_take.mp hkept
            rwa [hall, List.take_take, Nat.min_eq_left (by omega)] at htake
          exact ⟨hsame, (ih hrest next (by omega) (by omega) hsame).mp hall⟩
        · rintro ⟨hsame, hagree⟩
          exact (ih hrest next (by omega) (by omega) hsame).mpr hagree
      · have hdone : stored.length = len := by omega
        rw [recvAllPeekLoop_done hge, RestartsAgree]
        simpa [hdone] using hdone ▸ hstored

/-- Behind what is stored already comes the first byte of the stream again. -/
theorem recvAllPeekLoop_restarts (b : UInt8) (stream : List UInt8) (len : ℕ)
    (peeks : List PeekEvent) (stored : List UInt8) :
    (recvAllPeekLoop (b :: stream) len stored peeks).2 = stored ∨
      stored ++ [b] <+: (recvAllPeekLoop (b :: stream) len stored peeks).2 := by
  induction peeks generalizing stored with
  | nil => exact Or.inl rfl
  | cons event peeks ih =>
      by_cases hlt : stored.length < len
      · cases event with
        | interrupt =>
            simp only [recvAllPeekLoop, hlt, if_true]
            exact ih stored
        | failure =>
            simp only [recvAllPeekLoop, hlt, if_true]
            exact Or.inl trivial
        | ready more =>
            obtain ⟨n, hn⟩ : ∃ n, min (more + 1) (len - stored.length) = n + 1 :=
              ⟨min more (len - stored.length - 1), by omega⟩
            simp only [recvAllPeekLoop, hlt, if_true, hn, List.take_succ_cons, List.isEmpty_cons,
              Bool.false_eq_true, if_false]
            have hone : stored ++ [b] <+: stored ++ b :: stream.take n := by simp
            rcases ih (stored ++ b :: stream.take n) with hsame | hmore
            · rw [hsame]
              exact Or.inr hone
            · exact Or.inr ((hone.trans (List.prefix_append _ _)).trans hmore)
      · rw [recvAllPeekLoop_done (not_lt.mp hlt)]
        exact Or.inl rfl

/-- One `recv` stores the first bytes of the stream; the next one stores its first byte again. -/
theorem recvAllPeek_cases (b : UInt8) (stream : List UInt8) (peeks : List PeekEvent) (len : ℕ) :
    (recvAllPeek (b :: stream) peeks len).2 <+: b :: stream ∨
      ∃ n, n + 1 < len ∧
        b :: stream.take n ++ [b] <+: (recvAllPeek (b :: stream) peeks len).2 := by
  rw [recvAllPeek]
  rcases Nat.eq_zero_or_pos len with rfl | hpos
  · rw [recvAllPeekLoop_done (Nat.zero_le _)]
    exact Or.inl List.nil_prefix
  · induction peeks with
    | nil => exact Or.inl List.nil_prefix
    | cons event peeks ih =>
        cases event with
        | interrupt =>
            simp only [recvAllPeekLoop, List.length_nil, hpos, if_true]
            exact ih
        | failure =>
            simp only [recvAllPeekLoop, List.length_nil, hpos, if_true]
            exact Or.inl List.nil_prefix
        | ready more =>
            obtain ⟨n, hn⟩ : ∃ n, min (more + 1) (len - 0) = n + 1 :=
              ⟨min more (len - 1), by omega⟩
            simp only [recvAllPeekLoop, List.length_nil, hpos, if_true, hn, List.take_succ_cons,
              List.isEmpty_cons, Bool.false_eq_true, if_false, List.nil_append]
            have hfirst : b :: stream.take n <+: b :: stream :=
              List.take_prefix (n + 1) (b :: stream)
            by_cases hdone : len ≤ (b :: stream.take n).length
            · rw [recvAllPeekLoop_done hdone]
              exact Or.inl hfirst
            · rcases recvAllPeekLoop_restarts b stream len peeks (b :: stream.take n) with
                hsame | hmore
              · rw [hsame]
                exact Or.inl hfirst
              · rw [List.length_cons] at hdone
                refine Or.inr ⟨(stream.take n).length, by omega, ?_⟩
                rwa [List.length_take, ← List.take_take, List.take_length]

/-! ### Dispatch -/

theorem peeksMagic_iff {stored : List UInt8} (h : stored.length = 4) :
    peeksMagic stored = true ↔ stored = rpcMagic.toList := by
  simp [peeksMagic, h]

theorem take_eq_magic_iff {stream : List UInt8} :
    stream.take 4 = rpcMagic.toList ↔ rpcMagic.toList <+: stream := by
  rw [List.prefix_iff_eq_take]
  exact eq_comm

/-- The magic is never seen where the stream does not begin with it: its first byte, which
comes again whenever a `recv` restarts, is in it only once. -/
theorem magic_of_peeksMagic {stream : List UInt8} {peeks : List PeekEvent}
    (h : peeksMagic (recvAllPeek stream peeks 4).2 = true) : rpcMagic.toList <+: stream := by
  have hpadded : (recvAllPeek stream peeks 4).2 ++
      List.replicate (4 - (recvAllPeek stream peeks 4).2.length) 0 = rpcMagic.toList := by
    simpa [peeksMagic] using h
  cases stream with
  | nil =>
      have hnone : (recvAllPeek [] peeks 4).2 = [] := by
        clear h hpadded
        rw [recvAllPeek]
        induction peeks with
        | nil => rfl
        | cons event peeks ih =>
            cases event with
            | interrupt => exact ih
            | failure => rfl
            | ready more => simp [recvAllPeekLoop]
      rw [hnone] at hpadded
      exact absurd hpadded (by decide)
  | cons b stream =>
      have hcases := recvAllPeek_cases b stream peeks 4
      generalize (recvAllPeek (b :: stream) peeks 4).2 = stored at hpadded hcases
      have hprefix : stored <+: rpcMagic.toList := hpadded ▸ List.prefix_append _ _
      rcases hcases with hstream | ⟨n, -, htwice⟩
      · have hall : 4 - stored.length = 0 := by
          by_contra hshort
          have hzero : (0 : UInt8) ∈ rpcMagic.toList := by
            rw [← hpadded]
            exact List.mem_append_right _ (List.mem_replicate.mpr ⟨hshort, rfl⟩)
          exact absurd hzero (by decide)
        rw [hall, List.replicate_zero, List.append_nil] at hpadded
        exact hpadded ▸ hstream
      · obtain ⟨rest, hrest⟩ := htwice.trans hprefix
        generalize stream.take n = between at hrest
        have hmagic : rpcMagic.toList = [75, 68, 77, 84] := rfl
        rw [hmagic] at hrest
        rcases between with _ | ⟨x, _ | ⟨y, _ | ⟨z, between⟩⟩⟩ <;> simp at hrest <;>
          obtain ⟨rfl, hrest⟩ := hrest <;> simp at hrest

theorem magic_of_isRpcRequest {stream : List UInt8} {peeks : List PeekEvent}
    (h : isRpcRequest (recvAllPeek stream peeks 4) = true) : rpcMagic.toList <+: stream := by
  rw [isRpcRequest, decide_eq_true_eq] at h
  exact magic_of_peeksMagic h.2

theorem magic_of_isRpcReply {stream : List UInt8} {peeks : List PeekEvent}
    (h : isRpcReply (recvAllPeek stream peeks 4) = true) : rpcMagic.toList <+: stream := by
  rw [isRpcReply, decide_eq_true_eq, not_or, Bool.not_eq_false] at h
  exact magic_of_peeksMagic h.2

/-- What is taken for an RPC packet is fetched. -/
theorem handleConnected_of_rpc {peeks : List PeekEvent} {conn : Conn}
    (h : isRpcRequest (recvAllPeek conn.delivered peeks 4) = true) (own : Option HashID)
    (stack : KeyValuePair) (node : Node) (buf : Memory) :
    handleConnected own stack node buf peeks conn =
      serveRpc own stack node buf (.stream conn) := by
  have hfour := h
  rw [isRpcRequest, decide_eq_true_eq] at hfour
  rw [handleConnected, hfour.1, if_neg (by decide), if_pos h]

/-- Anything else is left to the HTTP side, or the connection is closed. -/
theorem handleConnected_other {peeks : List PeekEvent} {conn : Conn}
    (h : ¬ isRpcRequest (recvAllPeek conn.delivered peeks 4) = true) (own : Option HashID)
    (stack : KeyValuePair) (node : Node) (buf : Memory) :
    handleConnected own stack node buf peeks conn = pure ⟨node, buf, .stream conn, .closed⟩ ∨
      handleConnected own stack node buf peeks conn = pure ⟨node, buf, .stream conn, .http⟩ := by
  by_cases hnone : (recvAllPeek conn.delivered peeks 4).1 ≤ 0
  · exact Or.inl (if_pos hnone)
  · exact Or.inr ((if_neg hnone).trans (if_neg h))

theorem serveRpc_isRpc (own : Option HashID) (stack : KeyValuePair) (node : Node) (buf : Memory)
    (sock : Socket) : (serveRpc own stack node buf sock).val.outcome.isRpc := by
  simp only [serveRpc, val_bind]
  split <;> exact trivial

theorem handleConnected_isRpc_iff {peeks : List PeekEvent} {conn : Conn}
    (h : (recvAllPeek conn.delivered peeks 4).1 = 4) (own : Option HashID)
    (stack : KeyValuePair) (node : Node) (buf : Memory) :
    (handleConnected own stack node buf peeks conn).val.outcome.isRpc ↔
      peeksMagic (recvAllPeek conn.delivered peeks 4).2 = true := by
  by_cases hmagic : peeksMagic (recvAllPeek conn.delivered peeks 4).2 = true
  · simp [handleConnected, isRpcRequest, h, hmagic, serveRpc_isRpc]
  · simp [handleConnected, isRpcRequest, h, hmagic, Outcome.isRpc]

/-- The dispatch is right exactly when every restarted `recv` agrees with the
stream at its offset; one `recv` that has all four bytes always does. -/
theorem peeksHead_iff {stream : List UInt8} (hlen : 4 ≤ stream.length) {peeks : List PeekEvent}
    (hpeeks : Serves peeks 4) :
    PeeksHead stream peeks ↔ RestartsAgree stream 4 0 peeks := by
  have hserved : [] <+: (recvAllPeek stream peeks 4).2 ∧
      (recvAllPeek stream peeks 4).2.length = 4 ∧ (recvAllPeek stream peeks 4).1 = 4 :=
    recvAllPeekLoop_extends hlen hpeeks.no_failure [] (by simp) (by simpa using hpeeks.enough)
  obtain ⟨-, hstored, hret⟩ := hserved
  have heq := recvAllPeekLoop_eq_take_iff hlen hpeeks.no_failure []
    (by simp) (by simpa using hpeeks.enough) (by simp)
  constructor
  · intro h
    exact heq.mp h.stored
  · intro h
    have hhead : (recvAllPeek stream peeks 4).2 = stream.take 4 := heq.mpr h
    have hmagic : peeksMagic (recvAllPeek stream peeks 4).2 = true ↔
        rpcMagic.toList <+: stream := by
      rw [peeksMagic_iff hstored, hhead, take_eq_magic_iff]
    refine ⟨hhead, ?_, ?_⟩
    · rintro own stack node buf conn rfl
      rw [handleConnected_isRpc_iff hret, hmagic]
    · rw [← hmagic]
      simp [isRpcReply, hret]

/-- An RPC packet that is peeked whole, after an interruption. -/
theorem peeksHead_iff_interrupted :
    PeeksHead [75, 68, 77, 84, 12] [.interrupt, .ready 3] ↔
      RestartsAgree [75, 68, 77, 84, 12] 4 0 [.interrupt, .ready 3] :=
  peeksHead_iff (by decide) ⟨by decide, by decide⟩

/-- `"KDMT"` that arrives as one byte and the rest is read as `"KKDM"`. -/
theorem splitMagic_not_peeksHead :
    Serves [.ready 0, .ready 2] 4 ∧
      (recvAllPeek [75, 68, 77, 84, 12] [.ready 0, .ready 2] 4).2 = [75, 75, 68, 77] ∧
      ¬ PeeksHead [75, 68, 77, 84, 12] [.ready 0, .ready 2] := by
  refine ⟨⟨by decide, by decide⟩, by decide, ?_⟩
  intro h
  have hstored := h.stored
  exact absurd hstored (by decide)

end Kademlia.Framing
