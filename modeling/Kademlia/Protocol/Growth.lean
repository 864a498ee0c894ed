import Kademlia.Buckets.Table
import Kademlia.Lookup.Sweeps
import Kademlia.Protocol.Calls
import Kademlia.Upload.Agreement

/-!
What a node has, and keeps.

Tables change by `update_bucket_peers` alone, in a handler or in the loops of a lookup,
and storages by puts. Neither removes anything, and every table stays one that its
node's id puts in order.
-/

namespace Kademlia.Protocol

open Foundations Foundations.Source Foundations.Traced Model Framing Buckets Lookup

/-! ### Updates of a table -/

section Updates

variable {P : Model.Buckets → Prop} {own : Option HashID} {s : LookupState} {q : Search}

/-- `P` survives the updates of the node `own`. -/
def KeptByUpdates (P : Model.Buckets → Prop) (own : Option HashID) : Prop :=
  ∀ buckets peer, P buckets → P (updateBucketPeers own buckets peer).val

theorem hearPeers_buckets (hkept : KeptByUpdates P own) (h : P s.buckets)
    (closest : ℕ → RPCPeer) (numClosest : ℕ) :
    P (hearPeers own closest numClosest s).val.buckets := by
  simp only [hearPeers, val_bind, val_foldlM]
  induction numClosest with
  | zero => exact h
  | succ n ih =>
      rw [List.range_succ, List.foldl_append]
      have hupdate := hkept _ (deserializeRpcPeer (closest n)) ih
      simp only [List.foldl_cons, List.foldl_nil, val_bind, hearPeer]
      split <;> exact hupdate

theorem handleReply_buckets (hkept : KeptByUpdates P q.own) (h : P s.buckets)
    (kvp : KeyValuePair) (buf : Memory) : P (handleReply q kvp buf s).val.buckets := by
  cases hfind : q.findValue with
  | false =>
      rw [handleReply_findNode hfind]
      split
      · exact hearPeers_buckets hkept h _ _
      · exact h
  | true =>
      rw [handleReply_findValue hfind]
      split
      · split
        · rw [takeValue_val]
          exact h
        · exact hearPeers_buckets hkept h _ _
      · exact h

theorem contactPeer_buckets (hkept : KeptByUpdates P q.own) (h : P s.buckets)
    (session : Option Session) (p : Peer) : P (contactPeer q session p s).val.buckets := by
  cases session with
  | none => exact h
  | some session =>
      simp only [contactPeer, val_bind]
      cases (receiveReply session).val with
      | none => exact h
      | some buf =>
          have hsent : P ({ s with requests := s.requests ++ [p] } : LookupState).buckets := h
          exact handleReply_buckets hkept hsent session.kvp buf

/-- A lookup changes the table by updates only, whatever it is answered. -/
theorem step_buckets (hkept : KeptByUpdates P q.own) (h : P s.buckets) (net : Network) :
    P (s.step q net).val.buckets := by
  unfold LookupState.step
  cases s.position with
  | outer =>
      dsimp only
      split <;> exact h
  | inner i =>
      dsimp only
      split
      · split
        · next p hp hnew =>
            have ht : P (contactPeer q (net s.contacts.length p) p (s.mark i)).val.buckets :=
              contactPeer_buckets hkept (s := s.mark i) h _ p
            rw [val_bind]
            split <;> exact ht
        · exact h
      · exact h
  | exit => exact h

theorem handleRpcRequest_buckets (hkept : KeptByUpdates P own) {node : Node} (h : P node.buckets)
    (stack : KeyValuePair) (contents : Memory) :
    P (handleRpcRequest own stack node contents).val.node.buckets := by
  unfold handleRpcRequest
  split
  · exact h
  · exact h
  · obtain ⟨r, hval, -⟩ := handleFindNode_answer own node contents.rpcFind
    rw [hval]
    exact h
  · cases hget : storageGetValue node.storage contents.rpcFind.key with
    | none =>
        obtain ⟨r, hval, -⟩ := handleFindValue_missing _ hget own
        rw [hval]
        exact h
    | some kvp =>
        obtain ⟨r, hval, -⟩ := handleFindValue_found _ hget own
        rw [hval]
        exact h
  · exact hkept _ _ h
  · exact h

end Updates

/-- Whatever bytes come in, a node is left as it is or as one request leaves it. -/
theorem serveRpc_node (own : Option HashID) (stack : KeyValuePair) (node : Node) (buf : Memory)
    (sock : Socket) : (serveRpc own stack node buf sock).val.node = node ∨
      ∃ contents, (serveRpc own stack node buf sock).val.node =
        (handleRpcRequest own stack node contents).val.node := by
  rw [serveRpc, val_bind]
  split
  · exact Or.inr ⟨_, rfl⟩
  · exact Or.inl rfl

theorem handleConnected_node (own : Option HashID) (stack : KeyValuePair) (node : Node)
    (buf : Memory) (peeks : List PeekEvent) (conn : Conn) :
    (handleConnected own stack node buf peeks conn).val.node = node ∨
      ∃ contents, (handleConnected own stack node buf peeks conn).val.node =
        (handleRpcRequest own stack node contents).val.node := by
  by_cases hpeek : isRpcRequest (recvAllPeek (delivered conn) peeks 4) = true
  · rw [handleConnected_of_rpc hpeek]
    exact serveRpc_node own stack node buf (.stream conn)
  · rcases handleConnected_other hpeek own stack node buf with hother | hother <;> rw [hother] <;>
      exact Or.inl rfl

theorem handleIncoming_node (own : Option HashID) (node : Node) (buf : Memory)
    (queue : List Datagram) (call : IncomingCall) :
    (handleIncoming own ⟨node, buf, queue⟩ call).val.node = node ∨
      ∃ contents, (handleIncoming own ⟨node, buf, queue⟩ call).val.node =
        (handleRpcRequest own call.stack node contents).val.node := by
  cases queue with
  | nil => exact Or.inl rfl
  | cons datagram queue =>
      have hserved := serveRpc_node own call.stack node buf
        (.dgram ((datagram :: queue).map Datagram.bytes))
      simp only [handleIncoming]
      split_ifs
      · exact Or.inl rfl
      · exact Or.inl rfl
      · exact Or.inl rfl
      · exact hserved

/-! ### One node -/

theorem start_buckets (q : Search) (buckets : Model.Buckets) (entry : Option KeyValuePair) :
    (RunningLookup.start q buckets entry).val.vars.buckets = buckets := by
  rw [RunningLookup.start, val_bind, val_pure, start_frame]
  rfl

/-- What a step can do to one node; `self` are the ids that it may find out as its own. -/
inductive Moves (self : Option HashID → Prop) : Participant → Participant → Prop
  | stay (party : Participant) : Moves self party party
  | handle {own : Option HashID} (hself : self own) (stack : KeyValuePair) (node : Node)
      (contents : Memory) :
      Moves self ⟨node, none⟩ ⟨(handleRpcRequest own stack node contents).val.node, none⟩
  | start {q : Search} (hself : self q.own) {node : Node} {storage : Model.Storage}
      (hput : storage = node.storage ∨ ∃ kv, storage = storagePutValue node.storage kv)
      (entry : Option KeyValuePair) :
      Moves self ⟨node, none⟩
        ⟨{ node with storage := storage }, some (RunningLookup.start q node.buckets entry).val⟩
  | look (node : Node) (l : RunningLookup) (net : Network) :
      Moves self ⟨node, some l⟩ ⟨node, some { l with vars := (l.vars.step l.q net).val }⟩
  | finish (node : Node) (l : RunningLookup) :
      Moves self ⟨node, some l⟩ ⟨{ node with buckets := l.vars.buckets }, none⟩

variable {N : Type} [DecidableEq N] {describes : N → Option HashID → Option SockAddrIn → Prop}
  {s s' : System N}

theorem Participant.eq_of_lookup {party : Participant} {lookup : Option RunningLookup}
    (h : party.lookup = lookup) : party = ⟨party.node, lookup⟩ := by
  rw [← h]

theorem moves_set {self : N → Option HashID → Prop} {n : N} {party : Participant}
    (h : Moves (self n) (s.parties n) party) (m : N) :
    Moves (self m) (s.parties m) ((s.set n party).parties m) := by
  by_cases hm : m = n
  · subst hm
    simpa [System.set] using h
  · simpa [System.set, hm] using Moves.stay (s.parties m)

theorem Moves.handled {self : Option HashID → Prop} {own : Option HashID} (hself : self own)
    {stack : KeyValuePair} {node node' : Node} (h : node' = node ∨
      ∃ contents, node' = (handleRpcRequest own stack node contents).val.node) :
    Moves self ⟨node, none⟩ ⟨node', none⟩ := by
  rcases h with rfl | ⟨contents, rfl⟩
  · exact .stay _
  · exact .handle hself stack node contents

def OwnIds (describes : N → Option HashID → Option SockAddrIn → Prop) (n : N)
    (own : Option HashID) : Prop :=
  ∃ primary, describes n own primary

theorem acts_moves {act : Traced Field (System N)} (h : Acts describes s act) (m : N) :
    Moves (OwnIds describes m) (s.parties m) (act.val.parties m) := by
  cases h with
  | announce => exact .stay _
  | ask => exact .stay _
  | @connected n own primary stack buf peeks conn hself hidle _ =>
      have hmove : Moves (OwnIds describes n) ⟨(s.parties n).node, none⟩ ⟨_, none⟩ :=
        .handled ⟨primary, hself⟩
          (handleConnected_node own stack (s.parties n).node buf peeks conn)
      rw [← Participant.eq_of_lookup hidle] at hmove
      exact moves_set hmove m
  | @incoming n own primary call buf queue hself hidle _ =>
      have hmove : Moves (OwnIds describes n) ⟨(s.parties n).node, none⟩ ⟨_, none⟩ :=
        .handled ⟨primary, hself⟩ (handleIncoming_node own (s.parties n).node buf queue call)
      rw [← Participant.eq_of_lookup hidle] at hmove
      exact moves_set hmove m
  | @upload n own primary fileHash hself hidle =>
      set kv := uploadEntry fileHash (createOwnPeer own primary)
      have hmove : Moves (OwnIds describes n) ⟨(s.parties n).node, none⟩
          ⟨{ (s.parties n).node with storage := storagePutValue (s.parties n).node.storage kv },
            some (RunningLookup.start (fileSearch own fileHash false) (s.parties n).node.buckets
              (some kv)).val⟩ :=
        .start ⟨primary, hself⟩ (Or.inr ⟨kv, rfl⟩) _
      rw [← Participant.eq_of_lookup hidle] at hmove
      exact moves_set hmove m
  | @download n ownId primary fileHash hself hidle _ =>
      have hmove : Moves (OwnIds describes n) ⟨(s.parties n).node, none⟩
          ⟨(s.parties n).node, some (RunningLookup.start (fileSearch (some ownId) fileHash true)
            (s.parties n).node.buckets none).val⟩ :=
        .start ⟨primary, hself⟩ (Or.inl rfl) none
      rw [← Participant.eq_of_lookup hidle] at hmove
      exact moves_set hmove m
  | @look n l session hlookup _ =>
      have hmove : Moves (OwnIds describes n) ⟨(s.parties n).node, some l⟩
          ⟨(s.parties n).node,
            some { l with vars := (l.vars.step l.q fun _ _ => session).val }⟩ :=
        .look (s.parties n).node l _
      rw [← Participant.eq_of_lookup hlookup] at hmove
      exact moves_set hmove m
  | @finish n l _ _ hlookup _ =>
      have hmove : Moves (OwnIds describes n) ⟨(s.parties n).node, some l⟩
          ⟨{ (s.parties n).node with buckets := l.vars.buckets }, none⟩ :=
        .finish (s.parties n).node l
      rw [← Participant.eq_of_lookup hlookup] at hmove
      exact moves_set hmove m

/-! ### Nothing is lost -/

/-- The table of a node; a lookup works on it as well. -/
def table (party : Participant) : Model.Buckets :=
  party.lookup.elim party.node.buckets fun l => l.vars.buckets

/-- What is in a bucket stays there, and so do the entries. -/
structure Grows (party party' : Participant) : Prop where
  buckets : ∀ i, (table party i).peers <:+ (table party' i).peers
  entries : ∀ key kv, party.node.storage key = some kv → party'.node.storage key = some kv

theorem Grows.refl (party : Participant) : Grows party party :=
  ⟨fun _ => List.suffix_rfl, fun _ _ h => h⟩

theorem Grows.trans {p p' p'' : Participant} (h : Grows p p') (h' : Grows p' p'') :
    Grows p p'' :=
  ⟨fun i => (h.buckets i).trans (h'.buckets i), fun key kv hkv =>
    h'.entries key kv (h.entries key kv hkv)⟩

theorem kept_suffix (own : Option HashID) (buckets : Model.Buckets) :
    KeptByUpdates (fun buckets' => ∀ i, (buckets i).peers <:+ (buckets' i).peers) own := by
  intro buckets' peer h i
  cases own with
  | none => exact h i
  | some ownId => exact (h i).trans (updateBucketPeers_suffix ownId buckets' peer i)

theorem storagePutValue_keeps {storage : Model.Storage} {key : HashID} {kv : KeyValuePair}
    (h : storage key = some kv) (value : KeyValuePair) :
    storagePutValue storage value key = some kv := by
  rw [storagePutValue_apply, h, Option.some_or]

theorem Moves.grows {self : Option HashID → Prop} {party party' : Participant}
    (h : Moves self party party') : Grows party party' := by
  cases h with
  | stay => exact Grows.refl party
  | handle _ stack node contents =>
      refine ⟨?_, fun key kv hkv => ?_⟩
      · exact handleRpcRequest_buckets (kept_suffix _ node.buckets) (fun i => List.suffix_rfl) stack
          contents
      · exact Upload.step_storage_of_some _ hkv (.packet stack contents)
  | start _ hput entry =>
      refine ⟨fun i => ?_, fun key kv hkv => ?_⟩
      · simp only [table, Option.elim_none, Option.elim_some, start_buckets]
        exact List.suffix_rfl
      · rcases hput with rfl | ⟨value, rfl⟩
        · exact hkv
        · exact storagePutValue_keeps hkv value
  | look node l net =>
      refine ⟨?_, fun key kv hkv => hkv⟩
      exact step_buckets (kept_suffix l.q.own l.vars.buckets) (fun i => List.suffix_rfl) net
  | finish node l => exact ⟨fun i => List.suffix_rfl, fun key kv hkv => hkv⟩

theorem grows_of_run (h : Relation.ReflTransGen (Steps describes) s s') (m : N) :
    Grows (s.parties m) (s'.parties m) := by
  induction h with
  | refl => exact Grows.refl _
  | tail _ hstep ih =>
      obtain ⟨act, hacts, -, rfl⟩ := hstep
      exact ih.trans (acts_moves hacts m).grows

/-- The table suits the id of the node, and so does the id under which it looks for peers. -/
structure InOrder (ownId : HashID) (party : Participant) : Prop where
  own : ∀ l, party.lookup = some l → l.q.own = none ∨ l.q.own = some ownId
  table : ∀ i : Fin bucketCount, WellFormed ownId i (table party i)

theorem kept_wellFormed {own : Option HashID} {ownId : HashID}
    (hown : own = none ∨ own = some ownId) :
    KeptByUpdates (fun buckets => ∀ i : Fin bucketCount, WellFormed ownId i (buckets i)) own := by
  intro buckets peer h
  rcases hown with rfl | rfl
  · exact h
  · exact updateBucketPeers_wellFormed h peer

theorem Moves.inOrder {self : Option HashID → Prop} {ownId : HashID}
    (hself : ∀ own, self own → own = none ∨ own = some ownId) {party party' : Participant}
    (h : Moves self party party') (hparty : InOrder ownId party) : InOrder ownId party' := by
  cases h with
  | stay => exact hparty
  | handle hown stack node contents =>
      refine ⟨fun l hl => (by cases hl), ?_⟩
      exact handleRpcRequest_buckets (kept_wellFormed (hself _ hown)) hparty.table stack contents
  | start hown _ entry =>
      refine ⟨fun l hl => ?_, fun i => ?_⟩
      · obtain rfl := Option.some.inj hl
        exact hself _ hown
      · simp only [Protocol.table, Option.elim_some, start_buckets]
        exact hparty.table i
  | look node l net =>
      have hown := hparty.own l rfl
      refine ⟨fun l' hl' => ?_, ?_⟩
      · obtain rfl := Option.some.inj hl'
        exact hown
      · exact step_buckets (kept_wellFormed hown) hparty.table net
  | finish node l => exact ⟨fun l' hl' => (by cases hl'), hparty.table⟩

/-- Whatever a network comes to, the eight buckets of a node that finds out no other own id than
its one have each peer once, in the bucket of its distance, at most `K` in a bucket, and not
itself. A store outside of the table leaves them as they are. -/
theorem reachable_tables (h : Relation.ReflTransGen (Yields describes) (System.initial N) s) {n : N}
    {ownId : HashID}
    (hself : ∀ own primary, describes n own primary → own = none ∨ own = some ownId) :
    TableInvariant ownId (table (s.parties n)) := by
  have horder : InOrder ownId (s.parties n) := by
    induction h with
    | refl => exact ⟨fun l hl => (by cases hl), wellFormed_empty ownId⟩
    | tail _ hyields ih =>
        obtain ⟨act, hacts, rfl⟩ := hyields
        exact (acts_moves hacts n).inOrder (fun own ⟨primary, hown⟩ => hself own primary hown) ih
  exact tableInvariant_of_wellFormed horder.table

theorem Reachable.yields (h : s.Reachable describes) :
    Relation.ReflTransGen (Yields describes) (System.initial N) s :=
  Relation.ReflTransGen.mono (fun _ _ ⟨act, hacts, _, hval⟩ => ⟨act, hacts, hval⟩) _ _ h

theorem reachable_tables_announced :
    TableInvariant (idOf true) (table (announced.parties true)) :=
  reachable_tables (Reachable.yields reachable_announced) fun _ _ h => Or.inr h.1

end Kademlia.Protocol
