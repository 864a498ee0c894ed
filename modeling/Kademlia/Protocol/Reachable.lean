import Kademlia.Protocol.Lookups

/-!
What holds in every state that a network can come to.

The invariant is over all nodes, their lookups and all packets ever sent. No step of
one node can break what the others rely on, so it survives any interleaving.
-/

namespace Kademlia.Protocol

open Foundations Foundations.Source Foundations.Traced Model Buckets Lookup

section

variable {N : Type} (describes : N → Option HashID → Option SockAddrIn → Prop)

/-- A node describes itself by `p`. -/
def Genuine (p : Peer) : Prop :=
  ∃ n own primary, describes n own primary ∧ p = Upload.ownEntry own primary

/-- An upload of `key` starts with this entry. -/
def Uploads (key : HashID) (kv : KeyValuePair) : Prop :=
  ∃ n own primary, describes n own primary ∧ kv = uploadEntry key (createOwnPeer own primary)

structure Sincere (s : System N) : Prop where
  nodes : ∀ n, SincereNode (Genuine describes) s.uploads (s.parties n).node
  lookups : ∀ n l, (s.parties n).lookup = some l → SincereLookup (Genuine describes) s.uploads l
  flight : ∀ packet ∈ s.flight, SincerePacket (Genuine describes) s.uploads packet
  uploads : ∀ kv ∈ s.uploads, Uploads describes kv.key kv

end

variable {N : Type} {describes : N → Option HashID → Option SockAddrIn → Prop} {s s' : System N}

theorem sincere_initial : Sincere describes (System.initial N) where
  nodes n := by
    refine ⟨fun p hp => ?_, fun key kv hkv => nomatch hkv⟩
    obtain ⟨i, -, hi⟩ := List.mem_flatMap.mp hp
    cases hi
  lookups n l hl := nomatch hl
  flight packet hpacket := nomatch hpacket
  uploads kv hkv := nomatch hkv

/-! ### Steps -/

theorem Sincere.send (h : Sincere describes s) {packets : List Packet}
    (hpackets : ∀ packet ∈ packets, SincerePacket (Genuine describes) s.uploads packet) :
    Sincere describes (s.send packets) where
  nodes := h.nodes
  lookups := h.lookups
  flight packet hpacket := by
    rcases List.mem_append.mp hpacket with hnew | hold
    · exact hpackets packet hnew
    · exact h.flight packet hold
  uploads := h.uploads

theorem genuine_uploadEntry {key : HashID} {kv : KeyValuePair} (h : Uploads describes key kv) :
    ∀ p ∈ Upload.owners kv, Genuine describes p := by
  obtain ⟨n, own, primary, hself, rfl⟩ := h
  intro p hp
  rw [Upload.owners_uploadEntry] at hp
  exact ⟨n, own, primary, hself, List.mem_singleton.mp hp⟩

theorem numValues_uploadEntry {key : HashID} {kv : KeyValuePair} (h : Uploads describes key kv) :
    kv.numValues = 1 := by
  obtain ⟨n, own, primary, -, rfl⟩ := h
  rfl

theorem sincere_broadcast {n : N} {own : Option HashID} {primary : Option SockAddrIn}
    {packet : RPCBroadcast} {uploads : List KeyValuePair} (hself : describes n own primary)
    (hpacket : broadcastDiscoveryRequest own primary = some packet) :
    SincerePacket (Genuine describes) uploads (.broadcast packet) := by
  unfold broadcastDiscoveryRequest at hpacket
  dsimp only at hpacket
  split at hpacket
  · cases hpacket
  · obtain rfl := Option.some.inj hpacket
    refine ⟨⟨⟨.broadcast, List.mem_singleton_self _, rfl⟩, trivial⟩, fun p hp => ?_,
      fun value hvalue => nomatch hvalue⟩
    obtain rfl := List.mem_singleton.mp hp
    refine ⟨n, own, primary, hself, ?_⟩
    rw [deserialize_serializeRpcPeer]
    rfl

theorem Sincere.conn (h : Sincere describes s) {conn : Conn} (hconn : Admits s.flight conn) :
    SincereConn (Genuine describes) conn := by
  intro hmagic
  obtain ⟨packet, hpacket, hbytes⟩ := hconn hmagic
  exact ⟨s.uploads, packet, h.flight packet hpacket, hbytes⟩

theorem Sincere.formed (h : Sincere describes s) : ∀ packet ∈ s.flight, Formed packet :=
  fun packet hpacket => (h.flight packet hpacket).formed

theorem Sincere.start (h : Sincere describes s) (n : N) {entry : Option KeyValuePair}
    (hentry : ∀ kv, entry = some kv → kv ∈ s.uploads) (q : Search) :
    SincereLookup (Genuine describes) s.uploads
      (RunningLookup.start q (s.parties n).node.buckets entry).val where
  vars := SincereVars.start (h.nodes n).table q
  entry kv hkv := by
    have hmem := hentry kv hkv
    have hupload := h.uploads kv hmem
    exact ⟨hmem, numValues_uploadEntry hupload, genuine_uploadEntry hupload⟩

theorem Sincere.record (h : Sincere describes s) (kv : KeyValuePair)
    (hkv : Uploads describes kv.key kv) :
    Sincere describes { s with uploads := kv :: s.uploads } where
  nodes n := (h.nodes n).mono (List.subset_cons_self _ _)
  lookups n l hl := (h.lookups n l hl).mono (List.subset_cons_self _ _)
  flight packet hpacket := (h.flight packet hpacket).mono (List.subset_cons_self _ _)
  uploads kv' hkv' := by
    rcases List.mem_cons.mp hkv' with rfl | hold
    · exact hkv
    · exact h.uploads kv' hold

variable [DecidableEq N]

theorem Sincere.set (h : Sincere describes s) (n : N) {party : Participant}
    (hnode : SincereNode (Genuine describes) s.uploads party.node)
    (hlookup : ∀ l, party.lookup = some l → SincereLookup (Genuine describes) s.uploads l) :
    Sincere describes (s.set n party) where
  nodes m := by
    by_cases hm : m = n
    · subst hm
      simpa [System.set] using hnode
    · simpa [System.set, hm] using h.nodes m
  lookups m l hl := by
    by_cases hm : m = n
    · subst hm
      exact hlookup l (by simpa [System.set] using hl)
    · exact h.lookups m l (by simpa [System.set, hm] using hl)
  flight := h.flight
  uploads := h.uploads

theorem Sincere.beginUpload (h : Sincere describes s) {n : N} {own : Option HashID}
    {primary : Option SockAddrIn} (hself : describes n own primary) (fileHash : HashID) :
    Sincere describes
      (s.beginUpload n own fileHash (uploadEntry fileHash (createOwnPeer own primary))).val := by
  have hkv : Uploads describes fileHash (uploadEntry fileHash (createOwnPeer own primary)) :=
    ⟨n, own, primary, hself, rfl⟩
  have hrecord := h.record (uploadEntry fileHash (createOwnPeer own primary)) hkv
  have hentry : SincereEntry (Genuine describes)
      (uploadEntry fileHash (createOwnPeer own primary) :: s.uploads) fileHash
      (uploadEntry fileHash (createOwnPeer own primary)) :=
    ⟨rfl, show 1 ≤ kValue by decide, genuine_uploadEntry hkv, _, List.mem_cons_self, rfl, rfl⟩
  refine hrecord.set n ((hrecord.nodes n).put hentry) fun l hl => ?_
  obtain rfl := Option.some.inj hl
  refine hrecord.start n (fun kv hkv => ?_) _
  obtain rfl := Option.some.inj hkv
  exact List.mem_cons_self

theorem Sincere.setIdle (h : Sincere describes s) (n : N) {node : Node}
    (hnode : SincereNode (Genuine describes) s.uploads node) :
    Sincere describes (s.set n ⟨node, none⟩) :=
  h.set n hnode fun _ hl => by cases hl

theorem Sincere.handled (h : Sincere describes s) (n : N) {packet : Packet}
    (hpacket : packet ∈ s.flight) (own : Option HashID) (stack : KeyValuePair) :
    Sincere describes
      (s.set n ⟨(handlePacket own stack (s.parties n).node packet).val.node, none⟩) :=
  h.setIdle n (handlePacket_sincere (h.nodes n) (h.flight packet hpacket) own stack).1

theorem Sincere.connected (h : Sincere describes s) {conn : Conn} (hconn : Admits s.flight conn)
    (n : N) (own : Option HashID) (stack : KeyValuePair) (buf : Memory) (peeks : List PeekEvent) :
    let served := (handleConnected own stack (s.parties n).node buf peeks conn).val
    Sincere describes ((s.set n ⟨served.node, none⟩).send served.outcome.sent) := by
  dsimp only
  rcases handleConnected_cases h.formed hconn peeks own stack (s.parties n).node buf with
    ⟨hsame, hnone⟩ | ⟨packet, hpacket, hhandled, hdispatched⟩
  · rw [hsame, hnone]
    exact (h.setIdle n (h.nodes n)).send fun packet hpacket => by cases hpacket
  · rw [hhandled, hdispatched]
    refine (h.handled n hpacket own stack).send fun response hresponse => ?_
    cases hr : (handlePacket own stack (s.parties n).node packet).val.sent with
    | none =>
        rw [hr] at hresponse
        cases hresponse
    | some r =>
        rw [hr] at hresponse
        obtain rfl := List.mem_singleton.mp hresponse
        exact (handlePacket_sincere (h.nodes n) (h.flight packet hpacket) own stack).2 r hr

theorem Sincere.incoming (h : Sincere describes s) {queue : List Datagram}
    (hqueue : AdmitsQueue s.flight queue) (n : N) (own : Option HashID) (buf : Memory)
    (call : IncomingCall) :
    Sincere describes
      (s.set n ⟨(handleIncoming own ⟨(s.parties n).node, buf, queue⟩ call).val.node, none⟩) := by
  rcases handleIncoming_cases h.formed hqueue own (s.parties n).node buf call with
    ⟨-, hsame⟩ | ⟨packet, hpacket, -, -, hhandled⟩
  · rw [hsame]
    exact h.setIdle n (h.nodes n)
  · rw [hhandled]
    exact h.handled n hpacket own call.stack

theorem Sincere.acts (h : Sincere describes s) {act : Traced Field (System N)}
    (hacts : Acts describes s act) : Sincere describes act.val := by
  cases hacts with
  | announce hself hpacket =>
      refine h.send fun packet hmem => ?_
      obtain rfl := List.mem_singleton.mp hmem
      exact sincere_broadcast hself hpacket
  | connected _ _ hconn => exact h.connected hconn _ _ _ _ _
  | incoming _ _ hqueue => exact h.incoming hqueue _ _ _ _
  | upload fileHash hself _ => exact h.beginUpload hself fileHash
  | @download n _ _ fileHash _ _ _ =>
      refine h.set n (h.nodes n) fun l hl => ?_
      obtain rfl := Option.some.inj hl
      exact h.start n (fun kv hkv => by cases hkv) _
  | @ask n l hlookup =>
      refine h.send fun packet hmem => ?_
      obtain rfl := List.mem_singleton.mp hmem
      exact ⟨formed_findRequest l.q, fun p hp => (nomatch hp), fun value hvalue => nomatch hvalue⟩
  | @look n l session hlookup hsession =>
      have hl := h.lookups n l hlookup
      have hvars : SincereVars (Genuine describes) (l.vars.step l.q fun _ _ => session).val :=
        hl.vars.step (fun _ _ reached hreached => h.conn (hsession reached hreached)) l.q
      refine h.set n (h.nodes n) fun l' hl' => ?_
      obtain rfl := Option.some.inj hl'
      exact ⟨hvars, hl.entry⟩
  | @finish n l net contents hlookup _ =>
      have hl := h.lookups n l hlookup
      exact (h.setIdle n (hl.node (h.nodes n))).send (hl.publishes net contents)

theorem Reachable.sincere (h : s.Reachable describes) : Sincere describes s := by
  induction h with
  | refl => exact sincere_initial
  | tail _ hstep ih =>
      obtain ⟨act, hacts, -, rfl⟩ := hstep
      exact ih.acts hacts

/-! ### Peers -/

/-- Whatever a network does, no node comes to know a peer, or to tell of one, that is not a node's
own description of itself. -/
theorem reachable_genuine (h : s.Reachable describes) :
    (∀ n, ∀ p ∈ tablePeers (s.parties n).node.buckets, Genuine describes p) ∧
      (∀ n key kv, (s.parties n).node.storage key = some kv →
        ∀ p ∈ Upload.owners kv, Genuine describes p) ∧
      (∀ n l, (s.parties n).lookup = some l → (∀ p ∈ l.vars.pending.data, Genuine describes p) ∧
        ∀ i p, (l.vars.finish l.q).outPeers i = some p → Genuine describes p) ∧
      ∀ packet ∈ s.flight, ∀ p ∈ carriedPeers packet, Genuine describes p := by
  have hs := Reachable.sincere h
  refine ⟨fun n => (hs.nodes n).table,
    fun n key kv hkv => ((hs.nodes n).entries key kv hkv).genuine, fun n l hl => ?_,
    fun packet hpacket => (hs.flight packet hpacket).genuine⟩
  have hvars := (hs.lookups n l hl).vars
  exact ⟨hvars.pending, hvars.finish l.q⟩

def idOf (n : Bool) : HashID := sparseID (if n then 1 else 0) 0

/-- Two nodes that know who they are, with ids of different first bytes. -/
def twoNodes (n : Bool) (own : Option HashID) (primary : Option SockAddrIn) : Prop :=
  own = some (idOf n) ∧ primary = some zeroAddr

def announcement : RPCBroadcast where
  header := rpcHeader .broadcast sizeofBroadcast
  peer := serializeRpcPeer (Upload.ownEntry (some (idOf false)) (some zeroAddr))

def hearsAnnouncement : Traced Field (System Bool) := do
  let s := (System.initial Bool).send [.broadcast announcement]
  let listener ← handleIncoming (some (idOf true))
    ⟨(s.parties true).node, fun _ => 0, [⟨zeroBytes 4, announcement.bytes⟩]⟩ ⟨none, blankEntry⟩
  pure (s.set true ⟨listener.node, none⟩)

def announced : System Bool := hearsAnnouncement.val

theorem reachable_announced : announced.Reachable twoNodes := by
  have hsent : Steps twoNodes (System.initial Bool)
      ((System.initial Bool).send [.broadcast announcement]) :=
    ⟨_, .announce (n := false) ⟨rfl, rfl⟩ rfl, stays_pure _ _ _, rfl⟩
  have hstays : ∀ a ∈ hearsAnnouncement.log, a.array = .buckets → a.Within bucketCount := by
    decide +kernel
  refine (Relation.ReflTransGen.single hsent).tail
    ⟨hearsAnnouncement, .incoming (n := true) ⟨rfl, rfl⟩ rfl ?_, hstays, rfl⟩
  intro datagram hdatagram _
  obtain rfl := List.mem_singleton.mp hdatagram
  exact ⟨_, List.mem_cons_self, rfl⟩

theorem reachable_genuine_announced :
    Upload.ownEntry (some (idOf false)) (some zeroAddr) ∈
        tablePeers (announced.parties true).node.buckets ∧
      Genuine twoNodes (Upload.ownEntry (some (idOf false)) (some zeroAddr)) := by
  have hmem : Upload.ownEntry (some (idOf false)) (some zeroAddr) ∈
      tablePeers (announced.parties true).node.buckets := by decide +kernel
  exact ⟨hmem, (reachable_genuine reachable_announced).1 true _ hmem⟩

/-! ### Entries -/

/-- The first of the owners uploaded the file. -/
def StartsAtUploader (describes : N → Option HashID → Option SockAddrIn → Prop) (s : System N)
    (key : HashID) (owners : List Peer) : Prop :=
  ∃ n own primary, describes n own primary ∧
    uploadEntry key (createOwnPeer own primary) ∈ s.uploads ∧
      owners.head? = some (Upload.ownEntry own primary)

omit [DecidableEq N] in
theorem Sincere.startsAtUploader (h : Sincere describes s) {key : HashID} {owners : List Peer}
    (howners : Published s.uploads key owners) : StartsAtUploader describes s key owners := by
  obtain ⟨kv, hmem, rfl, hhead⟩ := howners
  obtain ⟨n, own, primary, hself, hkv⟩ := h.uploads kv hmem
  refine ⟨n, own, primary, hself, hkv ▸ hmem, ?_⟩
  rw [hhead, hkv, Upload.owners_uploadEntry]
  rfl

theorem CountsFit.carriedEntry {packet : Packet} (h : CountsFit packet) {value : RPCKeyValue}
    (hvalue : carriedEntry packet = some value) : value.numValues ≤ kValue := by
  rcases packet with packet | packet | packet | packet | packet | packet
  case store =>
    obtain rfl := Option.some.inj hvalue
    exact h
  case response.findValue =>
    rw [Protocol.carriedEntry, valueOf] at hvalue
    split at hvalue
    · obtain rfl := Option.some.inj hvalue
      exact h.1
    · cases hvalue
  all_goals cases hvalue

/-- An entry, in a storage or on its way, has room for its owners, and the first of them
began an upload of its key. -/
theorem reachable_published (h : s.Reachable describes) :
    (∀ n key kv, (s.parties n).node.storage key = some kv → kv.key = key ∧
      kv.numValues ≤ kValue ∧ StartsAtUploader describes s key (Upload.owners kv)) ∧
      ∀ packet ∈ s.flight, ∀ value, carriedEntry packet = some value →
        value.numValues ≤ kValue ∧ StartsAtUploader describes s value.key (sentOwners value) := by
  have hs := Reachable.sincere h
  refine ⟨fun n key kv hkv => ?_, fun packet hpacket value hvalue => ?_⟩
  · have hentry := (hs.nodes n).entries key kv hkv
    exact ⟨hentry.key_eq, hentry.count, hs.startsAtUploader hentry.published⟩
  · have hsincere := hs.flight packet hpacket
    exact ⟨hsincere.formed.counts.carriedEntry hvalue,
      hs.startsAtUploader (hsincere.published value hvalue)⟩

def fileKey : HashID := sparseID 2 0

def firstUpload : Traced Field (System Bool) :=
  (System.initial Bool).beginUpload false (some (idOf false)) fileKey
    (uploadEntry fileKey (createOwnPeer (some (idOf false)) (some zeroAddr)))

def uploading : System Bool := firstUpload.val

theorem reachable_uploading : uploading.Reachable twoNodes := by
  have hstays : ∀ a ∈ firstUpload.log, a.array = .buckets → a.Within bucketCount := by
    decide +kernel
  exact .single ⟨_, .upload fileKey ⟨rfl, rfl⟩ rfl, hstays, rfl⟩

theorem reachable_published_uploading :
    ∃ kv, (uploading.parties false).node.storage fileKey = some kv ∧ kv.key = fileKey ∧
      kv.numValues ≤ kValue ∧ StartsAtUploader twoNodes uploading fileKey (Upload.owners kv) := by
  have hkv : ((uploading.parties false).node.storage fileKey).isSome := by decide +kernel
  obtain ⟨kv, hkv⟩ := Option.isSome_iff_exists.mp hkv
  exact ⟨kv, hkv, (reachable_published reachable_uploading).1 false _ _ hkv⟩

end Kademlia.Protocol
