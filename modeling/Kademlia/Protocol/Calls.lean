import Kademlia.Lookup.Steps
import Kademlia.Protocol.Exchange
import Kademlia.Protocol.Reachable

/-!
The calls of `handle_rpc_upload` and `handle_rpc_download` as steps of the system.

A call that finds its answers in flight is a run of its node alone: it begins, its lookup
goes round the loops, and it finishes. So what holds in all reachable states holds after
every call.
-/

namespace Kademlia.Protocol

open Foundations Foundations.CString Foundations.Source Foundations.Traced Model Buckets Lookup

variable {N : Type} [DecidableEq N] {describes : N → Option HashID → Option SockAddrIn → Prop}
  {s : System N} {n : N}

@[simp] theorem set_set (party party' : Participant) :
    (s.set n party).set n party' = s.set n party' := by
  simp [System.set]

@[simp] theorem set_parties_self (party : Participant) : (s.set n party).parties n = party := by
  simp [System.set]

theorem set_self {party : Participant} (h : s.parties n = party) : s.set n party = s := by
  rw [System.set, ← h, Function.update_eq_self]

omit [DecidableEq N] in
@[simp] theorem send_send (packets packets' : List Packet) :
    (s.send packets).send packets' = s.send (packets' ++ packets) := by
  simp [System.send]

@[simp] theorem send_set (packets : List Packet) (party : Participant) :
    (s.send packets).set n party = (s.set n party).send packets := rfl

theorem admits_mono {flight flight' : List Packet} {conn : Conn} (h : Admits flight conn)
    (hsub : flight ⊆ flight') : Admits flight' conn := by
  intro hmagic
  obtain ⟨packet, hpacket, hbytes⟩ := h hmagic
  exact ⟨packet, hsub hpacket, hbytes⟩

theorem steps_connected {own : Option HashID} {primary : Option SockAddrIn}
    {stack : KeyValuePair} {buf : Memory} {peeks : List PeekEvent} {conn : Conn}
    (hself : describes n own primary) (hidle : (s.parties n).lookup = none)
    (hconn : Admits s.flight conn)
    (hinTable : (handleConnected own stack (s.parties n).node buf peeks conn).Stays .buckets
      bucketCount) :
    let served := (handleConnected own stack (s.parties n).node buf peeks conn).val
    Steps describes s ((s.set n ⟨served.node, none⟩).send served.outcome.sent) :=
  ⟨_, .connected hself hidle hconn, stays_bind.mpr ⟨hinTable, stays_pure _ _ _⟩, rfl⟩

theorem steps_look {l : RunningLookup} {session : Option Session}
    (hlookup : (s.parties n).lookup = some l)
    (hsession : ∀ reached ∈ session, Admits s.flight reached.conn)
    (hinTable : (l.vars.step l.q fun _ _ => session).Stays .buckets bucketCount) :
    Steps describes s (s.set n ⟨(s.parties n).node,
      some { l with vars := (l.vars.step l.q fun _ _ => session).val }⟩) :=
  ⟨_, .look hlookup hsession, stays_bind.mpr ⟨hinTable, stays_pure _ _ _⟩, rfl⟩

theorem publishes_stays (l : RunningLookup) (net : UploadNetwork)
    (contents : Option (List UInt8)) :
    (l.publishes net contents).Stays .buckets bucketCount := by
  unfold RunningLookup.publishes
  split
  · dsimp only
    split
    · exact stays_pure _ _ _
    · simp only [storeRequest, serializeRpcValue, stays_bind, stays_pure, and_true]
      exact stays_foldlM (fun s i _ => by simp) _
  · exact stays_pure _ _ _

theorem steps_finish {l : RunningLookup} (hlookup : (s.parties n).lookup = some l)
    (hexit : l.vars.position = .exit) (net : UploadNetwork) (contents : Option (List UInt8)) :
    Steps describes s ((s.set n ⟨{ (s.parties n).node with buckets := l.vars.buckets }, none⟩).send
      (l.publishes net contents).val) :=
  ⟨_, .finish hlookup hexit,
    stays_bind.mpr ⟨publishes_stays l net contents, stays_pure _ _ _⟩, rfl⟩

/-! ### One contact -/

/-- The peer that the next step of the loops contacts. -/
def contacting (vars : LookupState) : Option Peer :=
  match vars.position with
  | .inner i =>
      if i < vars.pending.size then
        match vectorGet vars.pending i, vectorGet vars.contacted i with
        | some p, some false => some p
        | _, _ => none
      else none
  | _ => none

theorem step_contacting (q : Search) (net : Network) (vars : LookupState) :
    vars.step q net =
      vars.step q fun _ _ => (contacting vars).bind (net vars.contacts.length) := by
  unfold LookupState.step contacting
  cases vars.position with
  | inner i =>
      by_cases hi : i < vars.pending.size
      · simp only [if_pos hi]
        cases vectorGet vars.pending i with
        | none => rfl
        | some p =>
            cases vectorGet vars.contacted i with
            | none => rfl
            | some contacted => cases contacted <;> rfl
      · simp only [if_neg hi]
  | _ => rfl

/-- Where the answer to a request of `q` comes from: it is in flight already, or an idle node
gives it when it is asked. -/
inductive Answered (describes : N → Option HashID → Option SockAddrIn → Prop) (s : System N)
    (n : N) (q : Search) (session : Session) : Prop
  | before (hconn : Admits s.flight session.conn)
  | asked {m : N} {own : Option HashID} {primary : Option SockAddrIn} {stack : KeyValuePair}
      {buf : Memory} {peeks : List PeekEvent} {conn : Conn} (hother : m ≠ n)
      (hself : describes m own primary) (hidle : (s.parties m).lookup = none)
      (hrequest : Admits [.find (findRequest q)] conn)
      (hinTable : (handleConnected own stack (s.parties m).node buf peeks conn).Stays .buckets
        bucketCount)
      (hanswer : Admits
        ((handleConnected own stack (s.parties m).node buf peeks conn).val.outcome.sent ++ s.flight)
        session.conn)

/-- What is sent for the contacts of a lookup. -/
def Exchanged (q : Search) (packets : List Packet) : Prop :=
  ∀ packet ∈ packets, packet = .find (findRequest q) ∨ ∃ r, packet = .response r

theorem handlePacket_findRequest_node (q : Search) (own : Option HashID) (stack : KeyValuePair)
    (node : Node) : (handlePacket own stack node (.find (findRequest q))).val.node = node := by
  rw [handlePacket]
  split
  · obtain ⟨r, hval, -⟩ := handleFindNode_answer own node (findRequest q)
    rw [hval]
  · cases hget : storageGetValue node.storage (findRequest q).key with
    | none =>
        obtain ⟨r, hval, -⟩ := handleFindValue_missing (findRequest q) hget own
        rw [hval]
    | some kvp =>
        obtain ⟨r, hval, -⟩ := handleFindValue_found (findRequest q) hget own
        rw [hval]

/-- Whoever is asked stays as it is, and sends a response if anything. -/
theorem handleConnected_findRequest {q : Search} {conn : Conn}
    (hconn : Admits [.find (findRequest q)] conn) (own : Option HashID) (stack : KeyValuePair)
    (node : Node) (buf : Memory) (peeks : List PeekEvent) :
    (handleConnected own stack node buf peeks conn).val.node = node ∧
      ∀ packet ∈ (handleConnected own stack node buf peeks conn).val.outcome.sent,
        ∃ r, packet = .response r := by
  have hformed : ∀ packet ∈ [Packet.find (findRequest q)], Formed packet := fun packet hpacket =>
    List.mem_singleton.mp hpacket ▸ formed_findRequest q
  rcases handleConnected_cases hformed hconn peeks own stack node buf with
    ⟨hsame, hnone⟩ | ⟨packet, hpacket, hhandled, hdispatched⟩
  · rw [hnone]
    exact ⟨hsame, fun packet hpacket => by cases hpacket⟩
  · obtain rfl := List.mem_singleton.mp hpacket
    rw [hhandled, hdispatched, handlePacket_findRequest_node]
    refine ⟨rfl, fun response hresponse => ?_⟩
    cases hsent : (handlePacket own stack node (.find (findRequest q))).val.sent with
    | none =>
        rw [hsent] at hresponse
        cases hresponse
    | some r =>
        rw [hsent] at hresponse
        exact ⟨r, List.mem_singleton.mp hresponse⟩

/-- The lookup of `n` goes on in `t`; the other nodes are as they were in `s`, and nothing that
was in flight is gone. -/
structure Continues (s t : System N) (n : N) (node : Node) (l : RunningLookup) : Prop where
  party : t.parties n = ⟨node, some l⟩
  others : ∀ m, m ≠ n → t.parties m = s.parties m
  flight : s.flight ⊆ t.flight

variable {t : System N} {node : Node} {l : RunningLookup}

theorem Continues.next (h : Continues s t n node l) (l' : RunningLookup) (packets : List Packet) :
    Continues s ((t.set n ⟨node, some l'⟩).send packets) n node l' where
  party := set_parties_self _
  others m hm := (Function.update_of_ne hm _ _).trans (h.others m hm)
  flight _ hpacket := List.mem_append_right _ (h.flight hpacket)

/-- The request of a contact, and the answer that it gets. -/
theorem Continues.exchange (h : Continues s t n node l) {session : Session}
    (hsession : Answered describes s n l.q session) :
    ∃ packets, Exchanged l.q packets ∧
      Relation.ReflTransGen (Steps describes) t (t.send packets) ∧
      Admits (packets ++ t.flight) session.conn := by
  have hask : Steps describes t (t.send [.find (findRequest l.q)]) :=
    ⟨_, .ask (by rw [h.party]), stays_pure _ _ _, rfl⟩
  cases hsession with
  | before hconn =>
      refine ⟨[.find (findRequest l.q)], ?_, .single hask, ?_⟩
      · exact fun packet hpacket => Or.inl (List.mem_singleton.mp hpacket)
      · exact admits_mono hconn fun packet hpacket => List.mem_append_right _ (h.flight hpacket)
  | @asked m own primary stack buf peeks conn hother hself hidle hrequest hinTable hanswer =>
      have hparty := h.others m hother
      obtain ⟨hnode, hsent⟩ := handleConnected_findRequest hrequest own stack (s.parties m).node
        buf peeks
      set served := handleConnected own stack (s.parties m).node buf peeks conn with hserved
      refine ⟨served.val.outcome.sent ++ [.find (findRequest l.q)], ?_, ?_, ?_⟩
      · intro packet hpacket
        rcases List.mem_append.mp hpacket with hpacket | hpacket
        · exact Or.inr (hsent packet hpacket)
        · exact Or.inl (List.mem_singleton.mp hpacket)
      · have hconnected : Steps describes (t.send [.find (findRequest l.q)])
            (((t.send [.find (findRequest l.q)]).set m ⟨served.val.node, none⟩).send
              served.val.outcome.sent) := by
          have hidle' : ((t.send [.find (findRequest l.q)]).parties m).lookup = none :=
            (congrArg Participant.lookup hparty).trans hidle
          have hadmits : Admits (t.send [.find (findRequest l.q)]).flight conn :=
            admits_mono hrequest fun _ hpacket => List.mem_append_left _ hpacket
          have hnode' : ((t.send [.find (findRequest l.q)]).parties m).node =
            (s.parties m).node := congrArg Participant.node hparty
          have hstep := @steps_connected N _ describes (t.send [.find (findRequest l.q)]) m own
            primary stack buf peeks conn hself hidle' hadmits (hnode' ▸ hinTable)
          rwa [hnode'] at hstep
        have hsame : (t.send [.find (findRequest l.q)]).set m ⟨served.val.node, none⟩ =
            t.send [.find (findRequest l.q)] := by
          refine set_self ?_
          rw [System.send, hparty, hnode, ← hidle]
        rw [hsame, send_send] at hconnected
        exact (Relation.ReflTransGen.single hask).tail hconnected
      · refine admits_mono hanswer fun packet hpacket => ?_
        rcases List.mem_append.mp hpacket with hpacket | hpacket
        · exact List.mem_append_left _ (List.mem_append_left _ hpacket)
        · exact List.mem_append_right _ (h.flight hpacket)

/-! ### The lookup of a call -/

/-- One step of the loops; if it contacts a peer, the request and the answer come before it. -/
theorem Continues.step (h : Continues s t n node l) {net : Network}
    (hnet : ∀ k p, ∀ session ∈ net k p, Answered describes s n l.q session)
    (hinTable : (l.vars.step l.q net).Stays .buckets bucketCount) :
    ∃ packets, Exchanged l.q packets ∧ Relation.ReflTransGen (Steps describes) t
      ((t.set n ⟨node, some { l with vars := (l.vars.step l.q net).val }⟩).send packets) := by
  rw [step_contacting] at hinTable ⊢
  have hlook : ∀ packets : List Packet, (∀ reached ∈ (contacting l.vars).bind
      (net l.vars.contacts.length), Admits (packets ++ t.flight) reached.conn) →
      Steps describes (t.send packets) ((t.set n ⟨node, some { l with vars := (l.vars.step l.q
        fun _ _ => (contacting l.vars).bind (net l.vars.contacts.length)).val }⟩).send packets) := by
    intro packets hadmits
    have hlookup : ((t.send packets).parties n).lookup = some l :=
      congrArg Participant.lookup h.party
    have hnode : ((t.send packets).parties n).node = node := congrArg Participant.node h.party
    have hstep : Steps describes (t.send packets) _ := steps_look hlookup hadmits hinTable
    rwa [hnode, send_set] at hstep
  cases hsession : (contacting l.vars).bind (net l.vars.contacts.length) with
  | none =>
      rw [hsession] at hlook
      exact ⟨[], fun packet hpacket => (by cases hpacket),
        .single (hlook [] fun reached hreached => by cases hreached)⟩
  | some session =>
      rw [hsession] at hlook
      obtain ⟨p, -, hp⟩ := Option.bind_eq_some_iff.mp hsession
      obtain ⟨packets, hexchanged, hrun, hadmits⟩ := h.exchange (hnet _ p session hp)
      refine ⟨packets, hexchanged, hrun.tail (hlook packets fun reached hreached => ?_)⟩
      obtain rfl := Option.some.inj hreached
      exact hadmits

theorem Continues.run (h : Continues s t n node l) {net : Network}
    (hnet : ∀ k p, ∀ session ∈ net k p, Answered describes s n l.q session) {fuel : ℕ}
    (hinTable : (l.vars.run l.q net fuel).Stays .buckets bucketCount) :
    ∃ packets, Exchanged l.q packets ∧ Relation.ReflTransGen (Steps describes) t
      ((t.set n ⟨node, some { l with vars := (l.vars.run l.q net fuel).val }⟩).send packets) := by
  induction fuel generalizing t l with
  | zero =>
      have hsame : t.set n ⟨node, some { l with vars := (l.vars.run l.q net 0).val }⟩ = t :=
        set_self h.party
      rw [hsame]
      exact ⟨[], fun packet hpacket => (by cases hpacket), .refl⟩
  | succ fuel ih =>
      obtain ⟨hstep, hrest⟩ := stays_bind.mp hinTable
      obtain ⟨packets, hexchanged, hfirst⟩ := h.step hnet hstep
      have hnext := h.next { l with vars := (l.vars.step l.q net).val } packets
      obtain ⟨packets', hexchanged', hrun⟩ := ih hnext hnet hrest
      refine ⟨packets' ++ packets, fun packet hpacket => ?_, hfirst.trans ?_⟩
      · rcases List.mem_append.mp hpacket with hpacket | hpacket
        · exact hexchanged' packet hpacket
        · exact hexchanged packet hpacket
      · rw [send_set, set_set, send_send] at hrun
        exact hrun

theorem exit_of_some {q : Search} (hmax : q.maxPeers ≠ 0) {net : Network}
    {buckets : Model.Buckets} {fuel : ℕ} {found : LookupResult}
    (h : Returns (iterativeFindPeers q net buckets (fun _ => none) fuel) found)
    (entry : Option KeyValuePair) :
    let l := (RunningLookup.start q buckets entry).val
    (l.vars.run q net fuel).Stays .buckets bucketCount ∧
      (l.vars.run q net fuel).val.position = .exit ∧
        found = (l.vars.run q net fuel).val.finish q := by
  obtain ⟨hinTable, hval⟩ := h
  simp only [iterativeFindPeers, if_neg hmax, val_bind, val_pure] at hval
  rw [iterativeFindPeers, if_neg hmax, stays_bind, stays_bind] at hinTable
  split at hval
  · next hexit => exact ⟨hinTable.2.1, hexit, (Option.some.inj hval).symm⟩
  · cases hval

theorem finish_last (q : Search) (vars : LookupState) : (vars.finish q).last = vars := by
  unfold LookupState.finish
  split <;> rfl

theorem Continues.finish (h : Continues s t n node l) (hexit : l.vars.position = .exit)
    (net : UploadNetwork) (contents : Option (List UInt8)) :
    Steps describes t ((t.set n ⟨{ node with buckets := l.vars.buckets }, none⟩).send
      (l.publishes net contents).val) := by
  have hlookup : (t.parties n).lookup = some l := by rw [h.party]
  have hfinish : Steps describes t _ := steps_finish hlookup hexit net contents
  rwa [h.party] at hfinish

/-- From the start of its lookup to its end, a call changes its own node and what is in flight. -/
theorem Continues.lookup {q : Search} {entry : Option KeyValuePair}
    (h : Continues s t n node (RunningLookup.start q node.buckets entry).val)
    (hmax : q.maxPeers ≠ 0) {net : UploadNetwork}
    (hnet : ∀ k p, ∀ session ∈ net.lookup k p, Answered describes s n q session) {fuel : ℕ}
    {found : LookupResult}
    (hfound : Returns (iterativeFindPeers q net.lookup node.buckets (fun _ => none) fuel) found)
    (contents : Option (List UInt8)) :
    ∃ (l : RunningLookup) (packets : List Packet), l.entry = entry ∧ l.vars.finish l.q = found ∧
      Exchanged q packets ∧ Relation.ReflTransGen (Steps describes) t
        ((t.set n ⟨{ node with buckets := found.last.buckets }, none⟩).send
          ((l.publishes net contents).val ++ packets)) := by
  obtain ⟨hinTable, hexit, rfl⟩ := exit_of_some hmax hfound entry
  obtain ⟨packets, hexchanged, hrun⟩ := h.run hnet hinTable
  rw [finish_last]
  set vars := ((RunningLookup.start q node.buckets entry).val.vars.run q net.lookup fuel).val
  set l : RunningLookup := ⟨q, vars, entry⟩
  have hfinish : Steps describes ((t.set n ⟨node, some l⟩).send packets) _ :=
    (h.next l packets).finish hexit net contents
  rw [send_set, set_set, send_send] at hfinish
  exact ⟨l, packets, rfl, rfl, hexchanged, hrun.tail hfinish⟩

/-! ### The calls -/

theorem uploaded_eq {own : Option HashID} {primary : Option SockAddrIn} {net : UploadNetwork}
    {disk : Disk} {node : Node} {file : FileMagnet} {fuel : ℕ} {up : Uploaded}
    (h : Returns (handleRpcUpload own primary net disk node file fuel) up) :
    ∃ found, Returns (iterativeFindPeers (fileSearch own file.fileHash false) net.lookup
        node.buckets (fun _ => none) fuel) found ∧
      up.node = ⟨storagePutValue node.storage
        (uploadEntry file.fileHash (createOwnPeer own primary)), found.last.buckets⟩ ∧
      ∀ l : RunningLookup,
        l.entry = some (uploadEntry file.fileHash (createOwnPeer own primary)) →
        l.vars.finish l.q = found →
        (l.publishes net (disk (pathIn uploadDir file.nameText))).val =
          up.published.toList.map fun kv => .store (storeRequest kv).val := by
  obtain ⟨hinTable, h⟩ := h
  unfold handleRpcUpload at h hinTable
  have hlookup := (stays_bind.mp hinTable).1
  simp only [val_bind] at h
  split at h
  · cases h
  · next found hfound =>
      refine ⟨found, ⟨hlookup, hfound⟩, ?_⟩
      split_ifs at h with hfails
      · obtain rfl := Option.some.inj h
        refine ⟨rfl, fun l hentry hl => ?_⟩
        unfold RunningLookup.publishes
        rw [hentry]
        split
        · dsimp only
          rw [hl, if_pos hfails]
          rfl
        · rfl
      · split at h
        · next hcontents =>
            obtain rfl := Option.some.inj h
            refine ⟨rfl, fun l hentry hl => ?_⟩
            unfold RunningLookup.publishes
            rw [hentry, hcontents]
            rfl
        · next contents hcontents =>
            obtain rfl := Option.some.inj h
            refine ⟨rfl, fun l hentry hl => ?_⟩
            unfold RunningLookup.publishes
            rw [hentry, hcontents]
            dsimp only
            rw [hl, if_neg hfails]
            rfl

def noNetwork : UploadNetwork where
  lookup _ _ := none
  put _ _ := ⟨false, false, false, [], .ordinary, false⟩
  storeConnects _ _ := false

def namedFile : FileMagnet := ⟨fileKey, some [97], 1⟩

def secondSearch : Search := fileSearch (some (idOf true)) fileKey false

def firstServed : Traced Field Served :=
  respond (some (idOf false)) Node.initial secondSearch

/-- The first node answers, and takes the file. -/
def firstNetwork : UploadNetwork where
  lookup _ _ := some ⟨[.ready 3], unread (firstServed.val.outcome.sent.flatMap Packet.bytes) [],
    fun _ => 0, blankEntry⟩
  put _ _ := ⟨true, true, true, unread (ascii "HTTP/1.1 201 Created\r\n\r\n") [], .ordinary,
    false⟩
  storeConnects _ _ := true

def secondUpload : Traced Field (Option Uploaded) :=
  handleRpcUpload (some (idOf true)) (some zeroAddr) firstNetwork
    (Disk.empty.store (pathIn uploadDir [97]) [1]) (announced.parties true).node namedFile 9

def beginning : Traced Field (System Bool) :=
  announced.beginUpload true (some (idOf true)) fileKey
    (uploadEntry fileKey (createOwnPeer (some (idOf true)) (some zeroAddr)))

def lookAlone (s : System Bool) : System Bool :=
  match (s.parties true).lookup with
  | none => s
  | some l => s.set true ⟨(s.parties true).node,
      some { l with vars := (l.vars.step l.q fun _ _ => none).val }⟩

theorem step_none_log (q : Search) (vars : LookupState) :
    (vars.step q fun _ _ => none).log = [] := by
  unfold LookupState.step
  cases vars.position with
  | outer =>
      dsimp only
      split <;> rfl
  | inner i =>
      dsimp only
      split
      · split
        · rw [log_bind, contactPeer, log_pure, val_pure, List.nil_append]
          split <;> rfl
        · rfl
      · rfl
  | exit => rfl

theorem reachable_lookAlone {s : System Bool} (h : s.Reachable twoNodes) :
    (lookAlone s).Reachable twoNodes := by
  unfold lookAlone
  split
  · exact h
  · next l hl =>
      have hnone : ∀ reached ∈ (none : Option Session), Admits s.flight reached.conn :=
        fun reached hreached => by cases hreached
      exact h.tail (steps_look hl hnone (by simp [Stays, step_none_log]))

def publishing : Traced Field (System Bool) :=
  let looked := lookAlone^[8] beginning.val
  match (looked.parties true).lookup with
  | none => pure looked
  | some l => do
      let packets ← l.publishes noNetwork (some [1])
      pure ((looked.set true ⟨{ (looked.parties true).node with buckets := l.vars.buckets },
        none⟩).send packets)

def published : System Bool := publishing.val

theorem reachable_published_second : published.Reachable twoNodes := by
  have hstays : ∀ a ∈ beginning.log, a.array = .buckets → a.Within bucketCount := by
    decide +kernel
  have hlooked : ∀ k, (lookAlone^[k] beginning.val).Reachable twoNodes := by
    intro k
    induction k with
    | zero => exact reachable_announced.tail ⟨beginning, .upload fileKey ⟨rfl, rfl⟩ rfl, hstays, rfl⟩
    | succ k ih =>
        rw [Function.iterate_succ_apply']
        exact reachable_lookAlone ih
  have hexit : ((lookAlone^[8] beginning.val).parties true).lookup.map
      (fun l => l.vars.position) = some .exit := by decide +kernel
  obtain ⟨l, hl, hexit⟩ := Option.map_eq_some_iff.mp hexit
  have hfinish : Steps twoNodes _ _ := steps_finish hl hexit noNetwork (some [1])
  rw [published, publishing]
  dsimp only
  rw [hl]
  exact (hlooked 8).tail hfinish

/-! ### Downloads -/

theorem tryOwners_contacted (http : ℕ → Peer → HttpSession) (file : FileMagnet)
    (stopAt : Option HashID) (m : ℕ) (peers : List Peer) (disk : Disk) :
    ∀ p ∈ (tryOwners http file stopAt m peers disk).contacted, p ∈ peers := by
  induction peers generalizing m disk with
  | nil => exact fun p hp => hp
  | cons peer peers ih =>
      intro p hp
      rw [tryOwners] at hp
      dsimp only at hp
      split at hp
      · cases hp
      · split at hp
        · exact List.mem_singleton.mp hp ▸ List.mem_cons_self
        · split at hp
          · exact List.mem_singleton.mp hp ▸ List.mem_cons_self
          · rcases List.mem_cons.mp hp with rfl | hp
            · exact List.mem_cons_self
            · exact List.mem_cons_of_mem _ (ih _ _ p hp)

/-- A download opens no connection but to nodes that described themselves. While it waits for an
answer, the other nodes go on. -/
theorem download_genuine (h : s.Reachable describes) {own : Option HashID} {lookup : Network}
    (hnet : ∀ k p, ∀ session ∈ lookup k p, ∃ s', Relation.ReflTransGen (Steps describes) s s' ∧
      Admits s'.flight session.conn)
    {http : ℕ → Peer → HttpSession} {disk : Disk} {file : FileMagnet} {fuel : ℕ}
    {tried : TriedOwners}
    (htried : Returns (handleRpcDownload own lookup http disk (s.parties n).node file fuel) tried) :
    ∀ p ∈ tried.contacted, Genuine describes p := by
  have hnode := (Reachable.sincere h).nodes n
  have hconn : ∀ k p, ∀ session ∈ lookup k p, SincereConn (Genuine describes) session.conn := by
    intro k p session hsession
    obtain ⟨s', hrun, hadmits⟩ := hnet k p session hsession
    exact (Reachable.sincere (h.trans hrun)).conn hadmits
  obtain ⟨hinTable, htried⟩ := htried
  unfold handleRpcDownload at htried hinTable
  cases own with
  | none =>
      obtain rfl := Option.some.inj htried
      exact fun p hp => nomatch hp
  | some ownId =>
      dsimp only at htried hinTable
      split at htried
      · next kvp hget =>
          obtain rfl := TriedOwners.eq_of_ended htried
          intro p hp
          exact (hnode.entries _ _ hget).genuine p (tryOwners_contacted _ _ _ _ _ _ p hp)
      · next hget =>
          rw [hget] at hinTable
          have hlookup := (stays_bind.mp hinTable).1
          simp only [val_bind] at htried
          split at htried
          · cases htried
          · next found hfound =>
              split_ifs at htried
              · obtain rfl := Option.some.inj htried
                exact fun p hp => nomatch hp
              · obtain rfl := TriedOwners.eq_of_ended htried
                obtain ⟨-, -, rfl⟩ := exit_of_some four_ne_zero ⟨hlookup, hfound⟩ none
                intro p hp
                have hvars := (SincereVars.start hnode.table
                  (fileSearch (some ownId) file.fileHash true)).run hconn
                  (fileSearch (some ownId) file.fileHash true) fuel
                obtain ⟨i, -, hi⟩ :=
                  List.mem_filterMap.mp (tryOwners_contacted _ _ _ _ _ _ p hp)
                exact hvars.finish _ i p hi

def storing : Traced Field (System Bool) := do
  let listener ← handleIncoming (some (idOf false)) ⟨(published.parties false).node, fun _ => 0,
    published.flight.map fun packet => ⟨zeroBytes 4, packet.bytes⟩⟩ ⟨none, blankEntry⟩
  pure (published.set false ⟨listener.node, none⟩)

theorem acts_storing : Acts twoNodes published storing := by
  have hidle : (published.parties false).lookup = none := by decide +kernel
  refine .incoming (n := false) ⟨rfl, rfl⟩ hidle fun datagram hdatagram _ => ?_
  obtain ⟨packet, hpacket, rfl⟩ := List.mem_map.mp hdatagram
  exact ⟨packet, hpacket, rfl⟩

def stored : System Bool := storing.val

theorem steps_storing : Steps twoNodes published stored := by
  have hstays : ∀ a ∈ storing.log, a.array = .buckets → a.Within bucketCount := by decide +kernel
  exact ⟨storing, acts_storing, hstays, rfl⟩

theorem reachable_stored : stored.Reachable twoNodes :=
  reachable_published_second.tail steps_storing

def firstDownload : Traced Field (Option TriedOwners) :=
  handleRpcDownload (some (idOf false)) noNetwork.lookup noNetwork.put Disk.empty
    (stored.parties false).node namedFile 0

theorem download_genuine_stored :
    ∃ tried, firstDownload.val = some tried ∧ tried.contacted.length = 1 ∧
      ∀ p ∈ tried.contacted, Genuine twoNodes p := by
  have hinTable : ∀ a ∈ firstDownload.log, a.array = .buckets → a.Within bucketCount := by
    decide +kernel
  have hcontacted : firstDownload.val.map (fun tried => tried.contacted.length) = some 1 := by
    decide +kernel
  obtain ⟨tried, htried, hcontacted⟩ := Option.map_eq_some_iff.mp hcontacted
  exact ⟨tried, htried, hcontacted, download_genuine reachable_stored
    (fun k p session hsession => by cases hsession) ⟨hinTable, htried⟩⟩

end Kademlia.Protocol
