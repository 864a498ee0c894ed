import Kademlia.Model.Ownership
import Kademlia.Lookup.Termination

/-!
The memory and the sockets of a lookup.

While a lookup goes on, it answers for the blocks of its two vectors. When the
value is found, what is pending is freed and the owners take its place; the
socket that the value came over is never closed. Each function of the lookup
has one rule, which also says that its variables are those of the model without
pointers.
-/

namespace Kademlia.Lookup

open Foundations Foundations.Traced Model

variable {q : Search} {net : Network} {o : LookupMemory}
  {held rest : Multiset (Handle Resource)}

/-! ### Vectors -/

/-- The array of a vector and what its elements point to. -/
def arrayOf (vec : PointerVector) : Multiset (Handle Resource) := vec.array.toList

def elemsOf (vec : PointerVector) : Multiset (Handle Resource) := vec.elems.data

theorem push_owns (vec : PointerVector) (elem : Handle Resource)
    (held : Multiset (Handle Resource)) :
    Owns (vec.push elem) ({elem} + (arrayOf vec + elemsOf vec) + held) fun vec' held' =>
      vec'.elems.data = vec.elems.data ++ [elem] ∧
        held' = arrayOf vec' + elemsOf vec' + held := by
  rw [PointerVector.push]
  split
  · refine Owns.bind_releaseAll ({elem} + elemsOf vec + held) ?_ ?_
    · rw [arrayOf]
      abel
    refine Owns.bind_acquire fun data _ => Owns.pure ⟨rfl, ?_⟩
    simp only [arrayOf, elemsOf, Option.toList_some, Multiset.coe_singleton, data_vectorPush,
      ← Multiset.coe_add]
    abel
  · refine Owns.pure ⟨rfl, ?_⟩
    simp only [arrayOf, elemsOf, data_vectorPush, ← Multiset.coe_add, Multiset.coe_singleton]
    abel

theorem free_owns (vec : PointerVector) :
    Owns (vec.free true) (arrayOf vec + elemsOf vec + held) fun _ held' => held' = held := by
  rw [PointerVector.free, if_pos rfl]
  refine Owns.bind_releaseAll (arrayOf vec + held) ?_ Owns.releaseAll
  rw [arrayOf, elemsOf]
  abel

theorem free_false_owns (vec : PointerVector) :
    Owns (vec.free false) (arrayOf vec + held) fun _ held' => held' = held := by
  rw [PointerVector.free, if_neg Bool.false_ne_true]
  exact Owns.bind_releaseAll _ (Multiset.zero_add _).symm Owns.releaseAll

theorem handleReply_ignored {s : LookupState} {buf : Memory} {kvp : KeyValuePair}
    (hvalue : ¬ (q.findValue = true ∧
      buf.header.callType = RPCCallType.findValueResponse.code))
    (hnode : ¬ (q.findValue = false ∧
      buf.header.callType = RPCCallType.findNodeResponse.code)) :
    (handleReply q kvp buf s).val = s := by
  rw [handleReply, val_bind, if_neg hvalue, if_neg hnode]
  rfl

/-! ### While the lookup goes on -/

/-- Nothing was found yet, and the vectors are all that a lookup holds. -/
structure Searching (rest : Multiset (Handle Resource)) (o : LookupMemory)
    (held : Multiset (Handle Resource)) : Prop where
  valueFound : o.vars.valueFound = false
  out : o.out = []
  kinds : o.peers.elems.data.map Prod.fst = List.replicate o.vars.pending.data.length .block
  held : held = arrayOf o.peers + elemsOf o.peers + (arrayOf o.flags + elemsOf o.flags) + rest

theorem Searching.length (h : Searching rest o held) :
    o.peers.elems.data.length = o.vars.pending.data.length := by
  rw [← List.length_map (f := Prod.fst), h.kinds, List.length_replicate]

theorem Searching.mem_peers (h : Searching rest o held) {a : Handle Resource}
    (ha : a ∈ o.peers.elems.data) : a ∈ held := by
  rw [h.held]
  simp [elemsOf, ha]

theorem Searching.mem_flags (h : Searching rest o held) {a : Handle Resource}
    (ha : a ∈ o.flags.elems.data) : a ∈ held := by
  rw [h.held]
  simp [elemsOf, ha]

/-- The variables may change with the vectors staying as they are. -/
theorem Searching.vars (h : Searching rest o held) {vars : LookupState}
    (hfound : vars.valueFound = false)
    (hpending : vars.pending.data.length = o.vars.pending.data.length) :
    Searching rest { o with vars := vars } held :=
  ⟨hfound, h.out, by rw [hpending]; exact h.kinds, h.held⟩

theorem addPending_owns (h : Searching rest o held) {vars : LookupState}
    (hfound : vars.valueFound = false)
    (hpending : vars.pending.data.length = o.vars.pending.data.length + 1)
    {peer : Handle Resource} (hpeer : peer.1 = .block) :
    Owns (o.addPending vars peer) ({peer} + held) fun o' held' =>
      o'.vars = vars ∧ Searching rest o' held' := by
  rw [LookupMemory.addPending]
  refine Owns.bind (Owns.of_eq ?_ (push_owns o.peers peer
    (arrayOf o.flags + elemsOf o.flags + rest))) ?_
  · rw [h.held]
    abel
  rintro peers _ ⟨hpeers, rfl⟩
  refine Owns.bind_acquire fun flag _ => ?_
  refine Owns.bind (Owns.of_eq ?_ (push_owns o.flags flag
    (arrayOf peers + elemsOf peers + rest))) ?_
  · abel
  rintro flags _ ⟨-, rfl⟩
  refine Owns.pure ⟨rfl, hfound, h.out, ?_, ?_⟩
  · show peers.elems.data.map Prod.fst = List.replicate vars.pending.data.length _
    rw [hpeers, List.map_append, h.kinds, hpending, List.replicate_succ', List.map_singleton,
      hpeer]
  · show _ = arrayOf peers + elemsOf peers + (arrayOf flags + elemsOf flags) + rest
    abel

/-- What a function of the lookup leaves, when nothing was found in it. -/
abbrev Stands (rest : Multiset (Handle Resource)) (vars : LookupState) (o : LookupMemory)
    (held : Multiset (Handle Resource)) : Prop :=
  o.vars = vars ∧ Searching rest o held

theorem hearPeer_owns (h : Searching rest o held) (own : Option HashID) (newPeer : Peer) :
    Owns (o.hearPeer own newPeer) held (Stands rest (hearPeer own o.vars newPeer).val) := by
  rw [LookupMemory.hearPeer]
  refine Owns.bind_acquire fun pointer hpointer => ?_
  refine Owns.bind_useAll (fun a ha => Multiset.mem_add.mpr
    (Or.inr (h.mem_peers (List.mem_of_mem_take ha)))) ?_
  cases hexists : o.vars.pending.data.any fun q => q.peerId = newPeer.peerId with
  | true =>
      rw [if_pos rfl]
      refine Owns.bind_release _ rfl (Owns.pure ⟨rfl, h.vars ?_ ?_⟩)
      · simp only [hearPeer, val_bind, hexists, if_true, val_pure, h.valueFound]
      · simp only [hearPeer, val_bind, hexists, if_true, val_pure]
  | false =>
      rw [if_neg Bool.false_ne_true]
      refine addPending_owns h ?_ ?_ hpointer
      · simp only [hearPeer, val_bind, hexists, Bool.false_eq_true, if_false, val_pure,
          LookupState.addPending, h.valueFound]
      · simp only [hearPeer, val_bind, hexists, Bool.false_eq_true, if_false, val_pure,
          LookupState.addPending, data_vectorPush, List.length_append, List.length_singleton]

theorem hearPeers_owns (h : Searching rest o held) (own : Option HashID)
    (closest : ℕ → RPCPeer) (numClosest : ℕ) :
    Owns (o.hearPeers own closest numClosest) held
      (Stands rest (hearPeers own closest numClosest o.vars).val) := by
  simp only [hearPeers, val_bind, val_foldlM]
  refine Owns.foldlM _ (Stands rest) _ ⟨rfl, h⟩ ?_
  rintro _ o held j ⟨rfl, h⟩
  exact hearPeer_owns h own _

/-! ### When the value is found -/

/-- The owners were allocated, what was pending was freed, and a socket is still open. -/
structure ValueHeld (q : Search) (rest : Multiset (Handle Resource)) (o : LookupMemory)
    (held : Multiset (Handle Resource)) : Prop where
  valueFound : o.vars.valueFound = true
  findValue : q.findValue = true
  held : ∃ sock : Handle Resource, sock.1 = .socket ∧
    held = arrayOf o.peers + (arrayOf o.flags + elemsOf o.flags) + o.out + {sock} + rest

theorem takeValue_owns (h : Searching rest o held) (maxPeers : ℕ) (values : RPCKeyValue)
    (kvp : KeyValuePair) :
    Owns (o.takeValue maxPeers values kvp) held fun o' held' =>
      o'.vars = (takeValue maxPeers values kvp o.vars).val ∧ o'.vars.valueFound = true ∧
        held' = arrayOf o'.peers + (arrayOf o'.flags + elemsOf o'.flags) + o'.out + rest := by
  rw [LookupMemory.takeValue]
  refine Owns.bind Owns.acquireMany ?_
  rintro out _ rfl
  -- the owners are new, so none of them is pending
  refine Owns.of_nodup fun hnodup => ?_
  have hkept : o.peers.elems.data.filter (· ∉ out) = o.peers.elems.data := by
    rw [List.filter_eq_self]
    intro a ha
    rw [decide_eq_true_iff]
    intro hout
    exact Multiset.disjoint_left.mp (Multiset.nodup_add.mp hnodup).2.2 hout (h.mem_peers ha)
  rw [hkept]
  refine Owns.bind_releaseAll _ ?_ (Owns.pure ⟨rfl, rfl, rfl⟩)
  rw [h.held, elemsOf]
  abel

/-- What a contact leaves: the search goes on, or the value was found. -/
def Keeps (q : Search) (rest : Multiset (Handle Resource)) (vars : LookupState)
    (o : LookupMemory) (held : Multiset (Handle Resource)) : Prop :=
  o.vars = vars ∧ (Searching rest o held ∨ ValueHeld q rest o held)

/-- Every branch but that of `found_key` closes the socket. -/
theorem close_owns {sock : Handle Resource} {vars : LookupState}
    (h : Stands ({sock} + rest) vars o held) :
    Owns (do
      Owning.release sock
      pure o) held (Keeps q rest vars) := by
  obtain ⟨hvars, h⟩ := h
  refine Owns.bind_release _ ?_ (Owns.pure ⟨hvars, Or.inl ⟨h.valueFound, h.out, h.kinds, rfl⟩⟩)
  rw [h.held]
  abel

theorem handleReply_owns {sock : Handle Resource} (h : Searching ({sock} + rest) o held)
    (hsock : sock.1 = .socket) (kvp : KeyValuePair) (buf : Memory) :
    Owns (o.handleReply q kvp buf sock) held
      (Keeps q rest (handleReply q kvp buf o.vars).val) := by
  rw [LookupMemory.handleReply]
  split
  · next hvalue =>
      rw [handleReply_findValue hvalue.1, if_pos hvalue.2]
      dsimp only
      split
      · next hkey =>
          refine (takeValue_owns h _ _ kvp).mono ?_
          rintro o' _ ⟨hvars, hfound, rfl⟩
          refine ⟨hvars, Or.inr ⟨hfound, hvalue.1, sock, hsock, ?_⟩⟩
          abel
      · exact Owns.bind (hearPeers_owns h _ _ _) fun o' held' h' => close_owns h'
  · next hvalue =>
      split
      · next hnode =>
          rw [handleReply_findNode hnode.1, if_pos hnode.2]
          exact Owns.bind (hearPeers_owns h _ _ _) fun o' held' h' => close_owns h'
      · next hnode =>
          rw [handleReply_ignored hvalue hnode]
          exact close_owns ⟨rfl, h⟩

theorem contactPeer_owns (h : Searching rest o held) (session : Option Session) (p : Peer) :
    Owns (o.contactPeer q session p) held (Keeps q rest (contactPeer q session p o.vars).val) := by
  cases session with
  | none => exact Owns.pure ⟨rfl, Or.inl h⟩
  | some session =>
      rw [LookupMemory.contactPeer, contactPeer, val_bind]
      refine Owns.bind_acquire fun sock hsock => ?_
      have hopen : Searching ({sock} + rest)
          { o with vars := { o.vars with requests := o.vars.requests ++ [p] } }
          ({sock} + held) := by
        refine ⟨h.valueFound, h.out, h.kinds, ?_⟩
        rw [h.held]
        abel
      dsimp only
      cases hreply : (receiveReply session).val with
      | none => exact close_owns ⟨rfl, hopen⟩
      | some buf => exact handleReply_owns hopen hsock session.kvp buf

/-! ### The loops -/

/-- What holds before each step: when the value was found the inner loop was left. -/
def Steady (q : Search) (rest : Multiset (Handle Resource)) (o : LookupMemory)
    (held : Multiset (Handle Resource)) : Prop :=
  Searching rest o held ∨ ValueHeld q rest o held ∧ ∀ i, o.vars.position ≠ .inner i

theorem Steady.searching {i : ℕ} (h : Steady q rest o held)
    (hpos : o.vars.position = .inner i) : Searching rest o held :=
  h.resolve_right fun hfound => hfound.2 i hpos

theorem visit_owns (h : Searching rest o held) (i : ℕ) (p : Peer) :
    Owns (do
      let o' ← { o with vars := o.vars.mark i }.contactPeer q (net o.vars.contacts.length p) p
      if o'.vars.valueFound then pure { o' with vars := endSweep q o'.vars }
      else pure { o' with vars := { o'.vars with position := .inner (i + 1) } }) held
      fun o' held' =>
        o'.vars = (do
          let s ← contactPeer q (net o.vars.contacts.length p) p (o.vars.mark i)
          if s.valueFound then pure (endSweep q s)
          else pure { s with position := .inner (i + 1) } : Traced Field LookupState).val ∧
        Steady q rest o' held' := by
  have hmarked : Searching rest { o with vars := o.vars.mark i } held :=
    h.vars h.valueFound rfl
  refine Owns.bind (contactPeer_owns hmarked _ p) ?_
  rintro o' held' ⟨hvars, hkeeps⟩
  rw [val_bind, ← hvars]
  split
  · refine Owns.pure ⟨rfl, ?_⟩
    rcases hkeeps with h' | h'
    · exact Or.inl (h'.vars h'.valueFound rfl)
    · exact Or.inr ⟨⟨h'.valueFound, h'.findValue, h'.held⟩, fun j hj => by cases hj⟩
  · next hnot =>
      refine Owns.pure ⟨rfl, ?_⟩
      rcases hkeeps with h' | h'
      · exact Or.inl (h'.vars h'.valueFound rfl)
      · exact absurd h'.valueFound hnot

theorem step_owns (h : Steady q rest o held) :
    Owns (o.step q net) held fun o' held' =>
      o'.vars = (o.vars.step q net).val ∧ Steady q rest o' held' := by
  rw [LookupMemory.step]
  cases hpos : o.vars.position with
  | outer =>
      have hvars : (o.vars.step q net).val.valueFound = o.vars.valueFound ∧
          (o.vars.step q net).val.pending = o.vars.pending ∧
          (o.vars.valueFound = true → q.findValue = true →
            ∀ i, (o.vars.step q net).val.position ≠ .inner i) := by
        rw [LookupState.step, hpos]
        dsimp only
        split
        · next hgo =>
            refine ⟨rfl, rfl, fun hfound hfind => ?_⟩
            rcases hgo.2 with hnode | hnot
            · exact absurd hfind (by rw [hnode]; exact Bool.false_ne_true)
            · exact absurd hfound (by rw [hnot]; exact Bool.false_ne_true)
        · exact ⟨rfl, rfl, fun _ _ i hi => by cases hi⟩
      refine Owns.pure ⟨rfl, ?_⟩
      rcases h with h | ⟨h, -⟩
      · exact Or.inl (h.vars (hvars.1.trans h.valueFound) (by rw [hvars.2.1]))
      · exact Or.inr ⟨⟨hvars.1.trans h.valueFound, h.findValue, h.held⟩,
          hvars.2.2 h.valueFound h.findValue⟩
  | inner i =>
      have h := h.searching hpos
      dsimp only
      rw [LookupState.step, hpos]
      dsimp only
      split
      · refine Owns.bind_useAll (fun a ha => h.mem_flags ?_) ?_
        · exact List.mem_of_getElem? (Option.mem_toList.mp ha)
        have hskip : Steady q rest
            { o with vars := { o.vars with position := .inner (i + 1) } } held :=
          Or.inl (h.vars h.valueFound rfl)
        cases hp : vectorGet o.vars.pending i with
        | none => exact Owns.pure ⟨rfl, hskip⟩
        | some p =>
            cases hnew : vectorGet o.vars.contacted i with
            | none => exact Owns.pure ⟨rfl, hskip⟩
            | some contacted =>
                cases contacted with
                | true => exact Owns.pure ⟨rfl, hskip⟩
                | false =>
                    refine Owns.bind_useAll (fun a ha => h.mem_peers ?_) (visit_owns h i p)
                    exact List.mem_of_getElem? (Option.mem_toList.mp ha)
      · exact Owns.pure ⟨rfl, Or.inl (h.vars h.valueFound rfl)⟩
  | exit =>
      refine Owns.pure ⟨?_, h⟩
      rw [LookupState.step, hpos]
      rfl

theorem run_owns (h : Steady q rest o held) (n : ℕ) :
    Owns (o.run q net n) held fun o' held' =>
      o'.vars = after q net n o.vars ∧ Steady q rest o' held' := by
  induction n generalizing o held with
  | zero => exact Owns.pure ⟨rfl, h⟩
  | succ n ih =>
      refine Owns.bind (step_owns h) ?_
      rintro o' held' ⟨hvars, h'⟩
      rw [after_succ, ← hvars]
      exact ih h'

/-! ### Before the loops -/

theorem findClosestPeers_of_dropsResult (buckets : Buckets) (n : ℕ)
    (h : q.dropsResult = true) : (findClosestPeers q.own buckets q.targetKey n).val = none := by
  rw [Search.dropsResult] at h
  cases hown : q.own with
  | none => rfl
  | some ownId =>
      rw [hown] at h
      rw [findClosestPeers, if_pos (of_decide_eq_true h)]
      rfl

/-- The array of `find_closest_peers`, when it is neither returned nor freed. -/
def lostResult (q : Search) : Multiset Resource := if q.dropsResult then {.block} else 0

theorem start_owns (q : Search) (buckets : Buckets) (outPeers : ℕ → Option Peer) :
    Owns (LookupMemory.start q buckets outPeers) held fun o held' =>
      o.vars = LookupState.start (initialPeers q buckets).val outPeers buckets ∧
        ∃ lost : Multiset (Handle Resource), lost.map Prod.fst = lostResult q ∧
          Searching (lost + held) o held' := by
  rw [LookupMemory.start]
  refine Owns.bind_acquire fun result hresult => ?_
  have hempty : Searching ({result} + held)
      ⟨LookupState.empty outPeers buckets, .init, .init, []⟩ ({result} + held) :=
    ⟨rfl, rfl, rfl, by simp [arrayOf, elemsOf, PointerVector.init]⟩
  rw [initialPeers, val_bind, val_pure]
  dsimp only
  cases hclosest : (findClosestPeers q.own buckets q.targetKey kValue).val with
  | none =>
      dsimp only
      cases hdrops : q.dropsResult with
      | true =>
          rw [if_pos rfl]
          refine Owns.bind_releaseAll _ (Multiset.zero_add _).symm (Owns.pure ⟨rfl, {result}, ?_⟩)
          rw [lostResult, hdrops, if_pos rfl, Multiset.map_singleton, hresult]
          exact ⟨rfl, hempty⟩
      | false =>
          rw [if_neg Bool.false_ne_true]
          refine Owns.bind_releaseAll held (by rw [Multiset.coe_singleton])
            (Owns.pure ⟨rfl, 0, ?_, ?_⟩)
          · rw [lostResult, hdrops, if_neg Bool.false_ne_true, Multiset.map_zero]
          · exact ⟨rfl, rfl, rfl, by simp [arrayOf, elemsOf, PointerVector.init]⟩
  | some initial =>
      have hkeeps : q.dropsResult = false := by
        cases hdrops : q.dropsResult with
        | false => rfl
        | true =>
            rw [findClosestPeers_of_dropsResult buckets kValue hdrops] at hclosest
            cases hclosest
      dsimp only
      refine Owns.bind (Owns.foldlM LookupState.addPending (Stands ({result} + held)) _
        ⟨rfl, hempty⟩ ?_) ?_
      · rintro _ o held' peer ⟨rfl, h⟩
        refine Owns.bind_use (by rw [h.held]; simp) ?_
        refine Owns.bind_acquire fun copy hcopy => ?_
        refine addPending_owns h ?_ ?_ hcopy
        · exact h.valueFound
        · rw [LookupState.addPending, data_vectorPush, List.length_append, List.length_singleton]
      · rintro o held' ⟨hvars, h⟩
        refine Owns.bind_release (arrayOf o.peers + elemsOf o.peers +
          (arrayOf o.flags + elemsOf o.flags) + held) ?_ (Owns.pure ⟨hvars, 0, ?_, ?_⟩)
        · rw [h.held]
          abel
        · rw [lostResult, hkeeps, if_neg Bool.false_ne_true, Multiset.map_zero]
        · exact ⟨h.valueFound, h.out, h.kinds, by rw [Multiset.zero_add]⟩

/-! ### Behind the loops -/

/-- What the loops leave for good: the socket that the value came over, or everything pending
when no value came. -/
def loopLeaks (q : Search) (found : LookupResult) : Multiset Resource :=
  if q.findValue = false then 0
  else if found.ret = 0 then {.socket}
  else Multiset.replicate found.last.pending.size .block

/-- What is left of a lookup when it is over: what the caller got, and what it leaked. -/
def Leaves (rest : Multiset (Handle Resource)) (leaks : Multiset Resource)
    (pointers : List (Handle Resource)) (held : Multiset (Handle Resource)) : Prop :=
  ∃ leaked : Multiset (Handle Resource), leaked.map Prod.fst = leaks ∧
    held = pointers + leaked + rest

/-- Both vectors are freed, and of what they point to only the flags. -/
theorem freeBoth_owns {α : Type} {x : α} {post : α → Multiset (Handle Resource) → Prop}
    (rest : Multiset (Handle Resource))
    (hheld : held = arrayOf o.peers + (arrayOf o.flags + elemsOf o.flags) + rest)
    (h : post x rest) :
    Owns (do
      o.peers.free false
      o.flags.free true
      pure x) held post := by
  rw [Multiset.add_assoc] at hheld
  refine Owns.of_eq hheld (Owns.bind (free_false_owns o.peers) ?_)
  rintro _ _ rfl
  refine Owns.bind (free_owns o.flags) ?_
  rintro _ _ rfl
  exact Owns.pure h

theorem ret_finish (hfind : q.findValue = true) (s : LookupState) :
    (s.finish q).ret = if s.valueFound then 0 else -1 := by
  rw [LookupState.finish, if_pos hfind]

theorem last_finish (s : LookupState) : (s.finish q).last = s := by
  rw [LookupState.finish]
  split <;> rfl

theorem loopLeaks_of_found {s : LookupState} (hfind : q.findValue = true)
    (hfound : s.valueFound = true) : loopLeaks q (s.finish q) = {.socket} := by
  rw [loopLeaks, hfind, if_neg Bool.true_eq_false.mp, ret_finish hfind, if_pos hfound,
    if_pos rfl]

theorem loopLeaks_of_not_found {s : LookupState} (hfind : q.findValue = true)
    (hfound : s.valueFound = false) :
    loopLeaks q (s.finish q) = Multiset.replicate s.pending.size .block := by
  rw [loopLeaks, hfind, if_neg Bool.true_eq_false.mp, ret_finish hfind, hfound,
    if_neg Bool.false_ne_true, if_neg (by decide), last_finish]

theorem sorted_perm (h : Searching rest o held) : (o.sorted q).Perm o.peers.elems.data := by
  rw [LookupMemory.sorted, data_vectorSort]
  refine ((BubbleSort.sort_perm _ _).map Prod.snd).trans ?_
  rw [List.map_snd_zip h.length.le]

/-- The value was found. -/
theorem finishIn_found (h : ValueHeld q rest o held) :
    Owns (o.finish q) held fun found held' =>
      found.1 = o.vars.finish q ∧ Leaves rest (loopLeaks q found.1) found.2 held' := by
  obtain ⟨sock, hsock, hheld⟩ := h.held
  rw [LookupMemory.finish, if_pos h.findValue]
  refine freeBoth_owns (o.out + {sock} + rest) ?_ ⟨rfl, {sock}, ?_, rfl⟩
  · rw [hheld]
    abel
  · rw [loopLeaks_of_found h.findValue h.valueFound, Multiset.map_singleton, hsock]

/-- No value came: nothing that is pending is freed. -/
theorem finishIn_not_found (hfind : q.findValue = true) (h : Searching rest o held) :
    Owns (o.finish q) held fun found held' =>
      found.1 = o.vars.finish q ∧ Leaves rest (loopLeaks q found.1) found.2 held' ∧
        found.2 = [] := by
  rw [LookupMemory.finish, if_pos hfind]
  refine freeBoth_owns (elemsOf o.peers + rest) ?_ ⟨rfl, ⟨elemsOf o.peers, ?_, ?_⟩, h.out⟩
  · rw [h.held]
    abel
  · rw [loopLeaks_of_not_found hfind h.valueFound, elemsOf, Multiset.map_coe, h.kinds]
    rfl
  · rw [h.out, Multiset.coe_nil, Multiset.zero_add]

/-- What is sorted goes to the caller, up to the number asked for, and the rest is freed. -/
theorem finishIn_findNode (hfind : q.findValue = false) (h : Searching rest o held) :
    Owns (o.finish q) held fun found held' =>
      found.1 = o.vars.finish q ∧ Leaves rest (loopLeaks q found.1) found.2 held' ∧
        found.2.map Prod.fst = List.replicate (min q.maxPeers o.vars.pending.size) .block := by
  have hsorted : (o.sorted q).Perm o.peers.elems.data := sorted_perm h
  have hsplit : elemsOf o.peers = ↑((o.sorted q).drop q.maxPeers) +
      (↑((o.sorted q).take q.maxPeers) : Multiset (Handle Resource)) := by
    rw [Multiset.add_comm, Multiset.coe_add, List.take_append_drop, elemsOf]
    exact Multiset.coe_eq_coe.mpr hsorted.symm
  rw [LookupMemory.finish, if_neg (by rw [hfind]; exact Bool.false_ne_true)]
  refine Owns.bind_useAll (fun a ha => h.mem_peers ha) ?_
  refine Owns.bind_releaseAll (arrayOf o.peers + (arrayOf o.flags + elemsOf o.flags) +
    (↑((o.sorted q).take q.maxPeers) + rest)) ?_ ?_
  · rw [h.held, hsplit]
    abel
  refine freeBoth_owns _ rfl ⟨rfl, ⟨0, ?_, ?_⟩, ?_⟩
  · rw [loopLeaks, if_pos hfind, Multiset.map_zero]
  · rw [Multiset.add_zero]
  · have hkinds := (hsorted.map Prod.fst).trans (List.Perm.of_eq h.kinds)
    rw [List.map_take, List.perm_replicate.mp hkinds, List.take_replicate]
    rfl

/-! ### The whole lookup -/

def lookupLeaks (q : Search) (found : LookupResult) : Multiset Resource :=
  lostResult q + loopLeaks q found

/-- The caller gets the blocks of the peers that were sorted, and nothing when the lookup
fails. -/
structure GivesPeers (q : Search) (found : LookupResult) (pointers : List (Handle Resource)) :
    Prop where
  ret : q.findValue = false → found.ret = 0
  kinds : q.findValue = false → pointers.map Prod.fst =
    List.replicate (min q.maxPeers found.last.pending.size) .block
  none : found.ret ≠ 0 → pointers = []

theorem finish_owns (h : Steady q rest o held) :
    Owns (o.finish q) held fun found held' =>
      found.1 = o.vars.finish q ∧ Leaves rest (loopLeaks q found.1) found.2 held' ∧
        GivesPeers q found.1 found.2 := by
  cases hfind : q.findValue with
  | true =>
      have hnode : q.findValue ≠ false := by rw [hfind]; exact Bool.true_eq_false.mp
      rcases h with h | ⟨h, -⟩
      · refine (finishIn_not_found hfind h).mono ?_
        rintro ⟨found, pointers⟩ held' ⟨rfl, hleaves, hnone⟩
        exact ⟨rfl, hleaves, fun hfalse => absurd hfalse hnode, fun hfalse => absurd hfalse hnode,
          fun _ => hnone⟩
      · refine (finishIn_found h).mono ?_
        rintro ⟨found, pointers⟩ held' ⟨rfl, hleaves⟩
        refine ⟨rfl, hleaves, fun hfalse => absurd hfalse hnode, fun hfalse => absurd hfalse hnode,
          fun hret => absurd ?_ hret⟩
        rw [ret_finish hfind, if_pos h.valueFound]
  | false =>
      rcases h with h | ⟨h, -⟩
      · refine (finishIn_findNode hfind h).mono ?_
        rintro ⟨found, pointers⟩ held' ⟨rfl, hleaves, hkinds⟩
        have hret : (o.vars.finish q).ret = 0 := by
          rw [LookupState.finish, if_neg (by rw [hfind]; exact Bool.false_ne_true)]
        refine ⟨rfl, hleaves, fun _ => hret, fun _ => ?_, fun hne => absurd hret hne⟩
        rw [last_finish]
        exact hkinds
      · exact absurd h.findValue (by rw [hfind]; exact Bool.false_ne_true)

/-- Nothing is released twice or used when it was released, at no point of a lookup; it goes on
as it does without pointers, and when it is over it has leaked what `lookupLeaks` lists. -/
theorem iterativeFindPeers_owns (hmax : q.maxPeers ≠ 0) (net : Network) (buckets : Buckets)
    (outPeers : ℕ → Option Peer) (fuel : ℕ) :
    Owns (iterativeFindPeersIn q net buckets outPeers fuel) held fun found held' =>
      found.map Prod.fst = (iterativeFindPeers q net buckets outPeers fuel).val ∧
        ∀ result pointers, found = some (result, pointers) →
          Leaves held (lookupLeaks q result) pointers held' ∧ GivesPeers q result pointers := by
  rw [iterativeFindPeersIn, if_neg hmax]
  refine Owns.bind (start_owns q buckets outPeers) ?_
  rintro o _ ⟨hvars, lost, hlost, hstart⟩
  refine Owns.bind (run_owns (Or.inl hstart) fuel) ?_
  rintro o' _ ⟨hvars', hsteady⟩
  have hval : (iterativeFindPeers q net buckets outPeers fuel).val =
      if o'.vars.position = .exit then some (o'.vars.finish q) else none := by
    rw [hvars', hvars, after, iterativeFindPeers, if_neg hmax]
    rfl
  rw [hval]
  split
  · refine Owns.bind (finish_owns hsteady) ?_
    rintro ⟨result, pointers⟩ _ ⟨hresult, ⟨leaked, hkinds, rfl⟩, hgives⟩
    refine Owns.pure ⟨congrArg some hresult, ?_⟩
    rintro _ _ ⟨rfl, rfl⟩
    refine ⟨⟨lost + leaked, ?_, ?_⟩, hgives⟩
    · rw [Multiset.map_add, hlost, hkinds, lookupLeaks]
    · abel
  · exact Owns.pure ⟨rfl, by rintro _ _ hnone; cases hnone⟩

end Kademlia.Lookup
