import Kademlia.Model.Connections

/-!
The connection table over the rounds of the network thread.

In every reachable table the first two slots hold the server sockets, no
descriptor is held twice, and a free slot has nothing to report. The search
for a free slot stops inside the table exactly when there is one.
-/

namespace Kademlia.Connections

open Foundations Foundations.Traced Model

/-! ### The search -/

theorem val_searchFree (fds : List ℤ) (i : ℕ) :
    (searchFree fds i).val = i + fds.findIdx (· == -1) := by
  induction fds generalizing i with
  | nil => rfl
  | cons fd fds ih =>
      rw [searchFree, val_bind, List.findIdx_cons]
      by_cases hfree : fd = -1
      · simp [hfree]
      · rw [if_pos hfree, ih]
        simp only [beq_eq_false_iff_ne.mpr hfree, cond_false]
        omega

theorem stays_searchFree (fds : List ℤ) (i size : ℕ) :
    (searchFree fds i).Stays .sockArray size ↔ i + fds.findIdx (· == -1) < size := by
  induction fds generalizing i with
  | nil => simp [searchFree]
  | cons fd fds ih =>
      rw [searchFree, stays_bind, stays_touch, List.findIdx_cons]
      by_cases hfree : fd = -1
      · simp [hfree]
      · rw [if_pos hfree, ih]
        simp only [beq_eq_false_iff_ne.mpr hfree, cond_false, forall_const]
        omega

section Table

variable {table : SockArray}

@[simp] theorem length_fds : table.fds.length = maxSock := by simp [SockArray.fds]

@[simp] theorem getElem_fds {i : ℕ} (h : i < table.fds.length) :
    table.fds[i] = (table ⟨i, by simpa using h⟩).fd := by
  simp [SockArray.fds]

theorem findIdx_fds_lt_iff : table.fds.findIdx (· == -1) < maxSock ↔ ∃ i, (table i).fd = -1 := by
  have hlt : table.fds.findIdx (· == -1) < table.fds.length ↔ _ := List.findIdx_lt_length
  rw [length_fds] at hlt
  rw [hlt]
  simp [SockArray.fds, List.mem_ofFn]

/-- What lies behind the table is read exactly if the table is full. -/
theorem findIdx_append_behind_lt_iff (behind : List ℤ) :
    (table.fds ++ behind).findIdx (· == -1) < maxSock ↔ ∃ i, (table i).fd = -1 := by
  rw [← findIdx_fds_lt_iff, List.findIdx_append, length_fds]
  split_ifs with h
  · rfl
  · omega

theorem fd_findIdx_append_behind {behind : List ℤ}
    (h : (table.fds ++ behind).findIdx (· == -1) < maxSock) :
    (table ⟨_, h⟩).fd = -1 ∧ ∀ i, i.val < (table.fds ++ behind).findIdx (· == -1) →
      (table i).fd ≠ -1 := by
  have hlen : (table.fds ++ behind).findIdx (· == -1) < table.fds.length := by simpa using h
  constructor
  · have hfound := List.findIdx_getElem
      (w := show (table.fds ++ behind).findIdx (· == -1) < (table.fds ++ behind).length by
        rw [List.length_append]
        omega)
    rw [List.getElem_append_left hlen, getElem_fds] at hfound
    simpa using hfound
  · intro i hi hfree
    have hnot := List.not_of_lt_findIdx hi
    rw [List.getElem_append_left (by simp), getElem_fds] at hnot
    simp [hfree] at hnot

theorem place_of_free (h : ∃ i, (table i).fd = -1) (newFd : ℤ) (behind : List ℤ) :
    ∃ i, (table i).fd = -1 ∧ (∀ j < i, (table j).fd ≠ -1) ∧
      (table.place newFd behind).val = (Function.update table i ⟨newFd, pollIn, 0⟩, []) ∧
      (table.place newFd behind).Stays .sockArray maxSock := by
  have hlt := (findIdx_append_behind_lt_iff behind).mpr h
  obtain ⟨hfree, hfirst⟩ := fd_findIdx_append_behind hlt
  refine ⟨⟨_, hlt⟩, hfree, hfirst, ?_, ?_⟩
  · simp [SockArray.place, val_searchFree, hlt]
  · simp [SockArray.place, stays_searchFree, val_searchFree, hlt]

theorem place_of_full (h : ∀ i, (table i).fd ≠ -1) (newFd : ℤ) (behind : List ℤ) :
    (table.place newFd behind).val = (table, [newFd]) ∧
      ¬ (table.place newFd behind).Stays .sockArray maxSock := by
  have hlt : ¬ (table.fds ++ behind).findIdx (· == -1) < maxSock := by
    rw [findIdx_append_behind_lt_iff, not_exists]
    exact h
  constructor
  · simp [SockArray.place, val_searchFree, hlt]
  · simp [SockArray.place, stays_searchFree, val_searchFree, hlt]

end Table

/-! ### Reachable tables -/

structure TableOk (server : ServerSockets) (table : SockArray) : Prop where
  listen : (table 0).fd = server.listenFd
  broad : (table 1).fd = server.broadFd
  held : ∀ i, (table i).fd = -1 ∨ 0 ≤ (table i).fd
  distinct : ∀ i j, (table i).fd = (table j).fd → (table i).fd ≠ -1 → i = j
  idle : ∀ i, (table i).fd = -1 → (table i).revents = 0

/-- A slot that kept its descriptor, or was freed, and reports nothing if free. -/
def Kept (before after : PollFd) (i : Fin maxSock) : Prop :=
  after.fd = before.fd ∧ (before.fd = -1 → after.revents = 0) ∨ after = freeSlot ∧ 2 ≤ i.val

section Steps

variable {server : ServerSockets} {table table' : SockArray}

theorem tableOk_initNetwork (server : ServerSockets) : TableOk server (initNetwork server) := by
  have hlisten := server.listenFd_nonneg
  have hbroad := server.broadFd_nonneg
  refine ⟨rfl, rfl, fun i => ?_, fun i j => ?_, fun i => ?_⟩
  · unfold initNetwork
    split_ifs
    exacts [.inr hlisten, .inr hbroad, .inl rfl]
  · have hne := server.distinct
    unfold initNetwork
    split_ifs <;> simp_all [freeSlot]
    exact fun heq => absurd heq.symm hne
  · unfold initNetwork
    split_ifs <;> intro <;> rfl

theorem TableOk.of_kept (h : TableOk server table) (hkept : ∀ i, Kept (table i) (table' i) i) :
    TableOk server table' := by
  have hfd : ∀ i, (table' i).fd = (table i).fd ∨ (table' i).fd = -1 := fun i =>
    (hkept i).imp And.left fun hfree => by rw [hfree.1]; rfl
  have hserver : ∀ i : Fin maxSock, i.val < 2 → (table' i).fd = (table i).fd := fun i hi =>
    (hkept i).elim And.left fun hfree => absurd hfree.2 (by omega)
  refine ⟨?_, ?_, fun i => ?_, fun i j heq hheld => ?_, fun i hfree => ?_⟩
  · rw [hserver 0 (by decide), h.listen]
  · rw [hserver 1 (by decide), h.broad]
  · rcases hfd i with hi | hi <;> rw [hi]
    · exact h.held i
    · exact .inl rfl
  · have hi := (hfd i).resolve_right hheld
    have hj := (hfd j).resolve_right (by rwa [← heq])
    rw [hi, hj] at heq
    exact h.distinct i j heq (by rwa [← hi])
  · rcases hkept i with ⟨hsame, hidle⟩ | ⟨hfreed, -⟩
    · exact hidle (by rw [← hsame, hfree])
    · rw [hfreed]
      rfl

theorem kept_poll (h : TableOk server table) (found : Option (Fin maxSock → UInt16))
    (i : Fin maxSock) : Kept (table i) (table.poll found i) i := by
  cases found with
  | none => exact .inl ⟨rfl, h.idle i⟩
  | some revents =>
      refine .inl ⟨rfl, fun hfree => ?_⟩
      simp [SockArray.poll, hfree]


/-- The iteration of `handle_connected` for a slot keeps its descriptor or frees the slot. -/
theorem fd_handleConnected (slot : PollFd) (peeked : ℤ) :
    (slot.handleConnected peeked).1.fd = slot.fd ∧
        (slot.revents = 0 → (slot.handleConnected peeked).1.revents = 0) ∨
      (slot.handleConnected peeked).1 = freeSlot := by
  unfold PollFd.handleConnected
  by_cases hhup : slot.revents &&& pollHup ≠ 0
  · right
    simp [hhup, freeSlot, pollIn]
  · by_cases hin : slot.revents &&& pollIn ≠ 0
    · by_cases hpeek : peeked ≤ 0
      · right
        simp [hhup, hin, hpeek]
      · left
        simp [hhup, hin, hpeek]
    · left
      simp [hhup, hin]

theorem kept_handleConnected (h : TableOk server table) (peeked : Fin maxSock → ℤ)
    (i : Fin maxSock) : Kept (table i) ((table.handleConnected peeked).1 i) i := by
  unfold SockArray.handleConnected
  dsimp only
  split_ifs with hi
  · exact .inl ⟨rfl, h.idle i⟩
  · rcases fd_handleConnected (table i) (peeked i) with ⟨hfd, hrevents⟩ | hfree
    · exact .inl ⟨hfd, fun hi => hrevents (h.idle i hi)⟩
    · exact .inr ⟨hfree, by omega⟩

theorem TableOk.update (h : TableOk server table) {i : Fin maxSock} (hi : (table i).fd = -1)
    {newFd : ℤ} (hnonneg : 0 ≤ newFd) (hnew : ∀ j, (table j).fd ≠ newFd) :
    TableOk server (Function.update table i ⟨newFd, pollIn, 0⟩) := by
  have h0 : (0 : Fin maxSock) ≠ i := by
    rintro rfl
    have := server.listenFd_nonneg
    have := h.listen
    omega
  have h1 : (1 : Fin maxSock) ≠ i := by
    rintro rfl
    have := server.broadFd_nonneg
    have := h.broad
    omega
  refine ⟨?_, ?_, fun j => ?_, fun j k heq hheld => ?_, fun j hfree => ?_⟩
  · rw [Function.update_of_ne h0, h.listen]
  · rw [Function.update_of_ne h1, h.broad]
  · by_cases hj : j = i
    · subst hj
      rw [Function.update_self]
      exact .inr hnonneg
    · rw [Function.update_of_ne hj]
      exact h.held j
  · simp only [Function.update_apply] at heq hheld
    split_ifs at heq hheld with hj hk hk
    · rw [hj, hk]
    · exact absurd heq.symm (hnew k)
    · exact absurd heq (hnew j)
    · exact h.distinct j k heq hheld
  · by_cases hj : j = i
    · subst hj
      rw [Function.update_self]
    · rw [Function.update_of_ne hj] at hfree ⊢
      exact h.idle j hfree

/-! ### What `handle_incoming` does -/

def Arrives (table : SockArray) (round : Round) : Prop :=
  (table 0).revents &&& pollIn ≠ 0 ∧ 0 ≤ table.accept round.accept

theorem accept_eq {newFd : ℤ} (h : 0 ≤ table.accept newFd) :
    table.accept newFd = newFd ∧ ∀ i, (table i).fd ≠ newFd := by
  unfold SockArray.accept at h ⊢
  split_ifs at h ⊢ with hheld
  · omega
  · exact ⟨rfl, not_exists.mp hheld⟩

/-- The same slot, up to `revents`. -/
def Cleared (before after : PollFd) : Prop := after = before ∨ after = { before with revents := 0 }

theorem Cleared.fd_eq {before after : PollFd} (h : Cleared before after) : after.fd = before.fd := by
  rcases h with rfl | rfl <;> rfl

theorem cleared_clear (table : SockArray) (i j : Fin maxSock) :
    Cleared (table j) (table.clear i j) := by
  by_cases hj : j = i
  · subst hj
    rw [SockArray.clear, Function.update_self]
    exact .inr rfl
  · rw [SockArray.clear, Function.update_of_ne hj]
    exact .inl rfl

theorem Cleared.trans {a b c : PollFd} (h : Cleared a b) (h' : Cleared b c) : Cleared a c := by
  rcases h with rfl | rfl <;> rcases h' with rfl | rfl
  exacts [.inl rfl, .inr rfl, .inr rfl, .inr rfl]

theorem cleared_broadcastIncoming (table : SockArray) (i : Fin maxSock) :
    Cleared (table i) (table.broadcastIncoming i) := by
  unfold SockArray.broadcastIncoming
  split_ifs
  · exact cleared_clear table 1 i
  · exact .inl rfl

theorem val_handleIncoming (table : SockArray) (round : Round) :
    (table.handleIncoming round).val =
      ((table.acceptIncoming round).val.1.broadcastIncoming,
        (table.acceptIncoming round).val.2) := rfl

theorem stays_handleIncoming (table : SockArray) (round : Round) :
    (table.handleIncoming round).Stays .sockArray maxSock ↔
      (table.acceptIncoming round).Stays .sockArray maxSock := by
  rw [SockArray.handleIncoming, stays_bind, and_iff_left (stays_pure _ _ _)]

theorem acceptIncoming_of_arrives {round : Round} (h : Arrives table round) :
    (table.acceptIncoming round).val =
        ((table.place round.accept round.behind).val.1.clear 0,
          (table.place round.accept round.behind).val.2) ∧
      ((table.acceptIncoming round).Stays .sockArray maxSock ↔
        (table.place round.accept round.behind).Stays .sockArray maxSock) := by
  rw [SockArray.acceptIncoming, if_pos h.1, if_pos h.2, (accept_eq h.2).1, stays_bind,
    and_iff_left (stays_pure _ _ _), val_bind, val_pure]
  exact ⟨rfl, Iff.rfl⟩

theorem handleIncoming_of_arrives {round : Round} (h : Arrives table round) :
    (∀ i, Cleared ((table.place round.accept round.behind).val.1 i)
        ((table.handleIncoming round).val.1 i)) ∧
      (table.handleIncoming round).val.2 = (table.place round.accept round.behind).val.2 ∧
      ((table.handleIncoming round).Stays .sockArray maxSock ↔
        (table.place round.accept round.behind).Stays .sockArray maxSock) := by
  obtain ⟨hval, hstays⟩ := acceptIncoming_of_arrives h
  rw [val_handleIncoming, stays_handleIncoming, hval]
  generalize (table.place round.accept round.behind).val = placed
  exact ⟨fun i => (cleared_clear placed.1 0 i).trans (cleared_broadcastIncoming _ i), rfl, hstays⟩

theorem handleIncoming_of_not_arrives {round : Round} (h : ¬ Arrives table round) :
    (∀ i, Cleared (table i) ((table.handleIncoming round).val.1 i)) ∧
      (table.handleIncoming round).Stays .sockArray maxSock := by
  rw [val_handleIncoming, stays_handleIncoming, SockArray.acceptIncoming]
  by_cases hready : (table 0).revents &&& pollIn ≠ 0
  · have hneg : ¬ table.accept round.accept ≥ 0 := fun hnonneg => h ⟨hready, hnonneg⟩
    rw [if_pos hready, if_neg hneg]
    exact ⟨fun i => (cleared_clear table 0 i).trans (cleared_broadcastIncoming _ i), by simp⟩
  · rw [if_neg hready]
    exact ⟨fun i => cleared_broadcastIncoming table i, by simp⟩

theorem tableOk_cleared (h : TableOk server table) (hcleared : ∀ i, Cleared (table i) (table' i)) :
    TableOk server table' := by
  refine h.of_kept fun i => .inl ⟨(hcleared i).fd_eq, fun hfree => ?_⟩
  rcases hcleared i with hi | hi
  · rw [hi, h.idle i hfree]
  · rw [hi]

theorem TableOk.place (h : TableOk server table) {newFd : ℤ} (hnonneg : 0 ≤ newFd)
    (hnew : ∀ j, (table j).fd ≠ newFd) (behind : List ℤ) :
    TableOk server (table.place newFd behind).val.1 := by
  by_cases hfree : ∃ i, (table i).fd = -1
  · obtain ⟨i, hi, -, hplace, -⟩ := place_of_free hfree newFd behind
    rw [hplace]
    exact h.update hi hnonneg hnew
  · rw [(place_of_full (not_exists.mp hfree) newFd behind).1]
    exact h

theorem TableOk.handleIncoming (h : TableOk server table) (round : Round) :
    TableOk server (table.handleIncoming round).val.1 := by
  by_cases harrives : Arrives table round
  · have hnew := accept_eq harrives.2
    have hnonneg := harrives.2
    rw [hnew.1] at hnonneg
    exact tableOk_cleared (h.place hnonneg hnew.2 round.behind)
      (handleIncoming_of_arrives harrives).1
  · exact tableOk_cleared h (handleIncoming_of_not_arrives harrives).1

theorem TableOk.updateNetwork (h : TableOk server table) (round : Round) :
    TableOk server (updateNetwork table round).2 := by
  have hpolled := h.of_kept (kept_poll h round.poll)
  have hincoming := hpolled.handleIncoming round
  exact hincoming.of_kept (kept_handleConnected hincoming round.peeked)

theorem tableOk_run (server : ServerSockets) (rounds : List Round) :
    TableOk server (updateNetwork.run (initNetwork server) rounds).2 := by
  have hstep : ∀ (table : SockArray) (round : Round), TableOk server table → True →
      TableOk server (updateNetwork table round).2 := fun _ round h _ => h.updateNetwork round
  exact Machine.invariant hstep (tableOk_initNetwork server) Machine.meets_true

/-! ### Accepting a connection -/

/-- What one call of `handle_incoming` owes the table. -/
structure AcceptOk (table : SockArray) (round : Round) : Prop where
  reads : (table.handleIncoming round).Stays .sockArray maxSock
  stores : ∀ i, ((table.handleIncoming round).val.1 i).fd ≠ (table i).fd →
    2 ≤ i.val ∧ (table i).fd = -1 ∧ ((table.handleIncoming round).val.1 i).fd = round.accept
  full : Arrives table round → (∀ i, (table i).fd ≠ -1) →
    (table.handleIncoming round).val.2 = [round.accept] ∧
      ∀ i, Cleared (table i) ((table.handleIncoming round).val.1 i)

theorem TableOk.two_le_of_free (h : TableOk server table) {i : Fin maxSock}
    (hi : (table i).fd = -1) : 2 ≤ i.val := by
  have hlisten := server.listenFd_nonneg
  have hbroad := server.broadFd_nonneg
  by_contra hlt
  have hcases : i = 0 ∨ i = 1 := by
    rcases (show i.val = 0 ∨ i.val = 1 by omega) with h0 | h1
    · exact .inl (Fin.ext h0)
    · exact .inr (Fin.ext h1)
  rcases hcases with rfl | rfl
  · rw [h.listen] at hi
    omega
  · rw [h.broad] at hi
    omega

theorem acceptOk_iff_stays (h : TableOk server table) (round : Round) :
    AcceptOk table round ↔ (table.handleIncoming round).Stays .sockArray maxSock := by
  refine ⟨AcceptOk.reads, fun hreads => ⟨hreads, fun i hi => ?_, fun harrives hfull => ?_⟩⟩
  · by_cases harrives : Arrives table round
    · obtain ⟨hcleared, -, hstays⟩ := handleIncoming_of_arrives harrives
      rw [(hcleared i).fd_eq] at hi ⊢
      by_cases hfree : ∃ i, (table i).fd = -1
      · obtain ⟨k, hk, -, hplace, -⟩ := place_of_free hfree round.accept round.behind
        simp only [hplace, Function.update_apply] at hi ⊢
        split_ifs at hi ⊢ with hik
        · rw [hik]
          exact ⟨h.two_le_of_free hk, hk, rfl⟩
        · exact absurd rfl hi
      · rw [(place_of_full (not_exists.mp hfree) round.accept round.behind).1] at hi
        exact absurd rfl hi
    · exact absurd ((handleIncoming_of_not_arrives harrives).1 i).fd_eq hi
  · obtain ⟨hcleared, hclosed, -⟩ := handleIncoming_of_arrives harrives
    rw [(place_of_full hfull round.accept round.behind).1] at hcleared hclosed
    exact ⟨hclosed, hcleared⟩

theorem acceptOk_iff (h : TableOk server table) (round : Round) :
    AcceptOk table round ↔ (Arrives table round → ∃ i, (table i).fd = -1) := by
  rw [acceptOk_iff_stays h]
  by_cases harrives : Arrives table round
  · rw [(handleIncoming_of_arrives harrives).2.2]
    by_cases hfree : ∃ i, (table i).fd = -1
    · obtain ⟨_, -, -, -, hstays⟩ := place_of_free hfree round.accept round.behind
      exact iff_of_true hstays fun _ => hfree
    · exact iff_of_false (place_of_full (not_exists.mp hfree) round.accept round.behind).2
        fun himp => hfree (himp harrives)
  · exact iff_of_true (handleIncoming_of_not_arrives harrives).2 fun hin => absurd hin harrives

/-- A free slot for every connection that arrives. -/
def RoomForArrival (table : SockArray) (round : Round) : Prop :=
  Arrives (table.poll round.poll) round → ∃ i, (table i).fd = -1

theorem fd_poll (found : Option (Fin maxSock → UInt16)) (i : Fin maxSock) :
    (table.poll found i).fd = (table i).fd := by
  cases found <;> rfl

/-- In a run every call of `handle_incoming` is right exactly if no connection
arrives at a full table. -/
theorem meets_acceptOk_iff (server : ServerSockets) (rounds : List Round) :
    updateNetwork.Meets (fun table round => AcceptOk (table.poll round.poll) round)
        (initNetwork server) rounds ↔
      updateNetwork.Meets RoomForArrival (initNetwork server) rounds := by
  refine Machine.meets_congr (fun table round h => h.updateNetwork round) (fun table round h => ?_)
    (tableOk_initNetwork server)
  rw [acceptOk_iff (h.of_kept (kept_poll h round.poll)), RoomForArrival]
  simp only [fd_poll]

end Steps

/-! ### Filling the table -/

def arrival (newFd : ℤ) : Round where
  poll := some fun i => if i = 0 then pollIn else 0
  accept := newFd
  behind := []
  peeked := fun _ => 1

/-- A table whose first `n` slots hold the descriptors from 3 on. -/
def filled (n : ℕ) : SockArray := fun i => if i.val < n then ⟨i.val + 3, pollIn, 0⟩ else freeSlot

def firstSockets : ServerSockets := ⟨3, 4, by decide, by decide, by decide⟩

theorem initNetwork_firstSockets : initNetwork firstSockets = filled 2 := by
  ext1 i
  revert i
  decide

theorem revents_filled (n : ℕ) (i : Fin maxSock) : (filled n i).revents = 0 := by
  unfold filled
  split_ifs <;> rfl

theorem fd_filled {n : ℕ} (i : Fin maxSock) : (filled n i).fd = -1 ↔ n ≤ i.val := by
  unfold filled
  split_ifs with hi
  · exact iff_of_false (show (i.val : ℤ) + 3 ≠ -1 by omega) (not_le.mpr hi)
  · exact iff_of_true rfl (not_lt.mp hi)

/-- The filled table after `poll` has found the listening socket ready. -/
def ready (n : ℕ) : SockArray := Function.update (filled n) 0 ⟨3, pollIn, pollIn⟩

theorem fd_ready {n : ℕ} (hn : 2 ≤ n) (i : Fin maxSock) : (ready n i).fd = (filled n i).fd := by
  by_cases hi : i = 0
  · subst hi
    have h0 : 0 < n := by omega
    simp [ready, filled, h0]
  · rw [ready, Function.update_of_ne hi]

theorem poll_filled {n : ℕ} (hn : 2 ≤ n) (newFd : ℤ) :
    (filled n).poll (arrival newFd).poll = ready n := by
  ext1 i
  by_cases hi : i = 0
  · subst hi
    have h0 : 0 < n := by omega
    simp [SockArray.poll, arrival, ready, filled, h0]
  · rw [ready, Function.update_of_ne hi]
    have hrevents := revents_filled n i
    simp only [SockArray.poll, arrival, hi, if_false, ite_self]
    rw [← hrevents]

theorem arrives_ready {n : ℕ} (hn : 2 ≤ n) : Arrives (ready n) (arrival (n + 3)) := by
  refine ⟨by simp [ready, pollIn], ?_⟩
  have hnew : ¬ ∃ i, (ready n i).fd = (n : ℤ) + 3 := by
    rintro ⟨i, hi⟩
    rw [fd_ready hn] at hi
    unfold filled at hi
    split_ifs at hi with hlt
    · dsimp only at hi
      omega
    · simp only [freeSlot] at hi
      omega
  rw [arrival, SockArray.accept, if_neg hnew]
  change 0 ≤ (n : ℤ) + 3
  omega

theorem place_ready {n : ℕ} (hn : 2 ≤ n) (hlt : n < maxSock) (newFd : ℤ) :
    ((ready n).place newFd []).val =
      (Function.update (ready n) ⟨n, hlt⟩ ⟨newFd, pollIn, 0⟩, []) := by
  have hfd : ∀ i, (ready n i).fd = -1 ↔ n ≤ i.val := fun i => by rw [fd_ready hn, fd_filled]
  obtain ⟨i, hi, hfirst, hplace, -⟩ := place_of_free ⟨⟨n, hlt⟩, (hfd _).mpr le_rfl⟩ newFd []
  have heq : i = ⟨n, hlt⟩ := by
    refine Fin.ext (le_antisymm ?_ ((hfd i).mp hi))
    by_contra hgt
    exact hfirst ⟨n, hlt⟩ (not_le.mp hgt) ((hfd _).mpr le_rfl)
  rw [hplace, heq]

theorem clear_place_ready {n : ℕ} (hn : 2 ≤ n) (hlt : n < maxSock) :
    ((ready n).place (n + 3) []).val.1.clear 0 = filled (n + 1) := by
  rw [place_ready hn hlt]
  have h0 : (0 : Fin maxSock) ≠ ⟨n, hlt⟩ := Fin.ne_of_val_ne (show 0 ≠ n by omega)
  ext1 i
  by_cases hi : i = 0
  · subst hi
    simp [SockArray.clear, Function.update_of_ne h0, ready, filled]
  · rw [SockArray.clear, Function.update_of_ne hi]
    by_cases hin : i = ⟨n, hlt⟩
    · subst hin
      simp [filled]
    · have hval : i.val ≠ n := fun h => hin (Fin.ext h)
      have hiff : i.val < n ↔ i.val < n + 1 := by omega
      simp only [Function.update_of_ne hin, ready, Function.update_of_ne hi, filled, hiff]

theorem broadcastIncoming_filled (n : ℕ) : (filled n).broadcastIncoming = filled n := by
  rw [SockArray.broadcastIncoming, if_neg (by simp [revents_filled])]

theorem handleConnected_filled (n : ℕ) (peeked : Fin maxSock → ℤ) :
    ((filled n).handleConnected peeked).1 = filled n := by
  ext1 i
  simp [SockArray.handleConnected, PollFd.handleConnected, revents_filled]

theorem updateNetwork_filled {n : ℕ} (hn : 2 ≤ n) (hlt : n < maxSock) :
    (updateNetwork (filled n) (arrival (n + 3))).2 = filled (n + 1) := by
  have hincoming : ((ready n).handleIncoming (arrival (n + 3))).val.1 = filled (n + 1) := by
    have haccept : (arrival ((n : ℤ) + 3)).accept = n + 3 := rfl
    have hbehind : (arrival ((n : ℤ) + 3)).behind = [] := rfl
    rw [val_handleIncoming, (acceptIncoming_of_arrives (arrives_ready hn)).1, haccept, hbehind,
      clear_place_ready hn hlt, broadcastIncoming_filled]
  rw [updateNetwork, poll_filled hn, hincoming, handleConnected_filled]

def arrivals (n : ℕ) : List Round := (List.range n).map fun k : ℕ => arrival (k + 5)

theorem arrivals_succ (n : ℕ) : arrivals (n + 1) = arrivals n ++ [arrival ((n + 2 : ℕ) + 3)] := by
  have hfd : (n : ℤ) + 5 = ((n + 2 : ℕ) : ℤ) + 3 := by omega
  rw [arrivals, List.range_succ, List.map_append, List.map_singleton, arrivals, hfd]

theorem run_arrivals {n : ℕ} (hn : n + 2 ≤ maxSock) :
    (updateNetwork.run (initNetwork firstSockets) (arrivals n)).2 = filled (n + 2) := by
  induction n with
  | zero => exact initNetwork_firstSockets
  | succ n ih =>
      rw [arrivals_succ, Machine.run_append_state, ih (by omega), Machine.run_cons,
        Machine.run_nil, updateNetwork_filled (by omega) (by omega)]

/-- The connection behind the 126th makes the search leave the table. -/
theorem not_meets_acceptOk_arrivals :
    ¬ updateNetwork.Meets (fun table round => AcceptOk (table.poll round.poll) round)
      (initNetwork firstSockets) (arrivals 127) := by
  intro h
  rw [arrivals_succ, Machine.meets_append, run_arrivals (by decide)] at h
  obtain ⟨-, hlast, -⟩ := h
  rw [poll_filled (by decide)] at hlast
  have harrives := arrives_ready (show 2 ≤ 126 + 2 by decide)
  have hfull : ∀ i, (ready (126 + 2) i).fd ≠ -1 := by
    intro i hi
    rw [fd_ready (by decide), fd_filled] at hi
    have hlt : i.val < 128 := i.isLt
    omega
  have hstays := (handleIncoming_of_arrives harrives).2.2.mp hlast.reads
  exact (place_of_full hfull _ _).2 hstays

end Kademlia.Connections
