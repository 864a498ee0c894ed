import Kademlia.Connections.Slots

/-!
What `stop_network` closes.

Its loop ends at the first free slot. Connections end in any order and a new
one takes the first free slot, so a free slot may lie in front of a held one,
and then the held one is not closed.
-/

namespace Kademlia.Connections

open Foundations Model

/-- No free slot lies in front of a held one. -/
def LivePrefix (table : SockArray) : Prop :=
  ∀ i j, i ≤ j → (table j).fd ≠ -1 → (table i).fd ≠ -1

def ClosesEach (table : SockArray) : Prop :=
  ∀ i, (table i).fd ≠ -1 → table.stopNetwork.count (table i).fd = 1

section Stop

variable {server : ServerSockets} {table : SockArray}

theorem stopNetwork_isPrefix (table : SockArray) : table.stopNetwork <+: table.fds :=
  List.takeWhile_prefix _

theorem length_stopNetwork_le (table : SockArray) : table.stopNetwork.length ≤ maxSock := by
  simpa using (stopNetwork_isPrefix table).length_le

theorem getElem_stopNetwork {i : ℕ} (h : i < table.stopNetwork.length) :
    table.stopNetwork[i] = (table ⟨i, h.trans_le (length_stopNetwork_le table)⟩).fd := by
  rw [(stopNetwork_isPrefix table).getElem h, getElem_fds]

/-- The loop gets to a slot exactly if it and all before it are held. -/
theorem lt_length_stopNetwork_iff (i : Fin maxSock) :
    i.val < table.stopNetwork.length ↔ ∀ j ≤ i, (table j).fd ≠ -1 := by
  rw [SockArray.stopNetwork, List.takeWhile_eq_take_findIdx_not, List.length_take]
  constructor
  · intro h j hj
    have hlt := lt_of_le_of_lt (Fin.le_def.mp hj) (lt_min_iff.mp h).1
    simpa using List.not_of_lt_findIdx hlt
  · intro h
    refine lt_min ?_ (by simp)
    refine List.lt_findIdx_of_not (by simp) fun j hj => ?_
    simpa using h ⟨j, by omega⟩ (Fin.le_def.mpr hj)

theorem nodup_stopNetwork (h : TableOk server table) : table.stopNetwork.Nodup := by
  rw [List.nodup_iff_injective_getElem]
  intro i j heq
  dsimp only at heq
  rw [getElem_stopNetwork i.isLt, getElem_stopNetwork j.isLt] at heq
  have hheld := (lt_length_stopNetwork_iff
    ⟨i, i.isLt.trans_le (length_stopNetwork_le table)⟩).mp i.isLt _ le_rfl
  exact Fin.ext (Fin.mk.inj (h.distinct _ _ heq hheld))

theorem closesEach_iff_of_tableOk (h : TableOk server table) :
    ClosesEach table ↔ LivePrefix table := by
  constructor
  · intro hcloses i j hij hj
    have hmem : (table j).fd ∈ table.stopNetwork := by
      rw [← List.count_pos_iff, hcloses j hj]
      exact Nat.one_pos
    obtain ⟨k, hk, hkfd⟩ := List.getElem_of_mem hmem
    rw [getElem_stopNetwork] at hkfd
    have hkj := h.distinct _ _ hkfd.symm hj
    refine (lt_length_stopNetwork_iff j).mp ?_ i hij
    rw [hkj]
    exact hk
  · intro hprefix i hi
    have hlt := (lt_length_stopNetwork_iff i).mpr fun j hj => hprefix j i hj hi
    refine List.count_eq_one_of_mem (nodup_stopNetwork h) ?_
    have hmem := List.getElem_mem hlt
    rwa [getElem_stopNetwork] at hmem

end Stop

/-- `stop_network` closes what a reachable table holds exactly if no free slot lies
in front of a held one. -/
theorem closesEach_iff (server : ServerSockets) (rounds : List Round) :
    ClosesEach (updateNetwork.run (initNetwork server) rounds).2 ↔
      LivePrefix (updateNetwork.run (initNetwork server) rounds).2 :=
  closesEach_iff_of_tableOk (tableOk_run server rounds)

def hangUp : Round where
  poll := some fun i => if i = 2 then pollHup else 0
  accept := -1
  behind := []
  peeked := fun _ => 1

/-- Of two connections the first ends, and the second is not closed. -/
theorem not_closesEach_hangUp :
    ¬ ClosesEach (updateNetwork.run (initNetwork firstSockets)
      [arrival 5, arrival 6, hangUp]).2 := by
  intro h
  have hcount := h 3 (by decide +kernel)
  revert hcount
  decide +kernel

end Kademlia.Connections
