import Kademlia.Framing.RecvAll
import Kademlia.Model.Http

/-!
The bodies of requests and responses.

`recv_all` returns the size of its last chunk, and the loop takes this for the
number of bytes that it got. So it counts too little, if anything, and a loop
that comes to the end of its count on a connection that carries no more than
the body has stored every byte of it.
-/

namespace Kademlia.Http

open Foundations Foundations.Source Model Framing

/-- `fwrite` stores everything, or the loop finds out that it does not. -/
def WritesChecked (checked : Bool) (writes : List (Option ℕ)) : Prop :=
  checked = true ∨ ∀ w ∈ writes, w = none

theorem WritesChecked.tail {checked : Bool} {writes : List (Option ℕ)}
    (h : WritesChecked checked writes) : WritesChecked checked writes.tail :=
  h.imp_right fun hall w hw => hall w (List.mem_of_mem_tail hw)

theorem WritesChecked.fwrite {checked : Bool} {writes : List (Option ℕ)}
    (h : WritesChecked checked writes) (bytes : List UInt8)
    (hcomplete : ¬ (checked = true ∧ (fwrite writes bytes).2 = false)) :
    (fwrite writes bytes).1 = bytes := by
  unfold Model.fwrite at hcomplete ⊢
  split
  · next count writes =>
      rcases h with hchecked | hall
      · have hle : bytes.length ≤ count := by
          by_contra hlt
          exact hcomplete ⟨hchecked, by simpa using hlt⟩
        exact List.take_of_length_le hle
      · cases hall _ List.mem_cons_self
  · rfl

variable {checked : Bool} {fuel length : ℕ} {written : List UInt8} {writes : List (Option ℕ)}
  {again : List Bool} {conn : Conn}

theorem receiveLoop_of_eq_zero (h : length = 0) :
    receiveLoop checked fuel length written writes again conn =
      ⟨written, 0, .complete, conn⟩ := by
  subst h
  cases fuel <;> rfl

/-- What one round can do with the result `r` of the loop. -/
inductive Round (checked : Bool) (fuel length : ℕ) (written : List UInt8)
    (writes : List (Option ℕ)) (again : List Bool) (conn : Conn) (r : Received) : Prop
  /-- a read failed, and the loop tries again -/
  | retry (rest : List Bool) (hagain : again = true :: rest)
      (hfailures : failures conn = failures (recvAll conn (min length chunkSize)).rest + 1)
      (hnext : r = receiveLoop checked fuel length written writes rest
        (recvAll conn (min length chunkSize)).rest)
  | failed (hstop : r.stop = .failed)
  | ended (hstop : r.stop = .ended) (hnone : failures conn = 0)
  | writeError (hstop : r.stop = .writeError) (hchecked : checked = true)
  /-- a chunk is stored, of which `n` bytes are counted -/
  | chunk (n : ℕ) (hpos : 0 < n) (hlength : n ≤ length)
      (hstored : n ≤ (recvAll conn (min length chunkSize)).stored.length)
      (hfailures : failures (recvAll conn (min length chunkSize)).rest = failures conn)
      (hwrite : ¬ (checked = true ∧
        (fwrite writes ((recvAll conn (min length chunkSize)).stored.take n)).2 = false))
      (hnext : r = receiveLoop checked fuel (length - n)
        (written ++ (fwrite writes ((recvAll conn (min length chunkSize)).stored.take n)).1)
        writes.tail again (recvAll conn (min length chunkSize)).rest)

variable (checked fuel written writes again conn) in
theorem receiveLoop_round (hlength : length ≠ 0) :
    Round checked fuel length written writes again conn
      (receiveLoop checked (fuel + 1) length written writes again conn) := by
  have hpos : 0 < min length chunkSize := by
    have hchunk : 0 < chunkSize := by decide
    omega
  rw [receiveLoop, if_neg hlength]
  dsimp only
  rcases recvAll_cases conn hpos with ⟨hret, hfailures⟩ | ⟨hret, hnone⟩ | ⟨hret, hle, hlen, hsame⟩
  · rw [if_pos hret]
    split
    · next rest => exact .retry rest rfl hfailures rfl
    · exact .failed rfl
  · rw [if_neg (by omega), if_pos hret]
    exact .ended rfl hnone
  · rw [if_neg (by omega), if_neg (by omega)]
    split
    · next hwrite => exact .writeError rfl hwrite.1
    · next hwrite => exact .chunk _ (by omega) (by omega) (by omega) hsame hwrite rfl

/-- A loop that is through has stored the whole connection, if that carries no
more than the loop expects. -/
theorem receiveLoop_complete (hfuel : length + again.length ≤ fuel)
    (hwrites : WritesChecked checked writes) (hsize : size conn ≤ length)
    (hstop : (receiveLoop checked fuel length written writes again conn).stop = .complete) :
    (receiveLoop checked fuel length written writes again conn).written =
        written ++ carried conn ∧ size conn = length := by
  induction fuel generalizing length written writes again conn with
  | zero =>
      obtain rfl : length = 0 := by omega
      have hnil : carried conn = [] := List.length_eq_zero_iff.mp (Nat.le_zero.mp hsize)
      exact ⟨by rw [hnil, List.append_nil]; rfl, Nat.le_zero.mp hsize⟩
  | succ fuel ih =>
      by_cases hlength : length = 0
      · rw [receiveLoop_of_eq_zero hlength]
        subst hlength
        have hnil : carried conn = [] := List.length_eq_zero_iff.mp (Nat.le_zero.mp hsize)
        rw [hnil, List.append_nil]
        exact ⟨rfl, Nat.le_zero.mp hsize⟩
      · have hcarried := recvAll_carried conn (min length chunkSize)
        have hrest := recvAll_size conn (min length chunkSize)
        cases receiveLoop_round checked fuel written writes again conn hlength with
        | retry rest hagain _ hnext =>
            rw [hnext] at hstop ⊢
            rw [hagain, List.length_cons] at hfuel
            obtain ⟨hwritten, hall⟩ := ih (by omega) hwrites (by omega) hstop
            -- nothing was read before the failure, or there were bytes too few
            have hnone : (recvAll conn (min length chunkSize)).stored = [] :=
              List.length_eq_zero_iff.mp (by omega)
            rw [hnone, List.nil_append] at hcarried
            rw [hwritten, hcarried]
            exact ⟨rfl, by omega⟩
        | failed hfailed =>
            rw [hfailed] at hstop
            cases hstop
        | ended hended =>
            rw [hended] at hstop
            cases hstop
        | writeError herror =>
            rw [herror] at hstop
            cases hstop
        | chunk n hpos hn hstored _ hwrite hnext =>
            rw [hnext] at hstop ⊢
            obtain ⟨hwritten, hall⟩ := ih (by omega) hwrites.tail (by omega) hstop
            -- the count was right, so the chunk was all that was read
            have hcount : (recvAll conn (min length chunkSize)).stored.length ≤ n := by omega
            rw [hwritten, hwrites.fwrite _ hwrite, List.take_of_length_le hcount,
              List.append_assoc, hcarried]
            exact ⟨rfl, by omega⟩

/-- The loop does not meet the end of a connection with more failures than it
tries again after. -/
theorem receiveLoop_not_ended (h : again.length < failures conn) :
    (receiveLoop checked fuel length written writes again conn).stop ≠ .ended := by
  induction fuel generalizing length written writes again conn with
  | zero => exact Stop.noConfusion
  | succ fuel ih =>
      by_cases hlength : length = 0
      · rw [receiveLoop_of_eq_zero hlength]
        exact Stop.noConfusion
      · cases receiveLoop_round checked fuel written writes again conn hlength with
        | retry rest hagain hfailures hnext =>
            rw [hagain, List.length_cons] at h
            rw [hnext]
            exact ih (by omega)
        | failed hfailed =>
            rw [hfailed]
            exact Stop.noConfusion
        | ended _ hnone => omega
        | writeError herror =>
            rw [herror]
            exact Stop.noConfusion
        | chunk _ _ _ _ hsame _ hnext =>
            rw [hnext]
            exact ih (by omega)

theorem receiveLoop_ne_writeError :
    (receiveLoop false fuel length written writes again conn).stop ≠ .writeError := by
  induction fuel generalizing length written writes again conn with
  | zero => exact Stop.noConfusion
  | succ fuel ih =>
      by_cases hlength : length = 0
      · rw [receiveLoop_of_eq_zero hlength]
        exact Stop.noConfusion
      · cases receiveLoop_round false fuel written writes again conn hlength with
        | retry _ _ _ hnext =>
            rw [hnext]
            exact ih
        | failed hfailed =>
            rw [hfailed]
            exact Stop.noConfusion
        | ended hended =>
            rw [hended]
            exact Stop.noConfusion
        | writeError _ hchecked => cases hchecked
        | chunk _ _ _ _ _ _ hnext =>
            rw [hnext]
            exact ih

theorem receiveBody_eq {content : List UInt8} (hcontent : carried conn <+: content)
    (hopen : again.length < failures conn) (hwrites : WritesChecked checked writes)
    (hstop : (receiveBody checked content.length [] writes again conn).stop = .complete ∨
      (receiveBody checked content.length [] writes again conn).stop = .ended) :
    (receiveBody checked content.length [] writes again conn).written = content := by
  have hcomplete := hstop.resolve_right (receiveLoop_not_ended hopen)
  obtain ⟨hwritten, hsize⟩ := receiveLoop_complete le_rfl hwrites hcontent.length_le hcomplete
  rw [receiveBody, hwritten, List.nil_append]
  exact hcontent.eq_of_length hsize

end Kademlia.Http
