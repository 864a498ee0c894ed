import Kademlia.Foundations.Splitting
import Kademlia.Model.Sockets

/-!
What `recv_all` does, in terms of the bytes its connection delivers.

The bytes it stores are the right ones in every case. Its return value is not
their number: on success it is the size of the last chunk read, and at the end
of the stream it is 0 however many bytes came before.
-/

namespace Kademlia.Framing

open Foundations Foundations.Source Model

theorem recvAllLoop_done {len : ℕ} {stored : List UInt8} (h : len ≤ stored.length) (ret : ℤ)
    (conn : Conn) : recvAllLoop len ret stored conn = ⟨ret, stored, conn⟩ := by
  have hnot : ¬ stored.length < len := by omega
  cases conn with
  | nil => simp [recvAllLoop, hnot]
  | cons event conn => simp [recvAllLoop, hnot]

theorem recvAllLoop_chunk_of_le {len : ℕ} {stored : List UInt8} {b : UInt8}
    {bs : List UInt8} (h : stored.length < len)
    (hle : (b :: bs).length ≤ len - stored.length) (ret : ℤ) (conn : Conn) :
    recvAllLoop len ret stored (.chunk b bs :: conn) =
      recvAllLoop len (b :: bs).length (stored ++ b :: bs) conn := by
  rw [recvAllLoop, if_pos h]
  simp only [List.take_of_length_le hle, List.drop_eq_nil_of_le hle, List.isEmpty_nil,
    if_true]

theorem recvAllLoop_chunk_of_lt {len : ℕ} {stored : List UInt8} {b : UInt8}
    {bs : List UInt8} (h : stored.length < len)
    (hlt : len - stored.length < (b :: bs).length) (ret : ℤ) (conn : Conn) :
    recvAllLoop len ret stored (.chunk b bs :: conn) =
      ⟨(len - stored.length : ℕ), stored ++ (b :: bs).take (len - stored.length),
        unread ((b :: bs).drop (len - stored.length)) conn⟩ := by
  have hleft : ((b :: bs).drop (len - stored.length)).isEmpty = false := by
    rw [List.isEmpty_eq_false_iff, ne_eq, List.drop_eq_nil_iff]
    omega
  have hgot : ((b :: bs).take (len - stored.length)).length = len - stored.length := by
    rw [List.length_take]
    omega
  rw [recvAllLoop, if_pos h]
  simp only [hleft, hgot]
  rfl

theorem recvAllLoop_stored (len : ℕ) (ret : ℤ) (stored : List UInt8) (conn : Conn) :
    (recvAllLoop len ret stored conn).stored =
      stored ++ (delivered conn).take (len - stored.length) := by
  induction conn generalizing ret stored with
  | nil => simp [recvAllLoop]
  | cons event conn ih =>
      by_cases h : stored.length < len
      · cases event with
        | interrupt =>
            rw [recvAllLoop, if_pos h]
            exact ih (-1) stored
        | failure =>
            rw [recvAllLoop, if_pos h]
            simp
        | chunk b bs =>
            by_cases hle : (b :: bs).length ≤ len - stored.length
            · rw [recvAllLoop_chunk_of_le h hle, ih, delivered_chunk, List.append_assoc,
                List.length_append, List.take_append, List.take_of_length_le hle,
                Nat.sub_add_eq]
            · rw [recvAllLoop_chunk_of_lt h (by omega), delivered_chunk,
                List.take_append_of_le_length (by omega)]
      · rw [recvAllLoop_done (by omega), Nat.sub_eq_zero_of_le (by omega)]
        simp

theorem recvAllLoop_carried (len : ℕ) (ret : ℤ) (stored : List UInt8) (conn : Conn) :
    (recvAllLoop len ret stored conn).stored ++ carried (recvAllLoop len ret stored conn).rest =
      stored ++ carried conn := by
  induction conn generalizing ret stored with
  | nil => simp [recvAllLoop]
  | cons event conn ih =>
      by_cases h : stored.length < len
      · cases event with
        | interrupt =>
            rw [recvAllLoop, if_pos h]
            exact ih (-1) stored
        | failure =>
            rw [recvAllLoop, if_pos h]
            rfl
        | chunk b bs =>
            have hchunk : carried (.chunk b bs :: conn) = b :: bs ++ carried conn := rfl
            by_cases hle : (b :: bs).length ≤ len - stored.length
            · rw [recvAllLoop_chunk_of_le h hle, ih, hchunk, List.append_assoc]
            · rw [recvAllLoop_chunk_of_lt h (by omega), carried_unread, hchunk,
                List.append_assoc, ← List.append_assoc (List.take _ _), List.take_append_drop]
      · rw [recvAllLoop_done (by omega)]

theorem recvAllLoop_stopped {len : ℕ} {stored : List UInt8} {conn : Conn} (ret : ℤ)
    (h : stored.length + (delivered conn).length < len) :
    (recvAllLoop len ret stored conn).ret = (if fails conn then -1 else 0) ∧
      (recvAllLoop len ret stored conn).rest = afterFailure conn := by
  induction conn generalizing ret stored with
  | nil =>
      have hlt : stored.length < len := by simpa using h
      simp [recvAllLoop, hlt, afterFailure]
  | cons event conn ih =>
      cases event with
      | interrupt =>
          rw [recvAllLoop, if_pos (by omega)]
          exact ih (-1) h
      | failure =>
          rw [recvAllLoop, if_pos (by omega)]
          exact ⟨rfl, rfl⟩
      | chunk b bs =>
          rw [delivered_chunk, List.length_append] at h
          rw [recvAllLoop_chunk_of_le (by omega) (by omega)]
          exact ih _ (by rw [List.length_append]; omega)

/-- Everything wanted is delivered: the return value is the size of the last
chunk, so it is the number of bytes wanted only if one chunk had them all. -/
theorem recvAllLoop_complete {len : ℕ} (stored : List UInt8) (conn : Conn) (ret : ℤ)
    (hlt : stored.length < len) (h : len ≤ stored.length + (delivered conn).length) :
    (recvAllLoop len ret stored conn).rest = skip (len - stored.length) conn ∧
      0 < (recvAllLoop len ret stored conn).ret ∧
      (recvAllLoop len ret stored conn).ret ≤ (len - stored.length : ℕ) ∧
      ((recvAllLoop len ret stored conn).ret = (len - stored.length : ℕ) ↔
        len - stored.length ≤ (firstChunk conn).length) := by
  induction conn generalizing ret stored with
  | nil => simp at h; omega
  | cons event conn ih =>
      cases event with
      | interrupt =>
          rw [recvAllLoop, if_pos hlt, skip_interrupt conn (by omega)]
          exact ih stored (-1) hlt h
      | failure => simp at h; omega
      | chunk b bs =>
          rw [delivered_chunk, List.length_append] at h
          by_cases hle : (b :: bs).length ≤ len - stored.length
          · rw [recvAllLoop_chunk_of_le hlt hle, ← unread_cons, skip_unread_of_le conn hle]
            have hlen : (stored ++ b :: bs).length = stored.length + (b :: bs).length :=
              List.length_append
            by_cases hdone : len ≤ stored.length + (b :: bs).length
            · rw [recvAllLoop_done (by omega), show len - stored.length = (b :: bs).length by
                omega]
              simp [firstChunk, unread_cons]
            · obtain ⟨hrest, hpos, hret, -⟩ :=
                ih (stored ++ b :: bs) (b :: bs).length (by omega) (by omega)
              have hcons : 0 < (b :: bs).length := by simp
              refine ⟨?_, hpos, by omega, ?_⟩
              · rw [hrest, hlen, Nat.sub_add_eq]
              · rw [unread_cons, firstChunk]
                omega
          · rw [recvAllLoop_chunk_of_lt hlt (by omega), ← unread_cons,
              skip_unread_of_lt conn (by omega), unread_cons, firstChunk]
            refine ⟨rfl, ?_, le_rfl, ?_⟩
            · show (0 : ℤ) < (len - stored.length : ℕ)
              omega
            · show ((len - stored.length : ℕ) : ℤ) = (len - stored.length : ℕ) ↔ _
              omega

/-- Everything wanted is delivered, and what is returned is the size of the last read. -/
theorem recvAllLoop_ret {len : ℕ} (stored : List UInt8) (conn : Conn) (ret : ℤ)
    (hlt : stored.length < len) (h : len ≤ stored.length + (delivered conn).length) :
    (recvAllLoop len ret stored conn).ret = lastRead (len - stored.length) conn := by
  induction conn generalizing ret stored with
  | nil => simp at h; omega
  | cons event conn ih =>
      cases event with
      | interrupt =>
          rw [recvAllLoop, if_pos hlt]
          exact ih stored (-1) hlt h
      | failure => simp at h; omega
      | chunk b bs =>
          rw [delivered_chunk, List.length_append] at h
          by_cases hle : (b :: bs).length ≤ len - stored.length
          · have hlen : (stored ++ b :: bs).length = stored.length + (b :: bs).length :=
              List.length_append
            rw [recvAllLoop_chunk_of_le hlt hle]
            by_cases hdone : len ≤ stored.length + (b :: bs).length
            · rw [recvAllLoop_done (by omega), lastRead_chunk_of_le (by omega)]
              exact congrArg Nat.cast (show (b :: bs).length = len - stored.length by omega)
            · rw [lastRead_chunk_of_lt (by omega), ih _ _ (by omega) (by omega), hlen,
                Nat.sub_add_eq]
          · rw [recvAllLoop_chunk_of_lt hlt (by omega), lastRead_chunk_of_le (by omega)]

/-! ### `recv_all` from its start -/

theorem recvAll_stored (conn : Conn) (len : ℕ) :
    (recvAll conn len).stored = (delivered conn).take len := by
  simpa [recvAll] using recvAllLoop_stored len 0 [] conn

theorem recvAll_carried (conn : Conn) (len : ℕ) :
    (recvAll conn len).stored ++ carried (recvAll conn len).rest = carried conn :=
  recvAllLoop_carried len 0 [] conn

theorem recvAll_size (conn : Conn) (len : ℕ) :
    (recvAll conn len).stored.length + size (recvAll conn len).rest = size conn := by
  have hlen := congrArg List.length (recvAll_carried conn len)
  rwa [List.length_append] at hlen

@[simp] theorem recvAll_zero (conn : Conn) : recvAll conn 0 = ⟨0, [], conn⟩ :=
  recvAllLoop_done (by simp) 0 conn

theorem recvAll_stopped {conn : Conn} {len : ℕ} (h : (delivered conn).length < len) :
    (recvAll conn len).ret = (if fails conn then -1 else 0) ∧
      (recvAll conn len).rest = afterFailure conn :=
  recvAllLoop_stopped 0 (by simpa using h)

theorem recvAll_complete (conn : Conn) {len : ℕ} (hpos : 0 < len)
    (h : len ≤ (delivered conn).length) :
    (recvAll conn len).rest = skip len conn ∧ 0 < (recvAll conn len).ret ∧
      (recvAll conn len).ret ≤ len ∧
      ((recvAll conn len).ret = len ↔ len ≤ (firstChunk conn).length) := by
  simpa [recvAll] using recvAllLoop_complete [] conn 0 hpos (by simpa using h)

theorem recvAll_ret {conn : Conn} {len : ℕ} (hpos : 0 < len)
    (h : len ≤ (delivered conn).length) : (recvAll conn len).ret = lastRead len conn := by
  simpa [recvAll] using recvAllLoop_ret [] conn 0 hpos (by simpa using h)

theorem recvAll_ret_neg_iff {conn : Conn} {len : ℕ} :
    (recvAll conn len).ret < 0 ↔ (delivered conn).length < len ∧ fails conn = true := by
  by_cases hlt : (delivered conn).length < len
  · rw [(recvAll_stopped hlt).1]
    split <;> simp_all
  · rcases Nat.eq_zero_or_pos len with rfl | hpos
    · simp
    · have hret : 0 < (recvAll conn len).ret := (recvAll_complete conn hpos (by omega)).2.1
      constructor
      · omega
      · rintro ⟨h, -⟩
        omega

theorem recvAll_cases (conn : Conn) {len : ℕ} (hpos : 0 < len) :
    ((recvAll conn len).ret < 0 ∧ failures conn = failures (recvAll conn len).rest + 1) ∨
      ((recvAll conn len).ret = 0 ∧ failures conn = 0) ∨
      (0 < (recvAll conn len).ret ∧ (recvAll conn len).ret ≤ (recvAll conn len).stored.length ∧
        (recvAll conn len).ret ≤ len ∧ failures (recvAll conn len).rest = failures conn) := by
  by_cases hlt : (delivered conn).length < len
  · obtain ⟨hret, hrest⟩ := recvAll_stopped hlt
    rw [hret, hrest]
    cases hfails : fails conn with
    | true => exact Or.inl ⟨by simp, failures_afterFailure hfails⟩
    | false => exact Or.inr (Or.inl ⟨by simp, (failures_eq_zero_iff conn).mpr hfails⟩)
  · obtain ⟨hrest, hret, hle, -⟩ := recvAll_complete conn hpos (not_lt.mp hlt)
    have hstored : (recvAll conn len).stored.length = len := by
      rw [recvAll_stored, List.length_take, Nat.min_eq_left (not_lt.mp hlt)]
    refine Or.inr (Or.inr ⟨hret, by rwa [hstored], hle, ?_⟩)
    rw [hrest, failures_skip]

/-! ### The header of a packet

`recv_all` is asked for the header, and its result converted to `size_t`. -/

theorem headerFails_iff_of_short {conn : Conn} (h : (delivered conn).length < sizeofHeader) :
    toSizeT (recvAll conn sizeofHeader).ret < sizeofHeader ↔ fails conn = false := by
  rw [(recvAll_stopped h).1]
  cases fails conn <;> decide

theorem headerFails_iff_of_long {conn : Conn} (h : sizeofHeader ≤ (delivered conn).length) :
    toSizeT (recvAll conn sizeofHeader).ret < sizeofHeader ↔
      (firstChunk conn).length < sizeofHeader := by
  obtain ⟨-, hpos, hle, hall⟩ := recvAll_complete conn (show 0 < sizeofHeader by decide) h
  have hsmall : ((sizeofHeader : ℕ) : ℤ) < 2 ^ 64 := by decide
  rw [toSizeT_of_nonneg hpos.le (by omega)]
  omega

end Kademlia.Framing
