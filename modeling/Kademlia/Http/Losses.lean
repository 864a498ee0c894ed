import Kademlia.Foundations.Splitting
import Kademlia.Http.Transfers

/-!
Which transfers lose bytes.

The loop keeps of each chunk as many bytes as its last read had, and takes this
for all that it got. What it keeps and how it ends are determined by the sizes of
the reads, so both are described for the splitting of the connection. A transfer
that goes on to its success without storing just the first bytes has put others in
the place of one that it lost, or it has stored too many.
-/

namespace Kademlia.Http

open Foundations Foundations.Source Model Framing

def WriteFits (writes : List (Option ℕ)) (n : ℕ) : Prop :=
  ∀ count, writes.head? = some (some count) → n ≤ count

/-- A transfer of `length` bytes comes to an error that it gives up at. -/
inductive Aborts (checked : Bool) : ℕ → List (Option ℕ) → List Bool → Source Unit → Prop
  /-- a read fails, and `errno` does not ask for another try -/
  | failed {length : ℕ} {writes : List (Option ℕ)} {again : List Bool} {s : Source Unit}
      (hshort : (delivered s).length < min length chunkSize) (hfails : fails s = true)
      (hagain : again.head? ≠ some true) : Aborts checked length writes again s
  | retried {length : ℕ} {writes : List (Option ℕ)} {again : List Bool} {s : Source Unit}
      (hshort : (delivered s).length < min length chunkSize) (hfails : fails s = true)
      (hrest : Aborts checked length writes again (afterFailure s)) :
      Aborts checked length writes (true :: again) s
  /-- `fwrite` stores too little, and this is checked -/
  | unwritten {length : ℕ} {writes : List (Option ℕ)} {again : List Bool} {s : Source Unit}
      (hpos : 0 < length) (hlong : min length chunkSize ≤ (delivered s).length)
      (hchecked : checked = true)
      (hwrite : ¬ WriteFits writes (lastRead (min length chunkSize) s)) :
      Aborts checked length writes again s
  | later {length : ℕ} {writes : List (Option ℕ)} {again : List Bool} {s : Source Unit}
      (hpos : 0 < length) (hlong : min length chunkSize ≤ (delivered s).length)
      (hrest : Aborts checked (length - lastRead (min length chunkSize) s) writes.tail again
        (skip (min length chunkSize) s)) :
      Aborts checked length writes again s

/-- A transfer of `length` bytes gets each of its chunks by one read, and stores it. -/
inductive Kept : ℕ → List (Option ℕ) → List Bool → Source Unit → Prop
  | done {writes : List (Option ℕ)} {again : List Bool} {s : Source Unit} : Kept 0 writes again s
  /-- a read fails between two chunks, and the loop tries again -/
  | retried {length : ℕ} {writes : List (Option ℕ)} {again : List Bool} {s : Source Unit}
      (hpos : 0 < length) (hnone : delivered s = []) (hfails : fails s = true)
      (hrest : Kept length writes again (afterFailure s)) : Kept length writes (true :: again) s
  | chunk {length : ℕ} {writes : List (Option ℕ)} {again : List Bool} {s : Source Unit}
      (hpos : 0 < length) (hfirst : min length chunkSize ≤ (firstChunk s).length)
      (hwrite : WriteFits writes (min length chunkSize))
      (hrest : Kept (length - min length chunkSize) writes.tail again
        (skip (min length chunkSize) s)) :
      Kept length writes again s

def storedOf (writes : List (Option ℕ)) (n : ℕ) : ℕ :=
  match writes with
  | some count :: _ => min count n
  | _ => n

/-- A transfer that expects `length` bytes stores the first `body` bytes that it is sent,
and no others. -/
inductive Stores : ℕ → ℕ → List (Option ℕ) → List Bool → Source Unit → Prop
  | done {writes : List (Option ℕ)} {again : List Bool} {s : Source Unit} :
      Stores 0 0 writes again s
  /-- the stream is over before the next chunk is there -/
  | ended {length : ℕ} {writes : List (Option ℕ)} {again : List Bool} {s : Source Unit}
      (hshort : (delivered s).length < min length chunkSize) (hends : fails s = false) :
      Stores length 0 writes again s
  | retried {length body : ℕ} {writes : List (Option ℕ)} {again : List Bool} {s : Source Unit}
      (hshort : (delivered s).length < min length chunkSize) (hfails : fails s = true)
      (hnone : delivered s = [] ∨ body = 0)
      (hrest : Stores length body writes again (afterFailure s)) :
      Stores length body writes (true :: again) s
  /-- the whole chunk is stored, or it has the last bytes that are -/
  | chunk {length body : ℕ} {writes : List (Option ℕ)} {again : List Bool} {s : Source Unit}
      (hpos : 0 < length) (hlong : min length chunkSize ≤ (delivered s).length)
      (hle : storedOf writes (lastRead (min length chunkSize) s) ≤ body)
      (hall : storedOf writes (lastRead (min length chunkSize) s) = min length chunkSize ∨
        body = storedOf writes (lastRead (min length chunkSize) s))
      (hrest : Stores (length - lastRead (min length chunkSize) s)
        (body - storedOf writes (lastRead (min length chunkSize) s)) writes.tail again
        (skip (min length chunkSize) s)) :
      Stores length body writes again s

/-! ### One turn of the loop -/

section Turn

variable {checked : Bool} {fuel length : ℕ} {written : List UInt8} {writes : List (Option ℕ)}
  {again : List Bool} {conn : Conn}

theorem chunk_pos (hpos : 0 < length) : 0 < min length chunkSize := by
  have hchunk : 0 < chunkSize := by decide
  omega

theorem pos_of_short {n : ℕ} (h : n < min length chunkSize) : length ≠ 0 := by
  rintro rfl
  rw [Nat.zero_min] at h
  exact absurd h (Nat.not_lt_zero n)

section Short

variable {s : Source Unit} (hconn : splitting conn = s)
  (hshort : (delivered s).length < min length chunkSize)
include hconn hshort

theorem recvAll_short :
    (recvAll conn (min length chunkSize)).ret = (if fails s then -1 else 0) ∧
      (recvAll conn (min length chunkSize)).rest = afterFailure conn := by
  subst hconn
  rw [length_delivered_splitting] at hshort
  rw [fails_splitting]
  exact recvAll_stopped hshort

theorem recvAll_failed (hfails : fails s = true) :
    (recvAll conn (min length chunkSize)).ret < 0 ∧
      (recvAll conn (min length chunkSize)).rest = afterFailure conn := by
  obtain ⟨hret, hrest⟩ := recvAll_short hconn hshort
  rw [hret, hfails, if_pos rfl]
  exact ⟨by decide, hrest⟩

theorem receiveLoop_retry (hfails : fails s = true) :
    receiveLoop checked (fuel + 1) length written writes (true :: again) conn =
      receiveLoop checked fuel length written writes again (afterFailure conn) := by
  obtain ⟨hneg, hrest⟩ := recvAll_failed hconn hshort hfails
  rw [receiveLoop, if_neg (pos_of_short hshort)]
  dsimp only
  rw [if_pos hneg, hrest]

theorem receiveLoop_failed (hfails : fails s = true) (hagain : again.head? ≠ some true) :
    receiveLoop checked (fuel + 1) length written writes again conn =
      ⟨written, length, .failed, afterFailure conn⟩ := by
  obtain ⟨hneg, hrest⟩ := recvAll_failed hconn hshort hfails
  rw [receiveLoop, if_neg (pos_of_short hshort)]
  dsimp only
  rw [if_pos hneg, hrest]
  split
  · exact absurd rfl hagain
  · rfl

theorem receiveLoop_ended (hends : fails s = false) :
    receiveLoop checked (fuel + 1) length written writes again conn =
      ⟨written, length, .ended, afterFailure conn⟩ := by
  obtain ⟨hret, hrest⟩ := recvAll_short hconn hshort
  rw [hends, if_neg Bool.false_ne_true] at hret
  rw [receiveLoop, if_neg (pos_of_short hshort)]
  dsimp only
  rw [hret, hrest, if_neg (lt_irrefl 0), if_pos rfl]

end Short

theorem fwrite_fits {bytes : List UInt8} (h : WriteFits writes bytes.length) :
    fwrite writes bytes = (bytes, true) := by
  unfold fwrite
  split
  · next count rest =>
      have hle : bytes.length ≤ count := h count rfl
      rw [List.take_of_length_le hle, decide_eq_true hle]
  · rfl

theorem fwrite_of_not_fits {bytes : List UInt8} (h : ¬ WriteFits writes bytes.length) :
    (fwrite writes bytes).2 = false := by
  rw [WriteFits, not_forall] at h
  obtain ⟨count, h⟩ := h
  rw [Classical.not_imp] at h
  obtain ⟨hhead, hlt⟩ := h
  obtain ⟨rest, rfl⟩ := List.head?_eq_some_iff.mp hhead
  rw [fwrite, decide_eq_false hlt]

theorem fwrite_fst (writes : List (Option ℕ)) (bytes : List UInt8) :
    (fwrite writes bytes).1 = bytes.take (storedOf writes bytes.length) := by
  rcases writes with _ | ⟨_ | count, rest⟩
  · exact List.take_length.symm
  · exact List.take_length.symm
  · rw [fwrite, storedOf, ← List.take_take, List.take_length]

theorem storedOf_le (writes : List (Option ℕ)) (n : ℕ) : storedOf writes n ≤ n := by
  unfold storedOf
  split
  · exact Nat.min_le_right _ _
  · exact le_rfl

theorem storedOf_eq_iff {n : ℕ} : storedOf writes n = n ↔ WriteFits writes n := by
  unfold storedOf WriteFits
  split
  · next count rest => simp
  · next hnot =>
      refine iff_of_true rfl fun count hcount => ?_
      obtain ⟨rest, rfl⟩ := List.head?_eq_some_iff.mp hcount
      exact absurd rfl (hnot count rest)

section Long

variable {s : Source Unit} (hconn : splitting conn = s) (hpos : 0 < length)
  (hlong : min length chunkSize ≤ (delivered s).length)
include hconn hlong

theorem skip_chunk :
    splitting (skip (min length chunkSize) conn) = skip (min length chunkSize) s ∧
      carried (skip (min length chunkSize) conn) = (carried conn).drop (min length chunkSize) ∧
      min length chunkSize ≤ (carried conn).length := by
  subst hconn
  rw [length_delivered_splitting] at hlong
  exact ⟨(skip_splitting conn _).symm, carried_skip hlong,
    hlong.trans (delivered_isPrefix_carried conn).length_le⟩

include hpos

/-- What a chunk that is there adds to the file, before `fwrite` is looked at. -/
theorem recvAll_chunk :
    (recvAll conn (min length chunkSize)).ret = lastRead (min length chunkSize) s ∧
      (recvAll conn (min length chunkSize)).rest = skip (min length chunkSize) conn ∧
      (recvAll conn (min length chunkSize)).stored.take (lastRead (min length chunkSize) s) =
        (carried conn).take (lastRead (min length chunkSize) s) := by
  subst hconn
  rw [length_delivered_splitting] at hlong
  rw [lastRead_splitting]
  obtain ⟨-, hle, -⟩ := lastRead_spec (chunk_pos hpos) hlong
  refine ⟨recvAll_ret (chunk_pos hpos) hlong, (recvAll_complete conn (chunk_pos hpos) hlong).1, ?_⟩
  rw [recvAll_stored, List.take_take, Nat.min_eq_left hle, take_carried (hle.trans hlong)]

theorem length_take_lastRead :
    ((carried conn).take (lastRead (min length chunkSize) s)).length =
      lastRead (min length chunkSize) s := by
  obtain ⟨-, hle, -⟩ := lastRead_spec (chunk_pos hpos) hlong
  obtain ⟨-, -, hsize⟩ := skip_chunk hconn hlong
  rw [List.length_take, Nat.min_eq_left (hle.trans hsize)]

theorem receiveLoop_unwritten (hchecked : checked = true)
    (hwrite : ¬ WriteFits writes (lastRead (min length chunkSize) s)) :
    (receiveLoop checked (fuel + 1) length written writes again conn).stop = .writeError := by
  obtain ⟨hread, -, -⟩ := lastRead_spec (chunk_pos hpos) hlong
  obtain ⟨hret, hrest, htake⟩ := recvAll_chunk hconn hpos hlong
  have hshort := fwrite_of_not_fits ((length_take_lastRead hconn hpos hlong).symm ▸ hwrite)
  rw [receiveLoop, if_neg hpos.ne']
  dsimp only
  rw [hret, if_neg (by omega), if_neg (by omega), Int.toNat_natCast, htake,
    if_pos ⟨hchecked, hshort⟩]

theorem receiveLoop_chunk
    (hwrite : checked = true → WriteFits writes (lastRead (min length chunkSize) s)) :
    receiveLoop checked (fuel + 1) length written writes again conn =
      receiveLoop checked fuel (length - lastRead (min length chunkSize) s)
        (written ++ (carried conn).take (storedOf writes (lastRead (min length chunkSize) s)))
        writes.tail again (skip (min length chunkSize) conn) := by
  obtain ⟨hread, -, -⟩ := lastRead_spec (chunk_pos hpos) hlong
  obtain ⟨hret, hrest, htake⟩ := recvAll_chunk hconn hpos hlong
  have hlen := length_take_lastRead hconn hpos hlong
  have hstored : (fwrite writes ((carried conn).take (lastRead (min length chunkSize) s))).1 =
      (carried conn).take (storedOf writes (lastRead (min length chunkSize) s)) := by
    rw [fwrite_fst, hlen, List.take_take, Nat.min_eq_left (storedOf_le _ _)]
  rw [receiveLoop, if_neg hpos.ne']
  dsimp only
  rw [hret, if_neg (by omega), if_neg (by omega), Int.toNat_natCast, htake, hrest, if_neg, hstored]
  rintro ⟨hchecked, hshort⟩
  rw [fwrite_fits (hlen.symm ▸ hwrite hchecked)] at hshort
  cases hshort

end Long

theorem splitting_afterFailure {s : Source Unit} (hconn : splitting conn = s) :
    splitting (afterFailure conn) = afterFailure s := by
  rw [← hconn, afterFailure_splitting]

end Turn

/-- What the next turn of the loop meets. -/
inductive Turn (checked : Bool) (length : ℕ) (writes : List (Option ℕ)) (again : List Bool)
    (s : Source Unit) : Prop
  | done (hzero : length = 0)
  | retried (rest : List Bool) (hagain : again = true :: rest)
      (hshort : (delivered s).length < min length chunkSize) (hfails : fails s = true)
  | failed (hshort : (delivered s).length < min length chunkSize) (hfails : fails s = true)
      (hagain : again.head? ≠ some true)
  | ended (hshort : (delivered s).length < min length chunkSize) (hends : fails s = false)
  | unwritten (hpos : 0 < length) (hlong : min length chunkSize ≤ (delivered s).length)
      (hchecked : checked = true) (hwrite : ¬ WriteFits writes (lastRead (min length chunkSize) s))
  | chunk (hpos : 0 < length) (hlong : min length chunkSize ≤ (delivered s).length)
      (hwrite : checked = true → WriteFits writes (lastRead (min length chunkSize) s))

theorem turn_cases (checked : Bool) (length : ℕ) (writes : List (Option ℕ)) (again : List Bool)
    (s : Source Unit) : Turn checked length writes again s := by
  rcases Nat.eq_zero_or_pos length with hzero | hpos
  · exact .done hzero
  · rcases Nat.lt_or_ge (delivered s).length (min length chunkSize) with hshort | hlong
    · cases hfails : fails s with
      | false => exact .ended hshort hfails
      | true =>
          by_cases hagain : again.head? = some true
          · obtain ⟨rest, hrest⟩ := List.head?_eq_some_iff.mp hagain
            exact .retried rest hrest hshort hfails
          · exact .failed hshort hfails hagain
    · by_cases hwrite : checked = true → WriteFits writes (lastRead (min length chunkSize) s)
      · exact .chunk hpos hlong hwrite
      · rw [Classical.not_imp] at hwrite
        exact .unwritten hpos hlong hwrite.1 hwrite.2

/-! ### How a transfer ends -/

section Runs

variable {checked : Bool} {fuel length : ℕ} {writes : List (Option ℕ)} {again : List Bool}

theorem fuel_chunk {s : Source Unit} (hfuel : length + again.length ≤ fuel + 1)
    (hpos : 0 < length) (hlong : min length chunkSize ≤ (delivered s).length) :
    length - lastRead (min length chunkSize) s + again.length ≤ fuel := by
  have hread := (lastRead_spec (chunk_pos hpos) hlong).1
  omega

theorem Aborts.stop {s : Source Unit} (h : Aborts checked length writes again s)
    (hfuel : length + again.length ≤ fuel) (written : List UInt8) {conn : Conn}
    (hconn : splitting conn = s) :
    (receiveLoop checked fuel length written writes again conn).stop = .failed ∨
      (receiveLoop checked fuel length written writes again conn).stop = .writeError := by
  induction h generalizing fuel written conn with
  | failed hshort hfails hagain =>
      have hpos := pos_of_short hshort
      obtain ⟨fuel, rfl⟩ := Nat.exists_eq_succ_of_ne_zero (show fuel ≠ 0 by omega)
      rw [receiveLoop_failed hconn hshort hfails hagain]
      exact Or.inl rfl
  | retried hshort hfails _ ih =>
      rw [List.length_cons] at hfuel
      obtain ⟨fuel, rfl⟩ := Nat.exists_eq_succ_of_ne_zero (show fuel ≠ 0 by omega)
      rw [receiveLoop_retry hconn hshort hfails]
      exact ih (by omega) written (splitting_afterFailure hconn)
  | unwritten hpos hlong hchecked hwrite =>
      obtain ⟨fuel, rfl⟩ := Nat.exists_eq_succ_of_ne_zero (show fuel ≠ 0 by omega)
      exact Or.inr (receiveLoop_unwritten hconn hpos hlong hchecked hwrite)
  | @later length writes again s hpos hlong _ ih =>
      obtain ⟨fuel, rfl⟩ := Nat.exists_eq_succ_of_ne_zero (show fuel ≠ 0 by omega)
      by_cases hwrite : checked = true → WriteFits writes (lastRead (min length chunkSize) s)
      · rw [receiveLoop_chunk hconn hpos hlong hwrite]
        exact ih (fuel_chunk hfuel hpos hlong) _ (skip_chunk hconn hlong).1
      · rw [Classical.not_imp] at hwrite
        exact Or.inr (receiveLoop_unwritten hconn hpos hlong hwrite.1 hwrite.2)

theorem aborts_of_stop {written : List UInt8} {conn : Conn}
    (h : (receiveLoop checked fuel length written writes again conn).stop = .failed ∨
      (receiveLoop checked fuel length written writes again conn).stop = .writeError) :
    Aborts checked length writes again (splitting conn) := by
  induction fuel generalizing length written writes again conn with
  | zero => exact absurd h (by simp [receiveLoop])
  | succ fuel ih =>
      cases turn_cases checked length writes again (splitting conn) with
      | done hzero =>
          rw [receiveLoop_of_eq_zero hzero] at h
          simp at h
      | retried rest hagain hshort hfails =>
          subst hagain
          refine .retried hshort hfails ?_
          rw [receiveLoop_retry rfl hshort hfails] at h
          rw [afterFailure_splitting]
          exact ih h
      | failed hshort hfails hagain => exact .failed hshort hfails hagain
      | ended hshort hends =>
          rw [receiveLoop_ended rfl hshort hends] at h
          simp at h
      | unwritten hpos hlong hchecked hwrite => exact .unwritten hpos hlong hchecked hwrite
      | chunk hpos hlong hwrite =>
          refine .later hpos hlong ?_
          rw [receiveLoop_chunk rfl hpos hlong hwrite] at h
          rw [skip_splitting]
          exact ih h

/-- A transfer is given up at an error exactly when its splitting says so. -/
theorem stop_iff_aborts (hfuel : length + again.length ≤ fuel) (written : List UInt8)
    (conn : Conn) :
    (receiveLoop checked fuel length written writes again conn).stop = .complete ∨
        (receiveLoop checked fuel length written writes again conn).stop = .ended ↔
      ¬ Aborts checked length writes again (splitting conn) := by
  have hstop : (receiveLoop checked fuel length written writes again conn).stop = .complete ∨
        (receiveLoop checked fuel length written writes again conn).stop = .ended ↔
      ¬ ((receiveLoop checked fuel length written writes again conn).stop = .failed ∨
        (receiveLoop checked fuel length written writes again conn).stop = .writeError) := by
    cases (receiveLoop checked fuel length written writes again conn).stop <;> simp
  rw [hstop]
  exact not_congr ⟨aborts_of_stop, fun h => h.stop hfuel written rfl⟩

/-- A transfer that stores the first `body` bytes stores them as they were sent. -/
theorem Stores.stored {s : Source Unit} {body : ℕ} (h : Stores length body writes again s)
    (haborts : ¬ Aborts checked length writes again s) (hfuel : length + again.length ≤ fuel)
    (written : List UInt8) {conn : Conn} (hconn : splitting conn = s) :
    body ≤ size conn ∧
      (receiveLoop checked fuel length written writes again conn).written =
        written ++ (carried conn).take body := by
  induction h generalizing fuel written conn with
  | done =>
      rw [receiveLoop_of_eq_zero rfl, List.take_zero, List.append_nil]
      exact ⟨Nat.zero_le _, rfl⟩
  | @ended length writes again s hshort hends =>
      have hpos := pos_of_short hshort
      obtain ⟨fuel, rfl⟩ := Nat.exists_eq_succ_of_ne_zero (show fuel ≠ 0 by omega)
      rw [receiveLoop_ended hconn hshort hends, List.take_zero, List.append_nil]
      exact ⟨Nat.zero_le _, rfl⟩
  | @retried length body writes again s hshort hfails hnone _ ih =>
      have hlater : ¬ Aborts checked length writes again (afterFailure s) :=
        fun h => haborts (.retried hshort hfails h)
      rw [List.length_cons] at hfuel
      obtain ⟨fuel, rfl⟩ := Nat.exists_eq_succ_of_ne_zero (show fuel ≠ 0 by omega)
      obtain ⟨hall, hwritten⟩ := ih hlater (show length + again.length ≤ fuel by omega) written
        (splitting_afterFailure hconn)
      rw [receiveLoop_retry hconn hshort hfails, hwritten]
      rw [← hconn, delivered_splitting_eq_nil_iff] at hnone
      rcases hnone with hnil | rfl
      · rw [size, carried_eq conn, hnil, List.nil_append]
        exact ⟨hall, rfl⟩
      · exact ⟨Nat.zero_le _, by rw [List.take_zero, List.take_zero]⟩
  | @chunk length body writes again s hpos hlong hle hall _ ih =>
      have hlater : ¬ Aborts checked (length - lastRead (min length chunkSize) s) writes.tail again
          (skip (min length chunkSize) s) := fun h => haborts (.later hpos hlong h)
      have hwrite : checked = true → WriteFits writes (lastRead (min length chunkSize) s) := by
        intro hchecked
        by_contra hnot
        exact haborts (.unwritten hpos hlong hchecked hnot)
      obtain ⟨fuel, rfl⟩ := Nat.exists_eq_succ_of_ne_zero (show fuel ≠ 0 by omega)
      have hless := fuel_chunk hfuel hpos hlong
      have hlast := (lastRead_spec (chunk_pos hpos) hlong).2.1
      have hstored := storedOf_le writes (lastRead (min length chunkSize) s)
      obtain ⟨hsplit, hcarried, hsize⟩ := skip_chunk hconn hlong
      rw [receiveLoop_chunk hconn hpos hlong hwrite]
      generalize storedOf writes (lastRead (min length chunkSize) s) = n at *
      obtain ⟨hrest, hwritten⟩ := ih hlater hless (written ++ (carried conn).take n) hsplit
      rw [size, hcarried, List.length_drop] at hrest
      rw [size, hwritten, hcarried, List.append_assoc]
      rcases hall with rfl | rfl
      · refine ⟨by omega, congrArg (written ++ ·) ?_⟩
        rw [← List.take_add]
        congr 1
        omega
      · refine ⟨by omega, ?_⟩
        rw [Nat.sub_self, List.take_zero, List.append_nil]

end Runs

/-! ### What is lost -/

section Lost

variable {checked : Bool} {length : ℕ} {writes : List (Option ℕ)} {again : List Bool}

/-- The loop only adds to the file, and only what the connection carries. -/
theorem receiveLoop_appends (checked : Bool) (fuel length : ℕ) (written : List UInt8)
    (writes : List (Option ℕ)) (again : List Bool) (conn : Conn) :
    ∃ more, (receiveLoop checked fuel length written writes again conn).written = written ++ more ∧
      more ⊆ carried conn := by
  induction fuel generalizing length written writes again conn with
  | zero => exact ⟨[], (List.append_nil written).symm, List.nil_subset _⟩
  | succ fuel ih =>
      by_cases hlength : length = 0
      · rw [receiveLoop_of_eq_zero hlength]
        exact ⟨[], (List.append_nil written).symm, List.nil_subset _⟩
      · have hcarried := recvAll_carried conn (min length chunkSize)
        rw [receiveLoop, if_neg hlength]
        dsimp only
        generalize recvAll conn (min length chunkSize) = got at hcarried ⊢
        have hstored : got.stored ⊆ carried conn := hcarried ▸ List.subset_append_left _ _
        have hrest : carried got.rest ⊆ carried conn := hcarried ▸ List.subset_append_right _ _
        have hwrite : (fwrite writes (got.stored.take got.ret.toNat)).1 ⊆ carried conn := by
          rw [fwrite_fst]
          exact List.Subset.trans (List.take_subset _ _)
            (List.Subset.trans (List.take_subset _ _) hstored)
        split
        · split
          · obtain ⟨more, hmore, hsub⟩ := ih length written writes _ got.rest
            exact ⟨more, hmore, List.Subset.trans hsub hrest⟩
          · exact ⟨[], (List.append_nil written).symm, List.nil_subset _⟩
        · split
          · exact ⟨[], (List.append_nil written).symm, List.nil_subset _⟩
          · split
            · exact ⟨_, rfl, hwrite⟩
            · obtain ⟨more, hmore, hsub⟩ :=
                ih _ (written ++ (fwrite writes (got.stored.take got.ret.toNat)).1) writes.tail
                  again got.rest
              rw [List.append_assoc] at hmore
              exact ⟨_, hmore, List.append_subset.mpr ⟨hwrite, List.Subset.trans hsub hrest⟩⟩

theorem length_receiveLoop_le (checked : Bool) (fuel length : ℕ) (written : List UInt8)
    (writes : List (Option ℕ)) (again : List Bool) (conn : Conn) :
    (receiveLoop checked fuel length written writes again conn).written.length ≤
      written.length + length := by
  induction fuel generalizing length written writes again conn with
  | zero => exact Nat.le_add_right _ _
  | succ fuel ih =>
      by_cases hlength : length = 0
      · rw [receiveLoop_of_eq_zero hlength]
        exact Nat.le_add_right _ _
      · have hread : (recvAll conn (min length chunkSize)).ret.toNat ≤ length := by
          rcases recvAll_cases conn (chunk_pos (Nat.pos_of_ne_zero hlength)) with
            ⟨hret, -⟩ | ⟨hret, -⟩ | ⟨-, -, hret, -⟩ <;> omega
        rw [receiveLoop, if_neg hlength]
        dsimp only
        generalize recvAll conn (min length chunkSize) = got at hread ⊢
        have hstored : (fwrite writes (got.stored.take got.ret.toNat)).1.length ≤
            got.ret.toNat := by
          rw [fwrite_fst]
          exact (List.length_take_le' _ _).trans (List.length_take_le _ _)
        split
        · split
          · exact ih length written writes _ got.rest
          · exact Nat.le_add_right _ _
        · split
          · exact Nat.le_add_right _ _
          · split
            · rw [List.length_append]
              omega
            · have hmore := ih (length - got.ret.toNat)
                (written ++ (fwrite writes (got.stored.take got.ret.toNat)).1) writes.tail again
                got.rest
              rw [List.length_append] at hmore
              omega

/-- At position `p` the file has nothing or a byte from further back. -/
def LostAt (p : ℕ) (written added sent : List UInt8) : Prop :=
  ∃ tail, added = written ++ sent.take p ++ tail ∧ tail ⊆ sent.drop (p + 1)

/-- The bytes behind those that are stored of a chunk are lost, if these are not all. -/
theorem lostAt_chunk {fuel : ℕ} {s : Source Unit} {conn : Conn} (hconn : splitting conn = s)
    (hpos : 0 < length) (hlong : min length chunkSize ≤ (delivered s).length)
    (hwrite : checked = true → WriteFits writes (lastRead (min length chunkSize) s))
    (hn : storedOf writes (lastRead (min length chunkSize) s) < min length chunkSize)
    (written : List UInt8) :
    LostAt (storedOf writes (lastRead (min length chunkSize) s)) written
      (receiveLoop checked (fuel + 1) length written writes again conn).written
      (carried conn) := by
  rw [receiveLoop_chunk hconn hpos hlong hwrite]
  generalize storedOf writes (lastRead (min length chunkSize) s) = n at hn ⊢
  obtain ⟨more, hmore, hsub⟩ := receiveLoop_appends checked fuel
    (length - lastRead (min length chunkSize) s) (written ++ (carried conn).take n) writes.tail
    again (skip (min length chunkSize) conn)
  rw [(skip_chunk hconn hlong).2.1] at hsub
  refine ⟨more, hmore, List.Subset.trans hsub ?_⟩
  have hle : n + 1 + (min length chunkSize - (n + 1)) = min length chunkSize := by omega
  rw [← hle, ← List.drop_drop]
  exact List.drop_subset _ _

theorem lostAt_retry {fuel : ℕ} {s : Source Unit} {conn : Conn} (hconn : splitting conn = s)
    (hshort : (delivered s).length < min length chunkSize) (hfails : fails s = true)
    (hsome : delivered s ≠ []) (written : List UInt8) :
    LostAt 0 written
      (receiveLoop checked (fuel + 1) length written writes (true :: again) conn).written
      (carried conn) := by
  rw [receiveLoop_retry hconn hshort hfails]
  rw [← hconn, Ne, delivered_splitting_eq_nil_iff] at hsome
  obtain ⟨more, hmore, hsub⟩ := receiveLoop_appends checked fuel length written writes again
    (afterFailure conn)
  obtain ⟨b, bs, hdelivered⟩ := List.exists_cons_of_ne_nil hsome
  refine ⟨more, by rw [hmore, List.take_zero, List.append_nil], List.Subset.trans hsub ?_⟩
  rw [carried_eq conn, hdelivered, List.cons_append, Nat.zero_add, List.drop_one, List.tail_cons]
  exact List.subset_append_right _ _

/-- What is lost behind a chunk that is stored is lost of the whole. -/
theorem LostAt.behind {k p : ℕ} {written added sent : List UInt8}
    (h : LostAt p (written ++ sent.take k) added (sent.drop k)) :
    LostAt (k + p) written added sent := by
  obtain ⟨tail, hadded, htail⟩ := h
  refine ⟨tail, ?_, ?_⟩
  · rw [hadded, List.append_assoc written, ← List.take_add]
  · rw [List.drop_drop] at htail
    exact htail

/-- The transfer over every connection that is split like `s` loses the same one of the first
`body` bytes, or stores more than these. -/
def Spoils (checked : Bool) (fuel length body : ℕ) (writes : List (Option ℕ)) (again : List Bool)
    (s : Source Unit) : Prop :=
  (∃ p < body, ∀ written conn, splitting conn = s → LostAt p written
    (receiveLoop checked fuel length written writes again conn).written (carried conn)) ∨
  ∀ written conn, splitting conn = s → written.length + body <
    (receiveLoop checked fuel length written writes again conn).written.length

section Spoils

variable {fuel body : ℕ} {s : Source Unit}

theorem Spoils.of_nothing (hbody : body ≠ 0)
    (h : ∀ written conn, splitting conn = s →
      (receiveLoop checked fuel length written writes again conn).written = written) :
    Spoils checked fuel length body writes again s := by
  refine Or.inl ⟨0, Nat.pos_of_ne_zero hbody, fun written conn hconn => ⟨[], ?_, ?_⟩⟩
  · rw [h written conn hconn, List.take_zero, List.append_nil, List.append_nil]
  · exact List.nil_subset _

theorem Spoils.retried (hshort : (delivered s).length < min length chunkSize)
    (hfails : fails s = true) (hnone : delivered s = [] ∨ body = 0)
    (h : Spoils checked fuel length body writes again (afterFailure s)) :
    Spoils checked (fuel + 1) length body writes (true :: again) s := by
  rcases h with ⟨p, hp, hlost⟩ | hmore
  · refine Or.inl ⟨p, hp, fun written conn hconn => ?_⟩
    have hnil : delivered conn = [] := by
      rw [← delivered_splitting_eq_nil_iff, hconn]
      exact hnone.resolve_right (by omega)
    rw [receiveLoop_retry hconn hshort hfails, carried_eq conn, hnil, List.nil_append]
    exact hlost written _ (splitting_afterFailure hconn)
  · refine Or.inr fun written conn hconn => ?_
    rw [receiveLoop_retry hconn hshort hfails]
    exact hmore written _ (splitting_afterFailure hconn)

/-- A chunk that is stored, or that is stored to the end of what was to be. -/
theorem Spoils.chunk {n : ℕ} (hpos : 0 < length)
    (hlong : min length chunkSize ≤ (delivered s).length)
    (hwrite : checked = true → WriteFits writes (lastRead (min length chunkSize) s))
    (hn : storedOf writes (lastRead (min length chunkSize) s) = n) (hle : n ≤ body)
    (hall : n = min length chunkSize ∨ body = n)
    (h : Spoils checked fuel (length - lastRead (min length chunkSize) s) (body - n) writes.tail
      again (skip (min length chunkSize) s)) :
    Spoils checked (fuel + 1) length body writes again s := by
  have hsize : n ≤ min length chunkSize := by
    rw [← hn]
    exact (storedOf_le _ _).trans (lastRead_spec (chunk_pos hpos) hlong).2.1
  rcases h with ⟨p, hp, hlost⟩ | hmore
  · obtain rfl : n = min length chunkSize := hall.resolve_right (by omega)
    refine Or.inl ⟨min length chunkSize + p, by omega, fun written conn hconn => ?_⟩
    obtain ⟨hsplit, hcarried, -⟩ := skip_chunk hconn hlong
    rw [receiveLoop_chunk hconn hpos hlong hwrite, hn]
    apply LostAt.behind
    rw [← hcarried]
    exact hlost _ _ hsplit
  · refine Or.inr fun written conn hconn => ?_
    obtain ⟨hsplit, -, hlen⟩ := skip_chunk hconn hlong
    have hadded := hmore (written ++ (carried conn).take n) _ hsplit
    rw [List.length_append, List.length_take, Nat.min_eq_left (hsize.trans hlen)] at hadded
    rw [receiveLoop_chunk hconn hpos hlong hwrite, hn]
    omega

/-- A chunk of which more is stored than was to be. -/
theorem Spoils.longer (hpos : 0 < length) (hlong : min length chunkSize ≤ (delivered s).length)
    (hwrite : checked = true → WriteFits writes (lastRead (min length chunkSize) s))
    (hmore : body < storedOf writes (lastRead (min length chunkSize) s)) :
    Spoils checked (fuel + 1) length body writes again s := by
  refine Or.inr fun written conn hconn => ?_
  have hstored : storedOf writes (lastRead (min length chunkSize) s) ≤ (carried conn).length :=
    (storedOf_le _ _).trans ((lastRead_spec (chunk_pos hpos) hlong).2.1.trans
      (skip_chunk hconn hlong).2.2)
  rw [receiveLoop_chunk hconn hpos hlong hwrite]
  obtain ⟨more, hmore', -⟩ := receiveLoop_appends checked fuel
    (length - lastRead (min length chunkSize) s)
    (written ++ (carried conn).take (storedOf writes (lastRead (min length chunkSize) s)))
    writes.tail again (skip (min length chunkSize) conn)
  rw [hmore', List.length_append, List.length_append, List.length_take, Nat.min_eq_left hstored]
  omega

end Spoils

/-- A transfer that comes to its success without storing just the first bytes is spoilt. -/
theorem exists_spoilt {fuel body : ℕ} {s : Source Unit} (hfuel : length + again.length ≤ fuel)
    (haborts : ¬ Aborts checked length writes again s)
    (hstores : ¬ Stores length body writes again s) :
    Spoils checked fuel length body writes again s := by
  induction fuel generalizing length body writes again s with
  | zero =>
      obtain rfl : length = 0 := by omega
      exact .of_nothing (fun hzero => hstores (hzero ▸ .done)) fun written conn _ => by
        rw [receiveLoop_of_eq_zero rfl]
  | succ fuel ih =>
      cases turn_cases checked length writes again s with
      | done hzero =>
          subst hzero
          exact .of_nothing (fun hzero => hstores (hzero ▸ .done)) fun written conn _ => by
            rw [receiveLoop_of_eq_zero rfl]
      | ended hshort hends =>
          refine .of_nothing (fun hzero => hstores (hzero ▸ .ended hshort hends)) ?_
          intro written conn hconn
          rw [receiveLoop_ended hconn hshort hends]
      | failed hshort hfails hagain => exact absurd (.failed hshort hfails hagain) haborts
      | unwritten hpos hlong hchecked hwrite =>
          exact absurd (.unwritten hpos hlong hchecked hwrite) haborts
      | retried rest hagain hshort hfails =>
          subst hagain
          rw [List.length_cons] at hfuel
          have hlater : ¬ Aborts checked length writes rest (afterFailure s) :=
            fun h => haborts (.retried hshort hfails h)
          by_cases hnone : delivered s = [] ∨ body = 0
          · exact .retried hshort hfails hnone
              (ih (by omega) hlater fun h => hstores (.retried hshort hfails hnone h))
          · rw [not_or] at hnone
            exact Or.inl ⟨0, Nat.pos_of_ne_zero hnone.2, fun written conn hconn =>
              lostAt_retry hconn hshort hfails hnone.1 written⟩
      | chunk hpos hlong hwrite =>
          have hlater : ¬ Aborts checked (length - lastRead (min length chunkSize) s) writes.tail
              again (skip (min length chunkSize) s) := fun h => haborts (.later hpos hlong h)
          have hless := fuel_chunk hfuel hpos hlong
          obtain ⟨n, hn⟩ : ∃ n, storedOf writes (lastRead (min length chunkSize) s) = n := ⟨_, rfl⟩
          have hsize : n ≤ min length chunkSize := by
            rw [← hn]
            exact (storedOf_le _ _).trans (lastRead_spec (chunk_pos hpos) hlong).2.1
          rcases Nat.lt_or_ge body n with hmore | hle
          · exact .longer hpos hlong hwrite (hn.symm ▸ hmore)
          · by_cases hall : n = min length chunkSize ∨ body = n
            · refine .chunk hpos hlong hwrite hn hle hall (ih hless hlater fun h => hstores ?_)
              subst hn
              exact .chunk hpos hlong hle hall h
            · subst hn
              exact Or.inl ⟨_, by omega, fun written conn hconn =>
                lostAt_chunk hconn hpos hlong hwrite (by omega) written⟩

def marked (p i : ℕ) : UInt8 := if i = p then 1 else 0

/-- With the lost byte marked, the file is not the start of what was sent. -/
theorem not_lostAt_marked {p body : ℕ} (hp : p < body) {written : List UInt8} {s : Source Unit}
    (hbody : body ≤ size s)
    (h : LostAt p written (written ++ (carried (label (marked p) 0 s)).take body)
      (carried (label (marked p) 0 s))) : False := by
  obtain ⟨tail, hwritten, htail⟩ := h
  have hsent : carried (label (marked p) 0 s) = (List.range' 0 (size s)).map (marked p) :=
    carried_label _ 0 s
  have hlen : (carried (label (marked p) 0 s)).length = size s := by
    rw [hsent, List.length_map, List.length_range']
  generalize carried (label (marked p) 0 s) = sent at hwritten htail hsent hlen
  rw [List.append_assoc] at hwritten
  replace hwritten := List.append_cancel_left hwritten
  have hnone : ∀ x ∈ tail, x = 0 := by
    intro x hx
    obtain ⟨i, hi, hxi⟩ := List.mem_iff_getElem.mp (htail hx)
    rw [← hxi, List.getElem_drop]
    subst hsent
    rw [List.getElem_map, List.getElem_range', marked, if_neg (by omega)]
  have hbyte : (sent.take body)[p]? = some 1 := by
    rw [List.getElem?_take_of_lt hp, hsent, List.getElem?_map,
      List.getElem?_range' (by omega)]
    simp [marked]
  have hat : (sent.take body)[p]? = tail[0]? := by
    rw [hwritten, List.getElem?_append_right (by rw [List.length_take]; omega), List.length_take,
      hlen, Nat.min_eq_left (by omega), Nat.sub_self]
  rw [hat] at hbyte
  exact absurd (hnone 1 (List.mem_of_getElem? hbyte)) (by decide)

/-- Whatever the bytes are, a transfer over a connection that is split like `s` is given up at
an error or stores the first `body` bytes of what is sent, exactly where the splitting
says so. -/
theorem stores_iff {fuel body : ℕ} {s : Source Unit} (hfuel : length + again.length ≤ fuel)
    (written : List UInt8) :
    (∀ conn, splitting conn = s →
      ((receiveLoop checked fuel length written writes again conn).stop = .complete ∨
        (receiveLoop checked fuel length written writes again conn).stop = .ended) →
      body ≤ size conn ∧
        (receiveLoop checked fuel length written writes again conn).written =
          written ++ (carried conn).take body) ↔
    Aborts checked length writes again s ∨ Stores length body writes again s := by
  constructor
  · intro hall
    by_contra hnot
    rw [not_or] at hnot
    have hkeeps {conn : Conn} (hconn : splitting conn = s) :=
      hall conn hconn ((stop_iff_aborts hfuel written conn).mpr (hconn.symm ▸ hnot.1))
    rcases exists_spoilt hfuel hnot.1 hnot.2 with ⟨p, hp, hlost⟩ | hmore
    · have hsplit := splitting_label (marked p) 0 s
      obtain ⟨hsize, hwritten⟩ := hkeeps hsplit
      have hat := hlost written _ hsplit
      rw [← size_splitting, hsplit] at hsize
      rw [hwritten] at hat
      exact not_lostAt_marked hp hsize hat
    · have hsplit := splitting_label (marked 0) 0 s
      have hlen := hmore written _ hsplit
      rw [(hkeeps hsplit).2, List.length_append] at hlen
      have htake := List.length_take_le body (carried (label (marked 0) 0 s))
      omega
  · rintro (haborts | hstores) conn rfl hstop
    · exact absurd haborts ((stop_iff_aborts hfuel written conn).mp hstop)
    · exact hstores.stored ((stop_iff_aborts hfuel written conn).mp hstop) hfuel written rfl

end Lost

/-! ### Bodies of the length that is expected -/

section Kept

variable {checked : Bool} {fuel length : ℕ} {writes : List (Option ℕ)} {again : List Bool}
  {s : Source Unit}

theorem Kept.stores (h : Kept length writes again s) : Stores length length writes again s := by
  induction h with
  | done => exact .done
  | @retried length writes again s hpos hnone hfails _ ih =>
      refine .retried ?_ hfails (Or.inl hnone) ih
      rw [hnone, List.length_nil]
      exact chunk_pos hpos
  | @chunk length writes again s hpos hfirst hwrite _ ih =>
      have hlong : min length chunkSize ≤ (delivered s).length :=
        hfirst.trans (firstChunk_isPrefix_of s).length_le
      have hlast : lastRead (min length chunkSize) s = min length chunkSize :=
        (lastRead_spec (chunk_pos hpos) hlong).2.2.mpr hfirst
      have hstored : storedOf writes (lastRead (min length chunkSize) s) = min length chunkSize := by
        rw [hlast, storedOf_eq_iff.mpr hwrite]
      refine .chunk hpos hlong ?_ (Or.inl hstored) ?_
      · rw [hstored]
        exact Nat.min_le_left _ _
      · rw [hstored, hlast]
        exact ih

theorem Stores.kept {body : ℕ} (h : Stores length body writes again s) (hbody : body = length) :
    Kept length writes again s := by
  induction h with
  | done => exact .done
  | ended hshort hends => exact absurd hbody.symm (pos_of_short hshort)
  | retried hshort hfails hnone _ ih =>
      have hpos := Nat.pos_of_ne_zero (pos_of_short hshort)
      exact .retried hpos (hnone.resolve_right (by omega)) hfails (ih hbody)
  | @chunk length body writes again s hpos hlong hle hall _ ih =>
      obtain ⟨hread, hlast, hfirst⟩ := lastRead_spec (chunk_pos hpos) hlong
      have hstored := storedOf_le writes (lastRead (min length chunkSize) s)
      -- less than the body is stored only of a chunk that is read in several steps
      have hwhole : storedOf writes (lastRead (min length chunkSize) s) =
          lastRead (min length chunkSize) s ∧
          lastRead (min length chunkSize) s = min length chunkSize := by
        rcases hall with hall | hall <;> omega
      refine .chunk hpos (hfirst.mp hwhole.2) ?_ ?_
      · rw [← hwhole.2]
        exact storedOf_eq_iff.mp hwhole.1
      · rw [hwhole.1, hwhole.2] at ih
        exact ih (by rw [hbody])

/-- Whatever the bytes are, a transfer is given up at an error or stores all the bytes that it
expects, exactly where the splitting says so. -/
theorem kept_iff (hfuel : length + again.length ≤ fuel) (written : List UInt8) :
    (∀ conn, splitting conn = s →
      ((receiveLoop checked fuel length written writes again conn).stop = .complete ∨
        (receiveLoop checked fuel length written writes again conn).stop = .ended) →
      length ≤ size conn ∧
        (receiveLoop checked fuel length written writes again conn).written =
          written ++ (carried conn).take length) ↔
    Aborts checked length writes again s ∨ Kept length writes again s := by
  rw [stores_iff hfuel written]
  exact or_congr_right ⟨fun h => h.kept rfl, Kept.stores⟩

end Kept

end Kademlia.Http
