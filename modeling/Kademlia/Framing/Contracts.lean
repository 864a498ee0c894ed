import Kademlia.Framing.RecvAll
import Kademlia.Framing.RecvUntil

/-!
What `recv_until` and `recv_all` promise their callers.

Both are to take a certain part off the front of the stream, store it and return
its length. `recv_until` does so for one message head, wherever the chunks are
split. `recv_all` takes the right bytes, but what it returns is the result of its
last `read`: that is the length only if this read got all of them.
-/

namespace Kademlia.Framing

open Foundations Foundations.Source Model

/-- The first `n` bytes that `conn` carries are stored, taken off it and counted. -/
structure Takes (conn : Conn) (n : ℕ) (r : RecvAll) : Prop where
  stored_eq : r.stored = (carried conn).take n
  ret_eq : r.ret = n
  rest_eq : carried r.rest = (carried conn).drop n

/-! ### Message heads -/

/-- `head` is the shortest prefix of `stream` that ends with `pattern`. -/
structure ShortestHead (pattern stream head : List UInt8) : Prop where
  isPrefix : head <+: stream
  isSuffix : pattern <:+ head
  shortest : ∀ p, p <+: stream → pattern <:+ p → head.length ≤ p.length

/-- No `read` fails before a head is complete or `len` bytes are there. -/
def ReadsThrough (len : ℕ) (pattern : List UInt8) (conn : Conn) : Prop :=
  fails conn = false ∨ len ≤ (delivered conn).length ∨
    ∃ head, ShortestHead pattern (delivered conn) head

variable {len : ℕ} {pattern : List UInt8} {conn : Conn}

theorem ShortestHead.matchedLast {stream head : List UInt8}
    (h : ShortestHead pattern stream head) : MatchedLast pattern head := by
  intro k hk hmatch
  have hle := h.shortest _ ((List.take_prefix k head).trans h.isPrefix) hmatch
  rw [List.length_take] at hle
  omega

theorem MatchedLast.shortestHead {stream used : List UInt8} (h : MatchedLast pattern used)
    (hused : used <+: stream) (hmatch : pattern <:+ used) :
    ShortestHead pattern stream used := by
  refine ⟨hused, hmatch, fun p hp hend => ?_⟩
  by_contra hlt
  have hpre := List.prefix_of_prefix_length_le hp hused (not_le.mp hlt).le
  rw [List.prefix_iff_eq_take.mp hpre] at hend
  exact h _ (not_le.mp hlt) hend

theorem recvUntil_ret_nonneg (hpattern : pattern ≠ []) (h : ReadsThrough len pattern conn) :
    0 ≤ (recvUntil conn len pattern).ret := by
  obtain ⟨used, left, finished, hscan, hbytes, -, -, -, hgo⟩ :=
    scanUntil_spec len [] (delivered conn) (Nat.zero_le len) (unmatched_nil hpattern)
  rw [List.nil_append] at hscan hgo
  rw [recvUntil, (recvUntilLoop_eq [] conn hscan).2]
  split
  · exact Int.natCast_nonneg _
  · next hcut =>
      simp only [not_or, Bool.not_eq_true, Bool.not_eq_false, not_le] at hcut
      obtain ⟨hgoes, hfails, hopen⟩ := hcut
      obtain ⟨rfl, hunmatched⟩ := hgo hgoes
      rw [List.append_nil] at hbytes
      rcases h with hends | hfull | ⟨head, hhead⟩
      · rw [hfails] at hends
        cases hends
      · rw [hbytes] at hfull
        omega
      · -- the head would have ended the search
        have hmatch := hhead.isSuffix
        rw [List.prefix_iff_eq_take.mp hhead.isPrefix, hbytes] at hmatch
        refine absurd hmatch (hunmatched _ ?_)
        exact hbytes ▸ hhead.isPrefix.length_le

theorem recvUntil_takes (hpattern : pattern ≠ []) (h : ReadsThrough len pattern conn) :
    ∃ used, Takes conn used.length (recvUntil conn len pattern) ∧ used <+: carried conn ∧
      used.length ≤ len ∧ MatchedLast pattern used ∧
      (pattern <:+ used ∨ used.length = len ∨ used = carried conn) := by
  have hnonneg := recvUntil_ret_nonneg hpattern h
  obtain ⟨used, hread⟩ := recvUntil_spec len hpattern conn
  have hcarried := recvUntil_carried len pattern conn
  have hlen := hread.length_le
  have hlast := hread.matchedLast
  have hend := hread.outcome
  rw [hread.stored_eq] at hcarried
  rw [List.nil_append] at hcarried hlen hlast
  have hpre : used <+: carried conn := ⟨_, hcarried⟩
  have htakes (hret : (recvUntil conn len pattern).ret = used.length) :
      Takes conn used.length (recvUntil conn len pattern) := by
    refine ⟨?_, hret, ?_⟩
    · rw [hread.stored_eq, List.nil_append]
      exact List.prefix_iff_eq_take.mp hpre
    · rw [← hcarried, List.drop_left]
  cases hend with
  | failed _ _ hret =>
      rw [hret] at hnonneg
      exact absurd hnonneg (by decide)
  | stopped hstop _ hret _ =>
      exact ⟨used, htakes hret, hpre, hlen, hlast, hstop.imp_right Or.inl⟩
  | ended _ _ hret hrest =>
      refine ⟨used, htakes hret, hpre, hlen, hlast, Or.inr (Or.inr ?_)⟩
      rw [hrest] at hcarried
      simpa [carried] using hcarried

/-- One message head, if there is room for it; as much as there is room for, if not. -/
theorem recvUntil_takes_head (hpattern : pattern ≠ []) (h : ReadsThrough len pattern conn) :
    (∀ head, ShortestHead pattern (carried conn) head → head.length ≤ len →
        Takes conn head.length (recvUntil conn len pattern)) ∧
      ((¬ ∃ head, ShortestHead pattern (carried conn) head ∧ head.length ≤ len) →
        Takes conn (min len (carried conn).length) (recvUntil conn len pattern)) := by
  obtain ⟨used, htakes, hpre, hlen, hlast, hstop⟩ := recvUntil_takes hpattern h
  constructor
  · intro head hhead hfits
    have hreached : pattern <:+ used ∨ head.length ≤ used.length := by
      rcases hstop with hmatch | hfull | hall
      · exact Or.inl hmatch
      · exact Or.inr (hfits.trans hfull.ge)
      · exact Or.inr (hall ▸ hhead.isPrefix.length_le)
    have hsame := hlast.eq_of_prefix hhead.matchedLast hhead.isSuffix hreached hpre
      hhead.isPrefix
    exact hsame ▸ htakes
  · intro hnone
    have hcount : used.length = min len (carried conn).length := by
      have hle := hpre.length_le
      rcases hstop with hmatch | hfull | hall
      · exact absurd ⟨used, hlast.shortestHead hpre hmatch, hlen⟩ hnone
      · omega
      · rw [hall] at hlen ⊢
        omega
    exact hcount ▸ htakes

/-- CR CR LF CR LF X, with an interruption. -/
def overlapConn : Conn := [.chunk 13 [13], .interrupt, .chunk 10 [13, 10, 88]]

theorem shortestHead_overlapConn :
    ShortestHead [13, 10] (carried overlapConn) [13, 13, 10] := by
  refine MatchedLast.shortestHead ?_ (by decide) (by decide)
  rw [MatchedLast]
  decide

theorem recvUntil_takes_head_overlap : Takes overlapConn 3 (recvUntil overlapConn 6 [13, 10]) :=
  (recvUntil_takes_head (List.cons_ne_nil _ _) (Or.inl rfl)).1 _ shortestHead_overlapConn
    (by decide)

/-! ### What `recv_all` returns -/

theorem carried_eq_delivered {conn : Conn} (h : fails conn = false) :
    carried conn = delivered conn := by
  induction conn with
  | nil => rfl
  | cons event conn ih =>
      cases event with
      | chunk b bs => exact congrArg (b :: bs ++ ·) (ih h)
      | interrupt => exact ih h
      | failure => cases h

/-- Apart from what it returns, `recv_all` takes what it is asked for. -/
theorem recvAll_takes_iff_ret (h : fails conn = false ∨ len ≤ (delivered conn).length) :
    Takes conn (min len (carried conn).length) (recvAll conn len) ↔
      (recvAll conn len).ret = min len (carried conn).length := by
  have hstored : (recvAll conn len).stored = (carried conn).take len := by
    rw [recvAll_stored]
    rcases h with hends | hall
    · rw [carried_eq_delivered hends]
    · exact (take_carried hall).symm
  have htake : (carried conn).take (min len (carried conn).length) = (carried conn).take len := by
    rw [List.take_eq_take_iff, min_assoc, min_self]
  constructor
  · exact Takes.ret_eq
  · intro hret
    refine ⟨hstored.trans htake.symm, hret, ?_⟩
    have hsplit := recvAll_carried conn len
    have hlen : (recvAll conn len).stored.length = min len (carried conn).length := by
      rw [hstored, List.length_take]
    rw [← hlen, ← hsplit, List.drop_left]

/-- The number of bytes is returned if one `read` gets them all. -/
theorem recvAll_takes_iff (h : fails conn = false ∨ len ≤ (delivered conn).length) :
    Takes conn (min len (carried conn).length) (recvAll conn len) ↔
      len = 0 ∨ carried conn = [] ∨ len ≤ (firstChunk conn).length := by
  rw [recvAll_takes_iff_ret h]
  have hfirst := (firstChunk_isPrefix_of conn).length_le
  have hcarried := (delivered_isPrefix_carried conn).length_le
  by_cases hall : len ≤ (delivered conn).length
  · rw [Nat.min_eq_left (hall.trans hcarried)]
    rcases Nat.eq_zero_or_pos len with rfl | hpos
    · simp
    · rw [(recvAll_complete conn hpos hall).2.2.2]
      have hne : carried conn ≠ [] := List.ne_nil_of_length_pos (by omega)
      simp [hne, hpos.ne']
  · -- the stream ends inside the request
    have hends := h.resolve_right hall
    rw [(recvAll_stopped (not_le.mp hall)).1, hends, carried_eq_delivered hends,
      Nat.min_eq_right (not_le.mp hall).le, ← List.length_eq_zero_iff]
    have hpos : len ≠ 0 := by omega
    simp only [Bool.false_eq_true, if_false, hpos, false_or]
    omega

def twoChunks : Conn := [.chunk 97 [98], .chunk 99 []]

theorem recvAll_takes_iff_twoChunks :
    Takes twoChunks (min 2 (carried twoChunks).length) (recvAll twoChunks 2) ↔
      2 = 0 ∨ carried twoChunks = [] ∨ 2 ≤ (firstChunk twoChunks).length :=
  recvAll_takes_iff (Or.inl rfl)

/-- What is returned is 1, the size of the second chunk. -/
theorem not_recvAll_takes_twoChunks :
    ¬ Takes twoChunks (min 3 (carried twoChunks).length) (recvAll twoChunks 3) := by
  intro htakes
  exact absurd htakes.ret_eq (by decide)

end Kademlia.Framing
