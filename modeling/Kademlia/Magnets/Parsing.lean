import Kademlia.Magnets.RoundTrip

/-!
What the parser reads of a buffer.

The searches go on to the first NUL, which may be far behind a buffer that has
none, and `exact_length` is stored to only where there is a length. So a buffer
decides the result by itself if it has a NUL, or no hash, or if everything that
is looked for has an `&` behind it.
-/

namespace Kademlia.Magnets

open Foundations CString Model

/-! ### The searches in a buffer that goes on -/

theorem matchHash_eq_some {contents hash : List UInt8} :
    matchHash contents = some hash ↔
      magnetBase <+: contents ∧ hash = (contents.drop magnetBase.length).take 64 ∧
        hash.length = 64 ∧ ∀ b ∈ hash, isHexDigit b = true := by
  rw [matchHash]
  split
  · next hmatch =>
      rw [List.isPrefixOf_iff_prefix, List.all_eq_true] at hmatch
      constructor
      · rintro ⟨⟩
        exact ⟨hmatch.1, rfl, hmatch.2⟩
      · rintro ⟨-, rfl, -⟩
        rfl
  · next hmatch =>
      refine iff_of_false (fun h => Option.some_ne_none _ h.symm) ?_
      rintro ⟨hbase, rfl, hlen, hhex⟩
      exact hmatch ⟨List.isPrefixOf_iff_prefix.mpr hbase, hlen, List.all_eq_true.mpr hhex⟩

theorem matchHash_append_of_some {b hash : List UInt8} (h : matchHash b = some hash)
    (t : List UInt8) : matchHash (b ++ t) = some hash := by
  rw [matchHash_eq_some] at h ⊢
  obtain ⟨hbase, hhash, hlen, hhex⟩ := h
  refine ⟨hbase.trans (List.prefix_append b t), ?_, hlen, hhex⟩
  have hfits : 64 ≤ (b.drop magnetBase.length).length := by
    rw [hhash, List.length_take] at hlen
    omega
  rw [List.drop_append_of_le_length hbase.length_le, List.take_append_of_le_length hfits]
  exact hhash

/-- The buffer does not disagree with the first expression. -/
def HashBegins (b : List UInt8) : Prop :=
  b.take magnetBase.length <+: magnetBase ∧
    ∀ c ∈ (b.drop magnetBase.length).take 64, isHexDigit c = true

instance : DecidablePred HashBegins := fun b =>
  inferInstanceAs (Decidable (b.take magnetBase.length <+: magnetBase ∧
    ∀ c ∈ (b.drop magnetBase.length).take 64, isHexDigit c = true))

theorem hashBegins_of_append {b t hash : List UInt8} (h : matchHash (b ++ t) = some hash) :
    HashBegins b := by
  obtain ⟨hbase, hhash, -, hhex⟩ := matchHash_eq_some.mp h
  constructor
  · have hpre : b.take magnetBase.length <+: b ++ t :=
      (List.take_prefix _ _).trans (List.prefix_append b t)
    exact List.prefix_of_prefix_length_le hpre hbase (List.length_take_le _ _)
  · intro c hc
    apply hhex
    rw [hhash, List.drop_append, List.take_append]
    exact List.mem_append_left _ hc

/-- What is missing of a hash can follow. -/
theorem exists_matchHash {b : List UInt8} (h : HashBegins b) :
    ∃ t hash, 0 ∉ t ∧ matchHash (b ++ t) = some hash := by
  have hbase : magnetBase <+: b ++ magnetBase.drop b.length := by
    rcases Nat.lt_or_ge magnetBase.length b.length with hlt | hle
    · have hb : b.take magnetBase.length = magnetBase := h.1.eq_of_length (by
        rw [List.length_take]
        omega)
      nth_rewrite 1 [← hb]
      exact (List.take_prefix _ b).trans (List.prefix_append _ _)
    · have hb := h.1
      rw [List.take_of_length_le hle] at hb
      nth_rewrite 1 [List.prefix_iff_eq_take.mp hb, List.take_append_drop]
      exact List.prefix_rfl
  have hdrop : (b ++ magnetBase.drop b.length).drop magnetBase.length =
      b.drop magnetBase.length := by
    rw [List.drop_append, List.drop_drop, List.drop_of_length_le (i := b.length + _) (by omega),
      List.append_nil]
  have hrest : (b ++ (magnetBase.drop b.length ++ List.replicate 64 48)).drop magnetBase.length =
      b.drop magnetBase.length ++ List.replicate 64 48 := by
    rw [← List.append_assoc, List.drop_append_of_le_length hbase.length_le, hdrop]
  refine ⟨magnetBase.drop b.length ++ List.replicate 64 48, _, ?_, matchHash_eq_some.mpr ⟨?_, rfl,
    ?_, ?_⟩⟩
  · have hnul : 0 ∉ magnetBase := by decide
    rw [List.mem_append, not_or]
    exact ⟨fun hmem => hnul (List.mem_of_mem_drop hmem), by decide⟩
  · rw [← List.append_assoc]
    exact hbase.trans (List.prefix_append _ _)
  · rw [hrest, List.length_take, List.length_append, List.length_replicate]
    omega
  · intro c hc
    rw [hrest, List.take_append, List.mem_append] at hc
    rcases hc with hc | hc
    · exact h.2 c hc
    · rw [List.eq_of_mem_replicate (List.mem_of_mem_take hc)]
      rfl

theorem matchParameter_append_of_some {key b found : List UInt8} (h : strstr b key = some found)
    (t : List UInt8) :
    matchParameter key (b ++ t) = some ((found.drop key.length ++ t).takeWhile (· ≠ 38)) := by
  have hkey : key <+: found := List.isPrefixOf_iff_prefix.mp (findFirst_eq_some h).2.1
  rw [matchParameter, strstr_append h, Option.map_some, List.drop_append_of_le_length hkey.length_le]

/-- A parameter can always follow. -/
theorem matchParameter_append_key (b : List UInt8) {key : List UInt8} (hkey : key ≠ []) :
    matchParameter key (b ++ key) ≠ none := by
  rw [matchParameter, Ne, Option.map_eq_none_iff]
  induction b with
  | nil =>
      have hself := strstr_append_self key [] hkey
      rw [List.append_nil] at hself
      rw [List.nil_append, hself]
      exact Option.some_ne_none _
  | cons c b ih =>
      rw [List.cons_append, strstr, findFirst]
      split
      · exact Option.some_ne_none _
      · exact ih

/-- The value of a parameter, if the buffer settles where it ends. -/
def closedParameter (key b : List UInt8) : Option (List UInt8) :=
  (strstr b key).bind fun found =>
    if 38 ∈ found.drop key.length then some ((found.drop key.length).takeWhile (· ≠ 38)) else none

theorem takeWhile_append_of_mem {s : List UInt8} (h : 38 ∈ s) (t : List UInt8) :
    (s ++ t).takeWhile (· ≠ 38) = s.takeWhile (· ≠ 38) := by
  rw [List.takeWhile_append, if_neg]
  intro hall
  have hself := (List.takeWhile_prefix _).eq_of_length hall
  exact takeWhile_eq_self_iff_not_mem.mp hself h

theorem matchParameter_of_closed {key b value : List UInt8}
    (h : closedParameter key b = some value) (t : List UInt8) :
    matchParameter key (b ++ t) = some value := by
  obtain ⟨found, hfound, hvalue⟩ := Option.bind_eq_some_iff.mp h
  split at hvalue
  · next hmem =>
      rw [matchParameter_append_of_some hfound, takeWhile_append_of_mem hmem]
      exact hvalue
  · cases hvalue

/-- A parameter that is not closed depends on what follows. -/
theorem matchParameter_of_not_closed {key b : List UInt8} (hkey : key ≠ [])
    (h : closedParameter key b = none) :
    matchParameter key b = none ∧ matchParameter key (b ++ key) ≠ none ∨
      ∃ value, ∀ t, 38 ∉ t → matchParameter key (b ++ t) = some (value ++ t) := by
  cases hfound : strstr b key with
  | none =>
      refine Or.inl ⟨?_, matchParameter_append_key b hkey⟩
      rw [matchParameter, hfound, Option.map_none]
  | some found =>
      rw [closedParameter, hfound, Option.bind_some] at h
      split at h
      · cases h
      · next hmem =>
          refine Or.inr ⟨found.drop key.length, fun t ht => ?_⟩
          rw [matchParameter_append_of_some hfound, takeWhile_eq_self_iff_not_mem.mpr]
          rw [List.mem_append, not_or]
          exact ⟨hmem, ht⟩

/-! ### What decides the result -/

/-- The string at a buffer with the bytes `b`, which `following` stands behind. -/
def stringAt (b following : List UInt8) : List UInt8 := (b ++ following).takeWhile (· ≠ 0)

theorem stringAt_of_mem {b : List UInt8} (h : 0 ∈ b) (following : List UInt8) :
    stringAt b following = b.takeWhile (· ≠ 0) := by
  rw [stringAt, List.takeWhile_append, if_neg]
  intro hall
  have hself := (List.takeWhile_prefix _).eq_of_length hall
  exact absurd (List.takeWhile_eq_self_iff.mp hself 0 h) (by decide)

theorem stringAt_of_not_mem {b : List UInt8} (h : 0 ∉ b) (following : List UInt8) :
    stringAt b following = b ++ following.takeWhile (· ≠ 0) := by
  rw [stringAt, List.takeWhile_append_of_pos]
  intro c hc
  have hne : c ≠ 0 := fun heq => h (heq ▸ hc)
  simpa using hne

theorem stringAt_eq_append {b t : List UInt8} (h : 0 ∉ b) (ht : 0 ∉ t) :
    stringAt b t = b ++ t := by
  rw [stringAt_of_not_mem h, List.takeWhile_eq_self_iff.mpr]
  intro c hc
  have hne : c ≠ 0 := fun heq => ht (heq ▸ hc)
  simpa using hne

/-- The result of the parser for a buffer with the bytes `b` is the same whatever is behind
the buffer and whatever `malloc` returns. -/
def SameResult (b : List UInt8) : Prop :=
  ∃ result, ∀ following memory, memory < 2 ^ 64 →
    parseMagnetFromUri memory (stringAt b following) b.length = some result

/-- A string that has a length wherever it has a hash, and one that fits. -/
def HasLength (s : List UInt8) : Prop :=
  matchHash s ≠ none →
    ∃ fileSize, matchParameter (ascii "&xl=") s = some fileSize ∧ fileSize.length < 32

/-- All that is looked for is in the buffer, with its end. -/
structure Closed (b : List UInt8) : Prop where
  hash : matchHash b ≠ none
  name : closedParameter (ascii "&dn=") b ≠ none
  size : ∃ fileSize, closedParameter (ascii "&xl=") b = some fileSize ∧ fileSize.length < 32

/-- The buffer is empty, or has a NUL, or does not begin like a magnet, or it is closed. -/
def SelfContained (b : List UInt8) : Prop :=
  b = [] ∨ 0 ∈ b ∧ HasLength (b.takeWhile (· ≠ 0)) ∨ 0 ∉ b ∧ (HashBegins b → Closed b)

theorem parseMagnetFromUri_of_no_hash {contents : List UInt8} {len : ℕ} (hlen : 1 ≤ len)
    (h : matchHash contents = none) (memory : ℕ) :
    parseMagnetFromUri memory contents len = some none := by
  rw [parseMagnetFromUri, if_neg (not_lt.mpr hlen), h]

/-- One string has one result, unless its length is missing or too long. -/
theorem hasLength_iff {s : List UInt8} {len : ℕ} (hlen : 1 ≤ len) :
    (∃ result, ∀ memory, memory < 2 ^ 64 → parseMagnetFromUri memory s len = some result) ↔
      HasLength s := by
  cases hhash : matchHash s with
  | none =>
      refine iff_of_true ⟨none, fun memory _ => ?_⟩ fun hne => absurd hhash hne
      exact parseMagnetFromUri_of_no_hash hlen hhash memory
  | some hash =>
      rw [HasLength, hhash, forall_prop_of_true (Option.some_ne_none _)]
      have hparse := parseMagnetFromUri_of_hash hlen hhash
      cases hsize : matchParameter (ascii "&xl=") s with
      | none =>
          refine iff_of_false (fun ⟨result, hresult⟩ => ?_) (by simp)
          have hzero := hresult 0 (by decide)
          have hone := hresult 1 (by decide)
          rw [hparse, hsize, ← hzero, hparse, hsize] at hone
          cases hone
      | some fileSize =>
          simp only [hparse, hsize, Option.elim_some]
          split
          · next hlong =>
              refine iff_of_false (fun ⟨result, hresult⟩ => ?_) (by simpa using hlong)
              cases hresult 0 (by decide)
          · next hshort => exact iff_of_true ⟨_, fun _ _ => rfl⟩ ⟨fileSize, rfl, not_le.mp hshort⟩

theorem displayName_of_parse {contents : List UInt8} {len memory : ℕ} {magnet : FileMagnet}
    (h : parseMagnetFromUri memory contents len = some (some magnet)) :
    magnet.displayName = matchParameter (ascii "&dn=") contents := by
  unfold parseMagnetFromUri at h
  dsimp only at h
  split at h
  · cases h
  · split at h
    · cases h
    · split at h
      · cases h
        rfl
      · split at h
        · cases h
        · cases h
          rfl

section Runs

variable {b : List UInt8} {result : Option FileMagnet}

/-- A result that nothing behind the buffer changes is that of a buffer with the whole hash. -/
theorem exists_hash_of_runs (hlen : 1 ≤ b.length) (hbegins : HashBegins b)
    (hrun : ∀ t, 0 ∉ t → ∀ memory < 2 ^ 64,
      parseMagnetFromUri memory (b ++ t) b.length = some result) :
    ∃ hash, matchHash b = some hash := by
  by_contra hnone
  have hown := hrun [] List.not_mem_nil 0 (by decide)
  rw [List.append_nil, parseMagnetFromUri_of_no_hash hlen] at hown
  · obtain ⟨t, hash, ht, hhash⟩ := exists_matchHash hbegins
    have hother := hrun t ht 0 (by decide)
    rw [parseMagnetFromUri_of_hash hlen hhash, ← hown] at hother
    dsimp only at hother
    cases hsize : matchParameter (ascii "&xl=") (b ++ t) with
    | none =>
        rw [hsize] at hother
        cases hother
    | some fileSize =>
        rw [hsize, Option.elim_some] at hother
        split at hother
        · cases hother
        · cases hother
  · exact Option.eq_none_iff_forall_ne_some.mpr fun hash hhash => hnone ⟨hash, hhash⟩

/-- There is a length in each string that begins with the buffer, and it is short. -/
theorem exists_size_of_runs (hlen : 1 ≤ b.length) {hash : List UInt8}
    (hhash : matchHash b = some hash)
    (hrun : ∀ t, 0 ∉ t → ∀ memory < 2 ^ 64,
      parseMagnetFromUri memory (b ++ t) b.length = some result) {t : List UInt8} (ht : 0 ∉ t) :
    ∃ fileSize, matchParameter (ascii "&xl=") (b ++ t) = some fileSize ∧
      fileSize.length < 32 := by
  apply (hasLength_iff hlen).mp ⟨result, hrun t ht⟩
  rw [matchHash_append_of_some hhash t]
  exact Option.some_ne_none hash

theorem name_of_runs (hlen : 1 ≤ b.length) {hash : List UInt8} (hhash : matchHash b = some hash)
    (hrun : ∀ t, 0 ∉ t → ∀ memory < 2 ^ 64,
      parseMagnetFromUri memory (b ++ t) b.length = some result) {t : List UInt8} (ht : 0 ∉ t) :
    matchParameter (ascii "&dn=") (b ++ t) = matchParameter (ascii "&dn=") b := by
  obtain ⟨magnet, rfl⟩ : ∃ magnet, result = some magnet := by
    obtain ⟨fileSize, hfound, hshort⟩ := exists_size_of_runs hlen hhash hrun List.not_mem_nil
    have hown := hrun [] List.not_mem_nil 0 (by decide)
    rw [parseMagnetFromUri_of_hash hlen (matchHash_append_of_some hhash []), hfound,
      Option.elim_some, if_neg (not_le.mpr hshort)] at hown
    exact ⟨_, (Option.some.inj hown).symm⟩
  have hown := displayName_of_parse (hrun [] List.not_mem_nil 0 (by decide))
  rw [List.append_nil] at hown
  rw [← hown, displayName_of_parse (hrun t ht 0 (by decide))]

end Runs

/-- A buffer without NUL that begins like a magnet has to be closed. -/
theorem closed_of_sameResult {b : List UInt8} (hlen : 1 ≤ b.length) (hnul : 0 ∉ b)
    (hbegins : HashBegins b) (h : SameResult b) : Closed b := by
  obtain ⟨result, hresult⟩ := h
  have hrun (t : List UInt8) (ht : 0 ∉ t) (memory : ℕ) (hmemory : memory < 2 ^ 64) :
      parseMagnetFromUri memory (b ++ t) b.length = some result := by
    rw [← stringAt_eq_append hnul ht]
    exact hresult t memory hmemory
  obtain ⟨hash, hhash⟩ := exists_hash_of_runs hlen hbegins hrun
  refine ⟨?_, ?_, ?_⟩
  · rw [hhash]
    exact Option.some_ne_none hash
  · intro hopen
    rcases matchParameter_of_not_closed (by decide) hopen with ⟨hnone, hsome⟩ | ⟨value, hvalue⟩
    · rw [name_of_runs hlen hhash hrun (by decide), hnone] at hsome
      exact hsome rfl
    · have hempty := hvalue [] List.not_mem_nil
      have hmore := hvalue [97] (by decide)
      rw [name_of_runs hlen hhash hrun (by decide), ← List.append_nil b, hempty] at hmore
      simp at hmore
  · cases hsize : closedParameter (ascii "&xl=") b with
    | none =>
        rcases matchParameter_of_not_closed (by decide) hsize with ⟨hnone, -⟩ | ⟨value, hvalue⟩
        · obtain ⟨fileSize, hfound, -⟩ := exists_size_of_runs hlen hhash hrun List.not_mem_nil
          rw [List.append_nil, hnone] at hfound
          cases hfound
        · have hpadding : 0 ∉ List.replicate 32 (97 : UInt8) := by decide
          obtain ⟨fileSize, hfound, hshort⟩ := exists_size_of_runs hlen hhash hrun hpadding
          rw [hvalue _ (by decide)] at hfound
          cases hfound
          rw [List.length_append, List.length_replicate] at hshort
          omega
    | some value =>
        obtain ⟨fileSize, hfound, hshort⟩ := exists_size_of_runs hlen hhash hrun List.not_mem_nil
        rw [matchParameter_of_closed hsize] at hfound
        cases hfound
        exact ⟨value, rfl, hshort⟩

theorem sameResult_of_closed {b : List UInt8} (hlen : 1 ≤ b.length) (hnul : 0 ∉ b)
    (h : Closed b) : SameResult b := by
  obtain ⟨hash, hhash⟩ := Option.ne_none_iff_exists'.mp h.hash
  obtain ⟨name, hname⟩ := Option.ne_none_iff_exists'.mp h.name
  obtain ⟨fileSize, hsize, hshort⟩ := h.size
  refine ⟨some ⟨List.Vector.ofFn fun i : Fin 32 => scanHexByte (hash.drop (2 * i)), some name,
    toSizeT (atoi fileSize)⟩, fun following memory _ => ?_⟩
  rw [stringAt_of_not_mem hnul, parseMagnetFromUri_of_hash hlen (matchHash_append_of_some hhash _),
    matchParameter_of_closed hsize, Option.elim_some, if_neg (not_le.mpr hshort),
    matchParameter_of_closed hname]

/-- The parser's result depends on the buffer alone exactly for these. -/
theorem sameResult_iff (b : List UInt8) : SameResult b ↔ SelfContained b := by
  by_cases hempty : b = []
  · subst hempty
    exact iff_of_true ⟨none, fun _ _ _ => rfl⟩ (Or.inl rfl)
  · have hlen : 1 ≤ b.length := List.length_pos_of_ne_nil hempty
    rw [SelfContained, or_iff_right hempty]
    by_cases hnul : 0 ∈ b
    · rw [and_iff_right hnul, or_iff_left fun h => h.1 hnul, ← hasLength_iff hlen, SameResult]
      simp only [stringAt_of_mem hnul]
      exact exists_congr fun _ => forall_const _
    · rw [and_iff_right hnul, or_iff_right fun h => hnul h.1]
      constructor
      · exact fun h hbegins => closed_of_sameResult hlen hnul hbegins h
      · intro h
        by_cases hbegins : HashBegins b
        · exact sameResult_of_closed hlen hnul (h hbegins)
        · refine ⟨none, fun following memory _ => ?_⟩
          rw [stringAt_of_not_mem hnul]
          apply parseMagnetFromUri_of_no_hash hlen
          exact Option.eq_none_iff_forall_ne_some.mpr fun hash hhash =>
            hbegins (hashBegins_of_append hhash)

/-- The URI of a file with five bytes, as it is written. -/
def savedUri : List UInt8 :=
  saveMagnetToUri ⟨zeroBytes 32, some (ascii "a b"), 5⟩

/-- Its length is at the end, so it goes on with what is behind the buffer. -/
theorem not_sameResult_savedUri : ¬ SameResult savedUri := by
  intro h
  have hclosed := closed_of_sameResult (by decide +kernel) (by decide +kernel) (by decide +kernel) h
  obtain ⟨fileSize, hsize, -⟩ := hclosed.size
  have hopen : closedParameter (ascii "&xl=") savedUri = none := by decide +kernel
  rw [hopen] at hsize
  cases hsize

end Kademlia.Magnets
