import Kademlia.Magnets.Lengths

/-!
What `create_magnet` frees when it fails.

It leaves through `free_magnet`, which frees `display_name` unless that is
`NULL`; but nothing was stored to `display_name` yet, so what is freed is what
`malloc` left there.
-/

namespace Kademlia.Magnets

open Foundations CString Model

variable {digest : FileDigest} {filename : List UInt8} {address nameAddress : ℕ}
  {memory memory' : MagnetFields}

/-- The magnet in memory, with the name at its address, is the one that `create_magnet` makes. -/
theorem createMagnetIn_ret (digest : FileDigest) (filename : List UInt8)
    (address nameAddress : ℕ) (memory : MagnetFields) :
    (createMagnetIn digest filename address nameAddress memory).ret.map (fun fields =>
        (⟨fields.fileHash, some (baseName filename), fields.exactLength⟩ : FileMagnet)) =
      createMagnetFrom digest memory.fileHash filename := by
  rw [createMagnetIn, createMagnetFrom]
  split_ifs
  · rfl
  · rfl
  · rfl

theorem createMagnetIn_freeMagnet {fields : MagnetFields}
    (h : (createMagnetIn digest filename address nameAddress memory).ret = some fields) :
    ((createMagnetIn digest filename address nameAddress memory).freed ++
        freeMagnet address fields).Perm
      (createMagnetIn digest filename address nameAddress memory).allocated := by
  rw [createMagnetIn] at h ⊢
  split_ifs at h ⊢
  obtain rfl := Option.some.inj h
  exact List.Perm.swap _ _ _

/-- `create_magnet` returns `NULL` and frees nothing but what it allocated, and that once. -/
def FreesOnlyOwn (digest : FileDigest) (filename : List UInt8) (address nameAddress : ℕ)
    (memory : MagnetFields) : Prop :=
  (createMagnetIn digest filename address nameAddress memory).ret = none ∧
    (createMagnetIn digest filename address nameAddress memory).freed.Subperm
      (createMagnetIn digest filename address nameAddress memory).allocated

theorem createMagnetIn_of_failed (h : digest.ret = -1) (hname : filename ≠ []) :
    createMagnetIn digest filename address nameAddress memory =
      ⟨none, [address], memory.displayName.toList ++ [address]⟩ := by
  have hlen : ¬ filename.length < 1 := not_lt.mpr (List.length_pos_of_ne_nil hname)
  rw [createMagnetIn, if_neg hlen]
  exact if_pos h

variable {ctx : Type}

/-- What is freed depends on the `display_name` that `malloc` left. -/
theorem freesOnlyOwn_iff {evp : Evp ctx} {contents : Option (List UInt8)} {readError : Bool}
    (h : (sha256File evp contents readError).ret = -1) (filename : List UInt8)
    (address nameAddress : ℕ) (memory memory' : MagnetFields) :
    (FreesOnlyOwn (sha256File evp contents readError) filename address nameAddress memory ↔
        filename = [] ∨ memory.displayName = none) ∧
      ((createMagnetIn (sha256File evp contents readError) filename address nameAddress
          memory).freed =
        (createMagnetIn (sha256File evp contents readError) filename address nameAddress
          memory').freed ↔
        filename = [] ∨ memory.displayName = memory'.displayName) := by
  rw [FreesOnlyOwn]
  rcases eq_or_ne filename [] with rfl | hname
  · refine ⟨iff_of_true ⟨rfl, ?_⟩ (Or.inl rfl), iff_of_true rfl (Or.inl rfl)⟩
    exact List.Subperm.refl _
  · rw [createMagnetIn_of_failed h hname, createMagnetIn_of_failed h hname]
    simp only [hname, false_or, true_and]
    constructor
    · cases memory.displayName with
      | none => exact iff_of_true (List.Subperm.refl _) rfl
      | some name =>
          refine iff_of_false (fun hsub => ?_) (Option.some_ne_none name)
          have hle := hsub.length_le
          simp at hle
    · rw [List.append_left_inj]
      cases memory.displayName with
      | none => cases memory'.displayName <;> simp
      | some name => cases memory'.displayName <;> simp

/-- `display_name` was left over from a magnet that was freed before. -/
def leftoverFields : MagnetFields := ⟨List.Vector.replicate 32 0, some 8192, 0⟩

theorem freesOnlyOwn_iff_unopened :
    (FreesOnlyOwn (sha256File abcEvp none false) (ascii "a") 4096 4352 leftoverFields ↔
        ascii "a" = [] ∨ leftoverFields.displayName = none) ∧
      ((createMagnetIn (sha256File abcEvp none false) (ascii "a") 4096 4352 leftoverFields).freed =
        (createMagnetIn (sha256File abcEvp none false) (ascii "a") 4096 4352
          { leftoverFields with displayName := none }).freed ↔
        ascii "a" = [] ∨ leftoverFields.displayName = none) :=
  freesOnlyOwn_iff rfl _ _ _ _ _

theorem not_freesOnlyOwn_unopened :
    ¬ FreesOnlyOwn (sha256File abcEvp none false) (ascii "a") 4096 4352 leftoverFields := by
  intro howned
  exact absurd howned.2.length_le (by decide)

end Kademlia.Magnets
