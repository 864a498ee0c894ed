import Kademlia.Model.Transfer

/-!
`sha256_file` of `shared.c`, and what `create_magnet` makes of it.

The functions of OpenSSL are a parameter: a context, or a failure at each of
its calls. The size is summed up in a `size_t` and returned as an `int`, of
which `-1` stands for an error. What `create_magnet` allocates and frees is kept
as the addresses that go through `malloc` and `free`.
-/

namespace Kademlia.Model

def sha256BlockSize : ℕ := 4096

/-- `EVP_MD_CTX_new` with `EVP_DigestInit_ex`, `EVP_DigestUpdate` and `EVP_DigestFinal_ex`. -/
structure Evp (ctx : Type) where
  digestInit : Option ctx
  digestUpdate : ctx → List UInt8 → Option ctx
  digestFinal : ctx → Option HashID

variable {ctx : Type}

/-- The loop over the blocks that `fread` returns, with the sum of their sizes. It ends at
the first empty one, so `fuel` need not be more than the size of the file and one. -/
def sha256Loop (evp : Evp ctx) : ℕ → ctx → ℕ → List UInt8 → Option (ctx × ℕ)
  | 0, state, fileSize, _ => some (state, fileSize)
  | fuel + 1, state, fileSize, contents =>
      let block := contents.take sha256BlockSize
      if block = [] then some (state, fileSize)
      else
        match evp.digestUpdate state block with
        | none => none
        | some state =>
            sha256Loop evp fuel state ((fileSize + block.length) % 2 ^ 64)
              (contents.drop sha256BlockSize)

/-- The return value of `sha256_file` and what it stores to `id`. -/
structure FileDigest where
  ret : ℤ
  id : Option HashID

/-- `contents` is what can be read of the file, and `readError` what `ferror` finds then. -/
def sha256File (evp : Evp ctx) (contents : Option (List UInt8)) (readError : Bool) : FileDigest :=
  match contents with
  | none => ⟨-1, none⟩
  | some contents =>
      match evp.digestInit with
      | none => ⟨-1, none⟩
      | some state =>
          match sha256Loop evp (contents.length + 1) state 0 contents with
          | none => ⟨-1, none⟩
          | some (state, fileSize) =>
              if readError then ⟨-1, none⟩
              else
                match evp.digestFinal state with
                | none => ⟨-1, none⟩
                | some id => ⟨int32 (fileSize % 2 ^ 32), some id⟩

/-- `create_magnet`, with the `file_hash` that `malloc` left there in front of the call. -/
def createMagnetFrom (digest : FileDigest) (memory : HashID) (filename : List UInt8) :
    Option FileMagnet :=
  if filename.length < 1 then none
  else if digest.ret = -1 then none
  else some ⟨digest.id.getD memory, some (baseName filename), toSizeT digest.ret⟩

/-! ### The memory of a magnet -/

/-- What is in a `struct FileMagnet`, with the address in `display_name`; `NULL` is `none`. -/
structure MagnetFields where
  fileHash : HashID
  displayName : Option ℕ
  exactLength : ℕ
  deriving DecidableEq

/-- What `free_magnet` passes to `free`. -/
def freeMagnet (address : ℕ) (fields : MagnetFields) : List ℕ :=
  fields.displayName.toList ++ [address]

/-- The magnet that `create_magnet` returns, the addresses that `malloc` gave it and those that
it passed to `free`. -/
structure CreateMagnet where
  ret : Option MagnetFields
  allocated : List ℕ
  freed : List ℕ

/-- `create_magnet`. The two calls of `malloc` return `address`, where `memory` is left from
before, and `nameAddress`. -/
def createMagnetIn (digest : FileDigest) (filename : List UInt8) (address nameAddress : ℕ)
    (memory : MagnetFields) : CreateMagnet :=
  if filename.length < 1 then ⟨none, [], []⟩
  else
    let fields := { memory with fileHash := digest.id.getD memory.fileHash }
    -- of the fields only `file_hash` can have been stored to
    if digest.ret = -1 then ⟨none, [address], freeMagnet address fields⟩
    else
      ⟨some { fields with displayName := some nameAddress, exactLength := toSizeT digest.ret },
        [address, nameAddress], []⟩

end Kademlia.Model
