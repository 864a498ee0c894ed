import Kademlia.Http.Headers
import Kademlia.Model.Identity

/-!
Who a node is. The static variables are in one of three states: nothing is known, the address
is known, the address and the id are known. No call goes back, and no call that knows its
answer changes it.
-/

namespace Kademlia.Protocol

open Foundations Model CString

/-- The variables once the address is found out. -/
def located (addr : SockAddrIn) : IdentityCache :=
  ⟨inetNtop addr.sinAddr, addr, true, zeroBytes 32, false⟩

/-- The variables once the id is made of it, too. -/
def named (addr : SockAddrIn) (id : HashID) : IdentityCache :=
  ⟨inetNtop addr.sinAddr, addr, true, id, true⟩

/-- The call returns -1, and leaves a cleared peer if it is to make one. -/
def Fails : IdentityAnswer → Prop
  | .primaryIp found => found = none
  | .ownId id => id = none
  | .ownPeer ret peer => ret = -1 ∧ peer = zeroPeer

/-- The call returns 0 and gives this address and this id. -/
def Gives (addr : SockAddrIn) (id : HashID) : IdentityAnswer → Prop
  | .primaryIp found => found = some (inetNtop addr.sinAddr, addr)
  | .ownId own => own = some id
  | .ownPeer ret peer => ret = 0 ∧ peer = ⟨id, addr⟩

section Calls

variable {ctx : Type} {sha : List UInt8 → HashID} {addr : SockAddrIn} {id : HashID}

/-- A digest that the call makes is that of `sha`, if OpenSSL makes it at all. -/
def Hashes (sha : List UInt8 → HashID) : IdentityCall ctx → Prop
  | .primaryIp _ => True
  | .ownId evp _ | .ownPeer evp _ _ => ∀ text, sha256Buf evp text ∈ [none, some (sha text)]

/-- What the call asks the system first. -/
def firstQuery : IdentityCall ctx → PrimaryQuery
  | .primaryIp query | .ownId _ query | .ownPeer _ query _ => query

/-- What the id of a node with this address can be. -/
def IdOf (sha : List UInt8 → HashID) (addr : SockAddrIn) (id : HashID) : Prop :=
  id = sha (inetNtop addr.sinAddr) ∨ id = zeroBytes 32

/-! ### One call -/

theorem inetNtop_fits (addr : SockAddrIn) :
    (inetNtop addr.sinAddr).length ≤ inetAddrstrlen - 1 :=
  Http.inetNtop_length_le addr.sinAddr

theorem getPrimaryIp_of_cached {cache : IdentityCache} (query : PrimaryQuery)
    (hcache : cache.ipCached = true) (htext : cache.cachedIp = inetNtop addr.sinAddr) :
    getPrimaryIp query cache = ⟨some (inetNtop addr.sinAddr, cache.cachedAddr), cache⟩ := by
  rw [getPrimaryIp, if_pos hcache, htext, List.take_of_length_le (inetNtop_fits addr)]

theorem getPrimaryIp_located (query : PrimaryQuery) (addr : SockAddrIn) :
    getPrimaryIp query (located addr) = ⟨some (inetNtop addr.sinAddr, addr), located addr⟩ :=
  getPrimaryIp_of_cached query rfl rfl

theorem getPrimaryIp_named (query : PrimaryQuery) (addr : SockAddrIn) (id : HashID) :
    getPrimaryIp query (named addr id) =
      ⟨some (inetNtop addr.sinAddr, addr), named addr id⟩ :=
  getPrimaryIp_of_cached query rfl rfl

theorem getPrimaryIp_initial (query : PrimaryQuery) :
    getPrimaryIp query .initial = ⟨none, .initial⟩ ∨
      ∃ addr, getPrimaryIp query .initial =
        ⟨some (inetNtop addr.sinAddr, addr), located addr⟩ := by
  rw [getPrimaryIp, if_neg (by decide)]
  split
  · exact Or.inl rfl
  · split
    · exact Or.inl rfl
    · split
      case h_1 => exact Or.inl rfl
      case h_2 name _ =>
        have hfits : ¬ inetAddrstrlen ≤ (inetNtop name.sinAddr).length := by
          have := inetNtop_fits name
          have hsize : inetAddrstrlen - 1 = 15 ∧ inetAddrstrlen = 16 := by decide
          omega
        refine Or.inr ⟨name, ?_⟩
        simp only [if_neg hfits, List.take_of_length_le (inetNtop_fits name)]
        rfl

theorem getOwnId_named (evp : Evp ctx) (query : PrimaryQuery) (addr : SockAddrIn) (id : HashID) :
    getOwnId evp query (named addr id) = (some id, named addr id) := rfl

theorem getOwnId_of_found {evp : Evp ctx} {query : PrimaryQuery} {cache : IdentityCache}
    (hcache : cache.idCached = false)
    (hfound : getPrimaryIp query cache = ⟨some (inetNtop addr.sinAddr, addr), located addr⟩)
    (hsha : ∀ text, sha256Buf evp text ∈ [none, some (sha text)]) :
    ∃ id, IdOf sha addr id ∧ getOwnId evp query cache = (some id, named addr id) := by
  refine ⟨(sha256Buf evp (inetNtop addr.sinAddr)).getD (zeroBytes 32), ?_, ?_⟩
  · have hdigest := hsha (inetNtop addr.sinAddr)
    rw [List.mem_pair] at hdigest
    rcases hdigest with hnone | hsome
    · exact Or.inr (by rw [hnone, Option.getD_none])
    · exact Or.inl (by rw [hsome, Option.getD_some])
  · rw [getOwnId, if_neg (by rw [hcache]; decide)]
    simp only [hfound]
    rfl

theorem getOwnId_of_failed {evp : Evp ctx} {query : PrimaryQuery}
    (hfound : getPrimaryIp query .initial = ⟨none, .initial⟩) :
    getOwnId evp query .initial = (none, .initial) := by
  rw [getOwnId, if_neg (by decide)]
  simp only [hfound]

/-- `create_own_peer` gives no peer only when `get_own_id` gives no id: what it asks the
address for afterwards is known then. -/
theorem createOwnPeerFrom_of_named {evp : Evp ctx} {idQuery addrQuery : PrimaryQuery}
    {cache : IdentityCache} (hown : getOwnId evp idQuery cache = (some id, named addr id)) :
    createOwnPeerFrom evp idQuery addrQuery cache = ⟨0, ⟨id, addr⟩, named addr id⟩ := by
  simp only [createOwnPeerFrom, hown, getPrimaryIp_named]

/-- The peer is the one that the lookups and uploads make of these two answers. -/
theorem createOwnPeerFrom_outPeer (evp : Evp ctx) (idQuery addrQuery : PrimaryQuery)
    (cache : IdentityCache) :
    (createOwnPeerFrom evp idQuery addrQuery cache).outPeer =
      createOwnPeer (getOwnId evp idQuery cache).1
        ((getPrimaryIp addrQuery (getOwnId evp idQuery cache).2).found.map Prod.snd) := by
  rw [createOwnPeerFrom]
  cases hown : (getOwnId evp idQuery cache).1 with
  | none => rfl
  | some ownId =>
    cases hfound : (getPrimaryIp addrQuery (getOwnId evp idQuery cache).2).found <;>
      simp only [hfound] <;> rfl

/-! ### A step of a run -/

theorem callIdentity_named (addr : SockAddrIn) (id : HashID) (call : IdentityCall ctx) :
    Gives addr id (callIdentity (named addr id) call).1 ∧
      (callIdentity (named addr id) call).2 = named addr id := by
  cases call with
  | primaryIp query =>
    rw [callIdentity, getPrimaryIp_named]
    exact ⟨rfl, rfl⟩
  | ownId evp query => exact ⟨rfl, rfl⟩
  | ownPeer evp idQuery addrQuery =>
    simp only [callIdentity, and_true,
      createOwnPeerFrom_of_named (getOwnId_named evp idQuery addr id)]
    exact ⟨rfl, rfl⟩

/-- A call that finds the address goes on to the id if it needs it. -/
theorem callIdentity_of_found {call : IdentityCall ctx} {cache : IdentityCache}
    (hcache : cache.idCached = false)
    (hfound : getPrimaryIp (firstQuery call) cache =
      ⟨some (inetNtop addr.sinAddr, addr), located addr⟩)
    (hsha : Hashes sha call) :
    ((∀ id, Gives addr id (callIdentity cache call).1) ∧
        (callIdentity cache call).2 = located addr) ∨
      ∃ id, IdOf sha addr id ∧ Gives addr id (callIdentity cache call).1 ∧
        (callIdentity cache call).2 = named addr id := by
  cases call with
  | primaryIp query =>
    rw [firstQuery] at hfound
    rw [callIdentity, hfound]
    exact Or.inl ⟨fun _ => rfl, rfl⟩
  | ownId evp query =>
    rw [firstQuery] at hfound
    obtain ⟨id, hid, hown⟩ := getOwnId_of_found hcache hfound hsha
    rw [callIdentity, hown]
    exact Or.inr ⟨id, hid, rfl, rfl⟩
  | ownPeer evp idQuery addrQuery =>
    rw [firstQuery] at hfound
    obtain ⟨id, hid, hown⟩ := getOwnId_of_found hcache hfound hsha
    simp only [callIdentity, createOwnPeerFrom_of_named hown]
    exact Or.inr ⟨id, hid, ⟨rfl, rfl⟩, rfl⟩

theorem callIdentity_of_failed {call : IdentityCall ctx}
    (hfound : getPrimaryIp (firstQuery call) .initial = ⟨none, .initial⟩) :
    Fails (callIdentity .initial call).1 ∧ (callIdentity .initial call).2 = .initial := by
  cases call with
  | primaryIp query =>
    rw [firstQuery] at hfound
    rw [callIdentity, hfound]
    exact ⟨rfl, rfl⟩
  | ownId evp query =>
    rw [firstQuery] at hfound
    rw [callIdentity, getOwnId_of_failed hfound]
    exact ⟨rfl, rfl⟩
  | ownPeer evp idQuery addrQuery =>
    rw [firstQuery] at hfound
    simp only [callIdentity, createOwnPeerFrom, getOwnId_of_failed hfound]
    exact ⟨⟨rfl, rfl⟩, trivial⟩

/-! ### A run -/

theorem run_named (calls : List (IdentityCall ctx)) :
    ∀ answer ∈ (callIdentity.run (named addr id) calls).1, Gives addr id answer := by
  induction calls with
  | nil => exact fun _ h => absurd h List.not_mem_nil
  | cons call calls ih =>
    obtain ⟨hgives, hnext⟩ := callIdentity_named addr id call
    rw [Machine.run_cons, hnext]
    exact List.forall_mem_cons.mpr ⟨hgives, ih⟩

theorem run_located (calls : List (IdentityCall ctx)) (hsha : ∀ call ∈ calls, Hashes sha call) :
    ∃ id, IdOf sha addr id ∧
      ∀ answer ∈ (callIdentity.run (located addr) calls).1, Gives addr id answer := by
  induction calls with
  | nil => exact ⟨_, Or.inr rfl, fun _ h => absurd h List.not_mem_nil⟩
  | cons call calls ih =>
    obtain ⟨hcall, hcalls⟩ := List.forall_mem_cons.mp hsha
    rw [Machine.run_cons]
    rcases callIdentity_of_found rfl (getPrimaryIp_located _ addr) hcall with
      ⟨hgives, hnext⟩ | ⟨id, hid, hgives, hnext⟩
    · obtain ⟨id, hid, hrest⟩ := ih hcalls
      rw [hnext]
      exact ⟨id, hid, List.forall_mem_cons.mpr ⟨hgives id, hrest⟩⟩
    · rw [hnext]
      exact ⟨id, hid, List.forall_mem_cons.mpr ⟨hgives, run_named calls⟩⟩

/-- Of the calls of `get_primary_ip`, `get_own_id` and `create_own_peer` in a run of the
program, in any order, the first ones fail, up to some call. From there on none does, and
all give one address and one id, which is the digest of the text of the address; or it is
zero, for the program does not look at whether the digest was made. -/
theorem identity_run (calls : List (IdentityCall ctx)) (hsha : ∀ call ∈ calls, Hashes sha call) :
    ∃ addr id failed, IdOf sha addr id ∧
      (∀ answer ∈ (callIdentity.run .initial calls).1.take failed, Fails answer) ∧
      ∀ answer ∈ (callIdentity.run .initial calls).1.drop failed, Gives addr id answer := by
  induction calls with
  | nil =>
    refine ⟨zeroAddr, zeroBytes 32, 0, Or.inr rfl, ?_, ?_⟩ <;>
      exact fun _ h => absurd h List.not_mem_nil
  | cons call calls ih =>
    obtain ⟨hcall, hcalls⟩ := List.forall_mem_cons.mp hsha
    rw [Machine.run_cons]
    rcases getPrimaryIp_initial (firstQuery call) with hfailed | ⟨addr, hfound⟩
    · obtain ⟨hfails, hnext⟩ := callIdentity_of_failed hfailed
      obtain ⟨addr, id, failed, hid, htake, hdrop⟩ := ih hcalls
      rw [hnext]
      exact ⟨addr, id, failed + 1, hid, List.forall_mem_cons.mpr ⟨hfails, htake⟩, hdrop⟩
    · rcases callIdentity_of_found rfl hfound hcall with
        ⟨hgives, hnext⟩ | ⟨id, hid, hgives, hnext⟩
      · obtain ⟨id, hid, hrest⟩ := run_located calls hcalls
        rw [hnext]
        exact ⟨addr, id, 0, hid, fun _ h => absurd h List.not_mem_nil,
          List.forall_mem_cons.mpr ⟨hgives id, hrest⟩⟩
      · rw [hnext]
        exact ⟨addr, id, 0, hid, fun _ h => absurd h List.not_mem_nil,
          List.forall_mem_cons.mpr ⟨hgives, run_named calls⟩⟩

end Calls

/-! The address 10.0.0.7 is found out at the second try. -/

def tenDotSeven : SockAddrIn := ⟨⟨[2, 0], rfl⟩, zeroBytes 2, ⟨[10, 0, 0, 7], rfl⟩, zeroBytes 8⟩

def tenDotSevenId : HashID :=
  ⟨[19, 14, 77, 171, 169, 120, 96, 19, 244, 141, 194, 252, 207, 57, 249, 26,
    11, 62, 194, 207, 186, 116, 255, 11, 100, 90, 207, 149, 34, 157, 246, 158], rfl⟩

/-- It makes only this one digest. -/
def tenDotSevenEvp : Evp (List UInt8) where
  digestInit := some []
  digestUpdate state block := some (state ++ block)
  digestFinal state := if state = ascii "10.0.0.7" then some tenDotSevenId else none

theorem mem_sha256Buf_tenDotSevenEvp (text : List UInt8) :
    sha256Buf tenDotSevenEvp text ∈ [none, some tenDotSevenId] := by
  change (if text = ascii "10.0.0.7" then some tenDotSevenId else none) ∈ _
  split
  · exact List.mem_cons_of_mem _ List.mem_cons_self
  · exact List.mem_cons_self

def tenDotSevenCalls : List (IdentityCall (List UInt8)) :=
  [.ownPeer tenDotSevenEvp ⟨true, false, none⟩ ⟨true, false, none⟩,
    .ownPeer tenDotSevenEvp ⟨true, true, some tenDotSeven⟩ ⟨false, false, none⟩,
    .ownId tenDotSevenEvp ⟨false, false, none⟩]

theorem identity_run_tenDotSeven :
    ∃ addr id failed, IdOf (fun _ => tenDotSevenId) addr id ∧
      (∀ answer ∈ (callIdentity.run .initial tenDotSevenCalls).1.take failed, Fails answer) ∧
      ∀ answer ∈ (callIdentity.run .initial tenDotSevenCalls).1.drop failed,
        Gives addr id answer :=
  identity_run tenDotSevenCalls
    (List.forall_mem_cons.mpr ⟨mem_sha256Buf_tenDotSevenEvp, List.forall_mem_cons.mpr
      ⟨mem_sha256Buf_tenDotSevenEvp, List.forall_mem_singleton.mpr
        mem_sha256Buf_tenDotSevenEvp⟩⟩)

example : (callIdentity.run .initial tenDotSevenCalls).1 =
    [.ownPeer (-1) zeroPeer, .ownPeer 0 ⟨tenDotSevenId, tenDotSeven⟩,
      .ownId (some tenDotSevenId)] := by
  rfl

end Kademlia.Protocol
