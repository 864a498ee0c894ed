import Kademlia.Http.Confinement
import Kademlia.Http.Exchanges

/-!
Files under their names.

The table of the network is keyed by hashes, but a file is sent, kept and
fetched under its display name. So an owner has one file for each name, and
whoever downloads a file by its hash is given the one that came last.
-/

namespace Kademlia.Upload

open Foundations CString Source Model Http

/-- A file that is shared, and the magnet that was created from it. Its size is
a `long`. -/
structure SharedFile (sha256 : List UInt8 → HashID) where
  filename : List UInt8
  content : List UInt8
  magnet : FileMagnet
  created : createMagnet sha256 filename (some content) = some magnet
  no_nul : 0 ∉ filename
  length_lt : content.length < 2 ^ 63

variable {sha256 : List UInt8 → HashID}

def SharedFile.name (file : SharedFile sha256) : List UInt8 := baseName file.filename

theorem SharedFile.displayName (file : SharedFile sha256) :
    file.magnet.displayName = some file.name := createMagnet_displayName file.created

theorem SharedFile.nameText (file : SharedFile sha256) : file.magnet.nameText = file.name := by
  rw [FileMagnet.nameText, file.displayName, Option.getD_some]

theorem SharedFile.fileHash (file : SharedFile sha256) :
    file.magnet.fileHash = sha256 file.content := by
  have hcreated := file.created
  unfold createMagnet at hcreated
  split at hcreated
  · cases hcreated
  · dsimp only at hcreated
    split at hcreated
    · cases hcreated
    · rw [← Option.some.inj hcreated]

/-! ### Uploads -/

/-- A PUT that arrives at an owner: the address it was sent to, and what it
meets there. -/
structure Put (sha256 : List UInt8 → HashID) where
  file : SharedFile sha256
  addr : SockAddrIn
  buf : Memory
  ops : FileOps
  conn : Conn

def Put.serve (put : Put sha256) (disk : Disk) : HttpServed :=
  (getHttpRequest put.ops disk put.buf put.conn).1

/-- The PUT is one of `upload_http_file`, and the file was created. The client
waits for the response with the connection open, so the owner does not read to
its end. -/
structure Put.Accepted (put : Put sha256) (disk : Disk) : Prop where
  sent : carried put.conn <+:
    putRequest put.file.magnet put.addr put.file.content.length ++ put.file.content
  waits : put.ops.again.length < failures put.conn
  created : (put.serve disk).sent = fileCreated

def diskAfter (disk : Disk) (puts : List (Put sha256)) : Disk :=
  puts.foldl (fun disk put => (put.serve disk).disk) disk

def AllAccepted : Disk → List (Put sha256) → Prop
  | _, [] => True
  | disk, put :: puts => put.Accepted disk ∧ AllAccepted (put.serve disk).disk puts

def LastUnder (puts : List (Put sha256)) (name : List UInt8) (put : Put sha256) : Prop :=
  ∃ before after, puts = before ++ put :: after ∧ put.file.name = name ∧
    ∀ later ∈ after, later.file.name ≠ name

theorem exists_lastUnder {puts : List (Put sha256)} {name : List UInt8}
    (h : ∃ put ∈ puts, put.file.name = name) : ∃ put, LastUnder puts name put := by
  induction puts with
  | nil =>
      obtain ⟨_, hmem, -⟩ := h
      cases hmem
  | cons put puts ih =>
      by_cases hrest : ∃ later ∈ puts, later.file.name = name
      · obtain ⟨last, before, after, rfl, hname, hlast⟩ := ih hrest
        exact ⟨last, put :: before, after, rfl, hname, hlast⟩
      · obtain ⟨put', hmem, hname⟩ := h
        rcases List.mem_cons.mp hmem with rfl | hmem
        · exact ⟨put', [], puts, rfl, hname, fun later hlater heq => hrest ⟨later, hlater, heq⟩⟩
        · exact absurd ⟨put', hmem, hname⟩ hrest

/-- What is in the file of an accepted upload; what `fclose` cannot write is missing. -/
def Put.kept (put : Put sha256) : List UInt8 := put.ops.flushed put.file.content

theorem Put.length_kept_lt (put : Put sha256) : put.kept.length < 2 ^ 63 :=
  (List.length_take_le' _ _).trans_lt put.file.length_lt

theorem eq_of_place {cwd : List (List UInt8)} {name name' : List UInt8} (hname : PlainName name)
    (hname' : PlainName name')
    (h : place cwd (pathIn uploadDir name) = place cwd (pathIn uploadDir name')) :
    name = name' := by
  have hdir : place cwd uploadDir ≠ [] := by
    rw [place_uploadDir]
    exact List.append_ne_nil_of_right_ne_nil _ (List.cons_ne_nil _ _)
  rw [pathIn_uploadDir hname.length_le, pathIn_uploadDir hname'.length_le, List.append_assoc,
    List.append_assoc] at h
  exact Paths.resolve_append_injective 47 46 (by decide) hdir hname.ne_nil hname'.ne_nil
    hname.no_slash hname'.no_slash h

theorem Put.Accepted.disk {put : Put sha256} {disk : Disk} (h : put.Accepted disk)
    (hname : PlainName put.file.name) :
    (put.serve disk).disk = disk.store (pathIn uploadDir put.file.name) put.kept :=
  getHttpRequest_put put.file.displayName hname put.file.length_lt h.sent h.waits h.created

theorem diskAfter_of_other {disk : Disk} {puts : List (Put sha256)} {name : List UInt8}
    (hputs : AllAccepted disk puts) (hplain : ∀ put ∈ puts, PlainName put.file.name)
    (hname : PlainName name) (hother : ∀ put ∈ puts, put.file.name ≠ name) :
    diskAfter disk puts (pathIn uploadDir name) = disk (pathIn uploadDir name) := by
  induction puts generalizing disk with
  | nil => rfl
  | cons put puts ih =>
      have hput := hplain put List.mem_cons_self
      have hne : place disk.cwd (pathIn uploadDir name) ≠
          place disk.cwd (pathIn uploadDir put.file.name) := fun heq =>
        hother put List.mem_cons_self (eq_of_place hput hname heq.symm)
      have hrest := ih hputs.2 (fun p hp => hplain p (List.mem_cons_of_mem put hp))
        (fun p hp => hother p (List.mem_cons_of_mem put hp))
      rw [hputs.1.disk hput, Disk.store_read, if_neg hne] at hrest
      rw [← hrest, ← hputs.1.disk hput]
      rfl

theorem diskAfter_lastUnder {disk : Disk} {puts : List (Put sha256)} {name : List UInt8}
    {put : Put sha256} (hputs : AllAccepted disk puts)
    (hplain : ∀ put ∈ puts, PlainName put.file.name) (h : LastUnder puts name put) :
    diskAfter disk puts (pathIn uploadDir name) = some put.kept := by
  obtain ⟨before, after, rfl, rfl, hlater⟩ := h
  induction before generalizing disk with
  | nil =>
      have hput := hplain put List.mem_cons_self
      have hrest := diskAfter_of_other hputs.2 (fun p hp => hplain p (List.mem_cons_of_mem put hp))
        hput hlater
      rw [hputs.1.disk hput, Disk.store_self] at hrest
      rw [← hrest, ← hputs.1.disk hput]
      rfl
  | cons first before ih =>
      exact ih hputs.2 fun p hp => hplain p (List.mem_cons_of_mem first hp)

/-! ### The download -/

/-- A GET that arrives at an owner, like `Put`. -/
structure Get where
  addr : SockAddrIn
  buf : Memory
  ops : FileOps
  conn : Conn

def Get.serve (get : Get) (disk : Disk) : HttpServed :=
  (getHttpRequest get.ops disk get.buf get.conn).1

/-- The session is the one that the owner with the files `disk` serves. -/
structure Get.Answers (get : Get) (disk : Disk) (file : FileMagnet) (session : HttpSession) :
    Prop where
  sent : carried get.conn <+: getRequest file get.addr
  waits : fails get.conn = true
  reply : carried session.reply <+: (get.serve disk).sent

/-- The owner reads its file to the end and does not close the connection while
it sends it, and the client can write what it gets. -/
structure Get.Undisturbed (get : Get) (session : HttpSession) : Prop where
  tell : get.ops.tell = none
  readable : get.ops.readable = none
  stays : session.ops.again.length < failures session.reply
  writes : ∀ w ∈ session.ops.writes, w = none

/-- What was saved has the hash of the magnet. -/
def SavesByHash (sha256 : List UInt8 → HashID) (file : FileMagnet) (saved : Disk) : Prop :=
  ∃ content, saved (pathIn downloadDir file.nameText) = some content ∧
    sha256 content = file.fileHash

/-- The file that a download from the owner saves is the one that the owner has
under the name. -/
theorem Get.Answers.saved {get : Get} {disk saved : Disk} {file : SharedFile sha256}
    {session : HttpSession} (h : get.Answers disk file.magnet session)
    (hname : PlainName file.name) (hundisturbed : get.Undisturbed session) {content : List UInt8}
    (hcontent : disk (pathIn uploadDir file.name) = some content)
    (hlen : content.length < 2 ^ 63)
    (hret : (downloadHttpFile session saved file.magnet).ret = 0) :
    (downloadHttpFile session saved file.magnet).disk =
      saved.store (pathIn downloadDir file.name) content := by
  have hreply := h.reply
  rcases getHttpRequest_get file.displayName hname h.sent h.waits hundisturbed.tell
    hundisturbed.readable with hsent | hsent | ⟨content', hcontent', hsent⟩
  · rw [Get.serve, hsent, List.prefix_nil] at hreply
    exact absurd hret (downloadHttpFile_nothing hreply)
  · rw [Get.serve, hsent] at hreply
    exact absurd hret
      (downloadHttpFile_notFound hreply (fails_of_lt_failures hundisturbed.stays))
  · rw [hcontent, Option.some.injEq] at hcontent'
    subst hcontent'
    rw [Get.serve, hsent] at hreply
    rw [downloadHttpFile_saved hlen hreply hundisturbed.stays hundisturbed.writes hret,
      file.nameText]

/-- The peer that served a download is one that `download_http_file` succeeded
for. -/
theorem tryOwners_servedBy {http : ℕ → Peer → HttpSession} {file : FileMagnet}
    {stopAt : Option HashID} {n : ℕ} {peers : List Peer} {saved : Disk} {owner : Peer}
    (hret : (tryOwners http file stopAt n peers saved).ret = 0)
    (hserved : (tryOwners http file stopAt n peers saved).servedBy = some owner) :
    ∃ m before, (downloadHttpFile (http m owner) before file).ret = 0 ∧
      (tryOwners http file stopAt n peers saved).disk =
        (downloadHttpFile (http m owner) before file).disk := by
  induction peers generalizing n saved with
  | nil => cases hserved
  | cons peer peers ih =>
      rw [tryOwners] at hret hserved ⊢
      dsimp only at hret hserved ⊢
      split at hserved
      · cases hserved
      · next hstop =>
          rw [if_neg hstop] at hret ⊢
          split at hserved
          · next hgot =>
              obtain rfl := Option.some.inj hserved
              rw [if_pos hgot]
              exact ⟨n, saved, hgot, rfl⟩
          · next hgot =>
              rw [if_neg hgot] at hret ⊢
              split at hserved
              · cases hserved
              · next hreturns =>
                  rw [if_neg hreturns] at hret ⊢
                  exact ih hret hserved

section Download

variable {own : Option HashID} {lookup : Network} {http : ℕ → Peer → HttpSession} {saved : Disk}
  {node : Node} {fuel : ℕ} {tried : TriedOwners} {owner : Peer}

theorem handleRpcDownload_servedBy {file : FileMagnet}
    (h : (handleRpcDownload own lookup http saved node file fuel).val = some tried)
    (hret : tried.ret = 0) (hserved : tried.servedBy = some owner) :
    ∃ m before, (downloadHttpFile (http m owner) before file).ret = 0 ∧
      tried.disk = (downloadHttpFile (http m owner) before file).disk := by
  unfold handleRpcDownload at h
  split at h
  · cases h
    cases hserved
  · split at h
    · obtain rfl := TriedOwners.eq_of_ended h
      exact tryOwners_servedBy hret hserved
    · rw [Traced.val_bind] at h
      split at h
      · cases h
      · split_ifs at h
        · cases h
          cases hserved
        · obtain rfl := TriedOwners.eq_of_ended h
          exact tryOwners_servedBy hret hserved

end Download

/-! ### Two files with one name -/

def waiting (bytes : List UInt8) : Conn := unread bytes [.failure]

theorem carried_waiting (bytes : List UInt8) : carried (waiting bytes) = bytes := by
  rw [waiting, carried_unread]
  exact List.append_nil bytes

theorem failures_waiting (bytes : List UInt8) : failures (waiting bytes) = 1 :=
  failures_unread bytes _

/-- The SHA-256 hashes of the files `01` and `02`. -/
def knownDigests (content : List UInt8) : HashID :=
  if content = [1] then
    ⟨[75, 245, 18, 47, 52, 69, 84, 197, 59, 222, 46, 187, 140, 210, 183, 227,
      209, 96, 10, 214, 49, 195, 133, 165, 215, 204, 226, 60, 119, 133, 69, 154], rfl⟩
  else if content = [2] then
    ⟨[219, 193, 180, 201, 0, 255, 228, 141, 87, 91, 93, 165, 198, 56, 4, 1,
      37, 246, 93, 176, 254, 62, 36, 73, 75, 118, 234, 152, 100, 87, 217, 134], rfl⟩
  else List.Vector.replicate 32 0

def fileNamedA (b : UInt8) : SharedFile knownDigests where
  filename := ascii "a"
  content := [b]
  magnet := ⟨knownDigests [b], some (ascii "a"), 1⟩
  created := rfl
  no_nul := by decide
  length_lt := show 1 < 2 ^ 63 by decide

def putNamedA (b : UInt8) : Put knownDigests where
  file := fileNamedA b
  addr := zeroAddr
  buf := fun _ => 0
  ops := FileOps.ordinary
  conn := waiting (putRequest (fileNamedA b).magnet zeroAddr (fileNamedA b).content.length ++
    (fileNamedA b).content)

def getNamedA (b : UInt8) : Get where
  addr := zeroAddr
  buf := fun _ => 0
  ops := FileOps.ordinary
  conn := waiting (getRequest (fileNamedA b).magnet zeroAddr)

/-- The session in which an owner to which `puts` were uploaded serves `a`. -/
def sessionAfter (puts : List (Put knownDigests)) (b : UInt8) : HttpSession :=
  ⟨true, true, true, waiting ((getNamedA b).serve (diskAfter .empty puts)).sent,
    FileOps.ordinary, false⟩

/-- The only owner that the downloading node knows. -/
def soleOwner : Peer := ⟨zeroBytes 32, { zeroAddr with sinPort := serverPort }⟩

def downloadAfter (puts : List (Put knownDigests)) (b : UInt8) : Option TriedOwners :=
  (handleRpcDownload (some (List.Vector.replicate 32 1)) (fun _ _ => none)
    (fun _ _ => sessionAfter puts b) .empty
    ⟨storagePutValue Storage.empty (uploadEntry (knownDigests [b]) zeroPeer), Buckets.empty⟩
    (fileNamedA b).magnet 0).val

theorem accepted_putNamedA {b : UInt8} {disk : Disk}
    (h : ((putNamedA b).serve disk).sent = fileCreated) : (putNamedA b).Accepted disk where
  sent := by
    rw [putNamedA, carried_waiting]
  waits := by
    rw [putNamedA, failures_waiting]
    exact Nat.one_pos
  created := h

theorem accepted_putNamedA_first : (putNamedA 1).Accepted .empty :=
  accepted_putNamedA (by decide +kernel)

theorem answers_getNamedA (puts : List (Put knownDigests)) (b : UInt8) :
    (getNamedA b).Answers (diskAfter .empty puts) (fileNamedA b).magnet
      (sessionAfter puts b) where
  sent := by
    rw [getNamedA, carried_waiting]
  waits := fails_of_lt_failures (by rw [getNamedA, failures_waiting]; exact Nat.one_pos)
  reply := by
    rw [sessionAfter, carried_waiting]

theorem undisturbed_getNamedA (puts : List (Put knownDigests)) (b : UInt8) :
    (getNamedA b).Undisturbed (sessionAfter puts b) where
  tell := rfl
  readable := rfl
  stays := by
    rw [sessionAfter, failures_waiting]
    exact Nat.one_pos
  writes w hw := by cases hw

end Kademlia.Upload
