import Kademlia.Model.Transfer

/-!
File names in requests.

`download_http_file` and `upload_http_file` print the name into the first line
of the request as it is; `handle_http_request` takes the word behind the method
for it, at most 255 bytes with the slash in front. Both agree on the names that
are one word and fit.
-/

namespace Kademlia.Http

open Foundations CString Model

/-- The file name that `handle_http_request` finds in a request. -/
def extractedName (contents : Memory) : Option (List UInt8) :=
  if (contents.bytes 0 4).toList = ascii "GET " ∨ (contents.bytes 0 4).toList = ascii "PUT " then
    if filePath contents = [] then none else some (filePath contents)
  else none

theorem handleHttpRequest_of_extractedName {contents : Memory} {name : List UInt8}
    (h : extractedName contents = some name) (ops : FileOps) (disk : Disk) (length : ℕ)
    (conn : Conn) :
    handleHttpRequest ops disk contents length conn =
      if (contents.bytes 0 4).toList = ascii "GET " then sendHttpFile ops disk name conn
      else receiveHttpFile ops disk name contents length conn := by
  unfold extractedName at h
  unfold handleHttpRequest
  split at h
  · next hmethod =>
      split at h
      · cases h
      · next hne =>
          rw [← Option.some.inj h, if_neg hne, if_neg hne]
          rcases hmethod with hget | hput
          · rw [if_pos hget, if_pos hget]
          · rw [if_pos hput]
  · cases h

def magnetNamed (name : BaseName) (fileHash : HashID) (exactLength : ℕ) : FileMagnet :=
  ⟨fileHash, some name.bytes, exactLength⟩

/-- Whatever is in the buffer behind them, both requests for a file of this name
are understood as requests for this name. -/
def NameAgrees (name : BaseName) : Prop :=
  ∀ fileHash exactLength (buf : Memory) addr length,
    extractedName (buf.write 0 (getRequest (magnetNamed name fileHash exactLength) addr)) =
        some name.bytes ∧
      extractedName
          (buf.write 0 (putRequest (magnetNamed name fileHash exactLength) addr length)) =
        some name.bytes

/-! ### The names of magnets -/

theorem createMagnet_displayName {sha256 : List UInt8 → HashID} {filename : List UInt8}
    {contents : Option (List UInt8)} {file : FileMagnet}
    (h : createMagnet sha256 filename contents = some file) :
    file.displayName = some (baseName filename) := by
  unfold createMagnet at h
  split at h
  · cases h
  · split at h
    · cases h
    · dsimp only at h
      split at h
      · cases h
      · rw [← Option.some.inj h]

/-- The last component of a path is a `BaseName`, unless it is empty. -/
def BaseName.ofPath (filename : List UInt8) (hnul : 0 ∉ filename)
    (hne : baseName filename ≠ []) : BaseName where
  bytes := baseName filename
  ne_nil := hne
  no_slash hmem := by simpa using List.mem_rtakeWhile_imp hmem
  no_nul hmem := hnul ((List.rtakeWhile_suffix _ _).mem hmem)

theorem baseName_bytes (name : BaseName) : baseName name.bytes = name.bytes := by
  rw [baseName, List.rtakeWhile_eq_self_iff]
  intro b hb
  have hne : b ≠ 47 := fun heq => name.no_slash (heq ▸ hb)
  simpa using hne

/-! ### One word -/

def requestText (method name rest : List UInt8) : List UInt8 :=
  snprintf 1024 (method ++ 47 :: (name ++ 32 :: rest))

theorem requestPath_write {method name rest : List UInt8} (hmethod : method.length = 4)
    (hnul : 0 ∉ method ++ 47 :: (name ++ 32 :: rest)) (buf : Memory) :
    ∃ tail, requestPath (buf.write 0 (requestText method name rest)) =
      (47 :: word ((name ++ 32 :: rest).take 1018 ++ tail)).take 255 := by
  have htext : requestText method name rest =
      method ++ 47 :: (name ++ 32 :: rest).take 1018 := by
    rw [requestText, snprintf, List.take_append, List.take_of_length_le (by omega), hmethod]
    rfl
  have hmem : 0 ∉ requestText method name rest := fun h => hnul (List.mem_of_mem_take h)
  have hlen : (requestText method name rest).length ≤ 2 ^ 64 :=
    (List.length_take_le _ _).trans (by decide)
  have hstring := buf.cString_write hmem hlen
  generalize buf.cStringAt _ _ = tail at hstring
  refine ⟨tail, ?_⟩
  rw [requestPath, scanWord, hstring, htext, List.append_assoc, List.drop_left' hmethod,
    List.cons_append, skipSpace_eq_self (by decide), word,
    List.takeWhile_cons_of_pos (by decide)]
  rfl

/-- What is found in the request is the name exactly when it is one word of at
most 254 bytes. -/
theorem filePath_write_eq_iff {method name rest : List UInt8} (hmethod : method.length = 4)
    (hnul : 0 ∉ method ++ 47 :: (name ++ 32 :: rest)) (buf : Memory) :
    filePath (buf.write 0 (requestText method name rest)) = name ↔
      (∀ b ∈ name, isSpace b = false) ∧ name.length ≤ 254 := by
  obtain ⟨tail, hpath⟩ := requestPath_write hmethod hnul buf
  have htail : filePath (buf.write 0 (requestText method name rest)) =
      (word ((name ++ 32 :: rest).take 1018 ++ tail)).take 254 := by
    rw [filePath, hpath]
    rfl
  rw [htail]
  constructor
  · intro h
    constructor
    · intro b hb
      rw [← h] at hb
      exact isSpace_of_mem_word (List.mem_of_mem_take hb)
    · rw [← h]
      exact List.length_take_le _ _
  · rintro ⟨hword, hlen⟩
    have hfit : (name ++ 32 :: rest).take 1018 = name ++ 32 :: rest.take (1017 - name.length) := by
      rw [List.take_append, List.take_of_length_le (by omega),
        show 1018 - name.length = 1017 - name.length + 1 by omega, List.take_succ_cons]
    rw [hfit, List.append_assoc, List.cons_append, word_append_space hword (by decide)]
    exact List.take_of_length_le hlen

theorem extractedName_write_eq_iff {method name rest : List UInt8} (hmethod : method.length = 4)
    (hknown : method = ascii "GET " ∨ method = ascii "PUT ") (hne : name ≠ [])
    (hnul : 0 ∉ method ++ 47 :: (name ++ 32 :: rest)) (buf : Memory) :
    extractedName (buf.write 0 (requestText method name rest)) = some name ↔
      (∀ b ∈ name, isSpace b = false) ∧ name.length ≤ 254 := by
  have hbytes : ((buf.write 0 (requestText method name rest)).bytes 0 4).toList = method := by
    have hlen : 4 ≤ (requestText method name rest).length := by
      rw [requestText, snprintf, List.length_take, List.length_append, List.length_cons]
      omega
    have hread := buf.toList_bytes_write 0 (show 0 + 4 ≤ _ by omega)
    rw [Nat.add_zero] at hread
    rw [hread, List.drop_zero, requestText, snprintf, List.take_take, List.take_append,
      List.take_of_length_le (by omega), hmethod]
    simp
  rw [← filePath_write_eq_iff hmethod hnul buf, extractedName, hbytes, if_pos hknown]
  split
  · next hnil =>
      rw [hnil]
      exact ⟨fun h => (Option.some_ne_none _ h.symm).elim, fun h => (hne h.symm).elim⟩
  · rw [Option.some.injEq]

/-! ### The two requests -/

theorem mem_hostText {addr : SockAddrIn} {b : UInt8} (h : b ∈ hostText addr) :
    isDigit b = true ∨ b = 46 ∨ b = 58 := by
  rw [hostText, List.mem_append, List.mem_append, List.mem_singleton] at h
  rcases h with (h | h) | h
  · rcases mem_of_mem_intercalate h with h | ⟨text, htext, h⟩
    · exact Or.inr (Or.inl (List.mem_singleton.mp h))
    · obtain ⟨byte, -, rfl⟩ := List.mem_map.mp htext
      exact Or.inl (isDigit_of_mem_decimal h)
  · exact Or.inr (Or.inr h)
  · exact Or.inl (isDigit_of_mem_decimal h)

theorem not_mem_hostText (addr : SockAddrIn) : 0 ∉ hostText addr := by
  intro h
  rcases mem_hostText h with h | h | h
  · cases h
  · cases h
  · cases h

theorem not_mem_decimal (n : ℕ) : 0 ∉ decimal n := by
  intro h
  have hdigit := isDigit_of_mem_decimal h
  cases hdigit

theorem extractedName_getRequest_iff (name : BaseName) (fileHash : HashID) (exactLength : ℕ)
    (buf : Memory) (addr : SockAddrIn) :
    extractedName (buf.write 0 (getRequest (magnetNamed name fileHash exactLength) addr)) =
        some name.bytes ↔
      (∀ b ∈ name.bytes, isSpace b = false) ∧ name.bytes.length ≤ 254 := by
  have htext : getRequest (magnetNamed name fileHash exactLength) addr =
      requestText (ascii "GET ") name.bytes (ascii "HTTP/1.1\r\n" ++ ascii "Host: " ++
        hostText addr ++ ascii "\r\n" ++ ascii "Connection: close\r\n\r\n") := by
    have hmethod : ascii "GET /" = ascii "GET " ++ [47] := by decide
    have hversion : ascii " HTTP/1.1\r\n" = 32 :: ascii "HTTP/1.1\r\n" := by decide
    rw [getRequest, requestText, hmethod, hversion]
    simp [magnetNamed, FileMagnet.nameText]
  rw [htext]
  refine extractedName_write_eq_iff (by decide) (Or.inl rfl) name.ne_nil ?_ buf
  simp only [List.mem_append, List.mem_cons, not_or]
  refine ⟨by decide, by decide, name.no_nul, by decide, ?_⟩
  exact ⟨⟨⟨⟨by decide, by decide⟩, not_mem_hostText addr⟩, by decide⟩, by decide⟩

theorem extractedName_putRequest_iff (name : BaseName) (fileHash : HashID) (exactLength : ℕ)
    (buf : Memory) (addr : SockAddrIn) (length : ℕ) :
    extractedName
          (buf.write 0 (putRequest (magnetNamed name fileHash exactLength) addr length)) =
        some name.bytes ↔
      (∀ b ∈ name.bytes, isSpace b = false) ∧ name.bytes.length ≤ 254 := by
  have htext : putRequest (magnetNamed name fileHash exactLength) addr length =
      requestText (ascii "PUT ") name.bytes (ascii "HTTP/1.1\r\n" ++ ascii "Host: " ++
        hostText addr ++ ascii "\r\n" ++ ascii "Content-Type: application/octet-stream\r\n" ++
        ascii "Content-Length: " ++ decimal length ++ ascii "\r\n" ++
        ascii "Connection: close\r\n\r\n") := by
    have hmethod : ascii "PUT /" = ascii "PUT " ++ [47] := by decide
    have hversion : ascii " HTTP/1.1\r\n" = 32 :: ascii "HTTP/1.1\r\n" := by decide
    rw [putRequest, requestText, hmethod, hversion]
    simp [magnetNamed, FileMagnet.nameText]
  rw [htext]
  refine extractedName_write_eq_iff (by decide) (Or.inr rfl) name.ne_nil ?_ buf
  simp only [List.mem_append, List.mem_cons, not_or]
  refine ⟨by decide, by decide, name.no_nul, by decide, ?_⟩
  exact ⟨⟨⟨⟨⟨⟨⟨⟨by decide, by decide⟩, not_mem_hostText addr⟩, by decide⟩, by decide⟩,
    by decide⟩, not_mem_decimal length⟩, by decide⟩, by decide⟩

/-- Client and server agree on a name exactly when it is one word of at most 254
bytes. -/
theorem nameAgrees_iff (name : BaseName) :
    NameAgrees name ↔
      (∀ b ∈ name.bytes, isSpace b = false) ∧ name.bytes.length ≤ 254 := by
  constructor
  · intro h
    have hget := (h (zeroBytes 32) 0 (fun _ => 0) zeroAddr 0).1
    rwa [extractedName_getRequest_iff] at hget
  · intro h fileHash exactLength buf addr length
    rw [extractedName_getRequest_iff, extractedName_putRequest_iff]
    exact ⟨h, h⟩

/-- `a b` -/
def spacedName : BaseName := ⟨[97, 32, 98], by decide, by decide, by decide⟩

theorem spacedName_not_nameAgrees : ¬ NameAgrees spacedName := by
  intro h
  have hget := (h (zeroBytes 32) 0 (fun _ => 0) zeroAddr 0).1
  rw [extractedName_getRequest_iff] at hget
  exact absurd (hget.1 32 (by decide)) (by decide)

end Kademlia.Http
