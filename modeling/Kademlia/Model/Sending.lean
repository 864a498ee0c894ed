import Kademlia.Foundations.ByteSink
import Kademlia.Model.Transfer

/-!
The sending side of `shared.c`, and the texts that `http.c` passes to it.

A connection is the sink that the calls of `write` on it meet. What is sent in
one call is what the `sent` of `get_http_request` puts together. The server does
not look at what `send_all` returns; the client gives up when it is negative.
-/

namespace Kademlia.Model

open Foundations CString

/-! ### `send_all` -/

/-- The return value, `none` while a `write` does not return, with what was written and the
connection. -/
structure SendAll where
  ret : Option ℤ
  written : List UInt8
  rest : Sink

/-- The loop of `send_all`; `nbSent` bytes of `src` are sent. -/
def sendAllLoop (src : List UInt8) : ℕ → Sink → SendAll
  | nbSent, [] => ⟨if nbSent < src.length then none else some nbSent, src.take nbSent, []⟩
  | nbSent, event :: sink =>
      if nbSent < src.length then
        match event with
        | .interrupt => sendAllLoop src nbSent sink
        | .failure => ⟨some (-1), src.take nbSent, sink⟩
        | .took n => sendAllLoop src (nbSent + min n (src.length - nbSent)) sink
      else ⟨some nbSent, src.take nbSent, event :: sink⟩

def sendAll (src : List UInt8) (sink : Sink) : SendAll := sendAllLoop src 0 sink

/-- Calls of `send_all` whose results nobody looks at. -/
def sendEach : List (List UInt8) → Sink → List UInt8
  | [], _ => []
  | text :: texts, sink =>
      (sendAll text sink).written ++ sendEach texts (sendAll text sink).rest

/-- Calls of `send_all` up to one that returns a negative number. -/
def sendWhile : List (List UInt8) → Sink → List UInt8
  | [], _ => []
  | text :: texts, sink =>
      let sent := sendAll text sink
      sent.written ++ match sent.ret with
        | none => []
        | some ret => if ret < 0 then [] else sendWhile texts sent.rest

/-! ### The server -/

/-- The blocks that `fread` gets of a file; `fuel` need not be more than its bytes and one. -/
def fileBlocks : ℕ → List UInt8 → List (List UInt8)
  | 0, _ => []
  | fuel + 1, contents =>
      let buffer := contents.take bufSize
      if buffer = [] then [] else buffer :: fileBlocks fuel (contents.drop bufSize)

/-- What `send_http_file` passes to `send_all`. -/
def sendHttpFileTexts (ops : FileOps) (disk : Disk) (filename : List UInt8) :
    List (List UInt8) :=
  match (if ops.opens then disk (pathIn uploadDir filename) else none) with
  | none => [notFound]
  | some content =>
      okHeader (ops.tell.getD content.length) ::
        fileBlocks (content.length + 1) (content.take (ops.readable.getD content.length))

/-- What `handle_http_request` does; the other responses are one text each. -/
def handleHttpTexts (ops : FileOps) (disk : Disk) (contents : Memory) (length : ℕ)
    (conn : Conn) : List (List UInt8) :=
  if (contents.bytes 0 4).toList = ascii "GET " ∧ filePath contents ≠ [] then
    sendHttpFileTexts ops disk (filePath contents)
  else [(handleHttpRequest ops disk contents length conn).sent]

/-- What `get_http_request` does. -/
def getHttpTexts (ops : FileOps) (disk : Disk) (buf : Memory) (conn : Conn) :
    List (List UInt8) :=
  let received := recvUntil conn bufSize httpPattern
  if received.ret < 0 then []
  else handleHttpTexts ops disk (buf.write 0 received.stored) received.ret.toNat received.rest

def serverSends (ops : FileOps) (disk : Disk) (buf : Memory) (conn : Conn) (sink : Sink) :
    List UInt8 :=
  sendEach (getHttpTexts ops disk buf conn) sink

/-! ### The client -/

/-- What `upload_http_file` sends. -/
def putSends (file : FileMagnet) (addr : SockAddrIn) (contents : List UInt8) (sink : Sink) :
    List UInt8 :=
  sendWhile [putRequest file addr contents.length, contents] sink

/-- What `download_http_file` sends. -/
def getSends (file : FileMagnet) (addr : SockAddrIn) (sink : Sink) : List UInt8 :=
  sendWhile [getRequest file addr] sink

end Kademlia.Model
