import OsmMini.Cmd.Compression.Encodings
import OsmMini.Foundations.StreamCoder

/-!
# The compressing response writer

The writer stands between a handler and the connection. It settles status and header at
the first of `WriteHeader`, `Write`, `ReadFrom` and `Flush`, as the connection would, but
holds a small compressible body back until it is known whether compressing it pays.
Writing to the connection is taken to succeed.
-/

set_option autoImplicit false

namespace OsmMini.Cmd

open OsmMini.Foundations OsmMini.Foundations.Text

/-! ## Headers -/

/-- A header gives the values of every key in its canonical spelling; a key without
values is absent. -/
abbrev Header := String → List String

namespace Header

/-- The first value of a key. -/
def get (header : Header) (key : String) : String := (header key).headD ""

def set (header : Header) (key value : String) : Header := Function.update header key [value]

def add (header : Header) (key value : String) : Header :=
  Function.update header key (header key ++ [value])

def del (header : Header) (key : String) : Header := Function.update header key []

end Header

/-- Keys with this prefix are trailers: they are sent behind the body. -/
def trailerPrefix : String := "Trailer:"

def isTrailer (key : String) : Bool := trailerPrefix.toList.isPrefixOf key.toList

/-- Name `Accept-Encoding` in `Vary` unless a value names it or the wildcard already. -/
def addEncodingVary (header : Header) : Header :=
  if (header "Vary").any fun value => (value.toList.splitOn ',').any fun token =>
      equalFold (Text.trimSpace token) "Accept-Encoding".toList || Text.trimSpace token = ['*'] then header
  else header.add "Vary" "Accept-Encoding"

/-! ## The connection -/

/-- What goes over the connection: heads before the final one, the final head, pieces of
the body, and requests to send what was written so far. -/
inductive Event
  | informational (status : ℤ) (header : Header)
  | head (status : ℤ) (header : Header)
  | body (data : List UInt8)
  | flush

/-- The connection's own writer: the header that the next head will carry, and what was
sent. -/
structure Response where
  header : Header
  events : List Event

namespace Response

def writeInformational (r : Response) (status : ℤ) : Response :=
  { r with events := r.events ++ [.informational status r.header] }

def writeHeader (r : Response) (status : ℤ) : Response :=
  { r with events := r.events ++ [.head status r.header] }

def write (r : Response) (data : List UInt8) : Response :=
  { r with events := r.events ++ [.body data] }

def flush (r : Response) : Response :=
  { r with events := r.events ++ [.flush] }

end Response

/-! ## The writer -/

def jsonCompressionMinimum : ℕ := 1024

def statusOK : ℤ := 200
def statusSwitchingProtocols : ℤ := 101
def statusNoContent : ℤ := 204
def statusResetContent : ℤ := 205
def statusPartialContent : ℤ := 206
def statusNotModified : ℤ := 304
def statusNotAcceptable : ℤ := 406

structure JsonCompressionWriter (coder : StreamCoder) where
  response : Response
  status : ℤ
  committed : Bool
  disabled : Bool
  identityForbidden : Bool
  gzipRequired : Bool
  head : Bool
  rejected : Bool
  frozenHeader : Option Header
  pending : List UInt8
  gzip : Option coder.State

/-- What a request says about the coding of its response. -/
structure Request where
  head : Bool
  range : String
  acceptEncoding : List String

/-- The writer that a request under `/api/v1/` is answered through. -/
def newJsonCompressionWriter (coder : StreamCoder) (request : Request) (header : Header) :
    JsonCompressionWriter coder :=
  let encoding := parseResponseEncodings request.acceptEncoding
  { response := ⟨addEncodingVary header, []⟩
    status := 0
    committed := false
    disabled := request.head || request.range ≠ "" || !encoding.prefersGzip
    identityForbidden := F64.equal encoding.identity zero
    gzipRequired := F64.equal encoding.identity zero && F64.lt zero encoding.gzip
    head := request.head
    rejected := false
    frozenHeader := none
    pending := []
    gzip := none }

namespace JsonCompressionWriter

variable {coder : StreamCoder} (w : JsonCompressionWriter coder)

def responseHeader : Header := w.frozenHeader.getD w.response.header

/-- Change the header that will be sent. -/
def mapHeader (f : Header → Header) : JsonCompressionWriter coder :=
  match w.frozenHeader with
  | some frozen => { w with frozenHeader := some (f frozen) }
  | none => { w with response := { w.response with header := f w.response.header } }

def noTransform (header : Header) : Bool :=
  (header "Cache-Control").any fun value => (value.toList.splitOn ',').any fun directive =>
    equalFold (Text.trimSpace directive) "no-transform".toList

def jsonType (header : Header) : Bool :=
  let mediaType := Text.trimSpace (cut ';' (header.get "Content-Type").toList).1
  equalFold mediaType "application/json".toList || equalFold mediaType "application/geo+json".toList

def bodyless (status : ℤ) : Bool :=
  status = statusNoContent || status = statusResetContent || status = statusNotModified

/-- Whether a response with this status and header may be compressed. -/
def mayCompress (status : ℤ) (header : Header) : Bool :=
  !(status < 200 || bodyless status || status = statusPartialContent ||
    header.get "Content-Encoding" ≠ "" || header.get "Content-Range" ≠ "" ||
    header.get "Etag" ≠ "" || (header "Trailer").length ≠ 0) &&
  !noTransform header && jsonType header

def compressible : Bool := !w.disabled && mayCompress w.status w.responseHeader

/-- Send data through the coder when there is one. -/
def output (data : List UInt8) : JsonCompressionWriter coder :=
  match w.gzip with
  | some s =>
    { w with
      response := w.response.write (coder.write s data).2
      gzip := some (coder.write s data).1 }
  | none => { w with response := w.response.write data }

/-- What the writer itself changes in the header of a compressed response. -/
def encodedHeader (header : Header) : Header :=
  (header.set "Content-Encoding" "gzip").del "Content-Length"

/-- Put the frozen header back in place; trailers announced since then stay. -/
def thaw : JsonCompressionWriter coder :=
  match w.frozenHeader with
  | some frozen =>
    { w with
      response := { w.response with
        header := fun key => if isTrailer key then w.response.header key else frozen key }
      frozenHeader := none }
  | none => w

/-- Send the head. -/
def sendHead (compress : Bool) : JsonCompressionWriter coder :=
  let w := if w.status = 0 then { w with status := statusOK } else w
  let w := w.mapHeader addEncodingVary
  let w := if compress then { w with gzip := some coder.start }.mapHeader encodedHeader else w
  let w := w.thaw
  { w with committed := true, response := w.response.writeHeader w.status }

/-- Send the part of the body that was held back. -/
def drain : JsonCompressionWriter coder :=
  if w.pending ≠ [] then { w.output w.pending with pending := [] } else w

def commit (compress : Bool) : JsonCompressionWriter coder :=
  (w.sendHead compress).drain

/-- Whether a response that cannot be compressed must not be sent as it is either. -/
def unacceptable (status : ℤ) : Bool :=
  w.identityForbidden && !w.head && 200 ≤ status && !bodyless status &&
    w.response.header.get "Content-Encoding" = ""

def rejectedHeader (header : Header) : Header :=
  ((((header.del "Content-Type").del "Content-Range").del "Etag").del "Trailer").set
    "Content-Length" "0"

/-- Replace the response by an empty one that says that no coding is acceptable. -/
def reject : JsonCompressionWriter coder :=
  { w with
    rejected := true
    status := statusNotAcceptable
    response := { w.response with header := rejectedHeader w.response.header } }

/-- Settle a final status: a response that cannot be compressed is sent at once, and the
header of any other is frozen. -/
def settle (status : ℤ) : JsonCompressionWriter coder :=
  let w := { w with status := status }
  if status = statusSwitchingProtocols || !w.compressible then
    (if w.unacceptable status then w.reject else w).commit false
  else { w with frozenHeader := some w.response.header }

/-- An invalid status panics. -/
def writeHeader (status : ℤ) : Except String (JsonCompressionWriter coder) :=
  if w.committed || w.status ≠ 0 then .ok w
  else if status < 100 || 999 < status then
    .error ("invalid WriteHeader code " ++ toString status)
  else if status < 200 && status ≠ statusSwitchingProtocols then
    .ok { w with response := w.response.writeInformational status }
  else .ok (w.settle status)

/-- Every other call settles the status OK when there is none yet. -/
def started : Except String (JsonCompressionWriter coder) :=
  if w.status = 0 then w.writeHeader statusOK else .ok w

def write (data : List UInt8) : Except String (JsonCompressionWriter coder) := do
  let w ← w.started
  if w.rejected then return w
  if w.committed then return w.output data
  if w.compressible && !w.gzipRequired &&
      w.pending.length + data.length < jsonCompressionMinimum then
    return { w with pending := w.pending ++ data }
  return (w.commit w.compressible).output data

/-- Copy the pieces that a reader yields. Without a coder they go to the connection
directly. -/
def readFrom (pieces : List (List UInt8)) : Except String (JsonCompressionWriter coder) := do
  let w ← w.started
  if w.rejected then return w
  if w.committed && w.gzip.isNone then
    return { w with response := pieces.foldl Response.write w.response }
  pieces.foldlM write w

def commitPending : JsonCompressionWriter coder :=
  if w.committed then w else w.commit (w.gzipRequired && w.compressible)

def flush : Except String (JsonCompressionWriter coder) := do
  let w := (← w.started).commitPending
  return match w.gzip with
    | some s =>
      { w with
        response := (w.response.write (coder.flush s).2).flush
        gzip := some (coder.flush s).1 }
    | none => { w with response := w.response.flush }

def finish : Except String (JsonCompressionWriter coder) := do
  let w := (← w.started).commitPending
  return match w.gzip with
    | some s => { w with response := w.response.write (coder.close s) }
    | none => w

end JsonCompressionWriter

/-! ## Handlers -/

/-- What a handler does with its writer: it changes the header in place and calls the
writer's methods. -/
inductive Call
  | header (change : Header → Header)
  | writeHeader (status : ℤ)
  | write (data : List UInt8)
  | readFrom (pieces : List (List UInt8))
  | flush

def JsonCompressionWriter.call {coder : StreamCoder} (w : JsonCompressionWriter coder) :
    Call → Except String (JsonCompressionWriter coder)
  | .header change =>
    .ok { w with response := { w.response with header := change w.response.header } }
  | .writeHeader status => w.writeHeader status
  | .write data => w.write data
  | .readFrom pieces => w.readFrom pieces
  | .flush => w.flush

/-- Answer a request with a handler that makes the given calls. -/
def serveJSON (coder : StreamCoder) (request : Request) (header : Header) (calls : List Call) :
    Except String (JsonCompressionWriter coder) := do
  let w ← calls.foldlM JsonCompressionWriter.call (newJsonCompressionWriter coder request header)
  w.finish

end OsmMini.Cmd
