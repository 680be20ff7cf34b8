import OsmMini.Cmd.Compression.Writer

/-!
# The stages of a compressed response

Until a status settles the writer is open. Then the response is held back with its
header frozen, or it is sent as it is, sent through the coder, or rejected. What is held
back is sent later in one of the first two ways, and each way goes on to the end.
-/

set_option autoImplicit false

namespace OsmMini.Cmd

open OsmMini.Foundations OsmMini.Foundations.Text

variable {coder : StreamCoder} {request : Request}

/-! ## What is sent -/

/-- The bytes that an event adds to the body. -/
def Event.data : Event → List UInt8
  | .body data => data
  | _ => []

def Event.isInformational : Event → Bool
  | .informational .. => true
  | _ => false

/-- Whether an event may follow the final head. -/
def Event.follows : Event → Bool
  | .body _ | .flush => true
  | _ => false

/-- One final head is sent, with this status and, trailers apart, this header; only
informational heads come before it, and after it comes only the body. -/
def Sends (events : List Event) (status : ℤ) (header : Header) (body : List UInt8) : Prop :=
  ∃ front sent rest, events = front ++ .head status sent :: rest ∧
    (∀ event ∈ front, event.isInformational = true) ∧
    (∀ event ∈ rest, event.follows = true) ∧
    (∀ key, isTrailer key = false → sent key = header key) ∧
    rest.flatMap Event.data = body

section Sending

variable {r : Response} {status : ℤ} {header : Header} {body : List UInt8}

theorem Sends.append (sends : Sends r.events status header body) {e : Event}
    (follows : e.follows = true) :
    Sends (r.events ++ [e]) status header (body ++ e.data) := by
  obtain ⟨front, sent, rest, events, before, after, same, rfl⟩ := sends
  refine ⟨front, sent, rest ++ [e], by simp [events], before, ?_, same, by simp⟩
  intro event member
  rcases List.mem_append.mp member with old | new
  · exact after event old
  · exact List.mem_singleton.mp new ▸ follows

theorem Sends.write (sends : Sends r.events status header body) (data : List UInt8) :
    Sends (r.write data).events status header (body ++ data) :=
  sends.append (e := .body data) rfl

theorem Sends.flush (sends : Sends r.events status header body) :
    Sends r.flush.events status header body := by
  have flushed := sends.append (e := .flush) rfl
  have nothing : Event.flush.data = [] := rfl
  rwa [nothing, List.append_nil] at flushed

theorem Sends.writes (pieces : List (List UInt8)) (sends : Sends r.events status header body) :
    Sends (pieces.foldl Response.write r).events status header (body ++ pieces.flatten) := by
  induction pieces generalizing r body with
  | nil => simpa using sends
  | cons data pieces ih =>
      rw [List.foldl_cons, List.flatten_cons, ← List.append_assoc]
      exact ih (sends.write data)

def Event.headStatus : Event → Option ℤ
  | .head status _ => some status
  | _ => none

/-- **One final head is sent.** -/
theorem Sends.heads (sends : Sends r.events status header body) :
    r.events.filterMap Event.headStatus = [status] := by
  obtain ⟨front, sent, rest, events, before, after, -, -⟩ := sends
  have none_before : front.filterMap Event.headStatus = [] := by
    refine List.filterMap_eq_nil_iff.mpr fun event member => ?_
    cases event <;> first | rfl | exact absurd (before _ member) Bool.false_ne_true
  have none_after : rest.filterMap Event.headStatus = [] := by
    refine List.filterMap_eq_nil_iff.mpr fun event member => ?_
    cases event <;> first | rfl | exact absurd (after _ member) Bool.false_ne_true
  rw [events, List.filterMap_append, List.filterMap_cons, none_before, none_after]
  rfl

/-- The head is sent when only informational ones were. -/
theorem sends_head (front : ∀ event ∈ r.events, event.isInformational = true) (status : ℤ)
    (same : ∀ key, isTrailer key = false → r.header key = header key) :
    Sends (r.writeHeader status).events status header [] :=
  ⟨r.events, r.header, [], rfl, front, fun _ member => absurd member List.not_mem_nil, same, rfl⟩

end Sending

/-! ## The stages -/

/-- The body may have content. -/
def bodyAllowed (status : ℤ) : Bool := 200 ≤ status && !JsonCompressionWriter.bodyless status

/-- The client takes no response as it is, the response has a body, and the handler did
not choose a coding. -/
def identityExcluded (request : Request) (status : ℤ) (header : Header) : Bool :=
  forbidsIdentity request.acceptEncoding && !request.head && bodyAllowed status &&
    header.get "Content-Encoding" = ""

/-- The header that is sent: the settled one with the writer's own changes. -/
def sentHeader (encoded rejected : Bool) (header : Header) : Header :=
  let header := addEncodingVary
    (if rejected then JsonCompressionWriter.rejectedHeader header else header)
  if encoded then JsonCompressionWriter.encodedHeader header else header

/-- The writer still holds what the request says. -/
structure Negotiated (request : Request) (w : JsonCompressionWriter coder) : Prop where
  enabled : w.disabled = false → F64.lt zero (gzipQuality request.acceptEncoding) = true
  forbidden : w.identityForbidden = forbidsIdentity request.acceptEncoding
  required : w.gzipRequired = (forbidsIdentity request.acceptEncoding &&
    F64.lt zero (gzipQuality request.acceptEncoding))
  head : w.head = request.head

/-- No status has settled, and only informational heads were sent. -/
structure Open (request : Request) (header : Header) (w : JsonCompressionWriter coder) :
    Prop where
  negotiated : Negotiated request w
  unsettled : w.status = 0
  committed : w.committed = false
  frozen : w.frozenHeader = none
  pending : w.pending = []
  gzip : w.gzip = none
  rejected : w.rejected = false
  header : w.response.header = header
  front : ∀ event ∈ w.response.events, event.isInformational = true

/-- The response is held back: it may be compressed. -/
structure Held (request : Request) (status : ℤ) (header : Header) (data : List UInt8)
    (w : JsonCompressionWriter coder) : Prop where
  negotiated : Negotiated request w
  settled : w.status = status
  final : 200 ≤ status
  committed : w.committed = false
  frozen : w.frozenHeader = some header
  pending : w.pending = data
  gzip : w.gzip = none
  rejected : w.rejected = false
  compressible : w.compressible = true
  front : ∀ event ∈ w.response.events, event.isInformational = true

/-- The response is sent as it is. -/
structure Plain (request : Request) (status : ℤ) (header : Header) (data : List UInt8)
    (w : JsonCompressionWriter coder) : Prop where
  settled : w.status ≠ 0
  committed : w.committed = true
  gzip : w.gzip = none
  rejected : w.rejected = false
  included : identityExcluded request status header = false
  sends : Sends w.response.events status (sentHeader false false header) data

/-- The response is sent through the coder, which has coded the data so far. -/
structure Encoded (request : Request) (status : ℤ) (header : Header) (data : List UInt8)
    (w : JsonCompressionWriter coder) : Prop where
  settled : w.status ≠ 0
  committed : w.committed = true
  rejected : w.rejected = false
  positive : F64.lt zero (gzipQuality request.acceptEncoding) = true
  coded : ∃ s output, w.gzip = some s ∧ coder.Coded s data output ∧
    Sends w.response.events status (sentHeader true false header) output

/-- The response is rejected; whatever the handler writes is dropped. -/
structure Rejected (request : Request) (status : ℤ) (header : Header)
    (w : JsonCompressionWriter coder) : Prop where
  settled : w.status ≠ 0
  committed : w.committed = true
  gzip : w.gzip = none
  rejected : w.rejected = true
  excluded : identityExcluded request status header = true
  sends : Sends w.response.events statusNotAcceptable (sentHeader false true header) []

/-- A status and a header have settled, and the handler has written the data. -/
def Settled (request : Request) (status : ℤ) (header : Header) (data : List UInt8)
    (w : JsonCompressionWriter coder) : Prop :=
  Held request status header data w ∨ Plain request status header data w ∨
    Encoded request status header data w ∨ Rejected request status header w

end OsmMini.Cmd
