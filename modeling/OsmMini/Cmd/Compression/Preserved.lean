import OsmMini.Cmd.Compression.Stages
import OsmMini.Foundations.StreamCoder
import OsmMini.Foundations.LittleEndian

/-!
# The compressing writer preserves the response

Every call keeps the stage that the response has reached or takes it to the next one.
What the connection receives in the end is what the handler settled and wrote.
-/

set_option autoImplicit false

namespace OsmMini.Cmd

open OsmMini.Foundations OsmMini.Foundations.Text JsonCompressionWriter

variable {coder : StreamCoder} {request : Request} {status : ℤ} {header : Header}
  {data : List UInt8} {w : JsonCompressionWriter coder}

/-! ## Sending the body -/

theorem Plain.output (plain : Plain request status header data w) (more : List UInt8) :
    Plain request status header (data ++ more) (w.output more) := by
  obtain ⟨settled, committed, gzip, rejected, included, sends⟩ := plain
  have same : w.output more = { w with response := w.response.write more } := by
    rw [JsonCompressionWriter.output, gzip]
  rw [same]
  exact ⟨settled, committed, gzip, rejected, included, sends.write more⟩

theorem Encoded.output (encoded : Encoded request status header data w) (more : List UInt8) :
    Encoded request status header (data ++ more) (w.output more) := by
  obtain ⟨settled, committed, rejected, positive, s, output, gzip, coded, sends⟩ := encoded
  unfold JsonCompressionWriter.output
  rw [gzip]
  exact ⟨settled, committed, rejected, positive, _, _, rfl, coded.write more, sends.write _⟩

theorem Plain.drain (plain : Plain request status header data w) :
    Plain request status header (data ++ w.pending) w.drain := by
  unfold JsonCompressionWriter.drain
  by_cases empty : w.pending = []
  · rw [if_neg (not_not.mpr empty), empty, List.append_nil]
    exact plain
  · rw [if_pos empty]
    obtain ⟨settled, committed, gzip, rejected, included, sends⟩ := plain.output w.pending
    exact ⟨settled, committed, gzip, rejected, included, sends⟩

theorem Encoded.drain (encoded : Encoded request status header data w) :
    Encoded request status header (data ++ w.pending) w.drain := by
  unfold JsonCompressionWriter.drain
  by_cases empty : w.pending = []
  · rw [if_neg (not_not.mpr empty), empty, List.append_nil]
    exact encoded
  · rw [if_pos empty]
    obtain ⟨settled, committed, rejected, positive, coded⟩ := encoded.output w.pending
    exact ⟨settled, committed, rejected, positive, coded⟩

/-! ## Sending what is held back -/

theorem Held.positive (held : Held request status header data w) :
    F64.lt zero (gzipQuality request.acceptEncoding) = true := by
  have compressible := held.compressible
  rw [JsonCompressionWriter.compressible, Bool.and_eq_true, Bool.not_eq_true'] at compressible
  exact held.negotiated.enabled compressible.1

/-- The head that is sent carries the frozen header. -/
theorem Held.sendHead (held : Held request status header data w) (compress : Bool) :
    Sends (w.sendHead compress).response.events status (sentHeader compress false header) [] ∧
      (w.sendHead compress).status = status ∧ (w.sendHead compress).committed = true ∧
      (w.sendHead compress).rejected = false ∧ (w.sendHead compress).pending = data ∧
      (w.sendHead compress).gzip = if compress then some coder.start else none := by
  obtain ⟨-, settled, final, -, frozen, pending, gzip, rejected, -, front⟩ := held
  obtain ⟨response, status', _, _, _, _, _, rejected', frozen', pending', gzip'⟩ := w
  obtain rfl : status' = status := settled
  obtain rfl : frozen' = some header := frozen
  obtain rfl : pending' = data := pending
  obtain rfl : gzip' = none := gzip
  obtain rfl : rejected' = false := rejected
  have nonzero : status' ≠ 0 := by omega
  have thawed := @sends_head { response with
      header := fun key => if isTrailer key then response.header key
        else sentHeader compress false header key } (sentHeader compress false header) front
    status' fun key plain => if_neg (plain ▸ Bool.false_ne_true)
  rw [JsonCompressionWriter.sendHead, if_neg nonzero]
  cases compress with
  | false => exact ⟨thawed, rfl, rfl, rfl, rfl, rfl⟩
  | true => exact ⟨thawed, rfl, rfl, rfl, rfl, rfl⟩

theorem Held.commit_encoded (held : Held request status header data w) :
    Encoded request status header data (w.commit true) := by
  obtain ⟨sends, settled, committed, rejected, pending, gzip⟩ := held.sendHead true
  have encoded : Encoded request status header [] (w.sendHead true) :=
    ⟨settled ▸ (Int.lt_of_lt_of_le (by decide) held.final).ne', committed, rejected,
      held.positive, coder.start, [], gzip, .start, sends⟩
  have drained := encoded.drain
  rwa [pending, List.nil_append] at drained

theorem Held.commit_plain (held : Held request status header data w)
    (optional : w.gzipRequired = false) :
    Plain request status header data (w.commit false) := by
  obtain ⟨sends, settled, committed, rejected, pending, gzip⟩ := held.sendHead false
  have permitted : forbidsIdentity request.acceptEncoding = false := by
    have required := held.negotiated.required
    rwa [optional, held.positive, Bool.and_true, eq_comm] at required
  have plain : Plain request status header [] (w.sendHead false) :=
    ⟨settled ▸ (Int.lt_of_lt_of_le (by decide) held.final).ne', committed, gzip, rejected,
      by rw [identityExcluded, permitted]; rfl, sends⟩
  have drained := plain.drain
  rwa [pending, List.nil_append] at drained

/-! ## Settling a status -/

/-- With nothing held back the head is sent with the handler's own header. -/
theorem commit_live (nonzero : w.status ≠ 0) (frozen : w.frozenHeader = none)
    (pending : w.pending = []) : w.commit false = { w with
      committed := true
      response := Response.writeHeader
        { w.response with header := addEncodingVary w.response.header } w.status } := by
  obtain ⟨response, status', _, _, _, _, _, _, frozen', pending', _⟩ := w
  obtain rfl : frozen' = none := frozen
  obtain rfl : pending' = [] := pending
  rw [commit, JsonCompressionWriter.sendHead, if_neg nonzero]
  rfl

theorem unacceptable_eq (negotiated : Negotiated request w) (status : ℤ) :
    w.unacceptable status = identityExcluded request status w.response.header := by
  rw [unacceptable, negotiated.forbidden, negotiated.head, identityExcluded, bodyAllowed]
  simp only [Bool.and_assoc]

theorem final_of_mayCompress (may : mayCompress status header = true) : 200 ≤ status := by
  by_contra below
  have small : status < 200 := not_le.mp below
  rw [mayCompress, decide_eq_true small] at may
  simp at may

/-- **A final status settles the response.** -/
theorem Open.settle (opened : Open request header w) (final : 200 ≤ status ∨ status = 101) :
    Settled request status header [] (w.settle status) := by
  have nonzero : status ≠ 0 := by omega
  obtain ⟨negotiated, -, committed, frozen, pending, gzip, rejected, rfl, front⟩ := opened
  have head := fun (status : ℤ) (own : Header) =>
    @sends_head { w.response with header := own } own front status fun _ _ => rfl
  unfold JsonCompressionWriter.settle
  dsimp only
  set w' : JsonCompressionWriter coder := { w with status := status } with settling
  have held : Negotiated request w' :=
    ⟨negotiated.enabled, negotiated.forbidden, negotiated.required, negotiated.head⟩
  by_cases now : status = statusSwitchingProtocols || !w'.compressible
  · rw [if_pos now, unacceptable_eq held]
    by_cases excluded : identityExcluded request status w'.response.header
    · have rejecting : statusNotAcceptable ≠ 0 := by decide
      rw [if_pos excluded, commit_live (w := w'.reject) rejecting frozen pending]
      exact .inr (.inr (.inr ⟨rejecting, rfl, gzip, rfl, excluded, head _ _⟩))
    · rw [if_neg excluded, commit_live (w := w') nonzero frozen pending]
      exact .inr (.inl ⟨nonzero, rfl, gzip, rejected, eq_false_of_ne_true excluded, head _ _⟩)
  · rw [if_neg now]
    rw [Bool.or_eq_true, not_or, Bool.not_eq_true', Bool.not_eq_false] at now
    have compressible := now.2
    rw [JsonCompressionWriter.compressible, responseHeader, frozen, Option.getD_none] at compressible
    have may := (Bool.and_eq_true .. ▸ compressible).2
    exact .inl ⟨⟨held.enabled, held.forbidden, held.required, held.head⟩, rfl,
      final_of_mayCompress may, committed, rfl, pending, gzip, rejected, compressible, front⟩

/-! ## One call -/

theorem Settled.nonzero (settled : Settled request status header data w) : w.status ≠ 0 := by
  rcases settled with held | plain | encoded | rejected
  · rw [held.settled]
    exact (Int.lt_of_lt_of_le (by decide) held.final).ne'
  · exact plain.settled
  · exact encoded.settled
  · exact rejected.settled

theorem Settled.started (settled : Settled request status header data w) : w.started = .ok w :=
  if_neg settled.nonzero

theorem Settled.writeHeader (settled : Settled request status header data w) (again : ℤ) :
    w.writeHeader again = .ok w :=
  if_pos (by rw [decide_eq_true settled.nonzero, Bool.or_true])

/-- An open writer answers every call but `WriteHeader` as one that has settled OK. -/
theorem Open.started (opened : Open request header w) :
    w.started = .ok (w.settle statusOK) := by
  rw [JsonCompressionWriter.started, if_pos opened.unsettled, JsonCompressionWriter.writeHeader,
    opened.committed, opened.unsettled]
  rfl

theorem Held.write (held : Held request status header data w) (more : List UInt8) :
    ∃ w', w.write more = .ok w' ∧ Settled request status header (data ++ more) w' := by
  have settled : Settled request status header data w := .inl held
  rw [JsonCompressionWriter.write, settled.started]
  simp only [bind, Except.bind, held.rejected, held.committed, held.compressible, pure,
    Except.pure, Bool.false_eq_true, if_false, Bool.true_and]
  by_cases short : (!w.gzipRequired && decide (w.pending.length + more.length <
      jsonCompressionMinimum)) = true
  · rw [if_pos short]
    obtain ⟨negotiated, settled, final, -, frozen, pending, gzip, -, compressible, front⟩ := held
    exact ⟨_, rfl, .inl ⟨⟨negotiated.enabled, negotiated.forbidden, negotiated.required,
      negotiated.head⟩, settled, final, rfl, frozen, congrArg (· ++ more) pending, gzip, rfl,
      compressible, front⟩⟩
  · rw [if_neg short]
    exact ⟨_, rfl, .inr (.inr (.inl (held.commit_encoded.output more)))⟩

theorem Settled.write (settled : Settled request status header data w) (more : List UInt8) :
    ∃ w', w.write more = .ok w' ∧ Settled request status header (data ++ more) w' := by
  rcases settled with held | plain | encoded | rejected
  · exact held.write more
  · have settled : Settled request status header data w := .inr (.inl plain)
    refine ⟨w.output more, ?_, .inr (.inl (plain.output more))⟩
    simp [JsonCompressionWriter.write, settled.started, bind, Except.bind, plain.rejected,
      plain.committed, pure, Except.pure]
  · have settled : Settled request status header data w := .inr (.inr (.inl encoded))
    refine ⟨w.output more, ?_, .inr (.inr (.inl (encoded.output more)))⟩
    simp [JsonCompressionWriter.write, settled.started, bind, Except.bind, encoded.rejected,
      encoded.committed, pure, Except.pure]
  · have settled : Settled request status header data w := .inr (.inr (.inr rejected))
    refine ⟨w, ?_, .inr (.inr (.inr rejected))⟩
    simp [JsonCompressionWriter.write, settled.started, bind, Except.bind, rejected.rejected,
      pure, Except.pure]

theorem Settled.writes (pieces : List (List UInt8))
    (settled : Settled request status header data w) :
    ∃ w', pieces.foldlM JsonCompressionWriter.write w = .ok w' ∧
      Settled request status header (data ++ pieces.flatten) w' := by
  induction pieces generalizing data w with
  | nil => exact ⟨w, rfl, by simpa using settled⟩
  | cons piece pieces ih =>
      obtain ⟨w₁, run, settled₁⟩ := settled.write piece
      obtain ⟨w₂, rest, settled₂⟩ := ih settled₁
      refine ⟨w₂, ?_, by rwa [List.flatten_cons, ← List.append_assoc]⟩
      rw [List.foldlM_cons, run]
      exact rest

theorem Plain.writes (pieces : List (List UInt8)) (plain : Plain request status header data w) :
    Plain request status header (data ++ pieces.flatten)
      { w with response := pieces.foldl Response.write w.response } := by
  obtain ⟨settled, committed, gzip, rejected, included, sends⟩ := plain
  exact ⟨settled, committed, gzip, rejected, included, sends.writes pieces⟩

theorem Settled.readFrom (settled : Settled request status header data w)
    (pieces : List (List UInt8)) : ∃ w', w.readFrom pieces = .ok w' ∧
      Settled request status header (data ++ pieces.flatten) w' := by
  obtain ⟨w', run, settled'⟩ := settled.writes pieces
  rw [JsonCompressionWriter.readFrom, settled.started]
  simp only [bind, Except.bind, pure, Except.pure]
  rcases settled with held | plain | encoded | rejected
  · rw [held.rejected, held.committed, if_neg Bool.false_ne_true, Bool.false_and,
      if_neg Bool.false_ne_true]
    exact ⟨w', run, settled'⟩
  · rw [plain.rejected, plain.committed, plain.gzip, if_neg Bool.false_ne_true]
    exact ⟨_, rfl, .inr (.inl (plain.gzip ▸ plain.rejected ▸ plain.committed ▸
      plain.writes pieces))⟩
  · obtain ⟨s, output, gzip, -, -⟩ := encoded.coded
    rw [encoded.rejected, encoded.committed, gzip, if_neg Bool.false_ne_true]
    exact ⟨w', run, settled'⟩
  · rw [rejected.rejected, if_pos rfl]
    exact ⟨_, rfl, .inr (.inr (.inr rejected))⟩

/-- Nothing is held back any more. -/
theorem Settled.commitPending (settled : Settled request status header data w) :
    Plain request status header data w.commitPending ∨
      Encoded request status header data w.commitPending ∨
      Rejected request status header w.commitPending := by
  unfold JsonCompressionWriter.commitPending
  rcases settled with held | plain | encoded | rejected
  · rw [held.committed, if_neg Bool.false_ne_true, held.compressible, Bool.and_true]
    by_cases required : w.gzipRequired
    · rw [required]
      exact .inr (.inl held.commit_encoded)
    · rw [eq_false_of_ne_true required]
      exact .inl (held.commit_plain (eq_false_of_ne_true required))
  · exact .inl (by rwa [plain.committed])
  · exact .inr (.inl (by rwa [encoded.committed]))
  · exact .inr (.inr (by rwa [rejected.committed]))

theorem Settled.flush (settled : Settled request status header data w) :
    ∃ w', w.flush = .ok w' ∧ Settled request status header data w' := by
  refine ⟨_, by rw [JsonCompressionWriter.flush, settled.started]; rfl, ?_⟩
  rcases settled.commitPending with plain | encoded | rejected
  · obtain ⟨settled, committed, gzip, rejected, included, sends⟩ := plain
    rw [gzip]
    exact .inr (.inl ⟨settled, committed, rfl, rejected, included, sends.flush⟩)
  · obtain ⟨settled, committed, rejected, positive, s, output, gzip, coded, sends⟩ := encoded
    rw [gzip]
    exact .inr (.inr (.inl ⟨settled, committed, rejected, positive, _, _, rfl, coded.flush,
      (sends.write _).flush⟩))
  · obtain ⟨settled, committed, gzip, rejected, excluded, sends⟩ := rejected
    rw [gzip]
    exact .inr (.inr (.inr ⟨settled, committed, rfl, rejected, excluded, sends.flush⟩))

/-- The handler's later changes to the header reach neither the decision nor the head. -/
theorem Settled.changed (settled : Settled request status header data w) (own : Header) :
    Settled request status header data
      { w with response := { w.response with header := own } } := by
  rcases settled with held | plain | encoded | rejected
  · obtain ⟨negotiated, settled, final, committed, frozen, pending, gzip, rejected, compressible,
      front⟩ := held
    have same : JsonCompressionWriter.compressible
        { w with response := { w.response with header := own } } = w.compressible := by
      simp only [JsonCompressionWriter.compressible, responseHeader, frozen, Option.getD_some]
    exact .inl ⟨⟨negotiated.enabled, negotiated.forbidden, negotiated.required, negotiated.head⟩,
      settled, final, committed, frozen, pending, gzip, rejected, same.trans compressible, front⟩
  · exact .inr (.inl ⟨plain.settled, plain.committed, plain.gzip, plain.rejected, plain.included,
      plain.sends⟩)
  · exact .inr (.inr (.inl ⟨encoded.settled, encoded.committed, encoded.rejected,
      encoded.positive, encoded.coded⟩))
  · exact .inr (.inr (.inr ⟨rejected.settled, rejected.committed, rejected.gzip,
      rejected.rejected, rejected.excluded, rejected.sends⟩))

/-- The bytes that a call writes. -/
def Call.written : Call → List UInt8
  | .header _ | .writeHeader _ | .flush => []
  | .write data => data
  | .readFrom pieces => pieces.flatten

/-- **After a status has settled every call adds its bytes and changes nothing else.** -/
theorem Settled.call (settled : Settled request status header data w) (c : Call) :
    ∃ w', w.call c = .ok w' ∧ Settled request status header (data ++ c.written) w' := by
  cases c with
  | header change =>
      refine ⟨_, rfl, ?_⟩
      rw [Call.written, List.append_nil]
      exact settled.changed _
  | writeHeader again =>
      refine ⟨w, settled.writeHeader again, ?_⟩
      rwa [Call.written, List.append_nil]
  | write more => exact settled.write more
  | readFrom pieces => exact settled.readFrom pieces
  | flush =>
      obtain ⟨w', run, settled'⟩ := settled.flush
      refine ⟨w', run, ?_⟩
      rwa [Call.written, List.append_nil]

/-! ## The whole response -/

/-- The status and the header that the calls settle. `WriteHeader` settles a final status
and panics on an invalid one; any other call that sends something settles the status OK,
and so does the end. -/
def settledBy : Header → List Call → Option (ℤ × Header)
  | header, [] => some (statusOK, header)
  | header, .header change :: calls => settledBy (change header) calls
  | header, .writeHeader status :: calls =>
    if status < 100 ∨ 999 < status then none
    else if status < 200 ∧ status ≠ statusSwitchingProtocols then settledBy header calls
    else some (status, header)
  | header, _ :: _ => some (statusOK, header)

/-- What the connection has received in the end, when the handler settled this status and
this header and wrote the data. -/
structure Answered (request : Request) (status : ℤ) (header : Header) (data : List UInt8)
    (w : JsonCompressionWriter coder) : Prop where
  sends : ∃ body, Sends w.response.events (if w.rejected then statusNotAcceptable else status)
      (sentHeader w.gzip.isSome w.rejected header) body ∧
    if w.rejected then body = []
    else if w.gzip.isSome then coder.decode body = some data
    else body = data
  accepted : w.gzip.isSome = true → F64.lt zero (gzipQuality request.acceptEncoding) = true
  excluded : identityExcluded request status header = true →
    w.gzip.isSome = true ∨ w.rejected = true
  rejected : w.rejected = true → identityExcluded request status header = true

theorem Settled.finish (lawful : coder.Lawful) (settled : Settled request status header data w) :
    ∃ w', w.finish = .ok w' ∧ Answered request status header data w' := by
  refine ⟨_, by rw [JsonCompressionWriter.finish, settled.started]; rfl, ?_⟩
  rcases settled.commitPending with plain | encoded | rejected
  · obtain ⟨-, -, gzip, rejected, included, sends⟩ := plain
    rw [gzip]
    dsimp only
    refine ⟨⟨data, ?_, ?_⟩, ?_, ?_, ?_⟩
    · rwa [rejected, gzip]
    · rw [rejected, gzip, if_neg Bool.false_ne_true, Option.isSome_none,
        if_neg Bool.false_ne_true]
    · rw [gzip]
      exact fun some => absurd some Bool.false_ne_true
    · rw [included]
      exact fun excluded => absurd excluded Bool.false_ne_true
    · rw [rejected]
      exact fun some => absurd some Bool.false_ne_true
  · obtain ⟨-, -, rejected, positive, s, output, gzip, coded, sends⟩ := encoded
    rw [gzip]
    dsimp only
    refine ⟨⟨output ++ coder.close s, ?_, ?_⟩, fun _ => positive, fun _ => .inl rfl, ?_⟩
    · rw [rejected]
      exact sends.write _
    · rw [rejected, if_neg Bool.false_ne_true, Option.isSome_some, if_pos rfl]
      exact lawful s data output coded
    · rw [rejected]
      exact fun some => absurd some Bool.false_ne_true
  · obtain ⟨-, -, gzip, rejected, excluded, sends⟩ := rejected
    rw [gzip]
    dsimp only
    refine ⟨⟨[], ?_, ?_⟩, ?_, fun _ => .inr rejected, fun _ => excluded⟩
    · rw [rejected, gzip]
      exact sends
    · rw [rejected, if_pos rfl]
    · rw [gzip]
      exact fun some => absurd some Bool.false_ne_true

/-- Make the calls, and finish. -/
def runCalls (w : JsonCompressionWriter coder) (calls : List Call) :
    Except String (JsonCompressionWriter coder) := do
  let w ← calls.foldlM JsonCompressionWriter.call w
  w.finish

theorem runCalls_cons {w' : JsonCompressionWriter coder} {c : Call} (run : w.call c = .ok w')
    (calls : List Call) : runCalls w (c :: calls) = runCalls w' calls := by
  rw [runCalls, List.foldlM_cons, run]
  rfl

theorem Settled.run (lawful : coder.Lawful) (calls : List Call)
    (settled : Settled request status header data w) : ∃ w', runCalls w calls = .ok w' ∧
      Answered request status header (data ++ calls.flatMap Call.written) w' := by
  induction calls generalizing data w with
  | nil =>
      rw [List.flatMap_nil, List.append_nil]
      exact settled.finish lawful
  | cons c calls ih =>
      obtain ⟨w', run, settled'⟩ := settled.call c
      rw [runCalls_cons run, List.flatMap_cons, ← List.append_assoc]
      exact ih settled'

theorem Open.changed (opened : Open request header w) (change : Header → Header) :
    Open request (change header)
      { w with response := { w.response with header := change w.response.header } } := by
  obtain ⟨negotiated, unsettled, committed, frozen, pending, gzip, rejected, rfl, front⟩ := opened
  exact ⟨⟨negotiated.enabled, negotiated.forbidden, negotiated.required, negotiated.head⟩,
    unsettled, committed, frozen, pending, gzip, rejected, rfl, front⟩

theorem Open.informational (opened : Open request header w) (status : ℤ) :
    Open request header { w with response := w.response.writeInformational status } := by
  obtain ⟨negotiated, unsettled, committed, frozen, pending, gzip, rejected, same, front⟩ := opened
  refine ⟨⟨negotiated.enabled, negotiated.forbidden, negotiated.required, negotiated.head⟩,
    unsettled, committed, frozen, pending, gzip, rejected, same, fun event member => ?_⟩
  rcases List.mem_append.mp member with old | new
  · exact front event old
  · rw [List.mem_singleton.mp new]
    rfl

/-- A final status settles; one that is none panics, and an informational one is sent. -/
theorem Open.writeHeader (opened : Open request header w) (status : ℤ) :
    w.writeHeader status =
      if status < 100 ∨ 999 < status then
        .error ("invalid WriteHeader code " ++ toString status)
      else if status < 200 ∧ status ≠ statusSwitchingProtocols then
        .ok { w with response := w.response.writeInformational status }
      else .ok (w.settle status) := by
  rw [JsonCompressionWriter.writeHeader, opened.committed, opened.unsettled]
  simp

theorem Open.settledOK (opened : Open request header w) :
    Settled request statusOK header [] (w.settle statusOK) :=
  opened.settle (.inl le_rfl)

/-- Every call that settles the status OK finds the writer as if it were settled already. -/
theorem Open.calls (opened : Open request header w) :
    (∀ more, w.call (.write more) = (w.settle statusOK).call (.write more)) ∧
      (∀ pieces, w.call (.readFrom pieces) = (w.settle statusOK).call (.readFrom pieces)) ∧
      w.call .flush = (w.settle statusOK).call .flush ∧
      w.finish = (w.settle statusOK).finish := by
  have same := opened.started.trans opened.settledOK.started.symm
  refine ⟨fun more => ?_, fun pieces => ?_, ?_, ?_⟩
  · rw [call, call, JsonCompressionWriter.write, JsonCompressionWriter.write, same]
  · rw [call, call, JsonCompressionWriter.readFrom, JsonCompressionWriter.readFrom, same]
  · rw [call, call, JsonCompressionWriter.flush, JsonCompressionWriter.flush, same]
  · rw [JsonCompressionWriter.finish, JsonCompressionWriter.finish, same]

theorem runCalls_congr {w' : JsonCompressionWriter coder} {c : Call} (same : w.call c = w'.call c)
    (calls : List Call) : runCalls w (c :: calls) = runCalls w' (c :: calls) := by
  rw [runCalls, runCalls, List.foldlM_cons, List.foldlM_cons, same]

/-- What a run from an open writer leads to. -/
theorem Open.run (lawful : coder.Lawful) (calls : List Call)
    (opened : Open request header w) :
    match settledBy header calls with
    | none => ∃ message, runCalls w calls = .error message
    | some (status, settled) => ∃ w', runCalls w calls = .ok w' ∧
        Answered request status settled (calls.flatMap Call.written) w' := by
  induction calls generalizing header w with
  | nil =>
      obtain ⟨-, -, -, finish⟩ := opened.calls
      obtain ⟨w', run, answered⟩ := opened.settledOK.finish lawful
      exact ⟨w', finish.trans run, answered⟩
  | cons c calls ih =>
      obtain ⟨write, readFrom, flush, -⟩ := opened.calls
      cases c with
      | header change => exact ih (opened.changed change)
      | writeHeader status =>
          have call : w.call (.writeHeader status) = _ := opened.writeHeader status
          rw [settledBy]
          split_ifs at call ⊢ with invalid informational
          · refine ⟨"invalid WriteHeader code " ++ toString status, ?_⟩
            rw [runCalls, List.foldlM_cons, call]
            rfl
          · rw [runCalls_cons call]
            exact ih (opened.informational status)
          · have final : 200 ≤ status ∨ status = 101 := by
              by_contra other
              exact informational ⟨by omega, fun same => other (.inr same)⟩
            rw [runCalls_cons call]
            exact (opened.settle final).run lawful calls
      | write more =>
          rw [runCalls_congr (write more) calls]
          exact opened.settledOK.run lawful _
      | readFrom pieces =>
          rw [runCalls_congr (readFrom pieces) calls]
          exact opened.settledOK.run lawful _
      | flush =>
          rw [runCalls_congr flush calls]
          exact opened.settledOK.run lawful _

/-- A new writer is open, and holds what the request says. -/
theorem open_new (coder : StreamCoder) (request : Request) (header : Header) :
    Open request (addEncodingVary header) (newJsonCompressionWriter coder request header) where
  negotiated := by
    refine ⟨fun enabled => ?_, parse_identity _, ?_, rfl⟩
    · have prefers : (parseResponseEncodings request.acceptEncoding).prefersGzip = true := by
        simpa using (Bool.or_eq_false_iff.mp enabled).2
      rw [← parse_gzip]
      exact (Bool.and_eq_true .. ▸ prefers).1
    · rw [← parse_identity, ← parse_gzip]
      rfl
  unsettled := rfl
  committed := rfl
  frozen := rfl
  pending := rfl
  gzip := rfl
  rejected := rfl
  header := rfl
  front := fun _ member => absurd member List.not_mem_nil

/-- **The connection receives the response that the handler made.** When the handler's
calls settle a status and a header, the run succeeds: one final head is sent, with that
status and with that header but for the writer's own changes; the body is what was
written, coded exactly when the writer says so in the header; nothing is coded for a client
that does not accept it; and a response is rejected, with an empty body, only when it must
not be sent uncoded, in which case it is coded or rejected. -/
theorem jsonCompression_preserves (coder : StreamCoder) (lawful : coder.Lawful)
    (request : Request) (header : Header) (calls : List Call) :
    match settledBy (addEncodingVary header) calls with
    | none => ∃ message, serveJSON coder request header calls = .error message
    | some (status, settled) => ∃ w, serveJSON coder request header calls = .ok w ∧
        Answered request status settled (calls.flatMap Call.written) w :=
  (open_new coder request header).run lawful calls

/-- Bytes in one stored block of the gzip format, as the fastest level stores a few. -/
def storedGzip (bytes : List UInt8) : List UInt8 :=
  [31, 139, 8, 0, 0, 0, 0, 0, 4, 255] ++
    (if bytes = [] then []
      else 0 :: LittleEndian.bytesOf 2 bytes.length ++
        LittleEndian.bytesOf 2 (65535 - bytes.length) ++ bytes) ++
    ([1, 0, 0, 255, 255] ++ LittleEndian.bytesOf 4 (crc32 bytes).toNat ++
      LittleEndian.bytesOf 4 bytes.length)

def readStored (file : List UInt8) : List UInt8 := (file.drop 15).take (file.length - 28)

theorem readStored_storedGzip (bytes : List UInt8) : readStored (storedGzip bytes) = bytes := by
  by_cases empty : bytes = []
  · subst empty
    decide +kernel
  · have length : (storedGzip bytes).length = bytes.length + 28 := by
      simp [storedGzip, if_neg empty]
      omega
    rw [readStored, length, Nat.add_sub_cancel, storedGzip, if_neg empty]
    simp [LittleEndian.bytesOf]

/-- A coder that holds its whole input back and stores it. -/
def storingGzip : StreamCoder where
  State := List UInt8
  start := []
  write s data := (s ++ data, [])
  flush s := (s, [])
  close := storedGzip
  decode file := some (readStored file)

theorem storingGzip_lawful : storingGzip.Lawful := by
  intro s input output coded
  have held : s = input ∧ output = [] := by
    induction coded with
    | start => exact ⟨rfl, rfl⟩
    | write data _ ih =>
        obtain ⟨rfl, rfl⟩ := ih
        exact ⟨rfl, rfl⟩
    | flush _ ih =>
        obtain ⟨rfl, rfl⟩ := ih
        exact ⟨rfl, rfl⟩
  obtain ⟨rfl, rfl⟩ := held
  exact congrArg some (readStored_storedGzip s)

/-- A client that takes nothing but gzip. -/
def gzipOnly : Request := ⟨false, "", ["gzip, identity;q=0"]⟩

def jsonHeader : Header := fun key => if key = "Content-Type" then ["application/json"] else []

/-- A body of two bytes, with a late change to the header, is sent coded. -/
theorem jsonCompression_preserves_gzipOnly :
    ∃ w, serveJSON storingGzip gzipOnly jsonHeader
        [.write [123], .header fun header => header.set "Etag" "late", .write [125]] = .ok w ∧
      w.gzip.isSome = true ∧ Answered gzipOnly 200 (addEncodingVary jsonHeader) [123, 125] w := by
  obtain ⟨w, run, answered⟩ := jsonCompression_preserves storingGzip storingGzip_lawful gzipOnly
    jsonHeader [.write [123], .header fun header => header.set "Etag" "late", .write [125]]
  have coded : (serveJSON storingGzip gzipOnly jsonHeader
      [.write [123], .header fun header => header.set "Etag" "late", .write [125]]).toOption.map
        (fun w => w.gzip.isSome) = some true := by decide +kernel
  rw [run] at coded
  exact ⟨w, run, Option.some.inj coded, answered⟩

/-- The first status from 200 on that is given to `WriteHeader`, or 200. -/
def firstFinal (calls : List Call) : ℤ :=
  (calls.filterMap fun
    | .writeHeader status => if 200 ≤ status then some status else none
    | _ => none).headD statusOK

/-- **A handler that switches protocols is answered with its own status.** It gives no
status from 200 on, and yet 200 is not what is sent. -/
theorem sent_ne_firstFinal_switchingProtocols :
    ¬∀ (request : Request) (header : Header) (calls : List Call)
        (w : JsonCompressionWriter storingGzip),
      serveJSON storingGzip request header calls = .ok w → w.rejected = false →
        ∃ sent body, Sends w.response.events (firstFinal calls) sent body := by
  intro first
  obtain ⟨w, run, answered⟩ := (open_new storingGzip ⟨false, "", []⟩ fun _ => []).run
    storingGzip_lawful [.writeHeader 101]
  obtain ⟨_, sends, -⟩ := answered.sends
  have accepted : w.rejected = false := by
    rw [Bool.eq_false_iff]
    intro rejected
    exact absurd (answered.rejected rejected) (by decide +kernel)
  obtain ⟨sent, body, other⟩ := first _ _ _ w run accepted
  have same := sends.heads.symm.trans other.heads
  rw [accepted, if_neg Bool.false_ne_true] at same
  exact absurd same (by decide +kernel)

end OsmMini.Cmd
