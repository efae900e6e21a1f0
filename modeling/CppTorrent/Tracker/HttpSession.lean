import CppTorrent.Lib.Runs
import CppTorrent.Tracker.HttpExchange

/-! # A session with an HTTP tracker

`HttpReply.exchange` says what the three reads of a reply collect. Here they are taken one callback at a
time, with the connecting and the writing of the request in front of them, and with everything that can
come in between: an operation fails, the stream ends, the deadline of an operation expires, `Tracker::Stop`
disconnects the requester. A session is over when an operation has failed or the last one is done; a handler
that throws ends the program.

A deadline that expires only cancels the operation in progress, which may be the one after its own by then.
The cancel may come too late for a part of it that is done already, and the connecting goes on with the next
endpoint; the operation then goes on, without a deadline.

Whatever has come so far, what `SetResponse` will be given is a function of what is still to come
(`collects`), and each callback keeps it. So the session refines the exchange (`session_run`): a response
can only be the one that `HttpExchange.receive` takes from the chunks that have arrived. As long as the
promise has not been settled, an operation is in progress, and it has got a deadline unless it is the writing
of the request. After `Tracker::Stop` the promise is not settled any more. -/

namespace CppTorrent.Tracker.HttpSession

open CppTorrent.Lib.Chunks CppTorrent.Lib.Endian CppTorrent.Lib.Runs
open CppTorrent.Wire.Message CppTorrent.Tracker.Promise CppTorrent.Tracker.HttpReply

/-- Which operation is in progress, if any: the name is resolved and connected to, the request is
written, the status line, the header block or the body is read. -/
inductive Stage where
  | connecting
  | writing
  | status
  | header
  | body
  | ended
  | thrown
  deriving DecidableEq

/-- `timeout_`: it is not waited for, it is waited for, or it was until a deadline expired in the operation
in progress. -/
inductive Timeout where
  | stopped
  | armed
  | expired
  deriving DecidableEq

/-- `network::httpRequester`. -/
structure Session where
  stage : Stage
  /-- `read_streambuff_` -/
  buf : List UInt8
  msg : SendingMessage
  timeout : Timeout
  requester : Requester

/-- What can happen next; an error has a text. -/
inductive Event where
  | connected
  | written
  | chunk (data : List UInt8)
  | eof (message : String)
  | failed (message : String)
  /-- a deadline expires, and the operation is cancelled: it may fail, or go on -/
  | expires
  /-- `Tracker::Stop` -/
  | stop
  deriving DecidableEq

/-- `SetException`, and with it `Disconnect`. -/
def Session.fail (err : String) (s : Session) : Session :=
  { s with stage := .ended, timeout := .stopped, requester := s.requester.setException err }

/-- `httpRequester::Disconnect`: what is in progress is cancelled, and the promise will not be set. -/
def Session.disconnect (s : Session) : Session :=
  { s with timeout := .stopped, requester := s.requester.disconnect }

/-- `Await`, for the operation that has been started. -/
def Session.await (s : Session) : Session := { s with timeout := .armed }

/-- `ReadToEof`: goes on with a buffer. -/
def Session.readBody (buf : List UInt8) (s : Session) : Session := { s with stage := .body, buf := buf }

/-- `ReadUntil` for the header block: goes on with a buffer. If the block is there, the callback is called,
which starts `do_read_response_body`. -/
def Session.readHeader (buf : List UInt8) (s : Session) : Session :=
  match endOf crlfCrlf buf with
  | none => { s with stage := .header, buf := buf }
  | some xfr => Session.readBody (buf.drop xfr) { s.await with msg := (clear s.msg).copyFrom buf }

/-- The text of the exception for a status that is not accepted. -/
def rejection (data : List UInt8) : String :=
  let (httpVersion, data) := getString data
  let (code, _) := getString data
  if httpVersion.take 5 ≠ httpSlash then "Invalid response\n"
  else "Response returned with status code " ++ toString ((stoi code).getD 0 % 2 ^ 32) ++ "\n"

/-- `ReadUntil` for the status line: goes on with a buffer. If the line is there, the callback is called,
which starts `do_read_response_header`. -/
def Session.readStatus (buf : List UInt8) (s : Session) : Session :=
  match endOf crlf buf with
  | none => { s with stage := .status, buf := buf }
  | some xfr =>
    match onStatus buf with
    | .thrown => { s with stage := .thrown, timeout := .stopped }
    | .rejected => s.fail (rejection buf)
    | .ok => s.await.readHeader (buf.drop xfr)

variable (host : Host) (stack : List UInt8) (split : List UInt8 → List (List UInt8)) (fuel : ℕ)

/-- The callback of the read of the body at the end of the stream. -/
def Session.finish (s : Session) : Session :=
  let msg := s.msg.copyFrom s.buf
  match HttpResponse.setResponse host stack split fuel msg.data s.requester with
  | .ok r => { s with stage := .ended, msg := msg, timeout := .stopped, requester := r }
  | .error _ => { s with stage := .thrown, timeout := .stopped }

/-- One step. -/
def step (s : Session) : Event → Option Session
  | .connected =>
    if s.stage = .connecting then some { s with stage := .writing, timeout := .stopped } else none
  | .written => if s.stage = .writing then some (s.await.readStatus s.buf) else none
  | .chunk data =>
    match s.stage with
    | .status => some (s.readStatus (s.buf ++ data))
    | .header => some (s.readHeader (s.buf ++ data))
    | .body => some (s.readBody (s.buf ++ data))
    | _ => none
  | .eof message =>
    match s.stage with
    | .status | .header => some (s.fail message)
    | .body => some (s.finish host stack split fuel)
    | _ => none
  | .failed message => if s.stage ∈ [Stage.ended, .thrown] then none else some (s.fail message)
  | .expires => if s.timeout = .armed then some { s with timeout := .expired } else none
  | .stop => if s.stage ∈ [Stage.ended, .thrown] then none else some s.disconnect

/-- `Connect`, for a requester whose promise has not been set. -/
def connecting (r : Requester) : Session := ⟨.connecting, [], ⟨.bigEndian, []⟩, .armed, r⟩

/-- The chunks that have arrived. -/
def chunksOf (es : List Event) : List (List UInt8) :=
  es.filterMap fun
    | .chunk data => some data
    | _ => none

/-! ### What will be collected -/

/-- The exchange from the header block on. -/
def fromHeader (msg : SendingMessage) (buf : List UInt8) (chunks : List (List UInt8)) :
    Option (List UInt8) := do
  let (xfr, buf, chunks) ← readUntil crlfCrlf buf chunks
  let msg := (clear msg).copyFrom buf
  let buf := readToEof (buf.drop xfr) chunks
  return (msg.copyFrom buf).data

/-- The exchange from the status line on. -/
def fromStatus (msg : SendingMessage) (buf : List UInt8) (chunks : List (List UInt8)) :
    Option (List UInt8) := do
  let (xfr, buf, chunks) ← readUntil crlf buf chunks
  if onStatus buf ≠ .ok then none
  else fromHeader msg (buf.drop xfr) chunks

/-- What `SetResponse` will be given, if some chunks come and then the end of the stream. -/
def collects (s : Session) (chunks : List (List UInt8)) : Option (List UInt8) :=
  match s.stage with
  | .connecting | .writing | .status => fromStatus s.msg s.buf chunks
  | .header => fromHeader s.msg s.buf chunks
  | .body => some (s.msg.copyFrom (readToEof s.buf chunks)).data
  | .ended | .thrown => none

theorem readUntil_of_endOf {delim buf : List UInt8} {xfr : ℕ} (h : endOf delim buf = some xfr)
    (chunks : List (List UInt8)) : readUntil delim buf chunks = some (xfr, buf, chunks) := by
  cases chunks with
  | nil => rw [readUntil, h]; rfl
  | cons chunk chunks => rw [readUntil, h]

theorem readUntil_cons {delim buf : List UInt8} (h : endOf delim buf = none) (chunk : List UInt8)
    (chunks : List (List UInt8)) :
    readUntil delim buf (chunk :: chunks) = readUntil delim (buf ++ chunk) chunks := by
  rw [readUntil, h]

/-- What holds while a session goes on: its promise has not been settled, and its operation has got a
deadline unless it is the writing. What an operation waits for is not in the buffer yet. -/
structure Going (r : Requester) (s : Session) : Prop where
  requester : s.requester = r
  timed : s.stage ≠ .writing → s.timeout ≠ .stopped
  status : s.stage = .status → endOf crlf s.buf = none
  header : s.stage = .header → endOf crlfCrlf s.buf = none

/-- What holds after some chunks. -/
def Inv (r : Requester) (chunks : List (List UInt8)) (s : Session) : Prop :=
  match s.stage with
  | .thrown => s.timeout = .stopped ∧ s.requester = r
  | .ended => s.timeout = .stopped ∧ s.requester.Answered ∧
      ∀ resp, s.requester.promiseOfResp = some (.value resp) →
        HttpExchange.receive host stack split fuel chunks r = some (.ok s.requester)
  | _ => Going r s ∧ ∀ more, exchange ⟨.bigEndian, []⟩ (chunks ++ more) = collects s more

variable {host stack split fuel}
variable {r : Requester} {chunks : List (List UInt8)} {s s' : Session}

/-! ### The callbacks -/

theorem answered_of_settle {resp : Response} {peers : Bencode.Serialize.Node} {r' : Requester}
    (hr : r.isSet = false) (hresp : resp.peers = [])
    (h : HttpResponse.settle host stack resp r peers = .ok r') : r'.Answered := by
  have hinvalid : (r.setException "Invalid peers").finish resp = .ok r' → r'.Answered := by
    intro hfinish
    have hanswered := Requester.answered_setException hr "Invalid peers"
    unfold Requester.finish at hfinish
    rw [if_pos hresp, hanswered.setException] at hfinish
    cases hfinish
    exact hanswered
  rcases peers with n | text | arr | entries
  · exact hinvalid h
  · obtain ⟨images, -, hfinish⟩ := Lib.Fallible.bind_eq_ok.mp h
    exact Requester.answered_of_finish hr hfinish
  · obtain ⟨images, -, hfinish⟩ := Lib.Fallible.bind_eq_ok.mp h
    exact Requester.answered_of_finish hr hfinish
  · exact hinvalid h

/-- Where `SetResponse` ends normally, the promise has been settled. -/
theorem answered_of_setResponse {text : List UInt8} {r' : Requester} (hr : r.isSet = false)
    (h : HttpResponse.setResponse host stack split fuel text r = .ok r') : r'.Answered := by
  unfold HttpResponse.setResponse at h
  rw [if_neg (Bool.eq_false_iff.mp hr)] at h
  split at h
  · cases h
    exact Requester.answered_setException hr _
  · obtain ⟨root, -, h⟩ := Lib.Fallible.bind_eq_ok.mp h
    obtain ⟨d, -, h⟩ := Lib.Fallible.bind_eq_ok.mp h
    obtain ⟨resp, hresp, h⟩ := Lib.Fallible.bind_eq_ok.mp h
    obtain ⟨peers, -, h⟩ := Lib.Fallible.bind_eq_ok.mp h
    exact answered_of_settle hr (HttpResponse.peers_readFields hresp) h

theorem inv_fail (hr : r.isSet = false) (hs : s.requester = r) (err : String) :
    Inv host stack split fuel r chunks (s.fail err) := by
  have hexception : (s.fail err).requester = r.setException err := congrArg (·.setException err) hs
  refine ⟨rfl, hexception ▸ Requester.answered_setException hr err, fun resp hresp => ?_⟩
  rw [hexception] at hresp
  unfold Requester.setException at hresp
  rw [if_neg (Bool.eq_false_iff.mp hr)] at hresp
  cases hresp

theorem inv_readBody {buf : List UInt8} (hs : s.requester = r) (htimed : s.timeout ≠ .stopped)
    (h : ∀ more, exchange ⟨.bigEndian, []⟩ (chunks ++ more) =
      some (s.msg.copyFrom (readToEof buf more)).data) :
    Inv host stack split fuel r chunks (s.readBody buf) :=
  ⟨⟨hs, fun _ => htimed, fun h => (by cases h), fun h => (by cases h)⟩, h⟩

theorem inv_readHeader {buf : List UInt8} (hs : s.requester = r) (htimed : s.timeout ≠ .stopped)
    (h : ∀ more, exchange ⟨.bigEndian, []⟩ (chunks ++ more) = fromHeader s.msg buf more) :
    Inv host stack split fuel r chunks (s.readHeader buf) := by
  unfold Session.readHeader
  rcases hend : endOf crlfCrlf buf with _ | xfr
  · exact ⟨⟨hs, fun _ => htimed, fun h => (by cases h), fun _ => hend⟩, h⟩
  · refine inv_readBody hs nofun fun more => ?_
    rw [h more, fromHeader, readUntil_of_endOf hend]
    rfl

theorem inv_readStatus {buf : List UInt8} (hr : r.isSet = false) (hs : s.requester = r)
    (htimed : s.timeout ≠ .stopped)
    (h : ∀ more, exchange ⟨.bigEndian, []⟩ (chunks ++ more) = fromStatus s.msg buf more) :
    Inv host stack split fuel r chunks (s.readStatus buf) := by
  unfold Session.readStatus
  rcases hend : endOf crlf buf with _ | xfr
  · exact ⟨⟨hs, fun _ => htimed, fun _ => hend, fun h => (by cases h)⟩, h⟩
  · dsimp only
    rcases hstatus : onStatus buf with _ | _ | _
    · exact ⟨rfl, hs⟩
    · exact inv_fail hr hs _
    · refine inv_readHeader hs nofun fun more => ?_
      rw [h more, fromStatus, readUntil_of_endOf hend]
      show (if onStatus buf ≠ .ok then none else _) = _
      rw [if_neg (not_not.mpr hstatus)]
      rfl

theorem readToEof_nil (buf : List UInt8) : readToEof buf [] = buf := List.append_nil buf

theorem readToEof_cons (buf chunk : List UInt8) (chunks : List (List UInt8)) :
    readToEof buf (chunk :: chunks) = readToEof (buf ++ chunk) chunks := by
  simp [readToEof]

theorem inv_finish (hr : r.isSet = false) (hs : s.requester = r)
    (h : ∀ more, exchange ⟨.bigEndian, []⟩ (chunks ++ more) =
      some (s.msg.copyFrom (readToEof s.buf more)).data) :
    Inv host stack split fuel r chunks (s.finish host stack split fuel) := by
  have hdata := h []
  rw [List.append_nil, readToEof_nil] at hdata
  unfold Session.finish
  dsimp only
  rcases hset : HttpResponse.setResponse host stack split fuel (s.msg.copyFrom s.buf).data s.requester
    with fault | r'
  · exact ⟨rfl, hs⟩
  · rw [hs] at hset
    refine ⟨rfl, answered_of_setResponse hr hset, fun resp _ => ?_⟩
    unfold HttpExchange.receive
    rw [hdata, Option.map_some, hset]

/-! ### Every run -/

theorem Inv.going (h : Inv host stack split fuel r chunks s) (hended : s.stage ≠ .ended)
    (hthrown : s.stage ≠ .thrown) :
    Going r s ∧ ∀ more, exchange ⟨.bigEndian, []⟩ (chunks ++ more) = collects s more := by
  unfold Inv at h
  split at h
  · next hstage => exact absurd hstage hthrown
  · next hstage => exact absurd hstage hended
  · exact h

theorem inv_of_going (hended : s.stage ≠ .ended) (hthrown : s.stage ≠ .thrown) (hgoing : Going r s)
    (h : ∀ more, exchange ⟨.bigEndian, []⟩ (chunks ++ more) = collects s more) :
    Inv host stack split fuel r chunks s := by
  unfold Inv
  split
  · next hstage => exact absurd hstage hthrown
  · next hstage => exact absurd hstage hended
  · exact ⟨hgoing, h⟩

/-- A chunk is taken from what is still to come. -/
theorem collects_chunk (hgoing : Going r s) (data : List UInt8)
    (h : ∀ more, exchange ⟨.bigEndian, []⟩ (chunks ++ more) = collects s more)
    (more : List (List UInt8)) :
    (s.stage = .status → exchange ⟨.bigEndian, []⟩ ((chunks ++ [data]) ++ more) =
        fromStatus s.msg (s.buf ++ data) more) ∧
      (s.stage = .header → exchange ⟨.bigEndian, []⟩ ((chunks ++ [data]) ++ more) =
        fromHeader s.msg (s.buf ++ data) more) ∧
      (s.stage = .body → exchange ⟨.bigEndian, []⟩ ((chunks ++ [data]) ++ more) =
        some (s.msg.copyFrom (readToEof (s.buf ++ data) more)).data) := by
  have hnext := h (data :: more)
  rw [← List.singleton_append, ← List.append_assoc] at hnext
  refine ⟨fun hstage => ?_, fun hstage => ?_, fun hstage => ?_⟩
  · rw [hnext]
    simp only [collects, hstage, List.singleton_append]
    rw [fromStatus, readUntil_cons (hgoing.status hstage)]
    rfl
  · rw [hnext]
    simp only [collects, hstage, List.singleton_append]
    rw [fromHeader, readUntil_cons (hgoing.header hstage)]
    rfl
  · rw [hnext]
    simp only [collects, hstage, List.singleton_append]
    rw [readToEof_cons]

theorem chunksOf_concat_chunk (es : List Event) (data : List UInt8) :
    chunksOf (es ++ [.chunk data]) = chunksOf es ++ [data] := by
  simp [chunksOf]

theorem inv_chunk (hr : r.isSet = false) {data : List UInt8} (h : Inv host stack split fuel r chunks s)
    (hs : step host stack split fuel s (.chunk data) = some s') :
    Inv host stack split fuel r (chunks ++ [data]) s' := by
  rw [step] at hs
  rcases hstage : s.stage <;> rw [hstage] at hs <;> try cases hs
  all_goals
    obtain ⟨hgoing, hcollects⟩ := h.going (by simp [hstage]) (by simp [hstage])
    have hchunk := collects_chunk hgoing data hcollects
    have htimed : s.timeout ≠ .stopped := hgoing.timed (by simp [hstage])
  · exact inv_readStatus hr hgoing.requester htimed fun more => (hchunk more).1 hstage
  · exact inv_readHeader hgoing.requester htimed fun more => (hchunk more).2.1 hstage
  · exact inv_readBody hgoing.requester htimed fun more => (hchunk more).2.2 hstage

/-- The other steps leave the chunks that have arrived as they are. -/
theorem inv_other {e : Event} (hr : r.isSet = false) (he : ∀ data, e ≠ .chunk data) (hstop : e ≠ .stop)
    (h : Inv host stack split fuel r chunks s) (hs : step host stack split fuel s e = some s') :
    Inv host stack split fuel r chunks s' := by
  cases e with
  | connected =>
    rw [step] at hs
    split_ifs at hs with hstage
    cases hs
    obtain ⟨hgoing, hcollects⟩ := h.going (by simp [hstage]) (by simp [hstage])
    refine ⟨⟨hgoing.requester, fun hne => absurd rfl hne, fun h => (by cases h),
      fun h => (by cases h)⟩, fun more => ?_⟩
    rw [hcollects more]
    simp only [collects, hstage]
  | written =>
    rw [step] at hs
    split_ifs at hs with hstage
    cases hs
    obtain ⟨hgoing, hcollects⟩ := h.going (by simp [hstage]) (by simp [hstage])
    refine inv_readStatus hr hgoing.requester nofun fun more => ?_
    rw [hcollects more]
    simp only [collects, hstage]
    rfl
  | chunk data => exact absurd rfl (he data)
  | eof message =>
    rw [step] at hs
    rcases hstage : s.stage <;> rw [hstage] at hs <;> try cases hs
    all_goals obtain ⟨hgoing, hcollects⟩ := h.going (by simp [hstage]) (by simp [hstage])
    · exact inv_fail hr hgoing.requester message
    · exact inv_fail hr hgoing.requester message
    · refine inv_finish hr hgoing.requester fun more => ?_
      rw [hcollects more]
      simp only [collects, hstage]
  | failed message =>
    rw [step] at hs
    split_ifs at hs with hstage
    cases hs
    simp only [List.mem_cons, List.not_mem_nil, or_false, not_or] at hstage
    obtain ⟨hgoing, -⟩ := h.going hstage.1 hstage.2
    exact inv_fail hr hgoing.requester message
  | expires =>
    rw [step] at hs
    split_ifs at hs with harmed
    cases hs
    -- no deadline is left when a session is over
    have hstage : s.stage ≠ .ended ∧ s.stage ≠ .thrown := by
      constructor <;> intro heq <;> simp [Inv, heq, harmed] at h
    obtain ⟨hgoing, hcollects⟩ := h.going hstage.1 hstage.2
    refine inv_of_going hstage.1 hstage.2 ?_ hcollects
    exact ⟨hgoing.requester, fun _ => nofun, hgoing.status, hgoing.header⟩
  | stop => exact absurd rfl hstop

/-- **Each step keeps what will be collected.** -/
theorem inv_step {es : List Event} {e : Event} (hr : r.isSet = false) (hstop : e ≠ .stop)
    (h : Inv host stack split fuel r (chunksOf es) s) (hs : step host stack split fuel s e = some s') :
    Inv host stack split fuel r (chunksOf (es ++ [e])) s' := by
  by_cases hchunk : ∃ data, e = .chunk data
  · obtain ⟨data, rfl⟩ := hchunk
    rw [chunksOf_concat_chunk]
    exact inv_chunk hr h hs
  · have hother : ∀ data, e ≠ .chunk data := fun data he => hchunk ⟨data, he⟩
    have hsame : chunksOf (es ++ [e]) = chunksOf es := by
      cases e <;> simp [chunksOf] at *
    rw [hsame]
    exact inv_other hr hother hstop h hs

theorem inv_connecting : Inv host stack split fuel r [] (connecting r) :=
  ⟨⟨rfl, fun _ => nofun, fun h => (by cases h), fun h => (by cases h)⟩, fun _ => rfl⟩

/-! ### After `Tracker::Stop` -/

theorem requester_fail (h : s.requester.isSet = true) (err : String) :
    (s.fail err).requester = s.requester := Requester.setException_of_isSet h err

theorem requester_readHeader (s : Session) (buf : List UInt8) :
    (s.readHeader buf).requester = s.requester := by
  unfold Session.readHeader
  split
  · rfl
  · rfl

theorem requester_readStatus (h : s.requester.isSet = true) (buf : List UInt8) :
    (s.readStatus buf).requester = s.requester := by
  unfold Session.readStatus
  split
  · rfl
  · split
    · rfl
    · exact requester_fail h _
    · exact requester_readHeader _ _

theorem requester_finish (h : s.requester.isSet = true) :
    (s.finish host stack split fuel).requester = s.requester := by
  have hnone : HttpResponse.setResponse host stack split fuel (s.msg.copyFrom s.buf).data s.requester =
      .ok s.requester := by
    unfold HttpResponse.setResponse
    rw [if_pos h]
  unfold Session.finish
  dsimp only
  rw [hnone]

/-- **Once the promise is settled, or will not be, no step changes that.** -/
theorem requester_of_step {e : Event} (h : s.requester.isSet = true)
    (hs : step host stack split fuel s e = some s') : s'.requester = s.requester := by
  cases e with
  | chunk data =>
    rw [step] at hs
    split at hs
    · cases hs; exact requester_readStatus h _
    · cases hs; exact requester_readHeader s _
    · cases hs; rfl
    · cases hs
  | eof message =>
    rw [step] at hs
    split at hs
    · cases hs; exact requester_fail h message
    · cases hs; exact requester_fail h message
    · cases hs; exact requester_finish h
    · cases hs
  | written =>
    rw [step] at hs
    split_ifs at hs
    cases hs
    exact requester_readStatus (s := s.await) h s.buf
  | failed message =>
    rw [step] at hs
    split_ifs at hs
    cases hs
    exact requester_fail h message
  | stop =>
    rw [step] at hs
    split_ifs at hs
    cases hs
    exact Requester.disconnect_of_isSet h
  | _ =>
    rw [step] at hs
    split_ifs at hs
    cases hs
    rfl

variable (host stack split fuel r) in
/-- What holds after a run: `Tracker::Stop` has disconnected the requester, or what the chunks say. -/
def Story (es : List Event) (s : Session) : Prop :=
  if .stop ∈ es then s.requester = r.disconnect else Inv host stack split fuel r (chunksOf es) s

theorem story_step {es : List Event} {e : Event} (hr : r.isSet = false)
    (h : Story host stack split fuel r es s) (hs : step host stack split fuel s e = some s') :
    Story host stack split fuel r (es ++ [e]) s' := by
  unfold Story at h ⊢
  split_ifs at h with hmem
  · rw [if_pos (List.mem_append_left _ hmem)]
    have hset : s.requester.isSet = true := by rw [h]; rfl
    rw [requester_of_step hset hs, h]
  · by_cases hstop : e = .stop
    · subst hstop
      rw [if_pos (List.mem_concat_self)]
      rw [step] at hs
      split_ifs at hs with hstage
      cases hs
      simp only [List.mem_cons, List.not_mem_nil, or_false, not_or] at hstage
      obtain ⟨hgoing, -⟩ := h.going hstage.1 hstage.2
      exact congrArg Requester.disconnect hgoing.requester
    · have hnot : Event.stop ∉ es ++ [e] := by
        simp only [List.mem_append, List.mem_singleton, not_or]
        exact ⟨hmem, Ne.symm hstop⟩
      rw [if_neg hnot]
      exact inv_step hr hstop h hs

theorem story_run (hr : r.isSet = false) {es : List Event}
    (h : run (step host stack split fuel) (connecting r) es = some s) :
    Story host stack split fuel r es s := by
  have hstart : Story host stack split fuel r [] (connecting r) := by
    unfold Story
    rw [if_neg List.not_mem_nil]
    exact inv_connecting
  exact history_of_run (Story host stack split fuel r) hstart
    (fun _ _ _ _ hstory hs => story_step hr hstory hs) h

/-- A run that `Tracker::Stop` does not disturb. -/
theorem inv_run (hr : r.isSet = false) {es : List Event} (hstop : .stop ∉ es)
    (h : run (step host stack split fuel) (connecting r) es = some s) :
    Inv host stack split fuel r (chunksOf es) s := by
  have hstory := story_run hr h
  unfold Story at hstory
  rwa [if_neg hstop] at hstory

theorem requester_of_stop (hr : r.isSet = false) {es : List Event} (hstop : .stop ∈ es)
    (h : run (step host stack split fuel) (connecting r) es = some s) :
    s.requester = r.disconnect := by
  have hstory := story_run hr h
  unfold Story at hstory
  rwa [if_pos hstop] at hstory

/-! ### A reply that comes whole -/

/-- A part of the reply is being read. -/
def Session.Reads (s : Session) : Prop := s.stage = .status ∨ s.stage = .header ∨ s.stage = .body

theorem Inv.reads (h : Inv host stack split fuel r chunks s) (hreads : s.Reads) :
    Going r s ∧ ∀ more, exchange ⟨.bigEndian, []⟩ (chunks ++ more) = collects s more := by
  refine h.going (fun heq => ?_) fun heq => ?_
  · simp [Session.Reads, heq] at hreads
  · simp [Session.Reads, heq] at hreads

theorem reads_readHeader (s : Session) (buf : List UInt8) : (s.readHeader buf).Reads := by
  unfold Session.readHeader
  split
  · exact Or.inr (Or.inl rfl)
  · exact Or.inr (Or.inr rfl)

theorem reads_readStatus {data buf : List UInt8} {more : List (List UInt8)}
    (h : fromStatus s.msg buf more = some data) : (s.readStatus buf).Reads := by
  unfold Session.readStatus
  rcases hend : endOf crlf buf with _ | xfr
  · exact Or.inl rfl
  · rw [fromStatus, readUntil_of_endOf hend] at h
    have hok : onStatus buf = .ok := by
      by_contra hne
      change (if onStatus buf ≠ .ok then none else _) = _ at h
      rw [if_pos hne] at h
      cases h
    dsimp only
    rw [hok]
    exact reads_readHeader s.await _

/-- A chunk of a reply that will be collected is read. -/
theorem step_chunk {data chunk : List UInt8} {more : List (List UInt8)}
    (h : Inv host stack split fuel r chunks s) (hreads : s.Reads)
    (hdata : exchange ⟨.bigEndian, []⟩ (chunks ++ chunk :: more) = some data) :
    ∃ s', step host stack split fuel s (.chunk chunk) = some s' ∧ s'.Reads := by
  obtain ⟨hgoing, hcollects⟩ := h.reads hreads
  have hchunk := collects_chunk hgoing chunk hcollects more
  rw [← List.singleton_append, ← List.append_assoc] at hdata
  rcases hreads with hs | hs | hs
  · refine ⟨s.readStatus (s.buf ++ chunk), by rw [step, hs], ?_⟩
    exact reads_readStatus ((hchunk.1 hs).symm.trans hdata)
  · exact ⟨s.readHeader (s.buf ++ chunk), by rw [step, hs], reads_readHeader s _⟩
  · exact ⟨s.readBody (s.buf ++ chunk), by rw [step, hs], Or.inr (Or.inr rfl)⟩

/-- The reads of a reply that comes whole, and the end of the stream. The induction is on the chunks to
come. -/
theorem run_chunks {data : List UInt8} {r' : Requester} (hr : r.isSet = false)
    (hset : HttpResponse.setResponse host stack split fuel data r = .ok r') (message : String) :
    ∀ (more : List (List UInt8)) {chunks : List (List UInt8)} {s : Session},
      Inv host stack split fuel r chunks s → s.Reads →
      exchange ⟨.bigEndian, []⟩ (chunks ++ more) = some data →
      ∃ s', run (step host stack split fuel) s (more.map .chunk ++ [.eof message]) = some s' ∧
        s'.stage = .ended ∧ s'.requester = r'
  | [], chunks, s, h, hreads, hdata => by
    obtain ⟨hgoing, hcollects⟩ := h.reads hreads
    rw [hcollects []] at hdata
    -- what an operation waits for is not there, so the end of the stream comes in the body
    rcases hreads with hs | hs | hs
    · simp only [collects, hs] at hdata
      rw [fromStatus, readUntil, hgoing.status hs] at hdata
      cases hdata
    · simp only [collects, hs] at hdata
      rw [fromHeader, readUntil, hgoing.header hs] at hdata
      cases hdata
    · simp only [collects, hs] at hdata
      rw [readToEof_nil, Option.some.injEq] at hdata
      refine ⟨s.finish host stack split fuel, ?_, ?_⟩
      · rw [List.map_nil, List.nil_append, run, step, hs]
        rfl
      · unfold Session.finish
        dsimp only
        rw [hdata, hgoing.requester, hset]
        exact ⟨rfl, rfl⟩
  | chunk :: more, chunks, s, h, hreads, hdata => by
    obtain ⟨s₁, hstep, hreads₁⟩ := step_chunk h hreads hdata
    have hrest : exchange ⟨.bigEndian, []⟩ ((chunks ++ [chunk]) ++ more) = some data := by
      rw [List.append_assoc, List.singleton_append]
      exact hdata
    obtain ⟨s', hrun, hend⟩ := run_chunks hr hset message more (inv_chunk hr h hstep) hreads₁ hrest
    refine ⟨s', ?_, hend⟩
    rw [List.map_cons, List.cons_append, run, hstep]
    exact hrun

/-! ### The session -/

variable (host stack split fuel r) in
/-- What the sessions of a requester come to. -/
structure Settles : Prop where
  /-- a response is the one that is taken from the chunks that have arrived -/
  response : ∀ (es : List Event) (s : Session),
    run (step host stack split fuel) (connecting r) es = some s → ∀ resp,
      s.requester.promiseOfResp = some (.value resp) →
        HttpExchange.receive host stack split fuel (chunksOf es) r = some (.ok s.requester)
  /-- when the session is over, the promise has been settled -/
  settled : ∀ (es : List Event) (s : Session),
    run (step host stack split fuel) (connecting r) es = some s → .stop ∉ es → s.stage = .ended →
      s.requester.Answered
  /-- until then it has not been, and the operation in progress has got a deadline, or is the writing -/
  going : ∀ (es : List Event) (s : Session),
    run (step host stack split fuel) (connecting r) es = some s → .stop ∉ es → s.stage ≠ .ended →
      s.requester = r ∧ (s.timeout ≠ .stopped ∨ s.stage = .writing ∨ s.stage = .thrown)
  /-- a requester that is disconnected before does not settle its promise any more -/
  stopped : ∀ (es : List Event) (s : Session),
    run (step host stack split fuel) (connecting r) es = some s → .stop ∈ es →
      s.requester = r.disconnect ∧ s.requester.promiseOfResp = none
  /-- if nothing fails, the promise is settled as the exchange of the chunks says -/
  whole : ∀ (chunks : List (List UInt8)) (r' : Requester) (message : String),
    HttpExchange.receive host stack split fuel chunks r = some (.ok r') →
      ∃ s, run (step host stack split fuel) (connecting r)
          (.connected :: .written :: (chunks.map .chunk ++ [.eof message])) = some s ∧
        s.stage = .ended ∧ s.requester = r'

/-- **A session refines the exchange**, whatever fails or expires in it. -/
theorem session_run (hr : r.isSet = false) : Settles host stack split fuel r where
  response es s h resp hresp := by
    have hunset : s.requester ≠ r := fun heq => by
      rw [heq, r.unset hr] at hresp
      cases hresp
    by_cases hstop : .stop ∈ es
    · rw [requester_of_stop hr hstop h] at hresp
      exact absurd ((r.unset hr).symm.trans hresp) nofun
    have hinv := inv_run hr hstop h
    unfold Inv at hinv
    split at hinv
    · exact absurd hinv.2 hunset
    · exact hinv.2.2 resp hresp
    · exact absurd hinv.1.requester hunset
  settled es s h hstop hended := by
    have hinv := inv_run hr hstop h
    unfold Inv at hinv
    rw [hended] at hinv
    exact hinv.2.1
  going es s h hstop hended := by
    have hinv := inv_run hr hstop h
    by_cases hthrown : s.stage = .thrown
    · unfold Inv at hinv
      rw [hthrown] at hinv
      exact ⟨hinv.2, Or.inr (Or.inr hthrown)⟩
    · obtain ⟨hgoing, -⟩ := hinv.going hended hthrown
      refine ⟨hgoing.requester, ?_⟩
      by_cases hwriting : s.stage = .writing
      · exact Or.inr (Or.inl hwriting)
      · exact Or.inl (hgoing.timed hwriting)
  stopped es s h hstop := by
    have hleft := requester_of_stop hr hstop h
    refine ⟨hleft, ?_⟩
    rw [hleft]
    exact r.unset hr
  whole chunks r' message h := by
    obtain ⟨data, hdata, hset⟩ := Option.map_eq_some_iff.mp h
    have hstart : run (step host stack split fuel) (connecting r) [.connected, .written] =
        some ((Session.mk .writing [] ⟨.bigEndian, []⟩ .armed r).readStatus []) := rfl
    have hinv : Inv host stack split fuel r []
        ((Session.mk .writing [] ⟨.bigEndian, []⟩ .armed r).readStatus []) :=
      inv_run hr (by simp) hstart
    obtain ⟨s, hrun, hend⟩ := run_chunks hr hset message chunks hinv (Or.inl rfl) hdata
    refine ⟨s, ?_, hend⟩
    have hsplit : run (step host stack split fuel) (connecting r)
        ([.connected, .written] ++ (chunks.map .chunk ++ [.eof message])) = _ := run_append _ _ _
    rw [hstart, Option.bind_some, hrun] at hsplit
    exact hsplit

/-- A requester whose regular expression looks for the first line that begins with a `d`. -/
theorem session_run_waiting :
    Settles .littleEndian (List.replicate 26 0) (HttpExchange.fromLine true) 9 waiting :=
  session_run rfl

end CppTorrent.Tracker.HttpSession
