import CppTorrent.Bencode.Grammar
import CppTorrent.Tracker.CompactPeers
import CppTorrent.Tracker.HttpRequest

/-! # The exchange with an HTTP tracker

A requester announces its query, the tracker answers with a dictionary, and the requester reads the
reply in the chunks in which it comes. A part of the body that comes with the header block is in the
buffer twice (`HttpReply.exchange_spec`). If it is the whole body, the reader takes the first copy and
does not look at the other one; if it is nothing, there is only one copy. So in both cases the promise
is settled with the response of the tracker to that query (`answered`). In between, the buffer has a
part of the body, and then the body again.

How the bencode part is found in the buffer is left to the regular expression library; `Cuts` says what
is relied on. -/

namespace CppTorrent.Tracker.HttpExchange

open CppTorrent.Lib.Chunks CppTorrent.Lib.Endian CppTorrent.Lib.Fallible CppTorrent.Lib.OrderedMap
open CppTorrent.Lib.Stream
open CppTorrent.Bencode.Serialize CppTorrent.Bencode.Deserialize CppTorrent.Bencode.Grammar
open CppTorrent.Wire.Message CppTorrent.Tracker.Promise CppTorrent.Tracker.CompactPeers
open CppTorrent.Tracker.HttpReply CppTorrent.Tracker.HttpRequest
open CppTorrent.Tracker.HttpResponse (Key Typed readFields settle load atKey_eq_ok)

/-- The reads of a reply, and `SetResponse` with what they have collected; `none` if an exception is set
before. -/
def receive (host : Host) (stack : List UInt8) (split : List UInt8 → List (List UInt8)) (fuel : ℕ)
    (chunks : List (List UInt8)) (r : Requester) : Option (Except Fault Requester) :=
  (exchange ⟨.bigEndian, []⟩ chunks).map fun data =>
    HttpResponse.setResponse host stack split fuel data r

/-- What the regular expression does with a text whose first line that begins with a `d` follows a line
break: if the text ends with an `e`, the part from that line on is found. -/
def Cuts (split : List UInt8 → List (List UInt8)) : Prop :=
  ∀ front part : List UInt8, front.head? ≠ some 100 → ¬ [10, 100] <:+: front →
    front.getLast? = some 10 → part.head? = some 100 → part.getLast? = some 101 →
    split (front ++ part) = [part]

/-- What stands in front of the body of a reply: a status line that is accepted, and a header block in
which no line begins with a `d`. -/
structure Head where
  line : List UInt8
  headers : List UInt8
  isStatusLine : IsStatusLine line
  ok : onStatus line = .ok
  ends : endOf crlfCrlf headers = some headers.length
  first : headers.head? ≠ some 100
  further : ¬ [10, 100] <:+: headers

/-- The text of a head. -/
def Head.text (head : Head) : List UInt8 := head.line ++ head.headers

/-- The dictionary that a tracker answers with. It has no empty strings, its fields have their types,
and its peers are compact ones with addresses that do not begin with a zero octet. -/
structure Answer where
  entries : List (List UInt8 × Node)
  peers : List Address
  wf : WF (.dict entries)
  noEmpty : emptyStrings (.dict entries) = 0
  typed : Typed entries
  found : find Key.peers.text entries = some (.str (encodePeers peers))
  octets : ∀ a ∈ peers, a.firstOctet ≠ 0

/-- The body of a reply. -/
def Answer.text (answer : Answer) : List UInt8 := makeSerialize (.dict answer.entries)

/-- A tracker reads the request and answers it. -/
def serve (tracker : Request → Answer) (request : List UInt8) : Option Answer :=
  (read request).map tracker

/-- A reply arrives, and the body is not cut: a chunk ends in front of it, or none ends inside it. -/
structure Arrives (front body : List UInt8) (chunks : List (List UInt8)) : Prop where
  flatten : chunks.flatten = front ++ body
  whole : (∃ k, (chunks.take k).flatten = front) ∨
    ∀ k, front <+: (chunks.take k).flatten → (chunks.take k).flatten = front ++ body

/-- A reply in one chunk. -/
example (front body : List UInt8) : Arrives front body [front ++ body] := by
  refine ⟨by simp, ?_⟩
  by_cases hfront : front = []
  · exact Or.inl ⟨0, by simp [hfront]⟩
  · refine Or.inr fun k hpre => ?_
    rcases k with _ | k
    · exact absurd (List.prefix_nil.mp hpre) hfront
    · simp

/-! ### The body -/

/-- An answer has a peer, or its peers would be an empty string. -/
theorem Answer.peers_ne_nil (answer : Answer) : answer.peers ≠ [] := by
  intro hnil
  have hmem := mem_of_find answer.found
  rw [hnil] at hmem
  have hempty := (emptyStringsEntries_eq_zero_iff.mp answer.noEmpty _ hmem).2
  cases hempty

/-- The body begins with a `d` and ends with an `e`. -/
theorem Answer.text_eq (answer : Answer) : ∃ mid, answer.text = 100 :: (mid ++ [101]) :=
  ⟨_, rfl⟩

theorem Head.getLast?_headers (head : Head) : head.headers.getLast? = some 10 := by
  have hsuffix := suffix_of_endOf head.ends
  rw [List.take_length] at hsuffix
  obtain ⟨front, hfront⟩ := hsuffix
  rw [← hfront]
  simp [crlfCrlf]

section Response

variable (host : Host) (stack : List UInt8) {r : Requester}

/-- **The response is taken from the first copy of the body**, whatever stands behind it. -/
theorem setResponse_of_text {split : List UInt8 → List (List UInt8)} (hsplit : Cuts split)
    (hr : r.isSet = false) (head : Head) (answer : Answer) :
    ∃ fuel resp, readFields answer.entries = .ok resp ∧
      ∀ more, more = [] ∨ more = answer.text →
        HttpResponse.setResponse host stack split fuel (head.headers ++ (answer.text ++ more)) r =
          .ok (settled resp answer.peers) := by
  obtain ⟨fuel, hfuel⟩ := loadNode_makeSerialize (.dict answer.entries) answer.wf answer.noEmpty
  obtain ⟨resp, hresp⟩ := HttpResponse.succeeds_readFields.mpr answer.typed
  refine ⟨fuel, resp, hresp, fun more hmore => ?_⟩
  obtain ⟨mid, hmid⟩ := answer.text_eq
  have hpart : split (head.headers ++ (answer.text ++ more)) = [answer.text ++ more] := by
    refine hsplit _ _ head.first head.further head.getLast?_headers ?_ ?_
    · rw [hmid]
      rfl
    · rcases hmore with rfl | rfl
      · rw [List.append_nil, hmid, ← List.cons_append, List.getLast?_concat]
      · rw [hmid, ← List.cons_append, ← List.append_assoc, List.getLast?_concat]
  have hroot : load fuel (answer.text ++ more) = .ok (.dict answer.entries) := by
    unfold load Answer.text
    rw [hfuel more]
  have hloop := compactLoop_buffer host answer.octets [] (Nat.le_succ _)
  have hsettle : settle host stack resp r (.str (encodePeers answer.peers)) =
      .ok (settled resp answer.peers) := by
    refine bind_eq_ok.mpr ⟨_, ?_, finish_eq hr resp answer.peers⟩
    have hlen : ([] ++ (encodePeers answer.peers ++ [0])).length + 1 =
        (encodePeers answer.peers).length + 2 := by simp
    rw [← hlen]
    exact hloop
  unfold HttpResponse.setResponse
  rw [if_neg (Bool.eq_false_iff.mp hr), hpart]
  exact bind_eq_ok.mpr ⟨_, hroot, bind_eq_ok.mpr ⟨_, rfl, bind_eq_ok.mpr ⟨resp, hresp,
    bind_eq_ok.mpr ⟨_, atKey_eq_ok.mpr answer.found, hsettle⟩⟩⟩⟩

/-! ### The reply -/

/-- **The promise is settled by the answer**, in whatever chunks it comes if the body is not cut. -/
theorem receive_of_arrives {split : List UInt8 → List (List UInt8)} (hsplit : Cuts split)
    (hr : r.isSet = false) (head : Head) (answer : Answer) :
    ∃ fuel resp, readFields answer.entries = .ok resp ∧
      ∀ chunks, Arrives head.text answer.text chunks →
        receive host stack split fuel chunks r = some (.ok (settled resp answer.peers)) := by
  obtain ⟨fuel, resp, hresp, hset⟩ := setResponse_of_text host stack hsplit hr head answer
  refine ⟨fuel, resp, hresp, fun chunks harrives => ?_⟩
  have hflatten : chunks.flatten = head.line ++ (head.headers ++ answer.text) := by
    rw [harrives.flatten, Head.text, List.append_assoc]
  obtain ⟨ahead, rest, k, hbody, hexchange, hahead, hbefore⟩ :=
    exchange_spec ⟨.bigEndian, []⟩ head.isStatusLine head.ends hflatten
  have hfront : head.text ++ ahead = (chunks.take k).flatten := by
    rw [hahead, Head.text, List.append_assoc]
  -- what has come with the header block is nothing, or the whole body
  have hcases : ahead = [] ∨ ahead = answer.text := by
    rcases harrives.whole with hends | hnone
    · have hnil : ahead = [] ↔ ∃ i, [] ++ (chunks.take i).flatten = head.text :=
        lookAhead_nil_iff hfront hbefore
      exact Or.inl (hnil.mpr hends)
    · have hwhole : head.text ++ ahead = head.text ++ answer.text := by
        rw [hfront]
        exact hnone k (hfront ▸ List.prefix_append _ _)
      exact Or.inr (List.append_cancel_left hwhole)
  unfold receive
  rw [hexchange, if_pos head.ok, Option.map_some]
  rcases hcases with rfl | rfl
  · have h := hset [] (Or.inl rfl)
    rw [List.append_nil] at h
    rw [List.nil_append, List.nil_append, show rest = answer.text from hbody, h]
  · obtain rfl : rest = [] := List.append_cancel_left (hbody.trans (List.append_nil _).symm)
    rw [List.append_nil, hset _ (Or.inr rfl)]

/-- **A query that is announced is answered.** The tracker is told the query, and its answer settles the
promise, with the fields it has and with its peers in their order. -/
theorem answered {split : List UInt8 → List (List UInt8)} (hsplit : Cuts split)
    (hr : r.isSet = false) (head : Head) (tracker : Request → Answer) (url : Url)
    (hmark : 63 ∉ url.path.getD []) (hblank : 32 ∉ url.path.getD []) (hbreak : 10 ∉ url.path.getD [])
    (hhost : 10 ∉ url.host) (infoHash masterPeerId : List UInt8) (port : UInt64) (query : Query) :
    ∃ answer fuel resp,
      answer = tracker ⟨url.path.getD [], url.host, announcement infoHash masterPeerId port query⟩ ∧
      serve tracker (connect url infoHash masterPeerId port query) = some answer ∧
      readFields answer.entries = .ok resp ∧
      ∀ chunks, Arrives head.text answer.text chunks →
        ∃ r', receive host stack split fuel chunks r = some (.ok r') ∧ r'.isSet = true ∧
          r'.promiseOfResp = some (.value { resp with peers := answer.peers.map image }) := by
  have hread := read_connect infoHash masterPeerId port query hmark hblank hbreak hhost
  set told : Request := ⟨url.path.getD [], url.host, announcement infoHash masterPeerId port query⟩
  obtain ⟨fuel, resp, hresp, hreceive⟩ := receive_of_arrives host stack hsplit hr head (tracker told)
  refine ⟨tracker told, fuel, resp, rfl, ?_, hresp, fun chunks harrives => ?_⟩
  · unfold serve
    rw [hread]
    rfl
  · refine ⟨_, hreceive chunks harrives, rfl, ?_⟩
    exact congrArg some (if_neg (tracker told).peers_ne_nil)

end Response

/-! ### One exchange -/

/-- What is found from the first line on that begins with a `d`. -/
def fromLine : Bool → List UInt8 → List (List UInt8)
  | _, [] => []
  | start, b :: rest => if start && b == 100 then [b :: rest] else fromLine (b == 10) rest

/-- The induction is on the text in front of the line. -/
theorem fromLine_append {part : List UInt8} (hpart : part.head? = some 100) :
    ∀ (front : List UInt8) (start : Bool), (start = true → front.head? ≠ some 100) →
      ¬ [10, 100] <:+: front → front.getLast? = some 10 → fromLine start (front ++ part) = [part]
  | [], _, _, _, hlast => by cases hlast
  | b :: front, start, hfirst, hfurther, hlast => by
    have hnot : (start && b == 100) = false := by
      by_contra h
      obtain ⟨hstart, hb⟩ := Bool.and_eq_true_iff.mp (Bool.eq_true_of_not_eq_false h)
      exact hfirst hstart (congrArg some (beq_iff_eq.mp hb))
    rw [List.cons_append, fromLine, hnot]
    show fromLine (b == 10) (front ++ part) = [part]
    rcases front with _ | ⟨c, front⟩
    · obtain rfl : b = 10 := Option.some.inj hlast
      obtain ⟨rest, rfl⟩ := List.head?_eq_some_iff.mp hpart
      rfl
    · refine fromLine_append hpart (c :: front) (b == 10) (fun hb hc => hfurther ?_)
        (fun hsub => hfurther (hsub.trans (List.suffix_cons b _).isInfix)) ?_
      · obtain rfl := beq_iff_eq.mp hb
        obtain rfl := Option.some.inj hc
        exact ⟨[], front, rfl⟩
      · rwa [List.getLast?_cons_cons] at hlast

theorem cuts_fromLine : Cuts (fromLine true) := fun front _ hfirst hfurther hlast hpart _ =>
  fromLine_append hpart front true (fun _ => hfirst) hfurther hlast

/-- `HTTP/1.0 200 OK` and one header. -/
def okHead : Head where
  line := okLine
  headers := oneField
  isStatusLine := isStatusLine_okLine
  ok := by decide
  ends := by decide
  first := by decide
  further := by decide

/-- `d8:intervali1800e5:peers6:…e`, with the peer 127.0.0.1:6881. -/
def onePeer : Answer where
  entries := [(Key.interval.text, .number 1800), (Key.peers.text, .str [127, 0, 0, 1, 26, 225])]
  peers := [⟨0x7F000001, 6881⟩]
  wf := by
    simp only [WF, WFEntries, Ascending, maxSize]
    decide
  noEmpty := by decide
  typed :=
    { trackerId := fun v hv => by cases hv
      interval := fun v hv => ⟨1800, (Option.some.inj hv).symm⟩
      complete := fun v hv => by cases hv
      incomplete := fun v hv => by cases hv
      minInterval := fun v hv => by cases hv
      warningMessage := fun v hv => by cases hv }
  found := rfl
  octets := by decide

/-- The tracker that answers every request so. -/
theorem answered_onePeer :
    ∃ answer fuel resp, answer = onePeer ∧
      serve (fun _ => onePeer)
        (connect sampleUrl [0, 37, 38, 200] (List.replicate 20 32) 6881 sampleQuery) = some answer ∧
      readFields answer.entries = .ok resp ∧
      ∀ chunks, Arrives okHead.text answer.text chunks →
        ∃ r', receive .littleEndian (List.replicate 26 0) (fromLine true) fuel chunks waiting =
            some (.ok r') ∧ r'.isSet = true ∧
          r'.promiseOfResp = some (.value { resp with peers := answer.peers.map image }) :=
  answered .littleEndian (List.replicate 26 0) cuts_fromLine rfl okHead (fun _ => onePeer)
    sampleUrl (by decide) (by decide) (by decide) (by decide) [0, 37, 38, 200]
    (List.replicate 20 32) 6881 sampleQuery

end CppTorrent.Tracker.HttpExchange
