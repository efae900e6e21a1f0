import CppTorrent.Lib.Delimited
import CppTorrent.Tracker.AnnouncePacket
import CppTorrent.Tracker.HttpReply
import CppTorrent.Tracker.UrlEncode

/-! # The request to an HTTP tracker

`Connect` puts a query into the parameters of a GET request, the two ids percent-encoded and the numbers
in decimal, and puts the path and the host of the URL around it as they are.

`read` is what a tracker does with the request: it takes the lines apart, the first one at its blanks,
the target at its question mark, and the parameters as a record (`Lib.Delimited`). A percent-encoded
text has no separator in it (`notMem_urlEncode`), nor has a number, so the parameters are always read
back (`readQuery_queryText`). The path and the host are another matter: `read_connect_iff` says that the
tracker is told the query, the path and the host exactly if there is no blank and no line break in the
path, and no line break in the host. -/

namespace CppTorrent.Tracker.HttpRequest

open CppTorrent.Lib.Decimal CppTorrent.Lib.Delimited CppTorrent.Lib.PercentCoding
open CppTorrent.Wire.Message
open CppTorrent.Tracker.AnnouncePacket (Event)
open CppTorrent.Tracker.HttpReply (httpSlash)
open CppTorrent.Tracker.UrlEncode

/-! ### The request -/

/-- The part of `bittorrent::Url` that a request is made of. -/
structure Url where
  host : List UInt8
  path : Option (List UInt8)

/-- `bittorrent::Query`. -/
structure Query extends AnnouncePacket.Query where
  compact : Bool

/-- The parameters of an announcement. -/
inductive Param where
  | infoHash
  | peerId
  | port
  | uploaded
  | downloaded
  | left
  | compact
  | event
  deriving DecidableEq

/-- The name of a parameter. -/
def Param.text : Param → List UInt8
  -- info_hash
  | .infoHash => [105, 110, 102, 111, 95, 104, 97, 115, 104]
  -- peer_id
  | .peerId => [112, 101, 101, 114, 95, 105, 100]
  -- port
  | .port => [112, 111, 114, 116]
  -- uploaded
  | .uploaded => [117, 112, 108, 111, 97, 100, 101, 100]
  -- downloaded
  | .downloaded => [100, 111, 119, 110, 108, 111, 97, 100, 101, 100]
  -- left
  | .left => [108, 101, 102, 116]
  -- compact
  | .compact => [99, 111, 109, 112, 97, 99, 116]
  -- event
  | .event => [101, 118, 101, 110, 116]

/-- `events_str`, which has no text for the empty event. -/
def eventText : Event → List UInt8
  | .empty => []
  -- completed
  | .completed => [99, 111, 109, 112, 108, 101, 116, 101, 100]
  -- started
  | .started => [115, 116, 97, 114, 116, 101, 100]
  -- stopped
  | .stopped => [115, 116, 111, 112, 112, 101, 100]

/-- `<<` for a `bool`. -/
def boolText (b : Bool) : List UInt8 := if b then [49] else [48]

/-- `"GET"`. -/
def get : List UInt8 := [71, 69, 84]

/-- `"Host"`. -/
def hostName : List UInt8 := [72, 111, 115, 116]

/-- `httpRequester::Connect` and `do_request`: what is sent. The message is the one that the requester
was constructed with. -/
def connect (url : Url) (infoHash masterPeerId : List UInt8) (port : UInt64) (query : Query) :
    List UInt8 :=
  let str :=
    get ++ [32, 47] ++ url.path.getD [] ++ [63] ++
    Param.infoHash.text ++ [61] ++ urlEncode infoHash ++
    [38] ++ Param.peerId.text ++ [61] ++ urlEncode (masterPeerId.take 20) ++
    [38] ++ Param.port.text ++ [61] ++ decimal port.toNat ++
    [38] ++ Param.uploaded.text ++ [61] ++ decimal query.uploaded.toNat ++
    [38] ++ Param.downloaded.text ++ [61] ++ decimal query.downloaded.toNat ++
    [38] ++ Param.left.text ++ [61] ++ decimal query.left.toNat ++
    [38] ++ Param.compact.text ++ [61] ++ boolText query.compact ++
    (if query.event ≠ .empty then [38] ++ Param.event.text ++ [61] ++ eventText query.event else []) ++
    -- HTTP/1.0
    [32, 72, 84, 84, 80, 47, 49, 46, 48, 13, 10] ++
    hostName ++ [58, 32] ++ url.host ++ [13, 10] ++
    -- Accept: */*
    [65, 99, 99, 101, 112, 116, 58, 32, 42, 47, 42, 13, 10] ++
    -- Connection: close
    [67, 111, 110, 110, 101, 99, 116, 105, 111, 110, 58, 32, 99, 108, 111, 115, 101, 13, 10, 13, 10]
  (SendingMessage.copyFrom str ⟨.bigEndian, []⟩).data

/-! ### What a tracker reads -/

/-- What a tracker is told by the parameters. -/
structure Announcement where
  infoHash : List UInt8
  peerId : List UInt8
  port : ℕ
  uploaded : ℕ
  downloaded : ℕ
  left : ℕ
  compact : Bool
  event : Event
  deriving DecidableEq

/-- What a tracker is told by a request. -/
structure Request where
  path : List UInt8
  host : List UInt8
  announcement : Announcement
  deriving DecidableEq

/-- The number that a text stands for. -/
def readNumber (text : List UInt8) : Option ℕ :=
  if text ≠ [] ∧ text.all isDigit then some (value text) else none

/-- The flag that a text stands for. -/
def readFlag (text : List UInt8) : Option Bool :=
  if text = [49] then some true else if text = [48] then some false else none

/-- The event that a text stands for; without one it is the empty event. -/
def readEvent : Option (List UInt8) → Option Event
  | none => some .empty
  | some text => [Event.completed, .started, .stopped].find? fun event => eventText event = text

/-- The parameters of a request. -/
def readQuery (query : List UInt8) : Option Announcement := do
  let params := fields 61 38 query
  let infoHash ← params.lookup Param.infoHash.text
  let peerId ← params.lookup Param.peerId.text
  let port ← params.lookup Param.port.text >>= readNumber
  let uploaded ← params.lookup Param.uploaded.text >>= readNumber
  let downloaded ← params.lookup Param.downloaded.text >>= readNumber
  let left ← params.lookup Param.left.text >>= readNumber
  let compact ← params.lookup Param.compact.text >>= readFlag
  let event ← readEvent (params.lookup Param.event.text)
  return ⟨percentDecode infoHash, percentDecode peerId, port, uploaded, downloaded, left, compact, event⟩

/-- A line without the carriage return at its end. -/
def chomp (line : List UInt8) : List UInt8 := if line.getLast? = some 13 then line.dropLast else line

/-- The value of a header. -/
def header (name : List UInt8) (lines : List (List UInt8)) : Option (List UInt8) :=
  ((lines.map (cut 58)).lookup name).map fun value => value.drop 1

/-- The target of a request: the path and the parameters. -/
def readTarget : List UInt8 → Option (List UInt8 × Announcement)
  | 47 :: target =>
    let (path, query) := cut 63 target
    (readQuery query).map fun announcement => (path, announcement)
  | _ => none

/-- The first line of a request. -/
def readLine (line : List UInt8) : Option (List UInt8 × Announcement) :=
  match line.splitOn 32 with
  | [method, target, version] =>
    if method = get ∧ version.take 5 = httpSlash then readTarget target else none
  | _ => none

/-- A request. -/
def read (text : List UInt8) : Option Request :=
  match (text.splitOn 10).map chomp with
  | line :: lines => do
    let (path, announcement) ← readLine line
    let host ← header hostName lines
    return ⟨path, host, announcement⟩
  | [] => none

/-! ### The parameters -/

/-- A text without a blank, a line break or a separator of parameters. -/
def IsWord (text : List UInt8) : Prop := ∀ c ∈ [(10 : UInt8), 32, 38, 61, 63], c ∉ text

instance (text : List UInt8) : Decidable (IsWord text) :=
  inferInstanceAs (Decidable (∀ c ∈ [(10 : UInt8), 32, 38, 61, 63], c ∉ text))

theorem isWord_of_forall {text : List UInt8} {p : UInt8 → Prop}
    (hp : ∀ c ∈ [(10 : UInt8), 32, 38, 61, 63], ¬ p c) (h : ∀ b ∈ text, p b) : IsWord text :=
  fun c hc hmem => hp c hc (h c hmem)

theorem isWord_urlEncode (s : List UInt8) : IsWord (urlEncode s) := by
  have hencoded : Encoded Unreserved (urlEncode s) := by
    rw [urlEncode_eq]
    exact encoded_flatMap escapes_encodeImpl s
  exact isWord_of_forall (by decide +kernel) hencoded.mem

theorem isWord_decimal (n : ℕ) : IsWord (decimal n) :=
  isWord_of_forall (p := fun b => isDigit b = true) (by decide +kernel) fun _ => isDigit_of_mem_decimal

theorem isWord_boolText : ∀ b : Bool, IsWord (boolText b) := by decide +kernel

theorem isWord_eventText (event : Event) : IsWord (eventText event) := by
  cases event <;> decide +kernel

theorem isWord_text (p : Param) : IsWord p.text := by
  cases p <;> decide +kernel

/-- `"HTTP/1.0"`. -/
def httpVersion : List UInt8 := [72, 84, 84, 80, 47, 49, 46, 48]

/-- The first line of a request. -/
def requestLine (path query : List UInt8) : List UInt8 :=
  get ++ 32 :: ((47 :: (path ++ 63 :: query)) ++ 32 :: httpVersion)

section Query

variable (infoHash masterPeerId : List UInt8) (port : UInt64) (query : Query)

/-- The parameters that are written for a query. -/
def params : List (List UInt8 × List UInt8) :=
  [(Param.infoHash.text, urlEncode infoHash), (Param.peerId.text, urlEncode (masterPeerId.take 20)),
    (Param.port.text, decimal port.toNat), (Param.uploaded.text, decimal query.uploaded.toNat),
    (Param.downloaded.text, decimal query.downloaded.toNat),
    (Param.left.text, decimal query.left.toNat), (Param.compact.text, boolText query.compact)] ++
  if query.event ≠ .empty then [(Param.event.text, eventText query.event)] else []

/-- The query, as a tracker is to be told of it. The port is that of the program; `numwant`, `ip`, `key`,
`no_peer_id` and `trackerid` are not sent. -/
def announcement : Announcement :=
  ⟨infoHash, masterPeerId.take 20, port.toNat, query.uploaded.toNat, query.downloaded.toNat,
    query.left.toNat, query.compact, query.event⟩

theorem isWord_params : ∀ f ∈ params infoHash masterPeerId port query, IsWord f.1 ∧ IsWord f.2 := by
  have hseven : ∀ f ∈ [(Param.infoHash.text, urlEncode infoHash),
      (Param.peerId.text, urlEncode (masterPeerId.take 20)), (Param.port.text, decimal port.toNat),
      (Param.uploaded.text, decimal query.uploaded.toNat),
      (Param.downloaded.text, decimal query.downloaded.toNat),
      (Param.left.text, decimal query.left.toNat), (Param.compact.text, boolText query.compact)],
      IsWord f.1 ∧ IsWord f.2 := by
    simp only [List.forall_mem_cons, isWord_text, isWord_urlEncode, isWord_decimal, isWord_boolText,
      and_self, true_and]
    exact fun f hf => absurd hf List.not_mem_nil
  intro f hf
  rcases List.mem_append.mp hf with hf | hf
  · exact hseven f hf
  · split_ifs at hf
    · obtain rfl := List.mem_singleton.mp hf
      exact ⟨isWord_text .event, isWord_eventText query.event⟩
    · cases hf

/-- No field has a separator of the request in it, nor the one between the fields. -/
theorem notMem_assignment {c : UInt8} (hc : c ∈ [(10 : UInt8), 32, 38, 63]) :
    ∀ f ∈ params infoHash masterPeerId port query, c ∉ assignment 61 f := by
  intro f hf hmem
  obtain ⟨hname, hvalue⟩ := isWord_params infoHash masterPeerId port query f hf
  have hword : c ∈ [(10 : UInt8), 32, 38, 61, 63] := by
    revert hc
    simp only [List.mem_cons]
    tauto
  rcases List.mem_append.mp hmem with h | h
  · exact hname c hword h
  · rcases List.mem_cons.mp h with rfl | h
    · revert hc
      decide
    · exact hvalue c hword h

theorem readNumber_decimal (n : ℕ) : readNumber (decimal n) = some n := by
  unfold readNumber
  rw [if_pos ⟨decimal_ne_nil n, List.all_eq_true.mpr fun _ => isDigit_of_mem_decimal⟩, value_decimal]

theorem readFlag_boolText (b : Bool) : readFlag (boolText b) = some b := by
  cases b <;> rfl

/-- **The parameters are read back.** -/
theorem readQuery_record : readQuery (record 61 38 (params infoHash masterPeerId port query)) =
    some (announcement infoHash masterPeerId port query) := by
  have hfields : fields 61 38 (record 61 38 (params infoHash masterPeerId port query)) =
      params infoHash masterPeerId port query :=
    fields_record (List.cons_ne_nil _ _)
      (notMem_assignment infoHash masterPeerId port query (by decide))
      fun f hf => (isWord_params infoHash masterPeerId port query f hf).1 61 (by decide)
  have hdecode : ∀ s, percentDecode (urlEncode s) = s := fun s => by
    rw [urlEncode_eq]
    exact percentDecode_flatMap (by decide) escapes_encodeImpl s
  have hevent : readEvent ((params infoHash masterPeerId port query).lookup Param.event.text) =
      some query.event := by
    unfold params
    cases query.event <;> rfl
  unfold readQuery
  rw [hfields]
  dsimp only
  rw [hevent]
  show (do
    let port ← readNumber (decimal port.toNat)
    let uploaded ← readNumber (decimal query.uploaded.toNat)
    let downloaded ← readNumber (decimal query.downloaded.toNat)
    let left ← readNumber (decimal query.left.toNat)
    let compact ← readFlag (boolText query.compact)
    return (⟨percentDecode (urlEncode infoHash), percentDecode (urlEncode (masterPeerId.take 20)), port,
      uploaded, downloaded, left, compact, query.event⟩ : Announcement)) = _
  simp only [readNumber_decimal, readFlag_boolText, hdecode]
  rfl

/-- **The text of a request**: its first line, the line of the host, and two more lines. -/
theorem connect_eq (url : Url) : ∃ rest, connect url infoHash masterPeerId port query =
    (requestLine (url.path.getD []) (record 61 38 (params infoHash masterPeerId port query)) ++ [13]) ++
      10 :: ((hostName ++ 58 :: 32 :: (url.host ++ [13])) ++ 10 :: rest) := by
  refine ⟨[65, 99, 99, 101, 112, 116, 58, 32, 42, 47, 42, 13, 10, 67, 111, 110, 110, 101, 99, 116, 105,
    111, 110, 58, 32, 99, 108, 111, 115, 101, 13, 10, 13, 10], ?_⟩
  unfold connect record params requestLine
  split_ifs <;> simp [SendingMessage.copyFrom, assignment, httpVersion, get, List.intercalate_cons_cons]

end Query

/-! ### The lines -/

theorem chomp_append_cr (line : List UInt8) : chomp (line ++ [13]) = line := by
  simp [chomp]

/-- The end of a line is chomped, whatever stands in front of it. -/
theorem chomp_append {front : List UInt8} (hfront : front.getLast? ≠ some 13) (line : List UInt8) :
    chomp (front ++ line) = front ++ chomp line := by
  rcases List.eq_nil_or_concat line with rfl | ⟨line, b, rfl⟩
  · simp [chomp, hfront]
  · by_cases hb : b = 13 <;> simp [chomp, hb, ← List.append_assoc]

theorem length_chomp_le (line : List UInt8) : (chomp line).length ≤ line.length := by
  unfold chomp
  split_ifs
  · rw [List.length_dropLast]
    exact Nat.sub_le _ _
  · exact le_rfl

theorem mem_of_mem_chomp {line : List UInt8} {b : UInt8} (h : b ∈ chomp line) : b ∈ line := by
  unfold chomp at h
  split_ifs at h
  · exact List.mem_of_mem_dropLast h
  · exact h

theorem readTarget_cons (target : List UInt8) : readTarget (47 :: target) =
    (readQuery (cut 63 target).2).map fun announcement => ((cut 63 target).1, announcement) := rfl

/-- A target without a question mark has no parameters. -/
theorem readTarget_of_notMem : ∀ {target : List UInt8}, 63 ∉ target → readTarget target = none
  | [], _ => rfl
  | b :: target, h => by
    by_cases hb : b = 47
    · subst hb
      rw [readTarget_cons, cut_of_notMem fun hmem => h (List.mem_cons_of_mem 47 hmem)]
      rfl
    · unfold readTarget
      split
      · next heq =>
        cases heq
        exact absurd rfl hb
      · rfl

/-- A first line is read only if it has three parts. -/
theorem parts_of_readLine {line path : List UInt8} {announcement : Announcement}
    (h : readLine line = some (path, announcement)) : ∃ method target version,
      line.splitOn 32 = [method, target, version] ∧ readTarget target = some (path, announcement) := by
  unfold readLine at h
  split at h
  · next method target version hsplit =>
    split_ifs at h
    exact ⟨method, target, version, hsplit, h⟩
  · cases h

/-- A first line without a question mark is not read. -/
theorem readLine_of_notMem {line : List UInt8} (h : 63 ∉ line) : readLine line = none := by
  rcases hread : readLine line with _ | ⟨path, announcement⟩
  · rfl
  · obtain ⟨method, target, version, hsplit, htarget⟩ := parts_of_readLine hread
    have hline : method ++ [32] ++ (target ++ [32] ++ version) = line := by
      have hjoin : [32].intercalate (line.splitOn 32) = line := List.intercalate_splitOn 32
      rwa [hsplit, List.intercalate_cons_cons, List.intercalate_cons_cons,
        List.intercalate_singleton] at hjoin
    have hnone : readTarget target = none := readTarget_of_notMem fun hmem => h (hline ▸ by simp [hmem])
    rw [hnone] at htarget
    cases htarget

/-- Where the path has a blank, the first line has four parts or more. -/
theorem readLine_of_blank {path : List UInt8} (hblank : 32 ∈ path) (query : List UInt8) :
    readLine (requestLine path query) = none := by
  rcases hline : readLine (requestLine path query) with _ | ⟨path', announcement'⟩
  · rfl
  · obtain ⟨method, target, version, hsplit, -⟩ := parts_of_readLine hline
    obtain ⟨front, back, rfl, -⟩ := List.eq_append_cons_of_mem hblank
    have hparts : requestLine (front ++ 32 :: back) query =
        get ++ 32 :: ((47 :: front) ++ 32 :: ((back ++ 63 :: query) ++ 32 :: httpVersion)) := by
      simp [requestLine]
    have hlen := congrArg List.length hsplit
    rw [hparts, List.splitOn_append_cons_self, List.splitOn_append_cons_self,
      List.splitOn_append_cons_self] at hlen
    have hpos : ∀ text : List UInt8, 0 < (text.splitOn 32).length := fun text =>
      List.length_pos_of_ne_nil (List.splitOn_ne_nil 32 text)
    have h1 := hpos get
    have h2 := hpos (47 :: front)
    have h3 := hpos (back ++ 63 :: query)
    have h4 := hpos httpVersion
    simp only [List.length_append, List.length_cons, List.length_nil] at hlen
    omega

/-- **The first line is read back.** -/
theorem readLine_requestLine {path query : List UInt8} {announcement : Announcement}
    (hmark : 63 ∉ path) (hblank : 32 ∉ path) (hquery : 32 ∉ query)
    (hread : readQuery query = some announcement) :
    readLine (requestLine path query) = some (path, announcement) := by
  have hget : 32 ∉ get := by decide
  have hversion : 32 ∉ httpVersion := by decide
  have htarget : 32 ∉ 47 :: (path ++ 63 :: query) := by
    simp [hblank, hquery]
  have hsplit : (requestLine path query).splitOn 32 =
      [get, 47 :: (path ++ 63 :: query), httpVersion] := by
    unfold requestLine
    rw [List.splitOn_append_cons_self_of_not_mem hget, List.splitOn_append_cons_self_of_not_mem htarget,
      List.splitOn_eq_singleton hversion]
  unfold readLine
  rw [hsplit]
  show readTarget (47 :: (path ++ 63 :: query)) = _
  rw [readTarget_cons, cut_append hmark]
  dsimp only
  rw [hread, Option.map_some]

/-- The lines of a request whose first two lines are known. -/
theorem read_lines {line host rest : List UInt8} (hline : 10 ∉ line) (hhost : 10 ∉ host) :
    read ((line ++ [13]) ++ 10 :: ((hostName ++ 58 :: 32 :: host) ++ 10 :: rest)) =
      (readLine line).map fun r => ⟨r.1, chomp host, r.2⟩ := by
  have hfirst : 10 ∉ line ++ [13] := by simp [hline]
  have hsecond : 10 ∉ hostName ++ 58 :: 32 :: host := by
    have hname : 10 ∉ hostName := by decide
    simp [hhost, hname]
  have hchomp : chomp (hostName ++ 58 :: 32 :: host) = hostName ++ 58 :: 32 :: chomp host := by
    have hfront : (hostName ++ [58, 32]).getLast? ≠ some 13 := by decide
    have h := chomp_append hfront host
    rwa [List.append_assoc, List.append_assoc] at h
  have hcut : cut 58 (hostName ++ 58 :: 32 :: chomp host) = (hostName, 32 :: chomp host) :=
    cut_append (by decide) _
  unfold read
  rw [List.splitOn_append_cons_self_of_not_mem hfirst, List.splitOn_append_cons_self_of_not_mem hsecond,
    List.map_cons, List.map_cons, chomp_append_cr, hchomp]
  dsimp only
  rcases readLine line with _ | ⟨path, announcement⟩
  · rfl
  · unfold header
    rw [List.map_cons, hcut, List.lookup_cons_self]
    rfl

/-- A request whose first line has no question mark is not read. -/
theorem read_of_notMem {line : List UInt8} (hbreak : 10 ∉ line) (hmark : 63 ∉ line) (more : List UInt8) :
    read (line ++ 10 :: more) = none := by
  unfold read
  rw [List.splitOn_append_cons_self_of_not_mem hbreak, List.map_cons]
  dsimp only
  rw [readLine_of_notMem fun hmem => hmark (mem_of_mem_chomp hmem)]
  rfl

/-! ### The whole request -/

section Request

variable (infoHash masterPeerId : List UInt8) (port : UInt64) (query : Query)

theorem notMem_record_params {c : UInt8} (hc : c ∈ [(10 : UInt8), 32, 63]) :
    c ∉ record 61 38 (params infoHash masterPeerId port query) := by
  have hmem : c ≠ 38 ∧ c ∈ [(10 : UInt8), 32, 38, 63] := by
    simp only [List.mem_cons, List.not_mem_nil, or_false] at hc
    rcases hc with rfl | rfl | rfl <;> decide
  exact notMem_record hmem.1 (notMem_assignment infoHash masterPeerId port query hmem.2)

theorem notMem_requestLine {path : List UInt8} (hpath : 10 ∉ path) :
    10 ∉ requestLine path (record 61 38 (params infoHash masterPeerId port query)) := by
  have hget : 10 ∉ get := by decide
  have hversion : 10 ∉ httpVersion := by decide
  have hquery := notMem_record_params infoHash masterPeerId port query (c := 10) (by decide)
  simp [requestLine, hget, hpath, hquery, hversion]

/-- **A request with an ordinary URL tells the tracker the query.** -/
theorem read_connect {url : Url} (hmark : 63 ∉ url.path.getD []) (hblank : 32 ∉ url.path.getD [])
    (hbreak : 10 ∉ url.path.getD []) (hhost : 10 ∉ url.host) :
    read (connect url infoHash masterPeerId port query) =
      some ⟨url.path.getD [], url.host, announcement infoHash masterPeerId port query⟩ := by
  obtain ⟨rest, hconnect⟩ := connect_eq infoHash masterPeerId port query url
  have hcr : 10 ∉ url.host ++ [13] := by simp [hhost]
  rw [hconnect, read_lines (notMem_requestLine infoHash masterPeerId port query hbreak) hcr,
    chomp_append_cr, readLine_requestLine hmark hblank
      (notMem_record_params infoHash masterPeerId port query (by decide))
      (readQuery_record infoHash masterPeerId port query)]
  rfl

/-- Where the path has a line break, the first line ends in it. -/
theorem read_connect_of_break {url : Url} (hmark : 63 ∉ url.path.getD [])
    (hbreak : 10 ∈ url.path.getD []) :
    read (connect url infoHash masterPeerId port query) = none := by
  obtain ⟨rest, hconnect⟩ := connect_eq infoHash masterPeerId port query url
  obtain ⟨front, back, hfront, hnot⟩ := List.eq_append_cons_of_mem hbreak
  have hline : 10 ∉ get ++ 32 :: 47 :: front := by
    have hget : 10 ∉ get := by decide
    simp [hget, hnot]
  have hfirst : 63 ∉ get ++ 32 :: 47 :: front := by
    have hget : 63 ∉ get := by decide
    have hin : 63 ∉ front := fun hmem => hmark (hfront ▸ List.mem_append_left _ hmem)
    simp [hget, hin]
  rw [hconnect, hfront]
  have hsame : requestLine (front ++ 10 :: back) (record 61 38 (params infoHash masterPeerId port query)) =
      (get ++ 32 :: 47 :: front) ++ 10 :: (back ++
        63 :: (record 61 38 (params infoHash masterPeerId port query) ++ 32 :: httpVersion)) := by
    simp [requestLine]
  rw [hsame, List.append_assoc, List.append_assoc, List.cons_append]
  exact read_of_notMem hline hfirst _

/-- **The tracker is told the query, the path and the host exactly if there is no blank and no line
break in the path, and no line break in the host.** The path of a URL has no question mark in it. -/
theorem read_connect_iff (url : Url) (hmark : 63 ∉ url.path.getD []) :
    read (connect url infoHash masterPeerId port query) =
        some ⟨url.path.getD [], url.host, announcement infoHash masterPeerId port query⟩ ↔
      32 ∉ url.path.getD [] ∧ 10 ∉ url.path.getD [] ∧ 10 ∉ url.host := by
  constructor
  · intro h
    have hbreak : 10 ∉ url.path.getD [] := fun hin => by
      rw [read_connect_of_break infoHash masterPeerId port query hmark hin] at h
      cases h
    obtain ⟨rest, hconnect⟩ := connect_eq infoHash masterPeerId port query url
    have hline := notMem_requestLine infoHash masterPeerId port query hbreak
    have hhost : 10 ∉ url.host := fun hin => by
      -- the line of the host ends in it
      obtain ⟨front, back, hfront, hnot⟩ := List.eq_append_cons_of_mem hin
      have hsame : (hostName ++ 58 :: 32 :: ((front ++ 10 :: back) ++ [13])) ++ 10 :: rest =
          (hostName ++ 58 :: 32 :: front) ++ 10 :: (back ++ 13 :: 10 :: rest) := by
        simp
      rw [hconnect, hfront, hsame, read_lines hline hnot, Option.map_eq_some_iff] at h
      obtain ⟨r, -, heq⟩ := h
      have hlen := congrArg (fun r : Request => r.host.length) heq
      have hle := length_chomp_le front
      simp only [List.length_append, List.length_cons] at hlen
      omega
    refine ⟨fun hin => ?_, hbreak, hhost⟩
    have hcr : 10 ∉ url.host ++ [13] := by simp [hhost]
    rw [hconnect, read_lines hline hcr, readLine_of_blank hin] at h
    cases h
  · rintro ⟨hblank, hbreak, hhost⟩
    exact read_connect infoHash masterPeerId port query hmark hblank hbreak hhost

end Request

/-- `http://t/a`, with an info hash that has a zero byte, a percent sign and an ampersand in it. -/
def sampleUrl : Url := ⟨[116], some [97]⟩

/-- A query that tells of a start. -/
def sampleQuery : Query := ⟨⟨.started, 0, 5, 70, none, none, none⟩, true⟩

/-- The bytes that have a meaning in a request are escaped in the ids. -/
theorem read_connect_sample :
    63 ∉ sampleUrl.path.getD [] ∧
      (read (connect sampleUrl [0, 37, 38, 200] (List.replicate 20 32) 6881 sampleQuery) =
          some ⟨[97], [116], announcement [0, 37, 38, 200] (List.replicate 20 32) 6881 sampleQuery⟩ ↔
        32 ∉ sampleUrl.path.getD [] ∧ 10 ∉ sampleUrl.path.getD [] ∧ 10 ∉ sampleUrl.host) :=
  ⟨by decide,
    read_connect_iff [0, 37, 38, 200] (List.replicate 20 32) 6881 sampleQuery sampleUrl (by decide)⟩

end CppTorrent.Tracker.HttpRequest
