import CppTorrent.Lib.Chunks
import CppTorrent.Lib.Stream
import CppTorrent.Wire.Message

/-! # Reading the reply of an HTTP tracker

Three reads share one buffer. The first goes up to the end of the status line, the second up to the end
of the header block, the third up to the end of the stream. Each callback is handed the whole buffer,
and afterwards as many bytes are dropped as the read has reported.

The callback of the second read copies the whole buffer, with what has arrived behind the header block,
and this is still in the buffer when the third callback copies it. `exchange_eq_iff` says that the
buffer given to `SetResponse` is what follows the status line exactly if nothing has arrived behind the
header block by then: if a chunk ends with it. -/

namespace CppTorrent.Tracker.HttpReply

open CppTorrent.Lib.Chunks CppTorrent.Lib.Decimal CppTorrent.Lib.Stream CppTorrent.Lib.Stream.IStream
open CppTorrent.Wire.Message

/-- `"\r\n"`. -/
def crlf : List UInt8 := [13, 10]

/-- `"\r\n\r\n"`. -/
def crlfCrlf : List UInt8 := [13, 10, 13, 10]

/-- `"HTTP/"`. -/
def httpSlash : List UInt8 := [72, 84, 84, 80, 47]

/-- `SendingMessage::Clear`. -/
def clear (msg : SendingMessage) : SendingMessage := { msg with data := [] }

/-- `ReceivingMessage::GetString`: the bytes up to the next white space, and what stands behind it. -/
def getString (arr : List UInt8) : List UInt8 × List UInt8 :=
  (arr.takeWhile fun b => !isSpace b, (arr.dropWhile fun b => !isSpace b).dropWhile isSpace)

/-- `std::stoi`; it throws if there is no number or it is not an `int`. -/
def stoi (str : List UInt8) : Option ℤ :=
  let (neg, ds, _) := numeral (str.dropWhile isSpace)
  let n : ℤ := if neg then -value ds else value ds
  if ds = [] ∨ n < -2 ^ 31 ∨ 2 ^ 31 ≤ n then none else some n

/-- How the callback of `do_read_response_status` ends. -/
inductive Status where
  /-- `std::stoi` throws -/
  | thrown
  /-- `SetException` -/
  | rejected
  /-- `do_read_response_header` is called -/
  | ok
  deriving DecidableEq

/-- The callback of `do_read_response_status`. -/
def onStatus (data : List UInt8) : Status :=
  let (httpVersion, data) := getString data
  let (code, _) := getString data
  match stoi code with
  | none => .thrown
  | some statusCode =>
    if httpVersion.take 5 ≠ httpSlash then .rejected
    else if statusCode % 2 ^ 32 ≠ 200 then .rejected
    else .ok

/-- `do_read_response_status`, `do_read_response_header` and `do_read_response_body`, for a reply that
arrives in chunks: the buffer given to `SetResponse`. -/
def exchange (msg : SendingMessage) (chunks : List (List UInt8)) : Option (List UInt8) := do
  let (xfr, buf, chunks) ← readUntil crlf [] chunks
  if onStatus buf ≠ .ok then none
  else do
    let (xfr, buf, chunks) ← readUntil crlfCrlf (buf.drop xfr) chunks
    let msg := (clear msg).copyFrom buf
    let buf := readToEof (buf.drop xfr) chunks
    return (msg.copyFrom buf).data

/-! ### The status line -/

/-- A status line: a version, a code and a reason, up to the first line break. -/
def IsStatusLine (line : List UInt8) : Prop :=
  endOf crlf line = some line.length ∧
    ∃ version code b reason, line = version ++ 32 :: (code ++ b :: reason) ∧
      (∀ b ∈ version, isSpace b = false) ∧ (∀ b ∈ code, isSpace b = false) ∧ code ≠ [] ∧
      isSpace b = true

theorem getString_append {word rest : List UInt8} {b : UInt8} (hword : ∀ b ∈ word, isSpace b = false)
    (hb : isSpace b = true) :
    getString (word ++ b :: rest) = (word, rest.dropWhile isSpace) := by
  have hall : ∀ a ∈ word, (!isSpace a) = true := fun a ha => by rw [hword a ha]; rfl
  unfold getString
  rw [List.takeWhile_append_of_pos hall, List.dropWhile_append_of_pos hall,
    List.takeWhile_cons_of_neg (by simpa using hb), List.dropWhile_cons_of_neg (by simpa using hb),
    List.append_nil, List.dropWhile_cons_of_pos hb]

/-- What stands behind a status line does not matter. -/
theorem onStatus_append {line : List UInt8} (hline : IsStatusLine line) (more : List UInt8) :
    onStatus (line ++ more) = onStatus line := by
  obtain ⟨-, version, code, b, reason, rfl, hversion, hcode, hne, hb⟩ := hline
  have htwo : ∀ rest, getString (version ++ 32 :: (code ++ b :: rest)) =
      (version, code ++ b :: rest) := by
    intro rest
    obtain ⟨c, code', rfl⟩ := List.exists_cons_of_ne_nil hne
    have hc : isSpace c = false := hcode c List.mem_cons_self
    rw [getString_append hversion (by decide), List.cons_append,
      List.dropWhile_cons_of_neg (by simp [hc])]
  have hmore : (version ++ 32 :: (code ++ b :: reason)) ++ more =
      version ++ 32 :: (code ++ b :: (reason ++ more)) := by simp
  unfold onStatus
  rw [hmore, htwo, htwo]
  dsimp only
  rw [getString_append hcode hb, getString_append hcode hb]

/-! ### The whole reply -/

section Reply

variable {msg : SendingMessage} {line headers body : List UInt8} {chunks : List (List UInt8)}

variable (msg) in
/-- **What has arrived behind the header block is copied twice**: what the chunks have brought by then
that are needed for the header block. -/
theorem exchange_spec (hline : IsStatusLine line)
    (hheaders : endOf crlfCrlf headers = some headers.length)
    (h : chunks.flatten = line ++ (headers ++ body)) :
    ∃ ahead rest k, ahead ++ rest = body ∧
      exchange msg chunks = (if onStatus line = .ok then some (headers ++ (ahead ++ (ahead ++ rest)))
        else none) ∧
      (chunks.take k).flatten = line ++ (headers ++ ahead) ∧
      ∀ i < k, ¬ line ++ headers <+: (chunks.take i).flatten := by
  obtain ⟨j, ahead₁, hread₁, hahead₁, hbefore₁⟩ := readUntil_spec hline.1 chunks [] h
  rw [List.nil_append] at hahead₁
  have hsplit : ∀ i, (chunks.take (j + i)).flatten =
      line ++ (ahead₁ ++ ((chunks.drop j).take i).flatten) := by
    intro i
    rw [List.take_add, List.flatten_append, ← hahead₁, List.append_assoc]
  have hsum : ahead₁ ++ (chunks.drop j).flatten = headers ++ body := by
    have hall : line ++ (ahead₁ ++ (chunks.drop j).flatten) = line ++ (headers ++ body) := by
      rw [← h, ← List.append_assoc, hahead₁, ← List.flatten_append, List.take_append_drop]
    exact List.append_cancel_left hall
  obtain ⟨i, ahead, hread₂, hahead₂, hbefore₂⟩ := readUntil_spec hheaders (chunks.drop j) ahead₁ hsum
  have hrest : ahead ++ ((chunks.drop j).drop i).flatten = body := by
    have hall : headers ++ (ahead ++ ((chunks.drop j).drop i).flatten) = headers ++ body := by
      rw [← hsum, ← List.append_assoc, hahead₂, List.append_assoc, ← List.flatten_append,
        List.take_append_drop]
    exact List.append_cancel_left hall
  refine ⟨ahead, ((chunks.drop j).drop i).flatten, j + i, hrest, ?_, ?_, fun n hn hpre => ?_⟩
  · unfold exchange
    rw [hread₁]
    show (if onStatus (line ++ ahead₁) ≠ .ok then none else _) = _
    rw [onStatus_append hline, List.drop_left, hread₂]
    by_cases hok : onStatus line = .ok
    · rw [if_neg (not_not.mpr hok), if_pos hok]
      show some (([] ++ (headers ++ ahead)) ++
        readToEof ((headers ++ ahead).drop headers.length) ((chunks.drop j).drop i)) = _
      rw [List.drop_left, readToEof]
      simp
    · rw [if_pos hok, if_neg hok]
  · rw [hsplit, hahead₂]
  · -- a status line is read first, then a header block
    rcases Nat.lt_or_ge n j with hlt | hge
    · refine hbefore₁ n hlt ?_
      rw [List.nil_append]
      exact (List.prefix_append line headers).trans hpre
    · refine hbefore₂ (n - j) (by omega) ?_
      have hn := hsplit (n - j)
      rw [Nat.add_sub_cancel' hge] at hn
      rw [hn] at hpre
      exact (List.prefix_append_right_inj line).mp hpre

variable (msg) in
/-- Nothing is copied twice exactly if a chunk ends with the header block. -/
theorem exchange_eq (hline : IsStatusLine line) (hheaders : endOf crlfCrlf headers = some headers.length)
    (h : chunks.flatten = line ++ (headers ++ body)) :
    ∃ ahead rest, ahead ++ rest = body ∧
      exchange msg chunks = (if onStatus line = .ok then some (headers ++ (ahead ++ (ahead ++ rest)))
        else none) ∧
      (ahead = [] ↔ ∃ k, (chunks.take k).flatten = line ++ headers) := by
  obtain ⟨ahead, rest, k, hbody, hexchange, hahead, hbefore⟩ := exchange_spec msg hline hheaders h
  have hfront : (line ++ headers) ++ ahead = [] ++ (chunks.take k).flatten := by
    rw [List.nil_append, hahead, List.append_assoc]
  exact ⟨ahead, rest, hbody, hexchange, lookAhead_nil_iff hfront hbefore⟩

/-- **The buffer given to `SetResponse` is what follows the status line exactly if a chunk ends with the
header block**, or the status is not accepted and no buffer is given. -/
theorem exchange_eq_iff (hline : IsStatusLine line)
    (hheaders : endOf crlfCrlf headers = some headers.length)
    (h : chunks.flatten = line ++ (headers ++ body)) :
    exchange msg chunks = (if onStatus line = .ok then some (headers ++ body) else none) ↔
      onStatus line ≠ .ok ∨ ∃ k, (chunks.take k).flatten = line ++ headers := by
  obtain ⟨ahead, rest, hbody, hexchange, hahead⟩ := exchange_eq msg hline hheaders h
  rw [hexchange, ← hahead]
  by_cases hok : onStatus line = .ok
  · rw [if_pos hok, if_pos hok, or_iff_right (not_not.mpr hok), ← hbody, Option.some.injEq]
    constructor
    · intro heq
      have hlen := congrArg List.length heq
      simp only [List.length_append] at hlen
      exact List.length_eq_zero_iff.mp (by omega)
    · rintro rfl
      rfl
  · rw [if_neg hok, if_neg hok]
    exact iff_of_true rfl (Or.inl hok)

end Reply

/-- `HTTP/1.0 200 OK`. -/
def okLine : List UInt8 := [72, 84, 84, 80, 47, 49, 46, 48, 32, 50, 48, 48, 32, 79, 75, 13, 10]

/-- A header block with one field. -/
def oneField : List UInt8 := [65, 58, 49, 13, 10, 13, 10]

theorem isStatusLine_okLine : IsStatusLine okLine :=
  ⟨by decide, [72, 84, 84, 80, 47, 49, 46, 48], [50, 48, 48], 32, [79, 75, 13, 10], rfl,
    by simp [isSpace], by simp [isSpace], by decide, by decide⟩

/-- A body that comes in a chunk of its own is passed on as it is. -/
theorem exchange_two_chunks :
    exchange ⟨.bigEndian, []⟩ [okLine ++ oneField, [100, 101]] =
        (if onStatus okLine = .ok then some (oneField ++ [100, 101]) else none) ↔
      onStatus okLine ≠ .ok ∨
        ∃ k, ([okLine ++ oneField, [100, 101]].take k).flatten = okLine ++ oneField :=
  exchange_eq_iff isStatusLine_okLine (by decide) rfl

/-- A body that comes with the header block is passed on twice. -/
theorem exchange_one_chunk :
    IsStatusLine okLine ∧ onStatus okLine = .ok ∧ endOf crlfCrlf oneField = some oneField.length ∧
      exchange ⟨.bigEndian, []⟩ [okLine ++ (oneField ++ [100, 101])] =
        some (oneField ++ [100, 101, 100, 101]) ∧
      exchange ⟨.bigEndian, []⟩ [okLine ++ (oneField ++ [100, 101])] ≠
        some (oneField ++ [100, 101]) :=
  ⟨isStatusLine_okLine, by decide +kernel⟩

end CppTorrent.Tracker.HttpReply
