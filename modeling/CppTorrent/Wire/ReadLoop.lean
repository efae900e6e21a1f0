import CppTorrent.Lib.BigEndian

/-! # The read loop of a peer connection

A frame is the four bytes of its length, most significant first, and its body. `do_read_header` asks
the socket for the four bytes, `do_read_body` for the body; the callback of the first issues the
second, the callback of the second hands the body to `handle_response` and issues the first again.
A read whose bytes are there calls its callback once; bytes that no read asks for stay in the socket.

What `handle_response` does is a parameter: a state of the client, the effect `handle` of a message
body on it, and the flag `isDisconnected`. `dispatched` says frame by frame which bodies are handled,
and `run_eq_dispatched` that the loop handles exactly these, whatever the state and the handler.

The callback of the header does not ask for another header if the length is zero. So a keep-alive
ends the loop, and is transparent only where no body would have been handled after it
(`run_insert_iff`). -/

namespace CppTorrent.Wire.ReadLoop

open CppTorrent.Lib.BigEndian

/-- The body of a frame: its length fits the header. -/
structure Body where
  bytes : List UInt8
  length_lt : bytes.length < 2 ^ 32

/-- The body of a keep-alive. -/
def Body.empty : Body := ⟨[], by decide⟩

/-- A frame on the wire. -/
def encode (body : Body) : List UInt8 := bytesBE 4 body.bytes.length ++ body.bytes

/-- What the last read asked for. -/
inductive Pending where
  | nothing
  | header
  | body (size : ℕ)
  deriving DecidableEq

/-- A client with its read in progress: the bytes read so far, and the bodies handled so far. -/
structure Client (σ : Type) where
  peer : σ
  pending : Pending
  buffer : List UInt8
  handled : List (List UInt8)

variable {σ : Type} (handle : σ → List UInt8 → σ) (isDisconnected : σ → Bool)

/-- Issues a read, unless the client is disconnected. -/
def read (request : Pending) (c : Client σ) : Client σ :=
  if isDisconnected c.peer then { c with pending := .nothing, buffer := [] }
  else { c with pending := request, buffer := [] }

/-- `PeerClient::do_read_header`. -/
def doReadHeader (c : Client σ) : Client σ := read isDisconnected .header c

/-- `PeerClient::do_read_body`. -/
def doReadBody (size : ℕ) (c : Client σ) : Client σ := read isDisconnected (.body size) c

/-- The callback of `do_read_header`. -/
def onHeader (data : List UInt8) (c : Client σ) : Client σ :=
  let bodySize := numberBE data
  if bodySize = 0 then { c with pending := .nothing, buffer := [] }
  else doReadBody isDisconnected bodySize c

/-- The callback of `do_read_body`. -/
def onBody (data : List UInt8) (c : Client σ) : Client σ :=
  doReadHeader isDisconnected
    { c with peer := handle c.peer data, handled := c.handled ++ [data] }

/-- The number of bytes a read asks for. -/
def Pending.size : Pending → ℕ
  | .nothing => 0
  | .header => 4
  | .body size => size

/-- The callback of the read in progress. -/
def complete (data : List UInt8) (c : Client σ) : Client σ :=
  match c.pending with
  | .nothing => c
  | .header => onHeader isDisconnected data c
  | .body _ => onBody handle isDisconnected data c

/-- A byte arrives: it completes the read in progress, or is kept, or stays in the socket. -/
def receiveByte (c : Client σ) (b : UInt8) : Client σ :=
  let data := c.buffer ++ [b]
  if c.pending = .nothing then c
  else if data.length = c.pending.size then complete handle isDisconnected data c
  else { c with buffer := data }

/-- Bytes arrive. -/
def receive (c : Client σ) (bytes : List UInt8) : Client σ :=
  bytes.foldl (receiveByte handle isDisconnected) c

/-- The client after `access`: the first header is asked for. -/
def access (peer : σ) : Client σ := doReadHeader isDisconnected ⟨peer, .nothing, [], []⟩

/-- The bodies handled when the frames arrive after `access`. -/
def run (peer : σ) (frames : List Body) : List (List UInt8) :=
  (receive handle isDisconnected (access isDisconnected peer) (frames.flatMap encode)).handled

/-! ### One frame -/

theorem complete_buffer {c : Client σ} (hp : c.pending ≠ .nothing) (data buf : List UInt8) :
    complete handle isDisconnected data { c with buffer := buf } =
      complete handle isDisconnected data c := by
  cases h : c.pending with
  | nothing => exact absurd h hp
  | header => simp only [complete, h, onHeader, doReadBody, read]
  | body size => simp only [complete, h, onBody, doReadHeader, read]

/-- A read is completed by as many bytes as it asked for. -/
theorem receive_complete {c : Client σ} (hp : c.pending ≠ .nothing) :
    ∀ (bytes : List UInt8), bytes ≠ [] → c.buffer.length + bytes.length = c.pending.size →
      receive handle isDisconnected c bytes =
        complete handle isDisconnected (c.buffer ++ bytes) c
  | [], h, _ => absurd rfl h
  | [b], _, h => by
    have hlen : (c.buffer ++ [b]).length = c.pending.size := by simpa using h
    simp only [receive, List.foldl_cons, List.foldl_nil, receiveByte, if_neg hp, if_pos hlen]
  | b :: b' :: bytes, _, h => by
    simp only [List.length_cons] at h
    have hlen : (c.buffer ++ [b]).length ≠ c.pending.size := by
      simp only [List.length_cons, List.length_append, List.length_nil]; omega
    have ih := receive_complete (c := { c with buffer := c.buffer ++ [b] }) hp
      (b' :: bytes) (by simp)
      (by simp only [List.length_cons, List.length_append, List.length_nil]; omega)
    rw [complete_buffer handle isDisconnected hp, List.append_assoc, List.singleton_append] at ih
    rw [← ih, receive, List.foldl_cons, receiveByte]
    simp only [if_neg hp, if_neg hlen]
    rfl

theorem receive_append (c : Client σ) (xs ys : List UInt8) :
    receive handle isDisconnected c (xs ++ ys) =
      receive handle isDisconnected (receive handle isDisconnected c xs) ys :=
  List.foldl_append

/-- Nothing is handled once no read is in progress. -/
theorem receive_nothing {c : Client σ} (hp : c.pending = .nothing) : ∀ bytes : List UInt8,
    receive handle isDisconnected c bytes = c
  | [] => rfl
  | b :: bytes => by
    rw [receive, List.foldl_cons, receiveByte]
    simp only [if_pos hp]
    exact receive_nothing hp bytes

/-- A keep-alive ends the loop. -/
theorem receive_keepAlive {c : Client σ} (hp : c.pending = .header) (hb : c.buffer = []) :
    receive handle isDisconnected c (encode Body.empty) = { c with pending := .nothing } := by
  have h : encode Body.empty = [0, 0, 0, 0] := rfl
  rw [h, receive_complete handle isDisconnected (by rw [hp]; simp) _ (by simp)
    (by rw [hp, hb]; rfl)]
  simp only [complete, hp, onHeader, hb]
  rfl

/-- A frame with a body is handled, and the next header is asked for. -/
theorem receive_encode_body {c : Client σ} (hp : c.pending = .header) (hb : c.buffer = [])
    (hd : isDisconnected c.peer = false) {body : Body} (hne : body.bytes ≠ []) :
    receive handle isDisconnected c (encode body) =
      onBody handle isDisconnected body.bytes { c with pending := .body body.bytes.length } := by
  have hnum : numberBE (bytesBE 4 body.bytes.length) = body.bytes.length :=
    numberBE_bytesBE (lt_of_lt_of_eq body.length_lt (by norm_num))
  have hlen : body.bytes.length ≠ 0 := by simpa using hne
  have h1 : receive handle isDisconnected c (bytesBE 4 body.bytes.length) =
      { c with pending := .body body.bytes.length } := by
    rw [receive_complete handle isDisconnected (by rw [hp]; simp) _
      (by rw [← List.length_pos_iff, length_bytesBE]; omega) (by rw [hp, hb, length_bytesBE]; rfl)]
    simp only [complete, hp, onHeader, hb, List.nil_append, hnum, if_neg hlen, doReadBody, read, hd,
      Bool.false_eq_true, if_false]
  rw [encode, receive_append, h1, receive_complete handle isDisconnected (by simp) _ hne
    (by simp [hb, Pending.size]), hb]
  rfl

/-! ### Sequences of frames -/

/-- The bodies handled for a sequence of frames: up to the first keep-alive, and no further than the
frame that disconnects. -/
def dispatched (peer : σ) : List Body → List (List UInt8)
  | [] => []
  | body :: frames =>
    if isDisconnected peer = true ∨ body.bytes = [] then []
    else body.bytes :: dispatched (handle peer body.bytes) frames

/-- A client that has asked for a header handles what `dispatched` says. -/
theorem receive_encode : ∀ (frames : List Body) (c : Client σ), c.buffer = [] →
    (c.pending = if isDisconnected c.peer then .nothing else .header) →
    (receive handle isDisconnected c (frames.flatMap encode)).handled =
      c.handled ++ dispatched handle isDisconnected c.peer frames
  | [], c, _, _ => by simp [receive, dispatched]
  | body :: frames, c, hb, hp => by
    rw [List.flatMap_cons, receive_append, dispatched]
    by_cases hd : isDisconnected c.peer = true
    · rw [if_pos hd] at hp
      rw [receive_nothing _ _ hp, receive_nothing _ _ hp, if_pos (Or.inl hd), List.append_nil]
    · rw [if_neg hd] at hp
      by_cases he : body.bytes = []
      · obtain rfl : body = Body.empty := by cases body; cases he; rfl
        rw [ receive_keepAlive _ _ hp hb, receive_nothing _ _ rfl, if_pos (Or.inr he),
          List.append_nil]
      · rw [receive_encode_body _ _ hp hb (by simpa using hd) he, if_neg (not_or.mpr ⟨hd, he⟩)]
        have ih := receive_encode frames
          (onBody handle isDisconnected body.bytes { c with pending := .body body.bytes.length })
        simp only [onBody, doReadHeader, read] at ih ⊢
        split_ifs at ih ⊢
        · rw [ih rfl (by simp), List.append_assoc, List.singleton_append]
        · rw [ih rfl (by simp), List.append_assoc, List.singleton_append]

/-- **The loop handles the bodies up to the first keep-alive or disconnect.** -/
theorem run_eq_dispatched (peer : σ) (frames : List Body) :
    run handle isDisconnected peer frames = dispatched handle isDisconnected peer frames := by
  have h := receive_encode handle isDisconnected frames (access isDisconnected peer)
  simp only [access, doReadHeader, read] at h
  simp only [run, access, doReadHeader, read]
  split_ifs at h ⊢
  · simpa using h rfl (by simp)
  · simpa using h rfl (by simp)

/-! ### Inserted keep-alives -/

/-- The frames without the inserted ones; `none` is an inserted keep-alive. -/
def original (items : List (Option Body)) : List Body := items.filterMap id

/-- The frames as they are received. -/
def received (items : List (Option Body)) : List Body := items.map fun item => item.getD Body.empty

/-- No inserted keep-alive stands before a frame that would be handled without it: the connection is
followed to the first disconnect or keep-alive of the original sequence, and at an inserted
keep-alive the original sequence has ended or goes on with a keep-alive of its own. -/
def Harmless (peer : σ) : List (Option Body) → Prop
  | [] => True
  | none :: items =>
    isDisconnected peer = true ∨ ∀ body ∈ (original items).head?, body.bytes = []
  | some body :: items =>
    isDisconnected peer = true ∨ body.bytes = [] ∨ Harmless (handle peer body.bytes) items

theorem dispatched_eq_nil_iff (peer : σ) (frames : List Body) :
    dispatched handle isDisconnected peer frames = [] ↔
      isDisconnected peer = true ∨ ∀ body ∈ frames.head?, body.bytes = [] := by
  cases frames with
  | nil => simp [dispatched]
  | cons body frames =>
    rw [dispatched]
    split_ifs with h
    · simpa using h
    · simpa using not_or.mp h

/-- **Inserted keep-alives change nothing exactly if none stands before a frame that would be
handled.** -/
theorem run_insert_iff (peer : σ) (items : List (Option Body)) :
    run handle isDisconnected peer (received items) =
        run handle isDisconnected peer (original items) ↔
      Harmless handle isDisconnected peer items := by
  rw [run_eq_dispatched, run_eq_dispatched]
  induction items generalizing peer with
  | nil => simp [received, original, Harmless]
  | cons item items ih =>
    cases item with
    | none =>
      have h : dispatched handle isDisconnected peer (received (none :: items)) = [] := by
        rw [dispatched_eq_nil_iff]
        exact Or.inr (by simp [received, Body.empty])
      rw [h, eq_comm, dispatched_eq_nil_iff]
      rfl
    | some body =>
      have h1 : received (some body :: items) = body :: received items := rfl
      have h2 : original (some body :: items) = body :: original items := rfl
      rw [h1, h2, dispatched, dispatched, Harmless, ← or_assoc]
      split_ifs with h
      · simp [h]
      · rw [List.cons.injEq, ih, or_iff_right h]
        simp

/-- A keep-alive in front of a message of the unknown type 20 hides it: the handler ignores such a
message and does not disconnect. -/
theorem keepAlive_hides_message :
    run (fun (_ : Unit) _ => ()) (fun _ => false) () (received [none, some ⟨[20], by decide⟩]) ≠
      run (fun (_ : Unit) _ => ()) (fun _ => false) () (original [none, some ⟨[20], by decide⟩]) := by
  decide

end CppTorrent.Wire.ReadLoop
