import CppTorrent.Wire.Message

/-! # What both tracker requesters share

A requester has a promise for the response and a flag `is_set`. `SetException` does nothing once the
flag is set; setting a value in a promise that has been set throws. As long as the flag is not set the
promise is not either, so it is settled once.

Both replies can give the peers as a string of six bytes each. The loop over it ends at a zero byte,
which it looks for at every sixth position only. It reads where it is told to, so a read outside the
buffer is a fault here; `staysInside_iff` says when there is none. -/

namespace CppTorrent.Tracker.Promise

open CppTorrent.Lib.Endian CppTorrent.Wire.Message

/-- What can go wrong: a bound is reached, a read outside a buffer, the wrong alternative of a variant,
a key that is not there, a promise that has been set, an exception of the bencode reader. -/
inductive Fault where
  | timeout
  | undefined
  | badVariant
  | missingKey
  | alreadySatisfied
  | thrown
  deriving DecidableEq

/-- `bittorrent::Peer`; without a key the constructor draws an id. -/
structure Peer where
  ip : ℕ
  port : ℕ
  key : Option (List UInt8)
  deriving DecidableEq

/-- `bittorrent::PeerImage`. -/
structure PeerImage where
  beStruct : Peer
  beBin : List UInt8
  deriving DecidableEq

/-- `bittorrent::Response`; the times are in seconds. -/
structure Response where
  interval : ℤ
  trackerId : List UInt8
  complete : ℕ
  incomplete : ℕ
  peers : List PeerImage
  warningMessage : Option (List UInt8)
  minInterval : Option ℤ
  deriving DecidableEq

/-- The constructor of `Response`. -/
def response : Response := ⟨900, [], 0, 0, [], none, none⟩

/-- What a promise has been set to. -/
inductive Settled where
  | value (resp : Response)
  | exception (err : String)
  deriving DecidableEq

/-- `network::TrackerRequester`. -/
structure Requester where
  isSet : Bool
  promiseOfResp : Option Settled
  /-- a promise is set together with the flag -/
  unset : isSet = false → promiseOfResp = none

/-- A requester whose promise has not been set. -/
def waiting : Requester := ⟨false, none, fun _ => rfl⟩

/-- `TrackerRequester::SetException`. -/
def Requester.setException (err : String) (r : Requester) : Requester :=
  if r.isSet then r else ⟨true, some (.exception err), fun h => by cases h⟩

/-- `promise_of_resp.set_value` and `Disconnect`. -/
def Requester.setValue (resp : Response) (r : Requester) : Except Fault Requester :=
  match r.promiseOfResp with
  | some _ => .error .alreadySatisfied
  | none => .ok ⟨true, some (.value resp), fun h => by cases h⟩

/-- `TrackerRequester::Disconnect`: nothing is set any more. -/
def Requester.disconnect (r : Requester) : Requester := ⟨true, r.promiseOfResp, fun h => by cases h⟩

/-- The end of both `SetResponse` functions. -/
def Requester.finish (resp : Response) (r : Requester) : Except Fault Requester :=
  if resp.peers = [] then .ok (r.setException "0 peers!") else r.setValue resp

/-- A promise that has been settled once: with a value that has a peer, or with an exception. -/
def Requester.Answered (r : Requester) : Prop :=
  r.isSet = true ∧ ∃ settled, r.promiseOfResp = some settled ∧
    ∀ resp, settled = .value resp → resp.peers ≠ []

theorem Requester.answered_setException {r : Requester} (hr : r.isSet = false) (err : String) :
    (r.setException err).Answered := by
  unfold setException
  rw [if_neg (Bool.eq_false_iff.mp hr)]
  exact ⟨rfl, _, rfl, fun resp h => by cases h⟩

/-- Once the flag is set, an exception is dropped. -/
theorem Requester.setException_of_isSet {r : Requester} (h : r.isSet = true) (err : String) :
    r.setException err = r := by
  unfold setException
  rw [if_pos h]

theorem Requester.disconnect_of_isSet {r : Requester} (h : r.isSet = true) : r.disconnect = r := by
  cases r
  cases h
  rfl

/-- A second exception is dropped. -/
theorem Requester.Answered.setException {r : Requester} (h : r.Answered) (err : String) :
    r.setException err = r := Requester.setException_of_isSet h.1 err

theorem Requester.answered_finish {r : Requester} (hr : r.isSet = false) (resp : Response) :
    ∃ r', r.finish resp = .ok r' ∧ r'.Answered := by
  unfold finish
  split
  · exact ⟨_, rfl, answered_setException hr _⟩
  · next hpeers =>
    unfold setValue
    rw [r.unset hr]
    exact ⟨_, rfl, rfl, _, rfl, fun resp' h => by cases h; exact hpeers⟩

theorem Requester.answered_of_finish {r r' : Requester} (hr : r.isSet = false) {resp : Response}
    (h : r.finish resp = .ok r') : r'.Answered := by
  obtain ⟨r'', hr'', hanswered⟩ := answered_finish hr resp
  cases h.symm.trans hr''
  exact hanswered

/-! ### Compact peers -/

/-- `data[i]`. -/
def byteAt (data : List UInt8) (i : ℕ) : Except Fault UInt8 :=
  match data[i]? with
  | some b => .ok b
  | none => .error .undefined

/-- The peer given by six bytes. -/
def compactPeer (host : Host) (peer : List UInt8) : PeerImage :=
  { beStruct :=
      ⟨bigToNative host 4 (arrayToValue host (peer.take 4)),
        bigToNative host 2 (arrayToValue host ((peer.drop 4).take 2)), none⟩
    beBin := peer }

/-- The loop over the peers, from position `i`. -/
def compactLoop (host : Host) (data : List UInt8) : ℕ → ℕ → Except Fault (List PeerImage)
  | 0, _ => .error .timeout
  | fuel + 1, i => do
    let b ← byteAt data i
    if b = 0 then return []
    else do
      let peer ← (List.range 6).mapM fun j => byteAt data (i + j)
      let peers ← compactLoop host data fuel (i + 6)
      return compactPeer host peer :: peers

/-- The loop from a position ends, and every index it reads lies in the buffer. -/
def StaysInside (host : Host) (data : List UInt8) (start : ℕ) : Prop :=
  ∃ peers, ∀ fuel, data.length < fuel → compactLoop host data fuel start = .ok peers

/-- A zero byte stands a multiple of six behind a position. -/
def Ends (data : List UInt8) (start : ℕ) : Prop := ∃ q, data[start + 6 * q]? = some 0

variable {host : Host} {data : List UInt8}

theorem byteAt_of_lt {i : ℕ} (h : i < data.length) : byteAt data i = .ok data[i] := by
  unfold byteAt
  rw [List.getElem?_eq_getElem h]

theorem mapM_byteAt (data : List UInt8) {i : ℕ} (h : i + 5 < data.length) :
    ∃ peer, (List.range 6).mapM (fun j => byteAt data (i + j)) = Except.ok peer := by
  have hrange : List.range 6 = [0, 1, 2, 3, 4, 5] := rfl
  simp only [hrange, List.mapM_cons, List.mapM_nil, byteAt_of_lt (show i + 0 < data.length by omega),
    byteAt_of_lt (show i + 1 < data.length by omega), byteAt_of_lt (show i + 2 < data.length by omega),
    byteAt_of_lt (show i + 3 < data.length by omega), byteAt_of_lt (show i + 4 < data.length by omega),
    byteAt_of_lt h]
  exact ⟨_, rfl⟩

/-- The loop ends in the buffer only at a zero byte; the induction is on the rounds. -/
theorem ends_of_compactLoop : ∀ {fuel i : ℕ} {peers : List PeerImage},
    compactLoop host data fuel i = .ok peers → Ends data i
  | 0, i, peers, h => by cases h
  | fuel + 1, i, peers, h => by
    rcases Nat.lt_or_ge i data.length with hi | hi
    · rw [compactLoop, byteAt_of_lt hi] at h
      by_cases hzero : data[i] = 0
      · exact ⟨0, by rw [Nat.mul_zero, Nat.add_zero, List.getElem?_eq_getElem hi, hzero]⟩
      · rcases hpeer : (List.range 6).mapM (fun j => byteAt data (i + j)) with fault | peer
        · simp [hzero, hpeer, bind, Except.bind] at h
        · rcases hrest : compactLoop host data fuel (i + 6) with fault | rest
          · simp [hzero, hpeer, hrest, bind, Except.bind] at h
          · obtain ⟨q, hq⟩ := ends_of_compactLoop hrest
            refine ⟨q + 1, ?_⟩
            rw [← hq]
            congr 1
            omega
    · have hout : byteAt data i = .error .undefined := by
        unfold byteAt
        rw [List.getElem?_eq_none hi]
      rw [compactLoop, hout] at h
      cases h

variable (host) in
/-- From a zero byte backwards: the induction is on the number of peers in front of it. -/
theorem compactLoop_of_ends : ∀ {q i : ℕ}, data[i + 6 * q]? = some 0 →
    ∃ peers, ∀ fuel, q < fuel → compactLoop host data fuel i = .ok peers
  | 0, i, hq => by
    rw [Nat.mul_zero, Nat.add_zero] at hq
    obtain ⟨hi, hzero⟩ := List.getElem?_eq_some_iff.mp hq
    refine ⟨[], fun fuel hfuel => ?_⟩
    obtain ⟨fuel, rfl⟩ : ∃ f, fuel = f + 1 := ⟨fuel - 1, by omega⟩
    rw [compactLoop, byteAt_of_lt hi, hzero]
    rfl
  | q + 1, i, hq => by
    have hnext : data[i + 6 + 6 * q]? = some 0 := by
      rw [← hq]
      congr 1
      omega
    obtain ⟨hlast, -⟩ := List.getElem?_eq_some_iff.mp hnext
    have hi : i < data.length := by omega
    obtain ⟨peer, hpeer⟩ := mapM_byteAt data (show i + 5 < data.length by omega)
    obtain ⟨rest, hrest⟩ := compactLoop_of_ends hnext
    by_cases hzero : data[i] = 0
    · refine ⟨[], fun fuel hfuel => ?_⟩
      obtain ⟨fuel, rfl⟩ : ∃ f, fuel = f + 1 := ⟨fuel - 1, by omega⟩
      rw [compactLoop, byteAt_of_lt hi, hzero]
      rfl
    · refine ⟨compactPeer host peer :: rest, fun fuel hfuel => ?_⟩
      obtain ⟨fuel, rfl⟩ : ∃ f, fuel = f + 1 := ⟨fuel - 1, by omega⟩
      rw [compactLoop, byteAt_of_lt hi]
      simp [hzero, hpeer, hrest fuel (by omega), bind, Except.bind, pure, Except.pure]

/-- **The loop over the peers stays in the buffer exactly if it meets a zero byte there.** -/
theorem staysInside_iff {start : ℕ} : StaysInside host data start ↔ Ends data start := by
  constructor
  · rintro ⟨peers, h⟩
    exact ends_of_compactLoop (h (data.length + 1) (by omega))
  · rintro ⟨q, hq⟩
    obtain ⟨hlast, -⟩ := List.getElem?_eq_some_iff.mp hq
    obtain ⟨peers, h⟩ := compactLoop_of_ends host hq
    exact ⟨peers, fun fuel hfuel => h fuel (by omega)⟩

/-- The zero byte behind a text is met if a whole number of peers lies in front of it. -/
theorem ends_append_zero {text : List UInt8} {start : ℕ} (h : start ≤ text.length) :
    Ends (text ++ [0]) start ↔ 6 ∣ text.length - start ∨ Ends text start := by
  constructor
  · rintro ⟨q, hq⟩
    rcases Nat.lt_or_ge (start + 6 * q) text.length with hlt | hge
    · rw [List.getElem?_append_left hlt] at hq
      exact Or.inr ⟨q, hq⟩
    · obtain ⟨hlast, -⟩ := List.getElem?_eq_some_iff.mp hq
      rw [List.length_append, List.length_singleton] at hlast
      exact Or.inl ⟨q, by omega⟩
  · rintro (⟨q, hq⟩ | ⟨q, hq⟩)
    · refine ⟨q, ?_⟩
      have hpos : start + 6 * q = text.length := by omega
      rw [hpos, List.getElem?_append_right le_rfl, Nat.sub_self]
      rfl
    · obtain ⟨hlt, -⟩ := List.getElem?_eq_some_iff.mp hq
      exact ⟨q, by rw [List.getElem?_append_left hlt, hq]⟩

end CppTorrent.Tracker.Promise
