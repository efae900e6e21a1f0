import CppTorrent.Lib.Decimal
import CppTorrent.Lib.Runs

/-! # The table of the subscribers

`MasterPeer::peers_subscribers_` has one client for each address. `InitiateJob` and the listener make a
new client for every address they are given, known or not, and hand it to `Subscribe`; only a client
that gets into the table is started by `Process`, and only a started client has callbacks. A client
whose callbacks fail, late as they may come, ends in `Disconnect`, which takes the entry of its address
out of the table, whatever client that is.

A step is one call: a `Subscribe`, or what a callback of a client does. The clients are named by the
order in which they were made. `found` is not in the source: it records, for each `Unsubscribe`, the
client that calls it and the one that `at` finds. `consistent_run` says that it is always the same one,
and that the table has exactly the started clients that are not disconnected. -/

namespace CppTorrent.Swarm.Subscribers

open CppTorrent.Lib.Decimal CppTorrent.Lib.Runs

/-! ### Addresses -/

/-- What `IpToStr` writes after the first byte. -/
def dotted (bytes : List ℕ) : List UInt8 := bytes.flatMap fun b => 46 :: decimal b

/-- `IpToStr` for the bytes of an address, the highest first. -/
def joinBytes : List ℕ → List UInt8
  | [] => []
  | b :: bytes => decimal b ++ dotted bytes

/-- `IpToStr`. -/
def ipToStr (ip : ℕ) : List UInt8 := joinBytes (Nat.digits 256 ip).reverse

theorem stops_dotted (bytes : List ℕ) : Stops (dotted bytes) := by
  cases bytes with
  | nil => intro b hb; cases hb
  | cons b bytes => exact stops_cons (by decide)

theorem dotted_injective : Function.Injective dotted := by
  intro xs
  induction xs with
  | nil =>
    intro ys h
    cases ys with
    | nil => rfl
    | cons y ys => simp [dotted] at h
  | cons x xs ih =>
    intro ys h
    cases ys with
    | nil => simp [dotted] at h
    | cons y ys =>
      have htail : decimal x ++ dotted xs = decimal y ++ dotted ys := by simpa [dotted] using h
      obtain ⟨rfl, hrest⟩ := decimal_append_inj (stops_dotted xs) (stops_dotted ys) htail
      rw [ih hrest]

theorem joinBytes_injective : Function.Injective joinBytes := by
  intro xs ys h
  cases xs with
  | nil =>
    cases ys with
    | nil => rfl
    | cons y ys => exact absurd (List.append_eq_nil_iff.mp h.symm).1 (decimal_ne_nil y)
  | cons x xs =>
    cases ys with
    | nil => exact absurd (List.append_eq_nil_iff.mp h).1 (decimal_ne_nil x)
    | cons y ys =>
      obtain ⟨rfl, hrest⟩ := decimal_append_inj (stops_dotted xs) (stops_dotted ys) h
      rw [dotted_injective hrest]

/-- Two addresses are written the same only if they are the same. -/
theorem ipToStr_injective : Function.Injective ipToStr := by
  intro a b h
  have hdigits := List.reverse_injective (joinBytes_injective h)
  rw [← Nat.ofDigits_digits 256 a, hdigits, Nat.ofDigits_digits]

/-! ### The model -/

/-- `MAX_CONNECT_ATTEMPTS`. -/
def maxConnectAttempts : ℕ := 4

/-- `MAX_AVAILABLE_UNCHOKE_ONE_TIME`. -/
def maxAvailableUnchokeOneTime : ℕ := 35

/-- `network::PeerClient`. -/
structure Client where
  ip : ℕ
  /-- how often `Process` has been called on it -/
  processed : ℕ
  isDisconnected : Bool
  connectAttempts : ℕ
  amChoking : Bool
  peerChoking : Bool
  peerInterested : Bool

/-- A client that has just been constructed. -/
def newClient (ip : ℕ) : Client := ⟨ip, 0, false, maxConnectAttempts, true, true, false⟩

/-- The clients, and `bittorrent::MasterPeer`. -/
structure State where
  clients : ℕ → Client
  /-- how many clients have been made -/
  made : ℕ
  /-- `peers_subscribers_` -/
  subscribers : ℕ → Option ℕ
  availableUnchokeCount : ℕ
  /-- the callers of `Unsubscribe`, each with the client found -/
  found : List (ℕ × Option ℕ)

/-- A message about choking or interest, of the right size. -/
inductive Message where
  | choke
  | unchoke
  | interested
  | notInterested

/-- What can happen next. -/
inductive Event where
  /-- a client is made for an address, and subscribed -/
  | subscribe (ip : ℕ)
  /-- a callback of the client calls `try_again_connect` -/
  | connectionFailed (c : ℕ)
  /-- a callback of the client calls `Disconnect` -/
  | disconnect (c : ℕ)
  /-- the client handles a message -/
  | message (c : ℕ) (msg : Message)

/-- Changes one client. -/
def State.set (c : ℕ) (client : Client) (s : State) : State :=
  { s with clients := Function.update s.clients c client }

/-- Changes the entry of an address in the table. -/
def State.enter (ip : ℕ) (entry : Option ℕ) (s : State) : State :=
  { s with subscribers := Function.update s.subscribers ip entry }

/-- Records what a client finds in the table under its address. -/
def State.recordFound (c : ℕ) (s : State) : State :=
  { s with found := s.found ++ [(c, s.subscribers (s.clients c).ip)] }

/-- `std::make_shared<network::PeerClient>`. -/
def make (ip : ℕ) (s : State) : State := { s.set s.made (newClient ip) with made := s.made + 1 }

/-- `PeerClient::Process`, which only posts. -/
def process (c : ℕ) (s : State) : State :=
  s.set c { s.clients c with processed := (s.clients c).processed + 1 }

/-- `MasterPeer::Subscribe`. -/
def subscribe (own : ℕ) (c : ℕ) (s : State) : State :=
  if ipToStr (s.clients c).ip = ipToStr own then s
  else
    match s.subscribers (s.clients c).ip with
    | some _ => s
    | none => process c (s.enter (s.clients c).ip (some c))

/-- `MasterPeer::Unsubscribe`: `at` throws if there is no entry. -/
def unsubscribe (ip : ℕ) (s : State) : Option State :=
  (s.subscribers ip).map fun _ => s.enter ip none

/-- `PeerClient::Disconnect`: where `Unsubscribe` throws, the flag is not set. -/
def disconnect (c : ℕ) (s : State) : State :=
  if (s.clients c).isDisconnected then s
  else
    match unsubscribe (s.clients c).ip (s.recordFound c) with
    | none => s.recordFound c
    | some s1 => s1.set c { s1.clients c with isDisconnected := true }

/-- `--` on a `size_t`. -/
def decrement (n : ℕ) : ℕ := (n + (2 ^ 64 - 1)) % 2 ^ 64

/-- `PeerClient::try_again_connect`. -/
def tryAgainConnect (c : ℕ) (s : State) : State :=
  if (s.clients c).isDisconnected then s
  else
    let s1 := s.set c { s.clients c with connectAttempts := decrement (s.clients c).connectAttempts }
    if (s1.clients c).connectAttempts ≠ 0 then s1 else disconnect c s1

/-- `MasterPeer::CanUnchokePeer`. -/
def canUnchokePeer (ip : ℕ) (s : State) : Bool :=
  (s.subscribers ip).isSome && s.availableUnchokeCount != 0

/-- What `handle_response` and the strategy make of the flags of a client. -/
def handleMessage (c : ℕ) (s : State) : Message → Client
  | .choke => { s.clients c with peerChoking := true }
  | .unchoke => { s.clients c with peerChoking := false }
  | .interested =>
    if (s.clients c).amChoking && canUnchokePeer (s.clients c).ip s then
      { s.clients c with peerInterested := true, amChoking := false }
    else { s.clients c with peerInterested := true }
  | .notInterested =>
    if !(s.clients c).amChoking && (s.clients c).peerChoking then
      { s.clients c with peerInterested := false, amChoking := true }
    else { s.clients c with peerInterested := false }

/-- One step, for the address of the master peer. A client that has not been started has no callbacks. -/
def step (own : ℕ) (s : State) : Event → Option State
  | .subscribe ip => some (subscribe own s.made (make ip s))
  | .connectionFailed c => if 0 < (s.clients c).processed then some (tryAgainConnect c s) else none
  | .disconnect c => if 0 < (s.clients c).processed then some (disconnect c s) else none
  | .message c msg =>
    if 0 < (s.clients c).processed then some (s.set c (handleMessage c s msg)) else none

/-- No client has been made. -/
def init : State := ⟨fun _ => newClient 0, 0, fun _ => none, maxAvailableUnchokeOneTime, []⟩

/-- `MasterPeer::InitiateJob`. -/
def initiateJob (peers : List ℕ) : List Event := peers.map .subscribe

/-! ### The invariant -/

/-- A started client that is not disconnected. -/
def Live (s : State) (c : ℕ) : Prop :=
  0 < (s.clients c).processed ∧ (s.clients c).isDisconnected = false

/-- The table has the live clients under their addresses. -/
structure Tabled (s : State) : Prop where
  /-- a client still to be made has not been started -/
  fresh : ∀ c, s.made ≤ c → (s.clients c).processed = 0
  stored : ∀ ip c, s.subscribers ip = some c ↔ Live s c ∧ (s.clients c).ip = ip
  once : ∀ c, (s.clients c).processed ≤ 1
  found : ∀ x ∈ s.found, x.2 = some x.1

variable {own : ℕ} {s s' : State} {c : ℕ}

@[simp] theorem set_clients_self (c : ℕ) (client : Client) (s : State) :
    (s.set c client).clients c = client := Function.update_self _ _ _

theorem set_clients_of_ne {d : ℕ} (h : d ≠ c) (client : Client) :
    (s.set c client).clients d = s.clients d := Function.update_of_ne h _ _

theorem tabled_init : Tabled init where
  fresh _ _ := rfl
  stored ip c := by simp [init, newClient, Live]
  once _ := Nat.zero_le 1
  found x hx := by cases hx

/-- A change of the flags of a client, or of the attempts left to it. -/
theorem Tabled.set (h : Tabled s) {client : Client} (hip : client.ip = (s.clients c).ip)
    (hprocessed : client.processed = (s.clients c).processed)
    (hdisconnected : client.isDisconnected = (s.clients c).isDisconnected) :
    Tabled (s.set c client) := by
  have hsame : ∀ d, ((s.set c client).clients d).ip = (s.clients d).ip ∧
      ((s.set c client).clients d).processed = (s.clients d).processed ∧
      ((s.set c client).clients d).isDisconnected = (s.clients d).isDisconnected := by
    intro d
    by_cases hd : d = c
    · subst hd
      rw [set_clients_self]
      exact ⟨hip, hprocessed, hdisconnected⟩
    · rw [set_clients_of_ne hd]
      exact ⟨rfl, rfl, rfl⟩
  refine ⟨fun d hd => ?_, fun ip d => ?_, fun d => ?_, h.found⟩
  · rw [(hsame d).2.1]
    exact h.fresh d hd
  · unfold Live
    rw [(hsame d).1, (hsame d).2.1, (hsame d).2.2]
    exact h.stored ip d
  · rw [(hsame d).2.1]
    exact h.once d

/-- A client that has not been started is not in the table. -/
theorem Tabled.not_stored (h : Tabled s) (hprocessed : (s.clients c).processed = 0) (ip : ℕ) :
    s.subscribers ip ≠ some c := by
  intro hstored
  have hlive := ((h.stored ip c).mp hstored).1
  rw [Live, hprocessed] at hlive
  exact absurd hlive.1 (Nat.lt_irrefl 0)

/-! ### Making and starting -/

theorem tabled_make (h : Tabled s) (ip : ℕ) : Tabled (make ip s) := by
  have hold : ∀ d, d ≠ s.made → (make ip s).clients d = s.clients d := fun d hd =>
    set_clients_of_ne hd _
  have hnew : (make ip s).clients s.made = newClient ip := set_clients_self _ _ _
  refine ⟨fun d hd => ?_, fun ip' d => ?_, fun d => ?_, h.found⟩
  · have hlt : s.made < d := hd
    rw [hold d (by omega)]
    exact h.fresh d hlt.le
  · by_cases hd : d = s.made
    · subst hd
      unfold Live
      rw [hnew]
      exact iff_of_false (h.not_stored (h.fresh _ le_rfl) ip') fun hlive =>
        absurd hlive.1.1 (Nat.lt_irrefl 0)
    · unfold Live
      rw [hold d hd]
      exact h.stored ip' d
  · by_cases hd : d = s.made
    · subst hd
      rw [hnew]
      exact Nat.zero_le 1
    · rw [hold d hd]
      exact h.once d

/-- What `Subscribe` does: nothing, or it starts the client and puts it into the table. -/
theorem subscribe_cases (own c : ℕ) (s : State) :
    subscribe own c s = s ∨ (s.subscribers (s.clients c).ip = none ∧
      subscribe own c s = process c (s.enter (s.clients c).ip (some c))) := by
  unfold subscribe
  split_ifs
  · exact Or.inl rfl
  · split
    · exact Or.inl rfl
    · next hnone => exact Or.inr ⟨hnone, rfl⟩

theorem tabled_subscribe (h : Tabled s) (hprocessed : (s.clients c).processed = 0)
    (hmade : c < s.made) (hdisconnected : (s.clients c).isDisconnected = false) :
    Tabled (subscribe own c s) := by
  rcases subscribe_cases own c s with hsame | ⟨hnone, hnew⟩
  · rw [hsame]
    exact h
  rw [hnew]
  have hself : (process c (s.enter (s.clients c).ip (some c))).clients c =
      { s.clients c with processed := 1 } := by
    unfold process
    rw [set_clients_self]
    change { s.clients c with processed := (s.clients c).processed + 1 } = _
    rw [hprocessed]
  have hother : ∀ d, d ≠ c →
      (process c (s.enter (s.clients c).ip (some c))).clients d = s.clients d := fun d hd =>
    set_clients_of_ne hd _
  refine ⟨fun d hd => ?_, fun ip d => ?_, fun d => ?_, h.found⟩
  · have hle : s.made ≤ d := hd
    rw [hother d (by omega)]
    exact h.fresh d hle
  · -- the entry of the address is the new one, the others are as before
    change Function.update s.subscribers (s.clients c).ip (some c) ip = some d ↔ _
    simp only [Function.update_apply]
    by_cases hd : d = c
    · subst hd
      unfold Live
      rw [hself]
      split_ifs with hip
      · exact iff_of_true rfl ⟨⟨Nat.zero_lt_one, hdisconnected⟩, hip.symm⟩
      · exact iff_of_false (h.not_stored hprocessed ip) fun hlive => hip hlive.2.symm
    · unfold Live
      rw [hother d hd]
      split_ifs with hip
      · subst hip
        refine iff_of_false (fun hsome => hd (Option.some.inj hsome).symm) fun hlive => ?_
        rw [(h.stored _ d).mpr hlive] at hnone
        cases hnone
      · exact h.stored ip d
  · by_cases hd : d = c
    · subst hd
      rw [hself]
    · rw [hother d hd]
      exact h.once d

/-! ### Leaving -/

/-- **The entry that a live client takes out of the table is its own.** -/
theorem disconnect_live (h : Tabled s) (hlive : Live s c) :
    disconnect c s = ((s.recordFound c).enter (s.clients c).ip none).set c
      { s.clients c with isDisconnected := true } ∧
    (s.recordFound c).found = s.found ++ [(c, some c)] := by
  have hstored := (h.stored _ c).mpr ⟨hlive, rfl⟩
  have hleave : unsubscribe (s.clients c).ip (s.recordFound c) =
      some ((s.recordFound c).enter (s.clients c).ip none) := by
    unfold unsubscribe
    change (s.subscribers (s.clients c).ip).map _ = _
    rw [hstored]
    rfl
  constructor
  · unfold disconnect
    rw [if_neg (by simp [hlive.2]), hleave]
    rfl
  · unfold State.recordFound
    rw [hstored]

theorem tabled_disconnect (h : Tabled s) (hprocessed : 0 < (s.clients c).processed) :
    Tabled (disconnect c s) := by
  cases hdisconnected : (s.clients c).isDisconnected with
  | true =>
    unfold disconnect
    rw [if_pos hdisconnected]
    exact h
  | false =>
    have hlive : Live s c := ⟨hprocessed, hdisconnected⟩
    obtain ⟨heq, hfound⟩ := disconnect_live h hlive
    rw [heq]
    have hother : ∀ d, d ≠ c → (((s.recordFound c).enter (s.clients c).ip none).set c
        { s.clients c with isDisconnected := true }).clients d = s.clients d := fun d hd =>
      set_clients_of_ne hd _
    refine ⟨fun d hd => ?_, fun ip d => ?_, fun d => ?_, fun x hx => ?_⟩
    · have hne : d ≠ c := by
        rintro rfl
        have hzero := h.fresh _ hd
        omega
      rw [hother d hne]
      exact h.fresh d hd
    · change Function.update s.subscribers (s.clients c).ip none ip = some d ↔ _
      simp only [Function.update_apply]
      by_cases hd : d = c
      · subst hd
        unfold Live
        rw [set_clients_self]
        refine iff_of_false (fun hstored => ?_) fun hl => Bool.noConfusion hl.1.2
        split_ifs at hstored with hip
        exact hip ((h.stored ip _).mp hstored).2.symm
      · unfold Live
        rw [hother d hd]
        split_ifs with hip
        · -- no other live client has the address
          subst hip
          refine iff_of_false (fun hsome => by cases hsome) fun hl => hd ?_
          have hown := (h.stored _ c).mpr ⟨hlive, rfl⟩
          rw [(h.stored _ d).mpr hl] at hown
          exact Option.some.inj hown
        · exact h.stored ip d
    · by_cases hd : d = c
      · subst hd
        rw [set_clients_self]
        exact h.once d
      · rw [hother d hd]
        exact h.once d
    · change x ∈ (s.recordFound c).found at hx
      rw [hfound] at hx
      rcases List.mem_append.mp hx with hx | hx
      · exact h.found x hx
      · rw [List.mem_singleton.mp hx]

theorem tabled_tryAgainConnect (h : Tabled s) (hprocessed : 0 < (s.clients c).processed) :
    Tabled (tryAgainConnect c s) := by
  have hset : Tabled (s.set c
      { s.clients c with connectAttempts := decrement (s.clients c).connectAttempts }) :=
    h.set rfl rfl rfl
  unfold tryAgainConnect
  split_ifs with hdisconnected
  · exact h
  · dsimp only
    split_ifs
    · exact hset
    · exact tabled_disconnect hset (by rw [set_clients_self]; exact hprocessed)

/-! ### The runs -/

theorem handleMessage_same (c : ℕ) (s : State) (msg : Message) :
    (handleMessage c s msg).ip = (s.clients c).ip ∧
      (handleMessage c s msg).processed = (s.clients c).processed ∧
      (handleMessage c s msg).isDisconnected = (s.clients c).isDisconnected ∧
      (handleMessage c s msg).connectAttempts = (s.clients c).connectAttempts := by
  cases msg with
  | choke => exact ⟨rfl, rfl, rfl, rfl⟩
  | unchoke => exact ⟨rfl, rfl, rfl, rfl⟩
  | interested =>
    unfold handleMessage
    split_ifs <;> exact ⟨rfl, rfl, rfl, rfl⟩
  | notInterested =>
    unfold handleMessage
    split_ifs <;> exact ⟨rfl, rfl, rfl, rfl⟩

/-- **Every call keeps the table in step with the clients.** -/
theorem tabled_step (e : Event) (h : Tabled s) (hs : step own s e = some s') : Tabled s' := by
  cases e with
  | subscribe ip =>
    cases hs
    have hnew : (make ip s).clients s.made = newClient ip := set_clients_self _ _ _
    exact tabled_subscribe (tabled_make h ip) (by rw [hnew]; rfl) (Nat.lt_succ_self _)
      (by rw [hnew]; rfl)
  | connectionFailed c =>
    simp only [step] at hs
    split_ifs at hs with hprocessed
    cases hs
    exact tabled_tryAgainConnect h hprocessed
  | disconnect c =>
    simp only [step] at hs
    split_ifs at hs with hprocessed
    cases hs
    exact tabled_disconnect h hprocessed
  | message c msg =>
    simp only [step] at hs
    split_ifs at hs with hprocessed
    cases hs
    obtain ⟨hip, hsame, hdisconnected, -⟩ := handleMessage_same c s msg
    exact h.set hip hsame hdisconnected

theorem tabled_run {es : List Event} (h : run (step own) init es = some s) : Tabled s :=
  invariant_of_run Tabled (fun _ _ => True) (fun _ e _ hi _ hs => tabled_step e hi hs) tabled_init
    (along_true _ _) h

/-! ### The attempts -/

/-- A client that is not disconnected has attempts left. -/
def Attempting (s : State) : Prop :=
  ∀ c, (s.clients c).isDisconnected = false →
    1 ≤ (s.clients c).connectAttempts ∧ (s.clients c).connectAttempts ≤ maxConnectAttempts

theorem decrement_of_pos {n : ℕ} (hpos : 1 ≤ n) (hle : n ≤ maxConnectAttempts) :
    decrement n = n - 1 := by
  unfold maxConnectAttempts at hle
  unfold decrement
  omega

theorem newClient_attempts (ip : ℕ) :
    1 ≤ (newClient ip).connectAttempts ∧ (newClient ip).connectAttempts ≤ maxConnectAttempts :=
  ⟨Nat.le_add_left 1 3, le_rfl⟩

/-- Only one client is changed. -/
theorem Attempting.of_others (h : Attempting s) (c : ℕ)
    (hothers : ∀ d, d ≠ c → s'.clients d = s.clients d)
    (hself : (s'.clients c).isDisconnected = false →
      1 ≤ (s'.clients c).connectAttempts ∧ (s'.clients c).connectAttempts ≤ maxConnectAttempts) :
    Attempting s' := by
  intro d hd
  by_cases hdc : d = c
  · subst hdc
    exact hself hd
  · rw [hothers d hdc] at hd ⊢
    exact h d hd

theorem attempting_disconnect (h : Attempting s) (htabled : Tabled s)
    (hprocessed : 0 < (s.clients c).processed) : Attempting (disconnect c s) := by
  cases hdisconnected : (s.clients c).isDisconnected with
  | true =>
    unfold disconnect
    rw [if_pos hdisconnected]
    exact h
  | false =>
    rw [(disconnect_live htabled ⟨hprocessed, hdisconnected⟩).1]
    refine h.of_others c (fun d hd => set_clients_of_ne hd _) fun hfalse => ?_
    rw [set_clients_self] at hfalse
    cases hfalse

/-- The counter does not wrap: the last attempt disconnects the client. -/
theorem attempting_tryAgainConnect (h : Attempting s) (htabled : Tabled s)
    (hprocessed : 0 < (s.clients c).processed) : Attempting (tryAgainConnect c s) := by
  unfold tryAgainConnect
  split_ifs with hdisconnected
  · exact h
  have hlive : (s.clients c).isDisconnected = false := by simpa using hdisconnected
  obtain ⟨hpos, hle⟩ := h c hlive
  have hdecrement := decrement_of_pos hpos hle
  dsimp only
  rw [set_clients_self]
  split_ifs with hleft
  · refine h.of_others c (fun d hd => set_clients_of_ne hd _) fun _ => ?_
    rw [set_clients_self]
    dsimp only at hleft ⊢
    omega
  · -- only this client has no attempts left, and it is disconnected
    have hset : Tabled (s.set c
        { s.clients c with connectAttempts := decrement (s.clients c).connectAttempts }) :=
      htabled.set rfl rfl rfl
    rw [(disconnect_live hset ⟨by rw [set_clients_self]; exact hprocessed,
      by rw [set_clients_self]; exact hlive⟩).1]
    refine h.of_others c (fun d hd => ?_) fun hfalse => ?_
    · rw [set_clients_of_ne hd]
      exact set_clients_of_ne hd _
    · rw [set_clients_self] at hfalse
      cases hfalse

theorem attempting_step (e : Event) (htabled : Tabled s) (h : Attempting s)
    (hs : step own s e = some s') : Attempting s' := by
  cases e with
  | subscribe ip =>
    cases hs
    have hmake : Attempting (make ip s) :=
      h.of_others s.made (fun d hd => set_clients_of_ne hd _) fun _ => by
        change 1 ≤ ((s.set s.made (newClient ip)).clients s.made).connectAttempts ∧
          ((s.set s.made (newClient ip)).clients s.made).connectAttempts ≤ maxConnectAttempts
        rw [set_clients_self]
        exact newClient_attempts ip
    rcases subscribe_cases own s.made (make ip s) with hsame | ⟨-, hnew⟩
    · rw [hsame]
      exact hmake
    · rw [hnew]
      refine hmake.of_others s.made (fun d hd => set_clients_of_ne hd _) fun hd => ?_
      unfold process at hd ⊢
      rw [set_clients_self] at hd ⊢
      exact hmake s.made hd
  | connectionFailed c =>
    simp only [step] at hs
    split_ifs at hs with hprocessed
    cases hs
    exact attempting_tryAgainConnect h htabled hprocessed
  | disconnect c =>
    simp only [step] at hs
    split_ifs at hs with hprocessed
    cases hs
    exact attempting_disconnect h htabled hprocessed
  | message c msg =>
    simp only [step] at hs
    split_ifs at hs with hprocessed
    cases hs
    obtain ⟨-, -, hdisconnected, hattempts⟩ := handleMessage_same c s msg
    refine h.of_others c (fun d hd => set_clients_of_ne hd _) fun hd => ?_
    rw [set_clients_self] at hd ⊢
    rw [hattempts]
    exact h c (hdisconnected ▸ hd)

/-- **In every state of every run a client that is not disconnected has attempts left.** -/
theorem attempting_run {es : List Event} (h : run (step own) init es = some s) : Attempting s := by
  have hboth : Tabled s ∧ Attempting s :=
    invariant_of_run (fun s => Tabled s ∧ Attempting s) (fun _ _ => True)
      (fun _ e _ hi _ hs => ⟨tabled_step e hi.1 hs, attempting_step e hi.1 hi.2 hs⟩)
      ⟨tabled_init, fun _ _ => newClient_attempts 0⟩ (along_true _ _) h
  exact hboth.2

/-! ### The table -/

/-- What the master peer and the clients rely on. -/
structure Consistent (s : State) : Prop where
  /-- an address has at most one live client -/
  single : ∀ c d, Live s c → Live s d → (s.clients c).ip = (s.clients d).ip → c = d
  /-- which is the one in the table -/
  stored : ∀ c, Live s c → s.subscribers (s.clients c).ip = some c
  /-- `Process` is called at most once on a client -/
  once : ∀ c, (s.clients c).processed ≤ 1
  /-- whenever a client has called `Unsubscribe`, `at` has found this client -/
  found : ∀ c entry, (c, entry) ∈ s.found → entry = some c

/-- **Every address has at most one live client, and a client only ever removes itself.** -/
theorem consistent_run {es : List Event} (h : run (step own) init es = some s) : Consistent s := by
  have htabled := tabled_run h
  refine ⟨fun c d hc hd hip => ?_, fun c hc => (htabled.stored _ c).mpr ⟨hc, rfl⟩, htabled.once,
    fun c entry hfound => htabled.found _ hfound⟩
  -- both are the entry of their address
  have hentry := (htabled.stored _ c).mpr ⟨hc, rfl⟩
  rw [hip, (htabled.stored _ d).mpr ⟨hd, rfl⟩] at hentry
  exact (Option.some.inj hentry).symm

/-- The tracker gives an address twice, its client fails and leaves, a new client takes the address, and
then a late callback of the first one fails. -/
theorem consistent_run_twice :
    ∃ s, run (step 0) init (initiateJob [5, 5, 7] ++ [.disconnect 0, .subscribe 5, .connectionFailed 0,
        .disconnect 0, .disconnect 2]) = some s ∧
      s.subscribers 5 = some 3 ∧ s.found = [(0, some 0), (2, some 2)] ∧ Consistent s := by
  have hrun : ∃ s, run (step 0) init (initiateJob [5, 5, 7] ++ [.disconnect 0, .subscribe 5,
      .connectionFailed 0, .disconnect 0, .disconnect 2]) = some s ∧
      s.subscribers 5 = some 3 ∧ s.found = [(0, some 0), (2, some 2)] := ⟨_, rfl, rfl, rfl⟩
  obtain ⟨s, hs, hsub, hfound⟩ := hrun
  exact ⟨s, hs, hsub, hfound, consistent_run hs⟩

end CppTorrent.Swarm.Subscribers
