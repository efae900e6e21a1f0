import CppTorrent.Swarm.Subscribers

/-! # The unchoke slots

A peer that becomes interested is unchoked if `CanUnchokePeer` allows it. The master peer counts the
slots that are left in `available_unchoke_count_`, which nothing ever changes (`available_step`): so
every interested subscriber is unchoked, and the number of those that are has no bound
(`crowd_unchoked`). It stays within the limit exactly as long as no interested message comes in when
all slots are taken (`limited_throughout_iff`). -/

namespace CppTorrent.Swarm.UnchokeSlots

open CppTorrent.Lib.Runs CppTorrent.Swarm.Subscribers

/-- The subscribed clients that this client is not choking. -/
def unchoked (s : State) : Finset ℕ :=
  (Finset.range s.made).filter fun c =>
    s.subscribers (s.clients c).ip = some c ∧ (s.clients c).amChoking = false

/-- The slots are not exceeded. -/
def Limited (s : State) : Prop := (unchoked s).card ≤ maxAvailableUnchokeOneTime

/-- The condition on a step: a choked subscriber becomes interested only while a slot is left. -/
def Spare (s : State) : Event → Prop
  | .message c .interested => s.subscribers (s.clients c).ip = some c → (s.clients c).amChoking = true →
    (unchoked s).card < maxAvailableUnchokeOneTime
  | _ => True

variable {own : ℕ} {s s' : State} {c : ℕ}

/-! ### The counter -/

theorem available_disconnect (c : ℕ) (s : State) :
    (disconnect c s).availableUnchokeCount = s.availableUnchokeCount := by
  unfold disconnect unsubscribe
  split_ifs
  · rfl
  · cases (s.recordFound c).subscribers (s.clients c).ip <;> rfl

/-- **Nothing changes the counter of the slots.** -/
theorem available_step (e : Event) (hs : step own s e = some s') :
    s'.availableUnchokeCount = s.availableUnchokeCount := by
  cases e with
  | subscribe ip =>
    cases hs
    rcases subscribe_cases own s.made (make ip s) with hsame | ⟨-, hnew⟩
    · rw [hsame]
      rfl
    · rw [hnew]
      rfl
  | connectionFailed c =>
    simp only [step] at hs
    split_ifs at hs
    cases hs
    unfold tryAgainConnect
    split_ifs
    · rfl
    · dsimp only
      split_ifs
      · rfl
      · exact available_disconnect c _
  | disconnect c =>
    simp only [step] at hs
    split_ifs at hs
    cases hs
    exact available_disconnect c s
  | message c msg =>
    simp only [step] at hs
    split_ifs at hs
    cases hs
    rfl

/-! ### What a step does to the slots -/

/-- The slots are those of the live clients that are not choked. -/
theorem mem_unchoked (h : Tabled s) :
    c ∈ unchoked s ↔ Live s c ∧ (s.clients c).amChoking = false := by
  have hlive : s.subscribers (s.clients c).ip = some c ↔ Live s c := by
    rw [h.stored]
    exact and_iff_left rfl
  simp only [unchoked, Finset.mem_filter, Finset.mem_range, hlive]
  refine and_iff_right_of_imp fun hc => ?_
  by_contra hmade
  have hzero := h.fresh c (not_lt.mp hmade)
  have hpos := hc.1.1
  omega

/-- No client gets a slot. -/
def Calm (s s' : State) : Prop :=
  ∀ c, Live s' c → (s'.clients c).amChoking = false → Live s c ∧ (s.clients c).amChoking = false

theorem Calm.card_le (hcalm : Calm s s') (h : Tabled s) (h' : Tabled s') :
    (unchoked s').card ≤ (unchoked s).card := by
  refine Finset.card_le_card fun c hc => ?_
  obtain ⟨hlive, hchoking⟩ := (mem_unchoked h').mp hc
  exact (mem_unchoked h).mpr (hcalm c hlive hchoking)

/-- Only one client is changed, and it is choked, or gone, or as it was. -/
theorem Calm.of_others (c : ℕ) (hothers : ∀ d, d ≠ c → s'.clients d = s.clients d)
    (hself : Live s' c → (s'.clients c).amChoking = false →
      Live s c ∧ (s.clients c).amChoking = false) : Calm s s' := by
  intro d hlive hchoking
  by_cases hd : d = c
  · subst hd
    exact hself hlive hchoking
  · unfold Live at hlive ⊢
    rw [hothers d hd] at hlive hchoking
    exact ⟨hlive, hchoking⟩

/-- `Disconnect` changes no client but its own, and that one only in its flag. -/
theorem disconnect_clients (c : ℕ) (s : State) :
    (∀ d, d ≠ c → (disconnect c s).clients d = s.clients d) ∧
      ((disconnect c s).clients c = s.clients c ∨ ((disconnect c s).clients c).isDisconnected = true) := by
  unfold disconnect unsubscribe
  split_ifs
  · exact ⟨fun _ _ => rfl, Or.inl rfl⟩
  · cases (s.recordFound c).subscribers (s.clients c).ip with
    | none => exact ⟨fun _ _ => rfl, Or.inl rfl⟩
    | some d =>
      simp only [Option.map_some]
      refine ⟨fun d hd => ?_, Or.inr ?_⟩
      · rw [set_clients_of_ne hd]
        rfl
      · rw [set_clients_self]

theorem calm_disconnect (c : ℕ) (s : State) : Calm s (disconnect c s) := by
  obtain ⟨hothers, hself | hgone⟩ := disconnect_clients c s
  · refine Calm.of_others c hothers fun hlive hchoking => ?_
    unfold Live at hlive
    rw [hself] at hlive hchoking
    exact ⟨hlive, hchoking⟩
  · refine Calm.of_others c hothers fun hlive _ => ?_
    rw [Live, hgone] at hlive
    exact Bool.noConfusion hlive.2

theorem calm_set {client : Client} (hprocessed : client.processed = (s.clients c).processed)
    (hdisconnected : client.isDisconnected = (s.clients c).isDisconnected)
    (hchoking : Live s c → client.amChoking = false → (s.clients c).amChoking = false) :
    Calm s (s.set c client) := by
  refine Calm.of_others c (fun d hd => set_clients_of_ne hd _) fun hlive hself => ?_
  unfold Live at hlive
  rw [set_clients_self, hprocessed, hdisconnected] at hlive
  rw [set_clients_self] at hself
  exact ⟨hlive, hchoking hlive hself⟩

theorem calm_tryAgainConnect (c : ℕ) (s : State) : Calm s (tryAgainConnect c s) := by
  unfold tryAgainConnect
  split_ifs
  · exact fun _ hlive hchoking => ⟨hlive, hchoking⟩
  · have hset : Calm s (s.set c
        { s.clients c with connectAttempts := decrement (s.clients c).connectAttempts }) :=
      calm_set rfl rfl fun _ hchoking => hchoking
    dsimp only
    split_ifs
    · exact hset
    · intro d hlive hchoking
      obtain ⟨hlive, hchoking⟩ := calm_disconnect c _ d hlive hchoking
      exact hset d hlive hchoking

/-- A new client is choked. -/
theorem calm_subscribe (own ip : ℕ) (s : State) : Calm s (subscribe own s.made (make ip s)) := by
  have hmake : ∀ d, d ≠ s.made → (make ip s).clients d = s.clients d := fun d hd =>
    set_clients_of_ne hd _
  have hnew : (make ip s).clients s.made = newClient ip := set_clients_self _ _ _
  rcases subscribe_cases own s.made (make ip s) with hsame | ⟨-, hstart⟩
  · rw [hsame]
    refine Calm.of_others s.made hmake fun _ hchoking => ?_
    rw [hnew] at hchoking
    cases hchoking
  · rw [hstart]
    refine Calm.of_others s.made (fun d hd => ?_) fun _ hchoking => ?_
    · unfold process
      rw [set_clients_of_ne hd]
      exact hmake d hd
    · unfold process at hchoking
      rw [set_clients_self] at hchoking
      change ((make ip s).clients s.made).amChoking = false at hchoking
      rw [hnew] at hchoking
      cases hchoking

/-- What an interested message makes of a choked subscriber, whatever the number of slots taken. -/
theorem handleMessage_interested (hlive : s.subscribers (s.clients c).ip = some c)
    (havailable : s.availableUnchokeCount = maxAvailableUnchokeOneTime)
    (hchoking : (s.clients c).amChoking = true) :
    handleMessage c s .interested =
      { s.clients c with peerInterested := true, amChoking := false } := by
  unfold handleMessage canUnchokePeer
  rw [hlive, havailable, hchoking]
  rfl

/-- **A choked subscriber that becomes interested takes a slot.** -/
theorem card_interested (h : Tabled s) (hlive : Live s c)
    (havailable : s.availableUnchokeCount = maxAvailableUnchokeOneTime)
    (hchoking : (s.clients c).amChoking = true) :
    (unchoked (s.set c (handleMessage c s .interested))).card = (unchoked s).card + 1 := by
  have hstored := (h.stored _ c).mpr ⟨hlive, rfl⟩
  have hsame := handleMessage_same c s .interested
  have h' : Tabled (s.set c (handleMessage c s .interested)) := h.set hsame.1 hsame.2.1 hsame.2.2.1
  have hinsert : unchoked (s.set c (handleMessage c s .interested)) = insert c (unchoked s) := by
    ext d
    rw [mem_unchoked h', Finset.mem_insert, mem_unchoked h]
    by_cases hd : d = c
    · subst hd
      refine iff_of_true ⟨?_, ?_⟩ (Or.inl rfl)
      · unfold Live
        rw [set_clients_self, hsame.2.1, hsame.2.2.1]
        exact hlive
      · rw [set_clients_self, handleMessage_interested hstored havailable hchoking]
    · unfold Live
      rw [set_clients_of_ne hd]
      exact (or_iff_right hd).symm
  rw [hinsert, Finset.card_insert_of_notMem]
  intro hmem
  have hfalse := ((mem_unchoked h).mp hmem).2
  rw [hchoking] at hfalse
  cases hfalse

theorem calm_message (msg : Message)
    (hmsg : msg = .interested → ¬ (Live s c ∧ (s.clients c).amChoking = true)) :
    Calm s (s.set c (handleMessage c s msg)) := by
  obtain ⟨-, hprocessed, hdisconnected, -⟩ := handleMessage_same c s msg
  refine calm_set hprocessed hdisconnected fun hlive hchoking => ?_
  cases hold : (s.clients c).amChoking with
  | false => rfl
  | true =>
    cases msg with
    | interested => exact absurd ⟨hlive, hold⟩ (hmsg rfl)
    | choke => exact hold.symm.trans hchoking
    | unchoke => exact hold.symm.trans hchoking
    | notInterested =>
      unfold handleMessage at hchoking
      rw [hold] at hchoking
      exact hold.symm.trans hchoking

/-! ### The runs -/

/-- What holds in every state. -/
structure Inv (s : State) : Prop where
  tabled : Tabled s
  available : s.availableUnchokeCount = maxAvailableUnchokeOneTime

theorem inv_init : Inv init := ⟨tabled_init, rfl⟩

theorem inv_step (e : Event) (h : Inv s) (hs : step own s e = some s') : Inv s' :=
  ⟨tabled_step e h.tabled hs, (available_step e hs).trans h.available⟩

/-- A step keeps within the limit exactly if it is not an unchoke too many. -/
theorem limited_step_iff (e : Event) (h : Inv s) (hlimited : Limited s)
    (hs : step own s e = some s') : Limited s' ↔ Spare s e := by
  have h' : Inv s' := inv_step e h hs
  have hcalm : Calm s s' → Limited s' := fun hc => (hc.card_le h.tabled h'.tabled).trans hlimited
  cases e with
  | subscribe ip =>
    cases hs
    exact iff_of_true (hcalm (calm_subscribe own ip s)) trivial
  | connectionFailed c =>
    simp only [step] at hs
    split_ifs at hs
    cases hs
    exact iff_of_true (hcalm (calm_tryAgainConnect c s)) trivial
  | disconnect c =>
    simp only [step] at hs
    split_ifs at hs
    cases hs
    exact iff_of_true (hcalm (calm_disconnect c s)) trivial
  | message c msg =>
    simp only [step] at hs
    split_ifs at hs
    cases hs
    by_cases hmsg : msg = .interested → ¬ (Live s c ∧ (s.clients c).amChoking = true)
    · refine iff_of_true (hcalm (calm_message msg hmsg)) ?_
      cases msg with
      | interested =>
        intro hstored hchoking
        exact absurd ⟨((h.tabled.stored _ c).mp hstored).1, hchoking⟩ (hmsg rfl)
      | choke => trivial
      | unchoke => trivial
      | notInterested => trivial
    · push Not at hmsg
      obtain ⟨rfl, hlive, hchoking⟩ := hmsg
      have hstored := (h.tabled.stored _ c).mpr ⟨hlive, rfl⟩
      unfold Limited
      rw [card_interested h.tabled hlive h.available hchoking]
      exact ⟨fun hle _ _ => hle, fun hspare => hspare hstored hchoking⟩

/-- **A run keeps within the limit exactly if every choked subscriber that becomes interested finds a
slot left.** -/
theorem limited_throughout_iff {es : List Event} :
    Throughout (step own) Limited init es ↔ Along (step own) Spare init es := by
  have hboth : Throughout (step own) (fun s => Inv s ∧ Limited s) init es ↔
      Along (step own) Spare init es := by
    refine throughout_iff (fun s e s' hi hs => ?_) ⟨inv_init, ?_⟩
    · rw [and_iff_right (inv_step e hi.1 hs)]
      exact limited_step_iff e hi.1 hi.2 hs
    · exact Nat.zero_le _
  rw [← hboth]
  refine forall_congr' fun k => forall_congr' fun s => forall_congr' fun hrun => ?_
  have hinv : Inv s := invariant_of_run Inv (fun _ _ => True) (fun _ e _ hi _ hs => inv_step e hi hs)
    inv_init (along_true _ _) hrun
  exact (and_iff_right hinv).symm

/-! ### A crowd -/

/-- A number of peers connect, and each becomes interested. -/
def crowd (n : ℕ) : List Event :=
  (List.range n).flatMap fun i => [.subscribe (i + 1), .message i .interested]

theorem crowd_succ (n : ℕ) :
    crowd (n + 1) = crowd n ++ [.subscribe (n + 1), .message n .interested] := by
  simp [crowd, List.range_succ]

/-- A new client of a new address gets into the table. -/
theorem subscribe_new (own : ℕ) (h : Inv s) {ip : ℕ} (hip : ip ≠ own) (hfree : s.subscribers ip = none) :
    Live (subscribe own s.made (make ip s)) s.made ∧
      ((subscribe own s.made (make ip s)).clients s.made).amChoking = true ∧
      (subscribe own s.made (make ip s)).made = s.made + 1 ∧
      (subscribe own s.made (make ip s)).subscribers = Function.update s.subscribers ip (some s.made) ∧
      (unchoked s).card ≤ (unchoked (subscribe own s.made (make ip s))).card := by
  have hnew : (make ip s).clients s.made = newClient ip := set_clients_self _ _ _
  have hstr : ipToStr ip ≠ ipToStr own := fun heq => hip (ipToStr_injective heq)
  have heq : subscribe own s.made (make ip s) = process s.made ((make ip s).enter ip (some s.made)) := by
    have hip' : ((make ip s).clients s.made).ip = ip := congrArg Client.ip hnew
    have hfree' : (make ip s).subscribers ip = none := hfree
    unfold subscribe
    rw [hip', if_neg hstr, hfree']
  have hself : (subscribe own s.made (make ip s)).clients s.made =
      { newClient ip with processed := 1 } := by
    rw [heq]
    unfold process
    rw [set_clients_self]
    change { (make ip s).clients s.made with processed := ((make ip s).clients s.made).processed + 1 } = _
    rw [hnew]
    rfl
  have h' : Inv (subscribe own s.made (make ip s)) :=
    inv_step (.subscribe ip) h (show step own s _ = some _ from rfl)
  refine ⟨?_, by rw [hself]; rfl, by rw [heq]; rfl, by rw [heq]; rfl, ?_⟩
  · unfold Live
    rw [hself]
    exact ⟨Nat.zero_lt_one, rfl⟩
  · refine Finset.card_le_card fun d hd => ?_
    rw [mem_unchoked h'.tabled]
    rw [mem_unchoked h.tabled] at hd
    have hne : d ≠ s.made := by
      rintro rfl
      have hzero := h.tabled.fresh _ le_rfl
      have hpos := hd.1.1
      omega
    have hsame : (subscribe own s.made (make ip s)).clients d = s.clients d := by
      rw [heq]
      unfold process
      rw [set_clients_of_ne hne]
      exact set_clients_of_ne hne _
    unfold Live
    rw [hsame]
    exact hd

/-- **Any number of peers can have a slot at once.** -/
theorem crowd_unchoked (n : ℕ) :
    ∃ s, run (step 0) init (crowd n) = some s ∧ Inv s ∧ s.made = n ∧
      (∀ ip, n < ip → s.subscribers ip = none) ∧ n ≤ (unchoked s).card := by
  induction n with
  | zero => exact ⟨init, rfl, inv_init, rfl, fun _ _ => rfl, Nat.zero_le _⟩
  | succ n ih =>
    obtain ⟨s, hrun, hinv, rfl, hfree, hcard⟩ := ih
    obtain ⟨hlive, hchoking, hmade, htable, hle⟩ :=
      subscribe_new 0 hinv (Nat.succ_ne_zero s.made) (hfree _ (Nat.lt_succ_self _))
    have h1 : step 0 s (.subscribe (s.made + 1)) = some (subscribe 0 s.made (make (s.made + 1) s)) := rfl
    have hinv1 := inv_step _ hinv h1
    generalize subscribe 0 s.made (make (s.made + 1) s) = s1 at *
    have h2 : step 0 s1 (.message s.made .interested) =
        some (s1.set s.made (handleMessage s.made s1 .interested)) := if_pos hlive.1
    refine ⟨_, ?_, inv_step _ hinv1 h2, hmade, fun ip hip => ?_, ?_⟩
    · rw [crowd_succ, run_append, hrun, Option.bind_some, run, h1, Option.bind_some, run, h2]
      rfl
    · change s1.subscribers ip = none
      rw [htable, Function.update_of_ne (by omega)]
      exact hfree ip (by omega)
    · rw [card_interested hinv1.tabled hlive hinv1.available hchoking]
      omega

/-- The limit is 35, and 36 peers become interested. -/
theorem limit_exceeded : ∃ s, run (step 0) init (crowd 36) = some s ∧ ¬ Limited s := by
  obtain ⟨s, hrun, -, -, -, hcard⟩ := crowd_unchoked 36
  refine ⟨s, hrun, fun hlimited => ?_⟩
  have hle : 36 ≤ 35 := hcard.trans hlimited
  omega

end CppTorrent.Swarm.UnchokeSlots
