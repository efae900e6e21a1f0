import CppTorrent.Swarm.Lifecycle
import Mathlib.Data.List.GetD

/-! # The choice of a piece

`ChoosePiece` collects indices of type `size_t` in a vector of 32-bit numbers. So it finds a piece
exactly if there is one, and it finds a right one, in every state in which it can be called, exactly if
the torrent has no more pieces than a 32-bit number counts (`choice_right_iff`). -/

namespace CppTorrent.Swarm.Choice

open CppTorrent.Files.Blocks CppTorrent.Swarm.Model CppTorrent.Swarm.Steps CppTorrent.Swarm.Calls
open CppTorrent.Swarm.PeerPieces CppTorrent.Swarm.Lifecycle CppTorrent.Lib.Runs

/-- A piece that the remote peer has, that is not done and, unless the end game is played, not
requested. -/
def Eligible (cfg : Config) (m : Master) (c : Client) (i : ℕ) : Prop :=
  i ∈ c.pieces ∧ i ∉ m.bitfield ∧ (cfg.inEndGame m = true ∨ i ∉ m.requestedPieces)

/-- `ChoosePiece` combines bitfields of the right size, finds a piece if there is one, and finds a
piece that is eligible. -/
structure RightChoice (cfg : Config) (s : Life) (c : Client) : Prop where
  master : s.masterBits = cfg.total
  peer : s.peerBits = cfg.total
  none_iff : ∀ r, (choosePiece cfg r s.master c).1 = none ↔ ¬∃ i, Eligible cfg s.master c i
  some_eligible : ∀ r i, (choosePiece cfg r s.master c).1 = some i →
    Eligible cfg s.master c i ∧ i < cfg.total

/-- If the first handler of the strand comes to `ChoosePiece`, that makes a right choice. -/
def ChoosesRight (cfg : Config) (s : Life) : Prop :=
  ∀ h rest c, s.client.strand = h :: rest →
    choiceOf cfg s.master { s.client with strand := rest } h = some c → RightChoice cfg s c

theorem mem_piecesIds_iff {cfg : Config} {m : Master} {c : Client} {i : ℕ} :
    i ∈ piecesIds cfg m c ↔ ∃ j, Eligible cfg m c j ∧ j < cfg.total ∧ j % 2 ^ 32 = i := by
  unfold piecesIds available Eligible
  constructor
  · intro h
    obtain ⟨j, hj, hmod⟩ := List.mem_map.mp h
    obtain ⟨hrange, hfree⟩ := List.mem_filter.mp hj
    obtain ⟨hdone, hpieces, hreq⟩ := of_decide_eq_true hfree
    exact ⟨j, ⟨hpieces, hdone, hreq⟩, List.mem_range.mp hrange, hmod⟩
  · rintro ⟨j, ⟨hpieces, hdone, hreq⟩, hlt, hmod⟩
    refine List.mem_map.mpr ⟨j, List.mem_filter.mpr ⟨List.mem_range.mpr hlt, ?_⟩, hmod⟩
    exact decide_eq_true ⟨hdone, hpieces, hreq⟩

theorem choosePiece_fst (cfg : Config) (r : ℕ) (m : Master) (c : Client) :
    (choosePiece cfg r m c).1 = (piecesIds cfg m c)[r % (piecesIds cfg m c).length]? := by
  unfold choosePiece
  dsimp only
  cases (piecesIds cfg m c)[r % (piecesIds cfg m c).length]? with
  | none => rfl
  | some i => rfl

/-- Whatever the random number, `ChoosePiece` finds a piece if `pieces_ids` has one. -/
theorem choosePiece_none_iff (cfg : Config) (r : ℕ) (m : Master) (c : Client) :
    (choosePiece cfg r m c).1 = none ↔ piecesIds cfg m c = [] := by
  rw [choosePiece_fst, List.getElem?_eq_none_iff]
  constructor
  · intro hle
    by_contra hne
    have hpos := List.length_pos_of_ne_nil hne
    have hlt := Nat.mod_lt r hpos
    omega
  · intro hnil
    rw [hnil]
    exact Nat.zero_le _

/-- The state in which a handler calls `TryToRequestPiece`: the bits are still those of pieces, and only
a message can have ended the choking. -/
theorem callOf_spec {cfg : Config} {m : Master} {c c' : Client} {h : Handler}
    (hcall : callOf cfg m c h = some c') (hc : c.pieces ⊆ Finset.range cfg.total) :
    c'.pieces ⊆ Finset.range cfg.total ∧
      (beforeAccess h = true → c'.peerChoking = c.peerChoking) := by
  have hsend : ∀ (msg : Message) (c : Client), (c.send msg).peerChoking = c.peerChoking := by
    intro msg c
    exact congrArg Core.peerChoking (core_send msg c)
  cases calling_of_callOf hcall with
  | unchoke => exact ⟨hc, nofun⟩
  | unchokes => exact ⟨(pieces_send _ _).trans_subset hc, nofun⟩
  | interested => exact ⟨hc, nofun⟩
  | have_ hi => exact ⟨Finset.insert_subset (Finset.mem_range.mpr hi) hc, nofun⟩
  | @bitfield payload =>
    have hunion : c.pieces ∪ bitsOf cfg.total payload ⊆ Finset.range cfg.total :=
      Finset.union_subset hc (Finset.filter_subset _ _)
    refine ⟨?_, nofun⟩
    split_ifs
    · exact (pieces_send _ _).trans_subset hunion
    · exact hunion
  | clearAndTry => exact ⟨hc, fun _ => rfl⟩
  | tryToRequest => exact ⟨hc, fun _ => rfl⟩
  | keepAlive => exact ⟨(pieces_send _ _).trans_subset hc, fun _ => hsend _ _⟩

/-- **A choice is made after `access`**, among the bits of pieces. -/
theorem choice_of_sized {cfg : Config} {s : Life} {h : Handler} {rest : List Handler} {c : Client}
    (hs : Sized cfg s) (hstrand : s.client.strand = h :: rest)
    (hchoice : choiceOf cfg s.master { s.client with strand := rest } h = some c) :
    s.phase = .accessed ∧ c.pieces ⊆ Finset.range cfg.total := by
  obtain ⟨c1, hcall, hat⟩ := Option.bind_eq_some_iff.mp hchoice
  obtain ⟨hpieces, hchoking⟩ := callOf_spec hcall hs.pieces
  obtain ⟨-, -, hunchoked, rfl⟩ := atChoice_spec hat
  constructor
  · by_contra hphase
    have hb := hs.before hphase
    have hmem : h ∈ s.client.strand := hstrand ▸ List.mem_cons_self
    have hh : beforeAccess h = true := hb.strand h hmem
    have hchoked : c1.peerChoking = true := (hchoking hh).trans hb.choking
    rw [hunchoked] at hchoked
    cases hchoked
  · split_ifs
    · exact hpieces
    · exact (pieces_send _ _).trans_subset hpieces

/-- **Where the indices fit, every choice is right.** -/
theorem choosesRight_of_sized {cfg : Config} {s : Life} (hs : Sized cfg s)
    (htotal : cfg.total ≤ 2 ^ 32) : ChoosesRight cfg s := by
  intro h rest c hstrand hchoice
  obtain ⟨hphase, hpieces⟩ := choice_of_sized hs hstrand hchoice
  have hlt : ∀ i, Eligible cfg s.master c i → i < cfg.total :=
    fun i hi => Finset.mem_range.mp (hpieces hi.1)
  refine ⟨hs.master, hs.peer hphase, fun r => ?_, fun r i hi => ?_⟩
  · rw [choosePiece_none_iff, List.eq_nil_iff_forall_not_mem]
    constructor
    · rintro hnone ⟨i, hi⟩
      exact hnone (i % 2 ^ 32) (mem_piecesIds_iff.mpr ⟨i, hi, hlt i hi, rfl⟩)
    · intro hno i hmem
      obtain ⟨j, hj, -⟩ := mem_piecesIds_iff.mp hmem
      exact hno ⟨j, hj⟩
  · rw [choosePiece_fst] at hi
    obtain ⟨j, hj, hjlt, rfl⟩ := mem_piecesIds_iff.mp (List.mem_of_getElem? hi)
    have hmod : j % 2 ^ 32 = j := Nat.mod_eq_of_lt (by omega)
    rw [hmod]
    exact ⟨hj, hjlt⟩

/-! ### A torrent with more pieces -/

/-- Nothing is downloaded or requested. -/
def nothingYet : Master := ⟨∅, ∅, 0, false, []⟩

/-- The events in which a client connects, a bitfield arrives and an `unchoke` arrives. -/
def offersBits (payload : List UInt8) : List LifeEvent :=
  [.socket true, .socket true, .handshake true, .run 0, .arrive (.bitfield payload), .run 0, .run 0,
    .arrive .unchoke]

/-- A client that is choked becomes interested at a bitfield, and chooses nothing. -/
theorem handleResponse_bitfield {cfg : Config} {r : ℕ} {m : Master} {c : Client}
    {payload : List UInt8} (hlen : payload.length ≤ (cfg.total + 7) / 8)
    (hnew : ((c.pieces ∪ bitsOf cfg.total payload) \ m.bitfield).Nonempty)
    (hcard : m.bitfield.card ≠ cfg.total) (hchoke : c.peerChoking = true)
    (hconnected : c.isDisconnected = false) (hact : c.activePiece = none) :
    handleResponse cfg r m c (.bitfield payload) =
      (m, { c with
        pieces := c.pieces ∪ bitsOf cfg.total payload
        amInterested := true
        sent := c.sent ++ [.interested] }) := by
  have hsend : sendInterested { c with pieces := c.pieces ∪ bitsOf cfg.total payload } =
      { c with
        pieces := c.pieces ∪ bitsOf cfg.total payload
        amInterested := true
        sent := c.sent ++ [.interested] } := by
    unfold sendInterested Client.send
    exact if_neg (by rw [hconnected]; exact Bool.false_ne_true)
  dsimp only [handleResponse]
  rw [if_neg (by omega), if_pos hnew, hsend]
  unfold tryToRequestPiece
  rw [hact]
  dsimp only
  rw [if_neg hcard, if_pos hchoke]

/-- The client is then about to choose, among the pieces of the bitfield. -/
theorem run_offersBits {cfg : Config} {payload : List UInt8}
    (hlen : payload.length ≤ (cfg.total + 7) / 8) (hbits : (bitsOf cfg.total payload).Nonempty) :
    ∃ s c, run (lifeStep cfg) (constructed cfg false nothingYet) (offersBits payload) = some s ∧
      s.client.strand = [.message .unchoke] ∧ s.master = nothingYet ∧
      choiceOf cfg s.master { s.client with strand := [] } (.message .unchoke) = some c ∧
      c.pieces = bitsOf cfg.total payload := by
  obtain ⟨i, hi⟩ := hbits
  have hcard : (∅ : Finset ℕ).card ≠ cfg.total := by
    have := Finset.mem_range.mp (Finset.mem_of_mem_filter i hi)
    rw [Finset.card_empty]
    omega
  have hnew : ((∅ ∪ bitsOf cfg.total payload) \ ∅).Nonempty := by
    rw [Finset.empty_union, Finset.sdiff_empty]
    exact ⟨i, hi⟩
  let c0 : Client := ⟨false, true, false, true, false, ∅, none, false, false, [],
    [.bitfield (getCast cfg.total ∅)]⟩
  let c1 : Client := ⟨false, true, true, true, false, ∅ ∪ bitsOf cfg.total payload, none, false,
    false, [.message .unchoke], [.bitfield (getCast cfg.total ∅), .interested]⟩
  have hread : handleResponse cfg 0 nothingYet c0 (.bitfield payload) =
      (nothingYet, { c1 with strand := [] }) :=
    handleResponse_bitfield hlen hnew hcard rfl rfl rfl
  have hrun : run (lifeStep cfg) (constructed cfg false nothingYet) (offersBits payload) =
      some ⟨.accessed, 4, cfg.total, cfg.total, c1, nothingYet⟩ := by
    have hstep : lifeStep cfg ⟨.accessed, 4, cfg.total, cfg.total,
        { c0 with strand := [.message (.bitfield payload)] }, nothingYet⟩ (.run 0) =
        some ⟨.accessed, 4, cfg.total, cfg.total, { c1 with strand := [.read] }, nothingYet⟩ := by
      have hmsg : onMessage cfg 0 nothingYet c0 (.bitfield payload) =
          (nothingYet, { c1 with strand := [.read] }) := by
        have hne : Message.bitfield payload ≠ .keepAlive := Message.noConfusion
        rw [onMessage_of_ne hne, hread]
        rfl
      exact congrArg (fun res : Master × Client =>
        some (⟨.accessed, 4, cfg.total, cfg.total, res.2, res.1⟩ : Life)) hmsg
    have hconnect : run (lifeStep cfg) (constructed cfg false nothingYet)
        [.socket true, .socket true, .handshake true, .run 0, .arrive (.bitfield payload)] =
        some ⟨.accessed, 4, cfg.total, cfg.total,
          { c0 with strand := [.message (.bitfield payload)] }, nothingYet⟩ := rfl
    have hend : offersBits payload = [.socket true, .socket true, .handshake true, .run 0,
        .arrive (.bitfield payload)] ++ [.run 0, .run 0, .arrive .unchoke] := rfl
    rw [hend, run_append, hconnect, Option.bind_some, run, hstep]
    rfl
  refine ⟨_, { c1 with peerChoking := false, strand := [] }, hrun, rfl, rfl, ?_,
    Finset.empty_union _⟩
  change atChoice cfg nothingYet { c1 with peerChoking := false, strand := [] } = _
  unfold atChoice
  exact if_neg (by rintro (h | h | h); exacts [Bool.false_ne_true h, hcard h, Bool.false_ne_true h])

/-- The bitfield of a peer that has only piece `8 * k`. -/
def onlyPiece (k : ℕ) : List UInt8 := List.replicate k 0 ++ [128]

theorem bitsOf_onlyPiece {total k : ℕ} (h : 8 * k < total) : bitsOf total (onlyPiece k) = {8 * k} := by
  ext i
  rw [bitsOf, Finset.mem_filter, Finset.mem_range, Finset.mem_singleton, onlyPiece]
  rcases lt_trichotomy (i / 8) k with hlt | rfl | hgt
  · have hget : (List.replicate k (0 : UInt8) ++ [128]).getD (i / 8) 0 = 0 := by
      rw [List.getD_append _ _ _ _ (by rw [List.length_replicate]; exact hlt)]
      exact List.getD_replicate _ hlt
    rw [hget]
    constructor
    · rintro ⟨-, hbit⟩
      simp at hbit
    · intro hi
      omega
  · have hget : (List.replicate (i / 8) (0 : UInt8) ++ [128]).getD (i / 8) 0 = 128 := by
      simp
    have hbit : (128 : UInt8).toNat.testBit (7 - i % 8) = decide (7 = 7 - i % 8) :=
      Nat.testBit_two_pow (n := 7)
    rw [hget, hbit, decide_eq_true_iff]
    omega
  · have hget : (List.replicate k (0 : UInt8) ++ [128]).getD (i / 8) 0 = 0 := by
      refine List.getD_eq_default _ _ ?_
      rw [List.length_append, List.length_replicate, List.length_singleton]
      omega
    rw [hget]
    constructor
    · rintro ⟨-, hbit⟩
      simp at hbit
    · intro hi
      omega

/-- **A wrong choice**: the only piece of the peer has an index of 33 bits, and the first piece is
chosen. -/
theorem exists_wrong_choice (cfg : Config) (htotal : 2 ^ 32 < cfg.total) :
    ∃ payload s,
      run (lifeStep cfg) (constructed cfg false nothingYet) (offersBits payload) = some s ∧
        ¬ChoosesRight cfg s := by
  obtain ⟨k, hk⟩ : ∃ k, 8 * k = 2 ^ 32 := ⟨2 ^ 29, by norm_num⟩
  have hbits : bitsOf cfg.total (onlyPiece k) = {8 * k} := bitsOf_onlyPiece (by omega)
  have hlen : (onlyPiece k).length ≤ (cfg.total + 7) / 8 := by
    rw [onlyPiece, List.length_append, List.length_replicate, List.length_singleton]
    omega
  obtain ⟨s, c, hrun, hstrand, hm, hchoice, hpieces⟩ :=
    run_offersBits hlen (hbits ▸ Finset.singleton_nonempty _)
  rw [hbits] at hpieces
  refine ⟨_, s, hrun, fun hright => ?_⟩
  have hr := hright _ _ _ hstrand hchoice
  have hbeyond : Eligible cfg s.master c (8 * k) := by
    rw [hm]
    exact ⟨hpieces ▸ Finset.mem_singleton_self _, Finset.notMem_empty _, .inr (Finset.notMem_empty _)⟩
  cases hfound : (choosePiece cfg 0 s.master c).1 with
  | none => exact (hr.none_iff 0).mp hfound ⟨_, hbeyond⟩
  | some i =>
    obtain ⟨hi, -⟩ := hr.some_eligible 0 i hfound
    rw [choosePiece_fst] at hfound
    obtain ⟨j, hj, -, rfl⟩ := mem_piecesIds_iff.mp (List.mem_of_getElem? hfound)
    have hjeq := Finset.mem_singleton.mp (hpieces ▸ hj.1)
    have hmod := Finset.mem_singleton.mp (hpieces ▸ hi.1)
    rw [hjeq] at hmod
    omega

/-- **Every choice in every run is right, whatever the master peer has and whoever connects, exactly if
the torrent has at most `2 ^ 32` pieces.** -/
theorem choice_right_iff (cfg : Config) :
    (∀ incoming m es s, run (lifeStep cfg) (constructed cfg incoming m) es = some s →
      ChoosesRight cfg s) ↔ cfg.total ≤ 2 ^ 32 := by
  constructor
  · intro h
    by_contra hgt
    obtain ⟨payload, s, hrun, hwrong⟩ := exists_wrong_choice cfg (by omega)
    exact hwrong (h _ _ _ _ hrun)
  · intro htotal incoming m es s hrun
    exact choosesRight_of_sized (sized_run hrun) htotal

/-- A torrent with that many pieces. -/
def withPieces (total : ℕ) : Config where
  manager := ⟨1, 1, []⟩
  pieces := List.replicate (20 * total) 0
  sha1 := fun _ => []
  optimal := false

theorem total_withPieces (total : ℕ) : (withPieces total).total = total := by
  rw [Config.total, withPieces, List.length_replicate]
  omega

theorem not_choice_right_withPieces :
    ¬∀ incoming m es s,
      run (lifeStep (withPieces (2 ^ 32 + 1))) (constructed (withPieces (2 ^ 32 + 1)) incoming m) es =
        some s → ChoosesRight (withPieces (2 ^ 32 + 1)) s := by
  intro h
  obtain ⟨payload, s, hrun, hwrong⟩ := exists_wrong_choice (withPieces (2 ^ 32 + 1))
    (by rw [total_withPieces]; exact Nat.lt_succ_self _)
  exact hwrong (h false nothingYet _ s hrun)

end CppTorrent.Swarm.Choice
