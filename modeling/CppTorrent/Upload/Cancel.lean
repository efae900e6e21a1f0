import CppTorrent.Upload.Model

/-! # Requests, cancels and what is sent

The keys of `active_requests_` have a null peer, the requests of the jobs and of the cancels do not.
So a cancel never finds its request, and a job is never stopped by its guard: every accepted request
is sent exactly once (`Inv.once`), whether it has been cancelled or not. A run therefore honours its
cancels exactly if no cancel is handled while a job of the same request is queued
(`honours_run`). -/

namespace CppTorrent.Upload.Cancel

open CppTorrent.Lib.Runs CppTorrent.Upload.Model

/-- The tickets of the running jobs that have not been sent. -/
def unsent (running : List (Job × Phase)) : List ℕ :=
  (running.filter fun x => x.2 ≠ .finished).map fun x => x.1.ticket

/-- No job is queued and none is running. -/
def Drained (s : State) : Prop := s.queue = [] ∧ s.running = []

/-- A request that is cancelled while its job is queued is not sent, and one that is never cancelled
is sent exactly once by the time the queue is empty. -/
def Honours (s : State) : Prop :=
  (∀ t ∈ s.inTime, t ∉ s.sent) ∧
    (Drained s → ∀ t < s.issued.length, t ∉ s.cancelled → s.sent.count t = 1)

/-- No job of the request is queued. -/
def NotQueued (req : ReadRequest) (s : State) : Prop := ∀ j ∈ s.queue, j.req ≠ req

/-- The condition on a step: a cancel is handled only when no job of its request is queued. -/
def Untimely (total : ℕ) (s : State) : Event → Prop
  | .onCancel peer index offset length =>
    index < total → index ∉ s.uploadedPieces → NotQueued ⟨some peer, index, offset, length⟩ s
  | .cancelBlock k => ∀ req ∈ s.cancelling[k]?, NotQueued req s
  | _ => True

instance (req : ReadRequest) (s : State) : Decidable (NotQueued req s) :=
  inferInstanceAs (Decidable (∀ j ∈ s.queue, j.req ≠ req))

instance (total : ℕ) (s : State) : (e : Event) → Decidable (Untimely total s e)
  | .onCancel peer index offset length => inferInstanceAs (Decidable (index < total →
      index ∉ s.uploadedPieces → NotQueued ⟨some peer, index, offset, length⟩ s))
  | .cancelBlock k => inferInstanceAs (Decidable (∀ req ∈ s.cancelling[k]?, NotQueued req s))
  | .have_ _ | .onRequest _ _ _ _ _ | .bindUpload _ | .dequeue | .guard _ | .send _ | .unbind _ =>
    .isTrue trivial

/-! ### The invariant -/

/-- A request with a peer, for a piece of the torrent. -/
def Real (total : ℕ) (req : ReadRequest) : Prop :=
  req.remotePeer ≠ none ∧ req.pieceIndex < total

/-- What holds in every state. -/
structure Inv (total : ℕ) (s : State) : Prop where
  /-- the keys of the map have no peer -/
  keys : ∀ req id, s.activeRequests req = some id → req.remotePeer = none
  queued : ∀ j ∈ s.queue, Real total j.req
  started : ∀ x ∈ s.running, Real total x.1.req
  cancels : ∀ req ∈ s.cancelling, req.remotePeer ≠ none
  /-- a ticket is queued, running or sent -/
  once : ∀ t, (s.queue.map Job.ticket).count t + (unsent s.running).count t + s.sent.count t =
    (List.range s.issued.length).count t
  timely : ∀ t ∈ s.inTime, t < s.issued.length

variable {total : ℕ} {s : State}

theorem Inv.absent (h : Inv total s) {req : ReadRequest} (hr : req.remotePeer ≠ none) :
    s.activeRequests req = none := by
  cases hm : s.activeRequests req with
  | none => rfl
  | some id => exact absurd (h.keys req id hm) hr

theorem cancelBlock_of_absent {req : ReadRequest} (h : s.activeRequests req = none) :
    cancelBlock req s = s := by
  unfold cancelBlock
  rw [h]

/-- A job taken out of the list of running jobs. -/
theorem unsent_eraseIdx {running : List (Job × Phase)} {k : ℕ} {x : Job × Phase}
    (h : running[k]? = some x) (t : ℕ) :
    (unsent running).count t = (unsent (x :: running.eraseIdx k)).count t := by
  obtain ⟨hk, rfl⟩ := List.getElem?_eq_some_iff.mp h
  have hp : running.Perm (running[k] :: running.eraseIdx k) :=
    (List.getElem_cons_eraseIdx_perm hk).symm
  exact ((hp.filter _).map _).count_eq t

theorem count_unsent_cons (x : Job × Phase) (running : List (Job × Phase)) (t : ℕ) :
    (unsent (x :: running)).count t =
      (if x.2 ≠ .finished ∧ x.1.ticket = t then 1 else 0) + (unsent running).count t := by
  unfold unsent
  by_cases hf : x.2 = .finished
  · simp [hf]
  · by_cases ht : x.1.ticket = t <;> simp [hf, ht, Nat.add_comm]

theorem Inv.of_eraseIdx (h : Inv total s) (k : ℕ) :
    ∀ x ∈ s.running.eraseIdx k, Real total x.1.req :=
  fun x hx => h.started x (List.mem_of_mem_eraseIdx hx)

/-- The running jobs, one of which has been replaced. -/
theorem Inv.of_replaced (h : Inv total s) (k : ℕ) {x : Job × Phase} (hx : Real total x.1.req) :
    ∀ y ∈ x :: s.running.eraseIdx k, Real total y.1.req := by
  intro y hy
  rcases List.mem_cons.mp hy with rfl | hy
  · exact hx
  · exact h.of_eraseIdx k y hy

/-- Where a ticket is, with a running job apart from the others. -/
theorem Inv.once_apart (h : Inv total s) {k : ℕ} {x : Job × Phase} (hk : s.running[k]? = some x)
    (t : ℕ) : (s.queue.map Job.ticket).count t +
      ((if x.2 ≠ .finished ∧ x.1.ticket = t then 1 else 0) +
        (unsent (s.running.eraseIdx k)).count t) + s.sent.count t =
      (List.range s.issued.length).count t := by
  rw [← count_unsent_cons, ← unsent_eraseIdx hk]
  exact h.once t

theorem inv_init : Inv total init := by
  refine ⟨?_, ?_, ?_, ?_, ?_, ?_⟩ <;> simp [init, unsent]

/-! ### The steps -/

theorem inv_recordCancel (h : Inv total s) (req : ReadRequest) : Inv total (recordCancel req s) := by
  refine ⟨h.keys, h.queued, h.started, h.cancels, h.once, fun t ht => ?_⟩
  rcases List.mem_append.mp ht with ht | ht
  · exact h.timely t ht
  · -- a queued ticket has been issued
    obtain ⟨j, hj, rfl⟩ := List.mem_map.mp ht
    have hmem : j.ticket ∈ s.queue.map Job.ticket := List.mem_map_of_mem (List.mem_filter.mp hj).1
    have hpos := List.count_pos_iff.mpr hmem
    have honce := h.once j.ticket
    have hissued : 0 < (List.range s.issued.length).count j.ticket := by omega
    exact List.mem_range.mp (List.count_pos_iff.mp hissued)

theorem inv_onRequest {peer index offset length id : ℕ} {s' : State} (h : Inv total s)
    (hs : step total s (.onRequest peer index offset length id) = some s') : Inv total s' := by
  simp only [step] at hs
  split_ifs at hs with hi hd
  · cases hs; exact h
  · simp only [uploadBlock, enqueue] at hs
    split_ifs at hs
    · simp at hs
    simp only [Option.map_some, Option.some.injEq] at hs
    subst hs
    refine ⟨fun req id' hm => ?_, fun j hj => ?_, h.started, h.cancels, fun t => ?_, fun t ht => ?_⟩
    · unfold emplace at hm
      split at hm
      · exact h.keys req id' hm
      · simp only [Function.update_apply] at hm
        split_ifs at hm with he
        · rw [he]; rfl
        · exact h.keys req id' hm
    · rcases List.mem_append.mp hj with hj | hj
      · exact h.queued j hj
      · rw [List.mem_singleton.mp hj]
        exact ⟨by simp, by simpa using hi⟩
    · have honce := h.once t
      simp only [List.map_append, List.map_cons, List.map_nil, List.count_append,
        List.length_append, List.length_singleton, List.range_succ] at honce ⊢
      omega
    · have := h.timely t ht
      simp only [List.length_append, List.length_singleton]
      omega
  · cases hs; exact h

theorem inv_onCancel {peer index offset length : ℕ} {s' : State} (h : Inv total s)
    (hs : step total s (.onCancel peer index offset length) = some s') : Inv total s' := by
  simp only [step] at hs
  split_ifs at hs
  · cases hs; exact h
  · cases hs
    refine ⟨h.keys, h.queued, h.started, fun req hreq => ?_, h.once, h.timely⟩
    rcases List.mem_append.mp hreq with hreq | hreq
    · exact h.cancels req hreq
    · rw [List.mem_singleton.mp hreq]; simp
  · cases hs
    exact inv_recordCancel h _

theorem inv_cancelBlock {k : ℕ} {s' : State} (h : Inv total s)
    (hs : step total s (.cancelBlock k) = some s') : Inv total s' := by
  obtain ⟨req, hreq, rfl⟩ := Option.map_eq_some_iff.mp hs
  have hp := h.cancels req (List.mem_of_getElem? hreq)
  have h1 : Inv total { s with cancelling := s.cancelling.eraseIdx k } :=
    ⟨h.keys, h.queued, h.started, fun r hr => h.cancels r (List.mem_of_mem_eraseIdx hr), h.once,
      h.timely⟩
  have h2 := inv_recordCancel h1 req
  rw [cancelBlock_of_absent (h2.absent hp)]
  exact h2

theorem inv_dequeue {s' : State} (h : Inv total s) (hs : step total s .dequeue = some s') :
    Inv total s' := by
  simp only [step] at hs
  cases hq : s.queue with
  | nil => simp [hq] at hs
  | cons j queue =>
    simp only [hq, Option.some.injEq] at hs
    subst hs
    have hj := h.queued j (by simp [hq])
    refine ⟨h.keys, fun x hx => h.queued x (by simp [hq, hx]), fun x hx => ?_, h.cancels,
      fun t => ?_, h.timely⟩
    · rcases List.mem_cons.mp hx with rfl | hx
      · exact hj
      · exact h.started x hx
    · have honce := h.once t
      rw [hq, List.map_cons, List.count_cons] at honce
      rw [count_unsent_cons]
      simp only [ne_eq, reduceCtorEq, not_false_eq_true, true_and, beq_iff_eq] at honce ⊢
      omega

/-- A job moves on and stays among those to be sent. -/
theorem inv_guard {k : ℕ} {s' : State} (h : Inv total s)
    (hs : step total s (.guard k) = some s') : Inv total s' := by
  simp only [step] at hs
  split at hs
  · next j hk =>
    have hj := h.started (j, .dequeued) (List.mem_of_getElem? hk)
    rw [h.absent hj.1] at hs
    simp only [Option.isSome_none, Bool.false_eq_true, if_false, Option.some.injEq] at hs
    subst hs
    refine ⟨fun req id hm => ?_, h.queued, h.of_replaced k hj, h.cancels, fun t => ?_, h.timely⟩
    · simp only [Function.update_apply] at hm
      split_ifs at hm
      exact h.keys req id hm
    · have honce := h.once_apart hk t
      simp only [advance, count_unsent_cons]
      simpa using honce
  · cases hs

theorem inv_send {k : ℕ} {s' : State} (h : Inv total s)
    (hs : step total s (.send k) = some s') : Inv total s' := by
  simp only [step] at hs
  split at hs
  · next j hk =>
    have hj := h.started (j, .checked) (List.mem_of_getElem? hk)
    rw [if_neg (not_le.mpr hj.2)] at hs
    simp only [Option.some.injEq] at hs
    subst hs
    refine ⟨h.keys, h.queued, h.of_replaced k hj, h.cancels, fun t => ?_, h.timely⟩
    have honce := h.once_apart hk t
    simp only [advance, count_unsent_cons, List.count_append, List.count_singleton]
    simp only [ne_eq, reduceCtorEq, not_false_eq_true, true_and, not_true_eq_false, false_and,
      if_false, beq_iff_eq] at honce ⊢
    omega
  · cases hs

theorem inv_unbind {k : ℕ} {s' : State} (h : Inv total s)
    (hs : step total s (.unbind k) = some s') : Inv total s' := by
  simp only [step] at hs
  split at hs
  · next j hk =>
    simp only [Option.some.injEq] at hs
    subst hs
    refine ⟨h.keys, h.queued, h.of_eraseIdx k, h.cancels, fun t => ?_, h.timely⟩
    simpa using h.once_apart hk t
  · cases hs

/-- **Every step keeps the invariant.** -/
theorem inv_step (s : State) (e : Event) (s' : State) (h : Inv total s)
    (hs : step total s e = some s') : Inv total s' := by
  cases e with
  | have_ i =>
    cases hs
    exact ⟨h.keys, h.queued, h.started, h.cancels, h.once, h.timely⟩
  | onRequest peer index offset length id => exact inv_onRequest h hs
  | bindUpload k =>
    obtain ⟨id, -, rfl⟩ := Option.map_eq_some_iff.mp hs
    exact ⟨h.keys, h.queued, h.started, h.cancels, h.once, h.timely⟩
  | onCancel peer index offset length => exact inv_onCancel h hs
  | cancelBlock k => exact inv_cancelBlock h hs
  | dequeue => exact inv_dequeue h hs
  | guard k => exact inv_guard h hs
  | send k => exact inv_send h hs
  | unbind k => exact inv_unbind h hs

theorem inv_run {es : List Event} {s' : State} (h : run (step total) init es = some s') :
    Inv total s' :=
  invariant_of_run (Inv total) (fun _ _ => True) (fun s e s' hi _ hs => inv_step s e s' hi hs)
    inv_init (along_true _ _) h

/-! ### What is sent -/

/-- When the queue is drained, every request accepted has been sent exactly once. -/
theorem Inv.sent_once (h : Inv total s) (hd : Drained s) {t : ℕ} (ht : t < s.issued.length) :
    s.sent.count t = 1 := by
  have honce := h.once t
  rw [hd.1, hd.2, List.count_eq_one_of_mem List.nodup_range (List.mem_range.mpr ht)] at honce
  simpa [unsent] using honce

theorem inTime_recordCancel (req : ReadRequest) (s : State) :
    (recordCancel req s).inTime = [] ↔ s.inTime = [] ∧ NotQueued req s := by
  simp [recordCancel, NotQueued, List.filter_eq_nil_iff]

theorem inTime_cancelBlock (req : ReadRequest) (s : State) :
    (cancelBlock req s).inTime = s.inTime := by
  unfold cancelBlock
  split <;> rfl

/-- A step of a worker thread. -/
def ByWorker : Event → Prop
  | .dequeue | .guard _ | .send _ | .unbind _ => True
  | _ => False

/-- A worker thread issues nothing and cancels nothing. -/
theorem worker_frame {e : Event} {s s' : State} (hs : step total s e = some s') (he : ByWorker e) :
    s'.issued = s.issued ∧ s'.inTime = s.inTime := by
  cases e with
  | have_ | onRequest | bindUpload | onCancel | cancelBlock => exact he.elim
  | dequeue =>
    simp only [step] at hs
    split at hs <;> cases hs
    exact ⟨rfl, rfl⟩
  | guard k | send k =>
    simp only [step] at hs
    split at hs
    · split_ifs at hs <;> cases hs <;> exact ⟨rfl, rfl⟩
    · cases hs
  | unbind k =>
    simp only [step] at hs
    split at hs <;> cases hs
    exact ⟨rfl, rfl⟩

/-- A step leaves no request cancelled in time exactly if it is untimely. -/
theorem inTime_step_iff (s : State) (e : Event) (s' : State) (hs : step total s e = some s') :
    s'.inTime = [] ↔ s.inTime = [] ∧ Untimely total s e := by
  cases e with
  | have_ i => cases hs; simp [Untimely]
  | onRequest peer index offset length id =>
    simp only [step] at hs
    split_ifs at hs
    · cases hs; simp [Untimely]
    · obtain ⟨⟨ret, s1⟩, h1, rfl⟩ := Option.map_eq_some_iff.mp hs
      obtain ⟨queue, -, h2⟩ := Option.map_eq_some_iff.mp h1
      cases h2
      simp [Untimely]
    · cases hs; simp [Untimely]
  | bindUpload k =>
    obtain ⟨id, -, rfl⟩ := Option.map_eq_some_iff.mp hs
    simp [Untimely]
  | onCancel peer index offset length =>
    simp only [step] at hs
    split_ifs at hs with hi hu
    · cases hs
      simp [Untimely, not_lt.mpr hi]
    · cases hs
      simp [Untimely, hu]
    · cases hs
      rw [inTime_recordCancel]
      simp [Untimely, not_le.mp hi, hu]
  | cancelBlock k =>
    obtain ⟨req, hreq, rfl⟩ := Option.map_eq_some_iff.mp hs
    rw [inTime_cancelBlock, inTime_recordCancel]
    simp [Untimely, hreq, NotQueued]
  | dequeue | guard k | send k | unbind k =>
    obtain ⟨-, hinTime⟩ := worker_frame hs trivial
    simp [hinTime, Untimely]

/-- **A run whose cancels are all untimely honours its requests, and a run that has drained the queue
honours them only then.** -/
theorem honours_run {es : List Event} {s : State} (h : run (step total) init es = some s) :
    (Along (step total) (Untimely total) init es → Honours s) ∧
      (Drained s → (Honours s ↔ Along (step total) (Untimely total) init es)) := by
  have hinv := inv_run h
  have hkept : s.inTime = [] ↔ Along (step total) (Untimely total) init es := by
    rw [kept_iff (P := fun s => s.inTime = []) inTime_step_iff h]
    exact and_iff_right rfl
  have hpos : s.inTime = [] → Honours s := fun he => by
    refine ⟨by simp [he], fun hd t ht _ => hinv.sent_once hd ht⟩
  rw [← hkept]
  refine ⟨hpos, fun hd => ⟨fun hh => ?_, hpos⟩⟩
  -- a ticket cancelled in time has been sent nevertheless
  refine List.eq_nil_iff_forall_not_mem.mpr fun t ht => ?_
  have hsent := hinv.sent_once hd (hinv.timely t ht)
  exact hh.1 t ht (List.count_pos_iff.mp (by omega))

/-- Peer 5 asks for the first block of piece 0, and cancels it when it has been sent. -/
def tooLate : List Event :=
  [.have_ 0, .onRequest 5 0 0 16384 7, .bindUpload 0, .dequeue, .guard 0, .send 0,
    .onCancel 5 0 0 16384, .unbind 0]

/-- The block has been sent once, as the cancel came too late. -/
theorem honours_run_tooLate : ∃ s, run (step 1) init tooLate = some s ∧ s.sent = [0] ∧ Honours s := by
  have hrun : run (step 1) init tooLate = some _ := rfl
  exact ⟨_, rfl, rfl, (honours_run hrun).1 (by decide)⟩

/-- Peer 5 asks for the first block of piece 0 and cancels it before a worker thread takes the job:
the block is sent. -/
theorem cancel_not_honoured :
    ∃ s, run (step 1) init [.have_ 0, .onRequest 5 0 0 16384 7, .bindUpload 0, .onCancel 5 0 0 16384,
        .dequeue, .guard 0, .send 0, .unbind 0] = some s ∧ ¬ Honours s := by
  refine ⟨_, rfl, fun h => ?_⟩
  exact h.1 0 (by decide) (by decide)

end CppTorrent.Upload.Cancel
