import CppTorrent.Lib.Simulation
import CppTorrent.Upload.Cancel
import CppTorrent.Worker.AsyncWorker

/-! # The records of the queued uploads

`uploaded_pieces_` is meant to have the pieces of the queued jobs, and `active_requests_` their
requests. But `BindUpload` is given the id of the job, while `UnbindUpload` is given its piece, and
the key of the map has a null peer, while everything that is removed from the map has a real one. So
the key of a request that has been accepted stays in the map for ever (`Leaky`), and the records are
right exactly as long as no request has been accepted (`booked_run_iff`).

The queue of the model is the part of the list of the `AsyncWorker` that has uploads in it: the worker
refines it (`jobs_run`). -/

namespace CppTorrent.Upload.Bookkeeping

open CppTorrent.Lib.IndexedQueue CppTorrent.Lib.Runs CppTorrent.Lib.Simulation
open CppTorrent.Upload.Model CppTorrent.Upload.Cancel
open CppTorrent.Worker

/-! ### The queue of the worker -/

section

/-- The uploads among the jobs of the worker: `upload` has the ticket and the request of a job that is
one. -/
def jobs (upload : ℕ → Option (ℕ × ReadRequest)) (q : Queue ℕ ℕ) : List Job :=
  q.list.filterMap fun e => (upload e.value).map fun u => ⟨e.key, u.1, u.2⟩

variable {upload : ℕ → Option (ℕ × ReadRequest)} {q : Queue ℕ ℕ}

theorem mem_jobs {j : Job} :
    j ∈ jobs upload q ↔ ∃ e ∈ q.list, e.key = j.id ∧ upload e.value = some (j.ticket, j.req) := by
  simp only [jobs, List.mem_filterMap, Option.map_eq_some_iff]
  constructor
  · rintro ⟨e, he, u, hu, rfl⟩
    exact ⟨e, he, rfl, hu⟩
  · rintro ⟨e, he, hkey, hu⟩
    refine ⟨e, he, _, hu, ?_⟩
    cases j
    cases hkey
    rfl

/-- An id that the worker can draw can be drawn in the model. -/
theorem jobs_push (h : WellIndexed q) {id cell job ticket : ℕ} {req : ReadRequest}
    (hid : q.index id = none) (hjob : upload job = some (ticket, req)) :
    enqueue id ticket req (jobs upload q) = some (jobs upload (q.push cell job id)) := by
  have hfresh : id ∉ (jobs upload q).map Job.id := by
    intro hmem
    obtain ⟨j, hj, rfl⟩ := List.mem_map.mp hmem
    obtain ⟨e, he, hkey, -⟩ := mem_jobs.mp hj
    have hindex := (h.index j.id e.cell).mpr ⟨e, he, hkey, rfl⟩
    rw [hid] at hindex
    cases hindex
  rw [enqueue, if_neg hfresh]
  simp [jobs, Queue.push, hjob]

/-- A job that is no upload is not seen by the model. -/
theorem jobs_push_other {id cell job : ℕ} (hjob : upload job = none) :
    jobs upload (q.push cell job id) = jobs upload q := by
  simp [jobs, Queue.push, hjob]

/-- Taking the first job takes the first upload, or a job that is not seen. -/
theorem jobs_popFront {e : Element ℕ ℕ} {q' : Queue ℕ ℕ} (hpop : q.popFront = some (e, q')) :
    jobs upload q =
      (((upload e.value).map fun u => (⟨e.key, u.1, u.2⟩ : Job)).toList) ++ jobs upload q' := by
  unfold Queue.popFront at hpop
  split at hpop
  · cases hpop
  · next e' list hlist =>
    cases hpop
    unfold jobs
    rw [hlist, List.filterMap_cons]
    cases upload e.value <;> rfl

/-- `Erase` of an id removes the upload with the id, if the job with the id is one. -/
theorem jobs_erase (h : WellIndexed q) {id : ℕ} {q' : Queue ℕ ℕ} (herase : q.erase id = some q') :
    jobs upload q' = erase id (jobs upload q) := by
  obtain ⟨q1, hq1, hlist, -⟩ := h.erase id
  obtain rfl : q1 = q' := Option.some.inj (hq1.symm.trans herase)
  have hnodup : ((jobs upload q).map Job.id).Nodup := by
    refine h.keys.sublist ?_
    unfold jobs
    rw [List.map_filterMap]
    induction q.list with
    | nil => exact List.Sublist.slnil
    | cons e list ih =>
      rw [List.filterMap_cons, List.map_cons]
      cases upload e.value with
      | none => exact ih.cons _
      | some u => exact ih.cons_cons _
  rw [erase, eraseP_eq_filter hnodup, jobs, jobs, hlist, List.filterMap_filter, List.filter_filterMap]
  refine List.filterMap_congr fun e _ => ?_
  cases upload e.value with
  | none => simp
  | some u => by_cases he : e.key = id <;> simp [he, Option.filter]

/-- What the steps of the model do with the queue. -/
inductive QueueEvent where
  | enqueue (id ticket : ℕ) (req : ReadRequest)
  | dequeue
  | erase (id : ℕ)

def queueStep (queue : List Job) : QueueEvent → Option (List Job)
  | .enqueue id ticket req => enqueue id ticket req queue
  | .dequeue => queue.tail?
  | .erase id => some (erase id queue)

/-- The queue has the uploads of a worker, in their order. -/
def Mirrors (upload : ℕ → Option (ℕ × ReadRequest)) (w : AsyncWorker.State) (queue : List Job) : Prop :=
  AsyncWorker.Inv w ∧ queue = jobs upload w.queue

/-- A step of the worker is one of the queue, or is not seen. -/
theorem mirrors_step {threadCount : ℕ} (w : AsyncWorker.State) (e : AsyncWorker.Event)
    (w' : AsyncWorker.State) (queue : List Job) (h : Mirrors upload w queue)
    (hs : AsyncWorker.step threadCount w e = some w') :
    ∃ fs queue', run queueStep queue fs = some queue' ∧ Mirrors upload w' queue' := by
  obtain ⟨hinv, rfl⟩ := h
  have hinv' := AsyncWorker.inv_step e hinv hs
  have hsame : w'.queue = w.queue → Mirrors upload w' (jobs upload w.queue) :=
    fun hqueue => ⟨hinv', by rw [hqueue]⟩
  cases e with
  | enqueue id cell =>
    dsimp only [AsyncWorker.step] at hs
    split_ifs at hs with hfresh
    cases hs
    rw [not_or, not_not] at hfresh
    cases hjob : upload w.enqueued with
    | none => exact matched_nil (R := Mirrors upload) ⟨hinv', (jobs_push_other hjob).symm⟩
    | some u =>
      obtain ⟨ticket, req⟩ := u
      exact matched_one (R := Mirrors upload) (f := .enqueue id ticket req)
        (jobs_push hinv.indexed hfresh.1 hjob) ⟨hinv', rfl⟩
  | erase id =>
    obtain ⟨q, hq, rfl⟩ := Option.map_eq_some_iff.mp hs
    exact matched_one (R := Mirrors upload) (f := .erase id) rfl
      ⟨hinv', (jobs_erase hinv.indexed hq).symm⟩
  | take thread =>
    dsimp only [AsyncWorker.step] at hs
    split_ifs at hs
    obtain ⟨⟨e, q⟩, hpop, rfl⟩ := Option.map_eq_some_iff.mp hs
    have hjobs : jobs upload w.queue = _ := jobs_popFront hpop
    cases hjob : upload e.value with
    | none =>
      rw [hjob] at hjobs
      exact matched_nil (R := Mirrors upload) ⟨hinv', hjobs⟩
    | some u =>
      rw [hjob] at hjobs
      have htail : queueStep (jobs upload w.queue) .dequeue = some (jobs upload q) := by
        rw [hjobs]
        rfl
      exact matched_one (R := Mirrors upload) htail ⟨hinv', rfl⟩
  | start => cases hs; exact matched_nil (hsame rfl)
  | stop => cases hs; exact matched_nil (hsame rfl)
  | finish thread =>
    dsimp only [AsyncWorker.step] at hs
    split at hs
    · cases hs
    · cases hs
      exact matched_nil (hsame rfl)

/-- **The queue of the model is that of the worker**, in every run of the worker: the jobs that are no
uploads are not seen. -/
theorem jobs_run {threadCount : ℕ} {es : List AsyncWorker.Event} {w : AsyncWorker.State}
    (hrun : run (AsyncWorker.step threadCount) AsyncWorker.init es = some w) :
    ∃ fs, run queueStep [] fs = some (jobs upload w.queue) := by
  obtain ⟨fs, queue, hfs, -, rfl⟩ :=
    exists_run_of_simulation (R := Mirrors upload) mirrors_step ⟨AsyncWorker.inv_init, rfl⟩ hrun
  exact ⟨fs, hfs⟩

end

/-! ### The records -/

/-- The records are those of the queued jobs. -/
structure Booked (s : State) : Prop where
  /-- `uploaded_pieces_` has the pieces of the queued jobs -/
  pieces : ∀ i, i ∈ s.uploadedPieces ↔ ∃ j ∈ s.queue, j.req.pieceIndex = i
  /-- `active_requests_` has the requests of the queued jobs -/
  requests : ∀ req, s.activeRequests req ≠ none ↔ ∃ j ∈ s.queue, j.req = req
  /-- both are empty when the queue is -/
  emptied : s.queue = [] → s.uploadedPieces = [] ∧ ∀ req, s.activeRequests req = none

/-- The condition on a step: a request is for a piece that the torrent does not have, or that is not
done. -/
def Refused (total : ℕ) (s : State) : Event → Prop
  | .onRequest _ index _ _ _ => ¬ (index < total ∧ index ∈ s.bitfield)
  | _ => True

/-- What the records keep of the requests that have been accepted. -/
structure Leaky (total : ℕ) (s : State) : Prop where
  inv : Inv total s
  /-- the key of an accepted request is never removed -/
  stays : ∀ req ∈ s.issued, s.activeRequests req.movedFrom ≠ none
  /-- before the first one there is nothing -/
  unused : s.issued = [] →
    s.uploadedPieces = [] ∧ s.binding = [] ∧ ∀ req, s.activeRequests req = none

variable {total : ℕ} {s s' : State}

theorem leaky_init : Leaky total init where
  inv := inv_init
  stays req hreq := by simp [init] at hreq
  unused _ := ⟨rfl, rfl, fun _ => rfl⟩

/-! ### The steps -/

theorem emplace_self (req : ReadRequest) (id : ℕ) (m : ReadRequest → Option ℕ) :
    (emplace req id m).2 req ≠ none := by
  unfold emplace
  split
  · next old hold => simp [hold]
  · simp

theorem emplace_keeps {req req' : ReadRequest} (id : ℕ) {m : ReadRequest → Option ℕ}
    (h : m req' ≠ none) : (emplace req id m).2 req' ≠ none := by
  unfold emplace
  split
  · exact h
  · simp only [Function.update_apply]
    split_ifs
    · simp
    · exact h

/-- What an accepted request leaves in the records. -/
theorem uploadBlock_spec {req : ReadRequest} {id ret : ℕ} {s1 : State}
    (h : uploadBlock req id s = some (ret, s1)) :
    s1.issued = s.issued ++ [req] ∧
      s1.activeRequests = (emplace req.movedFrom id s.activeRequests).2 := by
  obtain ⟨queue, -, hret⟩ := Option.map_eq_some_iff.mp h
  cases hret
  exact ⟨rfl, rfl⟩

/-- A removal from the map under a real key leaves the keys of the accepted requests. -/
theorem Leaky.keeps (h : Leaky total s) {req req' : ReadRequest} (hreq : req.remotePeer ≠ none)
    (hreq' : req' ∈ s.issued) :
    Function.update s.activeRequests req none req'.movedFrom ≠ none := by
  have hne : req'.movedFrom ≠ req := by
    rintro rfl
    exact hreq rfl
  rw [Function.update_of_ne hne]
  exact h.stays req' hreq'

theorem leaky_onRequest {peer index offset length id : ℕ} (h : Leaky total s)
    (hs : step total s (.onRequest peer index offset length id) = some s') : Leaky total s' := by
  have hinv : Inv total s' := inv_onRequest h.inv hs
  simp only [step] at hs
  split_ifs at hs
  · cases hs
    exact h
  · obtain ⟨⟨ret, s1⟩, h1, rfl⟩ := Option.map_eq_some_iff.mp hs
    obtain ⟨hissued, hmap⟩ := uploadBlock_spec h1
    refine ⟨hinv, fun req hreq => ?_, fun hempty => ?_⟩
    · -- the new key is there, and the old ones stay
      change s1.activeRequests req.movedFrom ≠ none
      rw [hmap]
      change req ∈ s1.issued at hreq
      rw [hissued] at hreq
      rcases List.mem_append.mp hreq with hold | hnew
      · exact emplace_keeps id (h.stays req hold)
      · rw [List.mem_singleton.mp hnew]
        exact emplace_self _ id _
    · change s1.issued = [] at hempty
      rw [hissued] at hempty
      simp at hempty
  · cases hs
    exact h

theorem leaky_guard {k : ℕ} (h : Leaky total s) (hs : step total s (.guard k) = some s') :
    Leaky total s' := by
  have hinv : Inv total s' := inv_guard h.inv hs
  simp only [step] at hs
  split at hs
  · next j hk =>
    have hreal := h.inv.started (j, .dequeued) (List.mem_of_getElem? hk)
    rw [h.inv.absent hreal.1] at hs
    simp only [Option.isSome_none, Bool.false_eq_true, if_false, Option.some.injEq] at hs
    subst hs
    refine ⟨hinv, fun req hreq => h.keeps hreal.1 hreq, fun hempty => ?_⟩
    obtain ⟨hpieces, hbinding, hmap⟩ := h.unused hempty
    refine ⟨hpieces, hbinding, fun req => ?_⟩
    simp only [Function.update_apply]
    split_ifs
    · rfl
    · exact hmap req
  · cases hs

/-- A cancel finds nothing, so the records stay as they are. -/
theorem leaky_cancelBlock {k : ℕ} (h : Leaky total s)
    (hs : step total s (.cancelBlock k) = some s') : Leaky total s' := by
  have hinv : Inv total s' := inv_cancelBlock h.inv hs
  obtain ⟨req, hreq, rfl⟩ := Option.map_eq_some_iff.mp hs
  have habsent : s.activeRequests req = none :=
    h.inv.absent (h.inv.cancels req (List.mem_of_getElem? hreq))
  have hsame : cancelBlock req (recordCancel req { s with cancelling := s.cancelling.eraseIdx k }) =
      recordCancel req { s with cancelling := s.cancelling.eraseIdx k } :=
    cancelBlock_of_absent habsent
  rw [hsame] at hinv ⊢
  exact ⟨hinv, h.stays, h.unused⟩

/-- **Every step keeps what the records have leaked.** -/
theorem leaky_step (e : Event) (h : Leaky total s) (hs : step total s e = some s') :
    Leaky total s' := by
  have hinv : Inv total s' := inv_step s e s' h.inv hs
  cases e with
  | have_ i => cases hs; exact ⟨hinv, h.stays, h.unused⟩
  | onRequest peer index offset length id => exact leaky_onRequest h hs
  | bindUpload k =>
    obtain ⟨id, hid, rfl⟩ := Option.map_eq_some_iff.mp hs
    refine ⟨hinv, h.stays, fun hempty => ?_⟩
    -- no id is waiting to be bound before the first request
    have hbinding := (h.unused hempty).2.1
    rw [hbinding] at hid
    cases hid
  | onCancel peer index offset length =>
    simp only [step] at hs
    split_ifs at hs
    · cases hs; exact h
    · cases hs; exact ⟨hinv, h.stays, h.unused⟩
    · cases hs; exact ⟨hinv, h.stays, h.unused⟩
  | cancelBlock k => exact leaky_cancelBlock h hs
  | dequeue =>
    simp only [step] at hs
    split at hs
    · cases hs
    · cases hs; exact ⟨hinv, h.stays, h.unused⟩
  | guard k => exact leaky_guard h hs
  | send k =>
    simp only [step] at hs
    split at hs
    · split_ifs at hs
      · cases hs; exact ⟨hinv, h.stays, h.unused⟩
      · cases hs; exact ⟨hinv, h.stays, h.unused⟩
    · cases hs
  | unbind k =>
    simp only [step] at hs
    split at hs
    · cases hs
      refine ⟨hinv, h.stays, fun hempty => ?_⟩
      obtain ⟨hpieces, hbinding, hmap⟩ := h.unused hempty
      refine ⟨?_, hbinding, hmap⟩
      change s.uploadedPieces.filter _ = []
      rw [hpieces]
      rfl
    · cases hs

theorem leaky_run {es : List Event} (h : run (step total) init es = some s) : Leaky total s :=
  invariant_of_run (Leaky total) (fun _ _ => True) (fun _ e _ hi _ hs => leaky_step e hi hs)
    leaky_init (along_true _ _) h

/-! ### When the records are right -/

/-- The queued jobs are among the requests issued. -/
theorem queue_of_issued (h : Inv total s) (hempty : s.issued = []) : s.queue = [] := by
  refine List.eq_nil_iff_forall_not_mem.mpr fun j hj => ?_
  have hmem : j.ticket ∈ s.queue.map Job.ticket := List.mem_map_of_mem hj
  have hpos := List.count_pos_iff.mpr hmem
  have honce := h.once j.ticket
  rw [hempty, List.length_nil, List.range_zero, List.count_nil] at honce
  omega

/-- The records are right exactly as long as no request has been accepted. -/
theorem Leaky.booked_iff (h : Leaky total s) : Booked s ↔ s.issued = [] := by
  constructor
  · intro hbooked
    refine List.eq_nil_iff_forall_not_mem.mpr fun req hreq => ?_
    -- the key left by the request has no peer, and the jobs have one
    obtain ⟨j, hj, hkey⟩ := (hbooked.requests _).mp (h.stays req hreq)
    refine (h.inv.queued j hj).1 ?_
    rw [hkey]
    rfl
  · intro hempty
    obtain ⟨hpieces, -, hmap⟩ := h.unused hempty
    have hqueue := queue_of_issued h.inv hempty
    refine ⟨fun i => ?_, fun req => ?_, fun _ => ⟨hpieces, hmap⟩⟩
    · simp [hpieces, hqueue]
    · simp [hmap req, hqueue]

theorem issued_step_iff (s : State) (e : Event) (s' : State) (hs : step total s e = some s') :
    s'.issued = [] ↔ s.issued = [] ∧ Refused total s e := by
  cases e with
  | have_ i => cases hs; simp [Refused]
  | onRequest peer index offset length id =>
    simp only [step] at hs
    split_ifs at hs with htotal hdone
    · cases hs
      simp [Refused, not_lt.mpr htotal]
    · obtain ⟨⟨ret, s1⟩, h1, rfl⟩ := Option.map_eq_some_iff.mp hs
      obtain ⟨hissued, -⟩ := uploadBlock_spec h1
      simp [Refused, hissued, not_le.mp htotal, hdone]
    · cases hs
      simp [Refused, hdone]
  | bindUpload k =>
    obtain ⟨id, -, rfl⟩ := Option.map_eq_some_iff.mp hs
    simp [Refused]
  | onCancel peer index offset length =>
    simp only [step] at hs
    split_ifs at hs <;> cases hs <;> simp [Refused, recordCancel]
  | cancelBlock k =>
    obtain ⟨req, -, rfl⟩ := Option.map_eq_some_iff.mp hs
    unfold cancelBlock
    split <;> simp [Refused, recordCancel]
  | dequeue | guard k | send k | unbind k =>
    obtain ⟨hissued, -⟩ := worker_frame hs trivial
    simp [hissued, Refused]

/-- **The records are right in a state exactly if every request that led to it was refused.** -/
theorem booked_run_iff {es : List Event} (h : run (step total) init es = some s) :
    Booked s ↔ Along (step total) (Refused total) init es := by
  rw [(leaky_run h).booked_iff, kept_iff (P := fun s => s.issued = []) issued_step_iff h]
  exact and_iff_right rfl

/-- Peer 5 asks for a piece that is not done, and cancels. -/
theorem booked_run_refused :
    ∃ s, run (step 1) init [.onRequest 5 0 0 16384 7, .onCancel 5 0 0 16384] = some s ∧ Booked s := by
  refine ⟨_, rfl, ?_⟩
  have hrun : run (step 1) init [.onRequest 5 0 0 16384 7, .onCancel 5 0 0 16384] = some _ := rfl
  exact (booked_run_iff hrun).mpr (by simp [Along, Refused, init, step, recordCancel, ticketsOf])

/-- Peer 5 asks for the first block of piece 0 and gets it: the queue is empty and no job is running,
but the id of the job and the key of the request are left. -/
theorem records_left :
    ∃ s, run (step 1) init [.have_ 0, .onRequest 5 0 0 16384 7, .bindUpload 0, .dequeue, .guard 0,
        .send 0, .unbind 0] = some s ∧ Drained s ∧ s.uploadedPieces = [7] ∧
      s.activeRequests ⟨none, 0, 0, 16384⟩ = some 7 ∧ ¬ Booked s := by
  refine ⟨_, rfl, ⟨rfl, rfl⟩, rfl, rfl, fun hbooked => ?_⟩
  have hempty := (hbooked.emptied rfl).1
  cases hempty

end CppTorrent.Upload.Bookkeeping
