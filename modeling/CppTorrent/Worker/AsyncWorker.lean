import CppTorrent.Lib.IndexedQueue
import CppTorrent.Lib.Runs

/-! # The worker threads

`AsyncWorker` keeps its jobs in a list and maps their ids to iterators into it. `Enqueue` draws an id
that is not in the map, `Erase` removes a job through its iterator, and each worker thread takes the
first job, runs it outside the lock and comes back. A step is one critical section, or the end of a
job; the steps of all callers and threads interleave in any order. The destructor is not part of a
run, so `quit_` stays false.

A job has the ticket given by the number of jobs enqueued before it. Which thread took which job, and
which jobs were run or erased, is only recorded. `orderly_run` says that a job is queued, running, run
or erased, and never two of these, that jobs are taken in the order of their tickets, and that no
iterator is stale. -/

namespace CppTorrent.Worker.AsyncWorker

open CppTorrent.Lib.IndexedQueue CppTorrent.Lib.Runs

/-- `AsyncWorker`. -/
structure State where
  /-- `queue_` and `executing_callbacks_`: the tickets of the jobs, by their ids -/
  queue : Queue ℕ ℕ
  stopped : Bool
  /-- the threads that are running a job, with its ticket -/
  running : List (ℕ × ℕ)
  /-- how many jobs have been enqueued -/
  enqueued : ℕ
  /-- the jobs taken so far, each with the thread that took it -/
  taken : List (ℕ × ℕ)
  /-- the jobs run so far -/
  executed : List ℕ
  /-- the jobs erased while they were queued -/
  erased : List ℕ

/-- What can happen next. -/
inductive Event where
  /-- `Enqueue` draws the id and puts the job into the list element `cell` -/
  | enqueue (id cell : ℕ)
  | erase (id : ℕ)
  | start
  | stop
  /-- a thread finds the condition of its `wait` met and takes a job -/
  | take (thread : ℕ)
  /-- the job of a thread returns -/
  | finish (thread : ℕ)

/-- The tickets of the queued jobs with an id. -/
def ticketsOf (id : ℕ) (s : State) : List ℕ :=
  (s.queue.list.filter fun e => e.key = id).map Element.value

/-- One step, with a number of worker threads. -/
def step (threadCount : ℕ) (s : State) : Event → Option State
  | .enqueue id cell =>
    if s.queue.index id ≠ none ∨ cell ∈ s.queue.list.map Element.cell then none
    else some { s with queue := s.queue.push cell s.enqueued id, enqueued := s.enqueued + 1 }
  | .erase id =>
    (s.queue.erase id).map fun queue =>
      { s with queue := queue, erased := s.erased ++ ticketsOf id s }
  | .start => some { s with stopped := false }
  | .stop => some { s with stopped := true }
  | .take thread =>
    if threadCount ≤ thread ∨ thread ∈ s.running.map Prod.fst ∨ s.stopped = true then none
    else
      s.queue.popFront.map fun (e, queue) =>
        { s with
          queue := queue
          running := (thread, e.value) :: s.running
          taken := s.taken ++ [(thread, e.value)] }
  | .finish thread =>
    match s.running.find? fun x => x.1 = thread with
    | none => none
    | some (_, ticket) =>
      some { s with
        running := s.running.eraseP fun x => x.1 = thread
        executed := s.executed ++ [ticket] }

/-- A worker that has just been constructed: it is stopped. -/
def init : State := ⟨empty, true, [], 0, [], [], []⟩

/-! ### The invariant -/

/-- The tickets of the queued jobs. -/
def State.queued (s : State) : List ℕ := s.queue.list.map Element.value

/-- The tickets of the running jobs. -/
def State.runs (s : State) : List ℕ := s.running.map Prod.snd

/-- The tickets of the jobs taken. -/
def State.takes (s : State) : List ℕ := s.taken.map Prod.snd

/-- What holds in every state. -/
structure Inv (s : State) : Prop where
  indexed : WellIndexed s.queue
  /-- the jobs taken and the jobs queued, in the order in which they were enqueued -/
  order : (s.takes ++ s.queued).Pairwise (· < ·)
  /-- every job is queued, running, run or erased, and only one of these -/
  account : (s.queued ++ s.runs ++ s.executed ++ s.erased).Perm (List.range s.enqueued)
  /-- a job taken is running or has been run -/
  taken : s.takes.Perm (s.runs ++ s.executed)

variable {threadCount : ℕ} {s s' : State}

theorem inv_init : Inv init where
  indexed := wellIndexed_empty
  order := List.Pairwise.nil
  account := List.Perm.refl _
  taken := List.Perm.refl _

theorem Inv.lt_enqueued (h : Inv s) {t : ℕ} (ht : t ∈ s.takes ++ s.queued) : t < s.enqueued := by
  refine List.mem_range.mp (h.account.mem_iff.mp ?_)
  rcases List.mem_append.mp ht with ht | ht
  · have hrun := h.taken.mem_iff.mp ht
    simp only [List.mem_append] at hrun ⊢
    tauto
  · simp only [List.mem_append]
    tauto

theorem inv_enqueue {id cell : ℕ} (h : Inv s)
    (hs : step threadCount s (.enqueue id cell) = some s') : Inv s' := by
  simp only [step] at hs
  split_ifs at hs with hfresh
  cases hs
  push Not at hfresh
  have hkey : id ∉ s.queue.list.map Element.key := by
    intro hmem
    obtain ⟨c, hc⟩ := (h.indexed.mem_keys_iff id).mp hmem
    rw [hfresh.1] at hc
    cases hc
  have hqueued : (s.queue.push cell s.enqueued id).list.map Element.value =
      s.queued ++ [s.enqueued] := by
    simp [State.queued, Queue.push]
  refine ⟨h.indexed.push s.enqueued hfresh.2 hkey, ?_, ?_, h.taken⟩
  · -- the new ticket is the largest
    change (s.takes ++ (s.queue.push cell s.enqueued id).list.map Element.value).Pairwise (· < ·)
    rw [hqueued, ← List.append_assoc]
    refine List.pairwise_append.mpr ⟨h.order, List.pairwise_singleton _ _, fun t ht t' ht' => ?_⟩
    rw [List.mem_singleton.mp ht']
    exact h.lt_enqueued ht
  · change ((s.queue.push cell s.enqueued id).list.map Element.value ++ s.runs ++ s.executed ++
      s.erased).Perm (List.range (s.enqueued + 1))
    rw [hqueued, List.range_succ]
    have hmove : (s.queued ++ [s.enqueued] ++ s.runs ++ s.executed ++ s.erased).Perm
        (s.queued ++ s.runs ++ s.executed ++ s.erased ++ [s.enqueued]) := by
      simp only [List.append_assoc]
      refine List.Perm.append_left _ ?_
      rw [List.singleton_append]
      have hend := (List.perm_append_singleton s.enqueued (s.runs ++ (s.executed ++ s.erased))).symm
      simpa only [List.append_assoc] using hend
    exact hmove.trans (h.account.append_right _)

theorem inv_erase {id : ℕ} (h : Inv s) (hs : step threadCount s (.erase id) = some s') : Inv s' := by
  obtain ⟨q, hq, rfl⟩ := Option.map_eq_some_iff.mp hs
  obtain ⟨q', hq', hlist, hindexed⟩ := h.indexed.erase id
  obtain rfl : q' = q := Option.some.inj (hq'.symm.trans hq)
  have hsub : (q'.list.map Element.value).Sublist s.queued := by
    rw [hlist]
    exact List.filter_sublist.map _
  -- the queue is what is left of it and what is erased
  have hsplit : (q'.list.map Element.value ++ ticketsOf id s).Perm s.queued := by
    rw [hlist, ticketsOf, ← List.map_append]
    refine List.Perm.map _ (List.perm_append_comm.trans ?_)
    have hfilter := List.filter_append_perm (fun e : Element ℕ ℕ => decide (e.key = id)) s.queue.list
    simpa only [decide_not, ne_eq] using hfilter
  refine ⟨hindexed, ?_, ?_, h.taken⟩
  · exact h.order.sublist ((List.Sublist.refl _).append hsub)
  · have hall : (q'.list.map Element.value ++ s.runs ++ s.executed ++
        (s.erased ++ ticketsOf id s)).Perm (s.queued ++ s.runs ++ s.executed ++ s.erased) := by
      have hmove : (q'.list.map Element.value ++ s.runs ++ s.executed ++
          (s.erased ++ ticketsOf id s)).Perm (q'.list.map Element.value ++ ticketsOf id s ++
            (s.runs ++ s.executed ++ s.erased)) := by
        simp only [List.append_assoc]
        refine List.Perm.append_left _ ?_
        have hend : (s.runs ++ (s.executed ++ s.erased) ++ ticketsOf id s).Perm
            (ticketsOf id s ++ (s.runs ++ (s.executed ++ s.erased))) := List.perm_append_comm
        simpa only [List.append_assoc] using hend
      refine hmove.trans ?_
      simp only [List.append_assoc]
      rw [← List.append_assoc]
      exact hsplit.append_right _
    exact hall.trans h.account

theorem inv_take {thread : ℕ} (h : Inv s) (hs : step threadCount s (.take thread) = some s') :
    Inv s' := by
  simp only [step] at hs
  split_ifs at hs
  obtain ⟨⟨e, q⟩, hpop, rfl⟩ := Option.map_eq_some_iff.mp hs
  obtain ⟨hlist, hindexed⟩ := h.indexed.popFront hpop
  have hqueued : s.queued = e.value :: q.list.map Element.value := by
    rw [State.queued, hlist, List.map_cons]
  refine ⟨hindexed, ?_, ?_, ?_⟩
  · have horder := h.order
    rw [hqueued] at horder
    simpa [State.takes, State.queued] using horder
  · have haccount := h.account
    rw [hqueued] at haccount
    refine List.Perm.trans ?_ haccount
    simp only [State.queued, State.runs, List.map_cons, List.append_assoc, List.cons_append]
    exact List.perm_middle
  · have htaken := h.taken
    simp only [State.takes, State.runs, List.map_append, List.map_cons, List.map_nil,
      List.cons_append] at htaken ⊢
    exact (List.perm_append_singleton _ _).trans (htaken.cons _)

/-- The element found first is the one that is erased. -/
theorem perm_eraseP_of_find? {α : Type} {p : α → Bool} {l : List α} {a : α}
    (h : l.find? p = some a) : l.Perm (a :: l.eraseP p) := by
  obtain ⟨ha, front, back, rfl, hfront⟩ := List.find?_eq_some_iff_append.mp h
  have herase : (front ++ a :: back).eraseP p = front ++ back := by
    rw [List.eraseP_append_right _ (fun b hb => by simpa using hfront b hb),
      List.eraseP_cons_of_pos ha]
  rw [herase]
  exact List.perm_middle

theorem inv_finish {thread : ℕ} (h : Inv s) (hs : step threadCount s (.finish thread) = some s') :
    Inv s' := by
  simp only [step] at hs
  split at hs
  · cases hs
  · next th ticket hfind =>
    cases hs
    -- the job is moved from those running to those run
    have hmove : ((s.running.eraseP fun x => x.1 = thread).map Prod.snd ++ [ticket]).Perm s.runs := by
      have hmap := (perm_eraseP_of_find? hfind).map Prod.snd
      exact (List.perm_append_singleton _ _).trans hmap.symm
    have hboth : ((s.running.eraseP fun x => x.1 = thread).map Prod.snd ++
        (s.executed ++ [ticket])).Perm (s.runs ++ s.executed) := by
      have hcomm : (s.executed ++ [ticket]).Perm ([ticket] ++ s.executed) := List.perm_append_comm
      refine (hcomm.append_left _).trans ?_
      rw [← List.append_assoc]
      exact hmove.append_right _
    refine ⟨h.indexed, h.order, ?_, h.taken.trans hboth.symm⟩
    refine List.Perm.trans ?_ h.account
    simp only [State.queued, State.runs, List.append_assoc] at hboth ⊢
    refine List.Perm.append_left _ ?_
    rw [← List.append_assoc, ← List.append_assoc, ← List.append_assoc (s.running.map Prod.snd)]
    refine List.Perm.append_right _ ?_
    rw [List.append_assoc]
    exact hboth

/-- **Every step keeps the invariant.** -/
theorem inv_step (e : Event) (h : Inv s) (hs : step threadCount s e = some s') : Inv s' := by
  cases e with
  | enqueue id cell => exact inv_enqueue h hs
  | erase id => exact inv_erase h hs
  | start => cases hs; exact ⟨h.indexed, h.order, h.account, h.taken⟩
  | stop => cases hs; exact ⟨h.indexed, h.order, h.account, h.taken⟩
  | take thread => exact inv_take h hs
  | finish thread => exact inv_finish h hs

theorem inv_run {es : List Event} (h : run (step threadCount) init es = some s) : Inv s :=
  invariant_of_run Inv (fun _ _ => True) (fun _ e _ hi _ hs => inv_step e hi hs) inv_init
    (along_true _ _) h

/-! ### What the worker promises -/

/-- What callers rely on, in a state of a worker. -/
structure Orderly (threadCount : ℕ) (s : State) : Prop where
  /-- the ids in the list are distinct, and each list element has its own cell -/
  distinct : (s.queue.list.map Element.key).Nodup ∧ (s.queue.list.map Element.cell).Nodup
  /-- the keys of the map are the ids in the list, each mapped to its own element -/
  indexed : ∀ id cell, s.queue.index id = some cell ↔ ∃ e ∈ s.queue.list, e.key = id ∧ e.cell = cell
  /-- a job is taken by at most one thread, and only once -/
  once : s.takes.Nodup
  /-- jobs are taken in the order in which they were enqueued -/
  inOrder : (s.takes ++ s.queued).Pairwise (· < ·)
  /-- a job taken is run exactly once: it is running, or has been run -/
  runOnce : (s.runs ++ s.executed).Nodup ∧ ∀ t, t ∈ s.takes ↔ t ∈ s.runs ∨ t ∈ s.executed
  /-- no job is lost -/
  noneLost : ∀ t < s.enqueued, t ∈ s.queued ∨ t ∈ s.takes ∨ t ∈ s.erased
  /-- a job erased while it was queued is not taken -/
  erased : ∀ t ∈ s.erased, t ∉ s.takes ∧ t ∉ s.queued
  /-- no job is taken while the worker is stopped -/
  stopped : s.stopped = true → ∀ thread, step threadCount s (.take thread) = none
  /-- `Erase` of an id that is not queued changes nothing -/
  eraseAbsent : ∀ id, id ∉ s.queue.list.map Element.key → step threadCount s (.erase id) = some s
  /-- `Erase` of an id that is queued removes the job with this id and no other -/
  erasePresent : ∀ id, ∃ s', step threadCount s (.erase id) = some s' ∧
    s'.queue.list = s.queue.list.filter (fun e => e.key ≠ id) ∧ s'.erased = s.erased ++ ticketsOf id s

theorem Inv.nodup (h : Inv s) : (s.queued ++ s.runs ++ s.executed ++ s.erased).Nodup :=
  h.account.nodup_iff.mpr List.nodup_range

theorem Inv.orderly (h : Inv s) : Orderly threadCount s := by
  have hnodup := h.nodup
  rw [List.nodup_append] at hnodup
  obtain ⟨hbefore, -, hapart⟩ := hnodup
  have hmem : ∀ t, t ∈ s.takes ↔ t ∈ s.runs ∨ t ∈ s.executed := fun t => by
    rw [h.taken.mem_iff, List.mem_append]
  refine ⟨⟨h.indexed.keys, h.indexed.cells⟩, h.indexed.index, ?_, h.order, ⟨?_, hmem⟩, fun t ht => ?_,
    fun t ht => ⟨fun htake => ?_, fun hqueue => ?_⟩, fun hstop thread => ?_, fun id hid => ?_,
    fun id => ?_⟩
  · exact (List.pairwise_append.mp h.order).1.imp fun hlt => Nat.ne_of_lt hlt
  · rw [List.append_assoc, List.nodup_append] at hbefore
    exact hbefore.2.1
  · have hall := h.account.mem_iff.mpr (List.mem_range.mpr ht)
    simp only [List.mem_append] at hall
    rw [hmem]
    tauto
  · -- a job that has been taken is not among those erased
    refine hapart t ?_ t ht rfl
    have hrun := (hmem t).mp htake
    simp only [List.mem_append]
    tauto
  · refine hapart t ?_ t ht rfl
    simp only [List.mem_append]
    tauto
  · simp only [step]
    rw [if_pos (Or.inr (Or.inr hstop))]
  · have hnone : ticketsOf id s = [] := by
      refine List.map_eq_nil_iff.mpr (List.filter_eq_nil_iff.mpr fun e he => ?_)
      have hne : e.key ≠ id := by
        rintro rfl
        exact hid (List.mem_map_of_mem he)
      simpa using hne
    rw [step, h.indexed.erase_of_not_mem hid, Option.map_some, hnone, List.append_nil]
  · obtain ⟨q, hq, hlist, -⟩ := h.indexed.erase id
    exact ⟨_, by rw [step, hq, Option.map_some], hlist, rfl⟩

/-- **The worker runs each job once or not at all**, in every state of every run, for any number of
threads. -/
theorem orderly_run {es : List Event} (h : run (step threadCount) init es = some s) :
    Orderly threadCount s := (inv_run h).orderly

/-- Three jobs with two threads: the second job is erased, the first and the third are taken. -/
theorem orderly_run_three :
    ∃ s, run (step 2) init [.enqueue 7 0, .enqueue 5 1, .start, .take 1, .enqueue 9 0, .erase 5,
      .erase 5, .take 0, .finish 1] = some s ∧ s.takes = [0, 2] ∧ Orderly 2 s := by
  refine ⟨_, rfl, rfl, ?_⟩
  have hrun : run (step 2) init [.enqueue 7 0, .enqueue 5 1, .start, .take 1, .enqueue 9 0, .erase 5,
      .erase 5, .take 0, .finish 1] = some _ := rfl
  exact orderly_run hrun

end CppTorrent.Worker.AsyncWorker
