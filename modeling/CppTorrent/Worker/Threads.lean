import CppTorrent.Lib.Simulation
import CppTorrent.Worker.AsyncWorker

/-! # The worker threads, step by step

`Worker.AsyncWorker` takes what a thread does between two jobs as one step. Here a thread goes through
the loop of `run` one access at a time: it tests `quit_`, takes the lock, evaluates the condition of its
`wait`, which reads `stopped_` and then `quit_`, is put to sleep, is woken, and tests again before it takes
a job. `mut_` is held by at most one thread; `Enqueue` and `Erase` are done while nobody holds it, but
`Start`, `Stop` and the destructor store their flag and notify without it.

`refines_run` says that none of this shows as long as the worker is not destroyed: every run of the
threads is a run of the worker of `Worker.AsyncWorker`, with the same jobs queued, taken, run and erased.
A job counts as taken there when its thread has found it with `stopped_` not set; it stays in the list
until the thread has tested `quit_` as well. -/

namespace CppTorrent.Worker.Threads

open CppTorrent.Lib.IndexedQueue CppTorrent.Lib.Runs CppTorrent.Lib.Simulation

/-- Where a thread is in `run`. -/
inductive Pc where
  /-- at `while (!quit_.load())` -/
  | loop
  /-- wants the lock for the body of the loop -/
  | lock
  /-- in the condition of `wait`: reads `stopped_`, and the queue -/
  | reads
  /-- in the condition of `wait`: reads `quit_` -/
  | readsQuit
  /-- the condition is false: it will be put to sleep -/
  | waits
  | asleep
  /-- notified: wants the lock back -/
  | woken
  /-- behind `wait`: tests the queue and `stopped_` -/
  | tests
  /-- tests `quit_` and takes the first job -/
  | takes
  /-- runs the job with a ticket, without the lock -/
  | runs (ticket : ℕ)
  /-- has returned -/
  | exited
  deriving DecidableEq

/-- The thread holds the lock. -/
def Pc.holds : Pc → Bool
  | .reads | .readsQuit | .waits | .tests | .takes => true
  | _ => false

/-- `AsyncWorker` with `n` threads. -/
structure State (n : ℕ) where
  queue : Queue ℕ ℕ
  stopped : Bool
  quit : Bool
  /-- who holds `mut_` -/
  owner : Option (Fin n)
  pcs : Fin n → Pc
  /-- the calls of `Start` that have not notified yet -/
  starting : ℕ
  /-- the calls of `Stop` that have not notified yet -/
  stopping : ℕ
  /-- whether the destructor has not notified yet -/
  quitting : Bool
  enqueued : ℕ
  /-- the jobs taken so far, each with the thread that took it -/
  taken : List (ℕ × ℕ)
  executed : List ℕ
  erased : List ℕ

/-- What can happen next. -/
inductive Event (n : ℕ) where
  /-- `Enqueue` draws the id, puts the job into the list element `cell`, and wakes a thread -/
  | enqueue (id cell : ℕ) (wakes : Option (Fin n))
  | erase (id : ℕ)
  /-- `Start` stores its flag -/
  | start
  /-- `Start` notifies -/
  | startNotify
  | stop
  | stopNotify
  /-- the destructor clears the map and stores its flag -/
  | quit
  | quitNotify
  /-- a thread wakes up without being notified -/
  | spurious (t : Fin n)
  /-- a thread takes its next step -/
  | thread (t : Fin n)

variable {n : ℕ}

/-- A thread goes on to another place. -/
def State.move (t : Fin n) (pc : Pc) (s : State n) : State n :=
  { s with pcs := Function.update s.pcs t pc }

/-- `cv_.notify_one()`. -/
def notifyOne (wakes : Option (Fin n)) (s : State n) : Option (State n) :=
  match wakes with
  | some t => if s.pcs t = .asleep then some (s.move t .woken) else none
  | none => if ∀ t, s.pcs t ≠ .asleep then some s else none

/-- `cv_.notify_all()`. -/
def notifyAll (s : State n) : State n :=
  { s with pcs := fun t => if s.pcs t = .asleep then .woken else s.pcs t }

/-- The tickets of the queued jobs with an id. -/
def ticketsOf (id : ℕ) (s : State n) : List ℕ :=
  (s.queue.list.filter fun e => e.key = id).map Element.value

/-- The next step of a thread; `none` where it has to wait. -/
def threadStep (t : Fin n) (s : State n) : Option (State n) :=
  match s.pcs t with
  | .loop => some (s.move t (if s.quit then .exited else .lock))
  | .lock | .woken => if s.owner = none then some { s.move t .reads with owner := some t } else none
  | .reads =>
    some (s.move t (if s.stopped = false ∧ s.queue.list ≠ [] then .tests else .readsQuit))
  | .readsQuit => some (s.move t (if s.quit then .tests else .waits))
  | .waits => some { s.move t .asleep with owner := none }
  | .asleep => none
  | .tests =>
    if s.queue.list ≠ [] ∧ s.stopped = false then some (s.move t .takes)
    else some { s.move t .loop with owner := none }
  | .takes =>
    if s.quit then some { s.move t .loop with owner := none }
    else
      s.queue.popFront.map fun (e, queue) =>
        { s.move t (.runs e.value) with
          owner := none, queue := queue, taken := s.taken ++ [(t.val, e.value)] }
  | .runs ticket => some { s.move t .loop with executed := s.executed ++ [ticket] }
  | .exited => none

/-- One step. -/
def step (s : State n) : Event n → Option (State n)
  | .enqueue id cell wakes =>
    if s.owner ≠ none ∨ s.queue.index id ≠ none ∨ cell ∈ s.queue.list.map Element.cell then none
    else
      notifyOne wakes
        { s with queue := s.queue.push cell s.enqueued id, enqueued := s.enqueued + 1 }
  | .erase id =>
    if s.owner ≠ none then none
    else
      (s.queue.erase id).map fun queue =>
        { s with queue := queue, erased := s.erased ++ ticketsOf id s }
  | .start => some { s with stopped := false, starting := s.starting + 1 }
  | .startNotify =>
    if s.starting = 0 then none else some { notifyAll s with starting := s.starting - 1 }
  | .stop => some { s with stopped := true, stopping := s.stopping + 1 }
  | .stopNotify =>
    if s.stopping = 0 then none else some { notifyAll s with stopping := s.stopping - 1 }
  | .quit =>
    if s.quit then none
    else some { s with queue := { s.queue with index := fun _ => none }, quit := true, quitting := true }
  | .quitNotify => if s.quitting then some { notifyAll s with quitting := false } else none
  | .spurious t => if s.pcs t = .asleep then some (s.move t .woken) else none
  | .thread t => threadStep t s

/-- A worker that has just been constructed: its threads start, and it is stopped. -/
def init (n : ℕ) : State n :=
  ⟨empty, true, false, none, fun _ => .loop, 0, 0, false, 0, [], [], []⟩

/-- **What a thread can do.** -/
inductive Moves (t : Fin n) (s : State n) : State n → Prop
  | exits (hpc : s.pcs t = .loop) (hquit : s.quit = true) : Moves t s (s.move t .exited)
  | enters (hpc : s.pcs t = .loop) (hquit : s.quit = false) : Moves t s (s.move t .lock)
  | locks (hpc : s.pcs t = .lock ∨ s.pcs t = .woken) (hnone : s.owner = none) :
      Moves t s { s.move t .reads with owner := some t }
  | passes (hpc : s.pcs t = .reads) (hstopped : s.stopped = false) (hqueue : s.queue.list ≠ []) :
      Moves t s (s.move t .tests)
  | doubts (hpc : s.pcs t = .reads) (hcond : s.stopped = true ∨ s.queue.list = []) :
      Moves t s (s.move t .readsQuit)
  | gives (hpc : s.pcs t = .readsQuit) (hquit : s.quit = true) : Moves t s (s.move t .tests)
  | waits (hpc : s.pcs t = .readsQuit) (hquit : s.quit = false) : Moves t s (s.move t .waits)
  | sleeps (hpc : s.pcs t = .waits) : Moves t s { s.move t .asleep with owner := none }
  | finds (hpc : s.pcs t = .tests) (hqueue : s.queue.list ≠ []) (hstopped : s.stopped = false) :
      Moves t s (s.move t .takes)
  | leaves (hpc : s.pcs t = .tests ∨ s.pcs t = .takes ∧ s.quit = true) :
      Moves t s { s.move t .loop with owner := none }
  | takes (hpc : s.pcs t = .takes) (hquit : s.quit = false) (e : Element ℕ ℕ) (queue : Queue ℕ ℕ)
      (hpop : s.queue.popFront = some (e, queue)) :
      Moves t s { s.move t (.runs e.value) with
        owner := none, queue := queue, taken := s.taken ++ [(t.val, e.value)] }
  | finishes (ticket : ℕ) (hpc : s.pcs t = .runs ticket) :
      Moves t s { s.move t .loop with executed := s.executed ++ [ticket] }

variable {s s' : State n}

theorem threadStep_moves {t : Fin n} (h : threadStep t s = some s') : Moves t s s' := by
  unfold threadStep at h
  cases hpc : s.pcs t with
  | loop =>
    rw [hpc] at h
    cases h
    split_ifs with hquit
    · exact .exits hpc hquit
    · exact .enters hpc (by simpa using hquit)
  | lock =>
    rw [hpc] at h
    dsimp only at h
    split_ifs at h with hnone
    cases h
    exact .locks (.inl hpc) hnone
  | woken =>
    rw [hpc] at h
    dsimp only at h
    split_ifs at h with hnone
    cases h
    exact .locks (.inr hpc) hnone
  | reads =>
    rw [hpc] at h
    cases h
    split_ifs with hcond
    · exact .passes hpc hcond.1 hcond.2
    · refine .doubts hpc ?_
      rw [not_and_or, not_not] at hcond
      exact hcond.imp_left Bool.eq_true_of_not_eq_false
  | readsQuit =>
    rw [hpc] at h
    cases h
    split_ifs with hquit
    · exact .gives hpc hquit
    · exact .waits hpc (by simpa using hquit)
  | waits => rw [hpc] at h; cases h; exact .sleeps hpc
  | asleep => rw [hpc] at h; cases h
  | tests =>
    rw [hpc] at h
    dsimp only at h
    split_ifs at h with hcond
    · cases h
      exact .finds hpc hcond.1 hcond.2
    · cases h
      exact .leaves (.inl hpc)
  | takes =>
    rw [hpc] at h
    dsimp only at h
    split_ifs at h with hquit
    · cases h
      exact .leaves (.inr ⟨hpc, hquit⟩)
    · obtain ⟨⟨e, queue⟩, hpop, rfl⟩ := Option.map_eq_some_iff.mp h
      exact .takes hpc (by simpa using hquit) e queue hpop
  | runs ticket => rw [hpc] at h; cases h; exact .finishes ticket hpc
  | exited => rw [hpc] at h; cases h

/-! ### The lock -/

/-- The lock is held by the thread that is where it is held. -/
def Mutex (s : State n) : Prop := ∀ t, s.owner = some t ↔ (s.pcs t).holds = true

theorem mutex_init : Mutex (init n) := fun _ => iff_of_false nofun nofun

theorem Mutex.eq_of_holds (h : Mutex s) {t t' : Fin n} (ht : (s.pcs t).holds = true)
    (ht' : (s.pcs t').holds = true) : t = t' :=
  Option.some.inj (((h t).mpr ht).symm.trans ((h t').mpr ht'))

theorem Mutex.not_holds (h : Mutex s) (hnone : s.owner = none) (t : Fin n) :
    (s.pcs t).holds = false := by
  rw [← Bool.not_eq_true, ← h t, hnone]
  exact nofun

/-- A thread goes on, and holds the lock if it does so there. -/
theorem Mutex.move (h : Mutex s) {t : Fin n} {pc : Pc} (hheld : (s.pcs t).holds = pc.holds)
    (hpcs : s'.pcs = Function.update s.pcs t pc) (howner : s'.owner = s.owner) : Mutex s' := by
  intro t'
  rw [howner, hpcs]
  by_cases ht : t' = t
  · subst ht
    rw [Function.update_self, h t', hheld]
  · rw [Function.update_of_ne ht, h t']

theorem Mutex.takeLock (h : Mutex s) {t : Fin n} {pc : Pc} (hnone : s.owner = none)
    (hpc : pc.holds = true) (hpcs : s'.pcs = Function.update s.pcs t pc)
    (howner : s'.owner = some t) : Mutex s' := by
  intro t'
  rw [howner, hpcs]
  by_cases ht : t' = t
  · subst ht
    rw [Function.update_self]
    exact iff_of_true rfl hpc
  · rw [Function.update_of_ne ht, h.not_holds hnone t']
    exact iff_of_false (fun heq => ht (Option.some.inj heq).symm) nofun

theorem Mutex.unlock (h : Mutex s) {t : Fin n} {pc : Pc} (hheld : (s.pcs t).holds = true)
    (hpc : pc.holds = false) (hpcs : s'.pcs = Function.update s.pcs t pc)
    (howner : s'.owner = none) : Mutex s' := by
  intro t'
  rw [howner, hpcs]
  by_cases ht : t' = t
  · subst ht
    rw [Function.update_self, hpc]
    exact iff_of_false nofun nofun
  · rw [Function.update_of_ne ht]
    exact iff_of_false nofun fun hholds => ht (h.eq_of_holds hholds hheld)

theorem Mutex.notifyAll (h : Mutex s) (hpcs : s'.pcs = (notifyAll s).pcs)
    (howner : s'.owner = s.owner) : Mutex s' := by
  intro t
  rw [howner, h t, hpcs]
  dsimp only [Threads.notifyAll]
  split_ifs with hasleep
  · rw [hasleep]
    rfl
  · rfl

theorem mutex_threadStep {t : Fin n} (h : Mutex s) (hs : threadStep t s = some s') : Mutex s' := by
  cases threadStep_moves hs with
  | exits hpc => exact h.move (hpc ▸ rfl) rfl rfl
  | enters hpc => exact h.move (hpc ▸ rfl) rfl rfl
  | locks hpc hnone => exact h.takeLock hnone rfl rfl rfl
  | passes hpc => exact h.move (hpc ▸ rfl) rfl rfl
  | doubts hpc => exact h.move (hpc ▸ rfl) rfl rfl
  | gives hpc => exact h.move (hpc ▸ rfl) rfl rfl
  | waits hpc => exact h.move (hpc ▸ rfl) rfl rfl
  | sleeps hpc => exact h.unlock (hpc ▸ rfl) rfl rfl rfl
  | finds hpc => exact h.move (hpc ▸ rfl) rfl rfl
  | leaves hpc =>
    rcases hpc with hpc | ⟨hpc, -⟩
    · exact h.unlock (hpc ▸ rfl) rfl rfl rfl
    · exact h.unlock (hpc ▸ rfl) rfl rfl rfl
  | takes hpc => exact h.unlock (hpc ▸ rfl) rfl rfl rfl
  | finishes ticket hpc => exact h.move (hpc ▸ rfl) rfl rfl

theorem mutex_notifyOne {wakes : Option (Fin n)} (h : Mutex s) (hs : notifyOne wakes s = some s') :
    Mutex s' := by
  unfold notifyOne at hs
  cases wakes with
  | none => dsimp only at hs; split_ifs at hs; cases hs; exact h
  | some t =>
    dsimp only at hs
    split_ifs at hs with hasleep
    cases hs
    exact h.move (hasleep ▸ rfl) rfl rfl

theorem mutex_step {e : Event n} (h : Mutex s) (hs : step s e = some s') : Mutex s' := by
  cases e with
  | enqueue id cell wakes =>
    dsimp only [step] at hs
    split_ifs at hs
    exact mutex_notifyOne (s := { s with
      queue := s.queue.push cell s.enqueued id, enqueued := s.enqueued + 1 }) h hs
  | erase id =>
    dsimp only [step] at hs
    split_ifs at hs
    obtain ⟨queue, -, rfl⟩ := Option.map_eq_some_iff.mp hs
    exact h
  | start => cases hs; exact h
  | startNotify =>
    dsimp only [step] at hs
    split_ifs at hs
    cases hs
    exact h.notifyAll rfl rfl
  | stop => cases hs; exact h
  | stopNotify =>
    dsimp only [step] at hs
    split_ifs at hs
    cases hs
    exact h.notifyAll rfl rfl
  | quit =>
    dsimp only [step] at hs
    split_ifs at hs
    cases hs
    exact h
  | quitNotify =>
    dsimp only [step] at hs
    split_ifs at hs
    cases hs
    exact h.notifyAll rfl rfl
  | spurious t =>
    dsimp only [step] at hs
    split_ifs at hs with hasleep
    cases hs
    exact h.move (hasleep ▸ rfl) rfl rfl
  | thread t => exact mutex_threadStep h hs

/-! ### Refinement -/

/-- The thread has no job, and has found none. -/
def Pc.idle : Pc → Bool
  | .takes | .runs _ => false
  | _ => true

/-- The job that a thread runs, or has found and will take. -/
def held (s : State n) (t : Fin n) : Option ℕ :=
  match s.pcs t with
  | .runs ticket => some ticket
  | .takes => s.queue.list.head?.map Element.value
  | _ => none

theorem held_of_idle {t : Fin n} (h : (s.pcs t).idle = true) : held s t = none := by
  unfold held
  cases hpc : s.pcs t with
  | takes => rw [hpc] at h; cases h
  | runs => rw [hpc] at h; cases h
  | _ => rfl

theorem ne_takes_of_idle {pc : Pc} (h : pc.idle = true) : pc ≠ .takes := by
  rintro rfl
  cases h

/-- **The threads are in a state of the worker**: a job that a thread has found counts as taken. -/
structure Refines (s : State n) (a : AsyncWorker.State) : Prop where
  stopped : a.stopped = s.stopped
  enqueued : a.enqueued = s.enqueued
  executed : a.executed = s.executed
  erased : a.erased = s.erased
  free : (∀ t, s.pcs t ≠ .takes) → a.queue = s.queue ∧ a.taken = s.taken
  found : ∀ t, s.pcs t = .takes → ∃ e, s.queue.popFront = some (e, a.queue) ∧
    a.taken = s.taken ++ [(t.val, e.value)]
  running : ∀ i k, (i, k) ∈ a.running ↔ ∃ t : Fin n, t.val = i ∧ held s t = some k
  nodup : (a.running.map Prod.fst).Nodup

variable {a : AsyncWorker.State}

/-- What differs is where the idle threads are. -/
theorem Refines.quiet (h : Refines s a)
    (hsame : s'.stopped = s.stopped ∧ s'.enqueued = s.enqueued ∧ s'.executed = s.executed ∧
      s'.erased = s.erased ∧ s'.queue = s.queue ∧ s'.taken = s.taken)
    (hpcs : ∀ t, s'.pcs t = s.pcs t ∨ (s.pcs t).idle = true ∧ (s'.pcs t).idle = true) :
    Refines s' a := by
  obtain ⟨hstopped, henqueued, hexecuted, herased, hqueue, htaken⟩ := hsame
  have htakes : ∀ t, s'.pcs t = .takes ↔ s.pcs t = .takes := by
    intro t
    rcases hpcs t with heq | ⟨hidle, hidle'⟩
    · rw [heq]
    · exact iff_of_false (ne_takes_of_idle hidle') (ne_takes_of_idle hidle)
  have hheld : ∀ t, held s' t = held s t := by
    intro t
    rcases hpcs t with heq | ⟨hidle, hidle'⟩
    · unfold held
      rw [heq, hqueue]
    · rw [held_of_idle hidle, held_of_idle hidle']
  constructor
  · rw [hstopped, h.stopped]
  · rw [henqueued, h.enqueued]
  · rw [hexecuted, h.executed]
  · rw [herased, h.erased]
  · intro hfree
    rw [hqueue, htaken]
    exact h.free fun t ht => hfree t ((htakes t).mpr ht)
  · intro t ht
    rw [hqueue, htaken]
    exact h.found t ((htakes t).mp ht)
  · intro i k
    rw [h.running]
    simp only [hheld]
  · exact h.nodup

theorem Refines.move (h : Refines s a) {t : Fin n} {pc : Pc} (hpc : (s.pcs t).idle = true)
    (hpc' : pc.idle = true)
    (hsame : s'.stopped = s.stopped ∧ s'.enqueued = s.enqueued ∧ s'.executed = s.executed ∧
      s'.erased = s.erased ∧ s'.queue = s.queue ∧ s'.taken = s.taken)
    (hpcs : s'.pcs = Function.update s.pcs t pc) : Refines s' a := by
  refine h.quiet hsame fun t' => ?_
  rw [hpcs]
  by_cases ht : t' = t
  · subst ht
    rw [Function.update_self]
    exact .inr ⟨hpc, hpc'⟩
  · exact .inl (Function.update_of_ne ht ..)

theorem Refines.notifyAll (h : Refines s a) : Refines (notifyAll s) a := by
  refine h.quiet ⟨rfl, rfl, rfl, rfl, rfl, rfl⟩ fun t => ?_
  dsimp only [Threads.notifyAll]
  split_ifs with hasleep
  · rw [hasleep]
    exact .inr ⟨rfl, rfl⟩
  · exact .inl rfl

theorem Refines.notifyOne {wakes : Option (Fin n)} (h : Refines s a)
    (hs : notifyOne wakes s = some s') : Refines s' a := by
  unfold Threads.notifyOne at hs
  cases wakes with
  | none => dsimp only at hs; split_ifs at hs; cases hs; exact h
  | some t =>
    dsimp only at hs
    split_ifs at hs with hasleep
    cases hs
    exact h.move (hasleep ▸ rfl) rfl ⟨rfl, rfl, rfl, rfl, rfl, rfl⟩ rfl

/-- While nobody holds the lock, no thread has found a job that it has not taken. -/
theorem Mutex.ne_takes (h : Mutex s) (hnone : s.owner = none) (t : Fin n) : s.pcs t ≠ .takes := by
  intro hpc
  have hholds := h.not_holds hnone t
  rw [hpc] at hholds
  cases hholds

/-- A thread that has found a job takes it. -/
theorem Refines.takes {t : Fin n} {e : Element ℕ ℕ} {queue : Queue ℕ ℕ} (h : Refines s a)
    (hm : Mutex s) (hpc : s.pcs t = .takes) (hpop : s.queue.popFront = some (e, queue)) :
    Refines { s.move t (.runs e.value) with
      owner := none, queue := queue, taken := s.taken ++ [(t.val, e.value)] } a := by
  obtain ⟨e', hpop', htaken⟩ := h.found t hpc
  obtain ⟨rfl, hqueue⟩ : e = e' ∧ queue = a.queue := by
    rw [hpop] at hpop'
    exact Prod.mk.inj (Option.some.inj hpop')
  have hfree : ∀ t', Function.update s.pcs t (.runs e.value) t' ≠ .takes := by
    intro t'
    by_cases ht : t' = t
    · subst ht
      rw [Function.update_self]
      exact nofun
    · rw [Function.update_of_ne ht]
      exact fun hpc' => ht (hm.eq_of_holds (hpc' ▸ rfl) (hpc ▸ rfl))
  have hhead : s.queue.list.head?.map Element.value = some e.value := by
    unfold Queue.popFront at hpop
    cases hlist : s.queue.list with
    | nil => rw [hlist] at hpop; cases hpop
    | cons e' list => rw [hlist] at hpop; cases hpop; rfl
  refine ⟨h.stopped, h.enqueued, h.executed, h.erased, fun _ => ⟨hqueue.symm, htaken⟩,
    fun t' ht' => absurd ht' (hfree t'), fun i k => ?_, h.nodup⟩
  rw [h.running]
  refine exists_congr fun t' => and_congr_right fun _ => ?_
  unfold held
  dsimp only [State.move]
  by_cases ht : t' = t
  · subst ht
    rw [Function.update_self, hpc]
    dsimp only
    rw [hhead]
  · rw [Function.update_of_ne ht]
    have hne : s.pcs t' ≠ .takes := fun hpc' => ht (hm.eq_of_holds (hpc' ▸ rfl) (hpc ▸ rfl))
    cases hpc' : s.pcs t' with
    | takes => exact absurd hpc' hne
    | _ => rfl

/-- A thread that finds a job takes it in the worker. -/
theorem Refines.finds {t : Fin n} (h : Refines s a) (hm : Mutex s) (hpc : s.pcs t = .tests)
    (hqueue : s.queue.list ≠ []) (hstopped : s.stopped = false) :
    ∃ a', AsyncWorker.step n a (.take t) = some a' ∧ Refines (s.move t .takes) a' := by
  have hfree : ∀ t', s.pcs t' ≠ .takes := by
    intro t' hpc'
    have ht : t' = t := hm.eq_of_holds (hpc' ▸ rfl) (hpc ▸ rfl)
    rw [ht, hpc] at hpc'
    cases hpc'
  obtain ⟨hsame, htaken⟩ := h.free hfree
  have hnot : t.val ∉ a.running.map Prod.fst := by
    intro hmem
    obtain ⟨⟨i, k⟩, hmem, hi⟩ := List.mem_map.mp hmem
    obtain ⟨t', ht', hheld⟩ := (h.running i k).mp hmem
    obtain rfl : t' = t := Fin.ext (ht'.trans hi)
    rw [held_of_idle (hpc ▸ rfl)] at hheld
    cases hheld
  obtain ⟨e, list, hlist⟩ := List.exists_cons_of_ne_nil hqueue
  have hpop : a.queue.popFront = some (e, ⟨list, Function.update s.queue.index e.key none⟩) := by
    unfold Queue.popFront
    rw [hsame, hlist]
  have hstep : AsyncWorker.step n a (.take t) = some { a with
      queue := ⟨list, Function.update s.queue.index e.key none⟩
      running := (t.val, e.value) :: a.running
      taken := a.taken ++ [(t.val, e.value)] } := by
    dsimp only [AsyncWorker.step]
    rw [if_neg, hpop, Option.map_some]
    rintro (hle | hmem | hstop)
    · exact absurd t.isLt (Nat.not_lt_of_le hle)
    · exact hnot hmem
    · rw [h.stopped, hstopped] at hstop
      cases hstop
  refine ⟨_, hstep, h.stopped, h.enqueued, h.executed, h.erased, fun hfree' => ?_, fun t' ht' => ?_,
    fun i k => ?_, List.nodup_cons.mpr ⟨hnot, h.nodup⟩⟩
  · exact absurd (Function.update_self ..) (hfree' t)
  · have ht : t' = t := by
      by_contra hne
      exact hfree t' ((Function.update_of_ne hne ..).symm.trans ht')
    subst ht
    rw [hsame] at hpop
    exact ⟨e, hpop, htaken ▸ rfl⟩
  · have hheld : held (s.move t .takes) t = some e.value := by
      unfold held State.move
      dsimp only
      rw [Function.update_self, hlist]
      rfl
    have hother : ∀ t', t' ≠ t → held (s.move t .takes) t' = held s t' := by
      intro t' hne
      unfold held State.move
      dsimp only
      rw [Function.update_of_ne hne]
    rw [List.mem_cons, h.running]
    constructor
    · rintro (heq | ⟨t', hi, hk⟩)
      · obtain ⟨rfl, rfl⟩ := Prod.mk.inj heq
        exact ⟨t, rfl, hheld⟩
      · have hne : t' ≠ t := by
          rintro rfl
          rw [held_of_idle (hpc ▸ rfl)] at hk
          cases hk
        exact ⟨t', hi, (hother t' hne).trans hk⟩
    · rintro ⟨t', hi, hk⟩
      by_cases hne : t' = t
      · subst hne
        rw [hheld] at hk
        exact .inl (Prod.ext hi.symm (Option.some.inj hk).symm)
      · exact .inr ⟨t', hi, (hother t' hne).symm.trans hk⟩

/-- A job returns. -/
theorem Refines.finishes {t : Fin n} {ticket : ℕ} (h : Refines s a) (hpc : s.pcs t = .runs ticket) :
    ∃ a', AsyncWorker.step n a (.finish t) = some a' ∧
      Refines { s.move t .loop with executed := s.executed ++ [ticket] } a' := by
  have hheld : held s t = some ticket := by
    unfold held
    rw [hpc]
  have hmem : (t.val, ticket) ∈ a.running := (h.running _ _).mpr ⟨t, rfl, hheld⟩
  -- no other entry of the list has this thread
  have hfind : a.running.find? (fun x => x.1 = t.val) = some (t.val, ticket) := by
    have hsome : (a.running.find? fun x => x.1 = t.val).isSome = true :=
      List.find?_isSome.mpr ⟨_, hmem, by simp⟩
    obtain ⟨⟨i, k⟩, hx⟩ := Option.isSome_iff_exists.mp hsome
    have hi : i = t.val := by simpa using List.find?_some hx
    obtain ⟨t', ht', hk⟩ := (h.running i k).mp (List.mem_of_find?_eq_some hx)
    obtain rfl : t' = t := Fin.ext (ht'.trans hi)
    rw [hheld] at hk
    rw [hx, hi, Option.some.inj hk]
  have hstep : AsyncWorker.step n a (.finish t) = some { a with
      running := a.running.eraseP fun x => x.1 = t.val
      executed := a.executed ++ [ticket] } := by
    dsimp only [AsyncWorker.step]
    rw [hfind]
  have herase : (a.running.eraseP fun x => x.1 = t.val) = a.running.filter fun x => x.1 ≠ t.val :=
    eraseP_eq_filter h.nodup
  refine ⟨_, hstep, h.stopped, h.enqueued, congrArg (· ++ [ticket]) h.executed, h.erased,
    fun hfree => ?_, fun t' ht' => ?_, fun i k => ?_, ?_⟩
  · refine h.free fun t' ht' => ?_
    have hne : t' ≠ t := by
      rintro rfl
      rw [hpc] at ht'
      cases ht'
    exact hfree t' ((Function.update_of_ne hne ..).trans ht')
  · by_cases hne : t' = t
    · subst hne
      cases (Function.update_self ..).symm.trans ht'
    · exact h.found t' ((Function.update_of_ne hne ..).symm.trans ht')
  · dsimp only
    rw [herase, List.mem_filter, h.running]
    constructor
    · rintro ⟨⟨t', hi, hk⟩, hne⟩
      have hne' : t' ≠ t := by
        rintro rfl
        exact of_decide_eq_true hne hi.symm
      refine ⟨t', hi, ?_⟩
      rw [← hk]
      unfold held State.move
      dsimp only
      rw [Function.update_of_ne hne']
    · rintro ⟨t', hi, hk⟩
      have hne : t' ≠ t := by
        rintro rfl
        unfold held State.move at hk
        dsimp only at hk
        rw [Function.update_self] at hk
        cases hk
      refine ⟨⟨t', hi, ?_⟩, decide_eq_true fun heq => hne (Fin.ext (hi.trans heq))⟩
      rw [← hk]
      unfold held State.move
      dsimp only
      rw [Function.update_of_ne hne]
  · rw [herase]
    exact h.nodup.sublist (List.filter_sublist.map _)

/-- **A step of a thread** is a step of the worker, or none. -/
theorem Refines.threadStep {t : Fin n} (h : Refines s a) (hm : Mutex s) (hquit : s.quit = false)
    (hs : threadStep t s = some s') :
    ∃ es a', run (AsyncWorker.step n) a es = some a' ∧ Refines s' a' := by
  cases threadStep_moves hs with
  | exits hpc hquit' =>
    rw [hquit] at hquit'
    cases hquit'
  | enters hpc => exact matched_nil (h.move (hpc ▸ rfl) rfl ⟨rfl, rfl, rfl, rfl, rfl, rfl⟩ rfl)
  | locks hpc =>
    refine matched_nil (h.move ?_ rfl ⟨rfl, rfl, rfl, rfl, rfl, rfl⟩ rfl)
    rcases hpc with hpc | hpc
    · exact hpc ▸ rfl
    · exact hpc ▸ rfl
  | passes hpc => exact matched_nil (h.move (hpc ▸ rfl) rfl ⟨rfl, rfl, rfl, rfl, rfl, rfl⟩ rfl)
  | doubts hpc => exact matched_nil (h.move (hpc ▸ rfl) rfl ⟨rfl, rfl, rfl, rfl, rfl, rfl⟩ rfl)
  | gives hpc => exact matched_nil (h.move (hpc ▸ rfl) rfl ⟨rfl, rfl, rfl, rfl, rfl, rfl⟩ rfl)
  | waits hpc => exact matched_nil (h.move (hpc ▸ rfl) rfl ⟨rfl, rfl, rfl, rfl, rfl, rfl⟩ rfl)
  | sleeps hpc => exact matched_nil (h.move (hpc ▸ rfl) rfl ⟨rfl, rfl, rfl, rfl, rfl, rfl⟩ rfl)
  | finds hpc hqueue hstopped =>
    obtain ⟨a', ha, hr⟩ := h.finds hm hpc hqueue hstopped
    exact matched_one ha hr
  | leaves hpc =>
    rcases hpc with hpc | ⟨-, hquit'⟩
    · exact matched_nil (h.move (hpc ▸ rfl) rfl ⟨rfl, rfl, rfl, rfl, rfl, rfl⟩ rfl)
    · rw [hquit] at hquit'
      cases hquit'
  | takes hpc hquit e queue hpop => exact matched_nil (h.takes hm hpc hpop)
  | finishes ticket hpc =>
    obtain ⟨a', ha, hr⟩ := h.finishes hpc
    exact matched_one ha hr

/-- **A step** is a run of the worker, as long as the destructor has not been called. -/
theorem Refines.step {e : Event n} (h : Refines s a) (hm : Mutex s) (hquit : s.quit = false)
    (hquit' : s'.quit = false) (hs : step s e = some s') :
    ∃ es a', run (AsyncWorker.step n) a es = some a' ∧ Refines s' a' := by
  cases e with
  | enqueue id cell wakes =>
    dsimp only [Threads.step] at hs
    split_ifs at hs with hcond
    rw [not_or, not_or, not_not, not_not] at hcond
    obtain ⟨hnone, hid, hcell⟩ := hcond
    obtain ⟨hqueue, htaken⟩ := h.free (hm.ne_takes hnone)
    have ha : AsyncWorker.step n a (.enqueue id cell) = some { a with
        queue := a.queue.push cell a.enqueued id, enqueued := a.enqueued + 1 } := by
      dsimp only [AsyncWorker.step]
      rw [if_neg]
      rw [hqueue, not_or]
      exact ⟨not_not.mpr hid, hcell⟩
    refine matched_one ha (Refines.notifyOne (s := { s with
      queue := s.queue.push cell s.enqueued id, enqueued := s.enqueued + 1 }) ?_ hs)
    refine ⟨h.stopped, congrArg (· + 1) h.enqueued, h.executed, h.erased, fun _ => ⟨?_, htaken⟩,
      fun t ht => absurd ht (hm.ne_takes hnone t), fun i k => ?_, h.nodup⟩
    · dsimp only
      rw [hqueue, h.enqueued]
    · rw [h.running]
      refine exists_congr fun t => and_congr_right fun _ => ?_
      unfold held
      cases hpc : s.pcs t with
      | takes => exact absurd hpc (hm.ne_takes hnone t)
      | _ => rfl
  | erase id =>
    dsimp only [Threads.step] at hs
    split_ifs at hs with hcond
    have hnone := not_not.mp hcond
    obtain ⟨queue, herase, rfl⟩ := Option.map_eq_some_iff.mp hs
    obtain ⟨hqueue, htaken⟩ := h.free (hm.ne_takes hnone)
    have ha : AsyncWorker.step n a (.erase id) = some { a with
        queue := queue, erased := a.erased ++ AsyncWorker.ticketsOf id a } := by
      dsimp only [AsyncWorker.step]
      rw [hqueue, herase]
      rfl
    refine matched_one ha ⟨h.stopped, h.enqueued, h.executed, ?_, fun _ => ⟨rfl, htaken⟩,
      fun t ht => absurd ht (hm.ne_takes hnone t), fun i k => ?_, h.nodup⟩
    · dsimp only
      rw [h.erased]
      unfold AsyncWorker.ticketsOf ticketsOf
      rw [hqueue]
    · rw [h.running]
      refine exists_congr fun t => and_congr_right fun _ => ?_
      unfold held
      cases hpc : s.pcs t with
      | takes => exact absurd hpc (hm.ne_takes hnone t)
      | _ => rfl
  | start =>
    cases hs
    have ha : AsyncWorker.step n a .start = some { a with stopped := false } := rfl
    exact matched_one ha ⟨rfl, h.enqueued, h.executed, h.erased, h.free, h.found, h.running, h.nodup⟩
  | stop =>
    cases hs
    have ha : AsyncWorker.step n a .stop = some { a with stopped := true } := rfl
    exact matched_one ha ⟨rfl, h.enqueued, h.executed, h.erased, h.free, h.found, h.running, h.nodup⟩
  | startNotify =>
    dsimp only [Threads.step] at hs
    split_ifs at hs
    cases hs
    exact matched_nil { h.notifyAll with }
  | stopNotify =>
    dsimp only [Threads.step] at hs
    split_ifs at hs
    cases hs
    exact matched_nil { h.notifyAll with }
  | quit =>
    dsimp only [Threads.step] at hs
    split_ifs at hs
    cases hs
    cases hquit'
  | quitNotify =>
    dsimp only [Threads.step] at hs
    split_ifs at hs
    cases hs
    exact matched_nil { h.notifyAll with }
  | spurious t =>
    dsimp only [Threads.step] at hs
    split_ifs at hs with hasleep
    cases hs
    exact matched_nil (h.move (hasleep ▸ rfl) rfl ⟨rfl, rfl, rfl, rfl, rfl, rfl⟩ rfl)
  | thread t => exact h.threadStep hm hquit hs

theorem refines_init (n : ℕ) : Refines (init n) AsyncWorker.init where
  stopped := rfl
  enqueued := rfl
  executed := rfl
  erased := rfl
  free _ := ⟨rfl, rfl⟩
  found _ ht := nomatch ht
  running _ _ := iff_of_false List.not_mem_nil fun ⟨_, _, hk⟩ => nomatch hk
  nodup := List.nodup_nil

theorem quit_threadStep {t : Fin n} (hs : threadStep t s = some s') : s'.quit = s.quit := by
  cases threadStep_moves hs <;> rfl

/-- `quit_` is never reset. -/
theorem quit_of_step {e : Event n} (hs : step s e = some s') (hquit' : s'.quit = false) :
    s.quit = false := by
  cases e with
  | enqueue id cell wakes =>
    dsimp only [step] at hs
    split_ifs at hs
    unfold notifyOne at hs
    split at hs
    all_goals
      split_ifs at hs
      cases hs
      exact hquit'
  | erase id =>
    dsimp only [step] at hs
    split_ifs at hs
    obtain ⟨queue, -, rfl⟩ := Option.map_eq_some_iff.mp hs
    exact hquit'
  | start => cases hs; exact hquit'
  | stop => cases hs; exact hquit'
  | thread t => exact (quit_threadStep hs).symm.trans hquit'
  | _ =>
    dsimp only [step] at hs
    split_ifs at hs
    cases hs
    first
      | exact hquit'
      | cases hquit'

/-- **Every run of the threads is a run of the worker**, as long as it is not destroyed. -/
theorem refines_run {es : List (Event n)} (hrun : run step (init n) es = some s)
    (hquit : s.quit = false) : ∃ fs a, run (AsyncWorker.step n) AsyncWorker.init fs = some a ∧
      Refines s a := by
  have hsim : ∀ (s : State n) (e : Event n) (s' : State n) (a : AsyncWorker.State),
      Mutex s ∧ (s.quit = false → Refines s a) → step s e = some s' →
      ∃ fs a', run (AsyncWorker.step n) a fs = some a' ∧ Mutex s' ∧ (s'.quit = false → Refines s' a') := by
    rintro s e s' a ⟨hm, hr⟩ hs
    have hm' := mutex_step hm hs
    cases hq : s'.quit with
    | true => exact ⟨[], a, rfl, hm', nofun⟩
    | false =>
      have hq0 := quit_of_step hs hq
      obtain ⟨fs, a', hfs, hr'⟩ := (hr hq0).step hm hq0 hq hs
      exact ⟨fs, a', hfs, hm', fun _ => hr'⟩
  obtain ⟨fs, a, hfs, -, hr⟩ := exists_run_of_simulation hsim
    ⟨mutex_init, fun _ => refines_init n⟩ hrun
  exact ⟨fs, a, hfs, hr hquit⟩

/-- A thread of a worker that has been started takes a job and runs it. -/
def runsOne (t : Fin n) : List (Event n) :=
  [.start, .startNotify, .enqueue 7 0 none] ++ List.replicate 7 (.thread t)

theorem refines_run_one : ∃ s, run step (init 2) (runsOne ⟨0, Nat.zero_lt_two⟩) = some s ∧
    s.executed = [0] ∧ ∃ fs a, run (AsyncWorker.step 2) AsyncWorker.init fs = some a ∧ Refines s a := by
  refine ⟨_, rfl, rfl, ?_⟩
  have hrun : run step (init 2) (runsOne ⟨0, Nat.zero_lt_two⟩) = some _ := rfl
  exact refines_run hrun rfl

end CppTorrent.Worker.Threads
