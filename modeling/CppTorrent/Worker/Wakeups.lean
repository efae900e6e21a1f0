import CppTorrent.Worker.Threads

/-! # Sleeping and waking up

A thread that finds nothing to do is put to sleep, and must be woken when there is something. `Enqueue`
notifies while it holds the lock. `Start` and the destructor store their flag and notify without it; a
thread that has read the old value and has not fallen asleep yet misses the notification.

`awake_run` says that this is the only way to lose one: in a run in which `Start` does not notify while
there are jobs and such a thread, no thread sleeps while more jobs are queued than threads are on their
way to take one. `exits_run` is about the destructor: if no thread is about to fall asleep when it
notifies, then every thread can go on until it has returned, and has at most six steps to take. -/

namespace CppTorrent.Worker.Wakeups

open CppTorrent.Lib.IndexedQueue CppTorrent.Lib.Runs CppTorrent.Lib.Simulation
open CppTorrent.Worker.Threads

variable {n : ℕ} {s s' : State n}

/-- The thread is on its way to take a job. -/
def seeks : Pc → Bool
  | .asleep | .runs _ | .exited => false
  | _ => true

/-- The thread has found nothing to do, and is not asleep yet. -/
def doubts : Pc → Bool
  | .readsQuit | .waits => true
  | _ => false

/-- The number of threads on their way to take a job. -/
def seekers (s : State n) : ℕ := ∑ t, (seeks (s.pcs t)).toNat

/-- Jobs are to be run: the worker is not stopped, the last `Start` has notified, and the destructor has
not been called. -/
def Calls (s : State n) : Prop := s.stopped = false ∧ s.starting = 0 ∧ s.quit = false

/-- No thread sleeps, or as many are on their way as there are jobs. -/
def Awake (s : State n) : Prop := (∀ t, s.pcs t ≠ .asleep) ∨ s.queue.list.length ≤ seekers s

/-- `Start` does not notify while there are jobs and a thread that has not seen them called for. -/
def Timely (s : State n) : Event n → Prop
  | .startNotify => ∀ t, doubts (s.pcs t) = true → s.queue.list = []
  | _ => True

/-- What holds in every state of a run in which `Start` notifies in time. -/
structure Inv (s : State n) : Prop where
  mutex : Mutex s
  doubts : ∀ t, doubts (s.pcs t) = true → Calls s → s.queue.list = []
  awake : Calls s → Awake s

theorem holds_of_doubts {pc : Pc} (h : doubts pc = true) : pc.holds = true := by
  cases pc <;> first | rfl | cases h

theorem seekers_update {t : Fin n} {pc : Pc} (h : s'.pcs = Function.update s.pcs t pc) :
    seekers s' + (seeks (s.pcs t)).toNat = seekers s + (seeks pc).toNat := by
  unfold seekers
  rw [h]
  exact sum_update (fun pc => (seeks pc).toNat) s.pcs t pc

/-- A thread goes on to another place. The jobs that are queued do not get more than the threads on
their way. -/
theorem Inv.goes (h : Inv s) {t : Fin n} (pc : Pc) (hm : Mutex s')
    (hpcs : s'.pcs = Function.update s.pcs t pc) (hcalls : Calls s' → Calls s) (hasleep : pc ≠ .asleep)
    (hdoubts : Wakeups.doubts pc = true → Calls s → s'.queue.list = [])
    (hothers : ∀ t' ≠ t, Wakeups.doubts (s.pcs t') = true → Calls s → s'.queue.list = [])
    (hcount : s'.queue.list.length + (seeks (s.pcs t)).toNat ≤
      s.queue.list.length + (seeks pc).toNat) : Inv s' := by
  have hself : s'.pcs t = pc := by rw [hpcs, Function.update_self]
  have hother : ∀ t' ≠ t, s'.pcs t' = s.pcs t' := fun t' ht => by rw [hpcs, Function.update_of_ne ht]
  refine ⟨hm, fun t' ht' hc => ?_, fun hc => ?_⟩
  · by_cases ht : t' = t
    · subst ht
      exact hdoubts (hself ▸ ht') (hcalls hc)
    · exact hothers t' ht (hother t' ht ▸ ht') (hcalls hc)
  · have hseekers := seekers_update hpcs
    refine (h.awake (hcalls hc)).imp (fun hnone t' => ?_) (fun hle => by omega)
    by_cases ht : t' = t
    · subst ht
      rw [hself]
      exact hasleep
    · rw [hother t' ht]
      exact hnone t'

/-- A thread goes on that seeks, and still does. -/
theorem Inv.seeks (h : Inv s) {t : Fin n} (pc : Pc) (hpc : seeks (s.pcs t) = true) (hm : Mutex s')
    (hpcs : s'.pcs = Function.update s.pcs t pc) (hqueue : s'.queue = s.queue)
    (hcalls : Calls s' → Calls s) (hpc' : Wakeups.seeks pc = true)
    (hdoubts : Wakeups.doubts pc = true → Calls s → s.queue.list = []) : Inv s' := by
  refine h.goes pc hm hpcs hcalls ?_ (hqueue ▸ hdoubts) (fun t' _ => hqueue ▸ h.doubts t') ?_
  · rintro rfl
    cases hpc'
  · rw [hqueue, hpc, hpc']

theorem inv_threadStep {t : Fin n} (h : Inv s) (hs : threadStep t s = some s') : Inv s' := by
  have hm := mutex_threadStep h.mutex hs
  cases threadStep_moves hs with
  | exits hpc hquit =>
    have hnot : ¬ Calls (s.move t .exited) := fun hc => Bool.false_ne_true (hc.2.2.symm.trans hquit)
    exact ⟨hm, fun _ _ hc => absurd hc hnot, fun hc => absurd hc hnot⟩
  | enters hpc => exact h.seeks .lock (hpc ▸ rfl) hm rfl rfl id rfl fun hd => nomatch hd
  | locks hpc =>
    refine h.seeks .reads ?_ hm rfl rfl id rfl fun hd => nomatch hd
    rcases hpc with hpc | hpc
    · exact hpc ▸ rfl
    · exact hpc ▸ rfl
  | passes hpc => exact h.seeks .tests (hpc ▸ rfl) hm rfl rfl id rfl fun hd => nomatch hd
  | doubts hpc hcond =>
    refine h.seeks .readsQuit (hpc ▸ rfl) hm rfl rfl id rfl fun _ hc => ?_
    refine hcond.resolve_left fun hstopped => ?_
    exact Bool.false_ne_true (hc.1.symm.trans hstopped)
  | gives hpc => exact h.seeks .tests (hpc ▸ rfl) hm rfl rfl id rfl fun hd => nomatch hd
  | waits hpc => exact h.seeks .waits (hpc ▸ rfl) hm rfl rfl id rfl fun _ => h.doubts t (hpc ▸ rfl)
  | sleeps hpc =>
    have hempty : Calls s → s.queue.list = [] := h.doubts t (hpc ▸ rfl)
    refine ⟨hm, fun t' ht' hc => hempty hc, fun hc => .inr ?_⟩
    show s.queue.list.length ≤ _
    rw [hempty hc]
    exact Nat.zero_le _
  | finds hpc => exact h.seeks .takes (hpc ▸ rfl) hm rfl rfl id rfl fun hd => nomatch hd
  | leaves hpc =>
    refine h.seeks .loop ?_ hm rfl rfl id rfl fun hd => nomatch hd
    rcases hpc with hpc | ⟨hpc, -⟩
    · exact hpc ▸ rfl
    · exact hpc ▸ rfl
  | takes hpc hquit e queue hpop =>
    refine h.goes (.runs e.value) hm rfl id nofun (fun hd => nomatch hd) (fun t' ht hd => ?_) ?_
    · -- only the thread that takes the job holds the lock
      exact absurd (h.mutex.eq_of_holds (holds_of_doubts hd) (hpc ▸ rfl)) ht
    · rw [hpc, length_popFront hpop]
      exact le_rfl
  | finishes ticket hpc =>
    refine h.goes .loop hm rfl id nofun (fun hd => nomatch hd) (fun t' _ => h.doubts t') ?_
    rw [hpc]
    exact Nat.le_succ _

theorem doubts_of_notifyAll {t : Fin n} (h : Wakeups.doubts ((notifyAll s).pcs t) = true) :
    Wakeups.doubts (s.pcs t) = true := by
  dsimp only [notifyAll] at h
  split_ifs at h
  · cases h
  · exact h

/-- All threads are woken. -/
theorem inv_notifyAll (hm : Mutex s') (hpcs : s'.pcs = (notifyAll s).pcs)
    (hqueue : s'.queue = s.queue)
    (hdoubts : ∀ t, Wakeups.doubts (s.pcs t) = true → Calls s' → s.queue.list = []) : Inv s' := by
  refine ⟨hm, fun t ht hc => ?_, fun hc => .inl fun t => ?_⟩
  · rw [hpcs] at ht
    rw [hqueue]
    exact hdoubts t (doubts_of_notifyAll ht) hc
  · rw [hpcs]
    dsimp only [notifyAll]
    split_ifs with hasleep
    · exact nofun
    · exact hasleep

/-- **Every step keeps the invariant** if `Start` notifies in time. -/
theorem inv_step (s : State n) (e : Event n) (s' : State n) (h : Inv s) (htimely : Timely s e)
    (hs : step s e = some s') : Inv s' := by
  have hm := mutex_step h.mutex hs
  cases e with
  | enqueue id cell wakes =>
    dsimp only [step] at hs
    split_ifs at hs with hcond
    rw [not_or, not_not] at hcond
    -- nobody holds the lock, so no thread is in doubt
    have hnone : ∀ t, Wakeups.doubts (s.pcs t) = false := by
      intro t
      rw [← Bool.not_eq_true]
      intro hd
      exact Bool.noConfusion ((holds_of_doubts hd).symm.trans (h.mutex.not_holds hcond.1 t))
    have hlength : (s.queue.push cell s.enqueued id).list.length = s.queue.list.length + 1 := by
      simp [Queue.push]
    unfold notifyOne at hs
    cases wakes with
    | none =>
      dsimp only at hs
      split_ifs at hs with hasleep
      cases hs
      refine ⟨hm, fun t ht => ?_, fun _ => .inl hasleep⟩
      exact Bool.noConfusion (ht.symm.trans (hnone t))
    | some t =>
      dsimp only at hs
      split_ifs at hs with hasleep
      cases hs
      refine h.goes .woken hm rfl (fun hc => hc) (by decide) (fun hd => Bool.noConfusion hd)
        (fun t' _ hd => ?_) ?_
      · exact Bool.noConfusion (hd.symm.trans (hnone t'))
      · dsimp only [State.move]
        rw [hasleep, hlength]
        exact le_rfl
  | erase id =>
    dsimp only [step] at hs
    split_ifs at hs with hcond
    obtain ⟨queue, herase, rfl⟩ := Option.map_eq_some_iff.mp hs
    have hsub : queue.list.Sublist s.queue.list := sublist_erase herase
    refine ⟨hm, fun t ht hc => ?_, fun hc => ?_⟩
    · have hempty := h.doubts t ht hc
      rw [hempty] at hsub
      exact List.sublist_nil.mp hsub
    · exact (h.awake hc).imp_right hsub.length_le.trans
  | start =>
    cases hs
    have hnot : ¬ Calls { s with stopped := false, starting := s.starting + 1 } :=
      fun hc => Nat.succ_ne_zero _ hc.2.1
    exact ⟨hm, fun _ _ hc => absurd hc hnot, fun hc => absurd hc hnot⟩
  | stop =>
    cases hs
    have hnot : ¬ Calls { s with stopped := true, stopping := s.stopping + 1 } :=
      fun hc => Bool.false_ne_true hc.1.symm
    exact ⟨hm, fun _ _ hc => absurd hc hnot, fun hc => absurd hc hnot⟩
  | startNotify =>
    dsimp only [step] at hs
    split_ifs at hs
    cases hs
    exact inv_notifyAll hm rfl rfl fun t ht _ => htimely t ht
  | stopNotify =>
    dsimp only [step] at hs
    split_ifs at hs
    cases hs
    exact inv_notifyAll hm rfl rfl h.doubts
  | quit =>
    dsimp only [step] at hs
    split_ifs at hs
    cases hs
    have hnot : ¬ Calls { s with
        queue := { s.queue with index := fun _ => none }, quit := true, quitting := true } :=
      fun hc => Bool.false_ne_true hc.2.2.symm
    exact ⟨hm, fun _ _ hc => absurd hc hnot, fun hc => absurd hc hnot⟩
  | quitNotify =>
    dsimp only [step] at hs
    split_ifs at hs
    cases hs
    exact inv_notifyAll hm rfl rfl h.doubts
  | spurious t =>
    dsimp only [step] at hs
    split_ifs at hs with hasleep
    cases hs
    refine h.goes .woken hm rfl id (by decide) (fun hd => Bool.noConfusion hd) (fun t' _ => h.doubts t') ?_
    rw [hasleep]
    exact Nat.le_succ _
  | thread t => exact inv_threadStep h hs

theorem inv_init (n : ℕ) : Inv (init n) where
  mutex := mutex_init
  doubts _ hd := nomatch hd
  awake hc := nomatch hc.1

/-- **No notification is lost**, in any run in which `Start` notifies in time: as long as jobs are to be
run, no thread sleeps while more of them are queued than threads are on their way. -/
theorem awake_run {es : List (Event n)} (hrun : run step (init n) es = some s)
    (htimely : Along step Timely (init n) es) (hcalls : Calls s) : Awake s :=
  (invariant_of_run Inv Timely inv_step (inv_init n) htimely hrun).awake hcalls

/-- A worker is started, and gets a job. -/
theorem awake_run_started : ∃ s, run step (init 2) [.start, .startNotify, .enqueue 7 0 none] = some s ∧
    Awake s := by
  refine ⟨_, rfl, ?_⟩
  have htimely : Along step Timely (init 2) [.start, .startNotify, .enqueue 7 0 none] :=
    along_cons rfl trivial (along_cons rfl (fun _ _ => rfl) (along_cons rfl trivial trivial))
  have hrun : run step (init 2) [.start, .startNotify, .enqueue 7 0 none] = some _ := rfl
  exact awake_run hrun htimely ⟨rfl, rfl, rfl⟩

/-- A job is queued when the thread of a worker finds it stopped; it is started before the thread falls
asleep. -/
def startedTooEarly (t : Fin n) : List (Event n) :=
  [.enqueue 7 0 none] ++ List.replicate 4 (.thread t) ++ [.start, .startNotify, .thread t]

/-- The notification is lost: the job is called for, and the only thread sleeps. -/
example (t : Fin 1) : ∃ s, run step (init 1) (startedTooEarly t) = some s ∧ Calls s ∧ ¬ Awake s := by
  obtain rfl : t = ⟨0, Nat.one_pos⟩ := Subsingleton.elim _ _
  refine ⟨_, rfl, ⟨rfl, rfl, rfl⟩, ?_⟩
  rintro (hnone | hle)
  · exact hnone ⟨0, Nat.one_pos⟩ rfl
  · exact absurd hle (by decide)

/-! ### The destructor -/

/-- The destructor has been called, and nobody sleeps or is about to. -/
def Leaving (s : State n) : Prop := s.quit = true ∧ ∀ t, s.pcs t ≠ .asleep ∧ s.pcs t ≠ .waits

/-- How many steps a thread has to take at most until it returns. -/
def stepsLeft : Pc → ℕ
  | .lock | .woken => 6
  | .reads => 5
  | .readsQuit => 4
  | .tests => 3
  | .takes | .runs _ => 2
  | .loop => 1
  | _ => 0

/-- Whether an event is a step of a given thread. -/
def isStepOf (t : Fin n) : Event n → Bool
  | .thread t' => t' = t
  | _ => false

theorem stepsLeft_le (pc : Pc) : stepsLeft pc ≤ 6 := by
  cases pc <;> simp [stepsLeft]

/-- A thread goes on, and has a step less to take. -/
theorem Leaving.goes (h : Leaving s) {t : Fin n} (pc : Pc) (hpcs : s'.pcs = Function.update s.pcs t pc)
    (hquit : s'.quit = s.quit) (hpc : pc ≠ .asleep ∧ pc ≠ .waits)
    (hless : stepsLeft pc + 1 ≤ stepsLeft (s.pcs t)) :
    Leaving s' ∧ ∀ t', stepsLeft (s'.pcs t') + (if isStepOf t' (.thread t) then 1 else 0) ≤
      stepsLeft (s.pcs t') := by
  refine ⟨⟨hquit.trans h.1, fun u => ?_⟩, fun t' => ?_⟩
  · rw [hpcs]
    by_cases hu : u = t
    · subst hu
      rw [Function.update_self]
      exact hpc
    · rw [Function.update_of_ne hu]
      exact h.2 u
  · rw [hpcs]
    by_cases ht : t = t'
    · subst ht
      have hself : isStepOf t (.thread t) = true := decide_eq_true rfl
      rw [Function.update_self, if_pos hself]
      exact hless
    · have hother : ¬ isStepOf t' (.thread t) = true := fun h => ht (of_decide_eq_true h)
      rw [Function.update_of_ne (Ne.symm ht), if_neg hother, Nat.add_zero]

theorem leaving_threadStep {t : Fin n} (h : Leaving s) (hs : threadStep t s = some s') :
    Leaving s' ∧ ∀ t', stepsLeft (s'.pcs t') + (if isStepOf t' (.thread t) then 1 else 0) ≤
      stepsLeft (s.pcs t') := by
  have hquit : s.quit ≠ false := by rw [h.1]; exact nofun
  cases threadStep_moves hs with
  | exits hpc => exact h.goes .exited rfl rfl ⟨nofun, nofun⟩ (by rw [hpc]; decide)
  | enters hpc hquit' => exact absurd hquit' hquit
  | locks hpc =>
    refine h.goes .reads rfl rfl ⟨nofun, nofun⟩ ?_
    rcases hpc with hpc | hpc
    · rw [hpc]; decide
    · rw [hpc]; decide
  | passes hpc => exact h.goes .tests rfl rfl ⟨nofun, nofun⟩ (by rw [hpc]; decide)
  | doubts hpc => exact h.goes .readsQuit rfl rfl ⟨nofun, nofun⟩ (by rw [hpc]; decide)
  | gives hpc => exact h.goes .tests rfl rfl ⟨nofun, nofun⟩ (by rw [hpc]; decide)
  | waits hpc hquit' => exact absurd hquit' hquit
  | sleeps hpc => exact absurd hpc (h.2 t).2
  | finds hpc => exact h.goes .takes rfl rfl ⟨nofun, nofun⟩ (by rw [hpc]; decide)
  | leaves hpc =>
    refine h.goes .loop rfl rfl ⟨nofun, nofun⟩ ?_
    rcases hpc with hpc | ⟨hpc, -⟩
    · rw [hpc]; decide
    · rw [hpc]; decide
  | takes hpc hquit' => exact absurd hquit' hquit
  | finishes ticket hpc => exact h.goes .loop rfl rfl ⟨nofun, nofun⟩ (by rw [hpc]; exact le_rfl)

/-- Where nobody sleeps, notifying changes nothing. -/
theorem notifyAll_of_leaving (h : Leaving s) : (notifyAll s).pcs = s.pcs :=
  funext fun t => if_neg (h.2 t).1

/-- **No step takes a thread further from its end**, and its own steps take it closer. -/
theorem leaving_step {e : Event n} (h : Leaving s) (hs : step s e = some s') :
    Leaving s' ∧ ∀ t, stepsLeft (s'.pcs t) + (if isStepOf t e then 1 else 0) ≤
      stepsLeft (s.pcs t) := by
  have hsame : s'.pcs = s.pcs → s'.quit = true →
      Leaving s' ∧ ∀ t, stepsLeft (s'.pcs t) + 0 ≤ stepsLeft (s.pcs t) := by
    intro hpcs hquit
    refine ⟨⟨hquit, fun t => hpcs ▸ h.2 t⟩, fun t => ?_⟩
    rw [hpcs, Nat.add_zero]
  cases e with
  | enqueue id cell wakes =>
    dsimp only [step] at hs
    split_ifs at hs
    unfold notifyOne at hs
    cases wakes with
    | none =>
      dsimp only at hs
      split_ifs at hs
      cases hs
      exact hsame rfl h.1
    | some u =>
      dsimp only at hs
      rw [if_neg (h.2 u).1] at hs
      cases hs
  | erase id =>
    dsimp only [step] at hs
    split_ifs at hs
    obtain ⟨queue, -, rfl⟩ := Option.map_eq_some_iff.mp hs
    exact hsame rfl h.1
  | start => cases hs; exact hsame rfl h.1
  | stop => cases hs; exact hsame rfl h.1
  | quit =>
    dsimp only [step] at hs
    rw [if_pos h.1] at hs
    cases hs
  | spurious u =>
    dsimp only [step] at hs
    rw [if_neg (h.2 u).1] at hs
    cases hs
  | thread u => exact leaving_threadStep h hs
  | _ =>
    dsimp only [step] at hs
    split_ifs at hs
    cases hs
    exact hsame (notifyAll_of_leaving h) h.1

/-- The thread that holds the lock can go on. -/
theorem Leaving.holder_steps (h : Leaving s) {t : Fin n} (ht : (s.pcs t).holds = true) :
    ∃ s', threadStep t s = some s' := by
  unfold threadStep
  cases hpc : s.pcs t with
  | reads => exact ⟨_, rfl⟩
  | readsQuit => exact ⟨_, rfl⟩
  | waits => exact ⟨_, rfl⟩
  | tests =>
    dsimp only
    split_ifs
    · exact ⟨_, rfl⟩
    · exact ⟨_, rfl⟩
  | takes =>
    dsimp only
    rw [if_pos h.1]
    exact ⟨_, rfl⟩
  | _ => rw [hpc] at ht; cases ht

/-- While nobody holds the lock, every thread that has not returned can go on. -/
theorem Leaving.free_steps (h : Leaving s) {t : Fin n} (hnone : s.owner = none)
    (hfree : (s.pcs t).holds = false) (ht : s.pcs t ≠ .exited) : ∃ s', threadStep t s = some s' := by
  unfold threadStep
  cases hpc : s.pcs t with
  | loop => exact ⟨_, rfl⟩
  | lock => exact ⟨_, if_pos hnone⟩
  | woken => exact ⟨_, if_pos hnone⟩
  | runs ticket => exact ⟨_, rfl⟩
  | asleep => exact absurd hpc (h.2 t).1
  | exited => exact absurd hpc ht
  | _ => rw [hpc] at hfree; cases hfree

/-- **Until all threads have returned, one of them can go on.** -/
theorem Leaving.progress (h : Leaving s) (hm : Mutex s) :
    (∀ t, s.pcs t = .exited) ∨ ∃ t s', step s (.thread t) = some s' := by
  by_cases hall : ∀ t, s.pcs t = .exited
  · exact .inl hall
  · right
    push Not at hall
    obtain ⟨t, ht⟩ := hall
    cases howner : s.owner with
    | none => exact ⟨t, h.free_steps howner (hm.not_holds howner t) ht⟩
    | some t' => exact ⟨t', h.holder_steps ((hm t').mp howner)⟩

theorem mutex_run {es : List (Event n)} (hm : Mutex s) (hrun : run step s es = some s') :
    Mutex s' :=
  invariant_of_run Mutex (fun _ _ => True) (fun _ _ _ hi _ hs => mutex_step hi hs) hm (along_true _ _) hrun

/-- The destructor notifies only after it has stored its flag. -/
theorem quit_of_quitting {es : List (Event n)} (hrun : run step (init n) es = some s) :
    s.quitting = true → s.quit = true := by
  have hinit : (init n).quitting = true → (init n).quit = true := fun hq => Bool.noConfusion hq
  refine invariant_of_run (fun s => s.quitting = true → s.quit = true) (fun _ _ => True) ?_ hinit
    (along_true _ _) hrun
  intro s e s' h _ hs
  have hquit : s'.quitting = s.quitting → s'.quitting = true → s'.quit = true := by
    intro hsame hquitting
    cases hq : s'.quit with
    | true => rfl
    | false => exact absurd (h (hsame.symm.trans hquitting)) (by rw [quit_of_step hs hq]; exact nofun)
  cases e with
  | enqueue id cell wakes =>
    refine hquit ?_
    dsimp only [step] at hs
    split_ifs at hs
    unfold notifyOne at hs
    split at hs
    all_goals
      split_ifs at hs
      cases hs
      rfl
  | erase id =>
    refine hquit ?_
    dsimp only [step] at hs
    split_ifs at hs
    obtain ⟨queue, -, rfl⟩ := Option.map_eq_some_iff.mp hs
    rfl
  | start => cases hs; exact h
  | stop => cases hs; exact h
  | thread t =>
    refine hquit ?_
    cases threadStep_moves hs <;> rfl
  | _ =>
    dsimp only [step] at hs
    split_ifs at hs
    cases hs
    first
      | exact h
      | exact fun _ => rfl
      | exact nofun

/-- **The destructor returns** if no thread is about to fall asleep when it notifies: after that each
thread takes at most six steps, and until all of them have returned, one of them can go on. -/
theorem exits_run {es es' : List (Event n)} {s1 : State n}
    (hrun : run step (init n) es = some s) (hnotify : step s .quitNotify = some s1)
    (htimely : ∀ t, s.pcs t ≠ .waits) (hrun' : run step s1 es' = some s') :
    (∀ t, es'.countP (isStepOf t) ≤ 6) ∧
      ((∀ t, s'.pcs t = .exited) ∨ ∃ t s'', step s' (.thread t) = some s'') := by
  have hm1 : Mutex s1 := mutex_step (mutex_run mutex_init hrun) hnotify
  have hleaving : Leaving s1 := by
    have hquit := quit_of_quitting hrun
    dsimp only [step] at hnotify
    split_ifs at hnotify with hquitting
    cases hnotify
    refine ⟨hquit hquitting, fun t => ?_⟩
    dsimp only [notifyAll]
    split_ifs with hasleep
    · exact ⟨nofun, nofun⟩
    · exact ⟨hasleep, htimely t⟩
  have hleaving' : Leaving s' := invariant_of_run Leaving (fun _ _ => True)
    (fun _ _ _ hi _ hs => (leaving_step hi hs).1) hleaving (along_true _ _) hrun'
  refine ⟨fun t => ?_, hleaving'.progress (mutex_run hm1 hrun')⟩
  have hcount := countP_le_of_run Leaving (fun s => stepsLeft (s.pcs t)) (isStepOf t)
    (fun _ _ _ hi hs => ⟨(leaving_step hi hs).1, (leaving_step hi hs).2 t⟩) hleaving hrun'
  have hle := stepsLeft_le (s1.pcs t)
  omega

/-- Two threads that have just started return, each in one step. -/
theorem exits_run_two :
    ∃ s, run step (init 2) ([.quit, .quitNotify] ++ (List.finRange 2).map .thread) = some s ∧
      (∀ t, ((List.finRange 2).map Event.thread).countP (isStepOf t) ≤ 6) ∧
      ((∀ t, s.pcs t = .exited) ∨ ∃ t s', step s (.thread t) = some s') := by
  have hquit : run step (init 2) [.quit] = some { init 2 with quit := true, quitting := true } := rfl
  have hnotify : step { init 2 with quit := true, quitting := true } .quitNotify =
      some { init 2 with quit := true } := rfl
  obtain ⟨s, hs⟩ : ∃ s, run step { init 2 with quit := true } ((List.finRange 2).map .thread) = some s :=
    ⟨_, rfl⟩
  exact ⟨s, hs, exits_run hquit hnotify (fun _ => nofun) hs⟩

/-- The only thread of a worker is about to fall asleep when the destructor notifies, which then waits for
it in vain. -/
example (t : Fin 1) : ∃ s, run step (init 1) (List.replicate 4 (.thread t) ++
    [.quit, .quitNotify, .thread t]) = some s ∧ s.pcs t = .asleep ∧ step s (.thread t) = none := by
  obtain rfl : t = ⟨0, Nat.one_pos⟩ := Subsingleton.elim _ _
  exact ⟨_, rfl, rfl, rfl⟩

end CppTorrent.Worker.Wakeups
