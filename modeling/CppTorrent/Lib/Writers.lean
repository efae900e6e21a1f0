import CppTorrent.Lib.ByteFile
import CppTorrent.Lib.Runs

/-! # Writers that work at the same time

Threads write to files. A job is a list of writes; a thread takes a job, writes the bytes of its
writes one after the other, in portions of any size as a buffered stream does, and finishes the job.
The threads take turns between any two portions.

The jobs agree with a text for each file: every byte they write is that of the text at its position.
A position that holds its byte then keeps it, whoever writes (`Held.step`), and every position a job
has written holds its byte when the job is finished (`Sound.held_of_finished`), whatever its place
held before and whatever the other threads do. A reader gets this byte, even if it reads every
position at a time of its own (`held_of_view`). -/

namespace CppTorrent.Lib.Writers

open CppTorrent.Lib.ByteFile CppTorrent.Lib.Runs

/-- The files. -/
abbrev Store (Path : Type) : Type := Path → Option (List UInt8)

/-- The byte at a position of a file. -/
def byteAt {Path : Type} (store : Store Path) (path : Path) (y : ℕ) : Option UInt8 :=
  (store path).bind fun file => file[y]?

/-- Bytes for a place in a file. -/
structure Write (Path : Type) where
  path : Path
  pos : ℕ
  data : List UInt8
  deriving DecidableEq

/-- What remains of a write when its first bytes are written. -/
def Write.rest {Path : Type} (w : Write Path) (n : ℕ) : Write Path := ⟨w.path, w.pos + n, w.data.drop n⟩

/-- The threads, with the job each of them is at and the writes that remain of it. -/
structure State (Path Thread Job : Type) where
  store : Store Path
  threads : Thread → Option (Job × List (Write Path))
  finished : List Job

/-- A thread starts a job, writes some bytes, closes a file or finishes its job. -/
inductive Act (Thread Job : Type) where
  | start (t : Thread) (job : Job)
  | flush (t : Thread) (n : ℕ)
  | close (t : Thread)
  | finish (t : Thread)

section Held

variable {Path Thread Job : Type}

/-! ### Positions that hold their byte -/

/-- Bytes are written to the position. -/
def Write.Covers (w : Write Path) (path : Path) (y : ℕ) : Prop :=
  w.path = path ∧ w.pos ≤ y ∧ y < w.pos + w.data.length

/-- The bytes are those of the text of their file. -/
def Write.Agrees (text : Path → List UInt8) (w : Write Path) : Prop :=
  ∀ k < w.data.length, w.data[k]? = (text w.path)[w.pos + k]?

/-- The position holds the byte of the text. -/
def Held (text : Path → List UInt8) (store : Store Path) (path : Path) (y : ℕ) : Prop :=
  y < (text path).length ∧ byteAt store path y = (text path)[y]?

section Portion

variable {text : Path → List UInt8}

/-- A portion of a write agrees with the text if the write does. -/
theorem Write.Agrees.take {w : Write Path} (h : w.Agrees text) (n : ℕ) :
    Write.Agrees text ⟨w.path, w.pos, w.data.take n⟩ := by
  intro k hk
  rw [List.length_take] at hk
  change (w.data.take n)[k]? = (text w.path)[w.pos + k]?
  rw [List.getElem?_take, if_pos (by omega)]
  exact h k (by omega)

theorem Write.Agrees.rest {w : Write Path} (h : w.Agrees text) (n : ℕ) : (w.rest n).Agrees text := by
  intro k hk
  change k < (w.data.drop n).length at hk
  rw [List.length_drop] at hk
  change (w.data.drop n)[k]? = (text w.path)[w.pos + n + k]?
  rw [List.getElem?_drop, h (n + k) (by omega), Nat.add_assoc]

/-- A position of a write is in its first bytes or in the rest. -/
theorem Write.Covers.split {w : Write Path} {path : Path} {y : ℕ} (h : w.Covers path y) (n : ℕ) :
    Write.Covers ⟨w.path, w.pos, w.data.take n⟩ path y ∨ (w.rest n).Covers path y := by
  obtain ⟨hpath, hle, hlt⟩ := h
  rcases Nat.lt_or_ge y (w.pos + n) with hfirst | hrest
  · refine Or.inl ⟨hpath, hle, ?_⟩
    change y < w.pos + (w.data.take n).length
    rw [List.length_take]
    omega
  · refine Or.inr ⟨hpath, hrest, ?_⟩
    change y < w.pos + n + (w.data.drop n).length
    rw [List.length_drop]
    omega

end Portion

/-! ### The invariant -/

variable (text : Path → List UInt8) (writes : Job → Option (List (Write Path))) (P : Job → Prop)

/-- What a job writes is held, or it is in the writes that remain. The job is one of those that may be
started. -/
def Remains (store : Store Path) (job : Job) (ws : List (Write Path)) : Prop :=
  P job ∧ ∃ all, writes job = some all ∧ ∀ w ∈ all, ∀ path y, w.Covers path y →
    Held text store path y ∨ ∃ w' ∈ ws, w'.Covers path y

/-- The writes of the threads agree with the text, and what is not held yet remains. -/
structure Sound (s : State Path Thread Job) : Prop where
  agrees : ∀ t job ws, s.threads t = some (job, ws) → ∀ w ∈ ws, w.Agrees text
  remains : ∀ t job ws, s.threads t = some (job, ws) → Remains text writes P s.store job ws
  finished : ∀ job ∈ s.finished, Remains text writes P s.store job []

variable {text writes P}

theorem Remains.mono {store store' : Store Path} {job : Job} {ws : List (Write Path)}
    (h : Remains text writes P store job ws)
    (hheld : ∀ path y, Held text store path y → Held text store' path y) :
    Remains text writes P store' job ws := by
  obtain ⟨hjob, all, hall, h⟩ := h
  exact ⟨hjob, all, hall, fun w hw path y hcovers => (h w hw path y hcovers).imp_left (hheld path y)⟩

/-- One thread moves. -/
theorem Sound.update [DecidableEq Thread] {s : State Path Thread Job} (hs : Sound text writes P s)
    {t : Thread} {store : Store Path} {x : Option (Job × List (Write Path))} {finished : List Job}
    (hheld : ∀ path y, Held text s.store path y → Held text store path y)
    (hnew : ∀ job ws, x = some (job, ws) →
      (∀ w ∈ ws, w.Agrees text) ∧ Remains text writes P store job ws)
    (hfinished : ∀ job ∈ finished, job ∈ s.finished ∨ Remains text writes P store job []) :
    Sound text writes P ⟨store, Function.update s.threads t x, finished⟩ := by
  have hthreads : ∀ t' job ws, Function.update s.threads t x t' = some (job, ws) →
      (∀ w ∈ ws, w.Agrees text) ∧ Remains text writes P store job ws := by
    intro t' job ws h
    by_cases ht : t' = t
    · rw [ht, Function.update_self] at h
      exact hnew job ws h
    · rw [Function.update_of_ne ht] at h
      exact ⟨hs.agrees t' job ws h, (hs.remains t' job ws h).mono hheld⟩
  refine ⟨fun t' job ws h => (hthreads t' job ws h).1, fun t' job ws h => (hthreads t' job ws h).2,
    fun job hjob => ?_⟩
  rcases hfinished job hjob with hold | hnow
  · exact (hs.finished job hold).mono hheld
  · exact hnow

/-- **What a finished job has written is held.** -/
theorem Sound.held_of_finished {s : State Path Thread Job} (hs : Sound text writes P s) {job : Job}
    (hjob : job ∈ s.finished) :
    P job ∧ ∃ ws, writes job = some ws ∧
      ∀ w ∈ ws, ∀ path y, w.Covers path y → Held text s.store path y := by
  obtain ⟨hP, ws, hws, hremains⟩ := hs.finished job hjob
  refine ⟨hP, ws, hws, fun w hw path y hcovers => ?_⟩
  rcases hremains w hw path y hcovers with hheld | ⟨w', hw', -⟩
  · exact hheld
  · cases hw'

/-- The threads that have nothing to do yet. -/
def idle (store : Store Path) : State Path Thread Job := ⟨store, fun _ => none, []⟩

theorem sound_idle (store : Store Path) :
    Sound text writes P (idle store : State Path Thread Job) := by
  refine ⟨fun t job ws h => ?_, fun t job ws h => ?_, fun job hjob => ?_⟩
  · cases h
  · cases h
  · cases hjob

end Held

/-! ### The steps -/

section Step

variable {Path Thread Job : Type} [DecidableEq Path] [DecidableEq Thread]

/-- Writes bytes to their place in a file that there is. -/
def put (store : Store Path) (w : Write Path) : Option (Store Path) :=
  (store w.path).map fun file => Function.update store w.path (some (writeAt w.pos w.data file))

/-- A step of one thread. -/
def step (writes : Job → Option (List (Write Path))) (s : State Path Thread Job) :
    Act Thread Job → Option (State Path Thread Job)
  | .start t job => match s.threads t with
    | some _ => none
    | none => (writes job).map fun ws => { s with threads := Function.update s.threads t (some (job, ws)) }
  | .flush t n => match s.threads t with
    | some (job, w :: ws) =>
      if 0 < n ∧ n ≤ w.data.length then
        (put s.store ⟨w.path, w.pos, w.data.take n⟩).map fun store =>
          { s with store, threads := Function.update s.threads t (some (job, w.rest n :: ws)) }
      else none
    | _ => none
  | .close t => match s.threads t with
    | some (job, w :: ws) =>
      if w.data = [] then some { s with threads := Function.update s.threads t (some (job, ws)) }
      else none
    | _ => none
  | .finish t => match s.threads t with
    | some (job, []) =>
      some { s with threads := Function.update s.threads t none, finished := job :: s.finished }
    | _ => none

/-- What a step can do. -/
inductive Moves (writes : Job → Option (List (Write Path))) (s : State Path Thread Job) :
    Act Thread Job → State Path Thread Job → Prop
  | start {t : Thread} {job : Job} {ws : List (Write Path)} (hfree : s.threads t = none)
      (hwrites : writes job = some ws) :
      Moves writes s (.start t job)
        ⟨s.store, Function.update s.threads t (some (job, ws)), s.finished⟩
  | flush {t : Thread} {n : ℕ} {job : Job} {w : Write Path} {ws : List (Write Path)}
      {store : Store Path} (hbusy : s.threads t = some (job, w :: ws)) (hpos : 0 < n)
      (hle : n ≤ w.data.length) (hput : put s.store ⟨w.path, w.pos, w.data.take n⟩ = some store) :
      Moves writes s (.flush t n)
        ⟨store, Function.update s.threads t (some (job, w.rest n :: ws)), s.finished⟩
  | close {t : Thread} {job : Job} {w : Write Path} {ws : List (Write Path)}
      (hbusy : s.threads t = some (job, w :: ws)) (hnil : w.data = []) :
      Moves writes s (.close t)
        ⟨s.store, Function.update s.threads t (some (job, ws)), s.finished⟩
  | finish {t : Thread} {job : Job} (hbusy : s.threads t = some (job, [])) :
      Moves writes s (.finish t)
        ⟨s.store, Function.update s.threads t none, job :: s.finished⟩

variable {writes : Job → Option (List (Write Path))} {s s' : State Path Thread Job}

theorem step_moves {a : Act Thread Job} (h : step writes s a = some s') : Moves writes s a s' := by
  cases a with
  | start t job =>
    simp only [step] at h
    split at h
    · cases h
    · obtain ⟨ws, hws, rfl⟩ := Option.map_eq_some_iff.mp h
      exact .start ‹_› hws
  | flush t n =>
    simp only [step] at h
    split at h
    · split_ifs at h with hn
      obtain ⟨store, hput, rfl⟩ := Option.map_eq_some_iff.mp h
      exact .flush ‹_› hn.1 hn.2 hput
    · cases h
  | close t =>
    simp only [step] at h
    split at h
    · split_ifs at h with hnil
      cases h
      exact .close ‹_› hnil
    · cases h
  | finish t =>
    simp only [step] at h
    split at h
    · cases h
      exact .finish ‹_›
    · cases h

/-! ### What a write does -/

section Put

variable {text : Path → List UInt8} {store store' : Store Path} {w : Write Path}

theorem put_eq_some (h : put store w = some store') : ∃ file, store w.path = some file ∧
    store' = Function.update store w.path (some (writeAt w.pos w.data file)) := by
  obtain ⟨file, hfile, rfl⟩ := Option.map_eq_some_iff.mp h
  exact ⟨file, hfile, rfl⟩

/-- **What is written is held.** -/
theorem held_put_of_covers (hput : put store w = some store') (hagrees : w.Agrees text) {path : Path}
    {y : ℕ} (hcovers : w.Covers path y) : Held text store' path y := by
  obtain ⟨file, -, rfl⟩ := put_eq_some hput
  obtain ⟨rfl, hle, hlt⟩ := hcovers
  have hbyte := hagrees (y - w.pos) (by omega)
  rw [Nat.add_sub_cancel' hle] at hbyte
  refine ⟨?_, ?_⟩
  · by_contra hge
    rw [List.getElem?_eq_getElem (by omega), List.getElem?_eq_none (not_lt.mp hge)] at hbyte
    cases hbyte
  · rw [byteAt, Function.update_self, Option.bind_some, getElem?_writeAt_of_mem file hle hlt, hbyte]

/-- **What is held stays.** -/
theorem Held.put {path : Path} {y : ℕ} (h : Held text store path y) (hput : put store w = some store')
    (hagrees : w.Agrees text) : Held text store' path y := by
  by_cases hcovers : w.Covers path y
  · exact held_put_of_covers hput hagrees hcovers
  obtain ⟨file, hfile, rfl⟩ := put_eq_some hput
  obtain ⟨hlt, hbyte⟩ := h
  refine ⟨hlt, ?_⟩
  by_cases hpath : path = w.path
  · subst hpath
    rw [byteAt, hfile, Option.bind_some] at hbyte
    have hin : y < file.length := by
      by_contra hge
      rw [List.getElem?_eq_none (not_lt.mp hge), List.getElem?_eq_getElem hlt] at hbyte
      cases hbyte
    have hout : y < w.pos ∨ w.pos + w.data.length ≤ y := by
      by_contra hmem
      rw [not_or, not_lt, not_le] at hmem
      exact hcovers ⟨rfl, hmem⟩
    rw [byteAt, Function.update_self, Option.bind_some, getElem?_writeAt_of_not_mem hin hout, hbyte]
  · rw [byteAt, Function.update_of_ne hpath]
    exact hbyte

end Put

/-! ### A job without interruption -/

/-- Writes that are done one after the other. -/
theorem exists_run_of_puts (writes : Job → Option (List (Write Path))) (t : Thread) (job : Job)
    (finished : List Job) (threads : Thread → Option (Job × List (Write Path))) :
    ∀ (ws : List (Write Path)) {store store' : Store Path}, ws.foldlM put store = some store' →
    ∃ acts, run (step writes) ⟨store, Function.update threads t (some (job, ws)), finished⟩ acts =
      some ⟨store', Function.update threads t none, job :: finished⟩
  | [], store, store', h => by
    cases h
    refine ⟨[.finish t], ?_⟩
    simp [run, step]
  | w :: ws, store, store', h => by
    rw [List.foldlM_cons] at h
    obtain ⟨store₁, hput, hputs⟩ := Option.bind_eq_some_iff.mp h
    obtain ⟨acts, hacts⟩ := exists_run_of_puts writes t job finished threads ws hputs
    have hclose : ∀ {store : Store Path} {w' : Write Path}, w'.data = [] →
        step writes ⟨store, Function.update threads t (some (job, w' :: ws)), finished⟩ (.close t) =
          some ⟨store, Function.update threads t (some (job, ws)), finished⟩ := by
      intro store w' hnil
      simp [step, hnil]
    by_cases hnil : w.data = []
    · -- a write of no bytes changes nothing
      obtain ⟨file, hfile, rfl⟩ := put_eq_some hput
      rw [hnil, writeAt_nil, ← hfile, Function.update_eq_self] at hacts
      refine ⟨.close t :: acts, ?_⟩
      rw [run, hclose hnil]
      exact hacts
    · have hall : w.data.take w.data.length = w.data := List.take_length
      have hflush : step writes ⟨store, Function.update threads t (some (job, w :: ws)), finished⟩
          (.flush t w.data.length) = some ⟨store₁,
            Function.update threads t (some (job, w.rest w.data.length :: ws)), finished⟩ := by
        simp [step, hall, hput, List.length_pos_iff.mpr hnil]
      refine ⟨.flush t w.data.length :: .close t :: acts, ?_⟩
      rw [run, hflush, Option.bind_some, run, hclose (List.drop_length ..)]
      exact hacts

/-- **A thread that is left alone does all the writes of its job.** -/
theorem exists_run_of_free {t : Thread} {job : Job} {ws : List (Write Path)} {store : Store Path}
    (hfree : s.threads t = none) (hwrites : writes job = some ws)
    (hputs : ws.foldlM put s.store = some store) :
    ∃ acts, run (step writes) s acts = some ⟨store, s.threads, job :: s.finished⟩ := by
  obtain ⟨acts, hacts⟩ := exists_run_of_puts writes t job s.finished s.threads ws hputs
  have hstart : step writes s (.start t job) =
      some ⟨s.store, Function.update s.threads t (some (job, ws)), s.finished⟩ := by
    simp [step, hfree, hwrites]
  refine ⟨.start t job :: acts, ?_⟩
  rw [run, hstart, Option.bind_some, hacts, ← hfree, Function.update_eq_self]

/-! ### Runs -/

section Invariant

variable {text : Path → List UInt8} {P : Job → Prop}
  (hP : ∀ job ws, P job → writes job = some ws → ∀ w ∈ ws, w.Agrees text)

/-- Only jobs that may be are started. -/
def Starts (P : Job → Prop) (_ : State Path Thread Job) (a : Act Thread Job) : Prop :=
  ∀ t job, a = .start t job → P job

omit hP in
theorem along_starts {acts : List (Act Thread Job)} (s : State Path Thread Job)
    (h : ∀ t job, .start t job ∈ acts → P job) : Along (Writers.step writes) (Starts P) s acts := by
  refine along_of_forall (fun a ha _ t job heq => ?_) s
  subst heq
  exact h t job ha

include hP

/-- **Every step keeps the invariant.** -/
theorem Sound.step {a : Act Thread Job} (hs : Sound text writes P s) (hstarts : Starts P s a)
    (h : step writes s a = some s') : Sound text writes P s' := by
  cases step_moves h with
  | @start t job ws hfree hwrites =>
    have hjob := hstarts t job rfl
    refine hs.update (fun _ _ => id) (fun job' ws' heq => ?_) fun _ => Or.inl
    cases heq
    exact ⟨hP job ws hjob hwrites, hjob, ws, hwrites, fun w hw path y hcovers => Or.inr ⟨w, hw, hcovers⟩⟩
  | @flush t n job w ws store hbusy hpos hle hput =>
    have hagrees := hs.agrees t job _ hbusy
    have hportion := (hagrees w List.mem_cons_self).take n
    have hheld : ∀ path y, Held text s.store path y → Held text store path y :=
      fun _ _ hold => hold.put hput hportion
    refine hs.update hheld (fun job' ws' heq => ?_) fun _ => Or.inl
    cases heq
    constructor
    · intro w' hw'
      rcases List.mem_cons.mp hw' with rfl | hw'
      · exact (hagrees w List.mem_cons_self).rest n
      · exact hagrees w' (List.mem_cons_of_mem _ hw')
    · obtain ⟨hjob, all, hall, hremains⟩ := hs.remains t job _ hbusy
      refine ⟨hjob, all, hall, fun w₀ hw₀ path y hcovers => ?_⟩
      rcases hremains w₀ hw₀ path y hcovers with hold | ⟨w', hw', hin⟩
      · exact Or.inl (hheld path y hold)
      rcases List.mem_cons.mp hw' with rfl | hw'
      · rcases hin.split n with hfirst | hrest
        · exact Or.inl (held_put_of_covers hput hportion hfirst)
        · exact Or.inr ⟨_, List.mem_cons_self, hrest⟩
      · exact Or.inr ⟨w', List.mem_cons_of_mem _ hw', hin⟩
  | @close t job w ws hbusy hnil =>
    refine hs.update (fun _ _ => id) (fun job' ws' heq => ?_) fun _ => Or.inl
    cases heq
    refine ⟨fun w' hw' => hs.agrees t job _ hbusy w' (List.mem_cons_of_mem _ hw'), ?_⟩
    obtain ⟨hjob, all, hall, hremains⟩ := hs.remains t job _ hbusy
    refine ⟨hjob, all, hall, fun w₀ hw₀ path y hcovers => ?_⟩
    rcases hremains w₀ hw₀ path y hcovers with hold | ⟨w', hw', hin⟩
    · exact Or.inl hold
    rcases List.mem_cons.mp hw' with rfl | hw'
    · -- nothing is written to a position by no bytes
      obtain ⟨-, hle, hlt⟩ := hin
      rw [hnil, List.length_nil] at hlt
      omega
    · exact Or.inr ⟨w', hw', hin⟩
  | @finish t job hbusy =>
    refine hs.update (fun _ _ => id) (fun job' ws' heq => nomatch heq) fun job' hjob => ?_
    rcases List.mem_cons.mp hjob with rfl | hjob
    · exact Or.inr (hs.remains t job' [] hbusy)
    · exact Or.inl hjob

omit hP in
/-- What is held stays in every step. -/
theorem Held.step {a : Act Thread Job} {path : Path} {y : ℕ} (h : Held text s.store path y)
    (hs : Sound text writes P s) (hstep : Writers.step writes s a = some s') :
    Held text s'.store path y := by
  cases step_moves hstep with
  | start | close | finish => exact h
  | @flush t n job w ws store hbusy hpos hle hput =>
    exact h.put hput ((hs.agrees t job _ hbusy w List.mem_cons_self).take n)

theorem sound_of_run {acts : List (Act Thread Job)} (hs : Sound text writes P s)
    (hstarts : Along (Writers.step writes) (Starts P) s acts)
    (hrun : run (Writers.step writes) s acts = some s') : Sound text writes P s' :=
  invariant_of_run (Sound text writes P) (Starts P) (fun _ _ _ hs hc h => hs.step hP hc h) hs hstarts
    hrun

/-! ### Readers -/

/-- What a reader gets that begins in a state: every byte is there in some state from then on, and it
need not be the same for all of them. -/
def View (writes : Job → Option (List (Write Path))) (P : Job → Prop) (s : State Path Thread Job)
    (view : Store Path) : Prop :=
  ∀ path y, ∃ acts s', Along (Writers.step writes) (Starts P) s acts ∧
    run (Writers.step writes) s acts = some s' ∧ byteAt view path y = byteAt s'.store path y

omit hP in
/-- Reading all at once. -/
theorem view_self (s : State Path Thread Job) : View writes P s s.store :=
  fun _ _ => ⟨[], s, trivial, rfl, rfl⟩

/-- **A reader gets what is held.** -/
theorem held_of_view {view : Store Path} {path : Path} {y : ℕ} (hs : Sound text writes P s)
    (hheld : Held text s.store path y) (hview : View writes P s view) : Held text view path y := by
  obtain ⟨acts, s', hstarts, hrun, hbyte⟩ := hview path y
  have hlater : Sound text writes P s' ∧ Held text s'.store path y :=
    invariant_of_run (fun s => Sound text writes P s ∧ Held text s.store path y) (Starts P)
      (fun _ _ _ hi hc h => ⟨hi.1.step hP hc h, hi.2.step hi.1 h⟩) ⟨hs, hheld⟩ hstarts hrun
  exact ⟨hheld.1, hbyte.trans hlater.2.2⟩

end Invariant

end Step

end CppTorrent.Lib.Writers
