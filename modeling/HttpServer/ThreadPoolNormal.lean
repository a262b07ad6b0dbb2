import HttpServer.Callbacks
import HttpServer.Lib.Lts
import HttpServer.Lib.Tally

/-!
# The other thread pool

`ThreadPoolNormal` (thread_pool_normal.cpp) with `n` workers that take
their tasks from one queue. A section of `queue_lock_` is one step. A
worker that waits for `queue_empty_` can go on when there is a task or the
pool is stopped.

`ExecuteTask` asks a task for `once()` before it calls it, and deletes it
after the call if the answer was no. The log has the calls and the
`delete`s, those that a `CallableOnce` makes of itself included. A deleted
callback can still be asked and called in the model, so that the log shows
it.
-/

namespace HttpServer

namespace ThreadPoolNormal

open Callbacks

/-- Where a worker is in `ExecuteTask`. -/
inductive Pc where
  | wait
  /-- Has popped a task, not called it yet. -/
  | taken (task : Occurrence) (taskType : Bool)
  | run (task : Occurrence) (taskType : Bool)
  /-- Back from the task. -/
  | ran (task : Occurrence) (taskType : Bool)
  | exited
deriving DecidableEq, Repr

/-- How far the call of `stop()` is that sets the flag; `none` is a caller
outside of the pool. -/
inductive Stop where
  | idle
  | joining (caller : Option ℕ) (i : ℕ)
  | returned (caller : Option ℕ)
deriving DecidableEq, Repr

structure State where
  flagstop : Bool
  tasks : List Occurrence
  pc : ℕ → Pc
  stop : Stop
  destroyed : Bool
  added : List Occurrence
  finished : List Occurrence
  disposed : List Occurrence
  log : List Event

namespace State

/-- The constructor. -/
def new : State := ⟨false, [], fun _ => .wait, .idle, false, [], [], [], []⟩

def goto (s : State) (w : ℕ) (pc : Pc) : State := { s with pc := Function.update s.pc w pc }

def addTask (s : State) (cb : ℕ) : State :=
  if s.flagstop = true then s
  else
    let task : Occurrence := ⟨s.added.length, cb⟩
    { s with tasks := s.tasks ++ [task], added := s.added ++ [task] }

/-- The next step of `ExecuteTask`. -/
def workerStep (once : ℕ → Bool) (s : State) (w : ℕ) : Option State :=
  match s.pc w with
  | .wait =>
      if s.flagstop = true then some (s.goto w .exited)
      else
        match s.tasks with
        | [] => none
        | task :: tasks => some ({ s with tasks }.goto w (.taken task (once task.cb)))
  | .taken task taskType =>
      some ({ s with log := s.log ++ [Event.call task] }.goto w (.run task taskType))
  | .run task taskType =>
      -- the call of a `CallableOnce` ends with `delete this`
      some ({ s with
        finished := s.finished ++ [task]
        log := s.log ++ deleteOnce once task.cb }.goto w (.ran task taskType))
  | .ran task taskType =>
      if taskType = false then
        some ({ s with log := s.log ++ [Event.delete task.cb] }.goto w .wait)
      else some (s.goto w .wait)
  | .exited => none

/-- The worker whose task is inside of `stop()`. -/
def inside (s : State) : Option ℕ :=
  match s.stop with
  | .joining caller _ => caller
  | _ => none

/-- The task of `w` can make a call. -/
def calls (n : ℕ) (s : State) (w : ℕ) : Bool :=
  match s.pc w with
  | .run _ _ => w < n ∧ s.inside ≠ some w
  | _ => false

end State

/-- A call of `addTask` or `stop`, the next step of a worker or of
`stop()`, the destructor. -/
inductive Act where
  | addTask (caller : Option ℕ) (cb : ℕ)
  | worker (w : ℕ)
  | stop (caller : Option ℕ)
  | join
  | destroy

/-- The next `pthread_join` of `stop()`; that of the caller itself fails at
once. -/
def join (n : ℕ) (s : State) : Option State :=
  match s.stop with
  | .joining caller i =>
      if i < n then
        if caller = some i ∨ s.pc i = .exited then some { s with stop := .joining caller (i + 1) }
        else none
      else some { s with stop := .returned caller }
  | _ => none

/-- The destructor, after `stop()` has returned. -/
def destroy (once : ℕ → Bool) (s : State) : Option State :=
  match s.stop with
  | .returned _ =>
      if s.destroyed then none
      else
        some { s with
          tasks := []
          disposed := s.disposed ++ s.tasks
          log := s.log ++ s.tasks.flatMap fun task => deleteOnce once task.cb
          destroyed := true }
  | _ => none

def step (n : ℕ) (once : ℕ → Bool) (s : State) : Act → Option State
  | .addTask caller cb => if ∀ w ∈ caller, s.calls n w then some (s.addTask cb) else none
  | .worker w => if w < n ∧ s.inside ≠ some w then s.workerStep once w else none
  | .stop caller =>
      if ∀ w ∈ caller, s.calls n w then
        if s.flagstop = true then some s
        else some { s with flagstop := true, stop := .joining caller 0 }
      else none
  | .join => join n s
  | .destroy => destroy once s

def machine (n : ℕ) (once : ℕ → Bool) : Lts State Act := ⟨fun s => s = .new, step n once⟩

/-- Callbacks are added before `stop()` is called, each once-only one once,
and `stop()` is called when all of them have been called. -/
def Client (once : ℕ → Bool) (s : State) : Act → Prop
  | .addTask _ cb => s.stop = .idle ∧ (once cb = true → ∀ x ∈ s.added, x.cb ≠ cb)
  | .stop _ => ∀ x ∈ s.added, Event.call x ∈ s.log
  | .worker _ => True
  | .join => True
  | .destroy => True

instance (once : ℕ → Bool) (s : State) : ∀ l, Decidable (Client once s l)
  | .addTask _ _ => inferInstanceAs (Decidable (_ ∧ (_ → ∀ x ∈ s.added, _)))
  | .stop _ => inferInstanceAs (Decidable (∀ x ∈ s.added, Event.call x ∈ s.log))
  | .worker _ => inferInstanceAs (Decidable True)
  | .join => inferInstanceAs (Decidable True)
  | .destroy => inferInstanceAs (Decidable True)

/-- The pool was stopped and destroyed, and its workers have exited. -/
def Done (n : ℕ) (s : State) : Prop := s.destroyed = true ∧ ∀ w < n, s.pc w = .exited

/-! ## Moves -/

/-- What can happen when clients keep to `Client`. -/
inductive Move (n : ℕ) (once : ℕ → Bool) (s : State) : State → Prop where
  | same : Move n once s s
  | add {cb} (hidle : s.stop = .idle) (hnew : once cb = true → ∀ x ∈ s.added, x.cb ≠ cb) :
      Move n once s { s with
        tasks := s.tasks ++ [⟨s.added.length, cb⟩]
        added := s.added ++ [⟨s.added.length, cb⟩] }
  | exit {w} (hw : w < n) (hpc : s.pc w = .wait) (hf : s.flagstop = true) :
      Move n once s (s.goto w .exited)
  | take {w x xs} (hw : w < n) (hpc : s.pc w = .wait) (hq : s.tasks = x :: xs) :
      Move n once s ({ s with tasks := xs }.goto w (.taken x (once x.cb)))
  | call {w x t} (hw : w < n) (hpc : s.pc w = .taken x t) :
      Move n once s ({ s with log := s.log ++ [Event.call x] }.goto w (.run x t))
  | ret {w x t} (hw : w < n) (hpc : s.pc w = .run x t) :
      Move n once s ({ s with
        finished := s.finished ++ [x]
        log := s.log ++ deleteOnce once x.cb }.goto w (.ran x t))
  | delete {w x} (hw : w < n) (hpc : s.pc w = .ran x false) :
      Move n once s ({ s with log := s.log ++ [Event.delete x.cb] }.goto w .wait)
  | keep {w x} (hw : w < n) (hpc : s.pc w = .ran x true) : Move n once s (s.goto w .wait)
  | stop (c : Option ℕ) (hf : s.flagstop = false) (hcalled : ∀ x ∈ s.added, Event.call x ∈ s.log) :
      Move n once s { s with flagstop := true, stop := .joining c 0 }
  | join {st} (hst : st ≠ .idle) (hs : s.stop ≠ .idle) (hd : ∀ c, s.stop ≠ .returned c) :
      Move n once s { s with stop := st }
  | destroy {c} (hs : s.stop = .returned c) (hd : s.destroyed = false) :
      Move n once s { s with
        tasks := []
        disposed := s.disposed ++ s.tasks
        log := s.log ++ s.tasks.flatMap fun x => deleteOnce once x.cb
        destroyed := true }

variable {n : ℕ} {once : ℕ → Bool} {s s' : State}

theorem workerStep_move {w : ℕ} (hw : w < n) (h : s.workerStep once w = some s') :
    Move n once s s' := by
  unfold State.workerStep at h
  split at h
  case h_1 hpc =>
    split at h
    · obtain rfl := Option.some.inj h
      exact .exit hw hpc ‹_›
    · split at h
      · cases h
      · obtain rfl := Option.some.inj h
        exact .take hw hpc ‹_›
  case h_2 hpc =>
    obtain rfl := Option.some.inj h
    exact .call hw hpc
  case h_3 hpc =>
    obtain rfl := Option.some.inj h
    exact .ret hw hpc
  case h_4 task taskType hpc =>
    cases taskType with
    | false =>
        obtain rfl := Option.some.inj h
        exact .delete hw hpc
    | true =>
        obtain rfl := Option.some.inj h
        exact .keep hw hpc
  case h_5 => cases h

theorem join_move (h : join n s = some s') : Move n once s s' := by
  unfold join at h
  split at h
  case h_2 => cases h
  case h_1 hst =>
    split at h
    · split at h
      · obtain rfl := Option.some.inj h
        exact .join (by simp) (by simp [hst]) (by simp [hst])
      · cases h
    · obtain rfl := Option.some.inj h
      exact .join (by simp) (by simp [hst]) (by simp [hst])

theorem destroy_move (h : destroy once s = some s') : Move n once s s' := by
  unfold destroy at h
  split at h
  case h_2 => cases h
  case h_1 hst =>
    split at h
    · cases h
    · rename_i hd
      obtain rfl := Option.some.inj h
      exact .destroy hst (Bool.eq_false_iff.mpr hd)

theorem step_move {l : Act} (hc : Client once s l) (h : step n once s l = some s') :
    Move n once s s' := by
  cases l with
  | addTask caller cb =>
      simp only [step] at h
      split at h
      · obtain rfl := Option.some.inj h
        unfold State.addTask
        split
        · exact .same
        · exact .add hc.1 hc.2
      · cases h
  | worker w =>
      simp only [step] at h
      split at h
      · next hw => exact workerStep_move hw.1 h
      · cases h
  | stop caller =>
      simp only [step] at h
      split at h
      · split at h
        · obtain rfl := Option.some.inj h
          exact .same
        · next hf =>
            obtain rfl := Option.some.inj h
            exact .stop caller (Bool.eq_false_iff.mpr hf) hc
      · cases h
  | join => exact join_move h
  | destroy => exact destroy_move h

/-! ## Where the occurrences are -/

/-- The occurrence that a worker has taken and is not back from. -/
def Pc.held : Pc → List Occurrence
  | .taken x _ => [x]
  | .run x _ => [x]
  | _ => []

/-- The occurrence whose call a worker is inside of. -/
def Pc.runs : Pc → Option Occurrence
  | .run x _ => some x
  | _ => none

/-- Each occurrence is in one place: the queue, with a worker, finished or
disposed of. -/
structure Places (n : ℕ) (s : State) : Prop where
  place : ∀ x, s.tasks.count x + Tally.total n (fun pc => pc.held.count x) s.pc
    + s.finished.count x + s.disposed.count x = s.added.count x
  num : ∀ i (x : Occurrence), s.added[i]? = some x → x.num = i

theorem Places.count_le (h : Places n s) (x : Occurrence) : s.added.count x ≤ 1 := by
  refine List.nodup_iff_count_le_one.mp (List.nodup_iff_getElem?_ne_getElem?.mpr ?_) x
  intro i j hij hj heq
  obtain ⟨y, hy⟩ : ∃ y, s.added[j]? = some y := ⟨_, List.getElem?_eq_getElem hj⟩
  have hi := h.num i y (heq.trans hy)
  have hj := h.num j y hy
  omega

theorem Places.new (n : ℕ) : Places n .new :=
  ⟨fun x => by simp [State.new, Tally.total, Pc.held], by simp [State.new]⟩

/-- What is left to show of a move at the worker `w`. -/
theorem Places.moveAt (h : Places n s) {w : ℕ} (hw : w < n) {pc : Pc}
    (hpc : s'.pc = Function.update s.pc w pc) (hd : s'.disposed = s.disposed)
    (ha : s'.added = s.added)
    (hplace : ∀ x, s'.tasks.count x + pc.held.count x + s'.finished.count x
      = s.tasks.count x + (s.pc w).held.count x + s.finished.count x) : Places n s' := by
  refine ⟨fun x => ?_, ha ▸ h.num⟩
  have hold := h.place x
  have hx := hplace x
  have htotal := Tally.total_update (fun pc => pc.held.count x) s.pc hw pc
  rw [hpc, hd, ha]
  omega

theorem Places.move (h : Places n s) (hm : Move n once s s') : Places n s' := by
  cases hm with
  | same => exact h
  | add hidle hnew =>
      refine ⟨fun x => ?_, fun i x hx => ?_⟩
      · have hold := h.place x
        simp only [List.count_append]
        omega
      · rw [List.getElem?_append] at hx
        split at hx
        · exact h.num i x hx
        · rw [List.getElem?_singleton] at hx
          split at hx
          · obtain rfl := Option.some.inj hx
            show s.added.length = i
            omega
          · cases hx
  | exit hw hpc hf => exact h.moveAt hw rfl rfl rfl fun x => by simp [hpc, Pc.held, State.goto]
  | take hw hpc hq =>
      refine h.moveAt hw rfl rfl rfl fun x => ?_
      simp only [hpc, hq, Pc.held, State.goto, List.count_cons, List.count_nil]
      omega
  | call hw hpc => exact h.moveAt hw rfl rfl rfl fun x => by simp [hpc, Pc.held, State.goto]
  | ret hw hpc =>
      refine h.moveAt hw rfl rfl rfl fun x => ?_
      simp only [hpc, Pc.held, State.goto, List.count_append, List.count_nil]
      omega
  | delete hw hpc => exact h.moveAt hw rfl rfl rfl fun x => by simp [hpc, Pc.held, State.goto]
  | keep hw hpc => exact h.moveAt hw rfl rfl rfl fun x => by simp [hpc, Pc.held, State.goto]
  | stop c hf hcalled => exact ⟨h.place, h.num⟩
  | join hst hs hd => exact ⟨h.place, h.num⟩
  | destroy hs hd =>
      refine ⟨fun x => ?_, h.num⟩
      have hold := h.place x
      simp only [List.count_append, List.count_nil]
      omega

/-- What a worker holds is nowhere else. -/
theorem Places.alone (h : Places n s) {w : ℕ} (hw : w < n) {x : Occurrence}
    (hx : x ∈ (s.pc w).held) :
    x ∉ s.finished ∧ x ∉ s.disposed ∧ ∀ v < n, v ≠ w → x ∉ (s.pc v).held := by
  have hle := h.count_le x
  have hplace := h.place x
  have hpos : 1 ≤ (s.pc w).held.count x := List.one_le_count_iff.mpr hx
  have htotal := Tally.le_total (fun pc => pc.held.count x) s.pc hw
  refine ⟨fun hf => ?_, fun hd => ?_, fun v hv hvw hmem => ?_⟩
  · have := List.one_le_count_iff.mpr hf
    omega
  · have := List.one_le_count_iff.mpr hd
    omega
  · have hall : Tally.total n (fun pc => pc.held.count x) s.pc ≤ (s.pc w).held.count x := by omega
    exact List.count_eq_zero.mp (Tally.eq_zero_of_le hall hw hv hvw) hmem

/-- What is in the queue is nowhere else. -/
theorem Places.queued (h : Places n s) {x : Occurrence} (hx : x ∈ s.tasks) :
    x ∈ s.added ∧ x ∉ s.finished ∧ x ∉ s.disposed ∧ ∀ w < n, x ∉ (s.pc w).held := by
  have hle := h.count_le x
  have hplace := h.place x
  have hpos : 1 ≤ s.tasks.count x := List.one_le_count_iff.mpr hx
  refine ⟨List.one_le_count_iff.mp (by omega), fun hf => ?_, fun hd => ?_, fun w hw hmem => ?_⟩
  · have := List.one_le_count_iff.mpr hf
    omega
  · have := List.one_le_count_iff.mpr hd
    omega
  · have htotal := Tally.le_total (fun pc => pc.held.count x) s.pc hw
    have := List.one_le_count_iff.mpr hmem
    omega

/-! ## The ledger -/

namespace State

def ledger (n : ℕ) (s : State) : Ledger :=
  .ofWorkers n s.added s.finished s.disposed (fun w => (s.pc w).runs) s.log

theorem runs_goto (s : State) (w : ℕ) (pc : Pc) : (fun v => ((s.goto w pc).pc v).runs)
    = Function.update (fun v => (s.pc v).runs) w pc.runs := by
  funext v
  by_cases hv : v = w
  · subst hv
    simp [goto]
  · simp [goto, hv]

/-- A worker that goes on to another place outside of its task. -/
theorem ledger_goto (n : ℕ) {w : ℕ} {pc : Pc} (h : pc.runs = (s.pc w).runs) :
    (s.goto w pc).ledger n = s.ledger n := by
  rw [ledger, runs_goto, h, Function.update_eq_self]
  rfl

theorem ledger_add (n : ℕ) (s : State) (tasks : List Occurrence) (x : Occurrence) :
    ledger n { s with tasks := tasks, added := s.added ++ [x] }
      = { s.ledger n with added := insert x (s.ledger n).added } :=
  Ledger.ofWorkers_add x

theorem ledger_call {w : ℕ} {x : Occurrence} {t : Bool} (hw : w < n) (hpc : s.pc w = .taken x t) :
    ({ s with log := s.log ++ [Event.call x] }.goto w (.run x t)).ledger n
      = { s.ledger n with
          started := insert x (s.ledger n).started
          log := s.log ++ [.call x] } := by
  rw [ledger, runs_goto]
  exact Ledger.ofWorkers_call hw (by rw [hpc]; rfl) x

theorem ledger_ret {w : ℕ} {x : Occurrence} {t : Bool} {log : List Event} (hw : w < n)
    (hpc : s.pc w = .run x t) :
    ({ s with finished := s.finished ++ [x], log := log }.goto w (.ran x t)).ledger n
      = { s.ledger n with
          returned := insert x (s.ledger n).returned
          log := log } := by
  rw [ledger, runs_goto]
  exact Ledger.ofWorkers_ret hw (by rw [hpc]; rfl)

end State

/-- The task of a worker, and what it answered to `once()`. -/
def Pc.task : Pc → Option (Occurrence × Bool)
  | .taken x t => some (x, t)
  | .run x t => some (x, t)
  | .ran x t => some (x, t)
  | _ => none

structure Inv (n : ℕ) (once : ℕ → Bool) (s : State) : Prop extends Places n s where
  typed : ∀ w x t, (s.pc w).task = some (x, t) → t = once x.cb ∧ x ∈ s.added
  started : ∀ x, Event.call x ∈ s.log → x ∈ (s.ledger n).started
  called : s.stop ≠ .idle → ∀ x ∈ s.added, Event.call x ∈ s.log
  stopped : s.destroyed = true → s.stop ≠ .idle
  /-- A repeatable callback is deleted after its run. -/
  left : ∀ x ∈ s.finished, once x.cb = false →
    (∃ w < n, s.pc w = .ran x false) ∨ Event.delete x.cb ∈ s.log

theorem Inv.new (n : ℕ) (once : ℕ → Bool) : Inv n once .new where
  toPlaces := .new n
  typed := by simp [State.new, Pc.task]
  started := by simp [State.new]
  called := by simp [State.new]
  stopped := by simp [State.new]
  left := by simp [State.new]

theorem typed_goto {w : ℕ} {pc : Pc} {x : Occurrence} {t : Bool}
    (h : ∀ w x t, (s.pc w).task = some (x, t) → t = once x.cb ∧ x ∈ s.added)
    (hpc : pc.task = some (x, t) → t = once x.cb ∧ x ∈ s.added) (v : ℕ)
    (hv : ((s.goto w pc).pc v).task = some (x, t)) : t = once x.cb ∧ x ∈ s.added := by
  by_cases hvw : v = w
  · subst hvw
    exact hpc (by simpa [State.goto] using hv)
  · exact h v x t (by simpa [State.goto, hvw] using hv)

/-- Only the worker that goes on can leave its place. -/
theorem ran_goto {w : ℕ} {pc : Pc} {x : Occurrence} (hw : ∀ y, s.pc w ≠ .ran y false)
    (h : ∃ v < n, s.pc v = .ran x false) : ∃ v < n, (s.goto w pc).pc v = .ran x false := by
  obtain ⟨v, hv, hpc⟩ := h
  have hvw : v ≠ w := by
    rintro rfl
    exact hw x hpc
  exact ⟨v, hv, (Function.update_of_ne hvw ..).trans hpc⟩

theorem Inv.typed_move (h : Inv n once s) (hm : Move n once s s') :
    ∀ w x t, (s'.pc w).task = some (x, t) → t = once x.cb ∧ x ∈ s'.added := by
  intro w x t
  cases hm with
  | add hidle hnew =>
      intro ht
      obtain ⟨htype, hadded⟩ := h.typed w x t ht
      exact ⟨htype, List.mem_append_left _ hadded⟩
  | exit hw hpc hf => exact typed_goto h.typed (by simp [Pc.task]) w
  | take hw hpc hq =>
      refine typed_goto h.typed (fun ht => ?_) w
      obtain ⟨rfl, rfl⟩ := Prod.mk.inj (Option.some.inj ht)
      exact ⟨rfl, (h.queued (hq ▸ List.mem_cons_self ..)).1⟩
  | call hw hpc =>
      exact typed_goto (s := { s with log := _ }) h.typed
        (fun ht => h.typed _ x t (by rw [hpc]; exact ht)) w
  | ret hw hpc =>
      exact typed_goto (s := { s with finished := _, log := _ }) h.typed
        (fun ht => h.typed _ x t (by rw [hpc]; exact ht)) w
  | delete hw hpc => exact typed_goto (s := { s with log := _ }) h.typed (by simp [Pc.task]) w
  | keep hw hpc => exact typed_goto h.typed (by simp [Pc.task]) w
  | _ => exact h.typed w x t

theorem Inv.started_move (h : Inv n once s) (hm : Move n once s s') :
    ∀ x, Event.call x ∈ s'.log → x ∈ (s'.ledger n).started := by
  intro x hx
  cases hm with
  | @exit w hw hpc hf =>
      rw [s.ledger_goto n (by rw [hpc]; rfl)]
      exact h.started x hx
  | @take w y ys hw hpc hq =>
      rw [State.ledger_goto n (s := { s with tasks := ys }) (by rw [hpc]; rfl)]
      exact h.started x hx
  | @call w y t hw hpc =>
      rw [State.ledger_call hw hpc]
      rcases List.mem_append.mp hx with hx | hx
      · exact .inr (h.started x hx)
      · obtain rfl : x = y := by simpa using hx
        exact .inl rfl
  | @ret w y t hw hpc =>
      rw [State.ledger_ret hw hpc]
      rcases List.mem_append.mp hx with hx | hx
      · exact h.started x hx
      · exact absurd hx (call_notMem_deleteOnce once y.cb x)
  | @delete w y hw hpc =>
      rw [State.ledger_goto n (s := { s with log := _ }) (by rw [hpc]; rfl)]
      exact h.started x (by simpa [State.goto] using hx)
  | @keep w y hw hpc =>
      rw [s.ledger_goto n (by rw [hpc]; rfl)]
      exact h.started x hx
  | destroy hs hd =>
      rcases List.mem_append.mp hx with hx | hx
      · exact h.started x hx
      · exact absurd hx (call_notMem_flatMap once s.tasks x)
  | _ => exact h.started x hx

theorem Inv.called_move (h : Inv n once s) (hm : Move n once s s') :
    s'.stop ≠ .idle → ∀ x ∈ s'.added, Event.call x ∈ s'.log := by
  intro hst x hx
  cases hm with
  | add hidle hnew => exact absurd hidle hst
  | call hw hpc => exact List.mem_append_left _ (h.called hst x hx)
  | ret hw hpc => exact List.mem_append_left _ (h.called hst x hx)
  | delete hw hpc => exact List.mem_append_left _ (h.called hst x hx)
  | stop c hf hcalled => exact hcalled x hx
  | join hst' hs hd => exact h.called hs x hx
  | destroy hs hd => exact List.mem_append_left _ (h.called hst x hx)
  | _ => exact h.called hst x hx

theorem Inv.left_move (h : Inv n once s) (hm : Move n once s s') :
    ∀ x ∈ s'.finished, once x.cb = false →
      (∃ w < n, s'.pc w = .ran x false) ∨ Event.delete x.cb ∈ s'.log := by
  intro x hx honce
  cases hm with
  | exit hw hpc hf => exact (h.left x hx honce).imp_left (ran_goto (by simp [hpc]))
  | @take w y ys hw hpc hq =>
      exact (h.left x hx honce).imp (ran_goto (s := { s with tasks := ys }) (by simp [hpc])) id
  | call hw hpc =>
      exact (h.left x hx honce).imp (ran_goto (s := { s with log := _ }) (by simp [hpc]))
        (List.mem_append_left _)
  | @ret w y t hw hpc =>
      rcases List.mem_append.mp hx with hx | hx
      · exact (h.left x hx honce).imp (ran_goto (s := { s with finished := _, log := _ })
          (by simp [hpc])) (List.mem_append_left _)
      · obtain rfl : x = y := by simpa using hx
        have ht : t = once x.cb := (h.typed w x t (by rw [hpc]; rfl)).1
        exact .inl ⟨w, hw, by simp [State.goto, ht, honce]⟩
  | @delete w y hw hpc =>
      rcases h.left x hx honce with ⟨v, hv, hran⟩ | hdel
      · by_cases hvw : v = w
        · obtain rfl : y = x := by simpa [hvw, hpc] using hran
          exact .inr (List.mem_append_right _ (List.mem_singleton.mpr rfl))
        · exact .inl ⟨v, hv, (Function.update_of_ne hvw ..).trans hran⟩
      · exact .inr (List.mem_append_left _ hdel)
  | keep hw hpc => exact (h.left x hx honce).imp_left (ran_goto (by simp [hpc]))
  | destroy hs hd => exact (h.left x hx honce).imp_right (List.mem_append_left _)
  | _ => exact h.left x hx honce

theorem Inv.move (h : Inv n once s) (hm : Move n once s s') : Inv n once s' where
  toPlaces := h.toPlaces.move hm
  typed := h.typed_move hm
  started := h.started_move hm
  called := h.called_move hm
  stopped := by
    cases hm with
    | stop c hf hcalled => simp
    | join hst hs hd => exact fun _ => hst
    | destroy hs hd => exact fun _ => by simp [hs]
    | _ => exact h.stopped
  left := h.left_move hm

theorem Move.added_subset (hm : Move n once s s') : ∀ x ∈ s.added, x ∈ s'.added := by
  intro x hx
  cases hm with
  | add hidle hnew => exact List.mem_append_left _ hx
  | _ => exact hx

theorem Pc.held_of_runs {pc : Pc} {x : Occurrence} (h : pc.runs = some x) : x ∈ pc.held := by
  cases pc with
  | run y t =>
      obtain rfl := Option.some.inj h
      exact List.mem_singleton.mpr rfl
  | _ => cases h

/-- What a worker has taken has not been called. -/
theorem Places.not_started (h : Places n s) {w : ℕ} (hw : w < n) {x : Occurrence} {t : Bool}
    (hpc : s.pc w = .taken x t) : x ∉ (s.ledger n).started := by
  obtain ⟨hf, -, hrest⟩ := h.alone hw (x := x) (by rw [hpc]; exact List.mem_singleton.mpr rfl)
  rintro (hfin | ⟨v, hv, hrun⟩)
  · exact hf hfin
  · have hrun : (s.pc v).runs = some x := hrun
    by_cases hvw : v = w
    · rw [hvw, hpc] at hrun
      cases hrun
    · exact hrest v hv hvw (Pc.held_of_runs hrun)

/-- With once-only callbacks the moves are those of the ledger. -/
theorem Inv.steps (h : Inv n once s) (hm : Move n once s s')
    (hall : ∀ x ∈ s'.added, once x.cb = true) : (s.ledger n).Steps once (s'.ledger n) := by
  cases hm with
  | @add cb hidle hnew =>
      rw [State.ledger_add]
      refine .single (.add ⟨s.added.length, cb⟩ (fun hmem => ?_) hnew)
      obtain ⟨i, hi⟩ := List.mem_iff_getElem?.mp hmem
      have hnum : s.added.length = i := h.num i _ hi
      have hlt := (List.getElem?_eq_some_iff.mp hi).1
      omega
  | @exit w hw hpc hf =>
      rw [s.ledger_goto n (by rw [hpc]; rfl)]
      exact .refl
  | @take w y ys hw hpc hq =>
      rw [State.ledger_goto n (s := { s with tasks := ys }) (by rw [hpc]; rfl)]
      exact .refl
  | @call w x t hw hpc =>
      rw [State.ledger_call hw hpc]
      have hheld : x ∈ (s.pc w).held := by
        rw [hpc]
        exact List.mem_singleton.mpr rfl
      exact .single (.call x (h.typed w x t (by rw [hpc]; rfl)).2 (h.not_started hw hpc)
        (h.alone hw hheld).2.1)
  | @ret w x t hw hpc =>
      rw [State.ledger_ret hw hpc]
      have hruns : (s.pc w).runs = some x := by
        rw [hpc]
        rfl
      exact .single (.ret x (.inr ⟨w, hw, hruns⟩) (h.alone hw (Pc.held_of_runs hruns)).1)
  | @delete w x hw hpc =>
      obtain ⟨htype, hadded⟩ := h.typed w x false (by rw [hpc]; rfl)
      exact absurd (htype.trans (hall x hadded)) Bool.false_ne_true
  | @keep w x hw hpc =>
      rw [s.ledger_goto n (by rw [hpc]; rfl)]
      exact .refl
  | destroy hs hd =>
      have hnd : s.tasks.Nodup := List.nodup_iff_count_le_one.mpr fun x => by
        have hplace := h.place x
        have hle := h.count_le x
        omega
      refine Ledger.steps_dispose hnd (fun x hx => (h.queued hx).1) fun x hx => ?_
      obtain ⟨-, hf, hd, hheld⟩ := h.queued hx
      exact ⟨hf, fun w hw hrun => hheld w hw (Pc.held_of_runs hrun), hd⟩
  | _ => exact .refl

/-! ## Runs -/

theorem reachable_inv (h : (machine n once).ReachableBy (Client once) s) :
    Inv n once s ∧ ((∀ x ∈ s.added, once x.cb = true) → (s.ledger n).Inv once) := by
  refine h.invariant (I := fun s => Inv n once s
    ∧ ((∀ x ∈ s.added, once x.cb = true) → (s.ledger n).Inv once)) ?_ ?_
  · rintro s rfl
    exact ⟨.new n once, fun _ => Ledger.ofWorkers_inv n once⟩
  · rintro s l s' ⟨hinv, hledger⟩ hc hs
    have hm := step_move hc hs
    refine ⟨hinv.move hm, fun hall => ?_⟩
    exact (hledger fun x hx => hall x (hm.added_subset x hx)).steps (hinv.steps hm hall)

/-- At the end all that was added has been called and is back. -/
theorem Inv.returned (h : Inv n once s) (hd : Done n s) :
    ∀ x ∈ s.added, x ∈ (s.ledger n).started ∧ x ∈ s.finished := by
  intro x hx
  have hstart := h.started x (h.called (h.stopped hd.1) x hx)
  refine ⟨hstart, ?_⟩
  rcases hstart with hfin | ⟨w, hw, hrun⟩
  · exact hfin
  · have hrun : (s.pc w).runs = some x := hrun
    rw [hd.2 w hw] at hrun
    cases hrun

/-- The pool treats its callbacks well as long as they are once-only, and
only then: it deletes the others after their first run. -/
theorem treated_iff (h : (machine n once).ReachableBy (Client once) s) :
    ((∀ x ∈ s.added, once x.cb = true) → Safe once s.log)
      ∧ (Done n s → (Treated once s.added s.log ↔ ∀ x ∈ s.added, once x.cb = true)) := by
  obtain ⟨hinv, hledger⟩ := reachable_inv h
  refine ⟨fun hall => (hledger hall).safe, fun hd => ⟨fun ht x hx => ?_, fun hall => ?_⟩⟩
  · by_contra hno
    have honce : once x.cb = false := Bool.eq_false_iff.mpr hno
    rcases hinv.left x (hinv.returned hd x hx).2 honce with ⟨w, hw, hpc⟩ | hdel
    · rw [hd.2 w hw] at hpc
      cases hpc
    · exact ht.kept x.cb honce hdel
  · exact (hledger hall).treated (fun x hx => (hinv.returned hd x hx).1)
      fun x hx => .inl (hinv.returned hd x hx).2

end ThreadPoolNormal

end HttpServer
