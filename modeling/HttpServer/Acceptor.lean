import HttpServer.Lib.Execution
import HttpServer.ServiceManager

/-!
# The accept loop

`Acceptor::doAccept` (acceptor.cpp) as the task of worker `w` of the
service manager, with the accept callback that `HTTPService` and
`KVService` install. Everything else goes on beside it: other workers,
the polling loop, and calls of `stop()`, the first of which closes the
acceptor.

The loop is left at `EAGAIN` and nowhere else. Every other failure goes to
the callback, which returns at once when `stop()` has been called, and
else calls it. After that the acceptor has no descriptor to wait with
(`Doomed`), and the worker that the stop waits for never comes back.
-/

namespace HttpServer

namespace Acceptor

open ServiceManager (Caller CallPc)

inductive Errno where
  | eintr
  | econnaborted
  | eagain
  | other (errno : ℕ)
deriving DecidableEq, Repr

/-- What `accept(2)` returns. -/
inductive Result where
  | fd (fd : ℕ)
  | error (errno : Errno)
deriving DecidableEq, Repr

/-- `socketAccept` calls `accept` again. -/
def Result.again : Result → Bool
  | .error .eintr | .error .econnaborted => true
  | _ => false

/-- Where `doAccept` is. -/
inductive Pc where
  /-- The call of `accept` in `socketAccept`. -/
  | accept
  /-- `io_descr_->readWhenReady()`. -/
  | readWhenReady
  /-- `service_manager_->stopped()` in the callback. -/
  | stopped (clientFd : Result)
  /-- `service_manager_->stop()` in the callback. -/
  | stop
  /-- Inside of that call. -/
  | stopping
  | returned
  /-- `io_descr_` was `NULL`. -/
  | crashed
deriving DecidableEq, Repr

structure State where
  service : ServiceManager.State
  /-- `io_descr_` is not `NULL`. -/
  ioDescr : Bool
  /-- The calls of `accept` so far. -/
  accepts : ℕ
  pc : Pc

inductive Act where
  | doAccept
  | service (a : ServiceManager.Act)

/-- `acceptConnection` of `HTTPService` and of `KVService`, after `stopped()`
has answered.
The constructor of a connection returns to the accept loop. -/
def acceptConnection (stopped : Bool) (clientFd : Result) : Pc :=
  if stopped then .accept
  else match clientFd with
    | .error _ => .stop
    | .fd _ => .accept

/-- This step of a call of `stop()` closes the acceptors. -/
def closes (s : ServiceManager.State) : ServiceManager.Act → Bool
  | .stopStep c => s.call c = .closeAcceptors
  | _ => false

/-- A step of the worker `w` itself. -/
def ofWorker (w : ℕ) : ServiceManager.Act → Bool
  | .worker v | .addTask (.worker v) _ | .stop (.worker v) | .stopStep (.worker v) => v = w
  | _ => false

namespace State

/-- A step of the service manager; `Acceptor::close` sets `io_descr_` to
`NULL`. -/
def serve (n : ℕ) (s : State) (a : ServiceManager.Act) : Option State :=
  (ServiceManager.step n s.service a).map fun service =>
    { s with service, ioDescr := s.ioDescr && !closes s.service a }

/-- Back in the loop, once the call of `stop()` has returned. -/
def back (w : ℕ) (s : State) : State :=
  { s with pc := if s.service.call (.worker w) = .idle then .accept else .stopping }

end State

/-- The next step of `doAccept`; `results` is what the calls of `accept`
return. What `readWhenReady` adds to the pool is among the tasks that are
added at any time. -/
def doAccept (n w : ℕ) (results : ℕ → Result) (s : State) : Option State :=
  match s.pc with
  | .accept =>
      let fd := results s.accepts
      some { s with
        accepts := s.accepts + 1
        pc := if fd.again then .accept
          else if fd = .error .eagain then .readWhenReady
          else .stopped fd }
  | .readWhenReady => some { s with pc := if s.ioDescr then .returned else .crashed }
  | .stopped clientFd => some { s with pc := acceptConnection s.service.stopRequested clientFd }
  | .stop => (s.serve n (.stop (.worker w))).map (State.back w)
  | .stopping => (s.serve n (.stopStep (.worker w))).map (State.back w)
  | .returned | .crashed => none

def step (n w : ℕ) (results : ℕ → Result) (s : State) : Act → Option State
  | .doAccept => doAccept n w results s
  | .service a => if ofWorker w a then none else s.serve n a

/-- No call of `stop()` has closed the acceptors yet. -/
def Open (s : ServiceManager.State) : Prop :=
  s.stopRequested = false ∨ ∃ c, s.call c = .closeAcceptors

/-- The service is in any state in which `w` is running a task. -/
structure Init (n w : ℕ) (s : State) : Prop where
  service : (ServiceManager.machine n).Reachable s.service
  calls : s.service.calls n w = true
  ioDescr : s.ioDescr = true ↔ Open s.service
  accepts : s.accepts = 0
  pc : s.pc = .accept

def machine (n w : ℕ) (results : ℕ → Result) : Lts State Act := ⟨Init n w, step n w results⟩

/-! ## Steps of the service manager -/

section

variable {n w : ℕ} {s s' : ServiceManager.State} {a : ServiceManager.Act} {c : Caller}

theorem step_stop (hs : ServiceManager.step n s (.stop c) = some s') :
    s' = s.enter c ∧ s.call c = .idle := by
  cases c with
  | outside k =>
      obtain ⟨hidle, hs⟩ := Option.ite_none_right_eq_some.mp hs
      exact ⟨(Option.some.inj hs).symm, hidle⟩
  | worker v =>
      obtain ⟨hcalls, hs⟩ := Option.ite_none_right_eq_some.mp hs
      exact ⟨(Option.some.inj hs).symm, (ServiceManager.calls_spec hcalls).2⟩

theorem runStep_keeps (hs : ServiceManager.runStep s = some s') :
    s'.pool = s.pool ∧ s'.stopped = s.stopped := by
  rw [ServiceManager.runStep] at hs
  cases hpc : s.runner with
  | idle | returned =>
      rw [hpc] at hs
      cases hs
  | wait =>
      rw [hpc] at hs
      obtain ⟨-, hs⟩ := Option.ite_none_right_eq_some.mp hs
      obtain rfl := Option.some.inj hs
      exact ⟨rfl, rfl⟩
  | _ =>
      rw [hpc] at hs
      obtain rfl := Option.some.inj hs
      exact ⟨rfl, rfl⟩

/-- The task of `w` goes on as long as `w` takes no step of the pool. -/
theorem step_task (hs : ServiceManager.step n s a = some s') (ha : a ≠ .worker w) :
    s'.pool.pc w = s.pool.pc w := by
  cases a with
  | addTask adder cb =>
      obtain ⟨-, hs⟩ := Option.ite_none_right_eq_some.mp hs
      obtain rfl := Option.some.inj hs
      exact congrFun (s.pool.addTask_keeps cb).1 w
  | worker v =>
      obtain ⟨-, hs⟩ := Option.ite_none_right_eq_some.mp hs
      obtain ⟨p, hp, rfl⟩ := Option.map_eq_some_iff.mp hs
      refine (ThreadPool.Pool.workerStep_keeps hp).1 w ?_
      rintro rfl
      exact ha rfl
  | run =>
      obtain ⟨-, hs⟩ := Option.ite_none_right_eq_some.mp hs
      obtain rfl := Option.some.inj hs
      rfl
  | runStep => rw [(runStep_keeps hs).1]
  | stop c =>
      obtain ⟨rfl, -⟩ := step_stop hs
      unfold ServiceManager.State.enter
      split
      · split <;> rfl
      · rfl
  | stopStep c =>
      cases ServiceManager.stopStep_move hs with
      | add => exact congrFun (s.pool.addTask_keeps none).1 w
      | joined => cases c <;> rfl
      | _ => rfl

/-- What a step makes of a call that is not its own. -/
theorem step_call (hs : ServiceManager.step n s a = some s') (hstop : a ≠ .stop c)
    (hstep : a ≠ .stopStep c) : s'.call c = s.call c := by
  cases a with
  | addTask adder cb =>
      obtain ⟨-, hs⟩ := Option.ite_none_right_eq_some.mp hs
      obtain rfl := Option.some.inj hs
      rfl
  | worker v =>
      obtain ⟨-, hs⟩ := Option.ite_none_right_eq_some.mp hs
      obtain ⟨p, -, rfl⟩ := Option.map_eq_some_iff.mp hs
      rfl
  | run =>
      obtain ⟨-, hs⟩ := Option.ite_none_right_eq_some.mp hs
      obtain rfl := Option.some.inj hs
      rfl
  | runStep => rw [ServiceManager.runStep_call hs]
  | stop d =>
      have hne : c ≠ d := by
        rintro rfl
        exact hstop rfl
      obtain ⟨rfl, -⟩ := step_stop hs
      unfold ServiceManager.State.enter
      split
      · split
        · rfl
        · exact ServiceManager.goto_call_of_ne s _ hne
      · exact ServiceManager.goto_call_of_ne _ _ hne
  | stopStep d =>
      have hne : c ≠ d := by
        rintro rfl
        exact hstep rfl
      cases ServiceManager.stopStep_move hs with
      | joined =>
          rw [ServiceManager.goto_call_of_ne _ _ hne, ServiceManager.lastWorker_call]
      | _ => exact ServiceManager.goto_call_of_ne _ _ hne

/-- No acceptor is closed yet, also while a call of `stop()` is about to. -/
structure Unclosed (s : ServiceManager.State) : Prop where
  stopped : s.stopped = false
  active : ∀ c, (s.call c).active = true → s.call c = .closeAcceptors

theorem unclosed_of_open (h : ServiceManager.Inv n s) (ho : Open s) : Unclosed s := by
  rcases ho with hreq | ⟨c, hc⟩
  · have hnone : ∀ c, (s.call c).active = true → False := fun c hc => by
      rw [(h.under c hc).1] at hreq
      cases hreq
    refine ⟨Bool.eq_false_iff.mpr fun hstopped => ?_, fun c hc => (hnone c hc).elim⟩
    rw [h.done hstopped] at hreq
    cases hreq
  · have hact : (s.call c).active = true := by rw [hc]; rfl
    refine ⟨(h.under c hact).2, fun d hd => ?_⟩
    rw [h.unique d c hd hact, hc]

theorem Unclosed.goto (hu : Unclosed s) {pc : CallPc}
    (hpc : pc.active = true → pc = .closeAcceptors) : Unclosed (s.goto c pc) := by
  refine ⟨hu.stopped, fun d hd => ?_⟩
  by_cases hdc : d = c
  · subst hdc
    rw [ServiceManager.goto_call] at hd ⊢
    exact hpc hd
  · rw [ServiceManager.goto_call_of_ne s pc hdc] at hd ⊢
    exact hu.active d hd

/-- Only the step that closes the acceptors ends this. -/
theorem Unclosed.step (hu : Unclosed s)
    (hs : ServiceManager.step n s a = some s') (hc : closes s a = false) : Unclosed s' := by
  cases a with
  | addTask adder cb =>
      obtain ⟨-, hs⟩ := Option.ite_none_right_eq_some.mp hs
      obtain rfl := Option.some.inj hs
      exact ⟨hu.stopped, hu.active⟩
  | worker v =>
      obtain ⟨-, hs⟩ := Option.ite_none_right_eq_some.mp hs
      obtain ⟨p, -, rfl⟩ := Option.map_eq_some_iff.mp hs
      exact ⟨hu.stopped, hu.active⟩
  | run =>
      obtain ⟨-, hs⟩ := Option.ite_none_right_eq_some.mp hs
      obtain rfl := Option.some.inj hs
      exact ⟨hu.stopped, hu.active⟩
  | runStep =>
      refine ⟨(runStep_keeps hs).2.trans hu.stopped, ?_⟩
      rw [ServiceManager.runStep_call hs]
      exact hu.active
  | stop c =>
      obtain ⟨rfl, -⟩ := step_stop hs
      unfold ServiceManager.State.enter
      split
      · split
        · exact hu
        · exact hu.goto nofun
      · exact Unclosed.goto (s := { s with stopRequested := true }) ⟨hu.stopped, hu.active⟩
          fun _ => rfl
  | stopStep c =>
      have hinactive : (s.call c).active = false := by
        rw [Bool.eq_false_iff]
        intro hact
        rw [closes, hu.active c hact] at hc
        cases hc
      cases ServiceManager.stopStep_move hs with
      | wake => exact hu.goto nofun
      | _ hpc =>
          rw [hpc] at hinactive
          cases hinactive

/-- A call of `stop()` returns when the acceptors are closed. -/
theorem enter_idle (hidle : (s.enter c).call c = .idle) : ¬Unclosed s := by
  intro hu
  unfold ServiceManager.State.enter at hidle
  split at hidle
  · rw [hu.stopped, if_neg Bool.false_ne_true, ServiceManager.goto_call] at hidle
    cases hidle
  · rw [ServiceManager.goto_call] at hidle
    cases hidle

theorem stopStep_idle (hs : ServiceManager.stopStep n s c = some s')
    (hidle : s'.call c = .idle) : ¬Unclosed s := by
  intro hu
  cases ServiceManager.stopStep_move hs with
  | wake hpc =>
      rw [ServiceManager.stopStep, hpc] at hs
      have hstopped := (Option.ite_none_right_eq_some.mp hs).1
      rw [hu.stopped] at hstopped
      cases hstopped
  | complete hpc =>
      have hclose := hu.active c (by rw [hpc]; rfl)
      rw [hpc] at hclose
      cases hclose
  | _ =>
      rw [ServiceManager.goto_call] at hidle
      cases hidle

end

/-! ## What holds of the loop -/

section

variable {n w : ℕ} {results : ℕ → Result} {s s' : State} {a : Act}

structure Inv (n w : ℕ) (s : State) : Prop where
  service : ServiceManager.Inv n s.service
  task : w < n ∧ ∃ x, s.service.pool.pc w = .run x
  call : s.service.call (.worker w) = .idle ↔ s.pc ≠ .stopping
  ioDescr : s.ioDescr = true → Unclosed s.service

theorem init_inv (h : Init n w s) : Inv n w s := by
  have hservice : ServiceManager.Inv n s.service := ServiceManager.reachable_inv h.service
  obtain ⟨htask, hidle⟩ := ServiceManager.calls_spec h.calls
  refine ⟨hservice, htask, iff_of_true hidle ?_, fun hd => ?_⟩
  · rw [h.pc]
    nofun
  · exact unclosed_of_open hservice (h.ioDescr.mp hd)

/-- A step of the service manager, by the worker or beside it. -/
theorem serve_spec (h : Inv n w s) {a : ServiceManager.Act} (hs : s.serve n a = some s')
    (ha : a ≠ .worker w) : ServiceManager.step n s.service a = some s'.service
      ∧ ServiceManager.Inv n s'.service ∧ (∃ x, s'.service.pool.pc w = .run x)
      ∧ (s'.ioDescr = true → s.ioDescr = true ∧ Unclosed s'.service)
      ∧ s'.pc = s.pc ∧ s'.accepts = s.accepts := by
  obtain ⟨service, hstep, rfl⟩ := Option.map_eq_some_iff.mp hs
  obtain ⟨-, x, hx⟩ := h.task
  refine ⟨hstep, h.service.step hstep, ⟨x, (step_task hstep ha).trans hx⟩, fun hd => ?_, rfl, rfl⟩
  obtain ⟨hd, hc⟩ := Bool.and_eq_true_iff.mp hd
  exact ⟨hd, (h.ioDescr hd).step hstep (by simpa using hc)⟩

/-- The worker's own steps of `stop()`. -/
theorem own_spec (h : Inv n w s) {a : ServiceManager.Act}
    (hs : (s.serve n a).map (State.back w) = some s') (ha : a ≠ .worker w) : Inv n w s' ∧
      (s'.pc = .accept ∧ s'.service.call (.worker w) = .idle ∨ s'.pc = .stopping)
      ∧ ServiceManager.step n s.service a = some s'.service
      ∧ (s'.ioDescr = true → s.ioDescr = true) := by
  obtain ⟨s₁, hserve, rfl⟩ := Option.map_eq_some_iff.mp hs
  obtain ⟨hstep, hinv, htask, hd, -, -⟩ := serve_spec h hserve ha
  by_cases hidle : s₁.service.call (.worker w) = .idle
  · have hback : s₁.back w = { s₁ with pc := .accept } := by rw [State.back, if_pos hidle]
    rw [hback]
    exact ⟨⟨hinv, ⟨h.task.1, htask⟩, iff_of_true hidle nofun, fun h => (hd h).2⟩,
      .inl ⟨rfl, hidle⟩, hstep, fun h => (hd h).1⟩
  · have hback : s₁.back w = { s₁ with pc := .stopping } := by rw [State.back, if_neg hidle]
    rw [hback]
    exact ⟨⟨hinv, ⟨h.task.1, htask⟩, iff_of_false hidle (fun h => h rfl), fun h => (hd h).2⟩,
      .inr rfl, hstep, fun h => (hd h).1⟩

/-- A step in the loop itself, to a place that is not inside of `stop()`. -/
theorem Inv.goto (h : Inv n w s) (hpc : s.pc ≠ .stopping) {pc : Pc} (hpc' : pc ≠ .stopping)
    (accepts : ℕ) : Inv n w { s with pc := pc, accepts := accepts } :=
  ⟨h.service, h.task, iff_of_true (h.call.mpr hpc) hpc', h.ioDescr⟩

/-- What a step of `doAccept` does. -/
inductive Move (n w : ℕ) (results : ℕ → Result) (s : State) : State → Prop where
  | again (hpc : s.pc = .accept) (hfd : results s.accepts ≠ .error .eagain) :
      Move n w results s { s with pc := .accept, accepts := s.accepts + 1 }
  | eagain (hpc : s.pc = .accept) (hfd : results s.accepts = .error .eagain) :
      Move n w results s { s with pc := .readWhenReady, accepts := s.accepts + 1 }
  | accepted (hpc : s.pc = .accept) (hfd : results s.accepts ≠ .error .eagain) :
      Move n w results s { s with pc := .stopped (results s.accepts), accepts := s.accepts + 1 }
  | waits (hpc : s.pc = .readWhenReady) (hd : s.ioDescr = true) :
      Move n w results s { s with pc := .returned }
  | crashes (hpc : s.pc = .readWhenReady) (hd : s.ioDescr = false) :
      Move n w results s { s with pc := .crashed }
  | goesOn {clientFd : Result} (hpc : s.pc = .stopped clientFd) :
      Move n w results s { s with pc := .accept }
  | fails {errno : Errno} (hpc : s.pc = .stopped (.error errno))
      (hreq : s.service.stopRequested = false) : Move n w results s { s with pc := .stop }
  | stop {s' : State} (hpc : s.pc = .stop)
      (hs : (s.serve n (.stop (.worker w))).map (State.back w) = some s') : Move n w results s s'
  | stopping {s' : State} (hpc : s.pc = .stopping)
      (hs : (s.serve n (.stopStep (.worker w))).map (State.back w) = some s') :
      Move n w results s s'

theorem doAccept_move (hs : doAccept n w results s = some s') : Move n w results s s' := by
  rw [doAccept] at hs
  cases hpc : s.pc with
  | accept =>
      rw [hpc] at hs
      obtain rfl := Option.some.inj hs
      split
      · rename_i hagain
        refine .again hpc fun heagain => ?_
        rw [heagain] at hagain
        cases hagain
      · split
        · exact .eagain hpc ‹_›
        · exact .accepted hpc ‹_›
  | readWhenReady =>
      rw [hpc] at hs
      obtain rfl := Option.some.inj hs
      split
      · exact .waits hpc ‹_›
      · exact .crashes hpc (Bool.eq_false_iff.mpr ‹_›)
  | stopped clientFd =>
      rw [hpc] at hs
      obtain rfl := Option.some.inj hs
      unfold acceptConnection
      split
      · exact .goesOn hpc
      · rename_i hreq
        cases clientFd with
        | fd fd => exact .goesOn hpc
        | error errno => exact .fails hpc (Bool.eq_false_iff.mpr hreq)
  | stop =>
      rw [hpc] at hs
      exact .stop hpc hs
  | stopping =>
      rw [hpc] at hs
      exact .stopping hpc hs
  | returned | crashed =>
      rw [hpc] at hs
      cases hs

theorem Move.inv (hm : Move n w results s s') (h : Inv n w s) : Inv n w s' := by
  cases hm with
  | again hpc | eagain hpc | accepted hpc | waits hpc | crashes hpc | goesOn hpc | fails hpc =>
      refine h.goto ?_ ?_ _
      · rw [hpc]
        nofun
      · nofun
  | stop _ hs => exact (own_spec h hs nofun).1
  | stopping _ hs => exact (own_spec h hs nofun).1

theorem ofWorker_false {a : ServiceManager.Act} (ha : ofWorker w a = false) :
    a ≠ .worker w ∧ a ≠ .stop (.worker w) ∧ a ≠ .stopStep (.worker w) := by
  refine ⟨?_, ?_, ?_⟩ <;>
  · rintro rfl
    simp [ofWorker] at ha

theorem step_inv (h : Inv n w s) (hs : step n w results s a = some s') : Inv n w s' := by
  cases a with
  | doAccept => exact (doAccept_move hs).inv h
  | service a =>
      obtain ⟨ha, hs⟩ := Option.ite_none_left_eq_some.mp hs
      obtain ⟨hne, hstop, hstopStep⟩ := ofWorker_false (Bool.eq_false_iff.mpr ha)
      obtain ⟨hstep, hinv, htask, hd, hpc, -⟩ := serve_spec h hs hne
      refine ⟨hinv, ⟨h.task.1, htask⟩, ?_, fun h => (hd h).2⟩
      rw [step_call hstep hstop hstopStep, hpc]
      exact h.call

/-! ## After a call of `stop()` -/

/-- `doAccept` is about to call `stop()`, or inside of it, or there is no
descriptor to wait with. -/
structure Doomed (s : State) : Prop where
  pc : s.pc ≠ .returned
  cause : s.pc = .stop ∨ s.pc = .stopping ∨ s.ioDescr = false

theorem Doomed.ioDescr (hd : Doomed s) (hstop : s.pc ≠ .stop) (hstopping : s.pc ≠ .stopping) :
    s.ioDescr = false := by
  rcases hd.cause with h | h | h
  · exact absurd h hstop
  · exact absurd h hstopping
  · exact h

/-- The loop goes on after its own call of `stop()` without a descriptor. -/
theorem doomed_own (h : Inv n w s) {a : ServiceManager.Act}
    (hs : (s.serve n a).map (State.back w) = some s') (ha : a ≠ .worker w)
    (hidle : ServiceManager.step n s.service a = some s'.service →
      s'.service.call (.worker w) = .idle → ¬Unclosed s.service) : Doomed s' := by
  obtain ⟨-, hpc, hstep, hd⟩ := own_spec h hs ha
  rcases hpc with ⟨hpc, hcall⟩ | hpc
  · refine ⟨by rw [hpc]; nofun, .inr (.inr (Bool.eq_false_iff.mpr fun hdescr => ?_))⟩
    exact hidle hstep hcall (h.ioDescr (hd hdescr))
  · exact ⟨by rw [hpc]; nofun, .inr (.inl hpc)⟩

theorem Move.doomed (hm : Move n w results s s') (h : Inv n w s) (hd : Doomed s) : Doomed s' := by
  have hnone : s.pc ≠ .stop → s.pc ≠ .stopping → s.ioDescr = false := hd.ioDescr
  cases hm with
  | again hpc | eagain hpc | accepted hpc | crashes hpc | goesOn hpc =>
      rw [hpc] at hnone
      exact ⟨nofun, .inr (.inr (hnone nofun nofun))⟩
  | waits hpc hdescr =>
      rw [hpc, hdescr] at hnone
      cases hnone nofun nofun
  | fails => exact ⟨nofun, .inl rfl⟩
  | stop _ hs =>
      refine doomed_own h hs nofun fun hstep hidle => enter_idle (c := .worker w) ?_
      rw [(step_stop hstep).1] at hidle
      exact hidle
  | stopping _ hs => exact doomed_own h hs nofun fun hstep hidle => stopStep_idle hstep hidle

theorem Doomed.step (hd : Doomed s) (h : Inv n w s) (hs : step n w results s a = some s') :
    Doomed s' := by
  cases a with
  | doAccept => exact (doAccept_move hs).doomed h hd
  | service a =>
      obtain ⟨ha, hs⟩ := Option.ite_none_left_eq_some.mp hs
      obtain ⟨-, -, -, hdescr, hpc, -⟩ :=
        serve_spec h hs (ofWorker_false (Bool.eq_false_iff.mpr ha)).1
      refine ⟨hpc ▸ hd.pc, ?_⟩
      rw [hpc]
      rcases hd.cause with hstop | hstopping | hnone
      · exact .inl hstop
      · exact .inr (.inl hstopping)
      · refine .inr (.inr (Bool.eq_false_iff.mpr fun hsome => ?_))
        rw [(hdescr hsome).1] at hnone
        cases hnone

/-- The callback gets a failure only after `stop()` has been called, and at
`EAGAIN` the acceptor is not closed. -/
def Good (s : State) : Act → Prop
  | .doAccept =>
      (∀ errno, s.pc = .stopped (.error errno) → s.service.stopRequested = true)
        ∧ (s.pc = .readWhenReady → s.ioDescr = true)
  | .service _ => True

theorem doomed_of_not_good (hgood : ¬Good s a) (hs : step n w results s a = some s') :
    Doomed s' := by
  cases a with
  | service a => exact absurd trivial hgood
  | doAccept =>
      by_cases hd : s.pc = .readWhenReady → s.ioDescr = true
      · have hfail : ∃ errno, s.pc = .stopped (.error errno) ∧ s.service.stopRequested = false := by
          by_contra hnone
          refine hgood ⟨fun errno hpc => ?_, hd⟩
          by_contra hreq
          exact hnone ⟨errno, hpc, Bool.eq_false_iff.mpr hreq⟩
        obtain ⟨errno, hpc, hreq⟩ := hfail
        rw [step, doAccept, hpc] at hs
        obtain rfl := Option.some.inj hs
        rw [hreq]
        exact ⟨nofun, .inl rfl⟩
      · obtain ⟨hpc, hdescr⟩ := Classical.not_imp.mp hd
        rw [step, doAccept, hpc] at hs
        obtain rfl := Option.some.inj hs
        rw [if_neg hdescr]
        exact ⟨nofun, .inr (.inr (Bool.eq_false_iff.mpr hdescr))⟩

/-! ## Up to `EAGAIN` -/

/-- The loop is on its way to the call of `accept` with number `k`. -/
def Ahead (k : ℕ) (s : State) : Prop :=
  match s.pc with
  | .accept | .stopped _ => s.accepts ≤ k
  | .readWhenReady | .returned => True
  | .stop | .stopping | .crashed => False

/-- The steps of `doAccept` until then, at most. -/
def distance (k : ℕ) (s : State) : ℕ :=
  match s.pc with
  | .accept => 2 * (k + 1 - s.accepts) + 1
  | .stopped _ => 2 * (k + 1 - s.accepts) + 2
  | _ => 0

theorem Move.ahead (hm : Move n w results s s') {k : ℕ} (hk : results k = .error .eagain)
    (hgood : Good s .doAccept) (ha : Ahead k s) :
    Ahead k s' ∧ (s'.pc = .returned ∨ distance k s' < distance k s) := by
  have hnext : s.accepts ≤ k → results s.accepts ≠ .error .eagain → s.accepts + 1 ≤ k := by
    intro hle hne
    refine Nat.lt_of_le_of_ne hle ?_
    rintro rfl
    exact hne hk
  unfold Ahead distance at *
  cases hm with
  | again hpc hfd =>
      rw [hpc] at ha ⊢
      have hle := hnext ha hfd
      refine ⟨hle, .inr ?_⟩
      show 2 * (k + 1 - (s.accepts + 1)) + 1 < 2 * (k + 1 - s.accepts) + 1
      omega
  | eagain hpc =>
      rw [hpc]
      exact ⟨trivial, .inr (Nat.succ_pos _)⟩
  | accepted hpc hfd =>
      rw [hpc] at ha ⊢
      have hle := hnext ha hfd
      refine ⟨hle, .inr ?_⟩
      show 2 * (k + 1 - (s.accepts + 1)) + 2 < 2 * (k + 1 - s.accepts) + 1
      omega
  | waits => exact ⟨trivial, .inl rfl⟩
  | crashes hpc hd =>
      rw [hgood.2 hpc] at hd
      cases hd
  | goesOn hpc =>
      rw [hpc] at ha ⊢
      exact ⟨ha, .inr (Nat.lt_succ_self _)⟩
  | fails hpc hreq =>
      rw [hgood.1 _ hpc] at hreq
      cases hreq
  | stop hpc | stopping hpc =>
      rw [hpc] at ha
      exact ha.elim

/-- Steps beside `doAccept` leave it where it is. -/
theorem service_pc {a : ServiceManager.Act} (hs : step n w results s (.service a) = some s') :
    s'.pc = s.pc ∧ s'.accepts = s.accepts := by
  obtain ⟨-, hs⟩ := Option.ite_none_left_eq_some.mp hs
  obtain ⟨service, -, rfl⟩ := Option.map_eq_some_iff.mp hs
  exact ⟨rfl, rfl⟩

theorem ahead_step {k : ℕ} (hk : results k = .error .eagain) (hgood : Good s a) (ha : Ahead k s)
    (hs : step n w results s a = some s') : Ahead k s'
      ∧ (s'.pc = .returned ∨ distance k s' ≤ distance k s)
      ∧ (a = .doAccept → s'.pc = .returned ∨ distance k s' < distance k s) := by
  cases a with
  | doAccept =>
      obtain ⟨ha', hlt⟩ := (doAccept_move hs).ahead hk hgood ha
      exact ⟨ha', hlt.imp_right Nat.le_of_lt, fun _ => hlt⟩
  | service a =>
      obtain ⟨hpc, haccepts⟩ := service_pc hs
      unfold Ahead distance at *
      rw [hpc, haccepts]
      exact ⟨ha, .inr (Nat.le_refl _), nofun⟩

theorem Ahead.enabled {k : ℕ} (ha : Ahead k s) (hpc : s.pc ≠ .returned) :
    step n w results s .doAccept ≠ none := by
  unfold Ahead at ha
  rw [step, doAccept]
  cases h : s.pc with
  | accept | readWhenReady | stopped clientFd => nofun
  | returned => exact absurd h hpc
  | stop | stopping | crashed =>
      rw [h] at ha
      exact ha.elim

/-- The loop is past an `EAGAIN`. -/
theorem eagain_step (hs : step n w results s a = some s')
    (h : s.pc = .readWhenReady ∨ s.pc = .returned → ∃ k, results k = .error .eagain)
    (hpc : s'.pc = .readWhenReady ∨ s'.pc = .returned) : ∃ k, results k = .error .eagain := by
  cases a with
  | service a => exact h ((service_pc hs).1 ▸ hpc)
  | doAccept =>
      cases doAccept_move hs with
      | eagain _ hfd => exact ⟨_, hfd⟩
      | waits hready => exact h (.inl hready)
      | stop _ hs | stopping _ hs =>
          obtain ⟨s₁, -, rfl⟩ := Option.map_eq_some_iff.mp hs
          rw [State.back] at hpc
          split at hpc <;> simp at hpc
      | again | accepted | crashes | goesOn | fails => simp at hpc

end

/-! ## Executions -/

section

open Lts

variable {n w : ℕ} {results : ℕ → Result}

/-- `doAccept` returns, and its worker can go on to the next task. -/
def Returns (e : Execution (machine n w results)) : Prop :=
  ∃ i, (e.st i).pc = .returned ∧ ServiceManager.step n (e.st i).service (.worker w) ≠ none

/-- `EAGAIN` comes, and no step before it is the end of the way back. -/
structure Rearms (e : Execution (machine n w results)) : Prop where
  eagain : ∃ k, results k = .error .eagain
  good : ∀ i a, e.act i = some a → Good (e.st i) a

theorem execution_inv (e : Execution (machine n w results)) (i : ℕ) : Inv n w (e.st i) :=
  e.invariant (I := Inv n w) (fun _ => init_inv) (fun _ _ _ h hs => step_inv h hs) i

theorem eagain_of_returned (e : Execution (machine n w results)) {i : ℕ}
    (hi : (e.st i).pc = .returned) : ∃ k, results k = .error .eagain := by
  refine e.invariant
    (I := fun s => s.pc = .readWhenReady ∨ s.pc = .returned → ∃ k, results k = .error .eagain)
    (fun s (h : Init n w s) hpc => ?_) (fun s a s' h hs => eagain_step hs h) i (.inr hi)
  rw [h.pc] at hpc
  simp at hpc

/-- Once `doAccept` is doomed it stays so. -/
theorem good_of_returned (e : Execution (machine n w results)) {i : ℕ}
    (hi : (e.st i).pc = .returned) (j : ℕ) (a : Act) (ha : e.act j = some a) :
    Good (e.st j) a := by
  by_contra hgood
  have hdoomed : Doomed (e.st (j + 1)) := doomed_of_not_good hgood (e.step ha)
  rcases Nat.lt_or_ge j i with hji | hij
  · have hlater := e.preserved (I := fun s => Inv n w s ∧ Doomed s)
      (fun _ _ _ h hs => ⟨step_inv h.1 hs, h.2.step h.1 hs⟩) ⟨execution_inv e (j + 1), hdoomed⟩
      i hji
    exact hlater.2.pc hi
  · have hreturned : ∀ j, i ≤ j → (e.st j).pc = .returned := by
      refine e.preserved (I := fun s => s.pc = .returned) (fun s a s' h hs => ?_) hi
      cases a with
      | service a =>
          have hservice : step n w results s (.service a) = some s' := hs
          exact (service_pc hservice).1.trans h
      | doAccept =>
          have hnone : step n w results s .doAccept = none := by rw [step, doAccept, h]
          cases hnone.symm.trans hs
    exact hdoomed.pc (hreturned (j + 1) (Nat.le_succ_of_le hij))

/-- **The accept loop ends** in exactly the executions in which `accept`
fails with `EAGAIN` at last, with no other failure before it unless
`stop()` has been called, and with the acceptor not closed by then. -/
theorem doAccept_returns_iff (e : Execution (machine n w results)) (hf : e.Fair .doAccept) :
    Returns e ↔ Rearms e := by
  constructor
  · rintro ⟨i, hi, -⟩
    exact ⟨eagain_of_returned e hi, good_of_returned e hi⟩
  · rintro ⟨⟨k, hk⟩, hgood⟩
    have hahead : ∀ i, Ahead k (e.st i) := by
      intro i
      induction i with
      | zero =>
          obtain ⟨-, -, -, haccepts, hpc⟩ : Init n w (e.st 0) := e.init
          unfold Ahead
          rw [hpc, haccepts]
          exact Nat.zero_le k
      | succ i ih => exact e.keeps (fun a ha hs => (ahead_step hk (hgood i a ha) ih hs).1) ih
    have hstep : ∀ i a, e.act i = some a → ((e.st (i + 1)).pc = .returned
        ∨ (e.st (i + 1)).pc ≠ .returned ∧ distance k (e.st (i + 1)) ≤ distance k (e.st i))
        ∧ (a = .doAccept → (e.st (i + 1)).pc = .returned
          ∨ (e.st (i + 1)).pc ≠ .returned ∧ distance k (e.st (i + 1)) < distance k (e.st i)) := by
      intro i a ha
      obtain ⟨-, hle, hlt⟩ := ahead_step hk (hgood i a ha) (hahead i) (e.step ha)
      by_cases hpc : (e.st (i + 1)).pc = .returned
      · exact ⟨.inl hpc, fun _ => .inl hpc⟩
      · refine ⟨.inr ⟨hpc, hle.resolve_left hpc⟩, fun hact => .inr ⟨hpc, ?_⟩⟩
        exact (hlt hact).resolve_left hpc
    have hnot : (e.st 0).pc ≠ .returned := by
      rw [e.init.pc]
      nofun
    obtain ⟨i, -, hi⟩ : ∃ i, 0 ≤ i ∧ (e.st i).pc = .returned :=
      hf.leadsTo (p := fun s => s.pc ≠ .returned) (q := fun s => s.pc = .returned) (distance k)
        (fun i hi => (hahead i).enabled hi) (fun i _ ha => (hstep i _ ha).2 rfl)
        (fun i b _ hb _ => (hstep i b hb).1) hnot
    have h := execution_inv e i
    obtain ⟨hlt, x, hx⟩ := h.task
    have hidle := h.call.mpr (by rw [hi]; nofun)
    refine ⟨i, hi, ?_⟩
    simp [ServiceManager.step, hlt, hidle, ThreadPool.Pool.workerStep, hx]

end

/-! ## Two executions -/

open Lts

/-- A service with one worker, which has been given a task. -/
def taskStarted : List ServiceManager.Act :=
  [.addTask .outside (some 0), .worker 0, .worker 0, .worker 0]

/-- ... and is stopped from outside: the stop waits for the worker. -/
def stopJoins : List ServiceManager.Act :=
  taskStarted ++ .stop (.outside 0) :: List.replicate 4 (.stopStep (.outside 0))

/-- The state of `doAccept` at its beginning. -/
def start (ioDescr : Bool) (acts : List ServiceManager.Act) : State where
  service := ((ServiceManager.machine 1).exec (fun _ _ => True) (ServiceManager.init 1) acts).getD
    (ServiceManager.init 1)
  ioDescr := ioDescr
  accepts := 0
  pc := .accept

theorem reachable_start (ioDescr : Bool) {acts : List ServiceManager.Act}
    (h : ((ServiceManager.machine 1).exec (fun _ _ => True) (ServiceManager.init 1) acts).isSome
      = true) : (ServiceManager.machine 1).Reachable (start ioDescr acts).service := by
  obtain ⟨service, hs⟩ := Option.isSome_iff_exists.mp h
  rw [start, hs]
  exact Lts.ReachableBy.exec (.init rfl) hs

theorem init_running : Init 1 0 (start true taskStarted) :=
  ⟨reachable_start true (by decide), by decide, iff_of_true rfl (.inl (by decide)), rfl, rfl⟩

theorem init_joined : Init 1 0 (start false stopJoins) := by
  have hreach : (ServiceManager.machine 1).Reachable (start false stopJoins).service :=
    reachable_start false (by decide)
  refine ⟨hreach, by decide, iff_of_false nofun ?_, rfl, rfl⟩
  have hjoining : (start false stopJoins).service.call (.outside 0) = .joining 0 := by decide
  rintro (hreq | ⟨c, hc⟩)
  · revert hreq
    decide
  · obtain rfl : c = .outside 0 := (ServiceManager.reachable_inv hreach).unique _ _
      (by rw [hc]; rfl) (by rw [hjoining]; rfl)
    rw [hjoining] at hc
    cases hc

/-- One client, then `EAGAIN`; the listener is closed after that. -/
def oneClient : ℕ → Result
  | 0 => .fd 5
  | 1 => .error .eagain
  | _ => .error (.other 9)

/-- The places of `doAccept` in an execution with `oneClient`. -/
def Accepting (s : State) : Prop :=
  s.ioDescr = true ∧ (s.pc = .accept ∧ s.accepts ≤ 1 ∨ s.pc = .stopped (.fd 5) ∧ s.accepts = 1
    ∨ s.pc = .readWhenReady ∨ s.pc = .returned)

theorem accepting_step (s s' : State) (h : Accepting s)
    (hs : step 1 0 oneClient s .doAccept = some s') : Accepting s' := by
  rw [step] at hs
  obtain ⟨hd, ⟨hpc, hle⟩ | ⟨hpc, hone⟩ | hpc | hpc⟩ := h <;> rw [doAccept, hpc] at hs
  · rcases Nat.le_one_iff_eq_zero_or_eq_one.mp hle with hzero | hone
    · simp only [hzero, oneClient] at hs
      obtain rfl := Option.some.inj hs
      exact ⟨hd, .inr (.inl ⟨rfl, rfl⟩)⟩
    · simp only [hone, oneClient] at hs
      obtain rfl := Option.some.inj hs
      exact ⟨hd, .inr (.inr (.inl rfl))⟩
  · obtain rfl := Option.some.inj hs
    exact ⟨hd, .inl ⟨by simp [acceptConnection], Nat.le_of_eq hone⟩⟩
  · obtain rfl := Option.some.inj hs
    rw [if_pos hd]
    exact ⟨hd, .inr (.inr (.inr rfl))⟩
  · cases hs

theorem accepting_good {s : State} (h : Accepting s) (a : Act) : Good s a := by
  cases a with
  | service a => trivial
  | doAccept =>
      obtain ⟨hd, hpc⟩ := h
      refine ⟨fun errno herr => ?_, fun _ => hd⟩
      rw [herr] at hpc
      simp at hpc

/-- The client is taken, and the loop returns at `EAGAIN`. -/
theorem oneClient_returns :
    ∃ e : Execution (machine 1 0 oneClient), e.Fair .doAccept ∧ Returns e := by
  have h0 : Accepting (start true taskStarted) := ⟨rfl, .inl ⟨rfl, Nat.zero_le _⟩⟩
  let e : Execution (machine 1 0 oneClient) := .follow (fun _ => .doAccept) _ init_running
  have hat : ∀ i, Accepting (e.st i) := Execution.follow_invariant h0 accepting_step
  have hfair : e.Fair .doAccept := fun i => ⟨i, Nat.le_refl i, Execution.follow_takes i⟩
  exact ⟨e, hfair, (doAccept_returns_iff e hfair).mpr
    ⟨⟨1, rfl⟩, fun i a _ => accepting_good (hat i) a⟩⟩

/-- From some point on `accept` always fails the same way. -/
def Dead (results : ℕ → Result) : Prop :=
  ∃ m errno, (errno ≠ .eintr ∧ errno ≠ .econnaborted ∧ errno ≠ .eagain)
    ∧ ∀ k, m ≤ k → results k = .error errno

/-- `EBADF` only, while a stop waits for the worker: the callback returns
each time, and the loop never does. -/
theorem deadListener_never_returns : ¬∀ (n w : ℕ) (results : ℕ → Result), Dead results →
    ∀ e : Execution (machine n w results), e.Fair .doAccept → Returns e := by
  intro h
  let e : Execution (machine 1 0 fun _ => .error (.other 9)) :=
    .follow (fun _ => .doAccept) _ init_joined
  have hdead : Dead fun _ => .error (.other 9) := ⟨0, .other 9, by simp, fun _ _ => rfl⟩
  obtain ⟨i, hi, -⟩ := h 1 0 _ hdead e fun i => ⟨i, Nat.le_refl i, Execution.follow_takes i⟩
  obtain ⟨k, hk⟩ := eagain_of_returned e hi
  cases hk

end Acceptor

end HttpServer
