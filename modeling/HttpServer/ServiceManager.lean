import HttpServer.ThreadPoolNulls

/-!
# Stopping the service

`ServiceManager::stop` and `run` (service_manager.cpp) over
`IOManager::stop`, `poll` and `pollBody` (io_manager.cpp) and the stop of
the pool. The calls of `stop()` come from any number of outside threads
and from the tasks of workers; one more thread calls `run()`. A section
of a lock is one step. The sections that set `stopped_` and clear
`polling_` signal the threads that wait for it, so a wait is over exactly
when its condition holds.

The first caller does the work, the others wait for it. It waits itself,
first for the polling loop to end and then for the workers. A worker
whose task calls `stop()` while the first caller is at it waits for that
caller, who waits for the worker (`secondStop_deadlocks`); as long as
there is none the thread waited for can always go on
(`stop_never_deadlocks`).

What the polling loop and the tasks do is to add tasks. Closing the
acceptors and deleting the descriptors that are left touches none of
this.
-/

namespace HttpServer

namespace ServiceManager

open ThreadPool

/-- The threads that call `stop()`. -/
inductive Caller where
  | outside (k : ℕ)
  | worker (w : ℕ)
deriving DecidableEq, Repr

/-- Where a call of `stop()` is. -/
inductive CallPc where
  | idle
  /-- Waits for the first call to complete. -/
  | wait
  | closeAcceptors
  | ioStop
  /-- Waits for the polling loop to end. -/
  | ioWait
  | adding (i : ℕ)
  | joining (i : ℕ)
  /-- The last section. -/
  | complete
deriving DecidableEq, Repr

/-- The call is the one that executes the stop. -/
def CallPc.active : CallPc → Bool
  | .idle => false
  | .wait => false
  | _ => true

/-- Where `run()` is. -/
inductive RunPc where
  | idle
  | startPoll
  /-- The test of the loop of `pollBody`. -/
  | loop
  | body
  | endPoll
  /-- Waits for `stop()` to complete. -/
  | wait
  | returned
deriving DecidableEq, Repr

structure State where
  pool : Pool
  stopRequested : Bool
  stopped : Bool
  ioStopped : Bool
  polling : Bool
  runner : RunPc
  call : Caller → CallPc

/-- Who adds a task. -/
inductive Adder where
  | outside
  | poller
  | worker (w : ℕ)

inductive Act where
  | addTask (adder : Adder) (cb : Option ℕ)
  | worker (w : ℕ)
  | run
  | runStep
  | stop (c : Caller)
  | stopStep (c : Caller)

namespace State

def goto (s : State) (c : Caller) (pc : CallPc) : State :=
  { s with call := Function.update s.call c pc }

/-- The task of `w` can make a call. -/
def calls (n : ℕ) (s : State) (w : ℕ) : Bool :=
  match s.pool.pc w with
  | .run _ => w < n ∧ s.call (.worker w) = .idle
  | _ => false

def canAdd (n : ℕ) (s : State) : Adder → Bool
  | .outside => true
  | .poller => s.runner = .body
  | .worker w => s.calls n w

/-- The first section of `stop()`. -/
def enter (s : State) (c : Caller) : State :=
  if s.stopRequested then if s.stopped then s else s.goto c .wait
  else { s with stopRequested := true }.goto c .closeAcceptors

/-- The end of the pool's `stop()`. -/
def lastWorker (s : State) : Caller → State
  | .outside _ => s
  | .worker w =>
      { s with pool := { s.pool with lastWorker := Function.update s.pool.lastWorker w true } }

end State

/-- The next step of a call of `stop()`. -/
def stopStep (n : ℕ) (s : State) (c : Caller) : Option State :=
  match s.call c with
  | .idle => none
  | .wait => if s.stopped then some (s.goto c .idle) else none
  | .closeAcceptors => some (s.goto c .ioStop)
  | .ioStop =>
      if s.ioStopped then some (s.goto c .complete)
      else
        let s := { s with ioStopped := true }
        if s.polling then some (s.goto c .ioWait) else some (s.goto c (.adding 0))
  | .ioWait => if s.polling then none else some (s.goto c (.adding 0))
  | .adding i =>
      if i < n then some ({ s with pool := s.pool.addTask none }.goto c (.adding (i + 1)))
      else some (s.goto c (.joining 0))
  | .joining i =>
      if i < n then
        if c = .worker i then some (s.goto c (.joining (i + 1)))
        else if s.pool.pc i = .exited then some (s.goto c (.joining (i + 1)))
        else none
      else some ((s.lastWorker c).goto c .complete)
  | .complete => some ({ s with stopped := true }.goto c .idle)

/-- The next step of `run()`. -/
def runStep (s : State) : Option State :=
  match s.runner with
  | .idle => none
  | .startPoll => some { s with polling := true, runner := .loop }
  | .loop => some { s with runner := if s.ioStopped then .endPoll else .body }
  | .body => some { s with runner := .loop }
  | .endPoll => some { s with polling := false, runner := .wait }
  | .wait => if s.stopped then some { s with runner := .returned } else none
  | .returned => none

def step (n : ℕ) (s : State) : Act → Option State
  | .addTask adder cb =>
      if s.canAdd n adder then some { s with pool := s.pool.addTask cb } else none
  | .worker w =>
      if w < n ∧ s.call (.worker w) = .idle then
        (s.pool.workerStep w).map fun p => { s with pool := p }
      else none
  | .run => if s.runner = .idle then some { s with runner := .startPoll } else none
  | .runStep => runStep s
  | .stop (.outside k) => if s.call (.outside k) = .idle then some (s.enter (.outside k)) else none
  | .stop (.worker w) => if s.calls n w then some (s.enter (.worker w)) else none
  | .stopStep c => stopStep n s c

def init (n : ℕ) : State := ⟨.new n, false, false, false, false, .idle, fun _ => .idle⟩

def machine (n : ℕ) : Lts State Act := ⟨fun s => s = init n, step n⟩

/-! ## Deadlock -/

/-- The stop is under way, and neither the call that executes it nor the
thread that this call waits for can take a step. -/
def Deadlocked (n : ℕ) (s : State) : Prop :=
  s.stopRequested = true ∧ s.stopped = false ∧ ∀ c, (s.call c).active = true →
    stopStep n s c = none
      ∧ (s.call c = .ioWait → runStep s = none)
      ∧ ∀ i, s.call c = .joining i →
          step n s (.worker i) = none ∧ stopStep n s (.worker i) = none

/-- A worker calls `stop()` while another call is executing it. -/
def joinsIn (s : State) : Act → Bool
  | .stop (.worker _) => s.stopRequested && !s.stopped
  | _ => false

structure Inv (n : ℕ) (s : State) : Prop where
  inv : s.pool.Inv n
  nulls : s.pool.Nulls n
  /-- A task that is inside of `stop()` is running. -/
  running : ∀ w, s.call (.worker w) ≠ .idle → w < n ∧ ∃ x, s.pool.pc w = .run x
  /-- One call executes the stop. -/
  unique : ∀ c d, (s.call c).active = true → (s.call d).active = true → c = d
  active : s.stopRequested = true → s.stopped = false → ∃ c, (s.call c).active = true
  under : ∀ c, (s.call c).active = true → s.stopRequested = true ∧ s.stopped = false
  done : s.stopped = true → s.stopRequested = true
  polling : s.polling = true → s.runner = .loop ∨ s.runner = .body ∨ s.runner = .endPoll
  added : ∀ c i, s.call c = .adding i → i ≤ s.pool.added.countP Task.isNull ∧ i ≤ n
  joining : ∀ c i, s.call c = .joining i → n ≤ s.pool.added.countP Task.isNull

section

variable {n : ℕ} {s s' : State} {c : Caller}

theorem init_inv (n : ℕ) : Inv n (init n) :=
  ⟨Pool.new_inv n, Pool.new_nulls n, fun _ h => absurd rfl h, nofun, nofun, nofun, nofun, nofun,
    nofun, nofun⟩

@[simp] theorem goto_call (s : State) (c : Caller) (pc : CallPc) : (s.goto c pc).call c = pc :=
  Function.update_self ..

theorem goto_call_of_ne (s : State) {c d : Caller} (pc : CallPc) (h : d ≠ c) :
    (s.goto c pc).call d = s.call d :=
  Function.update_of_ne h ..

theorem nulls_grow {p p' : Pool} (h : p.Move n p') :
    p.added.countP Task.isNull ≤ p'.added.countP Task.isNull := h.grows.2.sublist.countP_le

/-- A move of the pool, past the tasks that are inside of `stop()`. -/
theorem Inv.pool {p : Pool} (h : Inv n s) (hm : s.pool.Move n p)
    (hpc : ∀ w, s.call (.worker w) ≠ .idle → p.pc w = s.pool.pc w) :
    Inv n { s with pool := p } := by
  have hgrow := nulls_grow hm
  refine ⟨h.inv.move hm, h.nulls.move h.inv hm, ?_, h.unique, h.active, h.under, h.done, h.polling,
    ?_, ?_⟩
  · intro w hw
    rw [show ({ s with pool := p } : State).pool.pc w = s.pool.pc w from hpc w hw]
    exact h.running w hw
  · intro c i hc
    exact ⟨Nat.le_trans (h.added c i hc).1 hgrow, (h.added c i hc).2⟩
  · intro c i hc
    exact Nat.le_trans (h.joining c i hc) hgrow

/-- A call goes on to `pc`. One call is active after that, this one or
another one, exactly while the stop is under way. -/
theorem Inv.turn (h : Inv n s) {pc : CallPc} (hcall : s'.call = Function.update s.call c pc)
    (hpool : s'.pool = s.pool) (hpolling : s'.polling = s.polling) (hrunner : s'.runner = s.runner)
    (hworker : pc ≠ .idle → ∀ w, c = .worker w → w < n ∧ ∃ x, s.pool.pc w = .run x)
    (hothers : pc.active = true → ∀ d, d ≠ c → (s.call d).active = false)
    (hunder : (pc.active = true ∨ ∃ d, d ≠ c ∧ (s.call d).active = true)
      ↔ s'.stopRequested = true ∧ s'.stopped = false)
    (hdone : s'.stopped = true → s'.stopRequested = true)
    (hadd : ∀ i, pc = .adding i → i ≤ s.pool.added.countP Task.isNull ∧ i ≤ n)
    (hjoin : ∀ i, pc = .joining i → n ≤ s.pool.added.countP Task.isNull) : Inv n s' := by
  have hself : s'.call c = pc := by rw [hcall, Function.update_self]
  have hother : ∀ d, d ≠ c → s'.call d = s.call d := by
    intro d hd
    rw [hcall, Function.update_of_ne hd]
  have hinv : s'.pool.Inv n := by
    rw [hpool]
    exact h.inv
  have hnulls : s'.pool.Nulls n := by
    rw [hpool]
    exact h.nulls
  refine ⟨hinv, hnulls, ?_, ?_, ?_, ?_, hdone, ?_, ?_, ?_⟩
  · intro w hne
    rw [hpool]
    by_cases hwc : Caller.worker w = c
    · rw [hwc, hself] at hne
      exact hworker hne w hwc.symm
    · rw [hother _ hwc] at hne
      exact h.running w hne
  · intro d e hd he
    by_cases hdc : d = c
    · by_cases hec : e = c
      · rw [hdc, hec]
      · rw [hdc, hself] at hd
        rw [hother e hec, hothers hd e hec] at he
        cases he
    · rw [hother d hdc] at hd
      by_cases hec : e = c
      · rw [hec, hself] at he
        rw [hothers he d hdc] at hd
        cases hd
      · rw [hother e hec] at he
        exact h.unique d e hd he
  · intro hreq hstop
    rcases hunder.mpr ⟨hreq, hstop⟩ with hpc | ⟨d, hdc, hd⟩
    · exact ⟨c, by rw [hself]; exact hpc⟩
    · exact ⟨d, by rw [hother d hdc]; exact hd⟩
  · intro d hd
    by_cases hdc : d = c
    · rw [hdc, hself] at hd
      exact hunder.mp (.inl hd)
    · rw [hother d hdc] at hd
      exact hunder.mp (.inr ⟨d, hdc, hd⟩)
  · rw [hpolling, hrunner]
    exact h.polling
  · intro d i hd
    rw [hpool]
    by_cases hdc : d = c
    · rw [hdc, hself] at hd
      exact hadd i hd
    · rw [hother d hdc] at hd
      exact h.added d i hd
  · intro d i hd
    rw [hpool]
    by_cases hdc : d = c
    · rw [hdc, hself] at hd
      exact hjoin i hd
    · rw [hother d hdc] at hd
      exact h.joining d i hd

/-- Beside the call that executes the stop there is none. -/
theorem Inv.inactive_of_ne (h : Inv n s) (hc : (s.call c).active = true) {d : Caller}
    (hd : d ≠ c) : (s.call d).active = false := by
  rw [Bool.eq_false_iff]
  exact fun hact => hd (h.unique d c hact hc)

/-- The call that executes the stop goes on to another place. -/
theorem Inv.advance (h : Inv n s) (hc : (s.call c).active = true) {pc : CallPc}
    (hpc : pc.active = true)
    (hadd : ∀ i, pc = .adding i → i ≤ s.pool.added.countP Task.isNull ∧ i ≤ n)
    (hjoin : ∀ i, pc = .joining i → n ≤ s.pool.added.countP Task.isNull) :
    Inv n (s.goto c pc) := by
  refine h.turn rfl rfl rfl rfl ?_ (fun _ d => h.inactive_of_ne hc) ?_ h.done hadd hjoin
  · rintro - w rfl
    refine h.running w fun hidle => ?_
    rw [hidle] at hc
    cases hc
  · exact iff_of_true (.inl hpc) (h.under c hc)

/-- A call that does not execute the stop begins or ends to wait. -/
theorem Inv.aside (h : Inv n s) (hc : (s.call c).active = false) {pc : CallPc}
    (hpc : pc.active = false)
    (hw : ∀ w, c = .worker w → pc ≠ .idle → w < n ∧ ∃ x, s.pool.pc w = .run x) :
    Inv n (s.goto c pc) := by
  have hne : pc.active ≠ true := by simp [hpc]
  refine h.turn rfl rfl rfl rfl (fun hidle w hwc => hw w hwc hidle) (fun hact => absurd hact hne)
    ?_ h.done ?_ ?_
  · constructor
    · rintro (hact | ⟨d, -, hd⟩)
      · exact absurd hact hne
      · exact h.under d hd
    · rintro ⟨hreq, hstop⟩
      obtain ⟨d, hd⟩ := h.active hreq hstop
      refine .inr ⟨d, ?_, hd⟩
      rintro rfl
      rw [hc] at hd
      cases hd
  · rintro i rfl
    exact absurd rfl hne
  · rintro i rfl
    exact absurd rfl hne

/-- The first call. -/
theorem Inv.first (h : Inv n s) (hreq : s.stopRequested = false)
    (hw : ∀ w, c = .worker w → w < n ∧ ∃ x, s.pool.pc w = .run x) :
    Inv n ({ s with stopRequested := true }.goto c .closeAcceptors) := by
  have hstop : s.stopped = false := by
    rw [Bool.eq_false_iff]
    intro hd
    rw [h.done hd] at hreq
    cases hreq
  refine h.turn rfl rfl rfl rfl (fun _ => hw) ?_ (iff_of_true (.inl rfl) ⟨rfl, hstop⟩)
    (fun _ => rfl) nofun nofun
  intro _ d _
  rw [Bool.eq_false_iff]
  intro hd
  have hu := (h.under d hd).1
  rw [hreq] at hu
  cases hu

/-- The last section of the call that executes the stop. -/
theorem Inv.complete (h : Inv n s) (hc : (s.call c).active = true) :
    Inv n ({ s with stopped := true }.goto c .idle) := by
  refine h.turn rfl rfl rfl rfl (fun hne => absurd rfl hne) nofun ?_ (fun _ => (h.under c hc).1)
    nofun nofun
  refine iff_of_false ?_ (by simp [State.goto])
  rintro (hact | ⟨d, hdc, hd⟩)
  · cases hact
  · rw [h.inactive_of_ne hc hdc] at hd
    cases hd

/-- A step of `run()`. -/
theorem Inv.runner (h : Inv n s) {polling : Bool} {runner : RunPc}
    (hp : polling = true → runner = .loop ∨ runner = .body ∨ runner = .endPoll) :
    Inv n { s with polling := polling, runner := runner } :=
  ⟨h.inv, h.nulls, h.running, h.unique, h.active, h.under, h.done, hp, h.added, h.joining⟩

/-- Outside of the loop `run()` is not polling. -/
theorem Inv.not_polling (h : Inv n s)
    (hr : ¬(s.runner = .loop ∨ s.runner = .body ∨ s.runner = .endPoll)) : ¬s.polling = true :=
  fun hp => hr (h.polling hp)

theorem Inv.runStep (h : Inv n s) (hs : runStep s = some s') : Inv n s' := by
  rw [ServiceManager.runStep] at hs
  cases hpc : s.runner with
  | idle =>
      rw [hpc] at hs
      cases hs
  | startPoll =>
      rw [hpc] at hs
      obtain rfl := Option.some.inj hs
      exact h.runner fun _ => .inl rfl
  | loop =>
      rw [hpc] at hs
      obtain rfl := Option.some.inj hs
      refine h.runner fun _ => ?_
      split
      · exact .inr (.inr rfl)
      · exact .inr (.inl rfl)
  | body =>
      rw [hpc] at hs
      obtain rfl := Option.some.inj hs
      exact h.runner fun _ => .inl rfl
  | endPoll =>
      rw [hpc] at hs
      obtain rfl := Option.some.inj hs
      exact h.runner nofun
  | wait =>
      rw [hpc] at hs
      obtain ⟨-, hs⟩ := Option.ite_none_right_eq_some.mp hs
      obtain rfl := Option.some.inj hs
      exact h.runner fun hp => absurd hp (h.not_polling (by simp [hpc]))
  | returned =>
      rw [hpc] at hs
      cases hs

/-- `IOManager::stop` announces itself. -/
theorem Inv.announce (h : Inv n s) : Inv n { s with ioStopped := true } :=
  ⟨h.inv, h.nulls, h.running, h.unique, h.active, h.under, h.done, h.polling, h.added,
    h.joining⟩

theorem Inv.lastWorker (h : Inv n s) (c : Caller) : Inv n (s.lastWorker c) := by
  cases c with
  | outside k => exact h
  | worker w => exact h.pool (.last w) fun _ _ => rfl

theorem lastWorker_call (s : State) (c : Caller) : (s.lastWorker c).call = s.call := by
  cases c <;> rfl

/-- What a step of a call does. -/
inductive StopMove (n : ℕ) (s : State) (c : Caller) : State → Prop where
  | wake (hpc : s.call c = .wait) : StopMove n s c (s.goto c .idle)
  | closeAcceptors (hpc : s.call c = .closeAcceptors) : StopMove n s c (s.goto c .ioStop)
  | ioStopped (hpc : s.call c = .ioStop) : StopMove n s c (s.goto c .complete)
  | ioWait (hpc : s.call c = .ioStop) :
      StopMove n s c ({ s with ioStopped := true }.goto c .ioWait)
  | ioStop (hpc : s.call c = .ioStop) :
      StopMove n s c ({ s with ioStopped := true }.goto c (.adding 0))
  | polled (hpc : s.call c = .ioWait) : StopMove n s c (s.goto c (.adding 0))
  | add {i : ℕ} (hpc : s.call c = .adding i) (hi : i < n) :
      StopMove n s c ({ s with pool := s.pool.addTask none }.goto c (.adding (i + 1)))
  | added {i : ℕ} (hpc : s.call c = .adding i) (hi : ¬i < n) :
      StopMove n s c (s.goto c (.joining 0))
  | join {i : ℕ} (hpc : s.call c = .joining i) : StopMove n s c (s.goto c (.joining (i + 1)))
  | joined {i : ℕ} (hpc : s.call c = .joining i) :
      StopMove n s c ((s.lastWorker c).goto c .complete)
  | complete (hpc : s.call c = .complete) : StopMove n s c ({ s with stopped := true }.goto c .idle)

theorem stopStep_move (hs : stopStep n s c = some s') : StopMove n s c s' := by
  rw [ServiceManager.stopStep] at hs
  cases hpc : s.call c with
  | idle =>
      rw [hpc] at hs
      cases hs
  | wait =>
      rw [hpc] at hs
      obtain ⟨-, hs⟩ := Option.ite_none_right_eq_some.mp hs
      obtain rfl := Option.some.inj hs
      exact .wake hpc
  | closeAcceptors =>
      rw [hpc] at hs
      obtain rfl := Option.some.inj hs
      exact .closeAcceptors hpc
  | ioStop =>
      rw [hpc] at hs
      simp only at hs
      split at hs
      · obtain rfl := Option.some.inj hs
        exact .ioStopped hpc
      · split at hs
        · obtain rfl := Option.some.inj hs
          exact .ioWait hpc
        · obtain rfl := Option.some.inj hs
          exact .ioStop hpc
  | ioWait =>
      rw [hpc] at hs
      obtain ⟨-, hs⟩ := Option.ite_none_left_eq_some.mp hs
      obtain rfl := Option.some.inj hs
      exact .polled hpc
  | adding i =>
      rw [hpc] at hs
      simp only at hs
      split at hs
      · obtain rfl := Option.some.inj hs
        exact .add hpc ‹_›
      · obtain rfl := Option.some.inj hs
        exact .added hpc ‹_›
  | joining i =>
      rw [hpc] at hs
      simp only at hs
      split at hs
      · split at hs
        · obtain rfl := Option.some.inj hs
          exact .join hpc
        · obtain ⟨-, hs⟩ := Option.ite_none_right_eq_some.mp hs
          obtain rfl := Option.some.inj hs
          exact .join hpc
      · obtain rfl := Option.some.inj hs
        exact .joined hpc
  | complete =>
      rw [hpc] at hs
      obtain rfl := Option.some.inj hs
      exact .complete hpc

/-- One more `NULL` task. -/
theorem nulls_addTask (p : Pool) :
    (p.addTask none).added.countP Task.isNull = p.added.countP Task.isNull + 1 := by
  have hadded : (p.addTask none).added = p.added ++ [p.newTask none] := by
    unfold Pool.addTask
    simp only
    split <;> rfl
  rw [hadded, List.countP_append]
  rfl

theorem Inv.stopMove (h : Inv n s) (hm : StopMove n s c s') : Inv n s' := by
  have hactive : ∀ {pc : CallPc}, s.call c = pc → pc.active = true → (s.call c).active = true := by
    rintro pc rfl hpc
    exact hpc
  have hzero : ∀ i, CallPc.adding 0 = .adding i → i ≤ s.pool.added.countP Task.isNull ∧ i ≤ n := by
    rintro i ⟨⟩
    exact ⟨Nat.zero_le _, Nat.zero_le _⟩
  cases hm with
  | wake hpc => exact h.aside (by rw [hpc]; rfl) rfl fun _ _ hne => absurd rfl hne
  | closeAcceptors hpc => exact h.advance (hactive hpc rfl) rfl nofun nofun
  | ioStopped hpc => exact h.advance (hactive hpc rfl) rfl nofun nofun
  | ioWait hpc => exact h.announce.advance (hactive hpc rfl) rfl nofun nofun
  | ioStop hpc => exact h.announce.advance (hactive hpc rfl) rfl hzero nofun
  | polled hpc => exact h.advance (hactive hpc rfl) rfl hzero nofun
  | @add i hpc hi =>
      have hpool : Inv n { s with pool := s.pool.addTask none } :=
        h.pool (Pool.addTask_move _ _) fun w _ => by rw [(s.pool.addTask_keeps none).1]
      refine hpool.advance (hactive hpc rfl) rfl ?_ nofun
      rintro j ⟨⟩
      refine ⟨?_, hi⟩
      rw [nulls_addTask]
      exact Nat.succ_le_succ (h.added c i hpc).1
  | @added i hpc hi =>
      refine h.advance (hactive hpc rfl) rfl nofun ?_
      rintro j -
      exact Nat.le_trans (Nat.le_of_not_lt hi) (h.added c i hpc).1
  | @join i hpc => exact h.advance (hactive hpc rfl) rfl nofun fun _ _ => h.joining c i hpc
  | joined hpc =>
      refine (h.lastWorker c).advance ?_ rfl nofun nofun
      rw [lastWorker_call]
      exact hactive hpc rfl
  | complete hpc => exact h.complete (hactive hpc rfl)

theorem calls_spec {w : ℕ} (h : s.calls n w = true) :
    (w < n ∧ ∃ x, s.pool.pc w = .run x) ∧ s.call (.worker w) = .idle := by
  unfold State.calls at h
  split at h
  · simp only [decide_eq_true_eq] at h
    exact ⟨⟨h.1, _, ‹_›⟩, h.2⟩
  · cases h

/-- The first section of `stop()`. -/
theorem Inv.enter (h : Inv n s) (hidle : s.call c = .idle)
    (hw : ∀ w, c = .worker w → w < n ∧ ∃ x, s.pool.pc w = .run x) : Inv n (s.enter c) := by
  unfold State.enter
  split
  · split
    · exact h
    · exact h.aside (by rw [hidle]; rfl) rfl fun w hwc _ => hw w hwc
  · rename_i hreq
    exact h.first (Bool.eq_false_iff.mpr hreq) hw

theorem Inv.step {l : Act} (h : Inv n s) (hs : step n s l = some s') : Inv n s' := by
  cases l with
  | addTask adder cb =>
      obtain ⟨-, hs⟩ := Option.ite_none_right_eq_some.mp hs
      obtain rfl := Option.some.inj hs
      exact h.pool (Pool.addTask_move _ _) fun w _ => by rw [(s.pool.addTask_keeps cb).1]
  | worker w =>
      obtain ⟨⟨hn, hidle⟩, hs⟩ := Option.ite_none_right_eq_some.mp hs
      obtain ⟨p, hp, rfl⟩ := Option.map_eq_some_iff.mp hs
      refine h.pool (Pool.workerStep_move hn hp) fun v hv => ?_
      refine (Pool.workerStep_keeps hp).1 v ?_
      rintro rfl
      exact hv hidle
  | run =>
      obtain ⟨hrun, hs⟩ := Option.ite_none_right_eq_some.mp hs
      obtain rfl := Option.some.inj hs
      exact h.runner fun hp => absurd hp (h.not_polling (by simp [hrun]))
  | runStep => exact h.runStep hs
  | stop c =>
      cases c with
      | outside k =>
          obtain ⟨hidle, hs⟩ := Option.ite_none_right_eq_some.mp hs
          obtain rfl := Option.some.inj hs
          exact h.enter hidle nofun
      | worker w =>
          obtain ⟨hcall, hs⟩ := Option.ite_none_right_eq_some.mp hs
          obtain rfl := Option.some.inj hs
          obtain ⟨hrun, hidle⟩ := calls_spec hcall
          refine h.enter hidle ?_
          rintro v ⟨⟩
          exact hrun
  | stopStep c => exact h.stopMove (stopStep_move hs)

/-- The worker that the stop waits for can go on: it has a task, or is at
one, or comes from one. -/
theorem Inv.worker_moves (h : Inv n s) {i : ℕ} (hwait : s.call (.worker i) ≠ .wait)
    (hc : s.call c = .joining i) (hi : i < n) (hne : c ≠ .worker i) (hpc : s.pool.pc i ≠ .exited) :
    ServiceManager.step n s (.worker i) ≠ none := by
  have hidle : s.call (.worker i) = .idle := by
    cases hcall : s.call (.worker i) with
    | idle => rfl
    | wait => exact absurd hcall hwait
    | _ => exact absurd (h.unique _ _ (by rw [hc]; rfl) (by rw [hcall]; rfl)) hne
  have hstep : (s.pool.workerStep i).isSome = true := by
    unfold Pool.workerStep
    split
    case h_1 hwait =>
      split
      · rfl
      · rename_i ht
        -- an idle worker has left no task in the queue, so all `NULL` tasks are assigned
        rw [Bool.not_eq_true] at ht
        have hmem : i ∈ s.pool.workers := (h.inv.mem i).mpr ⟨hi, hwait, ht⟩
        have hq : s.pool.dispatchQueue = [] :=
          h.inv.either.resolve_right (List.ne_nil_of_mem hmem)
        have horder := h.inv.order
        rw [hq, List.append_nil] at horder
        have hcount := h.joining c i hc
        rw [← horder, ← Pool.length_nullWorkers,
          ← List.toFinset_card_of_nodup h.nulls.nodup] at hcount
        have hsub : s.pool.nullWorkers.toFinset ⊆ Finset.range n := by
          intro w hw
          rw [List.mem_toFinset] at hw
          exact Finset.mem_range.mpr (h.nulls.lt w hw)
        have hall := Finset.eq_of_subset_of_card_le hsub (by rw [Finset.card_range]; exact hcount)
        have hnull : i ∈ s.pool.nullWorkers := by
          rw [← List.mem_toFinset, hall]
          exact Finset.mem_range.mpr hi
        exact absurd hnull (h.nulls.not_mem ht (by simp [hwait]) (by simp [hwait]))
    case h_2 => split <;> rfl
    case h_3 => rfl
    case h_4 => rfl
    case h_5 => split <;> rfl
    case h_6 hexit => exact absurd hexit hpc
  obtain ⟨p, hp⟩ := Option.isSome_iff_exists.mp hstep
  simp [ServiceManager.step, hi, hidle, hp]

theorem Inv.not_deadlocked (h : Inv n s) (hwait : ∀ w, s.call (.worker w) ≠ .wait) :
    ¬Deadlocked n s := by
  rintro ⟨hreq, hstop, hall⟩
  obtain ⟨c, hc⟩ := h.active hreq hstop
  obtain ⟨hnone, hrun, hwork⟩ := hall c hc
  cases hcall : s.call c with
  | idle => rw [hcall] at hc; cases hc
  | wait => rw [hcall] at hc; cases hc
  | closeAcceptors => simp [ServiceManager.stopStep, hcall] at hnone
  | ioStop =>
      simp only [ServiceManager.stopStep, hcall] at hnone
      split at hnone
      · cases hnone
      · split at hnone <;> cases hnone
  | ioWait =>
      simp only [ServiceManager.stopStep, hcall] at hnone
      split at hnone
      · rename_i hp
        have hr := hrun hcall
        rcases h.polling hp with hpc | hpc | hpc
        · simp [ServiceManager.runStep, hpc] at hr
        · simp [ServiceManager.runStep, hpc] at hr
        · simp [ServiceManager.runStep, hpc] at hr
      · cases hnone
  | adding i =>
      simp only [ServiceManager.stopStep, hcall] at hnone
      split at hnone <;> cases hnone
  | joining i =>
      simp only [ServiceManager.stopStep, hcall] at hnone
      split at hnone
      · rename_i hi
        split at hnone
        · cases hnone
        · rename_i hne
          split at hnone
          · cases hnone
          · rename_i hpc
            exact h.worker_moves (hwait i) hcall hi hne hpc (hwork i hcall).1
      · cases hnone
  | complete => simp [ServiceManager.stopStep, hcall] at hnone

theorem reachable_inv {ok : State → Act → Prop} (h : (machine n).ReachableBy ok s) : Inv n s := by
  refine h.invariant (I := fun s => Inv n s) ?_ fun s l s' hinv _ hs => hinv.step hs
  rintro s rfl
  exact init_inv n

theorem goto_wait {d : Caller} {pc : CallPc} (h : (s.goto c pc).call d = .wait) (hpc : pc ≠ .wait) :
    s.call d = .wait := by
  by_cases hdc : d = c
  · rw [hdc, goto_call] at h
    exact absurd h hpc
  · rw [goto_call_of_ne s pc hdc] at h
    exact h

theorem StopMove.wait {d : Caller} (hm : StopMove n s c s') (hd : s'.call d = .wait) :
    s.call d = .wait := by
  cases hm with
  | ioWait => exact goto_wait (s := { s with ioStopped := true }) hd nofun
  | ioStop => exact goto_wait (s := { s with ioStopped := true }) hd nofun
  | add => exact goto_wait (s := { s with pool := s.pool.addTask none }) hd nofun
  | joined =>
      rw [← lastWorker_call s c]
      exact goto_wait hd nofun
  | complete => exact goto_wait (s := { s with stopped := true }) hd nofun
  | _ => exact goto_wait hd nofun

theorem runStep_call (hs : runStep s = some s') : s'.call = s.call := by
  rw [runStep] at hs
  cases hpc : s.runner with
  | idle =>
      rw [hpc] at hs
      cases hs
  | returned =>
      rw [hpc] at hs
      cases hs
  | wait =>
      rw [hpc] at hs
      obtain ⟨-, hs⟩ := Option.ite_none_right_eq_some.mp hs
      obtain rfl := Option.some.inj hs
      rfl
  | _ =>
      rw [hpc] at hs
      obtain rfl := Option.some.inj hs
      rfl

/-- A call that begins to wait has come while another one was executing
the stop. -/
theorem enter_wait {w : ℕ} (hw : (s.enter c).call (.worker w) = .wait)
    (hc : c = .worker w → (s.stopRequested && !s.stopped) = false) :
    s.call (.worker w) = .wait := by
  unfold State.enter at hw
  split at hw
  · rename_i hreq
    split at hw
    · exact hw
    · rename_i hstop
      by_cases hwc : Caller.worker w = c
      · simpa [hreq, hstop] using hc hwc.symm
      · rw [goto_call_of_ne s .wait hwc] at hw
        exact hw
  · exact goto_wait (s := { s with stopRequested := true }) hw nofun

theorem step_wait {l : Act} {w : ℕ} (hok : joinsIn s l = false) (hs : step n s l = some s')
    (hw : s'.call (.worker w) = .wait) : s.call (.worker w) = .wait := by
  cases l with
  | addTask adder cb =>
      obtain ⟨-, hs⟩ := Option.ite_none_right_eq_some.mp hs
      obtain rfl := Option.some.inj hs
      exact hw
  | worker v =>
      obtain ⟨-, hs⟩ := Option.ite_none_right_eq_some.mp hs
      obtain ⟨p, -, rfl⟩ := Option.map_eq_some_iff.mp hs
      exact hw
  | run =>
      obtain ⟨-, hs⟩ := Option.ite_none_right_eq_some.mp hs
      obtain rfl := Option.some.inj hs
      exact hw
  | runStep =>
      rw [runStep_call hs] at hw
      exact hw
  | stop c =>
      cases c with
      | outside k =>
          obtain ⟨-, hs⟩ := Option.ite_none_right_eq_some.mp hs
          obtain rfl := Option.some.inj hs
          exact enter_wait hw nofun
      | worker v =>
          obtain ⟨-, hs⟩ := Option.ite_none_right_eq_some.mp hs
          obtain rfl := Option.some.inj hs
          exact enter_wait hw fun _ => hok
  | stopStep c => exact (stopStep_move hs).wait hw

/-- **Stopping does not deadlock** in any run in which no worker calls
`stop()` while another call is executing it. -/
theorem stop_never_deadlocks (h : (machine n).ReachableBy (fun s l => joinsIn s l = false) s) :
    ¬Deadlocked n s := by
  have hwait : ∀ w, s.call (.worker w) ≠ .wait := by
    refine h.invariant (I := fun s => ∀ w, s.call (.worker w) ≠ .wait) ?_ ?_
    · rintro s rfl w
      nofun
    · intro s l s' hno hok hs w hw
      exact hno w (step_wait hok hs hw)
  exact (reachable_inv h).not_deadlocked hwait

end

/-- The task of a worker is called. -/
def startTask (w : ℕ) : List Act := [.addTask .outside (some 7), .worker w, .worker w, .worker w]

/-- A worker executes the stop up to the joins, the other worker being
idle; `n` is 2. -/
def executeStop (c : Caller) : List Act := List.replicate 5 (.stopStep c)

/-- While worker 1 executes the stop, worker 0 is busy. -/
theorem firstStop_goes_on : ∃ s, (machine 2).ReachableBy (fun s l => joinsIn s l = false) s
    ∧ s.call (.worker 1) = .joining 0 ∧ (∃ x, s.pool.pc 0 = .run x) ∧ ¬Deadlocked 2 s := by
  have hrun : ((machine 2).exec (fun s l => joinsIn s l = false) (init 2)
      (startTask 1 ++ startTask 0 ++ [.stop (.worker 1)] ++ executeStop (.worker 1))).any (fun s =>
        s.call (.worker 1) = .joining 0 && s.pool.pc 0 = .run ⟨1, some 7⟩) = true := by
    decide
  obtain ⟨s, hs, hp⟩ := Lts.ReachableBy.exec_any (.init rfl) hrun
  simp only [Bool.and_eq_true, decide_eq_true_eq] at hp
  exact ⟨s, hs, hp.1, ⟨_, hp.2⟩, stop_never_deadlocks hs⟩

/-- The tasks of both workers call `stop()`: worker 0 waits for worker 1,
which waits for worker 0. -/
theorem secondStop_deadlocks : ∃ s, (machine 2).Reachable s ∧ Deadlocked 2 s := by
  have hrun : ((machine 2).exec (fun _ _ => True) (init 2)
      (startTask 1 ++ startTask 0 ++ [.stop (.worker 1), .stop (.worker 0)]
        ++ executeStop (.worker 1))).any (fun s =>
        s.stopRequested && !s.stopped && s.call (.worker 1) = .joining 0
          && s.call (.worker 0) = .wait && s.pool.pc 0 = .run ⟨1, some 7⟩) = true := by
    decide
  obtain ⟨s, hs, hp⟩ := Lts.ReachableBy.exec_any (.init rfl) hrun
  simp only [Bool.and_eq_true, decide_eq_true_eq, Bool.not_eq_true'] at hp
  obtain ⟨⟨⟨⟨hreq, hstop⟩, hcall⟩, hwait⟩, hpc⟩ := hp
  refine ⟨s, hs, hreq, hstop, ?_⟩
  intro c hc
  obtain rfl := (reachable_inv hs).unique c (.worker 1) hc (by rw [hcall]; rfl)
  refine ⟨by simp [stopStep, hcall, hpc], by simp [hcall], ?_⟩
  intro i hi
  rw [hcall, CallPc.joining.injEq] at hi
  subst hi
  exact ⟨by simp [step, hwait], by simp [stopStep, hwait, hstop]⟩

end ServiceManager

end HttpServer
