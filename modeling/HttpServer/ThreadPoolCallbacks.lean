import HttpServer.Callbacks
import HttpServer.ThreadPoolNormal
import HttpServer.ThreadPoolStop

/-!
# The callbacks of both thread pools

`ThreadPoolFast` with the log of what happens to the callbacks: a worker
calls its task, a `CallableOnce` deletes itself at the end of the call,
and the destructor deletes the once-only callbacks that are left in the
queue. The steps of the pool are those of the ledger, whatever callbacks
are added; those of `ThreadPoolNormal` are as long as no repeatable one
is. `pools_treat_callbacks_iff` has both.
-/

namespace HttpServer

namespace ThreadPool

open Callbacks

/-- What is added with a task that is not `NULL`. -/
def Task.occurrence (x : Task) : Option Occurrence := x.cb.map fun cb => ⟨x.num, cb⟩

/-- The pool with its callbacks. -/
structure LogState where
  state : State
  destroyed : Bool
  disposed : List Task
  log : List Event

/-- What the next step of a worker does to callbacks. -/
def Pool.events (once : ℕ → Bool) (p : Pool) (w : ℕ) : List Event :=
  match p.pc w with
  | .checked => (p.task w).occurrence.toList.map .call
  | .run x => x.occurrence.toList.flatMap fun x => deleteOnce once x.cb
  | _ => []

def Act.events (once : ℕ → Bool) (p : Pool) : Act → List Event
  | .worker w => p.events once w
  | _ => []

/-- A step of the pool, or the destructor. -/
inductive LogAct where
  | pool (l : Act)
  | destroy

/-- The destructor, after `stop()` has returned. -/
def destroy (once : ℕ → Bool) (s : LogState) : Option LogState :=
  match s.state.stop with
  | .returned _ =>
      if s.destroyed then none
      else
        let queue := s.state.pool.dispatchQueue
        some {
          state := ⟨{ s.state.pool with dispatchQueue := [] }, s.state.stop⟩
          destroyed := true
          disposed := s.disposed ++ queue
          log := s.log ++ (queue.filterMap Task.occurrence).flatMap fun x => deleteOnce once x.cb }
  | _ => none

def logStep (n : ℕ) (once : ℕ → Bool) (s : LogState) : LogAct → Option LogState
  | .pool l =>
      (step n s.state l).map fun state =>
        { s with state, log := s.log ++ l.events once s.state.pool }
  | .destroy => destroy once s

def LogState.new (n : ℕ) : LogState := ⟨⟨.new n, .idle⟩, false, [], []⟩

def logMachine (n : ℕ) (once : ℕ → Bool) : Lts LogState LogAct :=
  ⟨fun s => s = .new n, logStep n once⟩

/-- What clients have added. -/
def LogState.added (s : LogState) : List Occurrence := s.state.pool.added.filterMap Task.occurrence

/-- Callbacks are added before `stop()` is called, each once-only one once,
and `stop()` is called when all of them have been called. -/
def Client (once : ℕ → Bool) (s : LogState) : LogAct → Prop
  | .pool (.addTask _ (some cb)) =>
      s.state.stop = .idle ∧ (once cb = true → ∀ x ∈ s.added, x.cb ≠ cb)
  | .pool (.addTask _ none) => False
  | .pool (.stop _) => ∀ x ∈ s.added, Event.call x ∈ s.log
  | .pool (.worker _) => True
  | .pool .stopStep => True
  | .destroy => True

instance (once : ℕ → Bool) (s : LogState) : ∀ l, Decidable (Client once s l)
  | .pool (.addTask _ (some _)) => inferInstanceAs (Decidable (_ ∧ (_ → ∀ x ∈ s.added, _)))
  | .pool (.addTask _ none) => inferInstanceAs (Decidable False)
  | .pool (.stop _) => inferInstanceAs (Decidable (∀ x ∈ s.added, Event.call x ∈ s.log))
  | .pool (.worker _) => inferInstanceAs (Decidable True)
  | .pool .stopStep => inferInstanceAs (Decidable True)
  | .destroy => inferInstanceAs (Decidable True)

/-- The pool was stopped and destroyed, and its workers have exited. -/
def Done (n : ℕ) (s : LogState) : Prop :=
  s.destroyed = true ∧ ∀ w < n, s.state.pool.pc w = .exited

/-! ## After `stop()` -/

section

variable {n : ℕ} {once : ℕ → Bool} {s s' : State} {l : Act}

/-- The workers are joined; the one whose task called `stop()` will exit. -/
structure Joined (n : ℕ) (s : State) : Prop where
  joining : ∀ c i, s.stop = .joining c i → ∀ w < i, some w ≠ c → s.pool.pc w = .exited
  returned : ∀ c, s.stop = .returned c →
    ∀ w < n, s.pool.pc w = .exited ∨ c = some w ∧ s.pool.lastWorker w = true

theorem Joined.new (n : ℕ) : Joined n ⟨.new n, .idle⟩ :=
  ⟨fun _ _ hst => (by cases hst), fun _ hst => (by cases hst)⟩

/-- Who has exited stays so. -/
theorem exited_of_step (h : step n s l = some s') {w : ℕ} (hw : s.pool.pc w = .exited) :
    s'.pool.pc w = .exited := by
  have ht := step_turn h
  cases ht with
  | addTask caller cb => rwa [(s.pool.addTask_keeps cb).1]
  | @worker v p hv hin hp =>
      obtain ⟨hothers, -, hne⟩ := Pool.workerStep_keeps hp
      have hwv : w ≠ v := by
        rintro rfl
        exact hne hw
      exact (hothers w hwv).trans hw
  | stop c hidle hc => exact hw
  | null hst hi => rwa [(s.pool.addTask_keeps none).1]
  | added hst hi => exact hw
  | join hst hi hj => exact hw
  | ret hst hi hpc hf hm hl => rwa [hpc]

/-- When `stop()` returns to a worker, that one is the last. -/
theorem lastWorker_of_return {w : ℕ} (h : stopStep n s = some s')
    (hret : s'.stop = .returned (some w)) : s'.pool.lastWorker w = true := by
  unfold stopStep at h
  split at h
  · cases h
  · split at h <;> (obtain rfl := Option.some.inj h; cases hret)
  · split at h
    · split at h
      · obtain rfl := Option.some.inj h
        cases hret
      · split at h
        · obtain rfl := Option.some.inj h
          cases hret
        · cases h
    · split at h
      · obtain rfl := Option.some.inj h
        obtain rfl := Option.some.inj (Stop.returned.inj hret)
        exact Function.update_self ..
      · obtain rfl := Option.some.inj h
        cases hret
  · cases h

theorem Joined.step (h : Joined n s) (hs : step n s l = some s') : Joined n s' := by
  have hkeep : ∀ w, s.pool.pc w = .exited → s'.pool.pc w = .exited := fun w => exited_of_step hs
  have ht := step_turn hs
  cases ht with
  | addTask caller cb =>
      refine ⟨fun c i hst w hw hc => hkeep w (h.joining c i hst w hw hc), fun c hst w hw => ?_⟩
      rw [(s.pool.addTask_keeps cb).1, (s.pool.addTask_keeps cb).2]
      exact h.returned c hst w hw
  | worker hv hin hp =>
      refine ⟨fun c i hst w hw hc => hkeep w (h.joining c i hst w hw hc), fun c hst w hw => ?_⟩
      rw [(Pool.workerStep_keeps hp).2.1]
      exact (h.returned c hst w hw).imp_left (hkeep w)
  | stop c hidle hc => exact ⟨fun _ _ hst => (by cases hst), fun _ hst => (by cases hst)⟩
  | null hst hi => exact ⟨fun _ _ hst => (by cases hst), fun _ hst => (by cases hst)⟩
  | added hst hi =>
      refine ⟨fun c i hst' w hw => ?_, fun _ hst' => (by cases hst')⟩
      obtain ⟨-, rfl⟩ := Stop.joining.inj hst'
      exact absurd hw (Nat.not_lt_zero w)
  | join hst hi hj =>
      refine ⟨fun c i hst' w hw hc => ?_, fun _ hst' => (by cases hst')⟩
      obtain ⟨rfl, rfl⟩ := Stop.joining.inj hst'
      rcases Nat.lt_succ_iff_lt_or_eq.mp hw with hlt | rfl
      · exact h.joining _ _ hst w hlt hc
      · exact hj.resolve_left fun heq => hc heq.symm
  | @ret c i p hst hi hpc hf hm hl =>
      refine ⟨fun _ _ hst' => (by cases hst'), fun c' hst' w hw => ?_⟩
      obtain rfl : c = c' := Stop.returned.inj hst'
      by_cases hc : some w = c
      · subst hc
        exact .inr ⟨rfl, lastWorker_of_return hs rfl⟩
      · rw [hpc]
        exact .inl (h.joining _ _ hst w (Nat.lt_of_lt_of_le hw (not_lt.mp hi)) hc)

end

/-! ## The ledger -/

section

variable {n w : ℕ} {once : ℕ → Bool} {p p' : Pool}

theorem occurrence_eq_some {x : Task} {o : Occurrence} :
    x.occurrence = some o ↔ x = ⟨o.num, some o.cb⟩ := by
  obtain ⟨num, cb⟩ := x
  cases cb with
  | none => simp [Task.occurrence]
  | some cb =>
      obtain ⟨onum, ocb⟩ := o
      simp [Task.occurrence]

theorem mem_occurrences {l : List Task} {o : Occurrence} :
    o ∈ l.filterMap Task.occurrence ↔ ⟨o.num, some o.cb⟩ ∈ l := by
  simp [List.mem_filterMap, occurrence_eq_some]

/-- The occurrence whose call a worker is inside of. -/
def Pc.runs : Pc → Option Occurrence
  | .run x => x.occurrence
  | _ => none

namespace Pool

def ledger (n : ℕ) (p : Pool) (disposed : List Task) (log : List Event) : Ledger :=
  .ofWorkers n (p.added.filterMap Task.occurrence) (p.finished.filterMap Task.occurrence)
    (disposed.filterMap Task.occurrence) (fun w => (p.pc w).runs) log

variable {disposed : List Task} {log log' : List Event}

theorem runs_goto (p : Pool) (w : ℕ) (pc : Pc) : (fun v => ((p.goto w pc).pc v).runs)
    = Function.update (fun v => (p.pc v).runs) w pc.runs := by
  funext v
  by_cases hv : v = w
  · subst hv
    simp [goto]
  · simp [goto, hv]

/-- A worker that goes on to another place outside of its task. -/
theorem ledger_goto {pc : Pc} (h : pc.runs = (p.pc w).runs) :
    (p.goto w pc).ledger n disposed log = p.ledger n disposed log := by
  rw [ledger, runs_goto, h, Function.update_eq_self]
  rfl

/-- A task that has been tested or called is with its worker only. -/
theorem Inv.alone (h : p.Inv n) (hw : w < n) {x : Task} (hx : x ∈ p.held w) :
    x ∈ p.added ∧ x ∉ p.dispatchQueue ∧ x ∉ p.finished ∧ ∀ v < n, v ≠ w → x ∉ p.held v := by
  have hle := List.nodup_iff_count_le_one.mp h.nodup_added x
  have hplace : p.dispatchQueue.count x + Tally.total n (List.count x) p.held + p.finished.count x
      = p.added.count x := h.place x
  have hpos : 1 ≤ (p.held w).count x := List.one_le_count_iff.mpr hx
  have htotal := Tally.le_total (List.count x) p.held hw
  refine ⟨List.one_le_count_iff.mp (by omega), fun hq => ?_, fun hf => ?_, fun v hv hvw hmem => ?_⟩
  · have := List.one_le_count_iff.mpr hq
    omega
  · have := List.one_le_count_iff.mpr hf
    omega
  · have hall : Tally.total n (List.count x) p.held ≤ (p.held w).count x := by omega
    exact List.count_eq_zero.mp (Tally.eq_zero_of_le hall hw hv hvw) hmem

/-- A task in the queue is nowhere else. -/
theorem Inv.queued (h : p.Inv n) {x : Task} (hx : x ∈ p.dispatchQueue) :
    p.dispatchQueue.count x = 1 ∧ x ∈ p.added ∧ x ∉ p.finished ∧ ∀ w < n, x ∉ p.held w := by
  have hle := List.nodup_iff_count_le_one.mp h.nodup_added x
  have hplace : p.dispatchQueue.count x + Tally.total n (List.count x) p.held + p.finished.count x
      = p.added.count x := h.place x
  have hpos : 1 ≤ p.dispatchQueue.count x := List.one_le_count_iff.mpr hx
  refine ⟨by omega, List.one_le_count_iff.mp (by omega), fun hf => ?_, fun w hw hmem => ?_⟩
  · have := List.one_le_count_iff.mpr hf
    omega
  · have htotal := Tally.le_total (List.count x) p.held hw
    have := List.one_le_count_iff.mpr hmem
    omega

theorem held_of_runs {o : Occurrence} (h : (p.pc w).runs = some o) :
    ⟨o.num, some o.cb⟩ ∈ p.held w := by
  unfold Pc.runs at h
  split at h
  · next x hpc =>
      rw [held, hpc, occurrence_eq_some.mp h]
      exact List.mem_singleton.mpr rfl
  · cases h

theorem addTask_ledger (p : Pool) (cb : Option ℕ) : (p.addTask cb).added = p.added ++ [p.newTask cb]
    ∧ (p.addTask cb).finished = p.finished ∧ (p.addTask cb).pc = p.pc := by
  unfold addTask
  simp only
  split <;> exact ⟨rfl, rfl, rfl⟩

theorem queueWorker_ledger (p : Pool) (w : ℕ) : (p.queueWorker w).added = p.added
    ∧ (p.queueWorker w).finished = p.finished ∧ (p.queueWorker w).pc = p.pc := by
  unfold queueWorker
  split <;> exact ⟨rfl, rfl, rfl⟩

theorem ledger_congr (ha : p'.added = p.added) (hf : p'.finished = p.finished)
    (hpc : p'.pc = p.pc) : p'.ledger n disposed log = p.ledger n disposed log := by
  rw [ledger, ledger, ha, hf, hpc]

theorem ledger_call {o : Occurrence} {x : Task} (hw : w < n) (hpc : (p.pc w).runs = none)
    (hx : x.occurrence = some o) : (p.goto w (.run x)).ledger n disposed log'
      = { p.ledger n disposed log with
          started := insert o (p.ledger n disposed log).started
          log := log' } := by
  rw [ledger, runs_goto, Pc.runs, hx]
  exact Ledger.ofWorkers_call hw hpc o

theorem ledger_ret {o : Occurrence} {x : Task} (hw : w < n) (hpc : p.pc w = .run x)
    (hx : x.occurrence = some o) :
    ({ p with finished := p.finished ++ [x] }.goto w .done).ledger n disposed log'
      = { p.ledger n disposed log with
          returned := insert o (p.ledger n disposed log).returned
          log := log' } := by
  have hfin : (p.finished ++ [x]).filterMap Task.occurrence
      = p.finished.filterMap Task.occurrence ++ [o] := by
    simp [List.filterMap_append, hx]
  have hruns : (p.pc w).runs = some o := by
    rw [hpc]
    exact hx
  rw [ledger, runs_goto]
  exact (congrArg (fun finished => Ledger.ofWorkers n _ finished _ _ _) hfin).trans
    (Ledger.ofWorkers_ret hw hruns)

/-- A finished task that was `NULL` does not show. -/
theorem ledger_finished_null {x : Task} (hx : x.occurrence = none) :
    ledger n { p with finished := p.finished ++ [x] } disposed log = p.ledger n disposed log := by
  simp only [ledger, List.filterMap_append, List.filterMap_cons, hx, List.filterMap_nil,
    List.append_nil]

/-- A step of a worker, with the pool and what was disposed of in `q`. -/
theorem workerStep_steps {q : Pool} (hq : q.Inv n) (hheld : q.held = p.held)
    (ha : q.added = p.added) (hf : q.finished = p.finished)
    (hd : ∀ x ∈ disposed, x ∈ q.dispatchQueue) (hw : w < n) (h : p.workerStep w = some p') :
    (p.ledger n disposed log).Steps once (p'.ledger n disposed (log ++ p.events once w)) := by
  unfold workerStep at h
  split at h
  case h_1 hpc =>
    split at h
    · obtain rfl := Option.some.inj h
      rw [events, hpc, List.append_nil, ledger_goto (by simp [hpc, Pc.runs])]
      exact .refl
    · cases h
  case h_2 hpc =>
    split at h
    · next hnull =>
        obtain rfl := Option.some.inj h
        have hnone : (p.task w).occurrence = none := by
          rw [Task.occurrence, Option.isNone_iff_eq_none.mp hnull]
          rfl
        rw [events, hpc, List.append_nil, ledger_goto (by simp [hpc, Pc.runs]),
          ledger_finished_null hnone]
        exact .refl
    · obtain rfl := Option.some.inj h
      rw [events, hpc, List.append_nil, ledger_goto (by simp [hpc, Pc.runs])]
      exact .refl
  case h_3 hpc =>
    obtain rfl := Option.some.inj h
    have hruns : (p.pc w).runs = none := by
      rw [hpc]
      rfl
    rw [events, hpc]
    cases ho : (p.task w).occurrence with
    | none =>
        rw [ledger_goto (by rw [hruns]; exact ho)]
        simp only [Option.toList_none, List.map_nil, List.append_nil]
        exact .refl
    | some o =>
        have htask := occurrence_eq_some.mp ho
        have hmem : ⟨o.num, some o.cb⟩ ∈ q.held w := by
          rw [hheld, held, hpc, htask]
          exact List.mem_singleton.mpr rfl
        obtain ⟨hadded, hqueue, hfin, hrest⟩ := hq.alone hw hmem
        rw [ledger_call hw hruns ho]
        simp only [Option.toList_some, List.map_cons, List.map_nil]
        refine .single (.call o (mem_occurrences.mpr (ha ▸ hadded)) ?_ fun hdisp => ?_)
        · rintro (hf' | ⟨v, hv, hrun⟩)
          · exact hfin (hf ▸ mem_occurrences.mp hf')
          · have hrun : (p.pc v).runs = some o := hrun
            by_cases hvw : v = w
            · rw [hvw, hruns] at hrun
              cases hrun
            · exact hrest v hv hvw (hheld ▸ held_of_runs hrun)
        · exact hqueue (hd _ (mem_occurrences.mp hdisp))
  case h_4 x hpc =>
    obtain rfl := Option.some.inj h
    rw [events, hpc]
    cases ho : x.occurrence with
    | none =>
        have hruns : Pc.done.runs = (p.pc w).runs := by
          rw [hpc]
          exact ho.symm
        rw [ledger_goto (p := { p with finished := p.finished ++ [x] }) hruns,
          ledger_finished_null ho]
        simp only [ho, Option.toList_none, List.flatMap_nil, List.append_nil]
        exact .refl
    | some o =>
        have hruns : (p.pc w).runs = some o := by
          rw [hpc]
          exact ho
        have hmem : ⟨o.num, some o.cb⟩ ∈ q.held w := hheld ▸ held_of_runs hruns
        have hfin := (hq.alone hw hmem).2.2.1
        rw [ledger_ret hw hpc ho]
        simp only [ho, Option.toList_some, List.flatMap_cons, List.flatMap_nil, List.append_nil]
        exact .single (.ret o (.inr ⟨w, hw, hruns⟩) fun hret =>
          hfin (hf ▸ mem_occurrences.mp hret))
  case h_5 hpc =>
    rw [events, hpc, List.append_nil]
    split at h
    · obtain rfl := Option.some.inj h
      rw [ledger_goto (by simp [hpc, Pc.runs])]
      exact .refl
    · obtain rfl := Option.some.inj h
      obtain ⟨ha, hf, hpc'⟩ := p.queueWorker_ledger w
      rw [ledger_goto (by simp [hpc, hpc', Pc.runs]), ledger_congr ha hf hpc']
      exact .refl
  case h_6 => cases h

/-- A worker that is not to be queued again leaves the queue alone. -/
theorem workerStep_queue (hl : p.pc w = .done → p.lastWorker w = true)
    (h : p.workerStep w = some p') (queue : List Task) :
    workerStep { p with dispatchQueue := queue } w = some { p' with dispatchQueue := queue }
      ∧ p'.dispatchQueue = p.dispatchQueue := by
  unfold workerStep at h ⊢
  split at h <;> rename_i hpc <;> simp only [hpc]
  · split at h
    · next ht =>
        obtain rfl := Option.some.inj h
        rw [if_pos ht]
        exact ⟨rfl, rfl⟩
    · cases h
  · split at h
    · next hnull =>
        obtain rfl := Option.some.inj h
        rw [if_pos hnull]
        exact ⟨rfl, rfl⟩
    · next hnull =>
        obtain rfl := Option.some.inj h
        rw [if_neg hnull]
        exact ⟨rfl, rfl⟩
  · obtain rfl := Option.some.inj h
    exact ⟨rfl, rfl⟩
  · obtain rfl := Option.some.inj h
    exact ⟨rfl, rfl⟩
  · rw [if_pos (hl hpc)] at h ⊢
    obtain rfl := Option.some.inj h
    exact ⟨rfl, rfl⟩
  · cases h

theorem workerStep_added (h : p.workerStep w = some p') : p'.added = p.added := by
  unfold workerStep at h
  split at h
  case h_1 => split at h <;> cases h; rfl
  case h_2 => split at h <;> (cases h; rfl)
  case h_3 => cases h; rfl
  case h_4 => cases h; rfl
  case h_5 =>
    split at h
    · cases h
      rfl
    · cases h
      exact (p.queueWorker_ledger w).1
  case h_6 => cases h

end Pool

/-- `stop()` adds nothing that shows, and calls nothing. -/
theorem stopStep_ledger {s s' : State} (h : stopStep n s = some s') :
    s'.pool.added.filterMap Task.occurrence = s.pool.added.filterMap Task.occurrence
      ∧ s'.pool.finished = s.pool.finished ∧ s'.pool.pc = s.pool.pc
      ∧ s.stop ≠ .idle ∧ ∀ c, s.stop ≠ .returned c := by
  unfold stopStep at h
  split at h
  case h_1 => cases h
  case h_2 caller i hst =>
    split at h
    · obtain rfl := Option.some.inj h
      obtain ⟨ha, hf, hpc⟩ := s.pool.addTask_ledger none
      refine ⟨?_, hf, hpc, by simp [hst], by simp [hst]⟩
      rw [ha, List.filterMap_append]
      exact List.append_nil _
    · obtain rfl := Option.some.inj h
      exact ⟨rfl, rfl, rfl, by simp [hst], by simp [hst]⟩
  case h_3 caller i hst =>
    have hne : s.stop ≠ .idle ∧ ∀ c, s.stop ≠ .returned c := by simp [hst]
    split at h
    · split at h
      · cases h
        exact ⟨rfl, rfl, rfl, hne⟩
      · split at h
        · cases h
          exact ⟨rfl, rfl, rfl, hne⟩
        · cases h
    · split at h <;> (cases h; exact ⟨rfl, rfl, rfl, hne⟩)
  case h_4 => cases h

end

/-! ## Runs of `ThreadPoolFast` -/

namespace LogState

/-- The pool as if the destructor had not emptied its queue. -/
def whole (s : LogState) : Pool :=
  { s.state.pool with dispatchQueue := s.disposed ++ s.state.pool.dispatchQueue }

def ledger (n : ℕ) (s : LogState) : Ledger := s.state.pool.ledger n s.disposed s.log

end LogState

structure LogInv (n : ℕ) (once : ℕ → Bool) (s : LogState) : Prop where
  inv : s.whole.Inv n
  joined : Joined n s.state
  kept : s.destroyed = false → s.disposed = []
  emptied : s.destroyed = true →
    (∃ c, s.state.stop = .returned c) ∧ s.state.pool.dispatchQueue = []
  called : s.state.stop ≠ .idle → ∀ x ∈ s.added, Event.call x ∈ s.log
  ledger : (s.ledger n).Inv once

section

variable {n : ℕ} {once : ℕ → Bool} {s s' : LogState}

theorem LogInv.new (n : ℕ) (once : ℕ → Bool) : LogInv n once (.new n) where
  inv := Pool.new_inv n
  joined := .new n
  kept _ := rfl
  emptied h := by cases h
  called h := absurd rfl h
  ledger := by
    have hnew : (LogState.new n).ledger n = .ofWorkers n [] [] [] (fun _ => none) [] := by
      rw [LogState.ledger, LogState.new, Pool.ledger, Pool.new_eq]
      rfl
    rw [hnew]
    exact Ledger.ofWorkers_inv n once

theorem whole_of_kept (h : s.disposed = []) : s.whole = s.state.pool := by
  rw [LogState.whole, h]
  rfl

theorem Client.idle {caller cb : Option ℕ} (hc : Client once s (.pool (.addTask caller cb))) :
    s.state.stop = .idle := by
  cases cb with
  | none => exact hc.elim
  | some c => exact hc.1

/-- A step of the pool is one of the pool with the queue that it had. -/
theorem LogInv.whole_inv (h : LogInv n once s) {l : Act} {state : State}
    (hidle : ∀ caller cb, l = .addTask caller cb → s.state.stop = .idle)
    (hs : step n s.state l = some state) :
    ({ s with state } : LogState).whole.Inv n
      ∧ (s.destroyed = true → state.pool.dispatchQueue = []) := by
  by_cases hd : s.destroyed = true
  case neg =>
      have hempty := h.kept (Bool.eq_false_iff.mpr hd)
      have hinv := h.inv
      rw [whole_of_kept hempty] at hinv
      rw [whole_of_kept (s := { s with state }) hempty]
      refine ⟨?_, fun htrue => absurd htrue hd⟩
      rcases step_move hs with heq | hm
      · exact heq ▸ hinv
      · exact hinv.move hm
  case pos =>
      obtain ⟨⟨c, hret⟩, hqueue⟩ := h.emptied hd
      cases l with
      | addTask caller cb =>
          have hst := hidle caller cb rfl
          rw [hret] at hst
          cases hst
      | stop caller =>
          simp only [step, hret] at hs
          cases hs
      | stopStep => exact absurd hret ((stopStep_ledger hs).2.2.2.2 c)
      | worker w =>
          simp only [step] at hs
          split at hs
          · next hw =>
              obtain ⟨p, hp, rfl⟩ := Option.map_eq_some_iff.mp hs
              have hlast : s.state.pool.pc w = .done → s.state.pool.lastWorker w = true := by
                intro hpc
                rcases h.joined.returned c hret w hw.1 with hexit | ⟨-, hl⟩
                · rw [hpc] at hexit
                  cases hexit
                · exact hl
              obtain ⟨hstep, hsame⟩ := Pool.workerStep_queue hlast hp
                (s.disposed ++ s.state.pool.dispatchQueue)
              refine ⟨?_, fun _ => hsame.trans hqueue⟩
              have hinv := h.inv.move (Pool.workerStep_move hw.1 hstep)
              rw [← hsame] at hinv
              exact hinv
          · cases hs

/-- A step of the pool is a move of the ledger, or does not show. -/
theorem LogInv.steps (h : LogInv n once s) {l : Act} {state : State}
    (hc : Client once s (.pool l)) (hs : step n s.state l = some state) :
    (s.ledger n).Steps once
      (({ s with state, log := s.log ++ l.events once s.state.pool } : LogState).ledger n) := by
  cases l with
  | addTask caller cb =>
      simp only [step] at hs
      split at hs
      · obtain rfl := Option.some.inj hs
        obtain ⟨c, rfl, honce⟩ : ∃ c, cb = some c ∧ (once c = true → ∀ x ∈ s.added, x.cb ≠ c) := by
          cases cb with
          | none => exact hc.elim
          | some c => exact ⟨c, rfl, hc.2⟩
        obtain ⟨ha, hf, hpc⟩ := s.state.pool.addTask_ledger (some c)
        have hadd : LogState.ledger n { s with
            state := ⟨s.state.pool.addTask (some c), s.state.stop⟩
            log := s.log ++ [] }
            = { s.ledger n with
                added := insert ⟨s.state.pool.added.length, c⟩ (s.ledger n).added } := by
          rw [LogState.ledger, Pool.ledger, ha, hf, hpc, List.filterMap_append, List.append_nil]
          exact Ledger.ofWorkers_add _
        rw [show Act.events once s.state.pool (.addTask caller (some c)) = [] from rfl, hadd]
        refine .single (.add _ (fun hmem => ?_) honce)
        obtain ⟨i, hi⟩ := List.mem_iff_getElem?.mp (mem_occurrences.mp hmem)
        have hnum : s.state.pool.added.length = i := h.inv.num i _ hi
        have hlt := (List.getElem?_eq_some_iff.mp hi).1
        omega
      · cases hs
  | worker w =>
      simp only [step] at hs
      split at hs
      · next hw =>
          obtain ⟨p, hp, rfl⟩ := Option.map_eq_some_iff.mp hs
          exact Pool.workerStep_steps h.inv rfl rfl rfl
            (fun x hx => List.mem_append_left _ hx) hw.1 hp
      · cases hs
  | stop caller =>
      simp only [step] at hs
      split at hs
      · split at hs
        · obtain rfl := Option.some.inj hs
          rw [show Act.events once s.state.pool (.stop caller) = [] from rfl, List.append_nil]
          exact .refl
        · cases hs
      · cases hs
  | stopStep =>
      obtain ⟨ha, hf, hpc, -⟩ := stopStep_ledger hs
      rw [show Act.events once s.state.pool .stopStep = [] from rfl, List.append_nil,
        LogState.ledger, LogState.ledger, Pool.ledger, Pool.ledger, ha, hf, hpc]
      exact .refl

/-- `stop()` is called when all callbacks have been called, and none is
added later. -/
theorem LogInv.called_step (h : LogInv n once s) {l : Act} {state : State}
    (hc : Client once s (.pool l)) (hs : step n s.state l = some state) (hst : state.stop ≠ .idle) :
    ∀ x ∈ state.pool.added.filterMap Task.occurrence,
      Event.call x ∈ s.log ++ l.events once s.state.pool := by
  intro x hx
  refine List.mem_append_left _ ?_
  cases l with
  | addTask caller cb =>
      simp only [step] at hs
      split at hs
      · obtain rfl := Option.some.inj hs
        exact absurd hc.idle hst
      · cases hs
  | worker w =>
      simp only [step] at hs
      split at hs
      · obtain ⟨p, hp, rfl⟩ := Option.map_eq_some_iff.mp hs
        rw [Pool.workerStep_added hp] at hx
        exact h.called hst x hx
      · cases hs
  | stop caller =>
      simp only [step] at hs
      split at hs
      · split at hs
        · obtain rfl := Option.some.inj hs
          exact hc x hx
        · cases hs
      · cases hs
  | stopStep =>
      obtain ⟨ha, -, -, hidle, -⟩ := stopStep_ledger hs
      rw [ha] at hx
      exact h.called hidle x hx

theorem LogInv.destroy (h : LogInv n once s) (hs : destroy once s = some s') :
    LogInv n once s' := by
  unfold ThreadPool.destroy at hs
  split at hs
  case h_2 => cases hs
  case h_1 c hret =>
    split at hs
    · cases hs
    · next hd =>
        obtain rfl := Option.some.inj hs
        have hempty := h.kept (Bool.eq_false_iff.mpr hd)
        have hinv := h.inv
        refine ⟨?_, ⟨h.joined.joining, h.joined.returned⟩, fun hf => (by cases hf),
          fun _ => ⟨⟨c, hret⟩, rfl⟩, fun hst x hx => List.mem_append_left _ (h.called hst x hx), ?_⟩
        · rw [LogState.whole, List.append_nil]
          exact hinv
        · rw [whole_of_kept hempty] at hinv
          refine h.ledger.steps ?_
          have hnd : (s.state.pool.dispatchQueue.filterMap Task.occurrence).Nodup := by
            refine List.Nodup.filterMap (fun x y o hx hy => ?_) ?_
            · rw [occurrence_eq_some.mp hx, occurrence_eq_some.mp hy]
            · refine List.nodup_iff_count_le_one.mpr fun x => ?_
              by_cases hx : x ∈ s.state.pool.dispatchQueue
              · exact (hinv.queued hx).1.le
              · exact (List.count_eq_zero.mpr hx).trans_le (Nat.zero_le 1)
          rw [LogState.ledger, LogState.ledger, Pool.ledger, Pool.ledger, List.filterMap_append]
          refine Ledger.steps_dispose hnd (fun o ho => ?_) fun o ho => ?_
          · exact mem_occurrences.mpr (hinv.queued (mem_occurrences.mp ho)).2.1
          · obtain ⟨-, -, hf, hheld⟩ := hinv.queued (mem_occurrences.mp ho)
            refine ⟨fun hfin => hf (mem_occurrences.mp hfin), fun w hw hrun => ?_, ?_⟩
            · exact hheld w hw (Pool.held_of_runs hrun)
            · rw [hempty]
              exact List.not_mem_nil

theorem LogInv.step (h : LogInv n once s) {l : LogAct} (hc : Client once s l)
    (hs : logStep n once s l = some s') : LogInv n once s' := by
  cases l with
  | destroy => exact h.destroy hs
  | pool l =>
      obtain ⟨state, hstate, rfl⟩ := Option.map_eq_some_iff.mp hs
      have hidle : ∀ caller cb, l = .addTask caller cb → s.state.stop = .idle := by
        rintro caller cb rfl
        exact hc.idle
      obtain ⟨hinv, hqueue⟩ := h.whole_inv hidle hstate
      refine ⟨hinv, h.joined.step hstate, h.kept, fun hd => ⟨?_, hqueue hd⟩,
        h.called_step hc hstate, h.ledger.steps (h.steps hc hstate)⟩
      obtain ⟨c, hret⟩ := (h.emptied hd).1
      exact ⟨c, (step_turn hstate).returned hret⟩

theorem reachable_logInv (h : (logMachine n once).ReachableBy (Client once) s) :
    LogInv n once s := by
  refine h.invariant (I := LogInv n once) ?_ fun s l s' hinv hc hs => hinv.step hc hs
  rintro s rfl
  exact .new n once

/-- `ThreadPoolFast` treats all callbacks well. -/
theorem log_treated (h : (logMachine n once).ReachableBy (Client once) s) :
    Safe once s.log ∧ (Done n s → Treated once s.added s.log) := by
  have hinv := reachable_logInv h
  refine ⟨hinv.ledger.safe, fun hd => ?_⟩
  obtain ⟨⟨c, hret⟩, -⟩ := hinv.emptied hd.1
  have hstart : ∀ x ∈ s.added, x ∈ (s.ledger n).started := by
    intro x hx
    by_contra hno
    exact hinv.ledger.call_none x hno (hinv.called (by simp [hret]) x hx)
  refine hinv.ledger.treated hstart fun x hx => .inl ?_
  rcases hstart x hx with hfin | ⟨w, hw, hrun⟩
  · exact hfin
  · have hrun : (s.state.pool.pc w).runs = some x := hrun
    rw [hd.2 w hw] at hrun
    cases hrun

end

end ThreadPool

/-! ## Both pools -/

open Callbacks

/-- Whatever the client adds and however the workers run,
`ThreadPoolFast` treats the callbacks well. `ThreadPoolNormal` does, too,
while only once-only ones are added; in the end it has done so exactly if
that was the case. -/
theorem pools_treat_callbacks_iff (n : ℕ) (once : ℕ → Bool) :
    (∀ s, (ThreadPool.logMachine n once).ReachableBy (ThreadPool.Client once) s →
      Safe once s.log ∧ (ThreadPool.Done n s → Treated once s.added s.log))
    ∧ ∀ s, (ThreadPoolNormal.machine n once).ReachableBy (ThreadPoolNormal.Client once) s →
      ((∀ x ∈ s.added, once x.cb = true) → Safe once s.log)
      ∧ (ThreadPoolNormal.Done n s →
        (Treated once s.added s.log ↔ ∀ x ∈ s.added, once x.cb = true)) :=
  ⟨fun _ h => ThreadPool.log_treated h, fun _ h => ThreadPoolNormal.treated_iff h⟩

/-- A repeatable callback that is added twice and a once-only one, run by
one worker of `ThreadPoolFast`. -/
theorem threeCallbacks_treated : ∃ s,
    (ThreadPool.logMachine 1 (· == 8)).ReachableBy (ThreadPool.Client (· == 8)) s
      ∧ s.added = [⟨0, 7⟩, ⟨1, 7⟩, ⟨2, 8⟩] ∧ Treated (· == 8) s.added s.log := by
  let calls : List ThreadPool.Act :=
    [.addTask none (some 7), .addTask none (some 7), .addTask none (some 8)]
  let stops : List ThreadPool.Act :=
    [.stop none, .stopStep, .stopStep, .worker 0, .worker 0, .stopStep, .stopStep]
  have hrun : ((ThreadPool.logMachine 1 (· == 8)).exec (ThreadPool.Client (· == 8)) (.new 1)
      (calls.map .pool ++ List.replicate 15 (.pool (.worker 0)) ++ stops.map .pool
        ++ [.destroy])).any (fun s => s.destroyed && s.state.pool.pc 0 = .exited
          && s.added = [⟨0, 7⟩, ⟨1, 7⟩, ⟨2, 8⟩]) = true := by
    decide +kernel
  obtain ⟨s, hs, hp⟩ := Lts.ReachableBy.exec_any (.init rfl) hrun
  simp only [Bool.and_eq_true, decide_eq_true_eq] at hp
  refine ⟨s, hs, hp.2, ((pools_treat_callbacks_iff 1 _).1 s hs).2 ⟨hp.1.1, fun w hw => ?_⟩⟩
  obtain rfl : w = 0 := by omega
  exact hp.1.2

/-- A repeatable callback that is added twice is deleted by
`ThreadPoolNormal` after its first run, and called and deleted again. -/
theorem repeatable_deleted : ¬∀ (n : ℕ) (once : ℕ → Bool),
    (∀ s, (ThreadPool.logMachine n once).ReachableBy (ThreadPool.Client once) s →
      ThreadPool.Done n s → Treated once s.added s.log)
    ∧ ∀ s, (ThreadPoolNormal.machine n once).ReachableBy (ThreadPoolNormal.Client once) s →
      ThreadPoolNormal.Done n s → Treated once s.added s.log := by
  intro hall
  let calls : List ThreadPoolNormal.Act := [.addTask none 7, .addTask none 7]
  let stops : List ThreadPoolNormal.Act := [.stop none, .worker 0, .join, .join, .destroy]
  have hrun : ((ThreadPoolNormal.machine 1 fun _ => false).exec
      (ThreadPoolNormal.Client fun _ => false) .new
      (calls ++ List.replicate 8 (.worker 0) ++ stops)).any (fun s => s.destroyed
          && s.pc 0 = .exited
          && s.log = [.call ⟨0, 7⟩, .delete 7, .call ⟨1, 7⟩, .delete 7]) = true := by
    decide +kernel
  obtain ⟨s, hs, hp⟩ := Lts.ReachableBy.exec_any (.init rfl) hrun
  simp only [Bool.and_eq_true, decide_eq_true_eq] at hp
  have ht := (hall 1 fun _ => false).2 s hs ⟨hp.1.1, fun w hw => by
    obtain rfl : w = 0 := by omega
    exact hp.1.2⟩
  refine ht.kept 7 rfl ?_
  rw [hp.2]
  decide

end HttpServer
