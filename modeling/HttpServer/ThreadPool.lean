import HttpServer.Lib.Lts
import HttpServer.Lib.Tally
import Mathlib.Data.List.Count

/-!
# The thread pool

`ThreadPoolFast` (thread_pool_fast.cpp) with `n` workers. A section of
`m_dispatch_` is one step, with the `assignTask` it may make inside, and
so is a section of a worker's `m_`. The section that sets `has_task_`
signals the worker, so a worker that waits for a task can go on exactly
when `has_task_` is set. A worker reads `task_` outside its lock, once to
test it and once to call it; these are steps of their own.

`Pool` is the pool as its workers and the callers of `addTask` see it;
`State` adds the call of `stop()`, which comes from outside or from the
task of a worker. A `join` waits for the thread of a worker to end.

A task is numbered by the call of `addTask` that added it, and the pool
keeps a record of the tasks added, assigned and finished.
-/

namespace HttpServer

namespace ThreadPool

/-- The task of an `addTask` call; no callback is a `NULL` task. -/
structure Task where
  num : ℕ
  cb : Option ℕ
deriving DecidableEq, Repr

def Task.isNull (x : Task) : Bool := x.cb.isNone

/-- Where a worker is in `workerLoop`. -/
inductive Pc where
  /-- Waits for `has_task_`. -/
  | wait
  /-- Has a task, not tested yet. -/
  | taken
  /-- The task is not `NULL`. -/
  | checked
  | run (x : Task)
  /-- Back from the task. -/
  | done
  | exited
deriving DecidableEq, Repr

structure Pool where
  dispatchQueue : List Task
  workers : List ℕ
  hasTask : ℕ → Bool
  task : ℕ → Task
  pc : ℕ → Pc
  lastWorker : ℕ → Bool
  added : List Task
  assigned : List (Task × ℕ)
  finished : List Task

namespace Pool

def goto (p : Pool) (w : ℕ) (pc : Pc) : Pool := { p with pc := Function.update p.pc w pc }

def assignTask (p : Pool) (w : ℕ) (x : Task) : Pool :=
  { p with
    task := Function.update p.task w x
    hasTask := Function.update p.hasTask w true
    assigned := p.assigned ++ [(x, w)] }

def queueWorker (p : Pool) (w : ℕ) : Pool :=
  match p.dispatchQueue with
  | x :: xs => { p with dispatchQueue := xs }.assignTask w x
  | [] => { p with workers := w :: p.workers }

/-- The task of the next call of `addTask`. -/
def newTask (p : Pool) (cb : Option ℕ) : Task := ⟨p.added.length, cb⟩

def addTask (p : Pool) (cb : Option ℕ) : Pool :=
  let x := p.newTask cb
  let p := { p with added := p.added ++ [x] }
  match p.workers with
  | w :: ws => { p with workers := ws }.assignTask w x
  | [] => { p with dispatchQueue := p.dispatchQueue ++ [x] }

/-- The next step of `workerLoop`. -/
def workerStep (p : Pool) (w : ℕ) : Option Pool :=
  match p.pc w with
  | .wait =>
      if p.hasTask w then
        some ({ p with hasTask := Function.update p.hasTask w false }.goto w .taken)
      else none
  | .taken =>
      if (p.task w).isNull then
        some ({ p with finished := p.finished ++ [p.task w] }.goto w .exited)
      else some (p.goto w .checked)
  | .checked => some (p.goto w (.run (p.task w)))
  | .run x => some ({ p with finished := p.finished ++ [x] }.goto w .done)
  | .done =>
      if p.lastWorker w then some (p.goto w .exited) else some ((p.queueWorker w).goto w .wait)
  | .exited => none

/-- Before the constructor starts its workers. -/
def empty : Pool :=
  ⟨[], [], fun _ => false, fun _ => ⟨0, none⟩, fun _ => .wait, fun _ => false, [], [], []⟩

/-- The constructor. -/
def new (n : ℕ) : Pool := (List.range n).foldl queueWorker empty

end Pool

/-! ## Stopping -/

/-- How far the call of `stop()` is; `none` is a caller outside of the
pool. -/
inductive Stop where
  | idle
  | adding (caller : Option ℕ) (i : ℕ)
  | joining (caller : Option ℕ) (i : ℕ)
  | returned (caller : Option ℕ)
deriving DecidableEq, Repr

structure State where
  pool : Pool
  stop : Stop

/-- The worker whose task is inside of `stop()`. -/
def Stop.inside : Stop → Option ℕ
  | .idle => none
  | .adding caller _ => caller
  | .joining caller _ => caller
  | .returned _ => none

/-- The task of `w` can make a call. -/
def State.calls (n : ℕ) (s : State) (w : ℕ) : Bool :=
  match s.pool.pc w with
  | .run _ => w < n ∧ s.stop.inside ≠ some w
  | _ => false

/-- A call of `addTask` or `stop`, the next step of a worker or of
`stop()`. -/
inductive Act where
  | addTask (caller : Option ℕ) (cb : Option ℕ)
  | worker (w : ℕ)
  | stop (caller : Option ℕ)
  | stopStep

/-- The next step of `stop()`. -/
def stopStep (n : ℕ) (s : State) : Option State :=
  match s.stop with
  | .idle => none
  | .adding caller i =>
      if i < n then some ⟨s.pool.addTask none, .adding caller (i + 1)⟩
      else some ⟨s.pool, .joining caller 0⟩
  | .joining caller i =>
      if i < n then
        if caller = some i then some ⟨s.pool, .joining caller (i + 1)⟩
        else if s.pool.pc i = .exited then some ⟨s.pool, .joining caller (i + 1)⟩
        else none
      else
        match caller with
        | some w =>
            some ⟨{ s.pool with lastWorker := Function.update s.pool.lastWorker w true },
              .returned caller⟩
        | none => some ⟨s.pool, .returned caller⟩
  | .returned _ => none

def step (n : ℕ) (s : State) : Act → Option State
  | .addTask caller cb =>
      if ∀ w ∈ caller, s.calls n w then some ⟨s.pool.addTask cb, s.stop⟩ else none
  | .worker w =>
      if w < n ∧ s.stop.inside ≠ some w then (s.pool.workerStep w).map fun p => ⟨p, s.stop⟩
      else none
  | .stop caller =>
      match s.stop with
      | .idle => if ∀ w ∈ caller, s.calls n w then some ⟨s.pool, .adding caller 0⟩ else none
      | _ => none
  | .stopStep => stopStep n s

def machine (n : ℕ) : Lts State Act := ⟨fun s => s = ⟨.new n, .idle⟩, step n⟩

/-! ## The dispatch invariant -/

namespace Pool

/-- The tasks a worker has been assigned and is not done with. -/
def held (p : Pool) (w : ℕ) : List Task :=
  match p.pc w with
  | .wait => if p.hasTask w then [p.task w] else []
  | .taken => [p.task w]
  | .checked => [p.task w]
  | .run x => [x]
  | .done => []
  | .exited => []

/-- How often a task is waiting, with a worker, or finished. -/
def places (n : ℕ) (p : Pool) (x : Task) : ℕ :=
  p.dispatchQueue.count x + ∑ w ∈ Finset.range n, (p.held w).count x + p.finished.count x

/-- A worker that can be assigned a task. -/
def Free (n : ℕ) (p : Pool) (w : ℕ) : Prop :=
  w < n ∧ p.hasTask w = false ∧ (p.pc w = .wait ∨ p.pc w = .done)

structure Inv (n : ℕ) (p : Pool) : Prop where
  /-- Tasks wait only while there is no worker for them. -/
  either : p.dispatchQueue = [] ∨ p.workers = []
  nodup : p.workers.Nodup
  /-- `workers_` are the workers that wait for a task. -/
  mem : ∀ w, w ∈ p.workers ↔ w < n ∧ p.pc w = .wait ∧ p.hasTask w = false
  hasTask : ∀ w, p.hasTask w = true → w < n ∧ p.pc w = .wait
  /-- In the order of the `addTask` calls. -/
  order : p.assigned.map Prod.fst ++ p.dispatchQueue = p.added
  place : ∀ x, p.places n x = p.added.count x
  num : ∀ i (x : Task), p.added[i]? = some x → x.num = i

theorem Inv.free {n : ℕ} {p : Pool} (h : p.Inv n) {w : ℕ} (hw : w ∈ p.workers) : p.Free n w := by
  obtain ⟨hlt, hpc, ht⟩ := (h.mem w).mp hw
  exact ⟨hlt, ht, .inl hpc⟩

theorem Inv.nodup_added {n : ℕ} {p : Pool} (h : p.Inv n) : p.added.Nodup := by
  rw [List.nodup_iff_getElem?_ne_getElem?]
  intro i j hij hj heq
  obtain ⟨x, hx⟩ : ∃ x, p.added[j]? = some x := ⟨_, List.getElem?_eq_getElem hj⟩
  have hi := h.num i x (heq.trans hx)
  have hj := h.num j x hx
  omega

section

variable {n w : ℕ} {p p' : Pool}

/-- `p'` differs from `p` at the worker `w` only, as far as workers go. -/
structure Only (w : ℕ) (p p' : Pool) : Prop where
  pc : ∀ v, v ≠ w → p'.pc v = p.pc v
  hasTask : ∀ v, v ≠ w → p'.hasTask v = p.hasTask v
  task : ∀ v, v ≠ w → p'.task v = p.task v

theorem Only.held (h : Only w p p') {v : ℕ} (hv : v ≠ w) : p'.held v = p.held v := by
  rw [Pool.held, Pool.held, h.pc v hv, h.hasTask v hv, h.task v hv]

/-- The places of a task after a step at the worker `w`. -/
theorem Only.places (h : Only w p p') (hw : w < n) (x : Task) :
    p'.places n x + (p.dispatchQueue.count x + (p.held w).count x + p.finished.count x)
      = p.places n x + (p'.dispatchQueue.count x + (p'.held w).count x + p'.finished.count x) := by
  have hsum := Tally.sum_range_of_ne (fun v => (p.held v).count x) (fun v => (p'.held v).count x) hw
    fun v hv => by rw [h.held hv]
  unfold Pool.places
  omega

theorem Only.goto {q : Pool} (h : Only w p q) (pc : Pc) : Only w p (q.goto w pc) :=
  ⟨fun v hv => (Function.update_of_ne hv ..).trans (h.pc v hv), h.hasTask, h.task⟩

@[simp] theorem goto_pc (p : Pool) (w : ℕ) (pc : Pc) : (p.goto w pc).pc w = pc :=
  Function.update_self ..

theorem Only.assignTask {q : Pool} (h : Only w p q) (x : Task) : Only w p (q.assignTask w x) :=
  ⟨h.pc, fun v hv => (Function.update_of_ne hv ..).trans (h.hasTask v hv),
    fun v hv => (Function.update_of_ne hv ..).trans (h.task v hv)⟩

/-- A change that concerns no worker. -/
theorem only_of_eq {q : Pool} (hpc : q.pc = p.pc) (ht : q.hasTask = p.hasTask)
    (hx : q.task = p.task) : Only w p q :=
  ⟨fun v _ => congrFun hpc v, fun v _ => congrFun ht v, fun v _ => congrFun hx v⟩

/-- Free workers hold nothing. -/
theorem Free.held (h : p.Free n w) : p.held w = [] := by
  rcases h.2.2 with hpc | hpc
  · simp [Pool.held, hpc, h.2.1]
  · simp [Pool.held, hpc]

end

/-! ## Moves -/

/-- What can happen to the pool. -/
inductive Move (n : ℕ) (p : Pool) : Pool → Prop where
  /-- `addTask` with a worker for the task. -/
  | hand {w ws} (cb : Option ℕ) (hws : p.workers = w :: ws) :
      Move n p ({ p with
        added := p.added ++ [p.newTask cb]
        workers := ws }.assignTask w (p.newTask cb))
  /-- `addTask` without one. -/
  | enqueue (cb : Option ℕ) (hws : p.workers = []) :
      Move n p { p with
        added := p.added ++ [p.newTask cb]
        dispatchQueue := p.dispatchQueue ++ [p.newTask cb] }
  | take {w} (hw : w < n) (hpc : p.pc w = .wait) (ht : p.hasTask w = true) :
      Move n p ({ p with hasTask := Function.update p.hasTask w false }.goto w .taken)
  | exitNull {w} (hw : w < n) (hpc : p.pc w = .taken) (hx : (p.task w).isNull = true) :
      Move n p ({ p with finished := p.finished ++ [p.task w] }.goto w .exited)
  | check {w} (hw : w < n) (hpc : p.pc w = .taken) (hx : (p.task w).isNull = false) :
      Move n p (p.goto w .checked)
  | call {w} (hw : w < n) (hpc : p.pc w = .checked) : Move n p (p.goto w (.run (p.task w)))
  | finish {w x} (hw : w < n) (hpc : p.pc w = .run x) :
      Move n p ({ p with finished := p.finished ++ [x] }.goto w .done)
  | exitLast {w} (hw : w < n) (hpc : p.pc w = .done) (hl : p.lastWorker w = true) :
      Move n p (p.goto w .exited)
  /-- `queueWorker` with a task for the worker. -/
  | next {w x xs} (hw : w < n) (hpc : p.pc w = .done) (hl : p.lastWorker w = false)
      (hq : p.dispatchQueue = x :: xs) :
      Move n p (({ p with dispatchQueue := xs }.assignTask w x).goto w .wait)
  /-- `queueWorker` without one. -/
  | free {w} (hw : w < n) (hpc : p.pc w = .done) (hl : p.lastWorker w = false)
      (hq : p.dispatchQueue = []) :
      Move n p ({ p with workers := w :: p.workers }.goto w .wait)
  /-- `stop()` called by a worker returns. -/
  | last (w : ℕ) : Move n p { p with lastWorker := Function.update p.lastWorker w true }

section

variable {n w : ℕ} {p p' : Pool}

theorem addTask_move (p : Pool) (cb : Option ℕ) : Move n p (p.addTask cb) := by
  unfold addTask
  simp only
  split
  · exact .hand cb ‹_›
  · exact .enqueue cb ‹_›

theorem workerStep_move (hw : w < n) (h : p.workerStep w = some p') : Move n p p' := by
  unfold workerStep at h
  split at h
  case h_1 hpc =>
    split at h
    · obtain rfl := Option.some.inj h
      exact .take hw hpc ‹_›
    · cases h
  case h_2 hpc =>
    split at h
    · obtain rfl := Option.some.inj h
      exact .exitNull hw hpc ‹_›
    · obtain rfl := Option.some.inj h
      exact .check hw hpc (Bool.eq_false_iff.mpr ‹_›)
  case h_3 hpc =>
    obtain rfl := Option.some.inj h
    exact .call hw hpc
  case h_4 x hpc =>
    obtain rfl := Option.some.inj h
    exact .finish hw hpc
  case h_5 hpc =>
    split at h
    · obtain rfl := Option.some.inj h
      exact .exitLast hw hpc ‹_›
    · rename_i hl
      obtain rfl := Option.some.inj h
      unfold queueWorker
      split
      · exact .next hw hpc (Bool.eq_false_iff.mpr hl) ‹_›
      · exact .free hw hpc (Bool.eq_false_iff.mpr hl) ‹_›
  case h_6 => cases h

/-! ## Moves keep the invariant -/

/-- What is left to show of a move at the worker `w`. -/
theorem Inv.moveAt (h : p.Inv n) (ho : Only w p p') (hw : w < n)
    (either : p'.dispatchQueue = [] ∨ p'.workers = []) (nodup : p'.workers.Nodup)
    (mem : w ∈ p'.workers ↔ p'.pc w = .wait ∧ p'.hasTask w = false)
    (others : ∀ v, v ≠ w → (v ∈ p'.workers ↔ v ∈ p.workers))
    (hasTask : p'.hasTask w = true → p'.pc w = .wait)
    (order : p'.assigned.map Prod.fst ++ p'.dispatchQueue = p'.added)
    (place : ∀ x, p'.dispatchQueue.count x + (p'.held w).count x + p'.finished.count x
        + p.added.count x
      = p.dispatchQueue.count x + (p.held w).count x + p.finished.count x + p'.added.count x)
    (num : ∀ i (x : Task), p'.added[i]? = some x → x.num = i) : p'.Inv n := by
  refine ⟨either, nodup, ?_, ?_, order, ?_, num⟩
  · intro v
    by_cases hv : v = w
    · rw [hv, mem]
      simp [hw]
    · rw [others v hv, h.mem, ho.pc v hv, ho.hasTask v hv]
  · intro v hv
    by_cases hvw : v = w
    · rw [hvw] at hv ⊢
      exact ⟨hw, hasTask hv⟩
    · rw [ho.hasTask v hvw] at hv
      rw [ho.pc v hvw]
      exact h.hasTask v hv
  · intro x
    have hsum := ho.places hw x
    have hx := place x
    have hold := h.place x
    omega

theorem Inv.num_concat (h : p.Inv n) (cb : Option ℕ) (i : ℕ) (x : Task)
    (hx : (p.added ++ [p.newTask cb])[i]? = some x) : x.num = i := by
  rw [List.getElem?_append] at hx
  split at hx
  · exact h.num i x hx
  · rename_i hi
    cases hi' : i - p.added.length with
    | zero =>
        rw [hi', List.getElem?_cons_zero, Option.some.injEq] at hx
        rw [← hx]
        show p.added.length = i
        omega
    | succ k =>
        rw [hi'] at hx
        cases hx

theorem Inv.hand (h : p.Inv n) {ws : List ℕ} (cb : Option ℕ) (hws : p.workers = w :: ws) :
    ({ p with added := p.added ++ [p.newTask cb], workers := ws }.assignTask w (p.newTask cb)).Inv n
    := by
  have hmem : w ∈ p.workers := by
    rw [hws]
    exact List.mem_cons_self
  obtain ⟨hw, hpc, -⟩ := (h.mem w).mp hmem
  have hnodup := h.nodup
  rw [hws] at hnodup
  have hq : p.dispatchQueue = [] := h.either.resolve_right (by simp [hws])
  have ho : Only w p ({ p with added := p.added ++ [p.newTask cb], workers := ws }.assignTask w
      (p.newTask cb)) := by
    refine Only.assignTask ?_ _
    exact only_of_eq rfl rfl rfl
  refine h.moveAt ho hw (.inl hq) hnodup.of_cons ?_ ?_ (fun _ => hpc) ?_ ?_ (h.num_concat cb)
  · simp [assignTask, hnodup.notMem]
  · intro v hv
    simp [assignTask, hws, hv]
  · have horder := h.order
    rw [hq, List.append_nil] at horder
    simp [assignTask, hq, horder]
  · intro x
    have hheld : ({ p with added := p.added ++ [p.newTask cb], workers := ws }.assignTask w
        (p.newTask cb)).held w = [p.newTask cb] := by
      simp [assignTask, held, hpc]
    rw [hheld, (h.free hmem).held]
    simp only [assignTask, List.count_append, List.count_nil]
    omega

theorem Inv.enqueue (h : p.Inv n) (cb : Option ℕ) (hws : p.workers = []) :
    Inv n { p with
      added := p.added ++ [p.newTask cb]
      dispatchQueue := p.dispatchQueue ++ [p.newTask cb] } := by
  refine ⟨.inr hws, h.nodup, h.mem, h.hasTask, ?_, ?_, h.num_concat cb⟩
  · show p.assigned.map Prod.fst ++ (p.dispatchQueue ++ [p.newTask cb]) = p.added ++ [p.newTask cb]
    rw [← List.append_assoc, h.order]
  · intro x
    have hold := h.place x
    simp only [places, List.count_append] at hold ⊢
    show _ + ∑ v ∈ Finset.range n, (p.held v).count x + _ = _
    omega

theorem Inv.next (h : p.Inv n) {x : Task} {xs : List Task} (hw : w < n) (hpc : p.pc w = .done)
    (hq : p.dispatchQueue = x :: xs) :
    (({ p with dispatchQueue := xs }.assignTask w x).goto w .wait).Inv n := by
  have hws : p.workers = [] := h.either.resolve_left (by simp [hq])
  have ho : Only w p (({ p with dispatchQueue := xs }.assignTask w x).goto w .wait) := by
    refine Only.goto (Only.assignTask ?_ x) .wait
    exact only_of_eq rfl rfl rfl
  refine h.moveAt ho hw (.inr hws) h.nodup ?_ ?_ ?_ ?_ ?_ h.num
  · simp [assignTask, Pool.goto, hws]
  · intro v hv
    rfl
  · simp
  · rw [← h.order, hq]
    simp [assignTask, Pool.goto]
  · intro y
    have hheld : (({ p with dispatchQueue := xs }.assignTask w x).goto w .wait).held w = [x] := by
      simp [assignTask, held, Pool.goto]
    have hold : p.held w = [] := by simp [held, hpc]
    rw [hheld, hold, hq]
    simp only [assignTask, Pool.goto, List.count_cons, List.count_nil]
    omega

/-- A move that changes neither the queue nor `workers_`, at a worker that
is not waiting afterwards. -/
theorem Inv.along (h : p.Inv n) (ho : Only w p p') (hw : w < n)
    (hq : p'.dispatchQueue = p.dispatchQueue) (hws : p'.workers = p.workers)
    (hmem : w ∉ p.workers) (hpc : p'.pc w ≠ .wait) (ht : p'.hasTask w = false)
    (hadd : p'.added = p.added) (has : p'.assigned = p.assigned)
    (hplace : ∀ x, (p'.held w).count x + p'.finished.count x
      = (p.held w).count x + p.finished.count x) : p'.Inv n := by
  refine h.moveAt ho hw ?_ ?_ ?_ ?_ ?_ ?_ ?_ ?_
  · rw [hq, hws]
    exact h.either
  · rw [hws]
    exact h.nodup
  · rw [hws]
    exact iff_of_false hmem fun hc => hpc hc.1
  · intro v _
    rw [hws]
  · rw [ht]
    nofun
  · rw [has, hq, hadd]
    exact h.order
  · intro x
    have hx := hplace x
    rw [hq, hadd]
    omega
  · rw [hadd]
    exact h.num

theorem Inv.hasTask_false (h : p.Inv n) (hpc : p.pc w ≠ .wait) : p.hasTask w = false :=
  Bool.eq_false_iff.mpr fun ht => hpc (h.hasTask w ht).2

theorem Inv.not_mem (h : p.Inv n) (hpc : p.pc w ≠ .wait) : w ∉ p.workers :=
  fun hmem => hpc ((h.mem w).mp hmem).2.1

/-- A worker that is not waiting goes on to another place. -/
theorem Inv.goOn (h : p.Inv n) (hw : w < n) {finished : List Task} {pc : Pc}
    (hpc : p.pc w ≠ .wait) (hpc' : pc ≠ .wait)
    (hplace : ∀ x, (({ p with finished := finished }.goto w pc).held w).count x + finished.count x
      = (p.held w).count x + p.finished.count x) :
    ({ p with finished := finished }.goto w pc).Inv n := by
  have ho : Only w p ({ p with finished := finished }.goto w pc) := by
    refine Only.goto ?_ pc
    exact only_of_eq rfl rfl rfl
  refine h.along ho hw rfl rfl (h.not_mem hpc) ?_ (h.hasTask_false hpc) rfl rfl hplace
  rw [goto_pc]
  exact hpc'

theorem Inv.move (h : p.Inv n) (hm : Move n p p') : p'.Inv n := by
  cases hm with
  | hand cb hws => exact h.hand cb hws
  | enqueue cb hws => exact h.enqueue cb hws
  | @take w hw hpc ht =>
      refine h.along (Only.goto ?_ _) hw rfl rfl ?_ (by simp) ?_ rfl rfl ?_
      · exact ⟨fun _ _ => rfl, fun v hv => Function.update_of_ne hv .., fun _ _ => rfl⟩
      · rw [h.mem]
        simp [ht]
      · exact Function.update_self ..
      · intro x
        simp [held, hpc, ht, Pool.goto]
  | @exitNull w hw hpc hx =>
      refine h.goOn hw (by simp [hpc]) nofun ?_
      intro x
      simp only [held, hpc, goto_pc, List.count_append, List.count_nil]
      omega
  | @check w hw hpc hx =>
      refine h.goOn hw (by simp [hpc]) nofun ?_
      simp [held, hpc, Pool.goto]
  | @call w hw hpc =>
      refine h.goOn hw (by simp [hpc]) nofun ?_
      simp [held, hpc, Pool.goto]
  | @finish w x hw hpc =>
      refine h.goOn hw (by simp [hpc]) nofun ?_
      intro y
      simp only [held, hpc, goto_pc, List.count_append, List.count_nil]
      omega
  | @exitLast w hw hpc hl =>
      refine h.goOn hw (by simp [hpc]) nofun ?_
      simp [held, hpc, Pool.goto]
  | next hw hpc hl hq => exact h.next hw hpc hq
  | @free w hw hpc hl hq =>
      have hmem := h.not_mem (w := w) (by simp [hpc])
      have ht := h.hasTask_false (w := w) (by simp [hpc])
      have ho : Only w p ({ p with workers := w :: p.workers }.goto w .wait) := by
        refine Only.goto ?_ .wait
        exact only_of_eq rfl rfl rfl
      refine h.moveAt ho hw (.inl hq) (h.nodup.cons hmem) ?_ ?_ ?_ h.order ?_ h.num
      · simp [Pool.goto, ht]
      · intro v hv
        simp [Pool.goto, hv]
      · simp
      · intro x
        simp [held, hpc, Pool.goto, ht]
  | last w => exact ⟨h.either, h.nodup, h.mem, h.hasTask, h.order, h.place, h.num⟩

/-- `assignTask` is applied to free workers only. -/
theorem Inv.assigned (h : p.Inv n) (hm : Move n p p') :
    p'.assigned = p.assigned ∨ ∃ x w, p'.assigned = p.assigned ++ [(x, w)] ∧ p.Free n w := by
  cases hm with
  | hand cb hws =>
      refine .inr ⟨_, _, rfl, h.free ?_⟩
      rw [hws]
      exact List.mem_cons_self
  | next hw hpc hl hq => exact .inr ⟨_, _, rfl, hw, h.hasTask_false (by simp [hpc]), .inr hpc⟩
  | _ => exact .inl rfl

end

theorem new_eq (n : ℕ) : new n = { empty with workers := (List.range n).reverse } := by
  induction n with
  | zero => rfl
  | succ n ih =>
      rw [new, List.range_succ, List.foldl_append, ← new, ih, List.reverse_append]
      rfl

theorem new_inv (n : ℕ) : (new n).Inv n := by
  rw [new_eq]
  refine ⟨.inl rfl, ?_, ?_, nofun, rfl, ?_, nofun⟩
  · exact List.nodup_reverse.mpr List.nodup_range
  · intro w
    simp [empty]
  · intro x
    simp [places, held, empty]

end Pool

/-! ## Runs -/

section

variable {n : ℕ} {s s' : State} {l : Act}

theorem stopStep_move (h : stopStep n s = some s') : s'.pool = s.pool ∨ s.pool.Move n s'.pool := by
  unfold stopStep at h
  split at h
  · cases h
  · split at h
    · obtain rfl := Option.some.inj h
      exact .inr (Pool.addTask_move _ _)
    · obtain rfl := Option.some.inj h
      exact .inl rfl
  · split at h
    · split at h
      · obtain rfl := Option.some.inj h
        exact .inl rfl
      · split at h
        · obtain rfl := Option.some.inj h
          exact .inl rfl
        · cases h
    · split at h
      · obtain rfl := Option.some.inj h
        exact .inr (.last _)
      · obtain rfl := Option.some.inj h
        exact .inl rfl
  · cases h

theorem step_move (h : step n s l = some s') : s'.pool = s.pool ∨ s.pool.Move n s'.pool := by
  cases l with
  | addTask caller cb =>
      simp only [step] at h
      split at h
      · obtain rfl := Option.some.inj h
        exact .inr (Pool.addTask_move _ _)
      · cases h
  | worker w =>
      simp only [step] at h
      split at h
      · rename_i hw
        obtain ⟨p, hp, rfl⟩ := Option.map_eq_some_iff.mp h
        exact .inr (Pool.workerStep_move hw.1 hp)
      · cases h
  | stop caller =>
      simp only [step] at h
      split at h
      · split at h
        · obtain rfl := Option.some.inj h
          exact .inl rfl
        · cases h
      · cases h
  | stopStep => exact stopStep_move h

theorem reachable_inv {ok : State → Act → Prop} (h : (machine n).ReachableBy ok s) :
    s.pool.Inv n := by
  refine h.invariant (I := fun s => s.pool.Inv n) ?_ ?_
  · rintro s rfl
    exact Pool.new_inv n
  · intro s l s' hinv _ hs
    rcases step_move hs with heq | hm
    · rw [heq]
      exact hinv
    · exact hinv.move hm

/-- **Dispatching.** Tasks and workers never wait for each other at the
same time; a task is assigned only to a worker that waits or has come
back from its task; every task is in one place; tasks are assigned in the
order in which they were added; no worker that has exited is in
`workers_`. -/
theorem dispatch_invariant (h : (machine n).Reachable s) :
    (s.pool.dispatchQueue = [] ∨ s.pool.workers = [])
      ∧ (∀ l s' x w, step n s l = some s' → s'.pool.assigned = s.pool.assigned ++ [(x, w)] →
          s.pool.hasTask w = false ∧ (s.pool.pc w = .wait ∨ s.pool.pc w = .done))
      ∧ (s.pool.added.Nodup ∧ ∀ x ∈ s.pool.added, s.pool.places n x = 1)
      ∧ s.pool.assigned.map Prod.fst ++ s.pool.dispatchQueue = s.pool.added
      ∧ ∀ w ∈ s.pool.workers, s.pool.pc w ≠ .exited := by
  have hinv := reachable_inv h
  refine ⟨hinv.either, ?_, ⟨hinv.nodup_added, ?_⟩, hinv.order, ?_⟩
  · intro l s' x w hs has
    rcases step_move hs with heq | hm
    · rw [heq] at has
      simp at has
    · rcases hinv.assigned hm with hsame | ⟨y, v, hy, hfree⟩
      · rw [hsame] at has
        simp at has
      · rw [hy, List.append_cancel_left_eq, List.cons.injEq, Prod.mk.injEq] at has
        obtain ⟨⟨-, rfl⟩, -⟩ := has
        exact hfree.2
  · intro x hx
    rw [hinv.place]
    exact List.count_eq_one_of_mem hinv.nodup_added hx
  · intro w hw
    rw [((hinv.mem w).mp hw).2.1]
    nofun

/-- Two workers, three tasks: one runs, one is assigned, one waits. -/
theorem threeTasks_dispatch : ∃ s, (machine 2).Reachable s ∧ s.pool.pc 1 = .run ⟨0, some 7⟩
    ∧ s.pool.hasTask 0 = true ∧ s.pool.dispatchQueue = [⟨2, some 9⟩]
    ∧ (∀ x ∈ s.pool.added, s.pool.places 2 x = 1) := by
  have hrun : ((machine 2).exec (fun _ _ => True) ⟨.new 2, .idle⟩
      [.addTask none (some 7), .addTask none (some 8), .worker 1, .worker 1, .worker 1,
        .addTask (some 1) (some 9)]).any (fun s => s.pool.pc 1 = .run ⟨0, some 7⟩
          && s.pool.hasTask 0 && s.pool.dispatchQueue = [⟨2, some 9⟩]) = true := by
    decide
  obtain ⟨s, hs, hp⟩ := Lts.ReachableBy.exec_any (.init rfl) hrun
  simp only [Bool.and_eq_true, decide_eq_true_eq] at hp
  exact ⟨s, hs, hp.1.1, hp.1.2, hp.2, (dispatch_invariant hs).2.2.1.2⟩

end

end ThreadPool

end HttpServer
