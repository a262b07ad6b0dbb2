import HttpServer.Descriptor
import HttpServer.Lib.Execution

/-!
# Connecting

`Connection::startConnect` and `doConnect` (connection.cpp). A connection
that is not made at once gets a `Descriptor` (io_manager.cpp) with
`doConnect` for its write upcall; `doConnect` puts `doRead` and `doWrite`
in its place. One thread calls `startConnect`, the poll thread delivers
events, and any idle thread takes a task of the worker pool; the other
upcalls are tasks that run without a step here.

A section of a lock is one step, and what a thread does with its outcome
is another one. Once the connection is made the sub-class asks for more
events as it likes (`request`). What the system calls return is fixed
before (`Outcome`).
-/

namespace HttpServer

namespace ConnectionConnect

open Tally
open Descriptor (Side Callback Flags)

abbrev Tid := ℕ

def einprogress : ℕ := 115

def eintr : ℕ := 4

structure Outcome where
  /-- `socket()`, or its `errno`. -/
  socket : Except ℕ ℕ
  /-- The `errno` of `connect()`. -/
  connect : Except ℕ Unit
  /-- `SO_ERROR`. -/
  soError : ℕ
  strerror : ℕ → String

/-- Where a thread is. -/
inductive Pc where
  | idle
  | socket
  | connect
  /-- `acquire()`, and the branch on the result of `connect`. -/
  | acquire
  | newDescriptor
  | writeWhenReady
  /-- Its `addTask`. -/
  | addTask
  | doConnect
  | setUpCalls
  | connDone
  | release
  | delete
  /-- `io_desc_` was `NULL`. -/
  | crashed
deriving DecidableEq, Repr

/-- The upcalls `doConnect`, `doRead` and `doWrite`. -/
def connectUpCall : Callback := 0

def readUpCall : Callback := 1

def writeUpCall : Callback := 2

/-- The upcalls that `startConnect` installs. -/
def connecting : Side → Option Callback
  | .read => none
  | .write => some connectUpCall

/-- The upcalls that `doConnect` installs. -/
def connected : Side → Option Callback
  | .read => some readUpCall
  | .write => some writeUpCall

structure State where
  clientFd : ℤ
  closed : Bool
  inError : Bool
  errorString : String
  refs : ℤ
  ioDesc : Option Flags
  /-- The poll thread has left a section with `schedule_now`. -/
  scheduleNow : Option Side
  /-- The queue of the worker pool. -/
  tasks : List Callback
  pc : Tid → Pc
  /-- The events that were delivered. -/
  events : List Side
  /-- The calls of `connDone()`, and of `acquire()` and `release()` in
  `startConnect` and `doConnect`. -/
  connDones : ℕ
  acquires : ℕ
  releases : ℕ
  /-- The references of others. -/
  external : ℕ
  deleted : Bool

inductive Act where
  | tick (t : Tid)
  /-- The section of `readIfWaiting` or `writeIfWaiting`. -/
  | event (σ : Side)
  /-- The `addTask` of the poll thread. -/
  | schedule
  /-- `readWhenReady` or `writeWhenReady` for the sub-class. -/
  | request (σ : Side)
  | acquire
  | release
deriving DecidableEq

namespace State

def goto (s : State) (t : Tid) (pc : Pc) : State := { s with pc := Function.update s.pc t pc }

theorem goto_pc (s : State) (t : Tid) (pc : Pc) : (s.goto t pc).pc t = pc :=
  Function.update_self ..

/-- `addTask`, unless the upcall is `NULL`. -/
def addTask (s : State) (cb : Option Callback) : State := { s with tasks := s.tasks ++ cb.toList }

/-- The descriptor's upcall. -/
def upCall (s : State) (σ : Side) : Option Callback := s.ioDesc.bind (·.cb σ)

end State

/-- The next step of a thread. -/
def tick (o : Outcome) (s : State) (t : Tid) : Option State :=
  match s.pc t with
  | .idle =>
      match s.tasks with
      | [] => none
      | cb :: tasks =>
          let s := { s with tasks }
          some (if cb = connectUpCall then s.goto t .doConnect else s)
  | .socket =>
      match o.socket with
      | .ok fd => some ({ s with clientFd := fd }.goto t .connect)
      | .error errno =>
          some ({ s with
            clientFd := -1
            errorString := s.errorString ++ "Socket failed: " ++ o.strerror errno
            inError := true }.goto t .idle)
  | .connect => some (s.goto t .acquire)
  | .acquire =>
      let s := { s with refs := s.refs + 1, acquires := s.acquires + 1 }
      match o.connect with
      | .ok _ => some (s.goto t .doConnect)
      | .error errno =>
          if errno ≠ einprogress ∧ errno ≠ eintr then
            some ({ s with
              clientFd := -1
              errorString := s.errorString ++ "Connect failed: " ++ o.strerror errno
              inError := true }.goto t .doConnect)
          else some (s.goto t .newDescriptor)
  | .newDescriptor =>
      some ({ s with ioDesc := some (Descriptor.descriptor connecting) }.goto t .writeWhenReady)
  | .writeWhenReady => s.ioDesc.map fun d =>
      let (d, now) := d.writeWhenReady
      { s with ioDesc := some d }.goto t (if now then .addTask else .idle)
  | .addTask => some ((s.addTask (s.upCall .write)).goto t .idle)
  | .doConnect =>
      if s.inError then some (s.goto t .connDone)
      else if o.soError ≠ 0 then
        some ({ s with
          errorString := s.errorString ++ "Connect failed" ++ o.strerror o.soError
          inError := true }.goto t .connDone)
      else some ({ s with closed := false }.goto t .setUpCalls)
  | .setUpCalls =>
      match s.ioDesc with
      | none => some (s.goto t .crashed)
      | some d => some ({ s with ioDesc := some { d with cb := connected } }.goto t .connDone)
  | .connDone => some ({ s with connDones := s.connDones + 1 }.goto t .release)
  | .release =>
      let s := { s with refs := s.refs - 1, releases := s.releases + 1 }
      some (s.goto t (if s.refs = 0 then .delete else .idle))
  | .delete => some ({ s with deleted := true }.goto t .idle)
  | .crashed => none

/-- The sub-class is using a connection that was made. -/
def State.inUse (s : State) : Bool := 0 < s.connDones && !s.closed && !s.deleted

def step (o : Outcome) (s : State) : Act → Option State
  | .tick t => tick o s t
  | .event σ =>
      match s.ioDesc, s.scheduleNow with
      | some d, none =>
          let (d, now) := d.call σ .event
          if s.deleted then none
          else some { s with
            ioDesc := some d
            scheduleNow := if now then some σ else none
            events := σ :: s.events }
      | _, _ => none
  | .schedule => s.scheduleNow.map fun σ => { s with scheduleNow := none }.addTask (s.upCall σ)
  | .request σ =>
      match s.ioDesc with
      | some d =>
          let (d, now) := d.call σ .request
          if s.inUse then
            some ({ s with ioDesc := some d }.addTask (if now then d.cb σ else none))
          else none
      | none => none
  | .acquire =>
      if 0 < s.refs ∨ s.acquires = 0 then
        some { s with refs := s.refs + 1, external := s.external + 1 }
      else none
  | .release =>
      if 0 < s.external then
        some { s with
          refs := s.refs - 1
          external := s.external - 1
          deleted := s.deleted || s.refs - 1 = 0 }
      else none

/-- The constructor has run, and a thread is in `startConnect`. -/
structure Init (s : State) : Prop where
  pc : ∃ t, s.pc = Function.update (fun _ => .idle) t .socket
  state : s.closed = true ∧ s.inError = false ∧ s.ioDesc = none ∧ s.scheduleNow = none
    ∧ s.tasks = [] ∧ s.events = []
  calls : s.connDones = 0 ∧ s.acquires = 0 ∧ s.releases = 0
  refs : s.refs = s.external ∧ s.deleted = false

def machine (o : Outcome) : Lts State Act := ⟨Init, step o⟩

/-! ## Who calls `doConnect` -/

namespace Pc

/-- Before `acquire()`. -/
def starts : Pc → Bool
  | .socket | .connect | .acquire => true
  | _ => false

/-- On the way to `connDone()`. -/
def owes : Pc → Bool
  | .socket | .connect | .acquire | .newDescriptor | .writeWhenReady | .addTask | .doConnect
  | .setUpCalls | .connDone => true
  | _ => false

/-- Between `acquire()` and `release()`. -/
def holds : Pc → Bool
  | .newDescriptor | .writeWhenReady | .addTask | .doConnect | .setUpCalls | .connDone
  | .release => true
  | _ => false

end Pc

/-- The descriptor waits for the event that makes `doConnect` a task. -/
def armed (s : State) : ℕ :=
  match s.ioDesc with
  | some d => (d.waiting .write && decide (d.cb .write = some connectUpCall)).toNat
  | none => 0

/-- The poll thread is about to add that task. -/
def scheduled (s : State) : ℕ :=
  (decide (s.scheduleNow = some .write) && decide (s.upCall .write = some connectUpCall)).toNat

/-- The calls of `doConnect` that no thread has begun. -/
def token (s : State) : ℕ := armed s + scheduled s + s.tasks.count connectUpCall

def Outcome.pending (o : Outcome) : Bool :=
  match o.connect with
  | .ok _ => false
  | .error errno => errno = einprogress || errno = eintr

/-- `socket()` succeeds, and `connect()` does not succeed at once. -/
structure Normal (o : Outcome) : Prop where
  socket : ∃ fd, o.socket = .ok fd
  connect : o.connect = .ok () → o.soError ≠ 0

structure Desc (o : Outcome) (s : State) : Prop where
  without : s.ioDesc = none →
    s.closed = true ∧ s.scheduleNow = none ∧ s.tasks = [] ∧ s.events = []
  pending : s.ioDesc ≠ none → o.pending = true
  read : s.upCall .read ≠ some connectUpCall
  /-- The upcalls of an open connection are those that `doConnect` installs,
  or about to be. -/
  opened : s.closed = false → s.upCall .write = some connectUpCall → ∃ t, s.pc t = .setUpCalls
  events : .write ∈ s.events → armed s = 0

/-- What holds at a place in the code. -/
def Place (o : Outcome) (s : State) : Pc → Prop
  | .socket | .connect | .acquire => s.ioDesc = none
  | .newDescriptor => s.ioDesc = none ∧ o.pending = true
  | .writeWhenReady => ∃ d, s.ioDesc = some d ∧ d.cb .write = some connectUpCall
      ∧ (.write ∈ s.events → d.can .write = true)
  | .addTask => s.upCall .write = some connectUpCall
  | .doConnect => s.ioDesc = none → s.inError = true ∨ o.soError ≠ 0
  | .setUpCalls => s.ioDesc ≠ none
  | _ => True

/-- There is one call of `doConnect`: a thread is on the way to it or in
it, or it is in the descriptor or in the queue, or it has been made. -/
structure Inv (o : Outcome) (s : State) : Prop where
  starts : ∃ m, Pending Pc.starts s.pc m ∧ m + s.acquires = 1
  owes : ∃ m, Pending Pc.owes s.pc m ∧ m + token s + s.connDones = 1
  holds : ∃ m, Pending Pc.holds s.pc m ∧ m + token s + s.releases = s.acquires
  desc : Desc o s
  place : ∀ t, Place o s (s.pc t)

section

variable {o : Outcome} {s s' : State} {t u : Tid} {pc : Pc}

theorem Place.of_not_owes (h : pc.owes = false) : Place o s pc := by
  cases pc <;> trivial

theorem Place.congr (hd : s'.ioDesc = s.ioDesc) (herr : s'.inError = s.inError)
    (he : s'.events = s.events) (h : Place o s pc) : Place o s' pc := by
  cases pc with
  | socket | connect | acquire | newDescriptor | setUpCalls =>
      rw [Place, hd]
      exact h
  | addTask =>
      rw [Place, State.upCall, hd]
      exact h
  | writeWhenReady =>
      rw [Place, hd, he]
      exact h
  | doConnect =>
      rw [Place, hd, herr]
      exact h
  | _ => trivial

theorem Inv.unique (h : Inv o s) (ht : (s.pc t).owes = true) (hu : (s.pc u).owes = true) :
    t = u := by
  obtain ⟨m, hm, hsum⟩ := h.owes
  exact hm.unique (by omega) ht hu

/-- While a thread is on the way to `connDone()` nothing else is. -/
theorem Inv.alone (h : Inv o s) (ht : (s.pc t).owes = true) :
    armed s = 0 ∧ scheduled s = 0 ∧ s.tasks.count connectUpCall = 0 ∧ s.connDones = 0 := by
  obtain ⟨m, hm, hsum⟩ := h.owes
  have hpos := hm.pos ht
  unfold token at hsum
  omega

theorem Inv.not_owes (h : Inv o s) (hd : 0 < s.connDones) (t : Tid) : (s.pc t).owes = false := by
  rw [Bool.eq_false_iff]
  intro ht
  have := (h.alone ht).2.2.2
  omega

theorem token_congr (hd : s'.ioDesc = s.ioDesc) (hn : s'.scheduleNow = s.scheduleNow)
    (ht : s'.tasks = s.tasks) : token s' = token s := by
  unfold token armed scheduled State.upCall
  rw [hd, hn, ht]

theorem token_some {d : Flags} (hd : s.ioDesc = some d) :
    token s = (d.waiting .write && decide (d.cb .write = some connectUpCall)).toNat
      + (decide (s.scheduleNow = some .write) && decide (d.cb .write = some connectUpCall)).toNat
      + s.tasks.count connectUpCall := by
  rw [token, armed, scheduled, State.upCall, hd]
  rfl

theorem armed_some {d : Flags} (hd : s.ioDesc = some d) (hcb : d.cb .write = some connectUpCall) :
    armed s = (d.waiting .write).toNat := by
  rw [armed, hd]
  simp [hcb]

/-- While a thread has the call the descriptor does not wait. -/
theorem Inv.not_waiting (h : Inv o s) (ht : (s.pc t).owes = true) {d : Flags}
    (hd : s.ioDesc = some d) (hcb : d.cb .write = some connectUpCall) :
    d.waiting .write = false := by
  have harmed := (h.alone ht).1
  rw [armed_some hd hcb] at harmed
  simpa using harmed

/-- The connection is closed until the upcalls are replaced. -/
theorem Inv.closed (h : Inv o s) (ht : (s.pc t).owes = true) (hne : s.pc t ≠ .setUpCalls)
    (hcb : s.upCall .write = some connectUpCall) : s.closed = true := by
  rw [← Bool.not_eq_false]
  intro hclosed
  obtain ⟨u, hu⟩ := h.desc.opened hclosed hcb
  obtain rfl := h.unique ht (by rw [hu]; rfl)
  exact hne hu

/-- A thread goes from one place to another. -/
theorem Inv.move (h : Inv o s) (hpc : s'.pc = Function.update s.pc t pc)
    (hstarts : pc.starts.toNat + s'.acquires = (s.pc t).starts.toNat + s.acquires)
    (howes : pc.owes.toNat + token s' + s'.connDones
      = (s.pc t).owes.toNat + token s + s.connDones)
    (hholds : pc.holds.toNat + token s' + s'.releases + s.acquires
      = (s.pc t).holds.toNat + token s + s.releases + s'.acquires)
    (hdesc : Desc o s') (hplace : Place o s' pc)
    (hothers : (s.pc t).owes = true ∨ ∀ pc, Place o s pc → Place o s' pc) : Inv o s' := by
  obtain ⟨m₁, hm₁, hsum₁⟩ := h.starts
  obtain ⟨m₂, hm₂, hsum₂⟩ := h.owes
  obtain ⟨m₃, hm₃, hsum₃⟩ := h.holds
  obtain ⟨k₁, hk₁, hup₁⟩ := hm₁.update t pc
  obtain ⟨k₂, hk₂, hup₂⟩ := hm₂.update t pc
  obtain ⟨k₃, hk₃, hup₃⟩ := hm₃.update t pc
  rw [← hpc] at hk₁ hk₂ hk₃
  refine ⟨⟨k₁, hk₁, by omega⟩, ⟨k₂, hk₂, by omega⟩, ⟨k₃, hk₃, by omega⟩, hdesc, fun u => ?_⟩
  rw [hpc]
  by_cases hut : u = t
  · rw [hut, Function.update_self]
    exact hplace
  · rw [Function.update_of_ne hut]
    rcases hothers with ht | hothers
    · refine Place.of_not_owes (Bool.eq_false_iff.mpr fun hu => hut ?_)
      exact h.unique hu ht
    · exact hothers _ (h.place u)

/-- ... with the call as it was. -/
theorem Inv.carry {pc₀ : Pc} (h : Inv o s) (hat : s.pc t = pc₀)
    (hpc : s'.pc = Function.update s.pc t pc) (htoken : token s' = token s)
    (hcalls : s'.connDones = s.connDones ∧ s'.acquires = s.acquires ∧ s'.releases = s.releases)
    (hkind : pc.starts = pc₀.starts ∧ pc.owes = pc₀.owes ∧ pc.holds = pc₀.holds)
    (hdesc : Desc o s') (hplace : Place o s' pc)
    (hothers : pc₀.owes = true ∨ ∀ pc, Place o s pc → Place o s' pc) : Inv o s' := by
  subst hat
  obtain ⟨hdones, hacquires, hreleases⟩ := hcalls
  obtain ⟨hstarts, howes, hholds⟩ := hkind
  refine h.move hpc ?_ ?_ ?_ hdesc hplace hothers
  · rw [hstarts, hacquires]
  · rw [howes, htoken, hdones]
  · rw [hholds, htoken, hacquires, hreleases]

/-- ... which leaves the call to the descriptor or to the queue. -/
theorem Inv.handOver {pc₀ : Pc} (h : Inv o s) (hat : s.pc t = pc₀)
    (hpc : s'.pc = Function.update s.pc t .idle) (htoken : token s' = token s + 1)
    (hcalls : s'.connDones = s.connDones ∧ s'.acquires = s.acquires ∧ s'.releases = s.releases)
    (hkind : pc₀.starts = false ∧ pc₀.owes = true ∧ pc₀.holds = true) (hdesc : Desc o s') :
    Inv o s' := by
  subst hat
  obtain ⟨hdones, hacquires, hreleases⟩ := hcalls
  obtain ⟨hstarts, howes, hholds⟩ := hkind
  refine h.move hpc ?_ ?_ ?_ hdesc trivial (.inl howes)
  · rw [hstarts, hacquires]
    rfl
  · rw [howes, htoken, hdones]
    show 0 + (token s + 1) + s.connDones = 1 + token s + s.connDones
    omega
  · rw [hholds, htoken, hacquires, hreleases]
    show 0 + (token s + 1) + s.releases + s.acquires = 1 + token s + s.releases + s.acquires
    omega

/-- A step that moves no thread, and moves the call at most. -/
theorem Inv.stay (h : Inv o s) (hpc : s'.pc = s.pc) (htoken : token s' = token s)
    (hcalls : s'.connDones = s.connDones ∧ s'.acquires = s.acquires ∧ s'.releases = s.releases)
    (hdesc : Desc o s') (hplace : ∀ t, Place o s (s.pc t) → Place o s' (s.pc t)) : Inv o s' := by
  obtain ⟨hdones, hacquires, hreleases⟩ := hcalls
  refine ⟨?_, ?_, ?_, hdesc, fun t => ?_⟩
  · rw [hpc, hacquires]
    exact h.starts
  · rw [hpc, htoken, hdones]
    exact h.owes
  · rw [hpc, htoken, hacquires, hreleases]
    exact h.holds
  · rw [hpc]
    exact hplace t (h.place t)

theorem Desc.quiet (h : Desc o s) (hnone : s.ioDesc = none) :
    s.scheduleNow = none ∧ s.tasks = [] :=
  (h.without hnone).2.imp_right And.left

/-- A step that leaves the descriptor alone. -/
theorem Desc.congr (h : Desc o s) (hd : s'.ioDesc = s.ioDesc) (hc : s'.closed = s.closed)
    (he : s'.events = s.events) (hq : s.ioDesc = none → s'.scheduleNow = none ∧ s'.tasks = [])
    (hpc : ∀ u, s.pc u = .setUpCalls → s'.pc u = .setUpCalls) : Desc o s' := by
  have hup : ∀ σ, s'.upCall σ = s.upCall σ := fun σ => by rw [State.upCall, hd]; rfl
  have harm : armed s' = armed s := by rw [armed, hd]; rfl
  refine ⟨?_, ?_, ?_, ?_, ?_⟩
  · rw [hd, hc, he]
    exact fun hnone => ⟨(h.without hnone).1, (hq hnone).1, (hq hnone).2, (h.without hnone).2.2.2⟩
  · rw [hd]
    exact h.pending
  · rw [hup]
    exact h.read
  · rw [hc, hup]
    intro hclosed hcb
    obtain ⟨u, hu⟩ := h.opened hclosed hcb
    exact ⟨u, hpc u hu⟩
  · rw [he, harm]
    exact h.events

theorem setUpCalls_goto (hne : s.pc t ≠ .setUpCalls) (u : Tid) (hu : s.pc u = .setUpCalls) :
    (s.goto t pc).pc u = .setUpCalls := by
  have hut : u ≠ t := by
    rintro rfl
    exact hne hu
  exact (Function.update_of_ne hut ..).trans hu

/-! ## Steps -/

/-- A thread goes on, and leaves the descriptor and the queue alone. -/
theorem Inv.goto {pc₀ : Pc} (h : Inv o s) (hat : s.pc t = pc₀) (hne : pc₀ ≠ .setUpCalls)
    (hkind : pc.starts = pc₀.starts ∧ pc.owes = pc₀.owes ∧ pc.holds = pc₀.holds)
    (hplace : Place o s pc) : Inv o (s.goto t pc) := by
  subst hat
  refine h.carry rfl rfl (token_congr rfl rfl rfl) ⟨rfl, rfl, rfl⟩ hkind ?_ ?_
    (.inr fun pc hp => ?_)
  · exact h.desc.congr rfl rfl rfl h.desc.quiet (setUpCalls_goto hne)
  · exact hplace.congr rfl rfl rfl
  · exact hp.congr rfl rfl rfl

/-- The socket and the error are known to nobody else. -/
theorem Inv.report (h : Inv o s) (fd : ℤ) (text : String) (inError : Bool)
    (herr : s.inError = true → inError = true) :
    Inv o { s with clientFd := fd, errorString := text, inError := inError } := by
  refine h.stay rfl (token_congr rfl rfl rfl) ⟨rfl, rfl, rfl⟩ ?_ fun t hp => ?_
  · exact h.desc.congr rfl rfl rfl h.desc.quiet fun _ hu => hu
  · cases hpc : s.pc t with
    | doConnect =>
        rw [hpc] at hp
        exact fun hnone => (hp hnone).imp_left herr
    | _ =>
        rw [hpc] at hp
        exact hp

theorem Inv.idle (h : Inv o s) (hpc : s.pc t = .idle) {cb : Callback} {tasks : List Callback}
    (htasks : s.tasks = cb :: tasks) :
    Inv o (if cb = connectUpCall then { s with tasks := tasks }.goto t .doConnect
      else { s with tasks := tasks }) := by
  have hsome : s.ioDesc ≠ none := fun hnone => by
    have hempty := (h.desc.without hnone).2.2.1
    rw [htasks] at hempty
    cases hempty
  have hcount : s.tasks.count connectUpCall
      = tasks.count connectUpCall + if cb = connectUpCall then 1 else 0 := by
    rw [htasks, List.count_cons]
    simp
  by_cases hcb : cb = connectUpCall
  · rw [if_pos hcb] at hcount ⊢
    have htoken : token ({ s with tasks := tasks }.goto t .doConnect) + 1 = token s := by
      show armed s + scheduled s + tasks.count connectUpCall + 1 = _
      rw [token, hcount]
      rfl
    refine h.move rfl ?_ ?_ ?_ ?_ (fun hnone => absurd hnone hsome) (.inr fun pc hp => ?_)
    · rw [hpc]
      rfl
    · rw [hpc, ← htoken]
      show 1 + _ + s.connDones = 0 + _ + s.connDones
      omega
    · rw [hpc, ← htoken]
      show 1 + _ + s.releases + s.acquires = 0 + _ + s.releases + s.acquires
      omega
    · exact h.desc.congr rfl rfl rfl (fun hnone => absurd hnone hsome)
        (setUpCalls_goto (s := { s with tasks := tasks }) (by rw [hpc]; nofun))
    · exact hp.congr rfl rfl rfl
  · rw [if_neg hcb] at hcount ⊢
    refine h.stay rfl ?_ ⟨rfl, rfl, rfl⟩ ?_ fun t hp => ?_
    · show armed s + scheduled s + tasks.count connectUpCall = _
      rw [token, hcount]
      rfl
    · exact h.desc.congr rfl rfl rfl (fun hnone => absurd hnone hsome) fun _ hu => hu
    · exact hp.congr rfl rfl rfl

/-- `acquire()` in `startConnect`. -/
theorem Inv.acquire (h : Inv o s) (hpc : s.pc t = .acquire) (hstarts : pc.starts = false)
    (howes : pc.owes = true) (hholds : pc.holds = true) (hplace : Place o s pc) :
    Inv o ({ s with refs := s.refs + 1, acquires := s.acquires + 1 }.goto t pc) := by
  have htoken : token ({ s with refs := s.refs + 1, acquires := s.acquires + 1 }.goto t pc)
      = token s := token_congr rfl rfl rfl
  refine h.move rfl ?_ ?_ ?_ ?_ ?_ (.inl (by rw [hpc]; rfl))
  · rw [hpc, hstarts]
    show 0 + (s.acquires + 1) = 1 + s.acquires
    omega
  · rw [hpc, howes, htoken]
    rfl
  · rw [hpc, hholds, htoken]
    show 1 + token s + s.releases + s.acquires = 0 + token s + s.releases + (s.acquires + 1)
    omega
  · exact h.desc.congr rfl rfl rfl h.desc.quiet (setUpCalls_goto (by rw [hpc]; nofun))
  · exact hplace.congr rfl rfl rfl

theorem Inv.newDescriptor (h : Inv o s) (hpc : s.pc t = .newDescriptor) :
    Inv o ({ s with ioDesc := some (Descriptor.descriptor connecting) }.goto t
      .writeWhenReady) := by
  have hplace := h.place t
  rw [hpc] at hplace
  obtain ⟨hnone, hpending⟩ := hplace
  obtain ⟨hclosed, hnow, htasks, hevents⟩ := h.desc.without hnone
  have htoken : token ({ s with ioDesc := some (Descriptor.descriptor connecting) }.goto t
      .writeWhenReady) = token s := by
    simp [token, armed, scheduled, State.goto, Descriptor.descriptor, hnone, hnow]
  refine h.carry hpc rfl htoken ⟨rfl, rfl, rfl⟩ ⟨rfl, rfl, rfl⟩
    ⟨nofun, fun _ => hpending, nofun, ?_, ?_⟩ ⟨_, rfl, rfl, ?_⟩ (.inl rfl)
  · intro hopen
    rw [show s.closed = false from hopen] at hclosed
    cases hclosed
  · exact fun _ => rfl
  · intro hmem
    have hmem : Side.write ∈ s.events := hmem
    rw [hevents] at hmem
    cases hmem

/-- The request of `startConnect` meets an event, or is kept. -/
theorem Inv.writeWhenReady (h : Inv o s) (hpc : s.pc t = .writeWhenReady) {d : Flags}
    (hd : s.ioDesc = some d) : Inv o ({ s with ioDesc := some d.writeWhenReady.1 }.goto t
      (if d.writeWhenReady.2 then .addTask else .idle)) := by
  have howes : (s.pc t).owes = true := by rw [hpc]; rfl
  have hplace := h.place t
  rw [hpc] at hplace
  obtain ⟨d', hd', hcb, hevents⟩ := hplace
  obtain rfl := Option.some.inj (hd.symm.trans hd')
  have hsome : s.ioDesc ≠ none := by rw [hd]; nofun
  have hopen : s.closed = true :=
    h.closed howes (by rw [hpc]; nofun) (by rw [State.upCall, hd]; exact hcb)
  have hwait := h.not_waiting howes hd hcb
  have hread : d.cb .read ≠ some connectUpCall := by
    have hread := h.desc.read
    rw [State.upCall, hd] at hread
    exact hread
  cases hcan : d.can .write with
  | true =>
      have hready : d.writeWhenReady
          = ({ d with can := Function.update d.can .write false }, true) := if_pos hcan
      rw [hready]
      have htoken : token ({ s with
          ioDesc := some { d with can := Function.update d.can .write false } }.goto t .addTask)
          = token s := by
        rw [token_some hd, token_some rfl]
        rfl
      refine h.carry hpc rfl htoken ⟨rfl, rfl, rfl⟩ ⟨rfl, rfl, rfl⟩
        ⟨nofun, fun _ => h.desc.pending hsome, hread, fun hclosed => ?_, fun _ => ?_⟩ hcb
        (.inl rfl)
      · rw [show s.closed = false from hclosed] at hopen
        cases hopen
      · show (d.waiting .write && _).toNat = 0
        rw [hwait]
        rfl
  | false =>
      have hready : d.writeWhenReady
          = ({ d with waiting := Function.update d.waiting .write true }, false) :=
        if_neg (by rw [hcan]; nofun)
      rw [hready]
      have htoken : token ({ s with
          ioDesc := some { d with waiting := Function.update d.waiting .write true } }.goto t .idle)
          = token s + 1 := by
        have hsum : ∀ a b, (true && decide (d.cb .write = some connectUpCall)).toNat + a + b
            = (false && decide (d.cb .write = some connectUpCall)).toNat + a + b + 1 := by
          intro a b
          rw [decide_eq_true hcb, Bool.true_and, Bool.false_and, Bool.toNat_true, Bool.toNat_false]
          omega
        rw [token_some hd, token_some rfl, hwait]
        exact hsum _ _
      refine h.handOver hpc rfl htoken ⟨rfl, rfl, rfl⟩ ⟨rfl, rfl, rfl⟩
        ⟨nofun, fun _ => h.desc.pending hsome, hread, fun hclosed => ?_, fun hmem => ?_⟩
      · rw [show s.closed = false from hclosed] at hopen
        cases hopen
      · rw [hevents hmem] at hcan
        cases hcan

theorem Inv.addTask (h : Inv o s) (hpc : s.pc t = .addTask) :
    Inv o ((s.addTask (s.upCall .write)).goto t .idle) := by
  have hup : s.upCall .write = some connectUpCall := by
    have hplace := h.place t
    rw [hpc] at hplace
    exact hplace
  have hsome : s.ioDesc ≠ none := fun hnone => by
    rw [State.upCall, hnone] at hup
    cases hup
  rw [hup]
  have htoken : token ((s.addTask (some connectUpCall)).goto t .idle) = token s + 1 := by
    show armed s + scheduled s + (s.tasks ++ [connectUpCall]).count connectUpCall = _
    rw [List.count_append, List.count_singleton_self]
    rfl
  have hne : (s.addTask (some connectUpCall)).pc t ≠ .setUpCalls := by
    show s.pc t ≠ _
    rw [hpc]
    nofun
  exact h.handOver hpc rfl htoken ⟨rfl, rfl, rfl⟩ ⟨rfl, rfl, rfl⟩
    (h.desc.congr rfl rfl rfl (fun hnone => absurd hnone hsome) (setUpCalls_goto hne))

/-- `SO_ERROR` is 0. -/
theorem Inv.opens (h : Inv o s) (hpc : s.pc t = .doConnect) (herr : s.inError = false)
    (hso : o.soError = 0) : Inv o ({ s with closed := false }.goto t .setUpCalls) := by
  have hplace := h.place t
  rw [hpc] at hplace
  have hsome : s.ioDesc ≠ none := fun hnone => by
    rcases hplace hnone with h | h
    · rw [herr] at h
      cases h
    · exact h hso
  have htoken : token ({ s with closed := false }.goto t .setUpCalls) = token s :=
    token_congr rfl rfl rfl
  exact h.carry hpc rfl htoken ⟨rfl, rfl, rfl⟩ ⟨rfl, rfl, rfl⟩
    ⟨fun hnone => absurd hnone hsome, h.desc.pending, h.desc.read,
      fun _ _ => ⟨t, Function.update_self ..⟩, h.desc.events⟩
    hsome (.inl rfl)

theorem Inv.setUpCalls (h : Inv o s) (hpc : s.pc t = .setUpCalls) {d : Flags}
    (hd : s.ioDesc = some d) :
    Inv o ({ s with ioDesc := some { d with cb := connected } }.goto t .connDone) := by
  have howes : (s.pc t).owes = true := by rw [hpc]; rfl
  obtain ⟨harmed, hscheduled, -, -⟩ := h.alone howes
  have htoken : token ({ s with ioDesc := some { d with cb := connected } }.goto t .connDone)
      = token s := by
    rw [token, token, harmed, hscheduled]
    simp [armed, scheduled, State.goto, State.upCall, connected, writeUpCall, connectUpCall]
  refine h.carry hpc rfl htoken ⟨rfl, rfl, rfl⟩ ⟨rfl, rfl, rfl⟩
    ⟨nofun, fun _ => h.desc.pending (by rw [hd]; nofun), nofun, nofun, fun _ => ?_⟩ trivial
    (.inl rfl)
  simp [armed, State.goto, connected, writeUpCall, connectUpCall]

/-- The three steps behind the upcalls. -/
theorem Inv.connDone (h : Inv o s) (hpc : s.pc t = .connDone) :
    Inv o ({ s with connDones := s.connDones + 1 }.goto t .release) := by
  have htoken : token ({ s with connDones := s.connDones + 1 }.goto t .release) = token s :=
    token_congr rfl rfl rfl
  refine h.move rfl ?_ ?_ ?_ ?_ trivial (.inl (by rw [hpc]; rfl))
  · rw [hpc]
    rfl
  · rw [hpc]
    show 0 + token _ + (s.connDones + 1) = 1 + token s + s.connDones
    rw [htoken]
    omega
  · rw [hpc]
    exact congrArg (1 + · + s.releases + s.acquires) htoken
  · exact h.desc.congr rfl rfl rfl h.desc.quiet (setUpCalls_goto (by rw [hpc]; nofun))

theorem Inv.release (h : Inv o s) (hpc : s.pc t = .release) (hstarts : pc.starts = false)
    (howes : pc.owes = false) (hholds : pc.holds = false) :
    Inv o ({ s with refs := s.refs - 1, releases := s.releases + 1 }.goto t pc) := by
  have htoken : token ({ s with refs := s.refs - 1, releases := s.releases + 1 }.goto t pc)
      = token s := token_congr rfl rfl rfl
  refine h.move rfl ?_ ?_ ?_ ?_ (Place.of_not_owes howes) (.inr fun pc hp => ?_)
  · rw [hpc, hstarts]
    rfl
  · rw [hpc, howes]
    exact congrArg (0 + · + s.connDones) htoken
  · rw [hpc, hholds]
    show 0 + token _ + (s.releases + 1) + s.acquires = 1 + token s + s.releases + s.acquires
    rw [htoken]
    omega
  · exact h.desc.congr rfl rfl rfl h.desc.quiet (setUpCalls_goto (by rw [hpc]; nofun))
  · exact hp.congr rfl rfl rfl

theorem Inv.doConnect (h : Inv o s) (hpc : s.pc t = .doConnect) (hs : tick o s t = some s') :
    Inv o s' := by
  rw [tick, hpc] at hs
  by_cases herr : s.inError = true
  · obtain rfl := Option.some.inj ((if_pos herr).symm.trans hs)
    exact h.goto hpc nofun ⟨rfl, rfl, rfl⟩ trivial
  · replace hs := (if_neg herr).symm.trans hs
    by_cases hso : o.soError = 0
    · obtain rfl := Option.some.inj ((if_neg (not_not.mpr hso)).symm.trans hs)
      exact h.opens hpc (Bool.eq_false_iff.mpr herr) hso
    · obtain rfl := Option.some.inj ((if_pos hso).symm.trans hs)
      exact (h.report s.clientFd _ true fun _ => rfl).goto hpc nofun ⟨rfl, rfl, rfl⟩ trivial

theorem Inv.connects (hn : Normal o) (h : Inv o s) (hpc : s.pc t = .acquire)
    (hs : tick o s t = some s') : Inv o s' := by
  have hplace := h.place t
  rw [hpc] at hplace
  rw [tick, hpc] at hs
  cases hc : o.connect with
  | ok u =>
      rw [hc] at hs
      obtain rfl := Option.some.inj hs
      exact h.acquire hpc rfl rfl rfl fun _ => .inr (hn.connect hc)
  | error errno =>
      rw [hc] at hs
      by_cases hfail : errno ≠ einprogress ∧ errno ≠ eintr
      · simp only [hfail, ne_eq, not_false_eq_true, and_self, if_true] at hs
        obtain rfl := Option.some.inj hs
        exact (h.report (-1) _ true fun _ => rfl).acquire hpc rfl rfl rfl fun _ => .inl rfl
      · simp only [if_neg hfail] at hs
        obtain rfl := Option.some.inj hs
        refine h.acquire hpc rfl rfl rfl ⟨hplace, ?_⟩
        rw [Outcome.pending, hc]
        by_contra hno
        simp only [Bool.or_eq_true, decide_eq_true_eq, not_or] at hno
        exact hfail hno

theorem Inv.tick (hn : Normal o) (h : Inv o s) (hs : tick o s t = some s') : Inv o s' := by
  have hplace := h.place t
  cases hpc : s.pc t with
  | idle =>
      rw [ConnectionConnect.tick, hpc] at hs
      cases htasks : s.tasks with
      | nil =>
          rw [htasks] at hs
          cases hs
      | cons cb tasks =>
          rw [htasks] at hs
          obtain rfl := Option.some.inj hs
          exact h.idle hpc htasks
  | socket =>
      obtain ⟨fd, hfd⟩ := hn.socket
      rw [ConnectionConnect.tick, hpc, hfd] at hs
      obtain rfl := Option.some.inj hs
      rw [hpc] at hplace
      exact (h.report fd s.errorString s.inError id).goto hpc nofun ⟨rfl, rfl, rfl⟩ hplace
  | connect =>
      rw [ConnectionConnect.tick, hpc] at hs
      obtain rfl := Option.some.inj hs
      rw [hpc] at hplace
      exact h.goto hpc nofun ⟨rfl, rfl, rfl⟩ hplace
  | acquire => exact h.connects hn hpc hs
  | newDescriptor =>
      rw [ConnectionConnect.tick, hpc] at hs
      obtain rfl := Option.some.inj hs
      exact h.newDescriptor hpc
  | writeWhenReady =>
      rw [ConnectionConnect.tick, hpc] at hs
      obtain ⟨d, hd, rfl⟩ := Option.map_eq_some_iff.mp hs
      exact h.writeWhenReady hpc hd
  | addTask =>
      rw [ConnectionConnect.tick, hpc] at hs
      obtain rfl := Option.some.inj hs
      exact h.addTask hpc
  | doConnect => exact h.doConnect hpc hs
  | setUpCalls =>
      rw [hpc] at hplace
      obtain ⟨d, hd⟩ := Option.ne_none_iff_exists'.mp hplace
      rw [ConnectionConnect.tick, hpc] at hs
      simp only [hd] at hs
      obtain rfl := Option.some.inj hs
      exact h.setUpCalls hpc hd
  | connDone =>
      rw [ConnectionConnect.tick, hpc] at hs
      obtain rfl := Option.some.inj hs
      exact h.connDone hpc
  | release =>
      rw [ConnectionConnect.tick, hpc] at hs
      obtain rfl := Option.some.inj hs
      refine h.release hpc ?_ ?_ ?_ <;> split <;> rfl
  | delete =>
      rw [ConnectionConnect.tick, hpc] at hs
      obtain rfl := Option.some.inj hs
      have hdeleted : Inv o { s with deleted := true } :=
        h.stay rfl (token_congr rfl rfl rfl) ⟨rfl, rfl, rfl⟩
          (h.desc.congr rfl rfl rfl h.desc.quiet fun _ hu => hu)
          fun t hp => hp.congr rfl rfl rfl
      exact hdeleted.goto hpc nofun ⟨rfl, rfl, rfl⟩ trivial
  | crashed =>
      rw [ConnectionConnect.tick, hpc] at hs
      cases hs

theorem writeIfWaiting_spec (d : Flags) : (d.call .write .event).2 = d.waiting .write
    ∧ (d.call .write .event).1.waiting .write = false
    ∧ (d.call .write .event).1.can .write = (d.can .write || !d.waiting .write) := by
  have h : (d.call .write .event).2 = d.kept .write .request
      ∧ (d.call .write .event).1.kept .write .request = false
      ∧ (d.call .write .event).1.kept .write .event
        = (d.kept .write .event || !d.kept .write .request) := Flags.call_kept
  exact h

/-- The event that `doConnect` waits for makes it a task. -/
theorem token_event {d : Flags} (hd : s.ioDesc = some d) (hnow : s.scheduleNow = none) (σ : Side) :
    token { s with
      ioDesc := some (d.call σ .event).1
      scheduleNow := if (d.call σ .event).2 then some σ else none
      events := σ :: s.events } = token s := by
  rw [token_some hd, token_some rfl, Flags.call_cb, hnow]
  cases σ with
  | read =>
      rw [(Flags.call_of_ne (show Side.write ≠ Side.read by decide)).2]
      cases (d.call .read .event).2 <;> simp
  | write =>
      obtain ⟨hnow, hwait, -⟩ := writeIfWaiting_spec d
      rw [hnow, hwait]
      cases d.waiting .write <;> simp

theorem Inv.event (h : Inv o s) {d : Flags} (hd : s.ioDesc = some d) (hnow : s.scheduleNow = none)
    (σ : Side) : Inv o { s with
      ioDesc := some (d.call σ .event).1
      scheduleNow := if (d.call σ .event).2 then some σ else none
      events := σ :: s.events } := by
  have hsome : s.ioDesc ≠ none := by rw [hd]; nofun
  have hup : ∀ τ, State.upCall { s with
      ioDesc := some (d.call σ .event).1
      scheduleNow := if (d.call σ .event).2 then some σ else none
      events := σ :: s.events } τ = s.upCall τ := by
    intro τ
    show (d.call σ .event).1.cb τ = _
    rw [State.upCall, hd, Flags.call_cb]
    rfl
  refine h.stay rfl (token_event hd hnow σ) ⟨rfl, rfl, rfl⟩
    ⟨nofun, fun _ => h.desc.pending hsome, ?_, ?_, fun hmem => ?_⟩ fun t hp => ?_
  · rw [hup]
    exact h.desc.read
  · rw [hup]
    exact h.desc.opened
  · show ((d.call σ .event).1.waiting .write && decide (_ = _)).toNat = 0
    cases σ with
    | read =>
        have hmem : Side.write ∈ s.events := by simpa using hmem
        have harmed := h.desc.events hmem
        rw [armed, hd] at harmed
        rw [Flags.call_cb, (Flags.call_of_ne (show Side.write ≠ Side.read by decide)).2]
        exact harmed
    | write =>
        rw [(writeIfWaiting_spec d).2.1]
        rfl
  · cases hpc : s.pc t with
    | writeWhenReady =>
        rw [hpc] at hp
        obtain ⟨d', hd', hcb, hcan⟩ := hp
        obtain rfl := Option.some.inj (hd.symm.trans hd')
        refine ⟨_, rfl, by rw [Flags.call_cb]; exact hcb, fun hmem => ?_⟩
        cases σ with
        | read =>
            rw [(Flags.call_of_ne (show Side.write ≠ Side.read by decide)).1]
            exact hcan (by simpa using hmem)
        | write =>
            have howes : (s.pc t).owes = true := by rw [hpc]; rfl
            rw [(writeIfWaiting_spec d).2.2, h.not_waiting howes hd hcb]
            exact Bool.or_true _
    | addTask =>
        rw [hpc] at hp
        exact (hup _).trans hp
    | setUpCalls => nofun
    | doConnect => nofun
    | newDescriptor =>
        rw [hpc] at hp
        exact absurd hp.1 hsome
    | socket | connect | acquire =>
        rw [hpc] at hp
        exact absurd hp hsome
    | _ => trivial

/-- The poll thread gives the pool the upcall that is in the descriptor by
then. -/
theorem Inv.schedule (h : Inv o s) {σ : Side} (hnow : s.scheduleNow = some σ) :
    Inv o ({ s with scheduleNow := none }.addTask (s.upCall σ)) := by
  have hsome : s.ioDesc ≠ none := fun hnone => by
    rw [(h.desc.without hnone).2.1] at hnow
    cases hnow
  have htoken : token ({ s with scheduleNow := none }.addTask (s.upCall σ)) = token s := by
    show armed s + 0 + (s.tasks ++ (s.upCall σ).toList).count connectUpCall = _
    rw [token, List.count_append, scheduled, hnow]
    cases σ with
    | read =>
        have hread := h.desc.read
        cases hcb : s.upCall .read with
        | none => simp
        | some cb =>
            have hne : cb ≠ connectUpCall := fun heq => hread (by rw [hcb, heq])
            simp [hne]
    | write =>
        cases hcb : s.upCall .write with
        | none => simp
        | some cb =>
            by_cases heq : cb = connectUpCall <;> simp [heq]
            omega
  refine h.stay rfl htoken ⟨rfl, rfl, rfl⟩ ?_ fun t hp => ?_
  · exact h.desc.congr rfl rfl rfl (fun hnone => absurd hnone hsome) fun _ hu => hu
  · exact hp.congr rfl rfl rfl

/-- The requests of the sub-class come after `doConnect`. -/
theorem Inv.request (h : Inv o s) {d : Flags} (hd : s.ioDesc = some d) (huse : s.inUse = true)
    (σ : Side) : Inv o ({ s with ioDesc := some (d.call σ .request).1 }.addTask
      (if (d.call σ .request).2 then d.cb σ else none)) := by
  simp only [State.inUse, Bool.and_eq_true, decide_eq_true_eq, Bool.not_eq_true'] at huse
  have hsome : s.ioDesc ≠ none := by rw [hd]; nofun
  have hnot := h.not_owes huse.1.1
  have hcb : ∀ τ, d.cb τ ≠ some connectUpCall := by
    have hup : ∀ τ, s.upCall τ = d.cb τ := fun τ => by rw [State.upCall, hd]; rfl
    intro τ heq
    cases τ with
    | read => exact h.desc.read ((hup _).trans heq)
    | write =>
        obtain ⟨t, ht⟩ := h.desc.opened huse.1.2 ((hup _).trans heq)
        have := hnot t
        rw [ht] at this
        cases this
  have htask : ∀ b : Bool, (if b then d.cb σ else none).toList.count connectUpCall = 0 := by
    intro b
    rw [List.count_eq_zero]
    intro hmem
    cases b
    · cases hmem
    · exact hcb σ (by simpa using hmem)
  have htoken : token ({ s with ioDesc := some (d.call σ .request).1 }.addTask
      (if (d.call σ .request).2 then d.cb σ else none)) = token s := by
    rw [token_some hd, token_some rfl, Flags.call_cb]
    show _ + _ + (s.tasks ++ _).count connectUpCall = _
    rw [List.count_append, htask]
    simp [hcb]
  refine h.stay rfl htoken ⟨rfl, rfl, rfl⟩
    ⟨nofun, fun _ => h.desc.pending hsome, ?_, fun _ heq => ?_, fun _ => ?_⟩ fun t _ => ?_
  · show (d.call σ .request).1.cb .read ≠ _
    rw [Flags.call_cb]
    exact hcb _
  · have heq : (d.call σ .request).1.cb .write = some connectUpCall := heq
    rw [Flags.call_cb] at heq
    exact absurd heq (hcb _)
  · show armed { s with ioDesc := some (d.call σ .request).1 } = 0
    rw [armed]
    simp [Flags.call_cb, hcb]
  · exact Place.of_not_owes (hnot t)

/-- The references of others. -/
theorem Inv.others (h : Inv o s) (refs : ℤ) (n : ℕ) (deleted : Bool) :
    Inv o { s with refs := refs, external := n, deleted := deleted } := by
  refine h.stay rfl (token_congr rfl rfl rfl) ⟨rfl, rfl, rfl⟩ ?_ fun t hp => ?_
  · exact h.desc.congr rfl rfl rfl h.desc.quiet fun _ hu => hu
  · exact hp.congr rfl rfl rfl

theorem Inv.step (hn : Normal o) (h : Inv o s) {a : Act} (hs : step o s a = some s') :
    Inv o s' := by
  cases a with
  | tick t => exact h.tick hn hs
  | event σ =>
      rw [ConnectionConnect.step] at hs
      cases hd : s.ioDesc with
      | none => simp [hd] at hs
      | some d =>
          cases hnow : s.scheduleNow with
          | some τ => simp [hd, hnow] at hs
          | none =>
              simp only [hd, hnow] at hs
              split at hs
              · cases hs
              · obtain rfl := Option.some.inj hs
                exact h.event hd hnow σ
  | schedule =>
      rw [ConnectionConnect.step] at hs
      obtain ⟨σ, hσ, rfl⟩ := Option.map_eq_some_iff.mp hs
      exact h.schedule hσ
  | request σ =>
      rw [ConnectionConnect.step] at hs
      cases hd : s.ioDesc with
      | none => simp [hd] at hs
      | some d =>
          simp only [hd, Flags.call_cb] at hs
          split at hs
          next huse =>
            obtain rfl := Option.some.inj hs
            exact h.request hd huse σ
          next => cases hs
  | acquire =>
      rw [ConnectionConnect.step] at hs
      split at hs
      · obtain rfl := Option.some.inj hs
        exact h.others ..
      · cases hs
  | release =>
      rw [ConnectionConnect.step] at hs
      split at hs
      · obtain rfl := Option.some.inj hs
        exact h.others ..
      · cases hs

theorem Init.inv (h : Init s) : Inv o s := by
  obtain ⟨t, ht⟩ := h.pc
  obtain ⟨hclosed, -, hnone, hnow, htasks, hevents⟩ := h.state
  obtain ⟨hdones, hacquires, hreleases⟩ := h.calls
  have hpending : ∀ q : Pc → Bool, q .idle = false → ∃ m, Pending q s.pc m
      ∧ m = (q .socket).toNat := by
    intro q hidle
    obtain ⟨m, hm, hsum⟩ := (Pending.none fun _ => hidle : Pending q (fun _ => .idle) 0).update t
      .socket
    rw [hidle, Nat.zero_add] at hsum
    exact ⟨m, ht ▸ hm, hsum⟩
  have htoken : token s = 0 := by
    rw [token, armed, scheduled, hnone, hnow, htasks]
    rfl
  obtain ⟨m₁, hm₁, h₁⟩ := hpending Pc.starts rfl
  obtain ⟨m₂, hm₂, h₂⟩ := hpending Pc.owes rfl
  obtain ⟨m₃, hm₃, h₃⟩ := hpending Pc.holds rfl
  refine ⟨⟨m₁, hm₁, ?_⟩, ⟨m₂, hm₂, ?_⟩, ⟨m₃, hm₃, ?_⟩, ⟨?_, ?_, ?_, ?_, ?_⟩, fun u => ?_⟩
  · rw [h₁, hacquires]
    rfl
  · rw [h₂, htoken, hdones]
    rfl
  · rw [h₃, htoken, hreleases, hacquires]
    rfl
  · exact fun _ => ⟨hclosed, hnow, htasks, hevents⟩
  · exact fun hsome => absurd hnone hsome
  · rw [State.upCall, hnone]
    nofun
  · rw [hclosed]
    nofun
  · rw [hevents]
    nofun
  · rw [ht]
    by_cases hu : u = t
    · rw [hu, Function.update_self]
      exact hnone
    · rw [Function.update_of_ne hu]
      trivial

end

end ConnectionConnect

end HttpServer
