import HttpServer.BufferCopy
import HttpServer.Lib.Lts
import Mathlib.Logic.Function.Basic

/-!
# The writing side of a connection

`Connection::startWrite` and `doWrite` (connection.cpp) with the write
half of `Descriptor` (io_manager.cpp): producers append to `out_` under
`m_write_` and call `startWrite()`; whoever finds `writing_` false sets
it and writes to the socket until the buffer is drained.

A section of `m_write_` or of the descriptor's lock is one step, and so
is the write to the socket, which runs without a lock on memory of
`out_`. After `EAGAIN` the writer calls `writeWhenReady` with `m_write_`
held, so there the lock shows between steps (`lock`). The poll thread
calls `writeIfWaiting`; both put `doWrite` in the queue of the worker
pool, from which any idle thread takes it.

`appended` and `accepted` are what the producers have appended and what
the socket has taken so far. The reference counter of the connection is
left out.
-/

namespace HttpServer

namespace Connection

abbrev Tid := ℕ

/-- What `socketWrite` returns: a number of bytes, or -1 with `EAGAIN` or
another error. -/
inductive Written where
  | bytes (n : ℕ)
  | again
  | error
deriving DecidableEq, Repr

/-- What a thread does next. -/
inductive Pc where
  | idle
  /-- It has appended and calls `startWrite`. -/
  | appended
  /-- The head of the loop of `doWrite`. -/
  | doWrite
  /-- The write of `size` bytes at `data`; `bytes` is what was there
  under the lock. -/
  | send (size : ℕ) (data : ℕ × ℕ) (bytes : List UInt8)
  /-- The locked section after the write. -/
  | wrote (size : ℕ) (res : Written)
  /-- `writeWhenReady`, with `m_write_` held. -/
  | rearm
  /-- Its `addTask`, with `m_write_` held. -/
  | addTask
  /-- The end of the scope of `m_write_` after `writeWhenReady`. -/
  | unlock
deriving DecidableEq, Repr

structure State where
  out : Buffer
  writing : Bool
  /-- The thread that holds `m_write_` between two steps. -/
  lock : Option Tid
  canWrite : Bool
  waitingWrite : Bool
  /-- The poll thread has left the section of `writeIfWaiting` with
  `schedule_now`. -/
  scheduleNow : Bool
  /-- How many times `write_cb_` is in the queue of the worker pool. -/
  tasks : ℕ
  pc : Tid → Pc
  appended : List (List UInt8)
  accepted : List UInt8

/-- A buffer to copy from: well-formed and not consumed. -/
structure Source where
  buf : Buffer
  inv : buf.Inv
  unread : buf.isConsumed = false

/-- The choices of the environment: a producer appends, a thread goes
on, the socket answers, the socket becomes ready, the poll thread adds
its task, a worker takes a task. -/
inductive Act where
  | append (t : Tid) (pieces : List (List UInt8)) (copy : Option Source)
  | tick (t : Tid)
  | send (t : Tid) (res : Written)
  | ready
  | schedule
  | run (t : Tid)

/-! ## Steps -/

/-- The calls of `write`, then of `copyFrom` in one critical section. -/
def append (out : Buffer) (pieces : List (List UInt8)) (copy : Option Source) : Buffer :=
  let out := pieces.foldl Buffer.write out
  match copy with
  | some other => out.copyFrom other.buf
  | none => out

/-- The bytes such a section appends. -/
def appendedText (pieces : List (List UInt8)) (copy : Option Source) : List UInt8 :=
  pieces.flatten ++ (copy.map fun other => other.buf.content).getD []

namespace State

def goto (s : State) (t : Tid) (pc : Pc) : State := { s with pc := Function.update s.pc t pc }

/-- The section of `startWrite`. -/
def startWrite (s : State) (t : Tid) : State :=
  if s.writing then s.goto t .idle
  else { s with writing := true }.goto t .doWrite

/-- The section of `doWrite` before the write. -/
def sample (s : State) (t : Tid) : State :=
  let size := s.out.readSize
  let data := s.out.readPtr
  s.goto t (.send size data ((s.out.peek data size).getD []))

/-- The section of `doWrite` after the write. -/
def finish (s : State) (t : Tid) (size : ℕ) : Written → State
  | .again => { s with lock := some t }.goto t .rearm
  | .error => s.goto t .idle
  | .bytes n =>
      if n = 0 then s.goto t .idle
      else
        let s := { s with out := s.out.consume n }
        if size = n ∧ s.out.readSize = 0 then { s with writing := false }.goto t .idle
        else s.goto t .doWrite

/-- The section of `writeWhenReady`. -/
def writeWhenReady (s : State) (t : Tid) : State :=
  if s.canWrite then { s with canWrite := false }.goto t .addTask
  else { s with waitingWrite := true }.goto t .unlock

/-- The section of `writeIfWaiting`. -/
def writeIfWaiting (s : State) : State :=
  if s.waitingWrite then { s with waitingWrite := false, scheduleNow := true }
  else { s with canWrite := true }

/-- The write of up to `n` bytes from the memory at `data`. -/
def socketWrite (s : State) (t : Tid) (size : ℕ) (data : ℕ × ℕ) : Written → State
  | .bytes n =>
      { s with accepted := s.accepted ++ (s.out.peek data n).getD [] }.goto t
        (.wrote size (.bytes n))
  | res => s.goto t (.wrote size res)

end State

/-- The next step of a thread; the sections of `m_write_` wait until it is
free. -/
def tick (s : State) (t : Tid) : Option State :=
  match s.pc t with
  | .appended => if s.lock = none then some (s.startWrite t) else none
  | .doWrite => if s.lock = none then some (s.sample t) else none
  | .wrote size res => if s.lock = none then some (s.finish t size res) else none
  | .rearm => some (s.writeWhenReady t)
  | .addTask => some ({ s with tasks := s.tasks + 1 }.goto t .unlock)
  | .unlock => some ({ s with lock := none }.goto t .idle)
  | _ => none

/-- One step of a connection with `n` threads. -/
def step (n : ℕ) (s : State) : Act → Option State
  | .append t pieces copy =>
      if t < n ∧ s.pc t = .idle ∧ s.lock = none ∧ (copy.isSome → pieces.flatten ≠ []) then
        some ({ s with
          out := append s.out pieces copy
          appended := s.appended ++ [appendedText pieces copy] }.goto t .appended)
      else none
  | .tick t => if t < n then tick s t else none
  | .send t res =>
      match s.pc t, res with
      | .send size data _, .bytes m =>
          if m ≤ size then some (s.socketWrite t size data (.bytes m)) else none
      | .send size data _, res => some (s.socketWrite t size data res)
      | _, _ => none
  | .ready => if s.scheduleNow then none else some s.writeIfWaiting
  | .schedule =>
      if s.scheduleNow then some { s with scheduleNow := false, tasks := s.tasks + 1 } else none
  | .run t =>
      if t < n ∧ s.pc t = .idle ∧ 0 < s.tasks then
        some ({ s with tasks := s.tasks - 1 }.goto t .doWrite)
      else none

structure Initial (s : State) : Prop where
  out : ∃ heap, s.out = Buffer.new heap
  writing : s.writing = false
  lock : s.lock = none
  waitingWrite : s.waitingWrite = false
  scheduleNow : s.scheduleNow = false
  tasks : s.tasks = 0
  pc : ∀ t, s.pc t = .idle
  appended : s.appended = []
  accepted : s.accepted = []

def machine (n : ℕ) : Lts State Act := ⟨Initial, step n⟩

/-! ## Activities -/

/-- Where an unfinished `doWrite` can be: in a thread, with the
descriptor, with the poll thread, in the queue of the worker pool. -/
inductive Activity where
  | running (t : Tid)
  | waiting
  | polled
  | scheduled (i : ℕ)
deriving DecidableEq, Repr

/-- The thread is in a `doWrite` that has not finished, failed or handed
over to a successor. -/
def Pc.active : Pc → Bool
  | .doWrite => true
  | .send _ _ _ => true
  | .wrote _ _ => true
  | .rearm => true
  | .addTask => true
  | _ => false

def Active (s : State) : Activity → Prop
  | .running t => (s.pc t).active = true
  | .waiting => s.waitingWrite = true
  | .polled => s.scheduleNow = true
  | .scheduled i => i < s.tasks

end Connection

end HttpServer
