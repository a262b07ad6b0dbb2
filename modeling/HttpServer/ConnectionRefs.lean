import HttpServer.Connection
import HttpServer.Lib.Tally

/-!
# The reference count of a connection

`Connection::acquire` and `release` with everything that calls them:
`startRead`, `doRead`, `startWrite` and `doWrite` (connection.cpp), and
the half of `Descriptor` (io_manager.cpp) that passes a waiting activity
on to the worker pool. What is read and written is left out: the socket
and the buffer answer as they like, and so does `readDone`, which may
call `startWrite` any number of times.

A section of a lock is one step, and so is the rest of `release` behind
it, `delete this`. A thread that runs `doRead` can be inside of
`readDone` in a `startWrite`, so it has a place for each of the two
(`Pc`).

An activity is counted from its `acquire` to its `release`. A `doRead`
or `doWrite` that meets `EAGAIN` acquires for its successor before it
releases its own reference; the successor can be at work while the old
activity is still on its way to `release`.
-/

namespace HttpServer

namespace ConnectionRefs

open Connection (Written)

abbrev Tid := ℕ

/-- Where a thread is in `startRead` or `doRead`. -/
inductive ReadPc where
  | none
  /-- `startRead` behind its `acquire`. -/
  | startArm
  | startAddTask
  /-- `socketRead`. -/
  | read
  | readDone
  /-- After `EAGAIN`. -/
  | acquire
  | arm
  | addTask
  | release
  | delete
deriving DecidableEq, Repr

/-- Where it is in `startWrite` or `doWrite`. -/
inductive WritePc where
  | none
  /-- The section of `startWrite`. -/
  | start
  | acquire
  /-- The section before the write. -/
  | loop
  /-- `socketWrite`. -/
  | send
  | wrote (res : Written)
  /-- After `EAGAIN`, with `m_write_` held. -/
  | acquireNext
  | arm
  | addTask
  | unlock
  | release
  | delete
deriving DecidableEq, Repr

structure Pc where
  rd : ReadPc
  wr : WritePc
deriving DecidableEq, Repr

def Pc.idle : Pc := ⟨.none, .none⟩

/-- What `socketRead` returns. -/
inductive ReadResult where
  | data
  | closed
  | again
  | error
deriving DecidableEq, Repr

structure State where
  refs : ℤ
  writing : Bool
  /-- The thread that holds `m_write_` between two steps. -/
  lock : Option Tid
  canRead : Bool
  waitingRead : Bool
  canWrite : Bool
  waitingWrite : Bool
  /-- The poll thread has left the section of `readIfWaiting` with
  `schedule_now`. -/
  scheduleRead : Bool
  scheduleWrite : Bool
  /-- How many times the callbacks are in the queue of the worker pool. -/
  readTasks : ℕ
  writeTasks : ℕ
  pc : Tid → Pc
  /-- `startRead()` was called. -/
  started : Bool
  /-- The references of others. -/
  external : ℕ
  deletions : ℕ

/-- The choices of the environment. -/
inductive Act where
  /-- The constructor calls `startRead`. -/
  | start (t : Tid)
  | tick (t : Tid)
  | read (t : Tid) (res : ReadResult)
  | startWrite (t : Tid)
  | readDone (t : Tid) (ok : Bool)
  | write (t : Tid) (res : Written)
  /-- The section after the write; `drained` is what it finds in `out_`. -/
  | finish (t : Tid) (drained : Bool)
  | readable
  | writable
  | scheduleRead
  | scheduleWrite
  | runRead (t : Tid)
  | runWrite (t : Tid)
  | acquire
  | release (t : Tid)

namespace State

def setRd (s : State) (t : Tid) (rd : ReadPc) : State :=
  { s with pc := Function.update s.pc t ⟨rd, (s.pc t).wr⟩ }

def setWr (s : State) (t : Tid) (wr : WritePc) : State :=
  { s with pc := Function.update s.pc t ⟨(s.pc t).rd, wr⟩ }

def acquire (s : State) : State := { s with refs := s.refs + 1 }

/-- The section of `release` in `doRead`. -/
def releaseRd (s : State) (t : Tid) : State :=
  let s := { s with refs := s.refs - 1 }
  s.setRd t (if s.refs = 0 then .delete else .none)

def releaseWr (s : State) (t : Tid) : State :=
  let s := { s with refs := s.refs - 1 }
  s.setWr t (if s.refs = 0 then .delete else .none)

/-- The section of `readWhenReady`; then to `now` or to `later`. -/
def readWhenReady (s : State) (t : Tid) (now later : ReadPc) : State :=
  if s.canRead then { s with canRead := false }.setRd t now
  else { s with waitingRead := true }.setRd t later

def writeWhenReady (s : State) (t : Tid) : State :=
  if s.canWrite then { s with canWrite := false }.setWr t .addTask
  else { s with waitingWrite := true }.setWr t .unlock

def readIfWaiting (s : State) : State :=
  if s.waitingRead then { s with waitingRead := false, scheduleRead := true }
  else { s with canRead := true }

def writeIfWaiting (s : State) : State :=
  if s.waitingWrite then { s with waitingWrite := false, scheduleWrite := true }
  else { s with canWrite := true }

/-- The section of `doWrite` after the write. -/
def finish (s : State) (t : Tid) (drained : Bool) : Written → State
  | .again => { s with lock := some t }.setWr t .acquireNext
  | .error => s.setWr t .release
  | .bytes n =>
      if n = 0 then s.setWr t .release
      else if drained then { s with writing := false }.setWr t .release
      else s.setWr t .loop

end State

/-- The next step of a thread in `startRead` or `doRead`. -/
def tickRd (s : State) (t : Tid) : Option State :=
  match (s.pc t).rd with
  | .none => none
  | .startArm => some (s.readWhenReady t .startAddTask .none)
  | .startAddTask => some ({ s with readTasks := s.readTasks + 1 }.setRd t .none)
  | .read => none
  | .readDone => none
  | .acquire => some (s.acquire.setRd t .arm)
  | .arm => some (s.readWhenReady t .addTask .release)
  | .addTask => some ({ s with readTasks := s.readTasks + 1 }.setRd t .release)
  | .release => some (s.releaseRd t)
  | .delete => some ({ s with deletions := s.deletions + 1 }.setRd t .none)

/-- The next step of a thread; the sections of `m_write_` wait until it is
free. -/
def tick (s : State) (t : Tid) : Option State :=
  match (s.pc t).wr with
  | .none => tickRd s t
  | .start =>
      if s.lock = none then
        if s.writing then some (s.setWr t .none)
        else some ({ s with writing := true }.setWr t .acquire)
      else none
  | .acquire => some (s.acquire.setWr t .loop)
  | .loop => if s.lock = none then some (s.setWr t .send) else none
  | .send => none
  | .wrote _ => none
  | .acquireNext => some (s.acquire.setWr t .arm)
  | .arm => some (s.writeWhenReady t)
  | .addTask => some ({ s with writeTasks := s.writeTasks + 1 }.setWr t .unlock)
  | .unlock => some ({ s with lock := none }.setWr t .release)
  | .release => some (s.releaseWr t)
  | .delete => some ({ s with deletions := s.deletions + 1 }.setWr t .none)

/-- One step of a connection with `n` threads. A holder gets its reference
from somebody who has one. -/
def step (n : ℕ) (s : State) : Act → Option State
  | .start t =>
      if t < n ∧ s.pc t = .idle ∧ s.started = false then
        some ({ s.acquire with started := true }.setRd t .startArm)
      else none
  | .tick t => if t < n then tick s t else none
  | .read t res =>
      if t < n ∧ s.pc t = ⟨.read, .none⟩ then
        match res with
        | .data => some (s.setRd t .readDone)
        | .closed => some (s.setRd t .release)
        | .again => some (s.setRd t .acquire)
        | .error => some (s.setRd t .release)
      else none
  | .startWrite t => if t < n ∧ s.pc t = ⟨.readDone, .none⟩ then some (s.setWr t .start) else none
  | .readDone t ok =>
      if t < n ∧ s.pc t = ⟨.readDone, .none⟩ then
        some (s.setRd t (if ok then .read else .release))
      else none
  | .write t res =>
      if t < n ∧ (s.pc t).wr = .send then some (s.setWr t (.wrote res)) else none
  | .finish t drained =>
      match (s.pc t).wr with
      | .wrote res => if t < n ∧ s.lock = none then some (s.finish t drained res) else none
      | _ => none
  | .readable => if s.scheduleRead then none else some s.readIfWaiting
  | .writable => if s.scheduleWrite then none else some s.writeIfWaiting
  | .scheduleRead =>
      if s.scheduleRead then some { s with scheduleRead := false, readTasks := s.readTasks + 1 }
      else none
  | .scheduleWrite =>
      if s.scheduleWrite then some { s with scheduleWrite := false, writeTasks := s.writeTasks + 1 }
      else none
  | .runRead t =>
      if t < n ∧ s.pc t = .idle ∧ 0 < s.readTasks then
        some ({ s with readTasks := s.readTasks - 1 }.setRd t .read)
      else none
  | .runWrite t =>
      if t < n ∧ s.pc t = .idle ∧ 0 < s.writeTasks then
        some ({ s with writeTasks := s.writeTasks - 1 }.setWr t .loop)
      else none
  | .acquire => if 0 < s.refs then some { s.acquire with external := s.external + 1 } else none
  | .release t =>
      if t < n ∧ s.pc t = .idle ∧ 0 < s.external then
        some ({ s with external := s.external - 1 }.releaseRd t)
      else none

structure Initial (s : State) : Prop where
  refs : s.refs = 0
  writing : s.writing = false
  lock : s.lock = none
  waitingRead : s.waitingRead = false
  waitingWrite : s.waitingWrite = false
  scheduleRead : s.scheduleRead = false
  scheduleWrite : s.scheduleWrite = false
  readTasks : s.readTasks = 0
  writeTasks : s.writeTasks = 0
  pc : ∀ t, s.pc t = .idle
  started : s.started = false
  external : s.external = 0
  deletions : s.deletions = 0

def machine (n : ℕ) : Lts State Act := ⟨Initial, step n⟩

/-! ## Activities -/

/-- The references of read activities that a thread has: its own until
`release`, and the one of the successor until it is armed. -/
def ReadPc.held : ReadPc → ℕ
  | .none => 0
  | .arm => 2
  | .addTask => 2
  | .delete => 0
  | _ => 1

def WritePc.held : WritePc → ℕ
  | .none => 0
  | .start => 0
  | .acquire => 0
  | .arm => 2
  | .addTask => 2
  | .delete => 0
  | _ => 1

/-- The activity has neither ended nor handed over to a successor. -/
def ReadPc.current : ReadPc → ℕ
  | .none => 0
  | .release => 0
  | .delete => 0
  | _ => 1

def WritePc.current : WritePc → ℕ
  | .none => 0
  | .start => 0
  | .unlock => 0
  | .release => 0
  | .delete => 0
  | _ => 1

/-- The thread is about to delete the object. -/
def Pc.deletes (p : Pc) : ℕ :=
  (decide (p.rd = .delete)).toNat + (decide (p.wr = .delete)).toNat

namespace State

/-- Read activities that no thread runs. -/
def parkedReads (s : State) : ℕ := s.waitingRead.toNat + s.scheduleRead.toNat + s.readTasks

def parkedWrites (s : State) : ℕ := s.waitingWrite.toNat + s.scheduleWrite.toNat + s.writeTasks

def readActivities (n : ℕ) (s : State) : ℕ :=
  Tally.total n (fun p : Pc => p.rd.held) s.pc + s.parkedReads

def writeActivities (n : ℕ) (s : State) : ℕ :=
  Tally.total n (fun p : Pc => p.wr.held) s.pc + s.parkedWrites

/-- The read activities that have not re-armed yet. -/
def currentReads (n : ℕ) (s : State) : ℕ :=
  Tally.total n (fun p : Pc => p.rd.current) s.pc + s.parkedReads

def currentWrites (n : ℕ) (s : State) : ℕ :=
  Tally.total n (fun p : Pc => p.wr.current) s.pc + s.parkedWrites

/-- The threads that are about to delete the object. -/
def deleting (n : ℕ) (s : State) : ℕ := Tally.total n Pc.deletes s.pc

/-- Nobody has a reference any more. -/
def gone (s : State) : Bool := s.started && s.refs = 0

end State

structure Inv (n : ℕ) (s : State) : Prop where
  count : s.refs = s.readActivities n + s.writeActivities n + s.external
  reads : s.currentReads n ≤ s.started.toNat
  writes : s.currentWrites n ≤ s.writing.toNat
  deleted : s.deleting n + s.deletions = s.gone.toNat
  /-- `startWrite` is called by `readDone`. -/
  nested : ∀ t, (s.pc t).wr = .start ∨ (s.pc t).wr = .acquire → (s.pc t).rd = .readDone
  idle : ∀ t, n ≤ t → s.pc t = .idle
  fresh : s.started = false → s.refs = 0

end ConnectionRefs

end HttpServer
