import Mathlib.Logic.Function.Basic
import HttpServer.Descriptor
import HttpServer.Lib.Chain
import HttpServer.Lib.Multimap

/-!
# The polling loop

`IOManager::pollBody` (io_manager.cpp): a round waits for events, issues
the alarms that are due, hands the events to their descriptors and
disposes of the descriptors that were given to `delDescriptor`. Beside it
run the workers and any other threads, which create and give away
descriptors and add timers, and a call of `stop()`. A section of a lock is
one step.

What a descriptor does with an event is in `Descriptor`, what the pool does
in `ThreadPool`. Here an alarm that was given to the pool is `issued`, and
of a descriptor it is told whether it exists.

The list of deleted descriptors is threaded through their own `next_`. The
polling loop takes it under its lock; the end of `stop()` empties it
without one. So no descriptor may be given away by another thread than a
worker while this call unlinks one (`Orderly`): it would be lost, and the
one that is unlinked would be deleted twice (`givenAway_deleted_twice`).
`stop()` waits for every worker but the one it may be called in. That one
goes on afterwards, and what it gives away then is deleted by nobody.
-/

namespace HttpServer

namespace IOManager

open Chain (Cell Path)
open Descriptor (Side)

/-- A `Descriptor*`. -/
abbrev Desc := ℕ

abbrev Ticks := ℕ

/-- A `Callback<void>*` in the timer queue. -/
structure Alarm where
  task : ℕ
  /-- The calls of `addTimer` before this one. -/
  number : ℕ
deriving DecidableEq, Repr

/-- A `struct epoll_event`. -/
structure EpollEvent where
  desc : Desc
  epollerr : Bool
  epollhup : Bool
  epollin : Bool
  epollout : Bool
deriving DecidableEq, Repr

/-- The `PollEvents`. -/
structure Events where
  dpError : Bool
  dpReadReady : Bool
  dpWriteReady : Bool

/-- `DescriptorPoller::getEvents`. -/
def getEvents (e : EpollEvent) : Events :=
  if e.epollerr then ⟨true, false, false⟩
  else ⟨false, e.epollhup || e.epollin, e.epollhup || e.epollout⟩

/-- What `pollBody` calls for an event: `readIfWaiting` and
`writeIfWaiting`. -/
def calls (e : EpollEvent) : List (Desc × Side) :=
  let events := getEvents e
  (if events.dpError || events.dpReadReady then [(e.desc, .read)] else [])
    ++ (if events.dpError || events.dpWriteReady then [(e.desc, .write)] else [])

def MAX_FDS_PER_POLL : ℕ := 1024

/-- Where `poll()` is. -/
inductive PollPc where
  | idle
  | start
  /-- The test of the loop. -/
  | stopped
  | epollWait
  | alarms (calls : List (Desc × Side))
  /-- The events that are left. -/
  | events (calls : List (Desc × Side))
  | swap
  | dispose (toDelete : Option Desc)
  | finish
  | returned
deriving DecidableEq, Repr

/-- Where the call of `stop()` is that does the work. -/
inductive StopPc where
  | idle
  /-- Waits for the polling loop to end. -/
  | wait
  /-- `worker_pool_->stop()`. -/
  | join
  /-- The test of its loop, `while (deleted_desc_)`. -/
  | test
  /-- `Descriptor* hold = deleted_desc_`. -/
  | take
  /-- The right side of `deleted_desc_ = deleted_desc_->next_`. -/
  | next (hold : Desc)
  | store (hold : Desc) (next : Option Desc)
  | delete (hold : Desc)
  | returned
deriving DecidableEq, Repr

/-- The timer queue. -/
structure Timers where
  clock : Ticks
  timerQueue : List (Ticks × Alarm)
  /-- The calls of `addTimer`. -/
  added : List (Ticks × Alarm)
  issued : List (Ticks × Alarm)
  /-- When the alarms were last looked through, and how many had been added. -/
  scanned : Ticks × ℕ

/-- Who calls `delDescriptor`. -/
inductive Giver where
  /-- A worker, before `stop()` has joined it. -/
  | worker
  /-- The worker in which `stop()` was called, after that has returned. -/
  | stopper
  | other
deriving DecidableEq

structure State where
  timers : Timers
  /-- The descriptors that exist. -/
  live : Desc → Bool
  /-- Their socket is open, and in the event set. -/
  registered : Desc → Bool
  /-- `next_`. -/
  next : Desc → Option Desc
  deletedDesc : Option Desc
  stopped : Bool
  polling : Bool
  /-- All workers have finished, but the one that is in `stop()`. -/
  joined : Bool
  /-- `stop()` was called by a worker. -/
  byWorker : Bool
  poller : PollPc
  stop : StopPc
  created : Desc → ℕ
  /-- The calls of `delDescriptor`. -/
  handed : Desc → ℕ
  /-- Those by the worker in which `stop()` was called, afterwards. -/
  late : Desc → ℕ
  deletions : Desc → ℕ

inductive Act where
  | newDescriptor (d : Desc)
  /-- The owner closes the socket. -/
  | close (d : Desc)
  | delDescriptor (giver : Giver) (d : Option Desc)
  | addTimer (ts : Ticks) (task : ℕ)
  | tick
  | poll
  | epollWait (events : List EpollEvent)
  | pollStep
  | stop (byWorker : Bool)
  | stopStep

/-- The loop over the timer queue: what it gives to the pool, and what it
leaves. -/
def dueAlarms (now : Ticks) : List (Ticks × Alarm) → List (Ticks × Alarm) × List (Ticks × Alarm)
  | [] => ([], [])
  | e :: queue =>
      if e.1 > now then ([], e :: queue)
      else
        let (due, rest) := dueAlarms now queue
        (e :: due, rest)

namespace Timers

def addTimer (x : Timers) (ts : Ticks) (task : ℕ) : Timers :=
  let alarm := ⟨task, x.added.length⟩
  { x with
    timerQueue := Multimap.insert x.timerQueue ts alarm
    added := x.added ++ [(ts, alarm)] }

def issueAlarms (x : Timers) : Timers :=
  let (due, rest) := dueAlarms x.clock x.timerQueue
  { x with
    timerQueue := rest
    issued := x.issued ++ due
    scanned := (x.clock, x.added.length) }

def tick (x : Timers) : Timers := { x with clock := x.clock + 1 }

end Timers

namespace State

/-- `delete d`. -/
def delete (s : State) (d : Desc) : State :=
  { s with
    live := Function.update s.live d false
    deletions := Function.update s.deletions d (s.deletions d + 1) }

def newDescriptor (s : State) (d : Desc) : State :=
  { s with
    live := Function.update s.live d true
    registered := Function.update s.registered d true
    created := Function.update s.created d (s.created d + 1) }

def delDescriptor (s : State) (giver : Giver) : Option Desc → State
  | none => s
  | some d =>
      { s with
        next := Function.update s.next d s.deletedDesc
        deletedDesc := some d
        handed := Function.update s.handed d (s.handed d + 1)
        late := if giver = .stopper then Function.update s.late d (s.late d + 1) else s.late }

/-- A worker is there as long as it was not joined; the one that is in
`stop()` goes on when it has returned. -/
def present (s : State) : Giver → Bool
  | .worker => !s.joined
  | .stopper => s.byWorker && decide (s.stop = .returned)
  | .other => true

end State

def pollStep (s : State) : Option State :=
  match s.poller with
  | .idle | .epollWait | .returned => none
  | .start => some { s with polling := true, poller := .stopped }
  | .stopped => some { s with poller := if s.stopped then .finish else .epollWait }
  | .alarms calls => some { s with timers := s.timers.issueAlarms, poller := .events calls }
  | .events [] => some { s with poller := .swap }
  | .events (_ :: calls) => some { s with poller := .events calls }
  | .swap => some { s with deletedDesc := none, poller := .dispose s.deletedDesc }
  | .dispose none => some { s with poller := .stopped }
  | .dispose (some d) => some { s.delete d with poller := .dispose (s.next d) }
  | .finish => some { s with polling := false, poller := .returned }

def stopStep (s : State) : Option State :=
  match s.stop with
  | .idle | .returned => none
  | .wait => if s.polling then none else some { s with stop := .join }
  | .join => some { s with joined := true, stop := .test }
  | .test => some { s with stop := if s.deletedDesc.isSome then .take else .returned }
  | .take => s.deletedDesc.map fun hold => { s with stop := .next hold }
  | .next hold => s.deletedDesc.map fun d => { s with stop := .store hold (s.next d) }
  | .store hold next => some { s with deletedDesc := next, stop := .delete hold }
  | .delete hold => some { s.delete hold with stop := .test }

def step (s : State) : Act → Option State
  | .newDescriptor d => if s.live d then none else some (s.newDescriptor d)
  | .close d => some { s with registered := Function.update s.registered d false }
  | .delDescriptor giver d => if s.present giver then some (s.delDescriptor giver d) else none
  | .addTimer ts task => some { s with timers := s.timers.addTimer ts task }
  | .tick => some { s with timers := s.timers.tick }
  | .poll => if s.poller = .idle then some { s with poller := .start } else none
  | .epollWait events =>
      if s.poller = .epollWait ∧ events.length ≤ MAX_FDS_PER_POLL
          ∧ ∀ e ∈ events, s.registered e.desc = true then
        some { s with poller := .alarms (events.flatMap calls) }
      else none
  | .pollStep => pollStep s
  | .stop byWorker =>
      if s.stopped then some s
      else
        some { s with stopped := true, byWorker, stop := if s.polling then .wait else .join }
  | .stopStep => stopStep s

structure Initial (s : State) : Prop where
  timers : s.timers.timerQueue = [] ∧ s.timers.added = [] ∧ s.timers.issued = []
    ∧ s.timers.scanned = (0, 0)
  live : ∀ d, s.live d = false
  registered : ∀ d, s.registered d = false
  deletedDesc : s.deletedDesc = none
  stopped : s.stopped = false
  polling : s.polling = false
  joined : s.joined = false
  poller : s.poller = .idle
  stop : s.stop = .idle
  created : ∀ d, s.created d = 0
  handed : ∀ d, s.handed d = 0
  late : ∀ d, s.late d = 0
  deletions : ∀ d, s.deletions d = 0

def machine : Lts State Act := ⟨Initial, step⟩

/-! ## Alarms -/

/-- `b` was added before `a` and is due no later. -/
def Overtakes (a b : Ticks × Alarm) : Prop := b.2.number < a.2.number ∧ b.1 ≤ a.1

/-- What has become of the alarms. -/
structure Alarms (x : Timers) : Prop where
  sorted : Multimap.Sorted x.timerQueue
  numbers : x.added.map (·.2.number) = List.range x.added.length
  once : (x.issued ++ x.timerQueue).Perm x.added
  due : ∀ e ∈ x.issued, e.1 ≤ x.clock
  order : (x.issued ++ x.timerQueue).Pairwise fun a b => ¬Overtakes a b
  seen : x.scanned.2 ≤ x.added.length
  left : ∀ e ∈ x.timerQueue, e.2.number < x.scanned.2 → x.scanned.1 < e.1

section

variable {now : Ticks} {queue : List (Ticks × Alarm)} {x : Timers} {e : Ticks × Alarm}

theorem dueAlarms_append (now : Ticks) (queue : List (Ticks × Alarm)) :
    (dueAlarms now queue).1 ++ (dueAlarms now queue).2 = queue := by
  induction queue with
  | nil => rfl
  | cons e queue ih =>
      rw [dueAlarms]
      by_cases h : e.1 > now
      · rw [if_pos h]
        rfl
      · rw [if_neg h]
        exact congrArg (e :: ·) ih

theorem dueAlarms_le (he : e ∈ (dueAlarms now queue).1) : e.1 ≤ now := by
  induction queue with
  | nil => cases he
  | cons a queue ih =>
      rw [dueAlarms] at he
      by_cases h : a.1 > now
      · rw [if_pos h] at he
        cases he
      · rw [if_neg h] at he
        rcases List.mem_cons.mp he with rfl | he
        · exact not_lt.mp h
        · exact ih he

theorem lt_of_dueAlarms (hq : Multimap.Sorted queue) (he : e ∈ (dueAlarms now queue).2) :
    now < e.1 := by
  induction queue with
  | nil => cases he
  | cons a queue ih =>
      obtain ⟨ha, hq⟩ := List.pairwise_cons.mp hq
      rw [dueAlarms] at he
      by_cases h : a.1 > now
      · rw [if_pos h] at he
        rcases List.mem_cons.mp he with rfl | he
        · exact h
        · exact Nat.lt_of_lt_of_le h (ha e he)
      · rw [if_neg h] at he
        exact ih hq he

/-- The numbers are those before. -/
theorem Alarms.number_lt (h : Alarms x) (he : e ∈ x.issued ++ x.timerQueue) :
    e.2.number < x.added.length := by
  have hmem := List.mem_map_of_mem (f := fun e : Ticks × Alarm => e.2.number) (h.once.subset he)
  rw [h.numbers] at hmem
  exact List.mem_range.mp hmem

theorem Alarms.addTimer (h : Alarms x) (ts : Ticks) (task : ℕ) : Alarms (x.addTimer ts task) := by
  have hlast : ∀ e ∈ x.issued ++ x.timerQueue, ¬Overtakes e (ts, ⟨task, x.added.length⟩) :=
    fun e he hover => Nat.lt_asymm hover.1 (h.number_lt he)
  have hinsert := Multimap.insert_perm x.timerQueue ts (⟨task, x.added.length⟩ : Alarm)
  obtain ⟨hissued, hqueue, hcross⟩ := List.pairwise_append.mp h.order
  refine ⟨h.sorted.insert .., ?_, ?_, h.due, ?_, ?_, fun e he hseen => ?_⟩
  · rw [Timers.addTimer, List.map_append, h.numbers, List.length_append, List.range_add]
    rfl
  · refine (hinsert.append_left x.issued).trans (List.perm_middle.trans ?_)
    exact (List.Perm.cons _ h.once).trans (List.perm_append_singleton ..).symm
  · refine List.pairwise_append.mpr ⟨hissued, ?_, fun a ha b hb => ?_⟩
    · refine Multimap.insert_pairwise h.sorted hqueue (fun e he _ => ?_) fun e _ hlt hover => ?_
      · exact hlast e (List.mem_append_right _ he)
      · exact Nat.not_lt.mpr hover.2 hlt
    · rcases List.mem_cons.mp (hinsert.subset hb) with rfl | hb
      · exact hlast a (List.mem_append_left _ ha)
      · exact hcross a ha b hb
  · rw [Timers.addTimer, List.length_append]
    exact Nat.le_add_right_of_le h.seen
  · rcases List.mem_cons.mp (hinsert.subset he) with rfl | he
    · exact absurd hseen (Nat.not_lt.mpr h.seen)
    · exact h.left e he hseen

theorem Alarms.issueAlarms (h : Alarms x) : Alarms x.issueAlarms := by
  have hsplit := dueAlarms_append x.clock x.timerQueue
  have hrest : (dueAlarms x.clock x.timerQueue).2.Sublist x.timerQueue := by
    conv_rhs => rw [← hsplit]
    exact List.sublist_append_right ..
  have happend : x.issueAlarms.issued ++ x.issueAlarms.timerQueue = x.issued ++ x.timerQueue := by
    rw [Timers.issueAlarms, List.append_assoc, hsplit]
  refine ⟨h.sorted.sublist hrest, h.numbers, ?_, fun e he => ?_, ?_, le_rfl, fun e he _ => ?_⟩
  · rw [happend]
    exact h.once
  · rcases List.mem_append.mp he with he | he
    · exact h.due e he
    · exact dueAlarms_le he
  · rw [happend]
    exact h.order
  · exact lt_of_dueAlarms h.sorted he

theorem Alarms.tick (h : Alarms x) : Alarms x.tick :=
  ⟨h.sorted, h.numbers, h.once, fun e he => Nat.le_succ_of_le (h.due e he), h.order, h.seen, h.left⟩

end

section

variable {s s' : State} {a : Act}

theorem Initial.alarms (h : Initial s) : Alarms s.timers := by
  obtain ⟨hqueue, hadded, hissued, hscanned⟩ := h.timers
  refine ⟨?_, ?_, ?_, fun e he => ?_, ?_, ?_, fun e he => ?_⟩
  · rw [hqueue]
    exact .nil
  · rw [hadded]
    rfl
  · rw [hqueue, hissued, hadded]
    rfl
  · rw [hissued] at he
    cases he
  · rw [hqueue, hissued]
    exact .nil
  · rw [hscanned]
    exact Nat.zero_le _
  · rw [hqueue] at he
    cases he

theorem stopStep_timers (hs : stopStep s = some s') : s'.timers = s.timers := by
  rw [stopStep] at hs
  split at hs
  · cases hs
  · cases hs
  · obtain ⟨-, hs⟩ := Option.ite_none_left_eq_some.mp hs
    obtain rfl := Option.some.inj hs
    rfl
  · obtain rfl := Option.some.inj hs
    rfl
  · obtain rfl := Option.some.inj hs
    rfl
  · obtain ⟨hold, -, rfl⟩ := Option.map_eq_some_iff.mp hs
    rfl
  · obtain ⟨d, -, rfl⟩ := Option.map_eq_some_iff.mp hs
    rfl
  · obtain rfl := Option.some.inj hs
    rfl
  · obtain rfl := Option.some.inj hs
    rfl

theorem Alarms.pollStep (h : Alarms s.timers) (hs : pollStep s = some s') : Alarms s'.timers := by
  rw [IOManager.pollStep] at hs
  split at hs <;> cases hs
  case h_6 => exact h.issueAlarms
  all_goals exact h

theorem Alarms.step (h : Alarms s.timers) (hs : step s a = some s') : Alarms s'.timers := by
  cases a with
  | newDescriptor d =>
      obtain ⟨-, hs⟩ := Option.ite_none_left_eq_some.mp hs
      obtain rfl := Option.some.inj hs
      exact h
  | close d =>
      obtain rfl := Option.some.inj hs
      exact h
  | delDescriptor giver d =>
      obtain ⟨-, hs⟩ := Option.ite_none_right_eq_some.mp hs
      obtain rfl := Option.some.inj hs
      cases d <;> exact h
  | addTimer ts task =>
      obtain rfl := Option.some.inj hs
      exact h.addTimer ts task
  | tick =>
      obtain rfl := Option.some.inj hs
      exact h.tick
  | poll =>
      obtain ⟨-, hs⟩ := Option.ite_none_right_eq_some.mp hs
      obtain rfl := Option.some.inj hs
      exact h
  | epollWait events =>
      obtain ⟨-, hs⟩ := Option.ite_none_right_eq_some.mp hs
      obtain rfl := Option.some.inj hs
      exact h
  | pollStep => exact h.pollStep hs
  | stop byWorker =>
      simp only [IOManager.step] at hs
      split at hs <;> obtain rfl := Option.some.inj hs <;> exact h
  | stopStep =>
      rw [stopStep_timers hs]
      exact h

/-- **Alarms are issued in time and in order.** In any run each of them is
issued once at most, and never before it is due; none overtakes one that
was added before it and is due no later; and when they have been looked
through, none is left that was due. -/
theorem alarms_issued (h : machine.Reachable s) :
    (s.timers.issued ++ s.timers.timerQueue).Perm s.timers.added
    ∧ (∀ e ∈ s.timers.issued, e.1 ≤ s.timers.clock)
    ∧ (s.timers.issued ++ s.timers.timerQueue).Pairwise (fun a b => ¬Overtakes a b)
    ∧ (∀ e ∈ s.timers.timerQueue, e.2.number < s.timers.scanned.2 → s.timers.scanned.1 < e.1) := by
  have hA : Alarms s.timers :=
    h.invariant (I := fun s => Alarms s.timers) (fun _ => Initial.alarms) fun _ _ _ hI _ hs =>
      hI.step hs
  exact ⟨hA.once, hA.due, hA.order, hA.left⟩

end

def newManager : State where
  timers := ⟨0, [], [], [], (0, 0)⟩
  live _ := false
  registered _ := false
  next _ := none
  deletedDesc := none
  stopped := false
  polling := false
  joined := false
  byWorker := false
  poller := .idle
  stop := .idle
  created _ := 0
  handed _ := 0
  late _ := 0
  deletions _ := 0

theorem newManager_initial : Initial newManager :=
  ⟨⟨rfl, rfl, rfl, rfl⟩, fun _ => rfl, fun _ => rfl, rfl, rfl, rfl, rfl, rfl, rfl, fun _ => rfl,
    fun _ => rfl, fun _ => rfl, fun _ => rfl⟩

/-- Three alarms, two of them due at 3, and a round at that time. -/
def alarmRun : List Act :=
  [.addTimer 5 10, .addTimer 3 20, .addTimer 3 30, .tick, .tick, .tick, .poll, .pollStep, .pollStep,
    .epollWait [], .pollStep]

theorem alarmRun_issued : ∃ s, machine.Reachable s
    ∧ s.timers.issued.map (·.2.task) = [20, 30]
    ∧ ∀ e ∈ s.timers.timerQueue, e.2.number < 3 → 3 < e.1 := by
  have hrun : (machine.exec (fun _ _ => True) newManager alarmRun).any
      (fun s => s.timers.issued.map (·.2.task) = [20, 30] && s.timers.scanned = (3, 3)) = true :=
    rfl
  obtain ⟨s, hs, hend⟩ := Lts.ReachableBy.exec_any (.init newManager_initial) hrun
  simp only [Bool.and_eq_true, decide_eq_true_eq] at hend
  obtain ⟨hissued, hscanned⟩ := hend
  have hleft := (alarms_issued hs).2.2.2
  rw [hscanned] at hleft
  exact ⟨s, hs, hissued, hleft⟩

/-! ## Descriptors -/

/-- The cells of a list of deleted descriptors. -/
def links (head : Option Desc) (next : Desc → Option Desc) : Cell Desc → Option Desc
  | .head => head
  | .next d => next d

/-- In a round, past the test of the loop. -/
def PollPc.body : PollPc → Bool
  | .epollWait | .alarms _ | .events _ | .swap | .dispose _ => true
  | _ => false

/-- The polling loop has ended, as the call of `stop()` has seen. -/
def StopPc.past : StopPc → Bool
  | .idle | .wait => false
  | _ => true

/-- No worker runs any more, but the one that may be in `stop()`. -/
def StopPc.alone : StopPc → Bool
  | .idle | .wait | .join => false
  | _ => true

/-- What the call of `stop()` has read of the list must not change, and
what comes later is not seen. -/
def StopPc.exposed : StopPc → Bool
  | .next _ | .store _ _ | .returned => true
  | _ => false

namespace State

def toDelete (s : State) : Option Desc :=
  match s.poller with
  | .dispose d => d
  | _ => none

/-- What `stop()` has unlinked and not deleted. -/
def hold (s : State) : List Desc :=
  match s.stop with
  | .delete d => [d]
  | _ => []

/-- The events that the round has still to hand over. -/
def batch (s : State) : List (Desc × Side) :=
  match s.poller with
  | .alarms calls | .events calls => calls
  | _ => []

end State

/-- What the owner of a descriptor keeps to: it closes the socket and then
gives the descriptor away, once. While `stop()` is unlinking one, or has
returned, only workers do so. -/
def Orderly (s : State) : Act → Prop
  | .delDescriptor giver (some d) =>
      s.registered d = false ∧ s.handed d < s.created d
        ∧ (giver = .other → s.stop.exposed = false)
  | _ => True

instance (s : State) : ∀ a, Decidable (Orderly s a)
  | .delDescriptor _ (some _) => inferInstanceAs (Decidable (_ ∧ _))
  | .delDescriptor _ none | .newDescriptor _ | .close _ | .addTimer _ _ | .tick | .poll
  | .epollWait _ | .pollStep | .stop _ | .stopStep => isTrue trivial

/-- The descriptors that wait to be deleted: those in `deleted_desc_`,
those that the polling loop has taken, and the one that `stop()` holds. -/
structure Waiting (s : State) (given removed : List Desc) : Prop where
  listed : Path (links s.deletedDesc s.next) .head given
  taken : Path (links s.toDelete s.next) .head removed
  nodup : (s.hold ++ (given ++ removed)).Nodup
  mem_iff : ∀ d, d ∈ s.hold ++ (given ++ removed) ↔ s.deletions d < s.handed d

structure Inv (s : State) : Prop where
  waiting : ∃ given removed, Waiting s given removed
  /-- A descriptor is deleted while it exists, after it was given away. -/
  counts : ∀ d, s.created d = s.deletions d + (s.live d).toNat ∧ s.deletions d ≤ s.handed d
    ∧ s.handed d ≤ s.created d
  registered : ∀ d, s.registered d = true → s.handed d < s.created d
  batch : ∀ c ∈ s.batch, s.live c.1 = true
  polling : s.poller.body = true ∨ s.poller = .stopped → s.polling = true
  stopping : s.stop ≠ .idle → s.stopped = true
  past : s.stop.past = true → s.poller.body = false
  alone : s.stop.alone = true → s.joined = true
  next : ∀ hold, s.stop = .next hold → s.deletedDesc = some hold
  store : ∀ hold next, s.stop = .store hold next → s.deletedDesc = some hold ∧ next = s.next hold
  returned : s.stop = .returned → ∀ d, s.handed d = s.deletions d + s.late d
  /-- Only a worker that was in `stop()` is late. -/
  late : s.stop ≠ .returned ∨ s.byWorker = false → ∀ d, s.late d = 0

section

variable {s s' : State} {a : Act} {d : Desc}

theorem Initial.inv (h : Initial s) : Inv s := by
  have htoDelete : s.toDelete = none := by rw [State.toDelete, h.poller]
  have hhold : s.hold = [] := by rw [State.hold, h.stop]
  refine ⟨⟨[], [], h.deletedDesc, htoDelete, ?_, fun d => ?_⟩, fun d => ?_, fun d hd => ?_, ?_, ?_,
    ?_, ?_, ?_, ?_, ?_, ?_, fun _ => h.late⟩
  · rw [hhold]
    exact .nil
  · simp [hhold, h.deletions, h.handed]
  · simp [h.created, h.deletions, h.handed, h.live]
  · rw [h.registered] at hd
    cases hd
  · simp [State.batch, h.poller]
  · simp [h.poller, PollPc.body]
  · simp [h.stop]
  · simp [h.stop, StopPc.past]
  · simp [h.stop, StopPc.alone]
  · simp [h.stop]
  · simp [h.stop]
  · simp [h.stop]

/-- One that waits exists. -/
theorem Inv.live_of_lt (h : Inv s) (hd : s.deletions d < s.handed d) : s.live d = true := by
  obtain ⟨hcreated, -, hle⟩ := h.counts d
  cases hl : s.live d with
  | true => rfl
  | false =>
      rw [hl, Bool.toNat_false, Nat.add_zero] at hcreated
      exact absurd (hcreated ▸ hle) (Nat.not_le.mpr hd)

theorem Inv.live_of_handed (h : Inv s) (hd : s.handed d < s.created d) : s.live d = true := by
  obtain ⟨hcreated, hle, -⟩ := h.counts d
  cases hl : s.live d with
  | true => rfl
  | false =>
      rw [hl, Bool.toNat_false, Nat.add_zero] at hcreated
      exact absurd hle (Nat.not_le.mpr (hcreated ▸ hd))

/-- One that was not given away does not wait. -/
theorem Inv.not_waiting (h : Inv s) (hd : s.handed d < s.created d) :
    s.deletions d = s.handed d := by
  obtain ⟨hcreated, hle, -⟩ := h.counts d
  have hbool := (s.live d).toNat_le
  omega

theorem Inv.newDescriptor (h : Inv s) (hd : s.live d = false) : Inv (s.newDescriptor d) := by
  obtain ⟨given, removed, hw⟩ := h.waiting
  have hcounts := h.counts d
  rw [hd, Bool.toNat_false, Nat.add_zero] at hcounts
  refine ⟨⟨given, removed, hw.listed, hw.taken, hw.nodup, hw.mem_iff⟩, fun e => ?_, fun e he => ?_,
    fun c hc => ?_, h.polling, h.stopping, h.past, h.alone, h.next, h.store, h.returned, h.late⟩
  · by_cases hed : e = d
    · subst hed
      simp only [State.newDescriptor, Function.update_self, Bool.toNat_true]
      omega
    · simp only [State.newDescriptor, Function.update_of_ne hed]
      exact h.counts e
  · by_cases hed : e = d
    · subst hed
      simp only [State.newDescriptor, Function.update_self]
      omega
    · simp only [State.newDescriptor, Function.update_of_ne hed] at he ⊢
      exact h.registered e he
  · by_cases hed : c.1 = d
    · simp only [State.newDescriptor, hed, Function.update_self]
    · simp only [State.newDescriptor, Function.update_of_ne hed]
      exact h.batch c hc

theorem Inv.close (h : Inv s) (d : Desc) :
    Inv { s with registered := Function.update s.registered d false } := by
  obtain ⟨given, removed, hw⟩ := h.waiting
  refine ⟨⟨given, removed, hw.listed, hw.taken, hw.nodup, hw.mem_iff⟩, h.counts, fun e he => ?_,
    h.batch, h.polling, h.stopping, h.past, h.alone, h.next, h.store, h.returned, h.late⟩
  by_cases hed : e = d
  · subst hed
    simp only [Function.update_self] at he
    cases he
  · simp only [Function.update_of_ne hed] at he
    exact h.registered e he

/-- A descriptor is put in front of the list. -/
theorem Inv.delDescriptor (h : Inv s) {giver : Giver} (hreg : s.registered d = false)
    (hd : s.handed d < s.created d) (hpresent : s.present giver = true)
    (hstop : giver ≠ .stopper → s.stop.exposed = false) :
    Inv (s.delDescriptor giver (some d)) := by
  have hwhile : s.stop.exposed = true → giver = .stopper ∧ s.stop = .returned := by
    intro hexp
    have hgiver : giver = .stopper := by
      by_contra hne
      exact Bool.false_ne_true ((hstop hne).symm.trans hexp)
    subst hgiver
    simp only [State.present, Bool.and_eq_true, decide_eq_true_eq] at hpresent
    exact ⟨rfl, hpresent.2⟩
  obtain ⟨given, removed, hw⟩ := h.waiting
  have hnot : d ∉ s.hold ++ (given ++ removed) := by
    rw [hw.mem_iff, h.not_waiting hd]
    exact lt_irrefl _
  have hlisted : d ∉ given := fun hmem =>
    hnot (List.mem_append_right _ (List.mem_append_left _ hmem))
  have htaken : d ∉ removed := fun hmem =>
    hnot (List.mem_append_right _ (List.mem_append_right _ hmem))
  refine ⟨⟨d :: given, removed, ⟨rfl, ?_⟩, ?_, ?_, fun e => ?_⟩, fun e => ?_, fun e he => ?_,
    h.batch, h.polling, h.stopping, h.past, h.alone, fun hold hs => ?_, fun hold next hs => ?_,
    fun hs e => ?_, fun hlate e => ?_⟩
  · refine hw.listed.congr (Function.update_self ..) fun e he => Function.update_of_ne ?_ ..
    rintro rfl
    exact hlisted he
  · refine hw.taken.congr rfl fun e he => Function.update_of_ne ?_ ..
    rintro rfl
    exact htaken he
  · exact List.nodup_middle.mpr (List.nodup_cons.mpr ⟨hnot, hw.nodup⟩)
  · have hperm : e ∈ s.hold ++ (d :: given ++ removed)
        ↔ e = d ∨ e ∈ s.hold ++ (given ++ removed) := by
      simp only [List.mem_append, List.mem_cons]
      tauto
    refine hperm.trans ?_
    rw [hw.mem_iff]
    by_cases hed : e = d
    · subst hed
      simp only [State.delDescriptor, Function.update_self, true_or, true_iff]
      exact Nat.lt_succ_of_le (h.counts e).2.1
    · simp only [State.delDescriptor, Function.update_of_ne hed, hed, false_or]
  · by_cases hed : e = d
    · subst hed
      obtain ⟨hcreated, hle, -⟩ := h.counts e
      simp only [State.delDescriptor, Function.update_self]
      exact ⟨hcreated, Nat.le_succ_of_le hle, hd⟩
    · simp only [State.delDescriptor, Function.update_of_ne hed]
      exact h.counts e
  · have hed : e ≠ d := by
      rintro rfl
      exact Bool.false_ne_true (hreg.symm.trans he)
    simp only [State.delDescriptor, Function.update_of_ne hed]
    exact h.registered e he
  · have hs : s.stop = .next hold := hs
    obtain ⟨-, hreturned⟩ := hwhile (by rw [hs]; rfl)
    cases hs.symm.trans hreturned
  · have hs : s.stop = .store hold next := hs
    obtain ⟨-, hreturned⟩ := hwhile (by rw [hs]; rfl)
    cases hs.symm.trans hreturned
  · have hs : s.stop = .returned := hs
    obtain ⟨rfl, -⟩ := hwhile (by rw [hs]; rfl)
    have hcount := h.returned hs e
    simp only [State.delDescriptor, if_pos]
    by_cases hed : e = d
    · subst hed
      simp only [Function.update_self]
      omega
    · simp only [Function.update_of_ne hed]
      exact hcount
  · have hgiver : giver ≠ .stopper := by
      rintro rfl
      simp only [State.present, Bool.and_eq_true, decide_eq_true_eq] at hpresent
      rcases hlate with hne | hworker
      · exact hne hpresent.2
      · exact Bool.false_ne_true (hworker.symm.trans hpresent.1)
    simp only [State.delDescriptor, if_neg hgiver]
    exact h.late hlate e

/-! ### The polling loop -/

/-- `poll()` goes on, and does not touch the list. -/
theorem Inv.goPoll (h : Inv s) (pc : PollPc) {timers : Timers} {polling : Bool}
    (hold : s.toDelete = none) (hnew : ({ s with poller := pc } : State).toDelete = none)
    (hbatch : ∀ c ∈ ({ s with poller := pc } : State).batch, s.live c.1 = true)
    (hpolling : pc.body = true ∨ pc = .stopped → polling = true)
    (hpast : s.stop.past = true → pc.body = false) :
    Inv { s with timers, polling, poller := pc } := by
  obtain ⟨given, removed, hw⟩ := h.waiting
  refine ⟨⟨given, removed, hw.listed, ?_, hw.nodup, hw.mem_iff⟩, h.counts, h.registered, hbatch,
    hpolling, h.stopping, hpast, h.alone, h.next, h.store, h.returned, h.late⟩
  have htaken := hw.taken
  rw [hold, ← hnew] at htaken
  exact htaken

/-- In a round the loop has not ended. -/
theorem Inv.not_past (h : Inv s) (hbody : s.poller.body = true) {P : Prop}
    (hpast : s.stop.past = true) : P :=
  absurd ((h.past hpast).symm.trans hbody) Bool.false_ne_true

/-- The polling loop takes the list. -/
theorem Inv.swap (h : Inv s) (hp : s.poller = .swap) :
    Inv { s with deletedDesc := none, poller := .dispose s.deletedDesc } := by
  obtain ⟨given, removed, hw⟩ := h.waiting
  have hbody : s.poller.body = true := by rw [hp]; rfl
  have hstop : s.stop.past = false := by
    rw [Bool.eq_false_iff]
    intro hpast
    rw [h.past hpast] at hbody
    cases hbody
  have hnone : removed = [] := by
    have htaken := hw.taken
    rw [State.toDelete, hp] at htaken
    exact htaken.unique rfl
  subst hnone
  refine ⟨⟨[], given, rfl, hw.listed, ?_, fun d => ?_⟩, h.counts, h.registered, ?_,
    fun _ => h.polling (.inl hbody), h.stopping, fun hpast => ?_, h.alone, fun hold hs => ?_,
    fun hold next hs => ?_, h.returned, h.late⟩
  · have hnodup := hw.nodup
    rw [List.append_nil] at hnodup
    exact hnodup
  · have hmem := hw.mem_iff d
    rw [List.append_nil] at hmem
    exact hmem
  · simp [State.batch]
  · exact absurd (hstop.symm.trans hpast) Bool.false_ne_true
  · have hs : s.stop = .next hold := hs
    rw [hs] at hstop
    cases hstop
  · have hs : s.stop = .store hold next := hs
    rw [hs] at hstop
    cases hstop

theorem Inv.counts_delete (h : Inv s) (hd : s.deletions d < s.handed d) (e : Desc) :
    s.created e = (s.delete d).deletions e + ((s.delete d).live e).toNat
      ∧ (s.delete d).deletions e ≤ s.handed e ∧ s.handed e ≤ s.created e := by
  obtain ⟨hcreated, hle, hhanded⟩ := h.counts e
  by_cases hed : e = d
  · subst hed
    rw [h.live_of_lt hd, Bool.toNat_true] at hcreated
    simp only [State.delete, Function.update_self, Bool.toNat_false]
    omega
  · simp only [State.delete, Function.update_of_ne hed]
    exact ⟨hcreated, hle, hhanded⟩

/-- It does not wait any more. -/
theorem Inv.delete_lt_iff (h : Inv s) (hd : s.deletions d < s.handed d) (e : Desc) :
    (s.delete d).deletions e < s.handed e ↔ e ≠ d ∧ s.deletions e < s.handed e := by
  by_cases hed : e = d
  · subst hed
    have hcounts := h.counts e
    rw [h.live_of_lt hd, Bool.toNat_true] at hcounts
    simp only [State.delete, Function.update_self, ne_eq, not_true_eq_false, false_and, iff_false]
    omega
  · simp only [State.delete, Function.update_of_ne hed, ne_eq, hed, not_false_eq_true, true_and]

theorem mem_without {hold given rest : List Desc} {e : Desc} (hd : d ∉ hold ++ (given ++ rest)) :
    e ∈ hold ++ (given ++ rest) ↔ e ≠ d ∧ e ∈ hold ++ (given ++ d :: rest) := by
  by_cases hed : e = d
  · subst hed
    exact iff_of_false hd fun hf => hf.1 rfl
  · simp [hed]

/-- It deletes the first of those that it took. -/
theorem Inv.dispose (h : Inv s) (hp : s.poller = .dispose (some d)) :
    Inv { s.delete d with poller := .dispose (s.next d) } := by
  obtain ⟨given, removed, hw⟩ := h.waiting
  have hbody : s.poller.body = true := by rw [hp]; rfl
  have htaken := hw.taken
  rw [State.toDelete, hp] at htaken
  cases removed with
  | nil => cases htaken
  | cons e rest =>
      obtain ⟨hfirst, hrest⟩ := htaken
      obtain rfl : d = e := Option.some.inj hfirst
      have hnodup := List.nodup_middle.mp (List.append_assoc s.hold given (d :: rest) ▸ hw.nodup)
      obtain ⟨hnot, hnodup⟩ := List.nodup_cons.mp hnodup
      rw [List.append_assoc] at hnot hnodup
      have hd : s.deletions d < s.handed d := (hw.mem_iff d).mp (by simp)
      refine ⟨⟨given, rest, hw.listed, hrest.congr rfl fun _ _ => rfl, hnodup, fun e => ?_⟩,
        h.counts_delete hd, h.registered, ?_, fun _ => h.polling (.inl hbody), h.stopping,
        fun hpast => ?_, h.alone, h.next, h.store, fun hs => ?_, h.late⟩
      · refine Iff.trans ?_ (h.delete_lt_iff hd e).symm
        rw [← hw.mem_iff e]
        exact mem_without hnot
      · simp [State.batch]
      · exact h.not_past hbody hpast
      · have hs : s.stop = .returned := hs
        exact h.not_past hbody (by rw [hs]; rfl)

theorem Inv.epollWait (h : Inv s) (hp : s.poller = .epollWait) {events : List EpollEvent}
    (hopen : ∀ e ∈ events, s.registered e.desc = true) :
    Inv { s with poller := .alarms (events.flatMap calls) } := by
  have hbody : s.poller.body = true := by rw [hp]; rfl
  refine h.goPoll _ (by rw [State.toDelete, hp]) rfl (fun c hc => ?_)
    (fun _ => h.polling (.inl hbody))
    (h.not_past hbody)
  obtain ⟨e, he, hce⟩ := List.mem_flatMap.mp hc
  have hdesc : c.1 = e.desc := by
    simp only [calls, List.mem_append, List.mem_ite_nil_right, List.mem_singleton] at hce
    rcases hce with ⟨-, rfl⟩ | ⟨-, rfl⟩ <;> rfl
  rw [hdesc]
  exact h.live_of_handed (h.registered _ (hopen e he))

/-- The test of the loop. -/
theorem Inv.testStopped (h : Inv s) (hp : s.poller = .stopped) :
    Inv { s with poller := if s.stopped then .finish else .epollWait } := by
  refine h.goPoll (if s.stopped then .finish else .epollWait) (by rw [State.toDelete, hp]) ?_ ?_
    (fun _ => h.polling (.inr hp)) fun hpast => ?_
  · cases hstop : s.stopped <;> rfl
  · cases hstop : s.stopped <;> simp [State.batch]
  · have hne : s.stop ≠ .idle := by
      intro hidle
      rw [hidle] at hpast
      cases hpast
    rw [if_pos (h.stopping hne)]
    rfl

theorem Inv.pollStep (h : Inv s) (hs : pollStep s = some s') : Inv s' := by
  rw [IOManager.pollStep] at hs
  cases hp : s.poller with
  | idle | epollWait | returned =>
      rw [hp] at hs
      cases hs
  | start =>
      rw [hp] at hs
      obtain rfl := Option.some.inj hs
      exact h.goPoll .stopped (by rw [State.toDelete, hp]) rfl (by simp [State.batch])
        (fun _ => rfl)
        fun _ => rfl
  | stopped =>
      rw [hp] at hs
      obtain rfl := Option.some.inj hs
      exact h.testStopped hp
  | alarms calls =>
      rw [hp] at hs
      obtain rfl := Option.some.inj hs
      have hbody : s.poller.body = true := by rw [hp]; rfl
      have hbatch := h.batch
      rw [State.batch, hp] at hbatch
      exact h.goPoll (.events calls) (by rw [State.toDelete, hp]) rfl hbatch
        (fun _ => h.polling (.inl hbody)) (h.not_past hbody)
  | events calls =>
      rw [hp] at hs
      have hbody : s.poller.body = true := by rw [hp]; rfl
      have hbatch := h.batch
      rw [State.batch, hp] at hbatch
      cases calls with
      | nil =>
          obtain rfl := Option.some.inj hs
          exact h.goPoll .swap (by rw [State.toDelete, hp]) rfl (by simp [State.batch])
            (fun _ => h.polling (.inl hbody)) (h.not_past hbody)
      | cons c calls =>
          obtain rfl := Option.some.inj hs
          exact h.goPoll (.events calls) (by rw [State.toDelete, hp]) rfl
            (fun c hc => hbatch c (List.mem_cons_of_mem _ hc)) (fun _ => h.polling (.inl hbody))
            (h.not_past hbody)
  | swap =>
      rw [hp] at hs
      obtain rfl := Option.some.inj hs
      exact h.swap hp
  | dispose toDelete =>
      rw [hp] at hs
      cases toDelete with
      | none =>
          obtain rfl := Option.some.inj hs
          have hbody : s.poller.body = true := by rw [hp]; rfl
          exact h.goPoll .stopped (by rw [State.toDelete, hp]) rfl (by simp [State.batch])
            (fun _ => h.polling (.inl hbody)) fun _ => rfl
      | some d =>
          obtain rfl := Option.some.inj hs
          exact h.dispose hp
  | finish =>
      rw [hp] at hs
      obtain rfl := Option.some.inj hs
      refine h.goPoll .returned (by rw [State.toDelete, hp]) rfl (by simp [State.batch]) ?_
        fun _ => rfl
      rintro (hbody | hstopped)
      · cases hbody
      · cases hstopped

/-! ### The end of `stop()` -/

/-- `stop()` goes on, and does not touch the list. -/
theorem Inv.goStop (h : Inv s) (pc : StopPc) {stopped joined byWorker : Bool}
    (hgoing : s.stop ≠ .returned) (hstopped : stopped = true)
    (hold : s.hold = []) (hnew : ({ s with stop := pc } : State).hold = [])
    (hpast : pc.past = true → s.poller.body = false) (halone : pc.alone = true → joined = true)
    (hnext : ∀ hold, pc = .next hold → s.deletedDesc = some hold)
    (hstore : ∀ hold next, pc = .store hold next → s.deletedDesc = some hold ∧ next = s.next hold)
    (hreturned : pc = .returned → ∀ d, s.handed d = s.deletions d) :
    Inv { s with stopped, joined, byWorker, stop := pc } := by
  obtain ⟨given, removed, hw⟩ := h.waiting
  have hlate := h.late (.inl hgoing)
  have hsame : ({ s with stopped, joined, byWorker, stop := pc } : State).hold = s.hold :=
    hnew.trans hold.symm
  refine ⟨⟨given, removed, hw.listed, hw.taken, ?_, fun d => ?_⟩, h.counts, h.registered, h.batch,
    h.polling, fun _ => hstopped, hpast, halone, hnext, hstore, fun hpc d => ?_, fun _ => hlate⟩
  · rw [hsame]
    exact hw.nodup
  · rw [hsame]
    exact hw.mem_iff d
  · show s.handed d = s.deletions d + s.late d
    rw [hlate d]
    exact hreturned hpc d

/-- The first of the list is unlinked. -/
theorem Inv.unlink (h : Inv s) {hold : Desc} {next : Option Desc} (hp : s.stop = .store hold next) :
    Inv { s with deletedDesc := next, stop := .delete hold } := by
  obtain ⟨given, removed, hw⟩ := h.waiting
  obtain ⟨hfirst, rfl⟩ := h.store hold next hp
  have hnone : s.hold = [] := by rw [State.hold, hp]
  have hpast : s.stop.past = true := by rw [hp]; rfl
  have hjoined := h.alone (by rw [hp]; rfl)
  have hlisted := hw.listed
  have hnodup := hw.nodup
  rw [hnone, List.nil_append] at hnodup
  cases given with
  | nil => exact absurd (hfirst.symm.trans hlisted) (by simp)
  | cons d rest =>
      obtain ⟨hd, hrest⟩ := hlisted
      obtain rfl : hold = d := Option.some.inj (hfirst.symm.trans hd)
      refine ⟨⟨rest, removed, hrest.congr rfl fun _ _ => rfl, hw.taken, hnodup, fun e => ?_⟩,
        h.counts, h.registered, h.batch, h.polling, fun _ => h.stopping (by simp [hp]),
        fun _ => h.past hpast, fun _ => hjoined, fun _ hs => ?_, fun _ _ hs => ?_, fun hs => ?_,
        fun _ => h.late (.inl (by simp [hp]))⟩
      · rw [← hw.mem_iff e, hnone]
        rfl
      · cases hs
      · cases hs
      · cases hs

/-- It is deleted. -/
theorem Inv.deleteHold (h : Inv s) {hold : Desc} (hp : s.stop = .delete hold) :
    Inv { s.delete hold with stop := .test } := by
  obtain ⟨given, removed, hw⟩ := h.waiting
  have hheld : s.hold = [hold] := by rw [State.hold, hp]
  have hpast : s.stop.past = true := by rw [hp]; rfl
  have hjoined := h.alone (by rw [hp]; rfl)
  have hd : s.deletions hold < s.handed hold := (hw.mem_iff hold).mp (by simp [hheld])
  have hnodup := hw.nodup
  rw [hheld, List.singleton_append] at hnodup
  obtain ⟨hnot, hnodup⟩ := List.nodup_cons.mp hnodup
  have hbatch : s.batch = [] := by
    have hbody := h.past hpast
    rw [State.batch]
    cases hpoll : s.poller with
    | alarms calls | events calls =>
        rw [hpoll] at hbody
        cases hbody
    | _ => rfl
  refine ⟨⟨given, removed, hw.listed, hw.taken, hnodup, fun e => ?_⟩, h.counts_delete hd,
    h.registered, fun c hc => ?_, h.polling, fun _ => h.stopping (by simp [hp]),
    fun _ => h.past hpast, fun _ => hjoined, fun _ hs => ?_, fun _ _ hs => ?_, fun hs => ?_,
    fun _ => h.late (.inl (by simp [hp]))⟩
  · refine Iff.trans ?_ (h.delete_lt_iff hd e).symm
    rw [← hw.mem_iff e, hheld]
    by_cases heh : e = hold
    · subst heh
      exact iff_of_false hnot fun hf => hf.1 rfl
    · simp [State.hold, heh]
  · have hc : c ∈ s.batch := hc
    rw [hbatch] at hc
    cases hc
  · cases hs
  · cases hs
  · cases hs

/-- When the list is empty, nothing waits. -/
theorem Inv.all_deleted (h : Inv s) (hhold : s.hold = []) (hpast : s.stop.past = true)
    (hnone : s.deletedDesc = none) (d : Desc) : s.handed d = s.deletions d := by
  obtain ⟨given, removed, hw⟩ := h.waiting
  have hbody := h.past hpast
  have hgiven : given = [] := hw.listed.unique hnone
  have hremoved : removed = [] := by
    have htoDelete : s.toDelete = none := by
      rw [State.toDelete]
      cases hpoll : s.poller with
      | dispose d =>
          rw [hpoll] at hbody
          cases hbody
      | _ => rfl
    exact hw.taken.unique htoDelete
  have hnot : ¬s.deletions d < s.handed d := by
    rw [← hw.mem_iff d, hgiven, hremoved, hhold]
    exact List.not_mem_nil
  exact Nat.le_antisymm (not_lt.mp hnot) (h.counts d).2.1

/-- The test of its loop. -/
theorem Inv.testDeleted (h : Inv s) (hp : s.stop = .test) :
    Inv { s with stop := if s.deletedDesc.isSome then .take else .returned } := by
  have hhold : s.hold = [] := by rw [State.hold, hp]
  have hpast : s.stop.past = true := by rw [hp]; rfl
  refine h.goStop (if s.deletedDesc.isSome then .take else .returned) (by simp [hp])
    (h.stopping (by simp [hp])) hhold ?_ (fun _ => h.past hpast)
    (fun _ => h.alone (by rw [hp]; rfl)) (fun hold => ?_) (fun hold next => ?_) fun hpc => ?_
  · cases s.deletedDesc <;> rfl
  · cases s.deletedDesc <;> simp
  · cases s.deletedDesc <;> simp
  · refine h.all_deleted hhold hpast ?_
    cases hdesc : s.deletedDesc with
    | none => rfl
    | some d =>
        rw [hdesc] at hpc
        cases hpc

theorem Inv.stopStep (h : Inv s) (hs : stopStep s = some s') : Inv s' := by
  rw [IOManager.stopStep] at hs
  cases hp : s.stop with
  | idle | returned =>
      rw [hp] at hs
      cases hs
  | wait =>
      rw [hp] at hs
      obtain ⟨hpolling, hs⟩ := Option.ite_none_left_eq_some.mp hs
      obtain rfl := Option.some.inj hs
      refine h.goStop .join (by simp [hp]) (h.stopping (by simp [hp])) (by rw [State.hold, hp]) rfl
        (fun _ => ?_)
        (by simp [StopPc.alone]) (by simp) (by simp) (by simp)
      rw [Bool.eq_false_iff]
      exact fun hbody => hpolling (h.polling (.inl hbody))
  | join =>
      rw [hp] at hs
      obtain rfl := Option.some.inj hs
      exact h.goStop .test (by simp [hp]) (h.stopping (by simp [hp])) (by rw [State.hold, hp]) rfl
        (fun _ => h.past (by rw [hp]; rfl)) (fun _ => rfl) (by simp) (by simp) (by simp)
  | test =>
      rw [hp] at hs
      obtain rfl := Option.some.inj hs
      exact h.testDeleted hp
  | take =>
      rw [hp] at hs
      obtain ⟨hold, hhold, rfl⟩ := Option.map_eq_some_iff.mp hs
      refine h.goStop (.next hold) (by simp [hp]) (h.stopping (by simp [hp]))
        (by rw [State.hold, hp]) rfl
        (fun _ => h.past (by rw [hp]; rfl)) (fun _ => h.alone (by rw [hp]; rfl)) ?_ (by simp)
        (by simp)
      rintro d heq
      obtain rfl := StopPc.next.inj heq
      exact hhold
  | next hold =>
      rw [hp] at hs
      obtain ⟨d, hd, rfl⟩ := Option.map_eq_some_iff.mp hs
      obtain rfl : hold = d := Option.some.inj ((h.next hold hp).symm.trans hd)
      refine h.goStop (.store hold (s.next hold)) (by simp [hp]) (h.stopping (by simp [hp]))
        (by rw [State.hold, hp]) rfl (fun _ => h.past (by rw [hp]; rfl))
        (fun _ => h.alone (by rw [hp]; rfl)) (by simp) ?_ (by simp)
      intro d next heq
      obtain ⟨rfl, rfl⟩ := StopPc.store.inj heq
      exact ⟨hd, rfl⟩
  | store hold next =>
      rw [hp] at hs
      obtain rfl := Option.some.inj hs
      exact h.unlink hp
  | delete hold =>
      rw [hp] at hs
      obtain rfl := Option.some.inj hs
      exact h.deleteHold hp

/-- The first section of `stop()`. -/
theorem Inv.stop (h : Inv s) (hstop : s.stopped = false) (byWorker : Bool) :
    Inv { s with stopped := true, byWorker, stop := if s.polling then .wait else .join } := by
  have hidle : s.stop = .idle := by
    by_contra hne
    exact absurd (hstop.symm.trans (h.stopping hne)) Bool.false_ne_true
  refine h.goStop (if s.polling then .wait else .join) (by simp [hidle]) rfl
    (by rw [State.hold, hidle]) ?_ ?_ ?_ ?_ ?_ ?_
  all_goals cases hp : s.polling
  all_goals simp [State.hold, StopPc.past, StopPc.alone]
  rw [Bool.eq_false_iff]
  intro hbody
  rw [h.polling (.inl hbody)] at hp
  cases hp

theorem Inv.step (h : Inv s) (hok : Orderly s a) (hs : step s a = some s') : Inv s' := by
  cases a with
  | newDescriptor d =>
      obtain ⟨hlive, hs⟩ := Option.ite_none_left_eq_some.mp hs
      obtain rfl := Option.some.inj hs
      exact h.newDescriptor (Bool.eq_false_iff.mpr hlive)
  | close d =>
      obtain rfl := Option.some.inj hs
      exact h.close d
  | delDescriptor giver d =>
      obtain ⟨hpresent, hs⟩ := Option.ite_none_right_eq_some.mp hs
      obtain rfl := Option.some.inj hs
      cases d with
      | none => exact h
      | some d =>
          obtain ⟨hreg, hd, hexposed⟩ := hok
          refine h.delDescriptor hreg hd hpresent fun hne => ?_
          cases giver with
          | other => exact hexposed rfl
          | stopper => exact absurd rfl hne
          | worker =>
              -- a worker is still there
              rw [Bool.eq_false_iff]
              intro hexp
              have halone : s.stop.alone = true := by
                revert hexp
                cases s.stop <;> simp [StopPc.exposed, StopPc.alone]
              rw [State.present, h.alone halone] at hpresent
              cases hpresent
  | addTimer ts task =>
      obtain rfl := Option.some.inj hs
      obtain ⟨given, removed, hw⟩ := h.waiting
      exact ⟨⟨given, removed, hw.listed, hw.taken, hw.nodup, hw.mem_iff⟩, h.counts, h.registered,
        h.batch, h.polling, h.stopping, h.past, h.alone, h.next, h.store, h.returned, h.late⟩
  | tick =>
      obtain rfl := Option.some.inj hs
      obtain ⟨given, removed, hw⟩ := h.waiting
      exact ⟨⟨given, removed, hw.listed, hw.taken, hw.nodup, hw.mem_iff⟩, h.counts, h.registered,
        h.batch, h.polling, h.stopping, h.past, h.alone, h.next, h.store, h.returned, h.late⟩
  | poll =>
      obtain ⟨hp, hs⟩ := Option.ite_none_right_eq_some.mp hs
      obtain rfl := Option.some.inj hs
      exact h.goPoll .start (by rw [State.toDelete, hp]) rfl (by simp [State.batch])
        (by simp [PollPc.body]) fun _ => rfl
  | epollWait events =>
      obtain ⟨⟨hp, -, hopen⟩, hs⟩ := Option.ite_none_right_eq_some.mp hs
      obtain rfl := Option.some.inj hs
      exact h.epollWait hp hopen
  | pollStep => exact h.pollStep hs
  | stop byWorker =>
      by_cases hstop : s.stopped = true
      · rw [IOManager.step, if_pos hstop] at hs
        obtain rfl := Option.some.inj hs
        exact h
      · rw [IOManager.step, if_neg hstop] at hs
        obtain rfl := Option.some.inj hs
        exact h.stop (Bool.eq_false_iff.mpr hstop) byWorker
  | stopStep => exact h.stopStep hs

theorem reachable_inv (h : machine.ReachableBy Orderly s) : Inv s :=
  h.invariant (fun _ => Initial.inv) fun _ _ _ hI hok hs => hI.step hok hs

/-- **Every descriptor is deleted once.** In a run in which descriptors are
given away as they should be, an event is handed to a descriptor that
exists; a descriptor is deleted only while it exists and after it was
given away, once each time. When `stop()` has returned, all that were given
away have been deleted, except those that the worker in which it was called
has given away since: these are left. -/
theorem descriptors_collected (h : machine.ReachableBy Orderly s) :
    (∀ d σ rest, s.poller = .events ((d, σ) :: rest) → s.live d = true)
    ∧ (∀ d, s.created d = s.deletions d + (s.live d).toNat ∧ s.deletions d ≤ s.handed d
      ∧ s.handed d ≤ s.created d)
    ∧ (s.stop = .returned → ∀ d, s.handed d = s.deletions d + s.late d)
    ∧ (s.stop = .returned → s.byWorker = false → ∀ d, s.handed d = s.deletions d) := by
  have hI := reachable_inv h
  refine ⟨fun d σ rest hp => ?_, hI.counts, hI.returned, fun hp hworker d => ?_⟩
  · refine hI.batch (d, σ) ?_
    rw [State.batch, hp]
    exact List.mem_cons_self ..
  · rw [hI.returned hp d, hI.late (.inr hworker) d, Nat.add_zero]

end

/-- Descriptor 1 is given away when there is an event for it, and is
disposed of by the polling loop; descriptor 2 is left to `stop()`, which a
worker calls; that worker gives descriptor 3 away later. -/
def closeRun : List Act :=
  [.newDescriptor 1, .newDescriptor 2, .newDescriptor 3, .poll, .pollStep, .pollStep,
    .epollWait [⟨1, false, false, true, false⟩], .close 1, .delDescriptor .worker (some 1)]
    ++ List.replicate 6 .pollStep
    ++ [.stop true, .close 2, .delDescriptor .worker (some 2), .pollStep, .pollStep]
    ++ List.replicate 8 .stopStep
    ++ [.close 3, .delDescriptor .stopper (some 3)]

theorem closeRun_collected : ∃ s, machine.ReachableBy Orderly s ∧ s.stop = .returned
    ∧ s.deletions 1 = 1 ∧ s.deletions 2 = 1 ∧ s.handed 3 = 1 ∧ s.deletions 3 = 0 := by
  have hrun : (machine.exec Orderly newManager closeRun).any
      (fun s => s.stop = .returned && s.handed 1 = 1 && s.late 1 = 0 && s.handed 2 = 1
        && s.late 2 = 0 && s.handed 3 = 1 && s.late 3 = 1) = true := rfl
  obtain ⟨s, hs, hend⟩ := Lts.ReachableBy.exec_any (.init newManager_initial) hrun
  simp only [Bool.and_eq_true, decide_eq_true_eq] at hend
  obtain ⟨⟨⟨⟨⟨⟨hreturned, hone⟩, hone'⟩, htwo⟩, htwo'⟩, hthree⟩, hthree'⟩ := hend
  have hall := (descriptors_collected hs).2.2.1 hreturned
  have h1 := hall 1
  have h2 := hall 2
  have h3 := hall 3
  exact ⟨s, hs, hreturned, by omega, by omega, hthree, by omega⟩

/-- Another thread gives descriptor 2 away when `stop()` has read the head
of the list, and not yet where the list goes on. -/
def givenAway : List Act :=
  [.newDescriptor 1, .newDescriptor 2, .close 1, .close 2, .delDescriptor .other (some 1),
    .stop false, .stopStep, .stopStep, .stopStep, .delDescriptor .other (some 2)]
    ++ List.replicate 9 .stopStep

theorem givenAway_deleted_twice : ∃ s, machine.Reachable s ∧ s.stop = .returned
    ∧ s.handed 1 = 1 ∧ s.deletions 1 = 2 ∧ s.handed 2 = 1 ∧ s.deletions 2 = 0 := by
  have hrun : (machine.exec (fun _ _ => True) newManager givenAway).any
      (fun s => s.stop = .returned && s.handed 1 = 1 && s.deletions 1 = 2 && s.handed 2 = 1
        && s.deletions 2 = 0) = true := rfl
  obtain ⟨s, hs, hend⟩ := Lts.ReachableBy.exec_any (.init newManager_initial) hrun
  simp only [Bool.and_eq_true, decide_eq_true_eq] at hend
  obtain ⟨⟨⟨⟨hreturned, hone⟩, hone'⟩, htwo⟩, htwo'⟩ := hend
  exact ⟨s, hs, hreturned, hone, hone', htwo, htwo'⟩

end IOManager

end HttpServer
