import HttpServer.Lib.Lts

/-!
# A notification and the value it announces

`Notification` (lock.hpp) as the synchronous calls use it: one thread waits
for it and destroys it, another one, in a callback, stores a value where
the first one will look for it and calls `notify()` (`receiveInternal` of
http_connection.cpp, `connectInternal` of http_service.cpp).

`m_` shows between the steps. `pthread_cond_wait` may return without a
signal, and goes back into the loop then.

The one who waits does not return before the other has left `notify()`, so
it destroys nothing that is still in use, and it is not left asleep.
-/

namespace HttpServer

namespace Notification

/-- Where the thread that waits is. -/
inductive WaitPc where
  /-- It has made the `Notification` and does not wait yet. -/
  | begin
  /-- `ScopedLock l(&m_)`, or the end of `cv_.wait`. -/
  | lock
  /-- `while (! notified_)`. -/
  | test
  | asleep
  /-- The end of the scope in `wait()`. -/
  | unlock
  /-- `delete n`. -/
  | delete
  | deleted
deriving DecidableEq, Repr

/-- Where the callback is. -/
inductive NotifyPc where
  /-- It has not been called, or is about to store the value. -/
  | store
  | lock
  /-- `notified_ = true`. -/
  | set
  | signal
  /-- The end of the scope in `notify()`. -/
  | unlock
  | returned
deriving DecidableEq, Repr

inductive Party where
  | waiter
  | notifier
deriving DecidableEq, Repr

structure State (α : Type*) where
  waiter : WaitPc
  notifier : NotifyPc
  /-- Who holds `m_`. -/
  holder : Option Party
  notified : Bool
  /-- What the callback has stored. -/
  value : Option α
deriving DecidableEq, Repr

inductive Act (α : Type*) where
  | begin
  | wait
  | wake
  | notify (v : α)

variable {α : Type*}

/-- Where `signal()` leaves the thread that waits. -/
def WaitPc.signalled : WaitPc → WaitPc
  | .asleep => .lock
  | pc => pc

/-- A new `Notification`. -/
def new : State α := ⟨.begin, .store, none, false, none⟩

/-- The next step of the thread that waits. -/
def wait (s : State α) : Option (State α) :=
  match s.waiter with
  | .lock =>
      if s.holder = none then some { s with holder := some .waiter, waiter := .test } else none
  | .test =>
      if s.notified then some { s with waiter := .unlock }
      else some { s with holder := none, waiter := .asleep }
  | .unlock => some { s with holder := none, waiter := .delete }
  | .delete => some { s with waiter := .deleted }
  | _ => none

/-- The next step of the callback with the value `v`. -/
def notify (s : State α) (v : α) : Option (State α) :=
  match s.notifier with
  | .store => some { s with value := some v, notifier := .lock }
  | .lock =>
      if s.holder = none then some { s with holder := some .notifier, notifier := .set } else none
  | .set => some { s with notified := true, notifier := .signal }
  | .signal => some { s with waiter := s.waiter.signalled, notifier := .unlock }
  | .unlock => some { s with holder := none, notifier := .returned }
  | .returned => none

def step (s : State α) : Act α → Option (State α)
  | .begin => if s.waiter = .begin then some { s with waiter := .lock } else none
  | .wait => wait s
  | .wake => if s.waiter = .asleep then some { s with waiter := .lock } else none
  | .notify v => notify s v

/-! ## What holds of it -/

/-- `notified_` has been set. -/
def NotifyPc.past : NotifyPc → Bool
  | .signal | .unlock | .returned => true
  | _ => false

/-- In the section of `notify()`. -/
def NotifyPc.inside : NotifyPc → Bool
  | .set | .signal | .unlock => true
  | _ => false

/-- In the section of `wait()`. -/
def WaitPc.inside : WaitPc → Bool
  | .test | .unlock => true
  | _ => false

/-- Out of the loop of `wait()`. -/
def WaitPc.past : WaitPc → Bool
  | .unlock | .delete | .deleted => true
  | _ => false

structure Inv (s : State α) : Prop where
  waiter : s.holder = some .waiter ↔ s.waiter.inside = true
  notifier : s.holder = some .notifier ↔ s.notifier.inside = true
  notified : s.notified = s.notifier.past
  value : s.value.isSome = true ↔ s.notifier ≠ .store
  asleep : s.waiter = .asleep → s.notified = true → s.notifier = .signal
  past : s.waiter.past = true → s.notifier = .returned

@[simp] theorem WaitPc.inside_signalled (pc : WaitPc) : pc.signalled.inside = pc.inside := by
  cases pc <;> rfl

@[simp] theorem WaitPc.past_signalled (pc : WaitPc) : pc.signalled.past = pc.past := by
  cases pc <;> rfl

theorem WaitPc.signalled_ne_asleep (pc : WaitPc) : pc.signalled ≠ .asleep := by
  cases pc <;> simp [signalled]

theorem WaitPc.signalled_eq_deleted (pc : WaitPc) : pc.signalled = .deleted ↔ pc = .deleted := by
  cases pc <;> simp [signalled]

variable {s s' : State α}

theorem new_inv : Inv (new : State α) := by
  constructor <;> simp [new, WaitPc.inside, NotifyPc.inside, NotifyPc.past, WaitPc.past]

theorem Inv.begin (h : Inv s) (hp : s.waiter = .begin ∨ s.waiter = .asleep) :
    Inv { s with waiter := .lock } := by
  have hout : s.waiter.inside = false := by rcases hp with hp | hp <;> rw [hp] <;> rfl
  refine ⟨?_, h.notifier, h.notified, h.value, by simp, by simp [WaitPc.past]⟩
  rw [h.waiter, hout]
  simp [WaitPc.inside]

theorem Inv.wait (h : Inv s) (hs : wait s = some s') : Inv s' := by
  unfold Notification.wait at hs
  split at hs
  case h_1 hp =>
    obtain ⟨hfree, hs⟩ := Option.ite_none_right_eq_some.mp hs
    obtain rfl := Option.some.inj hs
    have hout : s.notifier.inside = false := by
      rw [← Bool.not_eq_true, ← h.notifier, hfree]
      simp
    refine ⟨by simp [WaitPc.inside], by simp [hout], h.notified, h.value, by simp,
      by simp [WaitPc.past]⟩
  case h_2 hp =>
    have hhold : s.holder = some .waiter := h.waiter.mpr (by rw [hp]; rfl)
    have hout : s.notifier.inside = false := by
      rw [← Bool.not_eq_true, ← h.notifier, hhold]
      simp
    split at hs
    · next hn =>
        obtain rfl := Option.some.inj hs
        -- past the flag and out of the section: `notify()` has returned
        have hret : s.notifier = .returned := by
          rw [h.notified] at hn
          revert hn hout
          cases s.notifier <;> simp [NotifyPc.past, NotifyPc.inside]
        exact ⟨by simp [hhold, WaitPc.inside], h.notifier, h.notified, h.value, by simp,
          fun _ => hret⟩
    · next hn =>
        obtain rfl := Option.some.inj hs
        exact ⟨by simp [WaitPc.inside], by simp [hout], h.notified, h.value,
          fun _ hn' => absurd hn' hn, by simp [WaitPc.past]⟩
  case h_3 hp =>
    obtain rfl := Option.some.inj hs
    have hret := h.past (by rw [hp]; rfl)
    exact ⟨by simp [WaitPc.inside], by simp [hret, NotifyPc.inside], h.notified, h.value, by simp,
      fun _ => hret⟩
  case h_4 hp =>
    obtain rfl := Option.some.inj hs
    refine ⟨?_, h.notifier, h.notified, h.value, by simp, fun _ => h.past (by rw [hp]; rfl)⟩
    rw [h.waiter, hp]
    simp [WaitPc.inside]
  case h_5 => cases hs

theorem Inv.notify (h : Inv s) {v : α} (hs : notify s v = some s') : Inv s' := by
  unfold Notification.notify at hs
  -- before it has returned, the one who waits is in its loop
  have hloop : s.notifier ≠ .returned → s.waiter.past = false := fun hne =>
    Bool.eq_false_iff.mpr fun hp => hne (h.past hp)
  split at hs
  case h_1 hp =>
    obtain rfl := Option.some.inj hs
    have hbefore : s.notified = false := by rw [h.notified, hp]; rfl
    refine ⟨h.waiter, ?_, ?_, by simp, by simp [hbefore], by simp [hloop, hp]⟩
    · rw [h.notifier, hp]
      simp [NotifyPc.inside]
    · rw [hbefore]
      rfl
  case h_2 hp =>
    obtain ⟨hfree, hs⟩ := Option.ite_none_right_eq_some.mp hs
    obtain rfl := Option.some.inj hs
    have hbefore : s.notified = false := by rw [h.notified, hp]; rfl
    have hout : s.waiter.inside = false := by
      rw [← Bool.not_eq_true, ← h.waiter, hfree]
      simp
    refine ⟨by simp [hout], by simp [NotifyPc.inside], ?_, ?_, by simp [hbefore],
      by simp [hloop, hp]⟩
    · rw [hbefore]
      rfl
    · simp [h.value, hp]
  case h_3 hp =>
    obtain rfl := Option.some.inj hs
    have hhold : s.holder = some .notifier := h.notifier.mpr (by rw [hp]; rfl)
    refine ⟨h.waiter, by simp [hhold, NotifyPc.inside], rfl, ?_, by simp, by simp [hloop, hp]⟩
    simp [h.value, hp]
  case h_4 hp =>
    obtain rfl := Option.some.inj hs
    have hhold : s.holder = some .notifier := h.notifier.mpr (by rw [hp]; rfl)
    have hset : s.notified = true := by rw [h.notified, hp]; rfl
    refine ⟨?_, by simp [hhold, NotifyPc.inside], hset, by simp [h.value, hp],
      fun hsleep _ => absurd hsleep (WaitPc.signalled_ne_asleep _), by simp [hloop, hp]⟩
    rw [h.waiter, WaitPc.inside_signalled]
  case h_5 hp =>
    obtain rfl := Option.some.inj hs
    have hhold : s.holder = some .notifier := h.notifier.mpr (by rw [hp]; rfl)
    have hout : s.waiter.inside = false := by
      rw [← Bool.not_eq_true, ← h.waiter, hhold]
      simp
    have hset : s.notified = true := by rw [h.notified, hp]; rfl
    refine ⟨by simp [hout], by simp [NotifyPc.inside], hset, by simp [h.value, hp], ?_,
      fun _ => rfl⟩
    intro hsleep hn
    have hsig := h.asleep hsleep hn
    rw [hp] at hsig
    cases hsig
  case h_6 => cases hs

/-- A step of either side keeps what holds of the two. -/
theorem Inv.step (h : Inv s) {a : Act α} (hs : step s a = some s') : Inv s' := by
  cases a with
  | begin =>
      obtain ⟨hp, hs⟩ := Option.ite_none_right_eq_some.mp hs
      obtain rfl := Option.some.inj hs
      exact h.begin (.inl hp)
  | wait => exact h.wait hs
  | wake =>
      obtain ⟨hp, hs⟩ := Option.ite_none_right_eq_some.mp hs
      obtain rfl := Option.some.inj hs
      exact h.begin (.inr hp)
  | notify v => exact h.notify hs

/-- Whoever has waited finds a value. -/
theorem Inv.value_of_past (h : Inv s) (hp : s.waiter.past = true) : ∃ v, s.value = some v :=
  Option.isSome_iff_exists.mp (h.value.mpr (by rw [h.past hp]; simp))

/-- No wake-up is lost. -/
theorem Inv.not_asleep (h : Inv s) (hp : s.notifier = .returned) : s.waiter ≠ .asleep := by
  intro hsleep
  have hsig := h.asleep hsleep (by rw [h.notified, hp]; rfl)
  rw [hp] at hsig
  cases hsig

/-- The thread that waits leaves the value alone. -/
theorem wait_frame (hs : wait s = some s') :
    s'.value = s.value ∧ s'.notifier = s.notifier := by
  unfold wait at hs
  split at hs
  case h_1 =>
    obtain ⟨-, hs⟩ := Option.ite_none_right_eq_some.mp hs
    obtain rfl := Option.some.inj hs
    exact ⟨rfl, rfl⟩
  case h_2 => split at hs <;> obtain rfl := Option.some.inj hs <;> exact ⟨rfl, rfl⟩
  case h_3 | h_4 =>
    obtain rfl := Option.some.inj hs
    exact ⟨rfl, rfl⟩
  case h_5 => cases hs

/-- One value is stored, and it stays. -/
theorem notify_spec {v : α} (hs : notify s v = some s')
    (hval : s.notifier ≠ .store → s.value = some v) :
    s.notifier ≠ .returned ∧ s'.value = some v ∧ s'.notifier ≠ .store
      ∧ (s'.waiter = .deleted ↔ s.waiter = .deleted) := by
  unfold notify at hs
  split at hs
  case h_1 hp =>
    obtain rfl := Option.some.inj hs
    exact ⟨by simp [hp], rfl, by simp, .rfl⟩
  case h_2 hp =>
    obtain ⟨-, hs⟩ := Option.ite_none_right_eq_some.mp hs
    obtain rfl := Option.some.inj hs
    exact ⟨by simp [hp], hval (by simp [hp]), by simp, .rfl⟩
  case h_4 hp =>
    obtain rfl := Option.some.inj hs
    exact ⟨by simp [hp], hval (by simp [hp]), by simp, WaitPc.signalled_eq_deleted _⟩
  case h_3 hp | h_5 hp =>
    obtain rfl := Option.some.inj hs
    exact ⟨by simp [hp], hval (by simp [hp]), by simp, .rfl⟩
  case h_6 => cases hs

end Notification

end HttpServer
