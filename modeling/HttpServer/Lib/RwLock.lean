import Mathlib.Data.List.Count
import Mathlib.Data.Nat.Notation

/-!
# Reader-writer locks

A reader-writer lock and the calls on it in the order in which they go
through; a call that has to wait does not go through (`none`). What is
held changes by one with every call, so a list of calls leaves as much
held as its acquisitions exceed its releases, whoever makes the calls
and in whatever order (`run_held`).
-/

structure RwLock where
  readers : ℕ
  writer : Bool
deriving DecidableEq, Repr

namespace RwLock

inductive Op where
  | rLock
  | wLock
  | unlock
deriving DecidableEq, Repr

def free : RwLock := ⟨0, false⟩

def apply (l : RwLock) : Op → Option RwLock
  | .rLock => if l.writer then none else some { l with readers := l.readers + 1 }
  | .wLock => if l.writer ∨ 0 < l.readers then none else some { l with writer := true }
  | .unlock =>
      if l.writer then some { l with writer := false }
      else if 0 < l.readers then some { l with readers := l.readers - 1 }
      else none

def run : RwLock → List Op → Option RwLock
  | l, [] => some l
  | l, op :: ops => (l.apply op).bind fun l => run l ops

/-- How many hold the lock. -/
def held (l : RwLock) : ℕ := l.readers + if l.writer then 1 else 0

def acquires (ops : List Op) : ℕ := ops.countP (· ≠ .unlock)

def releases (ops : List Op) : ℕ := ops.count .unlock

/-- Released as often as acquired. -/
def Balances (ops : List Op) : Prop := acquires ops = releases ops

instance (ops : List Op) : Decidable (Balances ops) := Nat.decEq ..

variable {l l' : RwLock} {op : Op} {ops ops' : List Op}

theorem held_eq_zero : l.held = 0 ↔ l = free := by
  obtain ⟨readers, writer⟩ := l
  cases writer with
  | false => simp [held, free]
  | true => simp [held, free]

theorem acquires_append : acquires (ops ++ ops') = acquires ops + acquires ops' :=
  List.countP_append

theorem releases_append : releases (ops ++ ops') = releases ops + releases ops' :=
  List.count_append

theorem acquires_perm (h : ops.Perm ops') : acquires ops = acquires ops' := h.countP_eq _

theorem releases_perm (h : ops.Perm ops') : releases ops = releases ops' := h.count_eq _

theorem apply_held (h : l.apply op = some l') :
    l'.held + releases [op] = l.held + acquires [op] := by
  obtain ⟨readers, writer⟩ := l
  cases op with
  | rLock =>
      unfold apply at h
      cases writer with
      | true => cases h
      | false =>
          obtain rfl := Option.some.inj h
          simp [held, releases, acquires]
  | wLock =>
      unfold apply at h
      cases writer with
      | true => cases h
      | false =>
          simp only [Bool.false_eq_true, false_or] at h
          split at h
          · cases h
          · obtain rfl := Option.some.inj h
            simp [held, releases, acquires]
  | unlock =>
      unfold apply at h
      cases writer with
      | true =>
          obtain rfl := Option.some.inj h
          simp [held, releases, acquires]
      | false =>
          simp only [Bool.false_eq_true, if_false] at h
          split at h
          · obtain rfl := Option.some.inj h
            simp [held, releases, acquires]
            omega
          · cases h

theorem run_held : ∀ {ops : List Op} {l : RwLock}, l.run ops = some l' →
    l'.held + releases ops = l.held + acquires ops
  | [], l, h => by
      obtain rfl := Option.some.inj h
      rfl
  | op :: ops, l, h => by
      obtain ⟨l₁, h₁, h⟩ := Option.bind_eq_some_iff.mp h
      have hop := apply_held h₁
      have ih := run_held h
      rw [← List.singleton_append, releases_append, acquires_append]
      omega

end RwLock
