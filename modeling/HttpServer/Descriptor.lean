import Mathlib.Data.List.Basic
import Mathlib.Logic.Function.Basic
import HttpServer.Lib.Lts
import HttpServer.Lib.Tally

/-!
# The handshake of a descriptor

`Descriptor` (io_manager.cpp): a handler asks to be called when the socket
is ready (`readWhenReady`, a request), the poller says that it has become
so (`readIfWaiting`, an event), and the two meet in a pair of flags. The
socket is polled edge triggered, so an event is not repeated.

The section under `m_` is one step. What a thread does with its outcome
after `m_.unlock()` is another one, and other threads may come between.
`log` has the sections that were run, the last one first; `tasks` has the
calls of `addTask` with the side each was made for.
-/

namespace HttpServer

namespace Descriptor

open Tally

abbrev Tid := ℕ

/-- A `Callback<void>*` that is not `NULL`. -/
abbrev Callback := ℕ

inductive Side where
  | read
  | write
deriving DecidableEq, Repr

inductive Kind where
  | request
  | event
deriving DecidableEq, Repr

def Kind.other : Kind → Kind
  | .request => .event
  | .event => .request

/-- `read_cb_`, `can_read_`, `waiting_read_` and those of the write side. -/
structure Flags where
  cb : Side → Option Callback
  can : Side → Bool
  waiting : Side → Bool

/-- The constructor. -/
def descriptor (cb : Side → Option Callback) : Flags := ⟨cb, fun _ => false, fun _ => false⟩

namespace Flags

/-- The section of a request, and `ready_now`. -/
def whenReady (d : Flags) (σ : Side) : Flags × Bool :=
  if d.can σ then ({ d with can := Function.update d.can σ false }, true)
  else ({ d with waiting := Function.update d.waiting σ true }, false)

/-- The section of an event, and `schedule_now`. -/
def ifWaiting (d : Flags) (σ : Side) : Flags × Bool :=
  if d.waiting σ then ({ d with waiting := Function.update d.waiting σ false }, true)
  else ({ d with can := Function.update d.can σ true }, false)

def readWhenReady (d : Flags) : Flags × Bool := d.whenReady .read

def writeWhenReady (d : Flags) : Flags × Bool := d.whenReady .write

def readIfWaiting (d : Flags) : Flags × Bool := d.ifWaiting .read

def writeIfWaiting (d : Flags) : Flags × Bool := d.ifWaiting .write

def call (d : Flags) : Side → Kind → Flags × Bool
  | .read, .request => d.readWhenReady
  | .write, .request => d.writeWhenReady
  | .read, .event => d.readIfWaiting
  | .write, .event => d.writeIfWaiting

end Flags

/-- A section that was run. -/
structure Entry where
  side : Side
  kind : Kind
  now : Bool
deriving DecidableEq, Repr

/-- What a thread does next. -/
inductive Pc where
  | out
  /-- After `m_.unlock()`, with `ready_now` or `schedule_now`. -/
  | unlocked (σ : Side) (now : Bool)
deriving DecidableEq, Repr

structure State where
  d : Flags
  pc : Tid → Pc
  log : List Entry
  tasks : List (Side × Callback)

/-- A thread calls one of the four functions, or goes on after its section. -/
inductive Label where
  | call (t : Tid) (σ : Side) (k : Kind)
  | after (t : Tid)
deriving DecidableEq, Repr

def step (n : ℕ) (s : State) : Label → Option State
  | .call t σ k =>
      if t < n ∧ s.pc t = .out then
        let (d, now) := s.d.call σ k
        some { s with
          d := d
          pc := Function.update s.pc t (.unlocked σ now)
          log := ⟨σ, k, now⟩ :: s.log }
      else none
  | .after t =>
      if t < n then
        match s.pc t with
        | .out => none
        | .unlocked σ now =>
            let s' := { s with pc := Function.update s.pc t .out }
            match s.d.cb σ with
            | none => some s'
            | some f => if now then some { s' with tasks := (σ, f) :: s.tasks } else some s'
      else none

structure Initial (cb : Side → Option Callback) (s : State) : Prop where
  d : s.d = descriptor cb
  pc : ∀ t, s.pc t = .out
  log : s.log = []
  tasks : s.tasks = []

def machine (n : ℕ) (cb : Side → Option Callback) : Lts State Label := ⟨Initial cb, step n⟩

/-! ## The history of a side -/

/-- The sections of a side since the last one that decided to schedule its
callback. -/
def since (σ : Side) (log : List Entry) : List Entry :=
  (log.filter (·.side = σ)).takeWhile (!·.now)

/-- A request, or an event, is among the sections. -/
def Occurs (k : Kind) (log : List Entry) : Prop := ∃ e ∈ log, e.kind = k

/-- The sections of a side that are of one kind. -/
def count (σ : Side) (k : Kind) (log : List Entry) : ℕ :=
  log.countP fun e => e.side = σ ∧ e.kind = k

/-- Those that decided to schedule. -/
def decided (σ : Side) (log : List Entry) : ℕ := log.countP fun e => e.side = σ ∧ e.now

/-- The calls of `addTask` for a side. -/
def scheduled (σ : Side) (tasks : List (Side × Callback)) : ℕ := tasks.countP (·.1 = σ)

/-- The thread has decided and not yet called `addTask`. -/
def Pc.pending (σ : Side) : Pc → ℕ
  | .unlocked τ true => if τ = σ then 1 else 0
  | _ => 0

/-- Each section decides to schedule exactly when it completes a pair: at
least one request and one event since the last decision, itself included. -/
def Exact (σ : Side) (log : List Entry) : Prop :=
  ∀ later e earlier, log = later ++ e :: earlier → e.side = σ →
    (e.now = true ↔ Occurs .request (e :: since σ earlier) ∧ Occurs .event (e :: since σ earlier))

section

variable {σ τ : Side} {k : Kind} {e : Entry} {log : List Entry}

theorem since_of_ne (h : e.side ≠ σ) : since σ (e :: log) = since σ log := by
  rw [since, List.filter_cons_of_neg (by simpa using h)]
  rfl

theorem since_now (k : Kind) (log : List Entry) : since σ (⟨σ, k, true⟩ :: log) = [] := by
  rw [since, List.filter_cons_of_pos (by simp), List.takeWhile_cons_of_neg (by simp)]

theorem since_later (k : Kind) (log : List Entry) :
    since σ (⟨σ, k, false⟩ :: log) = ⟨σ, k, false⟩ :: since σ log := by
  rw [since, List.filter_cons_of_pos (by simp), List.takeWhile_cons_of_pos (by simp)]
  rfl

theorem occurs_nil : ¬Occurs k [] := by
  rintro ⟨e, he, -⟩
  cases he

theorem occurs_cons : Occurs k (e :: log) ↔ e.kind = k ∨ Occurs k log := by
  simp [Occurs]

theorem Exact.cons (h : Exact σ log) (he : e.side = σ →
    (e.now = true ↔ Occurs .request (e :: since σ log) ∧ Occurs .event (e :: since σ log))) :
    Exact σ (e :: log) := by
  intro later e' earlier hlog hside
  cases later with
  | nil =>
      obtain ⟨rfl, rfl⟩ := List.cons.inj hlog
      exact he hside
  | cons x later => exact h later e' earlier (List.cons.inj hlog).2 hside

theorem count_cons : count σ k (e :: log)
    = count σ k log + if e.side = σ ∧ e.kind = k then 1 else 0 := by
  rw [count, List.countP_cons]
  simp [count]

theorem decided_cons : decided σ (e :: log)
    = decided σ log + if e.side = σ ∧ e.now = true then 1 else 0 := by
  rw [decided, List.countP_cons]
  simp [decided]

end

/-! ## One section -/

namespace Flags

variable {d : Flags} {σ τ : Side} {k : Kind}

/-- A section is about the flags of its own side. -/
theorem call_of_ne (h : τ ≠ σ) : (d.call σ k).1.can τ = d.can τ
    ∧ (d.call σ k).1.waiting τ = d.waiting τ := by
  have hw : (d.whenReady σ).1.can τ = d.can τ ∧ (d.whenReady σ).1.waiting τ = d.waiting τ := by
    rw [whenReady]
    cases d.can σ
    · exact ⟨rfl, Function.update_of_ne h ..⟩
    · exact ⟨Function.update_of_ne h .., rfl⟩
  have hi : (d.ifWaiting σ).1.can τ = d.can τ ∧ (d.ifWaiting σ).1.waiting τ = d.waiting τ := by
    rw [ifWaiting]
    cases d.waiting σ
    · exact ⟨Function.update_of_ne h .., rfl⟩
    · exact ⟨rfl, Function.update_of_ne h ..⟩
  cases σ <;> cases k
  · exact hw
  · exact hi
  · exact hw
  · exact hi

theorem call_cb : (d.call σ k).1.cb = d.cb := by
  cases σ <;> cases k <;>
    simp only [call, readWhenReady, writeWhenReady, readIfWaiting, writeIfWaiting, whenReady,
      ifWaiting] <;> split <;> rfl

/-- The flag in which a request, or an event, is kept. -/
def kept (d : Flags) (σ : Side) : Kind → Bool
  | .request => d.waiting σ
  | .event => d.can σ

/-- A section takes one of the other kind that was kept, and is kept itself
if there is none. -/
theorem call_kept : (d.call σ k).2 = d.kept σ k.other ∧ (d.call σ k).1.kept σ k.other = false
    ∧ (d.call σ k).1.kept σ k = (d.kept σ k || !d.kept σ k.other) := by
  have hw : (d.whenReady σ).2 = d.can σ ∧ (d.whenReady σ).1.can σ = false
      ∧ (d.whenReady σ).1.waiting σ = (d.waiting σ || !d.can σ) := by
    rw [whenReady]
    cases hc : d.can σ
    · exact ⟨rfl, hc, by simp⟩
    · exact ⟨rfl, Function.update_self .., by simp⟩
  have hi : (d.ifWaiting σ).2 = d.waiting σ ∧ (d.ifWaiting σ).1.waiting σ = false
      ∧ (d.ifWaiting σ).1.can σ = (d.can σ || !d.waiting σ) := by
    rw [ifWaiting]
    cases hw : d.waiting σ
    · exact ⟨rfl, hw, by simp⟩
    · exact ⟨rfl, Function.update_self .., by simp⟩
  cases σ <;> cases k
  · exact hw
  · exact hi
  · exact hw
  · exact hi

end Flags

/-! ## What the flags say of the history -/

/-- A flag is a section of its kind since the last decision. One that a
decision took has been counted before. -/
structure Paired (d : Flags) (log : List Entry) (σ : Side) : Prop where
  kept : ∀ k, d.kept σ k = true ↔ Occurs k (since σ log)
  apart : ¬(d.can σ = true ∧ d.waiting σ = true)
  count : ∀ k, decided σ log + (d.kept σ k).toNat ≤ count σ k log
  exact_ : Exact σ log

section

variable {d : Flags} {σ τ : Side} {k : Kind} {log : List Entry}

theorem Kind.eq_or (k k' : Kind) : k' = k ∨ k' = k.other := by
  cases k <;> cases k' <;> simp [other]

theorem Kind.other_ne (k : Kind) : k ≠ k.other := by
  cases k <;> simp [other]

/-- Both kinds occur when one does and the other one does. -/
theorem Kind.forall_occurs (k : Kind) (log : List Entry) :
    (Occurs .request log ∧ Occurs .event log) ↔ Occurs k log ∧ Occurs k.other log := by
  cases k
  · exact Iff.rfl
  · exact and_comm

theorem Flags.apart_iff (k : Kind) : (d.can σ = true ∧ d.waiting σ = true)
    ↔ d.kept σ k = true ∧ d.kept σ k.other = true := by
  cases k
  · exact and_comm
  · exact Iff.rfl

theorem Paired.init (cb : Side → Option Callback) (σ : Side) : Paired (descriptor cb) [] σ := by
  refine ⟨fun k => ?_, fun h => Bool.noConfusion h.1, fun k => ?_, ?_⟩
  · have hk : (descriptor cb).kept σ k = false := by cases k <;> rfl
    rw [hk]
    exact ⟨fun h => Bool.noConfusion h, fun h => absurd h occurs_nil⟩
  · cases k <;> exact le_rfl
  · intro later e earlier h
    cases later <;> cases h

/-- There is none of the other kind: the section is kept. -/
theorem Paired.keep (h : Paired d log σ) (hk : d.kept σ k.other = false) :
    Paired (d.call σ k).1 (⟨σ, k, false⟩ :: log) σ := by
  obtain ⟨-, hother, hown⟩ := d.call_kept (σ := σ) (k := k)
  rw [hk, Bool.not_false, Bool.or_true] at hown
  have hno : ¬Occurs k.other (since σ log) := fun ho => by
    rw [(h.kept _).mpr ho] at hk
    cases hk
  have hno' : ¬Occurs k.other (⟨σ, k, false⟩ :: since σ log) := by
    rw [occurs_cons]
    exact fun ho => ho.elim k.other_ne hno
  refine ⟨fun k' => ?_, ?_, fun k' => ?_, h.exact_.cons fun _ => ?_⟩
  · rw [since_later]
    rcases k.eq_or k' with rfl | rfl
    · rw [hown, occurs_cons]
      exact ⟨fun _ => .inl rfl, fun _ => rfl⟩
    · rw [hother]
      exact ⟨fun hf => Bool.noConfusion hf, fun ho => absurd ho hno'⟩
  · rw [Flags.apart_iff k, hother]
    exact fun hf => Bool.noConfusion hf.2
  · have hc := h.count k'
    rw [decided_cons, count_cons, if_neg fun hf => Bool.noConfusion hf.2]
    rcases k.eq_or k' with rfl | rfl
    · rw [hown, if_pos ⟨rfl, rfl⟩]
      exact Nat.succ_le_succ ((Nat.le_add_right ..).trans hc)
    · rw [hother]
      exact ((Nat.le_add_right ..).trans hc).trans (Nat.le_add_right ..)
  · rw [Kind.forall_occurs k]
    exact ⟨fun hf => Bool.noConfusion hf, fun ho => absurd ho.2 hno'⟩

/-- One of the other kind was kept: the section decides to schedule. -/
theorem Paired.pair (h : Paired d log σ) (hk : d.kept σ k.other = true) :
    Paired (d.call σ k).1 (⟨σ, k, true⟩ :: log) σ := by
  obtain ⟨-, hother, hown⟩ := d.call_kept (σ := σ) (k := k)
  have hfalse : d.kept σ k = false :=
    Bool.eq_false_of_not_eq_true fun ht => h.apart ((Flags.apart_iff k).mpr ⟨ht, hk⟩)
  rw [hk, hfalse] at hown
  have hnone : ∀ k', (d.call σ k).1.kept σ k' = false := by
    intro k'
    rcases k.eq_or k' with rfl | rfl
    · exact hown
    · exact hother
  refine ⟨fun k' => ?_, ?_, fun k' => ?_, h.exact_.cons fun _ => ?_⟩
  · rw [since_now, hnone]
    exact ⟨fun hf => Bool.noConfusion hf, fun ho => absurd ho occurs_nil⟩
  · rw [Flags.apart_iff k, hother]
    exact fun hf => Bool.noConfusion hf.2
  · have hc := h.count k'
    rw [hnone, decided_cons, count_cons, if_pos ⟨rfl, rfl⟩]
    rcases k.eq_or k' with rfl | rfl
    · rw [if_pos ⟨rfl, rfl⟩]
      exact Nat.succ_le_succ ((Nat.le_add_right ..).trans hc)
    · rw [hk] at hc
      exact hc.trans (Nat.le_add_right ..)
  · rw [Kind.forall_occurs k, occurs_cons, occurs_cons]
    exact ⟨fun _ => ⟨.inl rfl, .inr ((h.kept _).mp hk)⟩, fun _ => rfl⟩

/-- A section of either side. -/
theorem Paired.call (h : Paired d log σ) (τ : Side) (k : Kind) :
    Paired (d.call τ k).1 (⟨τ, k, (d.call τ k).2⟩ :: log) σ := by
  by_cases hστ : τ = σ
  · subst hστ
    rw [d.call_kept.1]
    cases hk : d.kept τ k.other with
    | false => exact h.keep hk
    | true => exact h.pair hk
  · obtain ⟨hcan, hwait⟩ := d.call_of_ne (k := k) (Ne.symm hστ)
    have hkept : ∀ k', (d.call τ k).1.kept σ k' = d.kept σ k' := by
      intro k'
      cases k'
      · exact hwait
      · exact hcan
    refine ⟨fun k' => ?_, ?_, fun k' => ?_, h.exact_.cons fun hs => absurd hs hστ⟩
    · rw [since_of_ne hστ, hkept]
      exact h.kept k'
    · rw [hcan, hwait]
      exact h.apart
    · rw [hkept, decided_cons, count_cons, if_neg fun hf => hστ hf.1, if_neg fun hf => hστ hf.1]
      exact h.count k'

end

/-! ## Runs -/

/-- Every decision is one call of `addTask`, made or still to be made. -/
structure Inv (n : ℕ) (cb : Side → Option Callback) (s : State) : Prop where
  callbacks : s.d.cb = cb
  paired : ∀ σ, Paired s.d s.log σ
  own : ∀ σ f, (σ, f) ∈ s.tasks → cb σ = some f
  tasks : ∀ σ f, cb σ = some f →
    decided σ s.log = scheduled σ s.tasks + total n (Pc.pending σ) s.pc

variable {n : ℕ} {cb : Side → Option Callback} {s s' : State} {t : Tid} {σ : Side}

theorem Initial.inv (h : Initial cb s) : Inv n cb s := by
  refine ⟨by rw [h.d]; rfl, fun σ => ?_, fun σ f hf => ?_, fun σ f _ => ?_⟩
  · rw [h.d, h.log]
    exact Paired.init cb σ
  · rw [h.tasks] at hf
    cases hf
  · rw [h.log, h.tasks, total_eq_zero fun t => by rw [h.pc t]; rfl]
    rfl

/-- What a section leaves to its thread. -/
theorem pending_unlocked (τ : Side) (now : Bool) :
    Pc.pending σ (.unlocked τ now) = if τ = σ ∧ now = true then 1 else 0 := by
  cases now <;> simp [Pc.pending]

theorem Inv.call (h : Inv n cb s) (ht : t < n) (hpc : s.pc t = .out) (τ : Side) (k : Kind) :
    Inv n cb { s with
      d := (s.d.call τ k).1
      pc := Function.update s.pc t (.unlocked τ (s.d.call τ k).2)
      log := ⟨τ, k, (s.d.call τ k).2⟩ :: s.log } := by
  refine ⟨s.d.call_cb.trans h.callbacks, fun σ => (h.paired σ).call τ k, h.own, fun σ f hf => ?_⟩
  have htasks := h.tasks σ f hf
  have hupd := total_update (Pc.pending σ) s.pc ht (.unlocked τ (s.d.call τ k).2)
  rw [hpc, pending_unlocked, show Pc.pending σ .out = 0 from rfl] at hupd
  rw [decided_cons]
  dsimp only
  omega

theorem scheduled_cons (τ : Side) (f : Callback) (tasks : List (Side × Callback)) :
    scheduled σ ((τ, f) :: tasks) = scheduled σ tasks + if τ = σ then 1 else 0 := by
  rw [scheduled, List.countP_cons]
  simp [scheduled]

theorem Inv.after (h : Inv n cb s) (hs : step n s (.after t) = some s') : Inv n cb s' := by
  rw [step] at hs
  obtain ⟨ht, hs⟩ := Option.ite_none_right_eq_some.mp hs
  cases hpc : s.pc t with
  | out =>
      rw [hpc] at hs
      cases hs
  | unlocked τ now =>
      rw [hpc] at hs
      have hupd : ∀ σ, total n (Pc.pending σ) (Function.update s.pc t .out)
          + (if τ = σ ∧ now = true then 1 else 0) = total n (Pc.pending σ) s.pc := by
        intro σ
        have hupd := total_update (Pc.pending σ) s.pc ht .out
        rw [hpc, pending_unlocked] at hupd
        exact hupd
      cases hcb : s.d.cb τ with
      | none =>
          simp only [hcb] at hs
          obtain rfl := Option.some.inj hs
          refine ⟨h.callbacks, h.paired, h.own, fun σ f hf => ?_⟩
          have hne : ¬(τ = σ ∧ now = true) := by
            rintro ⟨rfl, -⟩
            rw [h.callbacks, hf] at hcb
            cases hcb
          have hup := hupd σ
          rw [if_neg hne] at hup
          exact (h.tasks σ f hf).trans (congrArg _ hup.symm)
      | some g =>
          simp only [hcb] at hs
          cases now with
          | false =>
              obtain rfl := Option.some.inj hs
              refine ⟨h.callbacks, h.paired, h.own, fun σ f hf => ?_⟩
              have hup := hupd σ
              rw [if_neg fun hf => Bool.noConfusion hf.2] at hup
              exact (h.tasks σ f hf).trans (congrArg _ hup.symm)
          | true =>
              obtain rfl := Option.some.inj hs
              refine ⟨h.callbacks, h.paired, fun σ f hmem => ?_, fun σ f hf => ?_⟩
              · rcases List.mem_cons.mp hmem with heq | hmem
                · obtain ⟨rfl, rfl⟩ := Prod.mk.inj heq
                  rw [← h.callbacks, hcb]
                · exact h.own σ f hmem
              · have hup := hupd σ
                have htasks := h.tasks σ f hf
                simp only [and_true] at hup
                rw [scheduled_cons]
                dsimp only
                omega

theorem Inv.step {l : Label} (h : Inv n cb s) (hs : step n s l = some s') : Inv n cb s' := by
  cases l with
  | call t τ k =>
      rw [Descriptor.step] at hs
      obtain ⟨⟨ht, hpc⟩, hs⟩ := Option.ite_none_right_eq_some.mp hs
      obtain rfl := Option.some.inj hs
      exact h.call ht hpc τ k
  | after t => exact h.after hs

theorem reachable_inv (h : (machine n cb).Reachable s) : Inv n cb s :=
  h.invariant (I := Inv n cb) (fun _ hi => Initial.inv hi) fun _ _ _ hi _ hs => hi.step hs

/-- The side whose flags a step is about. -/
def Label.side : Label → Option Side
  | .call _ σ _ => some σ
  | .after _ => none

theorem step_flags {l : Label} (hs : step n s l = some s') (hl : l.side ≠ some σ) :
    s'.d.can σ = s.d.can σ ∧ s'.d.waiting σ = s.d.waiting σ := by
  cases l with
  | call t τ k =>
      rw [step] at hs
      obtain ⟨-, hs⟩ := Option.ite_none_right_eq_some.mp hs
      obtain rfl := Option.some.inj hs
      refine Flags.call_of_ne ?_
      rintro rfl
      exact hl rfl
  | after t =>
      rw [step] at hs
      obtain ⟨-, hs⟩ := Option.ite_none_right_eq_some.mp hs
      cases hpc : s.pc t with
      | out =>
          rw [hpc] at hs
          cases hs
      | unlocked τ now =>
          simp only [hpc] at hs
          split at hs
          · obtain rfl := Option.some.inj hs
            exact ⟨rfl, rfl⟩
          · split at hs
            · obtain rfl := Option.some.inj hs
              exact ⟨rfl, rfl⟩
            · obtain rfl := Option.some.inj hs
              exact ⟨rfl, rfl⟩

/-- In every state of any number of threads that request and signal, for a
side that has a callback: the flags are never both set; a section decides
to schedule exactly when it completes a pair, so no request and event are
left together; every decision is one `addTask`, made or to be made by its
thread, and there are no more of them than requests, or events. -/
theorem no_lost_wakeup {f : Callback} (h : (machine n cb).Reachable s) (hcb : cb σ = some f) :
    ¬(s.d.can σ = true ∧ s.d.waiting σ = true)
      ∧ Exact σ s.log
      ∧ ¬(Occurs .request (since σ s.log) ∧ Occurs .event (since σ s.log))
      ∧ scheduled σ s.tasks + total n (Pc.pending σ) s.pc = decided σ s.log
      ∧ (∀ g, (σ, g) ∈ s.tasks → g = f)
      ∧ (∀ k, scheduled σ s.tasks ≤ count σ k s.log ∧ decided σ s.log ≤ count σ k s.log)
      ∧ (∀ l s', step n s l = some s' → l.side ≠ some σ →
          s'.d.can σ = s.d.can σ ∧ s'.d.waiting σ = s.d.waiting σ) := by
  have hi := reachable_inv h
  have hp := hi.paired σ
  have htasks := hi.tasks σ f hcb
  refine ⟨hp.apart, hp.exact_, ?_, htasks.symm, fun g hg => ?_, fun k => ?_,
    fun l s' hs hl => step_flags hs hl⟩
  · rintro ⟨hr, he⟩
    exact hp.apart ⟨(hp.kept .event).mpr he, (hp.kept .request).mpr hr⟩
  · exact Option.some.inj ((hi.own σ g hg).symm.trans hcb)
  · have hle := hp.count k
    omega

def start (cb : Side → Option Callback) : State := ⟨descriptor cb, fun _ => .out, [], []⟩

theorem start_initial (cb : Side → Option Callback) : Initial cb (start cb) :=
  ⟨rfl, fun _ => rfl, rfl, rfl⟩

/-- An event and a request, of two threads, before the first one asks again. -/
def eventFirst : List Label :=
  [.call 0 .read .event, .call 1 .read .request, .after 1, .after 0, .call 1 .read .request]

theorem eventFirst_scheduled : ∃ s, (machine 2 fun _ => some 7).Reachable s
    ∧ s.tasks = [(.read, 7)] ∧ s.d.waiting .read = true
    ∧ ¬(s.d.can .read = true ∧ s.d.waiting .read = true) := by
  have hrun : ((machine 2 fun _ => some 7).exec (fun _ _ => True) (start fun _ => some 7)
      eventFirst).any (fun s => s.tasks = [(.read, 7)] ∧ s.d.waiting .read = true) = true := by
    decide
  obtain ⟨s, hs, hp⟩ := Lts.ReachableBy.exec_any (.init (start_initial _)) hrun
  obtain ⟨h₁, h₂⟩ := of_decide_eq_true hp
  exact ⟨s, hs, h₁, h₂, (no_lost_wakeup hs rfl).1⟩

end Descriptor

end HttpServer
