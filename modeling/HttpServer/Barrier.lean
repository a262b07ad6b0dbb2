import Mathlib.Algebra.BigOperators.Ring.Finset
import HttpServer.Lib.Lts
import HttpServer.Lib.Tally

/-!
# The reusable barrier

`Barrier` (thread_barrier.hpp): `n` threads that call `wait()` again and
again. A semaphore is its value, and `sem_wait` is enabled when the value
is positive. The load, the store and the test of `counter_` are steps of
their own.

There is one token. It is in `arrival_` while the threads of a round
arrive, in `departure_` while they leave, or with the thread that is at
`counter_`. The last thread to arrive moves it to `departure_`, and the
last one to leave moves it back (`Arriving`, `Leaving`).

`entered` and `returned` count the calls of each thread; `held` is the
number of its `sem_wait`s less that of its `sem_post`s.
-/

namespace HttpServer

namespace Barrier

open Tally

abbrev Tid := ℕ

/-- What a thread does next. -/
inductive Pc where
  | out
  /-- `sem_wait(arrival_)`. -/
  | arrive
  /-- `counter_ += 1`, its load. -/
  | load1
  /-- `counter_ += 1`, its store. -/
  | store1 (loaded : ℤ)
  /-- `if (counter_ < num_participants_)`. -/
  | test1
  /-- `sem_post(departure_)` for the last one, else `sem_post(arrival_)`. -/
  | post1 (last : Bool)
  /-- `sem_wait(departure_)`. -/
  | depart
  /-- `counter_ -= 1`, its load. -/
  | load2
  /-- `counter_ -= 1`, its store. -/
  | store2 (loaded : ℤ)
  /-- `if (counter_ > 0)`. -/
  | test2
  /-- `sem_post(arrival_)` for the last one, else `sem_post(departure_)`;
  `wait()` returns. -/
  | post2 (last : Bool)
deriving DecidableEq, Repr

structure State where
  arrival : ℕ
  departure : ℕ
  counter : ℤ
  pc : Tid → Pc
  entered : Tid → ℕ
  returned : Tid → ℕ
  held : Tid → ℤ

namespace State

def goto (s : State) (t : Tid) (pc : Pc) : State := { s with pc := Function.update s.pc t pc }

def enter (s : State) (t : Tid) : State :=
  { s with entered := Function.update s.entered t (s.entered t + 1) }

def ret (s : State) (t : Tid) : State :=
  { s with returned := Function.update s.returned t (s.returned t + 1) }

/-- `sem_wait(arrival_)` of `t`. -/
def waitArrival (s : State) (t : Tid) : State :=
  { s with arrival := s.arrival - 1, held := Function.update s.held t (s.held t + 1) }

def waitDeparture (s : State) (t : Tid) : State :=
  { s with departure := s.departure - 1, held := Function.update s.held t (s.held t + 1) }

/-- `sem_post(arrival_)` by `t`. -/
def postArrival (s : State) (t : Tid) : State :=
  { s with arrival := s.arrival + 1, held := Function.update s.held t (s.held t - 1) }

def postDeparture (s : State) (t : Tid) : State :=
  { s with departure := s.departure + 1, held := Function.update s.held t (s.held t - 1) }

end State

/-- The next step of the thread `t` of `Barrier(n)`; from `out` it calls
`wait()`. -/
def step (n : ℕ) (s : State) (t : Tid) : Option State :=
  if t < n then
    match s.pc t with
    | .out => some ((s.enter t).goto t .arrive)
    | .arrive => if 0 < s.arrival then some ((s.waitArrival t).goto t .load1) else none
    | .load1 => some (s.goto t (.store1 s.counter))
    | .store1 v => some ({ s with counter := v + 1 }.goto t .test1)
    | .test1 => some (s.goto t (.post1 (¬s.counter < n)))
    | .post1 false => some ((s.postArrival t).goto t .depart)
    | .post1 true => some ((s.postDeparture t).goto t .depart)
    | .depart => if 0 < s.departure then some ((s.waitDeparture t).goto t .load2) else none
    | .load2 => some (s.goto t (.store2 s.counter))
    | .store2 v => some ({ s with counter := v - 1 }.goto t .test2)
    | .test2 => some (s.goto t (.post2 (¬s.counter > 0)))
    | .post2 false => some (((s.postDeparture t).ret t).goto t .out)
    | .post2 true => some (((s.postArrival t).ret t).goto t .out)
  else none

/-- The constructor. -/
structure Initial (s : State) : Prop where
  arrival : s.arrival = 1
  departure : s.departure = 0
  counter : s.counter = 0
  pc : ∀ t, s.pc t = .out
  entered : ∀ t, s.entered t = 0
  returned : ∀ t, s.returned t = 0
  held : ∀ t, s.held t = 0

def machine (n : ℕ) : Lts State Tid := ⟨Initial, step n⟩

/-- The step reads or writes `counter_`. -/
def Pc.accesses : Pc → Bool
  | .load1 | .store1 _ | .test1 | .load2 | .store2 _ | .test2 => true
  | _ => false

/-! ## What a place in the code says -/

/-- The tokens the thread has. -/
def Pc.token : Pc → ℕ
  | .out | .arrive | .depart => 0
  | _ => 1

/-- The thread is among those `counter_` counts. -/
def Pc.counted : Pc → ℕ
  | .test1 | .post1 _ | .depart | .load2 | .store2 _ => 1
  | _ => 0

/-- It has been counted in this call. -/
def Pc.arrived : Pc → ℕ
  | .out | .arrive | .load1 | .store1 _ => 0
  | _ => 1

def Pc.inside : Pc → ℕ
  | .out => 0
  | _ => 1

/-- At `counter_` on the way in. -/
def Pc.arriving : Pc → Bool
  | .load1 | .store1 _ | .test1 | .post1 _ => true
  | _ => false

/-- At `counter_` on the way out. -/
def Pc.leaving : Pc → Bool
  | .load2 | .store2 _ | .test2 | .post2 _ => true
  | _ => false

/-- What a thread at `counter_` knows of it. -/
def Knows (n : ℕ) (c : ℤ) : Pc → Prop
  | .store1 v => v = c
  | .store2 v => v = c
  | .post1 last => last = true ↔ c = n
  | .post2 last => last = true ↔ c = 0
  | _ => True

theorem Pc.counted_le (pc : Pc) : pc.counted ≤ 1 := by
  cases pc <;> simp [counted]

theorem Pc.arrived_le (pc : Pc) : pc.arrived ≤ pc.inside := by
  cases pc <;> simp [arrived, inside]

theorem Pc.arrived_eq_of_counted {pc : Pc} (h : pc.counted = 1) : pc.arrived = 1 := by
  cases pc <;> simp_all [counted, arrived]

theorem Pc.arrived_eq_of_not_counted {pc : Pc} (ht : pc.token = 0) (h : pc.counted = 0) :
    pc.arrived = 0 := by
  cases pc <;> simp_all [counted, arrived, token]

theorem Pc.arriving_eq_false {pc : Pc} (h : pc.token = 0) : pc.arriving = false := by
  cases pc <;> simp_all [arriving, token]

theorem Pc.leaving_eq_false {pc : Pc} (h : pc.token = 0) : pc.leaving = false := by
  cases pc <;> simp_all [leaving, token]

theorem Knows.of_token {n : ℕ} {c : ℤ} {pc : Pc} (h : pc.token = 0) : Knows n c pc := by
  cases pc <;> simp_all [Pc.token, Knows]

/-! ## Rounds -/

/-- Round `r` and the threads arrive. -/
structure Arriving (n : ℕ) (s : State) (r : ℕ) : Prop where
  departure : s.departure = 0
  pc : ∀ t < n, (s.pc t).leaving = false
  returned : ∀ t < n, s.returned t = r
  open_ : s.arrival ≠ 0 → s.counter < n

/-- Round `r`, all have arrived and leave. -/
structure Leaving (n : ℕ) (s : State) (r : ℕ) : Prop where
  arrival : s.arrival = 0
  pc : ∀ t < n, (s.pc t).arriving = false
  returned : ∀ t < n, s.returned t + (s.pc t).arrived = r + 1
  open_ : s.departure ≠ 0 → 0 < s.counter

structure Inv (n : ℕ) (s : State) : Prop where
  idle : ∀ t ≥ n, s.pc t = .out
  held : ∀ t, s.held t = (s.pc t).token
  entered : ∀ t, s.entered t = s.returned t + (s.pc t).inside
  one : s.arrival + s.departure + total n Pc.token s.pc = 1
  counter : s.counter = total n Pc.counted s.pc
  knows : ∀ t, Knows n s.counter (s.pc t)
  phase : ∃ r, Arriving n s r ∨ Leaving n s r

variable {n r : ℕ} {s s' : State} {t : Tid} {q : Pc}

theorem Initial.inv (hn : 1 ≤ n) (h : Initial s) : Inv n s := by
  refine ⟨fun t _ => h.pc t, fun t => ?_, fun t => ?_, ?_, ?_, fun t => ?_, 0, .inl ?_⟩
  · rw [h.held, h.pc]
    rfl
  · rw [h.entered, h.returned, h.pc]
    rfl
  · rw [h.arrival, h.departure, total_eq_zero fun t => by rw [h.pc t]; rfl]
  · rw [h.counter, total_eq_zero fun t => by rw [h.pc t]; rfl]
    rfl
  · rw [h.pc]
    trivial
  · refine ⟨h.departure, fun t _ => by rw [h.pc t]; rfl, fun t _ => h.returned t, fun _ => ?_⟩
    rw [h.counter]
    exact_mod_cast hn

/-- The thread with the token has the only one. -/
theorem Inv.alone (h : Inv n s) (ht : t < n) (htok : (s.pc t).token = 1) :
    s.arrival = 0 ∧ s.departure = 0 ∧ ∀ u ≠ t, (s.pc u).token = 0 := by
  have hone := h.one
  have hle := le_total Pc.token s.pc ht
  refine ⟨by omega, by omega, fun u hu => ?_⟩
  by_cases hun : u < n
  · exact eq_zero_of_le (by omega) ht hun hu
  · rw [h.idle u (Nat.le_of_not_lt hun)]
    rfl

theorem Inv.counter_le (h : Inv n s) : 0 ≤ s.counter ∧ s.counter ≤ n := by
  have hle : total n Pc.counted s.pc ≤ n := total_le Pc.counted_le
  rw [h.counter]
  exact ⟨Int.natCast_nonneg _, by exact_mod_cast hle⟩

/-! ## One step -/

/-- What `t` changes when it goes to `q`. A step that changes `counter_` is
one of the thread with the token. -/
structure Moves (s s' : State) (t : Tid) (q : Pc) : Prop where
  pc : s'.pc = Function.update s.pc t q
  others : ∀ u ≠ t, s'.held u = s.held u ∧ s'.entered u = s.entered u
    ∧ s'.returned u = s.returned u
  held : s'.held t = q.token
  entered : s'.entered t = s'.returned t + q.inside
  token : s'.arrival + s'.departure + q.token = s.arrival + s.departure + (s.pc t).token
  counter : s'.counter + (s.pc t).counted = s.counter + q.counted
  alone : s'.counter = s.counter ∨ (s.pc t).token = 1

theorem Moves.pc_self (m : Moves s s' t q) : s'.pc t = q := by
  rw [m.pc, Function.update_self]

theorem Moves.pc_of_ne (m : Moves s s' t q) {u : Tid} (hu : u ≠ t) : s'.pc u = s.pc u := by
  rw [m.pc, Function.update_of_ne hu]

theorem Inv.moves (h : Inv n s) (ht : t < n) (m : Moves s s' t q) (hq : Knows n s'.counter q)
    (hphase : ∃ r, Arriving n s' r ∨ Leaving n s' r) : Inv n s' := by
  refine ⟨fun u hu => ?_, fun u => ?_, fun u => ?_, ?_, ?_, fun u => ?_, hphase⟩
  · rw [m.pc_of_ne (Nat.ne_of_gt (Nat.lt_of_lt_of_le ht hu)), h.idle u hu]
  · by_cases hu : u = t
    · rw [hu, m.held, m.pc_self]
    · rw [(m.others u hu).1, m.pc_of_ne hu, h.held]
  · by_cases hu : u = t
    · rw [hu, m.entered, m.pc_self]
    · rw [(m.others u hu).2.1, (m.others u hu).2.2, m.pc_of_ne hu, h.entered]
  · have hupd := total_update Pc.token s.pc ht q
    have hone := h.one
    have htok := m.token
    rw [m.pc]
    omega
  · have hupd := total_update Pc.counted s.pc ht q
    have hcnt := m.counter
    rw [h.counter] at hcnt
    rw [m.pc]
    omega
  · by_cases hu : u = t
    · rw [hu, m.pc_self]
      exact hq
    · rw [m.pc_of_ne hu]
      rcases m.alone with hc | htok
      · rw [hc]
        exact h.knows u
      · exact .of_token ((h.alone ht htok).2.2 u hu)

theorem Arriving.moves (h : Arriving n s r) (m : Moves s s' t q) (hq : q.leaving = false)
    (hdep : s'.departure = 0) (hret : s'.returned t = s.returned t)
    (hopen : s'.arrival ≠ 0 → s'.counter < n) : Arriving n s' r := by
  refine ⟨hdep, fun u hu => ?_, fun u hu => ?_, hopen⟩
  · by_cases hut : u = t
    · rw [hut, m.pc_self, hq]
    · rw [m.pc_of_ne hut, h.pc u hu]
  · by_cases hut : u = t
    · rw [hut, hret, ← hut, h.returned u hu]
    · rw [(m.others u hut).2.2, h.returned u hu]

theorem Leaving.moves (h : Leaving n s r) (m : Moves s s' t q) (hq : q.arriving = false)
    (harr : s'.arrival = 0) (hret : s'.returned t + q.arrived = s.returned t + (s.pc t).arrived)
    (hopen : s'.departure ≠ 0 → 0 < s'.counter) : Leaving n s' r := by
  refine ⟨harr, fun u hu => ?_, fun u hu => ?_, hopen⟩
  · by_cases hut : u = t
    · rw [hut, m.pc_self, hq]
    · rw [m.pc_of_ne hut, h.pc u hu]
  · by_cases hut : u = t
    · rw [hut, m.pc_self, hret, ← hut, h.returned u hu]
    · rw [(m.others u hut).2.2, m.pc_of_ne hut, h.returned u hu]

/-! ### The steps at `counter_` -/

/-- A load, a store or a test of `counter_`, which leaves it at `c`. -/
theorem Inv.atCounter (h : Inv n s) (ht : t < n) {p : Pc} (hpc : s.pc t = p) {c : ℤ}
    (hp : p.token = 1) (hq : q.token = 1) (hin : q.inside = p.inside) (hkn : Knows n c q)
    (hc : c + p.counted = s.counter + q.counted) (harr : p.leaving = false → q.leaving = false)
    (hlea : p.arriving = false → q.arriving = false ∧ q.arrived = p.arrived) :
    Inv n ({ s with counter := c }.goto t q) := by
  subst hpc
  have m : Moves s ({ s with counter := c }.goto t q) t q := by
    refine ⟨rfl, fun u hu => ⟨rfl, rfl, rfl⟩, ?_, ?_, ?_, hc, .inr hp⟩
    · exact (h.held t).trans (by rw [hp, hq])
    · exact (h.entered t).trans (by rw [hin]; rfl)
    · rw [hq, hp]
      rfl
  obtain ⟨h₁, h₂, -⟩ := h.alone ht hp
  obtain ⟨r, ha | hl⟩ := h.phase
  · refine h.moves ht m hkn ⟨r, .inl (ha.moves m (harr (ha.pc t ht)) h₂ rfl ?_)⟩
    exact fun hne => absurd h₁ hne
  · obtain ⟨hq₁, hq₂⟩ := hlea (hl.pc t ht)
    refine h.moves ht m hkn ⟨r, .inr (hl.moves m hq₁ h₁ (by rw [hq₂]; rfl) ?_)⟩
    exact fun hne => absurd h₂ hne

theorem Inv.load1 (h : Inv n s) (ht : t < n) (hpc : s.pc t = .load1) :
    Inv n (s.goto t (.store1 s.counter)) :=
  h.atCounter ht hpc rfl rfl rfl rfl rfl (fun _ => rfl) fun hf => Bool.noConfusion hf

theorem Inv.store1 (h : Inv n s) (ht : t < n) {v : ℤ} (hpc : s.pc t = .store1 v) :
    Inv n ({ s with counter := v + 1 }.goto t .test1) := by
  have hv := h.knows t
  rw [hpc, Knows] at hv
  refine h.atCounter ht hpc rfl rfl rfl trivial ?_ (fun _ => rfl) fun hf => Bool.noConfusion hf
  rw [hv]
  exact Int.add_zero _

theorem Inv.test1 (h : Inv n s) (ht : t < n) (hpc : s.pc t = .test1) :
    Inv n (s.goto t (.post1 (¬s.counter < n))) := by
  have hle := h.counter_le.2
  refine h.atCounter ht hpc rfl rfl rfl ?_ rfl (fun _ => rfl) fun hf => Bool.noConfusion hf
  rw [Knows, decide_eq_true_iff]
  omega

theorem Inv.load2 (h : Inv n s) (ht : t < n) (hpc : s.pc t = .load2) :
    Inv n (s.goto t (.store2 s.counter)) :=
  h.atCounter ht hpc rfl rfl rfl rfl rfl (fun hf => Bool.noConfusion hf) fun _ => ⟨rfl, rfl⟩

theorem Inv.store2 (h : Inv n s) (ht : t < n) {v : ℤ} (hpc : s.pc t = .store2 v) :
    Inv n ({ s with counter := v - 1 }.goto t .test2) := by
  have hv := h.knows t
  rw [hpc, Knows] at hv
  refine h.atCounter ht hpc rfl rfl rfl trivial ?_ (fun hf => Bool.noConfusion hf)
    fun _ => ⟨rfl, rfl⟩
  rw [hv]
  simp [Pc.counted]

theorem Inv.test2 (h : Inv n s) (ht : t < n) (hpc : s.pc t = .test2) :
    Inv n (s.goto t (.post2 (¬s.counter > 0))) := by
  have hle := h.counter_le.1
  refine h.atCounter ht hpc rfl rfl rfl ?_ rfl (fun hf => Bool.noConfusion hf)
    fun _ => ⟨rfl, rfl⟩
  rw [Knows, decide_eq_true_iff]
  omega

/-! ### The steps at the semaphores -/

/-- `wait()` is called. -/
theorem Inv.out (h : Inv n s) (ht : t < n) (hpc : s.pc t = .out) :
    Inv n ((s.enter t).goto t .arrive) := by
  have hhe := h.held t
  have hen := h.entered t
  rw [hpc] at hhe hen
  have m : Moves s ((s.enter t).goto t .arrive) t .arrive := by
    refine ⟨rfl, fun u hu => ⟨rfl, Function.update_of_ne hu .., rfl⟩, hhe, ?_, ?_, ?_, .inl rfl⟩
    · exact (Function.update_self ..).trans (congrArg (· + 1) hen)
    · rw [hpc]
      rfl
    · rw [hpc]
      rfl
  obtain ⟨r, ha | hl⟩ := h.phase
  · exact h.moves ht m trivial ⟨r, .inl (ha.moves m rfl ha.departure rfl ha.open_)⟩
  · exact h.moves ht m trivial ⟨r, .inr (hl.moves m rfl hl.arrival (by rw [hpc]; rfl) hl.open_)⟩

/-- A `sem_wait`, on either semaphore. -/
theorem Inv.moves_wait (h : Inv n s) {p : Pc} (hpc : s.pc t = p) (hp : p.token = 0)
    (hq : q.token = 1) (hin : q.inside = p.inside) (hc : q.counted = p.counted)
    (hheld : s'.held = Function.update s.held t (s.held t + 1))
    (hpcs : s'.pc = Function.update s.pc t q)
    (hsame : s'.entered = s.entered ∧ s'.returned = s.returned ∧ s'.counter = s.counter)
    (hsem : s'.arrival + s'.departure + 1 = s.arrival + s.departure) : Moves s s' t q := by
  subst hpc
  obtain ⟨hen, hret, hcnt⟩ := hsame
  refine ⟨hpcs, fun u hu => ?_, ?_, ?_, ?_, ?_, .inl hcnt⟩
  · rw [hheld, hen, hret, Function.update_of_ne hu]
    exact ⟨rfl, rfl, rfl⟩
  · rw [hheld, Function.update_self, h.held, hp, hq]
    rfl
  · rw [hen, hret, h.entered, hin]
  · rw [hp, hq]
    exact hsem
  · rw [hcnt, hc]

/-- A `sem_post`, on either semaphore. -/
theorem Inv.moves_post (h : Inv n s) {p : Pc} (hpc : s.pc t = p) (hp : p.token = 1)
    (hq : q.token = 0) (hc : q.counted = p.counted)
    (hheld : s'.held = Function.update s.held t (s.held t - 1))
    (hpcs : s'.pc = Function.update s.pc t q) (hent : s'.entered = s.entered)
    (hcnt : s'.counter = s.counter) (hret : ∀ u ≠ t, s'.returned u = s.returned u)
    (hin : s'.returned t + q.inside = s.returned t + p.inside)
    (hsem : s'.arrival + s'.departure = s.arrival + s.departure + 1) : Moves s s' t q := by
  subst hpc
  refine ⟨hpcs, fun u hu => ?_, ?_, ?_, ?_, ?_, .inl hcnt⟩
  · rw [hheld, hent, Function.update_of_ne hu]
    exact ⟨rfl, rfl, hret u hu⟩
  · rw [hheld, Function.update_self, h.held, hp, hq]
    rfl
  · rw [hent, h.entered, hin]
  · rw [hp, hq]
    exact hsem
  · rw [hcnt, hc]

theorem Inv.arrive (h : Inv n s) (ht : t < n) (hpc : s.pc t = .arrive) (hpos : 0 < s.arrival) :
    Inv n ((s.waitArrival t).goto t .load1) := by
  have hone := h.one
  have m : Moves s ((s.waitArrival t).goto t .load1) t .load1 :=
    h.moves_wait hpc rfl rfl rfl rfl rfl rfl ⟨rfl, rfl, rfl⟩
      (show s.arrival - 1 + s.departure + 1 = _ by omega)
  obtain ⟨r, ha | hl⟩ := h.phase
  · refine h.moves ht m trivial ⟨r, .inl (ha.moves m rfl ha.departure rfl ?_)⟩
    intro hne
    exact absurd (show s.arrival - 1 = 0 by omega) hne
  · rw [hl.arrival] at hpos
    cases hpos

theorem Inv.depart (h : Inv n s) (ht : t < n) (hpc : s.pc t = .depart) (hpos : 0 < s.departure) :
    Inv n ((s.waitDeparture t).goto t .load2) := by
  have hone := h.one
  have m : Moves s ((s.waitDeparture t).goto t .load2) t .load2 :=
    h.moves_wait hpc rfl rfl rfl rfl rfl rfl ⟨rfl, rfl, rfl⟩
      (show s.arrival + (s.departure - 1) + 1 = _ by omega)
  obtain ⟨r, ha | hl⟩ := h.phase
  · rw [ha.departure] at hpos
    cases hpos
  · refine h.moves ht m trivial ⟨r, .inr (hl.moves m rfl hl.arrival (by rw [hpc]; rfl) ?_)⟩
    intro hne
    exact absurd (show s.departure - 1 = 0 by omega) hne

/-- More threads are to come. -/
theorem Inv.post1_false (h : Inv n s) (ht : t < n) (hpc : s.pc t = .post1 false) :
    Inv n ((s.postArrival t).goto t .depart) := by
  have hlt : s.counter < n := by
    have hkn := h.knows t
    rw [hpc, Knows] at hkn
    have hle := h.counter_le.2
    refine lt_of_le_of_ne hle fun heq => ?_
    cases hkn.mpr heq
  obtain ⟨h₁, h₂, -⟩ := h.alone ht (by rw [hpc]; rfl)
  have m : Moves s ((s.postArrival t).goto t .depart) t .depart :=
    h.moves_post hpc rfl rfl rfl rfl rfl rfl rfl (fun _ _ => rfl) rfl
      (show s.arrival + 1 + s.departure = _ by omega)
  obtain ⟨r, ha | hl⟩ := h.phase
  · exact h.moves ht m trivial ⟨r, .inl (ha.moves m rfl h₂ rfl fun _ => hlt)⟩
  · have hno := hl.pc t ht
    rw [hpc] at hno
    cases hno

/-- The last thread of the round: all are counted, and the threads leave. -/
theorem Inv.post1_true (h : Inv n s) (ht : t < n) (hpc : s.pc t = .post1 true) :
    Inv n ((s.postDeparture t).goto t .depart) := by
  have hall : s.counter = n := by
    have hkn := h.knows t
    rw [hpc, Knows] at hkn
    exact hkn.mp rfl
  obtain ⟨h₁, h₂, hrest⟩ := h.alone ht (by rw [hpc]; rfl)
  have m : Moves s ((s.postDeparture t).goto t .depart) t .depart :=
    h.moves_post hpc rfl rfl rfl rfl rfl rfl rfl (fun _ _ => rfl) rfl
      (show s.arrival + (s.departure + 1) = _ by omega)
  obtain ⟨r, ha | hl⟩ := h.phase
  · refine h.moves ht m trivial ⟨r, .inr ⟨h₁, fun u hu => ?_, fun u hu => ?_, fun _ => ?_⟩⟩
    · by_cases hut : u = t
      · rw [hut, m.pc_self]
        rfl
      · rw [m.pc_of_ne hut]
        exact Pc.arriving_eq_false (hrest u hut)
    · have hret : ((s.postDeparture t).goto t .depart).returned u = r := ha.returned u hu
      have hcnt : total n Pc.counted s.pc = n := by exact_mod_cast h.counter.symm.trans hall
      rw [hret]
      by_cases hut : u = t
      · rw [hut, m.pc_self]
        rfl
      · rw [m.pc_of_ne hut,
          Pc.arrived_eq_of_counted (eq_one_of_total Pc.counted_le hcnt hu)]
    · show 0 < s.counter
      rw [hall]
      exact_mod_cast Nat.zero_lt_of_lt ht
  · have hno := hl.pc t ht
    rw [hpc] at hno
    cases hno

/-- Threads are still to leave. -/
theorem Inv.post2_false (h : Inv n s) (ht : t < n) (hpc : s.pc t = .post2 false) :
    Inv n (((s.postDeparture t).ret t).goto t .out) := by
  have hpos : 0 < s.counter := by
    have hkn := h.knows t
    rw [hpc, Knows] at hkn
    have hle := h.counter_le.1
    refine lt_of_le_of_ne hle fun heq => ?_
    cases hkn.mpr heq.symm
  obtain ⟨h₁, h₂, -⟩ := h.alone ht (by rw [hpc]; rfl)
  have hret : (((s.postDeparture t).ret t).goto t .out).returned t = s.returned t + 1 :=
    Function.update_self ..
  have m : Moves s (((s.postDeparture t).ret t).goto t .out) t .out :=
    h.moves_post hpc rfl rfl rfl rfl rfl rfl rfl (fun u hu => Function.update_of_ne hu ..)
      (by rw [hret]; rfl) (show s.arrival + (s.departure + 1) = _ by omega)
  obtain ⟨r, ha | hl⟩ := h.phase
  · have hno := ha.pc t ht
    rw [hpc] at hno
    cases hno
  · refine h.moves ht m trivial ⟨r, .inr (hl.moves m rfl h₁ ?_ fun _ => hpos)⟩
    rw [hret, hpc]
    rfl

/-- The last thread leaves: none is counted, and a new round begins. -/
theorem Inv.post2_true (h : Inv n s) (ht : t < n) (hpc : s.pc t = .post2 true) :
    Inv n (((s.postArrival t).ret t).goto t .out) := by
  have hzero : s.counter = 0 := by
    have hkn := h.knows t
    rw [hpc, Knows] at hkn
    exact hkn.mp rfl
  obtain ⟨h₁, h₂, hrest⟩ := h.alone ht (by rw [hpc]; rfl)
  have hret : (((s.postArrival t).ret t).goto t .out).returned t = s.returned t + 1 :=
    Function.update_self ..
  have m : Moves s (((s.postArrival t).ret t).goto t .out) t .out :=
    h.moves_post hpc rfl rfl rfl rfl rfl rfl rfl (fun u hu => Function.update_of_ne hu ..)
      (by rw [hret]; rfl) (show s.arrival + 1 + s.departure = _ by omega)
  obtain ⟨r, ha | hl⟩ := h.phase
  · have hno := ha.pc t ht
    rw [hpc] at hno
    cases hno
  · refine h.moves ht m trivial ⟨r + 1, .inl ⟨h₂, fun u hu => ?_, fun u hu => ?_, fun _ => ?_⟩⟩
    · by_cases hut : u = t
      · rw [hut, m.pc_self]
        rfl
      · rw [m.pc_of_ne hut]
        exact Pc.leaving_eq_false (hrest u hut)
    · have hru := hl.returned u hu
      by_cases hut : u = t
      · rw [hut, hpc] at hru
        rw [hut, hret]
        exact hru
      · have hcnt : (s.pc u).counted = 0 := by
          have hle := le_total Pc.counted s.pc hu
          have hsum := h.counter
          omega
        rw [Pc.arrived_eq_of_not_counted (hrest u hut) hcnt] at hru
        rw [(m.others u hut).2.2]
        exact hru
    · show s.counter < n
      rw [hzero]
      exact_mod_cast Nat.zero_lt_of_lt ht

theorem Inv.step (h : Inv n s) (hs : step n s t = some s') : Inv n s' := by
  rw [Barrier.step] at hs
  by_cases ht : t < n
  · rw [if_pos ht] at hs
    cases hpc : s.pc t with
    | out =>
        rw [hpc] at hs
        obtain rfl := Option.some.inj hs
        exact h.out ht hpc
    | arrive =>
        rw [hpc] at hs
        obtain ⟨hpos, hs⟩ := Option.ite_none_right_eq_some.mp hs
        obtain rfl := Option.some.inj hs
        exact h.arrive ht hpc hpos
    | load1 =>
        rw [hpc] at hs
        obtain rfl := Option.some.inj hs
        exact h.load1 ht hpc
    | store1 v =>
        rw [hpc] at hs
        obtain rfl := Option.some.inj hs
        exact h.store1 ht hpc
    | test1 =>
        rw [hpc] at hs
        obtain rfl := Option.some.inj hs
        exact h.test1 ht hpc
    | post1 last =>
        cases last with
        | false =>
            rw [hpc] at hs
            obtain rfl := Option.some.inj hs
            exact h.post1_false ht hpc
        | true =>
            rw [hpc] at hs
            obtain rfl := Option.some.inj hs
            exact h.post1_true ht hpc
    | depart =>
        rw [hpc] at hs
        obtain ⟨hpos, hs⟩ := Option.ite_none_right_eq_some.mp hs
        obtain rfl := Option.some.inj hs
        exact h.depart ht hpc hpos
    | load2 =>
        rw [hpc] at hs
        obtain rfl := Option.some.inj hs
        exact h.load2 ht hpc
    | store2 v =>
        rw [hpc] at hs
        obtain rfl := Option.some.inj hs
        exact h.store2 ht hpc
    | test2 =>
        rw [hpc] at hs
        obtain rfl := Option.some.inj hs
        exact h.test2 ht hpc
    | post2 last =>
        cases last with
        | false =>
            rw [hpc] at hs
            obtain rfl := Option.some.inj hs
            exact h.post2_false ht hpc
        | true =>
            rw [hpc] at hs
            obtain rfl := Option.some.inj hs
            exact h.post2_true ht hpc
  · rw [if_neg ht] at hs
    cases hs

theorem reachable_inv (hn : 1 ≤ n) (h : (machine n).Reachable s) : Inv n s :=
  h.invariant (I := Inv n) (fun _ h0 => Initial.inv hn h0) fun _ _ _ hi _ hs => hi.step hs

/-! ## What the barrier is for -/

/-- Nobody returns from a round before all have entered it. -/
theorem Inv.returned_le_entered (h : Inv n s) {u : Tid} (ht : t < n) (hu : u < n) :
    s.returned t ≤ s.entered u := by
  have hent := h.entered u
  obtain ⟨r, ha | hl⟩ := h.phase
  · rw [ha.returned t ht, hent, ha.returned u hu]
    exact Nat.le_add_right ..
  · have hrt := hl.returned t ht
    have hru := hl.returned u hu
    have hle := Pc.arrived_le (s.pc u)
    omega

theorem Inv.sum_held (h : Inv n s) :
    ∑ t ∈ Finset.range n, s.held t = (total n Pc.token s.pc : ℤ) := by
  rw [total, Nat.cast_sum]
  exact Finset.sum_congr rfl fun t _ => h.held t

theorem Inv.held_of_accesses (h : Inv n s) (hacc : (s.pc t).accesses = true) : s.held t = 1 := by
  rw [h.held]
  cases hpc : s.pc t <;> rw [hpc] at hacc <;> first | rfl | cases hacc

/-- In every reachable state of `n` threads that call `wait()` again and
again: whenever some thread has returned from its `k`-th call all have
entered theirs, `counter_` is in range and only at hand for a thread that
took a token, and there is at most one token. -/
theorem wait_rounds (hn : 1 ≤ n) (h : (machine n).Reachable s) :
    (∀ k, ∀ t < n, k ≤ s.returned t → ∀ u < n, k ≤ s.entered u)
      ∧ (0 ≤ s.counter ∧ s.counter ≤ n)
      ∧ (∀ t, (s.pc t).accesses = true → s.held t = 1)
      ∧ (∀ t, 0 ≤ s.held t)
      ∧ (s.arrival + s.departure + ∑ t ∈ Finset.range n, s.held t : ℤ) ≤ 1 := by
  have hi := reachable_inv hn h
  refine ⟨fun k t ht hk u hu => hk.trans (hi.returned_le_entered ht hu), hi.counter_le,
    fun t => hi.held_of_accesses, fun t => ?_, ?_⟩
  · rw [hi.held]
    exact Int.natCast_nonneg _
  · rw [hi.sum_held]
    exact_mod_cast hi.one.le

/-- Both threads arrive; thread 0 leaves and enters again before thread 1
leaves. -/
def twoRounds : List Tid :=
  [0, 0, 0, 0, 0, 0, 1, 1, 1, 1, 1, 1, 0, 0, 0, 0, 0, 0]

def start : State := ⟨1, 0, 0, fun _ => .out, fun _ => 0, fun _ => 0, fun _ => 0⟩

theorem start_initial : Initial start :=
  ⟨rfl, rfl, rfl, fun _ => rfl, fun _ => rfl, fun _ => rfl, fun _ => rfl⟩

theorem wait_rounds_two : ∃ s, (machine 2).Reachable s ∧ s.returned 0 = 1 ∧ s.returned 1 = 0
    ∧ 1 ≤ s.entered 1 := by
  have hrun : ((machine 2).exec (fun _ _ => True) start twoRounds).any
      (fun s => s.returned 0 = 1 ∧ s.returned 1 = 0) = true := by
    decide
  obtain ⟨s, hs, hp⟩ := Lts.ReachableBy.exec_any (.init start_initial) hrun
  obtain ⟨h₀, h₁⟩ := of_decide_eq_true hp
  exact ⟨s, hs, h₀, h₁, (wait_rounds (by decide) hs).1 1 0 (by decide) h₀.ge 1 (by decide)⟩

end Barrier

end HttpServer
