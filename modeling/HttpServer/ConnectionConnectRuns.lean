import HttpServer.ConnectionConnect

/-!
# Runs of a connect

An execution goes on forever or comes to its end, and its scheduler is fair
to every thread and to the poll thread. Each thread gets on to where it is idle
(`settles`), the call of `doConnect` that is in the queue gets to its
front (`taken`), and the thread that has taken it goes on to `release()`
(`released`).

The two ways on which no call is made are invariants of their own: there
is no descriptor and `setUpCalls` is as far as a thread gets (`Bare`), or
the descriptor waits for an event that does not come (`Waiting`).
-/

namespace HttpServer

namespace ConnectionConnect

open Tally
open Lts (Execution)
open Descriptor (Side Callback Flags)

/-- The threads and the poll thread go on. -/
structure FairRun {o : Outcome} (e : Execution (machine o)) : Prop where
  tick : ∀ t, e.Fair (.tick t)
  schedule : e.Fair .schedule

/-- `connDone()` is called once, the `acquire()` of `startConnect` has one
`release()`, and `setUpCalls` is called on a descriptor. -/
structure Issued {o : Outcome} (e : Execution (machine o)) : Prop where
  connDone : (∃ i, (e.st i).connDones = 1) ∧ ∀ i, (e.st i).connDones ≤ 1
  release : (∃ i, (e.st i).acquires = 1 ∧ (e.st i).releases = 1)
    ∧ ∀ i, (e.st i).releases ≤ (e.st i).acquires ∧ (e.st i).acquires ≤ 1
  setUpCalls : ∀ i t, (e.st i).pc t = .setUpCalls → (e.st i).ioDesc ≠ none

/-! ## What a step can do -/

namespace Pc

/-- The places a step leads to. -/
def next : Pc → List Pc
  | .idle => [.idle, .doConnect]
  | .socket => [.connect, .idle]
  | .connect => [.acquire]
  | .acquire => [.doConnect, .newDescriptor]
  | .newDescriptor => [.writeWhenReady]
  | .writeWhenReady => [.addTask, .idle]
  | .addTask => [.idle]
  | .doConnect => [.connDone, .setUpCalls]
  | .setUpCalls => [.crashed, .connDone]
  | .connDone => [.release]
  | .release => [.delete, .idle]
  | .delete => [.idle]
  | .crashed => []

/-- The steps that are left at most. -/
def rank : Pc → ℕ
  | .idle | .crashed => 0
  | .delete => 1
  | .release => 2
  | .connDone => 3
  | .setUpCalls => 4
  | .doConnect => 5
  | .addTask => 6
  | .writeWhenReady => 7
  | .newDescriptor => 8
  | .acquire => 9
  | .connect => 10
  | .socket => 11

/-- In `startConnect`. -/
def early : Pc → Bool
  | .socket | .connect | .acquire | .newDescriptor | .writeWhenReady | .addTask => true
  | _ => false

/-- In `doConnect`. -/
def late : Pc → Bool
  | .doConnect | .setUpCalls | .connDone | .release => true
  | _ => false

variable {pc pc' : Pc}

theorem rank_le (pc : Pc) : pc.rank ≤ 11 := by
  cases pc <;> decide

theorem rank_next (h : pc' ∈ pc.next) (hne : pc ≠ .idle) : pc'.rank < pc.rank := by
  cases pc <;> simp only [next, List.mem_cons, List.not_mem_nil, or_false] at h
  case idle => exact absurd rfl hne
  case socket | acquire | writeWhenReady | doConnect | setUpCalls | release =>
    rcases h with rfl | rfl <;> decide
  all_goals
    subst h
    decide

theorem early_of_next (h : pc' ∈ pc.next) (he : pc'.early = true) : pc.early = true := by
  cases pc <;> simp only [next, List.mem_cons, List.not_mem_nil, or_false] at h
  case idle | doConnect | setUpCalls | release =>
    rcases h with rfl | rfl <;> cases he
  case connDone | delete =>
    subst h
    cases he
  all_goals rfl

theorem late_of_next (h : pc' ∈ pc.next) (hl : pc.late = true) (hr : pc ≠ .release)
    (hc : pc' ≠ .crashed) : pc'.late = true := by
  cases pc <;> simp only [next, List.mem_cons, List.not_mem_nil, or_false] at h
  case doConnect => obtain rfl | rfl := h <;> rfl
  case setUpCalls =>
    rcases h with rfl | rfl
    · exact absurd rfl hc
    · rfl
  case connDone =>
    subst h
    rfl
  case release => exact absurd rfl hr
  all_goals cases hl

theorem early_or_late (h : pc.holds = true) : pc.early = true ∨ pc.late = true := by
  cases pc <;> first | exact .inl rfl | exact .inr rfl | cases h

theorem early_of_starts (h : pc.starts = true) : pc.early = true := by
  cases pc <;> first | rfl | cases h

theorem starts_or_holds (h : pc.owes = true) : pc.starts = true ∨ pc.holds = true := by
  cases pc <;> first | exact .inl rfl | exact .inr rfl | cases h

end Pc

section

variable {o : Outcome} {s s' : State} {t u : Tid} {pc : Pc} {a : Act}

/-- A step of a thread. -/
structure Ticks (s s' : State) (t : Tid) (pc : Pc) : Prop where
  moves : s'.pc = Function.update s.pc t pc
  next : pc ∈ (s.pc t).next
  poll : s'.scheduleNow = s.scheduleNow ∧ s'.events = s.events
  goes : s.pc t ≠ .idle → ∃ l, s'.tasks = s.tasks ++ l
  takes : s.pc t = .idle → ∃ cb, s.tasks = cb :: s'.tasks ∧ (cb = connectUpCall → pc = .doConnect)
  releases : s.pc t = .release → s'.releases = s.releases + 1

/-- A step of anything else. -/
structure Apart (a : Act) (s s' : State) : Prop where
  still : s'.pc = s.pc
  poll : a ≠ .schedule → s.scheduleNow ≠ none → s'.scheduleNow ≠ none
  events : ∀ σ ∈ s.events, σ ∈ s'.events
  tasks : ∃ l, s'.tasks = s.tasks ++ l

/-- A thread that is not idle adds to the queue at most. -/
theorem Ticks.goto {s₁ : State} {pc₀ : Pc} {l : List Callback} (hpc : s.pc t = pc₀)
    (hnext : pc ∈ pc₀.next) (hne : pc₀ ≠ .idle)
    (hsame : s₁.pc = s.pc ∧ s₁.scheduleNow = s.scheduleNow ∧ s₁.events = s.events)
    (htasks : s₁.tasks = s.tasks ++ l)
    (hreleases : pc₀ = .release → s₁.releases = s.releases + 1) :
    Ticks s (s₁.goto t pc) t pc := by
  subst hpc
  refine ⟨?_, hnext, hsame.2, fun _ => ⟨l, htasks⟩, fun h => absurd h hne, hreleases⟩
  rw [← hsame.1]
  rfl

theorem Ticks.plain {s₁ : State} {pc₀ : Pc} (hpc : s.pc t = pc₀) (hnext : pc ∈ pc₀.next)
    (hne : pc₀ ≠ .idle ∧ pc₀ ≠ .release)
    (hsame : s₁.pc = s.pc ∧ s₁.scheduleNow = s.scheduleNow ∧ s₁.events = s.events)
    (htasks : s₁.tasks = s.tasks) : Ticks s (s₁.goto t pc) t pc :=
  .goto hpc hnext hne.1 hsame (htasks.trans (List.append_nil _).symm) fun h => absurd h hne.2

theorem tick_idle (hpc : s.pc t = .idle) (hs : tick o s t = some s') : ∃ pc, Ticks s s' t pc := by
  rw [tick, hpc] at hs
  cases htasks : s.tasks with
  | nil =>
      rw [htasks] at hs
      cases hs
  | cons cb tasks =>
      rw [htasks] at hs
      obtain rfl := Option.some.inj hs
      by_cases hcb : cb = connectUpCall
      · rw [if_pos hcb]
        exact ⟨.doConnect, rfl, by rw [hpc]; decide, ⟨rfl, rfl⟩, fun hne => absurd hpc hne,
          fun _ => ⟨cb, htasks, fun _ => rfl⟩, fun hrel => absurd (hpc.symm.trans hrel) (by decide)⟩
      · rw [if_neg hcb]
        refine ⟨.idle, ?_, by rw [hpc]; decide, ⟨rfl, rfl⟩, fun hne => absurd hpc hne,
          fun _ => ⟨cb, htasks, fun heq => absurd heq hcb⟩,
          fun hrel => absurd (hpc.symm.trans hrel) (by decide)⟩
        rw [← hpc, Function.update_eq_self]

theorem tick_spec (hs : tick o s t = some s') : ∃ pc, Ticks s s' t pc := by
  cases hpc : s.pc t with
  | idle => exact tick_idle hpc hs
  | socket =>
      rw [tick, hpc] at hs
      cases hsock : o.socket <;> rw [hsock] at hs <;> obtain rfl := Option.some.inj hs <;>
        exact ⟨_, .plain hpc (by decide) (by decide) ⟨rfl, rfl, rfl⟩ rfl⟩
  | acquire =>
      rw [tick, hpc] at hs
      cases hconn : o.connect with
      | ok =>
          rw [hconn] at hs
          obtain rfl := Option.some.inj hs
          exact ⟨_, .plain hpc (by decide) (by decide) ⟨rfl, rfl, rfl⟩ rfl⟩
      | error errno =>
          simp only [hconn] at hs
          split at hs <;> obtain rfl := Option.some.inj hs <;>
            exact ⟨_, .plain hpc (by decide) (by decide) ⟨rfl, rfl, rfl⟩ rfl⟩
  | writeWhenReady =>
      rw [tick, hpc] at hs
      obtain ⟨d, hd, rfl⟩ := Option.map_eq_some_iff.mp hs
      refine ⟨_, .plain hpc ?_ (by decide) ⟨rfl, rfl, rfl⟩ rfl⟩
      split <;> decide
  | addTask =>
      rw [tick, hpc] at hs
      obtain rfl := Option.some.inj hs
      exact ⟨_, .goto hpc (by decide) (by decide) ⟨rfl, rfl, rfl⟩ rfl
        fun hrel => absurd hrel (by decide)⟩
  | doConnect =>
      simp only [tick, hpc] at hs
      split at hs
      · obtain rfl := Option.some.inj hs
        exact ⟨_, .plain hpc (by decide) (by decide) ⟨rfl, rfl, rfl⟩ rfl⟩
      · split at hs <;> obtain rfl := Option.some.inj hs <;>
          exact ⟨_, .plain hpc (by decide) (by decide) ⟨rfl, rfl, rfl⟩ rfl⟩
  | setUpCalls =>
      rw [tick, hpc] at hs
      cases hd : s.ioDesc <;> simp only [hd] at hs <;> obtain rfl := Option.some.inj hs <;>
        exact ⟨_, .plain hpc (by decide) (by decide) ⟨rfl, rfl, rfl⟩ rfl⟩
  | release =>
      rw [tick, hpc] at hs
      obtain rfl := Option.some.inj hs
      refine ⟨_, .goto hpc ?_ (by decide) ⟨rfl, rfl, rfl⟩ (List.append_nil _).symm fun _ => rfl⟩
      split <;> decide
  | crashed =>
      rw [tick, hpc] at hs
      cases hs
  | _ =>
      rw [tick, hpc] at hs
      obtain rfl := Option.some.inj hs
      exact ⟨_, .plain hpc (by decide) (by decide) ⟨rfl, rfl, rfl⟩ rfl⟩

theorem step_spec (hs : step o s a = some s') :
    (∃ t pc, a = .tick t ∧ Ticks s s' t pc) ∨ (∀ t, a ≠ .tick t) ∧ Apart a s s' := by
  have hnil : ∀ l : List Callback, ∃ l', l = l ++ l' := fun l => ⟨[], (List.append_nil l).symm⟩
  cases a with
  | tick t =>
      obtain ⟨pc, hpc⟩ := tick_spec hs
      exact .inl ⟨t, pc, rfl, hpc⟩
  | event σ =>
      refine .inr ⟨fun _ heq => (by cases heq), ?_⟩
      simp only [step] at hs
      split at hs
      next hnow =>
        split at hs
        · cases hs
        · obtain rfl := Option.some.inj hs
          exact ⟨rfl, fun _ h => absurd hnow h, fun _ => List.mem_cons_of_mem _, hnil _⟩
      next => cases hs
  | schedule =>
      simp only [step] at hs
      obtain ⟨σ, hσ, rfl⟩ := Option.map_eq_some_iff.mp hs
      exact .inr ⟨fun _ heq => (by cases heq), rfl, fun h => absurd rfl h, fun _ => id, _, rfl⟩
  | request σ =>
      refine .inr ⟨fun _ heq => (by cases heq), ?_⟩
      simp only [step] at hs
      split at hs
      · split at hs
        · obtain rfl := Option.some.inj hs
          exact ⟨rfl, fun _ => id, fun _ => id, _, rfl⟩
        · cases hs
      · cases hs
  | acquire | release =>
      refine .inr ⟨fun _ heq => (by cases heq), ?_⟩
      simp only [step] at hs
      split at hs
      · obtain rfl := Option.some.inj hs
        exact ⟨rfl, fun _ => id, fun _ => id, hnil _⟩
      · cases hs

/-- No other step moves a thread. -/
theorem pc_of_ne (hs : step o s a = some s') (hne : a ≠ .tick t) : s'.pc t = s.pc t := by
  rcases step_spec hs with ⟨u, pc, rfl, hu⟩ | ⟨-, hpc⟩
  · have htu : t ≠ u := by
      rintro rfl
      exact hne rfl
    rw [hu.moves, Function.update_of_ne htu]
  · rw [hpc.still]

theorem early_of_step (hs : step o s a = some s') (h : (s'.pc t).early = true) :
    (s.pc t).early = true := by
  by_cases hne : a = .tick t
  · subst hne
    obtain ⟨pc, hpc⟩ := tick_spec hs
    rw [hpc.moves, Function.update_self] at h
    exact Pc.early_of_next hpc.next h
  · rwa [pc_of_ne hs hne] at h

theorem Inv.enabled (h : Inv o s) (hidle : s.pc t = .idle → s.tasks ≠ [])
    (hcrashed : s.pc t ≠ .crashed) : ConnectionConnect.tick o s t ≠ none := by
  have hplace := h.place t
  rw [ConnectionConnect.tick]
  cases hpc : s.pc t with
  | idle =>
      obtain ⟨cb, tasks, htasks⟩ := List.exists_cons_of_ne_nil (hidle hpc)
      rw [htasks]
      exact Option.some_ne_none _
  | socket => cases o.socket <;> exact Option.some_ne_none _
  | acquire =>
      cases o.connect with
      | ok => exact Option.some_ne_none _
      | error errno =>
          dsimp only
          split <;> exact Option.some_ne_none _
  | writeWhenReady =>
      rw [hpc] at hplace
      obtain ⟨d, hd, -⟩ := hplace
      rw [hd]
      exact Option.some_ne_none _
  | doConnect =>
      dsimp only
      split
      · exact Option.some_ne_none _
      · split <;> exact Option.some_ne_none _
  | setUpCalls => cases s.ioDesc <;> exact Option.some_ne_none _
  | crashed => exact absurd hpc hcrashed
  | _ => exact Option.some_ne_none _

/-! ## Progress -/

/-- `setUpCalls` has its descriptor. -/
theorem not_crashed_step (h : Inv o s) (hno : s.pc t ≠ .crashed) (hs : step o s a = some s') :
    s'.pc t ≠ .crashed := by
  by_cases hne : a = .tick t
  · subst hne
    obtain ⟨pc, hpc⟩ := tick_spec hs
    rw [hpc.moves, Function.update_self]
    rintro rfl
    have hnext := hpc.next
    cases hat : s.pc t <;> rw [hat] at hnext <;> simp [Pc.next] at hnext
    have hplace := h.place t
    rw [hat] at hplace
    obtain ⟨d, hd⟩ := Option.ne_none_iff_exists'.mp hplace
    simp only [step, tick, hat, hd] at hs
    obtain rfl := Option.some.inj hs
    have hmoves := congrFun hpc.moves t
    rw [State.goto_pc, Function.update_self] at hmoves
    cases hmoves
  · rwa [pc_of_ne hs hne]

end

section

variable {o : Outcome} {e : Execution (machine o)} {t u : Tid} {i j : ℕ}

theorem execution_inv (hn : Normal o) (e : Execution (machine o)) (i : ℕ) : Inv o (e.st i) :=
  e.invariant (fun _ h => Init.inv h) (fun _ _ _ h hs => h.step hn hs) i

theorem not_crashed (hn : Normal o) (e : Execution (machine o)) (i : ℕ) (t : Tid) :
    (e.st i).pc t ≠ .crashed := by
  induction i with
  | zero =>
      obtain ⟨u, hu⟩ := e.init.pc
      rw [hu, Function.update_apply]
      split <;> nofun
  | succ i ih =>
      exact e.keeps (I := fun s => s.pc t ≠ .crashed)
        (fun _ _ hs => not_crashed_step (execution_inv hn e i) ih hs) ih

/-- Each thread gets on to where it is idle. -/
theorem settles (hn : Normal o) (hf : FairRun e) (t : Tid) (i : ℕ) :
    ∃ j, i ≤ j ∧ (e.st j).pc t = .idle := by
  by_cases hidle : (e.st i).pc t = .idle
  · exact ⟨i, Nat.le_refl i, hidle⟩
  · refine (hf.tick t).leadsTo (p := fun s => s.pc t ≠ .idle) (q := fun s => s.pc t = .idle)
      (fun s => (s.pc t).rank) (fun j hj => ?_) (fun j hj hact => ?_)
      (fun j b hj hact hne => ?_) hidle
    · exact (execution_inv hn e j).enabled (absurd · hj) (not_crashed hn e j t)
    · obtain ⟨pc, hpc⟩ := tick_spec (e.step hact)
      rw [hpc.moves, Function.update_self]
      by_cases hnext : pc = .idle
      · exact .inl hnext
      · exact .inr ⟨hnext, Pc.rank_next hpc.next hj⟩
    · rw [pc_of_ne (e.step hact) hne]
      exact .inr ⟨hj, Nat.le_refl _⟩

/-- Once a thread has begun with `doConnect`, it goes on to `release()`. -/
theorem released (hn : Normal o) (hf : FairRun e) (ht : ((e.st i).pc t).late = true) :
    ∃ j, i ≤ j ∧ 1 ≤ (e.st j).releases := by
  refine (hf.tick t).leadsTo (p := fun s => (s.pc t).late = true)
    (q := fun s => 1 ≤ s.releases) (fun s => (s.pc t).rank) (fun j hj => ?_)
    (fun j hj hact => ?_) (fun j b hj hact hne => ?_) ht
  · refine (execution_inv hn e j).enabled (fun hidle => ?_) (not_crashed hn e j t)
    rw [hidle] at hj
    cases hj
  · obtain ⟨pc, hpc⟩ := tick_spec (e.step hact)
    have hne : (e.st j).pc t ≠ .idle := by
      intro hidle
      rw [hidle] at hj
      cases hj
    by_cases hrel : (e.st j).pc t = .release
    · exact .inl (by rw [hpc.releases hrel]; exact Nat.le_add_left ..)
    · have hcrash := not_crashed hn e (j + 1) t
      have hlate : pc.late = true := by
        rw [hpc.moves, Function.update_self] at hcrash
        exact Pc.late_of_next hpc.next hj hrel hcrash
      rw [hpc.moves, Function.update_self]
      exact .inr ⟨hlate, Pc.rank_next hpc.next hne⟩
  · rw [pc_of_ne (e.step hact) hne]
    exact .inr ⟨hj, Nat.le_refl _⟩

/-- A thread that is idle takes the first task, and any other one gets on
to where it is idle. -/
theorem taken_step {a : Act} (ha : e.act i = some a) (hmem : connectUpCall ∈ (e.st i).tasks) :
    (∃ t, ((e.st (i + 1)).pc t).late = true)
    ∨ connectUpCall ∈ (e.st (i + 1)).tasks
      ∧ 12 * (e.st (i + 1)).tasks.idxOf connectUpCall + ((e.st (i + 1)).pc 0).rank
        + (if a = .tick 0 then 1 else 0)
        ≤ 12 * (e.st i).tasks.idxOf connectUpCall + ((e.st i).pc 0).rank := by
  have happend : ∀ {l}, (e.st (i + 1)).tasks = (e.st i).tasks ++ l →
      connectUpCall ∈ (e.st (i + 1)).tasks
      ∧ (e.st (i + 1)).tasks.idxOf connectUpCall = (e.st i).tasks.idxOf connectUpCall := by
    intro l hl
    rw [hl]
    exact ⟨List.mem_append_left l hmem, List.idxOf_append_of_mem hmem⟩
  rcases step_spec (e.step ha) with ⟨t, pc, hact, ht⟩ | ⟨hact, hapart⟩
  · by_cases hidle : (e.st i).pc t = .idle
    · obtain ⟨cb, htasks, hcb⟩ := ht.takes hidle
      by_cases heq : cb = connectUpCall
      · refine .inl ⟨t, ?_⟩
        rw [ht.moves, Function.update_self, hcb heq]
        rfl
      · rw [htasks] at hmem ⊢
        refine .inr ⟨(List.mem_cons.mp hmem).resolve_left (Ne.symm heq), ?_⟩
        rw [List.idxOf_cons_ne _ heq]
        have hrank := Pc.rank_le ((e.st (i + 1)).pc 0)
        split <;> omega
    · obtain ⟨l, hl⟩ := ht.goes hidle
      obtain ⟨hmem', hidx⟩ := happend hl
      refine .inr ⟨hmem', ?_⟩
      rw [hidx, hact, ht.moves]
      by_cases hzero : t = 0
      · subst hzero
        have hrank := Pc.rank_next ht.next hidle
        rw [Function.update_self, if_pos rfl]
        omega
      · rw [Function.update_of_ne (Ne.symm hzero), if_neg (by rintro ⟨⟩; exact hzero rfl)]
        omega
  · obtain ⟨l, hl⟩ := hapart.tasks
    obtain ⟨hmem', hidx⟩ := happend hl
    refine .inr ⟨hmem', ?_⟩
    rw [hidx, hapart.still, if_neg (hact 0)]
    omega

/-- The call of `doConnect` that is in the queue gets to its front. -/
theorem taken (hn : Normal o) (hf : FairRun e) (hi : connectUpCall ∈ (e.st i).tasks) :
    ∃ j, i ≤ j ∧ ∃ t, ((e.st j).pc t).late = true := by
  refine (hf.tick 0).leadsTo (p := fun s => connectUpCall ∈ s.tasks)
    (q := fun s => ∃ t, (s.pc t).late = true)
    (fun s => 12 * s.tasks.idxOf connectUpCall + (s.pc 0).rank)
    (fun j hj => ?_) (fun j hj hact => ?_) (fun j b hj hact hne => ?_) hi
  · exact (execution_inv hn e j).enabled (fun _ => List.ne_nil_of_mem hj) (not_crashed hn e j 0)
  · refine (taken_step hact hj).imp_right fun h => ⟨h.1, ?_⟩
    have hle := h.2
    rw [if_pos rfl] at hle
    exact hle
  · refine (taken_step hact hj).imp_right fun h => ⟨h.1, ?_⟩
    have hle := h.2
    rw [if_neg hne] at hle
    exact hle

/-- The poll thread gets on to the next event. -/
theorem poll_settles (hf : FairRun e) (i : ℕ) : ∃ j, i ≤ j ∧ (e.st j).scheduleNow = none := by
  by_cases hnone : (e.st i).scheduleNow = none
  · exact ⟨i, Nat.le_refl i, hnone⟩
  · refine hf.schedule.leadsTo (p := fun s => s.scheduleNow ≠ none)
      (q := fun s => s.scheduleNow = none) (fun _ => 0)
      (fun j hj => ?_) (fun j hj hact => ?_) (fun j b hj hact hne => ?_) hnone
    · obtain ⟨σ, hσ⟩ := Option.ne_none_iff_exists'.mp hj
      show step o (e.st j) .schedule ≠ none
      rw [step, hσ]
      exact Option.some_ne_none _
    · have hs : step o (e.st j) .schedule = some (e.st (j + 1)) := e.step hact
      rw [step] at hs
      obtain ⟨σ, -, hs'⟩ := Option.map_eq_some_iff.mp hs
      rw [← hs']
      exact .inl rfl
    · refine .inr ⟨?_, Nat.le_refl 0⟩
      rcases step_spec (e.step hact) with ⟨t, pc, -, ht⟩ | ⟨-, hapart⟩
      · rw [ht.poll.1]
        exact hj
      · exact hapart.poll hne hj

/-! ## The call is made -/

theorem early_of_le (hij : i ≤ j) (h : ((e.st j).pc t).early = true) :
    ((e.st i).pc t).early = true := by
  induction j, hij using Nat.le_induction with
  | base => exact h
  | succ j _ ih =>
      cases ha : e.act j with
      | none => exact ih (e.still ha ▸ h)
      | some a => exact ih (early_of_step (e.step ha) h)

/-- `startConnect` returns. -/
theorem returns (hn : Normal o) (hf : FairRun e) :
    ∃ i, ∀ j, i ≤ j → ∀ t, ((e.st j).pc t).early = false := by
  obtain ⟨t, ht⟩ := e.init.pc
  obtain ⟨i, -, hi⟩ := settles hn hf t 0
  refine ⟨i, fun j hij u => Bool.eq_false_iff.mpr fun hu => ?_⟩
  have hstart := early_of_le (Nat.zero_le j) hu
  by_cases hut : u = t
  · subst hut
    have hearly := early_of_le hij hu
    rw [hi] at hearly
    cases hearly
  · rw [ht, Function.update_of_ne hut] at hstart
    cases hstart

/-- What is left of the call when `startConnect` has returned. -/
theorem Inv.handed {s : State} (h : Inv o s) (hno : ∀ t, (s.pc t).early = false) :
    (∃ t, (s.pc t).late = true) ∨ token s = 1 ∨ s.releases = 1 := by
  obtain ⟨m₁, hm₁, hsum₁⟩ := h.starts
  obtain ⟨m₃, hm₃, hsum₃⟩ := h.holds
  have hzero : m₁ = 0 := hm₁.eq_zero fun t => Bool.eq_false_iff.mpr fun ht => by
    have := Pc.early_of_starts ht
    rw [hno t] at this
    cases this
  by_cases hpos : 0 < m₃
  · obtain ⟨t, ht⟩ := hm₃.exists_of_pos hpos
    refine .inl ⟨t, (Pc.early_or_late ht).resolve_left fun he => ?_⟩
    rw [hno t] at he
    cases he
  · exact .inr (by omega)

/-- The write event is delivered, or there is no descriptor. -/
theorem disarmed (hn : Normal o) (e : Execution (machine o))
    (hevent : o.pending = true → ∃ i, .write ∈ (e.st i).events) :
    ∃ i, ∀ j, i ≤ j → armed (e.st j) = 0 := by
  by_cases hp : o.pending = true
  · obtain ⟨i, hi⟩ := hevent hp
    refine ⟨i, fun j hij => (execution_inv hn e j).desc.events ?_⟩
    refine e.preserved (I := fun s => .write ∈ s.events) (fun s a s' h hs => ?_) hi j hij
    rcases step_spec hs with ⟨t, pc, -, ht⟩ | ⟨-, hapart⟩
    · rw [ht.poll.2]
      exact h
    · exact hapart.events _ h
  · refine ⟨0, fun j _ => ?_⟩
    have hnone : (e.st j).ioDesc = none := by
      by_contra hsome
      exact hp ((execution_inv hn e j).desc.pending hsome)
    rw [armed, hnone]

theorem eventually_released (hn : Normal o) (hf : FairRun e)
    (hevent : o.pending = true → ∃ i, .write ∈ (e.st i).events) :
    ∃ i, 1 ≤ (e.st i).releases := by
  obtain ⟨i, hi⟩ := returns hn hf
  obtain ⟨j, hj⟩ := disarmed hn e hevent
  obtain ⟨k, hk, hpoll⟩ := poll_settles hf (max i j)
  have hinv := execution_inv hn e k
  have hlate : ∀ {l t}, ((e.st l).pc t).late = true → ∃ i, 1 ≤ (e.st i).releases := by
    intro l t ht
    obtain ⟨m, -, hm⟩ := released hn hf ht
    exact ⟨m, hm⟩
  rcases hinv.handed (hi k (Nat.le_trans (Nat.le_max_left i j) hk)) with ⟨t, ht⟩ | htoken | hrel
  · exact hlate ht
  · have hmem : connectUpCall ∈ (e.st k).tasks := by
      have harmed := hj k (Nat.le_trans (Nat.le_max_right i j) hk)
      rw [token, harmed, scheduled, hpoll] at htoken
      refine List.count_pos_iff.mp ?_
      simp at htoken
      omega
    obtain ⟨l, -, t, ht⟩ := taken hn hf hmem
    exact hlate ht
  · exact ⟨k, Nat.le_of_eq hrel.symm⟩

theorem issued_of_normal (hn : Normal o) (hf : FairRun e)
    (hevent : o.pending = true → ∃ i, .write ∈ (e.st i).events) : Issued e := by
  obtain ⟨i, hi⟩ := eventually_released hn hf hevent
  have hinv := execution_inv hn e
  have hdones : ∀ j, (e.st j).connDones ≤ 1 := fun j => by
    obtain ⟨m, -, hsum⟩ := (hinv j).owes
    omega
  have hrefs : ∀ j, (e.st j).releases ≤ (e.st j).acquires ∧ (e.st j).acquires ≤ 1 := fun j => by
    obtain ⟨m₁, -, hsum₁⟩ := (hinv j).starts
    obtain ⟨m₃, -, hsum₃⟩ := (hinv j).holds
    omega
  have hone : (e.st i).connDones = 1 := by
    obtain ⟨m₁, hm₁, hsum₁⟩ := (hinv i).starts
    obtain ⟨m₂, hm₂, hsum₂⟩ := (hinv i).owes
    obtain ⟨m₃, hm₃, hsum₃⟩ := (hinv i).holds
    by_contra hne
    obtain ⟨t, ht⟩ := hm₂.exists_of_pos (by omega)
    rcases Pc.starts_or_holds ht with hs | hh
    · have := hm₁.pos hs
      omega
    · have := hm₃.pos hh
      omega
  refine ⟨⟨⟨i, hone⟩, hdones⟩, ⟨⟨i, ?_⟩, hrefs⟩, fun j t hpc => ?_⟩
  · have := hrefs i
    omega
  · have hplace := (hinv j).place t
    rw [hpc] at hplace
    exact hplace

end

/-! ## Where it is not made -/

theorem goto_all {q : Pc → Prop} {s : State} {t : Tid} {pc : Pc} (h : ∀ u, q (s.pc u))
    (hpc : q pc) (u : Tid) : q ((s.goto t pc).pc u) := by
  show q (Function.update s.pc t pc u)
  rw [Function.update_apply]
  split
  · exact hpc
  · exact h u

/-- The places on the way to `setUpCalls` without a descriptor, the later
ones with a socket. -/
def Undescribed (o : Outcome) : Pc → Prop
  | .idle | .socket | .crashed => True
  | .connect | .acquire | .doConnect | .setUpCalls => ∃ fd, o.socket = .ok fd
  | _ => False

/-- There is no socket, or the connection is made at once: there is never
a descriptor. -/
structure Bare (o : Outcome) (s : State) : Prop where
  quiet : s.ioDesc = none ∧ s.scheduleNow = none ∧ s.tasks = []
  connDones : s.connDones = 0
  inError : (∃ fd, o.socket = .ok fd) → s.inError = false
  place : ∀ t, Undescribed o (s.pc t)

/-- The places up to the request of `startConnect`. -/
def Requesting : Pc → Prop
  | .idle | .socket | .connect | .acquire | .newDescriptor | .writeWhenReady => True
  | _ => False

/-- The connection is not made at once, and no write event has come. -/
structure Waiting (s : State) : Prop where
  tasks : s.tasks = []
  poll : s.scheduleNow ≠ some .write
  connDones : s.connDones = 0
  desc : ∀ d, s.ioDesc = some d → d.can .write = false ∧ d.cb .read = none
  place : ∀ t, Requesting (s.pc t)

section

variable {o : Outcome} {s s' : State} {t : Tid} {a : Act}

theorem Bare.tick (hn : ¬Normal o) (h : Bare o s) (hs : tick o s t = some s') : Bare o s' := by
  obtain ⟨hdesc, hnow, htasks⟩ := h.quiet
  have hplace := h.place t
  have hmade : (∃ fd, o.socket = .ok fd) → o.connect = .ok () ∧ o.soError = 0 := by
    intro hsock
    by_contra hnot
    exact hn ⟨hsock, fun hok hso => hnot ⟨hok, hso⟩⟩
  cases hpc : s.pc t <;> rw [hpc] at hplace <;> rw [ConnectionConnect.tick, hpc] at hs
  case idle =>
    rw [htasks] at hs
    cases hs
  case socket =>
    cases hsock : o.socket with
    | ok fd =>
        rw [hsock] at hs
        obtain rfl := Option.some.inj hs
        exact ⟨h.quiet, h.connDones, h.inError, goto_all h.place ⟨fd, hsock⟩⟩
    | error errno =>
        rw [hsock] at hs
        obtain rfl := Option.some.inj hs
        refine ⟨h.quiet, h.connDones, ?_, goto_all h.place trivial⟩
        rintro ⟨fd, hfd⟩
        rw [hsock] at hfd
        cases hfd
  case connect =>
    obtain rfl := Option.some.inj hs
    exact ⟨h.quiet, h.connDones, h.inError, goto_all h.place hplace⟩
  case acquire =>
    rw [(hmade hplace).1] at hs
    obtain rfl := Option.some.inj hs
    exact ⟨h.quiet, h.connDones, h.inError, goto_all h.place hplace⟩
  case doConnect =>
    simp only [h.inError hplace, (hmade hplace).2] at hs
    obtain rfl := Option.some.inj hs
    exact ⟨h.quiet, h.connDones, fun _ => rfl, goto_all h.place hplace⟩
  case setUpCalls =>
    rw [hdesc] at hs
    obtain rfl := Option.some.inj hs
    exact ⟨h.quiet, h.connDones, h.inError, goto_all h.place trivial⟩
  case crashed => cases hs
  all_goals exact hplace.elim

theorem Bare.step (hn : ¬Normal o) (h : Bare o s) (hs : step o s a = some s') : Bare o s' := by
  obtain ⟨hdesc, hnow, htasks⟩ := h.quiet
  cases a with
  | tick t => exact h.tick hn hs
  | event σ | request σ =>
      rw [ConnectionConnect.step, hdesc] at hs
      cases hs
  | schedule =>
      rw [ConnectionConnect.step, hnow] at hs
      cases hs
  | acquire | release =>
      rw [ConnectionConnect.step] at hs
      split at hs
      · obtain rfl := Option.some.inj hs
        exact ⟨h.quiet, h.connDones, h.inError, h.place⟩
      · cases hs

theorem Init.bare (h : Init s) : Bare o s := by
  obtain ⟨-, herr, hdesc, hnow, htasks, -⟩ := h.state
  obtain ⟨t, ht⟩ := h.pc
  refine ⟨⟨hdesc, hnow, htasks⟩, h.calls.1, fun _ => herr, fun u => ?_⟩
  rw [ht, Function.update_apply]
  split <;> trivial

theorem Waiting.tick (hp : o.pending = true) (h : Waiting s) (hs : tick o s t = some s') :
    Waiting s' := by
  have hplace := h.place t
  cases hpc : s.pc t <;> rw [hpc] at hplace <;> rw [ConnectionConnect.tick, hpc] at hs
  case idle =>
    rw [h.tasks] at hs
    cases hs
  case socket =>
    cases hsock : o.socket <;> rw [hsock] at hs <;> obtain rfl := Option.some.inj hs <;>
      exact ⟨h.tasks, h.poll, h.connDones, h.desc, goto_all h.place trivial⟩
  case connect =>
    obtain rfl := Option.some.inj hs
    exact ⟨h.tasks, h.poll, h.connDones, h.desc, goto_all h.place trivial⟩
  case acquire =>
    cases hc : o.connect with
    | ok =>
        rw [Outcome.pending, hc] at hp
        cases hp
    | error errno =>
        have hnot : ¬(errno ≠ einprogress ∧ errno ≠ eintr) := by
          rw [Outcome.pending, hc] at hp
          rintro ⟨h₁, h₂⟩
          simp [h₁, h₂] at hp
        simp only [hc, if_neg hnot] at hs
        obtain rfl := Option.some.inj hs
        exact ⟨h.tasks, h.poll, h.connDones, h.desc, goto_all h.place trivial⟩
  case newDescriptor =>
    obtain rfl := Option.some.inj hs
    refine ⟨h.tasks, h.poll, h.connDones, ?_, goto_all h.place trivial⟩
    rintro d ⟨⟩
    exact ⟨rfl, rfl⟩
  case writeWhenReady =>
    obtain ⟨d, hd, rfl⟩ := Option.map_eq_some_iff.mp hs
    obtain ⟨hcan, hread⟩ := h.desc d hd
    have hready : d.writeWhenReady
        = ({ d with waiting := Function.update d.waiting .write true }, false) :=
      if_neg (by rw [hcan]; exact Bool.false_ne_true)
    rw [hready]
    refine ⟨h.tasks, h.poll, h.connDones, ?_, goto_all h.place trivial⟩
    rintro d' ⟨⟩
    exact ⟨hcan, hread⟩
  all_goals exact hplace.elim

theorem Waiting.step (hp : o.pending = true) (h : Waiting s) (hne : a ≠ .event .write)
    (hs : step o s a = some s') : Waiting s' := by
  cases a with
  | tick t => exact h.tick hp hs
  | event σ =>
      cases σ with
      | write => exact absurd rfl hne
      | read =>
          simp only [ConnectionConnect.step] at hs
          split at hs
          next d hd hnow =>
            split at hs
            · cases hs
            · obtain rfl := Option.some.inj hs
              refine ⟨h.tasks, ?_, h.connDones, ?_, h.place⟩
              · show (if _ then some Side.read else none) ≠ some Side.write
                split <;> decide
              · rintro d' ⟨⟩
                rw [Flags.call_cb, (Flags.call_of_ne (show Side.write ≠ Side.read by decide)).1]
                exact h.desc d hd
          next => cases hs
  | schedule =>
      rw [ConnectionConnect.step] at hs
      obtain ⟨σ, hσ, rfl⟩ := Option.map_eq_some_iff.mp hs
      have hnone : s.upCall .read = none := by
        rw [State.upCall]
        cases hd : s.ioDesc with
        | none => rfl
        | some d => exact (h.desc d hd).2
      cases σ with
      | write => exact absurd hσ h.poll
      | read =>
          refine ⟨?_, (Option.some_ne_none _).symm, h.connDones, h.desc, h.place⟩
          show s.tasks ++ (s.upCall .read).toList = []
          rw [h.tasks, hnone]
          rfl
  | request σ =>
      have huse : s.inUse = false := by
        rw [State.inUse, h.connDones]
        rfl
      simp only [ConnectionConnect.step, huse] at hs
      split at hs <;> cases hs
  | acquire | release =>
      rw [ConnectionConnect.step] at hs
      split at hs
      · obtain rfl := Option.some.inj hs
        exact ⟨h.tasks, h.poll, h.connDones, h.desc, h.place⟩
      · cases hs

theorem Init.waiting (h : Init s) : Waiting s := by
  obtain ⟨-, -, hdesc, hnow, htasks, -⟩ := h.state
  obtain ⟨t, ht⟩ := h.pc
  refine ⟨htasks, by rw [hnow]; nofun, h.calls.1, by rw [hdesc]; nofun, fun u => ?_⟩
  rw [ht, Function.update_apply]
  split <;> trivial

end

section

variable {o : Outcome} {e : Execution (machine o)}

theorem not_issued_of_bare (hn : ¬Normal o) (e : Execution (machine o)) : ¬Issued e := by
  intro h
  obtain ⟨i, hi⟩ := h.connDone.1
  have hbare : Bare o (e.st i) :=
    e.invariant (fun _ h => Init.bare h) (fun _ _ _ h hs => h.step hn hs) i
  rw [hbare.connDones] at hi
  cases hi

theorem not_issued_of_waiting (hp : o.pending = true) (hno : ∀ i, .write ∉ (e.st i).events) :
    ¬Issued e := by
  have hwaiting : ∀ i, Waiting (e.st i) := by
    intro i
    induction i with
    | zero => exact Init.waiting e.init
    | succ i ih =>
        refine e.keeps (fun a ha hs => ih.step hp (fun hact => hno (i + 1) ?_) hs) ih
        subst hact
        simp only [machine, step] at hs
        split at hs
        · split at hs
          · cases hs
          · rw [← Option.some.inj hs]
            exact List.mem_cons_self ..
        · cases hs
  intro h
  obtain ⟨i, hi⟩ := h.connDone.1
  rw [(hwaiting i).connDones] at hi
  cases hi

/-- The call of `connDone()` is made just when there is a socket, the
connection is not made at once, and the poller delivers the event of a
connection that is in progress. -/
theorem issued_iff (e : Execution (machine o)) (hf : FairRun e) :
    Issued e ↔ Normal o ∧ (o.pending = true → ∃ i, .write ∈ (e.st i).events) := by
  constructor
  · intro h
    have hn : Normal o := by
      by_contra hn
      exact not_issued_of_bare hn e h
    refine ⟨hn, fun hp => ?_⟩
    by_contra hno
    exact not_issued_of_waiting hp (not_exists.mp hno) h
  · rintro ⟨hn, hevent⟩
    exact issued_of_normal hn hf hevent

end

/-! ## Two executions -/

/-- Thread 0 is in `startConnect`; nobody else has a reference. -/
def started : State where
  clientFd := -1
  closed := true
  inError := false
  errorString := ""
  refs := 0
  ioDesc := none
  scheduleNow := none
  tasks := []
  pc := Function.update (fun _ => .idle) 0 .socket
  events := []
  connDones := 0
  acquires := 0
  releases := 0
  external := 0
  deleted := false

theorem init_started : Init started :=
  ⟨⟨0, rfl⟩, ⟨rfl, rfl, rfl, rfl, rfl, rfl⟩, ⟨rfl, rfl, rfl⟩, rfl, rfl⟩

/-- The states on the way of thread 0 where nothing is in progress. -/
structure Solo (s : State) : Prop where
  others : ∀ t, t ≠ 0 → s.pc t = .idle
  quiet : s.ioDesc = none ∧ s.scheduleNow = none ∧ s.tasks = []
  place : s.pc 0 ∉ [Pc.newDescriptor, .writeWhenReady, .addTask]

section

variable {o : Outcome} {s s' : State}

theorem Solo.goto {s₁ : State} {pc : Pc} (h : Solo s) (hpc : s₁.pc = s.pc)
    (hquiet : s₁.ioDesc = s.ioDesc ∧ s₁.scheduleNow = s.scheduleNow ∧ s₁.tasks = s.tasks)
    (hplace : pc ∉ [Pc.newDescriptor, .writeWhenReady, .addTask]) : Solo (s₁.goto 0 pc) := by
  refine ⟨fun t ht => ?_, ?_, ?_⟩
  · rw [← h.others t ht, ← hpc]
    exact Function.update_of_ne ht ..
  · obtain ⟨hdesc, hnow, htasks⟩ := hquiet
    show s₁.ioDesc = none ∧ s₁.scheduleNow = none ∧ s₁.tasks = []
    rw [hdesc, hnow, htasks]
    exact h.quiet
  · rw [State.goto_pc]
    exact hplace

theorem Solo.tick (hp : o.pending = false) (h : Solo s) (hs : tick o s 0 = some s') :
    Solo s' := by
  have hplace := h.place
  cases hpc : s.pc 0 <;> rw [hpc] at hplace <;> rw [ConnectionConnect.tick, hpc] at hs
  case idle =>
    rw [h.quiet.2.2] at hs
    cases hs
  case socket =>
    cases hsock : o.socket <;> rw [hsock] at hs <;> obtain rfl := Option.some.inj hs <;>
      exact h.goto rfl ⟨rfl, rfl, rfl⟩ (by decide)
  case acquire =>
    cases hc : o.connect with
    | ok =>
        rw [hc] at hs
        obtain rfl := Option.some.inj hs
        exact h.goto rfl ⟨rfl, rfl, rfl⟩ (by decide)
    | error errno =>
        have hfail : errno ≠ einprogress ∧ errno ≠ eintr := by
          rw [Outcome.pending, hc] at hp
          simpa using hp
        simp only [hc, if_pos hfail] at hs
        obtain rfl := Option.some.inj hs
        exact h.goto rfl ⟨rfl, rfl, rfl⟩ (by decide)
  case doConnect =>
    dsimp only at hs
    split at hs
    · obtain rfl := Option.some.inj hs
      exact h.goto rfl ⟨rfl, rfl, rfl⟩ (by decide)
    · split at hs <;> obtain rfl := Option.some.inj hs <;>
        exact h.goto rfl ⟨rfl, rfl, rfl⟩ (by decide)
  case setUpCalls =>
    rw [h.quiet.1] at hs
    obtain rfl := Option.some.inj hs
    exact h.goto rfl ⟨rfl, rfl, rfl⟩ (by decide)
  case release =>
    obtain rfl := Option.some.inj hs
    refine h.goto rfl ⟨rfl, rfl, rfl⟩ ?_
    split <;> decide
  case connect | connDone | delete =>
    obtain rfl := Option.some.inj hs
    exact h.goto rfl ⟨rfl, rfl, rfl⟩ (by decide)
  case crashed => cases hs
  all_goals exact absurd (by decide) hplace

/-- Thread 0 goes on until it is done, and nothing else happens. -/
def alone (o : Outcome) : Execution (machine o) := .follow (fun _ => .tick 0) started init_started

theorem alone_solo (hp : o.pending = false) : ∀ i, Solo ((alone o).st i) := by
  refine Execution.follow_invariant ⟨fun t ht => ?_, ⟨rfl, rfl, rfl⟩, by decide⟩
    fun s s' h hs => h.tick hp hs
  simp [started, ht]

/-- Where nothing is in progress, a fair scheduler has no more to do. -/
theorem alone_fair (hp : o.pending = false) : FairRun (alone o) := by
  refine ⟨fun t i => ⟨i, Nat.le_refl i, ?_⟩, fun i => ⟨i, Nat.le_refl i, .inr ?_⟩⟩
  · by_cases ht : t = 0
    · subst ht
      exact Execution.follow_takes i
    · refine .inr ?_
      show tick o ((alone o).st i) t = none
      rw [tick, (alone_solo hp i).others t ht, (alone_solo hp i).quiet.2.2]
  · show step o ((alone o).st i) .schedule = none
    rw [step, (alone_solo hp i).quiet.2.1]
    rfl

end

/-- `connect()` fails with `ECONNREFUSED`. -/
def refused : Outcome := ⟨.ok 3, .error 111, 111, fun _ => "Connection refused"⟩

/-- `connDone()` is called, and `release()` deletes the connection. -/
theorem refused_issued :
    FairRun (alone refused) ∧ Issued (alone refused) ∧ ((alone refused).st 7).deleted = true :=
  ⟨alone_fair rfl, (issued_iff _ (alone_fair rfl)).mpr ⟨⟨⟨3, rfl⟩, nofun⟩, nofun⟩, by decide⟩

/-- `connect()` succeeds at once. -/
def immediate : Outcome := ⟨.ok 3, .ok (), 0, fun _ => ""⟩

/-- `doConnect` has no descriptor for `setUpCalls`. -/
theorem immediate_not_issued : ¬∀ (o : Outcome) (e : Execution (machine o)), FairRun e →
    (o.pending = true → ∃ i, .write ∈ (e.st i).events) → Issued e := by
  intro h
  have hn : ¬Normal immediate := fun hn => hn.connect rfl rfl
  exact not_issued_of_bare hn _ (h immediate (alone immediate) (alone_fair rfl) nofun)

end ConnectionConnect

end HttpServer
