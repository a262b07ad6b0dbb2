import Mathlib.Data.Nat.Notation

/-!
# Transition systems given by a step function

A system is a set of initial states and an executable step function on
labelled actions; an action that is not enabled has no successor. All
nondeterminism (which thread moves, what the environment answers) sits
in the label, so a run is determined by its list of labels and can be
evaluated (`exec`).

`ReachableBy ok` collects the states of the runs all of whose steps
satisfy `ok`: a property of every run is an invariant of
`ReachableBy (fun _ _ => True)`, and a property that only holds while
the environment or the scheduler keeps to a condition is an invariant
of `ReachableBy` for that condition. A property that relates several
instants of a run is stated over `Run`, the states and labels by index.
-/

structure Lts (σ α : Type*) where
  init : σ → Prop
  step : σ → α → Option σ

namespace Lts

variable {σ α : Type*} {M : Lts σ α} {ok : σ → α → Prop}

/-- The states reached by the runs of `M` all of whose steps satisfy `ok`. -/
inductive ReachableBy (M : Lts σ α) (ok : σ → α → Prop) : σ → Prop where
  | init {s : σ} (h : M.init s) : ReachableBy M ok s
  | step {s s' : σ} (a : α) (h : ReachableBy M ok s) (hok : ok s a)
      (hs : M.step s a = some s') : ReachableBy M ok s'

/-- The states reached by any run. -/
abbrev Reachable (M : Lts σ α) : σ → Prop := ReachableBy M (fun _ _ => True)

/-- The invariant rule: what holds initially and survives every allowed
step holds in every reached state. -/
theorem ReachableBy.invariant {I : σ → Prop} (hinit : ∀ s, M.init s → I s)
    (hstep : ∀ s a s', I s → ok s a → M.step s a = some s' → I s')
    {s : σ} (h : M.ReachableBy ok s) : I s := by
  induction h with
  | init h => exact hinit _ h
  | step a _ hok hs ih => exact hstep _ a _ ih hok hs

/-- With more runs there are more states. -/
theorem ReachableBy.mono {ok' : σ → α → Prop} (hok : ∀ s a, ok s a → ok' s a) {s : σ}
    (h : M.ReachableBy ok s) : M.ReachableBy ok' s := by
  induction h with
  | init h => exact .init h
  | step a _ ha hs ih => exact .step a ih (hok _ a ha) hs

/-- Run a list of actions; undefined as soon as one is not enabled or
not allowed. -/
def exec (M : Lts σ α) (ok : σ → α → Prop) [∀ s a, Decidable (ok s a)] : σ → List α → Option σ
  | s, [] => some s
  | s, a :: as => if ok s a then (M.step s a).bind fun s' => exec M ok s' as else none

theorem ReachableBy.exec [∀ s a, Decidable (ok s a)] {s s' : σ} (h : M.ReachableBy ok s) :
    ∀ {as : List α}, M.exec ok s as = some s' → M.ReachableBy ok s' := by
  intro as
  induction as generalizing s with
  | nil =>
      intro he
      obtain rfl := Option.some.inj he
      exact h
  | cons a as ih =>
      intro he
      rw [Lts.exec] at he
      by_cases hok : ok s a
      · rw [if_pos hok] at he
        obtain ⟨s₁, h₁, h₂⟩ := Option.bind_eq_some_iff.mp he
        exact ih (.step a h hok h₁) h₂
      · rw [if_neg hok] at he
        cases he

/-- A run that ends in a state with `p` reaches one. -/
theorem ReachableBy.exec_any [∀ s a, Decidable (ok s a)] {s : σ} {as : List α} {p : σ → Bool}
    (h : M.ReachableBy ok s) (he : (M.exec ok s as).any p = true) :
    ∃ s', M.ReachableBy ok s' ∧ p s' = true := by
  cases hs : M.exec ok s as with
  | none =>
      rw [hs] at he
      cases he
  | some s' =>
      rw [hs] at he
      exact ⟨s', h.exec hs, he⟩

/-! ## Runs -/

/-- A run: its states and actions in order. -/
structure Run (M : Lts σ α) (ok : σ → α → Prop) where
  len : ℕ
  st : ℕ → σ
  act : ℕ → α
  init : M.init (st 0)
  ok : ∀ i < len, ok (st i) (act i)
  step : ∀ i < len, M.step (st i) (act i) = some (st (i + 1))

/-- The invariant rule for properties of a run up to an instant. -/
theorem Run.invariant (r : Run M ok) {I : ℕ → Prop} (hinit : I 0)
    (hstep : ∀ i < r.len, I i → I (i + 1)) : ∀ i ≤ r.len, I i := by
  intro i
  induction i with
  | zero => exact fun _ => hinit
  | succ i ih => exact fun hi => hstep i hi (ih (Nat.le_of_succ_le hi))

theorem Run.reachable (r : Run M ok) : ∀ i ≤ r.len, M.ReachableBy ok (r.st i) :=
  r.invariant (.init r.init) fun i hi h => .step _ h (r.ok i hi) (r.step i hi)

/-! ## Runs from lists of actions -/

theorem exec_append [∀ s a, Decidable (ok s a)] (s : σ) (as bs : List α) :
    M.exec ok s (as ++ bs) = (M.exec ok s as).bind fun s' => M.exec ok s' bs := by
  induction as generalizing s with
  | nil => rfl
  | cons a as ih =>
      rw [List.cons_append, Lts.exec, Lts.exec]
      by_cases hok : ok s a
      · rw [if_pos hok, if_pos hok]
        cases hs : M.step s a with
        | none => rfl
        | some s₁ => exact ih s₁
      · rw [if_neg hok, if_neg hok]
        rfl

/-- A list of actions that can be run from `s`, one action at a time. -/
theorem exec_succ [∀ s a, Decidable (ok s a)] {s : σ} {as : List α}
    (h : (M.exec ok s as).isSome = true) {k : ℕ} (hk : k < as.length) :
    ∃ s₁ s₂, M.exec ok s (as.take k) = some s₁ ∧ M.exec ok s (as.take (k + 1)) = some s₂
      ∧ ok s₁ as[k] ∧ M.step s₁ as[k] = some s₂ := by
  have hsplit : as = as.take k ++ as[k] :: as.drop (k + 1) := by simp
  rw [hsplit, exec_append, Option.isSome_bind] at h
  cases h₁ : M.exec ok s (as.take k) with
  | none =>
      rw [h₁] at h
      cases h
  | some s₁ =>
      rw [h₁, Option.any_some, Lts.exec] at h
      by_cases hok : ok s₁ as[k]
      · rw [if_pos hok, Option.isSome_bind] at h
        cases h₂ : M.step s₁ as[k] with
        | none =>
            rw [h₂] at h
            cases h
        | some s₂ =>
            refine ⟨s₁, s₂, rfl, ?_, hok, h₂⟩
            rw [← List.take_append_getElem hk, exec_append, h₁, Option.bind_some, Lts.exec,
              if_pos hok, h₂]
            rfl
      · rw [if_neg hok] at h
        cases h

/-- The run that a list of actions makes. -/
def Run.ofExec [∀ s a, Decidable (ok s a)] [Inhabited α] (s : σ) (as : List α) (h0 : M.init s)
    (h : (M.exec ok s as).isSome = true) : Run M ok where
  len := as.length
  st k := (M.exec ok s (as.take k)).getD s
  act k := as.getD k default
  init := h0
  ok k hk := by
    obtain ⟨s₁, s₂, h₁, -, hok, -⟩ := exec_succ h hk
    rw [h₁, List.getD_eq_getElem?_getD, List.getElem?_eq_getElem hk]
    exact hok
  step k hk := by
    obtain ⟨s₁, s₂, h₁, h₂, -, hs⟩ := exec_succ h hk
    rw [h₁, h₂, List.getD_eq_getElem?_getD, List.getElem?_eq_getElem hk]
    exact hs

end Lts
