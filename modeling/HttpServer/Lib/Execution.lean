import HttpServer.Lib.Lts
import Mathlib.Data.Nat.Init
import Mathlib.Tactic.ByContra

/-!
# Executions and fairness

An execution of a system is a sequence of states. Each step takes an
action, or none and changes nothing: so a run that comes to its end is an
execution too, as is one whose actions go on forever. That something comes
about in it takes a scheduler that is fair to some action, and a rank that
this action makes smaller and no other one larger (`Fair.leadsTo`).

A scheduler makes an execution (`Execution.follow`), which stays where it
is when the scheduler's action cannot be taken.
-/

namespace Lts

variable {σ α : Type*} {M : Lts σ α}

/-- An action is taken, or nothing changes. -/
def Goes (M : Lts σ α) (s : σ) : Option α → σ → Prop
  | some a, s' => M.step s a = some s'
  | none, s' => s' = s

structure Execution (M : Lts σ α) where
  st : ℕ → σ
  act : ℕ → Option α
  init : M.init (st 0)
  goes : ∀ i, M.Goes (st i) (act i) (st (i + 1))

namespace Execution

variable {e : Execution M} {a : α}

theorem step {i : ℕ} (ha : e.act i = some a) : M.step (e.st i) a = some (e.st (i + 1)) := by
  have hgoes := e.goes i
  rw [ha] at hgoes
  exact hgoes

theorem still {i : ℕ} (ha : e.act i = none) : e.st (i + 1) = e.st i := by
  have hgoes := e.goes i
  rw [ha] at hgoes
  exact hgoes

/-- What a step that takes an action keeps, each step keeps. -/
theorem keeps (e : Execution M) {I : σ → Prop} {i : ℕ}
    (hstep : ∀ a, e.act i = some a → M.step (e.st i) a = some (e.st (i + 1)) → I (e.st (i + 1)))
    (hi : I (e.st i)) : I (e.st (i + 1)) := by
  cases ha : e.act i with
  | none => exact e.still ha ▸ hi
  | some a => exact hstep a ha (e.step ha)

/-- What every step preserves holds from then on. -/
theorem preserved (e : Execution M) {I : σ → Prop}
    (hstep : ∀ s a s', I s → M.step s a = some s' → I s') {i : ℕ} (hi : I (e.st i)) :
    ∀ j, i ≤ j → I (e.st j) := by
  intro j hij
  induction j, hij using Nat.le_induction with
  | base => exact hi
  | succ j _ ih => exact e.keeps (fun a _ hs => hstep _ a _ ih hs) ih

theorem invariant (e : Execution M) {I : σ → Prop} (hinit : ∀ s, M.init s → I s)
    (hstep : ∀ s a s', I s → M.step s a = some s' → I s') (i : ℕ) : I (e.st i) :=
  e.preserved hstep (hinit _ e.init) i (Nat.zero_le i)

/-- Again and again `a` is taken, or cannot be taken. -/
def Fair (e : Execution M) (a : α) : Prop :=
  ∀ i, ∃ j, i ≤ j ∧ (e.act j = some a ∨ M.step (e.st j) a = none)

/-- As long as `q` holds `a` can be taken, and no other action ends it: so
`a` is taken while it holds. -/
theorem Fair.takes (hf : e.Fair a) {q : σ → Prop} {i : ℕ} (hi : q (e.st i))
    (henabled : ∀ j, i ≤ j → q (e.st j) → M.step (e.st j) a ≠ none)
    (hstays : ∀ j b, i ≤ j → q (e.st j) → e.act j = some b → b ≠ a → q (e.st (j + 1))) :
    ∃ j, i ≤ j ∧ q (e.st j) ∧ e.act j = some a := by
  by_contra hnone
  have hall : ∀ j, i ≤ j → q (e.st j) := by
    intro j hij
    induction j, hij using Nat.le_induction with
    | base => exact hi
    | succ j hij ih =>
        refine e.keeps (fun b hb _ => hstays j b hij ih hb ?_) ih
        rintro rfl
        exact hnone ⟨j, hij, ih, hb⟩
  obtain ⟨j, hij, hact | hblocked⟩ := hf i
  · exact hnone ⟨j, hij, hall j hij, hact⟩
  · exact henabled j hij (hall j hij) hblocked

/-- The progress rule: as long as `p` holds the action `a` can be taken, it
decreases the rank, and no other action increases it; `q` ends this. -/
theorem Fair.leadsTo (hf : e.Fair a) {p q : σ → Prop} (rank : σ → ℕ)
    (henabled : ∀ i, p (e.st i) → M.step (e.st i) a ≠ none)
    (htaken : ∀ i, p (e.st i) → e.act i = some a →
      q (e.st (i + 1)) ∨ p (e.st (i + 1)) ∧ rank (e.st (i + 1)) < rank (e.st i))
    (hother : ∀ i b, p (e.st i) → e.act i = some b → b ≠ a →
      q (e.st (i + 1)) ∨ p (e.st (i + 1)) ∧ rank (e.st (i + 1)) ≤ rank (e.st i)) {i : ℕ}
    (hi : p (e.st i)) : ∃ j, i ≤ j ∧ q (e.st j) := by
  by_contra hnone
  have hnot : ∀ j, i ≤ j → ¬q (e.st (j + 1)) := fun j hij hq =>
    hnone ⟨j + 1, Nat.le_succ_of_le hij, hq⟩
  have hdown : ∀ n j, i ≤ j → p (e.st j) → rank (e.st j) = n → False := by
    intro n
    induction n using Nat.strong_induction_on with
    | _ n ih =>
        rintro j hij hj rfl
        obtain ⟨k, hjk, ⟨hk, hle⟩, hact⟩ := hf.takes (q := fun s => p s ∧ rank s ≤ rank (e.st j))
          ⟨hj, Nat.le_refl _⟩ (fun k _ hk => henabled k hk.1) fun k b hjk ⟨hk, hle⟩ hb hne => by
            obtain ⟨hk', hle'⟩ :=
              (hother k b hk hb hne).resolve_left (hnot k (Nat.le_trans hij hjk))
            exact ⟨hk', Nat.le_trans hle' hle⟩
        have hik := Nat.le_trans hij hjk
        obtain ⟨hk', hlt⟩ := (htaken k hk hact).resolve_left (hnot k hik)
        exact ih _ (Nat.lt_of_lt_of_le hlt hle) (k + 1) (Nat.le_succ_of_le hik) hk' rfl
  exact hdown _ i (Nat.le_refl i) hi rfl

/-! ## Schedulers -/

/-- The states on the way of a scheduler, which stops where its action
cannot be taken. -/
def path (M : Lts σ α) (sched : σ → α) (s : σ) : ℕ → σ
  | 0 => s
  | i + 1 => (M.step (path M sched s i) (sched (path M sched s i))).getD (path M sched s i)

/-- The execution of a scheduler. -/
def follow (sched : σ → α) (s : σ) (h0 : M.init s) : Execution M where
  st := path M sched s
  act i := (M.step (path M sched s i) (sched (path M sched s i))).map fun _ =>
    sched (path M sched s i)
  init := h0
  goes i := by
    cases hs : M.step (path M sched s i) (sched (path M sched s i)) with
    | none =>
        rw [Option.map_none, path, hs]
        rfl
    | some s' =>
        rw [Option.map_some, path, hs]
        exact hs

section

variable {sched : σ → α} {s : σ} {h0 : M.init s}

theorem follow_invariant {I : σ → Prop} (hs : I s)
    (hstep : ∀ s s', I s → M.step s (sched s) = some s' → I s') (i : ℕ) :
    I ((follow sched s h0).st i) := by
  induction i with
  | zero => exact hs
  | succ i ih =>
      show I (path M sched s (i + 1))
      rw [path]
      cases hi : M.step (path M sched s i) (sched (path M sched s i)) with
      | none => exact ih
      | some s' => exact hstep _ s' ih hi

/-- The scheduler's action is taken where it can be. -/
theorem follow_takes (i : ℕ) :
    (follow sched s h0).act i = some (sched ((follow sched s h0).st i))
      ∨ M.step ((follow sched s h0).st i) (sched ((follow sched s h0).st i)) = none := by
  cases hi : M.step ((follow sched s h0).st i) (sched ((follow sched s h0).st i)) with
  | none => exact .inr rfl
  | some s' => exact .inl (congrArg (Option.map fun _ => sched ((follow sched s h0).st i)) hi)

end

end Execution

end Lts
