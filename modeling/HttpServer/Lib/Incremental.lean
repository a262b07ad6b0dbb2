import Mathlib.Data.List.Basic

/-!
# Incremental recognisers

A recogniser reads a prefix of its input. It answers definitively - it
is done, with a value and the input left over, or it has failed - or it
says that it ran out of input and in which way (`more`).

`Stable` says that a definitive answer does not change when more input
arrives. It holds of the sequence of two stable recognisers, so it is
proved once for each primitive; a recogniser that repeats another one
gets it by induction on the input.
-/

namespace Incremental

/-- What a recogniser answers: `μ` are the ways to run out of input, `ε`
the ways to fail. -/
inductive Res (β μ ε α : Type) where
  | done (a : α) (rest : List β)
  | more (m : μ)
  | fail (e : ε)

variable {β μ ε α α' : Type}

/-- Continue on the input left over. -/
def Res.bind (r : Res β μ ε α) (f : α → List β → Res β μ ε α') : Res β μ ε α' :=
  match r with
  | .done a rest => f a rest
  | .more m => .more m
  | .fail e => .fail e

@[simp] theorem Res.bind_done (a : α) (rest : List β) (f : α → List β → Res β μ ε α') :
    (Res.done a rest).bind f = f a rest := rfl

@[simp] theorem Res.bind_more (m : μ) (f : α → List β → Res β μ ε α') :
    (Res.more m).bind f = .more m := rfl

@[simp] theorem Res.bind_fail (e : ε) (f : α → List β → Res β μ ε α') :
    (Res.fail e).bind f = .fail e := rfl

theorem Res.bind_eq_more {r : Res β μ ε α} {f : α → List β → Res β μ ε α'} {m : μ} :
    r.bind f = .more m ↔ r = .more m ∨ ∃ a rest, r = .done a rest ∧ f a rest = .more m := by
  cases r <;> simp

/-- A definitive answer on `s` is the answer on every extension of `s`. -/
structure Settled (p : List β → Res β μ ε α) (s : List β) : Prop where
  done : ∀ {a rest}, p s = .done a rest → ∀ t, p (s ++ t) = .done a (rest ++ t)
  fail : ∀ {e}, p s = .fail e → ∀ t, p (s ++ t) = .fail e

def Stable (p : List β → Res β μ ε α) : Prop := ∀ s, Settled p s

section

variable {p : List β → Res β μ ε α} {s : List β}

theorem Settled.ofDone {a : α} {rest : List β} (h : p s = .done a rest)
    (happ : ∀ t, p (s ++ t) = .done a (rest ++ t)) : Settled p s := by
  constructor
  · intro a' rest' h' t
    rw [h, Res.done.injEq] at h'
    rw [happ t, h'.1, h'.2]
  · intro e h'
    rw [h] at h'
    cases h'

theorem Settled.ofFail {e : ε} (h : p s = .fail e) (happ : ∀ t, p (s ++ t) = .fail e) :
    Settled p s := by
  constructor
  · intro a' rest' h'
    rw [h] at h'
    cases h'
  · intro e' h' t
    rw [h] at h'
    rw [happ t, h']

theorem Settled.ofMore {m : μ} (h : p s = .more m) : Settled p s := by
  constructor
  · intro a' rest' h'
    rw [h] at h'
    cases h'
  · intro e h'
    rw [h] at h'
    cases h'

end

theorem stable_done (a : α) : Stable fun s : List β => (Res.done a s : Res β μ ε α) :=
  fun _ => .ofDone rfl fun _ => rfl

/-- The sequence rule, at one input: the second recogniser has to be
settled on what the first one leaves. -/
theorem Settled.bind {p : List β → Res β μ ε α} {f : α → List β → Res β μ ε α'} {s : List β}
    (hp : Settled p s) (hf : ∀ a rest, p s = .done a rest → Settled (f a) rest) :
    Settled (fun s => (p s).bind f) s := by
  cases hps : p s with
  | done a rest =>
      have hext := hp.done hps
      constructor
      · intro a' rest' h t
        simp only [hps, hext, Res.bind_done] at h ⊢
        exact (hf a rest hps).done h t
      · intro e h t
        simp only [hps, hext, Res.bind_done] at h ⊢
        exact (hf a rest hps).fail h t
  | more m =>
      refine .ofMore (m := m) ?_
      simp only [hps, Res.bind_more]
  | fail e =>
      have hext := hp.fail hps
      refine .ofFail (e := e) ?_ fun t => ?_
      · simp only [hps, Res.bind_fail]
      · simp only [hext t, Res.bind_fail]

theorem Stable.bind {p : List β → Res β μ ε α} {f : α → List β → Res β μ ε α'}
    (hp : Stable p) (hf : ∀ a, Stable (f a)) : Stable fun s => (p s).bind f :=
  fun s => (hp s).bind fun a rest _ => hf a rest

end Incremental
