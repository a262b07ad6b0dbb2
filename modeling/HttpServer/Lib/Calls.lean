import Mathlib.Data.Nat.Notation
import Mathlib.Data.List.Infix

/-!
# Objects with calls

An object has a state and calls; `step` makes one call, which leaves a new
state and gives an answer, or has no result. `run` makes the calls of a
list. A specification is such an object whose calls always have a result
(`after`, `answers`).

`run_keeps_iff` is the rule for an invariant of an object some of whose
calls have no result. Two more compare an object with a specification
through a relation of their states. `run_refines`: where every call keeps
the relation, the answers are those of the specification. `run_agrees_iff`:
where the calls that keep to a condition do, and each other one can be seen
by a further call, the answers are those of the specification whatever is
called next, at every moment, exactly when the calls keep to the condition.
-/

namespace Calls

variable {σ τ ι ο : Type*}

def run (step : σ → ι → Option (σ × ο)) : σ → List ι → Option (σ × List ο)
  | s, [] => some (s, [])
  | s, c :: cs => do
      let (s, a) ← step s c
      let (s, as) ← run step s cs
      some (s, a :: as)

/-- The state of a specification after the calls. -/
def after (spec : τ → ι → τ × ο) : τ → List ι → τ
  | t, [] => t
  | t, c :: cs => after spec (spec t c).1 cs

def answers (spec : τ → ι → τ × ο) : τ → List ι → List ο
  | _, [] => []
  | t, c :: cs => (spec t c).2 :: answers spec (spec t c).1 cs

variable {step : σ → ι → Option (σ × ο)} {spec : τ → ι → τ × ο} {s s' : σ} {t : τ} {cs : List ι}

theorem after_append (ds : List ι) : after spec t (cs ++ ds) = after spec (after spec t cs) ds := by
  induction cs generalizing t with
  | nil => rfl
  | cons c cs ih => exact ih

theorem answers_append (ds : List ι) :
    answers spec t (cs ++ ds) = answers spec t cs ++ answers spec (after spec t cs) ds := by
  induction cs generalizing t with
  | nil => rfl
  | cons c cs ih => exact congrArg _ ih

theorem length_answers : (answers spec t cs).length = cs.length := by
  induction cs generalizing t with
  | nil => rfl
  | cons c cs ih => exact congrArg Nat.succ ih

theorem answers_of_unchanged (h : ∀ c ∈ cs, (spec t c).1 = t) :
    answers spec t cs = cs.map fun c => (spec t c).2 := by
  induction cs with
  | nil => rfl
  | cons c cs ih =>
      obtain ⟨hc, hcs⟩ := List.forall_mem_cons.mp h
      rw [answers, hc, ih hcs, List.map_cons]

theorem run_cons {c : ι} {a : ο} (h : step s c = some (s', a)) :
    run step s (c :: cs) = (run step s' cs).map fun r => (r.1, a :: r.2) := by
  simp only [run, h, Option.bind_eq_bind, Option.bind_some]
  cases run step s' cs <;> rfl

theorem of_run_cons {c : ι} {as : List ο} (h : run step s (c :: cs) = some (s', as)) :
    ∃ s₁ a as', step s c = some (s₁, a) ∧ run step s₁ cs = some (s', as') := by
  rw [run] at h
  obtain ⟨⟨s₁, a⟩, hc, hr⟩ := Option.bind_eq_some_iff.mp h
  obtain ⟨⟨s₂, as'⟩, hcs, heq⟩ := Option.bind_eq_some_iff.mp hr
  obtain ⟨rfl, -⟩ := Prod.mk.inj (Option.some.inj heq)
  exact ⟨s₁, a, as', hc, hcs⟩

theorem run_snoc (c : ι) : run step s (cs ++ [c]) = (run step s cs).bind fun r =>
    (step r.1 c).map fun q => (q.1, r.2 ++ [q.2]) := by
  induction cs generalizing s with
  | nil =>
      rw [List.nil_append]
      cases hc : step s c with
      | none => simp [run, hc]
      | some q => simp [run, hc]
  | cons d cs ih =>
      rw [List.cons_append]
      cases hd : step s d with
      | none => simp [run, hd]
      | some q =>
          rw [run_cons hd, run_cons hd, ih]
          cases run step q.1 cs with
          | none => rfl
          | some r => cases hc : step r.1 c <;> simp [hc]

/-- A call has no result where it is bad, and keeps the invariant elsewhere. -/
theorem run_keeps_iff (I : σ → Prop) (bad : σ → ι → Prop)
    (hgood : ∀ s c, I s → ¬bad s c → ∃ s' a, step s c = some (s', a) ∧ I s')
    (hbad : ∀ s c, I s → bad s c → step s c = none) (hs : I s) (cs : List ι) :
    (∀ pre, pre <+: cs → ∃ s' as, run step s pre = some (s', as) ∧ I s')
      ↔ ∀ pre c s' as, pre ++ [c] <+: cs → run step s pre = some (s', as) → ¬bad s' c := by
  constructor
  · intro hall pre c s' as hpre hrun hc
    obtain ⟨s₁, as₁, hrun₁, hs₁⟩ := hall pre ((List.prefix_append pre [c]).trans hpre)
    obtain rfl : s₁ = s' := congrArg Prod.fst (Option.some.inj (hrun₁.symm.trans hrun))
    obtain ⟨s₂, as₂, hrun₂, -⟩ := hall (pre ++ [c]) hpre
    rw [run_snoc, hrun, Option.bind_some, hbad s₁ c hs₁ hc] at hrun₂
    cases hrun₂
  · intro hall pre
    induction pre using List.reverseRecOn with
    | nil => exact fun _ => ⟨s, [], rfl, hs⟩
    | append_singleton pre c ih =>
        intro hpre
        obtain ⟨s₁, as, hrun, hs₁⟩ := ih ((List.prefix_append pre [c]).trans hpre)
        obtain ⟨s₂, a, hc, hs₂⟩ := hgood s₁ c hs₁ (hall pre c s₁ as hpre hrun)
        exact ⟨s₂, as ++ [a], by rw [run_snoc, hrun, Option.bind_some, hc]; rfl, hs₂⟩

theorem run_refines {R : σ → τ → Prop}
    (hstep : ∀ s t c, R s t → ∃ s', step s c = some (s', (spec t c).2) ∧ R s' (spec t c).1) :
    ∀ {s : σ} {t : τ}, R s t → ∀ cs,
      ∃ s', run step s cs = some (s', answers spec t cs) ∧ R s' (after spec t cs) := by
  intro s t hr cs
  induction cs generalizing s t with
  | nil => exact ⟨s, rfl, hr⟩
  | cons c cs ih =>
      obtain ⟨s₁, hc, hr₁⟩ := hstep s t c hr
      obtain ⟨s', hrun, hr'⟩ := ih hr₁
      exact ⟨s', by rw [run_cons hc, hrun]; rfl, hr'⟩

/-- The answers of the object are those of the specification. -/
def Agree (step : σ → ι → Option (σ × ο)) (spec : τ → ι → τ × ο) (s : σ) (t : τ)
    (cs : List ι) : Prop :=
  (run step s cs).map Prod.snd = some (answers spec t cs)

theorem agree_cons {c : ι} (h : step s c = some (s', (spec t c).2)) :
    Agree step spec s t (c :: cs) ↔ Agree step spec s' (spec t c).1 cs := by
  rw [Agree, Agree, run_cons h]
  cases run step s' cs <;> simp [answers]

/-- Where the object is `safe` every call has the answer of the specification,
and elsewhere some call does not. -/
theorem run_agrees_iff {R : σ → τ → Prop} {safe : σ → Prop} {ok : τ → ι → Prop}
    (hanswer : ∀ s t c, R s t → safe s → ∃ s', step s c = some (s', (spec t c).2))
    (hseen : ∀ s t, R s t → ¬safe s → ∃ d, ¬Agree step spec s t [d])
    (hok : ∀ s t c s', R s t → ok t c → step s c = some (s', (spec t c).2) → R s' (spec t c).1)
    (hbad : ∀ s t c s', R s t → ¬ok t c → step s c = some (s', (spec t c).2) →
      ∃ d, ¬Agree step spec s' (spec t c).1 [d]) :
    ∀ {s : σ} {t : τ}, R s t → ∀ cs, (∀ pre d, pre <+: cs → Agree step spec s t (pre ++ [d]))
      ↔ (∀ pre s' as, pre <+: cs → run step s pre = some (s', as) → safe s')
        ∧ ∀ pre c, pre ++ [c] <+: cs → ok (after spec t pre) c := by
  intro s t hr cs
  induction cs generalizing s t with
  | nil =>
      constructor
      · refine fun hagree => ⟨fun pre s' as hpre hrun => ?_, fun pre c hpre => ?_⟩
        · obtain rfl := List.prefix_nil.mp hpre
          obtain rfl : s = s' := congrArg Prod.fst (Option.some.inj hrun)
          by_contra hno
          obtain ⟨d, hd⟩ := hseen s t hr hno
          exact hd (hagree [] d hpre)
        · exact absurd (List.prefix_nil.mp hpre) (by simp)
      · rintro ⟨hsafe, -⟩ pre d hpre
        obtain rfl := List.prefix_nil.mp hpre
        obtain ⟨s', hd⟩ := hanswer s t d hr (hsafe [] s [] hpre rfl)
        exact (agree_cons hd).mpr rfl
  | cons c cs ih =>
      constructor
      · intro hagree
        have hsafe : safe s := by
          by_contra hno
          obtain ⟨d, hd⟩ := hseen s t hr hno
          exact hd (hagree [] d (by simp))
        obtain ⟨s₁, hc⟩ := hanswer s t c hr hsafe
        have hokc : ok t c := by
          by_contra hno
          obtain ⟨d, hd⟩ := hbad s t c s₁ hr hno hc
          exact hd ((agree_cons hc).mp (hagree [c] d (by simp)))
        obtain ⟨hsafes, hoks⟩ := (ih (hok s t c s₁ hr hokc hc)).mp fun pre d hpre =>
          (agree_cons hc).mp (hagree (c :: pre) d (List.cons_prefix_cons.mpr ⟨rfl, hpre⟩))
        constructor
        · intro pre s' as hpre hrun
          cases pre with
          | nil =>
              obtain rfl : s = s' := congrArg Prod.fst (Option.some.inj hrun)
              exact hsafe
          | cons e pre =>
              obtain ⟨rfl, hpre'⟩ := List.cons_prefix_cons.mp hpre
              obtain ⟨s₂, a, as', hc₂, hrun'⟩ := of_run_cons hrun
              obtain rfl : s₁ = s₂ := congrArg Prod.fst (Option.some.inj (hc.symm.trans hc₂))
              exact hsafes pre s' as' hpre' hrun'
        · intro pre d hpre
          cases pre with
          | nil =>
              obtain rfl : d = c := (List.cons_prefix_cons.mp hpre).1
              exact hokc
          | cons e pre =>
              obtain ⟨rfl, hpre'⟩ := List.cons_prefix_cons.mp hpre
              exact hoks pre d hpre'
      · rintro ⟨hsafes, hoks⟩ pre d hpre
        have hsafe := hsafes [] s [] (by simp) rfl
        cases pre with
        | nil =>
            obtain ⟨s', hd⟩ := hanswer s t d hr hsafe
            exact (agree_cons hd).mpr rfl
        | cons e pre =>
            obtain ⟨rfl, hpre'⟩ := List.cons_prefix_cons.mp hpre
            obtain ⟨s₁, hc⟩ := hanswer s t e hr hsafe
            have hr₁ := hok s t e s₁ hr (hoks [] e (by simp)) hc
            have hrest := (ih hr₁).mpr ⟨fun pre s' as hpre hrun => ?_, fun pre d hpre =>
              hoks (e :: pre) d (List.cons_prefix_cons.mpr ⟨rfl, hpre⟩)⟩
            · exact (agree_cons hc).mpr (hrest pre d hpre')
            · refine hsafes (e :: pre) s' ((spec t e).2 :: as)
                (List.cons_prefix_cons.mpr ⟨rfl, hpre⟩) ?_
              rw [run_cons hc, hrun]
              rfl

end Calls
