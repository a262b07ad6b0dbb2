import Mathlib.Data.List.Infix
import Mathlib.Algebra.Order.BigOperators.Group.List
import Mathlib.Algebra.Order.Group.Nat
import Mathlib.Algebra.GroupWithZero.Nat

/-!
# The shortest prefix that reaches an amount

Taking elements off the front of a list until their sizes add up to
`need` gives the shortest prefix that reaches `need`, or the whole list
when it does not (`IsReach`); `reach` computes it.
-/

namespace ShortestPrefix

variable {α : Type*} {size : α → ℕ} {need : ℕ} {l p q : List α}

/-- The sum of the sizes. -/
def total (size : α → ℕ) (l : List α) : ℕ := (l.map size).sum

@[simp] theorem total_nil : total size [] = 0 := rfl

@[simp] theorem total_cons (x : α) (l : List α) :
    total size (x :: l) = size x + total size l := List.sum_cons

theorem total_le_of_sublist (h : p.Sublist l) : total size p ≤ total size l :=
  (h.map size).sum_le_sum fun _ _ => Nat.zero_le _

/-- `p` is the shortest prefix of `l` that reaches `need`, and all of `l`
when none does. -/
structure IsReach (size : α → ℕ) (need : ℕ) (l p : List α) : Prop where
  isPrefix : p <+: l
  enough : need ≤ total size p ∨ p = l
  minimal : ∀ q, q <+: p → q ≠ p → total size q < need

/-- Elements off the front until they reach `need`. -/
def reach (size : α → ℕ) (need : ℕ) : List α → List α
  | [] => []
  | x :: l => if need = 0 then [] else x :: reach size (need - size x) l

@[simp] theorem reach_zero (l : List α) : reach size 0 l = [] := by
  cases l with
  | nil => rfl
  | cons x l => exact if_pos rfl

theorem reach_isReach (size : α → ℕ) (need : ℕ) (l : List α) :
    IsReach size need l (reach size need l) := by
  induction l generalizing need with
  | nil =>
      refine ⟨List.prefix_refl [], .inr rfl, fun q hq hne => ?_⟩
      exact absurd (List.prefix_nil.mp hq) hne
  | cons x l ih =>
      unfold reach
      by_cases h0 : need = 0
      · rw [if_pos h0]
        refine ⟨List.nil_prefix, .inl (by omega), fun q hq hne => ?_⟩
        exact absurd (List.prefix_nil.mp hq) hne
      · rw [if_neg h0]
        obtain ⟨hpre, henough, hmin⟩ := ih (need - size x)
        refine ⟨(List.prefix_cons_inj x).mpr hpre, ?_, fun q hq hne => ?_⟩
        · rcases henough with hle | heq
          · left
            rw [total_cons]
            omega
          · exact .inr (congrArg (x :: ·) heq)
        · cases q with
          | nil => exact Nat.pos_of_ne_zero h0
          | cons y q =>
              obtain ⟨rfl, hq⟩ := List.cons_prefix_cons.mp hq
              have hlt := hmin q hq fun heq => hne (congrArg (y :: ·) heq)
              rw [total_cons]
              omega

/-- The prefix reaches `need` when the whole list does. -/
theorem IsReach.enough_iff (h : IsReach size need l p) :
    need ≤ total size p ↔ need ≤ total size l := by
  refine ⟨fun hle => hle.trans (total_le_of_sublist h.isPrefix.sublist), fun hle => ?_⟩
  rcases h.enough with hp | rfl
  · exact hp
  · exact hle

end ShortestPrefix
