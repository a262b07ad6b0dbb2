import Mathlib.Algebra.Order.BigOperators.Group.Finset
import Mathlib.Data.Finset.Range
import Mathlib.Logic.Function.Basic

/-!
# Tallies over threads

The sum of a weight over the threads `0 .. n-1`. A step of one thread
changes it by the difference of two weights; with every counter of a
system expressed by tallies an invariant is preserved by arithmetic.
-/

namespace Tally

/-- Two families that differ at one index. -/
theorem sum_range_of_ne {n t : ℕ} (f g : ℕ → ℕ) (ht : t < n) (h : ∀ u, u ≠ t → g u = f u) :
    ∑ u ∈ Finset.range n, g u + f t = ∑ u ∈ Finset.range n, f u + g t := by
  have hmem : t ∈ Finset.range n := Finset.mem_range.mpr ht
  have hrest : ∑ u ∈ (Finset.range n).erase t, g u = ∑ u ∈ (Finset.range n).erase t, f u :=
    Finset.sum_congr rfl fun u hu => h u (Finset.ne_of_mem_erase hu)
  rw [← Finset.add_sum_erase _ f hmem, ← Finset.add_sum_erase _ g hmem, hrest]
  omega

/-- The sum of the weights of what the first `n` threads are at. -/
def total {β : Type*} (n : ℕ) (f : β → ℕ) (pc : ℕ → β) : ℕ := ∑ t ∈ Finset.range n, f (pc t)

section

variable {β : Type*} {n t : ℕ} {pc : ℕ → β}

theorem total_update (f : β → ℕ) (pc : ℕ → β) (ht : t < n) (x : β) :
    total n f (Function.update pc t x) + f (pc t) = total n f pc + f x := by
  have h := sum_range_of_ne (fun u => f (pc u)) (fun u => f (Function.update pc t x u)) ht
    fun u hu => by rw [Function.update_of_ne hu]
  rw [Function.update_self] at h
  exact h

theorem le_total (f : β → ℕ) (pc : ℕ → β) (ht : t < n) : f (pc t) ≤ total n f pc := by
  rw [total, ← Finset.add_sum_erase _ _ (Finset.mem_range.mpr ht)]
  exact Nat.le_add_right _ _

/-- With the weight of one thread equal to the sum the others have none. -/
theorem eq_zero_of_le {f : β → ℕ} {u : ℕ} (h : total n f pc ≤ f (pc t)) (ht : t < n) (hu : u < n)
    (hne : u ≠ t) : f (pc u) = 0 := by
  have hmem : u ∈ (Finset.range n).erase t := Finset.mem_erase.mpr ⟨hne, Finset.mem_range.mpr hu⟩
  rw [total, ← Finset.add_sum_erase _ _ (Finset.mem_range.mpr ht),
    ← Finset.add_sum_erase _ _ hmem] at h
  omega

theorem total_le {f : β → ℕ} (hf : ∀ x, f x ≤ 1) : total n f pc ≤ n := by
  have h := Finset.sum_le_card_nsmul (Finset.range n) (fun t => f (pc t)) 1 fun t _ => hf (pc t)
  simpa [total] using h

/-- Of weights of at most one, `n` make `n` only if all are one. -/
theorem eq_one_of_total {f : β → ℕ} (hf : ∀ x, f x ≤ 1) (h : total n f pc = n) (ht : t < n) :
    f (pc t) = 1 := by
  have hmem : t ∈ Finset.range n := Finset.mem_range.mpr ht
  have hrest : ∑ u ∈ (Finset.range n).erase t, f (pc u) ≤ ∑ _ ∈ (Finset.range n).erase t, 1 :=
    Finset.sum_le_sum fun u _ => hf (pc u)
  rw [total, ← Finset.add_sum_erase _ _ hmem] at h
  rw [← Finset.card_eq_sum_ones, Finset.card_erase_of_mem hmem, Finset.card_range] at hrest
  have := hf (pc t)
  omega

theorem total_eq_zero {f : β → ℕ} (h : ∀ t, f (pc t) = 0) : total n f pc = 0 :=
  Finset.sum_eq_zero fun t _ => h t

end

/-! ## Of any number of threads -/

/-- `m` of the threads are where `q` holds, and there is no other. -/
def Pending {β : Type*} (q : β → Bool) (pc : ℕ → β) (m : ℕ) : Prop :=
  ∃ A : Finset ℕ, A.card = m ∧ ∀ t, t ∈ A ↔ q (pc t) = true

namespace Pending

variable {β : Type*} {q : β → Bool} {pc : ℕ → β} {m : ℕ}

theorem none (h : ∀ t, q (pc t) = false) : Pending q pc 0 :=
  ⟨∅, rfl, fun t => by simp [h t]⟩

theorem eq_zero (hp : Pending q pc m) (h : ∀ t, q (pc t) = false) : m = 0 := by
  obtain ⟨A, rfl, hA⟩ := hp
  refine Finset.card_eq_zero.mpr (Finset.eq_empty_of_forall_notMem fun t ht => ?_)
  rw [hA t, h t] at ht
  cases ht

theorem pos {t : ℕ} (hp : Pending q pc m) (ht : q (pc t) = true) : 0 < m := by
  obtain ⟨A, rfl, hA⟩ := hp
  exact Finset.card_pos.mpr ⟨t, (hA t).mpr ht⟩

theorem exists_of_pos (hp : Pending q pc m) (hm : 0 < m) : ∃ t, q (pc t) = true := by
  obtain ⟨A, rfl, hA⟩ := hp
  obtain ⟨t, ht⟩ := Finset.card_pos.mp hm
  exact ⟨t, (hA t).mp ht⟩

theorem unique {t u : ℕ} (hp : Pending q pc m) (hm : m ≤ 1) (ht : q (pc t) = true)
    (hu : q (pc u) = true) : t = u := by
  obtain ⟨A, rfl, hA⟩ := hp
  exact Finset.card_le_one.mp hm t ((hA t).mpr ht) u ((hA u).mpr hu)

/-- One thread moves. -/
theorem update (hp : Pending q pc m) (t : ℕ) (x : β) :
    ∃ m', Pending q (Function.update pc t x) m' ∧ m' + (q (pc t)).toNat = m + (q x).toNat := by
  obtain ⟨A, rfl, hA⟩ := hp
  have hother : ∀ u, u ≠ t → (u ∈ A ↔ q (Function.update pc t x u) = true) := fun u hu => by
    rw [Function.update_of_ne hu]
    exact hA u
  have herase : (A.erase t).card + (q (pc t)).toNat = A.card := by
    cases hq : q (pc t) with
    | false =>
        have hnot : t ∉ A := fun ht => by simp [(hA t).mp ht] at hq
        rw [Finset.erase_eq_of_notMem hnot]
        rfl
    | true => exact Finset.card_erase_add_one ((hA t).mpr hq)
  cases hx : q x with
  | false =>
      refine ⟨_, ⟨A.erase t, rfl, fun u => ?_⟩, herase⟩
      by_cases hu : u = t
      · subst hu
        simp [hx]
      · simp only [Finset.mem_erase, ne_eq, hu, not_false_eq_true, true_and, hother u hu]
  | true =>
      have hcard : (insert t (A.erase t)).card = (A.erase t).card + 1 :=
        Finset.card_insert_of_notMem (Finset.notMem_erase t A)
      refine ⟨_, ⟨insert t (A.erase t), rfl, fun u => ?_⟩, ?_⟩
      · by_cases hu : u = t
        · subst hu
          simp [hx]
        · simp only [Finset.mem_insert, Finset.mem_erase, ne_eq, hu, not_false_eq_true, true_and,
            false_or, hother u hu]
      · rw [hcard, ← herase]
        exact Nat.add_right_comm _ _ _

end Pending

end Tally
