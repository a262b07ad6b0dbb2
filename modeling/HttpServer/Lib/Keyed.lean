import Mathlib.Data.List.Nodup
import Mathlib.Data.List.TakeWhile

/-!
# Lists whose elements have keys

A list in which no two elements have one key, taken apart at the element
with a given key: an iterator of a container is such a key.
-/

namespace Keyed

variable {α κ : Type*} {key : α → κ} {p s : List α} {x : α}

theorem ne_of_nodup (h : ((p ++ x :: s).map key).Nodup) :
    (∀ y ∈ p, key y ≠ key x) ∧ ∀ y ∈ s, key y ≠ key x := by
  rw [List.map_append, List.map_cons] at h
  have hnot := (List.nodup_cons.mp (List.nodup_middle.mp h)).1
  refine ⟨fun y hy heq => hnot ?_, fun y hy heq => hnot ?_⟩
  · exact List.mem_append_left _ (List.mem_map.mpr ⟨y, hy, heq⟩)
  · exact List.mem_append_right _ (List.mem_map.mpr ⟨y, hy, heq⟩)

variable [DecidableEq κ]

/-- The elements from `x` on. -/
theorem dropWhile_ne (h : ((p ++ x :: s).map key).Nodup) :
    ((p ++ x :: s).dropWhile fun y => key y ≠ key x) = x :: s := by
  rw [List.dropWhile_append_of_pos fun y hy => by simpa using (ne_of_nodup h).1 y hy]
  simp

/-- The elements apart from `x`. -/
theorem filter_ne (h : ((p ++ x :: s).map key).Nodup) :
    ((p ++ x :: s).filter fun y => key y ≠ key x) = p ++ s := by
  obtain ⟨hp, hs⟩ := ne_of_nodup h
  rw [List.filter_append, List.filter_cons_of_neg (by simp),
    List.filter_eq_self.mpr fun y hy => by simpa using hp y hy,
    List.filter_eq_self.mpr fun y hy => by simpa using hs y hy]

end Keyed
