import Mathlib.Data.Nat.Notation
import Mathlib.Data.List.Basic

/-!
# Strings with positions

The operations of `std::string` that work with positions, on lists of
characters: `find` is the position of the first occurrence of a text (no
position is `npos`), `substr` throws for a position behind the end.
-/

namespace StdString

variable {α : Type*}

def find [DecidableEq α] (pat : List α) : List α → Option ℕ
  | [] => if pat = [] then some 0 else none
  | c :: s => if pat <+: c :: s then some 0 else (find pat s).map (· + 1)

/-- `s.substr(pos, count)`; no count is up to the end. -/
def substr (s : List α) (pos : ℕ) (count : Option ℕ) : Option (List α) :=
  if pos ≤ s.length then
    match count with
    | none => some (s.drop pos)
    | some count => some ((s.drop pos).take count)
  else none

theorem substr_append_left (s t : List α) : substr (s ++ t) s.length none = some t := by
  simp [substr]

theorem substr_append_middle (s t u : List α) :
    substr (s ++ t ++ u) s.length (some t.length) = some t := by
  simp [substr]

variable [DecidableEq α] {s t : List α} {c : α}

theorem find_eq_zero {pat : List α} : find pat s = some 0 ↔ pat <+: s := by
  cases s with
  | nil =>
      rw [find, List.prefix_nil]
      by_cases hpat : pat = [] <;> simp [hpat]
  | cons c s =>
      rw [find]
      by_cases hpat : pat <+: c :: s
      · simp [hpat]
      · rw [if_neg hpat]
        cases find pat s <;> simp [hpat]

/-- A text without `c` in front of it. -/
theorem find_append_cons (hs : c ∉ s) : find [c] (s ++ c :: t) = some s.length := by
  induction s with
  | nil => simp [find]
  | cons d s ih =>
      rw [List.mem_cons, not_or] at hs
      obtain ⟨hne, hs⟩ := hs
      have hpre : ¬[c] <+: d :: (s ++ c :: t) := by simpa using hne
      rw [List.cons_append, find, if_neg hpre, ih hs]
      rfl

theorem find_of_notMem (hs : c ∉ s) : find [c] s = none := by
  induction s with
  | nil => simp [find]
  | cons d s ih =>
      rw [List.mem_cons, not_or] at hs
      obtain ⟨hne, hs⟩ := hs
      have hpre : ¬[c] <+: d :: s := by simpa using hne
      rw [find, if_neg hpre, ih hs]
      rfl

end StdString
