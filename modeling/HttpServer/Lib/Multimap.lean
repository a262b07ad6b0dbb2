import Mathlib.Data.List.Pairwise
import Mathlib.Data.List.TakeWhile
import Mathlib.Order.Lattice

/-!
# A map with equal keys

`std::multimap` as the list of its entries in the order in which an
iterator visits them: by key, and entries with one key in the order in
which they were inserted. An entry goes in behind all entries whose key is
not greater.
-/

namespace Multimap

variable {κ ν : Type*} [LinearOrder κ] {m : List (κ × ν)} {k : κ} {e : κ × ν}

def insert (m : List (κ × ν)) (k : κ) (v : ν) : List (κ × ν) :=
  m.takeWhile (·.1 ≤ k) ++ (k, v) :: m.dropWhile (·.1 ≤ k)

def Sorted (m : List (κ × ν)) : Prop := m.Pairwise fun a b => a.1 ≤ b.1

theorem le_of_mem_takeWhile (h : e ∈ m.takeWhile (·.1 ≤ k)) : e.1 ≤ k := by
  simpa using List.mem_takeWhile_imp h

theorem Sorted.lt_of_mem_dropWhile (hm : Sorted m) (h : e ∈ m.dropWhile (·.1 ≤ k)) : k < e.1 := by
  induction m with
  | nil => cases h
  | cons a m ih =>
      obtain ⟨ha, hm⟩ := List.pairwise_cons.mp hm
      by_cases hak : a.1 ≤ k
      · rw [List.dropWhile_cons_of_pos (by simpa using hak)] at h
        exact ih hm h
      · rw [List.dropWhile_cons_of_neg (by simpa using hak)] at h
        rcases List.mem_cons.mp h with rfl | h
        · exact lt_of_not_ge hak
        · exact lt_of_lt_of_le (lt_of_not_ge hak) (ha e h)

/-- What relates the entries in their order goes on to do so. -/
theorem insert_pairwise {R : κ × ν → κ × ν → Prop} {v : ν} (hm : Sorted m) (h : m.Pairwise R)
    (hbefore : ∀ e ∈ m, e.1 ≤ k → R e (k, v)) (hbehind : ∀ e ∈ m, k < e.1 → R (k, v) e) :
    (insert m k v).Pairwise R := by
  rw [← List.takeWhile_append_dropWhile (p := (·.1 ≤ k)) (l := m)] at h
  obtain ⟨hfront, hback, hcross⟩ := List.pairwise_append.mp h
  refine List.pairwise_append.mpr ⟨hfront, List.pairwise_cons.mpr ⟨fun e he => ?_, hback⟩, ?_⟩
  · exact hbehind e (List.dropWhile_sublist _ |>.mem he) (hm.lt_of_mem_dropWhile he)
  · intro a ha b hb
    rcases List.mem_cons.mp hb with rfl | hb
    · exact hbefore a (List.takeWhile_sublist _ |>.mem ha) (le_of_mem_takeWhile ha)
    · exact hcross a ha b hb

theorem Sorted.insert (hm : Sorted m) (k : κ) (v : ν) : Sorted (insert m k v) :=
  insert_pairwise hm hm (fun _ _ h => h) fun _ _ h => le_of_lt h

theorem insert_perm (m : List (κ × ν)) (k : κ) (v : ν) : (insert m k v).Perm ((k, v) :: m) := by
  refine List.perm_middle.trans ?_
  rw [List.takeWhile_append_dropWhile]

end Multimap
