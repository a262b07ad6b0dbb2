import Mathlib.Algebra.BigOperators.Group.Finset.Basic
import Mathlib.Algebra.GroupWithZero.Nat
import Mathlib.Data.Int.ConditionallyCompleteOrder
import Mathlib.Data.Int.Interval
import Mathlib.Order.ConditionallyCompleteLattice.Basic

/-!
# Circular arrays

An array of `n` entries that holds, of a family indexed by all the
integers, the window of the last `n` indices: index `i` is kept at
position `i mod n`. `Shows n b f a` says that the array `a` shows the
window of `f` that ends at `b`.

The loop `do { p = (p + 1) % n; … } while (p != q)` goes through the
positions `walk n q fuel p`. Started at the position of `x` and ended at
that of `y`, with `x < y ≤ x + n`, these are the positions of the
indices `x + 1, …, y`, each once: this covers both the walk of a single
step and the walk once around, which start and end differently but at
the same two positions when `y - x` is `0` or `n`.
-/

namespace Ring

variable {n : ℕ} {b x y i j : ℤ}

/-- The position of an index. -/
def pos (n : ℕ) (i : ℤ) : ℕ := (i % n).toNat

theorem pos_lt (hn : 0 < n) (i : ℤ) : pos n i < n := by
  have h := Int.emod_lt_of_pos i (Int.natCast_pos.mpr hn)
  have h0 := Int.emod_nonneg i (Int.natCast_ne_zero.mpr hn.ne')
  unfold pos
  omega

@[simp] theorem pos_natCast (n k : ℕ) : pos n k = k % n := by
  unfold pos
  rw [← Int.natCast_emod, Int.toNat_natCast]

theorem pos_succ (hn : 0 < n) (i : ℤ) : (pos n i + 1) % n = pos n (i + 1) := by
  have h0 := Int.emod_nonneg i (Int.natCast_ne_zero.mpr hn.ne')
  have hcast : ((pos n i : ℕ) : ℤ) = i % n := Int.toNat_of_nonneg h0
  rw [← pos_natCast, Int.natCast_succ, hcast, pos, pos, Int.emod_add_emod]

/-- The successor of a position, with a comparison for the wrap. -/
theorem pos_next (hn : 0 < n) (i : ℤ) :
    (if pos n i + 1 = n then 0 else pos n i + 1) = pos n (i + 1) := by
  have hlt := pos_lt hn i
  rw [← pos_succ hn]
  by_cases hend : pos n i + 1 = n
  · rw [if_pos hend, hend, Nat.mod_self]
  · rw [if_neg hend, Nat.mod_eq_of_lt (by omega)]

/-- A turn later one is at the same position. -/
theorem pos_add_turn (n : ℕ) (i : ℤ) : pos n (i + n) = pos n i := by
  rw [pos, pos, Int.add_emod_right]

/-- In a window no two indices share a position. -/
theorem pos_inj (hn : 0 < n) (h : pos n i = pos n j) (hij : i < j + n) (hji : j < i + n) :
    i = j := by
  have hi := Int.emod_nonneg i (Int.natCast_ne_zero.mpr hn.ne')
  have hj := Int.emod_nonneg j (Int.natCast_ne_zero.mpr hn.ne')
  have hmod : i % n = j % n := by
    unfold pos at h
    omega
  obtain ⟨c, hc⟩ := Int.dvd_of_emod_eq_zero (Int.emod_eq_emod_iff_emod_sub_eq_zero.mp hmod)
  have hc1 : c < 1 := by
    by_contra hge
    have := Int.mul_le_mul_of_nonneg_left (not_lt.mp hge) (Int.natCast_nonneg n)
    omega
  have hc2 : -1 < c := by
    by_contra hle
    have := Int.mul_le_mul_of_nonneg_left (not_lt.mp hle) (Int.natCast_nonneg n)
    omega
  have hc0 : c = 0 := by omega
  rw [hc0, mul_zero] at hc
  omega

/-! ## The walk -/

/-- The positions a walk from `p` on goes through: the next one, until
it is `q`. -/
def walk (n q : ℕ) : ℕ → ℕ → List ℕ
  | 0, _ => []
  | fuel + 1, p =>
      let p' := (p + 1) % n
      p' :: if p' = q then [] else walk n q fuel p'

theorem walk_last {p q : ℕ} (fuel : ℕ) (h : (p + 1) % n = q) : walk n q (fuel + 1) p = [q] := by
  simp only [walk, h, if_true]

theorem walk_step {p q : ℕ} (fuel : ℕ) (h : (p + 1) % n ≠ q) :
    walk n q (fuel + 1) p = (p + 1) % n :: walk n q fuel ((p + 1) % n) := by
  simp only [walk, if_neg h]

/-- The positions of `x + 1, …, y`, of which there are at most `n`. -/
theorem sum_walk (hn : 0 < n) (f : ℕ → ℕ) (fuel : ℕ) (x : ℤ) (hxy : x < y) (hyx : y ≤ x + n)
    (hfuel : y ≤ x + fuel) :
    ((walk n (pos n y) fuel (pos n x)).map f).sum = ∑ i ∈ Finset.Ioc x y, f (pos n i) := by
  induction fuel generalizing x with
  | zero => omega
  | succ fuel ih =>
      have hIoc : Finset.Ioc x y = insert (x + 1) (Finset.Ioc (x + 1) y) := by
        ext i
        simp only [Finset.mem_insert, Finset.mem_Ioc]
        omega
      have hnot : x + 1 ∉ Finset.Ioc (x + 1) y := fun h => (Finset.mem_Ioc.mp h).1.false
      rw [hIoc, Finset.sum_insert hnot]
      simp only [walk, pos_succ hn, List.map_cons, List.sum_cons]
      by_cases hend : pos n (x + 1) = pos n y
      · have hlast : x + 1 = y := pos_inj hn hend (by omega) (by omega)
        rw [if_pos hend, hlast, Finset.Ioc_self]
        rfl
      · have hne : x + 1 ≠ y := fun h => hend (congrArg (pos n) h)
        rw [if_neg hend, ih (x + 1) (by omega) (by omega) (by omega)]

theorem mem_walk (hn : 0 < n) (p fuel : ℕ) (x : ℤ) (hxy : x < y) (hyx : y ≤ x + n)
    (hfuel : y ≤ x + fuel) :
    p ∈ walk n (pos n y) fuel (pos n x) ↔ ∃ i, x < i ∧ i ≤ y ∧ pos n i = p := by
  induction fuel generalizing x with
  | zero => omega
  | succ fuel ih =>
      simp only [walk, pos_succ hn, List.mem_cons]
      by_cases hend : pos n (x + 1) = pos n y
      · have hlast : x + 1 = y := pos_inj hn hend (by omega) (by omega)
        rw [if_pos hend]
        constructor
        · rintro (rfl | hp)
          · exact ⟨x + 1, by omega, by omega, rfl⟩
          · exact absurd hp List.not_mem_nil
        · rintro ⟨i, hxi, hiy, rfl⟩
          rw [show i = x + 1 by omega]
          exact .inl rfl
      · have hne : x + 1 ≠ y := fun h => hend (congrArg (pos n) h)
        rw [if_neg hend, ih (x + 1) (by omega) (by omega) (by omega)]
        constructor
        · rintro (rfl | ⟨i, hxi, hiy, rfl⟩)
          · exact ⟨x + 1, by omega, by omega, rfl⟩
          · exact ⟨i, by omega, hiy, rfl⟩
        · rintro ⟨i, hxi, hiy, rfl⟩
          rcases (show i = x + 1 ∨ x + 1 < i by omega) with rfl | hlt
          · exact .inl rfl
          · exact .inr ⟨i, hlt, hiy, rfl⟩

/-- A turn goes through every position once. -/
theorem sum_turn (hn : 0 < n) (f : ℕ → ℕ) (b : ℤ) :
    ∑ i ∈ Finset.Ioc (b - n) b, f (pos n i) = ∑ p ∈ Finset.range n, f p := by
  have hinj : Set.InjOn (pos n) (Finset.Ioc (b - n) b : Finset ℤ) := by
    intro i hi j hj h
    rw [Finset.mem_coe, Finset.mem_Ioc] at hi hj
    exact pos_inj hn h (by omega) (by omega)
  have himage : (Finset.Ioc (b - n) b).image (pos n) = Finset.range n := by
    refine Finset.eq_of_subset_of_card_le (fun p hp => ?_) ?_
    · obtain ⟨i, -, rfl⟩ := Finset.mem_image.mp hp
      exact Finset.mem_range.mpr (pos_lt hn i)
    · rw [Finset.card_image_of_injOn hinj, Int.card_Ioc, Finset.card_range]
      omega
  rw [← himage, Finset.sum_image hinj]

/-! ## The window shown -/

/-- The array `a` holds the values of `f` at `b - n + 1, …, b`. -/
def Shows {α : Type*} (n : ℕ) (b : ℤ) (f : ℤ → α) (a : ℕ → α) : Prop :=
  ∀ i, b - n < i → i ≤ b → a (pos n i) = f i

/-- A change at the end of the window. -/
theorem Shows.update {α : Type*} {f : ℤ → α} {a : ℕ → α} (hn : 0 < n) (h : Shows n b f a) (v : α) :
    Shows n b (Function.update f b v) (Function.update a (pos n b) v) := by
  intro i hlo hhi
  by_cases hi : i = b
  · subst hi
    rw [Function.update_self, Function.update_self]
  · have hne : pos n i ≠ pos n b := fun hp => hi (pos_inj hn hp (by omega) (by omega))
    rw [Function.update_of_ne hne, Function.update_of_ne hi]
    exact h i hlo hhi

/-- A new value at one position: the window may move on, as long as that
position covers the indices that come in. -/
theorem Shows.put {α : Type*} {f f' : ℤ → α} {a : ℕ → α} (hn : 0 < n) (h : Shows n x f a)
    (hlo : y - n < j) (hhi : j ≤ y)
    (hrest : ∀ i, y - n < i → i ≤ y → i ≠ j → x - n < i ∧ i ≤ x ∧ f' i = f i) :
    Shows n y f' (Function.update a (pos n j) (f' j)) := by
  intro i hi hiy
  by_cases hij : i = j
  · rw [hij, Function.update_self]
  · obtain ⟨hxi, hix, hf⟩ := hrest i hi hiy hij
    have hne : pos n i ≠ pos n j := fun hp => hij (pos_inj hn hp (by omega) (by omega))
    rw [Function.update_of_ne hne, hf]
    exact h i hxi hix

end Ring
