import HttpServer.Lib.Keyed

/-!
# Lists with iterators

A `std::list`: every element has a number of its own, and an iterator
other than the end is the number of an element. Erasing an element
invalidates the iterators to it and no others; the operations on an
iterator that is no longer valid are undefined (`none`).
-/

structure StdList (α : Type*) where
  elems : List (α × ℕ)
  nodup : (elems.map Prod.snd).Nodup

namespace StdList

variable {α : Type*} {l : StdList α} {p s : List (α × ℕ)} {x : α} {i : ℕ}

def ofList (xs : List α) : StdList α where
  elems := xs.zipIdx
  nodup := by
    rw [List.zipIdx_map_snd]
    exact List.nodup_range'

/-- The elements in order. -/
def toList (l : StdList α) : List α := l.elems.map Prod.fst

@[simp] theorem toList_ofList (xs : List α) : (ofList xs).toList = xs := List.zipIdx_map_fst ..

/-- The iterator to the first of these elements; `none` is the end. -/
def first (s : List (α × ℕ)) : Option ℕ := s.head?.map Prod.snd

def begin (l : StdList α) : Option ℕ := first l.elems

/-- The elements from number `i` on. -/
def elemsFrom (l : StdList α) (i : ℕ) : List (α × ℕ) := l.elems.dropWhile fun e => e.2 ≠ i

/-- `*it`. -/
def deref (l : StdList α) (i : ℕ) : Option α := (l.elemsFrom i).head?.map Prod.fst

/-- `++it`. -/
def next (l : StdList α) (i : ℕ) : Option (Option ℕ) :=
  match l.elemsFrom i with
  | [] => none
  | _ :: s => some (first s)

/-- `erase(it)`. -/
def erase (l : StdList α) (i : ℕ) : StdList α where
  elems := l.elems.filter fun e => e.2 ≠ i
  nodup := l.nodup.sublist (List.filter_sublist.map _)

theorem elemsFrom_of_elems (h : l.elems = p ++ (x, i) :: s) : l.elemsFrom i = (x, i) :: s := by
  unfold elemsFrom
  rw [h]
  exact Keyed.dropWhile_ne (h ▸ l.nodup)

theorem deref_of_elems (h : l.elems = p ++ (x, i) :: s) : l.deref i = some x := by
  unfold deref
  rw [elemsFrom_of_elems h]
  rfl

theorem next_of_elems (h : l.elems = p ++ (x, i) :: s) : l.next i = some (first s) := by
  unfold next
  rw [elemsFrom_of_elems h]

theorem erase_of_elems (h : l.elems = p ++ (x, i) :: s) : (l.erase i).elems = p ++ s := by
  unfold erase
  simp only
  rw [h]
  exact Keyed.filter_ne (h ▸ l.nodup)

/-- The iterator to an erased element is invalid. -/
theorem next_erase (l : StdList α) (i : ℕ) : (l.erase i).next i = none := by
  have hnone : (l.erase i).elemsFrom i = [] := by
    unfold elemsFrom erase
    rw [List.dropWhile_eq_nil_iff]
    intro e he
    exact (List.mem_filter.mp he).2
  unfold next
  rw [hnone]

end StdList
