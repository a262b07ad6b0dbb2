import HttpServer.Lib.Keyed

/-!
# Sets with iterators

A `std::unordered_set`: its elements come in some order, which an insertion
may change in any way. An iterator other than the end is an element.
Erasing an element invalidates the iterators to it and no others; the
operations on an iterator that is no longer valid are undefined (`none`).
-/

structure StdSet (α : Type*) where
  elems : List α
  nodup : elems.Nodup

namespace StdSet

variable {α : Type*} {l l' : StdSet α} {p s order : List α} {x : α}

def empty : StdSet α := ⟨[], List.nodup_nil⟩

instance : Membership α (StdSet α) := ⟨fun l x => x ∈ l.elems⟩

theorem mem_def : x ∈ l ↔ x ∈ l.elems := .rfl

def size (l : StdSet α) : ℕ := l.elems.length

/-- The iterator to the first element; `none` is the end. -/
def begin (l : StdSet α) : Option α := l.elems.head?

theorem nodup_of_elems (h : l.elems = p ++ x :: s) : ((p ++ x :: s).map id).Nodup := by
  rw [List.map_id, ← h]
  exact l.nodup

variable [DecidableEq α]

/-- `insert(x)`, after which the elements come in this order. -/
def insert (l : StdSet α) (x : α) (order : List α) : Option (StdSet α) :=
  if x ∈ l.elems then some l
  else if h : order.Perm (x :: l.elems) ∧ order.Nodup then some ⟨order, h.2⟩ else none

/-- The elements from `x` on. -/
def elemsFrom (l : StdSet α) (x : α) : List α := l.elems.dropWhile fun y => y ≠ x

/-- `*it`. -/
def deref (l : StdSet α) (x : α) : Option α := (l.elemsFrom x).head?

/-- `++it`. -/
def next (l : StdSet α) (x : α) : Option (Option α) :=
  match l.elemsFrom x with
  | [] => none
  | _ :: s => some s.head?

/-- `erase(it)`. -/
def erase (l : StdSet α) (x : α) : StdSet α where
  elems := l.elems.filter fun y => y ≠ x
  nodup := l.nodup.filter _

theorem elemsFrom_of_elems (h : l.elems = p ++ x :: s) : l.elemsFrom x = x :: s := by
  unfold elemsFrom
  rw [h]
  exact Keyed.dropWhile_ne (nodup_of_elems h)

theorem deref_of_elems (h : l.elems = p ++ x :: s) : l.deref x = some x := by
  unfold deref
  rw [elemsFrom_of_elems h]
  rfl

theorem next_of_elems (h : l.elems = p ++ x :: s) : l.next x = some s.head? := by
  unfold next
  rw [elemsFrom_of_elems h]

theorem erase_of_elems (h : l.elems = p ++ x :: s) : (l.erase x).elems = p ++ s := by
  unfold erase
  simp only
  rw [h]
  exact Keyed.filter_ne (nodup_of_elems h)

/-- Each order of the elements is possible after an insertion. -/
theorem exists_insert (h : x ∈ l ∨ order.Perm (x :: l.elems)) :
    ∃ l', l.insert x order = some l' := by
  by_cases hx : x ∈ l.elems
  · exact ⟨l, if_pos hx⟩
  · have hperm := h.resolve_left hx
    have hnd : order.Nodup := hperm.nodup_iff.mpr (List.nodup_cons.mpr ⟨hx, l.nodup⟩)
    exact ⟨⟨order, hnd⟩, (if_neg hx).trans (dif_pos ⟨hperm, hnd⟩)⟩

theorem perm_of_insert (h : l.insert x order = some l') (hx : x ∉ l) :
    l'.elems.Perm (x :: l.elems) := by
  rw [insert, if_neg (mem_def.not.mp hx)] at h
  split_ifs at h with horder
  obtain rfl := Option.some.inj h
  exact horder.1

theorem mem_insert (h : l.insert x order = some l') {y : α} : y ∈ l' ↔ y = x ∨ y ∈ l := by
  by_cases hx : x ∈ l
  · rw [insert, if_pos (mem_def.mp hx)] at h
    obtain rfl := Option.some.inj h
    exact ⟨.inr, fun hy => hy.elim (fun hyx => hyx ▸ hx) id⟩
  · rw [mem_def, (perm_of_insert h hx).mem_iff, List.mem_cons, mem_def]

end StdSet
