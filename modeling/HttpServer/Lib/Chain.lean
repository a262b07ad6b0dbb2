import Mathlib.Data.List.Basic

/-!
# Singly linked chains

A chain lives in cells: one cell `head` and one cell `next a` for each
node `a`. A cell holds the node it points to, if any. `Path get c l` says
that the nodes one visits from the cell `c` on are exactly `l`;
`Seg get c l d` that one visits `l` and then stands in the cell `d`.

Linking a node in behind a cell and unlinking the node behind a cell
change one cell of the chain. The rules `Path.insert` and `Path.remove`
say what the chain is afterwards; changes of cells that are not on the
chain do not matter (`Path.congr`).
-/

namespace Chain

/-- The cells that hold a link. -/
inductive Cell (α : Type) where
  | head
  | next (a : α)
deriving DecidableEq, Repr

/-- The node that the cell is part of. -/
def Cell.owner {α : Type} : Cell α → Option α
  | .head => none
  | .next a => some a

variable {α : Type} {get get' : Cell α → Option α}

def Path (get : Cell α → Option α) : Cell α → List α → Prop
  | c, [] => get c = none
  | c, a :: l => get c = some a ∧ Path get (.next a) l

def Seg (get : Cell α → Option α) : Cell α → List α → Cell α → Prop
  | c, [], d => c = d
  | c, a :: l, d => get c = some a ∧ Seg get (.next a) l d

theorem path_append {l₁ l₂ : List α} : ∀ {c : Cell α},
    Path get c (l₁ ++ l₂) ↔ ∃ d, Seg get c l₁ d ∧ Path get d l₂ := by
  induction l₁ with
  | nil =>
      intro c
      exact ⟨fun h => ⟨c, rfl, h⟩, fun ⟨d, hcd, h⟩ => hcd ▸ h⟩
  | cons a l₁ ih =>
      intro c
      constructor
      · rintro ⟨ha, h⟩
        obtain ⟨d, hs, hp⟩ := ih.mp h
        exact ⟨d, ⟨ha, hs⟩, hp⟩
      · rintro ⟨d, ⟨ha, hs⟩, hp⟩
        exact ⟨ha, ih.mpr ⟨d, hs, hp⟩⟩

/-- The chain from a cell is determined. -/
theorem Path.unique {c : Cell α} : ∀ {l l' : List α}, Path get c l → Path get c l' → l = l' := by
  intro l
  induction l generalizing c with
  | nil =>
      intro l' h h'
      cases l' with
      | nil => rfl
      | cons b l' =>
          have hn : get c = none := h
          exact absurd (hn.symm.trans h'.1) (by simp)
  | cons a l ih =>
      intro l' h h'
      cases l' with
      | nil =>
          have hn : get c = none := h'
          exact absurd (hn.symm.trans h.1) (by simp)
      | cons b l' =>
          obtain rfl : a = b := Option.some.inj (h.1.symm.trans h'.1)
          rw [ih h.2 h'.2]

/-- What a cell holds is the first node of its chain. -/
theorem Path.get_eq {c : Cell α} {l : List α} (h : Path get c l) : get c = l.head? := by
  cases l with
  | nil => exact h
  | cons a l => exact h.1

/-- A chain that ends does not come to a node twice. -/
theorem Path.nodup {c : Cell α} {l : List α} (h : Path get c l) : l.Nodup := by
  induction l generalizing c with
  | nil => exact .nil
  | cons a l ih =>
      refine List.nodup_cons.mpr ⟨fun ha => ?_, ih h.2⟩
      obtain ⟨l₁, l₂, rfl⟩ := List.append_of_mem ha
      obtain ⟨d, -, hp⟩ := path_append.mp h.2
      have hlen := congrArg List.length (h.2.unique hp.2)
      simp at hlen
      omega

theorem Seg.end_mem {c d : Cell α} {a : α} {l : List α} (h : Seg get c (a :: l) d) :
    d ∈ (a :: l).map Cell.next := by
  induction l generalizing c a with
  | nil =>
      obtain rfl : Cell.next a = d := h.2
      simp
  | cons b l ih => exact List.mem_cons_of_mem _ (ih h.2)

theorem Seg.end_mem_cells {c d : Cell α} {l : List α} (h : Seg get c l d) :
    d ∈ c :: l.map Cell.next := by
  cases l with
  | nil =>
      obtain rfl : c = d := h
      exact List.mem_cons_self ..
  | cons a l => exact List.mem_cons_of_mem _ h.end_mem

theorem Seg.end_eq_next {d : Cell α} {l : List α} (h : Seg get .head l d) (hd : d ≠ .head) :
    ∃ a ∈ l, d = .next a := by
  rcases List.mem_cons.mp h.end_mem_cells with rfl | hmem
  · exact absurd rfl hd
  · simpa [eq_comm] using hmem

/-- A segment only depends on the cells before its end. -/
theorem Seg.congr {c d : Cell α} : ∀ {l : List α}, Seg get c l d →
    (c :: l.map Cell.next).Nodup → (∀ e ∈ c :: l.map Cell.next, e ≠ d → get' e = get e) →
    Seg get' c l d := by
  intro l
  induction l generalizing c with
  | nil =>
      intro h _ _
      exact h
  | cons a l ih =>
      intro h hnd hsame
      have hne : c ≠ d := by
        rintro rfl
        exact (List.nodup_cons.mp hnd).1 h.end_mem
      refine ⟨(hsame c (List.mem_cons_self ..) hne).trans h.1, ?_⟩
      exact ih h.2 (List.nodup_cons.mp hnd).2 fun e he => hsame e (List.mem_cons_of_mem _ he)

/-- A path only depends on what its first cell and the cells of its
nodes hold. -/
theorem Path.congr {c c' : Cell α} : ∀ {l : List α}, Path get c l → get' c' = get c →
    (∀ a ∈ l, get' (.next a) = get (.next a)) → Path get' c' l := by
  intro l
  induction l generalizing c c' with
  | nil =>
      intro h hc _
      exact hc.trans h
  | cons a l ih =>
      intro h hc hsame
      exact ⟨hc.trans h.1, ih h.2 (hsame a (List.mem_cons_self ..))
        fun b hb => hsame b (List.mem_cons_of_mem _ hb)⟩

/-- The chain up to a cell on it and from there on. -/
theorem Path.split {c d : Cell α} : ∀ {l : List α}, Path get c l →
    (d = c ∨ ∃ a ∈ l, d = .next a) → ∃ l₁ l₂, l = l₁ ++ l₂ ∧ Seg get c l₁ d ∧ Path get d l₂
      ∧ (l₁ = [] ∧ d = c ∨ ∃ l₀ a, l₁ = l₀ ++ [a] ∧ d = .next a) := by
  intro l
  induction l generalizing c with
  | nil =>
      rintro h (rfl | ⟨a, ha, -⟩)
      · exact ⟨[], [], rfl, rfl, h, .inl ⟨rfl, rfl⟩⟩
      · cases ha
  | cons b l ih =>
      rintro h (rfl | ⟨a, ha, rfl⟩)
      · exact ⟨[], b :: l, rfl, rfl, h, .inl ⟨rfl, rfl⟩⟩
      · have hd : Cell.next a = .next b ∨ ∃ x ∈ l, Cell.next a = .next x := by
          rcases List.mem_cons.mp ha with rfl | ha
          · exact .inl rfl
          · exact .inr ⟨a, ha, rfl⟩
        obtain ⟨l₁, l₂, rfl, hs, hp, hlast⟩ := ih h.2 hd
        refine ⟨b :: l₁, l₂, rfl, ⟨h.1, hs⟩, hp, .inr ?_⟩
        rcases hlast with ⟨rfl, heq⟩ | ⟨l₀, x, rfl, heq⟩
        · exact ⟨[], b, rfl, heq⟩
        · exact ⟨b :: l₀, x, rfl, heq⟩

theorem nodup_cells {l : List α} (h : l.Nodup) : (Cell.head :: l.map Cell.next).Nodup := by
  refine List.nodup_cons.mpr ⟨by simp, List.Pairwise.map Cell.next ?_ h⟩
  intro a b hne heq
  exact hne (Cell.next.inj heq)

/-- Cells behind a split point are not the split point. -/
theorem Seg.end_ne_of_mem {l₁ l₂ : List α} {d : Cell α} (hnd : (l₁ ++ l₂).Nodup)
    (h : Seg get .head l₁ d) {a : α} (ha : a ∈ l₂) : Cell.next a ≠ d := by
  rintro rfl
  cases l₁ with
  | nil => cases h
  | cons b l₁ =>
      have hmem : a ∈ b :: l₁ := by simpa using h.end_mem
      exact (List.nodup_append.mp hnd).2.2 a hmem a ha rfl

/-- Only the first cell holds the first node. -/
theorem Seg.get_ne_head {l₁ l₂ : List α} {d : Cell α} (hnd : (l₁ ++ l₂).Nodup)
    (hs : Seg get .head l₁ d) (hp : Path get d l₂) (hd : d ≠ .head) : get d ≠ get .head := by
  cases l₁ with
  | nil =>
      have hd' : Cell.head = d := hs
      exact absurd hd'.symm hd
  | cons a l₁ =>
      rw [hs.1, hp.get_eq]
      intro heq
      exact (List.nodup_append.mp hnd).2.2 a (List.mem_cons_self ..) a
        (List.mem_of_mem_head? heq) rfl

/-- Linking the node `b` in behind the cell `d`. -/
theorem Path.insert {l₁ l₂ : List α} {d : Cell α} {b : α} (hnd : (l₁ ++ l₂).Nodup)
    (hs : Seg get .head l₁ d) (hp : Path get d l₂) (hb : b ∉ l₁ ++ l₂)
    (hd : get' d = some b) (hnext : get' (.next b) = get d)
    (hsame : ∀ e, e ≠ d → e ≠ .next b → get' e = get e) :
    Path get' .head (l₁ ++ b :: l₂) := by
  rw [List.mem_append, not_or] at hb
  refine path_append.mpr ⟨d, ?_, hd, ?_⟩
  · refine hs.congr (nodup_cells (List.nodup_append.mp hnd).1) fun e he hne => hsame e hne ?_
    rintro rfl
    exact hb.1 (by simpa using he)
  · refine hp.congr hnext fun a ha => hsame _ (hs.end_ne_of_mem hnd ha) ?_
    intro heq
    obtain rfl := Cell.next.inj heq
    exact hb.2 ha

/-- Unlinking the node `a` behind the cell `d`. -/
theorem Path.remove {l₁ l₂ : List α} {d : Cell α} {a : α} (hnd : (l₁ ++ a :: l₂).Nodup)
    (hs : Seg get .head l₁ d) (hp : Path get d (a :: l₂)) (hd : get' d = get (.next a))
    (hsame : ∀ e, e ≠ d → get' e = get e) : Path get' .head (l₁ ++ l₂) := by
  refine path_append.mpr ⟨d, ?_, ?_⟩
  · exact hs.congr (nodup_cells (List.nodup_append.mp hnd).1) fun e _ hne => hsame e hne
  · exact hp.2.congr hd fun b hb =>
      hsame _ (hs.end_ne_of_mem hnd (List.mem_cons_of_mem _ hb))

end Chain
