import Mathlib.Algebra.BigOperators.Fin
import Mathlib.Data.Fintype.Prod
import HttpServer.Lib.Calls
import HttpServer.Lib.StdSet

/-!
# Hazard pointers

`HazardPointers` (hazard_pointers.hpp): each thread has slots for the nodes
it is using, and a list of the nodes it has retired. When a retired list
gets long its nodes that no thread is using are deleted.

A slot holds what memory held until it is first written. The nodes that
`delete` is called for are kept in order. The loop over the retired list
erases at an iterator, and has no result if it uses one that is not valid.

The results of a run are in `reclaims_exactly`. That a node is deleted once
is a matter of what is conserved: a call of `retireNode` adds the node to
the nodes that wait or are deleted, and nothing else changes them
(`ledger_step`).
-/

namespace HttpServer

/-- `numThreads` threads with `numPtrs` slots each. -/
structure HazardPointers (Node : Type*) (numThreads numPtrs : ℕ) where
  hazardPointers : Fin numThreads → Fin numPtrs → Option Node
  retiredLists : Fin numThreads → StdSet Node
  deleted : List Node

namespace HazardPointers

variable {Node : Type*} {numThreads numPtrs : ℕ}

/-- The constructor. -/
def new (hazardPointers : Fin numThreads → Fin numPtrs → Option Node) :
    HazardPointers Node numThreads numPtrs :=
  ⟨hazardPointers, fun _ => .empty, []⟩

def setRetired (h : HazardPointers Node numThreads numPtrs) (t : Fin numThreads)
    (l : StdSet Node) : HazardPointers Node numThreads numPtrs :=
  { h with retiredLists := Function.update h.retiredLists t l }

/-- `getHPRec(t)[j] = node`. -/
def setHazard (h : HazardPointers Node numThreads numPtrs) (t : Fin numThreads) (j : Fin numPtrs)
    (node : Option Node) : HazardPointers Node numThreads numPtrs :=
  { h with hazardPointers :=
      Function.update h.hazardPointers t (Function.update (h.hazardPointers t) j node) }

/-- The nodes that are deleted when the destructor has run. -/
def destroy (h : HazardPointers Node numThreads numPtrs) : List Node :=
  (List.finRange numThreads).foldl (fun deleted i => deleted ++ (h.retiredLists i).elems) h.deleted

variable [DecidableEq Node]

/-- The snapshot of the nodes in use. -/
def activeList (h : HazardPointers Node numThreads numPtrs) : Finset Node :=
  (List.finRange numThreads).foldl (fun active i =>
    (List.finRange numPtrs).foldl (fun active j =>
      match h.hazardPointers i j with
      | some node => insert node active
      | none => active) active) ∅

/-- What the loop of `maybeFreeNodes` changes. -/
structure Scan (Node : Type*) where
  retired : StdSet Node
  deleted : List Node
  reclaimed : ℕ

/-- The loop from the iterator `it` on. -/
def freeLoop (active : Finset Node) : ℕ → Option Node → Scan Node → Option (Scan Node)
  | _, none, s => some s
  | 0, some _, _ => none
  | n + 1, some it, s => do
      let node ← s.retired.deref it
      -- the iterator has moved on when the element is erased
      let next ← s.retired.next it
      if node ∉ active then
        freeLoop active n next ⟨s.retired.erase it, s.deleted ++ [node], s.reclaimed + 1⟩
      else freeLoop active n next s

def maybeFreeNodes (h : HazardPointers Node numThreads numPtrs) (t : Fin numThreads) :
    Option (HazardPointers Node numThreads numPtrs × ℕ) := do
  let l := h.retiredLists t
  let s ← freeLoop h.activeList l.size l.begin ⟨l, h.deleted, 0⟩
  some ({ h.setRetired t s.retired with deleted := s.deleted }, s.reclaimed)

/-- `maxRetired` is `MAX_RETIRED_NODES_PER_THREAD`, and `order` the order of
the retired list after the insertion. -/
def retireNode (maxRetired : ℕ) (h : HazardPointers Node numThreads numPtrs) (t : Fin numThreads)
    (node : Node) (order : List Node) :
    Option (HazardPointers Node numThreads numPtrs × ℕ) := do
  let l ← (h.retiredLists t).insert node order
  let h := h.setRetired t l
  if (h.retiredLists t).size > maxRetired then h.maybeFreeNodes t else some (h, 0)

inductive Call (Node : Type*) (numThreads numPtrs : ℕ) where
  | setHazard (t : Fin numThreads) (j : Fin numPtrs) (node : Option Node)
  | retireNode (t : Fin numThreads) (node : Node) (order : List Node)
  | maybeFreeNodes (t : Fin numThreads)

/-- The node that a call retires. -/
def Call.retired : Call Node numThreads numPtrs → List Node
  | .retireNode _ node _ => [node]
  | _ => []

/-- A call, and what it returns. -/
def step (maxRetired : ℕ) (h : HazardPointers Node numThreads numPtrs) :
    Call Node numThreads numPtrs → Option (HazardPointers Node numThreads numPtrs × ℕ)
  | .setHazard t j node => some (h.setHazard t j node, 0)
  | .retireNode t node order => h.retireNode maxRetired t node order
  | .maybeFreeNodes t => h.maybeFreeNodes t

variable {h h' : HazardPointers Node numThreads numPtrs} {t : Fin numThreads}
  {maxRetired : ℕ} {l : StdSet Node} {node : Node} {order : List Node} {reclaimed : ℕ}

/-! ## The snapshot -/

/-- A slot holds the node. -/
def Hazard (h : HazardPointers Node numThreads numPtrs) (node : Node) : Prop :=
  ∃ i j, h.hazardPointers i j = some node

omit [DecidableEq Node] in
/-- A fold that adds to a set what each element gives. -/
theorem mem_foldl {ι : Type*} {f : Finset Node → ι → Finset Node} {P : ι → Prop}
    (hf : ∀ active i, node ∈ f active i ↔ node ∈ active ∨ P i) :
    ∀ (is : List ι) (active : Finset Node),
      node ∈ is.foldl f active ↔ node ∈ active ∨ ∃ i ∈ is, P i := by
  intro is
  induction is with
  | nil => simp
  | cons i is ih =>
      intro active
      rw [List.foldl_cons, ih, hf, or_assoc, List.exists_mem_cons_iff]

theorem mem_activeList : node ∈ h.activeList ↔ h.Hazard node := by
  have hslot : ∀ i (active : Finset Node) (j : Fin numPtrs),
      (node ∈ match h.hazardPointers i j with
        | some node => insert node active
        | none => active) ↔ node ∈ active ∨ h.hazardPointers i j = some node := by
    intro i active j
    cases h.hazardPointers i j with
    | none => simp
    | some a => simp [or_comm, eq_comm]
  rw [activeList, mem_foldl (fun active i => mem_foldl (hslot i) _ active)]
  simp [Hazard]

theorem card_activeList_le : h.activeList.card ≤ numThreads * numPtrs := by
  have hsub : h.activeList.map .some
      ⊆ Finset.univ.image fun p : Fin numThreads × Fin numPtrs => h.hazardPointers p.1 p.2 := by
    intro p hp
    obtain ⟨node, hnode, rfl⟩ := Finset.mem_map.mp hp
    obtain ⟨i, j, hij⟩ := mem_activeList.mp hnode
    exact Finset.mem_image.mpr ⟨(i, j), Finset.mem_univ _, hij⟩
  calc h.activeList.card = (h.activeList.map .some).card := (Finset.card_map _).symm
    _ ≤ _ := Finset.card_le_card hsub
    _ ≤ (Finset.univ : Finset (Fin numThreads × Fin numPtrs)).card := Finset.card_image_le
    _ = numThreads * numPtrs := by simp

/-! ## The loop -/

/-- From an iterator on the loop goes to the end, and splits what is left of
the list. -/
theorem freeLoop_spec (active : Finset Node) : ∀ (rest pre : List Node) (n : ℕ) (s : Scan Node),
    s.retired.elems = pre ++ rest → rest.length ≤ n →
    ∃ s', freeLoop active n rest.head? s = some s'
      ∧ s'.retired.elems = pre ++ rest.filter (· ∈ active)
      ∧ s'.deleted = s.deleted ++ rest.filter (· ∉ active)
      ∧ s'.reclaimed = s.reclaimed + (rest.filter (· ∉ active)).length := by
  intro rest
  induction rest with
  | nil =>
      intro pre n s helems _
      refine ⟨s, ?_, by simpa using helems, by simp, by simp⟩
      cases n <;> rfl
  | cons node rest ih =>
      intro pre n s helems hn
      obtain ⟨n, rfl⟩ : ∃ m, n = m + 1 := ⟨n - 1, by simp only [List.length_cons] at hn; omega⟩
      have hn : rest.length ≤ n := Nat.le_of_succ_le_succ hn
      have hderef := StdSet.deref_of_elems helems
      have hnext := StdSet.next_of_elems helems
      rw [List.head?_cons, freeLoop]
      simp only [hderef, hnext, Option.bind_eq_bind, Option.bind_some]
      by_cases hactive : node ∈ active
      · rw [if_neg (not_not.mpr hactive)]
        obtain ⟨s', hloop, hretired, hdeleted, hreclaimed⟩ :=
          ih (pre ++ [node]) n s (by simpa using helems) hn
        refine ⟨s', hloop, ?_, ?_, ?_⟩
        · simpa [hactive] using hretired
        · simpa [hactive] using hdeleted
        · simpa [hactive] using hreclaimed
      · rw [if_pos hactive]
        obtain ⟨s', hloop, hretired, hdeleted, hreclaimed⟩ :=
          ih pre n ⟨s.retired.erase node, s.deleted ++ [node], s.reclaimed + 1⟩
            (StdSet.erase_of_elems helems) hn
        refine ⟨s', hloop, ?_, ?_, ?_⟩
        · simpa [hactive] using hretired
        · simpa [hactive] using hdeleted
        · simpa [hactive, Nat.add_assoc, Nat.add_comm 1] using hreclaimed

/-! ## One call -/

/-- What `maybeFreeNodes(t)` does. -/
structure Reclaims (h : HazardPointers Node numThreads numPtrs) (t : Fin numThreads)
    (h' : HazardPointers Node numThreads numPtrs) (reclaimed : ℕ) : Prop where
  deletes : ∃ gone : List Node, gone.Nodup
    ∧ (∀ node, node ∈ gone ↔ node ∈ h.retiredLists t ∧ ¬h.Hazard node)
    ∧ h'.deleted = h.deleted ++ gone ∧ reclaimed = gone.length
  keeps : ∀ node, node ∈ h'.retiredLists t ↔ node ∈ h.retiredLists t ∧ h.Hazard node
  others : ∀ u ≠ t, h'.retiredLists u = h.retiredLists u
  hazards : h'.hazardPointers = h.hazardPointers

/-- The nodes that are deleted, or wait in a list. -/
def ledger (h : HazardPointers Node numThreads numPtrs) : Multiset Node :=
  h.deleted + ∑ i, ((h.retiredLists i).elems : Multiset Node)

omit [DecidableEq Node] in
/-- A call for the thread `t` changes the ledger by what it changes there. -/
theorem ledger_add (hothers : ∀ u ≠ t, h'.retiredLists u = h.retiredLists u) :
    h'.ledger + (h.deleted + (h.retiredLists t).elems)
      = h.ledger + (h'.deleted + (h'.retiredLists t).elems) := by
  have hsum : ∀ h : HazardPointers Node numThreads numPtrs, h.ledger
      = h.deleted + (h.retiredLists t).elems
        + ∑ i ∈ Finset.univ.erase t, ((h.retiredLists i).elems : Multiset Node) := by
    intro h
    rw [ledger, ← Finset.add_sum_erase _ _ (Finset.mem_univ t), add_assoc]
  have hrest : ∑ i ∈ Finset.univ.erase t, ((h'.retiredLists i).elems : Multiset Node)
      = ∑ i ∈ Finset.univ.erase t, ((h.retiredLists i).elems : Multiset Node) :=
    Finset.sum_congr rfl fun u hu => by rw [hothers u (Finset.ne_of_mem_erase hu)]
  rw [hsum h', hsum h, hrest]
  ac_rfl

theorem maybeFreeNodes_spec (h : HazardPointers Node numThreads numPtrs) (t : Fin numThreads) :
    ∃ h' reclaimed, h.maybeFreeNodes t = some (h', reclaimed) ∧ Reclaims h t h' reclaimed
      ∧ h'.ledger = h.ledger := by
  obtain ⟨s, hloop, hretired, hdeleted, hreclaimed⟩ := freeLoop_spec h.activeList
    (h.retiredLists t).elems [] (h.retiredLists t).size ⟨h.retiredLists t, h.deleted, 0⟩ rfl
    (Nat.le_refl _)
  rw [List.nil_append] at hretired
  rw [Nat.zero_add] at hreclaimed
  set h₁ : HazardPointers Node numThreads numPtrs :=
    { h.setRetired t s.retired with deleted := s.deleted } with hh₁
  have hself : h₁.retiredLists t = s.retired := Function.update_self ..
  have hothers : ∀ u ≠ t, h₁.retiredLists u = h.retiredLists u :=
    fun u hu => Function.update_of_ne hu ..
  refine ⟨h₁, s.reclaimed, ?_, ?_, ?_⟩
  · rw [maybeFreeNodes, StdSet.begin, hloop]
    rfl
  · refine ⟨⟨_, (h.retiredLists t).nodup.filter _, fun node => ?_, hdeleted, hreclaimed⟩,
      fun node => ?_, hothers, rfl⟩
    · rw [List.mem_filter, decide_eq_true_iff, mem_activeList, StdSet.mem_def]
    · rw [StdSet.mem_def, hself, hretired, List.mem_filter, decide_eq_true_iff, mem_activeList,
        StdSet.mem_def]
  · have hsame : ((h₁.deleted : Multiset Node) + (h₁.retiredLists t).elems)
        = h.deleted + (h.retiredLists t).elems := by
      have hperm := List.filter_append_perm (· ∈ h.activeList) (h.retiredLists t).elems
      simp only [← decide_not] at hperm
      rw [hself, hretired, show h₁.deleted = _ from hdeleted, ← Multiset.coe_add, add_assoc,
        add_comm (Multiset.ofList (List.filter _ _)), Multiset.coe_add,
        Multiset.coe_eq_coe.mpr hperm]
    have hadd := ledger_add hothers
    rw [hsame] at hadd
    exact add_right_cancel hadd

theorem Reclaims.size_le (hr : Reclaims h t h' reclaimed) :
    (h'.retiredLists t).size ≤ numThreads * numPtrs := by
  have hsub : (h'.retiredLists t).elems.toFinset ⊆ h.activeList := by
    intro node hnode
    exact mem_activeList.mpr ((hr.keeps node).mp (List.mem_toFinset.mp hnode)).2
  calc (h'.retiredLists t).size = (h'.retiredLists t).elems.toFinset.card :=
        (List.toFinset_card_of_nodup (h'.retiredLists t).nodup).symm
    _ ≤ h.activeList.card := Finset.card_le_card hsub
    _ ≤ numThreads * numPtrs := card_activeList_le

theorem ledger_insert (hl : (h.retiredLists t).insert node order = some l)
    (hnode : node ∉ h.retiredLists t) : (h.setRetired t l).ledger = h.ledger + {node} := by
  have hself : (h.setRetired t l).retiredLists t = l := Function.update_self ..
  have hothers : ∀ u ≠ t, (h.setRetired t l).retiredLists u = h.retiredLists u :=
    fun u hu => Function.update_of_ne hu ..
  have hcancel : (h.setRetired t l).ledger + (h.deleted + (h.retiredLists t).elems)
      = h.ledger + {node} + (h.deleted + (h.retiredLists t).elems) :=
    calc (h.setRetired t l).ledger + (h.deleted + (h.retiredLists t).elems)
        = h.ledger + (h.deleted + l.elems) := by
          rw [ledger_add hothers, hself]
          rfl
      _ = h.ledger + (h.deleted + ({node} + (h.retiredLists t).elems)) := by
        rw [Multiset.coe_eq_coe.mpr (StdSet.perm_of_insert hl hnode), ← Multiset.cons_coe,
          ← Multiset.singleton_add]
      _ = h.ledger + {node} + (h.deleted + (h.retiredLists t).elems) := by ac_rfl
  exact add_right_cancel hcancel

/-- The node joins the list, and a list that has become too long is
reclaimed. -/
theorem retireNode_spec (maxRetired : ℕ) (hl : (h.retiredLists t).insert node order = some l) :
    ∃ h' reclaimed, h.retireNode maxRetired t node order = some (h', reclaimed)
      ∧ (if l.size > maxRetired then Reclaims (h.setRetired t l) t h' reclaimed
        else h' = h.setRetired t l ∧ reclaimed = 0)
      ∧ (h'.retiredLists t).size ≤ max maxRetired (numThreads * numPtrs)
      ∧ (node ∉ h.retiredLists t → h'.ledger = h.ledger + {node}) := by
  have hself : (h.setRetired t l).retiredLists t = l := Function.update_self ..
  simp only [retireNode, hl, Option.bind_eq_bind, Option.bind_some, hself]
  split_ifs with hsize
  · obtain ⟨h', reclaimed, hfree, hr, hledger⟩ := maybeFreeNodes_spec (h.setRetired t l) t
    exact ⟨h', reclaimed, hfree, hr, hr.size_le.trans (le_max_right ..),
      fun hnode => hledger.trans (ledger_insert hl hnode)⟩
  · refine ⟨_, 0, rfl, ⟨rfl, rfl⟩, ?_, ledger_insert hl⟩
    rw [hself]
    exact (not_lt.mp hsize).trans (le_max_left ..)

/-- A node that no thread has waiting is retired, or none is. -/
theorem ledger_step {c : Call Node numThreads numPtrs}
    (hstep : step maxRetired h c = some (h', reclaimed))
    (hc : ∀ t, ∀ node ∈ c.retired, node ∉ h.retiredLists t) :
    h'.ledger = h.ledger + c.retired := by
  cases c with
  | setHazard t j node =>
      obtain ⟨rfl, -⟩ := Prod.mk.inj (Option.some.inj hstep)
      exact (add_zero _).symm
  | maybeFreeNodes t =>
      obtain ⟨h₁, r, hfree, -, hledger⟩ := maybeFreeNodes_spec h t
      obtain ⟨rfl, -⟩ := Prod.mk.inj (Option.some.inj (hfree.symm.trans hstep))
      exact hledger.trans (add_zero _).symm
  | retireNode t node order =>
      rw [step] at hstep
      obtain ⟨l, hl, -⟩ := Option.bind_eq_some_iff.mp hstep
      obtain ⟨h₁, r, hretire, -, -, hledger⟩ := retireNode_spec maxRetired hl
      obtain ⟨rfl, -⟩ := Prod.mk.inj (Option.some.inj (hretire.symm.trans hstep))
      exact hledger (hc t node (List.mem_singleton_self node))

/-! ## Runs -/

omit [DecidableEq Node] in
theorem mem_ledger (h : HazardPointers Node numThreads numPtrs) (t : Fin numThreads)
    (hnode : node ∈ h.retiredLists t) : node ∈ h.ledger := by
  rw [ledger, Multiset.mem_add, Multiset.mem_sum]
  exact .inr ⟨t, Finset.mem_univ t, hnode⟩

omit [DecidableEq Node] in
theorem coe_destroy (h : HazardPointers Node numThreads numPtrs) :
    (h.destroy : Multiset Node) = h.ledger := by
  have hfold : ∀ (is : List (Fin numThreads)) (deleted : List Node),
      ((is.foldl (fun deleted i => deleted ++ (h.retiredLists i).elems) deleted : List Node)
          : Multiset Node)
        = deleted + (is.map fun i => ((h.retiredLists i).elems : Multiset Node)).sum := by
    intro is
    induction is with
    | nil => simp
    | cons i is ih =>
        intro deleted
        rw [List.foldl_cons, ih, ← Multiset.coe_add, List.map_cons, List.sum_cons, add_assoc]
  rw [destroy, hfold, ledger, Fin.sum_univ_def]

/-- The calls of a run in which no node is retired twice. -/
theorem ledger_run : ∀ {cs : List (Call Node numThreads numPtrs)}
    {h : HazardPointers Node numThreads numPtrs} {as : List ℕ},
    Calls.run (step maxRetired) h cs = some (h', as) →
    (h.ledger + (cs.flatMap Call.retired : List Node)).Nodup →
    h'.ledger = h.ledger + (cs.flatMap Call.retired : List Node) := by
  intro cs
  induction cs with
  | nil =>
      intro h as hrun _
      obtain ⟨rfl, -⟩ := Prod.mk.inj (Option.some.inj hrun)
      exact (add_zero _).symm
  | cons c cs ih =>
      intro h as hrun hnodup
      obtain ⟨h₁, a, as', hstep, hrun'⟩ := Calls.of_run_cons hrun
      rw [List.flatMap_cons, ← Multiset.coe_add, ← add_assoc] at hnodup ⊢
      have hdisj := (Multiset.nodup_add.mp (Multiset.nodup_add.mp hnodup).1).2.2
      have hledger : h₁.ledger = h.ledger + c.retired := by
        refine ledger_step hstep fun t node hnode hmem => ?_
        exact Multiset.disjoint_left.mp hdisj (mem_ledger h t hmem) hnode
      rw [← hledger] at hnodup ⊢
      exact ih hrun' hnodup

/-- Reclamation is exact and bounded, also where `retireNode` calls
`maybeFreeNodes`. -/
theorem reclaims_exactly (maxRetired : ℕ)
    (hazardPointers : Fin numThreads → Fin numPtrs → Option Node)
    (cs : List (Call Node numThreads numPtrs)) (h : HazardPointers Node numThreads numPtrs)
    (as : List ℕ) (hrun : Calls.run (step maxRetired) (new hazardPointers) cs = some (h, as))
    (honce : (cs.flatMap Call.retired).Nodup) :
    (∀ t, ∃ h' reclaimed, h.maybeFreeNodes t = some (h', reclaimed) ∧ Reclaims h t h' reclaimed)
    ∧ (∀ t node order,
        node ∈ h.retiredLists t ∨ order.Perm (node :: (h.retiredLists t).elems) →
        ∃ l h' reclaimed, (∀ a, a ∈ l ↔ a = node ∨ a ∈ h.retiredLists t)
          ∧ h.retireNode maxRetired t node order = some (h', reclaimed)
          ∧ (if l.size > maxRetired then Reclaims (h.setRetired t l) t h' reclaimed
            else h' = h.setRetired t l ∧ reclaimed = 0)
          ∧ (h'.retiredLists t).size ≤ max maxRetired (numThreads * numPtrs))
    ∧ ∀ node, h.destroy.count node = if node ∈ cs.flatMap Call.retired then 1 else 0 := by
  refine ⟨fun t => ?_, fun t node order horder => ?_, fun node => ?_⟩
  · obtain ⟨h', reclaimed, hfree, hr, -⟩ := maybeFreeNodes_spec h t
    exact ⟨h', reclaimed, hfree, hr⟩
  · obtain ⟨l, hl⟩ := StdSet.exists_insert horder
    obtain ⟨h', reclaimed, hretire, hreclaims, hsize, -⟩ := retireNode_spec maxRetired hl
    exact ⟨l, h', reclaimed, fun _ => StdSet.mem_insert hl, hretire, hreclaims, hsize⟩
  · have hnew : (new hazardPointers).ledger = 0 := by
      simp [ledger, new, StdSet.empty]
    have hledger := ledger_run hrun (by rwa [hnew, zero_add, Multiset.coe_nodup])
    rw [hnew, zero_add, ← coe_destroy] at hledger
    rw [(Multiset.coe_eq_coe.mp hledger).count_eq, honce.count]

/-- A node that thread 1 uses while thread 0 retires it, and not afterwards. -/
theorem usedNode_reclaimed : ∃ (h : HazardPointers ℕ 2 1) (as : List ℕ),
    Calls.run (step 0) (new fun _ _ => none)
      [.setHazard 1 0 (some 7), .retireNode 0 7 [7], .setHazard 1 0 none] = some (h, as)
    ∧ ∃ h' reclaimed, h.maybeFreeNodes 0 = some (h', reclaimed) ∧ Reclaims h 0 h' reclaimed :=
  ⟨_, _, rfl, (reclaims_exactly 0 (fun _ _ => none)
    [.setHazard 1 0 (some 7), .retireNode 0 7 [7], .setHazard 1 0 none] _ _ rfl (by decide)).1 0⟩

end HazardPointers

end HttpServer
