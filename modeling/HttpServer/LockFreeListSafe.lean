import HttpServer.LockFreeListInv

/-!
# Hazard pointers of the lock-free list

A node that a thread holds is in one of its two hazard slots: the node
that contains `*prev` in `hp[1]`, the validated `cur` in `hp[0]`. A scan
reads the slots one after the other, so what protects a held node from a
scan under way is that the node is in the snapshot already or in a slot
still to be read (`Prot.covered`). Publishing and validating establish
this, because a validated node is on the chain and on no retired list.

There is one gap. When `lookupInternal` moves on, the node that becomes
the new `prev` goes from `hp[0]` to `hp[1]` by way of a local variable,
and between the two assignments it is in no slot. A scan that reads
`hp[0]` and `hp[1]` of that thread in between misses the node and
deletes it (`swapRun_unsafe`). As long as no scan reads `hp[1]` of a
thread at that point - with the node on the scanner's retired list and
not in its snapshot - no held node is deleted
(`held_not_deleted_of_no_missed_swap`).
-/

namespace HttpServer

namespace LockFreeList

open Chain

variable {T : Type}

/-! ## Slots and scans -/

def cellGuard (c : Cell Addr) : List (Addr × ℕ) := (cellNode c).map fun a => (a, 1)

def After.guards : After T → List (Addr × ℕ)
  | .loop _ prev _ => cellGuard prev
  | .done _ => []

namespace Pc

/-- The held nodes, each with the hazard slot that protects it. During
the swap the node is on its way to `hp[1]`. -/
def guards : Pc T → List (Addr × ℕ)
  | .publish _ prev _ => cellGuard prev
  | .validate _ prev _ => cellGuard prev
  | .readNext _ prev cur => cellGuard prev ++ [(cur, 0)]
  | .unlink _ prev cur _ => cellGuard prev ++ [(cur, 0)]
  | .readKey _ prev cur _ => cellGuard prev ++ [(cur, 0)]
  | .compare _ prev cur _ _ => cellGuard prev ++ [(cur, 0)]
  | .readValue _ cur => [(cur, 0)]
  | .swap1 _ cur _ => [(cur, 0)]
  | .swap2 _ cur _ _ => [(cur, 1)]
  | .retire _ after => after.guards
  | .scan _ _ after => after.guards
  | .sweep _ _ after => after.guards
  | .setNext _ _ _ prev cur => cellGuard prev ++ cur.toList.map fun a => (a, 0)
  | .casInsert _ _ _ prev cur => cellGuard prev ++ cur.toList.map fun a => (a, 0)
  | .casMark _ prev cur _ => cellGuard prev ++ [(cur, 0)]
  | .casUnlink _ prev cur _ => cellGuard prev ++ [(cur, 0)]
  | _ => []

/-- The snapshot of a scan that has read slot `k` (slots are numbered
through the threads, two each). -/
def saw : Pc T → ℕ → Option (Finset Addr)
  | .scan active pos _, k => if k < pos then some active else none
  | .sweep active _ _, _ => some active
  | _, _ => none

end Pc

theorem cellGuard_iff {c : Cell Addr} {g : Addr × ℕ} :
    g ∈ cellGuard c ↔ g.1 ∈ cellNode c ∧ g.2 = 1 := by
  cases c with
  | head => simp [cellGuard, cellNode]
  | next a =>
      obtain ⟨b, j⟩ := g
      simp [cellGuard, cellNode, eq_comm]

theorem cellGuard_nodes (c : Cell Addr) : (cellGuard c).map Prod.fst = cellNode c := by
  simp [cellGuard, Function.comp_def]

theorem After.guards_nodes (after : After T) : after.guards.map Prod.fst = after.held := by
  cases after with
  | loop c prev cur => exact cellGuard_nodes prev
  | done key => rfl

/-- The guarded nodes are the held ones. -/
theorem guards_nodes (pc : Pc T) : pc.guards.map Prod.fst = pc.held := by
  cases pc <;>
    simp [Pc.guards, Pc.held, cellGuard_nodes, After.guards_nodes, Function.comp_def]

theorem exists_guard {pc : Pc T} {a : Addr} (h : a ∈ pc.held) : ∃ j, (a, j) ∈ pc.guards := by
  rw [← guards_nodes] at h
  obtain ⟨⟨b, j⟩, hg, rfl⟩ := List.mem_map.mp h
  exact ⟨j, hg⟩

theorem held_of_guard {pc : Pc T} {g : Addr × ℕ} (hg : g ∈ pc.guards) : g.1 ∈ pc.held := by
  rw [← guards_nodes]
  exact List.mem_map_of_mem hg

/-- There are two slots. -/
theorem guard_slot_le {pc : Pc T} {g : Addr × ℕ} (hg : g ∈ pc.guards) : g.2 ≤ 1 := by
  have hcell : ∀ {c : Cell Addr}, g ∈ cellGuard c → g.2 ≤ 1 := fun hc =>
    Nat.le_of_eq (cellGuard_iff.mp hc).2
  have hafter : ∀ {after : After T}, g ∈ after.guards → g.2 ≤ 1 := by
    intro after ha
    cases after with
    | loop c prev cur => exact hcell ha
    | done key => cases ha
  have hpair : ∀ {c : Cell Addr} {l : List Addr}, g ∈ cellGuard c ++ (l.map fun a => (a, 0)) →
      g.2 ≤ 1 := by
    intro c l hm
    rcases List.mem_append.mp hm with hm | hm
    · exact hcell hm
    · obtain ⟨a, -, rfl⟩ := List.mem_map.mp hm
      exact Nat.zero_le _
  cases pc with
  | publish c prev cur => exact hcell hg
  | validate c prev cur => exact hcell hg
  | readNext c prev cur => exact hpair (l := [cur]) hg
  | unlink c prev cur next => exact hpair (l := [cur]) hg
  | readKey c prev cur next => exact hpair (l := [cur]) hg
  | compare c prev cur next curKey => exact hpair (l := [cur]) hg
  | readValue key cur => rw [List.mem_singleton.mp hg]; exact Nat.zero_le _
  | swap1 c cur next => rw [List.mem_singleton.mp hg]; exact Nat.zero_le _
  | swap2 c cur next temp => rw [List.mem_singleton.mp hg]
  | retire node after => exact hafter hg
  | scan active pos after => exact hafter hg
  | sweep active todo after => exact hafter hg
  | setNext key value node prev cur => exact hpair hg
  | casInsert key value node prev cur => exact hpair hg
  | casMark key prev cur next => exact hpair (l := [cur]) hg
  | casUnlink key prev cur next => exact hpair (l := [cur]) hg
  | idle => cases hg
  | new key value => cases hg
  | start c => cases hg
  | deleteNew key value node => cases hg
  | done op res value => cases hg

def AfterSlotOk (hp : ℕ → Option Addr) : After T → Prop
  | .loop _ prev _ => ∀ p ∈ cellNode prev, hp 1 = some p
  | .done _ => True

/-- What a thread has in its slots. -/
def SlotOk (hp : ℕ → Option Addr) : Pc T → Prop
  | .publish _ prev _ => ∀ p ∈ cellNode prev, hp 1 = some p
  | .validate _ prev cur => (∀ p ∈ cellNode prev, hp 1 = some p) ∧ hp 0 = some cur
  | .readNext _ prev cur => (∀ p ∈ cellNode prev, hp 1 = some p) ∧ hp 0 = some cur
  | .unlink _ prev cur _ => (∀ p ∈ cellNode prev, hp 1 = some p) ∧ hp 0 = some cur
  | .readKey _ prev cur _ => (∀ p ∈ cellNode prev, hp 1 = some p) ∧ hp 0 = some cur
  | .compare _ prev cur _ _ => (∀ p ∈ cellNode prev, hp 1 = some p) ∧ hp 0 = some cur
  | .readValue _ cur => hp 0 = some cur
  | .swap1 _ cur _ => hp 0 = some cur
  | .swap2 _ cur _ temp => temp = some cur
  | .retire _ after => AfterSlotOk hp after
  | .scan _ _ after => AfterSlotOk hp after
  | .sweep _ _ after => AfterSlotOk hp after
  | .setNext _ _ _ prev cur =>
      (∀ p ∈ cellNode prev, hp 1 = some p) ∧ ∀ b ∈ cur, hp 0 = some b
  | .casInsert _ _ _ prev cur =>
      (∀ p ∈ cellNode prev, hp 1 = some p) ∧ ∀ b ∈ cur, hp 0 = some b
  | .casMark _ prev cur _ => (∀ p ∈ cellNode prev, hp 1 = some p) ∧ hp 0 = some cur
  | .casUnlink _ prev cur _ => (∀ p ∈ cellNode prev, hp 1 = some p) ∧ hp 0 = some cur
  | _ => True

/-- A guarded node is in its slot, except during the swap. -/
theorem SlotOk.guard {hp : ℕ → Option Addr} {pc : Pc T} (h : SlotOk hp pc) {g : Addr × ℕ}
    (hg : g ∈ pc.guards) :
    hp g.2 = some g.1 ∨ (∃ c next temp, pc = .swap2 c g.1 next temp) ∧ g.2 = 1 := by
  obtain ⟨a, j⟩ := g
  have hcell : ∀ {c : Cell Addr}, (∀ p ∈ cellNode c, hp 1 = some p) → (a, j) ∈ cellGuard c →
      hp j = some a := by
    intro c hc hmem
    obtain ⟨ha, hj⟩ := cellGuard_iff.mp hmem
    rw [show j = 1 from hj]
    exact hc a ha
  have hpair : ∀ {c : Cell Addr} {l : List Addr}, (∀ p ∈ cellNode c, hp 1 = some p) →
      (∀ b ∈ l, hp 0 = some b) → (a, j) ∈ cellGuard c ++ (l.map fun b => (b, 0)) →
      hp j = some a := by
    intro c l hc hl hmem
    rcases List.mem_append.mp hmem with hmem | hmem
    · exact hcell hc hmem
    · obtain ⟨b, hb, heq⟩ := List.mem_map.mp hmem
      obtain ⟨rfl, rfl⟩ := Prod.mk.inj heq
      exact hl b hb
  have hafter : ∀ {after : After T}, AfterSlotOk hp after → (a, j) ∈ after.guards →
      hp j = some a := by
    intro after hc hmem
    cases after with
    | loop c prev cur => exact hcell hc hmem
    | done key => cases hmem
  have hone : ∀ {x : Addr}, hp 0 = some x → ∀ b ∈ [x], hp 0 = some b := by
    intro x hx b hb
    rw [List.mem_singleton.mp hb]
    exact hx
  cases pc with
  | publish c prev cur => exact .inl (hcell h hg)
  | validate c prev cur => exact .inl (hcell h.1 hg)
  | readNext c prev cur => exact .inl (hpair h.1 (hone h.2) hg)
  | unlink c prev cur next => exact .inl (hpair h.1 (hone h.2) hg)
  | readKey c prev cur next => exact .inl (hpair h.1 (hone h.2) hg)
  | compare c prev cur next curKey => exact .inl (hpair h.1 (hone h.2) hg)
  | readValue key cur =>
      cases List.mem_singleton.mp hg
      exact .inl h
  | swap1 c cur next =>
      cases List.mem_singleton.mp hg
      exact .inl h
  | swap2 c cur next temp =>
      cases List.mem_singleton.mp hg
      exact .inr ⟨⟨c, next, temp, rfl⟩, rfl⟩
  | retire node after => exact .inl (hafter h hg)
  | scan active pos after => exact .inl (hafter h hg)
  | sweep active todo after => exact .inl (hafter h hg)
  | setNext key value node prev cur => exact .inl (hpair h.1 (by simpa using h.2) hg)
  | casInsert key value node prev cur => exact .inl (hpair h.1 (by simpa using h.2) hg)
  | casMark key prev cur next => exact .inl (hpair h.1 (hone h.2) hg)
  | casUnlink key prev cur next => exact .inl (hpair h.1 (hone h.2) hg)
  | idle => cases hg
  | new key value => cases hg
  | start c => cases hg
  | deleteNew key value node => cases hg
  | done op res value => cases hg

section

variable {hp : ℕ → Option Addr} {c : Call T} {prev : Cell Addr} {cur : Addr} {next : Option Addr}
  {after : After T}

theorem found_saw (k : ℕ) : (found c prev cur next).saw k = none := by
  rcases c with _ | _ | _ | ⟨_, _ | _⟩ <;> rfl

theorem notFound_saw (k : ℕ) : (notFound c prev next).saw k = none := by
  cases c <;> rfl

theorem loop_saw (k : ℕ) : (loop c prev next).saw k = none := by
  cases next with
  | none => exact notFound_saw k
  | some a => rfl

theorem resume_saw (k : ℕ) : (resume after).saw k = none := by
  cases after with
  | loop c prev cur => exact loop_saw k
  | done key => rfl

theorem found_guards : ∀ g ∈ (found c prev cur next).guards, g ∈ cellGuard prev ++ [(cur, 0)] := by
  rcases c with _ | _ | _ | ⟨_, _ | _⟩ <;> simp [found, Pc.guards]

theorem notFound_guards : ∀ g ∈ (notFound c prev next).guards,
    g ∈ cellGuard prev ++ next.toList.map fun a => (a, 0) := by
  cases c <;> simp [notFound, Pc.guards]

theorem loop_guards : ∀ g ∈ (loop c prev next).guards, g ∈ cellGuard prev := by
  cases next with
  | none => exact fun g hg => by simpa using notFound_guards g hg
  | some a => exact fun _ hg => hg

theorem resume_guards : ∀ g ∈ (resume after).guards, g ∈ after.guards := by
  cases after with
  | loop c prev cur => exact loop_guards
  | done key => exact fun _ hg => hg

theorem found_slots (h1 : ∀ p ∈ cellNode prev, hp 1 = some p) (h0 : hp 0 = some cur) :
    SlotOk hp (found c prev cur next) := by
  rcases c with ⟨_, _, _⟩ | ⟨_⟩ | ⟨_⟩ | ⟨_, _ | _⟩
  · trivial
  · exact ⟨h1, h0⟩
  · trivial
  · trivial
  · exact h0

theorem notFound_slots (h1 : ∀ p ∈ cellNode prev, hp 1 = some p) (h0 : ∀ b ∈ next, hp 0 = some b) :
    SlotOk hp (notFound c prev next) := by
  cases c with
  | insert key value node => exact ⟨h1, h0⟩
  | remove key => trivial
  | help key => trivial
  | lookup key value => trivial

theorem loop_slots (h1 : ∀ p ∈ cellNode prev, hp 1 = some p) : SlotOk hp (loop c prev next) := by
  cases next with
  | none => exact notFound_slots h1 (by simp)
  | some a => exact h1

theorem resume_slots (h : AfterSlotOk hp after) : SlotOk hp (resume after) := by
  cases after with
  | loop c prev cur => exact loop_slots h
  | done key => trivial

end

/-! ## Protection -/

structure Prot (n : ℕ) (s : State T) : Prop where
  idle : ∀ t, n ≤ t → s.pc t = .idle
  slots : ∀ t, SlotOk (s.hp t) (s.pc t)
  live : ∀ t, ∀ g ∈ (s.pc t).guards, s.status g.1 = .live
  covered : ∀ t, ∀ g ∈ (s.pc t).guards, ∀ u active, (s.pc u).saw (2 * t + g.2) = some active →
    g.1 ∈ s.retired u → g.1 ∈ active

/-- The scan of `u` is about to read `hp[1]` of a thread that is between
the two assignments of its swap, with the node on its way retired by `u`
and not in the snapshot. -/
def missesSwap (s : State T) (u : Tid) : Bool :=
  match s.pc u with
  | .scan active pos _ =>
      match s.pc (pos / 2) with
      | .swap2 _ cur _ _ => pos % 2 = 1 && cur ∈ s.retired u && cur ∉ active
      | _ => false
  | _ => false

/-- Slots are read in ascending order. -/
theorem saw_of_le {pc : Pc T} {j k : ℕ} {active : Finset Addr} (hjk : j ≤ k)
    (h : pc.saw k = some active) : pc.saw j = some active := by
  cases pc with
  | scan act pos after =>
      simp only [Pc.saw] at h ⊢
      split at h
      · rw [if_pos (by omega)]
        exact h
      · cases h
  | sweep act todo after => exact h
  | _ => cases h

variable {n : ℕ} {s : State T} {t : Tid}

/-- The protection after a step of `t` to `pc`: `x` is the state but for
that. A node newly guarded is one that was guarded before, in the same
or an earlier slot, or one that is on no retired list. -/
theorem Prot.step (hP : Prot n s) (ht : t < n) {x : State T} {pc : Pc T} (hpcs : x.pc = s.pc)
    (hhp : ∀ u, u ≠ t → x.hp u = s.hp u) (hret : ∀ u, u ≠ t → x.retired u = s.retired u)
    (hslot : SlotOk (x.hp t) pc) (hlive : ∀ u, ∀ g ∈ (s.pc u).guards, x.status g.1 = .live)
    (hnew : ∀ g ∈ pc.guards, (∃ j ≤ g.2, (g.1, j) ∈ (s.pc t).guards)
      ∨ x.status g.1 = .live ∧ ∀ u, g.1 ∉ s.retired u)
    (hscan : ∀ v, ∀ g ∈ ((x.goto t pc).pc v).guards, ∀ active, pc.saw (2 * v + g.2) = some active →
      g.1 ∈ x.retired t → g.1 ∈ active) : Prot n (x.goto t pc) := by
  have hpc : ∀ {u}, u ≠ t → (x.goto t pc).pc u = s.pc u := fun hu => by
    rw [State.goto_pc_of_ne _ _ hu, hpcs]
  refine ⟨fun u hu => ?_, fun u => ?_, fun u g hg => ?_, fun v g hg u active hs hr => ?_⟩
  · rw [hpc (Nat.ne_of_gt (Nat.lt_of_lt_of_le ht hu))]
    exact hP.idle u hu
  · by_cases hu : u = t
    · subst hu
      rw [State.goto_pc_same]
      exact hslot
    · rw [hpc hu, show (x.goto t pc).hp u = s.hp u from hhp u hu]
      exact hP.slots u
  · by_cases hu : u = t
    · subst hu
      rw [State.goto_pc_same] at hg
      rcases hnew g hg with ⟨j, -, hj⟩ | ⟨hl, -⟩
      · exact hlive u (g.1, j) hj
      · exact hl
    · rw [hpc hu] at hg
      exact hlive u g hg
  · by_cases hu : u = t
    · subst hu
      rw [State.goto_pc_same] at hs
      exact hscan v g hg active hs hr
    · rw [hpc hu] at hs
      rw [show (x.goto t pc).retired u = s.retired u from hret u hu] at hr
      by_cases hv : v = t
      · subst hv
        rw [State.goto_pc_same] at hg
        rcases hnew g hg with ⟨j, hj, hold⟩ | ⟨-, hno⟩
        · exact hP.covered v (g.1, j) hold u active (saw_of_le (by omega) hs) hr
        · exact absurd hr (hno u)
      · rw [hpc hv] at hg
        exact hP.covered v g hg u active hs hr

/-- The common case: no node is deleted and `t` does not scan. -/
theorem Prot.plain (hP : Prot n s) (ht : t < n) {x : State T} {pc : Pc T} (hpcs : x.pc = s.pc)
    (hhp : ∀ u, u ≠ t → x.hp u = s.hp u) (hret : ∀ u, u ≠ t → x.retired u = s.retired u)
    (hst : ∀ a, s.status a = .live → x.status a = .live) (hslot : SlotOk (x.hp t) pc)
    (hnew : ∀ g ∈ pc.guards, ∃ j ≤ g.2, (g.1, j) ∈ (s.pc t).guards)
    (hsaw : ∀ k, pc.saw k = none) : Prot n (x.goto t pc) := by
  refine hP.step ht hpcs hhp hret hslot (fun u g hg => hst _ (hP.live u g hg))
    (fun g hg => .inl (hnew g hg)) (fun v g _ active hs => ?_)
  rw [hsaw] at hs
  cases hs

/-- It does not touch the slots and the retired lists either. -/
theorem Prot.still (hP : Prot n s) (ht : t < n) {x : State T} {pc : Pc T} (hpcs : x.pc = s.pc)
    (hhp : x.hp = s.hp) (hret : x.retired = s.retired) (hst : x.status = s.status)
    (hslot : SlotOk (s.hp t) pc) (hnew : ∀ g ∈ pc.guards, g ∈ (s.pc t).guards)
    (hsaw : ∀ k, pc.saw k = none) : Prot n (x.goto t pc) := by
  refine hP.plain ht hpcs (fun u _ => congrFun hhp u) (fun u _ => congrFun hret u) ?_ ?_ ?_ hsaw
  · intro a ha
    rw [hst]
    exact ha
  · rw [hhp]
    exact hslot
  · exact fun g hg => ⟨g.2, Nat.le_refl _, hnew g hg⟩

theorem Prot.fresh (hP : Prot n s) {a : Addr} (ha : s.status a ≠ .live) (u : Tid) :
    a ∉ (s.pc u).held := by
  intro hmem
  obtain ⟨j, hj⟩ := exists_guard hmem
  exact ha (hP.live u (a, j) hj)

/-- The guards while `t` scans are those it had before. -/
theorem guards_goto {pc : Pc T} (hg : pc.guards = (s.pc t).guards) (v : Tid) :
    ((s.goto t pc).pc v).guards = (s.pc v).guards := by
  by_cases hv : v = t
  · subst hv
    rw [State.goto_pc_same, hg]
  · rw [State.goto_pc_of_ne _ _ hv]

/-- Reading a slot: what it protects is in the snapshot afterwards. -/
theorem Prot.readSlot (hP : Prot n s) {active : Finset Addr} {pos : ℕ} {after : After T}
    (h : s.pc t = .scan active pos after) (hok : missesSwap s t = false) {v : Tid} {g : Addr × ℕ}
    (hg : g ∈ (s.pc v).guards) (hr : g.1 ∈ s.retired t) (hpos : 2 * v + g.2 < pos + 1) :
    g.1 ∈ match s.hp (pos / 2) (pos % 2) with
      | some a => insert a active
      | none => active := by
  have hmono : g.1 ∈ active → g.1 ∈ match s.hp (pos / 2) (pos % 2) with
      | some a => insert a active
      | none => active := by
    intro hmem
    split
    · exact Finset.mem_insert_of_mem hmem
    · exact hmem
  rcases Nat.lt_or_eq_of_le (Nat.le_of_lt_succ hpos) with hlt | heq
  · -- the slot was read before
    refine hmono (hP.covered v g hg t active ?_ hr)
    rw [h, Pc.saw, if_pos hlt]
  · have hle := guard_slot_le hg
    have hv : pos / 2 = v := by omega
    have hj : pos % 2 = g.2 := by omega
    rcases (hP.slots v).guard hg with hslot | ⟨⟨c, next, temp, hpc⟩, hone⟩
    · rw [hv, hj, hslot]
      exact Finset.mem_insert_self ..
    · refine hmono ?_
      by_contra hno
      simp [missesSwap, h, hv, hpc, hj, hone, hr, hno] at hok

/-- The steps of a scan that delete nothing. -/
theorem Prot.scan (hP : Prot n s) (ht : t < n) {pc : Pc T} (hguards : pc.guards = (s.pc t).guards)
    (hslot : SlotOk (s.hp t) pc)
    (hscan : ∀ v, ∀ g ∈ (s.pc v).guards, ∀ active, pc.saw (2 * v + g.2) = some active →
      g.1 ∈ s.retired t → g.1 ∈ active) : Prot n (s.goto t pc) := by
  refine hP.step ht rfl (fun _ _ => rfl) (fun _ _ => rfl) hslot hP.live (fun g hg => ?_) ?_
  · rw [hguards] at hg
    exact .inl ⟨g.2, Nat.le_refl _, hg⟩
  · intro v g hg active hs hr
    rw [guards_goto hguards] at hg
    exact hscan v g hg active hs hr

/-- A sweep deletes a node that is not in its snapshot. -/
theorem Prot.delete (hP : Prot n s) (ht : t < n) {active todo : Finset Addr} {after : After T}
    {a : Addr} (h : s.pc t = .sweep active todo after) (ha : a ∈ s.retired t) (hact : a ∉ active) :
    Prot n (((s.free a).setRetired t ((s.retired t).erase a)).goto t
      (.sweep active (todo.erase a) after)) := by
  have hslot := hP.slots t
  rw [h] at hslot
  have hsaw : ∀ k, (s.pc t).saw k = some active := fun k => by rw [h]; rfl
  have hguards : (Pc.sweep active (todo.erase a) after).guards = (s.pc t).guards := by
    rw [h]
    rfl
  refine hP.step ht rfl (fun _ _ => rfl) (fun u hu => Function.update_of_ne hu ..) hslot
    (fun u g hg => ?_) (fun g hg => .inl ⟨g.2, Nat.le_refl _, ?_⟩) (fun v g hg active' hs hr => ?_)
  · -- what is guarded is in the snapshot
    have hne : g.1 ≠ a := by
      intro heq
      exact hact (heq ▸ hP.covered u g hg t active (hsaw _) (heq ▸ ha))
    show (s.free a).status g.1 = .live
    rw [State.free_status_of_ne _ hne]
    exact hP.live u g hg
  · rw [hguards] at hg
    exact hg
  · have hg' : g ∈ (s.pc v).guards := by
      rw [← guards_goto hguards v]
      exact hg
    have hr' : g.1 ∈ (s.retired t).erase a := by
      rwa [show ((s.free a).setRetired t ((s.retired t).erase a)).retired t = _ from
        Function.update_self ..] at hr
    obtain rfl := Option.some.inj hs
    exact hP.covered v g hg' t active (hsaw _) (Finset.mem_of_mem_erase hr')

theorem Initial.prot (n : ℕ) (h : Initial s) : Prot n s := by
  refine ⟨fun t _ => h.pc t, fun t => ?_, fun t => ?_, fun t => ?_⟩
  · rw [h.pc t]
    trivial
  · simp [h.pc t, Pc.guards]
  · simp [h.pc t, Pc.guards]

section

variable [LinearOrder T] {maxRetired : ℕ} {s' : State T} {act : Act T}

theorem Prot.move (hP : Prot n s) (hI : Inv s) (ht : t < n) (hm : Move n maxRetired s t act s')
    (hok : missesSwap s t = false) : Prot n s' := by
  obtain ⟨nodes, phase, hcore, hth⟩ := hI
  have hslot := hP.slots t
  have hplain := @Prot.plain T n s t hP ht
  have hstill := @Prot.still T n s t hP ht
  have hself : ∀ g ∈ (s.pc t).guards, ∃ j ≤ g.2, (g.1, j) ∈ (s.pc t).guards :=
    fun g hg => ⟨g.2, Nat.le_refl _, hg⟩
  cases hm with
  | call op h =>
      refine hstill rfl rfl rfl rfl ?_ ?_ ?_ <;> cases op <;>
        simp [enter, SlotOk, Pc.guards, Pc.saw]
  | @alloc key value a h ha =>
      refine hplain rfl (fun _ _ => rfl) (fun _ _ => rfl) (fun b hb => ?_) trivial
        (by simp [Pc.guards]) (fun _ => rfl)
      by_cases hba : b = a
      · rw [hba]
        exact Function.update_self ..
      · exact (Function.update_of_ne hba ..).trans hb
  | start h =>
      refine hstill rfl rfl rfl rfl (loop_slots (by simp [cellNode])) ?_ loop_saw
      intro g hg
      simpa [cellGuard, cellNode] using loop_guards g hg
  | @publish c prev cur h =>
      rw [h] at hslot hself
      refine hplain rfl (fun u hu => Function.update_of_ne hu ..) (fun _ _ => rfl) (fun _ h => h) ?_
        (by rw [h]; exact hself) (fun _ => rfl)
      have hhp : (s.setHp t 0 (some cur)).hp t = Function.update (s.hp t) 0 (some cur) :=
        Function.update_self ..
      rw [hhp]
      exact ⟨fun p hp => (Function.update_of_ne (by decide) ..).trans (hslot p hp),
        Function.update_self ..⟩
  | retry h =>
      exact hstill rfl rfl rfl rfl trivial (by simp [Pc.guards]) (fun _ => rfl)
  | @validate c prev cur h hv =>
      -- the node is on the chain now, hence on no retired list
      have hheld := (hth t).held
      rw [h] at hslot hheld
      obtain ⟨-, -, hcur⟩ := hcore.valid hheld hv
      refine hP.step ht rfl (fun _ _ => rfl) (fun _ _ => rfl) hslot hP.live (fun g hg => ?_)
        (fun _ _ _ _ hs => by cases hs)
      rcases List.mem_append.mp hg with hg | hg
      · exact .inl ⟨g.2, Nat.le_refl _, by rw [h]; exact hg⟩
      · right
        rw [List.mem_singleton.mp hg]
        refine ⟨(hcore.live cur).mpr (by simp [hcur]), fun u hu => ?_⟩
        have := ((hth u).limbo cur).mpr (.inl hu)
        rw [hcur] at this
        cases this
  | readMarked h hn =>
      rw [h] at hslot
      exact hstill rfl rfl rfl rfl hslot (fun g hg => by rw [h]; exact hg) (fun _ => rfl)
  | readUnmarked h hn =>
      rw [h] at hslot
      exact hstill rfl rfl rfl rfl hslot (fun g hg => by rw [h]; exact hg) (fun _ => rfl)
  | unlink h hv =>
      rw [h] at hslot
      exact hstill rfl rfl rfl rfl hslot.1
        (fun g hg => by rw [h]; exact List.mem_append_left _ hg) (fun _ => rfl)
  | readKey h =>
      rw [h] at hslot
      exact hstill rfl rfl rfl rfl hslot (fun g hg => by rw [h]; exact hg) (fun _ => rfl)
  | found h hv =>
      rw [h] at hslot
      exact hstill rfl rfl rfl rfl (found_slots hslot.1 hslot.2)
        (fun g hg => by rw [h]; exact found_guards g hg) found_saw
  | notFound h hv hk =>
      rw [h] at hslot
      exact hstill rfl rfl rfl rfl (notFound_slots hslot.1 (by simpa using hslot.2))
        (fun g hg => by rw [h]; exact notFound_guards g hg) notFound_saw
  | advance h hv hk =>
      rw [h] at hslot
      exact hstill rfl rfl rfl rfl hslot.2
        (fun g hg => by rw [h]; exact List.mem_append_right _ hg) (fun _ => rfl)
  | readValue h =>
      exact hstill rfl rfl rfl rfl trivial (by simp [Pc.guards]) (fun _ => rfl)
  | @swap1 c cur next h =>
      -- from here on `hp[1]` is what has to be read in time
      rw [h] at hslot
      refine hplain rfl (fun u hu => Function.update_of_ne hu ..) (fun _ _ => rfl) (fun _ h => h)
        hslot (fun g hg => ?_) (fun _ => rfl)
      cases List.mem_singleton.mp hg
      exact ⟨0, Nat.zero_le _, by rw [h]; simp [Pc.guards]⟩
  | @swap2 c cur next temp h =>
      rw [h] at hslot hself
      refine hplain rfl (fun u hu => Function.update_of_ne hu ..) (fun _ _ => rfl) (fun _ h => h)
        (loop_slots ?_) (fun g hg => by rw [h]; exact hself g (loop_guards g hg)) loop_saw
      intro p hp
      have hhp : (s.setHp t 1 temp).hp t = Function.update (s.hp t) 1 temp :=
        Function.update_self ..
      rw [hhp, Function.update_self, List.mem_singleton.mp hp]
      exact hslot
  | @retireScan node after h hc =>
      rw [h] at hslot hself
      refine hP.step ht rfl (fun _ _ => rfl) (fun u hu => Function.update_of_ne hu ..) hslot hP.live
        (fun g hg => .inl (by rw [h]; exact hself g hg)) (fun v g _ active hs => ?_)
      simp [Pc.saw] at hs
  | retireOnly h hc =>
      rw [h] at hslot hself
      exact hplain rfl (fun _ _ => rfl) (fun u hu => Function.update_of_ne hu ..) (fun _ h => h)
        (resume_slots hslot) (fun g hg => by rw [h]; exact hself g (resume_guards g hg)) resume_saw
  | @scanSlot active pos after h hpos =>
      rw [h] at hslot
      refine hP.scan ht (by rw [h]; rfl) hslot (fun v g hg active' hs hr => ?_)
      rw [Pc.saw] at hs
      split at hs
      · rename_i hlt
        rw [← Option.some.inj hs]
        exact hP.readSlot h hok hg hr hlt
      · cases hs
  | @scanEnd active pos after h hpos =>
      rw [h] at hslot
      refine hP.scan ht (by rw [h]; rfl) hslot (fun v g hg active' hs hr => ?_)
      obtain rfl := Option.some.inj hs
      have hle := guard_slot_le hg
      refine hP.covered v g hg t active ?_ hr
      rcases Nat.lt_or_ge v n with hv | hv
      · rw [h, Pc.saw, if_pos (by omega)]
      · rw [hP.idle v hv] at hg
        cases hg
  | @visitActive active todo after a h ha hact =>
      rw [h] at hslot
      refine hP.scan ht (by rw [h]; rfl) hslot (fun v g hg active' hs hr => ?_)
      obtain rfl := Option.some.inj hs
      exact hP.covered v g hg t active (by rw [h]; rfl) hr
  | visitFree a h ha hact => exact hP.delete ht h ((hth t).todo (by rw [h]; exact ha)) hact
  | sweepEnd h =>
      rw [h] at hslot
      exact hstill rfl rfl rfl rfl (resume_slots hslot)
        (fun g hg => by rw [h]; exact resume_guards g hg) resume_saw
  | setNext h =>
      rw [h] at hslot
      exact hstill rfl rfl rfl rfl hslot (fun g hg => by rw [h]; exact hg) (fun _ => rfl)
  | casInsert h hv =>
      exact hstill rfl rfl rfl rfl trivial (by simp [Pc.guards]) (fun _ => rfl)
  | @deleteNew key value node h =>
      have hp : phase node = .priv t := ((hth t).priv node).mpr (by rw [h]; rfl)
      refine hP.step ht rfl (fun _ _ => rfl) (fun _ _ => rfl) trivial (fun u g hg => ?_)
        (by simp [Pc.guards]) (fun _ _ _ _ hs => by cases hs)
      have hpub := (hth u).held g.1 (held_of_guard hg)
      have hne : g.1 ≠ node := by
        intro heq
        rw [heq, hp] at hpub
        exact hpub
      rw [State.free_status_of_ne _ hne]
      exact hP.live u g hg
  | casMark h hv =>
      rw [h] at hslot
      exact hstill rfl rfl rfl rfl hslot (fun g hg => by rw [h]; exact hg) (fun _ => rfl)
  | casUnlink h hv =>
      exact hstill rfl rfl rfl rfl trivial (by simp [Pc.guards, After.guards]) (fun _ => rfl)
  | ret h =>
      exact hstill rfl rfl rfl rfl trivial (by simp [Pc.guards]) (fun _ => rfl)

/-- **Hazard-pointer safety.** In every run in which no scan reads the
second slot of a thread during its swap and so misses the node, no node
that a thread holds has been deleted. -/
theorem held_not_deleted_of_no_missed_swap
    (h : (machine T n maxRetired).ReachableBy (fun s l => missesSwap s l.1 = false) s) :
    ∀ t, ∀ a ∈ (s.pc t).held, s.status a ≠ .deleted := by
  have hinv : Inv s ∧ Prot n s := by
    refine h.invariant (I := fun s => Inv s ∧ Prot n s)
      (fun s hs => ⟨Initial.inv hs, Initial.prot n hs⟩) ?_
    rintro s ⟨t, act⟩ s' ⟨hI, hP⟩ hok hs
    obtain ⟨ht, hm⟩ := step_move hs
    refine ⟨hI.move hm fun a ha u => ?_, hP.move hI ht hm hok⟩
    subst ha
    cases hm with
    | alloc a h ha => exact hP.fresh ha u
  intro t a ha
  obtain ⟨j, hj⟩ := exists_guard ha
  rw [hinv.2.live t (a, j) hj]
  simp

end

/-! ## The gap -/

/-- An empty list in zeroed memory. -/
def emptyList : State ℕ :=
  ⟨fun _ => ⟨none, false⟩, fun _ => 0, fun _ => 0, fun _ => .fresh, fun _ _ => none, fun _ => ∅,
    fun _ => .idle⟩

theorem emptyList_initial : Initial emptyList := ⟨rfl, fun _ => rfl, fun _ => rfl, fun _ => rfl⟩

/-- Thread 1 inserts `key`, smaller than all keys there are, at the
address `key`; `ticks` instructions from `new Node` to the return. -/
def insertFirst (key ticks : ℕ) : List (Tid × Act ℕ) :=
  [(1, .call (.insert key none)), (1, .alloc key)] ++ List.replicate ticks (1, .tick) ++ [(1, .ret)]

/-- Thread 1 removes the first key. -/
def removeFirst (key : ℕ) : List (Tid × Act ℕ) :=
  (1, .call (.remove key)) :: List.replicate 9 (1, .tick) ++ [(1, .ret)]

/-- Thread 1 inserts 11 to 1; thread 0 looks up 20, gets past the first
node and stops between the two assignments of its swap. -/
def swapStart : List (Tid × Act ℕ) :=
  insertFirst 11 3 ++ (List.range 10).flatMap (fun i => insertFirst (10 - i) 8)
    ++ (0, .call (.lookup 20 false)) :: List.replicate 7 (0, .tick)

/-- Then thread 1 removes all keys. The eleventh retired node starts a
scan of the four slots, and the first node is deleted. -/
def swapRun : List (Tid × Act ℕ) :=
  swapStart ++ (List.range 10).flatMap (fun i => removeFirst (1 + i))
    ++ (1, .call (.remove 11)) :: List.replicate 14 (1, .tick) ++ [(1, .visit 1)]

theorem swapRun_unsafe : ¬∀ s, (machine ℕ 2 10).Reachable s →
    ∀ t, ∀ a ∈ (s.pc t).held, s.status a ≠ .deleted := by
  intro hsafe
  have hrun : ((machine ℕ 2 10).exec (fun _ _ => True) emptyList swapRun).any
      (fun s => (s.pc 0).held = [1] && s.status 1 = .deleted) = true := by
    decide +kernel
  obtain ⟨s, hs, hbad⟩ := Lts.ReachableBy.exec_any (.init emptyList_initial) hrun
  simp only [Bool.and_eq_true, decide_eq_true_eq] at hbad
  exact hsafe s hs 0 1 (by simp [hbad.1]) hbad.2

/-- Before the scan: the first node is retired, thread 0 still holds it,
and it is not deleted. -/
theorem swapStart_safe : ∃ s : State ℕ,
    (machine ℕ 2 10).ReachableBy (fun s l => missesSwap s l.1 = false) s
      ∧ (s.pc 0).held = [1] ∧ 1 ∈ s.retired 1 ∧ s.status 1 ≠ .deleted := by
  have hrun : ((machine ℕ 2 10).exec (fun s l => missesSwap s l.1 = false) emptyList
      (swapStart ++ removeFirst 1)).any
      (fun s => (s.pc 0).held = [1] && 1 ∈ s.retired 1) = true := by
    decide +kernel
  obtain ⟨s, hs, hheld⟩ := Lts.ReachableBy.exec_any (.init emptyList_initial) hrun
  simp only [Bool.and_eq_true, decide_eq_true_eq] at hheld
  exact ⟨s, hs, hheld.1, hheld.2, held_not_deleted_of_no_missed_swap hs 0 1 (by simp [hheld.1])⟩

end LockFreeList

end HttpServer
