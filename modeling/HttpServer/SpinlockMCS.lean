import Mathlib.Data.List.Nodup
import Mathlib.Logic.Function.Basic
import Mathlib.Logic.Relation
import HttpServer.Lib.Lts

/-!
# The MCS lock

`SpinlockMCS::lock` and `unlock` (spinlock_mcs.hpp). Every thread has a
node of its own, so a node is named by its thread. Each load and store
of `tail_` and of a node's fields is one step, and so is each
compare-and-swap; the turns of a waiting loop are steps that change
nothing.

`lock` means to swap its node into `tail_`, with a compare-and-swap
whose expected value is a load of `tail_` just before. When `tail_`
changes in between, the compare-and-swap stores nothing and still
returns what it found, which `lock` takes for its predecessor
(`missesTail`). As long as that does not happen, the threads from
`tail_` back to the owner form a queue in which each thread but the
first is linked by its predecessor, from its store to
`predecessor->next` on (`Queue`).
-/

namespace HttpServer

namespace SpinlockMCS

abbrev Tid := ℕ

/-- What a thread does next. -/
inductive Pc where
  | out
  /-- `my_node->next = NULL`. -/
  | initNext
  /-- The load of `tail_`. -/
  | readTail
  /-- The compare-and-swap of `lock`. -/
  | casTail (expected : Option Tid)
  /-- `my_node->locked = true`. -/
  | setLocked (predecessor : Tid)
  /-- `predecessor->next = my_node`. -/
  | setNext (predecessor : Tid)
  /-- `while (my_node->locked)`. -/
  | spin
  /-- Between the return of `lock` and the start of `unlock`. -/
  | locked
  /-- `if (my_node->next == NULL)`. -/
  | testNext
  /-- The compare-and-swap of `unlock`. -/
  | casNull
  /-- `while (my_node->next == NULL)`. -/
  | waitNext
  /-- The load of `my_node->next` in the last statement. -/
  | readNext
  /-- Its store. -/
  | clear (successor : Tid)
deriving DecidableEq, Repr

structure State where
  tail : Option Tid
  next : Tid → Option Tid
  locked : Tid → Bool
  pc : Tid → Pc

namespace State

def goto (s : State) (t : Tid) (pc : Pc) : State := { s with pc := Function.update s.pc t pc }

def setNext (s : State) (t : Tid) (p : Option Tid) : State :=
  { s with next := Function.update s.next t p }

def setLocked (s : State) (t : Tid) (b : Bool) : State :=
  { s with locked := Function.update s.locked t b }

end State

/-- What the compare-and-swap of `lock` stores. -/
def State.swapTail (s : State) (t : Tid) (expected : Option Tid) : State :=
  if s.tail = expected then { s with tail := some t } else s

/-- The next step of the thread `t`; from `out` it calls `lock`, and when
it is done with its critical section it calls `unlock`. -/
def step (s : State) (t : Tid) : Option State :=
  match s.pc t with
  | .out => some (s.goto t .initNext)
  | .initNext => some ((s.setNext t none).goto t .readTail)
  | .readTail => some (s.goto t (.casTail s.tail))
  | .casTail expected =>
      match s.tail with
      | none => some ((s.swapTail t expected).goto t .locked)
      | some predecessor => some ((s.swapTail t expected).goto t (.setLocked predecessor))
  | .setLocked predecessor => some ((s.setLocked t true).goto t (.setNext predecessor))
  | .setNext predecessor => some ((s.setNext predecessor (some t)).goto t .spin)
  | .spin => if s.locked t then some s else some (s.goto t .locked)
  | .locked => some (s.goto t .testNext)
  | .testNext => some (s.goto t (if s.next t = none then .casNull else .readNext))
  | .casNull =>
      if s.tail = some t then some ({ s with tail := none }.goto t .out)
      else some (s.goto t .waitNext)
  | .waitNext => if s.next t = none then some s else some (s.goto t .readNext)
  | .readNext => (s.next t).map fun successor => s.goto t (.clear successor)
  | .clear successor => some ((s.setLocked successor false).goto t .out)

structure Initial (s : State) : Prop where
  tail : s.tail = none
  pc : ∀ t, s.pc t = .out

def machine : Lts State Tid := ⟨Initial, step⟩

/-- The compare-and-swap of `lock` finds another `tail_` than the load
before it. -/
def missesTail (s : State) (t : Tid) : Bool :=
  match s.pc t with
  | .casTail expected => s.tail ≠ expected
  | _ => false

/-! ## The queue -/

/-- The thread is in the queue: from its compare-and-swap in `lock` to
the last store of `unlock`. -/
def Pc.queued : Pc → Bool
  | .out => false
  | .initNext => false
  | .readTail => false
  | .casTail _ => false
  | _ => true

/-- `t` is behind `p` in the queue. -/
def Behind (s : State) (p t : Tid) : Prop :=
  (s.pc t = .setLocked p ∧ s.next p = none)
    ∨ (s.pc t = .setNext p ∧ s.next p = none ∧ s.locked t = true)
    ∨ (s.pc t = .spin ∧ s.next p = some t ∧ s.locked t = true)

/-- The threads `l` wait behind `p`. -/
def Waits (s : State) : Tid → List Tid → Prop
  | p, [] => s.next p = none
  | p, t :: l => Behind s p t ∧ Waits s t l

/-- The first of the queue owns the lock, is about to see that, or hands
it on. -/
def Owns (s : State) (t : Tid) : Prop :=
  match s.pc t with
  | .spin => s.locked t = false
  | .locked => True
  | .testNext => True
  | .casNull => True
  | .waitNext => True
  | .readNext => s.next t ≠ none
  | .clear successor => s.next t = some successor
  | _ => False

structure Queue (s : State) (q : List Tid) : Prop where
  nodup : q.Nodup
  tail : s.tail = q.getLast?
  mem : ∀ t, t ∈ q ↔ (s.pc t).queued = true
  order : ∀ h l, q = h :: l → Owns s h ∧ Waits s h l
  /-- The nodes that are about to enter the queue. -/
  fresh : ∀ t, s.pc t = .readTail ∨ (∃ e, s.pc t = .casTail e) → s.next t = none

section

variable {s s' : State} {q l : List Tid} {p t u : Tid}

theorem Initial.queue (h : Initial s) : Queue s [] := by
  refine ⟨List.nodup_nil, h.tail, ?_, ?_, ?_⟩
  · intro t
    rw [h.pc t]
    simp [Pc.queued]
  · intro x l hq
    cases hq
  · intro t ht
    rw [h.pc t] at ht
    simp at ht

theorem goto_pc_self (s : State) (t : Tid) (x : Pc) : (s.goto t x).pc t = x :=
  Function.update_self ..

theorem goto_pc_of_ne (s : State) (x : Pc) (h : u ≠ t) : (s.goto t x).pc u = s.pc u :=
  Function.update_of_ne h ..

theorem Behind.congr (h : Behind s p t) (hpc : s'.pc t = s.pc t) (hn : s'.next p = s.next p)
    (hl : s'.locked t = s.locked t) : Behind s' p t := by
  rw [Behind, hpc, hn, hl]
  exact h

/-- Only the fields of the nodes in the queue matter. -/
theorem Waits.congr : ∀ {l : List Tid} {p : Tid}, Waits s p l →
    (∀ u ∈ p :: l, s'.next u = s.next u) →
    (∀ u ∈ l, s'.pc u = s.pc u ∧ s'.locked u = s.locked u) → Waits s' p l := by
  intro l
  induction l with
  | nil =>
      intro p h hn _
      exact (hn p (List.mem_cons_self ..)).trans h
  | cons t l ih =>
      intro p h hn hu
      obtain ⟨hpc, hl⟩ := hu t (List.mem_cons_self ..)
      exact ⟨h.1.congr hpc (hn p (List.mem_cons_self ..)) hl,
        ih h.2 (fun u hu => hn u (List.mem_cons_of_mem _ hu))
          fun u hu' => hu u (List.mem_cons_of_mem _ hu')⟩

/-- Where the threads are that wait. -/
theorem Waits.pc_of_mem : ∀ {l : List Tid} {p : Tid}, Waits s p l → t ∈ l →
    ∃ x ∈ p :: l, Behind s x t := by
  intro l
  induction l with
  | nil =>
      intro p _ ht
      cases ht
  | cons u l ih =>
      intro p h ht
      rcases List.mem_cons.mp ht with rfl | ht
      · exact ⟨p, List.mem_cons_self .., h.1⟩
      · obtain ⟨x, hx, hb⟩ := ih h.2 ht
        exact ⟨x, List.mem_cons_of_mem _ hx, hb⟩

theorem Owns.congr (h : Owns s t) (hpc : s'.pc t = s.pc t) (hn : s'.next t = s.next t)
    (hl : s'.locked t = s.locked t) : Owns s' t := by
  rw [Owns, hpc, hn, hl]
  exact h

/-- The first thread gets a successor. -/
theorem Owns.setNext (h : Owns s p) (hn : s.next p = none) (hpc : s'.pc p = s.pc p)
    (hn' : s'.next p = some t) (hl : s'.locked p = s.locked p) : Owns s' p := by
  rw [Owns] at h ⊢
  rw [hpc, hn', hl]
  cases hp : s.pc p with
  | readNext => nofun
  | clear v =>
      rw [hp] at h
      exact absurd (hn.symm.trans h) (by simp)
  | _ =>
      rw [hp] at h
      exact h

theorem Waits.next_of_setNext (h : Waits s u l) (ht : t ∈ l) (hpc : s.pc t = .setNext p) :
    s.next p = none := by
  obtain ⟨x, -, hb⟩ := h.pc_of_mem ht
  rcases hb with ⟨hb, -⟩ | ⟨hb, hn, -⟩ | ⟨hb, -⟩
  · rw [hpc] at hb
    cases hb
  · obtain rfl := Pc.setNext.inj (hpc.symm.trans hb)
    exact hn
  · rw [hpc] at hb
    cases hb

/-- A thread that waits behind nobody is the first. -/
theorem Queue.first (h : Queue s q) (hq : (s.pc t).queued = true) (hno : ∀ x, ¬Behind s x t) :
    ∃ l, q = t :: l := by
  have hmem := (h.mem t).mpr hq
  cases q with
  | nil => cases hmem
  | cons x l =>
      rcases List.mem_cons.mp hmem with rfl | ht
      · exact ⟨l, rfl⟩
      · obtain ⟨y, -, hb⟩ := (h.order x l rfl).2.pc_of_mem ht
        exact absurd hb (hno y)

/-- A thread that does not own the lock is not the first. -/
theorem Queue.waiter (h : Queue s q) (hq : (s.pc t).queued = true) (hno : ¬Owns s t) :
    ∃ x l, q = x :: l ∧ t ∈ l := by
  have hmem := (h.mem t).mpr hq
  cases q with
  | nil => cases hmem
  | cons x l =>
      rcases List.mem_cons.mp hmem with rfl | ht
      · exact absurd (h.order t l rfl).1 hno
      · exact ⟨x, l, rfl, ht⟩

/-- Who is in the queue, after a step of `t` that neither enters nor
leaves it. -/
theorem Queue.mem_goto (h : Queue s q) {x : Pc} (hpc : s'.pc = Function.update s.pc t x)
    (hx : x.queued = (s.pc t).queued) (u : Tid) : u ∈ q ↔ (s'.pc u).queued = true := by
  rw [h.mem u, hpc]
  by_cases hut : u = t
  · rw [hut, Function.update_self, hx]
  · rw [Function.update_of_ne hut]

theorem Queue.fresh_goto (h : Queue s q) {x : Pc} (hpc : s'.pc = Function.update s.pc t x)
    (hnext : ∀ u, u ≠ t → (s.pc u).queued = false → s'.next u = s.next u)
    (hx : x = .readTail ∨ (∃ e, x = .casTail e) → s'.next t = none) :
    ∀ u, s'.pc u = .readTail ∨ (∃ e, s'.pc u = .casTail e) → s'.next u = none := by
  intro u hu
  rw [hpc] at hu
  by_cases hut : u = t
  · rw [hut, Function.update_self] at hu
    rw [hut]
    exact hx hu
  · rw [Function.update_of_ne hut] at hu
    rw [hnext u hut]
    · exact h.fresh u hu
    · rcases hu with hu | ⟨e, hu⟩
      · rw [hu]
        rfl
      · rw [hu]
        rfl

/-- A step of a thread that is not in the queue. -/
theorem Queue.outside (h : Queue s q) (ht : (s.pc t).queued = false) {x : Pc}
    (hx : x.queued = false) (hpc : s'.pc = Function.update s.pc t x) (htail : s'.tail = s.tail)
    (hlocked : s'.locked = s.locked) (hnext : ∀ u, u ≠ t → s'.next u = s.next u)
    (hfresh : x = .readTail ∨ (∃ e, x = .casTail e) → s'.next t = none) : Queue s' q := by
  have hne : ∀ u ∈ q, u ≠ t := by
    rintro u hu rfl
    rw [h.mem u, ht] at hu
    cases hu
  have hpcs : ∀ u ∈ q, s'.pc u = s.pc u := fun u hu => by
    rw [hpc, Function.update_of_ne (hne u hu)]
  refine ⟨h.nodup, htail.trans h.tail, h.mem_goto hpc (hx.trans ht.symm), ?_,
    h.fresh_goto hpc (fun u hu _ => hnext u hu) hfresh⟩
  rintro x l rfl
  obtain ⟨hown, hwait⟩ := h.order x l rfl
  refine ⟨hown.congr (hpcs x (List.mem_cons_self ..)) (hnext x (hne x (List.mem_cons_self ..)))
    (by rw [hlocked]), ?_⟩
  refine hwait.congr (fun u hu => hnext u (hne u hu)) fun u hu => ⟨?_, by rw [hlocked]⟩
  exact hpcs u (List.mem_cons_of_mem _ hu)

/-- A step of the first thread to another of its instructions. -/
theorem Queue.owner (h : Queue s (t :: l)) {x : Pc} (hx : x.queued = true)
    (hown : Owns (s.goto t x) t) : Queue (s.goto t x) (t :: l) := by
  have hqt : (s.pc t).queued = true := (h.mem t).mp (List.mem_cons_self ..)
  have hnot : t ∉ l := (List.nodup_cons.mp h.nodup).1
  refine ⟨h.nodup, h.tail, h.mem_goto rfl (hx.trans hqt.symm), ?_,
    h.fresh_goto rfl (fun _ _ _ => rfl) ?_⟩
  · intro y l' heq
    obtain ⟨rfl, rfl⟩ := List.cons.inj heq
    refine ⟨hown, (h.order t l rfl).2.congr (fun _ _ => rfl) fun u hu => ⟨?_, rfl⟩⟩
    refine goto_pc_of_ne s x ?_
    rintro rfl
    exact hnot hu
  · rintro (rfl | ⟨e, rfl⟩)
    · cases hx
    · cases hx

/-- `my_node->locked = true`. -/
theorem Waits.setLocked : ∀ {l : List Tid} {x : Tid}, Waits s x l → (x :: l).Nodup → t ∈ l →
    s.pc t = .setLocked p → Waits ((s.setLocked t true).goto t (.setNext p)) x l := by
  intro l
  induction l with
  | nil =>
      intro x _ _ ht
      cases ht
  | cons u l ih =>
      intro x h hnd ht hpc
      obtain ⟨hx, hnd⟩ := List.nodup_cons.mp hnd
      by_cases hut : u = t
      · subst hut
        refine ⟨?_, h.2.congr (fun _ _ => rfl) fun v hv => ?_⟩
        · rcases h.1 with ⟨hb, hn⟩ | ⟨hb, -⟩ | ⟨hb, -⟩
          · obtain rfl := Pc.setLocked.inj (hpc.symm.trans hb)
            exact .inr (.inl ⟨goto_pc_self .., hn, Function.update_self ..⟩)
          · rw [hpc] at hb
            cases hb
          · rw [hpc] at hb
            cases hb
        · have hvu : v ≠ u := by
            rintro rfl
            exact (List.nodup_cons.mp hnd).1 hv
          exact ⟨goto_pc_of_ne _ _ hvu, Function.update_of_ne hvu ..⟩
      · have ht' : t ∈ l := (List.mem_cons.mp ht).resolve_left (Ne.symm hut)
        exact ⟨h.1.congr (goto_pc_of_ne _ _ hut) rfl (Function.update_of_ne hut ..),
          ih h.2 hnd ht' hpc⟩

/-- `predecessor->next = my_node`. -/
theorem Waits.setNext : ∀ {l : List Tid} {x : Tid}, Waits s x l → (x :: l).Nodup → t ∈ l →
    s.pc t = .setNext p → p ∈ x :: l ∧ Waits ((s.setNext p (some t)).goto t .spin) x l := by
  intro l
  induction l with
  | nil =>
      intro x _ _ ht
      cases ht
  | cons u l ih =>
      intro x h hnd ht hpc
      obtain ⟨hx, hul⟩ := List.nodup_cons.mp hnd
      by_cases hut : u = t
      · subst hut
        rcases h.1 with ⟨hb, -⟩ | ⟨hb, hn, hl⟩ | ⟨hb, -⟩
        · rw [hpc] at hb
          cases hb
        · obtain rfl := Pc.setNext.inj (hpc.symm.trans hb)
          refine ⟨List.mem_cons_self .., ?_, ?_⟩
          · exact .inr (.inr ⟨goto_pc_self .., Function.update_self .., hl⟩)
          · refine h.2.congr (fun v hv => Function.update_of_ne ?_ ..) fun v hv => ⟨?_, rfl⟩
            · rintro rfl
              exact hx hv
            · refine goto_pc_of_ne _ _ ?_
              rintro rfl
              exact (List.nodup_cons.mp hul).1 hv
        · rw [hpc] at hb
          cases hb
      · have ht' : t ∈ l := (List.mem_cons.mp ht).resolve_left (Ne.symm hut)
        obtain ⟨hp, hwait⟩ := ih h.2 hul ht' hpc
        refine ⟨List.mem_cons_of_mem _ hp, h.1.congr (goto_pc_of_ne _ _ hut) ?_ rfl, hwait⟩
        refine Function.update_of_ne ?_ ..
        rintro rfl
        exact hx hp

/-- A thread enters the queue at its end. -/
theorem Waits.append : ∀ {l : List Tid} {x : Tid}, Waits s x l → t ∉ x :: l →
    (x :: l).getLast? = some p → s.next t = none →
    Waits ({ s with tail := some t }.goto t (.setLocked p)) x (l ++ [t]) := by
  intro l
  induction l with
  | nil =>
      intro x h ht hp hn
      obtain rfl := Option.some.inj hp
      exact ⟨.inl ⟨goto_pc_self .., h⟩, hn⟩
  | cons u l ih =>
      intro x h ht hp hn
      have hut : u ≠ t := by
        rintro rfl
        exact ht (List.mem_cons_of_mem _ (List.mem_cons_self ..))
      refine ⟨h.1.congr (goto_pc_of_ne _ _ hut) rfl rfl, ih h.2 ?_ ?_ hn⟩
      · exact fun hmem => ht (List.mem_cons_of_mem _ hmem)
      · rwa [List.getLast?_cons_cons] at hp

/-! ## Steps -/

/-- The compare-and-swap of `lock`, when `tail_` is as expected. -/
theorem Queue.casTail (h : Queue s q) {e : Option Tid} (hpc : s.pc t = .casTail e)
    (hs : step s t = some s') (hok : s.tail = e) : Queue s' (q ++ [t]) := by
  have hout : t ∉ q := by
    rw [h.mem, hpc]
    simp [Pc.queued]
  have hnd : (q ++ [t]).Nodup := by
    refine List.nodup_append.mpr ⟨h.nodup, List.nodup_singleton t, ?_⟩
    rintro a ha b hb rfl
    exact hout (List.mem_singleton.mp hb ▸ ha)
  have hfresh : s.next t = none := h.fresh t (.inr ⟨e, hpc⟩)
  have hmem : ∀ {x : Pc}, x.queued = true → ∀ u, u ∈ q ++ [t]
      ↔ (({ s with tail := some t }.goto t x).pc u).queued = true := by
    intro x hx u
    rw [List.mem_append, h.mem, List.mem_singleton]
    by_cases hut : u = t
    · rw [hut, goto_pc_self, hx]
      simp
    · rw [goto_pc_of_ne _ _ hut]
      simp [hut]
  have hfr : ∀ {x : Pc}, x.queued = true → ∀ u,
      ({ s with tail := some t }.goto t x).pc u = .readTail
        ∨ (∃ e, ({ s with tail := some t }.goto t x).pc u = .casTail e) → s.next u = none := by
    intro x hx
    have hpcs : ({ s with tail := some t }.goto t x).pc = Function.update s.pc t x := rfl
    refine h.fresh_goto hpcs (fun _ _ _ => rfl) ?_
    rintro (rfl | ⟨e, rfl⟩)
    · cases hx
    · cases hx
  have hswap : s.swapTail t e = { s with tail := some t } := by rw [State.swapTail, if_pos hok]
  simp only [step, hpc, hswap] at hs
  cases htail : s.tail with
  | none =>
      rw [htail] at hs
      obtain rfl := Option.some.inj hs
      have hq : q = [] := List.getLast?_eq_none_iff.mp (h.tail.symm.trans htail)
      subst hq
      refine ⟨hnd, rfl, hmem rfl, ?_, hfr rfl⟩
      intro x l heq
      obtain ⟨rfl, rfl⟩ := List.cons.inj heq
      refine ⟨?_, hfresh⟩
      rw [Owns, goto_pc_self]
      trivial
  | some p =>
      rw [htail] at hs
      obtain rfl := Option.some.inj hs
      have hlast : q.getLast? = some p := h.tail.symm.trans htail
      refine ⟨hnd, by simp [State.goto], hmem rfl, ?_, hfr rfl⟩
      intro x l heq
      cases q with
      | nil => cases hlast
      | cons y l' =>
          obtain ⟨rfl, rfl⟩ := List.cons.inj heq
          obtain ⟨hown, hwait⟩ := h.order y l' rfl
          have hyt : y ≠ t := by
            rintro rfl
            exact hout (List.mem_cons_self ..)
          exact ⟨hown.congr (goto_pc_of_ne _ _ hyt) rfl rfl, hwait.append hout hlast hfresh⟩

theorem Queue.setLocked (h : Queue s q) (hpc : s.pc t = .setLocked p) :
    Queue ((s.setLocked t true).goto t (.setNext p)) q := by
  have hno : ¬Owns s t := by
    rw [Owns, hpc]
    exact id
  obtain ⟨x, l, rfl, ht⟩ := h.waiter (by rw [hpc]; rfl) hno
  have hxt : x ≠ t := by
    rintro rfl
    exact (List.nodup_cons.mp h.nodup).1 ht
  refine ⟨h.nodup, h.tail, h.mem_goto rfl (by rw [hpc]; rfl), ?_,
    h.fresh_goto rfl (fun _ _ _ => rfl) (by simp)⟩
  intro y l' heq
  obtain ⟨rfl, rfl⟩ := List.cons.inj heq
  obtain ⟨hown, hwait⟩ := h.order x l rfl
  exact ⟨hown.congr (goto_pc_of_ne _ _ hxt) rfl (Function.update_of_ne hxt ..),
    hwait.setLocked h.nodup ht hpc⟩

theorem Queue.setNext (h : Queue s q) (hpc : s.pc t = .setNext p) :
    Queue ((s.setNext p (some t)).goto t .spin) q := by
  have hno : ¬Owns s t := by
    rw [Owns, hpc]
    exact id
  obtain ⟨x, l, rfl, ht⟩ := h.waiter (by rw [hpc]; rfl) hno
  have hxt : x ≠ t := by
    rintro rfl
    exact (List.nodup_cons.mp h.nodup).1 ht
  obtain ⟨hown, hwait⟩ := h.order x l rfl
  obtain ⟨hp, hwait'⟩ := hwait.setNext h.nodup ht hpc
  refine ⟨h.nodup, h.tail, h.mem_goto rfl (by rw [hpc]; rfl), ?_, h.fresh_goto rfl ?_ (by simp)⟩
  · intro y l' heq
    obtain ⟨rfl, rfl⟩ := List.cons.inj heq
    refine ⟨?_, hwait'⟩
    by_cases hpx : p = x
    · subst hpx
      exact hown.setNext (hwait.next_of_setNext ht hpc) (goto_pc_of_ne _ _ hxt)
        (Function.update_self ..) rfl
    · exact hown.congr (goto_pc_of_ne _ _ hxt) (Function.update_of_ne (Ne.symm hpx) ..) rfl
  · intro u _ hu
    refine Function.update_of_ne ?_ ..
    rintro rfl
    rw [h.mem, hu] at hp
    cases hp

/-- The last thread leaves an empty queue. -/
theorem Queue.casNull (h : Queue s q) (hpc : s.pc t = .casNull) (htail : s.tail = some t) :
    Queue ({ s with tail := none }.goto t .out) [] := by
  obtain ⟨l, rfl⟩ := h.first (by rw [hpc]; rfl) (by simp [Behind, hpc])
  have hl : l = [] := by
    cases l with
    | nil => rfl
    | cons u l =>
        have hlast := h.tail.symm.trans htail
        rw [List.getLast?_cons_cons] at hlast
        exact absurd (List.mem_of_getLast? hlast) (List.nodup_cons.mp h.nodup).1
  subst hl
  refine ⟨List.nodup_nil, rfl, ?_, ?_, h.fresh_goto rfl (fun _ _ _ => rfl) (by simp)⟩
  · intro u
    have hu := h.mem u
    by_cases hut : u = t
    · rw [hut, goto_pc_self]
      simp [Pc.queued]
    · rw [goto_pc_of_ne _ _ hut]
      simpa [hut] using hu
  · intro x l hq
    cases hq

/-- The first thread hands the lock on. -/
theorem Queue.clear (h : Queue s q) {v : Tid} (hpc : s.pc t = .clear v) :
    ∃ q', Queue ((s.setLocked v false).goto t .out) q' := by
  obtain ⟨l, rfl⟩ := h.first (by rw [hpc]; rfl) (by simp [Behind, hpc])
  obtain ⟨hown, hwait⟩ := h.order t l rfl
  obtain ⟨htl, hnd⟩ := List.nodup_cons.mp h.nodup
  have hnext : s.next t = some v := by
    rw [Owns, hpc] at hown
    exact hown
  cases l with
  | nil =>
      have hnone : s.next t = none := hwait
      rw [hnext] at hnone
      cases hnone
  | cons u l =>
      have hu : u = v ∧ s.pc u = .spin := by
        rcases hwait.1 with ⟨-, hn⟩ | ⟨-, hn, -⟩ | ⟨hb, hn, -⟩
        · rw [hnext] at hn
          cases hn
        · rw [hnext] at hn
          cases hn
        · rw [hnext] at hn
          exact ⟨(Option.some.inj hn).symm, hb⟩
      obtain ⟨rfl, hspin⟩ := hu
      have hut : u ≠ t := by
        rintro rfl
        exact htl (List.mem_cons_self ..)
      refine ⟨u :: l, hnd, ?_, ?_, ?_, h.fresh_goto rfl (fun _ _ _ => rfl) (by simp)⟩
      · exact h.tail.trans (List.getLast?_cons_cons ..)
      · intro w
        have hw := h.mem w
        by_cases hwt : w = t
        · rw [hwt, goto_pc_self]
          simp [Pc.queued, htl]
        · rw [goto_pc_of_ne _ _ hwt]
          rw [List.mem_cons] at hw
          exact ⟨fun hmem => hw.mp (.inr hmem), fun hq => (hw.mpr hq).resolve_left hwt⟩
      · intro y l' heq
        obtain ⟨rfl, rfl⟩ := List.cons.inj heq
        refine ⟨?_, hwait.2.congr (fun _ _ => rfl) fun w hw => ⟨?_, ?_⟩⟩
        · rw [Owns, goto_pc_of_ne _ _ hut, show (s.setLocked u false).pc u = .spin from hspin]
          exact Function.update_self ..
        · refine goto_pc_of_ne _ _ ?_
          rintro rfl
          exact htl (List.mem_cons_of_mem _ hw)
        · refine Function.update_of_ne ?_ ..
          rintro rfl
          exact (List.nodup_cons.mp hnd).1 hw

theorem Queue.step (h : Queue s q) (hok : missesTail s t = false) (hs : step s t = some s') :
    ∃ q', Queue s' q' := by
  cases hpc : s.pc t with
  | out =>
      simp only [SpinlockMCS.step, hpc] at hs
      obtain rfl := Option.some.inj hs
      exact ⟨q, h.outside (by rw [hpc]; rfl) (x := .initNext) rfl rfl rfl rfl (fun _ _ => rfl)
        (by simp)⟩
  | initNext =>
      simp only [SpinlockMCS.step, hpc] at hs
      obtain rfl := Option.some.inj hs
      exact ⟨q, h.outside (by rw [hpc]; rfl) (x := .readTail) rfl rfl rfl rfl
        (fun u hu => Function.update_of_ne hu ..) fun _ => Function.update_self ..⟩
  | readTail =>
      simp only [SpinlockMCS.step, hpc] at hs
      obtain rfl := Option.some.inj hs
      exact ⟨q, h.outside (by rw [hpc]; rfl) (x := .casTail s.tail) rfl rfl rfl rfl
        (fun _ _ => rfl) fun _ => h.fresh t (.inl hpc)⟩
  | casTail e =>
      simp only [missesTail, hpc, decide_eq_false_iff_not, not_not] at hok
      exact ⟨q ++ [t], h.casTail hpc hs hok⟩
  | setLocked p =>
      simp only [SpinlockMCS.step, hpc] at hs
      obtain rfl := Option.some.inj hs
      exact ⟨q, h.setLocked hpc⟩
  | setNext p =>
      simp only [SpinlockMCS.step, hpc] at hs
      obtain rfl := Option.some.inj hs
      exact ⟨q, h.setNext hpc⟩
  | spin =>
      simp only [SpinlockMCS.step, hpc] at hs
      by_cases hl : s.locked t = true
      · rw [if_pos hl] at hs
        obtain rfl := Option.some.inj hs
        exact ⟨q, h⟩
      · rw [if_neg hl] at hs
        obtain rfl := Option.some.inj hs
        obtain ⟨l, rfl⟩ := h.first (by rw [hpc]; rfl) (by simp [Behind, hpc, hl])
        exact ⟨t :: l, h.owner rfl (by rw [Owns, goto_pc_self]; trivial)⟩
  | locked =>
      simp only [SpinlockMCS.step, hpc] at hs
      obtain rfl := Option.some.inj hs
      obtain ⟨l, rfl⟩ := h.first (by rw [hpc]; rfl) (by simp [Behind, hpc])
      exact ⟨t :: l, h.owner rfl (by rw [Owns, goto_pc_self]; trivial)⟩
  | testNext =>
      simp only [SpinlockMCS.step, hpc] at hs
      obtain rfl := Option.some.inj hs
      obtain ⟨l, rfl⟩ := h.first (by rw [hpc]; rfl) (by simp [Behind, hpc])
      by_cases hn : s.next t = none
      · rw [if_pos hn]
        exact ⟨t :: l, h.owner rfl (by rw [Owns, goto_pc_self]; trivial)⟩
      · rw [if_neg hn]
        exact ⟨t :: l, h.owner rfl (by rw [Owns, goto_pc_self]; exact hn)⟩
  | casNull =>
      simp only [SpinlockMCS.step, hpc] at hs
      by_cases htail : s.tail = some t
      · rw [if_pos htail] at hs
        obtain rfl := Option.some.inj hs
        exact ⟨[], h.casNull hpc htail⟩
      · rw [if_neg htail] at hs
        obtain rfl := Option.some.inj hs
        obtain ⟨l, rfl⟩ := h.first (by rw [hpc]; rfl) (by simp [Behind, hpc])
        exact ⟨t :: l, h.owner rfl (by rw [Owns, goto_pc_self]; trivial)⟩
  | waitNext =>
      simp only [SpinlockMCS.step, hpc] at hs
      by_cases hn : s.next t = none
      · rw [if_pos hn] at hs
        obtain rfl := Option.some.inj hs
        exact ⟨q, h⟩
      · rw [if_neg hn] at hs
        obtain rfl := Option.some.inj hs
        obtain ⟨l, rfl⟩ := h.first (by rw [hpc]; rfl) (by simp [Behind, hpc])
        exact ⟨t :: l, h.owner rfl (by rw [Owns, goto_pc_self]; exact hn)⟩
  | readNext =>
      simp only [SpinlockMCS.step, hpc] at hs
      obtain ⟨v, hv, rfl⟩ := Option.map_eq_some_iff.mp hs
      obtain ⟨l, rfl⟩ := h.first (by rw [hpc]; rfl) (by simp [Behind, hpc])
      exact ⟨t :: l, h.owner rfl (by rw [Owns, goto_pc_self]; exact hv)⟩
  | clear v =>
      simp only [SpinlockMCS.step, hpc] at hs
      obtain rfl := Option.some.inj hs
      exact h.clear hpc

theorem reachable_queue (h : machine.ReachableBy (fun s t => missesTail s t = false) s) :
    ∃ q, Queue s q :=
  h.invariant (I := fun s => ∃ q, Queue s q) (fun _ hi => ⟨[], Initial.queue hi⟩)
    fun _ _ _ ⟨_, hq⟩ hok hs => hq.step hok hs

/-! ## Mutual exclusion -/

/-- `t` comes after `p` along `next` pointers. -/
def Linked (s : State) (p t : Tid) : Prop := Relation.TransGen (fun a b => s.next a = some b) p t

/-- The thread has swapped its node into `tail_` and has yet to store to
`predecessor->next`. -/
def Unlinked (s : State) (p t : Tid) : Prop := s.pc t = .setLocked p ∨ s.pc t = .setNext p

theorem Behind.linked (h : Behind s p t) : s.next p = some t ∨ Unlinked s p t := by
  rcases h with ⟨hb, -⟩ | ⟨hb, -⟩ | ⟨-, hn, -⟩
  · exact .inr (.inl hb)
  · exact .inr (.inr hb)
  · exact .inl hn

theorem Waits.chain : ∀ {l : List Tid} {x : Tid}, Waits s x l →
    (x :: l).IsChain fun p t => s.next p = some t ∨ Unlinked s p t := by
  intro l
  induction l with
  | nil =>
      intro x _
      exact .singleton x
  | cons u l ih =>
      intro x h
      exact .cons_cons h.1.linked (ih h.2)

/-- Once every store is done, the whole queue is linked behind its first
thread. -/
theorem Waits.linked (hall : ∀ p t, ¬Unlinked s p t) : ∀ {l : List Tid} {x : Tid}, Waits s x l →
    t ∈ l → Linked s x t := by
  intro l
  induction l with
  | nil =>
      intro x _ ht
      cases ht
  | cons u l ih =>
      intro x h ht
      have hnext : s.next x = some u := h.1.linked.resolve_right (hall x u)
      rcases List.mem_cons.mp ht with rfl | ht
      · exact .single hnext
      · exact .head hnext (ih h.2 ht)

theorem Queue.head_of_locked (h : Queue s q) (hpc : s.pc t = .locked) : ∃ l, q = t :: l :=
  h.first (by rw [hpc]; rfl) (by simp [Behind, hpc])

/-- **Mutual exclusion.** As long as no compare-and-swap of `lock` misses,
at most one thread has the lock. The threads that spin are in a queue
with that thread, if there is one, at its front; each thread of the queue
is what the `next` of its predecessor points to, unless it has yet to
store there; and when no thread has, all that spin are linked behind the
one with the lock. -/
theorem mutual_exclusion (h : machine.ReachableBy (fun s t => missesTail s t = false) s) :
    (∀ t u, s.pc t = .locked → s.pc u = .locked → t = u)
      ∧ (∃ q : List Tid, q.Nodup ∧ (∀ t, s.pc t = .spin → t ∈ q)
          ∧ (∀ t, s.pc t = .locked → q.head? = some t)
          ∧ q.IsChain fun p t => s.next p = some t ∨ Unlinked s p t)
      ∧ ((∀ p t, ¬Unlinked s p t) → ∀ t u, s.pc t = .locked → s.pc u = .spin → Linked s t u) := by
  obtain ⟨q, hq⟩ := reachable_queue h
  have hspin : ∀ t, s.pc t = .spin → t ∈ q := fun t ht => (hq.mem t).mpr (by rw [ht]; rfl)
  refine ⟨?_, ⟨q, hq.nodup, hspin, ?_, ?_⟩, ?_⟩
  · intro t u ht hu
    obtain ⟨l, hl⟩ := hq.head_of_locked ht
    obtain ⟨l', hl'⟩ := hq.head_of_locked hu
    rw [hl] at hl'
    exact (List.cons.inj hl').1
  · intro t ht
    obtain ⟨l, rfl⟩ := hq.head_of_locked ht
    rfl
  · cases q with
    | nil => exact .nil
    | cons x l => exact (hq.order x l rfl).2.chain
  · intro hall t u ht hu
    obtain ⟨l, rfl⟩ := hq.head_of_locked ht
    have hmem : u ∈ l := by
      refine (List.mem_cons.mp (hspin u hu)).resolve_left ?_
      rintro rfl
      rw [ht] at hu
      cases hu
    exact (hq.order t l rfl).2.linked hall hmem

def start : State := ⟨none, fun _ => none, fun _ => false, fun _ => .out⟩

theorem start_initial : Initial start := ⟨rfl, fun _ => rfl⟩

/-- Thread 0 takes the lock, threads 1 and 2 queue up behind it. -/
def twoWait : List Tid := [0, 0, 0, 0, 1, 1, 1, 1, 2, 2, 2, 2, 2, 2, 1, 1]

theorem twoWait_linked : ∃ s, machine.ReachableBy (fun s t => missesTail s t = false) s
    ∧ s.pc 0 = .locked ∧ s.pc 2 = .spin ∧ ∀ t, s.pc t = .locked → t = 0 := by
  have hrun : (machine.exec (fun s t => missesTail s t = false) start twoWait).any
      (fun s => s.pc 0 = .locked && s.pc 2 = .spin) = true := by
    decide
  obtain ⟨s, hs, hp⟩ := Lts.ReachableBy.exec_any (.init start_initial) hrun
  simp only [Bool.and_eq_true, decide_eq_true_eq] at hp
  exact ⟨s, hs, hp.1, hp.2, fun t ht => (mutual_exclusion hs).1 t 0 ht hp.1⟩

/-- Thread 1 reads `tail_` while thread 0 has the lock and swaps after it
is gone; then thread 2 finds the lock free, too. -/
def missedSwap : List Tid := [0, 0, 0, 0, 1, 1, 1, 0, 0, 0, 1, 2, 2, 2, 2]

/-- Two threads have the lock after a compare-and-swap that misses. Also
without one, a thread can spin that is not linked behind the lock's
owner: thread 2 has linked itself behind thread 1, and thread 1 is not
linked yet. -/
theorem missedSwap_shares :
    (¬∀ s, machine.Reachable s → ∀ t u, s.pc t = .locked → s.pc u = .locked → t = u)
      ∧ ¬∀ s, machine.ReachableBy (fun s t => missesTail s t = false) s →
        ∀ u, s.pc u = .spin → ∃ t, s.pc t = .locked ∧ Linked s t u := by
  refine ⟨?_, ?_⟩
  · intro hall
    have hrun : (machine.exec (fun _ _ => True) start missedSwap).any
        (fun s => s.pc 1 = .locked && s.pc 2 = .locked) = true := by
      decide
    obtain ⟨s, hs, hp⟩ := Lts.ReachableBy.exec_any (.init start_initial) hrun
    simp only [Bool.and_eq_true, decide_eq_true_eq] at hp
    exact absurd (hall s hs 1 2 hp.1 hp.2) (by decide)
  · intro hall
    have hrun : (machine.exec (fun s t => missesTail s t = false) start (twoWait.take 14)).any
        (fun s => s.pc 0 = .locked && s.pc 2 = .spin && s.next 0 = none) = true := by
      decide
    obtain ⟨s, hs, hp⟩ := Lts.ReachableBy.exec_any (.init start_initial) hrun
    simp only [Bool.and_eq_true, decide_eq_true_eq] at hp
    obtain ⟨t, ht, hlink⟩ := hall s hs 2 hp.1.2
    obtain ⟨q, hq⟩ := reachable_queue hs
    obtain ⟨l, hl⟩ := hq.head_of_locked ht
    obtain ⟨l', hl'⟩ := hq.head_of_locked hp.1.1
    rw [hl] at hl'
    obtain rfl := (List.cons.inj hl').1
    obtain ⟨u, hnext, -⟩ := Relation.TransGen.head'_iff.mp hlink
    rw [hp.2] at hnext
    cases hnext

end

end SpinlockMCS

end HttpServer
