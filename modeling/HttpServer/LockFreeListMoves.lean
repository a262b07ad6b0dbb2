import HttpServer.LockFreeList

/-!
# The moves of the lock-free list

The step function of the list, read once: `Move s t act s'` lists what a
step of thread `t` can do, with the tests it has passed, and `step_move`
says that there is nothing else. (`retry` stands for the six tests that
can fail.) Every later proof about steps is a case
analysis over `Move`.
-/

namespace HttpServer

namespace LockFreeList

open Chain

variable {T : Type}

/-! ## What a thread has at hand -/

/-- The node a cell belongs to. -/
def cellNode : Cell Addr → List Addr
  | .head => []
  | .next a => [a]

/-- The new node of an `insert`. -/
def Call.node : Call T → Option Addr
  | .insert _ _ node => some node
  | _ => none

def After.node : After T → Option Addr
  | .loop c _ _ => c.node
  | .done _ => none

def After.held : After T → List Addr
  | .loop _ prev _ => cellNode prev
  | .done _ => []

namespace Pc

/-- The node an `insert` has allocated and not yet linked in. -/
def node : Pc T → Option Addr
  | .start c => c.node
  | .publish c _ _ => c.node
  | .validate c _ _ => c.node
  | .readNext c _ _ => c.node
  | .unlink c _ _ _ => c.node
  | .readKey c _ _ _ => c.node
  | .compare c _ _ _ _ => c.node
  | .swap1 c _ _ => c.node
  | .swap2 c _ _ _ => c.node
  | .retire _ after => after.node
  | .scan _ _ after => after.node
  | .sweep _ _ after => after.node
  | .setNext _ _ node _ _ => some node
  | .casInsert _ _ node _ _ => some node
  | .deleteNew _ _ node => some node
  | _ => none

/-- A node the thread has unlinked and not yet put on its retired list. -/
def pending : Pc T → Option Addr
  | .retire node _ => some node
  | _ => none

/-- The retired nodes a sweep has still to visit. -/
def todo : Pc T → Finset Addr
  | .sweep _ todo _ => todo
  | _ => ∅

/-- The nodes the thread holds: the node that contains `*prev` and the
validated `cur`, as long as it goes on to use them. -/
def held : Pc T → List Addr
  | .publish _ prev _ => cellNode prev
  | .validate _ prev _ => cellNode prev
  | .readNext _ prev cur => cellNode prev ++ [cur]
  | .unlink _ prev cur _ => cellNode prev ++ [cur]
  | .readKey _ prev cur _ => cellNode prev ++ [cur]
  | .compare _ prev cur _ _ => cellNode prev ++ [cur]
  | .readValue _ cur => [cur]
  | .swap1 _ cur _ => [cur]
  | .swap2 _ cur _ _ => [cur]
  | .retire _ after => after.held
  | .scan _ _ after => after.held
  | .sweep _ _ after => after.held
  | .setNext _ _ _ prev cur => cellNode prev ++ cur.toList
  | .casInsert _ _ _ prev cur => cellNode prev ++ cur.toList
  | .casMark _ prev cur _ => cellNode prev ++ [cur]
  | .casUnlink _ prev cur _ => cellNode prev ++ [cur]
  | _ => []

/-- The lookup a thread starts over with when a test or a
compare-and-swap fails. -/
def retry : Pc T → Option (Call T)
  | .validate c _ _ => some c
  | .unlink c _ _ _ => some c
  | .compare c _ _ _ _ => some c
  | .casInsert key value node _ _ => some (.insert key value node)
  | .casMark key _ _ _ => some (.remove key)
  | .casUnlink key _ _ _ => some (.help key)
  | _ => none

end Pc

section

variable (c : Call T) (prev : Cell Addr) (cur : Addr) (next : Option Addr) (after : After T)

theorem found_node : (found c prev cur next).node = c.node := by
  rcases c with _ | _ | _ | ⟨_, _ | _⟩ <;> rfl

theorem found_pending : (found c prev cur next).pending = none := by
  rcases c with _ | _ | _ | ⟨_, _ | _⟩ <;> rfl

theorem found_todo : (found c prev cur next).todo = ∅ := by
  rcases c with _ | _ | _ | ⟨_, _ | _⟩ <;> rfl

theorem found_held : ∀ a ∈ (found c prev cur next).held, a ∈ cellNode prev ++ [cur] := by
  rcases c with _ | _ | _ | ⟨_, _ | _⟩ <;> simp [found, Pc.held]

theorem notFound_node : (notFound c prev next).node = c.node := by
  cases c <;> rfl

theorem notFound_pending : (notFound c prev next).pending = none := by
  cases c <;> rfl

theorem notFound_todo : (notFound c prev next).todo = ∅ := by
  cases c <;> rfl

theorem notFound_held :
    ∀ a ∈ (notFound c prev next).held, a ∈ cellNode prev ++ next.toList := by
  cases c <;> simp [notFound, Pc.held]

theorem loop_node : (loop c prev next).node = c.node := by
  cases next with
  | none => exact notFound_node c prev none
  | some a => rfl

theorem loop_pending : (loop c prev next).pending = none := by
  cases next with
  | none => exact notFound_pending c prev none
  | some a => rfl

theorem loop_todo : (loop c prev next).todo = ∅ := by
  cases next with
  | none => exact notFound_todo c prev none
  | some a => rfl

theorem loop_held : ∀ a ∈ (loop c prev next).held, a ∈ cellNode prev := by
  cases next with
  | none => exact fun a ha => by simpa using notFound_held c prev none a ha
  | some a => exact fun _ ha => ha

theorem resume_node : (resume after).node = after.node := by
  cases after with
  | loop c prev cur => exact loop_node c prev cur
  | done key => rfl

theorem resume_pending : (resume after).pending = none := by
  cases after with
  | loop c prev cur => exact loop_pending c prev cur
  | done key => rfl

theorem resume_todo : (resume after).todo = ∅ := by
  cases after with
  | loop c prev cur => exact loop_todo c prev cur
  | done key => rfl

theorem resume_held : ∀ a ∈ (resume after).held, a ∈ after.held := by
  cases after with
  | loop c prev cur => exact loop_held c prev cur
  | done key => exact fun _ ha => ha

end

/-! ## Moves -/

variable [LinearOrder T]

/-- The first instruction of a call. -/
def enter : Op T → Pc T
  | .insert key value => .new key value
  | .remove key => .start (.remove key)
  | .lookup key value => .start (.lookup key value)

inductive Move (n maxRetired : ℕ) (s : State T) (t : Tid) : Act T → State T → Prop where
  | call (op : Op T) (h : s.pc t = .idle) : Move n maxRetired s t (.call op) (s.goto t (enter op))
  | alloc {key value} (a : Addr) (h : s.pc t = .new key value) (ha : s.status a ≠ .live) :
      Move n maxRetired s t (.alloc a)
        ((s.newNode a key value).goto t (.start (.insert key value a)))
  | start {c} (h : s.pc t = .start c) :
      Move n maxRetired s t .tick (s.goto t (loop c .head (s.link .head).ptr))
  | publish {c prev cur} (h : s.pc t = .publish c prev cur) :
      Move n maxRetired s t .tick ((s.setHp t 0 (some cur)).goto t (.validate c prev cur))
  | retry {c} (h : (s.pc t).retry = some c) : Move n maxRetired s t .tick (s.goto t (.start c))
  | validate {c prev cur} (h : s.pc t = .validate c prev cur)
      (hv : s.link prev = ⟨some cur, false⟩) :
      Move n maxRetired s t .tick (s.goto t (.readNext c prev cur))
  | readMarked {c prev cur next} (h : s.pc t = .readNext c prev cur)
      (hn : s.link (.next cur) = ⟨next, true⟩) :
      Move n maxRetired s t .tick (s.goto t (.unlink c prev cur next))
  | readUnmarked {c prev cur next} (h : s.pc t = .readNext c prev cur)
      (hn : s.link (.next cur) = ⟨next, false⟩) :
      Move n maxRetired s t .tick (s.goto t (.readKey c prev cur next))
  | unlink {c prev cur next} (h : s.pc t = .unlink c prev cur next)
      (hv : s.link prev = ⟨some cur, false⟩) :
      Move n maxRetired s t .tick
        ((s.setLink prev ⟨next, false⟩).goto t (.retire cur (.loop c prev next)))
  | readKey {c prev cur next} (h : s.pc t = .readKey c prev cur next) :
      Move n maxRetired s t .tick (s.goto t (.compare c prev cur next (s.data cur)))
  | found {c prev cur next} (h : s.pc t = .compare c prev cur next c.key)
      (hv : s.link prev = ⟨some cur, false⟩) :
      Move n maxRetired s t .tick (s.goto t (found c prev cur next))
  | notFound {c prev cur next curKey} (h : s.pc t = .compare c prev cur next curKey)
      (hv : s.link prev = ⟨some cur, false⟩) (hk : c.key < curKey) :
      Move n maxRetired s t .tick (s.goto t (notFound c prev (some cur)))
  | advance {c prev cur next curKey} (h : s.pc t = .compare c prev cur next curKey)
      (hv : s.link prev = ⟨some cur, false⟩) (hk : curKey < c.key) :
      Move n maxRetired s t .tick (s.goto t (.swap1 c cur next))
  | readValue {key cur} (h : s.pc t = .readValue key cur) :
      Move n maxRetired s t .tick (s.goto t (.done (.lookup key true) true (some (s.value cur))))
  | swap1 {c cur next} (h : s.pc t = .swap1 c cur next) :
      Move n maxRetired s t .tick ((s.setHp t 0 (s.hp t 1)).goto t (.swap2 c cur next (s.hp t 0)))
  | swap2 {c cur next temp} (h : s.pc t = .swap2 c cur next temp) :
      Move n maxRetired s t .tick ((s.setHp t 1 temp).goto t (loop c (.next cur) next))
  | retireScan {node after} (h : s.pc t = .retire node after)
      (hc : (insert node (s.retired t)).card > maxRetired) :
      Move n maxRetired s t .tick
        ((s.setRetired t (insert node (s.retired t))).goto t (.scan ∅ 0 after))
  | retireOnly {node after} (h : s.pc t = .retire node after)
      (hc : ¬(insert node (s.retired t)).card > maxRetired) :
      Move n maxRetired s t .tick
        ((s.setRetired t (insert node (s.retired t))).goto t (resume after))
  | scanSlot {active pos after} (h : s.pc t = .scan active pos after) (hpos : pos < 2 * n) :
      Move n maxRetired s t .tick (s.goto t (.scan (match s.hp (pos / 2) (pos % 2) with
        | some a => insert a active
        | none => active) (pos + 1) after))
  | scanEnd {active pos after} (h : s.pc t = .scan active pos after) (hpos : ¬pos < 2 * n) :
      Move n maxRetired s t .tick (s.goto t (.sweep active (s.retired t) after))
  | visitActive {active todo after} (a : Addr) (h : s.pc t = .sweep active todo after)
      (ha : a ∈ todo) (hact : a ∈ active) :
      Move n maxRetired s t (.visit a) (s.goto t (.sweep active (todo.erase a) after))
  | visitFree {active todo after} (a : Addr) (h : s.pc t = .sweep active todo after)
      (ha : a ∈ todo) (hact : a ∉ active) :
      Move n maxRetired s t (.visit a)
        (((s.free a).setRetired t ((s.retired t).erase a)).goto t
          (.sweep active (todo.erase a) after))
  | sweepEnd {active after} (h : s.pc t = .sweep active ∅ after) :
      Move n maxRetired s t .tick (s.goto t (resume after))
  | setNext {key value node prev cur} (h : s.pc t = .setNext key value node prev cur) :
      Move n maxRetired s t .tick
        ((s.setLink (.next node) ⟨cur, false⟩).goto t (.casInsert key value node prev cur))
  | casInsert {key value node prev cur} (h : s.pc t = .casInsert key value node prev cur)
      (hv : s.link prev = ⟨cur, false⟩) :
      Move n maxRetired s t .tick
        ((s.setLink prev ⟨some node, false⟩).goto t (.done (.insert key value) true none))
  | deleteNew {key value node} (h : s.pc t = .deleteNew key value node) :
      Move n maxRetired s t .tick ((s.free node).goto t (.done (.insert key value) false none))
  | casMark {key prev cur next} (h : s.pc t = .casMark key prev cur next)
      (hv : s.link (.next cur) = ⟨next, false⟩) :
      Move n maxRetired s t .tick
        ((s.setLink (.next cur) ⟨next, true⟩).goto t (.casUnlink key prev cur next))
  | casUnlink {key prev cur next} (h : s.pc t = .casUnlink key prev cur next)
      (hv : s.link prev = ⟨some cur, false⟩) :
      Move n maxRetired s t .tick
        ((s.setLink prev ⟨next, false⟩).goto t (.retire cur (.done key)))
  | ret {op res value} (h : s.pc t = .done op res value) :
      Move n maxRetired s t .ret (s.goto t .idle)

theorem tick_move {n maxRetired : ℕ} {s s' : State T} {t : Tid}
    (h : tick n maxRetired s t = some s') : Move n maxRetired s t .tick s' := by
  unfold tick at h
  split at h
  case h_1 c hpc =>
    obtain rfl := Option.some.inj h
    exact .start hpc
  case h_2 c prev cur hpc =>
    obtain rfl := Option.some.inj h
    exact .publish hpc
  case h_3 c prev cur hpc =>
    obtain rfl := Option.some.inj h
    split
    · exact .validate hpc ‹_›
    · exact .retry (by rw [hpc]; rfl)
  case h_4 c prev cur hpc =>
    obtain rfl := Option.some.inj h
    rcases hn : s.link (.next cur) with ⟨next, mark⟩
    cases mark with
    | false => exact .readUnmarked hpc hn
    | true => exact .readMarked hpc hn
  case h_5 c prev cur next hpc =>
    obtain rfl := Option.some.inj h
    split
    · exact .unlink hpc ‹_›
    · exact .retry (by rw [hpc]; rfl)
  case h_6 c prev cur next hpc =>
    obtain rfl := Option.some.inj h
    exact .readKey hpc
  case h_7 c prev cur next curKey hpc =>
    obtain rfl := Option.some.inj h
    by_cases hv : s.link prev = ⟨some cur, false⟩
    · rw [compared, decide_eq_true hv, if_pos rfl]
      by_cases hle : c.key ≤ curKey
      · rw [if_pos hle]
        by_cases heq : curKey = c.key
        · rw [if_pos heq]
          exact .found (heq ▸ hpc) hv
        · rw [if_neg heq]
          exact .notFound hpc hv (lt_of_le_of_ne hle (Ne.symm heq))
      · rw [if_neg hle]
        exact .advance hpc hv (lt_of_not_ge hle)
    · rw [compared, decide_eq_false hv, if_neg Bool.false_ne_true]
      exact .retry (by rw [hpc]; rfl)
  case h_8 key cur hpc =>
    obtain rfl := Option.some.inj h
    exact .readValue hpc
  case h_9 c cur next hpc =>
    obtain rfl := Option.some.inj h
    exact .swap1 hpc
  case h_10 c cur next temp hpc =>
    obtain rfl := Option.some.inj h
    exact .swap2 hpc
  case h_11 node after hpc =>
    obtain rfl := Option.some.inj h
    split
    · exact .retireScan hpc ‹_›
    · exact .retireOnly hpc ‹_›
  case h_12 active pos after hpc =>
    obtain rfl := Option.some.inj h
    split
    · exact .scanSlot hpc ‹_›
    · exact .scanEnd hpc ‹_›
  case h_13 active todo after hpc =>
    split at h
    · rename_i htodo
      obtain rfl := Option.some.inj h
      exact .sweepEnd (htodo ▸ hpc)
    · cases h
  case h_14 key value node prev cur hpc =>
    obtain rfl := Option.some.inj h
    exact .setNext hpc
  case h_15 key value node prev cur hpc =>
    obtain rfl := Option.some.inj h
    split
    · exact .casInsert hpc ‹_›
    · exact .retry (by rw [hpc]; rfl)
  case h_16 key value node hpc =>
    obtain rfl := Option.some.inj h
    exact .deleteNew hpc
  case h_17 key prev cur next hpc =>
    obtain rfl := Option.some.inj h
    split
    · exact .casMark hpc ‹_›
    · exact .retry (by rw [hpc]; rfl)
  case h_18 key prev cur next hpc =>
    obtain rfl := Option.some.inj h
    split
    · exact .casUnlink hpc ‹_›
    · exact .retry (by rw [hpc]; rfl)
  case h_19 => cases h

theorem step_move {n maxRetired : ℕ} {s s' : State T} {t : Tid} {act : Act T}
    (h : step n maxRetired s (t, act) = some s') : t < n ∧ Move n maxRetired s t act s' := by
  unfold step at h
  simp only at h
  by_cases ht : t < n
  · refine ⟨ht, ?_⟩
    rw [if_pos ht] at h
    split at h
    case h_1 key value hpc =>
      obtain rfl := Option.some.inj h
      exact .call (.insert key value) hpc
    case h_2 key hpc =>
      obtain rfl := Option.some.inj h
      exact .call (.remove key) hpc
    case h_3 key value hpc =>
      obtain rfl := Option.some.inj h
      exact .call (.lookup key value) hpc
    case h_4 a key value hpc =>
      split at h
      · cases h
      · obtain rfl := Option.some.inj h
        exact .alloc a hpc ‹_›
    case h_5 a active todo after hpc =>
      split at h
      · obtain rfl := Option.some.inj h
        split
        · exact .visitActive a hpc ‹_› ‹_›
        · exact .visitFree a hpc ‹_› ‹_›
      · cases h
    case h_6 op res value hpc =>
      obtain rfl := Option.some.inj h
      exact .ret hpc
    case h_7 => exact tick_move h
    case h_8 => cases h
  · rw [if_neg ht] at h
    cases h

end LockFreeList

end HttpServer
