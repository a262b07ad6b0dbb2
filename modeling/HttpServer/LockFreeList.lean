import Mathlib.Order.Defs.LinearOrder
import Mathlib.Data.Finset.Card
import HttpServer.Lib.Chain
import HttpServer.Lib.Lts

/-!
# The lock-free list

`LockFreeList` (lock_free_list.hpp) over its hazard pointers
(hazard_pointers.hpp), with any number of threads that call `insert`,
`remove` and `lookup` on one list (`start_` is `NULL`).

Each load, store and compare-and-swap of `head_`, of a node's fields and
of a hazard slot is one step of one thread. A thread stands at a `Pc`,
which holds the local variables that are live there. Steps on what no
other thread sees are taken together with a neighbour: the fields of a
node that is still private, and the loads of a thread's own hazard slots,
which only that thread stores to.

Memory is addressed by numbers. `status` is the allocator's view of an
address. What a deleted node held stays where it was until the address
is allocated again; the contents of memory and of the hazard slots are
arbitrary in the beginning (`HPRec` has no constructor).
-/

namespace HttpServer

namespace LockFreeList

open Chain

abbrev Addr := ℕ

/-- `ThreadPoolFast::ME()`. -/
abbrev Tid := ℕ

/-- A pointer with the mark that `MarkablePointer` keeps in its lowest
bit. -/
structure Link where
  ptr : Option Addr
  mark : Bool
deriving DecidableEq, Repr

inductive Status where
  | fresh
  | live
  | deleted
deriving DecidableEq, Repr

/-- The calls of the interface with their arguments; `value` is the
second argument of `insert`, and for `lookup` whether there is one. -/
inductive Op (T : Type) where
  | insert (key : T) (value : Option ℤ)
  | remove (key : T)
  | lookup (key : T) (value : Bool)
deriving DecidableEq, Repr

/-- The calls of `lookupInternal` by their place: in the loop of `insert`
(with its new node), in the loop of `remove`, at the end of a `remove`
that marked its node but did not unlink it, in `lookup`. -/
inductive Call (T : Type) where
  | insert (key : T) (value : Option ℤ) (node : Addr)
  | remove (key : T)
  | help (key : T)
  | lookup (key : T) (value : Bool)
deriving DecidableEq, Repr

def Call.key {T : Type} : Call T → T
  | .insert key _ _ => key
  | .remove key => key
  | .help key => key
  | .lookup key _ => key

/-- Where `retireNode` returns to: the loop of `lookupInternal`, or the
`return true` of `remove`. -/
inductive After (T : Type) where
  | loop (c : Call T) (prev : Cell Addr) (cur : Option Addr)
  | done (key : T)
deriving DecidableEq, Repr

/-- What a thread does next. -/
inductive Pc (T : Type) where
  | idle
  /-- `new Node` in `insert`. -/
  | new (key : T) (value : Option ℤ)
  /-- `prev = start; cur = *prev`. -/
  | start (c : Call T)
  /-- `hp[0] = cur`. -/
  | publish (c : Call T) (prev : Cell Addr) (cur : Addr)
  /-- The first `if (*prev != cur)`. -/
  | validate (c : Call T) (prev : Cell Addr) (cur : Addr)
  /-- `next = cur->next`. -/
  | readNext (c : Call T) (prev : Cell Addr) (cur : Addr)
  /-- The compare-and-swap that unlinks a marked `cur`. -/
  | unlink (c : Call T) (prev : Cell Addr) (cur : Addr) (next : Option Addr)
  /-- `cur_key = cur->data`. -/
  | readKey (c : Call T) (prev : Cell Addr) (cur : Addr) (next : Option Addr)
  /-- The second `if (*prev != cur)` with the comparisons behind it. -/
  | compare (c : Call T) (prev : Cell Addr) (cur : Addr) (next : Option Addr) (curKey : T)
  /-- `*value = cur->value`. -/
  | readValue (key : T) (cur : Addr)
  /-- `temp = hp[0]; hp[0] = hp[1]`; `prev` is `&cur->next` by now. -/
  | swap1 (c : Call T) (cur : Addr) (next : Option Addr)
  /-- `hp[1] = temp`, then `cur = next`. -/
  | swap2 (c : Call T) (cur : Addr) (next : Option Addr) (temp : Option Addr)
  /-- `retired_lists_[thread_num].insert(node)` and the test of its size. -/
  | retire (node : Addr) (after : After T)
  /-- The loop over the hazard slots in `maybeFreeNodes`, at slot `pos`. -/
  | scan (active : Finset Addr) (pos : ℕ) (after : After T)
  /-- The loop over the retired nodes, with those still to visit. -/
  | sweep (active todo : Finset Addr) (after : After T)
  /-- `new_node->next = ctx.cur`. -/
  | setNext (key : T) (value : Option ℤ) (node : Addr) (prev : Cell Addr) (cur : Option Addr)
  /-- The compare-and-swap of `insert`. -/
  | casInsert (key : T) (value : Option ℤ) (node : Addr) (prev : Cell Addr) (cur : Option Addr)
  /-- `delete new_node`. -/
  | deleteNew (key : T) (value : Option ℤ) (node : Addr)
  /-- The compare-and-swap of `remove` that marks the node. -/
  | casMark (key : T) (prev : Cell Addr) (cur : Addr) (next : Option Addr)
  /-- The compare-and-swap of `remove` that unlinks it. -/
  | casUnlink (key : T) (prev : Cell Addr) (cur : Addr) (next : Option Addr)
  /-- The call returns. -/
  | done (op : Op T) (res : Bool) (value : Option ℤ)

structure State (T : Type) where
  link : Cell Addr → Link
  data : Addr → T
  value : Addr → ℤ
  status : Addr → Status
  hp : Tid → ℕ → Option Addr
  retired : Tid → Finset Addr
  pc : Tid → Pc T

/-- What a step does besides moving on: start a call, pick the address
`new` returns, execute the next instruction, visit a node of the retired
list (an `unordered_set` has no order), return. -/
inductive Act (T : Type) where
  | call (op : Op T)
  | alloc (a : Addr)
  | tick
  | visit (a : Addr)
  | ret
deriving DecidableEq, Repr

namespace State

variable {T : Type}

/-! ## Assignments -/

def goto (s : State T) (t : Tid) (pc : Pc T) : State T :=
  { s with pc := Function.update s.pc t pc }

def setHp (s : State T) (t : Tid) (j : ℕ) (p : Option Addr) : State T :=
  { s with hp := Function.update s.hp t (Function.update (s.hp t) j p) }

def setLink (s : State T) (c : Cell Addr) (l : Link) : State T :=
  { s with link := Function.update s.link c l }

def setRetired (s : State T) (t : Tid) (r : Finset Addr) : State T :=
  { s with retired := Function.update s.retired t r }

/-- `delete` of the node at `a`. -/
def free (s : State T) (a : Addr) : State T :=
  { s with status := Function.update s.status a .deleted }

/-- `new Node` at `a` with the stores to its data and value. -/
def newNode (s : State T) (a : Addr) (key : T) (value : Option ℤ) : State T :=
  { s with
    link := Function.update s.link (.next a) ⟨none, false⟩
    data := Function.update s.data a key
    value := Function.update s.value a (value.getD (s.value a))
    status := Function.update s.status a .live }

section

variable (s : State T) (t : Tid) (a : Addr)

@[simp] theorem goto_link (pc : Pc T) : (s.goto t pc).link = s.link := rfl

@[simp] theorem goto_data (pc : Pc T) : (s.goto t pc).data = s.data := rfl

@[simp] theorem goto_status (pc : Pc T) : (s.goto t pc).status = s.status := rfl

@[simp] theorem goto_hp (pc : Pc T) : (s.goto t pc).hp = s.hp := rfl

@[simp] theorem goto_retired (pc : Pc T) : (s.goto t pc).retired = s.retired := rfl

@[simp] theorem setHp_link (j : ℕ) (p : Option Addr) : (s.setHp t j p).link = s.link := rfl

@[simp] theorem setHp_data (j : ℕ) (p : Option Addr) : (s.setHp t j p).data = s.data := rfl

@[simp] theorem setHp_status (j : ℕ) (p : Option Addr) : (s.setHp t j p).status = s.status := rfl

@[simp] theorem setHp_retired (j : ℕ) (p : Option Addr) : (s.setHp t j p).retired = s.retired := rfl

@[simp] theorem setHp_pc (j : ℕ) (p : Option Addr) : (s.setHp t j p).pc = s.pc := rfl

@[simp] theorem setLink_data (c : Cell Addr) (l : Link) : (s.setLink c l).data = s.data := rfl

@[simp] theorem setLink_status (c : Cell Addr) (l : Link) : (s.setLink c l).status = s.status := rfl

@[simp] theorem setLink_hp (c : Cell Addr) (l : Link) : (s.setLink c l).hp = s.hp := rfl

@[simp] theorem setLink_retired (c : Cell Addr) (l : Link) :
    (s.setLink c l).retired = s.retired := rfl

@[simp] theorem setLink_pc (c : Cell Addr) (l : Link) : (s.setLink c l).pc = s.pc := rfl

@[simp] theorem setRetired_link (r : Finset Addr) : (s.setRetired t r).link = s.link := rfl

@[simp] theorem setRetired_data (r : Finset Addr) : (s.setRetired t r).data = s.data := rfl

@[simp] theorem setRetired_status (r : Finset Addr) : (s.setRetired t r).status = s.status := rfl

@[simp] theorem setRetired_hp (r : Finset Addr) : (s.setRetired t r).hp = s.hp := rfl

@[simp] theorem setRetired_pc (r : Finset Addr) : (s.setRetired t r).pc = s.pc := rfl

@[simp] theorem free_link : (s.free a).link = s.link := rfl

@[simp] theorem free_data : (s.free a).data = s.data := rfl

@[simp] theorem free_hp : (s.free a).hp = s.hp := rfl

@[simp] theorem free_retired : (s.free a).retired = s.retired := rfl

@[simp] theorem free_pc : (s.free a).pc = s.pc := rfl

@[simp] theorem newNode_hp (key : T) (value : Option ℤ) : (s.newNode a key value).hp = s.hp := rfl

@[simp] theorem newNode_retired (key : T) (value : Option ℤ) :
    (s.newNode a key value).retired = s.retired := rfl

@[simp] theorem newNode_pc (key : T) (value : Option ℤ) : (s.newNode a key value).pc = s.pc := rfl

theorem setLink_same (c : Cell Addr) (l : Link) : (s.setLink c l).link c = l :=
  Function.update_self ..

theorem setLink_of_ne {c d : Cell Addr} (l : Link) (h : d ≠ c) :
    (s.setLink c l).link d = s.link d :=
  Function.update_of_ne h ..

@[simp] theorem goto_pc_same (pc : Pc T) : (s.goto t pc).pc t = pc := Function.update_self ..

theorem goto_pc_of_ne {t u : Tid} (pc : Pc T) (h : u ≠ t) : (s.goto t pc).pc u = s.pc u :=
  Function.update_of_ne h ..

theorem free_status_of_ne {a b : Addr} (h : b ≠ a) : (s.free a).status b = s.status b :=
  Function.update_of_ne h ..

end

end State

section Machine

variable {T : Type}

/-! ## Control -/

/-- `lookupInternal` has found the key at `cur`. -/
def found (c : Call T) (prev : Cell Addr) (cur : Addr) (next : Option Addr) : Pc T :=
  match c with
  | .insert key value node => .deleteNew key value node
  | .remove key => .casMark key prev cur next
  | .help key => .done (.remove key) true none
  | .lookup key true => .readValue key cur
  | .lookup key false => .done (.lookup key false) true none

/-- `lookupInternal` returns false. -/
def notFound (c : Call T) (prev : Cell Addr) (cur : Option Addr) : Pc T :=
  match c with
  | .insert key value node => .setNext key value node prev cur
  | .remove key => .done (.remove key) false none
  | .help key => .done (.remove key) true none
  | .lookup key value => .done (.lookup key value) false none

/-- The head of the loop, `while (cur != NULL)`. -/
def loop (c : Call T) (prev : Cell Addr) : Option Addr → Pc T
  | none => notFound c prev none
  | some cur => .publish c prev cur

/-- The return of `retireNode`. -/
def resume : After T → Pc T
  | .loop c prev cur => loop c prev cur
  | .done key => .done (.remove key) true none

variable [LinearOrder T]

/-- The second validation and the comparisons of the keys. -/
def compared (valid : Bool) (c : Call T) (prev : Cell Addr) (cur : Addr) (next : Option Addr)
    (curKey : T) : Pc T :=
  if valid then
    if c.key ≤ curKey then
      if curKey = c.key then found c prev cur next else notFound c prev (some cur)
    else .swap1 c cur next
  else .start c

/-! ## Steps -/

/-- The next instruction of a thread: `n` is `num_threads_`, `maxRetired`
is `MAX_RETIRED_NODES_PER_THREAD`. -/
def tick (n maxRetired : ℕ) (s : State T) (t : Tid) : Option (State T) :=
  match s.pc t with
  | .start c => some (s.goto t (loop c .head (s.link .head).ptr))
  | .publish c prev cur => some ((s.setHp t 0 (some cur)).goto t (.validate c prev cur))
  | .validate c prev cur =>
      some (s.goto t (if s.link prev = ⟨some cur, false⟩ then .readNext c prev cur else .start c))
  | .readNext c prev cur =>
      let next := s.link (.next cur)
      some (s.goto t
        (if next.mark then .unlink c prev cur next.ptr else .readKey c prev cur next.ptr))
  | .unlink c prev cur next =>
      some (if s.link prev = ⟨some cur, false⟩ then
        (s.setLink prev ⟨next, false⟩).goto t (.retire cur (.loop c prev next))
      else s.goto t (.start c))
  | .readKey c prev cur next => some (s.goto t (.compare c prev cur next (s.data cur)))
  | .compare c prev cur next curKey =>
      some (s.goto t (compared (s.link prev = ⟨some cur, false⟩) c prev cur next curKey))
  | .readValue key cur => some (s.goto t (.done (.lookup key true) true (some (s.value cur))))
  | .swap1 c cur next =>
      some ((s.setHp t 0 (s.hp t 1)).goto t (.swap2 c cur next (s.hp t 0)))
  | .swap2 c cur next temp => some ((s.setHp t 1 temp).goto t (loop c (.next cur) next))
  | .retire node after =>
      let retired := insert node (s.retired t)
      some ((s.setRetired t retired).goto t
        (if retired.card > maxRetired then .scan ∅ 0 after else resume after))
  | .scan active pos after =>
      some (s.goto t (if pos < 2 * n then
        .scan (match s.hp (pos / 2) (pos % 2) with
          | some a => insert a active
          | none => active) (pos + 1) after
      else .sweep active (s.retired t) after))
  | .sweep _ todo after => if todo = ∅ then some (s.goto t (resume after)) else none
  | .setNext key value node prev cur =>
      some ((s.setLink (.next node) ⟨cur, false⟩).goto t (.casInsert key value node prev cur))
  | .casInsert key value node prev cur =>
      some (if s.link prev = ⟨cur, false⟩ then
        (s.setLink prev ⟨some node, false⟩).goto t (.done (.insert key value) true none)
      else s.goto t (.start (.insert key value node)))
  | .deleteNew key value node =>
      some ((s.free node).goto t (.done (.insert key value) false none))
  | .casMark key prev cur next =>
      some (if s.link (.next cur) = ⟨next, false⟩ then
        (s.setLink (.next cur) ⟨next, true⟩).goto t (.casUnlink key prev cur next)
      else s.goto t (.start (.remove key)))
  | .casUnlink key prev cur next =>
      some (if s.link prev = ⟨some cur, false⟩ then
        (s.setLink prev ⟨next, false⟩).goto t (.retire cur (.done key))
      else s.goto t (.start (.help key)))
  | _ => none

/-- One step of one thread. -/
def step (n maxRetired : ℕ) (s : State T) (l : Tid × Act T) : Option (State T) :=
  let t := l.1
  if t < n then
    match l.2, s.pc t with
    | .call (.insert key value), .idle => some (s.goto t (.new key value))
    | .call (.remove key), .idle => some (s.goto t (.start (.remove key)))
    | .call (.lookup key value), .idle => some (s.goto t (.start (.lookup key value)))
    | .alloc a, .new key value =>
        if s.status a = .live then none
        else some ((s.newNode a key value).goto t (.start (.insert key value a)))
    | .visit a, .sweep active todo after =>
        if a ∈ todo then
          some (if a ∈ active then s.goto t (.sweep active (todo.erase a) after)
            else ((s.free a).setRetired t ((s.retired t).erase a)).goto t
              (.sweep active (todo.erase a) after))
        else none
    | .ret, .done _ _ _ => some (s.goto t .idle)
    | .tick, _ => tick n maxRetired s t
    | _, _ => none
  else none

/-- An empty list that no thread uses yet. -/
structure Initial (s : State T) : Prop where
  head : s.link .head = ⟨none, false⟩
  status : ∀ a, s.status a = .fresh
  retired : ∀ t, s.retired t = ∅
  pc : ∀ t, s.pc t = .idle

/-- The list with `n` threads. -/
def machine (T : Type) [LinearOrder T] (n maxRetired : ℕ) : Lts (State T) (Tid × Act T) :=
  ⟨Initial, step n maxRetired⟩

end Machine

end LockFreeList

end HttpServer
