import HttpServer.LockFreeList

/-!
# The lock-free list in one thread

The same calls of `LockFreeList` (lock_free_list.hpp) as functions, for a
client that makes them from one thread, and with the two parameters that
the hash table uses: `start_`, the node at which a traversal begins, and
`dummyNode`, through which `insert` takes the node to link in and gives
back the one that holds the key.

A traversal that begins at a node does so through the parameter `start_`
itself (`startingPointer = &start_`), so that variable is one of the
places a pointer is read from, compared and swapped in. The loops carry
fuel; without enough of it a call has no result. Hazard slots, retired
nodes and `delete` do not show in the results of a single thread and are
left out; `new` returns addresses it has not returned before.
-/

namespace HttpServer

namespace LockFreeList

open Chain

namespace Seq

/-- Where a pointer is kept: in the list, or in the parameter `start_` of
the running call. -/
inductive Place where
  | param
  | cell (c : Cell Addr)
deriving DecidableEq, Repr

structure Heap (T : Type) where
  link : Place → Link
  data : Addr → T
  value : Addr → ℤ
  /-- The address that `new` returns next. -/
  fresh : Addr

/-- What `lookupInternal` leaves: the heap, the fields of the
`LookupContext`, `*value` (if there is one), and its answer. -/
structure Lookup (T : Type) where
  heap : Heap T
  prev : Place
  cur : Option Addr
  next : Option Addr
  value : Option ℤ
  found : Bool

variable {T : Type}

namespace Heap

def store (h : Heap T) (p : Place) (l : Link) : Heap T :=
  { h with link := Function.update h.link p l }

/-- `__sync_bool_compare_and_swap`. -/
def cas (h : Heap T) (p : Place) (old new : Link) : Heap T × Bool :=
  if h.link p = old then (h.store p new, true) else (h, false)

/-- `new Node`. -/
def newNode (h : Heap T) : Heap T × Addr :=
  ({ h.store (.cell (.next h.fresh)) ⟨none, false⟩ with fresh := h.fresh + 1 }, h.fresh)

/-- The node of an `insert`: its own, or the one in `*dummyNode`. -/
def takeNode (h : Heap T) : Option Addr → Heap T × Addr
  | none => h.newNode
  | some node => (h, node)

/-- The stores of `insert` to its node. -/
def setNode (h : Heap T) (a : Addr) (key : T) (value : Option ℤ) : Heap T :=
  { h with
    data := Function.update h.data a key
    value := match value with
      | some v => Function.update h.value a v
      | none => h.value }

/-- The parameter `start_` of a call. -/
def enter (h : Heap T) (start_ : Option Addr) : Heap T := h.store .param ⟨start_, false⟩

/-- How many rounds the loops may take: more than there are nodes. -/
def fuel (h : Heap T) : ℕ := h.fresh + 1

end Heap

def startingPointer : Option Addr → Place
  | none => .cell .head
  | some _ => .param

section

variable [LinearOrder T]

/-- The loop of `lookupInternal`; `next` is what the last round left in
that variable. -/
def lookupLoop (start : Place) (key : T) (value : Option ℤ) :
    ℕ → Heap T → Place → Option Addr → Option Addr → Option (Lookup T)
  | 0, _, _, _, _ => none
  | _ + 1, h, prev, none, next => some ⟨h, prev, none, next, value, false⟩
  | n + 1, h, prev, some cur, next =>
      if h.link prev ≠ ⟨some cur, false⟩ then
        lookupLoop start key value n h start (h.link start).ptr next
      else
        let next := h.link (.cell (.next cur))
        if next.mark then
          let (h, swapped) := h.cas prev ⟨some cur, false⟩ ⟨next.ptr, false⟩
          if swapped then lookupLoop start key value n h prev next.ptr next.ptr
          else lookupLoop start key value n h start (h.link start).ptr next.ptr
        else if h.link prev ≠ ⟨some cur, false⟩ then
          lookupLoop start key value n h start (h.link start).ptr next.ptr
        else if key ≤ h.data cur then
          if h.data cur = key then
            some ⟨h, prev, some cur, next.ptr, value.map fun _ => h.value cur, true⟩
          else some ⟨h, prev, some cur, next.ptr, value, false⟩
        else lookupLoop start key value n h (.cell (.next cur)) next.ptr next.ptr

def lookupInternal (h : Heap T) (start : Place) (key : T) (value : Option ℤ) :
    Option (Lookup T) :=
  lookupLoop start key value h.fuel h start (h.link start).ptr none

/-- The loop of `insert`; the result has `*dummyNode`. -/
def insertLoop (start : Place) (key : T) (node : Addr) (dummyNode : Option Addr) :
    ℕ → Heap T → Option (Heap T × Option Addr × Bool)
  | 0, _ => none
  | n + 1, h => do
      let ctx ← lookupInternal h start key none
      if ctx.found then
        some (ctx.heap, if dummyNode ≠ none then ctx.cur else none, false)
      else
        let h := ctx.heap.store (.cell (.next node)) ⟨ctx.cur, false⟩
        let (h, swapped) := h.cas ctx.prev ⟨ctx.cur, false⟩ ⟨some node, false⟩
        if swapped then some (h, dummyNode, true)
        else insertLoop start key node dummyNode n h

def insert (h : Heap T) (key : T) (value : Option ℤ) (start_ dummyNode : Option Addr) :
    Option (Heap T × Option Addr × Bool) :=
  let (h, node) := (h.enter start_).takeNode dummyNode
  let h := h.setNode node key value
  insertLoop (startingPointer start_) key node dummyNode h.fuel h

/-- The loop of `remove`. -/
def removeLoop (start : Place) (key : T) : ℕ → Heap T → Option (Heap T × Bool)
  | 0, _ => none
  | n + 1, h => do
      let ctx ← lookupInternal h start key none
      match ctx.found, ctx.cur with
      | true, some cur =>
          let (h, marked) := ctx.heap.cas (.cell (.next cur)) ⟨ctx.next, false⟩ ⟨ctx.next, true⟩
          if marked then
            let (h, unlinked) := h.cas ctx.prev ⟨some cur, false⟩ ⟨ctx.next, false⟩
            if unlinked then some (h, true)
            else do
              let ctx ← lookupInternal h start key none
              some (ctx.heap, true)
          else removeLoop start key n h
      | _, _ => some (ctx.heap, false)

def remove (h : Heap T) (key : T) (start_ : Option Addr) : Option (Heap T × Bool) :=
  let h := h.enter start_
  removeLoop (startingPointer start_) key h.fuel h

/-- The result has `*value`. -/
def lookup (h : Heap T) (key : T) (value : Option ℤ) (start_ : Option Addr) :
    Option (Heap T × Bool × Option ℤ) := do
  let ctx ← lookupInternal (h.enter start_) (startingPointer start_) key value
  some (ctx.heap, ctx.found, ctx.value)

end

end Seq

end LockFreeList

end HttpServer
