import Mathlib.Data.Finmap
import HttpServer.Lib.Lts
import HttpServer.SplitOrder
import HttpServer.LockFreeListSeq

/-!
# The hash table

`LockFreeHashTable` (lock_free_hash_table.cpp) as one thread uses it. All
elements are nodes of one list in split order; a bucket is a pointer to a
dummy node in that list, set when the bucket is first used.

A call has no result where the code has none: `buckets_.at` throws
outside the vector, and `% size_` needs a size.

`Map` is what the table is for: a finite map from keys to values.
-/

namespace HttpServer

namespace HashTable

open LockFreeList LockFreeList.Seq

structure Table where
  heap : Heap Word
  buckets : List (Option Addr)
  count : Word
  size : Word

/-- `(uint32_t)loadFactor_`. -/
def loadFactor : Word := 10

namespace Table

/-- `buckets_.at`. -/
def bucketAt (t : Table) (b : Word) : Option (Option Addr) := t.buckets[b.toNat]?

def setBucket (t : Table) (b : Word) (p : Option Addr) : Option Table :=
  if b.toNat < t.buckets.length then some { t with buckets := t.buckets.set b.toNat p } else none

/-- The end of `initialize_bucket`: a new dummy node, in the list from the
bucket `parent` on. -/
def linkDummy (t : Table) (bucketNo parent : Word) : Option Table := do
  let (heap, dummy) := t.heap.newNode
  let start ← t.bucketAt parent
  let (heap, dummy, _) ← insert heap (reverseDummyKey bucketNo) none start (some dummy)
  { t with heap }.setBucket bucketNo dummy

/-- `initialize_bucket`; the fuel bounds the depth of the recursion. -/
def initializeBucket : ℕ → Table → Word → Option Table
  | 0, _, _ => none
  | n + 1, t, bucketNo =>
      if bucketNo ≠ 0 then do
        let parent := getParent bucketNo
        match ← t.bucketAt parent with
        | none => (← initializeBucket n t parent).linkDummy bucketNo parent
        | some _ => t.linkDummy bucketNo parent
      else t.linkDummy bucketNo 0

/-- How every operation begins: the bucket of the key, initialized if it
is not, and what it points to. -/
def bucketFor (t : Table) (data : Word) : Option (Table × Option Addr) := do
  if t.size = 0 then none
  else
    let bucket := data % t.size
    let t ← match ← t.bucketAt bucket with
      | none => t.initializeBucket (bucket.toNat + 1) bucket
      | some _ => some t
    some (t, ← t.bucketAt bucket)

/-- The doubling at the end of `insertKey`. -/
def grow (t : Table) : Table :=
  let csize := t.size
  if t.count / csize > loadFactor then
    { t with
      buckets := t.buckets ++ List.replicate t.size.toInt.toNat none
      size := 2 * csize }
  else t

def insertKey (t : Table) (data : Word) (value : ℤ) : Option (Table × Bool) := do
  let (t, start) ← t.bucketFor data
  let (heap, _, inserted) ← insert t.heap (reverseRegularKey data) (some value) start none
  if inserted = false then some ({ t with heap }, false)
  else some ({ t with heap, count := t.count + 1 }.grow, true)

def removeKey (t : Table) (data : Word) : Option (Table × Bool) := do
  let (t, start) ← t.bucketFor data
  let (heap, removed) ← remove t.heap (reverseRegularKey data) start
  if removed = false then some ({ t with heap }, false)
  else some ({ t with heap, count := t.count - 1 }, true)

/-- The result has `*value`. -/
def findKey (t : Table) (data : Word) (value : Option ℤ) : Option (Table × Bool × Option ℤ) := do
  let (t, start) ← t.bucketFor data
  let (heap, found, value) ← lookup t.heap (reverseRegularKey data) value start
  some ({ t with heap }, found, value)

end Table

/-- A table before the constructor's own `insertKey`; `h` is what memory
held. -/
def emptyTable (h : Heap Word) : Table where
  heap := h.store (.cell .head) ⟨none, false⟩
  buckets := List.replicate 2 none
  count := 0
  size := 2

/-- The constructor. -/
def lockFreeHashTable (h : Heap Word) : Option Table :=
  ((emptyTable h).insertKey 0 0).map Prod.fst

/-! ## Runs -/

inductive Op where
  | insertKey (data : Word) (value : ℤ)
  | removeKey (data : Word)
  | findKey (data : Word) (value : Option ℤ)
deriving DecidableEq, Repr

def Op.data : Op → Word
  | .insertKey data _ => data
  | .removeKey data => data
  | .findKey data _ => data

/-- What a call returns, and `*value` of `findKey`. -/
abbrev Answer := Bool × Option ℤ

/-- One call. -/
def Table.step (t : Table) : Op → Option (Table × Answer)
  | .insertKey data value => (t.insertKey data value).map fun r => (r.1, r.2, none)
  | .removeKey data => (t.removeKey data).map fun r => (r.1, r.2, none)
  | .findKey data value => t.findKey data value

def Table.run (t : Table) : List Op → Option (Table × List Answer)
  | [] => some (t, [])
  | op :: ops => do
      let (t, answer) ← t.step op
      let (t, answers) ← t.run ops
      some (t, answer :: answers)

/-- The tables that a sequence of calls leads to. -/
def machine : Lts Table Op where
  init t := ∃ h, lockFreeHashTable h = some t
  step t op := (t.step op).map Prod.fst

/-! ## The map -/

abbrev Map := Finmap fun _ : Word => ℤ

namespace Map

def step (m : Map) : Op → Map × Answer
  | .insertKey data value =>
      if data ∈ m then (m, false, none) else (Finmap.insert data value m, true, none)
  | .removeKey data => (m.erase data, decide (data ∈ m), none)
  | .findKey data value =>
      match m.lookup data with
      | some v => (m, true, value.map fun _ => v)
      | none => (m, false, value)

def run (m : Map) : List Op → Map × List Answer
  | [] => (m, [])
  | op :: ops =>
      let r := (m.step op).1.run ops
      (r.1, (m.step op).2 :: r.2)

end Map

end HashTable

end HttpServer
