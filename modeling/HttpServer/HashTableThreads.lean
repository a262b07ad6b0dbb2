import HttpServer.HashTableMap

/-!
# The hash table in many threads

The calls of `LockFreeHashTable` (lock_free_hash_table.cpp) as steps of
threads. A call on the list is one step, and so is every access to `size_`,
`count_` or a bucket, and every `push_back`. `initialize_bucket` is
recursive; its running calls are the bucket numbers `callers`, the innermost
in front.

The constructor has run before the threads start, so bucket 0 is there.
-/

namespace HttpServer

namespace HashTable

open LockFreeList LockFreeList.Seq

namespace Threads

abbrev Tid := ℕ

/-- What a call of `initialize_bucket` does next. -/
inductive InitPc where
  /-- `if(buckets_.at(parent) == NULL)`. -/
  | parent
  /-- `buckets_.at(parent)`, the argument of `insert`. -/
  | start
  /-- `lockfreelist_->insert(reverseDummyKey(bucketNo), ...)`. -/
  | link (start : Option Addr)
  /-- `buckets_.at(bucketNo) = dummy`. -/
  | store (dummy : Option Addr)
deriving DecidableEq, Repr

/-- What a thread does next. -/
inductive Pc where
  /-- Between calls, with what the last one returned. -/
  | idle (answer : Option Answer)
  /-- `uint32_t bucket = data % size_`. -/
  | route (op : Op)
  /-- `if(buckets_.at(bucket) == NULL)`. -/
  | test (op : Op) (bucket : Word)
  | init (op : Op) (bucket bucketNo : Word) (callers : List Word) (pc : InitPc)
  /-- `buckets_.at(bucket)`, the argument of the call on the list. -/
  | start (op : Op) (bucket : Word)
  /-- The call on the list. -/
  | list (op : Op) (start : Option Addr)
  /-- `uint32_t csize = size_`. -/
  | readSize
  /-- `__sync_fetch_and_add(&count_, 1)`. -/
  | addCount (csize : Word)
  /-- `if ((count_ / csize) > (uint32_t)loadFactor_)`. -/
  | testLoad (csize : Word)
  /-- `i<(int)size_`. -/
  | testLoop (csize : Word) (i : ℕ)
  /-- `buckets_.push_back(NULL)`. -/
  | pushBack (csize : Word) (i : ℕ)
  /-- `__sync_bool_compare_and_swap(&size_, csize, 2 * csize)`. -/
  | swapSize (csize : Word)
  /-- `__sync_fetch_and_sub(&count_, 1)`. -/
  | subCount
  /-- `buckets_.at` threw, or a division was by zero. -/
  | failed
deriving DecidableEq, Repr

/-- `parent` in `initialize_bucket`. -/
def parentOf (bucketNo : Word) : Word := if bucketNo ≠ 0 then getParent bucketNo else 0

/-- The call `initialize_bucket(bucketNo)`. -/
def enter (op : Op) (bucket bucketNo : Word) (callers : List Word) : Pc :=
  .init op bucket bucketNo callers (if bucketNo ≠ 0 then .parent else .start)

/-- Its return, to the caller or to the operation. -/
def leave (op : Op) (bucket : Word) : List Word → Pc
  | [] => .start op bucket
  | caller :: callers => .init op bucket caller callers .start

/-- What follows on `buckets_.at` with the pointer that it refers to. -/
def atSlot (slot : Option (Option Addr)) (f : Option Addr → Pc) : Pc :=
  match slot with
  | none => .failed
  | some p => f p

/-- The call on the list that an operation makes. -/
def listStep (t : Table) (start : Option Addr) : Op → Option (Table × Pc)
  | .insertKey data value => do
      let (heap, _, inserted) ← insert t.heap (reverseRegularKey data) (some value) start none
      some ({ t with heap }, if inserted = false then .idle (some (false, none)) else .readSize)
  | .removeKey data => do
      let (heap, removed) ← remove t.heap (reverseRegularKey data) start
      some ({ t with heap }, if removed = false then .idle (some (false, none)) else .subCount)
  | .findKey data value => do
      let (heap, found, value) ← lookup t.heap (reverseRegularKey data) value start
      some ({ t with heap }, .idle (some (found, value)))

/-- A step of `initialize_bucket`. -/
def initStep (t : Table) (op : Op) (bucket bucketNo : Word) (callers : List Word) :
    InitPc → Option (Table × Pc)
  | .parent => some (t, atSlot (t.bucketAt (parentOf bucketNo)) fun
      | none => enter op bucket (parentOf bucketNo) (bucketNo :: callers)
      | some _ => .init op bucket bucketNo callers .start)
  | .start => some (t, atSlot (t.bucketAt (parentOf bucketNo)) fun start =>
      .init op bucket bucketNo callers (.link start))
  | .link start => do
      let (heap, dummy) := t.heap.newNode
      let (heap, dummy, _) ← insert heap (reverseDummyKey bucketNo) none start (some dummy)
      some ({ t with heap }, .init op bucket bucketNo callers (.store dummy))
  | .store dummy =>
      match t.setBucket bucketNo dummy with
      | none => some (t, .failed)
      | some t => some (t, leave op bucket callers)

/-- `return true` of `insertKey` and `removeKey`. -/
def returnTrue : Pc := .idle (some (true, none))

/-- The next step of a thread. -/
def next (t : Table) : Pc → Option (Table × Pc)
  | .idle _ | .failed => none
  | .route op => some (t, if t.size = 0 then .failed else .test op (op.data % t.size))
  | .test op bucket => some (t, atSlot (t.bucketAt bucket) fun
      | none => enter op bucket bucket []
      | some _ => .start op bucket)
  | .init op bucket bucketNo callers pc => initStep t op bucket bucketNo callers pc
  | .start op bucket => some (t, atSlot (t.bucketAt bucket) (.list op))
  | .list op start => listStep t start op
  | .readSize => some (t, .addCount t.size)
  | .addCount csize => some ({ t with count := t.count + 1 }, .testLoad csize)
  | .testLoad csize => some (t,
      if csize = 0 then .failed
      else if t.count / csize > loadFactor then .testLoop csize 0 else returnTrue)
  | .testLoop csize i => some (t,
      if (i : ℤ) < t.size.toInt then .pushBack csize i else .swapSize csize)
  | .pushBack csize i =>
      some ({ t with buckets := t.buckets ++ [none] }, .testLoop csize (i + 1))
  | .swapSize csize =>
      some (if t.size = csize then { t with size := 2 * csize } else t, returnTrue)
  | .subCount => some ({ t with count := t.count - 1 }, returnTrue)

structure State where
  table : Table
  pc : Tid → Pc

inductive Act where
  | call (tid : Tid) (op : Op)
  | run (tid : Tid)

instance : Inhabited Act := ⟨.run 0⟩

def step (s : State) : Act → Option State
  | .call tid op =>
      match s.pc tid with
      | .idle _ => some { s with pc := Function.update s.pc tid (.route op) }
      | _ => none
  | .run tid => do
      let (table, pc) ← next s.table (s.pc tid)
      some ⟨table, Function.update s.pc tid pc⟩

def machine : Lts State Act where
  init s := (∃ h, lockFreeHashTable h = some s.table) ∧ ∀ tid, s.pc tid = .idle none
  step := step

/-! ## Calls on the list -/

/-- The key and the start node of the call on the list that comes next. -/
def Pc.listCall : Pc → Option (Word × Option Addr)
  | .init _ _ bucketNo _ (.link start_) => some (reverseDummyKey bucketNo, start_)
  | .list op start_ => some (reverseRegularKey op.data, start_)
  | _ => none

/-- That call is `insert`. -/
def Pc.inserts : Pc → Bool
  | .init _ _ _ _ (.link _) => true
  | .list (.insertKey _ _) _ => true
  | _ => false

end Threads

end HashTable

end HttpServer
