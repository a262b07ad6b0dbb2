import HttpServer.BufferLive
import HttpServer.Lib.Lts
import Mathlib.Data.List.AList
import Mathlib.Data.Finset.Card
import Mathlib.Logic.Function.Basic

/-!
# The file cache

`FileCache` (file_cache.hpp, file_cache.cpp) with any number of threads
that call `pin` and `unpin`. A section of `CacheLock_` is one step, and
so is each `__sync_fetch_and_add`. What a `pin` does on its own between
the sections - open, `fstat`, the loop of reads - is one step as well;
the file system's answers come with the step.

`cache_map_` is keyed by the file name and `PinnedFiles_` is the list of
its keys in the order of their insertion. Nodes are numbered as they are
allocated, and a handle is the number of its node. An evicted node is
not deleted, so a handle stays readable. The element that follows an
erased one in the eviction loop is taken to be the next in the list, and
a `find` there that yields `end()` sets `fault`.

`returned` counts the handles that `pin` has returned and that have not
been passed to `unpin` since.
-/

namespace HttpServer

namespace FileCache

abbrev Tid := ℕ

/-- 32-bit signed arithmetic. -/
def int32 (x : ℤ) : ℤ := Int.bmod x (2 ^ 32)

/-- `count_unpin` is an `int` that `__sync_fetch_and_add` raises: it wraps. -/
structure Node where
  fileName : String
  buf : Buffer
  countUnpin : ℤ

/-- `cache_map_`: file names to nodes. -/
abbrev CacheMap := AList fun _ : String => ℕ

inductive Fatal where
  | unpinnedBefore
  | evicted
deriving DecidableEq, Repr

/-- What a thread does next in `pin`; handles that are 0 are `none`. -/
inductive Pc where
  | idle
  /-- A hit, before the pin count is raised. -/
  | hit (node : ℕ)
  /-- A miss, before the file is opened. -/
  | miss (file : String)
  /-- The file has been read; the section that inserts it. -/
  | insert (file : String) (stSize : ℕ) (buf : Buffer)
  /-- `hits_total_`. -/
  | countHit (h : Option ℕ)
  /-- `failed_total_`. -/
  | countFailed
  /-- `pins_total_`, then `return h`. -/
  | countPin (h : Option ℕ)

structure State where
  node : ℕ → Node
  allocs : ℕ
  cacheMap : CacheMap
  pinnedFiles : List String
  cacheSize : ℤ
  bytesUsed : ℤ
  bytesUnpinnedFiles : ℤ
  pinsTotal : ℤ
  hitsTotal : ℤ
  failedTotal : ℤ
  /-- `unpin(0)` has not given back the lock. -/
  locked : Bool
  pc : Tid → Pc
  returned : ℕ → ℕ
  fatals : List Fatal
  fault : Bool

/-- The answers of the environment: a call, the next step of a thread,
the outcome of opening and reading a file. -/
inductive Act where
  | pin (t : Tid) (file : String)
  | tick (t : Tid)
  | openFail (t : Tid)
  | readFail (t : Tid)
  | load (t : Tid) (stSize : ℕ) (heap : ℕ → ℕ → UInt8) (reads : List (List UInt8))
  | unpin (h : Option ℕ)

instance : Inhabited Act := ⟨.tick 0⟩

/-! ## Reading a file -/

/-- The loop of reads with what each `read` returns; `toRead` is a
`size_t`. It ends when `toRead` is 0. -/
def readLoop : List (List UInt8) → ℕ → Buffer → Option Buffer
  | [], toRead, b => if toRead = 0 then some b else none
  | bytes :: reads, toRead, b =>
      let b := (b.reserve Buffer.BlockSize).1
      if toRead > 0 ∧ bytes.length ≤ b.writeSize then
        readLoop reads ((toRead + (2 ^ 64 - bytes.length)) % 2 ^ 64) (b.store bytes)
      else none

/-- `new_buf` after the loop, which has left `to_read` at 0. -/
def load (stSize : ℕ) (heap : ℕ → ℕ → UInt8) (reads : List (List UInt8)) : Option Buffer :=
  (readLoop reads stSize (Buffer.new heap)).map fun b => (b.advance stSize).1

/-! ## Eviction -/

/-- What the eviction loop leaves behind. -/
structure Evicted where
  files : List String
  cacheMap : CacheMap
  bytesUsed : ℤ
  freeSpace : ℤ

/-- The eviction loop over the rest of `PinnedFiles_`. -/
def evictLoop (node : ℕ → Node) (maxSize : ℤ) (stSize : ℕ) :
    List String → CacheMap → ℤ → ℤ → Option Evicted
  | [], m, used, free => some ⟨[], m, used, free⟩
  | file :: files, m, used, free =>
      match m.lookup file with
      | none => none
      | some a =>
          if (node a).countUnpin = 0 then
            let used := used - (node a).buf.byteCount
            let m := m.erase file
            let free := maxSize - used
            if free ≥ stSize then some ⟨files, m, used, free⟩
            else evictLoop node maxSize stSize files m used free
          else if free ≥ stSize then some ⟨file :: files, m, used, free⟩
          else
            (evictLoop node maxSize stSize files m used free).map fun e =>
              { e with files := file :: e.files }

namespace State

def goto (s : State) (t : Tid) (pc : Pc) : State := { s with pc := Function.update s.pc t pc }

def setNode (s : State) (a : ℕ) (x : Node) : State := { s with node := Function.update s.node a x }

/-- The section of the lookup. -/
def lookup (s : State) (t : Tid) (file : String) : State :=
  match s.cacheMap.lookup file with
  | some a => s.goto t (.hit a)
  | none => s.goto t (.miss file)

/-- `new Node` and the insertion into `cache_map_`. -/
def insertNode (s : State) (t : Tid) (file : String) (buf : Buffer) : State :=
  let a := s.allocs
  let s := { s.setNode a ⟨file, buf, 1⟩ with allocs := a + 1 }
  match s.cacheMap.lookup file with
  | none =>
      { s with
        cacheMap := s.cacheMap.insert file a
        bytesUsed := s.bytesUsed + buf.byteCount
        pinnedFiles := s.pinnedFiles ++ [file] }.goto t (.countPin (some a))
  | some _ => s.goto t (.countHit none)

/-- The test that lets the eviction loop run. -/
def evicts (s : State) (stSize : ℕ) : Bool :=
  let freeSpace := s.cacheSize - s.bytesUsed
  ¬freeSpace ≥ stSize ∧ ¬int32 (freeSpace + s.bytesUnpinnedFiles) < stSize

/-- The eviction loop of a request for `stSize` bytes. -/
def evict (s : State) (stSize : ℕ) : Option Evicted :=
  evictLoop s.node s.cacheSize stSize s.pinnedFiles s.cacheMap s.bytesUsed
    (s.cacheSize - s.bytesUsed)

/-- The section after the file was read. -/
def insertFile (s : State) (t : Tid) (file : String) (stSize : ℕ) (buf : Buffer) : State :=
  if s.cacheSize - s.bytesUsed ≥ stSize then s.insertNode t file buf
  else if s.evicts stSize then
    match s.evict stSize with
    | none => { s with fault := true }
    | some e =>
        let s := { s with cacheMap := e.cacheMap, bytesUsed := e.bytesUsed, pinnedFiles := e.files }
        if e.freeSpace ≥ stSize then s.insertNode t file buf else s.goto t .countFailed
  else s.goto t .countFailed

/-- `unpin`. -/
def unpin (s : State) : Option ℕ → State
  | none => { s with locked := true }
  | some h =>
      let s := { s with returned := Function.update s.returned h (s.returned h - 1) }
      match s.cacheMap.lookup (s.node h).fileName with
      | some a =>
          let x := s.node a
          if x.countUnpin > 0 then
            { s.setNode a { x with countUnpin := x.countUnpin - 1 } with
              bytesUnpinnedFiles := int32 (s.bytesUnpinnedFiles + x.buf.byteCount) }
          else { s with fatals := s.fatals ++ [.unpinnedBefore] }
      | none => { s with fatals := s.fatals ++ [.evicted] }

end State

/-! ## Steps -/

/-- The next step of a thread. -/
def tick (s : State) (t : Tid) : Option State :=
  match s.pc t with
  | .hit a =>
      let x := s.node a
      some ((s.setNode a { x with countUnpin := int32 (x.countUnpin + 1) }).goto t
        (.countHit (some a)))
  | .insert file stSize buf => if s.locked then none else some (s.insertFile t file stSize buf)
  | .countHit h => some ({ s with hitsTotal := s.hitsTotal + 1 }.goto t (.countPin h))
  | .countFailed => some ({ s with failedTotal := s.failedTotal + 1 }.goto t (.countPin none))
  | .countPin none => some ({ s with pinsTotal := s.pinsTotal + 1 }.goto t .idle)
  | .countPin (some a) =>
      some ({ s with
        pinsTotal := s.pinsTotal + 1
        returned := Function.update s.returned a (s.returned a + 1) }.goto t .idle)
  | _ => none

/-- One step of a cache used by `n` threads. -/
def step (n : ℕ) (s : State) : Act → Option State
  | .pin t file =>
      match s.pc t with
      | .idle => if t < n ∧ s.locked = false then some (s.lookup t file) else none
      | _ => none
  | .tick t => tick s t
  | .openFail t =>
      match s.pc t with
      | .miss _ => some (s.goto t (.countPin none))
      | _ => none
  | .readFail t =>
      match s.pc t with
      | .miss _ => some (s.goto t .idle)
      | _ => none
  | .load t stSize heap reads =>
      match s.pc t with
      | .miss file => (load stSize heap reads).map fun buf => s.goto t (.insert file stSize buf)
      | _ => none
  | .unpin h =>
      if s.locked = false ∧ ∀ a ∈ h, a < s.allocs then some (s.unpin h) else none

/-- A new cache of any size. -/
structure Initial (s : State) : Prop where
  allocs : s.allocs = 0
  cacheMap : s.cacheMap = ∅
  pinnedFiles : s.pinnedFiles = []
  cacheSize : 0 ≤ s.cacheSize
  bytesUsed : s.bytesUsed = 0
  bytesUnpinnedFiles : s.bytesUnpinnedFiles = 0
  locked : s.locked = false
  pc : ∀ t, s.pc t = .idle
  returned : ∀ a, s.returned a = 0
  fatals : s.fatals = []
  fault : s.fault = false

def machine (n : ℕ) : Lts State Act := ⟨Initial, step n⟩

end FileCache

end HttpServer
