import HttpServer.FileCacheEvict
import HttpServer.Lib.RwLock

/-!
# One call of `pin`

`FileCache::pin` from its start to its return: the handle, what it
writes to `*buf` and `*error`, the calls on `CacheLock_` and the
counters, in the order of the source. Other threads may act between the
section of the lookup and the one that inserts the file, which finds the
cache in a state of its own. Without them a call is a run of the machine
(`pin_exec`).

`pin` assigns its parameter `error` where it should assign `*error`, so
`*error` keeps the value that it had before the call.
-/

namespace HttpServer

namespace FileCache

open ShortestPrefix

variable {n : ℕ} {s s₁ s₂ : State} {file : String} {stSize : ℕ}

/-- What the file system answers to a pin that has missed. A call that
fails sets `errno`, which is then not 0. -/
inductive Answer where
  | openFail (errno : ℤ) (h : errno ≠ 0)
  /-- `fstat` fails, and leaves `stat_buf` as it is. -/
  | statFail
  | readFail (errno : ℤ) (h : errno ≠ 0)
  /-- All the reads of a loop that ends. -/
  | load (stSize : ℕ) (heap : ℕ → ℕ → UInt8) (reads : List (List UInt8))
      (h : (load stSize heap reads).isSome = true)
  /-- Reads that never make `to_read` 0. -/
  | endless (stSize : ℕ) (heap : ℕ → ℕ → UInt8) (reads : ℕ → List UInt8)
      (bound : ∀ k, (reads k).length ≤ Buffer.BlockSize)
      (h : ∀ k, FileCache.load stSize heap ((List.range k).map reads) = none)

namespace State

/-- `__sync_fetch_and_add(&node->count_unpin, 1)`. -/
def raise (s : State) (a : ℕ) : State :=
  s.setNode a { s.node a with countUnpin := int32 ((s.node a).countUnpin + 1) }

def addHits (s : State) : State := { s with hitsTotal := s.hitsTotal + 1 }

def addFailed (s : State) : State := { s with failedTotal := s.failedTotal + 1 }

def addPins (s : State) : State := { s with pinsTotal := s.pinsTotal + 1 }

/-- The caller has the handle. -/
def ret (s : State) : Option ℕ → State
  | none => s
  | some a => { s with returned := Function.update s.returned a (s.returned a + 1) }

end State

/-- A call of `pin` under way. -/
structure Frame where
  cache : State
  h : Option ℕ
  /-- What has been written to `*buf`: nothing yet, 0, the buffer of a node. -/
  buf : Option (Option ℕ)
  /-- `*error`. -/
  error : ℤ
  /-- The calls on `CacheLock_` so far. -/
  locks : List RwLock.Op

namespace Frame

def start (s : State) (error : ℤ) : Frame := ⟨s, none, none, error, []⟩

def lock (f : Frame) (op : RwLock.Op) : Frame := { f with locks := f.locks ++ [op] }

def update (f : Frame) (g : State → State) : Frame := { f with cache := g f.cache }

/-- From `new Node` to the end of the branch. -/
def insertNode (f : Frame) (file : String) (newBuf : Buffer) : Frame :=
  let a := f.cache.allocs
  let f := { f.update (·.newNode file newBuf) with buf := some (some a) }
  match f.cache.cacheMap.lookup file with
  | none => { f.update (·.addNode file a newBuf) with h := some a }.lock .unlock
  -- `delete new_buf`, to which `*buf` points now
  | some _ => (f.lock .unlock).update (·.addHits)

/-- `error = 0` sets the parameter. -/
def noSpace (f : Frame) : Frame :=
  ({ f with buf := some none }.lock .unlock).update (·.addFailed)

/-- `pins_total_` is counted and `h` returned. -/
def finish (f : Frame) : Frame := f.update fun s => s.addPins.ret f.h

end Frame

/-- `pin`; `s₂` is the cache as the other threads have left it when the
file has been read. There is no result when the loop of reads goes on for
ever, or starts with a size that was never set. -/
def pin (f : Frame) (s₂ : State) (file : String) (answer : Answer) : Option Frame :=
  let f := f.lock .rLock
  match f.cache.cacheMap.lookup file with
  | some a =>
      let f := { f with h := some a, buf := some (some a) }.lock .unlock
      some ((f.update (·.raise a)).update (·.addHits)).finish
  | none =>
      let f := (f.lock .unlock).update fun _ => s₂
      match answer with
      -- `error = &errno` sets the parameter
      | .openFail _ _ => some f.finish
      -- the result of `fstat` is not looked at
      | .statFail => none
      -- `return h` inside the branch
      | .readFail _ _ => some f
      | .endless _ _ _ _ _ => none
      | .load stSize heap reads _ =>
          (load stSize heap reads).bind fun newBuf =>
            let f := f.lock .wLock
            let freeSpace := f.cache.cacheSize - f.cache.bytesUsed
            if freeSpace ≥ stSize then some (f.insertNode file newBuf).finish
            else if int32 (freeSpace + f.cache.bytesUnpinnedFiles) < stSize then
              some f.noSpace.finish
            else
              (f.cache.evict stSize).map fun (e : Evicted) =>
                let f := f.update fun s =>
                  { s with
                    cacheMap := e.cacheMap
                    bytesUsed := e.bytesUsed
                    pinnedFiles := e.files }
                if e.freeSpace ≥ stSize then (f.insertNode file newBuf).finish
                else f.noSpace.finish

/-! ## How a call can end -/

/-- There is room for the file, at once or after evictions. -/
inductive Fits (s : State) (stSize : ℕ) : State → Prop where
  | space (h : stSize ≤ s.freeSpace) : Fits s stSize s
  | evict (hev : s.evicts stSize = true)
      (h : stSize ≤ s.freeSpace + total s.sizeOf (s.victims stSize)) :
      Fits s stSize (s.evicted stSize)

/-- There is not: the early test says so, or the evictions were not enough. -/
inductive Short (s : State) (stSize : ℕ) : State → Prop where
  | early (hfree : s.freeSpace < stSize) (h : s.evicts stSize = false) : Short s stSize s
  | late (hev : s.evicts stSize = true)
      (h : s.freeSpace + total s.sizeOf (s.victims stSize) < stSize) :
      Short s stSize (s.evicted stSize)

theorem Fits.pc (h : Fits s stSize s₁) : s₁.pc = s.pc := by
  cases h <;> rfl

theorem Short.pc (h : Short s stSize s₁) : s₁.pc = s.pc := by
  cases h <;> rfl

/-- The calls on the lock of a call that reads the file. -/
def bothSections : List RwLock.Op := [.rLock, .unlock, .wLock, .unlock]

/-- The ends of a call. -/
inductive Ends (s s₂ : State) (file : String) (error : ℤ) : Answer → Frame → Prop where
  | hit {answer a} (ha : s.cacheMap.lookup file = some a) :
      Ends s s₂ file error answer
        ⟨((s.raise a).addHits.addPins).ret (some a), some a, some (some a), error,
          [.rLock, .unlock]⟩
  | openFail {errno h} (hmiss : s.cacheMap.lookup file = none) :
      Ends s s₂ file error (.openFail errno h) ⟨s₂.addPins, none, none, error, [.rLock, .unlock]⟩
  | readFail {errno h} (hmiss : s.cacheMap.lookup file = none) :
      Ends s s₂ file error (.readFail errno h) ⟨s₂, none, none, error, [.rLock, .unlock]⟩
  | inserted {stSize heap reads h newBuf s₁} (hmiss : s.cacheMap.lookup file = none)
      (hload : load stSize heap reads = some newBuf) (hfits : Fits s₂ stSize s₁)
      (hnew : s₁.cacheMap.lookup file = none) :
      Ends s s₂ file error (.load stSize heap reads h)
        ⟨(((s₁.newNode file newBuf).addNode file s₁.allocs newBuf).addPins).ret (some s₁.allocs),
          some s₁.allocs, some (some s₁.allocs), error, bothSections⟩
  | lost {stSize heap reads h newBuf s₁ a} (hmiss : s.cacheMap.lookup file = none)
      (hload : load stSize heap reads = some newBuf) (hfits : Fits s₂ stSize s₁)
      (hold : s₁.cacheMap.lookup file = some a) :
      Ends s s₂ file error (.load stSize heap reads h)
        ⟨(s₁.newNode file newBuf).addHits.addPins, none, some (some s₁.allocs), error,
          bothSections⟩
  | refused {stSize heap reads h newBuf s₁} (hmiss : s.cacheMap.lookup file = none)
      (hload : load stSize heap reads = some newBuf) (hshort : Short s₂ stSize s₁) :
      Ends s s₂ file error (.load stSize heap reads h)
        ⟨s₁.addFailed.addPins, none, some none, error, bothSections⟩

/-- The section that inserts the file, when there is room. -/
theorem insertNode_ends {error : ℤ} {heap : ℕ → ℕ → UInt8}
    {reads : List (List UInt8)} {h : (load stSize heap reads).isSome = true} {newBuf : Buffer}
    (hmiss : s.cacheMap.lookup file = none) (hload : load stSize heap reads = some newBuf)
    (hfits : Fits s₂ stSize s₁) :
    Ends s s₂ file error (.load stSize heap reads h)
      ((Frame.mk s₁ none none error [.rLock, .unlock, .wLock]).insertNode file newBuf).finish := by
  unfold Frame.insertNode
  simp only
  split
  · rename_i hnew
    exact .inserted hmiss hload hfits hnew
  · rename_i a hold
    exact .lost hmiss hload hfits hold

theorem pin_ends (hA : Acct s₂) {error : ℤ} {answer : Answer} {r : Frame}
    (h : pin (.start s error) s₂ file answer = some r) : Ends s s₂ file error answer r := by
  unfold pin at h
  simp only at h
  split at h
  · rename_i a ha
    obtain rfl := Option.some.inj h
    exact .hit ha
  · rename_i hmiss
    have hmiss : s.cacheMap.lookup file = none := hmiss
    cases answer with
    | openFail errno he =>
        obtain rfl := Option.some.inj h
        exact .openFail hmiss
    | statFail => cases h
    | readFail errno he =>
        obtain rfl := Option.some.inj h
        exact .readFail hmiss
    | endless stSize heap reads hbound hno => cases h
    | load stSize heap reads hend =>
        obtain ⟨newBuf, hload, h⟩ := Option.bind_eq_some_iff.mp h
        split at h
        · rename_i hfree
          obtain rfl := Option.some.inj h
          exact insertNode_ends hmiss hload (.space hfree)
        · rename_i hfree
          have hlt : s₂.freeSpace < stSize := not_le.mp hfree
          split at h
          · rename_i hearly
            obtain rfl := Option.some.inj h
            exact .refused hmiss hload (.early hlt ((evicts_eq_false_iff hlt).mpr hearly))
          · rename_i hearly
            have hev : s₂.evicts stSize = true := by
              rw [← Bool.not_eq_false, evicts_eq_false_iff hlt]
              exact hearly
            obtain ⟨e, he, rfl⟩ := Option.map_eq_some_iff.mp h
            obtain rfl := Option.some.inj (he.symm.trans (hA.evict_eq hlt))
            split
            · rename_i hle
              exact insertNode_ends hmiss hload (.evict hev hle)
            · rename_i hle
              exact .refused hmiss hload (.late hev (not_le.mp hle))

/-- The answers with which `pin` returns. -/
def Answer.Returns : Answer → Prop
  | .statFail => False
  | .endless _ _ _ _ _ => False
  | _ => True

section Steps

variable {t : Tid} {p : Pc}

theorem goto_goto (s : State) (t : Tid) (p q : Pc) : (s.goto t p).goto t q = s.goto t q := by
  unfold State.goto
  rw [Function.update_idem]

theorem goto_self (h : s.pc t = p) : s.goto t p = s := by
  unfold State.goto
  rw [← h, Function.update_eq_self]

theorem tick_hit (s : State) (t : Tid) (a : ℕ) :
    tick (s.goto t (.hit a)) t = some ((s.raise a).goto t (.countHit (some a))) := by
  unfold tick
  rw [goto_pc_same]
  exact congrArg some (goto_goto (s.raise a) t _ _)

theorem tick_countHit (s : State) (t : Tid) (h : Option ℕ) :
    tick (s.goto t (.countHit h)) t = some (s.addHits.goto t (.countPin h)) := by
  unfold tick
  rw [goto_pc_same]
  exact congrArg some (goto_goto s.addHits t _ _)

theorem tick_countFailed (s : State) (t : Tid) :
    tick (s.goto t .countFailed) t = some (s.addFailed.goto t (.countPin none)) := by
  unfold tick
  rw [goto_pc_same]
  exact congrArg some (goto_goto s.addFailed t _ _)

theorem tick_countPin (s : State) (t : Tid) (h : Option ℕ) :
    tick (s.goto t (.countPin h)) t = some ((s.addPins.ret h).goto t .idle) := by
  unfold tick
  rw [goto_pc_same]
  cases h with
  | none => exact congrArg some (goto_goto s.addPins t _ _)
  | some a => exact congrArg some (goto_goto (s.addPins.ret (some a)) t _ _)

/-- What the thread did before does not matter to the insertion. -/
theorem insertNode_goto (s : State) (t : Tid) (p : Pc) (file : String) (buf : Buffer) :
    (s.goto t p).insertNode t file buf = s.insertNode t file buf := by
  cases hfile : s.cacheMap.lookup file with
  | none =>
      rw [insertNode_of_none t buf hfile, insertNode_of_none (s := s.goto t p) t buf hfile]
      exact goto_goto ((s.newNode file buf).addNode file s.allocs buf) t p _
  | some a =>
      rw [insertNode_of_some t buf hfile, insertNode_of_some (s := s.goto t p) t buf hfile]
      exact goto_goto (s.newNode file buf) t p _

theorem tick_insert (hlock : s.locked = false) (buf : Buffer) :
    tick (s.goto t (.insert file stSize buf)) t
      = some ((s.goto t (.insert file stSize buf)).insertFile t file stSize buf) := by
  unfold tick
  have hfree : ¬(s.goto t (.insert file stSize buf)).locked = true := by
    rw [show (s.goto t _).locked = s.locked from rfl, hlock]
    exact Bool.false_ne_true
  rw [goto_pc_same]
  exact if_neg hfree

theorem Acct.insertFile_of_fits (h : Acct s) (hfits : Fits s stSize s₁) (buf : Buffer) :
    s.insertFile t file stSize buf = s₁.insertNode t file buf := by
  rw [h.insertFile_eq]
  cases hfits with
  | space hle => rw [if_pos hle]
  | evict hev hle => rw [if_neg (not_le.mpr (freeSpace_lt_of_evicts hev)), if_pos hev, if_pos hle]

theorem Acct.insertFile_of_short (h : Acct s) (hshort : Short s stSize s₁) (buf : Buffer) :
    s.insertFile t file stSize buf = s₁.goto t .countFailed := by
  rw [h.insertFile_eq]
  cases hshort with
  | early hfree hev => rw [if_neg (not_le.mpr hfree), if_neg (by simp [hev])]
  | late hev hlt =>
      rw [if_neg (not_le.mpr (freeSpace_lt_of_evicts hev)), if_pos hev, if_neg (not_le.mpr hlt)]

theorem Fits.goto (h : Fits s stSize s₁) (t : Tid) (p : Pc) :
    Fits (s.goto t p) stSize (s₁.goto t p) := by
  cases h with
  | space h => exact .space h
  | evict hev h => exact .evict (s := s.goto t p) hev h

theorem Short.goto (h : Short s stSize s₁) (t : Tid) (p : Pc) :
    Short (s.goto t p) stSize (s₁.goto t p) := by
  cases h with
  | early hfree hev => exact .early (s := s.goto t p) hfree hev
  | late hev h => exact .late (s := s.goto t p) hev h

end Steps

theorem exec_cons {as : List Act} {a : Act} (h : step n s a = some s₁) :
    (machine n).exec (fun _ _ => True) s (a :: as) = (machine n).exec (fun _ _ => True) s₁ as := by
  rw [Lts.exec, if_pos trivial, show (machine n).step s a = some s₁ from h]
  rfl

theorem exec_tick {t : Tid} {as : List Act} (h : tick s t = some s₁) :
    (machine n).exec (fun _ _ => True) s (.tick t :: as)
      = (machine n).exec (fun _ _ => True) s₁ as :=
  exec_cons h

theorem step_miss {t : Tid} (ht : t < n) (hpc : s.pc t = .idle) (hlock : s.locked = false)
    (hmiss : s.cacheMap.lookup file = none) :
    step n s (.pin t file) = some (s.goto t (.miss file)) := by
  simp [step, hpc, ht, hlock, State.lookup, hmiss]

/-- A miss, up to the section that inserts the file. -/
theorem exec_insert {t : Tid} {heap : ℕ → ℕ → UInt8} {reads : List (List UInt8)} {buf : Buffer}
    (hA : Acct s) (ht : t < n) (hpc : s.pc t = .idle) (hlock : s.locked = false)
    (hmiss : s.cacheMap.lookup file = none) (hload : load stSize heap reads = some buf) :
    Acct (s.goto t (.insert file stSize buf))
      ∧ ∀ as, (machine n).exec (fun _ _ => True) s
            (.pin t file :: .load t stSize heap reads :: .tick t :: as)
          = (machine n).exec (fun _ _ => True)
            ((s.goto t (.insert file stSize buf)).insertFile t file stSize buf) as := by
  have hpin := step_miss ht hpc hlock hmiss
  have hread : step n (s.goto t (.miss file)) (.load t stSize heap reads)
      = some (s.goto t (.insert file stSize buf)) := by
    simp only [step, goto_pc_same, hload, Option.map_some, goto_goto]
  refine ⟨(hA.move (step_move hpin)).move (step_move hread), fun as => ?_⟩
  rw [exec_cons hpin, exec_cons hread, exec_tick (tick_insert hlock buf)]

/-- A call in which no other thread acts is a run of the machine, and leaves
its thread idle. -/
theorem pin_exec {t : Tid} {answer : Answer} {error : ℤ} {r : Frame} (hA : Acct s) (ht : t < n)
    (hpc : s.pc t = .idle) (hlock : s.locked = false)
    (h : pin (.start s error) s file answer = some r) :
    ∃ acts, (machine n).exec (fun _ _ => True) s acts = some r.cache := by
  -- back at idle the thread is where it was
  have hidle : ∀ x : State, x.pc = s.pc → x.goto t .idle = x := fun x hx =>
    goto_self (by rw [hx, hpc])
  have hret : ∀ (x : State) (h : Option ℕ), x.pc = s.pc →
      (machine n).exec (fun _ _ => True) (x.goto t (.countPin h)) [.tick t]
        = some (x.addPins.ret h) := fun x h hx => by
    rw [exec_tick (tick_countPin x t h), hidle]
    · rfl
    · cases h <;> exact hx
  cases pin_ends hA h with
  | @hit _ a ha =>
      refine ⟨[.pin t file, .tick t, .tick t, .tick t], ?_⟩
      have hpin : step n s (.pin t file) = some (s.goto t (.hit a)) := by
        simp [step, hpc, ht, hlock, State.lookup, ha]
      rw [exec_cons hpin, exec_tick (tick_hit s t a), exec_tick (tick_countHit _ t _),
        hret (s.raise a).addHits _ rfl]
  | openFail hmiss =>
      refine ⟨[.pin t file, .openFail t, .tick t], ?_⟩
      have hopen : step n (s.goto t (.miss file)) (.openFail t)
          = some (s.goto t (.countPin none)) := by
        simp only [step, goto_pc_same, goto_goto]
      rw [exec_cons (step_miss ht hpc hlock hmiss), exec_cons hopen, hret s _ rfl]
      rfl
  | readFail hmiss =>
      refine ⟨[.pin t file, .readFail t], ?_⟩
      have hread : step n (s.goto t (.miss file)) (.readFail t) = some (s.goto t .idle) := by
        simp only [step, goto_pc_same, goto_goto]
      rw [exec_cons (step_miss ht hpc hlock hmiss), exec_cons hread, hidle s rfl]
      rfl
  | @inserted stSize heap reads _ newBuf s₁ hmiss hload hfits hnew =>
      obtain ⟨hA', hexec⟩ := exec_insert hA ht hpc hlock hmiss hload
      refine ⟨[.pin t file, .load t stSize heap reads, .tick t, .tick t], ?_⟩
      rw [hexec, hA'.insertFile_of_fits (hfits.goto t _), insertNode_goto,
        insertNode_of_none t newBuf hnew]
      exact hret ((s₁.newNode file newBuf).addNode file s₁.allocs newBuf) _ hfits.pc
  | @lost stSize heap reads _ newBuf s₁ a hmiss hload hfits hold =>
      obtain ⟨hA', hexec⟩ := exec_insert hA ht hpc hlock hmiss hload
      refine ⟨[.pin t file, .load t stSize heap reads, .tick t, .tick t, .tick t], ?_⟩
      rw [hexec, hA'.insertFile_of_fits (hfits.goto t _), insertNode_goto,
        insertNode_of_some t newBuf hold, exec_tick (tick_countHit (s₁.newNode file newBuf) t none)]
      exact hret (s₁.newNode file newBuf).addHits _ hfits.pc
  | @refused stSize heap reads _ newBuf s₁ hmiss hload hshort =>
      obtain ⟨hA', hexec⟩ := exec_insert hA ht hpc hlock hmiss hload
      refine ⟨[.pin t file, .load t stSize heap reads, .tick t, .tick t, .tick t], ?_⟩
      rw [hexec, hA'.insertFile_of_short (hshort.goto t _), goto_goto,
        exec_tick (tick_countFailed s₁ t)]
      exact hret s₁.addFailed _ hshort.pc

end FileCache

end HttpServer
