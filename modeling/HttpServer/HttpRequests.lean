import HttpServer.FileCachePins
import HttpServer.HttpConnection

/-!
# Requests on a shared cache

`HTTPServerConnection::handleRequest` (http_connection.cpp) on any number
of connections that share one `FileCache`: a thread that handles a
request goes through the steps of `pin` and answers from the buffer it
got. The handle is not passed to `unpin` on any way out, so a file that
was pinned once stays in the cache, pinned, until its count wraps
(`requests_unpinned_iff`). The statistics come with the request.
-/

namespace HttpServer

namespace HttpRequests

open HttpConnection

abbrev Tid := ℕ

/-- Where a thread is in `handleRequest`; `conn` is its connection. -/
inductive Phase where
  | idle
  | pin (conn : ℕ)
  | answer (conn : ℕ) (h : Option ℕ)
deriving DecidableEq

structure State where
  cache : FileCache.State
  out : ℕ → Buffer
  phase : Tid → Phase

/-- A new request, a step of a `pin`, the answer. -/
inductive Act where
  | request (t : Tid) (conn : ℕ) (address : String) (reqsLastSec : ℕ)
  | cache (a : FileCache.Act)
  | answer (t : Tid)

/-- The thread that takes a step inside of `pin`. -/
def pinThread : FileCache.Act → Option Tid
  | .pin _ _ => none
  | .tick t => some t
  | .openFail t => some t
  | .readFail t => some t
  | .load t _ _ _ => some t
  | .unpin _ => none

/-- The handle that a step of `pin` returns, if it returns. -/
def pinReturns (pc : FileCache.Pc) : FileCache.Act → Option (Option ℕ)
  | .tick _ =>
      match pc with
      | .countPin h => some h
      | _ => none
  | .readFail _ => some none
  | _ => none

namespace State

def goto (s : State) (t : Tid) (p : Phase) : State :=
  { s with phase := Function.update s.phase t p }

def setOut (s : State) (conn : ℕ) (b : Buffer) : State :=
  { s with out := Function.update s.out conn b }

/-- The part of `handleRequest` up to the call of `pin`. -/
def request (n : ℕ) (s : State) (t : Tid) (conn : ℕ) (address : String) (reqsLastSec : ℕ) :
    Option State :=
  if address = "quit" then some s
  else if address = "stats" then some (s.setOut conn (writeStats (s.out conn) reqsLastSec))
  else
    let address := if address = "" then "index.html" else address
    (FileCache.step n s.cache (.pin t address)).map fun c =>
      { s with cache := c }.goto t (.pin conn)

/-- The part behind it. -/
def answer (s : State) (t : Tid) (conn : ℕ) : Option ℕ → State
  | some h => (s.setOut conn (writeFile (s.out conn) (s.cache.node h).buf)).goto t .idle
  | none => (s.setOut conn (writeBadRequest (s.out conn))).goto t .idle

end State

/-- One step of `n` threads. -/
def step (n : ℕ) (s : State) : Act → Option State
  | .request t conn address reqsLastSec =>
      match s.phase t with
      | .idle => if t < n then s.request n t conn address reqsLastSec else none
      | _ => none
  | .cache a =>
      match pinThread a with
      | none => none
      | some t =>
          match s.phase t with
          | .pin conn =>
              (FileCache.step n s.cache a).map fun c =>
                match pinReturns (s.cache.pc t) a with
                | none => { s with cache := c }
                | some h => { s with cache := c }.goto t (.answer conn h)
          | _ => none
  | .answer t =>
      match s.phase t with
      | .answer conn h => some (s.answer t conn h)
      | _ => none

structure Initial (s : State) : Prop where
  cache : FileCache.Initial s.cache
  phase : ∀ t, s.phase t = .idle

def machine (n : ℕ) : Lts State Act := ⟨Initial, step n⟩

/-! ## What requests do to the cache -/

/-- A step on the cache: none, or one of `pin`. -/
theorem step_cache {n : ℕ} {s s' : State} {l : Act} (h : step n s l = some s') :
    (s'.cache = s.cache ∧ ∀ a, l ≠ .cache a)
      ∨ (∃ t file, FileCache.step n s.cache (.pin t file) = some s'.cache ∧ ∀ a, l ≠ .cache a)
      ∨ ∃ a, l = .cache a ∧ (∀ x, a ≠ .unpin x) ∧ FileCache.step n s.cache a = some s'.cache := by
  cases l with
  | request t conn address reqsLastSec =>
      simp only [step] at h
      split at h
      · split at h
        · unfold State.request at h
          split at h
          · obtain rfl := Option.some.inj h
            exact .inl ⟨rfl, fun _ => nofun⟩
          · split at h
            · obtain rfl := Option.some.inj h
              exact .inl ⟨rfl, fun _ => nofun⟩
            · obtain ⟨c, hc, rfl⟩ := Option.map_eq_some_iff.mp h
              exact .inr (.inl ⟨t, _, hc, fun _ => nofun⟩)
        · cases h
      · cases h
  | cache a =>
      right
      right
      simp only [step] at h
      cases ha : pinThread a with
      | none =>
          rw [ha] at h
          cases h
      | some t =>
          have hne : ∀ x, a ≠ .unpin x := by
            rintro x rfl
            cases ha
          rw [ha] at h
          simp only at h
          split at h
          · obtain ⟨c, hc, hs⟩ := Option.map_eq_some_iff.mp h
            refine ⟨a, rfl, hne, ?_⟩
            rw [hc, ← hs]
            cases pinReturns (s.cache.pc t) a <;> rfl
          · cases h
  | answer t =>
      left
      simp only [step] at h
      split at h
      · obtain rfl := Option.some.inj h
        rename_i conn x _
        cases x <;> exact ⟨rfl, fun _ => nofun⟩
      · cases h

end HttpRequests

namespace FileCache

variable {n : ℕ} {s s' : State} {a : Act}

/-- Every file in the map is pinned. -/
def AllPinned (s : State) : Prop := ∀ f x, s.cacheMap.lookup f = some x → 1 ≤ (s.node x).countUnpin

/-- The step is the section of a `pin` that inserts a file, and there is
room for it. -/
def fits (s : State) : Act → Bool
  | .tick t =>
      match s.pc t with
      | .insert _ stSize _ => s.cacheSize - s.bytesUsed ≥ stSize
      | _ => false
  | _ => false

theorem evictLoop_pinned {node : ℕ → Node} {maxSize : ℤ} {stSize : ℕ} {m : CacheMap} {used free : ℤ}
    (hp : ∀ f x, m.lookup f = some x → 1 ≤ (node x).countUnpin) :
    ∀ {files : List String} {e : Evicted},
      evictLoop node maxSize stSize files m used free = some e →
      e.cacheMap = m ∧ e.bytesUsed = used := by
  intro files
  induction files with
  | nil =>
      intro e he
      obtain rfl := Option.some.inj he
      exact ⟨rfl, rfl⟩
  | cons file files ih =>
      intro e he
      rw [evictLoop] at he
      split at he
      · cases he
      · rename_i x hx
        have hcount := hp file x hx
        rw [if_neg (by omega)] at he
        split at he
        · obtain rfl := Option.some.inj he
          exact ⟨rfl, rfl⟩
        · obtain ⟨e', he', rfl⟩ := Option.map_eq_some_iff.mp he
          obtain ⟨hm, hu⟩ := ih he'
          exact ⟨hm, hu⟩

/-- No room is made while every file is pinned. -/
theorem AllPinned.room {stSize : ℕ} {s₁ : State} (h : AllPinned s) (hr : Room s stSize s₁) :
    s₁.cacheMap = s.cacheMap ∧ s₁.bytesUsed = s.bytesUsed ∧ s₁.node = s.node
      ∧ s₁.cacheSize = s.cacheSize := by
  cases hr with
  | enough _ => exact ⟨rfl, rfl, rfl, rfl⟩
  | none _ => exact ⟨rfl, rfl, rfl, rfl⟩
  | evict e hev he =>
      obtain ⟨hm, hu⟩ := evictLoop_pinned h he
      exact ⟨hm, hu, rfl, rfl⟩

/-- A `pin` takes no file out of a cache whose files are all pinned, and
adds one exactly when it fits. -/
structure OnlyPins (s : State) (a : Act) (s' : State) : Prop where
  pinned : wraps s a = false → AllPinned s'
  kept : ∀ f x, s.cacheMap.lookup f = some x → s'.cacheMap.lookup f = some x
  added : fits s a = true → ∃ f x, s'.cacheMap.lookup f = some x
  same : fits s a = false → s'.cacheMap = s.cacheMap

/-- A step that leaves the map and the counts as they are. -/
theorem AllPinned.quiet (h : AllPinned s) (hm : s'.cacheMap = s.cacheMap) (hn : s'.node = s.node)
    (hf : fits s a = false) : OnlyPins s a s' := by
  refine ⟨?_, ?_, ?_, fun _ => hm⟩
  · intro _ f x hx
    rw [hm] at hx
    rw [hn]
    exact h f x hx
  · intro f x hx
    rw [hm]
    exact hx
  · intro hfit
    rw [hf] at hfit
    cases hfit

/-- `new Node` and the insertion, where nothing is evicted for it. -/
theorem AllPinned.insertNode {t : Tid} {file : String} {stSize : ℕ} {buf : Buffer} {s₁ : State}
    (hA : Acct s) (h : AllPinned s) (hpc : s.pc t = .insert file stSize buf)
    (hr : Room s stSize s₁) (hfree : s₁.cacheSize - s₁.bytesUsed ≥ stSize) :
    OnlyPins s (.tick t) (s₁.insertNode t file buf) := by
  obtain ⟨hm, hu, hn, hc⟩ := h.room hr
  have hA₁ := hA.room hr
  have hfits : fits s (.tick t) = true := by
    simp only [fits, hpc, decide_eq_true_eq]
    rw [← hu, ← hc]
    exact hfree
  have hnode : ∀ f x, s.cacheMap.lookup f = some x →
      1 ≤ (Function.update s₁.node s₁.allocs ⟨file, buf, 1⟩ x).countUnpin := by
    intro f x hx
    have hlt := (hA₁.node f x (by rw [hm]; exact hx)).1
    rw [Function.update_of_ne (Nat.ne_of_lt hlt), hn]
    exact h f x hx
  unfold State.insertNode
  simp only
  split
  · rename_i hnone
    have hnone : s.cacheMap.lookup file = none := by
      rw [← hm]
      exact hnone
    have hlookup : ∀ f, f ≠ file →
        (s₁.cacheMap.insert file s₁.allocs).lookup f = s.cacheMap.lookup f := by
      intro f hf
      rw [AList.lookup_insert_ne hf, hm]
    refine ⟨?_, ?_, fun _ => ⟨file, s₁.allocs, AList.lookup_insert _⟩, fun hf => ?_⟩
    · intro _ f x hx
      have hx : (s₁.cacheMap.insert file s₁.allocs).lookup f = some x := hx
      show 1 ≤ (Function.update s₁.node s₁.allocs ⟨file, buf, 1⟩ x).countUnpin
      by_cases hf : f = file
      · rw [hf, AList.lookup_insert, Option.some.injEq] at hx
        rw [← hx, Function.update_self]
      · rw [hlookup f hf] at hx
        exact hnode f x hx
    · intro f x hx
      have hf : f ≠ file := by
        rintro rfl
        rw [hnone] at hx
        cases hx
      exact (hlookup f hf).trans hx
    · rw [hfits] at hf
      cases hf
  · rename_i x hsome
    refine ⟨?_, ?_, fun _ => ⟨file, x, hsome⟩, fun hf => ?_⟩
    · intro _ f y hy
      exact hnode f y (by rw [← hm]; exact hy)
    · intro f y hy
      show s₁.cacheMap.lookup f = some y
      rw [hm]
      exact hy
    · rw [hfits] at hf
      cases hf

theorem AllPinned.step (hA : Acct s) (h : AllPinned s) (hs : step n s a = some s')
    (hne : ∀ x, a ≠ .unpin x) : OnlyPins s a s' := by
  cases step_move hs with
  | hit ht hpc hf => exact h.quiet rfl rfl rfl
  | miss ht hpc hf => exact h.quiet rfl rfl rfl
  | @raise t b hpc =>
      refine ⟨?_, fun _ _ hx => hx, ?_, fun _ => rfl⟩
      · intro hwrap f x hx
        have hcount := h f x hx
        show 1 ≤ (Function.update s.node b _ x).countUnpin
        by_cases hxb : x = b
        · rw [hxb] at hcount ⊢
          have hroom : (s.node b).countUnpin < 2 ^ 31 - 1 := by simpa [wraps, hpc] using hwrap
          rw [Function.update_self]
          show 1 ≤ int32 ((s.node b).countUnpin + 1)
          rw [int32_of_range (by omega) (by omega)]
          omega
        · rw [Function.update_of_ne hxb]
          exact hcount
      · simp [fits, hpc]
  | insert hpc hroom hfree => exact h.insertNode hA hpc hroom hfree
  | @fail t file stSize buf s₁ hpc hroom =>
      by_cases hfree : s.cacheSize - s.bytesUsed ≥ stSize
      · -- with room for the file the section inserts it
        have hins : s₁.goto t .countFailed = s.insertNode t file buf := by
          simp only [FileCache.step, tick, hpc] at hs
          split at hs
          · cases hs
          · rw [← Option.some.inj hs, State.insertFile, if_pos hfree]
        rw [hins]
        exact h.insertNode hA hpc (.enough hfree) hfree
      · obtain ⟨hm, -, hn, -⟩ := h.room hroom
        exact h.quiet hm hn (by simp only [fits, hpc, hfree, decide_false])
  | fault hpc he => exact absurd he (hA.evict_ne_none _)
  | countHit hpc => exact h.quiet rfl rfl (by simp [fits, hpc])
  | countFailed hpc => exact h.quiet rfl rfl (by simp [fits, hpc])
  | retNone hpc => exact h.quiet rfl rfl (by simp [fits, hpc])
  | retSome hpc => exact h.quiet rfl rfl (by simp [fits, hpc])
  | openFail hpc => exact h.quiet rfl rfl rfl
  | readFail hpc => exact h.quiet rfl rfl rfl
  | load hpc hload => exact h.quiet rfl rfl rfl
  | unpin x ha => exact absurd rfl (hne x)

end FileCache

namespace HttpRequests

open HttpConnection FileCache

/-! ## Runs -/

/-- A step of a request brings a file into the cache. -/
def inserts (s : State) : Act → Bool
  | .cache a => fits s.cache a
  | _ => false

/-- A step of a request makes a pin count wrap. -/
def wrapsPin (s : State) : Act → Bool
  | .cache a => wraps s.cache a
  | _ => false

structure Inv (s : State) : Prop where
  acct : Acct s.cache
  pinned : AllPinned s.cache

theorem Inv.of_empty {s : State} (h : Acct s.cache) (he : s.cache.cacheMap = ∅) : Inv s := by
  refine ⟨h, ?_⟩
  intro f x hx
  rw [he, AList.lookup_empty] at hx
  cases hx

/-- A step keeps the accounts of the cache. -/
theorem acct_step {n : ℕ} {s s' : State} {l : Act} (h : Acct s.cache) (hs : step n s l = some s') :
    Acct s'.cache := by
  rcases step_cache hs with ⟨hc, -⟩ | ⟨t, file, hc, -⟩ | ⟨a, -, -, hc⟩
  · rw [hc]
    exact h
  · exact h.move (step_move hc)
  · exact h.move (step_move hc)

/-- What a step of a request keeps and adds. -/
theorem Inv.step {n : ℕ} {s s' : State} {l : Act} (h : Inv s) (hs : step n s l = some s') :
    (wrapsPin s l = false → Inv s')
      ∧ (∀ f x, s.cache.cacheMap.lookup f = some x → s'.cache.cacheMap.lookup f = some x)
      ∧ (inserts s l = true → ∃ f x, s'.cache.cacheMap.lookup f = some x)
      ∧ (inserts s l = false → s'.cache.cacheMap = s.cache.cacheMap) := by
  have hno : (∀ a, l ≠ .cache a) → inserts s l = false := by
    intro hl
    cases l with
    | cache a => exact absurd rfl (hl a)
    | request t conn address reqsLastSec => rfl
    | answer t => rfl
  rcases step_cache hs with ⟨hc, hl⟩ | ⟨t, file, hc, hl⟩ | ⟨a, rfl, hne, hc⟩
  · rw [hno hl]
    refine ⟨fun _ => ⟨acct_step h.acct hs, ?_⟩, ?_, nofun, fun _ => congrArg _ hc⟩
    · rw [hc]
      exact h.pinned
    · rw [hc]
      exact fun _ _ hx => hx
  · have hp := h.pinned.step h.acct hc fun _ => nofun
    rw [hno hl]
    exact ⟨fun _ => ⟨acct_step h.acct hs, hp.pinned rfl⟩, hp.kept, nofun, fun _ => hp.same rfl⟩
  · have hp := h.pinned.step h.acct hc hne
    exact ⟨fun hwrap => ⟨acct_step h.acct hs, hp.pinned hwrap⟩, hp.kept, hp.added, hp.same⟩

/-- No request is in progress. -/
def Quiet (n : ℕ) (s : State) : Prop := ∀ t < n, s.phase t = .idle

/-- No pin is left behind: every file in the cache can be evicted, and a
file that fits into the cache at all gets into it. -/
structure Unpinned (s : State) : Prop where
  count : ∀ f x, s.cache.cacheMap.lookup f = some x → (s.cache.node x).countUnpin = 0
  cacheable : ∀ t file (stSize : ℕ) buf, stSize ≤ s.cache.cacheSize →
    ∃ x, (s.cache.insertFile t file stSize buf).cacheMap.lookup file = some x

theorem unpinned_of_empty {s : State} (h : Acct s.cache) (he : s.cache.cacheMap = ∅) :
    Unpinned s := by
  have hused : s.cache.bytesUsed = 0 := by
    rw [h.used, he]
    rfl
  refine ⟨?_, ?_⟩
  · intro f x hx
    rw [he, AList.lookup_empty] at hx
    cases hx
  · intro t file stSize buf hsize
    rw [FileCache.State.insertFile, if_pos (by rw [hused]; omega), FileCache.State.insertNode]
    simp only
    have hnone : (s.cache.setNode s.cache.allocs ⟨file, buf, 1⟩).cacheMap.lookup file = none := by
      show s.cache.cacheMap.lookup file = none
      rw [he, AList.lookup_empty]
    rw [hnone]
    exact ⟨_, AList.lookup_insert _⟩

section

variable {n : ℕ} (r : (machine n).Run fun _ _ => True)

theorem run_acct : ∀ i ≤ r.len, Acct (r.st i).cache :=
  r.invariant (Initial.cache r.init).acct fun i hi h => acct_step h (r.step i hi)

/-- The map is empty as long as nothing is inserted. -/
theorem run_empty : ∀ i ≤ r.len, (∀ j < i, inserts (r.st j) (r.act j) = false) →
    (r.st i).cache.cacheMap = ∅ := by
  refine r.invariant (fun _ => (Initial.cache r.init).cacheMap) fun i hi hempty hno => ?_
  have he := hempty fun j hj => hno j (Nat.lt_succ_of_lt hj)
  have hinv := Inv.of_empty (run_acct r i (Nat.le_of_lt hi)) he
  rw [(hinv.step (r.step i hi)).2.2.2 (hno i (Nat.lt_succ_self i)), he]

/-- As long as no count wraps all files in it are pinned, and it is not
empty any more from the first insertion on. -/
theorem run_pinned (hwrap : ∀ i < r.len, wrapsPin (r.st i) (r.act i) = false) :
    ∀ i ≤ r.len, Inv (r.st i) ∧ ((∃ j < i, inserts (r.st j) (r.act j) = true) →
      ∃ f x, (r.st i).cache.cacheMap.lookup f = some x) := by
  refine r.invariant ⟨.of_empty (run_acct r 0 (Nat.zero_le _)) (Initial.cache r.init).cacheMap, ?_⟩
    ?_
  · rintro ⟨j, hj, -⟩
    exact absurd hj (Nat.not_lt_zero j)
  · rintro i hi ⟨hinv, hsome⟩
    obtain ⟨hnext, hkept, hadded, -⟩ := hinv.step (r.step i hi)
    refine ⟨hnext (hwrap i hi), ?_⟩
    rintro ⟨j, hj, hins⟩
    rcases Nat.lt_succ_iff_lt_or_eq.mp hj with hlt | rfl
    · obtain ⟨f, x, hx⟩ := hsome ⟨j, hlt, hins⟩
      exact ⟨f, x, hkept f x hx⟩
    · exact hadded hins

/-- **Requests leave no pins behind as long as none of them brings a file
into the cache**, and only so long while no pin count wraps. -/
theorem requests_unpinned_iff :
    (∀ i ≤ r.len, Quiet n (r.st i) → (∀ j < i, inserts (r.st j) (r.act j) = false) →
        Unpinned (r.st i))
      ∧ ((∀ i < r.len, wrapsPin (r.st i) (r.act i) = false) →
        ((∀ i ≤ r.len, Quiet n (r.st i) → Unpinned (r.st i))
          ↔ ∀ i ≤ r.len, Quiet n (r.st i) → ∀ j < i, inserts (r.st j) (r.act j) = false)) := by
  have henough : ∀ i ≤ r.len, Quiet n (r.st i) →
      (∀ j < i, inserts (r.st j) (r.act j) = false) → Unpinned (r.st i) :=
    fun i hi _ hno => unpinned_of_empty (run_acct r i hi) (run_empty r i hi hno)
  refine ⟨henough, fun hwrap => ⟨?_, fun hno i hi hq => henough i hi hq (hno i hi hq)⟩⟩
  intro hall i hi hq j hj
  by_contra hins
  rw [Bool.not_eq_false] at hins
  obtain ⟨hinv, hsome⟩ := run_pinned r hwrap i hi
  obtain ⟨f, x, hx⟩ := hsome ⟨j, hj, hins⟩
  have hcount := hinv.pinned f x hx
  rw [(hall i hi hq).count f x hx] at hcount
  exact absurd hcount (by decide)

end

/-- A server with an empty cache of ten bytes. -/
def emptyServer : State := ⟨emptyCache, fun _ => Buffer.new fun _ _ => 0, fun _ => .idle⟩

theorem emptyServer_initial : Initial emptyServer := ⟨emptyCache_initial, fun _ => rfl⟩

/-- Thread 0 handles a request for a file of six bytes; `pin` takes
`ticks` steps behind the reads. -/
def requestSix (file : String) (ticks : ℕ) : List Act :=
  [.request 0 0 file 0, .cache (.load 0 6 (fun _ _ => 0) [[1, 2, 3, 4, 5, 6]])]
    ++ List.replicate ticks (.cache (.tick 0)) ++ [.answer 0]

/-- After the requests for `a` and `b`, which both fit into the cache,
`a` is still pinned and `b` was refused. -/
theorem pin_left_behind : ¬∀ s, (machine 1).Reachable s → Quiet 1 s → Unpinned s := by
  intro hall
  have hrun : ((machine 1).exec (fun _ _ => True) emptyServer
      (requestSix "a" 2 ++ requestSix "b" 3)).any (fun s =>
        s.phase 0 = .idle && s.cache.cacheMap.lookup "a" = some 0
          && (s.cache.node 0).countUnpin = 1 && s.cache.cacheMap.lookup "b" = none) = true := by
    decide +kernel
  obtain ⟨s, hs, hp⟩ := Lts.ReachableBy.exec_any (.init emptyServer_initial) hrun
  simp only [Bool.and_eq_true, decide_eq_true_eq] at hp
  obtain ⟨⟨⟨hidle, ha⟩, hcount⟩, -⟩ := hp
  have hzero := (hall s hs fun t ht => by rw [Nat.lt_one_iff.mp ht]; exact hidle).count "a" 0 ha
  rw [hcount] at hzero
  cases hzero

end HttpRequests

end HttpServer
