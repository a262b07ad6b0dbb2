import HttpServer.FileCacheCall
import HttpServer.FileCacheCounts
import HttpServer.FileCachePins

/-!
# Threads that pin a file for the first time

Two threads that miss the same file both read it, and both get to the
section that inserts it. The second one finds the file there, deletes
its buffer and counts a hit, but returns 0 and leaves in `*buf` a pointer
to the deleted buffer (`secondPin_fails`). When the section is only
entered while the file is not cached, its pin count does not wrap and it
is not evicted on a hit, every pin of it returns the node in the map
(`first_pins_succeed`). Other threads may pin and unpin other files all
along.
-/

namespace HttpServer

namespace FileCache

open ShortestPrefix

variable {n : ℕ} {s s' s₁ : State} {l : Act} {t : Tid} {f : String} {size : ℕ}

/-! ## The pins of one file -/

/-- The thread has missed `f` and reads it. -/
def reading (f : String) (s : State) (t : Tid) : Bool :=
  match s.pc t with
  | .miss g => g = f
  | _ => false

/-- `f` can be read, and has always the same size. -/
def readsFile (f : String) (size : ℕ) (s : State) : Act → Bool
  | .openFail t => !reading f s t
  | .readFail t => !reading f s t
  | .load t stSize _ _ => !reading f s t || stSize = size
  | _ => true

/-- Only handles that are out are passed to `unpin`. -/
def unpinsPinned (f : String) (s : State) : Act → Bool
  | .unpin (some a) => (s.node a).fileName ≠ f || 0 < s.returned a
  | _ => true

/-- `f` is cached or there is room for it. -/
def roomIn (f : String) (size : ℕ) (s : State) : Bool :=
  (s.cacheMap.lookup f).isSome || size ≤ s.freeSpace

/-- The same within a section, after its evictions. -/
def roomAfter (f : String) (size : ℕ) (s : State) : Act → Bool
  | .tick t =>
      match s.pc t with
      | .insert _ stSize _ => !s.evicts stSize || roomIn f size (s.evicted stSize)
      | _ => true
  | _ => true

/-- The section that inserts `f` finds it cached, and does not evict it. -/
def insertsAgain (f : String) (s : State) : Act → Bool
  | .tick t =>
      match s.pc t with
      | .insert g _ _ => g = f && (s.cacheMap.lookup f).isSome && f ∉ evictedBy s (.tick t)
      | _ => false
  | _ => false

/-- The file name of a thread's call, and what it has written to `*buf`:
nothing yet, 0, the buffer of a node. -/
structure Local where
  file : String
  buf : Option (Option ℕ)
deriving DecidableEq

def Local.next (x : Local) (s s' : State) (t : Tid) : Act → Local
  | .pin u file =>
      if u = t then
        ⟨file, match s'.pc t with
          | .hit a => some (some a)
          | _ => none⟩
      else x
  | .tick u =>
      if u = t then
        { x with buf := match s.pc t, s'.pc t with
          | .insert _ _ _, .countFailed => some none
          -- the new buffer, deleted or not
          | .insert _ _ _, _ => some (some s.allocs)
          | _, _ => x.buf }
      else x
  | _ => x

/-! ## One step -/

/-- The thread that acts. -/
def Act.tid : Act → Option Tid
  | .pin t _ => some t
  | .tick t => some t
  | .openFail t => some t
  | .readFail t => some t
  | .load t _ _ _ => some t
  | .unpin _ => none

theorem Move.pc_of_ne (hm : Move n s l s') (h : l.tid ≠ some t) : s'.pc t = s.pc t := by
  have hne : ∀ u : Tid, some u ≠ some t → t ≠ u := fun u hu => by
    rintro rfl
    exact hu rfl
  cases hm with
  | insert hpc hroom hfree =>
      rw [insertNode_pc, hroom.pc]
      exact Function.update_of_ne (hne _ h) ..
  | fail hpc hroom => exact (goto_pc_of_ne _ _ (hne _ h)).trans (congrFun hroom.pc t)
  | fault hpc he => rfl
  | unpin x ha => exact congrFun (unpin_pc s x) t
  | raise hpc => exact goto_pc_of_ne _ _ (hne _ h)
  | countHit hpc => exact goto_pc_of_ne _ _ (hne _ h)
  | countFailed hpc => exact goto_pc_of_ne _ _ (hne _ h)
  | retNone hpc => exact goto_pc_of_ne _ _ (hne _ h)
  | retSome hpc => exact goto_pc_of_ne _ _ (hne _ h)
  | _ => exact goto_pc_of_ne _ _ (hne _ h)

theorem Local.next_of_ne (x : Local) (h : l.tid ≠ some t) : x.next s s' t l = x := by
  have hne : ∀ u : Tid, some u ≠ some t → u ≠ t := fun u hu => by
    rintro rfl
    exact hu rfl
  cases l with
  | pin u file => exact if_neg (hne u h)
  | tick u => exact if_neg (hne u h)
  | _ => rfl

theorem insertNode_node (s : State) (t : Tid) (file : String) (buf : Buffer) :
    (s.insertNode t file buf).node = (s.newNode file buf).node := by
  cases hfile : s.cacheMap.lookup file with
  | none =>
      rw [insertNode_of_none t buf hfile]
      rfl
  | some a =>
      rw [insertNode_of_some t buf hfile]
      rfl

theorem Room.node {stSize : ℕ} (hr : Room s stSize s₁) :
    s₁.node = s.node ∧ s₁.allocs = s.allocs := by
  cases hr with
  | enough _ => exact ⟨rfl, rfl⟩
  | none _ => exact ⟨rfl, rfl⟩
  | evict e _ _ => exact ⟨rfl, rfl⟩

/-- `file_name` is `const`. -/
theorem Move.name (hm : Move n s l s') {a : ℕ} (ha : a < s.allocs) :
    (s'.node a).fileName = (s.node a).fileName := by
  cases hm with
  | raise hpc => exact setNode_keeps Node.fileName s (by rfl) a
  | insert hpc hroom hfree =>
      obtain ⟨hnode, hallocs⟩ := hroom.node
      rw [insertNode_node]
      show ((State.setNode _ _ _).node a).fileName = _
      rw [setNode_of_ne _ _ (by omega), hnode]
  | @fail t file stSize buf s₁ hpc hroom =>
      show (s₁.node a).fileName = _
      rw [hroom.node.1]
  | unpin x hx =>
      cases x with
      | none => rfl
      | some b =>
          obtain ⟨c, -, -, heq⟩ | ⟨e, -, heq⟩ := unpin_cases s b
          · rw [heq]
            exact setNode_keeps Node.fileName s (by rfl) a
          · rw [heq]
  | _ => rfl

/-- The section that inserts `f` finds room, and no `f`. -/
theorem exists_fits {buf : Buffer} (hA : Acct s) (hpc : s.pc t = .insert f size buf)
    (hroom : roomIn f size s = true) (hafter : roomAfter f size s (.tick t) = true)
    (hagain : insertsAgain f s (.tick t) = false) :
    ∃ s₁, Fits s size s₁ ∧ s₁.cacheMap.lookup f = none := by
  cases hf : s.cacheMap.lookup f with
  | none =>
      have hle : size ≤ s.freeSpace := by simpa [roomIn, hf] using hroom
      exact ⟨s, .space hle, hf⟩
  | some a =>
      have hby : f ∈ evictedBy s (.tick t) := by simpa [insertsAgain, hpc, hf] using hagain
      have hev : s.evicts size = true := by
        by_contra hno
        simp [evictedBy, hpc, hno] at hby
      have hfree := freeSpace_lt_of_evicts hev
      have hvictim : f ∈ s.victims size := by
        simp only [evictedBy, hpc, hev, hA.evict_eq hfree, if_true, List.mem_filter,
          decide_eq_true_eq, Evicted.without, not_and, not_not] at hby
        exact hby.2 hby.1
      have hnone : (s.evicted size).cacheMap.lookup f = none := by
        rw [evicted_lookup, if_pos hvictim]
      have hle : size ≤ (s.evicted size).freeSpace := by
        simpa [roomAfter, hpc, hev, roomIn, hnone] using hafter
      refine ⟨s.evicted size, .evict hev ?_, hnone⟩
      have hspace : (s.evicted size).freeSpace
          = s.cacheSize - (s.bytesUsed - total s.sizeOf (s.victims size)) := rfl
      have hold : s.freeSpace = s.cacheSize - s.bytesUsed := rfl
      omega

theorem Fits.allocs {stSize : ℕ} (h : Fits s stSize s₁) : s₁.allocs = s.allocs := by
  cases h <;> rfl

/-- The thread inserts `f` and has the new node. -/
theorem insert_first {buf : Buffer} (hA : Acct s) (hpc : s.pc t = .insert f size buf)
    (hs : step n s (.tick t) = some s') (hroom : roomIn f size s = true)
    (hafter : roomAfter f size s (.tick t) = true) (hagain : insertsAgain f s (.tick t) = false) :
    s'.pc t = .countPin (some s.allocs) ∧ (s'.node s.allocs).fileName = f := by
  obtain ⟨s₁, hfits, hnone⟩ := exists_fits hA hpc hroom hafter hagain
  have hstep : s' = s₁.insertNode t f buf := by
    have hs : tick s t = some s' := hs
    unfold tick at hs
    rw [hpc] at hs
    simp only at hs
    split at hs
    · cases hs
    · rw [← hA.insertFile_of_fits hfits]
      exact (Option.some.inj hs).symm
  rw [hstep, insertNode_pc, if_pos hnone, Function.update_self, insertNode_node, hfits.allocs]
  refine ⟨rfl, ?_⟩
  show ((s₁.setNode s₁.allocs ⟨f, buf, 1⟩).node s.allocs).fileName = f
  rw [hfits.allocs, setNode_same]

/-! ## What a thread knows -/

/-- Where a thread is and what it has written to `*buf`. -/
def Tracks (f : String) (size : ℕ) (s : State) (t : Tid) (x : Local) : Prop :=
  match s.pc t with
  | .idle => True
  | .miss g => x.file = g
  | .insert g stSize _ => x.file = g ∧ (g = f → stSize = size)
  | .hit a => (s.node a).fileName = x.file ∧ x.buf = some (some a)
  | .countHit (some a) => (s.node a).fileName = x.file ∧ x.buf = some (some a)
  | .countPin (some a) => (s.node a).fileName = x.file ∧ x.buf = some (some a)
  | .countHit none => x.file ≠ f
  | .countFailed => x.file ≠ f
  | .countPin none => x.file ≠ f

@[simp] theorem goto_node (s : State) (t : Tid) (p : Pc) : (s.goto t p).node = s.node := rfl

/-- Another thread acts. -/
theorem Tracks.frame {x : Local} (h : Tracks f size s t x) (hpc : s'.pc t = s.pc t)
    (hname : ∀ a, (s.pc t).handle = some a → (s'.node a).fileName = (s.node a).fileName) :
    Tracks f size s' t x := by
  unfold Tracks at h ⊢
  rw [hpc]
  cases hp : s.pc t with
  | hit a =>
      rw [hp] at h hname
      simpa only [hname a rfl] using h
  | countHit a =>
      rw [hp] at h hname
      cases a with
      | none => exact h
      | some a => simpa only [hname a rfl] using h
  | countPin a =>
      rw [hp] at h hname
      cases a with
      | none => exact h
      | some a => simpa only [hname a rfl] using h
  | _ =>
      rw [hp] at h
      exact h

theorem insert_tracks {x : Local} {file : String} {stSize : ℕ} {buf : Buffer} (hA : Acct s)
    (hpc : s.pc t = .insert file stSize buf) (hx : x.file = file) (hf : file = f)
    (hsize : stSize = size) (hs : step n s (.tick t) = some s') (hroom : roomIn f size s = true)
    (hafter : roomAfter f size s (.tick t) = true) (hagain : insertsAgain f s (.tick t) = false) :
    Tracks f size s' t (x.next s s' t (.tick t)) := by
  subst hf hsize
  obtain ⟨hpc', hname⟩ := insert_first hA hpc hs hroom hafter hagain
  simp [Tracks, Local.next, hpc, hpc', hname, hx]

/-- The next step of the thread itself. -/
theorem Tracks.turn {x : Local} (h : Tracks f size s t x) (hA : Acct s) (hl : l.tid = some t)
    (hs : step n s l = some s') (hreads : readsFile f size s l = true)
    (hroom : roomIn f size s = true) (hafter : roomAfter f size s l = true)
    (hagain : insertsAgain f s l = false) : Tracks f size s' t (x.next s s' t l) := by
  unfold Tracks at h
  have hm := step_move hs
  cases hm with
  | @hit u file a ht hpc hf =>
      obtain rfl := Option.some.inj hl
      simpa [Tracks, Local.next] using (hA.node file a hf).2
  | @miss u file ht hpc hf =>
      obtain rfl := Option.some.inj hl
      simp [Tracks, Local.next]
  | @raise u a hpc =>
      obtain rfl := Option.some.inj hl
      rw [hpc] at h
      simpa [Tracks, Local.next, hpc, setNode_same] using h
  | @insert u file stSize buf s₁ hpc hr hfree =>
      obtain rfl := Option.some.inj hl
      rw [hpc] at h
      obtain ⟨hfile, hsize⟩ := h
      by_cases hf : file = f
      · exact insert_tracks hA hpc hfile hf (hsize hf) hs hroom hafter hagain
      · have hpc' := congrFun (insertNode_pc s₁ u file buf) u
        rw [Function.update_self] at hpc'
        by_cases hnone : s₁.cacheMap.lookup file = none
        · rw [if_pos hnone, hr.node.2] at hpc'
          have hname : ((s₁.insertNode u file buf).node s.allocs).fileName = file := by
            rw [insertNode_node, ← hr.node.2]
            exact congrArg Node.fileName (setNode_same _ _ _)
          simp [Tracks, Local.next, hpc, hpc', hname, hfile]
        · rw [if_neg hnone] at hpc'
          simpa [Tracks, Local.next, hpc, hpc', hfile] using hf
  | @fail u file stSize buf s₁ hpc hr =>
      obtain rfl := Option.some.inj hl
      rw [hpc] at h
      obtain ⟨hfile, hsize⟩ := h
      by_cases hf : file = f
      · exact insert_tracks hA hpc hfile hf (hsize hf) hs hroom hafter hagain
      · simpa [Tracks, Local.next, hpc, hfile] using hf
  | @fault u file stSize buf hpc he =>
      exact absurd he (hA.evict_ne_none stSize)
  | @countHit u a hpc =>
      obtain rfl := Option.some.inj hl
      rw [hpc] at h
      cases a with
      | none => simpa [Tracks, Local.next, hpc] using h
      | some a => simpa [Tracks, Local.next, hpc] using h
  | @countFailed u hpc =>
      obtain rfl := Option.some.inj hl
      rw [hpc] at h
      simpa [Tracks, Local.next, hpc] using h
  | @retNone u hpc =>
      obtain rfl := Option.some.inj hl
      simp [Tracks]
  | @retSome u a hpc =>
      obtain rfl := Option.some.inj hl
      simp [Tracks]
  | @openFail u file hpc =>
      obtain rfl := Option.some.inj hl
      rw [hpc] at h
      have hne : file ≠ f := by simpa [readsFile, reading, hpc] using hreads
      simpa [Tracks, Local.next, h] using hne
  | @readFail u file hpc =>
      obtain rfl := Option.some.inj hl
      simp [Tracks]
  | @load u file stSize heap reads buf hpc hload =>
      obtain rfl := Option.some.inj hl
      rw [hpc] at h
      have hsize : file = f → stSize = size := by
        simpa [readsFile, reading, hpc, or_iff_not_imp_left] using hreads
      simpa [Tracks, Local.next, h] using hsize
  | unpin a ha => cases hl

/-! ## Runs -/

section Runs

variable (r : Lts.Run (machine n) fun _ _ => True)

/-- What thread `t` has before step `i`. -/
def localAt (t : Tid) : ℕ → Local
  | 0 => ⟨"", none⟩
  | i + 1 => (localAt t i).next (r.st i) (r.st (i + 1)) t (r.act i)

/-- Threads that pin `f`, which can be read and has `size` bytes, in a
cache that has room for it whenever it is not cached; handles are unpinned
once. -/
structure FirstPins (f : String) (size : ℕ) : Prop where
  new : Constructed (r.st 0)
  reads : ∀ i < r.len, readsFile f size (r.st i) (r.act i) = true
  room : ∀ i ≤ r.len, roomIn f size (r.st i) = true
  roomAfter : ∀ i < r.len, roomAfter f size (r.st i) (r.act i) = true
  unpins : ∀ i < r.len, unpinsPinned f (r.st i) (r.act i) = true

/-- The call of `t` from `i` to `j` returns the node that is cached, with its
buffer, and has inserted it or is counted as a hit. -/
structure Served (f : String) (t : Tid) (i j : ℕ) : Prop where
  handle : ∃ a, (r.st (j - 1)).pc t = .countPin (some a) ∧ (localAt r t j).buf = some (some a)
    ∧ (r.st j).cacheMap.lookup f = some a
  booked : ∃ k c, Books r t i j k ∧ bookingAt r k = some (t, c) ∧ (c = .inserted ∨ c = .hit)

/-- What should hold of the pins of `f`. -/
structure AllServed (f : String) : Prop where
  served : ∀ i < r.len, ∀ t, r.act i = .pin t f → ∀ j, CallEnds r t i j → Served r f t i j
  /-- The handles that have not been unpinned are those of the cached node. -/
  handles : ∀ i ≤ r.len, ∀ a, 0 < (r.st i).returned a → ((r.st i).node a).fileName = f →
    (r.st i).cacheMap.lookup f = some a
  count : ∀ i ≤ r.len, (∀ t, (r.st i).pc t = .idle) → ∀ a, (r.st i).cacheMap.lookup f = some a →
    ((r.st i).node a).countUnpin = (r.st i).returned a
  /-- `hits()`, an `int`, counts the pins that have not inserted. -/
  hits : ∀ i ≤ r.len, hits (r.st i) = int32 (bookedAs r .hit i)

variable {r}

/-- The invariant of the runs in which nothing goes wrong. -/
structure FirstInv (r : Lts.Run (machine n) fun _ _ => True) (f : String) (size i : ℕ) : Prop where
  acct : Acct (r.st i)
  held : HeldFile n f (r.st i)
  tracks : ∀ t, Tracks f size (r.st i) t (localAt r t i)

theorem FirstPins.inv (h : FirstPins r f size)
    (hcond : ∀ i < r.len, insertsAgain f (r.st i) (r.act i) = false
      ∧ evictsFound n f (r.st i) (r.act i) = false ∧ wrapsCount f (r.st i) (r.act i) = false) :
    ∀ i ≤ r.len, FirstInv r f size i := by
  refine r.invariant ⟨Initial.acct r.init, Initial.heldFile r.init, fun t => ?_⟩ fun i hi ih => ?_
  · unfold Tracks
    rw [show (r.st 0).pc t = .idle from r.init.pc t]
    exact trivial
  · obtain ⟨hagain, hfound, hwrap⟩ := hcond i hi
    have hs : step n (r.st i) (r.act i) = some (r.st (i + 1)) := r.step i hi
    have hm := step_move hs
    refine ⟨ih.acct.move hm, ih.held.move ih.acct hm (fun b hb hname => ?_) hfound hwrap,
      fun t => ?_⟩
    · have hpinned := h.unpins i hi
      rw [hb] at hpinned
      simpa [unpinsPinned, hname] using hpinned
    · by_cases ht : (r.act i).tid = some t
      · exact (ih.tracks t).turn ih.acct ht hs (h.reads i hi) (h.room i (Nat.le_of_lt hi))
          (h.roomAfter i hi) hagain
      · have hsame : localAt r t (i + 1) = localAt r t i := Local.next_of_ne _ ht
        rw [hsame]
        exact (ih.tracks t).frame (hm.pc_of_ne ht) fun a ha => hm.name (ih.held.handle t a ha).1

/-! ### One call -/

theorem Local.next_file (x : Local) (h : ∀ g, l ≠ .pin t g) : (x.next s s' t l).file = x.file := by
  cases l with
  | pin u g =>
      have hut : u ≠ t := by
        rintro rfl
        exact h g rfl
      rw [Local.next, if_neg hut]
  | tick u =>
      rw [Local.next]
      split
      · rfl
      · rfl
  | _ => rfl

/-- During its call a thread has the name of its file. -/
theorem localAt_file {i : ℕ} (hstart : r.act i = .pin t f) :
    ∀ m, i < m → m ≤ r.len → (∀ k, i < k → k < m → (r.st k).pc t ≠ .idle) →
      (localAt r t m).file = f := by
  intro m him
  induction m, him using Nat.le_induction with
  | base =>
      intro _ _
      rw [localAt, hstart, Local.next, if_pos rfl]
  | succ m him ih =>
      intro hm hfirst
      rw [localAt, Local.next_file]
      · exact ih (Nat.le_of_succ_le hm) fun k hik hk => hfirst k hik (Nat.lt_succ_of_lt hk)
      · intro g hg
        obtain ⟨u, p, c, hturn⟩ := (step_move (r.step m hm)).turn
        obtain ⟨rfl, hidle⟩ := hturn.start t g hg
        exact hfirst m him (Nat.lt_succ_self m) hidle

theorem CallEnds.file {i j k : ℕ} (h : CallEnds r t i j) (hstart : r.act i = .pin t f)
    (hik : i < k) (hkj : k ≤ j) : (localAt r t k).file = f :=
  localAt_file hstart k hik (Nat.le_trans hkj h.le) fun m him hm =>
    h.first m him (Nat.lt_of_lt_of_le hm hkj)

/-- The ways out of a call. -/
theorem Move.to_idle (hm : Move n s l s') (hpc : s.pc t ≠ .idle) (hpc' : s'.pc t = .idle) :
    (l = .tick t ∧ s'.cacheMap = s.cacheMap ∧ ∃ a, s.pc t = .countPin a)
      ∨ l = .readFail t ∧ ∃ g, s.pc t = .miss g := by
  have hl : l.tid = some t := by
    by_contra hne
    exact hpc ((hm.pc_of_ne hne).symm.trans hpc')
  cases hm with
  | @retNone u h =>
      obtain rfl := Option.some.inj hl
      exact .inl ⟨rfl, rfl, none, h⟩
  | @retSome u a h =>
      obtain rfl := Option.some.inj hl
      exact .inl ⟨rfl, rfl, some a, h⟩
  | @readFail u file h =>
      obtain rfl := Option.some.inj hl
      exact .inr ⟨rfl, file, h⟩
  | @insert u file stSize buf s₁ h hr hfree =>
      obtain rfl := Option.some.inj hl
      rw [insertNode_pc, Function.update_self] at hpc'
      split at hpc' <;> cases hpc'
  | @fault u file stSize buf h he => exact absurd hpc' hpc
  | unpin x ha => cases hl
  | hit | miss | raise | fail | countHit | countFailed | openFail | load =>
      obtain rfl := Option.some.inj hl
      rw [goto_pc_same] at hpc'
      cases hpc'

theorem booking_failed (h : booking s s' l = some (t, .failed)) : s.pc t = .countFailed := by
  unfold booking at h
  split at h
  · split at h
    · cases h
    · cases h
    · cases h
      assumption
    · cases h
  · cases h
  · cases h
  · cases h

theorem booking_ioError (h : booking s s' l = some (t, .ioError)) :
    l = .openFail t ∨ l = .readFail t := by
  unfold booking at h
  split at h
  · split at h
    · cases h
    · cases h
    · cases h
    · cases h
  · cases h
    exact .inl rfl
  · cases h
    exact .inr rfl
  · cases h

theorem pin_active (hs : step n s (.pin t f) = some s') : s'.pc t ≠ .idle := by
  cases step_move hs with
  | hit ht hpc hf => simp
  | miss ht hpc hf => simp

/-- A thread that reads `f` can. -/
theorem reads_ok (h : readsFile f size s l = true) (hl : l = .openFail t ∨ l = .readFail t)
    {g : String} (hpc : s.pc t = .miss g) : g ≠ f := by
  rcases hl with rfl | rfl
  · simpa [readsFile, reading, hpc] using h
  · simpa [readsFile, reading, hpc] using h

theorem miss_of_ioError (hs : step n s l = some s') (hl : l = .openFail t ∨ l = .readFail t) :
    ∃ g, s.pc t = .miss g := by
  rcases hl with rfl | rfl
  · cases step_move hs with
    | openFail h => exact ⟨_, h⟩
  · cases step_move hs with
    | readFail h => exact ⟨_, h⟩

section Served

variable {i j : ℕ} (h : FirstPins r f size)
  (hinv : ∀ i ≤ r.len, FirstInv r f size i) (hstart : r.act i = .pin t f) (hend : CallEnds r t i j)

include h hinv hstart hend

theorem served_handle : ∃ a, (r.st (j - 1)).pc t = .countPin (some a)
    ∧ (localAt r t j).buf = some (some a) ∧ (r.st j).cacheMap.lookup f = some a := by
  obtain ⟨m, rfl⟩ : ∃ m, j = m + 1 := ⟨j - 1, by have := hend.lt; omega⟩
  have hm : m < r.len := hend.le
  have him : i < m := by
    refine Nat.lt_of_le_of_ne (Nat.le_of_lt_succ hend.lt) ?_
    rintro rfl
    exact pin_active (hstart ▸ r.step i hm) hend.idle
  have hne := hend.first m him (Nat.lt_succ_self m)
  have hfile := hend.file hstart him (Nat.le_succ m)
  have hi := hinv m (Nat.le_of_lt hm)
  have htracks := hi.tracks t
  unfold Tracks at htracks
  rw [Nat.add_sub_cancel]
  rcases (step_move (r.step m hm)).to_idle hne hend.idle with ⟨hact, hmap, a, ha⟩ | ⟨hact, g, hg⟩
  · rw [ha] at htracks
    cases a with
    | none => exact absurd hfile htracks
    | some a =>
        obtain ⟨hname, hbuf⟩ := htracks
        refine ⟨a, ha, ?_, ?_⟩
        · rw [localAt, hact]
          simpa [Local.next, ha] using hbuf
        · rw [hmap]
          exact (hi.held.handle t a (by rw [ha]; rfl)).2 (hname.trans hfile)
  · rw [hg] at htracks
    exact absurd (htracks.symm.trans hfile) (reads_ok (h.reads m hm) (.inr hact) hg)

theorem served_booked : ∃ k c, Books r t i j k ∧ bookingAt r k = some (t, c)
    ∧ (c = .inserted ∨ c = .hit) := by
  obtain ⟨k, ⟨⟨hik, hkj⟩, c, hc⟩, -⟩ := hend.books hstart
  have hk : k < r.len := Nat.lt_of_lt_of_le hkj hend.le
  have hfile := hend.file hstart hik (Nat.le_of_lt hkj)
  have htracks := (hinv k (Nat.le_of_lt hk)).tracks t
  unfold Tracks at htracks
  refine ⟨k, c, ⟨⟨hik, hkj⟩, c, hc⟩, hc, ?_⟩
  cases c with
  | inserted => exact .inl rfl
  | hit => exact .inr rfl
  | failed =>
      rw [booking_failed hc] at htracks
      exact absurd hfile htracks
  | ioError =>
      have hl := booking_ioError hc
      obtain ⟨g, hg⟩ := miss_of_ioError (r.step k hk) hl
      rw [hg] at htracks
      exact absurd (htracks.symm.trans hfile) (reads_ok (h.reads k hk) hl hg)

end Served

/-- **All pins of a file succeed** when the section that inserts it finds it
only where it evicts it, no thread finds it right before it is evicted, and
its pin count does not wrap. -/
theorem first_pins_succeed (r : Lts.Run (machine n) fun _ _ => True) (h : FirstPins r f size)
    (hcond : ∀ i < r.len, insertsAgain f (r.st i) (r.act i) = false
      ∧ evictsFound n f (r.st i) (r.act i) = false ∧ wrapsCount f (r.st i) (r.act i) = false) :
    AllServed r f := by
  have hinv := h.inv hcond
  refine ⟨fun i hi t hstart j hend => ?_, fun i hi a ha hname => ?_, fun i hi hidle a ha => ?_,
    fun i hi => congrArg int32 (tallied h.new i hi).hits⟩
  · exact ⟨served_handle h hinv hstart hend, served_booked h hinv hstart hend⟩
  · exact ((hinv i hi).held.returned a ha).2 hname
  · have hcount := (hinv i hi).held.count a ha
    rw [counted_eq_zero fun t => by rw [hidle t]; simp [Pc.counted]] at hcount
    simpa using hcount

end Runs

/-! ## Two threads -/

/-- Thread `t` pins and reads a file of four bytes. -/
def readFour (t : Tid) : Act := .load t 4 (fun _ _ => 0) [[1, 2, 3, 4]]

/-- Thread 1 finds the file that thread 0 has inserted. -/
def oneInserts : List Act :=
  [.pin 0 "a", readFour 0, .tick 0, .pin 1 "a", .tick 0, .tick 1, .tick 1, .tick 1]

theorem oneInserts_served : ∃ r : Lts.Run (machine 2) fun _ _ => True,
    r.act 3 = .pin 1 "a" ∧ hits (r.st r.len) = 1 ∧ AllServed r "a" := by
  let r : Lts.Run (machine 2) fun _ _ => True :=
    .ofExec emptyCache oneInserts emptyCache_initial (by decide +kernel)
  have hfirst : FirstPins r "a" 4 :=
    ⟨emptyCache_constructed, by decide +kernel, by decide +kernel, by decide +kernel,
      by decide +kernel⟩
  exact ⟨r, rfl, by decide +kernel, first_pins_succeed r hfirst (by decide +kernel)⟩

/-- Both threads miss the file and read it. -/
def bothInsert : List Act :=
  [.pin 0 "a", .pin 1 "a", readFour 0, readFour 1, .tick 0, .tick 1, .tick 1, .tick 1]

/-- Thread 1 returns 0 with a pointer to its deleted buffer. -/
theorem secondPin_fails : ¬∀ (n : ℕ) (r : Lts.Run (machine n) fun _ _ => True) (f : String)
    (size : ℕ), FirstPins r f size → AllServed r f := by
  intro hall
  let r : Lts.Run (machine 2) fun _ _ => True :=
    .ofExec emptyCache bothInsert emptyCache_initial (by decide +kernel)
  have hfirst : FirstPins r "a" 4 :=
    ⟨emptyCache_constructed, by decide +kernel, by decide +kernel, by decide +kernel,
      by decide +kernel⟩
  have hactive : ∀ k < 8, 1 < k → ((r.st k).pc 1).active = 1 := by decide +kernel
  have hend : CallEnds r 1 1 8 := by
    refine ⟨by decide, Nat.le_refl _, rfl, fun k hk hk8 hidle => ?_⟩
    have hone := hactive k hk8 hk
    rw [hidle] at hone
    cases hone
  obtain ⟨a, ha, -⟩ := ((hall 2 r "a" 4 hfirst).served 1 (by decide) 1 rfl 8 hend).handle
  have hnone : (r.st 7).pc 1 = .countPin none := rfl
  rw [hnone] at ha
  cases ha

end FileCache

end HttpServer
