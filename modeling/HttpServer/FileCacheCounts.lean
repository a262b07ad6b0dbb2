import HttpServer.FileCacheUnpinned
import HttpServer.Lib.Tally
import Mathlib.Data.Nat.Count

/-!
# The counters of pins, hits and refusals

Every completed pin is booked in exactly one of four classes: a hit, a
refusal, an insertion, an I/O error. `pins()` counts it when it returns,
unless it returns from the middle of the loop of reads, as a pin does
whose file cannot be read. So the counters agree with the calls exactly
in the runs in which every file can be read (`counters_agree_iff`), as
long as the calls fit an `int`.
-/

namespace HttpServer

namespace FileCache

variable {n : ℕ} {s s' s₁ : State} {l : Act} {t : Tid}

/-! ## Accessors -/

def pins (s : State) : ℤ := int32 s.pinsTotal

def hits (s : State) : ℤ := int32 s.hitsTotal

def failed (s : State) : ℤ := int32 s.failedTotal

/-- The constructor sets the counters to 0. -/
structure Constructed (s : State) : Prop where
  pinsTotal : s.pinsTotal = 0
  hitsTotal : s.hitsTotal = 0
  failedTotal : s.failedTotal = 0

/-! ## Classes of calls -/

inductive Class where
  | hit
  | failed
  | inserted
  | ioError
deriving DecidableEq, Repr

/-- The thread whose call a step books, and the class. -/
def booking (s s' : State) : Act → Option (Tid × Class)
  | .tick t =>
      match s.pc t, s'.pc t with
      | .insert _ _ _, .countPin (some _) => some (t, .inserted)
      | .countHit _, _ => some (t, .hit)
      | .countFailed, _ => some (t, .failed)
      | _, _ => none
  | .openFail t => some (t, .ioError)
  | .readFail t => some (t, .ioError)
  | _ => none

@[simp] def Act.starts : Act → Bool
  | .pin _ _ => true
  | _ => false

@[simp] def Act.readFails : Act → Bool
  | .readFail _ => true
  | _ => false

namespace Pc

/-- In a call. -/
@[simp] def active : Pc → ℕ
  | .idle => 0
  | _ => 1

/-- In a call that has not been booked. -/
@[simp] def unbooked : Pc → ℕ
  | .idle => 0
  | .countPin _ => 0
  | _ => 1

theorem unbooked_le (p : Pc) : p.unbooked ≤ 1 := by
  cases p <;> simp

end Pc

/-! ## One step -/

/-- What a step of `t` that goes to `p` and books a call as `c` does to the
counters. -/
structure Turn (n : ℕ) (s : State) (l : Act) (s' : State) (t : Tid) (p : Pc) (c : Option Class) :
    Prop where
  pc : s'.pc = Function.update s.pc t p
  lt : p ≠ s.pc t → s.pc t = .idle → t < n
  start : ∀ u f, l = .pin u f → u = t ∧ s.pc t = .idle
  book : booking s s' l = c.map (t, ·)
  pins : s'.pinsTotal + (if l.readFails then 1 else 0 : ℕ) + p.active
    = s.pinsTotal + (if l.starts then 1 else 0 : ℕ) + (s.pc t).active
  hits : s'.hitsTotal = s.hitsTotal + (if c = some .hit then 1 else 0 : ℕ)
  failed : s'.failedTotal = s.failedTotal + (if c = some .failed then 1 else 0 : ℕ)
  booked : (if c.isSome then 1 else 0) + p.unbooked
    = (if l.starts then 1 else 0) + (s.pc t).unbooked

/-- After the insertion the thread has the node, or found another one. -/
theorem insertNode_pc (s : State) (t : Tid) (file : String) (buf : Buffer) :
    (s.insertNode t file buf).pc = Function.update s.pc t
      (if s.cacheMap.lookup file = none then .countPin (some s.allocs) else .countHit none) := by
  cases hfile : s.cacheMap.lookup file with
  | none =>
      rw [insertNode_of_none t buf hfile]
      rfl
  | some a =>
      rw [insertNode_of_some t buf hfile]
      rfl

theorem Room.pc {stSize : ℕ} (hr : Room s stSize s₁) : s₁.pc = s.pc := by
  cases hr with
  | enough _ => rfl
  | none _ => rfl
  | evict e _ _ => rfl

theorem unpin_pc (s : State) (h : Option ℕ) : (s.unpin h).pc = s.pc := by
  cases h with
  | none => rfl
  | some b =>
      obtain ⟨a, -, -, heq⟩ | ⟨e, -, heq⟩ := unpin_cases s b
      · rw [heq]
        rfl
      · rw [heq]

/-- Every step is a turn of one thread, if only to stay where it is. -/
theorem Move.turn (hm : Move n s l s') : ∃ t p c, Turn n s l s' t p c := by
  cases hm with
  | @hit t file a ht hpc hf =>
      refine ⟨t, .hit a, none, rfl, fun _ _ => ht, ?_, rfl, ?_, ?_, ?_, ?_⟩ <;>
        simp [hpc, State.goto]
  | @miss t file ht hpc hf =>
      refine ⟨t, .miss file, none, rfl, fun _ _ => ht, ?_, rfl, ?_, ?_, ?_, ?_⟩ <;>
        simp [hpc, State.goto]
  | @raise t a hpc =>
      refine ⟨t, .countHit (some a), none, rfl, ?_, ?_, ?_, ?_, ?_, ?_, ?_⟩ <;>
        simp [booking, hpc, State.goto, State.setNode]
  | @insert t file stSize buf s₁ hpc hroom hfree =>
      obtain ⟨-, hpins, hhits, hfailed⟩ :=
        (hroom.quiet.trans (insertNode_quiet s₁ t file buf)).toKept
      have hnew := insertNode_pc s₁ t file buf
      rw [hroom.pc] at hnew
      by_cases hfile : s₁.cacheMap.lookup file = none
      · rw [if_pos hfile] at hnew
        refine ⟨t, .countPin (some s₁.allocs), some .inserted, hnew, ?_, ?_, ?_, ?_, ?_, ?_, ?_⟩ <;>
          simp [booking, hpc, hnew, hpins, hhits, hfailed]
      · rw [if_neg hfile] at hnew
        refine ⟨t, .countHit none, none, hnew, ?_, ?_, ?_, ?_, ?_, ?_, ?_⟩ <;>
          simp [booking, hpc, hnew, hpins, hhits, hfailed]
  | @fail t file stSize buf s₁ hpc hroom =>
      obtain ⟨-, hpins, hhits, hfailed⟩ := hroom.quiet.toKept
      refine ⟨t, .countFailed, none, by rw [← hroom.pc]; rfl, ?_, ?_, ?_, ?_, ?_, ?_, ?_⟩ <;>
        simp [booking, hpc, State.goto, hpins, hhits, hfailed]
  | @fault t file stSize buf hpc he =>
      have hupd := (Function.update_eq_self t s.pc).symm
      refine ⟨t, s.pc t, none, hupd, ?_, ?_, ?_, ?_, ?_, ?_, ?_⟩ <;>
        simp [booking, hpc]
  | @countHit t h hpc =>
      refine ⟨t, .countPin h, some .hit, rfl, ?_, ?_, ?_, ?_, ?_, ?_, ?_⟩ <;>
        simp [booking, hpc, State.goto]
  | @countFailed t hpc =>
      refine ⟨t, .countPin none, some .failed, rfl, ?_, ?_, ?_, ?_, ?_, ?_, ?_⟩ <;>
        simp [booking, hpc, State.goto]
  | @retNone t hpc =>
      refine ⟨t, .idle, none, rfl, ?_, ?_, ?_, ?_, ?_, ?_, ?_⟩ <;>
        simp [booking, hpc, State.goto]
  | @retSome t a hpc =>
      refine ⟨t, .idle, none, rfl, ?_, ?_, ?_, ?_, ?_, ?_, ?_⟩ <;>
        simp [booking, hpc, State.goto]
  | @openFail t file hpc =>
      refine ⟨t, .countPin none, some .ioError, rfl, ?_, ?_, ?_, ?_, ?_, ?_, ?_⟩ <;>
        simp [booking, hpc, State.goto]
  | @readFail t file hpc =>
      refine ⟨t, .idle, some .ioError, rfl, ?_, ?_, ?_, ?_, ?_, ?_, ?_⟩ <;>
        simp [booking, hpc, State.goto]
  | @load t file stSize heap reads buf hpc hload =>
      refine ⟨t, .insert file stSize buf, none, rfl, ?_, ?_, ?_, ?_, ?_, ?_, ?_⟩ <;>
        simp [booking, hpc, State.goto]
  | unpin h ha =>
      obtain ⟨-, hpins, hhits, hfailed⟩ := unpin_kept s h
      refine ⟨0, s.pc 0, none, ?_, ?_, ?_, ?_, ?_, ?_, ?_, ?_⟩ <;>
        simp [booking, unpin_pc, hpins, hhits, hfailed]

section Turn

variable {p : Pc} {c : Option Class}

theorem Turn.idle (h : Turn n s l s' t p c) (hs : ∀ u, n ≤ u → s.pc u = .idle) :
    ∀ u, n ≤ u → s'.pc u = .idle := by
  intro u hu
  rw [h.pc]
  by_cases hut : u = t
  · subst hut
    rw [Function.update_self]
    by_contra hne
    exact absurd (h.lt (by rw [hs u hu]; exact hne) (hs u hu)) (not_lt.mpr hu)
  · rw [Function.update_of_ne hut]
    exact hs u hu

theorem Turn.total (h : Turn n s l s' t p c) (hs : ∀ u, n ≤ u → s.pc u = .idle) (f : Pc → ℕ) :
    Tally.total n f s'.pc + f (s.pc t) = Tally.total n f s.pc + f p := by
  rw [h.pc]
  by_cases hp : p = s.pc t
  · rw [hp, Function.update_eq_self]
  · by_cases ht : t < n
    · exact Tally.total_update f s.pc ht p
    · exact absurd (h.lt hp (hs t (not_lt.mp ht))) ht

/-- A step that starts a call books none. -/
theorem booking_of_starts (h : l.starts = true) : booking s s' l = none := by
  cases l with
  | pin u f => rfl
  | _ => cases h

/-- A step books a call of `u` when it takes `u` from unbooked to booked. -/
theorem Turn.book_iff (h : Turn n s l s' t p c) (u : Tid) :
    (∃ x, booking s s' l = some (u, x)) ↔ (s.pc u).unbooked = 1 ∧ (s'.pc u).unbooked = 0 := by
  have hbooked := h.booked
  rw [h.book, h.pc]
  by_cases hut : u = t
  · subst hut
    rw [Function.update_self]
    by_cases hl : l.starts = true
    · have hnone : c = none := by
        have hbook := h.book
        rw [booking_of_starts hl] at hbook
        exact Option.map_eq_none_iff.mp hbook.symm
      subst hnone
      rw [if_pos hl, Option.isSome_none, if_neg Bool.false_ne_true] at hbooked
      exact iff_of_false (by simp) (by omega)
    · rw [if_neg hl] at hbooked
      cases c with
      | none =>
          rw [Option.isSome_none, if_neg Bool.false_ne_true] at hbooked
          exact iff_of_false (by simp) (by omega)
      | some x =>
          have hle := Pc.unbooked_le (s.pc u)
          rw [Option.isSome_some, if_pos rfl] at hbooked
          exact iff_of_true ⟨x, rfl⟩ (by omega)
  · rw [Function.update_of_ne hut]
    refine iff_of_false (fun ⟨x, hx⟩ => ?_) (by omega)
    obtain ⟨y, -, hy⟩ := Option.map_eq_some_iff.mp hx
    exact hut (congrArg Prod.fst hy).symm

/-- A booked call stays booked until it returns. -/
theorem Turn.stays_booked (h : Turn n s l s' t p c) {u : Tid} (hu : (s.pc u).unbooked = 0)
    (hne : s.pc u ≠ .idle) : (s'.pc u).unbooked = 0 := by
  rw [h.pc]
  by_cases hut : u = t
  · subst hut
    rw [Function.update_self]
    have hl : l.starts ≠ true := fun hl => by
      cases l with
      | pin v f =>
          obtain ⟨rfl, hidle⟩ := h.start v f rfl
          exact hne hidle
      | _ => cases hl
    have hbooked := h.booked
    rw [if_neg hl] at hbooked
    omega
  · rw [Function.update_of_ne hut]
    exact hu

end Turn

/-! ## Runs -/

section Runs

variable (r : Lts.Run (machine n) fun _ _ => True)

def bookingAt (k : ℕ) : Option (Tid × Class) := booking (r.st k) (r.st (k + 1)) (r.act k)

/-- The calls of `pin` up to an instant. -/
def calls (j : ℕ) : ℕ := Nat.count (fun k => (r.act k).starts = true) j

/-- The reads that have failed. -/
def readErrors (j : ℕ) : ℕ := Nat.count (fun k => (r.act k).readFails = true) j

/-- The calls that have been booked, and those booked as `c`. -/
def bookings (j : ℕ) : ℕ := Nat.count (fun k => (bookingAt r k).isSome = true) j

def bookedAs (c : Class) (j : ℕ) : ℕ :=
  Nat.count (fun k => (bookingAt r k).map Prod.snd = some c) j

variable {r} {j : ℕ}

@[simp] theorem bookings_zero : bookings r 0 = 0 := Nat.count_zero _

@[simp] theorem bookedAs_zero (c : Class) : bookedAs r c 0 = 0 := Nat.count_zero _

theorem calls_succ : calls r (j + 1) = calls r j + if (r.act j).starts then 1 else 0 :=
  Nat.count_succ _ j

theorem readErrors_succ :
    readErrors r (j + 1) = readErrors r j + if (r.act j).readFails then 1 else 0 :=
  Nat.count_succ _ j

theorem bookings_succ :
    bookings r (j + 1) = bookings r j + if (bookingAt r j).isSome then 1 else 0 :=
  Nat.count_succ _ j

theorem bookedAs_succ (c : Class) : bookedAs r c (j + 1)
    = bookedAs r c j + if (bookingAt r j).map Prod.snd = some c then 1 else 0 :=
  Nat.count_succ _ j

/-- There are four classes. -/
theorem bookings_eq (j : ℕ) : bookings r j = bookedAs r .hit j + bookedAs r .failed j
    + bookedAs r .inserted j + bookedAs r .ioError j := by
  induction j with
  | zero => simp
  | succ j ih =>
      simp only [bookings_succ, bookedAs_succ, ih]
      cases bookingAt r j with
      | none => simp
      | some x =>
          obtain ⟨t, c⟩ := x
          cases c <;> simp <;> omega

/-- The counters after `j` steps. -/
structure Tallied (r : Lts.Run (machine n) fun _ _ => True) (j : ℕ) : Prop where
  idle : ∀ t, n ≤ t → (r.st j).pc t = .idle
  pins : (r.st j).pinsTotal + readErrors r j + Tally.total n Pc.active (r.st j).pc = calls r j
  hits : (r.st j).hitsTotal = bookedAs r .hit j
  failed : (r.st j).failedTotal = bookedAs r .failed j
  booked : bookings r j + Tally.total n Pc.unbooked (r.st j).pc = calls r j

theorem Tallied.zero (hnew : Constructed (r.st 0)) : Tallied r 0 := by
  have hidle : ∀ t, (r.st 0).pc t = .idle := r.init.pc
  refine ⟨fun t _ => hidle t, ?_, ?_, ?_, ?_⟩
  · rw [hnew.pinsTotal, Tally.total_eq_zero fun t => by rw [hidle t]; rfl]
    rfl
  · rw [hnew.hitsTotal, bookedAs_zero]
    rfl
  · rw [hnew.failedTotal, bookedAs_zero]
    rfl
  · rw [Tally.total_eq_zero fun t => by rw [hidle t]; rfl]
    rfl

theorem Tallied.succ (h : Tallied r j) (hj : j < r.len) : Tallied r (j + 1) := by
  obtain ⟨t, p, c, ht⟩ := (step_move (r.step j hj)).turn
  have hactive := ht.total h.idle Pc.active
  have hunbooked := ht.total h.idle Pc.unbooked
  have hc : bookingAt r j = c.map (t, ·) := ht.book
  have hclass : (bookingAt r j).map Prod.snd = c := by
    rw [hc]
    cases c <;> rfl
  have hsome : (bookingAt r j).isSome = c.isSome := by
    rw [hc]
    cases c <;> rfl
  have hpins := ht.pins
  have hbooked := ht.booked
  have hpins' := h.pins
  have hbooked' := h.booked
  refine ⟨ht.idle h.idle, ?_, ?_, ?_, ?_⟩
  · rw [readErrors_succ, calls_succ, Int.natCast_add, Int.natCast_add]
    omega
  · rw [bookedAs_succ, hclass, ht.hits, h.hits, Int.natCast_add]
  · rw [bookedAs_succ, hclass, ht.failed, h.failed, Int.natCast_add]
  · rw [bookings_succ, calls_succ, hsome]
    omega

theorem tallied (hnew : Constructed (r.st 0)) : ∀ j ≤ r.len, Tallied r j :=
  r.invariant (.zero hnew) fun _ hj h => h.succ hj

/-- The call of `t` that starts at `i` returns at `j`. -/
structure CallEnds (r : Lts.Run (machine n) fun _ _ => True) (t : Tid) (i j : ℕ) : Prop where
  lt : i < j
  le : j ≤ r.len
  idle : (r.st j).pc t = .idle
  first : ∀ k, i < k → k < j → (r.st k).pc t ≠ .idle

/-- Step `k` books a call of `t` that has started at `i`, and `k < m`. -/
def Books (r : Lts.Run (machine n) fun _ _ => True) (t : Tid) (i m k : ℕ) : Prop :=
  (i < k ∧ k < m) ∧ ∃ c, bookingAt r k = some (t, c)

theorem books_succ {i m k : ℕ} (hno : ∀ c, bookingAt r m ≠ some (t, c)) :
    Books r t i (m + 1) k ↔ Books r t i m k := by
  unfold Books
  constructor
  · rintro ⟨⟨hik, hkm⟩, c, hc⟩
    refine ⟨⟨hik, ?_⟩, c, hc⟩
    rcases Nat.lt_succ_iff_lt_or_eq.mp hkm with hlt | rfl
    · exact hlt
    · exact absurd hc (hno c)
  · rintro ⟨⟨hik, hkm⟩, hc⟩
    exact ⟨⟨hik, Nat.lt_succ_of_lt hkm⟩, hc⟩

/-- Up to an instant of the call: not booked yet, or booked once. -/
theorem call_booked {i : ℕ} {f : String} (hi : i < r.len) (hstart : r.act i = .pin t f) :
    ∀ m, i < m → m ≤ r.len → (∀ k, i < k → k < m → (r.st k).pc t ≠ .idle) →
      if ((r.st m).pc t).unbooked = 0 then ∃! k, Books r t i m k
      else ∀ k, ¬Books r t i m k := by
  intro m him
  induction m, him using Nat.le_induction with
  | base =>
      intro _ _
      obtain ⟨u, p, c, hturn⟩ := (step_move (r.step i hi)).turn
      obtain ⟨rfl, hidle⟩ := hturn.start t f hstart
      have hbooked := hturn.booked
      have hc : c = none := by
        have hbook := hturn.book
        rw [hstart] at hbook
        exact Option.map_eq_none_iff.mp hbook.symm
      have hp : p.unbooked = 1 := by
        rw [hstart, hidle, hc] at hbooked
        simpa using hbooked
      rw [hturn.pc, Function.update_self, hp, if_neg Nat.one_ne_zero]
      rintro k ⟨⟨hik, hk⟩, -⟩
      omega
  | succ m him ih =>
      intro hm hfirst
      have ih := ih (Nat.le_of_succ_le hm) fun k hik hk => hfirst k hik (Nat.lt_succ_of_lt hk)
      obtain ⟨u, p, c, hturn⟩ := (step_move (r.step m hm)).turn
      have hbook : (∃ c, bookingAt r m = some (t, c)) ↔ _ := hturn.book_iff t
      by_cases hnow : ((r.st m).pc t).unbooked = 0
      · have hnext := hturn.stays_booked hnow (hfirst m him (Nat.lt_succ_self m))
        have hno : ∀ c, bookingAt r m ≠ some (t, c) := fun c hc => by
          have hone := (hbook.mp ⟨c, hc⟩).1
          omega
        rw [if_pos hnow] at ih
        rw [if_pos hnext]
        simpa only [books_succ hno] using ih
      · rw [if_neg hnow] at ih
        have hone : ((r.st m).pc t).unbooked = 1 := by
          have hle := Pc.unbooked_le ((r.st m).pc t)
          omega
        by_cases hnext : ((r.st (m + 1)).pc t).unbooked = 0
        · rw [if_pos hnext]
          refine ⟨m, ⟨⟨him, Nat.lt_succ_self m⟩, hbook.mpr ⟨hone, hnext⟩⟩, fun k hk => ?_⟩
          rcases Nat.lt_succ_iff_lt_or_eq.mp hk.1.2 with hlt | rfl
          · exact absurd ⟨⟨hk.1.1, hlt⟩, hk.2⟩ (ih k)
          · rfl
        · have hno : ∀ c, bookingAt r m ≠ some (t, c) := fun c hc => hnext (hbook.mp ⟨c, hc⟩).2
          rw [if_neg hnext]
          simpa only [books_succ hno] using ih

/-- Every completed call is booked once. -/
theorem CallEnds.books {i j : ℕ} {f : String} (h : CallEnds r t i j)
    (hstart : r.act i = .pin t f) : ∃! k, Books r t i j k := by
  have hbooked := call_booked (lt_of_lt_of_le h.lt h.le) hstart j h.lt h.le h.first
  have hidle : ((r.st j).pc t).unbooked = 0 := by rw [h.idle]; rfl
  rw [if_pos hidle] at hbooked
  exact hbooked

theorem exists_callEnds {i : ℕ} (hi : i < r.len) (hdone : (r.st r.len).pc t = .idle) :
    ∃ j, CallEnds r t i j := by
  classical
  have hex : ∃ j, i < j ∧ (r.st j).pc t = .idle := ⟨r.len, hi, hdone⟩
  have hle : Nat.find hex ≤ r.len := Nat.find_min' hex ⟨hi, hdone⟩
  refine ⟨Nat.find hex, (Nat.find_spec hex).1, hle, (Nat.find_spec hex).2, fun k hik hk hidle => ?_⟩
  exact Nat.find_min hex hk ⟨hik, hidle⟩

/-! ## Conservation -/

/-- What the counters should say of a run in which all calls have
completed. -/
structure Conserved (r : Lts.Run (machine n) fun _ _ => True) : Prop where
  pins : pins (r.st r.len) = calls r r.len
  classes : FileCache.pins (r.st r.len) = hits (r.st r.len) + failed (r.st r.len)
    + bookedAs r .inserted r.len + bookedAs r .ioError r.len
  once : ∀ i < r.len, ∀ t f, r.act i = .pin t f →
    ∃ j, CallEnds r t i j ∧ ∃! k, Books r t i j k

/-- A read that fails is an I/O error. -/
theorem readErrors_le (j : ℕ) : readErrors r j ≤ bookedAs r .ioError j := by
  refine Nat.count_mono_left fun k _ hread => ?_
  unfold Act.readFails at hread
  split at hread
  · rename_i t ht
    rw [bookingAt, ht]
    rfl
  · cases hread

theorem readErrors_eq_zero {j : ℕ} :
    readErrors r j = 0 ↔ ∀ i < j, ∀ t, r.act i ≠ .readFail t := by
  unfold readErrors
  rw [Nat.count_iff_forall_not]
  constructor
  · intro h i hi t ht
    exact h i hi (by rw [ht]; rfl)
  · intro h i hi hread
    unfold Act.readFails at hread
    split at hread
    · rename_i t ht
      exact h i hi t ht
    · cases hread

/-- **The counters agree with the calls exactly when** no read has failed
and the calls fit an `int`. -/
theorem counters_agree_iff (r : Lts.Run (machine n) fun _ _ => True) (hnew : Constructed (r.st 0))
    (hdone : ∀ t, (r.st r.len).pc t = .idle) :
    Conserved r ↔ (∀ i < r.len, ∀ t, r.act i ≠ .readFail t) ∧ calls r r.len < 2 ^ 31 := by
  have hT := tallied hnew r.len (Nat.le_refl _)
  have hpins := hT.pins
  have hbooked := hT.booked
  rw [Tally.total_eq_zero fun t => by rw [hdone t]; rfl] at hpins hbooked
  have hsum := bookings_eq (r := r) r.len
  have hle := readErrors_le (r := r) r.len
  rw [← readErrors_eq_zero]
  constructor
  · intro h
    have hcalls := h.pins
    have hlt := (int32_range (r.st r.len).pinsTotal).2
    have hint : int32 (r.st r.len).pinsTotal = calls r r.len := hcalls
    have hfit : int32 (r.st r.len).pinsTotal = (r.st r.len).pinsTotal :=
      int32_of_range (by omega) (by omega)
    omega
  · rintro ⟨hno, hlt⟩
    have hexact : pins (r.st r.len) = calls r r.len := by
      rw [pins, int32_of_range (by omega) (by omega)]
      omega
    refine ⟨hexact, ?_, fun i hi t f hstart => ?_⟩
    · rw [hexact, hits, failed, hT.hits, hT.failed, int32_of_range (by omega) (by omega),
        int32_of_range (by omega) (by omega)]
      omega
    · obtain ⟨j, hj⟩ := exists_callEnds hi (hdone t)
      exact ⟨j, hj, hj.books hstart⟩

end Runs

theorem emptyCache_constructed : Constructed emptyCache := ⟨rfl, rfl, rfl⟩

/-- A run of one thread that ends with the call. -/
theorem idle_of_lt {s : State} (h0 : s.pc 0 = .idle) (hrest : ∀ t, 1 ≤ t → s.pc t = .idle) :
    ∀ t, s.pc t = .idle := fun t => by
  cases t with
  | zero => exact h0
  | succ t => exact hrest _ (Nat.le_add_left 1 t)

/-- A file that cannot be opened is counted. -/
theorem openFail_conserved : ∃ r : Lts.Run (machine 1) fun _ _ => True,
    calls r r.len = 1 ∧ Conserved r := by
  let r : Lts.Run (machine 1) fun _ _ => True :=
    .ofExec emptyCache [.pin 0 "a", .openFail 0, .tick 0] emptyCache_initial (by decide +kernel)
  have hnew : Constructed (r.st 0) := emptyCache_constructed
  have hdone := idle_of_lt (s := r.st r.len) rfl (tallied hnew _ (Nat.le_refl _)).idle
  have hcalls : calls r r.len = 1 := by decide +kernel
  refine ⟨r, hcalls, (counters_agree_iff r hnew hdone).mpr ⟨fun i hi t => ?_, ?_⟩⟩
  · have hread := readErrors_eq_zero.mp (show readErrors r r.len = 0 by decide +kernel)
    exact hread i hi t
  · omega

/-- A file that cannot be read is not. -/
theorem readFail_not_conserved : ¬∀ (n : ℕ) (r : Lts.Run (machine n) fun _ _ => True),
    Constructed (r.st 0) → (∀ t, (r.st r.len).pc t = .idle) → Conserved r := by
  intro hall
  let r : Lts.Run (machine 1) fun _ _ => True :=
    .ofExec emptyCache [.pin 0 "a", .readFail 0] emptyCache_initial (by decide +kernel)
  have hnew : Constructed (r.st 0) := emptyCache_constructed
  have hdone := idle_of_lt (s := r.st r.len) rfl (tallied hnew _ (Nat.le_refl _)).idle
  have hpins := (hall 1 r hnew hdone).pins
  revert hpins
  decide +kernel

end FileCache

end HttpServer
