import HttpServer.Lib.Double
import HttpServer.Lib.Ring
import Mathlib.Algebra.Order.BigOperators.Group.Finset

/-!
# Requests served in the last second

`RequestStats` keeps, for each thread, a circular array of ten counters,
one for each slot of a tenth of a second. `finishedRequest` adds one to
the counter of the slot that is current for its thread, after it has
zeroed the slots that came in between; `getStats` adds up the slots of
the last second of every thread.

Slot number `i` is the time from tick `i * T` on. A thread whose current
slot has number `b` shows the window `b - 9, …, b` (`Keeps`), whatever
the ticks of its requests were: what is booked where is the step lemma
`finished_spec`, and what of it a reader takes is `threadStats_fresh`,
`threadStats_circle` and `threadStats_stale`.

`ticksPerSecond()` is a `double`, and what is compared with it becomes
one. So the test for "more than a second ago" is a test of rounded
numbers: a request it misjudges (`Misjudges`) makes `finishedRequest`
zero a slot that has not expired, or leave one that has.
-/

namespace HttpServer

namespace RequestStats

/-- What a `uint32_t` and a `uint64_t` keep of a number. -/
def uint32 (x : ℕ) : ℕ := x % 2 ^ 32

def uint64 (x : ℕ) : ℕ := x % 2 ^ 64

def kNumSlots : ℕ := 10

/-- `kTicksPerSlot` and `TicksClock::ticksPerSecond()`: a second has ten
slots and less than an eleventh. -/
structure Clock where
  kTicksPerSlot : ℕ
  ticksPerSecond : ℕ
  slot_pos : 1 ≤ kTicksPerSlot
  slot_lt : kTicksPerSlot < 2 ^ 64
  ten_slots : 10 * kTicksPerSlot ≤ ticksPerSecond
  lt_eleven : ticksPerSecond < 11 * kTicksPerSlot

/-- What `ticksPerSecond()` returns. -/
def Clock.second (k : Clock) : ℕ := Double.toDouble k.ticksPerSecond

/-- A circular vector of accumulators. -/
structure Counts where
  basePos : ℕ
  baseTick : ℕ
  val : ℕ → ℕ

structure Stats where
  numThreads : ℕ
  counts : ℕ → Counts

def Counts.zero : Counts := { basePos := 0, baseTick := 0, val := fun _ => 0 }

/-- The constructor. -/
def init (numThreads : ℕ) : Stats := { numThreads, counts := fun _ => Counts.zero }

/-! ## The helpers of the header -/

def incPos (p : ℕ) : ℕ := (p + 1) % kNumSlots

def posForTick (k : Clock) (t : ℕ) : ℕ := t / k.kTicksPerSlot % kNumSlots

def roundTick (k : Clock) (t : ℕ) : ℕ := t - t % k.kTicksPerSlot

/-! ## finishedRequest -/

/-- `do { curr_pos = incPos(curr_pos); val[curr_pos] = 0; }
while (curr_pos != new_pos)`. -/
def zeroSlots (newPos : ℕ) : ℕ → ℕ → (ℕ → ℕ) → Option (ℕ → ℕ)
  | 0, _, _ => none
  | fuel + 1, currPos, val =>
      let currPos := incPos currPos
      let val := Function.update val currPos 0
      if currPos = newPos then some val else zeroSlots newPos fuel currPos val

/-- `base_tick + ticksPerSecond() < now`, in doubles. -/
def secondAgo (k : Clock) (baseTick now : ℕ) : Bool :=
  Double.add (Double.toDouble baseTick) k.second < Double.toDouble now

/-- All the slots are zeroed when the last request came in more than a
second ago, otherwise those between it and this one. -/
def zeroExpired (k : Clock) (now : ℕ) (c : Counts) : Option (ℕ → ℕ) :=
  if secondAgo k c.baseTick now then
    some fun p => if p < kNumSlots then 0 else c.val p
  else
    zeroSlots (posForTick k now) kNumSlots c.basePos c.val

/-- The position and the tick mark of the last slot, when at least one
slot has expired. -/
def advance (k : Clock) (now : ℕ) (c : Counts) : Option Counts :=
  if uint64 (c.baseTick + k.kTicksPerSlot) < now then
    (zeroExpired k now c).map fun val =>
      { basePos := posForTick k now, baseTick := roundTick k now, val := val }
  else
    some c

/-- What `finishedRequest` does to the counts of its thread. -/
def finished (k : Clock) (now : ℕ) (c : Counts) : Option Counts :=
  (advance k now c).map fun c =>
    { c with val := Function.update c.val c.basePos (uint32 (c.val c.basePos + 1)) }

/-- A wrong `thread_num` is fatal. -/
def finishedRequest (k : Clock) (threadNum now : ℕ) (s : Stats) : Option Stats :=
  if s.numThreads ≤ threadNum then
    none
  else
    (finished k now (s.counts threadNum)).map fun c =>
      { s with counts := Function.update s.counts threadNum c }

/-! ## getStats -/

/-- `do { curr_pos = incPos(curr_pos); reqs_acc += val[curr_pos]; }
while (curr_pos != base_pos)`. -/
def readSlots (basePos : ℕ) (val : ℕ → ℕ) : ℕ → ℕ → ℕ → Option ℕ
  | 0, _, _ => none
  | fuel + 1, currPos, acc =>
      let currPos := incPos currPos
      let acc := uint32 (acc + val currPos)
      if currPos = basePos then some acc else readSlots basePos val fuel currPos acc

/-- The body of the loop over the threads, with `reqs_acc` before it;
`now - base_tick > ticksPerSecond()` is a comparison of doubles, too. -/
def threadStats (k : Clock) (now : ℕ) (c : Counts) (acc : ℕ) : Option ℕ :=
  if k.second < Double.toDouble (uint64 (now + 2 ^ 64 - c.baseTick)) then
    some acc
  else
    readSlots c.basePos c.val kNumSlots (posForTick k now) acc

/-- `*reqsLastSec`. -/
def getStats (k : Clock) (now : ℕ) (s : Stats) : Option ℕ :=
  (List.range s.numThreads).foldlM (fun acc i => threadStats k now (s.counts i) acc) 0

/-! ## The two loops -/

variable {k : Clock} {c : Counts} {b now acc : ℕ} {f : ℤ → ℕ} {x y : ℤ}

theorem zeroSlots_eq (q fuel p : ℕ) (val : ℕ → ℕ) (h : q ∈ Ring.walk kNumSlots q fuel p) :
    ∃ val', zeroSlots q fuel p val = some val' ∧
      ∀ r, val' r = if r ∈ Ring.walk kNumSlots q fuel p then 0 else val r := by
  induction fuel generalizing p val with
  | zero => exact absurd h List.not_mem_nil
  | succ fuel ih =>
      by_cases hq : incPos p = q
      · refine ⟨Function.update val (incPos p) 0, if_pos hq, fun r => ?_⟩
        simp only [Ring.walk_last fuel hq, List.mem_singleton, Function.update_apply, hq]
      · rw [Ring.walk_step fuel hq] at h
        obtain ⟨val', hval', hr⟩ := ih (incPos p) (Function.update val (incPos p) 0)
          ((List.mem_cons.mp h).resolve_left (Ne.symm hq))
        refine ⟨val', (if_neg hq).trans hval', fun r => ?_⟩
        rw [hr]
        simp only [Ring.walk_step fuel hq, List.mem_cons]
        by_cases hcurr : r = incPos p
        · subst hcurr
          rw [Function.update_self, ite_self]
          exact (if_pos (.inl rfl)).symm
        · rw [Function.update_of_ne hcurr]
          exact if_congr (iff_or_self.mpr fun h => absurd h hcurr) rfl rfl

theorem uint32_add (x y : ℕ) : uint32 (uint32 x + y) = uint32 (x + y) := by
  simp only [uint32, Nat.mod_add_mod]

theorem uint32_lt (x : ℕ) : uint32 x < 2 ^ 32 := Nat.mod_lt x (Nat.two_pow_pos 32)

theorem uint32_add_zero (h : acc < 2 ^ 32) : uint32 (acc + 0) = acc := Nat.mod_eq_of_lt h

theorem readSlots_eq (q fuel p acc : ℕ) (val : ℕ → ℕ) (h : q ∈ Ring.walk kNumSlots q fuel p) :
    readSlots q val fuel p acc
      = some (uint32 (acc + ((Ring.walk kNumSlots q fuel p).map val).sum)) := by
  induction fuel generalizing p acc with
  | zero => exact absurd h List.not_mem_nil
  | succ fuel ih =>
      by_cases hq : incPos p = q
      · rw [Ring.walk_last fuel hq, List.map_singleton, List.sum_singleton, ← hq]
        exact if_pos rfl
      · rw [Ring.walk_step fuel hq] at h
        have hrest := (List.mem_cons.mp h).resolve_left (Ne.symm hq)
        refine (if_neg hq).trans ((ih (incPos p) _ hrest).trans ?_)
        rw [Ring.walk_step fuel hq, uint32_add, List.map_cons, List.sum_cons, Nat.add_assoc]
        rfl

theorem kNumSlots_pos : 0 < kNumSlots := by decide

theorem walk_ends (hxy : x < y) (hyx : y ≤ x + kNumSlots) :
    Ring.pos kNumSlots y ∈ Ring.walk kNumSlots (Ring.pos kNumSlots y) kNumSlots
      (Ring.pos kNumSlots x) :=
  (Ring.mem_walk kNumSlots_pos _ _ x hxy hyx hyx).mpr ⟨y, hxy, le_rfl, rfl⟩

/-- The loop of `getStats` from the position of `x` to that of `y`. -/
theorem readSlots_spec (val : ℕ → ℕ) (acc : ℕ) (hxy : x < y) (hyx : y ≤ x + kNumSlots) :
    readSlots (Ring.pos kNumSlots y) val kNumSlots (Ring.pos kNumSlots x) acc
      = some (uint32 (acc + ∑ i ∈ Finset.Ioc x y, val (Ring.pos kNumSlots i))) := by
  rw [readSlots_eq _ _ _ _ _ (walk_ends hxy hyx), Ring.sum_walk kNumSlots_pos _ _ _ hxy hyx hyx]

/-! ## What a thread's counts show -/

/-- The current slot of the thread has number `b`. -/
structure AtSlot (k : Clock) (b : ℕ) (c : Counts) : Prop where
  baseTick : c.baseTick = b * k.kTicksPerSlot
  basePos : c.basePos = b % kNumSlots

/-- The thread is at slot `b`, and of the requests booked, `f i` in slot
number `i`, its array shows the last ten slots. -/
structure Keeps (k : Clock) (b : ℕ) (f : ℤ → ℕ) (c : Counts) : Prop extends AtSlot k b c where
  shows : Ring.Shows kNumSlots b f c.val
  none_after : ∀ i : ℤ, b < i → f i = 0

/-- The slot a request is booked in, from slot `b` on. -/
def bookSlot (k : Clock) (b now : ℕ) : ℕ :=
  if now ≤ (b + 1) * k.kTicksPerSlot then b else now / k.kTicksPerSlot

/-- One more request in slot `b`. -/
def book (f : ℤ → ℕ) (b : ℕ) : ℤ → ℕ := Function.update f b (f b + 1)

theorem Clock.pos (k : Clock) : 0 < k.kTicksPerSlot := k.slot_pos

theorem roundTick_eq (k : Clock) (t : ℕ) :
    roundTick k t = t / k.kTicksPerSlot * k.kTicksPerSlot := by
  have h := Nat.div_add_mod' t k.kTicksPerSlot
  unfold roundTick
  omega

theorem le_bookSlot (k : Clock) (b now : ℕ) : b ≤ bookSlot k b now := by
  unfold bookSlot
  split
  · exact le_rfl
  · next h =>
      refine (Nat.le_div_iff_mul_le k.pos).mpr ?_
      rw [Nat.succ_mul] at h
      omega

/-- The request is added to the slot the thread is at. -/
theorem Keeps.add (h : Keeps k b f c) (hmax : f b + 1 < 2 ^ 32) :
    Keeps k b (book f b)
      { c with val := Function.update c.val c.basePos (uint32 (c.val c.basePos + 1)) } := by
  have hpos : c.basePos = Ring.pos kNumSlots b := by rw [h.basePos, Ring.pos_natCast]
  have hval : c.val c.basePos = f b := by
    rw [hpos]
    exact h.shows b (by simp [kNumSlots]) le_rfl
  refine ⟨⟨h.baseTick, h.basePos⟩, ?_, fun i hi => ?_⟩
  · rw [hval, uint32, Nat.mod_eq_of_lt hmax, hpos]
    exact h.shows.update kNumSlots_pos _
  · rw [book, Function.update_of_ne hi.ne', h.none_after i hi]

/-! ## The slots zeroed -/

/-- The thread moves on from slot `b` to that of `now`, and the test for
a second is true before ten slots have passed, or is not when more have
and their number is no multiple of ten. -/
def Misjudges (k : Clock) (b now : ℕ) : Prop :=
  (b + 1) * k.kTicksPerSlot < now ∧
    (secondAgo k (b * k.kTicksPerSlot) now ∧ now / k.kTicksPerSlot < b + 10 ∨
      ¬secondAgo k (b * k.kTicksPerSlot) now ∧ b + 10 < now / k.kTicksPerSlot ∧
        (now / k.kTicksPerSlot - b) % 10 ≠ 0)

instance (k : Clock) (b now : ℕ) : Decidable (Misjudges k b now) :=
  inferInstanceAs (Decidable (_ ∧ (_ ∨ _)))

theorem AtSlot.pos (h : AtSlot k b c) : c.basePos = Ring.pos kNumSlots b := by
  rw [h.basePos, Ring.pos_natCast]

/-- How far round the walk to the position of a later slot goes. -/
theorem posForTick_walk (k : Clock) (now : ℕ) (h : b < now / k.kTicksPerSlot) :
    posForTick k now
      = Ring.pos kNumSlots (b + 1 + ((now / k.kTicksPerSlot - b - 1) % 10 : ℕ)) := by
  have hcast : (b + 1 + ((now / k.kTicksPerSlot - b - 1) % 10 : ℕ) : ℤ)
      = ((b + 1 + (now / k.kTicksPerSlot - b - 1) % 10 : ℕ) : ℤ) := by push_cast; rfl
  rw [hcast, Ring.pos_natCast]
  unfold posForTick kNumSlots
  omega

/-- Of the last ten slots, all are zeroed after a second, and otherwise
those whose positions the loop goes through. -/
theorem zeroExpired_spec (h : AtSlot k b c) (hlt : b < now / k.kTicksPerSlot) :
    ∃ val, zeroExpired k now c = some val ∧
      ∀ i : ℤ, (b : ℤ) - 10 < i → i ≤ b → val (Ring.pos kNumSlots i)
        = if secondAgo k (b * k.kTicksPerSlot) now
            ∨ i + 10 ≤ b + 1 + ((now / k.kTicksPerSlot - b - 1) % 10 : ℕ)
          then 0 else c.val (Ring.pos kNumSlots i) := by
  unfold zeroExpired
  rw [← h.baseTick]
  by_cases hsecond : secondAgo k c.baseTick now
  · rw [if_pos hsecond]
    refine ⟨_, rfl, fun i _ _ => ?_⟩
    rw [if_pos (Ring.pos_lt kNumSlots_pos i), if_pos (.inl hsecond)]
  rw [if_neg hsecond, posForTick_walk k now hlt, h.pos]
  generalize hend : (b + 1 + ((now / k.kTicksPerSlot - b - 1) % 10 : ℕ) : ℤ) = y
  have hby : (b : ℤ) < y := by omega
  have hyb : y ≤ b + kNumSlots := by
    simp only [kNumSlots]
    omega
  obtain ⟨val, hval, hr⟩ := zeroSlots_eq _ _ _ c.val (walk_ends hby hyb)
  refine ⟨val, hval, fun i hlo hhi => ?_⟩
  rw [hr]
  refine if_congr ((Ring.mem_walk kNumSlots_pos _ _ _ hby hyb hyb).trans ?_) rfl rfl
  constructor
  · rintro ⟨j, hbj, hjy, hj⟩
    -- a position comes back after ten slots
    have hturn : Ring.pos kNumSlots j = Ring.pos kNumSlots (i + kNumSlots) := by
      rw [hj, Ring.pos_add_turn]
    have := Ring.pos_inj kNumSlots_pos hturn (by simp only [kNumSlots] at *; omega)
      (by simp only [kNumSlots]; omega)
    simp only [kNumSlots] at this
    exact .inr (by omega)
  · intro hi
    exact ⟨i + 10, by omega, hi.resolve_left hsecond, Ring.pos_add_turn kNumSlots i⟩

/-- The slot of the last ten that shares its position with slot `i`. -/
theorem exists_shared (b : ℕ) (i : ℤ) :
    ∃ j : ℤ, (b : ℤ) - 10 < j ∧ j ≤ b ∧ Ring.pos kNumSlots j = Ring.pos kNumSlots i ∧
      (i - j) % 10 = 0 := by
  refine ⟨b - (b - i) % 10, by omega, by omega, ?_, by omega⟩
  unfold Ring.pos kNumSlots
  omega

/-- The thread moves on to the slot of `now`: the array shows the last ten
slots again, if the request is not misjudged or nothing was booked. -/
theorem Keeps.advance (h : Keeps k b f c) (hlt : (b + 1) * k.kTicksPerSlot < now)
    (hjudge : ¬Misjudges k b now ∨ ∀ i, f i = 0) :
    ∃ val, zeroExpired k now c = some val ∧
      Keeps k (now / k.kTicksPerSlot) f
        { basePos := posForTick k now, baseTick := roundTick k now, val := val } := by
  have hb : b + 1 ≤ now / k.kTicksPerSlot := (Nat.le_div_iff_mul_le k.pos).mpr hlt.le
  obtain ⟨val, hval, hzero⟩ := zeroExpired_spec h.toAtSlot hb
  refine ⟨val, hval, ⟨roundTick_eq k now, rfl⟩, fun i hlo hhi => ?_,
    fun i hi => h.none_after i (by omega)⟩
  obtain ⟨j, hjlo, hjhi, hpos, hmod⟩ := exists_shared b i
  simp only [kNumSlots] at hlo
  have hj := hzero j hjlo hjhi
  rw [h.shows j (by simp only [kNumSlots]; omega) hjhi, hpos] at hj
  change val (Ring.pos kNumSlots i) = f i
  rw [hj]
  rcases hjudge with hjudge | hnone
  · unfold Misjudges at hjudge
    split
    · next hzeroed =>
        refine (h.none_after i ?_).symm
        by_contra hle
        rcases hzeroed with hsecond | hloop
        · exact hjudge ⟨hlt, .inl ⟨hsecond, by omega⟩⟩
        · omega
    · next hkept =>
        rw [not_or] at hkept
        have hij : i = j := by
          by_contra hne
          refine hjudge ⟨hlt, .inr ⟨hkept.1, ?_, ?_⟩⟩ <;> omega
        rw [hij]
  · rw [hnone, hnone, ite_self]

/-- The tick with which the thread's slot ends. -/
theorem AtSlot.nextTick (h : AtSlot k b c) (htick : (b + 1) * k.kTicksPerSlot < 2 ^ 64) :
    uint64 (c.baseTick + k.kTicksPerSlot) = (b + 1) * k.kTicksPerSlot := by
  rw [h.baseTick, ← Nat.succ_mul, uint64, Nat.mod_eq_of_lt htick]

/-- One request: the thread moves on to the slot it is booked in. -/
theorem AtSlot.finished (h : AtSlot k b c) (now : ℕ) (htick : (b + 1) * k.kTicksPerSlot < 2 ^ 64) :
    ∃ c', RequestStats.finished k now c = some c' ∧ AtSlot k (bookSlot k b now) c' := by
  unfold RequestStats.finished RequestStats.advance
  rw [h.nextTick htick]
  by_cases hlt : (b + 1) * k.kTicksPerSlot < now
  · have hslot : bookSlot k b now = now / k.kTicksPerSlot := if_neg (not_le.mpr hlt)
    obtain ⟨val, hval, -⟩ := zeroExpired_spec h ((Nat.le_div_iff_mul_le k.pos).mpr hlt.le)
    rw [if_pos hlt, hval, hslot]
    exact ⟨_, rfl, roundTick_eq k now, rfl⟩
  · have hslot : bookSlot k b now = b := if_pos (not_lt.mp hlt)
    rw [if_neg hlt, hslot]
    exact ⟨_, rfl, h.baseTick, h.basePos⟩

/-- One request: the thread moves on to the slot it is booked in, and the
array shows the bookings with it. -/
theorem finished_spec (h : Keeps k b f c) (htick : (b + 1) * k.kTicksPerSlot < 2 ^ 64)
    (hjudge : ¬Misjudges k b now ∨ ∀ i, f i = 0) (hmax : f (bookSlot k b now) + 1 < 2 ^ 32) :
    ∃ c', finished k now c = some c' ∧
      Keeps k (bookSlot k b now) (book f (bookSlot k b now)) c' := by
  unfold finished advance
  rw [h.nextTick htick]
  by_cases hlt : (b + 1) * k.kTicksPerSlot < now
  · have hslot : bookSlot k b now = now / k.kTicksPerSlot := if_neg (not_le.mpr hlt)
    obtain ⟨val, hval, hkeeps⟩ := h.advance hlt hjudge
    rw [hslot] at hmax ⊢
    rw [if_pos hlt, hval]
    exact ⟨_, rfl, hkeeps.add hmax⟩
  · have hslot : bookSlot k b now = b := if_pos (not_lt.mp hlt)
    rw [hslot] at hmax ⊢
    rw [if_neg hlt]
    exact ⟨_, rfl, h.add hmax⟩

/-- A misjudged request leaves the thread's last slot at 0, or shows its
count at the position of a later slot. -/
theorem Keeps.misjudged {c' : Counts} (h : Keeps k b f c) (hjudge : Misjudges k b now)
    (htick : (b + 1) * k.kTicksPerSlot < 2 ^ 64) (hc' : finished k now c = some c') :
    ((now / k.kTicksPerSlot : ℕ) : ℤ) - 10 < b ∧ c'.val (Ring.pos kNumSlots b) = 0 ∨
      ∃ i : ℤ, (b : ℤ) < i ∧ ((now / k.kTicksPerSlot : ℕ) : ℤ) - 10 < i ∧
        i < (now / k.kTicksPerSlot : ℕ) ∧ c'.val (Ring.pos kNumSlots i) = f b := by
  obtain ⟨hlt, hjudge⟩ := hjudge
  have hb : b + 1 ≤ now / k.kTicksPerSlot := (Nat.le_div_iff_mul_le k.pos).mpr hlt.le
  obtain ⟨val, hval, hzero⟩ := zeroExpired_spec h.toAtSlot hb
  have hlast := hzero b (by omega) le_rfl
  rw [h.shows b (by simp [kNumSlots]) le_rfl] at hlast
  unfold finished RequestStats.advance at hc'
  rw [h.nextTick htick, if_pos hlt, hval] at hc'
  obtain rfl := Option.some.inj hc'
  -- the request itself is counted at another position
  have hother : ∀ i : ℤ, ((now / k.kTicksPerSlot : ℕ) : ℤ) - 10 < i →
      i < (now / k.kTicksPerSlot : ℕ) → Ring.pos kNumSlots i ≠ posForTick k now := by
    intro i hlo hhi heq
    have hnow : posForTick k now = Ring.pos kNumSlots (now / k.kTicksPerSlot : ℕ) :=
      (Ring.pos_natCast _ _).symm
    have := Ring.pos_inj kNumSlots_pos (heq.trans hnow) (by simp only [kNumSlots]; omega)
      (by simp only [kNumSlots]; omega)
    omega
  rcases hjudge with ⟨hago, hslot⟩ | ⟨hago, hslot, hturn⟩
  · refine .inl ⟨by omega, ?_⟩
    change Function.update val _ _ _ = _
    rw [Function.update_of_ne (hother b (by omega) (by omega)), hlast, if_pos (.inl hago)]
  · obtain ⟨i, hlo, hhi, hpos, hmod⟩ := exists_shared (now / k.kTicksPerSlot) (b : ℤ)
    refine .inr ⟨i, by omega, by omega, by omega, ?_⟩
    change Function.update val _ _ _ = _
    rw [Function.update_of_ne (hother i (by omega) (by omega)), hpos, hlast,
      if_neg (by rw [not_or]; exact ⟨hago, by omega⟩)]

/-! ## What a reader takes -/

theorem AtSlot.tick_sub (h : AtSlot k b c) (hle : c.baseTick ≤ now) (hnow : now < 2 ^ 64) :
    uint64 (now + 2 ^ 64 - c.baseTick) = now - b * k.kTicksPerSlot := by
  rw [← h.baseTick, show now + 2 ^ 64 - c.baseTick = now - c.baseTick + 2 ^ 64 by omega, uint64,
    Nat.add_mod_right, Nat.mod_eq_of_lt (by omega)]

/-- The slot of `now` is not before that of the thread. -/
theorem AtSlot.le_slot (h : AtSlot k b c) (hle : c.baseTick ≤ now) : b ≤ now / k.kTicksPerSlot :=
  (Nat.le_div_iff_mul_le k.pos).mpr (h.baseTick ▸ hle)

theorem slot_lt_iff (k : Clock) (b d : ℕ) :
    now / k.kTicksPerSlot < b + d ↔ now < b * k.kTicksPerSlot + d * k.kTicksPerSlot := by
  rw [Nat.div_lt_iff_lt_mul k.pos, Nat.add_mul]

theorem posForTick_sub (k : Clock) (now d : ℕ) :
    posForTick k now
      = Ring.pos kNumSlots ((now / k.kTicksPerSlot : ℕ) - (d * kNumSlots : ℕ)) := by
  rw [Ring.pos, Int.natCast_mul, Int.sub_mul_emod_self_right]
  exact (Ring.pos_natCast kNumSlots _).symm

/-- The distance at which a thread is skipped is more than a second. -/
theorem second_lt {d : ℕ} (h : k.second < Double.toDouble d) : k.ticksPerSecond < d :=
  Double.lt_of_toDouble_lt h

/-- At one that rounds to a second at most there are less than twenty
slots. -/
theorem lt_twenty {d : ℕ} (h : Double.toDouble d ≤ k.second) : d < 20 * k.kTicksPerSlot := by
  have heleven := k.lt_eleven
  have hd := (Double.toDouble_off d).2
  have hsecond := (Double.toDouble_off k.ticksPerSecond).1
  unfold Clock.second at h
  omega

/-- More than a second after the thread's slot began it is skipped. -/
theorem threadStats_stale (h : AtSlot k b c) (hle : c.baseTick ≤ now) (hnow : now < 2 ^ 64)
    (hstale : k.second < Double.toDouble (now - b * k.kTicksPerSlot)) (acc : ℕ) :
    threadStats k now c acc = some acc := by
  unfold threadStats
  rw [h.tick_sub hle hnow]
  exact if_pos hstale

/-- Less than ten slots later the slots after `now - 10` are read. -/
theorem threadStats_fresh (h : AtSlot k b c) (hle : c.baseTick ≤ now) (hnow : now < 2 ^ 64)
    (hfresh : now - b * k.kTicksPerSlot < 10 * k.kTicksPerSlot) (acc : ℕ) :
    threadStats k now c acc
      = some (uint32 (acc + ∑ i ∈ Finset.Ioc ((now / k.kTicksPerSlot : ℕ) - 10 : ℤ) b,
          c.val (Ring.pos kNumSlots i))) := by
  have hten := k.ten_slots
  have hb := h.le_slot hle
  have hslot := (slot_lt_iff k b 10).mpr (by omega : now < _)
  have hread : ¬k.second < Double.toDouble (now - b * k.kTicksPerSlot) :=
    fun hstale => absurd (second_lt hstale) (by omega)
  unfold threadStats
  rw [h.tick_sub hle hnow, if_neg hread, posForTick_sub k now 1, h.pos]
  exact readSlots_spec c.val acc (by simp [kNumSlots]; omega) (by simp [kNumSlots]; omega)

/-- From ten slots to one second later the walk starts at the position
where it has to stop or, if the second is a rounded one, behind it. -/
theorem threadStats_circle (h : AtSlot k b c) (hle : c.baseTick ≤ now) (hnow : now < 2 ^ 64)
    (hfrom : 10 * k.kTicksPerSlot ≤ now - b * k.kTicksPerSlot)
    (hto : Double.toDouble (now - b * k.kTicksPerSlot) ≤ k.second) (acc : ℕ) :
    threadStats k now c acc
      = some (uint32 (acc + ∑ i ∈ Finset.Ioc ((now / k.kTicksPerSlot : ℕ) - 20 : ℤ) b,
          c.val (Ring.pos kNumSlots i))) := by
  have htwenty := lt_twenty hto
  have hlo := (slot_lt_iff k b 10).not.mpr (by omega : ¬now < _)
  have hhi := (slot_lt_iff k b 20).mpr (by omega : now < _)
  unfold threadStats
  rw [h.tick_sub hle hnow, if_neg (not_lt.mpr hto), posForTick_sub k now 2, h.pos]
  exact readSlots_spec c.val acc (by simp [kNumSlots]; omega) (by simp [kNumSlots]; omega)

/-! ## The slots reported -/

/-- The numbers of the ten slots of a thread at slot `b`. -/
def slots (b : ℤ) : Finset ℤ := (Finset.range kNumSlots).image fun j : ℕ => b - j

theorem mem_slots {b i : ℤ} : i ∈ slots b ↔ b - 9 ≤ i ∧ i ≤ b := by
  simp only [slots, kNumSlots, Finset.mem_image, Finset.mem_range]
  constructor
  · rintro ⟨j, hj, rfl⟩
    omega
  · rintro ⟨hlo, hhi⟩
    exact ⟨(b - i).toNat, by omega, by omega⟩

/-- The counts of the slots that have not expired. -/
def unexpired (k : Clock) (now : ℕ) (c : Counts) : ℕ :=
  ∑ i ∈ (slots (c.baseTick / k.kTicksPerSlot : ℕ)).filter
      fun i => ((now / k.kTicksPerSlot : ℕ) : ℤ) - 10 < i,
    c.val (i % 10).toNat

/-- The thread adds the slots that have not expired, none of them ten
slots later. -/
structure Reports (k : Clock) (now : ℕ) (c : Counts) : Prop where
  amount : ∀ acc, acc < 2 ^ 32 →
    threadStats k now c acc = some (uint32 (acc + unexpired k now c))
  nothing : c.baseTick / k.kTicksPerSlot + 10 ≤ now / k.kTicksPerSlot →
    ∀ acc, acc < 2 ^ 32 → threadStats k now c acc = some acc

theorem AtSlot.div (h : AtSlot k b c) : c.baseTick / k.kTicksPerSlot = b := by
  rw [h.baseTick, Nat.mul_div_cancel _ k.pos]

theorem unexpired_fresh (h : AtSlot k b c) (hle : c.baseTick ≤ now) :
    unexpired k now c
      = ∑ i ∈ Finset.Ioc ((now / k.kTicksPerSlot : ℕ) - 10 : ℤ) b,
          c.val (Ring.pos kNumSlots i) := by
  have hb := h.le_slot hle
  unfold unexpired
  rw [h.div]
  refine Finset.sum_congr ?_ fun i _ => rfl
  ext i
  simp only [Finset.mem_filter, mem_slots, Finset.mem_Ioc]
  omega

theorem unexpired_nothing (h : AtSlot k b c) (hlate : b + 10 ≤ now / k.kTicksPerSlot) :
    unexpired k now c = 0 := by
  unfold unexpired
  rw [h.div]
  refine Finset.sum_eq_zero fun i hi => ?_
  simp only [Finset.mem_filter, mem_slots] at hi
  omega

/-- A clock of a thousand ticks a second. -/
def kilo : Clock where
  kTicksPerSlot := 100
  ticksPerSecond := 1000
  slot_pos := by decide
  slot_lt := by decide
  ten_slots := by decide
  lt_eleven := by decide

/-- The counts of a thread with one request in its slot `b`. -/
def once (b : ℕ) : Counts where
  basePos := b % kNumSlots
  baseTick := b * kilo.kTicksPerSlot
  val := Function.update (fun _ => 0) (b % kNumSlots) 1

/-- Reads from ten slots to one second after the thread's slot began go
once around the array. -/
theorem AtSlot.second_turn (h : AtSlot k b c) (hle : c.baseTick ≤ now)
    (hfrom : 10 * k.kTicksPerSlot ≤ now - b * k.kTicksPerSlot)
    (hto : now - b * k.kTicksPerSlot ≤ k.ticksPerSecond) :
    ∑ i ∈ Finset.Ioc ((now / k.kTicksPerSlot : ℕ) - 20 : ℤ) b, c.val (Ring.pos kNumSlots i)
      = ∑ p ∈ Finset.range 10, c.val p := by
  have heleven := k.lt_eleven
  have hle := h.baseTick ▸ hle
  have hlo := (slot_lt_iff k b 10).not.mpr (by omega : ¬now < _)
  have hhi := (slot_lt_iff k b 11).mpr (by omega : now < _)
  rw [show ((now / k.kTicksPerSlot : ℕ) : ℤ) - 20 = b - kNumSlots by simp [kNumSlots]; omega,
    Ring.sum_turn kNumSlots_pos]
  rfl

/-- The expired slots are left out, except from ten slots to one second
after the thread's slot began, when the walk goes round to slots that have
expired: to all ten, where the second is not rounded. -/
theorem reports_iff (k : Clock) (now : ℕ) (c : Counts) (hdvd : k.kTicksPerSlot ∣ c.baseTick)
    (hbase : c.basePos = c.baseTick / k.kTicksPerSlot % 10) (hle : c.baseTick ≤ now)
    (hnow : now < 2 ^ 64) :
    (Reports k now c ↔
      (10 * k.kTicksPerSlot ≤ now - c.baseTick → Double.toDouble (now - c.baseTick) ≤ k.second →
        uint32 (∑ i ∈ Finset.Ioc ((now / k.kTicksPerSlot : ℕ) - 20 : ℤ)
          (c.baseTick / k.kTicksPerSlot : ℕ), c.val (i % 10).toNat) = 0)) ∧
    (k.ticksPerSecond < 2 ^ 53 → (Reports k now c ↔
      (10 * k.kTicksPerSlot ≤ now - c.baseTick → now - c.baseTick ≤ k.ticksPerSecond →
        uint32 (∑ p ∈ Finset.range 10, c.val p) = 0))) := by
  obtain ⟨b, hb⟩ := hdvd
  rw [Nat.mul_comm] at hb
  have hat : AtSlot k b c := by
    refine ⟨hb, ?_⟩
    rw [hbase, hb, Nat.mul_div_cancel _ k.pos]
    rfl
  have hiff : Reports k now c ↔
      (10 * k.kTicksPerSlot ≤ now - b * k.kTicksPerSlot →
        Double.toDouble (now - b * k.kTicksPerSlot) ≤ k.second →
        uint32 (∑ i ∈ Finset.Ioc ((now / k.kTicksPerSlot : ℕ) - 20 : ℤ) b,
          c.val (Ring.pos kNumSlots i)) = 0) := by
    rcases Nat.lt_or_ge (now - b * k.kTicksPerSlot) (10 * k.kTicksPerSlot) with hfresh | hfrom
    · refine iff_of_true ⟨fun acc _ => ?_, fun hlate => ?_⟩ (by omega)
      · rw [threadStats_fresh hat hle hnow hfresh, unexpired_fresh hat hle]
      · have hslot := (slot_lt_iff k b 10).mpr (by omega : now < _)
        rw [hat.div] at hlate
        omega
    have hlate : b + 10 ≤ now / k.kTicksPerSlot :=
      not_lt.mp ((slot_lt_iff k b 10).not.mpr (by omega : ¬now < _))
    have hzero := unexpired_nothing hat hlate
    rcases Nat.lt_or_ge k.second (Double.toDouble (now - b * k.kTicksPerSlot)) with hstale | hto
    · refine iff_of_true ⟨fun acc hacc => ?_, fun _ acc _ => ?_⟩ (by omega)
      · rw [threadStats_stale hat hle hnow hstale, hzero, uint32_add_zero hacc]
      · exact threadStats_stale hat hle hnow hstale acc
    have hcircle := threadStats_circle hat hle hnow hfrom hto
    constructor
    · intro h _ _
      have h0 := h.amount 0 (by decide)
      rw [hcircle, hzero] at h0
      simpa [uint32] using Option.some.inj h0
    · intro h
      have h0 := h hfrom hto
      have hadd : ∀ acc, acc < 2 ^ 32 → threadStats k now c acc = some acc := by
        intro acc hacc
        rw [hcircle]
        unfold uint32 at h0 ⊢
        exact congrArg some (by omega)
      refine ⟨fun acc hacc => ?_, fun _ acc hacc => hadd acc hacc⟩
      rw [hadd acc hacc, hzero, uint32_add_zero hacc]
  rw [hat.div, hb]
  refine ⟨hiff, fun hsmall => hiff.trans ?_⟩
  refine forall_congr' fun hfrom => ?_
  have htest : Double.toDouble (now - b * k.kTicksPerSlot) ≤ k.second
      ↔ now - b * k.kTicksPerSlot ≤ k.ticksPerSecond := by
    rw [← not_lt, ← not_lt]
    exact (Double.toDouble_lt_iff hsmall).not
  rw [htest]
  refine forall_congr' fun hto => ?_
  rw [hat.second_turn hle hfrom hto]

/-- Exactly one second after a request in slot 0 it is still reported. -/
theorem not_reports_second :
    kilo.kTicksPerSlot ∣ (once 0).baseTick ∧
      (once 0).basePos = (once 0).baseTick / kilo.kTicksPerSlot % 10 ∧
      (once 0).baseTick ≤ 1000 ∧ ¬ Reports kilo 1000 (once 0) := by
  refine ⟨by decide, by decide, by decide, fun h => ?_⟩
  have h0 := h.nothing (by decide) 0 (by decide)
  exact absurd h0 (by decide +kernel)

/-- Less than a second after the slot of a request began it is reported,
and after the second is over it is not. -/
theorem reports_later :
    (Reports kilo 950 (once 0) ∧ unexpired kilo 950 (once 0) = 1) ∧ Reports kilo 1001 (once 0) := by
  refine ⟨⟨?_, by decide⟩, ?_⟩
  · exact ((reports_iff kilo 950 (once 0) (by decide) (by decide) (by decide) (by decide)).2
      (by decide)).mpr fun h => absurd h (by decide)
  · exact ((reports_iff kilo 1001 (once 0) (by decide) (by decide) (by decide) (by decide)).2
      (by decide)).mpr fun _ h => absurd h (by decide)

end RequestStats

end HttpServer
