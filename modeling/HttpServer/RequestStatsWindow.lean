import HttpServer.RequestStats
import Mathlib.Algebra.BigOperators.Group.Finset.Piecewise
import Mathlib.Algebra.Order.BigOperators.Group.Finset
import Mathlib.Data.List.Chain

/-!
# The rolling window over runs

Requests of any number of threads, in any order. A thread stays at its
slot up to the tick at which the next one begins, that tick included:
so a request lies in the slot it is booked in or at the tick right after
it (`bookings_bounds`), and it is booked in the slot of its tick exactly
when no request comes on the first tick of the slot after the previous
one and none is misjudged (`booked_iff`). Being a tick off does not hurt
the window: as long as no request is misjudged the rate counts every
request of the last nine slots, and none from two seconds ago
(`getStats_window`).
-/

namespace HttpServer

namespace RequestStats

variable {k : Clock} {n u : ℕ} {es : List (ℕ × ℕ)} {ts : List ℕ}

/-- Calls of `finishedRequest`: the thread and the tick of each. -/
def record (k : Clock) (n : ℕ) (es : List (ℕ × ℕ)) : Option Stats :=
  es.foldlM (fun s e => finishedRequest k e.1 e.2 s) (init n)

/-- The ticks of thread `u`. -/
def ticks (u : ℕ) (es : List (ℕ × ℕ)) : List ℕ := (es.filter fun e => e.1 = u).map Prod.snd

structure NoOverflow (k : Clock) (es : List (ℕ × ℕ)) : Prop where
  count : ∀ u, (ticks u es).length < 2 ^ 32
  tick : ∀ e ∈ es, e.2 + k.kTicksPerSlot < 2 ^ 64

theorem NoOverflow.of_length (hlen : es.length < 2 ^ 32)
    (htick : ∀ e ∈ es, e.2 + k.kTicksPerSlot < 2 ^ 64) : NoOverflow k es := by
  refine ⟨fun u => ?_, htick⟩
  rw [ticks, List.length_map]
  exact (List.length_filter_le _ es).trans_lt hlen

theorem ticks_concat_self (es : List (ℕ × ℕ)) (e : ℕ × ℕ) :
    ticks e.1 (es ++ [e]) = ticks e.1 es ++ [e.2] := by
  simp [ticks]

theorem ticks_concat_of_ne {e : ℕ × ℕ} (es : List (ℕ × ℕ)) (h : e.1 ≠ u) :
    ticks u (es ++ [e]) = ticks u es := by
  simp [ticks, h]

theorem mem_ticks {t : ℕ} : t ∈ ticks u es ↔ (u, t) ∈ es := by
  simp [ticks]

theorem NoOverflow.left {es' : List (ℕ × ℕ)} (h : NoOverflow k (es ++ es')) : NoOverflow k es := by
  refine ⟨fun u => ?_, fun e he => h.tick e (List.mem_append_left es' he)⟩
  have hcount := h.count u
  rw [ticks, List.filter_append, List.map_append, List.length_append] at hcount
  exact Nat.lt_of_le_of_lt (Nat.le_add_right _ _) hcount

/-! ## Where the requests are booked -/

/-- The slot a thread is at after requests at the ticks `ts`. -/
def slotAfter (k : Clock) (ts : List ℕ) : ℕ := ts.foldl (bookSlot k) 0

/-- The slot each request is booked in, with its tick, from slot `b` on. -/
def bookings (k : Clock) : ℕ → List ℕ → List (ℕ × ℕ)
  | _, [] => []
  | b, t :: ts => (bookSlot k b t, t) :: bookings k (bookSlot k b t) ts

/-- The number of requests booked in slot `i`. -/
def booked (k : Clock) (ts : List ℕ) (i : ℤ) : ℕ :=
  (bookings k 0 ts).countP fun p => (p.1 : ℤ) = i

theorem slotAfter_concat (k : Clock) (ts : List ℕ) (t : ℕ) :
    slotAfter k (ts ++ [t]) = bookSlot k (slotAfter k ts) t := by
  simp [slotAfter]

theorem bookings_concat (k : Clock) (b : ℕ) (ts : List ℕ) (t : ℕ) :
    bookings k b (ts ++ [t])
      = bookings k b ts ++ [(bookSlot k (ts.foldl (bookSlot k) b) t, t)] := by
  induction ts generalizing b with
  | nil => rfl
  | cons t' ts ih => simp only [List.cons_append, bookings, ih, List.foldl_cons]

theorem bookings_snd (k : Clock) (b : ℕ) (ts : List ℕ) : (bookings k b ts).map Prod.snd = ts := by
  induction ts generalizing b with
  | nil => rfl
  | cons t ts ih => rw [bookings, List.map_cons, ih]

theorem booked_le (k : Clock) (ts : List ℕ) (i : ℤ) : booked k ts i ≤ ts.length := by
  have h : (bookings k 0 ts).length = ts.length := by
    rw [← List.length_map (Prod.snd), bookings_snd]
  exact h ▸ List.countP_le_length

theorem booked_concat (k : Clock) (ts : List ℕ) (t : ℕ) :
    booked k (ts ++ [t]) = book (booked k ts) (slotAfter k (ts ++ [t])) := by
  funext i
  rw [booked, bookings_concat, List.countP_append, List.countP_singleton, slotAfter_concat, book]
  by_cases hi : i = (bookSlot k (slotAfter k ts) t : ℕ)
  · subst hi
    rw [Function.update_self]
    exact congrArg _ (if_pos (decide_eq_true rfl))
  · rw [Function.update_of_ne hi, if_neg (by simpa [slotAfter] using Ne.symm hi)]
    rfl

/-- A slot a thread is at has begun by one of its ticks. -/
theorem slotAfter_begun (k : Clock) (ts : List ℕ) :
    slotAfter k ts = 0 ∨ ∃ t ∈ ts, slotAfter k ts * k.kTicksPerSlot ≤ t := by
  induction ts using List.reverseRecOn with
  | nil => exact .inl rfl
  | append_singleton ts t ih =>
      rw [slotAfter_concat]
      unfold bookSlot
      split
      · rcases ih with h0 | ⟨t', ht', hle⟩
        · exact .inl h0
        · exact .inr ⟨t', List.mem_append_left _ ht', hle⟩
      · exact .inr ⟨t, List.mem_append_right _ (List.mem_singleton_self t),
          Nat.div_mul_le_self t k.kTicksPerSlot⟩

theorem slotAfter_le (hall : ∀ t' ∈ ts, t' ≤ u) : slotAfter k ts * k.kTicksPerSlot ≤ u := by
  rcases slotAfter_begun k ts with h0 | ⟨t', ht', hle⟩
  · rw [h0, Nat.zero_mul]
    exact Nat.zero_le u
  · exact hle.trans (hall t' ht')

theorem slotAfter_lt (h : NoOverflow k es) :
    (slotAfter k (ticks u es) + 1) * k.kTicksPerSlot < 2 ^ 64 := by
  rw [Nat.succ_mul]
  rcases slotAfter_begun k (ticks u es) with h0 | ⟨t, ht, hle⟩
  · rw [h0, Nat.zero_mul, Nat.zero_add]
    exact k.slot_lt
  · have := h.tick _ (mem_ticks.mp ht)
    omega

/-! ## Misjudged requests -/

/-- No request of the thread but its first one is misjudged. -/
def Judged (k : Clock) (ts : List ℕ) : Prop :=
  (bookings k 0 ts).IsChain fun p q => ¬Misjudges k p.1 q.2

theorem judged_nil (k : Clock) : Judged k [] := List.isChain_nil

theorem judged_concat (k : Clock) (ts : List ℕ) (t : ℕ) :
    Judged k (ts ++ [t]) ↔ Judged k ts ∧ (ts ≠ [] → ¬Misjudges k (slotAfter k ts) t) := by
  unfold Judged
  rw [bookings_concat, List.isChain_append]
  refine and_congr_right fun _ => ?_
  rcases List.eq_nil_or_concat ts with rfl | ⟨ts', t', rfl⟩
  · simp [bookings]
  · rw [List.concat_eq_append, bookings_concat, slotAfter_concat]
    simp [slotAfter]

/-- In doubles that are exact none is. -/
theorem not_misjudges_of_lt {b t : ℕ} (hle : b * k.kTicksPerSlot ≤ t)
    (hlt : t + k.ticksPerSecond < 2 ^ 53) : ¬Misjudges k b t := by
  have hten := k.ten_slots
  have heleven := k.lt_eleven
  have hsecond : secondAgo k (b * k.kTicksPerSlot) t = true
      ↔ b * k.kTicksPerSlot + k.ticksPerSecond < t := by
    unfold secondAgo Clock.second Double.add
    rw [decide_eq_true_iff, Double.toDouble_of_lt (by omega : b * k.kTicksPerSlot < _),
      Double.toDouble_of_lt (by omega : k.ticksPerSecond < _),
      Double.toDouble_lt_iff (by omega)]
  rintro ⟨-, ⟨hago, hslot⟩ | ⟨hago, hslot, -⟩⟩
  · have := (slot_lt_iff k b 10).mp hslot
    have := hsecond.mp hago
    omega
  · have := (slot_lt_iff k b 11).not.mp (by omega : ¬t / k.kTicksPerSlot < _)
    have := hsecond.not.mp hago
    omega

theorem Judged.of_lt (h : ∀ t ∈ ts, t + k.ticksPerSecond < 2 ^ 53)
    (hsorted : ts.Pairwise (· ≤ ·)) : Judged k ts := by
  induction ts using List.reverseRecOn with
  | nil => exact judged_nil k
  | append_singleton ts t ih =>
      obtain ⟨hts, -, hcross⟩ := List.pairwise_append.mp hsorted
      refine (judged_concat k ts t).mpr
        ⟨ih (fun t' ht' => h t' (List.mem_append_left _ ht')) hts, fun _ => ?_⟩
      refine not_misjudges_of_lt (slotAfter_le fun t' ht' => hcross t' ht' t ?_)
        (h t (List.mem_append_right _ ?_)) <;> exact List.mem_singleton_self t

/-! ## The state after a run -/

theorem keeps_zero (k : Clock) : Keeps k 0 (booked k []) Counts.zero :=
  ⟨⟨(Nat.zero_mul _).symm, rfl⟩, fun _ _ _ => rfl, fun _ _ => rfl⟩

/-- Every thread is at its slot, and shows what has been booked for it
unless one of its requests was misjudged. -/
structure Recorded (k : Clock) (n : ℕ) (es : List (ℕ × ℕ)) (s : Stats) : Prop where
  numThreads : s.numThreads = n
  atSlot : ∀ u, AtSlot k (slotAfter k (ticks u es)) (s.counts u)
  keeps : ∀ u, Judged k (ticks u es) →
    Keeps k (slotAfter k (ticks u es)) (booked k (ticks u es)) (s.counts u)

/-- A call is served, and books one request for its thread. -/
theorem Recorded.step {s : Stats} {e : ℕ × ℕ} (h : Recorded k n es s) (he : e.1 < n)
    (hov : NoOverflow k (es ++ [e])) :
    ∃ s', finishedRequest k e.1 e.2 s = some s' ∧ Recorded k n (es ++ [e]) s' := by
  have hslot := slotAfter_concat k (ticks e.1 es) e.2
  have hmax : booked k (ticks e.1 es) (bookSlot k (slotAfter k (ticks e.1 es)) e.2) + 1
      < 2 ^ 32 := by
    have hcount := hov.count e.1
    rw [ticks_concat_self, List.length_append, List.length_singleton] at hcount
    exact Nat.lt_of_le_of_lt (Nat.succ_le_succ (booked_le k _ _)) hcount
  obtain ⟨c, hc, hat⟩ := (h.atSlot e.1).finished e.2 (slotAfter_lt hov.left)
  have hkeeps : Judged k (ticks e.1 (es ++ [e])) →
      Keeps k (slotAfter k (ticks e.1 (es ++ [e]))) (booked k (ticks e.1 (es ++ [e]))) c := by
    intro hjudged
    rw [ticks_concat_self] at hjudged ⊢
    obtain ⟨hbefore, hlast⟩ := (judged_concat k _ _).mp hjudged
    have hnot : ¬Misjudges k (slotAfter k (ticks e.1 es)) e.2
        ∨ ∀ i, booked k (ticks e.1 es) i = 0 := by
      by_cases hnil : ticks e.1 es = []
      · rw [hnil]
        exact .inr fun _ => rfl
      · exact .inl (hlast hnil)
    obtain ⟨c', hc', hkeeps⟩ := finished_spec (h.keeps e.1 hbefore) (slotAfter_lt hov.left)
      hnot hmax
    obtain rfl : c = c' := Option.some.inj (hc.symm.trans hc')
    rw [booked_concat, hslot]
    exact hkeeps
  unfold finishedRequest
  rw [if_neg (by rw [h.numThreads]; omega), hc]
  refine ⟨_, rfl, h.numThreads, fun u => ?_, fun u => ?_⟩
  · by_cases hu : u = e.1
    · subst hu
      simp only [Function.update_self]
      rw [ticks_concat_self, hslot]
      exact hat
    · simp only [Function.update_of_ne hu]
      rw [ticks_concat_of_ne es (Ne.symm hu)]
      exact h.atSlot u
  · by_cases hu : u = e.1
    · subst hu
      simp only [Function.update_self]
      exact hkeeps
    · simp only [Function.update_of_ne hu]
      rw [ticks_concat_of_ne es (Ne.symm hu)]
      exact h.keeps u

theorem record_concat {s s' : Stats} {e : ℕ × ℕ} (hs : record k n es = some s)
    (hcall : finishedRequest k e.1 e.2 s = some s') : record k n (es ++ [e]) = some s' := by
  rw [record, List.foldlM_append]
  unfold record at hs
  rw [hs]
  simpa using hcall

/-- A call that is served changes the counts of its thread. -/
theorem finished_of_finishedRequest {s s' : Stats} {t : ℕ}
    (h : finishedRequest k u t s = some s') : finished k t (s.counts u) = some (s'.counts u) := by
  unfold finishedRequest at h
  split at h
  · cases h
  · obtain ⟨c, hc, rfl⟩ := Option.map_eq_some_iff.mp h
    rw [hc]
    exact congrArg some (Function.update_self u c s.counts).symm

/-- Calls by threads of the pool are all served. -/
theorem record_spec (hth : ∀ e ∈ es, e.1 < n) (hov : NoOverflow k es) :
    ∃ s, record k n es = some s ∧ Recorded k n es s := by
  induction es using List.reverseRecOn with
  | nil => exact ⟨init n, rfl, rfl, fun _ => (keeps_zero k).toAtSlot, fun _ _ => keeps_zero k⟩
  | append_singleton es e ih =>
      obtain ⟨s, hs, hrec⟩ := ih (fun e' he' => hth e' (List.mem_append_left _ he')) hov.left
      have he : e.1 < n := hth e (List.mem_append_right _ (List.mem_singleton_self e))
      obtain ⟨s', hs', hrec'⟩ := hrec.step he hov
      exact ⟨s', record_concat hs hs', hrec'⟩

/-! ## Booked in the right slot -/

/-- The counts of a thread after requests at the ticks `ts`: the current
slot is that of the last one, and the last ten slots hold the number of
requests with a tick in them. -/
structure Booked (k : Clock) (ts : List ℕ) (c : Counts) : Prop where
  baseTick : k.kTicksPerSlot ∣ c.baseTick
  basePos : c.basePos = c.baseTick / k.kTicksPerSlot % 10
  last : c.baseTick / k.kTicksPerSlot = ts.getLastD 0 / k.kTicksPerSlot
  val : ∀ i : ℤ, ((c.baseTick / k.kTicksPerSlot : ℕ) : ℤ) - 9 ≤ i →
    i ≤ (c.baseTick / k.kTicksPerSlot : ℕ) →
    c.val (i % 10).toNat = ts.countP fun t => ((t / k.kTicksPerSlot : ℕ) : ℤ) = i

/-- No request comes on the first tick of the slot after the one of the
request before it, or of tick 0. -/
def OffBoundary (k : Clock) (ts : List ℕ) : Prop :=
  (0 :: ts).IsChain fun t t' => t' ≠ k.kTicksPerSlot * (t / k.kTicksPerSlot + 1)

theorem offBoundary_concat (k : Clock) (ts : List ℕ) (t : ℕ) :
    OffBoundary k (ts ++ [t]) ↔
      OffBoundary k ts ∧ t ≠ k.kTicksPerSlot * (ts.getLastD 0 / k.kTicksPerSlot + 1) := by
  have hlast : (0 :: ts).getLast? = some (ts.getLastD 0) := by
    rw [List.getLast?_cons, List.getLastD_eq_getLast?]
  unfold OffBoundary
  rw [← List.cons_append, List.isChain_append, hlast]
  simp

theorem bookSlot_off {prev t : ℕ} (hle : prev ≤ t)
    (hne : t ≠ k.kTicksPerSlot * (prev / k.kTicksPerSlot + 1)) :
    bookSlot k (prev / k.kTicksPerSlot) t = t / k.kTicksPerSlot := by
  unfold bookSlot
  split
  · next h =>
      rw [Nat.mul_comm] at hne
      have hlt : t / k.kTicksPerSlot < prev / k.kTicksPerSlot + 1 :=
        (Nat.div_lt_iff_lt_mul k.pos).mpr (lt_of_le_of_ne h hne)
      exact Nat.le_antisymm (Nat.div_le_div_right hle) (Nat.lt_succ_iff.mp hlt)
  · rfl

theorem bookSlot_boundary (k : Clock) (b : ℕ) : bookSlot k b (k.kTicksPerSlot * (b + 1)) = b :=
  if_pos (Nat.mul_comm _ _).le

/-- Away from the boundaries the slot of a booking is that of its tick. -/
theorem OffBoundary.exact (h : OffBoundary k ts) (hsorted : ts.Pairwise (· ≤ ·)) :
    slotAfter k ts = ts.getLastD 0 / k.kTicksPerSlot ∧
      ∀ i : ℤ, booked k ts i = ts.countP fun t => ((t / k.kTicksPerSlot : ℕ) : ℤ) = i := by
  induction ts using List.reverseRecOn with
  | nil => exact ⟨(Nat.zero_div _).symm, fun _ => rfl⟩
  | append_singleton ts t ih =>
      obtain ⟨hoff, hne⟩ := (offBoundary_concat k ts t).mp h
      obtain ⟨hts, -, hcross⟩ := List.pairwise_append.mp hsorted
      obtain ⟨hslot, hcount⟩ := ih hoff hts
      have hle : ts.getLastD 0 ≤ t := by
        rw [List.getLastD_eq_getLast?]
        cases hlast : ts.getLast? with
        | none => exact Nat.zero_le t
        | some t' => exact hcross t' (List.mem_of_getLast? hlast) t (List.mem_singleton_self t)
      have hnew : slotAfter k (ts ++ [t]) = t / k.kTicksPerSlot := by
        rw [slotAfter_concat, hslot, bookSlot_off hle hne]
      refine ⟨by rw [hnew, List.getLastD_concat], fun i => ?_⟩
      rw [booked_concat, hnew, book, List.countP_append, List.countP_singleton]
      by_cases hi : i = (t / k.kTicksPerSlot : ℕ)
      · subst hi
        rw [Function.update_self, hcount]
        exact congrArg _ (if_pos (decide_eq_true rfl)).symm
      · rw [Function.update_of_ne hi, hcount, if_neg (by simpa using Ne.symm hi)]
        rfl

theorem Keeps.booked {c : Counts} (h : Keeps k (slotAfter k ts) (RequestStats.booked k ts) c)
    (hoff : OffBoundary k ts) (hsorted : ts.Pairwise (· ≤ ·)) : Booked k ts c := by
  obtain ⟨hslot, hcount⟩ := hoff.exact hsorted
  refine ⟨?_, ?_, ?_, fun i hlo hhi => ?_⟩
  · exact h.baseTick ▸ Nat.dvd_mul_left _ _
  · rw [h.div]
    exact h.basePos
  · rw [h.div, hslot]
  · rw [h.div] at hlo hhi
    rw [← hcount i]
    exact h.shows i (by simp [kNumSlots]; omega) hhi

/-- The slot a thread is at has a request in it. -/
theorem booked_last_pos (h : ts ≠ []) : 0 < booked k ts (slotAfter k ts) := by
  obtain ⟨ts', t', rfl⟩ := (List.eq_nil_or_concat ts).resolve_left h
  rw [List.concat_eq_append, booked_concat, book, Function.update_self]
  exact Nat.succ_pos _

/-- After a misjudged request the counts are wrong. -/
theorem Keeps.not_booked {c c' : Counts} {t : ℕ}
    (h : Keeps k (slotAfter k ts) (RequestStats.booked k ts) c) (hoff : OffBoundary k (ts ++ [t]))
    (hsorted : (ts ++ [t]).Pairwise (· ≤ ·)) (hnil : ts ≠ [])
    (hjudge : Misjudges k (slotAfter k ts) t)
    (htick : (slotAfter k ts + 1) * k.kTicksPerSlot < 2 ^ 64)
    (hc' : finished k t c = some c') : ¬Booked k (ts ++ [t]) c' := by
  intro hbooked
  obtain ⟨-, hcount⟩ := ((offBoundary_concat k ts t).mp hoff).1.exact
    (List.pairwise_append.mp hsorted).1
  have hsum : ∀ i : ℤ, ((ts ++ [t]).countP fun t => ((t / k.kTicksPerSlot : ℕ) : ℤ) = i)
      = RequestStats.booked k ts i + if ((t / k.kTicksPerSlot : ℕ) : ℤ) = i then 1 else 0 := by
    intro i
    rw [List.countP_append, List.countP_singleton, ← hcount i]
    simp only [decide_eq_true_eq]
  have hlast := hbooked.last
  rw [List.getLastD_concat] at hlast
  have hpos := booked_last_pos (k := k) hnil
  have hmoves := (Nat.le_div_iff_mul_le k.pos).mpr hjudge.1.le
  have hval := hbooked.val
  rw [hlast] at hval
  rcases h.misjudged hjudge htick hc' with ⟨hlo, hzero⟩ | ⟨i, hi, hlo, hhi, hkept⟩
  · have hcleared := hval (slotAfter k ts) (by omega) (by omega)
    rw [hsum] at hcleared
    exact absurd (hzero.symm.trans hcleared) (by omega)
  · have hstale := hval i (by omega) (by omega)
    rw [hsum, h.none_after i hi, if_neg (by omega)] at hstale
    exact absurd (hkept.symm.trans hstale) (by omega)

/-- A thread books every request in the right slot, in a run and all its
beginnings, exactly when none comes on a boundary and none is misjudged. -/
theorem booked_iff (k : Clock) (n u : ℕ) (es : List (ℕ × ℕ)) (hu : u < n)
    (hth : ∀ e ∈ es, e.1 < n) (hov : NoOverflow k es) (hsorted : (ticks u es).Pairwise (· ≤ ·)) :
    (∀ es', es' <+: es → ∃ s, record k n es' = some s ∧ Booked k (ticks u es') (s.counts u)) ↔
      OffBoundary k (ticks u es) ∧ Judged k (ticks u es) := by
  induction es using List.reverseRecOn with
  | nil =>
      refine iff_of_true (fun es' hes' => ?_) ⟨List.isChain_singleton 0, judged_nil k⟩
      rw [List.prefix_nil.mp hes']
      exact ⟨init n, rfl, (keeps_zero k).booked (List.isChain_singleton 0) .nil⟩
  | append_singleton es e ih =>
      have hth' : ∀ e' ∈ es, e'.1 < n := fun e' he' => hth e' (List.mem_append_left _ he')
      have he : e.1 < n := hth e (List.mem_append_right _ (List.mem_singleton_self e))
      obtain ⟨s₀, hs₀, hrec₀⟩ := record_spec hth' hov.left
      obtain ⟨s, hcall, hrec⟩ := hrec₀.step he hov
      have hs : record k n (es ++ [e]) = some s := record_concat hs₀ hcall
      have hsorted' : (ticks u es).Pairwise (· ≤ ·) := by
        refine List.Pairwise.sublist ?_ hsorted
        exact ((List.sublist_append_left es [e]).filter _).map _
      have ih := ih hth' hov.left hsorted'
      constructor
      · intro hall
        obtain ⟨hoff, hjudged⟩ := ih.mp fun es' hes' =>
          hall es' (hes'.trans (List.prefix_append es [e]))
        by_cases he : e.1 = u
        · subst he
          have hat := hrec.atSlot e.1
          obtain ⟨s', hs', hbooked⟩ := hall _ (List.prefix_refl _)
          obtain rfl : s = s' := Option.some.inj (hs.symm.trans hs')
          rw [ticks_concat_self] at hsorted hbooked hat ⊢
          have hoff' : OffBoundary k (ticks e.1 es ++ [e.2]) := by
            refine (offBoundary_concat k _ _).mpr ⟨hoff, fun hboundary => ?_⟩
            -- the thread has stayed at the slot before that of the request
            have hlast := hbooked.last
            rw [List.getLastD_concat, hat.div, slotAfter_concat,
              (hoff.exact hsorted').1, hboundary, bookSlot_boundary,
              Nat.mul_div_cancel_left _ k.pos] at hlast
            omega
          refine ⟨hoff', (judged_concat k _ _).mpr ⟨hjudged, fun hnil hmis => ?_⟩⟩
          exact (hrec₀.keeps e.1 hjudged).not_booked hoff' hsorted hnil hmis
            (slotAfter_lt hov.left) (finished_of_finishedRequest hcall) hbooked
        · rw [ticks_concat_of_ne es he]
          exact ⟨hoff, hjudged⟩
      · rintro ⟨hoff, hjudged⟩ es' hes'
        rcases List.prefix_concat_iff.mp hes' with rfl | hes'
        · exact ⟨s, hs, (hrec.keeps u hjudged).booked hoff hsorted⟩
        refine ih.mpr ?_ es' hes'
        by_cases he : e.1 = u
        · subst he
          rw [ticks_concat_self] at hoff hjudged
          exact ⟨((offBoundary_concat k _ _).mp hoff).1, ((judged_concat k _ _).mp hjudged).1⟩
        · rw [ticks_concat_of_ne es he] at hoff hjudged
          exact ⟨hoff, hjudged⟩

/-- A request on the first tick of slot 1 is booked in slot 0. -/
theorem not_booked_boundary :
    NoOverflow kilo [(0, 100)] ∧ (ticks 0 [(0, 100)]).Pairwise (· ≤ ·) ∧
      ∃ s, record kilo 1 [(0, 100)] = some s ∧ ¬ Booked kilo (ticks 0 [(0, 100)]) (s.counts 0) := by
  refine ⟨NoOverflow.of_length (by decide) (by decide), by decide, _, rfl, fun h => ?_⟩
  exact absurd h.last (by decide)

theorem booked_off_boundary :
    ∃ s, record kilo 1 [(0, 99), (0, 101)] = some s
      ∧ Booked kilo (ticks 0 [(0, 99), (0, 101)]) (s.counts 0) :=
  (booked_iff kilo 1 0 [(0, 99), (0, 101)] (by decide) (by decide)
    (NoOverflow.of_length (by decide) (by decide)) (by decide)).mpr
      ⟨by unfold OffBoundary; decide, .of_lt (by decide) (by decide)⟩ _ List.prefix_rfl

/-! ## The rate -/

/-- A request lies in the slot it is booked in, or at the first tick of
the next one, and its slot is one the thread has been at. -/
theorem bookings_bounds (k : Clock) (hsorted : ts.Pairwise (· ≤ ·)) :
    ∀ p ∈ bookings k 0 ts, p.1 ≤ slotAfter k ts ∧
      p.1 * k.kTicksPerSlot ≤ p.2 ∧ p.2 ≤ (p.1 + 1) * k.kTicksPerSlot := by
  induction ts using List.reverseRecOn with
  | nil => exact fun p hp => absurd hp List.not_mem_nil
  | append_singleton ts t ih =>
      obtain ⟨hts, -, hcross⟩ := List.pairwise_append.mp hsorted
      have hbegun : slotAfter k ts * k.kTicksPerSlot ≤ t :=
        slotAfter_le fun t' ht' => hcross t' ht' t (List.mem_singleton_self t)
      intro p hp
      rw [slotAfter_concat]
      rw [bookings_concat, List.mem_append, List.mem_singleton] at hp
      rcases hp with hp | rfl
      · obtain ⟨hle, hbounds⟩ := ih hts p hp
        exact ⟨hle.trans (le_bookSlot k _ t), hbounds⟩
      · refine ⟨le_rfl, ?_⟩
        change bookSlot k (slotAfter k ts) t * _ ≤ t ∧ t ≤ (bookSlot k (slotAfter k ts) t + 1) * _
        unfold bookSlot
        split
        · next h => exact ⟨hbegun, h⟩
        · refine ⟨Nat.div_mul_le_self t _, ?_⟩
          rw [Nat.mul_comm]
          exact (Nat.lt_mul_div_succ t k.pos).le

/-- The bookings of the slots after `x` up to `y`. -/
theorem sum_booked (k : Clock) (ts : List ℕ) (x y : ℤ) :
    ∑ i ∈ Finset.Ioc x y, booked k ts i
      = (bookings k 0 ts).countP fun p => x < (p.1 : ℤ) ∧ (p.1 : ℤ) ≤ y := by
  unfold booked
  induction bookings k 0 ts with
  | nil => simp
  | cons p l ih =>
      simp only [List.countP_cons, Finset.sum_add_distrib, ih, decide_eq_true_eq,
        Finset.sum_ite_eq, Finset.mem_Ioc]

/-- The requests of a thread that `P` holds of, found among its bookings. -/
theorem countP_bookings (k : Clock) (ts : List ℕ) (P : ℕ → Bool) :
    ts.countP P = (bookings k 0 ts).countP fun p => P p.2 := by
  conv_lhs => rw [← bookings_snd k 0 ts, List.countP_map]
  rfl

/-- Within a second the slots after some `x` are read: no slot among them
ends twenty slots before `now`, and all that begin less than ten before. -/
theorem threadStats_read {c : Counts} {b now : ℕ} (h : AtSlot k b c) (hle : c.baseTick ≤ now)
    (hnow : now < 2 ^ 64) (hsecond : Double.toDouble (now - b * k.kTicksPerSlot) ≤ k.second) :
    ∃ x : ℤ, (b : ℤ) - 10 ≤ x ∧
      (∀ acc, threadStats k now c acc
        = some (uint32 (acc + ∑ i ∈ Finset.Ioc x (b : ℤ), c.val (Ring.pos kNumSlots i)))) ∧
      (∀ i : ℕ, x < i → now < i * k.kTicksPerSlot + 20 * k.kTicksPerSlot) ∧
      ∀ i : ℕ, now < i * k.kTicksPerSlot + 10 * k.kTicksPerSlot → x < i := by
  have hb := h.le_slot hle
  have hpos := k.pos
  rcases Nat.lt_or_ge (now - b * k.kTicksPerSlot) (10 * k.kTicksPerSlot) with hfresh | hfrom
  · refine ⟨_, by omega, threadStats_fresh h hle hnow hfresh, fun i hi => ?_, fun i hi => ?_⟩
    · exact (slot_lt_iff k i 20).mp (by omega)
    · have := (slot_lt_iff k i 10).mpr hi
      omega
  · have hslot := (slot_lt_iff k b 10).not.mpr (by omega : ¬now < _)
    refine ⟨_, by omega, threadStats_circle h hle hnow hfrom hsecond, fun i hi => ?_,
      fun i hi => ?_⟩
    · exact (slot_lt_iff k i 20).mp (by omega)
    · have := (slot_lt_iff k i 10).mpr hi
      omega

/-- What a thread adds to the rate: at least its requests of the last nine
slots, at most those of the last two seconds. -/
theorem threadStats_window {c : Counts} {now : ℕ} (h : Keeps k (slotAfter k ts) (booked k ts) c)
    (hsorted : ts.Pairwise (· ≤ ·)) (hnow : now < 2 ^ 64) (hpast : ∀ t ∈ ts, t ≤ now) :
    ∃ a, (∀ acc, acc < 2 ^ 32 → threadStats k now c acc = some (uint32 (acc + a))) ∧
      (ts.countP fun t => now - t < 9 * k.kTicksPerSlot) ≤ a ∧
      a ≤ ts.countP fun t => now - t < 2 * k.ticksPerSecond := by
  have hten := k.ten_slots
  have hpos := k.pos
  have hbounds := bookings_bounds k hsorted
  have hle : c.baseTick ≤ now := h.baseTick ▸ slotAfter_le hpast
  -- a request less than nine slots old is in a slot begun less than ten slots ago
  have hrecent : ∀ p ∈ bookings k 0 ts, now - p.2 < 9 * k.kTicksPerSlot →
      now < p.1 * k.kTicksPerSlot + 10 * k.kTicksPerSlot := by
    intro p hp hlt
    have hend := (hbounds p hp).2.2
    rw [Nat.succ_mul] at hend
    omega
  simp only [countP_bookings k ts]
  rcases Nat.lt_or_ge k.second (Double.toDouble (now - slotAfter k ts * k.kTicksPerSlot)) with
    hstale | hsecond
  · refine ⟨0, fun acc hacc => ?_, ?_, Nat.zero_le _⟩
    · rw [threadStats_stale h.toAtSlot hle hnow hstale, uint32_add_zero hacc]
    · rw [Nat.le_zero, List.countP_eq_zero]
      intro p hp hlt
      have hslot := hrecent p hp (of_decide_eq_true hlt)
      have := Nat.mul_le_mul_right k.kTicksPerSlot (hbounds p hp).1
      have := second_lt hstale
      omega
  obtain ⟨x, hx, hread, hearly, hrest⟩ := threadStats_read h.toAtSlot hle hnow hsecond
  refine ⟨_, fun acc _ => hread acc, ?_⟩
  have hsum : ∑ i ∈ Finset.Ioc x (slotAfter k ts : ℤ), c.val (Ring.pos kNumSlots i)
      = (bookings k 0 ts).countP fun p => x < (p.1 : ℤ) ∧ (p.1 : ℤ) ≤ slotAfter k ts := by
    rw [← sum_booked]
    refine Finset.sum_congr rfl fun i hi => ?_
    rw [Finset.mem_Ioc] at hi
    exact h.shows i (by simp [kNumSlots]; omega) hi.2
  rw [hsum]
  constructor
  · refine List.countP_mono_left fun p hp hlt => decide_eq_true ?_
    have hslot := hrecent p hp (of_decide_eq_true hlt)
    have hpb := (hbounds p hp).1
    exact ⟨hrest p.1 hslot, by omega⟩
  · refine List.countP_mono_left fun p hp hlt => decide_eq_true ?_
    have hend := hearly p.1 (of_decide_eq_true hlt).1
    have hbegin := (hbounds p hp).2.1
    omega

/-! ## All threads -/

/-- The requests that `P` holds of, thread by thread. -/
theorem sum_ticks (P : ℕ → Bool) (hth : ∀ e ∈ es, e.1 < n) :
    ∑ u ∈ Finset.range n, (ticks u es).countP P = es.countP fun e => P e.2 := by
  induction es with
  | nil => simp [ticks]
  | cons e es ih =>
      have ih := ih fun e' he' => hth e' (List.mem_cons_of_mem e he')
      have hcons : ∀ u, (ticks u (e :: es)).countP P
          = (ticks u es).countP P + if e.1 = u then (if P e.2 then 1 else 0) else 0 := by
        intro u
        by_cases hu : e.1 = u <;> simp [ticks, hu, List.countP_cons]
      simp only [hcons, Finset.sum_add_distrib, ih, Finset.sum_ite_eq,
        Finset.mem_range.mpr (hth e List.mem_cons_self), if_true, List.countP_cons]

theorem foldlM_range_succ {f : ℕ → ℕ → Option ℕ} {m v w : ℕ}
    (h : (List.range m).foldlM f 0 = some v) (hm : f v m = some w) :
    (List.range (m + 1)).foldlM f 0 = some w := by
  rw [List.range_succ, List.foldlM_append, h]
  simp only [Option.bind_eq_bind, Option.bind_some, List.foldlM_cons, List.foldlM_nil, hm,
    Option.pure_def]

/-- The loop over the threads adds up what each contributes. -/
theorem foldlM_threads {s : Stats} {now : ℕ} (a : ℕ → ℕ) (m : ℕ)
    (h : ∀ u, u < m → ∀ acc, acc < 2 ^ 32 →
      threadStats k now (s.counts u) acc = some (uint32 (acc + a u))) :
    (List.range m).foldlM (fun acc u => threadStats k now (s.counts u) acc) 0
      = some (uint32 (∑ u ∈ Finset.range m, a u)) := by
  induction m with
  | zero => simp [uint32]
  | succ m ih =>
      refine foldlM_range_succ (ih fun u hu => h u (by omega)) ?_
      rw [Finset.sum_range_succ, h m (Nat.lt_succ_self m) _ (uint32_lt _), uint32_add]

/-- As long as no request is misjudged the rate is a sound rolling
window. -/
theorem getStats_window (k : Clock) (n now : ℕ) (es : List (ℕ × ℕ)) (hth : ∀ e ∈ es, e.1 < n)
    (hov : NoOverflow k es) (htotal : es.length < 2 ^ 32) (hnow : now < 2 ^ 64)
    (hsorted : ∀ u, (ticks u es).Pairwise (· ≤ ·)) (hpast : ∀ e ∈ es, e.2 ≤ now)
    (hjudged : ∀ u, Judged k (ticks u es)) :
    ∃ s r, record k n es = some s ∧ getStats k now s = some r ∧
      (es.countP fun e => now - e.2 < 9 * k.kTicksPerSlot) ≤ r ∧
      r ≤ es.countP fun e => now - e.2 < 2 * k.ticksPerSecond := by
  obtain ⟨s, hs, hrec⟩ := record_spec hth hov
  have hthread := fun u => threadStats_window (hrec.keeps u (hjudged u)) (hsorted u) hnow
    fun t ht => hpast _ (mem_ticks.mp ht)
  choose a hadd hlower hupper using hthread
  have hlo := Finset.sum_le_sum fun u (_ : u ∈ Finset.range n) => hlower u
  have hhi := Finset.sum_le_sum fun u (_ : u ∈ Finset.range n) => hupper u
  rw [sum_ticks _ hth] at hlo hhi
  have hbound : ∑ u ∈ Finset.range n, a u < 2 ^ 32 :=
    hhi.trans_lt (List.countP_le_length.trans_lt htotal)
  refine ⟨s, ∑ u ∈ Finset.range n, a u, hs, ?_, hlo, hhi⟩
  rw [getStats, hrec.numThreads, foldlM_threads a n fun u _ => hadd u, uint32,
    Nat.mod_eq_of_lt hbound]

theorem getStats_two_threads :
    ∃ s r, record kilo 2 [(0, 99), (1, 100), (0, 730)] = some s ∧ getStats kilo 1050 s = some r ∧
      1 ≤ r ∧ r ≤ 3 := by
  have hsorted : ∀ u, (ticks u [(0, 99), (1, 100), (0, 730)]).Pairwise (· ≤ ·) := fun u =>
    List.Pairwise.sublist (List.filter_sublist.map Prod.snd)
      (show [99, 100, 730].Pairwise (· ≤ ·) by decide)
  refine getStats_window kilo 2 1050 [(0, 99), (1, 100), (0, 730)] (by decide)
    (NoOverflow.of_length (by decide) (by decide)) (by decide) (by decide) hsorted (by decide)
    fun u => .of_lt (fun t ht => ?_) (hsorted u)
  have hall : ∀ e ∈ [(0, 99), (1, 100), (0, 730)], e.2 + kilo.ticksPerSecond < 2 ^ 53 := by decide
  exact hall _ (mem_ticks.mp ht)

/-- A clock of three billion ticks a second, and a tick two months on. -/
def giga : Clock where
  kTicksPerSlot := 300000001
  ticksPerSecond := 3000000010
  slot_pos := by decide
  slot_lt := by decide
  ten_slots := by decide
  lt_eleven := by decide

def late : List (ℕ × ℕ) :=
  [(0, 18014400660048003), (0, 18014400960048003), (0, 18014403660048011)]

/-- Nine slots and a tick after the request before it a request counts as
more than a second later, and the others are gone from the rate. -/
theorem not_window_late :
    (∀ e ∈ late, e.1 < 1 ∧ e.2 ≤ 18014403660048011) ∧ NoOverflow giga late ∧
      (∀ u, (ticks u late).Pairwise (· ≤ ·)) ∧
      (∃ s, record giga 1 late = some s ∧ getStats giga 18014403660048011 s = some 1) ∧
      1 < late.countP fun e => 18014403660048011 - e.2 < 9 * giga.kTicksPerSlot := by
  refine ⟨by decide, .of_length (by decide) (by decide), fun u => ?_, ⟨_, rfl, ?_⟩, by decide⟩
  · exact List.Pairwise.sublist (List.filter_sublist.map Prod.snd)
      (show [18014400660048003, 18014400960048003, 18014403660048011].Pairwise (· ≤ ·) by decide)
  · decide +kernel

end RequestStats

end HttpServer
