import Mathlib.Data.List.Nodup
import Mathlib.Data.Set.Insert
import HttpServer.Lib.Calls
import HttpServer.Lib.Lts

/-!
# Linearizable objects

Threads make calls on an object and get answers; the history of a run lists
the calls and the returns as they come. A linearization of it is one order of
its calls, of all those that have returned and perhaps of some that have not,
in which a sequential specification gives each the answer that it got, and in
which no call comes before one that returned before it was made
(`Linearization`).

`Atomic` is the object whose calls take effect at one instant between call
and return: at the present one (`point`), or, where the call leaves the
specification's state as it is, at an earlier instant since it was made
(`hindsight`). Its histories have linearizations (`Steps.linearization`), and
so have those of every system that it simulates (`Shown.linearization`).
-/

namespace Histories

open Calls

inductive Event (κ ι ο : Type*) where
  | call (t : κ) (c : ι)
  | ret (t : κ) (a : ο)
deriving DecidableEq, Repr

variable {κ ι ο τ : Type*}

def Event.thread : Event κ ι ο → κ
  | .call t _ => t
  | .ret t _ => t

/-- The call `c` at position `i` is the last event of its thread. -/
structure Open (H : List (Event κ ι ο)) (t : κ) (i : ℕ) (c : ι) : Prop where
  call : H[i]? = some (.call t c)
  last : ∀ k e, i < k → H[k]? = some e → e.thread ≠ t

/-- The call at `i` has returned `a` at `j`. -/
def Returns (H : List (Event κ ι ο)) (i j : ℕ) (a : ο) : Prop :=
  ∃ t c, Open (H.take j) t i c ∧ H[j]? = some (.ret t a)

/-- A call with its place in the history. -/
structure Entry (ι ο : Type*) where
  pos : ℕ
  call : ι
  answer : ο

structure Linearization (spec : τ → ι → τ × ο) (x₀ : τ) (H : List (Event κ ι ο))
    (order : List (Entry ι ο)) : Prop where
  made : ∀ e ∈ order, ∃ t, H[e.pos]? = some (.call t e.call)
  nodup : (order.map Entry.pos).Nodup
  complete : ∀ i j a, Returns H i j a → ∃ e ∈ order, e.pos = i ∧ e.answer = a
  /-- A call that comes later in the order has not returned before one that
  comes earlier was made. -/
  realTime : order.Pairwise fun e e' => ∀ j a, Returns H e'.pos j a → e.pos < j
  legal : answers spec x₀ (order.map Entry.call) = order.map Entry.answer

/-! ## Histories -/

section

variable {H : List (Event κ ι ο)} {t u : κ} {i j : ℕ} {c d : ι} {a : ο} {ev : Event κ ι ο}

theorem Open.lt (h : Open H t i c) : i < H.length := (List.getElem?_eq_some_iff.mp h.call).1

theorem Open.concat (h : Open H t i c) (hev : ev.thread ≠ t) : Open (H ++ [ev]) t i c := by
  refine ⟨(List.getElem?_append_left h.lt).trans h.call, fun k e hk he => ?_⟩
  rw [List.getElem?_append] at he
  split at he
  · exact h.last k e hk he
  · obtain rfl := List.mem_singleton.mp (List.mem_of_getElem? he)
    exact hev

theorem Open.new (H : List (Event κ ι ο)) (t : κ) (c : ι) :
    Open (H ++ [.call t c]) t H.length c := by
  refine ⟨by simp, fun k e hk he => ?_⟩
  rw [List.getElem?_eq_none (by simpa using Nat.succ_le_of_lt hk)] at he
  cases he

/-- A thread has one open call at most. -/
theorem Open.unique (h : Open H t i c) (h' : Open H t j d) : i = j := by
  rcases Nat.lt_trichotomy i j with hlt | heq | hgt
  · exact absurd rfl (h.last j _ hlt h'.call)
  · exact heq
  · exact absurd rfl (h'.last i _ hgt h.call)

theorem Returns.bounds (h : Returns H i j a) : i < j ∧ j < H.length := by
  obtain ⟨t, c, hopen, hret⟩ := h
  have hi := hopen.lt
  rw [List.length_take] at hi
  exact ⟨Nat.lt_of_lt_of_le hi (Nat.min_le_left ..), (List.getElem?_eq_some_iff.mp hret).1⟩

/-- An open call has not returned. -/
theorem Open.not_returns (h : Open H t i c) : ¬Returns H i j a := by
  intro hret
  have hij := hret.bounds.1
  obtain ⟨u, d, hopen, he⟩ := hret
  have hcall := hopen.call
  rw [List.getElem?_take, if_pos hij, h.call] at hcall
  obtain ⟨rfl, -⟩ := Event.call.inj (Option.some.inj hcall)
  exact h.last j _ hij he rfl

/-- What is new about the returns of a history with one more event. -/
theorem Returns.of_concat (h : Returns (H ++ [ev]) i j a) :
    Returns H i j a ∨ j = H.length ∧ ∃ t c, Open H t i c ∧ ev = .ret t a := by
  have hj : j ≤ H.length := by
    have hlt := h.bounds.2
    rw [List.length_append, List.length_singleton] at hlt
    omega
  obtain ⟨t, c, hopen, hret⟩ := h
  rw [List.take_append_of_le_length hj] at hopen
  rcases Nat.lt_or_eq_of_le hj with hlt | rfl
  · exact .inl ⟨t, c, hopen, by rwa [List.getElem?_append_left hlt] at hret⟩
  · refine .inr ⟨rfl, t, c, by rwa [List.take_length] at hopen, ?_⟩
    simpa using hret

end

/-! ## The atomic object -/

inductive Stage (ι ο : Type*) where
  | idle
  | called (c : ι)
  | done (a : ο)

structure Atomic (κ ι ο τ : Type*) where
  state : τ
  stage : κ → Stage ι ο
  /-- The states since the thread's call. -/
  seen : κ → Set τ

namespace Atomic

def start (x₀ : τ) : Atomic κ ι ο τ := ⟨x₀, fun _ => .idle, fun _ => ∅⟩

variable [DecidableEq κ]

def setStage (y : Atomic κ ι ο τ) (t : κ) (st : Stage ι ο) : Atomic κ ι ο τ :=
  { y with stage := Function.update y.stage t st }

/-- The object changes to `x`, in the sight of all threads. -/
def setState (y : Atomic κ ι ο τ) (x : τ) : Atomic κ ι ο τ :=
  { y with state := x, seen := fun t => insert x (y.seen t) }

/-- `t` makes the call `c`. -/
def call (y : Atomic κ ι ο τ) (t : κ) (c : ι) : Atomic κ ι ο τ :=
  { y.setStage t (.called c) with seen := Function.update y.seen t {y.state} }

end Atomic

section

variable [DecidableEq κ]

/-- The runs of the atomic object, with the history that they show. -/
inductive Steps (spec : τ → ι → τ × ο) :
    Atomic κ ι ο τ → List (Event κ ι ο) → Atomic κ ι ο τ → Prop
  | refl (y) : Steps spec y [] y
  | call {x H y} (h : Steps spec x H y) (t : κ) (c : ι) (ht : y.stage t = .idle) :
      Steps spec x (H ++ [.call t c]) (y.call t c)
  | point {x H y} (h : Steps spec x H y) (t : κ) {c : ι} (ht : y.stage t = .called c) :
      Steps spec x H ((y.setState (spec y.state c).1).setStage t (.done (spec y.state c).2))
  | hindsight {x H y} (h : Steps spec x H y) (t : κ) {c : ι} (ht : y.stage t = .called c) {z : τ}
      (hz : z ∈ y.seen t) (hsame : (spec z c).1 = z) :
      Steps spec x H (y.setStage t (.done (spec z c).2))
  | ret {x H y} (h : Steps spec x H y) (t : κ) {a : ο} (ht : y.stage t = .done a) :
      Steps spec x (H ++ [.ret t a]) (y.setStage t .idle)

variable {spec : τ → ι → τ × ο} {x₀ : τ} {x y z : Atomic κ ι ο τ} {H H' : List (Event κ ι ο)}

theorem Steps.trans (h : Steps spec x H y) (h' : Steps spec y H' z) : Steps spec x (H ++ H') z := by
  induction h' with
  | refl => rwa [List.append_nil]
  | call _ t c ht ih =>
      rw [← List.append_assoc]
      exact ih.call t c ht
  | point _ t ht ih => exact ih.point t ht
  | hindsight _ t ht hz hsame ih => exact ih.hindsight t ht hz hsame
  | ret _ t ht ih =>
      rw [← List.append_assoc]
      exact ih.ret t ht

end

/-! ## The order of the calls -/

/-- The order of the calls can be cut where the state is `z`, and behind the
cut are none that have returned before position `i`. -/
def Cut (spec : τ → ι → τ × ο) (x₀ : τ) (H : List (Event κ ι ο)) (order : List (Entry ι ο))
    (i : ℕ) (z : τ) : Prop :=
  ∃ pre suf, order = pre ++ suf ∧ after spec x₀ (pre.map Entry.call) = z
    ∧ ∀ e ∈ suf, ∀ j a, Returns H e.pos j a → i < j

/-- The order agrees with the object. -/
structure Ordered (spec : τ → ι → τ × ο) (x₀ : τ) (H : List (Event κ ι ο))
    (order : List (Entry ι ο)) (y : Atomic κ ι ο τ) : Prop where
  lin : Linearization spec x₀ H order
  state : after spec x₀ (order.map Entry.call) = y.state
  called : ∀ t c, y.stage t = .called c → ∃ i, Open H t i c ∧ (∀ e ∈ order, e.pos ≠ i)
    ∧ ∀ z ∈ y.seen t, Cut spec x₀ H order i z
  done : ∀ t a, y.stage t = .done a → ∃ i c, Open H t i c ∧ ∃ e ∈ order, e.pos = i ∧ e.answer = a

section

variable {spec : τ → ι → τ × ο} {x₀ z w : τ} {H : List (Event κ ι ο)} {ev : Event κ ι ο}
  {order pre suf : List (Entry ι ο)} {t : κ} {i k : ℕ} {c : ι}

theorem Linearization.pos_lt (h : Linearization spec x₀ H order) {e : Entry ι ο} (he : e ∈ order) :
    e.pos < H.length := by
  obtain ⟨t, ht⟩ := h.made e he
  exact (List.getElem?_eq_some_iff.mp ht).1

/-- One event more, which is the return of a call in the order if it is a
return. -/
theorem Linearization.concat (h : Linearization spec x₀ H order)
    (hev : ∀ t c i a, Open H t i c → ev = .ret t a → ∃ e ∈ order, e.pos = i ∧ e.answer = a) :
    Linearization spec x₀ (H ++ [ev]) order := by
  refine ⟨fun e he => ?_, h.nodup, fun i j a hret => ?_, ?_, h.legal⟩
  · obtain ⟨t, ht⟩ := h.made e he
    exact ⟨t, by rwa [List.getElem?_append_left (h.pos_lt he)]⟩
  · rcases hret.of_concat with hret | ⟨-, t, c, hopen, heq⟩
    · exact h.complete i j a hret
    · exact hev t c i a hopen heq
  · refine h.realTime.imp_of_mem fun he _ hlt j a hret => ?_
    rcases hret.of_concat with hret | ⟨rfl, -⟩
    · exact hlt j a hret
    · exact h.pos_lt he

/-- An open call enters the order, at a cut. -/
theorem Linearization.insert (h : Linearization spec x₀ H (pre ++ suf)) (hopen : Open H t i c)
    (hnew : ∀ e ∈ pre ++ suf, e.pos ≠ i) (hz : after spec x₀ (pre.map Entry.call) = z)
    (hlater : ∀ e ∈ suf, ∀ j a, Returns H e.pos j a → i < j)
    (hsuf : answers spec (spec z c).1 (suf.map Entry.call)
      = answers spec z (suf.map Entry.call)) :
    Linearization spec x₀ H (pre ++ ⟨i, c, (spec z c).2⟩ :: suf) := by
  have hperm : (pre ++ (⟨i, c, (spec z c).2⟩ : Entry ι ο) :: suf).Perm
      (⟨i, c, (spec z c).2⟩ :: (pre ++ suf)) := List.perm_middle
  obtain ⟨hpre, hrest, hcross⟩ := List.pairwise_append.mp h.realTime
  refine ⟨fun e he => ?_, ?_, fun i' j a hret => ?_, ?_, ?_⟩
  · rcases List.mem_cons.mp (hperm.mem_iff.mp he) with rfl | he
    · exact ⟨t, hopen.call⟩
    · exact h.made e he
  · rw [(hperm.map Entry.pos).nodup_iff, List.map_cons, List.nodup_cons, List.mem_map]
    refine ⟨?_, h.nodup⟩
    rintro ⟨e, he, heq⟩
    exact hnew e he heq
  · obtain ⟨e, he, heq⟩ := h.complete i' j a hret
    exact ⟨e, hperm.mem_iff.mpr (List.mem_cons_of_mem _ he), heq⟩
  · refine List.pairwise_append.mpr ⟨hpre, List.pairwise_cons.mpr ⟨hlater, hrest⟩, ?_⟩
    intro e he e' he' j a hret
    rcases List.mem_cons.mp he' with rfl | he'
    · exact absurd hret hopen.not_returns
    · exact hcross e he e' he' j a hret
  · have hold := h.legal
    rw [List.map_append, List.map_append, answers_append, hz] at hold
    obtain ⟨hfirst, hlast⟩ := List.append_inj hold (by rw [length_answers]; simp)
    rw [List.map_append, List.map_append, answers_append, hz, hfirst]
    simp only [List.map_cons, answers, hsuf, hlast]

theorem Cut.concat (h : Cut spec x₀ H order i z) (hi : i < H.length) :
    Cut spec x₀ (H ++ [ev]) order i z := by
  obtain ⟨pre, suf, heq, hz, hlater⟩ := h
  refine ⟨pre, suf, heq, hz, fun e he j a hret => ?_⟩
  rcases hret.of_concat with hret | ⟨rfl, -⟩
  · exact hlater e he j a hret
  · exact hi

theorem Cut.last (h : after spec x₀ (order.map Entry.call) = z) : Cut spec x₀ H order i z :=
  ⟨order, [], (List.append_nil _).symm, h, fun _ he => absurd he List.not_mem_nil⟩

/-- An open call enters the order behind the others. -/
theorem Cut.point (h : Cut spec x₀ H order k w) (hopen : Open H t i c) (a : ο) :
    Cut spec x₀ H (order ++ [⟨i, c, a⟩]) k w := by
  obtain ⟨pre, suf, rfl, hw, hlater⟩ := h
  refine ⟨pre, suf ++ [⟨i, c, a⟩], List.append_assoc .., hw, fun e he j a' hret => ?_⟩
  rcases List.mem_append.mp he with he | he
  · exact hlater e he j a' hret
  · obtain rfl := List.mem_singleton.mp he
    exact absurd hret hopen.not_returns

/-- An open call that changes nothing enters the order at a cut. -/
theorem Cut.hindsight (h : Cut spec x₀ H (pre ++ suf) k w) (hopen : Open H t i c)
    (hz : after spec x₀ (pre.map Entry.call) = z) (hsame : (spec z c).1 = z) (a : ο) :
    Cut spec x₀ H (pre ++ ⟨i, c, a⟩ :: suf) k w := by
  obtain ⟨pre', suf', heq, hw, hlater⟩ := h
  rcases List.append_eq_append_iff.mp heq with ⟨mid, rfl, rfl⟩ | ⟨mid, rfl, rfl⟩
  · refine ⟨pre ++ ⟨i, c, a⟩ :: mid, suf', by simp, ?_, hlater⟩
    rw [List.map_append, after_append, hz] at hw
    rw [List.map_append, after_append, hz, List.map_cons, after, hsame]
    exact hw
  · refine ⟨pre', mid ++ ⟨i, c, a⟩ :: suf, by simp, hw, fun e he j a' hret => ?_⟩
    rcases List.mem_append.mp he with he | he
    · exact hlater e (List.mem_append_left _ he) j a' hret
    · rcases List.mem_cons.mp he with rfl | he
      · exact absurd hret hopen.not_returns
      · exact hlater e (List.mem_append_right _ he) j a' hret

theorem Ordered.start (spec : τ → ι → τ × ο) (x₀ : τ) :
    Ordered spec x₀ [] [] (Atomic.start (κ := κ) x₀) := by
  refine ⟨⟨by simp, by simp, fun i j a h => ?_, .nil, rfl⟩, rfl, fun t c h => ?_, fun t a h => ?_⟩
  · exact absurd h.bounds.2 (Nat.not_lt_zero _)
  · cases h
  · cases h

end

/-! ## Steps of the object -/

section

variable [DecidableEq κ] {spec : τ → ι → τ × ο} {x₀ z : τ} {H : List (Event κ ι ο)}
  {order pre suf : List (Entry ι ο)} {y : Atomic κ ι ο τ} {t u : κ} {i : ℕ} {c : ι} {a : ο}

theorem Atomic.setStage_of_ne (y : Atomic κ ι ο τ) (st : Stage ι ο) (h : u ≠ t) :
    (y.setStage t st).stage u = y.stage u := Function.update_of_ne h ..

theorem Atomic.setStage_same (y : Atomic κ ι ο τ) (t : κ) (st : Stage ι ο) :
    (y.setStage t st).stage t = st := Function.update_self ..

theorem Atomic.call_seen_same (y : Atomic κ ι ο τ) (t : κ) (c : ι) :
    (y.call t c).seen t = {y.state} := Function.update_self ..

theorem Atomic.call_seen_of_ne (y : Atomic κ ι ο τ) (c : ι) (h : u ≠ t) :
    (y.call t c).seen u = y.seen u := Function.update_of_ne h ..

theorem Ordered.call (h : Ordered spec x₀ H order y) (t : κ) (c : ι) (ht : y.stage t = .idle) :
    Ordered spec x₀ (H ++ [.call t c]) order (y.call t c) := by
  refine ⟨h.lin.concat fun _ _ _ _ _ heq => (by cases heq), h.state, fun u d hu => ?_,
    fun u a hu => ?_⟩
  · by_cases hut : u = t
    · subst hut
      rw [Atomic.call, Atomic.setStage_same] at hu
      obtain rfl := Stage.called.inj hu
      refine ⟨H.length, .new H u c, fun e he => (h.lin.pos_lt he).ne, fun z hz => ?_⟩
      rw [Atomic.call_seen_same, Set.mem_singleton_iff] at hz
      exact .last (h.state.trans hz.symm)
    · rw [Atomic.call, Atomic.setStage_of_ne _ _ hut] at hu
      obtain ⟨i, hopen, hnew, hcut⟩ := h.called u d hu
      refine ⟨i, hopen.concat (Ne.symm hut), hnew, fun z hz => ?_⟩
      rw [Atomic.call_seen_of_ne _ _ hut] at hz
      exact (hcut z hz).concat hopen.lt
  · have hut : u ≠ t := by
      rintro rfl
      rw [Atomic.call, Atomic.setStage_same] at hu
      cases hu
    rw [Atomic.call, Atomic.setStage_of_ne _ _ hut] at hu
    obtain ⟨i, d, hopen, he⟩ := h.done u a hu
    exact ⟨i, d, hopen.concat (Ne.symm hut), he⟩

theorem Ordered.ret (h : Ordered spec x₀ H order y) (t : κ) (ht : y.stage t = .done a) :
    Ordered spec x₀ (H ++ [.ret t a]) order (y.setStage t .idle) := by
  have hother : ∀ {u st}, (y.setStage t .idle).stage u = st → st ≠ .idle →
      u ≠ t ∧ y.stage u = st := by
    rintro u st rfl hne
    have hut : u ≠ t := by
      rintro rfl
      exact hne (y.setStage_same u _)
    exact ⟨hut, (y.setStage_of_ne _ hut).symm⟩
  refine ⟨h.lin.concat fun u d i b hopen heq => ?_, h.state, fun u d hu => ?_, fun u b hu => ?_⟩
  · obtain ⟨rfl, rfl⟩ := Event.ret.inj heq
    obtain ⟨j, d', hopen', e, he, hpos, hanswer⟩ := h.done t a ht
    exact ⟨e, he, hpos.trans (hopen'.unique hopen), hanswer⟩
  · obtain ⟨hut, hst⟩ := hother hu (by simp)
    obtain ⟨i, hopen, hnew, hcut⟩ := h.called u d hst
    exact ⟨i, hopen.concat (Ne.symm hut), hnew, fun z hz => (hcut z hz).concat hopen.lt⟩
  · obtain ⟨hut, hst⟩ := hother hu (by simp)
    obtain ⟨i, d, hopen, he⟩ := h.done u b hst
    exact ⟨i, d, hopen.concat (Ne.symm hut), he⟩

/-- A call takes effect: its entry goes to a cut of the order, and the cuts
of the others stay. -/
theorem Ordered.effect {y' : Atomic κ ι ο τ} (h : Ordered spec x₀ H (pre ++ suf) y)
    (hopen : Open H t i c)
    (hlin : Linearization spec x₀ H (pre ++ ⟨i, c, a⟩ :: suf))
    (hstate : after spec x₀ ((pre ++ ⟨i, c, a⟩ :: suf).map Entry.call) = y'.state)
    (hstage : y'.stage = Function.update y.stage t (.done a))
    (hseen : ∀ u k, ∀ z ∈ y'.seen u, (∀ z ∈ y.seen u, Cut spec x₀ H (pre ++ suf) k z) →
      Cut spec x₀ H (pre ++ ⟨i, c, a⟩ :: suf) k z) :
    Ordered spec x₀ H (pre ++ ⟨i, c, a⟩ :: suf) y' := by
  have hmem : ∀ e : Entry ι ο, e ∈ pre ++ ⟨i, c, a⟩ :: suf ↔ e = ⟨i, c, a⟩ ∨ e ∈ pre ++ suf :=
    fun e => (List.perm_middle.mem_iff).trans List.mem_cons
  refine ⟨hlin, hstate, fun u d hu => ?_, fun u b hu => ?_⟩
  · have hut : u ≠ t := by
      rintro rfl
      rw [hstage, Function.update_self] at hu
      cases hu
    rw [hstage, Function.update_of_ne hut] at hu
    obtain ⟨k, hopen', hnew, hcut⟩ := h.called u d hu
    refine ⟨k, hopen', fun e he => ?_, fun z hz => hseen u k z hz hcut⟩
    rcases (hmem e).mp he with rfl | he
    · rintro rfl
      have hcall := hopen'.call
      rw [hopen.call] at hcall
      exact hut (Event.call.inj (Option.some.inj hcall)).1.symm
    · exact hnew e he
  · by_cases hut : u = t
    · subst hut
      rw [hstage, Function.update_self] at hu
      obtain rfl := Stage.done.inj hu
      exact ⟨i, c, hopen, _, (hmem _).mpr (.inl rfl), rfl, rfl⟩
    · rw [hstage, Function.update_of_ne hut] at hu
      obtain ⟨k, d, hopen', e, he, heq⟩ := h.done u b hu
      exact ⟨k, d, hopen', e, (hmem e).mpr (.inr he), heq⟩

theorem Ordered.point (h : Ordered spec x₀ H order y) (t : κ) (ht : y.stage t = .called c) :
    ∃ order', Ordered spec x₀ H order'
      ((y.setState (spec y.state c).1).setStage t (.done (spec y.state c).2)) := by
  obtain ⟨i, hopen, hnew, -⟩ := h.called t c ht
  have h' : Ordered spec x₀ H (order ++ []) y := by rwa [List.append_nil]
  have hafter : after spec x₀ ((order ++ [(⟨i, c, (spec y.state c).2⟩ : Entry ι ο)]).map Entry.call)
      = (spec y.state c).1 := by
    rw [List.map_append, after_append, h.state]
    rfl
  refine ⟨order ++ [⟨i, c, (spec y.state c).2⟩], h'.effect hopen ?_ hafter rfl ?_⟩
  · refine h'.lin.insert hopen ?_ h.state (fun _ he => absurd he List.not_mem_nil) rfl
    rwa [List.append_nil]
  · intro u k z hz hcut
    rw [List.append_nil] at hcut
    rcases hz with rfl | hz
    · exact .last hafter
    · exact (hcut z hz).point hopen _

theorem Ordered.hindsight (h : Ordered spec x₀ H order y) (t : κ) (ht : y.stage t = .called c)
    (hz : z ∈ y.seen t) (hsame : (spec z c).1 = z) :
    ∃ order', Ordered spec x₀ H order' (y.setStage t (.done (spec z c).2)) := by
  obtain ⟨i, hopen, hnew, hcut⟩ := h.called t c ht
  obtain ⟨pre, suf, rfl, hafter, hlater⟩ := hcut z hz
  refine ⟨pre ++ ⟨i, c, (spec z c).2⟩ :: suf, ?_⟩
  refine h.effect hopen ?_ ?_ rfl fun u k w hw hcut => (hcut w hw).hindsight hopen hafter hsame _
  · exact h.lin.insert hopen hnew hafter hlater (by rw [hsame])
  · have hstate := h.state
    rw [List.map_append, after_append, hafter] at hstate
    rw [List.map_append, after_append, hafter, List.map_cons, after, hsame]
    exact hstate

theorem Steps.ordered (h : Steps spec (Atomic.start x₀) H y) :
    ∃ order, Ordered spec x₀ H order y := by
  induction h with
  | refl => exact ⟨[], .start spec x₀⟩
  | call _ t c ht ih =>
      obtain ⟨order, ho⟩ := ih
      exact ⟨order, ho.call t c ht⟩
  | point _ t ht ih =>
      obtain ⟨order, ho⟩ := ih
      exact ho.point t ht
  | hindsight _ t ht hz hsame ih =>
      obtain ⟨order, ho⟩ := ih
      exact ho.hindsight t ht hz hsame
  | ret _ t ht ih =>
      obtain ⟨order, ho⟩ := ih
      exact ⟨order, ho.ret t ht⟩

/-- **The histories of the atomic object have linearizations**, which lead
the specification to the object's state. -/
theorem Steps.linearization (h : Steps spec (Atomic.start x₀) H y) :
    ∃ order, Linearization spec x₀ H order
      ∧ after spec x₀ (order.map Entry.call) = y.state := by
  obtain ⟨order, ho⟩ := h.ordered
  exact ⟨order, ho.lin, ho.state⟩

end

/-! ## Systems -/

section

variable {σ α : Type*} {M : Lts σ α} {ok : σ → α → Prop}
  {shows : σ → α → σ → List (Event κ ι ο)}

/-- The runs of a system with the events that their steps show. -/
inductive Shown (M : Lts σ α) (ok : σ → α → Prop) (shows : σ → α → σ → List (Event κ ι ο)) :
    List (Event κ ι ο) → σ → Prop
  | init {s : σ} (h : M.init s) : Shown M ok shows [] s
  | step {H : List (Event κ ι ο)} {s s' : σ} (a : α) (h : Shown M ok shows H s) (hok : ok s a)
      (hs : M.step s a = some s') : Shown M ok shows (H ++ shows s a s') s'

/-- Run a list of actions and write down what they show. -/
def record (M : Lts σ α) (ok : σ → α → Prop) [∀ s a, Decidable (ok s a)]
    (shows : σ → α → σ → List (Event κ ι ο)) : σ → List α → Option (List (Event κ ι ο) × σ)
  | s, [] => some ([], s)
  | s, a :: as =>
      if ok s a then (M.step s a).bind fun s' =>
        (record M ok shows s' as).map fun r => (shows s a s' ++ r.1, r.2)
      else none

theorem Shown.record [∀ s a, Decidable (ok s a)] {as : List α} : ∀ {H H' : List (Event κ ι ο)}
    {s s' : σ}, Shown M ok shows H s → record M ok shows s as = some (H', s') →
      Shown M ok shows (H ++ H') s' := by
  induction as with
  | nil =>
      intro H H' s s' h hr
      obtain ⟨rfl, rfl⟩ := Prod.mk.inj (Option.some.inj hr)
      rwa [List.append_nil]
  | cons a as ih =>
      intro H H' s s' h hr
      rw [Histories.record] at hr
      obtain ⟨hok, hr⟩ := Option.ite_none_right_eq_some.mp hr
      obtain ⟨s₁, hs, hr⟩ := Option.bind_eq_some_iff.mp hr
      obtain ⟨⟨H₁, s₂⟩, hrec, hr⟩ := Option.map_eq_some_iff.mp hr
      obtain ⟨rfl, rfl⟩ := Prod.mk.inj hr
      rw [← List.append_assoc]
      exact ih (h.step a hok hs) hrec

/-- What each step shows holds of the whole history. -/
theorem Shown.forall_mem {P : Event κ ι ο → Prop}
    (hstep : ∀ s a s', ok s a → M.step s a = some s' → ∀ ev ∈ shows s a s', P ev)
    {H : List (Event κ ι ο)} {s : σ} (h : Shown M ok shows H s) : ∀ ev ∈ H, P ev := by
  induction h with
  | init => exact fun ev hev => absurd hev List.not_mem_nil
  | step a _ hok hs ih =>
      intro ev hev
      rcases List.mem_append.mp hev with hev | hev
      · exact ih ev hev
      · exact hstep _ a _ hok hs ev hev

variable [DecidableEq κ] {spec : τ → ι → τ × ο} {x₀ : τ} {H : List (Event κ ι ο)} {s : σ}

/-- The simulation rule: a step of the system is one of the atomic object, or
several. -/
theorem Shown.linearization {R : σ → Atomic κ ι ο τ → Prop}
    (hinit : ∀ s, M.init s → R s (Atomic.start x₀))
    (hstep : ∀ s a s' y, R s y → ok s a → M.step s a = some s' →
      ∃ y', Steps spec y (shows s a s') y' ∧ R s' y')
    (h : Shown M ok shows H s) : ∃ order y, Linearization spec x₀ H order
      ∧ after spec x₀ (order.map Entry.call) = y.state ∧ R s y := by
  have hsim : ∃ y, Steps spec (Atomic.start x₀) H y ∧ R s y := by
    induction h with
    | init h => exact ⟨_, .refl _, hinit _ h⟩
    | step a _ hok hs ih =>
        obtain ⟨y, hsteps, hr⟩ := ih
        obtain ⟨y', hsteps', hr'⟩ := hstep _ a _ y hr hok hs
        exact ⟨y', hsteps.trans hsteps', hr'⟩
  obtain ⟨y, hsteps, hr⟩ := hsim
  obtain ⟨order, hlin, hstate⟩ := hsteps.linearization
  exact ⟨order, y, hlin, hstate, hr⟩

end

end Histories
