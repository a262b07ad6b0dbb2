import Mathlib.Data.List.Count
import Mathlib.Data.Set.Insert
import Mathlib.Logic.Function.Basic
import Mathlib.Logic.Relation

/-!
# Callbacks and their owners

A callback is a `CallableOnce`, whose call ends with `delete this`, or a
`CallableMany`, which stays with its owner (callback_instances.hpp).
`Ledger` is what happens to the callbacks that are given to a thread pool:
each occurrence is added, called, and back from its call, or it is
disposed of without a call; a callback is deleted at the end of a call or
when it is disposed of, and only if it is a once-only one.

`Ledger.Inv` says that under these moves no callback is used after it was
deleted. A thread pool keeps to them when its steps refine the moves
(`Ledger.Steps`), read from its state by `ofWorkers`.
-/

namespace HttpServer

namespace Callbacks

/-- A callback that was added, and by which call of `addTask`. -/
structure Occurrence where
  num : ℕ
  cb : ℕ
deriving DecidableEq, Repr

inductive Event where
  | call (x : Occurrence)
  | delete (cb : ℕ)
deriving DecidableEq, Repr

/-- The callback that an event is about. -/
def Event.cb : Event → ℕ
  | .call x => x.cb
  | .delete cb => cb

/-- What `delete` leaves in the log where it is for once-only callbacks. -/
def deleteOnce (once : ℕ → Bool) (cb : ℕ) : List Event := if once cb then [.delete cb] else []

theorem call_notMem_deleteOnce (once : ℕ → Bool) (cb : ℕ) (x : Occurrence) :
    Event.call x ∉ deleteOnce once cb := by
  rw [deleteOnce]
  split <;> simp

theorem call_notMem_flatMap (once : ℕ → Bool) (queue : List Occurrence) (x : Occurrence) :
    Event.call x ∉ queue.flatMap fun y => deleteOnce once y.cb := by
  simp only [List.mem_flatMap, not_exists, not_and]
  exact fun y _ => call_notMem_deleteOnce once y.cb x

/-- No callback is called or deleted after it was deleted. -/
def NoUse (log : List Event) : Prop := log.Pairwise fun e e' => ∀ cb, e = .delete cb → e'.cb ≠ cb

/-- At any time. -/
structure Safe (once : ℕ → Bool) (log : List Event) : Prop where
  call_le : ∀ x, log.count (.call x) ≤ 1
  delete_le : ∀ cb, log.count (.delete cb) ≤ 1
  kept : ∀ cb, once cb = false → .delete cb ∉ log
  order : NoUse log

/-- After everything was added, called and torn down. -/
structure Treated (once : ℕ → Bool) (added : List Occurrence) (log : List Event) : Prop where
  called : ∀ x ∈ added, log.count (.call x) = 1
  deleted : ∀ x ∈ added, once x.cb = true → log.count (.delete x.cb) = 1
  kept : ∀ cb, once cb = false → .delete cb ∉ log
  order : NoUse log

structure Ledger where
  added : Set Occurrence
  started : Set Occurrence
  returned : Set Occurrence
  disposed : Set Occurrence
  log : List Event

namespace Ledger

inductive Move (once : ℕ → Bool) (L : Ledger) : Ledger → Prop where
  | add (x : Occurrence) (hnew : x ∉ L.added)
      (honce : once x.cb = true → ∀ y ∈ L.added, y.cb ≠ x.cb) :
      Move once L { L with added := insert x L.added }
  | call (x : Occurrence) (ha : x ∈ L.added) (hs : x ∉ L.started) (hd : x ∉ L.disposed) :
      Move once L { L with started := insert x L.started, log := L.log ++ [.call x] }
  | ret (x : Occurrence) (hs : x ∈ L.started) (hr : x ∉ L.returned) :
      Move once L { L with
        returned := insert x L.returned
        log := L.log ++ deleteOnce once x.cb }
  | dispose (x : Occurrence) (ha : x ∈ L.added) (hs : x ∉ L.started) (hd : x ∉ L.disposed) :
      Move once L { L with
        disposed := insert x L.disposed
        log := L.log ++ deleteOnce once x.cb }

def Steps (once : ℕ → Bool) : Ledger → Ledger → Prop := Relation.ReflTransGen (Move once)

/-- The callback was deleted. -/
def Gone (once : ℕ → Bool) (L : Ledger) (cb : ℕ) : Prop :=
  once cb = true ∧ ∃ x, x.cb = cb ∧ (x ∈ L.returned ∨ x ∈ L.disposed)

structure Inv (once : ℕ → Bool) (L : Ledger) : Prop where
  started : ∀ x ∈ L.started, x ∈ L.added ∧ x ∉ L.disposed
  returned : ∀ x ∈ L.returned, x ∈ L.started
  disposed : ∀ x ∈ L.disposed, x ∈ L.added
  /-- A once-only callback is added once. -/
  unique : ∀ x ∈ L.added, ∀ y ∈ L.added, once x.cb = true → y.cb = x.cb → y = x
  call_one : ∀ x ∈ L.started, L.log.count (.call x) = 1
  call_none : ∀ x, x ∉ L.started → .call x ∉ L.log
  delete_one : ∀ cb, L.Gone once cb → L.log.count (.delete cb) = 1
  delete_none : ∀ cb, ¬L.Gone once cb → .delete cb ∉ L.log
  order : NoUse L.log

variable {once : ℕ → Bool} {L L' : Ledger} {x : Occurrence}

/-- A callback with an occurrence that is under way is not deleted. -/
theorem Inv.not_gone (h : L.Inv once) (ha : x ∈ L.added) (hr : x ∉ L.returned)
    (hd : x ∉ L.disposed) : ¬L.Gone once x.cb := by
  rintro ⟨honce, y, hcb, hy⟩
  have hadded : y ∈ L.added := by
    rcases hy with hy | hy
    · exact (h.started y (h.returned y hy)).1
    · exact h.disposed y hy
  obtain rfl := h.unique x ha y hadded honce hcb
  rcases hy with hy | hy
  · exact hr hy
  · exact hd hy

/-- One more occurrence is returned or disposed of. -/
theorem gone_iff (once : ℕ → Bool) (hx : ∀ y, y ∈ L'.returned ∨ y ∈ L'.disposed
      ↔ (y ∈ L.returned ∨ y ∈ L.disposed) ∨ y = x) (cb : ℕ) :
    L'.Gone once cb ↔ L.Gone once cb ∨ once cb = true ∧ x.cb = cb := by
  simp only [Gone, hx, ← and_or_left]
  refine and_congr_right fun _ => ⟨?_, ?_⟩
  · rintro ⟨y, hcb, hy | rfl⟩
    · exact .inl ⟨y, hcb, hy⟩
    · exact .inr hcb
  · rintro (⟨y, hcb, hy⟩ | hcb)
    · exact ⟨y, hcb, .inl hy⟩
    · exact ⟨x, hcb, .inr rfl⟩

theorem noUse_append {log : List Event} {e : Event} (h : NoUse log) (he : .delete e.cb ∉ log) :
    NoUse (log ++ [e]) := by
  refine List.pairwise_append.mpr ⟨h, List.pairwise_singleton .., ?_⟩
  rintro e₁ h₁ e₂ h₂ cb rfl heq
  obtain rfl := List.mem_singleton.mp h₂
  exact he (heq ▸ h₁)

/-- What is left to show of a move that ends with `deleteOnce`. -/
theorem Inv.deleteOnce (h : L.Inv once) (ha : x ∈ L.added) (hr : x ∉ L.returned)
    (hd : x ∉ L.disposed) (hadded : L'.added = L.added) (hstarted : L'.started = L.started)
    (hlog : L'.log = L.log ++ deleteOnce once x.cb)
    (hin : ∀ y, y ∈ L'.returned ∨ y ∈ L'.disposed ↔ (y ∈ L.returned ∨ y ∈ L.disposed) ∨ y = x)
    (started : ∀ y ∈ L.started, y ∉ L'.disposed) (returned : ∀ y ∈ L'.returned, y ∈ L.started)
    (disposed : ∀ y ∈ L'.disposed, y ∈ L.added) : L'.Inv once := by
  have hgone := gone_iff once hin
  have hnone := h.delete_none _ (h.not_gone ha hr hd)
  have hcall : ∀ y, L'.log.count (.call y) = L.log.count (.call y) := by
    intro y
    rw [hlog, Callbacks.deleteOnce]
    cases once x.cb <;> simp
  refine ⟨?_, ?_, ?_, ?_, ?_, ?_, ?_, ?_, ?_⟩
  · rw [hadded, hstarted]
    exact fun y hy => ⟨(h.started y hy).1, started y hy⟩
  · rw [hstarted]
    exact returned
  · rw [hadded]
    exact disposed
  · rw [hadded]
    exact h.unique
  · intro y hy
    exact (hcall y).trans (h.call_one y (hstarted ▸ hy))
  · intro y hy
    have hy' : y ∉ L.started := hstarted ▸ hy
    exact List.count_eq_zero.mp ((hcall y).trans (List.count_eq_zero.mpr (h.call_none y hy')))
  · intro cb hg
    rw [hlog]
    rcases (hgone cb).mp hg with hold | ⟨honce, rfl⟩
    · have hne : once x.cb = true → x.cb ≠ cb := by
        rintro - rfl
        exact h.not_gone ha hr hd hold
      cases honce : once x.cb with
      | false => simp [Callbacks.deleteOnce, honce, h.delete_one cb hold]
      | true => simp [Callbacks.deleteOnce, honce, h.delete_one cb hold, hne honce]
    · simp [Callbacks.deleteOnce, honce, List.count_eq_zero.mpr hnone]
  · intro cb hg
    rw [hgone, not_or, not_and] at hg
    rw [hlog, List.mem_append, not_or]
    refine ⟨h.delete_none cb hg.1, fun hmem => ?_⟩
    cases honce : once x.cb with
    | false => simp [Callbacks.deleteOnce, honce] at hmem
    | true =>
        obtain rfl : cb = x.cb := by simpa [Callbacks.deleteOnce, honce] using hmem
        exact hg.2 honce rfl
  · rw [hlog, Callbacks.deleteOnce]
    cases once x.cb with
    | false => simpa using h.order
    | true => exact noUse_append h.order hnone

theorem Inv.move (h : L.Inv once) (hm : Move once L L') : L'.Inv once := by
  cases hm with
  | add x hnew honce =>
      refine ⟨fun y hy => ⟨.inr (h.started y hy).1, (h.started y hy).2⟩, h.returned,
        fun y hy => .inr (h.disposed y hy), ?_, h.call_one, h.call_none, h.delete_one,
        h.delete_none, h.order⟩
      rintro y (rfl | hy) z (rfl | hz) hy₁ hcb
      · rfl
      · exact absurd hcb (honce hy₁ z hz)
      · exact absurd hcb.symm (honce (hcb ▸ hy₁) y hy)
      · exact h.unique y hy z hz hy₁ hcb
  | call x ha hs hd =>
      have hr : x ∉ L.returned := fun hr => hs (h.returned x hr)
      refine ⟨?_, fun y hy => .inr (h.returned y hy), h.disposed, h.unique, ?_, ?_, ?_, ?_, ?_⟩
      · rintro y (rfl | hy)
        · exact ⟨ha, hd⟩
        · exact h.started y hy
      · rintro y (rfl | hy)
        · simp [List.count_eq_zero_of_not_mem (h.call_none y hs)]
        · have hne : x ≠ y := fun heq => hs (heq ▸ hy)
          simp [h.call_one y hy, hne]
      · intro y hy
        have hy' : y ≠ x ∧ y ∉ L.started := by simpa [not_or] using hy
        simp [h.call_none y hy'.2, hy'.1]
      · intro cb hg
        simp [h.delete_one cb hg]
      · intro cb hg
        simp [h.delete_none cb hg]
      · exact noUse_append h.order (h.delete_none _ (h.not_gone ha hr hd))
  | ret x hs hr =>
      obtain ⟨ha, hd⟩ := h.started x hs
      refine h.deleteOnce ha hr hd rfl rfl rfl ?_ (fun y hy => (h.started y hy).2) ?_ h.disposed
      · intro y
        simp only [Set.mem_insert_iff]
        tauto
      · rintro y (rfl | hy)
        · exact hs
        · exact h.returned y hy
  | dispose x ha hs hd =>
      refine h.deleteOnce ha (fun hr => hs (h.returned x hr)) hd rfl rfl rfl ?_ ?_ h.returned ?_
      · intro y
        simp only [Set.mem_insert_iff]
        tauto
      · rintro y hy (rfl | hy')
        · exact hs hy
        · exact (h.started y hy).2 hy'
      · rintro y (rfl | hy)
        · exact ha
        · exact h.disposed y hy

theorem Inv.steps (h : L.Inv once) (hs : L.Steps once L') : L'.Inv once := by
  induction hs with
  | refl => exact h
  | tail _ hm ih => exact ih.move hm

theorem Inv.safe (h : L.Inv once) : Safe once L.log where
  call_le x := by
    by_cases hx : x ∈ L.started
    · exact (h.call_one x hx).le
    · exact (List.count_eq_zero.mpr (h.call_none x hx)).trans_le (Nat.zero_le 1)
  delete_le cb := by
    by_cases hg : L.Gone once cb
    · exact (h.delete_one cb hg).le
    · exact (List.count_eq_zero.mpr (h.delete_none cb hg)).trans_le (Nat.zero_le 1)
  kept cb hcb := h.delete_none cb fun hg => by
    rw [Gone, hcb] at hg
    cases hg.1
  order := h.order

/-- What was added was called, and is back or was disposed of. -/
theorem Inv.treated (h : L.Inv once) {added : List Occurrence} (hc : ∀ x ∈ added, x ∈ L.started)
    (hd : ∀ x ∈ added, x ∈ L.returned ∨ x ∈ L.disposed) : Treated once added L.log where
  called x hx := h.call_one x (hc x hx)
  deleted x hx honce := h.delete_one x.cb ⟨honce, x, rfl, hd x hx⟩
  kept := h.safe.kept
  order := h.order

/-! ## The ledger of a thread pool -/

/-- `runs w` is what the worker `w` is inside of, of `n` workers. -/
def ofWorkers (n : ℕ) (added finished disposed : List Occurrence) (runs : ℕ → Option Occurrence)
    (log : List Event) : Ledger where
  added := {x | x ∈ added}
  started := {x | x ∈ finished ∨ ∃ w < n, runs w = some x}
  returned := {x | x ∈ finished}
  disposed := {x | x ∈ disposed}
  log := log

section

variable {n w : ℕ} {added finished disposed : List Occurrence} {runs : ℕ → Option Occurrence}
  {log log' : List Event}

theorem ofWorkers_inv (n : ℕ) (once : ℕ → Bool) :
    (ofWorkers n [] [] [] (fun _ => none) []).Inv once := by
  refine ⟨?_, ?_, ?_, ?_, ?_, ?_, ?_, ?_, .nil⟩ <;> simp [ofWorkers, Gone]

theorem ofWorkers_add (x : Occurrence) : ofWorkers n (added ++ [x]) finished disposed runs log
    = { ofWorkers n added finished disposed runs log with
        added := insert x (ofWorkers n added finished disposed runs log).added } := by
  have hadd : {y | y ∈ added ++ [x]} = insert x {y | y ∈ added} := by
    ext y
    simp [or_comm]
  rw [ofWorkers, hadd]
  rfl

theorem ofWorkers_call (hw : w < n) (hr : runs w = none) (x : Occurrence) :
    ofWorkers n added finished disposed (Function.update runs w (some x)) log'
      = { ofWorkers n added finished disposed runs log with
          started := insert x (ofWorkers n added finished disposed runs log).started
          log := log' } := by
  have hstart : {y | y ∈ finished ∨ ∃ v < n, Function.update runs w (some x) v = some y}
      = insert x {y | y ∈ finished ∨ ∃ v < n, runs v = some y} := by
    ext y
    simp only [Set.mem_ofPred_eq, Set.mem_insert_iff]
    constructor
    · rintro (hy | ⟨v, hv, hvy⟩)
      · exact .inr (.inl hy)
      · by_cases hvw : v = w
        · subst hvw
          rw [Function.update_self] at hvy
          exact .inl (Option.some.inj hvy).symm
        · rw [Function.update_of_ne hvw] at hvy
          exact .inr (.inr ⟨v, hv, hvy⟩)
    · rintro (rfl | hy | ⟨v, hv, hvy⟩)
      · exact .inr ⟨w, hw, Function.update_self ..⟩
      · exact .inl hy
      · have hvw : v ≠ w := by
          rintro rfl
          rw [hr] at hvy
          cases hvy
        exact .inr ⟨v, hv, (Function.update_of_ne hvw ..).trans hvy⟩
  rw [ofWorkers, hstart]
  rfl

theorem ofWorkers_ret (hw : w < n) (hr : runs w = some x) :
    ofWorkers n added (finished ++ [x]) disposed (Function.update runs w none) log'
      = { ofWorkers n added finished disposed runs log with
          returned := insert x (ofWorkers n added finished disposed runs log).returned
          log := log' } := by
  have hret : {y | y ∈ finished ++ [x]} = insert x {y | y ∈ finished} := by
    ext y
    simp [or_comm]
  have hstart : {y | y ∈ finished ++ [x] ∨ ∃ v < n, Function.update runs w none v = some y}
      = {y | y ∈ finished ∨ ∃ v < n, runs v = some y} := by
    ext y
    simp only [Set.mem_ofPred_eq, List.mem_append, List.mem_singleton]
    constructor
    · rintro ((hy | rfl) | ⟨v, hv, hvy⟩)
      · exact .inl hy
      · exact .inr ⟨w, hw, hr⟩
      · have hvw : v ≠ w := by
          rintro rfl
          rw [Function.update_self] at hvy
          cases hvy
        rw [Function.update_of_ne hvw] at hvy
        exact .inr ⟨v, hv, hvy⟩
    · rintro (hy | ⟨v, hv, hvy⟩)
      · exact .inl (.inl hy)
      · by_cases hvw : v = w
        · subst hvw
          exact .inl (.inr (Option.some.inj (hvy.symm.trans hr)))
        · exact .inr ⟨v, hv, (Function.update_of_ne hvw ..).trans hvy⟩
  rw [ofWorkers, hret, hstart]
  rfl

theorem ofWorkers_dispose (x : Occurrence) :
    ofWorkers n added finished (disposed ++ [x]) runs log'
      = { ofWorkers n added finished disposed runs log with
          disposed := insert x (ofWorkers n added finished disposed runs log).disposed
          log := log' } := by
  have hdisp : {y | y ∈ disposed ++ [x]} = insert x {y | y ∈ disposed} := by
    ext y
    simp [or_comm]
  rw [ofWorkers, hdisp]
  rfl

/-- A destructor that takes what is left out of the queue. -/
theorem steps_dispose {queue : List Occurrence} (hnd : queue.Nodup)
    (hadded : ∀ x ∈ queue, x ∈ added)
    (hfresh : ∀ x ∈ queue, x ∉ finished ∧ (∀ w < n, runs w ≠ some x) ∧ x ∉ disposed) :
    (ofWorkers n added finished disposed runs log).Steps once
      (ofWorkers n added finished (disposed ++ queue) runs
        (log ++ queue.flatMap fun x => Callbacks.deleteOnce once x.cb)) := by
  induction queue generalizing disposed log with
  | nil =>
      simp only [List.append_nil, List.flatMap_nil]
      exact .refl
  | cons x queue ih =>
      obtain ⟨hx, hnd⟩ := List.nodup_cons.mp hnd
      obtain ⟨hf, hr, hd⟩ := hfresh x (List.mem_cons_self ..)
      have hstep : Move once (ofWorkers n added finished disposed runs log)
          (ofWorkers n added finished (disposed ++ [x]) runs
            (log ++ Callbacks.deleteOnce once x.cb)) := by
        rw [ofWorkers_dispose]
        refine .dispose x (hadded x (List.mem_cons_self ..)) ?_ hd
        rintro (hfin | ⟨w, hw, hrun⟩)
        · exact hf hfin
        · exact hr w hw hrun
      have hfresh' : ∀ y ∈ queue, y ∉ finished ∧ (∀ w < n, runs w ≠ some y)
          ∧ y ∉ disposed ++ [x] := by
        intro y hy
        obtain ⟨hf, hr, hd⟩ := hfresh y (List.mem_cons_of_mem _ hy)
        refine ⟨hf, hr, ?_⟩
        rw [List.mem_append, List.mem_singleton, not_or]
        exact ⟨hd, fun heq => hx (heq ▸ hy)⟩
      rw [List.append_cons disposed, List.flatMap_cons, ← List.append_assoc log]
      exact .head hstep (ih hnd (fun y hy => hadded y (List.mem_cons_of_mem _ hy)) hfresh')

end

end Ledger

end Callbacks

end HttpServer
