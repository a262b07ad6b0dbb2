import HttpServer.Lib.Histories
import HttpServer.LockFreeListLin
import HttpServer.LockFreeListSafe

/-!
# One order for the calls on the list

The calls of any number of threads on the lock-free list can be put in one
order in which a set that takes one call after the other gives the answers
that they got, and which keeps to the order of calls and returns.

A call that changes the set does so at one step, and that is its place in
the order. The others have no such step: that a key is in the set, or is
not, is known when it is seen, and whether the call ends with what it has
seen is only known later, when a validation has not failed. Their place is
found in hindsight, among the sets since the call (`Tracks`).
-/

namespace HttpServer

namespace LockFreeList

open Histories

variable {T : Type}

/-! ## The set -/

section

variable (S : Set T)

open Classical in
/-- The set as the specification of the calls. -/
noncomputable def spec : Op T → Set T × Bool
  | .insert key _ => (insert key S, decide (key ∉ S))
  | .remove key => (S \ {key}, decide (key ∈ S))
  | .lookup key _ => (S, decide (key ∈ S))

theorem spec_of_took {op : Op T} {S S' : Set T} (h : Took op S S') : spec S op = (S', true) := by
  rcases op with ⟨key, value⟩ | key | ⟨key, value⟩
  · obtain ⟨hout, rfl⟩ := h
    simp [spec, hout]
  · obtain ⟨hin, rfl⟩ := h
    simp [spec, hin]
  · exact h.elim

theorem spec_insert_of_mem {S : Set T} {key : T} (h : key ∈ S) (value : Option ℤ) :
    spec S (.insert key value) = (S, false) := by
  simp [spec, h]

theorem spec_remove_of_notMem {S : Set T} {key : T} (h : key ∉ S) :
    spec S (.remove key) = (S, false) := by
  simp [spec, h]

theorem spec_lookup {S : Set T} {key : T} {res : Bool} (h : key ∈ S ↔ res = true) (value : Bool) :
    spec S (.lookup key value) = (S, res) := by
  simp [spec, h]

end

/-! ## Calls and returns -/

/-- The events that a step shows. -/
def shows (s : State T) : Tid × Act T → State T → List (Event Tid (Op T) Bool)
  | (t, .call op), _ => [.call t op]
  | (t, .ret), _ => (s.pc t).result.toList.map (.ret t)
  | _, _ => []

/-- A call that has not changed the set is open, and what it has seen was so
since the call; one that has changed the set will return true. -/
structure Tracks (s : State T) [LinearOrder T] (y : Atomic Tid (Op T) Bool (Set T)) (t : Tid) :
    Prop where
  idle : (s.pc t).op = none → y.stage t = .idle
  called : ∀ op, (s.pc t).op = some op → (s.pc t).taken = false → y.stage t = .called op
    ∧ keys s ∈ y.seen t
    ∧ Evidence (fun k => ∃ z ∈ y.seen t, k ∈ z) (fun k => ∃ z ∈ y.seen t, k ∉ z) s (s.pc t)
  taken : ∀ op, (s.pc t).op = some op → (s.pc t).taken = true → y.stage t = .done true

/-- The list in the state `s` is the object `y`. -/
structure Refines [LinearOrder T] (s : State T) (y : Atomic Tid (Op T) Bool (Set T)) : Prop where
  inv : Inv s
  state : y.state = keys s
  tracks : ∀ t, Tracks s y t

section

variable [LinearOrder T] {n maxRetired : ℕ} {s s' : State T} {t : Tid} {act : Act T} {op : Op T}
  {y y' : Atomic Tid (Op T) Bool (Set T)}

theorem Refines.start (h : Initial s) : Refines s (Atomic.start ∅) := by
  refine ⟨h.inv, (keys_initial h).symm, fun t => ?_⟩
  have hnone : (s.pc t).op = none := by
    rw [h.pc t]
    rfl
  refine ⟨fun _ => rfl, fun op hop => ?_, fun op hop => ?_⟩
  · rw [hnone] at hop
    cases hop
  · rw [hnone] at hop
    cases hop

/-- A step of another thread. -/
theorem Tracks.other {u : Tid} (h : Tracks s y u) (hI : Inv s) (hm : Move n maxRetired s t act s')
    (hok : NoReuse s (t, act)) (hu : u ≠ t) (hst : y'.stage u = y.stage u)
    (hseen : y.seen u ⊆ y'.seen u) (hkeys : keys s ∈ y.seen u → keys s' ∈ y'.seen u) :
    Tracks s' y' u := by
  have hpc := hm.pc_of_ne hu
  refine ⟨fun hop => ?_, fun op hop htaken => ?_, fun op hop htaken => ?_⟩
  · rw [hpc] at hop
    exact hst.trans (h.idle hop)
  · rw [hpc] at hop htaken
    obtain ⟨hcalled, hnow, hev⟩ := h.called op hop htaken
    refine ⟨hst.trans hcalled, hkeys hnow, hpc ▸ hev.mono ?_ ?_ fun a ha => ?_⟩
    · rintro k ⟨z, hz, hk⟩
      exact ⟨z, hseen hz, hk⟩
    · rintro k ⟨z, hz, hk⟩
      exact ⟨z, hseen hz, hk⟩
    · exact hm.data_eq fun halloc => hI.not_held (hok a halloc) u ha
  · rw [hpc] at hop htaken
    exact hst.trans (h.taken op hop htaken)

/-- What a call that returns without having changed the set has seen is what
it answers. -/
theorem Evidence.answer {In Out : T → Prop} {res : Bool} {value : Option ℤ}
    (h : Evidence In Out s (.done op res value)) (htaken : (Pc.done op res value).taken = false)
    {seen : Set (Set T)} (hin : ∀ k, In k → ∃ z ∈ seen, k ∈ z)
    (hout : ∀ k, Out k → ∃ z ∈ seen, k ∉ z) : ∃ z ∈ seen, spec z op = (z, res) := by
  rcases op with ⟨key, v⟩ | key | ⟨key, v⟩
  · obtain rfl : res = false := htaken
    obtain ⟨z, hz, hk⟩ := hin key (h rfl)
    exact ⟨z, hz, spec_insert_of_mem hk v⟩
  · obtain rfl : res = false := htaken
    obtain ⟨z, hz, hk⟩ := hout key (h rfl)
    exact ⟨z, hz, spec_remove_of_notMem hk⟩
  · cases res with
    | true =>
        obtain ⟨z, hz, hk⟩ := hin key h
        exact ⟨z, hz, spec_lookup (iff_of_true hk rfl) v⟩
    | false =>
        obtain ⟨z, hz, hk⟩ := hout key h
        exact ⟨z, hz, spec_lookup (iff_of_false hk Bool.false_ne_true) v⟩

/-- A call returns what the object returns. -/
theorem Tracks.returns {res : Bool} {value : Option ℤ} (h : Tracks s y t)
    (hpc : s.pc t = .done op res value) :
    ∃ y', Steps spec y [.ret t res] y' ∧ y'.state = y.state ∧ y'.seen = y.seen
      ∧ y'.stage = Function.update y.stage t .idle := by
  have hop : (s.pc t).op = some op := by
    rw [hpc]
    rfl
  cases htaken : (s.pc t).taken with
  | true =>
      have hres : res = true := by
        rw [hpc] at htaken
        rcases op with ⟨key, v⟩ | key | ⟨key, v⟩
        · exact htaken
        · exact htaken
        · cases htaken
      subst hres
      exact ⟨_, Steps.ret (.refl y) t (h.taken op hop htaken), rfl, rfl, rfl⟩
  | false =>
      obtain ⟨hcalled, -, hev⟩ := h.called op hop htaken
      rw [hpc] at hev htaken
      obtain ⟨z, hz, hspec⟩ := hev.answer htaken (fun _ h => h) fun _ h => h
      have hstep := Steps.hindsight (.refl y) t hcalled hz (congrArg Prod.fst hspec)
      rw [hspec] at hstep
      refine ⟨_, hstep.ret t (Atomic.setStage_same ..), rfl, rfl, ?_⟩
      exact Function.update_idem ..

theorem Refines.step (h : Refines s y) {l : Tid × Act T} (hok : NoReuse s l)
    (hs : step n maxRetired s l = some s') :
    ∃ y', Steps spec y (shows s l s') y' ∧ Refines s' y' := by
  obtain ⟨t, act⟩ := l
  have hm := (step_move hs).2
  have hI := h.inv
  have hI' : Inv s' := hI.move hm fun a ha u => hI.not_held (hok a ha) u
  have hst : ∀ {st : Stage (Op T) Bool} {u}, u ≠ t →
      Function.update y.stage t st u = y.stage u := fun hu => Function.update_of_ne hu ..
  have heff := hm.effect hI
  cases heff with
  | call op hop hpc hk =>
      refine ⟨y.call t op, Steps.call (.refl y) t op ((h.tracks t).idle hop), hI',
        h.state.trans hk.symm, fun u => ?_⟩
      by_cases hu : u = t
      · subst hu
        have hop' : (s'.pc u).op = some op := by
          rw [hpc]
          cases op <;> rfl
        have htaken : (s'.pc u).taken = false := by
          rw [hpc]
          cases op <;> rfl
        refine ⟨fun hnone => ?_, fun op' hop'' _ => ?_, fun op' _ htrue => ?_⟩
        · rw [hop'] at hnone
          cases hnone
        · obtain rfl := Option.some.inj (hop'.symm.trans hop'')
          refine ⟨Atomic.setStage_same .., ?_, ?_⟩
          · rw [Atomic.call_seen_same, Set.mem_singleton_iff, h.state, hk]
          · rw [hpc]
            cases op <;> trivial
        · rw [htaken] at htrue
          cases htrue
      · have hseen := Atomic.call_seen_of_ne y op hu
        refine (h.tracks u).other hI hm hok hu (hst hu) hseen.ge fun hnow => ?_
        rw [hseen, hk]
        exact hnow
  | ret hpc hpc' hk =>
      obtain ⟨y', hsteps, hstate, hseen, hstage⟩ := (h.tracks t).returns hpc
      have hshows : shows s (t, .ret) s' = [.ret t ‹_›] := by
        rw [shows, hpc]
        rfl
      rw [hshows]
      refine ⟨y', hsteps, hI', hstate.trans (h.state.trans hk.symm), fun u => ?_⟩
      by_cases hu : u = t
      · subst hu
        refine ⟨fun _ => ?_, fun op hop => ?_, fun op hop => ?_⟩
        · rw [hstage, Function.update_self]
        · rw [hpc'] at hop
          cases hop
        · rw [hpc'] at hop
          cases hop
      · refine (h.tracks u).other hI hm hok hu (hstage ▸ hst hu) (hseen ▸ subset_rfl) fun hnow => ?_
        rw [hseen, hk]
        exact hnow
  | @quiet op _ hact hop hop' htaken hk =>
      have hshows : shows s (t, act) s' = [] := by
        cases act with
        | call op' => cases hm with | call _ hidle => rw [hidle] at hop; cases hop
        | ret => exact absurd rfl hact
        | _ => rfl
      rw [hshows]
      refine ⟨y, .refl y, hI', h.state.trans hk.symm, fun u => ?_⟩
      by_cases hu : u = t
      · subst hu
        refine ⟨fun hnone => ?_, fun op' hop'' hfalse => ?_, fun op' hop'' htrue => ?_⟩
        · rw [hop'] at hnone
          cases hnone
        · obtain rfl := Option.some.inj (hop'.symm.trans hop'')
          obtain ⟨hcalled, hnow, hev⟩ := (h.tracks u).called op hop (htaken ▸ hfalse)
          exact ⟨hcalled, hk ▸ hnow, hm.evidence hI (fun k hk => ⟨_, hnow, hk⟩)
            (fun k hk => ⟨_, hnow, hk⟩) hev⟩
        · obtain rfl := Option.some.inj (hop'.symm.trans hop'')
          exact (h.tracks u).taken op hop (htaken ▸ htrue)
      · exact (h.tracks u).other hI hm hok hu rfl subset_rfl fun hnow => hk ▸ hnow
  | @took op _ hact hop hop' htaken htaken' hk =>
      have hshows : shows s (t, act) s' = [] := by
        cases act with
        | call op' => cases hm with | call _ hidle => rw [hidle] at hop; cases hop
        | ret => exact absurd rfl hact
        | _ => rfl
      obtain ⟨hcalled, -, -⟩ := (h.tracks t).called op hop htaken
      have hspec : spec y.state op = (keys s', true) := h.state ▸ spec_of_took hk
      have hrefl : Steps spec y [] y := .refl y
      have hstep := hrefl.point t hcalled
      rw [hspec] at hstep
      rw [hshows]
      refine ⟨_, hstep, hI', rfl, fun u => ?_⟩
      by_cases hu : u = t
      · subst hu
        refine ⟨fun hnone => ?_, fun op' _ hfalse => ?_, fun op' _ _ => Atomic.setStage_same ..⟩
        · rw [hop'] at hnone
          cases hnone
        · rw [htaken'] at hfalse
          cases hfalse
      · exact (h.tracks u).other hI hm hok hu (hst hu) (Set.subset_insert _ _)
          fun _ => Set.mem_insert _ _

/-- **The calls on the list have one order**, for any number of threads: the
histories are those of a set that takes one call after the other. -/
theorem list_histories_linearizable {H : List (Event Tid (Op T) Bool)}
    (h : Shown (machine T n maxRetired) NoReuse shows H s) :
    ∃ order, Linearization spec ∅ H order
      ∧ Calls.after spec ∅ (order.map Entry.call) = keys s := by
  have hstep : ∀ (s : State T) l s' y, Refines s y → NoReuse s l →
      step n maxRetired s l = some s' → ∃ y', Steps spec y (shows s l s') y' ∧ Refines s' y' :=
    fun _ _ _ _ hr hok hs => hr.step hok hs
  obtain ⟨order, y, hlin, hstate, hr⟩ := h.linearization (fun _ h => Refines.start h) hstep
  exact ⟨order, hlin, hstate.trans hr.state⟩

end

/-! ## A run -/

instance {T : Type} (s : State T) : ∀ l, Decidable (NoReuse s l)
  | (_, .alloc a) => decidable_of_iff (s.status a = .fresh) (by simp [NoReuse])
  | (_, .call _) | (_, .tick) | (_, .visit _) | (_, .ret) => isTrue (by simp [NoReuse])

/-- Thread 0 links in key 5, thread 1 finds it there and returns first. -/
def sameKey : List (Tid × Act ℕ) :=
  [(0, .call (.insert 5 none)), (1, .call (.insert 5 none)), (0, .alloc 0), (1, .alloc 1)]
    ++ List.replicate 3 (0, .tick) ++ List.replicate 7 (1, .tick) ++ [(1, .ret), (0, .ret)]

theorem sameKey_linearizable : ∃ s order,
    Shown (machine ℕ 2 8) NoReuse shows [.call 0 (.insert 5 none), .call 1 (.insert 5 none),
      .ret 1 false, .ret 0 true] s
    ∧ Linearization spec ∅ [.call 0 (.insert 5 none), .call 1 (.insert 5 none),
      .ret 1 false, .ret 0 true] order := by
  have hrun : (record (machine ℕ 2 8) NoReuse shows emptyList sameKey).map Prod.fst
      = some [.call 0 (.insert 5 none), .call 1 (.insert 5 none), .ret 1 false, .ret 0 true] := by
    decide +kernel
  obtain ⟨⟨H, s⟩, hrec, rfl⟩ := Option.map_eq_some_iff.mp hrun
  have hshown := (Shown.init emptyList_initial).record hrec
  obtain ⟨order, hlin, -⟩ := list_histories_linearizable hshown
  exact ⟨s, order, hshown, hlin⟩

end LockFreeList

end HttpServer
