import HttpServer.ThreadPoolNulls
import Mathlib.Data.Finset.Card
import Mathlib.Data.Finset.Filter
import Mathlib.Data.Finset.Range

/-!
# Draining the pool

`stop()` adds a `NULL` task for each worker and joins the workers. Each
`NULL` that is assigned ends one worker, so when the joins are over as
many have been assigned as there were workers to join, and with them all
tasks in front of them in the queue. A task is left behind when too few
workers were left to take it: above all in a pool of one worker whose own
task calls `stop()` (`stop_drains_iff`).
-/

namespace HttpServer

namespace ThreadPool

/-! ## The call of `stop()` -/

/-- `stop()` has been called by `c` and has not returned. -/
def Stop.pending (c : Option ℕ) : Stop → Prop
  | .adding caller _ => caller = c
  | .joining caller _ => caller = c
  | _ => False

/-- What a step does to the pool and to the call. -/
inductive Turn (n : ℕ) (s : State) : Act → State → Prop where
  | addTask (caller cb : Option ℕ) : Turn n s (.addTask caller cb) ⟨s.pool.addTask cb, s.stop⟩
  | worker {w p} (hw : w < n) (hin : s.stop.inside ≠ some w) (hp : s.pool.workerStep w = some p) :
      Turn n s (.worker w) ⟨p, s.stop⟩
  | stop (c : Option ℕ) (h : s.stop = .idle) (hc : ∀ w ∈ c, s.calls n w = true) :
      Turn n s (.stop c) ⟨s.pool, .adding c 0⟩
  | null {c i} (h : s.stop = .adding c i) (hi : i < n) :
      Turn n s .stopStep ⟨s.pool.addTask none, .adding c (i + 1)⟩
  | added {c i} (h : s.stop = .adding c i) (hi : ¬i < n) : Turn n s .stopStep ⟨s.pool, .joining c 0⟩
  | join {c i} (h : s.stop = .joining c i) (hi : i < n)
      (hj : c = some i ∨ s.pool.pc i = .exited) : Turn n s .stopStep ⟨s.pool, .joining c (i + 1)⟩
  | ret {c i p} (h : s.stop = .joining c i) (hi : ¬i < n) (hpc : p.pc = s.pool.pc)
      (hf : p.finished = s.pool.finished) (hm : p = s.pool ∨ s.pool.Move n p)
      (hl : ∀ w, p.lastWorker w = true → s.pool.lastWorker w = true ∨ c = some w) :
      Turn n s .stopStep ⟨p, .returned c⟩

section

variable {n : ℕ} {s s' : State} {l : Act}

theorem stopStep_turn (h : stopStep n s = some s') : Turn n s .stopStep s' := by
  unfold stopStep at h
  split at h
  · cases h
  · split at h
    · obtain rfl := Option.some.inj h
      exact .null ‹_› ‹_›
    · obtain rfl := Option.some.inj h
      exact .added ‹_› ‹_›
  · split at h
    · split at h
      · obtain rfl := Option.some.inj h
        exact .join ‹_› ‹_› (.inl ‹_›)
      · split at h
        · obtain rfl := Option.some.inj h
          exact .join ‹_› ‹_› (.inr ‹_›)
        · cases h
    · split at h
      · rename_i hi _ w hst
        obtain rfl := Option.some.inj h
        refine .ret hst hi rfl rfl (.inr (.last w)) ?_
        intro v hv
        by_cases hvw : v = w
        · exact .inr (by rw [hvw])
        · have hv : Function.update s.pool.lastWorker w true v = true := hv
          rw [Function.update_of_ne hvw] at hv
          exact .inl hv
      · obtain rfl := Option.some.inj h
        exact .ret ‹_› ‹_› rfl rfl (.inl rfl) fun _ hv => .inl hv
  · cases h

theorem step_turn (h : step n s l = some s') : Turn n s l s' := by
  cases l with
  | addTask caller cb =>
      simp only [step] at h
      split at h
      · obtain rfl := Option.some.inj h
        exact .addTask caller cb
      · cases h
  | worker w =>
      simp only [step] at h
      split at h
      · rename_i hw
        obtain ⟨p, hp, rfl⟩ := Option.map_eq_some_iff.mp h
        exact .worker hw.1 hw.2 hp
      · cases h
  | stop caller =>
      simp only [step] at h
      split at h
      · split at h
        · obtain rfl := Option.some.inj h
          exact .stop caller ‹_› ‹_›
        · cases h
      · cases h
  | stopStep => exact stopStep_turn h

structure StopInv (n : ℕ) (s : State) : Prop where
  inv : s.pool.Inv n
  nulls : s.pool.Nulls n
  /-- The task that has called `stop()` is still running. -/
  running : ∀ w, s.stop.inside = some w → w < n ∧ ∃ x, s.pool.pc w = .run x
  last : ∀ w, s.pool.lastWorker w = true → s.stop = .returned (some w)
  joined : ∀ c i, s.stop = .joining c i → ∀ w < i, some w ≠ c → s.pool.pc w = .exited

theorem StopInv.turn (h : StopInv n s) (ht : Turn n s l s') : StopInv n s' := by
  cases ht with
  | addTask caller cb =>
      have hm := Pool.addTask_move (n := n) s.pool cb
      obtain ⟨hpc, hl⟩ := s.pool.addTask_keeps cb
      refine ⟨h.inv.move hm, h.nulls.move h.inv hm, ?_, ?_, ?_⟩
      · rw [hpc]
        exact h.running
      · rw [hl]
        exact h.last
      · rw [hpc]
        exact h.joined
  | @worker w p hw hin hp =>
      have hm := Pool.workerStep_move hw hp
      obtain ⟨hpc, hl, hexit⟩ := Pool.workerStep_keeps hp
      refine ⟨h.inv.move hm, h.nulls.move h.inv hm, ?_, ?_, ?_⟩
      · intro v hv
        rw [show (⟨p, s.stop⟩ : State).pool.pc v = s.pool.pc v from
          hpc v (by rintro rfl; exact hin hv)]
        exact h.running v hv
      · rw [hl]
        exact h.last
      · intro c i hst v hv hc
        have hvx := h.joined c i hst v hv hc
        rw [show (⟨p, s.stop⟩ : State).pool.pc v = s.pool.pc v from
          hpc v (by rintro rfl; exact hexit hvx)]
        exact hvx
  | stop c hidle hc =>
      refine ⟨h.inv, h.nulls, ?_, ?_, nofun⟩
      · rintro w hw
        have hcall := hc w hw
        unfold State.calls at hcall
        split at hcall
        · simp only [decide_eq_true_eq] at hcall
          exact ⟨hcall.1, _, ‹_›⟩
        · cases hcall
      · intro w hw
        have hlast := h.last w hw
        rw [hidle] at hlast
        cases hlast
  | @null c i hst hi =>
      have hm := Pool.addTask_move (n := n) s.pool none
      obtain ⟨hpc, hl⟩ := s.pool.addTask_keeps none
      refine ⟨h.inv.move hm, h.nulls.move h.inv hm, ?_, ?_, nofun⟩
      · rw [hpc]
        intro w hw
        exact h.running w (by rw [hst]; exact hw)
      · rw [hl]
        intro w hw
        have hlast := h.last w hw
        rw [hst] at hlast
        cases hlast
  | @added c i hst hi =>
      refine ⟨h.inv, h.nulls, ?_, ?_, ?_⟩
      · intro w hw
        exact h.running w (by rw [hst]; exact hw)
      · intro w hw
        have hlast := h.last w hw
        rw [hst] at hlast
        cases hlast
      · intro c' k hst' w hw
        cases hst'
        exact absurd hw (Nat.not_lt_zero w)
  | @join c i hst hi hj =>
      refine ⟨h.inv, h.nulls, ?_, ?_, ?_⟩
      · intro w hw
        exact h.running w (by rw [hst]; exact hw)
      · intro w hw
        have hlast := h.last w hw
        rw [hst] at hlast
        cases hlast
      · intro c' k hst' w hw hc
        cases hst'
        rcases Nat.lt_succ_iff_lt_or_eq.mp hw with hlt | rfl
        · exact h.joined c i hst w hlt hc
        · exact hj.resolve_left fun heq => hc heq.symm
  | @ret c i p hst hi hpc hf hm hl =>
      have hpool : p.Inv n ∧ p.Nulls n := by
        rcases hm with rfl | hm
        · exact ⟨h.inv, h.nulls⟩
        · exact ⟨h.inv.move hm, h.nulls.move h.inv hm⟩
      refine ⟨hpool.1, hpool.2, nofun, ?_, nofun⟩
      intro w hw
      rcases hl w hw with hold | rfl
      · have hlast := h.last w hold
        rw [hst] at hlast
        cases hlast
      · rfl

theorem init_stopInv (n : ℕ) : StopInv n ⟨.new n, .idle⟩ := by
  refine ⟨Pool.new_inv n, Pool.new_nulls n, nofun, ?_, nofun⟩
  rw [Pool.new_eq]
  nofun

end

/-! ## What is left to take tasks -/

namespace Pool

/-- The worker has not exited and was not assigned a `NULL` task. -/
def serves (p : Pool) (w : ℕ) : Bool :=
  match p.pc w with
  | .wait => !(p.hasTask w && (p.task w).isNull)
  | .taken => !(p.task w).isNull
  | .exited => false
  | _ => true

/-- The workers other than the caller of `stop()`. -/
def others (n : ℕ) (c : Option ℕ) : Finset ℕ := (Finset.range n).filter fun w => some w ≠ c

/-- How many workers other than the caller will go on taking tasks. -/
def serving (n : ℕ) (p : Pool) (c : Option ℕ) : ℕ :=
  ((others n c).filter fun w => p.serves w = true).card

/-- There are more such workers than `NULL` tasks in front of any task in
the queue. -/
def Drains (n : ℕ) (p : Pool) (c : Option ℕ) : Prop :=
  ∀ pre x post, p.dispatchQueue = pre ++ x :: post → x.isNull = false →
    pre.countP Task.isNull < p.serving n c

theorem mem_others {n w : ℕ} {c : Option ℕ} : w ∈ others n c ↔ w < n ∧ some w ≠ c := by
  rw [others, Finset.mem_filter, Finset.mem_range]

theorem serves_iff {n w : ℕ} {p : Pool} (h : p.Nulls n) (hinv : p.Inv n)
    (hl : p.lastWorker w = false) : p.serves w = true ↔ w ∉ p.nullWorkers := by
  constructor
  · intro hs hmem
    rcases h.held w hmem with ⟨ht, hx⟩ | ⟨hpc, hx⟩ | hpc
    · simp [serves, (hinv.hasTask w ht).2, ht, hx] at hs
    · simp [serves, hpc, hx] at hs
    · simp [serves, hpc] at hs
  · intro hmem
    unfold serves
    split
    · rename_i hpc
      by_contra hc
      simp only [Bool.not_eq_true', Bool.not_eq_false, Bool.and_eq_true] at hc
      exact hmem (h.wait w hc.1 hc.2)
    · rename_i hpc
      by_contra hc
      simp only [Bool.not_eq_true', Bool.not_eq_false] at hc
      exact hmem (h.taken w hpc hc)
    · rename_i hpc
      rcases h.exited w hpc with hc | hc
      · exact absurd hc hmem
      · rw [hl] at hc
        cases hc
    · rfl

end Pool

/-! ## From the call to the return -/

section

variable {n : ℕ} {s s' : State} {l : Act} {c : Option ℕ}

theorem Turn.ofStop (h : Turn n s (.stop c) s') : s.stop = .idle ∧ s' = ⟨s.pool, .adding c 0⟩ := by
  cases h with
  | stop _ hidle hc => exact ⟨hidle, rfl⟩

/-- While `stop()` is pending its caller stays where it is. -/
theorem Turn.pending (h : s.stop.pending c) (ht : Turn n s l s') :
    (s'.stop.pending c ∨ s'.stop = .returned c) ∧ ∀ w ∈ c, s'.pool.pc w = s.pool.pc w := by
  cases ht with
  | addTask caller cb =>
      refine ⟨.inl h, fun w _ => ?_⟩
      rw [(s.pool.addTask_keeps cb).1]
  | @worker v p hv hin hp =>
      refine ⟨.inl h, fun w hw => (Pool.workerStep_keeps hp).1 w ?_⟩
      rintro rfl
      apply hin
      cases hst : s.stop with
      | idle => rw [hst] at h; cases h
      | adding caller i => rw [hst] at h; exact (show caller = c from h).trans hw
      | joining caller i => rw [hst] at h; exact (show caller = c from h).trans hw
      | returned caller => rw [hst] at h; cases h
  | stop c' hidle hc =>
      rw [hidle] at h
      cases h
  | null hst hi =>
      rw [hst] at h
      refine ⟨.inl h, fun w _ => ?_⟩
      rw [(s.pool.addTask_keeps none).1]
  | added hst hi =>
      rw [hst] at h
      exact ⟨.inl h, fun _ _ => rfl⟩
  | join hst hi hj =>
      rw [hst] at h
      exact ⟨.inl h, fun _ _ => rfl⟩
  | ret hst hi hpc hf hm hl =>
      rw [hst] at h
      exact ⟨.inr (congrArg _ h), fun w _ => congrFun hpc w⟩

theorem Turn.returned (h : s.stop = .returned c) (ht : Turn n s l s') : s'.stop = .returned c := by
  cases ht with
  | addTask caller cb => exact h
  | worker hw hin hp => exact h
  | stop c' hidle hc =>
      rw [hidle] at h
      cases h
  | null hst hi => rw [hst] at h; cases h
  | added hst hi => rw [hst] at h; cases h
  | join hst hi hj => rw [hst] at h; cases h
  | ret hst hi hpc hf hm hl => rw [hst] at h; cases h

/-- The step with which `stop()` returns. -/
theorem Turn.return (h : s.stop ≠ .returned c) (hret : s'.stop = .returned c) (ht : Turn n s l s') :
    ∃ i, s.stop = .joining c i ∧ ¬i < n ∧ s'.pool.pc = s.pool.pc
      ∧ s'.pool.finished = s.pool.finished := by
  cases ht with
  | addTask caller cb => exact absurd hret h
  | worker hw hin hp => exact absurd hret h
  | stop c' hidle hc => cases hret
  | null hst hi => cases hret
  | added hst hi => cases hret
  | join hst hi hj => cases hret
  | ret hst hi hpc hf hm hl =>
      cases hret
      exact ⟨_, hst, hi, hpc, hf⟩

end

/-- A run in which `stop()` is called and returns. -/
structure StopCall (n : ℕ) where
  run : (machine n).Run fun _ _ => True
  caller : Option ℕ
  call : ℕ
  ret : ℕ
  call_lt : call < ret
  ret_lt : ret < run.len
  called : run.act call = .stop caller
  pending : (run.st ret).stop ≠ .returned caller
  returned : (run.st (ret + 1)).stop = .returned caller

namespace StopCall

variable {n : ℕ} (k : StopCall n)

/-- The pool after `i` steps. -/
def pool (i : ℕ) : Pool := (k.run.st i).pool

/-- When `stop()` returns, every task added before it was called has been
run once, the calling one excepted, and the other workers have exited. -/
def Drained : Prop :=
  (∀ x ∈ (k.pool k.call).added, x.isNull = false →
      (∀ w ∈ k.caller, (k.pool k.call).pc w ≠ .run x) →
      (k.pool (k.ret + 1)).finished.count x = 1)
    ∧ ∀ w < n, some w ≠ k.caller → (k.pool (k.ret + 1)).pc w = .exited

theorem turn {i : ℕ} (hi : i < k.run.len) : Turn n (k.run.st i) (k.run.act i) (k.run.st (i + 1)) :=
  step_turn (k.run.step i hi)

theorem inv : ∀ i ≤ k.run.len, StopInv n (k.run.st i) := by
  refine k.run.invariant ?_ fun i hi h => h.turn (k.turn hi)
  rw [show k.run.st 0 = ⟨.new n, .idle⟩ from k.run.init]
  exact init_stopInv n

theorem poolInv {i : ℕ} (hi : i ≤ k.run.len) : (k.pool i).Inv n := (k.inv i hi).inv

theorem poolNulls {i : ℕ} (hi : i ≤ k.run.len) : (k.pool i).Nulls n := (k.inv i hi).nulls

/-- A step on the pool. -/
theorem poolMove {i : ℕ} (hi : i < k.run.len) :
    k.pool (i + 1) = k.pool i ∨ (k.pool i).Move n (k.pool (i + 1)) := step_move (k.run.step i hi)

theorem call_len : k.call < k.run.len := Nat.lt_trans k.call_lt k.ret_lt

theorem idle_at_call : (k.run.st k.call).stop = .idle
    ∧ k.run.st (k.call + 1) = ⟨k.pool k.call, .adding k.caller 0⟩ := by
  have ht := k.turn k.call_len
  rw [k.called] at ht
  exact ht.ofStop

theorem not_returned {i : ℕ} (hi : i ≤ k.ret) : (k.run.st i).stop ≠ .returned k.caller := by
  intro heq
  have hstay : ∀ d, i + d ≤ k.run.len → (k.run.st (i + d)).stop = .returned k.caller := by
    intro d
    induction d with
    | zero => exact fun _ => heq
    | succ d ih => exact fun hd => (k.turn (Nat.lt_of_succ_le hd)).returned (ih (by omega))
  have hret := hstay (k.ret - i) (by have := k.ret_lt; omega)
  rw [Nat.add_sub_cancel' hi] at hret
  exact k.pending hret

theorem pending_between {i : ℕ} (hlo : k.call < i) (hhi : i ≤ k.ret) :
    (k.run.st i).stop.pending k.caller
      ∧ ∀ w ∈ k.caller, (k.pool i).pc w = (k.pool k.call).pc w := by
  induction i, hlo using Nat.le_induction with
  | base =>
      rw [pool, k.idle_at_call.2]
      exact ⟨rfl, fun _ _ => rfl⟩
  | succ i hi ih =>
      obtain ⟨hp, hpc⟩ := ih (Nat.le_of_succ_le hhi)
      obtain ⟨hp', hpc'⟩ := (k.turn (by have := k.ret_lt; omega)).pending hp
      refine ⟨hp'.resolve_right (k.not_returned hhi), fun w hw => ?_⟩
      exact (hpc' w hw).trans (hpc w hw)

/-- The caller, if it is a worker, is running its task all the time. -/
theorem caller_runs {i : ℕ} (hlo : k.call ≤ i) (hhi : i ≤ k.ret) :
    ∀ w ∈ k.caller, w < n ∧ ∃ x, (k.pool i).pc w = .run x := by
  intro w hw
  have hlen := k.ret_lt
  have hcall : w < n ∧ ∃ x, (k.pool k.call).pc w = .run x := by
    have hrun := (k.inv (k.call + 1) (by have := k.call_len; omega)).running w
    rw [k.idle_at_call.2] at hrun
    exact hrun hw
  rcases Nat.eq_or_lt_of_le hlo with rfl | hlt
  · exact hcall
  · rw [(k.pending_between hlt hhi).2 w hw]
    exact hcall

theorem joined_at_ret : ∀ w < n, some w ≠ k.caller → (k.pool k.ret).pc w = .exited := by
  obtain ⟨i, hst, hi, -, -⟩ := (k.turn k.ret_lt).return k.pending k.returned
  intro w hw hc
  exact (k.inv k.ret (Nat.le_of_lt k.ret_lt)).joined _ i hst w (by omega) hc

theorem pool_after_ret : (k.pool (k.ret + 1)).pc = (k.pool k.ret).pc
    ∧ (k.pool (k.ret + 1)).finished = (k.pool k.ret).finished := by
  obtain ⟨i, -, -, hpc, hf⟩ := (k.turn k.ret_lt).return k.pending k.returned
  exact ⟨hpc, hf⟩

/-! ## Counting -/

/-- The tasks assigned in the first `i` steps. -/
def tasks (i : ℕ) : List Task := (k.pool i).assigned.map Prod.fst

theorem grows {i j : ℕ} (hij : i ≤ j) (hj : j ≤ k.run.len) :
    k.tasks i <+: k.tasks j ∧ (k.pool i).added <+: (k.pool j).added := by
  induction j, hij using Nat.le_induction with
  | base => exact ⟨List.prefix_refl _, List.prefix_refl _⟩
  | succ j hij ih =>
      obtain ⟨ha, hd⟩ := ih (Nat.le_of_succ_le hj)
      rcases k.poolMove hj with heq | hm
      · rw [show k.tasks (j + 1) = k.tasks j by rw [tasks, heq, tasks], heq]
        exact ⟨ha, hd⟩
      · exact ⟨ha.trans (hm.grows.1.map Prod.fst), hd.trans hm.grows.2⟩

theorem order {i : ℕ} (hi : i ≤ k.run.len) :
    k.tasks i ++ (k.pool i).dispatchQueue = (k.pool i).added := (k.poolInv hi).order

/-- The workers with a `NULL` task are never the caller. -/
theorem nullWorkers_subset {i : ℕ} (hlo : k.call ≤ i) (hhi : i ≤ k.ret) :
    (k.pool i).nullWorkers.toFinset ⊆ Pool.others n k.caller := by
  have hlen : i ≤ k.run.len := by have := k.ret_lt; omega
  intro w hw
  rw [List.mem_toFinset] at hw
  rw [Pool.mem_others]
  refine ⟨(k.poolNulls hlen).lt w hw, fun hc => ?_⟩
  obtain ⟨-, x, hpc⟩ := k.caller_runs hlo hhi w hc.symm
  exact (k.poolNulls hlen).not_mem ((k.poolInv hlen).hasTask_false (by simp [hpc])) (by simp [hpc])
    (by simp [hpc]) hw

theorem card_nullWorkers {i : ℕ} (hi : i ≤ k.run.len) :
    (k.pool i).nullWorkers.toFinset.card = (k.tasks i).countP Task.isNull := by
  rw [List.toFinset_card_of_nodup (k.poolNulls hi).nodup, Pool.length_nullWorkers, tasks]

/-- When the joins are over, the other workers have all been assigned a
`NULL` task. -/
theorem nulls_at_ret : (k.tasks k.ret).countP Task.isNull = (Pool.others n k.caller).card := by
  have hinv := k.inv k.ret (Nat.le_of_lt k.ret_lt)
  rw [← k.card_nullWorkers (Nat.le_of_lt k.ret_lt)]
  refine congrArg _ (Finset.Subset.antisymm
    (k.nullWorkers_subset (Nat.le_of_lt k.call_lt) (Nat.le_refl _)) ?_)
  intro w hw
  obtain ⟨hlt, hc⟩ := Pool.mem_others.mp hw
  rw [List.mem_toFinset]
  refine (hinv.nulls.exited w (k.joined_at_ret w hlt hc)).resolve_right fun hlast => ?_
  have hret := hinv.last w hlast
  obtain ⟨j, hst, -⟩ := (k.turn k.ret_lt).return k.pending k.returned
  rw [hst] at hret
  cases hret

/-- Those who have not when `stop()` is called are still to come. -/
theorem nulls_at_call : (k.tasks k.call).countP Task.isNull + (k.pool k.call).serving n k.caller
    = (Pool.others n k.caller).card := by
  have hlen := Nat.le_of_lt k.call_len
  have hinv := k.inv k.call hlen
  have hlast : ∀ w, (k.pool k.call).lastWorker w = false := by
    intro w
    rw [Bool.eq_false_iff]
    intro hl
    have hret := hinv.last w hl
    rw [k.idle_at_call.1] at hret
    cases hret
  have hsub := k.nullWorkers_subset (Nat.le_refl _) (Nat.le_of_lt k.call_lt)
  rw [← k.card_nullWorkers hlen, Pool.serving, ← Finset.card_union_of_disjoint]
  · refine congrArg _ (Finset.Subset.antisymm ?_ ?_)
    · exact Finset.union_subset hsub (Finset.filter_subset _ _)
    · intro w hw
      rw [Finset.mem_union, Finset.mem_filter, List.mem_toFinset,
        Pool.serves_iff (k.poolNulls hlen) (k.poolInv hlen) (hlast w)]
      by_cases hmem : w ∈ (k.pool k.call).nullWorkers
      · exact .inl hmem
      · exact .inr ⟨hw, hmem⟩
  · rw [Finset.disjoint_left]
    intro w hw hw'
    rw [List.mem_toFinset] at hw
    rw [Finset.mem_filter, Pool.serves_iff (k.poolNulls hlen) (k.poolInv hlen) (hlast w)] at hw'
    exact hw'.2 hw

/-- A task is assigned only while not all others have a `NULL` task. -/
theorem nulls_before {i : ℕ} (hlo : k.call ≤ i) (hhi : i ≤ k.ret) :
    ∀ p, (k.tasks k.call).length ≤ p → p < (k.tasks i).length →
      ((k.tasks i).take p).countP Task.isNull < (Pool.others n k.caller).card := by
  induction i, hlo using Nat.le_induction with
  | base =>
      intro p h₁ h₂
      omega
  | succ i hi ih =>
      have hlen : i < k.run.len := by have := k.ret_lt; omega
      have hold := ih (Nat.le_of_succ_le hhi)
      rcases k.poolMove hlen with heq | hm
      · rw [show k.tasks (i + 1) = k.tasks i by rw [tasks, heq, tasks]]
        exact hold
      · rcases (k.poolInv (Nat.le_of_lt hlen)).assigned hm with hsame | ⟨x, w, hx, hfree⟩
        · rw [show k.tasks (i + 1) = k.tasks i by rw [tasks, hsame, tasks]]
          exact hold
        · have htasks : k.tasks (i + 1) = k.tasks i ++ [x] := by
            rw [tasks, hx, List.map_append, tasks]
            rfl
          intro p h₁ h₂
          rw [htasks, List.length_append, List.length_singleton] at h₂
          rcases Nat.lt_succ_iff_lt_or_eq.mp h₂ with hlt | rfl
          · rw [htasks, List.take_append_of_le_length (Nat.le_of_lt hlt)]
            exact hold p h₁ hlt
          · -- the new one: its worker is neither the caller nor has a `NULL` task
            rw [htasks, List.take_left, ← k.card_nullWorkers (Nat.le_of_lt hlen)]
            have hsub := k.nullWorkers_subset hi (Nat.le_of_succ_le hhi)
            refine Finset.card_lt_card ⟨hsub, fun hsup => ?_⟩
            have hw : w ∈ Pool.others n k.caller := by
              rw [Pool.mem_others]
              refine ⟨hfree.1, fun hc => ?_⟩
              obtain ⟨-, y, hpc⟩ := k.caller_runs hi (Nat.le_of_succ_le hhi) w hc.symm
              rcases hfree.2.2 with hpc' | hpc'
              · rw [hpc] at hpc'
                cases hpc'
              · rw [hpc] at hpc'
                cases hpc'
            have hnull := List.mem_toFinset.mp (hsup hw)
            exact (k.poolNulls (Nat.le_of_lt hlen)).not_mem_free hfree hnull

/-! ## Draining -/

/-- A task in the queue at the call is assigned until the return, or all
that was assigned is in front of it. -/
theorem assigned_or {pre post : List Task} {x : Task}
    (hq : (k.pool k.call).dispatchQueue = pre ++ x :: post) :
    k.tasks k.call ++ (pre ++ [x]) <+: k.tasks k.ret ∨ k.tasks k.ret <+: k.tasks k.call ++ pre := by
  have hret := Nat.le_of_lt k.ret_lt
  have h₁ : k.tasks k.call ++ (pre ++ [x]) <+: (k.pool k.ret).added := by
    refine List.IsPrefix.trans ?_ (k.grows (Nat.le_of_lt k.call_lt) hret).2
    rw [← k.order (Nat.le_of_lt k.call_len), hq]
    exact ⟨post, by simp⟩
  have h₂ : k.tasks k.ret <+: (k.pool k.ret).added := by
    rw [← k.order hret]
    exact List.prefix_append ..
  rcases Nat.lt_or_ge (k.tasks k.call ++ pre).length (k.tasks k.ret).length with hlt | hge
  · left
    refine List.prefix_of_prefix_length_le h₁ h₂ ?_
    rw [List.length_append] at hlt ⊢
    rw [List.length_append, List.length_singleton]
    omega
  · right
    refine List.prefix_of_prefix_length_le h₂ (List.IsPrefix.trans ?_ h₁) hge
    exact ⟨[x], by simp⟩

/-- What was assigned is finished at the return, but for the calling
task. -/
theorem finished_of_assigned {x : Task} (hx : x ∈ k.tasks k.ret)
    (hcall : ∀ w ∈ k.caller, (k.pool k.call).pc w ≠ .run x) :
    (k.pool k.ret).finished.count x = 1 := by
  have hret := Nat.le_of_lt k.ret_lt
  have hinv := k.poolInv hret
  have hmem : x ∈ (k.pool k.ret).added := by
    rw [← k.order hret]
    exact List.mem_append_left _ hx
  have hnodup := hinv.nodup_added
  have hplace := hinv.place x
  rw [List.count_eq_one_of_mem hnodup hmem] at hplace
  have hqueue : (k.pool k.ret).dispatchQueue.count x = 0 := by
    rw [List.count_eq_zero]
    intro hq
    rw [← k.order hret] at hnodup
    exact List.disjoint_of_nodup_append hnodup hx hq
  have hheld : ∑ w ∈ Finset.range n, ((k.pool k.ret).held w).count x = 0 := by
    refine Finset.sum_eq_zero fun w hw => ?_
    by_cases hc : some w = k.caller
    · obtain ⟨-, y, hpc⟩ := k.caller_runs (Nat.le_of_lt k.call_lt) (Nat.le_refl _) w hc.symm
      have hne := hcall w hc.symm
      rw [← (k.pending_between k.call_lt (Nat.le_refl _)).2 w hc.symm, hpc, Ne, Pc.run.injEq] at hne
      simp [Pool.held, hpc, hne]
    · simp [Pool.held, k.joined_at_ret w (Finset.mem_range.mp hw) hc]
  rw [Pool.places] at hplace
  omega

theorem drained_of_drains (h : (k.pool k.call).Drains n k.caller) : k.Drained := by
  obtain ⟨hpc, hf⟩ := k.pool_after_ret
  refine ⟨fun x hx hnull hcall => ?_, ?_⟩
  · rw [hf]
    refine k.finished_of_assigned ?_ hcall
    rw [← k.order (Nat.le_of_lt k.call_len), List.mem_append] at hx
    rcases hx with hx | hx
    · exact (k.grows (Nat.le_of_lt k.call_lt) (Nat.le_of_lt k.ret_lt)).1.subset hx
    · obtain ⟨pre, post, hq⟩ := List.append_of_mem hx
      rcases k.assigned_or hq with hpre | hpre
      · exact hpre.subset (by simp)
      · -- too few `NULL` tasks have been assigned for the joins
        have hle : (k.tasks k.ret).countP Task.isNull ≤ _ := hpre.sublist.countP_le
        have hlt := h pre x post hq hnull
        have hcount := k.nulls_at_call
        rw [List.countP_append, k.nulls_at_ret] at hle
        omega
  · rw [hpc]
    exact k.joined_at_ret

theorem drains_of_drained (h : k.Drained) : (k.pool k.call).Drains n k.caller := by
  intro pre x post hq hnull
  have hlen := Nat.le_of_lt k.call_len
  have hinv := k.poolInv hlen
  have hadded : x ∈ (k.pool k.call).added := by
    rw [← k.order hlen, hq]
    simp
  have hnodup := hinv.nodup_added
  -- the calling task is with a worker, not in the queue
  have hcall : ∀ w ∈ k.caller, (k.pool k.call).pc w ≠ .run x := by
    intro w hw hpc
    have hplace := hinv.place x
    rw [List.count_eq_one_of_mem hnodup hadded] at hplace
    have hheld : 1 ≤ ∑ v ∈ Finset.range n, ((k.pool k.call).held v).count x := by
      have hlt := (k.caller_runs (Nat.le_refl _) (Nat.le_of_lt k.call_lt) w hw).1
      rw [← Finset.add_sum_erase _ _ (Finset.mem_range.mpr hlt)]
      simp [Pool.held, hpc]
    have hqueue : 1 ≤ (k.pool k.call).dispatchQueue.count x := by
      rw [Nat.succ_le_iff, List.count_pos_iff, hq]
      simp
    rw [Pool.places] at hplace
    omega
  have hfin := h.1 x hadded hnull hcall
  rw [k.pool_after_ret.2] at hfin
  rcases k.assigned_or hq with hpre | hpre
  · -- `x` was assigned, with the tasks of `pre` in front of it
    have hpos : (k.tasks k.call ++ pre).length < (k.tasks k.ret).length := by
      have hle := hpre.length_le
      simp only [List.length_append, List.length_singleton] at hle ⊢
      omega
    have hlt := k.nulls_before (Nat.le_of_lt k.call_lt) (Nat.le_refl _) _
      (by rw [List.length_append]; omega) hpos
    have htake : (k.tasks k.ret).take (k.tasks k.call ++ pre).length = k.tasks k.call ++ pre := by
      rw [← List.append_assoc] at hpre
      exact (List.prefix_iff_eq_take.mp ((List.prefix_append _ [x]).trans hpre)).symm
    have hcount := k.nulls_at_call
    rw [htake, List.countP_append] at hlt
    omega
  · -- then `x` is still in the queue
    have hret := Nat.le_of_lt k.ret_lt
    have hadded' : x ∈ (k.pool k.ret).added :=
      (k.grows (Nat.le_of_lt k.call_lt) hret).2.subset hadded
    have hplace := (k.poolInv hret).place x
    rw [List.count_eq_one_of_mem (k.poolInv hret).nodup_added hadded', Pool.places, hfin] at hplace
    have hqueue : x ∉ (k.pool k.ret).dispatchQueue := by
      rw [← List.count_eq_zero]
      omega
    rw [← k.order hret, List.mem_append] at hadded'
    have hmem := hpre.subset (hadded'.resolve_right hqueue)
    rw [← k.order hlen, hq, ← List.append_assoc] at hnodup
    exact absurd List.mem_cons_self (List.disjoint_of_nodup_append hnodup hmem)

/-- **`stop()` drains the pool exactly when more workers than `NULL`
tasks are left for every task in the queue.** -/
theorem stop_drains_iff : k.Drained ↔ (k.pool k.call).Drains n k.caller :=
  ⟨k.drains_of_drained, k.drained_of_drains⟩

end StopCall

instance : Inhabited Act := ⟨.stopStep⟩

/-- Two workers. The task of worker 0 calls `stop()` while task 2 waits. -/
def twoWorkers : List Act :=
  [.addTask none (some 7), .addTask none (some 8), .addTask none (some 9), .worker 0, .worker 0,
    .worker 0, .stop (some 0), .stopStep, .stopStep, .stopStep]
  ++ List.replicate 12 (.worker 1) ++ List.replicate 3 .stopStep

theorem twoWorkers_runs :
    ((machine 2).exec (fun _ _ => True) ⟨.new 2, .idle⟩ twoWorkers).isSome = true := by
  decide

def twoWorkersCall : StopCall 2 where
  run := .ofExec ⟨.new 2, .idle⟩ twoWorkers rfl twoWorkers_runs
  caller := some 0
  call := 6
  ret := 24
  call_lt := by decide
  ret_lt := by decide
  called := rfl
  pending := by decide
  returned := by decide

/-- Worker 1 is there for task 2. -/
theorem twoWorkers_drained :
    (twoWorkersCall.pool 6).dispatchQueue = [⟨2, some 9⟩] ∧ twoWorkersCall.Drained := by
  have hqueue : (twoWorkersCall.pool 6).dispatchQueue = [⟨2, some 9⟩] := by decide
  have hserving : 0 < (twoWorkersCall.pool 6).serving 2 (some 0) := by decide
  refine ⟨hqueue, twoWorkersCall.stop_drains_iff.mpr fun pre x post hq _ => ?_⟩
  obtain ⟨rfl, -⟩ | ⟨-, hnil⟩ := List.append_eq_singleton_iff.mp (hq.symm.trans hqueue)
  · exact hserving
  · cases hnil

/-- One worker. Its task 0 calls `stop()` while task 1 waits. -/
def loneWorker : List Act :=
  [.addTask none (some 7), .addTask none (some 8), .worker 0, .worker 0, .worker 0, .stop (some 0),
    .stopStep, .stopStep, .stopStep, .stopStep]

theorem loneWorker_runs :
    ((machine 1).exec (fun _ _ => True) ⟨.new 1, .idle⟩ loneWorker).isSome = true := by
  decide

def loneWorkerCall : StopCall 1 where
  run := .ofExec ⟨.new 1, .idle⟩ loneWorker rfl loneWorker_runs
  caller := some 0
  call := 5
  ret := 9
  call_lt := by decide
  ret_lt := by decide
  called := rfl
  pending := by decide
  returned := by decide

/-- Task 1, added before the call, is not run. -/
theorem loneWorker_not_drained :
    ⟨1, some 8⟩ ∈ (loneWorkerCall.pool 5).added ∧ (loneWorkerCall.pool 10).finished = []
      ∧ ¬loneWorkerCall.Drained := by
  have hadd : ⟨1, some 8⟩ ∈ (loneWorkerCall.pool 5).added := by decide
  have hfin : (loneWorkerCall.pool 10).finished = [] := by decide
  refine ⟨hadd, hfin, fun h => ?_⟩
  have hone := h.1 ⟨1, some 8⟩ hadd rfl (by decide)
  rw [show loneWorkerCall.ret + 1 = 10 from rfl, hfin] at hone
  cases hone

end ThreadPool

end HttpServer
