import HttpServer.ThreadPool
import Mathlib.Data.List.Nodup

/-!
# Requests to stop a worker

A `NULL` task is a request to stop the worker it is assigned to. A worker
takes at most one, and one that has exited has taken one or was told to
exit as the last worker (`Nulls`). Like the dispatch invariant this holds
whoever adds the tasks.
-/

namespace HttpServer

namespace ThreadPool

namespace Pool

/-- The workers that were assigned a `NULL` task. -/
def nullWorkers (p : Pool) : List ℕ := (p.assigned.filter fun e => e.1.isNull).map Prod.snd

theorem length_nullWorkers (p : Pool) :
    p.nullWorkers.length = (p.assigned.map Prod.fst).countP Task.isNull := by
  rw [nullWorkers, List.length_map, List.countP_map, List.countP_eq_length_filter]
  rfl

structure Nulls (n : ℕ) (p : Pool) : Prop where
  nodup : p.nullWorkers.Nodup
  lt : ∀ w ∈ p.nullWorkers, w < n
  /-- A worker with a `NULL` task takes no other. -/
  held : ∀ w ∈ p.nullWorkers, (p.hasTask w = true ∧ (p.task w).isNull = true)
    ∨ (p.pc w = .taken ∧ (p.task w).isNull = true) ∨ p.pc w = .exited
  wait : ∀ w, p.hasTask w = true → (p.task w).isNull = true → w ∈ p.nullWorkers
  taken : ∀ w, p.pc w = .taken → (p.task w).isNull = true → w ∈ p.nullWorkers
  exited : ∀ w, p.pc w = .exited → w ∈ p.nullWorkers ∨ p.lastWorker w = true

section

variable {n w : ℕ} {p p' : Pool}

/-- A worker that is free or in the middle of a task has no `NULL` task. -/
theorem Nulls.not_mem (h : p.Nulls n) (ht : p.hasTask w = false) (htaken : p.pc w ≠ .taken)
    (hexit : p.pc w ≠ .exited) : w ∉ p.nullWorkers := by
  intro hw
  rcases h.held w hw with ⟨ht', -⟩ | ⟨hpc, -⟩ | hpc
  · rw [ht] at ht'
    cases ht'
  · exact htaken hpc
  · exact hexit hpc

theorem Nulls.not_mem_free (h : p.Nulls n) (hf : p.Free n w) : w ∉ p.nullWorkers := by
  obtain ⟨-, ht, hpc | hpc⟩ := hf
  · exact h.not_mem ht (by simp [hpc]) (by simp [hpc])
  · exact h.not_mem ht (by simp [hpc]) (by simp [hpc])

/-- A move at `w` that assigns nothing. -/
theorem Nulls.moveAt (h : p.Nulls n) (ho : Only w p p') (hl : p'.lastWorker = p.lastWorker)
    (ha : p'.assigned = p.assigned)
    (held : w ∈ p.nullWorkers → (p'.hasTask w = true ∧ (p'.task w).isNull = true)
      ∨ (p'.pc w = .taken ∧ (p'.task w).isNull = true) ∨ p'.pc w = .exited)
    (wait : p'.hasTask w = true → (p'.task w).isNull = true → w ∈ p.nullWorkers)
    (taken : p'.pc w = .taken → (p'.task w).isNull = true → w ∈ p.nullWorkers)
    (exited : p'.pc w = .exited → w ∈ p.nullWorkers ∨ p.lastWorker w = true) : p'.Nulls n := by
  have hnull : p'.nullWorkers = p.nullWorkers := by rw [nullWorkers, nullWorkers, ha]
  refine ⟨?_, ?_, ?_, ?_, ?_, ?_⟩
  · rw [hnull]
    exact h.nodup
  · rw [hnull]
    exact h.lt
  · rw [hnull]
    intro v hv
    by_cases hvw : v = w
    · rw [hvw] at hv ⊢
      exact held hv
    · rw [ho.hasTask v hvw, ho.task v hvw, ho.pc v hvw]
      exact h.held v hv
  · rw [hnull]
    intro v
    by_cases hvw : v = w
    · rw [hvw]
      exact wait
    · rw [ho.hasTask v hvw, ho.task v hvw]
      exact h.wait v
  · rw [hnull]
    intro v
    by_cases hvw : v = w
    · rw [hvw]
      exact taken
    · rw [ho.pc v hvw, ho.task v hvw]
      exact h.taken v
  · rw [hnull, hl]
    intro v
    by_cases hvw : v = w
    · rw [hvw]
      exact exited
    · rw [ho.pc v hvw]
      exact h.exited v

theorem nullWorkers_concat {x : Task} (ha : p'.assigned = p.assigned ++ [(x, w)]) :
    p'.nullWorkers = p.nullWorkers ++ if x.isNull then [w] else [] := by
  rw [nullWorkers, ha, List.filter_append, List.map_append, nullWorkers]
  cases hx : x.isNull <;> simp [hx]

/-- A move that assigns a task to a free worker. -/
theorem Nulls.assign (h : p.Nulls n) {x : Task} (hf : p.Free n w) (ho : Only w p p')
    (hl : p'.lastWorker = p.lastWorker) (ha : p'.assigned = p.assigned ++ [(x, w)])
    (hpc : p'.pc w = .wait) (ht : p'.hasTask w = true) (hx : p'.task w = x) : p'.Nulls n := by
  have hnot := h.not_mem_free hf
  have hnull := nullWorkers_concat ha
  have hmem : ∀ v, v ∈ p'.nullWorkers ↔ v ∈ p.nullWorkers ∨ (v = w ∧ x.isNull = true) := by
    intro v
    rw [hnull, List.mem_append]
    cases hxn : x.isNull <;> simp
  refine ⟨?_, ?_, ?_, ?_, ?_, ?_⟩
  · rw [hnull]
    cases x.isNull with
    | false => simpa using h.nodup
    | true => exact h.nodup.append (List.nodup_singleton w) (by simpa using hnot)
  · intro v hv
    rcases (hmem v).mp hv with hv | ⟨rfl, -⟩
    · exact h.lt v hv
    · exact hf.1
  · intro v hv
    rcases (hmem v).mp hv with hv | ⟨rfl, hxn⟩
    · have hvw : v ≠ w := by
        rintro rfl
        exact hnot hv
      rw [ho.hasTask v hvw, ho.task v hvw, ho.pc v hvw]
      exact h.held v hv
    · rw [hx]
      exact .inl ⟨ht, hxn⟩
  · intro v hv hvn
    rw [hmem]
    by_cases hvw : v = w
    · rw [hvw, hx] at hvn
      exact .inr ⟨hvw, hvn⟩
    · rw [ho.hasTask v hvw] at hv
      rw [ho.task v hvw] at hvn
      exact .inl (h.wait v hv hvn)
  · intro v hv hvn
    rw [hmem]
    by_cases hvw : v = w
    · rw [hvw, hpc] at hv
      cases hv
    · rw [ho.pc v hvw] at hv
      rw [ho.task v hvw] at hvn
      exact .inl (h.taken v hv hvn)
  · intro v hv
    rw [hmem, hl]
    by_cases hvw : v = w
    · rw [hvw, hpc] at hv
      cases hv
    · rw [ho.pc v hvw] at hv
      rcases h.exited v hv with hmem | hlast
      · exact .inl (.inl hmem)
      · exact .inr hlast

/-- A worker that is neither waiting nor at a `NULL` task goes on. -/
theorem Nulls.goOn (h : p.Nulls n) (hinv : p.Inv n) (ho : Only w p p')
    (hl : p'.lastWorker = p.lastWorker) (ha : p'.assigned = p.assigned)
    (ht : p'.hasTask w = p.hasTask w) (hx : p'.task w = p.task w) (hwait : p.pc w ≠ .wait)
    (htaken : p.pc w ≠ .taken) (hexited : p.pc w ≠ .exited) (htaken' : p'.pc w ≠ .taken)
    (hexited' : p'.pc w = .exited → p.lastWorker w = true) : p'.Nulls n := by
  have hnot := h.not_mem (hinv.hasTask_false hwait) htaken hexited
  refine h.moveAt ho hl ha (fun hc => absurd hc hnot) ?_ (fun hc => absurd hc htaken')
    fun hc => .inr (hexited' hc)
  rw [ht, hx]
  exact h.wait w

theorem Nulls.move (h : p.Nulls n) (hinv : p.Inv n) (hm : Move n p p') : p'.Nulls n := by
  cases hm with
  | @hand w ws cb hws =>
      have hmem : w ∈ p.workers := by
        rw [hws]
        exact List.mem_cons_self
      have hpc := ((hinv.mem w).mp hmem).2.1
      refine h.assign (hinv.free hmem) ?_ rfl rfl hpc ?_ ?_
      · refine Only.assignTask ?_ _
        exact only_of_eq rfl rfl rfl
      · exact Function.update_self ..
      · exact Function.update_self ..
  | enqueue cb hws => exact ⟨h.nodup, h.lt, h.held, h.wait, h.taken, h.exited⟩
  | @take w hw hpc ht =>
      refine h.moveAt (Only.goto (w := w) ?_ _) rfl rfl ?_ ?_ ?_ ?_
      · exact ⟨fun _ _ => rfl, fun v hv => Function.update_of_ne hv .., fun _ _ => rfl⟩
      · intro hmem
        rcases h.held w hmem with ⟨-, hx⟩ | ⟨hpc', -⟩ | hpc'
        · exact .inr (.inl ⟨goto_pc .., hx⟩)
        · rw [hpc] at hpc'
          cases hpc'
        · rw [hpc] at hpc'
          cases hpc'
      · simp [Pool.goto]
      · exact fun _ hx => h.wait w ht hx
      · simp
  | @exitNull w hw hpc hx =>
      refine h.moveAt (w := w) ?_ rfl rfl ?_ (h.wait w) ?_ ?_
      · refine Only.goto ?_ _
        exact only_of_eq rfl rfl rfl
      · exact fun _ => .inr (.inr (goto_pc ..))
      · simp
      · exact fun _ => .inl (h.taken w hpc hx)
  | @check w hw hpc hx =>
      refine h.moveAt (w := w) ?_ rfl rfl ?_ (h.wait w) ?_ ?_
      · refine Only.goto ?_ _
        exact only_of_eq rfl rfl rfl
      · intro hmem
        rcases h.held w hmem with hc | ⟨-, hx'⟩ | hpc'
        · exact .inl hc
        · rw [hx] at hx'
          cases hx'
        · rw [hpc] at hpc'
          cases hpc'
      · simp
      · simp
  | @call w hw hpc =>
      refine h.goOn (w := w) hinv ?_ rfl rfl rfl rfl ?_ ?_ ?_ ?_ ?_
      · refine Only.goto ?_ _
        exact only_of_eq rfl rfl rfl
      all_goals simp [hpc]
  | @finish w x hw hpc =>
      refine h.goOn (w := w) hinv ?_ rfl rfl rfl rfl ?_ ?_ ?_ ?_ ?_
      · refine Only.goto ?_ _
        exact only_of_eq rfl rfl rfl
      all_goals simp [hpc]
  | @exitLast w hw hpc hl =>
      refine h.goOn (w := w) hinv ?_ rfl rfl rfl rfl ?_ ?_ ?_ ?_ fun _ => hl
      · refine Only.goto ?_ _
        exact only_of_eq rfl rfl rfl
      all_goals simp [hpc]
  | @next w x xs hw hpc hl hq =>
      have ht := hinv.hasTask_false (w := w) (by simp [hpc])
      refine h.assign ⟨hw, ht, .inr hpc⟩ ?_ rfl rfl (goto_pc ..) ?_ ?_
      · refine Only.goto (Only.assignTask ?_ _) _
        exact only_of_eq rfl rfl rfl
      · exact Function.update_self ..
      · exact Function.update_self ..
  | @free w hw hpc hl hq =>
      refine h.goOn (w := w) hinv ?_ rfl rfl rfl rfl ?_ ?_ ?_ ?_ ?_
      · refine Only.goto ?_ _
        exact only_of_eq rfl rfl rfl
      all_goals simp [hpc]
  | last w =>
      refine ⟨h.nodup, h.lt, h.held, h.wait, h.taken, ?_⟩
      intro v hv
      rcases h.exited v hv with hmem | hlast
      · exact .inl hmem
      · right
        show Function.update p.lastWorker w true v = true
        by_cases hvw : v = w
        · rw [hvw, Function.update_self]
        · rw [Function.update_of_ne hvw, hlast]

theorem new_nulls (n : ℕ) : (new n).Nulls n := by
  rw [new_eq]
  exact ⟨List.nodup_nil, nofun, nofun, nofun, nofun, nofun⟩

end

/-! ## What a move leaves alone -/

/-- The record of assignments and of added tasks grows. -/
theorem Move.grows {n : ℕ} {p p' : Pool} (h : Move n p p') :
    p.assigned <+: p'.assigned ∧ p.added <+: p'.added := by
  cases h with
  | hand cb hws => exact ⟨List.prefix_append .., List.prefix_append ..⟩
  | enqueue cb hws => exact ⟨List.prefix_refl _, List.prefix_append ..⟩
  | next hw hpc hl hq => exact ⟨List.prefix_append .., List.prefix_refl _⟩
  | _ => exact ⟨List.prefix_refl _, List.prefix_refl _⟩

theorem addTask_keeps (p : Pool) (cb : Option ℕ) :
    (p.addTask cb).pc = p.pc ∧ (p.addTask cb).lastWorker = p.lastWorker := by
  unfold Pool.addTask
  simp only
  split
  · exact ⟨rfl, rfl⟩
  · exact ⟨rfl, rfl⟩

theorem queueWorker_keeps (p : Pool) (w : ℕ) :
    (p.queueWorker w).pc = p.pc ∧ (p.queueWorker w).lastWorker = p.lastWorker := by
  unfold Pool.queueWorker
  split
  · exact ⟨rfl, rfl⟩
  · exact ⟨rfl, rfl⟩

/-- A step of a worker leaves the others where they are. -/
theorem workerStep_keeps {p p' : Pool} {w : ℕ} (h : p.workerStep w = some p') :
    (∀ v, v ≠ w → p'.pc v = p.pc v) ∧ p'.lastWorker = p.lastWorker ∧ p.pc w ≠ .exited := by
  have hgoto : ∀ (q : Pool) (pc : Pc), q.pc = p.pc → q.lastWorker = p.lastWorker →
      (∀ v, v ≠ w → (q.goto w pc).pc v = p.pc v) ∧ (q.goto w pc).lastWorker = p.lastWorker :=
    fun q pc hpc hl => ⟨fun v hv => (Function.update_of_ne hv ..).trans (congrFun hpc v), hl⟩
  unfold Pool.workerStep at h
  split at h
  case h_1 hpc =>
    split at h
    · obtain rfl := Option.some.inj h
      exact ⟨(hgoto _ _ rfl rfl).1, rfl, by simp [hpc]⟩
    · cases h
  case h_2 hpc =>
    split at h
    · obtain rfl := Option.some.inj h
      exact ⟨(hgoto _ _ rfl rfl).1, rfl, by simp [hpc]⟩
    · obtain rfl := Option.some.inj h
      exact ⟨(hgoto _ _ rfl rfl).1, rfl, by simp [hpc]⟩
  case h_3 hpc =>
    obtain rfl := Option.some.inj h
    exact ⟨(hgoto _ _ rfl rfl).1, rfl, by simp [hpc]⟩
  case h_4 hpc =>
    obtain rfl := Option.some.inj h
    exact ⟨(hgoto _ _ rfl rfl).1, rfl, by simp [hpc]⟩
  case h_5 hpc =>
    split at h
    · obtain rfl := Option.some.inj h
      exact ⟨(hgoto _ _ rfl rfl).1, rfl, by simp [hpc]⟩
    · obtain rfl := Option.some.inj h
      obtain ⟨hqpc, hql⟩ := queueWorker_keeps p w
      exact ⟨(hgoto _ _ hqpc hql).1, hql, by simp [hpc]⟩
  case h_6 => cases h

end Pool

end ThreadPool

end HttpServer
