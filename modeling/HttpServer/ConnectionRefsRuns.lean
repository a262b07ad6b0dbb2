import HttpServer.ConnectionRefsInv

/-!
# The end of a connection

When nobody has a reference, no activity is left but that of the thread
which deletes the object, and no step brings a reference back. After the
deletion only the poll thread moves, and what it touches is the
descriptor.
-/

namespace HttpServer

namespace ConnectionRefs

section

variable {n : ℕ} {s s' : State} {t : Tid}

/-- Where the threads and activities are when nobody has a reference. -/
theorem Inv.of_zero (h : Inv n s) (hz : s.refs = 0) :
    (∀ t, ((s.pc t).rd = .none ∨ (s.pc t).rd = .delete)
        ∧ ((s.pc t).wr = .none ∨ (s.pc t).wr = .delete))
      ∧ s.parkedReads = 0 ∧ s.parkedWrites = 0 ∧ s.external = 0 := by
  have hcount := h.count
  rw [hz, State.readActivities, State.writeActivities] at hcount
  push_cast at hcount
  refine ⟨?_, by omega, by omega, by omega⟩
  intro t
  by_cases ht : t < n
  · have hrd := Tally.le_total (fun p : Pc => p.rd.held) s.pc ht
    have hwr := Tally.le_total (fun p : Pc => p.wr.held) s.pc ht
    have hrd' : (s.pc t).rd = .none ∨ (s.pc t).rd = .delete := by
      have hheld : (s.pc t).rd.held = 0 := by omega
      cases hpc : (s.pc t).rd <;> simp [hpc, ReadPc.held] at hheld ⊢
    have hheld : (s.pc t).wr.held = 0 := by omega
    have hnest := h.nested t
    refine ⟨hrd', ?_⟩
    cases hpc : (s.pc t).wr <;> simp [hpc, WritePc.held] at hheld hnest ⊢
    all_goals simp [hnest] at hrd'
  · rw [h.idle t (Nat.le_of_not_lt ht)]
    exact ⟨.inl rfl, .inl rfl⟩

/-- Nothing brings a reference back. -/
theorem refs_of_gone (h : Inv n s) (hz : s.refs = 0) {a : Act}
    (ha : a = .readable ∨ a = .writable ∨ ∃ t, a = .tick t) (hs : step n s a = some s') :
    s'.refs = 0 := by
  rcases ha with rfl | rfl | ⟨t, rfl⟩
  · obtain ⟨-, hs⟩ := Option.ite_none_left_eq_some.mp hs
    obtain rfl := Option.some.inj hs
    rw [State.readIfWaiting]
    split <;> exact hz
  · obtain ⟨-, hs⟩ := Option.ite_none_left_eq_some.mp hs
    obtain rfl := Option.some.inj hs
    rw [State.writeIfWaiting]
    split <;> exact hz
  · obtain ⟨-, hs⟩ := Option.ite_none_right_eq_some.mp hs
    obtain ⟨hrd, hwr⟩ := (h.of_zero hz).1 t
    rw [tick] at hs
    rcases hwr with hwr | hwr
    · rw [hwr] at hs
      rcases hrd with hrd | hrd
      · simp [tickRd, hrd] at hs
      · simp only [tickRd, hrd] at hs
        obtain rfl := Option.some.inj hs
        exact hz
    · rw [hwr] at hs
      obtain rfl := Option.some.inj hs
      exact hz

/-- What is left to happen is the deletion and the poll thread's part. -/
theorem step_of_gone (h : Inv n s) (hg : s.gone = true) {a : Act}
    (hs : step n s a = some s') :
    a = .readable ∨ a = .writable ∨ ∃ t, a = .tick t ∧ s.pc t ≠ .idle := by
  simp only [State.gone, Bool.and_eq_true, decide_eq_true_eq] at hg
  obtain ⟨hstart, hz⟩ := hg
  obtain ⟨hpc, hr, hw, hext⟩ := h.of_zero hz
  rw [State.parkedReads] at hr
  rw [State.parkedWrites] at hw
  cases a with
  | start t =>
      obtain ⟨⟨-, -, hno⟩, -⟩ := Option.ite_none_right_eq_some.mp hs
      rw [hstart] at hno
      cases hno
  | tick t =>
      obtain ⟨-, hs⟩ := Option.ite_none_right_eq_some.mp hs
      refine .inr (.inr ⟨t, rfl, ?_⟩)
      intro hidle
      rw [tick, hidle, Pc.idle, tickRd, hidle] at hs
      cases hs
  | read t res =>
      obtain ⟨⟨-, hp⟩, -⟩ := Option.ite_none_right_eq_some.mp hs
      have hno := (hpc t).1
      simp [hp] at hno
  | startWrite t =>
      obtain ⟨⟨-, hp⟩, -⟩ := Option.ite_none_right_eq_some.mp hs
      have hno := (hpc t).1
      simp [hp] at hno
  | readDone t ok =>
      obtain ⟨⟨-, hp⟩, -⟩ := Option.ite_none_right_eq_some.mp hs
      have hno := (hpc t).1
      simp [hp] at hno
  | write t res =>
      obtain ⟨⟨-, hp⟩, -⟩ := Option.ite_none_right_eq_some.mp hs
      have hno := (hpc t).2
      simp [hp] at hno
  | finish t drained =>
      rcases (hpc t).2 with hp | hp
      · simp [step, hp] at hs
      · simp [step, hp] at hs
  | readable => exact .inl rfl
  | writable => exact .inr (.inl rfl)
  | scheduleRead =>
      obtain ⟨hsch, -⟩ := Option.ite_none_right_eq_some.mp hs
      rw [hsch, Bool.toNat_true] at hr
      omega
  | scheduleWrite =>
      obtain ⟨hsch, -⟩ := Option.ite_none_right_eq_some.mp hs
      rw [hsch, Bool.toNat_true] at hw
      omega
  | runRead t =>
      obtain ⟨⟨-, -, hq⟩, -⟩ := Option.ite_none_right_eq_some.mp hs
      omega
  | runWrite t =>
      obtain ⟨⟨-, -, hq⟩, -⟩ := Option.ite_none_right_eq_some.mp hs
      omega
  | acquire =>
      obtain ⟨hpos, -⟩ := Option.ite_none_right_eq_some.mp hs
      omega
  | release t =>
      obtain ⟨⟨-, -, hno⟩, -⟩ := Option.ite_none_right_eq_some.mp hs
      omega

/-- After the deletion no thread is at work on the object. -/
theorem Inv.idle_of_deleted (h : Inv n s) (hd : s.deletions ≠ 0) :
    s.gone = true ∧ ∀ t, s.pc t = .idle := by
  have hdeleted := h.deleted
  have hbool := s.gone.toNat_le
  have hg : s.gone = true := by
    cases hg : s.gone with
    | true => rfl
    | false =>
        rw [hg, Bool.toNat_false] at hdeleted
        omega
  refine ⟨hg, ?_⟩
  intro t
  by_cases ht : t < n
  · have hle := Tally.le_total Pc.deletes s.pc ht
    have hzero : (s.pc t).deletes = 0 := by
      rw [State.deleting] at hdeleted
      omega
    simp only [State.gone, Bool.and_eq_true, decide_eq_true_eq] at hg
    obtain ⟨hrd, hwr⟩ := (h.of_zero hg.2).1 t
    cases hp : s.pc t with
    | mk rd wr =>
        rw [hp] at hzero hrd hwr
        rcases hrd with rfl | rfl
        · rcases hwr with rfl | rfl
          · rfl
          · cases hzero
        · rcases hwr with rfl | rfl
          · cases hzero
          · cases hzero
  · exact h.idle t (Nat.le_of_not_lt ht)

/-- The references of a connection are its activities and those of others.
The object is deleted once, by the thread whose `release` finds no
reference left; after that no activity and no reference is there, and
nothing but the poll thread moves. -/
theorem references_counted (h : (machine n).Reachable s) :
    s.refs = s.readActivities n + s.writeActivities n + s.external
      ∧ s.currentReads n ≤ 1
      ∧ s.deleting n + s.deletions = (s.started && s.refs = 0).toNat
      ∧ (s.started = true → s.refs = 0 → ∀ a s', step n s a = some s' → s'.refs = 0)
      ∧ (s.deletions ≠ 0 → (∀ t, s.pc t = .idle)
          ∧ s.readActivities n + s.writeActivities n + s.external = 0
          ∧ ∀ a s', step n s a = some s' → a = .readable ∨ a = .writable) := by
  have hinv := reachable_inv h
  refine ⟨hinv.count, le_trans hinv.reads (Bool.toNat_le _), hinv.deleted, ?_, ?_⟩
  · intro hstart hz a s' hs
    have hg : s.gone = true := by simp [State.gone, hstart, hz]
    have ha : a = .readable ∨ a = .writable ∨ ∃ t, a = .tick t := by
      rcases step_of_gone hinv hg hs with ha | ha | ⟨t, ha, -⟩
      · exact .inl ha
      · exact .inr (.inl ha)
      · exact .inr (.inr ⟨t, ha⟩)
    exact refs_of_gone hinv hz ha hs
  · intro hd
    obtain ⟨hg, hidle⟩ := hinv.idle_of_deleted hd
    refine ⟨hidle, ?_, ?_⟩
    · have hcount := hinv.count
      simp only [State.gone, Bool.and_eq_true, decide_eq_true_eq] at hg
      rw [hg.2] at hcount
      omega
    · intro a s' hs
      rcases step_of_gone hinv hg hs with ha | ha | ⟨t, -, ht⟩
      · exact .inl ha
      · exact .inr ha
      · exact absurd (hidle t) ht

/-- A connection of which nothing has been read. -/
def fresh : State where
  refs := 0
  writing := false
  lock := none
  canRead := false
  waitingRead := false
  canWrite := false
  waitingWrite := false
  scheduleRead := false
  scheduleWrite := false
  readTasks := 0
  writeTasks := 0
  pc _ := .idle
  started := false
  external := 0
  deletions := 0

theorem initial_fresh : Initial fresh :=
  ⟨rfl, rfl, rfl, rfl, rfl, rfl, rfl, rfl, rfl, fun _ => rfl, rfl, rfl, rfl⟩

/-- Thread 1 re-arms, and thread 0 runs the successor before thread 1 is
at its `release`. -/
def rearm : List Act :=
  [.start 0, .tick 0, .readable, .scheduleRead, .runRead 1, .read 1 .again, .tick 1, .tick 1,
    .readable, .scheduleRead, .runRead 0]

/-- The successor answers a request and waits to write; the peer closes. -/
def close : List Act :=
  [.read 0 .data, .startWrite 0, .tick 0, .tick 0, .tick 0, .write 0 .again, .finish 0 false,
    .tick 0, .tick 0, .tick 0, .tick 0, .tick 1, .readDone 0 true, .read 0 .closed, .tick 0,
    .writable, .scheduleWrite, .runWrite 1, .tick 1, .write 1 .error, .finish 1 false, .tick 1,
    .tick 1]

/-- Two read activities, of which one is to re-arm; and the end of the
same connection. -/
theorem rearmed_references :
    (∃ s, (machine 2).Reachable s ∧ s.refs = 2 ∧ s.readActivities 2 = 2 ∧ s.currentReads 2 ≤ 1)
      ∧ ∃ s, (machine 2).Reachable s ∧ s.deletions = 1 ∧ s.deleting 2 = 0
        ∧ ∀ t, s.pc t = .idle := by
  have hrearm : ((machine 2).exec (fun _ _ => True) fresh rearm).any
      (fun s => s.refs = 2 && s.readActivities 2 = 2) = true := by
    decide
  have hclose : ((machine 2).exec (fun _ _ => True) fresh (rearm ++ close)).any
      (fun s => s.deletions = 1 && s.deleting 2 = 0) = true := by
    decide
  obtain ⟨s₁, h₁, hp₁⟩ := Lts.ReachableBy.exec_any (.init initial_fresh) hrearm
  obtain ⟨s₂, h₂, hp₂⟩ := Lts.ReachableBy.exec_any (.init initial_fresh) hclose
  simp only [Bool.and_eq_true, decide_eq_true_eq] at hp₁ hp₂
  obtain ⟨-, hcur, -⟩ := references_counted h₁
  obtain ⟨-, -, -, -, hend⟩ := references_counted h₂
  refine ⟨⟨s₁, h₁, hp₁.1, hp₁.2, hcur⟩, s₂, h₂, hp₂.1, hp₂.2, ?_⟩
  exact (hend (by rw [hp₂.1]; decide)).1

end

end ConnectionRefs

end HttpServer
