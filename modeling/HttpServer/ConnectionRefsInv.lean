import HttpServer.ConnectionRefs

/-!
# Every step keeps the count

A step moves one thread, or none, and changes a few numbers beside
(`Ledger`). `Inv.moveAt` says what the two have to do with each other.
There are few kinds of steps: most move no reference (`Inv.quiet`);
`acquire` and `release` move one; a thread leaves its activity with the
descriptor or in the queue of the worker pool (`Inv.parkRead`,
`Inv.parkWrite`); the last one deletes the object.
-/

namespace HttpServer

namespace ConnectionRefs

open Connection (Written)

/-- What the invariant reads beside the places of the threads. -/
structure Ledger where
  refs : ℤ
  reads : ℕ
  writes : ℕ
  external : ℕ
  started : Bool
  writing : Bool
  deletions : ℕ

def Ledger.gone (l : Ledger) : Bool := l.started && l.refs = 0

def State.ledger (s : State) : Ledger :=
  ⟨s.refs, s.parkedReads, s.parkedWrites, s.external, s.started, s.writing, s.deletions⟩

section

variable {n : ℕ} {s s' : State} {t : Tid}

theorem Initial.inv (h : Initial s) : Inv n s := by
  have hzero : ∀ f : Pc → ℕ, f .idle = 0 → Tally.total n f s.pc = 0 :=
    fun f hf => Tally.total_eq_zero fun t => by rw [h.pc, hf]
  have hreads : s.parkedReads = 0 := by
    simp [State.parkedReads, h.waitingRead, h.scheduleRead, h.readTasks]
  have hwrites : s.parkedWrites = 0 := by
    simp [State.parkedWrites, h.waitingWrite, h.scheduleWrite, h.writeTasks]
  refine ⟨?_, ?_, ?_, ?_, ?_, fun t _ => h.pc t, fun _ => h.refs⟩
  · rw [State.readActivities, State.writeActivities, hzero _ rfl, hzero _ rfl, hreads, hwrites,
      h.refs, h.external]
    rfl
  · rw [State.currentReads, hzero _ rfl, hreads]
    exact Nat.zero_le _
  · rw [State.currentWrites, hzero _ rfl, hwrites]
    exact Nat.zero_le _
  · rw [State.deleting, hzero _ rfl, h.deletions, State.gone, h.started]
    rfl
  · intro t ht
    rw [h.pc t] at ht
    rcases ht with ht | ht <;> cases ht

/-- A step of the thread `t` from `p` to `x`, by what it changes in the
counts. -/
theorem Inv.moveAt (h : Inv n s) (ht : t < n) {p x : Pc} {l : Ledger} (hp : s.pc t = p)
    (hpc : s'.pc = Function.update s.pc t x) (hl : s'.ledger = l)
    (count : l.refs + p.rd.held + p.wr.held + s.parkedReads + s.parkedWrites + s.external
      = s.refs + x.rd.held + x.wr.held + l.reads + l.writes + l.external)
    (reads : x.rd.current + l.reads + s.started.toNat
      ≤ p.rd.current + s.parkedReads + l.started.toNat)
    (writes : x.wr.current + l.writes + s.writing.toNat
      ≤ p.wr.current + s.parkedWrites + l.writing.toNat)
    (deleted : x.deletes + l.deletions + s.gone.toNat = p.deletes + s.deletions + l.gone.toNat)
    (nested : x.wr = .start ∨ x.wr = .acquire → x.rd = .readDone)
    (started : l.started = true) : Inv n s' := by
  have hrd := Tally.total_update (fun p : Pc => p.rd.held) s.pc ht x
  have hwr := Tally.total_update (fun p : Pc => p.wr.held) s.pc ht x
  have hcr := Tally.total_update (fun p : Pc => p.rd.current) s.pc ht x
  have hcw := Tally.total_update (fun p : Pc => p.wr.current) s.pc ht x
  have hdel := Tally.total_update Pc.deletes s.pc ht x
  have h₁ := h.count
  have h₂ := h.reads
  have h₃ := h.writes
  have h₄ := h.deleted
  rw [hp] at hrd hwr hcr hcw hdel
  simp only [State.readActivities, State.writeActivities, State.currentReads, State.currentWrites,
    State.deleting] at h₁ h₂ h₃ h₄
  subst hl
  simp only [State.ledger] at count reads writes deleted started
  refine ⟨?_, ?_, ?_, ?_, ?_, ?_, ?_⟩
  · rw [State.readActivities, State.writeActivities, hpc]
    push_cast at h₁ ⊢
    omega
  · rw [State.currentReads, hpc]
    omega
  · rw [State.currentWrites, hpc]
    omega
  · rw [State.deleting, hpc]
    simp only [Ledger.gone] at deleted
    rw [State.gone]
    omega
  · intro u hu
    rw [hpc] at hu ⊢
    by_cases hut : u = t
    · rw [hut, Function.update_self] at hu ⊢
      exact nested hu
    · rw [Function.update_of_ne hut] at hu ⊢
      exact h.nested u hu
  · intro u hu
    rw [hpc, Function.update_of_ne (Nat.ne_of_gt (Nat.lt_of_lt_of_le ht hu))]
    exact h.idle u hu
  · intro hs
    rw [started] at hs
    cases hs

theorem Inv.started_of_pos (h : Inv n s) (hpos : 0 < s.refs) : s.started = true := by
  by_contra hs
  rw [Bool.not_eq_true] at hs
  rw [h.fresh hs] at hpos
  exact absurd hpos (lt_irrefl 0)

/-- A thread with a reference keeps the object alive, and so do others. -/
theorem Inv.pos_of_held (h : Inv n s) (ht : t < n) {p : Pc} (hp : s.pc t = p)
    (hheld : 0 < p.rd.held + p.wr.held + s.external) : 0 < s.refs := by
  have hrd := Tally.le_total (fun p : Pc => p.rd.held) s.pc ht
  have hwr := Tally.le_total (fun p : Pc => p.wr.held) s.pc ht
  have hcount := h.count
  rw [hp] at hrd hwr
  simp only [State.readActivities, State.writeActivities] at hcount
  push_cast at hcount
  omega

theorem gone_of_pos (hpos : 0 < s.refs) : s.gone = false := by
  have hne : s.refs ≠ 0 := ne_of_gt hpos
  simp [State.gone, hne]

theorem Ledger.gone_of_pos {l : Ledger} (hpos : 0 < l.refs) : l.gone = false := by
  have hne : l.refs ≠ 0 := ne_of_gt hpos
  simp [Ledger.gone, hne]

/-- Nobody is about to delete the object while there is a reference. -/
theorem Inv.deletes_eq_zero (h : Inv n s) (ht : t < n) {p : Pc} (hp : s.pc t = p)
    (hpos : 0 < s.refs) : p.deletes = 0 := by
  have hle := Tally.le_total Pc.deletes s.pc ht
  have hdeleted := h.deleted
  rw [gone_of_pos hpos, Bool.toNat_false, State.deleting] at hdeleted
  rw [hp] at hle
  omega

/-! ## Kinds of steps -/

/-- A step of a thread that has a reference and keeps it or takes another
one. -/
theorem Inv.live (h : Inv n s) (ht : t < n) {p x : Pc} {l : Ledger} (hp : s.pc t = p)
    (hpc : s'.pc = Function.update s.pc t x) (hl : s'.ledger = l) (hrefs : s.refs ≤ l.refs)
    (hstart : l.started = s.started) (hdel : l.deletions = s.deletions)
    (hpos : 0 < p.rd.held + p.wr.held)
    (count : l.refs + p.rd.held + p.wr.held + s.parkedReads + s.parkedWrites + s.external
      = s.refs + x.rd.held + x.wr.held + l.reads + l.writes + l.external)
    (reads : x.rd.current + l.reads ≤ p.rd.current + s.parkedReads)
    (writes : x.wr.current + l.writes + s.writing.toNat
      ≤ p.wr.current + s.parkedWrites + l.writing.toNat)
    (hdx : x.deletes = p.deletes) (nested : x.wr = .start ∨ x.wr = .acquire → x.rd = .readDone) :
    Inv n s' := by
  have hpos' := h.pos_of_held ht hp (Nat.add_pos_left hpos _)
  refine h.moveAt ht hp hpc hl count ?_ writes ?_ nested (hstart.trans (h.started_of_pos hpos'))
  · rw [hstart]
    exact Nat.add_le_add_right reads _
  · rw [gone_of_pos hpos', Ledger.gone_of_pos (lt_of_lt_of_le hpos' hrefs), hdx, hdel]

/-- A step that moves no reference, of a thread that has one. -/
theorem Inv.quiet (h : Inv n s) (ht : t < n) {p x : Pc} {writing : Bool} (hp : s.pc t = p)
    (hpc : s'.pc = Function.update s.pc t x) (hl : s'.ledger = { s.ledger with writing := writing })
    (hpos : 0 < p.rd.held + p.wr.held) (hheld : x.rd.held + x.wr.held = p.rd.held + p.wr.held)
    (hcur : x.rd.current ≤ p.rd.current)
    (hwr : x.wr.current + s.writing.toNat ≤ p.wr.current + writing.toNat)
    (hdx : x.deletes = p.deletes) (nested : x.wr = .start ∨ x.wr = .acquire → x.rd = .readDone) :
    Inv n s' := by
  refine h.live ht hp hpc hl le_rfl rfl rfl hpos ?_ ?_ ?_ hdx nested
  · simp only [State.ledger]
    omega
  · exact Nat.add_le_add_right hcur _
  · simp only [State.ledger]
    omega

/-- A step of a write activity. -/
theorem Inv.quietWr (h : Inv n s) (ht : t < n) {rd : ReadPc} {wr wr' : WritePc} {writing : Bool}
    (hp : s.pc t = ⟨rd, wr⟩) (hpc : s'.pc = Function.update s.pc t ⟨rd, wr'⟩)
    (hl : s'.ledger = { s.ledger with writing := writing }) (hheld : wr.held = 1)
    (hheld' : wr'.held = 1) (hwr : wr'.current + s.writing.toNat ≤ wr.current + writing.toNat)
    (hnest : wr' ≠ .start ∧ wr' ≠ .acquire) : Inv n s' := by
  have hd : wr ≠ .delete := by
    rintro rfl
    cases hheld
  have hd' : wr' ≠ .delete := by
    rintro rfl
    cases hheld'
  refine h.quiet ht hp hpc hl ?_ ?_ le_rfl hwr ?_ ?_
  · exact Nat.add_pos_right _ (by rw [hheld]; exact Nat.one_pos)
  · simp only
    omega
  · simp [Pc.deletes, hd, hd']
  · rintro (hx | hx)
    · exact absurd hx hnest.1
    · exact absurd hx hnest.2

/-- The section of `acquire`, by a thread that has a reference. -/
theorem Inv.acquires (h : Inv n s) (ht : t < n) {p x : Pc} (hp : s.pc t = p)
    (hpc : s'.pc = Function.update s.pc t x)
    (hl : s'.ledger = { s.ledger with refs := s.refs + 1 }) (hpos : 0 < p.rd.held + p.wr.held)
    (hheld : x.rd.held + x.wr.held = p.rd.held + p.wr.held + 1)
    (hcur : x.rd.current ≤ p.rd.current) (hwr : x.wr.current ≤ p.wr.current)
    (hdx : x.deletes = p.deletes) (nested : x.wr = .start ∨ x.wr = .acquire → x.rd = .readDone) :
    Inv n s' := by
  refine h.live ht hp hpc hl (by simp) rfl rfl hpos ?_ ?_ ?_ hdx nested
  · simp only [State.ledger]
    omega
  · exact Nat.add_le_add_right hcur _
  · exact Nat.add_le_add_right (Nat.add_le_add_right hwr _) _

/-- The only read activity that has not re-armed is with the thread `t`. -/
theorem Inv.parkedReads_eq_zero (h : Inv n s) (ht : t < n) {p : Pc} (hp : s.pc t = p)
    (hcur : p.rd.current = 1) : s.parkedReads = 0 := by
  have hle := Tally.le_total (fun p : Pc => p.rd.current) s.pc ht
  have hreads := h.reads
  have hbool := s.started.toNat_le
  rw [hp] at hle
  rw [State.currentReads] at hreads
  omega

theorem Inv.parkedWrites_eq_zero (h : Inv n s) (ht : t < n) {p : Pc} (hp : s.pc t = p)
    (hcur : p.wr.current = 1) : s.parkedWrites = 0 := by
  have hle := Tally.le_total (fun p : Pc => p.wr.current) s.pc ht
  have hwrites := h.writes
  have hbool := s.writing.toNat_le
  rw [hp] at hle
  rw [State.currentWrites] at hwrites
  omega

/-- A read activity passes from a thread to the descriptor or the queue. -/
theorem Inv.parkRead (h : Inv n s) (ht : t < n) {rd rd' : ReadPc} {wr : WritePc}
    (hp : s.pc t = ⟨rd, wr⟩) (hpc : s'.pc = Function.update s.pc t ⟨rd', wr⟩)
    (hl : s'.ledger = { s.ledger with reads := s.parkedReads + 1 })
    (hheld : rd'.held + 1 = rd.held) (hcur : rd'.current + 1 = rd.current) (hrd : rd ≠ .readDone)
    (hd' : rd' ≠ .delete) : Inv n s' := by
  have hd : rd ≠ .delete := by
    rintro rfl
    cases hheld
  refine h.live ht hp hpc hl le_rfl rfl rfl (by simp only; omega) ?_ ?_ le_rfl ?_ ?_
  · simp only [State.ledger]
    omega
  · simp only
    omega
  · simp [Pc.deletes, hd, hd']
  · intro hwr
    have hnest := h.nested t (by rw [hp]; exact hwr)
    rw [hp] at hnest
    exact absurd hnest hrd

/-- A write activity likewise. -/
theorem Inv.parkWrite (h : Inv n s) (ht : t < n) {rd : ReadPc} {wr wr' : WritePc}
    (hp : s.pc t = ⟨rd, wr⟩) (hpc : s'.pc = Function.update s.pc t ⟨rd, wr'⟩)
    (hl : s'.ledger = { s.ledger with writes := s.parkedWrites + 1 })
    (hheld : wr'.held + 1 = wr.held) (hcur : wr'.current + 1 = wr.current) (hd' : wr' ≠ .delete)
    (hnest : wr' ≠ .start ∧ wr' ≠ .acquire) : Inv n s' := by
  have hd : wr ≠ .delete := by
    rintro rfl
    cases hheld
  refine h.live ht hp hpc hl le_rfl rfl rfl (by simp only; omega) ?_ le_rfl ?_ ?_ ?_
  · simp only [State.ledger]
    omega
  · simp only [State.ledger]
    omega
  · simp [Pc.deletes, hd, hd']
  · rintro (hwr | hwr)
    · exact absurd hwr hnest.1
    · exact absurd hwr hnest.2

/-- The section of `release`: the last one goes on to delete the object. -/
theorem Inv.releases (h : Inv n s) (ht : t < n) {p x : Pc} {external : ℕ} (hp : s.pc t = p)
    (hpc : s'.pc = Function.update s.pc t x)
    (hl : s'.ledger = { s.ledger with refs := s.refs - 1, external := external })
    (hheld : x.rd.held + x.wr.held + external + 1 = p.rd.held + p.wr.held + s.external)
    (hcur : x.rd.current ≤ p.rd.current) (hwr : x.wr.current ≤ p.wr.current)
    (hdx : x.deletes = (decide (s.refs - 1 = 0)).toNat)
    (nested : x.wr = .start ∨ x.wr = .acquire → x.rd = .readDone) : Inv n s' := by
  have hpos := h.pos_of_held ht hp (by omega)
  have hs := h.started_of_pos hpos
  refine h.moveAt ht hp hpc hl ?_ ?_ ?_ ?_ nested hs
  · simp only [State.ledger]
    omega
  · exact Nat.add_le_add_right (Nat.add_le_add_right hcur _) _
  · exact Nat.add_le_add_right (Nat.add_le_add_right hwr _) _
  · rw [gone_of_pos hpos, h.deletes_eq_zero ht hp hpos, hdx]
    simp only [Ledger.gone, State.ledger, hs, Bool.true_and, Bool.toNat_false]
    omega

/-- `delete this`. -/
theorem Inv.deletes (h : Inv n s) (ht : t < n) {p x : Pc} (hp : s.pc t = p)
    (hpc : s'.pc = Function.update s.pc t x)
    (hl : s'.ledger = { s.ledger with deletions := s.deletions + 1 })
    (hheld : x.rd.held + x.wr.held = p.rd.held + p.wr.held) (hcur : x.rd.current ≤ p.rd.current)
    (hwr : x.wr.current ≤ p.wr.current) (hdx : x.deletes + 1 = p.deletes)
    (nested : x.wr = .start ∨ x.wr = .acquire → x.rd = .readDone) : Inv n s' := by
  -- a thread is about to delete the object only when nobody has a reference
  have hs : s.started = true := by
    have hle := Tally.le_total Pc.deletes s.pc ht
    have hdeleted := h.deleted
    rw [hp] at hle
    rw [State.deleting, State.gone] at hdeleted
    cases hstarted : s.started with
    | true => rfl
    | false =>
        rw [hstarted, Bool.false_and, Bool.toNat_false] at hdeleted
        omega
  refine h.moveAt ht hp hpc hl ?_ ?_ ?_ ?_ nested hs
  · simp only [State.ledger]
    omega
  · exact Nat.add_le_add_right (Nat.add_le_add_right hcur _) _
  · exact Nat.add_le_add_right (Nat.add_le_add_right hwr _) _
  · have hgone : ({ s.ledger with deletions := s.deletions + 1 } : Ledger).gone = s.gone := rfl
    rw [hgone]
    simp only
    omega

/-- A step that changes no thread. -/
theorem Inv.same (h : Inv n s) (hpc : s'.pc = s.pc) (hl : s'.ledger = s.ledger) : Inv n s' := by
  simp only [State.ledger, Ledger.mk.injEq] at hl
  obtain ⟨hrefs, hreads, hwrites, hext, hstart, hwriting, hdel⟩ := hl
  refine ⟨?_, ?_, ?_, ?_, ?_, ?_, ?_⟩
  · rw [State.readActivities, State.writeActivities, hpc, hrefs, hreads, hwrites, hext]
    exact h.count
  · rw [State.currentReads, hpc, hreads, hstart]
    exact h.reads
  · rw [State.currentWrites, hpc, hwrites, hwriting]
    exact h.writes
  · rw [State.deleting, hpc, hdel, State.gone, hstart, hrefs]
    exact h.deleted
  · rw [hpc]
    exact h.nested
  · rw [hpc]
    exact h.idle
  · rw [hstart, hrefs]
    exact h.fresh

/-! ## The steps -/

theorem setRd_pc {rd : ReadPc} {wr : WritePc} (hp : s.pc t = ⟨rd, wr⟩) (rd' : ReadPc) :
    (s.setRd t rd').pc = Function.update s.pc t ⟨rd', wr⟩ := by
  rw [State.setRd, hp]

theorem setWr_pc {rd : ReadPc} {wr : WritePc} (hp : s.pc t = ⟨rd, wr⟩) (wr' : WritePc) :
    (s.setWr t wr').pc = Function.update s.pc t ⟨rd, wr'⟩ := by
  rw [State.setWr, hp]

/-- `startWrite` runs inside of `readDone`. -/
theorem Inv.not_starting (h : Inv n s) {rd : ReadPc} {wr : WritePc} (hp : s.pc t = ⟨rd, wr⟩)
    (hrd : rd ≠ .readDone) : ¬(wr = .start ∨ wr = .acquire) := by
  intro hwr
  have hin := h.nested t (by rw [hp]; exact hwr)
  rw [hp] at hin
  exact hrd hin

theorem waitingRead_of_parked (h : s.parkedReads = 0) : s.waitingRead = false := by
  rw [State.parkedReads] at h
  cases hw : s.waitingRead with
  | false => rfl
  | true =>
      rw [hw, Bool.toNat_true] at h
      omega

theorem waitingWrite_of_parked (h : s.parkedWrites = 0) : s.waitingWrite = false := by
  rw [State.parkedWrites] at h
  cases hw : s.waitingWrite with
  | false => rfl
  | true =>
      rw [hw, Bool.toNat_true] at h
      omega

theorem Inv.readWhenReady (h : Inv n s) (ht : t < n) {rd now later : ReadPc} {wr : WritePc}
    (hp : s.pc t = ⟨rd, wr⟩) (hcur : rd.current = 1) (hnow : now.held = rd.held)
    (hnow' : now.current = 1) (hheld : later.held + 1 = rd.held) (hlater : later.current = 0)
    (hrd : rd ≠ .readDone) (hdn : now ≠ .delete) (hdl : later ≠ .delete) :
    Inv n (s.readWhenReady t now later) := by
  have hd : rd ≠ .delete := by
    rintro rfl
    cases hcur
  rw [State.readWhenReady]
  by_cases hcan : s.canRead = true
  · rw [if_pos hcan]
    refine h.quiet ht hp (setRd_pc hp now) rfl ?_ ?_ ?_ le_rfl ?_ ?_
    · simp only
      omega
    · exact congrArg (· + wr.held) hnow
    · exact le_of_eq (hnow'.trans hcur.symm)
    · simp [Pc.deletes, hd, hdn]
    · exact fun hwr => absurd hwr (h.not_starting hp hrd)
  · rw [if_neg hcan]
    refine h.parkRead ht hp (setRd_pc hp later) ?_ hheld ?_ hrd hdl
    · have hwait := waitingRead_of_parked (h.parkedReads_eq_zero ht hp hcur)
      simp only [State.ledger, State.parkedReads, State.parkedWrites, State.setRd, hwait,
        Bool.toNat_true, Bool.toNat_false, Ledger.mk.injEq, and_true, true_and]
      omega
    · omega

theorem Inv.writeWhenReady (h : Inv n s) (ht : t < n) {rd : ReadPc} (hp : s.pc t = ⟨rd, .arm⟩) :
    Inv n (s.writeWhenReady t) := by
  rw [State.writeWhenReady]
  by_cases hcan : s.canWrite = true
  · rw [if_pos hcan]
    refine h.quiet ht hp (setWr_pc hp .addTask) rfl ?_ rfl le_rfl le_rfl ?_ nofun
    · exact Nat.add_pos_right _ Nat.two_pos
    · simp [Pc.deletes]
  · rw [if_neg hcan]
    refine h.parkWrite ht hp (setWr_pc hp .unlock) ?_ rfl rfl nofun ⟨nofun, nofun⟩
    have hwait := waitingWrite_of_parked (h.parkedWrites_eq_zero ht hp rfl)
    simp only [State.ledger, State.parkedReads, State.parkedWrites, State.setWr, hwait,
      Bool.toNat_true, Bool.toNat_false, Ledger.mk.injEq, and_true, true_and]
    omega

theorem releaseRd_pc {rd : ReadPc} {wr : WritePc} (hp : s.pc t = ⟨rd, wr⟩) :
    (s.releaseRd t).pc
      = Function.update s.pc t ⟨if s.refs - 1 = 0 then .delete else .none, wr⟩ := by
  rw [State.releaseRd, State.setRd, hp]

theorem releaseWr_pc {rd : ReadPc} {wr : WritePc} (hp : s.pc t = ⟨rd, wr⟩) :
    (s.releaseWr t).pc
      = Function.update s.pc t ⟨rd, if s.refs - 1 = 0 then .delete else .none⟩ := by
  rw [State.releaseWr, State.setWr, hp]

/-- A `release` by a thread that is not writing: of its own activity, or
of the reference of somebody else. -/
theorem Inv.releaseBy (h : Inv n s) (ht : t < n) {rd : ReadPc} {external : ℕ}
    (hp : s.pc t = ⟨rd, .none⟩) (hheld : external + 1 = rd.held + s.external) :
    Inv n ({ s with external := external }.releaseRd t) := by
  have hpc : ({ s with external := external }.releaseRd t).pc
      = Function.update s.pc t ⟨if s.refs - 1 = 0 then .delete else .none, .none⟩ := releaseRd_pc hp
  have hheld' : 0 + 0 + external + 1 = rd.held + WritePc.none.held + s.external := by
    simp only [WritePc.held]
    omega
  by_cases hz : s.refs - 1 = 0
  · rw [if_pos hz] at hpc
    exact h.releases ht hp hpc rfl hheld' (Nat.zero_le _) le_rfl (by simp [Pc.deletes, hz]) nofun
  · rw [if_neg hz] at hpc
    exact h.releases ht hp hpc rfl hheld' (Nat.zero_le _) le_rfl (by simp [Pc.deletes, hz]) nofun

theorem Inv.releaseWr (h : Inv n s) (ht : t < n) {rd : ReadPc} (hp : s.pc t = ⟨rd, .release⟩) :
    Inv n (s.releaseWr t) := by
  have hpc := releaseWr_pc hp
  have hheld : rd.held + 0 + s.external + 1 = rd.held + WritePc.release.held + s.external := by
    simp only [WritePc.held]
    omega
  have hd : rd ≠ .delete := by
    rintro rfl
    cases h.deletes_eq_zero ht hp (h.pos_of_held ht hp (by rw [← hheld]; exact Nat.succ_pos _))
  by_cases hz : s.refs - 1 = 0
  · rw [if_pos hz] at hpc
    exact h.releases ht hp hpc rfl hheld le_rfl le_rfl (by simp [Pc.deletes, hz, hd]) nofun
  · rw [if_neg hz] at hpc
    exact h.releases ht hp hpc rfl hheld le_rfl le_rfl (by simp [Pc.deletes, hz, hd]) nofun

theorem Inv.tickRd (h : Inv n s) (ht : t < n) {rd : ReadPc} (hp : s.pc t = ⟨rd, .none⟩)
    (hs : tickRd s t = some s') : Inv n s' := by
  rw [ConnectionRefs.tickRd, hp] at hs
  cases rd with
  | none => cases hs
  | startArm =>
      obtain rfl := Option.some.inj hs
      exact h.readWhenReady ht hp rfl rfl rfl rfl rfl nofun nofun nofun
  | startAddTask =>
      obtain rfl := Option.some.inj hs
      exact h.parkRead ht hp (setRd_pc hp .none) rfl rfl rfl nofun nofun
  | read => cases hs
  | readDone => cases hs
  | acquire =>
      obtain rfl := Option.some.inj hs
      exact h.acquires ht hp (setRd_pc hp .arm) rfl Nat.one_pos rfl le_rfl le_rfl rfl nofun
  | arm =>
      obtain rfl := Option.some.inj hs
      exact h.readWhenReady ht hp rfl rfl rfl rfl rfl nofun nofun nofun
  | addTask =>
      obtain rfl := Option.some.inj hs
      exact h.parkRead ht hp (setRd_pc hp .release) rfl rfl rfl nofun nofun
  | release =>
      obtain rfl := Option.some.inj hs
      exact h.releaseBy ht hp (Nat.add_comm ..)
  | delete =>
      obtain rfl := Option.some.inj hs
      exact h.deletes ht hp (setRd_pc hp .none) rfl rfl le_rfl le_rfl rfl nofun

/-- The section of `startWrite`. -/
theorem Inv.startWrite (h : Inv n s) (ht : t < n) (hp : s.pc t = ⟨.readDone, .start⟩)
    (hs : (if s.writing then some (s.setWr t .none)
      else some ({ s with writing := true }.setWr t .acquire)) = some s') : Inv n s' := by
  cases hw : s.writing with
  | true =>
      rw [hw] at hs
      obtain rfl := Option.some.inj hs
      exact h.quiet ht hp (setWr_pc hp .none) rfl Nat.one_pos rfl le_rfl le_rfl rfl nofun
  | false =>
      rw [hw] at hs
      obtain rfl := Option.some.inj hs
      refine h.quiet ht hp (setWr_pc hp .acquire) rfl Nat.one_pos rfl le_rfl ?_ rfl fun _ => rfl
      rw [hw]
      exact le_rfl

theorem Inv.tick (h : Inv n s) (ht : t < n) (hs : tick s t = some s') : Inv n s' := by
  cases hp : s.pc t with
  | mk rd wr =>
      have hnest := h.nested t
      rw [hp] at hnest
      rw [ConnectionRefs.tick, hp] at hs
      cases wr with
      | none => exact h.tickRd ht hp hs
      | start =>
          obtain rfl : rd = .readDone := hnest (.inl rfl)
          obtain ⟨-, hs⟩ := Option.ite_none_right_eq_some.mp hs
          exact h.startWrite ht hp hs
      | acquire =>
          obtain rfl : rd = .readDone := hnest (.inr rfl)
          obtain rfl := Option.some.inj hs
          exact h.acquires ht hp (setWr_pc hp .loop) rfl Nat.one_pos rfl le_rfl le_rfl rfl nofun
      | loop =>
          obtain ⟨-, hs⟩ := Option.ite_none_right_eq_some.mp hs
          obtain rfl := Option.some.inj hs
          exact h.quietWr ht hp (setWr_pc hp .send) rfl rfl rfl le_rfl ⟨nofun, nofun⟩
      | send => cases hs
      | wrote res => cases hs
      | acquireNext =>
          obtain rfl := Option.some.inj hs
          refine h.acquires ht hp (setWr_pc hp .arm) rfl ?_ rfl le_rfl le_rfl ?_ nofun
          · exact Nat.add_pos_right _ Nat.one_pos
          · simp [Pc.deletes]
      | arm =>
          obtain rfl := Option.some.inj hs
          exact h.writeWhenReady ht hp
      | addTask =>
          obtain rfl := Option.some.inj hs
          exact h.parkWrite ht hp (setWr_pc hp .unlock) rfl rfl rfl nofun ⟨nofun, nofun⟩
      | unlock =>
          obtain rfl := Option.some.inj hs
          exact h.quietWr ht hp (setWr_pc hp .release) rfl rfl rfl le_rfl ⟨nofun, nofun⟩
      | release =>
          obtain rfl := Option.some.inj hs
          exact h.releaseWr ht hp
      | delete =>
          obtain rfl := Option.some.inj hs
          refine h.deletes ht hp (setWr_pc hp .none) rfl rfl le_rfl le_rfl ?_ nofun
          simp [Pc.deletes]

/-- The section of `doWrite` after the write. -/
theorem Inv.finish (h : Inv n s) (ht : t < n) {rd : ReadPc} {res : Written}
    (hp : s.pc t = ⟨rd, .wrote res⟩) (drained : Bool) : Inv n (s.finish t drained res) := by
  cases res with
  | again =>
      exact h.quietWr ht hp (setWr_pc hp .acquireNext) rfl rfl rfl le_rfl ⟨nofun, nofun⟩
  | error =>
      exact h.quietWr ht hp (setWr_pc hp .release) rfl rfl rfl
        (Nat.add_le_add_right (Nat.zero_le _) _) ⟨nofun, nofun⟩
  | bytes k =>
      rw [State.finish]
      by_cases hk : k = 0
      · rw [if_pos hk]
        exact h.quietWr ht hp (setWr_pc hp .release) rfl rfl rfl
          (Nat.add_le_add_right (Nat.zero_le _) _) ⟨nofun, nofun⟩
      · rw [if_neg hk]
        by_cases hd : drained = true
        · -- `writing_` is false only now, when nobody is to write any more
          rw [if_pos hd]
          refine h.quietWr ht hp (setWr_pc hp .release) rfl rfl rfl ?_ ⟨nofun, nofun⟩
          have hbool := s.writing.toNat_le
          simp only [WritePc.current]
          omega
        · rw [if_neg hd]
          exact h.quietWr ht hp (setWr_pc hp .loop) rfl rfl rfl le_rfl ⟨nofun, nofun⟩

/-- The constructor takes the first reference. -/
theorem Inv.start (h : Inv n s) (ht : t < n) (hp : s.pc t = .idle) (hs : s.started = false) :
    Inv n ({ s.acquire with started := true }.setRd t .startArm) := by
  have hrefs := h.fresh hs
  have hpc : ({ s.acquire with started := true }.setRd t .startArm).pc
      = Function.update s.pc t ⟨.startArm, .none⟩ := setRd_pc hp _
  refine h.moveAt ht hp hpc rfl ?_ ?_ le_rfl ?_ nofun rfl
  · simp only [State.ledger, State.setRd, State.acquire, Pc.idle, ReadPc.held, State.parkedReads,
      State.parkedWrites]
    push_cast
    omega
  · simp only [State.ledger, State.setRd, State.acquire, Pc.idle, ReadPc.current,
      State.parkedReads, hs, Bool.toNat_true, Bool.toNat_false]
    omega
  · simp only [State.ledger, State.setRd, State.acquire, State.gone, Ledger.gone, hs, hrefs]
    rfl

/-- A worker takes the reader from the queue. -/
theorem Inv.runRead (h : Inv n s) (ht : t < n) (hp : s.pc t = .idle) (hq : 0 < s.readTasks) :
    Inv n ({ s with readTasks := s.readTasks - 1 }.setRd t .read) := by
  have hrefs : 0 < s.refs := by
    have hcount := h.count
    simp only [State.readActivities, State.parkedReads] at hcount
    push_cast at hcount
    omega
  have hpc : ({ s with readTasks := s.readTasks - 1 }.setRd t .read).pc
      = Function.update s.pc t ⟨.read, .none⟩ := setRd_pc hp _
  refine h.moveAt ht hp hpc rfl ?_ ?_ le_rfl rfl nofun (h.started_of_pos hrefs)
  · simp only [State.ledger, State.setRd, Pc.idle, ReadPc.held, State.parkedReads,
      State.parkedWrites]
    push_cast
    omega
  · simp only [State.ledger, State.setRd, Pc.idle, ReadPc.current, State.parkedReads]
    omega

theorem Inv.runWrite (h : Inv n s) (ht : t < n) (hp : s.pc t = .idle) (hq : 0 < s.writeTasks) :
    Inv n ({ s with writeTasks := s.writeTasks - 1 }.setWr t .loop) := by
  have hrefs : 0 < s.refs := by
    have hcount := h.count
    simp only [State.writeActivities, State.parkedWrites] at hcount
    push_cast at hcount
    omega
  have hpc : ({ s with writeTasks := s.writeTasks - 1 }.setWr t .loop).pc
      = Function.update s.pc t ⟨.none, .loop⟩ := setWr_pc hp _
  refine h.moveAt ht hp hpc rfl ?_ le_rfl ?_ rfl nofun (h.started_of_pos hrefs)
  · simp only [State.ledger, State.setWr, Pc.idle, WritePc.held, State.parkedReads,
      State.parkedWrites]
    push_cast
    omega
  · simp only [State.ledger, State.setWr, Pc.idle, WritePc.current, State.parkedWrites]
    omega

theorem Inv.acquireExternal (h : Inv n s) (hpos : 0 < s.refs) :
    Inv n { s.acquire with external := s.external + 1 } := by
  have hgone : State.gone { s.acquire with external := s.external + 1 } = s.gone := by
    rw [gone_of_pos hpos]
    exact gone_of_pos (by simp only [State.acquire]; omega)
  refine ⟨?_, h.reads, h.writes, ?_, h.nested, h.idle, ?_⟩
  · have hcount := h.count
    simp only [State.acquire, State.readActivities, State.writeActivities, State.parkedReads,
      State.parkedWrites] at hcount ⊢
    push_cast at hcount ⊢
    omega
  · rw [hgone]
    exact h.deleted
  · intro hs
    rw [h.fresh hs] at hpos
    exact absurd hpos (lt_irrefl 0)

/-- The poll thread and what it schedules change no number of activities. -/
theorem Inv.readIfWaiting (h : Inv n s) (hsch : s.scheduleRead = false) :
    Inv n s.readIfWaiting := by
  rw [State.readIfWaiting]
  by_cases hw : s.waitingRead = true
  · rw [if_pos hw]
    refine h.same rfl ?_
    simp [State.ledger, State.parkedReads, State.parkedWrites, hw, hsch]
  · rw [if_neg hw]
    exact h.same rfl rfl

theorem Inv.writeIfWaiting (h : Inv n s) (hsch : s.scheduleWrite = false) :
    Inv n s.writeIfWaiting := by
  rw [State.writeIfWaiting]
  by_cases hw : s.waitingWrite = true
  · rw [if_pos hw]
    refine h.same rfl ?_
    simp [State.ledger, State.parkedReads, State.parkedWrites, hw, hsch]
  · rw [if_neg hw]
    exact h.same rfl rfl

/-- What a read of the socket leads to. -/
theorem Inv.read (h : Inv n s) (ht : t < n) (hp : s.pc t = ⟨.read, .none⟩) {rd : ReadPc}
    (hheld : rd.held = 1) : Inv n (s.setRd t rd) := by
  have hd : rd ≠ .delete := by
    rintro rfl
    cases hheld
  refine h.quiet ht hp (setRd_pc hp rd) rfl Nat.one_pos hheld ?_ le_rfl ?_ nofun
  · cases rd <;> simp [ReadPc.current]
  · simp [Pc.deletes, hd]

theorem Inv.step {a : Act} (h : Inv n s) (hs : step n s a = some s') : Inv n s' := by
  cases a with
  | start t =>
      obtain ⟨⟨ht, hp, hstart⟩, hs⟩ := Option.ite_none_right_eq_some.mp hs
      obtain rfl := Option.some.inj hs
      exact h.start ht hp hstart
  | tick t =>
      obtain ⟨ht, hs⟩ := Option.ite_none_right_eq_some.mp hs
      exact h.tick ht hs
  | read t res =>
      obtain ⟨⟨ht, hp⟩, hs⟩ := Option.ite_none_right_eq_some.mp hs
      cases res with
      | data =>
          obtain rfl := Option.some.inj hs
          exact h.read ht hp rfl
      | closed =>
          obtain rfl := Option.some.inj hs
          exact h.read ht hp rfl
      | again =>
          obtain rfl := Option.some.inj hs
          exact h.read ht hp rfl
      | error =>
          obtain rfl := Option.some.inj hs
          exact h.read ht hp rfl
  | startWrite t =>
      obtain ⟨⟨ht, hp⟩, hs⟩ := Option.ite_none_right_eq_some.mp hs
      obtain rfl := Option.some.inj hs
      exact h.quiet ht hp (setWr_pc hp .start) rfl Nat.one_pos rfl le_rfl le_rfl rfl fun _ => rfl
  | readDone t ok =>
      obtain ⟨⟨ht, hp⟩, hs⟩ := Option.ite_none_right_eq_some.mp hs
      obtain rfl := Option.some.inj hs
      cases ok with
      | true => exact h.quiet ht hp (setRd_pc hp .read) rfl Nat.one_pos rfl le_rfl le_rfl rfl nofun
      | false =>
          exact h.quiet ht hp (setRd_pc hp .release) rfl Nat.one_pos rfl (Nat.zero_le _) le_rfl rfl
            nofun
  | write t res =>
      obtain ⟨⟨ht, hwr⟩, hs⟩ := Option.ite_none_right_eq_some.mp hs
      obtain rfl := Option.some.inj hs
      have hp : s.pc t = ⟨(s.pc t).rd, .send⟩ := by rw [← hwr]
      exact h.quietWr ht hp (setWr_pc hp (.wrote res)) rfl rfl rfl le_rfl ⟨nofun, nofun⟩
  | finish t drained =>
      simp only [ConnectionRefs.step] at hs
      cases hp : s.pc t with
      | mk rd wr =>
          rw [hp] at hs
          cases wr with
          | wrote res =>
              obtain ⟨⟨ht, -⟩, hs⟩ := Option.ite_none_right_eq_some.mp hs
              obtain rfl := Option.some.inj hs
              exact h.finish ht hp drained
          | _ => cases hs
  | readable =>
      obtain ⟨hsch, hs⟩ := Option.ite_none_left_eq_some.mp hs
      obtain rfl := Option.some.inj hs
      exact h.readIfWaiting (Bool.not_eq_true _ ▸ hsch)
  | writable =>
      obtain ⟨hsch, hs⟩ := Option.ite_none_left_eq_some.mp hs
      obtain rfl := Option.some.inj hs
      exact h.writeIfWaiting (Bool.not_eq_true _ ▸ hsch)
  | scheduleRead =>
      obtain ⟨hsch, hs⟩ := Option.ite_none_right_eq_some.mp hs
      obtain rfl := Option.some.inj hs
      refine h.same rfl ?_
      simp only [State.ledger, State.parkedReads, State.parkedWrites, hsch, Bool.toNat_true,
        Bool.toNat_false, Ledger.mk.injEq, and_true, true_and]
      omega
  | scheduleWrite =>
      obtain ⟨hsch, hs⟩ := Option.ite_none_right_eq_some.mp hs
      obtain rfl := Option.some.inj hs
      refine h.same rfl ?_
      simp only [State.ledger, State.parkedReads, State.parkedWrites, hsch, Bool.toNat_true,
        Bool.toNat_false, Ledger.mk.injEq, and_true, true_and]
      omega
  | runRead t =>
      obtain ⟨⟨ht, hp, hq⟩, hs⟩ := Option.ite_none_right_eq_some.mp hs
      obtain rfl := Option.some.inj hs
      exact h.runRead ht hp hq
  | runWrite t =>
      obtain ⟨⟨ht, hp, hq⟩, hs⟩ := Option.ite_none_right_eq_some.mp hs
      obtain rfl := Option.some.inj hs
      exact h.runWrite ht hp hq
  | acquire =>
      obtain ⟨hpos, hs⟩ := Option.ite_none_right_eq_some.mp hs
      obtain rfl := Option.some.inj hs
      exact h.acquireExternal hpos
  | release t =>
      obtain ⟨⟨ht, hp, hext⟩, hs⟩ := Option.ite_none_right_eq_some.mp hs
      obtain rfl := Option.some.inj hs
      refine h.releaseBy ht hp ?_
      simp only [ReadPc.held]
      omega

theorem reachable_inv (h : (machine n).Reachable s) : Inv n s :=
  h.invariant (I := Inv n) (fun _ hi => Initial.inv hi) fun _ _ _ hi _ hs => hi.step hs

end

end ConnectionRefs

end HttpServer
