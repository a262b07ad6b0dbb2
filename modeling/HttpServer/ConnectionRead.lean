import HttpServer.ConnectionRefsInv
import HttpServer.Lib.EdgeTriggered
import HttpServer.ReadDone

/-!
# The reading side of a connection

`Connection::doRead` (connection.cpp) with the socket, `in_` and the
sub-class's `readDone`, beside everything that the threads of a
connection do. Who runs `doRead` and when is the business of the
activities of `ConnectionRefs`, which go on unchanged below (`refs`):
here the socket says what a read returns, and a turn of `readDone` says
how it goes on.

The descriptor is polled edge triggered (descriptor_poller_epoll.cpp).
`poll` is the poll thread up to the end of the section of `readIfWaiting`.
It reports a descriptor that can be read; one that could be read when
`epoll_wait` returned may have been read in between, and is reported too
(`stale`).
-/

namespace HttpServer

namespace ConnectionRead

open Buffer HttpServer.Parser Incremental ReadDone
open ConnectionRefs (ReadPc Tid)

/-- A sub-class of `Connection`: the turns of its `readDone`, and what
other threads do to its members in between. -/
structure Reader (σ κ : Type) where
  turn : Buffer → σ → Turn σ
  beside : σ → κ → σ

structure State (σ : Type) where
  refs : ConnectionRefs.State
  /-- What has arrived at the socket and was not read. -/
  sock : List UInt8
  /-- The peer has closed its end. -/
  ended : Bool
  /-- Something has arrived since the descriptor was last polled. -/
  edge : Bool
  inb : Buffer
  user : σ
  /-- All that has arrived. -/
  arrived : List UInt8

/-- What `socketRead` returns. -/
inductive Result where
  /-- At most `n` bytes. -/
  | data (n : ℕ)
  | again
  | closed
  | error
deriving DecidableEq, Repr

inductive Act (κ : Type) where
  | arrive (data : List UInt8)
  | close
  | poll (stale : Bool)
  | read (t : Tid) (res : Result)
  | turn (t : Tid)
  | beside (k : κ)
  /-- Any other step of the connection's threads. -/
  | refs (a : ConnectionRefs.Act)

/-- The steps of the activities in which the reading side has a say. -/
def ofReader : ConnectionRefs.Act → Bool
  | .read _ _ | .readDone _ _ | .readable => true
  | _ => false

section

variable {σ κ : Type} (n : ℕ) (R : Reader σ κ)

/-- The descriptor can be read. -/
def State.canRead (s : State σ) : Bool := !s.sock.isEmpty || s.ended

/-- A step of the activities, with the members as they are. -/
def State.refsStep (s : State σ) (a : ConnectionRefs.Act) : Option (State σ) :=
  (ConnectionRefs.step n s.refs a).map fun refs => { s with refs }

/-- `in_.reserve(1024)`, `socketRead` and the branch on its result. -/
def read (s : State σ) (t : Tid) (res : Result) : Option (State σ) :=
  let s := { s with inb := (s.inb.reserve 1024).1 }
  match res with
  | .data m =>
      let data := s.sock.take (min m s.inb.writeSize)
      if data = [] then none
      else { s with
        inb := ((s.inb.store data).advance data.length).1
        sock := s.sock.drop data.length }.refsStep n (.read t .data)
  | .again => if s.canRead then none else s.refsStep n (.read t .again)
  | .closed => if s.sock = [] ∧ s.ended then s.refsStep n (.read t .closed) else none
  | .error => s.refsStep n (.read t .error)

/-- A turn of `readDone`, in the thread that is in it. -/
def turn (s : State σ) (t : Tid) : Option (State σ) :=
  if t < n ∧ s.refs.pc t = ⟨.readDone, .none⟩ then
    match R.turn s.inb s.user with
    | .again inb user => some { s with inb, user }
    | .ret ok inb user => { s with inb, user }.refsStep n (.readDone t ok)
    | .throws => none
  else none

def step (s : State σ) : Act κ → Option (State σ)
  | .arrive data =>
      if data = [] ∨ s.ended then none
      else some { s with sock := s.sock ++ data, arrived := s.arrived ++ data, edge := true }
  | .close => if s.ended then none else some { s with ended := true, edge := true }
  | .poll stale =>
      let s' := { s with edge := false }
      if s.canRead || stale then s'.refsStep n .readable else some s'
  | .read t res => read n s t res
  | .turn t => turn n R s t
  | .beside k => some { s with user := R.beside s.user k }
  | .refs a => if ofReader a then none else s.refsStep n a

/-- The socket may have received something before it is registered; then
`epoll_ctl` finds it ready. -/
structure Initial (x : σ) (s : State σ) : Prop where
  refs : ConnectionRefs.Initial s.refs
  inb : ∃ heap, s.inb = Buffer.new heap
  user : s.user = x
  arrived : s.arrived = s.sock
  ended : s.ended = false
  edge : s.edge = true

def machine (x : σ) : Lts (State σ) (Act κ) := ⟨Initial x, step n R⟩

end

/-! ## Where the reading side is -/

/-- On the way to `readWhenReady`. -/
def asks : ReadPc → Bool
  | .startArm | .acquire | .arm => true
  | _ => false

/-- The thread is in `readDone`. -/
def Working (s : ConnectionRefs.State) : Prop := ∃ t, (s.pc t).rd = .readDone

/-- The connection as the consumer of its socket. -/
def view (ready edge : Prop) (s : ConnectionRefs.State) : EdgeTriggered where
  ready := ready
  edge := edge
  kept := s.canRead = true
  waiting := s.waitingRead = true
  asking := s.started = false ∨ ∃ t, asks (s.pc t).rd = true

/-- What the other steps of the activities do to the reading side. -/
structure Effect (n : ℕ) (s s' : ConnectionRefs.State) : Prop where
  working : ∀ t, (s'.pc t).rd = .readDone ↔ (s.pc t).rd = .readDone
  current : s'.started = s.started ∧ s'.currentReads n = s.currentReads n
    ∨ s.started = false ∧ s'.started = true ∧ s'.currentReads n = 1
  owed : ∀ ready edge, (view ready edge s).Owed → (view ready edge s').Owed

section

open ConnectionRefs

variable {n : ℕ} {s s' : ConnectionRefs.State} {t : Tid}

/-- One read activity at most has not re-armed, so a thread that has it is
the only one. -/
theorem rd_unique (h : Inv n s) (ht : t < n) (hcur : (s.pc t).rd.current = 1) {u : Tid}
    (hu : u ≠ t) : (s.pc u).rd.current = 0 := by
  by_cases hun : u < n
  · refine Tally.eq_zero_of_le (f := fun p : Pc => p.rd.current) ?_ ht hun hu
    have hreads := h.reads
    have hbool := s.started.toNat_le
    rw [State.currentReads] at hreads
    simp only [hcur]
    omega
  · rw [h.idle u (not_lt.mp hun)]
    rfl

theorem current_of_asks {rd : ReadPc} (h : asks rd = true) : rd.current = 1 := by
  cases rd <;> first | rfl | cases h

theorem lt_of_current (h : Inv n s) (hcur : (s.pc t).rd.current = 1) : t < n := by
  by_contra hn
  rw [h.idle t (not_lt.mp hn)] at hcur
  cases hcur

/-- A thread with the activity has it alone. -/
theorem currentReads_eq_one (h : Inv n s) (hcur : (s.pc t).rd.current = 1) :
    s.currentReads n = 1 := by
  have hle := Tally.le_total (fun p : Pc => p.rd.current) s.pc (lt_of_current h hcur)
  have hreads := h.reads
  have hbool := s.started.toNat_le
  rw [State.currentReads] at hreads ⊢
  simp only [hcur] at hle
  omega

/-- A step in which no thread moves on the reading side. -/
theorem Effect.still (hrd : ∀ t, (s'.pc t).rd = (s.pc t).rd) (hcan : s'.canRead = s.canRead)
    (hwait : s'.waitingRead = s.waitingRead) (hpark : s'.parkedReads = s.parkedReads)
    (hstart : s'.started = s.started) : Effect n s s' := by
  refine ⟨fun t => by rw [hrd], .inl ⟨hstart, ?_⟩, fun ready edge h => ?_⟩
  · rw [State.currentReads, State.currentReads, hpark]
    simp only [Tally.total, hrd]
  · have hview : view ready edge s' = view ready edge s := by
      simp only [view, hcan, hwait, hstart, hrd]
    rwa [hview]

/-- One in which a thread moves on the writing side. -/
theorem Effect.setWr {s₀ : ConnectionRefs.State} {wr : WritePc} (hpc : s₀.pc = s.pc)
    (hcan : s₀.canRead = s.canRead) (hwait : s₀.waitingRead = s.waitingRead)
    (hpark : s₀.parkedReads = s.parkedReads) (hstart : s₀.started = s.started) :
    Effect n s (s₀.setWr t wr) := by
  refine .still (fun u => ?_) hcan hwait hpark hstart
  have hu' : (s₀.setWr t wr).pc = Function.update s.pc t ⟨(s.pc t).rd, wr⟩ := by
    rw [State.setWr, hpc]
  rw [hu']
  by_cases hu : u = t
  · rw [hu, Function.update_self]
  · rw [Function.update_of_ne hu]

theorem exists_asks_update {rd : ReadPc} {wr : WritePc}
    (hpc : s'.pc = Function.update s.pc t ⟨rd, wr⟩) (h : ∃ u, asks (s'.pc u).rd = true) :
    asks rd = true ∨ ∃ u, u ≠ t ∧ asks (s.pc u).rd = true := by
  obtain ⟨u, hu⟩ := h
  rw [hpc] at hu
  by_cases hut : u = t
  · rw [hut, Function.update_self] at hu
    exact .inl hu
  · rw [Function.update_of_ne hut] at hu
    exact .inr ⟨u, hut, hu⟩

/-- A step of a thread in `startRead` or `doRead`. -/
theorem Effect.rd {rd rd' : ReadPc} {wr : WritePc} (ht : t < n) (hp : s.pc t = ⟨rd, wr⟩)
    (hpc : s'.pc = Function.update s.pc t ⟨rd', wr⟩) (hne : rd ≠ .readDone ∧ rd' ≠ .readDone)
    (hcur : rd'.current + s'.parkedReads = rd.current + s.parkedReads)
    (hstart : s'.started = s.started)
    (howed : ∀ ready edge, (view ready edge s).Owed → (view ready edge s').Owed) :
    Effect n s s' := by
  refine ⟨fun u => ?_, .inl ⟨hstart, ?_⟩, howed⟩
  · rw [hpc]
    by_cases hu : u = t
    · rw [hu, Function.update_self, hp]
      exact iff_of_false hne.2 hne.1
    · rw [Function.update_of_ne hu]
  · have htotal := Tally.total_update (fun p : Pc => p.rd.current) s.pc ht ⟨rd', wr⟩
    rw [hp] at htotal
    rw [State.currentReads, State.currentReads, hpc]
    simp only at htotal
    omega

/-- One that leaves the flags alone and begins no request. -/
theorem Effect.pass {rd rd' : ReadPc} {wr : WritePc} (ht : t < n) (hp : s.pc t = ⟨rd, wr⟩)
    (hpc : s'.pc = Function.update s.pc t ⟨rd', wr⟩) (hne : rd ≠ .readDone ∧ rd' ≠ .readDone)
    (hcur : rd'.current + s'.parkedReads = rd.current + s.parkedReads)
    (hstart : s'.started = s.started) (hcan : s'.canRead = s.canRead)
    (hwait : s'.waitingRead = s.waitingRead) (hasks : asks rd' = true → asks rd = true) :
    Effect n s s' := by
  refine .rd ht hp hpc hne hcur hstart fun ready edge h => ?_
  refine h.mono id id (by simp only [view, hcan]) (by simp only [view, hwait]) ?_
  rintro (hs | ha)
  · exact .inl (hstart ▸ hs)
  · rcases exists_asks_update hpc ha with ha | ⟨u, -, ha⟩
    · exact .inr ⟨t, by rw [hp]; exact hasks ha⟩
    · exact .inr ⟨u, ha⟩

/-- The section of `readWhenReady`. -/
theorem Effect.readWhenReady (h : Inv n s) {rd now later : ReadPc} {wr : WritePc} (ht : t < n)
    (hp : s.pc t = ⟨rd, wr⟩) (hrd : rd = .startArm ∨ rd = .arm)
    (hnow : now.current = 1 ∧ asks now = false) (hnow' : now ≠ .readDone)
    (hlater : later.current = 0) : Effect n s (s.readWhenReady t now later) := by
  have hasks : asks rd = true := by rcases hrd with rfl | rfl <;> rfl
  have hne : rd ≠ .readDone := by rcases hrd with rfl | rfl <;> simp
  have hcur : (s.pc t).rd.current = 1 := by
    rw [hp]
    exact current_of_asks hasks
  have hpark := h.parkedReads_eq_zero ht rfl hcur
  have hwait := waitingRead_of_parked hpark
  have hothers : ¬∃ u, u ≠ t ∧ asks (s.pc u).rd = true := by
    rintro ⟨u, hu, ha⟩
    have hzero := rd_unique h ht hcur hu
    rw [current_of_asks ha] at hzero
    cases hzero
  have hstarted : s.started = true := h.started_of_pos
    (h.pos_of_held ht hp (by rcases hrd with rfl | rfl <;> simp [ReadPc.held]))
  rw [State.readWhenReady]
  by_cases hcan : s.canRead = true
  · rw [if_pos hcan]
    have hpc : ({ s with canRead := false }.setRd t now).pc = Function.update s.pc t ⟨now, wr⟩ :=
      setRd_pc hp now
    refine .rd ht hp hpc ⟨hne, hnow'⟩ ?_ rfl fun ready edge _ => ?_
    · rw [hnow.1, show rd.current = 1 from current_of_asks hasks]
      rfl
    · have hgrant : EdgeTriggered.Owed { view ready edge s with kept := False, asking := False } :=
        .granted (by simp [view, hwait])
      refine hgrant.mono id id (by simp [view, State.setRd]) (by simp [view, State.setRd]) ?_
      rintro (hs | ha)
      · exact absurd (hs.symm.trans hstarted) Bool.false_ne_true
      · rcases exists_asks_update hpc ha with ha | ha
        · exact absurd (hnow.2.symm.trans ha) Bool.false_ne_true
        · exact hothers ha
  · rw [if_neg hcan]
    have hpc : ({ s with waitingRead := true }.setRd t later).pc
        = Function.update s.pc t ⟨later, wr⟩ := setRd_pc hp later
    have hlate : later ≠ .readDone ∧ asks later = false := by
      revert hlater
      cases later <;> decide
    refine .rd ht hp hpc ⟨hne, hlate.1⟩ ?_ rfl fun ready edge howed => ?_
    · rw [hlater, show rd.current = 1 from current_of_asks hasks]
      simp only [State.parkedReads, State.setRd, Bool.toNat_true] at hpark ⊢
      omega
    · have hasking : (view ready edge s).asking := .inr ⟨t, by rw [hp]; exact hasks⟩
      refine (howed.ask hasking hcan).mono id id Iff.rfl (by simp [view, State.setRd]) ?_
      rintro (hs | ha)
      · exact absurd (hs.symm.trans hstarted) Bool.false_ne_true
      · rcases exists_asks_update hpc ha with ha | ha
        · exact absurd (hlate.2.symm.trans ha) Bool.false_ne_true
        · exact hothers ha

/-- A step of a thread in `startRead` or `doRead`, of its own. -/
theorem Effect.tickRd (h : Inv n s) (ht : t < n) (hs : ConnectionRefs.tickRd s t = some s') :
    Effect n s s' := by
  rw [ConnectionRefs.tickRd] at hs
  have hp : s.pc t = ⟨(s.pc t).rd, (s.pc t).wr⟩ := rfl
  generalize (s.pc t).rd = rd at hs hp
  generalize (s.pc t).wr = wr at hp
  cases rd with
  | startArm =>
      obtain rfl := Option.some.inj hs
      exact .readWhenReady h ht hp (.inl rfl) ⟨rfl, rfl⟩ (by simp) rfl
  | arm =>
      obtain rfl := Option.some.inj hs
      exact .readWhenReady h ht hp (.inr rfl) ⟨rfl, rfl⟩ (by simp) rfl
  | startAddTask =>
      obtain rfl := Option.some.inj hs
      have hpc : ({ s with readTasks := s.readTasks + 1 }.setRd t .none).pc
          = Function.update s.pc t ⟨.none, wr⟩ := setRd_pc hp _
      refine .pass ht hp hpc ⟨by simp, by simp⟩ ?_ rfl rfl rfl (by simp [asks])
      simp only [State.parkedReads, State.setRd, ReadPc.current]
      omega
  | addTask =>
      obtain rfl := Option.some.inj hs
      have hpc : ({ s with readTasks := s.readTasks + 1 }.setRd t .release).pc
          = Function.update s.pc t ⟨.release, wr⟩ := setRd_pc hp _
      refine .pass ht hp hpc ⟨by simp, by simp⟩ ?_ rfl rfl rfl (by simp [asks])
      simp only [State.parkedReads, State.setRd, ReadPc.current]
      omega
  | acquire =>
      obtain rfl := Option.some.inj hs
      have hpc : (s.acquire.setRd t .arm).pc = Function.update s.pc t ⟨.arm, wr⟩ := setRd_pc hp _
      exact .pass ht hp hpc ⟨by simp, by simp⟩ rfl rfl rfl rfl fun _ => rfl
  | release =>
      obtain rfl := Option.some.inj hs
      rw [State.releaseRd]
      dsimp only
      split
      · exact .pass ht hp (setRd_pc (s := { s with refs := s.refs - 1 }) hp .delete)
          ⟨by simp, by simp⟩ rfl rfl rfl rfl (by simp [asks])
      · exact .pass ht hp (setRd_pc (s := { s with refs := s.refs - 1 }) hp .none)
          ⟨by simp, by simp⟩ rfl rfl rfl rfl (by simp [asks])
  | delete =>
      obtain rfl := Option.some.inj hs
      exact .pass ht hp (setRd_pc (s := { s with deletions := s.deletions + 1 }) hp .none)
        ⟨by simp, by simp⟩ rfl rfl rfl rfl (by simp [asks])
  | none | read | readDone => cases hs

/-- A step of a thread in `startWrite` or `doWrite`. -/
theorem Effect.tick (h : Inv n s) (ht : t < n) (hs : ConnectionRefs.tick s t = some s') :
    Effect n s s' := by
  rw [ConnectionRefs.tick] at hs
  generalize (s.pc t).wr = wr at hs
  cases wr with
  | none => exact .tickRd h ht hs
  | start =>
      obtain ⟨-, hs⟩ := Option.ite_none_right_eq_some.mp hs
      split at hs
      · obtain rfl := Option.some.inj hs
        exact .setWr rfl rfl rfl rfl rfl
      · obtain rfl := Option.some.inj hs
        exact .setWr rfl rfl rfl rfl rfl
  | loop =>
      obtain ⟨-, hs⟩ := Option.ite_none_right_eq_some.mp hs
      obtain rfl := Option.some.inj hs
      exact .setWr rfl rfl rfl rfl rfl
  | arm =>
      obtain rfl := Option.some.inj hs
      rw [State.writeWhenReady]
      split
      · exact .setWr rfl rfl rfl rfl rfl
      · exact .setWr rfl rfl rfl rfl rfl
  | release =>
      obtain rfl := Option.some.inj hs
      exact .setWr rfl rfl rfl rfl rfl
  | send => cases hs
  | wrote res => cases hs
  | acquire | acquireNext | addTask | unlock | delete =>
      obtain rfl := Option.some.inj hs
      exact .setWr rfl rfl rfl rfl rfl

/-- The steps in which the reading side has no say. -/
theorem Effect.step (h : Inv n s) {a : ConnectionRefs.Act} (ha : ofReader a = false)
    (hs : ConnectionRefs.step n s a = some s') : Effect n s s' := by
  cases a with
  | start t =>
      obtain ⟨⟨ht, hp, hstart⟩, hs⟩ := Option.ite_none_right_eq_some.mp hs
      obtain rfl := Option.some.inj hs
      have hpc : ({ s.acquire with started := true }.setRd t .startArm).pc
          = Function.update s.pc t ⟨.startArm, .none⟩ := setRd_pc hp _
      have htotal := Tally.total_update (fun p : Pc => p.rd.current) s.pc ht ⟨.startArm, .none⟩
      have hreads := h.reads
      rw [hp] at htotal
      rw [hstart, State.currentReads, Bool.toNat_false] at hreads
      refine ⟨fun u => ?_, .inr ⟨hstart, rfl, ?_⟩, fun ready edge howed => ?_⟩
      · rw [hpc]
        by_cases hu : u = t
        · rw [hu, Function.update_self, hp]
          exact iff_of_false (by simp) (by simp [Pc.idle])
        · rw [Function.update_of_ne hu]
      · rw [State.currentReads, hpc]
        simp only [show Pc.idle.rd.current = 0 from rfl, show ReadPc.startArm.current = 1 from rfl]
          at htotal
        simp only [State.parkedReads, State.setRd, State.acquire] at hreads ⊢
        omega
      · exact howed.mono id id Iff.rfl Iff.rfl fun _ => .inl hstart
  | tick t =>
      obtain ⟨ht, hs⟩ := Option.ite_none_right_eq_some.mp hs
      exact .tick h ht hs
  | startWrite t =>
      obtain ⟨-, hs⟩ := Option.ite_none_right_eq_some.mp hs
      obtain rfl := Option.some.inj hs
      exact .setWr rfl rfl rfl rfl rfl
  | write t res =>
      obtain ⟨-, hs⟩ := Option.ite_none_right_eq_some.mp hs
      obtain rfl := Option.some.inj hs
      exact .setWr rfl rfl rfl rfl rfl
  | finish t drained =>
      simp only [ConnectionRefs.step] at hs
      split at hs
      · obtain ⟨-, hs⟩ := Option.ite_none_right_eq_some.mp hs
        obtain rfl := Option.some.inj hs
        unfold State.finish
        split
        · exact .setWr rfl rfl rfl rfl rfl
        · exact .setWr rfl rfl rfl rfl rfl
        · split
          · exact .setWr rfl rfl rfl rfl rfl
          · split
            · exact .setWr rfl rfl rfl rfl rfl
            · exact .setWr rfl rfl rfl rfl rfl
      · cases hs
  | writable =>
      obtain ⟨-, hs⟩ := Option.ite_none_left_eq_some.mp hs
      obtain rfl := Option.some.inj hs
      unfold State.writeIfWaiting
      split
      · exact .still (fun _ => rfl) rfl rfl rfl rfl
      · exact .still (fun _ => rfl) rfl rfl rfl rfl
  | scheduleRead =>
      obtain ⟨hsch, hs⟩ := Option.ite_none_right_eq_some.mp hs
      obtain rfl := Option.some.inj hs
      refine .still (fun _ => rfl) rfl rfl ?_ rfl
      simp only [State.parkedReads, hsch, Bool.toNat_true, Bool.toNat_false]
      omega
  | scheduleWrite =>
      obtain ⟨-, hs⟩ := Option.ite_none_right_eq_some.mp hs
      obtain rfl := Option.some.inj hs
      exact .still (fun _ => rfl) rfl rfl rfl rfl
  | runRead t =>
      obtain ⟨⟨ht, hp, hq⟩, hs⟩ := Option.ite_none_right_eq_some.mp hs
      obtain rfl := Option.some.inj hs
      have hpc : ({ s with readTasks := s.readTasks - 1 }.setRd t .read).pc
          = Function.update s.pc t ⟨.read, .none⟩ := setRd_pc hp _
      refine .pass ht hp hpc ⟨by simp, by simp⟩ ?_ rfl rfl rfl (by simp [asks])
      simp only [State.parkedReads, State.setRd, ReadPc.current]
      omega
  | runWrite t =>
      obtain ⟨-, hs⟩ := Option.ite_none_right_eq_some.mp hs
      obtain rfl := Option.some.inj hs
      exact .setWr rfl rfl rfl rfl rfl
  | acquire =>
      obtain ⟨-, hs⟩ := Option.ite_none_right_eq_some.mp hs
      obtain rfl := Option.some.inj hs
      exact .still (fun _ => rfl) rfl rfl rfl rfl
  | release t =>
      obtain ⟨⟨ht, hp, -⟩, hs⟩ := Option.ite_none_right_eq_some.mp hs
      obtain rfl := Option.some.inj hs
      rw [State.releaseRd]
      dsimp only
      split
      · exact .pass ht hp (setRd_pc (s := { s with external := s.external - 1, refs := s.refs - 1 })
          hp .delete) ⟨by simp, by simp⟩ rfl rfl rfl rfl (by simp [asks])
      · exact .pass ht hp (setRd_pc (s := { s with external := s.external - 1, refs := s.refs - 1 })
          hp .none) ⟨by simp, by simp⟩ rfl rfl rfl rfl (by simp [asks])
  | read t res => cases ha
  | readDone t ok => cases ha
  | readable => cases ha

end

end ConnectionRead

end HttpServer
