import HttpServer.ConnectionInv

/-!
# What a connection guarantees

There is one writer at a time and no byte is lost, duplicated or
reordered on its way from the producers to the socket
(`single_writer_stream`).

A producer appends in one section of `m_write_` and sets `writing_` in
another. When the writer of somebody else drains the buffer in between,
`startWrite` starts a writer on an empty buffer. Its write of zero bytes
returns 0, which `doWrite` takes for a closed connection: it stops with
`writing_` set, and nobody ever writes again (`drainedRun_stuck`). A
connection at rest has sent everything exactly when no `doWrite` has found
the buffer empty (`no_stuck_writer`).
-/

namespace HttpServer

namespace Connection

variable {n : ℕ} {s s' : State} {l : Act}

theorem reachable_inv {ok : State → Act → Prop} (h : (machine n).ReachableBy ok s) : Inv s :=
  h.invariant (fun _ => Initial.inv) fun _ _ _ hI _ hs => hI.move (step_move hs)

/-! ## Integrity of the stream -/

/-- **Single writer and stream integrity.** At most one `doWrite` is
under way; what it hands to the socket is what it has sampled; and the
bytes the socket has taken, followed by the unread content without those
of them that are yet to be consumed, are the appended strings in
order. -/
theorem single_writer_stream (h : (machine n).Reachable s) :
    (∀ a b, Active s a → Active s b → a = b)
      ∧ (∀ t size data bytes, s.pc t = .send size data bytes →
          ∀ m ≤ size, s.out.peek data m = some (bytes.take m))
      ∧ (∀ t size m, s.pc t = .wrote size (.bytes m) →
          s.accepted ++ s.out.content.drop m = s.appended.flatten)
      ∧ ((∀ t size m, s.pc t ≠ .wrote size (.bytes m)) →
          s.accepted ++ s.out.content = s.appended.flatten) := by
  obtain ⟨hout, ⟨o, ho⟩, hok, d, hacc⟩ := reachable_inv h
  refine ⟨fun a b ha hb => (ho.only hb a).mp ha, fun t size data bytes hpc m hm => ?_,
    fun t size m hpc => ?_, fun hno => ?_⟩
  · have hpcok := hok t
    rw [hpc] at hpcok
    obtain ⟨rfl, hsize, rfl⟩ := hpcok
    rw [Buffer.peek_eq hout.inv (Nat.le_trans hm hsize), List.take_take, Nat.min_eq_left hm]
  · rw [hacc.sent t m (by rw [hpc]; rfl)]
    exact hacc.stream
  · have hd : d = 0 := by
      by_contra hne
      obtain ⟨t, ht⟩ := hacc.taken hne
      cases hpc : s.pc t with
      | wrote size res =>
          cases res with
          | bytes m => exact hno t size m hpc
          | again => rw [hpc] at ht; cases ht
          | error => rw [hpc] at ht; cases ht
      | _ => rw [hpc] at ht; cases ht
    have hstream := hacc.stream
    rwa [hd] at hstream

/-- A connection in zeroed memory. -/
def start : State :=
  ⟨Buffer.new fun _ _ => 0, false, none, false, false, false, 0, fun _ => .idle, [], []⟩

theorem start_initial : Initial start :=
  ⟨⟨_, rfl⟩, rfl, rfl, rfl, rfl, rfl, fun _ => rfl, rfl, rfl⟩

/-- A producer appends two bytes and samples them, then another appends. -/
theorem sampled_stream : ∃ s, (machine 2).Reachable s ∧ s.pc 0 = .send 2 (0, 0) [1, 2]
    ∧ s.out.peek (0, 0) 2 = some [1, 2] ∧ s.appended = [[1, 2], [3]] := by
  have hrun : ((machine 2).exec (fun _ _ => True) start
      [.append 0 [[1], [2]] none, .tick 0, .tick 0, .append 1 [[3]] none]).any
      (fun s => s.pc 0 = .send 2 (0, 0) [1, 2] && s.appended = [[1, 2], [3]]) = true := by
    decide +kernel
  obtain ⟨s, hs, hp⟩ := Lts.ReachableBy.exec_any (.init start_initial) hrun
  simp only [Bool.and_eq_true, decide_eq_true_eq] at hp
  exact ⟨s, hs, hp.1, (single_writer_stream hs).2.1 0 2 (0, 0) [1, 2] hp.1 2 (Nat.le_refl 2), hp.2⟩

/-- Between the write and the section that consumes, the accepted bytes
are in the buffer, too. -/
theorem accepted_not_consumed : ¬∀ s, (machine 1).Reachable s →
    s.accepted ++ s.out.content = s.appended.flatten := by
  intro hall
  have hrun : ((machine 1).exec (fun _ _ => True) start
      [.append 0 [[1]] none, .tick 0, .tick 0, .send 0 (.bytes 1)]).any
      (fun s => s.accepted = [1] && s.out.content = [1] && s.appended = [[1]]) = true := by
    decide +kernel
  obtain ⟨s, hs, hp⟩ := Lts.ReachableBy.exec_any (.init start_initial) hrun
  simp only [Bool.and_eq_true, decide_eq_true_eq] at hp
  have heq := hall s hs
  rw [hp.1.1, hp.1.2, hp.2] at heq
  exact absurd heq (by decide)

/-! ## Writers that do not get stuck -/

/-- Producers append something with `write`; the socket takes at least
one byte of a non-empty write or reports `EAGAIN`, and returns 0 for an
empty one. -/
def posix (s : State) : Act → Bool
  | .append _ pieces copy => pieces.flatten ≠ [] && copy.isNone
  | .send t res =>
      match s.pc t, res with
      | .send size _ _, .bytes m => m ≠ 0 || size = 0
      | .send size _ _, .again => size ≠ 0
      | _, _ => false
  | _ => true

/-- `startWrite` is about to set `writing_` with nothing to write. -/
def startsDrained (s : State) : Act → Bool
  | .tick t => s.pc t = .appended && !s.writing && s.out.content = []
  | _ => false

/-- `doWrite` is about to find nothing to write. -/
def samplesDrained (s : State) : Act → Bool
  | .tick t => s.pc t = .doWrite && s.out.content = []
  | _ => false

/-- No producer is between its append and the return of `startWrite`, and
no `doWrite` is running, waiting or scheduled. -/
structure Quiet (s : State) : Prop where
  pc : ∀ t, s.pc t = .idle
  waitingWrite : s.waitingWrite = false
  scheduleNow : s.scheduleNow = false
  tasks : s.tasks = 0

/-- What a writer under way has in hand: something to write. -/
def PcBusy : Pc → Prop
  | .send size _ _ => size ≠ 0
  | .wrote _ (.bytes m) => m ≠ 0
  | .wrote _ .error => False
  | _ => True

/-- `writing_` is set only while somebody writes, and what is left unread
is taken care of. -/
structure Busy (s : State) : Prop where
  pc : ∀ t, PcBusy (s.pc t)
  active : s.writing = true → ∃ a, Active s a
  pending : s.out.content ≠ [] → s.writing = true ∨ ∃ t, s.pc t = .appended

theorem Initial.busy (h : Initial s) : Busy s := by
  obtain ⟨heap, hout⟩ := h.out
  refine ⟨fun t => ?_, fun hw => ?_, fun hne => ?_⟩
  · rw [h.pc t]
    trivial
  · rw [h.writing] at hw
    cases hw
  · rw [hout] at hne
    exact absurd (Buffer.new_inv heap).2 hne

/-- A step of `t` that leaves the buffer and `writing_` alone. -/
theorem Busy.keep {x : State} {t : Tid} {pc : Pc} (h : Busy s) (hpcs : x.pc = s.pc)
    (hout : x.out = s.out) (hw : x.writing = s.writing) (hpc : PcBusy pc)
    (happ : s.pc t = .appended → s.writing = true)
    (hact : s.writing = true → ∃ a, Active (x.goto t pc) a) : Busy (x.goto t pc) := by
  refine ⟨fun u => ?_, fun hwr => hact (hw ▸ hwr), fun hne => ?_⟩
  · exact forall_goto hpc (fun u _ => hpcs ▸ h.pc u) u
  · rcases h.pending (show s.out.content ≠ [] from hout ▸ hne) with hwr | ⟨u, hu⟩
    · exact .inl (hw.trans hwr)
    · by_cases hut : u = t
      · exact .inl (hw.trans (happ (hut ▸ hu)))
      · refine .inr ⟨u, ?_⟩
        rw [goto_pc_of_ne _ _ hut, hpcs]
        exact hu

/-- The activities of the others are there after a step of `t`. -/
theorem exists_active_goto {x : State} {t : Tid} {pc : Pc} (hpcs : x.pc t = s.pc t)
    (ht : (s.pc t).active = false) (h : ∃ a, Active x a) : ∃ a, Active (x.goto t pc) a := by
  obtain ⟨a, ha⟩ := h
  refine ⟨a, ?_⟩
  rw [active_goto]
  by_cases hat : a = .running t
  · subst hat
    have hact : (x.pc t).active = true := ha
    rw [hpcs, ht] at hact
    cases hact
  · rwa [if_neg hat]

theorem running_goto {x : State} {t : Tid} {pc : Pc} (h : pc.active = true) :
    ∃ a, Active (x.goto t pc) a :=
  ⟨.running t, by rw [active_goto, if_pos rfl]; exact h⟩

/-- A writer goes on after a short write, or for the next chunk: in both
cases there is more to write. -/
theorem OutOk.unread_of_goOn {b : Buffer} (h : OutOk b) {size m : ℕ} (hm : m ≤ size)
    (hsize : size ≤ b.readSize) (hz : ¬(size = m ∧ (b.consume m).readSize = 0)) :
    (b.consume m).content ≠ [] := by
  intro hnil
  have hrs := Buffer.readSize_of_nil (h.consume m).inv.wf hnil
  rw [(Buffer.consume_spec h.inv m).2.1, List.drop_eq_nil_iff] at hnil
  have hle := Buffer.readSize_le h.inv.wf
  exact hz ⟨by omega, hrs⟩

theorem Busy.move (h : Busy s) (hI : Inv s) (hm : Move n s l s') (hp : posix s l = true)
    (hd : samplesDrained s l = false) : Busy s' := by
  cases hm with
  | @append t pieces copy ht hpc hcopy =>
      refine ⟨fun u => ?_, fun hw => ?_, fun _ => .inr ⟨t, goto_pc_same ..⟩⟩
      · refine forall_goto (P := PcBusy) ?_ (fun u _ => h.pc u) u
        trivial
      · obtain ⟨a, ha⟩ := h.active hw
        exact exists_active_goto (s := s) rfl (by rw [hpc]; rfl) ⟨a, by cases a <;> exact ha⟩
  | @startKeep t hpc hw =>
      exact h.keep rfl rfl rfl trivial (fun _ => hw)
        fun hwr => exists_active_goto rfl (by rw [hpc]; rfl) (h.active hwr)
  | @startTake t hpc hw =>
      refine ⟨fun u => ?_, fun _ => running_goto rfl, fun _ => .inl rfl⟩
      refine forall_goto (P := PcBusy) ?_ (fun u _ => h.pc u) u
      trivial
  | @sample t hpc =>
      -- there is something to write, so the writer does not stop at once
      have hne : s.out.content ≠ [] := by
        simpa [samplesDrained, hpc] using hd
      refine h.keep rfl rfl rfl ?_ (fun happ => ?_) fun _ => running_goto rfl
      · exact Nat.ne_of_gt (hI.out.live.readSize_pos hI.out.inv hne)
      · rw [hpc] at happ
        cases happ
  | @sendBytes t size data bytes m hpc hm =>
      have hbusy := h.pc t
      rw [hpc] at hbusy
      simp only [posix, hpc, Bool.or_eq_true, decide_eq_true_eq] at hp
      refine h.keep rfl rfl rfl (hp.resolve_right hbusy) (fun happ => ?_) fun _ => running_goto rfl
      rw [hpc] at happ
      cases happ
  | @sendFail t size data bytes res hpc hres =>
      rcases hres with rfl | rfl
      · refine h.keep rfl rfl rfl trivial (fun happ => ?_) fun _ => running_goto rfl
        rw [hpc] at happ
        cases happ
      · simp [posix, hpc] at hp
  | again hpc =>
      exact h.keep rfl rfl rfl trivial (fun happ => by rw [hpc] at happ; cases happ)
        fun _ => running_goto rfl
  | @stop t size res hpc hres =>
      have hbusy := h.pc t
      rw [hpc] at hbusy
      rcases hres with rfl | rfl
      · exact hbusy.elim
      · exact absurd rfl hbusy
  | @drained t size hpc hm hz =>
      have hnil : (s.out.consume size).content = [] := by
        by_contra hne
        have hpos := (hI.out.consume size).live.readSize_pos (hI.out.consume size).inv hne
        omega
      refine ⟨fun u => ?_, fun hw => (Bool.false_ne_true hw).elim, fun hne => absurd hnil hne⟩
      refine forall_goto (P := PcBusy) ?_ (fun u _ => h.pc u) u
      trivial
  | @goOn t size m hpc hm hz =>
      refine ⟨fun u => ?_, fun _ => running_goto rfl, fun _ => .inl ?_⟩
      · refine forall_goto (P := PcBusy) ?_ (fun u _ => h.pc u) u
        trivial
      · exact hI.writing (t := t) (by rw [hpc]; rfl)
  | rearmReady hpc hc =>
      exact h.keep rfl rfl rfl trivial (fun happ => by rw [hpc] at happ; cases happ)
        fun _ => running_goto rfl
  | rearmWait hpc hc =>
      exact h.keep rfl rfl rfl trivial (fun happ => by rw [hpc] at happ; cases happ)
        fun _ => ⟨.waiting, rfl⟩
  | addTask hpc =>
      exact h.keep rfl rfl rfl trivial (fun happ => by rw [hpc] at happ; cases happ)
        fun _ => ⟨.scheduled 0, Nat.succ_pos _⟩
  | @unlock t hpc =>
      refine h.keep rfl rfl rfl trivial (fun happ => by rw [hpc] at happ; cases happ) fun hw => ?_
      obtain ⟨a, ha⟩ := h.active hw
      exact exists_active_goto (s := s) rfl (by rw [hpc]; rfl) ⟨a, by cases a <;> exact ha⟩
  | readyWaiting hw => exact ⟨h.pc, fun _ => ⟨.polled, rfl⟩, h.pending⟩
  | readyEarly hw =>
      refine ⟨h.pc, fun hwr => ?_, h.pending⟩
      obtain ⟨a, ha⟩ := h.active hwr
      exact ⟨a, by cases a <;> exact ha⟩
  | schedule hs => exact ⟨h.pc, fun _ => ⟨.scheduled 0, Nat.succ_pos _⟩, h.pending⟩
  | run ht hpc hpos =>
      exact h.keep rfl rfl rfl trivial (fun happ => by rw [hpc] at happ; cases happ)
        fun _ => running_goto rfl

theorem Busy.rest (h : Busy s) (hq : Quiet s) : s.writing = false ∧ s.out.content = [] := by
  have hw : s.writing = false := by
    rw [Bool.eq_false_iff]
    intro hw
    obtain ⟨a, ha⟩ := h.active hw
    cases a with
    | running t => simp [Active, hq.pc t, Pc.active] at ha
    | waiting => simp [Active, hq.waitingWrite] at ha
    | polled => simp [Active, hq.scheduleNow] at ha
    | scheduled i => simp [Active, hq.tasks] at ha
  refine ⟨hw, ?_⟩
  by_contra hne
  rcases h.pending hne with hwr | ⟨t, ht⟩
  · rw [hw] at hwr
    cases hwr
  · rw [hq.pc t] at ht
    cases ht

/-- While `startWrite` does not set `writing_` on an empty buffer, there is
something to write as long as `writing_` is set. -/
theorem unread_move (hI : Inv s) (h : s.writing = true → s.out.content ≠ [])
    (hm : Move n s l s') (hd : startsDrained s l = false) :
    s'.writing = true → s'.out.content ≠ [] := by
  cases hm with
  | append ht hpc hcopy =>
      intro hw
      show (append s.out _ _).content ≠ []
      rw [(append_spec hI.out hcopy).2.1]
      exact List.append_ne_nil_of_left_ne_nil (h hw) _
  | startTake hpc hw =>
      intro _
      show s.out.content ≠ []
      simpa [startsDrained, hpc, hw] using hd
  | sendBytes hpc hm => exact h
  | drained hpc hm hz => exact fun hw => (Bool.false_ne_true hw).elim
  | @goOn t size m hpc hm hz =>
      have hok := hI.ok t
      rw [hpc] at hok
      exact fun _ => hI.out.unread_of_goOn hok.1 hok.2 hz
  | _ => exact h

/-! ## The writer on an empty buffer -/

/-- What a writer with an empty buffer has in hand. -/
def PcEmpty : Pc → Prop
  | .send size _ _ => size = 0
  | .wrote size res => size = 0 ∧ res = .bytes 0
  | _ => False

/-- All that is under way is a write of zero bytes. -/
structure Stuck (s : State) : Prop where
  writing : s.writing = true
  active : ∀ a, Active s a → ∃ t, a = .running t ∧ PcEmpty (s.pc t)

namespace Stuck

theorem pc (h : Stuck s) {t : Tid} {pc : Pc} (hpc : s.pc t = pc) (ht : pc.active = true) :
    PcEmpty pc := by
  obtain ⟨u, htu, hu⟩ := h.active (.running t) (by rw [Active, hpc, ht])
  obtain rfl := Activity.running.inj htu
  exact hpc ▸ hu

/-- A step of `t` that does not hand over to another activity. -/
theorem goto (h : Stuck s) {x : State} {t : Tid} {pc : Pc} (hw : x.writing = s.writing)
    (hx : ∀ a, Active x a → Active s a) (hpcs : x.pc = s.pc)
    (hpc : pc.active = true → PcEmpty pc) : Stuck (x.goto t pc) := by
  refine ⟨hw.trans h.writing, fun a ha => ?_⟩
  rw [active_goto] at ha
  by_cases hat : a = .running t
  · rw [if_pos hat] at ha
    exact ⟨t, hat, (goto_pc_same x t pc).symm ▸ hpc ha⟩
  · rw [if_neg hat] at ha
    obtain ⟨u, rfl, hu⟩ := h.active a (hx a ha)
    refine ⟨u, rfl, ?_⟩
    rw [goto_pc_of_ne x pc fun hut => hat (congrArg _ hut), hpcs]
    exact hu

theorem move (h : Stuck s) (hm : Move n s l s') (hp : posix s l = true) : Stuck s' := by
  have hnone : ∀ {a}, Active s a → (∀ u, a ≠ .running u) → False := fun ha hne => by
    obtain ⟨u, hu, -⟩ := h.active _ ha
    exact hne u hu
  have hidle : Pc.idle.active = true → PcEmpty .idle := fun ht => (Bool.false_ne_true ht).elim
  cases hm with
  | append ht hpc hcopy =>
      exact h.goto rfl (fun a ha => by cases a <;> exact ha) rfl
        fun ht => (Bool.false_ne_true ht).elim
  | startKeep hpc hw => exact h.goto rfl (fun _ ha => ha) rfl hidle
  | startTake hpc hw =>
      rw [h.writing] at hw
      cases hw
  | sample hpc => exact (h.pc hpc rfl).elim
  | sendBytes hpc hm =>
      obtain rfl := h.pc hpc rfl
      obtain rfl := Nat.le_zero.mp hm
      exact h.goto rfl (fun a ha => by cases a <;> exact ha) rfl fun _ => ⟨rfl, rfl⟩
  | sendFail hpc hres =>
      obtain rfl := h.pc hpc rfl
      rcases hres with rfl | rfl
      · simp [posix, hpc] at hp
      · simp [posix, hpc] at hp
  | again hpc => cases (h.pc hpc rfl).2
  | stop hpc hres => exact h.goto rfl (fun _ ha => ha) rfl hidle
  | drained hpc hm => exact absurd (h.pc hpc rfl).1 hm
  | goOn hpc hm => exact absurd (Written.bytes.inj (h.pc hpc rfl).2) hm
  | rearmReady hpc => exact (h.pc hpc rfl).elim
  | rearmWait hpc => exact (h.pc hpc rfl).elim
  | addTask hpc => exact (h.pc hpc rfl).elim
  | unlock hpc => exact h.goto rfl (fun a ha => by cases a <;> exact ha) rfl hidle
  | readyWaiting hw => exact (hnone (a := .waiting) hw (by simp)).elim
  | readyEarly hw => exact ⟨h.writing, fun a ha => h.active a (by cases a <;> exact ha)⟩
  | schedule hs => exact (hnone (a := .polled) hs (by simp)).elim
  | run ht hpc hpos => exact (hnone (a := .scheduled 0) hpos (by simp)).elim

end Stuck

theorem samplesDrained_iff :
    samplesDrained s l = true ↔ ∃ t, l = .tick t ∧ s.pc t = .doWrite ∧ s.out.content = [] := by
  cases l with
  | tick t => simp [samplesDrained]
  | _ => simp [samplesDrained]

/-- A `doWrite` that finds nothing is alone, and is not followed by
another. -/
theorem stuck_of_sample (hI : Inv s) (hm : Move n s l s') (hd : samplesDrained s l = true) :
    Stuck s' := by
  obtain ⟨u, hl, hu, hnil⟩ := samplesDrained_iff.mp hd
  cases hm with
  | @sample t hpc =>
      have hact : Active s (.running t) := by
        rw [Active, hpc]
        rfl
      obtain ⟨o, ho⟩ := hI.owner
      refine ⟨hI.writing (t := t) hact, fun a ha => ?_⟩
      rw [State.sample, active_goto] at ha
      by_cases hat : a = .running t
      · refine ⟨t, hat, ?_⟩
        rw [State.sample, goto_pc_same]
        exact Buffer.readSize_of_nil hI.out.inv.wf hnil
      · rw [if_neg hat] at ha
        exact absurd ((ho.only hact a).mp ha) hat
  | _ => simp_all

/-- Threads that there are not stay idle. -/
theorem Move.idle (hm : Move n s l s') (h : ∀ t, n ≤ t → s.pc t = .idle) :
    ∀ t, n ≤ t → s'.pc t = .idle := by
  have hgo : ∀ {x : State} {t : Tid} {pc : Pc}, x.pc = s.pc → (t < n ∨ s.pc t ≠ .idle) →
      ∀ u, n ≤ u → (x.goto t pc).pc u = .idle := by
    intro x t pc hpcs ht u hu
    have hut : u ≠ t := by
      rintro rfl
      rcases ht with ht | ht
      · exact absurd hu (Nat.not_le_of_gt ht)
      · exact ht (h u hu)
    rw [goto_pc_of_ne _ _ hut, hpcs]
    exact h u hu
  cases hm with
  | append ht hpc hcopy => exact hgo rfl (.inl ht)
  | run ht hpc hpos => exact hgo rfl (.inl ht)
  | readyWaiting hw => exact h
  | readyEarly hw => exact h
  | schedule hs => exact h
  | startKeep hpc => exact hgo rfl (.inr (by simp [hpc]))
  | startTake hpc => exact hgo rfl (.inr (by simp [hpc]))
  | sample hpc => exact hgo rfl (.inr (by simp [hpc]))
  | sendBytes hpc => exact hgo rfl (.inr (by simp [hpc]))
  | sendFail hpc => exact hgo rfl (.inr (by simp [hpc]))
  | again hpc => exact hgo rfl (.inr (by simp [hpc]))
  | stop hpc => exact hgo rfl (.inr (by simp [hpc]))
  | drained hpc => exact hgo rfl (.inr (by simp [hpc]))
  | goOn hpc => exact hgo rfl (.inr (by simp [hpc]))
  | rearmReady hpc => exact hgo rfl (.inr (by simp [hpc]))
  | rearmWait hpc => exact hgo rfl (.inr (by simp [hpc]))
  | addTask hpc => exact hgo rfl (.inr (by simp [hpc]))
  | unlock hpc => exact hgo rfl (.inr (by simp [hpc]))

/-- `Quiet`, for a connection with `n` threads. -/
def quiet (n : ℕ) (s : State) : Bool :=
  (List.range n).all (fun t => s.pc t = .idle) && !s.waitingWrite && !s.scheduleNow && s.tasks = 0

theorem quiet_of_reachable {ok : State → Act → Prop} (h : (machine n).ReachableBy ok s)
    (hq : quiet n s = true) : Quiet s := by
  have hidle : ∀ t, n ≤ t → s.pc t = .idle :=
    h.invariant (I := fun s => ∀ t, n ≤ t → s.pc t = .idle) (fun s hs t _ => Initial.pc hs t)
      fun s l s' hI _ hs => (step_move hs).idle hI
  simp only [quiet, Bool.and_eq_true, List.all_eq_true, List.mem_range, decide_eq_true_eq,
    Bool.not_eq_true'] at hq
  obtain ⟨⟨⟨hpc, hwait⟩, hsched⟩, htasks⟩ := hq
  refine ⟨fun t => ?_, hwait, hsched, htasks⟩
  rcases Nat.lt_or_ge t n with ht | ht
  · exact hpc t ht
  · exact hidle t ht

/-- Two producers append; the first one writes the bytes of both. -/
def drainedStart : List Act :=
  [.append 0 [[1]] none, .append 1 [[2]] none, .tick 0, .tick 0, .send 0 (.bytes 2), .tick 0]

/-- Then the second one starts a writer on the empty buffer. -/
def drainedRun : List Act := drainedStart ++ [.tick 1, .tick 1, .send 1 (.bytes 0), .tick 1]

theorem drainedRun_stuck : ¬∀ s, (machine 2).ReachableBy (fun s l => posix s l = true) s →
    Quiet s → s.writing = false ∧ s.out.content = [] := by
  intro hall
  have hrun : ((machine 2).exec (fun s l => posix s l = true) start drainedRun).any
      (fun s => quiet 2 s && s.writing) = true := by
    decide +kernel
  obtain ⟨s, hs, hp⟩ := Lts.ReachableBy.exec_any (.init start_initial) hrun
  simp only [Bool.and_eq_true] at hp
  have hw := (hall s hs (quiet_of_reachable hs hp.1)).1
  rw [hp.2] at hw
  cases hw

/-- **No stuck writer.** Where a run comes to rest, the connection is not
writing and has nothing left to send exactly when no `doWrite` of the run
has found the buffer empty. None has, where `startWrite` never sets
`writing_` on an empty buffer. -/
theorem no_stuck_writer (r : Lts.Run (machine n) fun s l => posix s l = true) :
    (Quiet (r.st r.len) → (((r.st r.len).writing = false ∧ (r.st r.len).out.content = [])
      ↔ ∀ i < r.len, samplesDrained (r.st i) (r.act i) = false))
    ∧ ((∀ i < r.len, startsDrained (r.st i) (r.act i) = false) →
      ∀ i < r.len, samplesDrained (r.st i) (r.act i) = false) := by
  have hmove : ∀ i < r.len, Move n (r.st i) (r.act i) (r.st (i + 1)) := fun i hi =>
    step_move (r.step i hi)
  have hinv : ∀ i ≤ r.len, Inv (r.st i) := fun i hi => reachable_inv (r.reachable i hi)
  refine ⟨fun hq => ⟨fun hrest i hi => ?_, fun hno => ?_⟩, fun hno i hi => ?_⟩
  · rw [Bool.eq_false_iff]
    intro hd
    have hstuck : ∀ j ≤ r.len, i < j → Stuck (r.st j) :=
      r.invariant (fun hij => absurd hij (Nat.not_lt_zero i)) fun j hj h hij => by
        rcases Nat.lt_succ_iff_lt_or_eq.mp hij with hlt | rfl
        · exact (h hlt).move (hmove j hj) (r.ok j hj)
        · exact stuck_of_sample (hinv i (Nat.le_of_lt hi)) (hmove i hi) hd
    have hw := (hstuck r.len (Nat.le_refl _) hi).writing
    rw [hrest.1] at hw
    cases hw
  · have hbusy : ∀ i ≤ r.len, Busy (r.st i) :=
      r.invariant (Initial.busy r.init) fun i hi h =>
        h.move (hinv i (Nat.le_of_lt hi)) (hmove i hi) (r.ok i hi) (hno i hi)
    exact (hbusy r.len (Nat.le_refl _)).rest hq
  · rw [Bool.eq_false_iff]
    intro hd
    obtain ⟨t, -, hpc, hnil⟩ := samplesDrained_iff.mp hd
    have hunread : ∀ i ≤ r.len, (r.st i).writing = true → (r.st i).out.content ≠ [] :=
      r.invariant (fun hw => absurd hw (Bool.eq_false_iff.mp (Initial.writing r.init)))
        fun i hi h => unread_move (hinv i (Nat.le_of_lt hi)) h (hmove i hi) (hno i hi)
    have hi := Nat.le_of_lt hi
    exact hunread i hi ((hinv i hi).writing (t := t) (by rw [hpc]; rfl)) hnil

instance : Inhabited Act := ⟨.ready⟩

/-- One producer alone; the socket takes its two bytes in two writes. -/
def shortWrites : List Act :=
  [.append 0 [[1, 2]] none, .tick 0, .tick 0, .send 0 (.bytes 1), .tick 0, .tick 0,
    .send 0 (.bytes 1), .tick 0]

theorem shortWrites_sent : ∃ r : Lts.Run (machine 1) fun s l => posix s l = true,
    (r.st r.len).accepted = [1, 2] ∧ (r.st r.len).writing = false
      ∧ (r.st r.len).out.content = [] := by
  let r : Lts.Run (machine 1) fun s l => posix s l = true :=
    .ofExec start shortWrites start_initial (by decide +kernel)
  have hq : Quiet (r.st r.len) :=
    quiet_of_reachable (r.reachable _ (Nat.le_refl _)) (by decide +kernel)
  have hno : ∀ i < r.len, samplesDrained (r.st i) (r.act i) = false := by decide +kernel
  exact ⟨r, by decide +kernel, ((no_stuck_writer r).1 hq).mpr hno⟩

end Connection

end HttpServer
