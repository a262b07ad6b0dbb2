import HttpServer.Connection

/-!
# One writer at a time

`Move` lists what a step of a connection can do. `Owner` is the token
argument for `writing_`: all activities together are one or none, and
while there is one `writing_` is set, so `startWrite` starts another
only when there is none. `Inv` adds what the writer relies on while it
does not hold the lock, and the account of the bytes.
-/

namespace HttpServer

namespace Connection

variable {n : ℕ} {s s' : State} {l : Act}

/-! ## Moves -/

inductive Move (n : ℕ) (s : State) : Act → State → Prop where
  | append {t pieces copy} (ht : t < n) (h : s.pc t = .idle)
      (hcopy : copy.isSome → pieces.flatten ≠ []) :
      Move n s (.append t pieces copy) ({ s with
        out := append s.out pieces copy
        appended := s.appended ++ [appendedText pieces copy] }.goto t .appended)
  | startKeep {t} (h : s.pc t = .appended) (hw : s.writing = true) :
      Move n s (.tick t) (s.goto t .idle)
  | startTake {t} (h : s.pc t = .appended) (hw : s.writing = false) :
      Move n s (.tick t) ({ s with writing := true }.goto t .doWrite)
  | sample {t} (h : s.pc t = .doWrite) : Move n s (.tick t) (s.sample t)
  | sendBytes {t size data bytes m} (h : s.pc t = .send size data bytes) (hm : m ≤ size) :
      Move n s (.send t (.bytes m)) (s.socketWrite t size data (.bytes m))
  | sendFail {t size data bytes res} (h : s.pc t = .send size data bytes)
      (hres : res = .again ∨ res = .error) : Move n s (.send t res) (s.goto t (.wrote size res))
  | again {t size} (h : s.pc t = .wrote size .again) :
      Move n s (.tick t) ({ s with lock := some t }.goto t .rearm)
  | stop {t size res} (h : s.pc t = .wrote size res) (hres : res = .error ∨ res = .bytes 0) :
      Move n s (.tick t) (s.goto t .idle)
  | drained {t size} (h : s.pc t = .wrote size (.bytes size)) (hm : size ≠ 0)
      (hz : (s.out.consume size).readSize = 0) :
      Move n s (.tick t) ({ s with out := s.out.consume size, writing := false }.goto t .idle)
  | goOn {t size m} (h : s.pc t = .wrote size (.bytes m)) (hm : m ≠ 0)
      (hz : ¬(size = m ∧ (s.out.consume m).readSize = 0)) :
      Move n s (.tick t) ({ s with out := s.out.consume m }.goto t .doWrite)
  | rearmReady {t} (h : s.pc t = .rearm) (hc : s.canWrite = true) :
      Move n s (.tick t) ({ s with canWrite := false }.goto t .addTask)
  | rearmWait {t} (h : s.pc t = .rearm) (hc : s.canWrite = false) :
      Move n s (.tick t) ({ s with waitingWrite := true }.goto t .unlock)
  | addTask {t} (h : s.pc t = .addTask) :
      Move n s (.tick t) ({ s with tasks := s.tasks + 1 }.goto t .unlock)
  | unlock {t} (h : s.pc t = .unlock) : Move n s (.tick t) ({ s with lock := none }.goto t .idle)
  | readyWaiting (h : s.waitingWrite = true) :
      Move n s .ready { s with waitingWrite := false, scheduleNow := true }
  | readyEarly (h : s.waitingWrite = false) : Move n s .ready { s with canWrite := true }
  | schedule (h : s.scheduleNow = true) :
      Move n s .schedule { s with scheduleNow := false, tasks := s.tasks + 1 }
  | run {t} (ht : t < n) (h : s.pc t = .idle) (hpos : 0 < s.tasks) :
      Move n s (.run t) ({ s with tasks := s.tasks - 1 }.goto t .doWrite)

theorem tick_move {t : Tid} (h : tick s t = some s') : Move n s (.tick t) s' := by
  unfold tick at h
  split at h
  case h_1 hpc =>
    split at h
    · obtain rfl := Option.some.inj h
      unfold State.startWrite
      split
      · exact .startKeep hpc ‹_›
      · exact .startTake hpc (Bool.eq_false_iff.mpr ‹_›)
    · cases h
  case h_2 hpc =>
    split at h
    · obtain rfl := Option.some.inj h
      exact .sample hpc
    · cases h
  case h_3 size res hpc =>
    split at h
    · obtain rfl := Option.some.inj h
      cases res with
      | again => exact .again hpc
      | error => exact .stop hpc (.inl rfl)
      | bytes m =>
          unfold State.finish
          by_cases hm : m = 0
          · subst hm
            exact .stop hpc (.inr rfl)
          · simp only [if_neg hm]
            split
            · rename_i hz
              obtain ⟨rfl, hz⟩ := hz
              exact .drained hpc hm hz
            · exact .goOn hpc hm ‹_›
    · cases h
  case h_4 hpc =>
    obtain rfl := Option.some.inj h
    unfold State.writeWhenReady
    split
    · exact .rearmReady hpc ‹_›
    · exact .rearmWait hpc (Bool.eq_false_iff.mpr ‹_›)
  case h_5 hpc =>
    obtain rfl := Option.some.inj h
    exact .addTask hpc
  case h_6 hpc =>
    obtain rfl := Option.some.inj h
    exact .unlock hpc
  case h_7 => cases h

theorem step_move (h : step n s l = some s') : Move n s l s' := by
  cases l with
  | append t pieces copy =>
      rw [step] at h
      split at h
      · rename_i hc
        obtain rfl := Option.some.inj h
        exact .append hc.1 hc.2.1 hc.2.2.2
      · cases h
  | tick t =>
      rw [step] at h
      split at h
      · exact tick_move h
      · cases h
  | send t res =>
      cases hpc : s.pc t with
      | send size data bytes =>
          simp only [step, hpc] at h
          cases res with
          | bytes m =>
              simp only at h
              split at h
              · obtain rfl := Option.some.inj h
                exact .sendBytes hpc ‹_›
              · cases h
          | again =>
              obtain rfl := Option.some.inj h
              exact .sendFail hpc (.inl rfl)
          | error =>
              obtain rfl := Option.some.inj h
              exact .sendFail hpc (.inr rfl)
      | _ =>
          simp only [step, hpc] at h
          cases h
  | ready =>
      rw [step] at h
      split at h
      · cases h
      · obtain rfl := Option.some.inj h
        unfold State.writeIfWaiting
        split
        · exact .readyWaiting ‹_›
        · exact .readyEarly (Bool.eq_false_iff.mpr ‹_›)
  | schedule =>
      rw [step] at h
      split at h
      · obtain rfl := Option.some.inj h
        exact .schedule ‹_›
      · cases h
  | run t =>
      rw [step] at h
      split at h
      · rename_i hc
        obtain rfl := Option.some.inj h
        exact .run hc.1 hc.2.1 hc.2.2
      · cases h

/-! ## The token -/

/-- `o` is the only activity; while there is one, `writing_` is set. -/
structure Owner (s : State) (o : Option Activity) : Prop where
  active : ∀ x, Active s x ↔ o = some x
  writing : o ≠ none → s.writing = true

/-- The activities after thread `t` has moved to `pc`. -/
theorem active_goto (x : State) (t : Tid) (pc : Pc) (a : Activity) :
    Active (x.goto t pc) a ↔ if a = .running t then pc.active = true else Active x a := by
  cases a with
  | running u =>
      by_cases hu : u = t
      · subst hu
        simp [Active, State.goto]
      · simp [Active, State.goto, hu]
  | waiting => rfl
  | polled => rfl
  | scheduled i => rfl

theorem active_of_goto {x : State} {t : Tid} {pc : Pc} {a : Activity} (hpc : pc.active = false)
    (h : Active (x.goto t pc) a) : a ≠ .running t ∧ Active x a := by
  rw [active_goto] at h
  by_cases ha : a = .running t
  · rw [if_pos ha, hpc] at h
    cases h
  · rw [if_neg ha] at h
    exact ⟨ha, h⟩

theorem Owner.only {o : Option Activity} {a : Activity} (h : Owner s o) (ha : Active s a)
    (x : Activity) : Active s x ↔ x = a := by
  rw [h.active x, (h.active a).mp ha, Option.some.injEq]
  exact eq_comm

/-- The activity `a` goes on as `b`. -/
theorem Owner.pass {o : Option Activity} {a b : Activity} (h : Owner s o) (ha : Active s a)
    (hw : s'.writing = s.writing) (hb : Active s' b)
    (hx : ∀ x, x ≠ b → Active s' x → x ≠ a ∧ Active s x) : Owner s' (some b) := by
  refine ⟨fun x => ?_, fun _ => ?_⟩
  · rw [Option.some.injEq]
    constructor
    · intro hact
      by_contra hne
      obtain ⟨hxa, hs⟩ := hx x (Ne.symm hne) hact
      exact hxa ((h.only ha x).mp hs)
    · rintro rfl
      exact hb
  · rw [hw]
    exact h.writing (by simp [(h.active a).mp ha])

/-- The activity of thread `t` ends. -/
theorem Owner.done {o : Option Activity} {t : Tid} {x : State} (h : Owner s o)
    (ha : (s.pc t).active = true) (hx : ∀ a, Active x a ↔ Active s a) :
    Owner (x.goto t .idle) none := by
  refine ⟨fun a => ?_, fun hne => absurd rfl hne⟩
  rw [active_goto]
  by_cases hat : a = .running t
  · simp [hat, Pc.active]
  · rw [if_neg hat, hx, h.only (a := .running t) ha]
    simp [hat]

theorem Owner.keep {o : Option Activity} (h : Owner s o) (hw : s'.writing = s.writing)
    (hb : ∀ x, Active s' x ↔ Active s x) : Owner s' o :=
  ⟨fun x => (hb x).trans (h.active x), fun hne => hw.trans (h.writing hne)⟩

theorem Owner.move {o : Option Activity} (h : Owner s o) (hm : Move n s l s') :
    ∃ o', Owner s' o' := by
  -- a step of a thread that leaves the other places alone
  have hthread : ∀ {x : State} {t : Tid} {pc : Pc}, x.writing = s.writing →
      (∀ a, a ≠ .running t → (Active x a ↔ Active s a)) → (pc.active = (s.pc t).active) →
      Owner (x.goto t pc) o := by
    intro x t pc hw hx hpc
    refine h.keep hw fun a => ?_
    rw [active_goto]
    by_cases ha : a = .running t
    · rw [if_pos ha, ha, hpc]
      rfl
    · rw [if_neg ha]
      exact hx a ha
  cases hm with
  | append ht hpc hcopy => exact ⟨o, hthread rfl (fun a _ => Iff.rfl) (by rw [hpc]; rfl)⟩
  | startKeep hpc hw => exact ⟨o, hthread rfl (fun a _ => Iff.rfl) (by rw [hpc]; rfl)⟩
  | @startTake t hpc hw =>
      -- nobody is active, because `writing_` is not set
      have ho : o = none := by
        by_contra hne
        rw [h.writing hne] at hw
        cases hw
      refine ⟨some (.running t), fun a => ?_, fun _ => rfl⟩
      rw [active_goto, Option.some.injEq]
      have hno : ¬Active s a := by
        rw [h.active a, ho]
        simp
      by_cases ha : a = .running t
      · rw [if_pos ha]
        exact ⟨fun _ => ha.symm, fun _ => rfl⟩
      · rw [if_neg ha]
        exact ⟨fun hact => absurd hact hno, fun heq => absurd heq.symm ha⟩
  | sample hpc => exact ⟨o, hthread rfl (fun a _ => Iff.rfl) (by rw [hpc]; rfl)⟩
  | sendBytes hpc hm => exact ⟨o, hthread rfl (fun a _ => Iff.rfl) (by rw [hpc]; rfl)⟩
  | sendFail hpc hres => exact ⟨o, hthread rfl (fun a _ => Iff.rfl) (by rw [hpc]; rfl)⟩
  | again hpc => exact ⟨o, hthread rfl (fun a _ => Iff.rfl) (by rw [hpc]; rfl)⟩
  | stop hpc hres => exact ⟨none, h.done (by rw [hpc]; rfl) fun a => Iff.rfl⟩
  | @drained t size hpc hm hz =>
      exact ⟨none, h.done (x := { s with out := s.out.consume size, writing := false })
        (by rw [hpc]; rfl) fun a => Iff.rfl⟩
  | goOn hpc hm hz => exact ⟨o, hthread rfl (fun a _ => Iff.rfl) (by rw [hpc]; rfl)⟩
  | rearmReady hpc hc => exact ⟨o, hthread rfl (fun a _ => Iff.rfl) (by rw [hpc]; rfl)⟩
  | @rearmWait t hpc hc =>
      refine ⟨some .waiting, h.pass (a := .running t) (by simp [Active, hpc, Pc.active]) rfl rfl ?_⟩
      intro a hne hact
      obtain ⟨hat, hact⟩ := active_of_goto rfl hact
      cases a with
      | waiting => exact absurd rfl hne
      | running u => exact ⟨hat, hact⟩
      | polled => exact ⟨hat, hact⟩
      | scheduled i => exact ⟨hat, hact⟩
  | @addTask t hpc =>
      have ha : Active s (.running t) := by simp [Active, hpc, Pc.active]
      have htasks : s.tasks = 0 := by simpa [Active] using h.only ha (.scheduled 0)
      refine ⟨some (.scheduled 0), h.pass ha rfl (Nat.succ_pos _) fun a hne hact => ?_⟩
      obtain ⟨hat, hact⟩ := active_of_goto rfl hact
      cases a with
      | waiting => exact ⟨hat, hact⟩
      | running u => exact ⟨hat, hact⟩
      | polled => exact ⟨hat, hact⟩
      | scheduled i => simp [Active, htasks] at hact hne; exact absurd hact hne
  | unlock hpc => exact ⟨o, hthread rfl (fun a _ => Iff.rfl) (by rw [hpc]; rfl)⟩
  | readyWaiting hw =>
      refine ⟨some .polled, h.pass (a := .waiting) hw rfl rfl fun a hne hact => ?_⟩
      cases a with
      | waiting => cases hact
      | running u => exact ⟨by simp, hact⟩
      | polled => exact absurd rfl hne
      | scheduled i => exact ⟨by simp, hact⟩
  | readyEarly hw => exact ⟨o, h.keep rfl fun a => Iff.rfl⟩
  | schedule hs =>
      have htasks : s.tasks = 0 := by simpa [Active] using h.only (a := .polled) hs (.scheduled 0)
      refine ⟨some (.scheduled 0),
        h.pass (a := .polled) hs rfl (Nat.succ_pos _) fun a hne hact => ?_⟩
      cases a with
      | waiting => exact ⟨by simp, hact⟩
      | running u => exact ⟨by simp, hact⟩
      | polled => cases hact
      | scheduled i => simp [Active, htasks] at hact hne; exact absurd hact hne
  | @run t ht hpc hpos =>
      have htasks : s.tasks ≤ 1 := by
        simpa [Active] using h.only (a := .scheduled 0) hpos (.scheduled 1)
      refine ⟨some (.running t), h.pass (a := .scheduled 0) hpos rfl ?_ fun a hne hact => ?_⟩
      · simp [Active, State.goto, Pc.active]
      · rw [active_goto, if_neg hne] at hact
        cases a with
        | waiting => exact ⟨by simp, hact⟩
        | running u => exact ⟨by simp, hact⟩
        | polled => exact ⟨by simp, hact⟩
        | scheduled i =>
            have hi : i < s.tasks - 1 := hact
            omega

theorem Owner.single {o : Option Activity} (h : Owner s o) {t u : Tid}
    (ht : (s.pc t).active = true) (hu : (s.pc u).active = true) : u = t :=
  Activity.running.inj ((h.only (a := .running t) ht (.running u)).mp hu)

/-! ## The output buffer -/

/-- The output buffer between two critical sections: its read pointer is
at the first unread byte and its last chunk has room. -/
structure OutOk (b : Buffer) : Prop where
  inv : b.Inv
  live : b.Live
  room : 0 < b.writeSize

theorem OutOk.new (heap : ℕ → ℕ → UInt8) : OutOk (Buffer.new heap) :=
  ⟨(Buffer.new_inv heap).1, Buffer.new_live heap, (by decide : 0 < Buffer.BlockSize)⟩

theorem OutOk.consume {b : Buffer} (h : OutOk b) (m : ℕ) : OutOk (b.consume m) := by
  refine ⟨(Buffer.consume_spec h.inv m).1, Buffer.consume_live h.inv h.live m, ?_⟩
  rw [Buffer.consume_writeSize]
  exact h.room

theorem OutOk.write {b : Buffer} (h : OutOk b) (data : List UInt8) : OutOk (b.write data) := by
  refine ⟨(Buffer.write_spec h.inv data).1, Buffer.write_live h.inv h.live ?_ data,
    Buffer.write_room h.inv h.room data⟩
  rintro ⟨-, hfull⟩
  have hroom : 0 < Buffer.BlockSize - b.wpos.off := h.room
  omega

theorem writes_spec {b : Buffer} (h : OutOk b) (pieces : List (List UInt8)) :
    OutOk (pieces.foldl Buffer.write b)
      ∧ (pieces.foldl Buffer.write b).content = b.content ++ pieces.flatten
      ∧ Buffer.Extends b (pieces.foldl Buffer.write b) := by
  induction pieces generalizing b with
  | nil => exact ⟨h, by simp, .refl b⟩
  | cons data pieces ih =>
      obtain ⟨hok, hcont, hext⟩ := ih (h.write data)
      refine ⟨hok, ?_, (Buffer.write_extends h.inv data).trans hext⟩
      rw [List.foldl_cons, hcont, (Buffer.write_spec h.inv data).2, List.flatten_cons,
        List.append_assoc]

theorem append_spec {b : Buffer} (h : OutOk b) {pieces : List (List UInt8)} {copy : Option Source}
    (hcopy : copy.isSome → pieces.flatten ≠ []) :
    OutOk (append b pieces copy)
      ∧ (append b pieces copy).content = b.content ++ appendedText pieces copy
      ∧ Buffer.Extends b (append b pieces copy) := by
  obtain ⟨hok, hcont, hext⟩ := writes_spec h pieces
  cases copy with
  | none =>
      refine ⟨hok, ?_, hext⟩
      rw [appendedText, Option.map_none, Option.getD_none, List.append_nil]
      exact hcont
  | some other =>
      -- the bytes just written keep the read position off the old end
      have hne : (pieces.foldl Buffer.write b).content ≠ [] := by
        rw [hcont]
        exact List.append_ne_nil_of_right_ne_nil _ (hcopy rfl)
      have hpos := hok.live.readSize_pos hok.inv hne
      obtain ⟨hinv', hcont', hext'⟩ := Buffer.copyFrom_spec hok.inv other.inv other.unread
      refine ⟨⟨hinv', Buffer.copyFrom_live hok.inv hpos other.inv other.unread,
        Buffer.copyFrom_room hok.inv hok.room other.inv other.unread⟩, ?_, hext.trans hext'⟩
      rw [appendedText, Option.map_some, Option.getD_some, ← List.append_assoc, ← hcont]
      exact hcont'

/-! ## What the writer relies on -/

/-- The bytes the socket has taken and `doWrite` has yet to consume. -/
def Pc.sent : Pc → Option ℕ
  | .wrote _ (.bytes m) => some m
  | _ => none

theorem Pc.active_of_sent {pc : Pc} {m : ℕ} (h : pc.sent = some m) : pc.active = true := by
  cases pc with
  | wrote size res => rfl
  | _ => cases h

def PcOk (b : Buffer) : Pc → Prop
  | .send size data bytes => data = b.readPtr ∧ size ≤ b.readSize ∧ bytes = b.content.take size
  | .wrote size (.bytes m) => m ≤ size ∧ size ≤ b.readSize
  | .wrote size _ => size ≤ b.readSize
  | _ => True

theorem PcOk.sent_le {b : Buffer} {pc : Pc} (h : PcOk b pc) {m : ℕ} (hm : pc.sent = some m) :
    m ≤ b.readSize := by
  cases pc with
  | wrote size res =>
      cases res with
      | bytes k =>
          obtain rfl := Option.some.inj hm
          exact Nat.le_trans h.1 h.2
      | again => cases hm
      | error => cases hm
  | _ => cases hm

/-- The bytes a writer has sampled do not change when others append. -/
theorem PcOk.extend {b b' : Buffer} {pc : Pc} (h : PcOk b pc) (hwf : b.Wf)
    (hext : Buffer.Extends b b') {text : List UInt8} (hcont : b'.content = b.content ++ text) :
    PcOk b' pc := by
  cases pc with
  | send size data bytes =>
      obtain ⟨hdata, hsize, hbytes⟩ := h
      refine ⟨hdata.trans hext.readPtr.symm, Nat.le_trans hsize hext.readSize, ?_⟩
      rw [hcont, List.take_append_of_le_length (Nat.le_trans hsize (Buffer.readSize_le hwf))]
      exact hbytes
  | wrote size res =>
      cases res with
      | bytes m => exact ⟨h.1, Nat.le_trans h.2 hext.readSize⟩
      | again => exact Nat.le_trans h hext.readSize
      | error => exact Nat.le_trans h hext.readSize
  | _ => trivial

/-- The account of the bytes; `d` of the accepted ones are still in the
buffer. -/
structure Account (s : State) (d : ℕ) : Prop where
  stream : s.accepted ++ s.out.content.drop d = s.appended.flatten
  sent : ∀ t m, (s.pc t).sent = some m → m = d
  taken : d ≠ 0 → ∃ t, (s.pc t).sent = some d

structure Inv (s : State) : Prop where
  out : OutOk s.out
  owner : ∃ o, Owner s o
  ok : ∀ t, PcOk s.out (s.pc t)
  account : ∃ d, Account s d

theorem Initial.inv (h : Initial s) : Inv s := by
  obtain ⟨heap, hout⟩ := h.out
  refine ⟨?_, ⟨none, fun x => ?_, fun hne => absurd rfl hne⟩, fun t => ?_, 0, ?_, fun t m hm => ?_,
    fun hne => absurd rfl hne⟩
  · rw [hout]
    exact .new heap
  · cases x <;> simp [Active, h.pc, h.waitingWrite, h.scheduleNow, h.tasks, Pc.active]
  · rw [h.pc t]
    trivial
  · rw [h.accepted, h.appended, hout, (Buffer.new_inv heap).2]
    rfl
  · rw [h.pc t] at hm
    cases hm

/-! ## Steps -/

@[simp] theorem goto_pc_same (x : State) (t : Tid) (pc : Pc) : (x.goto t pc).pc t = pc :=
  Function.update_self ..

theorem goto_pc_of_ne (x : State) {t u : Tid} (pc : Pc) (h : u ≠ t) :
    (x.goto t pc).pc u = x.pc u :=
  Function.update_of_ne h ..

/-- What holds of the threads after `t` has moved on. -/
theorem forall_goto {P : Pc → Prop} {x : State} {t : Tid} {pc : Pc} (ht : P pc)
    (hu : ∀ u, u ≠ t → P (x.pc u)) (u : Tid) : P ((x.goto t pc).pc u) := by
  by_cases hut : u = t
  · subst hut
    rw [goto_pc_same]
    exact ht
  · rw [goto_pc_of_ne _ _ hut]
    exact hu u hut

/-- Steps of threads that neither send nor consume. -/
theorem Account.keep {x : State} {t : Tid} {pc : Pc} {d : ℕ} (h : Account s d) (hx : x.pc = s.pc)
    (hs : ∀ m, (s.pc t).sent = some m → m = 0) (hpc : pc.sent = none)
    (hstream : x.accepted ++ x.out.content.drop d = x.appended.flatten) :
    Account (x.goto t pc) d := by
  refine ⟨hstream, fun u m hm => ?_, fun hd => ?_⟩
  · by_cases hu : u = t
    · rw [hu, goto_pc_same, hpc] at hm
      cases hm
    · rw [goto_pc_of_ne _ _ hu, hx] at hm
      exact h.sent u m hm
  · obtain ⟨u, hu⟩ := h.taken hd
    have hut : u ≠ t := by
      rintro rfl
      exact hd (hs d hu)
    refine ⟨u, ?_⟩
    rw [goto_pc_of_ne _ _ hut, hx]
    exact hu

/-- A step of `t` that leaves the buffer and the streams alone. -/
theorem Inv.quiet (h : Inv s) {x : State} {t : Tid} {pc : Pc} (hx : x.pc = s.pc)
    (hout : x.out = s.out) (hacc : x.accepted = s.accepted) (happ : x.appended = s.appended)
    (hown : ∃ o, Owner (x.goto t pc) o) (hs : ∀ m, (s.pc t).sent = some m → m = 0)
    (hpc : pc.sent = none) (hok : PcOk s.out pc) : Inv (x.goto t pc) := by
  obtain ⟨d, hd⟩ := h.account
  have hstream : x.accepted ++ x.out.content.drop d = x.appended.flatten := by
    rw [hacc, hout, happ]
    exact hd.stream
  refine ⟨hout ▸ h.out, hown, forall_goto (P := PcOk x.out) (hout ▸ hok) fun u _ => ?_, d,
    hd.keep hx hs hpc hstream⟩
  rw [hout, hx]
  exact h.ok u

/-- The same for the descriptor and the worker pool. -/
theorem Inv.aside (h : Inv s) {x : State} (hx : x.pc = s.pc) (hout : x.out = s.out)
    (hacc : x.accepted = s.accepted) (happ : x.appended = s.appended)
    (hown : ∃ o, Owner x o) : Inv x := by
  obtain ⟨d, hd⟩ := h.account
  refine ⟨hout ▸ h.out, hown, fun t => ?_, d, ?_, fun t => ?_, fun hne => ?_⟩
  · rw [hout, hx]
    exact h.ok t
  · rw [hacc, hout, happ]
    exact hd.stream
  · rw [hx]
    exact hd.sent t
  · rw [hx]
    exact hd.taken hne

/-- While `t` is the writer nobody else has bytes to send or to consume. -/
theorem Inv.others (h : Inv s) {t u : Tid} (ht : (s.pc t).active = true) (hu : u ≠ t) :
    (s.pc u).active = false := by
  obtain ⟨o, ho⟩ := h.owner
  exact Bool.eq_false_iff.mpr fun hact => hu (ho.single ht hact)

theorem Inv.writing (h : Inv s) {t : Tid} (ht : (s.pc t).active = true) : s.writing = true := by
  obtain ⟨o, ho⟩ := h.owner
  refine ho.writing ?_
  rw [(ho.active (.running t)).mp ht]
  simp

theorem PcOk.of_inactive {b : Buffer} {pc : Pc} (h : pc.active = false) : PcOk b pc := by
  cases pc with
  | send size data bytes => cases h
  | wrote size res => cases h
  | _ => trivial

/-- The section that consumes the `m` bytes the socket has taken. -/
theorem Inv.consume (h : Inv s) {t : Tid} {size m : ℕ} {x : State} {pc : Pc}
    (hpc : s.pc t = .wrote size (.bytes m)) (hx : x.pc = s.pc) (hout : x.out = s.out.consume m)
    (hacc : x.accepted = s.accepted) (happ : x.appended = s.appended)
    (hown : ∃ o, Owner (x.goto t pc) o) (hdone : pc = .doWrite ∨ pc = .idle) :
    Inv (x.goto t pc) := by
  obtain ⟨d, hd⟩ := h.account
  have hact : (s.pc t).active = true := by rw [hpc]; rfl
  have hmd : m = d := hd.sent t m (by rw [hpc]; rfl)
  refine ⟨hout ▸ h.out.consume m, hown, forall_goto ?_ fun u hu => ?_, 0, ?_, fun u k hk => ?_,
    fun hne => absurd rfl hne⟩
  · rcases hdone with rfl | rfl <;> trivial
  · rw [hx]
    exact .of_inactive (h.others hact hu)
  · show x.accepted ++ x.out.content.drop 0 = x.appended.flatten
    rw [hacc, happ, hout, (Buffer.consume_spec h.out.inv m).2.1, List.drop_zero, hmd]
    exact hd.stream
  · by_cases hu : u = t
    · rw [hu, goto_pc_same] at hk
      rcases hdone with rfl | rfl <;> cases hk
    · rw [goto_pc_of_ne _ _ hu, hx] at hk
      have := h.others hact hu
      rw [Pc.active_of_sent hk] at this
      cases this

/-- The section that appends to the buffer. -/
theorem Inv.append (h : Inv s) {t : Tid} {pieces : List (List UInt8)} {copy : Option Source}
    {x : State} {pc : Pc} (hpc : s.pc t = .idle) (hcopy : copy.isSome → pieces.flatten ≠ [])
    (hx : x.pc = s.pc) (hout : x.out = Connection.append s.out pieces copy)
    (hacc : x.accepted = s.accepted)
    (happ : x.appended = s.appended ++ [appendedText pieces copy])
    (hown : ∃ o, Owner (x.goto t pc) o) (hsent : pc.sent = none) (hok : ∀ b, PcOk b pc) :
    Inv (x.goto t pc) := by
  obtain ⟨d, hd⟩ := h.account
  obtain ⟨hout', hcont, hext⟩ := append_spec h.out hcopy
  rw [← hout] at hout' hcont hext
  refine ⟨hout', hown, forall_goto (hok _) fun u _ => ?_, d, hd.keep hx (fun m hm => ?_) hsent ?_⟩
  · rw [hx]
    exact (h.ok u).extend h.out.inv.wf hext hcont
  · rw [hpc] at hm
    cases hm
  · -- what is on its way to the socket is in front of the new text
    have hle : d ≤ s.out.content.length := by
      rcases Nat.eq_zero_or_pos d with rfl | hpos
      · exact Nat.zero_le _
      · obtain ⟨u, hu⟩ := hd.taken (Nat.ne_of_gt hpos)
        exact Nat.le_trans ((h.ok u).sent_le hu) (Buffer.readSize_le h.out.inv.wf)
    rw [hacc, happ, hcont, List.drop_append_of_le_length hle, ← List.append_assoc, hd.stream]
    simp

/-- The socket takes `m` of the bytes that the writer has sampled. -/
theorem Inv.send (h : Inv s) {t : Tid} {size m : ℕ} {data : ℕ × ℕ} {bytes : List UInt8}
    (hpc : s.pc t = .send size data bytes) (hm : m ≤ size)
    (hown : ∃ o, Owner (s.socketWrite t size data (.bytes m)) o) :
    Inv (s.socketWrite t size data (.bytes m)) := by
  obtain ⟨d, hacc⟩ := h.account
  have hpcok := h.ok t
  rw [hpc] at hpcok
  obtain ⟨rfl, hsize, -⟩ := hpcok
  have hothers : ∀ u, (s.pc u).sent = none := by
    intro u
    cases hu : (s.pc u).sent with
    | none => rfl
    | some k =>
        by_cases hut : u = t
        · rw [hut, hpc] at hu
          cases hu
        · have := h.others (t := t) (by rw [hpc]; rfl) hut
          rw [Pc.active_of_sent hu] at this
          cases this
  -- nothing is on its way, so the account starts from zero
  have hd : d = 0 := by
    by_contra hne
    obtain ⟨u, hu⟩ := hacc.taken hne
    rw [hothers u] at hu
    cases hu
  have hstream := hacc.stream
  rw [hd, List.drop_zero] at hstream
  refine ⟨h.out, hown, forall_goto ⟨hm, hsize⟩ fun u _ => h.ok u, m, ?_, fun u k hk => ?_,
    fun _ => ⟨t, by rw [State.socketWrite, goto_pc_same]; rfl⟩⟩
  · show (s.accepted ++ (s.out.peek s.out.readPtr m).getD []) ++ s.out.content.drop m = _
    rw [Buffer.peek_eq h.out.inv (Nat.le_trans hm hsize), Option.getD_some, List.append_assoc,
      List.take_append_drop]
    exact hstream
  · by_cases hu : u = t
    · rw [State.socketWrite, hu, goto_pc_same] at hk
      exact (Option.some.inj hk).symm
    · rw [State.socketWrite, goto_pc_of_ne _ _ hu] at hk
      rw [show _ = none from hothers u] at hk
      cases hk

theorem Inv.move (h : Inv s) (hm : Move n s l s') : Inv s' := by
  obtain ⟨o, ho⟩ := h.owner
  have hown := ho.move hm
  cases hm with
  | append ht hpc hcopy =>
      exact h.append hpc hcopy rfl rfl rfl rfl hown rfl fun _ => trivial
  | startKeep hpc hw =>
      exact h.quiet rfl rfl rfl rfl hown (by simp [hpc, Pc.sent]) rfl trivial
  | startTake hpc hw =>
      exact h.quiet rfl rfl rfl rfl hown (by simp [hpc, Pc.sent]) rfl trivial
  | @sample t hpc =>
      refine h.quiet rfl rfl rfl rfl hown (by simp [hpc, Pc.sent]) rfl ⟨rfl, Nat.le_refl _, ?_⟩
      rw [Buffer.peek_eq h.out.inv (Nat.le_refl _)]
      rfl
  | sendBytes hpc hm => exact h.send hpc hm hown
  | @sendFail t size data bytes res hpc hres =>
      have hpcok := h.ok t
      rw [hpc] at hpcok
      rcases hres with rfl | rfl
      · exact h.quiet rfl rfl rfl rfl hown (by simp [hpc, Pc.sent]) rfl hpcok.2.1
      · exact h.quiet rfl rfl rfl rfl hown (by simp [hpc, Pc.sent]) rfl hpcok.2.1
  | again hpc => exact h.quiet rfl rfl rfl rfl hown (by simp [hpc, Pc.sent]) rfl trivial
  | stop hpc hres =>
      refine h.quiet rfl rfl rfl rfl hown ?_ rfl trivial
      rcases hres with rfl | rfl
      · simp [hpc, Pc.sent]
      · simp [hpc, Pc.sent]
  | drained hpc hm hz => exact h.consume hpc rfl rfl rfl rfl hown (.inr rfl)
  | goOn hpc hm hz => exact h.consume hpc rfl rfl rfl rfl hown (.inl rfl)
  | rearmReady hpc hc => exact h.quiet rfl rfl rfl rfl hown (by simp [hpc, Pc.sent]) rfl trivial
  | rearmWait hpc hc => exact h.quiet rfl rfl rfl rfl hown (by simp [hpc, Pc.sent]) rfl trivial
  | addTask hpc => exact h.quiet rfl rfl rfl rfl hown (by simp [hpc, Pc.sent]) rfl trivial
  | unlock hpc => exact h.quiet rfl rfl rfl rfl hown (by simp [hpc, Pc.sent]) rfl trivial
  | readyWaiting hw => exact h.aside rfl rfl rfl rfl hown
  | readyEarly hw => exact h.aside rfl rfl rfl rfl hown
  | schedule hs => exact h.aside rfl rfl rfl rfl hown
  | run ht hpc hpos => exact h.quiet rfl rfl rfl rfl hown (by simp [hpc, Pc.sent]) rfl trivial

end Connection

end HttpServer
