import HttpServer.ConnectionRead

/-!
# Every byte is served

A sub-class of `Connection` whose `readDone` follows a recogniser and a
handler (`Reader.Serves`) handles what arrives at its socket as if it came
in one piece and was served by one thread: however the bytes are cut into
reads, wherever the threads, the poll thread and the peer come between,
whenever the reading side is at rest nothing is left at the socket that
could still be handled, and the handler has had exactly the values that
the stream begins with (`served_at_rest`).

Two kinds of runs are left out (`Whole`): those in which the parser is
called on a text that is cut in the line end of a header, and those in
which a read of the socket fails.
-/

namespace HttpServer

namespace ConnectionRead

open Buffer HttpServer.Parser Incremental ReadDone
open ConnectionRefs (ReadPc Tid)

variable {σ κ τ α : Type}

/-- The turns of `readDone` follow `p` and the handler `f`, which has to do
with what `seen` shows of the members; other threads do not change that. -/
structure Reader.Serves (R : Reader σ κ) (p : Recogniser UInt8 More Fail α) (seen : σ → τ)
    (f : τ → α → τ × Bool) : Prop where
  empty : p.read [] = .more .incomplete
  turn : ∀ {inb : Buffer} {x : σ}, Iterator.Readable inb →
    Follows seen f inb x (R.turn inb x) (p.read inb.content)
  beside : ∀ x k, seen (R.beside x k) = seen x

/-- The parser is not called on a cut text, and no read fails. -/
def Whole (p : Recogniser UInt8 More Fail α) (s : State σ) : Act κ → Prop
  | .turn _ => p.read s.inb.content ≠ .more .cut
  | .read _ res => res ≠ .error
  | _ => True

/-- Neither the poll thread nor a task nor a thread has to do with the
reading side, and what has arrived was reported. -/
def State.AtRest (n : ℕ) (s : State σ) : Prop :=
  s.refs.started = true ∧ s.edge = false ∧ s.refs.scheduleRead = false ∧ s.refs.readTasks = 0
    ∧ ∀ t < n, (s.refs.pc t).rd = .none

instance (n : ℕ) (s : State σ) : Decidable (s.AtRest n) := inferInstanceAs (Decidable (_ ∧ _))

/-! ## The invariant -/

/-- What has been served of the bytes read. -/
structure Progress (n : ℕ) (p : Recogniser UInt8 More Fail α) (seen : σ → τ)
    (f : τ → α → τ × Bool) (x : τ) (s : State σ) (read : List UInt8) : Prop where
  /-- The rest of the loop serves the rest. -/
  working : Working s.refs → serve p f x read = serve p f (seen s.user) s.inb.content
  /-- With no reader left there is nothing left to serve. -/
  between : ¬Working s.refs → ∃ stop, serve p f x read = ⟨seen s.user, s.inb.content, stop⟩
    ∧ (s.refs.started = false ∨ s.refs.currentReads n = 1 → stop = .more .incomplete)
    ∧ (s.refs.started = true → s.refs.currentReads n = 0 →
      (∀ m, stop ≠ .more m) ∨ s.sock = [] ∧ s.ended = true)

structure Inv (n : ℕ) (p : Recogniser UInt8 More Fail α) (seen : σ → τ)
    (f : τ → α → τ × Bool) (x : τ) (s : State σ) : Prop where
  refs : ConnectionRefs.Inv n s.refs
  readable : Iterator.Readable s.inb
  owed : (view (s.canRead = true) (s.edge = true) s.refs).Owed
  served : ∃ read, s.arrived = read ++ s.sock ∧ Progress n p seen f x s read

section

variable {n : ℕ} {R : Reader σ κ} {p : Recogniser UInt8 More Fail α} {seen : σ → τ}
  {f : τ → α → τ × Bool} {x : σ} {x₀ : τ} {s s' : State σ} {t : Tid}

theorem canRead_eq_false : s.canRead = false ↔ s.sock = [] ∧ s.ended = false := by
  simp [State.canRead]

theorem refsStep_spec {a : ConnectionRefs.Act} (hs : s.refsStep n a = some s') :
    ∃ refs, ConnectionRefs.step n s.refs a = some refs ∧ s' = { s with refs } := by
  obtain ⟨refs, hrefs, rfl⟩ := Option.map_eq_some_iff.mp hs
  exact ⟨refs, hrefs, rfl⟩

/-- A thread at the socket is there alone. -/
theorem not_working (h : ConnectionRefs.Inv n s.refs) {rd : ReadPc}
    (hp : (s.refs.pc t).rd = rd) (hcur : rd.current = 1) (hrd : rd ≠ .readDone) :
    ¬Working s.refs := by
  rintro ⟨u, hu⟩
  by_cases hut : u = t
  · rw [hut, hp] at hu
    exact hrd hu
  · have hzero := rd_unique h (lt_of_current h (hp ▸ hcur)) (hp ▸ hcur) hut
    rw [hu] at hzero
    cases hzero

theorem Initial.inv (hR : R.Serves p seen f) (h : Initial x s) : Inv n p seen f (seen x) s := by
  obtain ⟨heap, hinb⟩ := h.inb
  obtain ⟨hinv, hcont⟩ := new_inv heap
  have hnot : ¬Working s.refs := by
    rintro ⟨t, ht⟩
    rw [h.refs.pc t] at ht
    cases ht
  refine ⟨ConnectionRefs.Initial.inv h.refs, ?_, ?_, [], ?_, fun hw => absurd hw hnot, fun _ => ?_⟩
  · rw [hinb]
    exact ⟨hinv, new_live heap⟩
  · refine ⟨fun _ => ?_, fun hw => ?_, fun _ _ => .inl h.edge⟩
    · simp [view, h.refs.waitingRead]
    · exact absurd (h.refs.waitingRead.symm.trans hw) Bool.false_ne_true
  · rw [h.arrived, List.nil_append]
  · refine ⟨.more .incomplete, ?_, fun _ => rfl, fun hs => ?_⟩
    · rw [serve_more hR.empty, h.user, hinb, hcont]
    · exact absurd (h.refs.started.symm.trans hs) Bool.false_ne_true

/-! ## Steps of the reader -/

/-- The thread that has the activity goes on; the others have no part in
it. -/
structure Moved (n : ℕ) (rd : ReadPc) (refs refs' : ConnectionRefs.State) : Prop where
  working : Working refs' ↔ rd = .readDone
  current : refs'.currentReads n = rd.current
  asks : (∃ u, asks (refs'.pc u).rd = true) → asks rd = true
  started : refs.started = true ∧ refs'.started = true
  flags : refs'.canRead = refs.canRead ∧ refs'.waitingRead = refs.waitingRead
    ∧ refs.waitingRead = false

theorem moved_setRd {refs : ConnectionRefs.State} (h : ConnectionRefs.Inv n refs) (ht : t < n)
    {rd : ReadPc} (hp : refs.pc t = ⟨rd, .none⟩) (hcur : rd.current = 1) (rd' : ReadPc) :
    Moved n rd' refs (refs.setRd t rd') := by
  have hcur' : (refs.pc t).rd.current = 1 := by rw [hp]; exact hcur
  have hpc : (refs.setRd t rd').pc = Function.update refs.pc t ⟨rd', .none⟩ :=
    ConnectionRefs.setRd_pc hp rd'
  have hothers : ∀ {u : Tid}, u ≠ t → (refs.pc u).rd.current = 0 := rd_unique h ht hcur'
  have hpark := h.parkedReads_eq_zero ht rfl hcur'
  have hone := currentReads_eq_one h hcur'
  refine ⟨⟨?_, fun hrd => ⟨t, ?_⟩⟩, ?_, fun ha => ?_, ?_, rfl, rfl,
    ConnectionRefs.waitingRead_of_parked hpark⟩
  · rintro ⟨u, hu⟩
    rw [hpc] at hu
    by_cases hut : u = t
    · rw [hut, Function.update_self] at hu
      exact hu
    · rw [Function.update_of_ne hut] at hu
      have hzero := hothers hut
      rw [hu] at hzero
      cases hzero
  · rw [hpc, Function.update_self]
    exact hrd
  · have htotal := Tally.total_update (fun p : ConnectionRefs.Pc => p.rd.current) refs.pc ht
      ⟨rd', .none⟩
    rw [hp] at htotal
    rw [ConnectionRefs.State.currentReads, hpark] at hone
    have hpark' : (refs.setRd t rd').parkedReads = 0 := hpark
    rw [ConnectionRefs.State.currentReads, hpc, hpark']
    simp only [hcur] at htotal
    omega
  · rcases exists_asks_update hpc ha with ha | ⟨u, hut, ha⟩
    · exact ha
    · have hzero := hothers hut
      rw [current_of_asks ha] at hzero
      cases hzero
  · have hreads := h.reads
    rw [hone] at hreads
    have hs : refs.started = true := by
      cases hb : refs.started with
      | true => rfl
      | false =>
          rw [hb] at hreads
          cases hreads
    exact ⟨hs, hs⟩

/-- What the reader leaves behind. -/
theorem Inv.of_moved {refs' : ConnectionRefs.State} {rd : ReadPc}
    (hrefs : ConnectionRefs.Inv n refs') (hm : Moved n rd s.refs refs') {inb : Buffer} {user : σ}
    {sock : List UInt8} (read : List UInt8) (hinb : Iterator.Readable inb)
    (howed : (view (s.canRead = true) (s.edge = true) refs').Owed)
    (hsock : sock ≠ [] → s.sock ≠ []) (hsplit : s.arrived = read ++ sock)
    (hworking : rd = .readDone → serve p f x₀ read = serve p f (seen user) inb.content)
    (hbetween : rd ≠ .readDone → ∃ stop, serve p f x₀ read = ⟨seen user, inb.content, stop⟩
      ∧ (rd.current = 1 → stop = .more .incomplete)
      ∧ (rd.current = 0 → (∀ m, stop ≠ .more m) ∨ sock = [] ∧ s.ended = true)) :
    Inv n p seen f x₀ { s with refs := refs', inb, user, sock } := by
  refine ⟨hrefs, hinb, ?_, read, hsplit, fun hw => hworking (hm.working.mp hw), fun hw => ?_⟩
  · refine howed.mono (fun hr => ?_) id Iff.rfl Iff.rfl id
    simp only [State.canRead, Bool.or_eq_true, Bool.not_eq_true', List.isEmpty_eq_false_iff]
      at hr ⊢
    exact hr.imp_left hsock
  · obtain ⟨stop, hserve, hmore, hfinal⟩ := hbetween fun hrd => hw (hm.working.mpr hrd)
    refine ⟨stop, hserve, fun hs => ?_, fun _ h0 => hfinal (hm.current ▸ h0)⟩
    rcases hs with hs | hs
    · exact absurd (hs.symm.trans hm.started.2) Bool.false_ne_true
    · exact hmore (hm.current ▸ hs)

/-- The reader at the socket has served what was read. -/
theorem Inv.at_read (h : Inv n p seen f x₀ s) (hp : s.refs.pc t = ⟨.read, .none⟩) :
    ∃ read, s.arrived = read ++ s.sock
      ∧ serve p f x₀ read = ⟨seen s.user, s.inb.content, .more .incomplete⟩ := by
  have hrd : (s.refs.pc t).rd = .read := by rw [hp]
  obtain ⟨read, hsplit, hprog⟩ := h.served
  obtain ⟨stop, hserve, hmore, -⟩ := hprog.between (not_working h.refs hrd rfl (by simp))
  obtain rfl := hmore (.inr (currentReads_eq_one h.refs (t := t) (by rw [hrd]; rfl)))
  exact ⟨read, hsplit, hserve⟩

theorem reserve_readable (h : Iterator.Readable s.inb) (m : ℕ) :
    Iterator.Readable (s.inb.reserve m).1 :=
  ⟨(reserve_spec h.inv m).1, reserve_live h.inv h.live m⟩

/-- The bytes read are behind the others. -/
theorem append_spec {inb : Buffer} (h : Iterator.Readable inb) {data : List UInt8}
    (hne : data ≠ []) (hfit : data.length ≤ inb.writeSize) :
    Iterator.Readable ((inb.store data).advance data.length).1
      ∧ ((inb.store data).advance data.length).1.content = inb.content ++ data := by
  obtain ⟨hinv, hcont, hptr⟩ := store_spec h.inv data
  obtain ⟨hinv', hok, hdone, -⟩ := advance_spec hinv data.length
  have htrue := hok.mpr ⟨List.length_pos_iff.mpr hne, hfit⟩
  refine ⟨⟨hinv', advance_live hinv (store_live h.live data) _⟩, ?_⟩
  rw [hdone htrue, hcont, hptr]

theorem Inv.read (h : Inv n p seen f x₀ s) {res : Result} (hok : res ≠ .error)
    (hs : read n s t res = some s') : Inv n p seen f x₀ s' := by
  have hreadable := reserve_readable h.readable 1024
  have hcontent : (s.inb.reserve 1024).1.content = s.inb.content :=
    (reserve_spec h.readable.inv _).2.1
  cases res with
  | data m =>
      simp only [ConnectionRead.read] at hs
      obtain ⟨hne, hs⟩ := Option.ite_none_left_eq_some.mp hs
      obtain ⟨refs, hrefs, rfl⟩ := refsStep_spec hs
      dsimp only at hne hrefs ⊢
      have hinv := h.refs.step hrefs
      obtain ⟨⟨ht, hp⟩, hrefs⟩ := Option.ite_none_right_eq_some.mp hrefs
      obtain rfl := Option.some.inj hrefs
      obtain ⟨read, hsplit, hserve⟩ := h.at_read hp
      have hm := moved_setRd h.refs ht hp rfl .readDone
      generalize hdata : s.sock.take (min m (s.inb.reserve 1024).1.writeSize) = data at hne ⊢
      have hfit : data.length ≤ (s.inb.reserve 1024).1.writeSize := by
        rw [← hdata, List.length_take]
        omega
      obtain ⟨hreadable', hcont'⟩ := append_spec hreadable hne hfit
      have hsock : data ++ s.sock.drop data.length = s.sock := by
        have hpre : data <+: s.sock := hdata ▸ List.take_prefix _ _
        exact List.prefix_iff_eq_append.mp hpre
      refine Inv.of_moved (s := s) hinv hm (read ++ data) hreadable' ?_ ?_ ?_ ?_ ?_
      · exact h.owed.mono id id Iff.rfl Iff.rfl fun ha => by
          rcases ha with hs | ha
          · exact .inl hs
          · cases hm.asks ha
      · intro hdrop hnil
        rw [hnil, List.drop_nil] at hdrop
        exact hdrop rfl
      · rw [List.append_assoc, hsock, hsplit]
      · intro _
        rw [serve_append, hserve, Served.feed, hcont', hcontent]
      · exact fun hrd => absurd rfl hrd
  | again =>
      simp only [ConnectionRead.read] at hs
      obtain ⟨hcan, hs⟩ := Option.ite_none_left_eq_some.mp hs
      obtain ⟨refs, hrefs, rfl⟩ := refsStep_spec hs
      dsimp only at hcan hrefs ⊢
      have hinv := h.refs.step hrefs
      obtain ⟨⟨ht, hp⟩, hrefs⟩ := Option.ite_none_right_eq_some.mp hrefs
      obtain rfl := Option.some.inj hrefs
      obtain ⟨read, hsplit, hserve⟩ := h.at_read hp
      have hm := moved_setRd h.refs ht hp rfl .acquire
      refine Inv.of_moved (s := s) hinv hm read hreadable ?_ id hsplit (by simp) ?_
      · have hdrained : EdgeTriggered.Owed { view (s.canRead = true) (s.edge = true) s.refs with
            asking := True } := .drained (by simp [view, hm.flags.2.2]) hcan
        exact hdrained.mono id id Iff.rfl Iff.rfl fun _ => trivial
      · exact fun _ => ⟨_, by rw [hserve, hcontent], fun _ => rfl, by simp [ReadPc.current]⟩
  | closed =>
      simp only [ConnectionRead.read] at hs
      obtain ⟨⟨hnil, hend⟩, hs⟩ := Option.ite_none_right_eq_some.mp hs
      obtain ⟨refs, hrefs, rfl⟩ := refsStep_spec hs
      dsimp only at hnil hend hrefs ⊢
      have hinv := h.refs.step hrefs
      obtain ⟨⟨ht, hp⟩, hrefs⟩ := Option.ite_none_right_eq_some.mp hrefs
      obtain rfl := Option.some.inj hrefs
      obtain ⟨read, hsplit, hserve⟩ := h.at_read hp
      have hm := moved_setRd h.refs ht hp rfl .release
      refine Inv.of_moved (s := s) hinv hm read hreadable ?_ id hsplit (by simp) ?_
      · exact h.owed.mono id id Iff.rfl Iff.rfl fun ha => by
          rcases ha with hs | ha
          · exact .inl hs
          · cases hm.asks ha
      · exact fun _ => ⟨_, by rw [hserve, hcontent], by simp [ReadPc.current],
          fun _ => .inr ⟨hnil, hend⟩⟩
  | error => exact absurd rfl hok

/-- `readDone` returns `ok`, with what is left of the serving in `stop`. -/
theorem Inv.ret (h : Inv n p seen f x₀ s) (ht : t < n) (hp : s.refs.pc t = ⟨.readDone, .none⟩)
    {inb : Buffer} {user : σ} {read : List UInt8} (ok : Bool) (stop : Stop More Fail)
    (hinb : Iterator.Readable inb) (hsplit : s.arrived = read ++ s.sock)
    (hserve : serve p f x₀ read = ⟨seen user, inb.content, stop⟩)
    (hstop : if ok then stop = .more .incomplete else ∀ m, stop ≠ .more m)
    (hs : ({ s with inb, user }).refsStep n (.readDone t ok) = some s') :
    Inv n p seen f x₀ s' := by
  obtain ⟨refs, hrefs, rfl⟩ := refsStep_spec hs
  dsimp only at hrefs ⊢
  have hinv := h.refs.step hrefs
  obtain ⟨-, hrefs⟩ := Option.ite_none_right_eq_some.mp hrefs
  obtain rfl := Option.some.inj hrefs
  have hm := moved_setRd h.refs ht hp rfl (if ok then .read else .release)
  refine Inv.of_moved (s := s) hinv hm read hinb ?_ id hsplit ?_ fun _ => ⟨stop, hserve, ?_, ?_⟩
  · refine h.owed.mono id id Iff.rfl Iff.rfl fun ha => ?_
    rcases ha with hs | ha
    · exact .inl hs
    · have hasks := hm.asks ha
      cases ok <;> cases hasks
  · cases ok <;> exact nofun
  · intro hcur
    cases ok with
    | true => exact hstop
    | false => cases hcur
  · intro hcur
    cases ok with
    | true => cases hcur
    | false => exact .inl hstop

/-- A turn of `readDone`. -/
theorem Inv.turn (hR : R.Serves p seen f) (h : Inv n p seen f x₀ s)
    (hcut : p.read s.inb.content ≠ .more .cut) (hs : turn n R s t = some s') :
    Inv n p seen f x₀ s' := by
  obtain ⟨⟨ht, hp⟩, hs⟩ := Option.ite_none_right_eq_some.mp hs
  obtain ⟨read, hsplit, hprog⟩ := h.served
  have hserve := hprog.working ⟨t, by rw [hp]⟩
  have hfollows := hR.turn h.readable (x := s.user)
  cases hspec : p.read s.inb.content with
  | more m =>
      rw [hspec] at hfollows
      cases m with
      | incomplete =>
          obtain ⟨y, hturn, hseen⟩ := hfollows
          rw [hturn] at hs
          refine h.ret ht hp true (.more .incomplete) h.readable hsplit ?_ rfl hs
          rw [hserve, serve_more hspec, hseen]
      | cut => exact absurd hspec hcut
  | fail e =>
      rw [hspec] at hfollows
      cases e with
      | error =>
          obtain ⟨y, hturn, hseen⟩ := hfollows
          rw [hturn] at hs
          refine h.ret ht hp false (.fail .error) h.readable hsplit ?_ (fun _ => nofun) hs
          rw [hserve, serve_fail hspec, hseen]
      | outOfRange =>
          have hturn : R.turn s.inb s.user = .throws := hfollows
          rw [hturn] at hs
          cases hs
  | done a rest =>
      rw [hspec] at hfollows
      obtain ⟨inb', y, hinb, hcont, hseen, hgo⟩ := hfollows
      rw [serve_done hspec] at hserve
      by_cases hf : (f (seen s.user) a).2 = true
      · rw [if_pos hf, ← hseen] at hserve
        rw [if_pos hf] at hgo
        rcases hgo with hturn | ⟨hnil, hturn⟩
        · rw [hturn] at hs
          obtain rfl := Option.some.inj hs
          refine ⟨h.refs, hinb, h.owed, read, hsplit, fun _ => ?_, fun hw => ?_⟩
          · rw [hserve, hcont]
          · exact absurd ⟨t, by rw [hp]⟩ hw
        · rw [hturn] at hs
          refine h.ret ht hp true (.more .incomplete) hinb hsplit ?_ rfl hs
          rw [hserve, hcont, hnil, serve_more hR.empty]
      · rw [if_neg hf] at hgo hserve
        rw [hgo] at hs
        refine h.ret ht hp false .quit hinb hsplit ?_ (fun _ => nofun) hs
        rw [hserve, hseen, hcont]

/-- The poll thread reports the descriptor. -/
theorem owed_poll {ready : Prop} {edge : Prop} {refs : ConnectionRefs.State}
    (h : (view ready edge refs).Owed) : (view ready False refs.readIfWaiting).Owed := by
  rw [ConnectionRefs.State.readIfWaiting]
  by_cases hw : refs.waitingRead = true
  · rw [if_pos hw]
    exact (h.reportWaiting hw).mono id id Iff.rfl (by simp [view]) id
  · rw [if_neg hw]
    exact (h.reportKept hw).mono id id (by simp [view]) Iff.rfl id

theorem Inv.poll (h : Inv n p seen f x₀ s)
    (hs : ({ s with edge := false }).refsStep n .readable = some s') : Inv n p seen f x₀ s' := by
  obtain ⟨refs, hrefs, rfl⟩ := refsStep_spec hs
  dsimp only at hrefs ⊢
  have hinv := h.refs.step hrefs
  obtain ⟨hsch, hrefs⟩ := Option.ite_none_left_eq_some.mp hrefs
  obtain rfl := Option.some.inj hrefs
  have hsame : s.refs.readIfWaiting.pc = s.refs.pc
      ∧ s.refs.readIfWaiting.started = s.refs.started := by
    rw [ConnectionRefs.State.readIfWaiting]
    split <;> exact ⟨rfl, rfl⟩
  have hcur : s.refs.readIfWaiting.currentReads n = s.refs.currentReads n := by
    rw [ConnectionRefs.State.readIfWaiting]
    split
    · next hw =>
        simp only [ConnectionRefs.State.currentReads, ConnectionRefs.State.parkedReads, hw, hsch,
          Bool.toNat_true, Bool.toNat_false]
    · rfl
  obtain ⟨read, hsplit, hprog⟩ := h.served
  refine ⟨hinv, h.readable, ?_, read, hsplit, ?_, ?_⟩
  · exact (owed_poll h.owed).mono id (fun h => h.elim) Iff.rfl Iff.rfl id
  · rintro ⟨u, hu⟩
    exact hprog.working ⟨u, hsame.1 ▸ hu⟩
  · intro hw
    rw [hsame.2, hcur]
    exact hprog.between (mt (Exists.imp fun _ hu => hsame.1.symm ▸ hu) hw)

/-- Something happens at the socket. -/
theorem Inv.arrives (h : Inv n p seen f x₀ s) (hend : s.ended = false) (data : List UInt8)
    (ended : Bool) : Inv n p seen f x₀ { s with
      sock := s.sock ++ data, ended, arrived := s.arrived ++ data, edge := true } := by
  obtain ⟨read, hsplit, hprog⟩ := h.served
  refine ⟨h.refs, h.readable, ?_, read, ?_, hprog.working, fun hw => ?_⟩
  · exact (h.owed.arrive _).mono id (fun _ => rfl) Iff.rfl Iff.rfl id
  · rw [hsplit, List.append_assoc]
  · obtain ⟨stop, hserve, hmore, hfinal⟩ := hprog.between hw
    refine ⟨stop, hserve, hmore, fun hs h0 => .inl ?_⟩
    rcases hfinal hs h0 with hf | ⟨-, he⟩
    · exact hf
    · exact absurd (hend.symm.trans he) Bool.false_ne_true

/-- A step of the activities in which the reading side has no say. -/
theorem Inv.refsStep (h : Inv n p seen f x₀ s) {a : ConnectionRefs.Act} (ha : ofReader a = false)
    (hs : s.refsStep n a = some s') : Inv n p seen f x₀ s' := by
  obtain ⟨refs, hrefs, rfl⟩ := refsStep_spec hs
  have heff := Effect.step h.refs ha hrefs
  obtain ⟨read, hsplit, hprog⟩ := h.served
  refine ⟨h.refs.step hrefs, h.readable, heff.owed _ _ h.owed, read, hsplit, ?_, fun hw => ?_⟩
  · rintro ⟨t, ht⟩
    exact hprog.working ⟨t, (heff.working t).mp ht⟩
  · obtain ⟨stop, hserve, hmore, hfinal⟩ :=
      hprog.between (mt (Exists.imp fun t => (heff.working t).mpr) hw)
    refine ⟨stop, hserve, fun hs => ?_, fun hs h0 => ?_⟩
    · rcases heff.current with ⟨hstart, hcur⟩ | ⟨hstart, -, -⟩
      · exact hmore (hstart ▸ hcur ▸ hs)
      · exact hmore (.inl hstart)
    · rcases heff.current with ⟨hstart, hcur⟩ | ⟨-, -, hone⟩
      · exact hfinal (hstart ▸ hs) (hcur ▸ h0)
      · exact absurd (hone.symm.trans h0) (by decide)

theorem Inv.step (hR : R.Serves p seen f) (h : Inv n p seen f x₀ s) {a : Act κ}
    (hok : Whole p s a) (hs : step n R s a = some s') : Inv n p seen f x₀ s' := by
  cases a with
  | arrive data =>
      obtain ⟨hno, hs⟩ := Option.ite_none_left_eq_some.mp hs
      obtain rfl := Option.some.inj hs
      rw [not_or, Bool.not_eq_true] at hno
      exact h.arrives hno.2 data s.ended
  | close =>
      obtain ⟨hno, hs⟩ := Option.ite_none_left_eq_some.mp hs
      obtain rfl := Option.some.inj hs
      rw [Bool.not_eq_true] at hno
      have hstep := h.arrives hno [] true
      rwa [List.append_nil, List.append_nil] at hstep
  | poll stale =>
      simp only [ConnectionRead.step] at hs
      split at hs
      · exact h.poll hs
      · next hcan =>
          have hidle : ¬s.canRead = true := fun hread => hcan (Bool.or_eq_true_iff.mpr (.inl hread))
          obtain rfl := Option.some.inj hs
          obtain ⟨read, hsplit, hprog⟩ := h.served
          refine ⟨h.refs, h.readable, ?_, read, hsplit, hprog.working, hprog.between⟩
          exact (h.owed.reportIdle hidle).mono id (fun h => h.elim) Iff.rfl Iff.rfl id
  | read t res => exact h.read hok hs
  | turn t => exact h.turn hR hok hs
  | beside k =>
      obtain rfl := Option.some.inj hs
      obtain ⟨read, hsplit, hprog⟩ := h.served
      refine ⟨h.refs, h.readable, h.owed, read, hsplit, ?_, ?_⟩
      · rw [hR.beside]
        exact hprog.working
      · rw [hR.beside]
        exact hprog.between
  | refs a =>
      obtain ⟨ha, hs⟩ := Option.ite_none_left_eq_some.mp hs
      rw [Bool.not_eq_true] at ha
      exact h.refsStep ha hs

theorem reachable_inv (hR : R.Serves p seen f) (h : (machine n R x).ReachableBy (Whole p) s) :
    Inv n p seen f (seen x) s :=
  h.invariant (I := Inv n p seen f (seen x)) (fun _ hi => Initial.inv hR hi)
    fun _ _ _ hi hok hs => hi.step hR hok hs

/-! ## The members of the sub-class -/

/-- What holds of the members at first, and survives the turns of
`readDone` and the other threads, holds always. -/
theorem reachable_user {P : σ → Prop} {ok : State σ → Act κ → Prop} (hx : P x)
    (hturn : ∀ inb y y', P y → (R.turn inb y).user = some y' → P y')
    (hbeside : ∀ y k, P y → P (R.beside y k)) (h : (machine n R x).ReachableBy ok s) :
    P s.user := by
  refine h.invariant (I := fun s => P s.user) (fun s hi => hi.user.symm ▸ hx) ?_
  intro s a s' hP _ hs
  have hrefs : ∀ {r : State σ} {a : ConnectionRefs.Act}, r.refsStep n a = some s' →
      P r.user → P s'.user := by
    intro r a hs hP
    obtain ⟨refs, -, rfl⟩ := refsStep_spec hs
    exact hP
  cases a with
  | arrive data =>
      obtain ⟨-, hs⟩ := Option.ite_none_left_eq_some.mp hs
      obtain rfl := Option.some.inj hs
      exact hP
  | close =>
      obtain ⟨-, hs⟩ := Option.ite_none_left_eq_some.mp hs
      obtain rfl := Option.some.inj hs
      exact hP
  | poll stale =>
      simp only [machine, ConnectionRead.step] at hs
      split at hs
      · exact hrefs hs hP
      · obtain rfl := Option.some.inj hs
        exact hP
  | read t res =>
      cases res with
      | data m =>
          obtain ⟨-, hs⟩ := Option.ite_none_left_eq_some.mp hs
          exact hrefs hs hP
      | again =>
          obtain ⟨-, hs⟩ := Option.ite_none_left_eq_some.mp hs
          exact hrefs hs hP
      | closed =>
          obtain ⟨-, hs⟩ := Option.ite_none_right_eq_some.mp hs
          exact hrefs hs hP
      | error => exact hrefs hs hP
  | turn t =>
      obtain ⟨-, hs⟩ := Option.ite_none_right_eq_some.mp hs
      cases hturns : R.turn s.inb s.user with
      | again inb y =>
          rw [hturns] at hs
          obtain rfl := Option.some.inj hs
          exact hturn _ _ _ hP (by rw [hturns]; rfl)
      | ret b inb y =>
          rw [hturns] at hs
          exact hrefs hs (hturn _ _ _ hP (by rw [hturns]; rfl))
      | throws =>
          rw [hturns] at hs
          cases hs
  | beside k =>
      obtain rfl := Option.some.inj hs
      exact hbeside _ k hP
  | refs a =>
      obtain ⟨-, hs⟩ := Option.ite_none_left_eq_some.mp hs
      exact hrefs hs hP

/-! ## At rest -/

/-- A reading side at rest waits for an event, or has gone. -/
theorem State.AtRest.idle (h : s.AtRest n) (hI : ConnectionRefs.Inv n s.refs) :
    ¬Working s.refs ∧ s.refs.currentReads n = s.refs.waitingRead.toNat := by
  obtain ⟨-, -, hsch, htasks, hrd⟩ := h
  have hnone : ∀ t, (s.refs.pc t).rd = .none := by
    intro t
    by_cases ht : t < n
    · exact hrd t ht
    · rw [hI.idle t (not_lt.mp ht)]
      rfl
  refine ⟨fun ⟨t, ht⟩ => ?_, ?_⟩
  · rw [hnone t] at ht
    cases ht
  · rw [ConnectionRefs.State.currentReads, Tally.total_eq_zero fun t => by rw [hnone t]; rfl,
      ConnectionRefs.State.parkedReads, hsch, htasks, Bool.toNat_false, Nat.zero_add, Nat.add_zero]

/-- **At rest all that has arrived has been served**, in one piece as it
were: the handler is where the stream takes it, and what is in `in_` and at
the socket is the rest of the stream. -/
theorem served_at_rest (hR : R.Serves p seen f) (h : (machine n R x).ReachableBy (Whole p) s)
    (hrest : s.AtRest n) : ∃ stop, serve p f (seen x) s.arrived
      = ⟨seen s.user, s.inb.content ++ s.sock, stop⟩
    ∧ ((∃ m, stop = .more m) → s.sock = []) := by
  have hI := reachable_inv hR h
  obtain ⟨hidle, hcur⟩ := hrest.idle hI.refs
  obtain ⟨read, hsplit, hprog⟩ := hI.served
  obtain ⟨stop, hserve, hmore, hfinal⟩ := hprog.between hidle
  have hempty : (∃ m, stop = .more m) → s.sock = [] := by
    rintro ⟨m, hm⟩
    cases hw : s.refs.waitingRead with
    | true =>
        have hrest' := hI.owed.rest hw (by simp [view, hrest.2.1])
        exact (canRead_eq_false.mp (Bool.not_eq_true _ ▸ hrest')).1
    | false =>
        rw [hw] at hcur
        rcases hfinal hrest.1 hcur with hf | ⟨hnil, -⟩
        · exact absurd hm (hf m)
        · exact hnil
  refine ⟨stop, ?_, hempty⟩
  rw [hsplit, serve_append, hserve, Served.feed]
  cases stop with
  | more m =>
      have hnil := hempty ⟨m, rfl⟩
      have hread : p.read s.inb.content = .more m := by
        have := serve_rest (p := p) (f := f) (x := seen x) (s := read) (m := m) (by rw [hserve])
        rwa [hserve] at this
      rw [hnil, List.append_nil, serve_more hread]
  | fail e => rfl
  | quit => rfl

end

/-! ## A run -/

/-- A text that is not read to its end does not end in a carriage return. -/
theorem cut_getLast {s : List UInt8} (h : CutRequest s ∨ CutResponse s) : s.getLast? = some CR := by
  obtain ⟨t, rfl⟩ : ∃ t, s = t ++ [CR] := by
    rcases h with ⟨method, address, version, lines, line, -, -, -, rfl⟩
      | ⟨lines, line, -, -, -, rfl⟩
    · exact ⟨method ++ SP :: SLASH :: (address ++ SP :: (version ++ CR :: LF ::
        (linesText lines ++ line))), by simp⟩
    · exact ⟨linesText lines ++ line, (List.append_assoc ..).symm⟩
  rw [List.getLast?_append, List.getLast?_singleton, Option.some_or]

/-- Steps at which the text of `in_` shows that it is not cut. -/
def Plainly (s : State σ) : Act κ → Bool
  | .turn _ => s.inb.content.getLast? ≠ some CR
  | .read _ res => res ≠ .error
  | _ => true

theorem whole_of_plainly {s : State σ} {a : Act κ} (h : Plainly s a = true) :
    Whole requests s a ∧ Whole responses s a := by
  cases a with
  | turn t =>
      refine ⟨fun hcut => ?_, fun hcut => ?_⟩
      · exact of_decide_eq_true h (cut_getLast (.inl ((requestSpec_cut_iff _).mp hcut)))
      · exact of_decide_eq_true h (cut_getLast (.inr ((responseSpec_cut_iff _).mp hcut)))
  | read t res =>
      have hres : res ≠ .error := of_decide_eq_true h
      exact ⟨hres, hres⟩
  | _ => exact ⟨trivial, trivial⟩

/-- The activities of a new connection. -/
def freshRefs : ConnectionRefs.State :=
  ⟨0, false, none, false, false, false, false, false, false, 0, 0, fun _ => .idle, false, 0, 0⟩

/-- A new connection, with something at its socket. -/
def fresh (x : σ) (sock : List UInt8) : State σ :=
  ⟨freshRefs, sock, false, true, Buffer.new fun _ _ => 0, x, sock⟩

theorem fresh_initial (x : σ) (sock : List UInt8) : Initial x (fresh x sock) :=
  ⟨⟨rfl, rfl, rfl, rfl, rfl, rfl, rfl, rfl, rfl, fun _ => rfl, rfl, rfl, rfl⟩, ⟨_, rfl⟩, rfl, rfl,
    rfl, rfl⟩

/-- One thread reads what is there in two pieces, with one turn of
`readDone` behind the first. -/
def readAll (turns : ℕ) : List (Act κ) :=
  [.refs (.start 0), .poll false, .refs (.tick 0), .refs (.tick 0), .refs (.runRead 0),
    .read 0 (.data 3), .turn 0, .read 0 (.data 1000)] ++ List.replicate turns (.turn 0)
    ++ [.read 0 .again, .refs (.tick 0), .refs (.tick 0), .refs (.tick 0)]

/-- The requests are counted. -/
def count (k : ℕ) (_ : Request) : ℕ × Bool := (k + 1, true)

def counter : Reader (Server ℕ) Unit := ⟨serverTurn count, fun x _ => x⟩

theorem counter_serves : counter.Serves requests Server.user count :=
  ⟨rfl, fun hb => serverTurn_follows count hb _, fun _ _ => rfl⟩

/-- `"G /x 1\r\n\r\n"`, twice, and the first byte of a third one. -/
def twoRequests : List UInt8 :=
  [71, 32, 47, 120, 32, 49, 13, 10, 13, 10, 71, 32, 47, 120, 32, 49, 13, 10, 13, 10, 71]

theorem twoRequests_served : ∃ s stop, (machine 1 counter ⟨⟨[], [], []⟩, 0⟩).ReachableBy
    (Whole requests) s ∧ s.arrived = twoRequests ∧ s.user.user = 2 ∧ s.inb.content = [71]
    ∧ serve requests count 0 s.arrived = ⟨s.user.user, s.inb.content ++ s.sock, stop⟩ := by
  have hrun : ((machine 1 counter ⟨⟨[], [], []⟩, 0⟩).exec (fun s a => Plainly s a = true)
      (fresh ⟨⟨[], [], []⟩, 0⟩ twoRequests) (readAll 3)).any (fun s => decide (s.AtRest 1
        ∧ s.arrived = twoRequests ∧ s.user.user = 2 ∧ s.inb.content = [71])) = true := by
    decide +kernel
  obtain ⟨s, hs, hp⟩ := (Lts.ReachableBy.init (fresh_initial _ _)).exec_any hrun
  obtain ⟨hrest, harrived, huser, hinb⟩ := of_decide_eq_true hp
  have hs := hs.mono fun s a h => (whole_of_plainly h).1
  obtain ⟨stop, hserve, -⟩ := served_at_rest counter_serves hs hrest
  exact ⟨s, stop, hs, harrived, huser, hinb, hserve⟩

end ConnectionRead

end HttpServer
