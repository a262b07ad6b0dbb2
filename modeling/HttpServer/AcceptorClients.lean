import HttpServer.Acceptor
import HttpServer.Descriptor
import HttpServer.Lib.EdgeTriggered

/-!
# Every client has its callback

`Acceptor::startAccept` and `Acceptor::doAccept` (acceptor.cpp) with the
listening socket, its descriptor and the poll thread, until the acceptor
is closed. Clients come at any time, `doAccept` runs in whichever worker
takes its task, and the poll thread reports the listening socket edge
triggered.

A client stands for the socket that `accept` makes for it. The kernel may
take it out of the backlog with an error instead, and an error may also
come without any client.

The clients are taken in the order in which they came, and the accept
callback is called once for each call of `accept` whose result is for it,
in that order. There is never a second `doAccept`, and whenever the
machinery is at rest the backlog is empty (`clients_called`): no client
waits for a report that has been lost.
-/

namespace HttpServer

namespace AcceptorClients

open Acceptor (Errno Result)
open Descriptor (Flags Side Callback Tid)
open Tally

/-- What a worker does, or the thread that calls `startAccept`. -/
inductive Pc where
  | out
  /-- The call of `accept` in `socketAccept`. -/
  | accept
  /-- The accept callback. -/
  | callback (fd : Result)
  /-- `io_descr_->readWhenReady()`. -/
  | readWhenReady
  /-- After its section, with `ready_now`. -/
  | unlocked (readyNow : Bool)
deriving DecidableEq, Repr

/-- What the poll thread does with the listening socket. -/
inductive Poller where
  | polling
  /-- `epoll_wait` has returned an event for it. -/
  | reported
  /-- After the section of `readIfWaiting`, with `schedule_now`. -/
  | unlocked (scheduleNow : Bool)
deriving DecidableEq, Repr

/-- The read and the write upcall: `doAccept` and `noOp`. -/
def upCalls : Side → Option Callback
  | .read => some 0
  | .write => some 1

structure State where
  d : Flags
  started : Bool
  pc : Tid → Pc
  poller : Poller
  /-- The tasks of `doAccept` in the worker pool. -/
  tasks : ℕ
  /-- A client has come since the socket was last polled. -/
  edge : Bool
  /-- The clients that `accept` has still to give. -/
  backlog : List ℕ
  /-- All that have come. -/
  arrived : List ℕ
  /-- The calls of `accept`: the client that was taken, and the result. -/
  accepts : List (Option ℕ × Result)
  /-- The calls of the accept callback. -/
  called : List Result

inductive Act where
  | arrive (client : ℕ)
  /-- `epoll_wait`; the socket is reported, or is not. -/
  | poll (report : Bool)
  | pollStep
  | startAccept (t : Tid)
  | run (t : Tid)
  /-- `accept` returns, and has taken a client or has not. -/
  | accept (t : Tid) (res : Result) (takes : Bool)
  | step (t : Tid)

/-- The results that `accept` may have. -/
def returns (backlog : List ℕ) : Result → Bool → Bool
  | .fd fd, takes => takes && backlog.head? = some fd
  | .error .eagain, takes => !takes && backlog.isEmpty
  | .error _, takes => !takes || !backlog.isEmpty

/-- The accept callback is called with it. -/
def passes (res : Result) : Bool := !res.again && res ≠ .error .eagain

/-- `doAccept` after a call of `accept`. -/
def afterAccept (res : Result) : Pc :=
  if res.again then .accept
  else if res = .error .eagain then .readWhenReady
  else .callback res

namespace State

def goto (s : State) (t : Tid) (p : Pc) : State := { s with pc := Function.update s.pc t p }

/-- `addTask(read_cb_)`, when the callback is to be scheduled. -/
def schedule (s : State) (now : Bool) : State :=
  { s with tasks := s.tasks + ((s.d.cb .read).isSome && now).toNat }

/-- What the calls of `accept` have for the callback. -/
def results (s : State) : List Result := (s.accepts.map Prod.snd).filter passes

end State

/-- A step of a thread in `doAccept` or `startAccept`. -/
def threadStep (s : State) (t : Tid) : Option State :=
  match s.pc t with
  | .out | .accept => none
  | .callback fd => some ({ s with called := s.called ++ [fd] }.goto t .accept)
  | .readWhenReady =>
      let (d, readyNow) := s.d.readWhenReady
      some ({ s with d }.goto t (.unlocked readyNow))
  | .unlocked readyNow => some ((s.schedule readyNow).goto t .out)

/-- A step of the poll thread. -/
def pollStep (s : State) : Option State :=
  match s.poller with
  | .polling => none
  | .reported =>
      let (d, scheduleNow) := s.d.readIfWaiting
      some { s with d, poller := .unlocked scheduleNow }
  | .unlocked scheduleNow => some { s.schedule scheduleNow with poller := .polling }

def step (n : ℕ) (s : State) : Act → Option State
  | .arrive client =>
      some { s with
        backlog := s.backlog ++ [client]
        arrived := s.arrived ++ [client]
        edge := true }
  | .poll report =>
      if s.poller = .polling then
        if report then some { s with poller := .reported, edge := false }
        -- a socket that is ready stays on the list of those to be reported
        else some { s with edge := s.edge && !s.backlog.isEmpty }
      else none
  | .pollStep => pollStep s
  | .startAccept t =>
      if t < n ∧ s.pc t = .out ∧ s.started = false then
        some ({ s with started := true }.goto t .readWhenReady)
      else none
  | .run t =>
      if t < n ∧ s.pc t = .out ∧ 0 < s.tasks then
        some ({ s with tasks := s.tasks - 1 }.goto t .accept)
      else none
  | .accept t res takes =>
      if t < n ∧ s.pc t = .accept ∧ returns s.backlog res takes then
        some ({ s with
          backlog := s.backlog.drop takes.toNat
          accepts := s.accepts ++ [(if takes then s.backlog.head? else none, res)] }.goto t
            (afterAccept res))
      else none
  | .step t => if t < n then threadStep s t else none

/-- Clients may have come before the socket was registered; then
`epoll_ctl` finds it ready. -/
structure Initial (s : State) : Prop where
  d : s.d = Descriptor.descriptor upCalls
  started : s.started = false
  pc : ∀ t, s.pc t = .out
  poller : s.poller = .polling
  tasks : s.tasks = 0
  edge : s.edge = true
  arrived : s.arrived = s.backlog
  accepts : s.accepts = []
  called : s.called = []

def machine (n : ℕ) : Lts State Act := ⟨Initial, step n⟩

/-- Nothing goes on, and what has come was reported. -/
def State.AtRest (n : ℕ) (s : State) : Prop :=
  s.started = true ∧ s.edge = false ∧ s.poller = .polling ∧ s.tasks = 0 ∧ ∀ t < n, s.pc t = .out

instance (n : ℕ) (s : State) : Decidable (s.AtRest n) := inferInstanceAs (Decidable (_ ∧ _))

/-! ## The invariant -/

/-- The thread is in `doAccept`, or about to ask for it. -/
def Pc.current : Pc → ℕ
  | .out | .unlocked false => 0
  | _ => 1

def Poller.current : Poller → ℕ
  | .unlocked true => 1
  | _ => 0

namespace State

/-- The acceptor as the consumer of its socket. -/
def view (s : State) : EdgeTriggered where
  ready := s.backlog ≠ []
  edge := s.edge = true ∨ s.poller = .reported
  kept := s.d.can .read = true
  waiting := s.d.waiting .read = true
  asking := s.started = false ∨ ∃ t, s.pc t = .readWhenReady

/-- What becomes of the one `doAccept`. -/
def account (n : ℕ) (s : State) : ℕ :=
  total n Pc.current s.pc + s.tasks + s.poller.current + (s.d.waiting .read).toNat

end State

structure Inv (n : ℕ) (s : State) : Prop where
  upCalls : s.d.cb = upCalls
  idle : ∀ t, n ≤ t → s.pc t = .out
  account : s.account n = s.started.toNat
  owed : s.view.Owed
  order : s.accepts.filterMap Prod.fst ++ s.backlog = s.arrived
  clients : ∀ e ∈ s.accepts, ∀ fd, e.2 = .fd fd → e.1 = some fd
  calling : ∀ t fd, s.pc t = .callback fd → s.results = s.called ++ [fd]
  between : (∀ t fd, s.pc t ≠ .callback fd) → s.results = s.called

section

variable {n : ℕ} {s s' : State} {t u : Tid}

theorem Initial.inv (h : Initial s) : Inv n s := by
  refine ⟨by rw [h.d]; rfl, fun t _ => h.pc t, ?_, ?_, ?_, fun e he => ?_, fun t fd ht => ?_,
    fun _ => ?_⟩
  · rw [State.account, total_eq_zero fun t => by rw [h.pc t]; rfl, h.tasks, h.poller, h.d,
      h.started]
    rfl
  · refine ⟨fun _ => ?_, fun hw => ?_, fun _ _ => .inl (.inl h.edge)⟩
    · simp [State.view, h.d, Descriptor.descriptor]
    · simp [State.view, h.d, Descriptor.descriptor] at hw
  · rw [h.accepts, h.arrived]
    rfl
  · rw [h.accepts] at he
    cases he
  · rw [h.pc t] at ht
    cases ht
  · rw [State.results, h.accepts, h.called]
    rfl

/-- A thread in `doAccept` is the only one, and nothing else will start
it. -/
structure Alone (s : State) (t : Tid) : Prop where
  started : s.started = true
  waiting : s.d.waiting .read = false
  others : ∀ u, u ≠ t → (s.pc u).current = 0

theorem Inv.alone (h : Inv n s) (ht : t < n) (hcur : (s.pc t).current = 1) : Alone s t := by
  have hle := le_total Pc.current s.pc ht
  have hacc := h.account
  have hbool := s.started.toNat_le
  rw [State.account] at hacc
  refine ⟨?_, ?_, fun u hu => ?_⟩
  · cases hs : s.started with
    | true => rfl
    | false =>
        rw [hs, Bool.toNat_false] at hacc
        omega
  · cases hw : s.d.waiting .read with
    | false => rfl
    | true =>
        rw [hw, Bool.toNat_true] at hacc
        omega
  · by_cases hun : u < n
    · exact eq_zero_of_le (by omega) ht hun hu
    · rw [h.idle u (not_lt.mp hun)]
      rfl

theorem Alone.not_calling (h : Alone s t) (ht : ∀ fd, s.pc t ≠ .callback fd) (u : Tid)
    (fd : Result) : s.pc u ≠ .callback fd := by
  intro hu
  by_cases hut : u = t
  · exact ht fd (hut ▸ hu)
  · have hzero := h.others u hut
    rw [hu] at hzero
    cases hzero

theorem Alone.not_asking (h : Alone s t) (hu : u ≠ t) : s.pc u ≠ .readWhenReady := by
  intro hpc
  have hzero := h.others u hu
  rw [hpc] at hzero
  cases hzero

theorem goto_pc_self (s : State) (t : Tid) (p : Pc) : (s.goto t p).pc t = p :=
  Function.update_self ..

theorem goto_pc_of_ne (s : State) (p : Pc) (h : u ≠ t) : (s.goto t p).pc u = s.pc u :=
  Function.update_of_ne h ..

theorem goto_total (s : State) (ht : t < n) (p : Pc) :
    total n Pc.current (s.goto t p).pc + (s.pc t).current
      = total n Pc.current s.pc + p.current := total_update Pc.current s.pc ht p

theorem goto_idle (h : Inv n s) (ht : t < n) (p : Pc) (hu : n ≤ u) :
    (s.goto t p).pc u = .out := by
  rw [goto_pc_of_ne s p (Nat.ne_of_gt (Nat.lt_of_lt_of_le ht hu))]
  exact h.idle u hu

/-! ## The steps -/

theorem Inv.arrive (h : Inv n s) (client : ℕ) :
    Inv n { s with
      backlog := s.backlog ++ [client]
      arrived := s.arrived ++ [client]
      edge := true } := by
  refine ⟨h.upCalls, h.idle, h.account, ?_, ?_, h.clients, h.calling, h.between⟩
  · exact (h.owed.arrive (s.backlog ++ [client] ≠ [])).mono id (fun _ => .inl rfl) Iff.rfl
      Iff.rfl id
  · rw [← List.append_assoc, h.order]

theorem Inv.report (h : Inv n s) (hp : s.poller = .polling) :
    Inv n { s with poller := .reported, edge := false } := by
  refine ⟨h.upCalls, h.idle, ?_, ?_, h.order, h.clients, h.calling, h.between⟩
  · have hacc := h.account
    rw [State.account, hp] at hacc
    exact hacc
  · exact h.owed.mono id (fun _ => .inr rfl) Iff.rfl Iff.rfl id

/-- A socket that is not ready is no longer to be reported. -/
theorem Inv.pass (h : Inv n s) (hp : s.poller = .polling) :
    Inv n { s with edge := s.edge && !s.backlog.isEmpty } := by
  refine ⟨h.upCalls, h.idle, h.account, ?_, h.order, h.clients, h.calling, h.between⟩
  by_cases hb : s.backlog = []
  · refine (h.owed.reportIdle (not_not.mpr hb)).mono id (fun hf => hf.elim) Iff.rfl Iff.rfl id
  · refine h.owed.mono id (fun he => .inl ?_) Iff.rfl Iff.rfl id
    rcases he with he | he
    · rw [he, Bool.true_and, Bool.not_eq_true', List.isEmpty_eq_false_iff]
      exact hb
    · rw [hp] at he
      cases he

/-- The section of `readIfWaiting`. -/
theorem Inv.readIfWaiting (h : Inv n s) (hp : s.poller = .reported) :
    Inv n { s with d := s.d.readIfWaiting.1, poller := .unlocked s.d.readIfWaiting.2 } := by
  obtain ⟨hnow, hwait, hcan⟩ : s.d.readIfWaiting.2 = s.d.waiting .read
      ∧ s.d.readIfWaiting.1.waiting .read = false
      ∧ s.d.readIfWaiting.1.can .read = (s.d.can .read || !s.d.waiting .read) :=
    s.d.call_kept (σ := .read) (k := .event)
  refine ⟨?_, h.idle, ?_, ?_, h.order, h.clients, h.calling, h.between⟩
  · exact (s.d.call_cb (σ := .read) (k := .event)).trans h.upCalls
  · have hacc := h.account
    rw [State.account, hp] at hacc
    rw [State.account, hnow, hwait]
    cases hw : s.d.waiting .read with
    | false =>
        rw [hw] at hacc
        exact hacc
    | true =>
        rw [hw] at hacc
        simpa [Poller.current] using hacc
  · cases hw : s.d.waiting .read with
    | false =>
        rw [hw, Bool.not_false, Bool.or_true] at hcan
        refine (h.owed.reportKept (by simp [State.view, hw])).mono id (fun hf => hf.elim) ?_ ?_ id
        · simp [State.view, hcan]
        · simp [State.view, hwait, hw]
    | true =>
        rw [hw, Bool.not_true, Bool.or_false] at hcan
        refine (h.owed.reportWaiting hw).mono id (fun hf => hf.elim) ?_ ?_ id
        · simp [State.view, hcan]
        · simp [State.view, hwait]

/-- What was scheduled is one task. -/
theorem schedule_tasks (h : s.d.cb = AcceptorClients.upCalls) (now : Bool) :
    (s.schedule now).tasks = s.tasks + now.toNat := by
  rw [State.schedule, h]
  rfl

theorem Inv.pollStep (h : Inv n s) (hs : pollStep s = some s') : Inv n s' := by
  rw [AcceptorClients.pollStep] at hs
  cases hp : s.poller with
  | polling =>
      rw [hp] at hs
      cases hs
  | reported =>
      rw [hp] at hs
      obtain rfl := Option.some.inj hs
      exact h.readIfWaiting hp
  | unlocked scheduleNow =>
      rw [hp] at hs
      obtain rfl := Option.some.inj hs
      refine ⟨h.upCalls, h.idle, ?_, ?_, h.order, h.clients, h.calling, h.between⟩
      · have hacc := h.account
        have htasks := schedule_tasks h.upCalls scheduleNow
        have hcur : (Poller.unlocked scheduleNow).current = scheduleNow.toNat := by
          cases scheduleNow <;> rfl
        rw [State.account, hp, hcur] at hacc
        rw [State.account, htasks]
        simp only [State.schedule, Poller.current] at hacc ⊢
        omega
      · refine h.owed.mono id (fun he => .inl ?_) Iff.rfl Iff.rfl id
        rcases he with he | he
        · exact he
        · rw [hp] at he
          cases he

/-- The client that is taken was the first. -/
theorem accepts_order {backlog arrived : List ℕ} {accepts : List (Option ℕ × Result)}
    {res : Result} {takes : Bool} (hres : returns backlog res takes = true)
    (h : accepts.filterMap Prod.fst ++ backlog = arrived) :
    (accepts ++ [(if takes then backlog.head? else none, res)]).filterMap Prod.fst
      ++ backlog.drop takes.toNat = arrived := by
  cases takes with
  | false => simpa using h
  | true =>
      cases backlog with
      | cons c rest => simpa using h
      | nil =>
          cases res with
          | fd fd => simp [returns] at hres
          | error e => cases e <;> simp [returns] at hres

/-- `accept` has returned. -/
theorem Inv.accept (h : Inv n s) (ht : t < n) (hp : s.pc t = .accept) {res : Result} {takes : Bool}
    (hres : returns s.backlog res takes = true) :
    Inv n ({ s with
      backlog := s.backlog.drop takes.toNat
      accepts := s.accepts ++ [(if takes then s.backlog.head? else none, res)] }.goto t
        (afterAccept res)) := by
  have hcur : (s.pc t).current = 1 := by rw [hp]; rfl
  have hal := h.alone ht hcur
  have hnone : ∀ u fd, s.pc u ≠ .callback fd := hal.not_calling fun fd => by simp [hp]
  have hbetween := h.between hnone
  have hresults : (s.accepts.map Prod.snd ++ [res]).filter passes
      = s.called ++ if passes res then [res] else [] := by
    rw [List.filter_append, ← hbetween]
    by_cases hpass : passes res = true <;> simp [hpass, State.results]
  refine ⟨h.upCalls, fun u => goto_idle h ht _, ?_, ?_, ?_, ?_, fun u fd hu => ?_, fun hno => ?_⟩
  · have htotal := goto_total s ht (afterAccept res)
    have hacc := h.account
    have hnext : (afterAccept res).current = 1 := by
      rw [afterAccept]
      split
      · rfl
      · split <;> rfl
    rw [hcur, hnext] at htotal
    rw [State.account] at hacc ⊢
    simp only [State.goto] at htotal ⊢
    omega
  · by_cases hagain : res = .error .eagain
    · -- nothing was found, and nothing is asked for before
      subst hagain
      have hempty : s.backlog = [] := by
        simp only [returns, Bool.and_eq_true, List.isEmpty_iff] at hres
        exact hres.2
      have hnext : s.view.waiting = False := by simp [State.view, hal.waiting]
      refine (EdgeTriggered.Owed.drained (e := s.view) (by simp [hnext]) (not_not.mpr hempty)).mono
        (fun hr => ?_) id Iff.rfl Iff.rfl fun _ => trivial
      have hdrop : s.backlog.drop takes.toNat = [] := by rw [hempty, List.drop_nil]
      exact absurd hdrop hr
    · refine h.owed.mono (fun hr hb => ?_) id Iff.rfl Iff.rfl ?_
      · have hdrop : s.backlog.drop takes.toNat = [] := by rw [hb, List.drop_nil]
        exact hr hdrop
      · rintro (hs | ⟨u, hu⟩)
        · exact .inl hs
        · by_cases hut : u = t
          · rw [hut, goto_pc_self, afterAccept, if_neg hagain] at hu
            split at hu <;> cases hu
          · rw [goto_pc_of_ne _ _ hut] at hu
            exact .inr ⟨u, hu⟩
  · exact accepts_order hres h.order
  · intro e he fd hfd
    rcases List.mem_append.mp he with he | he
    · exact h.clients e he fd hfd
    · obtain rfl := List.mem_singleton.mp he
      obtain rfl : res = .fd fd := hfd
      simp only [returns, Bool.and_eq_true, decide_eq_true_eq] at hres
      rw [if_pos hres.1]
      exact hres.2
  · rw [State.results, State.goto, List.map_append, List.map_singleton, hresults]
    by_cases hut : u = t
    · rw [hut, goto_pc_self, afterAccept] at hu
      split at hu
      · cases hu
      · next hagain =>
          split at hu
          · cases hu
          · next heagain =>
              obtain rfl := Pc.callback.inj hu
              rw [if_pos (by simp [passes, hagain, heagain])]
    · rw [goto_pc_of_ne _ _ hut] at hu
      exact absurd hu (hnone u fd)
  · rw [State.results, State.goto, List.map_append, List.map_singleton, hresults]
    have hpass : passes res = false := by
      rw [Bool.eq_false_iff]
      intro hpass
      simp only [passes, Bool.and_eq_true, Bool.not_eq_true', decide_eq_true_eq] at hpass
      refine hno t res ?_
      rw [goto_pc_self, afterAccept, if_neg (by simp [hpass.1]), if_neg hpass.2]
    rw [hpass, if_neg Bool.false_ne_true, List.append_nil]

/-- A step of a thread that has nothing to do with the callback. -/
theorem Inv.quiet (h : Inv n s) {s₀ : State} {p : Pc} (ht : t < n)
    (hold : ∀ fd, s.pc t ≠ .callback fd) (hnew : ∀ fd, p ≠ .callback fd)
    (hpc : s₀.pc = s.pc) (hcb : s₀.d.cb = s.d.cb) (hbacklog : s₀.backlog = s.backlog)
    (harrived : s₀.arrived = s.arrived) (haccepts : s₀.accepts = s.accepts)
    (hcalled : s₀.called = s.called)
    (hacc : (s₀.goto t p).account n = (s₀.goto t p).started.toNat)
    (howed : (s₀.goto t p).view.Owed) : Inv n (s₀.goto t p) := by
  have hcall : ∀ u fd, (s₀.goto t p).pc u = .callback fd ↔ s.pc u = .callback fd := by
    intro u fd
    by_cases hut : u = t
    · rw [hut, goto_pc_self]
      exact iff_of_false (hnew fd) (hold fd)
    · rw [goto_pc_of_ne _ _ hut, hpc]
  have hresults : (s₀.goto t p).results = s.results := by
    rw [State.results, State.results, State.goto, haccepts]
  refine ⟨hcb.trans h.upCalls, fun u hu => ?_, hacc, howed, ?_, ?_, fun u fd hu => ?_,
    fun hno => ?_⟩
  · rw [goto_pc_of_ne _ _ (Nat.ne_of_gt (Nat.lt_of_lt_of_le ht hu)), hpc]
    exact h.idle u hu
  · rw [State.goto, haccepts, hbacklog, harrived]
    exact h.order
  · rw [State.goto, haccepts]
    exact h.clients
  · rw [hresults, h.calling u fd ((hcall u fd).mp hu), State.goto, hcalled]
  · rw [hresults, h.between fun u fd hu => hno u fd ((hcall u fd).mpr hu), State.goto, hcalled]

/-- The callback returns. -/
theorem Inv.callback (h : Inv n s) (ht : t < n) {fd : Result} (hp : s.pc t = .callback fd) :
    Inv n ({ s with called := s.called ++ [fd] }.goto t .accept) := by
  have hcur : (s.pc t).current = 1 := by rw [hp]; rfl
  have hal := h.alone ht hcur
  have hno : ∀ u fd,
      ({ s with called := s.called ++ [fd] }.goto t .accept).pc u ≠ .callback fd := by
    intro u fd hu
    by_cases hut : u = t
    · rw [hut, goto_pc_self] at hu
      cases hu
    · rw [goto_pc_of_ne _ _ hut] at hu
      have hzero := hal.others u hut
      rw [hu] at hzero
      cases hzero
  refine ⟨h.upCalls, fun u => goto_idle h ht _, ?_, ?_, h.order, h.clients,
    fun u fd hu => absurd hu (hno u fd), fun _ => h.calling t fd hp⟩
  · have htotal := goto_total s ht .accept
    have hacc := h.account
    rw [hcur, show Pc.accept.current = 1 from rfl] at htotal
    rw [State.account] at hacc ⊢
    simp only [State.goto] at htotal ⊢
    omega
  · refine h.owed.mono id id Iff.rfl Iff.rfl ?_
    rintro (hs | ⟨u, hu⟩)
    · exact .inl hs
    · by_cases hut : u = t
      · rw [hut, goto_pc_self] at hu
        cases hu
      · exact absurd ((goto_pc_of_ne _ _ hut).symm.trans hu) (hal.not_asking hut)

/-- The section of `readWhenReady`. -/
theorem Inv.readWhenReady (h : Inv n s) (ht : t < n) (hp : s.pc t = .readWhenReady) :
    Inv n ({ s with d := s.d.readWhenReady.1 }.goto t (.unlocked s.d.readWhenReady.2)) := by
  obtain ⟨hnow, hcan, hwait⟩ : s.d.readWhenReady.2 = s.d.can .read
      ∧ s.d.readWhenReady.1.can .read = false
      ∧ s.d.readWhenReady.1.waiting .read = (s.d.waiting .read || !s.d.can .read) :=
    s.d.call_kept (σ := .read) (k := .request)
  have hcur : (s.pc t).current = 1 := by rw [hp]; rfl
  have hal := h.alone ht hcur
  rw [hal.waiting, Bool.false_or] at hwait
  have hasks : ¬∃ u, ({ s with d := s.d.readWhenReady.1 }.goto t
      (.unlocked s.d.readWhenReady.2)).pc u = .readWhenReady := by
    rintro ⟨u, hu⟩
    by_cases hut : u = t
    · rw [hut, goto_pc_self] at hu
      cases hu
    · exact hal.not_asking hut ((goto_pc_of_ne _ _ hut).symm.trans hu)
  have hasking : ∀ {P : Prop}, (s.started = false ∨ ∃ u, ({ s with d := s.d.readWhenReady.1 }.goto t
      (.unlocked s.d.readWhenReady.2)).pc u = .readWhenReady) → P := by
    rintro P (hs | ha)
    · exact absurd (hs.symm.trans hal.started) Bool.false_ne_true
    · exact absurd ha hasks
  refine h.quiet ht (fun fd => by simp [hp]) (fun fd => by simp) rfl
    (s.d.call_cb (σ := .read) (k := .request)) rfl rfl rfl rfl ?_ ?_
  · have htotal := goto_total s ht (.unlocked s.d.readWhenReady.2)
    have hacc := h.account
    have hnext : (Pc.unlocked s.d.readWhenReady.2).current = (s.d.can .read).toNat := by
      rw [hnow]
      cases s.d.can .read <;> rfl
    rw [hcur, hnext] at htotal
    rw [State.account, hal.waiting] at hacc
    rw [State.account]
    simp only [State.goto, hwait] at htotal ⊢
    cases hc : s.d.can .read <;>
      simp only [hc, Bool.toNat_true, Bool.toNat_false, Bool.not_true, Bool.not_false]
        at hacc htotal ⊢ <;>
      omega
  · cases hc : s.d.can .read with
    | true =>
        rw [hc, Bool.not_true] at hwait
        have hgrant : EdgeTriggered.Owed { s.view with kept := False, asking := False } :=
          .granted (by simp [State.view, hal.waiting])
        refine hgrant.mono id id ?_ ?_ hasking
        · simp [State.view, State.goto, hcan]
        · simp [State.view, State.goto, hwait, hal.waiting]
    | false =>
        rw [hc, Bool.not_false] at hwait
        refine (h.owed.ask (.inr ⟨t, hp⟩) (by simp [State.view, hc])).mono id id ?_ ?_ hasking
        · simp [State.view, State.goto, hcan, hc]
        · simp [State.view, State.goto, hwait]

/-- `readWhenReady` returns. -/
theorem Inv.unlocked (h : Inv n s) (ht : t < n) {readyNow : Bool}
    (hp : s.pc t = .unlocked readyNow) : Inv n ((s.schedule readyNow).goto t .out) := by
  refine h.quiet ht (fun fd => by simp [hp]) (fun fd => by simp) rfl rfl rfl rfl rfl rfl ?_ ?_
  · have htotal := goto_total s ht .out
    have hacc := h.account
    have htasks := schedule_tasks h.upCalls readyNow
    have hold : (s.pc t).current = readyNow.toNat := by
      rw [hp]
      cases readyNow <;> rfl
    rw [hold, show Pc.out.current = 0 from rfl] at htotal
    rw [State.account] at hacc ⊢
    simp only [State.goto, State.schedule] at htasks htotal ⊢
    omega
  · refine h.owed.mono id id Iff.rfl Iff.rfl ?_
    rintro (hs | ⟨u, hu⟩)
    · exact .inl hs
    · by_cases hut : u = t
      · rw [hut, goto_pc_self] at hu
        cases hu
      · exact .inr ⟨u, (goto_pc_of_ne _ _ hut).symm.trans hu⟩

theorem Inv.startAccept (h : Inv n s) (ht : t < n) (hp : s.pc t = .out) (hs : s.started = false) :
    Inv n ({ s with started := true }.goto t .readWhenReady) := by
  refine h.quiet ht (fun fd => by simp [hp]) (fun fd => by simp) rfl rfl rfl rfl rfl rfl ?_ ?_
  · have htotal := goto_total s ht .readWhenReady
    have hacc := h.account
    rw [hp, show Pc.out.current = 0 from rfl, show Pc.readWhenReady.current = 1 from rfl] at htotal
    rw [State.account, hs, Bool.toNat_false] at hacc
    rw [State.account]
    simp only [State.goto, Bool.toNat_true] at htotal ⊢
    omega
  · exact h.owed.mono id id Iff.rfl Iff.rfl fun _ => .inl hs

theorem Inv.run (h : Inv n s) (ht : t < n) (hp : s.pc t = .out) (htasks : 0 < s.tasks) :
    Inv n ({ s with tasks := s.tasks - 1 }.goto t .accept) := by
  refine h.quiet ht (fun fd => by simp [hp]) (fun fd => by simp) rfl rfl rfl rfl rfl rfl ?_ ?_
  · have htotal := goto_total s ht .accept
    have hacc := h.account
    rw [hp, show Pc.out.current = 0 from rfl, show Pc.accept.current = 1 from rfl] at htotal
    rw [State.account] at hacc ⊢
    simp only [State.goto] at htotal ⊢
    omega
  · refine h.owed.mono id id Iff.rfl Iff.rfl ?_
    rintro (hs | ⟨u, hu⟩)
    · exact .inl hs
    · by_cases hut : u = t
      · rw [hut, goto_pc_self] at hu
        cases hu
      · exact .inr ⟨u, (goto_pc_of_ne _ _ hut).symm.trans hu⟩

theorem Inv.threadStep (h : Inv n s) (ht : t < n) (hs : threadStep s t = some s') : Inv n s' := by
  rw [AcceptorClients.threadStep] at hs
  cases hp : s.pc t with
  | out | accept =>
      rw [hp] at hs
      cases hs
  | callback fd =>
      rw [hp] at hs
      obtain rfl := Option.some.inj hs
      exact h.callback ht hp
  | readWhenReady =>
      rw [hp] at hs
      obtain rfl := Option.some.inj hs
      exact h.readWhenReady ht hp
  | unlocked readyNow =>
      rw [hp] at hs
      obtain rfl := Option.some.inj hs
      exact h.unlocked ht hp

theorem Inv.step (h : Inv n s) {a : Act} (hs : step n s a = some s') : Inv n s' := by
  cases a with
  | arrive client =>
      obtain rfl := Option.some.inj hs
      exact h.arrive client
  | poll report =>
      obtain ⟨hp, hs⟩ := Option.ite_none_right_eq_some.mp hs
      cases report with
      | true =>
          obtain rfl := Option.some.inj hs
          exact h.report hp
      | false =>
          obtain rfl := Option.some.inj hs
          exact h.pass hp
  | pollStep => exact h.pollStep hs
  | startAccept t =>
      obtain ⟨⟨ht, hp, hstart⟩, hs⟩ := Option.ite_none_right_eq_some.mp hs
      obtain rfl := Option.some.inj hs
      exact h.startAccept ht hp hstart
  | run t =>
      obtain ⟨⟨ht, hp, htasks⟩, hs⟩ := Option.ite_none_right_eq_some.mp hs
      obtain rfl := Option.some.inj hs
      exact h.run ht hp htasks
  | accept t res takes =>
      obtain ⟨⟨ht, hp, hres⟩, hs⟩ := Option.ite_none_right_eq_some.mp hs
      obtain rfl := Option.some.inj hs
      exact h.accept ht hp hres
  | step t =>
      obtain ⟨ht, hs⟩ := Option.ite_none_right_eq_some.mp hs
      exact h.threadStep ht hs

theorem reachable_inv (h : (machine n).Reachable s) : Inv n s :=
  h.invariant (fun _ => Initial.inv) fun _ _ _ hI _ hs => hI.step hs

/-- At rest the descriptor waits for a report. -/
theorem Inv.waiting (h : Inv n s) (hrest : s.AtRest n) : s.d.waiting .read = true := by
  obtain ⟨hstart, -, hpoll, htasks, hout⟩ := hrest
  have hacc := h.account
  have hzero : total n Pc.current s.pc = 0 := total_eq_zero fun t => by
    by_cases ht : t < n
    · rw [hout t ht]
      rfl
    · rw [h.idle t (not_lt.mp ht)]
      rfl
  rw [State.account, hzero, htasks, hpoll, hstart] at hacc
  cases hw : s.d.waiting .read with
  | true => rfl
  | false =>
      rw [hw] at hacc
      cases hacc

/-- **Every client has its callback, once and in order.** Whatever the
threads, the poll thread and the clients do, one `doAccept` runs at most;
the clients leave the backlog in the order in which they came, and the
callback is called with the results of `accept` that are for it, in that
order. At rest none is left. -/
theorem clients_called (h : (machine n).Reachable s) :
    s.accepts.filterMap Prod.fst ++ s.backlog = s.arrived
    ∧ (∀ e ∈ s.accepts, ∀ fd, e.2 = .fd fd → e.1 = some fd)
    ∧ s.called <+: s.results
    ∧ (∀ t < n, ∀ u < n, (s.pc t).current = 1 → (s.pc u).current = 1 → t = u)
    ∧ (s.AtRest n → s.backlog = [] ∧ s.called = s.results) := by
  have hI := reachable_inv h
  refine ⟨hI.order, hI.clients, ?_, fun t ht u hu hcur hcur' => ?_, fun hrest => ⟨?_, ?_⟩⟩
  · by_cases hno : ∀ t fd, s.pc t ≠ .callback fd
    · rw [hI.between hno]
    · push Not at hno
      obtain ⟨t, fd, ht⟩ := hno
      rw [hI.calling t fd ht]
      exact List.prefix_append ..
  · by_contra hne
    have hzero := (hI.alone ht hcur).others u (Ne.symm hne)
    rw [hcur'] at hzero
    cases hzero
  · have hwait := hI.waiting hrest
    obtain ⟨-, hedge, hpoll, -, -⟩ := hrest
    exact not_not.mp (hI.owed.rest hwait (by simp [State.view, hedge, hpoll]))
  · refine (hI.between fun t fd ht => ?_).symm
    have hout : s.pc t = .out := by
      by_cases htn : t < n
      · exact hrest.2.2.2.2 t htn
      · exact hI.idle t (not_lt.mp htn)
    rw [hout] at ht
    cases ht

end

/-! ## A run -/

def listening (backlog : List ℕ) : State where
  d := Descriptor.descriptor upCalls
  started := false
  pc _ := .out
  poller := .polling
  tasks := 0
  edge := true
  backlog := backlog
  arrived := backlog
  accepts := []
  called := []

/-- Client 7 is there when `startAccept` is called; client 8 comes when the
worker has found the backlog empty and has not asked yet. -/
def lateClient : List Act :=
  [.poll true, .startAccept 0, .pollStep, .step 0, .step 0, .pollStep, .run 1,
    .accept 1 (.fd 7) true,
    .step 1, .accept 1 (.error .eagain) false, .arrive 8, .poll true, .pollStep, .pollStep, .step 1,
    .step 1, .run 0, .accept 0 (.error .econnaborted) false, .accept 0 (.fd 8) true, .step 0,
    .accept 0 (.error .eagain) false, .step 0, .step 0]

theorem lateClient_called : ∃ s, (machine 2).Reachable s ∧ s.AtRest 2 ∧ s.arrived = [7, 8]
    ∧ s.backlog = [] ∧ s.called = [.fd 7, .fd 8] := by
  have hrun : ((machine 2).exec (fun _ _ => True) (listening [7]) lateClient).any
      (fun s => s.AtRest 2 && s.arrived = [7, 8] && s.results = [.fd 7, .fd 8]) = true := by
    decide
  have hinit : Initial (listening [7]) := ⟨rfl, rfl, fun _ => rfl, rfl, rfl, rfl, rfl, rfl, rfl⟩
  obtain ⟨s, hs, hend⟩ := Lts.ReachableBy.exec_any (.init hinit) hrun
  simp only [Bool.and_eq_true, decide_eq_true_eq] at hend
  obtain ⟨⟨hrest, harrived⟩, hresults⟩ := hend
  obtain ⟨hbacklog, hcalled⟩ := (clients_called hs).2.2.2.2 hrest
  exact ⟨s, hs, hrest, harrived, hbacklog, hcalled.trans hresults⟩

end AcceptorClients

end HttpServer
