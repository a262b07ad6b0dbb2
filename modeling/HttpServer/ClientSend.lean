import HttpServer.HttpClient
import HttpServer.Notification

/-!
# Synchronous requests

`HTTPClientConnection::send` and `receiveInternal` (http_connection.cpp), on
top of `asyncSend` and `handleResponse`. `send` makes a `Notification`, calls
`asyncSend` with a callback of its own, waits for the callback and deletes
the `Notification`; the callback stores the response and notifies.

Each call of `asyncSend` has a number, and the `Notification` of a `send` is
the one of its call. A thread in `send` does nothing else in the meantime,
and the reader does not go on before the callback returns.

However the calls of the threads come, each of them gets the response to
its own request, the reader never touches a `Notification` that has been
deleted, and whenever everything has come to rest all those have returned
whose response was handled (`sends_answered`).
-/

namespace HttpServer

namespace ClientSend

open HttpClient (Tid Entry SendPc ReadPc)

structure State where
  client : HttpClient.State
  /-- The call of `asyncSend` that the `send` of a thread has made. -/
  call : Tid → Option ℕ
  /-- The call is one of `send`. -/
  sync : ℕ → Bool
  /-- The request of a `send`. -/
  request : ℕ → Request
  /-- The `Notification` of a `send`, and its `*response`. -/
  note : ℕ → Notification.State Response
  /-- The calls of `send` that have returned, with `*response`. -/
  returned : List (ℕ × Option Response)

inductive Act where
  /-- `send`, up to its place in the queue of `m_response_`. -/
  | send (t : Tid) (request : Request)
  | client (a : HttpClient.Act)
  /-- `asyncSend` has returned. -/
  | sent (t : Tid)
  /-- A step in `wait()`, or of what follows. -/
  | wait (t : Tid)
  | wake (t : Tid)
  /-- A step of `receiveInternal`. -/
  | receive

/-- The `send` whose callback the reader is in, with the response. -/
def State.receiving (s : State) : Option (ℕ × Response) :=
  match s.client.reader with
  | .call (some e) r => if s.sync e.call then some (e.call, r) else none
  | _ => none

/-- A thread in `send` makes no other call and takes no task, and the
callback of a `send` is left when it has returned. -/
def State.allows (s : State) : HttpClient.Act → Bool
  | .asyncSend t _ _ => (s.call t).isNone
  | .conn (.run t) => (s.call t).isNone
  | .callback =>
      match s.receiving with
      | some (k, _) => (s.note k).notifier = .returned
      | none => true
  | _ => true

/-- A step of the thread in the `send` of the call `k`. -/
def State.waitStep (s : State) (t : Tid) (k : ℕ) : Option State :=
  (Notification.wait (s.note k)).map fun x =>
    if x.waiter = .deleted then
      { s with
        note := Function.update s.note k x
        call := Function.update s.call t none
        returned := s.returned ++ [(k, x.value)] }
    else { s with note := Function.update s.note k x }

/-- One step of a client with `n` threads beside the reader. -/
def step (n : ℕ) (s : State) : Act → Option State
  | .send t request =>
      if s.call t = none then
        (HttpClient.step n s.client (.asyncSend t request (some s.client.calls))).map fun client =>
          let k := s.client.calls
          { s with
            client
            call := Function.update s.call t (some k)
            sync := Function.update s.sync k true
            request := Function.update s.request k request
            note := Function.update s.note k Notification.new }
      else none
  | .client a =>
      if s.allows a then (HttpClient.step n s.client a).map fun client => { s with client }
      else none
  | .sent t => do
      let k ← s.call t
      if s.client.pc t = .out ∧ s.client.conn.pc t = .idle then
        (Notification.step (s.note k) .begin).map fun x =>
          { s with note := Function.update s.note k x }
      else none
  | .wait t => do
      let k ← s.call t
      s.waitStep t k
  | .wake t => do
      let k ← s.call t
      (Notification.step (s.note k) .wake).map fun x =>
        { s with note := Function.update s.note k x }
  | .receive => do
      let (k, r) ← s.receiving
      (Notification.notify (s.note k) r).map fun x =>
        { s with note := Function.update s.note k x }

structure Initial (s : State) : Prop where
  client : HttpClient.Initial s.client
  call : ∀ t, s.call t = none
  sync : ∀ k, s.sync k = false
  returned : s.returned = []

def machine (n : ℕ) : Lts State Act := ⟨Initial, step n⟩

/-! ## What the client does -/

section

variable {n : ℕ} {c c' : HttpClient.State}

/-- The responses that have been handled, with the one that is. -/
def handled (c : HttpClient.State) : List (Option Entry × Response) :=
  c.delivered ++ c.reader.calling

/-- The call has been made with this request. -/
def Carries (c : HttpClient.State) (k : ℕ) (request : Request) : Prop :=
  (∃ t e, (c.pc t = .push e request ∨ c.pc t = .toBuffer e request) ∧ e.call = k)
    ∨ ∃ e, (e, request) ∈ c.sent ∧ e.call = k

/-- What a step of the client is to its reader. -/
inductive Reads (c : HttpClient.State) (a : HttpClient.Act) (c' : HttpClient.State) : Prop
  | same (hne : a ≠ .callback) (hd : c'.delivered = c.delivered)
      (hr : c'.reader.calling = c.reader.calling)
  | took (hne : a ≠ .callback) (hd : c'.delivered = c.delivered) (hr : c.reader.calling = [])
  | called (ha : a = .callback) (hd : c'.delivered = handled c) (hr : c'.reader.calling = [])

theorem carries_goto {t : Tid} {x : SendPc} {k : ℕ} {r : Request}
    (h : Carries (c.goto t x) k r) :
    Carries c k r ∨ ∃ e, (x = .push e r ∨ x = .toBuffer e r) ∧ e.call = k := by
  rcases h with ⟨u, e, hu, hk⟩ | hsent
  · by_cases hut : u = t
    · subst hut
      rw [HttpClient.goto_pc_self] at hu
      exact .inr ⟨e, hu, hk⟩
    · rw [HttpClient.goto_pc_of_ne c x hut] at hu
      exact .inl (.inl ⟨u, e, hu, hk⟩)
  · exact .inl (.inr hsent)

theorem tick_carries {t : Tid} (hs : HttpClient.tick n c t = some c') :
    c'.calls = c.calls ∧ c'.delivered = c.delivered ∧ c'.reader = c.reader
      ∧ ∀ k r, Carries c' k r → Carries c k r := by
  unfold HttpClient.tick at hs
  split at hs
  · cases hs
  · next e request hp =>
      obtain rfl := Option.some.inj hs
      refine ⟨rfl, rfl, rfl, fun k r hcarry => ?_⟩
      rcases carries_goto hcarry with hcarry | ⟨e', he, hk⟩
      · exact hcarry
      · obtain ⟨rfl, rfl⟩ : e = e' ∧ request = r := by simpa using he
        exact .inl ⟨t, e, .inl hp, hk⟩
  · next e request hp =>
      obtain ⟨conn, -, rfl⟩ := Option.map_eq_some_iff.mp hs
      refine ⟨rfl, rfl, rfl, fun k r hcarry => ?_⟩
      rcases carries_goto hcarry with (⟨u, e', hu, hk⟩ | ⟨e', hmem, hk⟩) | ⟨e', he, -⟩
      · exact .inl ⟨u, e', hu, hk⟩
      · rcases List.mem_append.mp hmem with hmem | hmem
        · exact .inr ⟨e', hmem, hk⟩
        · obtain ⟨rfl, rfl⟩ := Prod.mk.inj (List.mem_singleton.mp hmem)
          exact .inl ⟨t, e', .inr hp, hk⟩
      · simp at he
  · obtain rfl := Option.some.inj hs
    refine ⟨rfl, rfl, rfl, fun k r hk => ?_⟩
    rcases carries_goto hk with hk | ⟨e', he, -⟩
    · exact hk
    · simp at he

theorem client_step {a : HttpClient.Act} (hs : HttpClient.step n c a = some c') :
    c.calls ≤ c'.calls ∧ Reads c a c' ∧ ∀ k r, Carries c' k r →
      Carries c k r ∨ ∃ t cb, a = .asyncSend t r cb ∧ k = c.calls := by
  cases a with
  | asyncSend t request cb =>
      obtain ⟨-, hs⟩ := Option.ite_none_right_eq_some.mp hs
      obtain rfl := Option.some.inj hs
      refine ⟨Nat.le_succ _, .same (by simp) rfl rfl, fun k r hcarry => ?_⟩
      rcases carries_goto hcarry with hcarry | ⟨e', he, hk⟩
      · exact .inl hcarry
      · obtain ⟨rfl, rfl⟩ : (⟨c.calls, cb⟩ : Entry) = e' ∧ request = r := by simpa using he
        exact .inr ⟨t, cb, rfl, hk.symm⟩
  | tick t =>
      obtain ⟨hcalls, hd, hr, hcarry⟩ := tick_carries hs
      exact ⟨hcalls.ge, .same (by simp) hd (by rw [hr]), fun k r hk => .inl (hcarry k r hk)⟩
  | conn a =>
      obtain ⟨-, hs⟩ := Option.ite_none_right_eq_some.mp hs
      obtain ⟨conn, -, rfl⟩ := Option.map_eq_some_iff.mp hs
      exact ⟨le_rfl, .same (by simp) rfl rfl, fun k r hk => .inl hk⟩
  | answer r =>
      obtain ⟨-, hs⟩ := Option.ite_none_right_eq_some.mp hs
      obtain rfl := Option.some.inj hs
      exact ⟨le_rfl, .same (by simp) rfl rfl, fun k r hk => .inl hk⟩
  | parse =>
      simp only [HttpClient.step] at hs
      split at hs
      · next r hp hans =>
          obtain rfl := Option.some.inj hs
          exact ⟨le_rfl, .same (by simp) rfl (by rw [hp]; rfl), fun k r hk => .inl hk⟩
      · cases hs
  | parseError =>
      obtain ⟨hp, hs⟩ := Option.ite_none_right_eq_some.mp hs
      obtain rfl := Option.some.inj hs
      exact ⟨le_rfl, .same (by simp) rfl (by rw [hp]; rfl), fun k r hk => .inl hk⟩
  | handleResponse =>
      simp only [HttpClient.step] at hs
      split at hs
      · next r hp =>
          obtain ⟨-, hs⟩ := Option.ite_none_right_eq_some.mp hs
          obtain rfl := Option.some.inj hs
          exact ⟨le_rfl, .took (by simp) rfl (by rw [hp]; rfl), fun k r hk => .inl hk⟩
      · cases hs
  | callback =>
      simp only [HttpClient.step] at hs
      split at hs
      · next cb r hp =>
          obtain rfl := Option.some.inj hs
          exact ⟨le_rfl, .called rfl (by rw [handled, hp]; rfl) rfl, fun k r hk => .inl hk⟩
      · cases hs

/-- The entries of the responses handled are those of the first requests
sent. -/
theorem handled_spec (h : HttpClient.Inv n c) : ∃ es rs, handled c = (es.map some).zip rs
    ∧ rs.length = es.length ∧ es <+: c.sent.map Prod.fst ∧ rs <+: c.parsed := by
  obtain ⟨es, hpop, hpre⟩ := h.popped_prefix
  obtain ⟨rs, hrs, hlen, hdel⟩ := h.handled
  refine ⟨es, rs, ?_, ?_, hpre, ⟨_, hrs.symm⟩⟩
  · rw [handled, hdel, hpop]
  · rw [hlen, hpop, List.length_map]

/-- No call has two responses. -/
theorem handled_nodup (h : HttpClient.Inv n c) :
    ((handled c).filterMap fun p => p.1.map Entry.call).Nodup := by
  obtain ⟨es, rs, hzip, hlen, hpre, -⟩ := handled_spec h
  have hes : (handled c).filterMap (fun p => p.1.map Entry.call) = es.map Entry.call := by
    have hfst : (handled c).map Prod.fst = es.map some := by
      rw [hzip, List.map_fst_zip (by rw [List.length_map, hlen])]
    calc (handled c).filterMap (fun p => p.1.map Entry.call)
        = ((handled c).map Prod.fst).filterMap (Option.map Entry.call) := by
          rw [List.filterMap_map]
          rfl
      _ = es.map Entry.call := by
          rw [hfst, List.filterMap_map, ← List.filterMap_eq_map]
          rfl
  rw [hes]
  exact (hpre.map Entry.call).sublist.nodup h.nodup_sent

theorem getElem?_of_prefix {α : Type*} {l l' : List α} (h : l <+: l') {i : ℕ} {a : α}
    (hi : l[i]? = some a) : l'[i]? = some a := by
  obtain ⟨rest, rfl⟩ := h
  rw [List.getElem?_append_left (List.getElem?_eq_some_iff.mp hi).1]
  exact hi

theorem handled_sent (h : HttpClient.Inv n c) {e : Entry} {r : Response}
    (hmem : (some e, r) ∈ handled c) :
    ∃ (i : ℕ) (request : Request), c.sent[i]? = some (e, request) ∧ c.parsed[i]? = some r := by
  obtain ⟨es, rs, hzip, -, hes, hrs⟩ := handled_spec h
  obtain ⟨i, hi⟩ := List.mem_iff_getElem?.mp (hzip ▸ hmem)
  obtain ⟨he, hr⟩ := List.getElem?_zip_eq_some.mp hi
  rw [List.getElem?_map, Option.map_eq_some_iff] at he
  obtain ⟨e', he, hee⟩ := he
  obtain rfl := Option.some.inj hee
  have hsent := getElem?_of_prefix hes he
  rw [List.getElem?_map, Option.map_eq_some_iff] at hsent
  obtain ⟨⟨e'', request⟩, hreq, rfl⟩ := hsent
  exact ⟨i, request, hreq, getElem?_of_prefix hrs hr⟩

/-- A call that has been made has a number. -/
theorem carries_lt (h : HttpClient.Inv n c) {k : ℕ} {r : Request} (hk : Carries c k r) :
    k < c.calls := by
  have hmem : k ∈ (c.sent.map Prod.fst ++ c.current).map Entry.call := by
    rcases hk with ⟨t, e, hp, rfl⟩ | ⟨e, hmem, rfl⟩
    · have hlock := h.owner t (by rcases hp with hp | hp <;> simp [hp])
      refine List.mem_map_of_mem (List.mem_append_right _ ?_)
      rw [HttpClient.State.current, hlock]
      rcases hp with hp | hp <;> simp [hp, SendPc.current]
    · exact List.mem_map_of_mem (List.mem_append_left _ (List.mem_map_of_mem hmem))
  rw [h.order] at hmem
  exact List.mem_range.mp hmem

theorem calling_eq {p q : Option Entry × Response} (hp : p ∈ c.reader.calling)
    (hq : q ∈ c.reader.calling) : p = q := by
  cases hr : c.reader with
  | call cb r =>
      rw [hr] at hp hq
      exact (List.mem_singleton.mp hp).trans (List.mem_singleton.mp hq).symm
  | parse | handle | stopped =>
      rw [hr] at hp
      cases hp

/-- The call that is handled has not been delivered. -/
theorem calling_not_delivered (h : HttpClient.Inv n c) {e e' : Entry} {r r' : Response}
    (hcall : (some e, r) ∈ c.reader.calling) (hdel : (some e', r') ∈ c.delivered) :
    e.call ≠ e'.call := by
  have hnodup := handled_nodup h
  rw [handled, List.filterMap_append] at hnodup
  have hdisjoint := List.disjoint_of_nodup_append hnodup
  intro heq
  exact hdisjoint (List.mem_filterMap.mpr ⟨_, hdel, rfl⟩)
    (List.mem_filterMap.mpr ⟨_, hcall, congrArg some heq⟩)

end

/-! ## The calls of `send` -/

section

variable {n : ℕ} {c : HttpClient.State} {sync : ℕ → Bool} {note : ℕ → Notification.State Response}
  {k : ℕ} {x : Notification.State Response}

/-- What the client knows of a `Notification`. -/
structure Fits (c : HttpClient.State) (k : ℕ) (x : Notification.State Response) : Prop where
  inv : Notification.Inv x
  value : ∀ r, x.value = some r → ∃ e, (some e, r) ∈ handled c ∧ e.call = k
  running : ∀ e r, (some e, r) ∈ c.reader.calling → e.call = k → x.notifier ≠ .store →
    x.value = some r
  finished : ∀ e r, (some e, r) ∈ c.delivered → e.call = k →
    x.notifier = .returned ∧ x.value = some r

/-- A step of the thread in `send` changes nothing that the client sees. -/
theorem Fits.congr (h : Fits c k (note k)) (hinv : Notification.Inv x)
    (hvalue : x.value = (note k).value) (hnotifier : x.notifier = (note k).notifier) :
    Fits c k x :=
  ⟨hinv, fun r hr => h.value r (hvalue ▸ hr),
    fun e r hcall hek hne => hvalue ▸ h.running e r hcall hek (hnotifier ▸ hne),
    fun e r hdel hek => by
      rw [hvalue, hnotifier]
      exact h.finished e r hdel hek⟩

theorem fits_update (h : ∀ j, sync j = true → Fits c j (note j)) (hx : Fits c k x) :
    ∀ j, sync j = true → Fits c j (Function.update note k x j) := by
  intro j hj
  by_cases hjk : j = k
  · subst hjk
    rwa [Function.update_self]
  · rw [Function.update_of_ne hjk]
    exact h j hj

/-- A call that has not been made. -/
theorem fits_new (h : HttpClient.Inv n c) : Fits c c.calls Notification.new := by
  have hfresh : ∀ e r, (some e, r) ∈ handled c → e.call ≠ c.calls := by
    intro e r hmem heq
    obtain ⟨es, rs, hzip, -, hpre, -⟩ := handled_spec h
    rw [hzip] at hmem
    obtain ⟨e', he', hee⟩ := List.mem_map.mp (List.of_mem_zip hmem).1
    obtain rfl := Option.some.inj hee
    have hmem : e'.call ∈ (c.sent.map Prod.fst ++ c.current).map Entry.call :=
      List.mem_map_of_mem (List.mem_append_left _ (hpre.subset he'))
    rw [h.order, heq] at hmem
    exact absurd (List.mem_range.mp hmem) (lt_irrefl _)
  refine ⟨Notification.new_inv, fun r hr => ?_, fun e r hcall hek _ => ?_, fun e r hdel hek => ?_⟩
  · cases hr
  · exact absurd hek (hfresh e r (List.mem_append_right _ hcall))
  · exact absurd hek (hfresh e r (List.mem_append_left _ hdel))

end

structure Inv (n : ℕ) (s : State) : Prop where
  client : (HttpClient.machine n).Reachable s.client
  fresh : ∀ k, s.sync k = true → k < s.client.calls
  thread : ∀ t k, s.call t = some k →
    t < n ∧ s.sync k = true ∧ (s.note k).waiter ≠ .deleted
  unique : ∀ t u k, s.call t = some k → s.call u = some k → t = u
  placed : ∀ k, s.sync k = true → (s.note k).waiter ≠ .deleted → ∃ t, s.call t = some k
  request : ∀ k r, s.sync k = true → Carries s.client k r → s.request k = r
  fits : ∀ k, s.sync k = true → Fits s.client k (s.note k)
  log : ∀ k r, (k, r) ∈ s.returned
    ↔ s.sync k = true ∧ (s.note k).waiter = .deleted ∧ (s.note k).value = r
  nodup : (s.returned.map Prod.fst).Nodup

section

variable {n : ℕ} {s s' : State} {t : Tid} {k : ℕ} {x : Notification.State Response}

theorem Initial.inv (h : Initial s) : Inv n s := by
  have hsync : ∀ k, s.sync k ≠ true := fun k hk => by
    rw [h.sync] at hk
    cases hk
  have hcall : ∀ t k, s.call t ≠ some k := fun t k hk => by
    rw [h.call] at hk
    cases hk
  refine ⟨.init h.client, fun k hk => absurd hk (hsync k), fun t k hk => absurd hk (hcall t k),
    fun t u k hk => absurd hk (hcall t k), fun k hk => absurd hk (hsync k),
    fun k r hk => absurd hk (hsync k), fun k hk => absurd hk (hsync k), fun k r => ?_, ?_⟩
  · rw [h.returned, h.sync]
    simp
  · rw [h.returned]
    exact List.nodup_nil

/-- A step that does not delete the `Notification`. -/
theorem Inv.note_step (h : Inv n s) (hx : Fits s.client k x)
    (hold : x.waiter = .deleted ↔ (s.note k).waiter = .deleted)
    (hvalue : x.waiter = .deleted → x.value = (s.note k).value) :
    Inv n { s with note := Function.update s.note k x } := by
  have hwaiter : ∀ j,
      (Function.update s.note k x j).waiter = .deleted ↔ (s.note j).waiter = .deleted := by
    intro j
    by_cases hjk : j = k
    · subst hjk
      rw [Function.update_self, hold]
    · rw [Function.update_of_ne hjk]
  refine ⟨h.client, h.fresh, fun u j hu => ?_, h.unique, fun j hj hw => ?_, h.request,
    fits_update h.fits hx, fun j r => ?_, h.nodup⟩
  · obtain ⟨hlt, hsync, hw⟩ := h.thread u j hu
    exact ⟨hlt, hsync, (hwaiter j).not.mpr hw⟩
  · exact h.placed j hj ((hwaiter j).not.mp hw)
  · rw [h.log j r, hwaiter j]
    refine and_congr_right fun _ => and_congr_right fun hdel => ?_
    dsimp only
    by_cases hjk : j = k
    · subst hjk
      rw [Function.update_self, hvalue (hold.mpr hdel)]
    · rw [Function.update_of_ne hjk]

theorem Inv.wait (h : Inv n s) (hc : s.call t = some k) (hs : s.waitStep t k = some s') :
    Inv n s' := by
  obtain ⟨hlt, hk, hlive⟩ := h.thread t k hc
  obtain ⟨x, hx, rfl⟩ := Option.map_eq_some_iff.mp hs
  obtain ⟨hvalue, hnotifier⟩ := Notification.wait_frame hx
  have hfits := (h.fits k hk).congr ((h.fits k hk).inv.wait hx) hvalue hnotifier
  by_cases hw : x.waiter = .deleted
  · rw [if_pos hw]
    -- the other calls are as they were
    have hother : ∀ u j, Function.update s.call t none u = some j → s.call u = some j ∧ j ≠ k := by
      intro u j hu
      by_cases hut : u = t
      · subst hut
        rw [Function.update_self] at hu
        cases hu
      · rw [Function.update_of_ne hut] at hu
        exact ⟨hu, fun hjk => hut (h.unique u t j hu (hjk ▸ hc))⟩
    refine ⟨h.client, h.fresh, fun u j hu => ?_, fun u v j hu hv => ?_, fun j hj hjw => ?_,
      h.request, fits_update h.fits hfits, fun j r => ?_, ?_⟩ <;> dsimp only at *
    · obtain ⟨hu, hjk⟩ := hother u j hu
      rw [Function.update_of_ne hjk]
      exact h.thread u j hu
    · exact h.unique u v j (hother u j hu).1 (hother v j hv).1
    · by_cases hjk : j = k
      · subst hjk
        rw [Function.update_self] at hjw
        exact absurd hw hjw
      · rw [Function.update_of_ne hjk] at hjw
        obtain ⟨u, hu⟩ := h.placed j hj hjw
        have hut : u ≠ t := by
          rintro rfl
          exact hjk (Option.some.inj (hu.symm.trans hc))
        exact ⟨u, by rwa [Function.update_of_ne hut]⟩
    · rw [List.mem_append, h.log j r, List.mem_singleton, Prod.mk.injEq]
      by_cases hjk : j = k
      · subst hjk
        rw [Function.update_self]
        simp [hlive, hk, hw, eq_comm]
      · rw [Function.update_of_ne hjk]
        simp [hjk]
    · rw [List.map_append, List.map_singleton]
      refine List.nodup_append.mpr ⟨h.nodup, List.nodup_singleton _, ?_⟩
      intro j hj i hi
      obtain rfl := List.mem_singleton.mp hi
      obtain ⟨⟨j', r⟩, hmem, rfl⟩ := List.mem_map.mp hj
      rintro rfl
      exact hlive ((h.log _ r).mp hmem).2.1
  · rw [if_neg hw]
    exact h.note_step hfits ⟨fun hdel => absurd hdel hw, fun hdel => absurd hdel hlive⟩
      fun _ => hvalue

/-- A step that takes a thread from one place in `wait()` to another. -/
theorem Inv.lock (h : Inv n s) (hc : s.call t = some k)
    (hp : (s.note k).waiter = .begin ∨ (s.note k).waiter = .asleep) :
    Inv n { s with note := Function.update s.note k { s.note k with waiter := .lock } } := by
  obtain ⟨-, hk, hlive⟩ := h.thread t k hc
  have hfits := (h.fits k hk).congr ((h.fits k hk).inv.begin hp) rfl rfl
  exact h.note_step hfits ⟨by simp, fun hdel => absurd hdel hlive⟩ fun _ => rfl

theorem receiving_spec {r : Response} (hr : s.receiving = some (k, r)) :
    ∃ e, (some e, r) ∈ s.client.reader.calling ∧ e.call = k ∧ s.sync k = true := by
  unfold State.receiving at hr
  split at hr
  · next e r' hp =>
      obtain ⟨hsync, hr⟩ := Option.ite_none_right_eq_some.mp hr
      obtain ⟨rfl, rfl⟩ := Prod.mk.inj (Option.some.inj hr)
      exact ⟨e, by rw [hp]; exact List.mem_singleton.mpr rfl, rfl, hsync⟩
  · cases hr

theorem Inv.receive (h : Inv n s) {r : Response} (hr : s.receiving = some (k, r))
    (hx : Notification.notify (s.note k) r = some x) :
    Inv n { s with note := Function.update s.note k x } := by
  obtain ⟨e, hcall, hek, hk⟩ := receiving_spec hr
  have hfits := h.fits k hk
  obtain ⟨hne, hvalue, hstore, hdel⟩ :=
    Notification.notify_spec hx fun hne => hfits.running e r hcall hek hne
  refine h.note_step ⟨hfits.inv.notify hx, fun r' hr' => ⟨e, ?_, hek⟩,
    fun e' r' hcall' _ _ => ?_, fun e' r' hdel' hek' => ?_⟩ hdel fun hw => ?_
  · obtain rfl := Option.some.inj (hvalue.symm.trans hr')
    exact List.mem_append_right _ hcall
  · obtain ⟨-, rfl⟩ := Prod.mk.inj (calling_eq hcall' hcall)
    exact hvalue
  · exact absurd (hek.trans hek'.symm)
      (calling_not_delivered (HttpClient.reachable_inv h.client) hcall hdel')
  · have hpast : (s.note k).waiter.past = true := by
      rw [hdel.mp hw]
      rfl
    exact absurd (hfits.inv.past hpast) hne

/-- A step of the client itself. -/
theorem Inv.client_step (h : Inv n s) {a : HttpClient.Act} {client : HttpClient.State}
    (ha : s.allows a = true) (hs : HttpClient.step n s.client a = some client) :
    Inv n { s with client } := by
  have hclient := HttpClient.reachable_inv h.client
  have hreach : (HttpClient.machine n).Reachable client := .step a h.client trivial hs
  obtain ⟨hcalls, hreads, hcarries⟩ := ClientSend.client_step hs
  refine ⟨hreach, fun k hk => (h.fresh k hk).trans_le hcalls, h.thread, h.unique, h.placed,
    fun k r hk hcarry => ?_, fun k hk => ?_, h.log, h.nodup⟩
  · rcases hcarries k r hcarry with hcarry | ⟨-, -, -, rfl⟩
    · exact h.request k r hk hcarry
    · exact absurd (h.fresh _ hk) (lt_irrefl _)
  · have hfits := h.fits k hk
    cases hreads with
    | same _ hd hr =>
        refine ⟨hfits.inv, fun r hv => ?_, fun e r hcall => ?_, fun e r hdel => ?_⟩
        · rw [handled, hd, hr]
          exact hfits.value r hv
        · exact hfits.running e r (hr ▸ hcall)
        · exact hfits.finished e r (hd ▸ hdel)
    | took _ hd hr =>
        have hold : handled s.client = s.client.delivered := by
          rw [handled, hr, List.append_nil]
        refine ⟨hfits.inv, fun r hv => ?_, fun e r hcall hek hne => ?_, fun e r hdel => ?_⟩
        · obtain ⟨e, he, hek⟩ := hfits.value r hv
          exact ⟨e, List.mem_append_left _ (hd.symm ▸ hold ▸ he), hek⟩
        · -- a call that has just been taken has not stored anything
          obtain ⟨v, hv⟩ := Option.isSome_iff_exists.mp (hfits.inv.value.mpr hne)
          obtain ⟨e', he', hek'⟩ := hfits.value v hv
          exact absurd (hek.trans hek'.symm) (calling_not_delivered
            (HttpClient.reachable_inv hreach) hcall (hd.symm ▸ hold ▸ he'))
        · exact hfits.finished e r (hd ▸ hdel)
    | called hact hd hr =>
        subst hact
        refine ⟨hfits.inv, fun r hv => ?_, fun e r hcall => ?_, fun e r hdel hek => ?_⟩
        · obtain ⟨e, he, hek⟩ := hfits.value r hv
          exact ⟨e, List.mem_append_left _ (hd.symm ▸ he), hek⟩
        · rw [hr] at hcall
          cases hcall
        · rw [hd] at hdel
          rcases List.mem_append.mp hdel with hdel | hcall
          · exact hfits.finished e r hdel hek
          · have hrec : s.receiving = some (k, r) := by
              cases hp : s.client.reader with
              | call cb r' =>
                  rw [hp] at hcall
                  obtain ⟨rfl, rfl⟩ := Prod.mk.inj (List.mem_singleton.mp hcall)
                  rw [State.receiving, hp, ← hek]
                  exact if_pos (hek ▸ hk)
              | parse | handle | stopped =>
                  rw [hp] at hcall
                  cases hcall
            have hret : (s.note k).notifier = .returned := by
              simpa [State.allows, hrec] using ha
            exact ⟨hret, hfits.running e r hcall hek (by rw [hret]; simp)⟩

/-- A new call of `send`. -/
theorem Inv.send (h : Inv n s) (ht : s.call t = none) {request : Request}
    {client : HttpClient.State} (hs : HttpClient.step n s.client
      (.asyncSend t request (some s.client.calls)) = some client) :
    Inv n { s with
      client
      call := Function.update s.call t (some s.client.calls)
      sync := Function.update s.sync s.client.calls true
      request := Function.update s.request s.client.calls request
      note := Function.update s.note s.client.calls Notification.new } := by
  have hclient := HttpClient.reachable_inv h.client
  have hreach : (HttpClient.machine n).Reachable client :=
    .step (.asyncSend t request (some s.client.calls)) h.client trivial hs
  obtain ⟨-, -, hcarries⟩ := ClientSend.client_step hs
  obtain ⟨hguard, hnew⟩ := Option.ite_none_right_eq_some.mp hs
  have hcalls : client.calls = s.client.calls + 1 := by
    rw [← Option.some.inj hnew]
    rfl
  have hhandled : client.delivered = s.client.delivered ∧ client.reader = s.client.reader := by
    rw [← Option.some.inj hnew]
    exact ⟨rfl, rfl⟩
  have hout : s.sync s.client.calls ≠ true := fun hk => absurd (h.fresh _ hk) (lt_irrefl _)
  have hne : ∀ u j, s.call u = some j → j ≠ s.client.calls := by
    rintro u j hu rfl
    exact hout (h.thread u _ hu).2.1
  have hcall : ∀ u j, Function.update s.call t (some s.client.calls) u = some j →
      (u = t ∧ j = s.client.calls) ∨ s.call u = some j := by
    intro u j hu
    by_cases hut : u = t
    · subst hut
      rw [Function.update_self] at hu
      exact .inl ⟨rfl, (Option.some.inj hu).symm⟩
    · rw [Function.update_of_ne hut] at hu
      exact .inr hu
  have hsync : ∀ j, Function.update s.sync s.client.calls true j = true →
      j = s.client.calls ∨ j ≠ s.client.calls ∧ s.sync j = true := by
    intro j hj
    by_cases hjk : j = s.client.calls
    · exact .inl hjk
    · rw [Function.update_of_ne hjk] at hj
      exact .inr ⟨hjk, hj⟩
  have hfits : ∀ j x, Fits s.client j x → Fits client j x := by
    intro j x hx
    obtain ⟨hd, hr⟩ := hhandled
    have hsame : handled client = handled s.client := by rw [handled, hd, hr, handled]
    refine ⟨hx.inv, ?_, ?_, ?_⟩
    · rw [hsame]
      exact hx.value
    · rw [hr]
      exact hx.running
    · rw [hd]
      exact hx.finished
  refine ⟨hreach, fun j hj => ?_, fun u j hu => ?_, fun u v j hu hv => ?_,
    fun j hj hw => ?_, fun j r hj hcarry => ?_, fun j hj => ?_, fun j r => ?_, h.nodup⟩ <;>
    dsimp only at *
  · rw [hcalls]
    rcases hsync j hj with rfl | ⟨-, hj⟩
    · exact Nat.lt_succ_self _
    · exact Nat.lt_succ_of_lt (h.fresh j hj)
  · rcases hcall u j hu with ⟨rfl, rfl⟩ | hu
    · refine ⟨hguard.1, Function.update_self .., ?_⟩
      rw [Function.update_self]
      simp [Notification.new]
    · rw [Function.update_of_ne (hne u j hu), Function.update_of_ne (hne u j hu)]
      exact h.thread u j hu
  · rcases hcall u j hu with ⟨rfl, hj⟩ | hu'
    · rcases hcall v j hv with ⟨rfl, -⟩ | hv'
      · rfl
      · exact absurd hj (hne v j hv')
    · rcases hcall v j hv with ⟨rfl, hj⟩ | hv'
      · exact absurd hj (hne u j hu')
      · exact h.unique u v j hu' hv'
  · rcases hsync j hj with rfl | ⟨hjk, hj⟩
    · exact ⟨t, Function.update_self ..⟩
    · rw [Function.update_of_ne hjk] at hw
      obtain ⟨u, hu⟩ := h.placed j hj hw
      have hut : u ≠ t := by
        rintro rfl
        rw [ht] at hu
        cases hu
      exact ⟨u, by rwa [Function.update_of_ne hut]⟩
  · rcases hcarries j r hcarry with hcarry | ⟨t', cb, hact, rfl⟩
    · rcases hsync j hj with rfl | ⟨hjk, hj⟩
      · exact absurd rfl (carries_lt hclient hcarry).ne
      · rw [Function.update_of_ne hjk]
        exact h.request j r hj hcarry
    · obtain ⟨-, rfl, -⟩ : t = t' ∧ request = r ∧ some s.client.calls = cb := by
        simpa using hact
      exact Function.update_self ..
  · rcases hsync j hj with rfl | ⟨hjk, hj⟩
    · rw [Function.update_self]
      exact hfits _ _ (fits_new hclient)
    · rw [Function.update_of_ne hjk]
      exact hfits j _ (h.fits j hj)
  · rw [h.log j r]
    by_cases hjk : j = s.client.calls
    · subst hjk
      rw [Function.update_self, Function.update_self]
      simp [hout, Notification.new]
    · rw [Function.update_of_ne hjk, Function.update_of_ne hjk]

theorem Inv.step (h : Inv n s) {a : Act} (hs : step n s a = some s') : Inv n s' := by
  cases a with
  | send t request =>
      obtain ⟨ht, hs⟩ := Option.ite_none_right_eq_some.mp hs
      obtain ⟨client, hclient, rfl⟩ := Option.map_eq_some_iff.mp hs
      exact h.send ht hclient
  | client a =>
      obtain ⟨ha, hs⟩ := Option.ite_none_right_eq_some.mp hs
      obtain ⟨client, hclient, rfl⟩ := Option.map_eq_some_iff.mp hs
      exact h.client_step ha hclient
  | sent t =>
      obtain ⟨k, hc, hs⟩ := Option.bind_eq_some_iff.mp hs
      obtain ⟨-, hs⟩ := Option.ite_none_right_eq_some.mp hs
      obtain ⟨x, hx, rfl⟩ := Option.map_eq_some_iff.mp hs
      obtain ⟨hp, hx⟩ := Option.ite_none_right_eq_some.mp hx
      obtain rfl := Option.some.inj hx
      exact h.lock hc (.inl hp)
  | wait t =>
      obtain ⟨k, hc, hs⟩ := Option.bind_eq_some_iff.mp hs
      exact h.wait hc hs
  | wake t =>
      obtain ⟨k, hc, hs⟩ := Option.bind_eq_some_iff.mp hs
      obtain ⟨x, hx, rfl⟩ := Option.map_eq_some_iff.mp hs
      obtain ⟨hp, hx⟩ := Option.ite_none_right_eq_some.mp hx
      obtain rfl := Option.some.inj hx
      exact h.lock hc (.inr hp)
  | receive =>
      obtain ⟨⟨k, r⟩, hr, hs⟩ := Option.bind_eq_some_iff.mp hs
      obtain ⟨x, hx, rfl⟩ := Option.map_eq_some_iff.mp hs
      exact h.receive hr hx

theorem reachable_inv (h : (machine n).Reachable s) : Inv n s :=
  h.invariant (I := Inv n) (fun _ hi => Initial.inv hi) fun _ _ _ hi _ hs => hi.step hs

/-! ## Every `send` gets its answer -/

/-- The reader is between two responses or has stopped, and a thread in
`send` sleeps in `wait()`. -/
def State.AtRest (n : ℕ) (s : State) : Prop :=
  s.client.reader.calling = []
    ∧ ∀ t < n, ∀ k, s.call t = some k → (s.note k).waiter = .asleep

/-- **Each `send` returns the response to its own request.** The `send`
that has sent the `i`-th request returns with the `i`-th response, once;
while the reader is in its callback the `Notification` exists; and at rest
each `send` whose response was handled has returned. -/
theorem sends_answered (h : (machine n).Reachable s) :
    (∀ k r, (k, r) ∈ s.returned → ∃ (i : ℕ) (e : Entry) (response : Response),
      s.client.sent[i]? = some (e, s.request k) ∧ e.call = k
        ∧ s.client.parsed[i]? = some response ∧ r = some response)
    ∧ (s.returned.map Prod.fst).Nodup
    ∧ (∀ k r, s.receiving = some (k, r) → (s.note k).notifier ≠ .returned →
        (s.note k).waiter ≠ .deleted)
    ∧ (s.AtRest n → ∀ e r, (some e, r) ∈ s.client.delivered → s.sync e.call = true →
        (e.call, some r) ∈ s.returned) := by
  have hI := reachable_inv h
  have hclient := HttpClient.reachable_inv hI.client
  refine ⟨fun k r hmem => ?_, hI.nodup, fun k r hr hne hdel => ?_,
    fun hrest e r hdel hk => ?_⟩
  · obtain ⟨hk, hdel, hvalue⟩ := (hI.log k r).mp hmem
    have hfits := hI.fits k hk
    obtain ⟨v, hv⟩ := hfits.inv.value_of_past (by rw [hdel]; rfl)
    obtain ⟨e, he, hek⟩ := hfits.value v hv
    obtain ⟨i, request, hsent, hparsed⟩ := handled_sent hclient he
    have hcarry : Carries s.client k request := .inr ⟨e, List.mem_of_getElem? hsent, hek⟩
    rw [← hI.request k request hk hcarry] at hsent
    exact ⟨i, e, v, hsent, hek, hparsed, hvalue.symm.trans hv⟩
  · obtain ⟨e, -, -, hk⟩ := receiving_spec hr
    exact hne ((hI.fits k hk).inv.past (by rw [hdel]; rfl))
  · obtain ⟨hret, hvalue⟩ := (hI.fits _ hk).finished e r hdel rfl
    refine (hI.log _ _).mpr ⟨hk, ?_, hvalue⟩
    by_contra hlive
    obtain ⟨t, ht⟩ := hI.placed _ hk hlive
    exact (hI.fits _ hk).inv.not_asleep hret (hrest.2 t (hI.thread t _ ht).1 _ ht)

def start : State :=
  ⟨HttpClient.start, fun _ => none, fun _ => false, fun _ => ⟨[], [], []⟩,
    fun _ => Notification.new, []⟩

theorem start_initial : Initial start :=
  ⟨HttpClient.start_initial, fun _ => rfl, fun _ => rfl, rfl⟩

/-- A `send` that falls asleep, wakes up too early and falls asleep again. -/
def wokenTwice : List Act :=
  [.send 0 ⟨[71], [47], [49]⟩, .client (.tick 0), .client (.tick 0), .client (.tick 0),
    .client (.conn (.tick 0)), .client (.conn (.tick 0)), .client (.conn (.send 0 (.bytes 9))),
    .client (.conn (.tick 0)), .sent 0, .wait 0, .wait 0, .client (.answer ⟨[66], [], []⟩),
    .client .parse, .wake 0, .client .handleResponse, .receive, .wait 0, .wait 0]
    ++ List.replicate 4 .receive ++ [.client .callback] ++ List.replicate 4 (.wait 0)

theorem wokenTwice_answered : ∃ s, (machine 1).Reachable s
    ∧ s.returned = [(0, some ⟨[66], [], []⟩)]
    ∧ ∃ (i : ℕ) (e : Entry) (response : Response), s.client.sent[i]? = some (e, s.request 0)
      ∧ e.call = 0 ∧ s.client.parsed[i]? = some response
      ∧ (some ⟨[66], [], []⟩ : Option Response) = some response := by
  have hrun : ((machine 1).exec (fun _ _ => True) start wokenTwice).any
      (fun s => s.returned = [(0, some ⟨[66], [], []⟩)]) = true := by
    decide +kernel
  obtain ⟨s, hs, hp⟩ := Lts.ReachableBy.exec_any (.init start_initial) hrun
  have hreturned := of_decide_eq_true hp
  exact ⟨s, hs, hreturned, (sends_answered hs).1 0 _ (by rw [hreturned]; simp)⟩

end

end ClientSend

end HttpServer
