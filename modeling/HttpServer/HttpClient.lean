import Mathlib.Data.List.Nodup
import HttpServer.ConnectionRuns
import HttpServer.HttpConnection

/-!
# Requests and responses of a client

`HTTPClientConnection::asyncSend` and `handleResponse`
(http_connection.cpp) with `Request::toBuffer` (http_request.cpp), on
top of the writing side of `Connection`.

`asyncSend` holds `m_response_` from the push of its callback until the
request is in `out_`, and there is a step in between: `m_write_` may be
with a writer that has met `EAGAIN`. Afterwards it calls `startWrite`,
and the rest is the connection's. The reader takes a response from the
server, then the front of the queue in a section of `m_response_`, then
calls it. Which bytes make up a response is the matter of the parser
and left out: it finds them one after the other, or an error.

The server may answer a request when the socket has taken the whole of
it, and it answers them in order. Every call of `asyncSend` has a
number, so that callbacks can be told apart that are the same object
(`Entry`).
-/

namespace HttpServer

namespace HttpClient

open HttpConnection (ascii)

abbrev Tid := ℕ

/-- What `c_str()` shows of a string. -/
def cStr (s : List UInt8) : List UInt8 := s.takeWhile (· ≠ 0)

/-- The calls of `write` in `toBuffer`. -/
def toBuffer (r : Request) : List (List UInt8) :=
  [cStr r.method, ascii " ", cStr r.address, ascii " ", cStr r.version, ascii "\r\n\r\n"]

def text (r : Request) : List UInt8 := (toBuffer r).flatten

/-- An element of `response_cbs_`: the callback of a call, or `NULL`. -/
structure Entry where
  call : ℕ
  cb : Option ℕ
deriving DecidableEq, Repr

/-- Where a thread is in `asyncSend` while it holds `m_response_`. -/
inductive SendPc where
  | out
  | push (e : Entry) (request : Request)
  | toBuffer (e : Entry) (request : Request)
  | unlock
deriving DecidableEq, Repr

/-- Where the reader is. -/
inductive ReadPc where
  /-- In `readDone`, or on its way to the next one. -/
  | parse
  /-- The section of `handleResponse`. -/
  | handle (response : Response)
  /-- The rest of it, with what it found in the queue. -/
  | call (cb : Option Entry) (response : Response)
  /-- `readDone` has returned false. -/
  | stopped
deriving DecidableEq, Repr

structure State where
  conn : Connection.State
  /-- The thread that holds `m_response_` between two steps. -/
  lock : Option Tid
  responseCbs : List Entry
  pc : Tid → SendPc
  reader : ReadPc
  /-- The number of calls of `asyncSend`. -/
  calls : ℕ
  /-- The requests in the order in which they came into `out_`. -/
  sent : List (Entry × Request)
  /-- The responses of the server. -/
  answered : List Response
  parsed : List Response
  /-- What the sections of `handleResponse` found in the queue. -/
  popped : List (Option Entry)
  /-- The responses handled, each with the callback it went to. -/
  delivered : List (Option Entry × Response)

inductive Act where
  | asyncSend (t : Tid) (request : Request) (cb : Option ℕ)
  | tick (t : Tid)
  | conn (a : Connection.Act)
  | answer (response : Response)
  | parse
  | parseError
  | handleResponse
  | callback

namespace State

def goto (s : State) (t : Tid) (pc : SendPc) : State := { s with pc := Function.update s.pc t pc }

/-- A thread takes part in the writing when it is not in a section of
`asyncSend`, and all that is appended comes from there. -/
def writes (s : State) : Connection.Act → Bool
  | .append _ _ _ => false
  | .tick t => s.pc t = .out
  | .run t => s.pc t = .out
  | _ => true

/-- The socket has taken the whole of the next request to answer. -/
def received (s : State) : Bool :=
  s.answered.length < s.conn.appended.length
    && (s.conn.appended.take (s.answered.length + 1)).flatten.length ≤ s.conn.accepted.length

end State

/-- The next step of a thread in the section of `asyncSend`. -/
def tick (n : ℕ) (s : State) (t : Tid) : Option State :=
  match s.pc t with
  | .out => none
  | .push e request =>
      some ({ s with responseCbs := s.responseCbs ++ [e] }.goto t (.toBuffer e request))
  | .toBuffer e request =>
      (Connection.step n s.conn (.append t (toBuffer request) none)).map fun conn =>
        { s with conn := conn, sent := s.sent ++ [(e, request)] }.goto t .unlock
  | .unlock => some ({ s with lock := none }.goto t .out)

/-- One step of a client with `n` threads beside the reader. -/
def step (n : ℕ) (s : State) : Act → Option State
  | .asyncSend t request cb =>
      if t < n ∧ s.pc t = .out ∧ s.conn.pc t = .idle ∧ s.lock = none then
        some ({ s with lock := some t, calls := s.calls + 1 }.goto t (.push ⟨s.calls, cb⟩ request))
      else none
  | .tick t => tick n s t
  | .conn a =>
      if s.writes a then (Connection.step n s.conn a).map fun conn => { s with conn := conn }
      else none
  | .answer r => if s.received then some { s with answered := s.answered ++ [r] } else none
  | .parse =>
      match s.reader, s.answered[s.parsed.length]? with
      | .parse, some r => some { s with parsed := s.parsed ++ [r], reader := .handle r }
      | _, _ => none
  | .parseError => if s.reader = .parse then some { s with reader := .stopped } else none
  | .handleResponse =>
      match s.reader with
      | .handle r =>
          if s.lock = none then
            some { s with
              responseCbs := s.responseCbs.tail
              popped := s.popped ++ [s.responseCbs.head?]
              reader := .call s.responseCbs.head? r }
          else none
      | _ => none
  | .callback =>
      match s.reader with
      | .call cb r => some { s with delivered := s.delivered ++ [(cb, r)], reader := .parse }
      | _ => none

structure Initial (s : State) : Prop where
  conn : Connection.Initial s.conn
  lock : s.lock = none
  responseCbs : s.responseCbs = []
  pc : ∀ t, s.pc t = .out
  reader : s.reader = .parse
  calls : s.calls = 0
  sent : s.sent = []
  answered : s.answered = []
  parsed : s.parsed = []
  popped : s.popped = []
  delivered : s.delivered = []

def machine (n : ℕ) : Lts State Act := ⟨Initial, step n⟩

/-! ## The order of the queue and of the stream -/

/-- The entry of a call that has not got to the stream yet. -/
def SendPc.current : SendPc → List Entry
  | .push e _ => [e]
  | .toBuffer e _ => [e]
  | _ => []

/-- The same, once it is in the queue. -/
def SendPc.pushed : SendPc → List Entry
  | .toBuffer e _ => [e]
  | _ => []

namespace State

/-- The call in the section of `m_response_`. -/
def current (s : State) : List Entry := (s.lock.map fun t => (s.pc t).current).getD []

def pushed (s : State) : List Entry := (s.lock.map fun t => (s.pc t).pushed).getD []

end State

/-- The response that is to be matched with a callback. -/
def ReadPc.inHand : ReadPc → List Response
  | .handle r => [r]
  | _ => []

def ReadPc.calling : ReadPc → List (Option Entry × Response)
  | .call cb r => [(cb, r)]
  | _ => []

structure Inv (n : ℕ) (s : State) : Prop where
  conn : (Connection.machine n).Reachable s.conn
  owner : ∀ t, s.pc t ≠ .out → s.lock = some t
  stream : s.conn.appended = s.sent.map fun p => text p.2
  order : (s.sent.map Prod.fst ++ s.current).map Entry.call = List.range s.calls
  fifo : ∃ es, s.popped = es.map some ∧ es ++ s.responseCbs = s.sent.map Prod.fst ++ s.pushed
  answered : s.answered.length ≤ s.sent.length
  parsed : s.parsed <+: s.answered
  handled : ∃ rs, s.parsed = rs ++ s.reader.inHand ∧ rs.length = s.popped.length
    ∧ s.delivered ++ s.reader.calling = s.popped.zip rs

section

variable {n : ℕ} {s s' : State} {t : Tid}

theorem Initial.inv (h : Initial s) : Inv n s := by
  have howner : ∀ t, s.pc t ≠ .out → s.lock = some t := fun t ht => absurd (h.pc t) ht
  refine ⟨.init h.conn, howner, ?_, ?_, ⟨[], ?_, ?_⟩, ?_, ?_, [], ?_, ?_, ?_⟩
  · rw [h.conn.appended, h.sent]
    rfl
  · rw [h.sent, h.calls, State.current, h.lock]
    rfl
  · rw [h.popped]
    rfl
  · rw [h.responseCbs, h.sent, State.pushed, h.lock]
    rfl
  · rw [h.answered, h.sent]
    exact le_rfl
  · rw [h.parsed]
    exact List.nil_prefix
  · rw [h.parsed, h.reader]
    rfl
  · rw [h.popped]
    rfl
  · rw [h.delivered, h.reader, h.popped]
    rfl

theorem goto_pc_self (s : State) (t : Tid) (x : SendPc) : (s.goto t x).pc t = x :=
  Function.update_self ..

theorem goto_pc_of_ne (s : State) {t u : Tid} (x : SendPc) (h : u ≠ t) :
    (s.goto t x).pc u = s.pc u :=
  Function.update_of_ne h ..

/-- The writers leave what is appended alone. -/
theorem appended_of_writes {a : Connection.Act} {conn : Connection.State} (ha : s.writes a = true)
    (hs : Connection.step n s.conn a = some conn) : conn.appended = s.conn.appended := by
  cases Connection.step_move hs with
  | append => cases ha
  | _ => rfl

/-- `asyncSend` enters the section of `m_response_`. -/
theorem Inv.asyncSend (h : Inv n s) (hl : s.lock = none) (request : Request) (cb : Option ℕ) :
    Inv n ({ s with lock := some t, calls := s.calls + 1 }.goto t
      (.push ⟨s.calls, cb⟩ request)) := by
  refine ⟨h.conn, ?_, h.stream, ?_, ?_, h.answered, h.parsed, h.handled⟩
  · intro u hu
    by_cases hut : u = t
    · rw [hut]
      rfl
    · rw [goto_pc_of_ne _ _ hut] at hu
      have howner := h.owner u hu
      rw [hl] at howner
      cases howner
  · have horder := h.order
    rw [State.current, hl] at horder
    simp only [State.goto, State.current, Option.map_some, Option.getD_some, Function.update_self,
      SendPc.current, List.map_append, List.range_succ]
    simp only [Option.map_none, Option.getD_none, List.append_nil] at horder
    rw [horder]
    rfl
  · obtain ⟨es, hpop, hfifo⟩ := h.fifo
    refine ⟨es, hpop, ?_⟩
    rw [State.pushed, hl] at hfifo
    simp only [State.goto, State.pushed, Option.map_some, Option.getD_some, Function.update_self,
      SendPc.pushed]
    exact hfifo

theorem Inv.lock_of_pc (h : Inv n s) {pc : SendPc} (hp : s.pc t = pc) (hne : pc ≠ .out) :
    s.lock = some t :=
  h.owner t (by rw [hp]; exact hne)

theorem Inv.owner_goto (h : Inv n s) (hl : s.lock = some t) {x : SendPc} :
    ∀ u, (s.goto t x).pc u ≠ .out → s.lock = some u := by
  intro u hu
  by_cases hut : u = t
  · rw [hut]
    exact hl
  · rw [goto_pc_of_ne _ _ hut] at hu
    exact h.owner u hu

theorem Inv.push (h : Inv n s) {e : Entry} {request : Request} (hp : s.pc t = .push e request) :
    Inv n ({ s with responseCbs := s.responseCbs ++ [e] }.goto t (.toBuffer e request)) := by
  have hl := h.lock_of_pc hp (by nofun)
  refine ⟨h.conn, h.owner_goto hl, h.stream, ?_, ?_, h.answered, h.parsed, h.handled⟩
  · have horder := h.order
    rw [State.current, hl, Option.map_some, hp] at horder
    rw [State.current]
    simp only [State.goto, hl, Option.map_some, Function.update_self]
    exact horder
  · obtain ⟨es, hpop, hfifo⟩ := h.fifo
    refine ⟨es, hpop, ?_⟩
    rw [State.pushed, hl, Option.map_some, hp] at hfifo
    simp only [State.goto, State.pushed, hl, Option.map_some, Option.getD_some,
      Function.update_self, SendPc.pushed, List.append_nil] at hfifo ⊢
    rw [← hfifo, List.append_assoc]

/-- The request comes into the stream behind those whose callbacks are in
front of its own. -/
theorem Inv.toBuffer (h : Inv n s) {e : Entry} {request : Request}
    (hp : s.pc t = .toBuffer e request) {conn : Connection.State}
    (hs : Connection.step n s.conn (.append t (toBuffer request) none) = some conn) :
    Inv n ({ s with conn := conn, sent := s.sent ++ [(e, request)] }.goto t .unlock) := by
  have hl := h.lock_of_pc hp (by nofun)
  have hconn : (Connection.machine n).Reachable conn :=
    .step (.append t (HttpClient.toBuffer request) none) h.conn trivial hs
  refine ⟨hconn, h.owner_goto hl, ?_, ?_, ?_, ?_, h.parsed, h.handled⟩
  · cases Connection.step_move hs with
    | append =>
        simp only [Connection.State.goto, State.goto, List.map_append, ← h.stream]
        simp [Connection.appendedText, text]
  · have horder := h.order
    rw [State.current, hl, Option.map_some, hp] at horder
    rw [State.current]
    simp only [State.goto, hl, Option.map_some, Function.update_self, List.map_append,
      SendPc.current, Option.getD_some] at horder ⊢
    rw [← horder]
    simp
  · obtain ⟨es, hpop, hfifo⟩ := h.fifo
    refine ⟨es, hpop, ?_⟩
    rw [State.pushed, hl, Option.map_some, hp] at hfifo
    simp only [State.goto, State.pushed, hl, Option.map_some, Option.getD_some,
      Function.update_self, SendPc.pushed, List.map_append] at hfifo ⊢
    rw [hfifo]
    simp
  · refine le_trans h.answered ?_
    simp [State.goto]

theorem Inv.unlock (h : Inv n s) (hp : s.pc t = .unlock) :
    Inv n ({ s with lock := none }.goto t .out) := by
  have hl := h.lock_of_pc hp (by nofun)
  refine ⟨h.conn, ?_, h.stream, ?_, ?_, h.answered, h.parsed, h.handled⟩
  · intro u hu
    by_cases hut : u = t
    · rw [hut, goto_pc_self] at hu
      exact absurd rfl hu
    · rw [goto_pc_of_ne _ _ hut] at hu
      rw [h.owner u hu, Option.some.injEq] at hl
      exact absurd hl hut
  · have horder := h.order
    rw [State.current, hl, Option.map_some, hp] at horder
    exact horder
  · obtain ⟨es, hpop, hfifo⟩ := h.fifo
    refine ⟨es, hpop, ?_⟩
    rw [State.pushed, hl, Option.map_some, hp] at hfifo
    exact hfifo

theorem Inv.conn_step (h : Inv n s) {a : Connection.Act} {conn : Connection.State}
    (ha : s.writes a = true) (hs : Connection.step n s.conn a = some conn) :
    Inv n { s with conn := conn } := by
  have hconn : (Connection.machine n).Reachable conn := .step a h.conn trivial hs
  have happ := appended_of_writes ha hs
  exact ⟨hconn, h.owner, happ.trans h.stream, h.order, h.fifo, h.answered, h.parsed, h.handled⟩

/-- The server cannot have answered more than the stream has. -/
theorem Inv.answer (h : Inv n s) (hr : s.received = true) (r : Response) :
    Inv n { s with answered := s.answered ++ [r] } := by
  refine ⟨h.conn, h.owner, h.stream, h.order, h.fifo, ?_, ?_, h.handled⟩
  · simp only [State.received, Bool.and_eq_true, decide_eq_true_eq, h.stream,
      List.length_map] at hr
    rw [List.length_append]
    exact hr.1
  · exact h.parsed.trans (List.prefix_append _ _)

theorem Inv.parse (h : Inv n s) (hp : s.reader = .parse) {r : Response}
    (hr : s.answered[s.parsed.length]? = some r) :
    Inv n { s with parsed := s.parsed ++ [r], reader := .handle r } := by
  refine ⟨h.conn, h.owner, h.stream, h.order, h.fifo, h.answered, ?_, ?_⟩
  · obtain ⟨rest, hrest⟩ := h.parsed
    rw [← hrest, List.getElem?_append_right le_rfl, Nat.sub_self] at hr
    cases rest with
    | nil => cases hr
    | cons x rest =>
        obtain rfl := Option.some.inj hr
        exact ⟨rest, by rw [← hrest, List.append_assoc]; rfl⟩
  · obtain ⟨rs, hrs, hlen, hdel⟩ := h.handled
    rw [hp] at hrs hdel
    simp only [ReadPc.inHand, List.append_nil] at hrs
    exact ⟨rs, by rw [hrs]; rfl, hlen, hdel⟩

theorem Inv.parseError (h : Inv n s) (hp : s.reader = .parse) :
    Inv n { s with reader := .stopped } := by
  refine ⟨h.conn, h.owner, h.stream, h.order, h.fifo, h.answered, h.parsed, ?_⟩
  have hhandled := h.handled
  rw [hp] at hhandled
  exact hhandled

/-- While a response is in hand, the entry of its request is in the
queue. -/
theorem Inv.responseCbs_ne_nil (h : Inv n s) {r : Response} (hp : s.reader = .handle r) :
    s.responseCbs ≠ [] := by
  intro hnil
  obtain ⟨es, hpop, hfifo⟩ := h.fifo
  obtain ⟨rs, hrs, hlen, -⟩ := h.handled
  have hle := h.parsed.length_le
  have hans := h.answered
  have hcount := congrArg List.length hfifo
  rw [hp] at hrs
  rw [hrs] at hle
  rw [hpop, List.length_map] at hlen
  simp only [hnil, List.append_nil, List.length_append, List.length_map, ReadPc.inHand,
    List.length_singleton] at hcount hle
  omega

theorem Inv.handleResponse (h : Inv n s) {r : Response} (hp : s.reader = .handle r) :
    Inv n { s with
      responseCbs := s.responseCbs.tail
      popped := s.popped ++ [s.responseCbs.head?]
      reader := .call s.responseCbs.head? r } := by
  have hne := h.responseCbs_ne_nil hp
  obtain ⟨es, hpop, hfifo⟩ := h.fifo
  obtain ⟨rs, hrs, hlen, hdel⟩ := h.handled
  obtain ⟨e, rest, hcbs⟩ := List.exists_cons_of_ne_nil hne
  rw [hp] at hrs hdel
  refine ⟨h.conn, h.owner, h.stream, h.order, ⟨es ++ [e], ?_, ?_⟩, h.answered, h.parsed,
    rs ++ [r], ?_, ?_, ?_⟩
  · rw [hcbs, hpop, List.map_append]
    rfl
  · rw [hcbs] at hfifo
    rw [hcbs, List.append_assoc]
    exact hfifo
  · rw [hrs]
    simp [ReadPc.inHand]
  · simp [hlen]
  · simp only [ReadPc.calling, List.append_nil] at hdel
    rw [ReadPc.calling, hdel, List.zip_append hlen.symm]
    rfl

theorem Inv.callback (h : Inv n s) {cb : Option Entry} {r : Response}
    (hp : s.reader = .call cb r) :
    Inv n { s with delivered := s.delivered ++ [(cb, r)], reader := .parse } := by
  obtain ⟨rs, hrs, hlen, hdel⟩ := h.handled
  rw [hp] at hrs hdel
  refine ⟨h.conn, h.owner, h.stream, h.order, h.fifo, h.answered, h.parsed, rs, hrs, hlen, ?_⟩
  simp only [ReadPc.calling, List.append_nil] at hdel ⊢
  exact hdel

theorem Inv.step {a : Act} (h : Inv n s) (hs : step n s a = some s') : Inv n s' := by
  cases a with
  | asyncSend t request cb =>
      obtain ⟨⟨-, -, -, hl⟩, hs⟩ := Option.ite_none_right_eq_some.mp hs
      obtain rfl := Option.some.inj hs
      exact h.asyncSend hl request cb
  | tick t =>
      rw [HttpClient.step, tick] at hs
      cases hp : s.pc t with
      | out =>
          rw [hp] at hs
          cases hs
      | push e request =>
          rw [hp] at hs
          obtain rfl := Option.some.inj hs
          exact h.push hp
      | toBuffer e request =>
          rw [hp] at hs
          obtain ⟨conn, hconn, rfl⟩ := Option.map_eq_some_iff.mp hs
          exact h.toBuffer hp hconn
      | unlock =>
          rw [hp] at hs
          obtain rfl := Option.some.inj hs
          exact h.unlock hp
  | conn a =>
      obtain ⟨ha, hs⟩ := Option.ite_none_right_eq_some.mp hs
      obtain ⟨conn, hconn, rfl⟩ := Option.map_eq_some_iff.mp hs
      exact h.conn_step ha hconn
  | answer r =>
      obtain ⟨hr, hs⟩ := Option.ite_none_right_eq_some.mp hs
      obtain rfl := Option.some.inj hs
      exact h.answer hr r
  | parse =>
      rw [HttpClient.step] at hs
      split at hs
      · rename_i r hp hr
        obtain rfl := Option.some.inj hs
        exact h.parse hp hr
      · cases hs
  | parseError =>
      obtain ⟨hp, hs⟩ := Option.ite_none_right_eq_some.mp hs
      obtain rfl := Option.some.inj hs
      exact h.parseError hp
  | handleResponse =>
      rw [HttpClient.step] at hs
      split at hs
      · rename_i r hp
        obtain ⟨-, hs⟩ := Option.ite_none_right_eq_some.mp hs
        obtain rfl := Option.some.inj hs
        exact h.handleResponse hp
      · cases hs
  | callback =>
      rw [HttpClient.step] at hs
      split at hs
      · rename_i cb r hp
        obtain rfl := Option.some.inj hs
        exact h.callback hp
      · cases hs

theorem reachable_inv (h : (machine n).Reachable s) : Inv n s :=
  h.invariant (I := Inv n) (fun _ hi => Initial.inv hi) fun _ _ _ hi _ hs => hi.step hs

/-- Callbacks leave the queue in the order of the stream. -/
theorem Inv.popped_prefix (h : Inv n s) :
    ∃ es, s.popped = es.map some ∧ es <+: s.sent.map Prod.fst := by
  obtain ⟨es, hpop, hfifo⟩ := h.fifo
  obtain ⟨rs, hrs, hlen, -⟩ := h.handled
  refine ⟨es, hpop, ?_⟩
  have hle : es.length ≤ (s.sent.map Prod.fst).length := by
    have hparsed := h.parsed.length_le
    have hans := h.answered
    rw [hrs, List.length_append] at hparsed
    rw [hpop, List.length_map] at hlen
    rw [List.length_map]
    omega
  have hpre : es <+: s.sent.map Prod.fst ++ s.pushed := ⟨s.responseCbs, hfifo⟩
  exact List.prefix_of_prefix_length_le hpre (List.prefix_append _ _) hle

/-- Between two responses all that were parsed are delivered. -/
theorem Inv.delivered_length (h : Inv n s) (hr : s.reader = .parse ∨ s.reader = .stopped) :
    s.delivered.length = s.parsed.length := by
  obtain ⟨rs, hrs, hlen, hdel⟩ := h.handled
  have hin : s.reader.inHand = [] := by rcases hr with hr | hr <;> rw [hr] <;> rfl
  have hcall : s.reader.calling = [] := by rcases hr with hr | hr <;> rw [hr] <;> rfl
  rw [hin, List.append_nil] at hrs
  rw [hcall, List.append_nil] at hdel
  rw [hdel, hrs, List.length_zip, hlen, Nat.min_self]

theorem Inv.nodup_sent (h : Inv n s) : ((s.sent.map Prod.fst).map Entry.call).Nodup := by
  have hnodup : ((s.sent.map Prod.fst ++ s.current).map Entry.call).Nodup := by
    rw [h.order]
    exact List.nodup_range
  rw [List.map_append] at hnodup
  exact (List.nodup_append.mp hnodup).1

/-- **Responses reach the right callback.** The stream of `out_` is the
requests of `sent` in order, and the socket has taken a front part of
it. The `k`-th response parsed is the answer to the `k`-th request and
goes to the callback of that request; once the reader is back in
`readDone` all that it has parsed are delivered; every entry is of a call
of its own and is popped at most once; the section of `handleResponse`
never finds the queue empty. -/
theorem responses_matched (h : (machine n).Reachable s) :
    s.conn.appended = s.sent.map (fun p => text p.2)
      ∧ s.conn.accepted <+: s.conn.appended.flatten
      ∧ s.parsed <+: s.answered
      ∧ (∀ (k : ℕ) p, s.delivered[k]? = some p → ∃ e request r,
          s.sent[k]? = some (e, request) ∧ s.parsed[k]? = some r ∧ p = (some e, r))
      ∧ (s.reader = .parse ∨ s.reader = .stopped → s.delivered.length = s.parsed.length)
      ∧ ((s.sent.map Prod.fst).map Entry.call).Nodup
      ∧ s.popped.Nodup
      ∧ ∀ r, s.reader = .handle r → s.responseCbs ≠ [] := by
  have hinv := reachable_inv h
  obtain ⟨es, hpop, hpre⟩ := hinv.popped_prefix
  obtain ⟨rs, hrs, hlen, hdel⟩ := hinv.handled
  refine ⟨hinv.stream, ?_, hinv.parsed, ?_, hinv.delivered_length, hinv.nodup_sent, ?_,
    fun r hr => hinv.responseCbs_ne_nil hr⟩
  · obtain ⟨d, hacc⟩ := (Connection.reachable_inv hinv.conn).account
    exact ⟨_, hacc.stream⟩
  · intro k p hp
    have hzip : (s.popped.zip rs)[k]? = some p := by
      rw [← hdel]
      exact List.getElem?_append_left (List.getElem?_eq_some_iff.mp hp).1 ▸ hp
    rw [List.getElem?_zip_eq_some, hpop] at hzip
    obtain ⟨hcb, hr⟩ := hzip
    rw [List.getElem?_map, Option.map_eq_some_iff] at hcb
    obtain ⟨e, he, hcb⟩ := hcb
    obtain ⟨rest, hrest⟩ := hpre
    have hsent : (s.sent.map Prod.fst)[k]? = some e := by
      rw [← hrest]
      exact List.getElem?_append_left (List.getElem?_eq_some_iff.mp he).1 ▸ he
    rw [List.getElem?_map, Option.map_eq_some_iff] at hsent
    obtain ⟨⟨e', request⟩, hreq, rfl⟩ := hsent
    refine ⟨e', request, p.2, hreq, ?_, Prod.ext hcb.symm rfl⟩
    rw [hrs]
    exact List.getElem?_append_left (List.getElem?_eq_some_iff.mp hr).1 ▸ hr
  · rw [hpop]
    have hes : es.Nodup := hpre.sublist.nodup (List.Nodup.of_map _ hinv.nodup_sent)
    exact List.Nodup.map (Option.some_injective _) hes

/-- A client over a connection in zeroed memory. -/
def start : State :=
  ⟨Connection.start, none, [], fun _ => .out, .parse, 0, [], [], [], [], []⟩

theorem start_initial : Initial start :=
  ⟨Connection.start_initial, rfl, rfl, fun _ => rfl, rfl, rfl, rfl, rfl, rfl, rfl, rfl⟩

/-- Two threads send; the second request is in the stream before the
first one is answered. -/
def twoSenders : List Act :=
  [.asyncSend 1 ⟨[71], [47, 98], [49]⟩ (some 7), .tick 1, .tick 1, .tick 1,
    .conn (.tick 1), .conn (.tick 1), .asyncSend 0 ⟨[71], [47, 97], [49]⟩ (some 8), .tick 0,
    .conn (.send 1 (.bytes 10)), .answer ⟨[66], [], []⟩, .parse, .tick 0, .tick 0,
    .handleResponse, .conn (.tick 1), .callback]

theorem twoSenders_matched : ∃ s, (machine 2).Reachable s
    ∧ s.delivered[0]? = some (some ⟨0, some 7⟩, ⟨[66], [], []⟩)
    ∧ (∃ e request r, s.sent[0]? = some (e, request) ∧ s.parsed[0]? = some r
        ∧ (some ⟨0, some 7⟩, ⟨[66], [], []⟩) = (some e, r))
    ∧ s.responseCbs = [⟨1, some 8⟩] := by
  have hrun : ((machine 2).exec (fun _ _ => True) start twoSenders).any
      (fun s => s.delivered[0]? = some (some ⟨0, some 7⟩, ⟨[66], [], []⟩)
        && s.responseCbs = [⟨1, some 8⟩]) = true := by
    decide +kernel
  obtain ⟨s, hs, hp⟩ := Lts.ReachableBy.exec_any (.init start_initial) hrun
  simp only [Bool.and_eq_true, decide_eq_true_eq] at hp
  exact ⟨s, hs, hp.1, (responses_matched hs).2.2.2.1 0 _ hp.1, hp.2⟩

end

end HttpClient

end HttpServer
