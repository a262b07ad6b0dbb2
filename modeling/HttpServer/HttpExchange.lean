import HttpServer.ConnectionReadRuns
import HttpServer.KVConnection
import HttpServer.RequestText

/-!
# Requests and their answers, end to end

`HTTPServerConnection` and `HTTPClientConnection` (http_connection.cpp)
as sub-classes of `Connection`. What a server connection appends to
`out_` depends on what arrives at its socket and on nothing else that its
threads do (`server_answers`), and when a client connection receives it,
the responses that its callbacks get are the answers to its requests, one
by one and in their order (`exchange`).

What `pin` and `getStats` return is given for each request. A file of more
than one chunk is not framed, and then the client does not find the end of
the response.
-/

namespace HttpServer

namespace HttpExchange

open Buffer HttpConnection HttpServer.Parser Incremental ReadDone ConnectionRead

/-! ## Answers -/

/-- What a branch of `handleRequest` appends to `out_`, and the response
that it is meant to be. -/
structure Answer where
  write : Buffer → Buffer
  text : List UInt8
  response : Response
  spec : ∀ {out : Buffer}, out.Inv →
    (write out).Inv ∧ (write out).content = out.content ++ text

/-- The client takes it for this response. -/
def Answer.Framed (a : Answer) : Prop := ∀ t, responseSpec (a.text ++ t) = .done a.response t

def fileAnswer (buf : Source) : Answer where
  write out := writeFile out buf.buf
  text := fileText buf.buf
  response := ⟨statusLine, (headerLines buf.buf.readSize).flatten, buf.buf.content⟩
  spec h := writeFile_spec h buf

theorem fileAnswer_framed {buf : Source} (h : OneChunk buf.buf) : (fileAnswer buf).Framed := by
  have hone := (oneChunk_iff buf.reached.inv).mp h
  intro t
  rw [fileAnswer, responseSpec_fileText, ← hone, List.take_length, List.drop_length,
    List.nil_append]

def statsAnswer (reqsLastSec : ℕ) : Answer where
  write out := writeStats out reqsLastSec
  text := headerText (sizeText reqsLastSec).length ++ sizeText reqsLastSec
  response := ⟨statusLine, (headerLines (sizeText reqsLastSec).length).flatten,
    sizeText reqsLastSec⟩
  spec h := by
    obtain ⟨hinv, hhead⟩ := writeHeader_spec h (sizeText reqsLastSec).length
    obtain ⟨hinv', hbody⟩ := write_spec hinv (sizeText reqsLastSec)
    exact ⟨hinv', by rw [writeStats, hbody, hhead, List.append_assoc]⟩

/-- `getStats` gives a `uint32_t`. -/
theorem statsAnswer_framed {reqsLastSec : ℕ} (h : reqsLastSec < 2 ^ 32) :
    (statsAnswer reqsLastSec).Framed := by
  have hlen : (sizeText reqsLastSec).length ≤ 10 :=
    (KVConnection.sizeText_length_le (by decide) reqsLastSec).mpr (by omega)
  intro t
  rw [statsAnswer, List.append_assoc, responseSpec_header (by omega)
    (by rw [List.length_append]; omega), List.take_left, List.drop_left]

/-- A response whose lines give its length. -/
theorem responseSpec_lines {status : List UInt8} {lines : List (List UInt8)} {n : ℕ}
    (hstatus : CR ∉ status) (hlines : ∀ l ∈ lines, CR ∉ l ∧ l ≠ [])
    (hsize : lines.foldlM (fun size line => contentSizeOf line size) 0 = some n)
    (t : List UInt8) : responseSpec (linesText (status :: lines) ++ ([CR, LF] ++ t))
      = (bodySpec n t).bind fun body s => .done ⟨status, lines.flatten, body⟩ s := by
  have hline : lineSpec (linesText (status :: lines) ++ ([CR, LF] ++ t))
      = .done status (linesText lines ++ ([CR, LF] ++ t)) :=
    lineSpec_done_iff.mpr ⟨hstatus, linesText_cons ..⟩
  rw [responseSpec, hline, Res.bind_done, responseLinesSpec_lines t hlines hsize, Res.bind_done,
    List.nil_append]

def badStatus : List UInt8 := ascii "HTTP/1.1 503 Bad Request"

def badLines : List (List UInt8) :=
  [ascii "Date: Wed, 28 Oct 2009 15:24:11 GMT", ascii "Server: MyServer",
    ascii "Connection: close", ascii "Transfer-Encoding: chunked",
    lengthLine badRequestHtml.length, ascii "Content-Type: text/html; charset=iso-8859-1"]

def badText : List UInt8 := linesText (badStatus :: badLines) ++ ([CR, LF] ++ badRequestHtml)

theorem writeBadRequest_spec {out : Buffer} (h : out.Inv) :
    (writeBadRequest out).Inv ∧ (writeBadRequest out).content = out.content ++ badText := by
  obtain ⟨h₁, c₁⟩ := write_spec h (ascii "HTTP/1.1 503 Bad Request\r\n")
  obtain ⟨h₂, c₂⟩ := write_spec h₁ (ascii "Date: Wed, 28 Oct 2009 15:24:11 GMT\r\n")
  obtain ⟨h₃, c₃⟩ := write_spec h₂ (ascii "Server: MyServer\r\n")
  obtain ⟨h₄, c₄⟩ := write_spec h₃ (ascii "Connection: close\r\n")
  obtain ⟨h₅, c₅⟩ := write_spec h₄ (ascii "Transfer-Encoding: chunked\r\n")
  obtain ⟨h₆, c₆⟩ := write_spec h₅ (lengthText badRequestHtml.length)
  obtain ⟨h₇, c₇⟩ := write_spec h₆ (ascii "Content-Type: text/html; charset=iso-8859-1\r\n")
  obtain ⟨h₈, c₈⟩ := write_spec h₇ (ascii "\r\n")
  obtain ⟨h₉, c₉⟩ := write_spec h₈ badRequestHtml
  have htext : badText = ascii "HTTP/1.1 503 Bad Request\r\n"
      ++ (ascii "Date: Wed, 28 Oct 2009 15:24:11 GMT\r\n" ++ (ascii "Server: MyServer\r\n"
      ++ (ascii "Connection: close\r\n" ++ (ascii "Transfer-Encoding: chunked\r\n"
      ++ (lengthText badRequestHtml.length
      ++ (ascii "Content-Type: text/html; charset=iso-8859-1\r\n"
      ++ (ascii "\r\n" ++ badRequestHtml))))))) := by
    decide +kernel
  refine ⟨h₉, ?_⟩
  rw [writeBadRequest, c₉, c₈, c₇, c₆, c₅, c₄, c₃, c₂, c₁, htext]
  simp only [List.append_assoc]

def badRequestAnswer : Answer where
  write := writeBadRequest
  text := badText
  response := ⟨badStatus, badLines.flatten, badRequestHtml⟩
  spec := writeBadRequest_spec

theorem badRequestAnswer_framed : badRequestAnswer.Framed := by
  intro t
  have hsize : badLines.foldlM (fun size line => contentSizeOf line size) 0
      = some badRequestHtml.length := by
    decide +kernel
  change responseSpec (badText ++ t) = _
  rw [badText, List.append_assoc, List.append_assoc,
    responseSpec_lines (by decide) (by decide +kernel) hsize, bodySpec,
    if_neg (by rw [List.length_append]; omega), Res.bind_done, List.take_left, List.drop_left]
  rfl

/-! ## The server -/

/-- `out_`, with what `doWrite` has taken out of it. -/
structure Out where
  out : Buffer
  inv : out.Inv
  written : List UInt8
  /-- The number of answers so far. -/
  answers : ℕ

namespace Out

def new (heap : ℕ → ℕ → UInt8) : Out := ⟨Buffer.new heap, (new_inv heap).1, [], 0⟩

/-- All that was ever in `out_`. -/
def all (x : Out) : List UInt8 := x.written ++ x.out.content

def answer (x : Out) (a : Answer) : Out :=
  { x with out := a.write x.out, inv := (a.spec x.inv).1, answers := x.answers + 1 }

/-- `out_.consume` in `doWrite`. -/
def consume (x : Out) (n : ℕ) : Out :=
  { x with
    out := x.out.consume n
    inv := (consume_spec x.inv n).1
    written := x.written ++ x.out.content.take n }

@[simp] theorem all_answer (x : Out) (a : Answer) : (x.answer a).all = x.all ++ a.text := by
  rw [all, all, List.append_assoc, ← (a.spec x.inv).2]
  rfl

@[simp] theorem all_consume (x : Out) (n : ℕ) : (x.consume n).all = x.all := by
  rw [all, all, consume, (consume_spec x.inv n).2.1, List.append_assoc, List.take_append_drop]

end Out

section

variable (pin : ℕ → List UInt8 → Option Source) (reqsLastSec : ℕ → ℕ)

/-- The branch of `handleRequest` for an address, when it answers for the
`i`-th time: `pin i` and `reqsLastSec i` are what `pin` and `getStats`
return then. -/
def answerTo (i : ℕ) (address : List UInt8) : Answer :=
  if address = ascii "stats" then statsAnswer (reqsLastSec i)
  else
    let address := if address = [] then ascii "index.html" else address
    match pin i address with
    | some buf => fileAnswer buf
    | none => badRequestAnswer

/-- `HTTPServerConnection::handleRequest`. -/
def handleRequest (x : Out) (request : Request) : Out × Bool :=
  if request.address = ascii "quit" then (x, false)
  else (x.answer (answerTo pin reqsLastSec x.answers request.address), true)

/-- The server's sub-class; other threads consume what it writes. -/
def server : Reader (Server Out) ℕ where
  turn := serverTurn (handleRequest pin reqsLastSec)
  beside x n := { x with user := x.user.consume n }

/-- The answers to requests one behind the other, from the `i`-th time
on. -/
def answersTo (i : ℕ) : List Sent → List Answer
  | [] => []
  | r :: rs => answerTo pin reqsLastSec i r.address.bytes :: answersTo (i + 1) rs

/-- All that was ever in `out_`, and the number of answers. -/
def sent (x : Server Out) : List UInt8 × ℕ := (x.user.all, x.user.answers)

/-- `handleRequest` as far as the text goes. -/
def respond (x : List UInt8 × ℕ) (request : Request) : (List UInt8 × ℕ) × Bool :=
  if request.address = ascii "quit" then (x, false)
  else ((x.1 ++ (answerTo pin reqsLastSec x.2 request.address).text, x.2 + 1), true)

variable {pin reqsLastSec}

theorem server_serves :
    (server pin reqsLastSec).Serves requests sent (respond pin reqsLastSec) where
  empty := rfl
  turn {inb x} hb := by
    refine Follows.seen (fun y : Out => (y.all, y.answers)) (fun y request => ?_)
      (serverTurn_follows (handleRequest pin reqsLastSec) hb x)
    rw [respond, handleRequest]
    split
    · rfl
    · rw [Out.all_answer]
      rfl
  beside x n := by simp [server, sent, Out.consume, ← Out.all_consume x.user n]

theorem foldl_respond : ∀ (rs : List Sent) (bytes : List UInt8) (i : ℕ),
    (∀ r ∈ rs, r.address.bytes ≠ ascii "quit") →
    rs.foldl (fun x r => (respond pin reqsLastSec x r.received).1) (bytes, i)
      = (bytes ++ (answersTo pin reqsLastSec i rs).flatMap Answer.text, i + rs.length)
  | [], bytes, i, _ => by rw [answersTo, List.flatMap_nil, List.append_nil]; rfl
  | r :: rs, bytes, i, h => by
      have hr := h r List.mem_cons_self
      have hstep : (respond pin reqsLastSec (bytes, i) r.received).1
          = (bytes ++ (answerTo pin reqsLastSec i r.address.bytes).text, i + 1) := by
        rw [respond, if_neg (show r.received.address ≠ ascii "quit" from hr)]
        rfl
      have hrs : ∀ r' ∈ rs, r'.address.bytes ≠ ascii "quit" :=
        fun r' hr' => h r' (List.mem_cons_of_mem r hr')
      rw [List.foldl_cons, hstep, foldl_respond rs _ _ hrs, answersTo, List.flatMap_cons,
        List.append_assoc, List.length_cons]
      congr 1
      omega

end

/-! ## The client -/

/-- `response_cbs_`, and the responses handled, each with what was taken
from the queue for it. -/
structure Client where
  responseCbs : List ℕ
  handed : List (Option ℕ × Response)

/-- `HTTPClientConnection::handleResponse`. -/
def handleResponse (x : Client) (response : Response) : Client × Bool :=
  match x.responseCbs with
  | [] => ({ x with handed := x.handed ++ [(none, response)] }, true)
  | cb :: cbs => (⟨cbs, x.handed ++ [(some cb, response)]⟩, true)

/-- The client's sub-class; `asyncSend` adds callbacks. -/
def client : Reader Client ℕ where
  turn := clientTurn handleResponse
  beside x cb := { x with responseCbs := x.responseCbs ++ [cb] }

def got (x : Client) : List Response := x.handed.map Prod.snd

def collect (x : List Response) (response : Response) : List Response × Bool :=
  (x ++ [response], true)

theorem client_serves : client.Serves responses got collect where
  empty := by
    rfl
  turn {inb x} hb := by
    refine Follows.seen got (fun y response => ?_) (clientTurn_follows handleResponse hb x)
    rw [collect, handleResponse]
    split
    · simp [got]
    · simp [got]
  beside _ _ := rfl

theorem foldl_collect (rs xs : List Response) :
    rs.foldl (fun x r => (collect x r).1) xs = xs ++ rs := by
  induction rs generalizing xs with
  | nil => rw [List.foldl_nil, List.append_nil]
  | cons r rs ih =>
      rw [List.foldl_cons, ih, collect, List.append_assoc, List.singleton_append]

/-- The callbacks that were there first are taken from the queue first. -/
theorem client_callbacks {n : ℕ} {cbs : List ℕ} {ok : State Client → Act ℕ → Prop}
    {s : State Client} (h : (machine n client ⟨cbs, []⟩).ReachableBy ok s) :
    cbs.map some <+: s.user.handed.map Prod.fst ++ s.user.responseCbs.map some := by
  have hhandle : ∀ (y : Client) (response : Response),
      cbs.map some <+: y.handed.map Prod.fst ++ y.responseCbs.map some →
      cbs.map some <+: (handleResponse y response).1.handed.map Prod.fst
        ++ (handleResponse y response).1.responseCbs.map some := by
    intro y response hy
    rw [handleResponse]
    split
    · next hnil =>
        rw [hnil, List.map_nil, List.append_nil] at hy
        simp only [hnil, List.map_append, List.map_nil, List.append_nil]
        exact hy.trans (List.prefix_append _ _)
    · next cb rest hcons =>
        rw [hcons] at hy
        simpa using hy
  refine reachable_user (P := fun y : Client =>
    cbs.map some <+: y.handed.map Prod.fst ++ y.responseCbs.map some) ?_ ?_ ?_ h
  · exact List.prefix_rfl
  · intro inb y y' hy hturn
    rcases clientTurn_user handleResponse inb y hturn with rfl | ⟨response, rfl⟩
    · exact hy
    · exact hhandle y response hy
  · intro y cb hy
    refine hy.trans ⟨[some cb], ?_⟩
    simp [client]

/-! ## Both ends -/

section

variable {pin : ℕ → List UInt8 → Option Source} {reqsLastSec : ℕ → ℕ}

theorem answerTo_framed (hstats : ∀ i, reqsLastSec i < 2 ^ 32)
    (hone : ∀ i address buf, pin i address = some buf → OneChunk buf.buf) (i : ℕ)
    (address : List UInt8) : (answerTo pin reqsLastSec i address).Framed := by
  rw [answerTo]
  by_cases h : address = ascii "stats"
  · rw [if_pos h]
    exact statsAnswer_framed (hstats i)
  · rw [if_neg h]
    dsimp only
    generalize (if address = [] then ascii "index.html" else address) = name
    cases hpin : pin i name with
    | none => exact badRequestAnswer_framed
    | some buf => exact fileAnswer_framed (hone i name buf hpin)

/-- The server has answered the requests that have arrived. -/
theorem server_answers {n : ℕ} {request : Request} {heap : ℕ → ℕ → UInt8} {rs : List Sent}
    (hquit : ∀ r ∈ rs, r.address.bytes ≠ ascii "quit") {s : State (Server Out)}
    (h : (machine n (server pin reqsLastSec) ⟨request, Out.new heap⟩).ReachableBy
      (Whole requests) s) (hrest : s.AtRest n) (harrived : s.arrived = rs.flatMap Sent.wire) :
    s.user.user.all = (answersTo pin reqsLastSec 0 rs).flatMap Answer.text := by
  obtain ⟨stop, hserve, -⟩ := served_at_rest server_serves h hrest
  have hnew : sent ⟨request, Out.new heap⟩ = ([], 0) := by
    simp [sent, Out.new, Out.all, (new_inv heap).2]
  have hread : ∀ r ∈ rs, ∀ t, requests.read (Sent.wire r ++ t) = .done r.received t :=
    fun r _ t => requestSpec_word r.word t
  have hgo : ∀ r ∈ rs, ∀ x, (respond pin reqsLastSec x r.received).2 = true := by
    intro r hr x
    rw [respond, if_neg (show r.received.address ≠ ascii "quit" from hquit r hr)]
  have hnil : ∀ x, serve requests (respond pin reqsLastSec) x [] = ⟨x, [], .more .incomplete⟩ :=
    fun x => serve_more rfl
  have hvalues := serve_values hread hgo ([], 0) []
  rw [List.append_nil, foldl_respond rs [] 0 hquit, hnil] at hvalues
  rw [harrived, hnew, hvalues] at hserve
  have hstate := congrArg (fun r => r.state.1) hserve
  simp only [sent, List.nil_append] at hstate
  exact hstate.symm

theorem answersTo_framed (hstats : ∀ i, reqsLastSec i < 2 ^ 32)
    (hone : ∀ i address buf, pin i address = some buf → OneChunk buf.buf) : ∀ (rs : List Sent)
    (i : ℕ), ∀ a ∈ answersTo pin reqsLastSec i rs, a.Framed
  | [], _, _, ha => absurd ha List.not_mem_nil
  | r :: rs, i, a, ha => by
      rcases List.mem_cons.mp ha with rfl | ha
      · exact answerTo_framed hstats hone i _
      · exact answersTo_framed hstats hone rs (i + 1) a ha

theorem length_answersTo : ∀ (rs : List Sent) (i : ℕ),
    (answersTo pin reqsLastSec i rs).length = rs.length
  | [], _ => rfl
  | _ :: rs, i => congrArg (· + 1) (length_answersTo rs (i + 1))

/-- **Each callback gets the answer to its request.** The server has read
the requests and the client has read what the server wrote, in any pieces
and with any threads. -/
theorem exchange (hstats : ∀ i, reqsLastSec i < 2 ^ 32)
    (hone : ∀ i address buf, pin i address = some buf → OneChunk buf.buf)
    {m n : ℕ} {request : Request} {heap : ℕ → ℕ → UInt8} {rs : List Sent} {cbs : List ℕ}
    (hquit : ∀ r ∈ rs, r.address.bytes ≠ ascii "quit") (hcbs : cbs.length = rs.length)
    {s : State (Server Out)}
    (hs : (machine m (server pin reqsLastSec) ⟨request, Out.new heap⟩).ReachableBy
      (Whole requests) s) (hsrest : s.AtRest m) (hsarrived : s.arrived = rs.flatMap Sent.wire)
    {c : State Client}
    (hc : (machine n client ⟨cbs, []⟩).ReachableBy (Whole responses) c) (hcrest : c.AtRest n)
    (hcarrived : c.arrived = s.user.user.all) :
    c.user.handed = (cbs.map some).zip ((answersTo pin reqsLastSec 0 rs).map Answer.response)
      ∧ c.inb.content ++ c.sock = [] := by
  obtain ⟨stop, hserve, -⟩ := served_at_rest client_serves hc hcrest
  have hnil : ∀ x, serve responses collect x [] = ⟨x, [], .more .incomplete⟩ :=
    fun x => serve_more rfl
  have hread : ∀ a ∈ answersTo pin reqsLastSec 0 rs, ∀ t,
      responses.read (Answer.text a ++ t) = .done (Answer.response a) t :=
    answersTo_framed hstats hone rs 0
  have hvalues := serve_values (f := collect) hread (fun _ _ _ => rfl) [] []
  rw [List.append_nil, hnil, ← List.foldl_map (f := Answer.response)
    (g := fun x r => (collect x r).1), foldl_collect, List.nil_append] at hvalues
  rw [hcarrived, server_answers hquit hs hsrest hsarrived] at hserve
  rw [show got ⟨cbs, []⟩ = [] from rfl, hvalues] at hserve
  have hgot : c.user.handed.map Prod.snd = (answersTo pin reqsLastSec 0 rs).map Answer.response :=
    (congrArg Served.state hserve).symm
  have hrest : c.inb.content ++ c.sock = [] := (congrArg Served.rest hserve).symm
  have hlen := congrArg List.length hgot
  rw [List.length_map, List.length_map, length_answersTo, ← hcbs] at hlen
  have hfirst : c.user.handed.map Prod.fst = cbs.map some := by
    have hpre := List.prefix_of_prefix_length_le (client_callbacks hc)
      (List.prefix_append (c.user.handed.map Prod.fst) (c.user.responseCbs.map some))
      (by rw [List.length_map, List.length_map, hlen])
    exact (hpre.eq_of_length (by rw [List.length_map, List.length_map, hlen])).symm
  exact ⟨List.zip_of_prod hfirst hgot, hrest⟩

end

/-! ## A run of both -/

/-- The file `A`. -/
def oneByte : Source :=
  ⟨Buffer.run (fun _ _ => 0) [.write [65]], HttpConnection.run_reached _ _, by decide⟩

/-- A server that has every file. -/
def oneByteServer : Reader (Server Out) ℕ := server (fun _ _ => some oneByte) fun _ => 0

/-- A request for the statistics. -/
def statsSent : Sent := { shortSent with address := ⟨ascii "stats", by decide +kernel⟩ }

/-- Thread 1 reads three bytes, and then `rest`, which arrives while it is
in `readDone`. The poll thread reports this, and another thread takes out
some of `out_` or adds a callback, before it is done, after `turns` more
turns; so thread 0 reads again while thread 1 is on its way out. -/
def twoReaders (rest : List UInt8) (turns : ℕ) : List (Act ℕ) :=
  [.refs (.start 0), .poll false, .refs (.tick 0), .refs (.tick 0), .refs (.runRead 1),
    .read 1 (.data 3), .turn 1, .arrive rest, .read 1 (.data 1000), .poll true, .turn 1, .beside 10]
  ++ List.replicate turns (.turn 1)
  ++ [.read 1 .again, .refs (.tick 1), .refs (.tick 1), .refs (.tick 1), .refs (.runRead 0),
    .read 0 .again, .refs (.tick 0), .refs (.tick 0), .refs (.tick 0), .refs (.tick 1)]

/-- Callback 7 gets the file, and callback 8 the statistics. -/
theorem twoRequests_exchanged : ∃ s c, s.arrived = shortSent.wire ++ statsSent.wire
    ∧ c.arrived = s.user.user.all
    ∧ (machine 2 oneByteServer ⟨⟨[], [], []⟩, Out.new fun _ _ => 0⟩).ReachableBy (Whole requests) s
    ∧ (machine 2 client ⟨[7, 8], []⟩).ReachableBy (Whole responses) c
    ∧ c.user.handed
      = [(some 7, (fileAnswer oneByte).response), (some 8, (statsAnswer 0).response)] := by
  have hserver : ((machine 2 oneByteServer ⟨⟨[], [], []⟩, Out.new fun _ _ => 0⟩).exec
      (fun s a => Plainly s a = true) (fresh ⟨⟨[], [], []⟩, Out.new fun _ _ => 0⟩ shortSent.wire)
      (twoReaders statsSent.wire 2)).any (fun s => decide (s.AtRest 2
        ∧ s.arrived = shortSent.wire ++ statsSent.wire
        ∧ s.user.user.all = fileText oneByte.buf ++ (statsAnswer 0).text)) = true := by
    decide +kernel
  have hclient : ((machine 2 client ⟨[7, 8], []⟩).exec (fun s a => Plainly s a = true)
      (fresh ⟨[7, 8], []⟩ (fileText oneByte.buf)) (twoReaders (statsAnswer 0).text 1)).any
        (fun c => decide (c.AtRest 2
          ∧ c.arrived = fileText oneByte.buf ++ (statsAnswer 0).text)) = true := by
    decide +kernel
  obtain ⟨s, hs, hrest⟩ := (Lts.ReachableBy.init (fresh_initial _ _)).exec_any hserver
  obtain ⟨c, hc, hcrest⟩ := (Lts.ReachableBy.init (fresh_initial _ _)).exec_any hclient
  obtain ⟨hsrest, hsarrived, hall⟩ := of_decide_eq_true hrest
  obtain ⟨hcrest, hcarrived⟩ := of_decide_eq_true hcrest
  have hs := hs.mono fun s a h => (whole_of_plainly h).1
  have hc := hc.mono fun s a h => (whole_of_plainly h).2
  have hback := hcarrived.trans hall.symm
  have hone : ∀ (i : ℕ) (address : List UInt8) (buf : Source), some oneByte = some buf →
      OneChunk buf.buf := by
    rintro i address buf hbuf
    obtain rfl := Option.some.inj hbuf
    show ∀ n ∈ oneByte.buf.sizes.tail, n = 0
    decide
  have hquit : ∀ r ∈ [shortSent, statsSent], r.address.bytes ≠ ascii "quit" := by decide
  have hwire : s.arrived = [shortSent, statsSent].flatMap Sent.wire := hsarrived
  exact ⟨s, c, hsarrived, hback, hs, hc, (exchange (fun _ => by decide) hone hquit rfl hs hsrest
    hwire hc hcrest hback).1⟩

end HttpExchange

end HttpServer
