import HttpServer.HttpClient
import HttpServer.ParserWord

/-!
# Requests as they are sent

`Request::toBuffer` (http_request.cpp) writes a request as a client
gives it, with the slash at the front of the address; the parser takes
the slash as a byte of its own and leaves it out of the address. A
request whose strings no space, line end or NUL cuts short (`Sent`) is a
request word without header lines, so that what `toBuffer` appends is
read as this request, in every buffer and with anything behind it, and
the loop of `HTTPServerConnection::readDone` takes requests written back
to back one by one.
-/

namespace HttpServer

namespace Parser

open Buffer Incremental

/-! ## Writing -/

/-- `Request::toBuffer`. -/
def toBuffer (r : Request) (out : Buffer) : Buffer :=
  (HttpClient.toBuffer r).foldl Buffer.write out

/-- A string without a space, a line end or a NUL. -/
structure Word where
  bytes : List UInt8
  free : ∀ c ∈ bytes, c ≠ SP ∧ c ≠ CR ∧ c ≠ 0

/-- A request as a client sends it: its address is `address` after a
slash. -/
structure Sent where
  method : Word
  address : Word
  version : Word

namespace Word

def field (w : Word) : Field where
  bytes := w.bytes
  free := fun c hc => ⟨(w.free c hc).1, (w.free c hc).2.1⟩

/-- `c_str()` shows all of it. -/
theorem cStr_eq (w : Word) : HttpClient.cStr w.bytes = w.bytes := by
  unfold HttpClient.cStr
  rw [List.takeWhile_eq_self_iff]
  exact fun c hc => decide_eq_true (w.free c hc).2.2

theorem cStr_slash (w : Word) : HttpClient.cStr (SLASH :: w.bytes) = SLASH :: w.bytes := by
  unfold HttpClient.cStr
  rw [List.takeWhile_eq_self_iff]
  refine List.forall_mem_cons.mpr ⟨by decide, fun c hc => decide_eq_true (w.free c hc).2.2⟩

end Word

namespace Sent

/-- The request the client holds. -/
def request (r : Sent) : Request := ⟨r.method.bytes, SLASH :: r.address.bytes, r.version.bytes⟩

/-- The request the server reads. -/
def received (r : Sent) : Request := ⟨r.method.bytes, r.address.bytes, r.version.bytes⟩

def word (r : Sent) : RequestWord where
  method := r.method.field
  address := r.address.field
  version := r.version.field
  lines := []

/-- The bytes `toBuffer` writes. -/
def wire (r : Sent) : List UInt8 := r.word.text

theorem wire_eq (r : Sent) : (HttpClient.toBuffer r.request).flatten = r.wire := by
  have hsp : HttpConnection.ascii " " = [SP] := by decide
  have hend : HttpConnection.ascii "\r\n\r\n" = [CR, LF, CR, LF] := by decide
  simp [HttpClient.toBuffer, request, r.method.cStr_eq, r.address.cStr_slash, r.version.cStr_eq,
    hsp, hend, wire, RequestWord.text, word, Word.field, linesText]

end Sent

theorem foldl_write : ∀ (pieces : List (List UInt8)) {b : Buffer}, b.Inv →
    (pieces.foldl Buffer.write b).Inv ∧
      (pieces.foldl Buffer.write b).content = b.content ++ pieces.flatten
  | [], _, h => ⟨h, (List.append_nil _).symm⟩
  | piece :: pieces, b, h => by
      obtain ⟨hinv, hcont⟩ := write_spec h piece
      obtain ⟨hinv', hcont'⟩ := foldl_write pieces hinv
      refine ⟨hinv', ?_⟩
      rw [List.foldl_cons, hcont', hcont, List.flatten_cons, List.append_assoc]

/-- Requests written one after the other. -/
def sendAll (rs : List Sent) (out : Buffer) : Buffer :=
  rs.foldl (fun out r => toBuffer r.request out) out

theorem sendAll_singleton (r : Sent) (out : Buffer) :
    sendAll [r] out = toBuffer r.request out := by
  rw [sendAll, List.foldl_cons, List.foldl_nil]

theorem sendAll_content : ∀ (rs : List Sent) {out : Buffer}, out.Inv →
    (sendAll rs out).content = out.content ++ (rs.map Sent.wire).flatten
  | [], _, _ => (List.append_nil _).symm
  | r :: rs, out, h => by
      obtain ⟨hinv, hcont⟩ := foldl_write (HttpClient.toBuffer r.request) h
      have hrest : (sendAll rs (toBuffer r.request out)).content = _ := sendAll_content rs hinv
      rw [r.wire_eq] at hcont
      rw [List.map_cons, List.flatten_cons, ← List.append_assoc, ← hcont]
      exact hrest

/-! ## Reading -/

/-- Up to `m` rounds of the loop of `HTTPServerConnection::readDone`: what
the parser answers and the request it leaves in `request_`, and `in_`
behind them. The loop ends when the parser does not return 0. -/
def requestsRead : ℕ → Request → Buffer → List (Outcome × Request) × Buffer
  | 0, _, inb => ([], inb)
  | m + 1, previous, inb =>
      let p := requestInto inb previous
      if p.1 = .ret 0 then
        let rest := requestsRead m p.2.1 (inb.consume p.2.2.bytesRead)
        ((p.1, p.2.1) :: rest.1, rest.2)
      else ([(p.1, p.2.1)], inb)

theorem requestInto_wire {inb : Buffer} (h : Iterator.Readable inb) (r : Sent) (t : List UInt8)
    (hc : inb.content = r.wire ++ t) (previous : Request) :
    (requestInto inb previous).1 = .ret 0 ∧ (requestInto inb previous).2.1 = r.received
      ∧ (requestInto inb previous).2.2.bytesRead = r.wire.length :=
  requestInto_word h r.word t hc previous

/-- One round takes one request off the front. -/
theorem requestsRead_wires : ∀ (rs : List Sent) {inb : Buffer} (t : List UInt8)
    (previous : Request), Iterator.Readable inb →
    inb.content = (rs.map Sent.wire).flatten ++ t →
    (requestsRead rs.length previous inb).1 = rs.map (fun r => (.ret 0, r.received))
      ∧ (requestsRead rs.length previous inb).2.content = t
  | [], _, _, _, _, hc => ⟨rfl, hc⟩
  | r :: rs, inb, t, previous, h, hc => by
      rw [List.map_cons, List.flatten_cons, List.append_assoc] at hc
      obtain ⟨hret, hreq, hread⟩ := requestInto_wire h r _ hc previous
      obtain ⟨hinv, hrest, -⟩ := consume_spec h.inv r.wire.length
      rw [hc, List.drop_left] at hrest
      have hround := requestsRead_wires rs t r.received
        ⟨hinv, consume_live h.inv h.live r.wire.length⟩ hrest
      simp only [List.length_cons, requestsRead, hret, if_true, hreq, hread, List.map_cons, hround,
        and_self]

/-! ## Sent and understood -/

/-- The parser reads `r` off the front of the buffer, in `n` bytes. -/
def Understood (r : Sent) (n : ℕ) (inb : Buffer) : Prop :=
  ∀ previous, (requestInto inb previous).1 = .ret 0 ∧ (requestInto inb previous).2.1 = r.received
    ∧ (requestInto inb previous).2.2.bytesRead = n

/-- Buffers that are filled by `write` alone can be read at any time. -/
theorem readable_writes (heap : ℕ → ℕ → UInt8) {ops : List Op} (hops : ∀ op ∈ ops, op.kind ≠ .fill)
    (pieces : List (List UInt8)) (n : ℕ) :
    Iterator.Readable ((pieces.foldl Buffer.write (run heap ops)).consume n) := by
  have hrun : (pieces.foldl Buffer.write (run heap ops)).consume n
      = run heap (ops ++ (pieces.map Op.write ++ [.consume n])) := by
    rw [run_append, List.foldl_append, List.foldl_map]
    rfl
  rw [hrun]
  refine ⟨run_inv heap _, run_live heap ⟨.fill, fun op hop => ?_⟩⟩
  rcases List.mem_append.mp hop with hop | hop
  · exact hops op hop
  · rcases List.mem_append.mp hop with hop | hop
    · obtain ⟨piece, -, rfl⟩ := List.mem_map.mp hop
      exact Op.Kind.noConfusion
    · rw [List.mem_singleton.mp hop]
      exact Op.Kind.noConfusion

theorem sendAll_pieces (rs : List Sent) (out : Buffer) :
    sendAll rs out
      = ((rs.map fun r => HttpClient.toBuffer r.request).flatten).foldl Buffer.write out := by
  rw [List.foldl_flatten, List.foldl_map]
  rfl

theorem flatten_pieces : ∀ rs : List Sent,
    ((rs.map fun r => HttpClient.toBuffer r.request).flatten).flatten
      = (rs.map Sent.wire).flatten
  | [] => rfl
  | r :: rs => by
      rw [List.map_cons, List.flatten_cons, List.flatten_append, r.wire_eq, flatten_pieces rs,
        List.map_cons, List.flatten_cons]

/-- What requests add to a buffer, with more written behind them, can be
read when what was there before has been consumed. -/
theorem sendAll_readable (heap : ℕ → ℕ → UInt8) {ops : List Op}
    (hops : ∀ op ∈ ops, op.kind ≠ .fill) (rs : List Sent) (more : List (List UInt8)) :
    Iterator.Readable ((more.foldl Buffer.write (sendAll rs (run heap ops))).consume
        (run heap ops).content.length)
      ∧ ((more.foldl Buffer.write (sendAll rs (run heap ops))).consume
          (run heap ops).content.length).content = (rs.map Sent.wire).flatten ++ more.flatten := by
  rw [sendAll_pieces, ← List.foldl_append]
  refine ⟨readable_writes heap hops _ _, ?_⟩
  obtain ⟨hinv, hcont⟩ := foldl_write
    ((rs.map fun r => HttpClient.toBuffer r.request).flatten ++ more) (run_inv heap ops)
  rw [(consume_spec hinv _).2.1, hcont, List.drop_left, List.flatten_append, flatten_pieces]

/-- A sent request is understood, and so are requests written back to
back. -/
theorem requests_understood (heap : ℕ → ℕ → UInt8) (ops : List Op)
    (hops : ∀ op ∈ ops, op.kind ≠ .fill) :
    (∀ r : Sent, ∃ s, (toBuffer r.request (run heap ops)).content = (run heap ops).content ++ s ∧
        (∀ inb t, Iterator.Readable inb → inb.content = s ++ t → Understood r s.length inb) ∧
        ∀ more : List (List UInt8), Understood r s.length ((more.foldl Buffer.write
          (toBuffer r.request (run heap ops))).consume (run heap ops).content.length)) ∧
      ∀ (rs : List Sent) (more : List (List UInt8)) (previous : Request),
        let inb := (more.foldl Buffer.write (sendAll rs (run heap ops))).consume
          (run heap ops).content.length
        (requestsRead rs.length previous inb).1 = rs.map (fun r => (.ret 0, r.received))
          ∧ (requestsRead rs.length previous inb).2.content = more.flatten := by
  constructor
  · intro r
    have hread : ∀ inb t, Iterator.Readable inb → inb.content = r.wire ++ t →
        Understood r r.wire.length inb :=
      fun inb t h hc previous => requestInto_wire h r t hc previous
    refine ⟨r.wire, ?_, hread, fun more => ?_⟩
    · have hcont := (foldl_write (HttpClient.toBuffer r.request) (run_inv heap ops)).2
      rwa [r.wire_eq] at hcont
    · obtain ⟨hreadable, hcont⟩ := sendAll_readable heap hops [r] more
      rw [sendAll_singleton] at hreadable hcont
      rw [List.map_singleton, List.flatten_singleton] at hcont
      exact hread _ more.flatten hreadable hcont
  · intro rs more previous
    obtain ⟨hreadable, hcont⟩ := sendAll_readable heap hops rs more
    exact requestsRead_wires rs more.flatten previous hreadable hcont

/-- `G /x 1`. -/
def shortSent : Sent where
  method := ⟨[71], List.forall_mem_singleton.mpr (by decide)⟩
  address := ⟨[120], List.forall_mem_singleton.mpr (by decide)⟩
  version := ⟨[49], List.forall_mem_singleton.mpr (by decide)⟩

/-- Two requests behind a byte that is still there, and a third one begun. -/
theorem shortSent_twice :
    (requestsRead 2 ⟨[], [], []⟩ (([[71]].foldl Buffer.write (sendAll [shortSent, shortSent]
      (run (fun _ _ => 0) [.write [1, 2], .consume 1]))).consume
        (run (fun _ _ => 0) [.write [1, 2], .consume 1]).content.length)).1
      = [(.ret 0, shortSent.received), (.ret 0, shortSent.received)] :=
  ((requests_understood (fun _ _ => 0) [.write [1, 2], .consume 1] (by decide)).2
    [shortSent, shortSent] [[71]] ⟨[], [], []⟩).1

end Parser

end HttpServer
