import Mathlib.Data.Nat.Digits.Defs
import HttpServer.ParserLength

/-!
# HTTP connections

What `HTTPServerConnection::handleRequest` writes to `out_` and how
`HTTPClientConnection::readDone` takes responses out of `in_`
(http_connection.cpp).

The length in the header of a response is the `readSize()` of the file's
buffer, the bytes in its first chunk; the body is the whole buffer. The
client finds the end of a response by its header, so it reads back what
was written exactly when the two are the same (`responses_framed_iff`).
-/

namespace HttpServer

namespace HttpConnection

open Buffer HttpServer.Parser Incremental

/-! ## Writing responses -/

/-- The bytes of a string literal. -/
def ascii (s : String) : List UInt8 := s.toList.map fun c => UInt8.ofNat c.toNat

/-- `os << n` for a `size_t`. -/
def sizeText (n : ℕ) : List UInt8 :=
  if n = 0 then [48] else ((Nat.digits 10 n).map fun d => UInt8.ofNat (48 + d)).reverse

/-- `"Content-Length: " << n << "\r\n"`. -/
def lengthText (n : ℕ) : List UInt8 := ascii "Content-Length: " ++ sizeText n ++ ascii "\r\n"

/-- The status line and the header of the two branches that answer 200. -/
def writeHeader (out : Buffer) (contentLength : ℕ) : Buffer :=
  let out := out.write (ascii "HTTP/1.1 200 OK\r\n")
  let out := out.write (ascii "Date: Wed, 28 Oct 2009 15:24:11 GMT\r\n")
  let out := out.write (ascii "Server: Lab02a\r\n")
  let out := out.write (ascii "Accept-Ranges: bytes\r\n")
  let out := out.write (lengthText contentLength)
  let out := out.write (ascii "Content-Type: text/html\r\n")
  out.write (ascii "\r\n")

/-- The answer to a request for a file in the cache. -/
def writeFile (out buf : Buffer) : Buffer := (writeHeader out buf.readSize).copyFrom buf

/-- The answer to a request for the statistics. -/
def writeStats (out : Buffer) (reqsLastSec : ℕ) : Buffer :=
  (writeHeader out (sizeText reqsLastSec).length).write (sizeText reqsLastSec)

def badRequestHtml : List UInt8 :=
  ascii "<HTML>\r\n" ++ ascii "<HEAD><TITLE>400 Bad Request</TITLE></HEAD>\r\n"
    ++ ascii "<BODY>Bad Request</BODY>\r\n" ++ ascii "</HTML>\r\n" ++ ascii "\r\n"

/-- The answer to a request whose file could not be pinned. -/
def writeBadRequest (out : Buffer) : Buffer :=
  let out := out.write (ascii "HTTP/1.1 503 Bad Request\r\n")
  let out := out.write (ascii "Date: Wed, 28 Oct 2009 15:24:11 GMT\r\n")
  let out := out.write (ascii "Server: MyServer\r\n")
  let out := out.write (ascii "Connection: close\r\n")
  let out := out.write (ascii "Transfer-Encoding: chunked\r\n")
  let out := out.write (lengthText badRequestHtml.length)
  let out := out.write (ascii "Content-Type: text/html; charset=iso-8859-1\r\n")
  let out := out.write (ascii "\r\n")
  out.write badRequestHtml

/-! ## Reading responses -/

/-- The loop of `HTTPClientConnection::readDone`: what it returns, the
responses it has passed to `handleResponse` and `in_`. Nothing is
returned when the parser does not return. -/
def readLoop : ℕ → Buffer → Option Bool × List Response × Buffer
  | 0, inb => (none, [], inb)
  | n + 1, inb =>
      match responseOf inb with
      | (.ret rc, response, it) =>
          if rc < 0 then (some false, [], inb)
          else if rc > 0 then (some true, [], inb)
          else
            let inb := inb.consume it.bytesRead
            -- `it` is from before the bytes were consumed
            if it.eob inb then (some true, [response], inb)
            else
              match readLoop n inb with
              | (r, responses, inb) => (r, response :: responses, inb)
      | (_, _, _) => (none, [], inb)

/-- Every round but the last takes bytes out of `in_`. -/
def readDone (inb : Buffer) : Option Bool × List Response × Buffer :=
  readLoop (inb.byteCount + 1) inb

/-! ## Numbers in the header -/

theorem sizeText_ne_nil (n : ℕ) : sizeText n ≠ [] := by
  by_cases hn : n = 0
  · rw [sizeText, if_pos hn]
    decide
  · rw [sizeText, if_neg hn]
    simp [Nat.digits_ne_nil_iff_ne_zero.mpr hn]

theorem sizeText_digits {n : ℕ} {c : UInt8} (hc : c ∈ sizeText n) :
    ∃ d < 10, c = UInt8.ofNat (48 + d) := by
  by_cases hn : n = 0
  · rw [sizeText, if_pos hn, List.mem_singleton] at hc
    exact ⟨0, by decide, hc⟩
  · rw [sizeText, if_neg hn, List.mem_reverse, List.mem_map] at hc
    obtain ⟨d, hd, rfl⟩ := hc
    exact ⟨d, Nat.digits_lt_base (by decide) hd, rfl⟩

/-- The ten digits. -/
theorem digit_byte : ∀ d < 10, (UInt8.ofNat (48 + d)).toNat = 48 + d
    ∧ isDigit (UInt8.ofNat (48 + d)) = true := by
  decide

theorem foldr_digits {ds : List ℕ} (hds : ∀ d ∈ ds, d < 10) :
    ds.foldr (fun d m => 10 * m + ((UInt8.ofNat (48 + d)).toNat - 48)) 0 = Nat.ofDigits 10 ds := by
  induction ds with
  | nil => rfl
  | cons d ds ih =>
      have hd := (digit_byte d (hds d List.mem_cons_self)).1
      rw [List.foldr_cons, ih fun e he => hds e (List.mem_cons_of_mem d he), Nat.ofDigits_cons, hd]
      omega

theorem decimal_sizeText (n : ℕ) : decimal (sizeText n) = n := by
  by_cases hn : n = 0
  · subst hn
    decide
  · rw [sizeText, if_neg hn, decimal, List.foldl_reverse, List.foldr_map,
      foldr_digits fun d hd => Nat.digits_lt_base (by decide) hd, Nat.ofDigits_digits]

/-- A number is read back from its text. -/
theorem extractSize_sizeText {n : ℕ} (hn : n < 2 ^ 64) (size : ℕ) :
    extractSize (sizeText n) size = n := by
  have hdigits : ∀ c ∈ sizeText n, isDigit c = true := by
    intro c hc
    obtain ⟨d, hd, rfl⟩ := sizeText_digits hc
    exact (digit_byte d hd).2
  have hdec := decimal_sizeText n
  have hne := sizeText_ne_nil n
  generalize sizeText n = ds at hdigits hdec hne ⊢
  cases ds with
  | nil => exact absurd rfl hne
  | cons d ds => rw [extractSize_digits hdigits (by omega), hdec]

/-! ## The header -/

def statusLine : List UInt8 := ascii "HTTP/1.1 200 OK"

def lengthLine (n : ℕ) : List UInt8 := ascii "Content-Length: " ++ sizeText n

/-- The lines of the header behind the status line. -/
def headerLines (n : ℕ) : List (List UInt8) :=
  [ascii "Date: Wed, 28 Oct 2009 15:24:11 GMT", ascii "Server: Lab02a",
    ascii "Accept-Ranges: bytes", lengthLine n, ascii "Content-Type: text/html"]

def headerText (n : ℕ) : List UInt8 := linesText (statusLine :: headerLines n) ++ [CR, LF]

theorem writeHeader_spec {out : Buffer} (h : out.Inv) (n : ℕ) :
    (writeHeader out n).Inv ∧ (writeHeader out n).content = out.content ++ headerText n := by
  obtain ⟨h₁, c₁⟩ := write_spec h (ascii "HTTP/1.1 200 OK\r\n")
  obtain ⟨h₂, c₂⟩ := write_spec h₁ (ascii "Date: Wed, 28 Oct 2009 15:24:11 GMT\r\n")
  obtain ⟨h₃, c₃⟩ := write_spec h₂ (ascii "Server: Lab02a\r\n")
  obtain ⟨h₄, c₄⟩ := write_spec h₃ (ascii "Accept-Ranges: bytes\r\n")
  obtain ⟨h₅, c₅⟩ := write_spec h₄ (lengthText n)
  obtain ⟨h₆, c₆⟩ := write_spec h₅ (ascii "Content-Type: text/html\r\n")
  obtain ⟨h₇, c₇⟩ := write_spec h₆ (ascii "\r\n")
  refine ⟨h₇, ?_⟩
  have htext : headerText n = ascii "HTTP/1.1 200 OK\r\n"
      ++ (ascii "Date: Wed, 28 Oct 2009 15:24:11 GMT\r\n" ++ (ascii "Server: Lab02a\r\n"
      ++ (ascii "Accept-Ranges: bytes\r\n" ++ (lengthText n
      ++ (ascii "Content-Type: text/html\r\n" ++ ascii "\r\n"))))) := by
    simp [headerText, linesText, statusLine, headerLines, lengthLine, lengthText, ascii, CR, LF]
  rw [writeHeader, c₇, c₆, c₅, c₄, c₃, c₂, c₁, htext]
  simp only [List.append_assoc]

theorem not_mem_sizeText (n : ℕ) : CR ∉ sizeText n := by
  intro hc
  obtain ⟨d, hd, heq⟩ := sizeText_digits hc
  exact (digit_ne (digit_byte d hd).2).2.2.2.1 heq.symm

theorem headerLines_ok (n : ℕ) : ∀ l ∈ headerLines n, CR ∉ l ∧ l ≠ [] := by
  have hlen : CR ∉ lengthLine n ∧ lengthLine n ≠ [] := by
    rw [lengthLine, List.mem_append, not_or]
    exact ⟨⟨by decide, not_mem_sizeText n⟩, by simp [sizeText_ne_nil]⟩
  intro l hl
  simp only [headerLines, List.mem_cons, List.not_mem_nil, or_false] at hl
  rcases hl with rfl | rfl | rfl | rfl | rfl
  · decide
  · decide
  · decide
  · exact hlen
  · decide

theorem contentSizeOf_lengthLine {n : ℕ} (hn : n < 2 ^ 64) (size : ℕ) :
    contentSizeOf (lengthLine n) size = some n := by
  have hpos := List.length_pos_iff.mpr (sizeText_ne_nil n)
  have hlen : (ascii "Content-Length: ").length = sizeofLengthString := by decide
  have hcontains : contains lengthString (lengthLine n) = true := by
    have htext : lengthLine n = lengthString ++ 32 :: sizeText n := by
      rw [lengthLine, show ascii "Content-Length: " = lengthString ++ [32] by decide,
        List.append_assoc, List.singleton_append]
    rw [htext]
    simp [lengthString, contains]
  rw [contentSizeOf, if_pos hcontains, if_pos (by rw [lengthLine, List.length_append]; omega),
    lengthLine, ← hlen, List.drop_left, extractSize_sizeText hn]

theorem headerLines_size {n : ℕ} (hn : n < 2 ^ 64) :
    (headerLines n).foldlM (fun size line => contentSizeOf line size) 0 = some n := by
  have h₁ : contentSizeOf (ascii "Date: Wed, 28 Oct 2009 15:24:11 GMT") 0 = some 0 := by decide
  have h₂ : contentSizeOf (ascii "Server: Lab02a") 0 = some 0 := by decide
  have h₃ : contentSizeOf (ascii "Accept-Ranges: bytes") 0 = some 0 := by decide
  have h₄ : contentSizeOf (ascii "Content-Type: text/html") n = some n :=
    if_neg (show ¬contains lengthString (ascii "Content-Type: text/html") = true by decide)
  simp only [headerLines, List.foldlM_cons, List.foldlM_nil, h₁, h₂, h₃, h₄,
    contentSizeOf_lengthLine hn, Option.bind_eq_bind, Option.bind_some, Option.pure_def]

/-- Behind the header the client waits for as many bytes as it says. -/
theorem responseSpec_headerText {n : ℕ} (hn : n < 2 ^ 64) (t : List UInt8) :
    responseSpec (headerText n ++ t) = (bodySpec n t).bind fun body s =>
      .done ⟨statusLine, (headerLines n).flatten, body⟩ s := by
  have hstatus : lineSpec (headerText n ++ t)
      = .done statusLine (linesText (headerLines n) ++ ([CR, LF] ++ t)) := by
    refine lineSpec_done_iff.mpr ⟨by decide, ?_⟩
    rw [headerText, List.append_assoc, linesText_cons]
  rw [responseSpec, hstatus, Res.bind_done,
    responseLinesSpec_lines t (headerLines_ok n) (headerLines_size hn), Res.bind_done,
    List.nil_append]

/-- The client takes as many bytes as the header says. -/
theorem responseSpec_header {n : ℕ} (hn : n < 2 ^ 64) {t : List UInt8} (ht : n ≤ t.length) :
    responseSpec (headerText n ++ t)
      = .done ⟨statusLine, (headerLines n).flatten, t.take n⟩ (t.drop n) := by
  rw [responseSpec_headerText hn, bodySpec, if_neg (Nat.not_lt.mpr ht), Res.bind_done]

theorem responseSpec_header_short {n : ℕ} (hn : n < 2 ^ 64) {t : List UInt8}
    (ht : t.length < n) : responseSpec (headerText n ++ t) = .more .incomplete := by
  rw [responseSpec_headerText hn, bodySpec, if_pos ht, Res.bind_more]

/-! ## Taking responses out of a buffer -/

/-- The bytes that `writeFile` appends. -/
def fileText (buf : Buffer) : List UInt8 := headerText buf.readSize ++ buf.content

theorem writeFile_spec {out : Buffer} (h : out.Inv) (buf : Source) :
    (writeFile out buf.buf).Inv
      ∧ (writeFile out buf.buf).content = out.content ++ fileText buf.buf := by
  obtain ⟨hinv, hhead⟩ := writeHeader_spec h buf.buf.readSize
  obtain ⟨hinv', hcopy, -⟩ := copyFrom_spec hinv buf.reached.inv buf.unread
  refine ⟨hinv', ?_⟩
  rw [writeFile, hcopy, hhead, fileText, List.append_assoc]

theorem readSize_lt {b : Buffer} (h : b.Wf) : b.readSize < 2 ^ 64 := by
  have hle := sizeAt_le h b.rpos.idx
  have hblock : BlockSize < 2 ^ 64 := by decide
  rw [readSize]
  omega

theorem responseSpec_fileText (buf : Source) (t : List UInt8) :
    responseSpec (fileText buf.buf ++ t)
      = .done ⟨statusLine, (headerLines buf.buf.readSize).flatten,
            buf.buf.content.take buf.buf.readSize⟩
          (buf.buf.content.drop buf.buf.readSize ++ t) := by
  have hwf := buf.reached.inv.wf
  have hle := readSize_le hwf
  rw [fileText, List.append_assoc, responseSpec_header (readSize_lt hwf)
    (by rw [List.length_append]; omega), List.take_append_of_le_length hle,
    List.drop_append_of_le_length hle]

/-- An iterator in front of a byte is at the end of no buffer: it has
positions left in its chunk. -/
theorem eob_of_ne_nil {b : Buffer} {it : Iterator} {rest : List UInt8} (h : Iterator.At b it rest)
    (hne : rest ≠ []) (b' : Buffer) : it.eob b' = false := by
  have hb := h.budget
  unfold Iterator.getBudget at hb
  rcases h.pos_cases with ⟨x, xs, -, hlt, -⟩ | ⟨hnil, -⟩
  · rw [Iterator.eob, if_pos (show it.budget ≠ 0 by omega)]
  · exact absurd hnil hne

/-- The parser on a buffer that starts with a response. -/
theorem responseOf_done {b : Buffer} (hb : Iterator.Readable b) {r : Response} {rest : List UInt8}
    (h : responseSpec b.content = .done r rest) :
    ∃ it, responseOf b = (.ret 0, r, it) ∧ it.bytesRead = b.content.length - rest.length
      ∧ Iterator.At b it rest := by
  obtain ⟨e, it, t, r', hc, hd, hat, -, -⟩ := responseBody_sim (iterator_sim hb) (start_related hb)
  have hf : Follows (Iterator.past b) b.content.length _ (responseSpec b.content) :=
    responseBody_spec (Nat.le_refl _)
  rw [h] at hf
  obtain ⟨hf, -⟩ := hf
  obtain ⟨rfl, rfl, rfl⟩ : e = none ∧ t = ⟨rest, Iterator.past b, b.content.length⟩ ∧ r' = r := by
    simpa using hd.symm.trans hf
  have hread := hat.read
  refine ⟨it, by simp only [responseOf, parseResponse, hc, catchExn], ?_, hat⟩
  simp only at hread
  omega

/-- One round of the loop of `readDone` on a response, with what follows
it in `in_`. The test for the end of the data can fail behind the last
response; then there is another round. -/
theorem readLoop_done {inb : Buffer} (hb : Iterator.Readable inb) {r : Response}
    {text rest : List UInt8} (htext : inb.content = text ++ rest)
    (h : responseSpec inb.content = .done r rest) (n : ℕ) :
    ∃ inb', Iterator.Readable inb' ∧ inb'.content = rest
      ∧ (readLoop (n + 1) inb
            = ((readLoop n inb').1, r :: (readLoop n inb').2.1, (readLoop n inb').2.2)
          ∨ rest = [] ∧ readLoop (n + 1) inb = (some true, [r], inb')) := by
  obtain ⟨it, hof, hread, hat⟩ := responseOf_done hb h
  obtain ⟨hinv, hcont, -⟩ := consume_spec hb.inv it.bytesRead
  have hsuffix : inb.content.drop it.bytesRead = rest := by
    rw [hread, htext, List.length_append, Nat.add_sub_cancel, List.drop_left]
  refine ⟨inb.consume it.bytesRead, ⟨hinv, consume_live hb.inv hb.live _⟩, hcont.trans hsuffix, ?_⟩
  simp only [readLoop, hof, lt_irrefl, if_false]
  by_cases heob : it.eob (inb.consume it.bytesRead) = true
  · right
    rw [if_pos heob]
    refine ⟨?_, rfl⟩
    by_contra hne
    rw [eob_of_ne_nil hat hne] at heob
    cases heob
  · left
    rw [if_neg heob]

/-- The rest of a response is still to come. -/
theorem readLoop_wait {inb : Buffer} (hb : Iterator.Readable inb)
    (h : responseSpec inb.content = .more .incomplete) (n : ℕ) :
    readLoop (n + 1) inb = (some true, [], inb) := by
  have hrep := responseOf_reports hb
  rw [h] at hrep
  have hret : (responseOf inb).1 = .ret 1 := hrep
  rcases hof : responseOf inb with ⟨o, r, it⟩
  rw [hof] at hret
  simp only at hret
  simp [readLoop, hof, hret]

/-! ## Responses one behind the other -/

/-- A response in `in_`: what stands up to its empty line, the length
that the parser finds there, and the body it has. -/
structure Piece where
  header : List UInt8
  nonempty : header ≠ []
  size : ℕ
  status : List UInt8
  lines : List UInt8
  parsed : ∀ t, responseSpec (header ++ t) = (bodySpec size t).bind fun body s =>
    .done ⟨status, lines, body⟩ s
  body : List UInt8

namespace Piece

def text (p : Piece) : List UInt8 := p.header ++ p.body

theorem text_ne_nil (p : Piece) : p.text ≠ [] := List.append_ne_nil_of_left_ne_nil p.nonempty p.body

/-- With a length that is not its own a response is not read back. -/
theorem readLoop_bodies_ne {p : Piece} (hsize : p.body.length ≠ p.size) {inb : Buffer}
    (hb : Iterator.Readable inb) {rest : List UInt8} (hin : inb.content = p.text ++ rest) (n : ℕ)
    (bodies : List (List UInt8)) :
    (readLoop (n + 1) inb).2.1.map Response.body ≠ p.body :: bodies := by
  have hspec := p.parsed (p.body ++ rest)
  rw [← List.append_assoc] at hspec
  change responseSpec (p.text ++ rest) = _ at hspec
  rw [← hin, bodySpec] at hspec
  intro hbodies
  split at hspec
  · rw [Res.bind_more] at hspec
    rw [readLoop_wait hb hspec] at hbodies
    cases hbodies
  · next hlong =>
      rw [Res.bind_done] at hspec
      have hfirst : ∃ rs, (readLoop (n + 1) inb).2.1
          = ⟨p.status, p.lines, (p.body ++ rest).take p.size⟩ :: rs := by
        obtain ⟨it, hof, -⟩ := responseOf_done hb hspec
        simp only [readLoop, hof, lt_irrefl, if_false]
        split
        · exact ⟨[], rfl⟩
        · exact ⟨_, rfl⟩
      obtain ⟨rs, hrs⟩ := hfirst
      rw [hrs, List.map_cons, List.cons.injEq] at hbodies
      have hlen := congrArg List.length hbodies.1
      rw [List.length_take] at hlen
      omega

end Piece

/-- The loop returns true, has passed on the bodies of the responses in
their order, and has left nothing behind. -/
structure ReadBack (ps : List Piece) (r : Option Bool × List Response × Buffer) : Prop where
  returns : r.1 = some true
  bodies : r.2.1.map Response.body = ps.map Piece.body
  empty : r.2.2.content = []

/-- The loop reads back responses whose length is that of the body, and
stumbles over the first whose is not. -/
theorem readLoop_pieces : ∀ (ps : List Piece) {n : ℕ} {inb : Buffer}, Iterator.Readable inb →
    inb.content = ps.flatMap Piece.text → inb.content.length < n →
    (ReadBack ps (readLoop n inb) ↔ ∀ p ∈ ps, p.body.length = p.size)
  | _, 0, _, _, _, hn => absurd hn (Nat.not_lt_zero _)
  | [], n + 1, inb, hb, hin, _ => by
      rw [readLoop_wait hb (by rw [hin]; rfl)]
      exact iff_of_true ⟨rfl, rfl, hin⟩ nofun
  | p :: ps, n + 1, inb, hb, hin, hn => by
      rw [List.flatMap_cons] at hin
      rw [List.forall_mem_cons]
      by_cases hsize : p.body.length = p.size
      · have hspec : responseSpec inb.content
            = .done ⟨p.status, p.lines, p.body⟩ (ps.flatMap Piece.text) := by
          rw [hin, Piece.text, List.append_assoc, p.parsed, bodySpec, if_neg, Res.bind_done,
            ← hsize, List.take_left, List.drop_left]
          rw [List.length_append]
          omega
        have hpos := List.length_pos_iff.mpr p.text_ne_nil
        obtain ⟨inb', hb', hin', hgo | ⟨hnil, hgo⟩⟩ := readLoop_done hb hin hspec n
        · have hlt : inb'.content.length < n := by
            rw [hin, List.length_append] at hn
            rw [hin']
            omega
          rw [hgo, and_iff_right hsize, ← readLoop_pieces ps hb' hin' hlt]
          constructor
          · intro h
            exact ⟨h.returns, (List.cons.inj h.bodies).2, h.empty⟩
          · intro h
            exact ⟨h.returns, congrArg (p.body :: ·) h.bodies, h.empty⟩
        · -- behind the last response
          have hlast : ps = [] := by
            rw [List.flatMap_eq_nil_iff] at hnil
            exact List.eq_nil_iff_forall_not_mem.mpr fun p hp => p.text_ne_nil (hnil p hp)
          subst hlast
          rw [hgo]
          exact iff_of_true ⟨rfl, rfl, hin'⟩ ⟨hsize, nofun⟩
      · exact iff_of_false (fun h => Piece.readLoop_bodies_ne hsize hb hin n _ h.bodies)
          fun hall => hsize hall.1

/-- Responses in a buffer, laid out in any way, are read back by
`readDone` exactly when each has the length of its body. -/
theorem readDone_pieces {ps : List Piece} {inb : Buffer} (hb : Iterator.Readable inb)
    (hin : inb.content = ps.flatMap Piece.text) :
    ReadBack ps (readDone inb) ↔ ∀ p ∈ ps, p.body.length = p.size :=
  readLoop_pieces ps hb hin (by rw [byteCount_eq hb.inv]; exact Nat.lt_succ_self _)

/-! ## Framing -/

/-- All bytes of a buffer are in its first chunk. -/
def OneChunk (b : Buffer) : Prop := ∀ n ∈ b.sizes.tail, n = 0

theorem oneChunk_iff {b : Buffer} (h : b.Inv) : OneChunk b ↔ b.content.length = b.readSize := by
  rw [← byteCount_eq h, byteCount, List.drop_one, OneChunk, ← List.sum_eq_zero_iff_forall_eq_nat]
  omega

/-- The response that answers a request for a file is framed: `in_`,
when it holds the bytes that were appended to `out_`, is parsed as one
response with the content of the file and nothing behind it. -/
def Framed (out : Buffer) (buf : Source) : Prop :=
  ∃ s, (writeFile out buf.buf).content = out.content ++ s
    ∧ ∀ inb, Iterator.Readable inb → inb.content = s →
        (responseOf inb).1 = .ret 0 ∧ (responseOf inb).2.1.body = buf.buf.content
          ∧ (responseOf inb).2.2.bytesRead = s.length

/-- The responses to any number of requests, one behind the other, are
read back by `readDone` with their contents, and nothing is left over. -/
def Pipelined (out : Buffer) (bufs : List Source) : Prop :=
  ∃ s, (bufs.foldl (fun out buf => writeFile out buf.buf) out).content = out.content ++ s
    ∧ ∀ inb, Iterator.Readable inb → inb.content = s →
        (readDone inb).1 = some true
          ∧ (readDone inb).2.1.map Response.body = bufs.map (fun buf => buf.buf.content)
          ∧ (readDone inb).2.2.content = []

theorem writeFiles_spec (bufs : List Source) : ∀ {out : Buffer}, out.Inv →
    (bufs.foldl (fun out buf => writeFile out buf.buf) out).content
      = out.content ++ bufs.flatMap fun buf => fileText buf.buf := by
  induction bufs with
  | nil => simp
  | cons buf bufs ih =>
      intro out h
      obtain ⟨hinv, hcont⟩ := writeFile_spec h buf
      rw [List.foldl_cons, ih hinv, hcont, List.flatMap_cons, List.append_assoc]

/-- A buffer that holds a given text. -/
theorem exists_readable (s : List UInt8) : ∃ inb, Iterator.Readable inb ∧ inb.content = s := by
  obtain ⟨hinv, hnil⟩ := new_inv fun _ _ => 0
  obtain ⟨hinv', hcont⟩ := write_spec hinv s
  refine ⟨_, ⟨hinv', write_live hinv (new_live _) ?_ s⟩, by rw [hcont, hnil, List.nil_append]⟩
  rintro ⟨-, hfull⟩
  cases hfull

theorem framed_iff {out : Buffer} (h : out.Inv) (buf : Source) :
    Framed out buf ↔ OneChunk buf.buf := by
  have hcont := (writeFile_spec h buf).2
  have hspec := responseSpec_fileText buf []
  rw [oneChunk_iff buf.reached.inv]
  rw [List.append_nil, List.append_nil] at hspec
  constructor
  · rintro ⟨s, hs, hframed⟩
    obtain rfl : fileText buf.buf = s := List.append_cancel_left (hcont.symm.trans hs)
    obtain ⟨inb, hb, hin⟩ := exists_readable (fileText buf.buf)
    obtain ⟨-, hbody, -⟩ := hframed inb hb hin
    rw [← hin] at hspec
    obtain ⟨it, hof, -, -⟩ := responseOf_done hb hspec
    rw [hof] at hbody
    have hlen := congrArg List.length hbody
    have hle := readSize_le buf.reached.inv.wf
    rw [List.length_take] at hlen
    omega
  · intro hone
    refine ⟨fileText buf.buf, hcont, ?_⟩
    intro inb hb hin
    rw [← hone, List.take_length, List.drop_length, ← hin] at hspec
    obtain ⟨it, hof, hread, -⟩ := responseOf_done hb hspec
    rw [hof]
    refine ⟨rfl, rfl, ?_⟩
    rw [hread, hin]
    rfl

/-- The response with a file. -/
def filePiece (buf : Source) : Piece where
  header := headerText buf.buf.readSize
  nonempty := List.append_ne_nil_of_right_ne_nil _ (List.cons_ne_nil _ _)
  size := buf.buf.readSize
  status := statusLine
  lines := (headerLines buf.buf.readSize).flatten
  parsed := responseSpec_headerText (readSize_lt buf.reached.inv.wf)
  body := buf.buf.content

theorem pipelined_iff {out : Buffer} (h : out.Inv) (bufs : List Source) :
    Pipelined out bufs ↔ ∀ buf ∈ bufs, OneChunk buf.buf := by
  have hcont := writeFiles_spec bufs h
  have hread : ∀ {inb}, Iterator.Readable inb →
      inb.content = bufs.flatMap (fun buf => fileText buf.buf) →
      (ReadBack (bufs.map filePiece) (readDone inb) ↔ ∀ buf ∈ bufs, OneChunk buf.buf) := by
    intro inb hb hin
    rw [readDone_pieces hb (by rw [hin, List.flatMap_map]; rfl), List.forall_mem_map]
    exact forall₂_congr fun buf _ => (oneChunk_iff buf.reached.inv).symm
  constructor
  · rintro ⟨s, hs, hpiped⟩
    obtain rfl := List.append_cancel_left (hcont.symm.trans hs)
    obtain ⟨inb, hb, hin⟩ := exists_readable (bufs.flatMap fun buf => fileText buf.buf)
    obtain ⟨hret, hbodies, hempty⟩ := hpiped inb hb hin
    exact (hread hb hin).mp ⟨hret, by rw [hbodies, List.map_map]; rfl, hempty⟩
  · intro hall
    refine ⟨_, hcont, fun inb hb hin => ?_⟩
    have hback := (hread hb hin).mpr hall
    exact ⟨hback.returns, by rw [hback.bodies, List.map_map]; rfl, hback.empty⟩

/-- **Responses are framed, and read back one behind the other, exactly
when each file is in one chunk.** -/
theorem responses_framed_iff (heap : ℕ → ℕ → UInt8) (calls : List Call) :
    (∀ buf : Source, Framed (runCalls heap calls) buf ↔ OneChunk buf.buf)
      ∧ ∀ bufs : List Source,
          Pipelined (runCalls heap calls) bufs ↔ ∀ buf ∈ bufs, OneChunk buf.buf :=
  ⟨framed_iff (runCalls_reached heap calls).inv, pipelined_iff (runCalls_reached heap calls).inv⟩

theorem run_reached (heap : ℕ → ℕ → UInt8) (ops : List Op) : Reached (Buffer.run heap ops) := by
  induction ops using List.reverseRecOn with
  | nil => exact .new heap
  | append_singleton ops op ih =>
      rw [run_append]
      exact .apply op ih

/-- The file `AB`, with a byte in each of two chunks: `reserve` finds no
room for a block behind the first. -/
def twoChunks : Buffer := Buffer.run (fun _ _ => 0) [.write [65], .reserve 4096, .write [66]]

/-- The client takes `A` for the whole file and stops in front of `B`. -/
theorem twoChunks_not_framed :
    twoChunks.content = [65, 66] ∧ twoChunks.isConsumed = false
      ∧ (responseOf (writeFile (new fun _ _ => 0) twoChunks)).1 = .ret 0
      ∧ (responseOf (writeFile (new fun _ _ => 0) twoChunks)).2.1.body = [65]
      ∧ ¬∀ buf, Framed (new fun _ _ => 0) buf := by
  have hunread : twoChunks.isConsumed = false := by decide
  refine ⟨by decide, hunread, by decide +kernel, by decide +kernel, ?_⟩
  intro hall
  have hone := (framed_iff (new_inv _).1 ⟨twoChunks, run_reached _ _, hunread⟩).mp (hall _)
  have hmem : 1 ∈ twoChunks.sizes.tail := by decide
  exact absurd (hone 1 hmem) (by decide)

end HttpConnection

end HttpServer
