import HttpServer.ParserStable

/-!
# Well-formed requests

A request word is a request line, header lines and an empty line
(`RequestWord`). The parser takes it off the front of a buffer, however
the buffer is laid out and whatever comes behind the word: the three
fields are those of the word and the bytes read are its length, so that
`consume` leaves the iterator of the next request at its first byte.

`parseRequestInto` is `parseRequest` with the request it is given, whose
fields are cleared first.
-/

namespace HttpServer

/-- `Request::clear`. -/
def Request.clear (r : Request) : Request := { r with method := [], address := [], version := [] }

namespace Parser

open Incremental Buffer

section

variable {γ : Type} (C : Cursor γ)

/-- The `try` block of `parseRequest`, the strings of `request` as they
are. -/
def requestBodyInto (it : γ) (request : Request) : Option Exn × γ × Request :=
  match parseString C it request.method with
  | (some e, it, method) => (some e, it, { request with method := method })
  | (none, it, method) =>
  let request := { request with method := method }
  match skipChar C it SP with
  | (some e, it) => (some e, it, request)
  | (none, it) =>
  match skipChar C it SLASH with
  | (some e, it) => (some e, it, request)
  | (none, it) =>
  match parseString C it request.address with
  | (some e, it, address) => (some e, it, { request with address := address })
  | (none, it, address) =>
  let request := { request with address := address }
  match skipChar C it SP with
  | (some e, it) => (some e, it, request)
  | (none, it) =>
  match parseString C it request.version with
  | (some e, it, version) => (some e, it, { request with version := version })
  | (none, it, version) =>
  let request := { request with version := version }
  match skipNewLine C it with
  | (some e, it) => (some e, it, request)
  | (none, it) =>
  match requestLines C (fuel C it) it with
  | (e, it) => (e, it, request)

/-- `parseRequest` into the given request. -/
def parseRequestInto (it : γ) (request : Request) : Outcome × Request × γ :=
  match requestBodyInto C it request.clear with
  | (e, it, request) => (catchExn e, request, it)

/-- What the request held before is gone. -/
theorem parseRequestInto_eq (it : γ) (request : Request) :
    parseRequestInto C it request = parseRequest C it := rfl

end

/-- `parseRequest` on the content of a buffer, into the given request. -/
def requestInto (b : Buffer) (request : Request) : Outcome × Request × Iterator :=
  parseRequestInto (Iterator.cursor b) (Iterator.begin b) request

/-! ## Request words -/

/-- A string that neither a space nor a line end cuts short. -/
structure Field where
  bytes : List UInt8
  free : ∀ c ∈ bytes, c ≠ SP ∧ c ≠ CR

/-- A header line, without its line end. -/
structure HeaderLine where
  bytes : List UInt8
  nonempty : bytes ≠ []
  free : CR ∉ bytes

structure RequestWord where
  method : Field
  address : Field
  version : Field
  lines : List HeaderLine

namespace RequestWord

def request (w : RequestWord) : Request := ⟨w.method.bytes, w.address.bytes, w.version.bytes⟩

def text (w : RequestWord) : List UInt8 :=
  w.method.bytes ++ [SP, SLASH] ++ w.address.bytes ++ [SP] ++ w.version.bytes ++ [CR, LF]
    ++ linesText (w.lines.map HeaderLine.bytes) ++ [CR, LF]

end RequestWord

/-! ## The recognisers on a word -/

/-- A field is read up to the byte that ends it. -/
theorem stringSpec_field (f : Field) {c : UInt8} (hc : c = SP ∨ c = CR) (s : List UInt8) :
    stringSpec (f.bytes ++ c :: s) = .done f.bytes (c :: s) := by
  rw [stringSpec_done_iff]
  refine ⟨fun d hd => wordByte_iff.mpr (f.free d hd), rfl, c, s, rfl, ?_⟩
  rw [Bool.eq_false_iff, ne_eq, wordByte_iff]
  rintro ⟨hsp, hcr⟩
  exact hc.elim hsp hcr

theorem charSpec_self (c : UInt8) (s : List UInt8) : charSpec c (c :: s) = .done () s :=
  charSpec_done_iff.mpr rfl

theorem newLineSpec_self (s : List UInt8) : newLineSpec (CR :: LF :: s) = .done () s :=
  newLineSpec_done_iff.mpr rfl

/-- Header lines up to the empty one. -/
theorem requestLinesSpec_lines (t : List UInt8) : ∀ lines : List HeaderLine,
    requestLinesSpec (linesText (lines.map HeaderLine.bytes) ++ CR :: LF :: t) = .done () t
  | [] => by
      have hline : lineSpec (CR :: LF :: t) = .done [] t :=
        lineSpec_done_iff.mpr ⟨List.not_mem_nil, rfl⟩
      rw [requestLinesSpec_eq, show linesText (([] : List HeaderLine).map HeaderLine.bytes) = []
        from rfl, List.nil_append, hline]
      rfl
  | l :: lines => by
      have hline := lineSpec_done_iff.mpr ⟨l.free, linesText_cons l.bytes
        (lines.map HeaderLine.bytes) (CR :: LF :: t)⟩
      rw [requestLinesSpec_eq, List.map_cons, hline, Res.bind_done,
        if_neg (fun h0 => l.nonempty (List.length_eq_zero_iff.mp h0))]
      exact requestLinesSpec_lines t lines

theorem requestSpec_word (w : RequestWord) (t : List UInt8) :
    requestSpec (w.text ++ t) = .done w.request t := by
  have htext : w.text ++ t = w.method.bytes ++ SP :: SLASH :: (w.address.bytes ++ SP ::
      (w.version.bytes ++ CR :: LF ::
        (linesText (w.lines.map HeaderLine.bytes) ++ CR :: LF :: t))) := by
    simp [RequestWord.text]
  rw [htext, requestSpec, stringSpec_field w.method (.inl rfl), Res.bind_done, charSpec_self,
    Res.bind_done, charSpec_self, Res.bind_done, stringSpec_field w.address (.inl rfl),
    Res.bind_done, charSpec_self, Res.bind_done, stringSpec_field w.version (.inr rfl),
    Res.bind_done, newLineSpec_self, Res.bind_done, requestLinesSpec_lines, Res.bind_done]
  rfl

/-! ## The parser on a buffer -/

/-- A request word at the front of a buffer is parsed exactly. -/
theorem requestInto_word {b : Buffer} (hb : Iterator.Readable b) (w : RequestWord)
    (t : List UInt8) (hc : b.content = w.text ++ t) (previous : Request) :
    (requestInto b previous).1 = .ret 0 ∧ (requestInto b previous).2.1 = w.request
      ∧ (requestInto b previous).2.2.bytesRead = w.text.length := by
  have hrep := requestOf_reports hb
  rw [hc, requestSpec_word] at hrep
  have hreport : report (requestOf b) = (.ret 0, w.request, (w.text ++ t).length - t.length) :=
    hrep
  rw [report, Prod.mk.injEq, Prod.mk.injEq] at hreport
  obtain ⟨hret, hreq, hread⟩ := hreport
  refine ⟨hret, hreq, hread.trans ?_⟩
  rw [List.length_append, Nat.add_sub_cancel]

/-- Every well-formed request is parsed exactly, in every buffer that is
filled by `write`, or by `advance`, and whatever comes behind it; what is
behind it is what `consume` leaves. -/
theorem request_parsed_exactly (heap : ℕ → ℕ → UInt8) {ops : List Op} (hu : Unmixed ops)
    (w : RequestWord) (t : List UInt8) (hc : (run heap ops).content = w.text ++ t)
    (previous : Request) :
    (requestInto (run heap ops) previous).1 = .ret 0
      ∧ (requestInto (run heap ops) previous).2.1 = w.request
      ∧ (requestInto (run heap ops) previous).2.2.bytesRead = w.text.length
      ∧ ((run heap ops).consume (requestInto (run heap ops) previous).2.2.bytesRead).content
          = t := by
  obtain ⟨hret, hreq, hread⟩ :=
    requestInto_word ⟨run_inv heap ops, run_live_of_unmixed heap hu⟩ w t hc previous
  refine ⟨hret, hreq, hread, ?_⟩
  rw [(consume_spec (run_inv heap ops) _).2.1, hread, hc, List.drop_left]

/-- `G /x 1`, one header line. -/
def shortWord : RequestWord where
  method := ⟨[71], List.forall_mem_singleton.mpr (by decide)⟩
  address := ⟨[120], List.forall_mem_singleton.mpr (by decide)⟩
  version := ⟨[49], List.forall_mem_singleton.mpr (by decide)⟩
  lines := [⟨[104], by decide, by decide⟩]

/-- The word in two chunks, and a byte of the next request behind it. -/
def shortOps : List Op := [.write (shortWord.text.take 4), .reserve 4096,
  .write (shortWord.text.drop 4 ++ [71])]

theorem shortOps_content : (run (fun _ _ => 0) shortOps).content = shortWord.text ++ [71] := by
  decide

theorem shortWord_parsed :
    (requestInto (run (fun _ _ => 0) shortOps) ⟨[1], [2], [3]⟩).2.1 = ⟨[71], [120], [49]⟩ :=
  (request_parsed_exactly (fun _ _ => 0) (.inl (by decide)) shortWord [71] shortOps_content
    ⟨[1], [2], [3]⟩).2.1

end Parser

end HttpServer
