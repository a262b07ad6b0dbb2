import HttpServer.BufferIter

/-!
# The HTTP parser

`Parser::parseRequest` and `Parser::parseResponse` (http_parser.cpp).
The parser sees its input through the five operations of
`Buffer::Iterator` only, so it is written over any type with these
operations (`Cursor`); `requestOf` and `responseOf` run it on a buffer,
from `begin()`.

A helper that throws leaves the iterator and the string it fills where
they are at that moment, so each helper returns the exception (if any)
together with both. A `while` loop of the source runs once per unit of
fuel; as every round that does not leave the loop moves the iterator,
the bytes left bound the rounds, and a loop that uses up its fuel is one
in which the iterator no longer moves (`Exn.stuck`).
-/

namespace HttpServer

/-- The operations of `Buffer::Iterator` the parser calls. -/
structure Cursor (γ : Type) where
  eob : γ → Bool
  getChar : γ → UInt8
  next : γ → γ
  bytesRead : γ → ℕ
  bytesTotal : γ → ℕ

/-- The iterator of a buffer. -/
def Iterator.cursor (b : Buffer) : Cursor Iterator where
  eob := Iterator.eob b
  getChar := Iterator.getChar
  next := Iterator.next b
  bytesRead := Iterator.bytesRead
  bytesTotal := Iterator.bytesTotal

structure Request where
  method : List UInt8
  address : List UInt8
  version : List UInt8
deriving DecidableEq, Repr

structure Response where
  statusLine : List UInt8
  headerRemainder : List UInt8
  body : List UInt8
deriving DecidableEq, Repr

namespace Parser

def SP : UInt8 := 32
def CR : UInt8 := 13
def LF : UInt8 := 10
def SLASH : UInt8 := 47

/-- What can end a helper early: the parser's own two exceptions, the
`std::out_of_range` of the `string` constructor, a loop without end. -/
inductive Exn where
  | incompleteInput
  | errorInRequest
  | outOfRange
  | stuck
deriving DecidableEq, Repr

/-- How a call of the parser ends: it returns a code, an exception other
than its own leaves it, or it does not end. -/
inductive Outcome where
  | ret (rc : ℤ)
  | throws
  | loops
deriving DecidableEq, Repr

/-- The `catch` clauses: `-1` error, `0` parsed, `1` insufficient input. -/
def catchExn : Option Exn → Outcome
  | none => .ret 0
  | some .incompleteInput => .ret 1
  | some .errorInRequest => .ret (-1)
  | some .outOfRange => .throws
  | some .stuck => .loops

section Helpers

variable {γ : Type} (C : Cursor γ)

/-- Rounds that the bytes left allow a loop. -/
def fuel (it : γ) : ℕ := C.bytesTotal it - C.bytesRead it + 1

def parseStringLoop : ℕ → γ → List UInt8 → Option Exn × γ × List UInt8
  | 0, it, res => (some .stuck, it, res)
  | n + 1, it, res =>
      if C.eob it then (none, it, res)
      else
        let c := C.getChar it
        if c = SP then (none, it, res)
        else if c = CR then (none, it, res)
        else parseStringLoop n (C.next it) (res ++ [c])

def parseString (it : γ) (res : List UInt8) : Option Exn × γ × List UInt8 :=
  if C.eob it then (some .incompleteInput, it, res)
  else
    match parseStringLoop C (fuel C it) it res with
    | (some e, it, res) => (some e, it, res)
    | (none, it, res) =>
        if C.eob it then (some .incompleteInput, it, res) else (none, it, res)

/-- The loop of `parseLine` with the test behind it. -/
def parseLineLoop : ℕ → γ → List UInt8 → Option Exn × γ × List UInt8
  | 0, it, res => (some .stuck, it, res)
  | n + 1, it, res =>
      if C.eob it then (some .incompleteInput, it, res)
      else
        let c := C.getChar it
        if c = CR then
          -- no test for the end of the data between the two bytes
          let it := C.next it
          if C.getChar it = LF then (none, C.next it, res)
          else (some .errorInRequest, it, res)
        else parseLineLoop n (C.next it) (res ++ [c])

def parseLine (it : γ) (res : List UInt8) : Option Exn × γ × List UInt8 :=
  if C.eob it then (some .incompleteInput, it, res)
  else parseLineLoop C (fuel C it) it res

def skipChar (it : γ) (skip : UInt8) : Option Exn × γ :=
  if C.eob it then (some .incompleteInput, it)
  else if C.getChar it ≠ skip then (some .errorInRequest, it)
  else (none, C.next it)

def skipNewLine (it : γ) : Option Exn × γ :=
  if C.eob it then (some .incompleteInput, it)
  else
    let first := C.getChar it
    let it := C.next it
    if C.eob it then (some .incompleteInput, it)
    else
      let second := C.getChar it
      if first ≠ CR ∨ second ≠ LF then (some .errorInRequest, it)
      else (none, C.next it)

/-! ## Requests -/

/-- The loop over the header lines of a request: up to an empty one. -/
def requestLines : ℕ → γ → Option Exn × γ
  | 0, it => (some .stuck, it)
  | n + 1, it =>
      match parseLine C it [] with
      | (some e, it, _) => (some e, it)
      | (none, it, dummy) => if dummy.length = 0 then (none, it) else requestLines n it

/-- The `try` block of `parseRequest`. -/
def requestBody (it : γ) : Option Exn × γ × Request :=
  match parseString C it [] with
  | (some e, it, method) => (some e, it, ⟨method, [], []⟩)
  | (none, it, method) =>
  match skipChar C it SP with
  | (some e, it) => (some e, it, ⟨method, [], []⟩)
  | (none, it) =>
  match skipChar C it SLASH with
  | (some e, it) => (some e, it, ⟨method, [], []⟩)
  | (none, it) =>
  match parseString C it [] with
  | (some e, it, address) => (some e, it, ⟨method, address, []⟩)
  | (none, it, address) =>
  match skipChar C it SP with
  | (some e, it) => (some e, it, ⟨method, address, []⟩)
  | (none, it) =>
  match parseString C it [] with
  | (some e, it, version) => (some e, it, ⟨method, address, version⟩)
  | (none, it, version) =>
  match skipNewLine C it with
  | (some e, it) => (some e, it, ⟨method, address, version⟩)
  | (none, it) =>
  match requestLines C (fuel C it) it with
  | (e, it) => (e, it, ⟨method, address, version⟩)

/-- `parseRequest`: how it ends, the request (cleared first) and the
iterator. -/
def parseRequest (it : γ) : Outcome × Request × γ :=
  match requestBody C it with
  | (e, it, request) => (catchExn e, request, it)

/-! ## Responses -/

/-- `"Content-Length:"`. -/
def lengthString : List UInt8 :=
  [67, 111, 110, 116, 101, 110, 116, 45, 76, 101, 110, 103, 116, 104, 58]

/-- `sizeof(lengthString)`: the array holds the terminating zero, too. -/
def sizeofLengthString : ℕ := 16

/-- `line.find(s) != string::npos`. -/
def contains (s : List UInt8) : List UInt8 → Bool
  | [] => s.isEmpty
  | x :: xs => s.isPrefixOf (x :: xs) || contains s xs

def isSpace (c : UInt8) : Bool := c = 32 || (9 ≤ c && c ≤ 13)

def isDigit (c : UInt8) : Bool := 48 ≤ c && c ≤ 57

def decimal (ds : List UInt8) : ℕ := ds.foldl (fun n d => 10 * n + (d.toNat - 48)) 0

/-- `is >> size` for a `size_t`: white space, a sign, decimal digits. If
the stream ends in the white space `size` stays as it is. Otherwise no
digits give 0, a number that does not fit gives the largest one, a minus
sign negates modulo `2^64`. -/
def extractSize (s : List UInt8) (size : ℕ) : ℕ :=
  let s := s.dropWhile isSpace
  if s = [] then size
  else
    let neg := s.head? = some 45
    let s := if s.head? = some 45 ∨ s.head? = some 43 then s.tail else s
    let n := decimal (s.takeWhile isDigit)
    if n ≥ 2 ^ 64 then 2 ^ 64 - 1
    else if neg then (2 ^ 64 - n) % 2 ^ 64
    else n

/-- What one header line does to `contentSize`; `none` is the
`std::out_of_range` thrown for a line shorter than `sizeofLengthString`. -/
def contentSizeOf (line : List UInt8) (contentSize : ℕ) : Option ℕ :=
  if contains lengthString line then
    if sizeofLengthString ≤ line.length then
      some (extractSize (line.drop sizeofLengthString) contentSize)
    else none
  else some contentSize

/-- The loop over the header lines of a response, with the header
remainder and the content size so far. -/
def responseLines : ℕ → γ → List UInt8 → ℕ → Option Exn × γ × List UInt8 × ℕ
  | 0, it, rem, size => (some .stuck, it, rem, size)
  | n + 1, it, rem, size =>
      match parseLine C it [] with
      | (some e, it, _) => (some e, it, rem, size)
      | (none, it, line) =>
          if line = [] then (none, it, rem, size)
          else
            match contentSizeOf line size with
            | none => (some .outOfRange, it, rem, size)
            | some size => responseLines n it (rem ++ line) size

/-- The loop over the body, `contentSize` rounds. -/
def bodyLoop : ℕ → γ → List UInt8 → γ × List UInt8
  | 0, it, body => (it, body)
  | n + 1, it, body => bodyLoop n (C.next it) (body ++ [C.getChar it])

/-- The `try` block of `parseResponse`. -/
def responseBody (it : γ) : Option Exn × γ × Response :=
  match parseLine C it [] with
  | (some e, it, status) => (some e, it, ⟨status, [], []⟩)
  | (none, it, status) =>
  match responseLines C (fuel C it) it [] 0 with
  | (some e, it, rem, _) => (some e, it, ⟨status, rem, []⟩)
  | (none, it, rem, size) =>
  if C.bytesTotal it - C.bytesRead it < size then (some .incompleteInput, it, ⟨status, rem, []⟩)
  else
    match bodyLoop C size it [] with
    | (it, body) => (none, it, ⟨status, rem, body⟩)

def parseResponse (it : γ) : Outcome × Response × γ :=
  match responseBody C it with
  | (e, it, response) => (catchExn e, response, it)

end Helpers

/-- `Parser::parseRequest` on the content of a buffer. -/
def requestOf (b : Buffer) : Outcome × Request × Iterator :=
  parseRequest (Iterator.cursor b) (Iterator.begin b)

/-- `Parser::parseResponse` on the content of a buffer. -/
def responseOf (b : Buffer) : Outcome × Response × Iterator :=
  parseResponse (Iterator.cursor b) (Iterator.begin b)

end Parser

end HttpServer
