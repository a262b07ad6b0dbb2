import HttpServer.HttpConnection

/-!
# Buffered responses

`HTTPClientConnection::readDone` on a buffer filled by `advance` that
holds responses with a line `Content-Length: n` and `n` bytes of body.
The iterator that is asked for the end of the data is older than the
`consume` before it, but as long as there is a byte in front of it it
has positions left in its chunk, and behind the last response another
round of the loop finds nothing. So what decides is the length the
parser reads: all responses are handled exactly when no later line that
contains the text gives another one (`readDone_responses_iff`).
-/

namespace HttpServer

namespace HttpConnection

open Buffer HttpServer.Parser Incremental

/-- A response with a header line `Content-Length: n` and `n` bytes. -/
structure FullResponse where
  head : LengthResponse
  oneSpace : head.spaces = 1
  noTail : head.tail = []
  body : List UInt8
  whole : body.length = head.n

namespace FullResponse

def text (r : FullResponse) : List UInt8 := r.head.header ++ r.body

/-- Of the lines behind the length line, the last one that contains its
text and has a number at its byte 16, if there is one, has the same
number. -/
def Kept (r : FullResponse) : Prop :=
  ∀ m ∈ ((r.head.after.map HeaderLine.bytes).filterMap sizeIn).getLast?, m = r.head.n

/-- The line of the length is the only one with its text. -/
def OneLine (r : FullResponse) : Prop :=
  ∀ l ∈ r.head.after, contains lengthString l.bytes = false

theorem OneLine.kept {r : FullResponse} (h : r.OneLine) : r.Kept := by
  have hnone : (r.head.after.map HeaderLine.bytes).filterMap sizeIn = [] := by
    rw [List.filterMap_eq_nil_iff, List.forall_mem_map]
    exact fun l hl => if_neg fun hc => by
      rw [h l hl] at hc
      cases hc.1
  intro m hm
  rw [hnone] at hm
  cases hm

theorem kept_iff (r : FullResponse) : r.Kept ↔ r.head.numberRead = r.head.n := by
  rw [r.head.numberRead_of_spaces (by rw [r.oneSpace]; exact Nat.one_ne_zero)]
  unfold Kept lastSize
  cases ((r.head.after.map HeaderLine.bytes).filterMap sizeIn).getLast? with
  | none => simp
  | some m => simp

def piece (r : FullResponse) : Piece where
  header := r.head.header
  nonempty := List.append_ne_nil_of_right_ne_nil _ (List.cons_ne_nil _ _)
  size := r.head.numberRead
  status := r.head.status
  lines := r.head.lines.flatten
  parsed := fun t => by
    rw [r.head.responseSpec_eq, bodySpec]
    split
    · rfl
    · rfl
  body := r.body

end FullResponse

/-- `handleResponse` has been called for each response, in order and with
its body; `readDone` returns true and leaves nothing in `in_`. -/
structure Handled (rs : List FullResponse) (r : Option Bool × List Response × Buffer) : Prop where
  returns : r.1 = some true
  bodies : r.2.1.map Response.body = rs.map FullResponse.body
  empty : r.2.2.content = []

theorem handled_iff {rs : List FullResponse} {inb : Buffer} (hb : Iterator.Readable inb)
    (hin : inb.content = rs.flatMap FullResponse.text) :
    Handled rs (readDone inb) ↔ ∀ r ∈ rs, r.Kept := by
  have hin' : inb.content = (rs.map FullResponse.piece).flatMap Piece.text := by
    rw [hin, List.flatMap_map]
    rfl
  have hpieces := readDone_pieces hb hin'
  have hkept : (∀ p ∈ rs.map FullResponse.piece, p.body.length = p.size) ↔ ∀ r ∈ rs, r.Kept := by
    rw [List.forall_mem_map]
    refine forall₂_congr fun r _ => ?_
    rw [r.kept_iff, ← r.whole]
    exact eq_comm
  rw [← hkept, ← hpieces]
  constructor
  · rintro ⟨hret, hbodies, hempty⟩
    exact ⟨hret, by rw [hbodies, List.map_map]; rfl, hempty⟩
  · rintro ⟨hret, hbodies, hempty⟩
    exact ⟨hret, by rw [hbodies, List.map_map]; rfl, hempty⟩

/-- Every response is handled, once and in order, exactly when in none the
length is overridden. -/
theorem readDone_responses_iff (heap : ℕ → ℕ → UInt8) (ops : List Op) (rs : List FullResponse)
    (hops : ∀ op ∈ ops, op.isWrite = false)
    (hin : (run heap ops).content = rs.flatMap FullResponse.text) :
    Handled rs (readDone (run heap ops)) ↔ ∀ r ∈ rs, r.Kept :=
  handled_iff ⟨run_inv heap ops, run_live_of_unmixed heap (.inr hops)⟩ hin

/-- `X`, the line `Content-Length: 5`, lines behind it, and `hello`. -/
def helloWith (after : List HeaderLine) (h : ∀ l ∈ after, ¬lengthString <+: l.bytes) :
    FullResponse where
  head := { fiveBytes 1 with after := after, otherNames := h }
  oneSpace := rfl
  noTail := rfl
  body := hello
  whole := rfl

def plainHello : FullResponse := helloWith [] fun _ hl => absurd hl List.not_mem_nil

/-- The line `X-Content-Length: 9`. -/
def otherLength : HeaderLine where
  bytes := ascii "X-Content-Length: 9"
  nonempty := by decide
  free := by decide

def overriddenHello : FullResponse :=
  helloWith [otherLength] (List.forall_mem_singleton.mpr (by decide))

/-- A buffer into which the socket has put a text. -/
def received (text : List UInt8) : List Op :=
  [.reserve text.length, .store text, .advance text.length]

theorem plainHello_handled :
    Handled [plainHello, plainHello]
      (readDone (run (fun _ _ => 0) (received (plainHello.text ++ plainHello.text)))) :=
  (readDone_responses_iff (fun _ _ => 0) (received (plainHello.text ++ plainHello.text))
    [plainHello, plainHello] (by decide) (by decide +kernel)).mpr
      (by
        intro r hr
        obtain rfl : r = plainHello := by simpa using hr
        exact FullResponse.OneLine.kept fun _ hl => absurd hl List.not_mem_nil)

/-- The second line is read for the length, from its colon on: the body is
empty, and `hello` is taken for the next response. -/
theorem overriddenHello_not_handled :
    (run (fun _ _ => 0) (received overriddenHello.text)).content = overriddenHello.text
      ∧ ¬∀ (heap : ℕ → ℕ → UInt8) (ops : List Op) (rs : List FullResponse),
        (∀ op ∈ ops, op.isWrite = false) →
        (run heap ops).content = rs.flatMap FullResponse.text →
        Handled rs (readDone (run heap ops)) := by
  have hin : (run (fun _ _ => 0) (received overriddenHello.text)).content
      = overriddenHello.text := by decide +kernel
  refine ⟨hin, fun hall => ?_⟩
  have hhandled := hall (fun _ _ => 0) (received overriddenHello.text) [overriddenHello] (by decide)
    (by rw [hin, List.flatMap_singleton])
  have hempty : (readDone (run (fun _ _ => 0) (received overriddenHello.text))).2.1.map
      Response.body = [[]] := by decide +kernel
  have hbodies := hhandled.bodies
  rw [hempty] at hbodies
  exact absurd hbodies (by decide)

end HttpConnection

end HttpServer
