import HttpServer.HttpConnection
import HttpServer.Lib.Stream
import HttpServer.ParserThrows

/-!
# The loops of `readDone`

`HTTPServerConnection::readDone` and `KVServerConnection::readDone` are
one loop over different handlers, and so are the two of the clients
(http_connection.cpp, kv_connection.cpp). A turn of a loop parses at
`in_.begin()`, consumes what was parsed and calls the handler.

On a buffer whose read point is live a turn does to the content what the
recogniser and the handler do to a text (`Follows`), so that the loop
serves the content. It is only on a text cut in the line end of a header
that nothing is said of it.
-/

namespace HttpServer

namespace ReadDone

open Buffer HttpConnection HttpServer.Parser Incremental

/-! ## One turn -/

/-- What a turn of the loop comes to. -/
inductive Turn (σ : Type) where
  | again (inb : Buffer) (x : σ)
  | ret (ok : Bool) (inb : Buffer) (x : σ)
  /-- The parser does not return. -/
  | throws

/-- The members behind it. -/
def Turn.user {σ : Type} : Turn σ → Option σ
  | .again _ x | .ret _ _ x => some x
  | .throws => none

/-- The members of a server connection that its loop works on. -/
structure Server (τ : Type) where
  request : Request
  user : τ

/-- A turn of `HTTPServerConnection::readDone`, and of
`KVServerConnection::readDone`. -/
def serverTurn {τ : Type} (handleRequest : τ → Request → τ × Bool) (inb : Buffer)
    (x : Server τ) : Turn (Server τ) :=
  match requestInto inb x.request with
  | (.ret rc, request, it) =>
      if rc < 0 then .ret false inb { x with request }
      else if rc > 0 then .ret true inb { x with request }
      else
        let inb := inb.consume it.bytesRead
        match handleRequest x.user request with
        | (user, false) => .ret false inb ⟨request, user⟩
        | (user, true) => .again inb ⟨request, user⟩
  | (_, _, _) => .throws

/-- A turn of `HTTPClientConnection::readDone`, and of
`KVClientConnection::readDone`. -/
def clientTurn {τ : Type} (handleResponse : τ → Response → τ × Bool) (inb : Buffer)
    (x : τ) : Turn τ :=
  match responseOf inb with
  | (.ret rc, response, it) =>
      if rc < 0 then .ret false inb x
      else if rc > 0 then .ret true inb x
      else
        let inb := inb.consume it.bytesRead
        match handleResponse x response with
        | (x, false) => .ret false inb x
        -- `it` is from before the bytes were consumed
        | (x, true) => if it.eob inb then .ret true inb x else .again inb x
  | (_, _, _) => .throws

/-! ## The recognisers -/

theorem stringSpec_shortens : Shortens stringSpec := by
  intro s w rest h
  obtain ⟨-, rfl, -⟩ := stringSpec_done_iff.mp h
  exact List.suffix_append w rest

theorem charSpec_takes (c : UInt8) : Takes (charSpec c) := by
  intro s u rest h
  rw [charSpec_done_iff.mp h]
  exact ⟨List.suffix_cons c rest, Nat.lt_succ_self _⟩

theorem newLineSpec_shortens : Shortens newLineSpec := by
  intro s u rest h
  rw [newLineSpec_done_iff.mp h]
  exact List.suffix_append [CR, LF] rest

theorem lineSpec_takes : Takes lineSpec := by
  intro s line rest h
  refine ⟨?_, lineSpec_length h⟩
  rw [lineSpec_shrinks h]
  exact List.suffix_append_of_suffix (List.suffix_append [CR, LF] rest)

theorem requestLinesSpec_shortens : Shortens requestLinesSpec := by
  intro s
  induction s using lines_induction with
  | h s ih =>
      intro u rest h
      rw [requestLinesSpec_eq] at h
      obtain ⟨line, mid, hline, h⟩ := bind_eq_done.mp h
      have hmid := lineSpec_takes.shortens _ _ _ hline
      by_cases h0 : line.length = 0
      · rw [if_pos h0] at h
        obtain ⟨-, rfl⟩ := Res.done.inj h
        exact hmid
      · rw [if_neg h0] at h
        exact (ih line mid hline u rest h).trans hmid

theorem responseLinesSpec_shortens (rem : List UInt8) (size : ℕ) :
    Shortens (responseLinesSpec rem size) := by
  intro s
  induction s using lines_induction generalizing rem size with
  | h s ih =>
      intro u rest h
      rw [responseLinesSpec_eq] at h
      obtain ⟨line, mid, hline, h⟩ := bind_eq_done.mp h
      have hmid := lineSpec_takes.shortens _ _ _ hline
      by_cases h0 : line = []
      · rw [if_pos h0] at h
        obtain ⟨-, rfl⟩ := Res.done.inj h
        exact hmid
      · rw [if_neg h0] at h
        cases hsize : contentSizeOf line size with
        | none =>
            rw [hsize] at h
            cases h
        | some size' =>
            rw [hsize] at h
            exact (ih line mid hline _ _ u rest h).trans hmid

theorem bodySpec_shortens (size : ℕ) : Shortens (bodySpec size) := by
  intro s body rest h
  rw [bodySpec] at h
  split at h
  · cases h
  · obtain ⟨-, rfl⟩ := Res.done.inj h
    exact List.drop_suffix size s

theorem requestSpec_takes : Takes requestSpec :=
  stringSpec_shortens.bind_takes fun _ =>
  (charSpec_takes SP).bind fun _ =>
  (charSpec_takes SLASH).shortens.bind fun _ =>
  stringSpec_shortens.bind fun _ =>
  (charSpec_takes SP).shortens.bind fun _ =>
  stringSpec_shortens.bind fun _ =>
  newLineSpec_shortens.bind fun _ =>
  requestLinesSpec_shortens.bind fun _ =>
  shortens_done _

theorem responseSpec_takes : Takes responseSpec :=
  lineSpec_takes.bind fun _ =>
  (responseLinesSpec_shortens [] 0).bind fun header =>
  (bodySpec_shortens header.2).bind fun _ =>
  shortens_done _

def requests : Recogniser UInt8 More Fail Request :=
  ⟨requestSpec, requestSpec_stable, requestSpec_takes⟩

def responses : Recogniser UInt8 More Fail Response :=
  ⟨responseSpec, responseSpec_stable, responseSpec_takes⟩

/-! ## The turns follow them -/

/-- What a turn does to `in_` and to what the handler works on, when the
recogniser answers `a` on the content of `in_`. The loop may end behind
the last value, too, with nothing left. -/
def Follows {σ τ α : Type} (view : σ → τ) (f : τ → α → τ × Bool) (inb : Buffer) (x : σ)
    (turn : Turn σ) : Answer α → Prop
  | .more .incomplete => ∃ y, turn = .ret true inb y ∧ view y = view x
  | .more .cut => True
  | .fail .error => ∃ y, turn = .ret false inb y ∧ view y = view x
  | .fail .outOfRange => turn = .throws
  | .done a rest => ∃ inb' y, Iterator.Readable inb' ∧ inb'.content = rest
      ∧ view y = (f (view x) a).1
      ∧ if (f (view x) a).2 then turn = .again inb' y ∨ rest = [] ∧ turn = .ret true inb' y
        else turn = .ret false inb' y

section

variable {τ : Type} {inb : Buffer}

theorem consume_readable (hb : Iterator.Readable inb) (n : ℕ) :
    Iterator.Readable (inb.consume n) :=
  ⟨(consume_spec hb.inv n).1, consume_live hb.inv hb.live n⟩

/-- Consuming what was read leaves the rest. -/
theorem consume_rest (hb : Iterator.Readable inb) {rest : List UInt8}
    (hrest : rest <:+ inb.content) :
    (inb.consume (inb.content.length - rest.length)).content = rest := by
  obtain ⟨read, hread⟩ := hrest
  rw [(consume_spec hb.inv _).2.1, ← hread, List.length_append, Nat.add_sub_cancel,
    List.drop_left]

theorem serverTurn_follows (handleRequest : τ → Request → τ × Bool)
    (hb : Iterator.Readable inb) (x : Server τ) :
    Follows Server.user handleRequest inb x (serverTurn handleRequest inb x)
      (requestSpec inb.content) := by
  have hrep := requestOf_reports hb
  have hinto : requestInto inb x.request = requestOf inb := parseRequestInto_eq _ _ _
  rw [serverTurn, hinto]
  generalize requestOf inb = r at hrep ⊢
  obtain ⟨out, request, it⟩ := r
  cases hspec : requestSpec inb.content with
  | more m =>
      rw [hspec] at hrep
      cases m with
      | incomplete =>
          obtain rfl : out = .ret 1 := hrep
          exact ⟨_, rfl, rfl⟩
      | cut => trivial
  | fail e =>
      rw [hspec] at hrep
      cases e with
      | error =>
          obtain rfl : out = .ret (-1) := hrep
          exact ⟨_, rfl, rfl⟩
      | outOfRange =>
          obtain rfl : out = .throws := hrep
          rfl
  | done a rest =>
      rw [hspec] at hrep
      obtain ⟨rfl, rfl, hread⟩ : out = .ret 0 ∧ request = a
          ∧ it.bytesRead = inb.content.length - rest.length := by
        simpa [Reports, report] using hrep
      refine ⟨inb.consume it.bytesRead, ⟨request, (handleRequest x.user request).1⟩,
        consume_readable hb _, ?_, rfl, ?_⟩
      · rw [hread]
        exact consume_rest hb (requestSpec_takes.shortens _ _ _ hspec)
      · rcases hh : handleRequest x.user request with ⟨user, go⟩
        cases go with
        | false => simp [hh]
        | true => simp [hh]

/-- It is the handler that changes them. -/
theorem clientTurn_user (handleResponse : τ → Response → τ × Bool) (inb : Buffer) (x : τ) {y : τ}
    (hy : (clientTurn handleResponse inb x).user = some y) :
    y = x ∨ ∃ response, y = (handleResponse x response).1 := by
  rw [clientTurn] at hy
  generalize responseOf inb = r at hy
  obtain ⟨out, response, it⟩ := r
  cases out with
  | throws => cases hy
  | loops => cases hy
  | ret rc =>
      dsimp only at hy
      by_cases hneg : rc < 0
      · rw [if_pos hneg] at hy
        exact .inl (Option.some.inj hy).symm
      · rw [if_neg hneg] at hy
        by_cases hpos : rc > 0
        · rw [if_pos hpos] at hy
          exact .inl (Option.some.inj hy).symm
        · rw [if_neg hpos] at hy
          refine .inr ⟨response, ?_⟩
          rcases hh : handleResponse x response with ⟨z, go⟩
          rw [hh] at hy
          cases go with
          | false => exact (Option.some.inj hy).symm
          | true =>
              dsimp only at hy
              split at hy <;> exact (Option.some.inj hy).symm

/-- A handler that has to do with what `seen` shows only. -/
theorem Follows.seen {σ ρ α : Type} {view : σ → τ} {f : τ → α → τ × Bool} (seen : τ → ρ)
    {g : ρ → α → ρ × Bool} (hg : ∀ x a, g (seen x) a = (seen (f x a).1, (f x a).2)) {x : σ}
    {turn : Turn σ} {a : Answer α} (h : Follows view f inb x turn a) :
    Follows (fun y => seen (view y)) g inb x turn a := by
  cases a with
  | more m =>
      cases m with
      | incomplete =>
          obtain ⟨y, hturn, hview⟩ := h
          exact ⟨y, hturn, congrArg seen hview⟩
      | cut => trivial
  | fail e =>
      cases e with
      | error =>
          obtain ⟨y, hturn, hview⟩ := h
          exact ⟨y, hturn, congrArg seen hview⟩
      | outOfRange => exact h
  | done a rest =>
      obtain ⟨inb', y, hinb, hcont, hview, hgo⟩ := h
      refine ⟨inb', y, hinb, hcont, ?_, ?_⟩
      · rw [hg]
        exact congrArg seen hview
      · rw [hg]
        exact hgo

theorem clientTurn_follows (handleResponse : τ → Response → τ × Bool)
    (hb : Iterator.Readable inb) (x : τ) :
    Follows id handleResponse inb x (clientTurn handleResponse inb x)
      (responseSpec inb.content) := by
  cases hspec : responseSpec inb.content with
  | done a rest =>
      obtain ⟨it, hof, hread, hat⟩ := responseOf_done hb hspec
      have hcont : (inb.consume it.bytesRead).content = rest := by
        rw [hread]
        exact consume_rest hb (responseSpec_takes.shortens _ _ _ hspec)
      refine ⟨inb.consume it.bytesRead, (handleResponse x a).1, consume_readable hb _, hcont,
        rfl, ?_⟩
      rw [clientTurn, hof]
      rcases hh : handleResponse x a with ⟨y, go⟩
      cases go with
      | false => simp [hh]
      | true =>
          by_cases heob : it.eob (inb.consume it.bytesRead) = true
          · have hnil : rest = [] := by
              by_contra hne
              rw [eob_of_ne_nil hat hne] at heob
              cases heob
            simp [hh, heob, hnil]
          · simp [hh, heob]
  | more m =>
      have hrep := responseOf_reports hb
      rw [hspec] at hrep
      cases m with
      | incomplete =>
          rw [clientTurn]
          generalize responseOf inb = r at hrep ⊢
          obtain ⟨out, response, it⟩ := r
          obtain rfl : out = .ret 1 := hrep
          exact ⟨x, rfl, rfl⟩
      | cut => trivial
  | fail e =>
      have hrep := responseOf_reports hb
      rw [hspec] at hrep
      rw [clientTurn]
      generalize responseOf inb = r at hrep ⊢
      obtain ⟨out, response, it⟩ := r
      cases e with
      | error =>
          obtain rfl : out = .ret (-1) := hrep
          exact ⟨x, rfl, rfl⟩
      | outOfRange =>
          obtain rfl : out = .throws := hrep
          rfl

end

end ReadDone

end HttpServer
