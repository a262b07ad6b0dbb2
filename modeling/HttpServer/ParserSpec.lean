import HttpServer.ParserText
import HttpServer.Lib.Incremental

/-!
# The parser as a recogniser

Over plain text each helper of the parser is a recogniser: it returns
with the text left over, runs out of text, or fails. `parseLine` has a
second way to run out of text. After a carriage return it reads the next
byte without testing whether there is one; a text that ends in this
carriage return is `cut`, and the answer then depends on the byte behind
the end of the data (`lineSpec`).

`requestSpec` and `responseSpec` put the recognisers together. Where
they do not answer `cut` the parser returns what they answer, for every
byte behind the text; on a cut text it reports an error unless that byte
happens to be a line feed (`requestBody_spec`, `responseBody_spec`).
-/

namespace HttpServer

namespace Parser

open Incremental

/-- The ways to run out of text. -/
inductive More where
  | incomplete
  | cut
deriving DecidableEq, Repr

/-- The ways to fail. -/
inductive Fail where
  | error
  | outOfRange
deriving DecidableEq, Repr

abbrev Answer (α : Type) := Res UInt8 More Fail α

/-! ## The recognisers -/

/-- A byte that does not end a word. -/
def wordByte (c : UInt8) : Bool := c ≠ SP ∧ c ≠ CR

def stringSpec (s : List UInt8) : Answer (List UInt8) :=
  match s.dropWhile wordByte with
  | [] => .more .incomplete
  | x :: xs => .done (s.takeWhile wordByte) (x :: xs)

/-- Behind the carriage return that ends a line. -/
def lineFeedSpec : List UInt8 → Answer (List UInt8)
  | [] => .more .cut
  | d :: s => if d = LF then .done [] s else .fail .error

def lineSpec : List UInt8 → Answer (List UInt8)
  | [] => .more .incomplete
  | c :: s =>
      if c = CR then lineFeedSpec s
      else (lineSpec s).bind fun line rest => .done (c :: line) rest

def charSpec (c : UInt8) : List UInt8 → Answer Unit
  | [] => .more .incomplete
  | x :: s => if x ≠ c then .fail .error else .done () s

def newLineSpec : List UInt8 → Answer Unit
  | [] => .more .incomplete
  | [_] => .more .incomplete
  | x :: y :: s => if x ≠ CR ∨ y ≠ LF then .fail .error else .done () s

theorem lineSpec_shrinks : ∀ {s line rest : List UInt8}, lineSpec s = .done line rest →
    s = line ++ CR :: LF :: rest
  | [], _, _, h => by cases h
  | c :: s, line, rest, h => by
      rw [lineSpec] at h
      by_cases hc : c = CR
      · rw [if_pos hc] at h
        cases s with
        | nil => cases h
        | cons d s =>
            simp only [lineFeedSpec] at h
            by_cases hd : d = LF
            · rw [if_pos hd, Res.done.injEq] at h
              obtain ⟨rfl, rfl⟩ := h
              rw [hc, hd, List.nil_append]
            · rw [if_neg hd] at h
              cases h
      · rw [if_neg hc] at h
        cases hs : lineSpec s with
        | done line' rest' =>
            rw [hs, Res.bind_done, Res.done.injEq] at h
            obtain ⟨rfl, rfl⟩ := h
            rw [lineSpec_shrinks hs, List.cons_append]
        | more m => rw [hs] at h; cases h
        | fail e => rw [hs] at h; cases h

theorem lineSpec_length {s line rest : List UInt8} (h : lineSpec s = .done line rest) :
    rest.length < s.length := by
  rw [lineSpec_shrinks h]
  simp only [List.length_append, List.length_cons]
  omega

/-- Induction over the lines of a text. -/
theorem lines_induction {P : List UInt8 → Prop}
    (h : ∀ s, (∀ line rest, lineSpec s = .done line rest → P rest) → P s) (s : List UInt8) :
    P s := by
  induction hn : s.length using Nat.strongRecOn generalizing s with
  | ind n ih =>
      refine h s fun line rest hs => ih rest.length ?_ rest rfl
      rw [← hn]
      exact lineSpec_length hs

/-- The header lines of a request. -/
def requestLinesSpec (s : List UInt8) : Answer Unit :=
  match _h : lineSpec s with
  | .done line rest => if line.length = 0 then .done () rest else requestLinesSpec rest
  | .more m => .more m
  | .fail e => .fail e
termination_by s.length
decreasing_by exact lineSpec_length _h

/-- The header lines of a response, from a remainder and a size on. -/
def responseLinesSpec (rem : List UInt8) (size : ℕ) (s : List UInt8) : Answer (List UInt8 × ℕ) :=
  match _h : lineSpec s with
  | .done line rest =>
      if line = [] then .done (rem, size) rest
      else
        match contentSizeOf line size with
        | none => .fail .outOfRange
        | some size => responseLinesSpec (rem ++ line) size rest
  | .more m => .more m
  | .fail e => .fail e
termination_by s.length
decreasing_by exact lineSpec_length _h

def bodySpec (size : ℕ) (s : List UInt8) : Answer (List UInt8) :=
  if s.length < size then .more .incomplete else .done (s.take size) (s.drop size)

def requestSpec (s : List UInt8) : Answer Request :=
  (stringSpec s).bind fun method s =>
  (charSpec SP s).bind fun _ s =>
  (charSpec SLASH s).bind fun _ s =>
  (stringSpec s).bind fun address s =>
  (charSpec SP s).bind fun _ s =>
  (stringSpec s).bind fun version s =>
  (newLineSpec s).bind fun _ s =>
  (requestLinesSpec s).bind fun _ s =>
  .done ⟨method, address, version⟩ s

def responseSpec (s : List UInt8) : Answer Response :=
  (lineSpec s).bind fun status s =>
  (responseLinesSpec [] 0 s).bind fun header s =>
  (bodySpec header.2 s).bind fun body s =>
  .done ⟨status, header.1, body⟩ s

theorem requestLinesSpec_eq (s : List UInt8) : requestLinesSpec s =
    (lineSpec s).bind fun line rest =>
      if line.length = 0 then .done () rest else requestLinesSpec rest := by
  rw [requestLinesSpec.eq_def]
  split <;> simp_all

theorem responseLinesSpec_eq (rem : List UInt8) (size : ℕ) (s : List UInt8) :
    responseLinesSpec rem size s = (lineSpec s).bind fun line rest =>
      if line = [] then .done (rem, size) rest
      else
        match contentSizeOf line size with
        | none => .fail .outOfRange
        | some size => responseLinesSpec (rem ++ line) size rest := by
  rw [responseLinesSpec.eq_def]
  split <;> simp_all

/-! ## The parser follows them -/

/-- The result of a helper on a text with `past` behind its end agrees
with an answer. On a cut text nothing is said for the one byte that
looks like the missing line feed. -/
def Follows {α : Type} (past : UInt8) (total : ℕ) (r : Option Exn × Text × α) : Answer α → Prop
  | .done a rest => r = (none, ⟨rest, past, total⟩, a) ∧ rest.length ≤ total
  | .more .incomplete => r.1 = some .incompleteInput
  | .more .cut => past ≠ LF → r.1 = some .errorInRequest
  | .fail .error => r.1 = some .errorInRequest
  | .fail .outOfRange => r.1 = some .outOfRange

/-- The same for the helpers without a value. -/
def FollowsPos (past : UInt8) (total : ℕ) (r : Option Exn × Text) (a : Answer Unit) : Prop :=
  Follows past total (r.1, r.2, ()) a

section

variable {past : UInt8} {total : ℕ} {s : List UInt8}

/-- A call followed by the rest of the block: an exception of the call
leaves the block, else the rest runs where the call returned. -/
theorem Follows.bind {α β : Type} {r : Option Exn × Text × α} {a : Answer α}
    {r' : Option Exn × Text × β} {f : α → List UInt8 → Answer β} (h : Follows past total r a)
    (hexn : ∀ e t v, r = (some e, t, v) → r'.1 = some e)
    (hgo : ∀ v rest, a = .done v rest → r = (none, ⟨rest, past, total⟩, v) →
      rest.length ≤ total → Follows past total r' (f v rest)) :
    Follows past total r' (a.bind f) := by
  have hthrow : ∀ {e}, r.1 = some e → r'.1 = some e := fun {e} he => by
    refine hexn e r.2.1 r.2.2 ?_
    rw [← he]
  cases a with
  | done v rest => exact hgo v rest rfl h.1 h.2
  | more m =>
      cases m with
      | incomplete => exact hthrow h
      | cut => exact fun hp => hthrow (h hp)
  | fail f =>
      cases f with
      | error => exact hthrow h
      | outOfRange => exact hthrow h

theorem FollowsPos.bind {β : Type} {r : Option Exn × Text} {a : Answer Unit}
    {r' : Option Exn × Text × β} {f : Unit → List UInt8 → Answer β} (h : FollowsPos past total r a)
    (hexn : ∀ e t, r = (some e, t) → r'.1 = some e)
    (hgo : ∀ rest, r = (none, ⟨rest, past, total⟩) → rest.length ≤ total →
      Follows past total r' (f () rest)) :
    Follows past total r' (a.bind f) := by
  refine Follows.bind h (fun e t v hr => hexn e t ?_) (fun v rest _ hr => hgo rest ?_)
  · simp only [Prod.mk.injEq] at hr
    exact Prod.ext hr.1 hr.2.1
  · simp only [Prod.mk.injEq] at hr
    exact Prod.ext hr.1 hr.2.1

theorem fuel_text (past : UInt8) (h : s.length ≤ total) :
    fuel Text.cursor ⟨s, past, total⟩ = s.length + 1 := by
  show total - (total - s.length) + 1 = s.length + 1
  omega

theorem parseStringLoop_spec : ∀ (n : ℕ) (s res : List UInt8), s.length < n →
    parseStringLoop Text.cursor n ⟨s, past, total⟩ res
      = (none, ⟨s.dropWhile wordByte, past, total⟩, res ++ s.takeWhile wordByte)
  | 0, _, _, h => absurd h (Nat.not_lt_zero _)
  | n + 1, [], res, _ => by simp [parseStringLoop]
  | n + 1, c :: s, res, h => by
      have ih := parseStringLoop_spec n s (res ++ [c]) (by simpa using h)
      by_cases hsp : c = SP
      · simp [parseStringLoop, hsp, wordByte]
      · by_cases hcr : c = CR
        · simp [parseStringLoop, hcr, wordByte]
        · have hw : wordByte c = true := by simp [wordByte, hsp, hcr]
          simp [parseStringLoop, hsp, hcr, hw, ih]

theorem parseString_spec (h : s.length ≤ total) :
    Follows past total (parseString Text.cursor ⟨s, past, total⟩ []) (stringSpec s) := by
  rw [parseString, fuel_text past h, parseStringLoop_spec _ s [] (Nat.lt_succ_self _), stringSpec]
  cases s with
  | nil => rfl
  | cons c s =>
      have hle := (List.dropWhile_suffix (l := c :: s) wordByte).length_le
      cases hd : (c :: s).dropWhile wordByte with
      | nil => simp [Follows]
      | cons x xs =>
          rw [hd] at hle
          simp only [Text.eob_cons, Bool.false_eq_true, if_false, List.nil_append]
          exact ⟨rfl, Nat.le_trans hle h⟩

theorem skipChar_spec (c : UInt8) (h : s.length ≤ total) :
    FollowsPos past total (skipChar Text.cursor ⟨s, past, total⟩ c) (charSpec c s) := by
  cases s with
  | nil => rfl
  | cons x s =>
      by_cases hx : x = c
      · have hle : s.length ≤ total := Nat.le_of_succ_le h
        simp [skipChar, charSpec, hx, FollowsPos, Follows, hle]
      · simp [skipChar, charSpec, hx, FollowsPos, Follows]

theorem skipNewLine_spec (h : s.length ≤ total) :
    FollowsPos past total (skipNewLine Text.cursor ⟨s, past, total⟩) (newLineSpec s) := by
  match s with
  | [] => rfl
  | [_] => rfl
  | x :: y :: s =>
      by_cases hxy : x ≠ CR ∨ y ≠ LF
      · have hr : skipNewLine Text.cursor ⟨x :: y :: s, past, total⟩
            = (some .errorInRequest, ⟨y :: s, past, total⟩) := if_pos hxy
        rw [hr, newLineSpec, if_pos hxy]
        rfl
      · have hr : skipNewLine Text.cursor ⟨x :: y :: s, past, total⟩
            = (none, ⟨s, past, total⟩) := if_neg hxy
        rw [hr, newLineSpec, if_neg hxy]
        exact ⟨rfl, Nat.le_trans (Nat.le_add_right _ 2) h⟩

theorem parseLineLoop_spec : ∀ (n : ℕ) (s res : List UInt8), s.length < n → s.length ≤ total →
    Follows past total (parseLineLoop Text.cursor n ⟨s, past, total⟩ res)
      ((lineSpec s).bind fun line rest => .done (res ++ line) rest)
  | 0, _, _, h, _ => absurd h (Nat.not_lt_zero _)
  | n + 1, [], res, _, _ => rfl
  | n + 1, c :: s, res, h, hle => by
      rw [List.length_cons] at h hle
      by_cases hcr : c = CR
      · rw [lineSpec, if_pos hcr]
        cases s with
        | nil =>
            intro hp
            simp [parseLineLoop, hcr, hp]
        | cons d s =>
            rw [List.length_cons] at hle
            by_cases hd : d = LF
            · simp [parseLineLoop, hcr, hd, lineFeedSpec, Follows]
              omega
            · simp [parseLineLoop, hcr, hd, lineFeedSpec, Follows]
      · have hf : Follows past total _ _ :=
          parseLineLoop_spec n s (res ++ [c]) (by omega) (by omega)
        have hgo : parseLineLoop Text.cursor (n + 1) ⟨c :: s, past, total⟩ res
            = parseLineLoop Text.cursor n ⟨s, past, total⟩ (res ++ [c]) := if_neg hcr
        rw [hgo, lineSpec, if_neg hcr]
        cases hs : lineSpec s with
        | done line rest => simpa [hs] using hf
        | more m => simpa [hs] using hf
        | fail f => simpa [hs] using hf

theorem parseLine_spec (h : s.length ≤ total) :
    Follows past total (parseLine Text.cursor ⟨s, past, total⟩ []) (lineSpec s) := by
  cases s with
  | nil => exact rfl
  | cons c s =>
      have hf : Follows past total _ _ :=
        parseLineLoop_spec _ (c :: s) [] (Nat.lt_succ_self (c :: s).length) h
      rw [parseLine, fuel_text past h, Text.eob_cons, if_neg Bool.false_ne_true]
      cases hs : lineSpec (c :: s) with
      | done line rest => simpa [hs] using hf
      | more m => simpa [hs] using hf
      | fail f => simpa [hs] using hf

theorem requestLines_spec : ∀ (n : ℕ) {s : List UInt8}, s.length < n → s.length ≤ total →
    FollowsPos past total (requestLines Text.cursor n ⟨s, past, total⟩) (requestLinesSpec s)
  | 0, _, h, _ => absurd h (Nat.not_lt_zero _)
  | n + 1, s, h, hle => by
      rw [requestLinesSpec_eq]
      refine Follows.bind (parseLine_spec hle) ?_ ?_
      · intro e t v hr
        simp only [requestLines, hr]
      · intro line rest hs hr hrest
        have hlt := lineSpec_length hs
        simp only [requestLines, hr]
        split
        · exact ⟨rfl, hrest⟩
        · exact requestLines_spec n (by omega) hrest

theorem requestBody_spec (h : s.length ≤ total) :
    Follows past total (requestBody Text.cursor ⟨s, past, total⟩) (requestSpec s) := by
  unfold requestSpec
  refine Follows.bind (parseString_spec h) (fun e t v hr => ?_) fun method s _ hr₁ h => ?_
  · simp only [requestBody, hr]
  refine FollowsPos.bind (skipChar_spec SP h) (fun e t hr => ?_) fun s hr₂ h => ?_
  · simp only [requestBody, hr₁, hr]
  refine FollowsPos.bind (skipChar_spec SLASH h) (fun e t hr => ?_) fun s hr₃ h => ?_
  · simp only [requestBody, hr₁, hr₂, hr]
  refine Follows.bind (parseString_spec h) (fun e t v hr => ?_) fun address s _ hr₄ h => ?_
  · simp only [requestBody, hr₁, hr₂, hr₃, hr]
  refine FollowsPos.bind (skipChar_spec SP h) (fun e t hr => ?_) fun s hr₅ h => ?_
  · simp only [requestBody, hr₁, hr₂, hr₃, hr₄, hr]
  refine Follows.bind (parseString_spec h) (fun e t v hr => ?_) fun version s _ hr₆ h => ?_
  · simp only [requestBody, hr₁, hr₂, hr₃, hr₄, hr₅, hr]
  refine FollowsPos.bind (skipNewLine_spec h) (fun e t hr => ?_) fun s hr₇ h => ?_
  · simp only [requestBody, hr₁, hr₂, hr₃, hr₄, hr₅, hr₆, hr]
  have hlines : FollowsPos past total _ _ := requestLines_spec (s.length + 1) (Nat.lt_succ_self _) h
  rw [← fuel_text past h] at hlines
  refine FollowsPos.bind hlines (fun e t hr => ?_) fun s hr₈ h => ?_
  · simp only [requestBody, hr₁, hr₂, hr₃, hr₄, hr₅, hr₆, hr₇, hr]
  · simp only [requestBody, hr₁, hr₂, hr₃, hr₄, hr₅, hr₆, hr₇, hr₈]
    exact ⟨rfl, h⟩

theorem responseLines_spec : ∀ (n : ℕ) {s : List UInt8} (rem : List UInt8) (size : ℕ),
    s.length < n → s.length ≤ total →
    Follows past total (responseLines Text.cursor n ⟨s, past, total⟩ rem size)
      (responseLinesSpec rem size s)
  | 0, _, _, _, h, _ => absurd h (Nat.not_lt_zero _)
  | n + 1, s, rem, size, h, hle => by
      rw [responseLinesSpec_eq]
      refine Follows.bind (parseLine_spec hle) ?_ ?_
      · intro e t v hr
        simp only [responseLines, hr]
      · intro line rest hs hr hrest
        have hlt := lineSpec_length hs
        simp only [responseLines, hr]
        split
        · exact ⟨rfl, hrest⟩
        · cases contentSizeOf line size with
          | none => rfl
          | some size' => exact responseLines_spec n _ _ (by omega) hrest

theorem bodyLoop_spec : ∀ (size : ℕ) {s : List UInt8} (body : List UInt8), size ≤ s.length →
    bodyLoop Text.cursor size ⟨s, past, total⟩ body
      = (⟨s.drop size, past, total⟩, body ++ s.take size)
  | 0, _, _, _ => by simp [bodyLoop]
  | n + 1, [], _, h => by simp at h
  | n + 1, c :: s, body, h => by
      rw [bodyLoop, Text.getChar_cons, Text.next_cons, bodyLoop_spec n _ (by simpa using h)]
      simp

theorem responseBody_spec (h : s.length ≤ total) :
    Follows past total (responseBody Text.cursor ⟨s, past, total⟩) (responseSpec s) := by
  unfold responseSpec
  refine Follows.bind (parseLine_spec h) (fun e t v hr => ?_) fun status s _ hr₁ h => ?_
  · simp only [responseBody, hr]
  have hlines : Follows past total _ _ :=
    responseLines_spec (s.length + 1) [] 0 (Nat.lt_succ_self _) h
  rw [← fuel_text past h] at hlines
  refine Follows.bind hlines (fun e t v hr => ?_) fun header s _ hr₂ h => ?_
  · simp only [responseBody, hr₁, hr]
  have hleft : Text.cursor.bytesTotal ⟨s, past, total⟩ - Text.cursor.bytesRead ⟨s, past, total⟩
      = s.length := by
    show total - (total - s.length) = s.length
    omega
  simp only [responseBody, hr₁, hr₂, hleft, bodySpec]
  by_cases hsize : s.length < header.2
  · rw [if_pos hsize, if_pos hsize]
    rfl
  · rw [if_neg hsize, if_neg hsize, bodyLoop_spec _ _ (by omega)]
    refine ⟨rfl, ?_⟩
    rw [List.length_drop]
    omega

end

end Parser

end HttpServer
