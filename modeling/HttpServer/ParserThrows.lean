import HttpServer.BufferStall
import HttpServer.ParserWord

/-!
# What escapes from `parseResponse`

`parseResponse` takes the value of a line that contains `Content-Length:`
from byte 16 on, as `sizeof` counts the terminating zero. The one line
that contains these 15 bytes and is shorter is `Content-Length:` itself
(`contentSizeOf_none_iff`), and in a header that has it the constructor
of the string throws (`response_throws_iff`).

On a buffer whose read point has stalled, the loop of `parseLine` reads
the same byte for ever, unless it is a carriage return.
-/

namespace HttpServer

namespace Parser

open Incremental Buffer

/-! ## The short line -/

theorem contains_iff {s : List UInt8} : ∀ {l : List UInt8}, contains s l = true ↔ s <:+: l
  | [] => by simp [contains, List.isEmpty_iff]
  | x :: xs => by
      rw [contains, Bool.or_eq_true, List.isPrefixOf_iff_prefix, contains_iff,
        List.infix_cons_iff]

/-- The constructor of the string throws for one line only. -/
theorem contentSizeOf_none_iff {line : List UInt8} {size : ℕ} :
    contentSizeOf line size = none ↔ line = lengthString := by
  rw [contentSizeOf_eq_none]
  constructor
  · intro h
    have hc : contains lengthString line = true := by
      by_contra hno
      exact h fun hc => absurd hc hno
    have hshort : ¬sizeofLengthString ≤ line.length := fun hl => h fun _ => hl
    refine ((contains_iff.mp hc).eq_of_length_le ?_).symm
    exact Nat.le_of_lt_succ (not_le.mp hshort)
  · rintro rfl
    decide

/-- A status line and header lines, one of which is `Content-Length:`. -/
def HasBareLength (s : List UInt8) : Prop :=
  ∃ (status : List UInt8) (lines : List (List UInt8)) (rest : List UInt8), CR ∉ status
    ∧ (∀ l ∈ lines, l ≠ [] ∧ CR ∉ l) ∧ lengthString ∈ lines
    ∧ s = linesText (status :: lines) ++ rest

theorem bind_throws {α β : Type} {a : Answer α} {f : α → List UInt8 → Answer β} :
    a.bind f = .fail .outOfRange ↔
      a = .fail .outOfRange ∨ ∃ v rest, a = .done v rest ∧ f v rest = .fail .outOfRange := by
  cases a <;> simp

theorem lineFeedSpec_ne_throws (s : List UInt8) : lineFeedSpec s ≠ .fail .outOfRange := by
  cases s with
  | nil => simp [lineFeedSpec]
  | cons d s =>
      rw [lineFeedSpec]
      split <;> simp

theorem lineSpec_ne_throws : ∀ s : List UInt8, lineSpec s ≠ .fail .outOfRange
  | [] => by simp [lineSpec]
  | c :: s => by
      rw [lineSpec]
      split
      · exact lineFeedSpec_ne_throws s
      · intro h
        rcases bind_throws.mp h with h | ⟨line, rest, -, h⟩
        · exact lineSpec_ne_throws s h
        · cases h

theorem bodySpec_ne_throws (size : ℕ) (s : List UInt8) : bodySpec size s ≠ .fail .outOfRange := by
  rw [bodySpec]
  split <;> simp

theorem responseLinesSpec_throws_iff (rem : List UInt8) (size : ℕ) (s : List UInt8) :
    responseLinesSpec rem size s = .fail .outOfRange ↔
      ∃ lines rest, (∀ l ∈ lines, l ≠ [] ∧ CR ∉ l) ∧ lengthString ∈ lines
        ∧ s = linesText lines ++ rest := by
  induction s using lines_induction generalizing rem size with
  | h s ih =>
      rw [responseLinesSpec_eq, bind_throws, or_iff_right (lineSpec_ne_throws s)]
      constructor
      · rintro ⟨line, rest, hs, h⟩
        obtain ⟨hcr, rfl⟩ := lineSpec_done_iff.mp hs
        by_cases hline : line = []
        · rw [if_pos hline] at h
          cases h
        · rw [if_neg hline] at h
          cases hsize : contentSizeOf line size with
          | none =>
              refine ⟨[line], rest, List.forall_mem_singleton.mpr ⟨hline, hcr⟩, ?_, ?_⟩
              · rw [contentSizeOf_none_iff.mp hsize]
                exact List.mem_cons_self ..
              · exact (linesText_cons line [] rest).symm
          | some size' =>
              rw [hsize] at h
              obtain ⟨lines, rest', hlines, hbare, rfl⟩ := (ih line rest hs _ size').mp h
              exact ⟨line :: lines, rest', List.forall_mem_cons.mpr ⟨⟨hline, hcr⟩, hlines⟩,
                List.mem_cons_of_mem _ hbare, (linesText_cons ..).symm⟩
      · rintro ⟨lines, rest, hlines, hbare, rfl⟩
        cases lines with
        | nil => cases hbare
        | cons line lines =>
            obtain ⟨⟨hne, hcr⟩, hlines⟩ := List.forall_mem_cons.mp hlines
            have hs := lineSpec_done_iff.mpr ⟨hcr, linesText_cons line lines rest⟩
            refine ⟨line, linesText lines ++ rest, hs, ?_⟩
            rw [if_neg hne]
            cases hsize : contentSizeOf line size with
            | none => rfl
            | some size' =>
                -- the bare line is behind this one
                have hbare : lengthString ∈ lines := by
                  rcases List.mem_cons.mp hbare with rfl | hbare
                  · rw [contentSizeOf_none_iff.mpr rfl] at hsize
                    cases hsize
                  · exact hbare
                exact (ih _ _ hs _ size').mpr ⟨lines, rest, hlines, hbare, rfl⟩

theorem responseSpec_throws_iff (s : List UInt8) :
    responseSpec s = .fail .outOfRange ↔ HasBareLength s := by
  unfold responseSpec
  rw [bind_throws, or_iff_right (lineSpec_ne_throws s)]
  constructor
  · rintro ⟨status, rest, hs, h⟩
    obtain ⟨hstatus, rfl⟩ := lineSpec_done_iff.mp hs
    rcases bind_throws.mp h with h | ⟨header, rest', -, h⟩
    · obtain ⟨lines, rest', hlines, hbare, rfl⟩ := (responseLinesSpec_throws_iff ..).mp h
      exact ⟨status, lines, rest', hstatus, hlines, hbare, (linesText_cons ..).symm⟩
    · rcases bind_throws.mp h with h | ⟨body, rest'', -, h⟩
      · exact absurd h (bodySpec_ne_throws _ _)
      · cases h
  · rintro ⟨status, lines, rest, hstatus, hlines, hbare, rfl⟩
    refine ⟨status, linesText lines ++ rest,
      lineSpec_done_iff.mpr ⟨hstatus, linesText_cons ..⟩, ?_⟩
    rw [(responseLinesSpec_throws_iff ..).mpr ⟨lines, rest, hlines, hbare, rfl⟩]
    rfl

/-! ## A line feed behind the text

One more line feed makes an incomplete text no worse. On a cut text the
parser takes the byte behind the end for the line feed, if it is one, and
goes on as if the text had it. -/

theorem lineSpec_incomplete_iff : ∀ {s : List UInt8}, lineSpec s = .more .incomplete ↔ CR ∉ s
  | [] => by simp [lineSpec]
  | c :: s => by
      by_cases hc : c = CR
      · rw [lineSpec, if_pos hc]
        refine iff_of_false (fun h => ?_) fun hno => hno (hc ▸ List.mem_cons_self ..)
        cases s with
        | nil => cases h
        | cons d s =>
            rw [lineFeedSpec] at h
            split at h <;> cases h
      · rw [lineSpec, if_neg hc, Res.bind_eq_more, lineSpec_incomplete_iff, List.mem_cons, not_or]
        constructor
        · rintro (h | ⟨line, rest, -, h⟩)
          · exact ⟨fun heq => hc heq.symm, h⟩
          · cases h
        · rintro ⟨-, h⟩
          exact .inl h

theorem lineSpec_incomplete {s : List UInt8} (h : lineSpec s = .more .incomplete) :
    lineSpec (s ++ [LF]) = .more .incomplete := by
  rw [lineSpec_incomplete_iff] at h ⊢
  rw [List.mem_append, not_or]
  exact ⟨h, by decide⟩

theorem responseLinesSpec_incomplete (rem : List UInt8) (size : ℕ) (s : List UInt8)
    (h : responseLinesSpec rem size s = .more .incomplete) :
    responseLinesSpec rem size (s ++ [LF]) = .more .incomplete := by
  induction s using lines_induction generalizing rem size with
  | h s ih =>
      rw [responseLinesSpec_eq, Res.bind_eq_more] at h
      rw [responseLinesSpec_eq]
      rcases h with h | ⟨line, rest, hs, h⟩
      · rw [lineSpec_incomplete h, Res.bind_more]
      · rw [(lineSpec_stable s).done hs, Res.bind_done]
        by_cases hline : line = []
        · rw [if_pos hline] at h
          cases h
        · rw [if_neg hline] at h ⊢
          cases hsize : contentSizeOf line size with
          | none =>
              rw [hsize] at h
              cases h
          | some size' =>
              rw [hsize] at h
              exact ih line rest hs _ size' h

theorem responseSpec_incomplete {s : List UInt8} (h : responseSpec s = .more .incomplete) :
    responseSpec (s ++ [LF]) ≠ .fail .outOfRange := by
  unfold responseSpec at h ⊢
  rw [Res.bind_eq_more] at h
  rcases h with h | ⟨status, rest, hs, h⟩
  · rw [lineSpec_incomplete h, Res.bind_more]
    simp
  · rw [(lineSpec_stable s).done hs, Res.bind_done]
    rw [Res.bind_eq_more] at h
    rcases h with h | ⟨header, s₁, hh, -⟩
    · rw [responseLinesSpec_incomplete _ _ _ h, Res.bind_more]
      simp
    · rw [(responseLinesSpec_stable _ _ rest).done hh, Res.bind_done]
      intro hthrow
      rcases bind_throws.mp hthrow with h | ⟨body, rest', -, h⟩
      · exact bodySpec_ne_throws _ _ h
      · cases h

/-- The exception of an answer, with the line feed in place. -/
def exnOf {α : Type} : Answer α → Option Exn
  | .done _ _ => none
  | .more _ => some .incompleteInput
  | .fail .error => some .errorInRequest
  | .fail .outOfRange => some .outOfRange

section Cut

variable {total : ℕ}

theorem parseLineLoop_cut : ∀ (n : ℕ) (line res : List UInt8), line.length < n → CR ∉ line →
    parseLineLoop Text.cursor n ⟨line ++ [CR], LF, total⟩ res
      = (none, ⟨[], LF, total⟩, res ++ line)
  | 0, _, _, h, _ => absurd h (Nat.not_lt_zero _)
  | n + 1, [], res, _, _ => by simp [parseLineLoop, Text.cursor]
  | n + 1, c :: line, res, h, hcr => by
      rw [List.mem_cons, not_or] at hcr
      have hgo : parseLineLoop Text.cursor (n + 1) ⟨c :: (line ++ [CR]), LF, total⟩ res
          = parseLineLoop Text.cursor n ⟨line ++ [CR], LF, total⟩ (res ++ [c]) :=
        if_neg (Ne.symm hcr.1)
      rw [List.cons_append, hgo, parseLineLoop_cut n line _ (Nat.lt_of_succ_lt_succ h) hcr.2,
        List.append_assoc]
      rfl

theorem parseLine_cut {line : List UInt8} (hcr : CR ∉ line) (hle : (line ++ [CR]).length ≤ total) :
    parseLine Text.cursor ⟨line ++ [CR], LF, total⟩ [] = (none, ⟨[], LF, total⟩, line) := by
  have heob : Text.cursor.eob ⟨line ++ [CR], LF, total⟩ = false := by
    cases line <;> rfl
  rw [parseLine, heob, if_neg Bool.false_ne_true, fuel_text LF hle, parseLineLoop_cut _ _ _ ?_ hcr]
  · rfl
  · rw [List.length_append]
    exact Nat.lt_succ_of_le (Nat.le_add_right _ _)

/-- The header lines of a cut text, as of the text with the line feed. -/
structure Mended {α : Type} (total : ℕ) (r : Option Exn × Text × α) (a : Answer α) : Prop where
  exn : r.1 = exnOf a
  done : ∀ v rest, a = .done v rest → r = (none, ⟨[], LF, total⟩, v) ∧ rest = []

theorem responseLines_cut : ∀ (n : ℕ) {s : List UInt8} (rem : List UInt8) (size : ℕ),
    s.length < n → s.length ≤ total → responseLinesSpec rem size s = .more .cut →
    Mended total (responseLines Text.cursor n ⟨s, LF, total⟩ rem size)
      (responseLinesSpec rem size (s ++ [LF]))
  | 0, _, _, _, h, _, _ => absurd h (Nat.not_lt_zero _)
  | n + 1, s, rem, size, h, hle, hcut => by
      rw [responseLinesSpec_eq, Res.bind_eq_more] at hcut
      rw [responseLinesSpec_eq]
      rcases hcut with hcut | ⟨line, rest, hs, hcut⟩
      · obtain ⟨line, hcr, rfl⟩ := lineSpec_cut_iff.mp hcut
        have hmended : lineSpec (line ++ [CR] ++ [LF]) = .done line [] :=
          lineSpec_done_iff.mpr ⟨hcr, by simp⟩
        rw [hmended, Res.bind_done]
        simp only [responseLines, parseLine_cut hcr hle]
        by_cases hline : line = []
        · rw [if_pos hline, if_pos hline]
          refine ⟨rfl, fun v rest hv => ?_⟩
          obtain ⟨rfl, rfl⟩ := Res.done.inj hv
          exact ⟨rfl, rfl⟩
        · rw [if_neg hline, if_neg hline]
          cases contentSizeOf line size with
          | none => exact ⟨rfl, fun v rest hv => by cases hv⟩
          | some size' =>
              -- nothing follows the line feed
              obtain ⟨m, rfl⟩ : ∃ m, n = m + 1 := by
                rw [List.length_append, List.length_singleton] at h
                exact ⟨n - 1, by omega⟩
              have hnil : responseLinesSpec (rem ++ line) size' [] = .more .incomplete := by
                rw [responseLinesSpec_eq]
                rfl
              simp only [hnil]
              exact ⟨rfl, fun v rest hv => by cases hv⟩
      · have hline : Follows LF total _ _ := parseLine_spec hle
        rw [hs] at hline
        obtain ⟨hr, hrest⟩ := hline
        have hlt := lineSpec_length hs
        rw [(lineSpec_stable s).done hs, Res.bind_done]
        simp only [responseLines, hr]
        by_cases hline : line = []
        · rw [if_pos hline] at hcut
          cases hcut
        · rw [if_neg hline] at hcut ⊢
          rw [if_neg hline]
          cases hsize : contentSizeOf line size with
          | none =>
              rw [hsize] at hcut
              cases hcut
          | some size' =>
              rw [hsize] at hcut
              exact responseLines_cut n _ _ (by omega) hrest hcut

theorem responseBody_cut {s : List UInt8} (hle : s.length ≤ total)
    (hcut : responseSpec s = .more .cut) :
    (responseBody Text.cursor ⟨s, LF, total⟩).1 = exnOf (responseSpec (s ++ [LF])) := by
  unfold responseSpec at hcut ⊢
  rw [Res.bind_eq_more] at hcut
  rcases hcut with hcut | ⟨status, rest, hs, hcut⟩
  · obtain ⟨line, hcr, rfl⟩ := lineSpec_cut_iff.mp hcut
    have hmended : lineSpec (line ++ [CR] ++ [LF]) = .done line [] :=
      lineSpec_done_iff.mpr ⟨hcr, by simp⟩
    rw [hmended, Res.bind_done, responseLinesSpec_eq]
    simp only [responseBody, parseLine_cut hcr hle]
    have hfuel : fuel Text.cursor ⟨[], LF, total⟩ = 1 := fuel_text LF (Nat.zero_le _)
    rw [hfuel]
    rfl
  · have hline : Follows LF total _ _ := parseLine_spec hle
    rw [hs] at hline
    obtain ⟨hr, hrest⟩ := hline
    rw [(lineSpec_stable s).done hs, Res.bind_done]
    rw [Res.bind_eq_more] at hcut
    rcases hcut with hcut | ⟨header, s₁, -, hcut⟩
    · have hlines : Mended total _ _ :=
        responseLines_cut (rest.length + 1) [] 0 (Nat.lt_succ_self _) hrest hcut
      rw [← fuel_text LF hrest] at hlines
      have hthrow : ∀ e, exnOf (responseLinesSpec [] 0 (rest ++ [LF])) = some e →
          (responseBody Text.cursor ⟨s, LF, total⟩).1 = some e := fun e he => by
        rw [← hlines.exn] at he
        simp only [responseBody, hr]
        cases hx : responseLines Text.cursor (fuel Text.cursor ⟨rest, LF, total⟩) ⟨rest, LF, total⟩
            [] 0 with
        | mk e' r' =>
            rw [hx] at he
            obtain rfl : e' = some e := he
            rfl
      cases hspec : responseLinesSpec [] 0 (rest ++ [LF]) with
      | done v rest' =>
          obtain ⟨hr', rfl⟩ := hlines.done v rest' hspec
          simp only [responseBody, hr, hr', Res.bind_done, bodySpec]
          have hleft : Text.cursor.bytesTotal ⟨[], LF, total⟩
              - Text.cursor.bytesRead ⟨[], LF, total⟩ = 0 := Nat.sub_self total
          rw [hleft, List.length_nil]
          split
          · rfl
          · rfl
      | more m => exact hthrow _ (by rw [hspec]; rfl)
      | fail e =>
          cases e with
          | error => exact hthrow _ (by rw [hspec]; rfl)
          | outOfRange => exact hthrow _ (by rw [hspec]; rfl)
    · obtain ⟨_, _, _, h⟩ := (bind_cut (bodySpec_ne_cut header.2) _ _).mp hcut
      cases h

end Cut

/-! ## On a buffer -/

/-- `parseResponse` returns one of its codes. -/
def Returns (o : Outcome) : Prop := o = .ret (-1) ∨ o = .ret 0 ∨ o = .ret 1

theorem returns_exnOf {α : Type} (a : Answer α) :
    Returns (catchExn (exnOf a)) ↔ a ≠ .fail .outOfRange := by
  cases a with
  | done v rest => simp [Returns, exnOf, catchExn]
  | more m => simp [Returns, exnOf, catchExn]
  | fail e => cases e <;> simp [Returns, exnOf, catchExn]

theorem Reports.outcome {α : Type} {len : ℕ} {past : UInt8} {out : Outcome × α × ℕ} {a : Answer α}
    (h : Reports len past out a) (hcut : a ≠ .more .cut) : out.1 = catchExn (exnOf a) := by
  cases a with
  | done v rest => exact congrArg Prod.fst h
  | more m =>
      cases m with
      | incomplete => exact h
      | cut => exact absurd rfl hcut
  | fail e =>
      cases e with
      | error => exact h
      | outOfRange => exact h

/-- The line feed of the last line may be the byte behind the data. -/
def BareLength (b : Buffer) : Prop :=
  HasBareLength b.content ∨ (Iterator.past b = LF ∧ HasBareLength (b.content ++ [LF]))

theorem response_returns_iff {b : Buffer} (hb : Iterator.Readable b) :
    Returns (responseOf b).1 ↔ ¬BareLength b := by
  have hrep := responseOf_reports hb
  unfold BareLength
  rw [← responseSpec_throws_iff, ← responseSpec_throws_iff]
  by_cases hcut : responseSpec b.content = .more .cut
  · rw [hcut] at hrep ⊢
    by_cases hpast : Iterator.past b = LF
    · have hout : (responseOf b).1 = catchExn (exnOf (responseSpec (b.content ++ [LF]))) := by
        rw [(responseOf_text hb).1, hpast, ← responseBody_cut (Nat.le_refl _) hcut]
        rfl
      rw [hout, returns_exnOf]
      simp [hpast]
    · have hout : (responseOf b).1 = .ret (-1) := hrep hpast
      rw [hout]
      exact iff_of_true (.inl rfl) (by simp [hpast])
  · have hout : (responseOf b).1 = catchExn (exnOf (responseSpec b.content)) := hrep.outcome hcut
    rw [hout, returns_exnOf]
    -- the line feed makes no difference here
    have hsame : responseSpec (b.content ++ [LF]) = .fail .outOfRange →
        responseSpec b.content = .fail .outOfRange := fun h => by
      cases hspec : responseSpec b.content with
      | done v rest =>
          rw [(responseSpec_stable b.content).done hspec] at h
          cases h
      | more m =>
          cases m with
          | incomplete => exact absurd h (responseSpec_incomplete hspec)
          | cut => exact absurd hspec hcut
      | fail e =>
          rw [(responseSpec_stable b.content).fail hspec] at h
          rw [Res.fail.inj h]
    constructor
    · rintro hne (h | ⟨-, h⟩)
      · exact hne h
      · exact hne (hsame h)
    · exact fun h hthrow => h (.inl hthrow)

/-! ### A stalled read point -/

/-- The byte that an iterator reads where it starts. -/
def firstByte (b : Buffer) : UInt8 := (Iterator.begin b).getChar

theorem parseLineLoop_stalled {γ : Type} {C : Cursor γ} {it : γ} (heob : C.eob it = false)
    (hnext : C.next it = it) : ∀ (n : ℕ) (res : List UInt8), 0 < n →
    (parseLineLoop C n it res).1 = some (if C.getChar it = CR then .errorInRequest else .stuck)
  | 0, _, h => absurd h (Nat.lt_irrefl 0)
  | n + 1, res, _ => by
      by_cases hcr : C.getChar it = CR
      · have hlf : ¬CR = LF := by decide
        simp [parseLineLoop, heob, hnext, hcr, hlf]
      · have hgo : parseLineLoop C (n + 1) it res
            = parseLineLoop C n it (res ++ [C.getChar it]) := by
          simp [parseLineLoop, heob, hnext, hcr]
        rw [hgo]
        cases n with
        | zero => simp [parseLineLoop, hcr]
        | succ n => exact parseLineLoop_stalled heob hnext (n + 1) _ (Nat.succ_pos n)

/-- The iterator does not move, and does not see the end. -/
theorem begin_stalled {b : Buffer} (h : b.Inv) (hl : ¬b.Live) :
    Iterator.eob b (Iterator.begin b) = false ∧ Iterator.next b (Iterator.begin b) = .begin b := by
  unfold Buffer.Live at hl
  obtain ⟨hz, hw⟩ := Classical.not_imp.mp hl
  have hbudget : (Iterator.begin b).budget = 0 := hz
  have hend : ¬b.rpos.off < b.sizeAt b.rpos.idx := by
    unfold readSize at hz
    omega
  constructor
  · have hidx : b.rpos.idx ≠ b.wpos.idx := by
      rw [h.first]
      exact Ne.symm hw
    unfold Iterator.eob
    rw [if_neg (not_not.mpr hbudget)]
    simp [Iterator.begin, hidx]
  · unfold Iterator.next
    rw [if_neg (by rw [hbudget]; decide)]
    exact if_neg hend

theorem response_stalled {b : Buffer} (h : b.Inv) (hl : ¬b.Live) :
    (responseOf b).1 = if firstByte b = CR then .ret (-1) else .loops := by
  obtain ⟨heob, hnext⟩ := begin_stalled h hl
  have hline : (parseLine (Iterator.cursor b) (Iterator.begin b) []).1
      = some (if firstByte b = CR then .errorInRequest else .stuck) := by
    have heob' : (Iterator.cursor b).eob (Iterator.begin b) = false := heob
    rw [parseLine, heob', if_neg Bool.false_ne_true]
    exact parseLineLoop_stalled heob hnext _ _ (Nat.succ_pos _)
  cases hr : parseLine (Iterator.cursor b) (Iterator.begin b) [] with
  | mk e r =>
      rw [hr] at hline
      obtain rfl : e = _ := hline
      simp only [responseOf, parseResponse, responseBody, hr]
      split
      · rfl
      · rfl

/-- **`parseResponse` returns exactly when** the read point is live and no
header line is `Content-Length:`, or it has stalled in front of a carriage
return. -/
theorem parseResponse_returns_iff (heap : ℕ → ℕ → UInt8) (calls : List Call) :
    Returns (responseOf (runCalls heap calls)).1
      ↔ ((runCalls heap calls).Live ∧ ¬BareLength (runCalls heap calls))
        ∨ (¬(runCalls heap calls).Live ∧ firstByte (runCalls heap calls) = CR) := by
  by_cases hl : (runCalls heap calls).Live
  · rw [response_returns_iff ⟨(runCalls_reached heap calls).inv, hl⟩]
    simp [hl]
  · rw [response_stalled (runCalls_reached heap calls).inv hl]
    by_cases hcr : firstByte (runCalls heap calls) = CR
    · simp [hl, hcr, Returns]
    · simp [hl, hcr, Returns]

/-- `X`, and the header line `Content-Length:`. -/
def bareResponse : List UInt8 := [88, CR, LF] ++ lengthString ++ [CR, LF, CR, LF]

theorem bareResponse_throws : ¬∀ (heap : ℕ → ℕ → UInt8) (calls : List Call),
    Returns (responseOf (runCalls heap calls)).1 := by
  intro hall
  have hret := hall (fun _ _ => 0) [.op (.write bareResponse)]
  have hthrow : (responseOf (runCalls (fun _ _ => 0) [.op (.write bareResponse)])).1 = .throws := by
    decide +kernel
  rw [hthrow] at hret
  rcases hret with h | h | h
  · cases h
  · cases h
  · cases h

end Parser

end HttpServer
