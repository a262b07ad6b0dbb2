import Mathlib.Data.List.TakeWhile
import HttpServer.ParserSpec

/-!
# Cut texts

Every recogniser is stable: its definitive answers do not change when
more text arrives (`requestSpec_stable`, `responseSpec_stable`). What is
left are the texts that end in the carriage return of a line.
`CutRequest` and `CutResponse` say which texts these are, and the line
feed that completes the line makes each of them a text that is not in
error (`requestSpec_mends`, `responseSpec_mends`).
-/

namespace HttpServer

namespace Parser

open Incremental

/-! ## The recognisers are stable -/

theorem stringSpec_stable : Stable stringSpec := by
  intro s
  cases hd : s.dropWhile wordByte with
  | nil => exact .ofMore (by rw [stringSpec, hd])
  | cons x xs =>
      have hlen : (s.takeWhile wordByte).length ≠ s.length := by
        intro heq
        have := congrArg List.length (List.takeWhile_append_dropWhile (p := wordByte) (l := s))
        rw [hd, List.length_append, List.length_cons] at this
        omega
      refine .ofDone (a := s.takeWhile wordByte) (by rw [stringSpec, hd]) fun t => ?_
      rw [stringSpec, List.dropWhile_append, List.takeWhile_append, if_neg hlen, hd]
      rfl

theorem charSpec_stable (c : UInt8) : Stable (charSpec c) := by
  intro s
  cases s with
  | nil => exact .ofMore rfl
  | cons x s =>
      by_cases hx : x ≠ c
      · exact .ofFail (if_pos hx) fun t => if_pos hx
      · exact .ofDone (if_neg hx) fun t => if_neg hx

theorem newLineSpec_stable : Stable newLineSpec := by
  intro s
  match s with
  | [] => exact .ofMore rfl
  | [_] => exact .ofMore rfl
  | x :: y :: s =>
      by_cases hxy : x ≠ CR ∨ y ≠ LF
      · exact .ofFail (if_pos hxy) fun t => if_pos hxy
      · exact .ofDone (if_neg hxy) fun t => if_neg hxy

theorem lineFeedSpec_stable : Stable lineFeedSpec := by
  intro s
  cases s with
  | nil => exact .ofMore rfl
  | cons d s =>
      by_cases hd : d = LF
      · exact .ofDone (if_pos hd) fun t => if_pos hd
      · exact .ofFail (if_neg hd) fun t => if_neg hd

theorem lineSpec_stable : Stable lineSpec := by
  intro s
  induction s with
  | nil => exact .ofMore rfl
  | cons c s ih =>
      by_cases hc : c = CR
      · have hl := lineFeedSpec_stable s
        have heq : ∀ s, lineSpec (c :: s) = lineFeedSpec s := fun s => if_pos hc
        refine ⟨fun h t => ?_, fun h t => ?_⟩
        · rw [heq] at h
          exact (heq _).trans (hl.done h t)
        · rw [heq] at h
          exact (heq _).trans (hl.fail h t)
      · have hl := ih.bind fun line rest _ => stable_done (c :: line) rest
        have heq : ∀ s, lineSpec (c :: s)
            = (lineSpec s).bind fun line rest => .done (c :: line) rest := fun s => if_neg hc
        refine ⟨fun h t => ?_, fun h t => ?_⟩
        · rw [heq] at h
          exact (heq _).trans (hl.done h t)
        · rw [heq] at h
          exact (heq _).trans (hl.fail h t)

theorem requestLinesSpec_stable : Stable requestLinesSpec := by
  intro s
  induction s using lines_induction with
  | h s ih =>
      rw [funext requestLinesSpec_eq]
      refine (lineSpec_stable s).bind fun line rest hs => ?_
      by_cases hline : line.length = 0
      · simp only [if_pos hline]
        exact stable_done () rest
      · simp only [if_neg hline]
        exact ih line rest hs

theorem responseLinesSpec_stable (rem : List UInt8) (size : ℕ) :
    Stable (responseLinesSpec rem size) := by
  intro s
  induction s using lines_induction generalizing rem size with
  | h s ih =>
      rw [funext (responseLinesSpec_eq rem size)]
      refine (lineSpec_stable s).bind fun line rest hs => ?_
      by_cases hline : line = []
      · simp only [if_pos hline]
        exact stable_done (rem, size) rest
      · simp only [if_neg hline]
        cases contentSizeOf line size with
        | none => exact .ofFail rfl fun t => rfl
        | some size' => exact ih line rest hs _ _

theorem bodySpec_stable (size : ℕ) : Stable (bodySpec size) := by
  intro s
  by_cases hs : s.length < size
  · exact .ofMore (if_pos hs)
  · refine .ofDone (if_neg hs) fun t => ?_
    rw [bodySpec, if_neg (by rw [List.length_append]; omega),
      List.take_append_of_le_length (by omega), List.drop_append_of_le_length (by omega)]

theorem requestSpec_stable : Stable requestSpec :=
  stringSpec_stable.bind fun _ =>
  (charSpec_stable SP).bind fun _ =>
  (charSpec_stable SLASH).bind fun _ =>
  stringSpec_stable.bind fun _ =>
  (charSpec_stable SP).bind fun _ =>
  stringSpec_stable.bind fun _ =>
  newLineSpec_stable.bind fun _ =>
  requestLinesSpec_stable.bind fun _ =>
  stable_done _

theorem responseSpec_stable : Stable responseSpec :=
  lineSpec_stable.bind fun _ =>
  (responseLinesSpec_stable [] 0).bind fun header =>
  (bodySpec_stable header.2).bind fun _ =>
  stable_done _

/-! ## Cut texts -/

/-- The given lines, each with its line end. -/
def linesText (lines : List (List UInt8)) : List UInt8 :=
  (lines.map fun line => line ++ [CR, LF]).flatten

/-- A request up to the carriage return of a header line (or of the
empty line): request line, header lines, part of the last line end. -/
def CutRequest (s : List UInt8) : Prop :=
  ∃ (method address version : List UInt8) (lines : List (List UInt8)) (line : List UInt8),
    (∀ w ∈ [method, address, version], ∀ c ∈ w, c ≠ SP ∧ c ≠ CR)
      ∧ (∀ l ∈ lines, l ≠ [] ∧ CR ∉ l) ∧ CR ∉ line
      ∧ s = method ++ SP :: SLASH :: (address ++ SP :: (version ++ CR :: LF ::
          (linesText lines ++ (line ++ [CR]))))

/-- A response up to the carriage return of its status line, of a header
line or of the empty line. The lines behind the status line are header
lines the parser gets past. -/
def CutResponse (s : List UInt8) : Prop :=
  ∃ (lines : List (List UInt8)) (line : List UInt8),
    (∀ l ∈ lines, CR ∉ l)
      ∧ (∀ l ∈ lines.tail, l ≠ [] ∧ (contains lengthString l → sizeofLengthString ≤ l.length))
      ∧ CR ∉ line ∧ s = linesText lines ++ (line ++ [CR])

theorem linesText_cons (line : List UInt8) (lines : List (List UInt8)) (s : List UInt8) :
    linesText (line :: lines) ++ s = line ++ CR :: LF :: (linesText lines ++ s) := by
  simp [linesText]

theorem lineSpec_done_iff : ∀ {s line rest : List UInt8},
    lineSpec s = .done line rest ↔ CR ∉ line ∧ s = line ++ CR :: LF :: rest
  | [], line, rest => by simp [lineSpec]
  | c :: s, line, rest => by
      constructor
      · intro h
        refine ⟨?_, lineSpec_shrinks h⟩
        by_cases hc : c = CR
        · have hnil : line = [] := by
            rw [lineSpec, if_pos hc] at h
            cases s with
            | nil => cases h
            | cons d s =>
                rw [lineFeedSpec] at h
                split at h
                · rw [Res.done.injEq] at h
                  exact h.1.symm
                · cases h
          simp [hnil]
        · rw [lineSpec, if_neg hc] at h
          cases hs : lineSpec s with
          | done line' rest' =>
              rw [hs, Res.bind_done, Res.done.injEq] at h
              obtain ⟨rfl, rfl⟩ := h
              simp only [List.mem_cons, not_or]
              exact ⟨fun heq => hc heq.symm, (lineSpec_done_iff.mp hs).1⟩
          | more m => rw [hs] at h; cases h
          | fail e => rw [hs] at h; cases h
      · rintro ⟨hcr, heq⟩
        cases line with
        | nil =>
            obtain ⟨rfl, rfl⟩ := List.cons.inj heq
            rfl
        | cons d line =>
            rw [List.cons_append, List.cons.injEq] at heq
            obtain ⟨rfl, rfl⟩ := heq
            simp only [List.mem_cons, not_or] at hcr
            rw [lineSpec, if_neg (Ne.symm hcr.1), lineSpec_done_iff.mpr ⟨hcr.2, rfl⟩]
            rfl

theorem lineSpec_cut_iff : ∀ {s : List UInt8},
    lineSpec s = .more .cut ↔ ∃ line, CR ∉ line ∧ s = line ++ [CR]
  | [] => by simp [lineSpec]
  | c :: s => by
      by_cases hc : c = CR
      · rw [lineSpec, if_pos hc]
        constructor
        · intro h
          cases s with
          | nil => exact ⟨[], by simp, by rw [hc]; rfl⟩
          | cons d s =>
              rw [lineFeedSpec] at h
              split at h <;> cases h
        · rintro ⟨line, hcr, heq⟩
          cases line with
          | nil =>
              obtain ⟨-, rfl⟩ := List.cons.inj heq
              rfl
          | cons d line =>
              obtain ⟨rfl, -⟩ := List.cons.inj heq
              exact absurd (List.mem_cons_self ..) (hc ▸ hcr)
      · rw [lineSpec, if_neg hc, Res.bind_eq_more]
        constructor
        · rintro (h | ⟨line, rest, -, h⟩)
          · obtain ⟨line, hcr, rfl⟩ := lineSpec_cut_iff.mp h
            refine ⟨c :: line, ?_, rfl⟩
            simp only [List.mem_cons, not_or]
            exact ⟨fun heq => hc heq.symm, hcr⟩
          · cases h
        · rintro ⟨line, hcr, heq⟩
          cases line with
          | nil => exact absurd (List.cons.inj heq).1 hc
          | cons d line =>
              obtain ⟨rfl, rfl⟩ := List.cons.inj heq
              simp only [List.mem_cons, not_or] at hcr
              exact .inl (lineSpec_cut_iff.mpr ⟨line, hcr.2, rfl⟩)

theorem stringSpec_done_iff {s w rest : List UInt8} :
    stringSpec s = .done w rest ↔
      (∀ c ∈ w, wordByte c) ∧ s = w ++ rest ∧ ∃ x xs, rest = x :: xs ∧ wordByte x = false := by
  constructor
  · intro h
    rw [stringSpec] at h
    cases hd : s.dropWhile wordByte with
    | nil => rw [hd] at h; cases h
    | cons x xs =>
        rw [hd, Res.done.injEq] at h
        obtain ⟨rfl, rfl⟩ := h
        refine ⟨fun c hc => List.mem_takeWhile_imp hc, ?_, x, xs, rfl, ?_⟩
        · rw [← hd, List.takeWhile_append_dropWhile]
        · have := List.head?_dropWhile_not wordByte s
          rw [hd] at this
          simpa using this
  · rintro ⟨hw, rfl, x, xs, rfl, hx⟩
    have hdrop : (w ++ x :: xs).dropWhile wordByte = x :: xs := by
      rw [List.dropWhile_append, List.dropWhile_eq_nil_iff.mpr hw]
      simp [hx]
    have htake : (w ++ x :: xs).takeWhile wordByte = w := by
      rw [List.takeWhile_append_of_pos hw]
      simp [hx]
    rw [stringSpec, hdrop, htake]

theorem charSpec_done_iff {c : UInt8} {s rest : List UInt8} {u : Unit} :
    charSpec c s = .done u rest ↔ s = c :: rest := by
  cases s with
  | nil => simp [charSpec]
  | cons x s =>
      rw [charSpec, List.cons.injEq]
      by_cases hx : x = c
      · simp [hx]
      · simp [hx]

theorem newLineSpec_done_iff {s rest : List UInt8} {u : Unit} :
    newLineSpec s = .done u rest ↔ s = CR :: LF :: rest := by
  match s with
  | [] => simp [newLineSpec]
  | [_] => simp [newLineSpec]
  | x :: y :: s =>
      rw [newLineSpec, List.cons.injEq, List.cons.injEq]
      by_cases hx : x = CR
      · by_cases hy : y = LF
        · simp [hx, hy]
        · simp [hx, hy]
      · simp [hx]

theorem stringSpec_ne_cut (s : List UInt8) : stringSpec s ≠ .more .cut := by
  rw [stringSpec]
  split <;> simp

theorem charSpec_ne_cut (c : UInt8) (s : List UInt8) : charSpec c s ≠ .more .cut := by
  cases s with
  | nil => simp [charSpec]
  | cons x s =>
      rw [charSpec]
      split <;> simp

theorem newLineSpec_ne_cut (s : List UInt8) : newLineSpec s ≠ .more .cut := by
  match s with
  | [] => simp [newLineSpec]
  | [_] => simp [newLineSpec]
  | x :: y :: s =>
      rw [newLineSpec]
      split <;> simp

theorem bodySpec_ne_cut (size : ℕ) (s : List UInt8) : bodySpec size s ≠ .more .cut := by
  rw [bodySpec]
  split <;> simp

theorem requestLinesSpec_cut_iff (s : List UInt8) : requestLinesSpec s = .more .cut ↔
    ∃ lines line, (∀ l ∈ lines, l ≠ [] ∧ CR ∉ l) ∧ CR ∉ line
      ∧ s = linesText lines ++ (line ++ [CR]) := by
  induction s using lines_induction with
  | h s ih =>
      rw [requestLinesSpec_eq, Res.bind_eq_more]
      constructor
      · rintro (h | ⟨line, rest, hs, h⟩)
        · obtain ⟨line, hcr, rfl⟩ := lineSpec_cut_iff.mp h
          exact ⟨[], line, by simp, hcr, rfl⟩
        · obtain ⟨hcr, rfl⟩ := lineSpec_done_iff.mp hs
          by_cases hline : line.length = 0
          · rw [if_pos hline] at h
            cases h
          · rw [if_neg hline] at h
            obtain ⟨lines, last, hlines, hlast, rfl⟩ := (ih line rest hs).mp h
            refine ⟨line :: lines, last, ?_, hlast, (linesText_cons ..).symm⟩
            intro l hl
            rcases List.mem_cons.mp hl with rfl | hl
            · exact ⟨fun hnil => hline (by simp [hnil]), hcr⟩
            · exact hlines l hl
      · rintro ⟨lines, last, hlines, hlast, rfl⟩
        cases lines with
        | nil => exact .inl (lineSpec_cut_iff.mpr ⟨last, hlast, rfl⟩)
        | cons line lines =>
            right
            obtain ⟨⟨hne, hcr⟩, hlines⟩ := List.forall_mem_cons.mp hlines
            have hs := lineSpec_done_iff.mpr ⟨hcr, linesText_cons line lines (last ++ [CR])⟩
            refine ⟨line, linesText lines ++ (last ++ [CR]), hs, ?_⟩
            rw [if_neg (fun h0 => hne (List.eq_nil_of_length_eq_zero h0))]
            exact (ih _ _ hs).mpr ⟨lines, last, hlines, hlast, rfl⟩

theorem contentSizeOf_eq_none {line : List UInt8} {size : ℕ} : contentSizeOf line size = none ↔
    ¬(contains lengthString line → sizeofLengthString ≤ line.length) := by
  unfold contentSizeOf
  by_cases hc : contains lengthString line
  · by_cases hl : sizeofLengthString ≤ line.length
    · simp [hc, hl]
    · simp [hc, hl]
  · simp [hc]

theorem responseLinesSpec_cut_iff (rem : List UInt8) (size : ℕ) (s : List UInt8) :
    responseLinesSpec rem size s = .more .cut ↔
      ∃ lines line, (∀ l ∈ lines, CR ∉ l)
        ∧ (∀ l ∈ lines, l ≠ [] ∧ (contains lengthString l → sizeofLengthString ≤ l.length))
        ∧ CR ∉ line ∧ s = linesText lines ++ (line ++ [CR]) := by
  induction s using lines_induction generalizing rem size with
  | h s ih =>
      rw [responseLinesSpec_eq, Res.bind_eq_more]
      constructor
      · rintro (h | ⟨line, rest, hs, h⟩)
        · obtain ⟨line, hcr, rfl⟩ := lineSpec_cut_iff.mp h
          exact ⟨[], line, by simp, by simp, hcr, rfl⟩
        · obtain ⟨hcr, rfl⟩ := lineSpec_done_iff.mp hs
          by_cases hline : line = []
          · rw [if_pos hline] at h
            cases h
          · rw [if_neg hline] at h
            cases hsize : contentSizeOf line size with
            | none => rw [hsize] at h; cases h
            | some size' =>
                rw [hsize] at h
                obtain ⟨lines, last, hno, hlines, hlast, rfl⟩ := (ih line rest hs _ size').mp h
                have hpass : contains lengthString line → sizeofLengthString ≤ line.length := by
                  by_contra hnot
                  rw [contentSizeOf_eq_none.mpr hnot] at hsize
                  cases hsize
                refine ⟨line :: lines, last, ?_, ?_, hlast, (linesText_cons ..).symm⟩
                · exact List.forall_mem_cons.mpr ⟨hcr, hno⟩
                · exact List.forall_mem_cons.mpr ⟨⟨hline, hpass⟩, hlines⟩
      · rintro ⟨lines, last, hno, hlines, hlast, rfl⟩
        cases lines with
        | nil => exact .inl (lineSpec_cut_iff.mpr ⟨last, hlast, rfl⟩)
        | cons line lines =>
            right
            obtain ⟨hcr, hno⟩ := List.forall_mem_cons.mp hno
            obtain ⟨⟨hne, hpass⟩, hlines⟩ := List.forall_mem_cons.mp hlines
            have hs := lineSpec_done_iff.mpr ⟨hcr, linesText_cons line lines (last ++ [CR])⟩
            refine ⟨line, linesText lines ++ (last ++ [CR]), hs, ?_⟩
            rw [if_neg hne]
            cases hsize : contentSizeOf line size with
            | none => exact absurd hpass (contentSizeOf_eq_none.mp hsize)
            | some size' => exact (ih _ _ hs _ size').mpr ⟨lines, last, hno, hlines, hlast, rfl⟩

theorem bind_cut {α β : Type} {p : List UInt8 → Answer α} (hp : ∀ s, p s ≠ .more .cut)
    (s : List UInt8) (f : α → List UInt8 → Answer β) :
    (p s).bind f = .more .cut ↔ ∃ a rest, p s = .done a rest ∧ f a rest = .more .cut := by
  rw [Res.bind_eq_more, or_iff_right (hp s)]

theorem wordByte_iff {c : UInt8} : wordByte c = true ↔ c ≠ SP ∧ c ≠ CR := by
  simp [wordByte]

theorem requestSpec_cut_iff (s : List UInt8) : requestSpec s = .more .cut ↔ CutRequest s := by
  unfold requestSpec
  constructor
  · intro h
    obtain ⟨method, s₁, h₁, h⟩ := (bind_cut stringSpec_ne_cut _ _).mp h
    obtain ⟨_, s₂, h₂, h⟩ := (bind_cut (charSpec_ne_cut SP) _ _).mp h
    obtain ⟨_, s₃, h₃, h⟩ := (bind_cut (charSpec_ne_cut SLASH) _ _).mp h
    obtain ⟨address, s₄, h₄, h⟩ := (bind_cut stringSpec_ne_cut _ _).mp h
    obtain ⟨_, s₅, h₅, h⟩ := (bind_cut (charSpec_ne_cut SP) _ _).mp h
    obtain ⟨version, s₆, h₆, h⟩ := (bind_cut stringSpec_ne_cut _ _).mp h
    obtain ⟨_, s₇, h₇, h⟩ := (bind_cut newLineSpec_ne_cut _ _).mp h
    rw [Res.bind_eq_more] at h
    rcases h with h | ⟨_, _, _, h⟩
    swap
    · cases h
    obtain ⟨lines, line, hlines, hline, rfl⟩ := (requestLinesSpec_cut_iff s₇).mp h
    obtain ⟨hw₁, rfl, -⟩ := stringSpec_done_iff.mp h₁
    obtain ⟨hw₂, rfl, -⟩ := stringSpec_done_iff.mp h₄
    obtain ⟨hw₃, rfl, -⟩ := stringSpec_done_iff.mp h₆
    obtain rfl := charSpec_done_iff.mp h₂
    obtain rfl := charSpec_done_iff.mp h₃
    obtain rfl := charSpec_done_iff.mp h₅
    obtain rfl := newLineSpec_done_iff.mp h₇
    refine ⟨method, address, version, lines, line, ?_, hlines, hline, rfl⟩
    intro w hw c hc
    simp only [List.mem_cons, List.not_mem_nil, or_false] at hw
    rcases hw with rfl | rfl | rfl
    · exact wordByte_iff.mp (hw₁ c hc)
    · exact wordByte_iff.mp (hw₂ c hc)
    · exact wordByte_iff.mp (hw₃ c hc)
  · rintro ⟨method, address, version, lines, line, hw, hlines, hline, rfl⟩
    have hword : ∀ w ∈ [method, address, version], ∀ c ∈ w, wordByte c :=
      fun w hmem c hc => wordByte_iff.mpr (hw w hmem c hc)
    have hsp : wordByte SP = false := by decide
    have hcr : wordByte CR = false := by decide
    refine (bind_cut stringSpec_ne_cut _ _).mpr ⟨method, _,
      stringSpec_done_iff.mpr ⟨hword _ (by simp), rfl, _, _, rfl, hsp⟩, ?_⟩
    refine (bind_cut (charSpec_ne_cut SP) _ _).mpr ⟨(), _, charSpec_done_iff.mpr rfl, ?_⟩
    refine (bind_cut (charSpec_ne_cut SLASH) _ _).mpr ⟨(), _, charSpec_done_iff.mpr rfl, ?_⟩
    refine (bind_cut stringSpec_ne_cut _ _).mpr ⟨address, _,
      stringSpec_done_iff.mpr ⟨hword _ (by simp), rfl, _, _, rfl, hsp⟩, ?_⟩
    refine (bind_cut (charSpec_ne_cut SP) _ _).mpr ⟨(), _, charSpec_done_iff.mpr rfl, ?_⟩
    refine (bind_cut stringSpec_ne_cut _ _).mpr ⟨version, _,
      stringSpec_done_iff.mpr ⟨hword _ (by simp), rfl, _, _, rfl, hcr⟩, ?_⟩
    refine (bind_cut newLineSpec_ne_cut _ _).mpr ⟨(), _, newLineSpec_done_iff.mpr rfl, ?_⟩
    rw [(requestLinesSpec_cut_iff _).mpr ⟨lines, line, hlines, hline, rfl⟩]
    rfl

theorem responseSpec_cut_iff (s : List UInt8) : responseSpec s = .more .cut ↔ CutResponse s := by
  unfold responseSpec
  rw [Res.bind_eq_more]
  constructor
  · rintro (h | ⟨status, rest, hs, h⟩)
    · obtain ⟨line, hline, rfl⟩ := lineSpec_cut_iff.mp h
      exact ⟨[], line, by simp, by simp, hline, rfl⟩
    · rw [Res.bind_eq_more] at h
      rcases h with h | ⟨header, s₁, -, h⟩
      · obtain ⟨hstatus, rfl⟩ := lineSpec_done_iff.mp hs
        obtain ⟨lines, line, hno, hlines, hline, rfl⟩ := (responseLinesSpec_cut_iff ..).mp h
        exact ⟨status :: lines, line, List.forall_mem_cons.mpr ⟨hstatus, hno⟩, hlines, hline,
          (linesText_cons ..).symm⟩
      · obtain ⟨_, _, _, h⟩ := (bind_cut (bodySpec_ne_cut header.2) _ _).mp h
        cases h
  · rintro ⟨lines, line, hno, hlines, hline, rfl⟩
    cases lines with
    | nil => exact .inl (lineSpec_cut_iff.mpr ⟨line, hline, rfl⟩)
    | cons status lines =>
        right
        obtain ⟨hstatus, hno⟩ := List.forall_mem_cons.mp hno
        refine ⟨status, linesText lines ++ (line ++ [CR]),
          lineSpec_done_iff.mpr ⟨hstatus, linesText_cons ..⟩, ?_⟩
        rw [(responseLinesSpec_cut_iff ..).mpr ⟨lines, line, hno, hlines, hline, rfl⟩]
        rfl

/-! ## The missing line feed

On a cut text followed by the line feed the recognisers neither fail
with an error nor stop at a carriage return. -/

def Fine {α : Type} (a : Answer α) : Prop := a ≠ .fail .error ∧ a ≠ .more .cut

/-- The line feed mends a cut text. -/
def Mends {α : Type} (p : List UInt8 → Answer α) : Prop :=
  ∀ s, p s = .more .cut → Fine (p (s ++ [LF]))

theorem Fine.bind {α β : Type} {a : Answer α} {f : α → List UInt8 → Answer β} (h : Fine a)
    (hf : ∀ v rest, Fine (f v rest)) : Fine (a.bind f) := by
  cases a with
  | done v rest => exact hf v rest
  | more m => exact ⟨by simp, fun heq => h.2 (congrArg _ (Res.more.inj heq))⟩
  | fail e => exact ⟨fun heq => h.1 (congrArg _ (Res.fail.inj heq)), by simp⟩

theorem Mends.bind {α β : Type} {p : List UInt8 → Answer α} {f : α → List UInt8 → Answer β}
    (hp : Stable p) (hcut : ∀ s, p s ≠ .more .cut) (hf : ∀ a, Mends (f a)) :
    Mends fun s => (p s).bind f := by
  intro s h
  obtain ⟨a, rest, hs, h⟩ := (bind_cut hcut s f).mp h
  simp only [(hp s).done hs, Res.bind_done]
  exact hf a rest h

theorem lineSpec_mends {s : List UInt8} (h : lineSpec s = .more .cut) :
    ∃ line, lineSpec (s ++ [LF]) = .done line [] := by
  obtain ⟨line, hcr, rfl⟩ := lineSpec_cut_iff.mp h
  exact ⟨line, lineSpec_done_iff.mpr ⟨hcr, by simp⟩⟩

theorem requestLinesSpec_mends : Mends requestLinesSpec := by
  intro s
  induction s using lines_induction with
  | h s ih =>
      intro h
      rw [requestLinesSpec_eq, Res.bind_eq_more] at h
      rcases h with h | ⟨line, rest, hs, h⟩
      · obtain ⟨line, hl⟩ := lineSpec_mends h
        rw [requestLinesSpec_eq, hl, Res.bind_done]
        split
        · exact ⟨by simp, by simp⟩
        · rw [requestLinesSpec_eq]
          exact ⟨by simp [lineSpec], by simp [lineSpec]⟩
      · rw [requestLinesSpec_eq, (lineSpec_stable s).done hs, Res.bind_done]
        split at h
        · cases h
        · rename_i hline
          rw [if_neg hline]
          exact ih line rest hs h

theorem responseLinesSpec_mends (rem : List UInt8) (size : ℕ) :
    Mends (responseLinesSpec rem size) := by
  intro s
  induction s using lines_induction generalizing rem size with
  | h s ih =>
      intro h
      rw [responseLinesSpec_eq, Res.bind_eq_more] at h
      rcases h with h | ⟨line, rest, hs, h⟩
      · obtain ⟨line, hl⟩ := lineSpec_mends h
        rw [responseLinesSpec_eq, hl, Res.bind_done]
        split
        · exact ⟨by simp, by simp⟩
        · cases contentSizeOf line size with
          | none => exact ⟨by simp, by simp⟩
          | some size' =>
              simp only
              rw [responseLinesSpec_eq]
              exact ⟨by simp [lineSpec], by simp [lineSpec]⟩
      · rw [responseLinesSpec_eq, (lineSpec_stable s).done hs, Res.bind_done]
        by_cases hline : line = []
        · rw [if_pos hline] at h
          cases h
        · rw [if_neg hline] at h ⊢
          cases hsize : contentSizeOf line size with
          | none => rw [hsize] at h; cases h
          | some size' =>
              rw [hsize] at h
              exact ih line rest hs _ _ h

theorem requestSpec_mends : Mends requestSpec := by
  refine Mends.bind stringSpec_stable stringSpec_ne_cut fun method => ?_
  refine Mends.bind (charSpec_stable SP) (charSpec_ne_cut SP) fun _ => ?_
  refine Mends.bind (charSpec_stable SLASH) (charSpec_ne_cut SLASH) fun _ => ?_
  refine Mends.bind stringSpec_stable stringSpec_ne_cut fun address => ?_
  refine Mends.bind (charSpec_stable SP) (charSpec_ne_cut SP) fun _ => ?_
  refine Mends.bind stringSpec_stable stringSpec_ne_cut fun version => ?_
  refine Mends.bind newLineSpec_stable newLineSpec_ne_cut fun _ => ?_
  intro s h
  rw [Res.bind_eq_more] at h
  rcases h with h | ⟨_, _, _, h⟩
  · exact (requestLinesSpec_mends s h).bind fun _ _ => ⟨by simp, by simp⟩
  · cases h

theorem responseSpec_mends : Mends responseSpec := by
  have hbody : ∀ (status rem : List UInt8) (size : ℕ) (s : List UInt8),
      Fine ((bodySpec size s).bind fun body s =>
        (.done ⟨status, rem, body⟩ s : Answer Response)) := by
    intro status rem size s
    rw [bodySpec]
    split <;> exact ⟨by simp, by simp⟩
  intro s h
  unfold responseSpec at h ⊢
  rw [Res.bind_eq_more] at h
  rcases h with h | ⟨status, rest, hs, h⟩
  · obtain ⟨line, hl⟩ := lineSpec_mends h
    rw [hl, Res.bind_done, responseLinesSpec_eq]
    exact ⟨by simp [lineSpec], by simp [lineSpec]⟩
  · rw [(lineSpec_stable s).done hs, Res.bind_done]
    rw [Res.bind_eq_more] at h
    rcases h with h | ⟨header, s₁, -, h⟩
    · exact (responseLinesSpec_mends _ _ rest h).bind fun header s => hbody _ _ _ _
    · exact absurd h (hbody _ _ _ _).2

end Parser

end HttpServer
