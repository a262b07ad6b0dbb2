import HttpServer.ParserThrows
import Mathlib.Tactic.Ring

/-!
# The body of a response

A response that says how long its body is (`LengthResponse`) has one
line with the field name `Content-Length`, and maybe other lines that
contain this text. `parseResponse` looks for the text anywhere in a line
and takes the number from byte 16 of the line on, wherever the text is;
a later line overrides an earlier one, unless there is only white space
from byte 16 on (`sizeIn`). The body is as long as the line says exactly
when the last number taken so is the same (`body_length_iff`): for the
line itself when a space follows the colon or the number starts with 0
(`ownLine_reads_iff`).
-/

namespace HttpServer

namespace Parser

open Incremental Buffer

/-! ## Numbers -/

theorem decimal_cons (d : UInt8) (ds : List UInt8) :
    decimal (d :: ds) = (d.toNat - 48) * 10 ^ ds.length + decimal ds := by
  have hfold : ∀ (ds : List UInt8) (n : ℕ), ds.foldl (fun n d => 10 * n + (d.toNat - 48)) n
      = n * 10 ^ ds.length + decimal ds := by
    intro ds
    induction ds with
    | nil =>
        intro n
        simp [decimal]
    | cons e es ih =>
        intro n
        rw [decimal, List.foldl_cons, List.foldl_cons, ih, ih (10 * 0 + (e.toNat - 48)),
          List.length_cons, pow_succ]
        ring
  rw [decimal, List.foldl_cons, hfold]
  simp

/-- A digit is neither white space nor a sign nor the end of a line. -/
theorem digit_ne {d : UInt8} (h : isDigit d = true) :
    isSpace d = false ∧ d ≠ 45 ∧ d ≠ 43 ∧ d ≠ CR ∧ 48 ≤ d.toNat := by
  unfold isDigit at h
  rw [Bool.and_eq_true, decide_eq_true_eq, decide_eq_true_eq, UInt8.le_iff_toNat_le,
    UInt8.le_iff_toNat_le] at h
  have hlo : 48 ≤ d.toNat := h.1
  refine ⟨?_, ?_, ?_, ?_, hlo⟩
  · rw [Bool.eq_false_iff]
    intro hs
    unfold isSpace at hs
    rw [Bool.or_eq_true, Bool.and_eq_true, decide_eq_true_eq, decide_eq_true_eq, decide_eq_true_eq,
      UInt8.le_iff_toNat_le, UInt8.le_iff_toNat_le] at hs
    rcases hs with rfl | ⟨-, hle⟩
    · exact absurd hlo (by decide)
    · exact absurd (Nat.le_trans hlo hle) (by decide)
  · rintro rfl
    exact absurd hlo (by decide)
  · rintro rfl
    exact absurd hlo (by decide)
  · rintro rfl
    exact absurd hlo (by decide)

/-- Spaces and a number, and then no digit. -/
theorem extractSize_number {d : UInt8} {ds tail : List UInt8} (k size : ℕ)
    (hds : ∀ c ∈ d :: ds, isDigit c = true) (hsmall : decimal (d :: ds) < 2 ^ 64)
    (htail : ∀ c, tail.head? = some c → isDigit c = false) :
    extractSize (List.replicate k SP ++ (d :: ds ++ tail)) size = decimal (d :: ds) := by
  obtain ⟨hspace, hminus, hplus, -⟩ := digit_ne (hds d List.mem_cons_self)
  have hsp : isSpace SP = true := by decide
  have hdrop : (List.replicate k SP ++ (d :: ds ++ tail)).dropWhile isSpace = d :: ds ++ tail := by
    rw [List.dropWhile_append_of_pos fun c hc => by rw [List.eq_of_mem_replicate hc, hsp],
      List.cons_append, List.dropWhile_cons_of_neg (by simp [hspace])]
  have htake : (d :: ds ++ tail).takeWhile isDigit = d :: ds := by
    rw [List.takeWhile_append_of_pos hds]
    cases tail with
    | nil => simp
    | cons c tail => simp [htail c rfl]
  have hhead : (d :: ds ++ tail).head? = some d := rfl
  have hsign : ¬(some d = some 45 ∨ some d = some 43) := by
    simp [hminus, hplus]
  have hne : d :: ds ++ tail ≠ [] := List.cons_ne_nil d (ds ++ tail)
  unfold extractSize
  simp only [hdrop, hhead, if_neg hne, if_neg hsign, htake]
  rw [if_neg (Nat.not_le.mpr hsmall), if_neg (by simp [hminus])]

theorem extractSize_digits {d : UInt8} {ds : List UInt8} (hds : ∀ c ∈ d :: ds, isDigit c = true)
    (hsmall : decimal (d :: ds) < 2 ^ 64) (size : ℕ) :
    extractSize (d :: ds) size = decimal (d :: ds) := by
  have hend : ∀ c, ([] : List UInt8).head? = some c → isDigit c = false := by simp
  have hnum := extractSize_number 0 size hds hsmall hend
  rwa [List.append_nil] at hnum

/-- Nothing but white space. -/
def blank (s : List UInt8) : Bool := s.all isSpace

theorem blank_append (s t : List UInt8) : blank (s ++ t) = (blank s && blank t) :=
  List.all_append

theorem dropWhile_isSpace_iff {s : List UInt8} : s.dropWhile isSpace = [] ↔ blank s = true := by
  rw [blank, List.dropWhile_eq_nil_iff, List.all_eq_true]

theorem extractSize_blank {s : List UInt8} (h : blank s = true) (size : ℕ) :
    extractSize s size = size := if_pos (dropWhile_isSpace_iff.mpr h)

theorem extractSize_of_not_blank {s : List UInt8} (h : blank s = false) (size size' : ℕ) :
    extractSize s size = extractSize s size' := by
  have hne : s.dropWhile isSpace ≠ [] := fun hnil => by
    rw [dropWhile_isSpace_iff.mp hnil] at h
    cases h
  unfold extractSize
  simp only [if_neg hne]

theorem digits_not_blank {d : UInt8} {ds : List UInt8} (h : isDigit d = true) :
    blank (d :: ds) = false := by
  rw [blank, List.all_cons, (digit_ne h).1, Bool.false_and]

/-! ## Header lines -/

/-- Lines that are not empty, up to an empty one. -/
theorem responseLinesSpec_lines : ∀ {lines : List (List UInt8)} {rem : List UInt8} {size size' : ℕ}
    (t : List UInt8), (∀ l ∈ lines, CR ∉ l ∧ l ≠ []) →
    lines.foldlM (fun size line => contentSizeOf line size) size = some size' →
    responseLinesSpec rem size (linesText lines ++ ([CR, LF] ++ t))
      = .done (rem ++ lines.flatten, size') t
  | [], rem, size, size', t, _, hsize => by
      obtain rfl : size = size' := Option.some.inj hsize
      have hline : lineSpec ([CR, LF] ++ t) = .done [] t := lineSpec_done_iff.mpr ⟨by simp, rfl⟩
      rw [responseLinesSpec_eq, show linesText [] = [] from rfl, List.nil_append, hline,
        Res.bind_done, if_pos rfl, List.flatten_nil, List.append_nil]
  | line :: lines, rem, size, size', t, hl, hsize => by
      obtain ⟨hcr, hne⟩ := hl line List.mem_cons_self
      rw [List.foldlM_cons, Option.bind_eq_bind, Option.bind_eq_some_iff] at hsize
      obtain ⟨size₁, hsize₁, hrest⟩ := hsize
      rw [responseLinesSpec_eq, linesText_cons, lineSpec_done_iff.mpr ⟨hcr, rfl⟩, Res.bind_done,
        if_neg hne, hsize₁]
      show responseLinesSpec (rem ++ line) size₁ _ = _
      rw [responseLinesSpec_lines t (fun l h => hl l (List.mem_cons_of_mem line h)) hrest,
        List.flatten_cons, List.append_assoc]

/-- The number at byte 16 of a line that contains the text, if there is
something else than white space. -/
def sizeIn (line : List UInt8) : Option ℕ :=
  if contains lengthString line ∧ blank (line.drop sizeofLengthString) = false then
    some (extractSize (line.drop sizeofLengthString) 0)
  else none

/-- The last number the lines have. -/
def lastSize (size : ℕ) (lines : List (List UInt8)) : ℕ :=
  (lines.filterMap sizeIn).getLast?.getD size

theorem lastSize_cons (size : ℕ) (line : List UInt8) (lines : List (List UInt8)) :
    lastSize size (line :: lines) = lastSize ((sizeIn line).getD size) lines := by
  unfold lastSize
  cases hline : sizeIn line with
  | none => rw [List.filterMap_cons_none hline, Option.getD_none]
  | some m =>
      rw [List.filterMap_cons_some hline, List.getLast?_cons, Option.getD_some, Option.getD_some]

/-- A line that is not too short sets the size if it has a number. -/
theorem contentSizeOf_eq {line : List UInt8} (h : line ≠ lengthString) (size : ℕ) :
    contentSizeOf line size = some ((sizeIn line).getD size) := by
  have hsome : contentSizeOf line size ≠ none := fun hnone => h (contentSizeOf_none_iff.mp hnone)
  unfold contentSizeOf at hsome ⊢
  by_cases hc : contains lengthString line = true
  · rw [if_pos hc] at hsome ⊢
    split at hsome
    · rename_i hl
      rw [if_pos hl]
      cases hblank : blank (line.drop sizeofLengthString) with
      | true =>
          rw [extractSize_blank hblank, sizeIn, if_neg (by rw [hblank]; simp), Option.getD_none]
      | false =>
          rw [extractSize_of_not_blank hblank size 0, sizeIn, if_pos ⟨hc, hblank⟩,
            Option.getD_some]
    · exact absurd rfl hsome
  · rw [if_neg hc, sizeIn, if_neg fun h => hc h.1, Option.getD_none]

/-- The size after the header lines, if none of them is too short. -/
theorem foldlM_contentSizeOf : ∀ (lines : List (List UInt8)) (size : ℕ), lengthString ∉ lines →
    lines.foldlM (fun size line => contentSizeOf line size) size = some (lastSize size lines)
  | [], size, _ => rfl
  | line :: lines, size, h => by
      rw [List.mem_cons, not_or] at h
      rw [List.foldlM_cons, contentSizeOf_eq (Ne.symm h.1), lastSize_cons]
      exact foldlM_contentSizeOf lines _ h.2

/-! ## Responses with a length -/

/-- A status line and header lines, one of which has the field name
`Content-Length`, with spaces and the number `digit :: digits` behind
the colon. -/
structure LengthResponse where
  status : List UInt8
  statusFree : CR ∉ status
  before : List HeaderLine
  after : List HeaderLine
  otherNames : ∀ l ∈ before ++ after, ¬lengthString <+: l.bytes
  spaces : ℕ
  digit : UInt8
  digits : List UInt8
  isDigits : ∀ d ∈ digit :: digits, isDigit d = true
  small : decimal (digit :: digits) < 2 ^ 63
  tail : List UInt8
  tailFree : CR ∉ tail
  tailStart : ∀ c, tail.head? = some c → isDigit c = false

namespace LengthResponse

variable (w : LengthResponse)

/-- The number. -/
def n : ℕ := decimal (w.digit :: w.digits)

def lengthLine : List UInt8 :=
  lengthString ++ (List.replicate w.spaces SP ++ (w.digit :: w.digits ++ w.tail))

/-- The header lines. -/
def lines : List (List UInt8) :=
  w.before.map HeaderLine.bytes ++ w.lengthLine :: w.after.map HeaderLine.bytes

/-- Up to the empty line. -/
def header : List UInt8 := linesText (w.status :: w.lines) ++ [CR, LF]

/-- The number of the last line that has one at its byte 16 and contains
the text, 0 if there is none. In the length line the first digit is
missing there if no space follows the colon. -/
def numberRead : ℕ := lastSize 0 w.lines

theorem lengthLine_contains : contains lengthString w.lengthLine = true :=
  contains_iff.mpr (List.prefix_append ..).isInfix

theorem digit_isDigit : isDigit w.digit = true := w.isDigits _ List.mem_cons_self

theorem lines_ok : ∀ l ∈ w.lines, CR ∉ l ∧ l ≠ [] := by
  have hother : ∀ hs : List HeaderLine, ∀ l ∈ hs.map HeaderLine.bytes, CR ∉ l ∧ l ≠ [] := by
    intro hs l hl
    obtain ⟨h, -, rfl⟩ := List.mem_map.mp hl
    exact ⟨h.free, h.nonempty⟩
  have hdigits : CR ∉ w.digit :: w.digits := fun hcr => (digit_ne (w.isDigits _ hcr)).2.2.2.1 rfl
  intro l hl
  rcases List.mem_append.mp hl with hl | hl
  · exact hother _ l hl
  · rcases List.mem_cons.mp hl with rfl | hl
    · refine ⟨?_, by simp [lengthLine, lengthString]⟩
      unfold lengthLine
      rw [List.mem_append, List.mem_append, List.mem_append, not_or, not_or, not_or]
      refine ⟨by decide, fun hcr => ?_, hdigits, w.tailFree⟩
      exact absurd (List.eq_of_mem_replicate hcr) (by decide)
    · exact hother _ l hl

theorem lengthString_not_mem : lengthString ∉ w.lines := by
  have hother : ∀ hs : List HeaderLine, (∀ l ∈ hs, ¬lengthString <+: l.bytes) →
      lengthString ∉ hs.map HeaderLine.bytes := by
    intro hs hno hmem
    obtain ⟨h, hin, heq⟩ := List.mem_map.mp hmem
    exact hno h hin (by rw [heq])
  obtain ⟨hbefore, hafter⟩ := List.forall_mem_append.mp w.otherNames
  unfold lines
  rw [List.mem_append, List.mem_cons, not_or, not_or]
  refine ⟨hother _ hbefore, fun heq => ?_, hother _ hafter⟩
  have hlen := congrArg List.length heq
  simp [lengthLine] at hlen

theorem lengthLine_drop : w.lengthLine.drop sizeofLengthString
    = (List.replicate w.spaces SP ++ (w.digit :: w.digits ++ w.tail)).drop 1 := by
  have hlen : sizeofLengthString = lengthString.length + 1 := rfl
  unfold lengthLine
  rw [hlen, List.drop_append]
  simp

/-- With a space the length line has its number. -/
theorem sizeIn_lengthLine (h : w.spaces ≠ 0) : sizeIn w.lengthLine = some w.n := by
  obtain ⟨k, hk⟩ := Nat.exists_eq_succ_of_ne_zero h
  have hsmall := w.small
  have hdrop : w.lengthLine.drop sizeofLengthString
      = List.replicate k SP ++ (w.digit :: w.digits ++ w.tail) := by
    rw [w.lengthLine_drop, hk, List.replicate_succ, List.cons_append, List.drop_one, List.tail_cons]
  have hblank : blank (w.lengthLine.drop sizeofLengthString) = false := by
    rw [hdrop, blank_append, List.cons_append, digits_not_blank w.digit_isDigit, Bool.and_false]
  rw [sizeIn, if_pos ⟨w.lengthLine_contains, hblank⟩, hdrop]
  exact congrArg some (extractSize_number k 0 w.isDigits (by omega) w.tailStart)

/-- Without one it has what the other digits are, if there are any. -/
theorem sizeIn_lengthLine_unspaced (h : w.spaces = 0) (htail : w.tail = []) :
    (sizeIn w.lengthLine).getD 0 = decimal w.digits := by
  have hdrop : w.lengthLine.drop sizeofLengthString = w.digits := by
    rw [w.lengthLine_drop, h, htail, List.append_nil, List.replicate_zero, List.nil_append,
      List.drop_one, List.tail_cons]
  have hdigits : ∀ d ∈ w.digits, isDigit d = true := fun d hd =>
    w.isDigits d (List.mem_cons_of_mem _ hd)
  have hcons := decimal_cons w.digit w.digits
  have hsmall := w.small
  rw [sizeIn, hdrop]
  generalize w.digits = ds at hdigits hcons hsmall ⊢
  cases ds with
  | nil => rfl
  | cons d ds =>
      rw [if_pos ⟨w.lengthLine_contains, digits_not_blank (hdigits d List.mem_cons_self)⟩,
        Option.getD_some, extractSize_digits hdigits (by omega)]

theorem responseLinesSpec_header (rest : List UInt8) :
    responseLinesSpec [] 0 (linesText w.lines ++ ([CR, LF] ++ rest))
      = .done (w.lines.flatten, w.numberRead) rest := by
  have hsize := foldlM_contentSizeOf w.lines 0 w.lengthString_not_mem
  exact responseLinesSpec_lines rest w.lines_ok hsize

/-- The parser's answer on the response. -/
theorem responseSpec_eq (rest : List UInt8) :
    responseSpec (w.header ++ rest)
      = if rest.length < w.numberRead then .more .incomplete
        else .done ⟨w.status, w.lines.flatten, rest.take w.numberRead⟩
          (rest.drop w.numberRead) := by
  have hstatus : lineSpec (w.header ++ rest)
      = .done w.status (linesText w.lines ++ ([CR, LF] ++ rest)) := by
    refine lineSpec_done_iff.mpr ⟨w.statusFree, ?_⟩
    rw [header, List.append_assoc, linesText_cons]
  rw [responseSpec, hstatus, Res.bind_done, w.responseLinesSpec_header, Res.bind_done, bodySpec]
  split
  · rfl
  · rfl

/-- What counts is the last number behind the length line, if there is
one, else that of the length line. -/
theorem numberRead_of_spaces (h : w.spaces ≠ 0) :
    w.numberRead = lastSize w.n (w.after.map HeaderLine.bytes) := by
  unfold numberRead lastSize lines
  rw [List.filterMap_append, List.filterMap_cons_some (w.sizeIn_lengthLine h), List.getLast?_append,
    List.getLast?_cons, Option.some_or, Option.getD_some]

/-- Without other lines that contain the text the number is read when a
space follows the colon or the first digit is a 0. -/
theorem ownLine_reads_iff (hother : ∀ l ∈ w.before ++ w.after, ¬contains lengthString l.bytes)
    (htail : w.tail = []) : w.numberRead = w.n ↔ w.spaces ≠ 0 ∨ w.digit = 48 := by
  have hnone : ∀ hs : List HeaderLine, (∀ l ∈ hs, ¬contains lengthString l.bytes) →
      (hs.map HeaderLine.bytes).filterMap sizeIn = [] := by
    intro hs hno
    rw [List.filterMap_eq_nil_iff, List.forall_mem_map]
    exact fun l hl => if_neg fun h => hno l hl h.1
  obtain ⟨hbefore, hafter⟩ := List.forall_mem_append.mp hother
  have hread : w.numberRead = (sizeIn w.lengthLine).getD 0 := by
    unfold numberRead lastSize lines
    rw [List.filterMap_append, hnone w.before hbefore, List.nil_append]
    cases hline : sizeIn w.lengthLine with
    | none => rw [List.filterMap_cons_none hline, hnone w.after hafter, List.getLast?_nil]
    | some m =>
        rw [List.filterMap_cons_some hline, hnone w.after hafter, List.getLast?_singleton]
  rw [hread]
  by_cases hk : w.spaces = 0
  · rw [w.sizeIn_lengthLine_unspaced hk htail, n, decimal_cons]
    have hpow : 0 < 10 ^ w.digits.length := Nat.pow_pos (by decide)
    have hlo := (digit_ne w.digit_isDigit).2.2.2.2
    have hzero : w.digit = 48 ↔ w.digit.toNat - 48 = 0 := by
      rw [← UInt8.toNat_inj]
      show w.digit.toNat = 48 ↔ _
      omega
    rw [hzero]
    constructor
    · intro heq
      refine .inr ?_
      by_contra hne
      have hprod := Nat.mul_pos (Nat.pos_of_ne_zero hne) hpow
      omega
    · rintro (hne | heq)
      · exact absurd hk hne
      · rw [heq]
        omega
  · rw [w.sizeIn_lengthLine hk, Option.getD_some]
    exact iff_of_true rfl (.inl hk)

end LengthResponse

/-! ## On a buffer -/

/-- The body is as long as the response says. -/
structure BodyFollows (b : Buffer) (w : LengthResponse) (rest : List UInt8) : Prop where
  enough : w.n ≤ rest.length → (responseOf b).1 = .ret 0 ∧ (responseOf b).2.1.body = rest.take w.n
    ∧ (responseOf b).2.2.bytesRead = w.header.length + w.n
  less : rest.length < w.n → (responseOf b).1 = .ret 1

theorem bodyFollows_iff {b : Buffer} (hb : Iterator.Readable b) (w : LengthResponse)
    {rest : List UInt8} (hc : b.content = w.header ++ rest) :
    BodyFollows b w rest ↔ w.numberRead = w.n
      ∨ (rest.length < w.n ∧ rest.length < w.numberRead) := by
  have hrep := responseOf_reports hb
  rw [hc, w.responseSpec_eq] at hrep
  by_cases hshort : rest.length < w.numberRead
  · rw [if_pos hshort] at hrep
    have hout : (responseOf b).1 = .ret 1 := hrep
    constructor
    · intro h
      by_cases hn : w.n ≤ rest.length
      · have hzero := (h.enough hn).1
        rw [hout] at hzero
        cases hzero
      · exact .inr ⟨not_le.mp hn, hshort⟩
    · intro h
      refine ⟨fun hn => ?_, fun _ => hout⟩
      omega
  · rw [if_neg hshort] at hrep
    have hreport : report (responseOf b) = (.ret 0, ⟨w.status, w.lines.flatten,
        rest.take w.numberRead⟩,
        (w.header ++ rest).length - (rest.drop w.numberRead).length) := hrep
    rw [report, Prod.mk.injEq, Prod.mk.injEq] at hreport
    obtain ⟨hret, hresp, hread⟩ := hreport
    have hlen : (responseOf b).2.2.bytesRead = w.header.length + w.numberRead := by
      rw [hread, List.length_append, List.length_drop]
      omega
    constructor
    · intro h
      by_cases hn : w.n ≤ rest.length
      · have hbytes := (h.enough hn).2.2
        exact .inl (by omega)
      · have hone := h.less (not_le.mp hn)
        rw [hret] at hone
        cases hone
    · intro h
      have heq : w.numberRead = w.n := h.resolve_right fun hlt => hshort hlt.2
      refine ⟨fun _ => ⟨hret, ?_, ?_⟩, fun hlt => absurd hlt (heq ▸ hshort)⟩
      · rw [hresp, heq]
      · rw [hlen, heq]

/-- **The body follows the Content-Length header exactly when** the read
point is live and the number of the last line that has one at its byte 16
and contains the text is the number of the header, or there are fewer
bytes than either. -/
theorem body_length_iff (heap : ℕ → ℕ → UInt8) (calls : List Call) (w : LengthResponse)
    (rest : List UInt8) (hc : (runCalls heap calls).content = w.header ++ rest) :
    BodyFollows (runCalls heap calls) w rest ↔ (runCalls heap calls).Live
      ∧ (w.numberRead = w.n ∨ (rest.length < w.n ∧ rest.length < w.numberRead)) := by
  have hinv := (runCalls_reached heap calls).inv
  by_cases hl : (runCalls heap calls).Live
  · rw [bodyFollows_iff ⟨hinv, hl⟩ w hc]
    exact (and_iff_right hl).symm
  · have hout := response_stalled hinv hl
    refine iff_of_false (fun h => ?_) fun h => hl h.1
    rcases Nat.lt_or_ge rest.length w.n with hn | hn
    · have hone := h.less hn
      rw [hout] at hone
      split at hone <;> cases hone
    · have hzero := (h.enough hn).1
      rw [hout] at hzero
      split at hzero <;> cases hzero

/-- `X`, and the header line `Content-Length:` with spaces and a 5. -/
def fiveBytes (spaces : ℕ) : LengthResponse where
  status := [88]
  statusFree := by decide
  before := []
  after := []
  otherNames := fun l hl => absurd hl List.not_mem_nil
  spaces := spaces
  digit := 53
  digits := []
  isDigits := fun d hd => by
    rw [List.mem_singleton.mp hd]
    decide
  small := by decide
  tail := []
  tailFree := List.not_mem_nil
  tailStart := fun c hc => by cases hc

/-- `hello` -/
def hello : List UInt8 := [104, 101, 108, 108, 111]

theorem fiveBytes_follows :
    BodyFollows (runCalls (fun _ _ => 0) [.op (.write ((fiveBytes 1).header ++ hello))])
      (fiveBytes 1) hello :=
  (body_length_iff (fun _ _ => 0) [.op (.write ((fiveBytes 1).header ++ hello))] (fiveBytes 1) hello
    (by decide +kernel)).mpr ⟨by decide +kernel, .inl (by decide +kernel)⟩

theorem unspaced_not_follows : ¬∀ (heap : ℕ → ℕ → UInt8) (calls : List Call) (w : LengthResponse)
    (rest : List UInt8), (runCalls heap calls).content = w.header ++ rest →
    BodyFollows (runCalls heap calls) w rest := by
  intro hall
  have hfollows := hall (fun _ _ => 0) [.op (.write ((fiveBytes 0).header ++ hello))] (fiveBytes 0)
    hello (by decide +kernel)
  have hempty : (responseOf (runCalls (fun _ _ => 0)
      [.op (.write ((fiveBytes 0).header ++ hello))])).2.1.body = [] := by
    decide +kernel
  have hbody := (hfollows.enough (by decide +kernel)).2.1
  rw [hempty] at hbody
  exact absurd hbody (by decide +kernel)

end Parser

end HttpServer
