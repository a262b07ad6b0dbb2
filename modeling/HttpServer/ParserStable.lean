import HttpServer.ParserCut

/-!
# When the parser's answers are stable

A definitive answer of the parser should not change when more input
arrives: a text cut at any point is reported as incomplete. The parser
has this property wherever it follows its recogniser, whatever the
layout of the buffer and the bytes behind the data. It does not on the
texts that end in the carriage return of a line, as there it answers
from the byte behind the data (`parser_stable_iff`).
-/

namespace HttpServer

namespace Parser

open Incremental Buffer

/-! ## Answers on a buffer -/

/-- What a call of the parser leaves behind: how it ended, the fields,
and the bytes read. -/
def report {α : Type} (r : Outcome × α × Iterator) : Outcome × α × ℕ :=
  (r.1, r.2.1, r.2.2.bytesRead)

/-- The parser reports an answer on a text of `len` bytes with `past`
behind it. -/
def Reports {α : Type} (len : ℕ) (past : UInt8) (out : Outcome × α × ℕ) : Answer α → Prop
  | .done a rest => out = (.ret 0, a, len - rest.length)
  | .more .incomplete => out.1 = .ret 1
  | .more .cut => past ≠ LF → out.1 = .ret (-1)
  | .fail .error => out.1 = .ret (-1)
  | .fail .outOfRange => out.1 = .throws

theorem Follows.reports {α : Type} {past : UInt8} {total : ℕ} {r : Option Exn × Text × α}
    {a : Answer α} (h : Follows past total r a) :
    Reports total past (catchExn r.1, r.2.2, total - r.2.1.rest.length) a := by
  cases a with
  | done v rest =>
      obtain ⟨rfl, -⟩ := h
      rfl
  | more m =>
      cases m with
      | incomplete => exact congrArg catchExn h
      | cut => exact fun hp => congrArg catchExn (h hp)
  | fail e =>
      cases e with
      | error => exact congrArg catchExn h
      | outOfRange => exact congrArg catchExn h

theorem requestOf_reports {b : Buffer} (hb : Iterator.Readable b) :
    Reports b.content.length (Iterator.past b) (report (requestOf b)) (requestSpec b.content) := by
  obtain ⟨h₁, h₂, h₃⟩ := requestOf_text hb
  rw [report, h₁, h₂, h₃]
  exact (requestBody_spec (Nat.le_refl _)).reports

theorem responseOf_reports {b : Buffer} (hb : Iterator.Readable b) :
    Reports b.content.length (Iterator.past b) (report (responseOf b))
      (responseSpec b.content) := by
  obtain ⟨h₁, h₂, h₃⟩ := responseOf_text hb
  rw [report, h₁, h₂, h₃]
  exact (responseBody_spec (Nat.le_refl _)).reports

/-! ## Stability -/

/-- The answers of `parse` on the text `s` are stable. `run heap ops` is
any buffer that holds `s` (one of the three ways to use a buffer is left
out, so that the read point is live), `more` any further calls that
append. -/
def StableOn {α : Type} (parse : Buffer → Outcome × α × Iterator) (s : List UInt8) : Prop :=
  ∀ (heap : ℕ → ℕ → UInt8) (ops more : List Op), Plain (ops ++ more) →
    (∀ op ∈ more, op.kind ≠ .consume) → (run heap ops).content = s →
    let now := report (parse (run heap ops))
    let later := report (parse (run heap (ops ++ more)))
    -- a complete request or response stays what it is, an error an error
    (now.1 = .ret 0 → later = now)
      ∧ (now.1 = .ret (-1) → later.1 = .ret (-1))
      -- one that ends behind `s` is reported as incomplete on `s`
      ∧ (later.1 = .ret 0 → s.length < later.2.2 → now.1 = .ret 1)
      -- the answer is the same in every buffer that holds `s`
      ∧ (∀ (heap' : ℕ → ℕ → UInt8) (ops' : List Op), Plain ops' → (run heap' ops').content = s →
          (report (parse (run heap' ops'))).1 = now.1
            ∧ (now.1 = .ret 0 → report (parse (run heap' ops')) = now))

section

variable {α : Type} {parse : Buffer → Outcome × α × Iterator} {spec : List UInt8 → Answer α}

theorem run_readable (heap : ℕ → ℕ → UInt8) {ops : List Op} (hp : Plain ops) :
    Iterator.Readable (run heap ops) :=
  ⟨run_inv heap ops, run_live heap hp⟩

/-- The two answers that are not definitive leave no doubt, either, on a
text that is not cut: the report is a function of the answer. -/
theorem Reports.eq {len : ℕ} {past past' : UInt8} {out out' : Outcome × α × ℕ} {a : Answer α}
    (h : Reports len past out a) (h' : Reports len past' out' a) (hcut : a ≠ .more .cut) :
    out'.1 = out.1 ∧ (out.1 = .ret 0 → out' = out) := by
  cases a with
  | done v rest =>
      have h : out = _ := h
      have h' : out' = _ := h'
      rw [h, h']
      exact ⟨rfl, fun _ => rfl⟩
  | more m =>
      cases m with
      | incomplete =>
          have h : out.1 = _ := h
          have h' : out'.1 = _ := h'
          rw [h, h']
          exact ⟨rfl, fun h0 => by cases h0⟩
      | cut => exact absurd rfl hcut
  | fail e =>
      cases e with
      | error =>
          have h : out.1 = _ := h
          have h' : out'.1 = _ := h'
          rw [h, h']
          exact ⟨rfl, fun h0 => by cases h0⟩
      | outOfRange =>
          have h : out.1 = _ := h
          have h' : out'.1 = _ := h'
          rw [h, h']
          exact ⟨rfl, fun h0 => by cases h0⟩

/-- Code 0 is reported for a complete text only. -/
theorem Reports.of_zero {len : ℕ} {past : UInt8} {out : Outcome × α × ℕ} {a : Answer α}
    (h : Reports len past out a) (hcut : a ≠ .more .cut) (h0 : out.1 = .ret 0) :
    ∃ v rest, a = .done v rest := by
  cases a with
  | done v rest => exact ⟨v, rest, rfl⟩
  | more m =>
      cases m with
      | incomplete => rw [show out.1 = _ from h] at h0; cases h0
      | cut => exact absurd rfl hcut
  | fail e =>
      cases e with
      | error => rw [show out.1 = _ from h] at h0; cases h0
      | outOfRange => rw [show out.1 = _ from h] at h0; cases h0

theorem Reports.of_error {len : ℕ} {past : UInt8} {out : Outcome × α × ℕ} {a : Answer α}
    (h : Reports len past out a) (hcut : a ≠ .more .cut) (he : out.1 = .ret (-1)) :
    a = .fail .error := by
  cases a with
  | done v rest => rw [show out = _ from h] at he; cases he
  | more m =>
      cases m with
      | incomplete => rw [show out.1 = _ from h] at he; cases he
      | cut => exact absurd rfl hcut
  | fail e =>
      cases e with
      | error => rfl
      | outOfRange => rw [show out.1 = _ from h] at he; cases he

/-- A parser that reports a stable recogniser is stable on every text
that is not cut. -/
theorem stableOn_of_not_cut
    (hr : ∀ {b : Buffer}, Iterator.Readable b →
      Reports b.content.length (Iterator.past b) (report (parse b)) (spec b.content))
    (hs : Stable spec) {s : List UInt8} (hcut : spec s ≠ .more .cut) : StableOn parse s := by
  intro heap ops more hp hmore hcont now later
  have hnow := hr (run_readable heap hp.left)
  have hlater := hr (run_readable heap hp)
  obtain ⟨t, ht⟩ := foldl_appends more (run_inv heap ops) hmore
  rw [run_append, ht, ← run_append, hcont] at hlater
  rw [hcont] at hnow
  refine ⟨fun h0 => ?_, fun he => ?_, fun h0 hlt => ?_, fun heap' ops' hp' hcont' => ?_⟩
  · obtain ⟨v, rest, hv⟩ := hnow.of_zero hcut h0
    rw [(hs s).done hv] at hlater
    rw [hv] at hnow
    have h₁ : now = _ := hnow
    have h₂ : later = _ := hlater
    rw [h₁, h₂, List.length_append, List.length_append, Nat.add_sub_add_right]
  · have hf := hnow.of_error hcut he
    rw [(hs s).fail hf] at hlater
    exact hlater
  · cases hsp : spec s with
    | done v rest =>
        rw [(hs s).done hsp] at hlater
        have h₂ : later = _ := hlater
        rw [h₂, List.length_append, List.length_append] at hlt
        simp only at hlt
        omega
    | more m =>
        cases m with
        | incomplete =>
            rw [hsp] at hnow
            exact hnow
        | cut => exact absurd hsp hcut
    | fail e =>
        rw [(hs s).fail hsp] at hlater
        cases e with
        | error => rw [show later.1 = _ from hlater] at h0; cases h0
        | outOfRange => rw [show later.1 = _ from hlater] at h0; cases h0
  · have hother := hr (run_readable heap' hp')
    rw [hcont'] at hother
    exact hnow.eq hother hcut

/-- On a cut text it is not: with a byte other than a line feed behind
the data the text is in error, and with the line feed appended it is
not. -/
theorem cut_not_stableOn
    (hr : ∀ {b : Buffer}, Iterator.Readable b →
      Reports b.content.length (Iterator.past b) (report (parse b)) (spec b.content))
    (hm : Mends spec) {s : List UInt8} (hcut : spec s = .more .cut) : ¬StableOn parse s := by
  intro hstable
  obtain ⟨ops, hops, hcont, hpast⟩ := exists_run_past (fun _ _ => 0) s 0
  have hplain : ∀ op ∈ ops ++ [.write [LF]], op.kind ≠ .consume := by
    intro op hop
    rcases List.mem_append.mp hop with hop | hop
    · exact hops op hop
    · rw [List.mem_singleton.mp hop]
      decide
  have hp : Plain (ops ++ [.write [LF]]) := ⟨_, hplain⟩
  have hnow := hr (run_readable (fun _ _ => 0) hp.left)
  have hlater := hr (run_readable (fun _ _ => 0) hp)
  have hcont' : (run (fun _ _ => 0) (ops ++ [.write [LF]])).content = s ++ [LF] := by
    rw [run_append, ← hcont]
    exact (write_spec (run_inv _ ops) [LF]).2
  rw [hcont, hcut] at hnow
  rw [hcont'] at hlater
  have herr := hnow (by rw [Iterator.past, hpast]; decide)
  have hmore := hstable _ ops [.write [LF]] hp (by simp [Op.kind]) hcont
  exact (hm s hcut).1 (hlater.of_error (hm s hcut).2 (hmore.2.1 herr))

end

/-- **Definitive answers of the parser are stable exactly on the texts
that do not end in the carriage return of a line.** -/
theorem parser_stable_iff (s : List UInt8) :
    (StableOn requestOf s ↔ ¬CutRequest s) ∧ (StableOn responseOf s ↔ ¬CutResponse s) := by
  rw [← requestSpec_cut_iff, ← responseSpec_cut_iff]
  refine ⟨⟨fun h hcut => ?_, fun h => ?_⟩, ⟨fun h hcut => ?_, fun h => ?_⟩⟩
  · exact cut_not_stableOn requestOf_reports requestSpec_mends hcut h
  · exact stableOn_of_not_cut requestOf_reports requestSpec_stable h
  · exact cut_not_stableOn responseOf_reports responseSpec_mends hcut h
  · exact stableOn_of_not_cut responseOf_reports responseSpec_stable h

/-- `"GET /x HTTP/1.1\r\nHost: a\r"`: a request cut inside the line end
of its header line. -/
def cutInLineEnd : List UInt8 :=
  [71, 69, 84, 32, 47, 120, 32, 72, 84, 84, 80, 47, 49, 46, 49, 13, 10,
    72, 111, 115, 116, 58, 32, 97, 13]

/-- The request is in error as long as its last three bytes are missing
and complete once they have arrived. -/
theorem cutInLineEnd_not_stable :
    (requestOf (run (fun _ _ => 0) [.write cutInLineEnd])).1 = .ret (-1)
      ∧ (requestOf (run (fun _ _ => 0) [.write cutInLineEnd, .write [LF, CR, LF]])).1 = .ret 0
      ∧ ¬∀ s, StableOn requestOf s ∧ StableOn responseOf s := by
  have h₁ : (requestOf (run (fun _ _ => 0) [.write cutInLineEnd])).1 = .ret (-1) := by
    decide +kernel
  have h₂ : (requestOf (run (fun _ _ => 0) [.write cutInLineEnd, .write [LF, CR, LF]])).1
      = .ret 0 := by
    decide +kernel
  refine ⟨h₁, h₂, fun h => ?_⟩
  obtain ⟨-, herr, -⟩ := (h cutInLineEnd).1 (fun _ _ => 0) [.write cutInLineEnd]
    [.write [LF, CR, LF]] ⟨.consume, by simp [Op.kind]⟩ (by simp [Op.kind]) (by decide +kernel)
  have h₃ : (requestOf (run (fun _ _ => 0) [.write cutInLineEnd, .write [LF, CR, LF]])).1
      = .ret (-1) := herr h₁
  rw [h₂] at h₃
  cases h₃

end Parser

end HttpServer
