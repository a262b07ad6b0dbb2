import HttpServer.Parser

/-!
# The parser on plain text

The parser only uses the operations of its cursor, so two cursors that
answer these operations alike make it return alike (`Sim`). The
iterator of a buffer answers like a plain list of bytes with one more
byte behind its end (`Text`): the byte `getChar` reads when the data is
over. What the parser returns on a buffer is therefore a function of the
content and of that one byte, whatever the chunk layout
(`requestOf_text`, `responseOf_text`).
-/

namespace HttpServer

/-- Two cursors that answer alike on related positions. -/
structure Cursor.Sim {γ δ : Type} (C : Cursor γ) (D : Cursor δ) (R : γ → δ → Prop) : Prop where
  eob : ∀ {x y}, R x y → C.eob x = D.eob y
  getChar : ∀ {x y}, R x y → C.getChar x = D.getChar y
  next : ∀ {x y}, R x y → R (C.next x) (D.next y)
  bytesRead : ∀ {x y}, R x y → C.bytesRead x = D.bytesRead y
  bytesTotal : ∀ {x y}, R x y → C.bytesTotal x = D.bytesTotal y

namespace Parser

section Simulation

variable {γ δ : Type} {C : Cursor γ} {D : Cursor δ} {R : γ → δ → Prop} {x : γ} {y : δ}

/-- Results that differ in the position only, and there by `R`. -/
def Alike {α β : Type} (R : γ → δ → Prop) (r : α × γ × β) (r' : α × δ × β) : Prop :=
  ∃ e x y s, r = (e, x, s) ∧ r' = (e, y, s) ∧ R x y

def AlikePos {α : Type} (R : γ → δ → Prop) (r : α × γ) (r' : α × δ) : Prop :=
  ∃ e x y, r = (e, x) ∧ r' = (e, y) ∧ R x y

theorem alike {α β : Type} {e : α} {s : β} (h : R x y) : Alike R (e, x, s) (e, y, s) :=
  ⟨e, x, y, s, rfl, rfl, h⟩

theorem alikePos {α : Type} {e : α} (h : R x y) : AlikePos R (e, x) (e, y) :=
  ⟨e, x, y, rfl, rfl, h⟩

theorem fuel_sim (h : C.Sim D R) (hxy : R x y) : fuel C x = fuel D y := by
  rw [fuel, fuel, h.bytesTotal hxy, h.bytesRead hxy]

theorem parseStringLoop_sim (h : C.Sim D R) : ∀ (n : ℕ) {x : γ} {y : δ} (res : List UInt8),
    R x y → Alike R (parseStringLoop C n x res) (parseStringLoop D n y res)
  | 0, _, _, _, hxy => alike hxy
  | n + 1, x, y, res, hxy => by
      simp only [parseStringLoop, h.eob hxy, h.getChar hxy]
      split
      · exact alike hxy
      · split
        · exact alike hxy
        · split
          · exact alike hxy
          · exact parseStringLoop_sim h n _ (h.next hxy)

theorem parseString_sim (h : C.Sim D R) (hxy : R x y) (res : List UInt8) :
    Alike R (parseString C x res) (parseString D y res) := by
  simp only [parseString, h.eob hxy, fuel_sim h hxy]
  split
  · exact alike hxy
  · obtain ⟨e, x', y', s, hc, hd, hr⟩ := parseStringLoop_sim h (fuel D y) res hxy
    rw [hc, hd]
    cases e with
    | some e => exact alike hr
    | none =>
        simp only [h.eob hr]
        split <;> exact alike hr

theorem parseLineLoop_sim (h : C.Sim D R) : ∀ (n : ℕ) {x : γ} {y : δ} (res : List UInt8),
    R x y → Alike R (parseLineLoop C n x res) (parseLineLoop D n y res)
  | 0, _, _, _, hxy => alike hxy
  | n + 1, x, y, res, hxy => by
      simp only [parseLineLoop, h.eob hxy, h.getChar hxy, h.getChar (h.next hxy)]
      split
      · exact alike hxy
      · split
        · split
          · exact alike (h.next (h.next hxy))
          · exact alike (h.next hxy)
        · exact parseLineLoop_sim h n _ (h.next hxy)

theorem parseLine_sim (h : C.Sim D R) (hxy : R x y) (res : List UInt8) :
    Alike R (parseLine C x res) (parseLine D y res) := by
  simp only [parseLine, h.eob hxy, fuel_sim h hxy]
  split
  · exact alike hxy
  · exact parseLineLoop_sim h _ res hxy

theorem skipChar_sim (h : C.Sim D R) (hxy : R x y) (c : UInt8) :
    AlikePos R (skipChar C x c) (skipChar D y c) := by
  simp only [skipChar, h.eob hxy, h.getChar hxy]
  split
  · exact alikePos hxy
  · split
    · exact alikePos hxy
    · exact alikePos (h.next hxy)

theorem skipNewLine_sim (h : C.Sim D R) (hxy : R x y) :
    AlikePos R (skipNewLine C x) (skipNewLine D y) := by
  simp only [skipNewLine, h.eob hxy, h.getChar hxy, h.eob (h.next hxy), h.getChar (h.next hxy)]
  split
  · exact alikePos hxy
  · split
    · exact alikePos (h.next hxy)
    · split
      · exact alikePos (h.next hxy)
      · exact alikePos (h.next (h.next hxy))

theorem requestLines_sim (h : C.Sim D R) : ∀ (n : ℕ) {x : γ} {y : δ}, R x y →
    AlikePos R (requestLines C n x) (requestLines D n y)
  | 0, _, _, hxy => alikePos hxy
  | n + 1, x, y, hxy => by
      obtain ⟨e, x', y', s, hc, hd, hr⟩ := parseLine_sim h hxy []
      simp only [requestLines, hc, hd]
      cases e with
      | some e => exact alikePos hr
      | none =>
          simp only
          split
          · exact alikePos hr
          · exact requestLines_sim h n hr

theorem requestBody_sim (h : C.Sim D R) (hxy : R x y) :
    Alike R (requestBody C x) (requestBody D y) := by
  unfold requestBody
  obtain ⟨e, x, y, method, hc, hd, hxy⟩ := parseString_sim h hxy []
  rw [hc, hd]
  cases e with
  | some e => exact alike hxy
  | none =>
  obtain ⟨e, x, y, hc, hd, hxy⟩ := skipChar_sim h hxy SP
  simp only [hc, hd]
  cases e with
  | some e => exact alike hxy
  | none =>
  obtain ⟨e, x, y, hc, hd, hxy⟩ := skipChar_sim h hxy SLASH
  simp only [hc, hd]
  cases e with
  | some e => exact alike hxy
  | none =>
  obtain ⟨e, x, y, address, hc, hd, hxy⟩ := parseString_sim h hxy []
  simp only [hc, hd]
  cases e with
  | some e => exact alike hxy
  | none =>
  obtain ⟨e, x, y, hc, hd, hxy⟩ := skipChar_sim h hxy SP
  simp only [hc, hd]
  cases e with
  | some e => exact alike hxy
  | none =>
  obtain ⟨e, x, y, version, hc, hd, hxy⟩ := parseString_sim h hxy []
  simp only [hc, hd]
  cases e with
  | some e => exact alike hxy
  | none =>
  obtain ⟨e, x, y, hc, hd, hxy⟩ := skipNewLine_sim h hxy
  simp only [hc, hd]
  cases e with
  | some e => exact alike hxy
  | none =>
  have hfuel := fuel_sim h hxy
  obtain ⟨e, x, y, hc, hd, hxy⟩ := requestLines_sim h (fuel D y) hxy
  simp only [hfuel, hc, hd]
  exact alike hxy

theorem responseLines_sim (h : C.Sim D R) : ∀ (n : ℕ) {x : γ} {y : δ} (rem : List UInt8) (size : ℕ),
    R x y → Alike R (responseLines C n x rem size) (responseLines D n y rem size)
  | 0, _, _, _, _, hxy => alike hxy
  | n + 1, x, y, rem, size, hxy => by
      obtain ⟨e, x', y', line, hc, hd, hr⟩ := parseLine_sim h hxy []
      simp only [responseLines, hc, hd]
      cases e with
      | some e => exact alike hr
      | none =>
          simp only
          split
          · exact alike hr
          · cases contentSizeOf line size with
            | none => exact alike hr
            | some size' => exact responseLines_sim h n _ _ hr

theorem bodyLoop_sim (h : C.Sim D R) : ∀ (n : ℕ) {x : γ} {y : δ} (body : List UInt8), R x y →
    R (bodyLoop C n x body).1 (bodyLoop D n y body).1
      ∧ (bodyLoop C n x body).2 = (bodyLoop D n y body).2
  | 0, _, _, _, hxy => ⟨hxy, rfl⟩
  | n + 1, x, y, body, hxy => by
      simp only [bodyLoop, h.getChar hxy]
      exact bodyLoop_sim h n _ (h.next hxy)

theorem responseBody_sim (h : C.Sim D R) (hxy : R x y) :
    Alike R (responseBody C x) (responseBody D y) := by
  unfold responseBody
  obtain ⟨e, x, y, status, hc, hd, hxy⟩ := parseLine_sim h hxy []
  rw [hc, hd]
  cases e with
  | some e => exact alike hxy
  | none =>
  have hfuel := fuel_sim h hxy
  obtain ⟨e, x, y, ⟨rem, size⟩, hc, hd, hxy⟩ := responseLines_sim h (fuel D y) [] 0 hxy
  simp only [hfuel, hc, hd]
  cases e with
  | some e => exact alike hxy
  | none =>
  obtain ⟨hr, hbody⟩ := bodyLoop_sim h size [] hxy
  simp only [h.bytesTotal hxy, h.bytesRead hxy]
  split
  · exact alike hxy
  · rw [hbody]
    exact alike hr

end Simulation

/-! ## Plain text -/

/-- A position in a text: the bytes in front of it, the byte that
`getChar` reads once they are used up, and the length of the text. -/
structure Text where
  rest : List UInt8
  past : UInt8
  total : ℕ

def Text.cursor : Cursor Text where
  eob t := t.rest.isEmpty
  getChar t := t.rest.headD t.past
  next t := { t with rest := t.rest.tail }
  bytesRead t := t.total - t.rest.length
  bytesTotal t := t.total

section

variable {p x : UInt8} {n : ℕ} {xs : List UInt8}

@[simp] theorem Text.eob_nil : Text.cursor.eob ⟨[], p, n⟩ = true := rfl

@[simp] theorem Text.eob_cons : Text.cursor.eob ⟨x :: xs, p, n⟩ = false := rfl

@[simp] theorem Text.getChar_nil : Text.cursor.getChar ⟨[], p, n⟩ = p := rfl

@[simp] theorem Text.getChar_cons : Text.cursor.getChar ⟨x :: xs, p, n⟩ = x := rfl

@[simp] theorem Text.next_cons : Text.cursor.next ⟨x :: xs, p, n⟩ = ⟨xs, p, n⟩ := rfl

end

/-- The start of a text. -/
def Text.start (s : List UInt8) (past : UInt8) : Text := ⟨s, past, s.length⟩

theorem iterator_sim {b : Buffer} (hb : Iterator.Readable b) :
    (Iterator.cursor b).Sim Text.cursor fun it t =>
      Iterator.At b it t.rest ∧ t.past = Iterator.past b ∧ t.total = b.content.length := by
  refine ⟨?_, ?_, ?_, ?_, ?_⟩
  · rintro it t ⟨hat, -, -⟩
    rw [Bool.eq_iff_iff]
    exact hat.eob_iff.trans List.isEmpty_iff.symm
  · rintro it ⟨rest, past, total⟩ ⟨hat, hpast, -⟩
    cases rest with
    | nil => exact hat.getChar_nil.trans hpast.symm
    | cons x xs => exact hat.getChar_cons
  · rintro it ⟨rest, past, total⟩ ⟨hat, hpast, htotal⟩
    refine ⟨?_, hpast, htotal⟩
    cases rest with
    | nil =>
        show Iterator.At b (it.next b) []
        rw [hat.next_nil]
        exact hat
    | cons x xs => exact hat.next_cons hb.inv.inner
  · rintro it t ⟨hat, -, htotal⟩
    have := hat.read
    show it.bytesRead = t.total - t.rest.length
    omega
  · rintro it t ⟨hat, -, htotal⟩
    exact hat.total.trans htotal.symm

theorem start_related {b : Buffer} (hb : Iterator.Readable b) :
    Iterator.At b (Iterator.begin b) (Text.start b.content (Iterator.past b)).rest
      ∧ (Text.start b.content (Iterator.past b)).past = Iterator.past b
      ∧ (Text.start b.content (Iterator.past b)).total = b.content.length :=
  ⟨Iterator.begin_at hb, rfl, rfl⟩

/-- What the parser returns on a buffer is what it returns on the text
of the content followed by the byte behind it. -/
theorem requestOf_text {b : Buffer} (hb : Iterator.Readable b) :
    (requestOf b).1 = (parseRequest Text.cursor (Text.start b.content (Iterator.past b))).1
      ∧ (requestOf b).2.1 = (parseRequest Text.cursor (Text.start b.content (Iterator.past b))).2.1
      ∧ (requestOf b).2.2.bytesRead = b.content.length
          - (parseRequest Text.cursor
              (Text.start b.content (Iterator.past b))).2.2.rest.length := by
  obtain ⟨e, it, t, r, hc, hd, hat, -, -⟩ := requestBody_sim (iterator_sim hb) (start_related hb)
  have := hat.read
  simp only [requestOf, parseRequest, hc, hd]
  exact ⟨trivial, trivial, by omega⟩

theorem responseOf_text {b : Buffer} (hb : Iterator.Readable b) :
    (responseOf b).1 = (parseResponse Text.cursor (Text.start b.content (Iterator.past b))).1
      ∧ (responseOf b).2.1
          = (parseResponse Text.cursor (Text.start b.content (Iterator.past b))).2.1
      ∧ (responseOf b).2.2.bytesRead = b.content.length
          - (parseResponse Text.cursor
              (Text.start b.content (Iterator.past b))).2.2.rest.length := by
  obtain ⟨e, it, t, r, hc, hd, hat, -, -⟩ := responseBody_sim (iterator_sim hb) (start_related hb)
  have := hat.read
  simp only [responseOf, parseResponse, hc, hd]
  exact ⟨trivial, trivial, by omega⟩

end Parser

end HttpServer
