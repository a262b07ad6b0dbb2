import HttpServer.HttpConnection
import Mathlib.Data.Nat.Digits.Lemmas

/-!
# Answers of the key-value server

`KVServerConnection::handleRequest` (kv_connection.cpp) formats the value
of a key into an array of two `char` and declares the size of the array
as the length of the body. A number takes its digits, its sign and a
NUL in the array: one digit is all that fits, and then the declared
length is one too many. So no value is answered as it should be
(`value_never_framed`); the client takes a byte of what follows for the
second digit, or waits for one (`responseSpec_value`).
-/

namespace HttpServer

namespace KVConnection

open Buffer HttpConnection HttpServer.Parser Incremental

/-- `sprintf` with `"%d"`, without the NUL. -/
def intText (v : ℤ) : List UInt8 := if v < 0 then 45 :: sizeText v.natAbs else sizeText v.natAbs

/-- `sizeof(temp)`. -/
def tempSize : ℕ := 2

/-- The digits, the sign and the NUL fit in `temp`. -/
def Fits (v : ℤ) : Prop := (intText v).length + 1 ≤ tempSize

instance (v : ℤ) : Decidable (Fits v) := inferInstanceAs (Decidable (_ ≤ _))

/-- The string in `temp`. Nothing is said when `sprintf` writes behind
the end of the array. -/
def temp (v : ℤ) : Option (List UInt8) := if Fits v then some (intText v) else none

/-- The branch that answers 200. -/
def writeValue (heap : ℕ → ℕ → UInt8) (out : Buffer) (value : ℤ) : Option Buffer :=
  (temp value).map fun text =>
    let buf := Buffer.new heap
    let out := writeHeader out tempSize
    let buf := buf.write text
    out.copyFrom buf

/-- What `handleRequest` answers when `findKey` has found a value, or
none. -/
def answer (heap : ℕ → ℕ → UInt8) (out : Buffer) : Option ℤ → Option Buffer
  | some value => writeValue heap out value
  | none => some (writeBadRequest out)

/-! ## The text of a number -/

theorem sizeText_length_le {m : ℕ} (hm : 1 ≤ m) (n : ℕ) :
    (sizeText n).length ≤ m ↔ n < 10 ^ m := by
  unfold sizeText
  split
  · next h0 => simp [h0, hm]
  · rw [List.length_reverse, List.length_map]
    exact Nat.digits_length_le_iff (by decide) n

theorem sizeText_length_pos (n : ℕ) : 0 < (sizeText n).length :=
  List.length_pos_iff.mpr (sizeText_ne_nil n)

/-- Only a single digit fits. -/
theorem fits_iff (v : ℤ) : Fits v ↔ 0 ≤ v ∧ v ≤ 9 := by
  have hpos := sizeText_length_pos v.natAbs
  have hone := sizeText_length_le (m := 1) le_rfl v.natAbs
  unfold Fits tempSize intText
  split
  · rw [List.length_cons]
    omega
  · omega

theorem Fits.length {v : ℤ} (h : Fits v) : (intText v).length = 1 := by
  have hpos := sizeText_length_pos v.natAbs
  unfold Fits tempSize at h
  unfold intText at h ⊢
  split at h
  · rw [List.length_cons] at h
    omega
  · next hneg =>
      rw [if_neg hneg]
      omega

/-! ## What is appended -/

/-- The bytes of an answer. -/
def valueText (v : ℤ) : List UInt8 := headerText tempSize ++ intText v

theorem new_write_unread (heap : ℕ → ℕ → UInt8) (data : List UInt8) :
    ((new heap).write data).isConsumed = false := by
  have hr : ((new heap).write data).rpos = (new heap).rpos := writeLoop_rpos _ _ _
  rw [isConsumed_eq_false, hr]
  exact ⟨rfl, rfl⟩

theorem writeValue_spec (heap : ℕ → ℕ → UInt8) {out : Buffer} (h : out.Inv) {v : ℤ} (hv : Fits v) :
    ∃ out', writeValue heap out v = some out' ∧ out'.Inv
      ∧ out'.content = out.content ++ valueText v := by
  obtain ⟨hinv, hhead⟩ := writeHeader_spec h tempSize
  obtain ⟨hnew, hnil⟩ := new_inv heap
  obtain ⟨hbuf, hbody⟩ := write_spec hnew (intText v)
  obtain ⟨hinv', hcopy, -⟩ := copyFrom_spec hinv hbuf (new_write_unread heap (intText v))
  refine ⟨_, by rw [writeValue, temp, if_pos hv]; rfl, hinv', ?_⟩
  rw [hcopy, hhead, hbody, hnil, List.nil_append, valueText, List.append_assoc]

/-- The client takes the byte behind the answer for a part of it, and
waits when there is none. -/
theorem responseSpec_value {v : ℤ} (hv : Fits v) :
    responseSpec (valueText v) = .more .incomplete
      ∧ ∀ (c : UInt8) (rest : List UInt8), responseSpec (valueText v ++ c :: rest)
          = .done ⟨statusLine, (headerLines tempSize).flatten, intText v ++ [c]⟩ rest := by
  have hlen := hv.length
  have hn : tempSize < 2 ^ 64 := by decide
  constructor
  · exact responseSpec_header_short hn (by rw [hlen]; decide)
  · intro c rest
    have htake : (intText v ++ c :: rest).take tempSize = intText v ++ [c] := by
      rw [List.take_append, hlen, List.take_of_length_le (by rw [hlen]; decide)]
      rfl
    have hdrop : (intText v ++ c :: rest).drop tempSize = rest := by
      rw [List.drop_append, hlen, List.drop_of_length_le (by rw [hlen]; decide)]
      rfl
    rw [valueText, List.append_assoc, responseSpec_header hn, htake, hdrop]
    rw [List.length_append, hlen, List.length_cons, tempSize]
    omega

/-! ## Framing -/

/-- The bytes that the answer appends are parsed as one response with
the text of the value. -/
def Parsed (heap : ℕ → ℕ → UInt8) (out : Buffer) (v : ℤ) : Prop :=
  ∃ out' s, answer heap out (some v) = some out' ∧ out'.content = out.content ++ s
    ∧ ∀ inb, Iterator.Readable inb → inb.content = s →
        (responseOf inb).1 = .ret 0 ∧ (responseOf inb).2.1.body = intText v
          ∧ (responseOf inb).2.2.bytesRead = s.length

/-- The value fits in the array, the declared length is that of the
body, and the client reads the value back. -/
structure Framed (heap : ℕ → ℕ → UInt8) (out : Buffer) (v : ℤ) : Prop where
  fits : Fits v
  declared : tempSize = (intText v).length
  parsed : Parsed heap out v

/-- No value is framed: the array is too short for it, or the length is
not its own, and in neither case it is read back. -/
theorem value_never_framed (heap : ℕ → ℕ → UInt8) (calls : List Call) (v : ℤ) :
    ¬Framed heap (runCalls heap calls) v ∧ ¬(Fits v ∧ tempSize = (intText v).length)
      ∧ ¬Parsed heap (runCalls heap calls) v := by
  have hunparsed : ¬Parsed heap (runCalls heap calls) v := by
    rintro ⟨out', s, hout, hs, hread⟩
    by_cases hv : Fits v
    · obtain ⟨out'', hout', -, hcont⟩ := writeValue_spec heap (runCalls_reached heap calls).inv hv
      obtain rfl := Option.some.inj (hout'.symm.trans hout)
      obtain rfl := List.append_cancel_left (hcont.symm.trans hs)
      obtain ⟨inb, hb, hin⟩ := exists_readable (valueText v)
      have hrep := responseOf_reports hb
      rw [hin, (responseSpec_value hv).1] at hrep
      have hone : (responseOf inb).1 = .ret 1 := hrep
      have hzero := (hread inb hb hin).1
      rw [hone] at hzero
      cases hzero
    · rw [answer, writeValue, temp, if_neg hv] at hout
      cases hout
  refine ⟨fun h => hunparsed h.parsed, fun ⟨hfits, hlen⟩ => ?_, hunparsed⟩
  rw [hfits.length] at hlen
  cases hlen

/-- The table of the service holds the value 10: its text and the NUL
are three bytes. -/
theorem ten_not_framed :
    intText 10 = [49, 48] ∧ temp 10 = none
      ∧ ¬∀ v, -2 ^ 31 ≤ v → v < 2 ^ 31 → Framed (fun _ _ => 0) (new fun _ _ => 0) v := by
  have hlong : ¬Fits 10 := by rw [fits_iff]; decide
  exact ⟨by decide, if_neg hlong, fun hall => hlong (hall 10 (by decide) (by decide)).fits⟩

end KVConnection

end HttpServer
