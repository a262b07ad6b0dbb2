import HttpServer.Lib.Calls
import HttpServer.Lib.Ring

/-!
# The circular buffer

`CircularBuffer` (circular_buffer.cpp) keeps ints in an array of slots,
each with a flag that says whether it was read, and has one position for
reading and one for writing. `BoundedQueue` is what it is for: a queue
that forgets its oldest value when it is full.

The unread slots are those of the indices `r, …, r + q.length - 1` of the
ring, `r` counting the values that left the queue `q` (`Rep`). Full and
empty queues have the two positions equal and differ in the flags only.
-/

namespace HttpServer

/-! ## Queues of bounded length -/

structure BoundedQueue (α : Type*) (n : ℕ) where
  values : List α
  bounded : values.length ≤ n

namespace BoundedQueue

variable {α : Type*} {n : ℕ}

def empty : BoundedQueue α n := ⟨[], Nat.zero_le n⟩

/-- What is kept of the queue when a value comes in. -/
def kept (q : BoundedQueue α n) : List α :=
  if q.values.length = n then q.values.tail else q.values

theorem length_kept_lt [NeZero n] (q : BoundedQueue α n) : q.kept.length < n := by
  have hn : 0 < n := Nat.pos_of_neZero n
  have hle := q.bounded
  rw [kept]
  by_cases hfull : q.values.length = n
  · rw [if_pos hfull, List.length_tail]
    omega
  · rw [if_neg hfull]
    omega

def write [NeZero n] (q : BoundedQueue α n) (value : α) : BoundedQueue α n where
  values := q.kept ++ [value]
  bounded := by
    have hlt := q.length_kept_lt
    rw [List.length_append]
    exact hlt

/-- The queue without its oldest value. -/
def drop (q : BoundedQueue α n) : BoundedQueue α n where
  values := q.values.tail
  bounded := by
    have hle := q.bounded
    rw [List.length_tail]
    omega

end BoundedQueue

/-! ## The buffer -/

/-- `struct circularBuffer`. -/
structure Slot where
  value : ℤ
  read : Bool
deriving DecidableEq, Repr

structure CircularBuffer where
  buffer : List Slot
  readPosition : ℕ
  writePosition : ℕ
  length : ℕ
deriving DecidableEq, Repr

namespace CircularBuffer

/-- `buffer[i].read = true`. -/
def markSlot (buffer : List Slot) (i : ℕ) : Option (List Slot) := do
  let slot ← buffer[i]?
  some (buffer.set i { slot with read := true })

/-- The loop over all slots. -/
def markRead (length : ℕ) (buffer : List Slot) : Option (List Slot) :=
  (List.range length).foldlM markSlot buffer

/-- How many slots the constructor takes. -/
def capacity (slots : ℕ) : ℕ := if slots = 0 then 10 else slots

/-- The constructor; the slots that it allocates hold anything. -/
def new (slots : ℕ) (memory : ℕ → Slot) : Option CircularBuffer := do
  let length := capacity slots
  let buffer ← markRead length ((List.range length).map memory)
  some ⟨buffer, 0, 0, length⟩

/-- `position++`, and back to 0 at the end of the array. -/
def advance (b : CircularBuffer) (position : ℕ) : ℕ :=
  if position + 1 = b.length then 0 else position + 1

def write (b : CircularBuffer) (value : ℤ) : Option CircularBuffer := do
  let slot ← b.buffer[b.writePosition]?
  let readPosition := if slot.read = false then b.advance b.readPosition else b.readPosition
  some { b with
    buffer := b.buffer.set b.writePosition ⟨value, false⟩
    readPosition
    writePosition := b.advance b.writePosition }

def read (b : CircularBuffer) : Option (CircularBuffer × ℤ) := do
  let slot ← b.buffer[b.readPosition]?
  if slot.read = true then some (b, -1)
  else
    some ({ b with
      buffer := b.buffer.set b.readPosition { slot with read := true }
      readPosition := b.advance b.readPosition }, slot.value)

def clear (b : CircularBuffer) : Option CircularBuffer := do
  let buffer ← markRead b.length b.buffer
  some { b with buffer, writePosition := 0, readPosition := 0 }

/-! ## Calls -/

inductive Call where
  | write (value : ℤ)
  | read
  | clear
deriving DecidableEq, Repr

/-- One call; only `read` answers. -/
def call (b : CircularBuffer) : Call → Option (CircularBuffer × Option ℤ)
  | .write value => do
      let b ← b.write value
      some (b, none)
  | .read => do
      let (b, answer) ← b.read
      some (b, some answer)
  | .clear => do
      let b ← b.clear
      some (b, none)

end CircularBuffer

/-- The calls on a queue of ints: a `read` of an empty one answers `-1`. -/
def BoundedQueue.call {n : ℕ} [NeZero n] (q : BoundedQueue ℤ n) :
    CircularBuffer.Call → BoundedQueue ℤ n × Option ℤ
  | .write value => (q.write value, none)
  | .read => (q.drop, some (q.values.head?.getD (-1)))
  | .clear => (.empty, none)

namespace CircularBuffer

variable {b : CircularBuffer} {q : List ℤ} {r : ℤ}

/-! ## The slots -/

/-- The value to be read at a position, if there is one. -/
def unread (buffer : List Slot) (p : ℕ) : Option ℤ :=
  buffer[p]?.bind fun slot => if slot.read then none else some slot.value

theorem unread_of_getElem? {buffer : List Slot} {p : ℕ} {slot : Slot} (h : buffer[p]? = some slot) :
    unread buffer p = if slot.read then none else some slot.value := by
  rw [unread, h, Option.bind_some]

theorem unread_set {buffer : List Slot} {p : ℕ} (hp : p < buffer.length) (slot : Slot) :
    unread (buffer.set p slot)
      = Function.update (unread buffer) p (if slot.read then none else some slot.value) := by
  funext p'
  by_cases heq : p' = p
  · subst heq
    rw [Function.update_self, unread_of_getElem? (List.getElem?_set_self hp)]
  · rw [Function.update_of_ne heq, unread, unread, List.getElem?_set_ne (Ne.symm heq)]

theorem markRead_succ (buffer : List Slot) (k : ℕ) :
    markRead (k + 1) buffer = (markRead k buffer).bind fun buffer => markSlot buffer k := by
  simp [markRead, List.range_succ, List.foldlM_append]

/-- The first `k` rounds of the loop. -/
theorem markRead_rounds (buffer : List Slot) {k : ℕ} (hk : k ≤ buffer.length) :
    ∃ buffer', markRead k buffer = some buffer' ∧ buffer'.length = buffer.length
      ∧ ∀ p < k, unread buffer' p = none := by
  induction k with
  | zero => exact ⟨buffer, rfl, rfl, by simp⟩
  | succ k ih =>
      obtain ⟨buffer', hmark, hlen, hread⟩ := ih (Nat.le_of_succ_le hk)
      have hlt : k < buffer'.length := by omega
      have hslot : buffer'[k]? = some buffer'[k] := List.getElem?_eq_getElem hlt
      refine ⟨buffer'.set k { buffer'[k] with read := true }, ?_, by simp [hlen], fun p hp => ?_⟩
      · rw [markRead_succ, hmark, Option.bind_some, markSlot, hslot]
        rfl
      · rw [unread_set hlt]
        by_cases hpk : p = k
        · subst hpk
          simp
        · rw [Function.update_of_ne hpk]
          exact hread p (by omega)

theorem markRead_spec (buffer : List Slot) :
    ∃ buffer', markRead buffer.length buffer = some buffer' ∧ buffer'.length = buffer.length
      ∧ ∀ p, unread buffer' p = none := by
  obtain ⟨buffer', hmark, hlen, hread⟩ := markRead_rounds buffer le_rfl
  refine ⟨buffer', hmark, hlen, fun p => ?_⟩
  by_cases hp : p < buffer.length
  · exact hread p hp
  · rw [unread, List.getElem?_eq_none (by omega)]
    rfl

/-! ## The queue in the slots -/

structure Rep (b : CircularBuffer) (q : List ℤ) (r : ℤ) : Prop where
  pos : 0 < b.length
  size : b.buffer.length = b.length
  bounded : q.length ≤ b.length
  read : b.readPosition = Ring.pos b.length r
  write : b.writePosition = Ring.pos b.length (r + q.length)
  shows : Ring.Shows b.length (r + b.length - 1) (fun i => q[(i - r).toNat]?) (unread b.buffer)

theorem Rep.pos_lt (h : Rep b q r) (i : ℤ) : Ring.pos b.length i < b.buffer.length :=
  h.size ▸ Ring.pos_lt h.pos i

theorem Rep.slot (h : Rep b q r) (i : ℤ) : ∃ slot, b.buffer[Ring.pos b.length i]? = some slot
    ∧ unread b.buffer (Ring.pos b.length i) = if slot.read then none else some slot.value := by
  have hslot := List.getElem?_eq_getElem (h.pos_lt i)
  exact ⟨_, hslot, unread_of_getElem? hslot⟩

theorem Rep.advance (h : Rep b q r) (i : ℤ) :
    b.advance (Ring.pos b.length i) = Ring.pos b.length (i + 1) := Ring.pos_next h.pos i

/-- The slot at the reading position holds the oldest value. -/
theorem Rep.first (h : Rep b q r) : unread b.buffer (Ring.pos b.length r) = q.head? := by
  have hpos := h.pos
  rw [h.shows r (by omega) (by omega)]
  simp [List.head?_eq_getElem?]

/-- The slot at the writing position is unread when the queue is full. -/
theorem Rep.last (h : Rep b q r) : unread b.buffer (Ring.pos b.length (r + q.length)) = none
    ↔ q.length ≠ b.length := by
  have hpos := h.pos
  have hle := h.bounded
  by_cases hfull : q.length = b.length
  · rw [hfull, Ring.pos_add_turn, h.first]
    have hne : q ≠ [] := fun hnil => by
      rw [← hfull, hnil] at hpos
      exact absurd hpos (Nat.lt_irrefl 0)
    simp [hne]
  · rw [h.shows (r + q.length) (by omega) (by omega)]
    simp [hfull]

theorem Rep.empty {buffer : List Slot} {n : ℕ} (hn : 0 < n) (hlen : buffer.length = n)
    (hread : ∀ p, unread buffer p = none) : Rep ⟨buffer, 0, 0, n⟩ [] 0 where
  pos := hn
  size := hlen
  bounded := Nat.zero_le n
  read := by simp [Ring.pos]
  write := by simp [Ring.pos]
  shows := fun i _ _ => by simp [hread]

/-! ## The calls -/

theorem capacity_pos (slots : ℕ) : 0 < capacity slots := by
  rw [capacity]
  split <;> omega

theorem new_rep (slots : ℕ) (memory : ℕ → Slot) :
    ∃ b, new slots memory = some b ∧ b.length = capacity slots ∧ Rep b [] 0 := by
  have hsize : ((List.range (capacity slots)).map memory).length = capacity slots := by simp
  obtain ⟨buffer, hmark, hlen, hread⟩ := markRead_spec ((List.range (capacity slots)).map memory)
  rw [hsize] at hmark hlen
  exact ⟨⟨buffer, 0, 0, capacity slots⟩, by simp [new, hmark], rfl,
    .empty (capacity_pos slots) hlen hread⟩

theorem clear_spec (h : Rep b q r) :
    ∃ b', b.clear = some b' ∧ b'.length = b.length ∧ Rep b' [] 0 := by
  obtain ⟨buffer, hmark, hlen, hread⟩ := markRead_spec b.buffer
  rw [h.size] at hmark hlen
  exact ⟨⟨buffer, 0, 0, b.length⟩, by simp [clear, hmark], rfl, .empty h.pos hlen hread⟩

/-- `read` takes the oldest value. -/
theorem read_spec (h : Rep b q r) : ∃ b' r', b.read = some (b', q.head?.getD (-1))
    ∧ b'.length = b.length ∧ Rep b' q.tail r' := by
  obtain ⟨slot, hslot, hunread⟩ := h.slot r
  rw [h.first] at hunread
  rw [← h.read] at hslot
  cases q with
  | nil =>
      have hread : slot.read = true := by
        by_contra hno
        simp [hno] at hunread
      exact ⟨b, r, by simp [CircularBuffer.read, hslot, hread], rfl, h⟩
  | cons v q =>
      obtain ⟨hread, rfl⟩ : slot.read = false ∧ slot.value = v := by
        cases hr : slot.read <;> simp_all
      have hbound : q.length + 1 ≤ b.length := h.bounded
      have hp : b.readPosition < b.buffer.length := h.read ▸ h.pos_lt r
      let b' : CircularBuffer := { b with
        buffer := b.buffer.set b.readPosition { slot with read := true }
        readPosition := b.advance b.readPosition }
      refine ⟨b', r + 1, by simp [CircularBuffer.read, hslot, hread, b'], rfl, ?_⟩
      refine ⟨h.pos, by simpa [b'] using h.size, Nat.le_of_succ_le hbound, ?_, ?_, ?_⟩
      · rw [show b'.readPosition = b.advance b.readPosition from rfl, h.read]
        exact h.advance r
      · refine h.write.trans (congrArg (Ring.pos b.length) ?_)
        simp only [List.length_cons, List.tail_cons]
        omega
      · -- the slot that was read is the one of the index that comes into the window
        have hnone : q[(r + b.length - (r + 1)).toNat]? = none := List.getElem?_eq_none (by omega)
        have hset : unread b'.buffer
            = Function.update (unread b.buffer) (Ring.pos b.length (r + b.length)) none := by
          rw [Ring.pos_add_turn, ← h.read]
          exact unread_set hp _
        have hend : r + 1 + (b.length : ℤ) - 1 = r + b.length := by omega
        rw [hset, ← hnone, show b'.length = b.length from rfl, hend]
        refine h.shows.put h.pos (by omega) le_rfl ?_
        intro i hlo hhi hne
        refine ⟨by omega, by omega, ?_⟩
        have hidx : (i - r).toNat = (i - (r + 1)).toNat + 1 := by omega
        simp only [hidx, List.getElem?_cons_succ, List.tail_cons]

/-- `write` appends, after the oldest value went if the queue is full. -/
theorem Rep.unread_write (h : Rep b q r) (v : ℤ) :
    unread (b.buffer.set b.writePosition ⟨v, false⟩)
      = Function.update (unread b.buffer) (Ring.pos b.length (r + q.length)) (some v) := by
  have hp : b.writePosition < b.buffer.length := h.write ▸ h.pos_lt _
  rw [← h.write]
  exact unread_set hp _

/-- The new value takes the slot of the oldest one. -/
theorem Rep.write_full (h : Rep b q r) (hfull : q.length = b.length) (v : ℤ) :
    Rep { b with
      buffer := b.buffer.set b.writePosition ⟨v, false⟩
      readPosition := b.advance b.readPosition
      writePosition := b.advance b.writePosition } (q.tail ++ [v]) (r + 1) := by
  have hpos := h.pos
  have hlen : (q.tail ++ [v]).length = b.length := by
    rw [List.length_append, List.length_tail, List.length_singleton]
    omega
  refine ⟨h.pos, by simpa using h.size, hlen.le, ?_, ?_, ?_⟩
  · rw [h.read]
    exact h.advance r
  · rw [h.write, hlen, hfull]
    exact (h.advance _).trans (congrArg (Ring.pos b.length) (by omega))
  · have hnew : (q.tail ++ [v])[(r + q.length - (r + 1)).toNat]? = some v := by
      have hidx : (r + q.length - (r + 1)).toNat = q.tail.length := by
        rw [List.length_tail]
        omega
      rw [hidx, List.getElem?_concat_length]
    dsimp only
    rw [h.unread_write, ← hnew]
    refine h.shows.put h.pos (by omega) (by omega) ?_
    intro i hlo hhi hne
    refine ⟨by omega, by omega, ?_⟩
    have hidx : (i - r).toNat = (i - (r + 1)).toNat + 1 := by omega
    have hlt : (i - (r + 1)).toNat < q.tail.length := by
      rw [List.length_tail]
      omega
    simp only [hidx, List.getElem?_append_left hlt, List.getElem?_tail]

/-- The new value takes a slot that was read. -/
theorem Rep.write_room (h : Rep b q r) (hroom : q.length ≠ b.length) (v : ℤ) :
    Rep { b with
      buffer := b.buffer.set b.writePosition ⟨v, false⟩
      writePosition := b.advance b.writePosition } (q ++ [v]) r := by
  have hbound := h.bounded
  have hlen : (q ++ [v]).length = q.length + 1 := List.length_append
  have hle : q.length + 1 ≤ b.length := by omega
  refine ⟨h.pos, by simpa using h.size, hlen ▸ hle, h.read, ?_, ?_⟩
  · rw [h.write, hlen]
    exact (h.advance _).trans (congrArg (Ring.pos b.length) (by omega))
  · have hnew : (q ++ [v])[(r + q.length - r).toNat]? = some v := by
      have hidx : (r + q.length - r).toNat = q.length := by omega
      rw [hidx, List.getElem?_concat_length]
    dsimp only
    rw [h.unread_write, ← hnew]
    refine h.shows.put h.pos (by omega) (by omega) ?_
    intro i hlo hhi hne
    refine ⟨hlo, hhi, ?_⟩
    have hcases : (i - r).toNat < q.length ∨ q.length + 1 ≤ (i - r).toNat := by omega
    rcases hcases with hlt | hge
    · simp only [List.getElem?_append_left hlt]
    · have hnone : q[(i - r).toNat]? = none := List.getElem?_eq_none (by omega)
      have hnone' : (q ++ [v])[(i - r).toNat]? = none := List.getElem?_eq_none (hlen ▸ hge)
      simp only [hnone, hnone']

theorem write_spec (h : Rep b q r) (v : ℤ) : ∃ b' r', b.write v = some b' ∧ b'.length = b.length
    ∧ Rep b' ((if q.length = b.length then q.tail else q) ++ [v]) r' := by
  obtain ⟨slot, hslot, hunread⟩ := h.slot (r + q.length)
  have hlast := h.last
  rw [hunread] at hlast
  rw [← h.write] at hslot
  by_cases hfull : q.length = b.length
  · have hread : slot.read = false := by
      cases hr : slot.read with
      | false => rfl
      | true => exact absurd hfull (hlast.mp (by simp [hr]))
    rw [if_pos hfull]
    refine ⟨_, r + 1, ?_, ?_, h.write_full hfull v⟩
    · simp [write, hslot, hread]
    · rfl
  · have hread : slot.read = true := by
      cases hr : slot.read with
      | false => exact absurd (hlast.mpr hfull) (by simp [hr])
      | true => rfl
    rw [if_neg hfull]
    refine ⟨_, r, ?_, ?_, h.write_room hfull v⟩
    · simp [write, hslot, hread]
    · rfl

instance (slots : ℕ) : NeZero (capacity slots) := ⟨(capacity_pos slots).ne'⟩

/-- The buffer holds the queue. -/
def Holds {n : ℕ} (b : CircularBuffer) (q : BoundedQueue ℤ n) : Prop :=
  b.length = n ∧ ∃ r, Rep b q.values r

theorem Holds.positions {n : ℕ} {q : BoundedQueue ℤ n} (h : b.Holds q) :
    b.readPosition < b.length ∧ b.writePosition < b.length := by
  obtain ⟨-, r, hr⟩ := h
  exact ⟨hr.read ▸ Ring.pos_lt hr.pos _, hr.write ▸ Ring.pos_lt hr.pos _⟩

theorem call_spec {n : ℕ} [NeZero n] {q : BoundedQueue ℤ n} (h : b.Holds q) (c : Call) :
    ∃ b', b.call c = some (b', (q.call c).2) ∧ b'.Holds (q.call c).1 := by
  obtain ⟨rfl, r, hr⟩ := h
  cases c with
  | write value =>
      obtain ⟨b', r', hwrite, hlen, hr'⟩ := write_spec hr value
      exact ⟨b', by simp [call, hwrite, BoundedQueue.call], hlen, r', hr'⟩
  | read =>
      obtain ⟨b', r', hread, hlen, hr'⟩ := read_spec hr
      exact ⟨b', by simp [call, hread, BoundedQueue.call], hlen, r', hr'⟩
  | clear =>
      obtain ⟨b', hclear, hlen, hr'⟩ := clear_spec hr
      exact ⟨b', by simp [call, hclear, BoundedQueue.call], hlen, 0, hr'⟩

/-- The buffer answers as the queue does, and its positions stay inside. -/
theorem is_bounded_queue (slots : ℕ) (memory : ℕ → Slot) (calls : List Call) :
    ∃ b₀ b, new slots memory = some b₀
      ∧ Calls.run call b₀ calls
        = some (b, Calls.answers BoundedQueue.call (.empty : BoundedQueue ℤ (capacity slots)) calls)
      ∧ b.Holds (Calls.after BoundedQueue.call (.empty : BoundedQueue ℤ (capacity slots)) calls)
      ∧ b.length = capacity slots ∧ b.readPosition < b.length ∧ b.writePosition < b.length := by
  obtain ⟨b₀, hnew, hlen, hr⟩ := new_rep slots memory
  have hinit : b₀.Holds (.empty : BoundedQueue ℤ (capacity slots)) := ⟨hlen, 0, hr⟩
  obtain ⟨b, hrun, hb⟩ := Calls.run_refines (R := Holds) (fun _ _ c h => call_spec h c) hinit
    calls
  exact ⟨b₀, b, hnew, hrun, hb, hb.1, hb.positions⟩

end CircularBuffer

end HttpServer
