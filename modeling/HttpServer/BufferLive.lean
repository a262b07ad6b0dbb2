import HttpServer.BufferQueue

/-!
# The read point of a buffer

`readPtr()` and the iterators take the read position as it is: they are
at the first byte of the content only if that position is not on an
exhausted chunk that others follow (`Live`). Every operation keeps it so
except one: `write` on a full chunk that was read to its end leaves the
read position where it is and goes on in a new chunk.

A full last chunk is left by `advance` alone, and an exhausted one by
`consume` alone, so the read point is live in every sequence of calls
that does without one of the three (`Plain`).
-/

namespace HttpServer

namespace Buffer

theorem newChunk_sizeAt (b : Buffer) (i : ℕ) : b.newChunk.sizeAt i = b.sizeAt i := by
  show (b.sizes ++ [0]).getD i 0 = b.sizes.getD i 0
  rw [List.getD_eq_getElem?_getD, List.getD_eq_getElem?_getD, List.getElem?_append]
  by_cases hi : i < b.sizes.length
  · rw [if_pos hi]
  · rw [if_neg hi, List.getElem?_eq_none (Nat.le_of_not_lt hi)]
    cases i - b.sizes.length <;> rfl

theorem newChunk_readSize (b : Buffer) : b.newChunk.readSize = b.readSize :=
  congrArg (· - b.rpos.off) (newChunk_sizeAt b b.rpos.idx)

theorem grow_sizeAt {b : Buffer} (h : b.Wf) (n : ℕ) :
    (b.grow n).sizeAt b.wpos.idx = b.wpos.off + n := by
  have hlt : b.wpos.idx < b.sizes.length := by have := h.len; have := h.widx; omega
  have hwo := h.woff
  simp only [sizeAt, grow, List.getD_eq_getElem?_getD, List.getElem?_modify, if_true] at hwo ⊢
  rw [List.getElem?_eq_getElem hlt] at hwo ⊢
  simp only [Option.getD_some] at hwo
  simp [hwo]

theorem grow_sizeAt_of_ne (b : Buffer) (n : ℕ) {i : ℕ} (hi : i ≠ b.wpos.idx) :
    (b.grow n).sizeAt i = b.sizeAt i := by
  simp [sizeAt, grow, Ne.symm hi]

theorem new_live (heap : ℕ → ℕ → UInt8) : (new heap).Live := fun _ => rfl

theorem store_live {b : Buffer} (hl : b.Live) (data : List UInt8) : (b.store data).Live := hl

theorem grow_live {b : Buffer} (h0 : b.rpos.idx = 0) (hl : b.Live) (n : ℕ) : (b.grow n).Live := by
  intro hz
  by_contra hne
  have hi : b.rpos.idx ≠ b.wpos.idx := by rw [h0]; exact fun h => hne h.symm
  refine hne (hl ?_)
  rw [← hz]
  exact congrArg (· - b.rpos.off) (grow_sizeAt_of_ne b n hi).symm

theorem advance_live {b : Buffer} (h : b.Inv) (hl : b.Live) (n : ℕ) : (b.advance n).1.Live := by
  unfold advance
  split
  · exact hl
  · split
    · exact grow_live h.first hl n
    · exact hl

/-- With the read position on the last chunk and nothing to read there,
both positions are the same. -/
theorem rpos_eq_wpos {b : Buffer} (h : b.Wf) (h0 : b.rpos.idx = 0) (hw : b.wpos.idx = 0)
    (hz : b.readSize = 0) : b.rpos = b.wpos := by
  have hro := h.roff
  have hwo := h.woff
  rw [readSize, h0] at hz
  rw [h0] at hro
  rw [hw] at hwo
  rw [Position.mk.injEq b.rpos.idx b.rpos.off b.wpos.idx b.wpos.off]
  omega

theorem reserve_live {b : Buffer} (h : b.Inv) (hl : b.Live) (n : ℕ) : (b.reserve n).1.Live := by
  unfold reserve
  split
  · exact hl
  · split
    · exact hl
    · by_cases heq : b.rpos = b.wpos
      · simp only [if_pos heq]
        intro _
        have hw : b.wpos.idx = 0 := by rw [← heq, h.first]
        have hone : b.chunks.length = 1 := by rw [← h.wf.widx, hw]
        simp [dropChunks, setRpos, newChunk, addChunk, hone]
      · simp only [if_neg heq]
        intro hz
        rw [newChunk_readSize] at hz
        exact absurd (rpos_eq_wpos h.wf h.first (hl hz) hz) heq

/-- A round of `write` keeps the read point live unless the one chunk
there is was filled and read to its end. -/
theorem writeRound_live {b : Buffer} (h : b.Wf) (h0 : b.rpos.idx = 0) (hl : b.Live)
    (hroom : ¬(b.rpos = b.wpos ∧ b.wpos.off = BlockSize)) {data : List UInt8}
    (hdata : 0 < data.length) : (b.writeRound data).1.Live := by
  have hn : min b.writeSize data.length ≤ data.length := Nat.min_le_right ..
  have hws : b.writeSize = BlockSize - b.wpos.off := rfl
  have hoff := h.off_le
  simp only [writeRound]
  generalize hm : min b.writeSize data.length = n at *
  have hput : (data.take n).length = n := by rw [List.length_take]; omega
  have hfit : (data.take n).length ≤ b.writeSize := by omega
  have hwf := (put_spec h hfit).1
  rw [hput] at hwf
  have hlive : ((b.store (data.take n)).grow n).Live :=
    grow_live (b := b.store (data.take n)) h0 (store_live hl _) n
  split
  · intro hz
    rw [newChunk_readSize] at hz
    -- the grown chunk would have nothing to read
    have hw : b.wpos.idx = 0 := hlive hz
    have hrs : b.rpos.off = b.wpos.off + n := by
      have := congrArg Position.off (rpos_eq_wpos hwf h0 hw hz)
      exact this
    have hro := h.roff
    have hwo := h.woff
    rw [h0] at hro
    rw [hw] at hwo
    exfalso
    refine hroom ⟨?_, by omega⟩
    rw [Position.mk.injEq b.rpos.idx b.rpos.off b.wpos.idx b.wpos.off]
    omega
  · exact hlive

theorem writeLoop_live : ∀ (fuel : ℕ) {b : Buffer} {data : List UInt8}, b.Wf → b.rpos.idx = 0 →
    (∀ c ∈ b.cells.dropLast, c ≠ []) → b.Live →
    (data ≠ [] → ¬(b.rpos = b.wpos ∧ b.wpos.off = BlockSize)) → (writeLoop fuel b data).Live
  | 0, _, _, _, _, _, hl, _ => hl
  | fuel + 1, b, data, h, h0, hin, hl, hroom => by
      rw [writeLoop_succ]
      by_cases hd : data.length > 0
      · rw [if_pos hd]
        obtain ⟨hwf, hinner, -, hr, hws, -⟩ := writeRound_spec h hin data
        have hlive := writeRound_live h h0 hl (hroom (List.ne_nil_of_length_pos hd)) hd
        refine writeLoop_live fuel hwf (by rw [hr, h0]) hinner hlive fun _ hfull => ?_
        rw [writeSize, hfull.2] at hws
        omega
      · rw [if_neg hd]
        exact hl

theorem write_live {b : Buffer} (h : b.Inv) (hl : b.Live)
    (hroom : ¬(b.rpos = b.wpos ∧ b.wpos.off = BlockSize)) (data : List UInt8) :
    (b.write data).Live :=
  writeLoop_live _ h.wf h.first h.inner hl fun _ => hroom

/-- `write` leaves room in the last chunk. -/
theorem writeLoop_room : ∀ (fuel : ℕ) {b : Buffer} {data : List UInt8}, b.Wf →
    (∀ c ∈ b.cells.dropLast, c ≠ []) → 0 < b.writeSize → 0 < (writeLoop fuel b data).writeSize
  | 0, _, _, _, _, hroom => hroom
  | fuel + 1, b, data, h, hin, hroom => by
      rw [writeLoop_succ]
      split
      · obtain ⟨hwf, hinner, -, -, hws, -⟩ := writeRound_spec h hin data
        exact writeLoop_room fuel hwf hinner hws
      · exact hroom

theorem write_room {b : Buffer} (h : b.Inv) (hroom : 0 < b.writeSize) (data : List UInt8) :
    0 < (b.write data).writeSize :=
  writeLoop_room _ h.wf h.inner hroom

theorem writeLoop_rpos : ∀ (fuel : ℕ) (b : Buffer) (data : List UInt8),
    (writeLoop fuel b data).rpos = b.rpos
  | 0, _, _ => rfl
  | fuel + 1, b, data => by
      rw [writeLoop_succ]
      split
      · have hr : (b.writeRound data).1.rpos = b.rpos := by
          simp only [writeRound]
          split <;> rfl
        rw [writeLoop_rpos fuel, hr]
      · rfl

theorem consumeLoop_wpos : ∀ (fuel : ℕ) (b : Buffer) (n d : ℕ),
    (consumeLoop fuel b n d).1.wpos = b.wpos
  | 0, _, _, _ => rfl
  | fuel + 1, b, n, d => by
      rw [consumeLoop]
      split
      · simp only
        split
        · rw [consumeLoop_wpos fuel]
          rfl
        · rw [consumeLoop_wpos fuel]
          rfl
      · rfl

theorem consume_writeSize (b : Buffer) (n : ℕ) : (b.consume n).writeSize = b.writeSize := by
  have hw := consumeLoop_wpos (b.wpos.idx - b.rpos.idx + 1) b n 0
  rcases hloop : consumeLoop (b.wpos.idx - b.rpos.idx + 1) b n 0 with ⟨b₁, m, d⟩
  rw [hloop] at hw
  simp only at hw
  have hoff : (b.consume n).wpos.off = b₁.wpos.off := by
    simp only [consume, hloop, dropChunks]
    split <;> split <;> rfl
  rw [writeSize, writeSize, hoff, hw]

/-! ## Plain sequences of calls -/

/-- The three ways to use a buffer: fill the reserved area, write,
consume. -/
inductive Op.Kind where
  | fill
  | write
  | consume
deriving DecidableEq

def Op.kind : Op → Op.Kind
  | .reserve _ => .fill
  | .store _ => .fill
  | .advance _ => .fill
  | .write _ => .write
  | .consume _ => .consume

/-- One of the three ways is not used. -/
def Plain (ops : List Op) : Prop := ∃ k, ∀ op ∈ ops, op.kind ≠ k

theorem apply_live {b : Buffer} (h : b.Inv) (hl : b.Live) (op : Op)
    (hroom : op.kind = .write → ¬(b.rpos = b.wpos ∧ b.wpos.off = BlockSize)) :
    (b.apply op).Live := by
  cases op with
  | reserve n => exact reserve_live h hl n
  | store data =>
      simp only [apply]
      split
      · exact store_live hl data
      · exact hl
  | advance n => exact advance_live h hl n
  | write data => exact write_live h hl (hroom rfl) data
  | consume n => exact consume_live h hl n

/-- Without `consume` the read position stays at the start of a chunk. -/
theorem apply_rpos_off {b : Buffer} {op : Op} (hk : op.kind ≠ .consume) (h : b.rpos.off = 0) :
    (b.apply op).rpos.off = 0 := by
  cases op with
  | reserve n =>
      simp only [apply, reserve]
      split
      · exact h
      · split
        · exact h
        · split
          · rfl
          · exact h
  | store data =>
      simp only [apply]
      split <;> exact h
  | advance n =>
      simp only [apply, advance]
      split
      · exact h
      · split <;> exact h
  | write data =>
      show (writeLoop _ b data).rpos.off = 0
      rw [writeLoop_rpos]
      exact h
  | consume n => exact absurd rfl hk

/-- Without `advance` the last chunk is never full. -/
theorem apply_room {b : Buffer} (h : b.Inv) {op : Op} (hk : op.kind ≠ .fill)
    (hroom : 0 < b.writeSize) : 0 < (b.apply op).writeSize := by
  cases op with
  | reserve n => exact absurd rfl hk
  | store data => exact absurd rfl hk
  | advance n => exact absurd rfl hk
  | write data => exact write_room h hroom data
  | consume n =>
      show 0 < (b.consume n).writeSize
      rw [consume_writeSize]
      exact hroom

/-- What keeps `write` away from an exhausted full chunk when one way to
use the buffer is left out. -/
def Guard (b : Buffer) : Op.Kind → Prop
  | .fill => 0 < b.writeSize
  | .write => True
  | .consume => b.rpos.off = 0

theorem Guard.room {b : Buffer} {k : Op.Kind} (hg : b.Guard k) {op : Op} (hk : op.kind ≠ k)
    (hop : op.kind = .write) : ¬(b.rpos = b.wpos ∧ b.wpos.off = BlockSize) := by
  rintro ⟨heq, hfull⟩
  cases k with
  | fill =>
      have hlt : 0 < BlockSize - b.wpos.off := hg
      omega
  | write => exact hk hop
  | consume =>
      have hz : b.rpos.off = 0 := hg
      rw [heq, hfull] at hz
      exact absurd hz (by decide)

theorem apply_guard {b : Buffer} (h : b.Inv) {k : Op.Kind} (hg : b.Guard k) {op : Op}
    (hk : op.kind ≠ k) : (b.apply op).Guard k := by
  cases k with
  | fill => exact apply_room h hk hg
  | write => exact trivial
  | consume => exact apply_rpos_off hk hg

theorem run_live (heap : ℕ → ℕ → UInt8) {ops : List Op} (hp : Plain ops) :
    (run heap ops).Live := by
  obtain ⟨k, hk⟩ := hp
  unfold run
  have hg : (new heap).Guard k := by
    cases k with
    | fill => show 0 < BlockSize; decide
    | write => exact trivial
    | consume => rfl
  have hinv := (new_inv heap).1
  have hl := new_live heap
  generalize new heap = b at hg hinv hl
  induction ops generalizing b with
  | nil => exact hl
  | cons op ops ih =>
      have hop := hk op (List.mem_cons_self ..)
      exact ih (fun o ho => hk o (List.mem_cons_of_mem _ ho)) (b.apply op) (apply_guard hinv hg hop)
        (apply_inv hinv op) (apply_live hinv hl op (hg.room hop))

/-! ## One kind of producer -/

def Op.isAdvance : Op → Bool
  | .advance _ => true
  | _ => false

def Op.isWrite : Op → Bool
  | .write _ => true
  | _ => false

/-- The producer uses `write`, or `advance`, and not both. -/
def Unmixed (ops : List Op) : Prop :=
  (∀ op ∈ ops, op.isAdvance = false) ∨ ∀ op ∈ ops, op.isWrite = false

theorem reserve_room {b : Buffer} (hroom : 0 < b.writeSize) (n : ℕ) :
    0 < (b.reserve n).1.writeSize := by
  unfold reserve
  split
  · exact hroom
  · split
    · exact hroom
    · -- the write position is at the start of a new chunk
      simp only
      split
      · show 0 < BlockSize - 0
        decide
      · show 0 < BlockSize - 0
        decide

/-- Without `advance` the last chunk is never full, `reserve` or not. -/
theorem apply_room_of_isAdvance {b : Buffer} (h : b.Inv) {op : Op} (hk : op.isAdvance = false)
    (hroom : 0 < b.writeSize) : 0 < (b.apply op).writeSize := by
  cases op with
  | reserve n => exact reserve_room hroom n
  | store data =>
      simp only [apply]
      split <;> exact hroom
  | advance n => cases hk
  | write data => exact write_room h hroom data
  | consume n =>
      show 0 < (b.consume n).writeSize
      rw [consume_writeSize]
      exact hroom

theorem foldl_live_of_isAdvance : ∀ (ops : List Op) {b : Buffer}, b.Inv → b.Live →
    0 < b.writeSize → (∀ op ∈ ops, op.isAdvance = false) → (ops.foldl apply b).Live
  | [], _, _, hl, _, _ => hl
  | op :: ops, b, h, hl, hroom, hops => by
      obtain ⟨hop, hops⟩ := List.forall_mem_cons.mp hops
      refine foldl_live_of_isAdvance ops (apply_inv h op) (apply_live h hl op fun _ hfull => ?_)
        (apply_room_of_isAdvance h hop hroom) hops
      rw [writeSize, hfull.2] at hroom
      omega

theorem foldl_live_of_isWrite : ∀ (ops : List Op) {b : Buffer}, b.Inv → b.Live →
    (∀ op ∈ ops, op.isWrite = false) → (ops.foldl apply b).Live
  | [], _, _, hl, _ => hl
  | op :: ops, b, h, hl, hops => by
      obtain ⟨hop, hops⟩ := List.forall_mem_cons.mp hops
      refine foldl_live_of_isWrite ops (apply_inv h op) (apply_live h hl op fun hw => ?_) hops
      cases op with
      | write data => exact Bool.noConfusion hop
      | _ => cases hw

theorem run_live_of_unmixed (heap : ℕ → ℕ → UInt8) {ops : List Op} (hu : Unmixed ops) :
    (run heap ops).Live := by
  have hinv := (new_inv heap).1
  rcases hu with hu | hu
  · exact foldl_live_of_isAdvance ops hinv (new_live heap) (show 0 < BlockSize by decide) hu
  · exact foldl_live_of_isWrite ops hinv (new_live heap) hu

/-! ## Appending -/

theorem run_append (heap : ℕ → ℕ → UInt8) (ops more : List Op) :
    run heap (ops ++ more) = more.foldl apply (run heap ops) :=
  List.foldl_append

theorem Plain.left {ops more : List Op} (h : Plain (ops ++ more)) : Plain ops := by
  obtain ⟨k, hk⟩ := h
  exact ⟨k, fun op hop => hk op (List.mem_append_left _ hop)⟩

/-- Calls other than `consume` append to the content. -/
theorem apply_appends {b : Buffer} (h : b.Inv) {op : Op} (hk : op.kind ≠ .consume) :
    ∃ t, (b.apply op).content = b.content ++ t := by
  cases op with
  | reserve n => exact ⟨[], by rw [List.append_nil]; exact (reserve_spec h n).2.1⟩
  | store data =>
      refine ⟨[], ?_⟩
      rw [List.append_nil]
      simp only [apply]
      split
      · exact (store_spec h data).2.1
      · rfl
  | advance n =>
      obtain ⟨-, -, hok, hno⟩ := advance_spec h n
      by_cases hr : (b.advance n).2 = true
      · exact ⟨b.atWritePtr n, hok hr⟩
      · refine ⟨[], ?_⟩
        rw [List.append_nil]
        exact congrArg content (hno (Bool.eq_false_iff.mpr hr))
  | write data => exact ⟨data, (write_spec h data).2⟩
  | consume n => exact absurd rfl hk

theorem foldl_appends : ∀ (more : List Op) {b : Buffer}, b.Inv →
    (∀ op ∈ more, op.kind ≠ .consume) → ∃ t, (more.foldl apply b).content = b.content ++ t
  | [], _, _, _ => ⟨[], (List.append_nil _).symm⟩
  | op :: more, b, h, hk => by
      obtain ⟨hop, hmore⟩ := List.forall_mem_cons.mp hk
      obtain ⟨t, ht⟩ := apply_appends h hop
      obtain ⟨t', ht'⟩ := foldl_appends more (apply_inv h op) hmore
      exact ⟨t ++ t', by rw [List.foldl_cons, ht', ht, List.append_assoc]⟩

/-- Any text can be held with any byte behind it: the producer stores
the byte without counting it as written. -/
theorem exists_run_past (heap : ℕ → ℕ → UInt8) (s : List UInt8) (x : UInt8) :
    ∃ ops : List Op, (∀ op ∈ ops, op.kind ≠ .consume) ∧ (run heap ops).content = s
      ∧ (run heap ops).memAt (run heap ops).wpos.idx (run heap ops).wpos.off = x := by
  obtain ⟨hinv, hcont⟩ := write_spec (new_inv heap).1 s
  have hroom : 0 < ((new heap).write s).writeSize :=
    write_room (new_inv heap).1 (show 0 < BlockSize by decide) s
  have hrun : run heap [.write s, .store [x]] = ((new heap).write s).store [x] :=
    if_pos (show [x].length ≤ ((new heap).write s).writeSize from hroom)
  obtain ⟨-, hsc, hsp⟩ := store_spec hinv [x]
  refine ⟨[.write s, .store [x]], ?_, ?_, ?_⟩
  · intro op hop
    simp only [List.mem_cons, List.not_mem_nil, or_false] at hop
    rcases hop with rfl | rfl
    · exact (by decide : Op.Kind.write ≠ Op.Kind.consume)
    · exact (by decide : Op.Kind.fill ≠ Op.Kind.consume)
  · rw [hrun, hsc, hcont, (new_inv heap).2, List.nil_append]
  · rw [hrun]
    simpa [atWritePtr] using hsp

end Buffer

end HttpServer
