import Mathlib.Data.List.Infix
import HttpServer.BufferCopy
import HttpServer.BufferIter

/-!
# Where the read point stalls

A consumer that takes `readSize()` bytes at a time and an iterator go on
as long as the read position is not left on an exhausted chunk (`Flows`).
`reserve` moves the read position when it adds a chunk behind one that
was read to its end. `write` and `copyFrom` do not: the calls that leave
the read point behind are those of `Call.Stalls`, and no others
(`call_live_iff`).
-/

namespace HttpServer

namespace Buffer

/-! ## Calls -/

/-- The buffers that calls lead to; `copyFrom` takes another of them that
was not read from. -/
inductive Reached : Buffer → Prop where
  | new (heap : ℕ → ℕ → UInt8) : Reached (new heap)
  | apply {b : Buffer} (op : Op) (h : Reached b) : Reached (b.apply op)
  | copyFrom {b other : Buffer} (h : Reached b) (ho : Reached other)
      (hc : other.isConsumed = false) : Reached (b.copyFrom other)

/-- A buffer to copy from. -/
structure Source where
  buf : Buffer
  reached : Reached buf
  unread : buf.isConsumed = false

inductive Call where
  | op (op : Op)
  | copyFrom (other : Source)

def call (b : Buffer) : Call → Buffer
  | .op op => b.apply op
  | .copyFrom other => b.copyFrom other.buf

def runCalls (heap : ℕ → ℕ → UInt8) (calls : List Call) : Buffer := calls.foldl call (new heap)

theorem Reached.inv {b : Buffer} (h : Reached b) : b.Inv := by
  induction h with
  | new heap => exact (new_inv heap).1
  | apply op _ ih => exact apply_inv ih op
  | copyFrom _ _ hc ih iho => exact (copyFrom_spec ih iho hc).1

theorem runCalls_concat (heap : ℕ → ℕ → UInt8) (calls : List Call) (c : Call) :
    runCalls heap (calls ++ [c]) = (runCalls heap calls).call c := by
  rw [runCalls, runCalls, List.foldl_append]
  rfl

theorem runCalls_reached (heap : ℕ → ℕ → UInt8) (calls : List Call) :
    Reached (runCalls heap calls) := by
  induction calls using List.reverseRecOn with
  | nil => exact .new heap
  | append_singleton calls c ih =>
      rw [runCalls_concat]
      cases c with
      | op op => exact .apply op ih
      | copyFrom other => exact .copyFrom ih other.reached other.unread

/-! ## Reading on -/

/-- A consumer that reads `readSize()` bytes and consumes them as long as
there are any. -/
def drain : ℕ → Buffer → List UInt8
  | 0, _ => []
  | n + 1, b =>
      if b.readSize = 0 then []
      else (b.peek b.readPtr b.readSize).getD [] ++ drain n (b.consume b.readSize)

/-- What a reader relies on: there is something at the read position
unless the buffer is empty, the consumer above gets everything, and
`while (!it.eob()) it.next()` ends. -/
structure Flows (b : Buffer) : Prop where
  readable : b.readSize = 0 ↔ b.byteCount = 0
  drained : ∃ n, ∀ m ≥ n, drain m b = b.content
  iterated : ∃ n, ((Iterator.next b)^[n] (Iterator.begin b)).eob b = true

theorem drain_eq {n : ℕ} : ∀ {b : Buffer}, b.Inv → b.Live → b.content.length < n →
    drain n b = b.content := by
  induction n with
  | zero =>
      intro b _ _ hn
      exact absurd hn (Nat.not_lt_zero _)
  | succ n ih =>
      intro b h hl hn
      rw [drain]
      by_cases hz : b.readSize = 0
      · rw [if_pos hz]
        by_contra hne
        have hpos := hl.readSize_pos h (Ne.symm hne)
        omega
      · rw [if_neg hz, peek_eq h (Nat.le_refl _), Option.getD_some]
        obtain ⟨hinv, hcont, -⟩ := consume_spec h b.readSize
        have hle := readSize_le h.wf
        have hshort : (b.consume b.readSize).content.length < n := by
          rw [hcont, List.length_drop]
          omega
        rw [ih hinv (consume_live h hl _) hshort, hcont, List.take_append_drop]

theorem iterate_at {b : Buffer} (h : Iterator.Readable b) : ∀ n ≤ b.content.length,
    Iterator.At b ((Iterator.next b)^[n] (Iterator.begin b)) (b.content.drop n) := by
  intro n
  induction n with
  | zero => exact fun _ => Iterator.begin_at h
  | succ n ih =>
      intro hn
      rw [Function.iterate_succ_apply']
      have hat := ih (Nat.le_of_succ_le hn)
      rw [← List.cons_getElem_drop_succ (h := hn)] at hat
      exact hat.next_cons h.inv.inner

theorem flows_iff_live {b : Buffer} (h : b.Inv) : b.Flows ↔ b.Live := by
  constructor
  · intro hf hz
    have hnil : b.content = [] := by
      rw [← List.length_eq_zero_iff, ← byteCount_eq h]
      exact hf.readable.mp hz
    exact h.widx_of_nil hnil
  · intro hl
    refine ⟨?_, ⟨b.content.length + 1, fun m hm => drain_eq h hl hm⟩, b.content.length, ?_⟩
    · rw [byteCount_eq h, List.length_eq_zero_iff]
      constructor
      · intro hz
        by_contra hne
        have hpos := hl.readSize_pos h hne
        omega
      · exact readSize_of_nil h.wf
    · have hat := iterate_at ⟨h, hl⟩ b.content.length (Nat.le_refl _)
      rw [List.drop_length] at hat
      exact hat.eob_iff.mpr rfl

/-- Something to read, and none of it at the read position. -/
theorem not_live_of_stuck {b : Buffer} (h : b.Inv) (hz : b.readSize = 0) (hne : b.content ≠ []) :
    ¬ b.Live := by
  intro hl
  have hpos := hl.readSize_pos h hne
  omega

/-! ## Stalls -/

/-- The calls that leave the read position on an exhausted chunk: it is at
the write position, and there is no room there for `write`, or not enough
for the first chunk that `copyFrom` copies. -/
def Call.Stalls (b : Buffer) : Call → Prop
  | .op (.write data) => data ≠ [] ∧ b.rpos = b.wpos ∧ b.wpos.off = BlockSize
  | .copyFrom other => b.rpos = b.wpos ∧ b.writeSize < other.buf.readSize
  | _ => False

theorem sizeAt_le {b : Buffer} (h : b.Wf) (i : ℕ) : b.sizeAt i ≤ BlockSize := by
  rw [sizeAt, List.getD_eq_getElem?_getD]
  cases hi : b.sizes[i]? with
  | none => exact Nat.zero_le _
  | some n => exact h.bound n (List.mem_of_getElem? hi)

theorem write_live_iff {b : Buffer} (h : b.Inv) (hl : b.Live) (data : List UInt8) :
    (b.write data).Live ↔ ¬(data ≠ [] ∧ b.rpos = b.wpos ∧ b.wpos.off = BlockSize) := by
  constructor
  · rintro hlive ⟨hne, heq, hfull⟩
    obtain ⟨hinv, hcont⟩ := write_spec h data
    refine not_live_of_stuck hinv ?_ ?_ hlive
    · have hr : (b.write data).rpos = b.rpos := writeLoop_rpos ..
      have hle := sizeAt_le hinv.wf b.rpos.idx
      rw [readSize, hr, heq, hfull]
      rw [heq] at hle
      omega
    · rw [hcont]
      simp [hne]
  · intro hroom
    by_cases hne : data = []
    · subst hne
      exact hl
    · exact write_live h hl (fun hfull => hroom ⟨hne, hfull⟩) data

theorem copyLoop_rpos : ∀ (l : List (Chunk × ℕ)) (first : Bool) (b : Buffer),
    (copyLoop l first b).rpos = b.rpos
  | [], _, _ => rfl
  | (c, len) :: rest, first, b => by
      rw [copyLoop, copyLoop_rpos rest]
      split <;> rfl

/-- Behind the first chunk that it copies the loop fills new ones. -/
theorem copyLoop_sizeAt : ∀ (l : List (Chunk × ℕ)) {b : Buffer} {i : ℕ},
    b.wpos.idx + 1 = b.chunks.length → i ≤ b.wpos.idx →
    (copyLoop l false b).sizeAt i = b.sizeAt i
  | [], _, _, _, _ => rfl
  | (c, len) :: rest, b, i, hw, hi => by
      have hidx : b.newChunk.wpos.idx = b.chunks.length := by simp [newChunk, addChunk]
      have hlen : b.newChunk.chunks.length = b.chunks.length + 1 := by simp [newChunk, addChunk]
      rw [copyLoop, copyLoop_sizeAt rest]
      · show ((b.newChunk.store (c.slice 0 len)).grow len).sizeAt i = _
        rw [grow_sizeAt_of_ne (b.newChunk.store (c.slice 0 len)) len
          (show i ≠ b.newChunk.wpos.idx by omega)]
        exact newChunk_sizeAt b i
      · show b.newChunk.wpos.idx + 1 = ((b.newChunk.chunks).modify _ _).length
        rw [List.length_modify, hidx, hlen]
      · show i ≤ b.newChunk.wpos.idx
        omega

/-- The first chunk of a buffer that was not read from. -/
theorem Source.chunks (other : Source) : ∃ c rest,
    other.buf.chunks.zip other.buf.sizes = (c, other.buf.readSize) :: rest := by
  have hwf := other.reached.inv.wf
  have hpos : other.buf.rpos = ⟨0, 0⟩ := by
    rw [Position.mk.injEq other.buf.rpos.idx other.buf.rpos.off 0 0]
    exact isConsumed_eq_false.mp other.unread
  have hlen := hwf.len
  have hw := hwf.widx
  rw [readSize, hpos, sizeAt]
  cases hc : other.buf.chunks with
  | nil => simp [hc] at hw
  | cons c cs =>
      cases hs : other.buf.sizes with
      | nil => simp [hc, hs] at hlen
      | cons n ns => exact ⟨c, cs.zip ns, by simp⟩

/-- What can be read after a `copyFrom`: what the loop left in the first
chunk. -/
theorem copyFrom_readSize {b : Buffer} {other : Source} (hz : other.buf.readSize ≠ 0) :
    (b.copyFrom other.buf).readSize
      = (copyLoop (other.buf.chunks.zip other.buf.sizes) true b).sizeAt b.rpos.idx
        - b.rpos.off := by
  unfold copyFrom
  rw [if_neg (by simp [other.unread]), if_neg hz]
  have hr := copyLoop_rpos (other.buf.chunks.zip other.buf.sizes) true b
  simp only
  split
  · rw [newChunk_readSize, readSize, hr]
  · rw [readSize, hr]

theorem copyFrom_of_empty {b : Buffer} {other : Source} (hz : other.buf.readSize = 0) :
    b.copyFrom other.buf = b := by
  unfold copyFrom
  rw [if_neg (by simp [other.unread]), if_pos hz]

theorem copyFrom_ne_nil {b : Buffer} (h : b.Inv) {other : Source} (hz : other.buf.readSize ≠ 0) :
    (b.copyFrom other.buf).content ≠ [] := by
  obtain ⟨-, hcont, -⟩ := copyFrom_spec h other.reached.inv other.unread
  rw [hcont]
  intro hnil
  exact hz (readSize_of_nil other.reached.inv.wf (List.append_eq_nil_iff.mp hnil).2)

/-- The bytes go to a new chunk, and the read position stays. -/
theorem copyFrom_readSize_of_lt {b : Buffer} (h : b.Inv) (heq : b.rpos = b.wpos) {other : Source}
    (hroom : b.writeSize < other.buf.readSize) : (b.copyFrom other.buf).readSize = 0 := by
  have hw := h.wf.widx
  have hidx : b.newChunk.wpos.idx = b.chunks.length := by simp [newChunk, addChunk]
  have hlen : b.newChunk.chunks.length = b.chunks.length + 1 := by simp [newChunk, addChunk]
  obtain ⟨c, rest, hzip⟩ := other.chunks
  have hstore : (b.newChunk.store (c.slice 0 other.buf.readSize)).sizeAt b.rpos.idx
      = b.newChunk.sizeAt b.rpos.idx := rfl
  rw [copyFrom_readSize (Nat.ne_of_gt (Nat.zero_lt_of_lt hroom)), hzip, copyLoop]
  simp only [Bool.not_true, Bool.false_or, hroom, decide_true, if_true]
  rw [copyLoop_sizeAt, grow_sizeAt_of_ne, hstore, newChunk_sizeAt, heq, h.wf.woff, Nat.sub_self]
  · show b.rpos.idx ≠ b.newChunk.wpos.idx
    rw [heq]
    omega
  · show b.newChunk.wpos.idx + 1 = ((b.newChunk.chunks).modify _ _).length
    rw [List.length_modify, hidx, hlen]
  · show b.rpos.idx ≤ b.newChunk.wpos.idx
    rw [heq]
    omega

/-- The bytes of the first chunk fit behind the read position. -/
theorem copyFrom_readSize_of_le {b : Buffer} (h : b.Inv) (heq : b.rpos = b.wpos) {other : Source}
    (hz : other.buf.readSize ≠ 0) (hfit : ¬b.writeSize < other.buf.readSize) :
    (b.copyFrom other.buf).readSize = other.buf.readSize := by
  obtain ⟨c, rest, hzip⟩ := other.chunks
  have hwf := (store_spec h (c.slice 0 other.buf.readSize)).1.wf
  rw [copyFrom_readSize hz, hzip, copyLoop]
  simp only [Bool.not_true, Bool.false_or, gt_iff_lt, hfit, decide_false, Bool.false_eq_true,
    if_false]
  rw [copyLoop_sizeAt, heq]
  · have hidx : b.wpos.idx = (b.store (c.slice 0 other.buf.readSize)).wpos.idx := rfl
    have hoff : (b.store (c.slice 0 other.buf.readSize)).wpos.off = b.wpos.off := rfl
    rw [hidx, grow_sizeAt hwf, hoff, Nat.add_sub_cancel_left]
  · show b.wpos.idx + 1 = (b.chunks.modify _ _).length
    rw [List.length_modify, h.wf.widx]
  · show b.rpos.idx ≤ b.wpos.idx
    rw [heq]

theorem copyFrom_live_iff {b : Buffer} (h : b.Inv) (hl : b.Live) (other : Source) :
    (b.copyFrom other.buf).Live ↔ ¬(b.rpos = b.wpos ∧ b.writeSize < other.buf.readSize) := by
  have ho := other.reached.inv
  by_cases hz : other.buf.readSize = 0
  · rw [copyFrom_of_empty hz]
    exact iff_of_true hl (by omega)
  by_cases hstall : b.rpos = b.wpos ∧ b.writeSize < other.buf.readSize
  · obtain ⟨heq, hroom⟩ := hstall
    have hinv := (copyFrom_spec h ho other.unread).1
    have hread := copyFrom_readSize_of_lt h heq hroom
    exact iff_of_false (not_live_of_stuck hinv hread (copyFrom_ne_nil h hz))
      (not_not.mpr ⟨heq, hroom⟩)
  · refine iff_of_true ?_ hstall
    by_cases hread : b.readSize = 0
    · -- there was nothing to read, so both positions are the same
      have heq := rpos_eq_wpos h.wf h.first (hl hread) hread
      have hfit : ¬ b.writeSize < other.buf.readSize := fun hlt => hstall ⟨heq, hlt⟩
      intro hzero
      rw [copyFrom_readSize_of_le h heq hz hfit] at hzero
      exact absurd hzero hz
    · exact copyFrom_live h (Nat.pos_of_ne_zero hread) ho other.unread

/-- From a live read point a call leads to one unless it stalls. -/
theorem call_live_iff {b : Buffer} (h : b.Inv) (hl : b.Live) (c : Call) :
    (b.call c).Live ↔ ¬ c.Stalls b := by
  cases c with
  | copyFrom other => exact copyFrom_live_iff h hl other
  | op op =>
      cases op with
      | reserve n => exact iff_of_true (reserve_live h hl n) not_false
      | store data => exact iff_of_true (apply_live h hl (.store data) nofun) not_false
      | advance n => exact iff_of_true (advance_live h hl n) not_false
      | write data => exact write_live_iff h hl data
      | consume n => exact iff_of_true (consume_live h hl n) not_false

/-- In a run every buffer lets its readers go on exactly when no call
stalls. -/
theorem read_point_moves_iff (heap : ℕ → ℕ → UInt8) (calls : List Call) :
    (∀ pre, pre <+: calls → (runCalls heap pre).Flows)
      ↔ ∀ pre c, pre ++ [c] <+: calls → ¬ c.Stalls (runCalls heap pre) := by
  have hinv pre : (runCalls heap pre).Inv := (runCalls_reached heap pre).inv
  constructor
  · intro hflows pre c hpre
    have hl := (flows_iff_live (hinv pre)).mp (hflows pre ((List.prefix_append pre [c]).trans hpre))
    have hl' := (flows_iff_live (hinv _)).mp (hflows _ hpre)
    rw [runCalls_concat] at hl'
    exact (call_live_iff (hinv pre) hl c).mp hl'
  · intro hok pre
    induction pre using List.reverseRecOn with
    | nil => exact fun _ => (flows_iff_live (hinv [])).mpr (new_live heap)
    | append_singleton pre c ih =>
        intro hpre
        have hl := (flows_iff_live (hinv pre)).mp (ih ((List.prefix_append pre [c]).trans hpre))
        rw [flows_iff_live (hinv _), runCalls_concat]
        exact (call_live_iff (hinv pre) hl c).mpr (hok pre c hpre)

/-- A chunk filled and read to its end, then one more byte. -/
theorem fullChunk_stalls :
    (runCalls (fun _ _ => 0)
        [.op (.advance 4096), .op (.consume 4096), .op (.write [1])]).readSize = 0
      ∧ (runCalls (fun _ _ => 0)
          [.op (.advance 4096), .op (.consume 4096), .op (.write [1])]).byteCount = 1 := by
  decide

end Buffer

end HttpServer
