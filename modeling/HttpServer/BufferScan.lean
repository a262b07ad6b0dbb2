import HttpServer.BufferStall

/-!
# A scan of the content

What a loop over the iterators of a buffer sees, from `begin()` on: the
bytes of the content in order, each inside the written part of its chunk,
and then the end, however the chunks are laid out.

`byteNext` is the step that the two paths of `next` implement: one
position further in the chunk, or the start of the next one.
-/

namespace HttpServer

namespace Iterator

open Buffer

/-- `Buffer::end`. -/
def end_ (b : Buffer) : Iterator := { begin b with pos := b.wpos }

/-- `operator==` of iterators. -/
def equals (it other : Iterator) : Bool :=
  it.pos.idx == other.pos.idx && it.pos.off == other.pos.off

/-- The position of the next byte. -/
def byteNext (b : Buffer) (p : Position) : Position :=
  if p.off < b.sizeAt p.idx then
    if p.off + 1 = b.sizeAt p.idx ∧ p.idx < b.wpos.idx then ⟨p.idx + 1, 0⟩
    else ⟨p.idx, p.off + 1⟩
  else p

variable {b : Buffer} {it : Iterator} {rest : List UInt8}

/-! ## One step -/

theorem slowNext_pos (b : Buffer) (it : Iterator) :
    (it.slowNext b).pos = byteNext b it.pos := by
  rw [slowNext, byteNext]
  by_cases hlt : it.pos.off < b.sizeAt it.pos.idx
  · rw [if_pos hlt, if_pos hlt]
    by_cases hcross : it.pos.off + 1 = b.sizeAt it.pos.idx ∧ it.pos.idx < b.wpos.idx
    · rw [if_pos hcross]
      simp only [if_pos hcross]
    · rw [if_neg hcross]
      simp only [if_neg hcross]
  · rw [if_neg hlt, if_neg hlt]

/-- The fast path does what the slow one would do. -/
theorem At.slowNext_eq (h : At b it rest) : it.slowNext b = it.next b := by
  rw [next]
  by_cases hfast : it.budget > 1
  · have hb := h.budget
    unfold getBudget at hb
    have hlt : it.pos.off < b.sizeAt it.pos.idx := by omega
    have hcross : ¬(it.pos.off + 1 = b.sizeAt it.pos.idx ∧ it.pos.idx < b.wpos.idx) := by omega
    have hleft : b.sizeAt it.pos.idx - (it.pos.off + 1) = it.budget - 1 := by omega
    rw [if_pos hfast, slowNext, if_pos hlt]
    simp only [if_neg hcross, getBudget, hleft]
  · rw [if_neg hfast]

theorem At.next_pos (h : At b it rest) : (it.next b).pos = byteNext b it.pos := by
  rw [← h.slowNext_eq, slowNext_pos]

theorem At.next_drop (hin : ∀ c ∈ b.cells.dropLast, c ≠ []) (h : At b it rest) :
    At b (it.next b) (rest.drop 1) := by
  cases rest with
  | nil =>
      rw [h.next_nil]
      exact h
  | cons x rest => exact h.next_cons hin

theorem At.equals_end (h : At b it rest) : it.equals (end_ b) = true ↔ rest = [] := by
  have hpos : it.equals (end_ b) = true ↔ it.pos = b.wpos := by
    rw [equals, Bool.and_eq_true, beq_iff_eq, beq_iff_eq, Position.mk.injEq it.pos.idx it.pos.off
      b.wpos.idx b.wpos.off]
    exact Iff.rfl
  rw [hpos]
  rcases h.pos_cases with ⟨x, xs, rfl, hlt, -⟩ | ⟨rfl, heq⟩
  · refine iff_of_false (fun heq => ?_) (List.cons_ne_nil _ _)
    have hwo : b.sizeAt b.wpos.idx = b.wpos.off := h.wf.woff
    rw [heq, hwo] at hlt
    exact absurd hlt (Nat.lt_irrefl _)
  · exact iff_of_true heq rfl

/-- In front of a byte the iterator is inside the written part of a chunk. -/
theorem At.inside {x : UInt8} (h : At b it (x :: rest)) :
    it.getChar = x ∧ it.pos.idx < b.chunks.length ∧ it.pos.off < b.sizeAt it.pos.idx
      ∧ it.chunkStart = b.memAt it.pos.idx := by
  refine ⟨h.getChar_cons, ?_, ?_, h.start⟩
  · have hwi : b.wpos.idx + 1 = b.chunks.length := h.wf.widx
    have hri : it.pos.idx ≤ b.wpos.idx := h.wf.ridx
    omega
  · rcases h.pos_cases with ⟨y, ys, -, hlt, -⟩ | ⟨heq, -⟩
    · exact hlt
    · cases heq

/-! ## A whole scan -/

/-- Where the iterator is after `k` calls of `next`. -/
theorem next_iterate_at (h : Readable b) (k : ℕ) :
    At b ((next b)^[k] (begin b)) (b.content.drop k) := by
  induction k with
  | zero => exact begin_at h
  | succ k ih =>
      rw [Function.iterate_succ_apply', ← List.drop_drop]
      exact ih.next_drop h.inv.inner

theorem slowNext_iterate (h : Readable b) (k : ℕ) :
    (slowNext b)^[k] (begin b) = (next b)^[k] (begin b) := by
  induction k with
  | zero => rfl
  | succ k ih =>
      rw [Function.iterate_succ_apply', Function.iterate_succ_apply', ih]
      exact (next_iterate_at h k).slowNext_eq

theorem next_iterate_pos (h : Readable b) (k : ℕ) :
    ((next b)^[k] (begin b)).pos = (byteNext b)^[k] b.rpos := by
  induction k with
  | zero => rfl
  | succ k ih =>
      rw [Function.iterate_succ_apply', Function.iterate_succ_apply', ← ih]
      exact (next_iterate_at h k).next_pos

end Iterator

namespace Buffer

open Iterator

/-- What a scan of `k` bytes of `b` sees, and what `consume` of as many
leaves. -/
structure Scans (b : Buffer) (k : ℕ) (it : Iterator) : Prop where
  bytesRead : it.bytesRead = min k b.content.length
  bytesTotal : it.bytesTotal = b.content.length
  eob : it.eob b = true ↔ b.content.length ≤ k
  atEnd : it.eob b = it.equals (end_ b)
  inside : ∀ hk : k < b.content.length, it.getChar = b.content[k]
    ∧ it.pos.idx < b.chunks.length ∧ it.pos.off < b.sizeAt it.pos.idx
    ∧ it.chunkStart = b.memAt it.pos.idx
  pos : it.pos = (byteNext b)^[k] b.rpos
  slow : it = (slowNext b)^[k] (begin b)
  consume : (b.consume it.bytesRead).content = b.content.drop (min k b.content.length)

theorem scans_of_readable {b : Buffer} (h : Readable b) (k : ℕ) :
    Scans b k ((Iterator.next b)^[k] (begin b)) := by
  have hat := next_iterate_at h k
  have hread : ((Iterator.next b)^[k] (begin b)).bytesRead = min k b.content.length := by
    have hr := hat.read
    rw [List.length_drop] at hr
    omega
  refine ⟨hread, hat.total, ?_, ?_, fun hk => ?_, next_iterate_pos h k,
    (slowNext_iterate h k).symm, ?_⟩
  · rw [hat.eob_iff, List.drop_eq_nil_iff]
  · rw [Bool.eq_iff_iff, hat.eob_iff, hat.equals_end]
  · rw [← List.cons_getElem_drop_succ (h := hk)] at hat
    exact hat.inside
  · rw [hread, (consume_spec h.inv _).2.1]

/-- The iterator enumerates the content of every buffer that is filled by
`write`, or by `advance`, whatever is reserved and consumed in between. -/
theorem iterator_enumerates (heap : ℕ → ℕ → UInt8) {ops : List Op} (hu : Unmixed ops) (k : ℕ) :
    Scans (run heap ops) k ((Iterator.next (run heap ops))^[k] (begin (run heap ops))) :=
  scans_of_readable ⟨run_inv heap ops, run_live_of_unmixed heap hu⟩ k

/-- Over the hole that a `reserve` leaves. -/
def holed : List Op := [.reserve 8, .write [1, 2, 3], .reserve 4096, .write [4, 5], .consume 1]

theorem holed_scans :
    ((Iterator.next (run (fun _ _ => 0) holed))^[2] (begin (run (fun _ _ => 0) holed))).getChar
      = 4 :=
  ((iterator_enumerates (fun _ _ => 0) (show Unmixed holed from .inl (by decide)) 2).inside
    (by decide)).1

end Buffer

end HttpServer
