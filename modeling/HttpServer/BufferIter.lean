import HttpServer.BufferLive

/-!
# The buffer's iterator

`Buffer::Iterator` (buffer.hpp, buffer.cpp) peeks at the content as if
it were contiguous. `next` has a fast path inside a chunk, counted down
by `budget`, and a slow path that crosses to the next chunk; `getChar`
reads through a pointer to the current chunk and does not look at the
end of the data.

The relation `At b it rest` says where an iterator stands: `rest` is the
content still in front of it. Under it `eob` tests whether `rest` is
empty, `getChar` is its head, `next` moves to its tail - and at the end
`next` stays where it is and `getChar` is the byte behind the last
written one (`past`).
-/

namespace HttpServer

structure Iterator where
  pos : Position
  bytesRead : ℕ
  bytesTotal : ℕ
  budget : ℕ
  chunkStart : ℕ → UInt8

namespace Iterator

open Buffer

/-- `getBudget`: the positions left in the chunk. -/
def getBudget (b : Buffer) (pos : Position) : ℕ := b.sizeAt pos.idx - pos.off

/-- `Buffer::begin`. -/
def begin (b : Buffer) : Iterator :=
  ⟨b.rpos, 0, b.byteCount, getBudget b b.rpos, b.memAt b.rpos.idx⟩

def eob (b : Buffer) (it : Iterator) : Bool :=
  if it.budget ≠ 0 then false
  else it.pos.idx == b.wpos.idx && it.pos.off == b.wpos.off

def slowNext (b : Buffer) (it : Iterator) : Iterator :=
  if it.pos.off < b.sizeAt it.pos.idx then
    let it := { it with pos := ⟨it.pos.idx, it.pos.off + 1⟩, bytesRead := it.bytesRead + 1 }
    let it :=
      if it.pos.off = b.sizeAt it.pos.idx ∧ it.pos.idx < b.wpos.idx then
        { it with pos := ⟨it.pos.idx + 1, 0⟩, chunkStart := b.memAt (it.pos.idx + 1) }
      else it
    { it with budget := getBudget b it.pos }
  else it

def next (b : Buffer) (it : Iterator) : Iterator :=
  if it.budget > 1 then
    { it with
      budget := it.budget - 1
      pos := ⟨it.pos.idx, it.pos.off + 1⟩
      bytesRead := it.bytesRead + 1 }
  else it.slowNext b

def getChar (it : Iterator) : UInt8 := it.chunkStart it.pos.off

/-! ## Where an iterator stands -/

/-- The byte behind the last written one: what `getChar` reads at the
end of the data. -/
def past (b : Buffer) : UInt8 := b.memAt b.wpos.idx b.wpos.off

/-- `it` stands in front of `rest`, the end of the content. -/
structure At (b : Buffer) (it : Iterator) (rest : List UInt8) : Prop where
  wf : (b.setRpos it.pos).Wf
  rest_eq : (b.setRpos it.pos).content = rest
  settled : it.pos.off = b.sizeAt it.pos.idx → it.pos.idx = b.wpos.idx
  start : it.chunkStart = b.memAt it.pos.idx
  budget : it.budget = getBudget b it.pos
  total : it.bytesTotal = b.content.length
  read : it.bytesRead + rest.length = b.content.length

/-- The buffers an iterator can start on: between operations, with a
live read point. -/
structure Readable (b : Buffer) : Prop where
  inv : b.Inv
  live : b.Live

variable {b : Buffer} {it : Iterator} {rest : List UInt8}

theorem begin_at (h : Readable b) : At b (begin b) b.content := by
  refine ⟨h.inv.wf, rfl, ?_, rfl, rfl, byteCount_eq h.inv, by simp [begin]⟩
  intro hoff
  have hz : b.readSize = 0 := by
    rw [readSize, ← show b.rpos.off = b.sizeAt b.rpos.idx from hoff, Nat.sub_self]
  exact h.inv.first.trans (h.live hz).symm

/-- In front of a byte the iterator is inside the written part of a
chunk; at the end it is at the write position. -/
theorem At.pos_cases (h : At b it rest) :
    (∃ x xs, rest = x :: xs ∧ it.pos.off < b.sizeAt it.pos.idx ∧ x = it.getChar)
      ∨ (rest = [] ∧ it.pos = b.wpos) := by
  obtain ⟨c, hc, hsplit⟩ := content_split h.wf
  rw [h.rest_eq] at hsplit
  have hro := h.wf.roff
  have hsz : (b.setRpos it.pos).readSize = b.sizeAt it.pos.idx - it.pos.off := rfl
  rcases Nat.lt_or_eq_of_le (show it.pos.off ≤ b.sizeAt it.pos.idx from hro) with hlt | heq
  · left
    obtain ⟨n, hn⟩ : ∃ n, (b.setRpos it.pos).readSize = 1 + n :=
      ⟨b.sizeAt it.pos.idx - it.pos.off - 1, by omega⟩
    rw [hn, Chunk.slice_add] at hsplit
    refine ⟨c.mem it.pos.off, _, hsplit, hlt, ?_⟩
    have hcm : b.chunks[it.pos.idx]? = some c := hc
    rw [getChar, h.start, memAt, hcm]
  · right
    have hidx := h.settled heq
    have hpos : it.pos = b.wpos := by
      rw [Position.mk.injEq it.pos.idx it.pos.off b.wpos.idx b.wpos.off]
      refine ⟨hidx, ?_⟩
      have hwo : b.sizeAt b.wpos.idx = b.wpos.off := h.wf.woff
      rw [heq, hidx, hwo]
    refine ⟨?_, hpos⟩
    obtain ⟨c', -, hlast⟩ := content_last h.wf hidx
    rw [← h.rest_eq, hlast, hsz, heq, Nat.sub_self]
    rfl

theorem At.eob_iff (h : At b it rest) : it.eob b = true ↔ rest = [] := by
  have hb := h.budget
  unfold getBudget at hb
  rcases h.pos_cases with ⟨x, xs, rfl, hlt, -⟩ | ⟨rfl, hpos⟩
  · simp [eob, show it.budget ≠ 0 by omega]
  · have hwo : b.sizeAt b.wpos.idx = b.wpos.off := h.wf.woff
    rw [hpos, hwo, Nat.sub_self] at hb
    simp [eob, hb, hpos]

theorem At.getChar_cons {x : UInt8} (h : At b it (x :: rest)) : it.getChar = x := by
  rcases h.pos_cases with ⟨y, ys, heq, -, hy⟩ | ⟨heq, -⟩
  · rw [List.cons.injEq] at heq
    rw [heq.1, hy]
  · cases heq

theorem At.getChar_nil (h : At b it []) : it.getChar = past b := by
  rcases h.pos_cases with ⟨y, ys, heq, -, -⟩ | ⟨-, hpos⟩
  · cases heq
  · rw [getChar, h.start, hpos, past]

/-- At the end of the data `next` does nothing. -/
theorem At.next_nil (h : At b it []) : it.next b = it := by
  rcases h.pos_cases with ⟨y, ys, heq, -, -⟩ | ⟨-, hpos⟩
  · cases heq
  · have hwo : b.sizeAt b.wpos.idx = b.wpos.off := h.wf.woff
    have hb := h.budget
    rw [getBudget, hpos, hwo, Nat.sub_self] at hb
    simp [next, hb, slowNext, hpos, hwo]

/-- Fast and slow path alike move one byte on. -/
theorem At.next_cons (hin : ∀ c ∈ b.cells.dropLast, c ≠ []) {x : UInt8}
    (h : At b it (x :: rest)) : At b (it.next b) rest := by
  have hlt : it.pos.off < b.sizeAt it.pos.idx := by
    rcases h.pos_cases with ⟨y, ys, -, hlt, -⟩ | ⟨heq, -⟩
    · exact hlt
    · cases heq
  have hb := h.budget
  unfold getBudget at hb
  -- one byte on inside the chunk
  have hone : 1 ≤ b.sizeAt it.pos.idx - it.pos.off := by omega
  obtain ⟨hwf, hcont⟩ := skip_spec h.wf hone
  have hread := h.read
  rw [List.length_cons] at hread
  rw [h.rest_eq] at hcont
  have hwf₁ : (b.setRpos ⟨it.pos.idx, it.pos.off + 1⟩).Wf := hwf
  have hcont₁ : (b.setRpos ⟨it.pos.idx, it.pos.off + 1⟩).content = rest := hcont
  unfold next
  by_cases hfast : it.budget > 1
  · rw [if_pos hfast]
    refine ⟨hwf₁, hcont₁, fun heq => ?_, h.start, ?_, h.total, by simp only; omega⟩
    · simp only at heq
      omega
    · simp only [getBudget]
      omega
  · rw [if_neg hfast, slowNext, if_pos hlt]
    simp only
    by_cases hcross : it.pos.off + 1 = b.sizeAt it.pos.idx ∧ it.pos.idx < b.wpos.idx
    · rw [if_pos hcross]
      have hz : (b.setRpos ⟨it.pos.idx, it.pos.off + 1⟩).readSize = 0 := by
        show b.sizeAt it.pos.idx - (it.pos.off + 1) = 0
        omega
      obtain ⟨hwf₂, hcont₂⟩ := nextChunk_spec hwf₁ hz hcross.2
      refine ⟨hwf₂, hcont₂.trans hcont₁, fun heq => ?_, rfl, rfl, h.total, by simp only; omega⟩
      -- the next chunk is the last one or has a first byte
      simp only at heq ⊢
      by_contra hne
      have hwi : it.pos.idx + 1 ≤ b.wpos.idx := hcross.2
      have hpos : 0 < (b.setRpos it.pos).sizeAt (it.pos.idx + 1) :=
        sizeAt_pos h.wf hin (show it.pos.idx + 1 < b.wpos.idx by omega)
      have : b.sizeAt (it.pos.idx + 1) = (b.setRpos it.pos).sizeAt (it.pos.idx + 1) := rfl
      omega
    · rw [if_neg hcross]
      refine ⟨hwf₁, hcont₁, fun heq => ?_, h.start, rfl, h.total, by simp only; omega⟩
      simp only at heq ⊢
      have hwi : it.pos.idx ≤ b.wpos.idx := h.wf.ridx
      omega

end Iterator

end HttpServer
