import HttpServer.BufferStall

/-!
# Where the positions of a buffer are

The first chunk of a buffer is the one under the read position as long as
only the calls of `BufferQueue` are made on it. After `appendFrom` it need
not be, and then the queue's invariant is lost. What is kept is `Wf`, so
the positions stay in range, and the number of chunks in front of the read
position: no call takes one of these away (`apply_placed`).
-/

namespace HttpServer

namespace Buffer

/-- The indices of both positions are those of chunks. -/
structure InRange (b : Buffer) : Prop where
  len : b.sizes.length = b.chunks.length
  widx : b.wpos.idx < b.chunks.length
  ridx : b.rpos.idx < b.chunks.length

theorem Wf.inRange {b : Buffer} (h : b.Wf) : b.InRange := by
  have hw := h.widx
  have hr := h.ridx
  exact ⟨h.len, by omega, by omega⟩

/-- `b'` is well formed and has its read position in the chunk with the
same number. -/
structure Placed (b b' : Buffer) : Prop where
  wf : b'.Wf
  ridx : b'.rpos.idx = b.rpos.idx

section

variable {b b' b'' : Buffer}

theorem Placed.refl (h : b.Wf) : Placed b b := ⟨h, rfl⟩

theorem Placed.trans (h : Placed b b') (h' : Placed b' b'') : Placed b b'' :=
  ⟨h'.wf, h'.ridx.trans h.ridx⟩

theorem newChunk_placed (h : b.Wf) : Placed b b.newChunk := ⟨newChunk_wf h, rfl⟩

theorem put_placed (h : b.Wf) (data : List UInt8) (hfit : data.length ≤ b.writeSize) :
    Placed b ((b.store data).grow data.length) :=
  ⟨(put_spec h hfit).1, rfl⟩

theorem store_placed (h : b.Wf) (data : List UInt8) : Placed b (b.store data) := by
  refine ⟨⟨?_, ?_, h.woff, h.bound, h.ridx, h.roff⟩, rfl⟩
  · show b.sizes.length = (b.chunks.modify _ _).length
    rw [List.length_modify, h.len]
  · show b.wpos.idx + 1 = (b.chunks.modify _ _).length
    rw [List.length_modify, h.widx]

theorem advance_placed (h : b.Wf) (n : ℕ) : Placed b (b.advance n).1 := by
  unfold advance
  split
  · exact .refl h
  · split
    · rename_i hfit
      have hlen : (b.atWritePtr n).length = n := by simp [atWritePtr]
      have hput := put_placed h (b.atWritePtr n) (by rwa [hlen])
      rwa [store_atWritePtr h, hlen] at hput
    · exact .refl h

theorem writeRound_placed (h : b.Wf) (data : List UInt8) : Placed b (b.writeRound data).1 := by
  have hlen : (data.take (min b.writeSize data.length)).length = min b.writeSize data.length := by
    rw [List.length_take]
    omega
  have hput := put_placed h (data.take (min b.writeSize data.length)) (by omega)
  rw [hlen] at hput
  simp only [writeRound]
  split
  · exact hput.trans (newChunk_placed hput.wf)
  · exact hput

theorem writeLoop_placed : ∀ (fuel : ℕ) {b : Buffer} (data : List UInt8), b.Wf →
    Placed b (writeLoop fuel b data)
  | 0, _, _, h => .refl h
  | fuel + 1, b, data, h => by
      rw [writeLoop_succ]
      split
      · have hround := writeRound_placed h data
        exact hround.trans (writeLoop_placed fuel _ hround.wf)
      · exact .refl h

theorem dropChunks_placed (h : b.Wf) {n : ℕ} (hn : n ≤ b.rpos.idx) :
    (b.dropChunks n).Wf ∧ (b.dropChunks n).rpos.idx + n = b.rpos.idx := by
  by_cases h0 : n = 0
  · subst h0
    exact ⟨h, rfl⟩
  · have hd : b.dropChunks n = ⟨b.heap, b.allocs, b.chunks.drop n, b.sizes.drop n,
        ⟨b.wpos.idx - n, b.wpos.off⟩, ⟨b.rpos.idx - n, b.rpos.off⟩⟩ := by
      simp [dropChunks, h0]
    have hri := h.ridx
    have hw := h.widx
    have hsize : ∀ i, n ≤ i → (b.dropChunks n).sizeAt (i - n) = b.sizeAt i := by
      intro i hi
      obtain ⟨j, rfl⟩ := Nat.exists_eq_add_of_le hi
      simp [hd, sizeAt]
    refine ⟨⟨?_, ?_, ?_, ?_, ?_, ?_⟩, ?_⟩
    · simp [hd, h.len]
    · simp only [hd, List.length_drop]
      omega
    · have hwo := hsize b.wpos.idx (by omega)
      rw [h.woff] at hwo
      rwa [show (b.dropChunks n).wpos = ⟨b.wpos.idx - n, b.wpos.off⟩ by rw [hd]]
    · intro m hm
      rw [hd] at hm
      exact h.bound m (List.mem_of_mem_drop hm)
    · simp only [hd]
      omega
    · have hro := h.roff
      rw [← hsize b.rpos.idx hn] at hro
      rw [hd] at hro ⊢
      exact hro
    · simp only [hd]
      omega

theorem reserve_placed (h : b.Wf) (n : ℕ) : Placed b (b.reserve n).1 := by
  unfold reserve
  split
  · exact .refl h
  · split
    · exact .refl h
    · by_cases heq : b.rpos = b.wpos
      · simp only [if_pos heq]
        have hnew := newChunk_wf h
        have hset : (b.newChunk.setRpos b.newChunk.wpos).Wf :=
          setRpos_wf hnew (Nat.le_refl _) (Nat.le_of_eq hnew.woff.symm)
        have hidx : (b.newChunk.setRpos b.newChunk.wpos).rpos.idx = b.rpos.idx + 1 := by
          show b.newChunk.wpos.idx = _
          rw [heq, h.widx]
          simp [newChunk, addChunk]
        obtain ⟨hwf, hdrop⟩ := dropChunks_placed hset (n := 1) (by omega)
        exact ⟨hwf, by omega⟩
      · simp only [if_neg heq]
        exact newChunk_placed h

/-- The loop of `consume` counts the chunks it leaves. -/
theorem consumeLoop_placed : ∀ (fuel : ℕ) {b : Buffer} {bytes d : ℕ}, b.Wf →
    ∀ {b' : Buffer} {m d' : ℕ}, consumeLoop fuel b bytes d = (b', m, d') →
    b'.Wf ∧ d ≤ d' ∧ b'.rpos.idx + d = b.rpos.idx + d'
  | 0, b, bytes, d, h, b', m, d', he => by
      rw [consumeLoop, Prod.mk.injEq, Prod.mk.injEq] at he
      obtain ⟨rfl, rfl, rfl⟩ := he
      exact ⟨h, Nat.le_refl _, rfl⟩
  | fuel + 1, b, bytes, d, h, b', m, d', he => by
      rw [consumeLoop] at he
      by_cases hgo : bytes > 0 ∧ b.rpos.idx < b.wpos.idx
      · rw [if_pos hgo] at he
        have hskip := (skip_spec h (Nat.min_le_right bytes b.readSize)).1
        simp only at he
        split at he
        · rename_i hz
          have hnext := (nextChunk_spec hskip hz hgo.2).1
          obtain ⟨hwf, hle, hidx⟩ := consumeLoop_placed fuel hnext he
          have hone : b'.rpos.idx + (d + 1) = b.rpos.idx + 1 + d' := hidx
          exact ⟨hwf, by omega, by omega⟩
        · exact consumeLoop_placed fuel hskip he
      · rw [if_neg hgo, Prod.mk.injEq, Prod.mk.injEq] at he
        obtain ⟨rfl, rfl, rfl⟩ := he
        exact ⟨h, Nat.le_refl _, rfl⟩

theorem consume_placed (h : b.Wf) (n : ℕ) : Placed b (b.consume n) := by
  rcases hloop : consumeLoop (b.wpos.idx - b.rpos.idx + 1) b n 0 with ⟨b₁, m, d⟩
  obtain ⟨hwf, -, hidx⟩ := consumeLoop_placed _ h hloop
  simp only [consume, hloop]
  split
  · have hskip := (skip_spec hwf (Nat.min_le_right m b₁.readSize)).1
    have hsame : (b₁.setRpos ⟨b₁.rpos.idx, b₁.rpos.off + min m b₁.readSize⟩).rpos.idx
        = b₁.rpos.idx := rfl
    obtain ⟨hdrop, hback⟩ := dropChunks_placed hskip (n := d) (by omega)
    exact ⟨hdrop, by omega⟩
  · obtain ⟨hdrop, hback⟩ := dropChunks_placed hwf (n := d) (by omega)
    exact ⟨hdrop, by omega⟩

/-- No call of a producer or a consumer moves the read position to a chunk
with another number. -/
theorem apply_placed (h : b.Wf) (op : Op) : Placed b (b.apply op) := by
  cases op with
  | reserve n => exact reserve_placed h n
  | store data =>
      simp only [apply]
      split
      · exact store_placed h data
      · exact .refl h
  | advance n => exact advance_placed h n
  | write data => exact writeLoop_placed _ data h
  | consume n => exact consume_placed h n

theorem copyLoop_placed : ∀ (l : List (Chunk × ℕ)) (first : Bool) {b : Buffer}, b.Wf →
    (∀ p ∈ l, p.2 ≤ BlockSize) → Placed b (copyLoop l first b)
  | [], _, _, h, _ => .refl h
  | (c, len) :: rest, first, b, h, hle => by
      obtain ⟨hlen, hrest⟩ := List.forall_mem_cons.mp hle
      have hslice : (c.slice 0 len).length = len := by simp
      rw [copyLoop]
      by_cases hnew : (!first || decide (len > b.writeSize)) = true
      · simp only [if_pos hnew]
        have hchunk := newChunk_placed h
        have hput := put_placed hchunk.wf (c.slice 0 len) (hslice.trans_le hlen)
        rw [hslice] at hput
        exact (hchunk.trans hput).trans (copyLoop_placed rest false hput.wf hrest)
      · simp only [if_neg hnew]
        simp only [Bool.or_eq_true, decide_eq_true_eq, not_or] at hnew
        have hput := put_placed h (c.slice 0 len)
          (hslice.trans_le (Nat.le_of_not_gt hnew.2))
        rw [hslice] at hput
        exact hput.trans (copyLoop_placed rest false hput.wf hrest)

theorem copyFrom_placed {other : Buffer} (h : b.Wf) (ho : other.Wf) :
    Placed b (b.copyFrom other) := by
  unfold copyFrom
  split
  · exact .refl h
  · split
    · exact .refl h
    · have hloop := copyLoop_placed (other.chunks.zip other.sizes) true h
        fun p hp => ho.bound p.2 (List.of_mem_zip hp).2
      simp only
      split
      · exact hloop.trans (newChunk_placed hloop.wf)
      · exact hloop

end

end Buffer

end HttpServer
