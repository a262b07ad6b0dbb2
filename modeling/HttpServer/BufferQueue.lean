import HttpServer.Buffer

/-!
# The buffer is a FIFO byte queue

The written part of every chunk is a cell (`cells`), and the content is
the concatenation of the cells from the read position on
(`content_eq`). Each primitive is one fact about cells: storing and
growing extends the last cell, a new chunk adds an empty one, dropping
chunks drops cells. The public operations are sequences of these.

`Wf` is the part of the representation invariant that also holds inside
an operation; `Inv` adds what holds between operations: the read
position is in the first chunk, inner chunks are not empty, and a buffer
of more than one chunk has content.
-/

namespace HttpServer

namespace Chunk

@[simp] theorem length_slice (c : Chunk) (off n : ℕ) : (c.slice off n).length = n := by
  simp [slice]

theorem getElem?_slice (c : Chunk) {off n i : ℕ} (h : i < n) :
    (c.slice off n)[i]? = some (c.mem (off + i)) := by
  simp [slice, h]

theorem slice_add (c : Chunk) (off m n : ℕ) :
    c.slice off (m + n) = c.slice off m ++ c.slice (off + m) n := by
  simp [slice, List.range_add, Function.comp_def, Nat.add_assoc]

theorem drop_slice (c : Chunk) {off n : ℕ} (h : off ≤ n) :
    (c.slice 0 n).drop off = c.slice off (n - off) := by
  obtain ⟨m, rfl⟩ := Nat.exists_eq_add_of_le h
  rw [slice_add, List.drop_append_of_le_length (by simp), List.drop_of_length_le (by simp)]
  simp

theorem slice_store_left (c : Chunk) (n : ℕ) (data : List UInt8) :
    (c.store n data).slice 0 n = c.slice 0 n := by
  refine List.map_congr_left fun i hi => ?_
  have hlt : ¬ n ≤ 0 + i := by have := List.mem_range.mp hi; omega
  simp only [store, if_neg hlt]

theorem slice_store_right (c : Chunk) (n : ℕ) (data : List UInt8) :
    (c.store n data).slice n data.length = data := by
  refine List.ext_getElem? fun i => ?_
  by_cases hi : i < data.length
  · rw [getElem?_slice _ hi]
    simp [store, hi]
  · rw [List.getElem?_eq_none (by simpa using hi), List.getElem?_eq_none (by omega)]

/-- Storing right behind the first `n` bytes appends to them. -/
theorem slice_store (c : Chunk) (n : ℕ) (data : List UInt8) :
    (c.store n data).slice 0 (n + data.length) = c.slice 0 n ++ data := by
  rw [slice_add, slice_store_left, Nat.zero_add, slice_store_right]

end Chunk

namespace Buffer

/-! ## Cells -/

/-- The written part of each chunk. -/
def cells (b : Buffer) : List (List UInt8) :=
  (b.chunks.zip b.sizes).map fun p => p.1.slice 0 p.2

/-- The representation invariant inside an operation. -/
structure Wf (b : Buffer) : Prop where
  len : b.sizes.length = b.chunks.length
  widx : b.wpos.idx + 1 = b.chunks.length
  woff : b.sizeAt b.wpos.idx = b.wpos.off
  bound : ∀ n ∈ b.sizes, n ≤ BlockSize
  ridx : b.rpos.idx ≤ b.wpos.idx
  roff : b.rpos.off ≤ b.sizeAt b.rpos.idx

theorem length_cells {b : Buffer} (h : b.Wf) : b.cells.length = b.chunks.length := by
  simp [cells, h.len]

theorem getElem?_cells {b : Buffer} (h : b.Wf) {i : ℕ} (hi : i < b.chunks.length) :
    ∃ c, b.chunks[i]? = some c ∧ b.cells[i]? = some (c.slice 0 (b.sizeAt i)) := by
  have hs : i < b.sizes.length := by rw [h.len]; exact hi
  refine ⟨b.chunks[i], by simp [hi], ?_⟩
  rw [cells, List.zip_eq_zipWith, List.map_zipWith, List.getElem?_zipWith]
  simp [hi, hs, sizeAt]

/-- The last chunk apart: `wpos_` is at the end of its written part. -/
theorem Wf.last {b : Buffer} (h : b.Wf) :
    ∃ cs c ns, b.chunks = cs ++ [c] ∧ b.sizes = ns ++ [b.wpos.off]
      ∧ cs.length = b.wpos.idx ∧ ns.length = b.wpos.idx := by
  have hc : b.chunks ≠ [] := by
    intro hnil
    have := h.widx
    simp [hnil] at this
  have hs : b.sizes ≠ [] := by
    intro hnil
    have hlen := h.len
    rw [hnil, ← h.widx] at hlen
    simp at hlen
  refine ⟨b.chunks.dropLast, b.chunks.getLast hc, b.sizes.dropLast,
    (List.dropLast_append_getLast hc).symm, ?_, ?_, ?_⟩
  · have hlast : b.sizes.getLast hs = b.wpos.off := by
      rw [← h.woff, List.getLast_eq_getElem]
      have hw : b.sizes.length - 1 = b.wpos.idx := by have := h.len; have := h.widx; omega
      have hlt : b.wpos.idx < b.sizes.length := by have := h.len; have := h.widx; omega
      simp [sizeAt, hw, hlt]
    rw [← hlast]
    exact (List.dropLast_append_getLast hs).symm
  · have := h.widx
    simp only [List.length_dropLast]
    omega
  · have := h.widx
    have := h.len
    simp only [List.length_dropLast]
    omega

theorem content_eq {b : Buffer} (h : b.Wf) :
    b.content = (b.cells.drop b.rpos.idx).flatten.drop b.rpos.off := by
  have hlt : b.rpos.idx < b.chunks.length := by have := h.ridx; have := h.widx; omega
  have hz : (b.chunks.zip b.sizes).length = b.chunks.length := by simp [h.len]
  have hroff := h.roff
  unfold content cells
  rw [← List.map_drop]
  cases hd : (b.chunks.zip b.sizes).drop b.rpos.idx with
  | nil =>
      have := congrArg List.length hd
      simp only [List.length_drop, hz, List.length_nil] at this
      omega
  | cons p rest =>
      obtain ⟨c, n⟩ := p
      have hn : n = b.sizeAt b.rpos.idx := by
        have h0 := congrArg (fun l => l[0]?) hd
        simp only [List.getElem?_drop, Nat.add_zero, List.getElem?_cons_zero,
          List.getElem?_zip_eq_some] at h0
        simp [sizeAt, h0.2]
      rw [← hn] at hroff
      simp only [List.map_cons, List.flatten_cons]
      rw [List.drop_append_of_le_length (by simpa using hroff), Chunk.drop_slice c hroff]

/-- The content is what is left of the chunk under the read position,
then the chunks behind it. -/
theorem content_split {b : Buffer} (h : b.Wf) :
    ∃ c, b.chunks[b.rpos.idx]? = some c
      ∧ b.content = c.slice b.rpos.off b.readSize ++ (b.cells.drop (b.rpos.idx + 1)).flatten := by
  have hlt : b.rpos.idx < b.chunks.length := by have := h.ridx; have := h.widx; omega
  obtain ⟨c, hc, hcell⟩ := getElem?_cells h hlt
  refine ⟨c, hc, ?_⟩
  have hd : b.cells.drop b.rpos.idx
      = c.slice 0 (b.sizeAt b.rpos.idx) :: b.cells.drop (b.rpos.idx + 1) := by
    obtain ⟨hlt', hget⟩ := List.getElem?_eq_some_iff.mp hcell
    rw [List.drop_eq_getElem_cons hlt', hget]
  rw [content_eq h, hd, List.flatten_cons,
    List.drop_append_of_le_length (by simpa using h.roff), Chunk.drop_slice c h.roff]
  rfl

/-- In the last chunk the read position is followed by `readSize()`
bytes only. -/
theorem content_last {b : Buffer} (h : b.Wf) (hlast : b.rpos.idx = b.wpos.idx) :
    ∃ c, b.chunks[b.rpos.idx]? = some c ∧ b.content = c.slice b.rpos.off b.readSize := by
  obtain ⟨c, hc, hcont⟩ := content_split h
  refine ⟨c, hc, ?_⟩
  rw [hcont, List.drop_of_length_le (by rw [length_cells h]; have := h.widx; omega)]
  simp

/-! ## The primitives on cells -/

theorem modify_last {α : Type} (l : List α) (a : α) (f : α → α) :
    (l ++ [a]).modify l.length f = l ++ [f a] := by
  rw [List.modify_eq_take_cons_drop (by simp)]
  simp

theorem sizeAt_append_left {b : Buffer} {ns ms : List ℕ} (h : b.sizes = ns ++ ms) {i : ℕ}
    (hi : i < ns.length) : b.sizeAt i = ns.getD i 0 := by
  simp [sizeAt, h, List.getElem?_append_left hi]

/-- Storing at `writePtr()` and growing by the stored length extends the
last cell and nothing else. -/
theorem put_spec {b : Buffer} (h : b.Wf) {data : List UInt8}
    (hfit : data.length ≤ b.writeSize) :
    ((b.store data).grow data.length).Wf
      ∧ ∃ init last, init.length = b.wpos.idx ∧ b.cells = init ++ [last]
        ∧ ((b.store data).grow data.length).cells = init ++ [last ++ data] := by
  obtain ⟨cs, c, ns, hcs, hns, hcl, hnl⟩ := h.last
  have hoff : b.wpos.off ≤ BlockSize := h.bound _ (by simp [hns])
  have hchunks : ((b.store data).grow data.length).chunks = cs ++ [c.store b.wpos.off data] := by
    simp only [store, grow, hcs, ← hcl]
    exact modify_last _ _ _
  have hsizes : ((b.store data).grow data.length).sizes = ns ++ [b.wpos.off + data.length] := by
    simp only [store, grow, hns, ← hnl]
    exact modify_last _ _ _
  unfold writeSize at hfit
  refine ⟨⟨?_, ?_, ?_, ?_, h.ridx, ?_⟩, (cs.zip ns).map fun p => p.1.slice 0 p.2,
    c.slice 0 b.wpos.off, by simp [hcl, hnl], ?_, ?_⟩
  · simp [hchunks, hsizes, hcl, hnl]
  · rw [hchunks]
    simp [store, grow, hcl]
  · rw [sizeAt, hsizes]
    simp [store, grow, ← hnl]
  · intro n hn
    rw [hsizes] at hn
    rcases List.mem_append.mp hn with hn | hn
    · exact h.bound n (by simp [hns, hn])
    · obtain rfl := List.mem_singleton.mp hn
      omega
  · have hr := h.roff
    have hri := h.ridx
    show b.rpos.off ≤ ((b.store data).grow data.length).sizeAt b.rpos.idx
    rcases Nat.lt_or_eq_of_le hri with hlt | heq
    · rw [sizeAt_append_left hsizes (by omega)]
      rwa [sizeAt_append_left hns (by omega)] at hr
    · rw [heq, h.woff] at hr
      simp only [sizeAt, hsizes, heq, ← hnl]
      simp
      omega
  · rw [cells, hcs, hns, List.zip_append (by rw [hcl, hnl])]
    simp
  · rw [cells, hchunks, hsizes, List.zip_append (by rw [hcl, hnl])]
    simp [Chunk.slice_store]

theorem newChunk_wf {b : Buffer} (h : b.Wf) : b.newChunk.Wf := by
  have hlen := h.len
  have hw := h.widx
  refine ⟨by simp [newChunk, addChunk, hlen], by simp [newChunk, addChunk], ?_, ?_, ?_, ?_⟩
  · simp [sizeAt, newChunk, addChunk, ← hlen]
  · intro n hn
    rcases List.mem_append.mp hn with hn | hn
    · exact h.bound n hn
    · simp [List.mem_singleton.mp hn]
  · have := h.ridx
    simp only [newChunk, addChunk, List.length_append, List.length_singleton]
    omega
  · have hr := h.roff
    have hri := h.ridx
    have hs : b.newChunk.sizes = b.sizes ++ [0] := rfl
    show b.rpos.off ≤ b.newChunk.sizeAt b.rpos.idx
    rwa [sizeAt_append_left hs (by omega)]

theorem newChunk_cells {b : Buffer} (h : b.Wf) : b.newChunk.cells = b.cells ++ [[]] := by
  have hc : b.newChunk.chunks = b.chunks ++ [⟨b.allocs, b.heap b.allocs⟩] := rfl
  have hs : b.newChunk.sizes = b.sizes ++ [0] := rfl
  rw [cells, hc, hs, List.zip_append h.len.symm]
  simp [cells, Chunk.slice]

/-- The read position is inside the concatenation of the cells. -/
theorem Wf.roff_le {b : Buffer} (h : b.Wf) :
    b.rpos.off ≤ (b.cells.drop b.rpos.idx).flatten.length := by
  have hlt : b.rpos.idx < b.chunks.length := by have := h.ridx; have := h.widx; omega
  obtain ⟨c, -, hcell⟩ := getElem?_cells h hlt
  rw [List.drop_eq_getElem?_toList_append, hcell]
  have := h.roff
  simp
  omega

theorem put_content {b : Buffer} (h : b.Wf) {data : List UInt8}
    (hfit : data.length ≤ b.writeSize) :
    ((b.store data).grow data.length).content = b.content ++ data := by
  obtain ⟨hwf, init, last, hil, hcells, hcells'⟩ := put_spec h hfit
  have hro := h.roff_le
  have hri := h.ridx
  rw [content_eq hwf, content_eq h, hcells']
  show ((init ++ [last ++ data]).drop b.rpos.idx).flatten.drop b.rpos.off = _
  rw [hcells] at hro ⊢
  rw [List.drop_append_of_le_length (by omega)] at hro ⊢
  rw [List.drop_append_of_le_length (by omega)]
  simp only [List.flatten_append, List.flatten_cons, List.flatten_nil, List.append_nil] at hro ⊢
  rw [← List.append_assoc, List.drop_append_of_le_length hro]

theorem newChunk_content {b : Buffer} (h : b.Wf) : b.newChunk.content = b.content := by
  have hri := h.ridx
  have hlen := length_cells h
  have hw := h.widx
  rw [content_eq (newChunk_wf h), content_eq h, newChunk_cells h]
  show ((b.cells ++ [[]]).drop b.rpos.idx).flatten.drop b.rpos.off = _
  rw [List.drop_append_of_le_length (by omega)]
  simp

theorem isConsumed_eq_false {b : Buffer} :
    b.isConsumed = false ↔ b.rpos.idx = 0 ∧ b.rpos.off = 0 := by
  rw [isConsumed, Bool.or_eq_false_iff, bne_eq_false_iff_eq, bne_eq_false_iff_eq]

/-! ## The invariant between operations -/

structure Inv (b : Buffer) : Prop where
  wf : b.Wf
  first : b.rpos.idx = 0
  inner : ∀ c ∈ b.cells.dropLast, c ≠ []
  single : b.content = [] → b.chunks.length = 1

/-- An empty buffer has one chunk. -/
theorem Inv.widx_of_nil {b : Buffer} (h : b.Inv) (hnil : b.content = []) : b.wpos.idx = 0 := by
  have hone := h.single hnil
  have hw := h.wf.widx
  omega

theorem put_inner {b : Buffer} (h : b.Wf) (hin : ∀ c ∈ b.cells.dropLast, c ≠ [])
    {data : List UInt8} (hfit : data.length ≤ b.writeSize) :
    ∀ c ∈ ((b.store data).grow data.length).cells.dropLast, c ≠ [] := by
  obtain ⟨-, init, last, -, hcells, hcells'⟩ := put_spec h hfit
  rw [hcells, List.dropLast_concat] at hin
  rwa [hcells', List.dropLast_concat]

theorem newChunk_inner {b : Buffer} (h : b.Wf) (hin : ∀ c ∈ b.cells.dropLast, c ≠ [])
    (hpos : 0 < b.wpos.off) : ∀ c ∈ b.newChunk.cells.dropLast, c ≠ [] := by
  rw [newChunk_cells h, List.dropLast_concat]
  obtain ⟨cs, c, ns, hcs, hns, hcl, hnl⟩ := h.last
  have hcells : b.cells = (cs.zip ns).map (fun p => p.1.slice 0 p.2) ++ [c.slice 0 b.wpos.off] := by
    rw [cells, hcs, hns, List.zip_append (by rw [hcl, hnl])]
    simp
  rw [hcells, List.dropLast_concat] at hin
  rw [hcells]
  intro d hd
  rcases List.mem_append.mp hd with hd | hd
  · exact hin d hd
  · obtain rfl := List.mem_singleton.mp hd
    exact List.ne_nil_of_length_pos (by simpa using hpos)

theorem new_inv (heap : ℕ → ℕ → UInt8) : (new heap).Inv ∧ (new heap).content = [] := by
  have hwf : (new heap).Wf := by
    refine ⟨rfl, rfl, rfl, ?_, Nat.le_refl _, Nat.le_refl _⟩
    intro n hn
    obtain rfl := List.mem_singleton.mp hn
    exact Nat.zero_le _
  have hcont : (new heap).content = [] := rfl
  exact ⟨⟨hwf, rfl, by intro c hc; simp [cells, new, addChunk] at hc, fun _ => rfl⟩, hcont⟩

/-! ## write -/

theorem Wf.off_le {b : Buffer} (h : b.Wf) : b.wpos.off ≤ BlockSize := by
  obtain ⟨_, _, ns, _, hns, _, _⟩ := h.last
  exact h.bound _ (by simp [hns])

/-- A round moves a prefix of the data into the buffer and leaves room
in the last chunk; it moves at least one byte unless that chunk was full
before. -/
theorem writeRound_spec {b : Buffer} (h : b.Wf) (hin : ∀ c ∈ b.cells.dropLast, c ≠ [])
    (data : List UInt8) :
    (b.writeRound data).1.Wf ∧ (∀ c ∈ (b.writeRound data).1.cells.dropLast, c ≠ [])
      ∧ (b.writeRound data).1.content ++ (b.writeRound data).2 = b.content ++ data
      ∧ (b.writeRound data).1.rpos = b.rpos
      ∧ 0 < (b.writeRound data).1.writeSize
      ∧ (b.writeRound data).2.length = data.length - b.writeSize := by
  have hn : min b.writeSize data.length ≤ data.length := Nat.min_le_right ..
  simp only [writeRound]
  generalize hm : min b.writeSize data.length = n at *
  have hnlen : (data.take n).length = n := by rw [List.length_take]; omega
  have hfit : (data.take n).length ≤ b.writeSize := by omega
  have hwf := (put_spec h hfit).1
  have hcont := put_content h hfit
  have hinner := put_inner h hin hfit
  have hoff := h.off_le
  have hws : b.writeSize = BlockSize - b.wpos.off := rfl
  have hB : 0 < BlockSize := by decide
  rw [hnlen] at hwf hcont hinner
  generalize hb₁ : (b.store (data.take n)).grow n = b₁ at *
  have hoff₁ : b₁.wpos.off = b.wpos.off + n := by rw [← hb₁]; rfl
  have hr₁ : b₁.rpos = b.rpos := by rw [← hb₁]; rfl
  have hlen : (data.drop n).length = data.length - b.writeSize := by
    rw [List.length_drop]
    omega
  by_cases hnew : (data.drop n).length > 0 ∨ b₁.wpos.off = BlockSize
  · have hoffpos : 0 < b₁.wpos.off := by
      rcases hnew with hd | hd
      · rw [List.length_drop] at hd
        omega
      · omega
    simp only [if_pos hnew]
    refine ⟨newChunk_wf hwf, newChunk_inner hwf hinner hoffpos, ?_, hr₁, hB, hlen⟩
    rw [newChunk_content hwf, hcont, List.append_assoc, List.take_append_drop]
  · simp only [if_neg hnew]
    refine ⟨hwf, hinner, ?_, hr₁, ?_, hlen⟩
    · rw [hcont, List.append_assoc, List.take_append_drop]
    · have hle := hwf.off_le
      rw [not_or] at hnew
      show 0 < BlockSize - b₁.wpos.off
      omega

theorem writeLoop_succ (fuel : ℕ) (b : Buffer) (data : List UInt8) :
    writeLoop (fuel + 1) b data
      = if data.length > 0 then writeLoop fuel (b.writeRound data).1 (b.writeRound data).2 else b :=
  rfl

/-- The loop of `write` from a round on: with enough rounds left it
appends what is left of the data. -/
theorem writeLoop_spec : ∀ (fuel : ℕ) {b : Buffer} (data : List UInt8), b.Wf →
    (∀ c ∈ b.cells.dropLast, c ≠ []) →
    data.length + (if b.writeSize = 0 then 1 else 0) ≤ fuel →
    (writeLoop fuel b data).Wf ∧ (∀ c ∈ (writeLoop fuel b data).cells.dropLast, c ≠ [])
      ∧ (writeLoop fuel b data).content = b.content ++ data
      ∧ (writeLoop fuel b data).rpos = b.rpos
  | 0, b, data, h, hin, hf => by
      have hnil : data = [] := List.eq_nil_of_length_eq_zero (by omega)
      subst hnil
      exact ⟨h, hin, by simp [writeLoop], rfl⟩
  | fuel + 1, b, data, h, hin, hf => by
      rw [writeLoop_succ]
      by_cases hpos : data.length > 0
      · rw [if_pos hpos]
        obtain ⟨hwf, hinner, hc, hr, hroom, hlen⟩ := writeRound_spec h hin data
        obtain ⟨hwf', hin', hc', hr'⟩ := writeLoop_spec fuel (b.writeRound data).2 hwf hinner (by
          rw [if_neg (by omega), hlen]
          split at hf <;> omega)
        exact ⟨hwf', hin', hc'.trans hc, hr'.trans hr⟩
      · rw [if_neg hpos]
        have hnil : data = [] := List.eq_nil_of_length_eq_zero (by omega)
        subst hnil
        exact ⟨h, hin, by simp, rfl⟩

theorem write_spec {b : Buffer} (h : b.Inv) (data : List UInt8) :
    (b.write data).Inv ∧ (b.write data).content = b.content ++ data := by
  obtain ⟨hwf, hin, hc, hr⟩ := writeLoop_spec (data.length + 1) data h.wf h.inner
    (by split <;> omega)
  refine ⟨⟨hwf, by rw [write, hr]; exact h.first, hin, ?_⟩, hc⟩
  intro hnil
  rw [write, hc, List.append_eq_nil_iff] at hnil
  obtain ⟨hb, rfl⟩ := hnil
  exact h.single hb

/-! ## Moving the read position -/

theorem setRpos_wf {b : Buffer} (h : b.Wf) {p : Position} (hi : p.idx ≤ b.wpos.idx)
    (ho : p.off ≤ b.sizeAt p.idx) : (b.setRpos p).Wf :=
  ⟨h.len, h.widx, h.woff, h.bound, hi, ho⟩

/-- Reading on by `n` bytes of the current chunk. -/
theorem skip_spec {b : Buffer} (h : b.Wf) {n : ℕ} (hn : n ≤ b.readSize) :
    (b.setRpos ⟨b.rpos.idx, b.rpos.off + n⟩).Wf
      ∧ (b.setRpos ⟨b.rpos.idx, b.rpos.off + n⟩).content = b.content.drop n := by
  have hr := h.roff
  have hwf : (b.setRpos ⟨b.rpos.idx, b.rpos.off + n⟩).Wf :=
    setRpos_wf h h.ridx (by unfold readSize at hn; simp only; omega)
  refine ⟨hwf, ?_⟩
  rw [content_eq hwf, content_eq h, List.drop_drop]
  rfl

/-- Leaving an exhausted chunk for the next one. -/
theorem nextChunk_spec {b : Buffer} (h : b.Wf) (h0 : b.readSize = 0)
    (hlt : b.rpos.idx < b.wpos.idx) :
    (b.setRpos ⟨b.rpos.idx + 1, 0⟩).Wf
      ∧ (b.setRpos ⟨b.rpos.idx + 1, 0⟩).content = b.content := by
  have hwf : (b.setRpos ⟨b.rpos.idx + 1, 0⟩).Wf := setRpos_wf h hlt (Nat.zero_le _)
  refine ⟨hwf, ?_⟩
  obtain ⟨c, -, hcont⟩ := content_split h
  rw [content_eq hwf, hcont, h0]
  rfl

theorem dropChunks_spec {b : Buffer} (h : b.Wf) {n : ℕ} (hn : b.rpos.idx = n) :
    (b.dropChunks n).Wf ∧ (b.dropChunks n).rpos = ⟨0, b.rpos.off⟩
      ∧ (b.dropChunks n).cells = b.cells.drop n ∧ (b.dropChunks n).content = b.content
      ∧ (b.dropChunks n).wpos = ⟨b.wpos.idx - n, b.wpos.off⟩
      ∧ (b.dropChunks n).readSize = b.readSize := by
  by_cases h0 : n = 0
  · subst h0
    obtain ⟨heap, allocs, chunks, sizes, wpos, ⟨idx, off⟩⟩ := b
    simp only at hn
    subst hn
    simp [dropChunks, h]
  · have hri := h.ridx
    have hw := h.widx
    have hlen := h.len
    have hd : b.dropChunks n = ⟨b.heap, b.allocs, b.chunks.drop n, b.sizes.drop n,
        ⟨b.wpos.idx - n, b.wpos.off⟩, ⟨b.rpos.idx - n, b.rpos.off⟩⟩ := by
      simp [dropChunks, h0]
    have hsize : ∀ i, (b.dropChunks n).sizeAt i = b.sizeAt (n + i) := by
      intro i
      simp [hd, sizeAt]
    have hwf : (b.dropChunks n).Wf := by
      refine ⟨?_, ?_, ?_, ?_, ?_, ?_⟩
      · simp [hd, hlen]
      · simp only [hd, List.length_drop]
        omega
      · rw [hsize, hd]
        show b.sizeAt (n + (b.wpos.idx - n)) = b.wpos.off
        rw [← h.woff]
        congr 1
        omega
      · intro m hm
        rw [hd] at hm
        exact h.bound m (List.mem_of_mem_drop hm)
      · simp only [hd]
        omega
      · rw [hsize, hd]
        show b.rpos.off ≤ b.sizeAt (n + (b.rpos.idx - n))
        have hr := h.roff
        rwa [show n + (b.rpos.idx - n) = b.rpos.idx by omega]
    have hcells : (b.dropChunks n).cells = b.cells.drop n := by
      rw [cells, cells, hd, ← List.map_drop]
      simp only [List.zip_eq_zipWith, List.drop_zipWith]
    have hrp : (b.dropChunks n).rpos = ⟨0, b.rpos.off⟩ := by
      simp only [hd, hn, Nat.sub_self]
    refine ⟨hwf, hrp, hcells, ?_, by rw [hd], ?_⟩
    · rw [content_eq hwf, content_eq h, hcells, hrp, hn]
      rfl
    · rw [readSize, readSize, hsize, hrp, hn]
      rfl

/-! ## reserve and advance -/

theorem reserve_spec {b : Buffer} (h : b.Inv) (n : ℕ) :
    (b.reserve n).1.Inv ∧ (b.reserve n).1.content = b.content
      ∧ ((b.reserve n).2 = true ↔ n ≤ BlockSize)
      ∧ ((b.reserve n).2 = true → n ≤ (b.reserve n).1.writeSize) := by
  unfold reserve
  by_cases hbig : n > BlockSize
  · rw [if_pos hbig]
    exact ⟨h, rfl, by simpa using hbig, by simp⟩
  rw [if_neg hbig]
  by_cases hroom : BlockSize - b.wpos.off ≥ n
  · rw [if_pos hroom]
    exact ⟨h, rfl, by simpa using Nat.le_of_not_lt hbig, fun _ => hroom⟩
  rw [if_neg hroom]
  have hle : n ≤ BlockSize := by omega
  have hwf := newChunk_wf h.wf
  have hcont := newChunk_content h.wf
  have hw := h.wf.widx
  have h0 := h.first
  by_cases heq : b.rpos = b.wpos
  · -- all is consumed: the one chunk there is goes, the new one stays
    obtain ⟨c, -, hc⟩ := content_last h.wf (by rw [heq])
    have hnil : b.content = [] := by
      rw [hc, readSize, heq, h.wf.woff, Nat.sub_self]
      rfl
    have hone := h.single hnil
    have hw1 : b.newChunk.wpos = ⟨1, 0⟩ := by
      simp [newChunk, addChunk, hone]
    have hwf' : (b.newChunk.setRpos b.newChunk.wpos).Wf :=
      setRpos_wf hwf (Nat.le_refl _) (Nat.le_of_eq hwf.woff.symm)
    obtain ⟨hd, hdr, hdc, hdcont, hdw, -⟩ := dropChunks_spec hwf' (n := 1) (by rw [setRpos, hw1])
    have hcells : ((b.newChunk.setRpos b.newChunk.wpos).dropChunks 1).cells = [[]] := by
      rw [hdc]
      show b.newChunk.cells.drop 1 = [[]]
      have hl := length_cells h.wf
      rw [newChunk_cells h.wf, List.drop_append_of_le_length (by omega),
        List.drop_of_length_le (by omega)]
      rfl
    simp only [if_pos heq]
    refine ⟨⟨hd, by rw [hdr], by simp [hcells], fun _ => ?_⟩, ?_, by simp [hle], fun _ => ?_⟩
    · rw [← length_cells hd, hcells]
      rfl
    · rw [hnil, content_eq hd, hcells, hdr]
      simp
    · rw [writeSize, hdw]
      show n ≤ BlockSize - b.newChunk.wpos.off
      rw [hw1]
      simpa using hle
  · simp only [if_neg heq]
    refine ⟨⟨hwf, h0, newChunk_inner h.wf h.inner (by omega), fun hnil => absurd ?_ heq⟩,
      hcont, by simp [hle], fun _ => hle⟩
    -- an exhausted buffer of one chunk has both positions at its end
    rw [hcont] at hnil
    have hwi := h.widx_of_nil hnil
    obtain ⟨c, -, hc⟩ := content_last h.wf (by omega)
    have hrs : b.readSize = 0 := by
      have := congrArg List.length (hc.symm.trans hnil)
      simpa using this
    have hr := h.wf.roff
    have hwo := h.wf.woff
    rw [readSize, h0] at hrs
    rw [h0] at hr
    rw [hwi] at hwo
    rw [Position.mk.injEq b.rpos.idx b.rpos.off b.wpos.idx b.wpos.off]
    omega

/-- The `n` bytes from `writePtr()` on. -/
def atWritePtr (b : Buffer) (n : ℕ) : List UInt8 :=
  (List.range n).map fun i => b.memAt b.wpos.idx (b.wpos.off + i)

/-- What is stored behind the written part changes neither the cells nor
the content. -/
theorem store_spec {b : Buffer} (h : b.Inv) (data : List UInt8) :
    (b.store data).Inv ∧ (b.store data).content = b.content
      ∧ (b.store data).atWritePtr data.length = data := by
  obtain ⟨cs, c, ns, hcs, hns, hcl, hnl⟩ := h.wf.last
  have hchunks : (b.store data).chunks = cs ++ [c.store b.wpos.off data] := by
    simp only [store, hcs, ← hcl]
    exact modify_last _ _ _
  have hcells : (b.store data).cells = b.cells := by
    rw [cells, cells, hchunks, hcs, show (b.store data).sizes = b.sizes from rfl, hns,
      List.zip_append (by rw [hcl, hnl]), List.zip_append (by rw [hcl, hnl])]
    simp [Chunk.slice_store_left]
  have hlen : (b.store data).chunks.length = b.chunks.length := by simp [hchunks, hcs]
  have hwf : (b.store data).Wf :=
    ⟨h.wf.len.trans hlen.symm, h.wf.widx.trans hlen.symm, h.wf.woff, h.wf.bound, h.wf.ridx,
      h.wf.roff⟩
  have hcont : (b.store data).content = b.content := by
    rw [content_eq hwf, content_eq h.wf, hcells]
    rfl
  refine ⟨⟨hwf, h.first, by rw [hcells]; exact h.inner, fun hnil => ?_⟩, hcont, ?_⟩
  · rw [hlen]
    exact h.single (hcont.symm.trans hnil)
  · have hmem : (b.store data).memAt b.wpos.idx = (c.store b.wpos.off data).mem := by
      rw [memAt, hchunks, ← hcl]
      simp
    show (List.range data.length).map (fun i => (b.store data).memAt b.wpos.idx (b.wpos.off + i))
      = data
    rw [hmem]
    exact c.slice_store_right b.wpos.off data

theorem store_atWritePtr {b : Buffer} (h : b.Wf) (n : ℕ) : b.store (b.atWritePtr n) = b := by
  obtain ⟨cs, c, ns, hcs, hns, hcl, hnl⟩ := h.last
  have hmem : b.memAt b.wpos.idx = c.mem := by
    rw [memAt, hcs, ← hcl]
    simp
  have hsame : c.store b.wpos.off (b.atWritePtr n) = c := by
    simp only [Chunk.store, atWritePtr, hmem]
    congr 1
    funext i
    by_cases hi : b.wpos.off ≤ i
    · rw [if_pos hi]
      by_cases hn : i - b.wpos.off < n
      · simp [hn, Nat.add_sub_cancel' hi]
      · simp [List.getElem?_eq_none (l := List.range n) (by simpa using hn)]
    · rw [if_neg hi]
  have hchunks : b.chunks.modify b.wpos.idx (fun c => c.store b.wpos.off (b.atWritePtr n))
      = b.chunks := by
    rw [hcs, ← hcl, modify_last, hsame]
  rw [store, hchunks]

theorem advance_spec {b : Buffer} (h : b.Inv) (n : ℕ) :
    (b.advance n).1.Inv
      ∧ ((b.advance n).2 = true ↔ 0 < n ∧ n ≤ b.writeSize)
      ∧ ((b.advance n).2 = true → (b.advance n).1.content = b.content ++ b.atWritePtr n)
      ∧ ((b.advance n).2 = false → (b.advance n).1 = b) := by
  unfold advance
  by_cases h0 : n ≤ 0
  · rw [if_pos h0]
    exact ⟨h, by simp; omega, by simp, fun _ => rfl⟩
  rw [if_neg h0]
  by_cases hfit : n ≤ b.writeSize
  · rw [if_pos hfit]
    have hlen : (b.atWritePtr n).length = n := by simp [atWritePtr]
    have hfit' : (b.atWritePtr n).length ≤ b.writeSize := by omega
    have hwf := (put_spec h.wf hfit').1
    have hin := put_inner h.wf h.inner hfit'
    have hcont := put_content h.wf hfit'
    rw [store_atWritePtr h.wf, hlen] at hwf hin hcont
    refine ⟨⟨hwf, h.first, hin, fun hnil => ?_⟩, by simp; omega, fun _ => hcont, by simp⟩
    have := congrArg List.length (hcont.symm.trans hnil)
    simp only [List.length_append, hlen, List.length_nil] at this
    omega
  · rw [if_neg hfit]
    exact ⟨h, by simp; omega, by simp, fun _ => rfl⟩

/-! ## consume -/

theorem consumeLoop_zero (fuel : ℕ) (b : Buffer) (d : ℕ) : consumeLoop fuel b 0 d = (b, 0, d) := by
  cases fuel with
  | zero => rfl
  | succ fuel => simp [consumeLoop]

/-- The loop of `consume`: it drops a prefix of the content, stops when
nothing is left to consume or the last chunk is reached, and in the
first case not on a chunk it exhausted. -/
theorem consumeLoop_spec : ∀ (fuel : ℕ) {b : Buffer} {bytes d : ℕ}, b.Wf →
    b.wpos.idx - b.rpos.idx < fuel → b.rpos.idx = d → ∀ {b' : Buffer} {m d' : ℕ},
    consumeLoop fuel b bytes d = (b', m, d') →
    b'.Wf ∧ b'.cells = b.cells ∧ b'.rpos.idx = d' ∧ m ≤ bytes
      ∧ b'.content = b.content.drop (bytes - m)
      ∧ (m = 0 ∨ b'.rpos.idx = b'.wpos.idx)
      ∧ (0 < bytes → b'.rpos.idx < b'.wpos.idx → 0 < b'.readSize ∨ b'.rpos.off = 0)
  | 0, _, _, _, _, hf, _, _, _, _, _ => absurd hf (Nat.not_lt_zero _)
  | fuel + 1, b, bytes, d, h, hf, hd, b', m, d', he => by
      rw [consumeLoop] at he
      by_cases hgo : bytes > 0 ∧ b.rpos.idx < b.wpos.idx
      · rw [if_pos hgo] at he
        have hmin : min bytes b.readSize ≤ bytes := Nat.min_le_left ..
        obtain ⟨hwf, hcont⟩ := skip_spec h (Nat.min_le_right bytes b.readSize)
        simp only at he
        generalize hb₁ : b.setRpos ⟨b.rpos.idx, b.rpos.off + min bytes b.readSize⟩ = b₁ at *
        have hw₁ : b₁.wpos = b.wpos := by rw [← hb₁]; rfl
        have hi₁ : b₁.rpos.idx = b.rpos.idx := by rw [← hb₁]; rfl
        have hc₁ : b₁.cells = b.cells := by rw [← hb₁]; rfl
        have hrs : b₁.readSize = b.readSize - min bytes b.readSize := by
          rw [← hb₁]
          show b.sizeAt b.rpos.idx - (b.rpos.off + min bytes b.readSize) = _
          rw [Nat.sub_add_eq]
          rfl
        by_cases hz : b₁.readSize = 0
        · rw [if_pos hz] at he
          obtain ⟨hwf₂, hcont₂⟩ := nextChunk_spec hwf hz (by rw [hi₁, hw₁]; exact hgo.2)
          have hidx : (b₁.setRpos ⟨b₁.rpos.idx + 1, 0⟩).rpos.idx = d + 1 := by
            rw [← hd, ← hi₁]
            rfl
          have hwp : (b₁.setRpos ⟨b₁.rpos.idx + 1, 0⟩).wpos = b.wpos := hw₁
          by_cases hleft : bytes - min bytes b.readSize = 0
          · -- the bytes ran out exactly at the end of the chunk
            rw [hleft, consumeLoop_zero] at he
            simp only [Prod.mk.injEq] at he
            obtain ⟨rfl, rfl, rfl⟩ := he
            refine ⟨hwf₂, hc₁, hidx, Nat.zero_le _, ?_, Or.inl rfl, fun _ _ => Or.inr rfl⟩
            rw [hcont₂, hcont]
            congr 1
            omega
          · obtain ⟨hwf', hcells, hdrop, hm, hc', hend, hne⟩ :=
              consumeLoop_spec fuel hwf₂ (by rw [hidx, hwp]; omega) hidx he
            refine ⟨hwf', hcells.trans hc₁, hdrop, by omega, ?_, hend, fun _ => hne (by omega)⟩
            rw [hc', hcont₂, hcont, List.drop_drop]
            congr 1
            omega
        · rw [if_neg hz, show bytes - min bytes b.readSize = 0 by omega, consumeLoop_zero] at he
          simp only [Prod.mk.injEq] at he
          obtain ⟨rfl, rfl, rfl⟩ := he
          refine ⟨hwf, hc₁, by rw [hi₁, hd], Nat.zero_le _, ?_, Or.inl rfl,
            fun _ _ => Or.inl (Nat.pos_of_ne_zero hz)⟩
          rw [hcont]
          congr 1
          omega
      · rw [if_neg hgo] at he
        simp only [Prod.mk.injEq] at he
        obtain ⟨rfl, rfl, rfl⟩ := he
        have hri := h.ridx
        refine ⟨h, rfl, hd, Nat.le_refl _, by simp, ?_, fun hb hlt => absurd ⟨hb, hlt⟩ hgo⟩
        by_cases hb : bytes = 0
        · exact Or.inl hb
        · exact Or.inr (by omega)

/-- A chunk before the last holds at least one byte. -/
theorem sizeAt_pos {b : Buffer} (h : b.Wf) (hin : ∀ c ∈ b.cells.dropLast, c ≠ []) {i : ℕ}
    (hi : i < b.wpos.idx) : 0 < b.sizeAt i := by
  have hw := h.widx
  obtain ⟨c, -, hcell⟩ := getElem?_cells h (i := i) (by omega)
  have hmem : c.slice 0 (b.sizeAt i) ∈ b.cells.dropLast := by
    refine List.mem_of_getElem? (i := i) ?_
    rw [List.getElem?_dropLast, if_pos (by rw [length_cells h]; omega)]
    exact hcell
  simpa using List.length_pos_iff.mpr (hin _ hmem)

theorem mem_dropLast_of_drop {α : Type} {a : α} :
    ∀ {l : List α} {n : ℕ}, a ∈ (l.drop n).dropLast → a ∈ l.dropLast
  | _, 0, h => h
  | [], _ + 1, h => by simp at h
  | [_], _ + 1, h => by simp at h
  | x :: y :: l, n + 1, h => by
      rw [List.dropLast_cons_cons]
      exact List.mem_cons_of_mem _ (mem_dropLast_of_drop h)

/-- The read position is not on an exhausted chunk that others follow:
`readPtr()` and `begin()` are at the first byte of the content. -/
def Live (b : Buffer) : Prop := b.readSize = 0 → b.wpos.idx = 0

instance (b : Buffer) : Decidable b.Live := inferInstanceAs (Decidable (_ → _))

/-- What is left to consume after the loop comes from the last chunk. -/
theorem skipRest_spec {b : Buffer} (h : b.Wf) {m : ℕ} (hm : 0 < m → b.rpos.idx = b.wpos.idx) :
    let b' := if m > 0 then b.setRpos ⟨b.rpos.idx, b.rpos.off + min m b.readSize⟩ else b
    b'.Wf ∧ b'.cells = b.cells ∧ b'.rpos.idx = b.rpos.idx ∧ b'.wpos = b.wpos
      ∧ b'.content = b.content.drop m := by
  by_cases hpos : m > 0
  · rw [if_pos hpos]
    obtain ⟨hs, hcont⟩ := skip_spec h (Nat.min_le_right m b.readSize)
    refine ⟨hs, rfl, rfl, rfl, ?_⟩
    obtain ⟨c, -, hlast⟩ := content_last h (hm hpos)
    have hlen : b.content.length = b.readSize := by simp [hlast]
    rw [hcont]
    rcases Nat.le_total m b.readSize with hle | hle
    · rw [Nat.min_eq_left hle]
    · rw [Nat.min_eq_right hle, List.drop_of_length_le (by omega),
        List.drop_of_length_le (by omega)]
  · rw [if_neg hpos, show m = 0 by omega]
    exact ⟨h, rfl, rfl, rfl, rfl⟩

theorem consume_spec {b : Buffer} (h : b.Inv) (n : ℕ) :
    (b.consume n).Inv ∧ (b.consume n).content = b.content.drop n
      ∧ (0 < n → (b.consume n).Live) := by
  have h0 := h.first
  rcases hloop : consumeLoop (b.wpos.idx - b.rpos.idx + 1) b n 0 with ⟨b₁, m, d⟩
  obtain ⟨hwf, hcells, hd, hm, hcont, hend, hne⟩ :=
    consumeLoop_spec _ h.wf (Nat.lt_succ_self _) h0 hloop
  obtain ⟨hwf₂, hcells₂, hidx₂, hw₂, hcont₂⟩ := skipRest_spec hwf (m := m) (by omega)
  generalize hb₂ : (if m > 0 then b₁.setRpos ⟨b₁.rpos.idx, b₁.rpos.off + min m b₁.readSize⟩
    else b₁) = b₂ at hwf₂ hcells₂ hidx₂ hw₂ hcont₂
  rw [hcells] at hcells₂
  rw [hd] at hidx₂
  rw [hcont, List.drop_drop, Nat.sub_add_cancel hm] at hcont₂
  -- the loop does not stop on an exhausted chunk before the last
  have hread : 0 < n → b₁.rpos.idx < b₁.wpos.idx → b₂ = b₁ ∧ 0 < b₁.readSize := by
    intro hn hlt
    have hm0 : m = 0 := by omega
    rw [hm0, if_neg (Nat.lt_irrefl 0)] at hb₂
    refine ⟨hb₂.symm, ?_⟩
    rcases hne hn hlt with hr | hr
    · exact hr
    · rw [readSize, hr, Nat.sub_zero]
      exact sizeAt_pos hwf (by rw [hcells]; exact h.inner) hlt
  have hcons : b.consume n = b₂.dropChunks d := by
    simp only [consume, hloop, hb₂]
  obtain ⟨hwf', hr', hc', hcont', hw', hrs'⟩ := dropChunks_spec hwf₂ hidx₂
  have hwi := hwf'.widx
  have hri := hwf₂.ridx
  simp only [hw', hw₂] at hwi
  rw [hcons]
  refine ⟨⟨hwf', by rw [hr'], ?_, ?_⟩, hcont'.trans hcont₂, ?_⟩
  · intro c hc
    rw [hc', hcells₂] at hc
    exact h.inner c (mem_dropLast_of_drop hc)
  · intro hnil
    by_cases hlt : b₁.rpos.idx < b₁.wpos.idx
    · rcases Nat.eq_zero_or_pos n with rfl | hn
      · -- `consume(0)` leaves the loop at once
        rw [consumeLoop_zero] at hloop
        simp only [Prod.mk.injEq] at hloop
        obtain ⟨rfl, rfl, rfl⟩ := hloop
        rw [hcont', hcont₂, List.drop_zero] at hnil
        have hwi := h.widx_of_nil hnil
        omega
      · obtain ⟨rfl, hpos⟩ := hread hn hlt
        obtain ⟨c, -, hsplit⟩ := content_split hwf
        have := congrArg List.length (hsplit.symm.trans (hcont'.symm.trans hnil))
        simp only [List.length_append, Chunk.length_slice, List.length_nil] at this
        omega
    · rw [hw₂] at hri
      omega
  · intro hn hz
    rw [hw', hw₂]
    rw [hrs'] at hz
    by_cases hlt : b₁.rpos.idx < b₁.wpos.idx
    · obtain ⟨rfl, hpos⟩ := hread hn hlt
      omega
    · rw [hw₂] at hri
      show b₁.wpos.idx - d = 0
      omega

/-- `consume(0)` does nothing. -/
theorem consume_zero (b : Buffer) : b.consume 0 = b := by
  simp [consume, consumeLoop_zero, dropChunks]

theorem consume_live {b : Buffer} (h : b.Inv) (hl : b.Live) (n : ℕ) : (b.consume n).Live := by
  rcases Nat.eq_zero_or_pos n with rfl | hn
  · rw [consume_zero]
    exact hl
  · exact (consume_spec h n).2.2 hn

/-! ## The queue -/

theorem map_length_cells {b : Buffer} (h : b.Wf) : b.cells.map List.length = b.sizes := by
  have hlen := h.len
  have hlength : (List.length ∘ fun p : Chunk × ℕ => p.1.slice 0 p.2) = Prod.snd := by
    funext p
    simp
  rw [cells, List.map_map, hlength, List.map_snd_zip (by omega)]

theorem byteCount_eq {b : Buffer} (h : b.Inv) : b.byteCount = b.content.length := by
  obtain ⟨c, -, hc⟩ := content_split h.wf
  rw [byteCount, hc, h.first, List.length_append, Chunk.length_slice, List.length_flatten,
    List.map_drop, map_length_cells h.wf]

/-- The calls a producer and a consumer make on a buffer. `store` is
what the producer does with the area at `writePtr()` before it calls
`advance`; an area of `writeSize()` bytes takes no more than that. -/
inductive Op where
  | reserve (n : ℕ)
  | store (data : List UInt8)
  | advance (n : ℕ)
  | write (data : List UInt8)
  | consume (n : ℕ)

def apply (b : Buffer) : Op → Buffer
  | .reserve n => (b.reserve n).1
  | .store data => if data.length ≤ b.writeSize then b.store data else b
  | .advance n => (b.advance n).1
  | .write data => b.write data
  | .consume n => b.consume n

/-- The buffer after a sequence of calls on a new one. -/
def run (heap : ℕ → ℕ → UInt8) (ops : List Op) : Buffer := ops.foldl apply (new heap)

theorem apply_inv {b : Buffer} (h : b.Inv) (op : Op) : (b.apply op).Inv := by
  cases op with
  | reserve n => exact (reserve_spec h n).1
  | store data =>
      simp only [apply]
      split
      · exact (store_spec h data).1
      · exact h
  | advance n => exact (advance_spec h n).1
  | write data => exact (write_spec h data).1
  | consume n => exact (consume_spec h n).1

theorem run_inv (heap : ℕ → ℕ → UInt8) (ops : List Op) : (run heap ops).Inv := by
  unfold run
  generalize hb : new heap = b
  have h : b.Inv := hb ▸ (new_inv heap).1
  clear hb
  induction ops generalizing b with
  | nil => exact h
  | cons op ops ih => exact ih _ (apply_inv h op)

/-- **The buffer is a FIFO byte queue.** After any sequence of calls on a
new buffer every further call acts on the content as on a queue: `write`
and a successful `advance` (of what was stored at `writePtr()`) append,
`consume` removes a prefix, `reserve` changes nothing; the results and
the two positions are as documented. -/
theorem buffer_is_fifo (heap : ℕ → ℕ → UInt8) (ops : List Op) :
    let b := run heap ops
    (∀ data, (b.write data).content = b.content ++ data)
      ∧ (∀ n, (b.advance n).2 = true → (b.advance n).1.content = b.content ++ b.atWritePtr n)
      ∧ (∀ data, 0 < data.length → data.length ≤ b.writeSize →
          ((b.store data).advance data.length).2 = true
            ∧ ((b.store data).advance data.length).1.content = b.content ++ data)
      ∧ (∀ n, (b.consume n).content = b.content.drop (min n b.content.length))
      ∧ (∀ n, (b.reserve n).1.content = b.content)
      ∧ b.byteCount = b.content.length
      ∧ (∀ n, ((b.reserve n).2 = true ↔ n ≤ BlockSize)
          ∧ ((b.reserve n).2 = true → n ≤ (b.reserve n).1.writeSize))
      ∧ (∀ n, ((b.advance n).2 = true ↔ 0 < n ∧ n ≤ b.writeSize)
          ∧ ((b.advance n).2 = false → (b.advance n).1 = b))
      ∧ b.rpos.idx = 0 ∧ b.wpos.idx + 1 = b.numChunks
      ∧ (∀ n, (b.consume n).content = [] → (b.consume n).numChunks = 1) := by
  intro b
  have h : b.Inv := run_inv heap ops
  refine ⟨fun data => (write_spec h data).2, fun n => (advance_spec h n).2.2.1, ?_, ?_,
    fun n => (reserve_spec h n).2.1, byteCount_eq h,
    fun n => ⟨(reserve_spec h n).2.2.1, (reserve_spec h n).2.2.2⟩,
    fun n => ⟨(advance_spec h n).2.1, (advance_spec h n).2.2.2⟩, h.first, h.wf.widx,
    fun n hnil => (consume_spec h n).1.single hnil⟩
  · intro data hpos hfit
    obtain ⟨hs, hsc, hsp⟩ := store_spec h data
    obtain ⟨-, hiff, happ, -⟩ := advance_spec hs data.length
    have htrue := hiff.mpr ⟨hpos, hfit⟩
    exact ⟨htrue, by rw [happ htrue, hsc, hsp]⟩
  · intro n
    rw [(consume_spec h n).2.1]
    rcases Nat.le_total n b.content.length with hle | hle
    · rw [Nat.min_eq_left hle]
    · rw [Nat.min_eq_right hle, List.drop_length, List.drop_of_length_le hle]

end Buffer

end HttpServer
