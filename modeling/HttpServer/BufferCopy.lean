import HttpServer.BufferLive

/-!
# Appending while a reader holds a pointer

`copyFrom` appends the content of another buffer, chunk by chunk
(`copyFrom_spec`).

A connection reads `readPtr()` and `readSize()` under its lock, lets the
lock go and hands the bytes to the socket. `Extends b b'` is what it
relies on meanwhile: the read position is where it was, in the chunk it
was, and at least as many bytes are readable there. `write` and
`copyFrom` extend a buffer, and in an extended buffer the pointer still
points to the first bytes of the content (`peek_eq`).
-/

namespace HttpServer

namespace Buffer

/-! ## Pointers into a buffer -/

/-- `readPtr()`: the address of the chunk under the read position and the
offset in it. -/
def readPtr (b : Buffer) : ℕ × ℕ := (((b.chunks[b.rpos.idx]?).map Chunk.addr).getD 0, b.rpos.off)

/-- The `n` bytes at a pointer, if it points into a chunk that the buffer
still has. -/
def peek (b : Buffer) (p : ℕ × ℕ) (n : ℕ) : Option (List UInt8) :=
  (b.chunks.find? fun c => c.addr = p.1).map fun c => c.slice p.2 n

/-- `b'` has the readable bytes of `b` where `b` has them. -/
structure Extends (b b' : Buffer) : Prop where
  rpos : b'.rpos = b.rpos
  addr : (b'.chunks[b.rpos.idx]?).map Chunk.addr = (b.chunks[b.rpos.idx]?).map Chunk.addr
  readSize : b.readSize ≤ b'.readSize

namespace Extends

theorem refl (b : Buffer) : Extends b b := ⟨rfl, rfl, Nat.le_refl _⟩

theorem trans {b b' b'' : Buffer} (h : Extends b b') (h' : Extends b' b'') : Extends b b'' := by
  refine ⟨h'.rpos.trans h.rpos, ?_, Nat.le_trans h.readSize h'.readSize⟩
  have := h'.addr
  rw [h.rpos] at this
  exact this.trans h.addr

theorem readPtr {b b' : Buffer} (h : Extends b b') : b'.readPtr = b.readPtr := by
  rw [Buffer.readPtr, Buffer.readPtr, h.rpos, h.addr]

end Extends

theorem newChunk_extends {b : Buffer} (h : b.Wf) : Extends b b.newChunk := by
  refine ⟨rfl, ?_, Nat.le_of_eq (newChunk_readSize b).symm⟩
  have hlt : b.rpos.idx < b.chunks.length := by have := h.ridx; have := h.widx; omega
  show ((b.chunks ++ [_])[b.rpos.idx]?).map Chunk.addr = _
  rw [List.getElem?_append_left hlt]

theorem put_extends (b : Buffer) (data : List UInt8) (n : ℕ) :
    Extends b ((b.store data).grow n) := by
  refine ⟨rfl, ?_, ?_⟩
  · simp only [store, grow, List.getElem?_modify]
    cases b.chunks[b.rpos.idx]? with
    | none => rfl
    | some c =>
        show some (Chunk.addr (if _ then _ else _)) = some c.addr
        split <;> rfl
  · refine Nat.sub_le_sub_right ?_ _
    show b.sizes.getD b.rpos.idx 0 ≤ (b.sizes.modify b.wpos.idx (· + n)).getD b.rpos.idx 0
    simp only [List.getD_eq_getElem?_getD, List.getElem?_modify]
    cases b.sizes[b.rpos.idx]? with
    | none => exact Nat.zero_le _
    | some m =>
        show m ≤ if _ then m + n else m
        split
        · exact Nat.le_add_right m n
        · exact Nat.le_refl m

theorem writeRound_extends {b : Buffer} (h : b.Wf) (data : List UInt8) :
    Extends b (b.writeRound data).1 := by
  have hput := put_extends b (data.take (min b.writeSize data.length)) (min b.writeSize data.length)
  have hwf : ((b.store (data.take (min b.writeSize data.length))).grow
      (min b.writeSize data.length)).Wf := by
    have hl : (data.take (min b.writeSize data.length)).length = min b.writeSize data.length := by
      rw [List.length_take]
      omega
    have hfit : (data.take (min b.writeSize data.length)).length ≤ b.writeSize := by omega
    have hput := (put_spec h hfit).1
    rwa [hl] at hput
  simp only [writeRound]
  split
  · exact hput.trans (newChunk_extends hwf)
  · exact hput

theorem writeLoop_extends : ∀ (fuel : ℕ) {b : Buffer} (data : List UInt8), b.Wf →
    (∀ c ∈ b.cells.dropLast, c ≠ []) → Extends b (writeLoop fuel b data)
  | 0, b, _, _, _ => .refl b
  | fuel + 1, b, data, h, hin => by
      rw [writeLoop_succ]
      split
      · obtain ⟨hwf, hinner, -⟩ := writeRound_spec h hin data
        exact (writeRound_extends h data).trans (writeLoop_extends fuel _ hwf hinner)
      · exact .refl b

theorem write_extends {b : Buffer} (h : b.Inv) (data : List UInt8) : Extends b (b.write data) :=
  writeLoop_extends _ data h.wf h.inner

/-! ## copyFrom -/

/-- The loop of `copyFrom`: chunks of the source before the last are not
empty, so no chunk but the last is left empty. -/
theorem copyLoop_spec : ∀ (l : List (Chunk × ℕ)) (first : Bool) {b : Buffer}, b.Wf →
    (∀ c ∈ b.cells.dropLast, c ≠ []) → (∀ p ∈ l, p.2 ≤ BlockSize) →
    (∀ p ∈ l.dropLast, 0 < p.2) → (first = false → l ≠ [] → 0 < b.wpos.off) →
    (copyLoop l first b).Wf ∧ (∀ c ∈ (copyLoop l first b).cells.dropLast, c ≠ [])
      ∧ (copyLoop l first b).content = b.content ++ (l.map fun p => p.1.slice 0 p.2).flatten
      ∧ Extends b (copyLoop l first b)
  | [], _, b, h, hin, _, _, _ => ⟨h, hin, by simp [copyLoop], .refl b⟩
  | (c, len) :: rest, first, b, h, hin, hle, hpos, hoff => by
      have hlen : len ≤ BlockSize := hle (c, len) (by simp)
      -- the chunk the bytes go to
      obtain ⟨b₁, hb₁, hwf, hinner, hcont, hext, hfit⟩ : ∃ b₁,
          (if !first || len > b.writeSize then b.newChunk else b) = b₁ ∧ b₁.Wf
            ∧ (∀ c ∈ b₁.cells.dropLast, c ≠ []) ∧ b₁.content = b.content ∧ Extends b b₁
            ∧ len ≤ b₁.writeSize := by
        by_cases hnew : (!first || decide (len > b.writeSize)) = true
        · refine ⟨b.newChunk, if_pos hnew, newChunk_wf h, newChunk_inner h hin ?_,
            newChunk_content h, newChunk_extends h, hlen⟩
          cases first with
          | false => exact hoff rfl (by simp)
          | true =>
              have hws : b.writeSize < len := by simpa using hnew
              unfold writeSize at hws
              omega
        · refine ⟨b, if_neg hnew, h, hin, rfl, .refl b, ?_⟩
          simp only [Bool.or_eq_true, decide_eq_true_eq, not_or] at hnew
          omega
      have hslice : (c.slice 0 len).length = len := by simp
      have hroom := hslice.trans_le hfit
      have hput := put_spec hwf hroom
      have hputc := put_content hwf hroom
      have hputi := put_inner hwf hinner hroom
      rw [hslice] at hput hputc hputi
      have hrest := copyLoop_spec rest false hput.1 hputi
        (fun p hp => hle p (List.mem_cons_of_mem _ hp)) ?_ ?_
      · rw [copyLoop, hb₁]
        obtain ⟨hwf', hin', hc', hr'⟩ := hrest
        refine ⟨hwf', hin', ?_, (hext.trans (put_extends b₁ _ _)).trans hr'⟩
        rw [hc', hputc, hcont, List.map_cons, List.flatten_cons, List.append_assoc]
      · intro p hp
        cases rest with
        | nil => cases hp
        | cons q rest =>
            refine hpos p ?_
            rw [List.dropLast_cons_cons]
            exact List.mem_cons_of_mem _ hp
      · intro _ hne
        have hl : 0 < len := by
          cases rest with
          | nil => exact absurd rfl hne
          | cons q rest => exact hpos (c, len) (by simp)
        show 0 < b₁.wpos.off + len
        omega

/-- `copyFrom` appends what there is to read in the other buffer. -/
theorem copyFrom_spec {b other : Buffer} (h : b.Inv) (ho : other.Inv)
    (hc : other.isConsumed = false) :
    (b.copyFrom other).Inv ∧ (b.copyFrom other).content = b.content ++ other.content
      ∧ Extends b (b.copyFrom other) := by
  have hroff : other.rpos.off = 0 := (isConsumed_eq_false.mp hc).2
  have hocont : other.content = other.cells.flatten := by
    rw [content_eq ho.wf, ho.first, hroff]
    rfl
  unfold copyFrom
  rw [if_neg (by simp [hc])]
  by_cases hz : other.readSize = 0
  · -- the first chunk is empty, so it is the only one
    rw [if_pos hz]
    have hone : other.wpos.idx = 0 := by
      by_contra hne
      have hp := sizeAt_pos ho.wf ho.inner (i := 0) (by omega)
      rw [readSize, ho.first, hroff] at hz
      omega
    obtain ⟨c, -, hcont⟩ := content_last ho.wf (ho.first.trans hone.symm)
    have hnil : other.content = [] := by
      rw [hcont, hz]
      rfl
    rw [hnil, List.append_nil]
    exact ⟨h, rfl, .refl b⟩
  · rw [if_neg hz]
    have hlen := ho.wf.len
    have hsrc : ∀ p ∈ other.chunks.zip other.sizes, p.2 ≤ BlockSize := fun p hp =>
      ho.wf.bound p.2 (List.of_mem_zip hp).2
    have hpos : ∀ p ∈ (other.chunks.zip other.sizes).dropLast, 0 < p.2 := by
      intro p hp
      have hmem : p.1.slice 0 p.2 ∈ other.cells.dropLast := by
        rw [cells, ← List.map_dropLast]
        exact List.mem_map_of_mem hp
      simpa using List.length_pos_iff.mpr (ho.inner _ hmem)
    obtain ⟨hwf, hin, hcont, hext⟩ := copyLoop_spec (other.chunks.zip other.sizes) true h.wf h.inner
      hsrc hpos (fun hf => by cases hf)
    have hfirst := (congrArg Position.idx hext.rpos).trans h.first
    have hcont' : (copyLoop (other.chunks.zip other.sizes) true b).content
        = b.content ++ other.content := by
      rw [hcont, hocont]
      rfl
    have hne : b.content ++ other.content ≠ [] := by
      obtain ⟨c, -, hoc⟩ := content_split ho.wf
      intro hnil
      have hl := congrArg List.length (List.append_eq_nil_iff.mp hnil).2
      rw [hoc, List.length_append, Chunk.length_slice, List.length_nil] at hl
      omega
    by_cases hfull : (copyLoop (other.chunks.zip other.sizes) true b).wpos.off = BlockSize
    · rw [if_pos hfull]
      have hc2 := (newChunk_content hwf).trans hcont'
      refine ⟨⟨newChunk_wf hwf, hfirst, newChunk_inner hwf hin ?_, ?_⟩, hc2,
        hext.trans (newChunk_extends hwf)⟩
      · rw [hfull]
        decide
      · intro hnil
        exact absurd (hc2.symm.trans hnil) hne
    · rw [if_neg hfull]
      refine ⟨⟨hwf, hfirst, hin, ?_⟩, hcont', hext⟩
      intro hnil
      exact absurd (hcont'.symm.trans hnil) hne

theorem copyFrom_live {b other : Buffer} (h : b.Inv) (hl : 0 < b.readSize) (ho : other.Inv)
    (hc : other.isConsumed = false) : (b.copyFrom other).Live := by
  have hle := (copyFrom_spec h ho hc).2.2.readSize
  intro hz
  omega

theorem copyFrom_room {b other : Buffer} (h : b.Inv) (hroom : 0 < b.writeSize) (ho : other.Inv)
    (hc : other.isConsumed = false) : 0 < (b.copyFrom other).writeSize := by
  have hoff := (copyFrom_spec h ho hc).1.wf.off_le
  revert hoff
  unfold copyFrom
  split
  · exact fun _ => hroom
  · split
    · exact fun _ => hroom
    · simp only
      split
      · exact fun _ => (by decide : 0 < BlockSize)
      · intro hoff
        unfold writeSize
        omega

/-! ## The reader's view -/

theorem Live.readSize_pos {b : Buffer} (h : b.Inv) (hl : b.Live) (hne : b.content ≠ []) :
    0 < b.readSize := by
  refine Nat.pos_of_ne_zero fun hz => hne ?_
  obtain ⟨c, -, hcont⟩ := content_last h.wf (h.first.trans (hl hz).symm)
  rw [hcont, hz]
  rfl

theorem readSize_le {b : Buffer} (h : b.Wf) : b.readSize ≤ b.content.length := by
  obtain ⟨c, -, hcont⟩ := content_split h
  rw [hcont, List.length_append, Chunk.length_slice]
  exact Nat.le_add_right ..

theorem readSize_of_nil {b : Buffer} (h : b.Wf) (hnil : b.content = []) : b.readSize = 0 := by
  have hle := readSize_le h
  rw [hnil] at hle
  exact Nat.le_zero.mp hle

/-- The bytes at `readPtr()` are the first bytes of the content. -/
theorem peek_eq {b : Buffer} (h : b.Inv) {n : ℕ} (hn : n ≤ b.readSize) :
    b.peek b.readPtr n = some (b.content.take n) := by
  obtain ⟨c, hc, hcont⟩ := content_split h.wf
  have hfind : b.chunks.find? (fun d => d.addr = c.addr) = some c := by
    rw [h.first] at hc
    cases hch : b.chunks with
    | nil =>
        rw [hch] at hc
        cases hc
    | cons d rest =>
        rw [hch] at hc
        obtain rfl := Option.some.inj hc
        simp
  have hptr : b.readPtr = (c.addr, b.rpos.off) := by
    rw [readPtr, hc]
    rfl
  obtain ⟨m, hm⟩ := Nat.exists_eq_add_of_le hn
  have hlen : (c.slice b.rpos.off n).length = n := by simp
  rw [peek, hptr, hfind, hcont, hm, Chunk.slice_add, List.append_assoc,
    List.take_append_of_le_length (Nat.le_of_eq hlen.symm),
    List.take_of_length_le (Nat.le_of_eq hlen)]
  rfl

end Buffer

end HttpServer
