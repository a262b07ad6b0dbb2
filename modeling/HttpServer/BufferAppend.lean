import HttpServer.BufferPlaced

/-!
# appendFrom

`appendFrom` moves the chunks of another buffer to the end of a buffer
without copying. Both last chunks are taken off before if they are empty
(`Trimmed`), so that no chunk but the last is, and the last chunk is a new
one, or the one that was taken off, if it would be full.

A read position at the end of its chunk is moved to the next chunk, and
the exhausted chunk stays in front of it. `byteCount` takes the chunk under
the read position to be the first one, so from then on it counts bytes
twice; that is the case exactly when the destination was read to the end of
its first chunk, and something was read (`appendFrom_iff`).
-/

namespace HttpServer

namespace Buffer

/-- `maybeRemoveLastChunk`: the buffer without its last chunk if that is
empty, and the chunk. -/
def maybeRemoveLastChunk (b : Buffer) : Buffer × Option Chunk :=
  if b.sizeAt b.wpos.idx = 0 then
    ({ b with chunks := b.chunks.dropLast, sizes := b.sizes.dropLast }, b.chunks[b.wpos.idx]?)
  else (b, none)

/-- All of `other`'s chunks at the end, and behind a full one a new chunk
or the one that was saved. -/
def pushChunks (b other : Buffer) (lastChunk : Option Chunk) : Buffer :=
  let b := { b with chunks := b.chunks ++ other.chunks, sizes := b.sizes ++ other.sizes }
  if b.sizes.getLastD 0 = BlockSize then
    match lastChunk with
    | none => b.addChunk.1
    | some c => { b with chunks := b.chunks ++ [c], sizes := b.sizes ++ [0] }
  else b

/-- Both positions after chunks were added: the read position leaves a
chunk with nothing left, the write position is at the end. -/
def adjust (b : Buffer) : Buffer :=
  let b := if b.readSize = 0 then b.setRpos ⟨b.rpos.idx + 1, 0⟩ else b
  { b with wpos := ⟨b.chunks.length - 1, b.sizes.getLastD 0⟩ }

/-- The state of `other` after its chunks were moved; a saved chunk is put
back without a new write position. -/
def restart (b : Buffer) (lastChunk : Option Chunk) : Buffer :=
  let b := { b with chunks := [], sizes := [] }
  let b :=
    match lastChunk with
    | none => b.newChunk
    | some c => { b with chunks := b.chunks ++ [c], sizes := b.sizes ++ [0] }
  b.setRpos b.wpos

/-- `appendFrom`: the buffer and `other` after it. On a consumed source the
code logs a fatal message and returns. -/
def appendFrom (b other : Buffer) : Buffer × Buffer :=
  if other.isConsumed then (b, other)
  else if other.readSize = 0 then (b, other)
  else
    let (b, lastChunk) := b.maybeRemoveLastChunk
    let (other, otherLastChunk) := other.maybeRemoveLastChunk
    ((b.pushChunks other lastChunk).adjust, other.restart otherLastChunk)

/-! ## Without an empty last chunk -/

/-- The chunks and sizes that `maybeRemoveLastChunk` leaves, and what it
returns. -/
inductive Trimmed (b : Buffer) : List Chunk → List ℕ → Option Chunk → Prop where
  | kept (h : b.wpos.off ≠ 0) : Trimmed b b.chunks b.sizes none
  | removed {cs : List Chunk} {ns : List ℕ} {c : Chunk} (hc : b.chunks = cs ++ [c])
      (hn : b.sizes = ns ++ [0]) : Trimmed b cs ns (some c)

section

variable {b other : Buffer} {cs os : List Chunk} {ns ms : List ℕ} {last otherLast : Option Chunk}

theorem maybeRemoveLastChunk_spec (h : b.Wf) : ∃ cs ns last, Trimmed b cs ns last
    ∧ b.maybeRemoveLastChunk = ({ b with chunks := cs, sizes := ns }, last) := by
  rw [maybeRemoveLastChunk, h.woff]
  by_cases hz : b.wpos.off = 0
  · obtain ⟨cs, c, ns, hc, hn, hcl, -⟩ := h.last
    rw [hz] at hn
    refine ⟨cs, ns, some c, .removed hc hn, ?_⟩
    rw [if_pos hz, hc, hn, List.dropLast_concat, List.dropLast_concat, ← hcl]
    simp
  · exact ⟨b.chunks, b.sizes, none, .kept hz, if_neg hz⟩

theorem Trimmed.len (t : Trimmed b cs ns last) (h : b.Wf) : ns.length = cs.length := by
  have hlen := h.len
  cases t with
  | kept => exact hlen
  | removed hc hn =>
      rw [hc, hn, List.length_append, List.length_append] at hlen
      exact Nat.succ.inj hlen

theorem Trimmed.bound (t : Trimmed b cs ns last) (h : b.Wf) : ∀ n ∈ ns, n ≤ BlockSize := by
  intro n hmem
  cases t with
  | kept => exact h.bound n hmem
  | removed hc hn => exact h.bound n (hn ▸ List.mem_append_left _ hmem)

/-- The cells of what is left hold all that was written. -/
theorem Trimmed.cells (t : Trimmed b cs ns last) (h : b.Wf) :
    ((cs.zip ns).map fun p => p.1.slice 0 p.2).flatten = b.cells.flatten := by
  have hlen := t.len h
  cases t with
  | kept => rfl
  | @removed _ _ c hc hn =>
      rw [Buffer.cells, hc, hn, List.zip_append hlen.symm, List.map_append, List.flatten_append]
      simp [Chunk.slice]

/-- With no empty chunk before the last there is none left. -/
theorem Trimmed.pos (t : Trimmed b cs ns last) (h : b.Inv) : ∀ n ∈ ns, 0 < n := by
  intro n hmem
  obtain ⟨i, hi⟩ := List.mem_iff_getElem?.mp hmem
  have hlt : i < ns.length := (List.getElem?_eq_some_iff.mp hi).1
  have hlen := h.wf.len
  have hw := h.wf.widx
  have hat : b.sizeAt i = n := by
    cases t with
    | kept => rw [sizeAt, List.getD_eq_getElem?_getD, hi, Option.getD_some]
    | removed hc hn => rw [sizeAt_append_left hn hlt, List.getD_eq_getElem?_getD, hi,
        Option.getD_some]
  cases t with
  | kept hoff =>
      rcases Nat.lt_or_ge i b.wpos.idx with hlt' | hge
      · rw [← hat]
        exact sizeAt_pos h.wf h.inner hlt'
      · rw [← hat, show i = b.wpos.idx by omega, h.wf.woff]
        exact Nat.pos_of_ne_zero hoff
  | removed hc hn =>
      rw [← hat]
      refine sizeAt_pos h.wf h.inner ?_
      rw [hn, List.length_append, List.length_singleton] at hlen
      omega

/-- The chunk under the read position, if something is left to read in it
or something was read from it. -/
theorem Trimmed.sizeAt (t : Trimmed b cs ns last) (h : b.Wf) (hpos : 0 < b.sizeAt b.rpos.idx) :
    b.rpos.idx < ns.length ∧ ns.getD b.rpos.idx 0 = b.sizeAt b.rpos.idx := by
  have hri := h.ridx
  have hw := h.widx
  have hlen := h.len
  cases t with
  | kept => exact ⟨by omega, rfl⟩
  | removed hc hn =>
      have hidx : b.rpos.idx < ns.length := by
        rw [hn, List.length_append, List.length_singleton] at hlen
        by_contra hge
        have hat : b.sizeAt b.rpos.idx = 0 := by
          rw [Buffer.sizeAt, hn, List.getD_eq_getElem?_getD, List.getElem?_append_right (by omega),
            show b.rpos.idx - ns.length = 0 by omega]
          rfl
        omega
      exact ⟨hidx, (sizeAt_append_left hn hidx).symm⟩

theorem Trimmed.length (t : Trimmed b cs ns last) (h : b.Wf) :
    (last = none ∧ ns.length = b.wpos.idx + 1) ∨ (ns.length = b.wpos.idx ∧ b.wpos.off = 0) := by
  have hlen := h.len
  have hw := h.widx
  cases t with
  | kept => exact .inl ⟨rfl, by omega⟩
  | @removed _ _ c hc hn =>
      right
      rw [hn, List.length_append, List.length_singleton] at hlen
      refine ⟨by omega, ?_⟩
      have hwo := h.woff
      rw [Buffer.sizeAt, hn, show b.wpos.idx = ns.length by omega] at hwo
      rw [← hwo]
      simp

/-! ## The chunks of both -/

/-- `b'` is `b` with chunks `cs`, `os` and perhaps an empty one, and the
positions that go with them. -/
structure Joined (b b' : Buffer) (cs os : List Chunk) (ns ms : List ℕ) : Prop where
  lists : ∃ ext exn, b'.chunks = cs ++ os ++ ext ∧ b'.sizes = ns ++ ms ++ exn
    ∧ ((ext = [] ∧ exn = [] ∧ (ns ++ ms).getLastD 0 ≠ BlockSize) ∨ ∃ c, ext = [c] ∧ exn = [0])
  wpos : b'.wpos = ⟨b'.chunks.length - 1, b'.sizes.getLastD 0⟩
  rpos : b'.rpos = if b'.sizeAt b.rpos.idx - b.rpos.off = 0 then ⟨b.rpos.idx + 1, 0⟩ else b.rpos

theorem adjust_spec (b : Buffer) : b.adjust.chunks = b.chunks ∧ b.adjust.sizes = b.sizes
    ∧ b.adjust.wpos = ⟨b.chunks.length - 1, b.sizes.getLastD 0⟩
    ∧ b.adjust.rpos = if b.readSize = 0 then ⟨b.rpos.idx + 1, 0⟩ else b.rpos := by
  by_cases hz : b.readSize = 0
  · refine ⟨?_, ?_, ?_, ?_⟩ <;> simp [adjust, setRpos, hz]
  · refine ⟨?_, ?_, ?_, ?_⟩ <;> simp [adjust, hz]

theorem Joined.of_adjust {b₁ : Buffer} (hr : b₁.rpos = b.rpos) {ext : List Chunk} {exn : List ℕ}
    (hc : b₁.chunks = cs ++ os ++ ext) (hs : b₁.sizes = ns ++ ms ++ exn)
    (hext : (ext = [] ∧ exn = [] ∧ (ns ++ ms).getLastD 0 ≠ BlockSize)
      ∨ ∃ c, ext = [c] ∧ exn = [0]) :
    Joined b b₁.adjust cs os ns ms := by
  obtain ⟨hac, has, haw, har⟩ := adjust_spec b₁
  refine ⟨⟨ext, exn, hac.trans hc, has.trans hs, hext⟩, ?_, ?_⟩
  · rw [haw, hac, has]
  · rw [har, readSize, hr, Buffer.sizeAt, Buffer.sizeAt, has]

theorem joined_of_push (b other : Buffer) (cs : List Chunk) (ns : List ℕ) (last : Option Chunk) :
    Joined b (pushChunks { b with chunks := cs, sizes := ns } other last).adjust
      cs other.chunks ns other.sizes := by
  simp only [pushChunks]
  by_cases hfull : (ns ++ other.sizes).getLastD 0 = BlockSize
  · rw [if_pos hfull]
    cases last with
    | none => exact .of_adjust rfl rfl rfl (.inr ⟨_, rfl, rfl⟩)
    | some c => exact .of_adjust rfl rfl rfl (.inr ⟨c, rfl, rfl⟩)
  · rw [if_neg hfull]
    exact .of_adjust rfl (List.append_nil _).symm (List.append_nil _).symm (.inl ⟨rfl, rfl, hfull⟩)

theorem appendFrom_fst (hb : b.Wf) (ho : other.Wf) (hc : other.isConsumed = false)
    (hz : other.readSize ≠ 0) : ∃ cs ns last os ms otherLast, Trimmed b cs ns last
      ∧ Trimmed other os ms otherLast ∧ Joined b (b.appendFrom other).1 cs os ns ms := by
  obtain ⟨cs, ns, last, ht, he⟩ := maybeRemoveLastChunk_spec hb
  obtain ⟨os, ms, otherLast, ht', he'⟩ := maybeRemoveLastChunk_spec ho
  refine ⟨cs, ns, last, os, ms, otherLast, ht, ht', ?_⟩
  rw [appendFrom, if_neg (by simp [hc]), if_neg hz, he, he']
  exact joined_of_push b { other with chunks := os, sizes := ms } cs ns last

/-- What is left of `other` does not depend on where its chunks went. -/
theorem appendFrom_snd (b : Buffer) (ho : other.Wf) (hc : other.isConsumed = false)
    (hz : other.readSize ≠ 0) : ∃ os ms otherLast, Trimmed other os ms otherLast
      ∧ (b.appendFrom other).2 = other.restart otherLast := by
  obtain ⟨os, ms, otherLast, ht, he⟩ := maybeRemoveLastChunk_spec ho
  refine ⟨os, ms, otherLast, ht, ?_⟩
  rw [appendFrom, if_neg (by simp [hc]), if_neg hz, he]
  rfl

/-! ### The sizes of both -/

theorem Joined.getD (j : Joined b other cs os ns ms) {i : ℕ} (hi : i < ns.length + ms.length) :
    other.sizeAt i = (ns ++ ms).getD i 0 := by
  obtain ⟨ext, exn, -, hs, -⟩ := j.lists
  rw [Buffer.sizeAt, hs, List.getD_eq_getElem?_getD, List.getElem?_append_left (by simpa using hi),
    List.getD_eq_getElem?_getD]

theorem getLastD_eq (l : List ℕ) : l.getLastD 0 = l.getD (l.length - 1) 0 := by
  rw [List.getLastD_eq_getLast?, List.getLast?_eq_getElem?, List.getD_eq_getElem?_getD]

theorem getD_append_right (ns ms : List ℕ) : (ns ++ ms).getD ns.length 0 = ms.getD 0 0 := by
  rw [List.getD_eq_getElem?_getD, List.getElem?_append_right (Nat.le_refl _), Nat.sub_self,
    List.getD_eq_getElem?_getD]

theorem getD_append_left {ns : List ℕ} (ms : List ℕ) {i : ℕ} (hi : i < ns.length) :
    (ns ++ ms).getD i 0 = ns.getD i 0 := by
  rw [List.getD_eq_getElem?_getD, List.getElem?_append_left hi, List.getD_eq_getElem?_getD]

theorem length_pos_of_getD {ms : List ℕ} (h : 0 < ms.getD 0 0) : 0 < ms.length := by
  cases ms with
  | nil => exact absurd h (Nat.lt_irrefl 0)
  | cons m ms => exact Nat.succ_pos _

section

variable {b' : Buffer}

/-- The numbers of chunks and of sizes. -/
theorem Joined.length (j : Joined b b' cs os ns ms) (hn : ns.length = cs.length)
    (hm : ms.length = os.length) : b'.sizes.length = b'.chunks.length
      ∧ ns.length + ms.length ≤ b'.sizes.length := by
  obtain ⟨ext, exn, hc, hs, hext⟩ := j.lists
  have hlen : exn.length = ext.length := by
    rcases hext with ⟨rfl, rfl, -⟩ | ⟨c, rfl, rfl⟩
    · rfl
    · rfl
  rw [hc, hs]
  simp only [List.length_append]
  omega

/-- The read position is in a chunk of the result, and its offset too. -/
theorem Joined.rpos_placed (j : Joined b b' cs os ns ms) (h : b.Wf) (t : Trimmed b cs ns last)
    (hm : ms.length = os.length) (hpos : 0 < ms.getD 0 0) :
    b'.rpos.idx < b'.sizes.length ∧ b'.rpos.off ≤ b'.sizeAt b'.rpos.idx := by
  obtain ⟨-, hle⟩ := j.length (t.len h) hm
  have hms := length_pos_of_getD hpos
  have hri := h.ridx
  rw [j.rpos]
  by_cases hz : b'.sizeAt b.rpos.idx - b.rpos.off = 0
  · rw [if_pos hz]
    refine ⟨?_, Nat.zero_le _⟩
    show b.rpos.idx + 1 < b'.sizes.length
    rcases t.length h with ⟨-, hns⟩ | ⟨hns, hwo⟩
    · omega
    · rcases Nat.lt_or_eq_of_le hri with hlt | heq
      · omega
      · -- the chunk that was taken off is replaced by the first one of `other`
        have hro := h.roff
        rw [heq, h.woff, hwo] at hro
        rw [j.getD (by omega), heq, ← hns, getD_append_right] at hz
        omega
  · rw [if_neg hz]
    refine ⟨?_, by omega⟩
    by_contra hge
    rw [Buffer.sizeAt, List.getD_eq_getElem?_getD, List.getElem?_eq_none (Nat.le_of_not_lt hge)]
      at hz
    exact hz (Nat.zero_sub _)

theorem Joined.wf (j : Joined b b' cs os ns ms) (h : b.Wf) (ho : other.Wf)
    (t : Trimmed b cs ns last) (t' : Trimmed other os ms otherLast) (hpos : 0 < ms.getD 0 0) :
    b'.Wf := by
  obtain ⟨hlen, hle⟩ := j.length (t.len h) (t'.len ho)
  obtain ⟨hidx, hoff⟩ := j.rpos_placed h t (t'.len ho) hpos
  have hms := length_pos_of_getD hpos
  have hwi : b'.wpos.idx = b'.chunks.length - 1 := by rw [j.wpos]
  refine ⟨hlen, by omega, ?_, ?_, by omega, hoff⟩
  · rw [hwi, j.wpos, getLastD_eq, ← hlen]
    rfl
  · obtain ⟨ext, exn, -, hs, hext⟩ := j.lists
    intro n hmem
    rw [hs] at hmem
    rcases List.mem_append.mp hmem with hmem | hmem
    · rcases List.mem_append.mp hmem with hmem | hmem
      · exact t.bound h n hmem
      · exact t'.bound ho n hmem
    · rcases hext with ⟨-, rfl, -⟩ | ⟨c, -, rfl⟩
      · cases hmem
      · rw [List.mem_singleton.mp hmem]
        exact Nat.zero_le _

/-- Behind the chunks of `other` there is room. -/
theorem Joined.room (j : Joined b b' cs os ns ms) (h : b'.Wf) : 0 < b'.writeSize := by
  have hle := h.off_le
  obtain ⟨ext, exn, -, hs, hext⟩ := j.lists
  have hwo : b'.wpos.off = b'.sizes.getLastD 0 := by rw [j.wpos]
  have hB : 0 < BlockSize := by decide
  rw [hs] at hwo
  rw [writeSize]
  rcases hext with ⟨-, rfl, hne⟩ | ⟨c, -, rfl⟩
  · rw [List.append_nil] at hwo
    omega
  · rw [List.getLastD_concat] at hwo
    omega

/-- The cells of both, and perhaps an empty one. -/
theorem Joined.cells (j : Joined b b' cs os ns ms) (hn : ns.length = cs.length)
    (hm : ms.length = os.length) : ∃ e, (e = [] ∨ e = [[]])
      ∧ b'.cells = ((cs.zip ns).map fun p => p.1.slice 0 p.2)
        ++ ((os.zip ms).map fun p => p.1.slice 0 p.2) ++ e := by
  obtain ⟨ext, exn, hc, hs, hext⟩ := j.lists
  have hzip : (cs ++ os ++ ext).zip (ns ++ ms ++ exn) = cs.zip ns ++ os.zip ms ++ ext.zip exn := by
    rw [List.zip_append (by simp [hn, hm]), List.zip_append hn.symm]
  refine ⟨(ext.zip exn).map fun p => p.1.slice 0 p.2, ?_, ?_⟩
  · rcases hext with ⟨rfl, rfl, -⟩ | ⟨c, rfl, rfl⟩
    · exact .inl rfl
    · exact .inr rfl
  · rw [Buffer.cells, hc, hs, hzip, List.map_append, List.map_append]

theorem Joined.flatten (j : Joined b b' cs os ns ms) (h : b.Wf) (ho : other.Wf)
    (t : Trimmed b cs ns last) (t' : Trimmed other os ms otherLast) :
    b'.cells.flatten = b.cells.flatten ++ other.cells.flatten := by
  obtain ⟨e, he, hcells⟩ := j.cells (t.len h) (t'.len ho)
  have hnil : e.flatten = [] := by
    rcases he with rfl | rfl
    · rfl
    · rfl
  rw [hcells, List.flatten_append, List.flatten_append, hnil, List.append_nil, t.cells h,
    t'.cells ho]

theorem cells_ne_nil {cs : List Chunk} {ns : List ℕ} (h : ∀ n ∈ ns, 0 < n) :
    ∀ c ∈ (cs.zip ns).map fun p => p.1.slice 0 p.2, c ≠ [] := by
  intro c hmem
  obtain ⟨p, hp, rfl⟩ := List.mem_map.mp hmem
  exact List.ne_nil_of_length_pos (by simpa using h p.2 (List.of_mem_zip hp).2)

theorem Joined.inner (j : Joined b b' cs os ns ms) (h : b.Inv) (ho : other.Inv)
    (t : Trimmed b cs ns last) (t' : Trimmed other os ms otherLast) :
    ∀ c ∈ b'.cells.dropLast, c ≠ [] := by
  obtain ⟨e, he, hcells⟩ := j.cells (t.len h.wf) (t'.len ho.wf)
  have hboth : ∀ c ∈ ((cs.zip ns).map fun p => p.1.slice 0 p.2)
      ++ ((os.zip ms).map fun p => p.1.slice 0 p.2), c ≠ [] := by
    intro c hmem
    rcases List.mem_append.mp hmem with hmem | hmem
    · exact cells_ne_nil (t.pos h) c hmem
    · exact cells_ne_nil (t'.pos ho) c hmem
  intro c hmem
  rw [hcells] at hmem
  rcases he with rfl | rfl
  · rw [List.append_nil] at hmem
    exact hboth c (List.mem_of_mem_dropLast hmem)
  · rw [List.dropLast_concat] at hmem
    exact hboth c hmem

/-- The chunk under the read position is still there, with the same
number. -/
theorem Joined.sizeAt_rpos (j : Joined b b' cs os ns ms) (h : b.Wf) (t : Trimmed b cs ns last)
    (hpos : 0 < b.sizeAt b.rpos.idx) : b'.sizeAt b.rpos.idx = b.sizeAt b.rpos.idx := by
  obtain ⟨hidx, hat⟩ := t.sizeAt h hpos
  rw [j.getD (by omega), getD_append_left ms hidx, hat]

/-- A read position that was at the end of a chunk, and not at its
beginning, moves on. -/
theorem Joined.moved (j : Joined b b' cs os ns ms) (h : b.Wf) (t : Trimmed b cs ns last)
    (hz : b.readSize = 0) (hoff : b.rpos.off ≠ 0) : b'.rpos = ⟨b.rpos.idx + 1, 0⟩ := by
  have hro := h.roff
  rw [j.rpos, j.sizeAt_rpos h t (by omega)]
  exact if_pos hz

/-- Any other one stays, and there is something to read at it. -/
theorem Joined.stays (j : Joined b b' cs os ns ms) (h : b.Inv) (t : Trimmed b cs ns last)
    (hpos : 0 < ms.getD 0 0) (hgood : b.readSize = 0 → b.rpos.off = 0) :
    b'.rpos = b.rpos ∧ 0 < b'.readSize := by
  have hread : 0 < b'.sizeAt b.rpos.idx - b.rpos.off := by
    by_cases hz : b.readSize = 0
    · -- the only chunk is empty, and the first one of `other` takes its place
      have hoff := hgood hz
      have hw : b.wpos.idx = 0 := by
        by_contra hne
        have hsize := sizeAt_pos h.wf h.inner (Nat.pos_of_ne_zero hne)
        rw [readSize, h.first] at hz
        omega
      have hns : ns = [] := by
        cases t with
        | kept hne =>
            have heq := rpos_eq_wpos h.wf h.first hw hz
            exact absurd (heq ▸ hoff) hne
        | removed hc hn =>
            have hlen := h.wf.len
            have hwi := h.wf.widx
            rw [hn, List.length_append, List.length_singleton] at hlen
            exact List.length_eq_zero_iff.mp (by omega)
      have hms := length_pos_of_getD hpos
      rw [h.first, j.getD (by omega), hns, List.nil_append, hoff]
      exact hpos
    · have hsize : b.readSize = b.sizeAt b.rpos.idx - b.rpos.off := rfl
      rw [j.sizeAt_rpos h.wf t (by omega)]
      omega
  have hr : b'.rpos = b.rpos := by rw [j.rpos, if_neg (by omega)]
  refine ⟨hr, ?_⟩
  rw [readSize, hr]
  exact hread

/-- A buffer that was not read from begins with the chunk at its read
position. -/
theorem Trimmed.head (t : Trimmed b cs ns last) (h : b.Wf) (hc : b.isConsumed = false)
    (hz : b.readSize ≠ 0) : 0 < ns.getD 0 0 := by
  rw [isConsumed_eq_false] at hc
  have hsize : b.readSize = b.sizeAt b.rpos.idx - b.rpos.off := rfl
  obtain ⟨-, hat⟩ := t.sizeAt h (by omega)
  rw [hc.1] at hat hsize
  omega

end

/-! ## What appendFrom does -/

theorem appendFrom_of_consumed (b : Buffer) (hc : other.isConsumed = true) :
    b.appendFrom other = (b, other) := if_pos hc

theorem appendFrom_of_empty (b : Buffer) (hz : other.readSize = 0) :
    b.appendFrom other = (b, other) := by
  rw [appendFrom, if_pos hz, ite_self]

/-- The positions stay in range, and the read position is not moved back. -/
theorem appendFrom_wf (h : b.Wf) (ho : other.Wf) :
    (b.appendFrom other).1.Wf ∧ b.rpos.idx ≤ (b.appendFrom other).1.rpos.idx := by
  by_cases hc : other.isConsumed = true
  · rw [appendFrom_of_consumed b hc]
    exact ⟨h, Nat.le_refl _⟩
  · by_cases hz : other.readSize = 0
    · rw [appendFrom_of_empty b hz]
      exact ⟨h, Nat.le_refl _⟩
    · have hc := Bool.eq_false_iff.mpr hc
      obtain ⟨cs, ns, last, os, ms, otherLast, t, t', j⟩ := appendFrom_fst h ho hc hz
      refine ⟨j.wf h ho t t' (t'.head ho hc hz), ?_⟩
      rw [j.rpos]
      split
      · exact Nat.le_succ _
      · exact Nat.le_refl _

/-- Unless the read position has to leave its chunk the contents are
concatenated. -/
theorem appendFrom_spec (h : b.Inv) (ho : other.Inv) (hc : other.isConsumed = false)
    (hz : other.readSize ≠ 0) (hgood : b.readSize = 0 → b.rpos.off = 0) :
    (b.appendFrom other).1.Inv
      ∧ (b.appendFrom other).1.content = b.content ++ other.content
      ∧ (b.appendFrom other).1.Live ∧ 0 < (b.appendFrom other).1.writeSize := by
  obtain ⟨cs, ns, last, os, ms, otherLast, t, t', j⟩ := appendFrom_fst h.wf ho.wf hc hz
  have hpos := t'.head ho.wf hc hz
  have hwf := j.wf h.wf ho.wf t t' hpos
  obtain ⟨hr, hread⟩ := j.stays h t hpos hgood
  have hne : (b.appendFrom other).1.content ≠ [] :=
    List.ne_nil_of_length_pos (Nat.lt_of_lt_of_le hread (readSize_le hwf))
  refine ⟨⟨hwf, by rw [hr, h.first], j.inner h ho t t', fun hnil => absurd hnil hne⟩, ?_,
    fun hz => by omega, j.room hwf⟩
  rw [isConsumed_eq_false] at hc
  have hro := h.wf.roff_le
  rw [content_eq hwf, content_eq h.wf, content_eq ho.wf, hr, hc.1, hc.2]
  rw [h.first, List.drop_zero] at hro ⊢
  rw [List.drop_zero, List.drop_zero, List.drop_zero, j.flatten h.wf ho.wf t t',
    List.drop_append_of_le_length hro]

/-- Otherwise the chunk that was read to its end stays in front. -/
theorem appendFrom_rpos (h : b.Wf) (ho : other.Wf) (hc : other.isConsumed = false)
    (hz : other.readSize ≠ 0) (hread : b.readSize = 0) (hoff : b.rpos.off ≠ 0) :
    (b.appendFrom other).1.rpos = ⟨b.rpos.idx + 1, 0⟩ := by
  obtain ⟨cs, ns, last, os, ms, otherLast, t, -, j⟩ := appendFrom_fst h ho hc hz
  exact j.moved h t hread hoff

end

end Buffer

end HttpServer
