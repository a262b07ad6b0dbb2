import HttpServer.BufferAppendRuns

/-!
# The source of appendFrom

`appendFrom` takes the chunks of its source away and leaves one empty chunk
there: a new one, or the one that was taken off before. In the first case
the source is as good as new, in the second its positions are still those
it had behind the chunks that are gone (`emptied_iff`).

Two buffers cannot be told apart by what they show if they differ in the
addresses of their chunks only, and will find the same bytes in the chunks
they allocate (`Alike`).
-/

namespace HttpServer

namespace Buffer

/-- All that a buffer shows but the addresses. -/
structure View where
  mems : List (ℕ → UInt8)
  sizes : List ℕ
  wpos : Position
  rpos : Position

def view (b : Buffer) : View := ⟨b.chunks.map Chunk.mem, b.sizes, b.wpos, b.rpos⟩

structure Alike (b b' : Buffer) : Prop where
  mems : b.chunks.map Chunk.mem = b'.chunks.map Chunk.mem
  sizes : b.sizes = b'.sizes
  wpos : b.wpos = b'.wpos
  rpos : b.rpos = b'.rpos
  fresh : ∀ i, b.heap (b.allocs + i) = b'.heap (b'.allocs + i)

theorem map_mem_modify {f : Chunk → Chunk} {g : (ℕ → UInt8) → ℕ → UInt8}
    (hf : ∀ c, (f c).mem = g c.mem) (cs : List Chunk) (i : ℕ) :
    (cs.modify i f).map Chunk.mem = (cs.map Chunk.mem).modify i g := by
  refine List.ext_getElem? fun k => ?_
  rw [List.getElem?_map, List.getElem?_modify, List.getElem?_modify, List.getElem?_map]
  cases cs[k]? with
  | none => rfl
  | some c =>
      by_cases hk : i = k
      · simp [hk, hf c]
      · simp [hk]

section

variable {b b' : Buffer}

theorem Alike.view (a : Alike b b') : b.view = b'.view := by
  unfold Buffer.view
  rw [a.mems, a.sizes, a.wpos, a.rpos]

theorem Alike.length (a : Alike b b') : b.chunks.length = b'.chunks.length := by
  have hlen := congrArg List.length a.mems
  rwa [List.length_map, List.length_map] at hlen

theorem Alike.sizeAt (a : Alike b b') (i : ℕ) : b.sizeAt i = b'.sizeAt i := by
  unfold Buffer.sizeAt
  rw [a.sizes]

theorem Alike.writeSize (a : Alike b b') : b.writeSize = b'.writeSize := by
  unfold Buffer.writeSize
  rw [a.wpos]

theorem Alike.readSize (a : Alike b b') : b.readSize = b'.readSize := by
  unfold Buffer.readSize
  rw [a.sizeAt, a.rpos]

/-! ## The primitives -/

theorem Alike.newChunk (a : Alike b b') : Alike b.newChunk b'.newChunk := by
  refine ⟨?_, ?_, ?_, a.rpos, fun i => ?_⟩
  · show (b.chunks ++ [_]).map Chunk.mem = (b'.chunks ++ [_]).map Chunk.mem
    rw [List.map_append, List.map_append, a.mems]
    exact congrArg (b'.chunks.map Chunk.mem ++ [·]) (a.fresh 0)
  · show b.sizes ++ [0] = b'.sizes ++ [0]
    rw [a.sizes]
  · show (⟨(b.chunks ++ [_]).length - 1, 0⟩ : Position) = ⟨(b'.chunks ++ [_]).length - 1, 0⟩
    rw [List.length_append, List.length_append, a.length]
    rfl
  · show b.heap (b.allocs + 1 + i) = b'.heap (b'.allocs + 1 + i)
    rw [Nat.add_assoc, Nat.add_assoc]
    exact a.fresh (1 + i)

theorem Alike.setRpos (a : Alike b b') (p : Position) : Alike (b.setRpos p) (b'.setRpos p) :=
  ⟨a.mems, a.sizes, a.wpos, rfl, a.fresh⟩

theorem Alike.dropChunks (a : Alike b b') (n : ℕ) : Alike (b.dropChunks n) (b'.dropChunks n) := by
  unfold Buffer.dropChunks
  split
  · exact a
  · refine ⟨?_, ?_, ?_, ?_, a.fresh⟩
    · simp only [List.map_drop, a.mems]
    · simp only [a.sizes]
    · simp only [a.wpos]
    · simp only [a.rpos]

theorem Alike.store (a : Alike b b') (data : List UInt8) :
    Alike (b.store data) (b'.store data) := by
  refine ⟨?_, a.sizes, a.wpos, a.rpos, a.fresh⟩
  have hmem : ∀ c : Chunk, (c.store b'.wpos.off data).mem
      = fun i => if b'.wpos.off ≤ i then data.getD (i - b'.wpos.off) (c.mem i) else c.mem i :=
    fun _ => rfl
  simp only [Buffer.store, a.wpos]
  rw [map_mem_modify (g := fun m i =>
      if b'.wpos.off ≤ i then data.getD (i - b'.wpos.off) (m i) else m i) hmem,
    map_mem_modify (g := fun m i =>
      if b'.wpos.off ≤ i then data.getD (i - b'.wpos.off) (m i) else m i) hmem, a.mems]

theorem Alike.grow (a : Alike b b') (n : ℕ) : Alike (b.grow n) (b'.grow n) := by
  refine ⟨a.mems, ?_, ?_, a.rpos, a.fresh⟩
  · simp only [Buffer.grow, a.sizes, a.wpos]
  · simp only [Buffer.grow, a.wpos]

/-! ## The calls -/

theorem Alike.reserve (a : Alike b b') (n : ℕ) :
    Alike (b.reserve n).1 (b'.reserve n).1 ∧ (b.reserve n).2 = (b'.reserve n).2 := by
  simp only [Buffer.reserve, a.wpos, a.rpos]
  split
  · exact ⟨a, rfl⟩
  · split
    · exact ⟨a, rfl⟩
    · refine ⟨?_, rfl⟩
      split
      · rw [a.newChunk.wpos]
        exact (a.newChunk.setRpos _).dropChunks 1
      · exact a.newChunk

theorem Alike.advance (a : Alike b b') (n : ℕ) :
    Alike (b.advance n).1 (b'.advance n).1 ∧ (b.advance n).2 = (b'.advance n).2 := by
  simp only [Buffer.advance, a.writeSize]
  split
  · exact ⟨a, rfl⟩
  · split
    · exact ⟨a.grow n, rfl⟩
    · exact ⟨a, rfl⟩

theorem Alike.writeRound (a : Alike b b') (data : List UInt8) :
    Alike (b.writeRound data).1 (b'.writeRound data).1
      ∧ (b.writeRound data).2 = (b'.writeRound data).2 := by
  simp only [Buffer.writeRound, a.writeSize]
  have hput := (a.store (data.take (min b'.writeSize data.length))).grow
    (min b'.writeSize data.length)
  rw [hput.wpos]
  refine ⟨?_, trivial⟩
  split
  · exact hput.newChunk
  · exact hput

theorem Alike.writeLoop : ∀ (fuel : ℕ) {b b' : Buffer} (data : List UInt8), Alike b b' →
    Alike (writeLoop fuel b data) (writeLoop fuel b' data)
  | 0, _, _, _, a => a
  | fuel + 1, b, b', data, a => by
      rw [writeLoop_succ, writeLoop_succ]
      obtain ⟨hround, hrest⟩ := a.writeRound data
      split
      · rw [hrest]
        exact Alike.writeLoop fuel _ hround
      · exact a

theorem Alike.consumeLoop : ∀ (fuel : ℕ) {b b' : Buffer} (n d : ℕ), Alike b b' →
    Alike (consumeLoop fuel b n d).1 (consumeLoop fuel b' n d).1
      ∧ (consumeLoop fuel b n d).2 = (consumeLoop fuel b' n d).2
  | 0, _, _, _, _, a => ⟨a, rfl⟩
  | fuel + 1, b, b', n, d, a => by
      simp only [Buffer.consumeLoop, a.wpos, a.rpos, a.readSize]
      have hskip := a.setRpos ⟨b'.rpos.idx, b'.rpos.off + min n b'.readSize⟩
      rw [hskip.readSize, hskip.rpos]
      split
      · split
        · exact Alike.consumeLoop fuel _ _ (hskip.setRpos _)
        · exact Alike.consumeLoop fuel _ _ hskip
      · exact ⟨a, rfl⟩

theorem Alike.consume (a : Alike b b') (n : ℕ) : Alike (b.consume n) (b'.consume n) := by
  obtain ⟨hloop, hrest⟩ := Alike.consumeLoop (b'.wpos.idx - b'.rpos.idx + 1) n 0 a
  simp only [Buffer.consume, a.wpos, a.rpos]
  generalize Buffer.consumeLoop (b'.wpos.idx - b'.rpos.idx + 1) b n 0 = r at *
  generalize Buffer.consumeLoop (b'.wpos.idx - b'.rpos.idx + 1) b' n 0 = r' at *
  obtain ⟨b₁, m, d⟩ := r
  obtain ⟨b₁', m', d'⟩ := r'
  obtain ⟨rfl, rfl⟩ := Prod.mk.inj hrest
  replace hloop : Alike b₁ b₁' := hloop
  simp only [hloop.rpos, hloop.readSize]
  split
  · exact (hloop.setRpos _).dropChunks _
  · exact hloop.dropChunks _

theorem Alike.apply (a : Alike b b') (op : Op) : Alike (b.apply op) (b'.apply op) := by
  cases op with
  | reserve n => exact (a.reserve n).1
  | store data =>
      simp only [Buffer.apply, a.writeSize]
      split
      · exact a.store data
      · exact a
  | advance n => exact (a.advance n).1
  | write data => exact Alike.writeLoop _ data a
  | consume n => exact a.consume n

theorem Alike.copyLoop : ∀ (l : List (Chunk × ℕ)) (first : Bool) {b b' : Buffer}, Alike b b' →
    Alike (copyLoop l first b) (copyLoop l first b')
  | [], _, _, _, a => a
  | (c, len) :: rest, first, b, b', a => by
      simp only [Buffer.copyLoop, a.writeSize]
      split
      · exact Alike.copyLoop rest false ((a.newChunk.store _).grow len)
      · exact Alike.copyLoop rest false ((a.store _).grow len)

theorem Alike.copyFrom (a : Alike b b') (other : Buffer) :
    Alike (b.copyFrom other) (b'.copyFrom other) := by
  unfold Buffer.copyFrom
  have hloop := Alike.copyLoop (other.chunks.zip other.sizes) true a
  simp only [hloop.wpos]
  split
  · exact a
  · split
    · exact a
    · split
      · exact hloop.newChunk
      · exact hloop

theorem Alike.maybeRemoveLastChunk (a : Alike b b') :
    Alike b.maybeRemoveLastChunk.1 b'.maybeRemoveLastChunk.1
      ∧ b.maybeRemoveLastChunk.2.map Chunk.mem = b'.maybeRemoveLastChunk.2.map Chunk.mem := by
  simp only [Buffer.maybeRemoveLastChunk, a.wpos, a.sizeAt]
  split
  · refine ⟨⟨?_, ?_, rfl, a.rpos, a.fresh⟩, ?_⟩
    · simp only [List.map_dropLast, a.mems]
    · simp only [a.sizes]
    · simp only [← List.getElem?_map, a.mems]
  · exact ⟨a, rfl⟩

theorem Alike.pushChunks (a : Alike b b') (other : Buffer) {last last' : Option Chunk}
    (hlast : last.map Chunk.mem = last'.map Chunk.mem) :
    Alike (b.pushChunks other last) (b'.pushChunks other last') := by
  have hpush : Alike { b with chunks := b.chunks ++ other.chunks, sizes := b.sizes ++ other.sizes }
      { b' with chunks := b'.chunks ++ other.chunks, sizes := b'.sizes ++ other.sizes } := by
    refine ⟨?_, ?_, a.wpos, a.rpos, a.fresh⟩
    · simp only [List.map_append, a.mems]
    · simp only [a.sizes]
  simp only [Buffer.pushChunks, a.sizes] at hpush ⊢
  split
  · cases last with
    | none =>
        cases last' with
        | none =>
            have hnew := hpush.newChunk
            exact ⟨hnew.mems, hnew.sizes, a.wpos, a.rpos, hnew.fresh⟩
        | some c' => cases hlast
    | some c =>
        cases last' with
        | none => cases hlast
        | some c' =>
            refine ⟨?_, rfl, a.wpos, a.rpos, a.fresh⟩
            simp only [List.map_append, a.mems, List.map_cons, List.map_nil]
            exact congrArg (b'.chunks.map Chunk.mem ++ other.chunks.map Chunk.mem ++ [·])
              (Option.some.inj hlast)
  · exact hpush

theorem Alike.adjust (a : Alike b b') : Alike b.adjust b'.adjust := by
  obtain ⟨hc, hs, hw, hr⟩ := adjust_spec b
  obtain ⟨hc', hs', hw', hr'⟩ := adjust_spec b'
  have hheap : b.adjust.heap = b.heap ∧ b.adjust.allocs = b.allocs := by
    unfold Buffer.adjust
    split <;> exact ⟨rfl, rfl⟩
  have hheap' : b'.adjust.heap = b'.heap ∧ b'.adjust.allocs = b'.allocs := by
    unfold Buffer.adjust
    split <;> exact ⟨rfl, rfl⟩
  refine ⟨?_, ?_, ?_, ?_, fun i => ?_⟩
  · rw [hc, hc', a.mems]
  · rw [hs, hs', a.sizes]
  · rw [hw, hw', a.length, a.sizes]
  · rw [hr, hr', a.readSize, a.rpos]
  · rw [hheap.1, hheap.2, hheap'.1, hheap'.2]
    exact a.fresh i

theorem Alike.appendFrom (a : Alike b b') (other : Buffer) :
    Alike (b.appendFrom other).1 (b'.appendFrom other).1 := by
  obtain ⟨hrest, hlast⟩ := a.maybeRemoveLastChunk
  simp only [Buffer.appendFrom]
  split
  · exact a
  · split
    · exact a
    · exact (hrest.pushChunks _ hlast).adjust

/-! ## What a buffer returns and shows -/

/-- A buffer that another one is copied or appended from. -/
structure Operand where
  buf : Buffer
  wf : buf.Wf

/-- The member functions that change a buffer. -/
inductive Member where
  | op (op : Op)
  | copyFrom (other : Operand)
  | appendFrom (other : Operand)

def member (b : Buffer) : Member → Buffer
  | .op op => b.apply op
  | .copyFrom other => b.copyFrom other.buf
  | .appendFrom other => (b.appendFrom other.buf).1

/-- What they return. -/
def returns (b : Buffer) : Member → Option Bool
  | .op (.reserve n) => some (b.reserve n).2
  | .op (.advance n) => some (b.advance n).2
  | _ => none

/-- Every value that is returned, and what the buffer shows then. -/
def trace : Buffer → List Member → List (Option Bool × View)
  | _, [] => []
  | b, m :: ms => (b.returns m, (b.member m).view) :: trace (b.member m) ms

theorem Alike.member (a : Alike b b') (m : Member) : Alike (b.member m) (b'.member m) := by
  cases m with
  | op op => exact a.apply op
  | copyFrom other => exact a.copyFrom other.buf
  | appendFrom other => exact a.appendFrom other.buf

theorem Alike.returns (a : Alike b b') (m : Member) : b.returns m = b'.returns m := by
  cases m with
  | op op =>
      cases op with
      | reserve n => exact congrArg some (a.reserve n).2
      | advance n => exact congrArg some (a.advance n).2
      | store | write | consume => rfl
  | copyFrom | appendFrom => rfl

theorem Alike.trace : ∀ (ms : List Member) {b b' : Buffer}, Alike b b' → b.trace ms = b'.trace ms
  | [], _, _, _ => rfl
  | m :: ms, b, b', a => by
      rw [Buffer.trace, Buffer.trace, a.returns m, (a.member m).view,
        Alike.trace ms (a.member m)]

theorem member_wf (h : b.Wf) (m : Member) : (b.member m).Wf := by
  cases m with
  | op op => exact (apply_placed h op).wf
  | copyFrom other => exact (copyFrom_placed h other.wf).wf
  | appendFrom other => exact (appendFrom_wf h other.wf).1

theorem foldl_member_wf : ∀ (ms : List Member) {b : Buffer}, b.Wf → (ms.foldl member b).Wf
  | [], _, h => h
  | m :: ms, _, h => foldl_member_wf ms (member_wf h m)

/-! ## As good as new -/

/-- One empty chunk with both positions at its first byte, and no call can
tell the buffer from a new one, or get out of the range of its chunks. -/
structure Fresh (b : Buffer) : Prop where
  one : b.numChunks = 1
  sizes : b.sizes = [0]
  wpos : b.wpos = ⟨0, 0⟩
  rpos : b.rpos = ⟨0, 0⟩
  same : ∃ heap, b.view = (new heap).view ∧ ∀ ms, b.trace ms = (new heap).trace ms
  range : ∀ ms : List Member, (ms.foldl member b).InRange

/-- A new buffer whose first chunk is found as `m`, and the others as those
of `b` will be. -/
theorem alike_new {c : Chunk} (hc : b.chunks = [c]) (hs : b.sizes = [0]) (hw : b.wpos = ⟨0, 0⟩)
    (hr : b.rpos = ⟨0, 0⟩) : ∃ heap, Alike b (new heap) := by
  refine ⟨fun i => if i = 0 then c.mem else b.heap (b.allocs + (i - 1)), ?_, hs, hw, hr,
    fun i => ?_⟩
  · rw [hc]
    rfl
  · show b.heap (b.allocs + i) = if 1 + i = 0 then c.mem else b.heap (b.allocs + (1 + i - 1))
    rw [if_neg (by omega), Nat.add_sub_cancel_left]

theorem Fresh.of_wpos (h : b.Wf) (hw : b.wpos = ⟨0, 0⟩) (hr : b.rpos = ⟨0, 0⟩) : b.Fresh := by
  obtain ⟨cs, c, ns, hc, hn, hcl, hnl⟩ := h.last
  rw [hw] at hcl hnl hn
  obtain rfl := List.length_eq_zero_iff.mp hcl
  obtain rfl := List.length_eq_zero_iff.mp hnl
  rw [List.nil_append] at hc hn
  obtain ⟨heap, a⟩ := alike_new hc hn hw hr
  exact ⟨by rw [numChunks, hc]; rfl, hn, hw, hr, ⟨heap, a.view, fun ms => a.trace ms⟩,
    fun ms => (foldl_member_wf ms h).inRange⟩

theorem foldl_rpos_off : ∀ (ops : List Op) {b : Buffer}, (∀ op ∈ ops, op.kind ≠ .consume) →
    b.rpos.off = 0 → (ops.foldl apply b).rpos.off = 0
  | [], _, _, h => h
  | op :: ops, b, hk, h => by
      obtain ⟨hop, hops⟩ := List.forall_mem_cons.mp hk
      exact foldl_rpos_off ops hops (apply_rpos_off hop h)

end

/-- What `appendFrom` leaves of a buffer that was only filled is as good as
new exactly when there was nothing to take, or something in the last chunk. -/
theorem emptied_iff (b : Buffer) (heap : ℕ → ℕ → UInt8) {ops : List Op}
    (hk : ∀ op ∈ ops, op.kind ≠ .consume) :
    (b.appendFrom (run heap ops)).2.Fresh
      ↔ (run heap ops).content = [] ∨ (run heap ops).sizeAt (run heap ops).wpos.idx ≠ 0 := by
  have hinv := run_inv heap ops
  have hoff : (run heap ops).rpos.off = 0 := foldl_rpos_off ops hk rfl
  generalize run heap ops = other at *
  have hc : other.isConsumed = false := isConsumed_eq_false.mpr ⟨hinv.first, hoff⟩
  have hr : other.rpos = ⟨0, 0⟩ := by
    rw [Position.mk.injEq other.rpos.idx other.rpos.off 0 0]
    exact ⟨hinv.first, hoff⟩
  by_cases hnil : other.content = []
  · refine iff_of_true ?_ (.inl hnil)
    have hz := readSize_of_nil hinv.wf hnil
    have hw := hinv.widx_of_nil hnil
    rw [appendFrom_of_empty b hz]
    exact .of_wpos hinv.wf (rpos_eq_wpos hinv.wf hinv.first hw hz ▸ hr) hr
  · have hz := readSize_ne_zero hinv hc hnil
    obtain ⟨os, ms, otherLast, t, heq⟩ := appendFrom_snd b hinv.wf hc hz
    rw [heq, hinv.wf.woff]
    cases otherLast with
    | none =>
        refine iff_of_true (.of_wpos (restart_none_inv other).wf rfl rfl) (.inr ?_)
        cases t with
        | kept hw => exact hw
    | some c =>
        have hbr := restart_some_broken hinv.wf hc hz t
        refine iff_of_false (fun hf => hbr.ridx (hf.rpos ▸ rfl)) ?_
        rintro (h | h)
        · exact hnil h
        · rcases t.length hinv.wf with ⟨hnone, -⟩ | ⟨-, hw⟩
          · cases hnone
          · exact h hw

theorem oneByte_emptied :
    ((new fun _ _ => 0).appendFrom (run (fun _ _ => 0) [.write [1]])).2.Fresh :=
  (emptied_iff _ _ (by decide)).mpr (.inr (by decide))

/-- Three bytes, and a chunk that was reserved behind them. -/
def reservedBehind : List Op := [.write [1, 2, 3], .reserve 4096]

/-- The write position stays behind the one chunk that is left. -/
theorem reserved_not_fresh : ¬ ∀ (b : Buffer) (heap : ℕ → ℕ → UInt8) (ops : List Op),
    b.Wf → (∀ op ∈ ops, op.kind ≠ .consume) → (b.appendFrom (run heap ops)).2.Fresh := by
  intro hall
  have hf := hall (new fun _ _ => 0) (fun _ _ => 0) reservedBehind (new_inv _).1.wf (by decide)
  have hw := hf.wpos
  revert hw
  decide

end Buffer

end HttpServer
