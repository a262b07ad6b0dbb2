import Mathlib.Algebra.BigOperators.Group.Finset.Basic
import Mathlib.Data.Nat.Find
import HttpServer.FileCachePins

/-!
# Loading a file

The loop of `FileCache::pin` that reads a file into a new buffer. It calls
`reserve` and `writePtr()` in every round and `advance` only once, after
the last one. So every `read` goes to the start of the first chunk, and
the size asked for is a whole chunk each time, whatever is left to read.

A file that comes in one `read` is loaded, a file that comes in several
is not (`loads_iff`). The loop ends exactly when what the reads deliver
adds up to `st_size`, or one of them fails before (`loadEnds_iff`).
-/

namespace HttpServer

namespace FileCache

open Buffer

/-! ## The buffer in the loop -/

/-- The loop leaves the write position at the start of the chunk, where
`reserve` always finds room. -/
theorem reserve_start {b : Buffer} (hb : b.wpos.off = 0) : (b.reserve BlockSize).1 = b := by
  rw [reserve, if_neg (Nat.lt_irrefl _), if_pos (by rw [hb]; exact Nat.le_refl _)]

theorem foldl_store_wpos (reads : List (List UInt8)) (b : Buffer) :
    (reads.foldl store b).wpos = b.wpos := by
  induction reads generalizing b with
  | nil => rfl
  | cons bytes reads ih => exact ih (b.store bytes)

/-- Every read is stored in the same place. -/
theorem readLoop_store : ∀ {reads : List (List UInt8)} {toRead : ℕ} {b b' : Buffer},
    b.wpos.off = 0 → readLoop reads toRead b = some b' → b' = reads.foldl store b := by
  intro reads
  induction reads with
  | nil =>
      intro toRead b b' _ he
      rw [readLoop] at he
      split at he
      · exact (Option.some.inj he).symm
      · cases he
  | cons bytes reads ih =>
      intro toRead b b' hb he
      rw [readLoop] at he
      simp only [reserve_start hb] at he
      split at he
      · exact ih hb he
      · cases he

theorem foldl_store_spec : ∀ (reads : List (List UInt8)) {b : Buffer}, b.Inv →
    (reads.foldl store b).Inv ∧ (reads.foldl store b).content = b.content
  | [], _, h => ⟨h, rfl⟩
  | bytes :: reads, b, h => by
      obtain ⟨hinv, hcont, -⟩ := store_spec h bytes
      obtain ⟨hinv', hcont'⟩ := foldl_store_spec reads hinv
      exact ⟨hinv', hcont'.trans hcont⟩

theorem store_memAt (b : Buffer) {bytes : List UInt8} {i : ℕ} (hi : bytes.length ≤ i) :
    (b.store bytes).memAt b.wpos.idx (b.wpos.off + i) = b.memAt b.wpos.idx (b.wpos.off + i) := by
  rw [memAt, memAt, store]
  simp only [List.getElem?_modify, if_true]
  cases b.chunks[b.wpos.idx]? with
  | none => rfl
  | some c =>
      show (c.store b.wpos.off bytes).mem _ = _
      simp only [Chunk.store, Nat.le_add_right, if_true, Nat.add_sub_cancel_left]
      rw [List.getD_eq_getElem?_getD, List.getElem?_eq_none hi]
      rfl

/-- Behind the longest read the memory is as it was. -/
theorem foldl_store_memAt {i : ℕ} : ∀ (reads : List (List UInt8)) (b : Buffer),
    (∀ bytes ∈ reads, bytes.length ≤ i) →
    (reads.foldl store b).memAt b.wpos.idx (b.wpos.off + i) = b.memAt b.wpos.idx (b.wpos.off + i)
  | [], _, _ => rfl
  | bytes :: reads, b, h => by
      obtain ⟨hi, hreads⟩ := List.forall_mem_cons.mp h
      exact (foldl_store_memAt reads (b.store bytes) hreads).trans (store_memAt b hi)

/-- What a load leaves is what was stored, cut to `st_size` bytes if they
fit in a chunk. -/
theorem load_eq {stSize : ℕ} {heap : ℕ → ℕ → UInt8} {reads : List (List UInt8)} {buf : Buffer}
    (h : load stSize heap reads = some buf) :
    buf = ((reads.foldl store (new heap)).advance stSize).1 := by
  obtain ⟨b, hb, rfl⟩ := Option.map_eq_some_iff.mp h
  rw [readLoop_store rfl hb]

/-! ## The content that is loaded -/

/-- `read` delivers the file `f` in the pieces `reads`. -/
structure Delivers (f : List UInt8) (reads : List (List UInt8)) : Prop where
  piece : ∀ bytes ∈ reads, bytes ≠ [] ∧ bytes.length ≤ BlockSize
  all : reads.flatten = f

/-- Whatever the memory holds, the load of `f` in the pieces `reads` ends
with `f` in the buffer, and a pin that succeeds with it returns a buffer
of as many bytes. -/
def Loads (f : List UInt8) (reads : List (List UInt8)) : Prop :=
  ∀ heap, ∃ buf, load f.length heap reads = some buf ∧ buf.content = f
    ∧ ∀ (n : ℕ) (s s₁ s₂ : State) (t : Tid) (file : String) (a : ℕ), s.pc t = .miss file →
        step n s (.load t f.length heap reads) = some s₁ → step n s₁ (.tick t) = some s₂ →
        s₂.pc t = .countPin (some a) → (s₂.node a).buf.byteCount = f.length

theorem insertNode_buf {s : State} {t : Tid} {file : String} {buf : Buffer} {a : ℕ}
    (h : (s.insertNode t file buf).pc t = .countPin (some a)) :
    ((s.insertNode t file buf).node a).buf = buf := by
  rw [State.insertNode] at h ⊢
  simp only at h ⊢
  split at h
  · obtain rfl : s.allocs = a := by simpa [State.goto] using h
    simp [State.goto, State.setNode]
  · simp [State.goto] at h

/-- A pin that succeeds after a load returns the buffer it loaded. -/
theorem insertFile_buf {s : State} {t : Tid} {file : String} {stSize : ℕ} {buf : Buffer} {a : ℕ}
    (hpc : s.pc t = .insert file stSize buf)
    (h : (s.insertFile t file stSize buf).pc t = .countPin (some a)) :
    ((s.insertFile t file stSize buf).node a).buf = buf := by
  rw [State.insertFile] at h ⊢
  split
  · rename_i hfree
    rw [if_pos hfree] at h
    exact insertNode_buf h
  · rename_i hfree
    rw [if_neg hfree] at h
    split
    · rename_i hev
      rw [if_pos hev] at h
      cases he : s.evict stSize with
      | none =>
          rw [he] at h
          rw [show State.pc { s with fault := true } t = s.pc t from rfl, hpc] at h
          cases h
      | some e =>
          rw [he] at h
          simp only at h ⊢
          split
          · rename_i hroom
            rw [if_pos hroom] at h
            exact insertNode_buf h
          · rename_i hroom
            rw [if_neg hroom] at h
            simp [State.goto] at h
    · rename_i hev
      rw [if_neg hev] at h
      simp [State.goto] at h

/-- The two steps of a pin that has missed. -/
theorem pin_byteCount {n : ℕ} {s s₁ s₂ : State} {t : Tid} {file : String} {stSize a : ℕ}
    {heap : ℕ → ℕ → UInt8} {reads : List (List UInt8)} {buf : Buffer}
    (hbuf : load stSize heap reads = some buf) (hcount : buf.byteCount = stSize)
    (hpc : s.pc t = .miss file) (h₁ : step n s (.load t stSize heap reads) = some s₁)
    (h₂ : step n s₁ (.tick t) = some s₂) (ha : s₂.pc t = .countPin (some a)) :
    (s₂.node a).buf.byteCount = stSize := by
  simp only [step, hpc, hbuf, Option.map_some] at h₁
  obtain rfl := Option.some.inj h₁
  have hins : (s.goto t (.insert file stSize buf)).pc t = .insert file stSize buf :=
    Function.update_self ..
  simp only [step, tick, hins] at h₂
  split at h₂
  · cases h₂
  · obtain rfl := Option.some.inj h₂
    rw [insertFile_buf hins ha, hcount]

/-- A file of at most a block that one `read` delivers. -/
theorem loads_one {f : List UInt8} {reads : List (List UInt8)} (h : Delivers f reads)
    (hlen : f.length ≤ BlockSize) (hone : reads.length ≤ 1) : Loads f reads := by
  intro heap
  obtain ⟨hnew, hnil⟩ := new_inv heap
  obtain ⟨buf, hbuf, hinv, hcont⟩ : ∃ buf, load f.length heap reads = some buf ∧ buf.Inv
      ∧ buf.content = f := by
    have hall := h.all
    match reads, hone with
    | [], _ =>
        subst hall
        exact ⟨new heap, rfl, hnew, hnil⟩
    | [bytes], _ =>
        have hne := (h.piece bytes (List.mem_cons_self ..)).1
        rw [List.flatten_singleton] at hall
        subst hall
        have hpos : 0 < bytes.length := List.length_pos_iff.mpr hne
        obtain ⟨hs, hsc, hsp⟩ := store_spec hnew bytes
        obtain ⟨hadv, hiff, happ, -⟩ := advance_spec hs bytes.length
        refine ⟨(((new heap).store bytes).advance bytes.length).1, ?_, hadv, ?_⟩
        · have hwrap : (bytes.length + (2 ^ 64 - bytes.length)) % 2 ^ 64 = 0 := by
            have hblock : BlockSize = 4096 := rfl
            omega
          simp only [load, readLoop, reserve_start (show (new heap).wpos.off = 0 from rfl), hwrap]
          rw [if_pos ⟨hpos, hlen⟩, if_pos trivial]
          rfl
        · rw [happ (hiff.mpr ⟨hpos, hlen⟩), hsc, hnil, List.nil_append, hsp]
  refine ⟨buf, hbuf, hcont, fun n s s₁ s₂ t file a hpc h₁ h₂ ha => ?_⟩
  refine pin_byteCount hbuf ?_ hpc h₁ h₂ ha
  rw [byteCount_eq hinv, hcont]

/-- One of several pieces is shorter than the whole. -/
theorem piece_lt {reads : List (List UInt8)} (hne : ∀ bytes ∈ reads, bytes ≠ [])
    (htwo : 1 < reads.length) {bytes : List UInt8} (hmem : bytes ∈ reads) :
    bytes.length < reads.flatten.length := by
  obtain ⟨l₁, l₂, rfl⟩ := List.append_of_mem hmem
  obtain ⟨other, hother⟩ : ∃ other, other ∈ l₁ ++ l₂ := by
    refine List.exists_mem_of_length_pos ?_
    simp only [List.length_append, List.length_cons] at htwo ⊢
    omega
  have hpos : 0 < other.length := by
    refine List.length_pos_iff.mpr (hne other ?_)
    rcases List.mem_append.mp hother with hl | hr
    · exact List.mem_append_left _ hl
    · exact List.mem_append_right _ (List.mem_cons_of_mem _ hr)
  have hle : other.length ≤ (l₁ ++ l₂).flatten.length :=
    (List.sublist_flatten_of_mem hother).length_le
  rw [List.flatten_append, List.length_append] at hle
  rw [List.flatten_append, List.flatten_cons, List.length_append, List.length_append]
  omega

/-- What is longer than a block stays empty: the one `advance` fails. -/
theorem length_le_of_loads {f : List UInt8} {reads : List (List UInt8)} (h : Loads f reads) :
    f.length ≤ BlockSize := by
  obtain ⟨buf, hbuf, hcont, -⟩ := h fun _ _ => 0
  obtain ⟨hinv, hnil⟩ := foldl_store_spec reads (new_inv fun _ _ => 0).1
  obtain ⟨-, hiff, -, hfail⟩ := advance_spec hinv f.length
  by_contra hlong
  have hws : (reads.foldl store (new fun _ _ => 0)).writeSize = BlockSize := by
    rw [writeSize, foldl_store_wpos]
    rfl
  have hno : ((reads.foldl store (new fun _ _ => 0)).advance f.length).2 = false := by
    refine Bool.eq_false_iff.mpr fun ht => ?_
    have := (hiff.mp ht).2
    omega
  rw [load_eq hbuf, hfail hno, hnil, (new_inv fun _ _ => 0).2] at hcont
  rw [← hcont] at hlong
  exact hlong (Nat.zero_le _)

/-- With several pieces the last byte is never written, and is what the
memory held. -/
theorem last_byte {f : List UInt8} {reads : List (List UInt8)} (hd : Delivers f reads)
    (h : Loads f reads) (htwo : 1 < reads.length) (x : UInt8) : f[f.length - 1]? = some x := by
  have hlong : f.length ≤ BlockSize := length_le_of_loads h
  obtain ⟨buf, hbuf, hcont, -⟩ := h fun _ _ => x
  obtain ⟨hinv, hnil⟩ := foldl_store_spec reads (new_inv fun _ _ => x).1
  obtain ⟨-, hiff, happ, -⟩ := advance_spec hinv f.length
  have hshort : ∀ bytes ∈ reads, bytes.length ≤ f.length - 1 := fun bytes hmem => by
    have hlt := piece_lt (fun r hr => (hd.piece r hr).1) htwo hmem
    rw [hd.all] at hlt
    omega
  have hpos : 0 < f.length := by
    obtain ⟨bytes, hmem⟩ := List.exists_mem_of_length_pos (Nat.zero_lt_of_lt htwo)
    have hlt := piece_lt (fun r hr => (hd.piece r hr).1) htwo hmem
    rw [hd.all] at hlt
    omega
  have hws : (reads.foldl store (new fun _ _ => x)).writeSize = BlockSize := by
    rw [writeSize, foldl_store_wpos]
    rfl
  rw [load_eq hbuf, happ (hiff.mpr ⟨hpos, by omega⟩), hnil, (new_inv fun _ _ => x).2,
    List.nil_append] at hcont
  have hmem := foldl_store_memAt reads (new fun _ _ => x) hshort
  rw [← foldl_store_wpos reads] at hmem
  rw [← congrArg (·[f.length - 1]?) hcont, atWritePtr, List.getElem?_map,
    List.getElem?_range (by omega), Option.map_some, hmem, foldl_store_wpos]
  rfl

/-- The load of a file is right exactly when the file fits in a block and
comes in one piece. -/
theorem loads_iff {f : List UInt8} {reads : List (List UInt8)} (h : Delivers f reads) :
    Loads f reads ↔ f.length ≤ BlockSize ∧ reads.length ≤ 1 := by
  constructor
  · intro hl
    refine ⟨length_le_of_loads hl, ?_⟩
    by_contra htwo
    have h₀ := last_byte h hl (Nat.lt_of_not_le htwo) 0
    have h₁ := last_byte h hl (Nat.lt_of_not_le htwo) 1
    rw [h₀] at h₁
    cases h₁
  · rintro ⟨hlen, hone⟩
    exact loads_one h hlen hone

theorem loads_short : Loads [1, 2, 3] [[1, 2, 3]] :=
  (loads_iff (show Delivers [1, 2, 3] [[1, 2, 3]] from ⟨by decide, by decide⟩)).mpr
    ⟨by decide, by decide⟩

/-- A file in two reads. -/
theorem delivers_two {n m : ℕ} (hn : 0 < n) (hnb : n ≤ BlockSize) (hm : 0 < m)
    (hmb : m ≤ BlockSize) :
    Delivers (List.replicate (n + m) 0) [List.replicate n 0, List.replicate m 0] := by
  refine ⟨fun bytes hmem => ?_, ?_⟩
  · simp only [List.mem_cons, List.not_mem_nil, or_false] at hmem
    rcases hmem with rfl | rfl
    · exact ⟨List.ne_nil_of_length_pos (by rwa [List.length_replicate]),
        by rwa [List.length_replicate]⟩
    · exact ⟨List.ne_nil_of_length_pos (by rwa [List.length_replicate]),
        by rwa [List.length_replicate]⟩
  · rw [List.flatten_cons, List.flatten_singleton, List.replicate_append_replicate]

/-- A file of a block and one byte. -/
theorem longFile_not_loaded :
    ¬∀ (f : List UInt8) (reads : List (List UInt8)), Delivers f reads → Loads f reads := by
  intro hall
  have hd := delivers_two (n := BlockSize) (m := 1) (by decide) (Nat.le_refl _) (by decide)
    (by decide)
  have hle := length_le_of_loads (hall _ _ hd)
  rw [List.length_replicate] at hle
  exact Nat.not_succ_le_self _ hle

/-! ## The end of the loop -/

/-- The loop after some rounds. -/
inductive Loop where
  | run (toRead : ℕ) (b : Buffer)
  /-- A `read` has failed. -/
  | failed

/-- One round with what its `read` returns; `none` is -1. It does nothing
once the loop has ended. -/
def Loop.round (result : Option (List UInt8)) : Loop → Loop
  | .run toRead b =>
      if toRead > 0 then
        let b := (b.reserve BlockSize).1
        match result with
        | none => .failed
        | some bytes => .run ((toRead + (2 ^ 64 - bytes.length)) % 2 ^ 64) (b.store bytes)
      else .run toRead b
  | .failed => .failed

/-- The loop after `k` rounds. -/
def Loop.after (s : Loop) (results : ℕ → Option (List UInt8)) : ℕ → Loop
  | 0 => s
  | k + 1 => (after s results k).round (results k)

/-- `while (to_read > 0)` is left. -/
def Loop.ended : Loop → Prop
  | .run toRead _ => toRead = 0
  | .failed => True

/-- What the first `k` reads deliver. -/
def delivered (results : ℕ → Option (List UInt8)) (k : ℕ) : ℕ :=
  ∑ i ∈ Finset.range k, ((results i).getD []).length

/-- What `read` may return: -1, or at most the size asked for, and nothing
more behind the end of the file. -/
structure Allowed (results : ℕ → Option (List UInt8)) : Prop where
  bound : ∀ k bytes, results k = some bytes → bytes.length ≤ BlockSize
  eof : ∀ k, results k = some [] → ∀ j ≥ k, results j = some []

/-- The loop of a load with these results ends, and `to_read` never wraps. -/
structure LoadEnds (stSize : ℕ) (heap : ℕ → ℕ → UInt8) (results : ℕ → Option (List UInt8)) :
    Prop where
  ends : ∃ m, ((Loop.run stSize (new heap)).after results m).ended
  nowrap : ∀ k toRead b bytes, (Loop.run stSize (new heap)).after results k = .run toRead b →
    0 < toRead → results k = some bytes → bytes.length ≤ toRead

section

variable {stSize : ℕ} {heap : ℕ → ℕ → UInt8} {results : ℕ → Option (List UInt8)} {s : Loop}

theorem after_succ' (s : Loop) (results : ℕ → Option (List UInt8)) (k : ℕ) :
    s.after results (k + 1) = (s.round (results 0)).after (fun i => results (i + 1)) k := by
  induction k with
  | zero => rfl
  | succ k ih => rw [Loop.after, ih, Loop.after]

/-- `readLoop` is this loop with a list of results that ends it. -/
theorem after_of_readLoop : ∀ {reads : List (List UInt8)} {toRead : ℕ} {b b' : Buffer}
    {results : ℕ → Option (List UInt8)}, readLoop reads toRead b = some b' →
    (∀ i, ∀ h : i < reads.length, results i = some reads[i]) →
    (Loop.run toRead b).after results reads.length = .run 0 b' := by
  intro reads
  induction reads with
  | nil =>
      intro toRead b b' results he _
      rw [readLoop] at he
      split at he
      · rename_i h0
        rw [h0, ← Option.some.inj he]
        rfl
      · cases he
  | cons bytes reads ih =>
      intro toRead b b' results he hres
      simp only [readLoop] at he
      split at he
      · rename_i hpos
        have h0 : results 0 = some bytes := hres 0 (Nat.succ_pos _)
        rw [List.length_cons, after_succ', h0]
        simp only [Loop.round, if_pos hpos.1]
        exact ih he fun i hi => hres (i + 1) (Nat.succ_lt_succ hi)
      · cases he

theorem delivered_succ (results : ℕ → Option (List UInt8)) (k : ℕ) :
    delivered results (k + 1) = delivered results k + ((results k).getD []).length :=
  Finset.sum_range_succ ..

theorem delivered_mono {results : ℕ → Option (List UInt8)} {i k : ℕ} (h : i ≤ k) :
    delivered results i ≤ delivered results k := by
  induction k, h using Nat.le_induction with
  | base => exact Nat.le_refl _
  | succ k _ ih =>
      rw [delivered_succ]
      exact ih.trans (Nat.le_add_right ..)

variable (heap) in
/-- As long as no read fails and they deliver no more than `st_size`, the
loop counts what is left. -/
theorem after_eq (hst : stSize < 2 ^ 63) (k : ℕ) (hsome : ∀ i < k, results i ≠ none) :
    delivered results k ≤ stSize →
    ∃ b, (Loop.run stSize (new heap)).after results k = .run (stSize - delivered results k) b := by
  induction k with
  | zero => exact fun _ => ⟨new heap, rfl⟩
  | succ k ih =>
      intro hle
      rw [delivered_succ] at hle
      obtain ⟨b, hb⟩ := ih (fun i hi => hsome i (Nat.lt_succ_of_lt hi))
        ((Nat.le_add_right ..).trans hle)
      obtain ⟨bytes, hbytes⟩ := Option.ne_none_iff_exists'.mp (hsome k (Nat.lt_succ_self k))
      rw [hbytes, Option.getD_some] at hle
      rw [Loop.after, hb, delivered_succ, hbytes, Option.getD_some]
      by_cases hpos : stSize - delivered results k > 0
      · have hcount : (stSize - delivered results k + (2 ^ 64 - bytes.length)) % 2 ^ 64
            = stSize - (delivered results k + bytes.length) := by
          omega
        simp only [Loop.round, if_pos hpos, hcount]
        exact ⟨_, rfl⟩
      · have hz : stSize - (delivered results k + bytes.length) = stSize - delivered results k := by
          omega
        simp only [Loop.round, if_neg hpos, hz]
        exact ⟨_, rfl⟩

theorem round_of_ended {result : Option (List UInt8)} (h : s.ended) : s.round result = s := by
  cases s with
  | failed => rfl
  | run toRead b =>
      have h0 : toRead = 0 := h
      rw [h0]
      rfl

/-- What has ended stays as it is. -/
theorem after_of_ended {m k : ℕ} (hmk : m ≤ k) (h : (s.after results m).ended) :
    s.after results k = s.after results m := by
  induction k, hmk using Nat.le_induction with
  | base => rfl
  | succ k _ ih => rw [Loop.after, ih, round_of_ended h]

/-- The reads deliver `st_size` bytes, or fewer before one fails. -/
def Complete (stSize : ℕ) (results : ℕ → Option (List UInt8)) : Prop :=
  ∃ m, (∀ i < m, results i ≠ none) ∧ (delivered results m = stSize
    ∨ (delivered results m < stSize ∧ results m = none))

theorem complete_loadEnds (hst : stSize < 2 ^ 63) (h : Complete stSize results) :
    LoadEnds stSize heap results := by
  obtain ⟨m, hsome, hm⟩ := h
  have hle : delivered results m ≤ stSize := by
    rcases hm with heq | ⟨hlt, -⟩
    · exact Nat.le_of_eq heq
    · exact Nat.le_of_lt hlt
  obtain ⟨bm, hbm⟩ := after_eq heap hst m hsome hle
  -- before round `m` every read fits in what is left
  have hbefore : ∀ k < m, ∀ toRead b bytes,
      (Loop.run stSize (new heap)).after results k = .run toRead b → results k = some bytes →
      bytes.length ≤ toRead := by
    intro k hk toRead b bytes hrun hres
    have hmono : delivered results (k + 1) ≤ stSize :=
      (delivered_mono (Nat.succ_le_of_lt hk)).trans hle
    obtain ⟨b', hb'⟩ := after_eq heap hst k (fun i hi => hsome i (hi.trans hk))
      ((delivered_mono (Nat.le_of_lt hk)).trans hle)
    obtain ⟨rfl, -⟩ := Loop.run.inj (hb'.symm.trans hrun)
    rw [delivered_succ, hres, Option.getD_some] at hmono
    omega
  rcases hm with heq | ⟨hlt, hfail⟩
  · have hend : ((Loop.run stSize (new heap)).after results m).ended := by
      rw [hbm, heq, Nat.sub_self]
      rfl
    refine ⟨⟨m, hend⟩, fun k toRead b bytes hrun hpos hres => ?_⟩
    rcases Nat.lt_or_ge k m with hk | hk
    · exact hbefore k hk toRead b bytes hrun hres
    · rw [after_of_ended hk hend, hbm, heq, Nat.sub_self] at hrun
      obtain ⟨rfl, -⟩ := Loop.run.inj hrun
      cases hpos
  · have hend : (Loop.run stSize (new heap)).after results (m + 1) = .failed := by
      rw [Loop.after, hbm, hfail]
      exact if_pos (Nat.sub_pos_of_lt hlt)
    refine ⟨⟨m + 1, by rw [hend]; trivial⟩, fun k toRead b bytes hrun hpos hres => ?_⟩
    rcases Nat.lt_trichotomy k m with hk | rfl | hk
    · exact hbefore k hk toRead b bytes hrun hres
    · rw [hfail] at hres
      cases hres
    · rw [after_of_ended hk (by rw [hend]; trivial), hend] at hrun
      cases hrun

/-- A read in a loop that ends fits in what is left. -/
theorem LoadEnds.next (hst : stSize < 2 ^ 63) (h : LoadEnds stSize heap results) {k : ℕ}
    (hsome : ∀ i < k, results i ≠ none) (hlt : delivered results k < stSize)
    {bytes : List UInt8} (hres : results k = some bytes) :
    (∀ i < k + 1, results i ≠ none) ∧ delivered results (k + 1) ≤ stSize := by
  obtain ⟨b, hb⟩ := after_eq heap hst k hsome (Nat.le_of_lt hlt)
  have hfit := h.nowrap k _ b bytes hb (Nat.sub_pos_of_lt hlt) hres
  refine ⟨fun i hi => ?_, ?_⟩
  · rcases Nat.lt_succ_iff_lt_or_eq.mp hi with hi | rfl
    · exact hsome i hi
    · rw [hres]
      exact Option.some_ne_none _
  · rw [delivered_succ, hres, Option.getD_some]
    omega

/-- Until the loop has ended no read has failed, and they have delivered
less than `st_size`. -/
theorem LoadEnds.running (hst : stSize < 2 ^ 63) (h : LoadEnds stSize heap results) (k : ℕ) :
    ¬((Loop.run stSize (new heap)).after results k).ended →
    (∀ i < k, results i ≠ none) ∧ delivered results k < stSize := by
  induction k with
  | zero => exact fun hrun => ⟨fun i hi => absurd hi (Nat.not_lt_zero i), Nat.pos_of_ne_zero hrun⟩
  | succ k ih =>
      intro hrun
      have hprev : ¬((Loop.run stSize (new heap)).after results k).ended := fun hend => by
        rw [after_of_ended (Nat.le_succ k) hend] at hrun
        exact hrun hend
      obtain ⟨hsome, hlt⟩ := ih hprev
      cases hres : results k with
      | none =>
          obtain ⟨b, hb⟩ := after_eq heap hst k hsome (Nat.le_of_lt hlt)
          rw [Loop.after, hb, hres] at hrun
          simp [Loop.round, Nat.sub_pos_of_lt hlt, Loop.ended] at hrun
      | some bytes =>
          obtain ⟨hsome', hle⟩ := h.next hst hsome hlt hres
          obtain ⟨b, hb⟩ := after_eq heap hst (k + 1) hsome' hle
          rw [hb] at hrun
          have hne : stSize - delivered results (k + 1) ≠ 0 := hrun
          exact ⟨hsome', by omega⟩

theorem LoadEnds.complete (hst : stSize < 2 ^ 63) (h : LoadEnds stSize heap results) :
    Complete stSize results := by
  classical
  have hm := Nat.find_spec h.ends
  have hmin := fun k hk => Nat.find_min h.ends (m := k) hk
  generalize Nat.find h.ends = m at hm hmin
  cases m with
  | zero =>
      have h0 : stSize = 0 := hm
      exact ⟨0, fun i hi => absurd hi (Nat.not_lt_zero i), .inl h0.symm⟩
  | succ k =>
      obtain ⟨hsome, hlt⟩ := h.running hst k (hmin k (Nat.lt_succ_self k))
      cases hres : results k with
      | none => exact ⟨k, hsome, .inr ⟨hlt, hres⟩⟩
      | some bytes =>
          obtain ⟨hsome', hle⟩ := h.next hst hsome hlt hres
          obtain ⟨b, hb⟩ := after_eq heap hst (k + 1) hsome' hle
          rw [hb] at hm
          have h0 : stSize - delivered results (k + 1) = 0 := hm
          exact ⟨k + 1, hsome', .inl (by omega)⟩

/-- The loop ends, without a wrap, exactly when the reads deliver
`st_size` bytes, or one of them fails before they have. -/
theorem loadEnds_iff (hst : stSize < 2 ^ 63) :
    LoadEnds stSize heap results ↔ Complete stSize results :=
  ⟨fun h => h.complete hst, complete_loadEnds hst⟩

end

/-- A `read` of one byte, and the end of the file. -/
def oneByte (k : ℕ) : Option (List UInt8) := if k = 0 then some [7] else some []

theorem oneByte_ends : LoadEnds 1 (fun _ _ => 0) oneByte :=
  (loadEnds_iff (by decide)).mpr ⟨1, by decide, .inl rfl⟩

/-- A file that had one byte and is empty by the time it is read. -/
theorem truncated_not_ends : ¬∀ (stSize : ℕ) (heap : ℕ → ℕ → UInt8)
    (results : ℕ → Option (List UInt8)), stSize < 2 ^ 63 → Allowed results →
    LoadEnds stSize heap results := by
  intro hall
  have heof : Allowed fun _ => some [] := by
    refine ⟨fun k bytes h => ?_, fun _ _ _ _ => rfl⟩
    rw [← Option.some.inj h]
    exact Nat.zero_le _
  obtain ⟨m, -, hm | ⟨-, hm⟩⟩ :=
    (hall 1 (fun _ _ => 0) (fun _ => some []) (by decide) heof).complete (by decide)
  · have hzero : delivered (fun _ => some []) m = 0 := Finset.sum_eq_zero fun _ _ => rfl
    rw [hzero] at hm
    cases hm
  · cases hm

end FileCache

end HttpServer
