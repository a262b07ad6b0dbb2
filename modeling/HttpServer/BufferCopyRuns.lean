import Mathlib.Logic.Function.Basic
import HttpServer.BufferStall

/-!
# What `copyFrom` does to the two buffers

`copyFrom` between two of the buffers of a program, after any calls on
them: the content of the source is appended, the source is left alone, no
chunk is written past its end, and there is room behind the last byte.

`copyLoopLog` is the loop of `copyFrom` with a record of its `memcpy`
calls: how many bytes each copies, and the `writeSize()` it has for them.
-/

namespace HttpServer

namespace Buffer

/-- The loop of `copyFrom` and its calls of `memcpy`. -/
def copyLoopLog : List (Chunk × ℕ) → Bool → Buffer → Buffer × List (ℕ × ℕ)
  | [], _, b => (b, [])
  | (c, len) :: rest, first, b =>
      let b := if !first || len > b.writeSize then b.newChunk else b
      let (b', log) := copyLoopLog rest false ((b.store (c.slice 0 len)).grow len)
      (b', (len, b.writeSize) :: log)

theorem copyLoopLog_fst : ∀ (l : List (Chunk × ℕ)) (first : Bool) (b : Buffer),
    (copyLoopLog l first b).1 = copyLoop l first b
  | [], _, _ => rfl
  | (_, _) :: rest, _, _ => copyLoopLog_fst rest false _

/-- The calls of `memcpy` of `copyFrom`. -/
def memcpys (b other : Buffer) : List (ℕ × ℕ) :=
  if other.isConsumed then []
  else if other.readSize = 0 then []
  else (copyLoopLog (other.chunks.zip other.sizes) true b).2

/-- A chunk that does not fit opens a new one, which takes any chunk. -/
theorem copyLoopLog_fits : ∀ (l : List (Chunk × ℕ)) (first : Bool) (b : Buffer),
    (∀ p ∈ l, p.2 ≤ BlockSize) → ∀ p ∈ (copyLoopLog l first b).2, p.1 ≤ p.2
  | [], _, _, _, p, hp => by cases hp
  | (c, len) :: rest, first, b, hle, p, hp => by
      obtain ⟨hlen, hrest⟩ := List.forall_mem_cons.mp hle
      rcases List.mem_cons.mp hp with rfl | hp
      · simp only
        by_cases hnew : (!first || decide (len > b.writeSize)) = true
        · rw [if_pos hnew]
          exact hlen
        · rw [if_neg hnew]
          simp only [Bool.or_eq_true, decide_eq_true_eq, not_or] at hnew
          exact Nat.le_of_not_gt hnew.2
      · exact copyLoopLog_fits rest false _ hrest p hp

theorem memcpys_fit {b other : Buffer} (ho : other.Wf) : ∀ p ∈ memcpys b other, p.1 ≤ p.2 := by
  intro p hp
  rw [memcpys] at hp
  split at hp
  · cases hp
  · split at hp
    · cases hp
    · exact copyLoopLog_fits _ true b
        (fun q hq => ho.bound q.2 (List.of_mem_zip hq).2) p hp

/-- Behind what was copied there is room. -/
theorem copyFrom_room_of_ne_nil {b other : Buffer} (h : b.Inv) (ho : other.Inv)
    (hc : other.isConsumed = false) (hz : other.readSize ≠ 0) :
    0 < (b.copyFrom other).writeSize := by
  have hoff := (copyFrom_spec h ho hc).1.wf.off_le
  revert hoff
  unfold copyFrom
  rw [if_neg (by simp [hc]), if_neg hz]
  simp only
  split
  · exact fun _ => (by decide : 0 < BlockSize)
  · intro hoff
    unfold writeSize
    omega

/-- A buffer that was not read from has its first byte at the read
position. -/
theorem readSize_ne_zero {b : Buffer} (h : b.Inv) (hc : b.isConsumed = false)
    (hne : b.content ≠ []) : b.readSize ≠ 0 := by
  intro hz
  rw [isConsumed_eq_false] at hc
  refine hne ?_
  have hone : b.wpos.idx = 0 := by
    by_contra hw
    have hpos := sizeAt_pos h.wf h.inner (i := 0) (by omega)
    rw [readSize, hc.1, hc.2] at hz
    omega
  obtain ⟨c, -, hcont⟩ := content_last h.wf (h.first.trans hone.symm)
  rw [hcont, hz]
  rfl

theorem content_eq_nil {b : Buffer} (h : b.Inv) (hc : b.isConsumed = false)
    (hz : b.readSize = 0) : b.content = [] := by
  by_contra hne
  exact readSize_ne_zero h hc hne hz

/-! ## Two buffers of a program -/

/-- `bufs[i].copyFrom(&bufs[j])`. -/
def copyBetween (bufs : ℕ → Buffer) (i j : ℕ) : ℕ → Buffer :=
  Function.update bufs i ((bufs i).copyFrom (bufs j))

/-- `copyFrom` appends a copy and leaves its source as it is. -/
theorem copyFrom_appends {bufs : ℕ → Buffer} {i j : ℕ} (hij : i ≠ j) (h : Reached (bufs i))
    (ho : Reached (bufs j)) (hc : (bufs j).isConsumed = false) :
    (copyBetween bufs i j i).content = (bufs i).content ++ (bufs j).content
      ∧ (copyBetween bufs i j i).byteCount = (bufs i).byteCount + (bufs j).byteCount
      ∧ (∀ k ≠ i, copyBetween bufs i j k = bufs k)
      ∧ copyBetween bufs i j j = bufs j
      ∧ (∀ p ∈ memcpys (bufs i) (bufs j), p.1 ≤ p.2)
      ∧ ((bufs j).content ≠ [] →
          (copyBetween bufs i j i).wpos.idx + 1 = (copyBetween bufs i j i).numChunks
            ∧ 0 < (copyBetween bufs i j i).writeSize) := by
  obtain ⟨hinv, hcont, -⟩ := copyFrom_spec h.inv ho.inv hc
  have hself : copyBetween bufs i j i = (bufs i).copyFrom (bufs j) := Function.update_self ..
  have hother : ∀ k ≠ i, copyBetween bufs i j k = bufs k := fun k hk => Function.update_of_ne hk ..
  refine ⟨hself ▸ hcont, ?_, hother, hother j (Ne.symm hij), memcpys_fit ho.inv.wf,
    fun hne => ?_⟩
  · rw [hself, byteCount_eq hinv, byteCount_eq h.inv, byteCount_eq ho.inv, hcont,
      List.length_append]
  · rw [hself]
    exact ⟨hinv.wf.widx, copyFrom_room_of_ne_nil h.inv ho.inv hc (readSize_ne_zero ho.inv hc hne)⟩

theorem run_reached (heap : ℕ → ℕ → UInt8) (ops : List Op) : Reached (run heap ops) := by
  induction ops using List.reverseRecOn with
  | nil => exact .new heap
  | append_singleton ops op ih =>
      rw [run_append]
      exact .apply op ih

/-- A source of two chunks. -/
def copied : ℕ → Buffer
  | 0 => run (fun _ _ => 0) [.write [7]]
  | _ => run (fun _ _ => 0) [.write [1, 2], .reserve 4096, .write [3]]

theorem copied_appends : (copyBetween copied 0 1 0).content = [7] ++ [1, 2, 3] :=
  (copyFrom_appends (show (0 : ℕ) ≠ 1 by decide) (show Reached (copied 0) from run_reached ..)
    (show Reached (copied 1) from run_reached ..) rfl).1

end Buffer

end HttpServer
