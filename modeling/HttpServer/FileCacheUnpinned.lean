import HttpServer.FileCacheEvict
import Mathlib.Algebra.Order.BigOperators.Group.List

/-!
# The counter of unpinned bytes

`bytes_unpinned_files_` should be the sum of `byteCount()` over the
cached files with a pin count of 0. `unpin` adds to it every time and
not only with the last pin, the hit path does not take a file off it
that is pinned again, and the eviction loop does not take off what it
evicts (`drifts`). A run keeps the counter exact exactly as long as it
takes no such step (`counter_exact_iff`).
-/

namespace HttpServer

namespace FileCache

open ShortestPrefix

variable {n : ℕ} {s s' : State} {l : Act} {stSize : ℕ}

/-! ## The sum -/

/-- What a node counts for in the sum. -/
def unpinnedWeight (x : Node) : ℕ := if x.countUnpin = 0 then x.buf.byteCount else 0

theorem unpinnedBytes_eq_sumNodes (s : State) :
    s.unpinnedBytes = sumNodes unpinnedWeight s.node s.cacheMap := by
  unfold State.unpinnedBytes sumNodes unpinnedWeight
  induction s.cacheMap.entries with
  | nil => rfl
  | cons e es ih =>
      by_cases hcount : (s.node e.2).countUnpin = 0
      · simp [hcount, ih]
      · simp [hcount, ih]

/-- The nodes in the map count as before. -/
theorem unpinnedBytes_congr (hmap : s'.cacheMap = s.cacheMap)
    (hnode : ∀ f a, s.cacheMap.lookup f = some a →
      unpinnedWeight (s'.node a) = unpinnedWeight (s.node a)) :
    s'.unpinnedBytes = s.unpinnedBytes := by
  rw [unpinnedBytes_eq_sumNodes, unpinnedBytes_eq_sumNodes, hmap]
  exact sumNodes_congr hnode

theorem unpinnedBytes_le_used (s : State) : s.unpinnedBytes ≤ usedBytes s.node s.cacheMap := by
  rw [unpinnedBytes_eq_sumNodes]
  refine List.sum_le_sum fun e _ => ?_
  unfold unpinnedWeight
  split
  · exact Nat.le_refl _
  · exact Nat.zero_le _

/-- A node in the map that is changed. -/
theorem unpinnedBytes_setNode (hA : Acct s) {f : String} {a : ℕ}
    (ha : s.cacheMap.lookup f = some a) (x : Node) :
    (s.setNode a x).unpinnedBytes + unpinnedWeight (s.node a)
      = s.unpinnedBytes + unpinnedWeight x := by
  have hrest : sumNodes unpinnedWeight (s.setNode a x).node (s.cacheMap.erase f)
      = sumNodes unpinnedWeight s.node (s.cacheMap.erase f) := by
    refine sumNodes_congr fun g b hb => ?_
    by_cases hg : g = f
    · rw [hg, AList.lookup_erase] at hb
      cases hb
    · rw [AList.lookup_erase_ne hg] at hb
      have hne : b ≠ a := by
        rintro rfl
        exact hg ((hA.node g b hb).2.symm.trans (hA.node f b ha).2)
      rw [setNode_of_ne _ _ hne]
  have hnew := sumNodes_erase unpinnedWeight (s.setNode a x).node ha
  have hold := sumNodes_erase unpinnedWeight s.node ha
  rw [setNode_same, hrest] at hnew
  rw [unpinnedBytes_eq_sumNodes, unpinnedBytes_eq_sumNodes,
    show (s.setNode a x).cacheMap = s.cacheMap from rfl]
  omega

theorem unpinnedBytes_insertNode (hA : Acct s) (t : Tid) (file : String) (buf : Buffer) :
    (s.insertNode t file buf).unpinnedBytes = s.unpinnedBytes := by
  have hnode : ∀ a < s.allocs, (s.setNode s.allocs ⟨file, buf, 1⟩).node a = s.node a := fun a ha =>
    setNode_of_ne _ _ (Nat.ne_of_lt ha)
  have hsame : sumNodes unpinnedWeight (s.setNode s.allocs ⟨file, buf, 1⟩).node s.cacheMap
      = sumNodes unpinnedWeight s.node s.cacheMap :=
    sumNodes_congr fun f a ha => congrArg unpinnedWeight (hnode a (hA.node f a ha).1)
  rw [unpinnedBytes_eq_sumNodes, unpinnedBytes_eq_sumNodes, ← hsame]
  cases hfile : s.cacheMap.lookup file with
  | none =>
      rw [insertNode_of_none t buf hfile]
      show sumNodes unpinnedWeight (s.setNode s.allocs ⟨file, buf, 1⟩).node
        (s.cacheMap.insert file s.allocs) = _
      rw [sumNodes_insert unpinnedWeight hfile, setNode_same]
      exact Nat.zero_add _
  | some a => rw [insertNode_of_some t buf hfile]; rfl

/-- Erasing files takes off what their nodes count for. -/
theorem sumNodes_foldl_erase {w : Node → ℕ} {node : ℕ → Node} {size : String → ℕ} :
    ∀ (out : List String) (m : CacheMap), out.Nodup →
      (∀ f ∈ out, ∃ a, m.lookup f = some a ∧ w (node a) = size f) →
      sumNodes w node (out.foldl (fun m f => m.erase f) m) + total size out = sumNodes w node m
  | [], m, _, _ => rfl
  | f :: out, m, hnd, hw => by
      obtain ⟨hf, hnd⟩ := List.nodup_cons.mp hnd
      obtain ⟨⟨a, ha, hsize⟩, hw⟩ := List.forall_mem_cons.mp hw
      have ih := sumNodes_foldl_erase out (m.erase f) hnd fun g hg => by
        have hne : g ≠ f := fun heq => hf (heq ▸ hg)
        rw [AList.lookup_erase_ne hne]
        exact hw g hg
      rw [List.foldl_cons, total_cons, sumNodes_erase w node ha, hsize, ← ih]
      omega

/-- What is evicted no longer counts. -/
theorem unpinnedBytes_evicted (hA : Acct s) (stSize : ℕ) :
    (s.evicted stSize).unpinnedBytes + total s.sizeOf (s.victims stSize) = s.unpinnedBytes := by
  have hnd : (s.victims stSize).Nodup :=
    (hA.nodup.filter _).sublist (victims_prefix_unpinned s stSize).sublist
  rw [unpinnedBytes_eq_sumNodes, unpinnedBytes_eq_sumNodes]
  refine sumNodes_foldl_erase _ _ hnd fun f hf => ?_
  obtain ⟨-, a, ha, hcount⟩ := mem_unpinned.mp ((victims_prefix_unpinned s stSize).subset hf)
  refine ⟨a, ha, ?_⟩
  show unpinnedWeight (s.node a) = sizeIn s.node s.cacheMap f
  unfold unpinnedWeight sizeIn
  rw [if_pos hcount, ha]

/-! ## What an exact counter gives -/

/-- The counter is exact, and so `pin` can rely on it. -/
structure CounterExact (s : State) : Prop where
  exact : s.bytesUnpinnedFiles = s.unpinnedBytes
  range : 0 ≤ s.bytesUnpinnedFiles ∧ s.bytesUnpinnedFiles ≤ s.cacheSize
  noOverflow : int32 (s.freeSpace + s.bytesUnpinnedFiles) = s.freeSpace + s.bytesUnpinnedFiles
  /-- The early test refuses a request that no evictions can meet. -/
  refuses : ∀ stSize : ℕ, s.freeSpace < stSize → (s.evicts stSize = false
    ↔ ∀ out, out.Sublist s.unpinned → s.freeSpace + total s.sizeOf out < stSize)

theorem unpinnedBytes_le (hA : Acct s) : s.unpinnedBytes ≤ s.bytesUsed := by
  rw [hA.used]
  exact Int.ofNat_le.mpr (unpinnedBytes_le_used s)

theorem counterExact_of_eq (hA : Acct s) (hint : s.cacheSize < 2 ^ 31)
    (h : s.bytesUnpinnedFiles = s.unpinnedBytes) : CounterExact s := by
  have hle := unpinnedBytes_le hA
  have hmax := hA.le
  have hno : int32 (s.freeSpace + s.bytesUnpinnedFiles) = s.freeSpace + s.bytesUnpinnedFiles := by
    refine int32_of_range ?_ ?_
    · unfold State.freeSpace
      omega
    · unfold State.freeSpace
      omega
  refine ⟨h, ⟨by omega, by omega⟩, hno, fun stSize hfree => ?_⟩
  rw [evicts_eq_false_iff hfree, hno, h, hA.unpinnedBytes_eq]
  refine ⟨fun hlt out hout => ?_, fun hall => hall _ (List.Sublist.refl _)⟩
  have hle : total s.sizeOf out ≤ total s.sizeOf s.unpinned := total_le_of_sublist hout
  omega

/-! ## Steps -/

/-- The steps that should change the counter and do not, or the other way
round: a pin of a cached file whose pin count is 0 or, as an `int` that
has wrapped, becomes 0; a section that gets to the eviction loop; an
`unpin` that is not the last one. -/
def drifts (s : State) : Act → Bool
  | .tick t =>
      match s.pc t with
      | .hit a =>
          s.cacheMap.lookup (s.node a).fileName = some a
            && ((s.node a).countUnpin = 0 || (s.node a).countUnpin = -1)
            && 0 < (s.node a).buf.byteCount
      | .insert _ stSize _ => s.evicts stSize
      | _ => false
  | .unpin (some h) =>
      match s.cacheMap.lookup (s.node h).fileName with
      | some a => 1 < (s.node a).countUnpin && 0 < (s.node a).buf.byteCount
      | none => false
  | _ => false

/-- The pin counts of the cached files are in the range of an `int`. -/
def CountsInt (s : State) : Prop :=
  ∀ f a, s.cacheMap.lookup f = some a →
    -2 ^ 31 ≤ (s.node a).countUnpin ∧ (s.node a).countUnpin < 2 ^ 31

theorem CountsInt.insertNode (h : CountsInt s) (hA : Acct s) (t : Tid) (file : String)
    (buf : Buffer) : CountsInt (s.insertNode t file buf) := by
  intro f a ha
  cases hfile : s.cacheMap.lookup file with
  | none =>
      rw [insertNode_of_none t buf hfile] at ha ⊢
      have ha : (s.cacheMap.insert file s.allocs).lookup f = some a := ha
      show -2 ^ 31 ≤ ((s.setNode s.allocs ⟨file, buf, 1⟩).node a).countUnpin
        ∧ ((s.setNode s.allocs ⟨file, buf, 1⟩).node a).countUnpin < 2 ^ 31
      by_cases hf : f = file
      · rw [hf, AList.lookup_insert] at ha
        rw [← Option.some.inj ha, setNode_same]
        exact ⟨show (-2 ^ 31 : ℤ) ≤ 1 by decide, show (1 : ℤ) < 2 ^ 31 by decide⟩
      · rw [AList.lookup_insert_ne hf] at ha
        rw [setNode_of_ne _ _ (Nat.ne_of_lt (hA.node f a ha).1)]
        exact h f a ha
  | some b =>
      rw [insertNode_of_some t buf hfile] at ha ⊢
      show -2 ^ 31 ≤ ((s.setNode s.allocs ⟨file, buf, 1⟩).node a).countUnpin
        ∧ ((s.setNode s.allocs ⟨file, buf, 1⟩).node a).countUnpin < 2 ^ 31
      rw [setNode_of_ne _ _ (Nat.ne_of_lt (hA.node f a ha).1)]
      exact h f a ha

theorem CountsInt.room {s₁ : State} (h : CountsInt s) (hA : Acct s)
    (hr : Room s stSize s₁) : CountsInt s₁ := by
  cases hr with
  | enough _ => exact h
  | none _ => exact h
  | evict e hev he =>
      have hspec := hA.evictSpec he
      exact fun f a ha => h f a (hspec.lookup_of_some ha)

/-- A cached node whose count stays in the range. -/
theorem CountsInt.setNode (h : CountsInt s) {b : ℕ} {x : Node}
    (hx : -2 ^ 31 ≤ (s.node b).countUnpin ∧ (s.node b).countUnpin < 2 ^ 31 →
      -2 ^ 31 ≤ x.countUnpin ∧ x.countUnpin < 2 ^ 31) : CountsInt (s.setNode b x) := by
  intro f a ha
  by_cases hab : a = b
  · rw [hab, setNode_same]
    exact hx (h f b (hab ▸ ha))
  · rw [setNode_of_ne _ _ hab]
    exact h f a ha

theorem CountsInt.move (h : CountsInt s) (hA : Acct s) (hm : Move n s l s') : CountsInt s' := by
  cases hm with
  | @raise t a hpc =>
      have hset := h.setNode (b := a)
        (x := { s.node a with countUnpin := int32 ((s.node a).countUnpin + 1) })
        fun _ => int32_range _
      exact hset
  | insert hpc hroom hfree => exact (h.room hA hroom).insertNode (hA.room hroom) _ _ _
  | fail hpc hroom =>
      have h₁ := h.room hA hroom
      exact h₁
  | unpin x ha =>
      cases x with
      | none => exact h
      | some b =>
          obtain ⟨a, -, hpos, heq⟩ | ⟨e, -, heq⟩ := unpin_cases s b
          · rw [heq]
            have hset := h.setNode (b := a)
              (x := { s.node a with countUnpin := (s.node a).countUnpin - 1 })
              fun hx => ⟨show _ ≤ (s.node a).countUnpin - 1 by omega,
                show (s.node a).countUnpin - 1 < _ by omega⟩
            exact hset
          · rw [heq]
            exact h
  | _ => exact h

/-! ### The counter after a step -/

/-- The counter is the sum. -/
abbrev Exact (s : State) : Prop := s.bytesUnpinnedFiles = s.unpinnedBytes

/-- A count becomes 0 when it is raised from -1. -/
theorem int32_succ_eq_zero {c : ℤ} (h : -2 ^ 31 ≤ c ∧ c < 2 ^ 31) :
    int32 (c + 1) = 0 ↔ c = -1 := by
  rcases eq_or_ne c (2 ^ 31 - 1) with rfl | hne
  · decide
  · rw [int32_of_range (by omega) (by omega)]
    omega

/-- Raising a pin count takes the file out of the sum, or puts it in. -/
theorem raise_exact_iff (hA : Acct s) (hC : CountsInt s) (hex : Exact s) {a : ℕ} {x : Node}
    (hbuf : x.buf = (s.node a).buf) (hx : x.countUnpin = int32 ((s.node a).countUnpin + 1)) :
    Exact (s.setNode a x) ↔ ¬(s.cacheMap.lookup (s.node a).fileName = some a
      ∧ ((s.node a).countUnpin = 0 ∨ (s.node a).countUnpin = -1)
      ∧ 0 < (s.node a).buf.byteCount) := by
  have hgoal : Exact (s.setNode a x) ↔ s.unpinnedBytes = (s.setNode a x).unpinnedBytes := by
    rw [← Int.natCast_inj, ← hex]
    rfl
  rw [hgoal]
  by_cases hin : s.cacheMap.lookup (s.node a).fileName = some a
  · have hset := unpinnedBytes_setNode hA hin x
    have hzero := int32_succ_eq_zero (hC _ a hin)
    by_cases hcount : (s.node a).countUnpin = 0
    · have hold : unpinnedWeight (s.node a) = (s.node a).buf.byteCount := if_pos hcount
      have hnew : unpinnedWeight x = 0 := if_neg (by rw [hx, hzero]; omega)
      simp only [hin, hcount, true_or, true_and]
      omega
    · have hold : unpinnedWeight (s.node a) = 0 := if_neg hcount
      by_cases hwrapped : (s.node a).countUnpin = -1
      · have hnew : unpinnedWeight x = (s.node a).buf.byteCount := by
          unfold unpinnedWeight
          rw [if_pos (by rw [hx, hzero]; exact hwrapped), hbuf]
        simp only [hin, hwrapped, or_true, true_and]
        omega
      · have hnew : unpinnedWeight x = 0 := if_neg (by rw [hx, hzero]; exact hwrapped)
        simp only [hcount, hwrapped, or_self, false_and, and_false, not_false_eq_true, iff_true]
        omega
  · have hsame : (s.setNode a x).unpinnedBytes = s.unpinnedBytes := by
      refine unpinnedBytes_congr rfl fun f b hb => ?_
      have hne : b ≠ a := by
        rintro rfl
        exact hin ((hA.node f b hb).2.symm ▸ hb)
      rw [setNode_of_ne _ _ hne]
    simp [hin, hsame]

/-- Lowering a pin count puts the file into the sum when it reaches 0. -/
theorem lower_exact_iff (hA : Acct s) (hint : s.cacheSize < 2 ^ 31) (hex : Exact s) {f : String}
    {a : ℕ} (ha : s.cacheMap.lookup f = some a) (hpos : (s.node a).countUnpin > 0) {x : Node}
    (hbuf : x.buf = (s.node a).buf) (hx : x.countUnpin = (s.node a).countUnpin - 1) :
    int32 (s.bytesUnpinnedFiles + (s.node a).buf.byteCount) = (s.setNode a x).unpinnedBytes
      ↔ ¬(1 < (s.node a).countUnpin ∧ 0 < (s.node a).buf.byteCount) := by
  have hset := unpinnedBytes_setNode hA ha x
  have hold : unpinnedWeight (s.node a) = 0 := if_neg (by omega)
  -- the file is not in the sum yet, and with it the sum is still within the cache
  have hle : s.unpinnedBytes + (s.node a).buf.byteCount ≤ s.cacheSize := by
    have hzero := unpinnedBytes_setNode hA ha ⟨f, (s.node a).buf, 0⟩
    have hweight : unpinnedWeight ⟨f, (s.node a).buf, 0⟩ = (s.node a).buf.byteCount := if_pos rfl
    have hacct : usedBytes (s.setNode a ⟨f, (s.node a).buf, 0⟩).node s.cacheMap
        = usedBytes s.node s.cacheMap :=
      usedBytes_congr fun g b _ => setNode_keeps Node.buf s (by rfl) b
    have hused : (s.setNode a ⟨f, (s.node a).buf, 0⟩).unpinnedBytes
        ≤ usedBytes (s.setNode a ⟨f, (s.node a).buf, 0⟩).node s.cacheMap := unpinnedBytes_le_used _
    have hmax := hA.le
    rw [hA.used] at hmax
    omega
  rw [int32_of_range (by rw [hex]; omega) (by rw [hex]; omega), hex]
  by_cases hone : (s.node a).countUnpin = 1
  · have hnew : unpinnedWeight x = (s.node a).buf.byteCount := by
      unfold unpinnedWeight
      rw [if_pos (by omega), hbuf]
    simp only [hone, lt_irrefl, false_and, not_false_eq_true, iff_true]
    omega
  · have hnew : unpinnedWeight x = 0 := if_neg (by omega)
    have hlt : 1 < (s.node a).countUnpin := by omega
    simp only [hlt, true_and, not_lt, Nat.le_zero]
    omega

/-- A section that gets to the eviction loop evicts some bytes, and the
counter stays what it was. -/
theorem evicted_not_exact (hA : Acct s) (hint : s.cacheSize < 2 ^ 31) (hex : Exact s)
    (hev : s.evicts stSize = true) : (s.evicted stSize).unpinnedBytes < s.unpinnedBytes := by
  have hfree := freeSpace_lt_of_evicts hev
  have hno := (counterExact_of_eq hA hint hex).noOverflow
  have hgo : ¬s.evicts stSize = false := by simp [hev]
  rw [evicts_eq_false_iff hfree, hno, hex, hA.unpinnedBytes_eq] at hgo
  have hmissing : s.missing stSize ≤ total s.sizeOf s.unpinned := by
    unfold State.missing
    omega
  have hreach : IsReach s.sizeOf (s.missing stSize) s.unpinned (s.victims stSize) :=
    reach_isReach _ _ _
  have henough := hreach.enough_iff.mpr hmissing
  have hpos : 0 < s.missing stSize := by
    unfold State.missing
    omega
  have hsum := unpinnedBytes_evicted hA stSize
  omega

/-- The section that inserts a file, from `s` over `s₁` to `s'`. -/
theorem insert_exact_iff (hA : Acct s) (hint : s.cacheSize < 2 ^ 31) (hex : Exact s)
    {s₁ : State} (hr : Room s stSize s₁) (hcounter : s'.bytesUnpinnedFiles = s₁.bytesUnpinnedFiles)
    (hsum : s'.unpinnedBytes = s₁.unpinnedBytes) : Exact s' ↔ s.evicts stSize = false := by
  unfold Exact
  rw [hcounter, hsum]
  cases hr with
  | enough hfree =>
      have hev : s.evicts stSize = false := by simp [State.evicts, hfree]
      exact iff_of_true hex hev
  | none hev => exact iff_of_true hex hev
  | evict e hev he =>
      have hlt := evicted_not_exact hA hint hex hev
      have he' := hA.evict_eq (freeSpace_lt_of_evicts hev)
      obtain rfl := Option.some.inj (he.symm.trans he')
      refine iff_of_false (fun hex' => ?_) (by simp [hev])
      have hsame : s.bytesUnpinnedFiles = (s.evicted stSize).unpinnedBytes := hex'
      omega

/-- A step keeps an exact counter exact or drifts. -/
theorem move_exact_iff (hA : Acct s) (hC : CountsInt s) (hint : s.cacheSize < 2 ^ 31)
    (hex : Exact s) (hm : Move n s l s') : Exact s' ↔ drifts s l = false := by
  cases hm with
  | @raise t a hpc =>
      have hraise := raise_exact_iff hA hC hex (a := a)
        (x := { s.node a with countUnpin := int32 ((s.node a).countUnpin + 1) }) rfl rfl
      refine hraise.trans ?_
      simp [drifts, hpc]
  | @insert t file stSize buf s₁ hpc hroom hfree =>
      have hd : drifts s (.tick t) = s.evicts stSize := by simp [drifts, hpc]
      rw [hd]
      exact insert_exact_iff hA hint hex hroom (insertNode_quiet s₁ t file buf).bytesUnpinnedFiles
        (unpinnedBytes_insertNode (hA.room hroom) t file buf)
  | @fail t file stSize buf s₁ hpc hroom =>
      have hd : drifts s (.tick t) = s.evicts stSize := by simp [drifts, hpc]
      rw [hd]
      exact insert_exact_iff hA hint hex hroom rfl rfl
  | unpin x ha =>
      cases x with
      | none => exact iff_of_true hex rfl
      | some b =>
          cases hlook : s.cacheMap.lookup (s.node b).fileName with
          | some a =>
              simp only [State.unpin, drifts, hlook]
              by_cases hpos : (s.node a).countUnpin > 0
              · rw [if_pos hpos]
                have hlower := lower_exact_iff hA hint hex hlook hpos
                  (x := { s.node a with countUnpin := (s.node a).countUnpin - 1 }) rfl rfl
                refine hlower.trans ?_
                simp
              · rw [if_neg hpos]
                have hno : ¬1 < (s.node a).countUnpin := by omega
                exact iff_of_true hex (by simp [hno])
          | none =>
              simp only [State.unpin, drifts, hlook]
              exact iff_of_true hex trivial
  | hit ht hpc hf => exact iff_of_true hex rfl
  | miss ht hpc hf => exact iff_of_true hex rfl
  | openFail hpc => exact iff_of_true hex rfl
  | readFail hpc => exact iff_of_true hex rfl
  | load hpc hload => exact iff_of_true hex rfl
  | fault hpc he => exact absurd he (hA.evict_ne_none _)
  | countHit hpc => exact iff_of_true hex (by simp [drifts, hpc])
  | countFailed hpc => exact iff_of_true hex (by simp [drifts, hpc])
  | retNone hpc => exact iff_of_true hex (by simp [drifts, hpc])
  | retSome hpc => exact iff_of_true hex (by simp [drifts, hpc])

/-! ## Runs -/

/-- `CacheSize_` is set once. -/
theorem Move.cacheSize (hm : Move n s l s') : s'.cacheSize = s.cacheSize := by
  cases hm with
  | insert hpc hroom hfree => exact (hroom.quiet.trans (insertNode_quiet _ _ _ _)).cacheSize
  | fail hpc hroom => exact hroom.quiet.cacheSize
  | unpin x ha => exact (unpin_kept s x).cacheSize
  | _ => rfl

/-- What the steps of a run need of the states. -/
structure Sane (s : State) : Prop where
  acct : Acct s
  counts : CountsInt s
  /-- `CacheSize_` is an `int`. -/
  int : s.cacheSize < 2 ^ 31

theorem Sane.move (h : Sane s) (hm : Move n s l s') : Sane s' :=
  ⟨h.acct.move hm, h.counts.move h.acct hm, hm.cacheSize.symm ▸ h.int⟩

theorem Initial.sane (h : Initial s) (hint : s.cacheSize < 2 ^ 31) : Sane s := by
  refine ⟨h.acct, fun f a ha => ?_, hint⟩
  rw [h.cacheMap, AList.lookup_empty] at ha
  cases ha

theorem Initial.exact (h : Initial s) : Exact s := by
  unfold Exact State.unpinnedBytes
  rw [h.bytesUnpinnedFiles, h.cacheMap]
  rfl

/-- **The counter of unpinned bytes is exact in every state of a run
exactly when no step of the run drifts.** -/
theorem counter_exact_iff (r : Lts.Run (machine n) fun _ _ => True)
    (hint : (r.st 0).cacheSize < 2 ^ 31) :
    (∀ i ≤ r.len, CounterExact (r.st i)) ↔ ∀ i < r.len, drifts (r.st i) (r.act i) = false := by
  have hsane : ∀ i ≤ r.len, Sane (r.st i) :=
    r.invariant (Initial.sane r.init hint) fun i hi h => h.move (step_move (r.step i hi))
  have hstep : ∀ i < r.len, Exact (r.st i) →
      (Exact (r.st (i + 1)) ↔ drifts (r.st i) (r.act i) = false) := fun i hi hex => by
    obtain ⟨hA, hC, hsize⟩ := hsane i (Nat.le_of_lt hi)
    exact move_exact_iff hA hC hsize hex (step_move (r.step i hi))
  constructor
  · intro hall i hi
    exact (hstep i hi (hall i (Nat.le_of_lt hi)).exact).mp (hall (i + 1) hi).exact
  · intro hno i hi
    have hex : ∀ i ≤ r.len, Exact (r.st i) :=
      r.invariant (Initial.exact r.init) fun i hi h => (hstep i hi h).mpr (hno i hi)
    exact counterExact_of_eq (hsane i hi).acct (hsane i hi).int (hex i hi)

/-- Thread 0 pins a file and unpins it, and does so again. -/
def pinTwice : List Act :=
  pinSix 0 "a" ++ [.tick 0, .unpin (some 0), .pin 0 "a", .tick 0]

/-- A file that is pinned and unpinned once. -/
theorem pinnedOnce_exact : ∃ r : Lts.Run (machine 1) fun _ _ => True,
    (r.st r.len).bytesUnpinnedFiles = 6 ∧ CounterExact (r.st r.len) :=
  ⟨.ofExec emptyCache (pinTwice.take 5) emptyCache_initial (by decide +kernel), by decide +kernel,
    (counter_exact_iff _ (by decide +kernel)).mpr (by decide +kernel) _ (Nat.le_refl _)⟩

/-- The second pin of `a` leaves its six bytes in the counter. -/
theorem pinnedTwice_drifts : ¬∀ (n : ℕ) (r : Lts.Run (machine n) fun _ _ => True),
    (r.st 0).cacheSize < 2 ^ 31 → ∀ i ≤ r.len, CounterExact (r.st i) := by
  intro hall
  have hex := (hall 1 (.ofExec emptyCache pinTwice emptyCache_initial (by decide +kernel))
    (by decide +kernel) 7 (by decide +kernel)).exact
  revert hex
  decide +kernel

end FileCache

end HttpServer
