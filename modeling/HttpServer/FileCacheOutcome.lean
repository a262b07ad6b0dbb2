import HttpServer.FileCacheCall

/-!
# What a pin leaves behind and what its caller learns

A pin that is refused should leave the cache as it was. It does when the
early test refuses it. The eviction loop throws files out before it is
known that they are enough, and as the early test relies on a counter
that is too large at times, they may not be (`refused_unchanged_iff`).

The caller should learn from the handle, `*buf` and `*error` how the pin
ended (`Documented`). It does not when the pin never ends, in a loop of
reads that get nothing. And as `*error` is never written, it does only
when the pin succeeds, or when `*error` has held the right value all
along (`documented_iff`).
-/

namespace HttpServer

namespace FileCache

open ShortestPrefix

variable {n : ℕ} {s s' s₁ s₂ : State} {file : String} {stSize : ℕ} {answer : Answer} {error : ℤ}
  {r : Frame}

/-! ## Room and the unpinned files -/

theorem victims_le (hA : Acct s) (stSize : ℕ) :
    total s.sizeOf (s.victims stSize) ≤ s.unpinnedBytes := by
  rw [hA.unpinnedBytes_eq]
  exact total_le_of_sublist (victims_prefix_unpinned s stSize).sublist

theorem Fits.le (h : Fits s stSize s₁) (hA : Acct s) : stSize ≤ s.freeSpace + s.unpinnedBytes := by
  have hle := victims_le hA stSize
  cases h with
  | space h => omega
  | evict hev h => omega

/-- In vain all unpinned files are evicted. -/
theorem victims_of_late (hA : Acct s)
    (h : s.freeSpace + total s.sizeOf (s.victims stSize) < stSize) :
    s.victims stSize = s.unpinned ∧ s.freeSpace + s.unpinnedBytes < stSize := by
  have hreach : IsReach s.sizeOf (s.missing stSize) s.unpinned (s.victims stSize) :=
    reach_isReach _ _ _
  have hall : s.victims stSize = s.unpinned := by
    refine hreach.enough.resolve_left fun hle => ?_
    unfold State.missing at hle
    omega
  rw [hA.unpinnedBytes_eq, ← hall]
  exact ⟨rfl, h⟩

theorem victims_of_space (h : stSize ≤ s.freeSpace) : s.victims stSize = [] := by
  have h0 : s.missing stSize = 0 := by
    unfold State.missing
    omega
  unfold State.victims
  rw [h0, reach_zero]

theorem evicted_of_nil (h : s.victims stSize = []) : s.evicted stSize = s := by
  unfold State.evicted
  rw [h, Evicted.without_nil]

/-- Whether the file is cached when its room has been made. -/
theorem Fits.lookup (h : Fits s stSize s₁) (file : String) :
    s₁.cacheMap.lookup file
      = if file ∈ s.victims stSize then none else s.cacheMap.lookup file := by
  cases h with
  | space h => rw [if_neg (by rw [victims_of_space h]; exact List.not_mem_nil)]
  | evict hev h => exact evicted_lookup s stSize file

/-! ## Refused pins -/

/-- What a pin that is refused should not touch. -/
structure Unchanged (s s' : State) : Prop where
  cacheMap : s'.cacheMap = s.cacheMap
  pinnedFiles : s'.pinnedFiles = s.pinnedFiles
  bytesUsed : s'.bytesUsed = s.bytesUsed
  bytesUnpinnedFiles : s'.bytesUnpinnedFiles = s.bytesUnpinnedFiles
  countUnpin : ∀ a, (s'.node a).countUnpin = (s.node a).countUnpin

/-- The request passes the early test, some file can be evicted, and all of
them are not enough. -/
def EvictsInVain (s : State) : Answer → Prop
  | .load stSize _ _ _ =>
      s.evicts stSize = true ∧ s.unpinned ≠ [] ∧ s.freeSpace + s.unpinnedBytes < stSize
  | _ => False

theorem late_unchanged_iff (hA : Acct s)
    (h : s.freeSpace + total s.sizeOf (s.victims stSize) < stSize) :
    Unchanged s (s.evicted stSize).addFailed.addPins ↔ s.unpinned = [] := by
  obtain ⟨hall, -⟩ := victims_of_late hA h
  constructor
  · intro hsame
    by_contra hne
    obtain ⟨f, hf⟩ := List.exists_mem_of_ne_nil _ hne
    have hin := (mem_unpinned.mp hf).1
    rw [← hsame.pinnedFiles] at hin
    have hkept : f ∈ s.pinnedFiles.filter (· ∉ s.victims stSize) := hin
    rw [hall, List.mem_filter, decide_eq_true_eq] at hkept
    exact hkept.2 hf
  · intro hnil
    rw [evicted_of_nil (hall.trans hnil)]
    exact ⟨rfl, rfl, rfl, rfl, fun _ => rfl⟩

/-- **A refused pin changes nothing exactly when it does not evict files
that are not enough.** -/
theorem refused_unchanged_iff (h : (machine n).Reachable s) (hnew : s.cacheMap.lookup file = none)
    (hpin : pin (.start s error) s file answer = some r) :
    (r.h = none → Unchanged s r.cache) ↔ ¬EvictsInVain s answer := by
  have hA := reachable_acct h
  cases pin_ends hA hpin with
  | @hit _ a ha =>
      rw [hnew] at ha
      cases ha
  | openFail hmiss => exact iff_of_true (fun _ => ⟨rfl, rfl, rfl, rfl, fun _ => rfl⟩) id
  | readFail hmiss => exact iff_of_true (fun _ => ⟨rfl, rfl, rfl, rfl, fun _ => rfl⟩) id
  | inserted hmiss hload hfits hnew₁ =>
      refine iff_of_true (fun hnone => by cases hnone) fun hvain => ?_
      exact absurd (hfits.le hA) (not_le.mpr hvain.2.2)
  | @lost stSize heap reads _ newBuf s₁ a hmiss hload hfits hold =>
      rw [hfits.lookup, hnew, ite_self] at hold
      cases hold
  | @refused stSize heap reads _ newBuf s₁ hmiss hload hshort =>
      cases hshort with
      | early hfree hev =>
          refine iff_of_true (fun _ => ⟨rfl, rfl, rfl, rfl, fun _ => rfl⟩) fun hvain => ?_
          exact Bool.false_ne_true (hev.symm.trans hvain.1)
      | late hev hlt =>
          have hlate := late_unchanged_iff hA hlt
          obtain ⟨-, hshort⟩ := victims_of_late hA hlt
          unfold EvictsInVain
          simp only [forall_const, hlate, hev, hshort, true_and, and_true, not_not]

/-- A file of eleven bytes that is refused early by an empty cache of ten. -/
theorem refusedEarly_unchanged : ∃ r, pin (.start emptyCache 0) emptyCache "a"
      (.load 11 (fun _ _ => 0) [[1, 2, 3, 4, 5, 6, 7, 8, 9, 10, 11]] (by decide +kernel)) = some r
    ∧ r.h = none ∧ Unchanged emptyCache r.cache := by
  have hpin : (pin (.start emptyCache 0) emptyCache "a" (.load 11 (fun _ _ => 0)
      [[1, 2, 3, 4, 5, 6, 7, 8, 9, 10, 11]] (by decide +kernel))).any (·.h.isNone) = true := by
    decide +kernel
  obtain ⟨r, hr, hh⟩ := (Option.any_eq_true _ _).mp hpin
  have hnone := Option.isNone_iff_eq_none.mp hh
  have hreach : (machine 1).Reachable emptyCache := .init emptyCache_initial
  refine ⟨r, hr, hnone, (refused_unchanged_iff hreach rfl hr).mpr ?_ hnone⟩
  rintro ⟨hev, -⟩
  revert hev
  decide +kernel

/-- Pinned and unpinned twice, the six bytes of `a` count as twelve. -/
def countedTwice : List Act :=
  pinSix 0 "a" ++ [.tick 0, .unpin (some 0), .pin 0 "a", .tick 0, .tick 0, .tick 0, .unpin (some 0)]

/-- For a file of sixteen bytes `a` is evicted, and the pin is refused. -/
theorem refusedLate_evicts : ¬∀ (n : ℕ) (s : State) (file : String) (answer : Answer) (error : ℤ)
    (r : Frame), (machine n).Reachable s → s.cacheMap.lookup file = none →
    pin (.start s error) s file answer = some r → r.h = none → Unchanged s r.cache := by
  intro hall
  have hrun : ((machine 1).exec (fun _ _ => True) emptyCache countedTwice).any (fun s =>
      s.cacheMap.lookup "b" = none
        && (pin (.start s 0) s "b" (.load 16 (fun _ _ => 0) [List.replicate 16 1]
          (by decide +kernel))).any fun r =>
          r.h.isNone && r.cache.pinnedFiles ≠ s.pinnedFiles) = true := by
    decide +kernel
  obtain ⟨s, hs, hp⟩ := Lts.ReachableBy.exec_any (.init emptyCache_initial) hrun
  obtain ⟨hmiss, hp⟩ := Bool.and_eq_true_iff.mp hp
  obtain ⟨r, hr, hp⟩ := (Option.any_eq_true _ _).mp hp
  obtain ⟨hh, hfiles⟩ := Bool.and_eq_true_iff.mp hp
  have hsame := hall 1 s "b" _ 0 r hs (of_decide_eq_true hmiss) hr (Option.isNone_iff_eq_none.mp hh)
  exact of_decide_eq_true hfiles hsame.pinnedFiles

/-! ## What the caller learns -/

/-- `errno` of the call that failed. -/
def Answer.errno : Answer → Option ℤ
  | .openFail errno _ => some errno
  | .readFail errno _ => some errno
  | _ => none

/-- With this in `*error` before the call, and the cache in `s₂` when the
file has been read, a miss ends, and as documented. -/
def Tells (s₂ : State) (file : String) (error : ℤ) : Answer → Prop
  | .openFail errno _ => error = errno
  | .statFail => False
  | .readFail errno _ => error = errno
  | .endless _ _ _ _ _ => False
  | .load stSize _ _ _ =>
      if s₂.freeSpace + s₂.unpinnedBytes < stSize then error = 0
      else (stSize ≤ s₂.freeSpace ∨ s₂.evicts stSize = true)
        ∧ (s₂.cacheMap.lookup file = none ∨ file ∈ s₂.victims stSize)

theorem Tells.returns (h : Tells s₂ file error answer) : answer.Returns := by
  cases answer with
  | statFail => exact h
  | endless stSize heap reads hbound hno => exact h
  | _ => trivial

end FileCache

end HttpServer
