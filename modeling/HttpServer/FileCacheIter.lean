import HttpServer.FileCacheEvict
import HttpServer.Lib.StdList

/-!
# The iterator of the eviction loop

The eviction loop once more, with the iterator that it walks
`PinnedFiles_` with. The loop erases the element at the iterator and
then, unless the space suffices, increments this iterator. So its second
step after an eviction uses an iterator that is no longer valid, and the
loop is all right exactly when the first file that it evicts is enough
(`evictIter_valid_iff`); it then does what `evictLoop` does.
-/

namespace HttpServer

namespace FileCache

open ShortestPrefix

variable {n : ℕ} {s : State} {stSize : ℕ}

/-- What can go wrong in the loop. -/
inductive IterFault where
  /-- An iterator to an erased element is incremented or dereferenced. -/
  | invalidIterator
  /-- `find` yields `end()`, which is dereferenced. -/
  | endOfMap
  /-- The loop goes on after as many rounds as there are elements. -/
  | rounds
deriving DecidableEq, Repr

/-- What the loop leaves behind, with `PinnedFiles_` as it is then. -/
structure IterEnd where
  pinnedFiles : StdList String
  cacheMap : CacheMap
  bytesUsed : ℤ
  freeSpace : ℤ

/-- The body of the loop up to the test that ends it. -/
def evictAt (node : ℕ → Node) (maxSize : ℤ) (i : ℕ) (file : String) (a : ℕ) (e : IterEnd) :
    IterEnd :=
  if (node a).countUnpin = 0 then
    let bytesUsed := e.bytesUsed - (node a).buf.byteCount
    { pinnedFiles := e.pinnedFiles.erase i
      cacheMap := e.cacheMap.erase file
      bytesUsed := bytesUsed
      freeSpace := maxSize - bytesUsed }
  else e

/-- The loop from an iterator on; `none` is the end. -/
def evictIter (node : ℕ → Node) (maxSize : ℤ) (stSize : ℕ) :
    ℕ → Option ℕ → IterEnd → Except IterFault IterEnd
  | _, none, e => .ok e
  | 0, some _, _ => .error .rounds
  | k + 1, some i, e =>
      match e.pinnedFiles.deref i with
      | none => .error .invalidIterator
      | some file =>
          match e.cacheMap.lookup file with
          | none => .error .endOfMap
          | some a =>
              let e := evictAt node maxSize i file a e
              if e.freeSpace ≥ stSize then .ok e
              else
                match e.pinnedFiles.next i with
                | none => .error .invalidIterator
                | some it => evictIter node maxSize stSize k it e

/-- The loop of a request for `stSize` bytes. -/
def State.evictIter (s : State) (stSize : ℕ) : Except IterFault IterEnd :=
  let pinnedFiles := StdList.ofList s.pinnedFiles
  FileCache.evictIter s.node s.cacheSize stSize s.pinnedFiles.length pinnedFiles.begin
    ⟨pinnedFiles, s.cacheMap, s.bytesUsed, s.freeSpace⟩

/-! ## The first file that is evicted -/

/-- The loop skips the pinned files. At the first one that is not pinned it
ends, if that is enough, and goes wrong if it is not. -/
theorem evictIter_eq {node : ℕ → Node} {maxSize : ℤ} {e : IterEnd} :
    ∀ (rest before : List (String × ℕ)) (k : ℕ), e.pinnedFiles.elems = before ++ rest →
      rest.length ≤ k → (∀ x ∈ rest, x.1 ∈ e.cacheMap) → e.freeSpace = maxSize - e.bytesUsed →
      e.freeSpace < stSize →
      evictIter node maxSize stSize k (StdList.first rest) e
        = match rest.find? fun x => unpinnedIn node e.cacheMap x.1 with
          | none => .ok e
          | some (file, i) =>
              let size := sizeIn node e.cacheMap file
              if stSize ≤ e.freeSpace + size then
                .ok ⟨e.pinnedFiles.erase i, e.cacheMap.erase file, e.bytesUsed - size,
                  e.freeSpace + size⟩
              else .error .invalidIterator := by
  intro rest
  induction rest with
  | nil =>
      intro before k _ _ _ _ _
      cases k <;> rfl
  | cons x rest ih =>
      obtain ⟨file, i⟩ := x
      intro before k helems hk hmem hfree hlt
      obtain ⟨k, rfl⟩ : ∃ k', k = k' + 1 := ⟨k - 1, by simp only [List.length_cons] at hk; omega⟩
      obtain ⟨hfile, hmem⟩ := List.forall_mem_cons.mp hmem
      obtain ⟨a, ha⟩ := Option.isSome_iff_exists.mp (AList.lookup_isSome.mpr hfile)
      have hun : unpinnedIn node e.cacheMap file = decide ((node a).countUnpin = 0) := by
        unfold unpinnedIn
        rw [ha]
      have hsize : sizeIn node e.cacheMap file = (node a).buf.byteCount := by
        unfold sizeIn
        rw [ha]
      have hfirst : StdList.first ((file, i) :: rest) = some i := rfl
      rw [hfirst, evictIter, StdList.deref_of_elems helems]
      simp only [ha]
      by_cases hcount : (node a).countUnpin = 0
      · have hfind : ((file, i) :: rest).find? (fun x => unpinnedIn node e.cacheMap x.1)
            = some (file, i) := List.find?_cons_of_pos (by simpa [hun] using hcount)
        have hat : evictAt node maxSize i file a e
            = ⟨e.pinnedFiles.erase i, e.cacheMap.erase file, e.bytesUsed - (node a).buf.byteCount,
                e.freeSpace + (node a).buf.byteCount⟩ := by
          unfold evictAt
          rw [if_pos hcount, hfree]
          simp only [sub_add]
        rw [hfind, hat]
        simp only [hsize, StdList.next_erase, ge_iff_le]
      · have hfind : ((file, i) :: rest).find? (fun x => unpinnedIn node e.cacheMap x.1)
            = rest.find? fun x => unpinnedIn node e.cacheMap x.1 :=
          List.find?_cons_of_neg (by simpa [hun] using hcount)
        have hat : evictAt node maxSize i file a e = e := if_neg hcount
        rw [hfind, hat, if_neg (not_le.mpr hlt), StdList.next_of_elems helems]
        refine ih (before ++ [(file, i)]) k ?_ ?_ hmem hfree hlt
        · rw [helems, List.append_assoc]
          rfl
        · exact Nat.le_of_succ_le_succ hk

/-- The first unpinned file, with its element in the list. -/
theorem find_unpinned (s : State) :
    ((StdList.ofList s.pinnedFiles).elems.find? fun x => unpinnedIn s.node s.cacheMap x.1).map
      Prod.fst = s.unpinned.head? := by
  have hmap : (StdList.ofList s.pinnedFiles).elems.map Prod.fst = s.pinnedFiles :=
    StdList.toList_ofList _
  unfold State.unpinned
  rw [List.head?_filter]
  nth_rewrite 2 [← hmap]
  rw [List.find?_map]
  rfl

theorem Acct.evictIter_eq (h : Acct s) (hlt : s.freeSpace < stSize) :
    s.evictIter stSize
      = match (StdList.ofList s.pinnedFiles).elems.find?
            fun x => unpinnedIn s.node s.cacheMap x.1 with
        | none => .ok ⟨.ofList s.pinnedFiles, s.cacheMap, s.bytesUsed, s.freeSpace⟩
        | some (file, i) =>
            if stSize ≤ s.freeSpace + s.sizeOf file then
              .ok ⟨(StdList.ofList s.pinnedFiles).erase i, s.cacheMap.erase file,
                s.bytesUsed - s.sizeOf file, s.freeSpace + s.sizeOf file⟩
            else .error .invalidIterator := by
  refine FileCache.evictIter_eq (e := ⟨.ofList s.pinnedFiles, s.cacheMap, s.bytesUsed, s.freeSpace⟩)
    _ [] _ rfl ?_ (fun x hx => (h.mem _).mp ?_) rfl hlt
  · exact Nat.le_of_eq List.length_zipIdx
  · exact List.fst_mem_of_mem_zipIdx hx

/-- Where no iterator is used that is not valid, the loop does what
`evictLoop` does. -/
theorem Acct.evictIter_agrees (h : Acct s) (hlt : s.freeSpace < stSize) {e : IterEnd}
    (hok : s.evictIter stSize = .ok e) :
    s.evict stSize = some ⟨e.pinnedFiles.toList, e.cacheMap, e.bytesUsed, e.freeSpace⟩ := by
  have hhead := find_unpinned s
  rw [h.evictIter_eq hlt] at hok
  rw [h.evict_eq hlt]
  have hneed : s.missing stSize ≠ 0 := by
    unfold State.missing
    omega
  cases hfind : (StdList.ofList s.pinnedFiles).elems.find?
      fun x => unpinnedIn s.node s.cacheMap x.1 with
  | none =>
      rw [hfind] at hok hhead
      obtain rfl := Except.ok.inj hok
      have hvictims : s.victims stSize = [] := by
        unfold State.victims
        rw [List.head?_eq_none_iff.mp hhead.symm]
        rfl
      rw [hvictims, Evicted.without_nil, StdList.toList_ofList]
  | some x =>
      obtain ⟨file, i⟩ := x
      rw [hfind] at hok hhead
      simp only at hok
      split at hok
      · rename_i hle
        obtain rfl := Except.ok.inj hok
        obtain ⟨rest, hrest⟩ := List.head?_eq_some_iff.mp hhead.symm
        have hvictims : s.victims stSize = [file] := by
          unfold State.victims
          rw [hrest, reach, if_neg hneed,
            show s.missing stSize - s.sizeOf file = 0 by unfold State.missing; omega, reach_zero]
        obtain ⟨before, after, helems⟩ := List.append_of_mem (List.mem_of_find?_eq_some hfind)
        have hlist : s.pinnedFiles = before.map Prod.fst ++ file :: after.map Prod.fst := by
          rw [← StdList.toList_ofList s.pinnedFiles, StdList.toList, helems, List.map_append,
            List.map_cons]
        have hnot := (List.nodup_cons.mp (List.nodup_middle.mp (hlist ▸ h.nodup))).1
        have hne : ∀ f ∈ before.map Prod.fst ++ after.map Prod.fst, f ∉ [file] :=
          fun f hf hin => hnot (List.mem_singleton.mp hin ▸ hf)
        have hfilter : s.pinnedFiles.filter (· ∉ [file])
            = before.map Prod.fst ++ after.map Prod.fst := by
          rw [hlist, List.filter_append, List.filter_cons_of_neg (by simp), ← List.filter_append,
            List.filter_eq_self.mpr fun f hf => decide_eq_true (hne f hf)]
        have herase : ((StdList.ofList s.pinnedFiles).erase i).toList
            = before.map Prod.fst ++ after.map Prod.fst := by
          rw [StdList.toList, StdList.erase_of_elems helems, List.map_append]
        unfold Evicted.without
        rw [hvictims, hfilter, herase]
        simp
      · cases hok

/-- **The eviction loop only uses valid iterators exactly when the first
file it evicts is enough**, or none is evicted. -/
theorem evictIter_valid_iff (h : (machine n).Reachable s) (hev : s.evicts stSize = true) :
    s.evictIter stSize ≠ .error .invalidIterator
      ↔ ∀ f, s.unpinned.head? = some f → stSize ≤ s.freeSpace + s.sizeOf f := by
  rw [(reachable_acct h).evictIter_eq (freeSpace_lt_of_evicts hev), ← find_unpinned s]
  cases (StdList.ofList s.pinnedFiles).elems.find? fun x => unpinnedIn s.node s.cacheMap x.1 with
  | none => simp
  | some x =>
      simp only [Option.map_some, Option.some.injEq, forall_eq']
      by_cases hle : stSize ≤ s.freeSpace + s.sizeOf x.1
      · simp [hle]
      · simp [hle]

/-- The one file that is evicted for `b` is enough. -/
theorem oneEviction_valid : ∃ s, (machine 1).Reachable s ∧ s.evicts 6 = true
    ∧ s.evictIter 6 ≠ .error .invalidIterator := by
  have hrun : ((machine 1).exec (fun _ _ => True) emptyCache beforeEviction).any (fun s =>
      s.evicts 6 && s.unpinned = ["a"]
        && decide (6 ≤ s.freeSpace + (s.sizeOf "a" : ℤ))) = true := by
    decide +kernel
  obtain ⟨s, hs, hp⟩ := Lts.ReachableBy.exec_any (.init emptyCache_initial) hrun
  simp only [Bool.and_eq_true, decide_eq_true_eq] at hp
  obtain ⟨⟨hev, hun⟩, hle⟩ := hp
  refine ⟨s, hs, hev, (evictIter_valid_iff hs hev).mpr fun f hf => ?_⟩
  rw [hun] at hf
  obtain rfl := Option.some.inj hf
  exact hle

/-- Thread 0 pins and unpins a file of four bytes. -/
def pinFour (file : String) (node : ℕ) : List Act :=
  [.pin 0 file, .load 0 4 (fun _ _ => 0) [[1, 2, 3, 4]], .tick 0, .tick 0, .unpin (some node)]

/-- A file of ten bytes takes the place of two of four bytes. -/
theorem twoEvictions_not_valid : ¬∀ (n : ℕ) (s : State) (stSize : ℕ), (machine n).Reachable s →
    s.evicts stSize = true → s.evictIter stSize ≠ .error .invalidIterator := by
  intro hall
  have hrun : ((machine 1).exec (fun _ _ => True) emptyCache (pinFour "a" 0 ++ pinFour "b" 1)).any
      (fun s => s.evicts 10 && match s.evictIter 10 with
        | .error fault => fault = .invalidIterator
        | .ok _ => false) = true := by
    decide +kernel
  obtain ⟨s, hs, hp⟩ := Lts.ReachableBy.exec_any (.init emptyCache_initial) hrun
  obtain ⟨hev, hp⟩ := Bool.and_eq_true_iff.mp hp
  have hok := hall 1 s 10 hs hev
  cases hiter : s.evictIter 10 with
  | ok e =>
      rw [hiter] at hp
      cases hp
  | error fault =>
      rw [hiter] at hp hok
      exact hok (congrArg Except.error (of_decide_eq_true hp))

end FileCache

end HttpServer
