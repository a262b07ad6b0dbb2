import HttpServer.FileCacheInv
import HttpServer.Lib.ShortestPrefix

/-!
# What the eviction loop evicts

The eviction loop takes the files with a pin count of 0 in the order of
`PinnedFiles_` until the free space suffices: the shortest prefix of
these files that reaches the missing bytes (`victims`). The rest of the
list keeps its order, and the order is that of insertion, as the list
only grows at its end (`InOrder`).
-/

namespace HttpServer

namespace FileCache

open ShortestPrefix

variable {n : ℕ} {s s' : State} {l : Act} {stSize : ℕ}

/-- `byteCount()` of a cached file. -/
def sizeIn (node : ℕ → Node) (m : CacheMap) (file : String) : ℕ :=
  match m.lookup file with
  | some a => (node a).buf.byteCount
  | none => 0

/-- The file is cached and its pin count is 0. -/
def unpinnedIn (node : ℕ → Node) (m : CacheMap) (file : String) : Bool :=
  match m.lookup file with
  | some a => (node a).countUnpin = 0
  | none => false

/-- The loop over `files` has evicted the files `out`. -/
def Evicted.without (size : String → ℕ) (files : List String) (m : CacheMap) (used free : ℤ)
    (out : List String) : Evicted where
  files := files.filter (· ∉ out)
  cacheMap := out.foldl (fun m f => m.erase f) m
  bytesUsed := used - total size out
  freeSpace := free + total size out

namespace State

def freeSpace (s : State) : ℤ := s.cacheSize - s.bytesUsed

def sizeOf (s : State) : String → ℕ := sizeIn s.node s.cacheMap

/-- The files with a pin count of 0, in the order of the list. -/
def unpinned (s : State) : List String := s.pinnedFiles.filter (unpinnedIn s.node s.cacheMap)

/-- `byteCount()` summed over the cached files with a pin count of 0. -/
def unpinnedBytes (s : State) : ℕ :=
  ((s.cacheMap.entries.filter fun e => (s.node e.2).countUnpin = 0).map
    fun e => (s.node e.2).buf.byteCount).sum

/-- The bytes that a request for `stSize` bytes lacks. -/
def missing (s : State) (stSize : ℕ) : ℕ := (stSize - s.freeSpace).toNat

/-- The files that the eviction loop evicts for `stSize` bytes. -/
def victims (s : State) (stSize : ℕ) : List String :=
  reach s.sizeOf (s.missing stSize) s.unpinned

/-- The cache without these files. -/
def evicted (s : State) (stSize : ℕ) : State :=
  let e := Evicted.without s.sizeOf s.pinnedFiles s.cacheMap s.bytesUsed s.freeSpace
    (s.victims stSize)
  { s with cacheMap := e.cacheMap, bytesUsed := e.bytesUsed, pinnedFiles := e.files }

end State

/-! ## The loop -/

section

variable {size : String → ℕ} {file : String} {files out : List String} {m : CacheMap}
  {used free : ℤ}

theorem Evicted.without_nil :
    Evicted.without size files m used free [] = ⟨files, m, used, free⟩ := by
  simp [Evicted.without]

theorem Evicted.without_cons (h : file ∉ files) :
    Evicted.without size (file :: files) m used free (file :: out)
      = Evicted.without size files (m.erase file) (used - size file) (free + size file) out := by
  have hfiles : files.filter (· ∉ file :: out) = files.filter (· ∉ out) := by
    refine List.filter_congr fun f hf => ?_
    have hne : f ≠ file := fun heq => h (heq ▸ hf)
    simp [hne]
  unfold Evicted.without
  rw [List.filter_cons_of_neg (by simp), hfiles, total_cons, List.foldl_cons]
  push_cast
  rw [sub_sub, add_assoc]

theorem Evicted.without_keep (h : file ∉ out) :
    Evicted.without size (file :: files) m used free out
      = { Evicted.without size files m used free out with
          files := file :: (Evicted.without size files m used free out).files } := by
  unfold Evicted.without
  rw [List.filter_cons_of_pos (by simpa using h)]

end

/-- The loop over the files that are left, with the map `m` that the
evictions so far have left of `m₀`. -/
theorem evictLoop_eq {node : ℕ → Node} {maxSize : ℤ} {m₀ : CacheMap} :
    ∀ (files : List String) (m : CacheMap) (used free : ℤ), files.Nodup →
      (∀ f ∈ files, f ∈ m₀) → (∀ f ∈ files, m.lookup f = m₀.lookup f) → free = maxSize - used →
      free < stSize →
      evictLoop node maxSize stSize files m used free
        = some (.without (sizeIn node m₀) files m used free
            (reach (sizeIn node m₀) (stSize - free).toNat
              (files.filter (unpinnedIn node m₀)))) := by
  intro files
  induction files with
  | nil =>
      intro m used free _ _ _ _ _
      rw [List.filter_nil, reach, Evicted.without_nil]
      rfl
  | cons file files ih =>
      intro m used free hnd hmem hlook hfree hlt
      obtain ⟨hfile, hnd⟩ := List.nodup_cons.mp hnd
      obtain ⟨hmemFile, hmem⟩ := List.forall_mem_cons.mp hmem
      obtain ⟨hlookFile, hlook⟩ := List.forall_mem_cons.mp hlook
      obtain ⟨a, ha⟩ := Option.isSome_iff_exists.mp (AList.lookup_isSome.mpr hmemFile)
      have hsize : sizeIn node m₀ file = (node a).buf.byteCount := by
        unfold sizeIn
        rw [ha]
      have hun : unpinnedIn node m₀ file = decide ((node a).countUnpin = 0) := by
        unfold unpinnedIn
        rw [ha]
      simp only [evictLoop, hlookFile, ha]
      by_cases hcount : (node a).countUnpin = 0
      · -- `file` is evicted, and the rest of the loop lacks as many bytes less
        have hneed : (stSize - free).toNat ≠ 0 := by omega
        have hfree' : maxSize - (used - (node a).buf.byteCount) = free + sizeIn node m₀ file := by
          omega
        rw [if_pos hcount, List.filter_cons_of_pos (by simpa [hun] using hcount), reach,
          if_neg hneed, Evicted.without_cons hfile, hfree', ← hsize,
          show (stSize - free).toNat - sizeIn node m₀ file
            = (stSize - (free + sizeIn node m₀ file)).toNat by omega]
        split
        · rename_i hstop
          rw [show (stSize - (free + sizeIn node m₀ file)).toNat = 0 by omega, reach_zero,
            Evicted.without_nil]
        · refine ih _ _ _ hnd hmem (fun f hf => ?_) (by omega) (by omega)
          have hne : f ≠ file := fun heq => hfile (heq ▸ hf)
          rw [AList.lookup_erase_ne hne]
          exact hlook f hf
      · have hnot : file ∉ reach (sizeIn node m₀) (stSize - free).toNat
            (files.filter (unpinnedIn node m₀)) := fun hin =>
          hfile (List.mem_filter.mp ((reach_isReach _ _ _).isPrefix.subset hin)).1
        rw [if_neg hcount, if_neg (by omega), List.filter_cons_of_neg (by simpa [hun] using hcount),
          ih m used free hnd hmem hlook hfree hlt, Evicted.without_keep hnot]
        rfl

/-- The eviction loop of a request that does not fit. -/
theorem Acct.evict_eq (h : Acct s) (hfree : s.freeSpace < stSize) :
    s.evict stSize = some (.without s.sizeOf s.pinnedFiles s.cacheMap s.bytesUsed s.freeSpace
      (s.victims stSize)) :=
  evictLoop_eq s.pinnedFiles s.cacheMap s.bytesUsed s.freeSpace h.nodup
    (fun f hf => (h.mem f).mp hf) (fun _ _ => rfl) rfl hfree

theorem freeSpace_lt_of_evicts (h : s.evicts stSize = true) : s.freeSpace < stSize := by
  simp only [State.evicts, Bool.decide_and, Bool.and_eq_true, decide_eq_true_eq] at h
  exact not_le.mp h.1

theorem evicts_eq_false_iff (hfree : s.freeSpace < stSize) :
    s.evicts stSize = false ↔ int32 (s.freeSpace + s.bytesUnpinnedFiles) < stSize := by
  have hno : ¬s.cacheSize - s.bytesUsed ≥ stSize := not_le.mpr hfree
  unfold State.evicts
  simp [hno, State.freeSpace]

/-- The section after the file was read. -/
theorem Acct.insertFile_eq (h : Acct s) (t : Tid) (file : String) (stSize : ℕ) (buf : Buffer) :
    s.insertFile t file stSize buf
      = if stSize ≤ s.freeSpace then s.insertNode t file buf
        else if s.evicts stSize then
          if stSize ≤ s.freeSpace + total s.sizeOf (s.victims stSize) then
            (s.evicted stSize).insertNode t file buf
          else (s.evicted stSize).goto t .countFailed
        else s.goto t .countFailed := by
  unfold State.insertFile
  by_cases hfree : s.cacheSize - s.bytesUsed ≥ stSize
  · have hle : stSize ≤ s.freeSpace := hfree
    rw [if_pos hfree, if_pos hle]
  · have hlt : ¬stSize ≤ s.freeSpace := hfree
    rw [if_neg hfree, if_neg hlt]
    by_cases hev : s.evicts stSize = true
    · rw [if_pos hev, if_pos hev, h.evict_eq (not_le.mp hlt)]
      rfl
    · rw [if_neg hev, if_neg hev]

/-! ## The unpinned files -/

theorem mem_unpinned {f : String} : f ∈ s.unpinned ↔ f ∈ s.pinnedFiles
    ∧ ∃ a, s.cacheMap.lookup f = some a ∧ (s.node a).countUnpin = 0 := by
  unfold State.unpinned unpinnedIn
  rw [List.mem_filter]
  refine and_congr_right fun _ => ?_
  cases s.cacheMap.lookup f with
  | none => simp
  | some a => simp

theorem victims_prefix_unpinned (s : State) (stSize : ℕ) : s.victims stSize <+: s.unpinned :=
  (reach_isReach _ _ _).isPrefix

/-- The list and the map have the same files, so the sums agree. -/
theorem Acct.unpinnedBytes_eq (h : Acct s) : s.unpinnedBytes = total s.sizeOf s.unpinned := by
  have hperm : s.cacheMap.keys.Perm s.pinnedFiles :=
    (List.perm_ext_iff_of_nodup s.cacheMap.keys_nodup h.nodup).mpr fun f => by
      rw [h.mem f]
      rfl
  have hentry : ∀ e ∈ s.cacheMap.entries, s.cacheMap.lookup e.1 = some e.2 := fun e he =>
    AList.mem_lookup_iff.mpr he
  have hfilter : s.cacheMap.entries.filter (fun e => (s.node e.2).countUnpin = 0)
      = s.cacheMap.entries.filter (unpinnedIn s.node s.cacheMap ∘ Sigma.fst) := by
    refine List.filter_congr fun e he => ?_
    rw [Function.comp_apply, unpinnedIn, hentry e he]
  have hsize : ∀ e ∈ s.cacheMap.entries.filter (unpinnedIn s.node s.cacheMap ∘ Sigma.fst),
      (s.node e.2).buf.byteCount = s.sizeOf e.1 := fun e he => by
    rw [State.sizeOf, sizeIn, hentry e (List.mem_filter.mp he).1]
  have hkeys : (s.cacheMap.entries.filter (unpinnedIn s.node s.cacheMap ∘ Sigma.fst)).map Sigma.fst
      = s.cacheMap.keys.filter (unpinnedIn s.node s.cacheMap) := List.filter_map.symm
  unfold State.unpinnedBytes State.unpinned total
  calc
    _ = ((s.cacheMap.keys.filter (unpinnedIn s.node s.cacheMap)).map s.sizeOf).sum := by
        rw [hfilter, List.map_congr_left hsize, ← hkeys, List.map_map]
        rfl
    _ = _ := ((hperm.filter _).map _).sum_eq

/-! ## What is left -/

theorem lookup_foldl_erase (f : String) : ∀ (out : List String) (m : CacheMap),
    (out.foldl (fun m g => m.erase g) m).lookup f = if f ∈ out then none else m.lookup f
  | [], m => rfl
  | g :: out, m => by
      rw [List.foldl_cons, lookup_foldl_erase f out]
      by_cases hf : f = g
      · subst hf
        simp
      · simp [hf]

theorem evicted_lookup (s : State) (stSize : ℕ) (f : String) :
    (s.evicted stSize).cacheMap.lookup f
      = if f ∈ s.victims stSize then none else s.cacheMap.lookup f :=
  lookup_foldl_erase f (s.victims stSize) s.cacheMap

theorem Acct.evicted (h : Acct s) (hev : s.evicts stSize = true) : Acct (s.evicted stSize) :=
  h.room (.evict _ hev (h.evict_eq (freeSpace_lt_of_evicts hev)))

namespace State

/-- `new Node(file_name, new_buf, 1)`. -/
def newNode (s : State) (file : String) (newBuf : Buffer) : State :=
  { s.setNode s.allocs ⟨file, newBuf, 1⟩ with allocs := s.allocs + 1 }

/-- The node comes into `cache_map_` and `PinnedFiles_`. -/
def addNode (s : State) (file : String) (a : ℕ) (newBuf : Buffer) : State :=
  { s with
    cacheMap := s.cacheMap.insert file a
    bytesUsed := s.bytesUsed + newBuf.byteCount
    pinnedFiles := s.pinnedFiles ++ [file] }

end State

/-- The insertion of a file that is not cached. -/
theorem insertNode_of_none (t : Tid) {file : String} (buf : Buffer)
    (h : s.cacheMap.lookup file = none) :
    s.insertNode t file buf
      = ((s.newNode file buf).addNode file s.allocs buf).goto t (.countPin (some s.allocs)) := by
  unfold State.insertNode
  simp only [show (s.setNode s.allocs ⟨file, buf, 1⟩).cacheMap = s.cacheMap from rfl, h]
  rfl

/-- The insertion of a file that another thread has inserted. -/
theorem insertNode_of_some (t : Tid) {file : String} (buf : Buffer) {a : ℕ}
    (h : s.cacheMap.lookup file = some a) :
    s.insertNode t file buf = (s.newNode file buf).goto t (.countHit none) := by
  unfold State.insertNode
  simp only [show (s.setNode s.allocs ⟨file, buf, 1⟩).cacheMap = s.cacheMap from rfl, h]
  rfl

/-! ## The order of the list -/

/-- `f` was inserted before `g`: nodes are numbered as they are allocated. -/
def State.Before (s : State) (f g : String) : Prop :=
  ∀ a b, s.cacheMap.lookup f = some a → s.cacheMap.lookup g = some b → a < b

/-- The list has the files in the order of their insertion. -/
def InOrder (s : State) : Prop := s.pinnedFiles.Pairwise s.Before

theorem InOrder.room {s₁ : State} (h : InOrder s) (hA : Acct s) (hr : Room s stSize s₁) :
    InOrder s₁ := by
  cases hr with
  | enough _ => exact h
  | none _ => exact h
  | evict e hev he =>
      have hspec := hA.evictSpec he
      refine (List.Pairwise.sublist hspec.sublist h).imp fun hbefore a b ha hb => ?_
      exact hbefore a b (hspec.lookup_of_some ha) (hspec.lookup_of_some hb)

theorem InOrder.insertNode (h : InOrder s) (hA : Acct s) (t : Tid) (file : String) (buf : Buffer) :
    InOrder (s.insertNode t file buf) := by
  cases hfile : s.cacheMap.lookup file with
  | some a =>
      rw [insertNode_of_some t buf hfile]
      exact h
  | none =>
      rw [insertNode_of_none t buf hfile]
      have hne : ∀ f ∈ s.pinnedFiles, f ≠ file := by
        rintro f hf rfl
        exact AList.lookup_eq_none.mp hfile ((hA.mem f).mp hf)
      refine List.pairwise_append.mpr
        ⟨?_, List.pairwise_singleton _ _, fun f hf g hg a b ha hb => ?_⟩
      · refine h.imp_of_mem fun {f g} hf hg hbefore a b ha hb => ?_
        have ha : (s.cacheMap.insert file s.allocs).lookup f = some a := ha
        have hb : (s.cacheMap.insert file s.allocs).lookup g = some b := hb
        rw [AList.lookup_insert_ne (hne f hf)] at ha
        rw [AList.lookup_insert_ne (hne g hg)] at hb
        exact hbefore a b ha hb
      · have ha : (s.cacheMap.insert file s.allocs).lookup f = some a := ha
        have hb : (s.cacheMap.insert file s.allocs).lookup g = some b := hb
        rw [AList.lookup_insert_ne (hne f hf)] at ha
        rw [List.mem_singleton.mp hg, AList.lookup_insert] at hb
        rw [← Option.some.inj hb]
        exact (hA.node f a ha).1

theorem InOrder.move (h : InOrder s) (hA : Acct s) (hm : Move n s l s') : InOrder s' := by
  cases hm with
  | insert hpc hroom hfree => exact (h.room hA hroom).insertNode (hA.room hroom) _ _ _
  | fail hpc hroom =>
      have h₁ := h.room hA hroom
      exact h₁
  | unpin x ha =>
      cases x with
      | none => exact h
      | some b =>
          obtain ⟨a, -, -, heq⟩ | ⟨e, -, heq⟩ := unpin_cases s b
          · rw [heq]
            exact h
          · rw [heq]
            exact h
  | _ => exact h

theorem reachable_inOrder (h : (machine n).Reachable s) : Acct s ∧ InOrder s := by
  refine h.invariant (I := fun s => Acct s ∧ InOrder s) (fun s hs => ⟨Initial.acct hs, ?_⟩) ?_
  · unfold InOrder
    rw [Initial.pinnedFiles hs]
    exact .nil
  · rintro s l s' ⟨hA, hO⟩ - hs
    exact ⟨hA.move (step_move hs), hO.move hA (step_move hs)⟩

/-! ## FIFO and minimal -/

/-- The section of a pin of `file`, from `s` to `s'`, has evicted the files
`evicted` in the order of insertion and no more of them than it must. -/
structure FifoEviction (s : State) (file : String) (stSize : ℕ) (buf : Buffer) (s' : State)
    (evicted : List String) : Prop where
  order : InOrder s
  shortest : IsReach s.sizeOf (s.missing stSize) s.unpinned evicted
  gone : ∀ f ∈ evicted, s'.cacheMap.lookup f = none
  kept : ∀ f, f ∉ evicted → f ≠ file → s'.cacheMap.lookup f = s.cacheMap.lookup f
  node : ∀ f a, s.cacheMap.lookup f = some a → s'.node a = s.node a
  /-- The new file comes in when the space suffices now. -/
  fits : stSize ≤ s.freeSpace + total s.sizeOf evicted →
    s'.pinnedFiles = s.pinnedFiles.filter (· ∉ evicted) ++ [file]
      ∧ s'.cacheMap.lookup file = some s.allocs ∧ s'.node s.allocs = ⟨file, buf, 1⟩
  refused : ¬stSize ≤ s.freeSpace + total s.sizeOf evicted →
    s'.pinnedFiles = s.pinnedFiles.filter (· ∉ evicted) ∧ s'.cacheMap.lookup file = none

/-- **Eviction is FIFO and minimal**, in every section that gets to the
eviction loop. -/
theorem eviction_fifo (h : (machine n).Reachable s) {t : Tid} {file : String} {buf : Buffer}
    (hpc : s.pc t = .insert file stSize buf) (hnew : s.cacheMap.lookup file = none)
    (hev : s.evicts stSize = true) (hstep : step n s (.tick t) = some s') :
    ∃ evicted, FifoEviction s file stSize buf s' evicted := by
  obtain ⟨hA, hO⟩ := reachable_inOrder h
  have hs' : s' = s.insertFile t file stSize buf := by
    simp only [step, tick, hpc] at hstep
    split at hstep
    · cases hstep
    · exact (Option.some.inj hstep).symm
  have hlt := freeSpace_lt_of_evicts hev
  have hnot : file ∉ s.victims stSize := fun hin => by
    obtain ⟨-, a, ha, -⟩ := mem_unpinned.mp ((victims_prefix_unpinned s stSize).subset hin)
    rw [hnew] at ha
    cases ha
  have hlook := evicted_lookup s stSize
  have hnew₁ : (s.evicted stSize).cacheMap.lookup file = none := by
    rw [hlook, if_neg hnot, hnew]
  rw [hA.insertFile_eq, if_neg (not_le.mpr hlt), if_pos hev] at hs'
  have hshort : IsReach s.sizeOf (s.missing stSize) s.unpinned (s.victims stSize) :=
    reach_isReach _ _ _
  by_cases hfits : stSize ≤ s.freeSpace + total s.sizeOf (s.victims stSize)
  · rw [if_pos hfits, insertNode_of_none t buf hnew₁] at hs'
    subst hs'
    refine ⟨s.victims stSize, hO, hshort, fun f hf => ?_, fun f hf hne => ?_, fun f a ha => ?_,
      fun _ => ⟨rfl, ?_, ?_⟩, fun hno => absurd hfits hno⟩
    · have hne : f ≠ file := fun heq => hnot (heq ▸ hf)
      show ((s.evicted stSize).cacheMap.insert file _).lookup f = none
      rw [AList.lookup_insert_ne hne, hlook, if_pos hf]
    · show ((s.evicted stSize).cacheMap.insert file _).lookup f = _
      rw [AList.lookup_insert_ne hne, hlook, if_neg hf]
    · exact setNode_of_ne s _ (Nat.ne_of_lt (hA.node f a ha).1)
    · exact AList.lookup_insert _
    · exact setNode_same s _ _
  · rw [if_neg hfits] at hs'
    subst hs'
    refine ⟨s.victims stSize, hO, hshort, fun f hf => ?_, fun f hf hne => ?_, fun f a ha => rfl,
      fun hyes => absurd hyes hfits, fun _ => ⟨rfl, hnew₁⟩⟩
    · exact (hlook f).trans (if_pos hf)
    · exact (hlook f).trans (if_neg hf)

/-- Thread 0 has pinned and unpinned `a` and has read `b`. -/
def beforeEviction : List Act :=
  pinSix 0 "a" ++ [.tick 0, .unpin (some 0), .pin 0 "b",
    .load 0 6 (fun _ _ => 0) [[1, 2, 3, 4, 5, 6]]]

/-- The thread has read a file of this size. -/
def hasRead (t : Tid) (file : String) (stSize : ℕ) (s : State) : Bool :=
  match s.pc t with
  | .insert g size _ => g = file && size = stSize
  | _ => false

theorem beforeEviction_fifo : ∃ s s' buf evicted, (machine 1).Reachable s
    ∧ s.pinnedFiles = ["a"] ∧ FifoEviction s "b" 6 buf s' evicted := by
  have hrun : ((machine 1).exec (fun _ _ => True) emptyCache beforeEviction).any (fun s =>
      s.pinnedFiles = ["a"] && s.cacheMap.lookup "b" = none && s.evicts 6 && s.locked = false
        && hasRead 0 "b" 6 s) = true := by
    decide +kernel
  obtain ⟨s, hs, hp⟩ := Lts.ReachableBy.exec_any (.init emptyCache_initial) hrun
  simp only [Bool.and_eq_true, decide_eq_true_eq] at hp
  obtain ⟨⟨⟨⟨hfiles, hnew⟩, hev⟩, hlock⟩, hpc⟩ := hp
  unfold hasRead at hpc
  split at hpc
  · rename_i file stSize buf hinsert
    simp only [Bool.and_eq_true, decide_eq_true_eq] at hpc
    obtain ⟨rfl, rfl⟩ := hpc
    have hstep : step 1 s (.tick 0) = some (s.insertFile 0 "b" 6 buf) := by
      simp [step, tick, hinsert, hlock]
    obtain ⟨evicted, hfifo⟩ := eviction_fifo hs hinsert hnew hev hstep
    exact ⟨s, _, buf, evicted, hs, hfiles, hfifo⟩
  · cases hpc

end FileCache

end HttpServer
