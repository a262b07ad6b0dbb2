import HttpServer.FileCache

/-!
# The accounts of the file cache

`Move` lists the steps of the cache. The section that inserts a file
makes room first (`Room`: not at all, or by the eviction loop) and then
inserts the node or gives up. `Acct` relates the map, the list and the
byte counter; making room, inserting and all the rest keep it.
-/

namespace HttpServer

namespace FileCache

variable {n : ℕ} {s s' : State} {l : Act}

theorem int32_range (x : ℤ) : -2 ^ 31 ≤ int32 x ∧ int32 x < 2 ^ 31 := by
  unfold int32
  have hle := Int.le_bmod (x := x) (m := 2 ^ 32) (by decide)
  have hlt := Int.bmod_lt (x := x) (m := 2 ^ 32) (by decide)
  omega

/-- What an `int` can hold it keeps. -/
theorem int32_of_range {x : ℤ} (h0 : -2 ^ 31 ≤ x) (h1 : x < 2 ^ 31) : int32 x = x := by
  unfold int32
  exact Int.bmod_eq_of_le (by omega) (by omega)

/-! ## Moves -/

/-- The section has made room for `stSize` bytes as far as it could. -/
inductive Room (s : State) (stSize : ℕ) : State → Prop where
  | enough (h : s.cacheSize - s.bytesUsed ≥ stSize) : Room s stSize s
  | none (h : s.evicts stSize = false) : Room s stSize s
  | evict (e : Evicted) (h : s.evicts stSize = true) (he : s.evict stSize = some e) :
      Room s stSize
        { s with cacheMap := e.cacheMap, bytesUsed := e.bytesUsed, pinnedFiles := e.files }

inductive Move (n : ℕ) (s : State) : Act → State → Prop where
  | hit {t file a} (ht : t < n) (h : s.pc t = .idle) (hf : s.cacheMap.lookup file = some a) :
      Move n s (.pin t file) (s.goto t (.hit a))
  | miss {t file} (ht : t < n) (h : s.pc t = .idle) (hf : s.cacheMap.lookup file = none) :
      Move n s (.pin t file) (s.goto t (.miss file))
  | raise {t a} (h : s.pc t = .hit a) :
      Move n s (.tick t)
        ((s.setNode a { s.node a with countUnpin := int32 ((s.node a).countUnpin + 1) }).goto t
          (.countHit (some a)))
  | insert {t file stSize buf s₁} (h : s.pc t = .insert file stSize buf) (hroom : Room s stSize s₁)
      (hfree : s₁.cacheSize - s₁.bytesUsed ≥ stSize) :
      Move n s (.tick t) (s₁.insertNode t file buf)
  | fail {t file stSize buf s₁} (h : s.pc t = .insert file stSize buf) (hroom : Room s stSize s₁) :
      Move n s (.tick t) (s₁.goto t .countFailed)
  | fault {t file stSize buf} (h : s.pc t = .insert file stSize buf) (he : s.evict stSize = none) :
      Move n s (.tick t) { s with fault := true }
  | countHit {t h} (hpc : s.pc t = .countHit h) :
      Move n s (.tick t) ({ s with hitsTotal := s.hitsTotal + 1 }.goto t (.countPin h))
  | countFailed {t} (h : s.pc t = .countFailed) :
      Move n s (.tick t) ({ s with failedTotal := s.failedTotal + 1 }.goto t (.countPin none))
  | retNone {t} (h : s.pc t = .countPin none) :
      Move n s (.tick t) ({ s with pinsTotal := s.pinsTotal + 1 }.goto t .idle)
  | retSome {t a} (h : s.pc t = .countPin (some a)) :
      Move n s (.tick t) ({ s with
        pinsTotal := s.pinsTotal + 1
        returned := Function.update s.returned a (s.returned a + 1) }.goto t .idle)
  | openFail {t file} (h : s.pc t = .miss file) :
      Move n s (.openFail t) (s.goto t (.countPin none))
  | readFail {t file} (h : s.pc t = .miss file) : Move n s (.readFail t) (s.goto t .idle)
  | load {t file stSize heap reads buf} (h : s.pc t = .miss file)
      (hload : load stSize heap reads = some buf) :
      Move n s (.load t stSize heap reads) (s.goto t (.insert file stSize buf))
  | unpin (h : Option ℕ) (ha : ∀ a ∈ h, a < s.allocs) : Move n s (.unpin h) (s.unpin h)

theorem evictLoop_free {node : ℕ → Node} {maxSize : ℤ} {stSize : ℕ} :
    ∀ {files : List String} {m : CacheMap} {used free : ℤ} {e : Evicted}, free = maxSize - used →
      evictLoop node maxSize stSize files m used free = some e →
      e.freeSpace = maxSize - e.bytesUsed := by
  intro files
  induction files with
  | nil =>
      intro m used free e hfree he
      obtain rfl := Option.some.inj he
      exact hfree
  | cons file files ih =>
      intro m used free e hfree he
      rw [evictLoop] at he
      split at he
      · cases he
      · split at he
        · simp only at he
          split at he
          · obtain rfl := Option.some.inj he
            rfl
          · exact ih rfl he
        · split at he
          · obtain rfl := Option.some.inj he
            exact hfree
          · obtain ⟨e', he', rfl⟩ := Option.map_eq_some_iff.mp he
            show e'.freeSpace = maxSize - e'.bytesUsed
            exact ih hfree he'

theorem insertFile_move {t : Tid} {file : String} {stSize : ℕ} {buf : Buffer}
    (h : s.pc t = .insert file stSize buf) :
    Move n s (.tick t) (s.insertFile t file stSize buf) := by
  unfold State.insertFile
  by_cases hfree : s.cacheSize - s.bytesUsed ≥ stSize
  · rw [if_pos hfree]
    exact .insert h (.enough hfree) hfree
  · rw [if_neg hfree]
    cases hev : s.evicts stSize with
    | false => exact .fail h (.none hev)
    | true =>
        rw [if_pos rfl]
        split
        · exact .fault h ‹_›
        · rename_i e he
          simp only
          split
          · rename_i hfree'
            refine .insert h (.evict e hev he) ?_
            rw [evictLoop_free rfl he] at hfree'
            exact hfree'
          · exact .fail h (.evict e hev he)

theorem tick_move {t : Tid} (h : tick s t = some s') : Move n s (.tick t) s' := by
  unfold tick at h
  split at h
  case h_1 a hpc =>
    obtain rfl := Option.some.inj h
    exact .raise hpc
  case h_2 file stSize buf hpc =>
    split at h
    · cases h
    · obtain rfl := Option.some.inj h
      exact insertFile_move hpc
  case h_3 hpc =>
    obtain rfl := Option.some.inj h
    exact .countHit hpc
  case h_4 hpc =>
    obtain rfl := Option.some.inj h
    exact .countFailed hpc
  case h_5 hpc =>
    obtain rfl := Option.some.inj h
    exact .retNone hpc
  case h_6 hpc =>
    obtain rfl := Option.some.inj h
    exact .retSome hpc
  case h_7 => cases h

theorem step_move (h : step n s l = some s') : Move n s l s' := by
  cases l with
  | pin t file =>
      cases hpc : s.pc t with
      | idle =>
          simp only [step, hpc] at h
          split at h
          · rename_i hc
            obtain rfl := Option.some.inj h
            unfold State.lookup
            split
            · exact .hit hc.1 hpc ‹_›
            · exact .miss hc.1 hpc ‹_›
          · cases h
      | _ =>
          simp only [step, hpc] at h
          cases h
  | tick t => exact tick_move h
  | openFail t =>
      cases hpc : s.pc t with
      | miss file =>
          simp only [step, hpc] at h
          obtain rfl := Option.some.inj h
          exact .openFail hpc
      | _ =>
          simp only [step, hpc] at h
          cases h
  | readFail t =>
      cases hpc : s.pc t with
      | miss file =>
          simp only [step, hpc] at h
          obtain rfl := Option.some.inj h
          exact .readFail hpc
      | _ =>
          simp only [step, hpc] at h
          cases h
  | load t stSize heap reads =>
      cases hpc : s.pc t with
      | miss file =>
          simp only [step, hpc] at h
          obtain ⟨buf, hbuf, rfl⟩ := Option.map_eq_some_iff.mp h
          exact .load hpc hbuf
      | _ =>
          simp only [step, hpc] at h
          cases h
  | unpin h' =>
      rw [step] at h
      split at h
      · rename_i hc
        obtain rfl := Option.some.inj h
        exact .unpin h' hc.2
      · cases h

/-! ## What an operation leaves as it is -/

/-- The size of the cache and the counters of calls are the same. -/
structure Kept (s s' : State) : Prop where
  cacheSize : s'.cacheSize = s.cacheSize
  pinsTotal : s'.pinsTotal = s.pinsTotal
  hitsTotal : s'.hitsTotal = s.hitsTotal
  failedTotal : s'.failedTotal = s.failedTotal

/-- The counter of unpinned bytes, the lock and the log are the same as
well. -/
structure Quiet (s s' : State) : Prop extends Kept s s' where
  bytesUnpinnedFiles : s'.bytesUnpinnedFiles = s.bytesUnpinnedFiles
  locked : s'.locked = s.locked
  fatals : s'.fatals = s.fatals

theorem Quiet.refl (s : State) : Quiet s s := ⟨⟨rfl, rfl, rfl, rfl⟩, rfl, rfl, rfl⟩

theorem Quiet.trans {s₁ : State} (h₁ : Quiet s s₁) (h₂ : Quiet s₁ s') : Quiet s s' :=
  ⟨⟨h₂.cacheSize.trans h₁.cacheSize, h₂.pinsTotal.trans h₁.pinsTotal,
    h₂.hitsTotal.trans h₁.hitsTotal, h₂.failedTotal.trans h₁.failedTotal⟩,
    h₂.bytesUnpinnedFiles.trans h₁.bytesUnpinnedFiles, h₂.locked.trans h₁.locked,
    h₂.fatals.trans h₁.fatals⟩

theorem Room.quiet {stSize : ℕ} {s₁ : State} (hr : Room s stSize s₁) : Quiet s s₁ := by
  cases hr with
  | enough _ => exact .refl s
  | none _ => exact .refl s
  | evict e _ _ => exact ⟨⟨rfl, rfl, rfl, rfl⟩, rfl, rfl, rfl⟩

theorem insertNode_quiet (s : State) (t : Tid) (file : String) (buf : Buffer) :
    Quiet s (s.insertNode t file buf) := by
  unfold State.insertNode
  simp only
  split
  · exact ⟨⟨rfl, rfl, rfl, rfl⟩, rfl, rfl, rfl⟩
  · exact ⟨⟨rfl, rfl, rfl, rfl⟩, rfl, rfl, rfl⟩

/-- `unpin` of a handle lowers the count of the file's node, or finds no
node with a pin and reports it. -/
theorem unpin_cases (s : State) (b : ℕ) :
    (∃ a, s.cacheMap.lookup (s.node b).fileName = some a ∧ (s.node a).countUnpin > 0
      ∧ s.unpin (some b)
        = { s.setNode a { s.node a with countUnpin := (s.node a).countUnpin - 1 } with
            returned := Function.update s.returned b (s.returned b - 1)
            bytesUnpinnedFiles := int32 (s.bytesUnpinnedFiles + (s.node a).buf.byteCount) })
    ∨ ∃ e, (∀ a, s.cacheMap.lookup (s.node b).fileName = some a → ¬(s.node a).countUnpin > 0)
      ∧ s.unpin (some b) = { s with
          returned := Function.update s.returned b (s.returned b - 1)
          fatals := s.fatals ++ [e] } := by
  cases hlook : s.cacheMap.lookup (s.node b).fileName with
  | none =>
      refine .inr ⟨.evicted, fun a ha => ?_, ?_⟩
      · cases ha
      · simp only [State.unpin, hlook]
  | some a =>
      by_cases hpos : (s.node a).countUnpin > 0
      · refine .inl ⟨a, rfl, hpos, ?_⟩
        simp only [State.unpin, hlook, if_pos hpos]
        rfl
      · refine .inr ⟨.unpinnedBefore, fun c hc => ?_, ?_⟩
        · obtain rfl := Option.some.inj hc
          exact hpos
        · simp only [State.unpin, hlook, if_neg hpos]

theorem unpin_kept (s : State) (h : Option ℕ) : Kept s (s.unpin h) := by
  cases h with
  | none => exact ⟨rfl, rfl, rfl, rfl⟩
  | some b =>
      rcases unpin_cases s b with ⟨a, -, -, heq⟩ | ⟨e, -, heq⟩
      · rw [heq]
        exact ⟨rfl, rfl, rfl, rfl⟩
      · rw [heq]
        exact ⟨rfl, rfl, rfl, rfl⟩

/-! ## The bytes in the map -/

/-- The sum of a weight over the nodes in the map. -/
def sumNodes (w : Node → ℕ) (node : ℕ → Node) (m : CacheMap) : ℕ :=
  (m.entries.map fun e => w (node e.2)).sum

theorem sumNodes_congr {w : Node → ℕ} {node node' : ℕ → Node} {m : CacheMap}
    (h : ∀ f a, m.lookup f = some a → w (node' a) = w (node a)) :
    sumNodes w node' m = sumNodes w node m := by
  unfold sumNodes
  congr 1
  exact List.map_congr_left fun e he => h e.1 e.2 (AList.mem_lookup_iff.mpr he)

theorem sumNodes_insert (w : Node → ℕ) {node : ℕ → Node} {m : CacheMap} {f : String} {a : ℕ}
    (h : m.lookup f = none) :
    sumNodes w node (m.insert f a) = w (node a) + sumNodes w node m := by
  unfold sumNodes
  rw [AList.entries_insert_of_notMem (AList.lookup_eq_none.mp h), List.map_cons, List.sum_cons]

theorem sumNodes_erase (w : Node → ℕ) (node : ℕ → Node) {m : CacheMap} {f : String} {a : ℕ}
    (h : m.lookup f = some a) :
    sumNodes w node m = w (node a) + sumNodes w node (m.erase f) := by
  have hmem : f ∈ m.entries.keys := AList.lookup_isSome.mp (by rw [h]; rfl)
  obtain ⟨b, l₁, l₂, hnot, hl, he⟩ := List.exists_of_kerase hmem
  have hb : b = a := by
    have hlook : m.entries.dlookup f = some a := h
    rw [hl, List.dlookup_append, List.dlookup_eq_none.mpr hnot, Option.none_or,
      List.dlookup_cons_eq] at hlook
    exact Option.some.inj hlook
  subst hb
  have he' : (m.erase f).entries = l₁ ++ l₂ := he
  unfold sumNodes
  rw [he', hl]
  simp only [List.map_append, List.map_cons, List.sum_append, List.sum_cons]
  omega

/-- The sum of `byteCount()` over the nodes in the map. -/
def usedBytes (node : ℕ → Node) (m : CacheMap) : ℕ :=
  (m.entries.map fun e => (node e.2).buf.byteCount).sum

theorem usedBytes_congr {node node' : ℕ → Node} {m : CacheMap}
    (h : ∀ f a, m.lookup f = some a → (node' a).buf = (node a).buf) :
    usedBytes node' m = usedBytes node m :=
  sumNodes_congr (w := fun x => x.buf.byteCount) fun f a ha =>
    congrArg Buffer.byteCount (h f a ha)

theorem usedBytes_insert {node : ℕ → Node} {m : CacheMap} {f : String} {a : ℕ}
    (h : m.lookup f = none) :
    usedBytes node (m.insert f a) = (node a).buf.byteCount + usedBytes node m :=
  sumNodes_insert (fun x => x.buf.byteCount) h

theorem usedBytes_erase (node : ℕ → Node) {m : CacheMap} {f : String} {a : ℕ}
    (h : m.lookup f = some a) :
    usedBytes node m = (node a).buf.byteCount + usedBytes node (m.erase f) :=
  sumNodes_erase (fun x => x.buf.byteCount) node h

/-! ## Making room -/

/-- What the eviction loop over the files `files` does: it never misses
one in the map, evicts only files that are not pinned, and keeps the
account. -/
structure EvictSpec (node : ℕ → Node) (files : List String) (m : CacheMap) (e : Evicted) :
    Prop where
  used : e.bytesUsed = usedBytes node e.cacheMap
  le : usedBytes node e.cacheMap ≤ usedBytes node m
  sublist : e.files.Sublist files
  lookup : ∀ f, e.cacheMap.lookup f = if f ∈ files ∧ f ∉ e.files then none else m.lookup f
  unpinned : ∀ f ∈ files, f ∉ e.files → ∀ a, m.lookup f = some a → (node a).countUnpin = 0

section

variable {node : ℕ → Node} {file : String} {files : List String} {m : CacheMap} {e : Evicted}

/-- The loop ends. -/
theorem EvictSpec.stop {used free : ℤ} (h : used = usedBytes node m) :
    EvictSpec node files m ⟨files, m, used, free⟩ := by
  refine ⟨h, Nat.le_refl _, List.Sublist.refl _, fun f => ?_, fun f hf hnot => absurd hf hnot⟩
  rw [if_neg fun hc => hc.2 hc.1]

/-- The first file is evicted. -/
theorem EvictSpec.evict {a : ℕ} (h : EvictSpec node files (m.erase file) e) (hfile : file ∉ files)
    (ha : m.lookup file = some a) (hcount : (node a).countUnpin = 0) :
    EvictSpec node (file :: files) m e := by
  have hlook : ∀ f, (m.erase file).lookup f = if f = file then none else m.lookup f := by
    intro f
    by_cases hf : f = file
    · rw [if_pos hf, hf, AList.lookup_erase]
    · rw [if_neg hf, AList.lookup_erase_ne hf]
  refine ⟨h.used, ?_, h.sublist.cons _, fun f => ?_, fun f hf hnot b hb => ?_⟩
  · have hle := h.le
    have herase := usedBytes_erase node ha
    omega
  · rw [h.lookup, hlook]
    by_cases hf : f = file
    · have : file ∉ e.files := fun hin => hfile (h.sublist.subset hin)
      simp [hf, this]
    · simp [hf]
  · rcases List.mem_cons.mp hf with rfl | hf
    · obtain rfl := Option.some.inj (ha.symm.trans hb)
      exact hcount
    · refine h.unpinned f hf hnot b ?_
      rw [hlook, if_neg]
      · exact hb
      · intro heq
        exact hfile (heq ▸ hf)

/-- The first file is pinned and stays. -/
theorem EvictSpec.keep (h : EvictSpec node files m e) (hfile : file ∉ files) :
    EvictSpec node (file :: files) m { e with files := file :: e.files } := by
  refine ⟨h.used, h.le, h.sublist.cons_cons _, fun f => ?_, fun f hf hnot b hb => ?_⟩
  · show e.cacheMap.lookup f = _
    rw [h.lookup]
    by_cases hf : f = file
    · subst hf
      simp [hfile]
    · simp [hf]
  · rcases List.mem_cons.mp hf with rfl | hf
    · exact absurd (List.mem_cons_self ..) hnot
    · exact h.unpinned f hf (fun hin => hnot (List.mem_cons_of_mem _ hin)) b hb

end

theorem evictLoop_spec {node : ℕ → Node} {maxSize : ℤ} {stSize : ℕ} :
    ∀ (files : List String) (m : CacheMap) (used free : ℤ), files.Nodup →
      (∀ f ∈ files, f ∈ m) → used = usedBytes node m →
      ∃ e, evictLoop node maxSize stSize files m used free = some e
        ∧ EvictSpec node files m e := by
  intro files
  induction files with
  | nil =>
      intro m used free _ _ hused
      exact ⟨_, rfl, .stop hused⟩
  | cons file files ih =>
      intro m used free hnd hmem hused
      obtain ⟨hfile, hnd⟩ := List.nodup_cons.mp hnd
      obtain ⟨a, ha⟩ := Option.isSome_iff_exists.mp (AList.lookup_isSome.mpr (hmem file (by simp)))
      simp only [evictLoop, ha]
      by_cases hcount : (node a).countUnpin = 0
      · rw [if_pos hcount]
        have hused' : used - (node a).buf.byteCount = (usedBytes node (m.erase file) : ℤ) := by
          rw [hused, usedBytes_erase node ha]
          push_cast
          omega
        split
        · exact ⟨_, rfl, EvictSpec.evict (.stop hused') hfile ha hcount⟩
        · obtain ⟨e, he, hspec⟩ := ih (m.erase file) (used - (node a).buf.byteCount)
            (maxSize - (used - (node a).buf.byteCount)) hnd
            (fun f hf => AList.mem_erase.mpr
              ⟨fun heq => hfile (heq ▸ hf), hmem f (List.mem_cons_of_mem _ hf)⟩) hused'
          exact ⟨e, he, hspec.evict hfile ha hcount⟩
      · rw [if_neg hcount]
        split
        · exact ⟨_, rfl, .stop hused⟩
        · obtain ⟨e, he, hspec⟩ := ih m used free hnd
            (fun f hf => hmem f (List.mem_cons_of_mem _ hf)) hused
          exact ⟨{ e with files := file :: e.files }, by rw [he]; rfl, hspec.keep hfile⟩

/-! ## Reading a file -/

theorem readLoop_spec : ∀ {reads : List (List UInt8)} {toRead : ℕ} {b b' : Buffer}, b.Inv →
    b.content = [] → readLoop reads toRead b = some b' → b'.Inv ∧ b'.content = [] := by
  intro reads
  induction reads with
  | nil =>
      intro toRead b b' h hc he
      rw [readLoop] at he
      split at he
      · obtain rfl := Option.some.inj he
        exact ⟨h, hc⟩
      · cases he
  | cons bytes reads ih =>
      intro toRead b b' h hc he
      simp only [readLoop] at he
      split at he
      · obtain ⟨hinv, hcont, -⟩ := Buffer.reserve_spec h Buffer.BlockSize
        obtain ⟨hinv', hcont', -⟩ := Buffer.store_spec hinv bytes
        exact ih hinv' (hcont'.trans (hcont.trans hc)) he
      · cases he

/-- A loaded buffer holds at most `st_size` bytes. -/
theorem load_byteCount {stSize : ℕ} {heap : ℕ → ℕ → UInt8} {reads : List (List UInt8)}
    {buf : Buffer} (h : load stSize heap reads = some buf) : buf.byteCount ≤ stSize := by
  obtain ⟨b, hb, rfl⟩ := Option.map_eq_some_iff.mp h
  obtain ⟨hinv, hcont⟩ := readLoop_spec (Buffer.new_inv heap).1 (Buffer.new_inv heap).2 hb
  obtain ⟨hinv', -, hsucc, hfail⟩ := Buffer.advance_spec hinv stSize
  rw [Buffer.byteCount_eq hinv']
  cases hadv : (b.advance stSize).2 with
  | false =>
      rw [hfail hadv, hcont]
      exact Nat.zero_le _
  | true =>
      rw [hsucc hadv, hcont]
      simp [Buffer.atWritePtr]

/-! ## The invariant -/

structure Acct (s : State) : Prop where
  nodup : s.pinnedFiles.Nodup
  mem : ∀ f, f ∈ s.pinnedFiles ↔ f ∈ s.cacheMap
  used : s.bytesUsed = usedBytes s.node s.cacheMap
  le : s.bytesUsed ≤ s.cacheSize
  node : ∀ f a, s.cacheMap.lookup f = some a → a < s.allocs ∧ (s.node a).fileName = f
  loaded : ∀ t file stSize buf, s.pc t = .insert file stSize buf → buf.byteCount ≤ stSize
  fault : s.fault = false

@[simp] theorem goto_pc_same (x : State) (t : Tid) (pc : Pc) : (x.goto t pc).pc t = pc :=
  Function.update_self ..

theorem goto_pc_of_ne (x : State) {t u : Tid} (pc : Pc) (h : u ≠ t) :
    (x.goto t pc).pc u = x.pc u :=
  Function.update_of_ne h ..

theorem setNode_same (x : State) (a : ℕ) (y : Node) : (x.setNode a y).node a = y :=
  Function.update_self ..

theorem setNode_of_ne (x : State) {a b : ℕ} (y : Node) (h : b ≠ a) :
    (x.setNode a y).node b = x.node b :=
  Function.update_of_ne h ..

/-- What the new node has in common with the old one, all nodes keep. -/
theorem setNode_keeps {β : Type} (g : Node → β) (x : State) {a : ℕ} {y : Node}
    (h : g y = g (x.node a)) (b : ℕ) : g ((x.setNode a y).node b) = g (x.node b) := by
  by_cases hb : b = a
  · rw [hb, setNode_same, h]
  · rw [setNode_of_ne _ _ hb]

theorem Initial.acct (h : Initial s) : Acct s := by
  refine ⟨?_, fun f => ?_, ?_, ?_, fun f a ha => ?_, fun t file stSize buf hpc => ?_, h.fault⟩
  · rw [h.pinnedFiles]
    exact List.nodup_nil
  · simp [h.pinnedFiles, h.cacheMap]
  · rw [h.bytesUsed, h.cacheMap]
    rfl
  · rw [h.bytesUsed]
    exact h.cacheSize
  · rw [h.cacheMap, AList.lookup_empty] at ha
    cases ha
  · rw [h.pc t] at hpc
    cases hpc

/-- The eviction loop on the whole list. -/
theorem Acct.evict (h : Acct s) (stSize : ℕ) :
    ∃ e, s.evict stSize = some e ∧ EvictSpec s.node s.pinnedFiles s.cacheMap e :=
  evictLoop_spec s.pinnedFiles s.cacheMap s.bytesUsed _ h.nodup (fun f hf => (h.mem f).mp hf) h.used

theorem Acct.evictSpec {stSize : ℕ} {e : Evicted} (h : Acct s) (he : s.evict stSize = some e) :
    EvictSpec s.node s.pinnedFiles s.cacheMap e := by
  obtain ⟨e', he', hspec⟩ := h.evict stSize
  obtain rfl := Option.some.inj (he.symm.trans he')
  exact hspec

theorem Acct.evict_ne_none (h : Acct s) (stSize : ℕ) : s.evict stSize ≠ none := by
  obtain ⟨e, he, -⟩ := h.evict stSize
  rw [he]
  exact Option.some_ne_none e

theorem EvictSpec.lookup_of_some {node : ℕ → Node} {files : List String} {m : CacheMap}
    {e : Evicted} (h : EvictSpec node files m e) {f : String} {a : ℕ}
    (ha : e.cacheMap.lookup f = some a) : m.lookup f = some a := by
  rw [h.lookup] at ha
  split at ha
  · cases ha
  · exact ha

theorem Acct.room {stSize : ℕ} {s₁ : State} (h : Acct s) (hr : Room s stSize s₁) : Acct s₁ := by
  cases hr with
  | enough _ => exact h
  | none _ => exact h
  | evict e hev he =>
      have hspec := h.evictSpec he
      refine ⟨hspec.sublist.nodup h.nodup, fun f => ?_, hspec.used, ?_, fun f a ha => ?_, h.loaded,
        h.fault⟩
      · show f ∈ e.files ↔ f ∈ e.cacheMap
        rw [← AList.lookup_isSome, hspec.lookup]
        constructor
        · intro hf
          rw [if_neg fun hc => hc.2 hf, AList.lookup_isSome, ← h.mem]
          exact hspec.sublist.subset hf
        · intro hsome
          by_contra hf
          split at hsome
          · cases hsome
          · rename_i hno
            exact hno ⟨(h.mem f).mpr (AList.lookup_isSome.mp hsome), hf⟩
      · show e.bytesUsed ≤ s.cacheSize
        have hle := hspec.le
        have hmax := h.le
        rw [h.used] at hmax
        rw [hspec.used]
        omega
      · exact h.node f a (hspec.lookup_of_some ha)

/-- A step of `t` that changes neither the map nor the list. -/
theorem Acct.keep {x : State} {t : Tid} {pc : Pc} (h : Acct s) (hmap : x.cacheMap = s.cacheMap)
    (hfiles : x.pinnedFiles = s.pinnedFiles) (hused : x.bytesUsed = s.bytesUsed)
    (hsize : x.cacheSize = s.cacheSize) (hallocs : s.allocs ≤ x.allocs)
    (hnode : ∀ a < s.allocs, (x.node a).fileName = (s.node a).fileName
      ∧ (x.node a).buf = (s.node a).buf)
    (hpcs : x.pc = s.pc) (hfault : x.fault = s.fault)
    (hpc : ∀ file stSize buf, pc = .insert file stSize buf → buf.byteCount ≤ stSize) :
    Acct (x.goto t pc) := by
  refine ⟨?_, fun f => ?_, ?_, ?_, fun f a ha => ?_, fun u file stSize buf hu => ?_, ?_⟩
  · show x.pinnedFiles.Nodup
    rw [hfiles]
    exact h.nodup
  · show f ∈ x.pinnedFiles ↔ f ∈ x.cacheMap
    rw [hfiles, hmap]
    exact h.mem f
  · show x.bytesUsed = usedBytes x.node x.cacheMap
    rw [hused, hmap, h.used,
      usedBytes_congr fun f a ha => (hnode a (h.node f a ha).1).2]
  · show x.bytesUsed ≤ x.cacheSize
    rw [hused, hsize]
    exact h.le
  · have ha' : s.cacheMap.lookup f = some a := hmap ▸ ha
    obtain ⟨hlt, hname⟩ := h.node f a ha'
    exact ⟨Nat.lt_of_lt_of_le hlt hallocs, (hnode a hlt).1.trans hname⟩
  · by_cases hut : u = t
    · rw [hut, goto_pc_same] at hu
      exact hpc file stSize buf hu
    · rw [goto_pc_of_ne _ _ hut, hpcs] at hu
      exact h.loaded u file stSize buf hu
  · show x.fault = false
    rw [hfault]
    exact h.fault

theorem Acct.insertNode {t : Tid} {file : String} {stSize : ℕ} {buf : Buffer} (h : Acct s)
    (hbuf : buf.byteCount ≤ stSize) (hfree : s.cacheSize - s.bytesUsed ≥ stSize) :
    Acct (s.insertNode t file buf) := by
  have hnode : ∀ a < s.allocs,
      (s.setNode s.allocs ⟨file, buf, 1⟩).node a = s.node a := fun a ha =>
    setNode_of_ne _ _ (Nat.ne_of_lt ha)
  have hsame : usedBytes (s.setNode s.allocs ⟨file, buf, 1⟩).node s.cacheMap
      = usedBytes s.node s.cacheMap :=
    usedBytes_congr fun f a ha => by rw [hnode a (h.node f a ha).1]
  unfold State.insertNode
  simp only
  split
  · rename_i hnone
    have hnone : s.cacheMap.lookup file = none := hnone
    refine ⟨?_, fun f => ?_, ?_, ?_, fun f a ha => ?_, fun u file' stSize' buf' hu => ?_, h.fault⟩
    · show (s.pinnedFiles ++ [file]).Nodup
      refine List.nodup_append.mpr ⟨h.nodup, List.nodup_singleton _, fun f hf g hg => ?_⟩
      rw [List.mem_singleton.mp hg]
      rintro rfl
      exact AList.lookup_eq_none.mp hnone ((h.mem f).mp hf)
    · show f ∈ s.pinnedFiles ++ [file] ↔ f ∈ s.cacheMap.insert file s.allocs
      rw [AList.mem_insert, ← h.mem, List.mem_append, List.mem_singleton]
      exact or_comm
    · show s.bytesUsed + buf.byteCount
        = usedBytes (s.setNode s.allocs ⟨file, buf, 1⟩).node (s.cacheMap.insert file s.allocs)
      rw [usedBytes_insert hnone, hsame, h.used, setNode_same]
      push_cast
      omega
    · show s.bytesUsed + buf.byteCount ≤ s.cacheSize
      omega
    · show a < s.allocs + 1 ∧ ((s.setNode s.allocs ⟨file, buf, 1⟩).node a).fileName = f
      have ha : (s.cacheMap.insert file s.allocs).lookup f = some a := ha
      by_cases hf : f = file
      · rw [hf, AList.lookup_insert] at ha
        obtain rfl := Option.some.inj ha
        rw [setNode_same, hf]
        exact ⟨Nat.lt_succ_self _, rfl⟩
      · rw [AList.lookup_insert_ne hf] at ha
        obtain ⟨hlt, hname⟩ := h.node f a ha
        rw [hnode a hlt]
        exact ⟨Nat.lt_succ_of_lt hlt, hname⟩
    · by_cases hut : u = t
      · rw [hut, goto_pc_same] at hu
        cases hu
      · rw [goto_pc_of_ne _ _ hut] at hu
        exact h.loaded u file' stSize' buf' hu
  · exact h.keep rfl rfl rfl rfl (Nat.le_succ _)
      (fun a ha => by rw [show _ = s.node a from hnode a ha]; exact ⟨rfl, rfl⟩) rfl rfl (by simp)

theorem Acct.unpin (h : Acct s) (x : Option ℕ) : Acct (s.unpin x) := by
  cases x with
  | none => exact ⟨h.nodup, h.mem, h.used, h.le, h.node, h.loaded, h.fault⟩
  | some b =>
      rcases unpin_cases s b with ⟨a, -, -, heq⟩ | ⟨e, -, heq⟩
      · rw [heq]
        have hbuf := setNode_keeps Node.buf s (a := a)
          (y := { s.node a with countUnpin := (s.node a).countUnpin - 1 }) rfl
        have hnames := setNode_keeps Node.fileName s (a := a)
          (y := { s.node a with countUnpin := (s.node a).countUnpin - 1 }) rfl
        refine ⟨h.nodup, h.mem, ?_, h.le, fun f c hc => ?_, h.loaded, h.fault⟩
        · exact h.used.trans (congrArg Nat.cast (usedBytes_congr fun f c _ => hbuf c).symm)
        · obtain ⟨hlt, hname⟩ := h.node f c hc
          exact ⟨hlt, (hnames c).trans hname⟩
      · rw [heq]
        exact ⟨h.nodup, h.mem, h.used, h.le, h.node, h.loaded, h.fault⟩

theorem Acct.move (h : Acct s) (hm : Move n s l s') : Acct s' := by
  cases hm with
  | hit ht hpc hf =>
      exact h.keep rfl rfl rfl rfl (Nat.le_refl _) (fun _ _ => ⟨rfl, rfl⟩) rfl rfl (by simp)
  | miss ht hpc hf =>
      exact h.keep rfl rfl rfl rfl (Nat.le_refl _) (fun _ _ => ⟨rfl, rfl⟩) rfl rfl (by simp)
  | @raise t a hpc =>
      refine h.keep rfl rfl rfl rfl (Nat.le_refl _) (fun c _ => ⟨?_, ?_⟩) rfl rfl (by simp)
      · exact setNode_keeps Node.fileName s (by rfl) c
      · exact setNode_keeps Node.buf s (by rfl) c
  | insert hpc hroom hfree =>
      have h₁ := h.room hroom
      exact h₁.insertNode (h.loaded _ _ _ _ hpc) hfree
  | fail hpc hroom =>
      exact (h.room hroom).keep rfl rfl rfl rfl (Nat.le_refl _) (fun _ _ => ⟨rfl, rfl⟩) rfl rfl
        (by simp)
  | @fault t file stSize buf hpc he =>
      exact absurd he (h.evict_ne_none stSize)
  | countHit hpc =>
      exact h.keep rfl rfl rfl rfl (Nat.le_refl _) (fun _ _ => ⟨rfl, rfl⟩) rfl rfl (by simp)
  | countFailed hpc =>
      exact h.keep rfl rfl rfl rfl (Nat.le_refl _) (fun _ _ => ⟨rfl, rfl⟩) rfl rfl (by simp)
  | retNone hpc =>
      exact h.keep rfl rfl rfl rfl (Nat.le_refl _) (fun _ _ => ⟨rfl, rfl⟩) rfl rfl (by simp)
  | retSome hpc =>
      exact h.keep rfl rfl rfl rfl (Nat.le_refl _) (fun _ _ => ⟨rfl, rfl⟩) rfl rfl (by simp)
  | openFail hpc =>
      exact h.keep rfl rfl rfl rfl (Nat.le_refl _) (fun _ _ => ⟨rfl, rfl⟩) rfl rfl (by simp)
  | readFail hpc =>
      exact h.keep rfl rfl rfl rfl (Nat.le_refl _) (fun _ _ => ⟨rfl, rfl⟩) rfl rfl (by simp)
  | load hpc hload =>
      refine h.keep rfl rfl rfl rfl (Nat.le_refl _) (fun _ _ => ⟨rfl, rfl⟩) rfl rfl ?_
      rintro _ _ _ ⟨rfl, rfl, rfl⟩
      exact load_byteCount hload
  | unpin x ha => exact h.unpin x

theorem reachable_acct {ok : State → Act → Prop} (h : (machine n).ReachableBy ok s) : Acct s :=
  h.invariant (fun _ => Initial.acct) fun _ _ _ hI _ hs => hI.move (step_move hs)

/-- **The accounts of the cache**, for any number of threads and any calls
of `pin` and `unpin`: `bytes_used_` is the sum over the nodes in the map
and within the size of the cache, and `PinnedFiles_` lists the keys of
the map, each once. -/
theorem cache_accounts (h : (machine n).Reachable s) :
    s.bytesUsed = usedBytes s.node s.cacheMap ∧ 0 ≤ s.bytesUsed ∧ s.bytesUsed ≤ s.cacheSize
      ∧ s.pinnedFiles.Nodup ∧ (∀ f, f ∈ s.pinnedFiles ↔ f ∈ s.cacheMap) ∧ s.fault = false := by
  have hA := reachable_acct h
  refine ⟨hA.used, ?_, hA.le, hA.nodup, hA.mem, hA.fault⟩
  rw [hA.used]
  exact Int.natCast_nonneg _

/-- A cache of ten bytes. -/
def emptyCache : State :=
  ⟨fun _ => ⟨"", Buffer.new fun _ _ => 0, 0⟩, 0, ∅, [], 10, 0, 0, 0, 0, 0, false, fun _ => .idle,
    fun _ => 0, [], false⟩

theorem emptyCache_initial : Initial emptyCache :=
  ⟨rfl, rfl, rfl, by decide, rfl, rfl, rfl, fun _ => rfl, fun _ => rfl, rfl, rfl⟩

/-- Thread `t` pins a file of six bytes that is not in the cache, up to
the section that inserts it. -/
def pinSix (t : Tid) (file : String) : List Act :=
  [.pin t file, .load t 6 (fun _ _ => 0) [[1, 2, 3, 4, 5, 6]], .tick t]

/-- Thread 0 pins and unpins `a` and then pins `b`, for which `a` is
evicted. -/
theorem evictRun_accounts : ∃ s, (machine 1).Reachable s ∧ s.pinnedFiles = ["b"] ∧ s.bytesUsed = 6
    ∧ s.bytesUsed = usedBytes s.node s.cacheMap ∧ s.bytesUsed ≤ s.cacheSize := by
  have hrun : ((machine 1).exec (fun _ _ => True) emptyCache
      (pinSix 0 "a" ++ [.tick 0, .unpin (some 0)] ++ pinSix 0 "b")).any
      (fun s => s.pinnedFiles = ["b"] && s.bytesUsed = 6) = true := by
    decide +kernel
  obtain ⟨s, hs, hp⟩ := Lts.ReachableBy.exec_any (.init emptyCache_initial) hrun
  simp only [Bool.and_eq_true, decide_eq_true_eq] at hp
  exact ⟨s, hs, hp.1, hp.2, (cache_accounts hs).1, (cache_accounts hs).2.2.1⟩

end FileCache

end HttpServer
