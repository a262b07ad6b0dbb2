import HttpServer.FileCacheInv
import Mathlib.Algebra.BigOperators.Group.Finset.Piecewise

/-!
# Pinned files stay in the cache

A caller has a handle from the moment `pin` finds the file in the map or
inserts it. The pin count of a node should be the number of its handles.
On a miss it is, because the node is inserted with the count 1. On a hit
`pin` lets the lock go and raises the count afterwards, and in between
the eviction loop of another thread takes the file for unpinned and
evicts it (`evictedHit_lost`). And the count is an `int`: raised beyond
the largest one (`wraps`) it goes on from the smallest. As long as no
eviction loop evicts a file that some thread has just found and no count
wraps, no file with a handle is evicted (`pinned_not_evicted`).

Callers pass to `unpin` what `pin` has returned, once.
-/

namespace HttpServer

namespace FileCache

variable {n : ℕ} {s s' : State} {l : Act}

/-! ## Handles -/

/-- The handle a thread has obtained in `pin`. -/
def Pc.handle : Pc → Option ℕ
  | .hit a => some a
  | .countHit h => h
  | .countPin h => h
  | _ => none

/-- The handle whose pin has been counted. -/
def Pc.counted : Pc → Option ℕ
  | .countHit h => h
  | .countPin h => h
  | _ => none

/-- The threads that have counted a pin of node `a` and have not returned
yet. -/
def counted (n : ℕ) (s : State) (a : ℕ) : ℕ :=
  ((Finset.range n).filter fun t => (s.pc t).counted = some a).card

theorem counted_goto {x : State} {t : Tid} (pc : Pc) (a : ℕ) (ht : t < n) :
    counted n (x.goto t pc) a + (if (x.pc t).counted = some a then 1 else 0)
      = counted n x a + if pc.counted = some a then 1 else 0 := by
  have hsum : ∀ y : State, counted n y a
      = ∑ u ∈ Finset.range n, if (y.pc u).counted = some a then 1 else 0 := fun y =>
    Finset.card_filter ..
  have ht' : t ∈ Finset.range n := Finset.mem_range.mpr ht
  have hnew := Finset.add_sum_erase (Finset.range n)
    (fun u => if ((x.goto t pc).pc u).counted = some a then 1 else 0) ht'
  have hold := Finset.add_sum_erase (Finset.range n)
    (fun u => if (x.pc u).counted = some a then 1 else 0) ht'
  have hrest : ∑ u ∈ (Finset.range n).erase t,
        (if ((x.goto t pc).pc u).counted = some a then 1 else 0)
      = ∑ u ∈ (Finset.range n).erase t, if (x.pc u).counted = some a then 1 else 0 := by
    refine Finset.sum_congr rfl fun u hu => ?_
    rw [goto_pc_of_ne _ _ (Finset.ne_of_mem_erase hu)]
  rw [hsum, hsum, ← hnew, ← hold, hrest]
  simp only [goto_pc_same]
  omega

theorem counted_eq_zero {a : ℕ} (h : ∀ t, (s.pc t).counted ≠ some a) : counted n s a = 0 := by
  rw [counted, Finset.card_eq_zero, Finset.filter_eq_empty_iff]
  exact fun t _ => h t

theorem Pc.handle_of_counted {pc : Pc} {a : ℕ} (h : pc.counted = some a) : pc.handle = some a := by
  cases pc with
  | countHit x => exact h
  | countPin x => exact h
  | _ => cases h

/-! ## The condition on a run -/

/-- `unpin` is called with a handle that `pin` has returned. -/
def validUnpin (s : State) : Act → Bool
  | .unpin (some h) => 0 < s.returned h
  | _ => true

/-- The files that the eviction loop of a step evicts. -/
def evictedBy (s : State) : Act → List String
  | .tick t =>
      match s.pc t with
      | .insert _ stSize _ =>
          if s.evicts stSize then
            match s.evict stSize with
            | some e => s.pinnedFiles.filter fun f => f ∉ e.files
            | none => []
          else []
      | _ => []
  | _ => []

/-- The step evicts a file that some thread has found and not yet
pinned. -/
def evictsHit (n : ℕ) (s : State) (l : Act) : Bool :=
  (List.range n).any fun t =>
    match s.pc t with
    | .hit a => (s.node a).fileName ∈ evictedBy s l
    | _ => false

/-- The step raises a pin count that an `int` has no room above. -/
def wraps (s : State) : Act → Bool
  | .tick t =>
      match s.pc t with
      | .hit a => 2 ^ 31 - 1 ≤ (s.node a).countUnpin
      | _ => false
  | _ => false

/-! ## The invariant -/

/-- The node is the one in the map under its file name. -/
def InCache (s : State) (a : ℕ) : Prop := s.cacheMap.lookup (s.node a).fileName = some a

structure Held (n : ℕ) (s : State) : Prop where
  handle : ∀ t a, (s.pc t).handle = some a → InCache s a
  returned : ∀ a, 0 < s.returned a → InCache s a
  count : ∀ f a, s.cacheMap.lookup f = some a →
    (s.node a).countUnpin = s.returned a + counted n s a
  idle : ∀ t, n ≤ t → s.pc t = .idle
  fatals : s.fatals = []

/-- The step evicts `f`, which some thread has found and not yet pinned. -/
def evictsFound (n : ℕ) (f : String) (s : State) (l : Act) : Bool :=
  f ∈ evictedBy s l && (List.range n).any fun t =>
    match s.pc t with
    | .hit a => (s.node a).fileName = f
    | _ => false

/-- The step raises the pin count of `f`, which an `int` has no room
above. -/
def wrapsCount (f : String) (s : State) : Act → Bool
  | .tick t =>
      match s.pc t with
      | .hit a => (s.node a).fileName = f && 2 ^ 31 - 1 ≤ (s.node a).countUnpin
      | _ => false
  | _ => false

theorem wrapsCount_of_wraps (h : wraps s l = false) (f : String) : wrapsCount f s l = false := by
  cases l with
  | tick t =>
      simp only [wraps, wrapsCount] at h ⊢
      cases hpc : s.pc t with
      | hit a =>
          rw [hpc] at h
          simp only at h ⊢
          rw [h, Bool.and_false]
      | _ => rfl
  | _ => rfl

theorem evictsFound_of_evictsHit (h : evictsHit n s l = false) (f : String) :
    evictsFound n f s l = false := by
  rw [evictsHit, List.any_eq_false] at h
  rw [evictsFound, Bool.and_eq_false_iff, or_iff_not_imp_left, Bool.not_eq_false,
    decide_eq_true_eq, List.any_eq_false]
  intro hf t ht
  have hno := h t ht
  cases hpc : s.pc t with
  | hit a =>
      rw [hpc] at hno
      simp only [decide_eq_true_eq] at hno ⊢
      rintro rfl
      exact hno hf
  | _ => exact Bool.false_ne_true

/-- If it is a node of `f` then the one in the map. -/
def Stored (s : State) (f : String) (a : ℕ) : Prop :=
  a < s.allocs ∧ ((s.node a).fileName = f → s.cacheMap.lookup f = some a)

/-- The invariant for one file. -/
structure HeldFile (n : ℕ) (f : String) (s : State) : Prop where
  handle : ∀ t a, (s.pc t).handle = some a → Stored s f a
  returned : ∀ a, 0 < s.returned a → Stored s f a
  count : ∀ a, s.cacheMap.lookup f = some a →
    (s.node a).countUnpin = s.returned a + counted n s a
  idle : ∀ t, n ≤ t → s.pc t = .idle

theorem Held.file (h : Held n s) (hA : Acct s) (f : String) : HeldFile n f s := by
  have hstored : ∀ a, InCache s a → Stored s f a := fun a ha =>
    ⟨(hA.node _ a ha).1, fun hname => hname ▸ ha⟩
  exact ⟨fun t a ha => hstored a (h.handle t a ha), fun a ha => hstored a (h.returned a ha),
    h.count f, h.idle⟩

/-- What holds of every file holds of the cache. -/
theorem held_of_files (h : ∀ f, HeldFile n f s) (hfatals : s.fatals = []) : Held n s :=
  ⟨fun t a ha => ((h _).handle t a ha).2 rfl, fun a ha => ((h _).returned a ha).2 rfl,
    fun f => (h f).count, (h "").idle, hfatals⟩

section HeldFile

variable {f : String}

theorem Initial.heldFile (h : Initial s) : HeldFile n f s := by
  refine ⟨fun t a ha => ?_, fun a ha => ?_, fun a ha => ?_, fun t _ => h.pc t⟩
  · rw [h.pc t] at ha
    cases ha
  · rw [h.returned a] at ha
    cases ha
  · rw [h.cacheMap, AList.lookup_empty] at ha
    cases ha

theorem HeldFile.lt (h : HeldFile n f s) {t : Tid} (ht : s.pc t ≠ .idle) : t < n := by
  by_contra hge
  exact ht (h.idle t (not_lt.mp hge))

/-- A step of `t` that leaves the map alone. -/
theorem HeldFile.step {x : State} {t : Tid} {pc : Pc} (h : HeldFile n f s) (ht : t < n)
    (hmap : x.cacheMap = s.cacheMap) (hallocs : s.allocs ≤ x.allocs)
    (hname : ∀ a < s.allocs, (x.node a).fileName = (s.node a).fileName) (hpcs : x.pc = s.pc)
    (hpc : ∀ a, pc.handle = some a → Stored s f a) (hret : ∀ a, 0 < x.returned a → Stored s f a)
    (hcount : ∀ a, s.cacheMap.lookup f = some a →
      (x.node a).countUnpin + s.returned a + (if (s.pc t).counted = some a then 1 else 0)
        = (s.node a).countUnpin + x.returned a + if pc.counted = some a then 1 else 0) :
    HeldFile n f (x.goto t pc) := by
  have hin : ∀ a, Stored s f a → Stored (x.goto t pc) f a := by
    rintro a ⟨hlt, ha⟩
    refine ⟨Nat.lt_of_lt_of_le hlt hallocs, fun hf => ?_⟩
    show x.cacheMap.lookup f = some a
    rw [hmap]
    exact ha ((hname a hlt).symm.trans hf)
  refine ⟨fun u a ha => ?_, fun a ha => hin a (hret a ha), fun a ha => ?_, fun u hu => ?_⟩
  · by_cases hut : u = t
    · rw [hut, goto_pc_same] at ha
      exact hin a (hpc a ha)
    · rw [goto_pc_of_ne _ _ hut, hpcs] at ha
      exact hin a (h.handle u a ha)
  · have ha' : s.cacheMap.lookup f = some a := hmap ▸ ha
    have hgoto := counted_goto (n := n) (x := x) pc a ht
    have hsame : counted n x a = counted n s a := by rw [counted, counted, hpcs]
    have hold := h.count a ha'
    have hnew := hcount a ha'
    rw [hsame, hpcs] at hgoto
    show (x.node a).countUnpin = x.returned a + counted n (x.goto t pc) a
    split_ifs at hgoto hnew <;> omega
  · have hut : u ≠ t := by
      rintro rfl
      exact Nat.not_lt_of_le hu ht
    rw [goto_pc_of_ne _ _ hut, hpcs]
    exact h.idle u hu

/-- A step that leaves the counts and the handles alone. -/
theorem HeldFile.quiet {x : State} {t : Tid} {pc : Pc} (h : HeldFile n f s) (hA : Acct s)
    (ht : t < n) (hmap : x.cacheMap = s.cacheMap) (hallocs : s.allocs ≤ x.allocs)
    (hnode : ∀ a < s.allocs, x.node a = s.node a) (hpcs : x.pc = s.pc)
    (hreturned : x.returned = s.returned) (hpc : ∀ a, pc.handle = some a → Stored s f a)
    (hcounted : pc.counted = (s.pc t).counted) : HeldFile n f (x.goto t pc) := by
  refine h.step ht hmap hallocs (fun a ha => by rw [hnode a ha]) hpcs hpc (fun a ha => ?_)
    fun a ha => ?_
  · rw [hreturned] at ha
    exact h.returned a ha
  · rw [hnode a (hA.node f a ha).1, hreturned, hcounted]

/-- The eviction loop evicts only nodes without a handle. -/
theorem HeldFile.room {t : Tid} {file : String} {stSize : ℕ} {buf : Buffer} {s₁ : State}
    (h : HeldFile n f s) (hA : Acct s) (hpc : s.pc t = .insert file stSize buf)
    (hr : Room s stSize s₁) (hev : evictsFound n f s (.tick t) = false) : HeldFile n f s₁ := by
  cases hr with
  | enough _ => exact h
  | none _ => exact h
  | evict e hevicts he =>
      have hspec := hA.evictSpec he
      have hby : evictedBy s (.tick t) = s.pinnedFiles.filter fun f => f ∉ e.files := by
        simp [evictedBy, hpc, hevicts, he]
      -- an evicted file has the count 0, so no handle has been counted
      have hzero : ∀ a, s.cacheMap.lookup f = some a → f ∈ evictedBy s (.tick t) →
          s.returned a = 0 ∧ counted n s a = 0 := by
        intro a ha hmem
        rw [hby, List.mem_filter, decide_eq_true_eq] at hmem
        have hcount := h.count a ha
        rw [hspec.unpinned _ hmem.1 hmem.2 a ha] at hcount
        omega
      have hkeep : ∀ a, Stored s f a →
          ((s.node a).fileName = f → f ∉ evictedBy s (.tick t)) →
          a < s.allocs ∧ ((s.node a).fileName = f → e.cacheMap.lookup f = some a) := by
        rintro a ⟨hlt, ha⟩ hnot
        refine ⟨hlt, fun hf => ?_⟩
        have hno := hnot hf
        rw [hby, List.mem_filter, decide_eq_true_eq] at hno
        rw [hspec.lookup, if_neg hno]
        exact ha hf
      refine ⟨fun u a ha => ?_, fun a ha => ?_, fun a ha => ?_, h.idle⟩
      · have hin := h.handle u a ha
        refine hkeep a hin fun hf hmem => ?_
        have hu : u < n := h.lt fun hidle => by rw [hidle] at ha; cases ha
        obtain ⟨-, hnone⟩ := hzero a (hin.2 hf) hmem
        rw [counted, Finset.card_eq_zero, Finset.filter_eq_empty_iff] at hnone
        have hnot := hnone (Finset.mem_range.mpr hu)
        cases hpcu : s.pc u with
        | hit b =>
            rw [hpcu] at ha
            obtain rfl := Option.some.inj ha
            rw [evictsFound, Bool.and_eq_false_iff, or_iff_not_imp_left, Bool.not_eq_false,
              decide_eq_true_eq, List.any_eq_false] at hev
            have hno := hev hmem u (List.mem_range.mpr hu)
            rw [hpcu] at hno
            exact hno (by simpa using hf)
        | countHit b =>
            rw [hpcu] at ha hnot
            exact hnot ha
        | countPin b =>
            rw [hpcu] at ha hnot
            exact hnot ha
        | _ =>
            rw [hpcu] at ha
            cases ha
      · have hin := h.returned a ha
        refine hkeep a hin fun hf hmem => ?_
        rw [(hzero a (hin.2 hf) hmem).1] at ha
        cases ha
      · exact h.count a (hspec.lookup_of_some ha)

theorem HeldFile.insertNode {t : Tid} {file : String} {stSize : ℕ} {buf : Buffer}
    (h : HeldFile n f s) (hA : Acct s) (hpc : s.pc t = .insert file stSize buf) :
    HeldFile n f (s.insertNode t file buf) := by
  have ht : t < n := h.lt (by simp [hpc])
  have hnode : ∀ a < s.allocs, (s.setNode s.allocs ⟨file, buf, 1⟩).node a = s.node a := fun a ha =>
    setNode_of_ne _ _ (Nat.ne_of_lt ha)
  unfold State.insertNode
  simp only
  split
  · rename_i hnone
    have hnone : s.cacheMap.lookup file = none := hnone
    have hin : ∀ a, Stored s f a → a < s.allocs + 1
        ∧ (((s.setNode s.allocs ⟨file, buf, 1⟩).node a).fileName = f →
          (s.cacheMap.insert file s.allocs).lookup f = some a) := by
      rintro a ⟨hlt, ha⟩
      refine ⟨Nat.lt_succ_of_lt hlt, fun hf => ?_⟩
      rw [hnode a hlt] at hf
      rw [AList.lookup_insert_ne]
      · exact ha hf
      · rintro rfl
        rw [ha hf] at hnone
        cases hnone
    have hnew : ∀ u, (s.pc u).handle ≠ some s.allocs := fun u hu =>
      Nat.lt_irrefl _ (h.handle u _ hu).1
    refine ⟨fun u a ha => ?_, fun a ha => hin a (h.returned a ha), fun a ha => ?_, fun u hu => ?_⟩
    · by_cases hut : u = t
      · rw [hut, goto_pc_same] at ha
        obtain rfl := Option.some.inj ha
        refine ⟨Nat.lt_succ_self _, fun hf => ?_⟩
        have hf : ((s.setNode s.allocs ⟨file, buf, 1⟩).node s.allocs).fileName = f := hf
        rw [setNode_same] at hf
        show (s.cacheMap.insert file s.allocs).lookup f = _
        rw [← hf, AList.lookup_insert]
      · rw [goto_pc_of_ne _ _ hut] at ha
        exact hin a (h.handle u a ha)
    · -- the new node has one handle, that of `t`; the others are as before
      have ha : (s.cacheMap.insert file s.allocs).lookup f = some a := ha
      show ((s.setNode s.allocs ⟨file, buf, 1⟩).node a).countUnpin
        = s.returned a + counted n (s.goto t (.countPin (some s.allocs))) a
      by_cases hf : f = file
      · rw [hf, AList.lookup_insert] at ha
        obtain rfl := Option.some.inj ha
        have hzero : counted n s s.allocs = 0 :=
          counted_eq_zero fun u hu => hnew u (Pc.handle_of_counted hu)
        have hret : s.returned s.allocs = 0 := by
          by_contra hne
          exact Nat.lt_irrefl _ (h.returned _ (Nat.pos_of_ne_zero hne)).1
        have hgo := counted_goto (n := n) (x := s) (.countPin (some s.allocs)) s.allocs ht
        simp only [hpc, hzero, Pc.counted, reduceCtorEq, if_false, if_true] at hgo
        rw [setNode_same, hret]
        show (1 : ℤ) = _
        omega
      · rw [AList.lookup_insert_ne hf] at ha
        have hlt := (hA.node f a ha).1
        have hgo := counted_goto (n := n) (x := s) (.countPin (some s.allocs)) a ht
        have hne : s.allocs ≠ a := Nat.ne_of_gt hlt
        simp only [hpc, Pc.counted, reduceCtorEq, if_false, Option.some.injEq, hne] at hgo
        rw [hnode a hlt, h.count a ha]
        omega
    · have hut : u ≠ t := by
        rintro rfl
        exact Nat.not_lt_of_le hu ht
      rw [goto_pc_of_ne _ _ hut]
      exact h.idle u hu
  · exact h.quiet hA ht rfl (Nat.le_succ _) hnode rfl rfl (by simp [Pc.handle])
      (by rw [hpc]; rfl)

/-- A step that leaves the map and the threads alone. -/
theorem HeldFile.still {x : State} (h : HeldFile n f s) (hmap : x.cacheMap = s.cacheMap)
    (hallocs : x.allocs = s.allocs) (hname : ∀ a, (x.node a).fileName = (s.node a).fileName)
    (hpcs : x.pc = s.pc) (hret : ∀ a, x.returned a ≤ s.returned a)
    (hcount : ∀ a, s.cacheMap.lookup f = some a →
      (x.node a).countUnpin + s.returned a = (s.node a).countUnpin + x.returned a) :
    HeldFile n f x := by
  have hin : ∀ a, Stored s f a → Stored x f a := by
    rintro a ⟨hlt, ha⟩
    refine ⟨hallocs ▸ hlt, fun hf => ?_⟩
    rw [hmap]
    exact ha ((hname a).symm.trans hf)
  refine ⟨fun t a ha => ?_, fun a ha => ?_, fun a ha => ?_, fun t ht => ?_⟩
  · rw [hpcs] at ha
    exact hin a (h.handle t a ha)
  · exact hin a (h.returned a (Nat.lt_of_lt_of_le ha (hret a)))
  · rw [hmap] at ha
    have hold := h.count a ha
    have hnew := hcount a ha
    have hsame : counted n x a = counted n s a := by rw [counted, counted, hpcs]
    rw [hsame]
    omega
  · rw [hpcs]
    exact h.idle t ht

/-- `unpin` of a handle that is out gives one pin back. -/
theorem HeldFile.unpin (h : HeldFile n f s) (hA : Acct s) (x : Option ℕ)
    (hv : ∀ b, x = some b → (s.node b).fileName = f → 0 < s.returned b) :
    HeldFile n f (s.unpin x) := by
  cases x with
  | none => exact h.still rfl rfl (fun _ => rfl) rfl (fun _ => Nat.le_refl _) fun _ _ => rfl
  | some b =>
      have hret : ∀ a, Function.update s.returned b (s.returned b - 1) a ≤ s.returned a := by
        intro a
        by_cases hab : a = b
        · rw [hab, Function.update_self]
          exact Nat.sub_le _ _
        · rw [Function.update_of_ne hab]
      have hother : (s.node b).fileName ≠ f → ∀ a, s.cacheMap.lookup f = some a →
          Function.update s.returned b (s.returned b - 1) a = s.returned a := by
        intro hne a ha
        have hab : a ≠ b := by
          rintro rfl
          exact hne (hA.node f a ha).2
        rw [Function.update_of_ne hab]
      obtain ⟨a, ha, -, heq⟩ | ⟨e, hno, heq⟩ := unpin_cases s b
      · rw [heq]
        refine h.still rfl rfl (fun c => ?_) rfl hret fun c hc => ?_
        · exact setNode_keeps Node.fileName s (by rfl) c
        · show ((s.setNode a { s.node a with countUnpin := (s.node a).countUnpin - 1 }).node
            c).countUnpin + s.returned c
              = (s.node c).countUnpin + Function.update s.returned b (s.returned b - 1) c
          by_cases hname : (s.node b).fileName = f
          · have hpos := hv b rfl hname
            have hb := (h.returned b hpos).2 hname
            rw [hname, hb] at ha
            obtain rfl := Option.some.inj ha
            obtain rfl := Option.some.inj (hb.symm.trans hc)
            rw [setNode_same, Function.update_self]
            show (s.node b).countUnpin - 1 + _ = _
            omega
          · have hca : c ≠ a := by
              rintro rfl
              exact hname ((hA.node _ c ha).2.symm.trans (hA.node f c hc).2)
            rw [setNode_of_ne _ _ hca, hother hname c hc]
      · -- a handle of `f` that is out has its node in the map, with a pin
        have hname : (s.node b).fileName ≠ f := fun hname => by
          have hpos := hv b rfl hname
          have hb := (h.returned b hpos).2 hname
          have heq := h.count b hb
          rw [hname] at hno
          have hcount := hno b hb
          omega
        rw [heq]
        refine h.still rfl rfl (fun _ => rfl) rfl hret fun c hc => ?_
        show (s.node c).countUnpin + s.returned c
          = (s.node c).countUnpin + Function.update s.returned b (s.returned b - 1) c
        rw [hother hname c hc]

theorem HeldFile.move (h : HeldFile n f s) (hA : Acct s) (hm : Move n s l s')
    (hv : ∀ b, l = .unpin (some b) → (s.node b).fileName = f → 0 < s.returned b)
    (hev : evictsFound n f s l = false) (hwrap : wrapsCount f s l = false) :
    HeldFile n f s' := by
  have hnode : ∀ a < s.allocs, s.node a = s.node a := fun _ _ => rfl
  cases hm with
  | @hit t file a ht hpc hf =>
      refine h.quiet hA ht rfl (Nat.le_refl _) hnode rfl rfl (fun b hb => ?_) (by rw [hpc]; rfl)
      obtain rfl := Option.some.inj hb
      obtain ⟨hlt, hname⟩ := hA.node file a hf
      exact ⟨hlt, fun hfile => by rw [← hfile, hname]; exact hf⟩
  | miss ht hpc hf =>
      exact h.quiet hA ht rfl (Nat.le_refl _) hnode rfl rfl (by simp [Pc.handle]) (by rw [hpc]; rfl)
  | @raise t a hpc =>
      refine h.step (h.lt (by simp [hpc])) rfl (Nat.le_refl _) (fun b _ => ?_) rfl (fun b hb => ?_)
        h.returned fun b hb => ?_
      · exact setNode_keeps Node.fileName s (by rfl) b
      · refine h.handle t b ?_
        rw [hpc]
        exact hb
      · show (_ : ℤ) + s.returned b + _ = _ + s.returned b + _
        by_cases hba : b = a
        · subst hba
          have hcount := h.count b hb
          have hroom : (s.node b).countUnpin < 2 ^ 31 - 1 := by
            simpa [wrapsCount, hpc, (hA.node f b hb).2] using hwrap
          have hfit : int32 ((s.node b).countUnpin + 1) = (s.node b).countUnpin + 1 :=
            int32_of_range (by omega) (by omega)
          simp only [setNode_same, hpc, Pc.counted, reduceCtorEq, if_false, if_true, hfit]
          omega
        · simp [setNode_of_ne _ _ hba, hpc, Pc.counted, Ne.symm hba]
  | @insert t file stSize buf s₁ hpc hroom hfree =>
      have hpc₁ : s₁.pc t = .insert file stSize buf := by cases hroom <;> exact hpc
      exact (h.room hA hpc hroom hev).insertNode (hA.room hroom) hpc₁
  | @fail t file stSize buf s₁ hpc hroom =>
      have hpc₁ : s₁.pc t = .insert file stSize buf := by cases hroom <;> exact hpc
      exact (h.room hA hpc hroom hev).quiet (hA.room hroom) (h.lt (by simp [hpc])) rfl
        (Nat.le_refl _) (fun _ _ => rfl) rfl rfl (by simp [Pc.handle]) (by rw [hpc₁]; rfl)
  | fault hpc he => exact ⟨h.handle, h.returned, h.count, h.idle⟩
  | @countHit t x hpc =>
      refine h.quiet hA (h.lt (by simp [hpc])) rfl (Nat.le_refl _) hnode rfl rfl (fun b hb => ?_)
        (by rw [hpc]; rfl)
      exact h.handle t b (by rw [hpc]; exact hb)
  | countFailed hpc =>
      exact h.quiet hA (h.lt (by simp [hpc])) rfl (Nat.le_refl _) hnode rfl rfl
        (by simp [Pc.handle])
        (by rw [hpc]; rfl)
  | retNone hpc =>
      exact h.quiet hA (h.lt (by simp [hpc])) rfl (Nat.le_refl _) hnode rfl rfl
        (by simp [Pc.handle])
        (by rw [hpc]; rfl)
  | @retSome t a hpc =>
      refine h.step (h.lt (by simp [hpc])) rfl (Nat.le_refl _) (fun _ _ => rfl) rfl
        (by simp [Pc.handle]) (fun b hb => ?_) fun b hb => ?_
      · by_cases hba : b = a
        · exact h.handle t b (by rw [hpc, hba]; rfl)
        · have hb : 0 < Function.update s.returned a (s.returned a + 1) b := hb
          rw [Function.update_of_ne hba] at hb
          exact h.returned b hb
      · by_cases hba : b = a
        · subst hba
          simp [hpc, Pc.counted]
          omega
        · simp [hpc, Pc.counted, hba, Ne.symm hba]
  | openFail hpc =>
      exact h.quiet hA (h.lt (by simp [hpc])) rfl (Nat.le_refl _) hnode rfl rfl
        (by simp [Pc.handle])
        (by rw [hpc]; rfl)
  | readFail hpc =>
      exact h.quiet hA (h.lt (by simp [hpc])) rfl (Nat.le_refl _) hnode rfl rfl
        (by simp [Pc.handle])
        (by rw [hpc]; rfl)
  | load hpc hload =>
      exact h.quiet hA (h.lt (by simp [hpc])) rfl (Nat.le_refl _) hnode rfl rfl
        (by simp [Pc.handle])
        (by rw [hpc]; rfl)
  | unpin x ha => exact h.unpin hA x fun b hb => hv b (congrArg _ hb)

end HeldFile

/-! ## All files -/

theorem Initial.held (h : Initial s) : Held n s := held_of_files (fun _ => h.heldFile) h.fatals

/-- `unpin` of a handle that is out finds its file pinned. -/
theorem Held.fatals_move (h : Held n s) (hm : Move n s l s') (hv : validUnpin s l = true) :
    s'.fatals = [] := by
  have hfatals := h.fatals
  cases hm with
  | insert hpc hroom hfree =>
      exact (hroom.quiet.trans (insertNode_quiet _ _ _ _)).fatals.trans hfatals
  | fail hpc hroom => exact hroom.quiet.fatals.trans hfatals
  | unpin x ha =>
      cases x with
      | none => exact hfatals
      | some b =>
          have hb : 0 < s.returned b := by simpa [validUnpin] using hv
          have hin : s.cacheMap.lookup (s.node b).fileName = some b := h.returned b hb
          have hcount := h.count _ b hin
          have hpos : (s.node b).countUnpin > 0 := by omega
          simp only [State.unpin, hin, if_pos hpos]
          exact hfatals
  | _ => exact hfatals

theorem Held.move (h : Held n s) (hA : Acct s) (hm : Move n s l s') (hv : validUnpin s l = true)
    (hev : evictsHit n s l = false) (hwrap : wraps s l = false) : Held n s' := by
  refine held_of_files (fun f => ?_) (h.fatals_move hm hv)
  refine (h.file hA f).move hA hm (fun b hb _ => ?_) (evictsFound_of_evictsHit hev f)
    (wrapsCount_of_wraps hwrap f)
  simpa [hb, validUnpin] using hv

/-- **A pinned file is never evicted.** In every run in which no eviction
loop evicts a file that some thread has found and not yet pinned, and no
pin count wraps, every file with a handle is in the map with the node of
the handle, `unpin` never fails, and when no `pin` is under way the pin
counts are the numbers of handles. -/
theorem pinned_not_evicted (h : (machine n).ReachableBy
    (fun s l => validUnpin s l = true ∧ evictsHit n s l = false ∧ wraps s l = false) s) :
    (∀ t a, (s.pc t).handle = some a → InCache s a)
      ∧ (∀ a, 0 < s.returned a → InCache s a)
      ∧ ((∀ t, s.pc t = .idle) → ∀ f a, s.cacheMap.lookup f = some a →
          (s.node a).countUnpin = s.returned a)
      ∧ s.fatals = [] := by
  have hH : Acct s ∧ Held n s := by
    refine h.invariant (I := fun s => Acct s ∧ Held n s)
      (fun s hs => ⟨Initial.acct hs, Initial.held hs⟩) ?_
    rintro s l s' ⟨hA, hH⟩ ⟨hv, hev, hwrap⟩ hs
    exact ⟨hA.move (step_move hs), hH.move hA (step_move hs) hv hev hwrap⟩
  refine ⟨hH.2.handle, hH.2.returned, fun hidle f a ha => ?_, hH.2.fatals⟩
  have hcount := hH.2.count f a ha
  rw [counted_eq_zero fun t => by rw [hidle t]; simp [Pc.counted]] at hcount
  simpa using hcount

/-! ## The file that is evicted on its hit -/

/-- Thread 0 pins and unpins `a`; thread 1 finds `a` and stops before it
raises the count. -/
def hitStart : List Act := pinSix 0 "a" ++ [.tick 0, .unpin (some 0), .pin 1 "a"]

theorem evictedHit_lost : ¬∀ s, (machine 2).ReachableBy (fun s l => validUnpin s l = true) s →
    ∀ t a, (s.pc t).handle = some a → InCache s a := by
  intro hall
  have hrun : ((machine 2).exec (fun s l => validUnpin s l = true) emptyCache
      (hitStart ++ pinSix 0 "b")).any (fun s => (s.pc 1).handle = some 0
        && s.cacheMap.lookup (s.node 0).fileName = none) = true := by
    decide +kernel
  obtain ⟨s, hs, hp⟩ := Lts.ReachableBy.exec_any (.init emptyCache_initial) hrun
  simp only [Bool.and_eq_true, decide_eq_true_eq] at hp
  have hin := hall s hs 1 0 hp.1
  rw [InCache, hp.2] at hin
  cases hin

/-- Thread 1 gets its pin counted in time; then `a` is in the cache and
`b` does not fit. -/
theorem countedHit_kept : ∃ s, (machine 2).ReachableBy
    (fun s l => validUnpin s l = true ∧ evictsHit 2 s l = false ∧ wraps s l = false) s
      ∧ (s.pc 1).handle = some 0 ∧ InCache s 0 ∧ s.cacheMap.lookup "b" = none := by
  have hrun : ((machine 2).exec
      (fun s l => validUnpin s l = true ∧ evictsHit 2 s l = false ∧ wraps s l = false)
      emptyCache (hitStart ++ [.tick 1] ++ pinSix 0 "b")).any (fun s => (s.pc 1).handle = some 0
        && s.cacheMap.lookup "b" = none) = true := by
    decide +kernel
  obtain ⟨s, hs, hp⟩ := Lts.ReachableBy.exec_any (.init emptyCache_initial) hrun
  simp only [Bool.and_eq_true, decide_eq_true_eq] at hp
  exact ⟨s, hs, hp.1, (pinned_not_evicted hs).1 1 0 hp.1, hp.2⟩

end FileCache

end HttpServer
