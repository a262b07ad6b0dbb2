import Mathlib.Data.List.Nodup
import HttpServer.LockFreeListSeq

/-!
# What a call on the list does in one thread

`Holds h nodes` says that the list is `nodes`, sorted and without marks.
A call that begins at the head, or at a node with a smaller key, finds
the place of its key (`lookupInternal_spec`) at the first attempt; what
`insert` and `remove` then do to `nodes` is said by `Added` and `Removed`.
-/

namespace HttpServer

namespace LockFreeList

open Chain

namespace Seq

variable {T : Type} {h h' : Heap T} {nodes : List Addr}

/-! ## Stores -/

namespace Heap

def next (h : Heap T) (c : Cell Addr) : Option Addr := (h.link (.cell c)).ptr

@[simp] theorem store_data (p : Place) (l : Link) : (h.store p l).data = h.data := rfl

@[simp] theorem store_value (p : Place) (l : Link) : (h.store p l).value = h.value := rfl

@[simp] theorem store_fresh (p : Place) (l : Link) : (h.store p l).fresh = h.fresh := rfl

@[simp] theorem enter_fresh (start_ : Option Addr) : (h.enter start_).fresh = h.fresh := rfl

theorem store_same (p : Place) (l : Link) : (h.store p l).link p = l := Function.update_self ..

theorem store_of_ne {p q : Place} (l : Link) (hne : q ≠ p) : (h.store p l).link q = h.link q :=
  Function.update_of_ne hne ..

theorem store_cell_of_ne {c d : Cell Addr} (l : Link) (hne : d ≠ c) :
    (h.store (.cell c) l).link (.cell d) = h.link (.cell d) :=
  store_of_ne l fun heq => hne (Place.cell.inj heq)

theorem newNode_of_ne {q : Place} (hne : q ≠ .cell (.next h.fresh)) :
    h.newNode.1.link q = h.link q :=
  store_of_ne _ hne

theorem cas_of_eq {p : Place} {old : Link} (new : Link) (heq : h.link p = old) :
    h.cas p old new = (h.store p new, true) := if_pos heq

end Heap

/-! ## The list in the heap -/

structure Holds [LinearOrder T] (h : Heap T) (nodes : List Addr) : Prop where
  path : Path h.next .head nodes
  unmarked : ∀ c ∈ Cell.head :: nodes.map Cell.next, (h.link (.cell c)).mark = false
  sorted : nodes.Pairwise fun a b => h.data a < h.data b
  allocated : ∀ a ∈ nodes, a < h.fresh

/-- The nodes of the list hold what they held before. -/
structure Frame (h h' : Heap T) (nodes : List Addr) : Prop where
  data : ∀ a ∈ nodes, h'.data a = h.data a
  value : ∀ a ∈ nodes, h'.value a = h.value a

/-- One meets the nodes `l` from the place `p` on, and no marks. -/
def Walk (h : Heap T) : Place → List Addr → Prop
  | p, [] => h.link p = ⟨none, false⟩
  | p, a :: l => h.link p = ⟨some a, false⟩ ∧ Walk h (.cell (.next a)) l

def placeAfter : Place → List Addr → Place
  | p, [] => p
  | _, a :: l => placeAfter (.cell (.next a)) l

theorem Walk.link {p : Place} {l : List Addr} (hw : Walk h p l) : h.link p = ⟨l.head?, false⟩ := by
  cases l with
  | nil => exact hw
  | cons a l => exact hw.1

theorem Walk.of_path {l : List Addr} : ∀ {c : Cell Addr}, Path h.next c l →
    (∀ d ∈ c :: l.map Cell.next, (h.link (.cell d)).mark = false) → Walk h (.cell c) l := by
  induction l with
  | nil =>
      intro c hp hm
      have hmark := hm c (List.mem_cons_self ..)
      rw [Walk, ← show (h.link (.cell c)).ptr = none from hp, ← hmark]
  | cons a l ih =>
      intro c hp hm
      have hmark := hm c (List.mem_cons_self ..)
      refine ⟨?_, ih hp.2 fun d hd => hm d (List.mem_cons_of_mem _ hd)⟩
      rw [← show (h.link (.cell c)).ptr = some a from hp.1, ← hmark]

theorem placeAfter_append (p : Place) (l₁ l₂ : List Addr) :
    placeAfter p (l₁ ++ l₂) = placeAfter (placeAfter p l₁) l₂ := by
  induction l₁ generalizing p with
  | nil => rfl
  | cons a l₁ ih => exact ih _

theorem placeAfter_of_seg {get : Cell Addr → Option Addr} {l : List Addr} :
    ∀ {c d : Cell Addr}, Seg get c l d → placeAfter (.cell c) l = .cell d := by
  induction l with
  | nil =>
      rintro c d rfl
      rfl
  | cons a l ih =>
      intro c d hs
      exact ih hs.2

section

variable [LinearOrder T] {key : T}

namespace Holds

theorem nodup (hh : Holds h nodes) : nodes.Nodup :=
  hh.sorted.imp fun hlt heq => absurd (heq ▸ hlt) (lt_irrefl _)

theorem length_lt_fuel (hh : Holds h nodes) : nodes.length < h.fuel := by
  have hsub : nodes ⊆ List.range h.fresh := fun a ha => List.mem_range.mpr (hh.allocated a ha)
  have hle := (hh.nodup.subperm hsub).length_le
  rw [List.length_range] at hle
  exact Nat.lt_succ_of_le hle

theorem inj (hh : Holds h nodes) {a b : Addr} (ha : a ∈ nodes) (hb : b ∈ nodes)
    (heq : h.data a = h.data b) : a = b := by
  have hnd : (nodes.map h.data).Nodup :=
    List.pairwise_map.mpr (hh.sorted.imp fun hlt => ne_of_lt hlt)
  exact List.inj_on_of_nodup_map hnd ha hb heq

theorem link_eq (hh : Holds h nodes) {c : Cell Addr} {l : List Addr}
    (hc : c ∈ Cell.head :: nodes.map Cell.next) (hp : Path h.next c l) :
    h.link (.cell c) = ⟨l.head?, false⟩ := by
  have hmark := hh.unmarked c hc
  have hptr : (h.link (.cell c)).ptr = l.head? := by
    cases l with
    | nil => exact hp
    | cons a l => exact hp.1
  rw [← hptr, ← hmark]

theorem link_of_seg {l₁ l₂ : List Addr} {d : Cell Addr} (hh : Holds h (l₁ ++ l₂))
    (hs : Seg h.next .head l₁ d) (hp : Path h.next d l₂) :
    h.link (.cell d) = ⟨l₂.head?, false⟩ := by
  refine hh.link_eq ?_ hp
  rw [List.map_append]
  exact List.mem_append_left _ hs.end_mem_cells

/-- A change that leaves alone the links and keys of the nodes. -/
theorem congr (hh : Holds h nodes)
    (hlink : ∀ c ∈ Cell.head :: nodes.map Cell.next, h'.link (.cell c) = h.link (.cell c))
    (hdata : ∀ a ∈ nodes, h'.data a = h.data a) (hfresh : h.fresh ≤ h'.fresh) :
    Holds h' nodes := by
  refine ⟨?_, ?_, ?_, fun a ha => lt_of_lt_of_le (hh.allocated a ha) hfresh⟩
  · refine hh.path.congr (congrArg Link.ptr (hlink _ (List.mem_cons_self ..))) fun a ha => ?_
    exact congrArg Link.ptr (hlink _ (List.mem_cons_of_mem _ (List.mem_map_of_mem ha)))
  · intro c hc
    rw [hlink c hc]
    exact hh.unmarked c hc
  · refine hh.sorted.imp_of_mem fun ha hb hlt => ?_
    rw [hdata _ ha, hdata _ hb]
    exact hlt

end Holds

/-! ## Lookup -/

/-- Where `lookupInternal` stops: between the nodes with smaller keys and
the rest. -/
inductive Stops (h : Heap T) (key : T) (value : Option ℤ) (prev : Place) :
    List Addr → Option (Lookup T) → Prop
  | found {a : Addr} {l : List Addr} (hk : h.data a = key) : Stops h key value prev (a :: l)
      (some ⟨h, prev, some a, l.head?, value.map fun _ => h.value a, true⟩)
  | notFound {l : List Addr} {next : Option Addr} (hk : ∀ a ∈ l, key < h.data a) :
      Stops h key value prev l (some ⟨h, prev, l.head?, next, value, false⟩)

theorem lookupLoop_spec (start : Place) (key : T) (value : Option ℤ) {l : List Addr} :
    ∀ (next : Option Addr) {p : Place} {n : ℕ}, Walk h p l →
      l.Pairwise (fun a b => h.data a < h.data b) → l.length < n →
      ∃ l₁ l₂, l = l₁ ++ l₂ ∧ (∀ a ∈ l₁, h.data a < key)
        ∧ (∀ a, l.head? = some a → h.data a < key → l₁.head? = some a)
        ∧ Stops h key value (placeAfter p l₁) l₂
            (lookupLoop start key value n h p l.head? next) := by
  induction l with
  | nil =>
      intro next p n hw hs hn
      obtain ⟨n, rfl⟩ : ∃ m, n = m + 1 := ⟨n - 1, by simp at hn; omega⟩
      refine ⟨[], [], rfl, by simp, by simp, ?_⟩
      exact .notFound (by simp)
  | cons a l ih =>
      intro next p n hw hs hn
      obtain ⟨n, rfl⟩ : ∃ m, n = m + 1 := ⟨n - 1, by simp at hn; omega⟩
      obtain ⟨hlt, hs⟩ := List.pairwise_cons.mp hs
      have hnext := hw.2.link
      rw [List.head?_cons, lookupLoop]
      simp only [hw.1, ne_eq, not_true_eq_false, if_false, hnext]
      by_cases hle : key ≤ h.data a
      · refine ⟨[], a :: l, rfl, by simp, fun b hb hlt => ?_, ?_⟩
        · obtain rfl := Option.some.inj hb
          exact absurd hlt (not_lt.mpr hle)
        · by_cases heq : h.data a = key
          · simp only [if_pos hle, if_pos heq]
            exact .found heq
          · simp only [if_pos hle, if_neg heq]
            refine .notFound (l := a :: l) fun b hb => ?_
            have hka := lt_of_le_of_ne hle (Ne.symm heq)
            rcases List.mem_cons.mp hb with rfl | hb
            · exact hka
            · exact lt_trans hka (hlt b hb)
      · obtain ⟨l₁, l₂, rfl, hsmall, -, hstop⟩ :=
          ih l.head? hw.2 hs (Nat.lt_of_succ_lt_succ hn)
        refine ⟨a :: l₁, l₂, rfl, fun b hb => ?_, fun b hb _ => hb, ?_⟩
        · rcases List.mem_cons.mp hb with rfl | hb
          · exact not_le.mp hle
          · exact hsmall b hb
        · simp only [if_neg hle]
          exact hstop

/-- A call may begin at the head of the list and at a node with a smaller
key than its own. -/
def Begins (h : Heap T) (nodes : List Addr) (key : T) : Option Addr → Prop
  | none => True
  | some d => d ∈ nodes ∧ h.data d < key

theorem Begins.congr {start_ : Option Addr} (hb : Begins h nodes key start_)
    (hdata : ∀ a ∈ nodes, h'.data a = h.data a) : Begins h' nodes key start_ := by
  cases start_ with
  | none => trivial
  | some d => exact ⟨hb.1, (hdata d hb.1).symm ▸ hb.2⟩

/-- A call finds the place of its key in the list. -/
theorem lookupInternal_spec (hh : Holds h nodes) {start_ : Option Addr} (value : Option ℤ)
    (hb : Begins h nodes key start_) (hstart : h.link .param = ⟨start_, false⟩) :
    ∃ l₁ l₂ d, nodes = l₁ ++ l₂ ∧ (∀ a ∈ l₁, h.data a < key) ∧ Seg h.next .head l₁ d
      ∧ Path h.next d l₂ ∧ h.link (.cell d) = ⟨l₂.head?, false⟩
      ∧ Stops h key value (.cell d) l₂
        (lookupInternal h (startingPointer start_) key value) := by
  -- it is enough to walk from the starting place
  suffices hwalk : ∃ pre l₁ l₂, nodes = pre ++ l₁ ++ l₂ ∧ (∀ a ∈ pre ++ l₁, h.data a < key)
      ∧ placeAfter (startingPointer start_) l₁ = placeAfter (.cell .head) (pre ++ l₁)
      ∧ Stops h key value (placeAfter (startingPointer start_) l₁) l₂
        (lookupInternal h (startingPointer start_) key value) by
    obtain ⟨pre, l₁, l₂, rfl, hsmall, hplace, hstop⟩ := hwalk
    obtain ⟨d, hs, hp⟩ := path_append.mp hh.path
    rw [hplace, placeAfter_of_seg hs] at hstop
    exact ⟨pre ++ l₁, l₂, d, rfl, hsmall, hs, hp, hh.link_of_seg hs hp, hstop⟩
  cases start_ with
  | none =>
      have hw : Walk h (.cell .head) nodes := Walk.of_path hh.path hh.unmarked
      obtain ⟨l₁, l₂, rfl, hsmall, -, hstop⟩ := lookupLoop_spec (.cell .head) key value none hw
        hh.sorted hh.length_lt_fuel
      refine ⟨[], l₁, l₂, rfl, hsmall, rfl, ?_⟩
      rw [lookupInternal, startingPointer, hw.link]
      exact hstop
  | some d₀ =>
      obtain ⟨hmem, hlt⟩ := hb
      obtain ⟨pre, rest, rfl⟩ := List.append_of_mem hmem
      obtain ⟨c, hs, hp⟩ := path_append.mp hh.path
      have hw : Walk h .param (d₀ :: rest) := by
        refine ⟨hstart, Walk.of_path hp.2 fun e he => hh.unmarked e ?_⟩
        rw [List.map_append]
        exact List.mem_cons_of_mem _ (List.mem_append_right _ he)
      obtain ⟨hpre, hsorted, hcross⟩ := List.pairwise_append.mp hh.sorted
      obtain ⟨l₁, l₂, heq, hsmall, hhead, hstop⟩ := lookupLoop_spec .param key value none hw
        hsorted (lt_of_le_of_lt (by simp) hh.length_lt_fuel)
      obtain ⟨l₁, rfl⟩ : ∃ l, l₁ = d₀ :: l := by
        obtain ⟨l, rfl⟩ := List.head?_eq_some_iff.mp (hhead d₀ rfl hlt)
        exact ⟨l, rfl⟩
      refine ⟨pre, d₀ :: l₁, l₂, ?_, fun a ha => ?_, ?_, ?_⟩
      · rw [heq, List.append_assoc]
      · rcases List.mem_append.mp ha with ha | ha
        · exact lt_trans (hcross a ha d₀ (List.mem_cons_self ..)) hlt
        · exact hsmall a ha
      · rw [placeAfter_append]
        rfl
      · rw [lookupInternal, startingPointer, hw.link]
        exact hstop

theorem Holds.enter (hh : Holds h nodes) (start_ : Option Addr) : Holds (h.enter start_) nodes :=
  hh.congr (fun _ _ => Heap.store_of_ne _ (by simp)) (fun _ _ => rfl) (le_refl _)

theorem Holds.fresh_notMem (hh : Holds h nodes) : h.fresh ∉ nodes :=
  fun hmem => lt_irrefl _ (hh.allocated _ hmem)

theorem Holds.newNode (hh : Holds h nodes) : Holds h.newNode.1 nodes := by
  refine hh.congr (fun c hc => Heap.store_cell_of_ne _ ?_) (fun _ _ => rfl) (Nat.le_succ _)
  rintro rfl
  exact hh.fresh_notMem (by simpa using hc)

theorem ne_key_of_split {l₁ l₂ : List Addr} (hsmall : ∀ a ∈ l₁, h.data a < key)
    (hlarge : ∀ a ∈ l₂, key < h.data a) : ∀ a ∈ l₁ ++ l₂, h.data a ≠ key := by
  intro a ha
  rcases List.mem_append.mp ha with ha | ha
  · exact ne_of_lt (hsmall a ha)
  · exact ne_of_gt (hlarge a ha)

theorem lookup_spec (hh : Holds h nodes) {start_ : Option Addr} (value : Option ℤ)
    (hb : Begins h nodes key start_) :
    (∃ a ∈ nodes, h.data a = key ∧ lookup h key value start_
        = some (h.enter start_, true, value.map fun _ => h.value a))
      ∨ (∀ a ∈ nodes, h.data a ≠ key)
        ∧ lookup h key value start_ = some (h.enter start_, false, value) := by
  obtain ⟨l₁, l₂, d, rfl, hsmall, -, -, -, hstop⟩ :=
    lookupInternal_spec (hh.enter start_) value (hb.congr fun _ _ => rfl) (Heap.store_same ..)
  generalize hres : lookupInternal (h.enter start_) (startingPointer start_) key value = res
    at hstop
  cases hstop with
  | @found a l hk =>
      refine .inl ⟨a, by simp, hk, ?_⟩
      simp only [lookup, hres, Option.bind_eq_bind, Option.bind_some]
      rfl
  | @notFound _ next hk =>
      refine .inr ⟨ne_key_of_split hsmall hk, ?_⟩
      simp only [lookup, hres, Option.bind_eq_bind, Option.bind_some]

/-! ## Insert -/

/-- The node `a` with `key` is new in the list. -/
structure Added (h h' : Heap T) (nodes : List Addr) (key : T) (value : Option ℤ) (a : Addr)
    (nodes' : List Addr) : Prop where
  holds : Holds h' nodes'
  frame : Frame h h' nodes
  new : a ∉ nodes
  mem : ∀ b, b ∈ nodes' ↔ b = a ∨ b ∈ nodes
  key : h'.data a = key
  value : ∀ v, value = some v → h'.value a = v

/-- `insert` before its loop: the node is filled in, and not linked. -/
structure Ready (h h' : Heap T) (nodes : List Addr) (key : T) (value : Option ℤ)
    (start_ : Option Addr) (a : Addr) : Prop where
  holds : Holds h' nodes
  frame : Frame h h' nodes
  new : a ∉ nodes
  allocated : a < h'.fresh
  key : h'.data a = key
  value : ∀ v, value = some v → h'.value a = v
  start : h'.link .param = ⟨start_, false⟩

theorem Ready.setNode {a : Addr} {start_ : Option Addr} (hh : Holds h nodes) (key : T)
    (value : Option ℤ) (hnew : a ∉ nodes) (ha : a < h.fresh)
    (hstart : h.link .param = ⟨start_, false⟩) :
    Ready h (h.setNode a key value) nodes key value start_ a := by
  have hne : ∀ b ∈ nodes, b ≠ a := by
    rintro b hb rfl
    exact hnew hb
  have hdata : ∀ b ∈ nodes, (h.setNode a key value).data b = h.data b :=
    fun b hb => Function.update_of_ne (hne b hb) ..
  refine ⟨hh.congr (fun _ _ => rfl) hdata (le_refl _), ⟨hdata, fun b hb => ?_⟩, hnew, ha,
    Function.update_self .., ?_, hstart⟩
  · cases value with
    | none => rfl
    | some v => exact Function.update_of_ne (hne b hb) ..
  · rintro v rfl
    exact Function.update_self ..

theorem Ready.takeNode (hh : Holds h nodes) {dummyNode : Option Addr} (key : T)
    (value : Option ℤ) (start_ : Option Addr)
    (hdummy : ∀ a, dummyNode = some a → a ∉ nodes ∧ a < h.fresh) :
    ∃ h₁ a, (h.enter start_).takeNode dummyNode = (h₁, a) ∧ (∀ b, dummyNode = some b → b = a)
      ∧ Ready h (h₁.setNode a key value) nodes key value start_ a := by
  have hin := hh.enter start_
  have hparam : (h.enter start_).link .param = ⟨start_, false⟩ := Heap.store_same ..
  cases dummyNode with
  | some a =>
      obtain ⟨hnew, ha⟩ := hdummy a rfl
      have hr := Ready.setNode hin key value hnew ha hparam
      exact ⟨h.enter start_, a, rfl, fun b hb => (Option.some.inj hb).symm,
        { hr with frame := ⟨hr.frame.data, hr.frame.value⟩ }⟩
  | none =>
      have hparam' : (h.enter start_).newNode.1.link .param = ⟨start_, false⟩ :=
        (Heap.newNode_of_ne (by simp)).trans hparam
      have hr := Ready.setNode hin.newNode key value hin.fresh_notMem (Nat.lt_succ_self _) hparam'
      exact ⟨_, _, rfl, fun b hb => (by cases hb),
        { hr with frame := ⟨hr.frame.data, hr.frame.value⟩ }⟩

theorem Ready.ne_next {value : Option ℤ} {start_ : Option Addr} {a : Addr} {l₁ l₂ : List Addr}
    {d : Cell Addr} (hr : Ready h h' (l₁ ++ l₂) key value start_ a)
    (hs : Seg h'.next .head l₁ d) : d ≠ .next a := by
  rintro rfl
  have hmem : a ∈ l₁ := by simpa using hs.end_mem_cells
  exact hr.new (List.mem_append_left _ hmem)

/-- Linking the new node in where the lookup stopped. -/
theorem Ready.link {value : Option ℤ} {start_ : Option Addr} {a : Addr} {l₁ l₂ : List Addr}
    {d : Cell Addr} (hr : Ready h h' (l₁ ++ l₂) key value start_ a) (hs : Seg h'.next .head l₁ d)
    (hp : Path h'.next d l₂) (hsmall : ∀ b ∈ l₁, h'.data b < key)
    (hlarge : ∀ b ∈ l₂, key < h'.data b) :
    Added h ((h'.store (.cell (.next a)) ⟨l₂.head?, false⟩).store (.cell d) ⟨some a, false⟩)
      (l₁ ++ l₂) key value a (l₁ ++ a :: l₂) := by
  have hne := hr.ne_next hs
  have hlink := hr.holds.link_of_seg hs hp
  set h₂ := h'.store (.cell (.next a)) ⟨l₂.head?, false⟩ with hh₂
  have hd : (h₂.store (.cell d) ⟨some a, false⟩).link (.cell d) = ⟨some a, false⟩ :=
    Heap.store_same ..
  have ha : (h₂.store (.cell d) ⟨some a, false⟩).link (.cell (.next a)) = ⟨l₂.head?, false⟩ :=
    (Heap.store_cell_of_ne _ hne.symm).trans (Heap.store_same ..)
  have hsame : ∀ e, e ≠ d → e ≠ .next a →
      (h₂.store (.cell d) ⟨some a, false⟩).link (.cell e) = h'.link (.cell e) :=
    fun e hed hea => (Heap.store_cell_of_ne _ hed).trans (Heap.store_cell_of_ne _ hea)
  have mem {b : Addr} : b ∈ l₁ ++ a :: l₂ ↔ b = a ∨ b ∈ l₁ ++ l₂ := by
    simp only [List.mem_append, List.mem_cons]
    exact or_left_comm
  refine ⟨⟨?_, ?_, ?_, ?_⟩, ⟨hr.frame.data, hr.frame.value⟩, hr.new, ?_, hr.key, hr.value⟩
  · exact Path.insert hr.holds.nodup hs hp hr.new (congrArg Link.ptr hd)
      (congrArg Link.ptr (ha.trans hlink.symm)) fun e hed hea => congrArg Link.ptr (hsame e hed hea)
  · intro c hc
    by_cases hcd : c = d
    · rw [hcd, hd]
    · by_cases hca : c = .next a
      · rw [hca, ha]
      · rw [hsame c hcd hca]
        refine hr.holds.unmarked c ?_
        simp only [List.map_append, List.map_cons, List.mem_cons, List.mem_append] at hc ⊢
        rcases hc with hc | hc | hc | hc
        · exact .inl hc
        · exact .inr (.inl hc)
        · exact absurd hc hca
        · exact .inr (.inr hc)
  · obtain ⟨hl₁, hl₂, hcross⟩ := List.pairwise_append.mp hr.holds.sorted
    refine List.pairwise_append.mpr ⟨hl₁, List.pairwise_cons.mpr ⟨fun b hb => ?_, hl₂⟩, ?_⟩
    · exact hr.key.symm ▸ hlarge b hb
    · intro b hb c hc
      rcases List.mem_cons.mp hc with rfl | hc
      · exact hr.key.symm ▸ hsmall b hb
      · exact hcross b hb c hc
  · intro b hb
    rcases mem.mp hb with rfl | hb
    · exact hr.allocated
    · exact hr.holds.allocated b hb
  · exact fun b => mem

/-- `insert` leaves the list alone if the key is there, and else links a
node in. -/
theorem insert_spec (hh : Holds h nodes) {start_ dummyNode : Option Addr} (value : Option ℤ)
    (hb : Begins h nodes key start_)
    (hdummy : ∀ a, dummyNode = some a → a ∉ nodes ∧ a < h.fresh) :
    (∃ a ∈ nodes, h.data a = key ∧ ∃ h', Holds h' nodes ∧ Frame h h' nodes
        ∧ insert h key value start_ dummyNode = some (h', dummyNode.map fun _ => a, false))
      ∨ (∀ a ∈ nodes, h.data a ≠ key) ∧ ∃ h' a nodes', Added h h' nodes key value a nodes'
        ∧ (∀ b, dummyNode = some b → b = a)
        ∧ insert h key value start_ dummyNode = some (h', dummyNode, true) := by
  obtain ⟨h₁, a, htake, hnode, hr⟩ := Ready.takeNode hh key value start_ hdummy
  obtain ⟨l₁, l₂, d, rfl, hsmall, hs, hp, hlink, hstop⟩ :=
    lookupInternal_spec hr.holds none (hb.congr hr.frame.data) hr.start
  generalize hres : lookupInternal _ (startingPointer start_) key none = res at hstop
  cases hstop with
  | @found b l hk =>
      have hmem : b ∈ l₁ ++ b :: l := by simp
      refine .inl ⟨b, hmem, (hr.frame.data b hmem).symm.trans hk, _, hr.holds, hr.frame, ?_⟩
      simp only [insert, htake, Heap.fuel, insertLoop, hres, Option.bind_eq_bind, Option.bind_some]
      cases dummyNode <;> simp
  | @notFound _ next hk =>
      refine .inr ⟨fun b hmem => ?_, _, a, _, hr.link hs hp hsmall hk, hnode, ?_⟩
      · rw [← hr.frame.data b hmem]
        exact ne_key_of_split hsmall hk b hmem
      · have hfree := (Heap.store_cell_of_ne ⟨l₂.head?, false⟩ (hr.ne_next hs)).trans hlink
        simp only [insert, htake, Heap.fuel, insertLoop, hres, Option.bind_eq_bind,
          Option.bind_some, Heap.cas_of_eq _ hfree]
        simp

/-- In both cases the key is in the list, and all that was there before. -/
theorem insert_mem (hh : Holds h nodes) {start_ dummyNode : Option Addr} (value : Option ℤ)
    (hb : Begins h nodes key start_)
    (hdummy : ∀ a, dummyNode = some a → a ∉ nodes ∧ a < h.fresh) :
    ∃ h' nodes' a inserted,
      insert h key value start_ dummyNode = some (h', dummyNode.map fun _ => a, inserted)
      ∧ Holds h' nodes' ∧ (∀ b ∈ nodes, b ∈ nodes' ∧ h'.data b = h.data b)
      ∧ a ∈ nodes' ∧ h'.data a = key := by
  rcases insert_spec hh value hb hdummy with
    ⟨a, ha, hdata, h', hh', hframe, hins⟩ | ⟨-, h', a, nodes', hadd, hnode, hins⟩
  · exact ⟨h', nodes, a, false, hins, hh', fun b hmem => ⟨hmem, hframe.data b hmem⟩, ha,
      (hframe.data a ha).trans hdata⟩
  · refine ⟨h', nodes', a, true, ?_, hadd.holds,
      fun b hmem => ⟨(hadd.mem b).mpr (.inr hmem), hadd.frame.data b hmem⟩,
      (hadd.mem a).mpr (.inl rfl), hadd.key⟩
    cases dummyNode with
    | none => exact hins
    | some b =>
        obtain rfl := hnode b rfl
        exact hins

/-! ## Remove -/

/-- The node `a` is no longer in the list. -/
structure Removed (h h' : Heap T) (nodes : List Addr) (a : Addr) (nodes' : List Addr) : Prop where
  holds : Holds h' nodes'
  mem : ∀ b, b ∈ nodes' ↔ b ≠ a ∧ b ∈ nodes
  data : h'.data = h.data
  value : h'.value = h.value

/-- Marking and unlinking the node behind the cell `d`. -/
theorem Holds.unlink {l₁ l₂ : List Addr} {a : Addr} {d : Cell Addr} (hh : Holds h (l₁ ++ a :: l₂))
    (hs : Seg h.next .head l₁ d) (hp : Path h.next d (a :: l₂)) :
    Removed h ((h.store (.cell (.next a)) ⟨l₂.head?, true⟩).store (.cell d) ⟨l₂.head?, false⟩)
      (l₁ ++ a :: l₂) a (l₁ ++ l₂) := by
  have hnd := hh.nodup
  obtain ⟨hnew₁, hnew₂⟩ : a ∉ l₁ ∧ a ∉ l₂ := by
    have hnot := (List.nodup_middle.mp hnd)
    simpa using (List.nodup_cons.mp hnot).1
  have ha := hh.link_eq (c := .next a) (by simp) hp.2
  set h₂ := h.store (.cell (.next a)) ⟨l₂.head?, true⟩ with hh₂
  have hd : (h₂.store (.cell d) ⟨l₂.head?, false⟩).link (.cell d) = ⟨l₂.head?, false⟩ :=
    Heap.store_same ..
  have hsame : ∀ e, e ≠ d → e ≠ .next a →
      (h₂.store (.cell d) ⟨l₂.head?, false⟩).link (.cell e) = h.link (.cell e) :=
    fun e hed hea => (Heap.store_cell_of_ne _ hed).trans (Heap.store_cell_of_ne _ hea)
  have hmem {b : Addr} : b ∈ l₁ ++ l₂ ↔ b ≠ a ∧ b ∈ l₁ ++ a :: l₂ := by
    simp only [List.mem_append, List.mem_cons]
    constructor
    · rintro (hb | hb)
      · exact ⟨fun heq => hnew₁ (heq ▸ hb), .inl hb⟩
      · exact ⟨fun heq => hnew₂ (heq ▸ hb), .inr (.inr hb)⟩
    · rintro ⟨hne, hb | hb | hb⟩
      · exact .inl hb
      · exact absurd hb hne
      · exact .inr hb
  refine ⟨⟨?_, ?_, ?_, ?_⟩, fun b => hmem, rfl, rfl⟩
  · refine Path.remove hnd hs hp (congrArg Link.ptr (hd.trans ?_)) fun e hed => ?_
    · exact ha.symm
    · by_cases hea : e = .next a
      · subst hea
        have hmarked : (h₂.store (.cell d) ⟨l₂.head?, false⟩).link (.cell (.next a))
            = ⟨l₂.head?, true⟩ := (Heap.store_cell_of_ne _ hed).trans (Heap.store_same ..)
        rw [Heap.next, Heap.next, hmarked, ha]
      · exact congrArg Link.ptr (hsame e hed hea)
  · intro c hc
    by_cases hcd : c = d
    · rw [hcd, hd]
    · have hca : c ≠ .next a := by
        rintro rfl
        exact (hmem.mp (by simpa using hc)).1 rfl
      rw [hsame c hcd hca]
      refine hh.unmarked c ?_
      simp only [List.map_append, List.map_cons, List.mem_cons, List.mem_append] at hc ⊢
      rcases hc with hc | hc | hc
      · exact .inl hc
      · exact .inr (.inl hc)
      · exact .inr (.inr (.inr hc))
  · exact hh.sorted.sublist ((List.Sublist.refl l₁).append (List.sublist_cons_self a l₂))
  · exact fun b hb => hh.allocated b (hmem.mp hb).2

theorem remove_spec (hh : Holds h nodes) {start_ : Option Addr} (hb : Begins h nodes key start_) :
    (∃ a ∈ nodes, h.data a = key ∧ ∃ h' nodes', Removed h h' nodes a nodes'
        ∧ remove h key start_ = some (h', true))
      ∨ (∀ a ∈ nodes, h.data a ≠ key) ∧ remove h key start_ = some (h.enter start_, false) := by
  have hin := hh.enter start_
  obtain ⟨l₁, l₂, d, rfl, hsmall, hs, hp, hlink, hstop⟩ :=
    lookupInternal_spec hin none (hb.congr fun _ _ => rfl) (Heap.store_same ..)
  generalize hres : lookupInternal (h.enter start_) (startingPointer start_) key none = res at hstop
  cases hstop with
  | @found a l hk =>
      have hrem := hin.unlink hs hp
      refine .inl ⟨a, by simp, hk, _, _, ⟨hrem.holds, hrem.mem, hrem.data, hrem.value⟩, ?_⟩
      have hnext := hin.link_eq (c := .next a) (by simp) hp.2
      have hne : d ≠ .next a := (hs.end_ne_of_mem hin.nodup (List.mem_cons_self ..)).symm
      have hmark := (Heap.store_cell_of_ne ⟨l.head?, true⟩ hne).trans hlink
      rw [List.head?_cons] at hmark
      simp only [remove, Heap.fuel, removeLoop, hres, Option.bind_eq_bind, Option.bind_some,
        Heap.cas_of_eq _ hnext, Heap.cas_of_eq _ hmark, if_true]
  | @notFound _ next hk =>
      refine .inr ⟨ne_key_of_split hsmall hk, ?_⟩
      simp only [remove, Heap.fuel, removeLoop, hres, Option.bind_eq_bind, Option.bind_some]

end

end Seq

end LockFreeList

end HttpServer
