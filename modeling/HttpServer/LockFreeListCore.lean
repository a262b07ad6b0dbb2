import HttpServer.LockFreeListMoves

/-!
# The chain of the lock-free list

Every address is in one phase: free, the private new node of a thread,
linked (on the chain from `head_`), in limbo (unlinked by a thread, on
its retired list or about to be put there), or dead (deleted by that
thread). `Core` relates the phases to the memory. Its heart is that the
chain is strictly ascending and that a node once published whose link is
not marked is on it.

A step changes the memory in one of six ways: a node is linked in,
unlinked or marked, the link of a private node is set, a node is
allocated or deleted. For each of them one lemma says that `Core` is
kept and what the other threads can rely on (`Frame`): nodes they hold
stay published, with their data and - if marked - their link, and nobody
touches their private nodes.
-/

namespace HttpServer

namespace LockFreeList

open Chain

variable {T : Type}

inductive Phase where
  | free
  | priv (t : Tid)
  | linked
  | limbo (t : Tid)
  | dead
deriving DecidableEq

/-- The node has been on the chain. -/
def Phase.Pub : Phase → Prop
  | .linked => True
  | .limbo _ => True
  | .dead => True
  | _ => False

/-- The nodes from `head_` on, marked ones included. -/
def IsChain (s : State T) (nodes : List Addr) : Prop := Path (fun c => (s.link c).ptr) .head nodes

/-- A cell on the chain: that of `head_` or of a linked node. -/
def OnChain (nodes : List Addr) (c : Cell Addr) : Prop := c = .head ∨ ∃ a ∈ nodes, c = .next a

variable {s : State T} {nodes : List Addr} {phase : Addr → Phase} {t : Tid}

/-- What the threads other than `t` can rely on when `t` steps from `s`
to `s'`, for the nodes in `H`. -/
structure Frame (H : Addr → Prop) (t : Tid) (s s' : State T) (phase phase' : Addr → Phase) :
    Prop where
  pub : ∀ a, H a → (phase a).Pub → (phase' a).Pub
  data : ∀ a, H a → (phase a).Pub → s'.data a = s.data a
  frozen : ∀ a, H a → (phase a).Pub → (s.link (.next a)).mark = true →
    s'.link (.next a) = s.link (.next a)
  privData : ∀ a u, u ≠ t → phase a = .priv u →
    s'.data a = s.data a ∧ s'.link (.next a) = s.link (.next a)
  priv : ∀ a u, u ≠ t → (phase' a = .priv u ↔ phase a = .priv u)
  limbo : ∀ a u, u ≠ t → (phase' a = .limbo u ↔ phase a = .limbo u)

/-- A step that moves one address to another phase. -/
theorem Frame.ofUpdate {H : Addr → Prop} {s' : State T} {x : Addr} {q : Phase}
    (hpub : H x → (phase x).Pub → q.Pub)
    (hpriv : ∀ u, u ≠ t → (q = .priv u ↔ phase x = .priv u))
    (hlimbo : ∀ u, u ≠ t → (q = .limbo u ↔ phase x = .limbo u))
    (hdata : ∀ a, H a → (phase a).Pub → s'.data a = s.data a)
    (hfrozen : ∀ a, H a → (phase a).Pub → (s.link (.next a)).mark = true →
      s'.link (.next a) = s.link (.next a))
    (hprivData : ∀ a u, u ≠ t → phase a = .priv u →
      s'.data a = s.data a ∧ s'.link (.next a) = s.link (.next a)) :
    Frame H t s s' phase (Function.update phase x q) := by
  refine ⟨?_, hdata, hfrozen, hprivData, ?_, ?_⟩
  · intro a ha hp
    by_cases hx : a = x
    · subst hx
      rw [Function.update_self]
      exact hpub ha hp
    · rwa [Function.update_of_ne hx]
  · intro a u hu
    by_cases hx : a = x
    · subst hx
      rw [Function.update_self]
      exact hpriv u hu
    · rw [Function.update_of_ne hx]
  · intro a u hu
    by_cases hx : a = x
    · subst hx
      rw [Function.update_self]
      exact hlimbo u hu
    · rw [Function.update_of_ne hx]

theorem Frame.congr {H : Addr → Prop} {s' s'' : State T} {phase' : Addr → Phase}
    (hf : Frame H t s s' phase phase') (hl : s''.link = s'.link) (hd : s''.data = s'.data) :
    Frame H t s s'' phase phase' := by
  refine ⟨hf.pub, ?_, ?_, ?_, hf.priv, hf.limbo⟩
  · rw [hd]
    exact hf.data
  · rw [hl]
    exact hf.frozen
  · rw [hd, hl]
    exact hf.privData

theorem Frame.refl (H : Addr → Prop) (t : Tid) (s : State T) (phase : Addr → Phase) :
    Frame H t s s phase phase :=
  ⟨fun _ _ h => h, fun _ _ _ => rfl, fun _ _ _ _ => rfl, fun _ _ _ _ => ⟨rfl, rfl⟩,
    fun _ _ _ => Iff.rfl, fun _ _ _ => Iff.rfl⟩

section

variable [LinearOrder T]

structure Core (s : State T) (nodes : List Addr) (phase : Addr → Phase) : Prop where
  path : IsChain s nodes
  sorted : nodes.Pairwise fun a b => s.data a < s.data b
  head : (s.link .head).mark = false
  linked : ∀ a, phase a = .linked ↔ a ∈ nodes
  marked : ∀ a, (phase a = .dead ∨ ∃ t, phase a = .limbo t) → (s.link (.next a)).mark = true
  live : ∀ a, s.status a = .live ↔ phase a ≠ .free ∧ phase a ≠ .dead
  dead : ∀ a, phase a = .dead → s.status a = .deleted

namespace Core

theorem nodup (h : Core s nodes phase) : nodes.Nodup :=
  h.sorted.imp fun hlt heq => by rw [heq] at hlt; exact lt_irrefl _ hlt

/-- A published node whose link is not marked is on the chain. -/
theorem mem_of_unmarked (h : Core s nodes phase) {a : Addr} (ha : (phase a).Pub)
    (hm : (s.link (.next a)).mark = false) : a ∈ nodes := by
  rw [← h.linked]
  cases hp : phase a with
  | free => rw [hp] at ha; exact ha.elim
  | priv u => rw [hp] at ha; exact ha.elim
  | linked => rfl
  | limbo u => rw [h.marked a (.inr ⟨u, hp⟩)] at hm; cases hm
  | dead => rw [h.marked a (.inl hp)] at hm; cases hm

/-- Only links, data and the allocator matter. -/
theorem congr {s' : State T} (h : Core s nodes phase) (hl : s'.link = s.link)
    (hd : s'.data = s.data) (hs : s'.status = s.status) : Core s' nodes phase := by
  refine ⟨?_, ?_, ?_, h.linked, ?_, ?_, ?_⟩
  · rw [IsChain, hl]
    exact h.path
  · rw [hd]
    exact h.sorted
  · rw [hl]
    exact h.head
  · rw [hl]
    exact h.marked
  · rw [hs]
    exact h.live
  · rw [hs]
    exact h.dead

end Core

theorem Core.onChain (h : Core s nodes phase) {c : Cell Addr}
    (hc : ∀ a ∈ cellNode c, (phase a).Pub) (hm : (s.link c).mark = false) : OnChain nodes c := by
  cases c with
  | head => exact .inl rfl
  | next a => exact .inr ⟨a, h.mem_of_unmarked (hc a (by simp [cellNode])) hm, rfl⟩

/-- The chain around a cell on it. -/
theorem Core.split (h : Core s nodes phase) {c : Cell Addr} (hc : OnChain nodes c) :
    ∃ l₁ l₂, nodes = l₁ ++ l₂ ∧ Seg (fun c => (s.link c).ptr) .head l₁ c
      ∧ Path (fun c => (s.link c).ptr) c l₂
      ∧ (l₁ = [] ∧ c = .head ∨ ∃ l₀ a, l₁ = l₀ ++ [a] ∧ c = .next a) :=
  h.path.split hc

/-- What a cell on the chain points to is on the chain. -/
theorem Core.mem_of_link (h : Core s nodes phase) {c : Cell Addr} (hc : OnChain nodes c)
    {a : Addr} (ha : (s.link c).ptr = some a) : a ∈ nodes := by
  obtain ⟨l₁, l₂, rfl, -, hp, -⟩ := h.split hc
  cases l₂ with
  | nil => exact absurd (hp.symm.trans ha) (by simp)
  | cons b l₂ =>
      obtain rfl : b = a := Option.some.inj (hp.1.symm.trans ha)
      simp

/-! ## The effects of a step -/

theorem le_last {l₀ : List Addr} {p a : Addr}
    (hs : (l₀ ++ [p]).Pairwise fun a b => s.data a < s.data b) (ha : a ∈ l₀ ++ [p]) :
    s.data a ≤ s.data p := by
  rcases List.mem_append.mp ha with ha | ha
  · exact le_of_lt ((List.pairwise_append.mp hs).2.2 a ha p (by simp))
  · rw [List.mem_singleton.mp ha]

/-- A cell on the chain is not that of a node that is not linked. -/
theorem OnChain.ne {c : Cell Addr} (hc : OnChain nodes c) {a : Addr} (ha : a ∉ nodes) :
    Cell.next a ≠ c := by
  rintro rfl
  rcases hc with heq | ⟨b, hb, heq⟩
  · cases heq
  · exact ha (Cell.next.inj heq ▸ hb)

theorem Core.not_mem (h : Core s nodes phase) {a : Addr} (ha : phase a ≠ .linked) : a ∉ nodes := by
  rw [← h.linked]
  exact ha

/-- Linking in the private node of `t`. -/
theorem Core.insert (h : Core s nodes phase) {prev : Cell Addr} {cur : Option Addr} {node : Addr}
    (hprev : OnChain nodes prev) (hv : s.link prev = ⟨cur, false⟩)
    (hn : s.link (.next node) = ⟨cur, false⟩) (hp : phase node = .priv t)
    (hlo : ∀ p ∈ cellNode prev, s.data p < s.data node)
    (hhi : ∀ b, cur = some b → s.data node < s.data b) :
    ∃ nodes', Core (s.setLink prev ⟨some node, false⟩) nodes' (Function.update phase node .linked)
      ∧ Frame (fun _ => True) t s (s.setLink prev ⟨some node, false⟩) phase
          (Function.update phase node .linked)
      ∧ ∀ a, a ∈ nodes' ↔ a = node ∨ a ∈ nodes := by
  have hnot : node ∉ nodes := h.not_mem (by simp [hp])
  have hne := hprev.ne hnot
  have hoff : ∀ {a}, phase a ≠ .linked → Cell.next a ≠ prev := fun ha => hprev.ne (h.not_mem ha)
  obtain ⟨l₁, l₂, rfl, hseg, hpath, hlast⟩ := h.split hprev
  have hsorted := List.pairwise_append.mp h.sorted
  -- `node` is above what comes before `prev` and below what comes behind
  have hbelow : ∀ a ∈ l₁, s.data a < s.data node := by
    intro a ha
    rcases hlast with ⟨rfl, -⟩ | ⟨l₀, p, rfl, rfl⟩
    · cases ha
    · exact lt_of_le_of_lt (le_last hsorted.1 ha) (hlo p (by simp [cellNode]))
  have habove : ∀ b ∈ l₂, s.data node < s.data b := by
    intro b hb
    cases l₂ with
    | nil => cases hb
    | cons x l₂ =>
        have hx : s.data node < s.data x := hhi x ((congrArg Link.ptr hv).symm.trans hpath.1)
        rcases List.mem_cons.mp hb with rfl | hb
        · exact hx
        · exact lt_trans hx ((List.pairwise_cons.mp hsorted.2.1).1 b hb)
  refine ⟨l₁ ++ node :: l₂, ⟨?_, ?_, ?_, ?_, ?_, ?_, ?_⟩, ?_, ?_⟩
  · refine Path.insert h.nodup hseg hpath hnot ?_ ?_ fun e hed _ => ?_
    · simp only [State.setLink_same]
    · simp only [State.setLink_of_ne _ _ hne, hn, hv]
    · simp only [State.setLink_of_ne _ _ hed]
  · refine List.pairwise_append.mpr
      ⟨hsorted.1, List.pairwise_cons.mpr ⟨habove, hsorted.2.1⟩, fun a ha b hb => ?_⟩
    rcases List.mem_cons.mp hb with rfl | hb
    · exact hbelow a ha
    · exact hsorted.2.2 a ha b hb
  · by_cases hc : Cell.head = prev
    · rw [hc, State.setLink_same]
    · rw [State.setLink_of_ne _ _ hc]
      exact h.head
  · intro a
    by_cases ha : a = node
    · simp [ha]
    · rw [Function.update_of_ne ha, h.linked]
      simp [ha]
  · intro a ha
    have hane : a ≠ node := by
      rintro rfl
      simp at ha
    rw [Function.update_of_ne hane] at ha
    rw [State.setLink_of_ne _ _ (hoff (fun hl => by simp [hl] at ha))]
    exact h.marked a ha
  · intro a
    by_cases ha : a = node
    · subst ha
      have := h.live a
      rw [hp] at this
      simpa using this
    · rw [Function.update_of_ne ha]
      exact h.live a
  · intro a
    by_cases ha : a = node
    · simp [ha]
    · rw [Function.update_of_ne ha]
      exact h.dead a
  · refine .ofUpdate (by simp [Phase.Pub]) (fun u hu => by simp [hp, Ne.symm hu])
      (fun u hu => by simp [hp]) (fun _ _ _ => rfl) (fun a _ _ hm => ?_) (fun a u hu ha => ?_)
    · refine State.setLink_of_ne _ _ ?_
      rintro rfl
      rw [hv] at hm
      cases hm
    · exact ⟨rfl, State.setLink_of_ne _ _ (hoff (by simp [ha]))⟩
  · intro a
    simp only [List.mem_append, List.mem_cons]
    tauto

omit [LinearOrder T] in
/-- The place where a node is unlinked stays on the chain. -/
theorem OnChain.unlink {nodes' : List Addr} {prev : Cell Addr} {cur : Addr} {next : Option Addr}
    (hprev : OnChain nodes prev) (hv : s.link prev = ⟨some cur, false⟩)
    (hn : s.link (.next cur) = ⟨next, true⟩) (hmem : ∀ a, a ∈ nodes' ↔ a ∈ nodes ∧ a ≠ cur) :
    OnChain nodes' prev := by
  rcases hprev with rfl | ⟨p, hp, rfl⟩
  · exact .inl rfl
  · refine .inr ⟨p, (hmem p).mpr ⟨hp, ?_⟩, rfl⟩
    rintro rfl
    rw [hv] at hn
    cases hn

/-- Unlinking a marked node; it is in limbo with `t` then. -/
theorem Core.unlink (h : Core s nodes phase) {prev : Cell Addr} {cur : Addr} {next : Option Addr}
    (hprev : OnChain nodes prev) (hv : s.link prev = ⟨some cur, false⟩)
    (hn : s.link (.next cur) = ⟨next, true⟩) :
    ∃ nodes', Core (s.setLink prev ⟨next, false⟩) nodes' (Function.update phase cur (.limbo t))
      ∧ Frame (fun _ => True) t s (s.setLink prev ⟨next, false⟩) phase
          (Function.update phase cur (.limbo t))
      ∧ phase cur = .linked ∧ ∀ a, a ∈ nodes' ↔ a ∈ nodes ∧ a ≠ cur := by
  have hmem : cur ∈ nodes := h.mem_of_link hprev (by rw [hv])
  have hp : phase cur = .linked := (h.linked cur).mpr hmem
  have hne : Cell.next cur ≠ prev := by
    rintro rfl
    rw [hv] at hn
    cases hn
  have hoff : ∀ {a}, phase a ≠ .linked → Cell.next a ≠ prev := fun ha => hprev.ne (h.not_mem ha)
  have hnd := h.nodup
  obtain ⟨l₁, l₂, rfl, hseg, hpath, hlast⟩ := h.split hprev
  obtain ⟨l₂, rfl⟩ : ∃ l, l₂ = cur :: l := by
    cases l₂ with
    | nil =>
        have hnone : (s.link prev).ptr = none := hpath
        rw [hv] at hnone
        cases hnone
    | cons x l₂ =>
        have hx : (s.link prev).ptr = some x := hpath.1
        rw [hv] at hx
        exact ⟨l₂, by rw [Option.some.inj hx]⟩
  have hmem' : ∀ a, a ∈ l₁ ++ l₂ ↔ a ∈ l₁ ++ cur :: l₂ ∧ a ≠ cur := by
    intro a
    have hno : cur ∉ l₁ ++ l₂ := (List.nodup_middle.mp hnd).notMem
    simp only [List.mem_append, List.mem_cons] at hno ⊢
    constructor
    · intro ha
      refine ⟨by tauto, ?_⟩
      rintro rfl
      exact hno ha
    · rintro ⟨ha, hac⟩
      tauto
  refine ⟨l₁ ++ l₂, ⟨?_, ?_, ?_, ?_, ?_, ?_, ?_⟩, ?_, hp, hmem'⟩
  · refine Path.remove hnd hseg hpath ?_ fun e hed => ?_
    · simp only [State.setLink_same, hn]
    · simp only [State.setLink_of_ne _ _ hed]
  · exact h.sorted.sublist ((List.Sublist.refl l₁).append (List.sublist_cons_self cur l₂))
  · by_cases hc : Cell.head = prev
    · rw [hc, State.setLink_same]
    · rw [State.setLink_of_ne _ _ hc]
      exact h.head
  · intro a
    rw [hmem']
    by_cases ha : a = cur
    · simp [ha]
    · rw [Function.update_of_ne ha, h.linked]
      simp [ha]
  · intro a ha
    by_cases hac : a = cur
    · rw [hac, State.setLink_of_ne _ _ hne, hn]
    · rw [Function.update_of_ne hac] at ha
      rw [State.setLink_of_ne _ _ (hoff (fun hl => by simp [hl] at ha))]
      exact h.marked a ha
  · intro a
    by_cases ha : a = cur
    · subst ha
      have := h.live a
      rw [hp] at this
      simpa using this
    · rw [Function.update_of_ne ha]
      exact h.live a
  · intro a
    by_cases ha : a = cur
    · simp [ha]
    · rw [Function.update_of_ne ha]
      exact h.dead a
  · refine .ofUpdate (by simp [Phase.Pub]) (fun u hu => by simp [hp])
      (fun u hu => by simp [hp, Ne.symm hu]) (fun _ _ _ => rfl) (fun a _ _ hm => ?_)
      (fun a u hu ha => ?_)
    · refine State.setLink_of_ne _ _ ?_
      rintro rfl
      rw [hv] at hm
      cases hm
    · exact ⟨rfl, State.setLink_of_ne _ _ (hoff (by simp [ha]))⟩

/-- Marking a node. -/
theorem Core.mark (h : Core s nodes phase) {cur : Addr} {next : Option Addr}
    (hmem : cur ∈ nodes) (hv : s.link (.next cur) = ⟨next, false⟩) :
    Core (s.setLink (.next cur) ⟨next, true⟩) nodes phase
      ∧ Frame (fun _ => True) t s (s.setLink (.next cur) ⟨next, true⟩) phase phase := by
  have hp : phase cur = .linked := (h.linked cur).mpr hmem
  have hptr : (fun c => ((s.setLink (.next cur) ⟨next, true⟩).link c).ptr)
      = fun c => (s.link c).ptr := by
    funext c
    by_cases hc : c = .next cur
    · rw [hc, State.setLink_same, hv]
    · rw [State.setLink_of_ne _ _ hc]
  have hoff : ∀ {a}, phase a ≠ .linked → Cell.next a ≠ .next cur := fun ha heq =>
    ha (Cell.next.inj heq ▸ hp)
  refine ⟨⟨?_, h.sorted, h.head, h.linked, fun a ha => ?_, h.live, h.dead⟩,
    ⟨fun _ _ ha => ha, fun _ _ _ => rfl, fun a _ _ hm => ?_, fun a u hu ha => ?_,
      fun _ _ _ => Iff.rfl, fun _ _ _ => Iff.rfl⟩⟩
  · rw [IsChain, hptr]
    exact h.path
  · rw [State.setLink_of_ne _ _ (hoff (fun hl => by simp [hl] at ha))]
    exact h.marked a ha
  · refine State.setLink_of_ne _ _ ?_
    intro heq
    rw [heq, hv] at hm
    cases hm
  · exact ⟨rfl, State.setLink_of_ne _ _ (hoff (by simp [ha]))⟩

/-- A store to the link of the private node of `t`. -/
theorem Core.setNext (h : Core s nodes phase) {node : Addr} (hp : phase node = .priv t) (l : Link) :
    Core (s.setLink (.next node) l) nodes phase
      ∧ Frame (fun _ => True) t s (s.setLink (.next node) l) phase phase := by
  have hnot : node ∉ nodes := h.not_mem (by simp [hp])
  have hoff : ∀ {a}, phase a ≠ .priv t → Cell.next a ≠ .next node := fun ha heq =>
    ha (Cell.next.inj heq ▸ hp)
  refine ⟨⟨?_, h.sorted, h.head, h.linked, fun a ha => ?_, h.live, h.dead⟩,
    ⟨fun _ _ ha => ha, fun _ _ _ => rfl, fun a _ ha _ => ?_, fun a u hu ha => ?_,
      fun _ _ _ => Iff.rfl, fun _ _ _ => Iff.rfl⟩⟩
  · refine Path.congr h.path ?_ fun a ha => ?_
    · simp only [State.setLink_of_ne s l (show Cell.head ≠ .next node by simp)]
    · simp only [State.setLink_of_ne s l (hoff (by rw [(h.linked a).mpr ha]; simp))]
  · rw [State.setLink_of_ne _ _ (hoff (fun hl => by simp [hl] at ha))]
    exact h.marked a ha
  · refine State.setLink_of_ne _ _ (hoff fun heq => ?_)
    rw [heq] at ha
    exact ha
  · refine ⟨rfl, State.setLink_of_ne _ _ (hoff fun heq => ?_)⟩
    exact hu (Phase.priv.inj (ha.symm.trans heq))

/-- An address that is not allocated becomes a private node of `t`. -/
theorem Core.newNode (h : Core s nodes phase) {a : Addr} (ha : s.status a ≠ .live) (key : T)
    (value : Option ℤ) :
    Core (s.newNode a key value) nodes (Function.update phase a (.priv t))
      ∧ Frame (fun b => b ≠ a) t s (s.newNode a key value) phase
          (Function.update phase a (.priv t)) := by
  have hp : phase a = .free ∨ phase a = .dead := by
    by_contra hno
    rw [not_or] at hno
    exact ha ((h.live a).mpr hno)
  have hnot : a ∉ nodes := h.not_mem (by rcases hp with hp | hp <;> simp [hp])
  have hlink : ∀ {b}, b ≠ a → (s.newNode a key value).link (.next b) = s.link (.next b) :=
    fun hb => Function.update_of_ne (fun heq => hb (Cell.next.inj heq)) ..
  have hdata : ∀ {b}, b ≠ a → (s.newNode a key value).data b = s.data b :=
    fun hb => Function.update_of_ne hb ..
  have hst : ∀ {b}, b ≠ a → (s.newNode a key value).status b = s.status b :=
    fun hb => Function.update_of_ne hb ..
  have hmemne : ∀ {b}, b ∈ nodes → b ≠ a := by
    rintro b hb rfl
    exact hnot hb
  refine ⟨⟨?_, ?_, h.head, fun b => ?_, fun b hb => ?_, fun b => ?_, fun b => ?_⟩, ?_⟩
  · refine Path.congr h.path rfl fun b hb => ?_
    simp only [hlink (hmemne hb)]
  · refine h.sorted.imp_of_mem fun hx hy hlt => ?_
    rwa [hdata (hmemne hx), hdata (hmemne hy)]
  · by_cases hb : b = a
    · subst hb
      simp [hnot]
    · rw [Function.update_of_ne hb, h.linked]
  · have hne : b ≠ a := by
      rintro rfl
      simp at hb
    rw [Function.update_of_ne hne] at hb
    rw [hlink hne]
    exact h.marked b hb
  · by_cases hb : b = a
    · subst hb
      simp [State.newNode]
    · rw [Function.update_of_ne hb, hst hb]
      exact h.live b
  · by_cases hb : b = a
    · subst hb
      simp
    · rw [Function.update_of_ne hb, hst hb]
      exact h.dead b
  · refine .ofUpdate (fun hne => absurd rfl hne) (fun u hu => ?_) (fun u hu => ?_)
      (fun b hb _ => hdata hb) (fun b hb _ _ => hlink hb) (fun b u hu hb => ?_)
    · rcases hp with hp | hp <;> simp [hp, Ne.symm hu]
    · rcases hp with hp | hp <;> simp [hp]
    · have hne : b ≠ a := by
        rintro rfl
        rcases hp with hp | hp <;> simp [hp] at hb
      exact ⟨hdata hne, hlink hne⟩

/-- Deleting a private node of `t` (`q` is free) or a node in limbo with
`t` (`q` is dead). -/
theorem Core.free (h : Core s nodes phase) {a : Addr} {q : Phase}
    (hp : phase a = .priv t ∧ q = .free ∨ phase a = .limbo t ∧ q = .dead) :
    Core (s.free a) nodes (Function.update phase a q)
      ∧ Frame (fun _ => True) t s (s.free a) phase (Function.update phase a q) := by
  have hnot : a ∉ nodes := h.not_mem (by rcases hp with hp | hp <;> simp [hp.1])
  refine ⟨⟨h.path, h.sorted, h.head, fun b => ?_, fun b hb => ?_, fun b => ?_, fun b => ?_⟩, ?_⟩
  · by_cases hb : b = a
    · subst hb
      rcases hp with ⟨-, rfl⟩ | ⟨-, rfl⟩ <;> simp [hnot]
    · rw [Function.update_of_ne hb, h.linked]
  · by_cases hba : b = a
    · subst hba
      rcases hp with ⟨-, rfl⟩ | ⟨hl, rfl⟩
      · simp at hb
      · exact h.marked b (.inr ⟨t, hl⟩)
    · rw [Function.update_of_ne hba] at hb
      exact h.marked b hb
  · by_cases hb : b = a
    · subst hb
      rcases hp with ⟨-, rfl⟩ | ⟨-, rfl⟩ <;> simp [State.free]
    · rw [Function.update_of_ne hb, State.free_status_of_ne _ hb]
      exact h.live b
  · by_cases hb : b = a
    · subst hb
      intro _
      simp [State.free]
    · rw [Function.update_of_ne hb, State.free_status_of_ne _ hb]
      exact h.dead b
  · refine .ofUpdate (fun _ hpub => ?_) (fun u hu => ?_) (fun u hu => ?_) (fun _ _ _ => rfl)
      (fun _ _ _ _ => rfl) (fun _ _ _ _ => ⟨rfl, rfl⟩)
    · rcases hp with ⟨hl, -⟩ | ⟨-, rfl⟩
      · rw [hl] at hpub
        exact hpub.elim
      · trivial
    · rcases hp with ⟨hl, rfl⟩ | ⟨hl, rfl⟩ <;> simp [hl, Ne.symm hu]
    · rcases hp with ⟨hl, rfl⟩ | ⟨hl, rfl⟩ <;> simp [hl, Ne.symm hu]

end

end LockFreeList

end HttpServer
