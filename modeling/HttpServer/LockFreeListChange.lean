import HttpServer.LockFreeListKeys

/-!
# What a step of the lock-free list changes

`Change` says what a step does to the chain, to the marks and to the
nodes on their way to a retired list. `Tidy` keeps account of the nodes
that are marked: each of them is still on the chain, or with the one
thread that has unlinked it and is about to retire it, or has been
retired.

Nodes are not reused here.
-/

namespace HttpServer

namespace LockFreeList

open Chain

variable {T : Type}

def marked (s : State T) (a : Addr) : Bool := (s.link (.next a)).mark

/-- The thread is at the compare-and-swap that marks the node, and it
succeeds. -/
def Marks (s : State T) (t : Tid) (a : Addr) : Prop :=
  ∃ key prev next, s.pc t = .casMark key prev a next ∧ s.link (.next a) = ⟨next, false⟩

/-- One of the two that unlink the node. -/
def Unlinks (s : State T) (t : Tid) (a : Addr) : Prop :=
  ∃ prev next, ((∃ key, s.pc t = .casUnlink key prev a next) ∨ ∃ c, s.pc t = .unlink c prev a next)
    ∧ s.link prev = ⟨some a, false⟩

/-- The thread is in `retireNode`. -/
def Retires (s : State T) (t : Tid) (a : Addr) : Prop := ∃ after, s.pc t = .retire a after

theorem pending_eq_some {pc : Pc T} {a : Addr} :
    pc.pending = some a ↔ ∃ after, pc = .retire a after := by
  constructor
  · intro h
    cases pc with
    | retire node after =>
        obtain rfl := Option.some.inj h
        exact ⟨after, rfl⟩
    | _ => cases h
  · rintro ⟨after, rfl⟩
    rfl

/-- What a step of `t` does to the chain and to the marks. -/
structure Change (s : State T) (t : Tid) (s' : State T) : Prop where
  fresh : ∀ a, s'.status a = .fresh → s.status a = .fresh
  /-- New nodes are not marked. -/
  node : ∀ a, (s'.pc t).node = some a → marked s' a = false
  marks : ∀ a, s'.status a ≠ .fresh → marked s' a = true →
    s.status a ≠ .fresh ∧ marked s a = true ∨ Marks s t a
  keeps : ∀ a, s.status a ≠ .fresh → marked s a = true → marked s' a = true
  reach : ∀ a, Reach s'.link a → Reach s.link a ∨ (s.pc t).node = some a
  leaves : ∀ a, Reach s.link a → Reach s'.link a ∨ (s'.pc t).pending = some a
  unlinked : ∀ a, (s'.pc t).pending = some a →
    Reach s.link a ∧ marked s a = true ∧ ¬Reach s'.link a

section

variable {s s' : State T} {nodes : List Addr} {phase : Addr → Phase} {t : Tid}

/-- A step that changes no mark. -/
theorem Change.keep {x : State T} {pc : Pc T}
    (hst : ∀ a, x.status a = .fresh ↔ s.status a = .fresh)
    (hmark : ∀ a, marked x a = marked s a) (hnode : ∀ a, pc.node = some a → marked s a = false)
    (hreach : ∀ a, Reach x.link a → Reach s.link a ∨ (s.pc t).node = some a)
    (hleaves : ∀ a, Reach s.link a → Reach x.link a ∨ pc.pending = some a)
    (hpend : ∀ a, pc.pending = some a → Reach s.link a ∧ marked s a = true ∧ ¬Reach x.link a) :
    Change s t (x.goto t pc) := by
  refine ⟨fun a => (hst a).mp, ?_, ?_, ?_, hreach, ?_, ?_⟩
  · intro a ha
    rw [State.goto_pc_same] at ha
    exact (hmark a).trans (hnode a ha)
  · intro a ha hm
    exact .inl ⟨fun hf => ha ((hst a).mpr hf), (hmark a).symm.trans hm⟩
  · intro a _ hm
    exact (hmark a).trans hm
  · intro a ha
    rw [State.goto_pc_same]
    exact hleaves a ha
  · intro a ha
    rw [State.goto_pc_same] at ha
    exact hpend a ha

/-- A step that stores to no link. -/
theorem Change.quiet {x : State T} {pc : Pc T} (hlink : x.link = s.link)
    (hst : ∀ a, x.status a = .fresh ↔ s.status a = .fresh)
    (hnode : ∀ a, pc.node = some a → marked s a = false) (hpend : pc.pending = none) :
    Change s t (x.goto t pc) := by
  refine .keep hst (fun a => by rw [marked, hlink, marked]) hnode ?_ ?_ ?_
  · intro a ha
    rw [hlink] at ha
    exact .inl ha
  · intro a ha
    rw [hlink]
    exact .inl ha
  · intro a ha
    rw [hpend] at ha
    cases ha

/-- A store that changes no mark. -/
theorem marked_setLink {c : Cell Addr} {l : Link} (hm : (s.link c).mark = l.mark) (a : Addr) :
    marked (s.setLink c l) a = marked s a :=
  setLink_mark hm (.next a)

variable [LinearOrder T]

theorem Change.alloc (hcore : Core s nodes phase) {a : Addr} (ha : s.status a = .fresh) (key : T)
    (value : Option ℤ) :
    Change s t ((s.newNode a key value).goto t (.start (.insert key value a))) := by
  obtain ⟨hcore', -⟩ := hcore.newNode (t := t) (a := a) (by rw [ha]; nofun) key value
  have hreach : ∀ b, Reach (s.newNode a key value).link b ↔ Reach s.link b := by
    intro b
    rw [reach_iff hcore'.path, reach_iff hcore.path]
  have hnew : marked (s.newNode a key value) a = false := by simp [marked, State.newNode]
  have hold : ∀ {b}, b ≠ a → marked (s.newNode a key value) b = marked s b := by
    intro b hb
    rw [marked, marked, show (s.newNode a key value).link (.next b) = s.link (.next b) from
      Function.update_of_ne (fun heq => hb (Cell.next.inj heq)) ..]
  have hst : ∀ {b}, b ≠ a → (s.newNode a key value).status b = s.status b :=
    fun hb => Function.update_of_ne hb ..
  refine ⟨?_, ?_, ?_, ?_, fun b hb => .inl ((hreach b).mp hb),
    fun b hb => .inl ((hreach b).mpr hb), ?_⟩
  · intro b hb
    by_cases hba : b = a
    · rw [hba]
      exact ha
    · exact (hst hba).symm.trans hb
  · intro b hb
    rw [State.goto_pc_same] at hb
    obtain rfl := Option.some.inj hb
    exact hnew
  · intro b hb hm
    have hba : b ≠ a := by
      rintro rfl
      exact absurd (hm.symm.trans hnew) (by decide)
    exact .inl ⟨fun hf => hb ((hst hba).trans hf), (hold hba).symm.trans hm⟩
  · intro b hb hm
    have hba : b ≠ a := by
      rintro rfl
      exact hb ha
    exact (hold hba).trans hm
  · intro b hb
    rw [State.goto_pc_same] at hb
    cases hb

theorem Change.setNext (hcore : Core s nodes phase) {node : Addr} (hp : phase node = .priv t)
    (hm : marked s node = false) {cur : Option Addr} {pc : Pc T} (hnode : pc.node = some node)
    (hpend : pc.pending = none) :
    Change s t ((s.setLink (.next node) ⟨cur, false⟩).goto t pc) := by
  obtain ⟨hcore', -⟩ := hcore.setNext hp ⟨cur, false⟩
  have hreach : ∀ b, Reach (s.setLink (.next node) ⟨cur, false⟩).link b ↔ Reach s.link b := by
    intro b
    rw [reach_iff hcore'.path, reach_iff hcore.path]
  refine .keep (fun _ => .rfl) (marked_setLink hm) ?_ (fun b hb => .inl ((hreach b).mp hb))
    (fun b hb => .inl ((hreach b).mpr hb)) ?_
  · intro a ha
    rw [hnode] at ha
    obtain rfl := Option.some.inj ha
    exact hm
  · intro a ha
    rw [hpend] at ha
    cases ha

/-- The compare-and-swap of `insert`. -/
theorem Change.insert (hcore : Core s nodes phase) {prev : Cell Addr} {cur : Option Addr}
    {node : Addr} (hprev : OnChain nodes prev) (hv : s.link prev = ⟨cur, false⟩)
    (hn : s.link (.next node) = ⟨cur, false⟩) (hp : phase node = .priv t)
    (hlo : ∀ p ∈ cellNode prev, s.data p < s.data node)
    (hhi : ∀ b, cur = some b → s.data node < s.data b) (hnode : (s.pc t).node = some node)
    {op : Op T} {res : Bool} {value : Option ℤ} :
    Change s t ((s.setLink prev ⟨some node, false⟩).goto t (.done op res value)) := by
  obtain ⟨nodes', hcore', -, hmem⟩ := hcore.insert hprev hv hn hp hlo hhi
  have hreach : ∀ b, Reach (s.setLink prev ⟨some node, false⟩).link b
      ↔ b = node ∨ Reach s.link b := by
    intro b
    rw [reach_iff hcore'.path, reach_iff hcore.path, hmem]
  refine .keep (fun _ => .rfl) (marked_setLink (by rw [hv])) nofun ?_
    (fun b hb => .inl ((hreach b).mpr (.inr hb))) nofun
  intro b hb
  rcases (hreach b).mp hb with rfl | hb
  · exact .inr hnode
  · exact .inl hb

theorem Change.mark (hcore : Core s nodes phase) {key : T} {prev : Cell Addr} {cur : Addr}
    {next : Option Addr} (h : s.pc t = .casMark key prev cur next) (hmem : cur ∈ nodes)
    (hv : s.link (.next cur) = ⟨next, false⟩) :
    Change s t ((s.setLink (.next cur) ⟨next, true⟩).goto t (.casUnlink key prev cur next)) := by
  obtain ⟨hcore', -⟩ := hcore.mark (t := t) hmem hv
  have hself : marked (s.setLink (.next cur) ⟨next, true⟩) cur = true := by
    rw [marked, State.setLink_same]
  have hold : ∀ {b}, b ≠ cur → marked (s.setLink (.next cur) ⟨next, true⟩) b = marked s b := by
    intro b hb
    rw [marked, State.setLink_of_ne _ _ (fun heq => hb (Cell.next.inj heq)), marked]
  have hreach : ∀ b, Reach (s.setLink (.next cur) ⟨next, true⟩).link b ↔ Reach s.link b := by
    intro b
    rw [reach_iff hcore'.path, reach_iff hcore.path]
  refine ⟨fun _ ha => ha, ?_, ?_, ?_, fun b hb => .inl ((hreach b).mp hb),
    fun b hb => .inl ((hreach b).mpr hb), ?_⟩
  · intro a ha
    rw [State.goto_pc_same] at ha
    cases ha
  · intro a ha hma
    by_cases hac : a = cur
    · rw [hac]
      exact .inr ⟨key, prev, next, h, hv⟩
    · exact .inl ⟨ha, (hold hac).symm.trans hma⟩
  · intro a _ hma
    by_cases hac : a = cur
    · rw [hac]
      exact hself
    · exact (hold hac).trans hma
  · intro a ha
    rw [State.goto_pc_same] at ha
    cases ha

theorem Change.unlink (hcore : Core s nodes phase) {prev : Cell Addr} {cur : Addr}
    {next : Option Addr} {after : After T} (hprev : OnChain nodes prev)
    (hv : s.link prev = ⟨some cur, false⟩) (hn : s.link (.next cur) = ⟨next, true⟩)
    (hnode : ∀ a, after.node = some a → marked s a = false) :
    Change s t ((s.setLink prev ⟨next, false⟩).goto t (.retire cur after)) := by
  obtain ⟨nodes', hcore', -, hp, hmem⟩ := hcore.unlink (t := t) hprev hv hn
  have hreach : ∀ b, Reach (s.setLink prev ⟨next, false⟩).link b ↔ Reach s.link b ∧ b ≠ cur := by
    intro b
    rw [reach_iff hcore'.path, reach_iff hcore.path, hmem]
  refine .keep (fun _ => .rfl) (marked_setLink (by rw [hv])) hnode
    (fun b hb => .inl ((hreach b).mp hb).1) ?_ ?_
  · intro b hb
    by_cases hbc : b = cur
    · rw [hbc]
      exact .inr rfl
    · exact .inl ((hreach b).mpr ⟨hb, hbc⟩)
  · intro a ha
    obtain rfl := Option.some.inj ha
    refine ⟨(reach_iff hcore.path).mpr ((hcore.linked cur).mp hp), ?_, ?_⟩
    · rw [marked, hn]
    · exact fun hr => ((hreach cur).mp hr).2 rfl

theorem Move.change {n maxRetired : ℕ} {act : Act T} (hI : Inv s)
    (hm : Move n maxRetired s t act s') (hfresh : ∀ a, act = .alloc a → s.status a = .fresh)
    (hnode : ∀ a, (s.pc t).node = some a → marked s a = false) : Change s t s' := by
  obtain ⟨nodes, phase, hcore, hth⟩ := hI
  have ht := hth t
  have hok := ht.ok
  have hheld := ht.held
  -- a step that stores to no link and deletes nothing
  have hquiet : ∀ {x : State T} {pc : Pc T}, x.link = s.link → x.status = s.status →
      (∀ a, pc.node = some a → (s.pc t).node = some a) → pc.pending = none →
      Change s t (x.goto t pc) := by
    intro x pc hl hst hn hp
    exact .quiet hl (fun a => by rw [hst]) (fun a ha => hnode a (hn a ha)) hp
  have hprev : ∀ {prev : Cell Addr} {l : List Addr} {cur : Option Addr},
      (s.pc t).held = cellNode prev ++ l → s.link prev = ⟨cur, false⟩ → OnChain nodes prev := by
    intro prev l cur hh hv
    refine hcore.onChain (fun a ha => hheld a ?_) (by rw [hv])
    rw [hh]
    exact List.mem_append_left _ ha
  have hfree : ∀ {a : Addr}, s.status a = .live → ∀ b, (s.free a).status b = .fresh
      ↔ s.status b = .fresh := by
    intro a ha b
    by_cases hba : b = a
    · rw [hba, ha]
      simp [State.free]
    · rw [State.free_status_of_ne _ hba]
  cases hm with
  | call op h =>
      refine hquiet rfl rfl ?_ ?_
      · cases op <;> simp [enter, Pc.node, Call.node]
      · cases op <;> rfl
  | alloc a h ha => exact .alloc hcore (hfresh a rfl) _ _
  | start h => exact hquiet rfl rfl (fun a ha => by rw [h, ← ha, loop_node]; rfl) (loop_pending ..)
  | publish h => exact hquiet rfl rfl (fun a ha => by rw [h]; exact ha) rfl
  | retry h =>
      refine hquiet rfl rfl (fun a ha => ?_) rfl
      rw [← (retry_ok h hok).2.1]
      exact ha
  | validate h hv => exact hquiet rfl rfl (fun a ha => by rw [h]; exact ha) rfl
  | readMarked h hn => exact hquiet rfl rfl (fun a ha => by rw [h]; exact ha) rfl
  | readUnmarked h hn => exact hquiet rfl rfl (fun a ha => by rw [h]; exact ha) rfl
  | @unlink c prev cur next h hv =>
      rw [h] at hok
      exact .unlink hcore (hprev (l := [cur]) (by rw [h]; rfl) hv) hv hok.2.2
        fun a ha => hnode a (by rw [h]; exact ha)
  | readKey h => exact hquiet rfl rfl (fun a ha => by rw [h]; exact ha) rfl
  | found h hv =>
      exact hquiet rfl rfl (fun a ha => by rw [h, ← ha, found_node]; rfl) (found_pending ..)
  | notFound h hv hk =>
      exact hquiet rfl rfl (fun a ha => by rw [h, ← ha, notFound_node]; rfl) (notFound_pending ..)
  | advance h hv hk => exact hquiet rfl rfl (fun a ha => by rw [h]; exact ha) rfl
  | readValue h => exact hquiet rfl rfl (fun a ha => by cases ha) rfl
  | swap1 h => exact hquiet rfl rfl (fun a ha => by rw [h]; exact ha) rfl
  | swap2 h =>
      exact hquiet rfl rfl (fun a ha => by rw [loop_node] at ha; rw [h]; exact ha) (loop_pending ..)
  | retireScan h hc => exact hquiet rfl rfl (fun a ha => by rw [h]; exact ha) rfl
  | retireOnly h hc =>
      exact hquiet rfl rfl (fun a ha => by rw [resume_node] at ha; rw [h]; exact ha)
        (resume_pending ..)
  | scanSlot h hpos => exact hquiet rfl rfl (fun a ha => by rw [h]; exact ha) rfl
  | scanEnd h hpos => exact hquiet rfl rfl (fun a ha => by rw [h]; exact ha) rfl
  | visitActive a h ha hact => exact hquiet rfl rfl (fun a ha => by rw [h]; exact ha) rfl
  | @visitFree active todo after a h ha hact =>
      have hmem : a ∈ s.retired t := ht.todo (by rw [h]; exact ha)
      have hp : phase a = .limbo t := (ht.limbo a).mpr (.inl hmem)
      have hlive : s.status a = .live := (hcore.live a).mpr (by simp [hp])
      exact .quiet rfl (hfree hlive) (fun b hb => hnode b (by rw [h]; exact hb)) rfl
  | sweepEnd h =>
      exact hquiet rfl rfl (fun a ha => by rw [resume_node] at ha; rw [h]; exact ha)
        (resume_pending ..)
  | @setNext key value node prev cur h =>
      have hn : (s.pc t).node = some node := by rw [h]; rfl
      exact .setNext hcore ((ht.priv node).mpr hn) (hnode node hn) rfl rfl
  | @casInsert key value node prev cur h hv =>
      have hn : (s.pc t).node = some node := by rw [h]; rfl
      rw [h] at hok
      obtain ⟨hk, hb, ha, hlink⟩ := hok
      exact .insert hcore (hprev (l := cur.toList) (by rw [h]; rfl) hv) hv hlink
        ((ht.priv node).mpr hn) (fun p hp => by rw [hk]; exact hb p hp)
        (fun b hb => by rw [hk]; exact ha b hb) hn
  | @deleteNew key value node h =>
      have hp : phase node = .priv t := (ht.priv node).mpr (by rw [h]; rfl)
      have hlive : s.status node = .live := (hcore.live node).mpr (by simp [hp])
      exact .quiet rfl (hfree hlive) (fun b hb => by cases hb) rfl
  | @casMark key prev cur next h hv =>
      rw [h] at hheld
      exact .mark hcore h (hcore.mem_of_unmarked (hheld cur (by simp [Pc.held])) (by rw [hv])) hv
  | @casUnlink key prev cur next h hv =>
      rw [h] at hok
      exact .unlink hcore (hprev (l := [cur]) (by rw [h]; rfl) hv) hv hok.2 fun a ha => by cases ha
  | ret h => exact hquiet rfl rfl (fun a ha => by cases ha) rfl

end

/-! ## The account of the marked nodes -/

/-- A node that is off the chain for good. -/
structure Off (s : State T) (a : Addr) : Prop where
  used : s.status a ≠ .fresh
  marked : marked s a = true
  reach : ¬Reach s.link a

/-- `Done a` says that `a` has been retired before. -/
structure Tidy (Done : Addr → Prop) (s : State T) : Prop where
  node : ∀ t a, (s.pc t).node = some a → marked s a = false
  off : ∀ a, Done a → Off s a
  once : ∀ a t, Done a → (s.pc t).pending ≠ some a
  marked : ∀ a, s.status a ≠ .fresh → marked s a = true →
    Reach s.link a ∨ (∃ t, (s.pc t).pending = some a) ∨ Done a

section

variable {s s' : State T} {t : Tid} {Done : Addr → Prop}

/-- What is off the chain stays there. -/
theorem Off.change {a : Addr} (h : Off s a) (hc : Change s t s')
    (hnode : ∀ a, (s.pc t).node = some a → LockFreeList.marked s a = false) : Off s' a := by
  refine ⟨fun hf => h.used (hc.fresh a hf), hc.keeps a h.used h.marked, ?_⟩
  intro hr
  rcases hc.reach a hr with hr | hn
  · exact h.reach hr
  · exact absurd (h.marked.symm.trans (hnode a hn)) (by decide)

variable [LinearOrder T]

/-- A node that a thread has unlinked and not retired yet is with this
thread alone. -/
theorem Inv.pending (hI : Inv s) {a : Addr} (h : (s.pc t).pending = some a) :
    Off s a ∧ ∀ u, (s.pc u).pending = some a → u = t := by
  obtain ⟨nodes, phase, hcore, hth⟩ := hI
  have hp : phase a = .limbo t := ((hth t).limbo a).mpr (.inr h)
  refine ⟨⟨?_, hcore.marked a (.inr ⟨t, hp⟩), ?_⟩, ?_⟩
  · rw [(hcore.live a).mpr (by simp [hp])]
    nofun
  · rw [reach_iff hcore.path]
    exact hcore.not_mem (by simp [hp])
  · intro u hu
    have hpu : phase a = .limbo u := ((hth u).limbo a).mpr (.inr hu)
    rw [hp] at hpu
    exact (Phase.limbo.inj hpu).symm

/-- A new node is in use. -/
theorem Inv.used_of_node (hI : Inv s) {a : Addr} (h : (s.pc t).node = some a) :
    s.status a ≠ .fresh := by
  obtain ⟨nodes, phase, hcore, hth⟩ := hI
  have hp : phase a = .priv t := ((hth t).priv a).mpr h
  rw [(hcore.live a).mpr (by simp [hp])]
  nofun

/-- The new nodes of other threads are not marked. -/
theorem Change.node_of_ne (hI : Inv s) (hc : Change s t s') {u : Tid} {a : Addr}
    (hn : (s.pc u).node = some a) (hm : LockFreeList.marked s a = false) :
    LockFreeList.marked s' a = false := by
  by_contra hm'
  rw [Bool.not_eq_false] at hm'
  have hused := hI.used_of_node hn
  by_cases hf : s'.status a = .fresh
  · exact hused (hc.fresh a hf)
  · rcases hc.marks a hf hm' with ⟨-, hold⟩ | ⟨key, prev, next, hpc, hlink⟩
    · exact absurd (hold.symm.trans hm) (by decide)
    · -- the node of an `insert` under way is not on the chain
      obtain ⟨nodes, phase, hcore, hth⟩ := hI
      have hp : phase a = .priv u := ((hth u).priv a).mpr hn
      have hpub := (hth t).held a (by rw [hpc]; simp [Pc.held])
      rw [hp] at hpub
      exact hpub

theorem Tidy.change (h : Tidy Done s) (hI : Inv s) (hc : Change s t s')
    (hpcs : ∀ u, u ≠ t → s'.pc u = s.pc u) :
    Tidy (fun a => Done a ∨ (s.pc t).pending = some a) s' := by
  refine ⟨?_, ?_, ?_, ?_⟩
  · intro u a ha
    by_cases hu : u = t
    · rw [hu] at ha
      exact hc.node a ha
    · rw [hpcs u hu] at ha
      exact hc.node_of_ne hI ha (h.node u a ha)
  · rintro a (hd | hp)
    · exact (h.off a hd).change hc (h.node t)
    · exact (hI.pending hp).1.change hc (h.node t)
  · intro a u hd hu
    have hoff : Off s a := by
      rcases hd with hd | hp
      · exact h.off a hd
      · exact (hI.pending hp).1
    by_cases hut : u = t
    · rw [hut] at hu
      exact hoff.reach (hc.unlinked a hu).1
    · rw [hpcs u hut] at hu
      rcases hd with hd | hp
      · exact h.once a u hd hu
      · exact hut ((hI.pending hp).2 u hu)
  · intro a hused hm
    -- a node marked by this step is on the chain, all others have been marked before
    have hbefore : Reach s.link a ∨ (∃ u, (s.pc u).pending = some a) ∨ Done a := by
      rcases hc.marks a hused hm with ⟨hu, hm⟩ | ⟨key, prev, next, hpc, hlink⟩
      · exact h.marked a hu hm
      · obtain ⟨nodes, phase, hcore, hth⟩ := hI
        have hpub := (hth t).held a (by rw [hpc]; simp [Pc.held])
        exact .inl ((reach_iff hcore.path).mpr (hcore.mem_of_unmarked hpub (by rw [hlink])))
    rcases hbefore with hr | ⟨u, hu⟩ | hd
    · rcases hc.leaves a hr with hr | hp
      · exact .inl hr
      · exact .inr (.inl ⟨t, hp⟩)
    · by_cases hut : u = t
      · rw [hut] at hu
        exact .inr (.inr (.inr hu))
      · exact .inr (.inl ⟨u, by rw [hpcs u hut]; exact hu⟩)
    · exact .inr (.inr (.inl hd))

end

end LockFreeList

end HttpServer
