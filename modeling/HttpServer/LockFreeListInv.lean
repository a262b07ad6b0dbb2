import HttpServer.LockFreeListCore

/-!
# The invariant of the lock-free list

`PcOk` is what a thread knows at each instruction: the node `prev`
belongs to is before the key, a marked `cur` keeps its link, the new
node has the key, and so on. It is stable under the steps of the other
threads (`ThreadOk.frame`), so the invariant - some chain and some
phases explain the memory and what every thread knows - is kept by every
step that does not allocate an address some thread still holds
(`Inv.move`).
-/

namespace HttpServer

namespace LockFreeList

open Chain

variable {T : Type} {s : State T} {nodes : List Addr} {phase : Addr → Phase} {t : Tid}

/-! ## What a thread knows -/

def CallOk (s : State T) : Call T → Prop
  | .insert key _ node => s.data node = key
  | _ => True

theorem CallOk.congr {s' : State T} {c : Call T} (h : CallOk s c)
    (hd : ∀ a ∈ c.node, s'.data a = s.data a) : CallOk s' c := by
  cases c with
  | insert key value node => exact (hd node rfl).trans h
  | remove key => trivial
  | help key => trivial
  | lookup key value => trivial

section

variable [LinearOrder T]

/-- The node `prev` belongs to is before the key. -/
def Below (s : State T) (prev : Cell Addr) (key : T) : Prop := ∀ p ∈ cellNode prev, s.data p < key

def AfterOk (s : State T) : After T → Prop
  | .loop c prev _ => CallOk s c ∧ Below s prev c.key
  | .done _ => True

def PcOk (s : State T) : Pc T → Prop
  | .start c => CallOk s c
  | .publish c prev _ => CallOk s c ∧ Below s prev c.key
  | .validate c prev _ => CallOk s c ∧ Below s prev c.key
  | .readNext c prev _ => CallOk s c ∧ Below s prev c.key
  | .unlink c prev cur next => CallOk s c ∧ Below s prev c.key ∧ s.link (.next cur) = ⟨next, true⟩
  | .readKey c prev _ _ => CallOk s c ∧ Below s prev c.key
  | .compare c prev cur _ curKey => CallOk s c ∧ Below s prev c.key ∧ s.data cur = curKey
  | .readValue key cur => s.data cur = key
  | .swap1 c cur _ => CallOk s c ∧ s.data cur < c.key
  | .swap2 c cur _ _ => CallOk s c ∧ s.data cur < c.key
  | .retire _ after => AfterOk s after
  | .scan _ _ after => AfterOk s after
  | .sweep _ _ after => AfterOk s after
  | .setNext key _ node prev cur =>
      s.data node = key ∧ Below s prev key ∧ ∀ b ∈ cur, key < s.data b
  | .casInsert key _ node prev cur =>
      s.data node = key ∧ Below s prev key ∧ (∀ b ∈ cur, key < s.data b)
        ∧ s.link (.next node) = ⟨cur, false⟩
  | .casMark key prev cur _ => Below s prev key ∧ s.data cur = key
  | .casUnlink key prev cur next => Below s prev key ∧ s.link (.next cur) = ⟨next, true⟩
  | _ => True

structure ThreadOk (s : State T) (phase : Addr → Phase) (t : Tid) : Prop where
  priv : ∀ a, phase a = .priv t ↔ (s.pc t).node = some a
  limbo : ∀ a, phase a = .limbo t ↔ a ∈ s.retired t ∨ (s.pc t).pending = some a
  todo : (s.pc t).todo ⊆ s.retired t
  held : ∀ a ∈ (s.pc t).held, (phase a).Pub
  ok : PcOk s (s.pc t)

/-- The invariant: some chain and some phases explain the memory and
what every thread knows. -/
def Inv (s : State T) : Prop :=
  ∃ nodes phase, Core s nodes phase ∧ ∀ t, ThreadOk s phase t

section

variable {s' : State T}

theorem Below.congr {prev : Cell Addr} {key : T} (h : Below s prev key)
    (hd : ∀ p ∈ cellNode prev, s'.data p = s.data p) : Below s' prev key := by
  intro p hp
  rw [hd p hp]
  exact h p hp

theorem AfterOk.congr {after : After T} (h : AfterOk s after)
    (hn : ∀ a ∈ after.node, s'.data a = s.data a)
    (hd : ∀ a ∈ after.held, s'.data a = s.data a) : AfterOk s' after := by
  cases after with
  | loop c prev cur => exact ⟨h.1.congr hn, h.2.congr hd⟩
  | done key => trivial

/-- What a thread knows only depends on the data of the nodes at hand, on
the link of its own new node and on the links of marked nodes it holds. -/
theorem PcOk.congr {pc : Pc T} (h : PcOk s pc) (hn : ∀ a ∈ pc.node, s'.data a = s.data a)
    (hl : ∀ a ∈ pc.node, s'.link (.next a) = s.link (.next a))
    (hd : ∀ a ∈ pc.held, s'.data a = s.data a)
    (hm : ∀ a ∈ pc.held, (s.link (.next a)).mark = true → s'.link (.next a) = s.link (.next a)) :
    PcOk s' pc := by
  cases pc with
  | idle => trivial
  | new key value => trivial
  | start c => exact CallOk.congr h hn
  | publish c prev cur => exact ⟨h.1.congr hn, h.2.congr hd⟩
  | validate c prev cur => exact ⟨h.1.congr hn, h.2.congr hd⟩
  | readNext c prev cur =>
      exact ⟨h.1.congr hn, h.2.congr fun p hp => hd p (List.mem_append_left _ hp)⟩
  | unlink c prev cur next =>
      refine ⟨h.1.congr hn, h.2.1.congr fun p hp => hd p (List.mem_append_left _ hp), ?_⟩
      rw [hm cur (by simp [Pc.held]) (by rw [h.2.2])]
      exact h.2.2
  | readKey c prev cur next =>
      exact ⟨h.1.congr hn, h.2.congr fun p hp => hd p (List.mem_append_left _ hp)⟩
  | compare c prev cur next curKey =>
      refine ⟨h.1.congr hn, h.2.1.congr fun p hp => hd p (List.mem_append_left _ hp), ?_⟩
      rw [hd cur (by simp [Pc.held])]
      exact h.2.2
  | readValue key cur => exact (hd cur (by simp [Pc.held])).trans h
  | swap1 c cur next =>
      refine ⟨h.1.congr hn, ?_⟩
      rw [hd cur (by simp [Pc.held])]
      exact h.2
  | swap2 c cur next temp =>
      refine ⟨h.1.congr hn, ?_⟩
      rw [hd cur (by simp [Pc.held])]
      exact h.2
  | retire node after => exact AfterOk.congr h hn hd
  | scan active pos after => exact AfterOk.congr h hn hd
  | sweep active todo after => exact AfterOk.congr h hn hd
  | setNext key value node prev cur =>
      refine ⟨(hn node rfl).trans h.1, h.2.1.congr fun p hp => hd p (List.mem_append_left _ hp),
        fun b hb => ?_⟩
      rw [hd b (List.mem_append_right _ (by simpa using hb))]
      exact h.2.2 b hb
  | casInsert key value node prev cur =>
      refine ⟨(hn node rfl).trans h.1, h.2.1.congr fun p hp => hd p (List.mem_append_left _ hp),
        fun b hb => ?_, (hl node rfl).trans h.2.2.2⟩
      rw [hd b (List.mem_append_right _ (by simpa using hb))]
      exact h.2.2.1 b hb
  | deleteNew key value node => trivial
  | casMark key prev cur next =>
      refine ⟨h.1.congr fun p hp => hd p (List.mem_append_left _ hp), ?_⟩
      rw [hd cur (by simp [Pc.held])]
      exact h.2
  | casUnlink key prev cur next =>
      refine ⟨h.1.congr fun p hp => hd p (List.mem_append_left _ hp), ?_⟩
      rw [hm cur (by simp [Pc.held]) (by rw [h.2])]
      exact h.2
  | done op res value => trivial

variable {H : Addr → Prop} {phase' : Addr → Phase}

/-- A thread that does not move keeps what it knows. -/
theorem ThreadOk.frame {u : Tid} (hu : u ≠ t) (h : ThreadOk s phase u)
    (hf : Frame H t s s' phase phase') (hH : ∀ a ∈ (s.pc u).held, H a)
    (hpc : s'.pc u = s.pc u) (hret : s'.retired u = s.retired u) : ThreadOk s' phase' u := by
  refine ⟨fun a => ?_, fun a => ?_, ?_, fun a ha => ?_, ?_⟩
  · rw [hf.priv a u hu, hpc]
    exact h.priv a
  · rw [hf.limbo a u hu, hpc, hret]
    exact h.limbo a
  · rw [hpc, hret]
    exact h.todo
  · rw [hpc] at ha
    exact hf.pub a (hH a ha) (h.held a ha)
  · rw [hpc]
    have hpriv : ∀ a ∈ (s.pc u).node, phase a = .priv u := fun a ha => (h.priv a).mpr ha
    exact h.ok.congr (fun a ha => (hf.privData a u hu (hpriv a ha)).1)
      (fun a ha => (hf.privData a u hu (hpriv a ha)).2)
      (fun a ha => hf.data a (hH a ha) (h.held a ha))
      (fun a ha => hf.frozen a (hH a ha) (h.held a ha))

/-- The step of a thread that neither gets nor gives away a node. -/
theorem ThreadOk.keep {pc : Pc T} (h : ThreadOk s phase t) (hpc : s'.pc t = pc)
    (hret : s'.retired t = s.retired t) (hnode : pc.node = (s.pc t).node)
    (hpend : pc.pending = (s.pc t).pending) (htodo : pc.todo ⊆ s.retired t)
    (hheld : ∀ a ∈ pc.held, (phase a).Pub) (hok : PcOk s' pc) : ThreadOk s' phase t := by
  subst hpc
  refine ⟨fun a => ?_, fun a => ?_, ?_, hheld, hok⟩
  · rw [hnode]
    exact h.priv a
  · rw [hret, hpend]
    exact h.limbo a
  · rw [hret]
    exact htodo

/-- The last step of an `insert`: its new node goes to another phase. -/
theorem ThreadOk.release {op : Op T} {res : Bool} {value : Option ℤ} {a : Addr} {q : Phase}
    (h : ThreadOk s phase t) (hnode : (s.pc t).node = some a) (hpend : (s.pc t).pending = none)
    (hpc : s'.pc t = .done op res value) (hret : s'.retired t = s.retired t)
    (hq : q ≠ .priv t ∧ q ≠ .limbo t) : ThreadOk s' (Function.update phase a q) t := by
  have hp : phase a = .priv t := (h.priv a).mpr hnode
  refine ⟨fun b => ?_, fun b => ?_, ?_, ?_, ?_⟩
  · have hb := h.priv b
    rw [hnode] at hb
    rw [hpc, show (Pc.done op res value).node = none from rfl]
    by_cases hba : b = a
    · simp [hba, hq.1]
    · rw [Function.update_of_ne hba, hb]
      simp [Ne.symm hba]
  · have hb := h.limbo b
    rw [hpend] at hb
    rw [hpc, hret, show (Pc.done op res value).pending = none from rfl]
    by_cases hba : b = a
    · subst hba
      rw [hp] at hb
      simpa [hq.2] using hb
    · rw [Function.update_of_ne hba]
      exact hb
  · rw [hpc]
    exact Finset.empty_subset _
  · rw [hpc]
    simp [Pc.held]
  · rw [hpc]
    trivial

end

/-- The invariant after a step of `t`, from its parts: `x` is the memory
after the step, the state `s'` has it with `t` moved on. -/
theorem Inv.assemble {H : Addr → Prop} {x s' : State T} {nodes' : List Addr}
    {phase' : Addr → Phase} (hth : ∀ u, ThreadOk s phase u) (hcore : Core x nodes' phase')
    (hf : Frame H t s x phase phase') (hH : ∀ u, ∀ a ∈ (s.pc u).held, H a)
    (hlink : s'.link = x.link) (hdata : s'.data = x.data) (hst : s'.status = x.status)
    (hpc : ∀ u, u ≠ t → s'.pc u = s.pc u) (hret : ∀ u, u ≠ t → s'.retired u = s.retired u)
    (hown : ThreadOk s' phase' t) : Inv s' := by
  refine ⟨nodes', phase', hcore.congr hlink hdata hst, fun u => ?_⟩
  by_cases hu : u = t
  · rw [hu]
    exact hown
  · exact (hth u).frame hu (hf.congr hlink hdata) (hH u) (hpc u hu) (hret u hu)

/-! ## Steps -/

theorem found_ok {c : Call T} {prev : Cell Addr} {cur : Addr} {next : Option Addr}
    (hb : Below s prev c.key) (hk : s.data cur = c.key) : PcOk s (found c prev cur next) := by
  rcases c with ⟨_, _, _⟩ | ⟨_⟩ | ⟨_⟩ | ⟨_, _ | _⟩
  · trivial
  · exact ⟨hb, hk⟩
  · trivial
  · trivial
  · exact hk

theorem notFound_ok {c : Call T} {prev : Cell Addr} {cur : Option Addr} (hc : CallOk s c)
    (hb : Below s prev c.key) (hk : ∀ b ∈ cur, c.key < s.data b) :
    PcOk s (notFound c prev cur) := by
  cases c with
  | insert key value node => exact ⟨hc, hb, hk⟩
  | remove key => trivial
  | help key => trivial
  | lookup key value => trivial

theorem loop_ok {c : Call T} {prev : Cell Addr} {cur : Option Addr} (hc : CallOk s c)
    (hb : Below s prev c.key) : PcOk s (loop c prev cur) := by
  cases cur with
  | none => exact notFound_ok hc hb (by simp)
  | some a => exact ⟨hc, hb⟩

theorem resume_ok {after : After T} (h : AfterOk s after) : PcOk s (resume after) := by
  cases after with
  | loop c prev cur => exact loop_ok h.1 h.2
  | done key => trivial

/-- The lookup started over is that of the same call. -/
theorem retry_ok {pc : Pc T} {c : Call T} (h : pc.retry = some c) (hok : PcOk s pc) :
    CallOk s c ∧ c.node = pc.node ∧ pc.pending = none := by
  cases pc with
  | validate c prev cur => cases h; exact ⟨hok.1, rfl, rfl⟩
  | unlink c prev cur next => cases h; exact ⟨hok.1, rfl, rfl⟩
  | compare c prev cur next curKey => cases h; exact ⟨hok.1, rfl, rfl⟩
  | casInsert key value node prev cur => cases h; exact ⟨hok.1, rfl, rfl⟩
  | casMark key prev cur next => cases h; exact ⟨trivial, rfl, rfl⟩
  | casUnlink key prev cur next => cases h; exact ⟨trivial, rfl, rfl⟩
  | _ => cases h

/-- A step of `t` that leaves the list alone. -/
theorem Inv.quiet {x : State T} {pc : Pc T} (hcore : Core s nodes phase)
    (hth : ∀ u, ThreadOk s phase u) (hlink : x.link = s.link) (hdata : x.data = s.data)
    (hst : x.status = s.status) (hret : x.retired = s.retired) (hpcs : x.pc = s.pc)
    (hnode : pc.node = (s.pc t).node) (hpend : pc.pending = (s.pc t).pending)
    (htodo : pc.todo ⊆ s.retired t) (hheld : ∀ a ∈ pc.held, (phase a).Pub) (hok : PcOk s pc) :
    Inv (x.goto t pc) := by
  refine Inv.assemble hth hcore (Frame.refl (fun _ => True) t s phase) (fun _ _ _ => trivial)
    hlink hdata hst (fun u hu => ?_) (fun u _ => congrFun hret u) ?_
  · rw [State.goto_pc_of_ne _ _ hu, hpcs]
  · refine (hth t).keep (State.goto_pc_same ..) (congrFun hret t) hnode hpend htodo hheld ?_
    have hl : (x.goto t pc).link = s.link := hlink
    have hd : (x.goto t pc).data = s.data := hdata
    exact hok.congr (fun a _ => by rw [hd]) (fun a _ => by rw [hl]) (fun a _ => by rw [hd])
      (fun a _ _ => by rw [hl])

/-- What `*prev == cur` says about the two nodes. -/
theorem Core.valid (h : Core s nodes phase) {prev : Cell Addr} {cur : Addr}
    (hprev : ∀ a ∈ cellNode prev, (phase a).Pub) (hv : s.link prev = ⟨some cur, false⟩) :
    OnChain nodes prev ∧ cur ∈ nodes ∧ phase cur = .linked := by
  have hon := h.onChain hprev (by rw [hv])
  have hmem := h.mem_of_link hon (by rw [hv])
  exact ⟨hon, hmem, (h.linked cur).mpr hmem⟩

/-- The two compare-and-swaps that unlink a node. -/
theorem Inv.unlink {prev : Cell Addr} {cur : Addr} {next : Option Addr} {after : After T}
    (hcore : Core s nodes phase) (hth : ∀ u, ThreadOk s phase u)
    (hprev : ∀ a ∈ cellNode prev, (phase a).Pub) (hv : s.link prev = ⟨some cur, false⟩)
    (hn : s.link (.next cur) = ⟨next, true⟩) (hnode : after.node = (s.pc t).node)
    (hpend : (s.pc t).pending = none) (hafter : ∀ a ∈ after.held, (phase a).Pub)
    (hok : AfterOk s after) :
    Inv ((s.setLink prev ⟨next, false⟩).goto t (.retire cur after)) := by
  have ht := hth t
  obtain ⟨nodes', hcore', hf, hp, -⟩ :=
    hcore.unlink (t := t) (hcore.onChain hprev (by rw [hv])) hv hn
  refine Inv.assemble hth hcore' hf (fun _ _ _ => trivial) rfl rfl rfl
    (fun u hu => State.goto_pc_of_ne _ _ hu) (fun _ _ => rfl) ?_
  refine ⟨fun a => ?_, fun a => ?_, ?_, fun a ha => ?_, ?_⟩
  · rw [State.goto_pc_same, show (Pc.retire cur after).node = after.node from rfl, hnode, ← ht.priv]
    by_cases ha : a = cur
    · simp [ha, hp]
    · rw [Function.update_of_ne ha]
  · have hl := ht.limbo a
    rw [hpend] at hl
    rw [State.goto_pc_same, show (Pc.retire cur after).pending = some cur from rfl]
    by_cases ha : a = cur
    · simp [ha]
    · rw [Function.update_of_ne ha, hl]
      simp [Ne.symm ha]
  · simp [Pc.todo]
  · rw [State.goto_pc_same] at ha
    exact hf.pub a trivial (hafter a ha)
  · rw [State.goto_pc_same]
    exact AfterOk.congr hok (fun _ _ => rfl) (fun _ _ => rfl)

/-- A node in limbo goes on the retired list. -/
theorem Inv.retire {node : Addr} {after : After T} {pc : Pc T} (hcore : Core s nodes phase)
    (hth : ∀ u, ThreadOk s phase u) (h : s.pc t = .retire node after)
    (hnode : pc.node = after.node) (hpend : pc.pending = none) (htodo : pc.todo = ∅)
    (hheld : ∀ a ∈ pc.held, a ∈ after.held) (hok : PcOk s pc) :
    Inv ((s.setRetired t (insert node (s.retired t))).goto t pc) := by
  have ht := hth t
  have hret : ((s.setRetired t (insert node (s.retired t))).goto t pc).retired t
      = insert node (s.retired t) := Function.update_self ..
  refine Inv.assemble hth hcore (Frame.refl (fun _ => True) t s phase) (fun _ _ _ => trivial)
    rfl rfl rfl (fun u hu => State.goto_pc_of_ne _ _ hu) (fun u hu => Function.update_of_ne hu ..)
    ?_
  refine ⟨fun a => ?_, fun a => ?_, ?_, fun a ha => ?_, ?_⟩
  · rw [State.goto_pc_same, hnode, ht.priv, h]
    rfl
  · have hl := ht.limbo a
    rw [h, show (Pc.retire node after).pending = some node from rfl] at hl
    rw [State.goto_pc_same, hpend, hret, hl, Finset.mem_insert]
    simp [or_comm, eq_comm]
  · rw [State.goto_pc_same, htodo]
    exact Finset.empty_subset _
  · rw [State.goto_pc_same] at ha
    refine ht.held a ?_
    rw [h]
    exact hheld a ha
  · rw [State.goto_pc_same]
    exact hok.congr (fun _ _ => rfl) (fun _ _ => rfl) (fun _ _ => rfl) (fun _ _ _ => rfl)

/-- A new node is the private node of the thread that allocates it. -/
theorem Inv.alloc {key : T} {value : Option ℤ} {a : Addr} (hcore : Core s nodes phase)
    (hth : ∀ u, ThreadOk s phase u) (h : s.pc t = .new key value) (ha : s.status a ≠ .live)
    (hfresh : ∀ u, a ∉ (s.pc u).held) :
    Inv ((s.newNode a key value).goto t (.start (.insert key value a))) := by
  have ht := hth t
  obtain ⟨hcore', hf⟩ := hcore.newNode (t := t) ha key value
  have hp : phase a ≠ .priv t ∧ phase a ≠ .limbo t := by
    constructor <;> intro hp <;> exact ha ((hcore.live a).mpr (by simp [hp]))
  refine Inv.assemble hth hcore' hf (fun u b hb hba => hfresh u (hba ▸ hb)) rfl rfl rfl
    (fun u hu => State.goto_pc_of_ne _ _ hu) (fun _ _ => rfl) ?_
  refine ⟨fun b => ?_, fun b => ?_, ?_, ?_, ?_⟩
  · rw [State.goto_pc_same, show (Pc.start (Call.insert key value a)).node = some a from rfl]
    by_cases hb : b = a
    · simp [hb]
    · have := ht.priv b
      rw [h, show (Pc.new key value).node = none from rfl] at this
      rw [Function.update_of_ne hb, this]
      simp [Ne.symm hb]
  · rw [State.goto_pc_same, show (Pc.start (Call.insert key value a)).pending = none from rfl]
    have := ht.limbo b
    rw [h, show (Pc.new key value).pending = none from rfl] at this
    by_cases hb : b = a
    · subst hb
      simpa [hp.2] using this
    · rw [Function.update_of_ne hb]
      exact this
  · simp [Pc.todo]
  · simp [Pc.held]
  · simp [PcOk, CallOk, State.newNode]

/-- A sweep deletes a node of the thread's retired list. -/
theorem Inv.delete {active todo : Finset Addr} {after : After T} {a : Addr}
    (hcore : Core s nodes phase) (hth : ∀ u, ThreadOk s phase u)
    (h : s.pc t = .sweep active todo after) (ha : a ∈ todo) :
    Inv (((s.free a).setRetired t ((s.retired t).erase a)).goto t
      (.sweep active (todo.erase a) after)) := by
  have ht := hth t
  have hok := ht.ok
  have hheld := ht.held
  have htodo := ht.todo
  rw [h] at hok hheld htodo
  have hlimbo : phase a = .limbo t := (ht.limbo a).mpr (.inl (htodo ha))
  obtain ⟨hcore', hf⟩ := hcore.free (.inr ⟨hlimbo, rfl⟩)
  have hret : (((s.free a).setRetired t ((s.retired t).erase a)).goto t
      (.sweep active (todo.erase a) after)).retired t = (s.retired t).erase a :=
    Function.update_self ..
  refine Inv.assemble hth hcore' hf (fun _ _ _ => trivial) rfl rfl rfl
    (fun u hu => State.goto_pc_of_ne _ _ hu) (fun u hu => Function.update_of_ne hu ..) ?_
  refine ⟨fun b => ?_, fun b => ?_, ?_, fun b hb => ?_, ?_⟩
  · have := ht.priv b
    rw [h, show (Pc.sweep active todo after).node = after.node from rfl] at this
    rw [State.goto_pc_same,
      show (Pc.sweep active (todo.erase a) after).node = after.node from rfl]
    by_cases hb : b = a
    · subst hb
      rw [hlimbo] at this
      simpa using this
    · rw [Function.update_of_ne hb]
      exact this
  · have := ht.limbo b
    rw [h, show (Pc.sweep active todo after).pending = none from rfl] at this
    rw [State.goto_pc_same, hret,
      show (Pc.sweep active (todo.erase a) after).pending = none from rfl, Finset.mem_erase]
    by_cases hb : b = a
    · simp [hb]
    · rw [Function.update_of_ne hb, this]
      simp [hb]
  · rw [State.goto_pc_same, hret]
    exact Finset.erase_subset_erase a htodo
  · rw [State.goto_pc_same] at hb
    exact hf.pub b trivial (hheld b hb)
  · rw [State.goto_pc_same]
    exact AfterOk.congr hok (fun _ _ => rfl) (fun _ _ => rfl)

theorem Initial.inv (h : Initial s) : Inv s := by
  refine ⟨[], fun _ => .free, ⟨?_, List.Pairwise.nil, ?_, by simp, by simp, fun a => ?_, by simp⟩,
    fun t => ⟨?_, ?_, ?_, ?_, ?_⟩⟩
  · show (s.link .head).ptr = none
    rw [h.head]
  · rw [h.head]
  · simp [h.status a]
  · simp [h.pc t, Pc.node]
  · simp [h.pc t, h.retired t, Pc.pending]
  · simp [h.pc t, Pc.todo]
  · simp [h.pc t, Pc.held]
  · rw [h.pc t]
    trivial

theorem Inv.move {n maxRetired : ℕ} {act : Act T} {s' : State T} (h : Inv s)
    (hm : Move n maxRetired s t act s')
    (hfresh : ∀ a, act = .alloc a → ∀ u, a ∉ (s.pc u).held) : Inv s' := by
  obtain ⟨nodes, phase, hcore, hth⟩ := h
  have ht := hth t
  have hok := ht.ok
  have hheld := ht.held
  have hquiet := @Inv.quiet T s nodes phase t _
  cases hm with
  | call op h =>
      rw [h] at hok hheld
      refine hquiet hcore hth rfl rfl rfl rfl rfl ?_ ?_ ?_ ?_ ?_ <;> cases op <;>
        simp [enter, h, Pc.node, Call.node, Pc.pending, Pc.todo, Pc.held, PcOk, CallOk]
  | alloc a h ha => exact Inv.alloc hcore hth h ha (hfresh a rfl)
  | @start c h =>
      rw [h] at hok hheld
      refine hquiet hcore hth rfl rfl rfl rfl rfl ?_ ?_ ?_ ?_ ?_
      · rw [loop_node, h]
        rfl
      · rw [loop_pending, h]
        rfl
      · simp [loop_todo]
      · intro a ha
        cases loop_held _ _ _ a ha
      · exact loop_ok hok (by simp [Below, cellNode])
  | publish h =>
      rw [h] at hok hheld
      exact hquiet hcore hth rfl rfl rfl rfl rfl (by rw [h]; rfl) (by rw [h]; rfl)
        (by simp [Pc.todo]) hheld hok
  | @retry c h =>
      obtain ⟨hc, hnode, hpend⟩ := retry_ok h hok
      exact hquiet hcore hth rfl rfl rfl rfl rfl hnode hpend.symm (by simp [Pc.todo])
        (by simp [Pc.held]) hc
  | @validate c prev cur h hv =>
      rw [h] at hok hheld
      obtain ⟨-, -, hcur⟩ := hcore.valid hheld hv
      refine hquiet hcore hth rfl rfl rfl rfl rfl (by rw [h]; rfl) (by rw [h]; rfl)
        (by simp [Pc.todo]) (fun a ha => ?_) hok
      rcases List.mem_append.mp ha with ha | ha
      · exact hheld a ha
      · rw [List.mem_singleton.mp ha, hcur]
        trivial
  | readMarked h hn =>
      rw [h] at hok hheld
      exact hquiet hcore hth rfl rfl rfl rfl rfl (by rw [h]; rfl) (by rw [h]; rfl)
        (by simp [Pc.todo]) hheld ⟨hok.1, hok.2, hn⟩
  | readUnmarked h hn =>
      rw [h] at hok hheld
      exact hquiet hcore hth rfl rfl rfl rfl rfl (by rw [h]; rfl) (by rw [h]; rfl)
        (by simp [Pc.todo]) hheld hok
  | unlink h hv =>
      rw [h] at hok hheld
      exact Inv.unlink hcore hth (fun a ha => hheld a (List.mem_append_left _ ha)) hv hok.2.2
        (by rw [h]; rfl) (by rw [h]; rfl) (fun a ha => hheld a (List.mem_append_left _ ha))
        ⟨hok.1, hok.2.1⟩
  | readKey h =>
      rw [h] at hok hheld
      exact hquiet hcore hth rfl rfl rfl rfl rfl (by rw [h]; rfl) (by rw [h]; rfl)
        (by simp [Pc.todo]) hheld ⟨hok.1, hok.2, rfl⟩
  | found h hv =>
      rw [h] at hok hheld
      exact hquiet hcore hth rfl rfl rfl rfl rfl (by rw [found_node, h]; rfl)
        (by rw [found_pending, h]; rfl) (by simp [found_todo])
        (fun a ha => hheld a (found_held _ _ _ _ a ha)) (found_ok hok.2.1 hok.2.2)
  | notFound h hv hk =>
      rw [h] at hok hheld
      refine hquiet hcore hth rfl rfl rfl rfl rfl (by rw [notFound_node, h]; rfl)
        (by rw [notFound_pending, h]; rfl) (by simp [notFound_todo])
        (fun a ha => hheld a (notFound_held _ _ _ a ha)) (notFound_ok hok.1 hok.2.1 ?_)
      intro b hb
      obtain rfl := Option.some.inj hb
      rwa [hok.2.2]
  | advance h hv hk =>
      rw [h] at hok hheld
      refine hquiet hcore hth rfl rfl rfl rfl rfl (by rw [h]; rfl) (by rw [h]; rfl)
        (by simp [Pc.todo]) (fun a ha => hheld a (List.mem_append_right _ ha)) ⟨hok.1, ?_⟩
      rwa [hok.2.2]
  | readValue h =>
      exact hquiet hcore hth rfl rfl rfl rfl rfl (by rw [h]; rfl) (by rw [h]; rfl)
        (by simp [Pc.todo]) (by simp [Pc.held]) trivial
  | swap1 h =>
      rw [h] at hok hheld
      exact hquiet hcore hth rfl rfl rfl rfl rfl (by rw [h]; rfl) (by rw [h]; rfl)
        (by simp [Pc.todo]) hheld hok
  | swap2 h =>
      rw [h] at hok hheld
      refine hquiet hcore hth rfl rfl rfl rfl rfl (by rw [loop_node, h]; rfl)
        (by rw [loop_pending, h]; rfl) (by simp [loop_todo])
        (fun a ha => hheld a (loop_held _ _ _ a ha)) (loop_ok hok.1 ?_)
      intro p hp
      rw [List.mem_singleton.mp hp]
      exact hok.2
  | retireScan h hc =>
      rw [h] at hok
      exact Inv.retire hcore hth h rfl rfl rfl (fun _ ha => ha) hok
  | retireOnly h hc =>
      rw [h] at hok
      exact Inv.retire hcore hth h (resume_node _) (resume_pending _) (resume_todo _)
        (resume_held _) (resume_ok hok)
  | scanSlot h hpos =>
      rw [h] at hok hheld
      exact hquiet hcore hth rfl rfl rfl rfl rfl (by rw [h]; rfl) (by rw [h]; rfl)
        (by simp [Pc.todo]) hheld hok
  | scanEnd h hpos =>
      rw [h] at hok hheld
      exact hquiet hcore hth rfl rfl rfl rfl rfl (by rw [h]; rfl) (by rw [h]; rfl)
        (Finset.Subset.refl _) hheld hok
  | visitActive a h ha hact =>
      rw [h] at hok hheld
      have htodo := ht.todo
      rw [h] at htodo
      exact hquiet hcore hth rfl rfl rfl rfl rfl (by rw [h]; rfl) (by rw [h]; rfl)
        ((Finset.erase_subset ..).trans htodo) hheld hok
  | visitFree a h ha hact => exact Inv.delete hcore hth h ha
  | sweepEnd h =>
      rw [h] at hok hheld
      exact hquiet hcore hth rfl rfl rfl rfl rfl (by rw [resume_node, h]; rfl)
        (by rw [resume_pending, h]; rfl) (by simp [resume_todo])
        (fun a ha => hheld a (resume_held _ a ha)) (resume_ok hok)
  | @setNext key value node prev cur h =>
      rw [h] at hok hheld
      have hp : phase node = .priv t := (ht.priv node).mpr (by rw [h]; rfl)
      obtain ⟨hcore', hf⟩ := hcore.setNext hp ⟨cur, false⟩
      refine Inv.assemble hth hcore' hf (fun _ _ _ => trivial) rfl rfl rfl
        (fun u hu => State.goto_pc_of_ne _ _ hu) (fun _ _ => rfl) ?_
      exact ht.keep (State.goto_pc_same ..) rfl (by rw [h]; rfl) (by rw [h]; rfl)
        (by simp [Pc.todo]) hheld ⟨hok.1, hok.2.1, hok.2.2, State.setLink_same ..⟩
  | @casInsert key value node prev cur h hv =>
      rw [h] at hok hheld
      obtain ⟨hk, hb, ha, hn⟩ := hok
      have hp : phase node = .priv t := (ht.priv node).mpr (by rw [h]; rfl)
      have hon := hcore.onChain (c := prev) (fun a ha => hheld a (List.mem_append_left _ ha))
        (by rw [hv])
      obtain ⟨nodes', hcore', hf, -⟩ := hcore.insert hon hv hn hp
        (fun p hp => by rw [hk]; exact hb p hp) (fun b hb => by rw [hk]; exact ha b hb)
      refine Inv.assemble hth hcore' hf (fun _ _ _ => trivial) rfl rfl rfl
        (fun u hu => State.goto_pc_of_ne _ _ hu) (fun _ _ => rfl) ?_
      exact ht.release (by rw [h]; rfl) (by rw [h]; rfl) (State.goto_pc_same ..) rfl (by simp)
  | @deleteNew key value node h =>
      have hp : phase node = .priv t := (ht.priv node).mpr (by rw [h]; rfl)
      obtain ⟨hcore', hf⟩ := hcore.free (.inl ⟨hp, rfl⟩)
      refine Inv.assemble hth hcore' hf (fun _ _ _ => trivial) rfl rfl rfl
        (fun u hu => State.goto_pc_of_ne _ _ hu) (fun _ _ => rfl) ?_
      exact ht.release (by rw [h]; rfl) (by rw [h]; rfl) (State.goto_pc_same ..) rfl (by simp)
  | @casMark key prev cur next h hv =>
      rw [h] at hok hheld
      have hmem : cur ∈ nodes :=
        hcore.mem_of_unmarked (hheld cur (by simp [Pc.held])) (by rw [hv])
      obtain ⟨hcore', hf⟩ := hcore.mark (t := t) hmem hv
      refine Inv.assemble hth hcore' hf (fun _ _ _ => trivial) rfl rfl rfl
        (fun u hu => State.goto_pc_of_ne _ _ hu) (fun _ _ => rfl) ?_
      exact ht.keep (State.goto_pc_same ..) rfl (by rw [h]; rfl) (by rw [h]; rfl)
        (by simp [Pc.todo]) hheld ⟨hok.1, State.setLink_same ..⟩
  | casUnlink h hv =>
      rw [h] at hok hheld
      exact Inv.unlink hcore hth (fun a ha => hheld a (List.mem_append_left _ ha)) hv hok.2
        (by rw [h]; rfl) (by rw [h]; rfl) (by simp [After.held]) trivial
  | ret h =>
      exact hquiet hcore hth rfl rfl rfl rfl rfl (by rw [h]; rfl) (by rw [h]; rfl)
        (by simp [Pc.todo]) (by simp [Pc.held]) trivial

end

end LockFreeList

end HttpServer
