import HttpServer.LockFreeListInv
import Mathlib.Data.Set.Insert

/-!
# The set the lock-free list stands for

`keys s` are the keys of the nodes one can reach from `head_` whose own
link is not marked. `Move.keys` says how a step changes this set: the
compare-and-swap of `insert` that links its node in adds its key, the
compare-and-swap of `remove` that marks a node deletes its key, and no
other step changes the set. Both happen at most once in a call:
`Pc.taken` tells from where a thread stands whether its call has taken
effect.
-/

namespace HttpServer

namespace LockFreeList

open Chain

variable {T : Type}

/-- The nodes reachable from `head_`. -/
inductive Reach (link : Cell Addr → Link) : Addr → Prop where
  | first {a : Addr} (h : (link .head).ptr = some a) : Reach link a
  | next {a b : Addr} (ha : Reach link a) (h : (link (.next a)).ptr = some b) : Reach link b

def keys (s : State T) : Set T :=
  {k | ∃ a, Reach s.link a ∧ (s.link (.next a)).mark = false ∧ s.data a = k}

theorem reach_iff {s : State T} {nodes : List Addr} (h : IsChain s nodes) {a : Addr} :
    Reach s.link a ↔ a ∈ nodes := by
  constructor
  · intro ha
    induction ha with
    | first h' =>
        cases nodes with
        | nil => exact absurd (h.symm.trans h') (by simp)
        | cons b l =>
            obtain rfl := Option.some.inj (h.1.symm.trans h')
            exact List.mem_cons_self ..
    | @next a b _ h' ih =>
        obtain ⟨l₁, l₂, rfl, -, hp, -⟩ := h.split (d := .next a) (.inr ⟨a, ih, rfl⟩)
        cases l₂ with
        | nil => exact absurd (hp.symm.trans h') (by simp)
        | cons c l₂ =>
            obtain rfl := Option.some.inj (hp.1.symm.trans h')
            simp
  · intro ha
    -- along the path, from a cell whose target is reachable
    have hgo : ∀ (l : List Addr) (c : Cell Addr), Path (fun c => (s.link c).ptr) c l →
        (∀ b, (s.link c).ptr = some b → Reach s.link b) → ∀ b ∈ l, Reach s.link b := by
      intro l
      induction l with
      | nil => intro c _ _ b hb; cases hb
      | cons x l ih =>
          intro c hp hc b hb
          have hx : Reach s.link x := hc x hp.1
          rcases List.mem_cons.mp hb with rfl | hb
          · exact hx
          · exact ih (.next x) hp.2 (fun y hy => .next hx hy) b hb
    exact hgo nodes .head h (fun b hb => .first hb) a ha

theorem mem_keys {s : State T} {nodes : List Addr} (h : IsChain s nodes) {k : T} :
    k ∈ keys s ↔ ∃ a ∈ nodes, (s.link (.next a)).mark = false ∧ s.data a = k := by
  constructor
  · rintro ⟨a, ha, hm, hk⟩
    exact ⟨a, (reach_iff h).mp ha, hm, hk⟩
  · rintro ⟨a, ha, hm, hk⟩
    exact ⟨a, (reach_iff h).mpr ha, hm, hk⟩

theorem setLink_mark {s : State T} {c : Cell Addr} {l : Link} (hm : (s.link c).mark = l.mark)
    (d : Cell Addr) :
    ((s.setLink c l).link d).mark = (s.link d).mark := by
  by_cases hd : d = c
  · rw [hd, State.setLink_same, hm]
  · rw [State.setLink_of_ne _ _ hd]

/-- The set only depends on the linked nodes, their marks and their data. -/
theorem keys_congr {s s' : State T} {nodes nodes' : List Addr} (h : IsChain s nodes)
    (h' : IsChain s' nodes')
    (hmem : ∀ a, a ∈ nodes' ∧ (s'.link (.next a)).mark = false
      ↔ a ∈ nodes ∧ (s.link (.next a)).mark = false)
    (hdata : ∀ a ∈ nodes, s'.data a = s.data a) : keys s' = keys s := by
  ext k
  rw [mem_keys h, mem_keys h']
  constructor
  · rintro ⟨a, ha, hm, hk⟩
    obtain ⟨ha, hm⟩ := (hmem a).mp ⟨ha, hm⟩
    exact ⟨a, ha, hm, (hdata a ha).symm.trans hk⟩
  · rintro ⟨a, ha, hm, hk⟩
    obtain ⟨ha', hm'⟩ := (hmem a).mpr ⟨ha, hm⟩
    exact ⟨a, ha', hm', (hdata a ha).trans hk⟩

theorem keys_initial [LinearOrder T] {s : State T} (h : Initial s) : keys s = ∅ := by
  have hpath : IsChain s [] := by
    show (s.link .head).ptr = none
    rw [h.head]
  ext k
  rw [mem_keys hpath]
  simp

/-! ## The calls and their effects -/

/-- The effect of a call that changes the set. -/
def Took (op : Op T) (S S' : Set T) : Prop :=
  match op with
  | .insert key _ => key ∉ S ∧ S' = insert key S
  | .remove key => key ∈ S ∧ S' = S \ {key}
  | .lookup _ _ => False

theorem Took.ne {op : Op T} {S S' : Set T} (h : Took op S S') : S' ≠ S := by
  rcases op with ⟨key, value⟩ | key | ⟨key, value⟩
  · rintro rfl
    exact h.1 (h.2 ▸ Set.mem_insert key _)
  · rintro rfl
    have hk := h.1
    rw [h.2] at hk
    exact hk.2 rfl
  · exact h.elim

def Call.op : Call T → Op T
  | .insert key value _ => .insert key value
  | .remove key => .remove key
  | .help key => .remove key
  | .lookup key value => .lookup key value

def After.op : After T → Op T
  | .loop c _ _ => c.op
  | .done key => .remove key

/-- The call has taken effect: `remove` has marked its node. -/
def Call.taken : Call T → Bool
  | .help _ => true
  | _ => false

def After.taken : After T → Bool
  | .loop c _ _ => c.taken
  | .done _ => true

namespace Pc

/-- The call a thread is in. -/
def op : Pc T → Option (Op T)
  | .idle => none
  | .new key value => some (.insert key value)
  | .start c => some c.op
  | .publish c _ _ => some c.op
  | .validate c _ _ => some c.op
  | .readNext c _ _ => some c.op
  | .unlink c _ _ _ => some c.op
  | .readKey c _ _ _ => some c.op
  | .compare c _ _ _ _ => some c.op
  | .readValue key _ => some (.lookup key true)
  | .swap1 c _ _ => some c.op
  | .swap2 c _ _ _ => some c.op
  | .retire _ after => some after.op
  | .scan _ _ after => some after.op
  | .sweep _ _ after => some after.op
  | .setNext key value _ _ _ => some (.insert key value)
  | .casInsert key value _ _ _ => some (.insert key value)
  | .deleteNew key value _ => some (.insert key value)
  | .casMark key _ _ _ => some (.remove key)
  | .casUnlink key _ _ _ => some (.remove key)
  | .done op _ _ => some op

/-- Whether the call has taken effect. -/
def taken : Pc T → Bool
  | .start c => c.taken
  | .publish c _ _ => c.taken
  | .validate c _ _ => c.taken
  | .readNext c _ _ => c.taken
  | .unlink c _ _ _ => c.taken
  | .readKey c _ _ _ => c.taken
  | .compare c _ _ _ _ => c.taken
  | .swap1 c _ _ => c.taken
  | .swap2 c _ _ _ => c.taken
  | .retire _ after => after.taken
  | .scan _ _ after => after.taken
  | .sweep _ _ after => after.taken
  | .casUnlink _ _ _ _ => true
  | .done (.lookup _ _) _ _ => false
  | .done _ res _ => res
  | _ => false

end Pc

section

variable (c : Call T) (prev : Cell Addr) (cur : Addr) (next : Option Addr) (after : After T)

theorem found_op : (found c prev cur next).op = some c.op := by
  rcases c with _ | _ | _ | ⟨_, _ | _⟩ <;> rfl

theorem found_taken : (found c prev cur next).taken = c.taken := by
  rcases c with _ | _ | _ | ⟨_, _ | _⟩ <;> rfl

theorem notFound_op : (notFound c prev next).op = some c.op := by
  cases c <;> rfl

theorem notFound_taken : (notFound c prev next).taken = c.taken := by
  cases c <;> rfl

theorem loop_op : (loop c prev next).op = some c.op := by
  cases next with
  | none => exact notFound_op c prev none
  | some a => rfl

theorem loop_taken : (loop c prev next).taken = c.taken := by
  cases next with
  | none => exact notFound_taken c prev none
  | some a => rfl

theorem resume_op : (resume after).op = some after.op := by
  cases after with
  | loop c prev cur => exact loop_op c prev cur
  | done key => rfl

theorem resume_taken : (resume after).taken = after.taken := by
  cases after with
  | loop c prev cur => exact loop_taken c prev cur
  | done key => rfl

end

theorem retry_op {pc : Pc T} {c : Call T} (h : pc.retry = some c) :
    pc.op = some c.op ∧ pc.taken = c.taken := by
  cases pc <;> cases h <;> exact ⟨rfl, rfl⟩

/-! ## The set and the chain -/

section

variable [LinearOrder T] {s : State T} {nodes : List Addr} {phase : Addr → Phase} {t : Tid}

/-- No two linked nodes have the same key. -/
theorem Core.data_inj (h : Core s nodes phase) {a b : Addr} (ha : a ∈ nodes) (hb : b ∈ nodes)
    (hab : s.data a = s.data b) : a = b := by
  have hrefl : ∀ x ∈ nodes, s.data x = s.data x → x = x := fun _ _ _ => rfl
  refine List.Pairwise.forall_of_forall_of_flip (R := fun x y => s.data x = s.data y → x = y)
    hrefl (h.sorted.imp ?_) (h.sorted.imp ?_) ha hb hab
  · intro x y hlt heq
    exact absurd heq (ne_of_lt hlt)
  · intro x y hlt heq
    exact absurd heq.symm (ne_of_lt hlt)

/-- No linked node has a key between a cell on the chain and the node it
points to. -/
theorem Core.data_ne_of_gap (h : Core s nodes phase) (prev : Cell Addr) (hprev : OnChain nodes prev)
    {k : T} (hlo : Below s prev k) (hhi : ∀ b, (s.link prev).ptr = some b → k < s.data b) :
    ∀ a ∈ nodes, s.data a ≠ k := by
  rintro a ha rfl
  obtain ⟨l₁, l₂, rfl, -, hp, hlast⟩ := h.split hprev
  have hsorted := List.pairwise_append.mp h.sorted
  rcases List.mem_append.mp ha with ha | ha
  · rcases hlast with ⟨rfl, -⟩ | ⟨l₀, p, rfl, rfl⟩
    · cases ha
    · exact absurd (le_last hsorted.1 ha) (not_le_of_gt (hlo p (by simp [cellNode])))
  · cases l₂ with
    | nil => cases ha
    | cons b l₂ =>
        have hb := hhi b hp.1
        rcases List.mem_cons.mp ha with rfl | ha
        · exact lt_irrefl _ hb
        · exact lt_asymm hb ((List.pairwise_cons.mp hsorted.2.1).1 a ha)

theorem Core.gap (h : Core s nodes phase) (prev : Cell Addr) (hprev : OnChain nodes prev) {k : T}
    (hlo : Below s prev k) (hhi : ∀ b, (s.link prev).ptr = some b → k < s.data b) : k ∉ keys s := by
  intro hk
  obtain ⟨a, ha, -, hk⟩ := (mem_keys h.path).mp hk
  exact h.data_ne_of_gap prev hprev hlo hhi a ha hk

/-! ## The steps that change the set -/

theorem keys_eq {s' : State T} (h : Core s nodes phase) (hl : s'.link = s.link)
    (hd : s'.data = s.data) : keys s' = keys s := by
  refine keys_congr h.path ?_ (fun a => by rw [hl]) (fun a _ => by rw [hd])
  rw [IsChain, hl]
  exact h.path

/-- A new node is not in the list yet. -/
theorem keys_newNode (h : Core s nodes phase) {a : Addr} (ha : s.status a ≠ .live) (key : T)
    (value : Option ℤ) : keys (s.newNode a key value) = keys s := by
  have hnot : a ∉ nodes := by
    intro hmem
    have hp := (h.linked a).mpr hmem
    exact ha ((h.live a).mpr (by simp [hp]))
  have hne : ∀ {b}, b ∈ nodes → b ≠ a := by
    rintro b hb rfl
    exact hnot hb
  obtain ⟨hcore, -⟩ := h.newNode (t := 0) ha key value
  refine keys_congr h.path hcore.path (fun b => and_congr_right fun hb => ?_) fun b hb => ?_
  · rw [show (s.newNode a key value).link (.next b) = s.link (.next b) from
      Function.update_of_ne (fun heq => hne hb (Cell.next.inj heq)) ..]
  · exact Function.update_of_ne (hne hb) ..

theorem keys_setNext (h : Core s nodes phase) {node : Addr} (hp : phase node = .priv t) (l : Link) :
    keys (s.setLink (.next node) l) = keys s := by
  have hnot : node ∉ nodes := h.not_mem (by simp [hp])
  refine keys_congr h.path (h.setNext hp l).1.path (fun a => and_congr_right fun ha => ?_)
    fun _ _ => rfl
  rw [State.setLink_of_ne]
  intro heq
  exact hnot (Cell.next.inj heq ▸ ha)

/-- Unlinking a marked node does not change the set. -/
theorem keys_unlink (h : Core s nodes phase) {prev : Cell Addr} {cur : Addr} {next : Option Addr}
    (hprev : ∀ a ∈ cellNode prev, (phase a).Pub) (hv : s.link prev = ⟨some cur, false⟩)
    (hn : s.link (.next cur) = ⟨next, true⟩) :
    keys (s.setLink prev ⟨next, false⟩) = keys s := by
  obtain ⟨nodes', hcore, -, -, hmem⟩ :=
    h.unlink (t := 0) (h.onChain hprev (by rw [hv])) hv hn
  refine keys_congr h.path hcore.path (fun a => ?_) fun _ _ => rfl
  rw [hmem, setLink_mark (by rw [hv])]
  constructor
  · rintro ⟨⟨ha, -⟩, hm⟩
    exact ⟨ha, hm⟩
  · rintro ⟨ha, hm⟩
    refine ⟨⟨ha, ?_⟩, hm⟩
    rintro rfl
    rw [hn] at hm
    cases hm

/-- The compare-and-swap of `insert`: the key was not in the set. -/
theorem keys_insert (h : Core s nodes phase) {prev : Cell Addr} {cur : Option Addr} {node : Addr}
    (hprev : ∀ a ∈ cellNode prev, (phase a).Pub) (hv : s.link prev = ⟨cur, false⟩)
    (hn : s.link (.next node) = ⟨cur, false⟩) (hp : phase node = .priv t)
    (hlo : Below s prev (s.data node)) (hhi : ∀ b ∈ cur, s.data node < s.data b) :
    s.data node ∉ keys s
      ∧ keys (s.setLink prev ⟨some node, false⟩) = insert (s.data node) (keys s) := by
  have hon := h.onChain hprev (by rw [hv])
  refine ⟨h.gap prev hon hlo fun b hb => hhi b (by rwa [hv] at hb), ?_⟩
  obtain ⟨nodes', hcore, -, hmem⟩ := h.insert hon hv hn hp hlo hhi
  have hmark := fun d => setLink_mark (s := s) (c := prev) (l := ⟨some node, false⟩) (by rw [hv]) d
  ext k
  rw [Set.mem_insert_iff, mem_keys hcore.path, mem_keys h.path]
  simp only [hmem, hmark, State.setLink_data]
  constructor
  · rintro ⟨a, rfl | ha, hm, rfl⟩
    · exact .inl rfl
    · exact .inr ⟨a, ha, hm, rfl⟩
  · rintro (rfl | ⟨a, ha, hm, rfl⟩)
    · exact ⟨node, .inl rfl, by rw [hn], rfl⟩
    · exact ⟨a, .inr ha, hm, rfl⟩

/-- A published node that is not marked is in the set. -/
theorem Core.mem_keys_of_unmarked (h : Core s nodes phase) {a : Addr} (ha : (phase a).Pub)
    (hm : (s.link (.next a)).mark = false) : s.data a ∈ keys s :=
  (mem_keys h.path).mpr ⟨a, h.mem_of_unmarked ha hm, hm, rfl⟩

/-- The compare-and-swap of `remove` that marks a node. -/
theorem keys_mark (h : Core s nodes phase) {cur : Addr} {next : Option Addr}
    (hcur : (phase cur).Pub) (hv : s.link (.next cur) = ⟨next, false⟩) :
    s.data cur ∈ keys s
      ∧ keys (s.setLink (.next cur) ⟨next, true⟩) = keys s \ {s.data cur} := by
  have hmem := h.mem_of_unmarked hcur (by rw [hv])
  refine ⟨h.mem_keys_of_unmarked hcur (by rw [hv]), ?_⟩
  obtain ⟨hcore, -⟩ := h.mark (t := 0) hmem hv
  have hlink : ∀ {a}, a ≠ cur →
      (s.setLink (.next cur) ⟨next, true⟩).link (.next a) = s.link (.next a) :=
    fun ha => State.setLink_of_ne _ _ fun heq => ha (Cell.next.inj heq)
  ext k
  rw [Set.mem_sdiff, mem_keys hcore.path, mem_keys h.path, Set.mem_singleton_iff]
  constructor
  · rintro ⟨a, ha, hm, rfl⟩
    have hne : a ≠ cur := by
      rintro rfl
      rw [State.setLink_same] at hm
      cases hm
    rw [hlink hne] at hm
    exact ⟨⟨a, ha, hm, rfl⟩, fun heq => hne (h.data_inj ha hmem heq)⟩
  · rintro ⟨⟨a, ha, hm, rfl⟩, hk⟩
    have hne : a ≠ cur := by
      rintro rfl
      exact hk rfl
    exact ⟨a, ha, by rwa [hlink hne], rfl⟩

/-! ## Steps -/

variable {n maxRetired : ℕ} {s' : State T} {act : Act T}

theorem Move.pc_of_ne (hm : Move n maxRetired s t act s') {u : Tid} (hu : u ≠ t) :
    s'.pc u = s.pc u := by
  cases hm <;> exact State.goto_pc_of_ne _ _ hu

/-- What a step of `t` does to the set and to its call. -/
inductive Effect (s : State T) (t : Tid) (s' : State T) : Act T → Prop where
  | call (op : Op T) (h : (s.pc t).op = none) (h' : s'.pc t = enter op) (hk : keys s' = keys s) :
      Effect s t s' (.call op)
  | quiet {op act} (hact : act ≠ .ret) (h : (s.pc t).op = some op) (h' : (s'.pc t).op = some op)
      (htaken : (s'.pc t).taken = (s.pc t).taken) (hk : keys s' = keys s) : Effect s t s' act
  | took {op act} (hact : act ≠ .ret) (h : (s.pc t).op = some op) (h' : (s'.pc t).op = some op)
      (htaken : (s.pc t).taken = false) (htaken' : (s'.pc t).taken = true)
      (hk : Took op (keys s) (keys s')) : Effect s t s' act
  | ret {op res value} (h : s.pc t = .done op res value) (h' : s'.pc t = .idle)
      (hk : keys s' = keys s) : Effect s t s' .ret

theorem Move.effect (hI : Inv s) (hm : Move n maxRetired s t act s') : Effect s t s' act := by
  obtain ⟨nodes, phase, hcore, hth⟩ := hI
  have ht := hth t
  have hok := ht.ok
  have hheld := ht.held
  -- a step of the thread alone, within its call
  have hquiet : ∀ {x : State T} {pc : Pc T} {act : Act T} {op : Op T}, act ≠ .ret →
      keys x = keys s → (s.pc t).op = some op → pc.op = some op → pc.taken = (s.pc t).taken →
      Effect s t (x.goto t pc) act := by
    intro x pc act op hact hk hop hop' htaken
    refine .quiet hact hop ?_ ?_ ?_
    · rw [State.goto_pc_same, hop']
    · rw [State.goto_pc_same, htaken]
    · exact hk
  have hsame : ∀ {x : State T}, x.link = s.link → x.data = s.data → keys x = keys s :=
    fun hl hd => keys_eq hcore hl hd
  cases hm with
  | call op h => exact .call op (by rw [h]; rfl) (State.goto_pc_same ..) (hsame rfl rfl)
  | alloc a h ha =>
      exact hquiet (by simp) (keys_newNode hcore ha _ _) (by rw [h]; rfl) rfl (by rw [h]; rfl)
  | start h =>
      exact hquiet (by simp) (hsame rfl rfl) (by rw [h]; rfl) (loop_op ..)
        (by rw [h]; exact loop_taken ..)
  | publish h => exact hquiet (by simp) (hsame rfl rfl) (by rw [h]; rfl) rfl (by rw [h]; rfl)
  | retry h =>
      exact hquiet (by simp) (hsame rfl rfl) (retry_op h).1 rfl (retry_op h).2.symm
  | validate h hv => exact hquiet (by simp) (hsame rfl rfl) (by rw [h]; rfl) rfl (by rw [h]; rfl)
  | readMarked h hn => exact hquiet (by simp) (hsame rfl rfl) (by rw [h]; rfl) rfl (by rw [h]; rfl)
  | readUnmarked h hn =>
      exact hquiet (by simp) (hsame rfl rfl) (by rw [h]; rfl) rfl (by rw [h]; rfl)
  | unlink h hv =>
      rw [h] at hok hheld
      exact hquiet (by simp)
        (keys_unlink hcore (fun a ha => hheld a (List.mem_append_left _ ha)) hv hok.2.2)
        (by rw [h]; rfl) rfl (by rw [h]; rfl)
  | readKey h => exact hquiet (by simp) (hsame rfl rfl) (by rw [h]; rfl) rfl (by rw [h]; rfl)
  | found h hv =>
      exact hquiet (by simp) (hsame rfl rfl) (by rw [h]; rfl) (found_op ..)
        (by rw [h]; exact found_taken ..)
  | notFound h hv hk =>
      exact hquiet (by simp) (hsame rfl rfl) (by rw [h]; rfl) (notFound_op ..)
        (by rw [h]; exact notFound_taken ..)
  | advance h hv hk => exact hquiet (by simp) (hsame rfl rfl) (by rw [h]; rfl) rfl (by rw [h]; rfl)
  | readValue h => exact hquiet (by simp) (hsame rfl rfl) (by rw [h]; rfl) rfl (by rw [h]; rfl)
  | swap1 h => exact hquiet (by simp) (hsame rfl rfl) (by rw [h]; rfl) rfl (by rw [h]; rfl)
  | swap2 h =>
      exact hquiet (by simp) (hsame rfl rfl) (by rw [h]; rfl) (loop_op ..)
        (by rw [h]; exact loop_taken ..)
  | retireScan h hc => exact hquiet (by simp) (hsame rfl rfl) (by rw [h]; rfl) rfl (by rw [h]; rfl)
  | retireOnly h hc =>
      exact hquiet (by simp) (hsame rfl rfl) (by rw [h]; rfl) (resume_op ..)
        (by rw [h]; exact resume_taken ..)
  | scanSlot h hpos => exact hquiet (by simp) (hsame rfl rfl) (by rw [h]; rfl) rfl (by rw [h]; rfl)
  | scanEnd h hpos => exact hquiet (by simp) (hsame rfl rfl) (by rw [h]; rfl) rfl (by rw [h]; rfl)
  | visitActive a h ha hact =>
      exact hquiet (by simp) (hsame rfl rfl) (by rw [h]; rfl) rfl (by rw [h]; rfl)
  | visitFree a h ha hact =>
      exact hquiet (by simp) (hsame rfl rfl) (by rw [h]; rfl) rfl (by rw [h]; rfl)
  | sweepEnd h =>
      exact hquiet (by simp) (hsame rfl rfl) (by rw [h]; rfl) (resume_op ..)
        (by rw [h]; exact resume_taken ..)
  | setNext h =>
      exact hquiet (by simp) (keys_setNext hcore ((ht.priv _).mpr (by rw [h]; rfl)) _)
        (by rw [h]; rfl) rfl (by rw [h]; rfl)
  | casInsert h hv =>
      rw [h] at hok hheld
      obtain ⟨rfl, hb, ha, hn⟩ := hok
      refine .took (by simp) (by rw [h]; rfl) (by rw [State.goto_pc_same]; rfl) (by rw [h]; rfl)
        (by rw [State.goto_pc_same]; rfl) ?_
      exact keys_insert hcore (fun a ha => hheld a (List.mem_append_left _ ha)) hv hn
        ((ht.priv _).mpr (by rw [h]; rfl)) hb ha
  | deleteNew h => exact hquiet (by simp) (hsame rfl rfl) (by rw [h]; rfl) rfl (by rw [h]; rfl)
  | casMark h hv =>
      rw [h] at hok hheld
      obtain ⟨-, rfl⟩ := hok
      refine .took (by simp) (by rw [h]; rfl) (by rw [State.goto_pc_same]; rfl) (by rw [h]; rfl)
        (by rw [State.goto_pc_same]; rfl) ?_
      exact keys_mark hcore (hheld _ (by simp [Pc.held])) hv
  | casUnlink h hv =>
      rw [h] at hok hheld
      exact hquiet (by simp)
        (keys_unlink hcore (fun a ha => hheld a (List.mem_append_left _ ha)) hv hok.2)
        (by rw [h]; rfl) rfl (by rw [h]; rfl)
  | ret h => exact .ret h (State.goto_pc_same ..) (hsame rfl rfl)

end

end LockFreeList

end HttpServer
