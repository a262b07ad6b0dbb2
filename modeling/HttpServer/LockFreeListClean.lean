import Mathlib.Data.Nat.Find
import HttpServer.LockFreeListChange
import HttpServer.LockFreeListLin

/-!
# What the lock-free list leaves behind

A node that `remove` has marked is unlinked once, by the compare-and-swap
of that `remove` or of any traversal that comes by, and retired once, by
the thread that unlinked it.

A `remove` that does not unlink its node itself looks the key up once
more. Where that traversal ends, the node is off the chain: it does not
pass a marked node, and the chain is strictly ascending, so no node is
left between the two it stands between (`Helped`). So when no operation
is in progress, no node on the chain is marked, and `checkIntegrity`
finds nothing wrong.
-/

namespace HttpServer

namespace LockFreeList

open Chain

variable {T : Type}

/-! ## Checking the list -/

theorem link_of_ptr {s : State T} {c : Cell Addr} {p : Option Addr} (hp : (s.link c).ptr = p)
    (hm : (s.link c).mark = false) : s.link c = ⟨p, false⟩ := by
  rw [← hp, ← hm]

section

variable [LinearOrder T]

/-- The loop of `checkIntegrity`, from `cur` on. It follows the links as
they are; undefined at a marked one. -/
def integrityLoop (s : State T) : ℕ → Addr → Link → Option Bool
  | 0, _, _ => none
  | _ + 1, _, ⟨none, false⟩ => some true
  | fuel + 1, prev, ⟨some cur, false⟩ =>
      if s.data prev ≥ s.data cur then some false else integrityLoop s fuel cur (s.link (.next cur))
  | _ + 1, _, ⟨_, true⟩ => none

def checkIntegrity (fuel : ℕ) (s : State T) : Option Bool :=
  match s.link .head with
  | ⟨none, false⟩ => some true
  | ⟨some head, false⟩ => integrityLoop s fuel head (s.link (.next head))
  | ⟨_, true⟩ => none

/-- On an ascending chain without marks the loop ends well. -/
theorem integrityLoop_path {s : State T} : ∀ (l : List Addr) {prev : Addr},
    Path (fun c => (s.link c).ptr) (.next prev) l →
    (prev :: l).Pairwise (fun a b => s.data a < s.data b) →
    (∀ a ∈ prev :: l, (s.link (.next a)).mark = false) →
    ∀ fuel > l.length, integrityLoop s fuel prev (s.link (.next prev)) = some true := by
  intro l
  induction l with
  | nil =>
      intro prev hp _ hm fuel hf
      obtain ⟨fuel, rfl⟩ := Nat.exists_eq_succ_of_ne_zero (Nat.ne_of_gt hf)
      rw [link_of_ptr hp (hm prev (List.mem_cons_self ..))]
      rfl
  | cons cur l ih =>
      intro prev hp hs hm fuel hf
      obtain ⟨fuel, rfl⟩ := Nat.exists_eq_succ_of_ne_zero (Nat.ne_of_gt (Nat.zero_lt_of_lt hf))
      obtain ⟨hlt, hs⟩ := List.pairwise_cons.mp hs
      have hge : ¬s.data prev ≥ s.data cur := not_le_of_gt (hlt cur (List.mem_cons_self ..))
      rw [link_of_ptr hp.1 (hm prev (List.mem_cons_self ..)), integrityLoop, if_neg hge]
      refine ih hp.2 hs (fun a ha => hm a (List.mem_cons_of_mem _ ha)) fuel ?_
      simp only [List.length_cons] at hf
      omega

theorem checkIntegrity_chain {s : State T} {nodes : List Addr} (h : IsChain s nodes)
    (hhead : (s.link .head).mark = false) (hs : nodes.Pairwise fun a b => s.data a < s.data b)
    (hm : ∀ a ∈ nodes, (s.link (.next a)).mark = false) :
    ∀ fuel > nodes.length, checkIntegrity fuel s = some true := by
  intro fuel hf
  cases nodes with
  | nil => rw [checkIntegrity, link_of_ptr h hhead]
  | cons head l =>
      rw [checkIntegrity, link_of_ptr h.1 hhead]
      exact integrityLoop_path l h.2 hs hm fuel (Nat.lt_of_succ_lt hf)

end

/-! ## The remover's second traversal -/

/-- `off` is that the node is off the chain. -/
def AfterHelped (key : T) (off : Prop) : After T → Prop
  | .loop c _ cur => c = .help key ∧ (cur = none → off)
  | .done _ => off

theorem AfterHelped.mono {key : T} {off off' : Prop} {after : After T} (hoff : off → off')
    (h : AfterHelped key off after) : AfterHelped key off' after := by
  cases after with
  | loop c prev cur => exact ⟨h.1, fun hc => hoff (h.2 hc)⟩
  | done key => exact hoff h

/-- What a `remove` knows that has marked the node `x` with the key
`key`. -/
def Helped (key : T) (x : Addr) (off : Prop) (s : State T) [LT T] : Pc T → Prop
  | .casUnlink k _ cur _ => k = key ∧ cur = x
  | .start c => c = .help key
  | .publish c _ _ => c = .help key
  | .validate c _ _ => c = .help key
  | .readNext c _ _ => c = .help key
  | .unlink c _ _ _ => c = .help key
  | .readKey c _ cur next => c = .help key ∧ cur ≠ x ∧ (next = none → s.data cur < key → off)
  | .compare c _ cur next curKey =>
      c = .help key ∧ cur ≠ x ∧ (next = none → curKey < key → off)
  | .swap1 c _ next => c = .help key ∧ (next = none → off)
  | .swap2 c _ next _ => c = .help key ∧ (next = none → off)
  | .retire _ after => AfterHelped key off after
  | .scan _ _ after => AfterHelped key off after
  | .sweep _ _ after => AfterHelped key off after
  | .done _ _ _ => off
  | _ => False

section

variable [LinearOrder T] {s s' : State T} {t : Tid} {key : T} {x : Addr} {off off' : Prop}

/-- It stays so when other threads move. -/
theorem Helped.mono {pc : Pc T} (hoff : off → off') (hd : ∀ a ∈ pc.held, s'.data a = s.data a)
    (h : Helped key x off s pc) : Helped key x off' s' pc := by
  cases pc with
  | readKey c prev cur next =>
      refine ⟨h.1, h.2.1, fun hn hlt => hoff (h.2.2 hn ?_)⟩
      rwa [hd cur (by simp [Pc.held])] at hlt
  | compare c prev cur next curKey =>
      exact ⟨h.1, h.2.1, fun hn hlt => hoff (h.2.2 hn hlt)⟩
  | swap1 c cur next => exact ⟨h.1, fun hn => hoff (h.2 hn)⟩
  | swap2 c cur next temp => exact ⟨h.1, fun hn => hoff (h.2 hn)⟩
  | retire node after => exact AfterHelped.mono hoff h
  | scan active pos after => exact AfterHelped.mono hoff h
  | sweep active todo after => exact AfterHelped.mono hoff h
  | done op res value => exact hoff h
  | _ => exact h

theorem loop_helped {prev : Cell Addr} {cur : Option Addr} (h : cur = none → off) :
    Helped key x off s (loop (.help key) prev cur) := by
  cases cur with
  | none => exact h rfl
  | some a => rfl

theorem resume_helped {after : After T} (h : AfterHelped key off after) :
    Helped key x off s (resume after) := by
  cases after with
  | loop c prev cur =>
      obtain ⟨rfl, hcur⟩ := h
      exact loop_helped hcur
  | done key => exact h

theorem retry_helped {pc : Pc T} {c : Call T} (h : pc.retry = some c)
    (hp : Helped key x off s pc) : c = .help key := by
  cases pc with
  | validate c prev cur =>
      cases h
      exact hp
  | unlink c prev cur next =>
      cases h
      exact hp
  | compare c prev cur next curKey =>
      cases h
      exact hp.1
  | casUnlink k prev cur next =>
      cases h
      rw [hp.1]
  | casInsert => exact hp.elim
  | casMark => exact hp.elim
  | _ => cases h

/-- Keys below and above `x` next to each other. -/
theorem Core.off_of_gap {nodes : List Addr} {phase : Addr → Phase} (h : Core s nodes phase)
    (prev : Cell Addr) (hprev : OnChain nodes prev) (hlo : Below s prev (s.data x))
    (hhi : ∀ b, (s.link prev).ptr = some b → s.data x < s.data b) : ¬Reach s.link x := by
  rw [reach_iff h.path]
  intro hx
  exact h.data_ne_of_gap prev hprev hlo hhi x hx rfl

/-- The traversal has come to the end of the chain. -/
theorem Core.off_of_end {nodes : List Addr} {phase : Addr → Phase} (h : Core s nodes phase)
    {cur : Addr} (hcur : (phase cur).Pub) (hn : s.link (.next cur) = ⟨none, false⟩)
    (hlt : s.data cur < s.data x) : ¬Reach s.link x := by
  refine h.off_of_gap (.next cur) ?_ ?_ (by simp [hn])
  · exact .inr ⟨cur, h.mem_of_unmarked hcur (by rw [hn]), rfl⟩
  · intro p hp
    rwa [List.mem_singleton.mp hp]

/-- It has come to another node with the key of `x`. -/
theorem Core.off_of_found {nodes : List Addr} {phase : Addr → Phase} (h : Core s nodes phase)
    {cur : Addr} (hcur : cur ∈ nodes) (hne : cur ≠ x) (hkey : s.data cur = s.data x) :
    ¬Reach s.link x := by
  rw [reach_iff h.path]
  exact fun hx => hne (h.data_inj hcur hx hkey)

/-- It has unlinked the last node. -/
theorem Core.off_of_unlink {nodes : List Addr} {phase : Addr → Phase} (h : Core s nodes phase)
    {prev : Cell Addr} {cur : Addr} (hon : OnChain nodes prev)
    (hv : s.link prev = ⟨some cur, false⟩) (hn : s.link (.next cur) = ⟨none, true⟩)
    (hlo : Below s prev (s.data x)) : ¬Reach (s.setLink prev ⟨none, false⟩).link x := by
  obtain ⟨nodes', hcore', -, -, hmem⟩ := h.unlink (t := 0) hon hv hn
  exact hcore'.off_of_gap prev (hon.unlink hv hn hmem) hlo (by simp [State.setLink_same])

/-- Where the traversal sees that `x` is off the chain. -/
theorem Move.helped {n maxRetired : ℕ} {act : Act T} (hI : Inv s)
    (hm : Move n maxRetired s t act s') (hret : act ≠ .ret) (hx : marked s x = true)
    (hkey : s.data x = key) (hoff : ¬Reach s.link x → ¬Reach s'.link x)
    (h : Helped key x (¬Reach s.link x) s (s.pc t)) :
    Helped key x (¬Reach s'.link x) s' (s'.pc t) := by
  obtain ⟨nodes, phase, hcore, hth⟩ := hI
  have hok := (hth t).ok
  have hheld := (hth t).held
  subst hkey
  cases hm with
  | call op h' =>
      rw [h'] at h
      exact h.elim
  | alloc a h' ha =>
      rw [h'] at h
      exact h.elim
  | @start c h' =>
      rw [h'] at h
      obtain rfl : c = .help (s.data x) := h
      rw [State.goto_pc_same]
      refine loop_helped fun hnone => ?_
      exact hcore.off_of_gap .head (.inl rfl) (by simp [Below, cellNode]) (by simp [hnone])
  | publish h' =>
      rw [h'] at h
      rw [State.goto_pc_same]
      exact h
  | @retry c h' =>
      rw [State.goto_pc_same]
      exact retry_helped h' h
  | validate h' hv =>
      rw [h'] at h
      rw [State.goto_pc_same]
      exact h
  | readMarked h' hn =>
      rw [h'] at h
      rw [State.goto_pc_same]
      exact h
  | @readUnmarked c prev cur next h' hn =>
      rw [h'] at h hheld
      rw [State.goto_pc_same]
      have hcur : (phase cur).Pub := hheld cur (by simp [Pc.held])
      refine ⟨h, ?_, ?_⟩
      · rintro rfl
        rw [marked, hn] at hx
        cases hx
      · rintro rfl hlt
        exact hcore.off_of_end hcur hn hlt
  | @unlink c prev cur next h' hv =>
      rw [h'] at h hok hheld
      obtain ⟨-, hb, hn⟩ := hok
      obtain rfl : c = .help (s.data x) := h
      rw [State.goto_pc_same]
      refine ⟨rfl, ?_⟩
      rintro rfl
      have hon := hcore.onChain (fun a ha => hheld a (List.mem_append_left [cur] ha)) (by rw [hv])
      exact hcore.off_of_unlink hon hv hn hb
  | readKey h' =>
      rw [h'] at h
      rw [State.goto_pc_same]
      exact h
  | @found c prev cur next h' hv =>
      rw [h'] at h hok hheld
      obtain ⟨hc, hne, -⟩ := h
      have hon := hcore.valid (fun a ha => hheld a (List.mem_append_left _ ha)) hv
      have hkey : s.data cur = s.data x := by
        rw [hok.2.2, hc]
        rfl
      rw [State.goto_pc_same, hc]
      exact hcore.off_of_found hon.2.1 hne hkey
  | @notFound c prev cur next curKey h' hv hk =>
      rw [h'] at h hok hheld
      obtain ⟨hc, -⟩ := h
      rw [State.goto_pc_same, hc]
      have hon := hcore.onChain (fun a ha => hheld a (List.mem_append_left _ ha)) (by rw [hv])
      refine hcore.off_of_gap prev hon ?_ fun b hb => ?_
      · rw [hc] at hok
        exact hok.2.1
      · rw [hv] at hb
        obtain rfl := Option.some.inj hb
        rw [hok.2.2]
        rw [hc] at hk
        exact hk
  | advance h' hv hk =>
      rw [h'] at h
      obtain ⟨hc, -, hnone⟩ := h
      rw [State.goto_pc_same]
      refine ⟨hc, fun hn => hnone hn ?_⟩
      rw [hc] at hk
      exact hk
  | readValue h' =>
      rw [h'] at h
      exact h.elim
  | swap1 h' =>
      rw [h'] at h
      rw [State.goto_pc_same]
      exact h
  | swap2 h' =>
      rw [h'] at h
      obtain ⟨hc, hnone⟩ := h
      rw [State.goto_pc_same, hc]
      exact loop_helped hnone
  | retireScan h' hc =>
      rw [h'] at h
      rw [State.goto_pc_same]
      exact h
  | retireOnly h' hc =>
      rw [h'] at h
      rw [State.goto_pc_same]
      exact resume_helped h
  | scanSlot h' hpos =>
      rw [h'] at h
      rw [State.goto_pc_same]
      exact h
  | scanEnd h' hpos =>
      rw [h'] at h
      rw [State.goto_pc_same]
      exact h
  | visitActive a h' ha hact =>
      rw [h'] at h
      rw [State.goto_pc_same]
      exact h
  | visitFree a h' ha hact =>
      rw [h'] at h
      rw [State.goto_pc_same]
      exact h
  | sweepEnd h' =>
      rw [h'] at h
      rw [State.goto_pc_same]
      exact resume_helped h
  | setNext h' =>
      rw [h'] at h
      exact h.elim
  | casInsert h' hv =>
      rw [h'] at h
      exact h.elim
  | deleteNew h' =>
      rw [h'] at h
      exact h.elim
  | casMark h' hv =>
      rw [h'] at h
      exact h.elim
  | @casUnlink k prev cur next h' hv =>
      rw [h'] at h hok hheld
      obtain ⟨-, rfl⟩ := h
      rw [State.goto_pc_same]
      have hon := hcore.onChain (fun a ha => hheld a (List.mem_append_left [cur] ha)) (by rw [hv])
      obtain ⟨nodes', hcore', -, -, hmem⟩ := hcore.unlink (t := t) hon hv hok.2
      show ¬Reach (s.setLink prev ⟨next, false⟩).link cur
      rw [reach_iff hcore'.path, hmem]
      exact fun hno => hno.2 rfl
  | ret h' => exact absurd rfl hret

end

/-! ## Runs -/

section Runs

variable [LinearOrder T] {n maxRetired : ℕ} (r : (machine T n maxRetired).Run NoReuse)

/-- Step `i` marks the node `a`. -/
def MarksAt (t : Tid) (a : Addr) (i : ℕ) : Prop :=
  i < r.len ∧ r.act i = (t, .tick) ∧ Marks (r.st i) t a

def UnlinksAt (a : Addr) (i : ℕ) : Prop :=
  i < r.len ∧ ∃ t, r.act i = (t, .tick) ∧ Unlinks (r.st i) t a

def RetiresAt (a : Addr) (i : ℕ) : Prop :=
  i < r.len ∧ ∃ t, r.act i = (t, .tick) ∧ Retires (r.st i) t a

/-- The nodes retired before instant `i`. -/
def RetiredBefore (i : ℕ) (a : Addr) : Prop := ∃ m < i, RetiresAt r a m

variable {r}

/-- The thread goes on without a choice. -/
def Pc.ticks : Pc T → Bool
  | .idle => false
  | .new _ _ => false
  | .sweep _ _ _ => false
  | .done _ _ _ => false
  | _ => true

theorem Move.tick_of_ticks {s s' : State T} {t : Tid} {act : Act T}
    (hm : Move n maxRetired s t act s') (h : (s.pc t).ticks = true) : act = .tick := by
  cases hm with
  | call op h' =>
      rw [h'] at h
      cases h
  | alloc b h' hb =>
      rw [h'] at h
      cases h
  | visitActive b h' hb hact =>
      rw [h'] at h
      cases h
  | visitFree b h' hb hact =>
      rw [h'] at h
      cases h
  | ret h' =>
      rw [h'] at h
      cases h
  | _ => rfl

theorem retiredBefore_succ {i : ℕ} (hi : i < r.len) (a : Addr) :
    RetiredBefore r (i + 1) a
      ↔ RetiredBefore r i a ∨ ((r.st i).pc (r.act i).1).pending = some a := by
  constructor
  · rintro ⟨m, hm, hret⟩
    rcases Nat.lt_succ_iff_lt_or_eq.mp hm with hm | rfl
    · exact .inl ⟨m, hm, hret⟩
    · obtain ⟨-, t, hact, hret⟩ := hret
      rw [hact]
      exact .inr (pending_eq_some.mpr hret)
  · rintro (⟨m, hm, hret⟩ | hp)
    · exact ⟨m, Nat.lt_succ_of_lt hm, hret⟩
    · have hret : Retires (r.st i) (r.act i).1 a := pending_eq_some.mp hp
      have hact : (r.act i).2 = .tick := by
        obtain ⟨after, hpc⟩ := hret
        exact (run_move r hi).tick_of_ticks (by rw [hpc]; rfl)
      exact ⟨i, Nat.lt_succ_self i, hi, (r.act i).1, Prod.ext rfl hact, hret⟩

theorem run_change {i : ℕ} (hi : i < r.len) (h : Tidy (RetiredBefore r i) (r.st i)) :
    Change (r.st i) (r.act i).1 (r.st (i + 1)) :=
  (run_move r hi).change (run_inv r i (Nat.le_of_lt hi)) (r.ok i hi) (h.node _)

theorem run_tidy : ∀ i ≤ r.len, Tidy (RetiredBefore r i) (r.st i) := by
  refine r.invariant ?_ fun i hi h => ?_
  · refine ⟨?_, ?_, ?_, ?_⟩
    · intro t a ha
      rw [r.init.pc t] at ha
      cases ha
    · rintro a ⟨m, hm, -⟩
      exact absurd hm (Nat.not_lt_zero m)
    · rintro a t ⟨m, hm, -⟩
      exact absurd hm (Nat.not_lt_zero m)
    · intro a ha
      exact absurd (r.init.status a) ha
  · have heq : RetiredBefore r (i + 1)
        = fun a => RetiredBefore r i a ∨ ((r.st i).pc (r.act i).1).pending = some a :=
      funext fun a => propext (retiredBefore_succ hi a)
    rw [heq]
    exact h.change (run_inv r i (Nat.le_of_lt hi)) (run_change hi h)
      fun u hu => (run_move r hi).pc_of_ne hu

/-- What is off the chain stays there for the rest of the run. -/
theorem run_off {a : Addr} {i j : ℕ} (hij : i ≤ j) (hj : j ≤ r.len) (h : Off (r.st i) a) :
    Off (r.st j) a := by
  induction j, hij using Nat.le_induction with
  | base => exact h
  | succ j hij ih =>
      have htidy := run_tidy j (Nat.le_of_succ_le hj)
      exact (ih (Nat.le_of_succ_le hj)).change (run_change hj htidy) (htidy.node _)

theorem step_tick {s : State T} {t : Tid} (ht : t < n) :
    step n maxRetired s (t, .tick) = tick n maxRetired s t := by
  simp only [step, if_pos ht]

/-- A compare-and-swap that unlinks, in the run. -/
theorem UnlinksAt.pending {a : Addr} {i : ℕ} (h : UnlinksAt r a i) :
    ((r.st (i + 1)).pc (r.act i).1).pending = some a := by
  obtain ⟨hi, t, hact, prev, next, hpc, hv⟩ := h
  have hs := r.step i hi
  rw [hact] at hs ⊢
  have hs' : tick n maxRetired (r.st i) t = some (r.st (i + 1)) :=
    (step_tick (step_move hs).1).symm.trans hs
  rcases hpc with ⟨key, hpc⟩ | ⟨c, hpc⟩
  · simp only [tick, hpc, if_pos hv] at hs'
    rw [← Option.some.inj hs', State.goto_pc_same]
    rfl
  · simp only [tick, hpc, if_pos hv] at hs'
    rw [← Option.some.inj hs', State.goto_pc_same]
    rfl

theorem UnlinksAt.off {a : Addr} {i : ℕ} (h : UnlinksAt r a i) :
    Reach (r.st i).link a ∧ Off (r.st (i + 1)) a := by
  have hi := h.1
  have hc := run_change hi (run_tidy i (Nat.le_of_lt hi))
  exact ⟨(hc.unlinked a h.pending).1, ((run_inv r (i + 1) hi).pending h.pending).1⟩

theorem unlinked_once {a : Addr} {i j : ℕ} (hi : UnlinksAt r a i) (hj : UnlinksAt r a j) :
    i = j := by
  have hlt : ∀ {i j : ℕ}, UnlinksAt r a i → UnlinksAt r a j → ¬i < j := by
    intro i j hi hj hij
    exact (run_off hij (Nat.le_of_lt hj.1) hi.off.2).reach hj.off.1
  exact Nat.le_antisymm (Nat.le_of_not_lt (hlt hj hi)) (Nat.le_of_not_lt (hlt hi hj))

theorem retired_once {a : Addr} {i j : ℕ} (hi : RetiresAt r a i) (hj : RetiresAt r a j) :
    i = j := by
  have hlt : ∀ {i j : ℕ}, RetiresAt r a i → RetiresAt r a j → ¬i < j := by
    rintro i j hi ⟨hj, t, -, hret⟩ hij
    exact (run_tidy j (Nat.le_of_lt hj)).once a t ⟨i, hij, hi⟩ (pending_eq_some.mpr hret)
  exact Nat.le_antisymm (Nat.le_of_not_lt (hlt hj hi)) (Nat.le_of_not_lt (hlt hi hj))

/-- The thread has marked `a` and its call has not returned. -/
structure Owes (s : State T) (t : Tid) (a : Addr) : Prop where
  used : s.status a ≠ .fresh
  marked : marked s a = true
  helped : Helped (s.data a) a (¬Reach s.link a) s (s.pc t)

theorem MarksAt.owes {t : Tid} {a : Addr} {m : ℕ} (h : MarksAt r t a m) :
    Owes (r.st (m + 1)) t a := by
  obtain ⟨hm, hact, key, prev, next, hpc, hv⟩ := h
  have hs := r.step m hm
  rw [hact] at hs
  have hs' : tick n maxRetired (r.st m) t = some (r.st (m + 1)) :=
    (step_tick (step_move hs).1).symm.trans hs
  obtain ⟨nodes, phase, hcore, hth⟩ := run_inv r m (Nat.le_of_lt hm)
  have hok := (hth t).ok
  have hheld := (hth t).held
  rw [hpc] at hok hheld
  have hlinked : phase a = .linked := by
    rw [hcore.linked]
    exact hcore.mem_of_unmarked (hheld a (by simp [Pc.held])) (by rw [hv])
  simp only [tick, hpc, if_pos hv] at hs'
  rw [← Option.some.inj hs']
  refine ⟨?_, ?_, ?_⟩
  · rw [State.goto_status, State.setLink_status, (hcore.live a).mpr (by simp [hlinked])]
    exact Status.noConfusion
  · rw [LockFreeList.marked, State.goto_link, State.setLink_same]
  · rw [State.goto_pc_same]
    exact ⟨hok.2.symm, rfl⟩

/-- A step that is not the return of the call. -/
theorem Owes.succ {t : Tid} {a : Addr} {i : ℕ} (h : Owes (r.st i) t a) (hi : i < r.len)
    (hret : r.act i ≠ (t, .ret)) : Owes (r.st (i + 1)) t a := by
  have hI := run_inv r i (Nat.le_of_lt hi)
  have htidy := run_tidy i (Nat.le_of_lt hi)
  have hc := run_change hi htidy
  have hm := run_move r hi
  have hdata : (r.st (i + 1)).data a = (r.st i).data a :=
    hm.data_eq fun halloc => h.used (r.ok i hi a halloc)
  have hoff : ¬Reach (r.st i).link a → ¬Reach (r.st (i + 1)).link a := fun hr =>
    (Off.change ⟨h.used, h.marked, hr⟩ hc (htidy.node _)).reach
  refine ⟨fun hf => h.used (hc.fresh a hf), hc.keeps a h.used h.marked, ?_⟩
  rw [hdata]
  rcases hact : r.act i with ⟨u, act⟩
  rw [hact] at hm hret
  by_cases hu : t = u
  · subst hu
    have hne : act ≠ .ret := fun heq => hret (by rw [heq])
    exact hm.helped hI hne h.marked rfl hoff h.helped
  · rw [hm.pc_of_ne hu]
    refine h.helped.mono hoff fun b hb => hm.data_eq fun halloc => ?_
    exact hI.not_held (r.ok i hi b (by rw [hact]; exact halloc)) t hb

/-- The marking thread until its call returns. -/
theorem MarksAt.run {t : Tid} {a : Addr} {m i : ℕ} (h : MarksAt r t a m) (hmi : m < i)
    (hi : i ≤ r.len) (hrun : ∀ j, m < j → j < i → r.act j ≠ (t, .ret)) : Owes (r.st i) t a := by
  revert hi hrun
  induction i, hmi using Nat.le_induction with
  | base => exact fun _ _ => h.owes
  | succ i hmi ih =>
      intro hi hrun
      have ho := ih (Nat.le_of_succ_le hi) fun j hmj hji => hrun j hmj (Nat.lt_succ_of_lt hji)
      exact ho.succ hi (hrun i hmi (Nat.lt_succ_self i))

/-- When the call returns, the node is off the chain. -/
theorem MarksAt.off {t : Tid} {a : Addr} {m i : ℕ} (h : MarksAt r t a m) (hmi : m < i)
    (hi : i < r.len) (hrun : ∀ j, m < j → j < i → r.act j ≠ (t, .ret))
    (hret : r.act i = (t, .ret)) : Off (r.st i) a := by
  have ho := h.run hmi (Nat.le_of_lt hi) hrun
  have hm := run_move r hi
  rw [hret] at hm
  refine ⟨ho.used, ho.marked, ?_⟩
  have hhelped := ho.helped
  generalize r.st (i + 1) = s' at hm
  cases hm with
  | ret hpc =>
      rw [hpc] at hhelped
      exact hhelped

/-- Every mark was set by a step of the run. -/
theorem exists_marksAt : ∀ i ≤ r.len, ∀ a, (r.st i).status a ≠ .fresh →
    marked (r.st i) a = true → ∃ t m, m < i ∧ MarksAt r t a m := by
  refine r.invariant ?_ fun i hi ih => ?_
  · intro a ha
    exact absurd (r.init.status a) ha
  · intro a hused hm
    have hc := run_change hi (run_tidy i (Nat.le_of_lt hi))
    rcases hc.marks a hused hm with ⟨hused, hm⟩ | hmarks
    · obtain ⟨t, m, hmi, hat⟩ := ih a hused hm
      exact ⟨t, m, Nat.lt_succ_of_lt hmi, hat⟩
    · have hact : (r.act i).2 = .tick := by
        obtain ⟨key, prev, next, hpc, -⟩ := hmarks
        exact (run_move r hi).tick_of_ticks (by rw [hpc]; rfl)
      exact ⟨(r.act i).1, i, Nat.lt_succ_self i, hi, Prod.ext rfl hact, hmarks⟩

/-- When the thread that marked `a` is idle, its call has returned. -/
theorem MarksAt.off_of_idle {t : Tid} {a : Addr} {m i : ℕ} (h : MarksAt r t a m) (hmi : m < i)
    (hi : i ≤ r.len) (hidle : (r.st i).pc t = .idle) : Off (r.st i) a := by
  have hex : ∃ j, m < j ∧ j < i ∧ r.act j = (t, .ret) := by
    by_contra hno
    have hrun : ∀ j, m < j → j < i → r.act j ≠ (t, .ret) :=
      fun j hmj hji hret => hno ⟨j, hmj, hji, hret⟩
    have hhelped := (h.run hmi hi hrun).helped
    rw [hidle] at hhelped
    exact hhelped
  -- the first return after the mark
  classical
  obtain ⟨hmj, hji, hret⟩ := Nat.find_spec hex
  have hfirst : ∀ k, m < k → k < Nat.find hex → r.act k ≠ (t, .ret) := fun k hmk hkj hk =>
    Nat.find_min hex hkj ⟨hmk, lt_trans hkj hji, hk⟩
  exact run_off (Nat.le_of_lt hji) hi (h.off hmj (lt_of_lt_of_le hji hi) hfirst hret)

/-- The state of the list when no operation is in progress. -/
theorem quiescent_clean {i : ℕ} (hi : i ≤ r.len) (hidle : ∀ t, (r.st i).pc t = .idle) :
    (∀ a, Reach (r.st i).link a → marked (r.st i) a = false)
      ∧ ∀ a, (r.st i).status a ≠ .fresh → marked (r.st i) a = true →
        RetiredBefore r i a := by
  have hoff : ∀ a, (r.st i).status a ≠ .fresh → marked (r.st i) a = true → Off (r.st i) a := by
    intro a hused hm
    obtain ⟨t, m, hmi, hat⟩ := exists_marksAt i hi a hused hm
    exact hat.off_of_idle hmi hi (hidle t)
  refine ⟨?_, ?_⟩
  · intro a hr
    by_contra hm
    rw [Bool.not_eq_false] at hm
    obtain ⟨nodes, phase, hcore, -⟩ := run_inv r i hi
    have hp : phase a = .linked := (hcore.linked a).mpr ((reach_iff hcore.path).mp hr)
    have hused : (r.st i).status a ≠ .fresh := by
      rw [(hcore.live a).mpr (by simp [hp])]
      nofun
    exact (hoff a hused hm).reach hr
  · intro a hused hm
    rcases (run_tidy i hi).marked a hused hm with hr | ⟨t, hp⟩ | hd
    · exact absurd hr (hoff a hused hm).reach
    · rw [hidle t] at hp
      cases hp
    · exact hd

/-- A run that cleans up after itself. -/
structure Clean (r : (machine T n maxRetired).Run NoReuse) : Prop where
  /-- A node is unlinked by at most one compare-and-swap. -/
  unlinked : ∀ a i j, UnlinksAt r a i → UnlinksAt r a j → i = j
  /-- It is passed to `retireNode` at most once. -/
  retired : ∀ a i j, RetiresAt r a i → RetiresAt r a j → i = j
  /-- When the `remove` that marked it returns, it is off the chain. -/
  removed : ∀ t a m i, MarksAt r t a m → m < i → i < r.len →
    (∀ j, m < j → j < i → r.act j ≠ (t, .ret)) → r.act i = (t, .ret) → ¬Reach (r.st i).link a
  /-- With no operation in progress no node on the chain is marked, -/
  unmarked : ∀ i ≤ r.len, (∀ t, (r.st i).pc t = .idle) →
    ∀ a, Reach (r.st i).link a → marked (r.st i) a = false
  /-- every marked node has been retired once, -/
  accounted : ∀ i ≤ r.len, (∀ t, (r.st i).pc t = .idle) →
    ∀ a, (r.st i).status a ≠ .fresh → marked (r.st i) a = true → ∃! m, m < i ∧ RetiresAt r a m
  /-- and `checkIntegrity` returns true. -/
  integrity : ∀ i ≤ r.len, (∀ t, (r.st i).pc t = .idle) →
    ∃ bound, ∀ fuel > bound, checkIntegrity fuel (r.st i) = some true

/-- **Quiescent cleanliness and single retirement**, for any number of
threads. -/
theorem list_cleans_up (n maxRetired : ℕ) (r : (machine T n maxRetired).Run NoReuse) :
    Clean r := by
  refine ⟨fun a i j => unlinked_once, fun a i j => retired_once, ?_, ?_, ?_, ?_⟩
  · intro t a m i hat hmi hi hrun hret
    exact (hat.off hmi hi hrun hret).reach
  · intro i hi hidle
    exact (quiescent_clean hi hidle).1
  · intro i hi hidle a hused hm
    obtain ⟨m, hmi, hret⟩ := (quiescent_clean hi hidle).2 a hused hm
    exact ⟨m, ⟨hmi, hret⟩, fun m' h' => retired_once h'.2 hret⟩
  · intro i hi hidle
    obtain ⟨nodes, phase, hcore, -⟩ := run_inv r i hi
    refine ⟨nodes.length, checkIntegrity_chain hcore.path hcore.head hcore.sorted fun a ha => ?_⟩
    exact (quiescent_clean hi hidle).1 a ((reach_iff hcore.path).mpr ha)

end Runs

end LockFreeList

end HttpServer
