import HttpServer.LockFreeListKeys

/-!
# The lock-free list is a linearizable set

The calls that change the set do so at one step each (`Move.effect`).
The others answer what was true at some instant between their call and
their return: `Evidence` is what a thread has seen by the time it
stands at an instruction, and `Move.evidence` says where it sees it.
A key is seen in the set when the link of its node is read unmarked; it
is seen missing when `*prev` is validated (or read, or swung) and points
past the key.

Nodes are not reused here: `new` returns addresses it has not returned
before.
-/

namespace HttpServer

namespace LockFreeList

open Chain

variable {T : Type}

/-! ## What a thread has seen -/

def AfterEvidence (Out : T → Prop) : After T → Prop
  | .loop c _ cur => cur = none → Out c.key
  | .done _ => True

theorem AfterEvidence.mono {Out Out' : T → Prop} {after : After T} (hout : ∀ k, Out k → Out' k)
    (h : AfterEvidence Out after) : AfterEvidence Out' after := by
  cases after with
  | loop c prev cur => exact fun hc => hout _ (h hc)
  | done key => trivial

section

variable [LinearOrder T]

/-- `In` and `Out` are the keys that were in the set, and not in the set,
at some instant of the call. -/
def Evidence (In Out : T → Prop) (s : State T) : Pc T → Prop
  | .readKey c _ cur next =>
      (s.data cur = c.key → In c.key) ∧ (next = none → s.data cur < c.key → Out c.key)
  | .compare c _ _ next curKey =>
      (curKey = c.key → In c.key) ∧ (next = none → curKey < c.key → Out c.key)
  | .readValue key _ => In key
  | .deleteNew key _ _ => In key
  | .swap1 c _ next => next = none → Out c.key
  | .swap2 c _ next _ => next = none → Out c.key
  | .retire _ after => AfterEvidence Out after
  | .scan _ _ after => AfterEvidence Out after
  | .sweep _ _ after => AfterEvidence Out after
  | .done (.insert key _) res _ => res = false → In key
  | .done (.remove key) res _ => res = false → Out key
  | .done (.lookup key _) res _ => if res then In key else Out key
  | _ => True

variable {In Out In' Out' : T → Prop} {s s' : State T} {t : Tid}

/-- What has been seen stays seen, also when other threads move. -/
theorem Evidence.mono {pc : Pc T} (hin : ∀ k, In k → In' k) (hout : ∀ k, Out k → Out' k)
    (hd : ∀ a ∈ pc.held, s'.data a = s.data a) (h : Evidence In Out s pc) :
    Evidence In' Out' s' pc := by
  cases pc with
  | readKey c prev cur next =>
      rw [Evidence, hd cur (by simp [Pc.held])]
      exact ⟨fun hk => hin _ (h.1 hk), fun hn hk => hout _ (h.2 hn hk)⟩
  | compare c prev cur next curKey =>
      exact ⟨fun hk => hin _ (h.1 hk), fun hn hk => hout _ (h.2 hn hk)⟩
  | readValue key cur => exact hin _ h
  | deleteNew key value node => exact hin _ h
  | swap1 c cur next => exact fun hn => hout _ (h hn)
  | swap2 c cur next temp => exact fun hn => hout _ (h hn)
  | retire node after => exact AfterEvidence.mono hout h
  | scan active pos after => exact AfterEvidence.mono hout h
  | sweep active todo after => exact AfterEvidence.mono hout h
  | done op res value =>
      rcases op with ⟨key, v⟩ | key | ⟨key, v⟩
      · exact fun hr => hin _ (h hr)
      · exact fun hr => hout _ (h hr)
      · cases res with
        | false => exact hout _ h
        | true => exact hin _ h
  | _ => trivial

theorem found_evidence {c : Call T} {prev : Cell Addr} {cur : Addr} {next : Option Addr}
    (h : In c.key) : Evidence In Out s (found c prev cur next) := by
  rcases c with ⟨_, _, _⟩ | ⟨_⟩ | ⟨_⟩ | ⟨_, _ | _⟩
  · exact h
  · trivial
  · exact fun hr => by cases hr
  · exact h
  · exact h

theorem notFound_evidence {c : Call T} {prev : Cell Addr} {cur : Option Addr} (h : Out c.key) :
    Evidence In Out s (notFound c prev cur) := by
  cases c with
  | insert key value node => trivial
  | remove key => exact fun _ => h
  | help key => exact fun hr => by cases hr
  | lookup key value => exact h

theorem loop_evidence {c : Call T} {prev : Cell Addr} {cur : Option Addr}
    (h : cur = none → Out c.key) : Evidence In Out s (loop c prev cur) := by
  cases cur with
  | none => exact notFound_evidence (h rfl)
  | some a => trivial

theorem resume_evidence {after : After T} (h : AfterEvidence Out after) :
    Evidence In Out s (resume after) := by
  cases after with
  | loop c prev cur => exact loop_evidence h
  | done key => exact fun hr => by cases hr

theorem Move.data_eq {n maxRetired : ℕ} {act : Act T} (hm : Move n maxRetired s t act s')
    {a : Addr} (ha : act ≠ .alloc a) : s'.data a = s.data a := by
  cases hm with
  | alloc b h hb => exact Function.update_of_ne (fun heq => ha (by rw [heq])) ..
  | _ => rfl

/-- Where a thread sees what it answers. -/
theorem Move.evidence {n maxRetired : ℕ} {act : Act T} (hI : Inv s)
    (hm : Move n maxRetired s t act s') (hin : ∀ k ∈ keys s, In k) (hout : ∀ k ∉ keys s, Out k)
    (h : Evidence In Out s (s.pc t)) : Evidence In Out s' (s'.pc t) := by
  obtain ⟨nodes, phase, hcore, hth⟩ := hI
  have hok := (hth t).ok
  have hheld := (hth t).held
  cases hm with
  | call op h' =>
      rw [State.goto_pc_same]
      cases op <;> trivial
  | @start c h' =>
      rw [State.goto_pc_same]
      refine loop_evidence fun hnone => hout _ ?_
      exact hcore.gap .head (.inl rfl) (by simp [Below, cellNode]) (by simp [hnone])
  | @readUnmarked c prev cur next h' hn =>
      rw [h'] at hok hheld
      rw [State.goto_pc_same]
      have hcur : (phase cur).Pub := hheld cur (by simp [Pc.held])
      constructor
      · intro hk
        exact hin _ (hk ▸ hcore.mem_keys_of_unmarked hcur (by rw [hn]))
      · rintro rfl hk
        refine hout _ (hcore.gap (.next cur) ?_ ?_ (by simp [hn]))
        · exact .inr ⟨cur, hcore.mem_of_unmarked hcur (by rw [hn]), rfl⟩
        · intro p hp
          rwa [List.mem_singleton.mp hp]
  | @unlink c prev cur next h' hv =>
      rw [h'] at hok hheld
      obtain ⟨-, hb, hn⟩ := hok
      rw [State.goto_pc_same]
      rintro rfl
      have hprev := fun a ha => hheld a (List.mem_append_left [cur] ha)
      have hon := hcore.onChain hprev (by rw [hv])
      obtain ⟨nodes', hcore', -, -, hmem⟩ := hcore.unlink (t := t) hon hv hn
      refine hout _ ?_
      rw [← keys_unlink hcore hprev hv hn]
      exact hcore'.gap prev (hon.unlink hv hn hmem) hb (by simp [State.setLink_same])
  | readKey h' =>
      rw [h'] at h
      rw [State.goto_pc_same]
      exact h
  | found h' hv =>
      rw [h'] at h
      rw [State.goto_pc_same]
      exact found_evidence (h.1 rfl)
  | notFound h' hv hk =>
      rw [h'] at hok hheld
      rw [State.goto_pc_same]
      refine notFound_evidence (hout _ ?_)
      have hon := hcore.onChain (fun a ha => hheld a (List.mem_append_left _ ha)) (by rw [hv])
      refine hcore.gap _ hon hok.2.1 fun b hb => ?_
      rw [hv] at hb
      obtain rfl := Option.some.inj hb
      rwa [hok.2.2]
  | advance h' hv hk =>
      rw [h'] at h
      rw [State.goto_pc_same]
      exact fun hn => h.2 hn hk
  | readValue h' =>
      rw [h'] at h
      rw [State.goto_pc_same]
      exact h
  | swap1 h' =>
      rw [h'] at h
      rw [State.goto_pc_same]
      exact h
  | swap2 h' =>
      rw [h'] at h
      rw [State.goto_pc_same]
      exact loop_evidence h
  | retireScan h' hc =>
      rw [h'] at h
      rw [State.goto_pc_same]
      exact h
  | retireOnly h' hc =>
      rw [h'] at h
      rw [State.goto_pc_same]
      exact resume_evidence h
  | scanSlot h' hpos =>
      rw [h'] at h
      rw [State.goto_pc_same]
      exact h
  | scanEnd h' hpos =>
      rw [h'] at h
      rw [State.goto_pc_same]
      exact h
  | visitActive a h' ha hact =>
      rw [h'] at h
      rw [State.goto_pc_same]
      exact h
  | visitFree a h' ha hact =>
      rw [h'] at h
      rw [State.goto_pc_same]
      exact h
  | sweepEnd h' =>
      rw [h'] at h
      rw [State.goto_pc_same]
      exact resume_evidence h
  | deleteNew h' =>
      rw [h'] at h
      rw [State.goto_pc_same]
      exact fun _ => h
  | casInsert h' hv =>
      rw [State.goto_pc_same]
      exact fun hr => by cases hr
  | _ =>
      rw [State.goto_pc_same]
      trivial

/-! ## Runs -/

/-- `new` returns addresses that have never been used. -/
def NoReuse (s : State T) (l : Tid × Act T) : Prop := ∀ a, l.2 = .alloc a → s.status a = .fresh

theorem Inv.not_held (h : Inv s) {a : Addr} (ha : s.status a = .fresh) (u : Tid) :
    a ∉ (s.pc u).held := by
  obtain ⟨nodes, phase, hcore, hth⟩ := h
  intro hheld
  have hpub := (hth u).held a hheld
  have hlive : phase a ≠ .free ∧ phase a ≠ .dead := by
    constructor
    · intro hp
      rw [hp] at hpub
      exact hpub
    · intro hp
      exact absurd (ha.symm.trans (hcore.dead a hp)) (by simp)
  exact absurd (ha.symm.trans ((hcore.live a).mpr hlive)) (by simp)

section Runs

variable {n maxRetired : ℕ} (r : (machine T n maxRetired).Run NoReuse)

theorem run_move {i : ℕ} (hi : i < r.len) :
    Move n maxRetired (r.st i) (r.act i).1 (r.act i).2 (r.st (i + 1)) :=
  (step_move (r.step i hi)).2

theorem run_inv : ∀ i ≤ r.len, Inv (r.st i) := by
  refine r.invariant (Initial.inv r.init) fun i hi hI => ?_
  exact hI.move (run_move r hi) fun a ha u => hI.not_held (r.ok i hi a ha) u

/-- Thread `t` has called `op` at step `c` and is in this call at instant
`i`. -/
structure InCall (t : Tid) (op : Op T) (c i : ℕ) : Prop where
  call : r.act c = (t, .call op)
  lt : c < i
  running : ∀ m, c < m → m < i → r.act m ≠ (t, .ret)

/-- Step `i` is one of thread `t` and changes the set. -/
def Changes (t : Tid) (i : ℕ) : Prop := (r.act i).1 = t ∧ keys (r.st (i + 1)) ≠ keys (r.st i)

/-- The key is in the set at some instant after step `c` and up to `i`. -/
def SeenIn (c i : ℕ) (k : T) : Prop := ∃ m, c < m ∧ m ≤ i ∧ k ∈ keys (r.st m)

def SeenOut (c i : ℕ) (k : T) : Prop := ∃ m, c < m ∧ m ≤ i ∧ k ∉ keys (r.st m)

variable {r}

theorem SeenIn.succ {c i : ℕ} {k : T} (h : SeenIn r c i k) : SeenIn r c (i + 1) k := by
  obtain ⟨m, hc, hi, hk⟩ := h
  exact ⟨m, hc, Nat.le_succ_of_le hi, hk⟩

theorem SeenOut.succ {c i : ℕ} {k : T} (h : SeenOut r c i k) : SeenOut r c (i + 1) k := by
  obtain ⟨m, hc, hi, hk⟩ := h
  exact ⟨m, hc, Nat.le_succ_of_le hi, hk⟩

/-- What holds of a call under way. -/
structure Progress (r : (machine T n maxRetired).Run NoReuse) (t : Tid) (op : Op T) (c i : ℕ) :
    Prop where
  op : ((r.st i).pc t).op = some op
  evidence : Evidence (SeenIn r c i) (SeenOut r c i) (r.st i) ((r.st i).pc t)
  untaken : ((r.st i).pc t).taken = false → ∀ m, c < m → m < i → ¬Changes r t m
  taken : ((r.st i).pc t).taken = true → ∃ m, c < m ∧ m < i ∧ Changes r t m
    ∧ ∀ m', c < m' → m' < i → Changes r t m' → m' = m

/-- The first step of a call. -/
theorem Progress.first {t : Tid} {op : Op T} {c : ℕ} (hc : c < r.len)
    (h : r.act c = (t, .call op)) : Progress r t op c (c + 1) := by
  have hm := run_move r hc
  rw [h] at hm
  have hpc : (r.st (c + 1)).pc t = enter op := by
    generalize r.st (c + 1) = s' at hm
    cases hm with
    | call op h => exact State.goto_pc_same ..
  refine ⟨?_, ?_, fun _ m _ _ => by omega, fun htaken => ?_⟩
  · rw [hpc]
    cases op <;> rfl
  · rw [hpc]
    cases op <;> trivial
  · rw [hpc] at htaken
    cases op <;> cases htaken

/-- A step of another thread. -/
theorem Progress.other {t : Tid} {op : Op T} {c i : ℕ} (h : Progress r t op c i) (hi : i < r.len)
    (ht : t ≠ (r.act i).1) : Progress r t op c (i + 1) := by
  have hm := run_move r hi
  have hI := run_inv r i (Nat.le_of_lt hi)
  have hpc := hm.pc_of_ne ht
  have hno : ¬Changes r t i := fun hch => ht hch.1.symm
  refine ⟨?_, ?_, fun htaken m hcm hm => ?_, fun htaken => ?_⟩
  · rw [hpc]
    exact h.op
  · rw [hpc]
    refine h.evidence.mono (fun _ => SeenIn.succ) (fun _ => SeenOut.succ) fun a ha => ?_
    exact hm.data_eq fun halloc => hI.not_held (r.ok i hi a halloc) t ha
  · rw [hpc] at htaken
    rcases Nat.lt_succ_iff_lt_or_eq.mp hm with hm | rfl
    · exact h.untaken htaken m hcm hm
    · exact hno
  · rw [hpc] at htaken
    obtain ⟨m, hcm, hmi, hch, huniq⟩ := h.taken htaken
    refine ⟨m, hcm, Nat.lt_succ_of_lt hmi, hch, fun m' hcm' hm' hch' => ?_⟩
    rcases Nat.lt_succ_iff_lt_or_eq.mp hm' with hm' | rfl
    · exact huniq m' hcm' hm' hch'
    · exact absurd hch' hno

/-- A step of the thread itself within the call. -/
theorem Progress.own {t : Tid} {op : Op T} {c i : ℕ} (h : Progress r t op c i) (hi : i < r.len)
    (hci : c < i) {act : Act T} (hact : r.act i = (t, act)) (hret : act ≠ .ret) :
    Progress r t op c (i + 1) := by
  have hm := run_move r hi
  have hI := run_inv r i (Nat.le_of_lt hi)
  rw [hact] at hm
  have hev : Evidence (SeenIn r c (i + 1)) (SeenOut r c (i + 1)) (r.st (i + 1))
      ((r.st (i + 1)).pc t) := by
    refine hm.evidence hI (fun k hk => ⟨i, hci, Nat.le_succ i, hk⟩)
      (fun k hk => ⟨i, hci, Nat.le_succ i, hk⟩) ?_
    exact h.evidence.mono (fun _ => SeenIn.succ) (fun _ => SeenOut.succ) fun _ _ => rfl
  have hop := h.op
  cases hm.effect hI with
  | call op' hop' =>
      rw [hop'] at hop
      cases hop
  | ret => exact absurd rfl hret
  | quiet _ hop' hop'' htaken hk =>
      obtain rfl := Option.some.inj (hop'.symm.trans hop)
      have hno : ¬Changes r t i := fun hch => hch.2 hk
      refine ⟨hop'', hev, fun hfalse m hcm hm => ?_, fun htrue => ?_⟩
      · rcases Nat.lt_succ_iff_lt_or_eq.mp hm with hm | rfl
        · exact h.untaken (htaken ▸ hfalse) m hcm hm
        · exact hno
      · obtain ⟨m, hcm, hmi, hch, huniq⟩ := h.taken (htaken ▸ htrue)
        refine ⟨m, hcm, Nat.lt_succ_of_lt hmi, hch, fun m' hcm' hm' hch' => ?_⟩
        rcases Nat.lt_succ_iff_lt_or_eq.mp hm' with hm' | rfl
        · exact huniq m' hcm' hm' hch'
        · exact absurd hch' hno
  | took _ hop' hop'' htaken htaken' hk =>
      obtain rfl := Option.some.inj (hop'.symm.trans hop)
      refine ⟨hop'', hev, fun hfalse => ?_, fun _ => ?_⟩
      · rw [htaken'] at hfalse
        cases hfalse
      · refine ⟨i, hci, Nat.lt_succ_self i, ⟨by rw [hact], hk.ne⟩, fun m' hcm' hm' hch' => ?_⟩
        rcases Nat.lt_succ_iff_lt_or_eq.mp hm' with hm' | rfl
        · exact absurd hch' (h.untaken htaken m' hcm' hm')
        · rfl

theorem InCall.progress {t : Tid} {op : Op T} {c i : ℕ} (h : InCall r t op c i) (hi : i ≤ r.len) :
    Progress r t op c i := by
  obtain ⟨hcall, hlt, hrun⟩ := h
  revert hi hrun
  induction i, hlt using Nat.le_induction with
  | base => exact fun hi _ => Progress.first hi hcall
  | succ i hci ih =>
      intro hi hrun
      have hp := ih (Nat.le_of_succ_le hi) fun m hc hm => hrun m hc (Nat.lt_succ_of_lt hm)
      rcases hact : r.act i with ⟨u, act⟩
      by_cases hu : t = u
      · subst hu
        refine hp.own hi hci hact ?_
        rintro rfl
        exact hrun i hci (Nat.lt_succ_self i) hact
      · exact hp.other hi (by rwa [hact])

/-- A thread is in one call at a time. -/
theorem InCall.not_lt {t : Tid} {op op' : Op T} {c d i : ℕ} (h : InCall r t op c i)
    (h' : InCall r t op' d i) (hi : i ≤ r.len) : ¬c < d := by
  intro hcd
  have hd : d < r.len := Nat.lt_of_lt_of_le h'.lt hi
  have hin : InCall r t op c d :=
    ⟨h.call, hcd, fun m hc hm => h.running m hc (lt_trans hm h'.lt)⟩
  have hop := (hin.progress (Nat.le_of_lt hd)).op
  have hm := run_move r hd
  rw [h'.call] at hm
  generalize r.st (d + 1) = s' at hm
  cases hm with
  | call _ hidle =>
      rw [hidle] at hop
      cases hop

/-- A thread that is in a call has called. -/
theorem exists_inCall : ∀ i ≤ r.len, ∀ t op, ((r.st i).pc t).op = some op →
    ∃ c, InCall r t op c i := by
  refine r.invariant (fun t op h => ?_) fun i hi ih t op h => ?_
  · rw [r.init.pc t] at h
    cases h
  · have hm := run_move r hi
    rcases hact : r.act i with ⟨u, act⟩
    rw [hact] at hm
    -- a call that was under way at `i` and in which `t` does not return now
    have hgo : ((r.st i).pc t).op = some op → (r.act i ≠ (t, .ret)) →
        ∃ c, InCall r t op c (i + 1) := by
      intro hop hret
      obtain ⟨c, hc⟩ := ih t op hop
      refine ⟨c, hc.call, Nat.lt_succ_of_lt hc.lt, fun m hcm hmi => ?_⟩
      rcases Nat.lt_succ_iff_lt_or_eq.mp hmi with hmi | rfl
      · exact hc.running m hcm hmi
      · exact hret
    by_cases hu : t = u
    · subst hu
      cases hm.effect (run_inv r i (Nat.le_of_lt hi)) with
      | call op' hop' hpc =>
          have hopp : op' = op := by
            rw [hpc] at h
            cases op' <;> exact Option.some.inj h
          subst hopp
          exact ⟨i, hact, Nat.lt_succ_self i, fun m hm hm' => by omega⟩
      | ret hpc hpc' =>
          rw [hpc'] at h
          cases h
      | quiet hret hop' hop'' =>
          refine hgo (hop'.trans (hop''.symm.trans h)) ?_
          rw [hact]
          exact fun heq => hret (congrArg Prod.snd heq)
      | took hret hop' hop'' =>
          refine hgo (hop'.trans (hop''.symm.trans h)) ?_
          rw [hact]
          exact fun heq => hret (congrArg Prod.snd heq)
    · refine hgo ?_ ?_
      · rw [← hm.pc_of_ne hu]
        exact h
      · rw [hact]
        exact fun heq => hu (congrArg Prod.fst heq).symm

theorem Changes.effect {t : Tid} {i : ℕ} (hi : i < r.len) (h : Changes r t i) :
    ∃ op, ((r.st i).pc t).op = some op ∧ ((r.st i).pc t).taken = false
      ∧ Took op (keys (r.st i)) (keys (r.st (i + 1))) := by
  obtain ⟨ht, hne⟩ := h
  have hm := run_move r hi
  rw [ht] at hm
  generalize (r.act i).2 = act at hm
  cases hm.effect (run_inv r i (Nat.le_of_lt hi)) with
  | call op hop hpc hk => exact absurd hk hne
  | ret hpc hpc' hk => exact absurd hk hne
  | quiet hret hop hop' htaken hk => exact absurd hk hne
  | took hret hop hop' htaken htaken' hk => exact ⟨_, hop, htaken, hk⟩

theorem Changes.took {t : Tid} {i : ℕ} (hi : i < r.len) (h : Changes r t i) :
    ∃ c op, InCall r t op c i ∧ Took op (keys (r.st i)) (keys (r.st (i + 1))) := by
  obtain ⟨op, hop, -, hk⟩ := h.effect hi
  obtain ⟨c, hc⟩ := exists_inCall i (Nat.le_of_lt hi) t op hop
  exact ⟨c, op, hc, hk⟩

/-- A call that has changed the set does not change it again. -/
theorem InCall.once {t : Tid} {op : Op T} {c i j : ℕ} (hj : j < r.len) (h : InCall r t op c j)
    (hci : c < i) (hij : i < j) (hchi : Changes r t i) : ¬Changes r t j := by
  intro hchj
  obtain ⟨-, -, htaken, -⟩ := hchj.effect hj
  exact (h.progress (Nat.le_of_lt hj)).untaken htaken i hci hij hchi

/-! ## Counting the calls that took effect -/

open Classical in
/-- The calls of one of `ops` (by the step of the call) that have changed
the set before instant `i`. -/
noncomputable def effective (r : (machine T n maxRetired).Run NoReuse) (ops : Set (Op T)) (i : ℕ) :
    Finset ℕ :=
  (Finset.range i).filter fun c =>
    ∃ t, ∃ op ∈ ops, ∃ m < i, InCall r t op c m ∧ Changes r t m

open Classical in
theorem mem_effective {ops : Set (Op T)} {i c : ℕ} :
    c ∈ effective r ops i ↔ ∃ t, ∃ op ∈ ops, ∃ m < i, InCall r t op c m ∧ Changes r t m := by
  rw [effective, Finset.mem_filter, Finset.mem_range]
  constructor
  · exact fun h => h.2
  · rintro ⟨t, op, hop, m, hm, hin, hch⟩
    exact ⟨lt_trans hin.lt hm, t, op, hop, m, hm, hin, hch⟩

theorem effective_succ_of_eq {ops : Set (Op T)} {i : ℕ} (h : keys (r.st (i + 1)) = keys (r.st i)) :
    effective r ops (i + 1) = effective r ops i := by
  ext c
  rw [mem_effective, mem_effective]
  constructor
  · rintro ⟨t, op, hop, m, hm, hin, hch⟩
    refine ⟨t, op, hop, m, lt_of_le_of_ne (Nat.le_of_lt_succ hm) ?_, hin, hch⟩
    rintro rfl
    exact hch.2 h
  · rintro ⟨t, op, hop, m, hm, hin, hch⟩
    exact ⟨t, op, hop, m, Nat.lt_succ_of_lt hm, hin, hch⟩

open Classical in
theorem card_effective_succ {ops : Set (Op T)} {t : Tid} {op : Op T} {c i : ℕ} (hi : i < r.len)
    (hin : InCall r t op c i) (hch : Changes r t i) :
    (effective r ops (i + 1)).card = (effective r ops i).card + if op ∈ ops then 1 else 0 := by
  by_cases hop : op ∈ ops
  · -- `c` has not been effective before, because a call changes the set once
    have hnew : c ∉ effective r ops i := by
      rw [mem_effective]
      rintro ⟨t', op', -, m, hm, hin', hch'⟩
      have heq := hin'.call.symm.trans hin.call
      obtain rfl : t' = t := congrArg Prod.fst heq
      exact hin.once hi hin'.lt hm hch' hch
    have hsucc : effective r ops (i + 1) = insert c (effective r ops i) := by
      ext d
      rw [Finset.mem_insert, mem_effective, mem_effective]
      constructor
      · rintro ⟨t', op', hop', m, hm, hin', hch'⟩
        rcases Nat.lt_succ_iff_lt_or_eq.mp hm with hm | rfl
        · exact .inr ⟨t', op', hop', m, hm, hin', hch'⟩
        · obtain rfl : t = t' := hch.1.symm.trans hch'.1
          exact .inl (le_antisymm (not_lt.mp (hin.not_lt hin' (Nat.le_of_lt hi)))
            (not_lt.mp (hin'.not_lt hin (Nat.le_of_lt hi))))
      · rintro (rfl | ⟨t', op', hop', m, hm, hin', hch'⟩)
        · exact ⟨t, op, hop, i, Nat.lt_succ_self i, hin, hch⟩
        · exact ⟨t', op', hop', m, Nat.lt_succ_of_lt hm, hin', hch'⟩
    rw [hsucc, Finset.card_insert_of_notMem hnew, if_pos hop]
  · have hsame : effective r ops (i + 1) = effective r ops i := by
      ext d
      rw [mem_effective, mem_effective]
      constructor
      · rintro ⟨t', op', hop', m, hm, hin', hch'⟩
        rcases Nat.lt_succ_iff_lt_or_eq.mp hm with hm | rfl
        · exact ⟨t', op', hop', m, hm, hin', hch'⟩
        · obtain rfl : t = t' := hch.1.symm.trans hch'.1
          have hopp := (hin'.progress (Nat.le_of_lt hi)).op
          rw [(hin.progress (Nat.le_of_lt hi)).op] at hopp
          exact absurd (Option.some.inj hopp ▸ hop') hop
      · rintro ⟨t', op', hop', m, hm, hin', hch'⟩
        exact ⟨t', op', hop', m, Nat.lt_succ_of_lt hm, hin', hch'⟩
    rw [hsame, if_neg hop, Nat.add_zero]

/-- The inserts of `key`. -/
def insertsOf (key : T) : Set (Op T) := {op | ∃ value, op = .insert key value}

open Classical in
/-- No update of a key is lost or duplicated. -/
theorem card_effective (key : T) : ∀ i ≤ r.len,
    (effective r (insertsOf key) i).card
      = (effective r {.remove key} i).card + if key ∈ keys (r.st i) then 1 else 0 := by
  refine r.invariant ?_ fun i hi ih => ?_
  · simp [effective, keys_initial r.init]
  by_cases hk : keys (r.st (i + 1)) = keys (r.st i)
  · rw [effective_succ_of_eq hk, effective_succ_of_eq hk, hk]
    exact ih
  · have hch : Changes r (r.act i).1 i := ⟨rfl, hk⟩
    obtain ⟨c, op, hin, htook⟩ := hch.took hi
    rw [card_effective_succ hi hin hch, card_effective_succ hi hin hch, ih]
    rcases op with ⟨key', value⟩ | key' | ⟨key', value⟩
    · rw [htook.2]
      have hno := htook.1
      by_cases heq : key' = key
      · subst heq
        simp [insertsOf, hno]
      · simp [insertsOf, heq, Ne.symm heq]
    · rw [htook.2]
      have hyes := htook.1
      by_cases heq : key' = key
      · subst heq
        simp [insertsOf, hyes]
      · simp [insertsOf, heq, Ne.symm heq]
    · exact htook.elim

/-! ## Linearizability -/

/-- What `lookupInternal` and its callers answer, once they do. -/
def Pc.result : Pc T → Option Bool
  | .done _ res _ => some res
  | _ => none

/-- The call of `op` at step `c` returns `res` at step `j`. -/
structure Returns (r : (machine T n maxRetired).Run NoReuse) (t : Tid) (op : Op T) (res : Bool)
    (c j : ℕ) : Prop where
  inCall : InCall r t op c j
  len : j < r.len
  ret : r.act j = (t, .ret)
  result : ((r.st j).pc t).result = some res

/-- The call changes the set at exactly one of its steps. -/
def ChangesOnce (r : (machine T n maxRetired).Run NoReuse) (t : Tid) (c j : ℕ) : Prop :=
  ∃ i, c < i ∧ i < j ∧ Changes r t i ∧ ∀ i', c < i' → i' < j → Changes r t i' → i' = i

def NeverChanges (r : (machine T n maxRetired).Run NoReuse) (t : Tid) (c j : ℕ) : Prop :=
  ∀ i, c < i → i < j → ¬Changes r t i

/-- What the answer of a call that runs from step `c` to step `j` says
about the set. -/
def Justified (r : (machine T n maxRetired).Run NoReuse) (t : Tid) (c j : ℕ) : Op T → Bool → Prop
  | .insert _ _, true => ChangesOnce r t c j
  | .insert key _, false => NeverChanges r t c j ∧ SeenIn r c j key
  | .remove _, true => ChangesOnce r t c j
  | .remove key, false => NeverChanges r t c j ∧ SeenOut r c j key
  | .lookup key _, true => NeverChanges r t c j ∧ SeenIn r c j key
  | .lookup key _, false => NeverChanges r t c j ∧ SeenOut r c j key

theorem Returns.justified {t : Tid} {op : Op T} {res : Bool} {c j : ℕ}
    (h : Returns r t op res c j) : Justified r t c j op res := by
  obtain ⟨hop, hev, huntaken, htaken⟩ := h.inCall.progress (Nat.le_of_lt h.len)
  have hres := h.result
  cases hpc : (r.st j).pc t with
  | done op' res' value =>
      rw [hpc] at hop hev huntaken htaken hres
      obtain rfl := Option.some.inj hop
      obtain rfl := Option.some.inj hres
      rcases op' with ⟨key, v⟩ | key | ⟨key, v⟩ <;> cases res'
      · exact ⟨huntaken rfl, hev rfl⟩
      · exact htaken rfl
      · exact ⟨huntaken rfl, hev rfl⟩
      · exact htaken rfl
      · exact ⟨huntaken rfl, hev⟩
      · exact ⟨huntaken rfl, hev⟩
  | _ =>
      rw [hpc] at hres
      cases hres

open Classical in
/-- A run of a linearizable set of keys. -/
structure Linearizable (r : (machine T n maxRetired).Run NoReuse) : Prop where
  /-- The chain from `head_`, marked nodes included, is strictly ascending. -/
  ascending : ∀ i ≤ r.len, ∃ nodes, IsChain (r.st i) nodes
    ∧ nodes.Pairwise fun a b => (r.st i).data a < (r.st i).data b
  /-- The set only changes by an `insert` of a key that is absent or a
  `remove` of one that is present. -/
  changes : ∀ i < r.len, keys (r.st (i + 1)) ≠ keys (r.st i) →
    ∃ c op, InCall r (r.act i).1 op c i ∧ Took op (keys (r.st i)) (keys (r.st (i + 1)))
  /-- A call changes it at most once. -/
  once : ∀ t op c i j, j < r.len → InCall r t op c j → c < i → i < j → Changes r t i →
    ¬Changes r t j
  justified : ∀ t op res c j, Returns r t op res c j → Justified r t c j op res
  /-- The inserts of a key that took effect are as many as the removes that
  did, or one more. -/
  balance : ∀ key, ∀ i ≤ r.len, (effective r (insertsOf key) i).card
    = (effective r {.remove key} i).card + if key ∈ keys (r.st i) then 1 else 0

/-- **The list is a linearizable set**, for any number of threads. -/
theorem list_linearizable (n maxRetired : ℕ) (r : (machine T n maxRetired).Run NoReuse) :
    Linearizable r := by
  refine ⟨fun i hi => ?_, fun i hi hk => ?_, fun t op c i j hj h hci hij => h.once hj hci hij,
    fun t op res c j h => h.justified, card_effective⟩
  · obtain ⟨nodes, phase, hcore, -⟩ := run_inv r i hi
    exact ⟨nodes, hcore.path, hcore.sorted⟩
  · exact Changes.took hi ⟨rfl, hk⟩

end Runs

end

end LockFreeList

end HttpServer
