import HttpServer.FileCacheCall

/-!
# The balance of `CacheLock_`

Every call of `pin` releases the lock as often as it acquires it, however
it ends. `unpin` gives it back inside `if (h != 0)`, so a call with
handle 0 keeps it. After any calls, interleaved in any way, the lock is
free exactly when none of them was such an `unpin` (`locks_balanced_iff`),
and in a run of the machine it is these calls that lock the cache for
good (`locked_iff`).
-/

namespace HttpServer

namespace FileCache

open RwLock

variable {n : ℕ} {s s' s₂ : State} {file : String} {l : Act}

/-! ## The two functions -/

section Pin

variable {f : Frame} {answer : Answer} {error : ℤ} {r : Frame}

theorem insertNode_locks (f : Frame) (file : String) (newBuf : Buffer) :
    (f.insertNode file newBuf).locks = f.locks ++ [.unlock] := by
  unfold Frame.insertNode
  simp only
  split
  · rfl
  · rfl

/-- However `pin` ends, it has entered and left the section of the lookup,
and the section that inserts the file when it got there. -/
theorem pin_locks (h : pin (.start s error) s₂ file answer = some r) :
    r.locks = [.rLock, .unlock] ∨ r.locks = bothSections := by
  unfold pin at h
  simp only at h
  split at h
  · obtain rfl := Option.some.inj h
    exact .inl rfl
  · cases answer with
    | openFail errno he =>
        obtain rfl := Option.some.inj h
        exact .inl rfl
    | statFail => cases h
    | readFail errno he =>
        obtain rfl := Option.some.inj h
        exact .inl rfl
    | endless stSize heap reads hbound hno => cases h
    | load stSize heap reads hend =>
        obtain ⟨newBuf, -, h⟩ := Option.bind_eq_some_iff.mp h
        refine .inr ?_
        split at h
        · obtain rfl := Option.some.inj h
          exact insertNode_locks _ file newBuf
        · split at h
          · obtain rfl := Option.some.inj h
            rfl
          · obtain ⟨e, -, rfl⟩ := Option.map_eq_some_iff.mp h
            split
            · exact insertNode_locks _ file newBuf
            · rfl

end Pin

/-- The calls on the lock in `unpin`; the `unlock` is inside `if (h != 0)`. -/
def unpinLocks : Option ℕ → List Op
  | none => [.wLock]
  | some _ => [.wLock, .unlock]

/-- The machine's flag is the lock that `unpin` has kept. -/
theorem unpin_locked (s : State) (h : Option ℕ) :
    (s.unpin h).locked = (s.locked || !decide (Balances (unpinLocks h))) := by
  cases h with
  | none => simp [State.unpin, unpinLocks, Balances, acquires, releases]
  | some a =>
      have hkept : (s.unpin (some a)).locked = s.locked := by
        obtain ⟨b, -, -, heq⟩ | ⟨e, -, heq⟩ := unpin_cases s a
        · rw [heq]
          rfl
        · rw [heq]
      rw [hkept]
      simp [unpinLocks, Balances, acquires, releases]

/-! ## Completed calls -/

/-- A call: `pin` with the cache that it finds in its two sections and the
answers it gets, or `unpin`. -/
inductive Call where
  | pin (s s₂ : State) (file : String) (answer : Answer) (error : ℤ)
  | unpin (h : Option ℕ)

/-- The calls on `CacheLock_` of a call that completes. -/
def Call.locks : Call → Option (List Op)
  | .pin s s₂ file answer error =>
      (FileCache.pin (.start s error) s₂ file answer).map (·.locks)
  | .unpin h => some (unpinLocks h)

/-- The calls that keep the lock. -/
def Call.keeps : Call → Bool
  | .unpin none => true
  | _ => false

/-- One acquisition too many for a call that keeps the lock. -/
theorem locks_excess {c : Call} {ops : List Op} (h : c.locks = some ops) :
    acquires ops = releases ops + if c.keeps then 1 else 0 := by
  cases c with
  | pin s s₂ file answer error =>
      obtain ⟨r, hr, rfl⟩ := Option.map_eq_some_iff.mp h
      rcases pin_locks hr with hl | hl
      · rw [hl]
        rfl
      · rw [hl]
        rfl
  | unpin a =>
      obtain rfl := Option.some.inj h
      cases a with
      | none => rfl
      | some a => rfl

theorem balanced_iff {c : Call} {ops : List Op} (h : c.locks = some ops) :
    Balances ops ↔ c.keeps = false := by
  unfold Balances
  rw [locks_excess h]
  cases c.keeps with
  | false => simp
  | true => simp

theorem locks_excess_flatten {calls : List Call} {traces : List (List Op)}
    (h : List.Forall₂ (fun c ops => c.locks = some ops) calls traces) :
    acquires traces.flatten = releases traces.flatten + calls.countP Call.keeps := by
  induction h with
  | nil => rfl
  | @cons c ops calls traces hc _ ih =>
      have hone := locks_excess hc
      rw [List.flatten_cons, acquires_append, releases_append, List.countP_cons, hone, ih]
      omega

/-- What is held after completed calls, in any order of their calls on the
lock. -/
theorem held_after {calls : List Call} {traces : List (List Op)} {ops : List Op} {m : RwLock}
    (h : List.Forall₂ (fun c ops => c.locks = some ops) calls traces)
    (hperm : ops.Perm traces.flatten) (hrun : free.run ops = some m) :
    m.held = calls.countP Call.keeps := by
  have hheld := run_held hrun
  rw [releases_perm hperm, acquires_perm hperm, locks_excess_flatten h] at hheld
  have hfree : free.held = 0 := rfl
  omega

theorem keeps_iff (c : Call) : c.keeps = true ↔ c = .unpin none := by
  unfold Call.keeps
  split
  · simp
  · rename_i hc
    exact iff_of_false Bool.false_ne_true hc

/-- **A completed call is balanced, and the calls leave the lock free,
exactly when there is no `unpin(0)`.** -/
theorem locks_balanced_iff {calls : List Call} {traces : List (List Op)}
    (h : List.Forall₂ (fun c ops => c.locks = some ops) calls traces) :
    List.Forall₂ (fun c ops => Balances ops ↔ c ≠ .unpin none) calls traces
    ∧ ∀ (ops : List Op) (m : RwLock), ops.Perm traces.flatten → free.run ops = some m →
        (m = free ↔ Call.unpin none ∉ calls) := by
  constructor
  · refine h.imp fun c ops hc => ?_
    rw [balanced_iff hc, ne_eq, ← keeps_iff c, Bool.not_eq_true]
  · intro ops m hperm hrun
    rw [← held_eq_zero, held_after h hperm hrun, List.countP_eq_zero]
    constructor
    · intro hno hin
      exact hno _ hin rfl
    · intro hno c hc hk
      exact hno ((keeps_iff c).mp hk ▸ hc)

/-- A pin of a file that cannot be opened and an `unpin`. -/
theorem pinAndUnpin_free :
    ∃ m, free.run [.rLock, .unlock, .wLock, .unlock] = some m ∧ m = free := by
  let calls : List Call :=
    [.pin emptyCache emptyCache "a" (.openFail 2 (by decide)) 0, .unpin (some 0)]
  have hcalls : List.Forall₂ (fun c ops => c.locks = some ops) calls
      [[.rLock, .unlock], [.wLock, .unlock]] := .cons rfl (.cons rfl .nil)
  have hrun : free.run [.rLock, .unlock, .wLock, .unlock] = some free := rfl
  exact ⟨free, hrun, ((locks_balanced_iff hcalls).2 _ free (.refl _) hrun).mpr (by simp [calls])⟩

/-- `unpin(0)` keeps the lock. -/
theorem unpinNull_keeps : ¬∀ (calls : List Call) (traces : List (List Op)),
    List.Forall₂ (fun c ops => c.locks = some ops) calls traces →
    List.Forall₂ (fun _ ops => Balances ops) calls traces
    ∧ ∀ (ops : List Op) (m : RwLock), ops.Perm traces.flatten → free.run ops = some m →
        m = free := by
  intro hall
  obtain ⟨-, hfree⟩ := hall [.unpin none] [[.wLock]] (.cons rfl .nil)
  have hkept := hfree [.wLock] ⟨0, true⟩ (.refl _) rfl
  cases hkept

/-! ## The machine -/

theorem Move.locked (hm : Move n s l s') :
    s'.locked = true ↔ s.locked = true ∨ l = .unpin none := by
  cases hm with
  | @insert t file stSize buf s₁ hpc hroom hfree =>
      rw [(hroom.quiet.trans (insertNode_quiet s₁ t file buf)).locked]
      simp
  | @fail t file stSize buf s₁ hpc hroom =>
      show s₁.locked = true ↔ _
      rw [hroom.quiet.locked]
      simp
  | unpin x ha =>
      rw [unpin_locked]
      cases x with
      | none => simp [unpinLocks, Balances, acquires, releases]
      | some a => simp [unpinLocks, Balances, acquires, releases]
  | _ => simp [State.goto, State.setNode]

/-- In a run the lock is kept exactly after an `unpin(0)`; no call starts
and no section is entered from then on. -/
theorem locked_iff (r : Lts.Run (machine n) fun _ _ => True) :
    ∀ i ≤ r.len, ((r.st i).locked = true ↔ ∃ j < i, r.act j = .unpin none) := by
  refine r.invariant ?_ fun i hi ih => ?_
  · have h0 : (r.st 0).locked = false := r.init.locked
    simp [h0]
  · rw [(step_move (r.step i hi)).locked, ih]
    constructor
    · rintro (⟨j, hj, h⟩ | h)
      · exact ⟨j, Nat.lt_succ_of_lt hj, h⟩
      · exact ⟨i, Nat.lt_succ_self i, h⟩
    · rintro ⟨j, hj, h⟩
      rcases Nat.lt_succ_iff_lt_or_eq.mp hj with hlt | rfl
      · exact .inl ⟨j, hlt, h⟩
      · exact .inr h

end FileCache

end HttpServer
