import Mathlib.Data.Finset.Lattice.Fold
import Mathlib.Order.Lattice.Nat
import HttpServer.Lib.Calls
import HttpServer.ListSet

/-!
# The list-based set over runs of calls

The list stays sorted as long as no `insert` gets a block with less room
than a node (`sorted_iff`). It does not stay a set: `remove` of the first
node sets `head` to `NULL` and drops the nodes behind it. `is_set_iff` says
exactly which calls show that the list is not the set of ints `IntSet`:
those with a `remove` of the least of several values or with such a block.
-/

namespace HttpServer

namespace ListBasedSet

inductive Call where
  | insert (value : ℤ)
  | remove (value : ℤ)
  | lookup (value : ℤ)
  | clear
deriving DecidableEq, Repr

/-- One call; `clear` answers nothing. -/
def Heap.call (M : Malloc) (h : Heap) : Call → Option (Heap × Option Bool)
  | .insert value => do
      let (h, answer) ← h.insert M value
      some (h, some answer)
  | .remove value => do
      let (h, answer) ← h.remove value
      some (h, some answer)
  | .lookup value => do
      let answer ← h.lookup value
      some (h, some answer)
  | .clear => do
      let h ← h.clear
      some (h, none)

/-! ## The set of ints -/

namespace IntSet

/-- What the calls do to a finite set of ints, and what they answer. -/
def call (s : Finset ℤ) : Call → Finset ℤ × Option Bool
  | .insert value => (Insert.insert value s, some (decide (value ∉ s)))
  | .remove value => (s.erase value, some (decide (value ∈ s)))
  | .lookup value => (s, some (decide (value ∈ s)))
  | .clear => (∅, none)

/-- `value` is the least of `s`, and not the only one. -/
def LeastOfSeveral (s : Finset ℤ) (value : ℤ) : Prop :=
  value ∈ s ∧ (∀ w ∈ s, value ≤ w) ∧ s ≠ {value}

instance (s : Finset ℤ) (value : ℤ) : Decidable (LeastOfSeveral s value) :=
  inferInstanceAs (Decidable (_ ∧ _ ∧ _))

/-- The call does not remove the least of several values. -/
def Keeps (s : Finset ℤ) (c : Call) : Prop := ∀ value, c = .remove value → ¬LeastOfSeveral s value

end IntSet

/-! ## One call -/

variable {h h' : Heap} {l : List Addr} {s : Finset ℤ} {M : Malloc}

/-- The list is sorted, and its values are the set `s`. -/
def Rep (h : Heap) (s : Finset ℤ) : Prop := ∃ l, h.Holds l ∧ ∀ v, v ∈ h.values l ↔ v ∈ s

theorem rep_nil (hh : h.Holds []) : Rep h ∅ := ⟨[], hh, by simp [Heap.values]⟩

/-- `insert` has to make a node in a block without the room for one. -/
def Overruns (M : Malloc) (h : Heap) (c : Call) : Prop :=
  ∃ value, c = .insert value ∧ h.lookup value = some false ∧ ¬h.HasRoom M

theorem call_overrun (hr : Rep h s) {c : Call} (ho : Overruns M h c) : h.call M c = none := by
  obtain ⟨l, hh, -⟩ := hr
  obtain ⟨value, rfl, hlookup, hroom⟩ := ho
  rw [Heap.lookup_spec hh.toChained] at hlookup
  have habs : value ∉ h.values l := of_decide_eq_false (Option.some.inj hlookup)
  simp [Heap.call, Heap.insert_overrun M hh habs hroom]

theorem not_overruns (hroom : h.HasRoom M) {c : Call} : ¬Overruns M h c :=
  fun ⟨_, _, _, hno⟩ => hno hroom

theorem not_overruns_of_result (hr : Rep h s) {c : Call} {r : Heap × Option Bool}
    (hc : h.call M c = some r) : ¬Overruns M h c := fun ho =>
  Option.some_ne_none r (hc.symm.trans (call_overrun hr ho))

/-- Every other call has a result, and the answer of the set. A `remove` of
the least of several values leaves an empty list. -/
theorem call_spec (hr : Rep h s) {c : Call} (ho : ¬Overruns M h c) :
    ∃ h', h.call M c = some (h', (IntSet.call s c).2)
      ∧ (IntSet.Keeps s c → Rep h' (IntSet.call s c).1) ∧ (¬IntSet.Keeps s c → Rep h' ∅) := by
  obtain ⟨l, hh, hmem⟩ := hr
  have hkeeps : ∀ {d : Call}, (∀ value, d ≠ .remove value) → IntSet.Keeps s d :=
    fun hne value heq => absurd heq (hne value)
  cases c with
  | insert value =>
      have hroom : value ∉ h.values l → h.HasRoom M := by
        intro habs
        by_contra hno
        refine ho ⟨value, rfl, ?_, hno⟩
        rw [Heap.lookup_spec hh.toChained, decide_eq_false habs]
      obtain ⟨h', l', hins, hh', hmem'⟩ := Heap.insert_spec M hh value hroom
      refine ⟨h', by simp [Heap.call, hins, IntSet.call, hmem], fun _ => ⟨l', hh', fun v => ?_⟩,
        fun hno => absurd (hkeeps (by simp)) hno⟩
      rw [hmem', hmem, IntSet.call, Finset.mem_insert]
  | remove value =>
      by_cases hval : value ∈ s
      · have hval' := (hmem value).mpr hval
        by_cases hleast : ∀ w ∈ h.values l, value ≤ w
        · obtain ⟨h', hrem, hh'⟩ := Heap.remove_first hh hval' hleast
          refine ⟨h', by simp [Heap.call, hrem, IntSet.call, hval], fun hk => ?_,
            fun _ => rep_nil hh'⟩
          have hs : s = {value} := by
            by_contra hne
            exact hk value rfl ⟨hval, fun w hw => hleast w ((hmem w).mpr hw), hne⟩
          have hempty : (IntSet.call s (.remove value)).1 = ∅ := by
            rw [hs]
            simp [IntSet.call]
          exact hempty ▸ rep_nil hh'
        · obtain ⟨h', l', hrem, hh', hmem'⟩ := Heap.remove_later hh hval' hleast
          refine ⟨h', by simp [Heap.call, hrem, IntSet.call, hval],
            fun _ => ⟨l', hh', fun v => ?_⟩, fun hno => ?_⟩
          · rw [hmem', hmem, IntSet.call, Finset.mem_erase, and_comm]
          · refine absurd (fun value' heq hbad => hleast fun w hw => ?_) hno
            obtain rfl := Call.remove.inj heq
            exact hbad.2.1 w ((hmem w).mp hw)
      · refine ⟨h, ?_, fun _ => ⟨l, hh, fun v => ?_⟩, fun hno => ?_⟩
        · have hrem := Heap.remove_absent hh (mt (hmem value).mp hval)
          simp [Heap.call, hrem, IntSet.call, hval]
        · rw [hmem, IntSet.call, Finset.erase_eq_of_notMem hval]
        · refine absurd (fun value' heq hbad => hval ?_) hno
          obtain rfl := Call.remove.inj heq
          exact hbad.1
  | lookup value =>
      refine ⟨h, ?_, fun _ => ⟨l, hh, hmem⟩, fun hno => absurd (hkeeps (by simp)) hno⟩
      simp [Heap.call, Heap.lookup_spec hh.toChained, IntSet.call, hmem]
  | clear =>
      obtain ⟨h', hclear, hh'⟩ := Heap.clear_spec hh.toChained
      exact ⟨h', by simp [Heap.call, hclear, IntSet.call], fun _ => rep_nil hh',
        fun hno => absurd (hkeeps (by simp)) hno⟩

/-- After a `remove` of the least of several values, another of them is
not found. -/
theorem lookup_of_dropped {c : Call} (hno : ¬IntSet.Keeps s c) (hr : Rep h ∅) :
    ∃ d, ¬Calls.Agree (Heap.call M) IntSet.call h (IntSet.call s c).1 [d] := by
  simp only [IntSet.Keeps, not_forall, not_not] at hno
  obtain ⟨value, rfl, hval, -, hne⟩ := hno
  obtain ⟨w, hw, hwv⟩ : ∃ w ∈ s, w ≠ value := by
    by_contra hall
    simp only [not_exists, not_and, not_not] at hall
    exact hne (Finset.eq_singleton_iff_unique_mem.mpr ⟨hval, hall⟩)
  obtain ⟨l, hh, hmem⟩ := hr
  refine ⟨.lookup w, fun hagree => ?_⟩
  have hcall : h.call M (.lookup w) = some (h, some false) := by
    simp [Heap.call, Heap.lookup_spec hh.toChained, hmem]
  rw [Calls.Agree, Calls.run_cons hcall] at hagree
  simp [Calls.run, Calls.answers, IntSet.call, hw, hwv] at hagree

/-! ## Runs -/

theorem new_rep (node : Addr → Node) : Rep (Heap.new node) ∅ := rep_nil (Heap.new_holds node)

/-- Some call overruns where the next block has no room. -/
theorem exists_overrun (hr : Rep h s) (hroom : ¬h.HasRoom M) : ∃ c, Overruns M h c := by
  obtain ⟨l, hh, hmem⟩ := hr
  obtain ⟨value, hv⟩ := Infinite.exists_notMem_finset s
  refine ⟨.insert value, value, rfl, ?_, hroom⟩
  rw [Heap.lookup_spec hh.toChained, decide_eq_false (mt (hmem value).mp hv)]

theorem rep_values {l : List Addr} (hh : h.Holds l) : Rep h (h.values l).toFinset :=
  ⟨l, hh, by simp⟩

theorem call_sorted (hh : ∃ l, h.Holds l) {c : Call} (ho : ¬Overruns M h c) :
    ∃ h' a, h.call M c = some (h', a) ∧ ∃ l, h'.Holds l := by
  obtain ⟨l, hh⟩ := hh
  obtain ⟨h', hc, hkeep, hdrop⟩ := call_spec (rep_values hh) ho
  refine ⟨h', _, hc, ?_⟩
  by_cases hk : IntSet.Keeps (h.values l).toFinset c
  · obtain ⟨l', hh', -⟩ := hkeep hk
    exact ⟨l', hh'⟩
  · obtain ⟨l', hh', -⟩ := hdrop hk
    exact ⟨l', hh'⟩

/-- After any of the calls the chain from `head` ends and is ascending, and
`checkIntegrity` finds it so, exactly when no `insert` overruns its block.
On any heap `checkIntegrity` answers `true` for the ascending chains and
`false` for the others. -/
theorem sorted_iff (M : Malloc) (node : Addr → Node) (calls : List Call) :
    ((∀ pre, pre <+: calls → ∃ h as, Calls.run (Heap.call M) (Heap.new node) pre = some (h, as)
        ∧ (∃ l, h.Holds l) ∧ h.checkIntegrity = some true)
      ↔ ∀ pre c h as, pre ++ [c] <+: calls →
        Calls.run (Heap.call M) (Heap.new node) pre = some (h, as) → ¬Overruns M h c)
    ∧ ∀ h : Heap, (h.checkIntegrity = some true ↔ ∃ l, h.Holds l)
      ∧ ∀ l, h.Chained l → h.checkIntegrity = some (decide (h.Ascending l)) := by
  refine ⟨?_, fun h => ⟨Heap.checkIntegrity_iff, fun l => Heap.checkIntegrity_spec⟩⟩
  have hkeeps := Calls.run_keeps_iff (fun h : Heap => ∃ l, h.Holds l) (Overruns M)
    (fun h c hh ho => call_sorted hh ho) ?_ ⟨[], Heap.new_holds node⟩ calls
  · refine Iff.trans ?_ hkeeps
    simp only [Heap.checkIntegrity_iff, and_self]
  · rintro h c ⟨l, hh⟩ ho
    exact call_overrun (rep_values hh) ho

/-- Whatever is called next, at every moment, the list answers as the set
does, exactly when the calls so far have not removed the least of several
values and at each moment the next block has room for a node. -/
theorem is_set_iff (M : Malloc) (node : Addr → Node) (calls : List Call) :
    (∀ pre d, pre <+: calls →
        (Calls.run (Heap.call M) (Heap.new node) (pre ++ [d])).map Prod.snd
          = some (Calls.answers IntSet.call ∅ (pre ++ [d])))
      ↔ (∀ pre h as, pre <+: calls →
          Calls.run (Heap.call M) (Heap.new node) pre = some (h, as) → h.HasRoom M)
        ∧ ∀ pre value, pre ++ [.remove value] <+: calls →
          ¬IntSet.LeastOfSeveral (Calls.after IntSet.call ∅ pre) value := by
  have hkeeps : (∀ pre c, pre ++ [c] <+: calls → IntSet.Keeps (Calls.after IntSet.call ∅ pre) c)
      ↔ ∀ pre value, pre ++ [.remove value] <+: calls →
        ¬IntSet.LeastOfSeveral (Calls.after IntSet.call ∅ pre) value := by
    refine ⟨fun hall pre value hpre => hall pre _ hpre value rfl, ?_⟩
    rintro hall pre c hpre value rfl
    exact hall pre value hpre
  rw [← hkeeps]
  refine Calls.run_agrees_iff (R := Rep) ?_ ?_ ?_ ?_ (new_rep node) calls
  · intro h s c hr hroom
    obtain ⟨h', hc, -⟩ := call_spec hr (not_overruns hroom)
    exact ⟨h', hc⟩
  · intro h s hr hroom
    obtain ⟨c, ho⟩ := exists_overrun hr hroom
    refine ⟨c, fun hagree => ?_⟩
    simp [Calls.Agree, Calls.run, call_overrun hr ho] at hagree
  · intro h s c h' hr hok hc
    obtain ⟨h₁, hc₁, hkeep, -⟩ := call_spec hr (not_overruns_of_result hr hc)
    obtain rfl : h' = h₁ := congrArg Prod.fst (Option.some.inj (hc.symm.trans hc₁))
    exact hkeep hok
  · intro h s c h' hr hno hc
    obtain ⟨h₁, hc₁, -, hdrop⟩ := call_spec hr (not_overruns_of_result hr hc)
    obtain rfl : h' = h₁ := congrArg Prod.fst (Option.some.inj (hc.symm.trans hc₁))
    exact lookup_of_dropped hno (hdrop hno)

theorem sup_succ_notMem (live : Finset Addr) : live.sup id + 1 ∉ live := by
  intro hmem
  exact absurd (Finset.le_sup (f := id) hmem) (Nat.not_succ_le_self _)

/-- An allocator that returns the address after the greatest in use. Its
blocks have at least `least` bytes. -/
def Malloc.after (least : ℕ) : Malloc where
  addr _ live := live.sup id + 1
  fresh _ live := sup_succ_notMem live
  bytes _ n := max least n
  enough _ n := le_max_right least n

/-- 2 is lost with 1. -/
theorem not_set_after_remove_first :
    ¬∀ (node : Addr → Node) (calls : List Call),
      (Calls.run (Heap.call (.after 24)) (Heap.new node) calls).map Prod.snd
        = some (Calls.answers IntSet.call ∅ calls) := by
  intro hall
  have hcalls := hall (fun _ => ⟨0, none⟩) [.insert 1, .insert 2, .remove 1, .lookup 2]
  exact absurd hcalls (by decide)

/-- Where a block has just the bytes asked for, the first `insert` overruns it. -/
theorem not_sorted_of_exact_blocks :
    ¬∀ (M : Malloc) (node : Addr → Node) (calls : List Call), ∃ h as,
      Calls.run (Heap.call M) (Heap.new node) calls = some (h, as) ∧ (∃ l, h.Holds l)
        ∧ h.checkIntegrity = some true := by
  intro hall
  obtain ⟨h, as, hrun, -⟩ := hall (.after 0) (fun _ => ⟨0, none⟩) [.insert 1]
  have hsome : (Calls.run (Heap.call (.after 0)) (Heap.new fun _ => ⟨0, none⟩)
      [.insert 1]).isSome := by
    rw [hrun]
    rfl
  exact absurd hsome (by decide)

end ListBasedSet

end HttpServer
