import HttpServer.HashTableRep

/-!
# The hash table refines a finite map

On keys below 2^31 a table answers as the finite map does, through lazily
created buckets and through doublings (`table_refines_map`). On all keys
it is a map on their low 31 bits (`run_spec`): a call with one key changes
what `findKey` answers for another exactly when the two agree there
(`keys_independent_iff`).
-/

namespace HttpServer

namespace HashTable

open LockFreeList LockFreeList.Seq Chain

variable {t : Table} {m : Map} {nodes : List Addr}

/-! ## Construction -/

theorem emptyTable_rep (h : Heap Word) : Rep (emptyTable h) ∅ [] := by
  have hhead : (emptyTable h).heap.link (.cell .head) = ⟨none, false⟩ := Heap.store_same ..
  have hnone : ∀ b d, (emptyTable h).bucketAt b ≠ some (some d) := by
    intro b d hd
    have hmem := List.mem_of_getElem? hd
    simp [emptyTable] at hmem
  refine ⟨⟨congrArg Link.ptr hhead, ?_, .nil, by simp⟩, ⟨1, by decide, by decide, rfl⟩, rfl,
    fun b d hd => absurd hd (hnone b d), by simp, fun k hk => absurd hk Finmap.notMem_empty,
    fun k hk => absurd hk Finmap.notMem_empty, rfl⟩
  intro c hc
  obtain rfl : c = .head := by simpa using hc
  rw [hhead]

/-- The map of a table that has just been constructed. -/
def Map.start : Map := Finmap.singleton 0 0

theorem lockFreeHashTable_spec (h : Heap Word) :
    ∃ t nodes, lockFreeHashTable h = some t ∧ Rep t Map.start nodes := by
  obtain ⟨t, nodes, hins, hr⟩ := insertKey_spec (emptyTable_rep h) 0 0
  have hlow : low 0 = 0 := by decide
  rw [hlow, if_neg Finmap.notMem_empty] at hr
  refine ⟨t, nodes, ?_, hr⟩
  rw [lockFreeHashTable, hins]
  rfl

/-! ## Calls -/

/-- The call with its key as the list keeps it. -/
def Op.low : Op → Op
  | .insertKey data value => .insertKey (HashTable.low data) value
  | .removeKey data => .removeKey (HashTable.low data)
  | .findKey data value => .findKey (HashTable.low data) value

theorem Op.low_of_lt {op : Op} (h : op.data.toNat < 2 ^ 31) : op.low = op := by
  cases op with
  | insertKey data value => exact congrArg (Op.insertKey · value) (HashTable.low_of_lt h)
  | removeKey data => exact congrArg Op.removeKey (HashTable.low_of_lt h)
  | findKey data value => exact congrArg (Op.findKey · value) (HashTable.low_of_lt h)

theorem step_spec (hr : Rep t m nodes) (op : Op) :
    ∃ t' nodes', t.step op = some (t', (m.step op.low).2) ∧ Rep t' (m.step op.low).1 nodes' := by
  cases op with
  | insertKey data value =>
      obtain ⟨t', nodes', hins, hr'⟩ := insertKey_spec hr data value
      refine ⟨t', nodes', ?_, ?_⟩
      · by_cases hmem : low data ∈ m <;> simp [Table.step, Op.low, Map.step, hins, hmem]
      · by_cases hmem : low data ∈ m <;> simpa [Op.low, Map.step, hmem] using hr'
  | removeKey data =>
      obtain ⟨t', nodes', hrem, hr'⟩ := removeKey_spec hr data
      refine ⟨t', nodes', ?_, hr'⟩
      rw [Table.step, hrem]
      rfl
  | findKey data value =>
      obtain ⟨t', nodes', hfind, hr'⟩ := findKey_spec hr data value
      refine ⟨t', nodes', hfind, ?_⟩
      rw [Op.low, Map.step]
      cases m.lookup (low data) <;> exact hr'

theorem run_spec (ops : List Op) : ∀ {t : Table} {m : Map} {nodes : List Addr}, Rep t m nodes →
    ∃ t' nodes', t.run ops = some (t', (m.run (ops.map Op.low)).2)
      ∧ Rep t' (m.run (ops.map Op.low)).1 nodes' := by
  induction ops with
  | nil =>
      intro t m nodes hr
      exact ⟨t, nodes, rfl, hr⟩
  | cons op ops ih =>
      intro t m nodes hr
      obtain ⟨t₁, nodes₁, hstep, hr₁⟩ := step_spec hr op
      obtain ⟨t₂, nodes₂, hrun, hr₂⟩ := ih hr₁
      refine ⟨t₂, nodes₂, ?_, hr₂⟩
      simp only [Table.run, hstep, hrun, Option.bind_eq_bind, Option.bind_some]
      rfl

/-- A table that is used with keys below 2^31 is a finite map that starts
with 0 bound to 0; no call throws, `getCount()` is the number of keys, and
`size_` a power of two with as many buckets. -/
theorem table_refines_map (h : Heap Word) (ops : List Op)
    (hkeys : ∀ op ∈ ops, op.data.toNat < 2 ^ 31) :
    ∃ t t', lockFreeHashTable h = some t ∧ t.run ops = some (t', (Map.start.run ops).2)
      ∧ t'.count.toNat = (Map.start.run ops).1.keys.card
      ∧ (∃ i, t'.size.toNat = 2 ^ i) ∧ t'.buckets.length = t'.size.toNat := by
  obtain ⟨t, nodes, hnew, hr⟩ := lockFreeHashTable_spec h
  obtain ⟨t', nodes', hrun, hr'⟩ := run_spec ops hr
  have hlow : ops.map Op.low = ops :=
    (List.map_congr_left fun op hop => Op.low_of_lt (hkeys op hop)).trans (List.map_id ops)
  rw [hlow] at hrun hr'
  obtain ⟨i, -, -, hsize⟩ := hr'.size
  exact ⟨t, t', hnew, hrun, hr'.count, ⟨i, hsize⟩, hr'.buckets⟩

/-- Two keys of one bucket, a duplicate and a removal. -/
theorem smallKeys_refine_map : ∃ t t',
    lockFreeHashTable ⟨fun _ => ⟨none, false⟩, fun _ => 0, fun _ => 0, 0⟩ = some t
      ∧ t.run [.insertKey 10 100, .insertKey 12 200, .insertKey 10 300, .findKey 10 (some 0),
          .removeKey 10, .findKey 10 (some 0)]
        = some (t', [(true, none), (true, none), (false, none), (true, some 100), (true, none),
          (false, some 0)])
      ∧ t'.count = 2 := by
  obtain ⟨t, t', hnew, hrun, hcount, -⟩ := table_refines_map
    ⟨fun _ => ⟨none, false⟩, fun _ => 0, fun _ => 0, 0⟩
    [.insertKey 10 100, .insertKey 12 200, .insertKey 10 300, .findKey 10 (some 0),
      .removeKey 10, .findKey 10 (some 0)] (by decide)
  refine ⟨t, t', hnew, ?_, ?_⟩
  · rw [hrun]
    rfl
  · apply BitVec.eq_of_toNat_eq
    rw [hcount]
    rfl

/-! ## All keys -/

theorem Rep.of_reachable (hreach : machine.Reachable t) : ∃ m nodes, Rep t m nodes := by
  refine hreach.invariant (I := fun t => ∃ m nodes, Rep t m nodes) ?_ ?_
  · rintro t ⟨h, hnew⟩
    obtain ⟨t', nodes, hnew', hr⟩ := lockFreeHashTable_spec h
    obtain rfl := Option.some.inj (hnew'.symm.trans hnew)
    exact ⟨_, nodes, hr⟩
  · rintro t op t' ⟨m, nodes, hr⟩ - hstep
    obtain ⟨t₁, nodes₁, hstep₁, hr₁⟩ := step_spec hr op
    have hfst : (t.step op).map Prod.fst = some t' := hstep
    rw [hstep₁] at hfst
    obtain rfl := Option.some.inj hfst
    exact ⟨_, nodes₁, hr₁⟩

/-- What `findKey` answers. -/
def Table.answer (t : Table) (data : Word) (value : Option ℤ) : Option Answer :=
  (t.findKey data value).map Prod.snd

theorem Rep.answer (hr : Rep t m nodes) (data : Word) (value : Option ℤ) :
    t.answer data value = some (m.step (.findKey (HashTable.low data) value)).2 := by
  obtain ⟨t', nodes', hfind, -⟩ := findKey_spec hr data value
  rw [Table.answer, hfind]
  rfl

/-- Inserting and removing `k₁` never changes what `findKey` answers for
`k₂`. -/
structure Independent (k₁ k₂ : Word) : Prop where
  insertKey : ∀ t, machine.Reachable t → ∀ v, ∃ t' r, t.insertKey k₁ v = some (t', r)
    ∧ ∀ value, t'.answer k₂ value = t.answer k₂ value
  removeKey : ∀ t, machine.Reachable t → ∃ t' r, t.removeKey k₁ = some (t', r)
    ∧ ∀ value, t'.answer k₂ value = t.answer k₂ value

theorem Map.answer_congr {m m' : Map} {k : Word} (h : m'.lookup k = m.lookup k)
    (value : Option ℤ) : (m'.step (.findKey k value)).2 = (m.step (.findKey k value)).2 := by
  rw [Map.step, Map.step, h]
  cases m.lookup k <;> rfl

theorem independent_of_low_ne {k₁ k₂ : Word} (hne : low k₁ ≠ low k₂) : Independent k₁ k₂ := by
  constructor
  · intro t hreach v
    obtain ⟨m, nodes, hr⟩ := Rep.of_reachable hreach
    obtain ⟨t', nodes', hins, hr'⟩ := insertKey_spec hr k₁ v
    refine ⟨t', _, hins, fun value => ?_⟩
    rw [hr.answer, hr'.answer, Map.answer_congr]
    by_cases hmem : low k₁ ∈ m
    · rw [if_pos hmem]
    · rw [if_neg hmem, Finmap.lookup_insert_of_ne m hne.symm]
  · intro t hreach
    obtain ⟨m, nodes, hr⟩ := Rep.of_reachable hreach
    obtain ⟨t', nodes', hrem, hr'⟩ := removeKey_spec hr k₁
    refine ⟨t', _, hrem, fun value => ?_⟩
    rw [hr.answer, hr'.answer, Map.answer_congr]
    exact Finmap.lookup_erase_ne hne.symm

/-- With the same low bits, a key that has been removed is found again
after the other is inserted. -/
theorem not_independent_of_low_eq {k₁ k₂ : Word} (heq : low k₁ = low k₂) :
    ¬ Independent k₁ k₂ := by
  intro hind
  obtain ⟨t, nodes, hnew, hr⟩ :=
    lockFreeHashTable_spec ⟨fun _ => ⟨none, false⟩, fun _ => 0, fun _ => 0, 0⟩
  obtain ⟨t₁, nodes₁, hrem, hr₁⟩ := removeKey_spec hr k₁
  have hreach : machine.Reachable t₁ := by
    refine .step (.removeKey k₁) (.init ⟨_, hnew⟩) trivial ?_
    simp [machine, Table.step, hrem]
  have hout : low k₁ ∉ Map.start.erase (low k₁) := Finmap.notMem_erase_self
  obtain ⟨t₂, nodes₂, hins, hr₂⟩ := insertKey_spec hr₁ k₁ 0
  obtain ⟨t', r, hins', hsame⟩ := hind.insertKey t₁ hreach 0
  obtain rfl := congrArg Prod.fst (Option.some.inj (hins.symm.trans hins'))
  have hanswer := hsame none
  rw [hr₁.answer, hr₂.answer, if_neg hout, ← heq, Map.step, Map.step, Finmap.lookup_insert,
    Finmap.lookup_erase] at hanswer
  cases hanswer

/-- Two keys are independent exactly when they differ in their low 31
bits. -/
theorem keys_independent_iff (k₁ k₂ : Word) :
    (Independent k₁ k₂ ↔ k₁.toNat % 2 ^ 31 ≠ k₂.toNat % 2 ^ 31)
      ∧ (reverseRegularKey k₁ ≠ reverseRegularKey k₂ ↔ k₁.toNat % 2 ^ 31 ≠ k₂.toNat % 2 ^ 31)
      ∧ ∀ t, machine.Reachable t → ∀ b : Word, b.toNat < t.size.toNat →
        reverseRegularKey k₁ ≠ reverseDummyKey b := by
  have hlow : low k₁ ≠ low k₂ ↔ k₁.toNat % 2 ^ 31 ≠ k₂.toNat % 2 ^ 31 := not_congr low_eq_iff
  refine ⟨?_, ?_, fun t hreach b hb => ?_⟩
  · rw [← hlow]
    exact ⟨fun hind heq => not_independent_of_low_eq heq hind, independent_of_low_ne⟩
  · rw [← hlow]
    exact not_congr reverseRegularKey_eq_iff
  · obtain ⟨m, nodes, hr⟩ := Rep.of_reachable hreach
    exact reverseRegularKey_ne_reverseDummyKey (lt_trans hb hr.size_lt)

/-- The keys 1 and 2^31 + 1 are one key. -/
theorem highBit_not_independent :
    (0x80000001 : Word) ≠ 1 ∧ ¬ Independent 0x80000001 1
      ∧ reverseRegularKey 0x80000001 = reverseRegularKey 1 :=
  ⟨by decide, not_independent_of_low_eq (by decide), by decide⟩

end HashTable

end HttpServer
