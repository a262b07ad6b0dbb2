import HttpServer.HashTableMap

/-!
# Phantom keys

The constructor wants the dummy node of bucket 0 and calls
`insertKey(0, 0)`, which makes that node and a node of the key 0 besides.
A caller that has not inserted 0 finds it, with the value 0, and cannot
insert it. The same goes for a key that a call with another key of the
same low 31 bits has left there: a key the caller does not hold is absent
exactly when the last call about its low bits, the constructor's one
included, is a removal (`absent_iff_cleared`).
-/

namespace HttpServer

namespace HashTable

open LockFreeList LockFreeList.Seq

variable {t : Table} {m : Map} {nodes : List Addr} {k : Word}

/-! ## What a caller holds -/

/-- Whether the caller holds `k` after a call that answered: it does from
a successful insertion up to a successful removal. -/
def holds (k : Word) (held : Bool) : Op × Answer → Bool
  | (.insertKey data _, true, _) => if data = k then true else held
  | (.removeKey data, true, _) => if data = k then false else held
  | _ => held

/-- Whether the caller of a new table holds `k` after these calls. -/
def held (k : Word) (calls : List (Op × Answer)) : Bool := calls.foldl (holds k) false

/-- `k` is not found, and can be inserted with any value, which is found
then. -/
structure Absent (t : Table) (k : Word) : Prop where
  findKey : ∀ value, t.answer k value = some (false, value)
  insertKey : ∀ v, ∃ t', t.insertKey k v = some (t', true)
    ∧ ∀ x, t'.answer k (some x) = some (true, some v)

/-! ## What the table keeps -/

/-- What a call leaves of the key with the low bits `k`: it is there, it is
not, or as before. -/
def Op.leaves (k : Word) : Op → Option Bool
  | .insertKey data _ => if data.toNat % 2 ^ 31 = k.toNat then some true else none
  | .removeKey data => if data.toNat % 2 ^ 31 = k.toNat then some false else none
  | .findKey _ _ => none

/-- The last call about the low bits of `k` is not an insertion; the
constructor's call is the first one. -/
def Cleared (k : Word) (ops : List Op) : Prop :=
  ((Op.insertKey 0 0 :: ops).filterMap (Op.leaves k)).getLast? ≠ some true

instance (k : Word) (ops : List Op) : Decidable (Cleared k ops) :=
  inferInstanceAs (Decidable (_ ≠ _))

theorem low_eq_key_iff (data k : Word) :
    HashTable.low data = k ↔ data.toNat % 2 ^ 31 = k.toNat := by
  rw [← toNat_low, BitVec.toNat_inj]

theorem mem_step (m : Map) (op : Op) :
    k ∈ (m.step op.low).1 ↔ (op.leaves k).getD (decide (k ∈ m)) = true := by
  cases op with
  | insertKey data value =>
      simp only [Op.low, Map.step, Op.leaves]
      by_cases hdata : data.toNat % 2 ^ 31 = k.toNat
      · rw [if_pos hdata, ← (low_eq_key_iff data k).mpr hdata]
        by_cases hmem : HashTable.low data ∈ m
        · simp [hmem]
        · simp [hmem]
      · have hne : k ≠ HashTable.low data := fun h => hdata ((low_eq_key_iff data k).mp h.symm)
        rw [if_neg hdata]
        by_cases hmem : HashTable.low data ∈ m
        · simp [hmem]
        · simp [hmem, hne]
  | removeKey data =>
      simp only [Op.low, Map.step, Op.leaves, Finmap.mem_erase]
      by_cases hdata : data.toNat % 2 ^ 31 = k.toNat
      · rw [if_pos hdata, (low_eq_key_iff data k).mpr hdata]
        simp
      · have hne : k ≠ HashTable.low data := fun h => hdata ((low_eq_key_iff data k).mp h.symm)
        rw [if_neg hdata]
        simp [hne]
  | findKey data value =>
      simp only [Op.low, Map.step, Op.leaves]
      cases m.lookup (HashTable.low data) <;> simp

/-- A key is in the map after the calls if the last one about it has put
it there. -/
theorem mem_run (ops : List Op) : ∀ m : Map,
    k ∈ (m.run (ops.map Op.low)).1
      ↔ (ops.filterMap (Op.leaves k)).getLastD (decide (k ∈ m)) = true := by
  induction ops with
  | nil => exact fun m => decide_eq_true_iff.symm
  | cons op ops ih =>
      intro m
      have hstep : decide (k ∈ (m.step op.low).1) = (op.leaves k).getD (decide (k ∈ m)) :=
        Bool.eq_iff_iff.mpr (decide_eq_true_iff.trans (mem_step m op))
      show k ∈ ((m.step op.low).1.run (ops.map Op.low)).1 ↔ _
      rw [ih, hstep, List.filterMap_cons]
      cases op.leaves k with
      | none => rfl
      | some left => rw [List.getLastD_cons, Option.getD_some]

theorem mem_start (k : Word) : k ∈ Map.start ↔ k = 0 := Finmap.mem_singleton k 0 0

/-- What the constructor and the calls leave in the map. -/
theorem cleared_iff (ops : List Op) :
    Cleared k ops ↔ k ∉ (Map.start.run (ops.map Op.low)).1 := by
  have hzero : (Op.insertKey 0 0).leaves k = if k = 0 then some true else none := by
    show (if (0 : Word).toNat % 2 ^ 31 = k.toNat then some true else none) = _
    refine if_congr ?_ rfl rfl
    rw [← low_eq_key_iff, show HashTable.low 0 = 0 from rfl, eq_comm]
  have hstart : decide (k ∈ Map.start) = decide (k = 0) := decide_eq_decide.mpr (mem_start k)
  unfold Cleared
  rw [mem_run, hstart, List.filterMap_cons, hzero, ne_eq, not_iff_not]
  by_cases hk : k = 0
  · rw [if_pos hk, decide_eq_true hk, List.getLast?_cons, List.getLastD_eq_getLast?]
    simp
  · rw [if_neg hk, decide_eq_false hk, List.getLastD_eq_getLast?]
    cases (ops.filterMap (Op.leaves k)).getLast? <;> simp

/-! ## Phantoms -/

theorem Rep.absent_iff (hr : Rep t m nodes) (hk : k.toNat < 2 ^ 31) : Absent t k ↔ k ∉ m := by
  have hlow := low_of_lt hk
  constructor
  · intro h hmem
    obtain ⟨v, hv⟩ := Option.isSome_iff_exists.mp (Finmap.lookup_isSome.mpr hmem)
    have hfind := h.findKey none
    rw [hr.answer, hlow, Map.step, hv] at hfind
    cases hfind
  · intro hmem
    refine ⟨fun value => ?_, fun v => ?_⟩
    · rw [hr.answer, hlow, Map.step, Finmap.lookup_eq_none.mpr hmem]
    · obtain ⟨t', nodes', hins, hr'⟩ := insertKey_spec hr k v
      rw [hlow, if_neg hmem] at hr'
      rw [hlow, decide_eq_true hmem] at hins
      refine ⟨t', hins, fun x => ?_⟩
      rw [hr'.answer, hlow, Map.step, Finmap.lookup_insert]
      rfl

/-- A new table and the calls on it. -/
theorem run_new (h : Heap Word) (ops : List Op) :
    ∃ t t' answers nodes, lockFreeHashTable h = some t ∧ t.run ops = some (t', answers)
      ∧ answers = (Map.start.run (ops.map Op.low)).2
      ∧ Rep t' (Map.start.run (ops.map Op.low)).1 nodes := by
  obtain ⟨t, nodes, hnew, hr⟩ := lockFreeHashTable_spec h
  obtain ⟨t', nodes', hrun, hr'⟩ := run_spec ops hr
  exact ⟨t, t', _, nodes', hnew, hrun, rfl, hr'⟩

/-- A key that the caller does not hold is absent exactly when the last
call about its low bits, with the constructor's own one, is a removal. -/
theorem absent_iff_cleared (h : Heap Word) (ops : List Op) (k : Word) (hk : k.toNat < 2 ^ 31) :
    ∃ t t' answers, lockFreeHashTable h = some t ∧ t.run ops = some (t', answers)
      ∧ (held k (ops.zip answers) = false → (Absent t' k ↔ Cleared k ops)) := by
  obtain ⟨t, t', answers, nodes, hnew, hrun, -, hr⟩ := run_new h ops
  refine ⟨t, t', answers, hnew, hrun, fun _ => ?_⟩
  rw [hr.absent_iff hk, cleared_iff]

/-- What memory held before. -/
def blank : Heap Word := ⟨fun _ => ⟨none, false⟩, fun _ => 0, fun _ => 0, 0⟩

theorem zero_absent_after_removal :
    ∃ t t' answers, lockFreeHashTable blank = some t ∧ t.run [.removeKey 0] = some (t', answers)
      ∧ held 0 ([Op.removeKey 0].zip answers) = false ∧ Absent t' 0 := by
  obtain ⟨t, t', answers, hnew, hrun, habsent⟩ :=
    absent_iff_cleared blank [.removeKey 0] 0 (by decide)
  have hheld : held 0 ([Op.removeKey 0].zip answers) = false := by
    rcases answers with _ | ⟨⟨_ | _, _⟩, _⟩ <;> rfl
  exact ⟨t, t', answers, hnew, hrun, hheld, (habsent hheld).mpr (by decide)⟩

/-! ## The table of the service -/

/-- The calls of `KVService::buildHashTable`. -/
def buildHashTable : List Op :=
  (List.range 500).map fun i : ℕ =>
    let value : ℤ := (i * 10 % 100 : ℕ)
    .insertKey (BitVec.ofNat 32 i) (if value < 10 then value + 10 else value)

/-- Insertions leave the values that are there. -/
theorem lookup_run_insert {v : ℤ} : ∀ (ops : List Op) {m : Map},
    (∀ op ∈ ops, ∃ data value, op = .insertKey data value) → m.lookup k = some v →
    (m.run ops).1.lookup k = some v
  | [], _, _, hv => hv
  | op :: ops, m, hops, hv => by
      obtain ⟨⟨data, value, rfl⟩, hrest⟩ := List.forall_mem_cons.mp hops
      refine lookup_run_insert ops hrest ?_
      rw [Map.step]
      by_cases hmem : data ∈ m
      · rw [if_pos hmem]
        exact hv
      · have hne : k ≠ data := by
          rintro rfl
          rw [Finmap.lookup_eq_none.mpr hmem] at hv
          cases hv
        rw [if_neg hmem]
        exact (Finmap.lookup_insert_of_ne m hne).trans hv

/-- The service inserts 0 with the value 10, and 0 keeps the value the
constructor has given it. -/
theorem buildHashTable_zero :
    buildHashTable.head? = some (.insertKey 0 10) ∧
      ∃ t t' answers, lockFreeHashTable blank = some t ∧ t.run buildHashTable = some (t', answers)
        ∧ ∀ x, t'.answer 0 (some x) = some (true, some 0) := by
  refine ⟨by rw [buildHashTable, List.head?_map, List.head?_range]; rfl, ?_⟩
  obtain ⟨t, t', answers, nodes, hnew, hrun, -, hr⟩ := run_new blank buildHashTable
  refine ⟨t, t', answers, hnew, hrun, fun x => ?_⟩
  have hinserts : ∀ op ∈ buildHashTable.map Op.low, ∃ data value, op = .insertKey data value := by
    simp only [buildHashTable, List.map_map, List.forall_mem_map]
    exact fun i _ => ⟨_, _, rfl⟩
  have hstart : Map.start.lookup 0 = some 0 := Finmap.lookup_singleton_eq
  have hlook := lookup_run_insert _ hinserts hstart
  rw [hr.answer, show HashTable.low 0 = 0 from rfl, Map.step, hlook]
  rfl

/-- A caller that has made no call finds the key 0. -/
theorem zero_not_absent : ¬∀ (h : Heap Word) (ops : List Op) (k : Word), k.toNat < 2 ^ 31 →
    ∃ t t' answers, lockFreeHashTable h = some t ∧ t.run ops = some (t', answers)
      ∧ (held k (ops.zip answers) = false → Absent t' k) := by
  intro hall
  obtain ⟨t, t', answers, hnew, hrun, habsent⟩ := hall blank [] 0 (by decide)
  obtain ⟨t₁, nodes, hnew₁, hr⟩ := lockFreeHashTable_spec blank
  obtain rfl := Option.some.inj (hnew₁.symm.trans hnew)
  obtain rfl := congrArg Prod.fst (Option.some.inj hrun)
  exact (hr.absent_iff (by decide)).mp (habsent rfl) ((mem_start 0).mpr rfl)

end HashTable

end HttpServer
