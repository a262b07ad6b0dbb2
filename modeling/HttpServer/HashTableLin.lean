import HttpServer.HashTableCount
import HttpServer.Lib.Histories

/-!
# The hash table is linearizable

Whatever the threads do at the same time, the answers of
`LockFreeHashTable` are those of one finite map that takes the calls one
after the other. A call takes effect at its call on the list: there the
nodes with regular keys change as the map does (`Maps`), and what is
returned is settled. Buckets that are initialized, the counter and the
doubling of the table do not show.

As in the sequential table, keys are the same if their low 31 bits are
(`Op.low`).
-/

namespace HttpServer

namespace HashTable

namespace Threads

open LockFreeList LockFreeList.Seq Histories

/-! ## The map of the list -/

/-- The nodes with regular keys hold the map. -/
structure Maps (h : Heap Word) (nodes : List Addr) (m : Map) : Prop where
  node : ∀ a ∈ nodes, ∀ k, h.data a = reverseRegularKey k →
    m.lookup (HashTable.low k) = some (h.value a)
  key : ∀ k ∈ m, HashTable.low k = k ∧ ∃ a ∈ nodes, h.data a = reverseRegularKey k

section

variable {h h' : Heap Word} {nodes nodes' : List Addr} {m : Map} {data key : Word} {a : Addr}

theorem Maps.not_mem (hm : Maps h nodes m) (hno : ∀ a ∈ nodes, h.data a ≠ reverseRegularKey data) :
    HashTable.low data ∉ m := by
  intro hmem
  obtain ⟨-, a, ha, hdata⟩ := hm.key _ hmem
  exact hno a ha (hdata.trans (reverseRegularKey_low data))

theorem Maps.frame (hm : Maps h nodes m) (hf : Frame h h' nodes) : Maps h' nodes m := by
  refine ⟨fun a ha k hk => ?_, fun k hk => ?_⟩
  · rw [hf.data a ha] at hk
    rw [hf.value a ha]
    exact hm.node a ha k hk
  · obtain ⟨hlow, a, ha, hdata⟩ := hm.key k hk
    exact ⟨hlow, a, ha, (hf.data a ha).trans hdata⟩

/-- A new dummy node is not seen. -/
theorem Maps.dummy (hm : Maps h nodes m) {value : Option ℤ}
    (hadd : Added h h' nodes key value a nodes') (hkey : ∀ k, key ≠ reverseRegularKey k) :
    Maps h' nodes' m := by
  have hframe := hm.frame hadd.frame
  refine ⟨fun b hb k hk => ?_, fun k hk => ?_⟩
  · rcases (hadd.mem b).mp hb with rfl | hb
    · exact absurd (hadd.key.symm.trans hk) (hkey k)
    · exact hframe.node b hb k hk
  · obtain ⟨hlow, b, hb, hdata⟩ := hframe.key k hk
    exact ⟨hlow, b, (hadd.mem b).mpr (.inr hb), hdata⟩

theorem Maps.insert (hm : Maps h nodes m) {value : ℤ}
    (hadd : Added h h' nodes (reverseRegularKey data) (some value) a nodes')
    (hno : ∀ a ∈ nodes, h.data a ≠ reverseRegularKey data) :
    Maps h' nodes' (Finmap.insert (HashTable.low data) value m) := by
  have hframe := hm.frame hadd.frame
  refine ⟨fun b hb k hk => ?_, fun k hk => ?_⟩
  · rcases (hadd.mem b).mp hb with rfl | hb
    · rw [← reverseRegularKey_eq_iff.mp (hadd.key.symm.trans hk), Finmap.lookup_insert,
        hadd.value value rfl]
    · have hne : HashTable.low k ≠ HashTable.low data := by
        intro heq
        rw [hadd.frame.data b hb] at hk
        exact hno b hb (hk.trans (reverseRegularKey_eq_iff.mpr heq))
      rw [Finmap.lookup_insert_of_ne m hne]
      exact hframe.node b hb k hk
  · rcases Finmap.mem_insert.mp hk with rfl | hk
    · exact ⟨low_low data, a, (hadd.mem a).mpr (.inl rfl),
        hadd.key.trans (reverseRegularKey_low data).symm⟩
    · obtain ⟨hlow, b, hb, hdata⟩ := hframe.key k hk
      exact ⟨hlow, b, (hadd.mem b).mpr (.inr hb), hdata⟩

theorem Maps.remove (hm : Maps h nodes m) (hh : Holds h nodes) (hrem : Removed h h' nodes a nodes')
    (ha : a ∈ nodes) (hdata : h.data a = reverseRegularKey data) :
    Maps h' nodes' (m.erase (HashTable.low data)) := by
  refine ⟨fun b hb k hk => ?_, fun k hk => ?_⟩
  · obtain ⟨hne, hb⟩ := (hrem.mem b).mp hb
    rw [hrem.data] at hk
    have hlow : HashTable.low k ≠ HashTable.low data := fun heq =>
      hne (hh.inj hb ha (hk.trans ((reverseRegularKey_eq_iff.mpr heq).trans hdata.symm)))
    rw [Finmap.lookup_erase_ne hlow, hrem.value]
    exact hm.node b hb k hk
  · obtain ⟨hne, hk⟩ := Finmap.mem_erase.mp hk
    obtain ⟨hlow, b, hb, hkey⟩ := hm.key k hk
    have hba : b ≠ a := by
      rintro rfl
      exact hne (hlow.symm.trans (reverseRegularKey_eq_iff.mp (hkey.symm.trans hdata)))
    exact ⟨hlow, b, (hrem.mem b).mpr ⟨hba, hb⟩, hrem.data ▸ hkey⟩

theorem Maps.of_rep {t : Table} (hr : Rep t m nodes) : Maps t.heap nodes m :=
  ⟨fun _ ha _ hk => hr.lookup_of_node ha hk, fun k hk => ⟨hr.low k hk, hr.key k hk⟩⟩

end

/-! ## Calls and returns -/

/-- What a call is to the map: it has been made, or it has taken effect. -/
def Pc.stage : Pc → Stage Op Answer
  | .route op | .test op _ | .init op _ _ _ _ | .start op _ | .list op _ => .called op
  | .readSize | .addCount _ | .testLoad _ | .testLoop _ _ | .pushBack _ _ | .swapSize _
  | .subCount => .done (true, none)
  | .idle _ | .failed => .idle

/-- What the call that has just returned has answered. -/
def Pc.returned : Pc → Option Answer
  | .idle answer => answer
  | _ => none

/-- The events that a step shows. -/
def shows (_ : State) : Act → State → List (Event Tid Op Answer)
  | .call tid op, _ => [.call tid op]
  | .run tid, s' => (s'.pc tid).returned.toList.map (.ret tid)

/-- The map as the specification of the calls. -/
def spec (m : Map) (op : Op) : Map × Answer := m.step op.low

/-- What the step from `pc` to `pc'` is to the map `m`. -/
inductive Effect (m : Map) (pc : Pc) (m' : Map) (pc' : Pc) : Prop
  | silent (hm : m' = m) (hpc : pc'.stage = pc.stage) (hret : pc'.returned = none)
  | ret (hm : m' = m) (answer : Answer) (hpc : pc.stage = .done answer)
      (hret : pc' = .idle (some answer))
  | point (op : Op) (hpc : pc.stage = .called op) (hm : m' = (spec m op).1)
      (hpc' : pc'.stage = .done (spec m op).2) (hret : pc'.returned = none)
  | both (op : Op) (hpc : pc.stage = .called op) (hm : m' = (spec m op).1)
      (hret : pc' = .idle (some (spec m op).2))

section

variable {t t' : Table} {nodes nodes' : List Addr} {m : Map} {op : Op} {pc' : Pc}

/-- The call on the list is where a call takes effect. -/
theorem listStep_effect (hs : Shared t nodes) (hm : Maps t.heap nodes m) {start : Option Addr}
    (ha : Anchored t nodes (reverseRegularKey op.data) start)
    (h : listStep t start op = some (t', pc')) (hh : Holds t'.heap nodes') :
    ∃ m', Maps t'.heap nodes' m' ∧ Effect m (.list op start) m' pc' := by
  cases op with
  | insertKey data value =>
      have hdummy : ∀ a, (none : Option Addr) = some a → a ∉ nodes ∧ a < t.heap.fresh := by simp
      rcases insert_spec hs.list (some value) ha.begins hdummy with
        ⟨a, hmem, hdata, h₁, hh₁, hframe, hins⟩ | ⟨hno, h₁, a, nodes₁, hadd, -, hins⟩
      · simp only [Op.data] at hins hdata
        simp only [listStep, hins, Option.bind_eq_bind, Option.bind_some] at h
        obtain ⟨rfl, rfl⟩ := Prod.mk.inj (Option.some.inj h)
        obtain rfl := nodes_unique hh₁ hh
        have hin : HashTable.low data ∈ m := Finmap.mem_of_lookup_eq_some (hm.node a hmem _ hdata)
        have hspec : spec m (.insertKey data value) = (m, false, none) := if_pos hin
        exact ⟨m, hm.frame hframe, .both _ rfl (by rw [hspec]) (by rw [hspec]; rfl)⟩
      · simp only [Op.data] at hins hno hadd
        simp only [listStep, hins, Option.bind_eq_bind, Option.bind_some] at h
        obtain ⟨rfl, rfl⟩ := Prod.mk.inj (Option.some.inj h)
        obtain rfl := nodes_unique hadd.holds hh
        have hspec : spec m (.insertKey data value)
            = (Finmap.insert (HashTable.low data) value m, true, none) := if_neg (hm.not_mem hno)
        exact ⟨_, hm.insert hadd hno, .point _ rfl (by rw [hspec]) (by rw [hspec]; rfl) rfl⟩
  | removeKey data =>
      rcases remove_spec hs.list ha.begins with
        ⟨a, hmem, hdata, h₁, nodes₁, hrem, hres⟩ | ⟨hno, hres⟩
      · simp only [Op.data] at hres hdata
        simp only [listStep, hres, Option.bind_eq_bind, Option.bind_some] at h
        obtain ⟨rfl, rfl⟩ := Prod.mk.inj (Option.some.inj h)
        obtain rfl := nodes_unique hrem.holds hh
        have hin : HashTable.low data ∈ m := Finmap.mem_of_lookup_eq_some (hm.node a hmem _ hdata)
        have hspec : spec m (.removeKey data) = (m.erase (HashTable.low data), true, none) := by
          simp [spec, Op.low, Map.step, hin]
        exact ⟨_, hm.remove hs.list hrem hmem hdata,
          .point _ rfl (by rw [hspec]) (by rw [hspec]; rfl) rfl⟩
      · simp only [Op.data] at hres hno
        simp only [listStep, hres, Option.bind_eq_bind, Option.bind_some] at h
        obtain ⟨rfl, rfl⟩ := Prod.mk.inj (Option.some.inj h)
        obtain rfl := nodes_unique (hs.list.enter start) hh
        have hout := hm.not_mem hno
        have herase : m.erase (HashTable.low data) = m := by
          apply Finmap.ext_lookup
          intro k
          by_cases hk : k = HashTable.low data
          · rw [hk, Finmap.lookup_erase, Finmap.lookup_eq_none.mpr hout]
          · exact Finmap.lookup_erase_ne hk
        have hspec : spec m (.removeKey data) = (m, false, none) := by
          simp [spec, Op.low, Map.step, hout, herase]
        exact ⟨m, hm.frame ⟨fun _ _ => rfl, fun _ _ => rfl⟩,
          .both _ rfl (by rw [hspec]) (by rw [hspec]; rfl)⟩
  | findKey data value =>
      rcases lookup_spec hs.list value ha.begins with ⟨a, hmem, hdata, hres⟩ | ⟨hno, hres⟩
      · simp only [Op.data] at hres hdata
        simp only [listStep, hres, Option.bind_eq_bind, Option.bind_some] at h
        obtain ⟨rfl, rfl⟩ := Prod.mk.inj (Option.some.inj h)
        obtain rfl := nodes_unique (hs.list.enter start) hh
        have hspec : spec m (.findKey data value)
            = (m, true, value.map fun _ => t.heap.value a) := by
          simp [spec, Op.low, Map.step, hm.node a hmem _ hdata]
        exact ⟨m, hm.frame ⟨fun _ _ => rfl, fun _ _ => rfl⟩,
          .both _ rfl (by rw [hspec]) (by rw [hspec])⟩
      · simp only [Op.data] at hres hno
        simp only [listStep, hres, Option.bind_eq_bind, Option.bind_some] at h
        obtain ⟨rfl, rfl⟩ := Prod.mk.inj (Option.some.inj h)
        obtain rfl := nodes_unique (hs.list.enter start) hh
        have hspec : spec m (.findKey data value) = (m, false, value) := by
          simp [spec, Op.low, Map.step, Finmap.lookup_eq_none.mpr (hm.not_mem hno)]
        exact ⟨m, hm.frame ⟨fun _ _ => rfl, fun _ _ => rfl⟩,
          .both _ rfl (by rw [hspec]) (by rw [hspec])⟩

/-- A step that leaves the list alone and does not return. -/
theorem same_effect {pc : Pc} (hs : Shared t nodes) (hm : Maps t.heap nodes m)
    (hheap : t'.heap = t.heap) (hh : Holds t'.heap nodes') (hpc : pc'.stage = pc.stage)
    (hret : pc'.returned = none) : ∃ m', Maps t'.heap nodes' m' ∧ Effect m pc m' pc' := by
  rw [hheap] at hh ⊢
  obtain rfl := nodes_unique hs.list hh
  exact ⟨m, hm, .silent rfl hpc hret⟩

/-- The step with which `insertKey` or `removeKey` returns true. -/
theorem returnTrue_effect {pc : Pc} (hs : Shared t nodes) (hm : Maps t.heap nodes m)
    (hheap : t'.heap = t.heap) (hh : Holds t'.heap nodes') (hpc : pc.stage = .done (true, none)) :
    ∃ m', Maps t'.heap nodes' m' ∧ Effect m pc m' returnTrue := by
  rw [hheap] at hh ⊢
  obtain rfl := nodes_unique hs.list hh
  exact ⟨m, hm, .ret rfl _ hpc rfl⟩

/-- What `buckets_.at` leads to, if it does not throw. -/
theorem atSlot_stage (op : Op) {slot : Option (Option Addr)} {f : Option Addr → Pc}
    (hf : ∀ p, (f p).stage = .called op ∧ (f p).returned = none) (hne : atSlot slot f ≠ .failed) :
    (atSlot slot f).stage = .called op ∧ (atSlot slot f).returned = none := by
  cases slot with
  | none => exact absurd rfl hne
  | some p => exact hf p

theorem enter_stage (op : Op) (bucket b : Word) (callers : List Word) :
    (enter op bucket b callers).stage = .called op
      ∧ (enter op bucket b callers).returned = none := ⟨rfl, rfl⟩

theorem leave_stage (op : Op) (bucket : Word) (callers : List Word) :
    (leave op bucket callers).stage = .called op
      ∧ (leave op bucket callers).returned = none := by
  cases callers <;> exact ⟨rfl, rfl⟩

/-- `initialize_bucket` does nothing that the map shows. -/
theorem initStep_effect {b bucket : Word} {callers : List Word} {pc : InitPc} (hs : Shared t nodes)
    (hm : Maps t.heap nodes m) (hl : Local t nodes (.init op bucket b callers pc))
    (h : initStep t op bucket b callers pc = some (t', pc')) (hh : Holds t'.heap nodes')
    (hne : pc' ≠ .failed) :
    ∃ m', Maps t'.heap nodes' m' ∧ Effect m (.init op bucket b callers pc) m' pc' := by
  obtain ⟨-, hc, hpc⟩ := hl
  cases pc with
  | parent =>
      obtain ⟨rfl, rfl⟩ := Prod.mk.inj (Option.some.inj h)
      obtain ⟨hst, hret⟩ := atSlot_stage op (fun p => by
        cases p with
        | none => exact enter_stage ..
        | some d => exact ⟨rfl, rfl⟩) hne
      exact same_effect hs hm rfl hh hst hret
  | start =>
      obtain ⟨rfl, rfl⟩ := Prod.mk.inj (Option.some.inj h)
      obtain ⟨hst, hret⟩ := atSlot_stage op (fun p => ⟨rfl, rfl⟩) hne
      exact same_effect hs hm rfl hh hst hret
  | link start =>
      have hdummy : ∀ a, some t.heap.fresh = some a →
          a ∉ nodes ∧ a < t.heap.newNode.1.fresh := by
        rintro a ⟨⟩
        exact ⟨hs.list.fresh_notMem, Nat.lt_succ_self _⟩
      have hkey : ∀ k, reverseDummyKey b ≠ reverseRegularKey k := fun k heq =>
        reverseRegularKey_ne_reverseDummyKey (Nat.lt_trans hc.head.2 hs.size_lt) heq.symm
      have hnew : Maps t.heap.newNode.1 nodes m := hm.frame ⟨fun _ _ => rfl, fun _ _ => rfl⟩
      have hpair : t.heap.newNode.2 = t.heap.fresh := rfl
      rcases insert_spec hs.list.newNode none (hpc.begins.congr fun _ _ => rfl) hdummy with
        ⟨a, -, -, h₁, hh₁, hframe, hins⟩ | ⟨-, h₁, a, nodes₁, hadd, -, hins⟩
      · simp only [initStep, hpair, hins, Option.bind_eq_bind, Option.bind_some] at h
        obtain ⟨rfl, rfl⟩ := Prod.mk.inj (Option.some.inj h)
        obtain rfl := nodes_unique hh₁ hh
        exact ⟨m, hnew.frame hframe, .silent rfl rfl rfl⟩
      · simp only [initStep, hpair, hins, Option.bind_eq_bind, Option.bind_some] at h
        obtain ⟨rfl, rfl⟩ := Prod.mk.inj (Option.some.inj h)
        obtain rfl := nodes_unique hadd.holds hh
        exact ⟨m, hnew.dummy hadd hkey, .silent rfl rfl rfl⟩
  | store dummy =>
      obtain ⟨d, rfl, hd⟩ := hpc
      have hlen : b.toNat < t.buckets.length := Nat.lt_of_lt_of_le hd.lt hs.room
      rw [initStep, Table.setBucket, if_pos hlen] at h
      obtain ⟨rfl, rfl⟩ := Prod.mk.inj (Option.some.inj h)
      obtain ⟨hst, hret⟩ := leave_stage op bucket callers
      exact same_effect hs hm rfl hh hst hret

theorem next_effect {pc : Pc} (hs : Shared t nodes) (hm : Maps t.heap nodes m)
    (hl : Local t nodes pc) (h : next t pc = some (t', pc')) (hh : Holds t'.heap nodes')
    (hne : pc' ≠ .failed) : ∃ m', Maps t'.heap nodes' m' ∧ Effect m pc m' pc' := by
  cases pc with
  | idle answer | failed => cases h
  | route op =>
      obtain ⟨rfl, rfl⟩ := Prod.mk.inj (Option.some.inj h)
      split at hne
      · exact absurd rfl hne
      · next hzero =>
          rw [if_neg hzero]
          exact same_effect hs hm rfl hh rfl rfl
  | test op bucket =>
      obtain ⟨rfl, rfl⟩ := Prod.mk.inj (Option.some.inj h)
      obtain ⟨hst, hret⟩ := atSlot_stage op (fun p => by
        cases p with
        | none => exact enter_stage ..
        | some d => exact ⟨rfl, rfl⟩) hne
      exact same_effect hs hm rfl hh hst hret
  | init op bucket b callers pc => exact initStep_effect hs hm hl h hh hne
  | start op bucket =>
      obtain ⟨rfl, rfl⟩ := Prod.mk.inj (Option.some.inj h)
      obtain ⟨hst, hret⟩ := atSlot_stage op (fun p => ⟨rfl, rfl⟩) hne
      exact same_effect hs hm rfl hh hst hret
  | list op start => exact listStep_effect hs hm hl h hh
  | readSize =>
      obtain ⟨rfl, rfl⟩ := Prod.mk.inj (Option.some.inj h)
      exact same_effect hs hm rfl hh rfl rfl
  | addCount csize =>
      obtain ⟨rfl, rfl⟩ := Prod.mk.inj (Option.some.inj h)
      exact same_effect hs hm rfl hh rfl rfl
  | testLoad csize =>
      obtain ⟨rfl, rfl⟩ := Prod.mk.inj (Option.some.inj h)
      rw [if_neg (SizeRead.ne_zero hl)]
      split
      · exact same_effect hs hm rfl hh rfl rfl
      · exact returnTrue_effect hs hm rfl hh rfl
  | testLoop csize i =>
      obtain ⟨rfl, rfl⟩ := Prod.mk.inj (Option.some.inj h)
      split <;> exact same_effect hs hm rfl hh rfl rfl
  | pushBack csize i =>
      obtain ⟨rfl, rfl⟩ := Prod.mk.inj (Option.some.inj h)
      exact same_effect hs hm rfl hh rfl rfl
  | swapSize csize =>
      obtain ⟨rfl, rfl⟩ := Prod.mk.inj (Option.some.inj h)
      refine returnTrue_effect hs hm ?_ hh rfl
      split <;> rfl
  | subCount =>
      obtain ⟨rfl, rfl⟩ := Prod.mk.inj (Option.some.inj h)
      exact returnTrue_effect hs hm rfl hh rfl

end

/-! ## Runs -/

/-- The table in the state `s` is the object `y`. -/
def Refines (s : State) (y : Atomic Tid Op Answer Map) : Prop :=
  ∃ nodes, Inv s nodes ∧ Maps s.table.heap nodes y.state
    ∧ ∀ tid, y.stage tid = (s.pc tid).stage

variable {s s' : State} {y : Atomic Tid Op Answer Map}

theorem Refines.start (h : machine.init s) : Refines s (Atomic.start Map.start) := by
  obtain ⟨nodes, hinv⟩ := init_inv h
  obtain ⟨⟨heap, hnew⟩, hidle⟩ := h
  obtain ⟨t, nodes', hnew', hr⟩ := lockFreeHashTable_spec heap
  obtain rfl := Option.some.inj (hnew'.symm.trans hnew)
  obtain rfl := nodes_unique hr.list hinv.shared.list
  exact ⟨_, hinv, .of_rep hr, fun tid => by rw [hidle tid]; rfl⟩

theorem stage_update {stage : Tid → Stage Op Answer} {pc : Tid → Pc}
    (h : ∀ tid, stage tid = (pc tid).stage) (tid : Tid) (pc' : Pc) (u : Tid) :
    Function.update stage tid pc'.stage u = (Function.update pc tid pc' u).stage := by
  by_cases hu : u = tid
  · subst hu
    rw [Function.update_self, Function.update_self]
  · rw [Function.update_of_ne hu, Function.update_of_ne hu, h]

theorem Refines.step (h : Refines s y) {a : Act} (hs : step s a = some s') :
    ∃ y', Steps spec y (shows s a s') y' ∧ Refines s' y' := by
  obtain ⟨nodes, hinv, hm, hst⟩ := h
  obtain ⟨nodes', hinv', -⟩ := step_spec hinv hs
  cases a with
  | call tid op =>
      rw [Threads.step] at hs
      split at hs
      case h_1 answer hidle =>
        obtain rfl := Option.some.inj hs
        obtain rfl := nodes_unique hinv.shared.list hinv'.shared.list
        refine ⟨y.call tid op, Steps.call (.refl y) tid op ?_, _, hinv', hm,
          stage_update hst tid (.route op)⟩
        rw [hst, hidle]
        rfl
      case h_2 => cases hs
  | run tid =>
      obtain ⟨⟨t', pc'⟩, hnext, hs'⟩ := Option.bind_eq_some_iff.mp hs
      obtain rfl := Option.some.inj hs'
      have hne : pc' ≠ .failed := by
        rintro rfl
        have hplace := hinv'.place tid
        simp only [Function.update_self] at hplace
        exact hplace
      obtain ⟨m', hm', heff⟩ :=
        next_effect hinv.shared hm (hinv.place tid) hnext hinv'.shared.list hne
      have hshows : shows s (.run tid) ⟨t', Function.update s.pc tid pc'⟩
          = pc'.returned.toList.map (.ret tid) := by
        simp only [shows, Function.update_self]
      have hpc : ∀ y' : Atomic Tid Op Answer Map, y'.state = m' →
          y'.stage = Function.update y.stage tid pc'.stage →
          Refines ⟨t', Function.update s.pc tid pc'⟩ y' := by
        rintro y' rfl hy'
        refine ⟨nodes', hinv', hm', fun u => ?_⟩
        rw [hy']
        exact stage_update hst tid pc' u
      have hback : Function.update y.stage tid (y.stage tid) = y.stage :=
        Function.update_eq_self ..
      rw [hshows]
      cases heff with
      | silent hsame hpc' hret =>
          rw [hret]
          refine ⟨y, .refl y, hpc y hsame.symm ?_⟩
          rw [hpc', ← hst, hback]
      | ret hsame answer hdone hret =>
          subst hret
          exact ⟨_, Steps.ret (.refl y) tid ((hst tid).trans hdone), hpc _ hsame.symm rfl⟩
      | point op hcalled hpoint hpc' hret =>
          rw [hret]
          refine ⟨_, Steps.point (.refl y) tid ((hst tid).trans hcalled), hpc _ hpoint.symm ?_⟩
          rw [hpc']
          rfl
      | both op hcalled hpoint hret =>
          subst hret
          refine ⟨_, Steps.ret (Steps.point (.refl y) tid ((hst tid).trans hcalled)) tid
            (Atomic.setStage_same ..), hpc _ hpoint.symm ?_⟩
          exact Function.update_idem ..

/-- **The hash table is linearizable**, for any number of threads: its
histories are those of a map that takes one call after the other. -/
theorem hash_table_linearizable {H : List (Event Tid Op Answer)}
    (h : Shown machine (fun _ _ => True) shows H s) :
    ∃ order, Linearization spec Map.start H order
      ∧ ∃ nodes, Holds s.table.heap nodes
        ∧ Maps s.table.heap nodes (Calls.after spec Map.start (order.map Entry.call)) := by
  obtain ⟨order, y, hlin, hstate, nodes, hinv, hm, -⟩ :=
    h.linearization (R := Refines) (fun _ h => .start h) fun _ _ _ _ hr _ hs => hr.step hs
  exact ⟨order, hlin, nodes, hinv.shared.list, hstate ▸ hm⟩

/-- Thread 1 finds the key that thread 0 has linked in, before `insertKey`
returns. -/
def foundEarly : List Act :=
  [.call 0 (.insertKey 1 7), .call 1 (.findKey 1 (some 0))] ++ List.replicate 8 (.run 0)
    ++ List.replicate 4 (.run 1) ++ List.replicate 3 (.run 0)

theorem foundEarly_linearizable : ∃ s order,
    Shown machine (fun _ _ => True) shows [.call 0 (.insertKey 1 7), .call 1 (.findKey 1 (some 0)),
      .ret 1 (true, some 7), .ret 0 (true, none)] s
    ∧ Linearization spec Map.start [.call 0 (.insertKey 1 7), .call 1 (.findKey 1 (some 0)),
      .ret 1 (true, some 7), .ret 0 (true, none)] order := by
  have hrun : (record machine (fun _ _ => True) shows newTable foundEarly).map Prod.fst
      = some [.call 0 (.insertKey 1 7), .call 1 (.findKey 1 (some 0)), .ret 1 (true, some 7),
        .ret 0 (true, none)] := by
    decide +kernel
  obtain ⟨⟨H, s⟩, hrec, rfl⟩ := Option.map_eq_some_iff.mp hrun
  have hshown := (Shown.init newTable_init).record hrec
  obtain ⟨order, hlin, -⟩ := hash_table_linearizable hshown
  exact ⟨s, order, hshown, hlin⟩

end Threads

end HashTable

end HttpServer
