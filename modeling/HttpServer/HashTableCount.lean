import HttpServer.HashTableGrowth
import HttpServer.Lib.Tally

/-!
# The count of the items

`count_` changes in a step of its own, after the call on the list that it
counts: `insertKey` adds to it, `removeKey` subtracts. So a removal can be
counted before the insertion of the node that it takes out.

Every insertion is counted already or belongs to a thread on its way to the
counter, and so is every removal; up to a multiple of 2^32 that fixes
`count_` (`Account`). A subtraction at zero is the one step after which
`count_` says more than was ever inserted.
-/

namespace HttpServer

namespace HashTable

namespace Threads

open LockFreeList LockFreeList.Seq Tally

/-! ## The keys that are present -/

/-- The last bit of a key of the list: set in a regular key, and not in the
key of a dummy node. -/
def isRegular (key : Word) : Bool := key.getLsbD 0

theorem isRegular_reverse (x : Word) : isRegular (reverse x) = x.getLsbD 31 :=
  getLsbD_reverse x (by decide)

theorem isRegular_reverseRegularKey (k : Word) : isRegular (reverseRegularKey k) = true := by
  rw [reverseRegularKey, isRegular_reverse, BitVec.getLsbD_or, getLsbD_bit (by decide)]
  simp

theorem isRegular_reverseDummyKey {b : Word} (hb : b.toNat < 2 ^ 31) :
    isRegular (reverseDummyKey b) = false := by
  rw [reverseDummyKey, isRegular_reverse]
  exact Nat.testBit_lt_two_pow hb

/-- The keys of the table that have a node, as the list has them. -/
def present (h : Heap Word) (nodes : List Addr) : Finset Word :=
  (nodes.map h.data).toFinset.filter fun key => isRegular key = true

section

variable {h h' : Heap Word} {nodes nodes' : List Addr} {key : Word}

theorem mem_present :
    key ∈ present h nodes ↔ (∃ a ∈ nodes, h.data a = key) ∧ isRegular key = true := by
  rw [present, Finset.mem_filter, List.mem_toFinset, List.mem_map]

theorem present_congr (hdata : ∀ a ∈ nodes, h'.data a = h.data a) :
    present h' nodes = present h nodes := by
  rw [present, present, List.map_congr_left hdata]

/-- Zero is no regular key. -/
theorem card_present_lt (h : Heap Word) (nodes : List Addr) :
    (present h nodes).card < 2 ^ 32 := by
  have hmap : ∀ key ∈ present h nodes, key.toNat ∈ (Finset.range (2 ^ 32)).erase 0 := by
    intro key hkey
    refine Finset.mem_erase.mpr ⟨fun hzero => ?_, Finset.mem_range.mpr key.isLt⟩
    obtain rfl : key = 0 := BitVec.eq_of_toNat_eq hzero
    cases (mem_present.mp hkey).2
  have hle := Finset.card_le_card_of_injOn BitVec.toNat hmap
    fun _ _ _ _ h => BitVec.eq_of_toNat_eq h
  rw [Finset.card_erase_of_mem (Finset.mem_range.mpr (by decide)), Finset.card_range] at hle
  omega

/-- A new node counts if its key is regular. -/
theorem card_present_added {value : Option ℤ} {a : Addr}
    (hadd : Added h h' nodes key value a nodes') (hnew : ∀ b ∈ nodes, h.data b ≠ key) :
    (present h' nodes').card = (present h nodes).card + (isRegular key).toNat := by
  have hmem : ∀ k, (∃ b ∈ nodes', h'.data b = k) ↔ k = key ∨ ∃ b ∈ nodes, h.data b = k := by
    intro k
    constructor
    · rintro ⟨b, hb, rfl⟩
      rcases (hadd.mem b).mp hb with rfl | hb
      · exact .inl hadd.key
      · exact .inr ⟨b, hb, (hadd.frame.data b hb).symm⟩
    · rintro (rfl | ⟨b, hb, rfl⟩)
      · exact ⟨a, (hadd.mem a).mpr (.inl rfl), hadd.key⟩
      · exact ⟨b, (hadd.mem b).mpr (.inr hb), hadd.frame.data b hb⟩
  cases hreg : isRegular key with
  | false =>
      have hsame : present h' nodes' = present h nodes := by
        ext k
        rw [mem_present, mem_present, hmem]
        constructor
        · rintro ⟨rfl | hk, hr⟩
          · rw [hreg] at hr
            cases hr
          · exact ⟨hk, hr⟩
        · exact fun ⟨hk, hr⟩ => ⟨.inr hk, hr⟩
      rw [hsame]
      rfl
  | true =>
      have hinsert : present h' nodes' = insert key (present h nodes) := by
        ext k
        rw [Finset.mem_insert, mem_present, mem_present, hmem]
        constructor
        · rintro ⟨rfl | hk, hr⟩
          · exact .inl rfl
          · exact .inr ⟨hk, hr⟩
        · rintro (rfl | ⟨hk, hr⟩)
          · exact ⟨.inl rfl, hreg⟩
          · exact ⟨.inr hk, hr⟩
      have hnot : key ∉ present h nodes := fun hk => by
        obtain ⟨b, hb, hdata⟩ := (mem_present.mp hk).1
        exact hnew b hb hdata
      rw [hinsert, Finset.card_insert_of_notMem hnot]
      rfl

theorem card_present_removed {a : Addr} (hh : Holds h nodes) (hrem : Removed h h' nodes a nodes')
    (ha : a ∈ nodes) (hreg : isRegular (h.data a) = true) :
    (present h' nodes').card + 1 = (present h nodes).card := by
  have herase : present h' nodes' = (present h nodes).erase (h.data a) := by
    ext k
    rw [Finset.mem_erase, mem_present, mem_present, hrem.data]
    constructor
    · rintro ⟨⟨b, hb, rfl⟩, hr⟩
      obtain ⟨hne, hb⟩ := (hrem.mem b).mp hb
      exact ⟨fun heq => hne (hh.inj hb ha heq), ⟨b, hb, rfl⟩, hr⟩
    · rintro ⟨hne, ⟨b, hb, rfl⟩, hr⟩
      exact ⟨⟨b, (hrem.mem b).mpr ⟨fun heq => hne (heq ▸ rfl), hb⟩, rfl⟩, hr⟩
  rw [herase]
  exact Finset.card_erase_add_one (mem_present.mpr ⟨⟨a, ha, rfl⟩, hreg⟩)

theorem nodes_unique (hh : Holds h nodes) (hh' : Holds h nodes') : nodes = nodes' :=
  hh.path.unique hh'.path

end

/-! ## Steps -/

namespace Pc

/-- A node is linked in, and not counted yet. -/
def adds : Pc → Bool
  | .readSize | .addCount _ => true
  | _ => false

/-- A node is unlinked, and still counted. -/
def subs : Pc → Bool
  | .subCount => true
  | _ => false

/-- From here the next step adds to `count_`. -/
def addsNow : Pc → Bool
  | .addCount _ => true
  | _ => false

/-- The call on the list has linked in the node of a key. -/
def links : Pc → Pc → Bool
  | .list (.insertKey _ _) _, .readSize => true
  | _, _ => false

/-- The call on the list has taken out the node of a key. -/
def unlinks : Pc → Pc → Bool
  | .list (.removeKey _) _, .subCount => true
  | _, _ => false

/-- What the next step makes of `count_`. -/
def count : Pc → Word → Word
  | .addCount _, c => c + 1
  | .subCount, c => c - 1
  | _, c => c

end Pc

/-- The places of a thread that has nothing to count. -/
def Settled (pc : Pc) : Prop := pc.adds = false ∧ pc.subs = false

theorem settled_atSlot {f : Option Addr → Pc} (slot : Option (Option Addr))
    (h : ∀ p, Settled (f p)) : Settled (atSlot slot f) := by
  cases slot with
  | none => exact ⟨rfl, rfl⟩
  | some p => exact h p

theorem settled_leave (op : Op) (bucket : Word) (callers : List Word) :
    Settled (leave op bucket callers) := by
  cases callers <;> exact ⟨rfl, rfl⟩

/-- What a step does to the list and to `count_`, and who has to count it. -/
structure Books (t : Table) (nodes : List Addr) (pc : Pc) (t' : Table) (nodes' : List Addr)
    (pc' : Pc) : Prop where
  list : (present t'.heap nodes').card + (pc.unlinks pc').toNat
    = (present t.heap nodes).card + (pc.links pc').toNat
  count : t'.count = pc.count t.count
  adds : pc'.adds.toNat + pc.addsNow.toNat = pc.adds.toNat + (pc.links pc').toNat
  subs : pc'.subs = pc.unlinks pc'

section

variable {t t' : Table} {nodes nodes' : List Addr} {op : Op} {b bucket : Word}

/-- A step of `initialize_bucket` links in dummy nodes only. -/
theorem initStep_books (hs : Shared t nodes) {callers : List Word} {pc : InitPc} {pc' : Pc}
    (hl : Local t nodes (.init op bucket b callers pc))
    (h : initStep t op bucket b callers pc = some (t', pc')) (hh : Holds t'.heap nodes') :
    Settled pc' ∧ t'.count = t.count
      ∧ (present t'.heap nodes').card = (present t.heap nodes).card := by
  obtain ⟨-, hc, hpc⟩ := hl
  cases pc with
  | parent =>
      obtain ⟨rfl, rfl⟩ := Prod.mk.inj (Option.some.inj h)
      obtain rfl := nodes_unique hs.list hh
      refine ⟨settled_atSlot _ fun p => ?_, rfl, rfl⟩
      cases p <;> exact ⟨rfl, rfl⟩
  | start =>
      obtain ⟨rfl, rfl⟩ := Prod.mk.inj (Option.some.inj h)
      obtain rfl := nodes_unique hs.list hh
      exact ⟨settled_atSlot _ fun p => ⟨rfl, rfl⟩, rfl, rfl⟩
  | link start =>
      have hdummy : ∀ a, some t.heap.fresh = some a →
          a ∉ nodes ∧ a < t.heap.newNode.1.fresh := by
        rintro a ⟨⟩
        exact ⟨hs.list.fresh_notMem, Nat.lt_succ_self _⟩
      have hreg := isRegular_reverseDummyKey (Nat.lt_trans hc.head.2 hs.size_lt)
      have hpair : t.heap.newNode.2 = t.heap.fresh := rfl
      have hbegins : Begins t.heap.newNode.1 nodes (reverseDummyKey b) start :=
        hpc.begins.congr fun _ _ => rfl
      rcases insert_spec hs.list.newNode none hbegins hdummy with
        ⟨a, -, -, h₁, hh₁, hframe, hins⟩ | ⟨hnew, h₁, a, nodes₁, hadd, -, hins⟩
      · simp only [initStep, hpair, hins, Option.bind_eq_bind, Option.bind_some] at h
        obtain ⟨rfl, rfl⟩ := Prod.mk.inj (Option.some.inj h)
        obtain rfl := nodes_unique hh₁ hh
        exact ⟨⟨rfl, rfl⟩, rfl, congrArg Finset.card (present_congr hframe.data)⟩
      · simp only [initStep, hpair, hins, Option.bind_eq_bind, Option.bind_some] at h
        obtain ⟨rfl, rfl⟩ := Prod.mk.inj (Option.some.inj h)
        obtain rfl := nodes_unique hadd.holds hh
        refine ⟨⟨rfl, rfl⟩, rfl, (card_present_added hadd hnew).trans ?_⟩
        rw [hreg]
        rfl
  | store dummy =>
      obtain ⟨d, rfl, hd⟩ := hpc
      have hlen : b.toNat < t.buckets.length := Nat.lt_of_lt_of_le hd.lt hs.room
      rw [initStep, Table.setBucket, if_pos hlen] at h
      obtain ⟨rfl, rfl⟩ := Prod.mk.inj (Option.some.inj h)
      obtain rfl := nodes_unique hs.list hh
      exact ⟨settled_leave op bucket callers, rfl, rfl⟩

/-- The call on the list of an operation. -/
theorem listStep_books (hs : Shared t nodes) {start : Option Addr} {pc' : Pc}
    (ha : Anchored t nodes (reverseRegularKey op.data) start)
    (h : listStep t start op = some (t', pc')) (hh : Holds t'.heap nodes') :
    Books t nodes (.list op start) t' nodes' pc' := by
  cases op with
  | insertKey data value =>
      have hdummy : ∀ a, (none : Option Addr) = some a → a ∉ nodes ∧ a < t.heap.fresh := by simp
      rcases insert_spec hs.list (some value) ha.begins hdummy with
        ⟨a, -, -, h₁, hh₁, hframe, hins⟩ | ⟨hnew, h₁, a, nodes₁, hadd, -, hins⟩
      · simp only [Op.data] at hins
        simp only [listStep, hins, Option.bind_eq_bind, Option.bind_some] at h
        obtain ⟨rfl, rfl⟩ := Prod.mk.inj (Option.some.inj h)
        obtain rfl := nodes_unique hh₁ hh
        exact ⟨congrArg Finset.card (present_congr hframe.data), rfl, rfl, rfl⟩
      · simp only [Op.data] at hins
        simp only [listStep, hins, Option.bind_eq_bind, Option.bind_some] at h
        obtain ⟨rfl, rfl⟩ := Prod.mk.inj (Option.some.inj h)
        obtain rfl := nodes_unique hadd.holds hh
        refine ⟨(card_present_added hadd hnew).trans ?_, rfl, rfl, rfl⟩
        rw [isRegular_reverseRegularKey]
        rfl
  | removeKey data =>
      rcases remove_spec hs.list ha.begins with ⟨a, hmem, hdata, h₁, nodes₁, hrem, hres⟩ | ⟨-, hres⟩
      · simp only [Op.data] at hres
        simp only [listStep, hres, Option.bind_eq_bind, Option.bind_some] at h
        obtain ⟨rfl, rfl⟩ := Prod.mk.inj (Option.some.inj h)
        obtain rfl := nodes_unique hrem.holds hh
        have hreg : isRegular (t.heap.data a) = true := hdata ▸ isRegular_reverseRegularKey _
        exact ⟨card_present_removed hs.list hrem hmem hreg, rfl, rfl, rfl⟩
      · simp only [Op.data] at hres
        simp only [listStep, hres, Option.bind_eq_bind, Option.bind_some] at h
        obtain ⟨rfl, rfl⟩ := Prod.mk.inj (Option.some.inj h)
        obtain rfl := nodes_unique (hs.list.enter start) hh
        exact ⟨rfl, rfl, rfl, rfl⟩
  | findKey data value =>
      rcases lookup_spec hs.list value ha.begins with ⟨a, -, -, hres⟩ | ⟨-, hres⟩ <;>
      · simp only [Op.data] at hres
        simp only [listStep, hres, Option.bind_eq_bind, Option.bind_some] at h
        obtain ⟨rfl, rfl⟩ := Prod.mk.inj (Option.some.inj h)
        obtain rfl := nodes_unique (hs.list.enter start) hh
        exact ⟨rfl, rfl, rfl, rfl⟩

/-- A step that leaves the list and `count_` alone. -/
theorem Books.still {pc pc' : Pc} (hcount : t'.count = t.count)
    (hlist : (present t'.heap nodes').card = (present t.heap nodes).card)
    (hpc : Settled pc ∧ ∀ op start, pc ≠ .list op start) (hpc' : Settled pc') :
    Books t nodes pc t' nodes' pc' := by
  obtain ⟨⟨hadds, hsubs⟩, hcall⟩ := hpc
  have hlinks : pc.links pc' = false ∧ pc.unlinks pc' = false := by
    cases pc with
    | list op start => exact absurd rfl (hcall op start)
    | _ => exact ⟨rfl, rfl⟩
  have hnow : pc.addsNow = false ∧ ∀ c, pc.count c = c := by
    cases pc with
    | readSize | addCount csize => cases hadds
    | subCount => cases hsubs
    | _ => exact ⟨rfl, fun _ => rfl⟩
  refine ⟨?_, ?_, ?_, ?_⟩
  · rw [hlinks.1, hlinks.2, hlist]
  · rw [hnow.2, hcount]
  · rw [hlinks.1, hpc'.1, hadds, hnow.1]
  · rw [hlinks.2, hpc'.2]

theorem next_books (hs : Shared t nodes) {pc pc' : Pc} (hl : Local t nodes pc)
    (h : next t pc = some (t', pc')) (hh : Holds t'.heap nodes') :
    Books t nodes pc t' nodes' pc' := by
  cases pc with
  | idle answer | failed => cases h
  | init op bucket bucketNo callers pc =>
      obtain ⟨hpc', hcount, hlist⟩ := initStep_books hs hl h hh
      exact .still hcount hlist ⟨⟨rfl, rfl⟩, fun _ _ h => by cases h⟩ hpc'
  | list op start => exact listStep_books hs hl h hh
  | route op =>
      obtain ⟨rfl, rfl⟩ := Prod.mk.inj (Option.some.inj h)
      obtain rfl := nodes_unique hs.list hh
      refine .still rfl rfl ⟨⟨rfl, rfl⟩, fun _ _ h => by cases h⟩ ?_
      split <;> exact ⟨rfl, rfl⟩
  | test op bucket =>
      obtain ⟨rfl, rfl⟩ := Prod.mk.inj (Option.some.inj h)
      obtain rfl := nodes_unique hs.list hh
      refine .still rfl rfl ⟨⟨rfl, rfl⟩, fun _ _ h => by cases h⟩ (settled_atSlot _ fun p => ?_)
      cases p <;> exact ⟨rfl, rfl⟩
  | start op bucket =>
      obtain ⟨rfl, rfl⟩ := Prod.mk.inj (Option.some.inj h)
      obtain rfl := nodes_unique hs.list hh
      exact .still rfl rfl ⟨⟨rfl, rfl⟩, fun _ _ h => by cases h⟩
        (settled_atSlot _ fun p => ⟨rfl, rfl⟩)
  | readSize | addCount csize | subCount =>
      obtain ⟨rfl, rfl⟩ := Prod.mk.inj (Option.some.inj h)
      obtain rfl := nodes_unique hs.list hh
      exact ⟨rfl, rfl, rfl, rfl⟩
  | testLoad csize =>
      obtain ⟨rfl, rfl⟩ := Prod.mk.inj (Option.some.inj h)
      obtain rfl := nodes_unique hs.list hh
      refine .still rfl rfl ⟨⟨rfl, rfl⟩, fun _ _ h => by cases h⟩ ?_
      split
      · exact ⟨rfl, rfl⟩
      · split <;> exact ⟨rfl, rfl⟩
  | testLoop csize i =>
      obtain ⟨rfl, rfl⟩ := Prod.mk.inj (Option.some.inj h)
      obtain rfl := nodes_unique hs.list hh
      refine .still rfl rfl ⟨⟨rfl, rfl⟩, fun _ _ h => by cases h⟩ ?_
      split <;> exact ⟨rfl, rfl⟩
  | pushBack csize i =>
      obtain ⟨rfl, rfl⟩ := Prod.mk.inj (Option.some.inj h)
      obtain rfl := nodes_unique hs.list hh
      exact .still rfl rfl ⟨⟨rfl, rfl⟩, fun _ _ h => by cases h⟩ ⟨rfl, rfl⟩
  | swapSize csize =>
      obtain ⟨rfl, rfl⟩ := Prod.mk.inj (Option.some.inj h)
      by_cases hsize : t.size = csize
      · rw [if_pos hsize] at hh ⊢
        obtain rfl := nodes_unique hs.list hh
        exact .still rfl rfl ⟨⟨rfl, rfl⟩, fun _ _ h => by cases h⟩ ⟨rfl, rfl⟩
      · rw [if_neg hsize] at hh ⊢
        obtain rfl := nodes_unique hs.list hh
        exact .still rfl rfl ⟨⟨rfl, rfl⟩, fun _ _ h => by cases h⟩ ⟨rfl, rfl⟩

end

/-! ## Accounts -/

/-- The calls on the list that have linked in, or taken out, the node of a
key, in a step from `s` to `s'`. -/
def linked (s : State) (a : Act) (s' : State) : ℕ :=
  match a with
  | .call _ _ => 0
  | .run tid => ((s.pc tid).links (s'.pc tid)).toNat

def unlinked (s : State) (a : Act) (s' : State) : ℕ :=
  match a with
  | .call _ _ => 0
  | .run tid => ((s.pc tid).unlinks (s'.pc tid)).toNat

/-- A removal is not counted while `count_` is zero. -/
def Covered (s : State) : Act → Prop
  | .call _ _ => True
  | .run tid => s.pc tid = .subCount → s.table.count ≠ 0

instance (s : State) (a : Act) : Decidable (Covered s a) :=
  match a with
  | .call _ _ => instDecidableTrue
  | .run tid => inferInstanceAs (Decidable (s.pc tid = .subCount → s.table.count ≠ 0))

/-- After `ins` insertions and `rem` removals: the keys, the counter, and
the threads that have something to count. -/
structure Account (s : State) (nodes : List Addr) (ins rem : ℕ) (ok : Prop) : Prop where
  inv : Inv s nodes
  keys : (present s.table.heap nodes).card + rem = ins
  pending : ∃ na ns, Pending Pc.adds s.pc na ∧ Pending Pc.subs s.pc ns ∧ ns ≤ rem
    ∧ (s.table.count.toNat + na + rem) % 2 ^ 32 = (ins + ns) % 2 ^ 32
    ∧ (ok → s.table.count.toNat + na + rem ≤ ins + ns)

section

variable {s s' : State} {nodes : List Addr} {ins rem : ℕ} {ok : Prop}

theorem toNat_add_one (c : Word) : (c + 1).toNat = (c.toNat + 1) % 2 ^ 32 := by
  rw [BitVec.toNat_add, show (1 : Word).toNat = 1 from rfl]

theorem toNat_sub_one (c : Word) : (c - 1).toNat = (2 ^ 32 - 1 + c.toNat) % 2 ^ 32 := by
  rw [BitVec.toNat_sub, show (1 : Word).toNat = 1 from rfl]

/-- The counter after the step of a thread at `pc`. -/
theorem count_step (pc : Pc) (c : Word) :
    ((pc.count c).toNat + pc.subs.toNat) % 2 ^ 32 = (c.toNat + pc.addsNow.toNat) % 2 ^ 32
      ∧ ((pc = .subCount → c ≠ 0) →
        (pc.count c).toNat + pc.subs.toNat ≤ c.toNat + pc.addsNow.toNat) := by
  cases pc with
  | addCount csize =>
      show ((c + 1).toNat + 0) % 2 ^ 32 = (c.toNat + 1) % 2 ^ 32
        ∧ (_ → (c + 1).toNat + 0 ≤ c.toNat + 1)
      rw [toNat_add_one, Nat.add_zero, Nat.mod_mod]
      exact ⟨rfl, fun _ => Nat.mod_le _ _⟩
  | subCount =>
      show ((c - 1).toNat + 1) % 2 ^ 32 = (c.toNat + 0) % 2 ^ 32
        ∧ (_ → (c - 1).toNat + 1 ≤ c.toNat + 0)
      have hlt := c.isLt
      have hzero : c ≠ 0 → c.toNat ≠ 0 := fun hne h => hne (BitVec.eq_of_toNat_eq h)
      rw [toNat_sub_one]
      generalize c.toNat = n at hlt hzero ⊢
      refine ⟨by omega, fun hne => ?_⟩
      have hpos := hzero (hne rfl)
      omega
  | _ => exact ⟨rfl, fun _ => Nat.le_refl _⟩

/-- A step of a thread keeps the account. -/
theorem account_run (h : Account s nodes ins rem ok) {tid : Tid}
    (hstep : step s (.run tid) = some s') :
    ∃ nodes', Account s' nodes' (ins + linked s (.run tid) s') (rem + unlinked s (.run tid) s')
      (ok ∧ Covered s (.run tid)) := by
  obtain ⟨nodes', hinv, -⟩ := step_spec h.inv hstep
  obtain ⟨⟨t', pc'⟩, hnext, hs'⟩ := Option.bind_eq_some_iff.mp hstep
  obtain rfl := Option.some.inj hs'
  obtain ⟨hlist, hcount, hadds, hsubs⟩ :=
    next_books h.inv.shared (h.inv.place tid) hnext hinv.shared.list
  obtain ⟨na, ns, hna, hns, hle, hmod, hok⟩ := h.pending
  obtain ⟨na', hna', hna_eq⟩ := hna.update tid pc'
  obtain ⟨ns', hns', hns_eq⟩ := hns.update tid pc'
  obtain ⟨hcmod, hcle⟩ := count_step (s.pc tid) s.table.count
  have hkeys := h.keys
  simp only [linked, unlinked, Function.update_self]
  rw [hsubs] at hns_eq
  refine ⟨nodes', hinv, ?_, na', ns', hna', hns', ?_, ?_, fun ⟨hok₁, hcov⟩ => ?_⟩
  · show (present t'.heap nodes').card + _ = _
    omega
  · omega
  · show (t'.count.toNat + _ + _) % _ = _
    rw [hcount]
    omega
  · show t'.count.toNat + _ + _ ≤ _
    rw [hcount]
    have h1 := hok hok₁
    have h2 := hcle hcov
    omega

/-- A call is the start of nothing that has to be counted. -/
theorem account_call (h : Account s nodes ins rem ok) {tid : Tid} {op : Op}
    (hstep : step s (.call tid op) = some s') : ∃ nodes', Account s' nodes' ins rem ok := by
  obtain ⟨nodes', hinv, -⟩ := step_spec h.inv hstep
  rw [step] at hstep
  split at hstep
  case h_1 answer hidle =>
    obtain rfl := Option.some.inj hstep
    obtain rfl := nodes_unique h.inv.shared.list hinv.shared.list
    obtain ⟨na, ns, hna, hns, hle, hmod, hok⟩ := h.pending
    obtain ⟨na', hna', hna_eq⟩ := hna.update tid (.route op)
    obtain ⟨ns', hns', hns_eq⟩ := hns.update tid (.route op)
    rw [hidle] at hna_eq hns_eq
    obtain rfl : na' = na := hna_eq
    obtain rfl : ns' = ns := hns_eq
    exact ⟨nodes, hinv, h.keys, na', ns', hna', hns', hle, hmod, hok⟩
  case h_2 => cases hstep

theorem account_step (h : Account s nodes ins rem ok) {a : Act} (hstep : step s a = some s') :
    ∃ nodes', Account s' nodes' (ins + linked s a s') (rem + unlinked s a s')
      (ok ∧ Covered s a) := by
  cases a with
  | call tid op =>
      obtain ⟨nodes', hacc⟩ := account_call h hstep
      obtain ⟨na, ns, hna, hns, hle, hmod, hok⟩ := hacc.pending
      exact ⟨nodes', hacc.inv, hacc.keys, na, ns, hna, hns, hle, hmod, fun ⟨h, _⟩ => hok h⟩
  | run tid => exact account_run h hstep

/-- The table of the constructor has one key, and it is counted. -/
theorem present_start {t : Table} (hr : Rep t Map.start nodes) :
    present t.heap nodes = {reverseRegularKey 0} := by
  ext key
  rw [mem_present, Finset.mem_singleton]
  constructor
  · rintro ⟨⟨a, ha, rfl⟩, hreg⟩
    rcases hr.node a ha with ⟨b, hb⟩ | ⟨k, hk, hdata⟩
    · rw [(hr.dummy b a hb).2, isRegular_reverseDummyKey (hr.bucket_lt hb)] at hreg
      cases hreg
    · obtain rfl := (Finmap.mem_singleton k 0 0).mp (Finmap.mem_of_lookup_eq_some hk)
      exact hdata
  · rintro rfl
    exact ⟨hr.key 0 ((Finmap.mem_singleton _ 0 0).mpr rfl), isRegular_reverseRegularKey 0⟩

theorem account_init (h : machine.init s) : ∃ nodes, Account s nodes 1 0 ok := by
  obtain ⟨nodes, hinv⟩ := init_inv h
  obtain ⟨⟨heap, hnew⟩, hidle⟩ := h
  obtain ⟨t, nodes', hnew', hr⟩ := lockFreeHashTable_spec heap
  obtain rfl := Option.some.inj (hnew'.symm.trans hnew)
  obtain rfl := nodes_unique hinv.shared.list hr.list
  have hcount : s.table.count.toNat = 1 := hr.count
  refine ⟨nodes, hinv, ?_, 0, 0, .none fun tid => ?_, .none fun tid => ?_, Nat.le_refl _, ?_,
    fun _ => ?_⟩
  · rw [present_start hr, Finset.card_singleton]
  · rw [hidle tid]
    rfl
  · rw [hidle tid]
    rfl
  · rw [hcount]
  · rw [hcount]

end

/-! ## Runs -/

section

variable (r : Lts.Run machine fun _ _ => True)

/-- The insertions of keys that have succeeded by the `i`-th state, with the
one of the constructor. -/
def inserted : ℕ → ℕ
  | 0 => 1
  | i + 1 => inserted i + linked (r.st i) (r.act i) (r.st (i + 1))

def removed : ℕ → ℕ
  | 0 => 0
  | i + 1 => removed i + unlinked (r.st i) (r.act i) (r.st (i + 1))

/-- With this `csize` the test of the load passes. -/
def Loaded (s : State) (csize : Word) : Prop := s.table.count / csize > loadFactor

/-- `count_` stays within the insertions so far, is the number of the keys
when no operation is in progress, and only an insertion that is counted
makes the test of the load pass. -/
structure NeverWraps : Prop where
  within : ∀ i ≤ r.len, (r.st i).table.count.toNat ≤ inserted r i
  settled : ∀ i ≤ r.len, (∀ tid, ∃ answer, (r.st i).pc tid = .idle answer) →
    ∃ nodes, Holds (r.st i).table.heap nodes
      ∧ (r.st i).table.count.toNat = (present (r.st i).table.heap nodes).card
  load : ∀ i < r.len, ∀ csize, ¬Loaded (r.st i) csize → Loaded (r.st (i + 1)) csize →
    ∃ tid c, r.act i = .run tid ∧ (r.st i).pc tid = .addCount c

variable {r}

theorem account (i : ℕ) (hi : i ≤ r.len) : ∃ nodes, Account (r.st i) nodes (inserted r i)
    (removed r i) (∀ j < i, Covered (r.st j) (r.act j)) := by
  refine r.invariant (I := fun i => ∃ nodes, Account (r.st i) nodes (inserted r i) (removed r i)
    (∀ j < i, Covered (r.st j) (r.act j))) (account_init r.init) (fun i hi ⟨nodes, h⟩ => ?_) i hi
  obtain ⟨nodes', h'⟩ := account_step h (r.step i hi)
  obtain ⟨na, ns, hna, hns, hle, hmod, hok⟩ := h'.pending
  refine ⟨nodes', h'.inv, h'.keys, na, ns, hna, hns, hle, hmod,
    fun hcov => hok ⟨fun j hj => ?_, ?_⟩⟩
  · exact hcov j (Nat.lt_succ_of_lt hj)
  · exact hcov i (Nat.lt_succ_self i)

theorem Account.within {s : State} {nodes : List Addr} {ins rem : ℕ} {ok : Prop}
    (h : Account s nodes ins rem ok) (hok : ok) : s.table.count.toNat ≤ ins := by
  obtain ⟨na, ns, -, -, hle, -, hbound⟩ := h.pending
  have hcount := hbound hok
  omega

/-- With every change counted, `count_` is the number of the keys, whatever
it was in between. -/
theorem Account.settled {s : State} {nodes : List Addr} {ins rem : ℕ} {ok : Prop}
    (h : Account s nodes ins rem ok) (hidle : ∀ tid, ∃ answer, s.pc tid = .idle answer) :
    s.table.count.toNat = (present s.table.heap nodes).card := by
  obtain ⟨na, ns, hna, hns, -, hmod, -⟩ := h.pending
  obtain rfl : na = 0 := hna.eq_zero fun tid => by
    obtain ⟨answer, hpc⟩ := hidle tid
    rw [hpc]
    rfl
  obtain rfl : ns = 0 := hns.eq_zero fun tid => by
    obtain ⟨answer, hpc⟩ := hidle tid
    rw [hpc]
    rfl
  have hcount := s.table.count.isLt
  have hcard := card_present_lt s.table.heap nodes
  have hkeys := h.keys
  omega

/-- A step that does not add makes `count_` no larger, unless it subtracts
at zero. -/
theorem count_le_of_covered {s s' : State} {nodes : List Addr} (hinv : Inv s nodes) {a : Act}
    (hcov : Covered s a) (hstep : step s a = some s')
    (hadd : ∀ tid c, a = .run tid → s.pc tid ≠ .addCount c) :
    s'.table.count.toNat ≤ s.table.count.toNat := by
  cases a with
  | call tid op =>
      rw [step] at hstep
      split at hstep
      · obtain rfl := Option.some.inj hstep
        exact Nat.le_refl _
      · cases hstep
  | run tid =>
      obtain ⟨nodes', hinv', -⟩ := step_spec hinv hstep
      obtain ⟨⟨t', pc'⟩, hnext, hs'⟩ := Option.bind_eq_some_iff.mp hstep
      obtain rfl := Option.some.inj hs'
      have hcount := (next_books hinv.shared (hinv.place tid) hnext hinv'.shared.list).count
      have hle := (count_step (s.pc tid) s.table.count).2 hcov
      have hnow : (s.pc tid).addsNow = false := by
        cases hpc : s.pc tid with
        | addCount c => exact absurd hpc (hadd tid c rfl)
        | _ => rfl
      rw [hnow] at hle
      show t'.count.toNat ≤ _
      rw [hcount]
      exact Nat.le_trans (Nat.le_add_right _ _) hle

theorem Loaded.mono {s s' : State} {csize : Word} (h : Loaded s' csize)
    (hle : s'.table.count.toNat ≤ s.table.count.toNat) : Loaded s csize := by
  have hlt : loadFactor.toNat < (s'.table.count / csize).toNat := h
  show loadFactor.toNat < (s.table.count / csize).toNat
  rw [BitVec.toNat_udiv] at hlt ⊢
  exact Nat.lt_of_lt_of_le hlt (Nat.div_le_div_right hle)

/-- A subtraction at zero makes the test of the load pass, for every size
with which it can. -/
theorem loaded_of_uncovered {s s' : State} {tid : Tid} (csize : Word) (hpos : 0 < csize.toNat)
    (hle : csize.toNat ≤ 2 ^ 28) (hpc : s.pc tid = .subCount) (hzero : s.table.count = 0)
    (hstep : step s (.run tid) = some s') : ¬Loaded s csize ∧ Loaded s' csize := by
  rw [step, hpc] at hstep
  obtain rfl := Option.some.inj hstep
  have hload : loadFactor.toNat = 10 := rfl
  constructor
  · show ¬loadFactor.toNat < (s.table.count / csize).toNat
    rw [hzero, BitVec.toNat_udiv]
    simp
  · show loadFactor.toNat < ((s.table.count - 1) / csize).toNat
    have hwrap : (s.table.count - 1).toNat = 2 ^ 32 - 1 := by rw [hzero]; rfl
    rw [BitVec.toNat_udiv, hwrap, hload]
    exact (Nat.le_div_iff_mul_le hpos).mpr (by omega)

/-- **The counter.** `count_` never says more than was inserted, and no
removal makes a test of the load pass, exactly in the runs in which no
removal is counted while `count_` is zero. -/
theorem neverWraps_iff (r : Lts.Run machine fun _ _ => True) :
    NeverWraps r ↔ ∀ i < r.len, Covered (r.st i) (r.act i) := by
  constructor
  · intro h i hi
    cases hact : r.act i with
    | call tid op => trivial
    | run tid =>
        intro hpc hzero
        have hstep : step (r.st i) (.run tid) = some (r.st (i + 1)) := hact ▸ r.step i hi
        -- the size of a new table
        obtain ⟨hbefore, hafter⟩ :=
          loaded_of_uncovered 2 (by decide) (by decide) hpc hzero hstep
        obtain ⟨tid', c, htid, hadd⟩ := h.load i hi 2 hbefore hafter
        obtain rfl : tid = tid' := Act.run.inj (hact.symm.trans htid)
        rw [hpc] at hadd
        cases hadd
  · intro hcov
    refine ⟨fun i hi => ?_, fun i hi hidle => ?_, fun i hi csize hbefore hafter => ?_⟩
    · obtain ⟨nodes, h⟩ := account i hi
      exact h.within fun j hj => hcov j (Nat.lt_of_lt_of_le hj hi)
    · obtain ⟨nodes, h⟩ := account i hi
      exact ⟨nodes, h.inv.shared.list, h.settled hidle⟩
    · by_contra hnone
      obtain ⟨nodes, h⟩ := account i (Nat.le_of_lt hi)
      refine hbefore (hafter.mono (count_le_of_covered h.inv (hcov i hi) (r.step i hi) ?_))
      exact fun tid c hact hpc => hnone ⟨tid, c, hact, hpc⟩

/-- Thread 0 has linked in key 4 and not counted it; thread 1 removes the
keys 0 and 4. -/
def removedFirst : List Act :=
  .call 0 (.insertKey 4 7) :: List.replicate 4 (.run 0)
    ++ .call 1 (.removeKey 0) :: List.replicate 5 (.run 1)
    ++ .call 1 (.removeKey 4) :: List.replicate 5 (.run 1)

/-- Of two keys inserted, 4294967295 are counted. -/
theorem not_neverWraps_removedFirst : ¬∀ r : Lts.Run machine fun _ _ => True, NeverWraps r := by
  intro h
  have hle := (h (.ofExec newTable removedFirst newTable_init (by decide +kernel))).within
    removedFirst.length (Nat.le_refl _)
  revert hle
  decide +kernel

end

end Threads

end HashTable

end HttpServer
