import HttpServer.HashTableThreads

/-!
# Growth and routing

What holds of the table in every state, whatever the other threads are
doing: `size_` is a power of two that the vector has room for, a bucket
that is set points to the dummy node with its key, and bucket 0 is set
(`Shared`). What a thread has read stays good: `size_` only grows, buckets
that are set keep their pointers, and dummy nodes stay in the list
(`Grows`), as no regular key is the key of one.

A thread that doubles the table adds as many buckets as it has read from
`size_` in each test of its loop. When its compare-and-swap succeeds `size_`
has not changed since `csize` was read, so they were `csize` at least
(`Local`).
-/

namespace HttpServer

namespace HashTable

namespace Threads

open LockFreeList LockFreeList.Seq Chain

/-! ## What holds of the table -/

/-- The node `d` is the dummy node of the bucket `b`. -/
structure Dummy (t : Table) (nodes : List Addr) (b : Word) (d : Addr) : Prop where
  lt : b.toNat < t.size.toNat
  mem : d ∈ nodes
  key : t.heap.data d = reverseDummyKey b

structure Shared (t : Table) (nodes : List Addr) : Prop where
  list : Holds t.heap nodes
  size : ∃ i ≤ 29, t.size.toNat = 2 ^ i
  room : t.size.toNat ≤ t.buckets.length
  dummy : ∀ (n : ℕ) d, t.buckets[n]? = some (some d) → n < t.size.toNat
    ∧ Dummy t nodes (BitVec.ofNat 32 n) d
  zero : ∃ d, t.bucketAt 0 = some (some d)

/-- What the steps of other threads change. -/
structure Grows (t : Table) (nodes : List Addr) (t' : Table) (nodes' : List Addr) : Prop where
  size : t.size.toNat ≤ t'.size.toNat
  length : t.buckets.length ≤ t'.buckets.length
  slot : ∀ (n : ℕ) d, t.buckets[n]? = some (some d) → t'.buckets[n]? = some (some d)
  dummy : ∀ b d, Dummy t nodes b d → Dummy t' nodes' b d

section

variable {t t' : Table} {nodes nodes' : List Addr} {op : Op} {b bucket key : Word}

theorem Grows.refl (t : Table) (nodes : List Addr) : Grows t nodes t nodes :=
  ⟨Nat.le_refl _, Nat.le_refl _, fun _ _ h => h, fun _ _ h => h⟩

theorem Shared.size_lt (hs : Shared t nodes) : t.size.toNat < 2 ^ 31 := by
  obtain ⟨i, hi, hsize⟩ := hs.size
  rw [hsize]
  exact Nat.pow_lt_pow_right (by decide) (by omega)

theorem Shared.bucketAt_dummy (hs : Shared t nodes) {d : Addr}
    (h : t.bucketAt b = some (some d)) : Dummy t nodes b d := by
  have hd := (hs.dummy b.toNat d h).2
  rwa [BitVec.ofNat_toNat, BitVec.setWidth_eq] at hd

theorem Shared.bucketAt_of_lt (hs : Shared t nodes) (hb : b.toNat < t.size.toNat) :
    ∃ p, t.bucketAt b = some p :=
  ⟨_, List.getElem?_eq_getElem (Nat.lt_of_lt_of_le hb hs.room)⟩

/-! ## What holds at a place in the code -/

/-- The operation goes to a bucket of the table whose dummy node comes
before its key. -/
structure Routed (t : Table) (op : Op) (bucket : Word) : Prop where
  lt : bucket.toNat < t.size.toNat
  before : reverseDummyKey bucket < reverseRegularKey op.data

/-- The bucket is set. -/
def IsSet (t : Table) (b : Word) : Prop := ∃ d, t.bucketAt b = some (some d)

/-- The start node is the dummy node of a bucket, and comes before `key`. -/
def Anchored (t : Table) (nodes : List Addr) (key : Word) (start : Option Addr) : Prop :=
  ∃ b d, start = some d ∧ Dummy t nodes b d ∧ reverseDummyKey b < key

/-- The running calls of `initialize_bucket`, from the innermost to the one
for the bucket of the operation. -/
def Calls (t : Table) (bucket : Word) : Word → List Word → Prop
  | b, [] => (b ≠ 0 ∧ b.toNat < t.size.toNat) ∧ b = bucket
  | b, caller :: callers => (b ≠ 0 ∧ b.toNat < t.size.toNat) ∧ b = getParent caller
      ∧ Calls t bucket caller callers

def InitLocal (t : Table) (nodes : List Addr) (b : Word) : InitPc → Prop
  | .parent => True
  | .start => IsSet t (getParent b)
  | .link start => Anchored t nodes (reverseDummyKey b) start
  | .store dummy => ∃ d, dummy = some d ∧ Dummy t nodes b d

/-- `csize` was read from `size_`, and is at most `2 ^ k`. -/
def SizeRead (t : Table) (k : ℕ) (csize : Word) : Prop :=
  csize.toNat ≤ t.size.toNat ∧ ∃ i ≤ k, csize.toNat = 2 ^ i

/-- Unless the table was doubled since, there are `n` buckets more. -/
def Pushed (t : Table) (csize : Word) (n : ℕ) : Prop :=
  csize = t.size → csize.toNat + n ≤ t.buckets.length

def Local (t : Table) (nodes : List Addr) : Pc → Prop
  | .idle _ | .route _ | .readSize | .subCount => True
  | .test op bucket => Routed t op bucket
  | .init op bucket bucketNo callers pc =>
      Routed t op bucket ∧ Calls t bucket bucketNo callers ∧ InitLocal t nodes bucketNo pc
  | .start op bucket => Routed t op bucket ∧ IsSet t bucket
  | .list op start => Anchored t nodes (reverseRegularKey op.data) start
  | .addCount csize | .testLoad csize => SizeRead t 29 csize
  | .testLoop csize i | .pushBack csize i => SizeRead t 28 csize ∧ Pushed t csize i
  | .swapSize csize => SizeRead t 28 csize ∧ Pushed t csize csize.toNat
  | .failed => False

theorem IsSet.grows (h : IsSet t b) (g : Grows t nodes t' nodes') : IsSet t' b := by
  obtain ⟨d, hd⟩ := h
  exact ⟨d, g.slot _ d hd⟩

theorem Anchored.grows {start : Option Addr} (h : Anchored t nodes key start)
    (g : Grows t nodes t' nodes') : Anchored t' nodes' key start := by
  obtain ⟨b, d, rfl, hd, hlt⟩ := h
  exact ⟨b, d, rfl, g.dummy b d hd, hlt⟩

theorem Routed.grows (h : Routed t op bucket) (g : Grows t nodes t' nodes') :
    Routed t' op bucket :=
  ⟨Nat.lt_of_lt_of_le h.lt g.size, h.before⟩

theorem Calls.grows : ∀ {callers : List Word} {b : Word}, Calls t bucket b callers →
    Grows t nodes t' nodes' → Calls t' bucket b callers
  | [], _, ⟨⟨hne, hlt⟩, heq⟩, g => ⟨⟨hne, Nat.lt_of_lt_of_le hlt g.size⟩, heq⟩
  | _ :: _, _, ⟨⟨hne, hlt⟩, heq, hrest⟩, g =>
      ⟨⟨hne, Nat.lt_of_lt_of_le hlt g.size⟩, heq, hrest.grows g⟩

theorem Calls.head {callers : List Word} (h : Calls t bucket b callers) :
    b ≠ 0 ∧ b.toNat < t.size.toNat := by
  cases callers with
  | nil => exact h.1
  | cons caller callers => exact h.1

theorem InitLocal.grows {pc : InitPc} (h : InitLocal t nodes b pc) (g : Grows t nodes t' nodes') :
    InitLocal t' nodes' b pc := by
  cases pc with
  | parent => trivial
  | start => exact IsSet.grows h g
  | link start => exact Anchored.grows h g
  | store dummy =>
      obtain ⟨d, rfl, hd⟩ := h
      exact ⟨d, rfl, g.dummy b d hd⟩

theorem SizeRead.grows {k : ℕ} {csize : Word} (h : SizeRead t k csize)
    (g : Grows t nodes t' nodes') : SizeRead t' k csize :=
  ⟨Nat.le_trans h.1 g.size, h.2⟩

/-- If `size_` is what was read, it has not changed in between. -/
theorem Pushed.grows {csize : Word} {k n : ℕ} (h : Pushed t csize n) (hread : SizeRead t k csize)
    (g : Grows t nodes t' nodes') : Pushed t' csize n := by
  rintro rfl
  have hsame : t'.size = t.size :=
    BitVec.eq_of_toNat_eq (Nat.le_antisymm hread.1 g.size)
  exact Nat.le_trans (h hsame) g.length

theorem Local.grows {pc : Pc} (h : Local t nodes pc) (g : Grows t nodes t' nodes') :
    Local t' nodes' pc := by
  cases pc with
  | idle answer | route op | readSize | subCount => trivial
  | test op bucket => exact Routed.grows h g
  | init op bucket bucketNo callers pc => exact ⟨h.1.grows g, h.2.1.grows g, h.2.2.grows g⟩
  | start op bucket => exact ⟨h.1.grows g, h.2.grows g⟩
  | list op start => exact Anchored.grows h g
  | addCount csize | testLoad csize => exact SizeRead.grows h g
  | testLoop csize i | pushBack csize i | swapSize csize => exact ⟨h.1.grows g, h.2.grows h.1 g⟩
  | failed => exact h

/-! ## Changes of the table -/

/-- What a step of a thread leads to. -/
structure Keeps (t : Table) (nodes : List Addr) (t' : Table) (nodes' : List Addr) (pc' : Pc) :
    Prop where
  shared : Shared t' nodes'
  place : Local t' nodes' pc'
  grows : Grows t nodes t' nodes'

theorem Shared.stay (hs : Shared t nodes) {pc : Pc} (h : Local t nodes pc) :
    Keeps t nodes t nodes pc :=
  ⟨hs, h, .refl t nodes⟩

/-- A change of the list that dummy nodes survive. -/
theorem Shared.heap (hs : Shared t nodes) {h : Heap Word} (hh : Holds h nodes')
    (hkeep : ∀ b d, Dummy t nodes b d → d ∈ nodes' ∧ h.data d = t.heap.data d) :
    Shared { t with heap := h } nodes' ∧ Grows t nodes { t with heap := h } nodes' := by
  have hdummy : ∀ b d, Dummy t nodes b d → Dummy { t with heap := h } nodes' b d := fun b d hd =>
    ⟨hd.lt, (hkeep b d hd).1, (hkeep b d hd).2.trans hd.key⟩
  refine ⟨⟨hh, hs.size, hs.room, fun n d hn => ?_, hs.zero⟩, Nat.le_refl _, Nat.le_refl _,
    fun _ _ h => h, hdummy⟩
  obtain ⟨hlt, hd⟩ := hs.dummy n d hn
  exact ⟨hlt, hdummy _ d hd⟩

/-- A change of the counters, or of the vector behind the buckets that are
set. -/
theorem Shared.resize (hs : Shared t nodes) (count : Word) {size : Word}
    {buckets : List (Option Addr)}
    (hsize : t.size.toNat ≤ size.toNat) (hpow : ∃ i ≤ 29, size.toNat = 2 ^ i)
    (hlen : t.buckets.length ≤ buckets.length) (hroom : size.toNat ≤ buckets.length)
    (hslot : ∀ (n : ℕ) d, buckets[n]? = some (some d) ↔ t.buckets[n]? = some (some d)) :
    Shared ⟨t.heap, buckets, count, size⟩ nodes
      ∧ Grows t nodes ⟨t.heap, buckets, count, size⟩ nodes := by
  have hdummy : ∀ b d, Dummy t nodes b d → Dummy ⟨t.heap, buckets, count, size⟩ nodes b d :=
    fun b d hd => ⟨Nat.lt_of_lt_of_le hd.lt hsize, hd.mem, hd.key⟩
  refine ⟨⟨hs.list, hpow, hroom, fun n d hn => ?_, ?_⟩, hsize, hlen,
    fun n d hn => (hslot n d).mpr hn, hdummy⟩
  · obtain ⟨hlt, hd⟩ := hs.dummy n d ((hslot n d).mp hn)
    exact ⟨Nat.lt_of_lt_of_le hlt hsize, hdummy _ d hd⟩
  · obtain ⟨d, hd⟩ := hs.zero
    exact ⟨d, (hslot 0 d).mpr hd⟩

/-! ## Calls on the list -/

theorem Anchored.begins {start : Option Addr} (h : Anchored t nodes key start) :
    Begins t.heap nodes key start := by
  obtain ⟨b, d, rfl, hd, hlt⟩ := h
  exact ⟨hd.mem, hd.key.symm ▸ hlt⟩

/-- No call removes a dummy node, and every `insert` leads to a list with
its key. -/
theorem listStep_spec (hs : Shared t nodes) {start : Option Addr}
    (ha : Anchored t nodes (reverseRegularKey op.data) start) :
    ∃ t' pc' nodes', listStep t start op = some (t', pc') ∧ Keeps t nodes t' nodes' pc'
      ∧ ((Pc.list op start).inserts = true →
          ∃ a ∈ nodes', t'.heap.data a = reverseRegularKey op.data) := by
  cases op with
  | insertKey data value =>
      simp only [Op.data] at ha ⊢
      have hdummy : ∀ a, (none : Option Addr) = some a → a ∉ nodes ∧ a < t.heap.fresh := by simp
      obtain ⟨h, nodes', a, inserted, hins, hh, hkeep, hmem, hkey⟩ :=
        insert_mem hs.list (some value) ha.begins hdummy
      obtain ⟨hs', hg⟩ := hs.heap hh fun b d hd => hkeep d hd.mem
      refine ⟨_, if inserted = false then .idle (some (false, none)) else .readSize, nodes', ?_,
        ⟨hs', ?_, hg⟩, fun _ => ⟨a, hmem, hkey⟩⟩
      · simp only [listStep, hins, Option.bind_eq_bind, Option.bind_some]
      · cases inserted <;> trivial
  | removeKey data =>
      simp only [Op.data] at ha ⊢
      rcases remove_spec hs.list ha.begins with
        ⟨a, -, hdata, h, nodes', hrem, hres⟩ | ⟨-, hres⟩
      · have hne : ∀ b d, Dummy t nodes b d → d ≠ a := by
          rintro b d hd rfl
          have hlt := Nat.lt_trans hd.lt hs.size_lt
          exact reverseRegularKey_ne_reverseDummyKey hlt (hdata.symm.trans hd.key)
        obtain ⟨hs', hg⟩ := hs.heap hrem.holds fun b d hd =>
          ⟨(hrem.mem d).mpr ⟨hne b d hd, hd.mem⟩, congrFun hrem.data d⟩
        refine ⟨_, .subCount, nodes', ?_, ⟨hs', trivial, hg⟩, fun h => by cases h⟩
        simp [listStep, hres]
      · obtain ⟨hs', hg⟩ := hs.heap (hs.list.enter start) fun b d hd => ⟨hd.mem, rfl⟩
        refine ⟨_, .idle (some (false, none)), nodes, ?_, ⟨hs', trivial, hg⟩, fun h => by cases h⟩
        simp [listStep, hres]
  | findKey data value =>
      simp only [Op.data] at ha ⊢
      obtain ⟨hs', hg⟩ := hs.heap (hs.list.enter start) fun b d hd => ⟨hd.mem, rfl⟩
      rcases lookup_spec hs.list value ha.begins with ⟨a, -, -, hres⟩ | ⟨-, hres⟩
      · refine ⟨_, .idle (some (true, value.map fun _ => t.heap.value a)), nodes, ?_,
          ⟨hs', trivial, hg⟩, fun h => by cases h⟩
        simp [listStep, hres]
      · refine ⟨_, .idle (some (false, value)), nodes, ?_, ⟨hs', trivial, hg⟩,
          fun h => by cases h⟩
        simp [listStep, hres]

/-- The new node is linked in, or the one that another thread has linked in
is taken. -/
theorem link_spec (hs : Shared t nodes) {callers : List Word} {start : Option Addr}
    (hr : Routed t op bucket) (hc : Calls t bucket b callers)
    (ha : Anchored t nodes (reverseDummyKey b) start) :
    ∃ t' pc' nodes', initStep t op bucket b callers (.link start) = some (t', pc')
      ∧ Keeps t nodes t' nodes' pc' ∧ ∃ a ∈ nodes', t'.heap.data a = reverseDummyKey b := by
  have hdummy : ∀ a, some t.heap.fresh = some a → a ∉ nodes ∧ a < t.heap.newNode.1.fresh := by
    rintro a ⟨⟩
    exact ⟨hs.list.fresh_notMem, Nat.lt_succ_self _⟩
  obtain ⟨h, nodes', a, inserted, hins, hh, hkeep, hmem, hkey⟩ :=
    insert_mem hs.list.newNode none (ha.begins.congr fun _ _ => rfl) hdummy
  obtain ⟨hs', hg⟩ := hs.heap hh fun b d hd => hkeep d hd.mem
  have hpair : t.heap.newNode.2 = t.heap.fresh := rfl
  refine ⟨{ t with heap := h }, .init op bucket b callers (.store (some a)), nodes', ?_,
    ⟨hs', ⟨hr.grows hg, hc.grows hg, a, rfl, hc.head.2, hmem, hkey⟩, hg⟩, a, hmem, hkey⟩
  simp only [initStep, hpair, hins, Option.bind_eq_bind, Option.bind_some, Option.map_some]

/-! ## Buckets -/

theorem Shared.ne_zero (hs : Shared t nodes) (hb : t.bucketAt b = some none) : b ≠ 0 := by
  rintro rfl
  obtain ⟨d, hd⟩ := hs.zero
  rw [hd] at hb
  cases hb

/-- A thread that finds a bucket unset initializes it. -/
theorem test_spec (hs : Shared t nodes) (hr : Routed t op bucket) :
    Keeps t nodes t nodes (atSlot (t.bucketAt bucket) fun
      | none => enter op bucket bucket []
      | some _ => .start op bucket) := by
  obtain ⟨p, hp⟩ := hs.bucketAt_of_lt hr.lt
  rw [hp]
  cases p with
  | none =>
      have hne := hs.ne_zero hp
      refine hs.stay ?_
      simp only [atSlot, enter, if_pos hne]
      exact ⟨hr, ⟨⟨hne, hr.lt⟩, rfl⟩, trivial⟩
  | some d => exact hs.stay ⟨hr, d, hp⟩

theorem Calls.parent_lt {callers : List Word} (h : Calls t bucket b callers) :
    parentOf b = getParent b ∧ (getParent b).toNat < t.size.toNat := by
  obtain ⟨hne, hlt⟩ := h.head
  exact ⟨if_pos hne, Nat.lt_trans (getParent_lt hne) hlt⟩

/-- ... and its parent first, if that is unset. -/
theorem parent_spec (hs : Shared t nodes) {callers : List Word} (hr : Routed t op bucket)
    (hc : Calls t bucket b callers) :
    Keeps t nodes t nodes (atSlot (t.bucketAt (parentOf b)) fun
      | none => enter op bucket (parentOf b) (b :: callers)
      | some _ => .init op bucket b callers .start) := by
  obtain ⟨hparent, hlt⟩ := hc.parent_lt
  obtain ⟨p, hp⟩ := hs.bucketAt_of_lt hlt
  rw [hparent, hp]
  cases p with
  | none =>
      have hne := hs.ne_zero hp
      refine hs.stay ?_
      simp only [atSlot, enter, if_pos hne]
      exact ⟨hr, ⟨⟨hne, hlt⟩, rfl, hc⟩, trivial⟩
  | some d => exact hs.stay ⟨hr, hc, d, hp⟩

theorem leave_local {callers : List Word} (hr : Routed t op bucket)
    (hc : Calls t bucket b callers) (hset : IsSet t b) :
    Local t nodes (leave op bucket callers) := by
  cases callers with
  | nil => exact ⟨hr, hc.2 ▸ hset⟩
  | cons caller callers => exact ⟨hr, hc.2.2, show IsSet t (getParent caller) from hc.2.1 ▸ hset⟩

/-- A bucket that is set twice is set to the same node, as the list has one
with its key. -/
theorem store_spec (hs : Shared t nodes) {callers : List Word} {d : Addr}
    (hr : Routed t op bucket) (hc : Calls t bucket b callers) (hd : Dummy t nodes b d) :
    ∃ t', t.setBucket b (some d) = some t' ∧ Keeps t nodes t' nodes (leave op bucket callers) := by
  have hlen : b.toNat < t.buckets.length := Nat.lt_of_lt_of_le hd.lt hs.room
  refine ⟨{ t with buckets := t.buckets.set b.toNat (some d) }, if_pos hlen, ?_⟩
  have hset : (t.buckets.set b.toNat (some d))[b.toNat]? = some (some d) :=
    List.getElem?_set_self hlen
  have hother : ∀ n, n ≠ b.toNat → (t.buckets.set b.toNat (some d))[n]? = t.buckets[n]? :=
    fun n hn => List.getElem?_set_ne hn.symm
  have hg : Grows t nodes { t with buckets := t.buckets.set b.toNat (some d) } nodes := by
    refine ⟨Nat.le_refl _, Nat.le_of_eq (List.length_set).symm, fun n d' hn => ?_,
      fun c d' hd' => ⟨hd'.lt, hd'.mem, hd'.key⟩⟩
    by_cases hnb : n = b.toNat
    · subst hnb
      have hd' := hs.bucketAt_dummy hn
      obtain rfl := hs.list.inj hd.mem hd'.mem (hd.key.trans hd'.key.symm)
      exact hset
    · exact (hother n hnb).trans hn
  have hs' : Shared { t with buckets := t.buckets.set b.toNat (some d) } nodes := by
    refine ⟨hs.list, hs.size, hs.room.trans_eq (List.length_set).symm, fun n d' hn => ?_, ?_⟩
    · by_cases hnb : n = b.toNat
      · subst hnb
        obtain rfl := Option.some.inj (Option.some.inj (hset.symm.trans hn))
        refine ⟨hd.lt, hg.dummy _ _ ?_⟩
        rwa [BitVec.ofNat_toNat, BitVec.setWidth_eq]
      · obtain ⟨hlt, hd'⟩ := hs.dummy n d' ((hother n hnb).symm.trans hn)
        exact ⟨hlt, hg.dummy _ _ hd'⟩
    · obtain ⟨d', hd'⟩ := hs.zero
      exact ⟨d', hg.slot _ _ hd'⟩
  exact ⟨hs', leave_local (hr.grows hg) (hc.grows hg) ⟨d, hset⟩, hg⟩

theorem initStep_spec (hs : Shared t nodes) {callers : List Word} {pc : InitPc} {pc' : Pc}
    (hl : Local t nodes (.init op bucket b callers pc))
    (h : initStep t op bucket b callers pc = some (t', pc')) :
    ∃ nodes', Keeps t nodes t' nodes' pc' := by
  obtain ⟨hr, hc, hpc⟩ := hl
  cases pc with
  | parent =>
      obtain ⟨rfl, rfl⟩ := Prod.mk.inj (Option.some.inj h)
      exact ⟨nodes, parent_spec hs hr hc⟩
  | start =>
      obtain ⟨rfl, rfl⟩ := Prod.mk.inj (Option.some.inj h)
      obtain ⟨d, hd⟩ := hpc
      rw [hc.parent_lt.1, hd]
      exact ⟨nodes, hs.stay ⟨hr, hc, getParent b, d, rfl, hs.bucketAt_dummy hd,
        reverseDummyKey_getParent_lt hc.head.1⟩⟩
  | link start =>
      obtain ⟨t₁, pc₁, nodes₁, hstep, hkeeps, -⟩ := link_spec hs hr hc hpc
      obtain ⟨rfl, rfl⟩ := Prod.mk.inj (Option.some.inj (hstep.symm.trans h))
      exact ⟨nodes₁, hkeeps⟩
  | store dummy =>
      obtain ⟨d, rfl, hd⟩ := hpc
      obtain ⟨t₁, hset, hkeeps⟩ := store_spec hs hr hc hd
      rw [initStep, hset] at h
      obtain ⟨rfl, rfl⟩ := Prod.mk.inj (Option.some.inj h)
      exact ⟨nodes, hkeeps⟩

/-! ## Growth -/

theorem SizeRead.ne_zero {k : ℕ} {csize : Word} (h : SizeRead t k csize) : csize ≠ 0 := by
  rintro rfl
  obtain ⟨i, -, hi⟩ := h.2
  exact absurd hi (Nat.two_pow_pos i).ne

/-- Whatever `count_` says, a table that is doubled has at most 2^28
buckets. -/
theorem SizeRead.of_load {csize count : Word} (h : SizeRead t 29 csize)
    (hload : count / csize > loadFactor) : SizeRead t 28 csize := by
  obtain ⟨hle, i, hi, hpow⟩ := h
  refine ⟨hle, i, ?_, hpow⟩
  have hdiv : 10 < count.toNat / 2 ^ i := by
    rw [← hpow, ← BitVec.toNat_udiv]
    exact hload
  have hmul : 11 * 2 ^ i ≤ count.toNat := (Nat.le_div_iff_mul_le (Nat.two_pow_pos i)).mp hdiv
  have hlt := count.isLt
  by_contra hgt
  obtain rfl : i = 29 := by omega
  omega

theorem testLoad_spec (hs : Shared t nodes) {csize : Word} (h : SizeRead t 29 csize) :
    Keeps t nodes t nodes (if csize = 0 then .failed
      else if t.count / csize > loadFactor then .testLoop csize 0 else returnTrue) := by
  rw [if_neg h.ne_zero]
  by_cases hload : t.count / csize > loadFactor
  · rw [if_pos hload]
    refine hs.stay ⟨h.of_load hload, ?_⟩
    rintro rfl
    exact hs.room
  · rw [if_neg hload]
    exact hs.stay trivial

theorem testLoop_spec (hs : Shared t nodes) {csize : Word} {i : ℕ} (h : SizeRead t 28 csize)
    (hp : Pushed t csize i) : Keeps t nodes t nodes
      (if (i : ℤ) < t.size.toInt then .pushBack csize i else .swapSize csize) := by
  have hint : t.size.toInt = t.size.toNat :=
    BitVec.toInt_eq_toNat_of_lt (by have hlt := hs.size_lt; omega)
  by_cases hlt : (i : ℤ) < t.size.toInt
  · rw [if_pos hlt]
    exact hs.stay ⟨h, hp⟩
  · rw [if_neg hlt]
    refine hs.stay ⟨h, fun heq => ?_⟩
    have hlen := hp heq
    rw [heq] at hlen ⊢
    omega

theorem pushBack_spec (hs : Shared t nodes) {csize : Word} {i : ℕ} (h : SizeRead t 28 csize)
    (hp : Pushed t csize i) :
    Keeps t nodes { t with buckets := t.buckets ++ [none] } nodes (.testLoop csize (i + 1)) := by
  have hlength : (t.buckets ++ [none]).length = t.buckets.length + 1 := List.length_append
  have hslot : ∀ (n : ℕ) d, (t.buckets ++ [none])[n]? = some (some d)
      ↔ t.buckets[n]? = some (some d) := by
    intro n d
    rw [List.getElem?_append]
    by_cases hn : n < t.buckets.length
    · rw [if_pos hn]
    · rw [if_neg hn, List.getElem?_eq_none (Nat.le_of_not_lt hn)]
      cases n - t.buckets.length <;> simp
  have hroom := hs.room
  obtain ⟨hs', hg⟩ := hs.resize t.count (Nat.le_refl _) hs.size
    (Nat.le.intro hlength.symm) (Nat.le_trans hroom (Nat.le.intro hlength.symm)) hslot
  refine ⟨hs', ⟨h.grows hg, fun heq => ?_⟩, hg⟩
  show csize.toNat + (i + 1) ≤ (t.buckets ++ [none]).length
  have hlen := hp heq
  omega

theorem swapSize_spec (hs : Shared t nodes) {csize : Word} (h : SizeRead t 28 csize)
    (hp : Pushed t csize csize.toNat) :
    Keeps t nodes (if t.size = csize then { t with size := 2 * csize } else t) nodes
      returnTrue := by
  by_cases heq : t.size = csize
  · rw [if_pos heq]
    have hlen := hp heq.symm
    obtain ⟨-, i, hi, hpow⟩ := h
    have hle : 2 ^ i ≤ 2 ^ 28 := Nat.pow_le_pow_right (by decide) hi
    have htwo : (2 : Word).toNat = 2 := rfl
    have hdouble : (2 * csize).toNat = 2 ^ (i + 1) := by
      rw [BitVec.toNat_mul, hpow, htwo, Nat.mod_eq_of_lt (by omega), Nat.pow_succ']
    have hsize : t.size.toNat ≤ (2 * csize).toNat := by
      rw [heq, hdouble, hpow, Nat.pow_succ']
      omega
    have hroom : (2 * csize).toNat ≤ t.buckets.length := by
      rw [hpow] at hlen
      rw [hdouble, Nat.pow_succ']
      omega
    obtain ⟨hs', hg⟩ := hs.resize t.count hsize ⟨i + 1, by omega, hdouble⟩
      (Nat.le_refl _) hroom fun _ _ => Iff.rfl
    exact ⟨hs', trivial, hg⟩
  · rw [if_neg heq]
    exact hs.stay trivial

/-! ## Steps -/

theorem route_spec (hs : Shared t nodes) (op : Op) :
    Keeps t nodes t nodes (if t.size = 0 then .failed else .test op (op.data % t.size)) := by
  obtain ⟨i, hi, hpow⟩ := hs.size
  have hne : t.size ≠ 0 := by
    intro h0
    rw [h0] at hpow
    exact absurd hpow (Nat.two_pow_pos i).ne
  rw [if_neg hne]
  have hlt : (op.data % t.size).toNat < t.size.toNat := by
    rw [hpow]
    exact toNat_bucket_lt hpow
  exact hs.stay ⟨hlt, reverseDummyKey_lt_reverseRegularKey (by omega) hpow⟩

theorem count_spec (hs : Shared t nodes) (count : Word) :
    Shared { t with count } nodes ∧ Grows t nodes { t with count } nodes :=
  hs.resize count (Nat.le_refl _) hs.size (Nat.le_refl _) hs.room fun _ _ => Iff.rfl

/-- A step of a thread keeps what holds of the table, and leads to a place
where what is said of it holds. -/
theorem next_spec (hs : Shared t nodes) {pc pc' : Pc} (hl : Local t nodes pc)
    (h : next t pc = some (t', pc')) : ∃ nodes', Keeps t nodes t' nodes' pc' := by
  cases pc with
  | idle answer | failed => cases h
  | route op =>
      obtain ⟨rfl, rfl⟩ := Prod.mk.inj (Option.some.inj h)
      exact ⟨nodes, route_spec hs op⟩
  | test op bucket =>
      obtain ⟨rfl, rfl⟩ := Prod.mk.inj (Option.some.inj h)
      exact ⟨nodes, test_spec hs hl⟩
  | init op bucket bucketNo callers pc => exact initStep_spec hs hl h
  | start op bucket =>
      obtain ⟨rfl, rfl⟩ := Prod.mk.inj (Option.some.inj h)
      obtain ⟨hr, d, hd⟩ := hl
      rw [hd]
      exact ⟨nodes, hs.stay ⟨bucket, d, rfl, hs.bucketAt_dummy hd, hr.before⟩⟩
  | list op start =>
      obtain ⟨t₁, pc₁, nodes₁, hstep, hkeeps, -⟩ := listStep_spec hs hl
      obtain ⟨rfl, rfl⟩ := Prod.mk.inj (Option.some.inj (hstep.symm.trans h))
      exact ⟨nodes₁, hkeeps⟩
  | readSize =>
      obtain ⟨rfl, rfl⟩ := Prod.mk.inj (Option.some.inj h)
      exact ⟨nodes, hs.stay ⟨Nat.le_refl _, hs.size⟩⟩
  | addCount csize =>
      obtain ⟨rfl, rfl⟩ := Prod.mk.inj (Option.some.inj h)
      obtain ⟨hs', hg⟩ := count_spec hs (t.count + 1)
      exact ⟨nodes, hs', SizeRead.grows hl hg, hg⟩
  | testLoad csize =>
      obtain ⟨rfl, rfl⟩ := Prod.mk.inj (Option.some.inj h)
      exact ⟨nodes, testLoad_spec hs hl⟩
  | testLoop csize i =>
      obtain ⟨rfl, rfl⟩ := Prod.mk.inj (Option.some.inj h)
      exact ⟨nodes, testLoop_spec hs hl.1 hl.2⟩
  | pushBack csize i =>
      obtain ⟨rfl, rfl⟩ := Prod.mk.inj (Option.some.inj h)
      exact ⟨nodes, pushBack_spec hs hl.1 hl.2⟩
  | swapSize csize =>
      obtain ⟨rfl, rfl⟩ := Prod.mk.inj (Option.some.inj h)
      exact ⟨nodes, swapSize_spec hs hl.1 hl.2⟩
  | subCount =>
      obtain ⟨rfl, rfl⟩ := Prod.mk.inj (Option.some.inj h)
      obtain ⟨hs', hg⟩ := count_spec hs (t.count - 1)
      exact ⟨nodes, hs', trivial, hg⟩

end

/-! ## Construction -/

theorem bucketAt_grow {t : Table} {b : Word} {d : Addr} (h : t.bucketAt b = some (some d)) :
    t.grow.bucketAt b = some (some d) := by
  unfold Table.grow
  by_cases hload : t.count / t.size > loadFactor
  · simp only [if_pos hload, Table.bucketAt]
    rw [List.getElem?_append_left (Table.bucketAt_lt h)]
    exact h
  · simp only [if_neg hload]
    exact h

/-- The constructor initializes bucket 0, with the key 0 that it inserts. -/
theorem lockFreeHashTable_zero {h : Heap Word} {t : Table} (hnew : lockFreeHashTable h = some t) :
    ∃ d, t.bucketAt 0 = some (some d) := by
  obtain ⟨t₁, nodes₁, d, hinit, -, -, hd, -⟩ :=
    initializeBucket_spec (b := 0) (n := 1) (emptyTable_rep h) rfl Nat.zero_lt_one
  refine ⟨d, ?_⟩
  have hfor : (emptyTable h).bucketFor 0 = some (t₁, some d) := by
    rw [Table.bucketFor, if_neg (by simp [emptyTable])]
    have hzero : (0 : Word) % (emptyTable h).size = 0 := rfl
    have hslot : (emptyTable h).bucketAt 0 = some none := rfl
    simp only [hzero, hslot, Option.bind_eq_bind, Option.bind_some]
    rw [show (0 : Word).toNat + 1 = 1 from rfl, hinit, Option.bind_some, hd]
    rfl
  rw [lockFreeHashTable, Table.insertKey, hfor] at hnew
  simp only [Option.bind_eq_bind, Option.bind_some, Option.map_eq_some_iff,
    Option.bind_eq_some_iff] at hnew
  obtain ⟨⟨t₂, r⟩, ⟨⟨heap, p, inserted⟩, -, hres⟩, rfl⟩ := hnew
  cases inserted with
  | false =>
      obtain ⟨rfl, -⟩ := Prod.mk.inj (Option.some.inj hres)
      exact hd
  | true =>
      obtain ⟨rfl, -⟩ := Prod.mk.inj (Option.some.inj hres)
      exact bucketAt_grow hd

theorem lockFreeHashTable_shared {h : Heap Word} {t : Table}
    (hnew : lockFreeHashTable h = some t) : ∃ nodes, Shared t nodes := by
  obtain ⟨t', nodes, hnew', hr⟩ := lockFreeHashTable_spec h
  obtain rfl := Option.some.inj (hnew'.symm.trans hnew)
  obtain ⟨i, -, hi, hsize⟩ := hr.size
  refine ⟨nodes, hr.list, ⟨i, by omega, hsize⟩, hr.buckets.ge, fun n d hn => ?_,
    lockFreeHashTable_zero hnew⟩
  have hlt : n < t'.size.toNat := hr.buckets ▸ (List.getElem?_eq_some_iff.mp hn).1
  have hnat : (BitVec.ofNat 32 n).toNat = n := by
    rw [BitVec.toNat_ofNat, Nat.mod_eq_of_lt (Nat.lt_trans hlt t'.size.isLt)]
  obtain ⟨hmem, hdata⟩ := hr.dummy (BitVec.ofNat 32 n) d (by rwa [Table.bucketAt, hnat])
  exact ⟨hlt, hnat.symm ▸ hlt, hmem, hdata⟩

/-! ## Runs -/

structure Inv (s : State) (nodes : List Addr) : Prop where
  shared : Shared s.table nodes
  place : ∀ tid, Local s.table nodes (s.pc tid)

variable {s s' : State} {nodes : List Addr}

/-- No thread undoes what another one relies on. -/
theorem step_spec (h : Inv s nodes) {a : Act} (hstep : step s a = some s') :
    ∃ nodes', Inv s' nodes' ∧ Grows s.table nodes s'.table nodes' := by
  cases a with
  | call tid op =>
      rw [step] at hstep
      split at hstep
      · obtain rfl := Option.some.inj hstep
        refine ⟨nodes, ⟨h.shared, fun tid' => ?_⟩, .refl _ _⟩
        by_cases heq : tid' = tid
        · subst heq
          simp only [Function.update_self]
          trivial
        · simp only [Function.update_of_ne heq]
          exact h.place tid'
      · cases hstep
  | run tid =>
      obtain ⟨⟨t', pc'⟩, hnext, hs'⟩ := Option.bind_eq_some_iff.mp hstep
      obtain rfl := Option.some.inj hs'
      obtain ⟨nodes', hkeeps⟩ := next_spec h.shared (h.place tid) hnext
      refine ⟨nodes', ⟨hkeeps.shared, fun tid' => ?_⟩, hkeeps.grows⟩
      by_cases heq : tid' = tid
      · subst heq
        simp only [Function.update_self]
        exact hkeeps.place
      · simp only [Function.update_of_ne heq]
        exact (h.place tid').grows hkeeps.grows

theorem init_inv (h : machine.init s) : ∃ nodes, Inv s nodes := by
  obtain ⟨⟨heap, hnew⟩, hidle⟩ := h
  obtain ⟨nodes, hs⟩ := lockFreeHashTable_shared hnew
  refine ⟨nodes, hs, fun tid => ?_⟩
  rw [hidle tid]
  trivial

/-- What a call on the list begins at and leads to: a node of the list with
a smaller key, and, of an `insert`, a list with the key in it. -/
structure Lands (s : State) (nodes : List Addr) (tid : Tid) (key : Word)
    (start : Option Addr) : Prop where
  start : ∃ d ∈ nodes, start = some d ∧ s.table.heap.data d < key
  returns : ∃ s' nodes', step s (.run tid) = some s' ∧ Holds s'.table.heap nodes'
    ∧ ((s.pc tid).inserts = true → ∃ a ∈ nodes', s'.table.heap.data a = key)

/-- `size_` is a power of two, and there are as many buckets, so no call
throws; a bucket that is set points to the one node with its key; and every
call on the list begins at a node before its key. -/
structure Sound (s : State) : Prop where
  size : ∃ i, s.table.size.toNat = 2 ^ i
  room : s.table.size.toNat ≤ s.table.buckets.length
  called : ∀ tid, s.pc tid ≠ .failed
  list : ∃ nodes, Holds s.table.heap nodes
    ∧ (∀ (n : ℕ) d, s.table.buckets[n]? = some (some d) → n < 2 ^ 32 ∧ d ∈ nodes
      ∧ ∀ a ∈ nodes, s.table.heap.data a = reverseDummyKey (BitVec.ofNat 32 n) ↔ a = d)
    ∧ ∀ tid key start, (s.pc tid).listCall = some (key, start) → Lands s nodes tid key start

theorem Inv.lands (h : Inv s nodes) {tid : Tid} {key : Word} {start : Option Addr}
    (hcall : (s.pc tid).listCall = some (key, start)) : Lands s nodes tid key start := by
  have hplace := h.place tid
  -- the two places where a call on the list comes next
  suffices hnext : Anchored s.table nodes key start ∧ ∃ t' pc' nodes',
      next s.table (s.pc tid) = some (t', pc') ∧ Keeps s.table nodes t' nodes' pc'
        ∧ ((s.pc tid).inserts = true → ∃ a ∈ nodes', t'.heap.data a = key) by
    obtain ⟨⟨b, d, rfl, hd, hlt⟩, t', pc', nodes', hnext, hkeeps, hins⟩ := hnext
    refine ⟨⟨d, hd.mem, rfl, hd.key.symm ▸ hlt⟩, ⟨t', Function.update s.pc tid pc'⟩, nodes', ?_,
      hkeeps.shared.list, hins⟩
    rw [step, hnext]
    rfl
  generalize s.pc tid = pc at hcall hplace
  unfold Pc.listCall at hcall
  split at hcall
  · obtain ⟨rfl, rfl⟩ := Prod.mk.inj (Option.some.inj hcall)
    obtain ⟨hr, hc, ha⟩ := hplace
    obtain ⟨t', pc', nodes', hstep, hkeeps, hin⟩ := link_spec h.shared hr hc ha
    exact ⟨ha, t', pc', nodes', hstep, hkeeps, fun _ => hin⟩
  · obtain ⟨rfl, rfl⟩ := Prod.mk.inj (Option.some.inj hcall)
    exact ⟨hplace, listStep_spec h.shared hplace⟩
  · cases hcall

theorem Inv.sound (h : Inv s nodes) : Sound s := by
  obtain ⟨i, -, hsize⟩ := h.shared.size
  refine ⟨⟨i, hsize⟩, h.shared.room, fun tid hfailed => ?_, nodes, h.shared.list,
    fun n d hn => ?_, fun tid key start hcall => h.lands hcall⟩
  · have hplace := h.place tid
    rw [hfailed] at hplace
    exact hplace
  · obtain ⟨hlt, hd⟩ := h.shared.dummy n d hn
    refine ⟨Nat.lt_trans hlt s.table.size.isLt, hd.mem, fun a ha => ⟨fun hdata => ?_, ?_⟩⟩
    · exact h.shared.list.inj ha hd.mem (hdata.trans hd.key.symm)
    · rintro rfl
      exact hd.key

/-- **Routing stays sound while the table grows.** However the steps of the
threads are ordered, every state is sound, and a bucket that is set is set
to the same node, which is in the list, in every later state. -/
theorem growth_keeps_routing (r : Lts.Run machine fun _ _ => True) :
    (∀ i ≤ r.len, Sound (r.st i))
      ∧ ∀ i j, i ≤ j → j ≤ r.len → ∀ (n : ℕ) d, (r.st i).table.buckets[n]? = some (some d) →
        (r.st j).table.buckets[n]? = some (some d) := by
  have hinv : ∀ i ≤ r.len, ∃ nodes, Inv (r.st i) nodes := by
    refine r.invariant (init_inv r.init) fun i hi ⟨nodes, h⟩ => ?_
    obtain ⟨nodes', h', -⟩ := step_spec h (r.step i hi)
    exact ⟨nodes', h'⟩
  refine ⟨fun i hi => ?_, fun i j hij => ?_⟩
  · obtain ⟨nodes, h⟩ := hinv i hi
    exact h.sound
  · induction j, hij using Nat.le_induction with
    | base => exact fun _ _ _ h => h
    | succ j hij ih =>
        intro hj n d hn
        obtain ⟨nodes, h⟩ := hinv j (Nat.le_of_succ_le hj)
        obtain ⟨nodes', -, hg⟩ := step_spec h (r.step j hj)
        exact hg.slot n d (ih (Nat.le_of_succ_le hj) n d hn)

/-! ## A run -/

def newTable : State :=
  let h : Heap Word := ⟨fun _ => ⟨none, false⟩, fun _ => 0, fun _ => 0, 0⟩
  ⟨(lockFreeHashTable h).getD (emptyTable h), fun _ => .idle none⟩

theorem newTable_init : machine.init newTable := by
  obtain ⟨t, nodes, hnew, -⟩ :=
    lockFreeHashTable_spec ⟨fun _ => ⟨none, false⟩, fun _ => 0, fun _ => 0, 0⟩
  exact ⟨⟨_, by rw [newTable, hnew]; rfl⟩, fun _ => rfl⟩

/-- Two threads initialize bucket 1, step by step at the same time. -/
def sameBucket : List Act :=
  [.call 0 (.insertKey 1 7), .call 1 (.insertKey 3 8)]
    ++ (List.replicate 11 [.run 0, .run 1]).flatten

theorem sameBucket_sound : ∃ r : Lts.Run machine fun _ _ => True,
    (r.st r.len).table.buckets = [some 0, some 2] ∧ (r.st r.len).table.count = 3
      ∧ (r.st r.len).pc 1 = returnTrue ∧ Sound (r.st r.len) :=
  ⟨.ofExec newTable sameBucket newTable_init (by decide +kernel), by decide +kernel,
    by decide +kernel, by decide +kernel, (growth_keeps_routing _).1 _ (Nat.le_refl _)⟩

end Threads

end HashTable

end HttpServer
