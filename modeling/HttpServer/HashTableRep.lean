import Mathlib.Tactic.Set
import HttpServer.HashTable
import HttpServer.LockFreeListSeqSpec

/-!
# The table holds a finite map

`Rep t m nodes` says that the table `t`, whose list is `nodes`, holds the
map `m`: each node is the dummy node of a bucket, or it holds a key of the
map with its value. The keys of `m` are those below 2^31, since the list
keeps a key without its highest bit (`low`).

Every operation begins at the dummy node of its bucket, which comes before
the key in the list (`bucketFor_spec`); from there on what it does is what
the list does.
-/

namespace HttpServer

namespace HashTable

open LockFreeList LockFreeList.Seq Chain

structure Rep (t : Table) (m : Map) (nodes : List Addr) : Prop where
  list : Holds t.heap nodes
  size : ∃ i, 1 ≤ i ∧ i ≤ 28 ∧ t.size.toNat = 2 ^ i
  buckets : t.buckets.length = t.size.toNat
  dummy : ∀ b d, t.bucketAt b = some (some d) → d ∈ nodes ∧ t.heap.data d = reverseDummyKey b
  node : ∀ a ∈ nodes, (∃ b, t.bucketAt b = some (some a))
    ∨ ∃ k, m.lookup k = some (t.heap.value a) ∧ t.heap.data a = reverseRegularKey k
  key : ∀ k ∈ m, ∃ a ∈ nodes, t.heap.data a = reverseRegularKey k
  low : ∀ k ∈ m, low k = k
  count : t.count.toNat = m.keys.card

variable {t t' : Table} {m : Map} {nodes nodes' : List Addr}

/-! ## Buckets -/

theorem Table.bucketAt_lt {b : Word} {p : Option Addr} (h : t.bucketAt b = some p) :
    b.toNat < t.buckets.length :=
  (List.getElem?_eq_some_iff.mp h).1

theorem Table.setBucket_spec {b : Word} (hb : b.toNat < t.buckets.length) (p : Option Addr) :
    ∃ bs, t.setBucket b p = some { t with buckets := bs } ∧ bs.length = t.buckets.length
      ∧ bs[b.toNat]? = some p ∧ ∀ c : Word, c ≠ b → bs[c.toNat]? = t.bucketAt c := by
  refine ⟨t.buckets.set b.toNat p, if_pos hb, List.length_set, ?_, fun c hne => ?_⟩
  · rw [List.getElem?_set_self hb]
  · exact List.getElem?_set_ne fun heq => hne (BitVec.eq_of_toNat_eq heq.symm)

namespace Rep

theorem size_lt (hr : Rep t m nodes) : t.size.toNat < 2 ^ 31 := by
  obtain ⟨i, -, hi, hsize⟩ := hr.size
  rw [hsize]
  exact Nat.pow_lt_pow_right (by decide) (by omega)

theorem bucket_lt (hr : Rep t m nodes) {b : Word} {p : Option Addr} (h : t.bucketAt b = some p) :
    b.toNat < 2 ^ 31 :=
  lt_trans (hr.buckets ▸ Table.bucketAt_lt h) hr.size_lt

/-- A node that holds a regular key holds its value in the map. -/
theorem lookup_of_node (hr : Rep t m nodes) {a : Addr} {k : Word} (ha : a ∈ nodes)
    (hk : t.heap.data a = reverseRegularKey k) :
    m.lookup (HashTable.low k) = some (t.heap.value a) := by
  rcases hr.node a ha with ⟨b, hb⟩ | ⟨k', hk', hdata⟩
  · have hd := (hr.dummy b a hb).2
    exact absurd (hk.symm.trans hd) (reverseRegularKey_ne_reverseDummyKey (hr.bucket_lt hb))
  · have hlow := reverseRegularKey_eq_iff.mp (hdata.symm.trans hk)
    rw [hr.low k' (Finmap.mem_of_lookup_eq_some hk')] at hlow
    rw [← hlow]
    exact hk'

theorem mem_of_node (hr : Rep t m nodes) {a : Addr} {k : Word} (ha : a ∈ nodes)
    (hk : t.heap.data a = reverseRegularKey k) : HashTable.low k ∈ m :=
  Finmap.mem_of_lookup_eq_some (hr.lookup_of_node ha hk)

theorem not_mem_of_no_node (hr : Rep t m nodes) {k : Word}
    (hk : ∀ a ∈ nodes, t.heap.data a ≠ reverseRegularKey k) : HashTable.low k ∉ m := by
  intro hmem
  obtain ⟨a, ha, hdata⟩ := hr.key _ hmem
  exact hk a ha (hdata.trans (reverseRegularKey_low k))

/-- No node is the dummy node of a bucket that is not initialized. -/
theorem no_dummy (hr : Rep t m nodes) {b : Word} (hb : t.bucketAt b = some none) :
    ∀ a ∈ nodes, t.heap.data a ≠ reverseDummyKey b := by
  intro a ha hdata
  rcases hr.node a ha with ⟨b', hb'⟩ | ⟨k, -, hk⟩
  · obtain rfl := reverse_injective ((hr.dummy b' a hb').2.symm.trans hdata)
    rw [hb] at hb'
    cases hb'
  · exact reverseRegularKey_ne_reverseDummyKey (hr.bucket_lt hb) (hk.symm.trans hdata)

/-- Changes of the heap that the nodes of the list do not see. -/
theorem heap (hr : Rep t m nodes) {h : Heap Word} (hh : Holds h nodes)
    (hf : Frame t.heap h nodes) : Rep { t with heap := h } m nodes := by
  refine ⟨hh, hr.size, hr.buckets, fun b d hd => ?_, fun a ha => ?_, fun k hk => ?_, hr.low,
    hr.count⟩
  · obtain ⟨hmem, hdata⟩ := hr.dummy b d hd
    exact ⟨hmem, (hf.data d hmem).trans hdata⟩
  · rcases hr.node a ha with hb | ⟨k, hk, hdata⟩
    · exact .inl hb
    · exact .inr ⟨k, (hf.value a ha).symm ▸ hk, (hf.data a ha).trans hdata⟩
  · obtain ⟨a, ha, hdata⟩ := hr.key k hk
    exact ⟨a, ha, (hf.data a ha).trans hdata⟩

end Rep

theorem linkDummy_spec (hr : Rep t m nodes) {b parent : Word} {start : Option Addr}
    (hb : t.bucketAt b = some none) (hp : t.bucketAt parent = some start)
    (hbegin : Begins t.heap nodes (reverseDummyKey b) start) :
    ∃ t' nodes' d, t.linkDummy b parent = some t' ∧ Rep t' m nodes' ∧ t'.size = t.size
      ∧ t'.bucketAt b = some (some d) ∧ ∀ c, c ≠ b → t'.bucketAt c = t.bucketAt c := by
  have hnew := hr.heap hr.list.newNode ⟨fun _ _ => rfl, fun _ _ => rfl⟩
  have hdummy : ∀ a, some t.heap.fresh = some a → a ∉ nodes ∧ a < t.heap.newNode.1.fresh := by
    rintro a ⟨⟩
    exact ⟨hr.list.fresh_notMem, Nat.lt_succ_self _⟩
  rcases insert_spec hnew.list none (hbegin.congr fun _ _ => rfl) hdummy with
    ⟨a, ha, hdata, -⟩ | ⟨-, h, d, nodes', hadd, hd, hins⟩
  · exact absurd hdata (hnew.no_dummy hb a ha)
  obtain rfl := hd _ rfl
  obtain ⟨bs, hset, hlen, hsame, hother⟩ :=
    Table.setBucket_spec (t := { t with heap := h }) (Table.bucketAt_lt hb) (some t.heap.fresh)
  refine ⟨{ t with heap := h, buckets := bs }, nodes', t.heap.fresh, ?_, ?_, rfl, hsame, hother⟩
  · have hpair : t.heap.newNode.2 = t.heap.fresh := rfl
    simp only [Table.linkDummy, hp, hpair, hins, Option.bind_eq_bind, Option.bind_some]
    exact hset
  · refine ⟨hadd.holds, hr.size, hlen.trans hr.buckets, fun c x hc => ?_, fun a ha => ?_,
      fun k hk => ?_, hr.low, hr.count⟩
    · by_cases hcb : c = b
      · subst hcb
        obtain rfl := Option.some.inj (Option.some.inj (hsame.symm.trans hc))
        exact ⟨(hadd.mem _).mpr (.inl rfl), hadd.key⟩
      · obtain ⟨hx, hdata⟩ := hr.dummy c x ((hother c hcb).symm.trans hc)
        exact ⟨(hadd.mem x).mpr (.inr hx), (hadd.frame.data x hx).trans hdata⟩
    · rcases (hadd.mem a).mp ha with rfl | ha
      · exact .inl ⟨b, hsame⟩
      · rcases hr.node a ha with ⟨c, hc⟩ | ⟨k, hk, hdata⟩
        · have hcb : c ≠ b := by
            rintro rfl
            rw [hb] at hc
            cases hc
          exact .inl ⟨c, (hother c hcb).trans hc⟩
        · exact .inr ⟨k, (hadd.frame.value a ha).symm ▸ hk, (hadd.frame.data a ha).trans hdata⟩
    · obtain ⟨a, ha, hdata⟩ := hr.key k hk
      exact ⟨a, (hadd.mem a).mpr (.inr ha), (hadd.frame.data a ha).trans hdata⟩

/-- The buckets that `t'` has and `t` has not, have their parents. -/
def WithParents (t t' : Table) : Prop :=
  ∀ c d, c ≠ 0 → t.bucketAt c = some none → t'.bucketAt c = some (some d) →
    ∃ p, t'.bucketAt (getParent c) = some (some p)

/-- `initialize_bucket` leads back to a bucket that is initialized, or to
bucket 0, whose dummy node is linked in from the head of the list. -/
theorem initializeBucket_spec : ∀ {n : ℕ} {t : Table} {nodes : List Addr} {b : Word},
    Rep t m nodes → t.bucketAt b = some none → b.toNat < n →
    ∃ t' nodes' d, t.initializeBucket n b = some t' ∧ Rep t' m nodes' ∧ t'.size = t.size
      ∧ t'.bucketAt b = some (some d) ∧ (∀ c, b < c → t'.bucketAt c = t.bucketAt c)
      ∧ WithParents t t' := by
  intro n
  induction n with
  | zero =>
      intro t nodes b _ _ hn
      exact absurd hn (Nat.not_lt_zero _)
  | succ n ih =>
      intro t nodes b hr hb hn
      by_cases h0 : b = 0
      · subst h0
        have hbegin : Begins t.heap nodes (reverseDummyKey 0) none := trivial
        obtain ⟨t', nodes', d, hlink, hr', hsize, hd, hother⟩ := linkDummy_spec hr hb hb hbegin
        refine ⟨t', nodes', d, ?_, hr', hsize, hd, fun c hc => hother c (ne_of_gt hc), ?_⟩
        · rw [Table.initializeBucket, if_neg (not_not.mpr rfl)]
          exact hlink
        · intro c x hc hnone hx
          rw [hother c hc, hnone] at hx
          cases hx
      · have hlt := getParent_lt h0
        have hpb : (getParent b).toNat < t.buckets.length := lt_trans hlt (Table.bucketAt_lt hb)
        -- the parent, after it has been initialized
        suffices hparent : ∃ t₁ nodes₁ d₁, Rep t₁ m nodes₁ ∧ t₁.size = t.size
            ∧ t₁.bucketAt (getParent b) = some (some d₁)
            ∧ (∀ c, getParent b < c → t₁.bucketAt c = t.bucketAt c) ∧ WithParents t t₁
            ∧ t.initializeBucket (n + 1) b = t₁.linkDummy b (getParent b) by
          obtain ⟨t₁, nodes₁, d₁, hr₁, hsize₁, hd₁, hother₁, hparents₁, heq⟩ := hparent
          obtain ⟨hmem, hdata⟩ := hr₁.dummy _ _ hd₁
          have hbegin : Begins t₁.heap nodes₁ (reverseDummyKey b) (some d₁) :=
            ⟨hmem, hdata.symm ▸ reverseDummyKey_getParent_lt h0⟩
          obtain ⟨t', nodes', d, hlink, hr', hsize, hd, hother⟩ :=
            linkDummy_spec hr₁ ((hother₁ b hlt).trans hb) hd₁ hbegin
          refine ⟨t', nodes', d, heq.trans hlink, hr', hsize.trans hsize₁, hd, fun c hc => ?_, ?_⟩
          · exact (hother c (ne_of_gt hc)).trans (hother₁ c (lt_trans hlt hc))
          · intro c x hc hnone hx
            by_cases hcb : c = b
            · subst hcb
              exact ⟨d₁, (hother _ (ne_of_lt hlt)).trans hd₁⟩
            · obtain ⟨p, hp⟩ := hparents₁ c x hc hnone ((hother c hcb).symm.trans hx)
              refine ⟨p, (hother _ fun hpb => ?_).trans hp⟩
              rw [hpb, hother₁ b hlt, hb] at hp
              cases hp
        rw [Table.initializeBucket, if_pos h0]
        obtain ⟨p, hp⟩ : ∃ p, t.bucketAt (getParent b) = some p :=
          ⟨_, List.getElem?_eq_getElem hpb⟩
        simp only [hp, Option.bind_eq_bind, Option.bind_some]
        cases p with
        | some d₁ =>
            refine ⟨t, nodes, d₁, hr, rfl, hp, fun _ _ => rfl, fun c x _ hnone hx => ?_, rfl⟩
            rw [hnone] at hx
            cases hx
        | none =>
            obtain ⟨t₁, nodes₁, d₁, hinit, hr₁, hsize₁, hd₁, hother₁, hparents₁⟩ :=
              ih hr hp (lt_of_lt_of_le hlt (Nat.le_of_lt_succ hn))
            refine ⟨t₁, nodes₁, d₁, hr₁, hsize₁, hd₁, hother₁, hparents₁, ?_⟩
            rw [hinit, Option.bind_some]

/-- Every operation begins at a node before its key. -/
theorem bucketFor_spec (hr : Rep t m nodes) (data : Word) :
    ∃ t' nodes' start, t.bucketFor data = some (t', start) ∧ Rep t' m nodes'
      ∧ Begins t'.heap nodes' (reverseRegularKey data) start := by
  obtain ⟨i, -, hi, hsize⟩ := hr.size
  have hne : t.size ≠ 0 := by
    intro h0
    rw [h0] at hsize
    exact absurd hsize (Nat.two_pow_pos i).ne
  have hlt : (data % t.size).toNat < t.buckets.length := by
    rw [hr.buckets, hsize]
    exact toNat_bucket_lt hsize
  suffices hbucket : ∃ t' nodes' d, Rep t' m nodes' ∧ t'.bucketAt (data % t.size) = some (some d)
      ∧ t.bucketFor data = some (t', some d) by
    obtain ⟨t', nodes', d, hr', hd, hfor⟩ := hbucket
    obtain ⟨hmem, hdata⟩ := hr'.dummy _ _ hd
    exact ⟨t', nodes', some d, hfor, hr', hmem,
      hdata.symm ▸ reverseDummyKey_lt_reverseRegularKey (by omega) hsize⟩
  obtain ⟨p, hp⟩ : ∃ p, t.bucketAt (data % t.size) = some p := ⟨_, List.getElem?_eq_getElem hlt⟩
  rw [Table.bucketFor, if_neg hne]
  simp only [hp, Option.bind_eq_bind, Option.bind_some]
  cases p with
  | some d => exact ⟨t, nodes, d, hr, hp, rfl⟩
  | none =>
      obtain ⟨t', nodes', d, hinit, hr', -, hd, -⟩ :=
        initializeBucket_spec hr hp (Nat.lt_succ_self _)
      refine ⟨t', nodes', d, hr', hd, ?_⟩
      simp only [hinit, Option.bind_some, hd]

/-! ## Operations -/

namespace Rep

theorem card_le (hr : Rep t m nodes) : m.keys.card ≤ 2 ^ 31 := by
  have hmap : ∀ k ∈ m.keys, k.toNat ∈ Finset.range (2 ^ 31) := by
    intro k hk
    rw [Finset.mem_range, ← hr.low k (Finmap.mem_keys.mp hk), toNat_low]
    exact Nat.mod_lt _ (by decide)
  have hle := Finset.card_le_card_of_injOn BitVec.toNat hmap
    fun _ _ _ _ h => BitVec.eq_of_toNat_eq h
  rwa [Finset.card_range] at hle

theorem size_of_load (hr : Rep t m nodes) (hload : t.count / t.size > loadFactor) :
    ∃ i, 1 ≤ i ∧ i ≤ 27 ∧ t.size.toNat = 2 ^ i := by
  obtain ⟨i, hi, -, hsize⟩ := hr.size
  refine ⟨i, hi, ?_, hsize⟩
  have hdiv : 10 < t.count.toNat / 2 ^ i := by
    rw [← hsize, ← BitVec.toNat_udiv]
    exact hload
  have hmul : 11 * 2 ^ i ≤ t.count.toNat := (Nat.le_div_iff_mul_le (Nat.two_pow_pos i)).mp hdiv
  have hcard : t.count.toNat ≤ 2 ^ 31 := hr.count.trans_le hr.card_le
  by_contra hlt
  have hpow : 2 ^ 28 ≤ 2 ^ i := Nat.pow_le_pow_right (by decide) (by omega)
  omega

/-- Doubling re-routes keys and moves no node. -/
theorem grow (hr : Rep t m nodes) : Rep t.grow m nodes := by
  rw [Table.grow]
  by_cases hload : t.count / t.size > loadFactor
  · simp only [if_pos hload]
    obtain ⟨i, hi, hi', hsize⟩ := hr.size_of_load hload
    have hpow : 2 ^ (i + 1) ≤ 2 ^ 28 := Nat.pow_le_pow_right (by decide) (by omega)
    rw [Nat.pow_succ] at hpow
    have hdouble : (2 * t.size).toNat = 2 ^ (i + 1) := by
      have htwo : (2 : Word).toNat = 2 := rfl
      rw [BitVec.toNat_mul, hsize, htwo, Nat.mod_eq_of_lt (by omega), Nat.pow_succ']
    have hint : t.size.toInt.toNat = t.size.toNat := by
      rw [BitVec.toInt_eq_toNat_of_lt (by omega), Int.toNat_natCast]
    have hold : ∀ b d, (t.buckets ++ List.replicate t.size.toInt.toNat none)[BitVec.toNat b]?
        = some (some d) ↔ t.bucketAt b = some (some d) := by
      intro b d
      rw [Table.bucketAt, List.getElem?_append]
      by_cases hb : b.toNat < t.buckets.length
      · rw [if_pos hb]
      · rw [if_neg hb, List.getElem?_replicate, List.getElem?_eq_none (not_lt.mp hb)]
        simp
    refine ⟨hr.list, ⟨i + 1, by omega, by omega, hdouble⟩, ?_, fun b d hd => ?_, fun a ha => ?_,
      hr.key, hr.low, hr.count⟩
    · rw [List.length_append, List.length_replicate, hint, hr.buckets, hdouble, hsize,
        Nat.pow_succ, Nat.mul_two]
    · exact hr.dummy b d ((hold b d).mp hd)
    · rcases hr.node a ha with ⟨b, hb⟩ | hk
      · exact .inl ⟨b, (hold b a).mpr hb⟩
      · exact .inr hk
  · simp only [if_neg hload]
    exact hr

/-- A node for a new key. -/
theorem insert (hr : Rep t m nodes) {h : Heap Word} {data : Word} {value : ℤ} {a : Addr}
    (hadd : Added t.heap h nodes (reverseRegularKey data) (some value) a nodes')
    (hnew : HashTable.low data ∉ m) :
    Rep { t with heap := h, count := t.count + 1 }
      (Finmap.insert (HashTable.low data) value m) nodes' := by
  refine ⟨hadd.holds, hr.size, hr.buckets, fun b d hd => ?_, fun x hx => ?_, fun k hk => ?_,
    fun k hk => ?_, ?_⟩
  · obtain ⟨hmem, hdata⟩ := hr.dummy b d hd
    exact ⟨(hadd.mem d).mpr (.inr hmem), (hadd.frame.data d hmem).trans hdata⟩
  · rcases (hadd.mem x).mp hx with rfl | hx
    · refine .inr ⟨HashTable.low data, ?_, hadd.key.trans (reverseRegularKey_low data).symm⟩
      rw [Finmap.lookup_insert, hadd.value value rfl]
    · rcases hr.node x hx with hb | ⟨k, hk, hdata⟩
      · exact .inl hb
      · have hne : k ≠ HashTable.low data := by
          rintro rfl
          exact hnew (Finmap.mem_of_lookup_eq_some hk)
        refine .inr ⟨k, ?_, (hadd.frame.data x hx).trans hdata⟩
        rw [Finmap.lookup_insert_of_ne m hne, hk, hadd.frame.value x hx]
  · rcases Finmap.mem_insert.mp hk with rfl | hk
    · exact ⟨a, (hadd.mem a).mpr (.inl rfl), hadd.key.trans (reverseRegularKey_low data).symm⟩
    · obtain ⟨x, hx, hdata⟩ := hr.key k hk
      exact ⟨x, (hadd.mem x).mpr (.inr hx), (hadd.frame.data x hx).trans hdata⟩
  · rcases Finmap.mem_insert.mp hk with rfl | hk
    · exact low_low data
    · exact hr.low k hk
  · have hkeys : (Finmap.insert (HashTable.low data) value m).keys
        = Insert.insert (HashTable.low data) m.keys := by
      ext k
      rw [Finmap.mem_keys, Finmap.mem_insert, Finset.mem_insert, Finmap.mem_keys]
    have hcard := hr.card_le
    have hcount := hr.count
    have hone : (1 : Word).toNat = 1 := rfl
    rw [hkeys, Finset.card_insert_of_notMem (mt Finmap.mem_keys.mp hnew), BitVec.toNat_add, hone,
      hcount, Nat.mod_eq_of_lt (by omega)]

/-- The node of a key is gone. -/
theorem remove (hr : Rep t m nodes) {h : Heap Word} {data : Word} {a : Addr}
    (hrem : Removed t.heap h nodes a nodes') (ha : a ∈ nodes)
    (hdata : t.heap.data a = reverseRegularKey data) :
    Rep { t with heap := h, count := t.count - 1 } (m.erase (HashTable.low data)) nodes' := by
  have hmem := hr.mem_of_node ha hdata
  refine ⟨hrem.holds, hr.size, hr.buckets, fun b d hd => ?_, fun x hx => ?_, fun k hk => ?_,
    fun k hk => hr.low k (Finmap.mem_erase.mp hk).2, ?_⟩
  · obtain ⟨hd', hdummy⟩ := hr.dummy b d hd
    have hne : d ≠ a := by
      rintro rfl
      exact reverseRegularKey_ne_reverseDummyKey (hr.bucket_lt hd) (hdata.symm.trans hdummy)
    exact ⟨(hrem.mem d).mpr ⟨hne, hd'⟩, hrem.data ▸ hdummy⟩
  · obtain ⟨hne, hx⟩ := (hrem.mem x).mp hx
    rcases hr.node x hx with hb | ⟨k, hk, hkey⟩
    · exact .inl hb
    · have hk' : k ≠ HashTable.low data := by
        rintro rfl
        rw [reverseRegularKey_low] at hkey
        exact hne (hr.list.inj hx ha (hkey.trans hdata.symm))
      refine .inr ⟨k, ?_, hrem.data ▸ hkey⟩
      rw [Finmap.lookup_erase_ne hk', hrem.value]
      exact hk
  · obtain ⟨hne, hk⟩ := Finmap.mem_erase.mp hk
    obtain ⟨x, hx, hkey⟩ := hr.key k hk
    have hxa : x ≠ a := by
      rintro rfl
      have hlow := reverseRegularKey_eq_iff.mp (hkey.symm.trans hdata)
      exact hne ((hr.low k hk).symm.trans hlow)
    exact ⟨x, (hrem.mem x).mpr ⟨hxa, hx⟩, hrem.data ▸ hkey⟩
  · have hkey : HashTable.low data ∈ m.keys := Finmap.mem_keys.mpr hmem
    have hpos : 0 < m.keys.card := Finset.card_pos.mpr ⟨_, hkey⟩
    have hcount := hr.count
    have hone : (1 : Word).toNat = 1 := rfl
    rw [Finmap.keys_erase, Finset.card_erase_of_mem hkey,
      BitVec.toNat_sub_of_le (show (1 : Word).toNat ≤ t.count.toNat by omega), hcount, hone]

end Rep

theorem insertKey_spec (hr : Rep t m nodes) (data : Word) (value : ℤ) :
    ∃ t' nodes', t.insertKey data value = some (t', decide (low data ∉ m))
      ∧ Rep t' (if low data ∈ m then m else Finmap.insert (low data) value m) nodes' := by
  obtain ⟨t₁, nodes₁, start, hfor, hr₁, hbegin⟩ := bucketFor_spec hr data
  have hdummy : ∀ a, (none : Option Addr) = some a → a ∉ nodes₁ ∧ a < t₁.heap.fresh := by simp
  rcases insert_spec hr₁.list (some value) hbegin hdummy with
    ⟨a, ha, hdata, h, hh, hf, hins⟩ | ⟨hno, h, a, nodes', hadd, -, hins⟩
  · have hmem := hr₁.mem_of_node ha hdata
    refine ⟨{ t₁ with heap := h }, nodes₁, ?_, ?_⟩
    · simp [Table.insertKey, hfor, hins, hmem]
    · rw [if_pos hmem]
      exact hr₁.heap hh hf
  · have hnew := hr₁.not_mem_of_no_node hno
    refine ⟨{ t₁ with heap := h, count := t₁.count + 1 }.grow, nodes', ?_, ?_⟩
    · simp [Table.insertKey, hfor, hins, hnew]
    · rw [if_neg hnew]
      exact (hr₁.insert hadd hnew).grow

theorem removeKey_spec (hr : Rep t m nodes) (data : Word) :
    ∃ t' nodes', t.removeKey data = some (t', decide (low data ∈ m))
      ∧ Rep t' (m.erase (low data)) nodes' := by
  obtain ⟨t₁, nodes₁, start, hfor, hr₁, hbegin⟩ := bucketFor_spec hr data
  rcases remove_spec hr₁.list hbegin with
    ⟨a, ha, hdata, h, nodes', hrem, hres⟩ | ⟨hno, hres⟩
  · have hmem := hr₁.mem_of_node ha hdata
    refine ⟨{ t₁ with heap := h, count := t₁.count - 1 }, nodes', ?_, hr₁.remove hrem ha hdata⟩
    simp [Table.removeKey, hfor, hres, hmem]
  · have hnew := hr₁.not_mem_of_no_node hno
    refine ⟨{ t₁ with heap := t₁.heap.enter start }, nodes₁, ?_, ?_⟩
    · simp [Table.removeKey, hfor, hres, hnew]
    · have herase : m.erase (low data) = m := by
        apply Finmap.ext_lookup
        intro k
        by_cases hk : k = low data
        · rw [hk, Finmap.lookup_erase, Finmap.lookup_eq_none.mpr hnew]
        · exact Finmap.lookup_erase_ne hk
      rw [herase]
      exact hr₁.heap (hr₁.list.enter start) ⟨fun _ _ => rfl, fun _ _ => rfl⟩

theorem findKey_spec (hr : Rep t m nodes) (data : Word) (value : Option ℤ) :
    ∃ t' nodes', t.findKey data value = some (t', (m.step (.findKey (low data) value)).2)
      ∧ Rep t' m nodes' := by
  obtain ⟨t₁, nodes₁, start, hfor, hr₁, hbegin⟩ := bucketFor_spec hr data
  have hr' := hr₁.heap (hr₁.list.enter start) ⟨fun _ _ => rfl, fun _ _ => rfl⟩
  refine ⟨{ t₁ with heap := t₁.heap.enter start }, nodes₁, ?_, hr'⟩
  rcases lookup_spec hr₁.list value hbegin with ⟨a, ha, hdata, hres⟩ | ⟨hno, hres⟩
  · have hlook := hr₁.lookup_of_node ha hdata
    simp [Table.findKey, hfor, hres, Map.step, hlook]
  · have hlook := Finmap.lookup_eq_none.mpr (hr₁.not_mem_of_no_node hno)
    simp [Table.findKey, hfor, hres, Map.step, hlook]

end HashTable

end HttpServer
